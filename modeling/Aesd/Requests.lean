import Aesd.DriverLog

/-!
# Requests one at a time

What a single `aesd_read` or `aesd_write` does to the state around it, in every run:
a request that fails does nothing at all; a write that succeeds moves the position by
the size of the block it built, which is what it accepted only when no partial entry
was pending; and every access stays inside its block unless an empty write meets an
empty device.
-/

namespace Aesd

open MachineWord
open BlockHeap
open OffsetLookup

/-! ## Failed requests -/

def Call.IsRequest : Call → Prop
  | .read .. | .write .. => True
  | _ => False

def Outcome.failed (o : Outcome) : Bool := o.retval < 0

theorem Models.exec_failed {k : Kernel} {log : Log} (h : Models k log) {fPos : ℤ} {call : Call}
    (hcall : call.IsRequest) {o : Outcome} (hexec : call.exec k fPos = .ok o)
    (hfailed : o.retval < 0) : o.kernel = k ∧ o.fPos = fPos := by
  cases call with
  | read fd env count =>
      obtain ⟨o', hread, hk, hcases⟩ := h.aesdRead_cases env count fPos
      cases hexec.symm.trans hread
      rcases hcases with ⟨-, hpos⟩ | ⟨_, _, _, -, -, -, -, hret, -⟩
      · exact ⟨hk, hpos⟩
      · omega
  | write fd env buf =>
      rcases h.aesdWrite_cases env buf.length_lt fPos with
        ⟨-, r, -, hwrite⟩ | ⟨-, k', -, hwrite⟩ | ⟨-, hwrite⟩
      · cases hexec.symm.trans hwrite
        exact ⟨rfl, rfl⟩
      · cases hexec.symm.trans hwrite
        exact absurd hfailed (not_lt.mpr (Int.natCast_nonneg _))
      · cases hexec.symm.trans hwrite
  | openFile | llseek | ioctl | release => exact hcall.elim

theorem Models.step_failed {s s' : System} {log : Log} (h : Models s.kernel log) {call : Call}
    (hcall : call.IsRequest) {o : Outcome} (hstep : s.step call = .ok (s', o))
    (hfailed : o.retval < 0) : s' = s := by
  obtain ⟨hexec, rfl⟩ := System.step_eq_ok_iff.mp hstep
  obtain ⟨hk, hpos⟩ := h.exec_failed hcall hexec hfailed
  rw [hk, hpos, Function.update_eq_self]

/-- Failed reads and writes are invisible: each of them leaves the whole system as it
was, and a run without them ends in the same state with the same other results. -/
theorem failed_requests_invisible (start : System) (hstart : start.Reachable) (calls : List Call)
    (hcalls : ∀ call ∈ calls, call.IsRequest) :
    ((∀ call ∈ calls, call.NonEmpty) →
      ∃ s os, FallibleRun.run System.step start calls = .ok (s, os)) ∧
    ∀ s os, FallibleRun.run System.step start calls = .ok (s, os) →
      (∀ call s' o, call.IsRequest → s.step call = .ok (s', o) → o.retval < 0 → s' = s) ∧
      FallibleRun.run System.step start (FallibleRun.kept Outcome.failed calls os) =
        .ok (s, os.filter fun o ↦ !o.failed) := by
  obtain ⟨log, hmodels⟩ := hstart.models
  refine ⟨hmodels.run_nonEmpty, ?_⟩
  intro s os hrun
  refine ⟨?_, ?_⟩
  · intro call s' o hcall hstep hfailed
    obtain ⟨_, h⟩ := hmodels.run hrun
    exact h.step_failed hcall hstep hfailed
  · refine FallibleRun.run_kept (fun s : System ↦ ∃ log, Models s.kernel log) ?_
      ⟨log, hmodels⟩ hcalls hrun
    rintro s call s' o ⟨log, h⟩ hcall hstep
    refine ⟨⟨_, h.step hstep⟩, ?_⟩
    intro hfailed
    exact h.step_failed hcall hstep (of_decide_eq_true hfailed)

/-- An unfinished command, and then a write without memory, a write that cannot be
copied and an interrupted read before the command is finished. -/
def troubledRequests : List Call :=
  [.write 0 .calm (.ofList [97]), .write 1 ⟨false, true, fun _ ↦ 0, 0⟩ (.ofList [98, 10]),
    .write 1 ⟨false, false, fun _ ↦ 0, 1⟩ (.ofList [98, 10]),
    .read 1 ⟨true, false, fun _ ↦ 0, 0⟩ 8, .write 0 .calm (.ofList [10])]

theorem failed_requests_invisible_troubledRequests :
    ∃ s os, FallibleRun.run System.step System.loaded troubledRequests = .ok (s, os) ∧
      os.map Outcome.retval = [1, -12, -14, -4, 1] ∧
      FallibleRun.run System.step System.loaded
          (FallibleRun.kept Outcome.failed troubledRequests os) =
        .ok (s, os.filter fun o ↦ !o.failed) := by
  obtain ⟨hruns, hkept⟩ := failed_requests_invisible System.loaded ⟨[], [], rfl⟩ troubledRequests
    (by simp [troubledRequests, Call.IsRequest])
  obtain ⟨s, os, hrun⟩ := hruns (by simp [troubledRequests, Call.NonEmpty, UserBuf.ofList])
  have hret : (FallibleRun.run System.step System.loaded troubledRequests).toOption.map
      (fun r ↦ r.2.map Outcome.retval) = some [1, -12, -14, -4, 1] := by
    decide
  rw [hrun] at hret
  exact ⟨s, os, hrun, by simpa [Except.toOption] using hret, (hkept s os hrun).2⟩

/-! ## The position of a file that is written to -/

def Call.IsWrite : Call → Prop
  | .write _ _ buf => buf.bytes ≠ []
  | _ => False

theorem Call.IsWrite.nonEmpty {call : Call} (h : call.IsWrite) : call.NonEmpty := by
  cases call with
  | write fd env buf => exact h
  | openFile | read | llseek | ioctl | release => exact h.elim

/-- What the calls on `fd` reported as written. -/
def accepted (fd : ℕ) (past : List (Call × Outcome)) : ℤ :=
  ((past.filter fun e ↦ e.1.fd = fd ∧ 0 ≤ e.2.retval).map fun e ↦ e.2.retval).sum

theorem accepted_concat (fd : ℕ) (past : List (Call × Outcome)) (call : Call) (o : Outcome) :
    accepted fd (past ++ [(call, o)]) =
      accepted fd past + if call.fd = fd ∧ 0 ≤ o.retval then o.retval else 0 := by
  rw [accepted, List.filter_append, List.map_append, List.sum_append]
  by_cases hcounts : call.fd = fd ∧ 0 ≤ o.retval
  · simp [accepted, hcounts]
  · rw [if_neg hcounts, List.filter_cons_of_neg (by simpa using hcounts)]
    rfl

theorem accepted_nonneg (fd : ℕ) (past : List (Call × Outcome)) : 0 ≤ accepted fd past := by
  apply List.sum_nonneg
  intro r hr
  obtain ⟨e, he, rfl⟩ := List.mem_map.mp hr
  have hcounts := (List.mem_filter.mp he).2
  simp only [decide_eq_true_eq] at hcounts
  exact hcounts.2

/-- The circumstances in which `aesd_write` turns a request down. -/
def Kernel.Refuses (k : Kernel) (env : Env) (buf : List UInt8) : Prop :=
  env.interrupted = true ∨ env.kmallocFails = true ∨
    kmallocLimit < buf.length + k.aesdDevice.partialEntry.size ∨ min env.uncopied buf.length ≠ 0

theorem Layout.refuses_iff {k : Kernel} {log : Log} {es : List AesdBufferEntry}
    {cmds : List (ℕ × List UInt8)} {pend : Option (ℕ × List UInt8)}
    (h : Layout k log es cmds pend) (env : Env) (buf : List UInt8) :
    k.Refuses env buf ↔ WriteRefused env log buf := by
  rw [Kernel.Refuses, WriteRefused, h.partialEntry_size, List.length_append, Nat.add_comm]

/-- A write on `fd` that is accepted finds no partial entry and room in `loff_t`. -/
def Call.StartsFresh (fd : ℕ) (s : System) : Call → Prop
  | .write g env buf => g = fd → ¬ s.kernel.Refuses env buf.bytes →
      s.kernel.aesdDevice.partialEntry.buffptr = none ∧ s.fPos fd + buf.bytes.length < 2 ^ 63
  | _ => True

/-- The position moves by the size of the block, which is the count only when
nothing was pending. -/
theorem wrapS_block_eq_iff {p : ℤ} (hp : 0 ≤ p) {pending count : ℕ} (hle : pending ≤ kmallocLimit) :
    wrapS 64 (p + (pending + count : ℕ)) = p + count ↔
      pending = 0 ∧ p + count < 2 ^ 63 := by
  constructor
  · intro heq
    have hmod := wrapS_emod 64 (p + (pending + count : ℕ))
    rw [heq] at hmod
    obtain rfl : pending = 0 := by
      simp only [kmallocLimit] at hle
      omega
    rw [Nat.zero_add] at heq
    exact ⟨rfl, (wrapS_eq_self_iff.mp heq).2⟩
  · rintro ⟨rfl, hlt⟩
    rw [Nat.zero_add]
    exact wrapS_of_range (by omega) hlt

theorem Models.step_position {s s' : System} {log : Log} (h : Models s.kernel log) {fd : ℕ}
    {past : List (Call × Outcome)} (hpos : s.fPos fd = accepted fd past) {call : Call}
    (hcall : call.IsWrite) {o : Outcome} (hstep : s.step call = .ok (s', o)) :
    s'.fPos fd = accepted fd (past ++ [(call, o)]) ↔ call.StartsFresh fd s := by
  obtain ⟨hexec, rfl⟩ := System.step_eq_ok_iff.mp hstep
  rw [accepted_concat, ← hpos]
  cases call with
  | openFile | read | llseek | ioctl | release => exact hcall.elim
  | write g env buf =>
      simp only [Call.StartsFresh, Call.fd, Call.exec] at hexec ⊢
      by_cases hg : g = fd
      · subst hg
        have hnonneg : 0 ≤ s.fPos g := by
          rw [hpos]
          exact accepted_nonneg g past
        have hcases := h.aesdWrite_cases env buf.length_lt (s.fPos g)
        obtain ⟨_, _, _, hlayout⟩ := h
        simp only [Function.update_self, true_and, forall_const, hlayout.refuses_iff]
        rcases hcases with ⟨hrefused, r, hr, hwrite⟩ | ⟨hok, k', -, hwrite⟩ | ⟨hnil, -⟩
        · cases hexec.symm.trans hwrite
          simp [hrefused, not_le.mpr hr]
        · cases hexec.symm.trans hwrite
          rw [if_pos (Int.natCast_nonneg _), List.length_append,
            wrapS_block_eq_iff hnonneg hlayout.pending_length_le,
            hlayout.partialEntry_buffptr_eq_none_iff, List.length_eq_zero_iff]
          simp [hok]
        · exact absurd (List.append_eq_nil_iff.mp hnil).2 hcall
      · simp [hg, Function.update_of_ne (Ne.symm hg)]

def PositionIsAccepted (start : System) (fd : ℕ) (calls : List Call) : Prop :=
  ∀ n ≤ calls.length, ∃ s os,
    FallibleRun.run System.step start (calls.take n) = .ok (s, os) ∧
      s.fPos fd = accepted fd ((calls.take n).zip os)

/-- The position of a file that starts at zero is what its writes accepted, throughout
a run of writes by any files, exactly when no accepted write on it finds a partial
entry or runs out of `loff_t`. -/
theorem positionIsAccepted_iff (start : System) (hstart : start.Reachable) (fd : ℕ)
    (hfd : start.fPos fd = 0) (calls : List Call) (hcalls : ∀ call ∈ calls, call.IsWrite) :
    PositionIsAccepted start fd calls ↔
      ∀ n call s os, calls[n]? = some call →
        FallibleRun.run System.step start (calls.take n) = .ok (s, os) →
          call.StartsFresh fd s := by
  refine FallibleRun.run_always_iff (fun s : System ↦ ∃ log, Models s.kernel log) Call.IsWrite
    (fun s past ↦ s.fPos fd = accepted fd past) (fun s call ↦ call.StartsFresh fd s) ?_ ?_
    hstart.models hfd hcalls
  · intro s call h hcall
    exact step_nonEmpty s call h hcall.nonEmpty
  · rintro s past call s' o ⟨log, h⟩ hcall hpos hstep
    exact h.step_position hpos hcall hstep

def twoCommands : List Call :=
  [.write 0 .calm (.ofList [97, 10]), .write 0 .calm (.ofList [98, 98, 10])]

theorem positionIsAccepted_twoCommands : PositionIsAccepted System.loaded 0 twoCommands := by
  refine (positionIsAccepted_iff System.loaded ⟨[], [], rfl⟩ 0 rfl twoCommands
    (by simp [twoCommands, Call.IsWrite, UserBuf.ofList])).mpr ?_
  have hfresh : ∀ n < 2,
      (FallibleRun.run System.step System.loaded (twoCommands.take n)).toOption.map
          (fun r ↦ (r.1.kernel.aesdDevice.partialEntry.buffptr, r.1.fPos 0)) =
        some (none, if n = 0 then 0 else 2) := by
    decide
  intro n call s os hcall hrun
  obtain ⟨hn, rfl⟩ := List.getElem?_eq_some_iff.mp hcall
  have hstate := hfresh n hn
  rw [hrun] at hstate
  simp only [Except.toOption, Option.map_some, Option.some_inj, Prod.mk.injEq] at hstate
  obtain ⟨hptr, hpos⟩ := hstate
  match n, hn with
  | 0, _ => exact fun _ _ ↦ ⟨hptr, by rw [hpos]; decide⟩
  | 1, _ => exact fun _ _ ↦ ⟨hptr, by rw [hpos]; decide⟩

def twoPieces : List Call :=
  [.write 0 .calm (.ofList [97]), .write 0 .calm (.ofList [98])]

/-- The second piece of a command moves the position over the first one again. -/
theorem not_positionIsAccepted_twoPieces : ¬ PositionIsAccepted System.loaded 0 twoPieces := by
  intro hall
  obtain ⟨s, os, hrun, hpos⟩ := hall 2 le_rfl
  have hdrift : (FallibleRun.run System.step System.loaded (twoPieces.take 2)).toOption.map
      (fun r ↦ (r.1.fPos 0, accepted 0 ((twoPieces.take 2).zip r.2))) = some (3, 2) := by
    decide
  rw [hrun] at hdrift
  simp only [Except.toOption, Option.map_some, Option.some_inj, Prod.mk.injEq] at hdrift
  rw [hdrift.1, hdrift.2] at hpos
  exact absurd hpos (by decide)

/-! ## Accesses to kernel buffers -/

def Kernel.bufferSize (k : Kernel) (buf : List UInt8) : ℕ :=
  wrapU 64 (buf.length + k.aesdDevice.partialEntry.size)

/-- A write of `buf` and a read at `fPos` stay inside the kernel buffers they use, and
an empty write changes nothing.  Every access of the model is checked, so a call that
returns made none out of range; the indices of the source are listed beside that. -/
structure AccessesInRange (env : Env) (k : Kernel) (buf : List UInt8) (count : ℕ) (fPos : ℤ) :
    Prop where
  write_returns : ∃ o, aesdWrite env k buf fPos = .ok o
  copied_le : k.aesdDevice.partialEntry.size + buf.length ≤ k.bufferSize buf
  tested_lt : ¬ k.Refuses env buf → subU 64 (k.bufferSize buf) 1 < k.bufferSize buf
  read_returns : ∃ o, aesdRead env k count fPos = .ok o
  entryOffset_lt : ∀ index entryOffset,
    aesdCircularBufferFindEntryOffsetForFpos k.aesdDevice.buffer (toU 64 fPos) =
        some (index, entryOffset) →
      entryOffset < (k.aesdDevice.buffer.slot index).size
  empty_write : buf = [] →
    ∃ o, aesdWrite env k buf fPos = .ok o ∧ o.retval = 0 ∧
      o.kernel.storedCommands = k.storedCommands ∧
      o.kernel.bytesOf o.kernel.aesdDevice.partialEntry = k.bytesOf k.aesdDevice.partialEntry

theorem Log.write_nil {log : Log} (h : log.pending.getLast? ≠ some newline) :
    log.write [] = log := by
  rw [Log.write, List.append_nil, if_neg h]

section Accesses

variable {env : Env} {k : Kernel} {log : Log} {es : List AesdBufferEntry}
  {cmds : List (ℕ × List UInt8)} {pend : Option (ℕ × List UInt8)} {buf : List UInt8}

theorem Layout.kernel_bufferSize (h : Layout k log es cmds pend) (hbuf : buf.length < 2 ^ 31) :
    k.bufferSize buf = log.pending.length + buf.length := by
  rw [Kernel.bufferSize, h.bufferSize_eq hbuf, List.length_append]

theorem Layout.entryOffset_lt (h : Layout k log es cmds pend) {charOffset index entryOffset : ℕ}
    (hfind : aesdCircularBufferFindEntryOffsetForFpos k.aesdDevice.buffer charOffset =
      some (index, entryOffset)) :
    entryOffset < (k.aesdDevice.buffer.slot index).size := by
  have hsum := h.sum_sizes_lt
  rw [h.holds.findEntryOffsetForFpos (by rw [h.walk_sizes]; omega), Option.map_eq_some_iff] at hfind
  obtain ⟨⟨j, o⟩, hloc, heq⟩ := hfind
  cases heq
  obtain ⟨e, he, ho, -⟩ := (locate_map_eq_some_iff _ _ _ _ _).mp hloc
  rw [AesdCircularBuffer.walk_getElem? he]
  exact ho

theorem Layout.pending_append_ne_nil (h : Layout k log es cmds pend)
    (hcond : buf ≠ [] ∨ k.aesdDevice.partialEntry.buffptr ≠ none) : log.pending ++ buf ≠ [] := by
  intro hnil
  obtain ⟨hpend, rfl⟩ := List.append_eq_nil_iff.mp hnil
  rcases hcond with hbuf | hptr
  · exact hbuf rfl
  · exact hptr (h.partialEntry_buffptr_eq_none_iff.mpr hpend)

theorem Layout.aesdWrite_returns (h : Layout k log es cmds pend) (hbuf : buf.length < 2 ^ 31)
    (hne : log.pending ++ buf ≠ []) (fPos : ℤ) : ∃ o, aesdWrite env k buf fPos = .ok o := by
  by_cases hrefused : WriteRefused env log buf
  · obtain ⟨r, -, hwrite⟩ := h.aesdWrite_refused hbuf hrefused fPos
    exact ⟨_, hwrite⟩
  · obtain ⟨k', hwrite, -⟩ := h.aesdWrite_accepted hbuf hne hrefused fPos
    exact ⟨_, hwrite⟩

theorem Layout.not_refused_nil (h : Layout k log es cmds pend) (hint : env.interrupted = false)
    (hfails : env.kmallocFails = false) : ¬ WriteRefused env log [] := by
  have hle := h.pending_length_le
  simp only [WriteRefused, hint, hfails, List.append_nil, List.length_nil, Nat.min_zero]
  simpa using hle

/-- An empty write on top of pending bytes builds the same partial entry again. -/
theorem Layout.aesdWrite_nil (h : Layout k log es cmds pend) (hint : env.interrupted = false)
    (hfails : env.kmallocFails = false) (hptr : k.aesdDevice.partialEntry.buffptr ≠ none)
    (fPos : ℤ) :
    ∃ o, aesdWrite env k [] fPos = .ok o ∧ o.retval = 0 ∧
      o.kernel.storedCommands = k.storedCommands ∧
      o.kernel.bytesOf o.kernel.aesdDevice.partialEntry =
        k.bytesOf k.aesdDevice.partialEntry := by
  have hne : log.pending ++ [] ≠ [] := by
    rw [List.append_nil]
    exact fun hnil ↦ hptr (h.partialEntry_buffptr_eq_none_iff.mpr hnil)
  obtain ⟨k', hwrite, _, _, _, h'⟩ := h.aesdWrite_accepted (by decide) hne
    (h.not_refused_nil hint hfails) fPos
  rw [Log.write_nil h.pending_open] at h'
  refine ⟨_, hwrite, rfl, ?_, ?_⟩
  · rw [h.storedCommands_eq]
    exact h'.storedCommands_eq
  · rw [h.partialBytes_eq]
    exact h'.partialBytes_eq

/-- An empty write that is refused reports so. -/
theorem Layout.aesdWrite_nil_ne_zero (h : Layout k log es cmds pend)
    (hrefused : env.interrupted = true ∨ env.kmallocFails = true) (fPos : ℤ) {o : Outcome}
    (hwrite : aesdWrite env k [] fPos = .ok o) : o.retval ≠ 0 := by
  have hrefused' : WriteRefused env log [] := hrefused.imp_right Or.inl
  obtain ⟨r, hr, hwrite'⟩ := h.aesdWrite_refused (by decide) hrefused' fPos
  cases hwrite.symm.trans hwrite'
  exact hr.ne

end Accesses

/-- The accesses are in range and an empty write does nothing exactly when the write is not empty,
or bytes are pending and the write gets the mutex and its block. -/
theorem accessesInRange_iff (s : System) (hs : s.Reachable) (env : Env) (buf : UserBuf)
    (count : ℕ) (fPos : ℤ) :
    AccessesInRange env s.kernel buf.bytes count fPos ↔
      buf.bytes ≠ [] ∨ (s.kernel.aesdDevice.partialEntry.buffptr ≠ none ∧
        env.interrupted = false ∧ env.kmallocFails = false) := by
  obtain ⟨log, hmodels⟩ := hs.models
  obtain ⟨o, hread, -⟩ := hmodels.aesdRead_cases env count fPos
  obtain ⟨_, _, _, h⟩ := hmodels
  constructor
  · intro haccess
    by_cases hnil : buf.bytes = []
    · obtain ⟨o', hwrite, hzero, -⟩ := haccess.empty_write hnil
      rw [hnil] at hwrite
      have hgranted : ¬ (env.interrupted = true ∨ env.kmallocFails = true) := fun hrefused ↦
        h.aesdWrite_nil_ne_zero hrefused fPos hwrite hzero
      simp only [not_or, Bool.not_eq_true] at hgranted
      refine Or.inr ⟨?_, hgranted⟩
      intro hptr
      have hfault := h.aesdWrite_empty (h.partialEntry_buffptr_eq_none_iff.mp hptr)
        (h.not_refused_nil hgranted.1 hgranted.2) fPos
      cases hwrite.symm.trans hfault
    · exact Or.inl hnil
  · intro hcond
    have hne := h.pending_append_ne_nil (hcond.imp_right And.left)
    have hsize := h.kernel_bufferSize buf.length_lt
    refine
      { write_returns := h.aesdWrite_returns buf.length_lt hne fPos
        copied_le := by rw [hsize, h.partialEntry_size]
        tested_lt := ?_
        read_returns := ⟨o, hread⟩
        entryOffset_lt := fun _ _ hfind ↦ h.entryOffset_lt hfind
        empty_write := ?_ }
    · intro _
      have hpos := List.length_pos_of_ne_nil hne
      have hlt := buf.length_lt
      have hle : log.pending.length ≤ 2 ^ 32 := h.pending_length_le
      rw [List.length_append] at hpos
      rw [hsize, subU_of_le hpos (by omega)]
      omega
    · intro hnil
      obtain ⟨hptr, hint, hfails⟩ := hcond.resolve_left (not_not.mpr hnil)
      rw [hnil]
      exact h.aesdWrite_nil hint hfails hptr fPos

def onePiece : System := System.after [.write 0 .calm (.ofList [97])]

theorem accessesInRange_onePiece : AccessesInRange .calm onePiece.kernel [] 8 0 :=
  (accessesInRange_iff onePiece (System.reachable_after _) .calm ⟨[], by decide⟩ 8 0).mpr
    (Or.inr ⟨by decide, rfl, rfl⟩)

/-- On a device without pending bytes an empty write tests the byte in front of its
empty block. -/
theorem not_accessesInRange_loaded : ¬ AccessesInRange .calm System.loaded.kernel [] 8 0 := by
  intro haccess
  obtain ⟨o, hwrite⟩ := haccess.write_returns
  have hfault : (aesdWrite .calm System.loaded.kernel [] 0).toOption.isNone = true := by
    decide
  rw [hwrite] at hfault
  simp [Except.toOption] at hfault

end Aesd
