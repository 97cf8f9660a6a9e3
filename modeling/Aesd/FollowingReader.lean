import Aesd.ConcurrentReaders

/-!
# A reader that stays

A file that is kept open while commands are committed and dropped.  `f_pos` counts from the
oldest command that is still stored, so each dropped command moves the place it stands for
ahead by its length, read or not.  What the reader gets are bytes of the history of all
commands, in order and none twice, each as far ahead of its number as bytes had been dropped
when it was read.  And since `f_pos` never goes back, the bytes that all reads deliver together
are never more than ten commands can hold.
-/

namespace Aesd

open MachineWord
open OffsetLookup
open PrefixReader

/-! ## The history of a log -/

namespace Log

def history (log : Log) : List UInt8 := log.committed.flatten

/-- What was committed and is not stored any more. -/
def evicted (log : Log) : List UInt8 :=
  (log.committed.take (log.committed.length - maxWriteOperationsSupported)).flatten

def after (log : Log) (trace : List (Call × Outcome)) : Log := trace.foldl Log.step log

theorem after_concat (log : Log) (trace : List (Call × Outcome)) (e : Call × Outcome) :
    log.after (trace ++ [e]) = (log.after trace).step e := by
  rw [after, List.foldl_append]
  rfl

theorem history_eq (log : Log) : log.history = log.evicted ++ log.stored.flatten := by
  rw [history, evicted, stored, List.rtake_eq_reverse_take_reverse, List.take_reverse,
    List.reverse_reverse, ← List.flatten_append, List.take_append_drop]

theorem history_prefix_step (log : Log) (e : Call × Outcome) :
    log.history <+: (log.step e).history :=
  (log.committed_prefix_step e).flatten

theorem length_evicted_le_step (log : Log) (e : Call × Outcome) :
    log.evicted.length ≤ (log.step e).evicted.length := by
  obtain ⟨new, hnew⟩ := log.committed_prefix_step e
  have hsame : (log.committed ++ new).take (log.committed.length - maxWriteOperationsSupported) =
      log.committed.take (log.committed.length - maxWriteOperationsSupported) :=
    List.take_append_of_le_length (Nat.sub_le _ _)
  rw [evicted, evicted, ← hnew, ← hsame, List.length_append]
  exact ((List.take_prefix_take_left (by omega)).flatten).length_le

end Log

/-- How many bytes had been dropped when each of the bytes that `fd` received was read. -/
def skipped (fd : ℕ) (log : Log) : List (Call × Outcome) → List ℕ
  | [] => []
  | e :: trace =>
      List.replicate (receivedAt fd e).length log.evicted.length ++ skipped fd (log.step e) trace

theorem skipped_concat (fd : ℕ) (log : Log) (trace : List (Call × Outcome)) (e : Call × Outcome) :
    skipped fd log (trace ++ [e]) = skipped fd log trace ++
      List.replicate (receivedAt fd e).length (log.after trace).evicted.length := by
  induction trace generalizing log with
  | nil => simp [skipped, Log.after]
  | cons first trace ih =>
      rw [List.cons_append, skipped, ih, skipped, List.append_assoc]
      rfl

/-! ## One read -/

/-- A read takes up the history where the position, counted from the first stored byte, is. -/
theorem Models.aesdRead_follows {k : Kernel} {log : Log} (h : Models k log) {env : Env}
    {count p : ℕ} (hp : p < 2 ^ 63) {o : Outcome} (hread : aesdRead env k count p = .ok o)
    {new : List UInt8}
    (hnew : new = if 0 < o.retval then o.copied else []) :
    o.fPos = (p + new.length : ℕ) ∧ new <+: log.history.drop (p + log.evicted.length) ∧
      (new = [] ∨ p + new.length ≤ log.stored.flatten.length) := by
  have hlen := h.length_content_lt
  rw [Kernel.content, h.storedCommands_eq] at hlen
  obtain ⟨o', hread', -, hcases⟩ := h.aesdRead_cases env count p
  cases hread.symm.trans hread'
  rw [toU_natCast (by omega)] at hcases
  rcases hcases with ⟨hret, hstay⟩ | ⟨j, c, off, hc, hoff, hsum, hcopied, hret, hmove⟩
  · rw [hnew, if_neg (not_lt.mpr hret)]
    exact ⟨hstay, List.nil_prefix, Or.inl rfl⟩
  · have hpiece : c.drop off <+: log.stored.flatten.drop p := by
      rw [← hsum, ← restAt_take_add hc hoff]
      exact (reads_restAt log.stored).consecutive _
    have hbound := hpiece.length_le
    rw [List.length_drop, List.length_drop] at hbound
    rw [hnew, if_pos (by rw [hret]; exact_mod_cast Nat.sub_pos_of_lt hoff), hcopied]
    refine ⟨?_, ?_, Or.inr ?_⟩
    · rw [hmove, List.length_drop, ← Nat.cast_add]
      exact wrapS_natCast (by omega)
    · rwa [log.history_eq, Nat.add_comm, ← List.drop_drop, List.drop_left]
    · rw [List.length_drop]
      omega

/-! ## All reads of an open file -/

structure ReaderFollows (fd : ℕ) (s : System) (log : Log) (bytes : List UInt8) (skips : List ℕ) :
    Prop where
  models : Models s.kernel log
  fPos_eq : s.fPos fd = bytes.length
  length_lt : bytes.length < 2 ^ 36
  length_le : ∀ bound, (∀ c ∈ log.committed, c.length ≤ bound) → bytes.length ≤ 10 * bound
  follows : Follows log.history bytes skips
  skips_le : ∀ e ∈ skips, e ≤ log.evicted.length

theorem ReaderFollows.step {fd : ℕ} {s s' : System} {log : Log} {bytes : List UInt8}
    {skips : List ℕ} {call : Call} {o : Outcome} (h : ReaderFollows fd s log bytes skips)
    (hcall : call.Around fd) (hstep : s.step call = .ok (s', o)) :
    ReaderFollows fd s' (log.step (call, o)) (bytes ++ receivedAt fd (call, o))
      (skips ++ List.replicate (receivedAt fd (call, o)).length log.evicted.length) := by
  have hmodels := h.models.step hstep
  have hgrow := log.history_prefix_step (call, o)
  have hcommitted : ∀ bound, (∀ c ∈ (log.step (call, o)).committed, c.length ≤ bound) →
      ∀ c ∈ log.committed, c.length ≤ bound :=
    fun bound hbound c hc ↦ hbound c ((log.committed_prefix_step (call, o)).subset hc)
  have hevicted : ∀ e ∈ skips ++
      List.replicate (receivedAt fd (call, o)).length log.evicted.length,
      e ≤ (log.step (call, o)).evicted.length := by
    intro e he
    refine le_trans ?_ (log.length_evicted_le_step (call, o))
    rcases List.mem_append.mp he with he | he
    · exact h.skips_le e he
    · exact (List.eq_of_mem_replicate he).le
  obtain ⟨hexec, rfl⟩ := System.step_eq_ok_iff.mp hstep
  rcases hcall with hother | ⟨env, count, rfl⟩
  · rw [receivedAt_of_fd_ne hother] at hevicted ⊢
    simp only [List.append_nil, List.length_nil, List.replicate_zero] at hevicted ⊢
    exact ⟨hmodels, (Function.update_of_ne hother.symm _ _).trans h.fPos_eq, h.length_lt,
      fun bound hbound ↦ h.length_le bound (hcommitted bound hbound), h.follows.grow hgrow,
      hevicted⟩
  · have hread : aesdRead env s.kernel count bytes.length = .ok o := by
      rw [← h.fPos_eq]
      exact hexec
    have hlen := h.models.length_content_lt
    rw [Kernel.content, h.models.storedCommands_eq] at hlen
    obtain ⟨hmove, hpiece, hwithin⟩ := h.models.aesdRead_follows
      (h.length_lt.trans (by norm_num)) hread
      (show receivedAt fd (.read fd env count, o) = _ by simp [receivedAt])
    have happend := h.follows.append h.skips_le hpiece
    refine ⟨hmodels, ?_, ?_, ?_, happend.grow hgrow, hevicted⟩
    · rw [List.length_append]
      exact (Function.update_self ..).trans hmove
    · rcases hwithin with hnil | hle
      · rw [hnil, List.append_nil]
        exact h.length_lt
      · rw [List.length_append]
        exact hle.trans_lt hlen
    · intro bound hbound
      rcases hwithin with hnil | hle
      · rw [hnil, List.append_nil]
        exact h.length_le bound (hcommitted bound hbound)
      · rw [List.length_append]
        refine hle.trans (BoundedRing.length_flatten_rtake_le ?_)
        intro c hc
        exact hcommitted bound hbound c (List.mem_of_mem_drop hc)

section OpenFile

variable {fd : ℕ} {before calls : List Call} {opened s : System} {os₀ os : List Outcome}

theorem readerFollows (hcalls : ∀ call ∈ calls, call.Around fd)
    (hopened : FallibleRun.run System.step System.loaded (before ++ [.openFile fd]) =
      .ok (opened, os₀))
    (hrun : FallibleRun.run System.step opened calls = .ok (s, os)) {log : Log}
    (hlog : log = logOf ((before ++ [Call.openFile fd]).zip os₀)) :
    ReaderFollows fd s (log.after (calls.zip os)) (received fd (calls.zip os))
      (skipped fd log (calls.zip os)) := by
  have hpos : opened.fPos fd = 0 := by
    obtain ⟨mid, os₁, os₂, -, hopen, -⟩ := FallibleRun.run_append_eq_ok.mp hopened
    obtain ⟨next, o, rest, hstep, hnil, -⟩ := FallibleRun.run_cons_eq_ok.mp hopen
    cases hnil
    obtain ⟨hexec, rfl⟩ := System.step_eq_ok_iff.mp hstep
    cases hexec
    exact Function.update_self ..
  have hmodels : Models opened.kernel log := hlog ▸ run_models hopened
  have hstart : ReaderFollows fd opened log [] [] :=
    ⟨hmodels, hpos, by norm_num, fun _ _ ↦ Nat.zero_le _, Follows.nil _, by simp⟩
  refine FallibleRun.run_trace (fun s trace ↦ ReaderFollows fd s (log.after trace)
    (received fd trace) (skipped fd log trace)) (Call.Around fd) ?_ hstart hcalls hrun
  intro s trace call s' o hcall hinv hstep
  rw [Log.after_concat, received_concat, skipped_concat]
  exact hinv.step hcall hstep

end OpenFile

/-- Through a file that is kept open, the `i`-th byte received is byte `i` of the history of all
commands, shifted by as many bytes as had been dropped when it was read; what was received is
therefore in order and comes once, and the next read takes up the history as far ahead as bytes
have been dropped by now. -/
theorem reader_follows_history (fd : ℕ) (before calls : List Call)
    (hcalls : ∀ call ∈ calls, call.Around fd) (opened s : System) (os₀ os : List Outcome)
    (hopened : FallibleRun.run System.step System.loaded (before ++ [.openFile fd]) =
      .ok (opened, os₀))
    (hrun : FallibleRun.run System.step opened calls = .ok (s, os)) (start log : Log)
    (hstart : start = logOf ((before ++ [Call.openFile fd]).zip os₀))
    (hlog : log = start.after (calls.zip os)) :
    Follows log.history (received fd (calls.zip os)) (skipped fd start (calls.zip os)) ∧
      (received fd (calls.zip os)).Sublist log.history ∧
      s.fPos fd = (received fd (calls.zip os)).length ∧
      ∀ env count, env.Undisturbed → ∃ s' o, s.step (.read fd env count) = .ok (s', o) ∧
        o.copied <+: log.history.drop
          ((received fd (calls.zip os)).length + log.evicted.length) ∧
        (o.copied = [] ↔
          log.history.length ≤ (received fd (calls.zip os)).length + log.evicted.length) := by
  subst hlog
  have h := readerFollows hcalls hopened hrun hstart
  refine ⟨h.follows, h.follows.sublist, h.fPos_eq, ?_⟩
  intro env count henv
  have hlt := h.length_lt
  have hread := h.models.step_read henv count h.fPos_eq (by omega)
  have hreads := reads_restAt s.kernel.storedCommands
  refine ⟨_, _, hread, ?_, ?_⟩
  · rw [Log.history_eq, Nat.add_comm, ← List.drop_drop, List.drop_left,
      ← h.models.storedCommands_eq]
    exact hreads.consecutive _
  · rw [Log.history_eq, List.length_append, ← h.models.storedCommands_eq, Nat.add_comm,
      Nat.add_le_add_iff_right]
    exact hreads.piece_eq_nil_iff _

/-- One command is committed and read, then ten more are committed, which drops it. -/
def keptOpen : List Call :=
  .read 0 .calm 1 :: (List.range 10).map (fun i ↦ .write 1 .calm (.ofList [98 + i.toUInt8, 10])) ++
    [.read 0 .calm 1]

def keptOpenBefore : List Call := [.write 1 .calm (.ofList [97, 10])]

theorem keptOpen_around : ∀ call ∈ keptOpen, call.Around 0 := by
  intro call hcall
  simp only [keptOpen, List.cons_append, List.mem_cons, List.mem_append, List.mem_map,
    List.mem_range, List.not_mem_nil, or_false] at hcall
  rcases hcall with rfl | ⟨i, -, rfl⟩ | rfl
  · exact Or.inr ⟨_, _, rfl⟩
  · exact Or.inl one_ne_zero
  · exact Or.inr ⟨_, _, rfl⟩

theorem exists_run_keptOpen :
    ∃ opened s os₀ os,
      FallibleRun.run System.step System.loaded (keptOpenBefore ++ [.openFile 0]) =
        .ok (opened, os₀) ∧
      FallibleRun.run System.step opened keptOpen = .ok (s, os) ∧
      received 0 (keptOpen.zip os) = [97, 10, 99, 10] ∧
      (((logOf ((keptOpenBefore ++ [Call.openFile 0]).zip os₀)).after
        (keptOpen.zip os)).committed.map List.length).max? = some 2 := by
  obtain ⟨opened, os₀, hopened⟩ := run_nonEmpty
    (show ∀ call ∈ keptOpenBefore ++ [Call.openFile 0], call.NonEmpty by
      simp [keptOpenBefore, Call.NonEmpty, UserBuf.ofList])
  obtain ⟨s, os, hrun⟩ := (run_models hopened).run_nonEmpty
    (show ∀ call ∈ keptOpen, call.NonEmpty by
      intro call hcall
      simp only [keptOpen, List.cons_append, List.mem_cons, List.mem_append, List.mem_map,
        List.mem_range, List.not_mem_nil, or_false] at hcall
      rcases hcall with rfl | ⟨i, -, rfl⟩ | rfl <;> simp [Call.NonEmpty, UserBuf.ofList])
  have hbytes : ((FallibleRun.run System.step System.loaded
      (keptOpenBefore ++ [.openFile 0])).toOption.bind fun r₀ ↦
        (FallibleRun.run System.step r₀.1 keptOpen).toOption.map fun r ↦
          (received 0 (keptOpen.zip r.2),
            (((logOf ((keptOpenBefore ++ [Call.openFile 0]).zip r₀.2)).after
              (keptOpen.zip r.2)).committed.map List.length).max?)) =
        some ([97, 10, 99, 10], some 2) := by
    decide +kernel
  rw [hopened] at hbytes
  simp only [Except.toOption, Option.bind_some, hrun, Option.map_some, Option.some_inj,
    Prod.mk.injEq] at hbytes
  exact ⟨opened, s, os₀, os, hopened, hrun, hbytes⟩

/-- The reader is handed the third command after the first: `b` is stored and skipped. -/
theorem reader_follows_history_keptOpen :
    ∃ (s : System) (log : Log) (skips : List ℕ), Follows log.history [97, 10, 99, 10] skips ∧
      s.fPos 0 = 4 := by
  obtain ⟨opened, s, os₀, os, hopened, hrun, hbytes, -⟩ := exists_run_keptOpen
  obtain ⟨hfollows, -, hpos, -⟩ := reader_follows_history 0 _ keptOpen keptOpen_around opened s os₀
    os hopened hrun _ _ rfl rfl
  rw [hbytes] at hfollows hpos
  exact ⟨s, _, _, hfollows, hpos⟩

/-- Through a file that is kept open, all reads together deliver no more than ten commands can
hold, however many are committed. -/
theorem length_received_le (fd : ℕ) (before calls : List Call)
    (hcalls : ∀ call ∈ calls, call.Around fd) (opened s : System) (os₀ os : List Outcome)
    (hopened : FallibleRun.run System.step System.loaded (before ++ [.openFile fd]) =
      .ok (opened, os₀))
    (hrun : FallibleRun.run System.step opened calls = .ok (s, os)) (start log : Log)
    (hstart : start = logOf ((before ++ [Call.openFile fd]).zip os₀))
    (hlog : log = start.after (calls.zip os)) (bound : ℕ)
    (hbound : ∀ c ∈ log.committed, c.length ≤ bound) :
    (received fd (calls.zip os)).length ≤ 10 * bound := by
  subst hlog
  exact (readerFollows hcalls hopened hrun hstart).length_le bound hbound

theorem length_received_le_keptOpen :
    ∃ os, received 0 (keptOpen.zip os) = [97, 10, 99, 10] ∧
      (received 0 (keptOpen.zip os)).length ≤ 10 * 2 := by
  obtain ⟨opened, s, os₀, os, hopened, hrun, hbytes, hmax⟩ := exists_run_keptOpen
  refine ⟨os, hbytes, length_received_le 0 _ keptOpen keptOpen_around opened s os₀ os hopened hrun
    _ _ rfl rfl 2 ?_⟩
  intro c hc
  exact (List.max?_eq_some_iff.mp hmax).2 _ (List.mem_map_of_mem hc)

end Aesd
