import Aesd.CommandSeek
import Aesd.ConcurrentReaders

/-!
# Seeking while others write

`aesd_ioctl` takes no lock: its loop looks at the ten entries one after the other while other
files are used.  It reads one size of each entry and a write that commits a command stores one
entry, so between two of its accesses calls happen as a whole.  As long as at most one of them
completes a command, the seek is as good as one that ran alone, before all of them or after
them; two commands are enough to make it count sizes that never stood in the array together.
-/

namespace Aesd

open MachineWord
open BlockHeap

/-! ## The array as the log has it -/

namespace Log

/-- The command that stands in this slot of the array: the last one whose number has the
slot's residue. -/
def slotCommand (log : Log) (i : ℕ) : List UInt8 :=
  if i < log.committed.length then
    log.committed.getD (i + 10 * ((log.committed.length - 1 - i) / 10)) []
  else []

/-- A commit changes one slot. -/
theorem slotCommand_concat {log log' : Log} {c : List UInt8}
    (h : log'.committed = log.committed ++ [c]) {i : ℕ} (hi : i < 10)
    (hne : i ≠ log.committed.length % 10) : log'.slotCommand i = log.slotCommand i := by
  rw [slotCommand, slotCommand, h, List.length_append, List.length_singleton]
  by_cases hused : i < log.committed.length
  · have hplace : i + 10 * ((log.committed.length + 1 - 1 - i) / 10) =
        i + 10 * ((log.committed.length - 1 - i) / 10) := by omega
    have hlt : i + 10 * ((log.committed.length - 1 - i) / 10) < log.committed.length := by omega
    rw [if_pos hused, if_pos (by omega), hplace, List.getD_append _ _ _ _ hlt]
  · rw [if_neg hused, if_neg (by omega)]

theorem slotCommand_congr {log log' : Log} (h : log'.committed = log.committed) (i : ℕ) :
    log'.slotCommand i = log.slotCommand i := by
  rw [slotCommand, slotCommand, h]

/-- The sizes of the first `n` slots together. -/
def slotSum (log : Log) (n : ℕ) : ℕ :=
  ((List.range n).map fun i ↦ (log.slotCommand i).length).sum

theorem slotSum_succ (log : Log) (n : ℕ) :
    log.slotSum (n + 1) = log.slotSum n + (log.slotCommand n).length := by
  simp [slotSum, List.range_succ]

theorem slotSum_congr {log log' : Log} {n : ℕ}
    (h : ∀ i < n, log'.slotCommand i = log.slotCommand i) : log'.slotSum n = log.slotSum n := by
  rw [slotSum, slotSum]
  congr 1
  apply List.map_congr_left
  intro i hi
  rw [h i (List.mem_range.mp hi)]

end Log

section Slots

variable {k : Kernel} {log : Log} {es : List AesdBufferEntry}
  {cmds : List (ℕ × List UInt8)} {pend : Option (ℕ × List UInt8)}

/-- A recent entry holds the command of its number. -/
theorem Layout.bytesOf_recent (h : Layout k log es cmds pend) {j : ℕ} (hj : j < es.length)
    (hrecent : es.length ≤ j + 10) : k.bytesOf es[j] = log.committed.getD j [] := by
  have hentries : es.drop (es.length - 10) = cmds.map entryOf := by
    rw [← h.walk_eq, h.holds.walk_eq]
    rfl
  have hcommands : log.committed.drop (es.length - 10) = cmds.map Prod.snd := by
    rw [h.stored_eq, h.length_eq]
    rfl
  have hentry := congrArg (·[j - (es.length - 10)]?) hentries
  have hcommand := congrArg (·[j - (es.length - 10)]?) hcommands
  simp only [List.getElem?_drop, List.getElem?_map,
    show es.length - 10 + (j - (es.length - 10)) = j by omega] at hentry hcommand
  rw [List.getElem?_eq_getElem hj] at hentry
  cases hb : cmds[j - (es.length - 10)]? with
  | none => simp [hb] at hentry
  | some b =>
      rw [hb, Option.map_some, Option.some_inj] at hentry
      rw [hb, Option.map_some] at hcommand
      rw [hentry, h.bytesOf_entryOf (List.mem_append_left _ (List.mem_of_getElem? hb)),
        List.getD_eq_getElem?_getD, hcommand, Option.getD_some]

theorem Layout.slotCommands_eq (h : Layout k log es cmds pend) :
    k.slotCommands = (List.range 10).map log.slotCommand := by
  rw [Kernel.slotCommands, AesdCircularBuffer.slots, List.map_map]
  apply List.map_congr_left
  intro i hi
  have hlt : i < 10 := List.mem_range.mp hi
  show k.bytesOf (k.aesdDevice.buffer.slot i) = log.slotCommand i
  rw [Log.slotCommand, ← h.length_eq]
  by_cases hused : i < es.length
  · have hj : i + 10 * ((es.length - 1 - i) / 10) < es.length := by omega
    have hrecent : es.length ≤ i + 10 * ((es.length - 1 - i) / 10) + 10 := by omega
    have hslot := h.holds.recent (i + 10 * ((es.length - 1 - i) / 10)) hj hrecent
    rw [Nat.add_mul_mod_self_left, Nat.mod_eq_of_lt hlt] at hslot
    rw [if_pos hused, ← h.bytesOf_recent hj hrecent, ← hslot]
    rfl
  · have hslot := h.holds.vacant i (not_lt.mp hused) hlt
    rw [if_neg hused, show k.aesdDevice.buffer.slot i = AesdBufferEntry.zero from hslot]
    rfl

end Slots

theorem Models.slot_size {k : Kernel} {log : Log} (h : Models k log) {i : ℕ} (hi : i < 10) :
    (k.aesdDevice.buffer.slot i).size = (log.slotCommand i).length := by
  obtain ⟨_, _, _, hlayout⟩ := h
  have hmem : k.aesdDevice.buffer.slot i ∈ k.aesdDevice.buffer.slots :=
    List.mem_map_of_mem (List.mem_range.mpr hi)
  have hslot : k.bytesOf (k.aesdDevice.buffer.slot i) = log.slotCommand i := by
    have hget := congrArg (·[i]?) hlayout.slotCommands_eq
    simpa [Kernel.slotCommands, AesdCircularBuffer.slots, List.getElem?_map,
      List.getElem?_range, hi] using hget
  rw [← hslot, hlayout.length_bytesOf_slot hmem]

theorem Models.seekDistance_eq {k : Kernel} {log : Log} (h : Models k log) (arg : AesdSeekto) :
    k.seekDistance arg =
      log.slotSum (min arg.writeCmd.toNat 10) + arg.writeCmdOffset.toNat := by
  obtain ⟨_, _, _, hlayout⟩ := h
  rw [Kernel.seekDistance, hlayout.slotCommands_eq, ← List.map_take, List.take_range,
    List.length_flatten, List.map_map]
  rfl

theorem Models.slotSum_lt {k : Kernel} {log : Log} (h : Models k log) {n : ℕ} (hn : n ≤ 10) :
    log.slotSum n < 2 ^ 36 := by
  have hlt := h.length_slotCommands_take_lt n
  obtain ⟨_, _, _, hlayout⟩ := h
  rw [hlayout.slotCommands_eq, ← List.map_take, List.take_range, min_eq_left hn,
    List.length_flatten, List.map_map] at hlt
  exact hlt

/-! ## The loop among other calls -/

/-- The loop of `aesd_ioctl`; before it looks at an entry, the calls given for it take place. -/
def seektoLoopAmong (writeCmd : ℕ) : List (List Call) → System → ℕ → ℤ → Except Fault (System × ℤ)
  | [], s, _, offset => .ok (s, offset)
  | calls :: pauses, s, index, offset => do
      let (s, _) ← FallibleRun.run System.step s calls
      if index = writeCmd then return (s, offset)
      else
        seektoLoopAmong writeCmd pauses s (index + 1)
          (wrapS 64 (offset + (s.kernel.aesdDevice.buffer.slot index).size))

/-- `aesd_ioctl` for `AESDCHAR_IOCSEEKTO` with the calls of other processes during its loop. -/
def aesdIoctlAmong (pauses : Vector (List Call) maxWriteOperationsSupported) (s : System) (fd : ℕ)
    (env : Env) (arg : AesdSeekto) : Except Fault (System × Outcome) := do
  let seektoArg := AesdSeekto.ofBytes (copyFromUser env arg.toBytes).1
  let (s, offset) ← seektoLoopAmong seektoArg.writeCmd.toNat pauses.toList s 0 0
  let offset := wrapS 64 (offset + seektoArg.writeCmdOffset.toNat)
  let (newpos, fPos) := aesdLlseek s.kernel (s.fPos fd) offset 1
  return (⟨s.kernel, Function.update s.fPos fd fPos⟩, ⟨wrapS 32 newpos, s.kernel, fPos, []⟩)

theorem seektoLoopAmong_replicate_nil (s : System) (writeCmd left index : ℕ) (offset : ℤ) :
    seektoLoopAmong writeCmd (List.replicate left []) s index offset =
      .ok (s, seektoLoop s.kernel.aesdDevice.buffer writeCmd left index offset) := by
  induction left generalizing index offset with
  | zero => rfl
  | succ left ih =>
      rw [List.replicate_succ, seektoLoopAmong, seektoLoop]
      simp only [FallibleRun.run, FallibleRun.ok_bind]
      split
      · rfl
      · exact ih (index + 1) _

/-- With nothing in between it is the call as one step. -/
theorem aesdIoctlAmong_alone (s : System) (fd : ℕ) (env : Env) (arg : AesdSeekto) :
    aesdIoctlAmong (Vector.replicate _ []) s fd env arg =
      s.step (.ioctl fd env aesdcharIocseekto arg) := by
  rw [aesdIoctlAmong, Vector.toList_replicate, seektoLoopAmong_replicate_nil]
  simp only [System.step, Call.exec, Call.fd, aesdIoctl, if_true, FallibleRun.ok_bind]

/-- The calls that take place while the loop looks for its entry. -/
def duringSeek (seekto : AesdSeekto) (pauses : Vector (List Call) maxWriteOperationsSupported) :
    List Call :=
  (pauses.toList.take (seekto.writeCmd.toNat + 1)).flatten

/-! ## What the other calls do to the log -/

/-- The write was accepted and its last byte is the newline. -/
def completesCommand : Call × Outcome → Bool
  | (.write _ _ buf, o) => 0 ≤ o.retval && buf.bytes.getLast? == some newline
  | _ => false

theorem Log.length_committed_step (log : Log) {call : Call} (hcall : call.NonEmpty)
    (o : Outcome) :
    (log.step (call, o)).committed.length =
      log.committed.length + if completesCommand (call, o) then 1 else 0 := by
  cases call with
  | write fd env buf =>
      have hlast : (log.pending ++ buf.bytes).getLast? = buf.bytes.getLast? := by
        rw [List.getLast?_append_of_ne_nil _ hcall]
      simp only [Log.step, Log.write, hlast, completesCommand, Bool.and_eq_true,
        decide_eq_true_eq, beq_iff_eq]
      by_cases haccepted : 0 ≤ o.retval
      · by_cases hnewline : buf.bytes.getLast? = some newline <;> simp [haccepted, hnewline]
      · simp [haccepted]
  | _ => rfl

theorem Models.run_committed {s t : System} {log : Log} (h : Models s.kernel log)
    {calls : List Call} (hcalls : ∀ call ∈ calls, call.NonEmpty) {os : List Outcome}
    (hrun : FallibleRun.run System.step s calls = .ok (t, os)) :
    ∃ log', Models t.kernel log' ∧ log.committed <+: log'.committed ∧
      log'.committed.length = log.committed.length + (calls.zip os).countP completesCommand := by
  induction calls generalizing s log os with
  | nil =>
      cases hrun
      exact ⟨log, h, List.prefix_rfl, rfl⟩
  | cons call calls ih =>
      obtain ⟨next, o, rest, hstep, hrest, rfl⟩ := FallibleRun.run_cons_eq_ok.mp hrun
      obtain ⟨log', hmodels, hpref, hlen⟩ := ih (h.step hstep)
        (fun c hc ↦ hcalls c (List.mem_cons_of_mem _ hc)) hrest
      have hone := log.length_committed_step (hcalls call List.mem_cons_self) o
      refine ⟨log', hmodels, (log.committed_prefix_step (call, o)).trans hpref, ?_⟩
      rw [List.zip_cons_cons, List.countP_cons]
      omega

/-! ## Calls on other files -/

theorem System.step_other {s t : System} {call : Call} {o : Outcome} {fd : ℕ} (hfd : call.fd ≠ fd)
    (h : s.step call = .ok (t, o)) (p : ℤ) :
    t.fPos fd = s.fPos fd ∧ System.step ⟨s.kernel, Function.update s.fPos fd p⟩ call =
      .ok (⟨t.kernel, Function.update t.fPos fd p⟩, o) := by
  obtain ⟨hexec, rfl⟩ := System.step_eq_ok_iff.mp h
  refine ⟨Function.update_of_ne hfd.symm _ _, System.step_eq_ok_iff.mpr ⟨?_, ?_⟩⟩
  · show call.exec s.kernel (Function.update s.fPos fd p call.fd) = .ok o
    rwa [Function.update_of_ne hfd]
  · rw [Function.update_comm hfd]

theorem System.run_other {s t : System} {calls : List Call} {os : List Outcome} {fd : ℕ}
    (hfd : ∀ call ∈ calls, call.fd ≠ fd) (h : FallibleRun.run System.step s calls = .ok (t, os))
    (p : ℤ) :
    t.fPos fd = s.fPos fd ∧
      FallibleRun.run System.step ⟨s.kernel, Function.update s.fPos fd p⟩ calls =
        .ok (⟨t.kernel, Function.update t.fPos fd p⟩, os) := by
  induction calls generalizing s os with
  | nil =>
      cases h
      exact ⟨rfl, rfl⟩
  | cons call calls ih =>
      obtain ⟨next, o, rest, hstep, hrest, rfl⟩ := FallibleRun.run_cons_eq_ok.mp h
      obtain ⟨hsame, hstep'⟩ := System.step_other (hfd call List.mem_cons_self) hstep p
      obtain ⟨hsame', hrest'⟩ := ih (fun c hc ↦ hfd c (List.mem_cons_of_mem _ hc)) hrest
      exact ⟨hsame'.trans hsame, FallibleRun.run_cons_eq_ok.mpr ⟨_, o, rest, hstep', hrest', rfl⟩⟩

/-! ## At most one command is completed -/

/-- `n` bytes were counted over the first `i` slots, `cur` being the log by now and `budget` the
commands still to come: they are those of `cur`, or those of the log at the start, from which
the slots that are left do not differ. -/
structure SeekProgress (start cur : Log) (budget i n : ℕ) : Prop where
  committed : start.committed <+: cur.committed
  budget_le : cur.committed.length + budget ≤ start.committed.length + 1
  counted : n = cur.slotSum i ∨
    (n = start.slotSum i ∧ ∀ j, i ≤ j → j < 10 → cur.slotCommand j = start.slotCommand j)

namespace SeekProgress

variable {start cur : Log} {budget i n : ℕ}

theorem refl (log : Log) (h : budget ≤ 1) : SeekProgress log log budget 0 0 :=
  ⟨List.prefix_rfl, Nat.add_le_add_left h _, Or.inl rfl⟩

theorem access (h : SeekProgress start cur budget i n) (hi : i < 10) :
    SeekProgress start cur budget (i + 1) (n + (cur.slotCommand i).length) := by
  refine ⟨h.committed, h.budget_le, ?_⟩
  rcases h.counted with hcur | ⟨hstart, hleft⟩
  · exact Or.inl (by rw [Log.slotSum_succ, hcur])
  · refine Or.inr ⟨by rw [Log.slotSum_succ, hstart, hleft i le_rfl hi], ?_⟩
    intro j hj hten
    exact hleft j (by omega) hten

theorem pause {later : Log} {now : ℕ} (h : SeekProgress start cur (now + budget) i n) (hi : i ≤ 10)
    (hpref : cur.committed <+: later.committed)
    (hnow : later.committed.length = cur.committed.length + now) :
    SeekProgress start later budget i n := by
  have hbudget := h.budget_le
  have hlen := h.committed.length_le
  obtain ⟨new, hnew⟩ := hpref
  have hlater := congrArg List.length hnew
  rw [List.length_append] at hlater
  refine ⟨h.committed.trans ⟨new, hnew⟩, by omega, ?_⟩
  rcases new with _ | ⟨c, _ | ⟨d, new⟩⟩
  · rw [List.append_nil] at hnew
    rw [Log.slotSum_congr fun j _ ↦ Log.slotCommand_congr hnew.symm j]
    simpa only [Log.slotCommand_congr hnew.symm] using h.counted
  · -- nothing was committed before, so what was counted are sizes of the start
    rw [List.length_singleton] at hlater
    have hsame : start.committed = cur.committed := h.committed.eq_of_length (by omega)
    rw [← hsame] at hnew
    have hcounted : n = start.slotSum i := by
      rcases h.counted with hcur | ⟨hstart, -⟩
      · rw [hcur, Log.slotSum_congr fun j _ ↦ Log.slotCommand_congr hsame.symm j]
      · exact hstart
    by_cases hpassed : start.committed.length % 10 < i
    · refine Or.inr ⟨hcounted, ?_⟩
      intro j hj hten
      exact Log.slotCommand_concat hnew.symm hten (by omega)
    · refine Or.inl (hcounted.trans (Eq.symm ?_))
      exact Log.slotSum_congr fun j hj ↦
        Log.slotCommand_concat hnew.symm (by omega) (by omega)
  · simp only [List.length_cons] at hlater
    omega

end SeekProgress

theorem seektoLoopAmong_spec {start : Log} (hstart : ∀ i ≤ 10, start.slotSum i < 2 ^ 36)
    {writeCmd i n : ℕ} {pauses : List (List Call)} (hi : i + pauses.length = 10)
    (hcmd : i ≤ writeCmd) {s t : System} {cur : Log} (h : Models s.kernel cur)
    {calls : List Call} (htake : calls = (pauses.take (writeCmd + 1 - i)).flatten)
    (hcalls : ∀ call ∈ calls, call.NonEmpty) {os : List Outcome}
    (hrun : FallibleRun.run System.step s calls = .ok (t, os))
    (hprogress : SeekProgress start cur ((calls.zip os).countP completesCommand) i n) :
    ∃ last total, seektoLoopAmong writeCmd pauses s i n = .ok (t, (total : ℕ)) ∧
      Models t.kernel last ∧ (total = start.slotSum (min writeCmd 10) ∨
        total = last.slotSum (min writeCmd 10)) := by
  induction pauses generalizing s cur i n calls os with
  | nil =>
      rw [List.take_nil] at htake
      subst htake
      cases hrun
      rw [List.length_nil, Nat.add_zero] at hi
      rw [min_eq_right (hi ▸ hcmd), ← hi]
      exact ⟨cur, n, rfl, h, hprogress.counted.symm.imp_left And.left⟩
  | cons now pauses ih =>
      rw [show writeCmd + 1 - i = writeCmd - i + 1 by omega, List.take_succ_cons,
        List.flatten_cons] at htake
      subst htake
      rw [List.length_cons] at hi
      obtain ⟨mid, os₁, os₂, hfirst, hrest, rfl⟩ := FallibleRun.run_append_eq_ok.mp hrun
      rw [List.zip_append (FallibleRun.length_of_run hfirst).symm, List.countP_append] at hprogress
      have hnow : ∀ call ∈ now, call.NonEmpty := fun c hc ↦
        hcalls c (List.mem_append_left _ hc)
      obtain ⟨later, hlater, hpref, hlen⟩ := h.run_committed hnow hfirst
      have hpaused := hprogress.pause (by omega) hpref hlen
      rw [seektoLoopAmong, hfirst]
      simp only [FallibleRun.ok_bind]
      by_cases hfound : i = writeCmd
      · rw [hfound, Nat.sub_self] at hrest
        cases hrest
        rw [if_pos hfound, ← hfound, min_eq_left (by omega)]
        exact ⟨later, n, rfl, hlater, hpaused.counted.symm.imp_left And.left⟩
      · have hsize := hlater.slot_size (show i < 10 by omega)
        have hbound : n + (later.slotCommand i).length < 2 ^ 63 := by
          have hstart' := hstart (i + 1) (by omega)
          have hlater' := hlater.slotSum_lt (show i + 1 ≤ 10 by omega)
          rcases (hpaused.access (by omega)).counted with hn | ⟨hn, -⟩ <;> omega
        rw [if_neg hfound, hsize, ← Nat.cast_add, wrapS_natCast hbound]
        exact ih (by omega) (by omega) hlater
          (by rw [show writeCmd + 1 - (i + 1) = writeCmd - i by omega])
          (fun c hc ↦ hcalls c (List.mem_append_right _ hc)) hrest (hpaused.access (by omega))

theorem Models.step_seekto {s : System} {log : Log} (h : Models s.kernel log) (fd : ℕ) (env : Env)
    (arg : AesdSeekto) {total : ℕ}
    (htotal : total = log.slotSum (min (arg.arrived env).writeCmd.toNat 10)) {newpos fPos : ℤ}
    (hseek : aesdLlseek s.kernel (s.fPos fd)
      (total + (arg.arrived env).writeCmdOffset.toNat : ℕ) 1 = (newpos, fPos)) :
    s.step (.ioctl fd env aesdcharIocseekto arg) =
      .ok (⟨s.kernel, Function.update s.fPos fd fPos⟩, ⟨wrapS 32 newpos, s.kernel, fPos, []⟩) := by
  have hioctl := h.aesdIoctl_eq env (s.fPos fd) arg
  rw [h.seekDistance_eq, ← htotal, hseek] at hioctl
  refine System.step_eq_ok_iff.mpr ⟨?_, rfl⟩
  exact congrArg Except.ok hioctl

/-- A seek during which other files are used, without empty writes, and at most one command is
completed is as good as one that ran alone: the other calls ran all after it, or all before it.
A write that is turned down completes nothing. -/
theorem seek_among_others (s : System) (hs : s.Reachable) (fd : ℕ) (env : Env) (arg : AesdSeekto)
    (pauses : Vector (List Call) maxWriteOperationsSupported)
    (hothers : ∀ call ∈ duringSeek (arg.arrived env) pauses, call.fd ≠ fd ∧ call.NonEmpty)
    (hone : ∀ t os, FallibleRun.run System.step s (duringSeek (arg.arrived env) pauses) =
        .ok (t, os) →
      ((duringSeek (arg.arrived env) pauses).zip os).countP completesCommand ≤ 1) :
    ∃ t o, aesdIoctlAmong pauses s fd env arg = .ok (t, o) ∧
      ∃ o' os, o'.retval = o.retval ∧ o'.fPos = o.fPos ∧
        (FallibleRun.run System.step s
            (.ioctl fd env aesdcharIocseekto arg :: duringSeek (arg.arrived env) pauses) =
              .ok (t, o' :: os) ∨
          FallibleRun.run System.step s
            (duringSeek (arg.arrived env) pauses ++ [.ioctl fd env aesdcharIocseekto arg]) =
              .ok (t, os ++ [o'])) := by
  obtain ⟨start, h⟩ := hs.models
  have hnonEmpty := fun call hcall ↦ (hothers call hcall).2
  obtain ⟨mid, os, hrun⟩ := h.run_nonEmpty hnonEmpty
  obtain ⟨last, total, hloop, hmid, htotal⟩ := seektoLoopAmong_spec
    (fun i hi ↦ h.slotSum_lt hi) (show 0 + pauses.toList.length = 10 by simp)
    (Nat.zero_le (arg.arrived env).writeCmd.toNat) h rfl hnonEmpty hrun
    (SeekProgress.refl start (hone mid os hrun))
  have hother := fun call hcall ↦ (hothers call hcall).1
  obtain ⟨newpos, fPos, hseek⟩ : ∃ newpos fPos, aesdLlseek s.kernel (s.fPos fd)
      (total + (arg.arrived env).writeCmdOffset.toNat : ℕ) 1 = (newpos, fPos) := ⟨_, _, rfl⟩
  obtain ⟨hpos, hmoved⟩ := System.run_other hother hrun fPos
  -- `SEEK_CUR` looks at the position only
  have hseek' : aesdLlseek mid.kernel (mid.fPos fd)
      (total + (arg.arrived env).writeCmdOffset.toNat : ℕ) 1 = (newpos, fPos) := by
    rw [hpos]
    exact hseek
  have hbound : total + (arg.arrived env).writeCmdOffset.toNat < 2 ^ 63 := by
    have hstart := h.slotSum_lt (min_le_right (arg.arrived env).writeCmd.toNat 10)
    have hlast := hmid.slotSum_lt (min_le_right (arg.arrived env).writeCmd.toNat 10)
    have hoff := (arg.arrived env).writeCmdOffset.toNat_lt
    omega
  refine ⟨⟨mid.kernel, Function.update mid.fPos fd fPos⟩, ⟨wrapS 32 newpos, mid.kernel, fPos, []⟩,
    ?_, ?_⟩
  · have hwrap : wrapS 64 ((total : ℤ) + ((arg.arrived env).writeCmdOffset.toNat : ℤ)) =
        (total + (arg.arrived env).writeCmdOffset.toNat : ℕ) := by
      rw [← Nat.cast_add, wrapS_natCast hbound]
    rw [Nat.cast_zero] at hloop
    rw [aesdIoctlAmong, show AesdSeekto.ofBytes (copyFromUser env arg.toBytes).1 =
      arg.arrived env from rfl, hloop]
    simp only [FallibleRun.ok_bind, hwrap, hseek']
    rfl
  · rcases htotal with hstart | hlast
    · refine ⟨⟨wrapS 32 newpos, s.kernel, fPos, []⟩, os, rfl, rfl, Or.inl ?_⟩
      exact FallibleRun.run_cons_eq_ok.mpr
        ⟨_, _, os, h.step_seekto fd env arg hstart hseek, hmoved, rfl⟩
    · refine ⟨⟨wrapS 32 newpos, mid.kernel, fPos, []⟩, os, rfl, rfl, Or.inr ?_⟩
      have hstep := hmid.step_seekto fd env arg hlast hseek'
      exact FallibleRun.run_append_eq_ok.mpr
        ⟨mid, os, _, hrun, FallibleRun.run_cons_eq_ok.mpr ⟨_, _, [], hstep, rfl, rfl⟩, rfl⟩

/-- The calls take place before the loop looks at its third entry. -/
def beforeThird (calls : List Call) : Vector (List Call) maxWriteOperationsSupported :=
  Vector.ofFn fun i ↦ if i = 2 then calls else []

def fiveBytes (fd : ℕ) : Call := .write fd .calm (.ofList [99, 99, 99, 99, 10])

/-- The same write, but the wait for the mutex is interrupted. -/
def refusedBytes (fd : ℕ) : Call :=
  .write fd { Env.calm with interrupted := true } (.ofList [99, 99, 99, 99, 10])

theorem seek_among_others_wrapped :
    ∃ t o, aesdIoctlAmong (beforeThird [refusedBytes 2, fiveBytes 2]) wrapped 1 .calm ⟨3, 0⟩ =
        .ok (t, o) ∧
      t.kernel.storedCommands.getLast? = some [99, 99, 99, 99, 10] := by
  have hcalls : duringSeek (AesdSeekto.arrived .calm ⟨3, 0⟩)
      (beforeThird [refusedBytes 2, fiveBytes 2]) = [refusedBytes 2, fiveBytes 2] :=
    rfl
  obtain ⟨t, o, hseek, -⟩ := seek_among_others wrapped (System.reachable_after _) 1 .calm ⟨3, 0⟩
    (beforeThird [refusedBytes 2, fiveBytes 2])
    (by rw [hcalls]; simp [refusedBytes, fiveBytes, Call.NonEmpty, Call.fd, UserBuf.ofList])
    (by
      intro t os hrun
      have hcount : ((FallibleRun.run System.step wrapped
          [refusedBytes 2, fiveBytes 2]).toOption.map fun r ↦
            ([refusedBytes 2, fiveBytes 2].zip r.2).countP completesCommand) = some 1 := by
        decide +kernel
      rw [hcalls] at hrun ⊢
      rw [hrun] at hcount
      exact (Option.some_inj.mp hcount).le)
  refine ⟨t, o, hseek, ?_⟩
  have hlast : ((aesdIoctlAmong (beforeThird [refusedBytes 2, fiveBytes 2]) wrapped 1 .calm
      ⟨3, 0⟩).toOption.map fun r ↦ r.1.kernel.storedCommands.getLast?) =
        some (some [99, 99, 99, 99, 10]) := by
    decide +kernel
  rw [hseek] at hlast
  exact Option.some_inj.mp hlast

/-- Two commands completed in the middle: the second slot is counted as it was, the third as it
is, and the position is that of no order of the three calls. -/
example :
    ((aesdIoctlAmong (beforeThird [fiveBytes 2, fiveBytes 2]) wrapped 1 .calm ⟨3, 0⟩).toOption.map
      fun r ↦ r.2.fPos) = some 10 ∧
    (List.range 3).map (fun n ↦ (FallibleRun.run System.step wrapped
      (List.replicate n (fiveBytes 2) ++ [.ioctl 1 .calm aesdcharIocseekto ⟨3, 0⟩])).toOption.map
        fun r ↦ r.1.fPos 1) = [some 7, some 9, some 12] := by
  decide +kernel

end Aesd
