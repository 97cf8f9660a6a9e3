import Mathlib

/-!
# Launching processes

`do_system`, `do_exec` and `do_exec_redirect` of `systemcalls.c`.  Each decodes the end of
the command in its own way: the first compares the status with `-1` only, the second with
zero, the third looks at the exit code and takes a command killed by a signal for a
success.  A child of the third whose `dup2` fails returns to the caller beside its parent.
-/

namespace Aesd
namespace SystemCalls

/-! ## The status word -/

/-- How a process ends. -/
inductive Termination where
  | exited (code : UInt8)
  | signaled (sig : ℕ) (sig_pos : 0 < sig) (sig_lt : sig < 127) (core : Bool)
  deriving DecidableEq, Repr

/-- The word that `waitpid` stores. -/
def Termination.status : Termination → ℕ
  | exited code => code.toNat <<< 8
  | signaled sig _ _ core => sig + if core then 128 else 0

def wtermsig (status : ℕ) : ℕ := status &&& 127

def wifexited (status : ℕ) : Bool := wtermsig status == 0

def wexitstatus (status : ℕ) : ℕ := (status &&& 65280) >>> 8

theorem wtermsig_eq (status : ℕ) : wtermsig status = status % 128 :=
  Nat.and_two_pow_sub_one_eq_mod status 7

theorem wexitstatus_eq (status : ℕ) : wexitstatus status = status / 256 % 256 := by
  rw [wexitstatus, Nat.shiftRight_and_distrib, Nat.shiftRight_eq_div_pow]
  exact Nat.and_two_pow_sub_one_eq_mod _ 8

theorem status_exited (code : UInt8) : (Termination.exited code).status = code.toNat * 256 :=
  Nat.shiftLeft_eq _ _

theorem wifexited_exited (code : UInt8) : wifexited (Termination.exited code).status = true := by
  rw [wifexited, wtermsig_eq, status_exited, beq_iff_eq]
  omega

theorem wexitstatus_exited (code : UInt8) :
    wexitstatus (Termination.exited code).status = code.toNat := by
  have hlt := code.toNat_lt
  rw [wexitstatus_eq, status_exited]
  omega

theorem wifexited_signaled {sig : ℕ} (hpos : 0 < sig) (hlt : sig < 127) (core : Bool) :
    wifexited (Termination.signaled sig hpos hlt core).status = false := by
  rw [wifexited, wtermsig_eq, Termination.status, beq_eq_false_iff_ne]
  cases core <;> simp <;> omega

theorem status_eq_zero_iff (t : Termination) : t.status = 0 ↔ t = .exited 0 := by
  cases t with
  | exited code =>
      rw [status_exited, Termination.exited.injEq, ← UInt8.toNat_inj, UInt8.toNat_zero]
      omega
  | signaled sig hpos hlt core =>
      simp [Termination.status, Nat.ne_of_gt hpos]

/-! ## The three functions -/

/-- What the calls return, and how the processes end: `system` with the end of its shell
unless it fails, `execv` with the end of the command unless it fails, and `stray`, the end
of a child that went on as a copy of the caller. -/
structure World where
  system : String → Option Termination
  openFile : String → ℤ
  fork : ℤ
  dup2 : ℤ
  execv : Option String → List (Option String) → Option Termination
  waitpid : ℤ
  stray : Termination
  openFile_range : ∀ path, openFile path = -1 ∨ 0 ≤ openFile path
  fork_range : fork = -1 ∨ 0 < fork
  dup2_range : dup2 = -1 ∨ dup2 = 1
  waitpid_range : waitpid = -1 ∨ waitpid = fork

def isError (ret : ℤ) : Bool := ret == -1

def systemResult (w : World) (cmd : String) : ℤ :=
  (w.system cmd).elim (-1) fun t ↦ (t.status : ℤ)

def doSystem (w : World) (cmd : String) : Bool := !isError (systemResult w cmd)

/-- The array passed to `execv`; `none` is the null pointer. -/
def commandArray (args : List String) : List (Option String) := args.map some ++ [none]

inductive Child where
  | becomes (t : Termination)
  | exits (code : ℤ)
  | returns (value : Bool)
  deriving DecidableEq, Repr

namespace Child

def ofExecv (w : World) (command : List (Option String)) : Child :=
  match w.execv (command.headD none) command with
  | some t => becomes t
  | none => exits (-1)

def termination (w : World) : Child → Termination
  | becomes t => t
  | exits code => .exited (UInt8.ofInt code)
  | returns _ => w.stray

def returned : Child → Option Bool
  | returns value => some value
  | _ => none

end Child

/-- What the calling process returns, and what the forked child returns if it does. -/
structure Returns where
  parent : Bool
  child : Option Bool
  deriving DecidableEq, Repr

def doExec (w : World) (args : List String) : Returns :=
  let command := commandArray args
  if isError w.fork then ⟨false, none⟩
  else
    let child := Child.ofExecv w command
    if isError w.waitpid then ⟨false, child.returned⟩
    else if (child.termination w).status ≠ 0 then ⟨false, child.returned⟩
    else ⟨true, child.returned⟩

def doExecRedirect (w : World) (outputfile : String) (args : List String) : Returns :=
  let command := commandArray args
  if isError (w.openFile outputfile) then ⟨false, none⟩
  else if isError w.fork then ⟨false, none⟩
  else
    let child := if w.dup2 < 0 then .returns false else Child.ofExecv w command
    let status := (child.termination w).status
    if isError w.waitpid then ⟨false, child.returned⟩
    else if wifexited status then ⟨wexitstatus status == 0, child.returned⟩
    else ⟨true, child.returned⟩

/-! ## What they report -/

/-- How the command ends, if it is started at all. -/
def commandEnds (w : World) (args : List String) : Option Termination :=
  w.execv ((commandArray args).headD none) (commandArray args)

/-- Each function returns true exactly when all its calls succeed and the command exits
with code zero, and no forked child returns to the caller. -/
structure LaunchersAgree (w : World) (cmd outputfile : String) (args : List String) : Prop where
  system : doSystem w cmd = true ↔ w.system cmd = some (.exited 0)
  exec : (doExec w args).parent = true ↔
    w.fork ≠ -1 ∧ w.waitpid ≠ -1 ∧ commandEnds w args = some (.exited 0)
  exec_child : (doExec w args).child = none
  redirect : (doExecRedirect w outputfile args).parent = true ↔
    w.openFile outputfile ≠ -1 ∧ w.fork ≠ -1 ∧ w.dup2 ≠ -1 ∧ w.waitpid ≠ -1 ∧
      commandEnds w args = some (.exited 0)
  redirect_child : (doExecRedirect w outputfile args).child = none

theorem isError_iff (ret : ℤ) : isError ret = true ↔ ret = -1 := by
  simp [isError]

theorem systemResult_ne {w : World} {cmd : String} {t : Termination} (h : w.system cmd = some t) :
    systemResult w cmd ≠ -1 := by
  rw [systemResult, h, Option.elim_some]
  omega

/-- `do_system` only notices that `system` itself failed. -/
theorem doSystem_iff (w : World) (cmd : String) : doSystem w cmd = true ↔ w.system cmd ≠ none := by
  rw [doSystem, Bool.not_eq_true', ← Bool.not_eq_true, isError_iff]
  cases h : w.system cmd with
  | none => simp [systemResult, h]
  | some t => simp [systemResult_ne h]

theorem ofExecv_of_some {w : World} {args : List String} {t : Termination}
    (h : commandEnds w args = some t) : Child.ofExecv w (commandArray args) = .becomes t := by
  rw [commandEnds] at h
  rw [Child.ofExecv, h]

theorem ofExecv_of_none {w : World} {args : List String} (h : commandEnds w args = none) :
    Child.ofExecv w (commandArray args) = .exits (-1) := by
  rw [commandEnds] at h
  rw [Child.ofExecv, h]

theorem returned_ofExecv (w : World) (command : List (Option String)) :
    (Child.ofExecv w command).returned = none := by
  rw [Child.ofExecv]
  split <;> rfl

/-- A failed `execv` shows as exit code 255. -/
theorem termination_ofExecv_eq_iff (w : World) (args : List String) :
    (Child.ofExecv w (commandArray args)).termination w = .exited 0 ↔
      commandEnds w args = some (.exited 0) := by
  cases h : commandEnds w args with
  | none =>
      rw [ofExecv_of_none h]
      simp [Child.termination]
  | some t =>
      rw [ofExecv_of_some h, Child.termination, Option.some_inj]

theorem doExec_parent_iff (w : World) (args : List String) :
    (doExec w args).parent = true ↔
      w.fork ≠ -1 ∧ w.waitpid ≠ -1 ∧ commandEnds w args = some (.exited 0) := by
  by_cases hfork : w.fork = -1
  · simp [doExec, isError_iff, hfork]
  · by_cases hwait : w.waitpid = -1
    · simp [doExec, isError_iff, hfork, hwait]
    · rw [← termination_ofExecv_eq_iff, ← status_eq_zero_iff]
      by_cases hzero : ((Child.ofExecv w (commandArray args)).termination w).status = 0
      · simp [doExec, isError_iff, hfork, hwait, hzero]
      · simp [doExec, isError_iff, hfork, hwait, hzero]

theorem doExec_child (w : World) (args : List String) : (doExec w args).child = none := by
  simp only [doExec, returned_ofExecv]
  split
  · rfl
  · split
    · rfl
    · split <;> rfl

theorem doExecRedirect_not_forked {w : World} {outputfile : String} (args : List String)
    (h : w.openFile outputfile = -1 ∨ w.fork = -1) :
    doExecRedirect w outputfile args = ⟨false, none⟩ := by
  rcases h with hopen | hfork
  · simp [doExecRedirect, isError_iff, hopen]
  · simp [doExecRedirect, isError_iff, hfork]

theorem doExecRedirect_dup2_fails {w : World} {outputfile : String} (args : List String)
    (hopen : w.openFile outputfile ≠ -1) (hfork : w.fork ≠ -1) (hdup2 : w.dup2 = -1) :
    (doExecRedirect w outputfile args).child = some false := by
  have hdup : w.dup2 < 0 := by rw [hdup2]; decide
  simp only [doExecRedirect, isError_iff, hopen, hfork, hdup, if_false, if_true]
  split
  · rfl
  · split <;> rfl

theorem doExecRedirect_forked {w : World} {outputfile : String} (args : List String)
    (hopen : w.openFile outputfile ≠ -1) (hfork : w.fork ≠ -1) (hdup2 : w.dup2 ≠ -1) :
    doExecRedirect w outputfile args =
      if w.waitpid = -1 then ⟨false, none⟩
      else
        let status := ((Child.ofExecv w (commandArray args)).termination w).status
        if wifexited status then ⟨wexitstatus status == 0, none⟩ else ⟨true, none⟩ := by
  have hdup : ¬ w.dup2 < 0 := by
    rcases w.dup2_range with hfails | hone
    · exact absurd hfails hdup2
    · omega
  simp only [doExecRedirect, isError_iff, hopen, hfork, hdup, if_false, returned_ofExecv]

def Termination.Killed (t : Termination) : Prop := ∀ code, t ≠ .exited code

/-- Unless the command was killed, the exit code decides. -/
theorem wexitstatus_eq_zero_iff {t : Termination} (h : ¬ t.Killed) :
    wifexited t.status = true ∧ (wexitstatus t.status = 0 ↔ t = .exited 0) := by
  obtain ⟨code, rfl⟩ : ∃ code, t = .exited code := by simpa [Termination.Killed] using h
  refine ⟨wifexited_exited code, ?_⟩
  rw [wexitstatus_exited, Termination.exited.injEq, ← UInt8.toNat_inj, UInt8.toNat_zero]

theorem wifexited_of_killed {t : Termination} (h : t.Killed) : wifexited t.status = false := by
  cases t with
  | exited code => exact absurd rfl (h code)
  | signaled sig hpos hlt core => exact wifexited_signaled hpos hlt core

theorem killed_ofExecv_iff (w : World) (args : List String) :
    ¬ ((Child.ofExecv w (commandArray args)).termination w).Killed ↔
      ∀ t ∈ commandEnds w args, ¬ t.Killed := by
  cases h : commandEnds w args with
  | none =>
      rw [ofExecv_of_none h]
      simp [Child.termination, Termination.Killed]
  | some t =>
      rw [ofExecv_of_some h]
      simp [Child.termination]

def RedirectAgrees (w : World) (outputfile : String) (args : List String) : Prop :=
  ((doExecRedirect w outputfile args).parent = true ↔
    w.openFile outputfile ≠ -1 ∧ w.fork ≠ -1 ∧ w.dup2 ≠ -1 ∧ w.waitpid ≠ -1 ∧
      commandEnds w args = some (.exited 0)) ∧
  (doExecRedirect w outputfile args).child = none

/-- No child is forked, or `dup2` succeeds in it and it is not killed while waited for. -/
def RedirectDecided (w : World) (outputfile : String) (args : List String) : Prop :=
  w.openFile outputfile = -1 ∨ w.fork = -1 ∨
    (w.dup2 ≠ -1 ∧ (w.waitpid = -1 ∨ ∀ t ∈ commandEnds w args, ¬ t.Killed))

theorem redirectAgrees_iff (w : World) (outputfile : String) (args : List String) :
    RedirectAgrees w outputfile args ↔ RedirectDecided w outputfile args := by
  unfold RedirectAgrees RedirectDecided
  by_cases hopen : w.openFile outputfile = -1
  · simp [doExecRedirect_not_forked args (Or.inl hopen), hopen]
  by_cases hfork : w.fork = -1
  · simp [doExecRedirect_not_forked args (Or.inr hfork), hfork]
  by_cases hdup2 : w.dup2 = -1
  · simp [doExecRedirect_dup2_fails args hopen hfork hdup2, hopen, hfork, hdup2]
  rw [doExecRedirect_forked args hopen hfork hdup2, ← termination_ofExecv_eq_iff,
    ← killed_ofExecv_iff]
  by_cases hwait : w.waitpid = -1
  · simp [hwait, hdup2]
  generalize (Child.ofExecv w (commandArray args)).termination w = t
  by_cases hkilled : t.Killed
  · have hnonzero : t ≠ .exited 0 := hkilled 0
    simp [wifexited_of_killed hkilled, hopen, hfork, hdup2, hwait, hkilled, hnonzero]
  · obtain ⟨hexited, hzero⟩ := wexitstatus_eq_zero_iff hkilled
    simp [hexited, hzero, hopen, hfork, hdup2, hwait, hkilled]

/-- The functions agree exactly when the shell of `system` exits with zero or is never
run, and `do_exec_redirect` meets neither a failing `dup2` nor a killed command. -/
theorem launchersAgree_iff (w : World) (cmd outputfile : String) (args : List String) :
    LaunchersAgree w cmd outputfile args ↔
      (w.system cmd = none ∨ w.system cmd = some (.exited 0)) ∧
        RedirectDecided w outputfile args := by
  have hsystem : (doSystem w cmd = true ↔ w.system cmd = some (.exited 0)) ↔
      w.system cmd = none ∨ w.system cmd = some (.exited 0) := by
    rw [doSystem_iff]
    cases w.system cmd with
    | none => simp
    | some t => simp
  rw [← hsystem, ← redirectAgrees_iff]
  constructor
  · intro h
    exact ⟨h.system, h.redirect, h.redirect_child⟩
  · rintro ⟨hsys, hredirect, hchild⟩
    exact ⟨hsys, doExec_parent_iff w args, doExec_child w args, hredirect, hchild⟩

/-- All calls succeed; `system`'s shell exits with code 1, the other commands are killed by
signal 9. -/
def killedWorld : World :=
  ⟨fun _ ↦ some (.exited 1), fun _ ↦ 3, 100, 1, fun _ _ ↦ some (.signaled 9 (by decide)
    (by decide) false), 100, .exited 0, fun _ ↦ by decide, by decide, by decide, by decide⟩

theorem not_launchersAgree_killedWorld :
    doSystem killedWorld "false" = true ∧
      doExec killedWorld ["/bin/cat"] = ⟨false, none⟩ ∧
      doExecRedirect killedWorld "/tmp/out" ["/bin/cat"] = ⟨true, none⟩ ∧
      ¬ LaunchersAgree killedWorld "false" "/tmp/out" ["/bin/cat"] := by
  have hsystem : doSystem killedWorld "false" = true := by decide
  refine ⟨hsystem, by decide, by decide, ?_⟩
  intro h
  have hzero := h.system.mp hsystem
  exact absurd hzero (by decide)

end SystemCalls
end Aesd
