import Aesd.CommandSeek

/-!
# What a seek reports

`aesd_ioctl` looks neither at the result of `copy_from_user` nor at whether its loop
found the command.  It hands the distance to `aesd_llseek` as a relative one, and the
position that comes back passes through a 32-bit `int`.  So an argument is turned down
only when the position leaves `loff_t`, the position reached depends on where the file
was, and positions from `2 ^ 31` on are reported as something else.  Seeking from the
end returns before it moves.
-/

namespace Aesd

open MachineWord
open BlockHeap
open OffsetLookup
open PrefixReader

/-- The argument names a byte of a stored command. -/
def Kernel.NamesByte (k : Kernel) (arg : AesdSeekto) : Prop :=
  ∃ c, k.storedCommands[arg.writeCmd.toNat]? = some c ∧ arg.writeCmdOffset.toNat < c.length

/-! ## Seeking from two positions -/

def SeeksAlike (k : Kernel) (env₁ env₂ : Env) (arg : AesdSeekto) (p₁ p₂ : ℕ) : Prop :=
  (aesdIoctl env₁ k p₁ aesdcharIocseekto arg).fPos =
    (aesdIoctl env₂ k p₂ aesdcharIocseekto arg).fPos

theorem Models.aesdIoctl_fPos_eq {k : Kernel} {log : Log} (h : Models k log) {env : Env}
    (henv : env.uncopied = 0) (arg : AesdSeekto) {p : ℕ} (hp : p < 2 ^ 63) :
    (aesdIoctl env k p aesdcharIocseekto arg).fPos =
      (if p + k.seekDistance arg < 2 ^ 63 then p + k.seekDistance arg else p : ℕ) := by
  rcases h.aesdIoctl_cases env (show -2 ^ 63 ≤ (p : ℤ) by omega) (by omega) arg
    (congrArg k.seekDistance (AesdSeekto.arrived_of_readable henv arg)) with
    ⟨-, hlt, hioctl⟩ | ⟨hout, hioctl⟩
  · rw [hioctl, if_pos (by omega)]
    exact (Nat.cast_add ..).symm
  · rw [hioctl, if_neg (by omega)]

/-- The ioctl leaves the same position from two different ones only when one of them is
where the seek from the other ends, and cannot be moved any further itself. -/
theorem seeksAlike_iff (s : System) (hs : s.Reachable) (env₁ env₂ : Env)
    (henv₁ : env₁.uncopied = 0) (henv₂ : env₂.uncopied = 0) (arg : AesdSeekto) (p₁ p₂ : ℕ)
    (hp₁ : p₁ < 2 ^ 63) (hp₂ : p₂ < 2 ^ 63) :
    SeeksAlike s.kernel env₁ env₂ arg p₁ p₂ ↔
      p₁ = p₂ ∨
        (p₂ = p₁ + s.kernel.seekDistance arg ∧ 2 ^ 63 ≤ p₂ + s.kernel.seekDistance arg) ∨
        (p₁ = p₂ + s.kernel.seekDistance arg ∧ 2 ^ 63 ≤ p₁ + s.kernel.seekDistance arg) := by
  obtain ⟨log, h⟩ := hs.models
  rw [SeeksAlike, h.aesdIoctl_fPos_eq henv₁ arg hp₁, h.aesdIoctl_fPos_eq henv₂ arg hp₂,
    Nat.cast_inj]
  generalize s.kernel.seekDistance arg = d
  split <;> split <;> omega

theorem seeksAlike_oneCommand :
    oneCommand.kernel.NamesByte ⟨0, 1⟩ ∧
      SeeksAlike oneCommand.kernel .calm .calm ⟨0, 1⟩ (2 ^ 63 - 2) (2 ^ 63 - 1) := by
  refine ⟨⟨[97, 98, 10], by decide, by decide⟩, ?_⟩
  have hdistance : oneCommand.kernel.seekDistance ⟨0, 1⟩ = 1 := by decide
  refine (seeksAlike_iff oneCommand (System.reachable_after _) .calm .calm rfl rfl ⟨0, 1⟩ _ _
    (by norm_num) (by norm_num)).mpr (Or.inr (Or.inl ?_))
  rw [hdistance]
  norm_num

/-- The same seek moves a file one byte further on when it starts one byte further on. -/
theorem not_seeksAlike_oneCommand :
    oneCommand.kernel.NamesByte ⟨0, 1⟩ ∧
      ¬ SeeksAlike oneCommand.kernel .calm .calm ⟨0, 1⟩ 0 1 := by
  refine ⟨⟨[97, 98, 10], by decide, by decide⟩, ?_⟩
  unfold SeeksAlike
  decide

/-! ## Arguments that name nothing -/

/-- An argument that names no stored byte or cannot be read is refused. -/
def SeekRejects (env : Env) (k : Kernel) (p : ℤ) (arg : AesdSeekto) : Prop :=
  (¬ k.NamesByte arg ∨ (copyFromUser env arg.toBytes).2 ≠ 0) →
    (aesdIoctl env k p aesdcharIocseekto arg).retval < 0 ∧
      (aesdIoctl env k p aesdcharIocseekto arg).fPos = p

theorem Models.refused_iff {k : Kernel} {log : Log} (h : Models k log) (env : Env) {p : ℤ}
    (hlo : -2 ^ 63 ≤ p) (hhi : p < 2 ^ 63) (arg : AesdSeekto) {d : ℕ}
    (hd : k.seekDistance (arg.arrived env) = d) :
    ((aesdIoctl env k p aesdcharIocseekto arg).retval < 0 ∧
        (aesdIoctl env k p aesdcharIocseekto arg).fPos = p) ↔
      p + d < 0 ∨ 2 ^ 63 ≤ p + d ∨ (d = 0 ∧ 2 ^ 31 ≤ p % 2 ^ 32) := by
  rcases h.aesdIoctl_cases env hlo hhi arg hd with ⟨hnonneg, hlt, hioctl⟩ | ⟨hout, hioctl⟩
  · rw [hioctl]
    constructor
    · rintro ⟨hret, hpos⟩
      obtain rfl : d = 0 := by
        simp only at hpos
        omega
      simp only [Nat.cast_zero, add_zero] at hret
      exact Or.inr (Or.inr ⟨rfl, wrapS_neg_iff.mp hret⟩)
    · rintro (hneg | hover | ⟨rfl, hbit⟩)
      · omega
      · omega
      · simp only [Nat.cast_zero, add_zero]
        exact ⟨wrapS_neg_iff.mpr hbit, trivial⟩
  · rw [hioctl]
    have hneg : -einval < 0 := by decide
    constructor
    · rintro -
      rcases hout with hneg | hover
      · exact Or.inl hneg
      · exact Or.inr (Or.inl hover)
    · rintro -
      exact ⟨hneg, rfl⟩

/-- Such an argument is refused exactly when the move leaves `loff_t`, or when there is
none and bit 31 of the position happens to make the returned `int` negative. -/
theorem seekRejects_iff (s : System) (hs : s.Reachable) (env : Env) (p : ℤ) (hlo : -2 ^ 63 ≤ p)
    (hhi : p < 2 ^ 63) (arg : AesdSeekto) :
    SeekRejects env s.kernel p arg ↔
      (s.kernel.NamesByte arg ∧ (copyFromUser env arg.toBytes).2 = 0) ∨
        p + s.kernel.seekDistance (arg.arrived env) < 0 ∨
        2 ^ 63 ≤ p + s.kernel.seekDistance (arg.arrived env) ∨
        (s.kernel.seekDistance (arg.arrived env) = 0 ∧ 2 ^ 31 ≤ p % 2 ^ 32) := by
  obtain ⟨log, h⟩ := hs.models
  rw [SeekRejects, h.refused_iff env hlo hhi arg rfl, imp_iff_not_or, not_or, not_not, Ne, not_not]

theorem seekRejects_oneCommand : SeekRejects .calm oneCommand.kernel (2 ^ 63 - 1) ⟨5, 0⟩ := by
  have hdistance : oneCommand.kernel.seekDistance (AesdSeekto.arrived .calm ⟨5, 0⟩) = 3 := by decide
  refine (seekRejects_iff oneCommand (System.reachable_after _) .calm _ (by norm_num) (by norm_num)
    ⟨5, 0⟩).mpr (Or.inr (Or.inr (Or.inl ?_)))
  rw [hdistance]
  norm_num

/-- With one command stored, a seek to the sixth one goes to the end and says so. -/
theorem not_seekRejects_oneCommand : ¬ SeekRejects .calm oneCommand.kernel 0 ⟨5, 0⟩ := by
  intro hrejects
  have hnone : oneCommand.kernel.storedCommands[5]? = none := by decide
  have hunnamed : ¬ oneCommand.kernel.NamesByte ⟨5, 0⟩ := by
    rintro ⟨c, hc, -⟩
    cases hnone.symm.trans hc
  have hret : (aesdIoctl .calm oneCommand.kernel 0 aesdcharIocseekto ⟨5, 0⟩).retval = 3 := by decide
  obtain ⟨hneg, -⟩ := hrejects (Or.inl hunnamed)
  rw [hret] at hneg
  exact absurd hneg (by decide)

/-! ## The result and the position -/

/-- A negative result leaves the position, and any other result is the new position. -/
def Reports (p retval fPos : ℤ) : Prop :=
  (retval < 0 → fPos = p) ∧ (0 ≤ retval → retval = fPos ∧ 0 ≤ fPos)

theorem reports_refused (p : ℤ) {e : ℤ} (he : 0 < e) : Reports p (-e) p :=
  ⟨fun _ ↦ rfl, fun h ↦ by omega⟩

theorem reports_place {p : ℤ} (newpos : ℤ) :
    Reports p (if newpos < 0 then (-einval, p) else (newpos, newpos)).1
      (if newpos < 0 then (-einval, p) else (newpos, newpos)).2 := by
  split
  · exact reports_refused p (by decide)
  · next hnonneg => exact ⟨fun hneg ↦ absurd hneg hnonneg, fun h ↦ ⟨rfl, h⟩⟩

theorem aesdLlseek_reports (k : Kernel) (p off whence : ℤ) :
    Reports p (aesdLlseek k p off whence).1 (aesdLlseek k p off whence).2 := by
  unfold aesdLlseek
  split
  · exact reports_place off
  · split
    · exact reports_place _
    · split
      · exact reports_refused p (by decide)
      · exact reports_refused p (by decide)

theorem Models.aesdIoctl_reports_iff {k : Kernel} {log : Log} (h : Models k log) (env : Env) {p : ℤ}
    (hlo : 0 ≤ p) (hhi : p < 2 ^ 63) (arg : AesdSeekto) {d : ℕ}
    (hd : k.seekDistance (arg.arrived env) = d) :
    Reports p (aesdIoctl env k p aesdcharIocseekto arg).retval
        (aesdIoctl env k p aesdcharIocseekto arg).fPos ↔
      p + d < 2 ^ 31 ∨ 2 ^ 63 ≤ p + d ∨ (d = 0 ∧ 2 ^ 31 ≤ p % 2 ^ 32) := by
  rcases h.aesdIoctl_cases env (by omega) hhi arg hd with ⟨hnonneg, hlt, hioctl⟩ | ⟨hout, hioctl⟩
  · rw [hioctl]
    constructor
    · rintro ⟨hneg, hpos⟩
      simp only at hneg hpos
      rcases lt_or_ge (wrapS 32 (p + d)) 0 with hret | hret
      · -- a negative `int` for a position that was reached
        obtain rfl : d = 0 := by
          have hstay := hneg hret
          omega
        rw [Nat.cast_zero, add_zero] at hret
        exact Or.inr (Or.inr ⟨rfl, wrapS_neg_iff.mp hret⟩)
      · exact Or.inl (wrapS_eq_self_iff.mp (hpos hret).1).2
    · rintro (hsmall | hover | ⟨rfl, hbit⟩)
      · have hself : wrapS 32 (p + d) = p + d := wrapS_of_range (by omega) hsmall
        simp only [hself]
        exact ⟨fun hneg ↦ absurd hneg (not_lt.mpr hnonneg), fun _ ↦ ⟨rfl, hnonneg⟩⟩
      · omega
      · simp only [Nat.cast_zero, add_zero]
        have hneg : wrapS 32 p < 0 := wrapS_neg_iff.mpr hbit
        exact ⟨fun _ ↦ rfl, fun hret ↦ absurd hneg (not_lt.mpr hret)⟩
  · rw [hioctl]
    constructor
    · rintro -
      exact Or.inr (Or.inl (hout.resolve_left (by omega)))
    · rintro -
      exact reports_refused p (by decide)

/-- `aesd_llseek` always reports what happened; `aesd_ioctl` does so for positions that
fit an `int`, for moves out of `loff_t`, and for no move at all when the position has
bit 31 set. -/
theorem seek_reports_iff (s : System) (hs : s.Reachable) (p : ℤ) (hlo : 0 ≤ p)
    (hhi : p < 2 ^ 63) :
    (∀ (off : Int64) (whence : Int32),
      Reports p (aesdLlseek s.kernel p off.toInt whence.toInt).1
        (aesdLlseek s.kernel p off.toInt whence.toInt).2) ∧
    ∀ (env : Env) (cmd : ℕ) (arg : AesdSeekto),
      Reports p (aesdIoctl env s.kernel p cmd arg).retval (aesdIoctl env s.kernel p cmd arg).fPos ↔
        cmd ≠ aesdcharIocseekto ∨
          p + s.kernel.seekDistance (arg.arrived env) < 2 ^ 31 ∨
          2 ^ 63 ≤ p + s.kernel.seekDistance (arg.arrived env) ∨
          (s.kernel.seekDistance (arg.arrived env) = 0 ∧ 2 ^ 31 ≤ p % 2 ^ 32) := by
  obtain ⟨log, h⟩ := hs.models
  refine ⟨fun off whence ↦ aesdLlseek_reports s.kernel p off.toInt whence.toInt, ?_⟩
  intro env cmd arg
  by_cases hcmd : cmd = aesdcharIocseekto
  · rw [hcmd, h.aesdIoctl_reports_iff env hlo hhi arg rfl]
    simp
  · rw [aesdIoctl, if_neg hcmd]
    exact ⟨fun _ ↦ Or.inl hcmd, fun _ ↦ reports_refused p (by decide)⟩

theorem seek_reports_oneCommand :
    Reports 0 (aesdIoctl .calm oneCommand.kernel 0 aesdcharIocseekto ⟨0, 1⟩).retval
      (aesdIoctl .calm oneCommand.kernel 0 aesdcharIocseekto ⟨0, 1⟩).fPos := by
  have hioctl := (seek_reports_iff oneCommand (System.reachable_after _) 0 le_rfl
    (by norm_num)).2 .calm aesdcharIocseekto ⟨0, 1⟩
  exact hioctl.mpr (Or.inr (Or.inl (by decide)))

/-- A seek to byte `2 ^ 31` gets there and returns a negative value. -/
theorem not_seek_reports_oneCommand :
    ¬ Reports 0 (aesdIoctl .calm oneCommand.kernel 0 aesdcharIocseekto ⟨0, 2 ^ 31⟩).retval
      (aesdIoctl .calm oneCommand.kernel 0 aesdcharIocseekto ⟨0, 2 ^ 31⟩).fPos := by
  unfold Reports
  decide

/-! ## Seeking from the end -/

theorem commitOrKeep_buffer {heap heap' : Heap UInt8} {dev dev' : AesdDev} {e : AesdBufferEntry}
    (h : commitOrKeep heap dev e = .ok (heap', dev')) :
    dev'.buffer = dev.buffer ∨ dev'.buffer = (aesdCircularBufferAddEntry dev.buffer e).2 := by
  obtain ⟨last, -, h⟩ := FallibleRun.bind_eq_ok_iff.mp h
  split at h
  · generalize aesdCircularBufferAddEntry dev.buffer e = added at h ⊢
    simp only at h
    split at h
    · obtain ⟨heap₁, -, h⟩ := FallibleRun.bind_eq_ok_iff.mp h
      cases h
      exact Or.inr rfl
    · cases h
      exact Or.inr rfl
  · cases h
    exact Or.inl rfl

/-- A write adds at most one entry to the circular buffer. -/
theorem aesdWrite_buffer {env : Env} {k : Kernel} {buf : List UInt8} {fPos : ℤ} {o : Outcome}
    (h : aesdWrite env k buf fPos = .ok o) :
    o.kernel.aesdDevice.buffer = k.aesdDevice.buffer ∨
      ∃ e, o.kernel.aesdDevice.buffer =
        (aesdCircularBufferAddEntry k.aesdDevice.buffer e).2 := by
  unfold aesdWrite at h
  split at h
  · cases h
    exact Or.inl rfl
  · cases hmalloc : kmalloc env k.heap
        (wrapU 64 (buf.length + k.aesdDevice.lock.partialEntry.size)) with
    | none =>
        simp only [hmalloc] at h
        cases h
        exact Or.inl rfl
    | some b =>
        simp only [hmalloc] at h
        obtain ⟨heap₁, -, h⟩ := FallibleRun.bind_eq_ok_iff.mp h
        split at h
        · obtain ⟨heap₂, -, h⟩ := FallibleRun.bind_eq_ok_iff.mp h
          cases h
          exact Or.inl rfl
        · obtain ⟨⟨heap₂, partialEntry⟩, -, h⟩ := FallibleRun.bind_eq_ok_iff.mp h
          obtain ⟨⟨heap₃, dev⟩, hcommit, h⟩ := FallibleRun.bind_eq_ok_iff.mp h
          obtain rfl := Except.ok.inj h
          rcases commitOrKeep_buffer hcommit with hsame | hadded
          · exact Or.inl hsame
          · exact Or.inr ⟨_, hadded⟩

theorem Models.length_content {k : Kernel} {log : Log} (h : Models k log) :
    k.content.length = (k.aesdDevice.buffer.walk.map AesdBufferEntry.size).sum := by
  obtain ⟨_, _, _, hlayout⟩ := h
  rw [hlayout.walk_sizes, Kernel.content, hlayout.storedCommands_eq, List.length_flatten]

theorem Models.buffer_size_step {s s' : System} {log : Log} (h : Models s.kernel log)
    (hsize : s.kernel.aesdDevice.buffer.size = s.kernel.content.length) {call : Call} {o : Outcome}
    (hstep : s.step call = .ok (s', o)) :
    s'.kernel.aesdDevice.buffer.size = s'.kernel.content.length := by
  have h' := h.step hstep
  have hlt := h'.length_content_lt
  rw [h.length_content] at hsize
  rw [h'.length_content] at hlt ⊢
  obtain ⟨hexec, rfl⟩ := System.step_eq_ok_iff.mp hstep
  simp only at hlt
  have hbuffer : o.kernel.aesdDevice.buffer = s.kernel.aesdDevice.buffer ∨
      ∃ e, o.kernel.aesdDevice.buffer =
        (aesdCircularBufferAddEntry s.kernel.aesdDevice.buffer e).2 := by
    by_cases hwrite : ∃ fd env buf, call = .write fd env buf
    · obtain ⟨fd, env, buf, rfl⟩ := hwrite
      exact aesdWrite_buffer hexec
    · obtain ⟨o', hexec', hk⟩ := h.exec_of_not_write (s.fPos call.fd) call
        fun fd env buf hcall ↦ hwrite ⟨fd, env, buf, hcall⟩
      cases hexec.symm.trans hexec'
      rw [hk]
      exact Or.inl rfl
  rcases hbuffer with hsame | ⟨e, hadded⟩
  · simp only [hsame, hsize]
  · obtain ⟨es, _, _, hlayout⟩ := h
    have hholds := (hlayout.holds.addEntry e).1
    rw [← hadded] at hholds
    have hsized : s.kernel.aesdDevice.buffer.Sized es := by
      have hbound := hlayout.sum_sizes_lt
      rw [← hlayout.walk_sizes] at hbound
      rw [AesdCircularBuffer.Sized, ← hlayout.holds.walk_eq, hsize]
      exact (Nat.mod_eq_of_lt (by omega)).symm
    have hnext := hlayout.holds.sized_addEntry hsized e
    rw [← hadded, AesdCircularBuffer.Sized, ← hholds.walk_eq] at hnext
    exact hnext.trans (Nat.mod_eq_of_lt (by omega))

/-- The cached total that a seek from the end starts from is the length of the content. -/
theorem System.Reachable.buffer_size {s : System} (hs : s.Reachable) :
    s.kernel.aesdDevice.buffer.size = s.kernel.content.length := by
  obtain ⟨calls, os, hrun⟩ := hs
  have htrace := FallibleRun.run_trace
    (fun s _ ↦ (∃ log, Models s.kernel log) ∧
      s.kernel.aesdDevice.buffer.size = s.kernel.content.length)
    (fun _ ↦ True) ?_ ⟨⟨_, models_loaded⟩, by decide⟩ (fun _ _ ↦ trivial) hrun
  · exact htrace.2
  · rintro s _ call s' o - ⟨⟨log, h⟩, hsize⟩ hstep
    exact ⟨⟨_, h.step hstep⟩, h.buffer_size_step hsize hstep⟩

/-- A seek to `k` bytes before the end returns that position, and reading on from it
delivers the last `k` bytes; a seek to before the start is refused. -/
def SeekEndContract (s : System) (fd k : ℕ) : Prop :=
  ∃ s' o, s.step (.llseek fd (Int64.ofInt (-k)) 2) = .ok (s', o) ∧
    (k ≤ s.kernel.content.length →
      o.retval = (s.kernel.content.length - k : ℕ) ∧
      ∀ (envs : ℕ → Env) (counts : ℕ → ℕ), (∀ i, (envs i).Undisturbed) →
        ∃ N, ∀ n ≥ N, ∃ t os,
          FallibleRun.run System.step s' (readCalls fd envs counts n) = .ok (t, os) ∧
            (os.map Outcome.copied).flatten =
              s.kernel.content.drop (s.kernel.content.length - k)) ∧
    (s.kernel.content.length < k → o.retval = -einval ∧ s'.fPos fd = s.fPos fd)

theorem step_llseek_end (s : System) (fd : ℕ) (off : Int64) :
    s.step (.llseek fd off 2) = .ok (s, ⟨-einval, s.kernel, s.fPos fd, []⟩) := by
  refine System.step_eq_ok_iff.mpr ⟨rfl, ?_⟩
  simp only [Call.fd, Function.update_eq_self]

/-- `aesd_llseek` computes the position from the end and then refuses every one. -/
theorem seekEndContract_iff (s : System) (fd k : ℕ) :
    SeekEndContract s fd k ↔ s.kernel.content.length < k := by
  have hstep := step_llseek_end s fd (Int64.ofInt (-k))
  constructor
  · rintro ⟨s', o, hseek, hwithin, -⟩
    cases hseek.symm.trans hstep
    by_contra hle
    obtain ⟨hret, -⟩ := hwithin (not_lt.mp hle)
    simp only [einval] at hret
    omega
  · intro hlt
    exact ⟨_, _, hstep, fun hle ↦ absurd hle (not_le.mpr hlt), fun _ ↦ ⟨rfl, rfl⟩⟩

/-- The last byte of three cannot be reached from the end. -/
theorem not_seekEndContract_oneCommand : ¬ SeekEndContract oneCommand 1 1 := by
  rintro ⟨s', o, hseek, hwithin, -⟩
  have hlen : oneCommand.kernel.content.length = 3 := by decide
  cases hseek.symm.trans (step_llseek_end oneCommand 1 _)
  obtain ⟨hret, -⟩ := hwithin (by rw [hlen]; decide)
  rw [hlen] at hret
  exact absurd hret (by decide)

end Aesd
