import Aesd.DriverLog

/-!
# What readers get

`aesd_read` hands out the rest of the command that contains the file position,
however long it is: the requested count plays no part.  Repeated reads therefore
drain the content without loss, but a single read exceeds the count whenever the
command does not end within it.
-/

namespace Aesd

open MachineWord
open OffsetLookup
open PrefixReader

def Env.Undisturbed (env : Env) : Prop := env.interrupted = false ∧ env.uncopied = 0

theorem Models.storedCommands_eq {k : Kernel} {log : Log} (h : Models k log) :
    k.storedCommands = log.stored := by
  obtain ⟨_, _, _, hlayout⟩ := h
  exact hlayout.storedCommands_eq

theorem Models.length_content_lt {k : Kernel} {log : Log} (h : Models k log) :
    k.content.length < 2 ^ 36 := by
  obtain ⟨_, _, _, hlayout⟩ := h
  rw [Kernel.content, hlayout.storedCommands_eq, List.length_flatten]
  exact hlayout.sum_sizes_lt

/-- What a read at `p` is to deliver: the rest of the command that contains `p`. -/
def readOutcome (k : Kernel) (p : ℕ) : Outcome :=
  ⟨(restAt k.storedCommands p).length, k, (p + (restAt k.storedCommands p).length : ℕ),
    restAt k.storedCommands p⟩

theorem Models.aesdRead_undisturbed {k : Kernel} {log : Log} (h : Models k log) {env : Env}
    (henv : env.Undisturbed) (count : ℕ) {p : ℕ} (hp : p < 2 ^ 63) :
    aesdRead env k count p = .ok (readOutcome k p) := by
  have hbound := h.length_content_lt
  have hlen := (reads_restAt k.storedCommands).length_piece_le p
  obtain ⟨_, _, _, hlayout⟩ := h
  have hread := hlayout.aesdRead_eq henv.1 count p
  rw [toU_natCast (by omega), ← hlayout.storedCommands_eq, henv.2] at hread
  cases hloc : locate (k.storedCommands.map List.length) p with
  | none =>
      simp only [hloc] at hread
      simp [hread, readOutcome, restAt, hloc]
  | some q =>
      obtain ⟨j, o⟩ := q
      simp only [hloc] at hread
      obtain ⟨c, hc, ho, hread⟩ := hread
      have hrest := restAt_of_locate hloc hc
      rw [hrest, List.length_drop] at hlen
      rw [Kernel.content] at hbound
      have hwrap : wrapS 64 ((p : ℤ) + (c.length - o : ℕ)) = (p + (c.length - o) : ℕ) := by
        rw [← Nat.cast_add]
        exact wrapS_natCast (by omega)
      rw [hread, readOutcome, hrest, List.length_drop, Nat.zero_min, if_pos rfl, hwrap]

theorem Models.step_read {s : System} {log : Log} (h : Models s.kernel log) {env : Env}
    (henv : env.Undisturbed) (count : ℕ) {fd p : ℕ} (hfd : s.fPos fd = p) (hp : p < 2 ^ 63) :
    s.step (.read fd env count) =
      .ok (⟨s.kernel, Function.update s.fPos fd (readOutcome s.kernel p).fPos⟩,
        readOutcome s.kernel p) := by
  refine System.step_eq_ok_iff.mpr ⟨?_, rfl⟩
  simp only [Call.exec, Call.fd, hfd]
  exact h.aesdRead_undisturbed henv count hp

/-! ## A single read against its count -/

/-- The contract of a read at `p` for at most `count` bytes. -/
def ReadContract (env : Env) (k : Kernel) (count p : ℕ) : Prop :=
  ∃ o n, aesdRead env k count p = .ok o ∧ o.retval = (n : ℕ) ∧ n ≤ count ∧
    o.copied.length = n ∧ o.copied = (k.content.drop p).take n ∧ o.fPos = (p + n : ℕ) ∧
    (n = 0 → count = 0 ∨ k.content.length ≤ p)

/-- The contract is met exactly at the end of the content and where some command
ends within the next `count` bytes. -/
theorem readContract_iff (s : System) (hs : s.Reachable) (env : Env) (henv : env.Undisturbed)
    (count p : ℕ) (hp : p < 2 ^ 63) :
    ReadContract env s.kernel count p ↔
      s.kernel.content.length ≤ p ∨
        ∃ j ≤ s.kernel.storedCommands.length,
          p < (s.kernel.storedCommands.take j).flatten.length ∧
            (s.kernel.storedCommands.take j).flatten.length ≤ p + count := by
  obtain ⟨log, hmodels⟩ := hs.models
  have hread := hmodels.aesdRead_undisturbed henv count hp
  have hreads := reads_restAt s.kernel.storedCommands
  constructor
  · rintro ⟨o, n, hok, hret, hcount, -⟩
    rw [hread] at hok
    cases hok
    by_cases hend : s.kernel.content.length ≤ p
    · exact Or.inl hend
    · refine Or.inr ((length_restAt_le_iff _ (not_le.mp hend) count).mp ?_)
      have hn : (restAt s.kernel.storedCommands p).length = n := Nat.cast_injective (R := ℤ) hret
      omega
  · intro hcond
    refine ⟨_, (restAt s.kernel.storedCommands p).length, hread, rfl, ?_, rfl,
      hreads.piece_eq p, rfl, ?_⟩
    · by_cases hend : s.kernel.content.length ≤ p
      · rw [(hreads.piece_eq_nil_iff p).mpr hend]
        exact Nat.zero_le _
      · exact (length_restAt_le_iff _ (not_le.mp hend) count).mpr (hcond.resolve_left hend)
    · intro hnil
      exact Or.inr ((hreads.piece_eq_nil_iff p).mp (List.eq_nil_of_length_eq_zero hnil))

theorem Env.calm_undisturbed : Env.calm.Undisturbed := ⟨rfl, rfl⟩

def oneCommand : System := System.after [.write 0 .calm (.ofList [97, 98, 10])]

theorem readContract_oneCommand : ReadContract .calm oneCommand.kernel 4 0 := by
  have hiff := readContract_iff oneCommand (System.reachable_after _) .calm Env.calm_undisturbed
    4 0 (by norm_num)
  exact hiff.mpr (Or.inr ⟨1, by decide, by decide, by decide⟩)

/-- A reader that asks for one byte is handed three. -/
theorem not_readContract_oneCommand : ¬ ReadContract .calm oneCommand.kernel 1 0 := by
  rintro ⟨o, n, hread, hret, hcount, -⟩
  have hthree : (aesdRead .calm oneCommand.kernel 1 0).toOption.map Outcome.retval = some 3 := by
    decide
  rw [show ((0 : ℕ) : ℤ) = 0 from rfl] at hread
  rw [hread] at hthree
  have hn : (n : ℤ) = 3 := by simpa [Except.toOption, hret] using hthree
  omega

/-! ## Reading to the end -/

def readCalls (fd : ℕ) (envs : ℕ → Env) (counts : ℕ → ℕ) (n : ℕ) : List Call :=
  (List.range n).map fun i ↦ .read fd (envs i) (counts i)

theorem run_readCalls {s : System} {log : Log} (h : Models s.kernel log) {fd p : ℕ}
    (hfd : s.fPos fd = p) (hp : p < 2 ^ 63) {envs : ℕ → Env} (henvs : ∀ i, (envs i).Undisturbed)
    (counts : ℕ → ℕ) (n : ℕ) :
    FallibleRun.run System.step s (readCalls fd envs counts n) =
      .ok (⟨s.kernel, Function.update s.fPos fd (pos (restAt s.kernel.storedCommands) p n : ℕ)⟩,
        (List.range n).map fun i ↦
          readOutcome s.kernel (pos (restAt s.kernel.storedCommands) p i)) := by
  induction n with
  | zero =>
      have hself : Function.update s.fPos fd (p : ℤ) = s.fPos := by
        rw [← hfd, Function.update_eq_self]
      simp [readCalls, FallibleRun.run, pos, hself]
  | succ n ih =>
      have hbound := h.length_content_lt
      have hpos := (reads_restAt s.kernel.storedCommands).pos_le p n
      rw [Kernel.content] at hbound
      have hread := Models.step_read
        (s := ⟨s.kernel, Function.update s.fPos fd (pos (restAt s.kernel.storedCommands) p n : ℕ)⟩)
        h (henvs n) (counts n) (Function.update_self ..) (by omega)
      rw [readCalls, List.range_succ, List.map_append, FallibleRun.run_append_eq_ok]
      refine ⟨_, _, [readOutcome s.kernel (pos (restAt s.kernel.storedCommands) p n)], ih, ?_, by
        simp⟩
      refine FallibleRun.run_cons_eq_ok.mpr ⟨_, _, [], hread, ?_, rfl⟩
      simp [FallibleRun.run, readOutcome, pos]

/-- Repeated reads, whatever they ask for, hand out the rest of the content in
consecutive non-empty pieces, and nothing more after that. -/
theorem reads_drain (s : System) (hs : s.Reachable) (fd p : ℕ) (hfd : s.fPos fd = p)
    (hp : p < 2 ^ 63) (envs : ℕ → Env) (henvs : ∀ i, (envs i).Undisturbed) (counts : ℕ → ℕ) :
    ∃ (place : ℕ → ℕ) (out : ℕ → Outcome) (N : ℕ),
      (∀ n, FallibleRun.run System.step s (readCalls fd envs counts n) =
        .ok (⟨s.kernel, Function.update s.fPos fd (place n)⟩, (List.range n).map out)) ∧
      (∀ i, (out i).retval = (out i).copied.length ∧
        place (i + 1) = place i + (out i).copied.length ∧
        (out i).copied = (s.kernel.content.drop (place i)).take (out i).copied.length) ∧
      (∀ i, place i < s.kernel.content.length → (out i).retval ≠ 0) ∧
      (∀ i < N, (out i).retval ≠ 0 ∧
        s.kernel.content.length - place (i + 1) < s.kernel.content.length - place i) ∧
      ((List.range N).map fun i ↦ (out i).copied).flatten = s.kernel.content.drop p ∧
      ∀ i ≥ N, (out i).retval = 0 ∧ place i = place N := by
  obtain ⟨log, hmodels⟩ := hs.models
  have hreads : Reads s.kernel.content (restAt s.kernel.storedCommands) := reads_restAt _
  obtain ⟨N, -, hbefore, hend⟩ := hreads.exists_end p
  have hnonzero : ∀ i, pos (restAt s.kernel.storedCommands) p i < s.kernel.content.length →
      (readOutcome s.kernel (pos (restAt s.kernel.storedCommands) p i)).retval ≠ 0 := by
    intro i hi hzero
    exact hreads.progress _ hi (List.eq_nil_of_length_eq_zero (Nat.cast_injective hzero))
  refine ⟨pos (restAt s.kernel.storedCommands) p,
    fun i ↦ readOutcome s.kernel (pos (restAt s.kernel.storedCommands) p i), N,
    run_readCalls hmodels hfd hp henvs counts, fun i ↦ ⟨rfl, rfl, hreads.piece_eq _⟩,
    hnonzero, ?_, hreads.flatten_pieces_of_end hend, ?_⟩
  · intro i hi
    have hlen := List.length_pos_of_ne_nil (hreads.progress _ (hbefore i hi))
    have hpos := hbefore i hi
    refine ⟨hnonzero i hpos, ?_⟩
    simp only [pos]
    omega
  · intro i hi
    have hstay := hreads.pos_of_end hend hi
    have hnil := (hreads.piece_eq_nil_iff (pos (restAt s.kernel.storedCommands) p i)).mpr
      (by rw [hstay]; exact hend)
    exact ⟨by simp [readOutcome, hnil], hstay⟩

def oneCommandSought : System :=
  System.after [.write 0 .calm (.ofList [97, 98, 10]), .llseek 1 1 0]

theorem reads_drain_oneCommandSought :
    ∃ (s : ℕ → System) (out : ℕ → Outcome) (N : ℕ),
      (∀ n, FallibleRun.run System.step oneCommandSought
        (readCalls 1 (fun _ ↦ .calm) (fun _ ↦ 1) n) = .ok (s n, (List.range n).map out)) ∧
      ((List.range N).map fun i ↦ (out i).copied).flatten = [98, 10] := by
  obtain ⟨_, out, N, hrun, -, -, -, hdrained, -⟩ := reads_drain oneCommandSought
    (System.reachable_after _) 1 1 (by decide) (by norm_num) (fun _ ↦ .calm)
    (fun _ ↦ Env.calm_undisturbed) (fun _ ↦ 1)
  exact ⟨_, out, N, hrun, hdrained.trans (by decide)⟩

end Aesd
