import Mathlib

/-!
# Sections under a lock

Threads share a state and use it only in a section that begins by taking a lock and ends by
releasing it.  Between any two steps of one thread the others may take steps; nothing but
the lock keeps them apart.  Every state that such threads reach is one that they reach by
running their sections whole, one after the other in the order of the lock, with at most
one section begun beyond that.
-/

namespace LockedSections

variable {ι ℓ σ : Type*}

/-- What the threads do in their sections: where each begins, its steps, and where the
section is over.  A step that is not possible is `none`. -/
structure Program (ι ℓ σ : Type*) where
  enter : ι → ℓ
  next : ι → ℓ → σ → Option (ℓ × σ)
  Final : ℓ → Prop

inductive Phase (ℓ : Type*) where
  | waiting
  | inside (l : ℓ)
  | left (l : ℓ)

structure State (ι ℓ σ : Type*) where
  shared : σ
  holder : Option ι
  phase : ι → Phase ℓ

def State.initial (shared : σ) : State ι ℓ σ := ⟨shared, none, fun _ ↦ .waiting⟩

variable (P : Program ι ℓ σ)

/-- Only taking the lock looks at it. -/
inductive Step [DecidableEq ι] : State ι ℓ σ → State ι ℓ σ → Prop
  | acquire {s : State ι ℓ σ} {i : ι} (hfree : s.holder = none) (hwaits : s.phase i = .waiting) :
      Step s { s with
        holder := some i
        phase := Function.update s.phase i (.inside (P.enter i)) }
  | advance {s : State ι ℓ σ} {i : ι} {l l' : ℓ} {shared : σ} (hinside : s.phase i = .inside l)
      (hnext : P.next i l s.shared = some (l', shared)) :
      Step s { s with shared, phase := Function.update s.phase i (.inside l') }
  | release {s : State ι ℓ σ} {i : ι} {l : ℓ} (hinside : s.phase i = .inside l)
      (hfinal : P.Final l) :
      Step s { s with holder := none, phase := Function.update s.phase i (.left l) }

def Reachable [DecidableEq ι] (shared : σ) (s : State ι ℓ σ) : Prop :=
  Relation.ReflTransGen (Step P) (State.initial shared) s

/-- The thread that takes the lock in a step, if one does. -/
def taker (s t : State ι ℓ σ) : List ι := if s.holder = none then t.holder.toList else []

/-- A run to `s` in which the threads of `taken` took the lock, in this order. -/
inductive Run [DecidableEq ι] (shared : σ) : List ι → State ι ℓ σ → Prop
  | initial : Run shared [] (State.initial shared)
  | step {taken : List ι} {s t : State ι ℓ σ} (hrun : Run shared taken s) (hstep : Step P s t) :
      Run shared (taken ++ taker s t) t

/-! ## One section after the other -/

/-- Steps of one thread alone. -/
def SectionRun (i : ι) : ℓ × σ → ℓ × σ → Prop :=
  Relation.ReflTransGen fun a b ↦ P.next i a.1 a.2 = some b

/-- Whole sections in this order, each with the place where it ends. -/
inductive Serial (shared : σ) : List (ι × ℓ) → σ → Prop
  | nil : Serial shared [] shared
  | concat {done : List (ι × ℓ)} {before after : σ} {i : ι} {l : ℓ}
      (hdone : Serial shared done before) (hrun : SectionRun P i (P.enter i, before) (l, after))
      (hfinal : P.Final l) : Serial shared (done ++ [(i, l)]) after

/-- `done` are the sections that are over, and `base` is what they left. -/
structure Serialized (shared : σ) (s : State ι ℓ σ) (done : List (ι × ℓ)) (base : σ) : Prop where
  serial : Serial P shared done base
  left_iff : ∀ i l, s.phase i = .left l ↔ (i, l) ∈ done
  nodup : (done.map Prod.fst).Nodup
  alone : ∀ i l, s.phase i = .inside l → s.holder = some i
  free : s.holder = none → s.shared = base
  held : ∀ i, s.holder = some i →
    ∃ l, s.phase i = .inside l ∧ SectionRun P i (P.enter i, base) (l, s.shared)

variable {P} {shared base : σ} {s t : State ι ℓ σ} {done : List (ι × ℓ)}

theorem serialized_initial (shared : σ) :
    Serialized P shared (State.initial shared) [] shared where
  serial := .nil
  left_iff i l := by simp [State.initial]
  nodup := List.nodup_nil
  alone i l h := by cases h
  free _ := rfl
  held i h := by cases h

namespace Serialized

/-- A thread that has not left its section is not among those that have. -/
theorem notMem_of_phase (h : Serialized P shared s done base) {i : ι}
    (hphase : ∀ l, s.phase i ≠ .left l) : i ∉ done.map Prod.fst := by
  intro hmem
  obtain ⟨⟨j, l⟩, hin, rfl⟩ := List.mem_map.mp hmem
  exact hphase l ((h.left_iff j l).mpr hin)

/-- A thread that is not over may change its phase to one that is not over either. -/
theorem left_iff_update [DecidableEq ι] (h : Serialized P shared s done base) {i : ι}
    {phase : Phase ℓ} (hold : ∀ l, s.phase i ≠ .left l) (hnew : ∀ l, phase ≠ .left l) (j : ι)
    (l : ℓ) :
    Function.update s.phase i phase j = .left l ↔ (j, l) ∈ done := by
  by_cases hj : j = i
  · subst hj
    rw [Function.update_self]
    refine ⟨fun heq ↦ absurd heq (hnew l), fun hmem ↦ ?_⟩
    exact absurd ((h.left_iff j l).mpr hmem) (hold l)
  · rw [Function.update_of_ne hj]
    exact h.left_iff j l

theorem acquire [DecidableEq ι] (h : Serialized P shared s done base) {i : ι}
    (hfree : s.holder = none) (hwaits : s.phase i = .waiting) :
    Serialized P shared
      { s with
        holder := some i
        phase := Function.update s.phase i (.inside (P.enter i)) } done base := by
  refine ⟨h.serial, h.left_iff_update (by simp [hwaits]) (by simp), h.nodup, ?_, ?_, ?_⟩
  · intro j l hinside
    by_cases hj : j = i
    · rw [hj]
    · have hinside' : s.phase j = .inside l := by
        simpa [Function.update_of_ne hj] using hinside
      rw [h.alone j l hinside'] at hfree
      cases hfree
  · intro hnone
    cases hnone
  · intro j hj
    cases hj
    refine ⟨P.enter i, Function.update_self .., ?_⟩
    rw [← h.free hfree]
    exact .refl

theorem advance [DecidableEq ι] (h : Serialized P shared s done base) {i : ι} {l l' : ℓ}
    {shared' : σ} (hinside : s.phase i = .inside l)
    (hnext : P.next i l s.shared = some (l', shared')) :
    Serialized P shared
      { s with shared := shared', phase := Function.update s.phase i (.inside l') } done base := by
  have hholder := h.alone i l hinside
  refine ⟨h.serial, h.left_iff_update (by simp [hinside]) (by simp), h.nodup, ?_, ?_, ?_⟩
  · intro j k hj
    by_cases hji : j = i
    · rw [hji]
      exact hholder
    · exact h.alone j k (by simpa [Function.update_of_ne hji] using hj)
  · intro hnone
    rw [hholder] at hnone
    cases hnone
  · intro j hj
    rw [hholder] at hj
    cases hj
    obtain ⟨k, hk, hrun⟩ := h.held i hholder
    rw [hinside] at hk
    cases hk
    exact ⟨l', Function.update_self .., hrun.tail hnext⟩

theorem release [DecidableEq ι] (h : Serialized P shared s done base) {i : ι} {l : ℓ}
    (hinside : s.phase i = .inside l) (hfinal : P.Final l) :
    Serialized P shared
      { s with holder := none, phase := Function.update s.phase i (.left l) }
      (done ++ [(i, l)]) s.shared := by
  have hholder := h.alone i l hinside
  obtain ⟨k, hk, hrun⟩ := h.held i hholder
  rw [hinside] at hk
  cases hk
  have hnot : i ∉ done.map Prod.fst := h.notMem_of_phase (by simp [hinside])
  refine ⟨.concat h.serial hrun hfinal, ?_, ?_, ?_, fun _ ↦ rfl, fun j hj ↦ by cases hj⟩
  · intro j k
    by_cases hj : j = i
    · subst hj
      have hdone : (j, k) ∉ done := fun hmem ↦ hnot (List.mem_map_of_mem hmem)
      simp [hdone, eq_comm]
    · simp [h.left_iff, hj]
  · rw [List.map_append]
    refine List.nodup_append.mpr ⟨h.nodup, List.nodup_singleton _, ?_⟩
    intro j hj k hk
    rw [List.map_singleton, List.mem_singleton] at hk
    rintro rfl
    rw [hk] at hj
    exact hnot hj
  · intro j k hj
    by_cases hji : j = i
    · rw [hji] at hj
      simp at hj
    · have hj' : s.phase j = .inside k := by simpa [Function.update_of_ne hji] using hj
      rw [h.alone j k hj'] at hholder
      cases hholder
      exact absurd rfl hji

/-- The lock is taken in the order in which the sections end. -/
theorem step [DecidableEq ι] (h : Serialized P shared s done base) (hstep : Step P s t) :
    ∃ done' base', Serialized P shared t done' base' ∧
      done'.map Prod.fst ++ t.holder.toList =
        done.map Prod.fst ++ s.holder.toList ++ taker s t := by
  cases hstep with
  | acquire hfree hwaits =>
      refine ⟨done, base, h.acquire hfree hwaits, ?_⟩
      simp [taker, hfree]
  | advance hinside hnext =>
      have hholder := h.alone _ _ hinside
      refine ⟨done, base, h.advance hinside hnext, ?_⟩
      simp [taker, hholder]
  | release hinside hfinal =>
      have hholder := h.alone _ _ hinside
      refine ⟨_, _, h.release hinside hfinal, ?_⟩
      simp [taker, hholder]

end Serialized

theorem Run.serialized [DecidableEq ι] {taken : List ι} (h : Run P shared taken s) :
    ∃ done base, Serialized P shared s done base ∧
      taken = done.map Prod.fst ++ s.holder.toList := by
  induction h with
  | initial => exact ⟨[], shared, serialized_initial shared, rfl⟩
  | step _ hstep ih =>
      obtain ⟨done, base, hser, rfl⟩ := ih
      obtain ⟨done', base', hser', htaken⟩ := hser.step hstep
      exact ⟨done', base', hser', htaken.symm⟩

/-- Every state that is reached is reached by a run. -/
theorem reachable_iff_exists_run [DecidableEq ι] :
    Reachable P shared s ↔ ∃ taken, Run P shared taken s := by
  constructor
  · intro h
    induction h with
    | refl => exact ⟨[], .initial⟩
    | tail _ hstep ih =>
        obtain ⟨taken, hrun⟩ := ih
        exact ⟨_, hrun.step hstep⟩
  · rintro ⟨taken, hrun⟩
    induction hrun with
    | initial => exact .refl
    | step _ hstep ih => exact ih.tail hstep

theorem Reachable.serialized [DecidableEq ι] (h : Reachable P shared s) :
    ∃ done base, Serialized P shared s done base := by
  obtain ⟨taken, hrun⟩ := reachable_iff_exists_run.mp h
  obtain ⟨done, base, hser, -⟩ := hrun.serialized
  exact ⟨done, base, hser⟩

theorem Serial.final (h : Serial P shared done base) : ∀ d ∈ done, P.Final d.2 := by
  induction h with
  | nil => simp
  | concat _ _ hfinal ih =>
      intro d hd
      rcases List.mem_append.mp hd with hd | hd
      · exact ih d hd
      · rw [List.mem_singleton.mp hd]
        exact hfinal

/-- A thread that has left its section is through. -/
theorem Step.left [DecidableEq ι] (h : Step P s t) {i : ι} {l : ℓ} (hleft : s.phase i = .left l) :
    t.phase i = .left l := by
  have hother : ∀ {j phase}, s.phase j ≠ .left l →
      Function.update s.phase j phase i = .left l := by
    intro j phase hj
    rw [Function.update_of_ne (by rintro rfl; exact hj hleft)]
    exact hleft
  cases h with
  | acquire _ hwaits => exact hother (by rw [hwaits]; simp)
  | advance hinside _ => exact hother (by rw [hinside]; simp)
  | release hinside _ => exact hother (by rw [hinside]; simp)

/-! ## Sections that come to an end -/

/-- A section that is over does not go on, so a part of a section is a part of every whole
section from the same place. -/
theorem SectionRun.rest {i : ι} (hstop : ∀ l shared, P.Final l → P.next i l shared = none)
    {a b c : ℓ × σ} (hpart : SectionRun P i a b) (hwhole : SectionRun P i a c)
    (hfinal : P.Final c.1) : SectionRun P i b c := by
  have hunique : Relator.RightUnique fun a b : ℓ × σ ↦ P.next i a.1 a.2 = some b := by
    intro x y z hy hz
    exact Option.some_inj.mp (hy.symm.trans hz)
  rcases Relation.ReflTransGen.total_of_right_unique hunique hpart hwhole with h | h
  · exact h
  · rcases Relation.ReflTransGen.cases_head h with rfl | ⟨d, hd, -⟩
    · exact .refl
    · rw [hstop c.1 c.2 hfinal] at hd
      cases hd

theorem SectionRun.acc {i : ι} (hstop : ∀ l shared, P.Final l → P.next i l shared = none)
    {a c : ℓ × σ} (h : SectionRun P i a c) (hfinal : P.Final c.1) :
    Acc (fun b a : ℓ × σ ↦ P.next i a.1 a.2 = some b) a := by
  induction h using Relation.ReflTransGen.head_induction_on with
  | refl =>
      constructor
      intro b hb
      rw [hstop c.1 c.2 hfinal] at hb
      cases hb
  | head hnext _ ih =>
      constructor
      intro b hb
      cases hnext.symm.trans hb
      exact ih

/-- A thread may run its section whole when the lock is free. -/
theorem Run.whole [DecidableEq ι] {taken : List ι} (h : Run P shared taken s) {i : ι}
    (hfree : s.holder = none) (hwaits : s.phase i = .waiting) {l : ℓ} {after : σ}
    (hrun : SectionRun P i (P.enter i, s.shared) (l, after)) (hfinal : P.Final l) :
    Run P shared (taken ++ [i]) ⟨after, none, Function.update s.phase i (.left l)⟩ := by
  have hsteps : ∀ {b : ℓ × σ}, SectionRun P i (P.enter i, s.shared) b →
      Run P shared (taken ++ [i])
        ⟨b.2, some i, Function.update s.phase i (.inside b.1)⟩ := by
    intro b hb
    induction hb with
    | refl =>
        have hstep := h.step (.acquire hfree hwaits)
        rwa [taker, if_pos hfree] at hstep
    | tail _ hnext ih =>
        have hstep := ih.step (.advance (Function.update_self ..) hnext)
        rwa [taker, if_neg (Option.some_ne_none i), List.append_nil, Function.update_idem] at hstep
  have hlast := (hsteps hrun).step (.release (Function.update_self ..) hfinal)
  rwa [taker, if_neg (Option.some_ne_none i), List.append_nil, Function.update_idem] at hlast

/-! ## Threads that come to an end

A finite number of threads take steps; the others wait. -/

def Phase.isWaiting : Phase ℓ → Bool
  | waiting => true
  | _ => false

/-- A step after which only threads of `started` have gone on. -/
def Among [DecidableEq ι] (P : Program ι ℓ σ) (started : Finset ι) (s t : State ι ℓ σ) : Prop :=
  Step P s t ∧ ∀ i, t.phase i ≠ .waiting → i ∈ started

/-- Every section comes to its end from wherever whole sections lead. -/
def Completes (P : Program ι ℓ σ) (shared : σ) : Prop :=
  ∀ done base, Serial P shared done base → ∀ i,
    ∃ l after, SectionRun P i (P.enter i, base) (l, after) ∧ P.Final l

section Ends

variable [DecidableEq ι] {started : Finset ι}

/-- How many of the threads have not begun. -/
def waitingCount (started : Finset ι) (phase : ι → Phase ℓ) : ℕ :=
  (started.filter fun i ↦ (phase i).isWaiting = true).card

theorem waitingCount_update {phase : ι → Phase ℓ} {i : ι} (hold : (phase i).isWaiting = false)
    {next : Phase ℓ} (hnext : next.isWaiting = false) :
    waitingCount started (Function.update phase i next) = waitingCount started phase := by
  rw [waitingCount, waitingCount]
  congr 1
  apply Finset.filter_congr
  intro j _
  by_cases hj : j = i
  · rw [hj, Function.update_self, hold, hnext]
  · rw [Function.update_of_ne hj]

theorem waitingCount_acquire {phase : ι → Phase ℓ} {i : ι} (hi : i ∈ started)
    (hwaits : phase i = .waiting) (l : ℓ) :
    waitingCount started (Function.update phase i (.inside l)) < waitingCount started phase := by
  apply Finset.card_lt_card
  refine (Finset.ssubset_iff_of_subset ?_).mpr ⟨i, ?_, ?_⟩
  · intro j hj
    obtain ⟨hmem, hwaiting⟩ := Finset.mem_filter.mp hj
    refine Finset.mem_filter.mpr ⟨hmem, ?_⟩
    by_cases hji : j = i
    · rw [hji, hwaits]
      rfl
    · rwa [Function.update_of_ne hji] at hwaiting
  · exact Finset.mem_filter.mpr ⟨hi, by rw [hwaits]; rfl⟩
  · intro hmem
    have hwaiting := (Finset.mem_filter.mp hmem).2
    rw [Function.update_self] at hwaiting
    cases hwaiting

/-- The holder goes on until it leaves; only then another thread begins. -/
theorem Reachable.acc (hstop : ∀ i l shared, P.Final l → P.next i l shared = none)
    (hcompletes : Completes P shared) (h : Reachable P shared s) :
    Acc (fun t s ↦ Among P started s t) s := by
  induction hcount : waitingCount started s.phase using Nat.strong_induction_on generalizing s with
  | _ count ih =>
      have hfree : ∀ {s}, Reachable P shared s → waitingCount started s.phase = count →
          s.holder = none → Acc (fun t s ↦ Among P started s t) s := by
        intro s h hcount hnone
        obtain ⟨done, base, hser⟩ := h.serialized
        constructor
        rintro t ⟨hstep, hstarted⟩
        have ht := h.tail hstep
        cases hstep with
        | @acquire i _ hwaits =>
            have hi : i ∈ started := hstarted i (by simp)
            refine ih _ ?_ ht rfl
            rw [← hcount]
            exact waitingCount_acquire hi hwaits _
        | advance hinside _ => cases hnone.symm.trans (hser.alone _ _ hinside)
        | release hinside _ => cases hnone.symm.trans (hser.alone _ _ hinside)
      cases hholder : s.holder with
      | none => exact hfree h hcount hholder
      | some i =>
          obtain ⟨done, base, hser⟩ := h.serialized
          obtain ⟨l, hinside, hpart⟩ := hser.held i hholder
          obtain ⟨last, after, hwhole, hfinal⟩ := hcompletes done base hser.serial i
          have hacc := (hpart.rest (hstop i) hwhole hfinal).acc (hstop i) hfinal
          clear hpart hwhole hser
          generalize ha : (l, s.shared) = a at hacc
          induction hacc generalizing s l with
          | intro a _ ihrun =>
              cases ha
              obtain ⟨done, base, hser⟩ := h.serialized
              constructor
              rintro t ⟨hstep, -⟩
              have ht := h.tail hstep
              cases hstep with
              | acquire hnone _ => cases hnone.symm.trans hholder
              | @advance j l' l'' _ hinside' hnext =>
                  cases (hser.alone j l' hinside').symm.trans hholder
                  cases hinside'.symm.trans hinside
                  refine ihrun _ hnext ht ?_ hholder _ (Function.update_self ..) rfl
                  rw [← hcount]
                  exact waitingCount_update (by rw [hinside]; rfl) rfl
              | @release j l' hinside' _ =>
                  cases (hser.alone j l' hinside').symm.trans hholder
                  refine hfree ht ?_ rfl
                  rw [← hcount]
                  exact waitingCount_update (by rw [hinside]; rfl) rfl

/-- As long as one of the threads is not through, one of them can go on. -/
theorem Reachable.exists_among (hstop : ∀ i l shared, P.Final l → P.next i l shared = none)
    (hcompletes : Completes P shared) (h : Reachable P shared s)
    (hstarted : ∀ i, s.phase i ≠ .waiting → i ∈ started) {i : ι} (hi : i ∈ started)
    (hleft : ∀ l, s.phase i ≠ .left l) : ∃ t, Among P started s t := by
  have hothers : ∀ {j phase}, j ∈ started → ∀ k,
      Function.update s.phase j phase k ≠ .waiting → k ∈ started := by
    intro j phase hj k hk
    by_cases hkj : k = j
    · rwa [hkj]
    · rw [Function.update_of_ne hkj] at hk
      exact hstarted k hk
  obtain ⟨done, base, hser⟩ := h.serialized
  cases hholder : s.holder with
  | none =>
      have hwaits : s.phase i = .waiting := by
        cases hphase : s.phase i with
        | waiting => rfl
        | inside l => cases (hser.alone i l hphase).symm.trans hholder
        | left l => exact absurd hphase (hleft l)
      exact ⟨_, .acquire hholder hwaits, hothers hi⟩
  | some j =>
      obtain ⟨l, hinside, hpart⟩ := hser.held j hholder
      obtain ⟨last, after, hwhole, hfinal⟩ := hcompletes done base hser.serial j
      have hj : j ∈ started := hstarted j (by rw [hinside]; simp)
      rcases Relation.ReflTransGen.cases_head (hpart.rest (hstop j) hwhole hfinal) with
        hend | ⟨⟨l', shared'⟩, hnext, -⟩
      · cases hend
        exact ⟨_, .release hinside hfinal, hothers hj⟩
      · exact ⟨_, .advance hinside hnext, hothers hj⟩

end Ends

end LockedSections
