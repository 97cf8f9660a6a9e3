import Mathlib

/-!
# Runs of a fallible step function

A system takes labelled steps; each step returns an observation or fails.  A
run is a list of labels executed one after the other.  The rules below turn a
fact about one step into a fact about every run: totality from an invariant, and
what the state has to do with the labels and observations seen so far.
-/

namespace FallibleRun

universe u

variable {σ α β ε : Type*}

section Bind

variable {γ δ : Type u}

@[simp] theorem ok_bind (x : γ) (f : γ → Except ε δ) : (Except.ok x >>= f) = f x := rfl

@[simp] theorem error_bind (e : ε) (f : γ → Except ε δ) :
    (Except.error e >>= f) = .error e := rfl

theorem bind_eq_ok_iff {x : Except ε γ} {f : γ → Except ε δ} {d : δ} :
    (x >>= f) = .ok d ↔ ∃ c, x = .ok c ∧ f c = .ok d := by
  cases x <;> simp

theorem toOption_join_eq_some_iff {x : Except ε (Option γ)} {c : γ} :
    x.toOption.join = some c ↔ x = .ok (some c) := by
  cases x with
  | error e => exact iff_of_false (Option.some_ne_none c).symm (by simp)
  | ok o => exact (Except.ok.injEq o (some c)).to_iff.symm

end Bind

def run (step : σ → α → Except ε (σ × β)) : σ → List α → Except ε (σ × List β)
  | s, [] => .ok (s, [])
  | s, a :: as => do
      let (next, b) ← step s a
      let (last, bs) ← run step next as
      return (last, b :: bs)

def Reachable (step : σ → α → Except ε (σ × β)) (s t : σ) : Prop :=
  ∃ as bs, run step s as = .ok (t, bs)

variable {step : σ → α → Except ε (σ × β)}

theorem run_cons_eq_ok {s t : σ} {a : α} {as : List α} {bs : List β} :
    run step s (a :: as) = .ok (t, bs) ↔
      ∃ next b rest, step s a = .ok (next, b) ∧ run step next as = .ok (t, rest) ∧
        bs = b :: rest := by
  simp only [run, bind_eq_ok_iff]
  constructor
  · rintro ⟨⟨next, b⟩, hstep, ⟨last, rest⟩, hrun, hpure⟩
    cases hpure
    exact ⟨next, b, rest, hstep, hrun, rfl⟩
  · rintro ⟨next, b, rest, hstep, hrun, rfl⟩
    exact ⟨(next, b), hstep, (t, rest), hrun, rfl⟩

theorem run_append_eq_ok {s t : σ} {as as' : List α} {bs : List β} :
    run step s (as ++ as') = .ok (t, bs) ↔
      ∃ mid bs₁ bs₂, run step s as = .ok (mid, bs₁) ∧ run step mid as' = .ok (t, bs₂) ∧
        bs = bs₁ ++ bs₂ := by
  induction as generalizing s bs with
  | nil => simp [run]
  | cons a as ih =>
      simp only [List.cons_append, run_cons_eq_ok, ih]
      constructor
      · rintro ⟨next, b, rest, hstep, ⟨mid, bs₁, bs₂, h₁, h₂, rfl⟩, rfl⟩
        exact ⟨mid, b :: bs₁, bs₂, ⟨next, b, bs₁, hstep, h₁, rfl⟩, h₂, rfl⟩
      · rintro ⟨mid, _, bs₂, ⟨next, b, bs₁, hstep, h₁, rfl⟩, h₂, rfl⟩
        exact ⟨next, b, bs₁ ++ bs₂, hstep, ⟨mid, bs₁, bs₂, h₁, h₂, rfl⟩, rfl⟩

theorem length_of_run {s t : σ} {as : List α} {bs : List β}
    (h : run step s as = .ok (t, bs)) : bs.length = as.length := by
  induction as generalizing s bs with
  | nil =>
      cases h
      rfl
  | cons a as ih =>
      obtain ⟨next, b, rest, -, hrun, rfl⟩ := run_cons_eq_ok.mp h
      simp [ih hrun]

/-- A step function that cannot fail on permitted labels inside an invariant
it preserves does not fail on runs of permitted labels. -/
theorem run_total (Inv : σ → Prop) {permitted : α → Prop}
    (hstep : ∀ s a, Inv s → permitted a → ∃ t b, step s a = .ok (t, b) ∧ Inv t)
    {s : σ} (hs : Inv s) {as : List α} (has : ∀ a ∈ as, permitted a) :
    ∃ t bs, run step s as = .ok (t, bs) ∧ Inv t := by
  induction as generalizing s with
  | nil => exact ⟨s, [], rfl, hs⟩
  | cons a as ih =>
      obtain ⟨next, b, hone, hnext⟩ := hstep s a hs (has a List.mem_cons_self)
      obtain ⟨t, bs, hrun, ht⟩ := ih hnext fun a ha ↦ has a (List.mem_cons_of_mem _ ha)
      exact ⟨t, b :: bs, run_cons_eq_ok.mpr ⟨next, b, bs, hone, hrun, rfl⟩, ht⟩

theorem run_observes (Inv : σ → Prop) {P : α → β → Prop}
    (hstep : ∀ s a t b, Inv s → step s a = .ok (t, b) → Inv t ∧ P a b)
    {s t : σ} (hs : Inv s) {as : List α} {bs : List β}
    (h : run step s as = .ok (t, bs)) : List.Forall₂ P as bs := by
  induction as generalizing s bs with
  | nil =>
      cases h
      exact .nil
  | cons a as ih =>
      obtain ⟨next, b, rest, hone, hrun, rfl⟩ := run_cons_eq_ok.mp h
      obtain ⟨hnext, hP⟩ := hstep s a next b hs hone
      exact .cons hP (ih hnext hrun)

/-- A property of the state and the trace so far that every permitted step keeps
holds at the end of a run. -/
theorem run_trace (P : σ → List (α × β) → Prop) (permitted : α → Prop)
    (hstep : ∀ s trace a s' b, permitted a → P s trace → step s a = .ok (s', b) →
      P s' (trace ++ [(a, b)]))
    {s t : σ} (hs : P s []) {as : List α} (has : ∀ a ∈ as, permitted a) {bs : List β}
    (h : run step s as = .ok (t, bs)) : P t (as.zip bs) := by
  suffices hextend : ∀ {s : σ} {trace : List (α × β)} {bs : List β}, P s trace →
      run step s as = .ok (t, bs) → P t (trace ++ as.zip bs) from hextend hs h
  clear h hs
  induction as with
  | nil =>
      intro s trace bs hs h
      cases h
      simpa using hs
  | cons a as ih =>
      intro s trace bs hs h
      obtain ⟨next, b, rest, hone, hrun, rfl⟩ := run_cons_eq_ok.mp h
      have hnext := hstep s trace a next b (has a List.mem_cons_self) hs hone
      have hlast := ih (fun a ha ↦ has a (List.mem_cons_of_mem _ ha)) hnext hrun
      rwa [List.append_assoc] at hlast

/-- A step that leaves the state as it is can be left out of a run. -/
theorem run_eraseIdx {s t : σ} {as : List α} {bs : List β} (h : run step s as = .ok (t, bs))
    {i : ℕ} {a : α} (ha : as[i]? = some a)
    (hstay : ∀ mid bs₁, run step s (as.take i) = .ok (mid, bs₁) → ∃ b, step mid a = .ok (mid, b)) :
    run step s (as.eraseIdx i) = .ok (t, bs.eraseIdx i) := by
  obtain ⟨hi, rfl⟩ := List.getElem?_eq_some_iff.mp ha
  rw [← List.take_append_drop i as, List.drop_eq_getElem_cons hi, run_append_eq_ok] at h
  obtain ⟨mid, bs₁, bs₂, hbefore, hrest, rfl⟩ := h
  obtain ⟨next, b, rest, hone, hafter, rfl⟩ := run_cons_eq_ok.mp hrest
  obtain ⟨b', hsame⟩ := hstay mid bs₁ hbefore
  cases hone.symm.trans hsame
  have hlen : bs₁.length = i := by
    rw [length_of_run hbefore, List.length_take]
    omega
  rw [List.eraseIdx_eq_take_drop_succ, run_append_eq_ok]
  refine ⟨mid, bs₁, rest, hbefore, hafter, ?_⟩
  rw [← hlen, List.eraseIdx_append_of_length_le le_rfl, Nat.sub_self]
  rfl

/-! ## Leaving failed steps out -/

/-- The labels of a run whose observation is not a failure. -/
def kept (failed : β → Bool) (as : List α) (bs : List β) : List α :=
  ((as.zip bs).filter fun e ↦ !failed e.2).map Prod.fst

theorem kept_cons (failed : β → Bool) (a : α) (as : List α) (b : β) (bs : List β) :
    kept failed (a :: as) (b :: bs) =
      if failed b then kept failed as bs else a :: kept failed as bs := by
  rw [kept, List.zip_cons_cons, List.filter_cons]
  cases failed b <;> rfl

/-- When a failed step leaves the state as it is, a run without its failed steps
ends in the same state and makes the same other observations. -/
theorem run_kept (Inv : σ → Prop) {permitted : α → Prop} {failed : β → Bool}
    (hstep : ∀ s a t b, Inv s → permitted a → step s a = .ok (t, b) →
      Inv t ∧ (failed b = true → t = s))
    {s t : σ} (hs : Inv s) {as : List α} (has : ∀ a ∈ as, permitted a) {bs : List β}
    (h : run step s as = .ok (t, bs)) :
    run step s (kept failed as bs) = .ok (t, bs.filter fun b ↦ !failed b) := by
  induction as generalizing s bs with
  | nil =>
      cases h
      rfl
  | cons a as ih =>
      obtain ⟨next, b, rest, hone, hrun, rfl⟩ := run_cons_eq_ok.mp h
      obtain ⟨hnext, hsame⟩ := hstep s a next b hs (has a List.mem_cons_self) hone
      have hrest := ih hnext (fun a ha ↦ has a (List.mem_cons_of_mem _ ha)) hrun
      rw [kept_cons, List.filter_cons]
      cases hb : failed b with
      | true =>
          rw [hsame hb] at hrest
          exact hrest
      | false => exact run_cons_eq_ok.mpr ⟨next, b, _, hone, hrest, rfl⟩

/-! ## Properties of every point of a run -/

/-- Where a step keeps `P` exactly when it meets `Q`, a run has `P` at all of its
points exactly when all of its steps meet `Q`. -/
theorem run_always_iff (Inv : σ → Prop) (permitted : α → Prop) (P : σ → List (α × β) → Prop)
    (Q : σ → α → Prop)
    (htotal : ∀ s a, Inv s → permitted a → ∃ t b, step s a = .ok (t, b) ∧ Inv t)
    (hkeep : ∀ s past a t b, Inv s → permitted a → P s past → step s a = .ok (t, b) →
      (P t (past ++ [(a, b)]) ↔ Q s a))
    {s : σ} (hs : Inv s) (hP : P s []) {as : List α} (has : ∀ a ∈ as, permitted a) :
    (∀ n ≤ as.length, ∃ t bs, run step s (as.take n) = .ok (t, bs) ∧ P t ((as.take n).zip bs)) ↔
      ∀ n a t bs, as[n]? = some a → run step s (as.take n) = .ok (t, bs) → Q t a := by
  have hextend : ∀ {n a t bs}, as[n]? = some a → run step s (as.take n) = .ok (t, bs) →
      P t ((as.take n).zip bs) → ∃ t' bs', run step s (as.take (n + 1)) = .ok (t', bs') ∧
        (P t' ((as.take (n + 1)).zip bs') ↔ Q t a) := by
    intro n a t bs ha hrun hPn
    obtain ⟨t₁, bs₁, hrun₁, hInv⟩ := run_total Inv htotal hs
      fun a ha ↦ has a (List.mem_of_mem_take (i := n) ha)
    cases hrun.symm.trans hrun₁
    obtain ⟨hn, hget⟩ := List.getElem?_eq_some_iff.mp ha
    have hperm := has a (List.mem_of_getElem? ha)
    obtain ⟨t', b, hone, -⟩ := htotal t a hInv hperm
    have hlen := length_of_run hrun
    rw [List.take_succ_eq_append_getElem hn, hget]
    refine ⟨t', bs ++ [b], run_append_eq_ok.mpr ⟨t, bs, [b], hrun, ?_, rfl⟩, ?_⟩
    · exact run_cons_eq_ok.mpr ⟨t', b, [], hone, rfl, rfl⟩
    · rw [List.zip_append hlen.symm]
      exact hkeep t _ a t' b hInv hperm hPn hone
  constructor
  · intro hall n a t bs ha hrun
    obtain ⟨hn, -⟩ := List.getElem?_eq_some_iff.mp ha
    obtain ⟨t₀, bs₀, hrun₀, hP₀⟩ := hall n hn.le
    cases hrun.symm.trans hrun₀
    obtain ⟨t', bs', hrun', hiff⟩ := hextend ha hrun hP₀
    obtain ⟨t₁, bs₁, hrun₁, hP₁⟩ := hall (n + 1) hn
    cases hrun'.symm.trans hrun₁
    exact hiff.mp hP₁
  · intro hall n
    induction n with
    | zero => exact fun _ ↦ ⟨s, [], rfl, hP⟩
    | succ n ih =>
        intro hn
        obtain ⟨t, bs, hrun, hPn⟩ := ih (by omega)
        have ha : as[n]? = some as[n] := List.getElem?_eq_getElem hn
        obtain ⟨t', bs', hrun', hiff⟩ := hextend ha hrun hPn
        exact ⟨t', bs', hrun', hiff.mpr (hall n _ t bs ha hrun)⟩

end FallibleRun
