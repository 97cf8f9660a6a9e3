import Aesd.PrefixReader

/-!
# Positions in a concatenation

A position in the concatenation of several pieces is a piece together with an
offset inside it.  `locate` finds that pair from the sizes alone; empty pieces
are skipped, and a position at or past the end has no pair.
-/

namespace OffsetLookup

variable {α : Type*}

/-- The piece that contains position `p`, and the offset of `p` inside it. -/
def locate : List ℕ → ℕ → Option (ℕ × ℕ)
  | [], _ => none
  | s :: ss, p =>
      if p < s then some (0, p)
      else (locate ss (p - s)).map fun (j, o) ↦ (j + 1, o)

theorem locate_eq_none_iff (ss : List ℕ) (p : ℕ) : locate ss p = none ↔ ss.sum ≤ p := by
  induction ss generalizing p with
  | nil => simp [locate]
  | cons s ss ih =>
      rw [locate, List.sum_cons]
      split
      · simp
        omega
      · rw [Option.map_eq_none_iff, ih]
        omega

theorem locate_eq_some_iff (ss : List ℕ) (p j o : ℕ) :
    locate ss p = some (j, o) ↔ ∃ s, ss[j]? = some s ∧ o < s ∧ (ss.take j).sum + o = p := by
  induction ss generalizing p j with
  | nil => simp [locate]
  | cons s ss ih =>
      rw [locate]
      cases j with
      | zero =>
          split
          · simp
            omega
          · simp
            omega
      | succ j =>
          simp only [List.getElem?_cons_succ, List.take_succ_cons, List.sum_cons]
          split
          · simp
            omega
          · next hp =>
              have hmap : (locate ss (p - s)).map (fun (j, o) ↦ (j + 1, o)) = some (j + 1, o) ↔
                  locate ss (p - s) = some (j, o) := by
                cases locate ss (p - s) <;> simp [Prod.ext_iff]
              rw [hmap, ih]
              refine exists_congr fun t ↦ and_congr_right fun _ ↦ and_congr_right fun _ ↦ ?_
              omega

/-- The lookup in terms of what has the sizes. -/
theorem locate_map_eq_some_iff (f : α → ℕ) (xs : List α) (p j o : ℕ) :
    locate (xs.map f) p = some (j, o) ↔
      ∃ x, xs[j]? = some x ∧ o < f x ∧ ((xs.take j).map f).sum + o = p := by
  rw [locate_eq_some_iff, List.map_take]
  constructor
  · rintro ⟨s, hs, ho, hp⟩
    rw [List.getElem?_map] at hs
    obtain ⟨x, hx, rfl⟩ := Option.map_eq_some_iff.mp hs
    exact ⟨x, hx, ho, hp⟩
  · rintro ⟨x, hx, ho, hp⟩
    exact ⟨f x, by rw [List.getElem?_map, hx]; rfl, ho, hp⟩

theorem locate_append_zeros (ss : List ℕ) (n p : ℕ) :
    locate (ss ++ List.replicate n 0) p = locate ss p := by
  induction ss generalizing p with
  | nil => simp [locate, locate_eq_none_iff]
  | cons s ss ih => simp only [List.cons_append, locate, ih]

theorem locate_isSome_iff (ss : List ℕ) (p : ℕ) :
    (∃ j o, locate ss p = some (j, o)) ↔ p < ss.sum := by
  rw [← not_le, ← locate_eq_none_iff]
  cases locate ss p with
  | none => simp
  | some q => exact ⟨fun _ ↦ by simp, fun _ ↦ ⟨q.1, q.2, rfl⟩⟩

/-- The lookup in terms of the pieces themselves: what follows `p` in the
concatenation is the rest of the piece found, and then the later pieces. -/
theorem drop_flatten_of_locate {xs : List (List α)} {p j o : ℕ}
    (h : locate (xs.map List.length) p = some (j, o)) :
    ∃ x, xs[j]? = some x ∧ o < x.length ∧ (xs.take j).flatten.length + o = p ∧
      xs.flatten.drop p = x.drop o ++ (xs.drop (j + 1)).flatten := by
  obtain ⟨x, hx, ho, hp⟩ := (locate_map_eq_some_iff _ _ _ _ _).mp h
  have hsum : (xs.take j).flatten.length = ((xs.take j).map List.length).sum :=
    List.length_flatten
  refine ⟨x, hx, ho, by omega, ?_⟩
  obtain ⟨hj, hxj⟩ := List.getElem?_eq_some_iff.mp hx
  have hsplit : xs.flatten = (xs.take j).flatten ++ (x ++ (xs.drop (j + 1)).flatten) := by
    conv_lhs => rw [← List.take_append_drop j xs]
    rw [List.drop_eq_getElem_cons hj, hxj, List.flatten_append, List.flatten_cons]
  rw [hsplit, ← hp, ← hsum, ← List.drop_drop, List.drop_left,
    List.drop_append_of_le_length ho.le]

/-- What follows position `p` inside the piece that contains it. -/
def restAt (xs : List (List α)) (p : ℕ) : List α :=
  match locate (xs.map List.length) p with
  | none => []
  | some (j, o) => (xs.getD j []).drop o

theorem restAt_of_locate {xs : List (List α)} {p j o : ℕ} {x : List α}
    (h : locate (xs.map List.length) p = some (j, o)) (hx : xs[j]? = some x) :
    restAt xs p = x.drop o := by
  simp [restAt, h, hx]

theorem length_restAt_le {xs : List (List α)} {n : ℕ} (h : ∀ x ∈ xs, x.length ≤ n) (p : ℕ) :
    (restAt xs p).length ≤ n := by
  cases hloc : locate (xs.map List.length) p with
  | none => simp [restAt, hloc]
  | some q =>
      obtain ⟨x, hx, -, -, -⟩ := drop_flatten_of_locate hloc
      have hxn := h x (List.mem_of_getElem? hx)
      rw [restAt_of_locate hloc hx, List.length_drop]
      omega

theorem restAt_take_add {xs : List (List α)} {j o : ℕ} {x : List α} (hx : xs[j]? = some x)
    (ho : o < x.length) : restAt xs ((xs.take j).flatten.length + o) = x.drop o := by
  refine restAt_of_locate ((locate_eq_some_iff _ _ _ _).mpr ⟨x.length, ?_, ho, ?_⟩) hx
  · rw [List.getElem?_map, hx]
    rfl
  · rw [List.length_flatten, List.map_take]

theorem reads_restAt (xs : List (List α)) : PrefixReader.Reads xs.flatten (restAt xs) where
  consecutive := by
    intro p
    cases hloc : locate (xs.map List.length) p with
    | none => simp [restAt, hloc]
    | some q =>
        obtain ⟨x, hx, -, -, hdrop⟩ := drop_flatten_of_locate hloc
        rw [restAt_of_locate hloc hx, hdrop]
        exact List.prefix_append _ _
  progress := by
    intro p hp
    rw [List.length_flatten, ← locate_isSome_iff] at hp
    obtain ⟨j, o, hloc⟩ := hp
    obtain ⟨x, hx, ho, -⟩ := drop_flatten_of_locate hloc
    rw [restAt_of_locate hloc hx]
    simpa using ho

theorem length_flatten_take_mono (xs : List (List α)) {i j : ℕ} (h : i ≤ j) :
    (xs.take i).flatten.length ≤ (xs.take j).flatten.length := by
  have hsplit : xs.take j = xs.take i ++ (xs.take j).drop i := by
    conv_lhs => rw [← List.take_append_drop i (xs.take j), List.take_take, min_eq_left h]
  rw [hsplit, List.flatten_append, List.length_append]
  exact Nat.le_add_right _ _

/-- The rest of a piece is at most `n` long just when some piece ends among the
next `n` positions. -/
theorem length_restAt_le_iff (xs : List (List α)) {p : ℕ} (hp : p < xs.flatten.length) (n : ℕ) :
    (restAt xs p).length ≤ n ↔
      ∃ j ≤ xs.length, p < (xs.take j).flatten.length ∧ (xs.take j).flatten.length ≤ p + n := by
  rw [List.length_flatten, ← locate_isSome_iff] at hp
  obtain ⟨j, o, hloc⟩ := hp
  obtain ⟨x, hx, ho, hsum, -⟩ := drop_flatten_of_locate hloc
  obtain ⟨hj, rfl⟩ := List.getElem?_eq_some_iff.mp hx
  have hnext : (xs.take (j + 1)).flatten.length = (xs.take j).flatten.length + xs[j].length := by
    rw [List.take_succ_eq_append_getElem hj, List.flatten_append, List.length_append,
      List.flatten_singleton]
  rw [restAt_of_locate hloc hx, List.length_drop]
  constructor
  · intro hle
    exact ⟨j + 1, hj, by omega, by omega⟩
  · rintro ⟨i, -, hlt, hle⟩
    have hji : j + 1 ≤ i := by
      by_contra hij
      have hmono := length_flatten_take_mono xs (show i ≤ j by omega)
      omega
    have hmono := length_flatten_take_mono xs hji
    omega

end OffsetLookup
