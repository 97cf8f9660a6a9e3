import Mathlib

/-!
# A ring of fixed capacity as a bounded FIFO

The ring keeps two wrapping offsets and a flag that tells a full ring from an
empty one.  Its state after any number of pushes is described in closed form
by the whole history of pushed values: the offsets are residues of the length
of the history, and every slot holds the latest value whose position has the
slot's residue.  The FIFO view, the evicted value and the vacant slots are all
read off that description.
-/

namespace BoundedRing

variable {α β : Type*} {N : ℕ}

/-! ## The last values of a list -/

theorem rtake_rtake (l : List α) {m n : ℕ} (h : n ≤ m) : (l.rtake m).rtake n = l.rtake n := by
  simp only [List.rtake, List.drop_drop, List.length_drop]
  congr 1
  omega

theorem rtake_map (f : α → β) (l : List α) (n : ℕ) : (l.map f).rtake n = (l.rtake n).map f := by
  simp [List.rtake]

theorem rtake_of_length_le {l : List α} {n : ℕ} (h : l.length ≤ n) : l.rtake n = l := by
  simp [List.rtake, Nat.sub_eq_zero_of_le h]

@[simp] theorem length_rtake (l : List α) (n : ℕ) : (l.rtake n).length = min l.length n := by
  simp only [List.rtake, List.length_drop]
  omega

theorem rtake_succ_of_le [Inhabited α] {l : List α} {n : ℕ} (h : n + 1 ≤ l.length) :
    l.rtake (n + 1) = l.getD (l.length - (n + 1)) default :: l.rtake n := by
  have hlt : l.length - (n + 1) < l.length := by omega
  have hnext : l.length - (n + 1) + 1 = l.length - n := by omega
  rw [List.rtake, List.rtake, List.drop_eq_getElem_cons hlt, hnext, List.getD_eq_getElem _ _ hlt]

theorem length_flatten_rtake_le {xs : List (List α)} {n b : ℕ}
    (h : ∀ x ∈ xs.rtake n, x.length ≤ b) : (xs.rtake n).flatten.length ≤ n * b := by
  have hle := List.sum_le_card_nsmul ((xs.rtake n).map List.length) b (by
    intro m hm
    obtain ⟨x, hx, rfl⟩ := List.mem_map.mp hm
    exact h x hx)
  rw [List.length_map, length_rtake, smul_eq_mul] at hle
  rw [List.length_flatten]
  exact hle.trans (Nat.mul_le_mul_right b (min_le_right _ _))

/-! ## The ring -/

/-- Slots, the offset of the next write, the offset of the oldest value, and
the flag that separates a full ring from an empty one. -/
structure Ring (α : Type*) (N : ℕ) where
  slots : Vector α N
  inOffs : ℕ
  outOffs : ℕ
  full : Bool

namespace Ring

variable [Inhabited α]

def empty (α : Type*) [Inhabited α] (N : ℕ) : Ring α N :=
  ⟨Vector.replicate N default, 0, 0, false⟩

def slot (r : Ring α N) (i : ℕ) : α := r.slots[i]?.getD default

def push (r : Ring α N) (e : α) : Ring α N × α :=
  let inOffs := (r.inOffs + 1) % N
  let slots := r.slots.setIfInBounds r.inOffs e
  if r.full then
    (⟨slots, inOffs, (r.outOffs + 1) % N, true⟩, r.slot r.inOffs)
  else
    (⟨slots, inOffs, r.outOffs, decide (inOffs = r.outOffs)⟩, r.slot r.inOffs)

def occupied (r : Ring α N) : ℕ :=
  if r.full then N else (r.inOffs + N - r.outOffs) % N

def window (r : Ring α N) (k : ℕ) : List α :=
  (List.range k).map fun i ↦ r.slot ((r.outOffs + i) % N)

def walk (r : Ring α N) : List α := r.window r.occupied

def slotList (r : Ring α N) : List α := (List.range N).map r.slot

/-- The ring is the result of pushing the values of `es`, in order, on an
empty ring. -/
structure Holds (r : Ring α N) (es : List α) : Prop where
  inOffs_eq : r.inOffs = es.length % N
  outOffs_eq : r.outOffs = if es.length < N then 0 else es.length % N
  full_iff : r.full = true ↔ N ≤ es.length
  recent : ∀ j (h : j < es.length), es.length ≤ j + N → r.slot (j % N) = es[j]
  vacant : ∀ i, es.length ≤ i → i < N → r.slot i = default

theorem slot_setIfInBounds (r : Ring α N) (i j : ℕ) (e : α) (hi : i < N) :
    (r.slots.setIfInBounds i e)[j]?.getD default = if i = j then e else r.slot j := by
  rw [Vector.getElem?_setIfInBounds]
  by_cases hij : i = j
  · subst hij
    simp [hi]
  · simp [hij, slot]

theorem slot_push (r : Ring α N) (e : α) (j : ℕ) (hin : r.inOffs < N) :
    (r.push e).1.slot j = if r.inOffs = j then e else r.slot j := by
  unfold push
  split <;> exact slot_setIfInBounds r r.inOffs j e hin

theorem holds_empty (hN : 0 < N) : (empty α N).Holds [] where
  inOffs_eq := by simp [empty]
  outOffs_eq := by simp [empty]
  full_iff := by simp [empty]; omega
  recent := by simp
  vacant := by
    intro i _ hi
    simp [slot, empty, hi]

theorem window_eq_rotate (r : Ring α N) : r.window N = r.slotList.rotate r.outOffs := by
  apply List.ext_getElem
  · simp [window, slotList]
  · intro i hi _
    simp [window, slotList, List.getElem_rotate, Nat.add_comm]

theorem mod_ne_of_lt_of_lt_add {a b : ℕ} (hab : a < b) (hba : b < a + N) :
    a % N ≠ b % N := by
  intro h
  have hdvd : N ∣ b - a := (Nat.modEq_iff_dvd' hab.le).mp h
  have := Nat.le_of_dvd (by omega) hdvd
  omega

namespace Holds

variable {r : Ring α N} {es : List α}

theorem inOffs_lt (h : r.Holds es) (hN : 0 < N) : r.inOffs < N := by
  rw [h.inOffs_eq]
  exact Nat.mod_lt _ hN

theorem outOffs_lt (h : r.Holds es) (hN : 0 < N) : r.outOffs < N := by
  rw [h.outOffs_eq]
  split
  · exact hN
  · exact Nat.mod_lt _ hN

theorem occupied_eq (h : r.Holds es) : r.occupied = min es.length N := by
  unfold occupied
  by_cases hfull : N ≤ es.length
  · rw [if_pos (h.full_iff.mpr hfull), min_eq_right hfull]
  · have hlt : es.length < N := by omega
    rw [if_neg (fun hf ↦ hfull (h.full_iff.mp hf)), h.inOffs_eq, h.outOffs_eq,
      if_pos hlt, Nat.mod_eq_of_lt hlt, Nat.sub_zero, Nat.add_mod_right,
      Nat.mod_eq_of_lt hlt, min_eq_left hlt.le]

theorem slot_inOffs (h : r.Holds es) :
    r.slot r.inOffs = if es.length < N then default else es.getD (es.length - N) default := by
  rw [h.inOffs_eq]
  by_cases hlt : es.length < N
  · rw [if_pos hlt, Nat.mod_eq_of_lt hlt]
    exact h.vacant es.length le_rfl hlt
  · rw [if_neg hlt]
    by_cases hN : N = 0
    · subst hN
      simp [slot]
    · have hj : es.length - N < es.length := by omega
      have hmod : es.length % N = (es.length - N) % N := Nat.mod_eq_sub_mod (by omega)
      rw [hmod, h.recent _ hj (by omega)]
      exact (List.getD_eq_getElem _ _ hj).symm

theorem push_evicted (h : r.Holds es) (e : α) :
    (r.push e).2 = if es.length < N then default else es.getD (es.length - N) default := by
  rw [← h.slot_inOffs]
  unfold push
  split <;> rfl

theorem push (h : r.Holds es) (hN : 0 < N) (e : α) : (r.push e).1.Holds (es ++ [e]) := by
  have hin := h.inOffs_lt hN
  have hnext : (r.inOffs + 1) % N = (es.length + 1) % N := by
    rw [h.inOffs_eq, Nat.mod_add_mod]
  refine ⟨?_, ?_, ?_, ?_, ?_⟩
  · rw [List.length_append, List.length_singleton, ← hnext]
    unfold Ring.push
    split <;> rfl
  · rw [List.length_append, List.length_singleton]
    unfold Ring.push
    by_cases hfull : N ≤ es.length
    · rw [if_pos (h.full_iff.mpr hfull), if_neg (by omega), h.outOffs_eq, if_neg (by omega),
        Nat.mod_add_mod]
    · rw [if_neg (fun hf ↦ hfull (h.full_iff.mp hf))]
      rw [h.outOffs_eq, if_pos (by omega)]
      split
      · rfl
      · have hlast : es.length + 1 = N := by omega
        rw [hlast, Nat.mod_self]
  · rw [List.length_append, List.length_singleton]
    unfold Ring.push
    by_cases hfull : N ≤ es.length
    · rw [if_pos (h.full_iff.mpr hfull)]
      simp
      omega
    · rw [if_neg (fun hf ↦ hfull (h.full_iff.mp hf))]
      simp only [decide_eq_true_eq, hnext, h.outOffs_eq]
      rw [if_pos (by omega)]
      constructor
      · intro hzero
        by_contra hlt
        rw [Nat.mod_eq_of_lt (by omega)] at hzero
        omega
      · intro hle
        have hlast : es.length + 1 = N := by omega
        rw [hlast, Nat.mod_self]
  · intro j hj hrecent
    rw [List.length_append, List.length_singleton] at hj hrecent
    rw [slot_push r e _ hin, h.inOffs_eq]
    rcases Nat.lt_succ_iff_lt_or_eq.mp hj with hold | rfl
    · rw [if_neg (mod_ne_of_lt_of_lt_add hold (by omega)).symm, h.recent j hold (by omega),
        List.getElem_append_left hold]
    · simp
  · intro i hi hiN
    rw [List.length_append, List.length_singleton] at hi
    have hne : r.inOffs ≠ i := by
      rw [h.inOffs_eq, Nat.mod_eq_of_lt (by omega)]
      omega
    rw [slot_push r e _ hin, if_neg hne]
    exact h.vacant i (by omega) hiN

theorem slot_from_outOffs (h : r.Holds es) {i : ℕ} (hi : i < N) :
    r.slot ((r.outOffs + i) % N) = (es.rtake N).getD i default := by
  rw [h.outOffs_eq, List.rtake]
  by_cases hlt : es.length < N
  · rw [if_pos hlt, Nat.zero_add, Nat.mod_eq_of_lt hi, Nat.sub_eq_zero_of_le hlt.le,
      List.drop_zero]
    by_cases hie : i < es.length
    · have hslot := h.recent i hie (by omega)
      rw [Nat.mod_eq_of_lt hi] at hslot
      rw [hslot, List.getD_eq_getElem _ _ hie]
    · rw [h.vacant i (by omega) hi, List.getD_eq_default _ _ (by omega)]
  · have hpos : es.length - N + i < es.length := by omega
    have hmod : (es.length % N + i) % N = (es.length - N + i) % N := by
      have hsum : es.length - N + i + N = es.length + i := by omega
      rw [Nat.mod_add_mod, ← hsum, Nat.add_mod_right]
    rw [if_neg hlt, hmod, h.recent _ hpos (by omega)]
    simp [hpos]

/-- Walking all slots meets the retained values, oldest first, and then only
vacant slots. -/
theorem window_eq (h : r.Holds es) :
    r.window N = es.rtake N ++ List.replicate (N - (es.rtake N).length) default := by
  apply List.ext_getElem
  · simp [window]
  · intro i hi _
    have hiN : i < N := by simpa [window] using hi
    simp only [window, List.getElem_map, List.getElem_range]
    rw [h.slot_from_outOffs hiN, List.getElem_append]
    split
    · next hlt => exact List.getD_eq_getElem _ _ hlt
    · next hge =>
        rw [List.getElem_replicate]
        exact List.getD_eq_default _ _ (by omega)

/-- The FIFO view is the last `N` values of the history. -/
theorem walk_eq (h : r.Holds es) : r.walk = es.rtake N := by
  have htake : r.walk = (r.window N).take (min es.length N) := by
    rw [walk, h.occupied_eq, window, window, ← List.map_take, List.take_range]
    congr 2
    omega
  rw [htake, h.window_eq, ← length_rtake, List.take_left]

theorem slotList_perm (h : r.Holds es) :
    r.slotList.Perm (es.rtake N ++ List.replicate (N - (es.rtake N).length) default) := by
  rw [← h.window_eq, window_eq_rotate]
  exact (List.rotate_perm _ _).symm

theorem slot_eq_default (h : r.Holds es) {i : ℕ} (hi : i < N)
    (hout : ∀ k < r.occupied, (r.outOffs + k) % N ≠ i) : r.slot i = default := by
  rw [h.occupied_eq, h.outOffs_eq] at hout
  have hlt : es.length < N := by
    by_contra hge
    rw [if_neg hge, min_eq_right (by omega)] at hout
    -- a full walk visits every residue, hence also slot `i`
    refine hout ((i + N - es.length % N) % N) (Nat.mod_lt _ (by omega)) ?_
    have hres := Nat.mod_lt es.length (show 0 < N by omega)
    have hsum : es.length % N + (i + N - es.length % N) = i + N := by omega
    rw [Nat.add_mod_mod, hsum, Nat.add_mod_right, Nat.mod_eq_of_lt hi]
  rw [if_pos hlt, min_eq_left hlt.le] at hout
  apply h.vacant i _ hi
  by_contra hie
  exact hout i (by omega) (by rw [Nat.zero_add, Nat.mod_eq_of_lt hi])

end Holds

end Ring

end BoundedRing
