import Mathlib

/-!
# Draining a list by repeated reads

A reader at position `p` is handed some of the items from `p` on, and at least
one of them while there are any.  However the reader cuts, the pieces are
consecutive, nothing is lost, and after at most as many reads as there are items
left the end is reached and stays reached.
-/

namespace PrefixReader

variable {α : Type*}

/-- `piece p` is what a reader at position `p` of `content` gets. -/
structure Reads (content : List α) (piece : ℕ → List α) : Prop where
  consecutive : ∀ p, piece p <+: content.drop p
  progress : ∀ p, p < content.length → piece p ≠ []

def pos (piece : ℕ → List α) (p : ℕ) : ℕ → ℕ
  | 0 => p
  | n + 1 => pos piece p n + (piece (pos piece p n)).length

def pieces (piece : ℕ → List α) (p n : ℕ) : List (List α) :=
  (List.range n).map fun i ↦ piece (pos piece p i)

theorem pieces_succ (piece : ℕ → List α) (p n : ℕ) :
    pieces piece p (n + 1) = pieces piece p n ++ [piece (pos piece p n)] := by
  simp [pieces, List.range_succ]

namespace Reads

variable {content : List α} {piece : ℕ → List α}

theorem piece_eq (h : Reads content piece) (p : ℕ) :
    piece p = (content.drop p).take (piece p).length :=
  List.prefix_iff_eq_take.mp (h.consecutive p)

theorem drop_eq (h : Reads content piece) (p : ℕ) :
    content.drop p = piece p ++ content.drop (p + (piece p).length) := by
  conv_lhs => rw [← List.take_append_drop (piece p).length (content.drop p), ← h.piece_eq p,
    List.drop_drop]

theorem length_piece_le (h : Reads content piece) (p : ℕ) :
    (piece p).length ≤ content.length - p := by
  simpa using (h.consecutive p).length_le

theorem piece_eq_nil_iff (h : Reads content piece) (p : ℕ) :
    piece p = [] ↔ content.length ≤ p := by
  constructor
  · intro hnil
    by_contra hlt
    exact h.progress p (by omega) hnil
  · intro hle
    apply List.eq_nil_of_length_eq_zero
    have hlen := h.length_piece_le p
    omega

theorem le_pos (piece : ℕ → List α) (p n : ℕ) : p ≤ pos piece p n := by
  induction n with
  | zero => exact le_rfl
  | succ n ih => exact ih.trans (Nat.le_add_right _ _)

theorem pos_le (h : Reads content piece) (p n : ℕ) : pos piece p n ≤ max p content.length := by
  induction n with
  | zero => exact le_max_left _ _
  | succ n ih =>
      have hlen := h.length_piece_le (pos piece p n)
      simp only [pos]
      omega

theorem flatten_pieces (h : Reads content piece) (p n : ℕ) :
    (pieces piece p n).flatten = (content.drop p).take (pos piece p n - p) := by
  induction n with
  | zero => simp [pieces, pos]
  | succ n ih =>
      have hle := le_pos piece p n
      have hsplit : pos piece p (n + 1) - p =
          (pos piece p n - p) + (piece (pos piece p n)).length := by
        simp only [pos]
        omega
      rw [pieces_succ, List.flatten_append, ih, hsplit, List.take_add, List.drop_drop]
      congr 1
      have hpos : p + (pos piece p n - p) = pos piece p n := by omega
      rw [hpos, List.flatten_singleton]
      exact h.piece_eq _

theorem pos_shift (p n : ℕ) :
    pos piece p (n + 1) = pos piece (p + (piece p).length) n := by
  induction n with
  | zero => rfl
  | succ n ih =>
      rw [pos, ih]
      rfl

/-- The end is reached, and no read before came back empty. -/
theorem exists_end (h : Reads content piece) (p : ℕ) :
    ∃ N ≤ content.length - p, (∀ i < N, pos piece p i < content.length) ∧
      content.length ≤ pos piece p N := by
  induction hleft : content.length - p using Nat.strong_induction_on generalizing p with
  | _ left ih =>
      by_cases hend : content.length ≤ p
      · exact ⟨0, Nat.zero_le _, by simp, hend⟩
      · have hpos := List.length_pos_of_ne_nil (h.progress p (by omega))
        obtain ⟨N, hN, hbefore, hat⟩ := ih _ (by omega) (p + (piece p).length) rfl
        refine ⟨N + 1, by omega, ?_, by rwa [pos_shift]⟩
        intro i hi
        cases i with
        | zero => exact not_le.mp hend
        | succ i =>
            rw [pos_shift]
            exact hbefore i (by omega)

theorem flatten_pieces_of_end (h : Reads content piece) {p N : ℕ}
    (hend : content.length ≤ pos piece p N) : (pieces piece p N).flatten = content.drop p := by
  rw [h.flatten_pieces, List.take_of_length_le]
  rw [List.length_drop]
  omega

theorem pos_of_end (h : Reads content piece) {p N i : ℕ}
    (hend : content.length ≤ pos piece p N) (hi : N ≤ i) : pos piece p i = pos piece p N := by
  induction i, hi using Nat.le_induction with
  | base => rfl
  | succ i _ ih =>
      have hnil := (h.piece_eq_nil_iff (pos piece p i)).mpr (by omega)
      rw [pos, hnil, ih]
      rfl

end Reads

/-! ## A reader of a growing list that skips items

The reader counts what it received, and the place it reads from is ahead of that count by
what it has skipped. -/

/-- Item `i` of `items` is item `i + skips[i]` of `history`, and the skips only grow. -/
structure Follows (history items : List α) (skips : List ℕ) : Prop where
  length_eq : skips.length = items.length
  sorted : skips.Pairwise (· ≤ ·)
  getElem?_eq : ∀ i e : ℕ, skips[i]? = some e → items[i]? = history[i + e]?

namespace Follows

variable {history items : List α} {skips : List ℕ}

theorem nil (history : List α) : Follows history [] [] := ⟨rfl, .nil, by simp⟩

theorem grow (h : Follows history items skips) {later : List α} (hpref : history <+: later) :
    Follows later items skips where
  length_eq := h.length_eq
  sorted := h.sorted
  getElem?_eq := by
    intro i e he
    have hi : i < items.length := by
      rw [← h.length_eq]
      exact (List.getElem?_eq_some_iff.mp he).1
    have hget := h.getElem?_eq i e he
    rw [List.getElem?_eq_getElem hi] at hget
    obtain ⟨hlt, hitem⟩ := List.getElem?_eq_some_iff.mp hget.symm
    rw [List.getElem?_eq_getElem hi, List.prefix_iff_getElem?.mp hpref _ hlt, hitem]

/-- The next piece is read `e` items ahead of what was received so far. -/
theorem append (h : Follows history items skips) {e : ℕ} (hskips : ∀ d ∈ skips, d ≤ e)
    {piece : List α} (hpiece : piece <+: history.drop (items.length + e)) :
    Follows history (items ++ piece) (skips ++ List.replicate piece.length e) where
  length_eq := by simp [h.length_eq]
  sorted := by
    refine List.pairwise_append.mpr ⟨h.sorted, List.pairwise_replicate.mpr (Or.inr le_rfl), ?_⟩
    intro d hd e' he'
    rw [List.eq_of_mem_replicate he']
    exact hskips d hd
  getElem?_eq := by
    intro i d hd
    by_cases hi : i < items.length
    · rw [List.getElem?_append_left (by rwa [h.length_eq])] at hd
      rw [List.getElem?_append_left hi]
      exact h.getElem?_eq i d hd
    · have hle : items.length ≤ i := not_lt.mp hi
      rw [List.getElem?_append_right (by rwa [h.length_eq]), h.length_eq,
        List.getElem?_replicate] at hd
      obtain ⟨hlt, hsome⟩ := Option.ite_none_right_eq_some.mp hd
      obtain rfl : e = d := Option.some.inj hsome
      have hplace := List.prefix_iff_getElem?.mp hpiece _ hlt
      rw [List.getElem?_drop] at hplace
      rw [List.getElem?_append_right hle, List.getElem?_eq_getElem hlt, ← hplace]
      congr 1
      omega

/-- What was received is in order and nothing of it comes twice. -/
theorem sublist (h : Follows history items skips) : items.Sublist history := by
  have hskip : ∀ i : Fin items.length, skips[i.1]? = some (skips.getD i.1 0) := by
    intro i
    rw [List.getD_eq_getElem?_getD, List.getElem?_eq_getElem (by rw [h.length_eq]; exact i.2)]
    rfl
  have hitem : ∀ i : Fin items.length, history[i.1 + skips.getD i.1 0]? = some items[i.1] := by
    intro i
    rw [← h.getElem?_eq i.1 _ (hskip i), List.getElem?_eq_getElem i.2]
  have hmono : ∀ i j : Fin items.length, i < j → skips.getD i.1 0 ≤ skips.getD j.1 0 := by
    intro i j hij
    obtain ⟨hi, hi'⟩ := List.getElem?_eq_some_iff.mp (hskip i)
    obtain ⟨hj, hj'⟩ := List.getElem?_eq_some_iff.mp (hskip j)
    rw [← hi', ← hj']
    exact List.pairwise_iff_getElem.mp h.sorted i j hi hj hij
  refine List.sublist_iff_exists_fin_orderEmbedding_get_eq.mpr
    ⟨OrderEmbedding.ofStrictMono
      (fun i ↦ ⟨i.1 + skips.getD i.1 0, (List.getElem?_eq_some_iff.mp (hitem i)).1⟩) ?_, ?_⟩
  · intro i j hij
    have hle := hmono i j hij
    have hlt : i.1 < j.1 := hij
    exact Fin.mk_lt_mk.mpr (by omega)
  · intro i
    exact (List.getElem?_eq_some_iff.mp (hitem i)).2.symm

end Follows

end PrefixReader
