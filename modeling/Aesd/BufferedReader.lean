import Aesd.PrefixReader

/-!
# Reading ahead

A buffered reader fetches the content piece by piece and hands out as many items as it is asked
for.  Where the pieces end makes no difference to what it hands out: every request takes the next
items of the content, and fewer than it asks for only at the end.
-/

namespace PrefixReader

variable {α : Type*}

/-- Where the next piece starts, the items fetched and not yet handed out, and whether a piece
came back empty. -/
structure Buffered (α : Type*) where
  pos : ℕ
  buffer : List α
  ended : Bool

namespace Buffered

/-- Fetch until `n` items are there or nothing more comes. -/
def fill (piece : ℕ → List α) (n : ℕ) : ℕ → Buffered α → Buffered α
  | 0, r => r
  | left + 1, r =>
      if n ≤ r.buffer.length ∨ r.ended = true then r
      else if piece r.pos = [] then { r with ended := true }
      else
        fill piece n left
          { r with pos := r.pos + (piece r.pos).length, buffer := r.buffer ++ piece r.pos }

/-- Each round of `fill` that goes on brings an item, so `n` rounds are enough. -/
def take (piece : ℕ → List α) (n : ℕ) (r : Buffered α) : List α × Buffered α :=
  ((fill piece n n r).buffer.take n,
    { fill piece n n r with buffer := (fill piece n n r).buffer.drop n })

/-- `left` is what the reader will still hand out. -/
structure Delivers (content : List α) (r : Buffered α) (left : List α) : Prop where
  left_eq : left = r.buffer ++ content.drop r.pos
  ended_le : r.ended = true → content.length ≤ r.pos

variable {content left : List α} {piece : ℕ → List α} {r : Buffered α}

theorem delivers_from (content : List α) (p : ℕ) :
    Delivers content ⟨p, [], false⟩ (content.drop p) := ⟨rfl, by simp⟩

theorem Delivers.of_ended (h : r.Delivers content left) (hend : content.length ≤ r.pos) :
    r.buffer = left := by
  rw [h.left_eq, List.drop_of_length_le hend, List.append_nil]

theorem Delivers.fill (h : r.Delivers content left) (hreads : Reads content piece) (n : ℕ)
    {rounds : ℕ} (hrounds : n ≤ r.buffer.length + rounds) :
    (r.fill piece n rounds).Delivers content left ∧
      (n ≤ (r.fill piece n rounds).buffer.length ∨ (r.fill piece n rounds).buffer = left) := by
  induction rounds generalizing r with
  | zero => exact ⟨h, Or.inl hrounds⟩
  | succ rounds ih =>
      rw [Buffered.fill]
      by_cases hdone : n ≤ r.buffer.length ∨ r.ended = true
      · rw [if_pos hdone]
        exact ⟨h, hdone.imp id fun hended ↦ h.of_ended (h.ended_le hended)⟩
      · rw [if_neg hdone]
        by_cases hnil : piece r.pos = []
        · have hend := (hreads.piece_eq_nil_iff r.pos).mp hnil
          rw [if_pos hnil]
          exact ⟨⟨h.left_eq, fun _ ↦ hend⟩, Or.inr (h.of_ended hend)⟩
        · have hpos := List.length_pos_of_ne_nil hnil
          rw [if_neg hnil]
          refine ih ⟨?_, fun hended ↦ absurd (Or.inr hended) hdone⟩ ?_
          · rw [h.left_eq, hreads.drop_eq r.pos, List.append_assoc]
          · rw [List.length_append]
            omega

/-- However the content is cut, a request gets the next `n` items of it. -/
theorem Delivers.take (h : r.Delivers content left) (hreads : Reads content piece) (n : ℕ) :
    (r.take piece n).1 = left.take n ∧ (r.take piece n).2.Delivers content (left.drop n) := by
  obtain ⟨hfilled, hdone⟩ := h.fill hreads n (Nat.le_add_left n r.buffer.length)
  unfold Buffered.take
  generalize r.fill piece n n = filled at hfilled hdone ⊢
  have hleft := hfilled.left_eq
  rcases hdone with hlen | hall
  · refine ⟨?_, ?_, hfilled.ended_le⟩
    · rw [hleft, List.take_append_of_le_length hlen]
    · rw [hleft, List.drop_append_of_le_length hlen]
  · rw [hall] at hleft
    refine ⟨by rw [hall], ?_, hfilled.ended_le⟩
    rw [hall, List.self_eq_append_right.mp hleft, List.append_nil]

theorem pos_fill_le (hreads : Reads content piece) (n rounds : ℕ) (r : Buffered α) :
    (r.fill piece n rounds).pos ≤ max r.pos content.length := by
  induction rounds generalizing r with
  | zero => exact le_max_left _ _
  | succ rounds ih =>
      rw [fill]
      split
      · exact le_max_left _ _
      · split
        · exact le_max_left _ _
        · have hnext := ih { r with
            pos := r.pos + (piece r.pos).length, buffer := r.buffer ++ piece r.pos }
          have hlen := hreads.length_piece_le r.pos
          refine hnext.trans ?_
          simp only
          omega

end Buffered

end PrefixReader
