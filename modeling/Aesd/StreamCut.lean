import Mathlib

/-!
# Cutting a sequence after marked elements

`cutAfter p` closes a group right after each element that satisfies `p`; what
follows the last such element is the open tail.  When the elements are
themselves chunks of a stream, the groups depend only on the stream and on the
offsets at which a closing chunk ends, and cutting chunks that carry a mark
only in their last place is the same as cutting the stream.
-/

namespace StreamCut

variable {α : Type*}

def attach (front : List α) : List (List α) × List α → List (List α) × List α
  | ([], tail) => ([], front ++ tail)
  | (g :: gs, tail) => ((front ++ g) :: gs, tail)

def cutAfter (p : α → Bool) : List α → List (List α) × List α
  | [] => ([], [])
  | x :: xs =>
      if p x then ([x] :: (cutAfter p xs).1, (cutAfter p xs).2)
      else attach [x] (cutAfter p xs)

@[simp] theorem attach_nil (q : List (List α) × List α) : attach [] q = q := by
  rcases q with ⟨_ | ⟨g, gs⟩, tail⟩ <;> rfl

theorem attach_attach (xs ys : List α) (q : List (List α) × List α) :
    attach xs (attach ys q) = attach (xs ++ ys) q := by
  rcases q with ⟨_ | ⟨g, gs⟩, tail⟩ <;> simp [attach]

theorem cutAfter_append (p : α → Bool) (xs ys : List α) :
    cutAfter p (xs ++ ys) =
      ((cutAfter p xs).1 ++ (attach (cutAfter p xs).2 (cutAfter p ys)).1,
        (attach (cutAfter p xs).2 (cutAfter p ys)).2) := by
  induction xs with
  | nil => simp [cutAfter]
  | cons x xs ih =>
      rw [List.cons_append, cutAfter, cutAfter, ih]
      by_cases hx : p x = true
      · simp [hx]
      · simp only [hx]
        rcases cutAfter p xs with ⟨_ | ⟨g, gs⟩, tail⟩
        · simpa [attach] using attach_attach [x] tail (cutAfter p ys)
        · simp [attach]

theorem cutAfter_concat (p : α → Bool) (xs : List α) (x : α) :
    cutAfter p (xs ++ [x]) =
      if p x then ((cutAfter p xs).1 ++ [(cutAfter p xs).2 ++ [x]], [])
      else ((cutAfter p xs).1, (cutAfter p xs).2 ++ [x]) := by
  rw [cutAfter_append]
  by_cases hx : p x = true <;> simp [cutAfter, hx, attach]

theorem flatten_cutAfter (p : α → Bool) (xs : List α) :
    (cutAfter p xs).1.flatten ++ (cutAfter p xs).2 = xs := by
  induction xs with
  | nil => rfl
  | cons x xs ih =>
      rw [cutAfter]
      by_cases hx : p x = true
      · simpa [hx] using ih
      · simp only [hx]
        rcases hcut : cutAfter p xs with ⟨_ | ⟨g, gs⟩, tail⟩ <;>
          simpa [attach, hcut] using ih

theorem cutAfter_of_forall_not {p : α → Bool} {xs : List α} (h : ∀ x ∈ xs, p x = false) :
    cutAfter p xs = ([], xs) := by
  induction xs with
  | nil => rfl
  | cons x xs ih =>
      rw [cutAfter, h x List.mem_cons_self, ih fun y hy ↦ h y (List.mem_cons_of_mem x hy)]
      simp [attach]

/-! ## Chunks of a stream -/

def endsWith (p : α → Bool) (chunk : List α) : Bool := chunk.getLast?.any p

def MarkedAtEnd (p : α → Bool) (chunk : List α) : Prop := ∀ x ∈ chunk.dropLast, p x = false

theorem cutAfter_chunk {p : α → Bool} {chunk : List α} (h : MarkedAtEnd p chunk) :
    cutAfter p chunk = if endsWith p chunk then ([chunk], []) else ([], chunk) := by
  rcases List.eq_nil_or_concat chunk with rfl | ⟨front, x, rfl⟩
  · rfl
  · rw [List.concat_eq_append] at h ⊢
    rw [MarkedAtEnd, List.dropLast_concat] at h
    rw [cutAfter_concat, cutAfter_of_forall_not h]
    simp [endsWith]

/-- Cutting chunks and cutting the stream agree when no mark is inside a
chunk. -/
theorem cutAfter_flatten {p : α → Bool} {chunks : List (List α)}
    (h : ∀ chunk ∈ chunks, MarkedAtEnd p chunk) :
    cutAfter p chunks.flatten = ((cutAfter (endsWith p) chunks).1.map List.flatten,
      (cutAfter (endsWith p) chunks).2.flatten) := by
  induction chunks with
  | nil => rfl
  | cons chunk chunks ih =>
      rw [List.flatten_cons, cutAfter_append, cutAfter_chunk (h chunk List.mem_cons_self),
        ih fun c hc ↦ h c (List.mem_cons_of_mem chunk hc), cutAfter]
      by_cases hends : endsWith p chunk = true
      · simp [hends]
      · simp only [hends]
        rcases cutAfter (endsWith p) chunks with ⟨_ | ⟨g, gs⟩, tail⟩ <;> simp [attach]

/-- The offsets in the stream at which a closing chunk ends. -/
def cutOffsets (closes : List α → Bool) : ℕ → List (List α) → List ℕ
  | _, [] => []
  | start, chunk :: chunks =>
      if closes chunk then
        (start + chunk.length) :: cutOffsets closes (start + chunk.length) chunks
      else cutOffsets closes (start + chunk.length) chunks

def stops : ℕ → List (List α) → List ℕ
  | _, [] => []
  | start, g :: gs => (start + g.length) :: stops (start + g.length) gs

theorem cutOffsets_eq_stops (closes : List α → Bool) (start : ℕ) (chunks : List (List α)) :
    cutOffsets closes start chunks =
      stops start ((cutAfter closes chunks).1.map List.flatten) := by
  induction chunks generalizing start with
  | nil => rfl
  | cons chunk chunks ih =>
      rw [cutOffsets, cutAfter, ih]
      by_cases hcloses : closes chunk = true
      · simp [hcloses, stops]
      · simp only [hcloses]
        rcases cutAfter closes chunks with ⟨_ | ⟨g, gs⟩, tail⟩ <;>
          simp [attach, stops, Nat.add_assoc]

/-- A stream has one decomposition into pieces that end at given offsets. -/
theorem eq_of_stops_eq {start : ℕ} {gs gs' : List (List α)} {tail tail' : List α}
    (hstops : stops start gs = stops start gs')
    (hstream : gs.flatten ++ tail = gs'.flatten ++ tail') : gs = gs' ∧ tail = tail' := by
  induction gs generalizing start gs' with
  | nil =>
      cases gs' with
      | nil => exact ⟨rfl, hstream⟩
      | cons g' gs' => cases hstops
  | cons g gs ih =>
      cases gs' with
      | nil => cases hstops
      | cons g' gs' =>
          obtain ⟨hhead, hrest⟩ := List.cons.inj hstops
          have hlen : g.length = g'.length := by omega
          simp only [List.flatten_cons, List.append_assoc] at hstream
          obtain ⟨rfl, htail⟩ := List.append_inj hstream hlen
          obtain ⟨rfl, rfl⟩ := ih hrest htail
          exact ⟨rfl, rfl⟩

theorem cutAfter_eq_of_cutOffsets_eq {closes : List α → Bool} {chunks chunks' : List (List α)}
    (hstream : chunks.flatten = chunks'.flatten)
    (hoffsets : cutOffsets closes 0 chunks = cutOffsets closes 0 chunks') :
    (cutAfter closes chunks).1.map List.flatten = (cutAfter closes chunks').1.map List.flatten ∧
      (cutAfter closes chunks).2.flatten = (cutAfter closes chunks').2.flatten := by
  rw [cutOffsets_eq_stops, cutOffsets_eq_stops] at hoffsets
  apply eq_of_stops_eq hoffsets
  have hflat : ∀ cs : List (List α),
      ((cutAfter closes cs).1.map List.flatten).flatten ++ (cutAfter closes cs).2.flatten =
        cs.flatten := by
    intro cs
    conv_rhs => rw [← flatten_cutAfter closes cs]
    rw [List.flatten_append, List.flatten_flatten]
  rw [hflat, hflat, hstream]

end StreamCut
