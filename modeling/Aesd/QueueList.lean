import Aesd.WordMemory

/-!
# The lists of `queue.h`

A list is headed by a pointer to its first element.  An element points to the next one
and, with `le_prev`, to the pointer that points to itself: the head or the `le_next` of the
element before it.  That is why `LIST_REMOVE` needs no list head.  The blocks that make up
a list in memory are spelled out below; each macro is a change of these blocks.
-/

namespace Aesd
namespace QueueList

open BlockHeap
open WordMemory

variable {ν : Type}

-- `struct list_head` and `struct list_threads`, whose `tinfo` stands at offset zero
abbrev lhFirst : ℕ := 0
abbrev leNext : ℕ := 1
abbrev lePrev : ℕ := 2

def listFirst (mem : Heap (Word ν)) (head : Word ν) : Except Fault (Word ν) :=
  loadAt mem (head.field lhFirst)

def listNext (mem : Heap (Word ν)) (elm : Word ν) : Except Fault (Word ν) :=
  loadAt mem (elm.field leNext)

section Macros

variable [DecidableEq ν]

/-- The conditional part of the macros: an element, if there is one, gets a back pointer. -/
def setPrev (mem : Heap (Word ν)) (prev elm : Word ν) : Except Fault (Heap (Word ν)) :=
  if elm ≠ .null then storeAt mem prev (elm.field lePrev) else .ok mem

def listInsertHead (mem : Heap (Word ν)) (head elm : Word ν) : Except Fault (Heap (Word ν)) := do
  let first ← loadAt mem (head.field lhFirst)
  let mem ← storeAt mem first (elm.field leNext)
  let mem ← setPrev mem (elm.field leNext) first
  let mem ← storeAt mem elm (head.field lhFirst)
  storeAt mem (head.field lhFirst) (elm.field lePrev)

def listRemove (mem : Heap (Word ν)) (elm : Word ν) : Except Fault (Heap (Word ν)) := do
  let next ← loadAt mem (elm.field leNext)
  let prev ← loadAt mem (elm.field lePrev)
  let mem ← setPrev mem prev next
  let next ← loadAt mem (elm.field leNext)
  let prev ← loadAt mem (elm.field lePrev)
  storeAt mem next prev

end Macros

/-! ## The blocks of a list

An element is its address and its payload. -/

/-- A pointer to the first of these elements, or what stands in its place. -/
def firstOr (last : Word ν) : List (ℕ × Word ν) → Word ν
  | [] => last
  | e :: _ => .pointer e.1 0

/-- The place behind these elements, when they begin at `place`. -/
def placeAfter (place : Word ν) : List (ℕ × Word ν) → Word ν
  | [] => place
  | e :: es => placeAfter (.pointer e.1 leNext) es

def cells (place : Word ν) (es : List (ℕ × Word ν)) (last : Word ν) : List (ℕ × List (Word ν)) :=
  match es with
  | [] => []
  | e :: es => (e.1, [e.2, firstOr last es, place]) :: cells (.pointer e.1 leNext) es last

def blocks (head : ℕ) (es : List (ℕ × Word ν)) (last : Word ν) : List (ℕ × List (Word ν)) :=
  (head, [firstOr last es]) :: cells (.pointer head lhFirst) es last

theorem firstOr_append (last : Word ν) (es fs : List (ℕ × Word ν)) :
    firstOr last (es ++ fs) = firstOr (firstOr last fs) es := by
  cases es <;> rfl

theorem placeAfter_concat (place : Word ν) (es : List (ℕ × Word ν)) (e : ℕ × Word ν) :
    placeAfter place (es ++ [e]) = .pointer e.1 leNext := by
  induction es generalizing place with
  | nil => rfl
  | cons f es ih => exact ih _

theorem cells_append (place : Word ν) (es fs : List (ℕ × Word ν)) (last : Word ν) :
    cells place (es ++ fs) last =
      cells place es (firstOr last fs) ++ cells (placeAfter place es) fs last := by
  induction es generalizing place with
  | nil => rfl
  | cons e es ih =>
      rw [List.cons_append, cells, ih, firstOr_append]
      rfl

theorem blocks_append (head : ℕ) (es fs : List (ℕ × Word ν)) (last : Word ν) :
    blocks head (es ++ fs) last = blocks head es (firstOr last fs) ++
      cells (placeAfter (.pointer head lhFirst) es) fs last := by
  rw [blocks, cells_append, firstOr_append]
  rfl

theorem mem_cells (place : Word ν) (es fs : List (ℕ × Word ν)) (e : ℕ × Word ν) (last : Word ν) :
    (e.1, [e.2, firstOr last fs, placeAfter place es]) ∈ cells place (es ++ e :: fs) last := by
  rw [cells_append]
  exact List.mem_append_right _ List.mem_cons_self

theorem mem_blocks (head : ℕ) (es fs : List (ℕ × Word ν)) (e : ℕ × Word ν) (last : Word ν) :
    (e.1, [e.2, firstOr last fs, placeAfter (.pointer head lhFirst) es]) ∈
      blocks head (es ++ e :: fs) last :=
  List.mem_cons_of_mem _ (mem_cells _ es fs e last)

/-! ## Memory that holds a list

`rest` is everything else that is live. -/

section Operations

variable {mem : Heap (Word ν)} {head : ℕ} {es fs : List (ℕ × Word ν)} {last : Word ν}
  {rest : List (ℕ × List (Word ν))}

theorem listFirst_eq (h : Owns mem (blocks head es last ++ rest)) :
    listFirst mem (.pointer head 0) = .ok (firstOr last es) :=
  loadAt_of_mem h (List.mem_append_left _ List.mem_cons_self) rfl

theorem listNext_eq (e : ℕ × Word ν) (h : Owns mem (blocks head (es ++ e :: fs) last ++ rest)) :
    listNext mem (.pointer e.1 0) = .ok (firstOr last fs) :=
  loadAt_of_mem h (List.mem_append_left _ (mem_blocks head es fs e last)) rfl

theorem payload_eq (e : ℕ × Word ν) (h : Owns mem (blocks head (es ++ e :: fs) last ++ rest)) :
    loadAt mem (.pointer e.1 0) = .ok e.2 :=
  loadAt_of_mem h (List.mem_append_left _ (mem_blocks head es fs e last)) rfl

/-- A store to the place behind the elements changes where the list goes on. -/
theorem storeAt_placeAfter (h : Owns mem (blocks head es last ++ rest)) (w : Word ν) :
    ∃ mem', storeAt mem w (placeAfter (.pointer head lhFirst) es) = .ok mem' ∧
      Owns mem' (blocks head es w ++ rest) := by
  rcases List.eq_nil_or_concat es with rfl | ⟨es, e, rfl⟩
  · exact storeAt_of_owns [] h Nat.zero_lt_one w
  · rw [List.concat_eq_append] at h ⊢
    rw [blocks_append, List.append_assoc] at h
    rw [placeAfter_concat, blocks_append, List.append_assoc]
    exact storeAt_of_owns _ h (by decide : leNext < 3) w

theorem setPrev_eq [DecidableEq ν] (before : List (ℕ × List (Word ν))) {place : Word ν}
    (h : Owns mem (before ++ (cells place es .null ++ rest))) (w : Word ν) :
    ∃ mem', setPrev mem w (firstOr .null es) = .ok mem' ∧
      Owns mem' (before ++ (cells w es .null ++ rest)) := by
  cases es with
  | nil => exact ⟨mem, rfl, h⟩
  | cons e es =>
      obtain ⟨mem', hstore, hown⟩ := storeAt_of_owns _ h (by decide : lePrev < 3) w
      refine ⟨mem', ?_, hown⟩
      rw [setPrev, if_pos (by simp [firstOr])]
      simpa [firstOr] using hstore

theorem listInsertHead_eq [DecidableEq ν] (e : ℕ × Word ν) {next prev : Word ν}
    (h : Owns mem (blocks head es .null ++ (e.1, [e.2, next, prev]) :: rest)) :
    ∃ mem', listInsertHead mem (.pointer head 0) (.pointer e.1 0) = .ok mem' ∧
      Owns mem' (blocks head (e :: es) .null ++ rest) := by
  have hfirst : loadAt mem (.pointer head lhFirst) = .ok (firstOr .null es) := listFirst_eq h
  obtain ⟨mem₁, hnext, h₁⟩ := storeAt_of_owns _ h (by decide : leNext < 3) (firstOr .null es)
  obtain ⟨mem₂, hback, h₂⟩ := setPrev_eq [(head, [firstOr .null es])] h₁
    (.pointer e.1 leNext)
  obtain ⟨mem₃, hhead, h₃⟩ := storeAt_of_owns [] h₂ Nat.zero_lt_one (.pointer e.1 0)
  obtain ⟨mem₄, hprev, h₄⟩ := storeAt_of_owns
    ((head, [.pointer e.1 0]) :: cells (.pointer e.1 leNext) es .null) h₃
    (by decide : lePrev < 3) (.pointer head lhFirst)
  refine ⟨mem₄, ?_, h₄.perm (List.perm_middle.trans (List.Perm.swap _ _ _))⟩
  simp only [listInsertHead, Word.field_pointer, Nat.zero_add, hfirst, hnext, hback, hhead,
    FallibleRun.ok_bind]
  exact hprev

theorem listRemove_eq [DecidableEq ν] (e : ℕ × Word ν)
    (h : Owns mem (blocks head (es ++ e :: fs) .null ++ rest)) :
    ∃ mem' next prev, listRemove mem (.pointer e.1 0) = .ok mem' ∧
      Owns mem' (blocks head (es ++ fs) .null ++ (e.1, [e.2, next, prev]) :: rest) := by
  let place : Word ν := placeAfter (.pointer head lhFirst) es
  let elm : ℕ × List (Word ν) := (e.1, [e.2, firstOr .null fs, place])
  have hsplit : blocks head (es ++ e :: fs) .null ++ rest =
      blocks head es (.pointer e.1 0) ++ [elm] ++
        (cells (.pointer e.1 leNext) fs .null ++ rest) := by
    rw [blocks_append, cells]
    simp [firstOr, elm, place]
  rw [hsplit] at h
  obtain ⟨mem₁, hback, h₁⟩ := setPrev_eq _ h place
  -- the element itself is the same before and after its successor was changed
  have hloads : ∀ {m : Heap (Word ν)} {later : List (ℕ × List (Word ν))},
      Owns m (blocks head es (.pointer e.1 0) ++ [elm] ++ later) →
        loadAt m (.pointer e.1 leNext) = .ok (firstOr .null fs) ∧
          loadAt m (.pointer e.1 lePrev) = .ok place := by
    intro m later hm
    have hmem : elm ∈ blocks head es (.pointer e.1 0) ++ [elm] ++ later := by simp
    exact ⟨loadAt_of_mem hm hmem rfl, loadAt_of_mem hm hmem rfl⟩
  obtain ⟨hnext, hprev⟩ := hloads h
  obtain ⟨hnext₁, hprev₁⟩ := hloads h₁
  rw [List.append_assoc] at h₁
  obtain ⟨mem₂, hgo, h₂⟩ := storeAt_placeAfter h₁ (firstOr .null fs)
  refine ⟨mem₂, firstOr .null fs, place, ?_, h₂.perm ?_⟩
  · simp only [listRemove, Word.field_pointer, Nat.zero_add, hnext, hprev, hback, hnext₁, hprev₁,
      FallibleRun.ok_bind]
    exact hgo
  · rw [blocks_append, List.append_assoc]
    apply List.Perm.append_left
    show (elm :: (cells place fs .null ++ rest)).Perm (cells place fs .null ++ elm :: rest)
    exact List.perm_middle.symm

end Operations

end QueueList
end Aesd
