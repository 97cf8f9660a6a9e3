import Mathlib

/-!
# A heap of separately allocated blocks

Blocks are named by handles; a pointer is a handle or null.  The live handles
are the keys of an association list without duplicates, so a handle is live at
most once by construction.  Freeing a handle that is not live, touching a block
that is not live, and touching a live block outside its length are faults.
-/

namespace BlockHeap

variable {β : Type*}

inductive Fault where
  | invalidFree
  | invalidAccess
  | outOfBounds
  deriving DecidableEq, Repr

abbrev Heap (β : Type*) := AList fun _ : ℕ ↦ List β

def fresh (heap : Heap β) : ℕ := heap.keys.max?.getD 0 + 1

def alloc (heap : Heap β) (block : List β) : ℕ × Heap β :=
  (fresh heap, heap.insert (fresh heap) block)

def free (heap : Heap β) : Option ℕ → Except Fault (Heap β)
  | none => .ok heap
  | some p => if p ∈ heap then .ok (heap.erase p) else .error .invalidFree

def freeAll (heap : Heap β) : List (Option ℕ) → Except Fault (Heap β)
  | [] => .ok heap
  | p :: ps => do
      let heap ← free heap p
      freeAll heap ps

def load (heap : Heap β) (p : Option ℕ) (off len : ℕ) : Except Fault (List β) :=
  match p.bind heap.lookup with
  | none => .error .invalidAccess
  | some block =>
      if off + len ≤ block.length then .ok ((block.drop off).take len)
      else .error .outOfBounds

def patch (block : List β) (off : ℕ) (items : List β) : List β :=
  block.take off ++ items ++ block.drop (off + items.length)

def store (heap : Heap β) (p off : ℕ) (items : List β) : Except Fault (Heap β) :=
  match heap.lookup p with
  | none => .error .invalidAccess
  | some block =>
      if off + items.length ≤ block.length then .ok (heap.insert p (patch block off items))
      else .error .outOfBounds

theorem fresh_notMem (heap : Heap β) : fresh heap ∉ heap := by
  intro h
  have hle := List.le_max?_getD_of_mem (k := 0) (AList.mem_keys.mp h)
  unfold fresh at hle
  omega

theorem erase_insert_of_notMem {heap : Heap β} {p : ℕ} (h : p ∉ heap) (block : List β) :
    (heap.insert p block).erase p = heap := by
  apply AList.ext
  rw [AList.insert_of_notMem h]
  exact List.kerase_cons_eq rfl

theorem mem_of_lookup {heap : Heap β} {p : ℕ} {block : List β}
    (h : heap.lookup p = some block) : p ∈ heap := by
  rw [← AList.lookup_isSome, h]
  rfl

theorem free_of_mem {heap : Heap β} {p : ℕ} (h : p ∈ heap) :
    free heap (some p) = .ok (heap.erase p) := if_pos h

theorem load_of_lookup {heap : Heap β} {p off len : ℕ} {block : List β}
    (h : heap.lookup p = some block) (hlen : off + len ≤ block.length) :
    load heap (some p) off len = .ok ((block.drop off).take len) := by
  simp [load, h, hlen]

theorem store_of_lookup {heap : Heap β} {p off : ℕ} {block items : List β}
    (h : heap.lookup p = some block) (hlen : off + items.length ≤ block.length) :
    store heap p off items = .ok (heap.insert p (patch block off items)) := by
  simp [store, h, hlen]

theorem patch_tail {block : List β} {off : ℕ} {items : List β}
    (h : off + items.length = block.length) : patch block off items = block.take off ++ items := by
  rw [patch, h, List.drop_length, List.append_nil]

theorem patch_head (block items : List β) :
    patch block 0 items = items ++ block.drop items.length := by
  simp [patch]

/-! ## Exact ownership

`Owns heap blocks` lists all that is live, so it plays the part of a separating
conjunction: each operation acts on the block it names and frames the rest. -/

def toEntry (b : ℕ × List β) : Sigma fun _ : ℕ ↦ List β := ⟨b.1, b.2⟩

def Owns (heap : Heap β) (blocks : List (ℕ × List β)) : Prop :=
  heap.entries.Perm (blocks.map toEntry)

theorem owns_empty : Owns (∅ : Heap β) [] := List.Perm.refl _

namespace Owns

variable {heap : Heap β} {blocks : List (ℕ × List β)} {p : ℕ} {block : List β}

theorem perm (h : Owns heap blocks) {blocks' : List (ℕ × List β)}
    (hperm : blocks.Perm blocks') : Owns heap blocks' :=
  h.trans (hperm.map _)

theorem keys_perm (h : Owns heap blocks) : heap.keys.Perm (blocks.map Prod.fst) := by
  have hkeys := h.map Sigma.fst
  rw [List.map_map] at hkeys
  exact hkeys

theorem lookup (h : Owns heap blocks) (hb : (p, block) ∈ blocks) :
    heap.lookup p = some block := by
  rw [← Option.mem_def, AList.mem_lookup_iff, h.mem_iff]
  exact List.mem_map_of_mem hb

theorem alloc (h : Owns heap blocks) (hp : p ∉ heap) (block : List β) :
    Owns (heap.insert p block) ((p, block) :: blocks) := by
  unfold Owns
  rw [AList.entries_insert_of_notMem hp]
  exact h.cons _

theorem kerase_perm (h : Owns heap ((p, block) :: blocks)) :
    (List.kerase p heap.entries).Perm (blocks.map toEntry) := by
  have hhead : List.kerase p (toEntry (p, block) :: blocks.map toEntry) = blocks.map toEntry :=
    List.kerase_cons_eq rfl
  rw [← hhead]
  exact List.Perm.kerase heap.nodupKeys h

theorem store (h : Owns heap ((p, block) :: blocks)) {off : ℕ} {items : List β}
    (hlen : off + items.length ≤ block.length) :
    ∃ heap', BlockHeap.store heap p off items = .ok heap' ∧
      Owns heap' ((p, patch block off items) :: blocks) := by
  refine ⟨_, store_of_lookup (h.lookup List.mem_cons_self) hlen, ?_⟩
  unfold Owns
  rw [AList.entries_insert]
  exact h.kerase_perm.cons _

theorem free (h : Owns heap ((p, block) :: blocks)) :
    ∃ heap', BlockHeap.free heap (some p) = .ok heap' ∧ Owns heap' blocks :=
  ⟨_, free_of_mem (mem_of_lookup (h.lookup List.mem_cons_self)), h.kerase_perm⟩

/-- Pointers to some of the blocks, each once and in any order, with null
pointers in between, can all be freed; the other blocks stay. -/
theorem freeAll {freed kept : List (ℕ × List β)} (h : Owns heap (freed ++ kept))
    {ps : List (Option ℕ)} (hps : (ps.filterMap id).Perm (freed.map Prod.fst)) :
    ∃ heap', BlockHeap.freeAll heap ps = .ok heap' ∧ Owns heap' kept := by
  induction ps generalizing heap freed with
  | nil =>
      obtain rfl : freed = [] := by simpa using hps.symm
      exact ⟨heap, rfl, h⟩
  | cons p ps ih =>
      cases p with
      | none => exact ih h hps
      | some p =>
          have hmem : p ∈ freed.map Prod.fst := hps.subset (by simp)
          obtain ⟨b, hb, rfl⟩ := List.mem_map.mp hmem
          obtain ⟨before, after, rfl⟩ := List.append_of_mem hb
          have hmiddle : (before ++ b :: after).Perm (b :: (before ++ after)) :=
            List.perm_middle
          have hrest : (ps.filterMap id).Perm ((before ++ after).map Prod.fst) :=
            (hps.trans (hmiddle.map Prod.fst)).cons_inv
          obtain ⟨heap₁, hfree, hown⟩ := (h.perm (hmiddle.append_right kept)).free
          obtain ⟨heap₂, hall, hkept⟩ := ih hown hrest
          refine ⟨heap₂, ?_, hkept⟩
          rw [BlockHeap.freeAll, hfree]
          exact hall

end Owns

end BlockHeap
