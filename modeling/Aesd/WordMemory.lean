import Aesd.BlockHeap
import Aesd.FallibleRun

/-!
# Memory of words

Blocks of a `BlockHeap` whose items are words: a null pointer, the address of a word of a
block, or a value.  A structure is a block and a field of it an offset; an access through
anything but a pointer into a live block is a fault.
-/

namespace WordMemory

open BlockHeap

variable {ν : Type*}

inductive Word (ν : Type*) where
  | null
  | pointer (block off : ℕ)
  | value (v : ν)
  deriving DecidableEq, Repr

/-- The address of the field at this offset. -/
def Word.field (off : ℕ) : Word ν → Word ν
  | pointer block base => pointer block (base + off)
  | w => w

@[simp] theorem Word.field_pointer (off block base : ℕ) :
    (Word.pointer block base : Word ν).field off = .pointer block (base + off) := rfl

def loadAt (mem : Heap (Word ν)) : Word ν → Except Fault (Word ν)
  | .pointer block off => do
      let words ← load mem (some block) off 1
      return words.headD .null
  | _ => .error .invalidAccess

def storeAt (mem : Heap (Word ν)) (w : Word ν) : Word ν → Except Fault (Heap (Word ν))
  | .pointer block off => store mem block off [w]
  | _ => .error .invalidAccess

/-- Only the address of a whole block can be freed. -/
def freeAt (mem : Heap (Word ν)) : Word ν → Except Fault (Heap (Word ν))
  | .null => .ok mem
  | .pointer block 0 => free mem (some block)
  | _ => .error .invalidFree

/-! ## Accesses to an owned block -/

variable {mem : Heap (Word ν)} {after : List (ℕ × List (Word ν))} {p off : ℕ}
  {block : List (Word ν)}

theorem patch_singleton {block : List (Word ν)} (hoff : off < block.length) (w : Word ν) :
    patch block off [w] = block.set off w := by
  rw [patch, List.set_eq_take_append_cons_drop, if_pos hoff]
  simp

theorem loadAt_of_mem {blocks : List (ℕ × List (Word ν))} (h : Owns mem blocks)
    (hmem : (p, block) ∈ blocks) {w : Word ν} (hget : block[off]? = some w) :
    loadAt mem (.pointer p off) = .ok w := by
  obtain ⟨hlt, rfl⟩ := List.getElem?_eq_some_iff.mp hget
  rw [loadAt, load_of_lookup (h.lookup hmem) (Nat.succ_le_of_lt hlt), FallibleRun.ok_bind,
    List.drop_eq_getElem_cons hlt]
  rfl

theorem storeAt_of_owns (before : List (ℕ × List (Word ν)))
    (h : Owns mem (before ++ (p, block) :: after)) (hoff : off < block.length) (w : Word ν) :
    ∃ mem', storeAt mem w (.pointer p off) = .ok mem' ∧
      Owns mem' (before ++ (p, block.set off w) :: after) := by
  have hlen : off + [w].length ≤ block.length := Nat.succ_le_of_lt hoff
  obtain ⟨mem', hstore, hown⟩ := (h.perm List.perm_middle).store hlen
  rw [patch_singleton hoff] at hown
  exact ⟨mem', hstore, hown.perm List.perm_middle.symm⟩

theorem freeAt_of_owns {before : List (ℕ × List (Word ν))}
    (h : Owns mem (before ++ (p, block) :: after)) :
    ∃ mem', freeAt mem (.pointer p 0) = .ok mem' ∧ Owns mem' (before ++ after) :=
  (h.perm List.perm_middle).free

end WordMemory
