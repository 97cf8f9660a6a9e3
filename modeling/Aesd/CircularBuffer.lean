import Aesd.MachineWord
import Aesd.BoundedRing
import Aesd.OffsetLookup

/-!
# The circular buffer of the char driver

`aesd-circular-buffer.c`: ten slots, two `uint8_t` offsets, the `full` flag and
the cached `size_t` total.  A slot holds a pointer (`none` is `NULL`) and the
number of bytes behind it; the buffer never follows the pointer.

Forgetting the cached total, the buffer is a `BoundedRing` of ten slots, and the
lookup by file offset is `OffsetLookup.locate` on the sizes met by the walk from
`out_offs`.
-/

namespace Aesd

open MachineWord
open BoundedRing
open OffsetLookup

abbrev maxWriteOperationsSupported : ℕ := 10

structure AesdBufferEntry where
  buffptr : Option ℕ
  size : ℕ
  deriving DecidableEq, Repr

def AesdBufferEntry.zero : AesdBufferEntry := ⟨none, 0⟩

instance : Inhabited AesdBufferEntry := ⟨AesdBufferEntry.zero⟩

structure AesdCircularBuffer where
  entry : Vector AesdBufferEntry maxWriteOperationsSupported
  inOffs : ℕ
  outOffs : ℕ
  full : Bool
  size : ℕ
  deriving DecidableEq, Repr

namespace AesdCircularBuffer

def slot (buffer : AesdCircularBuffer) (i : ℕ) : AesdBufferEntry :=
  buffer.entry[i]?.getD AesdBufferEntry.zero

def occupied (buffer : AesdCircularBuffer) : ℕ :=
  if buffer.full then maxWriteOperationsSupported
  else (buffer.inOffs + maxWriteOperationsSupported - buffer.outOffs) % maxWriteOperationsSupported

def walk (buffer : AesdCircularBuffer) : List AesdBufferEntry :=
  (List.range buffer.occupied).map fun i ↦
    buffer.slot ((buffer.outOffs + i) % maxWriteOperationsSupported)

/-- The slots in array order, as `AESD_CIRCULAR_BUFFER_FOREACH` visits them. -/
def slots (buffer : AesdCircularBuffer) : List AesdBufferEntry :=
  (List.range maxWriteOperationsSupported).map buffer.slot

def ring (buffer : AesdCircularBuffer) : Ring AesdBufferEntry maxWriteOperationsSupported :=
  ⟨buffer.entry, buffer.inOffs, buffer.outOffs, buffer.full⟩

theorem walk_eq_ring_walk (buffer : AesdCircularBuffer) : buffer.walk = buffer.ring.walk := rfl

end AesdCircularBuffer

/-- The loop of the offset lookup.  The arguments are the iterations left, `i`,
`total` and `index`; the result is the last two at loop exit. -/
def findEntryLoop (buffer : AesdCircularBuffer) (charOffset : ℕ) :
    ℕ → ℕ → ℕ → ℕ → ℕ × ℕ
  | 0, _, total, index => (total, index)
  | left + 1, i, total, _ =>
      let index := (buffer.outOffs + i) % maxWriteOperationsSupported
      let total := wrapU 64 (total + (buffer.slot index).size)
      if total > charOffset then (total, index)
      else findEntryLoop buffer charOffset left (i + 1) total index

/-- `aesd_circular_buffer_find_entry_offset_for_fpos`: the index of the slot
pointed to and `*entry_offset_byte_rtn`; `none` is the `NULL` return, which
leaves `*entry_offset_byte_rtn` alone. -/
def aesdCircularBufferFindEntryOffsetForFpos (buffer : AesdCircularBuffer)
    (charOffset : ℕ) : Option (ℕ × ℕ) :=
  let (total, index) :=
    findEntryLoop buffer charOffset maxWriteOperationsSupported 0 0 buffer.outOffs
  if charOffset ≥ total then none
  else
    let start := subU 64 total (buffer.slot index).size
    some (index, subU 64 charOffset start)

def aesdCircularBufferAddEntry (buffer : AesdCircularBuffer) (addEntry : AesdBufferEntry) :
    AesdBufferEntry × AesdCircularBuffer :=
  let ret := buffer.slot buffer.inOffs
  let entry := buffer.entry.setIfInBounds buffer.inOffs addEntry
  let inOffs := wrapU 8 (buffer.inOffs + 1) % maxWriteOperationsSupported
  let size := wrapU 64 (buffer.size + addEntry.size)
  if buffer.full then
    let outOffs := wrapU 8 (buffer.outOffs + 1) % maxWriteOperationsSupported
    (ret, ⟨entry, inOffs, outOffs, buffer.full, subU 64 size ret.size⟩)
  else
    let full := if inOffs = buffer.outOffs then true else buffer.full
    (ret, ⟨entry, inOffs, buffer.outOffs, full, size⟩)

def aesdCircularBufferInit (_buffer : AesdCircularBuffer) : AesdCircularBuffer :=
  ⟨Vector.replicate _ AesdBufferEntry.zero, 0, 0, false, 0⟩

def addEntries : AesdCircularBuffer → List AesdBufferEntry →
    List AesdBufferEntry × AesdCircularBuffer
  | buffer, [] => ([], buffer)
  | buffer, e :: es =>
      let (ret, next) := aesdCircularBufferAddEntry buffer e
      let (rets, last) := addEntries next es
      (ret :: rets, last)

/-! ## The buffer as a ring -/

def AesdCircularBuffer.Holds (buffer : AesdCircularBuffer) (es : List AesdBufferEntry) : Prop :=
  buffer.ring.Holds es

namespace AesdCircularBuffer.Holds

variable {buffer : AesdCircularBuffer} {es : List AesdBufferEntry}

theorem inOffs_lt (h : buffer.Holds es) : buffer.inOffs < 10 :=
  Ring.Holds.inOffs_lt h (by decide)

theorem outOffs_lt (h : buffer.Holds es) : buffer.outOffs < 10 :=
  Ring.Holds.outOffs_lt h (by decide)

theorem walk_eq (h : buffer.Holds es) : buffer.walk = es.rtake 10 :=
  Ring.Holds.walk_eq h

theorem slots_perm (h : buffer.Holds es) :
    buffer.slots.Perm (buffer.walk ++ List.replicate (10 - buffer.walk.length)
      AesdBufferEntry.zero) := by
  rw [h.walk_eq]
  exact Ring.Holds.slotList_perm h

end AesdCircularBuffer.Holds

theorem holds_aesdCircularBufferInit (buffer : AesdCircularBuffer) :
    (aesdCircularBufferInit buffer).Holds [] :=
  Ring.holds_empty (by decide)

theorem wrapU_succ_of_lt {n : ℕ} (h : n < 10) : wrapU 8 (n + 1) = n + 1 :=
  wrapU_of_lt (by omega)

theorem ring_aesdCircularBufferAddEntry {buffer : AesdCircularBuffer}
    (hin : buffer.inOffs < 10) (hout : buffer.outOffs < 10) (e : AesdBufferEntry) :
    (aesdCircularBufferAddEntry buffer e).2.ring = (buffer.ring.push e).1 ∧
      (aesdCircularBufferAddEntry buffer e).1 = (buffer.ring.push e).2 := by
  unfold aesdCircularBufferAddEntry Ring.push
  cases hfull : buffer.full with
  | true =>
      simp only [AesdCircularBuffer.ring, hfull, if_true, wrapU_succ_of_lt hin,
        wrapU_succ_of_lt hout]
      exact ⟨trivial, rfl⟩
  | false =>
      simp only [AesdCircularBuffer.ring, hfull, wrapU_succ_of_lt hin]
      refine ⟨?_, rfl⟩
      congr 1

theorem AesdCircularBuffer.Holds.addEntry {buffer : AesdCircularBuffer}
    {es : List AesdBufferEntry} (h : buffer.Holds es) (e : AesdBufferEntry) :
    (aesdCircularBufferAddEntry buffer e).2.Holds (es ++ [e]) ∧
      (aesdCircularBufferAddEntry buffer e).1 =
        if es.length < 10 then AesdBufferEntry.zero
        else es.getD (es.length - 10) AesdBufferEntry.zero := by
  obtain ⟨hring, hret⟩ := ring_aesdCircularBufferAddEntry h.inOffs_lt h.outOffs_lt e
  refine ⟨?_, ?_⟩
  · unfold AesdCircularBuffer.Holds
    rw [hring]
    exact Ring.Holds.push h (by decide) e
  · rw [hret]
    exact Ring.Holds.push_evicted h e

theorem addEntries_length (buffer : AesdCircularBuffer) (es : List AesdBufferEntry) :
    (addEntries buffer es).1.length = es.length := by
  induction es generalizing buffer with
  | nil => rfl
  | cons e es ih => simp [addEntries, ih]

theorem AesdCircularBuffer.Holds.addEntries {buffer : AesdCircularBuffer}
    {hist : List AesdBufferEntry} (h : buffer.Holds hist) (es : List AesdBufferEntry) :
    (addEntries buffer es).2.Holds (hist ++ es) ∧
      ∀ n < es.length, (addEntries buffer es).1[n]? =
        some (if hist.length + n < 10 then AesdBufferEntry.zero
          else (hist ++ es).getD (hist.length + n - 10) AesdBufferEntry.zero) := by
  induction es generalizing buffer hist with
  | nil => simpa [Aesd.addEntries] using h
  | cons e es ih =>
      obtain ⟨hnext, hret⟩ := h.addEntry e
      obtain ⟨hlast, hrets⟩ := ih hnext
      refine ⟨by simpa [Aesd.addEntries] using hlast, ?_⟩
      intro n hn
      cases n with
      | zero =>
          simp only [Aesd.addEntries, List.getElem?_cons_zero, hret, Nat.add_zero]
          split
          · rfl
          · next hge => rw [List.getD_append _ _ _ _ (by omega)]
      | succ n =>
          have hn' : n < es.length := by simpa using hn
          simp only [Aesd.addEntries, List.getElem?_cons_succ]
          simpa [Nat.add_assoc, Nat.add_comm 1 n] using hrets n hn'

/-- The buffer refines a FIFO bounded by ten entries: after any sequence of
additions to an initialised buffer the walk is the last ten entries in order,
and each addition returned the entry it pushed out. -/
theorem addEntries_refines_boundedFifo (buffer : AesdCircularBuffer)
    (es : List AesdBufferEntry) :
    let result := addEntries (aesdCircularBufferInit buffer) es
    result.2.walk = es.drop (es.length - 10) ∧
      result.2.inOffs < 10 ∧ result.2.outOffs < 10 ∧
      (result.2.full = true ↔ 10 ≤ es.length) ∧
      (∀ i < 10, (∀ k < result.2.occupied, (result.2.outOffs + k) % 10 ≠ i) →
        result.2.slot i = AesdBufferEntry.zero) ∧
      result.1.length = es.length ∧
      ∀ n < es.length, result.1[n]? =
        if n < 10 then some AesdBufferEntry.zero else es[n - 10]? := by
  intro result
  obtain ⟨hholds, hrets⟩ := (holds_aesdCircularBufferInit buffer).addEntries es
  rw [List.nil_append] at hholds
  refine ⟨hholds.walk_eq, hholds.inOffs_lt, hholds.outOffs_lt, hholds.full_iff, ?_, ?_, ?_⟩
  · intro i hi hvisited
    exact Ring.Holds.slot_eq_default hholds hi hvisited
  · exact addEntries_length _ es
  · intro n hn
    rw [hrets n hn]
    simp only [List.length_nil, Nat.zero_add, List.nil_append]
    split
    · rfl
    · rw [List.getD_eq_getElem?_getD, List.getElem?_eq_getElem (by omega)]
      rfl

/-! ## The cached total -/

theorem aesdCircularBufferAddEntry_size {buffer : AesdCircularBuffer}
    (hvacant : buffer.full = false → (buffer.slot buffer.inOffs).size = 0) (e : AesdBufferEntry) :
    (aesdCircularBufferAddEntry buffer e).2.size =
      subU 64 (wrapU 64 (buffer.size + e.size)) (aesdCircularBufferAddEntry buffer e).1.size := by
  unfold aesdCircularBufferAddEntry
  cases hfull : buffer.full with
  | true => rfl
  | false =>
      have hlt : wrapU 64 (buffer.size + e.size) < 2 ^ 64 := Nat.mod_lt _ (by decide)
      simp only [Bool.false_eq_true, if_false, hvacant hfull, subU_of_le (Nat.zero_le _) hlt,
        Nat.sub_zero]

/-- The cached total is the true one of the retained entries, modulo `2 ^ 64`. -/
def AesdCircularBuffer.Sized (buffer : AesdCircularBuffer) (es : List AesdBufferEntry) : Prop :=
  buffer.size = ((es.rtake 10).map AesdBufferEntry.size).sum % 2 ^ 64

theorem AesdCircularBuffer.Holds.sum_evicted {buffer : AesdCircularBuffer}
    {es : List AesdBufferEntry} (h : buffer.Holds es) (e : AesdBufferEntry) :
    ((es.rtake 10).map AesdBufferEntry.size).sum =
      (aesdCircularBufferAddEntry buffer e).1.size +
        ((es.rtake 9).map AesdBufferEntry.size).sum := by
  rw [(h.addEntry e).2]
  split
  · next hlt =>
      rw [rtake_of_length_le (by omega : es.length ≤ 10),
        rtake_of_length_le (by omega : es.length ≤ 9)]
      exact (Nat.zero_add _).symm
  · next hge =>
      rw [rtake_succ_of_le (by omega), List.map_cons, List.sum_cons]
      rfl

theorem AesdCircularBuffer.Holds.sized_addEntry {buffer : AesdCircularBuffer}
    {es : List AesdBufferEntry} (h : buffer.Holds es) (hsize : buffer.Sized es)
    (e : AesdBufferEntry) : (aesdCircularBufferAddEntry buffer e).2.Sized (es ++ [e]) := by
  have hvacant : buffer.full = false → (buffer.slot buffer.inOffs).size = 0 := by
    intro hfull
    have hlt : es.length < 10 := by
      by_contra hge
      have htrue : buffer.full = true := h.full_iff.mpr (not_lt.mp hge)
      simp [hfull] at htrue
    have hslot := Ring.Holds.slot_inOffs h
    rw [if_pos hlt] at hslot
    exact congrArg AesdBufferEntry.size hslot
  rw [Sized, aesdCircularBufferAddEntry_size hvacant, hsize, h.sum_evicted e, subU_wrapU_add,
    List.rtake_concat_succ, List.map_append, List.sum_append]
  simp

theorem AesdCircularBuffer.Holds.sized_addEntries {buffer : AesdCircularBuffer}
    {hist : List AesdBufferEntry} (h : buffer.Holds hist) (hsize : buffer.Sized hist)
    (es : List AesdBufferEntry) : (Aesd.addEntries buffer es).2.Sized (hist ++ es) := by
  induction es generalizing buffer hist with
  | nil => simpa [Aesd.addEntries] using hsize
  | cons e es ih =>
      have hlast := ih (h.addEntry e).1 (h.sized_addEntry hsize e)
      simpa [Aesd.addEntries] using hlast

theorem AesdCircularBuffer.Holds.sum_slots_size {buffer : AesdCircularBuffer}
    {es : List AesdBufferEntry} (h : buffer.Holds es) :
    (buffer.slots.map AesdBufferEntry.size).sum =
      ((es.rtake 10).map AesdBufferEntry.size).sum := by
  rw [(h.slots_perm.map AesdBufferEntry.size).sum_eq, h.walk_eq, List.map_append, List.sum_append]
  simp [AesdBufferEntry.zero]

/-! ## Lookup by file offset -/

theorem findEntryLoop_eq (buffer : AesdCircularBuffer) {charOffset : ℕ}
    (left i total index : ℕ) (htotal : total ≤ charOffset) (sizes : List ℕ)
    (hsizes : sizes = (List.range' i left).map fun k ↦
      (buffer.slot ((buffer.outOffs + k) % 10)).size)
    (hbound : total + sizes.sum < 2 ^ 64) :
    match locate sizes (charOffset - total) with
    | none => (findEntryLoop buffer charOffset left i total index).1 ≤ charOffset
    | some (j, _) => findEntryLoop buffer charOffset left i total index =
        (total + (sizes.take (j + 1)).sum, (buffer.outOffs + (i + j)) % 10) := by
  induction left generalizing i total index sizes with
  | zero =>
      subst hsizes
      simpa [locate, findEntryLoop] using htotal
  | succ left ih =>
      rw [List.range'_succ, List.map_cons] at hsizes
      obtain ⟨rest, hrest⟩ : ∃ rest, rest = (List.range' (i + 1) left).map fun k ↦
        (buffer.slot ((buffer.outOffs + k) % 10)).size := ⟨_, rfl⟩
      rw [← hrest] at hsizes
      subst hsizes
      rw [List.sum_cons] at hbound
      simp only [findEntryLoop]
      generalize (buffer.slot ((buffer.outOffs + i) % 10)).size = s at hbound ⊢
      rw [wrapU_of_lt (show total + s < 2 ^ 64 by omega)]
      by_cases hfound : charOffset < total + s
      · rw [locate, if_pos (by omega), if_pos hfound]
        simp
      · rw [locate, if_neg (by omega), if_neg hfound]
        have htail := ih (i + 1) (total + s) ((buffer.outOffs + i) % 10) (by omega) rest hrest
          (by omega)
        have hsub : charOffset - (total + s) = charOffset - total - s := by omega
        rw [hsub] at htail
        cases hloc : locate rest (charOffset - total - s) with
        | none => simpa [hloc] using htail
        | some q =>
            obtain ⟨j, o⟩ := q
            simp only [hloc] at htail
            have hindex : i + 1 + j = i + (j + 1) := by omega
            simp only [Option.map_some, htail, List.take_succ_cons, List.sum_cons, hindex,
              Nat.add_assoc]

theorem AesdCircularBuffer.walk_getElem? {buffer : AesdCircularBuffer} {j : ℕ}
    {e : AesdBufferEntry} (h : buffer.walk[j]? = some e) :
    buffer.slot ((buffer.outOffs + j) % 10) = e := by
  rw [walk, List.getElem?_map] at h
  obtain ⟨i, hi, rfl⟩ := Option.map_eq_some_iff.mp h
  obtain ⟨_, rfl⟩ := List.getElem?_eq_some_iff.mp hi
  simp

theorem AesdCircularBuffer.Holds.window_sizes {buffer : AesdCircularBuffer}
    {es : List AesdBufferEntry} (h : buffer.Holds es) :
    buffer.walk.map AesdBufferEntry.size ++ List.replicate (10 - buffer.walk.length) 0 =
      (List.range' 0 10).map fun k ↦ (buffer.slot ((buffer.outOffs + k) % 10)).size := by
  have hwindow := Ring.Holds.window_eq h
  rw [← Ring.Holds.walk_eq h, ← AesdCircularBuffer.walk_eq_ring_walk] at hwindow
  have hmap := congrArg (List.map AesdBufferEntry.size) hwindow
  rw [List.map_append, List.map_replicate, Ring.window, List.map_map] at hmap
  rw [← List.range_eq_range']
  exact hmap.symm

/-- The lookup is `locate` on the walk, as long as the total fits `size_t`. -/
theorem AesdCircularBuffer.Holds.findEntryOffsetForFpos {buffer : AesdCircularBuffer}
    {es : List AesdBufferEntry} (h : buffer.Holds es)
    (hbound : (buffer.walk.map AesdBufferEntry.size).sum < 2 ^ 64) (charOffset : ℕ) :
    aesdCircularBufferFindEntryOffsetForFpos buffer charOffset =
      (locate (buffer.walk.map AesdBufferEntry.size) charOffset).map
        fun (j, o) ↦ ((buffer.outOffs + j) % 10, o) := by
  have hsizes := h.window_sizes
  generalize 10 - buffer.walk.length = pad at hsizes
  have hloop := findEntryLoop_eq buffer 10 0 0 buffer.outOffs (Nat.zero_le charOffset) _ hsizes
    (by simpa using hbound)
  rw [Nat.sub_zero, locate_append_zeros] at hloop
  unfold aesdCircularBufferFindEntryOffsetForFpos
  cases hloc : locate (buffer.walk.map AesdBufferEntry.size) charOffset with
  | none =>
      simp only [hloc] at hloop
      simp [hloop]
  | some q =>
      obtain ⟨j, o⟩ := q
      obtain ⟨e, he, ho, hsum⟩ := (locate_map_eq_some_iff _ _ _ _ _).mp hloc
      rw [List.map_take] at hsum
      have htake :
          ((buffer.walk.map AesdBufferEntry.size ++ List.replicate pad 0).take (j + 1)).sum =
            ((buffer.walk.map AesdBufferEntry.size).take j).sum + e.size := by
        obtain ⟨hj, rfl⟩ := List.getElem?_eq_some_iff.mp he
        rw [List.take_append_of_le_length (by simpa using hj),
          List.take_succ_eq_append_getElem (by simpa using hj)]
        simp
      have hle : ((buffer.walk.map AesdBufferEntry.size).take j).sum + e.size < 2 ^ 64 := by
        have hpref := ((List.take_sublist (j + 1)
          (buffer.walk.map AesdBufferEntry.size ++ List.replicate pad 0)).sum_le_sum
            fun _ _ ↦ Nat.zero_le _)
        rw [htake] at hpref
        simp only [List.sum_append, List.sum_replicate, smul_zero, Nat.add_zero] at hpref
        omega
      simp only [hloc, htake, Nat.zero_add] at hloop
      simp only [hloop, AesdCircularBuffer.walk_getElem? he, Option.map_some]
      rw [if_neg (by omega), subU_of_le (by omega) hle, subU_of_le (by omega) (by omega)]
      congr 2
      omega

theorem AesdCircularBuffer.Holds.find_isSome_iff {buffer : AesdCircularBuffer}
    {es : List AesdBufferEntry} (h : buffer.Holds es)
    (hbound : (buffer.walk.map AesdBufferEntry.size).sum < 2 ^ 64) (charOffset : ℕ) :
    (aesdCircularBufferFindEntryOffsetForFpos buffer charOffset).isSome ↔
      charOffset < (buffer.walk.map AesdBufferEntry.size).sum := by
  rw [h.findEntryOffsetForFpos hbound, Option.isSome_map, ← locate_isSome_iff,
    Option.isSome_iff_exists, Prod.exists]

/-- The cached total is the sum over all ten slots in `size_t`; while the retained
entries fit `size_t` it is their true total, and the lookup succeeds exactly below it. -/
theorem addEntries_size_exact (buffer : AesdCircularBuffer) (es : List AesdBufferEntry) :
    let result := (addEntries (aesdCircularBufferInit buffer) es).2
    let total := ((es.drop (es.length - 10)).map AesdBufferEntry.size).sum
    result.size = (result.slots.map AesdBufferEntry.size).sum % 2 ^ 64 ∧
      (total < 2 ^ 64 → result.size = total ∧
        ∀ charOffset,
          aesdCircularBufferFindEntryOffsetForFpos result charOffset ≠ none ↔
            charOffset < result.size) := by
  intro result total
  have hholds := ((holds_aesdCircularBufferInit buffer).addEntries es).1
  have hsized : result.Sized es :=
    (holds_aesdCircularBufferInit buffer).sized_addEntries rfl es
  rw [List.nil_append] at hholds
  refine ⟨hsized.trans (by rw [hholds.sum_slots_size]), ?_⟩
  intro hlt
  have hsize : result.size = total := hsized.trans (Nat.mod_eq_of_lt hlt)
  have hwalk : (result.walk.map AesdBufferEntry.size).sum = total := by
    rw [hholds.walk_eq]
    rfl
  refine ⟨hsize, ?_⟩
  intro charOffset
  rw [hsize, ← hwalk, ← hholds.find_isSome_iff (hwalk ▸ hlt), Option.isSome_iff_ne_none]

def elevenEntries : List AesdBufferEntry := (List.range 11).map fun i ↦ ⟨some i, i % 3⟩

/-- Memory that held something else before it was initialised. -/
def usedMemory : AesdCircularBuffer := ⟨Vector.replicate _ ⟨some 7, 9⟩, 3, 4, true, 5⟩

theorem addEntries_size_exact_elevenEntries :
    (addEntries (aesdCircularBufferInit usedMemory) elevenEntries).2.size = 10 ∧
      aesdCircularBufferFindEntryOffsetForFpos
        (addEntries (aesdCircularBufferInit usedMemory) elevenEntries).2 9 ≠ none := by
  obtain ⟨-, hexact⟩ := addEntries_size_exact usedMemory elevenEntries
  obtain ⟨hsize, hfound⟩ := hexact (by decide)
  exact ⟨hsize.trans (by decide), (hfound 9).mpr (by decide)⟩

/-- The lookup with its out parameter: the slot pointed to, if any, and what
`*entry_offset_byte_rtn` holds afterwards. -/
def findEntryOffsetForFposRtn (buffer : AesdCircularBuffer) (charOffset entryOffsetByteRtn : ℕ) :
    Option ℕ × ℕ :=
  let (total, index) :=
    findEntryLoop buffer charOffset maxWriteOperationsSupported 0 0 buffer.outOffs
  if charOffset ≥ total then (none, entryOffsetByteRtn)
  else
    let start := subU 64 total (buffer.slot index).size
    (some index, subU 64 charOffset start)

theorem findEntryOffsetForFposRtn_eq (buffer : AesdCircularBuffer) (charOffset rtn : ℕ) :
    findEntryOffsetForFposRtn buffer charOffset rtn =
      match aesdCircularBufferFindEntryOffsetForFpos buffer charOffset with
      | none => (none, rtn)
      | some (index, entryOffset) => (some index, entryOffset) := by
  unfold findEntryOffsetForFposRtn aesdCircularBufferFindEntryOffsetForFpos
  generalize findEntryLoop buffer charOffset maxWriteOperationsSupported 0 0 buffer.outOffs = exit
  obtain ⟨total, index⟩ := exit
  by_cases hend : charOffset ≥ total
  · simp only [if_pos hend]
  · simp only [if_neg hend]

theorem AesdCircularBuffer.Holds.findRtn {buffer : AesdCircularBuffer}
    {es : List AesdBufferEntry} (h : buffer.Holds es)
    (hbound : (buffer.walk.map AesdBufferEntry.size).sum < 2 ^ 64) (charOffset rtn : ℕ) :
    findEntryOffsetForFposRtn buffer charOffset rtn =
      match locate (buffer.walk.map AesdBufferEntry.size) charOffset with
      | none => (none, rtn)
      | some (j, o) => (some ((buffer.outOffs + j) % 10), o) := by
  rw [findEntryOffsetForFposRtn_eq, h.findEntryOffsetForFpos hbound]
  cases locate (buffer.walk.map AesdBufferEntry.size) charOffset <;> rfl

/-- The lookup inverts concatenation: an offset below the total is found at the one
entry and the one place inside it that it stands for, and every other offset gives
`NULL` and leaves the out parameter alone. -/
theorem find_inverts_concatenation (buffer : AesdCircularBuffer) (es : List AesdBufferEntry)
    (hbound : ((es.drop (es.length - 10)).map AesdBufferEntry.size).sum < 2 ^ 64) :
    let result := (addEntries (aesdCircularBufferInit buffer) es).2
    let logical := es.drop (es.length - 10)
    (∀ charOffset rtn, findEntryOffsetForFposRtn result charOffset rtn = (none, rtn) ↔
      (logical.map AesdBufferEntry.size).sum ≤ charOffset) ∧
    (∀ charOffset rtn, charOffset < (logical.map AesdBufferEntry.size).sum →
      ∃ j o e, logical[j]? = some e ∧ o < e.size ∧
        ((logical.take j).map AesdBufferEntry.size).sum + o = charOffset ∧
        findEntryOffsetForFposRtn result charOffset rtn =
          (some ((result.outOffs + j) % 10), o) ∧
        result.slot ((result.outOffs + j) % 10) = e ∧
        ∀ j' o' e', logical[j']? = some e' → o' < e'.size →
          ((logical.take j').map AesdBufferEntry.size).sum + o' = charOffset → j' = j ∧ o' = o) ∧
    ∀ j o e rtn, logical[j]? = some e → o < e.size →
      findEntryOffsetForFposRtn result
          (((logical.take j).map AesdBufferEntry.size).sum + o) rtn =
        (some ((result.outOffs + j) % 10), o) ∧
      result.slot ((result.outOffs + j) % 10) = e := by
  intro result logical
  have hholds : result.Holds es := by
    simpa using ((holds_aesdCircularBufferInit buffer).addEntries es).1
  have hwalk : result.walk = logical := hholds.walk_eq
  rw [← show result.walk = es.drop (es.length - 10) from hwalk] at hbound
  refine ⟨?_, ?_, ?_⟩
  · intro charOffset rtn
    rw [hholds.findRtn hbound, ← hwalk, ← locate_eq_none_iff]
    cases locate (result.walk.map AesdBufferEntry.size) charOffset <;> simp
  · intro charOffset rtn hlt
    obtain ⟨j, o, hloc⟩ := (locate_isSome_iff _ _).mpr hlt
    obtain ⟨e, he, ho, hsum⟩ := (locate_map_eq_some_iff _ _ _ _ _).mp hloc
    refine ⟨j, o, e, he, ho, hsum, ?_, ?_, ?_⟩
    · rw [hholds.findRtn hbound, hwalk, hloc]
    · rw [← hwalk] at he
      exact AesdCircularBuffer.walk_getElem? he
    · intro j' o' e' he' ho' hsum'
      have hloc' := (locate_map_eq_some_iff _ _ _ _ _).mpr ⟨e', he', ho', hsum'⟩
      simpa using hloc'.symm.trans hloc
  · intro j o e rtn he ho
    have hloc := (locate_map_eq_some_iff _ _ _ _ _).mpr ⟨e, he, ho, rfl⟩
    refine ⟨?_, ?_⟩
    · rw [hholds.findRtn hbound, hwalk, hloc]
    · rw [← hwalk] at he
      exact AesdCircularBuffer.walk_getElem? he

/-- Offset three is the fourth of the retained entries, behind an empty one. -/
theorem find_inverts_concatenation_elevenEntries :
    findEntryOffsetForFposRtn (addEntries (aesdCircularBufferInit usedMemory) elevenEntries).2
        3 99 = (some 4, 0) ∧
      findEntryOffsetForFposRtn (addEntries (aesdCircularBufferInit usedMemory) elevenEntries).2
        10 99 = (none, 99) := by
  obtain ⟨hnull, -, hback⟩ := find_inverts_concatenation usedMemory elevenEntries (by decide)
  exact ⟨(hback 3 0 ⟨some 4, 1⟩ 99 (by decide) (by decide)).1, (hnull 10 99).mpr (by decide)⟩

end Aesd
