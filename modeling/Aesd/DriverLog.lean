import Aesd.CharDriver

/-!
# The device as a log of commands

What the device is for can be said without buffers: it keeps the commands
committed so far and the bytes of an unfinished one, and offers the last ten
commands to readers.  `Layout` ties a kernel state to such a log: which block
holds which command, which block holds the unfinished bytes, and that nothing
else is live.  Every successful write moves the layout along `Log.write`, and
every other call leaves the kernel as it was.
-/

namespace Aesd

open MachineWord
open BlockHeap
open BoundedRing
open OffsetLookup

structure Log where
  committed : List (List UInt8)
  pending : List UInt8

namespace Log

def empty : Log := ⟨[], []⟩

/-- A write extends the unfinished bytes; a final newline commits them. -/
def write (log : Log) (payload : List UInt8) : Log :=
  if (log.pending ++ payload).getLast? = some newline then
    ⟨log.committed ++ [log.pending ++ payload], []⟩
  else ⟨log.committed, log.pending ++ payload⟩

def stored (log : Log) : List (List UInt8) := log.committed.rtake maxWriteOperationsSupported

end Log

def entryOf (b : ℕ × List UInt8) : AesdBufferEntry := ⟨some b.1, b.2.length⟩

theorem filterMap_buffptr_entryOf (bs : List (ℕ × List UInt8)) :
    (bs.map entryOf).filterMap AesdBufferEntry.buffptr = bs.map Prod.fst := by
  induction bs with
  | nil => rfl
  | cons b bs ih => simpa [entryOf] using ih

/-- `es` are all entries ever added, `cmds` the blocks of the stored commands
and `pend` the block of the partial entry. -/
structure Layout (k : Kernel) (log : Log) (es : List AesdBufferEntry)
    (cmds : List (ℕ × List UInt8)) (pend : Option (ℕ × List UInt8)) : Prop where
  holds : k.aesdDevice.buffer.Holds es
  length_eq : es.length = log.committed.length
  walk_eq : k.aesdDevice.buffer.walk = cmds.map entryOf
  stored_eq : cmds.map Prod.snd = log.stored
  partial_eq : k.aesdDevice.partialEntry = pend.elim AesdBufferEntry.zero entryOf
  pending_eq : log.pending = pend.elim [] Prod.snd
  pending_open : log.pending.getLast? ≠ some newline
  committed_closed : ∀ c ∈ log.committed, c.getLast? = some newline
  owns : Owns k.heap (cmds ++ pend.toList)
  size_le : ∀ b ∈ cmds ++ pend.toList, b.2.length ≤ kmallocLimit
  pend_ne : ∀ b ∈ pend, b.2 ≠ []
  unlocked : k.aesdDevice.bufferMutex = false

def Models (k : Kernel) (log : Log) : Prop := ∃ es cmds pend, Layout k log es cmds pend

theorem models_loaded : Models System.loaded.kernel Log.empty := by
  refine ⟨[], [], none, ?_⟩
  have hholds : System.loaded.kernel.aesdDevice.buffer.Holds [] :=
    holds_aesdCircularBufferInit System.loaded.kernel.aesdDevice.buffer
  exact
    { holds := hholds
      length_eq := rfl
      walk_eq := hholds.walk_eq
      stored_eq := rfl
      partial_eq := rfl
      pending_eq := rfl
      pending_open := by simp [Log.empty]
      committed_closed := by simp [Log.empty]
      owns := owns_empty
      size_le := by simp
      pend_ne := by simp
      unlocked := rfl }

/-! ## What a layout says about the state -/

namespace Layout

variable {k : Kernel} {log : Log} {es : List AesdBufferEntry}
  {cmds : List (ℕ × List UInt8)} {pend : Option (ℕ × List UInt8)}

theorem partialEntry_size (h : Layout k log es cmds pend) :
    k.aesdDevice.partialEntry.size = log.pending.length := by
  rw [h.partial_eq, h.pending_eq]
  cases pend <;> rfl

theorem pending_length_le (h : Layout k log es cmds pend) :
    log.pending.length ≤ kmallocLimit := by
  rw [h.pending_eq]
  cases pend with
  | none => simp
  | some b => exact h.size_le b (by simp)

theorem bytesOf_entryOf (h : Layout k log es cmds pend) {b : ℕ × List UInt8}
    (hb : b ∈ cmds ++ pend.toList) : k.bytesOf (entryOf b) = b.2 := by
  simp [Kernel.bytesOf, entryOf, h.owns.lookup hb]

theorem storedCommands_eq (h : Layout k log es cmds pend) : k.storedCommands = log.stored := by
  rw [Kernel.storedCommands, h.walk_eq, List.map_map, ← h.stored_eq]
  apply List.map_congr_left
  intro b hb
  exact h.bytesOf_entryOf (List.mem_append_left _ hb)

theorem partialBytes_eq (h : Layout k log es cmds pend) :
    k.bytesOf k.aesdDevice.partialEntry = log.pending := by
  rw [h.partial_eq, h.pending_eq]
  cases pend with
  | none => rfl
  | some b => exact h.bytesOf_entryOf (by simp)

theorem partialEntry_eq_zero_iff (h : Layout k log es cmds pend) :
    log.pending = [] ↔ k.aesdDevice.partialEntry = AesdBufferEntry.zero := by
  rw [h.partial_eq, h.pending_eq]
  cases pend with
  | none => simp
  | some b => simpa [entryOf, AesdBufferEntry.zero] using h.pend_ne b rfl

theorem partialEntry_buffptr_eq_none_iff (h : Layout k log es cmds pend) :
    k.aesdDevice.partialEntry.buffptr = none ↔ log.pending = [] := by
  rw [h.partial_eq, h.pending_eq]
  cases pend with
  | none => simp [AesdBufferEntry.zero]
  | some b => simpa [entryOf] using h.pend_ne b rfl

theorem ownedHandles_eq (h : Layout k log es cmds pend) :
    k.ownedHandles = (cmds ++ pend.toList).map Prod.fst := by
  rw [Kernel.ownedHandles, h.walk_eq, h.partial_eq]
  rw [List.filterMap_append, filterMap_buffptr_entryOf]
  cases pend <;> simp [entryOf, AesdBufferEntry.zero]

/-- Taking and releasing the mutex leaves the kernel as it was. -/
theorem unlock_lock (h : Layout k log es cmds pend) :
    (⟨k.heap, k.aesdDevice.lock.unlock⟩ : Kernel) = k := by
  rw [AesdDev.unlock_lock h.unlocked]

end Layout

/-! ## Writing -/

/-- The ways in which a write of `buf` is refused. -/
def WriteRefused (env : Env) (log : Log) (buf : List UInt8) : Prop :=
  env.interrupted = true ∨ env.kmallocFails = true ∨
    kmallocLimit < (log.pending ++ buf).length ∨ min env.uncopied buf.length ≠ 0

theorem copyFromUser_of_eq_zero {env : Env} {bytes : List UInt8}
    (h : min env.uncopied bytes.length = 0) : copyFromUser env bytes = (bytes, 0) := by
  simp [copyFromUser, h]

theorem length_copyFromUser (env : Env) (bytes : List UInt8) :
    (copyFromUser env bytes).1.length = bytes.length := by
  simp only [copyFromUser, List.length_append, List.length_take, List.length_replicate]
  omega

theorem consumePartial_eq {heap : Heap UInt8} {cmds : List (ℕ × List UInt8)}
    {pend : Option (ℕ × List UInt8)} {p : ℕ} {front tail : List UInt8}
    (hown : Owns heap ((p, front ++ tail) :: (cmds ++ pend.toList)))
    (hfront : front.length = (pend.elim [] Prod.snd).length) :
    ∃ heap', consumePartial heap (pend.elim AesdBufferEntry.zero entryOf) p =
        .ok (heap', AesdBufferEntry.zero) ∧
      Owns heap' ((p, pend.elim [] Prod.snd ++ tail) :: cmds) := by
  cases pend with
  | none =>
      obtain rfl : front = [] := List.length_eq_zero_iff.mp hfront
      exact ⟨heap, rfl, by simpa using hown⟩
  | some b =>
      have hload : load heap (some b.1) 0 b.2.length = .ok b.2 := by
        have hmem : b ∈ (p, front ++ tail) :: (cmds ++ (some b).toList) := by simp
        rw [load_of_lookup (hown.lookup hmem) (by simp)]
        simp
      have hlen : front.length = b.2.length := hfront
      obtain ⟨heap₁, hstore, hown₁⟩ := hown.store
        (show 0 + b.2.length ≤ (front ++ tail).length by rw [List.length_append]; omega)
      have hpatch : patch (front ++ tail) 0 b.2 = b.2 ++ tail := by
        rw [patch_head, List.drop_left' hlen]
      rw [hpatch] at hown₁
      have hperm : ((p, b.2 ++ tail) :: (cmds ++ (some b).toList)).Perm
          (b :: (p, b.2 ++ tail) :: cmds) := by
        rw [← List.cons_append]
        exact List.perm_append_singleton b _
      obtain ⟨heap₂, hfree, hown₂⟩ := (hown₁.perm hperm).free
      refine ⟨heap₂, ?_, hown₂⟩
      simp [consumePartial, entryOf, hload, hstore, hfree, AesdBufferEntry.zero]

theorem load_last {heap : Heap UInt8} {p : ℕ} {block : List UInt8}
    (hlookup : heap.lookup p = some block) (hne : block ≠ []) (hlt : block.length < 2 ^ 64) :
    load heap (some p) (subU 64 block.length 1) 1 = .ok [block.getLast hne] := by
  have hpos := List.length_pos_of_ne_nil hne
  rw [subU_of_le hpos hlt, load_of_lookup hlookup (by omega)]
  rw [List.drop_length_sub_one hne]
  rfl

theorem commitOrKeep_keep {heap : Heap UInt8} (dev : AesdDev) {p : ℕ} {block : List UInt8}
    (hlookup : heap.lookup p = some block) (hne : block ≠ []) (hlt : block.length < 2 ^ 64)
    (hlast : block.getLast? ≠ some newline) :
    commitOrKeep heap dev (entryOf (p, block)) =
      .ok (heap, { dev with partialEntry := entryOf (p, block) }) := by
  rw [List.getLast?_eq_some_getLast hne] at hlast
  have hbyte : ¬ block.getLast hne = newline := by simpa using hlast
  simp [commitOrKeep, entryOf, load_last hlookup hne hlt, hbyte]
  rfl

theorem commitOrKeep_of_newline {heap heap' : Heap UInt8} {dev : AesdDev} {e : AesdBufferEntry}
    (hload : load heap e.buffptr (subU 64 e.size 1) 1 = .ok [newline])
    (hfree : free heap (aesdCircularBufferAddEntry dev.buffer e).1.buffptr = .ok heap') :
    commitOrKeep heap dev e =
      .ok (heap', { dev with buffer := (aesdCircularBufferAddEntry dev.buffer e).2 }) := by
  unfold commitOrKeep
  rw [hload, FallibleRun.ok_bind, if_pos rfl]
  cases hold : (aesdCircularBufferAddEntry dev.buffer e).1.buffptr with
  | none =>
      rw [hold] at hfree
      cases hfree
      simp [hold]
      rfl
  | some p =>
      rw [hold] at hfree
      simp [hold, hfree]

theorem commitOrKeep_commit {heap : Heap UInt8} (dev : AesdDev) {es : List AesdBufferEntry}
    {cmds : List (ℕ × List UInt8)} {p : ℕ} {block : List UInt8}
    (hholds : dev.buffer.Holds es) (hwalk : dev.buffer.walk = cmds.map entryOf)
    (hown : Owns heap ((p, block) :: cmds)) (hlt : block.length < 2 ^ 64)
    (hlast : block.getLast? = some newline) :
    ∃ heap' buffer', commitOrKeep heap dev (entryOf (p, block)) =
        .ok (heap', { dev with buffer := buffer' }) ∧
      buffer'.Holds (es ++ [entryOf (p, block)]) ∧
      Owns heap' (cmds.rtake 9 ++ [(p, block)]) := by
  have hne : block ≠ [] := by
    rintro rfl
    simp at hlast
  have hload := load_last (hown.lookup List.mem_cons_self) hne hlt
  rw [List.getLast?_eq_some_getLast hne, Option.some_inj] at hlast
  rw [hlast] at hload
  obtain ⟨hnext, hold⟩ := hholds.addEntry (entryOf (p, block))
  have hlen : cmds.length = min es.length 10 := by
    have hcount := congrArg List.length hwalk
    rw [hholds.walk_eq, length_rtake, List.length_map] at hcount
    exact hcount.symm
  by_cases hfull : es.length < 10
  · -- nothing was overwritten, so nothing is freed
    rw [if_pos hfull] at hold
    refine ⟨heap, _, commitOrKeep_of_newline hload ?_, hnext, ?_⟩
    · rw [hold]
      rfl
    · rw [rtake_of_length_le (show cmds.length ≤ 9 by omega)]
      exact hown.perm (List.perm_append_singleton _ _).symm
  · rw [if_neg hfull] at hold
    cases cmds with
    | nil => simp at hlen; omega
    | cons b rest =>
        have hrest : (b :: rest).rtake 9 = rest := by
          rw [List.rtake, hlen, min_eq_right (by omega)]
          rfl
        have hhead : es.getD (es.length - 10) AesdBufferEntry.zero = entryOf b := by
          rw [hholds.walk_eq, List.rtake, List.drop_eq_getElem_cons (by omega)] at hwalk
          rw [List.getD_eq_getElem _ _ (by omega)]
          exact (List.cons.inj hwalk).1
        obtain ⟨heap', hfree, hown'⟩ :=
          (hown.perm (List.Perm.swap b (p, block) rest)).free
        refine ⟨heap', _, commitOrKeep_of_newline hload ?_, hnext, ?_⟩
        · rw [hold, hhead]
          exact hfree
        · rw [hrest]
          exact hown'.perm (List.perm_append_singleton _ _).symm

section Write

variable {env : Env} {k : Kernel} {log : Log} {es : List AesdBufferEntry}
  {cmds : List (ℕ × List UInt8)} {pend : Option (ℕ × List UInt8)} {buf : List UInt8}

theorem Layout.bufferSize_eq (h : Layout k log es cmds pend) (hbuf : buf.length < 2 ^ 31) :
    wrapU 64 (buf.length + k.aesdDevice.partialEntry.size) = (log.pending ++ buf).length := by
  have hpend : log.pending.length ≤ 2 ^ 32 := h.pending_length_le
  rw [h.partialEntry_size, List.length_append, wrapU_of_lt (by omega), Nat.add_comm]

theorem kmalloc_of_ok {heap : Heap UInt8} {n : ℕ} (hfails : env.kmallocFails ≠ true)
    (hsize : ¬ kmallocLimit < n) :
    kmalloc env heap n =
      some (fresh heap, heap.insert (fresh heap) ((List.range n).map env.garbage)) := by
  rw [kmalloc, if_neg (not_or.mpr ⟨hfails, hsize⟩)]
  rfl

theorem Layout.aesdWrite_refused (h : Layout k log es cmds pend) (hbuf : buf.length < 2 ^ 31)
    (hrefused : WriteRefused env log buf) (fPos : ℤ) :
    ∃ r < 0, aesdWrite env k buf fPos = .ok ⟨r, k, fPos, []⟩ := by
  have hk := h.unlock_lock
  unfold aesdWrite
  by_cases hint : env.interrupted = true
  · exact ⟨-eintr, by decide, by rw [if_pos hint]⟩
  rw [if_neg hint]
  simp only [AesdDev.lock_partialEntry, h.bufferSize_eq hbuf]
  by_cases hmalloc : env.kmallocFails = true ∨ kmallocLimit < (log.pending ++ buf).length
  · refine ⟨-enomem, by decide, ?_⟩
    rw [kmalloc, if_pos hmalloc, hk]
  · refine ⟨-efault, by decide, ?_⟩
    rw [not_or] at hmalloc
    have hleft : min env.uncopied buf.length ≠ 0 := by
      rcases hrefused with hr | hr | hr | hr
      · exact absurd hr hint
      · exact absurd hr hmalloc.1
      · exact absurd hr hmalloc.2
      · exact hr
    have hstore := store_of_lookup
      (AList.lookup_insert k.heap (a := fresh k.heap)
        (b := (List.range (log.pending ++ buf).length).map env.garbage))
      (show log.pending.length + (copyFromUser env buf).1.length ≤ _ by
        simp [length_copyFromUser])
    have hcopy : (copyFromUser env buf).2 = min env.uncopied buf.length := rfl
    rw [kmalloc_of_ok hmalloc.1 hmalloc.2]
    simp only [h.partialEntry_size, hstore, hcopy, FallibleRun.ok_bind, if_pos hleft]
    rw [free_of_mem (by simp), AList.insert_insert, erase_insert_of_notMem (fresh_notMem _),
      FallibleRun.ok_bind, hk]
    rfl

theorem aesdWrite_eq_of_steps {n p : ℕ} {heap₀ heap₁ heap₂ : Heap UInt8}
    {pe : AesdBufferEntry} (hint : ¬ env.interrupted = true)
    (hsize : wrapU 64 (buf.length + k.aesdDevice.partialEntry.size) = n)
    (hmalloc : kmalloc env k.heap n = some (p, heap₀))
    (hcopy : copyFromUser env buf = (buf, 0))
    (hstore : store heap₀ p k.aesdDevice.partialEntry.size buf = .ok heap₁)
    (hconsume : consumePartial heap₁ k.aesdDevice.partialEntry p = .ok (heap₂, pe)) (fPos : ℤ) :
    aesdWrite env k buf fPos = do
      let (heap, dev) ← commitOrKeep heap₂ ⟨k.aesdDevice.buffer, true, pe⟩ ⟨some p, n⟩
      return ⟨wrapS 64 buf.length, ⟨heap, dev.unlock⟩, wrapS 64 (fPos + n), []⟩ := by
  unfold aesdWrite
  rw [if_neg hint]
  simp only [AesdDev.lock, hsize, hmalloc, hcopy, hstore, FallibleRun.ok_bind,
    ne_eq, not_true_eq_false, if_false, hconsume]

theorem Layout.keep (h : Layout k log es cmds pend) {heap : Heap UInt8} {p : ℕ}
    {block : List UInt8} (hown : Owns heap ((p, block) :: cmds)) (hne : block ≠ [])
    (hlast : block.getLast? ≠ some newline) (hle : block.length ≤ kmallocLimit) :
    Layout ⟨heap, ⟨k.aesdDevice.buffer, false, entryOf (p, block)⟩⟩ ⟨log.committed, block⟩
      es cmds (some (p, block)) where
  holds := h.holds
  length_eq := h.length_eq
  walk_eq := h.walk_eq
  stored_eq := h.stored_eq
  partial_eq := rfl
  pending_eq := rfl
  pending_open := hlast
  committed_closed := h.committed_closed
  owns := hown.perm (List.perm_append_singleton _ _).symm
  size_le := by
    intro b hb
    rcases List.mem_append.mp hb with hb | hb
    · exact h.size_le b (List.mem_append_left _ hb)
    · obtain rfl : b = (p, block) := by simpa using hb
      exact hle
  pend_ne := by simpa using hne
  unlocked := rfl

theorem Layout.commit (h : Layout k log es cmds pend) {heap : Heap UInt8}
    {buffer : AesdCircularBuffer} {p : ℕ} {block : List UInt8}
    (hholds : buffer.Holds (es ++ [entryOf (p, block)]))
    (hown : Owns heap (cmds.rtake 9 ++ [(p, block)]))
    (hlast : block.getLast? = some newline) (hle : block.length ≤ kmallocLimit) :
    Layout ⟨heap, ⟨buffer, false, AesdBufferEntry.zero⟩⟩ ⟨log.committed ++ [block], []⟩
      (es ++ [entryOf (p, block)]) (cmds.rtake 9 ++ [(p, block)]) none where
  holds := hholds
  length_eq := by simp [h.length_eq]
  walk_eq := by
    have hwalk : es.rtake 9 = (cmds.rtake 9).map entryOf := by
      rw [← rtake_map, ← h.walk_eq, h.holds.walk_eq, rtake_rtake _ (by decide)]
    rw [List.map_append, ← hwalk]
    exact hholds.walk_eq.trans (List.rtake_concat_succ _ _ _)
  stored_eq := by
    have hstored : log.committed.rtake 9 = (cmds.rtake 9).map Prod.snd := by
      rw [← rtake_map, h.stored_eq, Log.stored, rtake_rtake _ (by decide)]
    rw [List.map_append, ← hstored]
    exact (List.rtake_concat_succ _ _ _).symm
  partial_eq := rfl
  pending_eq := rfl
  pending_open := by simp
  committed_closed := by
    intro c hc
    rcases List.mem_append.mp hc with hc | hc
    · exact h.committed_closed c hc
    · rw [List.mem_singleton.mp hc]
      exact hlast
  owns := by simpa using hown
  size_le := by
    intro b hb
    rw [Option.toList_none, List.append_nil] at hb
    rcases List.mem_append.mp hb with hb | hb
    · exact h.size_le b (List.mem_append_left _ (List.mem_of_mem_drop hb))
    · rw [List.mem_singleton.mp hb]
      exact hle
  pend_ne := by simp
  unlocked := rfl

theorem Layout.aesdWrite_accepted (h : Layout k log es cmds pend) (hbuf : buf.length < 2 ^ 31)
    (hne : log.pending ++ buf ≠ []) (hok : ¬ WriteRefused env log buf) (fPos : ℤ) :
    ∃ k', aesdWrite env k buf fPos =
        .ok ⟨buf.length, k', wrapS 64 (fPos + (log.pending ++ buf).length), []⟩ ∧
      Models k' (log.write buf) := by
  simp only [WriteRefused, not_or] at hok
  obtain ⟨hint, hfails, hlimit, hleft⟩ := hok
  have hbound : (log.pending ++ buf).length ≤ 2 ^ 32 := not_lt.mp hlimit
  have hreturn : wrapS 64 buf.length = buf.length := wrapS_natCast (by omega)
  -- the new block after `kmalloc` and `copy_from_user`
  have hlen : log.pending.length + buf.length =
      ((List.range (log.pending ++ buf).length).map env.garbage).length := by simp
  obtain ⟨heap₁, hstore, hown₁⟩ := (h.owns.alloc (fresh_notMem k.heap) _).store hlen.le
  rw [patch_tail hlen] at hown₁
  rw [← h.partialEntry_size] at hstore
  -- the pending bytes move in front of the new ones
  obtain ⟨heap₂, hconsume, hown₂⟩ := consumePartial_eq hown₁
    (by rw [List.length_take, ← hlen, ← h.pending_eq]; omega)
  rw [← h.pending_eq] at hown₂
  rw [← h.partial_eq] at hconsume
  have hwrite : ∀ {heap₃ dev₃}, commitOrKeep heap₂
        ⟨k.aesdDevice.buffer, true, AesdBufferEntry.zero⟩
        (entryOf (fresh k.heap, log.pending ++ buf)) = .ok (heap₃, dev₃) →
      aesdWrite env k buf fPos = .ok ⟨buf.length, ⟨heap₃, dev₃.unlock⟩,
        wrapS 64 (fPos + (log.pending ++ buf).length), []⟩ := by
    intro heap₃ dev₃ hcommit
    rw [aesdWrite_eq_of_steps hint (h.bufferSize_eq hbuf) (kmalloc_of_ok hfails hlimit)
      (copyFromUser_of_eq_zero (not_not.mp hleft)) hstore hconsume, hreturn]
    exact congrArg (· >>= _) hcommit
  by_cases hlast : (log.pending ++ buf).getLast? = some newline
  · obtain ⟨heap₃, buffer, hcommit, hholds, hown₃⟩ := commitOrKeep_commit
      ⟨k.aesdDevice.buffer, true, AesdBufferEntry.zero⟩ h.holds h.walk_eq hown₂ (by omega) hlast
    refine ⟨_, hwrite hcommit, ?_⟩
    rw [Log.write, if_pos hlast]
    exact ⟨_, _, _, h.commit hholds hown₃ hlast hbound⟩
  · have hcommit := commitOrKeep_keep ⟨k.aesdDevice.buffer, true, AesdBufferEntry.zero⟩
      (hown₂.lookup List.mem_cons_self) hne (by omega) hlast
    refine ⟨_, hwrite hcommit, ?_⟩
    rw [Log.write, if_neg hlast]
    exact ⟨_, _, _, h.keep hown₂ hne hlast hbound⟩

/-- A write of nothing on top of nothing tests a byte in front of the block. -/
theorem Layout.aesdWrite_empty (h : Layout k log es cmds pend) (hpend : log.pending = [])
    (hok : ¬ WriteRefused env log []) (fPos : ℤ) :
    aesdWrite env k [] fPos = .error .outOfBounds := by
  simp only [WriteRefused, not_or] at hok
  obtain ⟨hint, hfails, hlimit, -⟩ := hok
  have hzero := h.partialEntry_eq_zero_iff.mp hpend
  have hsize : wrapU 64 (([] : List UInt8).length + k.aesdDevice.partialEntry.size) = 0 := by
    rw [hzero]
    rfl
  have hstore : store (k.heap.insert (fresh k.heap) []) (fresh k.heap)
      k.aesdDevice.partialEntry.size [] =
      .ok ((k.heap.insert (fresh k.heap) []).insert (fresh k.heap) []) := by
    rw [hzero]
    exact store_of_lookup (AList.lookup_insert _) le_rfl
  rw [aesdWrite_eq_of_steps hint hsize (kmalloc_of_ok hfails (by decide))
    (copyFromUser_of_eq_zero (by simp)) hstore (by rw [hzero]; rfl)]
  simp [commitOrKeep, load]

end Write

/-! ## Reading -/

section Read

variable {env : Env} {k : Kernel} {log : Log} {es : List AesdBufferEntry}
  {cmds : List (ℕ × List UInt8)} {pend : Option (ℕ × List UInt8)}

theorem Layout.walk_sizes (h : Layout k log es cmds pend) :
    k.aesdDevice.buffer.walk.map AesdBufferEntry.size = log.stored.map List.length := by
  rw [h.walk_eq, ← h.stored_eq, List.map_map, List.map_map]
  rfl

theorem Layout.stored_length_le (h : Layout k log es cmds pend) {c : List UInt8}
    (hc : c ∈ log.stored) : c.length ≤ kmallocLimit := by
  rw [← h.stored_eq] at hc
  obtain ⟨b, hb, rfl⟩ := List.mem_map.mp hc
  exact h.size_le b (List.mem_append_left _ hb)

theorem Layout.sum_sizes_lt (h : Layout k log es cmds pend) :
    (log.stored.map List.length).sum < 2 ^ 36 := by
  have hle := length_flatten_rtake_le fun c hc ↦ h.stored_length_le hc
  rw [List.length_flatten] at hle
  exact hle.trans_lt (by decide)

/-- `aesd_read` delivers the rest of the command that contains the position. -/
theorem Layout.aesdRead_eq (h : Layout k log es cmds pend) (hint : env.interrupted = false)
    (count : ℕ) (fPos : ℤ) :
    match locate (log.stored.map List.length) (toU 64 fPos) with
    | none => aesdRead env k count fPos = .ok ⟨0, k, fPos, []⟩
    | some (j, o) => ∃ c, log.stored[j]? = some c ∧ o < c.length ∧
        aesdRead env k count fPos =
          if min env.uncopied (c.length - o) = 0 then
            .ok ⟨(c.length - o : ℕ), k, wrapS 64 (fPos + (c.length - o : ℕ)), c.drop o⟩
          else .ok ⟨-efault, k, fPos,
            (c.drop o).take (c.length - o - min env.uncopied (c.length - o))⟩ := by
  have hk := h.unlock_lock
  have hsum := h.sum_sizes_lt
  have hfind := h.holds.findEntryOffsetForFpos (by rw [h.walk_sizes]; omega) (toU 64 fPos)
  rw [h.walk_sizes] at hfind
  unfold aesdRead
  simp only [hint, AesdDev.lock_buffer, hfind]
  cases hloc : locate (log.stored.map List.length) (toU 64 fPos) with
  | none => simp [hk]
  | some q =>
      obtain ⟨j, o⟩ := q
      obtain ⟨c, hc, ho, -⟩ := drop_flatten_of_locate hloc
      have hcle := h.stored_length_le (List.mem_of_getElem? hc)
      rw [← h.stored_eq, List.getElem?_map] at hc
      obtain ⟨b, hb, rfl⟩ := Option.map_eq_some_iff.mp hc
      have hslot : k.aesdDevice.buffer.slot ((k.aesdDevice.buffer.outOffs + j) % 10) =
          entryOf b := by
        apply AesdCircularBuffer.walk_getElem?
        rw [h.walk_eq, List.getElem?_map, hb]
        rfl
      have hlookup := h.owns.lookup (List.mem_append_left _ (List.mem_of_getElem? hb))
      have hload := load_of_lookup hlookup (show o + (b.2.length - o) ≤ b.2.length by omega)
      rw [List.take_of_length_le (by simp)] at hload
      refine ⟨b.2, by rw [← h.stored_eq, List.getElem?_map]; exact hc, ho, ?_⟩
      simp only [kmallocLimit] at hcle
      have hsub : subU 64 (entryOf b).size o = b.2.length - o :=
        subU_of_le ho.le (show b.2.length < 2 ^ 64 by omega)
      have hret : wrapS 64 (b.2.length - o : ℕ) = (b.2.length - o : ℕ) := wrapS_natCast (by omega)
      have hptr : (entryOf b).buffptr = some b.1 := rfl
      simp only [Option.map_some, hslot, hsub, hptr, hload, FallibleRun.ok_bind, copyToUser,
        List.length_drop, hret, hk]
      by_cases hleft : min env.uncopied (b.2.length - o) = 0
      · rw [if_pos hleft, if_neg (not_not.mpr hleft), hleft, Nat.sub_zero,
          List.take_of_length_le (by simp)]
        rfl
      · rw [if_neg hleft, if_pos hleft]
        rfl

end Read

/-! ## One call, and runs of calls -/

/-- Everything a write can do. -/
theorem Models.aesdWrite_cases {k : Kernel} {log : Log} (h : Models k log) (env : Env)
    {buf : List UInt8} (hbuf : buf.length < 2 ^ 31) (fPos : ℤ) :
    (WriteRefused env log buf ∧ ∃ r < 0, aesdWrite env k buf fPos = .ok ⟨r, k, fPos, []⟩) ∨
      (¬ WriteRefused env log buf ∧ ∃ k', Models k' (log.write buf) ∧
        aesdWrite env k buf fPos =
          .ok ⟨buf.length, k', wrapS 64 (fPos + (log.pending ++ buf).length), []⟩) ∨
      (log.pending ++ buf = [] ∧ aesdWrite env k buf fPos = .error .outOfBounds) := by
  obtain ⟨es, cmds, pend, hlayout⟩ := h
  by_cases hrefused : WriteRefused env log buf
  · exact Or.inl ⟨hrefused, hlayout.aesdWrite_refused hbuf hrefused fPos⟩
  by_cases hne : log.pending ++ buf = []
  · obtain ⟨hpend, rfl⟩ := List.append_eq_nil_iff.mp hne
    exact Or.inr (Or.inr ⟨hne, hlayout.aesdWrite_empty hpend hrefused fPos⟩)
  · obtain ⟨k', hwrite, hmodels⟩ := hlayout.aesdWrite_accepted hbuf hne hrefused fPos
    exact Or.inr (Or.inl ⟨hrefused, k', hmodels, hwrite⟩)

theorem Models.aesdRead_cases {k : Kernel} {log : Log} (h : Models k log) (env : Env)
    (count : ℕ) (fPos : ℤ) :
    ∃ o, aesdRead env k count fPos = .ok o ∧ o.kernel = k ∧
      ((o.retval ≤ 0 ∧ o.fPos = fPos) ∨
        ∃ j c off, log.stored[j]? = some c ∧ off < c.length ∧
          (log.stored.take j).flatten.length + off = toU 64 fPos ∧ o.copied = c.drop off ∧
          o.retval = (c.length - off : ℕ) ∧ o.fPos = wrapS 64 (fPos + (c.length - off : ℕ))) := by
  obtain ⟨es, cmds, pend, hlayout⟩ := h
  cases hint : env.interrupted with
  | true =>
      have hneg : -eintr ≤ 0 := by decide
      exact ⟨⟨-eintr, k, fPos, []⟩, by simp [aesdRead, hint], rfl, Or.inl ⟨hneg, rfl⟩⟩
  | false =>
      have hread := hlayout.aesdRead_eq hint count fPos
      cases hloc : locate (log.stored.map List.length) (toU 64 fPos) with
      | none =>
          simp only [hloc] at hread
          exact ⟨_, hread, rfl, Or.inl ⟨le_rfl, rfl⟩⟩
      | some q =>
          obtain ⟨j, off⟩ := q
          simp only [hloc] at hread
          obtain ⟨c, hc, hoff, hread⟩ := hread
          obtain ⟨_, -, -, hsum, -⟩ := drop_flatten_of_locate hloc
          split at hread
          · exact ⟨_, hread, rfl, Or.inr ⟨j, c, off, hc, hoff, hsum, rfl, rfl, rfl⟩⟩
          · have hneg : -efault ≤ 0 := by decide
            exact ⟨_, hread, rfl, Or.inl ⟨hneg, rfl⟩⟩

theorem aesdIoctl_kernel (env : Env) (k : Kernel) (fPos : ℤ) (cmd : ℕ) (arg : AesdSeekto) :
    (aesdIoctl env k fPos cmd arg).kernel = k := by
  unfold aesdIoctl
  split <;> rfl

def Log.step (log : Log) : Call × Outcome → Log
  | (.write _ _ buf, o) => if 0 ≤ o.retval then log.write buf.bytes else log
  | _ => log

def logOf (trace : List (Call × Outcome)) : Log := trace.foldl Log.step Log.empty

theorem logOf_concat (trace : List (Call × Outcome)) (e : Call × Outcome) :
    logOf (trace ++ [e]) = (logOf trace).step e := by
  rw [logOf, List.foldl_append]
  rfl

def Call.NonEmpty : Call → Prop
  | .write _ _ buf => buf.bytes ≠ []
  | _ => True

/-- Only a write changes the kernel. -/
theorem Models.exec_of_not_write {k : Kernel} {log : Log} (h : Models k log) (fPos : ℤ)
    (call : Call) (hcall : ∀ fd env buf, call ≠ .write fd env buf) :
    ∃ o, call.exec k fPos = .ok o ∧ o.kernel = k := by
  cases call with
  | openFile | release | llseek => exact ⟨_, rfl, rfl⟩
  | ioctl fd env cmd arg => exact ⟨_, rfl, aesdIoctl_kernel env k fPos cmd arg⟩
  | read fd env count =>
      obtain ⟨o, hread, hk, -⟩ := h.aesdRead_cases env count fPos
      exact ⟨o, hread, hk⟩
  | write fd env buf => exact absurd rfl (hcall fd env buf)

theorem Models.exec {k : Kernel} {log : Log} (h : Models k log) (fPos : ℤ) (call : Call) :
    (∃ o, call.exec k fPos = .ok o ∧ Models o.kernel (log.step (call, o))) ∨
      (¬ call.NonEmpty ∧ ∃ fault, call.exec k fPos = .error fault) := by
  have hkeeps := h.exec_of_not_write fPos call
  cases call with
  | openFile | release | llseek | ioctl | read =>
      obtain ⟨o, hexec, hk⟩ := hkeeps (by simp)
      refine Or.inl ⟨o, hexec, ?_⟩
      rw [hk]
      exact h
  | write fd env buf =>
      rcases h.aesdWrite_cases env buf.length_lt fPos with
        ⟨-, r, hr, hwrite⟩ | ⟨-, k', hmodels, hwrite⟩ | ⟨hnil, hwrite⟩
      · refine Or.inl ⟨_, hwrite, ?_⟩
        rw [Log.step, if_neg (by simpa using hr)]
        exact h
      · refine Or.inl ⟨_, hwrite, ?_⟩
        rw [Log.step, if_pos (Int.natCast_nonneg _)]
        exact hmodels
      · exact Or.inr ⟨fun hne ↦ hne (List.append_eq_nil_iff.mp hnil).2, _, hwrite⟩

theorem System.step_eq_ok_iff {s s' : System} {call : Call} {o : Outcome} :
    s.step call = .ok (s', o) ↔ call.exec s.kernel (s.fPos call.fd) = .ok o ∧
      s' = ⟨o.kernel, Function.update s.fPos call.fd o.fPos⟩ := by
  rw [System.step, FallibleRun.bind_eq_ok_iff]
  constructor
  · rintro ⟨o', hexec, hpure⟩
    cases hpure
    exact ⟨hexec, rfl⟩
  · rintro ⟨hexec, rfl⟩
    exact ⟨o, hexec, rfl⟩

theorem Models.step {s s' : System} {log : Log} {call : Call} {o : Outcome}
    (h : Models s.kernel log) (hstep : s.step call = .ok (s', o)) :
    Models s'.kernel (log.step (call, o)) := by
  obtain ⟨hexec, rfl⟩ := System.step_eq_ok_iff.mp hstep
  rcases h.exec (s.fPos call.fd) call with ⟨o', hexec', hmodels⟩ | ⟨-, fault, hfault⟩
  · rw [hexec] at hexec'
    cases hexec'
    exact hmodels
  · rw [hexec] at hfault
    cases hfault

/-- Every run keeps the device equal to the log of its successful writes. -/
theorem run_models {s : System} {calls : List Call} {os : List Outcome}
    (h : FallibleRun.run System.step System.loaded calls = .ok (s, os)) :
    Models s.kernel (logOf (calls.zip os)) := by
  refine FallibleRun.run_trace (fun s trace ↦ Models s.kernel (logOf trace)) (fun _ ↦ True) ?_
    models_loaded (fun _ _ ↦ trivial) h
  intro s trace call s' o _ hmodels hstep
  rw [logOf_concat]
  exact hmodels.step hstep

theorem step_nonEmpty (s : System) (call : Call) (h : ∃ log, Models s.kernel log)
    (hcall : call.NonEmpty) :
    ∃ s' o, s.step call = .ok (s', o) ∧ ∃ log, Models s'.kernel log := by
  obtain ⟨log, h⟩ := h
  rcases h.exec (s.fPos call.fd) call with ⟨o, hexec, hmodels⟩ | ⟨hempty, -⟩
  · exact ⟨_, o, System.step_eq_ok_iff.mpr ⟨hexec, rfl⟩, _, hmodels⟩
  · exact absurd hcall hempty

theorem Models.run_nonEmpty {s : System} {log : Log} (h : Models s.kernel log) {calls : List Call}
    (hcalls : ∀ call ∈ calls, call.NonEmpty) :
    ∃ s' os, FallibleRun.run System.step s calls = .ok (s', os) := by
  obtain ⟨s', os, hrun, -⟩ := FallibleRun.run_total
    (fun s : System ↦ ∃ log, Models s.kernel log) step_nonEmpty ⟨log, h⟩ hcalls
  exact ⟨s', os, hrun⟩

theorem run_nonEmpty {calls : List Call} (hcalls : ∀ call ∈ calls, call.NonEmpty) :
    ∃ s os, FallibleRun.run System.step System.loaded calls = .ok (s, os) :=
  models_loaded.run_nonEmpty hcalls

theorem Models.run {s s' : System} {log : Log} (h : Models s.kernel log) {calls : List Call}
    {os : List Outcome} (hrun : FallibleRun.run System.step s calls = .ok (s', os)) :
    ∃ log', Models s'.kernel log' := by
  refine FallibleRun.run_trace (fun s _ ↦ ∃ log, Models s.kernel log) (fun _ ↦ True) ?_
    ⟨log, h⟩ (fun _ _ ↦ trivial) hrun
  rintro s _ call s' o - ⟨log, h⟩ hstep
  exact ⟨_, h.step hstep⟩

theorem System.Reachable.models {s : System} (h : s.Reachable) : ∃ log, Models s.kernel log := by
  obtain ⟨calls, os, hrun⟩ := h
  exact ⟨_, run_models hrun⟩

end Aesd
