import Aesd.DriverLog

/-!
# Who owns the write buffers

Between calls the live blocks are those the device points to, each of them once.
Unloading the module frees the blocks in the ring; a block that is still waiting
for its newline is forgotten.
-/

namespace Aesd

open BlockHeap

structure Kernel.OwnsExactly (k : Kernel) : Prop where
  live : k.heap.keys.Perm k.ownedHandles
  distinct : k.ownedHandles.Nodup
  partial_size : k.aesdDevice.partialEntry.buffptr = none → k.aesdDevice.partialEntry.size = 0

theorem Models.ownsExactly {k : Kernel} {log : Log} (h : Models k log) : k.OwnsExactly := by
  obtain ⟨es, cmds, pend, hlayout⟩ := h
  have hlive : k.heap.keys.Perm k.ownedHandles := by
    rw [hlayout.ownedHandles_eq]
    exact hlayout.owns.keys_perm
  refine ⟨hlive, hlive.nodup_iff.mp k.heap.nodupKeys, ?_⟩
  intro hnull
  rw [hlayout.partialEntry_size, hlayout.partialEntry_buffptr_eq_none_iff.mp hnull]
  rfl

/-- Without empty writes, and whatever fails along the way, no call frees a
handle that is not live, and between calls exactly the handles that the device
points to are live. -/
theorem run_ownsExactly (calls : List Call) (hcalls : ∀ call ∈ calls, call.NonEmpty) :
    ∃ s os, FallibleRun.run System.step System.loaded calls = .ok (s, os) ∧
      s.kernel.OwnsExactly := by
  obtain ⟨s, os, hrun⟩ := run_nonEmpty hcalls
  exact ⟨s, os, hrun, (run_models hrun).ownsExactly⟩

theorem run_ownsExactly_failures :
    ∃ s os, FallibleRun.run System.step System.loaded
        [.write 0 .calm ⟨[97], by decide⟩,
          .write 1 { Env.calm with kmallocFails := true } ⟨[98, 10], by decide⟩,
          .write 1 { Env.calm with uncopied := 1 } ⟨[98, 10], by decide⟩, .read 0 .calm 5] =
        .ok (s, os) ∧ s.kernel.OwnsExactly :=
  run_ownsExactly _ (by simp [Call.NonEmpty])

/-! ## Unloading -/

theorem freeLoop_eq_freeAll (buffer : AesdCircularBuffer) (left index : ℕ) (heap : Heap UInt8) :
    freeLoop buffer left index heap =
      freeAll heap ((List.range' index left).map fun i ↦ (buffer.slot i).buffptr) := by
  induction left generalizing index heap with
  | zero => rfl
  | succ left ih =>
      rw [freeLoop, List.range'_succ, List.map_cons, freeAll]
      congr 1
      funext heap'
      exact ih (index + 1) heap'

theorem Models.aesdCleanupModule {k : Kernel} {log : Log} (h : Models k log)
    (chrdevRegion cdev : Bool) :
    ∃ m, aesdCleanupModule ⟨k, chrdevRegion, cdev⟩ = .ok m ∧
      m.kernel.heap.keys = k.aesdDevice.partialEntry.buffptr.toList := by
  obtain ⟨es, cmds, pend, hlayout⟩ := h
  have hslots : ((k.aesdDevice.buffer.slots.map AesdBufferEntry.buffptr).filterMap id).Perm
      (cmds.map Prod.fst) := by
    have hperm := hlayout.holds.slots_perm.filterMap AesdBufferEntry.buffptr
    rw [hlayout.walk_eq, List.filterMap_append, filterMap_buffptr_entryOf] at hperm
    simpa [List.filterMap_map, AesdBufferEntry.zero, List.filterMap_replicate] using hperm
  obtain ⟨heap, hfree, hkept⟩ := hlayout.owns.freeAll hslots
  rw [AesdCircularBuffer.slots, List.map_map, List.range_eq_range'] at hfree
  refine ⟨⟨⟨heap, k.aesdDevice.lock.unlock⟩, false, false⟩, ?_, ?_⟩
  · rw [Aesd.aesdCleanupModule, freeLoop_eq_freeAll]
    exact congrArg (· >>= _) hfree
  · have hkeys := hkept.keys_perm
    rw [hlayout.partial_eq]
    cases pend with
    | none => exact List.perm_nil.mp hkeys
    | some b => exact List.perm_singleton.mp hkeys

def Kernel.ReleasedByCleanup (k : Kernel) : Prop :=
  ∃ m, aesdCleanupModule ⟨k, true, true⟩ = .ok m ∧ m.kernel.heap.keys = []

/-- Unloading releases everything exactly when no partial entry is pending. -/
theorem releasedByCleanup_iff (s : System) (hs : s.Reachable) :
    s.kernel.ReleasedByCleanup ↔ s.kernel.aesdDevice.partialEntry.buffptr = none := by
  obtain ⟨log, hmodels⟩ := hs.models
  obtain ⟨m, hcleanup, hkeys⟩ := hmodels.aesdCleanupModule true true
  have hreleased : s.kernel.ReleasedByCleanup ↔ m.kernel.heap.keys = [] := by
    constructor
    · rintro ⟨m', hcleanup', hnone⟩
      rw [hcleanup] at hcleanup'
      cases hcleanup'
      exact hnone
    · exact fun hnone ↦ ⟨m, hcleanup, hnone⟩
  rw [hreleased, hkeys, Option.toList_eq_nil_iff]

theorem releasedByCleanup_finished :
    (System.after [.write 0 .calm ⟨[97], by decide⟩,
      .write 0 .calm ⟨[98, 10], by decide⟩]).kernel.ReleasedByCleanup :=
  (releasedByCleanup_iff _ (System.reachable_after _)).mpr (by decide)

def unfinished : System :=
  System.after [.write 0 .calm (.ofList [97, 10]), .write 0 .calm (.ofList [98])]

/-- The block of an unfinished command outlives the module. -/
theorem not_releasedByCleanup_unfinished : ¬ unfinished.kernel.ReleasedByCleanup := by
  rintro ⟨m, hcleanup, hkeys⟩
  have hlive : (aesdCleanupModule ⟨unfinished.kernel, true, true⟩).toOption.map
      (fun m ↦ m.kernel.heap.keys) = some [2] := by
    decide
  rw [hcleanup] at hlive
  simp [Except.toOption, hkeys] at hlive

end Aesd
