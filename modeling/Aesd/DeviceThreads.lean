import Aesd.LockedSections
import Aesd.DriverLog

/-!
# Reads and writes of the device side by side

`aesd_read` and `aesd_write` of `main.c`, statement by statement, for any number of calls at
once.  They share the heap, the circular buffer and the partial entry, which is for some
statements a pointer to a freed block, and are kept apart by `buffer_mutex` alone.  A call that a
signal interrupts while it waits for the mutex has touched nothing and is left out.
-/

namespace Aesd
namespace DeviceThreads

open LockedSections
open MachineWord
open BlockHeap

inductive Request where
  | read (count : ℕ)
  | write (buf : UserBuf)

/-- A call that gets the mutex. -/
structure LockedCall where
  fd : ℕ
  env : Env
  request : Request
  not_interrupted : env.interrupted = false

namespace LockedCall

def call (c : LockedCall) : Call :=
  match c.request with
  | .read count => .read c.fd c.env count
  | .write buf => .write c.fd c.env buf

/-- The bytes at the address that the user passes to a write. -/
def bytes (c : LockedCall) : List UInt8 :=
  match c.request with
  | .read _ => []
  | .write buf => buf.bytes

end LockedCall

def lock (s : System) : System := { s with kernel.aesdDevice := s.kernel.aesdDevice.lock }

def unlock (s : System) : System := { s with kernel.aesdDevice := s.kernel.aesdDevice.unlock }

/-- Where a call is between the lock and the unlock, with its local variables. -/
inductive Place where
  | locked
  | searching
  | copyingOut (index entryOffset : ℕ)
  | allocating
  | copyingIn (buffptr bufferSize : ℕ)
  | discarding (buffptr : ℕ)
  | merging (buffptr bufferSize : ℕ)
  | freeingPartial (buffptr bufferSize : ℕ)
  | resetting (buffptr bufferSize : ℕ)
  | deciding (buffptr bufferSize : ℕ)
  | freeingOld (oldEntry : AesdBufferEntry) (bufferSize : ℕ)
  | advancing (retval size : ℤ) (copied : List UInt8)
  | unlocking (retval : ℤ) (copied : List UInt8)
  | returning (retval : ℤ) (copied : List UInt8)

/-- The next statement of a call; `none` when it is through.  The last statement before the
unlock adds to `*f_pos`. -/
def advance (c : LockedCall) : Place → System → Except Fault (Option (Place × System))
  | .locked, s =>
      let first := match c.request with
        | .read _ => Place.searching
        | .write _ => Place.allocating
      .ok (some (first, lock s))
  | .searching, s =>
      match aesdCircularBufferFindEntryOffsetForFpos s.kernel.aesdDevice.buffer
        (toU 64 (s.fPos c.fd)) with
      | none => .ok (some (.unlocking 0 [], s))
      | some (index, entryOffset) => .ok (some (.copyingOut index entryOffset, s))
  | .copyingOut index entryOffset, s => do
      let entry := s.kernel.aesdDevice.buffer.slot index
      let sizeOffsetted := subU 64 entry.size entryOffset
      let bytes ← load s.kernel.heap entry.buffptr entryOffset sizeOffsetted
      let (copied, left) := copyToUser c.env bytes
      return some (if left ≠ 0 then .unlocking (-efault) copied
        else .advancing (wrapS 64 sizeOffsetted) sizeOffsetted copied, s)
  | .allocating, s =>
      let bufferSize := wrapU 64 (c.bytes.length + s.kernel.aesdDevice.partialEntry.size)
      match kmalloc c.env s.kernel.heap bufferSize with
      | none => .ok (some (.unlocking (-enomem) [], s))
      | some (buffptr, heap) =>
          .ok (some (.copyingIn buffptr bufferSize, { s with kernel.heap := heap }))
  | .copyingIn buffptr bufferSize, s => do
      let (bytes, left) := copyFromUser c.env c.bytes
      let heap ← store s.kernel.heap buffptr s.kernel.aesdDevice.partialEntry.size bytes
      return some (if left ≠ 0 then .discarding buffptr else .merging buffptr bufferSize,
        { s with kernel.heap := heap })
  | .discarding buffptr, s => do
      let heap ← free s.kernel.heap (some buffptr)
      return some (.unlocking (-efault) [], { s with kernel.heap := heap })
  | .merging buffptr bufferSize, s =>
      match s.kernel.aesdDevice.partialEntry.buffptr with
      | none => .ok (some (.deciding buffptr bufferSize, s))
      | some p => do
          let bytes ← load s.kernel.heap (some p) 0 s.kernel.aesdDevice.partialEntry.size
          let heap ← store s.kernel.heap buffptr 0 bytes
          return some (.freeingPartial buffptr bufferSize, { s with kernel.heap := heap })
  | .freeingPartial buffptr bufferSize, s => do
      let heap ← free s.kernel.heap s.kernel.aesdDevice.partialEntry.buffptr
      return some (.resetting buffptr bufferSize, { s with kernel.heap := heap })
  | .resetting buffptr bufferSize, s =>
      .ok (some (.deciding buffptr bufferSize,
        { s with kernel.aesdDevice.partialEntry := ⟨none, 0⟩ }))
  | .deciding buffptr bufferSize, s => do
      let last ← load s.kernel.heap (some buffptr) (subU 64 bufferSize 1) 1
      if last = [newline] then
        let (oldEntry, buffer) :=
          aesdCircularBufferAddEntry s.kernel.aesdDevice.buffer ⟨some buffptr, bufferSize⟩
        return some (.freeingOld oldEntry bufferSize,
          { s with kernel.aesdDevice.buffer := buffer })
      else
        return some (.advancing (wrapS 64 c.bytes.length) bufferSize [],
          { s with kernel.aesdDevice.partialEntry := ⟨some buffptr, bufferSize⟩ })
  | .freeingOld oldEntry bufferSize, s => do
      let heap ← if oldEntry.buffptr.isSome then free s.kernel.heap oldEntry.buffptr
        else pure s.kernel.heap
      return some (.advancing (wrapS 64 c.bytes.length) bufferSize [],
        { s with kernel.heap := heap })
  | .advancing retval size copied, s =>
      .ok (some (.unlocking retval copied,
        { s with fPos := Function.update s.fPos c.fd (wrapS 64 (s.fPos c.fd + size)) }))
  | .unlocking retval copied, s => .ok (some (.returning retval copied, unlock s))
  | .returning _ _, _ => .ok none

variable {ι : Type}

/-- A statement that faults is not a step. -/
def program (calls : ι → LockedCall) : Program ι Place System where
  enter _ := .locked
  next i l s := (advance (calls i) l s).toOption.join
  Final l := ∃ retval copied, l = .returning retval copied

/-! ## One call alone -/

theorem next_eq_some_iff {calls : ι → LockedCall} {i : ι} {l : Place} {s : System}
    {r : Place × System} :
    (program calls).next i l s = some r ↔ advance (calls i) l s = .ok (some r) :=
  FallibleRun.toOption_join_eq_some_iff

theorem final_stops (calls : ι → LockedCall) (i : ι) (l : Place) (s : System)
    (h : (program calls).Final l) : (program calls).next i l s = none := by
  obtain ⟨retval, copied, rfl⟩ := h
  rfl

section Alone

variable {calls : ι → LockedCall} {i : ι}

end Alone

/-! ## All calls -/

variable {calls : ι → LockedCall}

end DeviceThreads
end Aesd
