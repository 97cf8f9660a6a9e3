import Aesd.CircularBuffer
import Aesd.BlockHeap
import Aesd.FallibleRun

/-!
# The char driver

`main.c`, function by function.  Kernel memory is a `BlockHeap`: `kmalloc` and
`kfree` create and retire handles, and every access of the driver to a block is
checked, so an access out of range or through a dead pointer stops the call with
a fault.  The decisions of the kernel around the driver (a signal while waiting
for the mutex, a failing allocation, user memory that cannot be copied) are the
fields of an `Env` given to each call.

A call runs to its end before the next one starts.  The accesses of
`aesd_read` and `aesd_write` to the device are inside `buffer_mutex`, which is
kept as the flag `bufferMutex`.
-/

namespace Aesd

open MachineWord
open BlockHeap

abbrev eintr : ℤ := 4
abbrev enomem : ℤ := 12
abbrev efault : ℤ := 14
abbrev einval : ℤ := 22
abbrev enotty : ℤ := 25

abbrev newline : UInt8 := 10

/-- What the kernel decides during one call.  `uncopied` bounds the bytes that
`copy_from_user` or `copy_to_user` leaves behind, and `garbage` is what a new
block contains. -/
structure Env where
  interrupted : Bool
  kmallocFails : Bool
  garbage : ℕ → UInt8
  uncopied : ℕ

def Env.calm : Env := ⟨false, false, fun _ ↦ 0, 0⟩

structure AesdDev where
  buffer : AesdCircularBuffer
  bufferMutex : Bool
  partialEntry : AesdBufferEntry
  deriving DecidableEq, Repr

def AesdDev.lock (dev : AesdDev) : AesdDev := { dev with bufferMutex := true }

def AesdDev.unlock (dev : AesdDev) : AesdDev := { dev with bufferMutex := false }

@[simp] theorem AesdDev.lock_buffer (dev : AesdDev) : dev.lock.buffer = dev.buffer := rfl

@[simp] theorem AesdDev.lock_partialEntry (dev : AesdDev) :
    dev.lock.partialEntry = dev.partialEntry := rfl

theorem AesdDev.unlock_lock {dev : AesdDev} (h : dev.bufferMutex = false) :
    dev.lock.unlock = dev := by
  cases dev
  simp_all [lock, unlock]

structure Kernel where
  heap : Heap UInt8
  aesdDevice : AesdDev

/-- The result of a call: its return value, the kernel, the file position it
leaves and the bytes it put into the caller's memory. -/
structure Outcome where
  retval : ℤ
  kernel : Kernel
  fPos : ℤ
  copied : List UInt8

/-! ## Services of the kernel -/

/-- No kernel configuration hands out more than this in one block
(`KMALLOC_MAX_SIZE`); tighter limits are failures chosen by the environment. -/
abbrev kmallocLimit : ℕ := 2 ^ 32

def kmalloc (env : Env) (heap : Heap UInt8) (size : ℕ) : Option (ℕ × Heap UInt8) :=
  if env.kmallocFails ∨ kmallocLimit < size then none
  else some (alloc heap ((List.range size).map env.garbage))

/-- The bytes that arrive and the number left uncopied; the kernel fills the
uncopied tail of the destination with zeros. -/
def copyFromUser (env : Env) (bytes : List UInt8) : List UInt8 × ℕ :=
  let left := min env.uncopied bytes.length
  (bytes.take (bytes.length - left) ++ List.replicate left 0, left)

def copyToUser (env : Env) (bytes : List UInt8) : List UInt8 × ℕ :=
  let left := min env.uncopied bytes.length
  (bytes.take (bytes.length - left), left)

/-! ## File operations

The bytes at a user's address are a list, whose length is the `count` of the
request.  A `for` loop is a function of the iterations left and of its variables. -/

/-- `aesd_read`.  The requested `count` appears nowhere in the body. -/
def aesdRead (env : Env) (k : Kernel) (_count : ℕ) (fPos : ℤ) : Except Fault Outcome :=
  if env.interrupted then .ok ⟨-eintr, k, fPos, []⟩
  else
    let dev := k.aesdDevice.lock
    match aesdCircularBufferFindEntryOffsetForFpos dev.buffer (toU 64 fPos) with
    | none => .ok ⟨0, ⟨k.heap, dev.unlock⟩, fPos, []⟩
    | some (index, entryOffset) => do
        let entry := dev.buffer.slot index
        let sizeOffsetted := subU 64 entry.size entryOffset
        let bytes ← load k.heap entry.buffptr entryOffset sizeOffsetted
        let (copied, left) := copyToUser env bytes
        if left ≠ 0 then
          return ⟨-efault, ⟨k.heap, dev.unlock⟩, fPos, copied⟩
        else
          return ⟨wrapS 64 sizeOffsetted, ⟨k.heap, dev.unlock⟩,
            wrapS 64 (fPos + sizeOffsetted), copied⟩

/-- The part of `aesd_write` that moves a pending partial entry into the start
of the new block. -/
def consumePartial (heap : Heap UInt8) (partialEntry : AesdBufferEntry) (buffptr : ℕ) :
    Except Fault (Heap UInt8 × AesdBufferEntry) :=
  match partialEntry.buffptr with
  | none => .ok (heap, partialEntry)
  | some p => do
      let bytes ← load heap (some p) 0 partialEntry.size
      let heap ← store heap buffptr 0 bytes
      let heap ← free heap (some p)
      return (heap, ⟨none, 0⟩)

/-- The part of `aesd_write` that decides by the last byte whether the new block
is a command for the circular buffer or the next partial entry. -/
def commitOrKeep (heap : Heap UInt8) (dev : AesdDev) (entry : AesdBufferEntry) :
    Except Fault (Heap UInt8 × AesdDev) := do
  let last ← load heap entry.buffptr (subU 64 entry.size 1) 1
  if last = [newline] then
    let (oldEntry, buffer) := aesdCircularBufferAddEntry dev.buffer entry
    let heap ← if oldEntry.buffptr.isSome then free heap oldEntry.buffptr else pure heap
    return (heap, { dev with buffer })
  else
    return (heap, { dev with partialEntry := entry })

def aesdWrite (env : Env) (k : Kernel) (buf : List UInt8) (fPos : ℤ) : Except Fault Outcome :=
  if env.interrupted then .ok ⟨-eintr, k, fPos, []⟩
  else
    let dev := k.aesdDevice.lock
    let bufferSize := wrapU 64 (buf.length + dev.partialEntry.size)
    match kmalloc env k.heap bufferSize with
    | none => .ok ⟨-enomem, ⟨k.heap, dev.unlock⟩, fPos, []⟩
    | some (buffptr, heap) => do
        let (bytes, left) := copyFromUser env buf
        let heap ← store heap buffptr dev.partialEntry.size bytes
        if left ≠ 0 then
          let heap ← free heap (some buffptr)
          return ⟨-efault, ⟨heap, dev.unlock⟩, fPos, []⟩
        else
          let (heap, partialEntry) ← consumePartial heap dev.partialEntry buffptr
          let (heap, dev) ←
            commitOrKeep heap { dev with partialEntry } ⟨some buffptr, bufferSize⟩
          return ⟨wrapS 64 buf.length, ⟨heap, dev.unlock⟩, wrapS 64 (fPos + bufferSize), []⟩

def aesdLlseek (k : Kernel) (fPos off whence : ℤ) : ℤ × ℤ :=
  let place (newpos : ℤ) : ℤ × ℤ := if newpos < 0 then (-einval, fPos) else (newpos, newpos)
  if whence = 0 then place off
  else if whence = 1 then place (wrapS 64 (fPos + off))
  else if whence = 2 then
    let _newpos := wrapS 64 (k.aesdDevice.buffer.size + off)
    (-einval, fPos)
  else (-einval, fPos)

structure AesdSeekto where
  writeCmd : UInt32
  writeCmdOffset : UInt32
  deriving DecidableEq, Repr

def wordBytes (w : UInt32) : List UInt8 :=
  [UInt8.ofNat w.toNat, UInt8.ofNat (w.toNat / 2 ^ 8), UInt8.ofNat (w.toNat / 2 ^ 16),
    UInt8.ofNat (w.toNat / 2 ^ 24)]

def wordOfBytes (bytes : List UInt8) : UInt32 :=
  UInt32.ofNat (bytes.foldr (fun b acc ↦ b.toNat + 2 ^ 8 * acc) 0)

def AesdSeekto.toBytes (arg : AesdSeekto) : List UInt8 :=
  wordBytes arg.writeCmd ++ wordBytes arg.writeCmdOffset

def AesdSeekto.ofBytes (bytes : List UInt8) : AesdSeekto :=
  ⟨wordOfBytes (bytes.take 4), wordOfBytes ((bytes.drop 4).take 4)⟩

def aesdcharIocseekto : ℕ :=
  -- `_IOWR(0x16, 1, struct aesd_seekto)`
  0xC0081601

def seektoLoop (buffer : AesdCircularBuffer) (writeCmd : ℕ) : ℕ → ℕ → ℤ → ℤ
  | 0, _, offset => offset
  | left + 1, index, offset =>
      if index = writeCmd then offset
      else seektoLoop buffer writeCmd left (index + 1)
        (wrapS 64 (offset + (buffer.slot index).size))

/-- `aesd_ioctl`; `arg` is what the user's `struct aesd_seekto` contains.  The
result of `copy_from_user` is not looked at. -/
def aesdIoctl (env : Env) (k : Kernel) (fPos : ℤ) (cmd : ℕ) (arg : AesdSeekto) : Outcome :=
  if cmd = aesdcharIocseekto then
    let seektoArg := AesdSeekto.ofBytes (copyFromUser env arg.toBytes).1
    let offset := seektoLoop k.aesdDevice.buffer seektoArg.writeCmd.toNat
      maxWriteOperationsSupported 0 0
    let offset := wrapS 64 (offset + seektoArg.writeCmdOffset.toNat)
    let (newpos, fPos) := aesdLlseek k fPos offset 1
    ⟨wrapS 32 newpos, k, fPos, []⟩
  else ⟨-enotty, k, fPos, []⟩

/-! ## Loading and unloading -/

structure Module where
  kernel : Kernel
  chrdevRegion : Bool
  cdev : Bool

def aesdInitModule (allocChrdevRegion cdevAdd : ℤ) (m : Module) : ℤ × Module :=
  if allocChrdevRegion < 0 then (allocChrdevRegion, m)
  else
    let zeroed : AesdCircularBuffer := ⟨Vector.replicate _ AesdBufferEntry.zero, 0, 0, false, 0⟩
    let dev : AesdDev := ⟨aesdCircularBufferInit zeroed, false, AesdBufferEntry.zero⟩
    let kernel : Kernel := ⟨m.kernel.heap, dev⟩
    if cdevAdd ≠ 0 then (cdevAdd, ⟨kernel, false, false⟩)
    else (cdevAdd, ⟨kernel, true, true⟩)

def freeLoop (buffer : AesdCircularBuffer) : ℕ → ℕ → Heap UInt8 → Except Fault (Heap UInt8)
  | 0, _, heap => .ok heap
  | left + 1, index, heap => do
      let heap ← free heap (buffer.slot index).buffptr
      freeLoop buffer left (index + 1) heap

/-- `aesd_cleanup_module`, from the moment its lock loop got the mutex. -/
def aesdCleanupModule (m : Module) : Except Fault Module := do
  let dev := m.kernel.aesdDevice.lock
  let heap ← freeLoop dev.buffer maxWriteOperationsSupported 0 m.kernel.heap
  return ⟨⟨heap, dev.unlock⟩, false, false⟩

/-! ## Runs of calls through any number of open files -/

/-- The bytes of a request as the VFS passes it on: never more than
`MAX_RW_COUNT`, which is below `2 ^ 31`. -/
structure UserBuf where
  bytes : List UInt8
  length_lt : bytes.length < 2 ^ 31

/-- The given bytes, where they are few enough for one request. -/
def UserBuf.ofList (bytes : List UInt8) : UserBuf :=
  if h : bytes.length < 2 ^ 31 then ⟨bytes, h⟩ else ⟨[], by decide⟩

inductive Call where
  | openFile (fd : ℕ)
  | read (fd : ℕ) (env : Env) (count : ℕ)
  | write (fd : ℕ) (env : Env) (buf : UserBuf)
  | llseek (fd : ℕ) (off : Int64) (whence : Int32)
  | ioctl (fd : ℕ) (env : Env) (cmd : ℕ) (arg : AesdSeekto)
  | release (fd : ℕ)

structure System where
  kernel : Kernel
  fPos : ℕ → ℤ

def Call.fd : Call → ℕ
  | openFile fd | read fd .. | write fd .. | llseek fd .. | ioctl fd .. | release fd => fd

def Call.exec (k : Kernel) (fPos : ℤ) : Call → Except Fault Outcome
  | openFile _ => .ok ⟨0, k, 0, []⟩
  | read _ env count => aesdRead env k count fPos
  | write _ env buf => aesdWrite env k buf.bytes fPos
  | llseek _ off whence =>
      let (retval, fPos) := aesdLlseek k fPos off.toInt whence.toInt
      .ok ⟨retval, k, fPos, []⟩
  | ioctl _ env cmd arg => .ok (aesdIoctl env k fPos cmd arg)
  | release _ => .ok ⟨0, k, fPos, []⟩

def System.step (s : System) (call : Call) : Except Fault (System × Outcome) := do
  let o ← call.exec s.kernel (s.fPos call.fd)
  return (⟨o.kernel, Function.update s.fPos call.fd o.fPos⟩, o)

def System.loaded : System :=
  ⟨(aesdInitModule 0 0 ⟨⟨∅, ⟨⟨Vector.replicate _ AesdBufferEntry.zero, 0, 0, false, 0⟩, false,
    AesdBufferEntry.zero⟩⟩, false, false⟩).2.kernel, fun _ ↦ 0⟩

def System.Reachable (s : System) : Prop := FallibleRun.Reachable System.step System.loaded s

/-- The system after the given calls; a run that faults counts as not started. -/
def System.after (calls : List Call) : System :=
  match FallibleRun.run System.step System.loaded calls with
  | .ok (s, _) => s
  | .error _ => System.loaded

theorem System.reachable_after (calls : List Call) : (System.after calls).Reachable := by
  unfold System.after
  split
  · next s os hrun => exact ⟨calls, os, hrun⟩
  · exact ⟨[], [], rfl⟩

/-! ## What a state stores -/

namespace Kernel

def bytesOf (k : Kernel) (e : AesdBufferEntry) : List UInt8 :=
  ((e.buffptr.bind k.heap.lookup).getD []).take e.size

def storedCommands (k : Kernel) : List (List UInt8) := k.aesdDevice.buffer.walk.map k.bytesOf

def content (k : Kernel) : List UInt8 := k.storedCommands.flatten

def ownedHandles (k : Kernel) : List ℕ :=
  (k.aesdDevice.buffer.walk ++ [k.aesdDevice.partialEntry]).filterMap AesdBufferEntry.buffptr

end Kernel

end Aesd
