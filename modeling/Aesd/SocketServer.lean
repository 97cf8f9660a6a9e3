import Aesd.DeviceStream
import Aesd.CString

/-!
# The socket server

`thread_work` of `aesdsocket.c` with `recv_to_file` and `send_file`.  A connection
is served from `pthread_mutex_lock` to `pthread_mutex_unlock` without another one
in between, so the server takes its connections one by one, in the order in which
their threads get the mutex.  What lives on between them is the device and the
global `seekto_arg`.
-/

namespace Aesd

open MachineWord
open CString

abbrev maxDataSize : ℕ := 1024

def command : List UInt8 :=
  ['A', 'E', 'S', 'D', 'C', 'H', 'A', 'R', '_', 'I', 'O', 'C', 'S', 'E', 'E', 'K', 'T', 'O',
    ':'].map fun c ↦ UInt8.ofNat c.toNat

inductive Recv where
  | failed
  | got (bytes : List UInt8) (length_le : bytes.length ≤ maxDataSize)

namespace Recv

def bytesRecv : Recv → ℤ
  | failed => -1
  | got bytes _ => bytes.length

def into (mem : List UInt8) : Recv → List UInt8
  | failed => mem
  | got bytes _ => bytes ++ mem.drop bytes.length

end Recv

/-- What one connection meets: the results of its `recv` calls (the peer has closed
when they are used up), what `malloc` left in and behind the receive buffer, the
decisions of the kernel, whether `fopen` fails, and what `send` returns at the
`i`-th call for a given length. -/
structure Connection where
  recvs : List Recv
  memory : List UInt8
  length_memory : maxDataSize ≤ memory.length
  env : Env
  fopenFails : Bool
  send : ℕ → ℕ → ℤ

structure RecvState where
  mem : List UInt8
  fptr : FILE
  seektoArg : Option AesdSeekto
  deriving DecidableEq, Repr

/-- The body of the loop of `recv_to_file`. -/
def recvOnce (st : RecvState) (r : Recv) : Except Stop RecvState :=
  let mem := r.into st.mem
  if strncmp mem command command.length = 0 then
    let (writeCmd, endPtr) := strtoul (mem.drop command.length)
    let (writeCmdOffset, _) := strtoul (endPtr.drop 1)
    .ok ⟨mem, st.fptr, some ⟨UInt32.ofNat writeCmd, UInt32.ofNat writeCmdOffset⟩⟩
  else do
    -- `bytes_recv` becomes a `size_t` here
    let fptr ← st.fptr.fwrite mem (toU 64 r.bytesRecv)
    return ⟨mem, fptr, st.seektoArg⟩

def recvToFile (st : RecvState) : List Recv → Except Stop RecvState
  | [] => recvOnce st (.got [] (by decide))
  | r :: rs => do
      let st ← recvOnce st r
      if r.bytesRecv = maxDataSize then recvToFile st rs else return st

/-- The loop of `send_file`, given the rounds it may take and the number of `send`
calls made; the result starts with the bytes the peer gets. -/
def sendLoop (env : Env) (send : ℕ → ℕ → ℤ) :
    ℕ → ℕ → Kernel → FILE → Except Stop (List UInt8 × Kernel × FILE)
  | 0, _, _, _ => .error .outOfFuel
  | fuel + 1, i, k, fptr => do
      let (sendbuffer, k, fptr) ← fptr.fread env k 124
      if sendbuffer = [] then return ([], k, fptr)
      else
        let (reply, k, fptr) ← sendLoop env send fuel (i + 1) k fptr
        return (sendbuffer.take (send i sendbuffer.length).toNat ++ reply, k, fptr)

/-- The kernel cannot copy from a null pointer; it can from one of `malloc`. -/
def ioctlEnv (env : Env) : Option AesdSeekto → Env
  | none => { env with uncopied := 8 }
  | some _ => env

/-- `send_file`: the bytes the peer gets, the kernel, `fptr` and `seekto_arg`. -/
def sendFile (fuel : ℕ) (env : Env) (send : ℕ → ℕ → ℤ) (k : Kernel) (fptr : FILE)
    (seektoArg : Option AesdSeekto) :
    Except Stop (List UInt8 × Kernel × FILE × Option AesdSeekto) := do
  let (_, k, fptr) ← fptr.fseek env k 0
  let o := aesdIoctl (ioctlEnv env seektoArg) k fptr.fPos aesdcharIocseekto
    (seektoArg.getD ⟨0, 0⟩)
  let (reply, k, fptr) ← sendLoop env send fuel 0 o.kernel { fptr with fPos := o.fPos }
  return (reply, k, fptr, none)

structure Server where
  kernel : Kernel
  seektoArg : Option AesdSeekto

def threadWork (fuel : ℕ) (server : Server) (conn : Connection) :
    Except Stop (Server × List UInt8) :=
  if conn.fopenFails then .error (.exit 1)
  else do
    let st ← recvToFile ⟨conn.memory, FILE.fopen, server.seektoArg⟩ conn.recvs
    let (reply, k, fptr, seektoArg) ←
      sendFile fuel conn.env conn.send server.kernel st.fptr st.seektoArg
    let k ← fptr.fclose conn.env k
    return (⟨k, seektoArg⟩, reply)

def Server.started : Server := ⟨System.loaded.kernel, none⟩

def serve (fuel : ℕ) (conns : List Connection) : Except Stop (Server × List (List UInt8)) :=
  FallibleRun.run (threadWork fuel) Server.started conns

end Aesd
