import Aesd.ReceiveBuffer
import Aesd.ConnectionThreads
import Aesd.UnlockedSeek

/-!
# The server as a log service

What the server is for: every connection appends the bytes it sends to a log of commands
and is answered with the last ten commands, from a position that it may choose.  The
server with its threads, its stream and the driver does just that for connections of any
shape, as long as neither what one of them writes nor a stored command is larger than the
buffer of the stream.
-/

namespace Aesd

open BoundedRing

namespace Log

/-- Where a reply starts in what is stored. -/
def replyStart (log : Log) : Option AesdSeekto → ℕ
  | none => 0
  | some arg =>
      (((List.range 10).map log.slotCommand).take arg.writeCmd.toNat).flatten.length +
        arg.writeCmdOffset.toNat

def append (log : Log) (payload : List UInt8) : Log :=
  if payload = [] then log else log.write payload

def answer (log : Log) (payload : List UInt8) (arg : Option AesdSeekto) : Log × List UInt8 :=
  (log.append payload,
    (log.append payload).stored.flatten.drop ((log.append payload).replyStart arg))

/-- The log can take the payload: it fits the buffer of the stream and so leaves it in one
request, the kernel has a block for it, and the stored commands fit the buffer as well. -/
structure Admits (log : Log) (payload : List UInt8) : Prop where
  request : payload.length ≤ stdioBufferSize
  block : (log.pending ++ payload).length ≤ kmallocLimit
  buffer : ∀ c ∈ (log.append payload).stored, c.length ≤ stdioBufferSize

/-- The service, one input after the other. -/
def serve : Log → List (List UInt8 × Option AesdSeekto) → Log × List (List UInt8)
  | log, [] => (log, [])
  | log, (payload, arg) :: inputs =>
      let (log, reply) := log.answer payload arg
      let (log, replies) := serve log inputs
      (log, reply :: replies)

def AdmitsAll : Log → List (List UInt8 × Option AesdSeekto) → Prop
  | _, [] => True
  | log, (payload, _) :: inputs => log.Admits payload ∧ (log.append payload).AdmitsAll inputs

end Log

/-! ## What a connection says -/

/-- The bytes that a connection writes and the argument it leaves, by what the receive
buffer starts with after each chunk. -/
def takenIn : List UInt8 → Option AesdSeekto → List Chunk → List UInt8 × Option AesdSeekto
  | mem, arg, [] => ([], if command <+: mem then some (seektoOf mem) else arg)
  | mem, arg, c :: cs =>
      let mem := c.onto mem
      let said := if command <+: mem then ([], some (seektoOf mem)) else (c.bytes, arg)
      if c.bytes.length = maxDataSize then
        let rest := takenIn mem said.2 cs
        (said.1 ++ rest.1, rest.2)
      else said

theorem recvToFile_takenIn (mem : List UInt8) (fptr : FILE) (arg : Option AesdSeekto)
    (chunks : List Chunk) :
    ∃ st pieces, recvToFile ⟨mem, fptr, arg⟩ (chunks.map Chunk.recv) = .ok st ∧
      st.fptr = { fptr with pending := fptr.pending ++ pieces } ∧
      pieces.flatten = (takenIn mem arg chunks).1 ∧
      st.seektoArg = (takenIn mem arg chunks).2 := by
  induction chunks generalizing mem fptr arg with
  | nil =>
      have hclosed : Chunk.closed.onto mem = mem := rfl
      have honce := recvOnce_chunk ⟨mem, fptr, arg⟩ Chunk.closed
      rw [hclosed] at honce
      by_cases h : command <+: mem
      · refine ⟨_, [], honce, ?_⟩
        simp [h, takenIn]
      · refine ⟨_, [[]], honce, ?_⟩
        simp [h, takenIn, Chunk.closed]
  | cons c cs ih =>
      have honce := recvOnce_chunk ⟨mem, fptr, arg⟩ c
      rw [List.map_cons, recvToFile_chunk_cons, honce, FallibleRun.ok_bind]
      by_cases h : command <+: c.onto mem <;> by_cases hfull : c.bytes.length = maxDataSize
      · obtain ⟨st, pieces, hrecv, hfptr, hpieces, harg⟩ :=
          ih (c.onto mem) fptr (some (seektoOf (c.onto mem)))
        simp only [h, hfull, if_true, takenIn]
        exact ⟨st, pieces, hrecv, hfptr, hpieces, harg⟩
      · simp only [h, hfull, if_true, if_false, takenIn]
        exact ⟨_, [], rfl, by simp⟩
      · obtain ⟨st, pieces, hrecv, hfptr, hpieces, harg⟩ :=
          ih (c.onto mem) { fptr with pending := fptr.pending ++ [c.bytes] } arg
        simp only [h, hfull, if_true, if_false, takenIn]
        refine ⟨st, c.bytes :: pieces, hrecv, ?_, ?_, harg⟩
        · rw [hfptr]
          simp
        · rw [List.flatten_cons, hpieces]
      · simp only [h, hfull, if_false, takenIn]
        exact ⟨_, [c.bytes], rfl, by simp⟩

def chunksOf : List Recv → List Chunk
  | [] => []
  | .failed :: rs => chunksOf rs
  | .got bytes hle :: rs => ⟨bytes, hle⟩ :: chunksOf rs

theorem map_recv_chunksOf {recvs : List Recv} (h : ∀ r ∈ recvs, r ≠ .failed) :
    (chunksOf recvs).map Chunk.recv = recvs := by
  induction recvs with
  | nil => rfl
  | cons r rs ih =>
      have hrest := ih fun r hr ↦ h r (List.mem_cons_of_mem _ hr)
      cases r with
      | failed => exact absurd rfl (h .failed List.mem_cons_self)
      | got bytes hle =>
          rw [chunksOf, List.map_cons, hrest]
          rfl

/-- A connection without failures; what it writes may still be anything. -/
structure Connection.Clean (conn : Connection) : Prop extends conn.Quiet where
  received : ∀ r ∈ conn.recvs, r ≠ .failed

/-- What the connection writes and the argument it leaves. -/
def Connection.input (conn : Connection) : List UInt8 × Option AesdSeekto :=
  takenIn conn.memory none (chunksOf conn.recvs)

/-! ## One connection -/

theorem Models.replyStart_eq {k : Kernel} {log : Log} (h : Models k log)
    (arg : Option AesdSeekto) : k.replyStart arg = log.replyStart arg := by
  obtain ⟨_, _, _, hlayout⟩ := h
  cases arg with
  | none => rfl
  | some arg =>
      show k.seekDistance arg = _
      rw [Kernel.seekDistance, hlayout.slotCommands_eq]
      rfl

/-- The rounds in which the read loop gets through ten commands that fit the buffer. -/
abbrev enoughReads : ℕ := 10 * stdioBufferSize

/-- Flushing and rewinding the stream of a connection appends what it wrote. -/
theorem FILE.fseek_of_admits {env : Env} {k : Kernel} {log : Log} (h : Models k log) (file : FILE)
    (henv : env.Undisturbed) (hkmalloc : env.kmallocFails = false)
    (hadmits : log.Admits file.pending.flatten) :
    ∃ k', fseek env k file 0 = .ok (0, k', ⟨0, [], [], false⟩) ∧
      Models k' (log.append file.pending.flatten) := by
  by_cases hnil : file.pending.flatten = []
  · refine ⟨k, fseek_of_flatten_eq_nil env k hnil, ?_⟩
    rw [Log.append, if_pos hnil]
    exact h
  · have haccepted : ¬ WriteRefused env log file.pending.flatten := by
      simp only [WriteRefused, henv.1, hkmalloc, henv.2, Nat.zero_min, not_lt.mpr hadmits.block]
      simp
    rw [Log.append, if_neg hnil]
    exact fseek_of_accepted h file hnil (hadmits.request.trans_lt (by decide)) haccepted

theorem Models.fits {k : Kernel} {log : Log} (h : Models k log)
    (hfits : ∀ c ∈ log.stored, c.length ≤ stdioBufferSize) :
    FILE.FitsBuffer k ∧ k.content.length ≤ enoughReads := by
  have hstored := h.storedCommands_eq
  refine ⟨by rwa [FILE.FitsBuffer, hstored], ?_⟩
  rw [Kernel.content, hstored]
  exact length_flatten_rtake_le hfits

/-- The server does for one connection what the log service does. -/
theorem threadWork_answers {server : Server} {log : Log} (h : Models server.kernel log)
    (harg : server.seektoArg = none) {conn : Connection} (hconn : conn.Clean)
    (hadmits : log.Admits conn.input.1) {fuel : ℕ} (hfuel : enoughReads < fuel) :
    ∃ server', threadWork fuel server conn =
        .ok (server', (log.answer conn.input.1 conn.input.2).2) ∧
      Models server'.kernel (log.append conn.input.1) ∧ server'.seektoArg = none := by
  obtain ⟨st, pieces, hrecv, hfptr, hpieces, hstArg⟩ :=
    recvToFile_takenIn conn.memory FILE.fopen none (chunksOf conn.recvs)
  have hpending : st.fptr.pending.flatten = conn.input.1 := by
    rw [hfptr]
    exact hpieces
  rw [map_recv_chunksOf hconn.received, ← harg] at hrecv
  obtain ⟨k', hseek, hmodels⟩ := FILE.fseek_of_admits h st.fptr hconn.undisturbed hconn.kmalloc
    (by rwa [hpending])
  rw [hpending] at hmodels
  obtain ⟨hfits, hlength⟩ := hmodels.fits hadmits.buffer
  obtain ⟨r, hsend⟩ := sendFile_of_fseek hconn.undisturbed hconn.sends hseek hmodels
    hfits (hlength.trans_lt hfuel) st.seektoArg
  refine ⟨⟨k', none⟩, ?_, hmodels, rfl⟩
  rw [threadWork, hconn.opens]
  simp only [Bool.false_eq_true, if_false, hrecv, FallibleRun.ok_bind, hsend, FILE.fclose_ofReader]
  rw [hmodels.replyStart_eq, Kernel.content, hmodels.storedCommands_eq, hstArg]
  rfl

/-! ## All connections -/

theorem run_answers {server : Server} {log : Log} (h : Models server.kernel log)
    (harg : server.seektoArg = none) {conns : List Connection}
    (hconns : ∀ conn ∈ conns, conn.Clean) (hadmits : log.AdmitsAll (conns.map Connection.input))
    {fuel : ℕ} (hfuel : enoughReads < fuel) :
    ∃ server', FallibleRun.run (threadWork fuel) server conns =
        .ok (server', (log.serve (conns.map Connection.input)).2) ∧
      Models server'.kernel (log.serve (conns.map Connection.input)).1 ∧
      server'.seektoArg = none := by
  induction conns generalizing server log with
  | nil => exact ⟨server, rfl, h, harg⟩
  | cons conn conns ih =>
      obtain ⟨mid, hwork, hmid, hmidArg⟩ := threadWork_answers h harg
        (hconns conn List.mem_cons_self) hadmits.1 hfuel
      obtain ⟨server', hrun, hmodels, harg'⟩ := ih hmid hmidArg
        (fun c hc ↦ hconns c (List.mem_cons_of_mem _ hc)) hadmits.2
      exact ⟨server', FallibleRun.run_cons_eq_ok.mpr ⟨mid, _, _, hwork, hrun, rfl⟩, hmodels, harg'⟩

/-- The server over the driver is the log service: for connections of any shape that the log
admits it stores what they write and answers them as the service does. -/
theorem serve_refines_log (conns : List Connection) (hconns : ∀ conn ∈ conns, conn.Clean)
    (hadmits : Log.empty.AdmitsAll (conns.map Connection.input)) (fuel : ℕ)
    (hfuel : enoughReads < fuel) :
    ∃ server, serve fuel conns =
        .ok (server, (Log.empty.serve (conns.map Connection.input)).2) ∧
      server.kernel.storedCommands = (Log.empty.serve (conns.map Connection.input)).1.stored ∧
      server.kernel.bytesOf server.kernel.aesdDevice.partialEntry =
        (Log.empty.serve (conns.map Connection.input)).1.pending ∧
      server.seektoArg = none := by
  have hstarted : Models Server.started.kernel Log.empty := models_loaded
  obtain ⟨server, hrun, hmodels, harg⟩ := run_answers hstarted rfl hconns hadmits hfuel
  refine ⟨server, hrun, hmodels.storedCommands_eq, ?_, harg⟩
  obtain ⟨_, _, _, hlayout⟩ := hmodels
  exact hlayout.partialBytes_eq

/-- A message that is no command, however it ends, is written as it is. -/
theorem input_client {message : List UInt8} (hle : message.length ≤ maxDataSize)
    (hshort : message.length ≠ maxDataSize)
    (hnot : ¬ command <+: message ++ (List.replicate maxDataSize 0).drop message.length) :
    (client message hle).input = (message, none) := by
  have hnot' : ¬ command <+: Chunk.onto ⟨message, hle⟩ (List.replicate maxDataSize 0) := hnot
  simp only [Connection.input, client, chunksOf, takenIn, if_neg hnot', if_neg hshort]

theorem client_clean {message : List UInt8} (hle : message.length ≤ maxDataSize) :
    (client message hle).Clean :=
  ⟨client_quiet message hle, by simp [client]⟩

theorem not_starts_command {b : UInt8} (hb : 65 ≠ b) (rest : List UInt8) :
    ¬ command <+: b :: rest := by
  intro hpref
  exact hb (List.cons_prefix_cons.mp hpref).1

/-- `a` without a newline, then `b` with one. -/
def splitLine : List Connection :=
  [client [97] (Nat.le_of_ble_eq_true rfl), client [98, 10] (Nat.le_of_ble_eq_true rfl)]

theorem splitLine_input : splitLine.map Connection.input = [([97], none), ([98, 10], none)] := by
  rw [splitLine, List.map_cons, List.map_singleton,
    input_client _ (by decide) (not_starts_command (by decide) _),
    input_client _ (by decide) (not_starts_command (by decide) _)]

theorem serve_refines_log_splitLine :
    ∃ server, serve (enoughReads + 1) splitLine = .ok (server, [[], [97, 98, 10]]) ∧
      server.kernel.storedCommands = [[97, 98, 10]] := by
  have hclean : ∀ conn ∈ splitLine, conn.Clean := by
    intro conn hconn
    simp only [splitLine, List.mem_cons, List.not_mem_nil, or_false] at hconn
    rcases hconn with rfl | rfl
    · exact client_clean _
    · exact client_clean _
  have hadmits : Log.empty.AdmitsAll (splitLine.map Connection.input) := by
    rw [splitLine_input]
    exact ⟨⟨by decide, by decide, by decide⟩, ⟨by decide, by decide, by decide⟩, trivial⟩
  obtain ⟨server, hserve, hstored, -, -⟩ :=
    serve_refines_log splitLine hclean hadmits (enoughReads + 1) (Nat.lt_succ_self _)
  rw [splitLine_input] at hserve hstored
  exact ⟨server, hserve, hstored⟩

/-! ## All threads -/

namespace ConnectionThreads

open LockedSections

/-- Threads in any interleaving: those that are through were answered as the service
answers in the order in which they got the mutex, and whenever the mutex is free the device
stores what the service stores. -/
theorem interleaved_refines_log {ι : Type} [DecidableEq ι] (conns : ι → Connection)
    (hconns : ∀ i, (conns i).Clean) (taken : List ι) (s : State ι Place Shared)
    (hs : Run (program conns) (Shared.ofServer Server.started) taken s) :
    ∃ (order : List ι) (replies : List (List UInt8)), taken = order ++ s.holder.toList ∧
      order.Nodup ∧
      (∀ i l, s.phase i = .left l ↔
        ∃ sent, l = .unlocking sent ∧ (i, sent) ∈ order.zip replies) ∧
      (Log.empty.AdmitsAll (order.map fun i ↦ (conns i).input) →
        replies = (Log.empty.serve (order.map fun i ↦ (conns i).input)).2 ∧
        (s.holder = none → s.shared.fptr = none ∧ s.shared.seektoArg = none ∧
          s.shared.kernel.storedCommands =
            (Log.empty.serve (order.map fun i ↦ (conns i).input)).1.stored)) := by
  obtain ⟨done, base, hserialized, htaken⟩ := hs.serialized
  obtain ⟨replies, fuel, server, h⟩ := exists_inOrder hserialized
  generalize done.map Prod.fst = order at h htaken
  refine ⟨order, replies, htaken, h.nodup, h.left_unlocking_iff, ?_⟩
  intro hadmits
  have hinputs : (order.map conns).map Connection.input = order.map fun i ↦ (conns i).input :=
    List.map_map
  have hclean : ∀ conn ∈ order.map conns, conn.Clean := by
    intro conn hconn
    obtain ⟨i, -, rfl⟩ := List.mem_map.mp hconn
    exact hconns i
  have hserve := serve_mono h.serve_eq (Nat.le_max_left fuel (enoughReads + 1))
  have hstarted : Models Server.started.kernel Log.empty := models_loaded
  obtain ⟨server', hrun, hmodels, harg⟩ := run_answers hstarted rfl hclean (by rwa [hinputs])
    (Nat.le_max_right fuel (enoughReads + 1))
  cases hserve.symm.trans hrun
  rw [hinputs] at hmodels ⊢
  refine ⟨rfl, ?_⟩
  intro hfree
  rw [h.free hfree]
  exact ⟨rfl, harg, hmodels.storedCommands_eq⟩

theorem interleaved_refines_log_oneThrough :
    ∃ (s : State Bool Place Shared) (replies : List (List UInt8)),
      s.phase true = .left (.unlocking [97, 10]) ∧ (true, [97, 10]) ∈ [true].zip replies := by
  obtain ⟨s, hs, hfree, htrue⟩ := exists_run_oneThrough
  obtain ⟨order, replies, htaken, -, hleft, -⟩ :=
    interleaved_refines_log _ (fun _ ↦ client_clean _) _ s hs
  rw [hfree, Option.toList_none, List.append_nil] at htaken
  obtain ⟨sent, hsent, hmem⟩ := (hleft true _).mp htrue
  cases hsent
  exact ⟨s, replies, htrue, htaken ▸ hmem⟩

end ConnectionThreads

end Aesd
