import Aesd.CommandSeek
import Aesd.ReplyPieces

/-!
# What the server replies

A data message is written to the device as one command; the seek to its first
byte, which the missing argument amounts to, and the read loop then return all
that is stored.  A command message only decides where the reading starts.  So a
data connection is answered with the last ten data messages up to its own, and
command connections leave no trace.
-/

namespace Aesd

open MachineWord
open CString
open PrefixReader

/-! ## Receiving -/

theorem zero_notMem_command : 0 ∉ command := by decide

theorem newline_notMem_command : newline ∉ command := by decide

/-- Its only newline is its last byte, and it is not a command. -/
structure IsData (message : List UInt8) : Prop where
  ends : message.getLast? = some newline
  only : newline ∉ message.dropLast
  not_command : ¬ command <+: message

def IsCommand (message : List UInt8) : Prop := command <+: message

theorem IsData.ne_nil {message : List UInt8} (h : IsData message) : message ≠ [] := by
  rintro rfl
  simpa using h.ends

theorem IsCommand.ne_nil {message : List UInt8} (h : IsCommand message) : message ≠ [] := by
  rintro rfl
  exact absurd (List.prefix_nil.mp h) (by decide)

/-- What stands behind a message does not make a command of it once the message has a
newline or is long enough. -/
theorem command_isPrefix_append_iff {bytes : List UInt8}
    (h : newline ∈ bytes ∨ command.length ≤ bytes.length) (behind : List UInt8) :
    command <+: bytes ++ behind ↔ command <+: bytes := by
  constructor
  · intro hpref
    rcases List.prefix_or_prefix_of_prefix hpref (List.prefix_append bytes behind) with hc | hm
    · exact hc
    · rcases h with hnl | hlen
      · exact absurd (hm.subset hnl) newline_notMem_command
      · rw [hm.eq_of_length_le hlen]
  · intro hpref
    exact hpref.trans (List.prefix_append _ _)

theorem IsData.not_command_append {message : List UInt8} (h : IsData message)
    (behind : List UInt8) : ¬ command <+: message ++ behind := by
  rw [command_isPrefix_append_iff (Or.inl (List.mem_of_getLast? h.ends))]
  exact h.not_command

/-- A chunk behind which no command shows goes to the stream. -/
theorem recvOnce_write {st : RecvState} {bytes : List UInt8} (hle : bytes.length ≤ maxDataSize)
    (hnot : ¬ command <+: bytes ++ st.mem.drop bytes.length) :
    recvOnce st (.got bytes hle) =
      .ok ⟨bytes ++ st.mem.drop bytes.length,
        { st.fptr with pending := st.fptr.pending ++ [bytes] }, st.seektoArg⟩ := by
  have hcmp : ¬ strncmp (bytes ++ st.mem.drop bytes.length) command command.length = 0 := by
    rwa [strncmp_eq_zero_iff zero_notMem_command]
  have hsize : toU 64 (bytes.length : ℤ) = bytes.length :=
    toU_natCast (by simp only [maxDataSize] at hle; omega)
  rw [recvOnce]
  simp [Recv.into, hcmp, Recv.bytesRecv, hsize, FILE.fwrite]

theorem recvOnce_seek {st : RecvState} {bytes : List UInt8} (hle : bytes.length ≤ maxDataSize)
    (hmatch : command <+: bytes ++ st.mem.drop bytes.length) :
    ∃ arg, recvOnce st (.got bytes hle) =
      .ok ⟨bytes ++ st.mem.drop bytes.length, st.fptr, some arg⟩ := by
  have hcmp : strncmp (bytes ++ st.mem.drop bytes.length) command command.length = 0 := by
    rwa [strncmp_eq_zero_iff zero_notMem_command]
  rw [recvOnce]
  simp only [Recv.into, hcmp, if_true]
  exact ⟨_, rfl⟩

def Connection.message (conn : Connection) : List UInt8 :=
  match conn.recvs with
  | .got bytes _ :: _ => bytes
  | _ => []

theorem Connection.recvs_of_message_ne_nil {conn : Connection} (h : conn.message ≠ []) :
    ∃ hle rest, conn.recvs = .got conn.message hle :: rest := by
  unfold Connection.message at h ⊢
  split
  · next bytes hle rest hrecvs => exact ⟨hle, rest, hrecvs⟩
  · simp at h

theorem recvToFile_of_length_lt {conn : Connection} (hne : conn.message ≠ [])
    (hlt : conn.message.length < maxDataSize) (st : RecvState) :
    ∃ hle, recvToFile st conn.recvs = recvOnce st (.got conn.message hle) := by
  obtain ⟨hle, rest, hrecvs⟩ := Connection.recvs_of_message_ne_nil hne
  have hshort : ¬ (Recv.got conn.message hle).bytesRecv = maxDataSize := by
    simp only [Recv.bytesRecv, Nat.cast_inj]
    exact hlt.ne
  refine ⟨hle, ?_⟩
  rw [hrecvs, recvToFile]
  simp only [if_neg hshort]
  exact bind_pure _

theorem recvToFile_data {conn : Connection} (hdata : IsData conn.message)
    (hlt : conn.message.length < maxDataSize) (fptr : FILE) (seektoArg : Option AesdSeekto) :
    ∃ mem, recvToFile ⟨conn.memory, fptr, seektoArg⟩ conn.recvs =
      .ok ⟨mem, { fptr with pending := fptr.pending ++ [conn.message] }, seektoArg⟩ := by
  obtain ⟨hle, hrecv⟩ := recvToFile_of_length_lt hdata.ne_nil hlt ⟨conn.memory, fptr, seektoArg⟩
  rw [hrecv, recvOnce_write hle (hdata.not_command_append _)]
  exact ⟨_, rfl⟩

theorem recvToFile_command {conn : Connection} (hcommand : IsCommand conn.message)
    (hlt : conn.message.length < maxDataSize) (fptr : FILE) (seektoArg : Option AesdSeekto) :
    ∃ mem arg, recvToFile ⟨conn.memory, fptr, seektoArg⟩ conn.recvs =
      .ok ⟨mem, fptr, some arg⟩ := by
  obtain ⟨hle, hrecv⟩ := recvToFile_of_length_lt hcommand.ne_nil hlt ⟨conn.memory, fptr, seektoArg⟩
  obtain ⟨arg, hseek⟩ := @recvOnce_seek ⟨conn.memory, fptr, seektoArg⟩ _ hle
    (hcommand.trans (List.prefix_append _ _))
  exact ⟨_, arg, hrecv.trans hseek⟩

/-! ## Sending -/

theorem sendLoop_spec {k : Kernel} {log : Log} (h : Models k log) (hfits : FILE.FitsBuffer k)
    {env : Env} (henv : env.Undisturbed) {send : ℕ → ℕ → ℤ} (hsend : ∀ i n, send i n = n)
    {fuel i : ℕ} {r : Buffered UInt8} {left : List UInt8} (hlt : r.pos < 2 ^ 63)
    (hleft : r.Delivers k.content left) (hfuel : left.length < fuel) :
    ∃ r', sendLoop env send fuel i k (.ofReader r) = .ok (left, k, .ofReader r') := by
  rw [sendLoop_eq_sendRounds]
  obtain ⟨s', hloop, r', rfl, -⟩ := sendRounds_all (fun s : Kernel × FILE ↦ s.2.fread env s.1 124)
    (show 124 ≠ 0 by decide)
    (fun left s ↦ ∃ r, s = (k, FILE.ofReader r) ∧ r.pos < 2 ^ 63 ∧ r.Delivers k.content left)
    (by
      rintro left s ⟨r, rfl, hlt, hleft⟩
      obtain ⟨r', hread, hlt', hleft'⟩ := FILE.fread_ofReader h hfits henv 124 hlt hleft
      exact ⟨_, hread, r', rfl, hlt', hleft'⟩)
    (i := i) hsend ⟨r, rfl, hlt, hleft⟩ hfuel
  exact ⟨r', hloop⟩

theorem aesdIoctl_null_fPos (env : Env) (k : Kernel) (arg : AesdSeekto) :
    (aesdIoctl (ioctlEnv env none) k 0 aesdcharIocseekto arg).fPos = 0 := by
  have hcopy : (copyFromUser (ioctlEnv env none) arg.toBytes).1 = List.replicate 8 0 := by
    simp [copyFromUser, ioctlEnv, AesdSeekto.toBytes, wordBytes]
  rw [aesdIoctl, if_pos rfl, hcopy]
  rfl

/-- Where the reply starts in the content. -/
def Kernel.replyStart (k : Kernel) (seektoArg : Option AesdSeekto) : ℕ :=
  seektoArg.elim 0 k.seekDistance

theorem sendFile_of_fseek {env : Env} (henv : env.Undisturbed) {send : ℕ → ℕ → ℤ}
    (hsend : ∀ i n, send i n = n) {k k' : Kernel} {log : Log} {fptr : FILE}
    (hseek : fptr.fseek env k 0 = .ok (0, k', ⟨0, [], [], false⟩)) (h : Models k' log)
    (hfits : FILE.FitsBuffer k') {fuel : ℕ} (hfuel : k'.content.length < fuel)
    (seektoArg : Option AesdSeekto) :
    ∃ r, sendFile fuel env send k fptr seektoArg =
      .ok (k'.content.drop (k'.replyStart seektoArg), k', .ofReader r, none) := by
  obtain ⟨hq, hlt⟩ :
      (aesdIoctl (ioctlEnv env seektoArg) k' 0 aesdcharIocseekto (seektoArg.getD ⟨0, 0⟩)).fPos =
          k'.replyStart seektoArg ∧ k'.replyStart seektoArg < 2 ^ 63 := by
    cases seektoArg with
    | none => exact ⟨aesdIoctl_null_fPos env k' _, by simp [Kernel.replyStart]⟩
    | some arg =>
        refine ⟨h.aesdIoctl_fPos henv.2 arg, ?_⟩
        exact (h.seekDistance_lt arg).trans (by norm_num)
  obtain ⟨r, hloop⟩ := sendLoop_spec h hfits henv hsend (i := 0) hlt
    (Buffered.delivers_from k'.content (k'.replyStart seektoArg))
    (show _ < fuel by rw [List.length_drop]; omega)
  rw [FILE.ofReader] at hloop
  refine ⟨r, ?_⟩
  rw [sendFile, hseek]
  simp only [FallibleRun.ok_bind, aesdIoctl_kernel, hq, hloop]
  rfl

/-! ## One connection -/

structure Connection.Quiet (conn : Connection) : Prop where
  opens : conn.fopenFails = false
  undisturbed : conn.env.Undisturbed
  kmalloc : conn.env.kmallocFails = false
  sends : ∀ i n, conn.send i n = n

/-- A message of one `recv`, either data or a command. -/
structure Connection.Regular (conn : Connection) : Prop extends conn.Quiet where
  short : conn.message.length < maxDataSize
  kind : IsData conn.message ∨ IsCommand conn.message

/-- The device holds these messages and nothing is pending, in it or in the server. -/
structure Server.Holds (server : Server) (messages : List (List UInt8)) : Prop where
  models : Models server.kernel ⟨messages, []⟩
  seektoArg_eq : server.seektoArg = none
  short : ∀ m ∈ messages, m.length < maxDataSize

abbrev enoughRounds : ℕ := 10 * maxDataSize

namespace Server.Holds

variable {server : Server} {messages : List (List UInt8)}

theorem storedCommands_eq (h : server.Holds messages) :
    server.kernel.storedCommands = messages.rtake 10 := h.models.storedCommands_eq

theorem fitsBuffer (h : server.Holds messages) : FILE.FitsBuffer server.kernel := by
  intro c hc
  rw [h.storedCommands_eq] at hc
  exact (h.short c (List.mem_of_mem_drop hc)).le.trans (by decide)

theorem length_content_le (h : server.Holds messages) :
    server.kernel.content.length ≤ enoughRounds := by
  rw [Kernel.content, h.storedCommands_eq]
  exact BoundedRing.length_flatten_rtake_le fun m hm ↦ (h.short m (List.mem_of_mem_drop hm)).le

end Server.Holds

/-- A connection whose stream is rewound to a known state of the device is answered
with the content from the position that its argument names. -/
theorem threadWork_of_recv {server server' : Server} {messages : List (List UInt8)}
    {conn : Connection} (hquiet : conn.Quiet) {st : RecvState}
    (hrecv : recvToFile ⟨conn.memory, FILE.fopen, server.seektoArg⟩ conn.recvs = .ok st)
    (hseek : st.fptr.fseek conn.env server.kernel 0 =
      .ok (0, server'.kernel, ⟨0, [], [], false⟩))
    (h : server'.Holds messages) {fuel : ℕ} (hfuel : enoughRounds < fuel) :
    threadWork fuel server conn =
      .ok (server', server'.kernel.content.drop (server'.kernel.replyStart st.seektoArg)) := by
  obtain ⟨r, hsend⟩ := sendFile_of_fseek hquiet.undisturbed hquiet.sends
    hseek h.models h.fitsBuffer (h.length_content_le.trans_lt hfuel) st.seektoArg
  have hserver : (⟨server'.kernel, none⟩ : Server) = server' := by
    rw [← h.seektoArg_eq]
  rw [threadWork, hquiet.opens]
  simp only [Bool.false_eq_true, if_false, hrecv, FallibleRun.ok_bind, hsend, FILE.fclose_ofReader]
  rw [hserver]
  rfl

theorem threadWork_data {server : Server} {messages : List (List UInt8)}
    (h : server.Holds messages) {conn : Connection} (hquiet : conn.Quiet)
    (hshort : conn.message.length < maxDataSize) (hdata : IsData conn.message) {fuel : ℕ}
    (hfuel : enoughRounds < fuel) :
    ∃ server', threadWork fuel server conn =
        .ok (server', ((messages ++ [conn.message]).rtake 10).flatten) ∧
      server'.Holds (messages ++ [conn.message]) := by
  obtain ⟨mem, hrecv⟩ := recvToFile_data hdata hshort FILE.fopen server.seektoArg
  have hflat : (FILE.fopen.pending ++ [conn.message]).flatten = conn.message := by
    simp [FILE.fopen]
  have hshort' : conn.message.length < 1024 := hshort
  have haccepted : ¬ WriteRefused conn.env ⟨messages, []⟩ conn.message := by
    simp only [WriteRefused, hquiet.undisturbed.1, hquiet.kmalloc, hquiet.undisturbed.2,
      Nat.zero_min, List.nil_append, kmallocLimit]
    simp
    omega
  have hwrite : Log.write ⟨messages, []⟩ conn.message = ⟨messages ++ [conn.message], []⟩ := by
    rw [Log.write, List.nil_append, if_pos hdata.ends]
  obtain ⟨k', hseek, hmodels⟩ := FILE.fseek_of_accepted h.models
    { FILE.fopen with pending := FILE.fopen.pending ++ [conn.message] }
    (by rw [hflat]; exact hdata.ne_nil) (by rw [hflat]; omega) (by rwa [hflat])
  rw [hflat, hwrite] at hmodels
  have hholds : Server.Holds ⟨k', none⟩ (messages ++ [conn.message]) := by
    refine ⟨hmodels, rfl, ?_⟩
    intro m hm
    rcases List.mem_append.mp hm with hm | hm
    · exact h.short m hm
    · rw [List.mem_singleton.mp hm]
      exact hshort
  have hwork := threadWork_of_recv hquiet hrecv hseek hholds hfuel
  have hstart : Kernel.replyStart k' server.seektoArg = 0 := by
    rw [h.seektoArg_eq]
    rfl
  rw [hstart, List.drop_zero, Kernel.content, hholds.storedCommands_eq] at hwork
  exact ⟨_, hwork, hholds⟩

theorem threadWork_command {server : Server} {messages : List (List UInt8)}
    (h : server.Holds messages) {conn : Connection} (hquiet : conn.Quiet)
    (hshort : conn.message.length < maxDataSize) (hcommand : IsCommand conn.message) {fuel : ℕ}
    (hfuel : enoughRounds < fuel) :
    ∃ reply, threadWork fuel server conn = .ok (server, reply) := by
  obtain ⟨mem, arg, hrecv⟩ := recvToFile_command hcommand hshort FILE.fopen server.seektoArg
  exact ⟨_, threadWork_of_recv hquiet hrecv
    (FILE.fseek_of_flatten_eq_nil conn.env server.kernel rfl) h hfuel⟩

/-! ## All connections -/

def dataMessages (conns : List Connection) : List (List UInt8) :=
  (conns.map Connection.message).filter fun m ↦ ¬ command <+: m

theorem dataMessages_concat (conns : List Connection) (conn : Connection) :
    dataMessages (conns ++ [conn]) = dataMessages conns ++ dataMessages [conn] := by
  simp [dataMessages]

theorem threadWork_regular {server : Server} {messages : List (List UInt8)}
    (h : server.Holds messages) {conn : Connection} (hconn : conn.Regular) {fuel : ℕ}
    (hfuel : enoughRounds < fuel) :
    ∃ server' reply, threadWork fuel server conn = .ok (server', reply) ∧
      server'.Holds (messages ++ dataMessages [conn]) ∧
      (IsData conn.message →
        reply = ((messages ++ dataMessages [conn]).rtake 10).flatten) ∧
      (IsCommand conn.message → server' = server) := by
  rcases hconn.kind with hdata | hcommand
  · have hone : dataMessages [conn] = [conn.message] := by
      simp [dataMessages, hdata.not_command]
    obtain ⟨server', hwork, hholds⟩ := threadWork_data h hconn.toQuiet hconn.short hdata hfuel
    rw [hone]
    exact ⟨server', _, hwork, hholds, fun _ ↦ rfl, fun hc ↦ absurd hc hdata.not_command⟩
  · have hnone : dataMessages [conn] = [] := by
      simpa [dataMessages, IsCommand] using hcommand
    obtain ⟨reply, hwork⟩ := threadWork_command h hconn.toQuiet hconn.short hcommand hfuel
    rw [hnone, List.append_nil]
    exact ⟨server, reply, hwork, h, fun hd ↦ absurd hcommand hd.not_command, fun _ ↦ rfl⟩

def Answered (past : List (Connection × List UInt8)) : Prop :=
  ∀ (i : ℕ) (conn : Connection) (reply : List UInt8), past[i]? = some (conn, reply) →
    IsData conn.message →
      reply = ((dataMessages ((past.take (i + 1)).map Prod.fst)).rtake 10).flatten

theorem Answered.concat {past : List (Connection × List UInt8)} (h : Answered past)
    {conn : Connection} {reply : List UInt8}
    (hreply : IsData conn.message →
      reply = ((dataMessages (past.map Prod.fst ++ [conn])).rtake 10).flatten) :
    Answered (past ++ [(conn, reply)]) := by
  intro i conn' reply' hi hdata
  rcases Nat.lt_or_ge i past.length with hlt | hge
  · rw [List.getElem?_append_left hlt] at hi
    rw [List.take_append_of_le_length hlt]
    exact h i conn' reply' hi hdata
  · rw [List.getElem?_append_right hge, List.getElem?_singleton] at hi
    split at hi
    · cases hi
      rw [List.take_of_length_le (by simp; omega), List.map_append]
      exact hreply hdata
    · cases hi

theorem serve_holds {fuel : ℕ} (hfuel : enoughRounds < fuel) {conns : List Connection}
    (hconns : ∀ conn ∈ conns, conn.Regular) {server : Server} {replies : List (List UInt8)}
    (hserve : serve fuel conns = .ok (server, replies)) :
    server.Holds (dataMessages conns) ∧ Answered (conns.zip replies) := by
  have hfst : (conns.zip replies).map Prod.fst = conns :=
    List.map_fst_zip (FallibleRun.length_of_run hserve).ge
  have hpast := FallibleRun.run_trace
    (fun (server : Server) past ↦ server.Holds (dataMessages (past.map Prod.fst)) ∧ Answered past)
    Connection.Regular (by
      rintro server past conn server' reply hconn ⟨hholds, hanswered⟩ hstep
      obtain ⟨_, _, hwork, hholds', hreply, -⟩ := threadWork_regular hholds hconn hfuel
      cases hstep.symm.trans hwork
      rw [← dataMessages_concat] at hholds' hreply
      rw [List.map_append]
      exact ⟨hholds', hanswered.concat hreply⟩)
    ⟨⟨models_loaded, rfl, by simp [dataMessages]⟩, fun i ↦ by simp⟩ hconns hserve
  rwa [hfst] at hpast

/-- The server over the driver.  With enough rounds for its read loop it serves any
mixture of data and command connections; a data connection is answered with the last
ten data messages up to its own, the device ends up with the last ten of all, and
leaving out a command connection changes neither the device nor another reply. -/
theorem serve_replies (conns : List Connection) (hconns : ∀ conn ∈ conns, conn.Regular)
    (fuel : ℕ) (hfuel : enoughRounds < fuel) :
    ∃ server replies, serve fuel conns = .ok (server, replies) ∧
      server.kernel.storedCommands = (dataMessages conns).rtake 10 ∧
      server.kernel.aesdDevice.partialEntry = AesdBufferEntry.zero ∧
      (∀ (i : ℕ) (conn : Connection), conns[i]? = some conn → IsData conn.message →
        replies[i]? = some ((dataMessages (conns.take (i + 1))).rtake 10).flatten) ∧
      ∀ (i : ℕ) (conn : Connection), conns[i]? = some conn → IsCommand conn.message →
        serve fuel (conns.eraseIdx i) = .ok (server, replies.eraseIdx i) := by
  have hstarted : Server.started.Holds [] := ⟨models_loaded, rfl, by simp⟩
  obtain ⟨server, replies, hserve, -⟩ := FallibleRun.run_total
    (fun server : Server ↦ ∃ messages, server.Holds messages)
    (by
      rintro server conn ⟨messages, hholds⟩ hconn
      obtain ⟨server', reply, hwork, hholds', -⟩ := threadWork_regular hholds hconn hfuel
      exact ⟨server', reply, hwork, _, hholds'⟩)
    ⟨[], hstarted⟩ hconns
  obtain ⟨hholds, hanswered⟩ := serve_holds hfuel hconns hserve
  refine ⟨server, replies, hserve, hholds.storedCommands_eq, ?_, ?_, ?_⟩
  · obtain ⟨_, _, _, hlayout⟩ := hholds.models
    exact hlayout.partialEntry_eq_zero_iff.mp rfl
  · intro i conn hi hdata
    obtain ⟨hlt, rfl⟩ := List.getElem?_eq_some_iff.mp hi
    have hlen := FallibleRun.length_of_run hserve
    have hreply := List.getElem?_eq_getElem (show i < replies.length by omega)
    have hzip : (conns.zip replies)[i]? = some (conns[i], replies[i]) := by
      rw [List.getElem?_zip_eq_some]
      exact ⟨hi, hreply⟩
    have hanswer := hanswered i _ _ hzip hdata
    rw [List.map_take, List.map_fst_zip hlen.ge] at hanswer
    rw [hreply, hanswer]
  · intro i conn hi hcommand
    refine FallibleRun.run_eraseIdx hserve hi ?_
    intro mid _ hmid
    have hbefore : ∀ c ∈ conns.take i, c.Regular := fun c hc ↦ hconns c (List.mem_of_mem_take hc)
    obtain ⟨_, reply, hwork, -, -, hsame⟩ := threadWork_regular
      (serve_holds hfuel hbefore hmid).1 (hconns conn (List.mem_of_getElem? hi)) hfuel
    rw [hsame hcommand] at hwork
    exact ⟨reply, hwork⟩

def client (message : List UInt8) (hle : message.length ≤ maxDataSize) : Connection :=
  ⟨[.got message hle], List.replicate maxDataSize 0, by simp, .calm, false, fun _ n ↦ n⟩

theorem client_quiet (message : List UInt8) (hle : message.length ≤ maxDataSize) :
    (client message hle).Quiet :=
  ⟨rfl, Env.calm_undisturbed, rfl, fun _ _ ↦ rfl⟩

/-- `a`, then `AESDCHAR_IOCSEEKTO:0,1`, then `b`. -/
def threeClients : List Connection :=
  [client [97, 10] (by decide), client (command ++ [48, 44, 49, 10]) (by decide),
    client [98, 10] (by decide)]

theorem serve_replies_threeClients :
    ∃ server replies, serve (enoughRounds + 1) threeClients = .ok (server, replies) ∧
      replies[2]? = some [97, 10, 98, 10] ∧
      serve (enoughRounds + 1) (threeClients.eraseIdx 1) = .ok (server, replies.eraseIdx 1) := by
  have hregular : ∀ conn ∈ threeClients, conn.Regular := by
    intro conn hconn
    simp only [threeClients, List.mem_cons, List.not_mem_nil, or_false] at hconn
    rcases hconn with rfl | rfl | rfl
    · exact ⟨client_quiet _ _, by decide, Or.inl ⟨by decide, by decide, by decide⟩⟩
    · exact ⟨client_quiet _ _, by decide, Or.inr (by unfold IsCommand; decide)⟩
    · exact ⟨client_quiet _ _, by decide, Or.inl ⟨by decide, by decide, by decide⟩⟩
  obtain ⟨server, replies, hserve, -, -, hdata, hcommand⟩ :=
    serve_replies threeClients hregular (enoughRounds + 1) (Nat.lt_succ_self _)
  refine ⟨server, replies, hserve, ?_, hcommand 1 _ rfl (by unfold IsCommand; decide)⟩
  rw [hdata 2 _ rfl ⟨by decide, by decide, by decide⟩]
  decide

end Aesd
