import Aesd.LogService
import Aesd.FollowingReader

/-!
# The build without the device

With `USE_AESD_CHAR_DEVICE` set to zero the same server keeps its data in the regular file
`/var/tmp/aesdsocketdata`.  A stream on it appends what it flushes and reads requests of the
buffer's size, and the ioctl is turned down without an effect.  Against the device, a reply has
the dropped commands in front and the unfinished one behind, and it never starts elsewhere.
-/

namespace Aesd

open PrefixReader

/-- What the disk does during one connection. -/
structure Disk where
  writeFails : Bool
  readFails : Bool

structure FileConnection extends Connection where
  disk : Disk

structure FileServer where
  contents : List UInt8
  seektoArg : Option AesdSeekto

namespace DataFile

/-- The file is open with `O_APPEND`. -/
def fflush (disk : Disk) (contents : List UInt8) (file : FILE) : ℤ × List UInt8 × FILE :=
  if file.pending.flatten = [] then (0, contents, { file with pending := [] })
  else if disk.writeFails then (-1, contents, file)
  else
    let contents := contents ++ file.pending.flatten
    (0, contents, { file with fPos := contents.length, pending := [] })

def fseek (disk : Disk) (contents : List UInt8) (file : FILE) (off : ℕ) :
    ℤ × List UInt8 × FILE :=
  let (r, contents, file) := fflush disk contents file
  if r < 0 then (-1, contents, file)
  else (0, contents, { file with fPos := off, readBuf := [], eof := false })

/-- What `read` gets of the file for a request of the buffer's size. -/
def readAhead (contents : List UInt8) (pos : ℕ) : List UInt8 :=
  (contents.drop pos).take stdioBufferSize

/-- Each round that goes on brings a byte, so `n` rounds are enough for `n` bytes. -/
def fill (disk : Disk) (contents : List UInt8) (n : ℕ) : ℕ → FILE → FILE
  | 0, file => file
  | left + 1, file =>
      if n ≤ file.readBuf.length ∨ file.eof = true then file
      else if disk.readFails then file
      else
        let bytes := readAhead contents file.fPos.toNat
        if bytes = [] then { file with eof := true }
        else
          fill disk contents n left
            { file with fPos := file.fPos + bytes.length, readBuf := file.readBuf ++ bytes }

def fread (disk : Disk) (contents : List UInt8) (file : FILE) (n : ℕ) : List UInt8 × FILE :=
  let file := fill disk contents n n file
  (file.readBuf.take n, { file with readBuf := file.readBuf.drop n })

def fclose (disk : Disk) (contents : List UInt8) (file : FILE) : List UInt8 :=
  (fflush disk contents file).2.1

def sendLoop (disk : Disk) (contents : List UInt8) (send : ℕ → ℕ → ℤ) :
    ℕ → ℕ → FILE → Except Stop (List UInt8 × FILE)
  | 0, _, _ => .error .outOfFuel
  | fuel + 1, i, fptr =>
      let (sendbuffer, fptr) := fread disk contents fptr 124
      if sendbuffer = [] then .ok ([], fptr)
      else do
        let (reply, fptr) ← sendLoop disk contents send fuel (i + 1) fptr
        return (sendbuffer.take (send i sendbuffer.length).toNat ++ reply, fptr)

/-- `send_file`; a regular file knows no ioctl, and its result is not looked at. -/
def sendFile (fuel : ℕ) (disk : Disk) (send : ℕ → ℕ → ℤ) (contents : List UInt8) (fptr : FILE) :
    Except Stop (List UInt8 × List UInt8 × FILE × Option AesdSeekto) := do
  let (_, contents, fptr) := fseek disk contents fptr 0
  let (reply, fptr) ← sendLoop disk contents send fuel 0 fptr
  return (reply, contents, fptr, none)

def threadWork (fuel : ℕ) (server : FileServer) (conn : FileConnection) :
    Except Stop (FileServer × List UInt8) :=
  if conn.fopenFails then .error (.exit 1)
  else do
    let st ← recvToFile ⟨conn.memory, FILE.fopen, server.seektoArg⟩ conn.recvs
    let (reply, contents, fptr, seektoArg) ←
      sendFile fuel conn.disk conn.send server.contents st.fptr
    return (⟨fclose conn.disk contents fptr, seektoArg⟩, reply)

/-- The file is not there when the server starts: `main` removes it when it returns. -/
def FileServer.started : FileServer := ⟨[], none⟩

def serve (fuel : ℕ) (conns : List FileConnection) :
    Except Stop (FileServer × List (List UInt8)) :=
  FallibleRun.run (threadWork fuel) FileServer.started conns

/-! ## Reading the file to its end -/

variable {disk : Disk} {contents : List UInt8}

theorem reads_readAhead (contents : List UInt8) : Reads contents (readAhead contents) where
  consecutive := fun p ↦ List.take_prefix _ _
  progress := by
    intro p hp hnil
    have hlen := congrArg List.length hnil
    simp only [readAhead, List.length_take, List.length_drop, List.length_nil, stdioBufferSize]
      at hlen
    omega

/-- Reading ahead from the file fetches blocks of the buffer's size. -/
theorem fill_ofReader (hdisk : disk.readFails = false) (n rounds : ℕ) (r : Buffered UInt8) :
    fill disk contents n rounds (.ofReader r) =
      .ofReader (r.fill (readAhead contents) n rounds) := by
  induction rounds generalizing r with
  | zero => rfl
  | succ rounds ih =>
      have hread : ¬ disk.readFails = true := by simp [hdisk]
      rw [fill, Buffered.fill, FILE.readBuf_ofReader, FILE.eof_ofReader, FILE.fPos_ofReader,
        Int.toNat_natCast]
      by_cases hdone : n ≤ r.buffer.length ∨ r.ended = true
      · rw [if_pos hdone, if_pos hdone]
      · rw [if_neg hdone, if_neg hdone, if_neg hread]
        by_cases hnil : readAhead contents r.pos = []
        · rw [if_pos hnil, if_pos hnil]
          rfl
        · rw [if_neg hnil, if_neg hnil, ← Nat.cast_add]
          exact ih ⟨r.pos + (readAhead contents r.pos).length,
            r.buffer ++ readAhead contents r.pos, r.ended⟩

theorem fread_ofReader (hdisk : disk.readFails = false) (n : ℕ) (r : Buffered UInt8) :
    fread disk contents (.ofReader r) n =
      ((r.take (readAhead contents) n).1, .ofReader (r.take (readAhead contents) n).2) := by
  rw [fread, fill_ofReader hdisk]
  rfl

theorem sendLoop_eq_sendRounds (disk : Disk) (contents : List UInt8) (send : ℕ → ℕ → ℤ)
    (fuel i : ℕ) (fptr : FILE) :
    sendLoop disk contents send fuel i fptr =
      sendRounds (fun file ↦ .ok (fread disk contents file 124)) send fuel i fptr := by
  induction fuel generalizing i fptr with
  | zero => rfl
  | succ fuel ih =>
      rw [sendLoop, sendRounds]
      simp only [FallibleRun.ok_bind, ih]
      rfl

theorem sendLoop_spec (hdisk : disk.readFails = false) {send : ℕ → ℕ → ℤ}
    (hsend : ∀ i n, send i n = n) {fuel i : ℕ} {r : Buffered UInt8} {left : List UInt8}
    (hleft : r.Delivers contents left) (hfuel : left.length < fuel) :
    ∃ r', sendLoop disk contents send fuel i (.ofReader r) = .ok (left, .ofReader r') := by
  rw [sendLoop_eq_sendRounds]
  obtain ⟨s', hloop, r', rfl, -⟩ := sendRounds_all
    (fun file ↦ .ok (fread disk contents file 124)) (show 124 ≠ 0 by decide)
    (fun left s ↦ ∃ r, s = FILE.ofReader r ∧ r.Delivers contents left)
    (by
      rintro left s ⟨r, rfl, hleft⟩
      obtain ⟨htaken, hleft'⟩ := hleft.take (reads_readAhead contents) 124
      exact ⟨_, by rw [fread_ofReader hdisk, htaken], _, rfl, hleft'⟩)
    (i := i) hsend ⟨r, rfl, hleft⟩ hfuel
  exact ⟨r', hloop⟩

/-! ## One connection, and all -/

theorem fseek_zero (hdisk : disk.writeFails = false) (contents : List UInt8) (file : FILE) :
    fseek disk contents file 0 = (0, contents ++ file.pending.flatten, ⟨0, [], [], false⟩) := by
  by_cases hnil : file.pending.flatten = []
  · simp [fseek, fflush, hnil]
  · rw [fseek, fflush, if_neg hnil, hdisk]
    rfl

structure Fine (conn : FileConnection) : Prop where
  clean : conn.toConnection.Clean
  writes : conn.disk.writeFails = false
  reads : conn.disk.readFails = false

/-- A connection is answered with all that was ever written, its own bytes included. -/
theorem threadWork_eq {conn : FileConnection} (hconn : Fine conn) (contents : List UInt8)
    {fuel : ℕ} (hfuel : (contents ++ conn.input.1).length < fuel) :
    threadWork fuel ⟨contents, none⟩ conn =
      .ok (⟨contents ++ conn.input.1, none⟩, contents ++ conn.input.1) := by
  obtain ⟨st, pieces, hrecv, hfptr, hpieces, -⟩ :=
    recvToFile_takenIn conn.memory FILE.fopen none (chunksOf conn.recvs)
  have hpending : st.fptr.pending.flatten = conn.input.1 := by
    rw [hfptr]
    exact hpieces
  rw [map_recv_chunksOf hconn.clean.received] at hrecv
  have hseek := fseek_zero hconn.writes contents st.fptr
  rw [hpending] at hseek
  obtain ⟨r, hloop⟩ := sendLoop_spec hconn.reads hconn.clean.sends (i := 0)
    (Buffered.delivers_from (contents ++ conn.input.1) 0) hfuel
  rw [List.drop_zero, FILE.ofReader, Nat.cast_zero] at hloop
  rw [threadWork, hconn.clean.opens]
  simp only [Bool.false_eq_true, if_false, hrecv, FallibleRun.ok_bind, sendFile, hseek, hloop]
  rfl

/-- What was written up to and including each of the payloads. -/
def contentsAfter : List UInt8 → List (List UInt8) → List (List UInt8)
  | _, [] => []
  | contents, payload :: payloads =>
      (contents ++ payload) :: contentsAfter (contents ++ payload) payloads

theorem getElem?_contentsAfter (contents : List UInt8) {payloads : List (List UInt8)} {i : ℕ}
    (hi : i < payloads.length) :
    (contentsAfter contents payloads)[i]? = some (contents ++ (payloads.take (i + 1)).flatten) := by
  induction payloads generalizing contents i with
  | nil => simp at hi
  | cons payload payloads ih =>
      cases i with
      | zero => simp [contentsAfter]
      | succ i =>
          rw [List.length_cons, Nat.add_lt_add_iff_right] at hi
          rw [contentsAfter, List.getElem?_cons_succ, ih _ hi, List.take_succ_cons,
            List.flatten_cons, List.append_assoc]

theorem run_eq {conns : List FileConnection} (hconns : ∀ conn ∈ conns, Fine conn)
    (contents : List UInt8) {fuel : ℕ}
    (hfuel : (contents ++ (conns.map fun conn ↦ conn.input.1).flatten).length < fuel) :
    FallibleRun.run (threadWork fuel) ⟨contents, none⟩ conns =
      .ok (⟨contents ++ (conns.map fun conn ↦ conn.input.1).flatten, none⟩,
        contentsAfter contents (conns.map fun conn ↦ conn.input.1)) := by
  induction conns generalizing contents with
  | nil => simp [FallibleRun.run, contentsAfter]
  | cons conn conns ih =>
      rw [List.map_cons, List.flatten_cons, ← List.append_assoc] at hfuel ⊢
      have hnow : (contents ++ conn.input.1).length < fuel := by
        rw [List.length_append] at hfuel
        omega
      refine FallibleRun.run_cons_eq_ok.mpr ⟨_, _, _,
        threadWork_eq (hconns conn List.mem_cons_self) contents hnow,
        ih (fun c hc ↦ hconns c (List.mem_cons_of_mem _ hc)) _ hfuel, rfl⟩

end DataFile

/-! ## The two builds -/

namespace Log

/-- Everything that was ever written. -/
def text (log : Log) : List UInt8 := log.history ++ log.pending

theorem text_append (log : Log) (payload : List UInt8) :
    (log.append payload).text = log.text ++ payload := by
  unfold append
  split
  · next hnil => rw [hnil, List.append_nil]
  · unfold write
    split <;> simp [text, history]

theorem text_serve (log : Log) (inputs : List (List UInt8 × Option AesdSeekto)) :
    (log.serve inputs).1.text = log.text ++ (inputs.map Prod.fst).flatten := by
  induction inputs generalizing log with
  | nil => simp [serve]
  | cons input inputs ih =>
      obtain ⟨payload, arg⟩ := input
      rw [List.map_cons, List.flatten_cons, ← List.append_assoc, ← text_append]
      exact ih (log.append payload)

theorem getElem?_serve (log : Log) {inputs : List (List UInt8 × Option AesdSeekto)} {i : ℕ}
    {payload : List UInt8} {arg : Option AesdSeekto} (hi : inputs[i]? = some (payload, arg)) :
    (log.serve inputs).2[i]? = some ((log.serve (inputs.take (i + 1))).1.stored.flatten.drop
      ((log.serve (inputs.take (i + 1))).1.replyStart arg)) := by
  induction inputs generalizing log i with
  | nil => simp at hi
  | cons input inputs ih =>
      obtain ⟨payload', arg'⟩ := input
      cases i with
      | zero =>
          cases hi
          rfl
      | succ i => exact ih (log.append payload') hi

theorem nil_notMem_serve (log : Log) (h : [] ∉ log.committed)
    (inputs : List (List UInt8 × Option AesdSeekto)) : [] ∉ (log.serve inputs).1.committed := by
  induction inputs generalizing log with
  | nil => exact h
  | cons input inputs ih =>
      obtain ⟨payload, arg⟩ := input
      refine ih (log.append payload) ?_
      unfold append
      split
      · exact h
      · unfold write
        split
        · next hlast =>
            intro hmem
            rcases List.mem_append.mp hmem with hmem | hmem
            · exact h hmem
            · rw [← List.mem_singleton.mp hmem] at hlast
              cases hlast
        · exact h

theorem evicted_eq_nil_iff {log : Log} (h : [] ∉ log.committed) :
    log.evicted = [] ↔ log.committed.length ≤ 10 := by
  rw [evicted, List.flatten_eq_nil_iff]
  constructor
  · intro hall
    by_contra hlong
    have hmem : log.committed[0] ∈ log.committed.take (log.committed.length - 10) :=
      List.mem_take_iff_getElem.mpr ⟨0, by omega, rfl⟩
    exact h (hall _ hmem ▸ List.getElem_mem _)
  · intro hle l hl
    rw [Nat.sub_eq_zero_of_le hle] at hl
    cases hl

end Log

/-- For connections of any shape that the log admits the file build answers the `i`-th one with
everything written so far.  Without a seek, that is what the device build answers with the dropped
commands in front and the unfinished one behind it, so the two replies are the same exactly as
long as there are at most ten commands and the last one is complete. -/
theorem builds_agree (conns : List FileConnection) (hconns : ∀ conn ∈ conns, DataFile.Fine conn)
    (inputs : List (List UInt8 × Option AesdSeekto))
    (hinputs : inputs = conns.map fun conn ↦ conn.input) (hadmits : Log.empty.AdmitsAll inputs)
    (fuel : ℕ) (hdevice : enoughReads < fuel)
    (hfile : (inputs.map Prod.fst).flatten.length < fuel) :
    ∃ server replies file fileReplies,
      serve fuel (conns.map FileConnection.toConnection) = .ok (server, replies) ∧
      DataFile.serve fuel conns = .ok (file, fileReplies) ∧
      ∀ (i : ℕ) (payload : List UInt8) (arg : Option AesdSeekto),
        inputs[i]? = some (payload, arg) →
          ∃ log reply, log = (Log.empty.serve (inputs.take (i + 1))).1 ∧
            replies[i]? = some reply ∧
            fileReplies[i]? = some ((inputs.take (i + 1)).map Prod.fst).flatten ∧
            (arg = none →
              ((inputs.take (i + 1)).map Prod.fst).flatten =
                log.evicted ++ reply ++ log.pending ∧
              (reply = ((inputs.take (i + 1)).map Prod.fst).flatten ↔
                log.committed.length ≤ 10 ∧ log.pending = [])) := by
  have hmap : (conns.map FileConnection.toConnection).map Connection.input = inputs := by
    rw [hinputs, List.map_map]
    rfl
  have hpayloads : (conns.map fun conn ↦ conn.input.1) = inputs.map Prod.fst := by
    rw [hinputs, List.map_map]
    rfl
  have hclean : ∀ conn ∈ conns.map FileConnection.toConnection, conn.Clean := by
    intro conn hconn
    obtain ⟨c, hc, rfl⟩ := List.mem_map.mp hconn
    exact (hconns c hc).clean
  have hstarted : Models Server.started.kernel Log.empty := models_loaded
  obtain ⟨server, hserve, -⟩ := run_answers hstarted rfl hclean (by rwa [hmap]) hdevice
  rw [hmap] at hserve
  have hfiles := DataFile.run_eq hconns [] (show _ < fuel by rwa [hpayloads, List.nil_append])
  rw [hpayloads] at hfiles
  refine ⟨server, _, _, _, hserve, hfiles, ?_⟩
  intro i payload arg hi
  obtain ⟨hlt, -⟩ := List.getElem?_eq_some_iff.mp hi
  refine ⟨_, _, rfl, Log.empty.getElem?_serve hi, ?_, ?_⟩
  · rw [DataFile.getElem?_contentsAfter [] (by rwa [List.length_map]), List.nil_append,
      List.map_take]
  · rintro rfl
    have htext := Log.empty.text_serve (inputs.take (i + 1))
    have hne := Log.empty.nil_notMem_serve (by simp [Log.empty]) (inputs.take (i + 1))
    generalize (Log.empty.serve (inputs.take (i + 1))).1 = log at htext hne ⊢
    have hsplit : ((inputs.take (i + 1)).map Prod.fst).flatten =
        log.evicted ++ log.stored.flatten ++ log.pending := by
      rw [← log.history_eq]
      exact htext.symm
    rw [show log.stored.flatten.drop (log.replyStart none) = log.stored.flatten from rfl]
    refine ⟨hsplit, ?_⟩
    rw [hsplit, ← Log.evicted_eq_nil_iff hne]
    constructor
    · intro hsame
      have hlen := congrArg List.length hsame
      simp only [List.length_append] at hlen
      exact ⟨List.eq_nil_of_length_eq_zero (by omega), List.eq_nil_of_length_eq_zero (by omega)⟩
    · rintro ⟨hev, hpend⟩
      rw [hev, hpend, List.nil_append, List.append_nil]

/-- The connections of `splitLine` to a server on a disk without failures. -/
def splitLineToFile : List FileConnection := splitLine.map fun conn ↦ ⟨conn, ⟨false, false⟩⟩

theorem builds_agree_splitLine :
    ∃ server replies file fileReplies,
      serve (enoughReads + 1) splitLine = .ok (server, replies) ∧
      DataFile.serve (enoughReads + 1) splitLineToFile = .ok (file, fileReplies) ∧
      fileReplies[0]? = some [97] ∧ replies[0]? ≠ fileReplies[0]? ∧
      replies[1]? = some [97, 98, 10] ∧ fileReplies[1]? = some [97, 98, 10] := by
  have hfine : ∀ conn ∈ splitLineToFile, DataFile.Fine conn := by
    intro conn hconn
    simp only [splitLineToFile, splitLine, List.map_cons, List.map_nil, List.mem_cons,
      List.not_mem_nil, or_false] at hconn
    rcases hconn with rfl | rfl
    · exact ⟨client_clean _, rfl, rfl⟩
    · exact ⟨client_clean _, rfl, rfl⟩
  have hconns : splitLineToFile.map FileConnection.toConnection = splitLine := rfl
  have hinputs : (splitLineToFile.map fun conn ↦ conn.input) = [([97], none), ([98, 10], none)] :=
    splitLine_input
  obtain ⟨server, replies, file, fileReplies, hserve, hfile, hall⟩ := builds_agree splitLineToFile
    hfine _ hinputs.symm
    ⟨⟨by decide, by decide, by decide⟩, ⟨by decide, by decide, by decide⟩, trivial⟩
    (enoughReads + 1) (Nat.lt_succ_self _) (by decide)
  rw [hconns] at hserve
  obtain ⟨log₀, reply₀, rfl, hreply₀, hfile₀, hsame₀⟩ := hall 0 [97] none rfl
  obtain ⟨log₁, reply₁, rfl, hreply₁, hfile₁, hsame₁⟩ := hall 1 [98, 10] none rfl
  refine ⟨server, replies, file, fileReplies, hserve, hfile, hfile₀, ?_, ?_, hfile₁⟩
  · rw [hreply₀, hfile₀]
    intro hsame
    exact absurd ((hsame₀ rfl).2.mp (Option.some_inj.mp hsame)).2 (by decide)
  · rw [hreply₁, (hsame₁ rfl).2.mpr ⟨by decide, by decide⟩]
    rfl

end Aesd
