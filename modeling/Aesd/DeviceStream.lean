import Aesd.BufferedReader
import Aesd.Reading

/-!
# The device behind a `FILE`

The server reaches the device through `stdio`.  A stream opened for `"a+"` keeps
what was written until it is flushed, and reads ahead in requests of the buffer's
size.  A request that brings more than was asked for runs over that buffer.

A flush passes what is pending to `aesd_write` as one request.  This is so as long
as no more than `stdioBufferSize` bytes are pending: a longer payload leaves the
stream in several requests, the first of them while it is still being written.
What a connection stores is therefore stated for payloads that fit the buffer.
-/

namespace Aesd

open BlockHeap
open OffsetLookup
open PrefixReader

inductive Stop where
  | fault (f : Fault)
  | exit (code : ℤ)
  | outOfFuel
  deriving DecidableEq, Repr

def device {α : Type} : Except Fault α → Except Stop α
  | .ok a => .ok a
  | .error f => .error (.fault f)

@[simp] theorem device_ok {α : Type} (a : α) : device (.ok a) = .ok a := rfl

/-- The size of the buffer `stdio` allocates for the device (`st_blksize`). -/
abbrev stdioBufferSize : ℕ := 4096

/-- A stream on the device: the position of its open file, the pieces handed to
`fwrite` and not yet flushed, the bytes read ahead, and the end-of-file indicator. -/
structure FILE where
  fPos : ℤ
  pending : List (List UInt8)
  readBuf : List UInt8
  eof : Bool
  deriving DecidableEq, Repr

namespace FILE

def fopen : FILE := ⟨0, [], [], false⟩

/-- The bytes stay pending: as long as they fit the buffer, nothing is flushed here. -/
def fwrite (file : FILE) (mem : List UInt8) (size : ℕ) : Except Stop FILE :=
  if mem.length < size then .error (.fault .outOfBounds)
  else .ok { file with pending := file.pending ++ [mem.take size] }

def fflush (env : Env) (k : Kernel) (file : FILE) : Except Stop (ℤ × Kernel × FILE) :=
  if file.pending.flatten = [] then .ok (0, k, { file with pending := [] })
  else do
    let o ← device (aesdWrite env k file.pending.flatten file.fPos)
    if o.retval < 0 then return (-1, o.kernel, { file with fPos := o.fPos })
    else return (0, o.kernel, { file with fPos := o.fPos, pending := [] })

def fseek (env : Env) (k : Kernel) (file : FILE) (off : ℤ) : Except Stop (ℤ × Kernel × FILE) := do
  let (r, k, file) ← fflush env k file
  if r < 0 then return (-1, k, file)
  else
    -- whence zero is `SEEK_SET`
    let (r, fPos) := aesdLlseek k file.fPos off 0
    if r < 0 then return (-1, k, file)
    else return (0, k, { file with fPos, readBuf := [], eof := false })

/-- Read ahead until `n` bytes are there, the file ends or a request fails.  Each
round that goes on brings a byte, so `n` rounds are enough. -/
def fill (env : Env) (n : ℕ) : ℕ → Kernel → FILE → Except Stop (Kernel × FILE)
  | 0, k, file => .ok (k, file)
  | left + 1, k, file =>
      if n ≤ file.readBuf.length ∨ file.eof = true then .ok (k, file)
      else do
        let o ← device (aesdRead env k stdioBufferSize file.fPos)
        if stdioBufferSize < o.copied.length then .error (.fault .outOfBounds)
        else if o.retval < 0 then return (o.kernel, { file with fPos := o.fPos })
        else if o.retval = 0 then return (o.kernel, { file with fPos := o.fPos, eof := true })
        else
          fill env n left o.kernel
            { file with fPos := o.fPos, readBuf := file.readBuf ++ o.copied }

def fread (env : Env) (k : Kernel) (file : FILE) (n : ℕ) :
    Except Stop (List UInt8 × Kernel × FILE) := do
  let (k, file) ← fill env n n k file
  return (file.readBuf.take n, k, { file with readBuf := file.readBuf.drop n })

def fclose (env : Env) (k : Kernel) (file : FILE) : Except Stop Kernel := do
  let (_, k, _) ← fflush env k file
  return k

/-! ## Rewinding -/

theorem fseek_of_flatten_eq_nil (env : Env) (k : Kernel) {file : FILE}
    (hpending : file.pending.flatten = []) :
    fseek env k file 0 = .ok (0, k, ⟨0, [], [], false⟩) := by
  rw [fseek, fflush, if_pos hpending]
  rfl

theorem fseek_of_accepted {env : Env} {k : Kernel} {log : Log} (h : Models k log) (file : FILE)
    (hne : file.pending.flatten ≠ []) (hlen : file.pending.flatten.length < 2 ^ 31)
    (hok : ¬ WriteRefused env log file.pending.flatten) :
    ∃ k', fseek env k file 0 = .ok (0, k', ⟨0, [], [], false⟩) ∧
      Models k' (log.write file.pending.flatten) := by
  rcases h.aesdWrite_cases env hlen file.fPos with
    ⟨hrefused, -⟩ | ⟨-, k', hmodels, hwrite⟩ | ⟨hnil, -⟩
  · exact absurd hrefused hok
  · refine ⟨k', ?_, hmodels⟩
    have hnonneg : ¬ ((file.pending.flatten.length : ℤ) < 0) :=
      not_lt.mpr (Int.natCast_nonneg _)
    rw [fseek, fflush, if_neg hne, hwrite, device_ok, FallibleRun.ok_bind, if_neg hnonneg]
    rfl
  · exact absurd (List.append_eq_nil_iff.mp hnil).2 hne

/-! ## Reading a stream to its end -/

/-- The stream of a reader; there is nothing to flush. -/
def ofReader (r : Buffered UInt8) : FILE := ⟨r.pos, [], r.buffer, r.ended⟩

@[simp] theorem fPos_ofReader (r : Buffered UInt8) : (ofReader r).fPos = r.pos := rfl

@[simp] theorem readBuf_ofReader (r : Buffered UInt8) : (ofReader r).readBuf = r.buffer := rfl

@[simp] theorem eof_ofReader (r : Buffered UInt8) : (ofReader r).eof = r.ended := rfl

theorem fclose_ofReader (env : Env) (k : Kernel) (r : Buffered UInt8) :
    fclose env k (ofReader r) = .ok k := rfl

variable {k : Kernel} {log : Log} {env : Env}

def FitsBuffer (k : Kernel) : Prop := ∀ c ∈ k.storedCommands, c.length ≤ stdioBufferSize

/-- Reading ahead from the device fetches the rests of the stored commands. -/
theorem fill_ofReader (h : Models k log) (hfits : FitsBuffer k) (henv : env.Undisturbed)
    (n rounds : ℕ) {r : Buffered UInt8} (hlt : r.pos < 2 ^ 63) :
    fill env n rounds k (ofReader r) =
      .ok (k, ofReader (r.fill (restAt k.storedCommands) n rounds)) := by
  induction rounds generalizing r with
  | zero => rfl
  | succ rounds ih =>
      rw [fill, Buffered.fill, readBuf_ofReader, eof_ofReader, fPos_ofReader]
      by_cases hdone : n ≤ r.buffer.length ∨ r.ended = true
      · rw [if_pos hdone, if_pos hdone]
      · have hreads : Reads k.content (restAt k.storedCommands) := reads_restAt _
        have hbuffer : ¬ stdioBufferSize < (readOutcome k r.pos).copied.length :=
          not_lt.mpr (length_restAt_le hfits r.pos)
        have hnonneg : ¬ (readOutcome k r.pos).retval < 0 := not_lt.mpr (Int.natCast_nonneg _)
        rw [if_neg hdone, if_neg hdone, h.aesdRead_undisturbed henv _ hlt, device_ok,
          FallibleRun.ok_bind, if_neg hbuffer, if_neg hnonneg]
        by_cases hnil : restAt k.storedCommands r.pos = []
        · -- nothing is left to read: the indicator is set
          have hzero : (readOutcome k r.pos).retval = 0 := by simp [readOutcome, hnil]
          have hpos : (readOutcome k r.pos).fPos = r.pos := by simp [readOutcome, hnil]
          rw [if_pos hzero, if_pos hnil, hpos]
          rfl
        · have hnonzero : ¬ (readOutcome k r.pos).retval = 0 := by simpa [readOutcome] using hnil
          have hpos := List.length_pos_of_ne_nil hnil
          have hcontent := h.length_content_lt
          have hle := hreads.length_piece_le r.pos
          rw [if_neg hnonzero, if_neg hnil]
          exact ih (r := ⟨r.pos + (restAt k.storedCommands r.pos).length,
            r.buffer ++ restAt k.storedCommands r.pos, r.ended⟩) (show _ + _ < _ by omega)

/-- A request on the device gets the next `n` bytes of the content. -/
theorem fread_ofReader (h : Models k log) (hfits : FitsBuffer k) (henv : env.Undisturbed) (n : ℕ)
    {r : Buffered UInt8} {left : List UInt8} (hlt : r.pos < 2 ^ 63)
    (hleft : r.Delivers k.content left) :
    ∃ r', fread env k (ofReader r) n = .ok (left.take n, k, ofReader r') ∧ r'.pos < 2 ^ 63 ∧
      r'.Delivers k.content (left.drop n) := by
  have hreads : Reads k.content (restAt k.storedCommands) := reads_restAt _
  obtain ⟨htaken, hleft'⟩ := hleft.take hreads n
  have hpos := Buffered.pos_fill_le hreads n n r
  have hcontent := h.length_content_lt
  refine ⟨(r.take (restAt k.storedCommands) n).2, ?_, hpos.trans_lt (by omega), hleft'⟩
  rw [fread, fill_ofReader h hfits henv n n hlt, FallibleRun.ok_bind, ← htaken]
  rfl

end FILE

end Aesd
