import Aesd.Reception

/-!
# The receive buffer

`recv_to_file` neither clears its buffer nor puts a zero behind what it receives, so
`strncmp` and `strtoul` read on in what stood there before.  Only bytes that were
received decide its effect when the first chunk cannot be completed to a command and
the last command received ends its two numbers itself.
-/

namespace Aesd

open MachineWord
open CString

/-- What one `recv` call brings; nothing when the peer has closed. -/
structure Chunk where
  bytes : List UInt8
  length_le : bytes.length ≤ maxDataSize

namespace Chunk

def recv (c : Chunk) : Recv := .got c.bytes c.length_le

def onto (c : Chunk) (mem : List UInt8) : List UInt8 := c.bytes ++ mem.drop c.bytes.length

def closed : Chunk := ⟨[], Nat.zero_le _⟩

theorem length_onto (c : Chunk) (mem : List UInt8) :
    (c.onto mem).length = max c.bytes.length mem.length := by
  rw [onto, List.length_append, List.length_drop]
  omega

theorem onto_append (c : Chunk) {known : List UInt8} (h : c.bytes.length ≤ known.length)
    (t : List UInt8) : c.onto (known ++ t) = c.onto known ++ t := by
  rw [onto, onto, List.drop_append_of_le_length h, List.append_assoc]

theorem onto_of_length_eq (c : Chunk) {known : List UInt8} (h : known.length = c.bytes.length)
    (t : List UInt8) : c.onto (known ++ t) = c.bytes ++ t := by
  rw [onto, ← h, List.drop_left]

end Chunk

/-- The argument that a buffer which starts with the command is decoded to. -/
def seektoOf (mem : List UInt8) : AesdSeekto :=
  ⟨(scanPair (mem.drop command.length)).1, (scanPair (mem.drop command.length)).2⟩

theorem seektoOf_append {m : List UInt8} (h : command <+: m) (t : List UInt8) :
    seektoOf (m ++ t) =
      ⟨(scanPair (m.drop command.length ++ t)).1, (scanPair (m.drop command.length ++ t)).2⟩ := by
  rw [seektoOf, List.drop_append_of_le_length h.length_le]

theorem seektoOf_ne {m t₁ t₂ : List UInt8} (h : command <+: m)
    (hne : scanPair (m.drop command.length ++ t₁) ≠ scanPair (m.drop command.length ++ t₂)) :
    seektoOf (m ++ t₁) ≠ seektoOf (m ++ t₂) := by
  rw [seektoOf_append h, seektoOf_append h]
  intro heq
  simp only [AesdSeekto.mk.injEq] at heq
  exact hne (Prod.ext heq.1 heq.2)

theorem recvOnce_command {st : RecvState} {r : Recv} (h : command <+: r.into st.mem) :
    recvOnce st r = .ok ⟨r.into st.mem, st.fptr, some (seektoOf (r.into st.mem))⟩ := by
  have hcmp : strncmp (r.into st.mem) command command.length = 0 := by
    rwa [strncmp_eq_zero_iff zero_notMem_command]
  rw [recvOnce]
  simp only [hcmp, if_true]
  rfl

theorem recvOnce_chunk (st : RecvState) (c : Chunk) :
    recvOnce st c.recv = .ok
      (if command <+: c.onto st.mem then
        ⟨c.onto st.mem, st.fptr, some (seektoOf (c.onto st.mem))⟩
      else
        ⟨c.onto st.mem, { st.fptr with pending := st.fptr.pending ++ [c.bytes] },
          st.seektoArg⟩) := by
  by_cases h : command <+: c.onto st.mem
  · rw [if_pos h]
    exact recvOnce_command h
  · rw [if_neg h]
    exact recvOnce_write c.length_le h

theorem recvToFile_chunk_cons (st : RecvState) (c : Chunk) (rs : List Recv) :
    recvToFile st (c.recv :: rs) = (recvOnce st c.recv >>= fun st ↦
      if c.bytes.length = maxDataSize then recvToFile st rs else .ok st) :=
  recvToFile_got st c.length_le rs

/-! ## The received part of the buffer -/

/-- What is known of the buffer, from received bytes alone, after each `recv` call that
the loop makes. -/
def receivedParts : List UInt8 → List Chunk → List (List UInt8)
  | known, [] => [Chunk.closed.onto known]
  | known, c :: cs =>
      c.onto known :: if c.bytes.length = maxDataSize then receivedParts (c.onto known) cs else []

/-- Nothing that could stand behind `m` makes a command of it that it is not already. -/
def Decided (m : List UInt8) : Prop := command.length ≤ m.length ∨ ¬ m <+: command

theorem Decided.append_iff {m : List UInt8} (h : Decided m) (t : List UInt8) :
    command <+: m ++ t ↔ command <+: m := by
  constructor
  · intro hpref
    rcases List.prefix_or_prefix_of_prefix hpref (List.prefix_append m t) with hc | hm
    · exact hc
    · rcases h with hlen | hnot
      · rw [hm.eq_of_length_le hlen]
      · exact absurd hm hnot
  · intro hpref
    exact hpref.trans (List.prefix_append _ _)

theorem decided_of_length {m : List UInt8} (h : maxDataSize ≤ m.length) : Decided m :=
  Or.inl (le_trans (by decide) h)

theorem length_of_mem_receivedParts {known : List UInt8} (hknown : maxDataSize ≤ known.length)
    {chunks : List Chunk} {m : List UInt8} (hm : m ∈ receivedParts known chunks) :
    maxDataSize ≤ m.length := by
  induction chunks generalizing known with
  | nil =>
      rw [List.mem_singleton.mp hm, Chunk.length_onto]
      exact le_max_of_le_right hknown
  | cons c cs ih =>
      have honto : maxDataSize ≤ (c.onto known).length := by
        rw [Chunk.length_onto]
        exact le_max_of_le_right hknown
      rcases List.mem_cons.mp hm with rfl | hm
      · exact honto
      · split at hm
        · exact ih honto hm
        · simp at hm

/-- How much of the buffer the first `recv` call fills. -/
def room : List Chunk → ℕ
  | [] => 0
  | c :: _ => c.bytes.length

theorem room_le (chunks : List Chunk) : room chunks ≤ maxDataSize := by
  cases chunks with
  | nil => exact Nat.zero_le _
  | cons c cs => exact c.length_le

theorem receivedParts_of_length_eq {chunks : List Chunk} {known : List UInt8}
    (h : known.length = room chunks) : receivedParts known chunks = receivedParts [] chunks := by
  cases chunks with
  | nil => rw [List.eq_nil_of_length_eq_zero h]
  | cons c cs =>
      have hle : known.length ≤ c.bytes.length := h.le
      have hsame : c.onto known = c.onto [] := by
        rw [Chunk.onto, Chunk.onto, List.drop_of_length_le hle, List.drop_nil]
      rw [receivedParts, receivedParts, hsame]

/-! ## The effect of a connection -/

/-- The last thing received that looks like a command. -/
def lastCommand (contents : List (List UInt8)) : Option (List UInt8) :=
  (contents.filter (command <+: ·)).getLast?

theorem lastCommand_cons (m : List UInt8) (ms : List (List UInt8)) :
    lastCommand (m :: ms) = (lastCommand ms).or (if command <+: m then some m else none) := by
  unfold lastCommand
  by_cases h : command <+: m
  · rw [List.filter_cons_of_pos (by simpa using h), List.getLast?_cons, if_pos h]
    cases (ms.filter (command <+: ·)).getLast? <;> rfl
  · rw [List.filter_cons_of_neg (by simpa using h), if_neg h, Option.or_none]

/-- The argument that the loop leaves when `t` stands behind the known part. -/
def seektoArgAfter (t : List UInt8) (seektoArg : Option AesdSeekto)
    (contents : List (List UInt8)) : Option AesdSeekto :=
  ((lastCommand contents).map fun m ↦ seektoOf (m ++ t)).or seektoArg

theorem seektoArgAfter_cons (t : List UInt8) (seektoArg : Option AesdSeekto) (m : List UInt8)
    (ms : List (List UInt8)) :
    seektoArgAfter t seektoArg (m :: ms) =
      seektoArgAfter t (if command <+: m then some (seektoOf (m ++ t)) else seektoArg) ms := by
  unfold seektoArgAfter
  rw [lastCommand_cons]
  by_cases h : command <+: m
  · rw [if_pos h, if_pos h]
    cases lastCommand ms <;> rfl
  · rw [if_neg h, if_neg h, Option.or_none]

theorem recvOnce_known {c : Chunk} {known : List UInt8} (hfits : c.bytes.length ≤ known.length)
    (hdecided : Decided (c.onto known)) :
    ∃ written, ∀ (t : List UInt8) (fptr : FILE) (seektoArg : Option AesdSeekto),
      recvOnce ⟨known ++ t, fptr, seektoArg⟩ c.recv = .ok ⟨c.onto known ++ t,
        { fptr with pending := fptr.pending ++ written },
        if command <+: c.onto known then some (seektoOf (c.onto known ++ t)) else seektoArg⟩ := by
  by_cases h : command <+: c.onto known
  · refine ⟨[], ?_⟩
    intro t fptr seektoArg
    have happend : command <+: c.onto known ++ t := (hdecided.append_iff t).mpr h
    simp only [recvOnce_chunk, c.onto_append hfits, if_pos happend, if_pos h, List.append_nil]
  · refine ⟨[c.bytes], ?_⟩
    intro t fptr seektoArg
    have happend : ¬ command <+: c.onto known ++ t := fun hc ↦ h ((hdecided.append_iff t).mp hc)
    simp only [recvOnce_chunk, c.onto_append hfits, if_neg happend, if_neg h]

/-- What is written does not depend on what stands behind the known part, and the
argument depends on it through the last command only. -/
theorem recvToFile_known {chunks : List Chunk} {known : List UInt8}
    (hfits : room chunks ≤ known.length) (hdecided : ∀ m ∈ receivedParts known chunks, Decided m) :
    ∃ written, ∀ (t : List UInt8) (fptr : FILE) (seektoArg : Option AesdSeekto), ∃ mem,
      recvToFile ⟨known ++ t, fptr, seektoArg⟩ (chunks.map Chunk.recv) = .ok ⟨mem,
        { fptr with pending := fptr.pending ++ written },
        seektoArgAfter t seektoArg (receivedParts known chunks)⟩ := by
  induction chunks generalizing known with
  | nil =>
      obtain ⟨written, hone⟩ := recvOnce_known (c := .closed) hfits (hdecided _ List.mem_cons_self)
      refine ⟨written, fun t fptr seektoArg ↦ ⟨Chunk.closed.onto known ++ t, ?_⟩⟩
      rw [receivedParts, seektoArgAfter_cons]
      exact hone t fptr seektoArg
  | cons c cs ih =>
      obtain ⟨first, hone⟩ := recvOnce_known (c := c) hfits (hdecided _ List.mem_cons_self)
      by_cases hfull : c.bytes.length = maxDataSize
      · have hrest : receivedParts known (c :: cs) =
            c.onto known :: receivedParts (c.onto known) cs := by
          rw [receivedParts, if_pos hfull]
        have hlen : maxDataSize ≤ (c.onto known).length := by
          rw [Chunk.length_onto, hfull]
          exact le_max_left _ _
        obtain ⟨rest, hmore⟩ := ih ((room_le cs).trans hlen)
          fun m hm ↦ hdecided m (hrest ▸ List.mem_cons_of_mem _ hm)
        refine ⟨first ++ rest, ?_⟩
        intro t fptr seektoArg
        obtain ⟨mem, hmore⟩ := hmore t { fptr with pending := fptr.pending ++ first }
          (if command <+: c.onto known then some (seektoOf (c.onto known ++ t)) else seektoArg)
        refine ⟨mem, ?_⟩
        rw [List.map_cons, recvToFile_chunk_cons, hone, FallibleRun.ok_bind, if_pos hfull, hmore,
          hrest, seektoArgAfter_cons, List.append_assoc]
      · refine ⟨first, fun t fptr seektoArg ↦ ⟨c.onto known ++ t, ?_⟩⟩
        rw [List.map_cons, recvToFile_chunk_cons, hone, FallibleRun.ok_bind, if_neg hfull,
          receivedParts, if_neg hfull, seektoArgAfter_cons]
        rfl

/-! ## Two runs -/

/-- Both buffers lead to the same `fwrite` calls and leave the same argument. -/
def SameEffect (fptr : FILE) (seektoArg : Option AesdSeekto) (chunks : List Chunk)
    (mem₁ mem₂ : List UInt8) : Prop :=
  ∃ st₁ st₂, recvToFile ⟨mem₁, fptr, seektoArg⟩ (chunks.map Chunk.recv) = .ok st₁ ∧
    recvToFile ⟨mem₂, fptr, seektoArg⟩ (chunks.map Chunk.recv) = .ok st₂ ∧
    st₁.fptr.pending = st₂.fptr.pending ∧ st₁.seektoArg = st₂.seektoArg

def OnlyReceivedMatters (fptr : FILE) (seektoArg : Option AesdSeekto) (chunks : List Chunk) :
    Prop :=
  ∀ mem₁ mem₂ : List UInt8, maxDataSize ≤ mem₁.length → maxDataSize ≤ mem₂.length →
    SameEffect fptr seektoArg chunks mem₁ mem₂

/-- What was received is never a shorter beginning of the command, and the last command
received ends both its numbers (or has the second one at its largest). -/
def SelfContained (chunks : List Chunk) : Prop :=
  (∀ m ∈ receivedParts [] chunks, Decided m) ∧
    ∀ m ∈ lastCommand (receivedParts [] chunks), Settled (m.drop command.length)

theorem seektoArgAfter_eq {contents : List (List UInt8)}
    (h : ∀ m ∈ lastCommand contents, Settled (m.drop command.length)) (t₁ t₂ : List UInt8)
    (seektoArg : Option AesdSeekto) :
    seektoArgAfter t₁ seektoArg contents = seektoArgAfter t₂ seektoArg contents := by
  unfold seektoArgAfter
  cases hlast : lastCommand contents with
  | none => rfl
  | some m =>
      have hmem : m ∈ contents.filter (command <+: ·) := List.mem_of_getLast? hlast
      have hcommand : command <+: m := by simpa using (List.mem_filter.mp hmem).2
      simp only [Option.map_some, seektoOf_append hcommand,
        (h m hlast).scanPair_append t₁ t₂]

/-- What the first chunk overwrites is forgotten. -/
theorem recvToFile_forget {chunks : List Chunk} {known : List UInt8}
    (h : known.length = room chunks) (t : List UInt8) (fptr : FILE)
    (seektoArg : Option AesdSeekto) :
    recvToFile ⟨known ++ t, fptr, seektoArg⟩ (chunks.map Chunk.recv) =
      recvToFile ⟨List.replicate (room chunks) 0 ++ t, fptr, seektoArg⟩
        (chunks.map Chunk.recv) := by
  cases chunks with
  | nil =>
      rw [List.eq_nil_of_length_eq_zero h]
      rfl
  | cons c cs =>
      have hlen : (List.replicate (room (c :: cs)) (0 : UInt8)).length = c.bytes.length :=
        List.length_replicate
      simp only [List.map_cons, recvToFile_chunk_cons, recvOnce_chunk, c.onto_of_length_eq h,
        c.onto_of_length_eq hlen]

/-- The effect when `t` stands behind the part that the first chunk overwrites. -/
theorem recvToFile_receivedParts {chunks : List Chunk}
    (hdecided : ∀ m ∈ receivedParts [] chunks, Decided m) :
    ∃ written, ∀ (known t : List UInt8) (fptr : FILE) (seektoArg : Option AesdSeekto),
      known.length = room chunks → ∃ mem,
        recvToFile ⟨known ++ t, fptr, seektoArg⟩ (chunks.map Chunk.recv) = .ok ⟨mem,
          { fptr with pending := fptr.pending ++ written },
          seektoArgAfter t seektoArg (receivedParts [] chunks)⟩ := by
  have hblank : (List.replicate (room chunks) (0 : UInt8)).length = room chunks :=
    List.length_replicate
  have hsame := receivedParts_of_length_eq hblank
  rw [← hsame] at hdecided
  obtain ⟨written, hrun⟩ := recvToFile_known hblank.ge hdecided
  refine ⟨written, ?_⟩
  intro known t fptr seektoArg hknown
  rw [recvToFile_forget hknown, ← hsame]
  exact hrun t fptr seektoArg

theorem SelfContained.onlyReceivedMatters {chunks : List Chunk} (h : SelfContained chunks)
    (fptr : FILE) (seektoArg : Option AesdSeekto) :
    OnlyReceivedMatters fptr seektoArg chunks := by
  obtain ⟨hdecided, hsettled⟩ := h
  obtain ⟨written, hrun⟩ := recvToFile_receivedParts hdecided
  intro mem₁ mem₂ hmem₁ hmem₂
  have hroom := room_le chunks
  obtain ⟨after₁, hrun₁⟩ := hrun (mem₁.take (room chunks)) (mem₁.drop (room chunks)) fptr seektoArg
    (List.length_take_of_le (hroom.trans hmem₁))
  obtain ⟨after₂, hrun₂⟩ := hrun (mem₂.take (room chunks)) (mem₂.drop (room chunks)) fptr seektoArg
    (List.length_take_of_le (hroom.trans hmem₂))
  rw [List.take_append_drop] at hrun₁ hrun₂
  exact ⟨_, _, hrun₁, hrun₂, rfl, seektoArgAfter_eq hsettled _ _ _⟩

/-- A short chunk that is a beginning of the command is completed by the memory to
whatever command stands there. -/
theorem recvOnce_completed {c : Chunk} (hbegins : c.bytes <+: command) {known : List UInt8}
    (hknown : known.length = c.bytes.length) (t : List UInt8) (fptr : FILE)
    (seektoArg : Option AesdSeekto) :
    recvOnce ⟨known ++ (command.drop c.bytes.length ++ t), fptr, seektoArg⟩ c.recv =
      .ok ⟨command ++ t, fptr, some (seektoOf (command ++ t))⟩ := by
  have honto : c.onto (known ++ (command.drop c.bytes.length ++ t)) = command ++ t := by
    rw [c.onto_of_length_eq hknown, ← List.append_assoc]
    nth_rewrite 1 [List.prefix_iff_eq_take.mp hbegins]
    rw [List.take_append_drop]
  rw [recvOnce_chunk]
  simp only [honto, if_pos (List.prefix_append command t)]

theorem exists_short_of_mem_receivedParts {chunks : List Chunk} {m : List UInt8}
    (hm : m ∈ receivedParts [] chunks) (hshort : m.length < command.length) :
    ∃ c : Chunk, c.bytes = m ∧
      ∀ st, recvToFile st (chunks.map Chunk.recv) = recvOnce st c.recv := by
  cases chunks with
  | nil => exact ⟨Chunk.closed, (List.mem_singleton.mp hm).symm, fun st ↦ rfl⟩
  | cons c cs =>
      have honto : c.onto [] = c.bytes := by
        rw [Chunk.onto, List.drop_nil, List.append_nil]
      rw [receivedParts, honto] at hm
      by_cases hfull : c.bytes.length = maxDataSize
      · -- a full chunk leaves nothing short in the buffer
        have hlong : maxDataSize ≤ m.length := by
          rcases List.mem_cons.mp hm with rfl | hm
          · exact hfull.ge
          · rw [if_pos hfull] at hm
            exact length_of_mem_receivedParts hfull.ge hm
        exact absurd (hlong.trans_lt hshort) (by decide)
      · rw [if_neg hfull, List.mem_singleton] at hm
        refine ⟨c, hm.symm, ?_⟩
        intro st
        rw [List.map_cons, recvToFile_chunk_cons, recvOnce_chunk, FallibleRun.ok_bind, if_neg hfull]

theorem decided_of_onlyReceivedMatters {fptr : FILE} {seektoArg : Option AesdSeekto}
    {chunks : List Chunk} (h : OnlyReceivedMatters fptr seektoArg chunks) :
    ∀ m ∈ receivedParts [] chunks, Decided m := by
  intro m hm
  by_contra hnot
  obtain ⟨hlen, hbegins⟩ : ¬ command.length ≤ m.length ∧ m <+: command := by
    simpa [Decided] using hnot
  obtain ⟨c, rfl, hone⟩ := exists_short_of_mem_receivedParts hm (not_le.mp hlen)
  obtain ⟨t₁, t₂, hlen₁, hlen₂, hne⟩ :=
    exists_scanPair_ne (s := []) (by decide : ¬ Settled []) maxDataSize
  let memory (t : List UInt8) : List UInt8 :=
    List.replicate c.bytes.length 0 ++ (command.drop c.bytes.length ++ t)
  have hrun : ∀ t, recvToFile ⟨memory t, fptr, seektoArg⟩ (chunks.map Chunk.recv) =
      .ok ⟨command ++ t, fptr, some (seektoOf (command ++ t))⟩ := by
    intro t
    rw [hone]
    exact recvOnce_completed hbegins List.length_replicate t fptr seektoArg
  have hmemory : ∀ t : List UInt8, maxDataSize ≤ t.length → maxDataSize ≤ (memory t).length := by
    intro t ht
    simp only [memory, List.length_append]
    omega
  obtain ⟨st₁, st₂, hst₁, hst₂, -, harg⟩ := h (memory t₁) (memory t₂) (hmemory t₁ hlen₁)
    (hmemory t₂ hlen₂)
  cases (hrun t₁).symm.trans hst₁
  cases (hrun t₂).symm.trans hst₂
  have hcommand : command.drop command.length = [] := List.drop_length
  refine seektoOf_ne (List.prefix_refl command) ?_ (Option.some_inj.mp harg)
  rwa [hcommand]

theorem settled_of_onlyReceivedMatters {fptr : FILE} {seektoArg : Option AesdSeekto}
    {chunks : List Chunk} (h : OnlyReceivedMatters fptr seektoArg chunks) :
    ∀ m ∈ lastCommand (receivedParts [] chunks), Settled (m.drop command.length) := by
  have hdecided := decided_of_onlyReceivedMatters h
  obtain ⟨written, hrun⟩ := recvToFile_receivedParts hdecided
  intro m hlast
  have hmem : m ∈ (receivedParts [] chunks).filter (command <+: ·) := List.mem_of_getLast? hlast
  have hcommand : command <+: m := by simpa using (List.mem_filter.mp hmem).2
  by_contra hunsettled
  obtain ⟨t₁, t₂, hlen₁, hlen₂, hne⟩ := exists_scanPair_ne hunsettled maxDataSize
  let blank : List UInt8 := List.replicate (room chunks) 0
  obtain ⟨after₁, hrun₁⟩ := hrun blank t₁ fptr seektoArg List.length_replicate
  obtain ⟨after₂, hrun₂⟩ := hrun blank t₂ fptr seektoArg List.length_replicate
  obtain ⟨st₁, st₂, hst₁, hst₂, -, harg⟩ := h (blank ++ t₁) (blank ++ t₂)
    (by rw [List.length_append]; omega) (by rw [List.length_append]; omega)
  cases hrun₁.symm.trans hst₁
  cases hrun₂.symm.trans hst₂
  have hsome : ∀ t, seektoArgAfter t seektoArg (receivedParts [] chunks) =
      some (seektoOf (m ++ t)) := by
    intro t
    rw [seektoArgAfter, Option.mem_def.mp hlast]
    rfl
  rw [hsome, hsome, Option.some_inj] at harg
  exact seektoOf_ne hcommand hne harg

/-- Only received bytes matter exactly for self-contained messages. -/
theorem onlyReceivedMatters_iff (fptr : FILE) (seektoArg : Option AesdSeekto)
    (chunks : List Chunk) :
    OnlyReceivedMatters fptr seektoArg chunks ↔ SelfContained chunks := by
  constructor
  · intro h
    exact ⟨decided_of_onlyReceivedMatters h, settled_of_onlyReceivedMatters h⟩
  · intro h
    exact h.onlyReceivedMatters fptr seektoArg

def clearedMemory : List UInt8 := List.replicate maxDataSize 0

/-- What an earlier connection left: `AESDCHAR_IOCSEEKTO:1,2`. -/
def leftMemory : List UInt8 := command ++ ([49, 44, 50, 10] ++ List.replicate maxDataSize 0)

theorem not_command_clearedMemory : ¬ command <+: clearedMemory :=
  not_command_replicate maxDataSize (by decide)

/-- A peer that closes without sending anything gets a seek or not, depending on what
`malloc` returned. -/
theorem not_sameEffect_closed :
    maxDataSize ≤ clearedMemory.length ∧ maxDataSize ≤ leftMemory.length ∧
      ¬ SameEffect FILE.fopen none [Chunk.closed] clearedMemory leftMemory := by
  refine ⟨List.length_replicate.ge, ?_, ?_⟩
  · simp [leftMemory]
    omega
  · rintro ⟨st₁, st₂, hst₁, hst₂, -, harg⟩
    have hcleared : ¬ command <+: Chunk.closed.onto clearedMemory := not_command_clearedMemory
    have hleft : command <+: Chunk.closed.onto leftMemory := List.prefix_append _ _
    rw [List.map_singleton, recvToFile_chunk_cons, recvOnce_chunk, FallibleRun.ok_bind,
      if_neg (by decide), if_neg hcleared] at hst₁
    rw [List.map_singleton, recvToFile_chunk_cons, recvOnce_chunk, FallibleRun.ok_bind,
      if_neg (by decide), if_pos hleft] at hst₂
    cases hst₁
    cases hst₂
    exact absurd harg (by simp)

/-! ## The command as a client writes it -/

def seektoText (arg : AesdSeekto) : List UInt8 :=
  command ++ (numeral arg.writeCmd.toNat ++ 44 ::
    (numeral arg.writeCmdOffset.toNat ++ [newline]))

theorem length_seektoText_lt (arg : AesdSeekto) : (seektoText arg).length < maxDataSize := by
  have hnumeral : ∀ n : UInt32, (numeral n.toNat).length ≤ 10 := fun n ↦
    length_numeral_le (by decide) (n.toNat_lt.trans (by decide))
  have hcmd := hnumeral arg.writeCmd
  have hoffset := hnumeral arg.writeCmdOffset
  have hcommand : command.length = 19 := by decide
  simp only [seektoText, List.length_append, List.length_cons, List.length_nil, maxDataSize]
  omega

def seektoChunk (arg : AesdSeekto) : Chunk := ⟨seektoText arg, (length_seektoText_lt arg).le⟩

theorem seektoOf_seektoText (arg : AesdSeekto) (t : List UInt8) :
    seektoOf (seektoText arg ++ t) = arg := by
  have hdrop : (seektoText arg ++ t).drop command.length = numeral arg.writeCmd.toNat ++
      44 :: (numeral arg.writeCmdOffset.toNat ++ newline :: t) := by
    simp [seektoText]
  rw [seektoOf, hdrop, scanPair_numerals _ _ (by decide)]

theorem recvToFile_seektoChunk (arg : AesdSeekto) (mem : List UInt8) (fptr : FILE)
    (seektoArg : Option AesdSeekto) (rest : List Recv) :
    ∃ mem', recvToFile ⟨mem, fptr, seektoArg⟩ ((seektoChunk arg).recv :: rest) =
      .ok ⟨mem', fptr, some arg⟩ := by
  have hcommand : command <+: (seektoChunk arg).onto mem :=
    (List.prefix_append command _).trans (List.prefix_append (seektoText arg) _)
  have hdecoded : seektoOf ((seektoChunk arg).onto mem) = arg := seektoOf_seektoText arg _
  have hshort : ¬ (seektoChunk arg).bytes.length = maxDataSize := (length_seektoText_lt arg).ne
  refine ⟨(seektoChunk arg).onto mem, ?_⟩
  rw [recvToFile_chunk_cons, recvOnce_chunk, FallibleRun.ok_bind, if_neg hshort, if_pos hcommand,
    hdecoded]

/-- `send_file` that passes the pair `arg` to the ioctl and leaves `seekto_arg` null. -/
def sendFileAt (fuel : ℕ) (env : Env) (send : ℕ → ℕ → ℤ) (k : Kernel) (fptr : FILE)
    (arg : AesdSeekto) : Except Stop (List UInt8 × Kernel × FILE × Option AesdSeekto) := do
  let (_, k, fptr) ← fptr.fseek env k 0
  let o := aesdIoctl env k fptr.fPos aesdcharIocseekto arg
  let (reply, k, fptr) ← sendLoop env send fuel 0 o.kernel { fptr with fPos := o.fPos }
  return (reply, k, fptr, none)

/-- The text of a command is decoded to the pair it was made from, whatever the buffer
held; nothing is written, and `send_file` passes the pair on, so that the reply of a
device that works starts where the pair points. -/
theorem seektoText_decodes (arg : AesdSeekto) (mem : List UInt8) (fptr : FILE)
    (seektoArg : Option AesdSeekto) (rest : List Recv) :
    ∃ st, recvToFile ⟨mem, fptr, seektoArg⟩ ((seektoChunk arg).recv :: rest) = .ok st ∧
      st.fptr = fptr ∧ st.seektoArg = some arg ∧
      (∀ fuel env send k, sendFile fuel env send k st.fptr st.seektoArg =
        sendFileAt fuel env send k fptr arg) ∧
      (∀ fuel env send k reply k' fptr' seektoArg',
        sendFile fuel env send k st.fptr st.seektoArg = .ok (reply, k', fptr', seektoArg') →
          seektoArg' = none) ∧
      ∀ (fuel : ℕ) (env : Env) (send : ℕ → ℕ → ℤ) (k : Kernel) (log : Log),
        fptr.pending.flatten = [] → Models k log → FILE.FitsBuffer k → env.Undisturbed →
        (∀ i n, send i n = n) → k.content.length < fuel →
        ∃ fptr', sendFile fuel env send k st.fptr st.seektoArg =
          .ok (k.content.drop (k.seekDistance arg), k, fptr', none) := by
  obtain ⟨mem', hrecv⟩ := recvToFile_seektoChunk arg mem fptr seektoArg rest
  refine ⟨_, hrecv, rfl, rfl, fun _ _ _ _ ↦ rfl, ?_, ?_⟩
  · intro fuel env send k reply k' fptr' seektoArg' hsend
    simp only [sendFile, FallibleRun.bind_eq_ok_iff] at hsend
    obtain ⟨rewound, -, sent, -, hreturn⟩ := hsend
    cases hreturn
    rfl
  · intro fuel env send k log hflushed hmodels hfits henv hsend hfuel
    obtain ⟨r, hsent⟩ := sendFile_of_fseek henv hsend
      (FILE.fseek_of_flatten_eq_nil env k hflushed) hmodels hfits hfuel (some arg)
    exact ⟨.ofReader r, hsent⟩

/-- `AESDCHAR_IOCSEEKTO:0,1` is answered with the stored command from its second byte on. -/
theorem seektoText_decodes_oneCommand :
    ∃ st fptr, recvToFile ⟨leftMemory, FILE.fopen, none⟩ [(seektoChunk ⟨0, 1⟩).recv] = .ok st ∧
      st.seektoArg = some ⟨0, 1⟩ ∧
      sendFile 10 .calm (fun _ n ↦ n) oneCommand.kernel st.fptr st.seektoArg =
        .ok ([98, 10], oneCommand.kernel, fptr, none) := by
  obtain ⟨log, hmodels⟩ := (System.reachable_after _ : oneCommand.Reachable).models
  obtain ⟨st, hrecv, -, harg, -, -, hsend⟩ :=
    seektoText_decodes ⟨0, 1⟩ leftMemory FILE.fopen none []
  have hfits : FILE.FitsBuffer oneCommand.kernel := by
    unfold FILE.FitsBuffer
    decide
  obtain ⟨fptr, hreply⟩ := hsend 10 .calm (fun _ n ↦ n) oneCommand.kernel log rfl hmodels hfits
    Env.calm_undisturbed (fun _ _ ↦ rfl) (by decide)
  have hrest :
      oneCommand.kernel.content.drop (oneCommand.kernel.seekDistance ⟨0, 1⟩) = [98, 10] := by
    decide
  rw [hrest] at hreply
  exact ⟨st, fptr, hrecv, harg, hreply⟩

end Aesd
