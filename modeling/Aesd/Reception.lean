import Aesd.ServerReplies

/-!
# Messages in pieces

The loop of `recv_to_file` goes on as long as `recv` fills the whole buffer, and looks
for the command at the start of every chunk.  A message that the network delivers in
several segments therefore arrives whole only when all of them but the last fill the
buffer and none of them happens to start like a command.
-/

namespace Aesd

/-- What one `recv` call delivers of a message. -/
structure Segment where
  bytes : List UInt8
  ne_nil : bytes ≠ []
  length_le : bytes.length ≤ maxDataSize

namespace Segment

def recv (seg : Segment) : Recv := .got seg.bytes seg.length_le

theorem length_pos (seg : Segment) : 0 < seg.bytes.length := List.length_pos_of_ne_nil seg.ne_nil

/-- The receive buffer after the segment arrived. -/
def onto (seg : Segment) (mem : List UInt8) : List UInt8 := seg.bytes ++ mem.drop seg.bytes.length

end Segment

def messageOf (segs : List Segment) : List UInt8 := (segs.map Segment.bytes).flatten

@[simp] theorem messageOf_cons (seg : Segment) (segs : List Segment) :
    messageOf (seg :: segs) = seg.bytes ++ messageOf segs := rfl

theorem messageOf_ne_nil {segs : List Segment} (h : segs ≠ []) : messageOf segs ≠ [] := by
  cases segs with
  | nil => exact absurd rfl h
  | cons seg segs =>
      rw [messageOf_cons]
      exact fun hnil ↦ seg.ne_nil (List.append_eq_nil_iff.mp hnil).1

/-- `recv_to_file` hands the whole message to `fwrite` and sets no seek argument. -/
def ReceivesWhole (st : RecvState) (segs : List Segment) : Prop :=
  ∃ st', recvToFile st (segs.map Segment.recv) = .ok st' ∧
    st'.fptr.pending.flatten = st.fptr.pending.flatten ++ messageOf segs ∧
    st'.seektoArg = st.seektoArg

theorem bytesRecv_got_eq_iff {bytes : List UInt8} (hle : bytes.length ≤ maxDataSize) :
    (Recv.got bytes hle).bytesRecv = maxDataSize ↔ bytes.length = maxDataSize := Nat.cast_inj

theorem recvToFile_got (st : RecvState) {bytes : List UInt8} (hle : bytes.length ≤ maxDataSize)
    (rs : List Recv) :
    recvToFile st (.got bytes hle :: rs) = (recvOnce st (.got bytes hle) >>= fun st ↦
      if bytes.length = maxDataSize then recvToFile st rs else .ok st) := by
  simp only [recvToFile, bytesRecv_got_eq_iff]
  rfl

theorem recvToFile_cons (st : RecvState) (seg : Segment) (rs : List Recv) :
    recvToFile st (seg.recv :: rs) = (recvOnce st seg.recv >>= fun st ↦
      if seg.bytes.length = maxDataSize then recvToFile st rs else .ok st) :=
  recvToFile_got st seg.length_le rs

/-- A segment is written or taken for a command, by what the buffer then starts with. -/
theorem recvOnce_segment (st : RecvState) (seg : Segment) :
    ∃ st', recvOnce st seg.recv = .ok st' ∧ st'.mem = seg.onto st.mem ∧
      ((command <+: st'.mem ∧ st'.fptr.pending = st.fptr.pending) ∨
        (¬ command <+: st'.mem ∧ st'.fptr.pending = st.fptr.pending ++ [seg.bytes] ∧
          st'.seektoArg = st.seektoArg)) := by
  by_cases hmatch : command <+: seg.onto st.mem
  · obtain ⟨arg, hseek⟩ := recvOnce_seek seg.length_le hmatch
    exact ⟨_, hseek, rfl, Or.inl ⟨hmatch, rfl⟩⟩
  · exact ⟨_, recvOnce_write seg.length_le hmatch, rfl, Or.inr ⟨hmatch, rfl, rfl⟩⟩

theorem recvOnce_length_le {st st' : RecvState} {seg : Segment}
    (h : recvOnce st seg.recv = .ok st') :
    st'.fptr.pending.flatten.length ≤ st.fptr.pending.flatten.length + seg.bytes.length := by
  obtain ⟨st₁, hone, -, hcases⟩ := recvOnce_segment st seg
  cases h.symm.trans hone
  rcases hcases with ⟨-, hsame⟩ | ⟨-, hwritten, -⟩
  · rw [hsame]
    exact Nat.le_add_right _ _
  · simp [hwritten]

theorem recvOnce_nothing {st st' : RecvState} (h : recvOnce st (.got [] (by decide)) = .ok st') :
    st'.fptr.pending.flatten = st.fptr.pending.flatten ∧
      (¬ command <+: st.mem → st'.seektoArg = st.seektoArg) := by
  by_cases hmatch : command <+: st.mem
  · obtain ⟨arg, hseek⟩ := @recvOnce_seek st [] (by decide) hmatch
    cases h.symm.trans hseek
    exact ⟨rfl, fun hnot ↦ absurd hmatch hnot⟩
  · cases h.symm.trans (@recvOnce_write st [] (by decide) hmatch)
    exact ⟨by simp, fun _ ↦ rfl⟩

/-- No more is written than was received. -/
theorem recvToFile_length_le {st st' : RecvState} {segs : List Segment}
    (h : recvToFile st (segs.map Segment.recv) = .ok st') :
    st'.fptr.pending.flatten.length ≤
      st.fptr.pending.flatten.length + (messageOf segs).length := by
  induction segs generalizing st with
  | nil =>
      rw [(recvOnce_nothing h).1]
      exact Nat.le_add_right _ _
  | cons seg segs ih =>
      obtain ⟨st₁, hone, -⟩ := recvOnce_segment st seg
      have hgrown := recvOnce_length_le hone
      rw [List.map_cons, recvToFile_cons, hone, FallibleRun.ok_bind] at h
      rw [messageOf_cons, List.length_append]
      split at h
      · have hrest := ih h
        omega
      · cases h
        omega

theorem receivesWhole_last {st : RecvState} {seg : Segment} (hends : newline ∈ seg.bytes) :
    ReceivesWhole st [seg] ↔ ¬ command <+: seg.bytes := by
  obtain ⟨st₁, hone, hmem, hcases⟩ := recvOnce_segment st seg
  have hstarts : command <+: st₁.mem ↔ command <+: seg.bytes := by
    rw [hmem]
    exact command_isPrefix_append_iff (Or.inl hends) _
  -- after a full last segment the loop meets the end of the stream
  obtain ⟨st', hrun, hflat, harg⟩ : ∃ st', recvToFile st [seg.recv] = .ok st' ∧
      st'.fptr.pending.flatten = st₁.fptr.pending.flatten ∧
      (¬ command <+: st₁.mem → st'.seektoArg = st₁.seektoArg) := by
    rw [recvToFile_cons, hone, FallibleRun.ok_bind]
    split
    · obtain ⟨st', hend⟩ : ∃ st', recvToFile st₁ [] = .ok st' := by
        by_cases hmatch : command <+: st₁.mem
        · obtain ⟨arg, hseek⟩ := @recvOnce_seek st₁ [] (by decide) hmatch
          exact ⟨_, hseek⟩
        · exact ⟨_, @recvOnce_write st₁ [] (by decide) hmatch⟩
      exact ⟨st', hend, recvOnce_nothing hend⟩
    · exact ⟨st₁, rfl, rfl, fun _ ↦ rfl⟩
  constructor
  · rintro ⟨st'', hrun', hflat', -⟩ hcommand
    cases hrun.symm.trans hrun'
    rcases hcases with ⟨-, hsame⟩ | ⟨hnot, -, -⟩
    · rw [hflat, hsame, List.self_eq_append_right] at hflat'
      exact messageOf_ne_nil (by simp) hflat'
    · exact hnot (hstarts.mpr hcommand)
  · intro hnot
    rcases hcases with ⟨hmatch, -⟩ | ⟨hnot', hwritten, hkept⟩
    · exact absurd (hstarts.mp hmatch) hnot
    · refine ⟨st', hrun, ?_, (harg hnot').trans hkept⟩
      simp [hflat, hwritten, messageOf]

theorem receivesWhole_cons {st st₁ : RecvState} {seg : Segment}
    (hone : recvOnce st seg.recv = .ok st₁) {segs : List Segment} (hne : segs ≠ []) :
    ReceivesWhole st (seg :: segs) ↔
      seg.bytes.length = maxDataSize ∧ ¬ command <+: seg.bytes ∧ ReceivesWhole st₁ segs := by
  obtain ⟨st₁', hone', hmem, hcases⟩ := recvOnce_segment st seg
  cases hone.symm.trans hone'
  have hpos := List.length_pos_of_ne_nil (messageOf_ne_nil hne)
  have hseg := seg.length_pos
  have hrun : recvToFile st ((seg :: segs).map Segment.recv) =
      if seg.bytes.length = maxDataSize then recvToFile st₁ (segs.map Segment.recv)
      else .ok st₁ := by
    rw [List.map_cons, recvToFile_cons, hone, FallibleRun.ok_bind]
  by_cases hfull : seg.bytes.length = maxDataSize
  · have hstarts : command <+: st₁.mem ↔ command <+: seg.bytes := by
      rw [hmem]
      exact command_isPrefix_append_iff (Or.inr (by rw [hfull]; decide)) _
    rw [if_pos hfull] at hrun
    rcases hcases with ⟨hmatch, hsame⟩ | ⟨hnot, hwritten, hkept⟩
    · -- the segment is taken for a command and is missing from the stream
      have hcommand := hstarts.mp hmatch
      refine ⟨?_, fun h ↦ absurd hcommand h.2.1⟩
      rintro ⟨st', hok, hflat, -⟩
      rw [hrun] at hok
      have hle := recvToFile_length_le hok
      rw [hflat, hsame, messageOf_cons, List.length_append, List.length_append] at hle
      omega
    · have hnotcommand : ¬ command <+: seg.bytes := fun h ↦ hnot (hstarts.mpr h)
      have hflatten : st₁.fptr.pending.flatten ++ messageOf segs =
          st.fptr.pending.flatten ++ messageOf (seg :: segs) := by
        simp [hwritten]
      simp only [ReceivesWhole, hrun, ← hflatten, ← hkept, hfull, hnotcommand, not_false_eq_true,
        true_and]
  · -- the loop ends with this segment
    rw [if_neg hfull] at hrun
    refine ⟨?_, fun h ↦ absurd h.1 hfull⟩
    rintro ⟨st', hok, hflat, -⟩
    cases hrun.symm.trans hok
    have hgrown := recvOnce_length_le hone
    rw [hflat, messageOf_cons, List.length_append, List.length_append] at hgrown
    omega

theorem receivesWhole_iff_of_ends {st : RecvState} {segs : List Segment}
    (hends : (messageOf segs).getLast? = some newline) :
    ReceivesWhole st segs ↔
      (∀ seg ∈ segs.dropLast, seg.bytes.length = maxDataSize) ∧
        ∀ seg ∈ segs, ¬ command <+: seg.bytes := by
  induction segs generalizing st with
  | nil => simp [messageOf] at hends
  | cons seg segs ih =>
      by_cases hnil : segs = []
      · subst hnil
        have hmem : newline ∈ seg.bytes := by
          simpa [messageOf] using List.mem_of_getLast? hends
        rw [receivesWhole_last hmem]
        simp
      · obtain ⟨st₁, hone, -⟩ := recvOnce_segment st seg
        rw [messageOf_cons, List.getLast?_append_of_ne_nil _ (messageOf_ne_nil hnil)] at hends
        rw [receivesWhole_cons hone hnil, ih hends, List.dropLast_cons_of_ne_nil hnil]
        simp only [List.forall_mem_cons]
        tauto

/-- A data message arrives whole exactly when every segment but the last fills the
receive buffer and none starts like a command. -/
theorem receivesWhole_iff (st : RecvState) (segs : List Segment) (hdata : IsData (messageOf segs)) :
    ReceivesWhole st segs ↔
      (∀ seg ∈ segs.dropLast, seg.bytes.length = maxDataSize) ∧
        ∀ seg ∈ segs, ¬ command <+: seg.bytes :=
  receivesWhole_iff_of_ends hdata.ends

theorem not_command_replicate (n : ℕ) {b : UInt8} (hb : 65 ≠ b) :
    ¬ command <+: List.replicate n b := by
  intro hpref
  have hmem := hpref.subset (List.mem_cons_self : 65 ∈ command)
  exact hb (List.eq_of_mem_replicate hmem)

def freshlyOpened : RecvState := ⟨List.replicate maxDataSize 0, FILE.fopen, none⟩

theorem two_le_maxDataSize : 2 ≤ maxDataSize := by decide

def fullThenShort : List Segment :=
  [⟨List.replicate maxDataSize 97, by simp, by simp⟩, ⟨[98, 10], by decide, two_le_maxDataSize⟩]

theorem receivesWhole_fullThenShort : ReceivesWhole freshlyOpened fullThenShort := by
  have hmessage : messageOf fullThenShort = List.replicate maxDataSize 97 ++ [98, 10] := rfl
  have hfull : ¬ command <+: List.replicate maxDataSize 97 :=
    not_command_replicate maxDataSize (by decide)
  have hdata : IsData (messageOf fullThenShort) := by
    refine ⟨?_, ?_, ?_⟩
    · rw [hmessage]
      simp
    · rw [hmessage, List.dropLast_append_of_ne_nil (by simp)]
      simp [newline]
    · rw [hmessage, command_isPrefix_append_iff (Or.inr (by rw [List.length_replicate]; decide))]
      exact hfull
  refine (receivesWhole_iff freshlyOpened fullThenShort hdata).mpr ⟨?_, ?_⟩
  · simp [fullThenShort]
  · simp only [fullThenShort, List.forall_mem_cons]
    exact ⟨hfull, by decide, by simp⟩

def twoShort : List Segment :=
  [⟨[97], by decide, by decide⟩, ⟨[98, 10], by decide, two_le_maxDataSize⟩]

/-- A message in two short segments is cut after the first. -/
theorem not_receivesWhole_twoShort :
    IsData (messageOf twoShort) ∧ ¬ ReceivesWhole freshlyOpened twoShort := by
  refine ⟨⟨by decide, by decide, by decide⟩, ?_⟩
  rintro ⟨st, hrun, hflat, -⟩
  have hnot : ¬ command <+: [97] ++ freshlyOpened.mem.drop 1 := by
    rintro ⟨rest, hrest⟩
    simp [command] at hrest
  rw [twoShort, List.map_cons, recvToFile_cons, Segment.recv, recvOnce_write (by decide) hnot,
    FallibleRun.ok_bind, if_neg (by decide)] at hrun
  cases hrun
  exact absurd hflat (by decide)

end Aesd
