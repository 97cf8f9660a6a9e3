import Aesd.ReceiveBuffer

/-!
# Failing `recv` calls

`recv_to_file` logs a failed `recv` and then treats its `-1` like a count: the buffer is
looked at once more and, unless a command stands in it, `fwrite` is asked for
`SIZE_MAX` bytes.  A failure is therefore harmless only behind a full chunk that was a
command.
-/

namespace Aesd

open MachineWord
open CString

def Recv.bytes : Recv → List UInt8
  | failed => []
  | got bytes _ => bytes

/-- The length that a round of the loop passes to `fwrite`, if it calls it. -/
def fwriteSize (st : RecvState) (r : Recv) : Option ℕ :=
  if strncmp (r.into st.mem) command command.length = 0 then none else some (toU 64 r.bytesRecv)

/-- The rounds of the loop, each with the state it starts from. -/
def recvRounds (st : RecvState) : List Recv → List (RecvState × Recv)
  | [] => [(st, .got [] (Nat.zero_le _))]
  | r :: rs =>
      (st, r) :: match recvOnce st r with
        | .ok st => if r.bytesRecv = maxDataSize then recvRounds st rs else []
        | .error _ => []

/-- The round writes as many bytes as it received, and when `recv` failed it changes
neither the stream nor the argument. -/
structure RoundSound (st : RecvState) (r : Recv) : Prop where
  size : ∀ n ∈ fwriteSize st r, (n : ℤ) = r.bytesRecv ∧ n ≤ maxDataSize
  failed : r = .failed → ∃ st', recvOnce st r = .ok st' ∧
    st'.fptr = st.fptr ∧ st'.seektoArg = st.seektoArg

structure WritesOnlyReceived (st : RecvState) (recvs : List Recv) : Prop where
  rounds : ∀ p ∈ recvRounds st recvs, RoundSound p.1 p.2
  written : ∃ st' chunks, recvToFile st recvs = .ok st' ∧
    st'.fptr.pending = st.fptr.pending ++ chunks ∧
    chunks.Sublist ((recvRounds st recvs).map fun p ↦ p.2.bytes)

theorem fwriteSize_of_command {st : RecvState} {r : Recv} (h : command <+: r.into st.mem) :
    fwriteSize st r = none := by
  rw [fwriteSize, if_pos ((strncmp_eq_zero_iff zero_notMem_command _).mpr h)]

theorem fwriteSize_of_not_command {st : RecvState} {r : Recv} (h : ¬ command <+: r.into st.mem) :
    fwriteSize st r = some (toU 64 r.bytesRecv) := by
  rw [fwriteSize, if_neg fun hcmp ↦ h ((strncmp_eq_zero_iff zero_notMem_command _).mp hcmp)]

/-! ## One round -/

theorem roundSound_got (st : RecvState) {bytes : List UInt8} (hle : bytes.length ≤ maxDataSize) :
    RoundSound st (.got bytes hle) := by
  refine ⟨?_, fun hfailed ↦ by cases hfailed⟩
  intro n hn
  by_cases h : command <+: (Recv.got bytes hle).into st.mem
  · rw [fwriteSize_of_command h] at hn
    cases hn
  · have hsize : toU 64 (bytes.length : ℤ) = bytes.length :=
      toU_natCast (hle.trans_lt (by decide))
    rw [fwriteSize_of_not_command h, Recv.bytesRecv, hsize] at hn
    cases hn
    exact ⟨rfl, hle⟩

theorem roundSound_failed_iff (st : RecvState) :
    RoundSound st .failed ↔ command <+: st.mem ∧ st.seektoArg = some (seektoOf st.mem) := by
  constructor
  · rintro ⟨hsize, hfailed⟩
    by_cases h : command <+: Recv.failed.into st.mem
    · obtain ⟨st', hone, -, harg⟩ := hfailed rfl
      cases (recvOnce_command h).symm.trans hone
      exact ⟨h, harg.symm⟩
    · -- `(size_t)-1` is never the number of bytes received
      have hneg := (hsize _ (fwriteSize_of_not_command h)).1
      rw [Recv.bytesRecv] at hneg
      omega
  · rintro ⟨hcommand, harg⟩
    have h : command <+: Recv.failed.into st.mem := hcommand
    refine ⟨?_, fun _ ↦ ⟨_, recvOnce_command h, rfl, harg.symm⟩⟩
    intro n hn
    rw [fwriteSize_of_command h] at hn
    cases hn

/-- `fwrite` is sent beyond the end of any memory there is. -/
theorem recvOnce_failed {st : RecvState} (h : ¬ command <+: st.mem)
    (hlen : st.mem.length < 2 ^ 64 - 1) :
    recvOnce st .failed = .error (.fault .outOfBounds) := by
  have hcmp : ¬ strncmp st.mem command command.length = 0 := by
    rwa [strncmp_eq_zero_iff zero_notMem_command]
  have hsize : toU 64 Recv.failed.bytesRecv = 2 ^ 64 - 1 := by decide
  rw [recvOnce, hsize]
  simp only [Recv.into, hcmp, if_false, FILE.fwrite, hlen, if_true]
  rfl

/-- A sound round goes well and writes what it received, or nothing. -/
theorem RoundSound.recvOnce {st : RecvState} {r : Recv} (h : RoundSound st r) :
    ∃ st', Aesd.recvOnce st r = .ok st' ∧ (st'.fptr.pending = st.fptr.pending ∨
      st'.fptr.pending = st.fptr.pending ++ [r.bytes]) := by
  cases r with
  | failed =>
      obtain ⟨st', hone, hsame, -⟩ := h.failed rfl
      exact ⟨st', hone, Or.inl (congrArg FILE.pending hsame)⟩
  | got bytes hle =>
      refine ⟨_, recvOnce_chunk st ⟨bytes, hle⟩, ?_⟩
      split
      · exact Or.inl rfl
      · exact Or.inr rfl

/-! ## All rounds -/

theorem written_of_roundSound {st : RecvState} {recvs : List Recv}
    (h : ∀ p ∈ recvRounds st recvs, RoundSound p.1 p.2) :
    ∃ st' chunks, recvToFile st recvs = .ok st' ∧
      st'.fptr.pending = st.fptr.pending ++ chunks ∧
      chunks.Sublist ((recvRounds st recvs).map fun p ↦ p.2.bytes) := by
  induction recvs generalizing st with
  | nil =>
      obtain ⟨st', hone, hsame | hmore⟩ := (h _ List.mem_cons_self).recvOnce
      · exact ⟨st', [], hone, by rw [hsame, List.append_nil], List.nil_sublist _⟩
      · exact ⟨st', [[]], hone, hmore, List.Sublist.refl _⟩
  | cons r rs ih =>
      obtain ⟨st₁, hone, hpending⟩ := (h _ List.mem_cons_self).recvOnce
      obtain ⟨chunk, hchunk, hpending₁⟩ : ∃ chunk : List (List UInt8), chunk.Sublist [r.bytes] ∧
          st₁.fptr.pending = st.fptr.pending ++ chunk := by
        rcases hpending with hsame | hmore
        · exact ⟨[], List.nil_sublist _, by rw [hsame, List.append_nil]⟩
        · exact ⟨[r.bytes], List.Sublist.refl _, hmore⟩
      rw [recvRounds, hone] at h ⊢
      rw [recvToFile, hone, FallibleRun.ok_bind]
      by_cases hfull : r.bytesRecv = maxDataSize
      · simp only [if_pos hfull] at h ⊢
        obtain ⟨st', chunks, hrun, hwritten, hsub⟩ := ih fun p hp ↦ h p (List.mem_cons_of_mem _ hp)
        refine ⟨st', chunk ++ chunks, hrun, ?_, hchunk.append hsub⟩
        rw [hwritten, hpending₁, List.append_assoc]
      · simp only [if_neg hfull]
        exact ⟨st₁, chunk, rfl, hpending₁, hchunk⟩

theorem writesOnlyReceived_iff_rounds (st : RecvState) (recvs : List Recv) :
    WritesOnlyReceived st recvs ↔ ∀ p ∈ recvRounds st recvs, RoundSound p.1 p.2 :=
  ⟨fun h ↦ h.rounds, fun h ↦ ⟨h, written_of_roundSound h⟩⟩

/-- When `recv` fails behind full chunks, the last of them starts with the command; when
the first call fails, the command stands in the buffer and its pair is the argument. -/
def FailuresHarmless (st : RecvState) (recvs : List Recv) : Prop :=
  ∀ full rest : List Recv, recvs = full ++ .failed :: rest →
    (∀ r ∈ full, r.bytesRecv = (maxDataSize : ℤ)) →
    match full.getLast? with
    | none => command <+: st.mem ∧ st.seektoArg = some (seektoOf st.mem)
    | some r => command <+: r.bytes

theorem failuresHarmless_nil (st : RecvState) : FailuresHarmless st [] := by
  intro full rest hsplit
  simp at hsplit

theorem failuresHarmless_failed_iff (st : RecvState) (rs : List Recv) :
    FailuresHarmless st (.failed :: rs) ↔
      command <+: st.mem ∧ st.seektoArg = some (seektoOf st.mem) := by
  constructor
  · intro h
    exact h [] rs rfl (by simp)
  · intro h full rest hsplit hfull
    cases full with
    | nil => exact h
    | cons r full =>
        have hr := hfull r List.mem_cons_self
        rw [← (List.cons.inj hsplit).1] at hr
        exact absurd hr (by decide)

theorem failuresHarmless_short (st : RecvState) {c : Chunk} (hshort : c.bytes.length ≠ maxDataSize)
    (rs : List Recv) : FailuresHarmless st (c.recv :: rs) := by
  intro full rest hsplit hfull
  cases full with
  | nil => cases (List.cons.inj hsplit).1
  | cons r full =>
      have hr := hfull r List.mem_cons_self
      rw [← (List.cons.inj hsplit).1, Chunk.recv, Recv.bytesRecv, Nat.cast_inj] at hr
      exact absurd hr hshort

theorem failuresHarmless_full_iff {st st₁ : RecvState} {c : Chunk}
    (hfull : c.bytes.length = maxDataSize) (hone : recvOnce st c.recv = .ok st₁)
    (rs : List Recv) : FailuresHarmless st (c.recv :: rs) ↔ FailuresHarmless st₁ rs := by
  -- the buffer starts with the chunk now, and a command in it has just been decoded
  have hstarts : command <+: c.bytes ↔
      command <+: st₁.mem ∧ st₁.seektoArg = some (seektoOf st₁.mem) := by
    have happend : command <+: c.onto st.mem ↔ command <+: c.bytes :=
      (decided_of_length hfull.ge).append_iff _
    cases (recvOnce_chunk st c).symm.trans hone
    by_cases h : command <+: c.onto st.mem
    · simp only [if_pos h]
      exact ⟨fun _ ↦ ⟨h, trivial⟩, fun _ ↦ happend.mp h⟩
    · simp only [if_neg h]
      exact ⟨fun hc ↦ absurd (happend.mpr hc) h, fun hc ↦ absurd hc.1 h⟩
  constructor
  · intro h full rest hsplit hfulls
    have hwhole := h (c.recv :: full) rest (congrArg _ hsplit) (by
      intro r hr
      rcases List.mem_cons.mp hr with rfl | hr
      · rw [Chunk.recv, Recv.bytesRecv, hfull]
      · exact hfulls r hr)
    cases full with
    | nil => exact hstarts.mp hwhole
    | cons r full => rwa [List.getLast?_cons_cons] at hwhole
  · intro h full rest hsplit hfulls
    cases full with
    | nil => cases (List.cons.inj hsplit).1
    | cons r full =>
        obtain ⟨rfl, htail⟩ := List.cons.inj hsplit
        have hrest := h full rest htail fun r hr ↦ hfulls r (List.mem_cons_of_mem _ hr)
        cases full with
        | nil => exact hstarts.mpr hrest
        | cons r full => rwa [List.getLast?_cons_cons]

theorem roundSound_iff_failuresHarmless (st : RecvState) (recvs : List Recv) :
    (∀ p ∈ recvRounds st recvs, RoundSound p.1 p.2) ↔ FailuresHarmless st recvs := by
  induction recvs generalizing st with
  | nil =>
      refine ⟨fun _ ↦ failuresHarmless_nil st, fun _ p hp ↦ ?_⟩
      rw [List.mem_singleton.mp hp]
      exact roundSound_got st _
  | cons r rs ih =>
      cases r with
      | failed =>
          have hrounds : recvRounds st (.failed :: rs) = [(st, .failed)] := by
            rw [recvRounds]
            split
            · rw [if_neg (by decide)]
            · rfl
          rw [hrounds, failuresHarmless_failed_iff, List.forall_mem_singleton,
            roundSound_failed_iff]
      | got bytes hle =>
          let c : Chunk := ⟨bytes, hle⟩
          have hone := recvOnce_chunk st c
          have hfirst : RoundSound st c.recv := roundSound_got st hle
          have hlength : c.recv.bytesRecv = maxDataSize ↔ c.bytes.length = maxDataSize :=
            bytesRecv_got_eq_iff hle
          change (∀ p ∈ recvRounds st (c.recv :: rs), _) ↔ FailuresHarmless st (c.recv :: rs)
          by_cases hfull : c.bytes.length = maxDataSize
          · rw [failuresHarmless_full_iff hfull hone, ← ih, recvRounds, hone]
            simp only [hlength, if_pos hfull, List.forall_mem_cons, hfirst, true_and]
          · rw [recvRounds, hone]
            simp only [hlength, if_neg hfull, List.forall_mem_singleton, hfirst, true_iff]
            exact failuresHarmless_short st hfull rs

/-- Every `fwrite` writes just what was received, and failures leave no trace, exactly
when the failures are harmless. -/
theorem writesOnlyReceived_iff (st : RecvState) (recvs : List Recv) :
    WritesOnlyReceived st recvs ↔ FailuresHarmless st recvs := by
  rw [writesOnlyReceived_iff_rounds, roundSound_iff_failuresHarmless]

/-- The peer resets the connection before it sent anything. -/
theorem not_writesOnlyReceived_reset :
    fwriteSize ⟨clearedMemory, FILE.fopen, none⟩ .failed = some (2 ^ 64 - 1) ∧
      recvToFile ⟨clearedMemory, FILE.fopen, none⟩ [.failed] = .error (.fault .outOfBounds) ∧
      ¬ WritesOnlyReceived ⟨clearedMemory, FILE.fopen, none⟩ [.failed] := by
  have hsize : fwriteSize ⟨clearedMemory, FILE.fopen, none⟩ .failed = some (2 ^ 64 - 1) :=
    fwriteSize_of_not_command not_command_clearedMemory
  refine ⟨hsize, ?_, ?_⟩
  · have hlen : clearedMemory.length < 2 ^ 64 - 1 :=
      List.length_replicate.trans_lt (by decide)
    rw [recvToFile, recvOnce_failed not_command_clearedMemory hlen]
    rfl
  · intro h
    have hbad := ((h.rounds _ List.mem_cons_self).size _ hsize).1
    exact absurd hbad (by decide)

end Aesd
