import Aesd.Reading

/-!
# Seeking by command

`aesd_ioctl` adds up entry sizes in array order, from slot zero on, while
`aesd_read` counts from `out_offs`.  The position it computes is the one a reader
would call byte `write_cmd_offset` of command `write_cmd` as long as the entries
in front are together as long as the oldest ones, which is the case until the
ring has wrapped.
-/

namespace Aesd

open MachineWord
open BlockHeap
open OffsetLookup

/-! ## The argument of the ioctl -/

theorem wordOfBytes_wordBytes (w : UInt32) : wordOfBytes (wordBytes w) = w := by
  have hw := w.toNat_lt
  apply UInt32.toNat_inj.mp
  simp only [wordOfBytes, wordBytes, List.foldr_cons, List.foldr_nil, UInt32.toNat_ofNat',
    UInt8.toNat_ofNat']
  omega

theorem AesdSeekto.ofBytes_toBytes (arg : AesdSeekto) : ofBytes arg.toBytes = arg := by
  have hfirst : (wordBytes arg.writeCmd ++ wordBytes arg.writeCmdOffset).take 4 =
      wordBytes arg.writeCmd := rfl
  have hsecond : ((wordBytes arg.writeCmd ++ wordBytes arg.writeCmdOffset).drop 4).take 4 =
      wordBytes arg.writeCmdOffset := rfl
  rw [ofBytes, toBytes, hfirst, hsecond, wordOfBytes_wordBytes, wordOfBytes_wordBytes]

/-- The argument as `copy_from_user` leaves it in the kernel. -/
def AesdSeekto.arrived (env : Env) (arg : AesdSeekto) : AesdSeekto :=
  ofBytes (copyFromUser env arg.toBytes).1

theorem AesdSeekto.arrived_of_readable {env : Env} (henv : env.uncopied = 0) (arg : AesdSeekto) :
    arg.arrived env = arg := by
  rw [arrived, copyFromUser_of_eq_zero (by simp [henv]), ofBytes_toBytes]

/-! ## The position the ioctl computes -/

def Kernel.slotCommands (k : Kernel) : List (List UInt8) :=
  k.aesdDevice.buffer.slots.map k.bytesOf

theorem seektoLoop_eq (buffer : AesdCircularBuffer) (writeCmd left index offset : ℕ)
    (hindex : index ≤ writeCmd)
    (hbound : offset + ((List.range' index (min (writeCmd - index) left)).map
      fun i ↦ (buffer.slot i).size).sum < 2 ^ 63) :
    seektoLoop buffer writeCmd left index offset =
      (offset + ((List.range' index (min (writeCmd - index) left)).map
        fun i ↦ (buffer.slot i).size).sum : ℕ) := by
  induction left generalizing index offset with
  | zero => simp [seektoLoop]
  | succ left ih =>
      rw [seektoLoop]
      by_cases hfound : index = writeCmd
      · simp [hfound]
      · have hsplit : List.range' index (min (writeCmd - index) (left + 1)) =
            index :: List.range' (index + 1) (min (writeCmd - (index + 1)) left) := by
          rw [← List.range'_succ]
          congr 1
          omega
        rw [hsplit, List.map_cons, List.sum_cons] at hbound ⊢
        rw [if_neg hfound, ← Nat.cast_add, wrapS_natCast (by omega),
          ih (index + 1) _ (by omega) (by omega)]
        congr 1
        omega

section Layout

variable {k : Kernel} {log : Log} {es : List AesdBufferEntry}
  {cmds : List (ℕ × List UInt8)} {pend : Option (ℕ × List UInt8)}

theorem Layout.length_bytesOf_slot (h : Layout k log es cmds pend) {e : AesdBufferEntry}
    (he : e ∈ k.aesdDevice.buffer.slots) : (k.bytesOf e).length = e.size := by
  have hmem := h.holds.slots_perm.mem_iff.mp he
  rw [h.walk_eq, List.mem_append, List.mem_replicate, List.mem_map] at hmem
  rcases hmem with ⟨b, hb, rfl⟩ | ⟨-, rfl⟩
  · rw [h.bytesOf_entryOf (List.mem_append_left _ hb)]
    rfl
  · rfl

theorem Layout.sum_slots_eq (h : Layout k log es cmds pend) (n : ℕ) :
    ((List.range' 0 (min n 10)).map fun i ↦ (k.aesdDevice.buffer.slot i).size).sum =
      (k.slotCommands.take n).flatten.length := by
  have hsizes : (k.slotCommands.take n).map List.length =
      (k.aesdDevice.buffer.slots.take n).map AesdBufferEntry.size := by
    rw [Kernel.slotCommands, ← List.map_take, List.map_map]
    apply List.map_congr_left
    intro e he
    exact h.length_bytesOf_slot (List.mem_of_mem_take he)
  rw [List.length_flatten, hsizes, AesdCircularBuffer.slots, ← List.map_take, List.take_range,
    List.map_map, List.range_eq_range']
  rfl

theorem Layout.slotCommands_perm (h : Layout k log es cmds pend) :
    k.slotCommands.Perm (k.storedCommands ++
      List.replicate (10 - k.aesdDevice.buffer.walk.length) []) := by
  have hperm := h.holds.slots_perm.map k.bytesOf
  rwa [List.map_append, List.map_replicate] at hperm

theorem Layout.length_slotCommands_take_le (h : Layout k log es cmds pend) (n : ℕ) :
    (k.slotCommands.take n).flatten.length ≤ k.content.length := by
  have hperm := h.slotCommands_perm.flatten.length_eq
  rw [List.flatten_append, List.flatten_replicate_nil, List.append_nil] at hperm
  rw [Kernel.content, ← hperm]
  exact ((List.take_sublist n _).flatten).length_le

end Layout

theorem Models.length_slotCommands_take_lt {k : Kernel} {log : Log} (h : Models k log) (n : ℕ) :
    (k.slotCommands.take n).flatten.length < 2 ^ 36 := by
  have hlt := h.length_content_lt
  obtain ⟨_, _, _, hlayout⟩ := h
  exact (hlayout.length_slotCommands_take_le n).trans_lt hlt

/-- How far the ioctl moves: over the commands in the first `write_cmd` slots, and
`write_cmd_offset` bytes more. -/
def Kernel.seekDistance (k : Kernel) (arg : AesdSeekto) : ℕ :=
  (k.slotCommands.take arg.writeCmd.toNat).flatten.length + arg.writeCmdOffset.toNat

theorem Models.seekDistance_lt {k : Kernel} {log : Log} (h : Models k log) (arg : AesdSeekto) :
    k.seekDistance arg < 2 ^ 37 := by
  have hle := h.length_slotCommands_take_lt arg.writeCmd.toNat
  have hoff := arg.writeCmdOffset.toNat_lt
  rw [Kernel.seekDistance]
  omega

theorem Models.aesdIoctl_eq {k : Kernel} {log : Log} (h : Models k log) (env : Env) (fPos : ℤ)
    (arg : AesdSeekto) :
    aesdIoctl env k fPos aesdcharIocseekto arg =
      let (newpos, fPos) := aesdLlseek k fPos (k.seekDistance (arg.arrived env)) 1
      ⟨wrapS 32 newpos, k, fPos, []⟩ := by
  rw [aesdIoctl, if_pos rfl, show AesdSeekto.ofBytes (copyFromUser env arg.toBytes).1 =
    arg.arrived env from rfl]
  generalize arg.arrived env = arg
  have hle := h.length_slotCommands_take_lt arg.writeCmd.toNat
  have hlt := h.seekDistance_lt arg
  obtain ⟨_, _, _, hlayout⟩ := h
  have hsum := hlayout.sum_slots_eq arg.writeCmd.toNat
  have hloop := seektoLoop_eq k.aesdDevice.buffer arg.writeCmd.toNat 10 0 0 (Nat.zero_le _)
    (by rw [Nat.sub_zero, hsum]; omega)
  rw [Nat.sub_zero, hsum, Nat.zero_add, Nat.cast_zero] at hloop
  have hoffset : wrapS 64 (((k.slotCommands.take arg.writeCmd.toNat).flatten.length : ℤ) +
      arg.writeCmdOffset.toNat) = k.seekDistance arg := by
    rw [← Nat.cast_add]
    exact wrapS_natCast (by rw [Kernel.seekDistance] at hlt; omega)
  simp only [hloop, hoffset]

/-- Everything the ioctl can do from a position in the range of `loff_t`. -/
theorem Models.aesdIoctl_cases {k : Kernel} {log : Log} (h : Models k log) (env : Env) {fPos : ℤ}
    (hlo : -2 ^ 63 ≤ fPos) (hhi : fPos < 2 ^ 63) (arg : AesdSeekto) {d : ℕ}
    (hd : k.seekDistance (arg.arrived env) = d) :
    (0 ≤ fPos + d ∧ fPos + d < 2 ^ 63 ∧ aesdIoctl env k fPos aesdcharIocseekto arg =
        ⟨wrapS 32 (fPos + d), k, fPos + d, []⟩) ∨
      ((fPos + d < 0 ∨ 2 ^ 63 ≤ fPos + d) ∧ aesdIoctl env k fPos aesdcharIocseekto arg =
        ⟨-einval, k, fPos, []⟩) := by
  have hlt := h.seekDistance_lt (arg.arrived env)
  rw [hd] at hlt
  rw [h.aesdIoctl_eq, hd]
  by_cases hover : 2 ^ 63 ≤ fPos + d
  · have hwrap := wrapS_of_ge hover (by omega)
    refine Or.inr ⟨Or.inr hover, ?_⟩
    simp only [aesdLlseek, hwrap, if_pos (show fPos + d - 2 * 2 ^ 63 < 0 by omega)]
    rfl
  · have hwrap := wrapS_of_range (show -2 ^ 63 ≤ fPos + d by omega) (not_le.mp hover)
    by_cases hneg : fPos + d < 0
    · refine Or.inr ⟨Or.inl hneg, ?_⟩
      simp only [aesdLlseek, hwrap, if_pos hneg]
      rfl
    · refine Or.inl ⟨not_lt.mp hneg, not_le.mp hover, ?_⟩
      simp only [aesdLlseek, hwrap, if_neg hneg]
      rfl

theorem Models.aesdIoctl_fPos {k : Kernel} {log : Log} (h : Models k log) {env : Env}
    (henv : env.uncopied = 0) (arg : AesdSeekto) :
    (aesdIoctl env k 0 aesdcharIocseekto arg).fPos =
      ((k.slotCommands.take arg.writeCmd.toNat).flatten.length + arg.writeCmdOffset.toNat : ℕ) := by
  have hlt := h.seekDistance_lt arg
  rcases h.aesdIoctl_cases env (show (-2 ^ 63 : ℤ) ≤ 0 by decide) (by decide) arg
    (congrArg k.seekDistance (AesdSeekto.arrived_of_readable henv arg)) with
    ⟨-, -, hioctl⟩ | ⟨hout, -⟩
  · rw [hioctl, zero_add]
    rfl
  · omega

theorem Models.step_iocseekto {s : System} {log : Log} (h : Models s.kernel log) {env : Env}
    (henv : env.uncopied = 0) {fd : ℕ} (hfd : s.fPos fd = 0) (arg : AesdSeekto) :
    s.step (.ioctl fd env aesdcharIocseekto arg) =
      .ok (⟨s.kernel, Function.update s.fPos fd
          ((s.kernel.slotCommands.take arg.writeCmd.toNat).flatten.length +
            arg.writeCmdOffset.toNat : ℕ)⟩,
        aesdIoctl env s.kernel 0 aesdcharIocseekto arg) := by
  rw [System.step_eq_ok_iff, aesdIoctl_kernel, h.aesdIoctl_fPos henv arg]
  refine ⟨?_, rfl⟩
  simp only [Call.exec, Call.fd, hfd]

/-! ## Seeking against reading -/

/-- A read at a byte of a stored command delivers that command from there on. -/
theorem Models.step_read_command {s : System} {log : Log} (h : Models s.kernel log) {j off : ℕ}
    {c : List UInt8} (hc : s.kernel.storedCommands[j]? = some c) (hoff : off < c.length) {fd : ℕ}
    (hfd : s.fPos fd = ((s.kernel.storedCommands.take j).flatten.length + off : ℕ)) {env : Env}
    (henv : env.Undisturbed) (count : ℕ) :
    ∃ s' o, s.step (.read fd env count) = .ok (s', o) ∧ o.copied = c.drop off := by
  have hrest := restAt_take_add hc hoff
  have hlen := h.length_content_lt
  have hpiece :
      (s.kernel.storedCommands.take j).flatten.length + off < s.kernel.content.length := by
    by_contra hge
    have hnil := ((reads_restAt s.kernel.storedCommands).piece_eq_nil_iff _).mpr (not_lt.mp hge)
    rw [hrest, List.drop_eq_nil_iff] at hnil
    omega
  exact ⟨_, _, h.step_read henv count hfd (by omega), hrest⟩

/-- The contract of the ioctl on a file at position zero: it moves to byte
`write_cmd_offset` of the command that is `write_cmd`-th oldest, and the next read
delivers that command from there on. -/
def SeekContract (s : System) (fd : ℕ) (env : Env) (arg : AesdSeekto) : Prop :=
  ∃ s' o, s.step (.ioctl fd env aesdcharIocseekto arg) = .ok (s', o) ∧
    s'.fPos fd = ((s.kernel.storedCommands.take arg.writeCmd.toNat).flatten.length +
      arg.writeCmdOffset.toNat : ℕ) ∧
    ∀ (env' : Env) (count : ℕ), env'.Undisturbed →
      ∃ s'' o', s'.step (.read fd env' count) = .ok (s'', o') ∧ o'.copied ≠ [] ∧
        o'.copied <+: (s.kernel.storedCommands.getD arg.writeCmd.toNat []).drop
          arg.writeCmdOffset.toNat

/-- Seeking by command agrees with reading exactly when the commands in the first
`write_cmd` slots are together as long as the `write_cmd` oldest ones. -/
theorem seekContract_iff (s : System) (hs : s.Reachable) (fd : ℕ) (hfd : s.fPos fd = 0) (env : Env)
    (henv : env.uncopied = 0) (arg : AesdSeekto)
    (hcmd : arg.writeCmd.toNat < s.kernel.storedCommands.length)
    (hoffset : arg.writeCmdOffset.toNat <
      (s.kernel.storedCommands.getD arg.writeCmd.toNat []).length) :
    SeekContract s fd env arg ↔
      (s.kernel.slotCommands.take arg.writeCmd.toNat).flatten.length =
        (s.kernel.storedCommands.take arg.writeCmd.toNat).flatten.length := by
  obtain ⟨log, hmodels⟩ := hs.models
  have hstep := hmodels.step_iocseekto henv hfd arg
  constructor
  · rintro ⟨s', o, hstep', hpos, -⟩
    rw [hstep] at hstep'
    cases hstep'
    simp only [Function.update_self, Nat.cast_inj] at hpos
    omega
  · intro hagree
    rw [hagree] at hstep
    obtain ⟨s', o, hsought, hkernel, hpos⟩ :
        ∃ s' o, s.step (.ioctl fd env aesdcharIocseekto arg) = .ok (s', o) ∧
          s'.kernel = s.kernel ∧
          s'.fPos fd = ((s.kernel.storedCommands.take arg.writeCmd.toNat).flatten.length +
            arg.writeCmdOffset.toNat : ℕ) :=
      ⟨_, _, hstep, rfl, Function.update_self ..⟩
    refine ⟨s', o, hsought, hpos, ?_⟩
    intro env' count henv'
    rw [← hkernel] at hmodels hcmd hoffset hpos ⊢
    obtain ⟨c, hc⟩ : ∃ c, s'.kernel.storedCommands[arg.writeCmd.toNat]? = some c :=
      ⟨_, List.getElem?_eq_getElem hcmd⟩
    rw [List.getD_eq_getElem?_getD, hc, Option.getD_some] at hoffset ⊢
    obtain ⟨s'', o', hread, hcopied⟩ := hmodels.step_read_command hc hoffset hpos henv' count
    refine ⟨s'', o', hread, ?_, ?_⟩
    · rw [hcopied]
      simpa using hoffset
    · rw [hcopied]

/-- Until the first command is overwritten, array order is the order of age. -/
theorem Kernel.slotCommands_take_eq {k : Kernel} (hout : k.aesdDevice.buffer.outOffs = 0) {n : ℕ}
    (hn : n ≤ k.storedCommands.length) : k.slotCommands.take n = k.storedCommands.take n := by
  have hocc : k.aesdDevice.buffer.occupied ≤ 10 := by
    unfold AesdCircularBuffer.occupied
    split
    · exact le_rfl
    · exact (Nat.mod_lt _ (by decide)).le
  have hlen : n ≤ k.aesdDevice.buffer.occupied := by
    simpa [storedCommands, AesdCircularBuffer.walk] using hn
  simp only [slotCommands, storedCommands, AesdCircularBuffer.slots, AesdCircularBuffer.walk,
    ← List.map_take, List.take_range, hout, Nat.zero_add]
  rw [min_eq_left hlen, min_eq_left (hlen.trans hocc)]
  congr 1
  apply List.map_congr_left
  intro i hi
  rw [Nat.mod_eq_of_lt ((List.mem_range.mp hi).trans_le (hlen.trans hocc))]

def wrapped : System :=
  System.after ((List.range 11).map fun i ↦
    .write 0 .calm (if i = 1 then .ofList [98, 98, 10] else .ofList [97, 10]))

theorem seekContract_wrapped : SeekContract wrapped 1 .calm ⟨0, 2⟩ :=
  (seekContract_iff wrapped (System.reachable_after _) 1 (by decide) .calm rfl ⟨0, 2⟩ (by decide)
    (by decide)).mpr (by decide)

/-- Asked for the second oldest command, the ioctl counts the newest one instead
of the oldest. -/
theorem not_seekContract_wrapped : ¬ SeekContract wrapped 1 .calm ⟨1, 0⟩ := by
  rintro ⟨s', o, hstep, hpos, -⟩
  have htwo : (wrapped.step (.ioctl 1 .calm aesdcharIocseekto ⟨1, 0⟩)).toOption.map
      (fun r ↦ r.1.fPos 1) = some 2 := by
    decide
  have hthree : (wrapped.kernel.storedCommands.take (1 : UInt32).toNat).flatten.length = 3 := by
    decide
  rw [hstep] at htwo
  simp only [Except.toOption, Option.map_some, Option.some_inj] at htwo
  rw [htwo, hthree] at hpos
  exact absurd hpos (by decide)

end Aesd
