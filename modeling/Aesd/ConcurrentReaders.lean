import Aesd.Reading

/-!
# A reader among writers

One file is read while any number of other files are used in between, each call
one atomic step.  A read delivers the rest of one stored command.  Until the
eleventh command is committed nothing is dropped, so the committed commands only
grow at their end and the reader's position counts what it has received.
-/

namespace Aesd

open MachineWord
open OffsetLookup

/-- The calls that may occur around a reader of `fd`: its own reads and calls on
other files. -/
def Call.Around (fd : ℕ) (call : Call) : Prop :=
  call.fd ≠ fd ∨ ∃ env count, call = .read fd env count

def receivedAt (fd : ℕ) : Call × Outcome → List UInt8
  | (.read fd' _ _, o) => if fd' = fd ∧ 0 < o.retval then o.copied else []
  | _ => []

def received (fd : ℕ) (trace : List (Call × Outcome)) : List UInt8 :=
  trace.flatMap (receivedAt fd)

theorem received_concat (fd : ℕ) (trace : List (Call × Outcome)) (e : Call × Outcome) :
    received fd (trace ++ [e]) = received fd trace ++ receivedAt fd e := by
  simp [received]

theorem receivedAt_of_fd_ne {fd : ℕ} {call : Call} (h : call.fd ≠ fd) (o : Outcome) :
    receivedAt fd (call, o) = [] := by
  cases call with
  | read => exact if_neg fun hread ↦ h hread.1
  | _ => rfl

theorem Log.committed_prefix_step (log : Log) (e : Call × Outcome) :
    log.committed <+: (log.step e).committed := by
  obtain ⟨call, o⟩ := e
  cases call with
  | write fd env buf =>
      simp only [Log.step, Log.write]
      split
      · split
        · exact List.prefix_append _ _
        · exact List.prefix_rfl
      · exact List.prefix_rfl
  | _ => exact List.prefix_rfl

theorem Log.stored_eq_committed {log : Log} (h : log.committed.length ≤ 10) :
    log.stored = log.committed :=
  BoundedRing.rtake_of_length_le h

/-- Before anything was dropped, the reader has received what it has passed. -/
def ReaderInStep (fd : ℕ) (s : System) (log : Log) (bytes : List UInt8) : Prop :=
  Models s.kernel log ∧
    (log.committed.length ≤ 10 → s.fPos fd = bytes.length ∧ bytes <+: log.committed.flatten)

theorem Models.aesdRead_in_step {k : Kernel} {log : Log} (h : Models k log)
    (hten : log.committed.length ≤ 10) {bytes : List UInt8}
    (hpref : bytes <+: log.committed.flatten) {env : Env} {count : ℕ} {o : Outcome}
    (hread : aesdRead env k count bytes.length = .ok o) {new : List UInt8}
    (hnew : new = if 0 < o.retval then o.copied else []) :
    o.fPos = (bytes ++ new).length ∧ bytes ++ new <+: log.committed.flatten := by
  have hlen := h.length_content_lt
  rw [Kernel.content, h.storedCommands_eq, Log.stored_eq_committed hten] at hlen
  have hle := hpref.length_le
  obtain ⟨o', hread', -, hcases⟩ := h.aesdRead_cases env count bytes.length
  cases hread.symm.trans hread'
  rw [Log.stored_eq_committed hten, toU_natCast (by omega)] at hcases
  rcases hcases with ⟨hret, hstay⟩ | ⟨j, c, off, hc, hoff, hsum, hcopied, hret, hmove⟩
  · rw [hnew, if_neg (not_lt.mpr hret), List.append_nil]
    exact ⟨hstay, hpref⟩
  · have hpiece : c.drop off <+: log.committed.flatten.drop bytes.length := by
      rw [← hsum, ← restAt_take_add hc hoff]
      exact (reads_restAt log.committed).consecutive _
    obtain ⟨tail, htail⟩ := hpref
    rw [← htail, List.drop_left] at hpiece
    have hlonger : bytes ++ c.drop off <+: log.committed.flatten := by
      rw [← htail]
      exact (List.prefix_append_right_inj bytes).mpr hpiece
    have hbound := hlonger.length_le
    rw [hnew, if_pos (by rw [hret]; exact_mod_cast Nat.sub_pos_of_lt hoff), hcopied]
    refine ⟨?_, hlonger⟩
    rw [List.length_append, List.length_drop] at hbound ⊢
    rw [hmove, ← Nat.cast_add]
    exact wrapS_natCast (by omega)

theorem ReaderInStep.step {fd : ℕ} {s s' : System} {log : Log} {bytes : List UInt8} {call : Call}
    {o : Outcome} (h : ReaderInStep fd s log bytes) (hcall : call.Around fd)
    (hstep : s.step call = .ok (s', o)) :
    ReaderInStep fd s' (log.step (call, o)) (bytes ++ receivedAt fd (call, o)) := by
  obtain ⟨hmodels, hbytes⟩ := h
  refine ⟨hmodels.step hstep, ?_⟩
  intro hten
  have hgrow := log.committed_prefix_step (call, o)
  obtain ⟨hpos, hpref⟩ := hbytes (hgrow.length_le.trans hten)
  obtain ⟨hexec, rfl⟩ := System.step_eq_ok_iff.mp hstep
  rcases hcall with hother | ⟨env, count, rfl⟩
  · rw [receivedAt_of_fd_ne hother, List.append_nil]
    exact ⟨(Function.update_of_ne hother.symm _ _).trans hpos, hpref.trans hgrow.flatten⟩
  · have hread : aesdRead env s.kernel count bytes.length = .ok o := by
      rw [← hpos]
      exact hexec
    obtain ⟨hnext, hlonger⟩ := hmodels.aesdRead_in_step hten hpref hread
      (show receivedAt fd (.read fd env count, o) = _ by simp [receivedAt])
    exact ⟨(Function.update_self ..).trans hnext, hlonger⟩

/-- A reader of `fd` among calls on other files.  Every moment of such an
interleaving is the end of a shorter one: there, a read that returns bytes returns
the rest of one stored command, and before the eleventh commit the reader has
received the first `f_pos` bytes of what was committed. -/
theorem reader_among_writers (fd : ℕ) (calls : List Call)
    (hcalls : ∀ call ∈ calls, call.Around fd) :
    ((∀ call ∈ calls, call.NonEmpty) →
      ∃ s os, FallibleRun.run System.step System.loaded calls = .ok (s, os)) ∧
    ∀ s os, FallibleRun.run System.step System.loaded calls = .ok (s, os) →
      (∀ env count, ∃ s' o, s.step (.read fd env count) = .ok (s', o) ∧
        (0 < o.retval → ∃ (j : ℕ) (c : List UInt8) (off : ℕ),
          s.kernel.storedCommands[j]? = some c ∧ off < c.length ∧ o.copied = c.drop off ∧
            o.retval = o.copied.length)) ∧
      ((logOf (calls.zip os)).committed.length ≤ 10 →
        received fd (calls.zip os) <+: (logOf (calls.zip os)).committed.flatten ∧
          s.fPos fd = (received fd (calls.zip os)).length) := by
  refine ⟨run_nonEmpty, ?_⟩
  intro s os hrun
  have hinv : ReaderInStep fd s (logOf (calls.zip os)) (received fd (calls.zip os)) := by
    refine FallibleRun.run_trace
      (fun s trace ↦ ReaderInStep fd s (logOf trace) (received fd trace)) (Call.Around fd) ?_
      ⟨models_loaded, fun _ ↦ ⟨rfl, List.nil_prefix⟩⟩ hcalls hrun
    intro s trace call s' o hcall hinv hstep
    rw [logOf_concat, received_concat]
    exact hinv.step hcall hstep
  obtain ⟨hmodels, hbytes⟩ := hinv
  refine ⟨?_, fun hten ↦ (hbytes hten).symm⟩
  intro env count
  obtain ⟨o, hread, -, hcases⟩ := hmodels.aesdRead_cases env count (s.fPos fd)
  refine ⟨_, o, System.step_eq_ok_iff.mpr ⟨hread, rfl⟩, ?_⟩
  intro hpos
  rcases hcases with ⟨hret, -⟩ | ⟨j, c, off, hc, hoff, -, hcopied, hret, -⟩
  · exact absurd hpos (not_lt.mpr hret)
  · refine ⟨j, c, off, by rwa [hmodels.storedCommands_eq], hoff, hcopied, ?_⟩
    rw [hret, hcopied, List.length_drop]

def betweenWriters : List Call :=
  [.write 1 .calm (.ofList [97, 98, 10]), .read 0 .calm 1, .write 1 .calm (.ofList [99]),
    .read 0 .calm 1, .write 2 .calm (.ofList [100, 10]), .read 0 .calm 1]

theorem reader_among_writers_betweenWriters :
    ∃ s os, FallibleRun.run System.step System.loaded betweenWriters = .ok (s, os) ∧
      received 0 (betweenWriters.zip os) <+: [97, 98, 10, 99, 100, 10] ∧
      s.fPos 0 = (received 0 (betweenWriters.zip os)).length := by
  obtain ⟨htotal, hall⟩ := reader_among_writers 0 betweenWriters
    (by simp [betweenWriters, Call.Around, Call.fd])
  obtain ⟨s, os, hrun⟩ := htotal (by simp [betweenWriters, Call.NonEmpty, UserBuf.ofList])
  have hcommitted : (FallibleRun.run System.step System.loaded betweenWriters).toOption.map
      (fun r ↦ (logOf (betweenWriters.zip r.2)).committed) =
        some [[97, 98, 10], [99, 100, 10]] := by
    decide
  rw [hrun] at hcommitted
  simp only [Except.toOption, Option.map_some, Option.some_inj] at hcommitted
  have hreader := (hall s os hrun).2
  rw [hcommitted] at hreader
  exact ⟨s, os, hrun, hreader (by decide)⟩

end Aesd
