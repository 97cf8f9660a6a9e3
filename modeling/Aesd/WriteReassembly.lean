import Aesd.DriverLog
import Aesd.StreamCut

/-!
# How writes become commands

Successful writes are grouped: a write that ends in a newline closes its group.
The device stores the last ten closed groups, each as one command, and keeps the
open group as the partial entry.  Only the last byte of a write is looked at, so
the same bytes cut differently can be stored as different commands; they cannot
when the cuts agree on the newlines that end a write.
-/

namespace Aesd

open StreamCut
open BoundedRing

structure WriteCall where
  fd : ℕ
  env : Env
  buf : UserBuf

namespace WriteCall

def call (w : WriteCall) : Call := .write w.fd w.env w.buf

def bytes (w : WriteCall) : List UInt8 := w.buf.bytes

end WriteCall

def runWrites (ws : List WriteCall) : Except BlockHeap.Fault (System × List Outcome) :=
  FallibleRun.run System.step System.loaded (ws.map WriteCall.call)

def isNewline (b : UInt8) : Bool := b == newline

theorem endsWith_isNewline_iff (payload : List UInt8) :
    endsWith isNewline payload = true ↔ payload.getLast? = some newline := by
  cases h : payload.getLast? with
  | none => simp [endsWith, h]
  | some b => simp [endsWith, h, isNewline]

/-- Writing payload after payload is cutting their sequence into groups. -/
theorem foldl_write_eq {payloads : List (List UInt8)} (hne : ∀ c ∈ payloads, c ≠ []) :
    payloads.foldl Log.write Log.empty =
      ⟨(cutAfter (endsWith isNewline) payloads).1.map List.flatten,
        (cutAfter (endsWith isNewline) payloads).2.flatten⟩ := by
  induction payloads using List.reverseRecOn with
  | nil => rfl
  | append_singleton cs c ih =>
      have hc : c ≠ [] := hne c (by simp)
      rw [List.foldl_append, ih fun d hd ↦ hne d (List.mem_append_left _ hd), cutAfter_concat]
      simp only [List.foldl_cons, List.foldl_nil, Log.write,
        List.getLast?_append_of_ne_nil _ hc, ← endsWith_isNewline_iff]
      split <;> simp

theorem Models.write_retval {s s' : System} {log : Log} (h : Models s.kernel log)
    (w : WriteCall) {o : Outcome} (hstep : s.step w.call = .ok (s', o)) (hok : 0 ≤ o.retval) :
    o.retval = w.bytes.length := by
  obtain ⟨hexec, -⟩ := System.step_eq_ok_iff.mp hstep
  rcases h.aesdWrite_cases w.env w.buf.length_lt (s.fPos w.call.fd) with
    ⟨-, r, hr, hwrite⟩ | ⟨-, k', -, hwrite⟩ | ⟨-, hwrite⟩
  · cases hexec.symm.trans hwrite
    exact absurd hok (by simpa using hr)
  · cases hexec.symm.trans hwrite
    rfl
  · cases hexec.symm.trans hwrite

theorem logOf_writes {ws : List WriteCall} {os : List Outcome}
    (hlen : os.length = ws.length) (hok : ∀ o ∈ os, 0 ≤ o.retval) :
    logOf ((ws.map WriteCall.call).zip os) =
      (ws.map WriteCall.bytes).foldl Log.write Log.empty := by
  unfold logOf
  generalize Log.empty = log
  induction ws generalizing os log with
  | nil => simp
  | cons w ws ih =>
      cases os with
      | nil => simp at hlen
      | cons o os =>
          have hstep : log.step (w.call, o) = log.write w.bytes :=
            if_pos (hok o List.mem_cons_self)
          simp only [List.map_cons, List.zip_cons_cons, List.foldl_cons, hstep]
          exact ih (by simpa using hlen) (fun o' ho ↦ hok o' (List.mem_cons_of_mem o ho)) _

theorem runWrites_spec {ws : List WriteCall} (hne : ∀ w ∈ ws, w.bytes ≠ []) {s : System}
    {os : List Outcome} (hrun : runWrites ws = .ok (s, os)) (hok : ∀ o ∈ os, 0 ≤ o.retval) :
    Models s.kernel ⟨(cutAfter (endsWith isNewline) (ws.map WriteCall.bytes)).1.map List.flatten,
      (cutAfter (endsWith isNewline) (ws.map WriteCall.bytes)).2.flatten⟩ ∧
      os.map Outcome.retval = ws.map fun w ↦ (w.bytes.length : ℤ) := by
  have hlen := FallibleRun.length_of_run hrun
  rw [List.length_map] at hlen
  constructor
  · have hmodels := run_models hrun
    rw [logOf_writes hlen hok, foldl_write_eq] at hmodels
    · exact hmodels
    · intro c hc
      obtain ⟨w, hw, rfl⟩ := List.mem_map.mp hc
      exact hne w hw
  · have hobs := FallibleRun.run_observes (fun s : System ↦ ∃ log, Models s.kernel log)
      (P := fun call o ↦ ∀ w : WriteCall, call = w.call → 0 ≤ o.retval →
        o.retval = (w.bytes.length : ℤ))
      (by
        rintro s call s' o ⟨log, h⟩ hstep
        refine ⟨⟨_, h.step hstep⟩, ?_⟩
        rintro w rfl hret
        exact h.write_retval w hstep hret)
      ⟨_, models_loaded⟩ hrun
    rw [List.forall₂_map_left_iff] at hobs
    clear hrun hlen hne
    induction hobs with
    | nil => rfl
    | cons hone _ ih =>
        simp only [List.map_cons]
        rw [hone _ rfl (hok _ List.mem_cons_self), ih fun o ho ↦ hok o (List.mem_cons_of_mem _ ho)]

theorem runWrites_ok {ws : List WriteCall} (hne : ∀ w ∈ ws, w.bytes ≠ []) :
    ∃ s os, runWrites ws = .ok (s, os) := by
  apply run_nonEmpty
  intro call hcall
  obtain ⟨w, hw, rfl⟩ := List.mem_map.mp hcall
  exact hne w hw

/-- Successful writes with non-empty payloads never fault; they store the last
ten closed groups and keep the open one, and each returns its own length. -/
theorem runWrites_reassembles (ws : List WriteCall) (hne : ∀ w ∈ ws, w.bytes ≠ []) :
    ∃ s os, runWrites ws = .ok (s, os) ∧ ((∀ o ∈ os, 0 ≤ o.retval) →
      let groups := cutAfter (endsWith isNewline) (ws.map WriteCall.bytes)
      s.kernel.storedCommands =
          (groups.1.map List.flatten).drop (groups.1.length - 10) ∧
        s.kernel.bytesOf s.kernel.aesdDevice.partialEntry = groups.2.flatten ∧
        s.kernel.aesdDevice.partialEntry.size = groups.2.flatten.length ∧
        (groups.2 = [] ↔ s.kernel.aesdDevice.partialEntry.buffptr = none) ∧
        os.map Outcome.retval = ws.map fun w ↦ (w.bytes.length : ℤ)) := by
  obtain ⟨s, os, hrun⟩ := runWrites_ok hne
  refine ⟨s, os, hrun, ?_⟩
  intro hok groups
  obtain ⟨⟨es, cmds, pend, hlayout⟩, hret⟩ := runWrites_spec hne hrun hok
  have htail : groups.2.flatten = [] ↔ groups.2 = [] := by
    refine ⟨fun hflat ↦ ?_, fun h ↦ by rw [h]; rfl⟩
    apply List.eq_nil_iff_forall_not_mem.mpr
    intro c hc
    have hmem : c ∈ groups.1.flatten ++ groups.2 := List.mem_append_right _ hc
    rw [flatten_cutAfter] at hmem
    obtain ⟨w, hw, rfl⟩ := List.mem_map.mp hmem
    exact hne w hw (List.flatten_eq_nil_iff.mp hflat _ hc)
  refine ⟨?_, hlayout.partialBytes_eq, hlayout.partialEntry_size, ?_, hret⟩
  · rw [hlayout.storedCommands_eq, Log.stored, List.rtake, List.length_map]
  · rw [hlayout.partialEntry_buffptr_eq_none_iff]
    exact htail.symm

def commandsAndReturns (ws : List WriteCall) : Option (List (List UInt8) × List ℤ) :=
  (runWrites ws).toOption.map fun r ↦ (r.1.kernel.storedCommands, r.2.map Outcome.retval)

theorem eq_of_commandsAndReturns {ws : List WriteCall} {s : System} {os : List Outcome}
    (hrun : runWrites ws = .ok (s, os)) {cmds : List (List UInt8)} {rets : List ℤ}
    (h : commandsAndReturns ws = some (cmds, rets)) (hrets : ∀ r ∈ rets, 0 ≤ r) :
    s.kernel.storedCommands = cmds ∧ ∀ o ∈ os, 0 ≤ o.retval := by
  obtain ⟨hcmds, rfl⟩ : s.kernel.storedCommands = cmds ∧ os.map Outcome.retval = rets := by
    simpa [commandsAndReturns, hrun, Except.toOption] using h
  exact ⟨hcmds, fun o ho ↦ hrets _ (List.mem_map_of_mem ho)⟩

def writtenInPieces : List WriteCall :=
  [⟨0, .calm, .ofList [97]⟩, ⟨1, .calm, .ofList [98, 10]⟩,
    ⟨0, .calm, .ofList [99]⟩]

theorem runWrites_reassembles_writtenInPieces :
    ∃ s os, runWrites writtenInPieces = .ok (s, os) ∧ (∀ o ∈ os, 0 ≤ o.retval) ∧
      s.kernel.storedCommands = [[97, 98, 10]] ∧
      s.kernel.bytesOf s.kernel.aesdDevice.partialEntry = [99] := by
  obtain ⟨s, os, hrun, h⟩ := runWrites_reassembles writtenInPieces
    (by simp [writtenInPieces, WriteCall.bytes, UserBuf.ofList])
  have hreturns : commandsAndReturns writtenInPieces = some ([[97, 98, 10]], [1, 2, 1]) := by decide
  obtain ⟨-, hok⟩ := eq_of_commandsAndReturns hrun hreturns (by simp)
  exact ⟨s, os, hrun, hok, (h hok).1, (h hok).2.1⟩

/-! ## Cutting the same stream differently -/

/-- Two cuts of one stream into successful writes end in the same commands and
the same partial entry when they agree on the newlines that end a write; when
every newline ends a write, the commands are the lines of the stream. -/
theorem runWrites_chunking (ws ws' : List WriteCall) (hne : ∀ w ∈ ws, w.bytes ≠ [])
    (hne' : ∀ w ∈ ws', w.bytes ≠ [])
    (hstream : (ws.map WriteCall.bytes).flatten = (ws'.map WriteCall.bytes).flatten) :
    ∃ s os s' os', runWrites ws = .ok (s, os) ∧ runWrites ws' = .ok (s', os') ∧
      ((∀ o ∈ os, 0 ≤ o.retval) → (∀ o ∈ os', 0 ≤ o.retval) →
        (cutOffsets (endsWith isNewline) 0 (ws.map WriteCall.bytes) =
            cutOffsets (endsWith isNewline) 0 (ws'.map WriteCall.bytes) →
          s.kernel.storedCommands = s'.kernel.storedCommands ∧
            s.kernel.bytesOf s.kernel.aesdDevice.partialEntry =
              s'.kernel.bytesOf s'.kernel.aesdDevice.partialEntry) ∧
        ((∀ w ∈ ws, MarkedAtEnd isNewline w.bytes) →
          let lines := cutAfter isNewline (ws.map WriteCall.bytes).flatten
          s.kernel.storedCommands = lines.1.drop (lines.1.length - 10) ∧
            s.kernel.bytesOf s.kernel.aesdDevice.partialEntry = lines.2)) := by
  obtain ⟨s, os, hrun⟩ := runWrites_ok hne
  obtain ⟨s', os', hrun'⟩ := runWrites_ok hne'
  refine ⟨s, os, s', os', hrun, hrun', fun hok hok' ↦ ?_⟩
  obtain ⟨⟨_, _, _, h⟩, -⟩ := runWrites_spec hne hrun hok
  obtain ⟨⟨_, _, _, h'⟩, -⟩ := runWrites_spec hne' hrun' hok'
  constructor
  · intro hoffsets
    obtain ⟨hgroups, htail⟩ := cutAfter_eq_of_cutOffsets_eq hstream hoffsets
    rw [h.storedCommands_eq, h'.storedCommands_eq, h.partialBytes_eq, h'.partialBytes_eq]
    exact ⟨by rw [Log.stored, Log.stored, hgroups], htail⟩
  · intro hmarked
    have hchunks : ∀ c ∈ ws.map WriteCall.bytes, MarkedAtEnd isNewline c := by
      intro c hc
      obtain ⟨w, hw, rfl⟩ := List.mem_map.mp hc
      exact hmarked w hw
    rw [cutAfter_flatten hchunks, h.storedCommands_eq, h.partialBytes_eq]
    exact ⟨rfl, rfl⟩

def writtenAtOnce : List WriteCall := [⟨0, .calm, .ofList [97, 10, 98, 10]⟩]

def writtenByLine : List WriteCall :=
  [⟨0, .calm, .ofList [97, 10]⟩, ⟨0, .calm, .ofList [98, 10]⟩]

def writtenByByte : List WriteCall :=
  [97, 10, 98, 10].map fun b ↦ ⟨0, .calm, ⟨[b], by simp⟩⟩

theorem commandsAndReturns_writtenByLine :
    commandsAndReturns writtenByLine = some ([[97, 10], [98, 10]], [2, 2]) := by decide

theorem runWrites_chunking_writtenByLine :
    ∃ s os s' os', runWrites writtenByLine = .ok (s, os) ∧
      runWrites writtenByByte = .ok (s', os') ∧
      s.kernel.storedCommands = s'.kernel.storedCommands ∧
      s.kernel.storedCommands = [[97, 10], [98, 10]] := by
  obtain ⟨s, os, s', os', hrun, hrun', h⟩ := runWrites_chunking writtenByLine writtenByByte
    (by simp [writtenByLine, WriteCall.bytes, UserBuf.ofList])
    (by simp [writtenByByte, WriteCall.bytes]) rfl
  have hreturns : commandsAndReturns writtenByByte = some ([[97, 10], [98, 10]], [1, 1, 1, 1]) := by
    decide
  obtain ⟨-, hok⟩ := eq_of_commandsAndReturns hrun commandsAndReturns_writtenByLine (by simp)
  obtain ⟨-, hok'⟩ := eq_of_commandsAndReturns hrun' hreturns (by simp)
  obtain ⟨hsame, hlines⟩ := h hok hok'
  refine ⟨s, os, s', os', hrun, hrun', (hsame (by decide)).1, (hlines ?_).1⟩
  simp [writtenByLine, WriteCall.bytes, UserBuf.ofList, MarkedAtEnd, isNewline, newline]

/-- The bytes `a`, newline, `b`, newline are one command when written at once
and two commands when written line by line. -/
theorem stored_depends_on_chunking :
    ¬ ∀ ws ws' : List WriteCall, (∀ w ∈ ws, w.bytes ≠ []) → (∀ w ∈ ws', w.bytes ≠ []) →
      (ws.map WriteCall.bytes).flatten = (ws'.map WriteCall.bytes).flatten →
      ∀ s os s' os', runWrites ws = .ok (s, os) → (∀ o ∈ os, 0 ≤ o.retval) →
        runWrites ws' = .ok (s', os') → (∀ o ∈ os', 0 ≤ o.retval) →
          s.kernel.storedCommands = s'.kernel.storedCommands := by
  intro h
  have hne : ∀ w ∈ writtenAtOnce, w.bytes ≠ [] := by
    simp [writtenAtOnce, WriteCall.bytes, UserBuf.ofList]
  have hne' : ∀ w ∈ writtenByLine, w.bytes ≠ [] := by
    simp [writtenByLine, WriteCall.bytes, UserBuf.ofList]
  obtain ⟨s, os, hrun⟩ := runWrites_ok hne
  obtain ⟨s', os', hrun'⟩ := runWrites_ok hne'
  have hreturns : commandsAndReturns writtenAtOnce = some ([[97, 10, 98, 10]], [4]) := by decide
  obtain ⟨hs, hok⟩ := eq_of_commandsAndReturns hrun hreturns (by simp)
  obtain ⟨hs', hok'⟩ := eq_of_commandsAndReturns hrun' commandsAndReturns_writtenByLine (by simp)
  have hsame := h _ _ hne hne' rfl s os s' os' hrun hok hrun' hok'
  rw [hs, hs'] at hsame
  simp at hsame

end Aesd
