import Aesd.SocketServer

/-!
# Replies in pieces

The loop of `send_file` reads the content in pieces of up to 124 bytes and passes each to
one call of `send`, whose result it ignores.  What a call does not take is gone, so the
peer gets a prefix of the content only when nothing is sent after the first piece that
was not taken whole.
-/

namespace Aesd

/-! ## The loop over any `fread` -/

section Loop

variable {σ : Type}

/-- The loop of `send_file` on top of any source; the source's state stands for what the
`fread` calls change. -/
def sendRounds (fread : σ → Except Stop (List UInt8 × σ)) (send : ℕ → ℕ → ℤ) :
    ℕ → ℕ → σ → Except Stop (List UInt8 × σ)
  | 0, _, _ => .error .outOfFuel
  | fuel + 1, i, s => do
      let (sendbuffer, s) ← fread s
      if sendbuffer = [] then return ([], s)
      else
        let (reply, s) ← sendRounds fread send fuel (i + 1) s
        return (sendbuffer.take (send i sendbuffer.length).toNat ++ reply, s)

/-- What the `fread` calls of the loop deliver. -/
def freadPieces (fread : σ → Except Stop (List UInt8 × σ)) :
    ℕ → σ → Except Stop (List (List UInt8) × σ)
  | 0, _ => .error .outOfFuel
  | fuel + 1, s => do
      let (sendbuffer, s) ← fread s
      if sendbuffer = [] then return ([], s)
      else
        let (pieces, s) ← freadPieces fread fuel s
        return (sendbuffer :: pieces, s)

/-- `Left left s` says that the source will still deliver `left`: when every `send` takes all it
is given, the loop passes on just that. -/
theorem sendRounds_all (fread : σ → Except Stop (List UInt8 × σ)) {n : ℕ} (hn : n ≠ 0)
    (Left : List UInt8 → σ → Prop)
    (hread : ∀ left s, Left left s → ∃ s', fread s = .ok (left.take n, s') ∧ Left (left.drop n) s')
    {send : ℕ → ℕ → ℤ} (hsend : ∀ i n, send i n = n) {fuel i : ℕ} {left : List UInt8} {s : σ}
    (hleft : Left left s) (hfuel : left.length < fuel) :
    ∃ s', sendRounds fread send fuel i s = .ok (left, s') ∧ Left [] s' := by
  induction fuel generalizing i left s with
  | zero => omega
  | succ fuel ih =>
      obtain ⟨s₁, hfirst, hleft₁⟩ := hread left s hleft
      rw [sendRounds, hfirst, FallibleRun.ok_bind]
      by_cases hend : left = []
      · rw [hend, List.drop_nil] at hleft₁
        rw [hend, List.take_nil]
        exact ⟨s₁, rfl, hleft₁⟩
      · have hpos := List.length_pos_of_ne_nil hend
        have hne : left.take n ≠ [] := by simp [hn, hend]
        have hless : (left.drop n).length < fuel := by
          rw [List.length_drop]
          omega
        obtain ⟨s₂, hloop, hleft₂⟩ := ih (i := i + 1) hleft₁ hless
        refine ⟨s₂, ?_, hleft₂⟩
        simp only [if_neg hne, hloop, FallibleRun.ok_bind, hsend, Int.toNat_natCast,
          List.take_length, List.take_append_drop]
        rfl

end Loop

theorem sendLoop_eq_sendRounds (env : Env) (send : ℕ → ℕ → ℤ) (fuel i : ℕ) (k : Kernel)
    (fptr : FILE) :
    sendLoop env send fuel i k fptr =
      sendRounds (fun s : Kernel × FILE ↦ s.2.fread env s.1 124) send fuel i (k, fptr) := by
  induction fuel generalizing i k fptr with
  | zero => rfl
  | succ fuel ih =>
      rw [sendLoop, sendRounds]
      cases fptr.fread env k 124 with
      | error stop => rfl
      | ok read =>
          simp only [FallibleRun.ok_bind, ih]

/-- A call of `send`: how much it is asked to take, and a result that POSIX allows. -/
structure SendCall where
  requested : ℕ
  result : ℤ
  requested_pos : 0 < requested
  posix : result = -1 ∨ (1 ≤ result ∧ result ≤ requested)

namespace SendCall

def Whole (c : SendCall) : Prop := c.result = c.requested

def Failed (c : SendCall) : Prop := c.result = -1

variable {c : SendCall}

theorem Whole.not_failed (h : c.Whole) : ¬ c.Failed := by
  intro hfailed
  rw [Whole, hfailed] at h
  omega

theorem Whole.take_eq (h : c.Whole) {p : List UInt8} (hlen : p.length = c.requested) :
    p.take c.result.toNat = p := by
  rw [h, Int.toNat_natCast, ← hlen, List.take_length]

theorem toNat_lt_of_not_whole (h : ¬ c.Whole) : c.result.toNat < c.requested := by
  have hpos := c.requested_pos
  have hne : c.result ≠ c.requested := h
  rcases c.posix with hfailed | ⟨hle, hge⟩
  · rw [hfailed]
    exact hpos
  · omega

theorem toNat_eq_zero_iff : c.result.toNat = 0 ↔ c.Failed := by
  unfold Failed
  rcases c.posix with hfailed | ⟨hle, hge⟩
  · simp [hfailed]
  · omega

end SendCall

/-- The bytes that the peer gets of these pieces. -/
def peerGets : List SendCall → List (List UInt8) → List UInt8
  | c :: cs, p :: ps => p.take c.result.toNat ++ peerGets cs ps
  | _, _ => []

/-- The calls that the loop makes from its `i`-th round on to pass on these pieces. -/
def Serves (send : ℕ → ℕ → ℤ) : ℕ → List SendCall → List (List UInt8) → Prop
  | _, [], [] => True
  | i, c :: cs, p :: ps =>
      p.length = c.requested ∧ send i p.length = c.result ∧ Serves send (i + 1) cs ps
  | _, _, _ => False

theorem sendRounds_eq {σ : Type} {fread : σ → Except Stop (List UInt8 × σ)} {send : ℕ → ℕ → ℤ}
    {fuel i : ℕ} {s s' : σ} {pieces : List (List UInt8)} {calls : List SendCall}
    (hread : freadPieces fread fuel s = .ok (pieces, s')) (hserves : Serves send i calls pieces) :
    sendRounds fread send fuel i s = .ok (peerGets calls pieces, s') := by
  induction fuel generalizing i s pieces calls with
  | zero => cases hread
  | succ fuel ih =>
      rw [freadPieces] at hread
      obtain ⟨⟨sendbuffer, s₁⟩, hfirst, hread⟩ := FallibleRun.bind_eq_ok_iff.mp hread
      rw [sendRounds, hfirst, FallibleRun.ok_bind]
      by_cases hnil : sendbuffer = []
      · simp only [if_pos hnil] at hread ⊢
        cases hread
        cases calls with
        | nil => rfl
        | cons c cs => exact hserves.elim
      · simp only [if_neg hnil] at hread ⊢
        obtain ⟨⟨rest, s₂⟩, hmore, hread⟩ := FallibleRun.bind_eq_ok_iff.mp hread
        cases hread
        cases calls with
        | nil => exact hserves.elim
        | cons c cs =>
            obtain ⟨-, hsend, hrest⟩ := hserves
            rw [ih hmore hrest, FallibleRun.ok_bind, hsend]
            rfl

/-! ## Contents of given lengths -/

/-- Whatever the content is and wherever `fread` has it from, the peer gets a prefix of
it, and all of it unless a call failed. -/
def NoHoles (calls : List SendCall) : Prop :=
  ∀ (σ : Type) (fread : σ → Except Stop (List UInt8 × σ)) (send : ℕ → ℕ → ℤ) (fuel : ℕ)
    (s s' : σ) (pieces : List (List UInt8)),
    freadPieces fread fuel s = .ok (pieces, s') → Serves send 0 calls pieces →
    ∃ reply, sendRounds fread send fuel 0 s = .ok (reply, s') ∧ reply <+: pieces.flatten ∧
      ((∀ c ∈ calls, ¬ c.Failed) → reply = pieces.flatten)

/-- The pieces are as long as the calls are asked to take. -/
def Fit (calls : List SendCall) (pieces : List (List UInt8)) : Prop :=
  List.Forall₂ (fun c p ↦ p.length = c.requested) calls pieces

theorem Serves.fit {send : ℕ → ℕ → ℤ} {i : ℕ} {calls : List SendCall}
    {pieces : List (List UInt8)} (h : Serves send i calls pieces) : Fit calls pieces := by
  induction calls generalizing i pieces with
  | nil =>
      cases pieces with
      | nil => exact .nil
      | cons p ps => exact h.elim
  | cons c cs ih =>
      cases pieces with
      | nil => exact h.elim
      | cons p ps => exact .cons h.1 (ih h.2.2)

def resultsOf (calls : List SendCall) (i _requested : ℕ) : ℤ := (calls[i]?).elim 0 SendCall.result

theorem serves_resultsOf (earlier : List SendCall) {calls : List SendCall}
    {pieces : List (List UInt8)} (h : Fit calls pieces) :
    Serves (resultsOf (earlier ++ calls)) earlier.length calls pieces := by
  induction h generalizing earlier with
  | nil => trivial
  | @cons c p cs ps hlen hrest ih =>
      refine ⟨hlen, by simp [resultsOf], ?_⟩
      simpa using ih (earlier ++ [c])

/-- A source that has the pieces ready. -/
def fromPieces (pieces : List (List UInt8)) : Except Stop (List UInt8 × List (List UInt8)) :=
  .ok (pieces.headD [], pieces.tail)

theorem freadPieces_fromPieces {pieces : List (List UInt8)} (h : ∀ p ∈ pieces, p ≠ []) :
    freadPieces fromPieces (pieces.length + 1) pieces = .ok (pieces, []) := by
  induction pieces with
  | nil => rfl
  | cons p ps ih =>
      have hne : p ≠ [] := h p List.mem_cons_self
      have hrest := ih fun q hq ↦ h q (List.mem_cons_of_mem _ hq)
      rw [List.length_cons, freadPieces, fromPieces, FallibleRun.ok_bind]
      simp only [List.headD_cons, List.tail_cons, if_neg hne, hrest, FallibleRun.ok_bind]
      rfl

theorem Fit.ne_nil {calls : List SendCall} {pieces : List (List UInt8)} (h : Fit calls pieces) :
    ∀ p ∈ pieces, p ≠ [] := by
  induction h with
  | nil => simp
  | @cons c p cs ps hlen hrest ih =>
      refine List.forall_mem_cons.mpr ⟨?_, ih⟩
      apply List.ne_nil_of_length_pos
      rw [hlen]
      exact c.requested_pos

theorem noHoles_iff_fit (calls : List SendCall) :
    NoHoles calls ↔ ∀ pieces, Fit calls pieces → peerGets calls pieces <+: pieces.flatten ∧
      ((∀ c ∈ calls, ¬ c.Failed) → peerGets calls pieces = pieces.flatten) := by
  constructor
  · intro h pieces hfit
    have hread := freadPieces_fromPieces hfit.ne_nil
    have hserves : Serves (resultsOf calls) 0 calls pieces := serves_resultsOf [] hfit
    obtain ⟨reply, hsend, hreply⟩ := h _ fromPieces _ _ pieces [] pieces hread hserves
    cases (sendRounds_eq hread hserves).symm.trans hsend
    exact hreply
  · intro h σ fread send fuel s s' pieces hread hserves
    exact ⟨_, sendRounds_eq hread hserves, h pieces hserves.fit⟩

/-! ## Which results leave no hole -/

theorem peerGets_of_failed {calls : List SendCall} (h : ∀ c ∈ calls, c.Failed)
    (pieces : List (List UInt8)) : peerGets calls pieces = [] := by
  induction calls generalizing pieces with
  | nil => rfl
  | cons c cs ih =>
      cases pieces with
      | nil => rfl
      | cons p ps =>
          have hzero := SendCall.toNat_eq_zero_iff.mpr (h c List.mem_cons_self)
          rw [peerGets, hzero, List.take_zero, List.nil_append]
          exact ih (fun d hd ↦ h d (List.mem_cons_of_mem _ hd)) ps

theorem peerGets_append {calls : List SendCall} {pieces : List (List UInt8)}
    (h : Fit calls pieces) (more : List SendCall) (morePieces : List (List UInt8)) :
    peerGets (calls ++ more) (pieces ++ morePieces) =
      peerGets calls pieces ++ peerGets more morePieces := by
  induction h with
  | nil => rfl
  | cons hlen hrest ih =>
      rw [List.cons_append, List.cons_append, peerGets, peerGets, ih, List.append_assoc]

theorem length_peerGets_le {calls : List SendCall} {pieces : List (List UInt8)} :
    (peerGets calls pieces).length ≤ pieces.flatten.length := by
  induction calls generalizing pieces with
  | nil => exact Nat.zero_le _
  | cons c cs ih =>
      cases pieces with
      | nil => exact Nat.zero_le _
      | cons p ps =>
          rw [peerGets, List.flatten_cons, List.length_append, List.length_append]
          exact Nat.add_le_add (List.length_take_le' _ _) ih

/-- The content whose bytes are all `b`. -/
def filled (b : UInt8) (calls : List SendCall) : List (List UInt8) :=
  calls.map fun c ↦ List.replicate c.requested b

theorem fit_filled (b : UInt8) (calls : List SendCall) : Fit calls (filled b calls) := by
  apply List.forall₂_map_right_iff.mpr
  apply List.forall₂_same.mpr
  intro c _
  exact List.length_replicate

theorem flatten_filled (b : UInt8) (calls : List SendCall) :
    (filled b calls).flatten = List.replicate (filled b calls).flatten.length b := by
  apply List.eq_replicate_of_mem
  intro x hx
  obtain ⟨p, hp, hx⟩ := List.mem_flatten.mp hx
  obtain ⟨c, -, rfl⟩ := List.mem_map.mp hp
  exact List.eq_of_mem_replicate hx

theorem mem_of_mem_peerGets {calls : List SendCall} {pieces : List (List UInt8)} {x : UInt8}
    (hx : x ∈ peerGets calls pieces) : x ∈ pieces.flatten := by
  induction calls generalizing pieces with
  | nil => simp [peerGets] at hx
  | cons c cs ih =>
      cases pieces with
      | nil => simp [peerGets] at hx
      | cons p ps =>
          rw [List.flatten_cons]
          apply List.mem_append.mpr
          rcases List.mem_append.mp hx with hx | hx
          · exact Or.inl (List.mem_of_mem_take hx)
          · exact Or.inr (ih hx)

theorem peerGets_filled (b : UInt8) (calls : List SendCall) :
    peerGets calls (filled b calls) =
      List.replicate (peerGets calls (filled b calls)).length b := by
  apply List.eq_replicate_of_mem
  intro x hx
  have hmem := mem_of_mem_peerGets hx
  rw [flatten_filled] at hmem
  exact List.eq_of_mem_replicate hmem

theorem failed_of_peerGets_filled {b : UInt8} {calls : List SendCall}
    (h : peerGets calls (filled b calls) = []) : ∀ c ∈ calls, c.Failed := by
  induction calls with
  | nil => simp
  | cons c cs ih =>
      obtain ⟨hfirst, hrest⟩ := List.append_eq_nil_iff.mp h
      have hfailed : c.Failed := by
        have hpos := c.requested_pos
        rw [List.take_replicate, List.replicate_eq_nil_iff] at hfirst
        exact SendCall.toNat_eq_zero_iff.mp (by omega)
      exact List.forall_mem_cons.mpr ⟨hfailed, ih hrest⟩

theorem peerGets_eq_flatten_iff {calls : List SendCall} {pieces : List (List UInt8)}
    (h : Fit calls pieces) :
    peerGets calls pieces = pieces.flatten ↔ ∀ c ∈ calls, c.Whole := by
  induction h with
  | nil => simp [peerGets]
  | @cons c p cs ps hlen hrest ih =>
      rw [peerGets, List.flatten_cons, List.forall_mem_cons, ← ih]
      by_cases hwhole : c.Whole
      · rw [hwhole.take_eq hlen, List.append_cancel_left_eq]
        exact ⟨fun heq ↦ ⟨hwhole, heq⟩, fun heq ↦ heq.2⟩
      · refine ⟨fun heq ↦ ?_, fun heq ↦ absurd heq.1 hwhole⟩
        have hshort := SendCall.toNat_lt_of_not_whole hwhole
        have hle : (peerGets cs ps).length ≤ ps.flatten.length := length_peerGets_le
        have hlengths := congrArg List.length heq
        rw [List.length_append, List.length_append, List.length_take] at hlengths
        omega

theorem replicate_append_isPrefix {a n m : ℕ} {rest : List UInt8} (ham : a < m)
    (h : List.replicate a 0 ++ List.replicate n 1 <+: List.replicate m 0 ++ rest) : n = 0 := by
  obtain ⟨t, ht⟩ := h
  by_contra hn
  have hat := congrArg (fun l : List UInt8 ↦ l[a]?) ht
  simp [List.getElem?_append, ham, Nat.pos_of_ne_zero hn] at hat

/-- Zeros in the pieces that were not all taken whole and ones behind them show a hole. -/
theorem failed_of_not_whole {earlier later : List SendCall} (hearlier : ¬ ∀ c ∈ earlier, c.Whole)
    (h : ∀ pieces, Fit (earlier ++ later) pieces →
      peerGets (earlier ++ later) pieces <+: pieces.flatten) : ∀ d ∈ later, d.Failed := by
  have hfit : Fit (earlier ++ later) (filled 0 earlier ++ filled 1 later) :=
    List.rel_append (fit_filled 0 earlier) (fit_filled 1 later)
  have hpref := h _ hfit
  have hshort : (peerGets earlier (filled 0 earlier)).length <
      (filled 0 earlier).flatten.length := by
    apply lt_of_le_of_ne length_peerGets_le
    intro hlen
    apply hearlier
    apply (peerGets_eq_flatten_iff (fit_filled 0 earlier)).mp
    rw [peerGets_filled, hlen, ← flatten_filled]
  rw [peerGets_append (fit_filled 0 earlier), List.flatten_append, peerGets_filled 0,
    peerGets_filled 1, flatten_filled 0] at hpref
  have hnone := replicate_append_isPrefix hshort hpref
  exact failed_of_peerGets_filled (List.eq_nil_of_length_eq_zero hnone)

theorem isPrefix_iff (calls : List SendCall) :
    (∀ pieces, Fit calls pieces → peerGets calls pieces <+: pieces.flatten) ↔
      ∀ before c after, calls = before ++ c :: after →
        c.Whole ∨ ∀ d ∈ after, SendCall.Failed d := by
  constructor
  · rintro h before c after rfl
    by_cases hwhole : c.Whole
    · exact Or.inl hwhole
    · right
      rw [List.append_cons] at h
      apply failed_of_not_whole _ h
      intro hall
      exact hwhole (hall c (by simp))
  · intro h pieces hfit
    induction hfit with
    | nil => exact List.nil_prefix
    | @cons c p cs ps hlen hrest ih =>
        rw [peerGets, List.flatten_cons]
        rcases h [] c cs rfl with hwhole | hfailed
        · rw [hwhole.take_eq hlen]
          apply (List.prefix_append_right_inj p).mpr
          apply ih
          intro before d after hsplit
          exact h (c :: before) d after (congrArg _ hsplit)
        · rw [peerGets_of_failed hfailed, List.append_nil]
          exact (List.take_prefix _ p).trans (List.prefix_append p _)

/-- Behind a call that did not take its piece whole all calls fail, and it has failed
itself or is not the last. -/
def NothingAfterLoss (calls : List SendCall) : Prop :=
  ∀ before c after, calls = before ++ c :: after →
    c.Whole ∨ ((∀ d ∈ after, SendCall.Failed d) ∧ (c.Failed ∨ after ≠ []))

theorem NoHoles.nothingAfterLoss {calls : List SendCall} (h : NoHoles calls) :
    NothingAfterLoss calls := by
  rw [noHoles_iff_fit] at h
  intro before c after hsplit
  have hpref := (isPrefix_iff calls).mp fun pieces hfit ↦ (h pieces hfit).1
  by_cases hwhole : c.Whole
  · exact Or.inl hwhole
  · have hafter : ∀ d ∈ after, d.Failed := (hpref before c after hsplit).resolve_left hwhole
    refine Or.inr ⟨hafter, ?_⟩
    by_contra hlast
    obtain ⟨hfailed, hnil⟩ : ¬ c.Failed ∧ after = [] := by simpa using hlast
    -- every call before this one took its piece whole, as this one did not fail
    have hnone : ∀ d ∈ calls, ¬ d.Failed := by
      intro d hd
      rw [hsplit, hnil] at hd
      rcases List.mem_append.mp hd with hd | hd
      · obtain ⟨first, rest, hbefore⟩ := List.append_of_mem hd
        rcases hpref first d (rest ++ c :: after) (by simp [hsplit, hbefore]) with hd | hrest
        · exact hd.not_failed
        · exact absurd (hrest c (by simp)) hfailed
      · rwa [List.mem_singleton.mp hd]
    have hall := (peerGets_eq_flatten_iff (fit_filled 0 calls)).mp
      ((h _ (fit_filled 0 calls)).2 hnone)
    exact hwhole (hall c (by simp [hsplit]))

theorem NothingAfterLoss.noHoles {calls : List SendCall} (h : NothingAfterLoss calls) :
    NoHoles calls := by
  apply (noHoles_iff_fit calls).mpr
  intro pieces hfit
  refine ⟨?_, ?_⟩
  · apply (isPrefix_iff calls).mpr _ pieces hfit
    intro before c after hsplit
    exact (h before c after hsplit).imp id And.left
  · intro hnone
    apply (peerGets_eq_flatten_iff hfit).mpr
    intro c hc
    obtain ⟨before, after, hsplit⟩ := List.append_of_mem hc
    rcases h before c after hsplit with hwhole | ⟨hafter, hfailed | hne⟩
    · exact hwhole
    · exact absurd hfailed (hnone c hc)
    · obtain ⟨d, hd⟩ := List.exists_mem_of_ne_nil after hne
      exact absurd (hafter d hd) (hnone d (by simp [hsplit, hd]))

/-- The replies have no holes exactly when nothing is sent after a loss. -/
theorem noHoles_iff (calls : List SendCall) : NoHoles calls ↔ NothingAfterLoss calls :=
  ⟨NoHoles.nothingAfterLoss, NothingAfterLoss.noHoles⟩

/-- The loop of `send_file` on the device's stream. -/
theorem NothingAfterLoss.sendLoop {calls : List SendCall} (h : NothingAfterLoss calls) {env : Env}
    {send : ℕ → ℕ → ℤ} {fuel : ℕ} {k k' : Kernel} {fptr fptr' : FILE}
    {pieces : List (List UInt8)}
    (hread : freadPieces (fun s : Kernel × FILE ↦ s.2.fread env s.1 124) fuel (k, fptr) =
      .ok (pieces, k', fptr'))
    (hserves : Serves send 0 calls pieces) :
    ∃ reply, Aesd.sendLoop env send fuel 0 k fptr = .ok (reply, k', fptr') ∧
      reply <+: pieces.flatten ∧ ((∀ c ∈ calls, ¬ c.Failed) → reply = pieces.flatten) := by
  rw [sendLoop_eq_sendRounds]
  exact h.noHoles _ _ send fuel (k, fptr) (k', fptr') pieces hread hserves

theorem FILE.fread_of_eof {file : FILE} (h : file.eof = true) (env : Env) (k : Kernel) (n : ℕ) :
    file.fread env k n =
      .ok (file.readBuf.take n, k, { file with readBuf := file.readBuf.drop n }) := by
  have hfill : FILE.fill env n n k file = .ok (k, file) := by
    cases n with
    | zero => rfl
    | succ n => rw [FILE.fill, if_pos (Or.inr h)]
  rw [FILE.fread, hfill]
  rfl

/-- A stream at its end with 125 bytes read ahead. -/
def readAhead : FILE := ⟨0, [], List.replicate 124 0 ++ [1], true⟩

/-- The first `send` takes all but one byte, the second one takes the rest. -/
def takesLess (i n : ℕ) : ℤ := if i = 0 then n - 1 else n

theorem not_isPrefix_takesLess :
    takesLess 0 124 = 123 ∧ takesLess 1 1 = 1 ∧
      sendLoop .calm takesLess 3 0 System.loaded.kernel readAhead =
        .ok (List.replicate 123 0 ++ [1], System.loaded.kernel, ⟨0, [], [], true⟩) ∧
      ¬ List.replicate 123 0 ++ [1] <+: readAhead.readBuf := by
  refine ⟨rfl, rfl, ?_, ?_⟩
  · simp only [sendLoop, FILE.fread_of_eof, readAhead, FallibleRun.ok_bind, takesLess]
    simp
    rfl
  · intro hpref
    have hone := replicate_append_isPrefix (n := 1) (by decide : 123 < 124) hpref
    exact absurd hone (by decide)

end Aesd
