import Mathlib

/-!
# The listening socket

`get_listener` of `aesdsocket.c` goes through the addresses that `getaddrinfo` found and
keeps the socket of the first one that `socket`, `setsockopt` and `bind` all accept; `main`
calls it until it succeeds.  A socket that `bind` refuses is closed, one on which
`setsockopt` fails is not: it stays open, once for every such address in every attempt.
-/

namespace Aesd

/-- Which of the three calls fail for an address. -/
structure Addrinfo where
  socketFails : Bool
  setsockoptFails : Bool
  bindFails : Bool
  deriving DecidableEq, Repr

inductive Getaddrinfo where
  | failed
  | found (servinfo : List Addrinfo)
  deriving DecidableEq, Repr

/-- The descriptor that `socket` returns: the lowest one that is not open. -/
def lowestFree (fds : Finset ℕ) : ℕ := Nat.find (Infinite.exists_notMem_finset fds)

theorem lowestFree_notMem (fds : Finset ℕ) : lowestFree fds ∉ fds :=
  Nat.find_spec (Infinite.exists_notMem_finset fds)

/-- The loop of `get_listener`: the socket it breaks with, if any, and the open
descriptors. -/
def tryAddresses (fds : Finset ℕ) : List Addrinfo → Option ℕ × Finset ℕ
  | [] => (none, fds)
  | p :: rest =>
      if p.socketFails then tryAddresses fds rest
      else
        let sockfd := lowestFree fds
        if p.setsockoptFails then tryAddresses (insert sockfd fds) rest
        else if p.bindFails then tryAddresses ((insert sockfd fds).erase sockfd) rest
        else (some sockfd, insert sockfd fds)

def getListener (fds : Finset ℕ) : Getaddrinfo → ℤ × Finset ℕ
  | .failed => (-1, fds)
  | .found servinfo =>
      match tryAddresses fds servinfo with
      | (none, fds) => (-1, fds)
      | (some sockfd, fds) => (sockfd, fds)

def isError (val : ℤ) : Bool := val < 0

/-- The calls of `get_listener` at the start of `main`, as far as the outcomes go: the
last result and the open descriptors. -/
def retryListener (fds : Finset ℕ) : List Getaddrinfo → ℤ × Finset ℕ
  | [] => (-1, fds)
  | a :: rest =>
      let (sockfd, fds) := getListener fds a
      if isError sockfd then retryListener fds rest else (sockfd, fds)

namespace Addrinfo

def Passes (p : Addrinfo) : Prop :=
  p.socketFails = false ∧ p.setsockoptFails = false ∧ p.bindFails = false

instance : DecidablePred Passes := fun _ ↦ inferInstanceAs (Decidable (_ ∧ _))

/-- A socket is opened, and `setsockopt` fails on it. -/
def Leaks (p : Addrinfo) : Prop := p.socketFails = false ∧ p.setsockoptFails = true

instance : DecidablePred Leaks := fun _ ↦ inferInstanceAs (Decidable (_ ∧ _))

end Addrinfo

/-! ## One address -/

theorem tryAddresses_passes (fds : Finset ℕ) {p : Addrinfo} (h : p.Passes) (rest : List Addrinfo) :
    tryAddresses fds (p :: rest) = (some (lowestFree fds), insert (lowestFree fds) fds) := by
  obtain ⟨hsocket, hset, hbind⟩ := h
  simp [tryAddresses, hsocket, hset, hbind]

theorem tryAddresses_leaks (fds : Finset ℕ) {p : Addrinfo} (h : p.Leaks) (rest : List Addrinfo) :
    tryAddresses fds (p :: rest) = tryAddresses (insert (lowestFree fds) fds) rest := by
  obtain ⟨hsocket, hset⟩ := h
  simp [tryAddresses, hsocket, hset]

theorem tryAddresses_skips (fds : Finset ℕ) {p : Addrinfo} (hpasses : ¬ p.Passes)
    (hleaks : ¬ p.Leaks) (rest : List Addrinfo) :
    tryAddresses fds (p :: rest) = tryAddresses fds rest := by
  have hclosed : (insert (lowestFree fds) fds).erase (lowestFree fds) = fds :=
    Finset.erase_insert (lowestFree_notMem fds)
  obtain ⟨socketFails, setsockoptFails, bindFails⟩ := p
  cases socketFails with
  | true => simp [tryAddresses]
  | false =>
      cases setsockoptFails with
      | true => exact absurd ⟨rfl, rfl⟩ hleaks
      | false =>
          cases bindFails with
          | true => simp [tryAddresses, hclosed]
          | false => exact absurd ⟨rfl, rfl, rfl⟩ hpasses

/-! ## All addresses -/

/-- The addresses that are tried without success. -/
def refused (servinfo : List Addrinfo) : List Addrinfo := servinfo.takeWhile (¬ ·.Passes)

theorem refused_cons (p : Addrinfo) (rest : List Addrinfo) :
    refused (p :: rest) = if p.Passes then [] else p :: refused rest := by
  by_cases h : p.Passes <;> simp [refused, h]

/-- Induction over the addresses that are tried. -/
theorem tryAddresses_induction {P : Finset ℕ → List Addrinfo → Option ℕ × Finset ℕ → Prop}
    (nil : ∀ fds, P fds [] (none, fds))
    (passes : ∀ fds p rest, p.Passes →
      P fds (p :: rest) (some (lowestFree fds), insert (lowestFree fds) fds))
    (leaks : ∀ fds p rest r, p.Leaks → ¬ p.Passes → P (insert (lowestFree fds) fds) rest r →
      P fds (p :: rest) r)
    (skips : ∀ fds p rest r, ¬ p.Leaks → ¬ p.Passes → P fds rest r → P fds (p :: rest) r)
    (fds : Finset ℕ) (servinfo : List Addrinfo) : P fds servinfo (tryAddresses fds servinfo) := by
  induction servinfo generalizing fds with
  | nil => exact nil fds
  | cons p rest ih =>
      by_cases hpasses : p.Passes
      · rw [tryAddresses_passes fds hpasses]
        exact passes fds p rest hpasses
      · by_cases hleaks : p.Leaks
        · rw [tryAddresses_leaks fds hleaks]
          exact leaks fds p rest _ hleaks hpasses (ih _)
        · rw [tryAddresses_skips fds hpasses hleaks]
          exact skips fds p rest _ hleaks hpasses (ih fds)

/-- Every address in vain that leaks leaves one more descriptor open. -/
theorem card_tryAddresses (fds : Finset ℕ) (servinfo : List Addrinfo) :
    fds ⊆ (tryAddresses fds servinfo).2 ∧
      (tryAddresses fds servinfo).2.card = fds.card +
        (refused servinfo).countP (·.Leaks) + (tryAddresses fds servinfo).1.toFinset.card := by
  induction fds, servinfo using tryAddresses_induction with
  | nil fds => simp [refused]
  | passes fds p rest hpasses =>
      simp [refused_cons, hpasses, Finset.card_insert_of_notMem (lowestFree_notMem fds)]
  | leaks fds p rest r hleaks hpasses ih =>
      obtain ⟨hsub, hcard⟩ := ih
      refine ⟨(Finset.subset_insert _ _).trans hsub, ?_⟩
      rw [hcard, Finset.card_insert_of_notMem (lowestFree_notMem fds), refused_cons,
        if_neg hpasses, List.countP_cons, if_pos (by simpa)]
      omega
  | skips fds p rest r hleaks hpasses ih =>
      refine ⟨ih.1, ?_⟩
      rw [ih.2, refused_cons, if_neg hpasses, List.countP_cons, if_neg (by simpa), Nat.add_zero]

theorem tryAddresses_isSome_iff (fds : Finset ℕ) (servinfo : List Addrinfo) :
    (tryAddresses fds servinfo).1.isSome = true ↔ ∃ p ∈ servinfo, p.Passes := by
  induction fds, servinfo using tryAddresses_induction with
  | nil fds => simp
  | passes fds p rest hpasses => simp [hpasses]
  | leaks fds p rest r hleaks hpasses ih => simp [ih, hpasses]
  | skips fds p rest r hleaks hpasses ih => simp [ih, hpasses]

/-- The socket that is kept is the one opened for the first address that passes. -/
theorem tryAddresses_first (fds : Finset ℕ) {before : List Addrinfo}
    (hbefore : ∀ b ∈ before, ¬ b.Passes) {p : Addrinfo} (hp : p.Passes) (after : List Addrinfo) :
    (tryAddresses fds (before ++ p :: after)).1 =
      some (lowestFree (tryAddresses fds before).2) := by
  induction before generalizing fds with
  | nil => rw [List.nil_append, tryAddresses_passes fds hp, tryAddresses]
  | cons b before ih =>
      obtain ⟨hb, hrest⟩ := List.forall_mem_cons.mp hbefore
      rw [List.cons_append]
      by_cases hleaks : b.Leaks
      · rw [tryAddresses_leaks fds hleaks, tryAddresses_leaks fds hleaks, ih _ hrest]
      · rw [tryAddresses_skips fds hb hleaks, tryAddresses_skips fds hb hleaks, ih _ hrest]

theorem mem_tryAddresses (fds : Finset ℕ) (servinfo : List Addrinfo) :
    ∀ sockfd ∈ (tryAddresses fds servinfo).1,
      sockfd ∈ (tryAddresses fds servinfo).2 ∧ sockfd ∉ fds := by
  induction fds, servinfo using tryAddresses_induction with
  | nil fds => simp
  | passes fds p rest hpasses => simp [lowestFree_notMem]
  | leaks fds p rest r hleaks hpasses ih =>
      intro sockfd hsockfd
      obtain ⟨hmem, hnot⟩ := ih sockfd hsockfd
      exact ⟨hmem, fun hin ↦ hnot (Finset.mem_insert_of_mem hin)⟩
  | skips fds p rest r hleaks hpasses ih => exact ih

/-- All other sockets are closed again exactly when no refused address leaks. -/
theorem tryAddresses_closes_iff (fds : Finset ℕ) (servinfo : List Addrinfo) :
    (tryAddresses fds servinfo).2 = fds ∪ (tryAddresses fds servinfo).1.toFinset ↔
      ∀ p ∈ refused servinfo, ¬ p.Leaks := by
  obtain ⟨hsub, hcard⟩ := card_tryAddresses fds servinfo
  have hkept : fds ∪ (tryAddresses fds servinfo).1.toFinset ⊆ (tryAddresses fds servinfo).2 := by
    apply Finset.union_subset hsub
    intro sockfd hsockfd
    exact (mem_tryAddresses fds servinfo sockfd (Option.mem_toFinset.mp hsockfd)).1
  have hdisjoint : Disjoint fds (tryAddresses fds servinfo).1.toFinset := by
    apply Finset.disjoint_right.mpr
    intro sockfd hsockfd
    exact (mem_tryAddresses fds servinfo sockfd (Option.mem_toFinset.mp hsockfd)).2
  have hunion := Finset.card_union_of_disjoint hdisjoint
  have hcount : (refused servinfo).countP (·.Leaks) = 0 ↔ ∀ p ∈ refused servinfo, ¬ p.Leaks := by
    simp [List.countP_eq_zero]
  rw [← hcount]
  constructor
  · intro heq
    rw [heq, hunion] at hcard
    omega
  · intro hzero
    apply (Finset.eq_of_subset_of_card_le hkept _).symm
    rw [hcard, hunion, hzero, Nat.add_zero]

/-! ## One call -/

def Getaddrinfo.addresses : Getaddrinfo → List Addrinfo
  | failed => []
  | found servinfo => servinfo

theorem getListener_eq (fds : Finset ℕ) (a : Getaddrinfo) :
    getListener fds a = ((tryAddresses fds a.addresses).1.elim (-1) fun sockfd ↦ (sockfd : ℤ),
      (tryAddresses fds a.addresses).2) := by
  cases a with
  | failed => rfl
  | found servinfo =>
      rw [getListener, Getaddrinfo.addresses]
      rcases tryAddresses fds servinfo with ⟨_ | sockfd, after⟩ <;> rfl

/-- The open descriptors when all sockets but the returned one are closed. -/
def keepsOnly (fds : Finset ℕ) (sockfd : ℤ) : Finset ℕ :=
  if isError sockfd then fds else insert sockfd.toNat fds

/-- A call of `get_listener` returns the socket of the first address that passes all
three steps, fails when there is none, and closes all others. -/
structure CallContract (fds : Finset ℕ) (a : Getaddrinfo) : Prop where
  nonneg_iff : 0 ≤ (getListener fds a).1 ↔ ∃ p ∈ a.addresses, p.Passes
  first : ∀ before p after, a.addresses = before ++ p :: after → (∀ b ∈ before, ¬ b.Passes) →
    p.Passes → (getListener fds a).1 = lowestFree (tryAddresses fds before).2
  closed : (getListener fds a).2 = keepsOnly fds (getListener fds a).1

/-- No address that is tried in vain has `setsockopt` fail on an open socket. -/
def LeakFree (a : Getaddrinfo) : Prop := ∀ p ∈ refused a.addresses, ¬ p.Leaks

theorem isError_natCast (sockfd : ℕ) : isError sockfd = false := by
  simp [isError]

theorem getListener_nonneg_iff (fds : Finset ℕ) (a : Getaddrinfo) :
    0 ≤ (getListener fds a).1 ↔ ∃ p ∈ a.addresses, p.Passes := by
  rw [← tryAddresses_isSome_iff fds, getListener_eq]
  cases (tryAddresses fds a.addresses).1 <;> simp

theorem isError_getListener_iff (fds : Finset ℕ) (a : Getaddrinfo) :
    isError (getListener fds a).1 = true ↔ ∀ p ∈ a.addresses, ¬ p.Passes := by
  have hnonneg := getListener_nonneg_iff fds a
  rw [isError, decide_eq_true_iff, ← not_le, hnonneg, not_exists]
  simp only [not_and]

theorem getListener_closes_iff (fds : Finset ℕ) (a : Getaddrinfo) :
    (getListener fds a).2 = keepsOnly fds (getListener fds a).1 ↔ LeakFree a := by
  rw [LeakFree, ← tryAddresses_closes_iff fds, getListener_eq, keepsOnly]
  cases (tryAddresses fds a.addresses).1 with
  | none => simp [isError]
  | some sockfd => simp [isError_natCast, Finset.union_comm fds]

theorem callContract_iff_leakFree (fds : Finset ℕ) (a : Getaddrinfo) :
    CallContract fds a ↔ LeakFree a := by
  constructor
  · intro h
    exact (getListener_closes_iff fds a).mp h.closed
  · intro h
    refine ⟨getListener_nonneg_iff fds a, ?_, (getListener_closes_iff fds a).mpr h⟩
    intro before p after hsplit hbefore hp
    rw [getListener_eq, hsplit, tryAddresses_first fds hbefore hp]
    rfl

/-! ## Retries -/

/-- The calls that `main` makes, each with the descriptors open before it. -/
def listenerCalls (fds : Finset ℕ) : List Getaddrinfo → List (Finset ℕ × Getaddrinfo)
  | [] => []
  | a :: rest =>
      (fds, a) ::
        if isError (getListener fds a).1 then listenerCalls (getListener fds a).2 rest else []

/-- Every call of `get_listener` meets its contract, and after all of them nothing but
the listening socket is open that was not open before. -/
structure ListenerContract (fds : Finset ℕ) (outcomes : List Getaddrinfo) : Prop where
  calls : ∀ call ∈ listenerCalls fds outcomes, CallContract call.1 call.2
  retries : (retryListener fds outcomes).2 = keepsOnly fds (retryListener fds outcomes).1

/-- No call that `main` gets to leaks. -/
def RetriesLeakFree (outcomes : List Getaddrinfo) : Prop :=
  ∀ before a after, outcomes = before ++ a :: after →
    (∀ b ∈ before, ∀ p ∈ b.addresses, ¬ p.Passes) → LeakFree a

theorem retriesLeakFree_cons_iff (a : Getaddrinfo) (rest : List Getaddrinfo) :
    RetriesLeakFree (a :: rest) ↔
      LeakFree a ∧ ((∀ p ∈ a.addresses, ¬ p.Passes) → RetriesLeakFree rest) := by
  constructor
  · intro h
    refine ⟨h [] a rest rfl (by simp), ?_⟩
    intro hfails before b after hsplit hbefore
    exact h (a :: before) b after (congrArg _ hsplit)
      (List.forall_mem_cons.mpr ⟨hfails, hbefore⟩)
  · rintro ⟨hfirst, hrest⟩ before b after hsplit hbefore
    cases before with
    | nil =>
        obtain ⟨rfl, -⟩ := List.cons.inj hsplit
        exact hfirst
    | cons a' before =>
        obtain ⟨rfl, htail⟩ := List.cons.inj hsplit
        obtain ⟨hfails, hbefore⟩ := List.forall_mem_cons.mp hbefore
        exact hrest hfails before b after htail hbefore

theorem listenerCalls_contract_iff (fds : Finset ℕ) (outcomes : List Getaddrinfo) :
    (∀ call ∈ listenerCalls fds outcomes, CallContract call.1 call.2) ↔
      RetriesLeakFree outcomes := by
  induction outcomes generalizing fds with
  | nil => simp [listenerCalls, RetriesLeakFree]
  | cons a rest ih =>
      rw [retriesLeakFree_cons_iff, listenerCalls, List.forall_mem_cons,
        callContract_iff_leakFree, ← isError_getListener_iff fds]
      apply and_congr_right
      intro _
      by_cases hfails : isError (getListener fds a).1 = true
      · rw [if_pos hfails, ih]
        simp [hfails]
      · simp [hfails]

theorem retryListener_closes {outcomes : List Getaddrinfo} (h : RetriesLeakFree outcomes)
    (fds : Finset ℕ) :
    (retryListener fds outcomes).2 = keepsOnly fds (retryListener fds outcomes).1 := by
  induction outcomes generalizing fds with
  | nil => rfl
  | cons a rest ih =>
      obtain ⟨hfirst, hrest⟩ := (retriesLeakFree_cons_iff a rest).mp h
      have hclosed := (getListener_closes_iff fds a).mpr hfirst
      by_cases hfails : isError (getListener fds a).1 = true
      · have hsame : (getListener fds a).2 = fds := by
          rw [hclosed, keepsOnly, if_pos hfails]
        simp only [retryListener, if_pos hfails, hsame]
        exact ih (hrest ((isError_getListener_iff fds a).mp hfails)) fds
      · simp only [retryListener, if_neg hfails]
        exact hclosed

/-- Setting up the listener leaks no socket exactly when no address tried in vain has
`setsockopt` fail. -/
theorem listenerContract_iff (fds : Finset ℕ) (outcomes : List Getaddrinfo) :
    ListenerContract fds outcomes ↔ RetriesLeakFree outcomes := by
  constructor
  · intro h
    exact (listenerCalls_contract_iff fds outcomes).mp h.calls
  · intro h
    exact ⟨(listenerCalls_contract_iff fds outcomes).mpr h, retryListener_closes h fds⟩

/-- Two attempts with one address on which `setsockopt` fails. -/
def setsockoptFailing : List Getaddrinfo :=
  [.found [⟨false, true, false⟩], .found [⟨false, true, false⟩]]

theorem not_listenerContract_setsockoptFailing :
    retryListener {0, 1, 2} setsockoptFailing = (-1, {0, 1, 2, 3, 4}) ∧
      ¬ ListenerContract {0, 1, 2} setsockoptFailing := by
  have hthree : lowestFree {0, 1, 2} = 3 := (Nat.find_eq_iff _).mpr ⟨by decide, by decide⟩
  have hfour : lowestFree {3, 0, 1, 2} = 4 := (Nat.find_eq_iff _).mpr ⟨by decide, by decide⟩
  have hopen : retryListener {0, 1, 2} setsockoptFailing = (-1, {0, 1, 2, 3, 4}) := by
    have herror : isError (-1) = true := rfl
    simp only [setsockoptFailing, retryListener, getListener, tryAddresses, Bool.false_eq_true,
      if_false, if_true, hthree, herror, hfour]
    decide
  refine ⟨hopen, ?_⟩
  intro h
  have hclosed := h.retries
  rw [hopen] at hclosed
  exact absurd hclosed (by decide)

end Aesd
