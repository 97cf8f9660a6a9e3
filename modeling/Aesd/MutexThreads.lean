import Aesd.FallibleRun

/-!
# Threads that obtain a mutex

`start_thread_obtaining_mutex` of `threading.c` starts a thread that waits, locks a mutex, waits
and unlocks it.  The thread hands its record back to whoever joins it and frees the record.  Any
number of threads over any mutexes run beside each other, and `malloc` and each pthread call may
fail.
-/

namespace Aesd
namespace Threading

structure ThreadData (μ : Type) where
  mutex : μ
  waitToObtainMs : ℤ
  waitToReleaseMs : ℤ
  threadCompleteSuccess : Bool
  deriving DecidableEq, Repr

/-- Where a thread is in `threadfunc`; `rc` is what its last pthread call returned. -/
inductive Place where
  | waitingToObtain
  | locking
  | obtained
  | waitingToRelease
  | unlocking
  | returned (rc : ℤ)
  deriving DecidableEq, Repr

/-- What a thread still has to do, its join included. -/
def Place.left : Place → ℕ
  | waitingToObtain => 6
  | locking => 5
  | obtained => 4
  | waitingToRelease => 3
  | unlocking => 2
  | returned _ => 1

def Place.inSection : Place → Bool
  | obtained | waitingToRelease | unlocking => true
  | waitingToObtain | locking | returned _ => false

/-- The calls of `malloc` so far, the records that are not freed, the threads that are not joined
and the mutexes that are locked.  A number stands for a record and for its thread. -/
structure State (μ : Type) where
  malloced : ℕ
  data : ℕ → Option (ThreadData μ)
  thread : ℕ → Option Place
  owner : μ → Option ℕ

inductive Fault where
  | nullPointer
  | freedPointer
  deriving DecidableEq, Repr

/-- What happens next, with the results of the calls in it. -/
inductive Event (μ : Type) where
  | start (mutex : μ) (waitToObtainMs waitToReleaseMs : ℤ) (mallocFails : Bool) (rc : ℤ)
  | run (n : ℕ) (rc : ℤ)
  | join (n : ℕ)
  deriving DecidableEq, Repr

namespace State

variable {μ : Type}

def initial : State μ := ⟨0, fun _ ↦ none, fun _ ↦ none, fun _ ↦ none⟩

def deref (s : State μ) (n : ℕ) : Except Fault (ThreadData μ) :=
  match s.data n with
  | some d => .ok d
  | none => .error .freedPointer

def goTo (s : State μ) (n : ℕ) (place : Place) : State μ :=
  { s with thread := Function.update s.thread n (some place) }

/-- The result of `malloc` is not looked at. -/
def startThreadObtainingMutex (s : State μ) (mutex : μ) (waitToObtainMs waitToReleaseMs : ℤ)
    (mallocFails : Bool) (rc : ℤ) : Except Fault (State μ × Bool) :=
  if mallocFails then .error .nullPointer
  else
    let data := ⟨mutex, waitToObtainMs, waitToReleaseMs, false⟩
    let started :=
      { s with malloced := s.malloced + 1, data := Function.update s.data s.malloced (some data) }
    if rc = 0 then .ok (started.goTo s.malloced .waitingToObtain, true) else .ok (started, false)

/-- The next statement of `threadfunc`, which may have to wait for the mutex. -/
def threadfunc [DecidableEq μ] (s : State μ) (n : ℕ) (rc : ℤ) :
    Place → Except Fault (Option (State μ))
  | .waitingToObtain => do
      let _ ← s.deref n
      return some (s.goTo n .locking)
  | .locking => do
      let data ← s.deref n
      if rc ≠ 0 then return some (s.goTo n (.returned rc))
      match s.owner data.mutex with
      | some _ => return none
      | none =>
          let locked := { s with owner := Function.update s.owner data.mutex (some n) }
          return some (locked.goTo n .obtained)
  | .obtained => do
      let data ← s.deref n
      let flagged := { data with threadCompleteSuccess := true }
      return some ({ s with data := Function.update s.data n (some flagged) }.goTo n
        .waitingToRelease)
  | .waitingToRelease => do
      let _ ← s.deref n
      return some (s.goTo n .unlocking)
  | .unlocking => do
      let data ← s.deref n
      if rc ≠ 0 then return some (s.goTo n (.returned rc))
      let unlocked := { s with owner := Function.update s.owner data.mutex none }
      return some (unlocked.goTo n (.returned rc))
  | .returned _ => return none

/-- `pthread_join`, a look at the record that it hands over, and `free`. -/
def join (s : State μ) (n : ℕ) : Except Fault (State μ × ThreadData μ) := do
  let data ← s.deref n
  return ({ s with
    data := Function.update s.data n none
    thread := Function.update s.thread n none }, data)

/-- Nothing happens where a thread has to wait or there is none. -/
def step [DecidableEq μ] (s : State μ) : Event μ → Except Fault (Option (State μ))
  | .start mutex waitToObtainMs waitToReleaseMs mallocFails rc => do
      let (s, _) ← s.startThreadObtainingMutex mutex waitToObtainMs waitToReleaseMs mallocFails rc
      return some s
  | .run n rc =>
      match s.thread n with
      | some place => s.threadfunc n rc place
      | none => return none
  | .join n =>
      match s.thread n with
      | some (.returned _) => do
          let (s, _) ← s.join n
          return some s
      | _ => return none

/-! ## What a step does -/

/-- The moves of a thread with the record `d`. -/
inductive Moves [DecidableEq μ] (s : State μ) (n : ℕ) (rc : ℤ) (d : ThreadData μ) :
    Place → State μ → Prop
  | waited : Moves s n rc d .waitingToObtain (s.goTo n .locking)
  | lockFailed (hrc : rc ≠ 0) : Moves s n rc d .locking (s.goTo n (.returned rc))
  | locked (hrc : rc = 0) (hfree : s.owner d.mutex = none) : Moves s n rc d .locking
      ({ s with owner := Function.update s.owner d.mutex (some n) }.goTo n .obtained)
  | flagged : Moves s n rc d .obtained ({ s with
      data := Function.update s.data n (some { d with threadCompleteSuccess := true }) }.goTo n
        .waitingToRelease)
  | held : Moves s n rc d .waitingToRelease (s.goTo n .unlocking)
  | unlockFailed (hrc : rc ≠ 0) : Moves s n rc d .unlocking (s.goTo n (.returned rc))
  | unlocked (hrc : rc = 0) : Moves s n rc d .unlocking
      ({ s with owner := Function.update s.owner d.mutex none }.goTo n (.returned rc))

variable {s t : State μ} {n : ℕ} {rc : ℤ} {d : ThreadData μ} {place : Place}

theorem threadfunc_eq [DecidableEq μ] (hd : s.data n = some d) (rc : ℤ) (place : Place) :
    (∃ t, s.threadfunc n rc place = .ok (some t) ∧ Moves s n rc d place t) ∨
      s.threadfunc n rc place = .ok none ∧
        ((∃ rc', place = .returned rc') ∨
          (place = .locking ∧ rc = 0 ∧ ∃ k, s.owner d.mutex = some k)) := by
  have hderef : s.deref n = .ok d := by rw [deref, hd]
  cases place with
  | waitingToObtain => exact Or.inl ⟨_, by rw [threadfunc, hderef]; rfl, .waited⟩
  | locking =>
      by_cases hrc : rc = 0
      · cases hfree : s.owner d.mutex with
        | none =>
            refine Or.inl ⟨_, ?_, .locked hrc hfree⟩
            rw [threadfunc, hderef, FallibleRun.ok_bind, if_neg (not_not.mpr hrc), hfree]
            rfl
        | some k =>
            refine Or.inr ⟨?_, Or.inr ⟨rfl, hrc, k, rfl⟩⟩
            rw [threadfunc, hderef, FallibleRun.ok_bind, if_neg (not_not.mpr hrc), hfree]
            rfl
      · refine Or.inl ⟨_, ?_, .lockFailed hrc⟩
        rw [threadfunc, hderef, FallibleRun.ok_bind, if_pos hrc]
        rfl
  | obtained => exact Or.inl ⟨_, by rw [threadfunc, hderef]; rfl, .flagged⟩
  | waitingToRelease => exact Or.inl ⟨_, by rw [threadfunc, hderef]; rfl, .held⟩
  | unlocking =>
      by_cases hrc : rc = 0
      · refine Or.inl ⟨_, ?_, .unlocked hrc⟩
        rw [threadfunc, hderef, FallibleRun.ok_bind, if_neg (not_not.mpr hrc)]
        rfl
      · refine Or.inl ⟨_, ?_, .unlockFailed hrc⟩
        rw [threadfunc, hderef, FallibleRun.ok_bind, if_pos hrc]
        rfl
  | returned rc' => exact Or.inr ⟨rfl, Or.inl ⟨rc', rfl⟩⟩

/-! ## The records, the threads and the mutexes agree -/

/-- What a record says while its thread is at `place`, by whether it has the mutex.  A thread that
has returned with its flag set still has it if the unlock failed. -/
def Fits (d : ThreadData μ) (has : Prop) : Place → Prop
  | .waitingToObtain | .locking => d.threadCompleteSuccess = false ∧ ¬ has
  | .obtained => d.threadCompleteSuccess = false ∧ has
  | .waitingToRelease | .unlocking => d.threadCompleteSuccess = true ∧ has
  | .returned rc =>
      (d.threadCompleteSuccess = false ∧ rc ≠ 0 ∧ ¬ has) ∨
        (d.threadCompleteSuccess = true ∧ (has ↔ rc ≠ 0))

structure Sound (s : State μ) : Prop where
  unborn : ∀ n, s.malloced ≤ n →
    s.data n = none ∧ s.thread n = none ∧ ∀ m, s.owner m ≠ some n
  record : ∀ n place, s.thread n = some place → ∃ d, s.data n = some d ∧
    Fits d (s.owner d.mutex = some n) place ∧ ∀ m, s.owner m = some n → m = d.mutex

theorem Fits.has {d : ThreadData μ} {has : Prop} {place : Place} (h : Fits d has place)
    (hsection : place.inSection = true) : has := by
  cases place with
  | obtained | waitingToRelease | unlocking => exact h.2
  | waitingToObtain | locking | returned rc => cases hsection

theorem sound_initial : Sound (initial : State μ) where
  unborn := by simp [initial]
  record := by simp [initial]

theorem Sound.lt_malloced (h : Sound s) (hthread : s.thread n = some place) : n < s.malloced := by
  by_contra hle
  rw [(h.unborn n (not_lt.mp hle)).2.1] at hthread
  cases hthread

theorem Sound.owner_eq (h : Sound s) (hthread : s.thread n = some place) (hd : s.data n = some d)
    (hsection : place.inSection = true) : s.owner d.mutex = some n := by
  obtain ⟨d', hd', hfits, -⟩ := h.record n place hthread
  cases hd.symm.trans hd'
  exact hfits.has hsection

/-- Only the thread `n` goes on, and the other threads keep their mutexes. -/
theorem Sound.of_update (h : Sound s) (hn : n < s.malloced) (hmalloced : t.malloced = s.malloced)
    (hdata : t.data = Function.update s.data n (some d))
    (hthread : t.thread = Function.update s.thread n (some place))
    (hothers : ∀ m k, k ≠ n → (t.owner m = some k ↔ s.owner m = some k))
    (hfits : Fits d (t.owner d.mutex = some n) place)
    (hone : ∀ m, t.owner m = some n → m = d.mutex) : Sound t := by
  constructor
  · intro k hk
    rw [hmalloced] at hk
    have hne : k ≠ n := by omega
    obtain ⟨hnone, hnoThread, hnoOwner⟩ := h.unborn k hk
    refine ⟨?_, ?_, ?_⟩
    · rwa [hdata, Function.update_of_ne hne]
    · rwa [hthread, Function.update_of_ne hne]
    · intro m
      rw [Ne, hothers m k hne]
      exact hnoOwner m
  · intro k place' hk
    by_cases hkn : k = n
    · subst hkn
      rw [hthread, Function.update_self] at hk
      cases hk
      exact ⟨d, by rw [hdata, Function.update_self], hfits, hone⟩
    · rw [hthread, Function.update_of_ne hkn] at hk
      obtain ⟨d', hd', hfits', hone'⟩ := h.record k place' hk
      refine ⟨d', by rwa [hdata, Function.update_of_ne hkn], ?_, ?_⟩
      · rwa [propext (hothers d'.mutex k hkn)]
      · intro m hm
        exact hone' m ((hothers m k hkn).mp hm)

theorem Sound.malloc (h : Sound s) (d : ThreadData μ) : Sound { s with
    malloced := s.malloced + 1
    data := Function.update s.data s.malloced (some d) } := by
  constructor
  · intro k hk
    have hne : k ≠ s.malloced := Nat.ne_of_gt hk
    simp only [Function.update_of_ne hne]
    exact h.unborn k (Nat.le_of_succ_le hk)
  · intro k place hk
    have hne : k ≠ s.malloced := (h.lt_malloced hk).ne
    simp only [Function.update_of_ne hne]
    exact h.record k place hk

theorem Sound.start (h : Sound s) (d : ThreadData μ) (hflag : d.threadCompleteSuccess = false) :
    Sound ({ s with
      malloced := s.malloced + 1
      data := Function.update s.data s.malloced (some d) }.goTo s.malloced .waitingToObtain) := by
  obtain ⟨-, -, hnoOwner⟩ := h.unborn s.malloced le_rfl
  refine (h.malloc d).of_update (Nat.lt_succ_self _) rfl ?_ rfl (fun _ _ _ ↦ Iff.rfl)
    ⟨hflag, hnoOwner _⟩ ?_
  · exact (Function.update_idem ..).symm
  · intro m hm
    exact absurd hm (hnoOwner m)

theorem Sound.joined (h : Sound s) (n : ℕ) : Sound { s with
    data := Function.update s.data n none
    thread := Function.update s.thread n none } := by
  constructor
  · intro k hk
    obtain ⟨hnone, hnoThread, hnoOwner⟩ := h.unborn k hk
    by_cases hkn : k = n
    · subst hkn
      exact ⟨Function.update_self .., Function.update_self .., hnoOwner⟩
    · simp only [Function.update_of_ne hkn]
      exact ⟨hnone, hnoThread, hnoOwner⟩
  · intro k place hk
    by_cases hkn : k = n
    · simp [hkn] at hk
    · simp only [Function.update_of_ne hkn] at hk ⊢
      exact h.record k place hk

section

variable [DecidableEq μ]

theorem Moves.thread_eq (h : Moves s n rc d place t) {k : ℕ} (hk : k ≠ n) :
    t.thread k = s.thread k := by
  cases h <;> exact Function.update_of_ne hk ..

theorem Moves.thread_self (h : Moves s n rc d place t) :
    ∃ place', t.thread n = some place' ∧ place'.left < place.left ∧
      ∀ rc', place' = .returned rc' → rc' = rc := by
  cases h <;> exact ⟨_, Function.update_self .., by simp [Place.left], by simp⟩

theorem Moves.data_eq (h : Moves s n rc d place t) {k : ℕ} (hk : k ≠ n) :
    t.data k = s.data k := by
  cases h with
  | flagged => exact Function.update_of_ne hk ..
  | _ => rfl

/-- A thread takes a mutex that is free and gives back its own. -/
theorem Sound.owner_moves (h : Sound s) (hthread : s.thread n = some place)
    (hd : s.data n = some d) (hmoves : Moves s n rc d place t) (m : μ) (k : ℕ) (hk : k ≠ n) :
    t.owner m = some k ↔ s.owner m = some k := by
  obtain ⟨d', hd', hfits, -⟩ := h.record n place hthread
  cases hd.symm.trans hd'
  cases hmoves with
  | locked hrc hfree =>
      by_cases hm : m = d.mutex
      · simp [goTo, hm, hfree, Ne.symm hk]
      · simp [goTo, hm]
  | unlocked hrc =>
      by_cases hm : m = d.mutex
      · simp [goTo, hm, hfits.2, Ne.symm hk]
      · simp [goTo, hm]
  | _ => rfl

theorem Sound.moves (h : Sound s) (hthread : s.thread n = some place) (hd : s.data n = some d)
    (hmoves : Moves s n rc d place t) : Sound t := by
  have hn := h.lt_malloced hthread
  have hothers := h.owner_moves hthread hd hmoves
  obtain ⟨d', hd', hfits, hone⟩ := h.record n place hthread
  cases hd.symm.trans hd'
  have hsame : s.data = Function.update s.data n (some d) := by
    rw [← hd, Function.update_eq_self]
  cases hmoves with
  | waited => exact h.of_update hn rfl hsame rfl hothers hfits hone
  | lockFailed hrc =>
      exact h.of_update hn rfl hsame rfl hothers (Or.inl ⟨hfits.1, hrc, hfits.2⟩) hone
  | locked hrc hfree =>
      refine h.of_update hn rfl hsame rfl hothers ⟨hfits.1, Function.update_self ..⟩ ?_
      intro m hm
      by_contra hne
      exact hne (hone m (by simpa [goTo, hne] using hm))
  | flagged => exact h.of_update hn rfl rfl rfl hothers ⟨rfl, hfits.2⟩ hone
  | held => exact h.of_update hn rfl hsame rfl hothers hfits hone
  | unlockFailed hrc =>
      exact h.of_update hn rfl hsame rfl hothers
        (Or.inr ⟨hfits.1, iff_of_true hfits.2 hrc⟩) hone
  | unlocked hrc =>
      refine h.of_update hn rfl hsame rfl hothers
        (Or.inr ⟨hfits.1, iff_of_false (by simp [goTo]) (not_not.mpr hrc)⟩) ?_
      intro m hm
      by_contra hne
      exact hne (hone m (by simpa [goTo, hne] using hm))

/-- Everything a step can do. -/
inductive Changes (s : State μ) : Event μ → State μ → Prop
  | started (mutex : μ) (waitToObtainMs waitToReleaseMs : ℤ) :
      Changes s (.start mutex waitToObtainMs waitToReleaseMs false 0) ({ s with
        malloced := s.malloced + 1
        data := Function.update s.data s.malloced
          (some ⟨mutex, waitToObtainMs, waitToReleaseMs, false⟩) }.goTo s.malloced
            .waitingToObtain)
  | notStarted (mutex : μ) (waitToObtainMs waitToReleaseMs : ℤ) {rc : ℤ} (hrc : rc ≠ 0) :
      Changes s (.start mutex waitToObtainMs waitToReleaseMs false rc) { s with
        malloced := s.malloced + 1
        data := Function.update s.data s.malloced
          (some ⟨mutex, waitToObtainMs, waitToReleaseMs, false⟩) }
  | moved {n : ℕ} {rc : ℤ} {d : ThreadData μ} {place : Place} {t : State μ}
      (hthread : s.thread n = some place) (hd : s.data n = some d)
      (hmoves : Moves s n rc d place t) : Changes s (.run n rc) t
  | joined {n : ℕ} {rc : ℤ} (hthread : s.thread n = some (.returned rc)) :
      Changes s (.join n) { s with
        data := Function.update s.data n none
        thread := Function.update s.thread n none }

/-- A thread waits for a mutex that is locked and a joiner for a thread that has not returned. -/
def Waits (s : State μ) : Event μ → Prop
  | .start .. => False
  | .run n rc =>
      s.thread n = none ∨ (∃ rc', s.thread n = some (.returned rc')) ∨
        (s.thread n = some .locking ∧ rc = 0 ∧
          ∃ d k, s.data n = some d ∧ s.owner d.mutex = some k)
  | .join n => ∀ rc, s.thread n ≠ some (.returned rc)

variable {e : Event μ}

/-- No thread and no joiner uses a record that is freed. -/
theorem Sound.step_cases (h : Sound s) (e : Event μ) :
    (∃ t, s.step e = .ok (some t) ∧ Changes s e t) ∨ (s.step e = .ok none ∧ Waits s e) ∨
      ∃ mutex waitToObtainMs waitToReleaseMs rc,
        e = .start mutex waitToObtainMs waitToReleaseMs true rc ∧
          s.step e = .error .nullPointer := by
  cases e with
  | start mutex waitToObtainMs waitToReleaseMs mallocFails rc =>
      cases mallocFails with
      | true => exact Or.inr (Or.inr ⟨_, _, _, _, rfl, rfl⟩)
      | false =>
          by_cases hrc : rc = 0
          · subst hrc
            exact Or.inl ⟨_, rfl, .started mutex waitToObtainMs waitToReleaseMs⟩
          · refine Or.inl ⟨_, ?_, .notStarted mutex waitToObtainMs waitToReleaseMs hrc⟩
            simp only [step, startThreadObtainingMutex, if_neg hrc]
            rfl
  | run n rc =>
      cases hthread : s.thread n with
      | none =>
          refine Or.inr (Or.inl ⟨?_, Or.inl hthread⟩)
          simp only [step, hthread]
          rfl
      | some place =>
          obtain ⟨d, hd, -⟩ := h.record n place hthread
          have hstep : s.step (.run n rc) = s.threadfunc n rc place := by
            simp only [step, hthread]
          rw [hstep]
          rcases threadfunc_eq hd rc place with ⟨t, ht, hmoves⟩ | ⟨hnone, hwaits⟩
          · exact Or.inl ⟨t, ht, .moved hthread hd hmoves⟩
          · refine Or.inr (Or.inl ⟨hnone, Or.inr ?_⟩)
            rcases hwaits with ⟨rc', rfl⟩ | ⟨rfl, hrc, k, hk⟩
            · exact Or.inl ⟨rc', hthread⟩
            · exact Or.inr ⟨hthread, hrc, d, k, hd, hk⟩
  | join n =>
      by_cases hreturned : ∃ rc, s.thread n = some (.returned rc)
      · obtain ⟨rc, hthread⟩ := hreturned
        obtain ⟨d, hd, -⟩ := h.record n _ hthread
        refine Or.inl ⟨_, ?_, .joined hthread⟩
        simp only [step, hthread, join, deref, hd]
        rfl
      · rw [not_exists] at hreturned
        refine Or.inr (Or.inl ⟨?_, hreturned⟩)
        rw [step]
        split
        · next rc hthread => exact absurd hthread (hreturned rc)
        · rfl

theorem Sound.changes_of_step (h : Sound s) (hstep : s.step e = .ok (some t)) :
    Changes s e t := by
  rcases h.step_cases e with ⟨t', ht', hchanges⟩ | ⟨hnone, -⟩ | ⟨_, _, _, _, -, herror⟩
  · cases hstep.symm.trans ht'
    exact hchanges
  · cases hstep.symm.trans hnone
  · cases hstep.symm.trans herror

theorem Sound.changes (h : Sound s) (hchanges : Changes s e t) : Sound t := by
  cases hchanges with
  | started mutex waitToObtainMs waitToReleaseMs => exact h.start _ rfl
  | notStarted mutex waitToObtainMs waitToReleaseMs hrc => exact h.malloc _
  | moved hthread hd hmoves => exact h.moves hthread hd hmoves
  | joined hthread => exact h.joined _

/-! ## All runs -/

def Step (s t : State μ) : Prop := ∃ e, s.step e = .ok (some t)

def Reachable (s : State μ) : Prop := Relation.ReflTransGen Step initial s

theorem Sound.of_steps (h : Sound s) (hsteps : Relation.ReflTransGen Step s t) : Sound t := by
  induction hsteps with
  | refl => exact h
  | tail _ hstep ih =>
      obtain ⟨e, he⟩ := hstep
      exact ih.changes (ih.changes_of_step he)

/-- A record without a thread is out of reach. -/
theorem Sound.data_of_steps (h : Sound s) (hd : s.data n = some d) (hthread : s.thread n = none)
    (hsteps : Relation.ReflTransGen Step s t) : t.data n = some d ∧ t.thread n = none := by
  induction hsteps with
  | refl => exact ⟨hd, hthread⟩
  | @tail u v hto hstep ih =>
      obtain ⟨hd, hthread⟩ := ih
      obtain ⟨e, he⟩ := hstep
      have hu := h.of_steps hto
      have hlt : n ≠ u.malloced := by
        rintro rfl
        rw [(hu.unborn _ le_rfl).1] at hd
        cases hd
      cases hu.changes_of_step he with
      | started => exact ⟨by simp [goTo, hlt, hd], by simp [goTo, hlt, hthread]⟩
      | notStarted => exact ⟨by simp [hlt, hd], hthread⟩
      | @moved k _ _ _ _ hk _ hmoves =>
          have hne : n ≠ k := by
            rintro rfl
            rw [hthread] at hk
            cases hk
          exact ⟨(hmoves.data_eq hne).trans hd, (hmoves.thread_eq hne).trans hthread⟩
      | @joined k rc hk =>
          have hne : n ≠ k := by
            rintro rfl
            rw [hthread] at hk
            cases hk
          simp [hne, hd, hthread]

/-- A mutex whose owner has returned stays locked. -/
theorem Sound.owner_of_steps (h : Sound s) {m : μ} (howner : s.owner m = some n)
    (hgone : ∀ place, s.thread n = some place → ∃ rc, place = .returned rc)
    (hsteps : Relation.ReflTransGen Step s t) :
    t.owner m = some n ∧ ∀ place, t.thread n = some place → ∃ rc, place = .returned rc := by
  induction hsteps with
  | refl => exact ⟨howner, hgone⟩
  | @tail u v hto hstep ih =>
      obtain ⟨howner, hgone⟩ := ih
      obtain ⟨e, he⟩ := hstep
      have hu := h.of_steps hto
      have hlt : n ≠ u.malloced := by
        rintro rfl
        exact (hu.unborn _ le_rfl).2.2 m howner
      cases hu.changes_of_step he with
      | started => exact ⟨howner, by simpa [goTo, hlt] using hgone⟩
      | notStarted => exact ⟨howner, hgone⟩
      | @moved k _ d place _ hk hd hmoves =>
          have hne : n ≠ k := by
            rintro rfl
            obtain ⟨rc, rfl⟩ := hgone place hk
            cases hmoves
          refine ⟨(hu.owner_moves hk hd hmoves m n hne).mpr howner, ?_⟩
          rwa [hmoves.thread_eq hne]
      | @joined k rc hk =>
          refine ⟨howner, ?_⟩
          intro place hplace
          by_cases hnk : n = k
          · simp [hnk] at hplace
          · exact hgone place (by simpa [hnk] using hplace)

/-- Where each of `malloc` and the pthread calls may fail: nothing but a failing `malloc` makes
the program fault, two threads are never between the lock and the unlock of one mutex, and a
record whose thread was not started is lost.  The flag of a thread that has returned says that
it got the mutex.  It says so too where the unlock failed, and then no thread gets the mutex
ever again. -/
theorem threads_account (s : State μ) (hs : Reachable s) :
    (∀ e f, s.step e = .error f → ∃ mutex waitToObtainMs waitToReleaseMs rc,
      e = .start mutex waitToObtainMs waitToReleaseMs true rc) ∧
    (∀ n k place place' d d', s.thread n = some place → s.thread k = some place' →
      s.data n = some d → s.data k = some d' → d.mutex = d'.mutex →
      place.inSection = true → place'.inSection = true → n = k) ∧
    (∀ n d, s.data n = some d → s.thread n = none →
      ∀ t, Relation.ReflTransGen Step s t → t.data n = some d) ∧
    ∀ n rc, s.thread n = some (.returned rc) → ∃ d t, s.join n = .ok (t, d) ∧
      ((d.threadCompleteSuccess = false ∧ rc ≠ 0 ∧ s.owner d.mutex ≠ some n) ∨
        (d.threadCompleteSuccess = true ∧ rc = 0 ∧ s.owner d.mutex ≠ some n) ∨
        (d.threadCompleteSuccess = true ∧ rc ≠ 0 ∧
          ∀ t, Relation.ReflTransGen Step s t → t.owner d.mutex = some n ∧
            ∀ k place d', t.thread k = some place → t.data k = some d' →
              d'.mutex = d.mutex → place.inSection = false)) := by
  have hsound : Sound s := sound_initial.of_steps hs
  refine ⟨?_, ?_, ?_, ?_⟩
  · intro e f herror
    rcases hsound.step_cases e with ⟨t, ht, -⟩ | ⟨hnone, -⟩ | ⟨m, a, b, rc, he, -⟩
    · cases herror.symm.trans ht
    · cases herror.symm.trans hnone
    · exact ⟨m, a, b, rc, he⟩
  · intro n k place place' d d' hn hk hd hd' hmutex hplace hplace'
    have howner := hsound.owner_eq hn hd hplace
    rw [hmutex, hsound.owner_eq hk hd' hplace'] at howner
    exact (Option.some_inj.mp howner).symm
  · intro n d hd hthread t ht
    exact (hsound.data_of_steps hd hthread ht).1
  · intro n rc hthread
    obtain ⟨d, hd, hfits, -⟩ := hsound.record n _ hthread
    refine ⟨d, _, by rw [join, deref, hd]; rfl, ?_⟩
    rcases hfits with hfailed | ⟨hflag, hiff⟩
    · exact Or.inl hfailed
    by_cases hrc : rc = 0
    · exact Or.inr (Or.inl ⟨hflag, hrc, fun howner ↦ hiff.mp howner hrc⟩)
    refine Or.inr (Or.inr ⟨hflag, hrc, ?_⟩)
    intro t ht
    have hgone : ∀ place, s.thread n = some place → ∃ rc, place = .returned rc := by
      intro place hplace
      cases hthread.symm.trans hplace
      exact ⟨rc, rfl⟩
    obtain ⟨howner, hgone⟩ := hsound.owner_of_steps (hiff.mpr hrc) hgone ht
    refine ⟨howner, ?_⟩
    intro k place d' hk hd' hmutex
    -- the one in its section would be the owner, and the owner is not there any more
    by_contra hsection
    have howner' := (hsound.of_steps ht).owner_eq hk hd' (by simpa using hsection)
    rw [hmutex, howner] at howner'
    cases howner'
    obtain ⟨rc', rfl⟩ := hgone place hk
    exact hsection rfl

/-- A thread that has failed to unlock its mutex. -/
theorem exists_reachable_unlockFailed : ∃ s : State Unit, Reachable s ∧
    s.thread 0 = some (.returned 1) ∧ s.data 0 = some ⟨(), 0, 0, true⟩ := by
  have hstarted : Reachable (μ := Unit) _ := .single ⟨.start () 0 0 false 0, rfl⟩
  have hlocking := hstarted.tail ⟨.run 0 0, rfl⟩
  have hobtained := hlocking.tail ⟨.run 0 0, rfl⟩
  have hflagged := hobtained.tail ⟨.run 0 0, rfl⟩
  have hunlocking := hflagged.tail ⟨.run 0 0, rfl⟩
  exact ⟨_, hunlocking.tail ⟨.run 0 1, rfl⟩, rfl, rfl⟩

theorem threads_account_unlockFailed : ∃ s : State Unit, s.thread 0 = some (.returned 1) ∧
    ∃ d t, s.join 0 = .ok (t, d) ∧ d.threadCompleteSuccess = true ∧
      ∀ t, Relation.ReflTransGen Step s t → t.owner () = some 0 := by
  obtain ⟨s, hs, hthread, hd⟩ := exists_reachable_unlockFailed
  obtain ⟨-, -, -, hreturned⟩ := threads_account s hs
  obtain ⟨d, t, hjoin, hflag⟩ := hreturned 0 1 hthread
  have hrecord : d = ⟨(), 0, 0, true⟩ := by
    rw [join, deref, hd] at hjoin
    cases hjoin
    rfl
  subst hrecord
  rcases hflag with ⟨hfalse, -⟩ | ⟨-, hzero, -⟩ | ⟨-, -, hstuck⟩
  · cases hfalse
  · cases hzero
  · exact ⟨s, hthread, _, t, hjoin, rfl, fun t ht ↦ (hstuck t ht).1⟩

end

/-! ## Runs without failures -/

/-- The locks and the unlocks succeed. -/
def Undisturbed : Event μ → Prop
  | .start _ _ _ mallocFails _ => mallocFails = false
  | .run _ rc => rc = 0
  | .join _ => True

structure Calm (s : State μ) : Prop extends Sound s where
  returned : ∀ n rc, s.thread n = some (.returned rc) → rc = 0
  alive : ∀ m n, s.owner m = some n → s.thread n ≠ none

theorem calm_initial : Calm (initial : State μ) :=
  ⟨sound_initial, by simp [initial], by simp [initial]⟩

theorem Calm.of_returned (h : Calm s) (hthread : s.thread n = some (.returned rc)) :
    ∃ d, s.data n = some d ∧ d.threadCompleteSuccess = true ∧ ∀ m, s.owner m ≠ some n := by
  have hrc := h.returned n rc hthread
  obtain ⟨d, hd, hfits, hone⟩ := h.record n _ hthread
  rcases hfits with ⟨-, hne, -⟩ | ⟨hflag, hiff⟩
  · exact absurd hrc hne
  · refine ⟨d, hd, hflag, ?_⟩
    intro m hm
    rw [hone m hm] at hm
    exact hiff.mp hm hrc

theorem Calm.owner_inSection (h : Calm s) {m : μ} (howner : s.owner m = some n) :
    ∃ place, s.thread n = some place ∧ place.inSection = true := by
  obtain ⟨place, hthread⟩ := Option.ne_none_iff_exists'.mp (h.alive m n howner)
  obtain ⟨d, -, hfits, hone⟩ := h.record n place hthread
  rw [hone m howner] at howner
  cases place with
  | waitingToObtain | locking => exact absurd howner hfits.2
  | returned rc =>
      obtain ⟨-, -, -, hnot⟩ := h.of_returned hthread
      exact absurd howner (hnot _)
  | obtained | waitingToRelease | unlocking => exact ⟨_, hthread, rfl⟩

/-- What all threads still have to do. -/
def left (s : State μ) : ℕ :=
  ∑ n ∈ Finset.range s.malloced, ((s.thread n).map Place.left).getD 0

theorem left_lt (hn : n < s.malloced) (hmalloced : t.malloced = s.malloced)
    (hothers : ∀ k, k ≠ n → t.thread k = s.thread k)
    (hless : ((t.thread n).map Place.left).getD 0 < ((s.thread n).map Place.left).getD 0) :
    t.left < s.left := by
  rw [left, left, hmalloced]
  refine Finset.sum_lt_sum ?_ ⟨n, Finset.mem_range.mpr hn, hless⟩
  intro k _
  by_cases hkn : k = n
  · rw [hkn]
    exact hless.le
  · rw [hothers k hkn]

theorem left_le (s : State μ) : s.left ≤ 6 * s.malloced := by
  have hplace : ∀ place : Option Place, (place.map Place.left).getD 0 ≤ 6 := by
    intro place
    cases place with
    | none => exact Nat.zero_le 6
    | some place => cases place <;> simp [Place.left]
  have hsum := Finset.sum_le_card_nsmul (Finset.range s.malloced)
    (fun n ↦ ((s.thread n).map Place.left).getD 0) 6 fun n _ ↦ hplace (s.thread n)
  rwa [Finset.card_range, smul_eq_mul, mul_comm] at hsum

variable [DecidableEq μ] {e : Event μ}

theorem Calm.changes (h : Calm s) (hchanges : Changes s e t) (he : Undisturbed e) : Calm t := by
  refine ⟨h.toSound.changes hchanges, ?_, ?_⟩
  · intro k rc hk
    cases hchanges with
    | started =>
        by_cases hnew : k = s.malloced
        · simp [goTo, hnew] at hk
        · exact h.returned k rc (by simpa [goTo, hnew] using hk)
    | notStarted => exact h.returned k rc hk
    | @moved n rc' d place _ hthread hd hmoves =>
        by_cases hkn : k = n
        · obtain ⟨place', hplace', -, hreturned⟩ := hmoves.thread_self
          rw [hkn, hplace', Option.some_inj] at hk
          exact (hreturned rc hk).trans he
        · rw [hmoves.thread_eq hkn] at hk
          exact h.returned k rc hk
    | @joined n _ hthread =>
        by_cases hkn : k = n
        · simp [hkn] at hk
        · exact h.returned k rc (by simpa [hkn] using hk)
  · intro m k hk
    cases hchanges with
    | started =>
        by_cases hnew : k = s.malloced
        · simp [goTo, hnew]
        · simpa [goTo, hnew] using h.alive m k hk
    | notStarted => exact h.alive m k hk
    | @moved n rc' d place _ hthread hd hmoves =>
        by_cases hkn : k = n
        · obtain ⟨place', hplace', -⟩ := hmoves.thread_self
          rw [hkn, hplace']
          exact Option.some_ne_none place'
        · rw [hmoves.thread_eq hkn]
          exact h.alive m k ((h.owner_moves hthread hd hmoves m k hkn).mp hk)
    | @joined n _ hthread =>
        obtain ⟨-, -, -, hnot⟩ := h.of_returned hthread
        have hkn : k ≠ n := by
          rintro rfl
          exact hnot m hk
        simpa [hkn] using h.alive m k hk

def UndisturbedStep (s t : State μ) : Prop := ∃ e, Undisturbed e ∧ s.step e = .ok (some t)

theorem Calm.of_steps (h : Calm s) (hsteps : Relation.ReflTransGen UndisturbedStep s t) :
    Calm t := by
  induction hsteps with
  | refl => exact h
  | tail _ hstep ih =>
      obtain ⟨e, he, hstep⟩ := hstep
      exact ih.changes (ih.changes_of_step hstep) he

/-- A thread goes on or is joined, and nothing fails. -/
def Proceeds (s t : State μ) : Prop :=
  ∃ n, s.step (.run n 0) = .ok (some t) ∨ s.step (.join n) = .ok (some t)

theorem Sound.left_lt_of_proceeds (h : Sound s) (hproceeds : Proceeds s t) : t.left < s.left := by
  obtain ⟨n, hrun | hjoin⟩ := hproceeds
  · cases h.changes_of_step hrun with
    | moved hthread hd hmoves =>
        have hmalloced : t.malloced = s.malloced := by cases hmoves <;> rfl
        obtain ⟨place', hplace', hless, -⟩ := hmoves.thread_self
        refine left_lt (h.lt_malloced hthread) hmalloced (fun _ ↦ hmoves.thread_eq) ?_
        rw [hplace', hthread]
        exact hless
  · cases h.changes_of_step hjoin with
    | joined hthread =>
        refine left_lt (h.lt_malloced hthread) rfl (fun _ hk ↦ Function.update_of_ne hk ..) ?_
        simp [hthread, Place.left]

theorem Calm.proceeds (h : Calm s) (hproceeds : Proceeds s t) : Calm t := by
  obtain ⟨n, hrun | hjoin⟩ := hproceeds
  · exact h.changes (h.changes_of_step hrun) rfl
  · exact h.changes (h.changes_of_step hjoin) trivial

theorem Calm.exists_proceeds (h : Calm s) (hthread : s.thread n = some place) :
    ∃ t, Proceeds s t := by
  rcases h.step_cases (.run n 0) with ⟨t, ht, -⟩ | ⟨-, hwaits⟩ | ⟨_, _, _, _, heq, -⟩
  · exact ⟨t, n, Or.inl ht⟩
  · rcases hwaits with hnone | ⟨rc, hreturned⟩ | ⟨-, -, d, k, -, howner⟩
    · rw [hthread] at hnone
      cases hnone
    · rcases h.step_cases (.join n) with ⟨t, ht, -⟩ | ⟨-, hwaits⟩ | ⟨_, _, _, _, heq, -⟩
      · exact ⟨t, n, Or.inr ht⟩
      · exact absurd hreturned (hwaits rc)
      · cases heq
    · -- the owner of the mutex is in its section, where it never waits
      obtain ⟨place', hk, hsection⟩ := h.owner_inSection howner
      rcases h.step_cases (.run k 0) with ⟨t, ht, -⟩ | ⟨-, hwaits⟩ | ⟨_, _, _, _, heq, -⟩
      · exact ⟨t, k, Or.inl ht⟩
      · rcases hwaits with hnone | ⟨rc, hreturned⟩ | ⟨hlocking, -⟩
        · cases hk.symm.trans hnone
        · cases hk.symm.trans hreturned
          cases hsection
        · cases hk.symm.trans hlocking
          cases hsection
      · cases heq
  · cases heq

/-- `k` times one of the threads goes on or is joined. -/
inductive Goes (s : State μ) : ℕ → State μ → Prop
  | refl : Goes s 0 s
  | tail {k : ℕ} {t u : State μ} (hto : Goes s k t) (hproceeds : Proceeds t u) : Goes s (k + 1) u

theorem Calm.goes (h : Calm s) {k : ℕ} (hgoes : Goes s k t) : Calm t ∧ t.left + k ≤ s.left := by
  induction hgoes with
  | refl => exact ⟨h, le_rfl⟩
  | tail _ hproceeds ih =>
      obtain ⟨hcalm, hle⟩ := ih
      have hlt := hcalm.left_lt_of_proceeds hproceeds
      exact ⟨hcalm.proceeds hproceeds, by omega⟩

/-- Where the locks and the unlocks succeed, the threads come to their end in whatever order they
go on, after at most six steps each: somebody can always go on until all are joined and all
mutexes free, and each thread that is joined hands over a record with its flag set. -/
theorem threads_complete (s : State μ)
    (hs : Relation.ReflTransGen UndisturbedStep initial s) (k : ℕ) (t : State μ)
    (ht : Goes s k t) :
    k ≤ 6 * s.malloced ∧
    (∀ n rc, t.thread n = some (.returned rc) →
      ∃ d u, t.join n = .ok (u, d) ∧ d.threadCompleteSuccess = true) ∧
    ((∃ u, Proceeds t u) ∨ ((∀ n, t.thread n = none) ∧ ∀ m, t.owner m = none)) := by
  obtain ⟨hend, hle⟩ := (calm_initial.of_steps hs).goes ht
  have hbound := s.left_le
  refine ⟨by omega, ?_, ?_⟩
  · intro n rc hthread
    obtain ⟨d, hd, hflag, -⟩ := hend.of_returned hthread
    exact ⟨d, _, by rw [join, deref, hd]; rfl, hflag⟩
  · by_cases hall : ∀ n, t.thread n = none
    · refine Or.inr ⟨hall, ?_⟩
      intro m
      by_contra howner
      obtain ⟨n, hn⟩ := Option.ne_none_iff_exists'.mp howner
      exact hend.alive m n hn (hall n)
    · obtain ⟨n, hn⟩ := not_forall.mp hall
      obtain ⟨place, hplace⟩ := Option.ne_none_iff_exists'.mp hn
      exact Or.inl (hend.exists_proceeds hplace)

/-- One thread that has just been started. -/
def oneStarted : State Unit where
  malloced := 1
  data := Function.update (fun _ ↦ none) 0 (some ⟨(), 0, 0, false⟩)
  thread := Function.update (fun _ ↦ none) 0 (some .waitingToObtain)
  owner := fun _ ↦ none

theorem threads_complete_oneStarted :
    ∃ t, Goes oneStarted 6 t ∧ t.thread 0 = none ∧ t.owner () = none := by
  have hstarted : Relation.ReflTransGen UndisturbedStep initial oneStarted :=
    .single ⟨.start () 0 0 false 0, rfl, rfl⟩
  have hlocking : Goes oneStarted 1 _ := Goes.refl.tail ⟨0, Or.inl rfl⟩
  have hobtained := hlocking.tail ⟨0, Or.inl rfl⟩
  have hflagged := hobtained.tail ⟨0, Or.inl rfl⟩
  have hunlocking := hflagged.tail ⟨0, Or.inl rfl⟩
  have hreturned := hunlocking.tail ⟨0, Or.inl rfl⟩
  have hjoined := hreturned.tail ⟨0, Or.inr rfl⟩
  refine ⟨_, hjoined, ?_⟩
  obtain ⟨-, -, ⟨u, hu⟩ | ⟨hnone, hfree⟩⟩ := threads_complete _ hstarted 6 _ hjoined
  · obtain ⟨hlong, -⟩ := threads_complete _ hstarted 7 u (hjoined.tail hu)
    exact absurd hlong (by decide)
  · exact ⟨hnone 0, hfree ()⟩

end State
end Threading
end Aesd
