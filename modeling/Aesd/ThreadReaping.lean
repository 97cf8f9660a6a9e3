import Mathlib

/-!
# Reaping the connection threads

The main loop of `aesdsocket.c` keeps one record for each connection thread in a list and
goes through the list with `clean_threads` after every `poll`.  The threads run beside it:
a thread sets `is_finished` at any moment, also between two visits of a pass, and ends
some time after.  Connections are numbered in the order in which they are accepted; a
number stands for the record and for the thread.
-/

namespace Aesd
namespace ThreadReaping

/-- A thread between `pthread_create`, `is_finished = true` and `pthread_exit`. -/
inductive Thread where
  | running
  | finished
  | ended
  deriving DecidableEq, Repr

def Thread.isFinished : Thread → Bool
  | running => false
  | finished | ended => true

/-- Where the main thread is.  In `LIST_FOREACH_SAFE`, `tmp` is saved before the body, and
the body waits in `pthread_join` with the record already removed. -/
inductive Main where
  | poll
  | created (tinfo : ℕ)
  | foreach (wait : Bool) (datap : Option ℕ)
  | body (wait : Bool) (datap : ℕ) (tmp : Option ℕ)
  | joining (wait : Bool) (datap : ℕ) (tmp : Option ℕ)
  | freeing (wait : Bool) (datap : ℕ) (tmp : Option ℕ)
  | exited
  deriving DecidableEq, Repr

/-- The process: the number of accepted connections, their threads, the list, the main
thread, and which threads have been joined and records freed so far. -/
structure Process where
  accepted : ℕ
  thread : ℕ → Thread
  list : List ℕ
  main : Main
  joined : List ℕ
  freed : List ℕ

namespace Process

def start : Process := ⟨0, fun _ ↦ .running, [], .poll, [], []⟩

/-- `LIST_NEXT`. -/
def listNext (list : List ℕ) (datap : ℕ) : Option ℕ := (list.dropWhile (· ≠ datap)).tail.head?

/-- One step of the main thread or of a connection thread. -/
inductive Step : Process → Process → Prop
  | accept {s : Process} (hmain : s.main = .poll) :
      Step s { s with
        accepted := s.accepted + 1
        thread := Function.update s.thread s.accepted .running
        main := .created s.accepted }
  -- `accept` failed: `continue` skips `clean_threads`
  | acceptFails {s : Process} (hmain : s.main = .poll) : Step s s
  | noRequest {s : Process} (hmain : s.main = .poll) :
      Step s { s with main := .foreach false s.list.head? }
  | shouldClose {s : Process} (hmain : s.main = .poll) :
      Step s { s with main := .foreach true s.list.head? }
  | insertHead {s : Process} {tinfo : ℕ} (hmain : s.main = .created tinfo) :
      Step s { s with list := tinfo :: s.list, main := .foreach false (some tinfo) }
  | visit {s : Process} {wait : Bool} {datap : ℕ} (hmain : s.main = .foreach wait (some datap)) :
      Step s { s with main := .body wait datap (listNext s.list datap) }
  | passed {s : Process} (hmain : s.main = .foreach false none) : Step s { s with main := .poll }
  | closed {s : Process} (hmain : s.main = .foreach true none) : Step s { s with main := .exited }
  | keep {s : Process} {datap : ℕ} {tmp : Option ℕ} (hmain : s.main = .body false datap tmp)
      (hrunning : (s.thread datap).isFinished = false) :
      Step s { s with main := .foreach false tmp }
  | remove {s : Process} {wait : Bool} {datap : ℕ} {tmp : Option ℕ}
      (hmain : s.main = .body wait datap tmp)
      (hdone : (s.thread datap).isFinished = true ∨ wait = true) :
      Step s { s with list := s.list.erase datap, main := .joining wait datap tmp }
  | join {s : Process} {wait : Bool} {datap : ℕ} {tmp : Option ℕ}
      (hmain : s.main = .joining wait datap tmp) (hended : s.thread datap = .ended) :
      Step s { s with joined := s.joined ++ [datap], main := .freeing wait datap tmp }
  | free {s : Process} {wait : Bool} {datap : ℕ} {tmp : Option ℕ}
      (hmain : s.main = .freeing wait datap tmp) :
      Step s { s with freed := s.freed ++ [datap], main := .foreach wait tmp }
  | finish {s : Process} {tinfo : ℕ} (hlt : tinfo < s.accepted)
      (hrunning : s.thread tinfo = .running) :
      Step s { s with thread := Function.update s.thread tinfo .finished }
  | exit {s : Process} {tinfo : ℕ} (hlt : tinfo < s.accepted)
      (hfinished : s.thread tinfo = .finished) :
      Step s { s with thread := Function.update s.thread tinfo .ended }

def Reachable (s : Process) : Prop := Relation.ReflTransGen Step start s

end Process

/-! ## Where a record is -/

/-- A record that is neither in the list nor freed. -/
def Main.held : Main → List ℕ
  | created tinfo => [tinfo]
  | joining _ datap _ => [datap]
  | freeing _ datap _ => [datap]
  | _ => []

/-- A thread that is joined while its record is not freed yet. -/
def Main.unfreed : Main → List ℕ
  | freeing _ datap _ => [datap]
  | _ => []

namespace Process

/-- How far the pass has come: what is left to visit is an end of the list, and a pass that
waits leaves nothing behind. -/
def Cursor (s : Process) : Prop :=
  match s.main with
  | .foreach wait datap =>
      ∃ done todo, s.list = done ++ todo ∧ datap = todo.head? ∧ (wait = true → done = [])
  | .body wait datap tmp =>
      ∃ done todo, s.list = done ++ datap :: todo ∧ tmp = todo.head? ∧ (wait = true → done = [])
  | .joining wait _ tmp | .freeing wait _ tmp =>
      ∃ done todo, s.list = done ++ todo ∧ tmp = todo.head? ∧ (wait = true → done = [])
  | .exited => s.list = []
  | .poll | .created _ => True

/-- Each accepted connection is at exactly one place, and only ended threads are joined. -/
structure Inv (s : Process) : Prop where
  places : (s.freed ++ s.main.held ++ s.list).Perm (List.range s.accepted)
  joined_eq : s.joined = s.freed ++ s.main.unfreed
  ended : ∀ id ∈ s.joined, s.thread id = .ended
  cursor : s.Cursor

theorem inv_start : start.Inv := ⟨List.Perm.refl _, rfl, by simp [start], trivial⟩

/-! ## Steps and runs -/

variable {s t : Process}

theorem Inv.nodup (h : s.Inv) : (s.freed ++ s.main.held ++ s.list).Nodup :=
  h.places.nodup_iff.mpr List.nodup_range

theorem Inv.nodup_list (h : s.Inv) : s.list.Nodup := (List.nodup_append.mp h.nodup).2.1

theorem Inv.lt_of_mem_held (h : s.Inv) {id : ℕ} (hid : id ∈ s.main.held) : id < s.accepted := by
  apply List.mem_range.mp
  apply h.places.subset
  simp [hid]

theorem Inv.lt_of_mem_joined (h : s.Inv) {id : ℕ} (hid : id ∈ s.joined) : id < s.accepted := by
  rw [h.joined_eq] at hid
  rcases List.mem_append.mp hid with hfreed | hheld
  · apply List.mem_range.mp
    apply h.places.subset
    simp [hfreed]
  · apply h.lt_of_mem_held
    cases hmain : s.main <;> simp_all [Main.held, Main.unfreed]

theorem listNext_append {done todo : List ℕ} {datap : ℕ} (h : datap ∉ done) :
    listNext (done ++ datap :: todo) datap = todo.head? := by
  have hdrop : (done ++ datap :: todo).dropWhile (· ≠ datap) = datap :: todo := by
    rw [List.dropWhile_append_of_pos]
    · simp
    · intro x hx
      have hne : x ≠ datap := fun heq ↦ h (heq ▸ hx)
      simpa using hne
  rw [listNext, hdrop, List.tail_cons]

theorem notMem_of_nodup_append {done todo : List ℕ} {datap : ℕ}
    (h : (done ++ datap :: todo).Nodup) : datap ∉ done := by
  intro hmem
  exact (List.nodup_append.mp h).2.2 datap hmem datap List.mem_cons_self rfl

/-- The main thread moves on without touching a record. -/
theorem Inv.move (h : s.Inv) {main : Main} (hheld : main.held = s.main.held)
    (hunfreed : main.unfreed = s.main.unfreed) (hcursor : Cursor { s with main }) :
    Inv { s with main } := by
  refine ⟨?_, ?_, h.ended, hcursor⟩
  · rw [hheld]
    exact h.places
  · rw [hunfreed]
    exact h.joined_eq

/-- A connection thread makes a step that leaves ended threads ended. -/
theorem Inv.update (h : s.Inv) {tinfo : ℕ} (hne : s.thread tinfo ≠ .ended) (next : Thread) :
    Inv { s with thread := Function.update s.thread tinfo next } := by
  refine ⟨h.places, h.joined_eq, ?_, h.cursor⟩
  intro id hid
  have hother : id ≠ tinfo := by
    rintro rfl
    exact hne (h.ended id hid)
  exact (Function.update_of_ne hother _ _).trans (h.ended id hid)

theorem Inv.cursor_foreach (h : s.Inv) {wait : Bool} {datap : Option ℕ}
    (hmain : s.main = .foreach wait datap) :
    ∃ done todo, s.list = done ++ todo ∧ datap = todo.head? ∧ (wait = true → done = []) := by
  have hcursor := h.cursor
  rwa [Cursor, hmain] at hcursor

theorem Inv.cursor_body (h : s.Inv) {wait : Bool} {datap : ℕ} {tmp : Option ℕ}
    (hmain : s.main = .body wait datap tmp) :
    ∃ done todo, s.list = done ++ datap :: todo ∧ s.list.erase datap = done ++ todo ∧
      tmp = todo.head? ∧ (wait = true → done = []) := by
  have hcursor := h.cursor
  have hnodup := h.nodup_list
  rw [Cursor, hmain] at hcursor
  obtain ⟨done, todo, hlist, htmp, hwait⟩ := hcursor
  rw [hlist] at hnodup ⊢
  refine ⟨done, todo, rfl, ?_, htmp, hwait⟩
  rw [List.erase_append_right _ (notMem_of_nodup_append hnodup), List.erase_cons_head]

theorem Inv.accept (h : s.Inv) (hmain : s.main = .poll) :
    Inv { s with
      accepted := s.accepted + 1
      thread := Function.update s.thread s.accepted .running
      main := .created s.accepted } := by
  have hplaces := h.places
  have hjoined := h.joined_eq
  rw [hmain] at hplaces hjoined
  refine ⟨?_, hjoined, ?_, trivial⟩
  · simp only [Main.held, List.append_nil] at hplaces ⊢
    rw [List.range_succ, List.append_assoc]
    exact (List.perm_append_comm_assoc _ _ _).trans
      ((hplaces.cons s.accepted).trans (List.perm_append_singleton _ _).symm)
  · intro id hid
    have hother : id ≠ s.accepted := (h.lt_of_mem_joined hid).ne
    exact (Function.update_of_ne hother _ _).trans (h.ended id hid)

theorem Inv.visit (h : s.Inv) {wait : Bool} {datap : ℕ}
    (hmain : s.main = .foreach wait (some datap)) :
    Inv { s with main := .body wait datap (listNext s.list datap) } := by
  obtain ⟨done, todo, hlist, hhead, hwait⟩ := h.cursor_foreach hmain
  obtain ⟨rest, rfl⟩ : ∃ rest, todo = datap :: rest := by
    cases todo with
    | nil => cases hhead
    | cons d rest => exact ⟨rest, by cases hhead; rfl⟩
  have hnodup := h.nodup_list
  rw [hlist] at hnodup
  refine h.move (by rw [hmain]; rfl) (by rw [hmain]; rfl) ⟨done, rest, hlist, ?_, hwait⟩
  rw [hlist, listNext_append (notMem_of_nodup_append hnodup)]

theorem Inv.remove (h : s.Inv) {wait : Bool} {datap : ℕ} {tmp : Option ℕ}
    (hmain : s.main = .body wait datap tmp) :
    Inv { s with list := s.list.erase datap, main := .joining wait datap tmp } := by
  obtain ⟨done, todo, hlist, herase, htmp, hwait⟩ := h.cursor_body hmain
  have hplaces := h.places
  have hjoined := h.joined_eq
  rw [hmain] at hplaces hjoined
  refine ⟨?_, hjoined, h.ended, ⟨done, todo, herase, htmp, hwait⟩⟩
  have hmem : datap ∈ s.list := by simp [hlist]
  simp only [Main.held, List.append_nil] at hplaces ⊢
  rw [List.append_assoc]
  exact ((List.perm_cons_erase hmem).symm.append_left s.freed).trans hplaces

theorem Inv.join (h : s.Inv) {wait : Bool} {datap : ℕ} {tmp : Option ℕ}
    (hmain : s.main = .joining wait datap tmp) (hended : s.thread datap = .ended) :
    Inv { s with joined := s.joined ++ [datap], main := .freeing wait datap tmp } := by
  have hplaces := h.places
  have hjoined := h.joined_eq
  have hcursor := h.cursor
  rw [hmain] at hplaces hjoined
  rw [Cursor, hmain] at hcursor
  refine ⟨hplaces, ?_, ?_, hcursor⟩
  · rw [hjoined]
    simp [Main.unfreed]
  · intro id hid
    rcases List.mem_append.mp hid with hid | hid
    · exact h.ended id hid
    · rw [List.mem_singleton.mp hid]
      exact hended

theorem Inv.free (h : s.Inv) {wait : Bool} {datap : ℕ} {tmp : Option ℕ}
    (hmain : s.main = .freeing wait datap tmp) :
    Inv { s with freed := s.freed ++ [datap], main := .foreach wait tmp } := by
  have hplaces := h.places
  have hjoined := h.joined_eq
  have hcursor := h.cursor
  rw [hmain] at hplaces hjoined
  rw [Cursor, hmain] at hcursor
  refine ⟨?_, ?_, h.ended, hcursor⟩
  · simpa [Main.held] using hplaces
  · rw [hjoined]
    simp [Main.unfreed]

theorem Inv.step (h : s.Inv) (hstep : Step s t) : t.Inv := by
  cases hstep with
  | accept hmain => exact h.accept hmain
  | acceptFails hmain => exact h
  | noRequest hmain =>
      exact h.move (by rw [hmain]; rfl) (by rw [hmain]; rfl) ⟨[], s.list, rfl, rfl, by simp⟩
  | shouldClose hmain =>
      exact h.move (by rw [hmain]; rfl) (by rw [hmain]; rfl) ⟨[], s.list, rfl, rfl, by simp⟩
  | @insertHead tinfo hmain =>
      have hplaces := h.places
      have hjoined := h.joined_eq
      rw [hmain] at hplaces hjoined
      refine ⟨?_, hjoined, h.ended, ⟨[], tinfo :: s.list, rfl, rfl, by simp⟩⟩
      simpa [Main.held] using hplaces
  | visit hmain => exact h.visit hmain
  | passed hmain => exact h.move (by rw [hmain]; rfl) (by rw [hmain]; rfl) trivial
  | closed hmain =>
      obtain ⟨done, todo, hlist, hhead, hwait⟩ := h.cursor_foreach hmain
      refine h.move (by rw [hmain]; rfl) (by rw [hmain]; rfl) ?_
      rw [hwait rfl, List.nil_append] at hlist
      rw [← hlist] at hhead
      exact List.head?_eq_none_iff.mp hhead.symm
  | @keep datap tmp hmain hrunning =>
      obtain ⟨done, todo, hlist, -, htmp, -⟩ := h.cursor_body hmain
      refine h.move (by rw [hmain]; rfl) (by rw [hmain]; rfl)
        ⟨done ++ [datap], todo, ?_, htmp, by simp⟩
      rw [hlist, List.append_assoc]
      rfl
  | remove hmain hdone => exact h.remove hmain
  | join hmain hended => exact h.join hmain hended
  | free hmain => exact h.free hmain
  | finish hlt hrunning => exact h.update (by rw [hrunning]; decide) _
  | exit hlt hfinished => exact h.update (by rw [hfinished]; decide) _

/-- A thread is out of its section after a step only if it was before, or it has just set its
flag. -/
theorem Step.out_cases (hstep : Step s t) :
    s.accepted ≤ t.accepted ∧ ∀ id < t.accepted, t.thread id ≠ .running →
      (s.thread id = .running ∧ t.thread id = .finished) ∨
        (id < s.accepted ∧ s.thread id ≠ .running) := by
  cases hstep with
  | accept hmain =>
      refine ⟨Nat.le_succ _, ?_⟩
      intro id hid hout
      dsimp only at hid hout
      by_cases hnew : id = s.accepted
      · simp [hnew] at hout
      · rw [Function.update_of_ne hnew] at hout
        exact Or.inr ⟨by omega, hout⟩
  | @finish tinfo hlt hrunning =>
      refine ⟨le_rfl, ?_⟩
      intro id hid hout
      dsimp only at hid hout ⊢
      by_cases hone : id = tinfo
      · rw [hone]
        exact Or.inl ⟨hrunning, Function.update_self ..⟩
      · rw [Function.update_of_ne hone] at hout
        exact Or.inr ⟨hid, hout⟩
  | @exit tinfo hlt hfinished =>
      refine ⟨le_rfl, ?_⟩
      intro id hid hout
      dsimp only at hid hout
      by_cases hone : id = tinfo
      · rw [hone, hfinished]
        exact Or.inr ⟨hlt, by decide⟩
      · rw [Function.update_of_ne hone] at hout
        exact Or.inr ⟨hid, hout⟩
  | _ => exact ⟨le_rfl, fun id hid hout ↦ Or.inr ⟨hid, hout⟩⟩

theorem Reachable.inv (h : s.Reachable) : s.Inv := by
  induction h with
  | refl => exact inv_start
  | tail _ hstep ih => exact ih.step hstep

/-! ## What a pass removes -/

/-- The records that a pass has seen and those of them it has left in the list: what it
removed has finished, and what it left had not finished when it began. -/
structure Kept (before now : ℕ → Thread) (seen done : List ℕ) : Prop where
  sublist : done.Sublist seen
  removed : ∀ id ∈ seen, id ∉ done → (now id).isFinished = true
  kept : ∀ id ∈ done, (before id).isFinished = false

/-- `next` is where the pass that began in `s₀` goes on. -/
def Ahead (s₀ : Process) (now : ℕ → Thread) (list : List ℕ) (next : Option ℕ) : Prop :=
  ∃ seen done todo, s₀.list = seen ++ todo ∧ list = done ++ todo ∧ next = todo.head? ∧
    Kept s₀.thread now seen done

def Progress (s₀ : Process) (now : ℕ → Thread) (list : List ℕ) : Main → Prop
  | .foreach _ datap => Ahead s₀ now list datap
  | .body _ datap tmp => Ahead s₀ now list (some datap) ∧ tmp = listNext list datap
  | .joining _ _ tmp | .freeing _ _ tmp => Ahead s₀ now list tmp
  | .poll => Kept s₀.thread now s₀.list list
  | .created _ | .exited => True

structure PassInv (s₀ s : Process) : Prop where
  finished : ∀ id, (s₀.thread id).isFinished = true → (s.thread id).isFinished = true
  progress : Progress s₀ s.thread s.list s.main

end Process

def Main.inPass (wait : Bool) : Main → Bool
  | foreach w _ | body w _ _ | joining w _ _ | freeing w _ _ => w == wait
  | _ => false

namespace Process

/-- A run from the beginning to the end of a pass that does not wait. -/
structure Pass (s t : Process) : Prop where
  begins : s.main = .foreach false s.list.head?
  steps : Relation.ReflTransGen (fun a b ↦ a.main.inPass false = true ∧ Step a b) s t
  ends : t.main = .poll

variable {s s₀ t : Process} {list : List ℕ} {now : ℕ → Thread} {tinfo : ℕ} {next : Thread}

theorem isFinished_update (hnext : next.isFinished = true) {id : ℕ}
    (h : (now id).isFinished = true) : (Function.update now tinfo next id).isFinished = true := by
  by_cases hid : id = tinfo
  · rw [hid, Function.update_self]
    exact hnext
  · rwa [Function.update_of_ne hid]

theorem Kept.update {before : ℕ → Thread} {seen done : List ℕ} (h : Kept before now seen done)
    (hnext : next.isFinished = true) : Kept before (Function.update now tinfo next) seen done :=
  ⟨h.sublist, fun id hid hnot ↦ isFinished_update hnext (h.removed id hid hnot), h.kept⟩

theorem Ahead.update {datap : Option ℕ} (h : Ahead s₀ now list datap)
    (hnext : next.isFinished = true) : Ahead s₀ (Function.update now tinfo next) list datap := by
  obtain ⟨seen, done, todo, hbegan, hlist, hhead, hkept⟩ := h
  exact ⟨seen, done, todo, hbegan, hlist, hhead, hkept.update hnext⟩

theorem Progress.update {main : Main} (h : Progress s₀ now list main)
    (hnext : next.isFinished = true) : Progress s₀ (Function.update now tinfo next) list main := by
  cases main with
  | poll => exact Kept.update h hnext
  | created tinfo => trivial
  | foreach wait datap => exact Ahead.update h hnext
  | body wait datap tmp => exact ⟨h.1.update hnext, h.2⟩
  | joining wait datap tmp => exact Ahead.update h hnext
  | freeing wait datap tmp => exact Ahead.update h hnext
  | exited => trivial

theorem PassInv.update (h : PassInv s₀ s) (hnext : next.isFinished = true) :
    PassInv s₀ { s with thread := Function.update s.thread tinfo next } :=
  ⟨fun id hid ↦ isFinished_update hnext (h.finished id hid), h.progress.update hnext⟩

/-- The record that is visited next, taken apart. -/
theorem Ahead.uncons {datap : ℕ} (h : Ahead s₀ now list (some datap)) (hnodup : list.Nodup) :
    ∃ seen done todo, s₀.list = seen ++ datap :: todo ∧ list = done ++ datap :: todo ∧
      list.erase datap = done ++ todo ∧ listNext list datap = todo.head? ∧
      Kept s₀.thread now seen done := by
  obtain ⟨seen, done, todo, hbegan, rfl, hhead, hkept⟩ := h
  cases todo with
  | nil => cases hhead
  | cons d todo =>
      cases hhead
      have hnot := notMem_of_nodup_append hnodup
      refine ⟨seen, done, todo, hbegan, rfl, ?_, listNext_append hnot, hkept⟩
      rw [List.erase_append_right _ hnot, List.erase_cons_head]

theorem Ahead.keep {datap : ℕ} (h : Ahead s₀ now list (some datap)) (hnodup : list.Nodup)
    (hrunning : (s₀.thread datap).isFinished = false) :
    Ahead s₀ now list (listNext list datap) := by
  obtain ⟨seen, done, todo, hbegan, hlist, -, hnext, hkept⟩ := h.uncons hnodup
  refine ⟨seen ++ [datap], done ++ [datap], todo, by simp [hbegan], by simp [hlist], hnext,
    hkept.sublist.append (List.Sublist.refl _), ?_, ?_⟩
  · intro id hid hnot
    rcases List.mem_append.mp hid with hid | hid
    · exact hkept.removed id hid fun hin ↦ hnot (List.mem_append_left _ hin)
    · exact absurd (List.mem_append_right done hid) hnot
  · intro id hid
    rcases List.mem_append.mp hid with hid | hid
    · exact hkept.kept id hid
    · rw [List.mem_singleton.mp hid]
      exact hrunning

theorem Ahead.remove {datap : ℕ} (h : Ahead s₀ now list (some datap)) (hnodup : list.Nodup)
    (hfinished : (now datap).isFinished = true) :
    Ahead s₀ now (list.erase datap) (listNext list datap) := by
  obtain ⟨seen, done, todo, hbegan, -, herase, hnext, hkept⟩ := h.uncons hnodup
  refine ⟨seen ++ [datap], done, todo, by simp [hbegan], herase, hnext,
    hkept.sublist.trans (List.sublist_append_left _ _), ?_, hkept.kept⟩
  intro id hid hnot
  rcases List.mem_append.mp hid with hid | hid
  · exact hkept.removed id hid hnot
  · rw [List.mem_singleton.mp hid]
    exact hfinished

theorem PassInv.step (h : PassInv s₀ s) (hnodup : s.list.Nodup)
    (hpass : s.main.inPass false = true) (hstep : Step s t) : PassInv s₀ t := by
  have hprogress := h.progress
  cases hstep with
  | accept hmain => simp [hmain, Main.inPass] at hpass
  | acceptFails hmain => simp [hmain, Main.inPass] at hpass
  | noRequest hmain => simp [hmain, Main.inPass] at hpass
  | shouldClose hmain => simp [hmain, Main.inPass] at hpass
  | insertHead hmain => simp [hmain, Main.inPass] at hpass
  | closed hmain => simp [hmain, Main.inPass] at hpass
  | visit hmain =>
      rw [hmain] at hprogress
      exact ⟨h.finished, hprogress, rfl⟩
  | passed hmain =>
      rw [hmain] at hprogress
      obtain ⟨seen, done, todo, hbegan, hlist, hhead, hkept⟩ := hprogress
      rw [List.head?_eq_none_iff.mp hhead.symm, List.append_nil] at hbegan hlist
      rw [← hbegan, ← hlist] at hkept
      exact ⟨h.finished, hkept⟩
  | @keep datap tmp hmain hrunning =>
      rw [hmain] at hprogress
      obtain ⟨hahead, rfl⟩ := hprogress
      refine ⟨h.finished, hahead.keep hnodup ?_⟩
      rw [← Bool.not_eq_true]
      intro hfinished
      rw [h.finished datap hfinished] at hrunning
      cases hrunning
  | @remove wait datap tmp hmain hdone =>
      rw [hmain] at hprogress hpass
      obtain ⟨hahead, rfl⟩ := hprogress
      have hwait : wait = false := beq_iff_eq.mp hpass
      refine ⟨h.finished, hahead.remove hnodup (hdone.resolve_right ?_)⟩
      simp [hwait]
  | join hmain hended =>
      rw [hmain] at hprogress
      exact ⟨h.finished, hprogress⟩
  | free hmain =>
      rw [hmain] at hprogress
      exact ⟨h.finished, hprogress⟩
  | finish hlt hrunning => exact h.update rfl
  | exit hlt hfinished => exact h.update rfl

theorem Pass.kept (hs : s.Reachable) (hpass : Pass s t) :
    Kept s.thread t.thread s.list t.list := by
  have hbegin : PassInv s s := by
    refine ⟨fun _ hid ↦ hid, ?_⟩
    rw [hpass.begins]
    exact ⟨[], [], s.list, rfl, rfl, rfl, List.Sublist.refl _, by simp, by simp⟩
  have hrun : ∀ {u}, Relation.ReflTransGen (fun a b ↦ a.main.inPass false = true ∧ Step a b) s u →
      u.Reachable ∧ PassInv s u := by
    intro u hsteps
    induction hsteps with
    | refl => exact ⟨hs, hbegin⟩
    | tail _ hstep ih =>
        exact ⟨ih.1.tail hstep.2, ih.2.step ih.1.inv.nodup_list hstep.1 hstep.2⟩
  have hprogress := (hrun hpass.steps).2.progress
  rwa [hpass.ends] at hprogress

/-! ## The last pass ends -/

end Process

def Thread.stepsLeft : Thread → ℕ
  | running => 2
  | finished => 1
  | ended => 0

/-- Steps left to the main thread in a pass that waits, over a list of this length. -/
def Main.stepsLeft (length : ℕ) : Main → ℕ
  | foreach _ _ => 4 * length + 1
  | body _ _ _ => 4 * length
  | joining _ _ _ => 4 * length + 3
  | freeing _ _ _ => 4 * length + 2
  | _ => 0

namespace Process

variable {s t : Process}

def stepsLeft (s : Process) : ℕ :=
  s.main.stepsLeft s.list.length + ∑ id ∈ Finset.range s.accepted, (s.thread id).stepsLeft

theorem stepsLeft_update_lt {tinfo : ℕ} (hlt : tinfo < s.accepted) {next : Thread}
    (hless : next.stepsLeft < (s.thread tinfo).stepsLeft) :
    stepsLeft { s with thread := Function.update s.thread tinfo next } < s.stepsLeft := by
  have hsum : ∑ id ∈ Finset.range s.accepted, (Function.update s.thread tinfo next id).stepsLeft <
      ∑ id ∈ Finset.range s.accepted, (s.thread id).stepsLeft := by
    apply Finset.sum_lt_sum
    · intro id _
      by_cases hid : id = tinfo
      · rw [hid, Function.update_self]
        exact hless.le
      · rw [Function.update_of_ne hid]
    · refine ⟨tinfo, Finset.mem_range.mpr hlt, ?_⟩
      rw [Function.update_self]
      exact hless
  exact Nat.add_lt_add_left hsum _

/-- In the pass that waits every step, of whichever thread, is a step towards the end. -/
theorem Inv.stepsLeft_lt (h : s.Inv) (hpass : s.main.inPass true = true) (hstep : Step s t) :
    t.stepsLeft < s.stepsLeft ∧ (t.main.inPass true = true ∨ t.main = .exited) := by
  cases hstep with
  | accept hmain => simp [hmain, Main.inPass] at hpass
  | acceptFails hmain => simp [hmain, Main.inPass] at hpass
  | noRequest hmain => simp [hmain, Main.inPass] at hpass
  | shouldClose hmain => simp [hmain, Main.inPass] at hpass
  | insertHead hmain => simp [hmain, Main.inPass] at hpass
  | passed hmain => simp [hmain, Main.inPass] at hpass
  | keep hmain hrunning => simp [hmain, Main.inPass] at hpass
  | visit hmain =>
      rw [hmain] at hpass
      refine ⟨?_, Or.inl hpass⟩
      simp only [stepsLeft, hmain, Main.stepsLeft]
      omega
  | closed hmain =>
      refine ⟨?_, Or.inr rfl⟩
      simp only [stepsLeft, hmain, Main.stepsLeft]
      omega
  | @remove wait datap tmp hmain hdone =>
      obtain ⟨done, todo, hlist, herase, -, -⟩ := h.cursor_body hmain
      have hlength : s.list.length = (s.list.erase datap).length + 1 := by
        rw [herase, hlist, List.length_append, List.length_append, List.length_cons]
        omega
      rw [hmain] at hpass
      refine ⟨?_, Or.inl hpass⟩
      simp only [stepsLeft, hmain, Main.stepsLeft, hlength]
      omega
  | join hmain hended =>
      rw [hmain] at hpass
      refine ⟨?_, Or.inl hpass⟩
      simp only [stepsLeft, hmain, Main.stepsLeft]
      omega
  | free hmain =>
      rw [hmain] at hpass
      refine ⟨?_, Or.inl hpass⟩
      simp only [stepsLeft, hmain, Main.stepsLeft]
      omega
  | finish hlt hrunning =>
      exact ⟨stepsLeft_update_lt hlt (by rw [hrunning]; decide), Or.inl hpass⟩
  | exit hlt hfinished =>
      exact ⟨stepsLeft_update_lt hlt (by rw [hfinished]; decide), Or.inl hpass⟩

/-- The process gets stuck nowhere: `pthread_join` waits for a thread that can go on. -/
theorem Inv.exists_step (h : s.Inv) (hmain : s.main ≠ .exited) : ∃ t, Step s t := by
  cases hm : s.main with
  | poll => exact ⟨_, .noRequest hm⟩
  | created tinfo => exact ⟨_, .insertHead hm⟩
  | foreach wait datap =>
      cases datap with
      | some datap => exact ⟨_, .visit hm⟩
      | none =>
          cases wait with
          | false => exact ⟨_, .passed hm⟩
          | true => exact ⟨_, .closed hm⟩
  | body wait datap tmp =>
      cases hfinished : (s.thread datap).isFinished with
      | true => exact ⟨_, .remove hm (Or.inl hfinished)⟩
      | false =>
          cases wait with
          | false => exact ⟨_, .keep hm hfinished⟩
          | true => exact ⟨_, .remove hm (Or.inr rfl)⟩
  | joining wait datap tmp =>
      have hlt : datap < s.accepted := by
        apply h.lt_of_mem_held
        simp [hm, Main.held]
      cases hthread : s.thread datap with
      | running => exact ⟨_, .finish hlt hthread⟩
      | finished => exact ⟨_, .exit hlt hthread⟩
      | ended => exact ⟨_, .join hm hthread⟩
  | freeing wait datap tmp => exact ⟨_, .free hm⟩
  | exited => exact absurd hm hmain

/-- When the main thread has returned, all threads have been joined. -/
theorem Inv.ended_of_exited (h : s.Inv) (hmain : s.main = .exited) {id : ℕ}
    (hid : id < s.accepted) : s.list = [] ∧ id ∈ s.freed ∧ s.thread id = .ended := by
  have hplaces := h.places
  have hjoined := h.joined_eq
  have hlist := h.cursor
  rw [hmain] at hplaces hjoined
  rw [Cursor, hmain] at hlist
  have hfreed : id ∈ s.freed := by
    have hmem := hplaces.mem_iff.mpr (List.mem_range.mpr hid)
    simpa [Main.held, hlist] using hmem
  refine ⟨hlist, hfreed, h.ended id ?_⟩
  rw [hjoined]
  exact List.mem_append_left _ hfreed

theorem Inv.not_step_of_exited (h : s.Inv) (hmain : s.main = .exited) : ¬ Step s t := by
  intro hstep
  cases hstep with
  | finish hlt hrunning =>
      rw [(h.ended_of_exited hmain hlt).2.2] at hrunning
      cases hrunning
  | exit hlt hfinished =>
      rw [(h.ended_of_exited hmain hlt).2.2] at hfinished
      cases hfinished
  | _ => simp_all

theorem Inv.length_le_stepsLeft (h : s.Inv) (hpass : s.main.inPass true = true ∨ s.main = .exited)
    {n : ℕ} {run : ℕ → Process} (hstart : run 0 = s)
    (hsteps : ∀ i < n, Step (run i) (run (i + 1))) : n ≤ s.stepsLeft := by
  induction n generalizing s run with
  | zero => exact Nat.zero_le _
  | succ n ih =>
      have hfirst : Step s (run 1) := hstart ▸ hsteps 0 (Nat.succ_pos n)
      rcases hpass with hpass | hexited
      · obtain ⟨hless, hpass⟩ := h.stepsLeft_lt hpass hfirst
        let later (i : ℕ) : Process := run (i + 1)
        have hlater : ∀ i < n, Step (later i) (later (i + 1)) := fun i hi ↦
          hsteps (i + 1) (Nat.succ_lt_succ hi)
        have hrest := ih (h.step hfirst) hpass (show later 0 = run 1 from rfl) hlater
        omega
      · exact absurd hfirst (h.not_step_of_exited hexited)

/-! ## The whole server run -/

/-- A record leaves the list only when the main thread removes it, and without `wait` only
when its thread has finished. -/
theorem mem_list_of_step (hstep : Step s t) {id : ℕ} (hid : id ∈ s.list) :
    id ∈ t.list ∨ ∃ wait tmp, s.main = .body wait id tmp ∧ t.main = .joining wait id tmp ∧
      ((s.thread id).isFinished = true ∨ wait = true) := by
  cases hstep with
  | insertHead hmain => exact Or.inl (List.mem_cons_of_mem _ hid)
  | @remove wait datap tmp hmain hdone =>
      by_cases heq : id = datap
      · subst heq
        exact Or.inr ⟨wait, tmp, hmain, rfl, hdone⟩
      · exact Or.inl ((List.mem_erase_of_ne heq).mpr hid)
  | _ => exact Or.inl hid

/-- What holds of the records, of the next step and of a pass that begins now. -/
structure ReapsOnce (s : Process) : Prop where
  /-- on its way into the list, in the list, being reaped or freed -/
  one_place : ∀ id < s.accepted, s.freed.count id + s.main.held.count id + s.list.count id = 1
  joined_once : ∀ id, s.freed.count id ≤ s.joined.count id ∧ s.joined.count id ≤ 1
  joined_ended : ∀ id ∈ s.joined, s.thread id = .ended
  stays : ∀ t, Step s t → ∀ id ∈ s.list, id ∈ t.list ∨
    ∃ wait tmp, s.main = .body wait id tmp ∧ t.main = .joining wait id tmp ∧
      ((s.thread id).isFinished = true ∨ wait = true)
  pass : ∀ t, Pass s t → t.list.Sublist s.list ∧
    ∀ id ∈ s.list, ((s.thread id).isFinished = true → id ∉ t.list) ∧
      ((t.thread id).isFinished = false → id ∈ t.list)
  last_pass_ends : s.main.inPass true = true → ∀ (n : ℕ) (run : ℕ → Process), run 0 = s →
    (∀ i < n, Step (run i) (run (i + 1))) → n ≤ s.stepsLeft
  not_stuck : s.main ≠ .exited → ∃ t, Step s t
  exited : s.main = .exited → s.list = [] ∧
    ∀ id < s.accepted, s.joined.count id = 1 ∧ s.freed.count id = 1

theorem unfreed_sublist_held (main : Main) : main.unfreed.Sublist main.held := by
  cases main <;> simp [Main.unfreed, Main.held]

theorem Inv.count_joined (h : s.Inv) (id : ℕ) :
    s.freed.count id ≤ s.joined.count id ∧ s.joined.count id ≤ 1 := by
  have hsub : s.joined.Sublist (s.freed ++ s.main.held ++ s.list) := by
    rw [h.joined_eq]
    exact ((List.Sublist.refl _).append (unfreed_sublist_held _)).trans
      (List.sublist_append_left _ _)
  refine ⟨?_, List.nodup_iff_count_le_one.mp (h.nodup.sublist hsub) id⟩
  rw [h.joined_eq, List.count_append]
  exact Nat.le_add_right _ _

/-- In every run of the server, up to and including the last pass, the connection threads
are reaped exactly once. -/
theorem reachable_reapsOnce (s : Process) (hs : s.Reachable) : ReapsOnce s := by
  have h := hs.inv
  refine ⟨?_, h.count_joined, h.ended, fun t hstep id ↦ mem_list_of_step hstep, ?_, ?_,
    h.exists_step, ?_⟩
  · intro id hid
    rw [← List.count_append, ← List.count_append, h.places.count_eq]
    exact List.count_eq_one_of_mem List.nodup_range (List.mem_range.mpr hid)
  · intro t hpass
    have hkept := hpass.kept hs
    refine ⟨hkept.sublist, ?_⟩
    intro id hid
    refine ⟨?_, ?_⟩
    · intro hfinished hin
      rw [hkept.kept id hin] at hfinished
      cases hfinished
    · intro hrunning
      by_contra hnot
      rw [hkept.removed id hid hnot] at hrunning
      cases hrunning
  · intro hpass n run hstart hsteps
    exact h.length_le_stepsLeft (Or.inl hpass) hstart hsteps
  · intro hmain
    have hlist := h.cursor
    rw [Cursor, hmain] at hlist
    refine ⟨hlist, ?_⟩
    intro id hid
    obtain ⟨-, hfreed, -⟩ := h.ended_of_exited hmain hid
    obtain ⟨hle, hone⟩ := h.count_joined id
    have hpos := List.count_pos_iff.mpr hfreed
    exact ⟨by omega, by omega⟩

/-- One connection that is accepted, outlives a pass, finishes and is reaped by the last
pass. -/
theorem reapsOnce_oneConnection :
    ∃ s : Process, s.Reachable ∧ s.main = .exited ∧ s.accepted = 1 ∧ s.list = [] ∧
      s.joined.count 0 = 1 := by
  have hkept : Reachable _ := ((((Relation.ReflTransGen.refl.tail (.accept rfl)).tail
    (.insertHead rfl)).tail (.visit rfl)).tail (.keep rfl rfl)).tail (.passed rfl)
  have hclosing : Reachable _ := ((hkept.tail (.finish Nat.zero_lt_one rfl)).tail
    (.shouldClose rfl)).tail (.visit rfl)
  have hexited : Reachable _ := ((((hclosing.tail (.remove rfl (Or.inr rfl))).tail
    (.exit Nat.zero_lt_one rfl)).tail (.join rfl rfl)).tail (.free rfl)).tail (.closed rfl)
  obtain ⟨hlist, hone⟩ := (reachable_reapsOnce _ hexited).exited rfl
  exact ⟨_, hexited, rfl, rfl, hlist, (hone 0 Nat.zero_lt_one).1⟩

end Process

end ThreadReaping
end Aesd
