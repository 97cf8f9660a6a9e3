import Aesd.QueueList
import Aesd.Listener
import Aesd.ThreadReaping

/-!
# The records of the connection threads in memory

The main thread and the connection threads of `aesdsocket.c` over the memory they share:
each accepted connection has a `thread_info_t` and a `struct list_threads`, both from
`malloc`, which the main thread links into its list with the macros of `queue.h`, and a
descriptor, which its thread closes.  Every access to them goes through a pointer that may
be dangling; it is shown that none ever is, and that what happens in memory is what
`ThreadReaping` says with a list of numbers.  Of a thread there is its end here; what it
does under the mutex is left to `ConnectionThreads`.
-/

namespace Aesd
namespace ThreadReaping

open BlockHeap
open WordMemory

inductive Scalar where
  | flag (b : Bool)
  | number (n : ℕ)
  deriving DecidableEq, Repr

abbrev Memory := Heap (Word Scalar)

-- `struct list_threads`
abbrev tinfoField : ℕ := 0

-- `thread_info_t`
abbrev isFinishedField : ℕ := 0
abbrev fdField : ℕ := 1
abbrev threadField : ℕ := 2

/-- The handle of the global `head`. -/
abbrev listHead : ℕ := 0

/-- `Main` with the pointers that the main thread has in its variables. -/
inductive MainThread where
  | poll
  | created (tinfo : Word Scalar)
  | foreach (wait : Bool) (datap : Word Scalar)
  | body (wait : Bool) (datap tmp : Word Scalar)
  | joining (wait : Bool) (datap tinfo tmp : Word Scalar)
  | freeing (wait : Bool) (datap tinfo tmp : Word Scalar)
  | exited
  deriving DecidableEq

/-- The process: its memory and open descriptors, the threads in the order of their
creation with the argument each was given, and the main thread. -/
structure ServerProcess where
  mem : Memory
  fds : Finset ℕ
  accepted : ℕ
  thread : ℕ → Thread
  arg : ℕ → Word Scalar
  main : MainThread

/-- What can happen next.  `garbage` is what `malloc` leaves in a new block. -/
inductive Event where
  | accept (garbage : ℕ → Word Scalar)
  | acceptFails
  | noRequest
  | shouldClose
  | mainGoesOn (garbage : ℕ → Word Scalar)
  | finish (id : ℕ)
  | exit (id : ℕ)

def isTrue : Word Scalar → Bool
  | .null => false
  | .pointer _ _ => true
  | .value (.flag b) => b
  | .value (.number n) => n ≠ 0

namespace ServerProcess

def start (fds : Finset ℕ) : ServerProcess :=
  ⟨(∅ : Memory).insert listHead [.null], fds, 0, fun _ ↦ .running, fun _ ↦ .null, .poll⟩

def malloc (garbage : ℕ → Word Scalar) (mem : Memory) (words : ℕ) : ℕ × Memory :=
  alloc mem ((List.range words).map garbage)

/-- `accept`, a new `thread_info_t`, `pthread_create`. -/
def accept (garbage : ℕ → Word Scalar) (s : ServerProcess) : Except Fault ServerProcess := do
  let newFd := lowestFree s.fds
  let (tinfo, mem) := malloc garbage s.mem 3
  let tinfo := .pointer tinfo 0
  let mem ← storeAt mem (.value (.number newFd)) (tinfo.field fdField)
  let mem ← storeAt mem (.value (.flag false)) (tinfo.field isFinishedField)
  let mem ← storeAt mem (.value (.number s.accepted)) (tinfo.field threadField)
  return { s with
    mem
    fds := insert newFd s.fds
    accepted := s.accepted + 1
    thread := Function.update s.thread s.accepted .running
    arg := Function.update s.arg s.accepted tinfo
    main := .created tinfo }

/-- `clean_threads` begins. -/
def cleanThreads (wait : Bool) (s : ServerProcess) : Except Fault ServerProcess := do
  let datap ← QueueList.listFirst s.mem (.pointer listHead 0)
  return { s with main := .foreach wait datap }

/-- A new `struct list_threads` for the thread just created. -/
def insertHead (garbage : ℕ → Word Scalar) (s : ServerProcess) (tinfo : Word Scalar) :
    Except Fault ServerProcess := do
  let (datap, mem) := malloc garbage s.mem 3
  let datap := .pointer datap 0
  let mem ← storeAt mem tinfo (datap.field tinfoField)
  let mem ← QueueList.listInsertHead mem (.pointer listHead 0) datap
  cleanThreads false { s with mem }

/-- The body of the loop of `clean_threads` up to `pthread_join`. -/
def visit (s : ServerProcess) (wait : Bool) (datap tmp : Word Scalar) :
    Except Fault ServerProcess := do
  let tinfo ← loadAt s.mem (datap.field tinfoField)
  let isFinished ← loadAt s.mem (tinfo.field isFinishedField)
  if isTrue isFinished ∨ wait = true then
    let mem ← QueueList.listRemove s.mem datap
    return { s with mem, main := .joining wait datap tinfo tmp }
  else return { s with main := .foreach wait tmp }

/-- The next step of the main thread outside `poll`; `none` while it waits. -/
def mainGoesOn (garbage : ℕ → Word Scalar) (s : ServerProcess) :
    Except Fault (Option ServerProcess) :=
  match s.main with
  | .poll | .exited => .ok none
  | .created tinfo => some <$> insertHead garbage s tinfo
  | .foreach wait .null => .ok (some { s with main := if wait then .exited else .poll })
  | .foreach wait datap => do
      let tmp ← QueueList.listNext s.mem datap
      return some { s with main := .body wait datap tmp }
  | .body wait datap tmp => some <$> visit s wait datap tmp
  | .joining wait datap tinfo tmp => do
      let thread ← loadAt s.mem (tinfo.field threadField)
      match thread with
      | .value (.number id) =>
          if s.thread id = .ended then
            return some { s with main := .freeing wait datap tinfo tmp }
          else return none
      | _ => .error .invalidAccess
  | .freeing wait datap tinfo tmp => do
      let mem ← freeAt s.mem tinfo
      let mem ← freeAt mem datap
      return some { s with mem, main := .foreach wait tmp }

def step (s : ServerProcess) : Event → Except Fault (Option ServerProcess)
  | .accept garbage => if s.main = .poll then some <$> s.accept garbage else .ok none
  | .acceptFails => .ok (if s.main = .poll then some s else none)
  | .noRequest => if s.main = .poll then some <$> s.cleanThreads false else .ok none
  | .shouldClose => if s.main = .poll then some <$> s.cleanThreads true else .ok none
  | .mainGoesOn garbage => s.mainGoesOn garbage
  | .finish id =>
      if id < s.accepted ∧ s.thread id = .running then do
        let mem ← storeAt s.mem (.value (.flag true)) ((s.arg id).field isFinishedField)
        return some { s with mem, thread := Function.update s.thread id .finished }
      else .ok none
  | .exit id =>
      if id < s.accepted ∧ s.thread id = .finished then do
        let fd ← loadAt s.mem ((s.arg id).field fdField)
        match fd with
        | .value (.number n) =>
            return some { s with
              fds := s.fds.erase n
              thread := Function.update s.thread id .ended }
        | _ => .error .invalidAccess
      else .ok none

theorem thread_of_finish {s t : ServerProcess} {id : ℕ} (h : s.step (.finish id) = .ok (some t)) :
    s.thread id = .running ∧ t.thread id = .finished := by
  by_cases hcan : id < s.accepted ∧ s.thread id = .running
  · rw [step, if_pos hcan] at h
    obtain ⟨mem, -, h⟩ := FallibleRun.bind_eq_ok_iff.mp h
    cases h
    exact ⟨hcan.2, Function.update_self ..⟩
  · rw [step, if_neg hcan] at h
    cases h

def Step (s t : ServerProcess) : Prop := ∃ e, s.step e = .ok (some t)

def Reachable (fds : Finset ℕ) (s : ServerProcess) : Prop :=
  Relation.ReflTransGen Step (start fds) s

end ServerProcess

/-! ## What is in memory -/

/-- Where the two structures of a connection are, and its descriptor. -/
structure Record where
  node : ℕ
  tinfo : ℕ
  fd : ℕ

section Blocks

variable (rec : ℕ → Record)

def element (id : ℕ) : ℕ × Word Scalar := ((rec id).node, .pointer (rec id).tinfo 0)

def tinfoBlock (thread : ℕ → Thread) (id : ℕ) : ℕ × List (Word Scalar) :=
  ((rec id).tinfo, [.value (.flag (thread id).isFinished), .value (.number (rec id).fd),
    .value (.number id)])

/-- An element that is out of the list keeps some pointers. -/
def looseBlock (next prev : Word Scalar) (id : ℕ) : ℕ × List (Word Scalar) :=
  ((rec id).node, [.pointer (rec id).tinfo 0, next, prev])

def link (datap : Option ℕ) : Word Scalar := datap.elim .null fun id ↦ .pointer (rec id).node 0

end Blocks

namespace Main

def pointers (rec : ℕ → Record) : Main → MainThread
  | poll => .poll
  | created tinfo => .created (.pointer (rec tinfo).tinfo 0)
  | foreach wait datap => .foreach wait (link rec datap)
  | body wait datap tmp => .body wait (.pointer (rec datap).node 0) (link rec tmp)
  | joining wait datap tmp =>
      .joining wait (.pointer (rec datap).node 0) (.pointer (rec datap).tinfo 0) (link rec tmp)
  | freeing wait datap tmp =>
      .freeing wait (.pointer (rec datap).node 0) (.pointer (rec datap).tinfo 0) (link rec tmp)
  | exited => .exited

/-- An element that is out of the list and not freed yet. -/
def removed : Main → List ℕ
  | joining _ datap _ => [datap]
  | freeing _ datap _ => [datap]
  | _ => []

end Main

/-- All that is live: the list, an element on its way out, and the `thread_info_t` of every
connection that is not reaped yet. -/
def liveBlocks (rec : ℕ → Record) (p : Process) (next prev : Word Scalar) :
    List (ℕ × List (Word Scalar)) :=
  QueueList.blocks listHead (p.list.map (element rec)) .null ++
    (p.main.removed.map (looseBlock rec next prev) ++
      (p.main.held ++ p.list).map (tinfoBlock rec p.thread))

/-- Beside those of the start, the open descriptors are those of the threads that have not
ended, one for each. -/
structure Descriptors (base fds : Finset ℕ) (accepted : ℕ) (thread : ℕ → Thread)
    (rec : ℕ → Record) : Prop where
  mem_iff : ∀ fd, fd ∈ fds ↔ fd ∈ base ∨ ∃ id < accepted, thread id ≠ .ended ∧ (rec id).fd = fd
  apart : ∀ id < accepted, thread id ≠ .ended → (rec id).fd ∉ base
  distinct : ∀ id < accepted, ∀ id' < accepted, thread id ≠ .ended → thread id' ≠ .ended →
    (rec id).fd = (rec id').fd → id = id'

/-- The process in memory is this process of numbers. -/
structure Represents (base : Finset ℕ) (s : ServerProcess) (p : Process) (rec : ℕ → Record) :
    Prop where
  accepted_eq : s.accepted = p.accepted
  thread_eq : s.thread = p.thread
  arg_eq : ∀ id < p.accepted, s.arg id = .pointer (rec id).tinfo 0
  main_eq : s.main = p.main.pointers rec
  owns : ∃ next prev, Owns s.mem (liveBlocks rec p next prev)
  descriptors : Descriptors base s.fds p.accepted p.thread rec

theorem represents_start (fds : Finset ℕ) (rec : ℕ → Record) :
    Represents fds (ServerProcess.start fds) Process.start rec where
  accepted_eq := rfl
  thread_eq := rfl
  arg_eq id hid := absurd hid (Nat.not_lt_zero id)
  main_eq := rfl
  owns := ⟨.null, .null, owns_empty.alloc (by simp) _⟩
  descriptors := by
    constructor
    · simp [ServerProcess.start, Process.start]
    · intro id hid
      exact absurd hid (Nat.not_lt_zero id)
    · intro id hid
      exact absurd hid (Nat.not_lt_zero id)

theorem firstOr_element (rec : ℕ → Record) (ids : List ℕ) :
    QueueList.firstOr .null (ids.map (element rec)) = link rec ids.head? := by
  cases ids <;> rfl

section Congr

variable {rec rec' : ℕ → Record} {ids : List ℕ}

theorem map_element_congr (h : ∀ id ∈ ids, rec' id = rec id) :
    ids.map (element rec') = ids.map (element rec) := by
  apply List.map_congr_left
  intro id hid
  rw [element, element, h id hid]

theorem map_tinfoBlock_congr {thread thread' : ℕ → Thread} (h : ∀ id ∈ ids, rec' id = rec id)
    (hthread : ∀ id ∈ ids, thread' id = thread id) :
    ids.map (tinfoBlock rec' thread') = ids.map (tinfoBlock rec thread) := by
  apply List.map_congr_left
  intro id hid
  rw [tinfoBlock, tinfoBlock, h id hid, hthread id hid]

end Congr

/-! ## Descriptors -/

namespace Descriptors

variable {base fds : Finset ℕ} {accepted : ℕ} {thread : ℕ → Thread} {rec : ℕ → Record}

/-- Nothing changes as long as no thread ends. -/
theorem congr (h : Descriptors base fds accepted thread rec) {thread' : ℕ → Thread}
    {rec' : ℕ → Record} (hended : ∀ id < accepted, thread' id = .ended ↔ thread id = .ended)
    (hfd : ∀ id < accepted, (rec' id).fd = (rec id).fd) :
    Descriptors base fds accepted thread' rec' := by
  have hlive : ∀ {id}, id < accepted → thread' id ≠ .ended → thread id ≠ .ended :=
    fun hid hne he ↦ hne ((hended _ hid).mpr he)
  constructor
  · intro fd
    rw [h.mem_iff]
    refine or_congr_right ⟨?_, ?_⟩
    · rintro ⟨id, hid, hne, rfl⟩
      exact ⟨id, hid, fun he ↦ hne ((hended id hid).mp he), hfd id hid⟩
    · rintro ⟨id, hid, hne, rfl⟩
      exact ⟨id, hid, hlive hid hne, (hfd id hid).symm⟩
  · intro id hid hne
    rw [hfd id hid]
    exact h.apart id hid (hlive hid hne)
  · intro id hid id' hid' hne hne' heq
    rw [hfd id hid, hfd id' hid'] at heq
    exact h.distinct id hid id' hid' (hlive hid hne) (hlive hid' hne') heq

theorem notMem_base (h : Descriptors base fds accepted thread rec) {fd : ℕ} (hfd : fd ∉ fds) :
    fd ∉ base :=
  fun hbase ↦ hfd ((h.mem_iff fd).mpr (Or.inl hbase))

theorem ne_of_notMem (h : Descriptors base fds accepted thread rec) {fd : ℕ} (hfd : fd ∉ fds)
    {id : ℕ} (hid : id < accepted) (hlive : thread id ≠ .ended) : (rec id).fd ≠ fd :=
  fun heq ↦ hfd ((h.mem_iff fd).mpr (Or.inr ⟨id, hid, hlive, heq⟩))

/-- A new connection gets a descriptor that nobody has. -/
theorem accept (h : Descriptors base fds accepted thread rec) {fd : ℕ} (hfd : fd ∉ fds)
    (node tinfo : ℕ) :
    Descriptors base (insert fd fds) (accepted + 1) (Function.update thread accepted .running)
      (Function.update rec accepted ⟨node, tinfo, fd⟩) := by
  have hold : ∀ {id}, id < accepted →
      Function.update rec accepted ⟨node, tinfo, fd⟩ id = rec id ∧
        Function.update thread accepted .running id = thread id := fun hid ↦
    ⟨Function.update_of_ne hid.ne _ _, Function.update_of_ne hid.ne _ _⟩
  constructor
  · intro x
    rw [Finset.mem_insert, h.mem_iff]
    constructor
    · rintro (rfl | hbase | ⟨id, hid, hlive, rfl⟩)
      · exact Or.inr ⟨accepted, Nat.lt_succ_self _, by simp, by simp⟩
      · exact Or.inl hbase
      · refine Or.inr ⟨id, Nat.lt_succ_of_lt hid, ?_, ?_⟩
        · rwa [(hold hid).2]
        · rw [(hold hid).1]
    · rintro (hbase | ⟨id, hid, hlive, rfl⟩)
      · exact Or.inr (Or.inl hbase)
      · rcases Nat.lt_succ_iff_lt_or_eq.mp hid with hid | rfl
        · rw [(hold hid).2] at hlive
          exact Or.inr (Or.inr ⟨id, hid, hlive, by rw [(hold hid).1]⟩)
        · exact Or.inl (by simp)
  · intro id hid hlive
    rcases Nat.lt_succ_iff_lt_or_eq.mp hid with hid | rfl
    · rw [(hold hid).2] at hlive
      rw [(hold hid).1]
      exact h.apart id hid hlive
    · simpa using h.notMem_base hfd
  · intro id hid id' hid' hlive hlive' heq
    rcases Nat.lt_succ_iff_lt_or_eq.mp hid with hid | rfl <;>
      rcases Nat.lt_succ_iff_lt_or_eq.mp hid' with hid' | rfl
    · rw [(hold hid).2] at hlive
      rw [(hold hid').2] at hlive'
      rw [(hold hid).1, (hold hid').1] at heq
      exact h.distinct id hid id' hid' hlive hlive' heq
    · rw [(hold hid).2] at hlive
      rw [(hold hid).1, Function.update_self] at heq
      exact absurd heq (h.ne_of_notMem hfd hid hlive)
    · rw [(hold hid').2] at hlive'
      rw [(hold hid').1, Function.update_self] at heq
      exact absurd heq.symm (h.ne_of_notMem hfd hid' hlive')
    · rfl

/-- A thread that ends closes its own descriptor. -/
theorem exit (h : Descriptors base fds accepted thread rec) {id : ℕ} (hid : id < accepted)
    (hlive : thread id ≠ .ended) :
    Descriptors base (fds.erase (rec id).fd) accepted (Function.update thread id .ended) rec := by
  have hother : ∀ {id'}, Function.update thread id .ended id' ≠ .ended →
      id' ≠ id ∧ thread id' ≠ .ended := by
    intro id' hlive'
    have hne : id' ≠ id := by
      rintro rfl
      simp at hlive'
    rw [Function.update_of_ne hne] at hlive'
    exact ⟨hne, hlive'⟩
  constructor
  · intro x
    rw [Finset.mem_erase, h.mem_iff]
    constructor
    · rintro ⟨hne, hbase | ⟨id', hid', hlive', rfl⟩⟩
      · exact Or.inl hbase
      · refine Or.inr ⟨id', hid', ?_, rfl⟩
        rwa [Function.update_of_ne]
        rintro rfl
        exact hne rfl
    · rintro (hbase | ⟨id', hid', hlive', rfl⟩)
      · refine ⟨?_, Or.inl hbase⟩
        rintro rfl
        exact h.apart id hid hlive hbase
      · obtain ⟨hne, hlive'⟩ := hother hlive'
        exact ⟨fun heq ↦ hne (h.distinct id' hid' id hid hlive' hlive heq),
          Or.inr ⟨id', hid', hlive', rfl⟩⟩
  · intro id' hid' hlive'
    exact h.apart id' hid' (hother hlive').2
  · intro i hi j hj hlivei hlivej heq
    exact h.distinct i hi j hj (hother hlivei).2 (hother hlivej).2 heq

end Descriptors

/-! ## One step in memory -/

namespace Process

theorem Inv.mem_live {p : Process} (h : p.Inv) {id : ℕ} (hlt : id < p.accepted)
    (hthread : p.thread id ≠ .ended) : id ∈ p.main.held ++ p.list := by
  have hplace := h.places.mem_iff.mpr (List.mem_range.mpr hlt)
  rw [List.append_assoc] at hplace
  rcases List.mem_append.mp hplace with hfreed | hlive
  · have hjoined : id ∈ p.joined := by
      rw [h.joined_eq]
      exact List.mem_append_left _ hfreed
    exact absurd (h.ended id hjoined) hthread
  · exact hlive

theorem Inv.lt_of_mem_live {p : Process} (h : p.Inv) {id : ℕ} (hid : id ∈ p.main.held ++ p.list) :
    id < p.accepted := by
  apply List.mem_range.mp
  apply h.places.subset
  rw [List.append_assoc]
  exact List.mem_append_right _ hid

end Process

namespace Represents

variable {base : Finset ℕ} {s : ServerProcess} {p : Process} {rec : ℕ → Record}

theorem tinfo_mem {next prev : Word Scalar} {id : ℕ} (hid : id ∈ p.main.held ++ p.list) :
    tinfoBlock rec p.thread id ∈ liveBlocks rec p next prev :=
  List.mem_append_right _ (List.mem_append_right _ (List.mem_map_of_mem hid))

/-- A step of the main thread that only moves it. -/
theorem move (h : Represents base s p rec) {main : Main} (hheld : main.held = p.main.held)
    (hremoved : main.removed = p.main.removed) :
    Represents base { s with main := main.pointers rec } { p with main } rec := by
  obtain ⟨next, prev, howns⟩ := h.owns
  refine ⟨h.accepted_eq, h.thread_eq, h.arg_eq, rfl, ⟨next, prev, ?_⟩, h.descriptors⟩
  simpa [liveBlocks, hheld, hremoved] using howns

theorem main_eq_poll_iff (h : Represents base s p rec) : s.main = .poll ↔ p.main = .poll := by
  rw [h.main_eq]
  cases p.main <;> simp [Main.pointers]

theorem cleanThreads_eq (h : Represents base s p rec) (wait : Bool) :
    s.cleanThreads wait =
      .ok { s with main := (Main.foreach wait p.list.head?).pointers rec } := by
  obtain ⟨next, prev, howns⟩ := h.owns
  rw [ServerProcess.cleanThreads, QueueList.listFirst_eq howns, firstOr_element]
  rfl

theorem noRequest (h : Represents base s p rec) (hmain : p.main = .poll) :
    ∃ t, s.step .noRequest = .ok (some t) ∧
      Represents base t { p with main := .foreach false p.list.head? } rec := by
  refine ⟨_, ?_, h.move (by rw [hmain]; rfl) (by rw [hmain]; rfl)⟩
  rw [ServerProcess.step, if_pos (h.main_eq_poll_iff.mpr hmain), h.cleanThreads_eq]
  rfl

theorem shouldClose (h : Represents base s p rec) (hmain : p.main = .poll) :
    ∃ t, s.step .shouldClose = .ok (some t) ∧
      Represents base t { p with main := .foreach true p.list.head? } rec := by
  refine ⟨_, ?_, h.move (by rw [hmain]; rfl) (by rw [hmain]; rfl)⟩
  rw [ServerProcess.step, if_pos (h.main_eq_poll_iff.mpr hmain), h.cleanThreads_eq]
  rfl

theorem accept (h : Represents base s p rec) (hp : p.Inv) (hmain : p.main = .poll)
    (garbage : ℕ → Word Scalar) :
    ∃ t rec', s.step (.accept garbage) = .ok (some t) ∧
      Represents base t
        { p with
          accepted := p.accepted + 1
          thread := Function.update p.thread p.accepted .running
          main := .created p.accepted } rec' := by
  obtain ⟨next, prev, howns⟩ := h.owns
  let rec' := Function.update rec p.accepted ⟨0, fresh s.mem, lowestFree s.fds⟩
  have h₀ := howns.alloc (fresh_notMem s.mem) ((List.range 3).map garbage)
  obtain ⟨mem₁, hfd, h₁⟩ := storeAt_of_owns [] h₀ (by decide : fdField < 3)
    (.value (.number (lowestFree s.fds)))
  obtain ⟨mem₂, hflag, h₂⟩ := storeAt_of_owns [] h₁ (by decide : isFinishedField < 3)
    (.value (.flag false))
  obtain ⟨mem₃, hthread, h₃⟩ := storeAt_of_owns [] h₂ (by decide : threadField < 3)
    (.value (.number p.accepted))
  have hlist : ∀ id ∈ p.list, id ≠ p.accepted := fun id hid ↦
    (hp.lt_of_mem_live (List.mem_append_right _ hid)).ne
  have hrec : ∀ id ∈ p.list, rec' id = rec id := fun id hid ↦
    Function.update_of_ne (hlist id hid) _ _
  refine ⟨⟨mem₃, insert (lowestFree s.fds) s.fds, p.accepted + 1,
    Function.update p.thread p.accepted .running,
    Function.update s.arg p.accepted (.pointer (fresh s.mem) 0),
    .created (.pointer (fresh s.mem) 0)⟩,
    rec', ?_, rfl, rfl, ?_, ?_, ⟨next, prev, ?_⟩,
    h.descriptors.accept (lowestFree_notMem s.fds) 0 _⟩
  · rw [ServerProcess.step, if_pos (h.main_eq_poll_iff.mpr hmain)]
    simp only [ServerProcess.accept, ServerProcess.malloc, alloc, Word.field_pointer, Nat.zero_add,
      hfd, hflag, h.accepted_eq, h.thread_eq, hthread, FallibleRun.ok_bind]
    rfl
  · intro id hid
    rcases Nat.lt_succ_iff_lt_or_eq.mp hid with hid | rfl
    · simp only [rec', Function.update_of_ne hid.ne]
      exact h.arg_eq id hid
    · simp [rec']
  · simp [Main.pointers, rec']
  · have hnew : tinfoBlock rec' (Function.update p.thread p.accepted .running) p.accepted =
        (fresh s.mem, [.value (.flag false), .value (.number (lowestFree s.fds)),
          .value (.number p.accepted)]) := by
      simp [tinfoBlock, rec', Thread.isFinished]
    have hold : p.list.map (tinfoBlock rec' (Function.update p.thread p.accepted .running)) =
        p.list.map (tinfoBlock rec p.thread) :=
      map_tinfoBlock_congr hrec fun id hid ↦ Function.update_of_ne (hlist id hid) _ _
    simp only [liveBlocks, hmain, Main.removed, Main.held, List.map_nil, List.nil_append,
      List.singleton_append, List.map_cons, hnew, hold, map_element_congr hrec] at h₃ ⊢
    exact h₃.perm List.perm_middle.symm

theorem insertHead (h : Represents base s p rec) (hp : p.Inv) {tinfo : ℕ}
    (hmain : p.main = .created tinfo) (garbage : ℕ → Word Scalar) :
    ∃ t rec', s.mainGoesOn garbage = .ok (some t) ∧
      Represents base t
        { p with list := tinfo :: p.list, main := .foreach false (some tinfo) } rec' := by
  obtain ⟨next, prev, howns⟩ := h.owns
  let rec' := Function.update rec tinfo ⟨fresh s.mem, (rec tinfo).tinfo, (rec tinfo).fd⟩
  have h₀ := howns.alloc (fresh_notMem s.mem) ((List.range 3).map garbage)
  obtain ⟨mem₁, htinfo, h₁⟩ := storeAt_of_owns [] h₀ (by decide : tinfoField < 3)
    (.pointer (rec tinfo).tinfo 0)
  simp only [liveBlocks, hmain, Main.removed, Main.held, List.map_nil, List.nil_append] at h₁
  obtain ⟨mem₂, hinsert, h₂⟩ := QueueList.listInsertHead_eq
    (fresh s.mem, .pointer (rec tinfo).tinfo 0) (h₁.perm List.perm_middle.symm)
  have hnot : tinfo ∉ p.list := by
    have hnodup := hp.nodup
    rw [hmain, List.append_assoc] at hnodup
    exact (List.nodup_cons.mp (List.nodup_append.mp hnodup).2.1).1
  have hrec : ∀ id ∈ p.list, rec' id = rec id := by
    intro id hid
    apply Function.update_of_ne
    rintro rfl
    exact hnot hid
  have htinfos : ∀ id, (rec' id).tinfo = (rec id).tinfo ∧ (rec' id).fd = (rec id).fd := by
    intro id
    by_cases hid : id = tinfo
    · rw [hid]
      simp [rec']
    · simp [rec', Function.update_of_ne hid]
  have hblocks : tinfoBlock rec' p.thread = tinfoBlock rec p.thread := by
    funext id
    rw [tinfoBlock, tinfoBlock, (htinfos id).1, (htinfos id).2]
  have hnode : element rec' tinfo = (fresh s.mem, .pointer (rec tinfo).tinfo 0) := by
    simp [element, rec']
  refine ⟨⟨mem₂, s.fds, s.accepted, s.thread, s.arg, .foreach false (.pointer (fresh s.mem) 0)⟩,
    rec', ?_, h.accepted_eq, h.thread_eq, ?_, ?_, ⟨next, prev, ?_⟩,
    h.descriptors.congr (fun _ _ ↦ Iff.rfl) fun id _ ↦ (htinfos id).2⟩
  · have hfirst := QueueList.listFirst_eq h₂
    rw [ServerProcess.mainGoesOn, h.main_eq, hmain]
    simp only [Main.pointers, ServerProcess.insertHead, ServerProcess.malloc, alloc,
      Word.field_pointer, Nat.zero_add, htinfo, hinsert, ServerProcess.cleanThreads, hfirst,
      FallibleRun.ok_bind]
    rfl
  · intro id hid
    rw [(htinfos id).1]
    exact h.arg_eq id hid
  · simp [Main.pointers, link, rec']
  · simpa [liveBlocks, Main.removed, Main.held, hnode, hblocks, map_element_congr hrec] using h₂

theorem visit (h : Represents base s p rec) (hp : p.Inv) {wait : Bool} {datap : ℕ}
    (hmain : p.main = .foreach wait (some datap)) (garbage : ℕ → Word Scalar) :
    ∃ t, s.mainGoesOn garbage = .ok (some t) ∧
      Represents base t
        { p with main := .body wait datap (Process.listNext p.list datap) } rec := by
  obtain ⟨next, prev, howns⟩ := h.owns
  obtain ⟨done, todo, hlist, hhead, -⟩ := hp.cursor_foreach hmain
  obtain ⟨rest, rfl⟩ : ∃ rest, todo = datap :: rest := by
    cases todo with
    | nil => cases hhead
    | cons d rest => exact ⟨rest, by cases hhead; rfl⟩
  have hnot : datap ∉ done := by
    apply Process.notMem_of_nodup_append
    rw [← hlist]
    exact hp.nodup_list
  have hnext : QueueList.listNext s.mem (.pointer (rec datap).node 0) =
      .ok (link rec (Process.listNext p.list datap)) := by
    rw [liveBlocks, hlist, List.map_append, List.map_cons] at howns
    rw [hlist, Process.listNext_append hnot, ← firstOr_element]
    exact QueueList.listNext_eq (element rec datap) howns
  refine ⟨_, ?_, h.move (by rw [hmain]; rfl) (by rw [hmain]; rfl)⟩
  rw [ServerProcess.mainGoesOn, h.main_eq, hmain]
  simp only [Main.pointers, link, Option.elim_some, hnext, FallibleRun.ok_bind]
  rfl

theorem loads_of_body (h : Represents base s p rec) (hp : p.Inv) {wait : Bool} {datap : ℕ}
    {tmp : Option ℕ} (hmain : p.main = .body wait datap tmp) :
    loadAt s.mem (.pointer (rec datap).node tinfoField) = .ok (.pointer (rec datap).tinfo 0) ∧
      loadAt s.mem (.pointer (rec datap).tinfo isFinishedField) =
        .ok (.value (.flag (p.thread datap).isFinished)) := by
  obtain ⟨next, prev, howns⟩ := h.owns
  obtain ⟨done, todo, hlist, -, -, -⟩ := hp.cursor_body hmain
  have hmem : datap ∈ p.main.held ++ p.list := by simp [hlist]
  refine ⟨?_, loadAt_of_mem howns (tinfo_mem hmem) rfl⟩
  rw [liveBlocks, hlist, List.map_append, List.map_cons] at howns
  exact QueueList.payload_eq (element rec datap) howns

theorem keep (h : Represents base s p rec) (hp : p.Inv) {datap : ℕ} {tmp : Option ℕ}
    (hmain : p.main = .body false datap tmp) (hrunning : (p.thread datap).isFinished = false)
    (garbage : ℕ → Word Scalar) :
    ∃ t, s.mainGoesOn garbage = .ok (some t) ∧
      Represents base t { p with main := .foreach false tmp } rec := by
  obtain ⟨htinfo, hflag⟩ := h.loads_of_body hp hmain
  refine ⟨_, ?_, h.move (by rw [hmain]; rfl) (by rw [hmain]; rfl)⟩
  rw [ServerProcess.mainGoesOn, h.main_eq, hmain]
  simp only [Main.pointers, ServerProcess.visit, Word.field_pointer, Nat.zero_add, htinfo, hflag,
    hrunning, isTrue, FallibleRun.ok_bind]
  rfl

theorem remove (h : Represents base s p rec) (hp : p.Inv) {wait : Bool} {datap : ℕ}
    {tmp : Option ℕ} (hmain : p.main = .body wait datap tmp)
    (hdone : (p.thread datap).isFinished = true ∨ wait = true) (garbage : ℕ → Word Scalar) :
    ∃ t, s.mainGoesOn garbage = .ok (some t) ∧
      Represents base t
        { p with list := p.list.erase datap, main := .joining wait datap tmp } rec := by
  obtain ⟨htinfo, hflag⟩ := h.loads_of_body hp hmain
  obtain ⟨next, prev, howns⟩ := h.owns
  obtain ⟨done, todo, hlist, herase, -, -⟩ := hp.cursor_body hmain
  rw [liveBlocks, hlist, List.map_append, List.map_cons] at howns
  obtain ⟨mem', next', prev', hremove, howns'⟩ :=
    QueueList.listRemove_eq (element rec datap) howns
  refine ⟨⟨mem', s.fds, s.accepted, s.thread, s.arg, (Main.joining wait datap tmp).pointers rec⟩,
    ?_, h.accepted_eq, h.thread_eq, h.arg_eq, rfl, ⟨next', prev', ?_⟩, h.descriptors⟩
  · rw [ServerProcess.mainGoesOn, h.main_eq, hmain]
    simp only [Main.pointers, ServerProcess.visit, Word.field_pointer, Nat.zero_add, htinfo, hflag,
      FallibleRun.ok_bind]
    have hcond : isTrue (.value (.flag (p.thread datap).isFinished)) ∨ wait = true := hdone
    have hnode : QueueList.listRemove s.mem (.pointer (rec datap).node 0) = .ok mem' := hremove
    rw [if_pos hcond, hnode]
    rfl
  · rw [liveBlocks, herase, List.map_append]
    refine howns'.perm (List.Perm.append_left _ ?_)
    simp only [hmain, Main.removed, Main.held, List.map_nil, List.nil_append, List.map_append,
      List.map_cons, List.singleton_append]
    exact (List.perm_middle.cons _)

theorem join (h : Represents base s p rec) {wait : Bool} {datap : ℕ} {tmp : Option ℕ}
    (hmain : p.main = .joining wait datap tmp) (garbage : ℕ → Word Scalar) :
    (p.thread datap ≠ .ended → s.mainGoesOn garbage = .ok none) ∧
      (p.thread datap = .ended → ∃ t, s.mainGoesOn garbage = .ok (some t) ∧
        Represents base t
          { p with joined := p.joined ++ [datap], main := .freeing wait datap tmp } rec) := by
  obtain ⟨next, prev, howns⟩ := h.owns
  have hthread : loadAt s.mem (.pointer (rec datap).tinfo threadField) =
      .ok (.value (.number datap)) :=
    loadAt_of_mem howns (tinfo_mem (by rw [hmain]; exact List.mem_cons_self)) rfl
  have hgo : s.mainGoesOn garbage = if p.thread datap = .ended then
      .ok (some { s with main := (Main.freeing wait datap tmp).pointers rec }) else .ok none := by
    rw [ServerProcess.mainGoesOn, h.main_eq, hmain]
    simp only [Main.pointers, Word.field_pointer, Nat.zero_add, hthread, FallibleRun.ok_bind,
      h.thread_eq]
    rfl
  refine ⟨fun hne ↦ by rw [hgo, if_neg hne], ?_⟩
  intro hended
  refine ⟨{ s with main := (Main.freeing wait datap tmp).pointers rec },
    by rw [hgo, if_pos hended], h.accepted_eq, h.thread_eq, h.arg_eq, rfl, ⟨next, prev, ?_⟩,
    h.descriptors⟩
  simpa [liveBlocks, hmain, Main.removed, Main.held] using howns

theorem free (h : Represents base s p rec) {wait : Bool} {datap : ℕ} {tmp : Option ℕ}
    (hmain : p.main = .freeing wait datap tmp) (garbage : ℕ → Word Scalar) :
    ∃ t, s.mainGoesOn garbage = .ok (some t) ∧
      Represents base t
        { p with freed := p.freed ++ [datap], main := .foreach wait tmp } rec := by
  obtain ⟨next, prev, howns⟩ := h.owns
  simp only [liveBlocks, hmain, Main.removed, Main.held, List.map_cons, List.map_nil,
    List.singleton_append] at howns
  have hsplit : ∀ (before after : List (ℕ × List (Word Scalar))) (b c : ℕ × List (Word Scalar)),
      before ++ b :: c :: after = (before ++ [b]) ++ c :: after := by simp
  rw [hsplit] at howns
  obtain ⟨mem₁, hfree₁, h₁⟩ := freeAt_of_owns howns
  rw [List.append_assoc] at h₁
  obtain ⟨mem₂, hfree₂, h₂⟩ := freeAt_of_owns h₁
  refine ⟨⟨mem₂, s.fds, s.accepted, s.thread, s.arg, (Main.foreach wait tmp).pointers rec⟩,
    ?_, h.accepted_eq, h.thread_eq, h.arg_eq, rfl, ⟨next, prev, h₂⟩, h.descriptors⟩
  rw [ServerProcess.mainGoesOn, h.main_eq, hmain]
  simp only [Main.pointers, hfree₁, hfree₂, FallibleRun.ok_bind]
  rfl

/-- The `thread_info_t` of a connection, singled out. -/
theorem owns_split {next prev : Word Scalar} (howns : Owns s.mem (liveBlocks rec p next prev))
    (hp : p.Inv) {id : ℕ} (hid : id ∈ p.main.held ++ p.list) :
    ∃ before after : List ℕ, p.main.held ++ p.list = before ++ id :: after ∧
      id ∉ before ∧ id ∉ after ∧
      Owns s.mem (QueueList.blocks listHead (p.list.map (element rec)) .null ++
        p.main.removed.map (looseBlock rec next prev) ++
          before.map (tinfoBlock rec p.thread) ++
            tinfoBlock rec p.thread id :: after.map (tinfoBlock rec p.thread)) := by
  obtain ⟨before, after, hsplit⟩ := List.append_of_mem hid
  have hnodup : (before ++ id :: after).Nodup := by
    have hall := hp.nodup
    rw [List.append_assoc] at hall
    rw [← hsplit]
    exact (List.nodup_append.mp hall).2.1
  refine ⟨before, after, hsplit, Process.notMem_of_nodup_append hnodup,
    (List.nodup_cons.mp (List.nodup_append.mp hnodup).2.1).1, ?_⟩
  rw [liveBlocks, hsplit, List.map_append, List.map_cons] at howns
  simpa using howns

theorem finish (h : Represents base s p rec) (hp : p.Inv) {id : ℕ} (hlt : id < p.accepted)
    (hrunning : p.thread id = .running) :
    ∃ t, s.step (.finish id) = .ok (some t) ∧
      Represents base t { p with thread := Function.update p.thread id .finished } rec := by
  obtain ⟨next, prev, howns⟩ := h.owns
  have hlive := hp.mem_live hlt (by rw [hrunning]; decide)
  obtain ⟨before, after, hsplit, hbefore, hafter, hparts⟩ := owns_split howns hp hlive
  obtain ⟨mem', hstore, h'⟩ := storeAt_of_owns _ hparts (by simp : isFinishedField < _)
    (.value (.flag true))
  have harg : s.arg id = .pointer (rec id).tinfo 0 := h.arg_eq id hlt
  have hset : tinfoBlock rec (Function.update p.thread id .finished) id =
      ((rec id).tinfo, [.value (.flag true), .value (.number (rec id).fd),
        .value (.number id)]) := by
    simp [tinfoBlock, Thread.isFinished]
  have hsame : ∀ {ids : List ℕ}, id ∉ ids →
      ids.map (tinfoBlock rec (Function.update p.thread id .finished)) =
        ids.map (tinfoBlock rec p.thread) := by
    intro ids hnot
    refine map_tinfoBlock_congr (fun _ _ ↦ rfl) fun id' hid' ↦ Function.update_of_ne ?_ _ _
    rintro rfl
    exact hnot hid'
  refine ⟨⟨mem', s.fds, s.accepted, Function.update p.thread id .finished, s.arg, s.main⟩,
    ?_, h.accepted_eq, rfl, h.arg_eq, h.main_eq, ⟨next, prev, ?_⟩, h.descriptors.congr ?_
    fun _ _ ↦ rfl⟩
  · have hstore' : storeAt s.mem (.value (.flag true)) (.pointer (rec id).tinfo isFinishedField) =
        .ok mem' := hstore
    simp only [ServerProcess.step, h.accepted_eq, h.thread_eq, hlt, hrunning, and_self, if_true,
      harg, Word.field_pointer, Nat.zero_add, hstore', FallibleRun.ok_bind]
    rfl
  · simp only [liveBlocks, hsplit, List.map_append, List.map_cons, hsame hbefore, hsame hafter,
      hset]
    simpa using h'
  · intro id' _
    by_cases hid' : id' = id
    · simp [hid', hrunning]
    · simp [Function.update_of_ne hid']

theorem exit (h : Represents base s p rec) (hp : p.Inv) {id : ℕ} (hlt : id < p.accepted)
    (hfinished : p.thread id = .finished) :
    ∃ t, s.step (.exit id) = .ok (some t) ∧
      Represents base t { p with thread := Function.update p.thread id .ended } rec := by
  obtain ⟨next, prev, howns⟩ := h.owns
  have hne : p.thread id ≠ .ended := by
    rw [hfinished]
    decide
  have hlive := hp.mem_live hlt hne
  have hfd : loadAt s.mem (.pointer (rec id).tinfo fdField) = .ok (.value (.number (rec id).fd)) :=
    loadAt_of_mem howns (tinfo_mem hlive) rfl
  refine ⟨⟨s.mem, s.fds.erase (rec id).fd, s.accepted, Function.update p.thread id .ended, s.arg,
    s.main⟩, ?_, h.accepted_eq, rfl, h.arg_eq, h.main_eq, ⟨next, prev, ?_⟩,
    h.descriptors.exit hlt hne⟩
  · simp only [ServerProcess.step, h.accepted_eq, h.thread_eq, hlt, hfinished, and_self, if_true,
      h.arg_eq id hlt, Word.field_pointer, Nat.zero_add, hfd, FallibleRun.ok_bind]
    rfl
  · have hsame : tinfoBlock rec (Function.update p.thread id .ended) = tinfoBlock rec p.thread := by
      funext id'
      by_cases hid' : id' = id
      · simp [tinfoBlock, hid', hfinished, Thread.isFinished]
      · simp [tinfoBlock, Function.update_of_ne hid']
    rw [liveBlocks, hsame]
    exact howns

theorem passed (h : Represents base s p rec) {wait : Bool} (hmain : p.main = .foreach wait none)
    (garbage : ℕ → Word Scalar) :
    ∃ t, s.mainGoesOn garbage = .ok (some t) ∧
      Represents base t { p with main := if wait then .exited else .poll } rec := by
  refine ⟨_, ?_, h.move (by rw [hmain]; cases wait <;> rfl) (by rw [hmain]; cases wait <;> rfl)⟩
  rw [ServerProcess.mainGoesOn, h.main_eq, hmain]
  cases wait <;> rfl

/-! ## Every step -/

/-- The main thread outside `poll` waits or does what the process of numbers does. -/
theorem mainGoesOn_cases (h : Represents base s p rec) (hp : p.Inv) (garbage : ℕ → Word Scalar) :
    s.mainGoesOn garbage = .ok none ∨
      ∃ t p' rec', s.mainGoesOn garbage = .ok (some t) ∧ Process.Step p p' ∧
        p'.thread = p.thread ∧ Represents base t p' rec' := by
  cases hmain : p.main with
  | poll => exact Or.inl (by rw [ServerProcess.mainGoesOn, h.main_eq, hmain]; rfl)
  | exited => exact Or.inl (by rw [ServerProcess.mainGoesOn, h.main_eq, hmain]; rfl)
  | created tinfo =>
      obtain ⟨t, rec', hgo, ht⟩ := h.insertHead hp hmain garbage
      exact Or.inr ⟨t, _, rec', hgo, .insertHead hmain, rfl, ht⟩
  | foreach wait datap =>
      cases datap with
      | some datap =>
          obtain ⟨t, hgo, ht⟩ := h.visit hp hmain garbage
          exact Or.inr ⟨t, _, rec, hgo, .visit hmain, rfl, ht⟩
      | none =>
          obtain ⟨t, hgo, ht⟩ := h.passed hmain garbage
          cases wait with
          | false => exact Or.inr ⟨t, _, rec, hgo, .passed hmain, rfl, ht⟩
          | true => exact Or.inr ⟨t, _, rec, hgo, .closed hmain, rfl, ht⟩
  | body wait datap tmp =>
      by_cases hdone : (p.thread datap).isFinished = true ∨ wait = true
      · obtain ⟨t, hgo, ht⟩ := h.remove hp hmain hdone garbage
        exact Or.inr ⟨t, _, rec, hgo, .remove hmain hdone, rfl, ht⟩
      · obtain ⟨hrunning, hwait⟩ := not_or.mp hdone
        rw [Bool.not_eq_true] at hrunning hwait
        rw [hwait] at hmain
        obtain ⟨t, hgo, ht⟩ := h.keep hp hmain hrunning garbage
        exact Or.inr ⟨t, _, rec, hgo, .keep hmain hrunning, rfl, ht⟩
  | joining wait datap tmp =>
      obtain ⟨hwaits, hjoins⟩ := h.join hmain garbage
      by_cases hended : p.thread datap = .ended
      · obtain ⟨t, hgo, ht⟩ := hjoins hended
        exact Or.inr ⟨t, _, rec, hgo, .join hmain hended, rfl, ht⟩
      · exact Or.inl (hwaits hended)
  | freeing wait datap tmp =>
      obtain ⟨t, hgo, ht⟩ := h.free hmain garbage
      exact Or.inr ⟨t, _, rec, hgo, .free hmain, rfl, ht⟩

/-- In memory nothing but a step of the process of numbers happens, and only `finish` sets the
flag of a thread. -/
theorem step_cases (h : Represents base s p rec) (hp : p.Inv) (e : Event) :
    s.step e = .ok none ∨
      ∃ t p' rec', s.step e = .ok (some t) ∧ Process.Step p p' ∧
        (∀ id, p.thread id = .running → p'.thread id = .finished → e = .finish id) ∧
        Represents base t p' rec' := by
  have hsame : ∀ {thread : ℕ → Thread}, thread = p.thread →
      ∀ id, p.thread id = .running → thread id = .finished → e = .finish id := by
    rintro _ rfl id hrunning hfinished
    cases hrunning.symm.trans hfinished
  have hset : ∀ {one : ℕ} {next : Thread}, (next = .finished → e = .finish one) →
      ∀ id, p.thread id = .running → Function.update p.thread one next id = .finished →
        e = .finish id := by
    intro one next hnext id hrunning hfinished
    by_cases hone : id = one
    · rw [hone, Function.update_self] at hfinished
      rw [hone]
      exact hnext hfinished
    · rw [Function.update_of_ne hone] at hfinished
      exact hsame rfl id hrunning hfinished
  cases e with
  | accept garbage =>
      by_cases hmain : p.main = .poll
      · obtain ⟨t, rec', hstep, ht⟩ := h.accept hp hmain garbage
        exact Or.inr ⟨t, _, rec', hstep, .accept hmain, hset (by simp), ht⟩
      · exact Or.inl (if_neg (mt h.main_eq_poll_iff.mp hmain))
  | acceptFails =>
      by_cases hmain : p.main = .poll
      · refine Or.inr ⟨s, p, rec, ?_, .acceptFails hmain, hsame rfl, h⟩
        rw [ServerProcess.step, if_pos (h.main_eq_poll_iff.mpr hmain)]
      · left
        rw [ServerProcess.step, if_neg (mt h.main_eq_poll_iff.mp hmain)]
  | noRequest =>
      by_cases hmain : p.main = .poll
      · obtain ⟨t, hstep, ht⟩ := h.noRequest hmain
        exact Or.inr ⟨t, _, rec, hstep, .noRequest hmain, hsame rfl, ht⟩
      · exact Or.inl (if_neg (mt h.main_eq_poll_iff.mp hmain))
  | shouldClose =>
      by_cases hmain : p.main = .poll
      · obtain ⟨t, hstep, ht⟩ := h.shouldClose hmain
        exact Or.inr ⟨t, _, rec, hstep, .shouldClose hmain, hsame rfl, ht⟩
      · exact Or.inl (if_neg (mt h.main_eq_poll_iff.mp hmain))
  | mainGoesOn garbage =>
      rcases h.mainGoesOn_cases hp garbage with hnone | ⟨t, p', rec', hgo, hstep, hthread, ht⟩
      · exact Or.inl hnone
      · exact Or.inr ⟨t, p', rec', hgo, hstep, hsame hthread, ht⟩
  | finish id =>
      by_cases hcan : id < p.accepted ∧ p.thread id = .running
      · obtain ⟨t, hstep, ht⟩ := h.finish hp hcan.1 hcan.2
        exact Or.inr ⟨t, _, rec, hstep, .finish hcan.1 hcan.2, hset fun _ ↦ rfl, ht⟩
      · left
        rw [ServerProcess.step, h.accepted_eq, h.thread_eq, if_neg hcan]
  | exit id =>
      by_cases hcan : id < p.accepted ∧ p.thread id = .finished
      · obtain ⟨t, hstep, ht⟩ := h.exit hp hcan.1 hcan.2
        exact Or.inr ⟨t, _, rec, hstep, .exit hcan.1 hcan.2, hset (by simp), ht⟩
      · left
        rw [ServerProcess.step, h.accepted_eq, h.thread_eq, if_neg hcan]

/-- Whatever the process of numbers does next can happen in memory. -/
theorem exists_step (h : Represents base s p rec) (hp : p.Inv) {p' : Process}
    (hstep : Process.Step p p') :
    ∃ t rec', ServerProcess.Step s t ∧ Represents base t p' rec' := by
  let garbage : ℕ → Word Scalar := fun _ ↦ .null
  cases hstep with
  | accept hmain =>
      obtain ⟨t, rec', hs, ht⟩ := h.accept hp hmain garbage
      exact ⟨t, rec', ⟨_, hs⟩, ht⟩
  | acceptFails hmain =>
      refine ⟨s, rec, ⟨.acceptFails, ?_⟩, h⟩
      rw [ServerProcess.step, if_pos (h.main_eq_poll_iff.mpr hmain)]
  | noRequest hmain =>
      obtain ⟨t, hs, ht⟩ := h.noRequest hmain
      exact ⟨t, rec, ⟨_, hs⟩, ht⟩
  | shouldClose hmain =>
      obtain ⟨t, hs, ht⟩ := h.shouldClose hmain
      exact ⟨t, rec, ⟨_, hs⟩, ht⟩
  | insertHead hmain =>
      obtain ⟨t, rec', hs, ht⟩ := h.insertHead hp hmain garbage
      exact ⟨t, rec', ⟨.mainGoesOn garbage, hs⟩, ht⟩
  | visit hmain =>
      obtain ⟨t, hs, ht⟩ := h.visit hp hmain garbage
      exact ⟨t, rec, ⟨.mainGoesOn garbage, hs⟩, ht⟩
  | passed hmain =>
      obtain ⟨t, hs, ht⟩ := h.passed hmain garbage
      exact ⟨t, rec, ⟨.mainGoesOn garbage, hs⟩, ht⟩
  | closed hmain =>
      obtain ⟨t, hs, ht⟩ := h.passed hmain garbage
      exact ⟨t, rec, ⟨.mainGoesOn garbage, hs⟩, ht⟩
  | keep hmain hrunning =>
      obtain ⟨t, hs, ht⟩ := h.keep hp hmain hrunning garbage
      exact ⟨t, rec, ⟨.mainGoesOn garbage, hs⟩, ht⟩
  | remove hmain hdone =>
      obtain ⟨t, hs, ht⟩ := h.remove hp hmain hdone garbage
      exact ⟨t, rec, ⟨.mainGoesOn garbage, hs⟩, ht⟩
  | join hmain hended =>
      obtain ⟨t, hs, ht⟩ := (h.join hmain garbage).2 hended
      exact ⟨t, rec, ⟨.mainGoesOn garbage, hs⟩, ht⟩
  | free hmain =>
      obtain ⟨t, hs, ht⟩ := h.free hmain garbage
      exact ⟨t, rec, ⟨.mainGoesOn garbage, hs⟩, ht⟩
  | finish hlt hrunning =>
      obtain ⟨t, hs, ht⟩ := h.finish hp hlt hrunning
      exact ⟨t, rec, ⟨_, hs⟩, ht⟩
  | exit hlt hfinished =>
      obtain ⟨t, hs, ht⟩ := h.exit hp hlt hfinished
      exact ⟨t, rec, ⟨_, hs⟩, ht⟩

end Represents

/-! ## Whole runs -/

namespace ServerProcess

variable {fds : Finset ℕ} {s : ServerProcess}

theorem Reachable.represents (hs : s.Reachable fds) :
    ∃ p rec, p.Reachable ∧ Represents fds s p rec := by
  induction hs with
  | refl => exact ⟨_, _, .refl, represents_start fds fun _ ↦ ⟨0, 0, 0⟩⟩
  | @tail s t _ hstep ih =>
      obtain ⟨p, rec, hp, h⟩ := ih
      obtain ⟨e, hstep⟩ := hstep
      rcases h.step_cases hp.inv e with hnone | ⟨t', p', rec', hsome, hstep', -, h'⟩
      · cases hstep.symm.trans hnone
      · cases hstep.symm.trans hsome
        exact ⟨p', rec', hp.tail hstep', h'⟩

theorem exists_reachable {p : Process} (hp : p.Reachable) (fds : Finset ℕ) :
    ∃ s rec, ServerProcess.Reachable fds s ∧ Represents fds s p rec := by
  induction hp with
  | refl => exact ⟨_, _, .refl, represents_start fds fun _ ↦ ⟨0, 0, 0⟩⟩
  | @tail p p' hp hstep ih =>
      obtain ⟨s, rec, hs, h⟩ := ih
      obtain ⟨t, rec', hstep', h'⟩ := h.exists_step (Process.Reachable.inv hp) hstep
      exact ⟨t, rec', hs.tail hstep', h'⟩

/-- No access to the list or to a record goes wrong in any state the server can reach, its memory
holds the list that the process of numbers has, and the two go on in step. -/
theorem reachable_refines (fds : Finset ℕ) (s : ServerProcess) (hs : s.Reachable fds) :
    (∀ e, ∃ r, s.step e = .ok r) ∧
      ∃ p rec, p.Reachable ∧ Represents fds s p rec ∧
        (∀ t, Step s t → ∃ p' rec', Process.Step p p' ∧ Represents fds t p' rec') ∧
        ∀ p', Process.Step p p' → ∃ t rec', Step s t ∧ Represents fds t p' rec' := by
  obtain ⟨p, rec, hp, h⟩ := hs.represents
  refine ⟨?_, p, rec, hp, h, ?_, fun p' hstep ↦ h.exists_step hp.inv hstep⟩
  · intro e
    rcases h.step_cases hp.inv e with hnone | ⟨t, _, _, hsome, -⟩
    · exact ⟨none, hnone⟩
    · exact ⟨some t, hsome⟩
  · rintro t ⟨e, hstep⟩
    rcases h.step_cases hp.inv e with hnone | ⟨t', p', rec', hsome, hstep', -, h'⟩
    · cases hstep.symm.trans hnone
    · cases hstep.symm.trans hsome
      exact ⟨p', rec', hstep', h'⟩

/-- A connection that is accepted, finishes while the first pass visits it, and is reaped. -/
theorem exists_reaped :
    ∃ p : Process, p.Reachable ∧ p.main = .foreach false none ∧ p.list = [] ∧ p.accepted = 1 := by
  have hbody : Process.Reachable _ := ((Relation.ReflTransGen.refl.tail (.accept rfl)).tail
    (.insertHead rfl)).tail (.visit rfl)
  have hjoining : Process.Reachable _ := (hbody.tail (.finish Nat.zero_lt_one rfl)).tail
    (.remove rfl (Or.inl rfl))
  have hfreed : Process.Reachable _ := ((hjoining.tail (.exit Nat.zero_lt_one rfl)).tail
    (.join rfl rfl)).tail (.free rfl)
  exact ⟨_, hfreed, rfl, rfl, rfl⟩

theorem reachable_refines_oneConnection :
    ∃ s, ServerProcess.Reachable {0, 1, 2, 3} s ∧ s.accepted = 1 ∧ ∀ e, ∃ r, s.step e = .ok r := by
  obtain ⟨p, hp, -, -, hone⟩ := exists_reaped
  obtain ⟨s, rec, hs, h⟩ := exists_reachable hp {0, 1, 2, 3}
  exact ⟨s, hs, h.accepted_eq.trans hone, (reachable_refines _ s hs).1⟩

/-- When `main` returns, every `thread_info_t` and every `struct list_threads` is freed, every
connection's descriptor is closed and every thread has ended. -/
theorem exited_releases (fds : Finset ℕ) (s : ServerProcess) (hs : s.Reachable fds)
    (hmain : s.main = .exited) :
    s.mem.entries = [⟨listHead, [.null]⟩] ∧ s.fds = fds ∧
      ∀ id < s.accepted, s.thread id = .ended := by
  obtain ⟨p, rec, hp, h⟩ := hs.represents
  have hexited : p.main = .exited := by
    have hpointers := h.main_eq
    rw [hmain] at hpointers
    cases hm : p.main <;> rw [hm] at hpointers <;> simp_all [Main.pointers]
  have hended : ∀ id < p.accepted, p.thread id = .ended := fun id hid ↦
    (hp.inv.ended_of_exited hexited hid).2.2
  have hlist : p.list = [] := by
    have hcursor := hp.inv.cursor
    rwa [Process.Cursor, hexited] at hcursor
  obtain ⟨next, prev, howns⟩ := h.owns
  refine ⟨?_, ?_, ?_⟩
  · have hlive : liveBlocks rec p next prev = [(listHead, [.null])] := by
      simp [liveBlocks, hexited, hlist, Main.removed, Main.held, QueueList.blocks,
        QueueList.firstOr, QueueList.cells]
    rw [hlive] at howns
    exact List.perm_singleton.mp howns
  · ext fd
    rw [h.descriptors.mem_iff]
    constructor
    · rintro (hbase | ⟨id, hid, hlive, -⟩)
      · exact hbase
      · exact absurd (hended id hid) hlive
    · exact Or.inl
  · rw [h.accepted_eq, h.thread_eq]
    exact hended

theorem exited_releases_oneConnection :
    ∃ s, ServerProcess.Reachable {0, 1, 2, 3} s ∧ s.accepted = 1 ∧ s.main = .exited ∧
      s.fds = {0, 1, 2, 3} := by
  obtain ⟨p, hp, hmain, hlist, hone⟩ := exists_reaped
  have hclosed : Process.Reachable _ := ((hp.tail (.passed hmain)).tail (.shouldClose rfl)).tail
    (.closed (by simp [hlist]))
  obtain ⟨s, rec, hs, h⟩ := exists_reachable hclosed {0, 1, 2, 3}
  exact ⟨s, hs, h.accepted_eq.trans hone, h.main_eq, (exited_releases _ s hs h.main_eq).2.1⟩

end ServerProcess

end ThreadReaping
end Aesd
