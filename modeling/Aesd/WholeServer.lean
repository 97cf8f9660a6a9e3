import Aesd.ConnectionThreads
import Aesd.ThreadRecords

/-!
# The whole server

The main thread with its list of records in memory, and the connection threads with their
sections under the mutex, taken together.  A thread begins when its connection is accepted,
and sets `is_finished` when it is out of its section.  Once `should_close` was seen, the
server comes to its end whatever the order of the steps, and by then every connection that was
accepted has been served.
-/

namespace Aesd

open ThreadReaping
open ConnectionThreads

structure WholeServer where
  process : ServerProcess
  threads : LockedSections.State ℕ Place Shared

namespace ThreadReaping

/-! ## What the main thread can do -/

/-- The main thread can go on unless it has returned or waits for a thread. -/
theorem Process.exists_main_step {p : Process} (hmain : p.main ≠ .exited)
    (hjoin : ∀ wait datap tmp, p.main = .joining wait datap tmp → p.thread datap = .ended) :
    ∃ p', Process.Step p p' ∧ p'.thread = p.thread := by
  cases hm : p.main with
  | poll => exact ⟨_, .noRequest hm, rfl⟩
  | created tinfo => exact ⟨_, .insertHead hm, rfl⟩
  | foreach wait datap =>
      cases datap with
      | some datap => exact ⟨_, .visit hm, rfl⟩
      | none =>
          cases wait with
          | false => exact ⟨_, .passed hm, rfl⟩
          | true => exact ⟨_, .closed hm, rfl⟩
  | body wait datap tmp =>
      by_cases hdone : (p.thread datap).isFinished = true ∨ wait = true
      · exact ⟨_, .remove hm hdone, rfl⟩
      · obtain ⟨hrunning, hwait⟩ := not_or.mp hdone
        rw [Bool.not_eq_true] at hrunning hwait
        rw [hwait] at hm
        exact ⟨_, .keep hm hrunning, rfl⟩
  | joining wait datap tmp => exact ⟨_, .join hm (hjoin wait datap tmp hm), rfl⟩
  | freeing wait datap tmp => exact ⟨_, .free hm, rfl⟩
  | exited => exact absurd hm hmain

def MainThread.closing : MainThread → Bool
  | .foreach wait _ | .body wait _ _ | .joining wait _ _ _ | .freeing wait _ _ _ => wait
  | _ => false

theorem Main.closing_pointers (rec : ℕ → Record) (main : Main) :
    (main.pointers rec).closing = main.inPass true := by
  cases main <;> simp [Main.pointers, MainThread.closing, Main.inPass]

theorem Main.pointers_eq_exited_iff (rec : ℕ → Record) (main : Main) :
    main.pointers rec = .exited ↔ main = .exited := by
  cases main <;> simp [Main.pointers]

end ThreadReaping

namespace WholeServer

def start (fds : Finset ℕ) : WholeServer :=
  ⟨ServerProcess.start fds, LockedSections.State.initial (Shared.ofServer Server.started)⟩

/-- A step of the process, where only a thread that is out of its section sets its flag, or a step
of a thread that was created in its section. -/
inductive Step (conns : ℕ → Connection) : WholeServer → WholeServer → Prop
  | process {s : WholeServer} {e : Event} {process : ServerProcess}
      (hfinish : ∀ id, e = .finish id → ∃ l, s.threads.phase id = .left l)
      (hstep : s.process.step e = .ok (some process)) : Step conns s { s with process }
  | work {s : WholeServer} {threads : LockedSections.State ℕ Place Shared}
      (hstep : LockedSections.Among (program conns) (Finset.range s.process.accepted) s.threads
        threads) : Step conns s { s with threads }

def Reachable (conns : ℕ → Connection) (fds : Finset ℕ) (s : WholeServer) : Prop :=
  Relation.ReflTransGen (Step conns) (start fds) s

/-! ## The two halves go together -/

structure Inv (conns : ℕ → Connection) (fds : Finset ℕ) (s : WholeServer) (p : Process) :
    Prop where
  reachable : p.Reachable
  represents : ∃ rec, Represents fds s.process p rec
  sections : LockedSections.Reachable (program conns) (Shared.ofServer Server.started) s.threads
  started : ∀ id, s.threads.phase id ≠ .waiting → id < p.accepted
  through : ∀ id < p.accepted, p.thread id ≠ .running → ∃ l, s.threads.phase id = .left l

variable {conns : ℕ → Connection} {fds : Finset ℕ} {s t : WholeServer} {p p' : Process}

theorem inv_start (conns : ℕ → Connection) (fds : Finset ℕ) :
    Inv conns fds (start fds) Process.start where
  reachable := .refl
  represents := ⟨_, represents_start fds fun _ ↦ ⟨0, 0, 0⟩⟩
  sections := .refl
  started _ h := absurd rfl h
  through id h := absurd h (Nat.not_lt_zero id)

namespace Inv

theorem accepted_eq (h : Inv conns fds s p) : s.process.accepted = p.accepted := by
  obtain ⟨rec, hrep⟩ := h.represents
  exact hrep.accepted_eq

theorem represented (h : Inv conns fds s p) (hp' : Process.Step p p')
    (hset : ∀ id, p.thread id = .running → p'.thread id = .finished →
      ∃ l, s.threads.phase id = .left l)
    {process : ServerProcess} {rec : ℕ → Record} (hrep' : Represents fds process p' rec) :
    Inv conns fds { s with process } p' := by
  obtain ⟨hle, hthread⟩ := hp'.out_cases
  refine ⟨h.reachable.tail hp', ⟨rec, hrep'⟩, h.sections, ?_, ?_⟩
  · intro id hid
    exact (h.started id hid).trans_le hle
  · intro id hid hout
    rcases hthread id hid hout with ⟨hrunning, hfinished⟩ | ⟨hlt, hbefore⟩
    · exact hset id hrunning hfinished
    · exact h.through id hlt hbefore

theorem process (h : Inv conns fds s p) {e : Event} {process : ServerProcess}
    (hfinish : ∀ id, e = .finish id → ∃ l, s.threads.phase id = .left l)
    (hstep : s.process.step e = .ok (some process)) :
    ∃ p', Process.Step p p' ∧ Inv conns fds { s with process } p' := by
  obtain ⟨rec, hrep⟩ := h.represents
  rcases hrep.step_cases h.reachable.inv e with
    hnone | ⟨process', p', rec', hsome, hp', hset, hrep'⟩
  · cases hstep.symm.trans hnone
  · cases hstep.symm.trans hsome
    refine ⟨p', hp', h.represented hp' ?_ hrep'⟩
    intro id hrunning hfinished
    exact hfinish id (hset id hrunning hfinished)

theorem work (h : Inv conns fds s p) {threads : LockedSections.State ℕ Place Shared}
    (hstep : LockedSections.Among (program conns) (Finset.range s.process.accepted) s.threads
      threads) : Inv conns fds { s with threads } p := by
  refine ⟨h.reachable, h.represents, h.sections.tail hstep.1, ?_, ?_⟩
  · intro id hid
    rw [← h.accepted_eq]
    exact Finset.mem_range.mp (hstep.2 id hid)
  · intro id hid hout
    obtain ⟨l, hl⟩ := h.through id hid hout
    exact ⟨l, hstep.1.left hl⟩

theorem step (h : Inv conns fds s p) (hstep : Step conns s t) : ∃ p', Inv conns fds t p' := by
  cases hstep with
  | process hfinish hstep =>
      obtain ⟨p', -, h'⟩ := h.process hfinish hstep
      exact ⟨p', h'⟩
  | work hstep => exact ⟨p, h.work hstep⟩

end Inv

theorem Reachable.inv (h : Reachable conns fds s) : ∃ p, Inv conns fds s p := by
  induction h with
  | refl => exact ⟨_, inv_start conns fds⟩
  | tail _ hstep ih =>
      obtain ⟨p, hp⟩ := ih
      exact hp.step hstep

/-! ## Coming to the end -/

namespace Inv

/-- What the process of numbers does without setting a flag is a step of the server. -/
theorem exists_process (h : Inv conns fds s p) (hstep : Process.Step p p')
    (hout : ∀ id, p'.thread id ≠ .running → p.thread id ≠ .running) :
    ∃ process, Step conns s { s with process } ∧ Inv conns fds { s with process } p' := by
  obtain ⟨rec, hrep⟩ := h.represents
  obtain ⟨process, rec', ⟨e, he⟩, hrep'⟩ := hrep.exists_step h.reachable.inv hstep
  have hfinish : ∀ id, e = .finish id → ∃ l, s.threads.phase id = .left l := by
    rintro id rfl
    obtain ⟨hrunning, hfinished⟩ := ServerProcess.thread_of_finish he
    rw [hrep.thread_eq] at hrunning
    rw [hrep'.thread_eq] at hfinished
    exact absurd hrunning (hout id (by rw [hfinished]; decide))
  refine ⟨process, .process hfinish he, h.represented hstep ?_ hrep'⟩
  intro id hrunning hfinished
  exact absurd hrunning (hout id (by rw [hfinished]; decide))

/-- The server gets stuck nowhere: a thread that `pthread_join` waits for can go on, or the one
that holds the mutex can. -/
theorem exists_step (hconns : ∀ id, (conns id).Regular) (h : Inv conns fds s p)
    (hmain : p.main ≠ .exited) : ∃ t, Step conns s t := by
  have hmove : (∀ wait datap tmp, p.main = .joining wait datap tmp → p.thread datap = .ended) →
      ∃ t, Step conns s t := by
    intro hjoin
    obtain ⟨p', hstep, hthread⟩ := Process.exists_main_step hmain hjoin
    obtain ⟨process, hstep', -⟩ := h.exists_process hstep fun id hid ↦ by rwa [hthread] at hid
    exact ⟨_, hstep'⟩
  cases hm : p.main with
  | joining wait datap tmp =>
      obtain ⟨rec, hrep⟩ := h.represents
      have hlt : datap < p.accepted := by
        apply h.reachable.inv.lt_of_mem_held
        simp [hm, Main.held]
      cases hthread : p.thread datap with
      | ended =>
          apply hmove
          intro wait' datap' tmp' hm'
          cases hm.symm.trans hm'
          exact hthread
      | finished =>
          obtain ⟨process, hexit, -⟩ := hrep.exit h.reachable.inv hlt hthread
          exact ⟨_, .process (by simp) hexit⟩
      | running =>
          by_cases hleft : ∃ l, s.threads.phase datap = .left l
          · obtain ⟨process, hfinish, -⟩ := hrep.finish h.reachable.inv hlt hthread
            refine ⟨_, .process ?_ hfinish⟩
            rintro id hid
            cases hid
            exact hleft
          · have hstarted : ∀ id, s.threads.phase id ≠ .waiting →
                id ∈ Finset.range s.process.accepted := by
              intro id hid
              rw [Finset.mem_range, h.accepted_eq]
              exact h.started id hid
            have hdatap : datap ∈ Finset.range s.process.accepted := by
              rwa [Finset.mem_range, h.accepted_eq]
            obtain ⟨threads, hstep⟩ := h.sections.exists_among (final_stops conns)
              (completes hconns) hstarted hdatap fun l hl ↦ hleft ⟨l, hl⟩
            exact ⟨_, .work hstep⟩
  | _ => exact hmove (by simp [hm])

/-- A pass that waits takes a bounded number of steps of the process, and between two of them the
sections come to their ends. -/
theorem acc (hconns : ∀ id, (conns id).Regular) (h : Inv conns fds s p)
    (hclosing : p.main.inPass true = true ∨ p.main = .exited) :
    Acc (fun t s ↦ Step conns s t) s := by
  induction hleft : p.stepsLeft using Nat.strong_induction_on generalizing s p with
  | _ left ih =>
      have hthreads : Acc (fun t s' ↦ LockedSections.Among (program conns)
          (Finset.range s.process.accepted) s' t) s.threads :=
        h.sections.acc (final_stops conns) (completes hconns)
      obtain ⟨process, threads⟩ := s
      dsimp only at hthreads
      induction hthreads with
      | intro threads _ ihthreads =>
          constructor
          intro t hstep
          cases hstep with
          | process hfinish hstep =>
              obtain ⟨p', hp', h'⟩ := h.process hfinish hstep
              rcases hclosing with hpass | hexited
              · obtain ⟨hless, hclosing'⟩ := h.reachable.inv.stepsLeft_lt hpass hp'
                exact ih _ (hleft ▸ hless) h' hclosing' rfl
              · exact absurd hp' (h.reachable.inv.not_step_of_exited hexited)
          | work hstep => exact ihthreads _ hstep (h.work hstep)

end Inv

/-- The connections that were accepted have been served one after the other in this order, and
the device holds the last ten data messages. -/
structure ServedAll (conns : ℕ → Connection) (s : WholeServer) (order : List ℕ)
    (replies : List (List UInt8)) : Prop where
  perm : order.Perm (List.range s.process.accepted)
  serve_eq : ∃ fuel server, serve fuel (order.map conns) = .ok (server, replies) ∧
    s.threads.shared = Shared.ofServer server
  replied : ∀ id reply, s.threads.phase id = .left (.unlocking reply) ↔
    (id, reply) ∈ order.zip replies
  stored : s.threads.shared.kernel.storedCommands = (dataMessages (order.map conns)).rtake 10

theorem Inv.servedAll (hconns : ∀ id, (conns id).Regular) (h : Inv conns fds s p)
    (hmain : p.main = .exited) : ∃ order replies, ServedAll conns s order replies := by
  obtain ⟨done, base, hserialized⟩ := h.sections.serialized
  obtain ⟨replies, fuel, server, hin⟩ := exists_inOrder hserialized
  generalize done.map Prod.fst = order at hin
  have hleft : ∀ id < p.accepted, ∃ l, s.threads.phase id = .left l := by
    intro id hid
    apply h.through id hid
    rw [(h.reachable.inv.ended_of_exited hmain hid).2.2]
    decide
  have hfree : s.threads.holder = none := by
    by_contra hheld
    obtain ⟨id, hid⟩ := Option.ne_none_iff_exists'.mp hheld
    obtain ⟨l, hinside, -⟩ := hin.held id hid
    obtain ⟨l', hl'⟩ := hleft id (h.started id (by rw [hinside]; simp))
    cases hinside.symm.trans hl'
  have hlen : replies.length = order.length := by
    simpa using FallibleRun.length_of_run hin.serve_eq
  have hregular : ∀ conn ∈ order.map conns, conn.Regular := by
    intro conn hconn
    obtain ⟨id, -, rfl⟩ := List.mem_map.mp hconn
    exact hconns id
  have hserve := serve_mono hin.serve_eq (Nat.le_max_left fuel (enoughRounds + 1))
  obtain ⟨hholds, -⟩ := serve_holds (Nat.le_max_right fuel (enoughRounds + 1)) hregular hserve
  refine ⟨order, replies, ?_, ⟨fuel, server, hin.serve_eq, hin.free hfree⟩, hin.left_iff, ?_⟩
  · rw [List.perm_ext_iff_of_nodup hin.nodup List.nodup_range]
    intro id
    rw [List.mem_range, h.accepted_eq]
    constructor
    · intro hid
      obtain ⟨n, hn, rfl⟩ := List.getElem_of_mem hid
      have hmem : (order[n], replies[n]) ∈ order.zip replies :=
        List.mem_iff_getElem.mpr ⟨n, by simp; omega, by simp⟩
      exact h.started _ (by rw [(hin.left_iff _ _).mpr hmem]; simp)
    · intro hid
      obtain ⟨l, hl⟩ := hleft id hid
      obtain ⟨sent, rfl⟩ := hin.left id l hl
      exact (List.of_mem_zip ((hin.left_iff id sent).mp hl)).1
  · rw [hin.free hfree]
    exact hholds.storedCommands_eq

/-- Once `should_close` was seen the server takes only finitely many steps more, in whatever order,
is nowhere stuck before `main` has returned, and then has served every connection it accepted. -/
theorem closing_serves_all (conns : ℕ → Connection) (hconns : ∀ id, (conns id).Regular)
    (fds : Finset ℕ) (s : WholeServer) (hs : Reachable conns fds s)
    (hclosing : s.process.main.closing = true) :
    Acc (fun t s ↦ Step conns s t) s ∧
      ∀ t, Relation.ReflTransGen (Step conns) s t →
        (t.process.main ≠ .exited → ∃ u, Step conns t u) ∧
        (t.process.main = .exited → ∃ order replies, ServedAll conns t order replies) := by
  obtain ⟨p, h⟩ := hs.inv
  have hpass : p.main.inPass true = true := by
    obtain ⟨rec, hrep⟩ := h.represents
    rw [← Main.closing_pointers rec, ← hrep.main_eq]
    exact hclosing
  refine ⟨h.acc hconns (Or.inl hpass), ?_⟩
  intro t ht
  obtain ⟨q, hq⟩ := Reachable.inv (hs.trans ht)
  obtain ⟨rec, hrep⟩ := hq.represents
  rw [hrep.main_eq, ne_eq, Main.pointers_eq_exited_iff]
  exact ⟨hq.exists_step hconns, hq.servedAll hconns⟩

/-- One connection is accepted and its thread has not begun when `should_close` is seen. -/
theorem exists_closing (conns : ℕ → Connection) (fds : Finset ℕ) :
    ∃ s, Reachable conns fds s ∧ s.process.accepted = 1 ∧ s.process.main.closing = true := by
  have hgo : ∀ {s : WholeServer} {p p' : Process}, Reachable conns fds s → Inv conns fds s p →
      Process.Step p p' → (∀ id, p'.thread id ≠ .running → p.thread id ≠ .running) →
        ∃ s', Reachable conns fds s' ∧ Inv conns fds s' p' := by
    intro s p p' hs h hstep hout
    obtain ⟨process, hstep', h'⟩ := h.exists_process hstep hout
    exact ⟨_, hs.tail hstep', h'⟩
  obtain ⟨s₁, hs₁, h₁⟩ := hgo .refl (inv_start conns fds) (.accept rfl) (by simp [Process.start])
  obtain ⟨s₂, hs₂, h₂⟩ := hgo hs₁ h₁ (.insertHead rfl) fun _ ↦ id
  obtain ⟨s₃, hs₃, h₃⟩ := hgo hs₂ h₂ (.visit rfl) fun _ ↦ id
  obtain ⟨s₄, hs₄, h₄⟩ := hgo hs₃ h₃ (.keep rfl rfl) fun _ ↦ id
  obtain ⟨s₅, hs₅, h₅⟩ := hgo hs₄ h₄ (.passed rfl) fun _ ↦ id
  obtain ⟨s₆, hs₆, h₆⟩ := hgo hs₅ h₅ (.shouldClose rfl) fun _ ↦ id
  obtain ⟨rec, hrep⟩ := h₆.represents
  refine ⟨s₆, hs₆, h₆.accepted_eq, ?_⟩
  rw [hrep.main_eq]
  rfl

theorem closing_serves_all_oneConnection :
    ∃ s, Reachable (fun _ ↦ client [97, 10] (by decide)) {0, 1, 2, 3} s ∧
      s.process.accepted = 1 ∧
      Acc (fun t s ↦ Step (fun _ ↦ client [97, 10] (by decide)) s t) s ∧
      ∃ u, Step (fun _ ↦ client [97, 10] (by decide)) s u := by
  obtain ⟨s, hs, hone, hclosing⟩ :=
    exists_closing (fun _ ↦ client [97, 10] (by decide)) {0, 1, 2, 3}
  have hregular : (client [97, 10] (by decide)).Regular :=
    ⟨client_quiet _ _, by decide, Or.inl ⟨by decide, by decide, by decide⟩⟩
  obtain ⟨hacc, hall⟩ := closing_serves_all _ (fun _ ↦ hregular) _ s hs hclosing
  refine ⟨s, hs, hone, hacc, (hall s .refl).1 ?_⟩
  intro hexited
  rw [hexited] at hclosing
  cases hclosing

end WholeServer

end Aesd
