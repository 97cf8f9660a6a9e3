import Aesd.LockedSections
import Aesd.ServerReplies

/-!
# Connection threads side by side

`thread_work` of `aesdsocket.c`, statement by statement, for any number of threads at once.
They share the stream `fptr`, the pending `seekto_arg` and the device, and are kept apart
by `fptr_mutex` alone.  Whatever the order of their steps, the outcome is that of
`serve`, which takes the connections one by one in the order in which their threads got
the mutex.
-/

namespace Aesd
namespace ConnectionThreads

open LockedSections

/-- What the threads share; `fptr` is `none` while no stream is open. -/
structure Shared where
  kernel : Kernel
  fptr : Option FILE
  seektoArg : Option AesdSeekto

/-- Where a thread is between `pthread_mutex_lock` and `pthread_mutex_unlock`, with its
receive buffer or what it has sent. -/
inductive Place where
  | opening
  | receiving (mem : List UInt8) (recvs : List Recv)
  | rewinding
  | seeking
  | freeing
  | sending (i : ℕ) (sent : List UInt8)
  | closing (sent : List UInt8)
  | unlocking (sent : List UInt8)

def Shared.stream (s : Shared) : Except Stop FILE :=
  match s.fptr with
  | some fptr => .ok fptr
  | none => .error (.fault .invalidAccess)

@[simp] theorem Shared.stream_some (k : Kernel) (fptr : FILE) (arg : Option AesdSeekto) :
    Shared.stream ⟨k, some fptr, arg⟩ = .ok fptr := rfl

/-- The condition of the receive loop. -/
def afterRecv (r : Recv) (mem : List UInt8) (recvs : List Recv) : Place :=
  if r.bytesRecv = maxDataSize then .receiving mem recvs else .rewinding

/-- The next statement of a thread; `none` when only the unlock is left. -/
def advance (conn : Connection) : Place → Shared → Except Stop (Option (Place × Shared))
  | .opening, s =>
      if conn.fopenFails then .error (.exit 1)
      else .ok (some (.receiving conn.memory conn.recvs, { s with fptr := some FILE.fopen }))
  | .receiving mem recvs, s => do
      let fptr ← s.stream
      let r := recvs.headD (.got [] (Nat.zero_le _))
      let st ← recvOnce ⟨mem, fptr, s.seektoArg⟩ r
      return some (afterRecv r st.mem recvs.tail, ⟨s.kernel, some st.fptr, st.seektoArg⟩)
  | .rewinding, s => do
      let fptr ← s.stream
      let (_, k, fptr) ← fptr.fseek conn.env s.kernel 0
      return some (.seeking, ⟨k, some fptr, s.seektoArg⟩)
  | .seeking, s => do
      let fptr ← s.stream
      let o := aesdIoctl (ioctlEnv conn.env s.seektoArg) s.kernel fptr.fPos aesdcharIocseekto
        (s.seektoArg.getD ⟨0, 0⟩)
      return some (.freeing, ⟨o.kernel, some { fptr with fPos := o.fPos }, s.seektoArg⟩)
  | .freeing, s => .ok (some (.sending 0 [], { s with seektoArg := none }))
  | .sending i sent, s => do
      let fptr ← s.stream
      let (sendbuffer, k, fptr) ← fptr.fread conn.env s.kernel 124
      let s := ⟨k, some fptr, s.seektoArg⟩
      let taken := sendbuffer.take (conn.send i sendbuffer.length).toNat
      return some (if sendbuffer = [] then .closing sent else .sending (i + 1) (sent ++ taken), s)
  | .closing sent, s => do
      let fptr ← s.stream
      let k ← fptr.fclose conn.env s.kernel
      return some (.unlocking sent, ⟨k, none, s.seektoArg⟩)
  | .unlocking _, _ => .ok none

variable {ι : Type}

/-- A statement that faults or ends the process is not a step. -/
def program (conns : ι → Connection) : Program ι Place Shared where
  enter _ := .opening
  next i l s := (advance (conns i) l s).toOption.join
  Final l := ∃ sent, l = .unlocking sent

def Shared.ofServer (server : Server) : Shared := ⟨server.kernel, none, server.seektoArg⟩

/-! ## One thread alone -/

theorem next_eq_some_iff {conns : ι → Connection} {i : ι} {l : Place} {s : Shared}
    {r : Place × Shared} :
    (program conns).next i l s = some r ↔ advance (conns i) l s = .ok (some r) :=
  FallibleRun.toOption_join_eq_some_iff

theorem final_stops (conns : ι → Connection) (i : ι) (l : Place) (s : Shared)
    (h : (program conns).Final l) : (program conns).next i l s = none := by
  obtain ⟨sent, rfl⟩ := h
  rfl

section Alone

variable {conns : ι → Connection} {i : ι}

theorem run_receiving {recvs : List Recv} {mem : List UInt8} {fptr : FILE} {arg : Option AesdSeekto}
    {st : RecvState} (h : recvToFile ⟨mem, fptr, arg⟩ recvs = .ok st) (k : Kernel) :
    SectionRun (program conns) i (.receiving mem recvs, ⟨k, some fptr, arg⟩)
      (.rewinding, ⟨k, some st.fptr, st.seektoArg⟩) := by
  induction recvs generalizing mem fptr arg with
  | nil =>
      have hstep : advance (conns i) (.receiving mem []) ⟨k, some fptr, arg⟩ =
          .ok (some (.rewinding, ⟨k, some st.fptr, st.seektoArg⟩)) := by
        rw [recvToFile] at h
        simp only [advance, Shared.stream_some, FallibleRun.ok_bind, List.headD_nil, h]
        rfl
      exact .single (next_eq_some_iff.mpr hstep)
  | cons r recvs ih =>
      obtain ⟨mid, honce, hrest⟩ := FallibleRun.bind_eq_ok_iff.mp h
      have hstep : advance (conns i) (.receiving mem (r :: recvs)) ⟨k, some fptr, arg⟩ =
          .ok (some (afterRecv r mid.mem recvs, ⟨k, some mid.fptr, mid.seektoArg⟩)) := by
        simp only [advance, Shared.stream_some, FallibleRun.ok_bind, List.headD_cons, honce]
        rfl
      refine .head (next_eq_some_iff.mpr hstep) ?_
      rw [afterRecv]
      by_cases hfull : r.bytesRecv = maxDataSize
      · rw [if_pos hfull] at hrest ⊢
        exact ih hrest
      · rw [if_neg hfull] at hrest ⊢
        cases hrest
        exact .refl

theorem run_sending {fuel n : ℕ} {k k' : Kernel} {fptr fptr' : FILE} {reply : List UInt8}
    (h : sendLoop (conns i).env (conns i).send fuel n k fptr = .ok (reply, k', fptr'))
    (sent : List UInt8) (arg : Option AesdSeekto) :
    SectionRun (program conns) i (.sending n sent, ⟨k, some fptr, arg⟩)
      (.closing (sent ++ reply), ⟨k', some fptr', arg⟩) := by
  induction fuel generalizing n k fptr reply sent with
  | zero => cases h
  | succ fuel ih =>
      obtain ⟨⟨sendbuffer, k₁, fptr₁⟩, hread, hrest⟩ := FallibleRun.bind_eq_ok_iff.mp h
      have hstep : advance (conns i) (.sending n sent) ⟨k, some fptr, arg⟩ =
          .ok (some (if sendbuffer = [] then .closing sent
            else .sending (n + 1)
              (sent ++ sendbuffer.take ((conns i).send n sendbuffer.length).toNat),
            ⟨k₁, some fptr₁, arg⟩)) := by
        simp only [advance, Shared.stream_some, FallibleRun.ok_bind, hread]
        rfl
      refine .head (next_eq_some_iff.mpr hstep) ?_
      by_cases hend : sendbuffer = []
      · simp only [if_pos hend] at hrest ⊢
        cases hrest
        simpa using Relation.ReflTransGen.refl
      · simp only [if_neg hend] at hrest ⊢
        obtain ⟨⟨reply₁, k₂, fptr₂⟩, hloop, hpure⟩ := FallibleRun.bind_eq_ok_iff.mp hrest
        cases hpure
        rw [← List.append_assoc]
        exact ih hloop _

theorem run_of_threadWork {fuel : ℕ} {server server' : Server} {reply : List UInt8}
    (h : threadWork fuel server (conns i) = .ok (server', reply)) :
    SectionRun (program conns) i (.opening, Shared.ofServer server)
      (.unlocking reply, Shared.ofServer server') := by
  rw [threadWork] at h
  split at h
  · cases h
  next hopens =>
    obtain ⟨st, hrecv, h⟩ := FallibleRun.bind_eq_ok_iff.mp h
    obtain ⟨⟨sent, k₂, fptr₂, arg₂⟩, hsend, h⟩ := FallibleRun.bind_eq_ok_iff.mp h
    obtain ⟨k₃, hclose, h⟩ := FallibleRun.bind_eq_ok_iff.mp h
    cases h
    rw [sendFile] at hsend
    obtain ⟨⟨r, k₁, fptr₁⟩, hseek, hsend⟩ := FallibleRun.bind_eq_ok_iff.mp hsend
    obtain ⟨⟨reply₁, k₄, fptr₄⟩, hloop, hpure⟩ := FallibleRun.bind_eq_ok_iff.mp hsend
    cases hpure
    have hopening : advance (conns i) .opening (Shared.ofServer server) =
        .ok (some (.receiving (conns i).memory (conns i).recvs,
          ⟨server.kernel, some FILE.fopen, server.seektoArg⟩)) := by
      rw [advance, if_neg hopens]
      rfl
    have hrewinding : advance (conns i) .rewinding ⟨server.kernel, some st.fptr, st.seektoArg⟩ =
        .ok (some (.seeking, ⟨k₁, some fptr₁, st.seektoArg⟩)) := by
      simp only [advance, Shared.stream_some, FallibleRun.ok_bind, hseek]
      rfl
    have hclosing : advance (conns i) (.closing reply) ⟨k₂, some fptr₂, none⟩ =
        .ok (some (.unlocking reply, ⟨k₃, none, none⟩)) := by
      simp only [advance, Shared.stream_some, FallibleRun.ok_bind, hclose]
      rfl
    refine .head (next_eq_some_iff.mpr hopening) ((run_receiving hrecv _).trans ?_)
    refine .head (next_eq_some_iff.mpr hrewinding) ?_
    refine .head (next_eq_some_iff.mpr rfl) (.head (next_eq_some_iff.mpr rfl) ?_)
    exact (run_sending hloop [] none).tail (next_eq_some_iff.mpr hclosing)

/-- A thread that comes to its unlock from an earlier place makes a first step. -/
theorem exists_advance {l : Place} {s s' : Shared} {sent : List UInt8}
    (h : SectionRun (program conns) i (l, s) (.unlocking sent, s'))
    (hl : ∀ sent, l ≠ .unlocking sent) :
    ∃ l₁ s₁, advance (conns i) l s = .ok (some (l₁, s₁)) ∧
      SectionRun (program conns) i (l₁, s₁) (.unlocking sent, s') := by
  rcases Relation.ReflTransGen.cases_head h with heq | ⟨⟨l₁, s₁⟩, hstep, hrest⟩
  · cases heq
    exact absurd rfl (hl sent)
  · exact ⟨l₁, s₁, next_eq_some_iff.mp hstep, hrest⟩

theorem recvToFile_of_run {recvs : List Recv} {mem : List UInt8} {fptr : FILE}
    {arg : Option AesdSeekto} {k : Kernel} {s' : Shared} {sent : List UInt8}
    (h : SectionRun (program conns) i (.receiving mem recvs, ⟨k, some fptr, arg⟩)
      (.unlocking sent, s')) :
    ∃ st, recvToFile ⟨mem, fptr, arg⟩ recvs = .ok st ∧
      SectionRun (program conns) i (.rewinding, ⟨k, some st.fptr, st.seektoArg⟩)
        (.unlocking sent, s') := by
  induction recvs generalizing mem fptr arg with
  | nil =>
      obtain ⟨l₁, s₁, hstep, hrest⟩ := exists_advance h (by simp)
      simp only [advance, Shared.stream_some, FallibleRun.ok_bind, List.headD_nil] at hstep
      obtain ⟨st, honce, hpure⟩ := FallibleRun.bind_eq_ok_iff.mp hstep
      cases hpure
      exact ⟨st, honce, hrest⟩
  | cons r recvs ih =>
      obtain ⟨l₁, s₁, hstep, hrest⟩ := exists_advance h (by simp)
      simp only [advance, Shared.stream_some, FallibleRun.ok_bind, List.headD_cons,
        List.tail_cons] at hstep
      obtain ⟨mid, honce, hpure⟩ := FallibleRun.bind_eq_ok_iff.mp hstep
      cases hpure
      rw [afterRecv] at hrest
      by_cases hfull : r.bytesRecv = maxDataSize
      · rw [if_pos hfull] at hrest
        obtain ⟨st, hrecv, hrun⟩ := ih hrest
        refine ⟨st, ?_, hrun⟩
        rw [recvToFile, honce, FallibleRun.ok_bind, if_pos hfull]
        exact hrecv
      · rw [if_neg hfull] at hrest
        refine ⟨mid, ?_, hrest⟩
        rw [recvToFile, honce, FallibleRun.ok_bind, if_neg hfull]
        rfl

theorem sendLoop_of_run {a : Place × Shared} {s' : Shared} {sent : List UInt8}
    (h : SectionRun (program conns) i a (.unlocking sent, s')) {n : ℕ} {before : List UInt8}
    {k : Kernel} {fptr : FILE} {arg : Option AesdSeekto}
    (ha : a = (.sending n before, ⟨k, some fptr, arg⟩)) :
    ∃ fuel reply k' fptr',
      sendLoop (conns i).env (conns i).send fuel n k fptr = .ok (reply, k', fptr') ∧
      SectionRun (program conns) i (.closing (before ++ reply), ⟨k', some fptr', arg⟩)
        (.unlocking sent, s') := by
  induction h using Relation.ReflTransGen.head_induction_on generalizing n before k fptr with
  | refl => cases ha
  | @head a b hstep hrest ih =>
      subst ha
      have hadvance := next_eq_some_iff.mp hstep
      simp only [advance, Shared.stream_some, FallibleRun.ok_bind] at hadvance
      obtain ⟨⟨sendbuffer, k₁, fptr₁⟩, hread, hpure⟩ := FallibleRun.bind_eq_ok_iff.mp hadvance
      cases hpure
      by_cases hend : sendbuffer = []
      · refine ⟨1, [], k₁, fptr₁, ?_, ?_⟩
        · rw [sendLoop, hread, FallibleRun.ok_bind]
          simp only [if_pos hend]
          rfl
        · simp only [if_pos hend] at hrest
          rw [List.append_nil]
          exact hrest
      · simp only [if_neg hend] at hrest ih
        obtain ⟨fuel, reply, k', fptr', hloop, hrun⟩ := ih rfl
        refine ⟨fuel + 1, _, k', fptr', ?_, by rw [List.append_assoc] at hrun; exact hrun⟩
        rw [sendLoop, hread, FallibleRun.ok_bind]
        simp only [if_neg hend, hloop, FallibleRun.ok_bind]
        rfl

theorem threadWork_of_run {server : Server} {s' : Shared} {sent : List UInt8}
    (h : SectionRun (program conns) i (.opening, Shared.ofServer server) (.unlocking sent, s')) :
    ∃ fuel server', threadWork fuel server (conns i) = .ok (server', sent) ∧
      s' = Shared.ofServer server' := by
  obtain ⟨l₁, s₁, hopening, h⟩ := exists_advance h (by simp)
  rw [advance] at hopening
  split at hopening
  · cases hopening
  next hopens =>
    cases hopening
    obtain ⟨st, hrecv, h⟩ := recvToFile_of_run h
    obtain ⟨l₂, s₂, hrewinding, h⟩ := exists_advance h (by simp)
    simp only [advance, Shared.stream_some, FallibleRun.ok_bind] at hrewinding
    obtain ⟨⟨r, k₁, fptr₁⟩, hseek, hpure⟩ := FallibleRun.bind_eq_ok_iff.mp hrewinding
    cases hpure
    obtain ⟨l₃, s₃, hseeking, h⟩ := exists_advance h (by simp)
    cases hseeking
    obtain ⟨l₄, s₄, hfreeing, h⟩ := exists_advance h (by simp)
    cases hfreeing
    obtain ⟨fuel, reply, k₂, fptr₂, hloop, h⟩ := sendLoop_of_run h rfl
    obtain ⟨l₅, s₅, hclosing, h⟩ := exists_advance h (by simp)
    simp only [advance, Shared.stream_some, FallibleRun.ok_bind] at hclosing
    obtain ⟨k₃, hclose, hpure⟩ := FallibleRun.bind_eq_ok_iff.mp hclosing
    cases hpure
    rcases Relation.ReflTransGen.cases_head h with heq | ⟨_, hstep, -⟩
    · cases heq
      refine ⟨fuel, ⟨k₃, none⟩, ?_, rfl⟩
      rw [threadWork, if_neg hopens]
      refine FallibleRun.bind_eq_ok_iff.mpr ⟨st, hrecv, ?_⟩
      refine FallibleRun.bind_eq_ok_iff.mpr ⟨(reply, k₂, fptr₂, none), ?_,
        FallibleRun.bind_eq_ok_iff.mpr ⟨k₃, hclose, rfl⟩⟩
      refine FallibleRun.bind_eq_ok_iff.mpr ⟨_, hseek, ?_⟩
      exact FallibleRun.bind_eq_ok_iff.mpr ⟨_, hloop, rfl⟩
    · cases next_eq_some_iff.mp hstep

end Alone

/-! ## Rounds of the read loop -/

theorem sendLoop_mono {env : Env} {send : ℕ → ℕ → ℤ} {fuel fuel' i : ℕ} {k : Kernel} {fptr : FILE}
    {r : List UInt8 × Kernel × FILE} (h : sendLoop env send fuel i k fptr = .ok r)
    (hle : fuel ≤ fuel') : sendLoop env send fuel' i k fptr = .ok r := by
  induction fuel generalizing fuel' i k fptr r with
  | zero => cases h
  | succ fuel ih =>
      obtain ⟨fuel', rfl⟩ := Nat.exists_eq_succ_of_ne_zero (by omega : fuel' ≠ 0)
      obtain ⟨⟨sendbuffer, k₁, fptr₁⟩, hread, hrest⟩ := FallibleRun.bind_eq_ok_iff.mp h
      rw [sendLoop, hread, FallibleRun.ok_bind]
      by_cases hend : sendbuffer = []
      · simp only [if_pos hend] at hrest ⊢
        exact hrest
      · simp only [if_neg hend] at hrest ⊢
        obtain ⟨r₁, hloop, hpure⟩ := FallibleRun.bind_eq_ok_iff.mp hrest
        rw [ih hloop (Nat.succ_le_succ_iff.mp hle)]
        exact hpure

theorem threadWork_mono {fuel fuel' : ℕ} {server : Server} {conn : Connection}
    {r : Server × List UInt8} (h : threadWork fuel server conn = .ok r) (hle : fuel ≤ fuel') :
    threadWork fuel' server conn = .ok r := by
  rw [threadWork] at h ⊢
  split at h
  · cases h
  next hopens =>
    rw [if_neg hopens]
    obtain ⟨st, hrecv, h⟩ := FallibleRun.bind_eq_ok_iff.mp h
    obtain ⟨r₁, hsend, h⟩ := FallibleRun.bind_eq_ok_iff.mp h
    obtain ⟨r₂, hseek, hsend⟩ := FallibleRun.bind_eq_ok_iff.mp hsend
    obtain ⟨r₃, hloop, hpure⟩ := FallibleRun.bind_eq_ok_iff.mp hsend
    refine FallibleRun.bind_eq_ok_iff.mpr ⟨st, hrecv, ?_⟩
    refine FallibleRun.bind_eq_ok_iff.mpr ⟨r₁, ?_, h⟩
    refine FallibleRun.bind_eq_ok_iff.mpr ⟨r₂, hseek, ?_⟩
    exact FallibleRun.bind_eq_ok_iff.mpr ⟨r₃, sendLoop_mono hloop hle, hpure⟩

theorem serve_mono {fuel fuel' : ℕ} {conns : List Connection} {r : Server × List (List UInt8)}
    (h : serve fuel conns = .ok r) (hle : fuel ≤ fuel') : serve fuel' conns = .ok r := by
  obtain ⟨server, replies⟩ := r
  rw [serve] at h ⊢
  generalize Server.started = start at h ⊢
  induction conns generalizing start replies with
  | nil => exact h
  | cons conn conns ih =>
      obtain ⟨mid, reply, rest, hone, hrun, rfl⟩ := FallibleRun.run_cons_eq_ok.mp h
      exact FallibleRun.run_cons_eq_ok.mpr
        ⟨mid, reply, rest, threadWork_mono hone hle, ih rest mid hrun, rfl⟩

/-! ## All threads -/

def Place.sent : Place → List UInt8
  | sending _ sent | closing sent | unlocking sent => sent
  | _ => []

variable {conns : ι → Connection}

theorem serve_of_serial {done : List (ι × Place)} {base : Shared}
    (h : Serial (program conns) (Shared.ofServer Server.started) done base) :
    ∃ fuel server, serve fuel (done.map fun d ↦ conns d.1) =
        .ok (server, done.map fun d ↦ d.2.sent) ∧ base = Shared.ofServer server := by
  induction h with
  | nil => exact ⟨0, Server.started, rfl, rfl⟩
  | @concat done before after i l hdone hrun hfinal ih =>
      obtain ⟨fuel, server, hserve, rfl⟩ := ih
      obtain ⟨sent, rfl⟩ := hfinal
      obtain ⟨fuel', server', hwork, rfl⟩ := threadWork_of_run hrun
      have hserve' := serve_mono hserve (Nat.le_max_left fuel fuel')
      have hwork' := threadWork_mono hwork (Nat.le_max_right fuel fuel')
      refine ⟨max fuel fuel', server', ?_, rfl⟩
      rw [List.map_append, List.map_append]
      exact FallibleRun.run_append_eq_ok.mpr ⟨server, _, [sent], hserve',
        FallibleRun.run_cons_eq_ok.mpr ⟨server', sent, [], hwork', rfl, rfl⟩, rfl⟩

/-- Data and command connections come to their unlock from wherever others have left the server. -/
theorem completes (hconns : ∀ i, (conns i).Regular) :
    Completes (program conns) (Shared.ofServer Server.started) := by
  intro done base hserial i
  obtain ⟨fuel, server, hserve, rfl⟩ := serve_of_serial hserial
  have henough : enoughRounds < max fuel (enoughRounds + 1) := Nat.le_max_right _ _
  have hserve' := serve_mono hserve (Nat.le_max_left fuel (enoughRounds + 1))
  have hregular : ∀ conn ∈ done.map fun d ↦ conns d.1, conn.Regular := by
    intro conn hconn
    obtain ⟨d, -, rfl⟩ := List.mem_map.mp hconn
    exact hconns d.1
  obtain ⟨hholds, -⟩ := serve_holds henough hregular hserve'
  obtain ⟨server', reply, hwork, -⟩ := threadWork_regular hholds (hconns i) henough
  exact ⟨_, _, run_of_threadWork hwork, reply, rfl⟩

/-- `order` are the threads that are through and `replies` what they have sent: what serving
them one by one in this order sends.  A thread that is not through is in its section alone,
and has so far done a part of what it would do next in that order. -/
structure InOrder (conns : ι → Connection) (s : State ι Place Shared) (order : List ι)
    (replies : List (List UInt8)) (fuel : ℕ) (server : Server) : Prop where
  nodup : order.Nodup
  serve_eq : serve fuel (order.map conns) = .ok (server, replies)
  left : ∀ i l, s.phase i = .left l → ∃ sent, l = .unlocking sent
  left_iff : ∀ i sent, s.phase i = .left (.unlocking sent) ↔ (i, sent) ∈ order.zip replies
  alone : ∀ i l, s.phase i = .inside l → s.holder = some i
  free : s.holder = none → s.shared = Shared.ofServer server
  held : ∀ i, s.holder = some i → ∃ l, s.phase i = .inside l ∧
    SectionRun (program conns) i (.opening, Shared.ofServer server) (l, s.shared)

theorem InOrder.left_unlocking_iff {s : State ι Place Shared} {order : List ι}
    {replies : List (List UInt8)} {fuel : ℕ} {server : Server}
    (h : InOrder conns s order replies fuel server) (i : ι) (l : Place) :
    s.phase i = .left l ↔ ∃ sent, l = .unlocking sent ∧ (i, sent) ∈ order.zip replies := by
  constructor
  · intro hleft
    obtain ⟨sent, rfl⟩ := h.left i l hleft
    exact ⟨sent, rfl, (h.left_iff i sent).mp hleft⟩
  · rintro ⟨sent, rfl, hmem⟩
    exact (h.left_iff i sent).mpr hmem

theorem exists_inOrder {s : State ι Place Shared} {done : List (ι × Place)} {base : Shared}
    (h : Serialized (program conns) (Shared.ofServer Server.started) s done base) :
    ∃ replies fuel server, InOrder conns s (done.map Prod.fst) replies fuel server := by
  obtain ⟨fuel, server, hserve, rfl⟩ := serve_of_serial h.serial
  have hzip : (done.map Prod.fst).zip (done.map fun d ↦ d.2.sent) =
      done.map fun d ↦ (d.1, d.2.sent) := List.zip_map'
  refine ⟨done.map fun d ↦ d.2.sent, fuel, server, h.nodup, ?_, ?_, ?_, h.alone, h.free, h.held⟩
  · rw [List.map_map]
    exact hserve
  · intro i l hleft
    exact h.serial.final (i, l) ((h.left_iff i l).mp hleft)
  · intro i sent
    rw [h.left_iff, hzip, List.mem_map]
    constructor
    · intro hmem
      exact ⟨_, hmem, rfl⟩
    · rintro ⟨⟨j, l⟩, hmem, heq⟩
      obtain ⟨sent', rfl⟩ := h.serial.final _ hmem
      cases heq
      exact hmem

/-- Whatever the order of their steps, the threads do what `serve` does with the connections in
the order in which their threads got the mutex; the last of them may still be in its section. -/
theorem reachable_inOrder [DecidableEq ι] (conns : ι → Connection) (taken : List ι)
    (s : State ι Place Shared)
    (hs : Run (program conns) (Shared.ofServer Server.started) taken s) :
    ∃ order replies fuel server, taken = order ++ s.holder.toList ∧
      InOrder conns s order replies fuel server := by
  obtain ⟨done, base, h, htaken⟩ := hs.serialized
  obtain ⟨replies, fuel, server, hin⟩ := exists_inOrder h
  exact ⟨_, replies, fuel, server, htaken, hin⟩

/-- A thread that sends `a` and is through, beside one that has not begun. -/
theorem exists_run_oneThrough :
    ∃ s : State Bool Place Shared,
      Run (program fun _ ↦ client [97, 10] (by decide)) (Shared.ofServer Server.started) [true] s ∧
        s.holder = none ∧ s.phase true = .left (.unlocking [97, 10]) := by
  have hdata : IsData (client [97, 10] (by decide)).message := ⟨by decide, by decide, by decide⟩
  have hstarted : Server.started.Holds [] := ⟨models_loaded, rfl, by simp⟩
  obtain ⟨server', hwork, -⟩ := threadWork_data hstarted (client_quiet _ _) (by decide) hdata
    (Nat.lt_succ_self enoughRounds)
  have hrun : SectionRun (program fun _ ↦ client [97, 10] (by decide)) true
      (.opening, Shared.ofServer Server.started) (.unlocking [97, 10], Shared.ofServer server') :=
    run_of_threadWork hwork
  exact ⟨_, Run.whole .initial rfl rfl hrun ⟨_, rfl⟩, rfl, rfl⟩

theorem reachable_inOrder_oneThrough :
    ∃ s replies fuel server, s.phase true = .left (.unlocking [97, 10]) ∧
      InOrder (fun _ ↦ client [97, 10] (by decide)) s [true] replies fuel server := by
  obtain ⟨s, hs, hfree, htrue⟩ := exists_run_oneThrough
  obtain ⟨order, replies, fuel, server, htaken, h⟩ := reachable_inOrder _ _ s hs
  rw [hfree, Option.toList_none, List.append_nil] at htaken
  exact ⟨s, replies, fuel, server, htrue, htaken ▸ h⟩

/-- Threads of data and command connections in any interleaving, in the order in which they got
the mutex: a data thread that is through has sent the last ten data messages up to its own, one
in its section comes to its unlock, and between sections no stream is open, no argument is
pending and the device holds the last ten data messages of those that are through. -/
theorem interleaved_replies [DecidableEq ι] (conns : ι → Connection)
    (hconns : ∀ i, (conns i).Regular) (taken : List ι) (s : State ι Place Shared)
    (hs : Run (program conns) (Shared.ofServer Server.started) taken s) :
    ∃ (order : List ι) (replies : List (List UInt8)), taken = order ++ s.holder.toList ∧
      order.Nodup ∧
      (∀ i l, s.phase i = .left l ↔
        ∃ sent, l = .unlocking sent ∧ (i, sent) ∈ order.zip replies) ∧
      (∀ (n : ℕ) (i : ι), order[n]? = some i → IsData (conns i).message →
        replies[n]? = some ((dataMessages ((order.take (n + 1)).map conns)).rtake 10).flatten) ∧
      (s.holder = none → s.shared.fptr = none ∧ s.shared.seektoArg = none ∧
        s.shared.kernel.storedCommands = (dataMessages (order.map conns)).rtake 10) ∧
      ∀ i l, s.phase i = .inside l → ∃ reply server',
        SectionRun (program conns) i (l, s.shared) (.unlocking reply, Shared.ofServer server') := by
  obtain ⟨done, base, hserialized, htaken⟩ := hs.serialized
  obtain ⟨replies, fuel, server, h⟩ := exists_inOrder hserialized
  generalize done.map Prod.fst = order at h htaken
  let enough := max fuel (enoughRounds + 1)
  have henough : enoughRounds < enough := Nat.le_max_right fuel (enoughRounds + 1)
  have hserve := serve_mono h.serve_eq (Nat.le_max_left fuel (enoughRounds + 1))
  have hregular : ∀ conn ∈ order.map conns, conn.Regular := by
    intro conn hconn
    obtain ⟨i, -, rfl⟩ := List.mem_map.mp hconn
    exact hconns i
  obtain ⟨hholds, hanswered⟩ := serve_holds henough hregular hserve
  have hlen : replies.length = order.length := by
    simpa using FallibleRun.length_of_run hserve
  refine ⟨order, replies, htaken, h.nodup, h.left_unlocking_iff, ?_, ?_, ?_⟩
  · intro n i hn hdata
    obtain ⟨hlt, hget⟩ := List.getElem?_eq_some_iff.mp hn
    have hreply := List.getElem?_eq_getElem (show n < replies.length by omega)
    have hzip : ((order.map conns).zip replies)[n]? = some (conns i, replies[n]) := by
      rw [List.getElem?_zip_eq_some, List.getElem?_map, hn]
      exact ⟨rfl, hreply⟩
    have hanswer := hanswered n _ _ hzip hdata
    rw [List.map_take, List.map_fst_zip (by simp [hlen]), ← List.map_take] at hanswer
    rw [hreply, hanswer]
  · intro hfree
    rw [h.free hfree]
    exact ⟨rfl, hholds.seektoArg_eq, hholds.storedCommands_eq⟩
  · intro i l hinside
    obtain ⟨l', hl', hpart⟩ := h.held i (h.alone i l hinside)
    cases hinside.symm.trans hl'
    obtain ⟨server', reply, hwork, -⟩ := threadWork_regular hholds (hconns i) henough
    exact ⟨reply, server', hpart.rest (final_stops conns i) (run_of_threadWork hwork) ⟨reply, rfl⟩⟩

theorem interleaved_replies_oneThrough :
    ∃ s : State Bool Place Shared, s.phase true = .left (.unlocking [97, 10]) ∧
      s.shared.fptr = none ∧ s.shared.seektoArg = none ∧
      s.shared.kernel.storedCommands = [[97, 10]] := by
  obtain ⟨s, hs, hfree, htrue⟩ := exists_run_oneThrough
  have hregular : ∀ _ : Bool, (client [97, 10] (by decide)).Regular := fun _ ↦
    ⟨client_quiet _ _, by decide, Or.inl ⟨by decide, by decide, by decide⟩⟩
  obtain ⟨order, replies, htaken, -, -, -, hbetween, -⟩ := interleaved_replies _ hregular _ s hs
  rw [hfree, Option.toList_none, List.append_nil] at htaken
  obtain ⟨hfptr, harg, hstored⟩ := hbetween hfree
  rw [← htaken] at hstored
  exact ⟨s, htrue, hfptr, harg, hstored⟩

end ConnectionThreads
end Aesd
