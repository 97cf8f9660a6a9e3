import Aesd.ProcessLaunch
import Aesd.Listener

/-!
# The descriptors of redirected commands

`do_exec_redirect` opens the output file in the calling process and never closes it, although
its comment says that the file is closed when the function is done.  Over a run of launches the
table of descriptors fills up, and from then on no output is redirected any more.
-/

namespace Aesd
namespace SystemCalls

/-- The open descriptors of a process, all below its limit. -/
structure Table where
  limit : ℕ
  fds : Finset ℕ
  lt_limit : ∀ fd ∈ fds, fd < limit

namespace Table

theorem card_le (table : Table) : table.fds.card ≤ table.limit := by
  have hsubset : table.fds ⊆ Finset.range table.limit := fun fd hfd ↦
    Finset.mem_range.mpr (table.lt_limit fd hfd)
  simpa using Finset.card_le_card hsubset

def insertLowest (table : Table) (h : lowestFree table.fds < table.limit) : Table where
  limit := table.limit
  fds := insert (lowestFree table.fds) table.fds
  lt_limit := by
    intro fd hfd
    rcases Finset.mem_insert.mp hfd with rfl | hfd
    · exact h
    · exact table.lt_limit fd hfd

theorem card_insertLowest (table : Table) (h : lowestFree table.fds < table.limit) :
    (table.insertLowest h).fds.card = table.fds.card + 1 :=
  Finset.card_insert_of_notMem (lowestFree_notMem _)

theorem lowestFree_lt_iff (table : Table) :
    lowestFree table.fds < table.limit ↔ table.fds.card < table.limit := by
  constructor
  · intro hlt
    have hcard := (table.insertLowest hlt).card_le
    rw [card_insertLowest] at hcard
    exact hcard
  · intro hlt
    obtain ⟨fd, hfd, hfree⟩ : ∃ fd ∈ Finset.range table.limit, fd ∉ table.fds :=
      Finset.exists_mem_notMem_of_card_lt_card (by simpa using hlt)
    exact (Nat.find_min' _ hfree).trans_lt (Finset.mem_range.mp hfd)

/-- `open` fails where the path cannot be opened and where the table is full. -/
def openFile (table : Table) (w : World) (path : String) : ℤ :=
  if isError (w.openFile path) ∨ table.limit ≤ lowestFree table.fds then -1
  else lowestFree table.fds

theorem openFile_range (table : Table) (w : World) (path : String) :
    table.openFile w path = -1 ∨ 0 ≤ table.openFile w path := by
  rw [openFile]
  split
  · exact Or.inl rfl
  · exact Or.inr (Int.natCast_nonneg _)

/-- The world with the results of `open` that this table allows. -/
def world (table : Table) (w : World) : World :=
  { w with openFile := table.openFile w, openFile_range := table.openFile_range w }

/-- The table after `open`. -/
def opened (table : Table) (w : World) (path : String) : Table :=
  if isError (w.openFile path) then table
  else if h : lowestFree table.fds < table.limit then table.insertLowest h
  else table

end Table

inductive Launch where
  | system (cmd : String)
  | exec (args : List String)
  | redirect (outputfile : String) (args : List String)

/-- A launch, and the results of the calls in it. -/
structure Call where
  world : World
  launch : Launch

namespace Table

/-- What the calling process returns, and its descriptors then. -/
def launch (table : Table) (call : Call) : Table × Bool :=
  match call.launch with
  | .system cmd => (table, doSystem call.world cmd)
  | .exec args => (table, (doExec call.world args).parent)
  | .redirect outputfile args =>
      (table.opened call.world outputfile,
        (doExecRedirect (table.world call.world) outputfile args).parent)

def launches : Table → List Call → Table × List Bool
  | table, [] => (table, [])
  | table, call :: calls =>
      let (table, result) := table.launch call
      let (table, results) := launches table calls
      (table, result :: results)

end Table

/-- The launch redirects its output to a path that can be opened. -/
def Call.opens (call : Call) : Bool :=
  match call.launch with
  | .redirect outputfile _ => !isError (call.world.openFile outputfile)
  | _ => false

/-! ## Runs -/

namespace Table

theorem limit_opened (table : Table) (w : World) (path : String) :
    (table.opened w path).limit = table.limit := by
  rw [opened]
  split
  · rfl
  · split <;> rfl

theorem card_opened (table : Table) {w : World} {path : String}
    (h : isError (w.openFile path) = false) :
    (table.opened w path).fds.card = min table.limit (table.fds.card + 1) := by
  have hle := table.card_le
  have hiff := table.lowestFree_lt_iff
  rw [opened, h]
  by_cases hlt : lowestFree table.fds < table.limit
  · simp only [Bool.false_eq_true, if_false, dif_pos hlt, card_insertLowest]
    omega
  · simp only [Bool.false_eq_true, if_false, dif_neg hlt]
    omega

theorem limit_launch (table : Table) (call : Call) :
    (table.launch call).1.limit = table.limit := by
  rw [launch]
  split
  · rfl
  · rfl
  · exact table.limit_opened _ _

theorem card_launch (table : Table) (call : Call) :
    (table.launch call).1.fds.card =
      min table.limit (table.fds.card + if call.opens then 1 else 0) := by
  have hsame : table.fds.card = min table.limit table.fds.card :=
    (Nat.min_eq_right table.card_le).symm
  obtain ⟨w, launch⟩ := call
  cases launch with
  | system cmd => exact hsame
  | exec args => exact hsame
  | redirect outputfile args =>
      cases herror : isError (w.openFile outputfile) with
      | true => simpa [Table.launch, opened, Call.opens, herror] using table.card_le
      | false => simpa [Table.launch, Call.opens, herror] using table.card_opened herror

theorem doExecRedirect_world_of_open (table : Table) {w : World} {outputfile : String}
    (args : List String) (hopen : isError (w.openFile outputfile) = false)
    (hlt : lowestFree table.fds < table.limit) :
    doExecRedirect (table.world w) outputfile args = doExecRedirect w outputfile args := by
  have hopen' : isError ((table.world w).openFile outputfile) = false := by
    have hfd : (table.world w).openFile outputfile = lowestFree table.fds := by
      simp [world, openFile, hopen, hlt]
    rw [hfd, isError, beq_eq_false_iff_ne]
    omega
  simp only [doExecRedirect, hopen, hopen', Bool.false_eq_true, if_false]
  rfl

theorem redirect_parent_iff (table : Table) (w : World) (outputfile : String)
    (args : List String) :
    (doExecRedirect (table.world w) outputfile args).parent = true ↔
      (doExecRedirect w outputfile args).parent = true ∧ table.fds.card < table.limit := by
  rw [← table.lowestFree_lt_iff]
  by_cases hopens : isError (w.openFile outputfile) = false ∧ lowestFree table.fds < table.limit
  · obtain ⟨hopen, hlt⟩ := hopens
    rw [table.doExecRedirect_world_of_open args hopen hlt]
    simp [hlt]
  · have hfails : (table.world w).openFile outputfile = -1 := by
      refine if_pos ?_
      rw [not_and, not_lt] at hopens
      cases herror : isError (w.openFile outputfile) with
      | true => exact Or.inl rfl
      | false => exact Or.inr (hopens herror)
    rw [doExecRedirect_not_forked args (Or.inl hfails)]
    constructor
    · intro hfalse
      cases hfalse
    · rintro ⟨hparent, hlt⟩
      refine absurd ⟨?_, hlt⟩ hopens
      by_contra herror
      have hopen : w.openFile outputfile = -1 := (isError_iff _).mp (by simpa using herror)
      rw [doExecRedirect_not_forked args (Or.inl hopen)] at hparent
      cases hparent

theorem card_launches (table : Table) (calls : List Call) :
    (table.launches calls).1.fds.card =
      min table.limit (table.fds.card + calls.countP Call.opens) := by
  induction calls generalizing table with
  | nil => exact (Nat.min_eq_right table.card_le).symm
  | cons call calls ih =>
      rw [launches, ih, limit_launch, card_launch, List.countP_cons]
      omega

theorem result_redirect_iff (table : Table) {calls : List Call} {i : ℕ} {w : World}
    {outputfile : String} {args : List String}
    (hi : calls[i]? = some ⟨w, .redirect outputfile args⟩) :
    (table.launches calls).2[i]? = some true ↔
      (doExecRedirect w outputfile args).parent = true ∧
        table.fds.card + (calls.take i).countP Call.opens < table.limit := by
  induction calls generalizing table i with
  | nil => simp at hi
  | cons call calls ih =>
      cases i with
      | zero =>
          cases hi
          rw [launches, List.take_zero, List.countP_nil, Nat.add_zero, ← redirect_parent_iff]
          exact Option.some_inj
      | succ i =>
          rw [launches, List.getElem?_cons_succ, ih _ hi, limit_launch, card_launch,
            List.take_succ_cons, List.countP_cons]
          refine and_congr_right fun _ ↦ ?_
          omega

/-- Each redirection to a file that can be opened takes a descriptor for good, until there is
none.  So a redirected command is reported as successful exactly if it is so by itself and fewer
such redirections came before it than there were free descriptors at first. -/
theorem redirects_use_up (table : Table) (calls : List Call) :
    (table.launches calls).1.fds.card =
      min table.limit (table.fds.card + calls.countP Call.opens) ∧
    ∀ (i : ℕ) (w : World) (outputfile : String) (args : List String),
      calls[i]? = some ⟨w, .redirect outputfile args⟩ →
        ((table.launches calls).2[i]? = some true ↔
          (doExecRedirect w outputfile args).parent = true ∧
            table.fds.card + (calls.take i).countP Call.opens < table.limit) :=
  ⟨table.card_launches calls, fun _ _ _ _ hi ↦ table.result_redirect_iff hi⟩

end Table

/-- Two commands that succeed, in a process with a single descriptor left. -/
def twoRedirects : List Call :=
  let w := { killedWorld with execv := fun _ _ ↦ some (.exited 0) }
  [⟨w, .redirect "/tmp/out" ["/bin/true"]⟩, ⟨w, .redirect "/tmp/out" ["/bin/true"]⟩]

theorem redirects_use_up_twoRedirects :
    ((Table.mk 4 {0, 1, 2} (by decide)).launches twoRedirects).2[0]? = some true ∧
      ((Table.mk 4 {0, 1, 2} (by decide)).launches twoRedirects).2[1]? ≠ some true := by
  obtain ⟨-, hresult⟩ := Table.redirects_use_up ⟨4, {0, 1, 2}, by decide⟩ twoRedirects
  constructor
  · rw [hresult 0 _ "/tmp/out" ["/bin/true"] rfl]
    decide
  · rw [Ne, hresult 1 _ "/tmp/out" ["/bin/true"] rfl]
    decide

end SystemCalls
end Aesd
