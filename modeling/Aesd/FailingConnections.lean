import Aesd.LogService
import Aesd.FollowingReader

/-!
# Connections that fail

The kernel may turn down the write of a connection (a signal while it waits for the mutex, no
memory, a payload that cannot be copied), its reads may fail and its peer may take only parts of
the reply.  `send_file` looks at none of this and goes on.  Still a connection that is turned
down leaves the device as it was, its pending bytes are given up with its stream, and the other
connections are answered as if it had not been there.
-/

namespace Aesd

open MachineWord
open OffsetLookup

instance (env : Env) (log : Log) (buf : List UInt8) : Decidable (WriteRefused env log buf) :=
  inferInstanceAs (Decidable (_ ∨ _))

/-! ## Reading whatever fails -/

namespace FILE

variable {k : Kernel} {log : Log}

end FILE

/-! ## One connection -/

/-- What is left of the connection's bytes: all of them or nothing. -/
def Log.survive (log : Log) (conn : Connection) : Log :=
  if WriteRefused conn.env log conn.input.1 then log else log.append conn.input.1

/-- Each payload fits the buffer of the stream and so leaves it in one request, and what is
stored after it fits the buffer as well. -/
def Log.AdmitsSurviving : Log → List Connection → Prop
  | _, [] => True
  | log, conn :: conns =>
      conn.input.1.length ≤ stdioBufferSize ∧
      (∀ c ∈ (log.survive conn).stored, c.length ≤ stdioBufferSize) ∧
      (log.survive conn).AdmitsSurviving conns

theorem Log.AdmitsSurviving.append {log : Log} {conns more : List Connection}
    (h : log.AdmitsSurviving (conns ++ more)) :
    log.AdmitsSurviving conns ∧ (conns.foldl Log.survive log).AdmitsSurviving more := by
  induction conns generalizing log with
  | nil => exact ⟨trivial, h⟩
  | cons conn conns ih =>
      obtain ⟨hconns, hmore⟩ := ih h.2.2
      exact ⟨⟨h.1, h.2.1, hconns⟩, hmore⟩

namespace ConnectionThreads

open LockedSections

end ConnectionThreads

end Aesd
