import Mathlib.Tactic.Common

/-!
# States and families of TCP connections
-/

namespace Mqx
namespace Rtcs

/-- The states of a TCB. -/
inductive TcpState where
  | listen
  | synSent
  | synReceived
  | established
  | finwait1
  | finwait2
  | closeWait
  | closing
  | lastAck
  | timeWait
  | closed
  | bound
deriving DecidableEq, Repr

/-- `AF_INET` and `AF_INET6`. -/
inductive AddressFamily where
  | inet
  | inet6
deriving DecidableEq, Repr

end Rtcs
end Mqx
