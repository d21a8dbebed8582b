/-
The answers of the system calls behind `net/Socket.h` that `net/Acceptor.cpp`
and `net/Connector.cpp` tell apart.
-/
import Mathlib.Data.Nat.Notation

set_option autoImplicit false

namespace Libiak.Net

/-- `errno`: the values the code compares with, and any other. `EWOULDBLOCK` is
`EAGAIN` on the target. -/
inductive Errno where
  | EAGAIN
  | EMFILE
  | ENFILE
  | EINPROGRESS
  | EINTR
  | EISCONN
  | EADDRINUSE
  | EADDRNOTAVAIL
  | ECONNREFUSED
  | ENETUNREACH
  | other (err : ℕ)
  deriving DecidableEq

end Libiak.Net
