import Mathlib

/-!
# The BaseStation feed

Positions go out as text lines to every client in a table: in server mode to the clients
that have connected, in client mode to the one remote host. What a `write` on a socket
that does not block comes to is up to the system.
-/

namespace InmarsatSniffer.Bs

/-- `BS_MAX_CLIENTS`. -/
abbrev bsMaxClients : ℕ := 16

/-- The size of `msg` in `basestation_send_position`. -/
abbrev msgSize : ℕ := 512

/-- A file descriptor that is open. -/
abbrev Fd := ℕ

/-- `bs_mode`. -/
inductive Mode where
  | server
  | client
  deriving DecidableEq

/-- What a `write` comes to: the number of bytes that were taken, `EAGAIN` or
`EWOULDBLOCK`, or another error. -/
inductive WriteResult where
  | wrote (n : ℕ)
  | wouldBlock
  | failed
  deriving DecidableEq

/-- The bytes of a line that a `write` has passed on. -/
def WriteResult.taken (line : List UInt8) : WriteResult → List UInt8
  | .wrote n => line.take n
  | .wouldBlock => []
  | .failed => []

/-- A call of `write` with a whole line, or of `close`. -/
inductive Syscall where
  | write (fd : Fd) (line : List UInt8) (res : WriteResult)
  | close (fd : Fd)
  deriving DecidableEq

/-- A line that was written on a connection, and what became of it. -/
abbrev Write := List UInt8 × WriteResult

/-- The write on a descriptor, if the system call is one. -/
def Syscall.writeTo (fd : Fd) : Syscall → Option Write
  | .write fd' line res => if fd' = fd then some (line, res) else none
  | .close _ => none

/-- The static variables of the feed; `clients` is the table up to `n_clients`, and
`writes` are the writes so far on the connection that a descriptor stands for. -/
structure Station where
  active : Bool
  mode : Mode
  clients : List Fd
  clientFd : Option Fd
  writes : Fd → List Write

/-- The feed behind `basestation_init`, before anything is connected. -/
def Station.init (mode : Mode) : Station := ⟨true, mode, [], none, fun _ => []⟩

/-- The bytes that a connection has accepted. -/
def Station.stream (s : Station) (fd : Fd) : List UInt8 := (s.writes fd).flatMap fun w => w.2.taken w.1

/-- `bs_accept_thread` with a new connection. -/
def Station.accept (s : Station) (fd : Fd) : Station :=
  if s.clients.length < bsMaxClients then
    { s with clients := s.clients ++ [fd], writes := Function.update s.writes fd [] }
  else s

/-- `bs_reconnect_thread` with a new connection. -/
def Station.reconnect (s : Station) (fd : Fd) : Station :=
  { s with clientFd := some fd, clients := [fd], writes := Function.update s.writes fd [] }

/-- The table without entry `i`, whose place the last one takes. -/
def swapRemove (clients : List Fd) (i : ℕ) : List Fd := (clients.set i (clients.getLastD 0)).dropLast

/-- The feed after the write to client `i` has failed. -/
def Station.dropped (s : Station) (i : ℕ) : Station :=
  match s.mode with
  | .client => { s with clientFd := none, clients := [] }
  | .server => { s with clients := swapRemove s.clients i }

/-- The loop of `basestation_send_position` over the table, from entry `i` on; `res` is
what a write on a descriptor comes to. -/
def Station.sendLoop (s : Station) (line : List UInt8) (res : Fd → WriteResult) (i : ℕ) :
    Station × List Syscall :=
  if h : i < s.clients.length then
    let fd := s.clients.get ⟨i, h⟩
    if res fd = .failed then
      -- the loop is left with `break`
      (s.dropped i, [.write fd line (res fd), .close fd])
    else
      let r := s.sendLoop line res (i + 1)
      (r.1, .write fd line (res fd) :: r.2)
  else (s, [])
termination_by s.clients.length - i

/-- `basestation_send_position` from the line in `msg` on. -/
def Station.send (s : Station) (line : List UInt8) (res : Fd → WriteResult) : Station × List Syscall :=
  if !s.active || line.length = 0 || line.length ≥ msgSize then (s, [])
  else
    let r := s.sendLoop line res 0
    ({ r.1 with writes := fun fd => s.writes fd ++ r.2.filterMap (Syscall.writeTo fd) }, r.2)

/-- What happens to the feed. -/
inductive Action where
  /-- A client connects to the server. -/
  | accept (fd : Fd)
  /-- The remote host is there again. -/
  | reconnect (fd : Fd)
  | send (line : List UInt8) (res : Fd → WriteResult)

/-- A step. The system gives a new connection a descriptor that is not in use. -/
inductive Step : Station → Action → Station → Prop where
  | accept {s : Station} {fd : Fd} (hmode : s.mode = .server) (hfd : fd ∉ s.clients) :
    Step s (.accept fd) (s.accept fd)
  | reconnect {s : Station} {fd : Fd} (hmode : s.mode = .client) (hfd : s.clientFd = none) :
    Step s (.reconnect fd) (s.reconnect fd)
  | send {s : Station} {line : List UInt8} {res : Fd → WriteResult} :
    Step s (.send line res) (s.send line res).1

/-- A run. -/
inductive Run : Station → List Action → Station → Prop where
  | nil {s : Station} : Run s [] s
  | snoc {s s' s'' : Station} {acts : List Action} {act : Action} (hrun : Run s acts s') (hstep : Step s' act s'') :
    Run s (acts ++ [act]) s''

end InmarsatSniffer.Bs
