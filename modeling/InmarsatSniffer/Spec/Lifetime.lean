import InmarsatSniffer.Spec.Basestation
import InmarsatSniffer.Lib.Handles

/-!
# The threads of the BaseStation feed

From `basestation_init` to `basestation_destroy` there is a thread that brings new
connections: `bs_accept_thread` in server mode, `bs_reconnect_thread` in client mode.
Calls of `basestation_send_position` come from other threads. What happens while
`clients_lock` is held is one step; the trace records how descriptors are used.
-/

namespace InmarsatSniffer.Bs

open Handles (Ev isOpen)

/-- What a system call does with its descriptor. -/
def Syscall.event : Syscall → Ev Fd
  | .write fd _ _ => .used fd
  | .close fd => .closed fd

/-- Where the thread for new connections is. -/
inductive Thread where
  /-- At the test of `running`. -/
  | top
  /-- Behind it: `accept` may give a connection, or the remote host is to be connected. -/
  | waiting
  /-- It has a new descriptor, which is not in the table yet. -/
  | holds (fd : Fd)
  | finished
  deriving DecidableEq

/-- How far `basestation_destroy` is. -/
inductive Phase where
  | alive
  /-- `bs_active` is 0, and the thread is waited for. -/
  | joining
  | joined
  | done
  deriving DecidableEq

/-- The feed with its threads; `senders` counts the calls of `basestation_send_position`
that are behind their test of `bs_active` and have not had the lock yet. -/
structure Life where
  station : Station
  thread : Thread
  running : Bool
  senders : ℕ
  phase : Phase
  trace : List (Ev Fd)

/-- `basestation_init`, which may have found the remote host in client mode. -/
def Life.init (mode : Mode) (conn : Option Fd) : Life :=
  match mode, conn with
  | .client, some fd => ⟨(Station.init .client).reconnect fd, .top, true, 0, .alive, [.opened fd]⟩
  | mode, _ => ⟨Station.init mode, .top, true, 0, .alive, []⟩

/-- The new descriptor goes into the table, or is closed if there is no room. -/
def Life.install (l : Life) (fd : Fd) : Life :=
  match l.station.mode with
  | .server =>
    if l.station.clients.length < bsMaxClients then { l with station := l.station.accept fd, thread := .top }
    else { l with thread := .top, trace := l.trace ++ [.closed fd] }
  | .client => { l with station := l.station.reconnect fd, thread := .top }

/-- The part of `basestation_send_position` under the lock. -/
def Life.sendLocked (l : Life) (line : List UInt8) (res : Fd → WriteResult) : Life :=
  let r := l.station.sendLoop line res 0
  { l with station := r.1, senders := l.senders - 1, trace := l.trace ++ r.2.map Syscall.event }

/-- The part of `basestation_destroy` under the lock. -/
def Life.closeAll (l : Life) : Life :=
  { l with
    station := { l.station with clients := [], clientFd := none }
    phase := .done
    trace := l.trace ++ l.station.clients.map .closed ++ l.station.clientFd.toList.map .closed }

/-- A step of one of the threads. -/
inductive LStep : Life → Life → Prop where
  /-- The signal handler. -/
  | stop {l : Life} : LStep l { l with running := false }
  | wait {l : Life} (hthread : l.thread = .top) (hrun : l.running = true)
    (hneed : l.station.mode = .client → l.station.clientFd = none) : LStep l { l with thread := .waiting }
  /-- No connection came, or the remote host is not there. -/
  | nothing {l : Life} (hthread : l.thread = .waiting) : LStep l { l with thread := .top }
  /-- The system gives a descriptor that is not in use. -/
  | connected {l : Life} {fd : Fd} (hthread : l.thread = .waiting) (hfd : isOpen fd l.trace = false) :
    LStep l { l with thread := .holds fd, trace := l.trace ++ [.opened fd] }
  | install {l : Life} {fd : Fd} (hthread : l.thread = .holds fd) : LStep l (l.install fd)
  | finish {l : Life} (hthread : l.thread = .top) (hrun : l.running = false) : LStep l { l with thread := .finished }
  | sendBegin {l : Life} (hactive : l.station.active = true) : LStep l { l with senders := l.senders + 1 }
  | sendLocked {l : Life} {line : List UInt8} {res : Fd → WriteResult} (hsender : 0 < l.senders) :
    LStep l (l.sendLocked line res)
  | deactivate {l : Life} (hphase : l.phase = .alive) :
    LStep l { l with station := { l.station with active := false }, phase := .joining }
  | join {l : Life} (hphase : l.phase = .joining) (hthread : l.thread = .finished) : LStep l { l with phase := .joined }
  | closeAll {l : Life} (hphase : l.phase = .joined) : LStep l l.closeAll

/-- The states that a feed can come to. -/
inductive Reachable : Life → Prop where
  | init {mode : Mode} {conn : Option Fd} : Reachable (Life.init mode conn)
  | step {l l' : Life} (h : Reachable l) (hstep : LStep l l') : Reachable l'

end InmarsatSniffer.Bs
