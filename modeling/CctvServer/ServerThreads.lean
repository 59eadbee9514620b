import CctvServer.TcpServer
import Mathlib.Data.Finset.Erase
import Mathlib.Data.Finset.Lattice.Fold
import Mathlib.Order.Lattice.Nat

namespace CctvServer

variable {P : Platform}

/-- What the process gets and has to give back: file descriptors, TLS connections and
the arguments of threads. -/
inductive Handle
  | fd (n : ℕ)
  | ssl (n : ℕ)
  | args (n : ℕ)
  deriving DecidableEq, Repr

def Handle.number : Handle → ℕ
  | fd n => n
  | ssl n => n
  | args n => n

inductive Startup
  | newContext
  | useCertificateFile
  | usePrivateKeyFile
  | checkPrivateKey
  | loadVerifyLocations
  | setVerify
  | openDatabase
  | createUserTable
  | createHistoryTable
  | socket
  | bind
  | listen
  deriving DecidableEq, Repr

inductive HostCall (P : Platform)
  | startup (x : Startup)
  | accept
  | sslNew
  | sslSetFd (ssl fd : ℕ)
  | sslAccept (ssl : ℕ)
  /-- `new ClientHandlerArgs{client_fd, ssl, this}`. -/
  | newArgs (fd ssl : ℕ)
  | pthreadCreate (args : ℕ)
  /-- The argument of the `n`-th thread and what it points to. -/
  | threadArgs (n : ℕ)
  | deleteArgs (args : ℕ)
  | call (ssl : ℕ) (c : Call P)
  | sslShutdown (ssl : ℕ)
  | sslFree (ssl : ℕ)
  | close (fd : ℕ)

abbrev HostRes : HostCall P → Type
  | .startup _ => Bool
  | .accept => Option ℕ
  | .sslNew => Option ℕ
  | .sslSetFd _ _ => Unit
  | .sslAccept _ => Bool
  | .newArgs _ _ => ℕ
  | .pthreadCreate _ => Bool
  | .threadArgs _ => ℕ × ℕ × ℕ
  | .deleteArgs _ => Unit
  | .call _ c => Res c
  | .sslShutdown _ => Unit
  | .sslFree _ => Unit
  | .close _ => Unit

abbrev Host (P : Platform) := Prog (HostRes (P := P))

abbrev host (o : HostCall P) : Host P (HostRes o) := .perform o

namespace TcpServer

/-- `close(client_fd)` after `SSL_shutdown(ssl)` and `SSL_free(ssl)`. -/
def hangUp (fd ssl : ℕ) : Host P Unit := do
  host (.sslShutdown ssl)
  host (.sslFree ssl)
  host (.close fd)

/-- The `n`-th thread. `none` is a run that needs more fuel. -/
def clientThread (fuel n : ℕ) : Host P (Option ℕ) := do
  let (args, fd, ssl) ← host (.threadArgs n)
  host (.deleteArgs args)
  match ← (handleClientSSL (P := P) fuel).embed (HostCall.call ssl) (fun _ r => r) with
  | none => return none
  | some _ =>
      hangUp fd ssl
      return some 0

/-- The loop of the main thread; a connection costs one unit of fuel. `SSL_accept` of a
null pointer is the end of the process. -/
def start : ℕ → Host P (Option ℕ)
  | 0 => return none
  | fuel + 1 => do
      match ← host .accept with
      | none => start fuel
      | some fd =>
          match ← host .sslNew with
          | none => .throw
          | some ssl =>
              host (.sslSetFd ssl fd)
              if ← host (.sslAccept ssl) then
                let args ← host (.newArgs fd ssl)
                if ← host (.pthreadCreate args) then start fuel
                else
                  hangUp fd ssl
                  host (.deleteArgs args)
                  start fuel
              else
                host (.sslFree ssl)
                host (.close fd)
                start fuel

end TcpServer

/-- A step of `main` without which the process ends with status 1. -/
def require (x : Startup) (p : Host P (Option ℕ)) : Host P (Option ℕ) := do
  if ← host (.startup x) then p else return some 1

def TcpServer.setupSocket (p : Host P (Option ℕ)) : Host P (Option ℕ) :=
  require .socket (require .bind (require .listen p))

/-- Tables that cannot be created are only reported. -/
def DBInitializer.init : Host P Unit := do
  let _ ← host (.startup .createUserTable)
  let _ ← host (.startup .createHistoryTable)

def main (fuel : ℕ) : Host P (Option ℕ) :=
  require .newContext <| require .useCertificateFile <| require .usePrivateKeyFile <|
  require .checkPrivateKey <| require .loadVerifyLocations do
    let _ ← host (.startup .setVerify)
    require .openDatabase do
      DBInitializer.init
      TcpServer.setupSocket (TcpServer.start fuel)

/-- A client that will connect: what it sends, and whether it shows a certificate of the
configured authority. -/
structure Peer where
  socket : Socket
  certified : Bool
  deriving DecidableEq, Repr

/-- What the threads share: next to the world of the commands the clients still to come,
the live handles, the peer of each descriptor, the descriptor of each TLS connection, what
each `ClientHandlerArgs` holds and the arguments of the threads created so far. -/
structure Process (P : Platform) where
  world : World P
  done : List Startup
  coming : List Peer
  live : Finset Handle
  peer : ℕ → Peer
  fdOf : ℕ → Option ℕ
  args : ℕ → ℕ × ℕ
  started : List ℕ

namespace Process

/-- A number that no live handle has: `k` where that is free. -/
def pick (s : Process P) (h : ℕ → Handle) (k : ℕ) : ℕ :=
  if h k ∈ s.live then s.live.sup Handle.number + 1 else k

theorem pick_fresh (s : Process P) {h : ℕ → Handle} (hh : ∀ n, (h n).number = n) (k : ℕ) :
    h (s.pick h k) ∉ s.live := by
  unfold pick
  split
  · intro hm
    have hle : (h (s.live.sup Handle.number + 1)).number ≤ s.live.sup Handle.number :=
      Finset.le_sup hm
    rw [hh] at hle
    omega
  · assumption

/-- A handshake needs a certified peer once the context asks for it. -/
def welcomes (s : Process P) (ssl : ℕ) : Bool :=
  match s.fdOf ssl with
  | none => false
  | some fd => !s.done.contains .setVerify || (s.peer fd).certified

def answer (w : Outcome) : (o : HostCall P) → Process P × Unit → HostRes o × (Process P × Unit)
  | .startup x, (s, u) =>
      if w.failed && x ≠ .setVerify then (false, s, u)
      else (true, { s with done := x :: s.done }, u)
  | .accept, (s, u) =>
      match w.failed, s.coming with
      | false, p :: coming =>
          let fd := s.pick .fd w.number
          (some fd, { s with coming := coming, live := insert (.fd fd) s.live
                             peer := Function.update s.peer fd p }, u)
      | _, _ => (none, s, u)
  | .sslNew, (s, u) =>
      if w.failed then (none, s, u)
      else
        let ssl := s.pick .ssl w.number
        (some ssl, { s with live := insert (.ssl ssl) s.live
                            fdOf := Function.update s.fdOf ssl none }, u)
  | .sslSetFd ssl fd, (s, u) =>
      ((), if w.failed then s else { s with fdOf := Function.update s.fdOf ssl (some fd) }, u)
  | .sslAccept ssl, (s, u) => (!w.failed && s.welcomes ssl, s, u)
  | .newArgs fd ssl, (s, u) =>
      let args := s.pick .args w.number
      (args, { s with live := insert (.args args) s.live
                      args := Function.update s.args args (fd, ssl) }, u)
  | .pthreadCreate args, (s, u) =>
      if w.failed then (false, s, u) else (true, { s with started := s.started ++ [args] }, u)
  | .threadArgs n, (s, u) => ((s.started.getD n 0, s.args (s.started.getD n 0)), s, u)
  | .deleteArgs args, (s, u) => ((), { s with live := s.live.erase (.args args) }, u)
  | .call ssl c, (s, u) =>
      match s.fdOf ssl with
      | none =>
          let (r, world, _) := World.answer w c (s.world, ⟨[], []⟩)
          (r, { s with world := world }, u)
      | some fd =>
          let (r, world, socket) := World.answer w c (s.world, (s.peer fd).socket)
          (r, { s with world := world
                       peer := Function.update s.peer fd { s.peer fd with socket := socket } }, u)
  | .sslShutdown _, (s, u) => ((), s, u)
  | .sslFree ssl, (s, u) => ((), { s with live := s.live.erase (.ssl ssl) }, u)
  | .close fd, (s, u) => ((), { s with live := s.live.erase (.fd fd) }, u)

/-- The surroundings of the process: `allowed` says how the calls of the commands may turn
out, all others may fail. -/
abbrev Runs (allowed : Call P → Outcome → Prop) : Env (HostRes (P := P)) (Process P × Unit) :=
  Env.resolve answer fun o w => ∀ ssl c, o = .call ssl c → allowed c w

def boot (world : World P) (coming : List Peer) : Process P where
  world := world
  done := []
  coming := coming
  live := ∅
  peer _ := ⟨⟨[], []⟩, false⟩
  fdOf _ := none
  args _ := (0, 0)
  started := []

end Process

abbrev Threads (P : Platform) :=
  Config (HostRes (P := P)) (Process P) Unit (Option ℕ) (Option ℕ)

namespace Threads

def Ready (c : Threads P) (_ : Option ℕ) (e : Event (HostRes (P := P))) : Prop :=
  ∀ n, e.1 = .threadArgs n → n < c.shared.started.length

def boot (fuel : ℕ) (world : World P) (coming : List Peer) : Threads P where
  shared := Process.boot world coming
  loc _ := ()
  prog i := i.elim (main fuel) (TcpServer.clientThread fuel)
  trace := []

end Threads

end CctvServer
