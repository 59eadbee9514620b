import CctvServer.Monitor
import CctvServer.ServerThreads

namespace CctvServer

variable {P : Platform}

/-- The steps of `main` without which no connection is accepted. -/
def Startup.required : List Startup :=
  [.newContext, .useCertificateFile, .usePrivateKeyFile, .checkPrivateKey, .loadVerifyLocations,
    .setVerify, .openDatabase, .socket, .bind, .listen]

def Process.route (s : Process P) (ssl : ℕ) : Finset Handle :=
  match s.fdOf ssl with
  | none => {.ssl ssl}
  | some fd => {.ssl ssl, .fd fd}

def HostCall.uses (s : Process P) : HostCall P → Finset Handle
  | .startup _ | .accept | .sslNew => ∅
  | .sslSetFd ssl fd | .newArgs fd ssl => {.ssl ssl, .fd fd}
  | .sslAccept ssl | .call ssl _ | .sslShutdown ssl => s.route ssl
  | .pthreadCreate args | .deleteArgs args => {.args args}
  | .threadArgs n =>
      match s.started[n]? with
      | none => ∅
      | some args => {.args args}
  | .sslFree ssl => {.ssl ssl}
  | .close fd => {.fd fd}

namespace Threads

/-- What a thread has done of `main`, the handles it holds, its TLS connection with its
descriptor, whether their handshake is done, and what its `ClientHandlerArgs` holds. -/
structure Hold where
  known : List Startup
  owned : Finset Handle
  link : Option (ℕ × ℕ)
  shaken : Bool
  packed : Option (ℕ × ℕ × ℕ)

namespace Hold

def empty (known : List Startup) : Hold := ⟨known, ∅, none, false, none⟩

def linked (known : List Startup) (fd ssl : ℕ) (shaken : Bool) : Hold :=
  ⟨known, {.ssl ssl, .fd fd}, some (ssl, fd), shaken, none⟩

def handed (known : List Startup) (args fd ssl : ℕ) : Hold :=
  ⟨known, {.args args, .ssl ssl, .fd fd}, some (ssl, fd), true, some (args, fd, ssl)⟩

def Admits (h : Hold) : HostCall P → Prop
  | .startup _ | .sslNew => True
  | .accept => Startup.required ⊆ h.known ∧ h.owned = ∅
  | .sslSetFd ssl fd => .ssl ssl ∈ h.owned ∧ .fd fd ∈ h.owned ∧ h.link = none
  | .sslAccept ssl => Startup.required ⊆ h.known ∧ ∃ fd, h.link = some (ssl, fd)
  | .newArgs fd ssl => h.link = some (ssl, fd)
  | .pthreadCreate args => ∃ fd ssl, h = handed h.known args fd ssl
  | .threadArgs _ => False
  | .deleteArgs args => .args args ∈ h.owned
  | .call ssl _ => ∃ fd, h.link = some (ssl, fd) ∧ h.shaken = true
  | .sslShutdown ssl | .sslFree ssl => ∃ fd, h.link = some (ssl, fd)
  | .close fd => .fd fd ∈ h.owned ∧ h.link = none

def next (h : Hold) : (o : HostCall P) → HostRes o → Hold
  | .startup x, r => if r then { h with known := x :: h.known } else h
  | .accept, some fd => { h with owned := insert (.fd fd) h.owned }
  | .sslNew, some ssl => { h with owned := insert (.ssl ssl) h.owned }
  | .sslSetFd ssl fd, _ => { h with link := some (ssl, fd), shaken := false }
  | .sslAccept _, r => { h with shaken := r }
  | .newArgs fd ssl, args =>
      { h with owned := insert (.args args) h.owned, packed := some (args, fd, ssl) }
  | .pthreadCreate _, true => empty h.known
  | .deleteArgs args, _ => { h with owned := h.owned.erase (.args args), packed := none }
  | .sslFree ssl, _ =>
      { h with owned := h.owned.erase (.ssl ssl), link := none, shaken := false }
  | .close fd, _ => { h with owned := h.owned.erase (.fd fd) }
  | _, _ => h

theorem next_setFd (known : List Startup) (fd ssl : ℕ) :
    (((empty known).next (P := P) .accept (some fd)).next (P := P) .sslNew (some ssl)).next (P := P)
      (.sslSetFd ssl fd) () = linked known fd ssl false := rfl

theorem next_release (known : List Startup) (fd ssl : ℕ) (shaken : Bool) :
    ((linked known fd ssl shaken).next (P := P) (.sslFree ssl) ()).next (P := P) (.close fd) () =
      empty known := by
  have howned : (({.ssl ssl, .fd fd} : Finset Handle).erase (.ssl ssl)).erase (.fd fd) = ∅ := by
    ext r
    simp
  simp only [next, linked, empty, howned]

theorem next_delete (known : List Startup) (args fd ssl : ℕ) :
    (handed known args fd ssl).next (P := P) (.deleteArgs args) () = linked known fd ssl true := by
  have howned : ({.args args, .ssl ssl, .fd fd} : Finset Handle).erase (.args args) =
      {.ssl ssl, .fd fd} := Finset.erase_insert (by simp)
  simp only [next, handed, linked, howned]

theorem next_withdraw (known : List Startup) (args fd ssl : ℕ) :
    (((handed known args fd ssl).next (P := P) (.sslFree ssl) ()).next (P := P) (.close fd) ()).next
      (P := P) (.deleteArgs args) () = empty known := by
  have howned : ((({.args args, .ssl ssl, .fd fd} : Finset Handle).erase (.ssl ssl)).erase
      (.fd fd)).erase (.args args) = ∅ := by
    ext r
    simp
    grind
  simp only [next, handed, empty, howned]

structure Sound (s : Process P) (h : Hold) : Prop where
  known : h.known ⊆ s.done
  ssl : ∀ ssl fd, h.link = some (ssl, fd) → .ssl ssl ∈ h.owned
  fd : ∀ ssl fd, h.link = some (ssl, fd) → .fd fd ∈ h.owned
  route : ∀ ssl fd fd', h.link = some (ssl, fd) → s.fdOf ssl = some fd' → fd' = fd
  bare : ∀ ssl, .ssl ssl ∈ h.owned → (∀ fd, h.link ≠ some (ssl, fd)) → s.fdOf ssl = none
  shaken : h.shaken = true → Startup.required ⊆ s.done ∧
    ∃ ssl fd, h.link = some (ssl, fd) ∧ s.fdOf ssl = some fd ∧ (s.peer fd).certified = true
  packed : ∀ args fd ssl, h.packed = some (args, fd, ssl) →
    .args args ∈ h.owned ∧ s.args args = (fd, ssl)

end Hold

inductive Phase
  | waiting (n : ℕ)
  | active (h : Hold)

/-- What a thread holds. To one that is created but has not begun belongs what it is handed. -/
def Phase.hold (s : Process P) : Phase → Hold
  | waiting n =>
      match s.started[n]? with
      | none => .empty []
      | some args => .handed [] args (s.args args).1 (s.args args).2
  | active h => h

def Phase.initial : Option ℕ → Phase
  | none => .active (.empty [])
  | some n => .waiting n

/-- Each thread keeps to what it holds. -/
def custody : Monitor (HostRes (P := P)) Phase where
  admits g o :=
    match g with
    | .waiting n => o = .threadArgs n
    | .active h => h.Admits o
  expects _ o r :=
    match o with
    | .startup .setVerify => r = true
    | _ => True
  next g o r :=
    match g, o, r with
    | .waiting _, .threadArgs _, (args, fd, ssl) => .active (.handed [] args fd ssl)
    | .waiting n, _, _ => .waiting n
    | .active h, o, r => .active (h.next o r)

def Rest (g : Phase) (x : Option ℕ) : Prop := x.isSome → ∃ known, g = .active (.empty known)

abbrev Keeps : Host P (Option ℕ) → Phase → Prop := Prog.Safe custody Rest fun _ => True

theorem safe_host {o : HostCall P} {k : HostRes o → Host P (Option ℕ)} {h : Hold}
    (ha : h.Admits o)
    (hk : ∀ r, custody.expects (.active h) o r → Keeps (k r) (.active (h.next o r))) :
    Keeps (.call o k) (.active h) := ⟨ha, hk⟩

theorem safe_hangUp {k : Unit → Host P (Option ℕ)} {h : Hold} {fd ssl : ℕ}
    (hl : h.link = some (ssl, fd)) (hf : .fd fd ∈ h.owned)
    (hk : Keeps (k ())
      (.active ((h.next (P := P) (.sslFree ssl) ()).next (P := P) (.close fd) ()))) :
    Keeps (TcpServer.hangUp fd ssl >>= k) (.active h) := by
  refine safe_host ⟨fd, hl⟩ fun _ _ => safe_host ⟨fd, hl⟩ fun _ _ => safe_host ?_ fun _ _ => hk
  exact ⟨Finset.mem_erase.mpr ⟨by simp, hf⟩, rfl⟩

theorem safe_start (fuel : ℕ) {known : List Startup} (hknown : Startup.required ⊆ known) :
    Keeps (P := P) (TcpServer.start fuel) (.active (.empty known)) := by
  induction fuel with
  | zero => exact nofun
  | succ fuel ih =>
    refine safe_host ⟨hknown, rfl⟩ fun fd _ => ?_
    cases fd with
    | none => exact ih
    | some fd =>
      refine safe_host trivial fun ssl _ => ?_
      cases ssl with
      | none => trivial
      | some ssl =>
        refine safe_host ⟨Finset.mem_insert_self _ _, by simp [Hold.next], rfl⟩ fun _ _ => ?_
        rw [Hold.next_setFd]
        refine safe_host ⟨hknown, fd, rfl⟩ fun r _ => ?_
        cases r with
        | false =>
          refine safe_host ⟨fd, rfl⟩ fun _ _ => ?_
          refine safe_host ⟨by simp [Hold.next, Hold.linked], rfl⟩ fun _ _ => ?_
          have hend := Hold.next_release (P := P) known fd ssl false
          exact hend ▸ ih
        | true =>
          refine safe_host rfl fun args _ => ?_
          refine safe_host ⟨fd, ssl, rfl⟩ fun r _ => ?_
          cases r with
          | true => exact ih
          | false =>
            refine safe_hangUp rfl (by simp [Hold.next, Hold.linked]) (safe_host ?_ fun _ _ => ?_)
            · simp [Hold.next, Hold.linked, Hold.Admits]
            · have hend := Hold.next_withdraw (P := P) known args fd ssl
              exact hend ▸ ih

theorem safe_embed {α : Type} {p : Server P α} {k : α → Host P (Option ℕ)} {h : Hold} {fd ssl : ℕ}
    (hl : h.link = some (ssl, fd)) (hs : h.shaken = true) (hk : ∀ a, Keeps (k a) (.active h)) :
    Keeps (p.embed (HostCall.call ssl) (fun _ r => r) >>= k) (.active h) := by
  induction p with
  | ret a => exact hk a
  | throw => trivial
  | call o p ih => exact safe_host ⟨fd, hl, hs⟩ fun r _ => ih r

theorem safe_clientThread (fuel n : ℕ) :
    Keeps (P := P) (TcpServer.clientThread fuel n) (.waiting n) := by
  refine ⟨rfl, fun r _ => ?_⟩
  obtain ⟨args, fd, ssl⟩ := r
  refine safe_host (Finset.mem_insert_self _ _) fun _ _ => ?_
  rw [Hold.next_delete]
  refine safe_embed rfl rfl fun x => ?_
  cases x with
  | none => exact nofun
  | some x =>
    refine safe_hangUp rfl (by simp [Hold.linked]) fun _ => ?_
    exact ⟨[], congrArg Phase.active (Hold.next_release [] fd ssl true)⟩

theorem safe_require {x : Startup} {p : Host P (Option ℕ)} {known : List Startup}
    (hp : Keeps p (.active (.empty (x :: known)))) :
    Keeps (require x p) (.active (.empty known)) := by
  refine safe_host trivial fun r _ => ?_
  cases r with
  | false => exact fun _ => ⟨known, rfl⟩
  | true => exact hp

theorem safe_main (fuel : ℕ) : Keeps (P := P) (main fuel) (.active (.empty [])) := by
  refine safe_require <| safe_require <| safe_require <| safe_require <| safe_require ?_
  refine safe_host trivial fun r hr => ?_
  obtain rfl : r = true := hr
  refine safe_require <| safe_host trivial fun r _ => safe_host trivial fun r' _ => ?_
  have hserve : ∀ known, Startup.required ⊆ .listen :: .bind :: .socket :: known →
      Keeps (P := P) (TcpServer.setupSocket (TcpServer.start fuel)) (.active (.empty known)) :=
    fun known hknown => safe_require <| safe_require <| safe_require <| safe_start fuel hknown
  cases r <;> cases r' <;> exact hserve _ (by simp [Hold.next, Hold.empty, Startup.required])

end Threads

end CctvServer
