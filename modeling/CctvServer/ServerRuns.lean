import CctvServer.Connections

namespace CctvServer

variable {P : Platform}

namespace Threads

/-- The commands of the clients with a socket of their own and no more than the files and the
database in common. -/
def served (fuel : ℕ) (world : World P) (sockets : ℕ → Socket) : Clients P ℕ (Option Bool) where
  shared := world
  loc := sockets
  prog _ := TcpServer.handleClientSSL fuel
  trace := []

/-- What a step of a thread is among the steps of the clients. -/
def request (x : Option ℕ × Event (HostRes (P := P))) : Option (ℕ × Event (Res (P := P))) :=
  match x with
  | (some n, ⟨.call _ q, r⟩) => some (n, ⟨q, r⟩)
  | _ => none

def HandlesNoCommand (o : HostCall P) : Prop := ∀ ssl q, o ≠ .call ssl q

def Attends (o : HostCall P) : Prop := o ≠ .accept ∧ ∀ args, o ≠ .pthreadCreate args

def Parts (o : HostCall P) : Prop := HandlesNoCommand o ∧ Attends o

/-- What `clientThread` does after `handleClientSSL`. -/
def depart (fd ssl : ℕ) : Option Bool → Host P (Option ℕ)
  | none => return none
  | some _ => do
      TcpServer.hangUp fd ssl
      return some 0

def attend (fd ssl : ℕ) (p : Server P (Option Bool)) : Host P (Option ℕ) :=
  p.embed (HostCall.call ssl) (fun _ r => r) >>= depart fd ssl

theorem clientThread_eq (fuel n : ℕ) : TcpServer.clientThread (P := P) fuel n =
    .call (.threadArgs n) fun a => .call (.deleteArgs a.1) fun _ =>
      attend a.2.1 a.2.2 (TcpServer.handleClientSSL fuel) := rfl

theorem calls_depart (fd ssl : ℕ) (x : Option Bool) :
    (depart (P := P) fd ssl x).Calls Parts := by
  cases x with
  | none => trivial
  | some x =>
    have hparts : ∀ o : HostCall P, o = .sslShutdown ssl ∨ o = .sslFree ssl ∨ o = .close fd →
        Parts o := by
      rintro o (rfl | rfl | rfl) <;> exact ⟨nofun, nofun, nofun⟩
    exact ⟨hparts _ (.inl rfl), fun _ => ⟨hparts _ (.inr (.inl rfl)), fun _ =>
      ⟨hparts _ (.inr (.inr rfl)), fun _ => trivial⟩⟩⟩

theorem calls_clientThread (fuel n : ℕ) :
    (TcpServer.clientThread (P := P) fuel n).Calls Attends := by
  rw [clientThread_eq]
  refine ⟨⟨nofun, nofun⟩, fun a => ⟨⟨nofun, nofun⟩, fun _ => ?_⟩⟩
  exact Prog.calls_bind (Prog.calls_embed (fun _ => ⟨nofun, nofun⟩) _) fun x =>
    (calls_depart a.2.1 a.2.2 x).mono fun _ h => h.2

theorem calls_start (fuel : ℕ) : (TcpServer.start (P := P) fuel).Calls HandlesNoCommand := by
  induction fuel with
  | zero => trivial
  | succ fuel ih =>
    refine ⟨nofun, fun fd => ?_⟩
    cases fd with
    | none => exact ih
    | some fd =>
      refine ⟨nofun, fun ssl => ?_⟩
      cases ssl with
      | none => trivial
      | some ssl =>
        refine ⟨nofun, fun _ => ⟨nofun, fun r => ?_⟩⟩
        cases r with
        | false => exact ⟨nofun, fun _ => ⟨nofun, fun _ => ih⟩⟩
        | true =>
          refine ⟨nofun, fun args => ⟨nofun, fun r => ?_⟩⟩
          cases r with
          | true => exact ih
          | false =>
            exact ⟨nofun, fun _ => ⟨nofun, fun _ => ⟨nofun, fun _ => ⟨nofun, fun _ => ih⟩⟩⟩⟩

theorem calls_require {x : Startup} {p : Host P (Option ℕ)} (hp : p.Calls HandlesNoCommand) :
    (require x p).Calls HandlesNoCommand := by
  refine ⟨nofun, fun r => ?_⟩
  cases r with
  | false => trivial
  | true => exact hp

theorem calls_main (fuel : ℕ) : (main (P := P) fuel).Calls HandlesNoCommand := by
  refine calls_require <| calls_require <| calls_require <| calls_require <| calls_require ?_
  refine ⟨nofun, fun _ => calls_require ⟨nofun, fun _ => ⟨nofun, fun _ => ?_⟩⟩⟩
  exact calls_require <| calls_require <| calls_require <| calls_start fuel

theorem handleClientSSL_ne_throw (fuel : ℕ) :
    TcpServer.handleClientSSL (P := P) fuel ≠ .throw := by
  cases fuel with
  | zero => nofun
  | succ fuel =>
    rw [TcpServer.handleClientSSL_succ, TcpServer.readLine_succ]
    nofun

/-- Thread `n` at a phase with a program, the client's program and socket, and the socket the
client began with. -/
inductive Stage (fuel n : ℕ) (first : Socket) (s : Process P) :
    Phase → Host P (Option ℕ) → Server P (Option Bool) → Socket → Prop
  | waiting (h : ∀ args, s.started[n]? = some args → (s.peer (s.args args).1).socket = first) :
      Stage fuel n first s (.waiting n) (TcpServer.clientThread fuel n)
        (TcpServer.handleClientSSL fuel) first
  | begun {args fd ssl : ℕ} (h : (s.peer fd).socket = first) :
      Stage fuel n first s (.active (.handed [] args fd ssl))
        (.call (.deleteArgs args) fun _ => attend fd ssl (TcpServer.handleClientSSL fuel))
        (TcpServer.handleClientSSL fuel) first
  | serving {fd ssl : ℕ} {q : Server P (Option Bool)} :
      Stage fuel n first s (.active (.linked [] fd ssl true)) (attend fd ssl q) q
        (s.peer fd).socket
  | left {h : Hold} {p : Host P (Option ℕ)} {x : Option Bool} {k : Socket}
      (hp : p.Calls Parts) : Stage fuel n first s (.active h) p (.ret x) k

variable {fuel n : ℕ} {first : Socket} {s s' : Process P} {g : Phase} {p : Host P (Option ℕ)}
  {q : Server P (Option Bool)} {k : Socket}

theorem Stage.frame (h : Stage fuel n first s g p q k)
    (hpeer : ∀ fd, .fd fd ∈ (g.hold s).owned → s'.peer fd = s.peer fd)
    (hargs : ∀ args, .args args ∈ (g.hold s).owned → s'.args args = s.args args)
    (hstarted : s'.started[n]? = s.started[n]?) : Stage fuel n first s' g p q k := by
  cases h with
  | waiting h =>
    refine .waiting fun args ha => ?_
    rw [hstarted] at ha
    have hhold : (Phase.waiting n).hold s = .handed [] args (s.args args).1 (s.args args).2 := by
      simp only [Phase.hold, ha]
    rw [hhold] at hpeer hargs
    rw [hargs args (by simp [Hold.handed]), hpeer _ (by simp [Hold.handed])]
    exact h args ha
  | begun h =>
    refine .begun ?_
    rw [hpeer _ (by simp [Phase.hold, Hold.handed])]
    exact h
  | serving =>
    rename_i fd ssl
    rw [← hpeer fd (by simp [Phase.hold, Hold.linked])]
    exact .serving
  | left hp => exact .left hp

theorem Stage.enlist {m : ℕ} (h : Stage fuel n first s (.waiting m) p q k)
    (hs : ∀ args, s'.started[n]? = some args → (s'.peer (s'.args args).1).socket = first) :
    Stage fuel n first s' (.waiting m) p q k := by
  cases h with
  | waiting => exact .waiting hs

theorem Stage.ne_throw (h : Stage fuel n first s g p q k) (hp : p ≠ .throw) : q ≠ .throw := by
  intro hq
  cases h with
  | waiting => exact handleClientSSL_ne_throw fuel hq
  | begun => exact handleClientSSL_ne_throw fuel hq
  | serving =>
    subst hq
    exact hp rfl
  | left => cases hq

structure Spares (o : HostCall P) (s s' : Process P) : Prop where
  peer : ∀ fd, .fd fd ∈ s.live → (∀ ssl q, o = .call ssl q → s.fdOf ssl ≠ some fd) →
    s'.peer fd = s.peer fd
  args : ∀ args, .args args ∈ s.live → s'.args args = s.args args
  started : (∀ args, o ≠ .pthreadCreate args) → s'.started = s.started
  coming : o ≠ .accept → s'.coming = s.coming
  world : HandlesNoCommand o → s'.world = s.world

theorem answer_spares {o : HostCall P} {r : HostRes o} {w : Outcome}
    (he : Process.answer w o (s, ()) = (r, s', ())) : Spares o s s' := by
  have hsame : s' = s → Spares o s s' := by
    rintro rfl
    exact ⟨fun _ _ _ => rfl, fun _ _ => rfl, fun _ => rfl, fun _ => rfl, fun _ => rfl⟩
  cases o with
  | accept =>
    simp only [Process.answer] at he
    split at he <;> cases he
    · refine ⟨fun fd hfd _ => ?_, fun _ _ => rfl, fun _ => rfl, fun h => absurd rfl h, fun _ => rfl⟩
      have hne : fd ≠ s.pick .fd w.number := fun hn =>
        s.pick_fresh (h := .fd) (fun _ => rfl) w.number (hn ▸ hfd)
      exact Function.update_of_ne hne _ _
    · exact hsame rfl
  | newArgs fd ssl =>
    cases he
    refine ⟨fun _ _ _ => rfl, fun args hargs => ?_, fun _ => rfl, fun _ => rfl, fun _ => rfl⟩
    have hne : args ≠ s.pick .args w.number := fun hn =>
      s.pick_fresh (h := .args) (fun _ => rfl) w.number (hn ▸ hargs)
    exact Function.update_of_ne hne _ _
  | call ssl q =>
    have hcall : ¬ HandlesNoCommand (.call ssl q : HostCall P) := fun h => h ssl q rfl
    simp only [Process.answer] at he
    split at he <;> cases he
    · exact ⟨fun _ _ _ => rfl, fun _ _ => rfl, fun _ => rfl, fun _ => rfl, fun h => absurd h hcall⟩
    · rename_i fd hfd
      refine ⟨fun fd' _ hne => ?_, fun _ _ => rfl, fun _ => rfl, fun _ => rfl,
        fun h => absurd h hcall⟩
      have hfd' : fd' ≠ fd := fun h => hne ssl q rfl (h ▸ hfd)
      exact Function.update_of_ne hfd' _ _
  | pthreadCreate args =>
    simp only [Process.answer] at he
    split at he <;> cases he
    · exact hsame rfl
    · exact ⟨fun _ _ _ => rfl, fun _ _ => rfl, fun h => absurd rfl (h args), fun _ => rfl,
        fun _ => rfl⟩
  | _ =>
    simp only [Process.answer] at he
    (repeat' split at he) <;> cases he <;>
      exact ⟨fun _ _ _ => rfl, fun _ _ => rfl, fun _ => rfl, fun _ => rfl, fun _ => rfl⟩

/-- What the threads do for their clients is a run of the clients. -/
structure Mirrors (allowed : Call P → Outcome → Prop) (fuel : ℕ) (world : World P)
    (sockets : ℕ → Socket) (c : Threads P) (d : Clients P ℕ (Option Bool)) : Prop where
  reach : Config.Reach (World.Serves allowed) (fun _ _ _ => True) (served fuel world sockets) d
  shared : d.shared = c.shared.world
  trace : d.trace = c.trace.filterMap request
  stage : ∀ n, Stage fuel n (sockets n) c.shared (c.phases (some n)) (c.prog (some n)) (d.prog n)
    (d.loc n)

section

variable {allowed : Call P → Outcome → Prop} {world : World P} {sockets : ℕ → Socket}
  {c : Threads P} {d : Clients P ℕ (Option Bool)} {i : Option ℕ} {o : HostCall P} {r : HostRes o}
  {w : Outcome}

theorem stage_of_other (hk : Kept c.shared c.phases) (ha : custody.admits (c.phases i) o)
    (he : Process.answer w o (c.shared, ()) = (r, s', ())) (hi : i ≠ some n)
    (hnew : s'.started[n]? = c.shared.started[n]?)
    (h : Stage fuel n first c.shared (c.phases (some n)) p q k) :
    Stage fuel n first s' (c.phases (some n)) p q k := by
  have hs := answer_spares he
  refine h.frame (fun fd hfd => hs.peer fd (hk.owned.subset _ hfd) fun ssl q ho hf => ?_)
    (fun args hargs => hs.args args (hk.owned.subset _ hargs)) hnew
  have huse : Handle.fd fd ∈ o.uses c.shared := by
    simp [ho, HostCall.uses, Process.route, hf]
  exact hi (hk.owned.unique _ _ _ (hk.uses ha huse) hfd)

theorem phases_advance (e : Event (HostRes (P := P))) : phases (c.advance i e p (s', ())) =
    Function.update (phases c) i (custody.next (phases c i) e.1 e.2) :=
  Config.ghosts_advance custody Phase.initial c i e p (s', ())

theorem request_none (ho : HandlesNoCommand o) : request (i, ⟨o, r⟩) = none := by
  cases i with
  | none => rfl
  | some n =>
    cases o with
    | call ssl q => exact absurd rfl (ho ssl q)
    | _ => rfl

theorem Mirrors.rest (hm : Mirrors allowed fuel world sockets c d) (ho : HandlesNoCommand o)
    (he : Process.answer w o (c.shared, ()) = (r, s', ()))
    (hs : ∀ n, Stage fuel n (sockets n) s' (phases (c.advance i ⟨o, r⟩ p (s', ())) (some n))
      ((c.advance i ⟨o, r⟩ p (s', ())).prog (some n)) (d.prog n) (d.loc n)) :
    Mirrors allowed fuel world sockets (c.advance i ⟨o, r⟩ p (s', ())) d where
  reach := hm.reach
  shared := hm.shared.trans ((answer_spares he).world ho).symm
  trace := by simp [hm.trace, request_none ho]
  stage := hs

theorem stages_advance (hm : Mirrors allowed fuel world sockets c d)
    (hk : Kept c.shared c.phases) (ha : custody.admits (c.phases (some n)) o)
    (he : Process.answer w o (c.shared, ()) = (r, s', ()))
    (hnew : s'.started = c.shared.started)
    (hs : Stage fuel n (sockets n) s' (custody.next (c.phases (some n)) o r) p (d.prog n)
      (d.loc n)) (m : ℕ) :
    Stage fuel m (sockets m) s' (phases (c.advance (some n) ⟨o, r⟩ p (s', ())) (some m))
      ((c.advance (some n) ⟨o, r⟩ p (s', ())).prog (some m)) (d.prog m) (d.loc m) := by
  rw [phases_advance]
  by_cases hmn : m = n
  · subst hmn
    simpa using hs
  · have hne : some m ≠ some n := by simpa using hmn
    rw [Function.update_of_ne hne, Config.advance_prog_of_ne _ _ _ _ _ hne]
    exact stage_of_other hk ha he hne.symm (by rw [hnew]) (hm.stage m)

/-- A step of a client's thread is one of the client, or none of it. -/
theorem Mirrors.thread {k : HostRes o → Host P (Option ℕ)}
    (hm : Mirrors allowed fuel world sockets c d) (hk : Kept c.shared c.phases)
    (ha : custody.admits (c.phases (some n)) o) (halive : ∀ j, c.prog j ≠ .throw)
    (hp : c.prog (some n) = .call o k) (he : Process.answer w o (c.shared, ()) = (r, s', ()))
    (hw : ∀ ssl q, o = .call ssl q → allowed q w)
    (hready : ∀ m, o = .threadArgs m → m < c.shared.started.length) :
    ∃ d', Mirrors allowed fuel world sockets (c.advance (some n) ⟨o, r⟩ (k r) (s', ())) d' := by
  have hspares := answer_spares he
  have hstage := hm.stage n
  have hrest : HandlesNoCommand o → s'.started = c.shared.started →
      Stage fuel n (sockets n) s' (custody.next (c.phases (some n)) o r) (k r) (d.prog n)
        (d.loc n) →
      ∃ d', Mirrors allowed fuel world sockets (c.advance (some n) ⟨o, r⟩ (k r) (s', ())) d' :=
    fun ho hnew hs => ⟨d, hm.rest ho he (stages_advance hm hk ha he hnew hs)⟩
  generalize hg : c.phases (some n) = g at hstage ha hrest
  generalize hp' : c.prog (some n) = p at hstage hp
  generalize hq : d.prog n = q at hstage hrest
  generalize hl : d.loc n = l at hstage hrest
  cases hstage with
  | waiting h =>
    rw [clientThread_eq] at hp
    cases hp
    cases he
    have hn := hready n rfl
    refine hrest nofun rfl (.begun (h _ ?_))
    rw [List.getD_eq_getElem?_getD, List.getElem?_eq_getElem hn]
    rfl
  | begun h =>
    rename_i args fd ssl
    cases hp
    cases he
    refine hrest nofun rfl ?_
    have hnext : (custody (P := P)).next (.active (.handed [] args fd ssl)) (.deleteArgs args) () =
        .active (.linked [] fd ssl true) := congrArg Phase.active (Hold.next_delete [] args fd ssl)
    rw [hnext, ← h]
    exact .serving
  | serving =>
    rename_i fd ssl
    cases q with
    | ret x =>
      have hcalls := calls_depart (P := P) fd ssl x
      rw [show depart fd ssl x = .call o k from hp] at hcalls
      exact hrest hcalls.1.1 (hspares.started hcalls.1.2.2) (.left (hcalls.2 r))
    | throw => cases hp
    | call q kq =>
      cases hp
      obtain ⟨-, ssl', fd', hl', hf, -⟩ := (hk.sound_active hg).shaken rfl
      cases hl'
      obtain ⟨r', ⟨world', socket'⟩, hans⟩ :
          ∃ r' s', World.answer w q (c.shared.world, (c.shared.peer fd).socket) = (r', s') :=
        ⟨_, _, rfl⟩
      have he' := he
      simp only [Process.answer, hf, hans] at he'
      cases he'
      refine ⟨d.advance n ⟨q, r⟩ (kq r) (world', socket'), hm.reach.step
        (.call (fun j => (hm.stage j).ne_throw (halive _)) hq ⟨w, hw ssl q rfl, ?_⟩) trivial,
        rfl, ?_, fun m => ?_⟩
      · rw [hm.shared, hl]
        exact hans
      · simp [hm.trace, request]
      · rw [phases_advance]
        by_cases hmn : m = n
        · subst hmn
          have hserving : Stage fuel m (sockets m) { c.shared with
              world := world'
              peer := Function.update c.shared.peer fd { c.shared.peer fd with socket := socket' } }
              (.active (.linked [] fd ssl true)) (attend fd ssl (kq r)) (kq r) _ := .serving
          rw [Function.update_self, Config.advance_prog_self, Config.advance_prog_self,
            Config.advance_loc_self, hg]
          simp only [Function.update_self] at hserving
          exact hserving
        · have hne : some m ≠ some n := by simpa using hmn
          rw [Function.update_of_ne hne, Config.advance_prog_of_ne _ _ _ _ _ hne,
            Config.advance_prog_of_ne _ _ _ _ _ hmn, Config.advance_loc_of_ne _ _ _ _ _ hmn]
          exact stage_of_other hk (hg ▸ ha) he hne.symm rfl (hm.stage m)
  | left h =>
    rw [hp] at h
    exact hrest h.1.1 (hspares.started h.1.2.2) (.left (h.2 r))

end

def guests (l : List Peer) : List Socket := (l.filter Peer.certified).map Peer.socket

theorem guests_append (l l' : List Peer) : guests (l ++ l') = guests l ++ guests l' := by
  simp [guests]

/-- `sockets` are those of the clients that threads were created for. They and the client that
`main` is busy with are different ones of those accepted so far. -/
structure Queue (coming : List Peer) (s : Process P) (owned : Finset Handle)
    (sockets : List Socket) : Prop where
  length : sockets.length = s.started.length
  seen : ∃ before, coming = before ++ s.coming ∧ sockets.Sublist (guests before) ∧
    ∀ fd, .fd fd ∈ owned → (sockets ++ guests [s.peer fd]).Sublist (guests before)

variable {coming : List Peer} {owned owned' : Finset Handle} {sockets : List Socket}

theorem Queue.keep (h : Queue coming s owned sockets) (hstarted : s'.started = s.started)
    (hcoming : s'.coming = s.coming) (howned : ∀ fd, .fd fd ∈ owned' → .fd fd ∈ owned)
    (hpeer : ∀ fd, .fd fd ∈ owned → s'.peer fd = s.peer fd) : Queue coming s' owned' sockets := by
  obtain ⟨before, hbefore, hsub, hfd⟩ := h.seen
  refine ⟨hstarted ▸ h.length, before, hcoming ▸ hbefore, hsub, fun fd hm => ?_⟩
  rw [hpeer fd (howned fd hm)]
  exact hfd fd (howned fd hm)

theorem Hold.fd_of_next {h : Hold} {o : HostCall P} {r : HostRes o} (ho : o ≠ .accept) {fd : ℕ}
    (hm : .fd fd ∈ (h.next o r).owned) : .fd fd ∈ h.owned := by
  cases o with
  | accept => exact absurd rfl ho
  | startup x =>
    cases r
    · exact hm
    · exact hm
  | sslNew =>
    cases r
    · exact hm
    · simpa [Hold.next] using hm
  | newArgs _ _ => simpa [Hold.next] using hm
  | pthreadCreate args =>
    cases r
    · exact hm
    · exact absurd hm (Finset.notMem_empty _)
  | deleteArgs args => exact Finset.mem_of_mem_erase hm
  | sslFree ssl => exact Finset.mem_of_mem_erase hm
  | close fd' => exact Finset.mem_of_mem_erase hm
  | _ => exact hm

/-- A step of `main` creates at most one thread, for the client it is busy with. -/
theorem Queue.main {g : Option ℕ → Phase} {h : Hold} {o : HostCall P} {r : HostRes o} {w : Outcome}
    (hq : Queue coming s h.owned sockets) (hk : Kept s g) (hi : g none = .active h)
    (ha : h.Admits o) (ho : HandlesNoCommand o) (he : Process.answer w o (s, ()) = (r, s', ())) :
    (s'.started = s.started ∧ Queue coming s' (h.next o r).owned sockets) ∨
      ∃ args, s' = { s with started := s.started ++ [args] } ∧
        Queue coming s' (h.next o r).owned (sockets ++ [(s.peer (s.args args).1).socket]) := by
  have hs := answer_spares he
  have hkeep : o ≠ .accept → (∀ args, o ≠ .pthreadCreate args) →
      s'.started = s.started ∧ Queue coming s' (h.next o r).owned sockets := fun hacc hcreate =>
    ⟨hs.started hcreate, hq.keep (hs.started hcreate) (hs.coming hacc)
      (fun fd => Hold.fd_of_next hacc) fun fd hm => hs.peer fd (hk.mem_live hi hm) fun ssl q hc =>
        absurd hc (ho ssl q)⟩
  cases o with
  | accept =>
    left
    simp only [Process.answer] at he
    split at he <;> cases he
    · obtain ⟨before, hbefore, hsub, -⟩ := hq.seen
      rename_i peer rest _ hrest
      refine ⟨rfl, hq.length, before ++ [peer], by simp [hbefore, hrest], ?_, fun fd hm => ?_⟩
      · rw [guests_append]
        exact hsub.trans (List.sublist_append_left _ _)
      · simp only [Hold.next, ha.2, insert_empty_eq, Finset.mem_singleton, Handle.fd.injEq] at hm
        subst hm
        simp only [guests_append, Function.update_self]
        exact hsub.append (List.Sublist.refl _)
    · exact ⟨rfl, hq⟩
  | pthreadCreate args =>
    obtain ⟨fd, ssl, hh⟩ := ha
    have hsound := hk.sound_active hi
    simp only [Process.answer] at he
    split at he <;> cases he
    · exact .inl ⟨rfl, hq⟩
    · right
      refine ⟨args, rfl, by simp [hq.length], ?_⟩
      obtain ⟨before, hbefore, -, hfd⟩ := hq.seen
      rw [hh] at hfd hsound
      have hargs : s.args args = (fd, ssl) := (hsound.packed args fd ssl rfl).2
      obtain ⟨-, ssl', fd', hl, -, hcert⟩ := hsound.shaken rfl
      cases hl
      have hguest : guests [s.peer fd] = [(s.peer fd).socket] := by simp [guests, hcert]
      refine ⟨before, hbefore, ?_, fun fd hm => absurd hm (Finset.notMem_empty _)⟩
      rw [hargs, ← hguest]
      exact hfd fd (by simp [Hold.handed])
  | _ => exact .inl (hkeep (by simp) (by simp))

variable {allowed : Call P → Outcome → Prop} {world : World P} {c : Threads P}

/-- What the threads do for their clients is a run of the clients, whatever those send that
have no thread yet. -/
def Follows (allowed : Call P → Outcome → Prop) (fuel : ℕ) (world : World P) (coming : List Peer)
    (c : Threads P) : Prop :=
  ∃ sockets, Queue coming c.shared ((c.phases none).hold c.shared).owned sockets ∧
    ∀ σ : ℕ → Socket, (∀ n (hn : n < sockets.length), σ n = sockets[n]) →
      ∃ d, Mirrors allowed fuel world σ c d

theorem Kept.main_active {g : Option ℕ → Phase} (hk : Kept s g) : ∃ h, g none = .active h := by
  cases hg : g none with
  | waiting n => cases hk.begun none n hg
  | active h => exact ⟨h, rfl⟩

section

variable {o : HostCall P} {k : HostRes o → Host P (Option ℕ)} {r : HostRes o} {w : Outcome}

theorem Follows.main (hf : Follows allowed fuel world coming c) (hk : Kept c.shared c.phases)
    (ha : custody.admits (c.phases none) o) (ho : HandlesNoCommand o)
    (he : Process.answer w o (c.shared, ()) = (r, s', ())) (p : Host P (Option ℕ)) :
    Follows allowed fuel world coming (c.advance none ⟨o, r⟩ p (s', ())) := by
  obtain ⟨sockets, hq, hd⟩ := hf
  obtain ⟨h, hg⟩ := hk.main_active
  have hown : ((phases (c.advance none ⟨o, r⟩ p (s', ())) none).hold s').owned =
      (h.next o r).owned := by
    rw [phases_advance, Function.update_self, hg]
    rfl
  have hphase : ∀ n, phases (c.advance none ⟨o, r⟩ p (s', ())) (some n) = c.phases (some n) := by
    intro n
    rw [phases_advance, Function.update_of_ne (by simp)]
  have hother : ∀ {σ d} n, Mirrors allowed fuel world σ c d →
      s'.started[n]? = c.shared.started[n]? →
      Stage fuel n (σ n) s' (c.phases (some n)) (c.prog (some n)) (d.prog n) (d.loc n) :=
    fun n hm hnew => stage_of_other hk ha he (by simp) hnew (hm.stage n)
  have hlength := hq.length
  rw [hg] at hq ha
  obtain ⟨hstarted, hq⟩ | ⟨args, hs', hq⟩ := hq.main hk hg ha ho he
  · refine ⟨sockets, hown ▸ hq, fun σ hσ => ?_⟩
    obtain ⟨d, hm⟩ := hd σ hσ
    refine ⟨d, hm.rest ho he fun n => ?_⟩
    rw [hphase]
    exact hother n hm (by rw [hstarted])
  · refine ⟨_, hown ▸ hq, fun σ hσ => ?_⟩
    obtain ⟨d, hm⟩ := hd σ fun n hn => by
      rw [hσ n (by simp; omega), List.getElem_append_left hn]
    refine ⟨d, hm.rest ho he fun n => ?_⟩
    rw [hphase]
    by_cases hn : n = c.shared.started.length
    · have hstage := hm.stage n
      have hw := hk.waiting n (by omega)
      rw [hw] at hstage ⊢
      refine hstage.enlist fun args' hargs' => ?_
      subst hs' hn
      obtain rfl : args = args' := by simpa using hargs'
      rw [hσ _ (by simp [hlength])]
      simp [hlength]
    · refine hother n hm ?_
      subst hs'
      rcases Nat.lt_or_gt_of_ne hn with hn | hn
      · exact List.getElem?_append_left hn
      · rw [List.getElem?_eq_none (by simp; omega), List.getElem?_eq_none (by omega)]

theorem Follows.thread {n : ℕ} (hf : Follows allowed fuel world coming c)
    (hk : Kept c.shared c.phases) (ha : custody.admits (c.phases (some n)) o)
    (halive : ∀ j, c.prog j ≠ .throw) (hp : c.prog (some n) = .call o k) (ho : Attends o)
    (he : Process.answer w o (c.shared, ()) = (r, s', ()))
    (hw : ∀ ssl q, o = .call ssl q → allowed q w)
    (hready : ∀ m, o = .threadArgs m → m < c.shared.started.length) :
    Follows allowed fuel world coming (c.advance (some n) ⟨o, r⟩ (k r) (s', ())) := by
  obtain ⟨sockets, hq, hd⟩ := hf
  obtain ⟨h, hg⟩ := hk.main_active
  have hs := answer_spares he
  refine ⟨sockets, hq.keep (hs.started ho.2) (hs.coming ho.1) (fun fd hm => ?_) fun fd hm => ?_,
    fun σ hσ => ?_⟩
  · rw [phases_advance, Function.update_of_ne (by simp), hg] at hm
    rwa [hg]
  · refine hs.peer fd (hk.owned.subset none hm) fun ssl q hq hroute => ?_
    have huse : Handle.fd fd ∈ o.uses c.shared := by
      simp [hq, HostCall.uses, Process.route, hroute]
    cases hk.owned.unique _ _ _ (hk.uses ha huse) hm
  · obtain ⟨d, hm⟩ := hd σ hσ
    exact hm.thread hk ha halive hp he hw hready

end

theorem follows_of_reach
    (hr : Config.Reach (Process.Runs allowed) Ready (boot fuel world coming) c) :
    Follows allowed fuel world coming c := by
  have hcalls : ∀ c, Config.Reach (Process.Runs allowed) Ready (boot fuel world coming) c →
      (c.prog none).Calls HandlesNoCommand ∧ ∀ n, (c.prog (some n)).Calls Attends := by
    intro c hr
    have h := hr.calls (C := fun i : Option ℕ => if i = none then HandlesNoCommand else Attends)
      fun i => by
        cases i with
        | none => exact calls_main fuel
        | some n => exact calls_clientThread fuel n
    exact ⟨h none, fun n => h (some n)⟩
  refine hr.invariant (I := Follows allowed fuel world coming) ?_ ?_
  · refine ⟨[], ⟨rfl, [], rfl, List.Sublist.refl _, fun fd hm => absurd hm (Finset.notMem_empty _)⟩,
      fun σ _ => ⟨_, .refl, rfl, rfl, fun n => .waiting nofun⟩⟩
  · rintro c i e c' hr hf hstep hready
    cases hstep with
    | @call o k r s halive hp he =>
      obtain ⟨s', ⟨⟩⟩ := s
      obtain ⟨w, hw, he⟩ := he
      obtain ⟨-, hk⟩ := kept_of_reach hr
      have ha := admits_of_asks hr ⟨k, hp⟩
      obtain ⟨hmain, hthreads⟩ := hcalls c hr
      cases i with
      | none =>
        rw [hp] at hmain
        exact hf.main hk ha hmain.1 he (k r)
      | some n =>
        have hn := hthreads n
        rw [hp] at hn
        exact hf.thread hk ha halive hp hn.1 he hw hready

/-- Every run of the process is one of its clients' commands, each at a connection of its own:
the threads created so far serve different clients with certificates, in the order in which
they came, and what these have done to the files and the database is what the commands do
without `main`, the handshakes and the coming and going of threads. -/
theorem threads_run_clients
    (hr : Config.Reach (Process.Runs allowed) Ready (boot fuel world coming) c) :
    ∃ sockets : List Socket, sockets.length = c.shared.started.length ∧
      sockets.Sublist (guests coming) ∧
      ∀ σ : ℕ → Socket, (∀ n (hn : n < sockets.length), σ n = sockets[n]) →
        ∃ d, Config.Reach (World.Serves allowed) (fun _ _ _ => True) (served fuel world σ) d ∧
          d.shared = c.shared.world ∧ d.trace = c.trace.filterMap request := by
  obtain ⟨sockets, hq, hd⟩ := follows_of_reach hr
  obtain ⟨before, hbefore, hsub, -⟩ := hq.seen
  refine ⟨sockets, hq.length, ?_, fun σ hσ => ?_⟩
  · rw [hbefore, guests_append]
    exact hsub.trans (List.sublist_append_left _ _)
  · obtain ⟨d, hm⟩ := hd σ hσ
    exact ⟨d, hm.reach, hm.shared, hm.trace⟩

theorem admission_runs_clients : ∃ d, Config.Reach (World.Serves World.Faultless)
      (fun _ _ _ => True) (served 3 twoPeers.shared.world fun _ => ⟨ascii "X\n", []⟩) d ∧
    d.trace = [(0, ⟨.sslReadChar, some 88⟩)] := by
  obtain ⟨sockets, hlength, hsub, hrun⟩ := threads_run_clients admission_reach
  have hsockets : sockets = [⟨ascii "X\n", []⟩] := hsub.eq_of_length hlength
  obtain ⟨d, hd, -, htrace⟩ := hrun (fun _ => ⟨ascii "X\n", []⟩) fun n hn => by
    subst hsockets
    obtain rfl : n = 0 := by simpa using hn
    rfl
  exact ⟨d, hd, htrace⟩

end Threads

end CctvServer
