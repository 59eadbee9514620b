import CctvServer.Routing

namespace CctvServer

open CommandHandler TcpServer

variable {P : Platform}

structure RequestLine where
  bytes : Bytes
  noNewline : (10 : UInt8) ∉ bytes
  noUpload : isUpload bytes = false
  noGetImage : isGetImage bytes = false

def sent (ending : Bytes) (lines : List RequestLine) : Bytes :=
  lines.flatMap fun l => l.bytes ++ ending

/-- What a line is answered with: the empty one is passed over. -/
def answerLine (cmd : Bytes) : Server P Unit := if cmd = [10] then return () else serveCommand cmd

theorem isPrefixOf_concat {n l : Bytes} {c : UInt8} (hc : c ∉ n) :
    n.isPrefixOf (l ++ [c]) = n.isPrefixOf l := by
  rw [Bool.eq_iff_iff, List.isPrefixOf_iff_prefix, List.isPrefixOf_iff_prefix,
    List.prefix_concat_iff, or_iff_right]
  intro h
  exact hc (h ▸ List.mem_concat_self)

/-- A line with its newline that is neither an upload nor a download. -/
structure PlainLine (cmd : Bytes) : Prop where
  line : ∃ l, cmd = l ++ [10] ∧ (10 : UInt8) ∉ l
  noUpload : isUpload cmd = false
  noGetImage : isGetImage cmd = false

theorem RequestLine.plain_lf (l : RequestLine) : PlainLine (l.bytes ++ [10]) where
  line := ⟨_, rfl, l.noNewline⟩
  noUpload := (isPrefixOf_concat (by decide)).trans l.noUpload
  noGetImage := (isPrefixOf_concat (by decide)).trans l.noGetImage

theorem RequestLine.plain_crlf (l : RequestLine) : PlainLine (l.bytes ++ [13, 10]) where
  line := ⟨l.bytes ++ [13], by simp, by simp [l.noNewline]⟩
  noUpload := by
    rw [List.append_cons, isUpload, isPrefixOf_concat (by decide), isPrefixOf_concat (by decide)]
    exact l.noUpload
  noGetImage := by
    rw [List.append_cons, isGetImage, isPrefixOf_concat (by decide), isPrefixOf_concat (by decide)]
    exact l.noGetImage

section Sessions

variable {allowed : Call P → Outcome → Prop} {w : World P} {out : Bytes}

/-- The calls that others can notice: a line is taken and logged in silence. -/
def visible (log : List (Event (Res (P := P)))) : List (Event (Res (P := P))) :=
  log.filter fun e => match e.1 with
    | .sslReadChar | .received _ => false
    | _ => true

theorem visible_append (a b : List (Event (Res (P := P)))) :
    visible (a ++ b) = visible a ++ visible b := List.filter_append ..

theorem visible_quiet {log : List (Event (Res (P := P)))} (h : ∀ e ∈ log, e.1.Quiet) :
    visible log = log := by
  refine List.filter_eq_self.mpr fun e he => ?_
  have hquiet := h e he
  obtain ⟨o, r⟩ := e
  cases o <;> first | exact hquiet.elim | rfl

def Breaks (allowed : Call P → Outcome → Prop) : Prop :=
  ∃ ω, allowed .sslReadChar ω ∧ ω.failed = true

def Delivers (allowed : Call P → Outcome → Prop) : Prop :=
  ∃ ω, allowed .sslReadChar ω ∧ ω.failed = false

def Logs (allowed : Call P → Outcome → Prop) : Prop := ∀ cmd, ∃ ω, allowed (.received cmd) ω

/-- A client's requests are answered in order until they are all answered, the
connection breaks, or an exception ends the server. -/
inductive AnswersInTurn (allowed : Call P → Outcome → Prop) : List (Server P Unit) →
    World P × Bytes → List (Event (Res (P := P))) → Option (Option Bool) → World P × Bytes → Prop
  | done {s : World P × Bytes} : Delivers allowed →
      AnswersInTurn allowed [] s [] (some (some false)) s
  | broken {requests : List (Server P Unit)} {s : World P × Bytes} : Breaks allowed →
      AnswersInTurn allowed requests s [] (some (some false)) s
  | next {p : Server P Unit} {requests : List (Server P Unit)} {s s₁ s' : World P × Bytes}
      {tr log : List (Event (Res (P := P)))} {x : Option (Option Bool)} : Delivers allowed →
      Prog.Runs (World.Serves allowed) p (s.1, ⟨[], s.2⟩) tr (some ()) (s₁.1, ⟨[], s₁.2⟩) →
      AnswersInTurn allowed requests s₁ log x s' →
      AnswersInTurn allowed (p :: requests) s (tr ++ log) x s'
  | thrown {p : Server P Unit} {requests : List (Server P Unit)} {s s' : World P × Bytes}
      {tr : List (Event (Res (P := P)))} : Delivers allowed →
      Prog.Runs (World.Serves allowed) p (s.1, ⟨[], s.2⟩) tr none (s'.1, ⟨[], s'.2⟩) →
      AnswersInTurn allowed (p :: requests) s tr none s'

/-- A connection that carries this stream is served to its end. -/
def Session (allowed : Call P → Outcome → Prop) (stream : Bytes) (s : World P × Bytes)
    (log : List (Event (Res (P := P)))) (x : Option (Option Bool)) (s' : World P × Bytes) : Prop :=
  ∃ fuel tr inp, Prog.Runs (World.Serves allowed) (handleClientSSL fuel) (s.1, ⟨stream, s.2⟩) tr x
    (s'.1, ⟨inp, s'.2⟩) ∧ x ≠ some none ∧ visible tr = log

theorem serves_sslReadChar {r : Option UInt8} {inp : Bytes} {s' : World P × Socket} :
    World.Serves allowed .sslReadChar (w, ⟨inp, out⟩) r s' ↔
      (Breaks allowed ∧ r = none ∧ s' = (w, ⟨[], out⟩)) ∨
        (Delivers allowed ∧ r = inp.head? ∧ s' = (w, ⟨inp.tail, out⟩)) := by
  constructor
  · rintro ⟨ω, hω, hans⟩
    simp only [World.answer] at hans
    split at hans
    · cases hans
      exact .inl ⟨⟨ω, hω, by assumption⟩, rfl, rfl⟩
    · cases hans
      exact .inr ⟨⟨ω, hω, by simpa using ‹¬ω.failed = true›⟩, rfl, rfl⟩
  · rintro (⟨⟨ω, hω, hf⟩, rfl, rfl⟩ | ⟨⟨ω, hω, hf⟩, rfl, rfl⟩)
    · exact ⟨ω, hω, by simp [World.answer, hf]⟩
    · exact ⟨ω, hω, by simp [World.answer, hf]⟩

theorem runs_readLine {fuel : ℕ} {acc l rest : Bytes} {tr : List (Event (Res (P := P)))}
    {x : Option Line} {s' : World P × Socket} (hl : (10 : UInt8) ∉ l)
    (h : Prog.Runs (World.Serves allowed) (readLine fuel acc) (w, ⟨l ++ 10 :: rest, out⟩) tr x s') :
    x = some .pending ∨ (Breaks allowed ∧ x = some .ended ∧ s' = (w, ⟨[], out⟩)) ∨
      (Delivers allowed ∧ x = some (.line (acc ++ (l ++ [10]))) ∧ s' = (w, ⟨rest, out⟩)) := by
  induction fuel generalizing acc l tr with
  | zero => exact .inl h.2.1
  | succ fuel ih =>
    rw [readLine_succ] at h
    obtain ⟨r, s₁, tr', he, hrun, rfl⟩ := h
    rcases serves_sslReadChar.mp he with ⟨hb, rfl, rfl⟩ | ⟨hd, rfl, rfl⟩
    · exact .inr (.inl ⟨hb, hrun.2.1, hrun.2.2⟩)
    · -- the newline ends the line, every other byte goes on with one unit of fuel less
      cases l with
      | nil => exact .inr (.inr ⟨hd, hrun.2.1, hrun.2.2⟩)
      | cons c l =>
        rw [List.mem_cons, not_or] at hl
        simp only [List.cons_append, List.head?_cons, List.tail_cons, if_neg (Ne.symm hl.1)] at hrun
        have hrest := ih hl.2 hrun
        rwa [List.append_assoc, List.singleton_append, ← List.cons_append] at hrest

theorem runs_readLine_nil {fuel : ℕ} {acc : Bytes} {tr : List (Event (Res (P := P)))}
    {x : Option Line} {s' : World P × Socket}
    (h : Prog.Runs (World.Serves allowed) (readLine fuel acc) (w, ⟨[], out⟩) tr x s') :
    x = some .pending ∨
      ((Breaks allowed ∨ Delivers allowed) ∧ x = some .ended ∧ s' = (w, ⟨[], out⟩)) := by
  cases fuel with
  | zero => exact .inl h.2.1
  | succ fuel =>
    obtain ⟨r, s₁, tr', he, hrun, rfl⟩ := h
    rcases serves_sslReadChar.mp he with ⟨hb, rfl, rfl⟩ | ⟨hd, rfl, rfl⟩
    · exact .inr ⟨.inl hb, hrun.2.1, hrun.2.2⟩
    · exact .inr ⟨.inr hd, hrun.2.1, hrun.2.2⟩

theorem visible_readLine {fuel : ℕ} {acc : Bytes} {tr : List (Event (Res (P := P)))}
    {x : Option Line} {s s' : World P × Socket}
    (h : Prog.Runs (World.Serves allowed) (readLine fuel acc) s tr x s') : visible tr = [] := by
  have hcalls := (calls_readLine (C := fun o => o = .sslReadChar) rfl fuel acc).of_runs h
  refine List.filter_eq_nil_iff.mpr fun e he => ?_
  have hread := hcalls e he
  obtain ⟨o, r⟩ := e
  subst hread
  simp

/-- What takes nothing from the connection runs alike whatever is still to arrive. -/
theorem runs_quiet_iff {α : Type} {p : Server P α} (hp : p.Calls Call.Quiet) {i j : Bytes}
    {s : World P × Bytes} {tr : List (Event (Res (P := P)))} {x : Option α}
    {s' : World P × Socket} : Prog.Runs (World.Serves allowed) p (s.1, ⟨i, s.2⟩) tr x s' ↔
      s'.2.inp = i ∧
        Prog.Runs (World.Serves allowed) p (s.1, ⟨j, s.2⟩) tr x (s'.1, ⟨j, s'.2.out⟩) := by
  have hcarry : ∀ (n : Bytes) (o : Call P), o.Quiet → ∀ s r s', World.Serves allowed o s r s' →
      World.Serves allowed o (s.1, { s.2 with inp := n }) r (s'.1, { s'.2 with inp := n }) := by
    rintro n o ho ⟨w, i, out⟩ r s' ⟨ω, hω, hans⟩
    refine ⟨ω, hω, ?_⟩
    rw [World.answer_quiet ho ω w i n out, hans]
  constructor
  · intro h
    have hinp : s'.2.inp = i := hp.frame (fun s => s.2.inp) (fun o ho s r s' hE => by
        obtain ⟨ω, -, hans⟩ := hE
        have := World.answer_inp ho ω s.1 s.2
        rwa [hans] at this) h
    exact ⟨hinp, hp.carry _ (hcarry j) h⟩
  · rintro ⟨rfl, h⟩
    exact hp.carry _ (hcarry s'.2.inp) h

/-- A request that was answered alone is answered so before others. -/
theorem runs_ahead {α : Type} {p : Server P α} (hp : p.Calls Call.Quiet) {s s' : World P × Bytes}
    {tr : List (Event (Res (P := P)))} {x : Option α}
    (h : Prog.Runs (World.Serves allowed) p (s.1, ⟨[], s.2⟩) tr x (s'.1, ⟨[], s'.2⟩))
    (rest : Bytes) :
    Prog.Runs (World.Serves allowed) p (s.1, ⟨rest, s.2⟩) tr x (s'.1, ⟨rest, s'.2⟩) :=
  (runs_quiet_iff hp).mpr ⟨rfl, h⟩

theorem serveLine_plain {cmd : Bytes} (h : PlainLine cmd) (hne : cmd ≠ [10]) (fuel : ℕ) :
    serveLine (P := P) fuel (.line cmd) = .call (.received cmd) fun _ =>
      serveCommand cmd >>= fun _ => handleClientSSL fuel := by
  have hroute : routeLine cmd = (Command.ofWord (splitCommand cmd).1).map .command := by
    simp [routeLine, h.noUpload, h.noGetImage]
  rw [serveLine, if_neg hne, hroute, ← serveCommand_bind]

theorem runs_serveLine {cmd rest : Bytes} (hcmd : PlainLine cmd) {fuel : ℕ} {s : World P × Bytes}
    {tr : List (Event (Res (P := P)))} {x : Option (Option Bool)} {s' : World P × Socket}
    (h : Prog.Runs (World.Serves allowed) (serveLine fuel (.line cmd)) (s.1, ⟨rest, s.2⟩) tr x s') :
    (∃ (s₁ : World P × Bytes) (tr₁ tr₂ : List (Event (Res (P := P)))),
      Prog.Runs (World.Serves allowed) (answerLine cmd) (s.1, ⟨[], s.2⟩) tr₁ (some ())
        (s₁.1, ⟨[], s₁.2⟩) ∧
      Prog.Runs (World.Serves allowed) (handleClientSSL fuel) (s₁.1, ⟨rest, s₁.2⟩) tr₂ x s' ∧
      visible tr = tr₁ ++ visible tr₂) ∨
    (x = none ∧ Prog.Runs (World.Serves allowed) (answerLine cmd) (s.1, ⟨[], s.2⟩) (visible tr) none
      (s'.1, ⟨[], s'.2.out⟩)) := by
  by_cases hne : cmd = [10]
  · rw [serveLine, if_pos hne] at h
    refine .inl ⟨s, [], tr, ?_, h, rfl⟩
    rw [answerLine, if_pos hne]
    exact ⟨rfl, rfl, rfl⟩
  · rw [serveLine_plain hcmd hne] at h
    rw [answerLine, if_neg hne]
    obtain ⟨r, s₀, tr', ⟨ω, -, hans⟩, hturn, rfl⟩ := h
    cases hans
    have hlogged : visible (⟨.received cmd, ()⟩ :: tr') = visible tr' := rfl
    rw [hlogged]
    rcases Prog.runs_bind.mp hturn with ⟨⟨⟩, s₁, tr₁, tr₂, hserve, hrun, rfl⟩ | ⟨rfl, hserve⟩
    · have hsilent := visible_quiet ((calls_serveCommand cmd).of_runs hserve)
      obtain ⟨w₁, i₁, out₁⟩ := s₁
      obtain ⟨rfl, hreply⟩ := (runs_quiet_iff (calls_serveCommand cmd) (j := [])).mp hserve
      exact .inl ⟨(w₁, out₁), tr₁, tr₂, hreply, hrun, by rw [visible_append, hsilent]⟩
    · rw [visible_quiet ((calls_serveCommand cmd).of_runs hserve)]
      exact .inr ⟨rfl, ((runs_quiet_iff (calls_serveCommand cmd)).mp hserve).2⟩

theorem runs_readLine_flatten {cmds : List Bytes} (hcmds : ∀ cmd ∈ cmds, PlainLine cmd) {fuel : ℕ}
    {tr : List (Event (Res (P := P)))} {x : Option Line} {s' : World P × Socket}
    (h : Prog.Runs (World.Serves allowed) (readLine fuel []) (w, ⟨cmds.flatten, out⟩) tr x s') :
    x = some .pending ∨
      ((Breaks allowed ∨ (Delivers allowed ∧ cmds = [])) ∧ x = some .ended ∧
        s' = (w, ⟨[], out⟩)) ∨
      (Delivers allowed ∧ ∃ cmd rest, cmds = cmd :: rest ∧ x = some (.line cmd) ∧
        s' = (w, ⟨rest.flatten, out⟩)) := by
  cases cmds with
  | nil =>
    rcases runs_readLine_nil h with hx | ⟨hbd, hx, hs⟩
    · exact .inl hx
    · exact .inr (.inl ⟨hbd.imp_right fun hd => ⟨hd, rfl⟩, hx, hs⟩)
  | cons cmd rest =>
    obtain ⟨l, rfl, hl⟩ := (hcmds cmd List.mem_cons_self).line
    rw [List.flatten_cons, List.append_assoc, List.singleton_append] at h
    rcases runs_readLine hl h with hx | ⟨hb, hx, hs⟩ | ⟨hd, hx, hs⟩
    · exact .inl hx
    · exact .inr (.inl ⟨.inl hb, hx, hs⟩)
    · exact .inr (.inr ⟨hd, _, rest, rfl, hx, hs⟩)

theorem answers_of_runs {cmds : List Bytes} (hcmds : ∀ cmd ∈ cmds, PlainLine cmd) {fuel : ℕ}
    {s s' : World P × Bytes} {tr : List (Event (Res (P := P)))} {x : Option (Option Bool)}
    {inp : Bytes} (hx : x ≠ some none)
    (h : Prog.Runs (World.Serves allowed) (handleClientSSL fuel) (s.1, ⟨cmds.flatten, s.2⟩) tr x
      (s'.1, ⟨inp, s'.2⟩)) :
    AnswersInTurn allowed (cmds.map answerLine) s (visible tr) x s' := by
  -- one turn of the loop costs one unit of fuel and takes one line off the stream
  induction fuel generalizing cmds s tr with
  | zero => exact absurd h.2.1 hx
  | succ fuel ih =>
    rw [handleClientSSL_routeLine] at h
    rcases Prog.runs_bind.mp h with ⟨line, s₁, tr₁, tr₂, hread, hrun, rfl⟩ | ⟨-, hread⟩
    · rw [visible_append, visible_readLine hread, List.nil_append]
      rcases runs_readLine_flatten hcmds hread with hp | ⟨hend, hp, rfl⟩ |
        ⟨hd, cmd, rest, rfl, hp, rfl⟩
      · cases hp
        exact absurd hrun.2.1 hx
      · cases hp
        obtain ⟨rfl, rfl, hs⟩ := hrun
        cases s'
        cases hs
        rcases hend with hb | ⟨hd, rfl⟩
        · exact .broken hb
        · exact .done hd
      · cases hp
        have hrest : ∀ c ∈ rest, PlainLine c := fun c hc => hcmds c (List.mem_cons_of_mem _ hc)
        rcases runs_serveLine (hcmds cmd List.mem_cons_self) hrun with
          ⟨s₂, tr₃, tr₄, hreply, hrun, htr⟩ | ⟨rfl, hreply⟩
        · rw [htr]
          exact .next hd hreply (ih hrest hrun)
        · exact .thrown hd hreply
    · -- the line reader does not throw
      rcases runs_readLine_flatten hcmds hread with hp | ⟨-, hp, -⟩ | ⟨-, cmd, rest, -, hp, -⟩ <;>
        cases hp

theorem readLine_ends {inp : Bytes} (h : Breaks allowed ∨ (Delivers allowed ∧ inp = []))
    (fuel : ℕ) (acc : Bytes) : ∃ tr, Prog.Runs (World.Serves allowed) (readLine (fuel + 1) acc)
      (w, ⟨inp, out⟩) tr (some .ended) (w, ⟨[], out⟩) := by
  have hread : World.Serves allowed .sslReadChar (w, ⟨inp, out⟩) none (w, ⟨[], out⟩) := by
    rcases h with hb | ⟨hd, rfl⟩
    · exact serves_sslReadChar.mpr (.inl ⟨hb, rfl, rfl⟩)
    · exact serves_sslReadChar.mpr (.inr ⟨hd, rfl, rfl⟩)
  rw [readLine_succ]
  exact ⟨_, _, _, _, hread, ⟨rfl, rfl, rfl⟩, rfl⟩

theorem readLine_delivers (hd : Delivers allowed) {fuel : ℕ} {acc l rest : Bytes}
    (hl : (10 : UInt8) ∉ l) (hfuel : l.length < fuel) :
    ∃ tr, Prog.Runs (World.Serves allowed) (readLine fuel acc) (w, ⟨l ++ 10 :: rest, out⟩) tr
      (some (.line (acc ++ (l ++ [10])))) (w, ⟨rest, out⟩) := by
  induction l generalizing fuel acc with
  | nil =>
    obtain ⟨n, rfl⟩ := Nat.exists_eq_add_of_lt hfuel
    rw [readLine_succ]
    exact ⟨_, _, _, _, serves_sslReadChar.mpr (.inr ⟨hd, rfl, rfl⟩), ⟨rfl, rfl, rfl⟩, rfl⟩
  | cons c l ih =>
    rw [List.mem_cons, not_or] at hl
    obtain ⟨n, rfl⟩ := Nat.exists_eq_add_of_lt hfuel
    have hlen : l.length < (c :: l).length + n := by
      rw [List.length_cons]
      omega
    obtain ⟨tr, hrun⟩ := @ih _ (acc ++ [c]) hl.2 hlen
    rw [List.append_assoc, List.singleton_append, ← List.cons_append] at hrun
    rw [readLine_succ]
    refine ⟨_, some c, _, tr, serves_sslReadChar.mpr (.inr ⟨hd, rfl, rfl⟩), ?_, rfl⟩
    simp only [if_neg (Ne.symm hl.1)]
    exact hrun

theorem serveLine_next (hlogs : Logs allowed) {cmd rest : Bytes} (hcmd : PlainLine cmd) {fuel : ℕ}
    {s s₁ : World P × Bytes} {tr₁ tr₂ : List (Event (Res (P := P)))} {x : Option (Option Bool)}
    {s' : World P × Socket}
    (hreply : Prog.Runs (World.Serves allowed) (answerLine cmd) (s.1, ⟨[], s.2⟩) tr₁ (some ())
      (s₁.1, ⟨[], s₁.2⟩))
    (hrun : Prog.Runs (World.Serves allowed) (handleClientSSL fuel) (s₁.1, ⟨rest, s₁.2⟩) tr₂ x s') :
    ∃ tr, Prog.Runs (World.Serves allowed) (serveLine fuel (.line cmd)) (s.1, ⟨rest, s.2⟩) tr x s' ∧
      visible tr = tr₁ ++ visible tr₂ := by
  by_cases hne : cmd = [10]
  · rw [answerLine, if_pos hne] at hreply
    obtain ⟨rfl, -, hs⟩ := hreply
    cases s
    cases s₁
    cases hs
    exact ⟨tr₂, by rwa [serveLine, if_pos hne], rfl⟩
  · rw [answerLine, if_neg hne] at hreply
    have hsilent := visible_quiet ((calls_serveCommand cmd).of_runs hreply)
    have hserve := runs_ahead (calls_serveCommand cmd) hreply rest
    obtain ⟨ω, hω⟩ := hlogs cmd
    -- the log entry comes first, and nobody sees it
    refine ⟨⟨.received cmd, ()⟩ :: (tr₁ ++ tr₂), ?_, ?_⟩
    · rw [serveLine_plain hcmd hne]
      exact ⟨(), _, _, ⟨ω, hω, rfl⟩,
        Prog.runs_bind.mpr (.inl ⟨(), _, _, _, hserve, hrun, rfl⟩), rfl⟩
    · change visible (tr₁ ++ tr₂) = _
      rw [visible_append, hsilent]

theorem serveLine_thrown (hlogs : Logs allowed) {cmd : Bytes} (hcmd : PlainLine cmd) (rest : Bytes)
    (fuel : ℕ) {s s' : World P × Bytes} {tr : List (Event (Res (P := P)))}
    (hreply : Prog.Runs (World.Serves allowed) (answerLine cmd) (s.1, ⟨[], s.2⟩) tr none
      (s'.1, ⟨[], s'.2⟩)) :
    ∃ tr', Prog.Runs (World.Serves allowed) (serveLine fuel (.line cmd)) (s.1, ⟨rest, s.2⟩) tr' none
      (s'.1, ⟨rest, s'.2⟩) ∧ visible tr' = tr := by
  by_cases hne : cmd = [10]
  · rw [answerLine, if_pos hne] at hreply
    cases hreply.2.1
  · rw [answerLine, if_neg hne] at hreply
    have hserve := runs_ahead (calls_serveCommand cmd) hreply rest
    obtain ⟨ω, hω⟩ := hlogs cmd
    refine ⟨⟨.received cmd, ()⟩ :: tr, ?_, ?_⟩
    · rw [serveLine_plain hcmd hne]
      exact ⟨(), _, _, ⟨ω, hω, rfl⟩, Prog.runs_bind.mpr (.inr ⟨rfl, hserve⟩), rfl⟩
    · change visible tr = _
      exact visible_quiet ((calls_serveCommand cmd).of_runs hreply)

theorem handleClientSSL_ends {inp : Bytes} (h : Breaks allowed ∨ (Delivers allowed ∧ inp = []))
    (fuel : ℕ) : ∃ tr i, Prog.Runs (World.Serves allowed) (handleClientSSL (fuel + 1))
      (w, ⟨inp, out⟩) tr (some (some false)) (w, ⟨i, out⟩) ∧ visible tr = [] := by
  obtain ⟨tr, hread⟩ := readLine_ends h fuel []
  refine ⟨tr ++ [], [], ?_, ?_⟩
  · rw [handleClientSSL_routeLine]
    exact Prog.runs_bind.mpr (.inl ⟨_, _, _, _, hread, ⟨rfl, rfl, rfl⟩, rfl⟩)
  · rw [List.append_nil, visible_readLine hread]

theorem handleClientSSL_line (hd : Delivers allowed) {fuel : ℕ} {l rest : Bytes}
    (hl : (10 : UInt8) ∉ l) (hfuel : l.length < fuel + 1) {log : List (Event (Res (P := P)))}
    {x : Option (Option Bool)} {s' : World P × Socket}
    (h : ∃ tr, Prog.Runs (World.Serves allowed) (serveLine fuel (.line (l ++ [10])))
      (w, ⟨rest, out⟩) tr x s' ∧ visible tr = log) :
    ∃ tr, Prog.Runs (World.Serves allowed) (handleClientSSL (fuel + 1)) (w, ⟨l ++ 10 :: rest, out⟩)
      tr x s' ∧ visible tr = log := by
  obtain ⟨tr₁, hread⟩ : ∃ tr, Prog.Runs (World.Serves allowed) (readLine (fuel + 1) [])
      (w, ⟨l ++ 10 :: rest, out⟩) tr (some (.line (l ++ [10]))) (w, ⟨rest, out⟩) :=
    readLine_delivers hd hl hfuel
  obtain ⟨tr₂, hturn, hlog⟩ := h
  refine ⟨tr₁ ++ tr₂, ?_, ?_⟩
  · rw [handleClientSSL_routeLine]
    exact Prog.runs_bind.mpr (.inl ⟨_, _, _, _, hread, hturn, rfl⟩)
  · rw [visible_append, visible_readLine hread, List.nil_append, hlog]

/-- Lines that are answered one by one are answered so by the loop, given fuel for each byte. -/
theorem runs_of_answers (hlogs : Logs allowed) {cmds : List Bytes}
    (hcmds : ∀ cmd ∈ cmds, PlainLine cmd) {fuel : ℕ} (hfuel : cmds.flatten.length < fuel)
    {s s' : World P × Bytes}
    {log : List (Event (Res (P := P)))} {x : Option (Option Bool)}
    (h : AnswersInTurn allowed (cmds.map answerLine) s log x s') :
    ∃ inp tr, Prog.Runs (World.Serves allowed) (handleClientSSL fuel) (s.1, ⟨cmds.flatten, s.2⟩) tr
      x (s'.1, ⟨inp, s'.2⟩) ∧ visible tr = log := by
  induction cmds generalizing fuel s log with
  | nil =>
    obtain ⟨n, rfl⟩ := Nat.exists_eq_add_of_lt hfuel
    -- the connection breaks before the line, or the line is read and answered
    cases h with
    | done hd =>
      obtain ⟨tr, i, hrun⟩ := handleClientSSL_ends (.inr ⟨hd, rfl⟩) _
      exact ⟨i, tr, hrun⟩
    | broken hb =>
      obtain ⟨tr, i, hrun⟩ := handleClientSSL_ends (.inl hb) _
      exact ⟨i, tr, hrun⟩
  | cons cmd cmds ih =>
    have hcmd := hcmds cmd List.mem_cons_self
    obtain ⟨l, rfl, hl⟩ := hcmd.line
    rw [List.flatten_cons, List.append_assoc, List.singleton_append] at hfuel ⊢
    rw [List.length_append, List.length_cons] at hfuel
    obtain ⟨n, rfl⟩ : ∃ n, fuel = n + 1 := ⟨fuel - 1, by omega⟩
    cases h with
    | broken hb =>
      obtain ⟨tr, i, hrun⟩ := handleClientSSL_ends (.inl hb) _
      exact ⟨i, tr, hrun⟩
    | next hd hreply hrest =>
      have hlen : cmds.flatten.length < n := by omega
      obtain ⟨inp, tr, hrun, rfl⟩ :=
        ih (fun c hc => hcmds c (List.mem_cons_of_mem _ hc)) hlen hrest
      exact ⟨inp, handleClientSSL_line hd hl (by omega) (serveLine_next hlogs hcmd hreply hrun)⟩
    | thrown hd hreply =>
      exact ⟨_, handleClientSSL_line hd hl (by omega) (serveLine_thrown hlogs hcmd _ n hreply)⟩

theorem AnswersInTurn.ne_pending {requests : List (Server P Unit)} {s s' : World P × Bytes}
    {log : List (Event (Res (P := P)))} {x : Option (Option Bool)}
    (h : AnswersInTurn allowed requests s log x s') : x ≠ some none := by
  induction h with
  | next _ _ _ ih => exact ih
  | _ => simp

/-- The loop over the bytes of the lines is the loop over the lines. -/
theorem session_iff (hlogs : Logs allowed) {cmds : List Bytes} (hcmds : ∀ cmd ∈ cmds, PlainLine cmd)
    {s s' : World P × Bytes} {log : List (Event (Res (P := P)))} {x : Option (Option Bool)} :
    Session allowed cmds.flatten s log x s' ↔
      AnswersInTurn allowed (cmds.map answerLine) s log x s' := by
  constructor
  · rintro ⟨fuel, tr, inp, hrun, hx, rfl⟩
    exact answers_of_runs hcmds hx hrun
  · intro h
    obtain ⟨inp, tr, hrun, hlog⟩ := runs_of_answers hlogs hcmds (Nat.lt_succ_self _) h
    exact ⟨_, tr, inp, hrun, h.ne_pending, hlog⟩

end Sessions

end CctvServer
