import CctvServer.HistoryReadable
import CctvServer.Replies

namespace CctvServer

open CommandHandler HistoryRepository TcpServer

variable {P : Platform}

/-- The table holds three types of rows, and a speed only with the type of speeding. -/
structure RegularRow (r : HistoryRow P) : Prop where
  type : r.eventType = 0 ∨ r.eventType = 1 ∨ r.eventType = 2
  speed : ∀ v, r.speed = some v → r.eventType = 1 ∧ P.nonneg v = true

/-- The entry of a row in the reply to a query with this filter. -/
def Shows (f : HistoryFilter) (r : HistoryRow P) (entry : Json) : Prop :=
  match f.eventType with
  | none => renderFull r.decode = entry
  | some _ => renderCompact r.decode = some entry

theorem RegularRow.compact {r : HistoryRow P} (h : RegularRow r) :
    ∃ entry, renderCompact r.decode = some entry := by
  have hdecode : r.decode.eventType = r.eventType := rfl
  rcases h.type with h₀ | h₁ | h₂
  · exact ⟨_, renderCompact_zero (hdecode.trans h₀)⟩
  · exact ⟨_, renderCompact_one (hdecode.trans h₁)⟩
  · exact ⟨_, renderCompact_two (hdecode.trans h₂)⟩

/-- No row is dropped and none is shown twice. -/
theorem entries_show (f : HistoryFilter) {rows : List (HistoryRow P)}
    (h : ∀ r ∈ rows, RegularRow r) : List.Forall₂ (Shows f) rows (entries f rows) := by
  unfold Shows entries
  cases f.eventType with
  | none =>
    rw [List.forall₂_map_right_iff]
    exact List.forall₂_same.mpr fun _ _ => rfl
  | some t =>
    dsimp only
    induction rows with
    | nil => exact .nil
    | cons r rows ih =>
      obtain ⟨entry, hentry⟩ := (h r List.mem_cons_self).compact
      rw [List.filterMap_cons, hentry]
      exact .cons hentry (ih fun r' hr' => h r' (List.mem_cons_of_mem _ hr'))

/-- Records are inserted with checked fields only, and rows that were read are answered
before anything else is done. -/
def rowMonitor (P : Platform) :
    Monitor (Res (P := P)) (Option (HistoryFilter × List (HistoryRow P))) where
  admits g o := match g, o with
    | some (f, rows), o => ∃ text, queryReply f rows = some text ∧ o = .sslWrite (terminate text)
    | none, .insertHistory _ _ _ eventType _ _ speed =>
        (eventType = 0 ∨ eventType = 1 ∨ eventType = 2) ∧
          ∀ v, speed = some v → eventType = 1 ∧ P.nonneg v = true
    | none, _ => True
  expects _ _ _ := True
  next g o r := match (⟨o, r⟩ : Event (Res (P := P))) with
    | ⟨.selectHistory f _ _, rows⟩ => some (f, rows)
    | ⟨.sslWrite _, _⟩ => none
    | _ => g

section Safe

abbrev Replying (g : Option (HistoryFilter × List (HistoryRow P))) (reply : Bytes) : Prop :=
  ∀ f rows, g = some (f, rows) → queryReply f rows = some reply

theorem parseHistory_speed {payload : Bytes} {garbage : ℤ} {v : P.Speed}
    (h : (parseHistory (P := P) payload garbage).2.speed = some v) :
    (parseHistory (P := P) payload garbage).2.eventType = 1 ∧ P.nonneg v = true := by
  simp only [parseHistory] at h ⊢
  split at h
  · rename_i hc
    cases h
    exact hc
  · cases h

theorem safe_addHistory (payload : Bytes) :
    (handleAddHistory (P := P) payload).Safe (rowMonitor P) Replying (fun _ => True) none := by
  rw [handleAddHistory_eq]
  refine ⟨trivial, fun garbage _ => ?_⟩
  change Prog.Safe _ _ _ (storeRecord _) none
  unfold storeRecord
  split
  · exact fun f rows h => by cases h
  · rename_i hc
    simp only [not_or, not_lt] at hc
    refine ⟨⟨by omega, fun v hv => parseHistory_speed hv⟩, fun ok _ => ?_⟩
    cases ok with
    | false => exact fun f rows h => by cases h
    | true => exact fun f rows h => by cases h

theorem safe_query (q : HistoryQuery) :
    (q.answer (P := P)).Safe (rowMonitor P) Replying (fun _ => True) none := by
  rw [HistoryQuery.answer_eq]
  split
  · exact fun f rows h => by cases h
  · refine ⟨trivial, fun user _ => ?_⟩
    cases user with
    | none => exact fun f rows h => by cases h
    | some user =>
      refine ⟨trivial, fun rows _ => ?_⟩
      change Prog.Safe _ _ _ (dataReply _ _) (some (q.filter, rows))
      rw [dataReply_eq]
      split
      · rename_i text htext
        intro f rows' h
        cases h
        exact htext
      · trivial

theorem safe_spare {α : Type} {p : Server P α} {C : Call P → Prop}
    {Q : Option (HistoryFilter × List (HistoryRow P)) → α → Prop}
    (hp : p.Calls C) (hC : ∀ o, C o → o.OffDatabase ∨ o.SparesHistory)
    (hQ : ∀ a, Q none a) : p.Safe (rowMonitor P) Q (fun _ => True) none := by
  refine Prog.Safe.of_calls hp (Prog.Returns.of_forall hQ) trivial fun o ho => ?_
  have hspares := hC o ho
  cases o with
  | selectHistory f limit offset => exact (hspares.elim id id).elim
  | insertHistory => exact (hspares.elim id id).elim
  | _ => exact ⟨trivial, fun _ => rfl⟩

theorem safe_serve_rows (c : Command) (payload : Bytes) :
    (c.serve (P := P) payload).Safe (rowMonitor P) Replying (fun _ => True) none := by
  by_cases hadd : c = .addHistory
  · subst hadd
    exact safe_addHistory payload
  · by_cases hquery : ∃ q, c = .query q
    · obtain ⟨q, rfl⟩ := hquery
      exact safe_query _
    · rw [not_exists] at hquery
      exact safe_spare (calls_serve hadd hquery payload) (fun _ => .inr) fun a f rows h => by
        cases h

theorem safe_serveCommand_rows (line : Bytes) :
    (serveCommand (P := P) line).Safe (rowMonitor P) (fun g _ => g = none) (fun _ => True)
      none := by
  have hhandle : (handle (P := P) line).Safe (rowMonitor P) Replying (fun _ => True) none := by
    rw [handle_eq]
    cases Command.ofWord (splitCommand line).1 with
    | none => exact fun f rows h => by cases h
    | some c => exact safe_serve_rows c _
  refine Prog.safe_bind.mpr (hhandle.mono (fun g reply hg => ?_) fun _ h => h)
  refine ⟨?_, fun _ _ => rfl⟩
  cases g with
  | none => trivial
  | some read => exact ⟨reply, hg read.1 read.2 rfl, rfl⟩

theorem safe_handleClientSSL_rows (fuel : ℕ) :
    (handleClientSSL fuel).Safe (rowMonitor P) (fun _ _ => True) (fun _ => True) none := by
  induction fuel with
  | zero => trivial
  | succ fuel ih =>
    rw [handleClientSSL_succ]
    have hoff : ∀ o : Call P, o.OffDatabase → o.OffDatabase ∨ o.SparesHistory := fun _ => .inl
    refine Prog.safe_bind.mpr (safe_spare (calls_readLine trivial _ _) hoff fun line => ?_)
    cases line with
    | pending => trivial
    | ended => trivial
    | line cmd =>
      dsimp only
      split
      · exact ih
      · refine ⟨trivial, fun _ _ => ?_⟩
        change Prog.Safe _ _ _ _ none
        split
        · have hupload := (calls_serveUpload (P := P) cmd).mono fun _ h => h.2
          exact Prog.safe_bind.mpr (safe_spare hupload hoff fun _ => ih)
        · split
          · exact safe_spare ((calls_serveGetImage fuel cmd).mono fun _ h => h.2) hoff
              fun _ => trivial
          · refine Prog.safe_bind.mpr ((safe_serveCommand_rows cmd).mono ?_ fun _ h => h)
            rintro g - rfl
            exact ih

end Safe

/-- What follows the reading of rows in a thread is their reply, an entry for each row. -/
def RowsShown (log : List (Event (Res (P := P)))) : Prop :=
  ∀ before f limit offset rows e after,
    log = before ++ ⟨.selectHistory f limit offset, rows⟩ :: e :: after →
    ∃ data text, List.Forall₂ (Shows f) rows data ∧
      (response "History retrieved successfully" (.arr data)).dump = some text ∧
      e.1 = .sslWrite (terminate text)

def RegularReads (log : List (Event (Res (P := P)))) : Prop :=
  ∀ f limit offset rows, ⟨.selectHistory f limit offset, rows⟩ ∈ log → ∀ r ∈ rows, RegularRow r

theorem answer_regular {g : Option (HistoryFilter × List (HistoryRow P))} {o : Call P}
    {w : Outcome} {s : World P} {k : Socket} (ha : (rowMonitor P).admits g o)
    (h : ∀ r ∈ s.db.history, RegularRow r) :
    ∀ r ∈ (World.answer w o (s, k)).2.1.db.history, RegularRow r := by
  by_cases hoff : o.OffDatabase
  · rw [World.answer_db hoff]
    exact h
  by_cases hkeeps : o.KeepsHistory
  · rw [answer_history hkeeps]
    exact h
  cases g with
  | some read =>
    obtain ⟨text, -, rfl⟩ := ha
    exact absurd trivial hoff
  | none =>
    cases o with
    | insertHistory date imagePath plateNumber eventType startSnapshot endSnapshot speed =>
      simp only [World.answer]
      split
      · exact h
      · intro r hr
        rcases List.mem_append.mp hr with hr | hr
        · exact h r hr
        · rw [List.mem_singleton.mp hr]
          exact ⟨ha.1, ha.2⟩
    | deleteHistory id =>
      simp only [World.answer]
      split
      · exact h
      · exact fun r hr => h r (List.mem_filter.mp hr).1
    | _ => first | exact absurd trivial hoff | exact absurd trivial hkeeps

theorem answer_select {f : HistoryFilter} {limit offset : ℤ} {w : Outcome} {s : World P}
    {k : Socket} {rows : List (HistoryRow P)} {s' : World P × Socket}
    (h : World.answer w (.selectHistory f limit offset) (s, k) = (rows, s')) :
    ∀ r ∈ rows, r ∈ s.db.history := by
  simp only [World.answer, Prod.mk.injEq] at h
  intro r hr
  rw [← h.1] at hr
  split at hr
  · exact mem_selectHistory (List.mem_of_mem_take hr)
  · exact mem_selectHistory hr

theorem RegularReads.snoc {log : List (Event (Res (P := P)))} {e : Event (Res (P := P))}
    (h : RegularReads log) (he : ∀ f limit offset rows,
      e = ⟨.selectHistory f limit offset, rows⟩ → ∀ r ∈ rows, RegularRow r) :
    RegularReads (log ++ [e]) := by
  intro f limit offset rows hmem
  rcases List.mem_append.mp hmem with hmem | hmem
  · exact h f limit offset rows hmem
  · exact he f limit offset rows (List.mem_singleton.mp hmem).symm

theorem after_select (log : List (Event (Res (P := P)))) (f : HistoryFilter) (limit offset : ℤ)
    (rows : List (HistoryRow P)) :
    (rowMonitor P).after none (log ++ [⟨.selectHistory f limit offset, rows⟩]) =
      some (f, rows) := by
  rw [Monitor.after_snoc]
  rfl

theorem RowsShown.snoc {log : List (Event (Res (P := P)))} {o : Call P} (r : Res o)
    (h : RowsShown log) (hreads : RegularReads log)
    (ha : (rowMonitor P).admits ((rowMonitor P).after none log) o) :
    RowsShown (log ++ [⟨o, r⟩]) := by
  intro before f limit offset rows e after heq
  rcases List.eq_nil_or_concat after with rfl | ⟨after', e', rfl⟩
  · -- the step answers the rows read just before it
    have hsplit : log ++ [⟨o, r⟩] = (before ++ [⟨.selectHistory f limit offset, rows⟩]) ++ [e] := by
      rw [heq, List.append_assoc]
      rfl
    obtain ⟨rfl, he⟩ := List.append_inj' hsplit rfl
    cases he
    rw [after_select] at ha
    obtain ⟨text, htext, rfl⟩ := ha
    have hregular := hreads f limit offset rows (List.mem_append_right _ List.mem_cons_self)
    exact ⟨_, text, entries_show f hregular, htext, rfl⟩
  · refine h before f limit offset rows e after' ?_
    have hsplit : log ++ [⟨o, r⟩] =
        (before ++ ⟨.selectHistory f limit offset, rows⟩ :: e :: after') ++ [e'] := by
      rw [heq, List.append_assoc]
      simp
    exact (List.append_inj' hsplit rfl).1

section Clients

variable {ι : Type} [DecidableEq ι] {c₀ c : Clients P ι (Option Bool)}
  {allowed : Call P → Outcome → Prop}
  {ok : Clients P ι (Option Bool) → ι → Event (Res (P := P)) → Prop}

/-- From an empty table on, only regular rows are stored and read. -/
theorem regular_reach {fuel : ι → ℕ} (hprog : ∀ i, c₀.prog i = handleClientSSL (fuel i))
    (htrace : c₀.trace = []) (hempty : c₀.shared.db.history = [])
    (h : Config.Reach (World.Serves allowed) ok c₀ c) :
    (∀ r ∈ c.shared.db.history, RegularRow r) ∧
      ∀ i, RegularReads (c.log i) ∧ RowsShown (c.log i) := by
  have hinv := h.monitored_each (rowMonitor P) (Q := fun _ _ _ => True) (T := fun _ _ => True)
    (fun _ => none) (J := fun w => ∀ r ∈ w.db.history, RegularRow r)
    (I := fun _ log _ _ => RegularReads log ∧ RowsShown log) htrace
    (fun i => by
      rw [hprog]
      exact safe_handleClientSSL_rows _)
    (by simp [hempty])
    (fun i => ⟨fun f limit offset rows he => absurd he List.not_mem_nil,
      fun before f limit offset rows e after heq => by simp at heq⟩)
    (fun c i o r s hrows hI ha hE _ => by
      obtain ⟨w, -, hans⟩ := hE
      obtain ⟨hreads, hshown⟩ := hI
      have hanswer := answer_regular (w := w) (k := c.loc i) ha hrows
      rw [hans] at hanswer
      refine ⟨trivial, hanswer, hreads.snoc ?_, hshown.snoc r hreads ha⟩
      intro f limit offset rows he
      cases he
      exact fun row hrow => hrows row (answer_select hans row hrow))
  exact hinv.2

end Clients

end CctvServer
