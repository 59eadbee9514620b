import CctvServer.Reference
import CctvServer.Sessions

namespace CctvServer

open CommandHandler

variable {P : Platform}

/-- The reply to a query, or the exception in its place. -/
def queryReply (f : HistoryFilter) (rows : List (HistoryRow P)) : Option Bytes :=
  (response "History retrieved successfully" (.arr (entries f rows))).dump

theorem queryReply_isSome (f : HistoryFilter) (rows : List (HistoryRow P)) :
    (queryReply f rows).isSome = true ↔ ∀ r ∈ rows, RowReadable f r := by
  rw [queryReply, Json.dump_isSome_iff, response_utf8 (by decide), entries_utf8]

theorem serves_lookup {key : Bytes} {s s' : World P × Socket} {row : Option UserRow}
    (h : World.Serves World.Faultless (.selectUserByEmail key) s row s') :
    row = s.1.db.users.selectByEmail key ∧ s' = s := by
  obtain ⟨w, hw, hans⟩ := h
  simp only [World.answer, show w.failed = false from hw, Bool.false_eq_true, if_false,
    Prod.mk.injEq] at hans
  exact ⟨hans.1.symm, hans.2.symm⟩

theorem serves_select {f : HistoryFilter} {limit offset : ℤ} {s s' : World P × Socket}
    {rows : List (HistoryRow P)}
    (h : World.Serves World.Faultless (.selectHistory f limit offset) s rows s') :
    s' = s ∧ ∃ n, rows = s.1.db.selectHistory n f limit offset := by
  obtain ⟨w, hw, hans⟩ := h
  simp only [World.answer, show w.failed = false from hw, Bool.false_eq_true, if_false,
    Prod.mk.injEq] at hans
  exact ⟨hans.2.symm, w.number, hans.1.symm⟩

section Answers

variable {E : Env (Res (P := P)) (World P × Socket)} {q : HistoryQuery} {s s' : World P × Socket}
  {tr : List (Event (Res (P := P)))} {x : Option Bytes}

/-- A valid query looks up its user, and if there is one it reads one page and replies
with it. -/
theorem runs_valid (hv : q.valid = true) (h : Prog.Runs E q.answer s tr x s') :
    (E (.selectUserByEmail (cstr q.email)) s none s' ∧
      x = some (errorReply 404 "User not found") ∧
      tr = [⟨.selectUserByEmail (cstr q.email), none⟩]) ∨
      ∃ user s₁ rows, E (.selectUserByEmail (cstr q.email)) s (some user) s₁ ∧
        E (.selectHistory q.filter q.limit q.offset) s₁ rows s' ∧
        x = queryReply q.filter rows ∧ tr = [⟨.selectUserByEmail (cstr q.email), some user⟩,
          ⟨.selectHistory q.filter q.limit q.offset, rows⟩] := by
  rw [HistoryQuery.answer_eq, hv] at h
  obtain ⟨row, s₁, tr₁, hE, hrun, rfl⟩ := h
  cases row with
  | none =>
    obtain ⟨rfl, rfl, rfl⟩ := hrun
    exact .inl ⟨hE, rfl, rfl⟩
  | some user =>
    obtain ⟨rows, s₂, tr₂, hE', hrun, rfl⟩ := hrun
    beta_reduce at hrun
    rw [dataReply_eq] at hrun
    have hx : x = queryReply q.filter rows ∧ tr₂ = [] ∧ s' = s₂ := by
      unfold queryReply
      split at hrun
      · rename_i text htext
        obtain ⟨rfl, rfl, rfl⟩ := hrun
        exact ⟨htext.symm, rfl, rfl⟩
      · rename_i htext
        obtain ⟨rfl, rfl, rfl⟩ := hrun
        exact ⟨htext.symm, rfl, rfl⟩
    obtain ⟨hx, rfl, rfl⟩ := hx
    exact .inr ⟨user, s₁, rows, hE, hE', hx, rfl⟩

theorem runs_answer (hv : q.valid = true)
    (huser : ∀ row s₁, E (.selectUserByEmail (cstr q.email)) s row s₁ → row.isSome = true ∧ s₁ = s)
    (h : Prog.Runs E q.answer s tr x s') :
    ∃ row rows, E (.selectHistory q.filter q.limit q.offset) s rows s' ∧
      x = queryReply q.filter rows ∧ tr = [⟨.selectUserByEmail (cstr q.email), row⟩,
        ⟨.selectHistory q.filter q.limit q.offset, rows⟩] := by
  rcases runs_valid hv h with ⟨hE, -, -⟩ | ⟨user, s₁, rows, hE, hE', hx, rfl⟩
  · exact absurd (huser none s' hE).1 (by simp)
  · obtain ⟨-, rfl⟩ := huser (some user) s₁ hE
    exact ⟨_, rows, hE', hx, rfl⟩

theorem runs_answer_of {row : UserRow} {rows : List (HistoryRow P)} (hv : q.valid = true)
    (huser : E (.selectUserByEmail (cstr q.email)) s (some row) s)
    (hrows : E (.selectHistory q.filter q.limit q.offset) s rows s') :
    Prog.Runs E q.answer s [⟨.selectUserByEmail (cstr q.email), some row⟩,
      ⟨.selectHistory q.filter q.limit q.offset, rows⟩] (queryReply q.filter rows) s' := by
  rw [HistoryQuery.answer_eq, hv]
  have hreply : Prog.Runs E (dataReply "History retrieved successfully"
      (.arr (entries q.filter rows))) s' [] (queryReply q.filter rows) s' := by
    rw [dataReply_eq, queryReply]
    cases (response "History retrieved successfully" (.arr (entries q.filter rows))).dump with
    | none => exact ⟨rfl, rfl, rfl⟩
    | some text => exact ⟨rfl, rfl, rfl⟩
  exact ⟨_, _, _, huser, ⟨_, _, _, hrows, hreply, rfl⟩, rfl⟩

theorem runs_query (hv : q.valid = true)
    (hreg : (s.1.db.users.selectByEmail (cstr q.email)).isSome = true)
    (h : Prog.Runs (World.Serves World.Faultless) q.answer s tr x s') :
    s' = s ∧ ∃ n, x = queryReply q.filter (s.1.db.selectHistory n q.filter q.limit q.offset) ∧
      ⟨.selectHistory q.filter q.limit q.offset,
        s.1.db.selectHistory n q.filter q.limit q.offset⟩ ∈ tr := by
  have huser : ∀ row s₁, World.Serves World.Faultless (.selectUserByEmail (cstr q.email)) s row s₁ →
      row.isSome = true ∧ s₁ = s := fun row s₁ hE => by
    obtain ⟨rfl, rfl⟩ := serves_lookup hE
    exact ⟨hreg, rfl⟩
  obtain ⟨row, rows, hE, hx, rfl⟩ := runs_answer hv huser h
  obtain ⟨rfl, n, rfl⟩ := serves_select hE
  exact ⟨rfl, n, hx, List.mem_cons_of_mem _ List.mem_cons_self⟩

end Answers

theorem mem_selectHistory {db : Database P} {n : ℕ} {f : HistoryFilter} {limit offset : ℤ}
    {r : HistoryRow P} (h : r ∈ db.selectHistory n f limit offset) : r ∈ db.history := by
  have hsort : r ∈ P.orderDesc n (·.date) (db.history.filter f.admits) := by
    unfold Database.selectHistory page at h
    split at h
    · exact List.mem_of_mem_drop h
    · exact List.mem_of_mem_drop (List.mem_of_mem_take h)
  exact (List.mem_filter.mp ((P.orderDesc_perm _ _ _ _).mem_iff.mp hsort)).1

theorem Served.users_of_adds {allowed : Call P → Outcome → Prop} {s s' : World P × Socket}
    {served : List (Bytes × Bytes)} (h : Served (World.Serves allowed) s served s')
    (hadds : ∀ x ∈ served, (splitCommand x.1).1 = ascii "ADD_HISTORY") :
    s'.1.db.users = s.1.db.users := by
  induction h with
  | nil => rfl
  | cons run _ ih =>
    rw [ih fun x hx => hadds x (List.mem_cons_of_mem _ hx)]
    rw [handle_of_addHistory (hadds _ List.mem_cons_self)] at run
    exact (runs_addHistory run).1

/-- A history query succeeds exactly when every row on its page can be shown; otherwise
the exception ends the server. The rows come from the table as it was before and from
the accepted requests. -/
theorem history_query_succeeds_iff {allowed : Call P → Outcome → Prop}
    {served : List (Bytes × Bytes)} {s₀ s s' : World P × Socket} {command : QueryCommand}
    {payload : Bytes} {tr : List (Event (Res (P := P)))} {x : Option Bytes}
    (hadds : ∀ x ∈ served, (splitCommand x.1).1 = ascii "ADD_HISTORY")
    (hserved : Served (World.Serves allowed) s₀ served s)
    (hp : (10 : UInt8) ∉ payload) (hv : (command.query payload).valid = true)
    (hreg : (s₀.1.db.users.selectByEmail (cstr (command.query payload).email)).isSome = true)
    (hrun : Prog.Runs (World.Serves World.Faultless) (handle (commandLine command.text payload))
      s tr x s') :
    ∃ rows : List (HistoryRow P),
      ⟨.selectHistory (command.query payload).filter (command.query payload).limit
        (command.query payload).offset, rows⟩ ∈ tr ∧
      (∀ r ∈ rows, r ∈ s₀.1.db.history ∨ ∃ p ∈ added served, Stores p r) ∧
      ((∃ reply, x = some reply ∧ queryReply (command.query payload).filter rows = some reply) ↔
        ∀ r ∈ rows, RowReadable (command.query payload).filter r) ∧
      (x = none ↔ ¬ ∀ r ∈ rows, RowReadable (command.query payload).filter r) := by
  have husers : s.1.db.users = s₀.1.db.users := hserved.users_of_adds hadds
  rw [handle_query command hp] at hrun
  obtain ⟨-, n, hx, hmem⟩ := runs_query hv (husers ▸ hreg) hrun
  obtain ⟨new, hnew, hhist, -⟩ := hserved.history
  refine ⟨_, hmem, fun r hr => ?_, ?_, ?_⟩
  · have hr' : r ∈ s₀.1.db.history ++ new := hhist ▸ mem_selectHistory hr
    refine (List.mem_append.mp hr').imp_right fun hr' => ?_
    obtain ⟨i, hi, rfl⟩ := List.getElem_of_mem hr'
    have hi' : i < (added served).length := hnew.length_eq ▸ hi
    exact ⟨_, List.getElem_mem hi', (List.forall₂_iff_get.mp hnew).2 i hi' hi⟩
  · rw [← queryReply_isSome, Option.isSome_iff_exists, hx]
    simp
  · rw [← queryReply_isSome, hx]
    simp

/-- An image path that is no UTF-8. -/
def poison : Bytes := ascii "2025-01-01_00:00:00 " ++ [255] ++ ascii " 12A3456 2"

def registered : World .reference × Socket :=
  (⟨Reference.emptyFs, ⟨⟨[⟨1, ascii "u", [], []⟩], 1⟩, [], 0⟩⟩, ⟨[], []⟩)

def afterAdd (payload : Bytes) : World .reference × Socket :=
  (Server.run (handle (commandLine "ADD_HISTORY" payload)) registered).2.2

/-- The record is accepted, and the next GET_HISTORY ends the server. -/
theorem accepted_record_poisons_history :
    Served (World.Serves World.Faultless) registered
        [(commandLine "ADD_HISTORY" poison, created)] (afterAdd poison) ∧
      ∃ tr s, Prog.Runs (World.Serves World.Faultless)
        (handle (commandLine QueryCommand.all.text (ascii "u 10 0"))) (afterAdd poison) tr none
        s := by
  refine ⟨.cons (Server.runs _ _ (by decide)) .nil, ?_⟩
  have hrun := Server.runs (HistoryQuery.answer (QueryCommand.all.query (ascii "u 10 0")))
    (afterAdd poison) rfl
  obtain ⟨-, n, hx, -⟩ := runs_query (by decide) (by decide) hrun
  have hnone : queryReply ⟨none, none⟩
      ((afterAdd poison).1.db.selectHistory n ⟨none, none⟩ 10 0) = none := by
    rw [← Option.not_isSome_iff_eq_none, queryReply_isSome]
    change ¬ ∀ r ∈ (afterAdd poison).1.db.selectHistory 0 ⟨none, none⟩ 10 0, _
    decide
  rw [handle_query .all (by decide)]
  rw [show (QueryCommand.all.query (ascii "u 10 0")).filter = ⟨none, none⟩ by decide,
    show (QueryCommand.all.query (ascii "u 10 0")).limit = 10 by decide,
    show (QueryCommand.all.query (ascii "u 10 0")).offset = 0 by decide, hnone] at hx
  rw [hx] at hrun
  exact ⟨_, _, hrun⟩

/-- A plate that is no UTF-8, in a record of the type whose plate is not shown. -/
def hiddenPoison : Bytes := ascii "2025-01-01_00:00:00 a.jpg " ++ [255] ++ ascii " 2"

theorem hidden_plate_query :
    ∃ tr x s, Prog.Runs (World.Serves World.Faultless)
        (handle (commandLine QueryCommand.byType.text (ascii "u 2 10 0"))) (afterAdd hiddenPoison)
        tr x s ∧
      ∃ rows : List (HistoryRow .reference), ⟨.selectHistory ⟨some 2, none⟩ 10 0, rows⟩ ∈ tr ∧
        (x = none ↔ ¬ ∀ r ∈ rows, RowReadable ⟨some 2, none⟩ r) := by
  have hserved : Served (World.Serves World.Faultless) registered
      [(commandLine "ADD_HISTORY" hiddenPoison, created)] (afterAdd hiddenPoison) :=
    .cons (Server.runs _ _ (by decide)) .nil
  have hrun := Server.runs (handle (commandLine QueryCommand.byType.text (ascii "u 2 10 0")))
    (afterAdd hiddenPoison) rfl
  obtain ⟨rows, hmem, -, -, hiff⟩ :=
    history_query_succeeds_iff (by decide) hserved (by decide) (by decide) (by decide) hrun
  rw [show (QueryCommand.byType.query (ascii "u 2 10 0")).filter = ⟨some 2, none⟩ by decide,
    show (QueryCommand.byType.query (ascii "u 2 10 0")).limit = 10 by decide,
    show (QueryCommand.byType.query (ascii "u 2 10 0")).offset = 0 by decide] at hmem
  rw [show (QueryCommand.byType.query (ascii "u 2 10 0")).filter = ⟨some 2, none⟩ by decide] at hiff
  exact ⟨_, _, _, hrun, rows, hmem, hiff⟩

end CctvServer
