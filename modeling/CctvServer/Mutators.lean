import CctvServer.Reference

namespace CctvServer

open UserRepository HistoryRepository

variable {P : Platform}

inductive Statement (P : Platform)
  | insertUser (email passwordHash createdAt : Bytes)
  | updatePassword (passwordHash : Bytes) (id : ℤ)
  | deleteUser (id : ℤ)
  | insertHistory (date imagePath plateNumber : Bytes) (eventType : ℤ)
      (startSnapshot endSnapshot : Bytes) (speed : Option P.Speed)
  | deleteHistory (id : ℤ)

namespace Statement

def completed : Statement P → Database P → Option (Database P)
  | insertUser email passwordHash createdAt, db => db.insertUser email passwordHash createdAt
  | updatePassword passwordHash id, db => some (db.updatePassword passwordHash id)
  | deleteUser id, db => some (db.deleteUser id)
  | insertHistory date imagePath plateNumber eventType startSnapshot endSnapshot speed, db =>
      some (db.insertHistory date imagePath plateNumber eventType startSnapshot endSnapshot speed)
  | deleteHistory id, db => some (db.deleteHistory id)

/-- The database after the statement turned out as `w`. -/
def exec (st : Statement P) (w : Outcome) (db : Database P) : Database P :=
  if w.failed then db.abandon w.number else (st.completed db).getD (db.abandon 1)

def call : Statement P → Call P
  | insertUser email passwordHash createdAt => .insertUser email passwordHash createdAt
  | updatePassword passwordHash id => .updatePassword passwordHash id
  | deleteUser id => .deleteUser id
  | insertHistory date imagePath plateNumber eventType startSnapshot endSnapshot speed =>
      .insertHistory date imagePath plateNumber eventType startSnapshot endSnapshot speed
  | deleteHistory id => .deleteHistory id

theorem answer_call (st : Statement P) (w : Outcome) (s : World P) (k : Socket) :
    (World.answer w st.call (s, k)).2.1.db = st.exec w s.db := by
  unfold exec
  cases hw : w.failed with
  | true =>
    cases st <;> simp only [call, World.answer, hw, if_true]
  | false =>
    cases st with
    | insertUser email passwordHash createdAt =>
      simp only [call, completed, World.answer, hw, Bool.false_eq_true, if_false]
      cases s.db.insertUser email passwordHash createdAt <;> rfl
    | _ => simp only [call, completed, World.answer, hw, Bool.false_eq_true, if_false,
        Option.getD_some]

/-- A statement that fails when it is executed leaves the counter at zero. -/
theorem changes_exec_of_failed {st : Statement P} {w : Outcome} {db : Database P}
    (h : w.failed = true ∨ st.completed db = none) (hw : w ≠ .fail 0) :
    (st.exec w db).changes = 0 := by
  unfold exec
  cases w with
  | fail n =>
    have hn : n ≠ 0 := fun hn => hw (hn ▸ rfl)
    simp [Outcome.failed, Outcome.number, Database.abandon, hn]
  | _ =>
    have hnone := h.resolve_left (by simp [Outcome.failed])
    simp [Outcome.failed, hnone, Database.abandon]

def execAll (db : Database P) (statements : List (Statement P × Outcome)) : Database P :=
  statements.foldl (fun db x => x.1.exec x.2 db) db

/-- The row count of the last of the statements that is executed. -/
def lastChanges : Database P → List (Statement P × Outcome) → Option ℕ
  | _, [] => none
  | db, (st, w) :: rest =>
      if w = .fail 0 then lastChanges db rest
      else some ((lastChanges (st.exec w db) rest).getD (st.exec w db).changes)

/-- The counter of the connection is that of the statement executed last. -/
theorem changes_execAll (db : Database P) (statements : List (Statement P × Outcome)) :
    (execAll db statements).changes = (lastChanges db statements).getD db.changes := by
  induction statements generalizing db with
  | nil => rfl
  | cons x rest ih =>
    obtain ⟨st, w⟩ := x
    change (execAll (st.exec w db) rest).changes = _
    rw [ih, lastChanges]
    by_cases hw : w = .fail 0
    · rw [if_pos hw, hw]
      rfl
    · rw [if_neg hw, Option.getD_some]

end Statement

/-- Answers a call after other threads have executed their statements. -/
def World.answerAmid (x : List (Statement P × Outcome) × Outcome) (o : Call P)
    (s : World P × Socket) : Res o × (World P × Socket) :=
  World.answer x.2 o ({ s.1 with db := Statement.execAll s.1.db x.1 }, s.2)

/-- What a repository function returns when `others` is executed before each of its
calls. -/
def returned (p : Server P Bool) (others : List (List (Statement P × Outcome) × Outcome))
    (s : World P) : Option Bool :=
  (Prog.run World.answerAmid ([], .ok) p others (s, ⟨[], []⟩)).2.1

/-- The statement with `WHERE id = ?` has a row to change. -/
def Users.Has (u : Users) (id : ℤ) : Prop := ∃ r ∈ u.rows, (r.id : ℤ) = id

def Database.HasHistory (db : Database P) (id : ℤ) : Prop := ∃ r ∈ db.history, (r.id : ℤ) = id

instance (u : Users) (id : ℤ) : Decidable (u.Has id) :=
  inferInstanceAs (Decidable (∃ r ∈ u.rows, _))

instance (db : Database P) (id : ℤ) : Decidable (db.HasHistory id) :=
  inferInstanceAs (Decidable (∃ r ∈ db.history, _))

theorem countId_ne_zero {u : Users} {id : ℤ} : u.countId id ≠ 0 ↔ u.Has id := by
  simp [Users.countId, Users.Has, List.countP_eq_zero]

theorem count_ne_zero {db : Database P} {id : ℤ} :
    (db.history.countP fun r => (r.id : ℤ) = id) ≠ 0 ↔ db.HasHistory id := by
  simp [Database.HasHistory, List.countP_eq_zero]

section Reports

variable (s : World P) (before between : List (Statement P × Outcome)) (w w' : Outcome) (id : ℤ)

theorem returned_updateUserPassword (newPasswordHash : Bytes) :
    returned (updateUserPassword id newPasswordHash) [(before, w)] s = some (!w.failed) := by
  cases w <;> rfl

theorem returned_deleteUser :
    returned (deleteUser id) [(before, w), (between, w')] s = some (!w.failed &&
      (Statement.execAll ((Statement.execAll s.db before).deleteUser id) between).changes
        != 0) := by
  cases w <;> rfl

theorem returned_deleteHistory :
    returned (deleteHistory id) [(before, w), (between, w')] s = some (!w.failed && decide (0 <
      (Statement.execAll ((Statement.execAll s.db before).deleteHistory id) between).changes)) := by
  cases w <;> rfl

end Reports

/-- A deletion that looks at the counter reports what it did unless the statement executed
last after it changed rows when it did not, or none when it did. -/
theorem counter_reports_iff {failed : Bool} {own : ℕ} {last : Option ℕ} {changed : Prop}
    (hown : own ≠ 0 ↔ changed) :
    ((!failed && last.getD own != 0) = true ↔ failed = false ∧ changed) ↔
      (failed = false → ∀ n, last = some n → (n ≠ 0 ↔ changed)) := by
  cases failed with
  | true => simp
  | false =>
    cases last with
    | none => simpa using hown
    | some n => simp

/-- `updateUserPassword` is right about its statement exactly if the statement fails or has
a row to change, and the two deletions exactly if the other threads' statement that is
executed last before they read the counter changed a row if and only if theirs did. -/
theorem mutators_report_iff (s : World P) (before between : List (Statement P × Outcome))
    (w w' : Outcome) (id : ℤ) (newPasswordHash : Bytes) :
    ((returned (updateUserPassword id newPasswordHash) [(before, w)] s = some true ↔
        w.failed = false ∧ (Statement.execAll s.db before).users.Has id) ↔
      (w.failed = false → (Statement.execAll s.db before).users.Has id)) ∧
    ((returned (deleteUser id) [(before, w), (between, w')] s = some true ↔
        w.failed = false ∧ (Statement.execAll s.db before).users.Has id) ↔
      (w.failed = false → ∀ n,
        Statement.lastChanges ((Statement.execAll s.db before).deleteUser id) between = some n →
        (n ≠ 0 ↔ (Statement.execAll s.db before).users.Has id))) ∧
    ((returned (deleteHistory id) [(before, w), (between, w')] s = some true ↔
        w.failed = false ∧ (Statement.execAll s.db before).HasHistory id) ↔
      (w.failed = false → ∀ n,
        Statement.lastChanges ((Statement.execAll s.db before).deleteHistory id) between = some n →
        (n ≠ 0 ↔ (Statement.execAll s.db before).HasHistory id))) := by
  refine ⟨?_, ?_, ?_⟩
  · rw [returned_updateUserPassword]
    cases w.failed with
    | true => simp
    | false => simp
  · rw [returned_deleteUser, Statement.changes_execAll, Option.some.injEq]
    exact counter_reports_iff countId_ne_zero
  · rw [returned_deleteHistory, Statement.changes_execAll, Option.some.injEq]
    have hpos : ∀ n : ℕ, decide (0 < n) = (n != 0) := by
      intro n
      cases n <;> simp
    rw [hpos]
    exact counter_reports_iff count_ne_zero

/-- Updating a missing account is reported as done, deleting a missing account is when
another thread inserts one before the counter is read, and deleting a record that is there
is not when another thread deletes a missing one. -/
theorem mutators_misreport :
    ¬(returned (updateUserPassword 7 []) [([], .ok)] (Reference.world Reference.emptyFs) =
        some true ↔
      Outcome.ok.failed = false ∧ (Reference.emptyDb .reference).users.Has 7) ∧
    ¬(returned (deleteUser 7) [([], .ok), ([(.insertUser (ascii "u") [] [], .ok)], .ok)]
        (Reference.world Reference.emptyFs) = some true ↔
      Outcome.ok.failed = false ∧ (Reference.emptyDb .reference).users.Has 7) ∧
    ¬(returned (deleteHistory 1)
        [([(.insertHistory (ascii "d") (ascii "i") (ascii "p") 0 [] [] none, .ok)], .ok),
          ([(.deleteHistory 7, .ok)], .ok)] (Reference.world Reference.emptyFs) = some true ↔
      Outcome.ok.failed = false ∧ (Statement.execAll (Reference.emptyDb .reference)
      [(.insertHistory (ascii "d") (ascii "i") (ascii "p") 0 [] [] none, .ok)]).HasHistory 1) := by
  decide

end CctvServer
