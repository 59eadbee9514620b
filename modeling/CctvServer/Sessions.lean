import CctvServer.CommandLines

namespace CctvServer

open CommandHandler HistoryRepository

variable {P : Platform}

/-- Commands executed one at a time, with the replies they got. -/
inductive Served (E : Env (Res (P := P)) (World P × Socket)) :
    World P × Socket → List (Bytes × Bytes) → World P × Socket → Prop
  | nil {s : World P × Socket} : Served E s [] s
  | cons {s s₁ s' : World P × Socket} {tr : List (Event (Res (P := P)))} {line reply : Bytes}
      {rest : List (Bytes × Bytes)} (run : Prog.Runs E (handle line) s tr (some reply) s₁)
      (later : Served E s₁ rest s') : Served E s ((line, reply) :: rest) s'

def created : Bytes := successReply "History created successfully"

/-- The payloads of the ADD_HISTORY commands that were answered with success. -/
def added (served : List (Bytes × Bytes)) : List Bytes :=
  served.filterMap fun x =>
    if (splitCommand x.1).1 = ascii "ADD_HISTORY" ∧ x.2 = created then some (splitCommand x.1).2
    else none

def HistoryRow.ofHistory (id : ℕ) (h : History P) : HistoryRow P :=
  ⟨id, P.affinity (cstr h.date), cstr h.imagePath, cstr h.plateNumber, h.eventType,
    cstr h.startSnapshot, cstr h.endSnapshot, h.speed⟩

/-- What ADD_HISTORY lets into the table. -/
def Accepted (record : Bytes × History P) : Prop :=
  ¬(record.1 = [] ∨ record.2.imagePath = [] ∨ record.2.plateNumber = [] ∨
    record.2.eventType < 0 ∨ 2 < record.2.eventType)

def Stores (payload : Bytes) (r : HistoryRow P) : Prop :=
  ∃ garbage : ℕ, Accepted (P := P) (parseHistory payload (columnInt garbage)) ∧
    r = .ofHistory r.id (parseHistory payload (columnInt garbage)).2

theorem Stores.type {payload : Bytes} {r : HistoryRow P} (h : Stores payload r) :
    0 ≤ r.eventType ∧ r.eventType ≤ 2 := by
  obtain ⟨garbage, hacc, hr⟩ := h
  simp only [Accepted, not_or, not_lt] at hacc
  rw [hr]
  exact hacc.2.2.2

/-- What ADD_HISTORY does with a record it has read. -/
def storeRecord (record : Bytes × History P) : Server P Bytes :=
  if record.1 = [] ∨ record.2.imagePath = [] ∨ record.2.plateNumber = [] ∨
      record.2.eventType < 0 ∨ 2 < record.2.eventType then
    .ret (errorReply 400 "Invalid input format")
  else .call (.insertHistory (cstr record.2.date) (cstr record.2.imagePath)
      (cstr record.2.plateNumber) record.2.eventType (cstr record.2.startSnapshot)
      (cstr record.2.endSnapshot) record.2.speed) fun ok =>
    if ok then .ret created else .ret (errorReply 500 "Failed to create history")

theorem handleAddHistory_eq (payload : Bytes) :
    handleAddHistory (P := P) payload = .call .uninitialised fun garbage =>
      storeRecord (parseHistory payload (columnInt garbage)) := by
  unfold handleAddHistory
  rw [Prog.perform_bind]
  refine congrArg (Prog.call _) (funext fun garbage => ?_)
  generalize parseHistory payload (columnInt garbage) = record
  rfl

theorem runs_handleAddHistory {allowed : Call P → Outcome → Prop} {payload : Bytes}
    {x : Option Bytes} {s s' : World P × Socket} {tr : List (Event (Res (P := P)))}
    (h : Prog.Runs (World.Serves allowed) (handleAddHistory payload) s tr x s') :
    s'.1.db.users = s.1.db.users ∧ ∃ garbage : ℕ,
      (¬Accepted (P := P) (parseHistory payload (columnInt garbage)) ∧
        x = some (errorReply 400 "Invalid input format") ∧
        s'.1.db.history = s.1.db.history) ∨
      (Accepted (P := P) (parseHistory payload (columnInt garbage)) ∧
        ((x = some created ∧ s'.1.db.history = s.1.db.history ++
            [.ofHistory (Database.nextId s.1.db.history)
              (parseHistory payload (columnInt garbage)).2]) ∨
          (x = some (errorReply 500 "Failed to create history") ∧
            s'.1.db.history = s.1.db.history))) := by
  rw [handleAddHistory_eq] at h
  obtain ⟨garbage, s₁, tr₁, ⟨w₁, -, hans₁⟩, hrun, -⟩ := h
  have hs₁ : s₁ = s := by
    cases hans₁
    rfl
  subst hs₁
  simp only [storeRecord] at hrun
  split at hrun
  · rename_i hrefused
    obtain ⟨-, hx, rfl⟩ := hrun
    exact ⟨rfl, garbage, .inl ⟨not_not.mpr hrefused, hx, rfl⟩⟩
  · rename_i hacc
    obtain ⟨ok, s₂, tr₂, ⟨w₂, -, hans₂⟩, hrun, -⟩ := hrun
    obtain ⟨world, k⟩ := s₁
    simp only [World.answer] at hans₂
    split at hans₂
    · cases hans₂
      obtain ⟨-, hx, rfl⟩ := hrun
      exact ⟨rfl, garbage, .inr ⟨hacc, .inr ⟨hx, rfl⟩⟩⟩
    · cases hans₂
      obtain ⟨-, hx, rfl⟩ := hrun
      exact ⟨rfl, garbage, .inr ⟨hacc, .inl ⟨hx, rfl⟩⟩⟩

/-- ADD_HISTORY appends one row when it succeeds and changes no table otherwise. -/
theorem runs_addHistory {allowed : Call P → Outcome → Prop} {payload reply : Bytes}
    {s s' : World P × Socket} {tr : List (Event (Res (P := P)))}
    (h : Prog.Runs (World.Serves allowed) (handleAddHistory payload) s tr (some reply) s') :
    s'.1.db.users = s.1.db.users ∧
      ((reply = created ∧ ∃ r, Stores payload r ∧ r.id = Database.nextId s.1.db.history ∧
          s'.1.db.history = s.1.db.history ++ [r]) ∨
        (reply ≠ created ∧ s'.1.db.history = s.1.db.history)) := by
  obtain ⟨husers, garbage, ⟨-, hx, hhist⟩ | ⟨hacc, ⟨hx, hhist⟩ | ⟨hx, hhist⟩⟩⟩ :=
    runs_handleAddHistory h
  · cases hx
    exact ⟨husers, .inr ⟨by decide, hhist⟩⟩
  · cases hx
    exact ⟨husers, .inl ⟨rfl, _, ⟨garbage, hacc, rfl⟩, rfl, hhist⟩⟩
  · cases hx
    exact ⟨husers, .inr ⟨by decide, hhist⟩⟩

theorem answer_history {o : Call P} (ho : o.KeepsHistory) (w : Outcome) (s : World P)
    (k : Socket) : (World.answer w o (s, k)).2.1.db.history = s.db.history := by
  cases o with
  | insertUser email passwordHash createdAt =>
    simp only [World.answer]
    split
    · rfl
    · split
      · rename_i db h
        obtain ⟨u, -, rfl⟩ := Option.map_eq_some_iff.mp h
        rfl
      · rfl
  | _ => first | exact ho.elim | (simp only [World.answer]; repeat' split) <;> rfl

theorem runs_keepsHistory {allowed : Call P → Outcome → Prop} {line : Bytes} {x : Option Bytes}
    {s s' : World P × Socket} {tr : List (Event (Res (P := P)))}
    (hl : (splitCommand line).1 ≠ ascii "ADD_HISTORY")
    (h : Prog.Runs (World.Serves allowed) (handle line) s tr x s') :
    s'.1.db.history = s.1.db.history := by
  refine (calls_dispatch _ hl).frame (fun s : World P × Socket => s.1.db.history) ?_ h
  rintro o ho ⟨world, k⟩ r s' ⟨w, -, hans⟩
  have := answer_history ho w world k
  rw [hans] at this
  exact this

theorem handle_of_addHistory {line : Bytes} (hl : (splitCommand line).1 = ascii "ADD_HISTORY") :
    handle (P := P) line = handleAddHistory (splitCommand line).2 := by
  refine Eq.trans ?_ (dispatch_text .addHistory _)
  rw [Command.text, ← hl]
  rfl

theorem nextId_of_range {rows : List (HistoryRow P)}
    (h : rows.map HistoryRow.id = List.range' 1 rows.length) :
    Database.nextId rows = rows.length + 1 := by
  have hmax : ∀ n a, 1 ≤ n → (List.range' a n).foldr max 0 = a + n - 1 := by
    intro n
    induction n with
    | zero => exact fun _ h => absurd h (by decide)
    | succ n ih =>
      intro a _
      rw [List.range'_succ, List.foldr_cons]
      cases n with
      | zero => simp
      | succ n =>
        rw [ih (a + 1) (by omega)]
        omega
  rw [Database.nextId, h]
  cases hn : rows.length with
  | zero => rfl
  | succ n =>
    rw [hmax _ _ (by omega)]
    omega

/-- The history after a session: the rows of the successful ADD_HISTORY commands in
their order, numbered on. -/
theorem Served.history {allowed : Call P → Outcome → Prop} {s s' : World P × Socket}
    {served : List (Bytes × Bytes)} (h : Served (World.Serves allowed) s served s') :
    ∃ new, List.Forall₂ Stores (added served) new ∧
      s'.1.db.history = s.1.db.history ++ new ∧
      (s.1.db.history.map HistoryRow.id = List.range' 1 s.1.db.history.length →
        s'.1.db.history.map HistoryRow.id = List.range' 1 s'.1.db.history.length) := by
  induction h with
  | nil => exact ⟨[], .nil, (List.append_nil _).symm, id⟩
  | @cons s s₁ s' tr line reply rest run later ih =>
    obtain ⟨new, hnew, hhist, hids⟩ := ih
    by_cases hl : (splitCommand line).1 = ascii "ADD_HISTORY"
    · rw [handle_of_addHistory hl] at run
      obtain ⟨-, ⟨hreply, r, hr, hid, hr₁⟩ | ⟨hreply, hr₁⟩⟩ := runs_addHistory run
      · refine ⟨r :: new, ?_, ?_, fun hs => hids ?_⟩
        · rw [added, List.filterMap_cons, if_pos ⟨hl, hreply⟩]
          exact .cons hr hnew
        · rw [hhist, hr₁, List.append_assoc, List.singleton_append]
        · rw [hr₁, List.map_append, hs, List.length_append, List.range'_append_1.symm]
          simp [hid, nextId_of_range hs, Nat.add_comm]
      · refine ⟨new, ?_, hr₁ ▸ hhist, hr₁ ▸ hids⟩
        rw [added, List.filterMap_cons, if_neg fun h => hreply h.2]
        exact hnew
    · have hr₁ := runs_keepsHistory hl run
      refine ⟨new, ?_, hr₁ ▸ hhist, hr₁ ▸ hids⟩
      rw [added, List.filterMap_cons, if_neg fun h => hl h.1]
      exact hnew

end CctvServer
