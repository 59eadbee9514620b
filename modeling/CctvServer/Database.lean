import CctvServer.Platform

namespace CctvServer

structure UserRow where
  id : ℕ
  email : Bytes
  passwordHash : Bytes
  createdAt : Bytes
  deriving DecidableEq, Repr

/-- The `users` table. AUTOINCREMENT never gives an id twice. -/
structure Users where
  rows : List UserRow
  seq : ℕ

structure HistoryRow (P : Platform) where
  id : ℕ
  date : P.Value
  imagePath : Bytes
  plateNumber : Bytes
  eventType : ℤ
  startSnapshot : Bytes
  endSnapshot : Bytes
  speed : Option P.Speed

/-- `changes` is the row count of the last modifying statement, 0 if it failed. -/
structure Database (P : Platform) where
  users : Users
  history : List (HistoryRow P)
  changes : ℕ

/-- `sqlite3_column_int`: the low 32 bits. -/
def columnInt (n : ℕ) : ℤ := (BitVec.ofNat 32 n).toInt

structure HistoryFilter where
  eventType : Option ℤ
  dates : Option (Bytes × Bytes)
  deriving DecidableEq, Repr

namespace Users

/-- `INSERT INTO users`; `none` when the e-mail is taken. -/
def insert (u : Users) (email passwordHash createdAt : Bytes) : Option Users :=
  if u.rows.any (·.email = email) then none
  else some ⟨u.rows ++ [⟨u.seq + 1, email, passwordHash, createdAt⟩], u.seq + 1⟩

def selectByEmail (u : Users) (email : Bytes) : Option UserRow := u.rows.find? (·.email = email)

def updatePassword (u : Users) (passwordHash : Bytes) (id : ℤ) : Users :=
  ⟨u.rows.map fun r =>
    if (r.id : ℤ) = id then { r with passwordHash := passwordHash } else r, u.seq⟩

def delete (u : Users) (id : ℤ) : Users := ⟨u.rows.filter fun r => (r.id : ℤ) ≠ id, u.seq⟩

def countId (u : Users) (id : ℤ) : ℕ := u.rows.countP fun r => (r.id : ℤ) = id

end Users

namespace Database

variable {P : Platform}

/-- A modifying statement that fails: not executed at all for `n = 0`, else it has changed
no row. -/
def abandon (n : ℕ) (db : Database P) : Database P :=
  { db with changes := if n = 0 then db.changes else 0 }

def insertUser (db : Database P) (email passwordHash createdAt : Bytes) : Option (Database P) :=
  (db.users.insert email passwordHash createdAt).map fun u => { db with users := u, changes := 1 }

def updatePassword (db : Database P) (passwordHash : Bytes) (id : ℤ) : Database P :=
  { db with users := db.users.updatePassword passwordHash id, changes := db.users.countId id }

def deleteUser (db : Database P) (id : ℤ) : Database P :=
  { db with users := db.users.delete id, changes := db.users.countId id }

/-- A row id is one more than the largest in use. -/
def nextId (rows : List (HistoryRow P)) : ℕ := (rows.map (·.id)).foldr max 0 + 1

/-- `INSERT INTO history` with the bound values, the date taking NUMERIC affinity. -/
def insertHistory (db : Database P) (date imagePath plateNumber : Bytes) (eventType : ℤ)
    (startSnapshot endSnapshot : Bytes) (speed : Option P.Speed) : Database P :=
  { db with
    history := db.history ++ [⟨nextId db.history, P.affinity date, imagePath, plateNumber,
      eventType, startSnapshot, endSnapshot, speed⟩]
    changes := 1 }

def deleteHistory (db : Database P) (id : ℤ) : Database P :=
  { db with
    history := db.history.filter fun r => (r.id : ℤ) ≠ id
    changes := db.history.countP fun r => (r.id : ℤ) = id }

end Database

namespace HistoryFilter

variable {P : Platform}

/-- `event_type = ? AND date BETWEEN ? AND ?`, as far as present. -/
def admits (f : HistoryFilter) (r : HistoryRow P) : Bool :=
  (match f.eventType with
    | some t => r.eventType = t
    | none => true) &&
  (match f.dates with
    | some (lo, hi) => P.valueLe (P.affinity lo) r.date && P.valueLe r.date (P.affinity hi)
    | none => true)

end HistoryFilter

/-- `LIMIT ? OFFSET ?`: a negative limit is none, a negative offset is 0. -/
def page {α : Type} (limit offset : ℤ) (rows : List α) : List α :=
  if limit < 0 then rows.drop offset.toNat else (rows.drop offset.toNat).take limit.toNat

/-- `SELECT ... FROM history WHERE ... ORDER BY date DESC LIMIT ? OFFSET ?`, with
the `k`-th of the orders the sorter may produce. -/
def Database.selectHistory {P : Platform} (db : Database P) (k : ℕ) (f : HistoryFilter)
    (limit offset : ℤ) : List (HistoryRow P) :=
  page limit offset (P.orderDesc k (·.date) (db.history.filter f.admits))

end CctvServer
