import CctvServer.Environment

namespace CctvServer

structure User where
  id : ℤ
  email : Bytes
  passwordHash : Bytes
  createdAt : Bytes
  deriving DecidableEq, Repr

structure History (P : Platform) where
  date : Bytes
  imagePath : Bytes
  plateNumber : Bytes
  eventType : ℤ
  startSnapshot : Bytes
  endSnapshot : Bytes
  speed : Option P.Speed
  id : ℤ

variable {P : Platform}

def UserRow.decode (r : UserRow) : User :=
  ⟨columnInt r.id, cstr r.email, cstr r.passwordHash, cstr r.createdAt⟩

def HistoryRow.decode (r : HistoryRow P) : History P where
  date := cstr (P.columnText r.date)
  imagePath := cstr r.imagePath
  plateNumber := cstr r.plateNumber
  eventType := r.eventType
  startSnapshot := cstr r.startSnapshot
  endSnapshot := cstr r.endSnapshot
  speed := r.speed
  id := columnInt r.id

/-- The fields an event type does not use are cleared. -/
def History.scrub (h : History P) : History P :=
  if h.eventType = 1 then { h with startSnapshot := [], endSnapshot := [] }
  else if h.eventType = 0 then { h with speed := none }
  else { h with startSnapshot := [], endSnapshot := [], speed := none }

namespace UserRepository

def createUser (user : User) : Server P Bool :=
  sys (.insertUser (cstr user.email) (cstr user.passwordHash) (cstr user.createdAt))

def getUserByEmail (email : Bytes) : Server P (Option User) := do
  let row ← sys (P := P) (.selectUserByEmail (cstr email))
  return row.map UserRow.decode

def getUserById (id : ℤ) : Server P (Option User) := do
  let row ← sys (P := P) (.selectUserById id)
  return row.map UserRow.decode

def updateUserPassword (id : ℤ) (newPasswordHash : Bytes) : Server P Bool :=
  sys (.updatePassword (cstr newPasswordHash) id)

/-- Deleting no row counts as a failure. -/
def deleteUser (id : ℤ) : Server P Bool := do
  if ← sys (P := P) (.deleteUser id) then
    let changes ← sys (P := P) .changes
    return changes != 0
  else return false

end UserRepository

namespace HistoryRepository

def createHistory (history : History P) : Server P Bool :=
  sys (.insertHistory (cstr history.date) (cstr history.imagePath) (cstr history.plateNumber)
    history.eventType (cstr history.startSnapshot) (cstr history.endSnapshot) history.speed)

def select (tidy : History P → History P) (f : HistoryFilter) (limit offset : ℤ) :
    Server P (List (History P)) := do
  let rows ← sys (P := P) (.selectHistory f limit offset)
  return rows.map fun r => tidy r.decode

/-- The only query that leaves the fields as they are stored. -/
def getHistories (limit offset : ℤ) : Server P (List (History P)) :=
  select id ⟨none, none⟩ limit offset

def getHistoriesByEventType (eventType limit offset : ℤ) : Server P (List (History P)) :=
  select History.scrub ⟨some eventType, none⟩ limit offset

def getHistoriesByDateRange (startDate endDate : Bytes) (limit offset : ℤ) :
    Server P (List (History P)) :=
  select History.scrub ⟨none, some (cstr startDate, cstr endDate)⟩ limit offset

def getHistoriesByEventTypeAndDateRange (eventType : ℤ) (startDate endDate : Bytes)
    (limit offset : ℤ) : Server P (List (History P)) :=
  select History.scrub ⟨some eventType, some (cstr startDate, cstr endDate)⟩ limit offset

def deleteHistory (id : ℤ) : Server P Bool := do
  if ← sys (P := P) (.deleteHistory id) then
    let changes ← sys (P := P) .changes
    return decide (0 < changes)
  else return false

end HistoryRepository

end CctvServer
