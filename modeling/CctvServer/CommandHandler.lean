import CctvServer.Repositories
import CctvServer.Stream

namespace CctvServer

open UserRepository HistoryRepository

variable {P : Platform}

namespace CommandHandler

def reply (status : String) (code : ℕ) (message : String) : Bytes :=
  ascii ("\x7b\"status\": \"" ++ status ++ "\", \"code\": ") ++ decimal code ++
    ascii (", \"message\": \"" ++ message ++ "\"\x7d")

def errorReply (code : ℕ) (message : String) : Bytes := reply "error" code message

def successReply (message : String) : Bytes := reply "success" 200 message

/-- `response.dump()` of a success response; its exception is not caught here. -/
def dataReply (message : String) (data : Json) : Server P Bytes :=
  match (Json.object [("status", .str (ascii "success")), ("code", .int 200),
      ("message", .str (ascii message)), ("data", data)]).dump with
  | some text => return text
  | none => .throw

/-- `iss >> email >> password`. -/
def credentials (payload : Bytes) : Bytes × Bytes :=
  let (email, iss) := (IStream.ofBytes payload).word
  (email, iss.word.1)

/-- The digest, printed with two hexadecimal digits a byte. -/
def passwordHash (P : Platform) (password : Bytes) : Bytes :=
  (P.sha256 password).flatMap fun b => [Json.hexDigit (b.toNat / 16), Json.hexDigit (b.toNat % 16)]

def handleRegister (payload : Bytes) : Server P Bytes := do
  let (email, password) := credentials payload
  if email = [] ∨ password = [] then
    return errorReply 400 "Email or password is missing"
  else if (← getUserByEmail email).isSome then
    return errorReply 409 "Email already exists"
  else
    let t ← sys .time
    if ← createUser ⟨-1, email, passwordHash P password, P.putTime t⟩ then
      return successReply "User registered successfully"
    else
      return errorReply 500 "Failed to create user"

def handleLogin (payload : Bytes) : Server P Bytes := do
  let (email, password) := credentials payload
  if email = [] ∨ password = [] then
    return errorReply 400 "Email or password is missing"
  else match ← getUserByEmail email with
    | none => return errorReply 404 "User not found"
    | some user =>
        if user.passwordHash ≠ passwordHash P password then
          return errorReply 401 "Invalid email or password"
        else return successReply "Login successful"

def handleResetPassword (payload : Bytes) : Server P Bytes := do
  let (email, newPassword) := credentials payload
  if email = [] ∨ newPassword = [] then
    return errorReply 400 "Email or password is missing"
  else match ← getUserByEmail email with
    | none => return errorReply 404 "User not found"
    | some user =>
        if ← updateUserPassword user.id (passwordHash P newPassword) then
          return successReply "Password reset successful"
        else return errorReply 500 "Failed to reset password"

/-- `std::round(speed * 100) / 100.0f`, or null. -/
def speedJson (speed : Option P.Speed) : Json :=
  match speed with
  | some v => .float (P.rounded v)
  | none => .null

/-- An entry of GET_HISTORY and GET_HISTORY_BY_DATE_RANGE: all fields, those the
event type does not use being empty. -/
def renderFull (h : History P) : Json :=
  .object [("id", .int h.id), ("date", .str h.date), ("image_path", .str h.imagePath),
    ("plate_number", .str h.plateNumber), ("event_type", .int h.eventType),
    ("start_snapshot", .str (if h.eventType = 0 then h.startSnapshot else [])),
    ("end_snapshot", .str (if h.eventType = 0 then h.endSnapshot else [])),
    ("speed", if h.eventType = 1 then speedJson h.speed else .null)]

/-- An entry of the two queries by event type: only the fields the type uses.
Other types have no entry. -/
def renderCompact (h : History P) : Option Json :=
  if h.eventType = 0 then
    some <| .object [("id", .int h.id), ("date", .str h.date), ("image_path", .str h.imagePath),
      ("plate_number", .str h.plateNumber), ("event_type", .int h.eventType),
      ("start_snapshot", .str h.startSnapshot), ("end_snapshot", .str h.endSnapshot)]
  else if h.eventType = 1 then
    some <| .object <| [("id", .int h.id), ("date", .str h.date),
      ("image_path", .str h.imagePath), ("plate_number", .str h.plateNumber),
      ("event_type", .int h.eventType)] ++
      (match h.speed with
        | some v => [("speed", .float (P.rounded v))]
        | none => [])
  else if h.eventType = 2 then
    some <| .object [("id", .int h.id), ("date", .str h.date), ("image_path", .str h.imagePath),
      ("event_type", .int h.eventType)]
  else none

/-- What the four queries do once their parameters are read and checked. -/
def answerQuery (valid : Bool) (email : Bytes) (query : Server P (List (History P)))
    (render : History P → Option Json) : Server P Bytes := do
  if !valid then
    return errorReply 400 "Invalid input format"
  else match ← getUserByEmail email with
    | none => return errorReply 404 "User not found"
    | some _ =>
        let histories ← query
        dataReply "History retrieved successfully" (.arr (histories.filterMap render))

def handleGetHistory (payload : Bytes) : Server P Bytes :=
  let (email, iss) := (IStream.ofBytes payload).word
  let (limit, iss) := iss.int 10
  let (offset, _) := iss.int 0
  answerQuery (!(email.isEmpty || limit ≤ 0 || offset < 0)) email
    (getHistories limit offset) (some ∘ renderFull)

def handleGetHistoryByEventType (payload : Bytes) : Server P Bytes :=
  let (email, iss) := (IStream.ofBytes payload).word
  let (eventType, iss) := iss.int 0
  let (limit, iss) := iss.int 10
  let (offset, _) := iss.int 0
  answerQuery (!(email.isEmpty || eventType < 0 || limit ≤ 0 || offset < 0)) email
    (getHistoriesByEventType eventType limit offset) renderCompact

def dayStart (date : Bytes) : Bytes := date ++ ascii " 00:00:00"

def dayEnd (date : Bytes) : Bytes := date ++ ascii " 23:59:59"

def handleGetHistoryByDateRange (payload : Bytes) : Server P Bytes :=
  let (email, iss) := (IStream.ofBytes payload).word
  let (startDateRaw, iss) := iss.word
  let (endDateRaw, iss) := iss.word
  let (limit, iss) := iss.int 10
  let (offset, _) := iss.int 0
  answerQuery
    (!(email.isEmpty || startDateRaw.isEmpty || endDateRaw.isEmpty || limit ≤ 0 || offset < 0))
    email
    (getHistoriesByDateRange (dayStart startDateRaw) (dayEnd endDateRaw) limit offset)
    (some ∘ renderFull)

def handleGetHistoryByEventTypeAndDateRange (payload : Bytes) : Server P Bytes :=
  let (email, iss) := (IStream.ofBytes payload).word
  let (eventType, iss) := iss.int 0
  let (startDateRaw, iss) := iss.word
  let (endDateRaw, iss) := iss.word
  let (limit, iss) := iss.int 10
  let (offset, _) := iss.int 0
  answerQuery
    (!(email.isEmpty || startDateRaw.isEmpty || endDateRaw.isEmpty || eventType < 0 || limit ≤ 0 ||
      offset < 0)) email
    (getHistoriesByEventTypeAndDateRange eventType (dayStart startDateRaw) (dayEnd endDateRaw) limit
      offset) renderCompact

/-- `std::replace(rawDate.begin(), rawDate.end(), '_', ' ')`. -/
def replaceUnderscores (rawDate : Bytes) : Bytes := rawDate.map fun c => if c = 95 then 32 else c

/-- The fields ADD_HISTORY reads; `garbage` is the value of the unwritten `eventType`. -/
def parseHistory (payload : Bytes) (garbage : ℤ) : Bytes × History P :=
  let (rawDate, iss) := (IStream.ofBytes payload).word
  let (imagePath, iss) := iss.word
  let (plateNumber, iss) := iss.word
  let (eventType, iss) := iss.int garbage
  let (startSnapshot, iss) := iss.word
  let (endSnapshot, iss) := iss.word
  let (speed, _) := iss.float P.strtof P.minusOne
  (rawDate, ⟨replaceUnderscores rawDate, imagePath, plateNumber, eventType, startSnapshot,
    endSnapshot, if eventType = 1 ∧ P.nonneg speed = true then some speed else none, -1⟩)

def handleAddHistory (payload : Bytes) : Server P Bytes := do
  let garbage ← sys .uninitialised
  let (rawDate, newHistory) := parseHistory payload (columnInt garbage)
  if rawDate = [] ∨ newHistory.imagePath = [] ∨ newHistory.plateNumber = [] ∨
      newHistory.eventType < 0 ∨ 2 < newHistory.eventType then
    return errorReply 400 "Invalid input format"
  else if ← createHistory newHistory then
    return successReply "History created successfully"
  else
    return errorReply 500 "Failed to create history"

def overlayConfig : Bytes := ascii "/dev/shm/overlay_config"

def shmStatus : Bytes := ascii "/dev/shm/shm_status"

inductive FrameEdit
  | reject (message : String)
  /-- The JSON exception of writing a member of a value that is no object. -/
  | throw
  | accept (config : Json)

/-- `config[key] = v`: null becomes an object. -/
def assign (config : Json) (key : String) (v : Json) : Option Json :=
  match config with
  | .obj members => some (.obj (Json.setKey (ascii key) v members))
  | .null => some (.obj (Json.setKey (ascii key) v []))
  | _ => none

/-- `config.erase(key)` of an object. -/
def erase (config : Json) (key : String) : Json :=
  match config with
  | .obj members => .obj (Json.eraseKey (ascii key) members)
  | config => config

/-- `config[key] = static_cast<bool>(bool_val)` after `iss >> bool_val`. -/
def changeFlag (key : String) (iss : IStream) (config : Json) : FrameEdit :=
  let (boolVal, iss) := iss.int 0
  if iss.fail ∨ (boolVal ≠ 0 ∧ boolVal ≠ 1) then .reject "Invalid boolean value"
  else match assign config key (.bool (boolVal ≠ 0)) with
    | some config => .accept config
    | none => .throw

def changeMode (iss : IStream) (config : Json) : FrameEdit :=
  let (modeVal, iss) := iss.word
  if iss.fail ∨ (modeVal ≠ ascii "original" ∧ modeVal ≠ ascii "sharp" ∧ modeVal ≠ ascii "day" ∧
      modeVal ≠ ascii "night") then .reject "Invalid mode value"
  else match assign config "mode" (.str modeVal) with
    | none => .throw
    | some config =>
        if modeVal = ascii "sharp" then
          let (sharpnessVal, iss) := iss.int 0
          if iss.fail ∨ sharpnessVal < 0 ∨ 100 < sharpnessVal then
            .reject "Invalid sharpness level (0~100)"
          else match assign config "sharpness_level" (.int sharpnessVal) with
            | some config => .accept config
            | none => .throw
        else .accept (erase config "sharpness_level")

def changeFrame (menuType : ℤ) (iss : IStream) (config : Json) : FrameEdit :=
  if menuType = 0 then changeFlag "show_bbox" iss config
  else if menuType = 1 then changeFlag "show_timestamp" iss config
  else if menuType = 2 then changeMode iss config
  else .reject "Unknown menu_type"

/-- `ofs << config.dump(); ofs.close();`, nothing being checked afterwards. -/
def saveConfig (config : Json) : Server P Bytes := do
  match ← sys (.openWrite overlayConfig) with
  | none => return errorReply 500 "Failed to write overlay_config"
  | some ino => match config.dump with
    | none => .throw
    | some text =>
        let _ ← sys (.write ino 0 text)
        let _ ← sys (.closeWrite ino)
        return successReply "Overlay config updated"

/-- `std::ifstream ifs(path); ifs >> config;` with the replies to its failures. -/
def withConfig (path : Bytes) (name : String) (use : Json → Server P Bytes) : Server P Bytes := do
  match ← sys (.openRead path) with
  | none => return errorReply 500 ("Failed to open " ++ name)
  | some e => match (← sys (.readAll e)).bind P.parseJson with
    | none => return errorReply 500 ("Failed to parse " ++ name)
    | some config => use config

def handleChangeFrame (payload : Bytes) : Server P Bytes :=
  let (menuType, iss) := (IStream.ofBytes payload).int 0
  if iss.fail then return errorReply 400 "Invalid input format"
  else withConfig overlayConfig "overlay_config" fun config =>
    match changeFrame menuType iss config with
    | .reject message => return errorReply 400 message
    | .throw => .throw
    | .accept config => saveConfig config

def handleGetFrame : Server P Bytes :=
  withConfig overlayConfig "overlay_config" (dataReply "Overlay config retrieved")

def handleGetLog : Server P Bytes :=
  withConfig shmStatus "shm_status" (dataReply "shm_status retrieved")

def isTrimmed (c : UInt8) : Bool := c == 32 || c == 9 || c == 13 || c == 10

def splitCommand (commandStr : Bytes) : Bytes × Bytes :=
  let (command, iss) := (IStream.ofBytes commandStr).getline 32
  ((command.dropWhile isTrimmed).rdropWhile isTrimmed, (iss.getline 10).1)

def dispatch (command payload : Bytes) : Server P Bytes :=
  if command = ascii "REGISTER" then handleRegister payload
  else if command = ascii "LOGIN" then handleLogin payload
  else if command = ascii "RESET_PASSWORD" then handleResetPassword payload
  else if command = ascii "GET_HISTORY" then handleGetHistory payload
  else if command = ascii "ADD_HISTORY" then handleAddHistory payload
  else if command = ascii "GET_HISTORY_BY_EVENT_TYPE" then handleGetHistoryByEventType payload
  else if command = ascii "GET_HISTORY_BY_DATE_RANGE" then handleGetHistoryByDateRange payload
  else if command = ascii "GET_HISTORY_BY_EVENT_TYPE_AND_DATE_RANGE" then
    handleGetHistoryByEventTypeAndDateRange payload
  else if command = ascii "CHANGE_FRAME" then handleChangeFrame payload
  else if command = ascii "GET_FRAME" then handleGetFrame
  else if command = ascii "GET_LOG" then handleGetLog
  else return errorReply 400 "Unknown command"

def handle (commandStr : Bytes) : Server P Bytes :=
  let (command, payload) := splitCommand commandStr
  dispatch command payload

section Calls

open Prog

theorem calls_dataReply {C : Call P → Prop} (message : String) (data : Json) :
    (dataReply (P := P) message data).Calls C := by
  unfold dataReply
  split <;> trivial

theorem calls_getUserByEmail (email : Bytes) :
    (getUserByEmail (P := P) email).Calls Call.SparesHistory :=
  calls_bind (calls_perform trivial) fun _ => trivial

theorem calls_select (tidy : History P → History P) (f : HistoryFilter) (limit offset : ℤ) :
    (select tidy f limit offset).Calls Call.KeepsHistory :=
  calls_bind (calls_perform trivial) fun _ => trivial

theorem calls_handleRegister (payload : Bytes) :
    (handleRegister (P := P) payload).Calls Call.SparesHistory := by
  refine calls_ite trivial (calls_bind (calls_getUserByEmail _) fun user => ?_)
  refine calls_ite trivial (calls_bind (calls_perform trivial) fun t => ?_)
  exact calls_bind (calls_perform trivial) fun ok => calls_ite trivial trivial

theorem calls_handleLogin (payload : Bytes) :
    (handleLogin (P := P) payload).Calls Call.SparesHistory := by
  refine calls_ite trivial (calls_bind (calls_getUserByEmail _) fun user => ?_)
  cases user with
  | none => trivial
  | some user => exact calls_ite trivial trivial

theorem calls_handleResetPassword (payload : Bytes) :
    (handleResetPassword (P := P) payload).Calls Call.SparesHistory := by
  refine calls_ite trivial (calls_bind (calls_getUserByEmail _) fun user => ?_)
  cases user with
  | none => trivial
  | some user => exact calls_bind (calls_perform trivial) fun ok => calls_ite trivial trivial

theorem calls_answerQuery {valid : Bool} {email : Bytes} {query : Server P (List (History P))}
    {render : History P → Option Json} (h : query.Calls Call.KeepsHistory) :
    (answerQuery valid email query render).Calls Call.KeepsHistory := by
  have hlookup := (calls_getUserByEmail (P := P) email).mono fun _ => Call.SparesHistory.keeps
  refine calls_ite trivial (calls_bind hlookup fun user => ?_)
  cases user with
  | none => trivial
  | some user => exact calls_bind h fun histories => calls_dataReply _ _

theorem calls_handleAddHistory (payload : Bytes) :
    (handleAddHistory (P := P) payload).Calls Call.OffStream := by
  refine calls_bind (calls_perform trivial) fun garbage => calls_ite trivial ?_
  exact calls_bind (calls_perform trivial) fun ok => calls_ite trivial trivial

theorem calls_withConfig {path : Bytes} {name : String} {use : Json → Server P Bytes}
    (h : ∀ config, (use config).Calls Call.SparesHistory) :
    (withConfig path name use).Calls Call.SparesHistory := by
  refine calls_bind (calls_perform trivial) fun e => ?_
  cases e with
  | none => trivial
  | some e =>
    refine calls_bind (calls_perform trivial) fun text => ?_
    split
    · trivial
    · exact h _

theorem calls_handleChangeFrame (payload : Bytes) :
    (handleChangeFrame (P := P) payload).Calls Call.SparesHistory := by
  refine calls_ite trivial (calls_withConfig fun config => ?_)
  dsimp only
  split
  · trivial
  · trivial
  · refine calls_bind (calls_perform trivial) fun ino => ?_
    cases ino with
    | none => trivial
    | some ino =>
      dsimp only
      split
      · trivial
      · refine calls_bind (calls_perform trivial) fun _ => ?_
        exact calls_bind (calls_perform trivial) fun _ => trivial

/-- Only ADD_HISTORY changes the history, and no command touches the connection. -/
theorem calls_dispatch {command : Bytes} (payload : Bytes) (h : command ≠ ascii "ADD_HISTORY") :
    (dispatch (P := P) command payload).Calls Call.KeepsHistory := by
  have hspares : ∀ {p : Server P Bytes}, p.Calls Call.SparesHistory → p.Calls Call.KeepsHistory :=
    fun hp => hp.mono fun _ => Call.SparesHistory.keeps
  unfold dispatch
  rw [if_neg h]
  refine calls_ite (hspares (calls_handleRegister _)) <|
    calls_ite (hspares (calls_handleLogin _)) <|
    calls_ite (hspares (calls_handleResetPassword _)) <| calls_ite ?_ <| calls_ite ?_ <|
    calls_ite ?_ <| calls_ite ?_ <| calls_ite (hspares (calls_handleChangeFrame _)) <|
    calls_ite ?_ <| calls_ite ?_ trivial
  · exact calls_answerQuery (calls_select _ _ _ _)
  · exact calls_answerQuery (calls_select _ _ _ _)
  · exact calls_answerQuery (calls_select _ _ _ _)
  · exact calls_answerQuery (calls_select _ _ _ _)
  · exact hspares (calls_withConfig fun _ => calls_dataReply _ _)
  · exact hspares (calls_withConfig fun _ => calls_dataReply _ _)

theorem calls_handle (commandStr : Bytes) :
    (handle (P := P) commandStr).Calls Call.OffStream := by
  change (dispatch (splitCommand commandStr).1 (splitCommand commandStr).2).Calls _
  by_cases h : (splitCommand commandStr).1 = ascii "ADD_HISTORY"
  · rw [h]
    simp +decide only [dispatch, if_true, if_false]
    exact calls_handleAddHistory _
  · exact (calls_dispatch _ h).mono fun _ ho => ho.offStream

end Calls

end CommandHandler

end CctvServer
