import CctvServer.Rendering
import CctvServer.Tokens

namespace CctvServer

namespace CommandHandler

variable {P : Platform}

def commandLine (command : String) (payload : Bytes) : Bytes :=
  ascii command ++ 32 :: (payload ++ [10])

theorem splitCommand_word (cmd : Bytes) :
    (splitCommand cmd).1 = Tokens.trim isTrimmed (cmd.takeWhile (· != 32)) := by
  simp only [splitCommand, IStream.getline, IStream.ofBytes, IStream.good, Bool.not_false,
    Bool.and_self, if_true]
  split <;> rfl

theorem splitCommand_bare {cmd : Bytes} (h : (32 : UInt8) ∉ cmd) : (splitCommand cmd).2 = [] := by
  have hdrop : cmd.dropWhile (· != 32) = [] :=
    List.dropWhile_eq_nil_iff.mpr fun c hc => bne_iff_ne.mpr fun hc' => h (hc' ▸ hc)
  simp [splitCommand, IStream.getline, IStream.ofBytes, IStream.good, hdrop]

theorem splitCommand_payload {a b : Bytes} (ha : (32 : UInt8) ∉ a) (hb : (10 : UInt8) ∉ b) :
    (splitCommand (a ++ 32 :: (b ++ [10]))).2 = b := by
  obtain ⟨-, hdrop⟩ := Tokens.span_of_notMem (u := b ++ [10]) ha
  obtain ⟨htake, -⟩ := Tokens.span_of_notMem (u := []) hb
  simp only [splitCommand, IStream.getline, IStream.ofBytes, IStream.good, hdrop, htake,
    Bool.not_false, Bool.and_self, if_true]
  split <;> rfl

/-- A command word without blanks is told from its payload. -/
theorem splitCommand_commandLine {command : String} {payload : Bytes}
    (hc : ∀ c ∈ ascii command, isTrimmed c = false) (hp : (10 : UInt8) ∉ payload) :
    splitCommand (commandLine command payload) = (ascii command, payload) := by
  have hspace : (32 : UInt8) ∉ ascii command := fun h => by simpa [isTrimmed] using hc 32 h
  have hword : (splitCommand (commandLine command payload)).1 = ascii command := by
    rw [splitCommand_word, commandLine, (Tokens.span_of_notMem hspace).1, Tokens.trim_self hc]
  exact Prod.ext hword (splitCommand_payload hspace hp)

theorem handle_commandLine {command : String} {payload : Bytes}
    (hc : ∀ c ∈ ascii command, isTrimmed c = false) (hp : (10 : UInt8) ∉ payload) :
    handle (P := P) (commandLine command payload) = dispatch (ascii command) payload := by
  rw [handle, splitCommand_commandLine hc hp]

inductive QueryCommand
  | all
  | byType
  | byDates
  | byTypeAndDates
  deriving DecidableEq, Repr

namespace QueryCommand

def text : QueryCommand → String
  | all => "GET_HISTORY"
  | byType => "GET_HISTORY_BY_EVENT_TYPE"
  | byDates => "GET_HISTORY_BY_DATE_RANGE"
  | byTypeAndDates => "GET_HISTORY_BY_EVENT_TYPE_AND_DATE_RANGE"

def query : QueryCommand → Bytes → HistoryQuery
  | all => getHistory
  | byType => getHistoryByEventType
  | byDates => getHistoryByDateRange
  | byTypeAndDates => getHistoryByEventTypeAndDateRange

def typed : QueryCommand → Bool
  | byType | byTypeAndDates => true
  | all | byDates => false

def dated : QueryCommand → Bool
  | byDates | byTypeAndDates => true
  | all | byType => false

def handler : QueryCommand → Bytes → Server P Bytes
  | all => handleGetHistory
  | byType => handleGetHistoryByEventType
  | byDates => handleGetHistoryByDateRange
  | byTypeAndDates => handleGetHistoryByEventTypeAndDateRange

theorem handler_eq (c : QueryCommand) (payload : Bytes) :
    c.handler (P := P) payload = (c.query payload).answer := by
  cases c with
  | all => exact handleGetHistory_eq payload
  | byType => exact handleGetHistoryByEventType_eq payload
  | byDates => exact handleGetHistoryByDateRange_eq payload
  | byTypeAndDates => exact handleGetHistoryByEventTypeAndDateRange_eq payload

end QueryCommand

inductive Command
  | register
  | login
  | resetPassword
  | addHistory
  | query (q : QueryCommand)
  | changeFrame
  | getFrame
  | getLog
  deriving DecidableEq, Repr

namespace Command

def text : Command → String
  | register => "REGISTER"
  | login => "LOGIN"
  | resetPassword => "RESET_PASSWORD"
  | addHistory => "ADD_HISTORY"
  | query q => q.text
  | changeFrame => "CHANGE_FRAME"
  | getFrame => "GET_FRAME"
  | getLog => "GET_LOG"

def serve : Command → Bytes → Server P Bytes
  | register => handleRegister
  | login => handleLogin
  | resetPassword => handleResetPassword
  | addHistory => handleAddHistory
  | query q => fun payload => (q.query payload).answer
  | changeFrame => handleChangeFrame
  | getFrame => fun _ => handleGetFrame
  | getLog => fun _ => handleGetLog

def all : List Command :=
  [register, login, resetPassword, query .all, addHistory, query .byType, query .byDates,
    query .byTypeAndDates, changeFrame, getFrame, getLog]

def ofWord (word : Bytes) : Option Command := all.find? fun c => ascii c.text = word

theorem ofWord_text (c : Command) : ofWord (ascii c.text) = some c := by
  cases c with
  | query q => cases q <;> decide
  | _ => decide

theorem ofWord_eq_some {word : Bytes} {c : Command} (h : ofWord word = some c) :
    word = ascii c.text := by
  have := List.find?_some h
  exact (of_decide_eq_true this).symm

theorem ofWord_eq_none {word : Bytes} :
    ofWord word = none ↔ ∀ c : Command, word ≠ ascii c.text := by
  constructor
  · rintro h c rfl
    rw [ofWord_text] at h
    cases h
  · intro h
    cases hc : ofWord word with
    | none => rfl
    | some c => exact absurd (ofWord_eq_some hc) (h c)

end Command

theorem dispatch_of_ne {word : Bytes} (h : ∀ c : Command, word ≠ ascii c.text) (payload : Bytes) :
    dispatch (P := P) word payload = .ret (errorReply 400 "Unknown command") := by
  unfold dispatch
  refine (if_neg (h .register)).trans <| (if_neg (h .login)).trans <|
    (if_neg (h .resetPassword)).trans <| (if_neg (h (.query .all))).trans <|
    (if_neg (h .addHistory)).trans <| (if_neg (h (.query .byType))).trans <|
    (if_neg (h (.query .byDates))).trans <| (if_neg (h (.query .byTypeAndDates))).trans <|
    (if_neg (h .changeFrame)).trans <| (if_neg (h .getFrame)).trans <| if_neg (h .getLog)

theorem dispatch_text (c : Command) (payload : Bytes) :
    dispatch (P := P) (ascii c.text) payload = c.serve payload := by
  cases c with
  | query q =>
    refine Eq.trans ?_ (q.handler_eq payload)
    cases q <;> simp +decide only [QueryCommand.handler, dispatch, if_true, if_false]
  | _ => simp +decide only [Command.serve, dispatch, if_true, if_false]

/-- The chain of comparisons looks the word up among the commands. -/
theorem dispatch_eq (word payload : Bytes) : dispatch (P := P) word payload =
    (Command.ofWord word).elim (.ret (errorReply 400 "Unknown command")) (·.serve payload) := by
  cases h : Command.ofWord word with
  | none => exact dispatch_of_ne (Command.ofWord_eq_none.mp h) payload
  | some c =>
    rw [Command.ofWord_eq_some h, dispatch_text]
    rfl

theorem handle_eq (line : Bytes) : handle (P := P) line =
    (Command.ofWord (splitCommand line).1).elim (.ret (errorReply 400 "Unknown command"))
      (·.serve (splitCommand line).2) := dispatch_eq _ _

theorem calls_serve {c : Command} (hadd : c ≠ .addHistory) (hquery : ∀ q, c ≠ .query q)
    (payload : Bytes) : (c.serve (P := P) payload).Calls Call.SparesHistory := by
  cases c with
  | register => exact calls_handleRegister payload
  | login => exact calls_handleLogin payload
  | resetPassword => exact calls_handleResetPassword payload
  | addHistory => exact absurd rfl hadd
  | query q => exact absurd rfl (hquery q)
  | changeFrame => exact calls_handleChangeFrame payload
  | getFrame => exact calls_withConfig fun _ => calls_dataReply _ _
  | getLog => exact calls_withConfig fun _ => calls_dataReply _ _

theorem handle_addHistory {payload : Bytes} (hp : (10 : UInt8) ∉ payload) :
    handle (P := P) (commandLine "ADD_HISTORY" payload) = handleAddHistory payload := by
  rw [handle_commandLine (by decide) hp]
  exact dispatch_text .addHistory payload

theorem handle_query (command : QueryCommand) {payload : Bytes} (hp : (10 : UInt8) ∉ payload) :
    handle (P := P) (commandLine command.text payload) = (command.query payload).answer := by
  have hc : ∀ c ∈ ascii command.text, isTrimmed c = false := by cases command <;> decide
  rw [handle_commandLine hc hp]
  exact dispatch_text (.query command) payload

end CommandHandler

end CctvServer
