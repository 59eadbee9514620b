import CctvServer.CommandHandler
import CctvServer.Extraction
import CctvServer.ImageHandler

namespace CctvServer

open ImageHandler

variable {P : Platform}

namespace TcpServer

/-- What the line reader ends with: a line, the end of the connection, or too little fuel. -/
inductive Line
  | line (cmd : Bytes)
  | ended
  | pending
  deriving DecidableEq, Repr

def readLine : ℕ → Bytes → Server P Line
  | 0, _ => return .pending
  | fuel + 1, cmd => do
      match ← sys .sslReadChar with
      | none => return .ended
      | some ch =>
          if ch = 10 then return .line (cmd ++ [ch]) else readLine fuel (cmd ++ [ch])

theorem readLine_succ (fuel : ℕ) (cmd : Bytes) :
    readLine (P := P) (fuel + 1) cmd = .call .sslReadChar fun r =>
      match r with
      | none => .ret .ended
      | some ch => if ch = 10 then .ret (.line (cmd ++ [ch])) else readLine fuel (cmd ++ [ch]) :=
  rfl

/-- `if (s.back() != '\n') s.push_back('\n')`. -/
def terminate (s : Bytes) : Bytes := if s.getLast? = some 10 then s else s ++ [10]

/-- The raw string literal of the source: its last two characters are a backslash and an n. -/
def invalidUpload : Bytes :=
  ascii ("\x7b\"status\":\"error\",\"code\":400,\"message\":\"Invalid filename or filesize\"\x7d" ++
    "\\n")

def missingPath : Bytes :=
  ascii "\x7b\"status\": \"error\", \"code\": 400, \"message\": \"Missing image path\"\x7d"

def isUpload (cmd : Bytes) : Bool := (ascii "UPLOAD").isPrefixOf cmd

def isGetImage (cmd : Bytes) : Bool := (ascii "GET_IMAGE").isPrefixOf cmd

/-- `iss >> tag >> filename >> filesize`, `garbage` being the unwritten `filesize`. -/
def parseUpload (cmd : Bytes) (garbage : ℕ) : Bytes × ℕ :=
  let (_, iss) := (IStream.ofBytes cmd).word
  let (filename, iss) := iss.word
  (filename, (iss.size (garbage % 2 ^ 64)).1)

theorem parseUpload_tokens (cmd : Bytes) (garbage : ℕ) : parseUpload cmd garbage =
    ((words cmd).getD 1 [], IStream.sizeTokens (garbage % 2 ^ 64) ((words cmd).drop 2)) := by
  obtain ⟨-, t₁⟩ := IStream.word_eq (IStream.ofBytes cmd)
  obtain ⟨h₂, t₂⟩ := IStream.word_eq (IStream.ofBytes cmd).word.2
  have hsize := IStream.size_tokens (garbage % 2 ^ 64) (IStream.ofBytes cmd).word.2.word.2
  rw [IStream.tokens_ofBytes] at t₁
  rw [t₁, IStream.headD_tail_eq_getD] at h₂
  rw [t₂, t₁, ← List.drop_one, ← List.drop_one, List.drop_drop] at hsize
  rw [← h₂, ← hsize]
  rfl

/-- `iss >> tag >> imagePath`. -/
def parseGetImage (cmd : Bytes) : Bytes := (IStream.ofBytes cmd).word.2.word.1

def serveUpload (cmd : Bytes) : Server P Unit := do
  let garbage ← sys .uninitialised
  let (filename, filesize) := parseUpload cmd garbage
  if filename = [] ∨ filesize = 0 then
    let _ ← sys (.sslWrite invalidUpload)
    return ()
  else
    let result ← handleImageUpload filename filesize
    let _ ← sys (.sslWrite (terminate result))
    return ()

theorem serveUpload_eq (cmd : Bytes) :
    serveUpload (P := P) cmd = .call .uninitialised fun garbage =>
      if (parseUpload cmd garbage).1 = [] ∨ (parseUpload cmd garbage).2 = 0 then
        .call (.sslWrite invalidUpload) fun _ => .ret ()
      else handleImageUpload (parseUpload cmd garbage).1 (parseUpload cmd garbage).2 >>=
        fun result => .call (.sslWrite (terminate result)) fun _ => .ret () := by
  unfold serveUpload
  rfl

/-- The result is that of the connection. -/
def serveGetImage (fuel : ℕ) (cmd : Bytes) : Server P (Option Bool) := do
  if parseGetImage cmd = [] then
    let _ ← sys (.sslWrite missingPath)
    return some false
  else match ← handleGetImage fuel (parseGetImage cmd) with
    | some _ => return some true
    | none => return none

def serveCommand (cmd : Bytes) : Server P Unit := do
  let resp ← CommandHandler.handle cmd
  let _ ← sys (.sslWrite (terminate resp))
  return ()

/-- One connection, its image handler being set. `none` is a run that needs more
fuel; a line costs one unit of it. -/
def handleClientSSL : ℕ → Server P (Option Bool)
  | 0 => return none
  | fuel + 1 => do
      match ← readLine (fuel + 1) [] with
      | .pending => return none
      | .ended => return some false
      | .line cmd =>
          if cmd = [10] then handleClientSSL fuel
          else do
            sys (.received cmd)
            if isUpload cmd then
              serveUpload cmd
              handleClientSSL fuel
            else if isGetImage cmd then serveGetImage fuel cmd
            else
              serveCommand cmd
              handleClientSSL fuel

theorem handleClientSSL_succ (fuel : ℕ) :
    handleClientSSL (P := P) (fuel + 1) = readLine (fuel + 1) [] >>= fun line =>
      match line with
      | .pending => .ret none
      | .ended => .ret (some false)
      | .line cmd =>
          if cmd = [10] then handleClientSSL fuel
          else .call (.received cmd) fun _ =>
            if isUpload cmd then serveUpload cmd >>= fun _ => handleClientSSL fuel
            else if isGetImage cmd then serveGetImage fuel cmd
            else serveCommand cmd >>= fun _ => handleClientSSL fuel := rfl

theorem calls_readLine {C : Call P → Prop} (hC : C .sslReadChar) (fuel : ℕ) (cmd : Bytes) :
    (readLine fuel cmd).Calls C := by
  induction fuel generalizing cmd with
  | zero => trivial
  | succ fuel ih =>
    rw [readLine_succ]
    refine ⟨hC, fun r => ?_⟩
    cases r with
    | none => trivial
    | some ch => exact Prog.calls_ite trivial (ih _)

theorem calls_serveUpload (cmd : Bytes) :
    (serveUpload (P := P) cmd).Calls fun o => o.Within ∧ o.OffDatabase := by
  have hwrite : ∀ b, Call.Within (.sslWrite (P := P) b) ∧ Call.OffDatabase (.sslWrite (P := P) b) :=
    fun _ => ⟨trivial, trivial⟩
  rw [serveUpload_eq]
  refine ⟨⟨trivial, trivial⟩, fun garbage => Prog.calls_ite ⟨hwrite _, fun _ => trivial⟩ ?_⟩
  exact Prog.calls_bind (calls_handleImageUpload _ _) fun _ => ⟨hwrite _, fun _ => trivial⟩

theorem calls_serveGetImage (fuel : ℕ) (cmd : Bytes) :
    (serveGetImage (P := P) fuel cmd).Calls fun o => o.Quiet ∧ o.OffDatabase := by
  refine Prog.calls_ite ?_ ?_
  · exact Prog.calls_bind (Prog.calls_perform ⟨trivial, trivial⟩) fun _ => trivial
  refine Prog.calls_bind (calls_handleGetImage _ _) fun x => ?_
  cases x <;> trivial

theorem calls_serveCommand (cmd : Bytes) : (serveCommand (P := P) cmd).Calls Call.Quiet :=
  Prog.calls_bind ((CommandHandler.calls_handle cmd).mono fun _ h => h.quiet) fun _ =>
    Prog.calls_bind (Prog.calls_perform trivial) fun _ => trivial

end TcpServer

end CctvServer
