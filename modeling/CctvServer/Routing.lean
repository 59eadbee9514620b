import CctvServer.CommandLines
import CctvServer.Reference
import CctvServer.TcpServer

namespace CctvServer

open CommandHandler TcpServer

variable {P : Platform}

inductive Operation
  | upload
  | getImage
  | command (c : Command)
  deriving DecidableEq

namespace Operation

def text : Operation → String
  | upload => "UPLOAD"
  | getImage => "GET_IMAGE"
  | command c => c.text

def ofName (name : Bytes) : Option Operation :=
  if name = ascii "UPLOAD" then some upload
  else if name = ascii "GET_IMAGE" then some getImage
  else (Command.ofWord name).map command

theorem ofName_text (o : Operation) : ofName (ascii o.text) = some o := by
  cases o with
  | upload => decide
  | getImage => decide
  | command c =>
    cases c with
    | query q => cases q <;> decide
    | _ => decide

theorem ofName_eq_some {name : Bytes} {o : Operation} (h : ofName name = some o) :
    name = ascii o.text := by
  unfold ofName at h
  split_ifs at h with h₁ h₂
  · cases h
    exact h₁
  · cases h
    exact h₂
  · obtain ⟨c, hc, rfl⟩ := Option.map_eq_some_iff.mp h
    exact Command.ofWord_eq_some hc

theorem text_untrimmed (o : Operation) : ∀ c ∈ ascii o.text, isTrimmed c = false := by
  cases o with
  | upload => decide
  | getImage => decide
  | command c =>
    cases c with
    | query q => cases q <;> decide
    | _ => decide

theorem text_ne_nil (o : Operation) : ascii o.text ≠ [] := by
  cases o with
  | upload => decide
  | getImage => decide
  | command c =>
    cases c with
    | query q => cases q <;> decide
    | _ => decide

end Operation

/-- The operation that a line is given to, by its first bytes or by its command word. -/
def routeLine (cmd : Bytes) : Option Operation :=
  if isUpload cmd then some .upload
  else if isGetImage cmd then some .getImage
  else (Command.ofWord (splitCommand cmd).1).map .command

/-- An operation and what follows it on the connection; without one the line is answered
as unknown. -/
def execute (fuel : ℕ) (cmd : Bytes) : Option Operation → Server P (Option Bool)
  | some .upload => serveUpload cmd >>= fun _ => handleClientSSL fuel
  | some .getImage => serveGetImage fuel cmd
  | some (.command c) => c.serve (splitCommand cmd).2 >>= fun resp =>
      .call (.sslWrite (terminate resp)) fun _ => handleClientSSL fuel
  | none => .call (.sslWrite (terminate (errorReply 400 "Unknown command"))) fun _ =>
      handleClientSSL fuel

theorem serveCommand_bind (fuel : ℕ) (cmd : Bytes) :
    (serveCommand (P := P) cmd >>= fun _ => handleClientSSL fuel) =
      execute fuel cmd ((Command.ofWord (splitCommand cmd).1).map .command) := by
  rw [serveCommand, Prog.bind_assoc, handle_eq]
  cases Command.ofWord (splitCommand cmd).1 with
  | none => rfl
  | some c => rfl

/-- What follows a line that was read: all but the empty one are routed. -/
def serveLine (fuel : ℕ) : Line → Server P (Option Bool)
  | .pending => .ret none
  | .ended => .ret (some false)
  | .line cmd =>
      if cmd = [10] then handleClientSSL fuel
      else .call (.received cmd) fun _ => execute fuel cmd (routeLine cmd)

theorem handleClientSSL_routeLine (fuel : ℕ) :
    handleClientSSL (P := P) (fuel + 1) = readLine (fuel + 1) [] >>= serveLine fuel := by
  rw [handleClientSSL_succ]
  refine congrArg (readLine (fuel + 1) [] >>= ·) (funext fun line => ?_)
  cases line with
  | pending => rfl
  | ended => rfl
  | line cmd =>
    refine if_congr Iff.rfl rfl (congrArg (Prog.call _) (funext fun _ => ?_))
    unfold routeLine
    split_ifs
    · rfl
    · rfl
    · exact serveCommand_bind fuel cmd

def named (cmd : Bytes) : Option Operation := Operation.ofName (Tokens.first isTrimmed cmd)

/-- The lines that are routed by their first token. An upload and a download stand at the
start of their line; before another command is no space and between it and the next space
nothing but blanks; and no line begins with more than the name of an upload or a download. -/
def Routable (cmd : Bytes) : Prop :=
  match named cmd with
  | some (.command _) => (32 : UInt8) ∉ cmd.takeWhile isTrimmed ∧
      ∀ c ∈ (Tokens.behind isTrimmed cmd).takeWhile (· != 32), isTrimmed c = true
  | some _ => cmd.takeWhile isTrimmed = []
  | none => cmd.takeWhile isTrimmed = [] →
      ¬ascii "UPLOAD" <+: Tokens.first isTrimmed cmd ∧
        ¬ascii "GET_IMAGE" <+: Tokens.first isTrimmed cmd

theorem splitCommand_eq_iff {cmd name : Bytes} (hne : name ≠ [])
    (hname : ∀ c ∈ name, isTrimmed c = false) : (splitCommand cmd).1 = name ↔
      Tokens.first isTrimmed cmd = name ∧ (32 : UInt8) ∉ cmd.takeWhile isTrimmed ∧
        ∀ c ∈ (Tokens.behind isTrimmed cmd).takeWhile (· != 32), isTrimmed c = true := by
  rw [splitCommand_word, Tokens.trim_eq_iff hne hname]
  by_cases hspace : (32 : UInt8) ∈ cmd.takeWhile isTrimmed
  · rw [Tokens.first_takeWhile_nil hspace]
    simp [hspace, hne.symm]
  · by_cases htoken : Tokens.first isTrimmed cmd = []
    · have hnone : Tokens.first isTrimmed (cmd.takeWhile (· != 32)) = [] :=
        Tokens.first_eq_nil_iff.mpr fun c hc =>
          Tokens.first_eq_nil_iff.mp htoken c (List.takeWhile_subset _ hc)
      rw [htoken, hnone]
      simp [hne.symm]
    · obtain ⟨hfirst, hbehind⟩ := Tokens.parts_takeWhile (p := isTrimmed) rfl htoken hspace
      rw [hfirst, hbehind]
      simp [hspace]

theorem isUpload_iff (cmd : Bytes) : isUpload cmd = true ↔
    cmd.takeWhile isTrimmed = [] ∧ ascii "UPLOAD" <+: Tokens.first isTrimmed cmd := by
  rw [isUpload, List.isPrefixOf_iff_prefix]
  exact Tokens.prefix_iff (by decide) (by decide)

theorem isGetImage_iff (cmd : Bytes) : isGetImage cmd = true ↔
    cmd.takeWhile isTrimmed = [] ∧ ascii "GET_IMAGE" <+: Tokens.first isTrimmed cmd := by
  rw [isGetImage, List.isPrefixOf_iff_prefix]
  exact Tokens.prefix_iff (by decide) (by decide)

theorem routeLine_upload_iff (cmd : Bytes) :
    routeLine cmd = some .upload ↔ isUpload cmd = true := by
  unfold routeLine
  split_ifs with h₁ h₂
  · simp [h₁]
  · simp [h₁]
  · simp [h₁]

theorem routeLine_getImage_iff (cmd : Bytes) :
    routeLine cmd = some .getImage ↔ isUpload cmd = false ∧ isGetImage cmd = true := by
  unfold routeLine
  split_ifs with h₁ h₂
  · simp [h₁]
  · simp [h₁, h₂]
  · simp [h₂]

theorem routeLine_command_iff (cmd : Bytes) (c : Command) : routeLine cmd = some (.command c) ↔
    isUpload cmd = false ∧ isGetImage cmd = false ∧ (splitCommand cmd).1 = ascii c.text := by
  have hword : Command.ofWord (splitCommand cmd).1 = some c ↔
      (splitCommand cmd).1 = ascii c.text := by
    constructor
    · exact Command.ofWord_eq_some
    · intro h
      rw [h, Command.ofWord_text]
  unfold routeLine
  split_ifs with h₁ h₂
  · simp [h₁]
  · simp [h₂]
  · simp [h₁, h₂, hword]

theorem routeLine_none_iff (cmd : Bytes) : routeLine cmd = none ↔
    isUpload cmd = false ∧ isGetImage cmd = false ∧
      ∀ c : Command, (splitCommand cmd).1 ≠ ascii c.text := by
  rw [← Command.ofWord_eq_none]
  unfold routeLine
  split_ifs with h₁ h₂
  · simp [h₁]
  · simp [h₂]
  · simp [h₁, h₂]

/-- No command's name begins with that of an upload or a download. -/
theorem command_not_prefix (c : Command) :
    ¬ascii "UPLOAD" <+: ascii c.text ∧ ¬ascii "GET_IMAGE" <+: ascii c.text := by
  cases c with
  | query q => cases q <;> decide
  | _ => decide

/-- A line is routed by its first token, whatever else it holds, exactly if it is routable. -/
theorem routeLine_eq_named_iff (cmd : Bytes) : routeLine cmd = named cmd ↔ Routable cmd := by
  have hupload : isUpload cmd = false ↔ (cmd.takeWhile isTrimmed = [] →
      ¬ascii "UPLOAD" <+: Tokens.first isTrimmed cmd) := by
    rw [← Bool.not_eq_true, isUpload_iff, not_and]
  have hget : isGetImage cmd = false ↔ (cmd.takeWhile isTrimmed = [] →
      ¬ascii "GET_IMAGE" <+: Tokens.first isTrimmed cmd) := by
    rw [← Bool.not_eq_true, isGetImage_iff, not_and]
  unfold Routable
  cases hnamed : named cmd with
  | none =>
    -- a command word that is a name is the first token
    have hword : ∀ c : Command, (splitCommand cmd).1 ≠ ascii c.text := by
      intro c hc
      have htoken := (splitCommand_eq_iff (Operation.text_ne_nil (.command c))
        (Operation.text_untrimmed (.command c))).mp hc
      have hsome := Operation.ofName_text (.command c)
      rw [named, htoken.1, hsome] at hnamed
      cases hnamed
    rw [routeLine_none_iff, hupload, hget, and_iff_left hword]
    exact forall_and.symm
  | some o =>
    have htoken : Tokens.first isTrimmed cmd = ascii o.text := Operation.ofName_eq_some hnamed
    rw [htoken] at hupload hget
    cases o with
    | upload =>
      have hprefix : ascii "UPLOAD" <+: Tokens.first isTrimmed cmd := htoken ▸ List.prefix_refl _
      rw [routeLine_upload_iff, isUpload_iff, and_iff_left hprefix]
    | getImage =>
      have hprefix : ascii "GET_IMAGE" <+: Tokens.first isTrimmed cmd :=
        htoken ▸ List.prefix_refl _
      have hother : isUpload cmd = false := hupload.mpr fun _ => by decide
      rw [routeLine_getImage_iff, isGetImage_iff, and_iff_left hprefix, and_iff_right hother]
    | command c =>
      obtain ⟨h₁, h₂⟩ := command_not_prefix c
      rw [routeLine_command_iff, and_iff_right (hupload.mpr fun _ => h₁),
        and_iff_right (hget.mpr fun _ => h₂)]
      exact (splitCommand_eq_iff (Operation.text_ne_nil (.command c))
        (Operation.text_untrimmed (.command c))).trans (and_iff_right htoken)

/-- A connection executes what its lines are routed to, and that is what the first token
names, or nothing if it names nothing, exactly for the routable lines. -/
theorem routed_by_first_token_iff :
    (∀ fuel, handleClientSSL (P := P) (fuel + 1) = readLine (fuel + 1) [] >>= serveLine fuel) ∧
      ∀ cmd, routeLine cmd = named cmd ↔ Routable cmd :=
  ⟨handleClientSSL_routeLine, routeLine_eq_named_iff⟩

/-- A space before a command, a tab behind it, and more than a name. -/
theorem lines_are_misrouted :
    (routeLine (ascii " LOGIN u p\n") = none ∧
      named (ascii " LOGIN u p\n") = some (.command .login)) ∧
    (routeLine (ascii "LOGIN\tu p\n") = none ∧
      named (ascii "LOGIN\tu p\n") = some (.command .login)) ∧
    (routeLine (ascii "UPLOADX a 1\n") = some .upload ∧ named (ascii "UPLOADX a 1\n") = none) ∧
    ((Server.run (handleClientSSL 20)
      (Reference.world Reference.emptyFs, ⟨ascii "UPLOADX a 1\nx", []⟩)).2.2.1.fs.lookup
        (ImageHandler.fullPath (ascii "a"))).isSome = true := by
  refine ⟨⟨by decide, by decide⟩, ⟨by decide, by decide⟩, ⟨by decide, by decide⟩, ?_⟩
  decide +kernel

end CctvServer
