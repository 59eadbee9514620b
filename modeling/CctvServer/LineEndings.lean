import CctvServer.QueryFields
import CctvServer.LineSessions

namespace CctvServer

open CommandHandler IStream TcpServer

variable {P : Platform}

namespace CommandHandler

theorem credentials_congr {payload payload' : Bytes} (h : words payload = words payload') :
    credentials payload = credentials payload' := by
  have htokens : (ofBytes payload).tokens = (ofBytes payload').tokens := h
  obtain ⟨hemail, hrest, -⟩ := word_congr htokens
  obtain ⟨hpassword, -, -⟩ := word_congr hrest
  simp only [credentials, hemail, hpassword]

theorem changeFlag_congr {s s' : IStream} (h : s.tokens = s'.tokens) (key : String)
    (config : Json) : changeFlag key s config = changeFlag key s' config := by
  obtain ⟨hvalue, -, hfail⟩ := int_congr 0 h
  simp only [changeFlag, hvalue, hfail]

theorem changeMode_congr {s s' : IStream} (h : s.tokens = s'.tokens) (config : Json) :
    changeMode s config = changeMode s' config := by
  obtain ⟨hmode, hrest, hfail⟩ := word_congr h
  obtain ⟨hlevel, -, hfail'⟩ := int_congr 0 hrest
  simp only [changeMode, hmode, hfail, hlevel, hfail']

theorem changeFrame_congr {s s' : IStream} (h : s.tokens = s'.tokens) (menuType : ℤ)
    (config : Json) : changeFrame menuType s config = changeFrame menuType s' config := by
  simp only [changeFrame, changeFlag_congr h, changeMode_congr h]

theorem handleChangeFrame_congr {payload payload' : Bytes} (h : words payload = words payload') :
    handleChangeFrame (P := P) payload = handleChangeFrame payload' := by
  have htokens : (ofBytes payload).tokens = (ofBytes payload').tokens := h
  obtain ⟨hmenu, hrest, hfail⟩ := int_congr 0 htokens
  simp only [handleChangeFrame, hmenu, hfail, changeFrame_congr hrest]

/-- No command sees more of its payload than the tokens. -/
theorem Command.serve_congr (c : Command) {payload payload' : Bytes}
    (h : words payload = words payload') : c.serve (P := P) payload = c.serve payload' := by
  cases c with
  | register => simp only [serve, handleRegister, credentials_congr h]
  | login => simp only [serve, handleLogin, credentials_congr h]
  | resetPassword => simp only [serve, handleResetPassword, credentials_congr h]
  | addHistory => simp only [serve, handleAddHistory, parseHistory_tokens, h]
  | query q => simp only [serve, q.query_tokens, h]
  | changeFrame => exact handleChangeFrame_congr h
  | getFrame => rfl
  | getLog => rfl

theorem splitCommand_word_append {l u : Bytes} (hu : ∀ c ∈ u, isTrimmed c = true)
    (hspace : (32 : UInt8) ∉ u) : (splitCommand (l ++ u)).1 = (splitCommand l).1 := by
  have hu' : ∀ c ∈ u, (c != 32) = true := fun c hc => bne_iff_ne.mpr fun h => hspace (h ▸ hc)
  rw [splitCommand_word, splitCommand_word, List.takeWhile_append]
  split
  · rename_i hall
    have hl : l.takeWhile (· != 32) = l := (List.takeWhile_prefix _).eq_of_length hall
    rw [List.takeWhile_eq_self_iff.mpr hu', hl, Tokens.trim_append hu]
  · rfl

/-- A carriage return before the newline changes neither the command nor its tokens. -/
theorem splitCommand_crlf {l : Bytes} (h : (10 : UInt8) ∉ l) :
    (splitCommand (l ++ [13, 10])).1 = (splitCommand (l ++ [10])).1 ∧
      words (splitCommand (l ++ [13, 10])).2 = words (splitCommand (l ++ [10])).2 := by
  refine ⟨?_, ?_⟩
  · rw [splitCommand_word_append (by decide) (by decide),
      splitCommand_word_append (by decide) (by decide)]
  by_cases hspace : (32 : UInt8) ∈ l
  · obtain ⟨a, b, rfl, ha⟩ := List.eq_append_cons_of_mem hspace
    have hb : (10 : UInt8) ∉ b := fun hb => h (by simp [hb])
    have hcr : (10 : UInt8) ∉ b ++ [13] := by simp [hb]
    have hsplit : a ++ 32 :: b ++ [13, 10] = a ++ 32 :: (b ++ [13] ++ [10]) := by simp
    rw [hsplit, splitCommand_payload ha hcr, List.append_assoc, List.cons_append,
      splitCommand_payload ha hb]
    exact words_concat_space b (by decide)
  · rw [splitCommand_bare (by simp [hspace]), splitCommand_bare (by simp [hspace])]

theorem handle_crlf {l : Bytes} (h : (10 : UInt8) ∉ l) :
    handle (P := P) (l ++ [13, 10]) = handle (l ++ [10]) := by
  obtain ⟨hword, htokens⟩ := splitCommand_crlf h
  rw [handle_eq, handle_eq, hword]
  cases Command.ofWord (splitCommand (l ++ [10])).1 with
  | none => rfl
  | some c => exact c.serve_congr htokens

end CommandHandler

theorem sent_lf (lines : List RequestLine) :
    sent [10] lines = (lines.map fun l => l.bytes ++ [10]).flatten := List.flatMap_def ..

theorem sent_crlf (lines : List RequestLine) :
    sent [13, 10] lines = (lines.map fun l => l.bytes ++ [13, 10]).flatten := List.flatMap_def ..

theorem answerLine_crlf {l : Bytes} (h : (10 : UInt8) ∉ l) (hne : l ≠ []) :
    answerLine (P := P) (l ++ [13, 10]) = answerLine (l ++ [10]) := by
  have h₁ : l ++ [13, 10] ≠ [10] := by
    intro hl
    have := congrArg List.length hl
    simp at this
  have h₂ : l ++ [10] ≠ [10] := by simpa using hne
  rw [answerLine, answerLine, if_neg h₁, if_neg h₂, serveCommand, serveCommand, handle_crlf h]

/-- Whatever a client sends, its two line endings lead to the same calls, the same replies
and the same files and rows. -/
def EndingsAgree (w : World P) (lines : List RequestLine) : Prop :=
  ∀ allowed : Call P → Outcome → Prop, Logs allowed → ∀ log x s',
    Session allowed (sent [10] lines) (w, []) log x s' ↔
      Session allowed (sent [13, 10] lines) (w, []) log x s'

theorem endings_agree {lines : List RequestLine} (h : ∀ l ∈ lines, l.bytes ≠ []) (w : World P) :
    EndingsAgree w lines := by
  intro allowed hlogs log x s'
  have hlf : ∀ cmd ∈ lines.map fun l => l.bytes ++ [10], PlainLine cmd := by
    simpa using fun l _ => RequestLine.plain_lf l
  have hcrlf : ∀ cmd ∈ lines.map fun l => l.bytes ++ [13, 10], PlainLine cmd := by
    simpa using fun l _ => RequestLine.plain_crlf l
  rw [sent_lf, sent_crlf, session_iff hlogs hlf, session_iff hlogs hcrlf, List.map_map,
    List.map_map]
  have hanswers : ∀ l ∈ lines, answerLine (P := P) (l.bytes ++ [10]) =
      answerLine (l.bytes ++ [13, 10]) := fun l hl => (answerLine_crlf l.noNewline (h l hl)).symm
  rw [List.map_congr_left (g := answerLine ∘ fun l => l.bytes ++ [13, 10]) hanswers]

theorem serve_returns (c : Command) (payload : Bytes) (s : World P × Socket) :
    (Prog.run World.answer (.fail 0) (c.serve payload) [] s).2.1.isSome = true := by
  cases c with
  | register =>
    simp only [Command.serve, handleRegister]
    split_ifs
    · rfl
    · rfl
  | login =>
    simp only [Command.serve, handleLogin]
    split_ifs
    · rfl
    · rfl
  | resetPassword =>
    simp only [Command.serve, handleResetPassword]
    split_ifs
    · rfl
    · rfl
  | addHistory =>
    simp only [Command.serve, handleAddHistory_eq, Prog.run, storeRecord]
    split_ifs
    · rfl
    · rfl
  | query q =>
    simp only [Command.serve, HistoryQuery.answer, answerQuery]
    split_ifs
    · rfl
    · rfl
  | changeFrame =>
    simp only [Command.serve, handleChangeFrame]
    split_ifs
    · rfl
    · rfl
  | getFrame => rfl
  | getLog => rfl

def replyCount (log : List (Event (Res (P := P)))) : ℕ :=
  log.countP fun e => match e.1 with
    | .sslWrite _ => true
    | _ => false

theorem replyCount_append (a b : List (Event (Res (P := P)))) :
    replyCount (a ++ b) = replyCount a + replyCount b := List.countP_append ..

theorem replyCount_handle {allowed : Call P → Outcome → Prop} {cmd : Bytes}
    {s s' : World P × Socket} {tr : List (Event (Res (P := P)))} {x : Option Bytes}
    (h : Prog.Runs (World.Serves allowed) (handle cmd) s tr x s') : replyCount tr = 0 := by
  refine List.countP_eq_zero.mpr fun e he => ?_
  have hoff := (calls_handle cmd).of_runs h e he
  obtain ⟨o, r⟩ := e
  cases o <;> first | exact hoff.elim | simp

theorem replyCount_answerLine {allowed : Call P → Outcome → Prop} {cmd : Bytes}
    {s s' : World P × Socket} {tr : List (Event (Res (P := P)))} {x : Option Unit}
    (h : Prog.Runs (World.Serves allowed) (answerLine cmd) s tr x s') :
    replyCount tr ≤ if cmd = [10] then 0 else 1 := by
  unfold answerLine at h
  split_ifs at h ⊢ with hcmd
  · rw [h.1]
    exact le_rfl
  · rcases Prog.runs_bind.mp h with ⟨resp, s₁, tr₁, tr₂, hhandle, hwrite, rfl⟩ | ⟨-, hhandle⟩
    · obtain ⟨r, s₂, tr₃, -, hret, rfl⟩ := hwrite
      rw [replyCount_append, replyCount_handle hhandle, hret.1]
      exact le_rfl
    · rw [replyCount_handle hhandle]
      exact Nat.zero_le 1

theorem AnswersInTurn.replyCount_le {allowed : Call P → Outcome → Prop} {cmds : List Bytes}
    {s s' : World P × Bytes} {log : List (Event (Res (P := P)))} {x : Option (Option Bool)}
    (h : AnswersInTurn allowed (cmds.map answerLine) s log x s') :
    replyCount log ≤ cmds.countP (· ≠ [10]) := by
  induction cmds generalizing s log with
  | nil => cases h <;> exact le_rfl
  | cons cmd cmds ih =>
    have hcount : (cmd :: cmds).countP (· ≠ [10]) =
        cmds.countP (· ≠ [10]) + if cmd = [10] then 0 else 1 := by
      rw [List.countP_cons]
      by_cases hcmd : cmd = [10] <;> simp [hcmd]
    rw [hcount]
    cases h with
    | broken => exact Nat.zero_le _
    | next _ hreply hrest =>
      rw [replyCount_append, add_comm]
      exact Nat.add_le_add (ih hrest) (replyCount_answerLine hreply)
    | thrown _ hreply => exact (replyCount_answerLine hreply).trans (Nat.le_add_left ..)

theorem handle_returns (cmd : Bytes) (s : World P × Socket) :
    ∃ tr resp s', Prog.Runs (World.Serves fun _ _ => True) (handle cmd) s tr (some resp) s' := by
  have hsome : (Prog.run World.answer (.fail 0) (handle cmd) [] s).2.1.isSome = true := by
    rw [handle_eq]
    cases Command.ofWord (splitCommand cmd).1 with
    | none => rfl
    | some c => exact serve_returns c _ s
  obtain ⟨resp, hresp⟩ := Option.isSome_iff_exists.mp hsome
  have hrun : Prog.Runs (World.Serves fun _ _ => True) (handle cmd) s _
      (Prog.run World.answer (.fail 0) (handle cmd) [] s).2.1 _ :=
    Prog.run_runs _ [] s (fun _ => trivial) (fun _ _ _ => trivial)
  rw [hresp] at hrun
  exact ⟨_, resp, _, hrun⟩

theorem answerLine_replies {cmd : Bytes} (hcmd : cmd ≠ [10]) (s : World P × Bytes) :
    ∃ tr, ∃ s₁ : World P × Bytes, Prog.Runs (World.Serves fun _ _ => True) (answerLine cmd)
      (s.1, ⟨[], s.2⟩) tr (some ()) (s₁.1, ⟨[], s₁.2⟩) ∧ replyCount tr = 1 := by
  obtain ⟨tr, resp, ⟨w, i, out⟩, hhandle⟩ := handle_returns cmd (s.1, ⟨[], s.2⟩)
  have hquiet : (handle (P := P) cmd).Calls Call.Quiet := (calls_handle cmd).mono fun _ h => h.quiet
  obtain ⟨rfl, -⟩ := (runs_quiet_iff hquiet (j := [])).mp hhandle
  refine ⟨tr ++ [⟨.sslWrite (terminate resp), true⟩], (w, out ++ terminate resp), ?_, ?_⟩
  · rw [answerLine, if_neg hcmd]
    exact Prog.runs_bind.mpr (.inl ⟨_, _, _, _, hhandle,
      ⟨true, _, [], ⟨.ok, trivial, rfl⟩, ⟨rfl, rfl, rfl⟩, rfl⟩, rfl⟩)
  · rw [replyCount_append, replyCount_handle hhandle]
    rfl

theorem answers_reply {cmds : List Bytes} (h : ∀ cmd ∈ cmds, cmd ≠ [10]) (s : World P × Bytes) :
    ∃ log s', AnswersInTurn (fun _ _ => True) (cmds.map answerLine) s log (some (some false)) s' ∧
      replyCount log = cmds.length := by
  induction cmds generalizing s with
  | nil => exact ⟨[], s, .done ⟨.ok, trivial, rfl⟩, rfl⟩
  | cons cmd cmds ih =>
    obtain ⟨tr, s₁, hreply, hone⟩ := answerLine_replies (h cmd List.mem_cons_self) s
    obtain ⟨log, s', hrest, hlog⟩ := ih (fun c hc => h c (List.mem_cons_of_mem _ hc)) s₁
    refine ⟨tr ++ log, s', .next ⟨.ok, trivial, rfl⟩ hreply hrest, ?_⟩
    rw [replyCount_append, hone, hlog, List.length_cons, add_comm]

/-- The two endings are told apart by the blank lines alone. -/
theorem line_endings_agree_iff (w : World P) (lines : List RequestLine) :
    EndingsAgree w lines ↔ ∀ l ∈ lines, l.bytes ≠ [] := by
  refine ⟨fun h l hl hblank => ?_, fun h => endings_agree h w⟩
  have hlogs : Logs (P := P) fun _ _ => True := fun cmd => ⟨.ok, trivial⟩
  have hlf : ∀ cmd ∈ lines.map fun l => l.bytes ++ [10], PlainLine cmd := by
    simpa using fun l _ => RequestLine.plain_lf l
  have hcrlf : ∀ cmd ∈ lines.map fun l => l.bytes ++ [13, 10], PlainLine cmd := by
    simpa using fun l _ => RequestLine.plain_crlf l
  -- with carriage returns no line is empty, and each can get its reply
  have hne : ∀ cmd ∈ lines.map fun l => l.bytes ++ [13, 10], cmd ≠ [10] := by
    rintro cmd hcmd rfl
    obtain ⟨m, -, hm⟩ := List.mem_map.mp hcmd
    have := congrArg List.length hm
    simp at this
  obtain ⟨log, s', hanswers, hcount⟩ := answers_reply hne (w, [])
  rw [← session_iff hlogs hcrlf, ← sent_crlf, ← h _ hlogs, sent_lf, session_iff hlogs hlf]
    at hanswers
  -- without them the blank line gets none
  have hle := hanswers.replyCount_le
  rw [hcount, List.length_map, List.countP_map] at hle
  have hall := List.countP_eq_length.mp (le_antisymm List.countP_le_length hle) l hl
  simp [hblank] at hall

def blankFirst : List RequestLine :=
  [⟨[], by decide, by decide, by decide⟩, ⟨ascii "GET_FRAME", by decide, by decide, by decide⟩]

/-- Nothing is answered to the blank line, or the reply that belongs to the request is late. -/
theorem blank_line_is_answered :
    (Server.run (handleClientSSL 20)
      (Reference.world Reference.emptyFs, ⟨sent [10] blankFirst, []⟩)).2.2.2.out =
        terminate (errorReply 500 "Failed to open overlay_config") ∧
    (Server.run (handleClientSSL 20)
      (Reference.world Reference.emptyFs, ⟨sent [13, 10] blankFirst, []⟩)).2.2.2.out =
        terminate (errorReply 400 "Unknown command") ++
          terminate (errorReply 500 "Failed to open overlay_config") := by
  constructor
  · decide +kernel
  · decide +kernel

end CctvServer
