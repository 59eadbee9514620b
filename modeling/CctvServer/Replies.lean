import CctvServer.Rendering
import CctvServer.RequestStream

namespace CctvServer

open CommandHandler ImageHandler TcpServer

variable {P : Platform}

/-- One line: a newline at the end and nowhere else. -/
def OneLine (b : Bytes) : Prop := ∃ l, b = l ++ [10] ∧ (10 : UInt8) ∉ l

theorem oneLine_terminate {s : Bytes} (h : (10 : UInt8) ∉ s) : OneLine (terminate s) := by
  refine ⟨s, ?_, h⟩
  rw [terminate, if_neg]
  exact fun hl => h (List.mem_of_getLast? hl)

/-- The line a connection is serving, and whether its reply is still to be written. -/
structure Exchange where
  current : Bytes
  pending : Bool

/-- One reply of one line for every dispatched line, before the next byte is read. -/
def replyMonitor (P : Platform) : Monitor (Res (P := P)) Exchange where
  admits g
    | .sslReadChar => g.pending = false
    | .received _ => g.pending = false
    | .sslWrite b => g.pending = true ∧ OneLine b
    | _ => True
  expects g
    | .received cmd, _ => isGetImage cmd = false
    | .sslWrite _, r => r = true
    | .uninitialised, garbage => isUpload g.current = true →
        (parseUpload g.current garbage).1 ≠ [] ∧ (parseUpload g.current garbage).2 ≠ 0
    | .fileExists _, r => r ≠ none
    | .createDirectory _, r => r = true
    | .remove _, r => r = true
    | .selectHistory f _ _, rows => ∀ r ∈ (rows : List (HistoryRow P)), RowReadable f r
    | .readAll _, text => ∀ config, Option.bind text P.parseJson = some config →
        (splitCommand g.current).1 = ascii "CHANGE_FRAME" →
        (frameEdit (splitCommand g.current).2 config).throws = false
    | _, _ => True
  next g
    | .received cmd, _ => ⟨cmd, true⟩
    | .sslWrite _, _ => ⟨g.current, false⟩
    | _, _ => g

section Safe

/-- The command is answered with a text without a newline, and nothing is thrown. -/
abbrev Answers (cmd : Bytes) (p : Server P Bytes) : Prop :=
  p.Safe (replyMonitor P) (fun g s => g = ⟨cmd, true⟩ ∧ (10 : UInt8) ∉ s) (fun _ => False)
    ⟨cmd, true⟩

variable {cmd : Bytes}

theorem answers_error (code : ℕ) {message : String} (h : (10 : UInt8) ∉ ascii message) :
    Answers (P := P) cmd (.ret (errorReply code message)) :=
  ⟨rfl, newline_notMem_errorReply code h⟩

theorem answers_success {message : String} (h : (10 : UInt8) ∉ ascii message) :
    Answers (P := P) cmd (.ret (successReply message)) :=
  ⟨rfl, newline_notMem_successReply h⟩

theorem answers_if {b : Prop} [Decidable b] {p q : Server P Bytes} (hp : b → Answers cmd p)
    (hq : Answers cmd q) : Answers cmd (if b then p else q) := by
  split
  · exact hp ‹b›
  · exact hq

theorem answers_ite {b : Prop} [Decidable b] {p q : Server P Bytes} (hp : Answers cmd p)
    (hq : Answers cmd q) : Answers cmd (if b then p else q) := answers_if (fun _ => hp) hq

theorem answers_handleRegister (payload : Bytes) :
    Answers (P := P) cmd (handleRegister payload) := by
  refine answers_ite (answers_error 400 (by decide)) ⟨trivial, fun user _ => ?_⟩
  refine answers_ite (answers_error 409 (by decide)) ⟨trivial, fun t _ => ⟨trivial, fun ok _ => ?_⟩⟩
  exact answers_ite (answers_success (by decide)) (answers_error 500 (by decide))

theorem answers_handleLogin (payload : Bytes) : Answers (P := P) cmd (handleLogin payload) := by
  refine answers_ite (answers_error 400 (by decide)) ⟨trivial, fun row _ => ?_⟩
  cases row with
  | none => exact answers_error 404 (by decide)
  | some user =>
    exact answers_ite (answers_error 401 (by decide)) (answers_success (by decide))

theorem answers_handleResetPassword (payload : Bytes) :
    Answers (P := P) cmd (handleResetPassword payload) := by
  refine answers_ite (answers_error 400 (by decide)) ⟨trivial, fun row _ => ?_⟩
  cases row with
  | none => exact answers_error 404 (by decide)
  | some user =>
    refine ⟨trivial, fun ok _ => ?_⟩
    exact answers_ite (answers_success (by decide)) (answers_error 500 (by decide))

theorem answers_dataReply {message : String} (hm : Utf8.valid (ascii message) = true) {data : Json}
    (hd : data.Utf8Valid) : Answers (P := P) cmd (dataReply message data) := by
  rcases dataReply_cases (P := P) hm data with ⟨-, text, -, hn, heq⟩ | ⟨hn, -⟩
  · rw [heq]
    exact ⟨rfl, hn⟩
  · exact absurd hd hn

theorem answers_query (q : HistoryQuery) : Answers (P := P) cmd q.answer := by
  rw [HistoryQuery.answer_eq]
  refine answers_ite (answers_error 400 (by decide)) ⟨trivial, fun row _ => ?_⟩
  cases row with
  | none => exact answers_error 404 (by decide)
  | some user =>
    refine ⟨trivial, fun rows hrows => ?_⟩
    exact answers_dataReply (by decide) ((entries_utf8 _ _).mpr hrows)

theorem answers_handleAddHistory (payload : Bytes) :
    Answers (P := P) cmd (handleAddHistory payload) := by
  refine ⟨trivial, fun garbage _ => ?_⟩
  refine answers_ite (answers_error 400 (by decide)) ⟨trivial, fun ok _ => ?_⟩
  exact answers_ite (answers_success (by decide)) (answers_error 500 (by decide))

theorem answers_withConfig {path : Bytes} {name : String} {use : Json → Server P Bytes}
    (hopen : (10 : UInt8) ∉ ascii ("Failed to open " ++ name))
    (hparse : (10 : UInt8) ∉ ascii ("Failed to parse " ++ name))
    (h : ∀ config, config.Utf8Valid →
      ((splitCommand cmd).1 = ascii "CHANGE_FRAME" →
        (frameEdit (splitCommand cmd).2 config).throws = false) →
      Answers cmd (use config)) : Answers cmd (withConfig path name use) := by
  rw [withConfig_eq]
  refine ⟨trivial, fun e _ => ?_⟩
  cases e with
  | none => exact answers_error 500 hopen
  | some e =>
    refine ⟨trivial, fun text htext => ?_⟩
    change Answers cmd ((Option.bind text P.parseJson).elim _ use)
    cases hc : Option.bind text P.parseJson with
    | none => exact answers_error 500 hparse
    | some config =>
      obtain ⟨b, -, hb⟩ := Option.bind_eq_some_iff.mp hc
      exact h config (P.parseJson_utf8 b config hb) (htext config hc)

theorem answers_saveConfig {config : Json} (hc : config.Utf8Valid) :
    Answers (P := P) cmd (saveConfig config) := by
  rw [saveConfig_eq]
  refine ⟨trivial, fun ino _ => ?_⟩
  cases ino with
  | none => exact answers_error 500 (by decide)
  | some ino =>
    obtain ⟨text, htext⟩ := Option.isSome_iff_exists.mp ((Json.dump_isSome_iff config).mpr hc)
    rw [htext]
    exact ⟨trivial, fun _ _ => ⟨trivial, fun _ _ => answers_success (by decide)⟩⟩

theorem answers_handleChangeFrame (h : (splitCommand cmd).1 = ascii "CHANGE_FRAME") :
    Answers (P := P) cmd (handleChangeFrame (splitCommand cmd).2) := by
  rw [handleChangeFrame_eq]
  refine answers_ite (answers_error 400 (by decide)) ?_
  refine answers_withConfig (by decide) (by decide) fun config hutf hedit => ?_
  have hsound := changeFrame_sound ((IStream.ofBytes (splitCommand cmd).2).int 0).1
    ((IStream.ofBytes (splitCommand cmd).2).int 0).2 hutf
  have hthrow := hedit h
  change (frameEdit (splitCommand cmd).2 config).Sound at hsound
  cases hf : frameEdit (splitCommand cmd).2 config with
  | reject message =>
    rw [hf] at hsound
    exact answers_error 400 hsound
  | throw => simp [hf, FrameEdit.throws] at hthrow
  | accept config' =>
    rw [hf] at hsound
    exact answers_saveConfig hsound

theorem answers_handle (cmd : Bytes) : Answers (P := P) cmd (handle cmd) := by
  unfold handle dispatch
  refine answers_ite (answers_handleRegister _) <| answers_ite (answers_handleLogin _) <|
    answers_ite (answers_handleResetPassword _) <| answers_ite ?_ <|
    answers_ite (answers_handleAddHistory _) <| answers_ite ?_ <| answers_ite ?_ <|
    answers_ite ?_ <| answers_if answers_handleChangeFrame <| answers_ite ?_ <| answers_ite ?_ <|
    answers_error 400 (by decide)
  · exact handleGetHistory_eq (P := P) _ ▸ answers_query _
  · exact handleGetHistoryByEventType_eq (P := P) _ ▸ answers_query _
  · exact handleGetHistoryByDateRange_eq (P := P) _ ▸ answers_query _
  · exact handleGetHistoryByEventTypeAndDateRange_eq (P := P) _ ▸ answers_query _
  · exact answers_withConfig (by decide) (by decide) fun _ hc _ => answers_dataReply (by decide) hc
  · exact answers_withConfig (by decide) (by decide) fun _ hc _ => answers_dataReply (by decide) hc

theorem newline_notMem_uploadError (code : ℕ) {message : String}
    (hm : (10 : UInt8) ∉ ascii message) : (10 : UInt8) ∉ uploadError code message := by
  have h₁ : (10 : UInt8) ∉ ascii "\x7b\"status\":\"error\",\"code\":" := by decide
  have h₂ : (10 : UInt8) ∉ ascii ",\"message\":\"" := by decide
  have h₃ : (10 : UInt8) ∉ ascii "\"\x7d" := by decide
  simp only [uploadError, ascii_append, List.mem_append, not_or]
  exact ⟨⟨h₁, Json.newline_notMem_decimal code⟩, ⟨h₂, hm⟩, h₃⟩

theorem newline_notMem_uploadSuccess {path : Bytes} (h : (10 : UInt8) ∉ path) :
    (10 : UInt8) ∉ uploadSuccess path := by
  have h₁ : (10 : UInt8) ∉ ascii ("\x7b\"status\":\"success\",\"code\":200," ++
      "\"message\":\"Image uploaded successfully\",") := by decide
  have h₂ : (10 : UInt8) ∉ ascii "\"path\":\"" := by decide
  have h₃ : (10 : UInt8) ∉ ascii "\"\x7d" := by decide
  simp only [uploadSuccess, ascii_append, List.mem_append, not_or]
  exact ⟨⟨⟨h₁, h₂⟩, h⟩, h₃⟩

theorem newline_notMem_filename (cmd : Bytes) (garbage : ℕ) :
    (10 : UInt8) ∉ (parseUpload cmd garbage).1 := by
  intro h
  change (10 : UInt8) ∈ ((IStream.ofBytes cmd).word.2.word).1 at h
  rw [(IStream.word_eq _).1, (IStream.word_eq _).2, IStream.tokens_ofBytes] at h
  cases hw : (words cmd).tail with
  | nil => simp [hw] at h
  | cons t ts =>
    rw [hw, List.headD_cons] at h
    have hmem : t ∈ words cmd := List.mem_of_mem_tail (hw ▸ List.mem_cons_self)
    exact absurd (mem_words_not_space hmem 10 h) (by decide)

theorem newline_notMem_fullPath {filename : Bytes} (h : (10 : UInt8) ∉ filename) :
    (10 : UInt8) ∉ fullPath filename := by
  have h₁ : (10 : UInt8) ∉ ascii "images/" := by decide
  simp only [fullPath, List.mem_append, not_or]
  exact ⟨h₁, h⟩

theorem answers_uploadError (code : ℕ) {message : String} (h : (10 : UInt8) ∉ ascii message) :
    Answers (P := P) cmd (.ret (uploadError code message)) :=
  ⟨rfl, newline_notMem_uploadError code h⟩

/-- The command is still to be answered afterwards, and nothing is thrown. -/
abbrev Unanswered {α : Type} (cmd : Bytes) (p : Server P α) : Prop :=
  p.Safe (replyMonitor P) (fun g _ => g = ⟨cmd, true⟩) (fun _ => False) ⟨cmd, true⟩

theorem unanswered_bind {α β : Type} {p : Server P α} {f : α → Server P β}
    (hp : Unanswered cmd p) (hf : ∀ a, Unanswered cmd (f a)) : Unanswered cmd (p >>= f) :=
  Prog.safe_bind.mpr (hp.mono (by rintro g a rfl; exact hf a) fun _ h => h)

theorem answers_bind {α : Type} {p : Server P α} {f : α → Server P Bytes}
    (hp : Unanswered cmd p) (hf : ∀ a, Answers cmd (f a)) : Answers cmd (p >>= f) :=
  Prog.safe_bind.mpr (hp.mono (by rintro g a rfl; exact hf a) fun _ h => h)

theorem unanswered_flush (ofs : OFStream) (b : Bytes) :
    Unanswered (P := P) cmd (ofs.flush b) := by
  refine ⟨trivial, fun n _ => ?_⟩
  change Prog.Safe _ _ _ (if _ then _ else _) _
  split
  · rfl
  · rfl

theorem unanswered_write (ofs : OFStream) (b : Bytes) :
    Unanswered (P := P) cmd (ofs.write b) := by
  unfold OFStream.write
  split
  · rfl
  · split
    · exact unanswered_flush ofs b
    · rfl

theorem unanswered_close (ofs : OFStream) : Unanswered (P := P) cmd ofs.close := by
  refine unanswered_bind ?_ fun _ => ⟨trivial, fun _ _ => rfl⟩
  unfold OFStream.drain
  split
  · rfl
  · exact unanswered_flush ofs []

theorem unanswered_receive (filesize fuel total : ℕ) (ofs : OFStream) :
    Unanswered (P := P) cmd (receive filesize fuel total ofs) := by
  induction fuel generalizing total ofs with
  | zero => rfl
  | succ fuel ih =>
    rw [receive_succ]
    split
    · refine ⟨trivial, fun b _ => ?_⟩
      cases b with
      | none => rfl
      | some b => exact unanswered_bind (unanswered_write ofs b.1) fun _ => ih _ _
    · rfl

theorem unanswered_removeFile (path : Bytes) : Unanswered (P := P) cmd (removeFile path) := by
  refine ⟨trivial, fun r hr => ?_⟩
  obtain rfl : r = true := hr
  rfl

theorem answers_storeImage {path : Bytes} (hpath : (10 : UInt8) ∉ path) (filesize ino : ℕ) :
    Answers (P := P) cmd (storeImage path filesize ino) := by
  refine answers_bind (unanswered_receive _ _ _ _) fun x => ?_
  refine answers_bind (unanswered_close _) fun ofs => ?_
  have hremove : ∀ {message : String}, (10 : UInt8) ∉ ascii message →
      Answers (P := P) cmd (removeFile path >>= fun _ => .ret (uploadError 500 message)) :=
    fun hm => answers_bind (unanswered_removeFile path) fun _ => answers_uploadError 500 hm
  exact answers_ite (hremove (by decide))
    (answers_ite (hremove (by decide)) ⟨rfl, newline_notMem_uploadSuccess hpath⟩)

theorem answers_handleImageUpload {filename : Bytes} (h : (10 : UInt8) ∉ filename) (filesize : ℕ) :
    Answers (P := P) cmd (handleImageUpload filename filesize) := by
  rw [handleImageUpload_eq]
  refine answers_bind ?_ fun _ => answers_ite (answers_uploadError 400 (by decide)) ?_
  · refine ⟨trivial, fun found hfound => ?_⟩
    match found with
    | none => exact absurd rfl hfound
    | some true => rfl
    | some false =>
      refine ⟨trivial, fun r hr => ?_⟩
      change r = true at hr
      subst hr
      rfl
  · refine ⟨trivial, fun found hfound => ?_⟩
    match found with
    | none => exact absurd rfl hfound
    | some true => exact answers_uploadError 409 (by decide)
    | some false =>
      refine ⟨trivial, fun ino _ => ?_⟩
      cases ino with
      | none => exact answers_uploadError 500 (by decide)
      | some ino => exact answers_storeImage (newline_notMem_fullPath h) _ _

theorem safe_serveUpload_reply (hup : isUpload cmd = true) :
    (serveUpload cmd).Safe (replyMonitor P) (fun g _ => g = ⟨cmd, false⟩) (fun _ => False)
      ⟨cmd, true⟩ := by
  rw [serveUpload_eq]
  refine ⟨trivial, fun garbage hg => ?_⟩
  have hok : ¬((parseUpload cmd garbage).1 = [] ∨ (parseUpload cmd garbage).2 = 0) :=
    not_or.mpr (hg hup)
  beta_reduce
  rw [if_neg hok]
  refine Prog.safe_bind.mpr
    ((answers_handleImageUpload (newline_notMem_filename cmd garbage) _).mono ?_ fun _ h => h)
  rintro g result ⟨rfl, hn⟩
  exact ⟨⟨rfl, oneLine_terminate hn⟩, fun _ _ => rfl⟩

theorem safe_serveCommand_reply (cmd : Bytes) :
    (serveCommand cmd).Safe (replyMonitor P) (fun g _ => g = ⟨cmd, false⟩) (fun _ => False)
      ⟨cmd, true⟩ := by
  refine Prog.safe_bind.mpr ((answers_handle cmd).mono ?_ fun _ h => h)
  rintro g resp ⟨rfl, hn⟩
  exact ⟨⟨rfl, oneLine_terminate hn⟩, fun _ _ => rfl⟩

theorem safe_readLine_reply (fuel : ℕ) (acc cur : Bytes) :
    (readLine fuel acc).Safe (replyMonitor P) (fun g _ => g = ⟨cur, false⟩) (fun _ => False)
      ⟨cur, false⟩ := by
  induction fuel generalizing acc with
  | zero => rfl
  | succ fuel ih =>
    rw [readLine_succ]
    refine ⟨rfl, fun r _ => ?_⟩
    cases r with
    | none => rfl
    | some ch =>
      dsimp only
      split
      · rfl
      · exact ih _

theorem safe_handleClientSSL_reply (fuel : ℕ) (cur : Bytes) :
    (handleClientSSL fuel).Safe (replyMonitor P) (fun g _ => g.pending = false) (fun _ => False)
      ⟨cur, false⟩ := by
  induction fuel generalizing cur with
  | zero => rfl
  | succ fuel ih =>
    rw [handleClientSSL_succ]
    refine Prog.safe_bind.mpr ((safe_readLine_reply _ _ _).mono ?_ fun _ h => h)
    rintro g line rfl
    cases line with
    | pending => rfl
    | ended => rfl
    | line cmd =>
      dsimp only
      split
      · exact ih cur
      · refine ⟨rfl, fun _ hget => ?_⟩
        change isGetImage cmd = false at hget
        change Prog.Safe _ _ _ _ (⟨cmd, true⟩ : Exchange)
        split
        · rename_i hup
          refine Prog.safe_bind.mpr ((safe_serveUpload_reply hup).mono ?_ fun _ h => h)
          rintro g - rfl
          exact ih cmd
        · rw [hget]
          refine Prog.safe_bind.mpr ((safe_serveCommand_reply cmd).mono ?_ fun _ h => h)
          rintro g - rfl
          exact ih cmd

end Safe

/-- The lines dispatched and the replies written, in the order they came. -/
def transcript (log : List (Event (Res (P := P)))) : List (Bytes ⊕ Bytes) :=
  log.filterMap fun e => match e with
    | ⟨.received cmd, _⟩ => some (.inl cmd)
    | ⟨.sslWrite b, true⟩ => some (.inr b)
    | _ => none

/-- The output is one reply of one line for each line dispatched, in order, except
that the line being served has none yet. No exception ends the server. -/
structure Framed (log : List (Event (Res (P := P)))) (out : Bytes) (p : Server P (Option Bool))
    (done : List (Bytes × Bytes)) (serving : Option Bytes) : Prop where
  transcript : transcript log =
    done.flatMap (fun x => [.inl x.1, .inr x.2]) ++ serving.toList.map .inl
  out : out = done.flatMap Prod.snd
  lines : ∀ x ∈ done, OneLine x.2
  ended : ∀ a, p = .ret a → serving = none
  reading : ∀ k, p = .call .sslReadChar k → serving = none
  alive : p ≠ .throw

/-- A step that runs into none of the server's defects: no announced name or size is
missing, no file-system call throws, every row read can be shown, and the overlay
configuration a change applies to is an object. GET_IMAGE is left out. -/
def answerable {ι α : Type} [DecidableEq ι] (c : Clients P ι α) (i : ι) :
    Event (Res (P := P)) → Bool
  | ⟨.received cmd, _⟩ => !isGetImage cmd
  | ⟨.uninitialised, garbage⟩ =>
      let upload := parseUpload (currentLine (c.log i)) garbage
      !isUpload (currentLine (c.log i)) || (!upload.1.isEmpty && upload.2 != 0)
  | ⟨.fileExists _, found⟩ => Option.isSome found
  | ⟨.createDirectory _, ok⟩ => ok
  | ⟨.remove _, ok⟩ => ok
  | ⟨.selectHistory f _ _, rows⟩ => (rows : List (HistoryRow P)).all fun r => RowReadable f r
  | ⟨.readAll _, text⟩ =>
      let (command, payload) := splitCommand (currentLine (c.log i))
      match Option.bind text P.parseJson with
      | some config => command != ascii "CHANGE_FRAME" || !(frameEdit payload config).throws
      | none => true
  | _ => true

structure InTurn (log : List (Event (Res (P := P)))) (out : Bytes) (g : Exchange)
    (done : List (Bytes × Bytes)) (serving : Option Bytes) : Prop where
  transcript : CctvServer.transcript log =
    done.flatMap (fun x => [.inl x.1, .inr x.2]) ++ serving.toList.map .inl
  out : out = done.flatMap Prod.snd
  lines : ∀ x ∈ done, OneLine x.2
  pending : g.pending = serving.isSome
  current : g.current = currentLine log

theorem transcript_append (a b : List (Event (Res (P := P)))) :
    transcript (a ++ b) = transcript a ++ transcript b := by
  simp [transcript]

theorem InTurn.quiet {log : List (Event (Res (P := P)))} {out : Bytes} {g : Exchange}
    {done : List (Bytes × Bytes)} {serving : Option Bytes} (h : InTurn log out g done serving)
    {o : Call P} (ho : ∀ cmd, o ≠ .received cmd) (hw : ∀ b, o ≠ .sslWrite b) (r : Res o) :
    InTurn (log ++ [⟨o, r⟩]) out g done serving := by
  have ht : CctvServer.transcript [(⟨o, r⟩ : Event (Res (P := P)))] = [] := by
    cases o <;> first | exact absurd rfl (ho _) | exact absurd rfl (hw _) | rfl
  have hd : dispatched [(⟨o, r⟩ : Event (Res (P := P)))] = [] := by
    cases o <;> first | exact absurd rfl (ho _) | rfl
  refine ⟨?_, h.out, h.lines, h.pending, ?_⟩
  · rw [transcript_append, ht, List.append_nil]
    exact h.transcript
  · rw [h.current, currentLine, currentLine, dispatched_append, hd, List.append_nil]

theorem InTurn.received {log : List (Event (Res (P := P)))} {out cmd : Bytes} {g : Exchange}
    {done : List (Bytes × Bytes)} {serving : Option Bytes} (h : InTurn log out g done serving)
    (hg : g.pending = false) (r : Unit) :
    InTurn (log ++ [⟨.received cmd, r⟩]) out ⟨cmd, true⟩ done (some cmd) := by
  have hnone : serving = none := by
    rw [h.pending] at hg
    simpa using hg
  subst hnone
  refine ⟨?_, h.out, h.lines, rfl, ?_⟩
  · rw [transcript_append, h.transcript]
    simp [CctvServer.transcript]
  · simp [currentLine, dispatched]

theorem InTurn.wrote {log : List (Event (Res (P := P)))} {out b : Bytes} {g : Exchange}
    {done : List (Bytes × Bytes)} {serving : Option Bytes} (h : InTurn log out g done serving)
    (hg : g.pending = true) (hb : OneLine b) :
    ∃ done', InTurn (log ++ [⟨.sslWrite b, true⟩]) (out ++ b) ⟨g.current, false⟩ done' none := by
  rw [h.pending, Option.isSome_iff_exists] at hg
  obtain ⟨cmd, rfl⟩ := hg
  refine ⟨done ++ [(cmd, b)], ?_, ?_, ?_, rfl, ?_⟩
  · rw [transcript_append, h.transcript]
    simp [CctvServer.transcript]
  · simp [h.out]
  · intro x hx
    rcases List.mem_append.mp hx with hx | hx
    · exact h.lines x hx
    · rw [List.mem_singleton.mp hx]
      exact hb
  · rw [h.current, currentLine, currentLine, dispatched_append]
    simp [dispatched]

section Clients

variable {ι : Type} [DecidableEq ι] {c₀ c : Clients P ι (Option Bool)}

theorem InTurn.step {i : ι} {g : Exchange} {done : List (Bytes × Bytes)} {serving : Option Bytes}
    (h : InTurn (c.log i) (c.loc i).out g done serving) {o : Call P} {r : Res o}
    {s : World P × Socket} (ha : (replyMonitor P).admits g o)
    (hE : World.Serves World.Sending o (c.shared, c.loc i) r s)
    (hok : answerable c i ⟨o, r⟩ = true) :
    (replyMonitor P).expects g o r ∧
      ∃ done serving, InTurn (c.log i ++ [⟨o, r⟩]) s.2.out ((replyMonitor P).next g o r) done
        serving := by
  obtain ⟨w, hw, hans⟩ := hE
  have hquiet : (∀ cmd, o ≠ .received cmd) → (∀ b, o ≠ .sslWrite b) →
      InTurn (c.log i ++ [⟨o, r⟩]) s.2.out g done serving := by
    intro hr hb
    have hout := World.answer_out hb w c.shared (c.loc i)
    rw [hans] at hout
    exact hout ▸ h.quiet hr hb r
  cases o with
  | received cmd =>
    cases hans
    have hget : isGetImage cmd = false := by simpa [answerable] using hok
    exact ⟨hget, _, _, h.received ha ()⟩
  | sslWrite b =>
    have hf : w.failed = false := hw
    simp only [World.answer, hf, Bool.false_eq_true, if_false] at hans
    cases hans
    obtain ⟨done', h'⟩ := h.wrote ha.1 ha.2
    exact ⟨rfl, done', none, h'⟩
  | uninitialised =>
    refine ⟨fun hup => ?_, done, serving, hquiet (by simp) (by simp)⟩
    rw [h.current] at hup ⊢
    simpa [answerable, hup] using hok
  | fileExists path =>
    exact ⟨fun hr => by simp [answerable, hr] at hok, done, serving, hquiet (by simp) (by simp)⟩
  | createDirectory path => exact ⟨hok, done, serving, hquiet (by simp) (by simp)⟩
  | remove path => exact ⟨hok, done, serving, hquiet (by simp) (by simp)⟩
  | selectHistory f limit offset =>
    refine ⟨fun row hrow => ?_, done, serving, hquiet (by simp) (by simp)⟩
    simpa using List.all_eq_true.mp hok row hrow
  | readAll e =>
    refine ⟨fun config hc hcmd => ?_, done, serving, hquiet (by simp) (by simp)⟩
    rw [h.current] at hcmd ⊢
    simpa [answerable, hc, hcmd] using hok
  | _ => exact ⟨trivial, done, serving, hquiet (by simp) (by simp)⟩

/-- Every connection gets one reply of one line for each line it has dispatched, in
order, as long as no step runs into one of the server's defects. -/
theorem output_is_framed {fuel : ι → ℕ} (hprog : ∀ i, c₀.prog i = handleClientSSL (fuel i))
    (hout : ∀ i, (c₀.loc i).out = []) (htrace : c₀.trace = [])
    (h : Config.Reach (World.Serves World.Sending) (fun c i e => answerable c i e = true) c₀ c)
    (i : ι) : ∃ done serving, Framed (c.log i) (c.loc i).out (c.prog i) done serving := by
  obtain ⟨hsafe, -, hturn⟩ := h.monitored_each (replyMonitor P)
    (Q := fun _ g _ => g.pending = false) (T := fun _ _ => False) (fun _ => ⟨[], false⟩)
    (J := fun _ => True)
    (I := fun _ log sock g => ∃ done serving, InTurn log sock.out g done serving) htrace
    (fun i => by
      rw [hprog]
      exact safe_handleClientSSL_reply _ _)
    trivial
    (fun i => by
      rw [hout]
      exact ⟨[], none, rfl, rfl, by simp, rfl, rfl⟩)
    (fun c i o r s _ hI ha hE hok => by
      obtain ⟨done, serving, hi⟩ := hI
      obtain ⟨hexp, hnext⟩ := hi.step ha hE hok
      exact ⟨hexp, trivial, hnext⟩)
  obtain ⟨done, serving, hi⟩ := hturn i
  have hs := hsafe i
  have hnone : (c.ghosts (replyMonitor P) (fun _ => ⟨[], false⟩) i).pending = false →
      serving = none := by
    intro hp
    rw [hi.pending] at hp
    simpa using hp
  refine ⟨done, serving, hi.transcript, hi.out, hi.lines, fun a ha => ?_, fun k hk => ?_,
    fun ht => ?_⟩
  · rw [ha] at hs
    exact hnone hs
  · rw [hk] at hs
    exact hnone hs.1
  · rw [ht] at hs
    exact hs

end Clients

def sends (fuel : ℕ) (w : World P) (b : Bytes) : Clients P Unit (Option Bool) where
  shared := w
  loc _ := ⟨b, []⟩
  prog _ := handleClientSSL fuel
  trace := []

def namelessStart : Clients .reference Unit (Option Bool) :=
  sends 20 (Reference.world Reference.emptyFs) (ascii "UPLOAD\n")

theorem nameless_fits : namelessStart.Fits World.answer (fun _ _ _ => true)
    (List.replicate 11 ((), .ok)) = true := by decide

/-- An upload without a name is answered with a backslash and an n instead of a newline. -/
theorem nameless_upload_is_not_framed :
    ∃ c, Config.Reach (World.Serves World.Sending) (fun _ _ _ => true = true) namelessStart c ∧
      dispatched (c.log ()) = [ascii "UPLOAD\n"] ∧
      ¬ ∃ done serving, Framed (c.log ()) (c.loc ()).out (c.prog ()) done serving := by
  have hreach := Clients.follow_reach (List.replicate 11 ((), .ok)) namelessStart nameless_fits
    World.Sending.of_faultless (by decide)
  have hout : ((namelessStart.follow World.answer (List.replicate 11 ((), .ok))).loc ()).out =
      invalidUpload := by decide
  refine ⟨_, hreach, by decide, ?_⟩
  rintro ⟨done, serving, h⟩
  have hall := h.out
  rw [hout] at hall
  cases done with
  | nil => exact absurd hall (by decide)
  | cons x done =>
    obtain ⟨l, hl, -⟩ := h.lines x List.mem_cons_self
    have hmem : (10 : UInt8) ∈ invalidUpload := by
      rw [hall, List.flatMap_cons, hl]
      simp
    exact absurd hmem (by decide)

def answeredStart : Clients .reference Unit (Option Bool) :=
  sends 40 (Reference.world Reference.emptyFs) (ascii "GET_LOG\nUPLOAD ab 3\nxyz")

theorem answered_fits : answeredStart.Fits World.answer answerable
    (List.replicate 33 ((), .ok)) = true := by decide

theorem answered_commands_are_framed :
    ∃ c, Config.Reach (World.Serves World.Sending) (fun c i e => answerable c i e = true)
        answeredStart c ∧
      dispatched (c.log ()) = [ascii "GET_LOG\n", ascii "UPLOAD ab 3\n"] ∧
      ∃ done serving, Framed (c.log ()) (c.loc ()).out (c.prog ()) done serving := by
  have hreach := Clients.follow_reach (List.replicate 33 ((), .ok)) answeredStart answered_fits
    World.Sending.of_faultless (by decide)
  exact ⟨_, hreach, by decide, @output_is_framed .reference Unit _ answeredStart _ (fun _ => 40)
    (fun _ => rfl) (fun _ => rfl) rfl hreach ()⟩

end CctvServer
