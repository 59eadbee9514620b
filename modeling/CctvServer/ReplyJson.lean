import CctvServer.ConfigText
import CctvServer.FrameReplies
import CctvServer.HistoryRows

namespace CctvServer

open CommandHandler HistoryRepository TcpServer JsonParser JsonText

variable {P : Platform} {F : Floats}

def statusReply (status : String) (code : ℕ) (message : String) : Json :=
  .obj [(ascii "code", .int code), (ascii "message", .str (ascii message)),
    (ascii "status", .str (ascii status))]

theorem reply_ends (status : String) (code : ℕ) (message : String) (rest : Bytes) :
    JsonLexer.Ends (reply status code message) rest := by
  have h : ascii "\x7b\"status\": \"" = 123 :: ascii "\"status\": \"" := by decide
  simp only [reply, ascii_append, h, List.cons_append]
  exact JsonLexer.ends_of_head (by decide) (by decide) _ _

theorem parse_reply {status message : String} {code : ℕ} (hcode : code < 2 ^ 64)
    (hs : Plain (ascii status)) (hm : Plain (ascii message)) (rest : Bytes) :
    parse F (reply status code message ++ rest) =
      some (statusReply status code message, rest) := by
  have hnumber : build F (.number (decimal code)) = some (.int code) :=
    build_tree (.int code) ⟨by omega, by exact_mod_cast hcode⟩
  have hbuild : build F (.obj [(ascii "status", .str (ascii status)),
      (ascii "code", .number (decimal code)), (ascii "message", .str (ascii message))]) =
        some (statusReply status code message) := by
    have hstr : ∀ s, build F (.str s) = some (.str s) := fun _ => rfl
    change (buildMembers F [] _).map Json.obj = _
    simp +decide only [buildMembers, hnumber, hstr, Option.bind_some, Json.setKey,
      Option.map_some, if_true, if_false, statusReply]
  exact parse_of_denotes (m := []) (w := []) (.inl rfl) Json.blank_nil (reply_utf8 code hs hm)
    (reply_denotes code hs hm) hbuild (reply_ends status code message rest)

theorem newline_notMem_plain {s : Bytes} (h : Plain s) : (10 : UInt8) ∉ s := fun hmem =>
  absurd (h 10 hmem).1.1 (by decide)

theorem ordered_of_keys {members : List (Bytes × Json)}
    (h : (members.map Prod.fst).Pairwise (· < ·)) : Json.Ordered members := List.pairwise_map.mp h

theorem parse_response {message : String} {data : Json} {text : Bytes} (hd : Canonical F data)
    (h : (response message data).dump = some text) (rest : Bytes) :
    parse F (text ++ rest) = some (response message data, rest) := by
  have hkeys : [ascii "code", ascii "data", ascii "message", ascii "status"].Pairwise (· < ·) := by
    decide
  have hc : Canonical F (response message data) :=
    ⟨ordered_of_keys hkeys, ⟨by decide, by decide⟩, hd, trivial, trivial, trivial⟩
  exact parse_object hc h rest

theorem columnInt_held (n : ℕ) : Held F (.int (columnInt n)) := by
  have hlow := (BitVec.ofNat 32 n).le_toInt
  have hhigh := (BitVec.ofNat 32 n).toInt_lt
  unfold Held columnInt
  omega

section Entries

variable (hround : ∀ v, F.read (P.rounded v).1 = some (P.rounded v) ∨
  (P.rounded v).1 = ascii "null")

include hround

theorem speedJson_held (speed : Option P.Speed) : Held F (speedJson speed) := by
  cases speed with
  | none => trivial
  | some v => exact hround v

theorem renderFull_held {r : HistoryRow P} (h : RegularRow r) : Held F (renderFull r.decode) := by
  have hkeys : [ascii "date", ascii "end_snapshot", ascii "event_type", ascii "id",
      ascii "image_path", ascii "plate_number", ascii "speed", ascii "start_snapshot"].Pairwise
        (· < ·) := by decide
  have htype : Held F (.int r.decode.eventType) := by
    have hdecode : r.decode.eventType = r.eventType := rfl
    rw [hdecode]
    rcases h.type with h | h | h <;> rw [h] <;> exact ⟨by decide, by decide⟩
  have hspeed : Held F (if r.decode.eventType = 1 then speedJson r.decode.speed else .null) := by
    split
    · exact speedJson_held hround _
    · trivial
  rw [renderFull_eq]
  exact ⟨ordered_of_keys hkeys, trivial, trivial, htype, columnInt_held _, trivial, trivial, hspeed,
    trivial, trivial⟩

theorem renderCompact_held {r : HistoryRow P} {j : Json} (h : RegularRow r)
    (hj : renderCompact r.decode = some j) : Held F j := by
  have hdecode : r.decode.eventType = r.eventType := rfl
  have hid : Held F (.int r.decode.id) := columnInt_held _
  rcases h.type with h | h | h
  · have hkeys : [ascii "date", ascii "end_snapshot", ascii "event_type", ascii "id",
        ascii "image_path", ascii "plate_number", ascii "start_snapshot"].Pairwise (· < ·) := by
      decide
    rw [renderCompact_zero (hdecode.trans h), Option.some.injEq, hdecode, h] at hj
    subst hj
    exact ⟨ordered_of_keys hkeys, trivial, trivial, ⟨by decide, by decide⟩, hid, trivial, trivial,
      trivial, trivial⟩
  · rw [renderCompact_one (hdecode.trans h), Option.some.injEq, hdecode, h] at hj
    subst hj
    cases r.decode.speed with
    | none =>
      have hkeys : [ascii "date", ascii "event_type", ascii "id", ascii "image_path",
          ascii "plate_number"].Pairwise (· < ·) := by decide
      exact ⟨ordered_of_keys hkeys, trivial, ⟨by decide, by decide⟩, hid, trivial, trivial, trivial⟩
    | some v =>
      have hkeys : [ascii "date", ascii "event_type", ascii "id", ascii "image_path",
          ascii "plate_number", ascii "speed"].Pairwise (· < ·) := by decide
      exact ⟨ordered_of_keys hkeys, trivial, ⟨by decide, by decide⟩, hid, trivial, trivial,
        hround v, trivial⟩
  · have hkeys : [ascii "date", ascii "event_type", ascii "id", ascii "image_path"].Pairwise
        (· < ·) := by decide
    rw [renderCompact_two (hdecode.trans h), Option.some.injEq, hdecode, h] at hj
    subst hj
    exact ⟨ordered_of_keys hkeys, trivial, ⟨by decide, by decide⟩, hid, trivial, trivial⟩

theorem entries_held (f : HistoryFilter) {rows : List (HistoryRow P)}
    (h : ∀ r ∈ rows, RegularRow r) : HeldItems F (entries f rows) := by
  rw [heldItems_iff, entries]
  cases f.eventType with
  | none => exact List.forall_mem_map.mpr fun r hr => renderFull_held hround (h r hr)
  | some t =>
    intro j hj
    obtain ⟨r, hr, hj⟩ := List.mem_filterMap.mp hj
    exact renderCompact_held hround (h r hr) hj

theorem parse_queryReply {f : HistoryFilter} {rows : List (HistoryRow P)} {text : Bytes}
    (h : ∀ r ∈ rows, RegularRow r) (htext : queryReply f rows = some text) (rest : Bytes) :
    parse F (text ++ rest) = some (response "History retrieved successfully"
      (.arr (shownItems (entries f rows))), rest) := by
  have hdata : Canonical F (.arr (shownItems (entries f rows))) :=
    canonicalItems_shown _ (entries_held hround f h)
  refine parse_response hdata ?_ rest
  exact (dump_shown (response _ (.arr (entries f rows)))).trans htext

end Entries

/-- What a command has read for its reply. -/
inductive Source (P : Platform)
  | none
  | rows (f : HistoryFilter) (rows : List (HistoryRow P))
  | file (text : Bytes)

def Source.HasRows : Source P → Prop
  | .rows _ _ => True
  | _ => False

inductive Status : Json → Prop
  | error {code : ℕ} {message : String} (h : code ∈ [400, 401, 404, 409, 500]) :
      Status (statusReply "error" code message)
  | success {message : String} : Status (statusReply "success" 200 message)

/-- The reply shows what was read: the rows each with its entry, or the configuration. -/
def Tells : Source P → Json → Prop
  | .rows f rows, v =>
      v = response "History retrieved successfully" (.arr (shownItems (entries f rows)))
  | .file text, v => Status v ∨
      ∃ message config, P.parseJson text = some config ∧ v = response message config
  | .none, v => Status v

theorem Status.tells {source : Source P} {v : Json} (h : Status v) (hs : ¬source.HasRows) :
    Tells source v := by
  cases source with
  | rows => exact absurd trivial hs
  | file => exact .inl h
  | none => exact h

structure Hearing (P : Platform) where
  line : Bytes
  source : Source P

def Hearing.next (g : Hearing P) : Event (Res (P := P)) → Hearing P
  | ⟨.received cmd, _⟩ => ⟨cmd, .none⟩
  | ⟨.selectHistory f _ _, rows⟩ => { g with source := .rows f rows }
  | ⟨.readAll _, some text⟩ => { g with source := .file text }
  | _ => g

def hearing (log : List (Event (Res (P := P)))) : Hearing P := log.foldl Hearing.next ⟨[], .none⟩

/-- What is written for a command is one line, read as a reply that tells what was read. -/
def Written (F : Floats) (g : Hearing P) (b : Bytes) : Prop :=
  isUpload g.line = false → isGetImage g.line = false →
    OneLine b ∧ ∃ v, parse F b = some (v, [10]) ∧ Tells g.source v

def jsonMonitor (P : Platform) (F : Floats) : Monitor (Res (P := P)) (Hearing P) where
  admits g
    | .sslWrite b => Written F g b
    | _ => True
  expects _
    | .selectHistory _ _ _, rows => ∀ r ∈ (rows : List (HistoryRow P)), RegularRow r
    | _, _ => True
  next g o r := g.next ⟨o, r⟩

section Safe

variable {cmd : Bytes} {source : Source P}

/-- The text is read as a reply whatever follows. -/
structure Conveys (F : Floats) (source : Source P) (reply : Bytes) : Prop where
  line : (10 : UInt8) ∉ reply
  value : ∃ v, (∀ rest, parse F (reply ++ rest) = some (v, rest)) ∧ Tells source v

theorem Conveys.written {reply : Bytes} (h : Conveys F source reply) :
    Written F ⟨cmd, source⟩ (terminate reply) := by
  obtain ⟨v, hv, htells⟩ := h.value
  have hlast : terminate reply = reply ++ [10] := by
    rw [terminate, if_neg]
    exact fun hl => h.line (List.mem_of_getLast? hl)
  exact fun _ _ => ⟨⟨reply, hlast, h.line⟩, v, hlast ▸ hv [10], htells⟩

/-- The command comes to a reply that tells what it has read. -/
abbrev Told (F : Floats) (cmd : Bytes) (source : Source P) (p : Server P Bytes) : Prop :=
  p.Safe (jsonMonitor P F) (fun g s => g.line = cmd ∧ Conveys F g.source s) (fun _ => True)
    ⟨cmd, source⟩

theorem conveys_reply {status message : String} {code : ℕ} (hcode : code < 2 ^ 64)
    (hs : Plain (ascii status)) (hm : Plain (ascii message))
    (htells : Tells source (statusReply status code message)) :
    Conveys F source (reply status code message) :=
  ⟨newline_notMem_reply code (newline_notMem_plain hs) (newline_notMem_plain hm), _,
    parse_reply hcode hs hm, htells⟩

theorem told_error {code : ℕ} {message : String} (hs : ¬source.HasRows)
    (hcode : code ∈ [400, 401, 404, 409, 500]) (hm : Plain (ascii message)) :
    Told F cmd source (.ret (errorReply code message)) := by
  have hlt : ∀ n ∈ [400, 401, 404, 409, 500], n < 2 ^ 64 := by decide
  exact ⟨rfl, conveys_reply (hlt code hcode) (by decide) hm ((Status.error hcode).tells hs)⟩

theorem told_success {message : String} (hs : ¬source.HasRows) (hm : Plain (ascii message)) :
    Told F cmd source (.ret (successReply message)) :=
  ⟨rfl, conveys_reply (by decide) (by decide) hm (Status.success.tells hs)⟩

theorem told_ite {b : Prop} [Decidable b] {p q : Server P Bytes} (hp : Told F cmd source p)
    (hq : Told F cmd source q) : Told F cmd source (if b then p else q) := by
  split
  · exact hp
  · exact hq

theorem told_handleRegister (payload : Bytes) :
    Told (P := P) F cmd .none (handleRegister payload) := by
  refine told_ite (told_error id (by decide) (by decide)) ⟨trivial, fun user _ => ?_⟩
  refine told_ite (told_error id (by decide) (by decide))
    ⟨trivial, fun t _ => ⟨trivial, fun ok _ => ?_⟩⟩
  exact told_ite (told_success id (by decide)) (told_error id (by decide) (by decide))

theorem told_handleLogin (payload : Bytes) : Told (P := P) F cmd .none (handleLogin payload) := by
  refine told_ite (told_error id (by decide) (by decide)) ⟨trivial, fun row _ => ?_⟩
  cases row with
  | none => exact told_error id (by decide) (by decide)
  | some user =>
    exact told_ite (told_error id (by decide) (by decide)) (told_success id (by decide))

theorem told_handleResetPassword (payload : Bytes) :
    Told (P := P) F cmd .none (handleResetPassword payload) := by
  refine told_ite (told_error id (by decide) (by decide)) ⟨trivial, fun row _ => ?_⟩
  cases row with
  | none => exact told_error id (by decide) (by decide)
  | some user =>
    refine ⟨trivial, fun ok _ => ?_⟩
    exact told_ite (told_success id (by decide)) (told_error id (by decide) (by decide))

theorem told_handleAddHistory (payload : Bytes) :
    Told (P := P) F cmd .none (handleAddHistory payload) := by
  refine ⟨trivial, fun garbage _ => ?_⟩
  refine told_ite (told_error id (by decide) (by decide)) ⟨trivial, fun ok _ => ?_⟩
  exact told_ite (told_success id (by decide)) (told_error id (by decide) (by decide))

theorem told_query (hround : ∀ v, F.read (P.rounded v).1 = some (P.rounded v) ∨
    (P.rounded v).1 = ascii "null") (q : HistoryQuery) :
    Told (P := P) F cmd .none q.answer := by
  rw [HistoryQuery.answer_eq]
  refine told_ite (told_error id (by decide) (by decide)) ⟨trivial, fun row _ => ?_⟩
  cases row with
  | none => exact told_error id (by decide) (by decide)
  | some user =>
    refine ⟨trivial, fun rows hrows => ?_⟩
    change Told F cmd (.rows q.filter rows) (dataReply _ _)
    rw [dataReply_eq]
    split
    · rename_i text htext
      exact ⟨rfl, Json.newline_notMem_dump _ htext, _, parse_queryReply hround hrows htext, rfl⟩
    · trivial

theorem told_withConfig {path : Bytes} {name : String} {use : Json → Server P Bytes}
    (hopen : Plain (ascii ("Failed to open " ++ name)))
    (hparse : Plain (ascii ("Failed to parse " ++ name)))
    (h : ∀ text config, P.parseJson text = some config → Told F cmd (.file text) (use config)) :
    Told F cmd .none (withConfig path name use) := by
  rw [withConfig_eq]
  refine ⟨trivial, fun e _ => ?_⟩
  cases e with
  | none => exact told_error id (by decide) hopen
  | some e =>
    refine ⟨trivial, fun text _ => ?_⟩
    cases text with
    | none => exact told_error id (by decide) hparse
    | some text =>
      change Told F cmd (.file text) ((P.parseJson text).elim _ use)
      cases hc : P.parseJson text with
      | none => exact told_error id (by decide) hparse
      | some config => exact h text config hc

theorem told_dataReply {message : String} {text : Bytes} {config : Json}
    (h : (P.parsing F).parseJson text = some config) :
    Told F cmd (.file text) (dataReply (P := P.parsing F) message config) := by
  rw [dataReply_eq]
  split
  · rename_i reply hreply
    exact ⟨rfl, Json.newline_notMem_dump _ hreply, _,
      parse_response (Platform.canonical_of_parsing h) hreply, .inr ⟨message, config, h, rfl⟩⟩
  · trivial

theorem told_saveConfig {text : Bytes} (config : Json) :
    Told (P := P) F cmd (.file text) (saveConfig config) := by
  rw [saveConfig_eq]
  refine ⟨trivial, fun ino _ => ?_⟩
  cases ino with
  | none => exact told_error id (by decide) (by decide)
  | some ino =>
    change Told F cmd (.file text) (config.dump.elim .throw _)
    cases config.dump with
    | none => trivial
    | some new => exact ⟨trivial, fun _ _ => ⟨trivial, fun _ _ => told_success id (by decide)⟩⟩

theorem told_handleChangeFrame (payload : Bytes) :
    Told (P := P) F cmd .none (handleChangeFrame payload) := by
  rw [handleChangeFrame_eq]
  refine told_ite (told_error id (by decide) (by decide)) ?_
  refine told_withConfig (by decide) (by decide) fun text config _ => ?_
  have hworded := frameEdit_worded payload config
  cases hedit : frameEdit payload config with
  | reject message =>
    rw [hedit] at hworded
    exact told_error id (by decide) hworded
  | throw => trivial
  | accept config' => exact told_saveConfig config'

theorem told_serve (hround : ∀ v, F.read (P.rounded v).1 = some (P.rounded v) ∨
    (P.rounded v).1 = ascii "null") (c : Command) (payload : Bytes) :
    Told F cmd .none (c.serve (P := P.parsing F) payload) := by
  cases c with
  | register => exact told_handleRegister payload
  | login => exact told_handleLogin payload
  | resetPassword => exact told_handleResetPassword payload
  | addHistory => exact told_handleAddHistory payload
  | query q => exact told_query (P := P.parsing F) hround _
  | changeFrame => exact told_handleChangeFrame payload
  | getFrame => exact told_withConfig (by decide) (by decide) fun _ _ => told_dataReply
  | getLog => exact told_withConfig (by decide) (by decide) fun _ _ => told_dataReply

theorem told_handle (hround : ∀ v, F.read (P.rounded v).1 = some (P.rounded v) ∨
    (P.rounded v).1 = ascii "null") (cmd : Bytes) :
    Told F cmd .none (handle (P := P.parsing F) cmd) := by
  rw [handle_eq]
  cases Command.ofWord (splitCommand cmd).1 with
  | none => exact told_error id (by decide) (by decide)
  | some c => exact told_serve hround c _

theorem Hearing.next_line {o : Call P} (ho : o.Within) (g : Hearing P) (r : Res o) :
    (g.next ⟨o, r⟩).line = g.line := by
  cases o with
  | received => exact ho.elim
  | readAll => cases r <;> rfl
  | _ => rfl

theorem safe_image {α : Type} {p : Server P α} (hp : p.Calls Call.Within) {g : Hearing P}
    (hg : isUpload g.line = true ∨ isGetImage g.line = true) :
    p.Safe (jsonMonitor P F) (fun _ _ => True) (fun _ => True) g := by
  induction p generalizing g with
  | ret a => trivial
  | throw => trivial
  | call o k ih =>
    refine ⟨?_, fun r _ => ih r (hp.2 r) ?_⟩
    · cases o with
      | sslWrite b =>
        intro hup hget
        rw [hup, hget] at hg
        exact hg.elim nofun nofun
      | _ => trivial
    · change isUpload (g.next ⟨o, r⟩).line = true ∨ isGetImage (g.next ⟨o, r⟩).line = true
      rwa [Hearing.next_line hp.1]

theorem safe_handleClientSSL_told (hround : ∀ v, F.read (P.rounded v).1 = some (P.rounded v) ∨
    (P.rounded v).1 = ascii "null") (fuel : ℕ) (g : Hearing (P.parsing F)) :
    (handleClientSSL fuel).Safe (jsonMonitor (P.parsing F) F) (fun _ _ => True) (fun _ => True)
      g := by
  induction fuel generalizing g with
  | zero => trivial
  | succ fuel ih =>
    rw [handleClientSSL_succ]
    have hread := calls_readLine (P := P.parsing F) (C := fun o => o = .sslReadChar) rfl
      (fuel + 1) []
    refine Prog.safe_bind.mpr (Prog.Safe.of_calls hread (Prog.Returns.of_forall fun line => ?_)
      trivial (by rintro o rfl; exact ⟨trivial, fun _ => rfl⟩))
    cases line with
    | pending => trivial
    | ended => trivial
    | line cmd =>
      dsimp only
      split
      · exact ih g
      · refine ⟨trivial, fun _ _ => ?_⟩
        change Prog.Safe _ _ _ _ (⟨cmd, .none⟩ : Hearing (P.parsing F))
        split
        · rename_i hup
          have hupload := (calls_serveUpload (P := P.parsing F) cmd).mono fun _ h => h.1
          exact Prog.safe_bind.mpr ((safe_image hupload (.inl hup)).mono (fun g _ _ => ih g)
            fun _ h => h)
        · split
          · rename_i hget
            exact safe_image ((calls_serveGetImage fuel cmd).mono fun _ h => h.1.within) (.inr hget)
          · refine Prog.safe_bind.mpr (Prog.safe_bind.mpr ((told_handle hround cmd).mono ?_
              fun _ h => h))
            rintro ⟨line, source⟩ reply ⟨rfl, hreply⟩
            exact ⟨hreply.written, fun _ _ => ih _⟩

end Safe

section Clients

variable {ι : Type} [DecidableEq ι] {c₀ c : Clients (P.parsing F) ι (Option Bool)}
  {allowed : Call (P.parsing F) → Outcome → Prop}
  {ok : Clients (P.parsing F) ι (Option Bool) → ι → Event (Res (P := P.parsing F)) → Prop}

/-- Whatever clients send and whatever fails, what the server writes for a command is read
by the JSON library as a reply, and as data it has what was read for the command last. -/
theorem replies_tell_what_was_read {fuel : ι → ℕ}
    (hround : ∀ v, F.read (P.rounded v).1 = some (P.rounded v) ∨ (P.rounded v).1 = ascii "null")
    (hprog : ∀ i, c₀.prog i = handleClientSSL (fuel i)) (htrace : c₀.trace = [])
    (hempty : c₀.shared.db.history = []) (h : Config.Reach (World.Serves allowed) ok c₀ c) {i : ι}
    {before after : List (Event (Res (P := P.parsing F)))} {b : Bytes} {sent : Bool}
    (hlog : c.log i = before ++ ⟨.sslWrite b, sent⟩ :: after) : Written F (hearing before) b := by
  have hregular : Config.Reach (World.Serves allowed) (fun _ _ e => RegularReads [e]) c₀ c := by
    refine h.strengthen fun c i e c' hr hstep hok => ?_
    have hreads := ((regular_reach hprog htrace hempty (hr.step hstep hok)).2 i).1
    obtain ⟨o, k, r, s, -, -, rfl, rfl⟩ := hstep.inv
    rw [Config.advance_log_self] at hreads
    exact fun f limit offset rows hmem => hreads f limit offset rows (List.mem_append_right _ hmem)
  obtain ⟨-, -, hwritten⟩ := hregular.monitored_each (jsonMonitor (P.parsing F) F)
    (Q := fun _ _ _ => True) (T := fun _ _ => True) (fun _ => ⟨[], .none⟩) (J := fun _ => True)
    (I := fun _ log _ _ => ∀ before b sent after,
      log = before ++ ⟨.sslWrite b, sent⟩ :: after → Written F (hearing before) b) htrace
    (fun i => by
      rw [hprog]
      exact safe_handleClientSSL_told hround _ _)
    trivial
    (fun i before b sent after heq => by simp at heq)
    (fun c i o r s _ hI ha _ hok => by
      refine ⟨?_, trivial, fun before b sent after heq => ?_⟩
      · cases o with
        | selectHistory f limit offset => exact hok f limit offset r List.mem_cons_self
        | _ => trivial
      · rcases List.eq_nil_or_concat after with rfl | ⟨after', e, rfl⟩
        · obtain ⟨rfl, he⟩ := List.append_inj' heq rfl
          cases he
          exact ha
        · have hsplit : c.log i ++ [⟨o, r⟩] =
              (before ++ ⟨.sslWrite b, sent⟩ :: after') ++ [e] := by
            rw [heq, List.append_assoc]
            simp
          exact hI before b sent after' (List.append_inj' hsplit rfl).1)
  exact hwritten i before b sent after hlog

end Clients

theorem exists_written {l : List (Event (Res (P := P)))} {b : Bytes}
    (h : b ∈ (transcript l).filterMap Sum.getRight?) :
    ∃ before after, l = before ++ ⟨.sslWrite b, true⟩ :: after := by
  obtain ⟨x, hx, hb⟩ := List.mem_filterMap.mp h
  obtain ⟨⟨o, sent⟩, hmem, he⟩ := List.mem_filterMap.mp hx
  cases o with
  | sslWrite b' =>
    cases sent with
    | false => cases he
    | true =>
      cases he
      cases hb
      exact List.append_of_mem hmem
  | received cmd =>
    cases he
    cases hb
  | _ => cases he

def tellingStart : Clients (Platform.reference.parsing Reference.floats) Unit (Option Bool) :=
  sends 60 ⟨Reference.emptyFs, ⟨⟨[⟨1, ascii "u", [], []⟩], 1⟩, [], 0⟩⟩
    (ascii "ADD_HISTORY d i p 1 - - 50\nGET_HISTORY_BY_EVENT_TYPE u 1\n")

theorem telling_fits : tellingStart.Fits World.answer (fun _ _ _ => true)
    (List.replicate 65 ((), .ok)) = true := by decide +kernel

def toldRecord : Bytes := ascii ("\x7b\"code\":200,\"data\":[\x7b\"date\":\"d\"," ++
  "\"event_type\":1,\"id\":1,\"image_path\":\"i\",\"plate_number\":\"p\",\"speed\":50.0\x7d]," ++
  "\"message\":\"History retrieved successfully\",\"status\":\"success\"\x7d\n")

theorem record_is_told : ∃ c before after,
    Config.Reach (World.Serves World.Sending) (fun _ _ _ => true = true) tellingStart c ∧
      c.log () = before ++ ⟨.sslWrite toldRecord, true⟩ :: after ∧
      Written Reference.floats (hearing before) toldRecord := by
  have hreach := Clients.follow_reach (List.replicate 65 ((), .ok)) tellingStart telling_fits
    World.Sending.of_faultless (by decide)
  obtain ⟨before, after, hlog⟩ := exists_written (b := toldRecord)
    (l := (tellingStart.follow World.answer (List.replicate 65 ((), .ok))).log ())
    (by decide +kernel)
  exact ⟨_, before, after, hreach, hlog, replies_tell_what_was_read
    (P := .reference) (F := Reference.floats) (fun v => .inl (Reference.read_whole v))
    (fun _ => rfl) rfl rfl hreach hlog⟩

end CctvServer
