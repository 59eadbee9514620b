import CctvServer.FrameFaults
import CctvServer.FrameSettings
import CctvServer.JsonText

namespace CctvServer

open CommandHandler JsonText

variable {P : Platform}

/-- The reply is the text of a JSON object. -/
def IsResponse (reply : Bytes) : Prop := ∃ members, Parses reply (.obj members)

/-- No exception leaves the command, and its reply is JSON. -/
def Answered (x : Option Bytes) : Prop := ∃ reply, x = some reply ∧ IsResponse reply

theorem reply_denotes {status message : String} (code : ℕ) (hs : Plain (ascii status))
    (hm : Plain (ascii message)) : Denotes (reply status code message)
      (.value (.obj [(ascii "status", .str (ascii status)), (ascii "code", .number (decimal code)),
        (ascii "message", .str (ascii message))])) := by
  have h₁ : ascii "\x7b\"status\": \"" = 123 :: 34 :: ascii "status" ++ [34, 58, 32, 34] := by
    decide
  have h₂ : ascii "\", \"code\": " = 34 :: 44 :: 32 :: 34 :: ascii "code" ++ [34, 58, 32] := by
    decide
  have h₃ : ascii ", \"message\": \"" =
      44 :: 32 :: 34 :: ascii "message" ++ [34, 58, 32, 34] := by decide
  have h₄ : ascii "\"\x7d" = [34, 125] := by decide
  have htext : reply status code message = 123 :: joinMembers [32]
      [(ascii "status", 34 :: ascii status ++ [34], .str (ascii status)),
        (ascii "code", decimal code, .number (decimal code)),
        (ascii "message", 34 :: ascii message ++ [34], .str (ascii message))] ++ [125] := by
    simp [reply, joinMembers, h₁, h₂, h₃, h₄]
  rw [htext]
  refine object_denotes (List.forall_mem_singleton.mpr rfl) (by simp) ?_
  simp only [List.forall_mem_cons, List.not_mem_nil, false_imp_iff, implies_true, and_true]
  exact ⟨⟨by decide, .str hs.quoted⟩, ⟨by decide, .number (Json.number_decimalInt code)⟩,
    by decide, .str hm.quoted⟩

theorem reply_utf8 {status message : String} (code : ℕ) (hs : Plain (ascii status))
    (hm : Plain (ascii message)) : Utf8.valid (reply status code message) = true := by
  refine Utf8.valid_of_ascii fun c hc => ?_
  simp only [reply, ascii_append, List.mem_append] at hc
  rcases hc with (((hc | hc) | hc) | hc) | (hc | hc) | hc
  · exact (by decide : ∀ c ∈ ascii "\x7b\"status\": \"", c ≤ 0x7F) c hc
  · exact (hs c hc).2
  · exact (by decide : ∀ c ∈ ascii "\", \"code\": ", c ≤ 0x7F) c hc
  · exact UInt8.le_trans (printable_decimal c hc).2 (by decide)
  · exact (by decide : ∀ c ∈ ascii ", \"message\": \"", c ≤ 0x7F) c hc
  · exact (hm c hc).2
  · exact (by decide : ∀ c ∈ ascii "\"\x7d", c ≤ 0x7F) c hc

theorem isResponse_reply {status message : String} (code : ℕ) (hs : Plain (ascii status))
    (hm : Plain (ascii message)) : IsResponse (reply status code message) := by
  have hnil : Blank [] := List.forall_mem_nil _
  exact ⟨_, reply_utf8 code hs hm, [], _, [], by simp, hnil, hnil, reply_denotes code hs hm⟩

theorem answered_error (code : ℕ) {message : String} (h : Plain (ascii message)) :
    Answered (some (errorReply code message)) :=
  ⟨_, rfl, isResponse_reply code (by decide) h⟩

/-- What `operator[]` with a key works on. -/
def Takes (config : Json) : Prop := config = .null ∨ ∃ members, config = .obj members

theorem assign_eq_none {config v : Json} {key : String} :
    assign config key v = none ↔ ¬Takes config := by
  cases config <;> simp [assign, Takes]

theorem assign_takes {config config' v : Json} {key : String}
    (h : assign config key v = some config') : Takes config' := by
  unfold assign at h
  split at h <;> cases h
  · exact .inr ⟨_, rfl⟩
  · exact .inr ⟨_, rfl⟩

/-- The payload gets as far as writing a member: its menu is one of the three, and the
value behind it one that the menu takes. -/
def Assigns (payload : Bytes) : Prop :=
  let (menuType, iss) := (IStream.ofBytes payload).int 0
  iss.fail = false ∧ ((menuType = 0 ∨ menuType = 1) ∧ (readFlag iss).isSome ∨
    menuType = 2 ∧ iss.word.2.fail = false ∧
      iss.word.1 ∈ [ascii "original", ascii "sharp", ascii "day", ascii "night"])

theorem changeFlag_throw {key : String} {iss : IStream} {config : Json} :
    changeFlag key iss config = .throw ↔ (readFlag iss).isSome ∧ ¬Takes config := by
  unfold readFlag changeFlag
  dsimp only
  by_cases hf : (iss.int 0).2.fail = true
  · simp [hf]
  by_cases h₀ : (iss.int 0).1 = 0
  · have htakes : assign config key (.bool false) = none ↔ ¬Takes config := assign_eq_none
    rw [← htakes]
    cases h : assign config key (.bool false) <;> simp [hf, h₀, h]
  by_cases h₁ : (iss.int 0).1 = 1
  · have htakes : assign config key (.bool true) = none ↔ ¬Takes config := assign_eq_none
    rw [← htakes]
    cases h : assign config key (.bool true) <;> simp [hf, h₁, h]
  · simp [hf, h₀, h₁]

theorem changeMode_throw {iss : IStream} {config : Json} :
    changeMode iss config = .throw ↔ (iss.word.2.fail = false ∧
      iss.word.1 ∈ [ascii "original", ascii "sharp", ascii "day", ascii "night"]) ∧
      ¬Takes config := by
  unfold changeMode
  dsimp only
  split
  · rename_i hbad
    refine iff_of_false nofun ?_
    rintro ⟨⟨hfail, hname⟩, -⟩
    simp only [List.mem_cons, List.not_mem_nil, or_false] at hname
    rw [hfail] at hbad
    simp only [Bool.false_eq_true, false_or] at hbad
    tauto
  · rename_i hgood
    have hname : iss.word.2.fail = false ∧
        iss.word.1 ∈ [ascii "original", ascii "sharp", ascii "day", ascii "night"] := by
      simp only [List.mem_cons, List.not_mem_nil, or_false]
      simp only [Bool.eq_false_iff]
      tauto
    have htakes : assign config "mode" (.str iss.word.1) = none ↔ ¬Takes config := assign_eq_none
    rw [← htakes]
    cases h : assign config "mode" (.str iss.word.1) with
    | none => simpa using hname
    | some config' =>
      -- the value is an object by now, and its other member can be written
      have hobject : assign config' "sharpness_level" (.int (iss.word.2.int 0).1) ≠ none :=
        fun hnone => assign_eq_none.mp hnone (assign_takes h)
      obtain ⟨config'', h'⟩ := Option.ne_none_iff_exists'.mp hobject
      refine iff_of_false ?_ (by simp)
      dsimp only
      rw [h']
      split_ifs <;> nofun

theorem frameEdit_throw {payload : Bytes} {config : Json}
    (hfail : ((IStream.ofBytes payload).int 0).2.fail = false) :
    frameEdit payload config = .throw ↔ Assigns payload ∧ ¬Takes config := by
  unfold frameEdit Assigns changeFrame
  dsimp only
  rw [hfail]
  generalize ((IStream.ofBytes payload).int 0).2 = iss
  generalize ((IStream.ofBytes payload).int 0).1 = menuType
  by_cases h₀ : menuType = 0
  · simp [h₀, changeFlag_throw]
  by_cases h₁ : menuType = 1
  · simp [h₁, changeFlag_throw]
  by_cases h₂ : menuType = 2
  · simp [h₂, changeMode_throw]
  · simp [h₀, h₁, h₂]

def FrameEdit.Worded : FrameEdit → Prop
  | .reject message => Plain (ascii message)
  | _ => True

theorem changeFlag_worded (key : String) (iss : IStream) (config : Json) :
    FrameEdit.Worded (changeFlag key iss config) := by
  unfold changeFlag
  dsimp only
  split
  · exact show Plain (ascii "Invalid boolean value") by decide
  · split <;> trivial

theorem changeMode_worded (iss : IStream) (config : Json) :
    FrameEdit.Worded (changeMode iss config) := by
  unfold changeMode
  dsimp only
  split
  · exact show Plain (ascii "Invalid mode value") by decide
  · cases assign config "mode" (.str iss.word.1) with
    | none => trivial
    | some config' =>
      dsimp only
      split_ifs
      · exact show Plain (ascii "Invalid sharpness level (0~100)") by decide
      · cases assign config' "sharpness_level" (.int (iss.word.2.int 0).1) <;> trivial
      · trivial

theorem frameEdit_worded (payload : Bytes) (config : Json) :
    FrameEdit.Worded (frameEdit payload config) := by
  unfold frameEdit changeFrame
  split_ifs
  · exact changeFlag_worded _ _ _
  · exact changeFlag_worded _ _ _
  · exact changeMode_worded _ _
  · exact show Plain (ascii "Unknown menu_type") by decide

def configRead (o : FrameOutcomes) (w : World P) : Option Bytes :=
  if o.openRead.failed || w.fs.tooLong overlayConfig || o.readAll.failed then none
  else match w.fs.lookup overlayConfig with
    | some (.file i) => some (w.fs.content i)
    | _ => none

def gotFrame (o : FrameOutcomes) (w : World P) : Option Bytes :=
  (Prog.run World.answer .ok handleGetFrame o.inTurn (w, ⟨[], []⟩)).2.1

section Runs

variable {o : FrameOutcomes} {w : World P}

theorem run_withConfig (use : Json → Server P Bytes) :
    (Answered (Prog.run World.answer .ok (withConfig overlayConfig "overlay_config" use) o.inTurn
        (w, ⟨[], []⟩)).2.1 ∧ (configRead o w).bind P.parseJson = none) ∨
      ∃ config, (configRead o w).bind P.parseJson = some config ∧
        (Prog.run World.answer .ok (withConfig overlayConfig "overlay_config" use) o.inTurn
          (w, ⟨[], []⟩)).2.1 =
        (Prog.run World.answer .ok (use config) [o.openWrite, o.write, o.closeWrite]
          (w, ⟨[], []⟩)).2.1 := by
  have hopen : Answered (some (errorReply 500 ("Failed to open " ++ "overlay_config"))) :=
    answered_error 500 (by decide)
  have hparse : Answered (some (errorReply 500 ("Failed to parse " ++ "overlay_config"))) :=
    answered_error 500 (by decide)
  rw [withConfig_eq]
  by_cases hread : (o.openRead.failed || w.fs.tooLong overlayConfig) = true
  · refine .inl ⟨?_, by simp [configRead, hread]⟩
    simp only [Prog.run, FrameOutcomes.inTurn, World.answer, List.headD_cons, hread, if_true,
      Option.elim]
    exact hopen
  simp only [Bool.not_eq_true] at hread
  cases hentry : w.fs.lookup overlayConfig with
  | none =>
    refine .inl ⟨?_, by simp [configRead, hread, hentry]⟩
    simpa [Prog.run, FrameOutcomes.inTurn, World.answer, hread, hentry] using hopen
  | some e =>
  cases e with
  | dir n =>
    refine .inl ⟨?_, by simp [configRead, hread, hentry]⟩
    simpa [Prog.run, FrameOutcomes.inTurn, World.answer, hread, hentry] using hparse
  | file i =>
  cases hall : o.readAll.failed with
  | true =>
    refine .inl ⟨?_, by simp [configRead, hall]⟩
    simpa [Prog.run, FrameOutcomes.inTurn, World.answer, hread, hentry, hall] using hparse
  | false =>
  have hconfig : configRead o w = some (w.fs.content i) := by simp [configRead, hread, hentry, hall]
  rw [hconfig, Option.bind_some]
  cases hjson : P.parseJson (w.fs.content i) with
  | none =>
    refine .inl ⟨?_, rfl⟩
    simpa [Prog.run, FrameOutcomes.inTurn, World.answer, hread, hentry, hall, hjson] using hparse
  | some config =>
    refine .inr ⟨config, rfl, ?_⟩
    simp [Prog.run, FrameOutcomes.inTurn, World.answer, hread, hentry, hall, hjson]

theorem run_saveConfig {config : Json} (hutf : config.Utf8Valid) (ws : List Outcome) :
    Answered (Prog.run World.answer .ok (saveConfig config) ws (w, ⟨[], []⟩)).2.1 := by
  obtain ⟨text, htext⟩ := Option.isSome_iff_exists.mp ((Json.dump_isSome_iff config).mpr hutf)
  rw [saveConfig_eq, htext]
  simp only [Prog.run, Option.elim_some]
  cases (World.answer (ws.headD .ok) (.openWrite overlayConfig) (w, (⟨[], []⟩ : Socket))).1 with
  | none => exact answered_error 500 (by decide)
  | some ino => exact ⟨_, rfl, isResponse_reply 200 (by decide) (by decide)⟩

theorem answered_changedFrame {payload : Bytes} :
    Answered (changedFrame payload o w).1 ↔
      ∀ config, (configRead o w).bind P.parseJson = some config → Assigns payload →
        Takes config := by
  by_cases hfail : ((IStream.ofBytes payload).int 0).2.fail = true
  · have hfalse : ¬Assigns payload := fun h => by simp [Assigns, hfail] at h
    refine iff_of_true ?_ fun _ _ h => absurd h hfalse
    rw [changedFrame, handleChangeFrame_eq, if_pos hfail]
    exact answered_error 400 (by decide)
  rw [changedFrame_read (by simpa using hfail)]
  rcases run_withConfig (o := o) (w := w) fun config => (frameEdit payload config).answer with
    ⟨hanswered, hnone⟩ | ⟨config, hconfig, heq⟩
  · refine iff_of_true hanswered fun config hsome => ?_
    rw [hnone] at hsome
    cases hsome
  · dsimp only
    rw [heq, hconfig]
    simp only [Option.some.injEq, forall_eq']
    obtain ⟨text, -, hparse⟩ := Option.bind_eq_some_iff.mp hconfig
    have hthrow : frameEdit payload config = .throw ↔ _ := frameEdit_throw (by simpa using hfail)
    have hsound : (frameEdit payload config).Sound :=
      changeFrame_sound _ _ (P.parseJson_utf8 _ _ hparse)
    have hworded := frameEdit_worded payload config
    cases hedit : frameEdit payload config with
    | reject message =>
      rw [hedit] at hthrow hworded
      refine iff_of_true (answered_error 400 hworded) fun ha => ?_
      by_contra ht
      exact FrameEdit.noConfusion (hthrow.mpr ⟨ha, ht⟩)
    | throw =>
      obtain ⟨ha, ht⟩ := hthrow.mp hedit
      refine iff_of_false ?_ fun h => ht (h ha)
      rintro ⟨reply, hreply, -⟩
      cases hreply
    | accept config' =>
      rw [hedit] at hthrow hsound
      refine iff_of_true (run_saveConfig hsound _) fun ha => ?_
      by_contra ht
      exact FrameEdit.noConfusion (hthrow.mpr ⟨ha, ht⟩)

theorem answered_gotFrame (hprint : ∀ b j, P.parseJson b = some j → j.Printed) :
    Answered (gotFrame o w) := by
  rcases run_withConfig (o := o) (w := w) (dataReply "Overlay config retrieved") with
    ⟨hanswered, -⟩ | ⟨config, hconfig, heq⟩
  · exact hanswered
  obtain ⟨text, -, hparse⟩ := Option.bind_eq_some_iff.mp hconfig
  have hutf : (response "Overlay config retrieved" config).Utf8Valid :=
    (response_utf8 (by decide) config).mpr (P.parseJson_utf8 _ _ hparse)
  have hprinted : (response "Overlay config retrieved" config).Printed :=
    ⟨trivial, hprint _ _ hparse, trivial, trivial, trivial⟩
  obtain ⟨reply, hreply⟩ := Option.isSome_iff_exists.mp ((Json.dump_isSome_iff _).mpr hutf)
  rw [gotFrame, handleGetFrame, heq, dataReply_eq, hreply]
  exact ⟨reply, rfl, _, Json.dump_parses hprinted hreply⟩

/-- Both overlay commands answer with JSON exactly if no change writes a member to a
value that is neither null nor an object. -/
theorem overlay_commands_answer_iff (hprint : ∀ b j, P.parseJson b = some j → j.Printed)
    (payload : Bytes) (o : FrameOutcomes) (w : World P) :
    Answered (changedFrame payload o w).1 ∧ Answered (gotFrame o w) ↔
      ∀ config, (configRead o w).bind P.parseJson = some config → Assigns payload →
        Takes config := by
  rw [answered_changedFrame]
  exact and_iff_left (answered_gotFrame hprint)

end Runs

def shmHolding (config : Json) (text : Bytes) : World (Reference.knowing [config]) :=
  ⟨shmFs.setContent 2 text, Reference.emptyDb _⟩

theorem knowing_printed {config : Json} (h : config.Printed) (b : Bytes) (j : Json)
    (hj : (Reference.knowing [config]).parseJson b = some j) : j.Printed := by
  have hfind : [config].find? (fun j => j.dump = some b) = some j := hj
  have hmem : j ∈ [config] := List.mem_of_find?_eq_some hfind
  rw [List.mem_singleton.mp hmem]
  exact h

/-- An exception leaves the command, and with it the server ends. -/
theorem list_config_is_not_answered :
    (∀ b j, (Reference.knowing [.arr []]).parseJson b = some j → j.Printed) ∧
    configRead allWell (shmHolding (.arr []) (ascii "[]")) = some (ascii "[]") ∧
    ¬(Answered (changedFrame (ascii "0 1") allWell (shmHolding (.arr []) (ascii "[]"))).1 ∧
      Answered (gotFrame allWell (shmHolding (.arr []) (ascii "[]")))) := by
  have hprinted : (Json.arr []).Printed := trivial
  refine ⟨knowing_printed hprinted, by decide, ?_⟩
  have hnone :
      (changedFrame (ascii "0 1") allWell (shmHolding (.arr []) (ascii "[]"))).1 = none := by
    decide +kernel
  rintro ⟨⟨reply, hreply, -⟩, -⟩
  rw [hnone] at hreply
  cases hreply

theorem object_config_is_answered :
    Answered (changedFrame (ascii "0 1") allWell (shmHolding (.obj []) (ascii "\x7b\x7d"))).1 ∧
      Answered (gotFrame allWell (shmHolding (.obj []) (ascii "\x7b\x7d"))) := by
  have hprinted : (Json.obj []).Printed := trivial
  refine (overlay_commands_answer_iff (knowing_printed hprinted) _ _ _).mpr ?_
  intro config hconfig _
  have hsome : (configRead allWell (shmHolding (.obj []) (ascii "\x7b\x7d"))).bind
      (Reference.knowing [.obj []]).parseJson = some (.obj []) := by rfl
  rw [hsome, Option.some.injEq] at hconfig
  exact .inr ⟨_, hconfig.symm⟩

end CctvServer
