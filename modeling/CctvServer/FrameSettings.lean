import CctvServer.JsonObjects
import CctvServer.Overlay

namespace CctvServer

open CommandHandler

variable {P : Platform}

inductive PlainMode
  | original
  | day
  | night
  deriving DecidableEq

/-- Only the sharp mode has a level. -/
inductive OverlayMode
  | plain (m : PlainMode)
  | sharp (level : Fin 101)
  deriving DecidableEq

/-- The settings of menus 0, 1 and 2. -/
inductive FrameSetting
  | bbox (on : Bool)
  | timestamp (on : Bool)
  | mode (m : OverlayMode)
  deriving DecidableEq

def PlainMode.name : PlainMode → Bytes
  | original => ascii "original"
  | day => ascii "day"
  | night => ascii "night"

namespace OverlayMode

def name : OverlayMode → Bytes
  | plain m => m.name
  | sharp _ => ascii "sharp"

def level : OverlayMode → Option Json
  | plain _ => none
  | sharp level => some (.int level.val)

theorem level_isSome_iff (m : OverlayMode) : m.level.isSome ↔ m.name = ascii "sharp" := by
  cases m with
  | plain m => cases m <;> decide
  | sharp n => exact iff_of_true rfl rfl

end OverlayMode

def readFlag (iss : IStream) : Option Bool :=
  let (boolVal, iss) := iss.int 0
  if iss.fail then none
  else if boolVal = 0 then some false else if boolVal = 1 then some true else none

def readLevel (iss : IStream) : Option (Fin 101) :=
  let (level, iss) := iss.int 0
  if iss.fail then none
  else if h : 0 ≤ level ∧ level ≤ 100 then some ⟨level.toNat, by omega⟩ else none

def readMode (iss : IStream) : Option OverlayMode :=
  let (name, iss) := iss.word
  if iss.fail then none
  else if name = ascii "original" then some (.plain .original)
  else if name = ascii "day" then some (.plain .day)
  else if name = ascii "night" then some (.plain .night)
  else if name = ascii "sharp" then (readLevel iss).map .sharp
  else none

/-- The setting that a payload asks for, if it is to be accepted. -/
def frameSetting (payload : Bytes) : Option FrameSetting :=
  let (menuType, iss) := (IStream.ofBytes payload).int 0
  if iss.fail then none
  else if menuType = 0 then (readFlag iss).map .bbox
  else if menuType = 1 then (readFlag iss).map .timestamp
  else if menuType = 2 then (readMode iss).map .mode
  else none

namespace FrameSetting

def menu : FrameSetting → ℕ
  | bbox _ => 0
  | timestamp _ => 1
  | mode _ => 2

def putMode (m : OverlayMode) (members : List (Bytes × Json)) : List (Bytes × Json) :=
  match m.level with
  | some level => Json.setKey (ascii "sharpness_level") level
      (Json.setKey (ascii "mode") (.str m.name) members)
  | none => Json.eraseKey (ascii "sharpness_level")
      (Json.setKey (ascii "mode") (.str m.name) members)

def apply : FrameSetting → List (Bytes × Json) → List (Bytes × Json)
  | bbox on => Json.setKey (ascii "show_bbox") (.bool on)
  | timestamp on => Json.setKey (ascii "show_timestamp") (.bool on)
  | mode m => putMode m

end FrameSetting

/-- The edit makes the setting of an object, or refuses when there is none. -/
def Makes (edit : FrameEdit) (setting : Option FrameSetting) (members : List (Bytes × Json)) :
    Prop :=
  match setting with
  | some s => edit = .accept (.obj (s.apply members))
  | none => ∃ message, edit = .reject message

theorem changeFlag_makes {key : String} (setting : Bool → FrameSetting)
    (hset : ∀ on members, (setting on).apply members = Json.setKey (ascii key) (.bool on) members)
    (iss : IStream) (members : List (Bytes × Json)) :
    Makes (changeFlag key iss (.obj members)) ((readFlag iss).map setting) members := by
  unfold readFlag changeFlag
  dsimp only
  by_cases hf : (iss.int 0).2.fail = true
  · simp [hf, Makes]
  · by_cases h₀ : (iss.int 0).1 = 0
    · simp [hf, h₀, assign, Makes, hset]
    · by_cases h₁ : (iss.int 0).1 = 1
      · simp [hf, h₁, assign, Makes, hset]
      · simp [hf, h₀, h₁, Makes]

theorem changeMode_makes (iss : IStream) (members : List (Bytes × Json)) :
    Makes (changeMode iss (.obj members)) ((readMode iss).map .mode) members := by
  unfold readMode changeMode
  dsimp only
  generalize iss.word.1 = name
  generalize iss.word.2 = iss
  by_cases hf : iss.fail = true
  · simp [hf, Makes]
  · by_cases h₁ : name = ascii "original"
    · subst h₁
      simp +decide [hf, assign, erase, Makes, FrameSetting.apply, FrameSetting.putMode,
        OverlayMode.level, OverlayMode.name, PlainMode.name]
    · by_cases h₂ : name = ascii "day"
      · subst h₂
        simp +decide [hf, assign, erase, Makes, FrameSetting.apply, FrameSetting.putMode,
          OverlayMode.level, OverlayMode.name, PlainMode.name]
      · by_cases h₃ : name = ascii "night"
        · subst h₃
          simp +decide [hf, assign, erase, Makes, FrameSetting.apply, FrameSetting.putMode,
            OverlayMode.level, OverlayMode.name, PlainMode.name]
        · by_cases h₄ : name = ascii "sharp"
          · subst h₄
            unfold readLevel
            dsimp only
            by_cases hl : (iss.int 0).2.fail = true
            · simp +decide [hf, hl, assign, Makes]
            · by_cases hr : 0 ≤ (iss.int 0).1 ∧ (iss.int 0).1 ≤ 100
              · have hn : ¬((iss.int 0).1 < 0 ∨ 100 < (iss.int 0).1) := by omega
                simp +decide [hf, hl, hr, hn, assign, Makes, FrameSetting.apply,
                  FrameSetting.putMode, OverlayMode.level, OverlayMode.name]
              · have hn : (iss.int 0).1 < 0 ∨ 100 < (iss.int 0).1 := by omega
                simp +decide [hf, hl, hr, hn, assign, Makes]
          · simp [hf, h₁, h₂, h₃, h₄, Makes]

theorem frameEdit_makes {payload : Bytes} (hfail : ((IStream.ofBytes payload).int 0).2.fail = false)
    (members : List (Bytes × Json)) :
    Makes (frameEdit payload (.obj members)) (frameSetting payload) members := by
  unfold frameSetting frameEdit changeFrame
  dsimp only
  rw [hfail]
  generalize ((IStream.ofBytes payload).int 0).2 = iss
  generalize ((IStream.ofBytes payload).int 0).1 = menuType
  by_cases h₀ : menuType = 0
  · simpa [h₀] using changeFlag_makes .bbox (fun _ _ => rfl) iss members
  · by_cases h₁ : menuType = 1
    · simpa [h₁] using changeFlag_makes .timestamp (fun _ _ => rfl) iss members
    · by_cases h₂ : menuType = 2
      · simpa [h₂] using changeMode_makes iss members
      · simp [h₀, h₁, h₂, Makes]

def lastOf {α : Type} (f : FrameSetting → Option α) (settings : List FrameSetting) : Option α :=
  (settings.filterMap f).getLast?

def lastBbox : List FrameSetting → Option Bool := lastOf fun
  | .bbox on => some on
  | _ => none

def lastTimestamp : List FrameSetting → Option Bool := lastOf fun
  | .timestamp on => some on
  | _ => none

def lastMode : List FrameSetting → Option OverlayMode := lastOf fun
  | .mode m => some m
  | _ => none

/-- The object with the last value of each setting; the others stay as they are. -/
def lastWrites (settings : List FrameSetting) (members : List (Bytes × Json)) :
    List (Bytes × Json) :=
  let members := (lastBbox settings).elim members fun on =>
    Json.setKey (ascii "show_bbox") (.bool on) members
  let members := (lastTimestamp settings).elim members fun on =>
    Json.setKey (ascii "show_timestamp") (.bool on) members
  (lastMode settings).elim members fun m => FrameSetting.putMode m members

theorem lastOf_snoc {α : Type} (f : FrameSetting → Option α) (settings : List FrameSetting)
    (s : FrameSetting) : lastOf f (settings ++ [s]) = (f s).or (lastOf f settings) := by
  unfold lastOf
  cases h : f s <;> simp [h, List.filterMap_append]

section Objects

variable {members : List (Bytes × Json)}

theorem find_putMode (m : OverlayMode) (k : Bytes) : Json.find k (FrameSetting.putMode m members) =
    if k = ascii "sharpness_level" then m.level
    else if k = ascii "mode" then some (.str m.name) else Json.find k members := by
  unfold FrameSetting.putMode
  cases m.level with
  | none => simp only [Json.find_eraseKey, Json.find_setKey]
  | some level => simp only [Json.find_setKey]

theorem find_lastWrites (settings : List FrameSetting) (k : Bytes) :
    Json.find k (lastWrites settings members) =
      if k = ascii "sharpness_level" then
        match lastMode settings with
        | some m => m.level
        | none => Json.find k members
      else if k = ascii "mode" then
        ((lastMode settings).map fun m => .str m.name).or (Json.find k members)
      else if k = ascii "show_timestamp" then
        ((lastTimestamp settings).map .bool).or (Json.find k members)
      else if k = ascii "show_bbox" then
        ((lastBbox settings).map .bool).or (Json.find k members)
      else Json.find k members := by
  unfold lastWrites
  cases lastMode settings <;> cases lastTimestamp settings <;> cases lastBbox settings <;>
    simp only [Option.elim, find_putMode, Json.find_setKey, Option.map_none, Option.map_some,
      Option.none_or, Option.some_or] <;>
    split_ifs <;> simp_all +decide

theorem ordered_putMode (m : OverlayMode) (h : Json.Ordered members) :
    Json.Ordered (FrameSetting.putMode m members) := by
  unfold FrameSetting.putMode
  cases m.level with
  | none => exact h.setKey.eraseKey
  | some level => exact h.setKey.setKey

theorem ordered_apply (s : FrameSetting) (h : Json.Ordered members) :
    Json.Ordered (s.apply members) := by
  cases s with
  | bbox on => exact h.setKey
  | timestamp on => exact h.setKey
  | mode m => exact ordered_putMode m h

theorem ordered_elim {α : Type} {f : α → List (Bytes × Json)} (o : Option α)
    (h : Json.Ordered members) (hf : ∀ a, Json.Ordered (f a)) :
    Json.Ordered (o.elim members f) := by
  cases o with
  | none => exact h
  | some a => exact hf a

theorem ordered_lastWrites (settings : List FrameSetting) (h : Json.Ordered members) :
    Json.Ordered (lastWrites settings members) := by
  have hbbox : Json.Ordered ((lastBbox settings).elim members fun on =>
      Json.setKey (ascii "show_bbox") (.bool on) members) := ordered_elim _ h fun _ => h.setKey
  have htimestamp := ordered_elim (lastTimestamp settings) hbbox fun on =>
    (hbbox.setKey : Json.Ordered (Json.setKey (ascii "show_timestamp") (.bool on) _))
  exact ordered_elim (lastMode settings) htimestamp fun m => ordered_putMode m htimestamp

/-- One more setting replaces the last of its menu only. -/
theorem apply_lastWrites (settings : List FrameSetting) (s : FrameSetting)
    (h : Json.Ordered members) :
    s.apply (lastWrites settings members) = lastWrites (settings ++ [s]) members := by
  refine (ordered_apply s (ordered_lastWrites settings h)).ext (ordered_lastWrites _ h) fun k => ?_
  rw [find_lastWrites]
  cases s with
  | bbox on =>
    simp only [FrameSetting.apply, Json.find_setKey, find_lastWrites, lastMode, lastTimestamp,
      lastBbox, lastOf_snoc, Option.none_or, Option.some_or, Option.map_some]
    split_ifs <;> simp_all +decide
  | timestamp on =>
    simp only [FrameSetting.apply, Json.find_setKey, find_lastWrites, lastMode, lastTimestamp,
      lastBbox, lastOf_snoc, Option.none_or, Option.some_or, Option.map_some]
    split_ifs <;> simp_all +decide
  | mode m =>
    simp only [FrameSetting.apply, find_putMode, find_lastWrites, lastMode, lastTimestamp,
      lastBbox, lastOf_snoc, Option.none_or, Option.some_or, Option.map_some]
    split_ifs <;> simp_all +decide

theorem lastWrites_swap (settings : List FrameSetting) {a b : FrameSetting} (h : a.menu ≠ b.menu) :
    lastWrites (settings ++ [a, b]) members = lastWrites (settings ++ [b, a]) members := by
  have hsnoc : ∀ x y : FrameSetting, settings ++ [x, y] = settings ++ [x] ++ [y] := by simp
  unfold lastWrites lastBbox lastTimestamp lastMode
  simp only [hsnoc, lastOf_snoc]
  cases a <;> cases b <;> first | exact absurd rfl h | rfl

theorem lastWrites_repeat (settings : List FrameSetting) (a : FrameSetting) :
    lastWrites (settings ++ [a, a]) members = lastWrites (settings ++ [a]) members := by
  have hsnoc : settings ++ [a, a] = settings ++ [a] ++ [a] := by simp
  unfold lastWrites lastBbox lastTimestamp lastMode
  simp only [hsnoc, lastOf_snoc]
  cases a <;> rfl

end Objects

/-- CHANGE_FRAME requests executed one at a time with all file I/O succeeding, and
what each was answered. -/
inductive ChangesInTurn (w : World P) : List (Bytes × Option Bytes) → World P → Prop
  | nil : ChangesInTurn w [] w
  | snoc {log : List (Bytes × Option Bytes)} {w₁ w₂ : World P} {k k' : Socket}
      {tr : List (Event (Res (P := P)))} {payload : Bytes} {x : Option Bytes}
      (before : ChangesInTurn w log w₁)
      (run : Prog.Runs (World.Serves World.Faultless) (handleChangeFrame payload) (w₁, k) tr x
        (w₂, k')) : ChangesInTurn w (log ++ [(payload, x)]) w₂

def settingsOf (log : List (Bytes × Option Bytes)) : List FrameSetting :=
  log.filterMap fun x => frameSetting x.1

section Runs

variable {w w' : World P} {k : Socket} {tr : List (Event (Res (P := P)))} {x : Option Bytes}
  {s' : World P × Socket} {ino : ℕ} {members : List (Bytes × Json)}

theorem runs_withConfig {use : Json → Server P Bytes} {config : Json} (hfile : OverlayFile w.fs ino)
    (hparse : P.parseJson (w.fs.content ino) = some config)
    (h : Prog.Runs (World.Serves World.Faultless) (withConfig overlayConfig "overlay_config" use)
      (w, k) tr x s') :
    ∃ tr', Prog.Runs (World.Serves World.Faultless) (use config) (w, k) tr' x s' := by
  rw [withConfig_eq] at h
  obtain ⟨e, s₁, tr₁, ⟨ω, hω, hans⟩, h, -⟩ := h
  simp only [World.answer, show ω.failed = false from hω, hfile.short, hfile.lookup] at hans
  cases hans
  obtain ⟨text, s₂, tr₂, ⟨ω, hω, hans⟩, h, -⟩ := h
  simp only [World.answer, show ω.failed = false from hω] at hans
  cases hans
  change Prog.Runs _ ((P.parseJson (w.fs.content ino)).elim _ use) _ _ _ _ at h
  rw [hparse] at h
  exact ⟨tr₂, h⟩

theorem runs_saveConfig {config : Json} {text : Bytes} (hfile : OverlayFile w.fs ino)
    (hdump : config.dump = some text)
    (h : Prog.Runs (World.Serves World.Faultless) (saveConfig config) (w, k) tr x s') :
    x = some updated ∧ OverlayFile s'.1.fs ino ∧ s'.1.fs.content ino = text := by
  rw [saveConfig_eq, hdump] at h
  obtain ⟨i, s₁, tr₁, ⟨ω, hω, hans⟩, h, -⟩ := h
  simp only [World.answer, show ω.failed = false from hω,
    FileSystem.openWrite_file hfile.lookup hfile.short] at hans
  cases hans
  obtain ⟨ok, s₂, tr₂, ⟨ω, hω, hans⟩, h, -⟩ := h
  simp only [World.answer, show ω.failed = false from hω] at hans
  cases hans
  obtain ⟨ok, s₃, tr₃, ⟨ω, hω, hans⟩, ⟨-, rfl, rfl⟩, -⟩ := h
  cases hans
  refine ⟨rfl, (hfile.setContent _).setContent _, ?_⟩
  simp [FileSystem.writeAt, FileSystem.splice]

/-- A request with a setting makes it in the file, any other changes nothing. -/
theorem runs_handleChangeFrame {payload : Bytes} (hfile : OverlayFile w.fs ino)
    (hparse : P.parseJson (w.fs.content ino) = some (.obj members))
    (h : Prog.Runs (World.Serves World.Faultless) (handleChangeFrame payload) (w, k) tr x s') :
    (∃ s text, frameSetting payload = some s ∧
      frameEdit payload (.obj members) = .accept (.obj (s.apply members)) ∧
      (Json.obj (s.apply members)).dump = some text ∧
      x = some updated ∧ OverlayFile s'.1.fs ino ∧ s'.1.fs.content ino = text) ∨
    (frameSetting payload = none ∧ (∃ reply, x = some reply ∧ reply ≠ updated) ∧ s'.1 = w) := by
  rw [handleChangeFrame_eq] at h
  split at h
  · rename_i hfail
    obtain ⟨-, rfl, rfl⟩ := h
    refine .inr ⟨?_, ⟨_, rfl, errorReply_ne_updated _ _⟩, rfl⟩
    simp [frameSetting, hfail]
  · rename_i hfail
    obtain ⟨tr', h⟩ := runs_withConfig hfile hparse h
    have hmakes := frameEdit_makes (Bool.eq_false_iff.mpr hfail) members
    have hsound : (frameEdit payload (.obj members)).Sound :=
      changeFrame_sound _ _ (P.parseJson_utf8 _ _ hparse)
    cases hset : frameSetting payload with
    | none =>
      rw [hset] at hmakes
      obtain ⟨message, hmessage⟩ := hmakes
      rw [hmessage] at h
      obtain ⟨-, rfl, rfl⟩ := h
      exact .inr ⟨rfl, ⟨_, rfl, errorReply_ne_updated _ _⟩, rfl⟩
    | some s =>
      rw [hset] at hmakes
      have hmade : frameEdit payload (.obj members) = .accept (.obj (s.apply members)) := hmakes
      rw [hmade] at h hsound
      obtain ⟨text, htext⟩ := Option.isSome_iff_exists.mp ((Json.dump_isSome_iff _).mpr hsound)
      obtain ⟨hx, hfile', hcontent⟩ := runs_saveConfig hfile htext h
      exact .inl ⟨s, text, rfl, hmade, htext, hx, hfile', hcontent⟩

theorem runs_handleGetFrame {config : Json} (hfile : OverlayFile w.fs ino)
    (hparse : P.parseJson (w.fs.content ino) = some config)
    (h : Prog.Runs (World.Serves World.Faultless) handleGetFrame (w, k) tr x s') :
    ∃ reply, x = some reply ∧
      .ret reply = dataReply (P := P) "Overlay config retrieved" config := by
  obtain ⟨tr', h⟩ := runs_withConfig hfile hparse h
  have hmessage : Utf8.valid (ascii "Overlay config retrieved") = true := by decide
  rcases dataReply_cases (P := P) hmessage config with ⟨-, reply, -, -, heq⟩ | ⟨hn, -⟩
  · rw [heq] at h
    exact ⟨reply, h.2.1, heq.symm⟩
  · exact absurd (P.parseJson_utf8 _ _ hparse) hn

end Runs

/-- The configuration after some requests, and what each was answered. -/
structure Overlaid (ino : ℕ) (members : List (Bytes × Json)) (log : List (Bytes × Option Bytes))
    (w : World P) : Prop where
  file : OverlayFile w.fs ino
  config : P.parseJson (w.fs.content ino) = some (.obj (lastWrites (settingsOf log) members))
  answered : ∀ x ∈ log, ∃ reply, x.2 = some reply ∧
    (reply = updated ↔ frameSetting x.1 ≠ none)

theorem ChangesInTurn.overlaid {w w' : World P} {ino : ℕ} {members : List (Bytes × Json)}
    {log : List (Bytes × Option Bytes)} {payloads : List Bytes} (h : ChangesInTurn w log w')
    (hfile : OverlayFile w.fs ino)
    (hfirst : P.parseJson (w.fs.content ino) = some (.obj members))
    (hordered : Json.Ordered members) (hpayloads : ∀ x ∈ log, x.1 ∈ payloads)
    (hback : ∀ config b, Made (fun p : {p // p ∈ payloads} => .change p) (.obj members) config →
      config.dump = some b → P.parseJson b = some config) :
    Overlaid ino members log w' ∧ Made (fun p : {p // p ∈ payloads} => .change p) (.obj members)
      (.obj (lastWrites (settingsOf log) members)) := by
  induction h with
  | nil => exact ⟨⟨hfile, hfirst, nofun⟩, .first⟩
  | @snoc log w₁ w₂ k k' tr payload x before run ih =>
    obtain ⟨⟨hfile₁, hconfig₁, hanswered₁⟩, hmade₁⟩ :=
      ih fun x hx => hpayloads x (List.mem_append_left _ hx)
    have hpayload : payload ∈ payloads := hpayloads (payload, x) (by simp)
    have hsettings : settingsOf (log ++ [(payload, x)]) =
        settingsOf log ++ (frameSetting payload).toList := by
      rw [settingsOf, List.filterMap_append, ← settingsOf]
      cases hset : frameSetting payload <;> simp [hset]
    have hanswered : ∀ reply, x = some reply → (reply = updated ↔ frameSetting payload ≠ none) →
        ∀ y ∈ log ++ [(payload, x)], ∃ reply, y.2 = some reply ∧
          (reply = updated ↔ frameSetting y.1 ≠ none) := by
      intro reply hx hreply y hy
      rcases List.mem_append.mp hy with hy | hy
      · exact hanswered₁ y hy
      · rw [List.mem_singleton.mp hy]
        exact ⟨reply, hx, hreply⟩
    rw [hsettings]
    rcases runs_handleChangeFrame hfile₁ hconfig₁ run with
      ⟨s, text, hset, hedit, htext, hx, hfile₂, hcontent₂⟩ | ⟨hset, ⟨reply, hx, hreply⟩, hw⟩
    · rw [apply_lastWrites _ _ hordered] at hedit htext
      have hmade := hmade₁.edited (i := ⟨payload, hpayload⟩) rfl hedit
      rw [hset, Option.toList_some]
      refine ⟨⟨hfile₂, ?_, hanswered updated hx (by simp [hset])⟩, hmade⟩
      rw [hsettings, hset, Option.toList_some, hcontent₂]
      exact hback _ _ hmade htext
    · obtain rfl : w₂ = w₁ := hw
      rw [hset, Option.toList_none, List.append_nil]
      refine ⟨⟨hfile₁, ?_, hanswered reply hx (by simp [hset, hreply])⟩, hmade₁⟩
      rwa [hsettings, hset, Option.toList_none, List.append_nil]

/-- The configuration is the first object with the last accepted value of each
setting, GET_FRAME returns it, and the level stands by the sharp mode only. -/
theorem change_frame_last_writer_wins {w w' : World P} {ino : ℕ} {members : List (Bytes × Json)}
    {log : List (Bytes × Option Bytes)} (hfile : OverlayFile w.fs ino)
    (hfirst : P.parseJson (w.fs.content ino) = some (.obj members))
    (hordered : Json.Ordered members)
    (hback : ∀ config b, Made (fun p : {p // p ∈ log.map Prod.fst} => .change p) (.obj members)
      config → config.dump = some b → P.parseJson b = some config)
    (h : ChangesInTurn w log w') :
    Overlaid ino members log w' ∧
    (∀ k tr x s', Prog.Runs (World.Serves World.Faultless) handleGetFrame (w', k) tr x s' →
      ∃ reply, x = some reply ∧ .ret reply = dataReply (P := P) "Overlay config retrieved"
        (.obj (lastWrites (settingsOf log) members))) ∧
    (∀ key ∉ [ascii "show_bbox", ascii "show_timestamp", ascii "mode", ascii "sharpness_level"],
      Json.find key (lastWrites (settingsOf log) members) = Json.find key members) ∧
    (lastMode (settingsOf log) ≠ none →
      ((Json.find (ascii "sharpness_level") (lastWrites (settingsOf log) members)).isSome ↔
        Json.find (ascii "mode") (lastWrites (settingsOf log) members) =
          some (.str (ascii "sharp")))) ∧
    (∀ a b : FrameSetting, a.menu ≠ b.menu → lastWrites (settingsOf log ++ [a, b]) members =
      lastWrites (settingsOf log ++ [b, a]) members) ∧
    ∀ a, lastWrites (settingsOf log ++ [a, a]) members =
      lastWrites (settingsOf log ++ [a]) members := by
  obtain ⟨hoverlaid, -⟩ := h.overlaid hfile hfirst hordered
    (fun x hx => List.mem_map_of_mem hx) hback
  refine ⟨hoverlaid, fun k tr x s' hrun => ?_, fun key hkey => ?_, fun hmode => ?_,
    fun a b => lastWrites_swap _, lastWrites_repeat _⟩
  · exact runs_handleGetFrame hoverlaid.file hoverlaid.config hrun
  · simp only [List.mem_cons, List.not_mem_nil, or_false, not_or] at hkey
    rw [find_lastWrites, if_neg hkey.2.2.2, if_neg hkey.2.2.1, if_neg hkey.2.1, if_neg hkey.1]
  · obtain ⟨m, hm⟩ := Option.ne_none_iff_exists'.mp hmode
    have hne : ascii "mode" ≠ ascii "sharpness_level" := by decide
    rw [find_lastWrites, find_lastWrites, if_pos rfl, if_neg hne, if_pos rfl, hm]
    simp [m.level_isSome_iff]

def Reference.knowing (configs : List Json) : Platform :=
  { Platform.reference with
    parseJson := fun b => configs.find? fun j => j.dump = some b
    parseJson_utf8 := fun b j h => by
      have := List.find?_some h
      rw [decide_eq_true_eq] at this
      exact (Json.dump_isSome_iff j).mp (by rw [this]; rfl) }

def modeConfigs : List (List (Bytes × Json)) :=
  [[], FrameSetting.putMode (.sharp 70) [], FrameSetting.putMode (.plain .day) []]

def modeChanges : List Bytes := [ascii "2 sharp 70", ascii "0 2", ascii "2 day"]

theorem modeConfigs_closed : ∀ payload ∈ modeChanges, ∀ members ∈ modeConfigs, ∀ s,
    frameSetting payload = some s → s.apply members ∈ modeConfigs := by
  have hsharp : frameSetting (ascii "2 sharp 70") = some (.mode (.sharp 70)) := by decide
  have hrefused : frameSetting (ascii "0 2") = none := by decide
  have hday : frameSetting (ascii "2 day") = some (.mode (.plain .day)) := by decide
  intro payload hpayload members hmembers s hs
  simp only [modeChanges, List.mem_cons, List.not_mem_nil, or_false] at hpayload
  simp only [modeConfigs, List.mem_cons, List.not_mem_nil, or_false] at hmembers
  rcases hpayload with rfl | rfl | rfl
  · rw [hsharp] at hs
    cases hs
    rcases hmembers with rfl | rfl | rfl <;> exact .tail _ (.head _)
  · rw [hrefused] at hs
    cases hs
  · rw [hday] at hs
    cases hs
    rcases hmembers with rfl | rfl | rfl <;> exact .tail _ (.tail _ (.head _))

theorem modeMade_mem {payloads : List Bytes} {config : Json}
    (hpayloads : ∀ p ∈ payloads, p ∈ modeChanges)
    (h : Made (fun p : {p // p ∈ payloads} => .change p) (.obj []) config) :
    ∃ members ∈ modeConfigs, config = .obj members := by
  induction h with
  | first => exact ⟨[], List.mem_cons_self, rfl⟩
  | @edited config config' i payload _ hreq hedit ih =>
    obtain ⟨members, hmem, rfl⟩ := ih
    have hpayload : payload ∈ modeChanges := by
      cases hreq
      exact hpayloads _ i.2
    have hfail : ∀ p ∈ modeChanges, ((IStream.ofBytes p).int 0).2.fail = false := by decide
    have hmakes := frameEdit_makes (hfail _ hpayload) members
    rw [hedit] at hmakes
    cases hset : frameSetting payload with
    | none =>
      rw [hset] at hmakes
      obtain ⟨_, hmakes⟩ := hmakes
      cases hmakes
    | some s =>
      rw [hset] at hmakes
      cases hmakes
      exact ⟨_, modeConfigs_closed _ hpayload _ hmem s hset, rfl⟩

def modeWorld : World (Reference.knowing (modeConfigs.map .obj)) := ⟨shmFs, Reference.emptyDb _⟩

theorem ChangesInTurn.serve {w w₁ : World P} {log : List (Bytes × Option Bytes)}
    (h : ChangesInTurn w log w₁) (payload : Bytes) {x : Option Bytes}
    (hx : (Server.run (handleChangeFrame payload) (w₁, ⟨[], []⟩)).2.1 = x) :
    ChangesInTurn w (log ++ [(payload, x)])
      (Server.run (handleChangeFrame payload) (w₁, ⟨[], []⟩)).2.2.1 :=
  h.snoc (Server.runs _ _ hx)

theorem modeConfigs_known : ∀ members ∈ modeConfigs, ∀ b, (Json.obj members).dump = some b →
    (Reference.knowing (modeConfigs.map .obj)).parseJson b = some (.obj members) := by
  simp only [modeConfigs, List.forall_mem_cons, List.not_mem_nil, false_imp_iff, implies_true,
    and_true]
  refine ⟨?_, ?_, ?_⟩ <;> rintro _ ⟨⟩ <;> rfl

theorem modeWorld_file : OverlayFile modeWorld.fs 2 := ⟨by decide, by decide⟩

def modeLog : List (Bytes × Option Bytes) :=
  [(ascii "2 sharp 70", some updated),
    (ascii "0 2", some (errorReply 400 "Invalid boolean value")), (ascii "2 day", some updated)]

theorem modes_in_turn : ∃ w', ChangesInTurn modeWorld modeLog w' ∧
    (overlayText w'.fs).bind (Reference.knowing (modeConfigs.map .obj)).parseJson =
      some (.obj [(ascii "mode", .str (ascii "day"))]) := by
  have hstart : ChangesInTurn modeWorld [] modeWorld := .nil
  have hsharp := hstart.serve (ascii "2 sharp 70") (x := some updated) (by decide +kernel)
  have hrefused := hsharp.serve (ascii "0 2") (x := some (errorReply 400 "Invalid boolean value"))
    (by decide +kernel)
  have hrun := hrefused.serve (ascii "2 day") (x := some updated) (by decide +kernel)
  generalize (Server.run (handleChangeFrame (ascii "2 day")) _).2.2.1 = w' at hrun
  have hrun : ChangesInTurn modeWorld modeLog w' := hrun
  have hordered : Json.Ordered [] := .nil
  have hdump : (Json.obj []).dump = some (modeWorld.fs.content 2) := by decide +kernel
  have hfirst := modeConfigs_known [] List.mem_cons_self _ hdump
  obtain ⟨hoverlaid, -⟩ := change_frame_last_writer_wins modeWorld_file hfirst hordered
    (fun config b hmade hb => by
      obtain ⟨members, hmem, rfl⟩ := modeMade_mem (by decide +kernel) hmade
      exact modeConfigs_known members hmem b hb) hrun
  refine ⟨w', hrun, ?_⟩
  have hsettings : settingsOf modeLog = [.mode (.sharp 70), .mode (.plain .day)] := by
    decide +kernel
  rw [hoverlaid.file.text, Option.bind_some, hoverlaid.config, hsettings]
  rfl

end CctvServer
