import CctvServer.CommandHandler

namespace CctvServer

open HistoryRepository

variable {P : Platform}

namespace CommandHandler

theorem newline_notMem_reply {status message : String} (code : ℕ)
    (hs : (10 : UInt8) ∉ ascii status) (hm : (10 : UInt8) ∉ ascii message) :
    (10 : UInt8) ∉ reply status code message := by
  have h₁ : (10 : UInt8) ∉ ascii "\x7b\"status\": \"" := by decide
  have h₂ : (10 : UInt8) ∉ ascii "\", \"code\": " := by decide
  have h₃ : (10 : UInt8) ∉ ascii ", \"message\": \"" := by decide
  have h₄ : (10 : UInt8) ∉ ascii "\"\x7d" := by decide
  simp only [reply, ascii_append, List.mem_append, not_or]
  exact ⟨⟨⟨⟨h₁, hs⟩, h₂⟩, Json.newline_notMem_decimal code⟩, ⟨h₃, hm⟩, h₄⟩

theorem newline_notMem_errorReply (code : ℕ) {message : String} (h : (10 : UInt8) ∉ ascii message) :
    (10 : UInt8) ∉ errorReply code message := newline_notMem_reply code (by decide) h

theorem newline_notMem_successReply {message : String} (h : (10 : UInt8) ∉ ascii message) :
    (10 : UInt8) ∉ successReply message := newline_notMem_reply 200 (by decide) h

def response (message : String) (data : Json) : Json :=
  .obj [(ascii "code", .int 200), (ascii "data", data), (ascii "message", .str (ascii message)),
    (ascii "status", .str (ascii "success"))]

theorem dataReply_eq (message : String) (data : Json) :
    dataReply (P := P) message data =
      match (response message data).dump with
      | some text => .ret text
      | none => .throw := by
  have hobj : Json.object [("status", .str (ascii "success")), ("code", .int 200),
      ("message", .str (ascii message)), ("data", data)] = response message data := by
    simp +decide only [response, Json.object, List.foldl, Json.setKey, if_true, if_false]
  rw [dataReply, hobj]
  rfl

theorem response_utf8 {message : String} (hm : Utf8.valid (ascii message) = true) (data : Json) :
    (response message data).Utf8Valid ↔ data.Utf8Valid := by
  have h₁ : Utf8.valid (ascii "code") = true := by decide
  have h₂ : Utf8.valid (ascii "data") = true := by decide
  have h₃ : Utf8.valid (ascii "message") = true := by decide
  have h₄ : Utf8.valid (ascii "status") = true := by decide
  have h₅ : Utf8.valid (ascii "success") = true := by decide
  simp [response, Json.Utf8Valid, Json.MembersValid, hm, h₁, h₂, h₃, h₄, h₅]

theorem dataReply_cases {message : String} (hm : Utf8.valid (ascii message) = true) (data : Json) :
    (data.Utf8Valid ∧ ∃ text, (response message data).dump = some text ∧ (10 : UInt8) ∉ text ∧
        dataReply (P := P) message data = .ret text) ∨
      (¬ data.Utf8Valid ∧ dataReply (P := P) message data = .throw) := by
  rw [← response_utf8 hm, ← Json.dump_isSome_iff, dataReply_eq]
  cases h : (response message data).dump with
  | none => exact .inr ⟨by simp, rfl⟩
  | some text => exact .inl ⟨rfl, text, rfl, Json.newline_notMem_dump _ h, rfl⟩

theorem renderFull_eq (h : History P) : renderFull h = .obj
    [(ascii "date", .str h.date),
      (ascii "end_snapshot", .str (if h.eventType = 0 then h.endSnapshot else [])),
      (ascii "event_type", .int h.eventType), (ascii "id", .int h.id),
      (ascii "image_path", .str h.imagePath), (ascii "plate_number", .str h.plateNumber),
      (ascii "speed", if h.eventType = 1 then speedJson h.speed else .null),
      (ascii "start_snapshot", .str (if h.eventType = 0 then h.startSnapshot else []))] := by
  simp +decide only [renderFull, Json.object, List.foldl, Json.setKey, if_true, if_false]

theorem renderCompact_zero {h : History P} (h₀ : h.eventType = 0) : renderCompact h = some (.obj
    [(ascii "date", .str h.date), (ascii "end_snapshot", .str h.endSnapshot),
      (ascii "event_type", .int h.eventType), (ascii "id", .int h.id),
      (ascii "image_path", .str h.imagePath), (ascii "plate_number", .str h.plateNumber),
      (ascii "start_snapshot", .str h.startSnapshot)]) := by
  rw [renderCompact, if_pos h₀]
  simp +decide only [Json.object, List.foldl, Json.setKey, if_true, if_false]

theorem renderCompact_one {h : History P} (h₁ : h.eventType = 1) : renderCompact h = some (.obj
    ([(ascii "date", .str h.date), (ascii "event_type", .int h.eventType), (ascii "id", .int h.id),
      (ascii "image_path", .str h.imagePath), (ascii "plate_number", .str h.plateNumber)] ++
      (match h.speed with
        | some v => [(ascii "speed", .float (P.rounded v))]
        | none => []))) := by
  have h₀ : h.eventType ≠ 0 := by omega
  rw [renderCompact, if_neg h₀, if_pos h₁]
  cases h.speed <;>
    simp +decide only [Json.object, List.cons_append, List.nil_append, List.foldl, Json.setKey,
      if_true, if_false]

theorem renderCompact_two {h : History P} (h₂ : h.eventType = 2) : renderCompact h = some (.obj
    [(ascii "date", .str h.date), (ascii "event_type", .int h.eventType), (ascii "id", .int h.id),
      (ascii "image_path", .str h.imagePath)]) := by
  have h₀ : h.eventType ≠ 0 := by omega
  have h₁ : h.eventType ≠ 1 := by omega
  rw [renderCompact, if_neg h₀, if_neg h₁, if_pos h₂]
  simp +decide only [Json.object, List.foldl, Json.setKey, if_true, if_false]

theorem exists_renderCompact {h : History P} (ht : 0 ≤ h.eventType ∧ h.eventType ≤ 2) :
    ∃ e, renderCompact h = some e := by
  rcases show h.eventType = 0 ∨ h.eventType = 1 ∨ h.eventType = 2 by omega with h₀ | h₁ | h₂
  · exact ⟨_, renderCompact_zero h₀⟩
  · exact ⟨_, renderCompact_one h₁⟩
  · exact ⟨_, renderCompact_two h₂⟩

/-- The renderers look at no field that a query has cleared. -/
theorem renderFull_scrub (h : History P) : renderFull h.scrub = renderFull h := by
  unfold History.scrub
  split_ifs with h₁ h₀
  · simp [renderFull_eq, h₁]
  · simp [renderFull_eq, h₀]
  · simp [renderFull_eq, h₀, h₁]

theorem renderCompact_scrub (h : History P) : renderCompact h.scrub = renderCompact h := by
  unfold History.scrub
  split_ifs with h₁ h₀
  · simp [renderCompact, h₁]
  · simp [renderCompact, h₀]
  · simp [renderCompact, h₀, h₁]

def FullReadable (h : History P) : Prop :=
  Utf8.valid h.date = true ∧ Utf8.valid h.imagePath = true ∧ Utf8.valid h.plateNumber = true ∧
    (h.eventType = 0 → Utf8.valid h.startSnapshot = true ∧ Utf8.valid h.endSnapshot = true)

def CompactReadable (h : History P) : Prop :=
  (0 ≤ h.eventType ∧ h.eventType ≤ 2 → Utf8.valid h.date = true ∧ Utf8.valid h.imagePath = true) ∧
    (h.eventType = 0 ∨ h.eventType = 1 → Utf8.valid h.plateNumber = true) ∧
    (h.eventType = 0 → Utf8.valid h.startSnapshot = true ∧ Utf8.valid h.endSnapshot = true)

theorem speedJson_utf8 (speed : Option P.Speed) : (speedJson speed).Utf8Valid := by
  cases speed <;> trivial

theorem renderFull_utf8 (h : History P) : (renderFull h).Utf8Valid ↔ FullReadable h := by
  have hkeys : ∀ k ∈ ["date", "end_snapshot", "event_type", "id", "image_path", "plate_number",
      "speed", "start_snapshot"], Utf8.valid (ascii k) = true := by decide
  simp only [List.mem_cons, List.not_mem_nil, or_false, forall_eq_or_imp, forall_eq] at hkeys
  obtain ⟨k₁, k₂, k₃, k₄, k₅, k₆, k₇, k₈⟩ := hkeys
  have hspeed : (if h.eventType = 1 then speedJson h.speed else .null).Utf8Valid := by
    split
    · exact speedJson_utf8 _
    · trivial
  have hempty : Utf8.valid [] = true := rfl
  simp only [renderFull_eq, FullReadable, Json.Utf8Valid, Json.MembersValid, k₁, k₂, k₃, k₄, k₅,
    k₆, k₇, k₈, hspeed, true_and, and_true]
  by_cases h₀ : h.eventType = 0
  · simp only [h₀, if_true, forall_const]
    tauto
  · simp only [h₀, if_false, hempty, IsEmpty.forall_iff]
    tauto

theorem renderCompact_utf8 (h : History P) :
    (∀ j, renderCompact h = some j → j.Utf8Valid) ↔ CompactReadable h := by
  have hkeys : ∀ k ∈ ["date", "end_snapshot", "event_type", "id", "image_path", "plate_number",
      "speed", "start_snapshot"], Utf8.valid (ascii k) = true := by decide
  simp only [List.mem_cons, List.not_mem_nil, or_false, forall_eq_or_imp, forall_eq] at hkeys
  obtain ⟨k₁, k₂, k₃, k₄, k₅, k₆, k₇, k₈⟩ := hkeys
  by_cases h₀ : h.eventType = 0
  · simp only [renderCompact_zero h₀, Option.some.injEq, forall_eq', Json.Utf8Valid,
      Json.MembersValid, k₁, k₂, k₃, k₄, k₅, k₆, k₈, true_and, and_true]
    simp only [CompactReadable, h₀, true_or, forall_const]
    constructor
    · rintro ⟨a, b, c, d, e⟩
      exact ⟨fun _ => ⟨a, c⟩, d, e, b⟩
    · rintro ⟨ac, d, e, b⟩
      obtain ⟨a, c⟩ := ac ⟨le_rfl, by omega⟩
      exact ⟨a, b, c, d, e⟩
  by_cases h₁ : h.eventType = 1
  · have hmem : ∀ j, renderCompact h = some j → (j.Utf8Valid ↔
        Utf8.valid h.date = true ∧ Utf8.valid h.imagePath = true ∧
          Utf8.valid h.plateNumber = true) := by
      rw [renderCompact_one h₁]
      rintro j hj
      cases hj
      cases h.speed with
      | none => simp [Json.Utf8Valid, Json.MembersValid, k₁, k₃, k₄, k₅, k₆]
      | some v => simp [Json.Utf8Valid, Json.MembersValid, k₁, k₃, k₄, k₅, k₆, k₇]
    have hall : (∀ j, renderCompact h = some j → j.Utf8Valid) ↔
        Utf8.valid h.date = true ∧ Utf8.valid h.imagePath = true ∧
          Utf8.valid h.plateNumber = true := by
      constructor
      · exact fun hj => (hmem _ (renderCompact_one h₁)).mp (hj _ (renderCompact_one h₁))
      · exact fun hv j hj => (hmem j hj).mpr hv
    rw [hall]
    simp [CompactReadable, h₁, and_assoc]
  by_cases h₂ : h.eventType = 2
  · simp only [renderCompact_two h₂, Option.some.injEq, forall_eq', Json.Utf8Valid,
      Json.MembersValid, k₁, k₃, k₄, k₅, true_and, and_true]
    simp [CompactReadable, h₂]
  · have hnone : renderCompact h = none := by simp [renderCompact, h₀, h₁, h₂]
    rw [hnone]
    refine ⟨fun _ => ⟨fun hr => by omega, fun hr => by omega, fun hr => absurd hr h₀⟩, ?_⟩
    rintro - j hj
    cases hj

def entries (f : HistoryFilter) (rows : List (HistoryRow P)) : List Json :=
  match f.eventType with
  | none => rows.map fun r => renderFull r.decode
  | some _ => rows.filterMap fun r => renderCompact r.decode

/-- The row can be shown in a reply. -/
def RowReadable (f : HistoryFilter) (r : HistoryRow P) : Prop :=
  match f with
  | ⟨none, _⟩ => FullReadable r.decode
  | ⟨some _, _⟩ => CompactReadable r.decode

instance (h : History P) : Decidable (FullReadable h) :=
  inferInstanceAs (Decidable (_ ∧ _ ∧ _ ∧ (_ → _ ∧ _)))

instance (h : History P) : Decidable (CompactReadable h) :=
  inferInstanceAs (Decidable ((_ ∧ _ → _ ∧ _) ∧ (_ ∨ _ → _) ∧ (_ → _ ∧ _)))

instance (f : HistoryFilter) (r : HistoryRow P) : Decidable (RowReadable f r) :=
  match f with
  | ⟨none, _⟩ => inferInstanceAs (Decidable (FullReadable _))
  | ⟨some _, _⟩ => inferInstanceAs (Decidable (CompactReadable _))

theorem entries_utf8 (f : HistoryFilter) (rows : List (HistoryRow P)) :
    (Json.arr (entries f rows)).Utf8Valid ↔ ∀ r ∈ rows, RowReadable f r := by
  rw [Json.Utf8Valid, Json.itemsValid_iff, entries]
  obtain ⟨eventType, dates⟩ := f
  cases eventType with
  | none => simp only [List.forall_mem_map, renderFull_utf8, RowReadable]
  | some t =>
    simp only [List.mem_filterMap, forall_exists_index, and_imp, RowReadable]
    constructor
    · exact fun h r hr => (renderCompact_utf8 _).mp fun j hj => h j r hr hj
    · exact fun h j r hr hj => (renderCompact_utf8 _).mpr (h r hr) j hj

structure HistoryQuery where
  valid : Bool
  email : Bytes
  filter : HistoryFilter
  limit : ℤ
  offset : ℤ

/-- What all four queries do with their parameters. -/
def HistoryQuery.answer (q : HistoryQuery) : Server P Bytes :=
  answerQuery q.valid q.email (sys (.selectHistory q.filter q.limit q.offset) >>= fun rows =>
    .ret (rows.map HistoryRow.decode)) fun h =>
      match q.filter.eventType with
      | none => some (renderFull h)
      | some _ => renderCompact h

def getHistory (payload : Bytes) : HistoryQuery :=
  let (email, iss) := (IStream.ofBytes payload).word
  let (limit, iss) := iss.int 10
  let (offset, _) := iss.int 0
  ⟨!(email.isEmpty || limit ≤ 0 || offset < 0), email, ⟨none, none⟩, limit, offset⟩

def getHistoryByEventType (payload : Bytes) : HistoryQuery :=
  let (email, iss) := (IStream.ofBytes payload).word
  let (eventType, iss) := iss.int 0
  let (limit, iss) := iss.int 10
  let (offset, _) := iss.int 0
  ⟨!(email.isEmpty || eventType < 0 || limit ≤ 0 || offset < 0), email, ⟨some eventType, none⟩,
    limit, offset⟩

def getHistoryByDateRange (payload : Bytes) : HistoryQuery :=
  let (email, iss) := (IStream.ofBytes payload).word
  let (startDate, iss) := iss.word
  let (endDate, iss) := iss.word
  let (limit, iss) := iss.int 10
  let (offset, _) := iss.int 0
  ⟨!(email.isEmpty || startDate.isEmpty || endDate.isEmpty || limit ≤ 0 || offset < 0), email,
    ⟨none, some (cstr (dayStart startDate), cstr (dayEnd endDate))⟩, limit, offset⟩

def getHistoryByEventTypeAndDateRange (payload : Bytes) : HistoryQuery :=
  let (email, iss) := (IStream.ofBytes payload).word
  let (eventType, iss) := iss.int 0
  let (startDate, iss) := iss.word
  let (endDate, iss) := iss.word
  let (limit, iss) := iss.int 10
  let (offset, _) := iss.int 0
  ⟨!(email.isEmpty || startDate.isEmpty || endDate.isEmpty || eventType < 0 || limit ≤ 0 ||
      offset < 0), email,
    ⟨some eventType, some (cstr (dayStart startDate), cstr (dayEnd endDate))⟩, limit, offset⟩

/-- Where the fields are cleared, in a query or only when rendering, makes no difference. -/
theorem answerQuery_select {q : HistoryQuery} {tidy : History P → History P}
    {render : History P → Option Json}
    (h : ∀ r, render (tidy r) = match q.filter.eventType with
      | none => some (renderFull r)
      | some _ => renderCompact r) :
    answerQuery q.valid q.email (select tidy q.filter q.limit q.offset) render = q.answer := by
  have hdata : ∀ rows : List (HistoryRow P),
      (rows.map fun r => tidy r.decode).filterMap render =
        (rows.map HistoryRow.decode).filterMap fun r => match q.filter.eventType with
          | none => some (renderFull r)
          | some _ => renderCompact r := by
    intro rows
    simp only [List.filterMap_map, Function.comp_def, h]
  unfold HistoryQuery.answer answerQuery
  refine if_congr Iff.rfl rfl (congrArg _ (funext fun user => ?_))
  cases user with
  | none => rfl
  | some user => exact congrArg (Prog.call _) (funext fun rows =>
      congrArg (fun data => dataReply _ (.arr data)) (hdata rows))

theorem handleGetHistory_eq (payload : Bytes) :
    handleGetHistory (P := P) payload = (getHistory payload).answer :=
  answerQuery_select (q := getHistory payload) fun _ => rfl

theorem handleGetHistoryByEventType_eq (payload : Bytes) :
    handleGetHistoryByEventType (P := P) payload = (getHistoryByEventType payload).answer :=
  answerQuery_select (q := getHistoryByEventType payload) renderCompact_scrub

theorem handleGetHistoryByDateRange_eq (payload : Bytes) :
    handleGetHistoryByDateRange (P := P) payload = (getHistoryByDateRange payload).answer :=
  answerQuery_select (q := getHistoryByDateRange payload) fun r =>
    congrArg some (renderFull_scrub r)

theorem handleGetHistoryByEventTypeAndDateRange_eq (payload : Bytes) :
    handleGetHistoryByEventTypeAndDateRange (P := P) payload =
      (getHistoryByEventTypeAndDateRange payload).answer :=
  answerQuery_select (q := getHistoryByEventTypeAndDateRange payload) renderCompact_scrub

theorem HistoryQuery.answer_eq (q : HistoryQuery) :
    q.answer (P := P) = if !q.valid then .ret (errorReply 400 "Invalid input format")
      else .call (.selectUserByEmail (cstr q.email)) fun user =>
        match user with
        | none => .ret (errorReply 404 "User not found")
        | some _ => .call (.selectHistory q.filter q.limit q.offset) fun rows =>
            dataReply "History retrieved successfully" (.arr (entries q.filter rows)) := by
  have hdata : ∀ rows : List (HistoryRow P),
      ((rows.map HistoryRow.decode).filterMap fun h => match q.filter.eventType with
        | none => some (renderFull h)
        | some _ => renderCompact h) = entries q.filter rows := by
    intro rows
    rw [entries, List.filterMap_map]
    cases q.filter.eventType with
    | none => exact List.filterMap_eq_map.symm ▸ rfl
    | some t => rfl
  unfold HistoryQuery.answer answerQuery
  refine if_congr Iff.rfl rfl (congrArg (Prog.call _) (funext fun user => ?_))
  cases user with
  | none => rfl
  | some user => exact congrArg (Prog.call _) (funext fun rows =>
      congrArg (fun data => dataReply _ (.arr data)) (hdata rows))

/-- What CHANGE_FRAME makes of the configuration it has read. -/
def frameEdit (payload : Bytes) (config : Json) : FrameEdit :=
  changeFrame ((IStream.ofBytes payload).int 0).1 ((IStream.ofBytes payload).int 0).2 config

def FrameEdit.throws : FrameEdit → Bool
  | .throw => true
  | _ => false

def FrameEdit.answer : FrameEdit → Server P Bytes
  | .reject message => .ret (errorReply 400 message)
  | .throw => .throw
  | .accept config => saveConfig config

theorem withConfig_eq (path : Bytes) (name : String) (use : Json → Server P Bytes) :
    withConfig path name use = .call (.openRead path) fun e =>
      e.elim (.ret (errorReply 500 ("Failed to open " ++ name))) fun e =>
        .call (.readAll e) fun text => (text.bind P.parseJson).elim
          (.ret (errorReply 500 ("Failed to parse " ++ name))) use := by
  refine congrArg (Prog.call _) (funext fun e => ?_)
  cases e with
  | none => rfl
  | some e =>
    refine congrArg (Prog.call _) (funext fun text => ?_)
    simp only [Prog.bind]
    cases Option.bind text P.parseJson with
    | none => rfl
    | some config => rfl

theorem saveConfig_eq (config : Json) :
    saveConfig (P := P) config = .call (.openWrite overlayConfig) fun ino =>
      ino.elim (.ret (errorReply 500 "Failed to write overlay_config")) fun ino =>
        config.dump.elim .throw fun text => .call (.write ino 0 text) fun _ =>
          .call (.closeWrite ino) fun _ => .ret (successReply "Overlay config updated") := by
  refine congrArg (Prog.call _) (funext fun ino => ?_)
  cases ino with
  | none => rfl
  | some ino =>
    cases config.dump with
    | none => rfl
    | some text => rfl

theorem handleChangeFrame_eq (payload : Bytes) :
    handleChangeFrame (P := P) payload =
      if ((IStream.ofBytes payload).int 0).2.fail then .ret (errorReply 400 "Invalid input format")
      else withConfig overlayConfig "overlay_config" fun config =>
        (frameEdit payload config).answer := by
  unfold handleChangeFrame frameEdit
  generalize (IStream.ofBytes payload).int 0 = read
  obtain ⟨menuType, iss⟩ := read
  refine if_congr Iff.rfl rfl (congrArg (withConfig _ _) (funext fun config => ?_))
  dsimp only
  generalize changeFrame menuType iss config = edit
  cases edit with
  | reject message => rfl
  | throw => rfl
  | accept config => rfl

theorem assign_utf8 {config config' v : Json} {key : String}
    (hk : Utf8.valid (ascii key) = true) (hv : v.Utf8Valid) (hc : config.Utf8Valid)
    (h : assign config key v = some config') : config'.Utf8Valid := by
  unfold assign at h
  split at h
  · cases h
    exact Json.utf8Valid_setKey hk hv hc
  · cases h
    exact Json.utf8Valid_setKey hk hv trivial
  · cases h

theorem erase_utf8 {config : Json} {key : String} (hc : config.Utf8Valid) :
    (erase config key).Utf8Valid := by
  unfold erase
  split
  · exact Json.utf8Valid_eraseKey hc
  · exact hc

/-- Messages are lines, and an accepted configuration can be printed. -/
def FrameEdit.Sound : FrameEdit → Prop
  | .reject message => (10 : UInt8) ∉ ascii message
  | .throw => True
  | .accept config => config.Utf8Valid

theorem changeFlag_sound {key : String} (hk : Utf8.valid (ascii key) = true) (iss : IStream)
    {config : Json} (hc : config.Utf8Valid) : (changeFlag key iss config).Sound := by
  unfold changeFlag
  dsimp only
  split
  · exact show (10 : UInt8) ∉ ascii "Invalid boolean value" by decide
  · cases h : assign config key (.bool ((iss.int 0).1 ≠ 0)) with
    | none => trivial
    | some config' => exact assign_utf8 hk (by trivial) hc h

theorem changeMode_sound (iss : IStream) {config : Json} (hc : config.Utf8Valid) :
    (changeMode iss config).Sound := by
  unfold changeMode
  dsimp only
  split
  · exact show (10 : UInt8) ∉ ascii "Invalid mode value" by decide
  · rename_i hmode
    have hvalid : Utf8.valid iss.word.1 = true := by
      have hmem : iss.word.1 ∈ [ascii "original", ascii "sharp", ascii "day", ascii "night"] := by
        simp only [List.mem_cons, List.not_mem_nil, or_false]
        tauto
      revert hmem
      generalize iss.word.1 = mode
      revert mode
      decide
    cases h : assign config "mode" (.str iss.word.1) with
    | none => trivial
    | some config' =>
      have hc' := assign_utf8 (v := .str iss.word.1) (by decide) hvalid hc h
      dsimp only
      split_ifs with hsharp hrange
      · exact show (10 : UInt8) ∉ ascii "Invalid sharpness level (0~100)" by decide
      · cases h' : assign config' "sharpness_level" (.int (iss.word.2.int 0).1) with
        | none => trivial
        | some config'' => exact assign_utf8 (by decide) (by trivial) hc' h'
      · exact erase_utf8 hc'

theorem changeFrame_sound (menuType : ℤ) (iss : IStream) {config : Json} (hc : config.Utf8Valid) :
    (changeFrame menuType iss config).Sound := by
  unfold changeFrame
  split_ifs
  · exact changeFlag_sound (by decide) iss hc
  · exact changeFlag_sound (by decide) iss hc
  · exact changeMode_sound iss hc
  · exact show (10 : UInt8) ∉ ascii "Unknown menu_type" by decide

def FrameEdit.OfObject : FrameEdit → Prop
  | .reject _ => True
  | .throw => False
  | .accept config => ∃ members, config = .obj members

theorem changeFlag_object (key : String) (iss : IStream) (members : List (Bytes × Json)) :
    (changeFlag key iss (.obj members)).OfObject := by
  unfold changeFlag
  dsimp only [assign]
  split
  · trivial
  · exact ⟨_, rfl⟩

theorem changeMode_object (iss : IStream) (members : List (Bytes × Json)) :
    (changeMode iss (.obj members)).OfObject := by
  unfold changeMode
  dsimp only [assign, erase]
  split_ifs
  · trivial
  · trivial
  · exact ⟨_, rfl⟩
  · exact ⟨_, rfl⟩

theorem changeFrame_object (menuType : ℤ) (iss : IStream) (members : List (Bytes × Json)) :
    (changeFrame menuType iss (.obj members)).OfObject := by
  unfold changeFrame
  split_ifs
  · exact changeFlag_object _ _ _
  · exact changeFlag_object _ _ _
  · exact changeMode_object _ _
  · trivial

end CommandHandler

end CctvServer
