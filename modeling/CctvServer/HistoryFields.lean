import CctvServer.Extraction
import CctvServer.Sessions

namespace CctvServer

open CommandHandler IStream

variable {P : Platform}

/-- The fields that ADD_HISTORY takes from the tokens of a payload. -/
def historyFields (P : Platform) (garbage : ℤ) (ws : List Bytes) : History P :=
  let (eventType, rest) := intTokens garbage (ws.drop 3)
  let speed := floatTokens P.strtof P.minusOne (rest.drop 2)
  ⟨replaceUnderscores (ws.getD 0 []), ws.getD 1 [], ws.getD 2 [], eventType, rest.getD 0 [],
    rest.getD 1 [], if eventType = 1 ∧ P.nonneg speed = true then some speed else none, -1⟩

theorem parseHistory_tokens (payload : Bytes) (garbage : ℤ) :
    parseHistory (P := P) payload garbage =
      ((words payload).getD 0 [], historyFields P garbage (words payload)) := by
  obtain ⟨h₁, t₁⟩ := word_eq (ofBytes payload)
  obtain ⟨h₂, t₂⟩ := word_eq (ofBytes payload).word.2
  obtain ⟨h₃, t₃⟩ := word_eq (ofBytes payload).word.2.word.2
  rw [tokens_ofBytes] at h₁ t₁
  rw [t₁] at h₂ t₂
  rw [t₂] at h₃ t₃
  have hdrop : (ofBytes payload).word.2.word.2.word.2.tokens = (words payload).drop 3 := by
    rw [t₃]
    simp [← List.drop_one]
  obtain ⟨h₄, t₄⟩ := int_tokens garbage (ofBytes payload).word.2.word.2.word.2
  rw [hdrop] at h₄ t₄
  generalize hs : (ofBytes payload).word.2.word.2.word.2.int garbage = s at h₄ t₄
  obtain ⟨h₅, t₅⟩ := word_eq s.2
  obtain ⟨h₆, t₆⟩ := word_eq s.2.word.2
  have h₇ := float_tokens P.strtof P.minusOne s.2.word.2.word.2
  have hrest : s.2.word.2.word.2.tokens =
      (intTokens garbage ((words payload).drop 3)).2.drop 2 := by
    rw [t₆, t₅, t₄]
    simp [← List.drop_one]
  rw [t₅] at h₆
  rw [hrest] at h₇
  rw [headD_eq_getD, t₄] at h₅
  rw [headD_tail_eq_getD, t₄] at h₆
  rw [headD_tail_eq_getD] at h₂
  have h₃' : (words payload).tail.tail.headD [] = (words payload).getD 2 [] := by
    rw [headD_tail_eq_getD]
    cases words payload <;> rfl
  rw [h₃'] at h₃
  rw [headD_eq_getD] at h₁
  have hparse : parseHistory (P := P) payload garbage =
      ((ofBytes payload).word.1, ⟨replaceUnderscores (ofBytes payload).word.1,
        (ofBytes payload).word.2.word.1, (ofBytes payload).word.2.word.2.word.1, s.1,
        s.2.word.1, s.2.word.2.word.1,
        if s.1 = 1 ∧ P.nonneg (s.2.word.2.word.2.float P.strtof P.minusOne).1 = true then
          some (s.2.word.2.word.2.float P.strtof P.minusOne).1 else none, -1⟩) := by
    rw [← hs]
    rfl
  rw [hparse, h₁, h₂, h₃, h₄, h₅, h₆, h₇]
  rfl

namespace CommandHandler.QueryCommand

/-- The query with these parameters; one without event type is given 0, and one without
dates looks at none. -/
def build (c : QueryCommand) (email : Bytes) (eventType : ℤ) (startDate endDate : Bytes)
    (limit offset : ℤ) : HistoryQuery where
  valid := !(email.isEmpty || (c.dated && (startDate.isEmpty || endDate.isEmpty)) ||
    eventType < 0 || limit ≤ 0 || offset < 0)
  email := email
  filter := ⟨if c.typed then some eventType else none,
    if c.dated then some (cstr (dayStart startDate), cstr (dayEnd endDate)) else none⟩
  limit := limit
  offset := offset

def readType (c : QueryCommand) (ts : List Bytes) : ℤ × List Bytes :=
  if c.typed then intTokens 0 ts else (0, ts)

def behindDates (c : QueryCommand) (ts : List Bytes) : List Bytes :=
  if c.dated then ts.drop 2 else ts

/-- What a query reads of the tokens of its payload. -/
def reads (c : QueryCommand) (ws : List Bytes) : HistoryQuery :=
  let (eventType, ts) := c.readType ws.tail
  let (limit, rest) := intTokens 10 (c.behindDates ts)
  c.build (ws.getD 0 []) eventType (ts.getD 0 []) (ts.getD 1 []) limit (intTokens 0 rest).1

theorem limits_tokens (s : IStream) : (s.int 10).1 = (intTokens 10 s.tokens).1 ∧
    ((s.int 10).2.int 0).1 = (intTokens 0 (intTokens 10 s.tokens).2).1 := by
  obtain ⟨h₁, t₁⟩ := int_tokens 10 s
  obtain ⟨h₂, -⟩ := int_tokens 0 (s.int 10).2
  exact ⟨h₁, t₁ ▸ h₂⟩

theorem dates_tokens (s : IStream) : s.word.1 = s.tokens.getD 0 [] ∧
    s.word.2.word.1 = s.tokens.getD 1 [] ∧ s.word.2.word.2.tokens = s.tokens.drop 2 := by
  obtain ⟨h₁, t₁⟩ := word_eq s
  obtain ⟨h₂, t₂⟩ := word_eq s.word.2
  refine ⟨h₁.trans (headD_eq_getD _), ?_, ?_⟩
  · rw [h₂, t₁, headD_tail_eq_getD]
  · rw [t₂, t₁, ← List.drop_one, ← List.drop_one, List.drop_drop]

theorem query_tokens (c : QueryCommand) (payload : Bytes) :
    c.query payload = c.reads (words payload) := by
  obtain ⟨hemail, hrest⟩ := word_eq (ofBytes payload)
  rw [tokens_ofBytes, headD_eq_getD] at hemail
  rw [tokens_ofBytes] at hrest
  cases c with
  | all =>
    obtain ⟨hlimit, hoffset⟩ := limits_tokens (ofBytes payload).word.2
    rw [hrest] at hlimit hoffset
    simp [query, getHistory, reads, build, readType, behindDates, typed, dated, hemail, hlimit,
      hoffset]
  | byType =>
    obtain ⟨htype, hbehind⟩ := int_tokens 0 (ofBytes payload).word.2
    rw [hrest] at htype hbehind
    obtain ⟨hlimit, hoffset⟩ := limits_tokens ((ofBytes payload).word.2.int 0).2
    rw [hbehind] at hlimit hoffset
    simp [query, getHistoryByEventType, reads, build, readType, behindDates, typed, dated, hemail,
      htype, hlimit, hoffset]
  | byDates =>
    obtain ⟨hstart, hend, hbehind⟩ := dates_tokens (ofBytes payload).word.2
    rw [hrest] at hstart hend hbehind
    obtain ⟨hlimit, hoffset⟩ := limits_tokens (ofBytes payload).word.2.word.2.word.2
    rw [hbehind] at hlimit hoffset
    simp only [query, getHistoryByDateRange, reads, build, readType, behindDates, typed, dated,
      hemail, hstart, hend, hlimit, hoffset]
    simp [Bool.or_assoc]
  | byTypeAndDates =>
    obtain ⟨htype, hbehind⟩ := int_tokens 0 (ofBytes payload).word.2
    rw [hrest] at htype hbehind
    obtain ⟨hstart, hend, hbehind'⟩ := dates_tokens ((ofBytes payload).word.2.int 0).2
    rw [hbehind] at hstart hend hbehind'
    obtain ⟨hlimit, hoffset⟩ := limits_tokens ((ofBytes payload).word.2.int 0).2.word.2.word.2
    rw [hbehind'] at hlimit hoffset
    simp only [query, getHistoryByEventTypeAndDateRange, reads, build, readType, behindDates, typed,
      dated, hemail, htype, hstart, hend, hlimit, hoffset]
    simp [Bool.or_assoc]

end CommandHandler.QueryCommand

theorem lt_nextId {rows : List (HistoryRow P)} {r : HistoryRow P} (h : r ∈ rows) :
    r.id < Database.nextId rows := by
  have hle : ∀ ids : List ℕ, ∀ i ∈ ids, i ≤ ids.foldr max 0 := by
    intro ids
    induction ids with
    | nil => simp
    | cons j ids ih =>
      intro i hi
      rw [List.foldr_cons]
      rcases List.mem_cons.mp hi with rfl | hi
      · exact le_max_left _ _
      · exact (ih i hi).trans (le_max_right _ _)
  exact Nat.lt_succ_of_le (hle _ _ (List.mem_map_of_mem h))

theorem Served.later_ids {allowed : Call P → Outcome → Prop} {s s' : World P × Socket}
    {served : List (Bytes × Bytes)} (h : Served (World.Serves allowed) s served s') :
    ∀ r ∈ s'.1.db.history, r ∈ s.1.db.history ∨ ∀ r' ∈ s.1.db.history, r'.id < r.id := by
  induction h with
  | nil => exact fun r hr => .inl hr
  | @cons s s₁ s' tr line reply rest run later ih =>
    have hstep : (∀ r ∈ s.1.db.history, r ∈ s₁.1.db.history) ∧
        ∀ r ∈ s₁.1.db.history, r ∈ s.1.db.history ∨ ∀ r' ∈ s.1.db.history, r'.id < r.id := by
      by_cases hl : (splitCommand line).1 = ascii "ADD_HISTORY"
      · rw [handle_of_addHistory hl] at run
        obtain ⟨-, ⟨-, r, -, hid, hr₁⟩ | ⟨-, hr₁⟩⟩ := runs_addHistory run
        · rw [hr₁]
          refine ⟨fun r hr => List.mem_append_left _ hr, fun r' hr' => ?_⟩
          rcases List.mem_append.mp hr' with hr' | hr'
          · exact .inl hr'
          · obtain rfl := List.mem_singleton.mp hr'
            exact .inr fun r'' hr'' => hid ▸ lt_nextId hr''
        · rw [hr₁]
          exact ⟨fun _ => id, fun _ => .inl⟩
      · rw [runs_keepsHistory hl run]
        exact ⟨fun _ => id, fun _ => .inl⟩
    intro r hr
    rcases ih r hr with hr | hr
    · exact hstep.2 r hr
    · exact .inr fun r' hr' => hr r' (hstep.1 r' hr')

/-- The table keeps the row of an answered request, the only one with its id. -/
theorem Served.added_row {allowed allowed' : Call P → Outcome → Prop} {s s₁ s₂ : World P × Socket}
    {served : List (Bytes × Bytes)} {line : Bytes} {tr : List (Event (Res (P := P)))}
    (hl : (splitCommand line).1 = ascii "ADD_HISTORY")
    (hadd : Prog.Runs (World.Serves allowed) (handle line) s tr (some created) s₁)
    (hlater : Served (World.Serves allowed') s₁ served s₂) :
    ∃ r, Stores (splitCommand line).2 r ∧ r.id = Database.nextId s.1.db.history ∧
      r ∈ s₂.1.db.history ∧ ∀ r' ∈ s₂.1.db.history, r'.id = r.id → r' = r := by
  rw [handle_of_addHistory hl] at hadd
  obtain ⟨-, ⟨-, r, hr, hid, hr₁⟩ | ⟨hne, -⟩⟩ := runs_addHistory hadd
  · have hmem : r ∈ s₁.1.db.history := by rw [hr₁]; simp
    obtain ⟨new, -, hhist, -⟩ := hlater.history
    refine ⟨r, hr, hid, by rw [hhist]; exact List.mem_append_left _ hmem, fun r' hr' hid' => ?_⟩
    rcases hlater.later_ids r' hr' with hr' | hr'
    · rw [hr₁] at hr'
      rcases List.mem_append.mp hr' with hr' | hr'
      · have := lt_nextId hr'
        omega
      · exact List.mem_singleton.mp hr'
    · have := hr' r hmem
      omega
  · exact absurd rfl hne

end CctvServer
