import CctvServer.HistoryFields
import CctvServer.HistoryReadable
import CctvServer.Timestamps
import Mathlib.Data.List.Enum

namespace CctvServer

open CommandHandler IStream

variable {P : Platform}

/-- What an ADD_HISTORY request says. The optional tokens are the two snapshots and
the speed. -/
structure Record where
  time : Stamp
  imagePath : Bytes
  plateNumber : Bytes
  eventType : Bytes
  optional : List Bytes
  type_numeral : IsNumeral eventType
  type_le : digitsValue eventType ≤ 2
  speed_decimal : ∀ t ∈ optional[2]?, IsDecimal t
  nul_free : ∀ t ∈ imagePath :: plateNumber :: optional, (0 : UInt8) ∉ t
  utf8 : ∀ t ∈ imagePath :: plateNumber :: optional, Utf8.valid t = true

namespace Record

def tokens (r : Record) : List Bytes :=
  r.time.text 95 :: r.imagePath :: r.plateNumber :: r.eventType :: r.optional

def type (r : Record) : ℤ := digitsValue r.eventType

def startSnapshot (r : Record) : Bytes := r.optional.headD []

def endSnapshot (r : Record) : Bytes := r.optional.tail.headD []

def speed (P : Platform) (r : Record) : Option P.Speed :=
  if r.type = 1 then r.optional[2]?.map fun t => (P.strtof (trimZeros t)).1 else none

def fullEntry (P : Platform) (r : Record) (id : ℤ) : Json := .obj
  [(ascii "date", .str (r.time.text 32)),
    (ascii "end_snapshot", .str (if r.type = 0 then r.endSnapshot else [])),
    (ascii "event_type", .int r.type), (ascii "id", .int id),
    (ascii "image_path", .str r.imagePath), (ascii "plate_number", .str r.plateNumber),
    (ascii "speed", match r.speed P with
      | some v => .float (P.rounded v)
      | none => .null),
    (ascii "start_snapshot", .str (if r.type = 0 then r.startSnapshot else []))]

def compactEntry (P : Platform) (r : Record) (id : ℤ) : Json := .obj <|
  [(ascii "date", .str (r.time.text 32))] ++
  (if r.type = 0 then [(ascii "end_snapshot", .str r.endSnapshot)] else []) ++
  [(ascii "event_type", .int r.type), (ascii "id", .int id),
    (ascii "image_path", .str r.imagePath)] ++
  (if r.type = 2 then [] else [(ascii "plate_number", .str r.plateNumber)]) ++
  (match r.speed P with
    | some v => [(ascii "speed", .float (P.rounded v))]
    | none => []) ++
  (if r.type = 0 then [(ascii "start_snapshot", .str r.startSnapshot)] else [])

end Record

/-- What a well-formed history query says. The optional tokens are limit and offset. -/
structure Query where
  command : QueryCommand
  email : Bytes
  eventType : Bytes
  first : Day
  last : Day
  paging : List Bytes
  type_numeral : IsNumeral eventType
  type_le : (digitsValue eventType : ℤ) ≤ intMax
  paging_numeral : ∀ t ∈ paging, IsNumeral t
  paging_le : ∀ t ∈ paging, (digitsValue t : ℤ) ≤ intMax
  limit_pos : ∀ t ∈ paging.head?, 0 < digitsValue t

namespace Query

def tokens (q : Query) : List Bytes :=
  q.email :: ((if q.command.typed then [q.eventType] else []) ++
    (if q.command.dated then [q.first.text, q.last.text] else []) ++ q.paging)

def limit (q : Query) : ℕ := match q.paging with
  | [] => 10
  | t :: _ => digitsValue t

def offset (q : Query) : ℕ := match q.paging with
  | _ :: t :: _ => digitsValue t
  | _ => 0

/-- The record has the requested type, and its day lies in the requested range. -/
def Selects (q : Query) (r : Record) : Prop :=
  (q.command.typed = true → r.type = digitsValue q.eventType) ∧
    (q.command.dated = true → q.first.key ≤ r.time.date.key ∧ r.time.date.key ≤ q.last.key)

instance (q : Query) : DecidablePred q.Selects :=
  fun _ => inferInstanceAs (Decidable ((_ → _) ∧ (_ → _ ∧ _)))

def entry (P : Platform) (q : Query) (r : Record) (id : ℤ) : Json :=
  if q.command.typed then r.compactEntry P id else r.fullEntry P id

def filter (q : Query) : HistoryFilter where
  eventType := if q.command.typed then some (digitsValue q.eventType) else none
  dates := if q.command.dated then
    some ((Stamp.midnight q.first).text 32, (Stamp.lastSecond q.last).text 32) else none

end Query

theorem replaceUnderscores_text (t : Stamp) : replaceUnderscores (t.text 95) = t.text 32 := by
  have hpad : ∀ n < 100, replaceUnderscores (pad2 n) = pad2 n := by decide
  have h₁ := t.date.year_lt
  have h₂ := t.hour_lt
  have h₃ := t.minute_lt
  have h₄ := t.second_lt
  have hy := hpad (t.date.year / 100) (by omega)
  have hy' := hpad (t.date.year % 100) (by omega)
  have hm := hpad t.date.month t.date.month_lt
  have hd := hpad t.date.day t.date.day_lt
  have hh := hpad t.hour (by omega)
  have hmi := hpad t.minute (by omega)
  have hs := hpad t.second (by omega)
  simp only [replaceUnderscores] at *
  simp [Stamp.text, Day.text, pad4, hy, hy', hm, hd, hh, hmi, hs]

theorem Record.speed_read (r : Record) :
    (if r.type = 1 ∧ P.nonneg (floatTokens P.strtof P.minusOne (r.optional.drop 2)) = true then
      some (floatTokens P.strtof P.minusOne (r.optional.drop 2)) else none) = r.speed P := by
  rw [Record.speed]
  by_cases htype : r.type = 1
  · rw [if_pos htype]
    cases hopt : r.optional[2]? with
    | none =>
      -- without a token the speed stays -1, which is not stored
      have hnil : r.optional.drop 2 = [] := by
        rw [List.drop_eq_nil_iff]
        exact List.getElem?_eq_none_iff.mp hopt
      rw [hnil, floatTokens]
      simp [P.minusOne_neg]
    | some t =>
      have ht := r.speed_decimal t hopt
      have hcons : r.optional.drop 2 = t :: r.optional.drop 3 := by
        obtain ⟨hlt, rfl⟩ := List.getElem?_eq_some_iff.mp hopt
        exact List.drop_eq_getElem_cons hlt
      rw [hcons, floatTokens_decimal ht]
      simp [htype, P.strtof_nonneg _ ht.trimZeros_chars]
  · rw [if_neg htype, if_neg fun h => htype h.1]

/-- ADD_HISTORY reads a record token by token; the unwritten event type never shows. -/
theorem Record.parseHistory_eq (r : Record) {payload : Bytes} (h : words payload = r.tokens)
    (garbage : ℤ) : parseHistory (P := P) payload garbage = (r.time.text 95,
      ⟨r.time.text 32, r.imagePath, r.plateNumber, r.type, r.startSnapshot, r.endSnapshot,
        r.speed P, -1⟩) := by
  have hle : (digitsValue r.eventType : ℤ) ≤ intMax := by
    have := r.type_le
    unfold intMax
    omega
  have htype : intTokens garbage (r.tokens.drop 3) = (r.type, r.optional) :=
    intTokens_numeral r.type_numeral hle
  have hdate : r.tokens.getD 0 [] = r.time.text 95 := rfl
  have himage : r.tokens.getD 1 [] = r.imagePath := rfl
  have hplate : r.tokens.getD 2 [] = r.plateNumber := rfl
  rw [parseHistory_tokens, h, historyFields, htype, hdate, himage, hplate,
    replaceUnderscores_text]
  simp only [r.speed_read, ← headD_eq_getD, ← headD_tail_eq_getD]
  rfl

theorem Query.paging_read (q : Query) : (intTokens 10 q.paging).1 = q.limit ∧
    (intTokens 0 (intTokens 10 q.paging).2).1 = q.offset := by
  have hnum := q.paging_numeral
  have hle := q.paging_le
  unfold Query.limit Query.offset
  cases hp : q.paging with
  | nil => exact ⟨rfl, rfl⟩
  | cons t ts =>
    rw [hp] at hnum hle
    rw [intTokens_numeral (hnum t List.mem_cons_self) (hle t List.mem_cons_self)]
    refine ⟨rfl, ?_⟩
    cases ts with
    | nil => rfl
    | cons u us =>
      have hu : u ∈ t :: u :: us := List.mem_cons_of_mem _ List.mem_cons_self
      rw [intTokens_numeral (hnum u hu) (hle u hu)]

theorem Query.limit_pos' (q : Query) : 0 < q.limit := by
  have h := q.limit_pos
  unfold Query.limit
  cases hp : q.paging with
  | nil => exact Nat.zero_lt_succ 9
  | cons t ts => exact h t (by rw [hp]; rfl)

theorem Stamp.cstr_text (t : Stamp) : cstr (t.text 32) = t.text 32 := by
  refine cstr_eq_self fun h => ?_
  have := Stamp.mem_text h
  revert this
  decide

theorem dayStart_text (d : Day) : cstr (dayStart d.text) = (Stamp.midnight d).text 32 := by
  have hsuffix : ascii " 00:00:00" = 32 :: (pad2 0 ++ 58 :: (pad2 0 ++ 58 :: pad2 0)) := by decide
  rw [← Stamp.cstr_text, dayStart, hsuffix]
  rfl

theorem dayEnd_text (d : Day) : cstr (dayEnd d.text) = (Stamp.lastSecond d).text 32 := by
  have hsuffix : ascii " 23:59:59" = 32 :: (pad2 23 ++ 58 :: (pad2 59 ++ 58 :: pad2 59)) := by
    decide
  rw [← Stamp.cstr_text, dayEnd, hsuffix]
  rfl

theorem Query.query_eq (q : Query) {payload : Bytes} (h : words payload = q.tokens) :
    q.command.query payload = ⟨true, q.email, q.filter, q.limit, q.offset⟩ := by
  have hemail : q.email ≠ [] := words_ne_nil (b := payload) (by rw [h]; exact List.mem_cons_self)
  have hpos : q.limit ≠ 0 := q.limit_pos'.ne'
  have hfirst : q.first.text ≠ [] := fun hnil => by simpa [hnil] using q.first.text_length
  have hlast : q.last.text ≠ [] := fun hnil => by simpa [hnil] using q.last.text_length
  have htype : q.command.readType q.tokens.tail =
      (if q.command.typed then (digitsValue q.eventType : ℤ) else 0,
        (if q.command.dated then [q.first.text, q.last.text] else []) ++ q.paging) := by
    rw [QueryCommand.readType, Query.tokens]
    cases q.command.typed with
    | true =>
      simp only [if_true, List.cons_append, List.tail_cons]
      exact intTokens_numeral q.type_numeral q.type_le
    | false => rfl
  have hbehind : q.command.behindDates
      ((if q.command.dated then [q.first.text, q.last.text] else []) ++ q.paging) = q.paging := by
    rw [QueryCommand.behindDates]
    cases q.command.dated <;> rfl
  obtain ⟨hlimit, hoffset⟩ := q.paging_read
  have hhead : q.tokens.getD 0 [] = q.email := rfl
  rw [QueryCommand.query_tokens, h]
  simp only [QueryCommand.reads, htype, hbehind, hlimit, hoffset, hhead, QueryCommand.build,
    Query.filter]
  cases q.command.typed <;> cases q.command.dated <;>
    simp [hemail, hpos, hfirst, hlast, dayStart_text, dayEnd_text]

namespace Record

def row (P : Platform) (r : Record) (id : ℕ) : HistoryRow P :=
  ⟨id, .text (r.time.text 32), r.imagePath, r.plateNumber, r.type, r.startSnapshot, r.endSnapshot,
    r.speed P⟩

theorem row_date (r : Record) (id : ℕ) : (r.row P id).date = .text (r.time.text 32) := rfl

theorem affinity_text (t : Stamp) : P.affinity (t.text 32) = .text (t.text 32) :=
  P.affinity_of_notMem (t.colon_mem_text 32) (by decide)

theorem snapshots {p : Bytes → Prop} (r : Record) (h₀ : p []) (h : ∀ t ∈ r.optional, p t) :
    p r.startSnapshot ∧ p r.endSnapshot := by
  unfold startSnapshot endSnapshot
  match hopt : r.optional with
  | [] => exact ⟨h₀, h₀⟩
  | [t] => exact ⟨h t (by simp [hopt]), h₀⟩
  | t :: u :: _ => exact ⟨h t (by simp [hopt]), h u (by simp [hopt])⟩

theorem cstr_fields (r : Record) : cstr r.imagePath = r.imagePath ∧
    cstr r.plateNumber = r.plateNumber ∧ cstr r.startSnapshot = r.startSnapshot ∧
    cstr r.endSnapshot = r.endSnapshot := by
  have hnul := r.nul_free
  simp only [List.mem_cons, forall_eq_or_imp] at hnul
  obtain ⟨hi, hp, hopt⟩ := hnul
  obtain ⟨hs, he⟩ := r.snapshots (p := fun t => cstr t = t) rfl fun t ht => cstr_eq_self (hopt t ht)
  exact ⟨cstr_eq_self hi, cstr_eq_self hp, hs, he⟩

theorem row_of_stores {r : Record} {payload : Bytes} {row : HistoryRow P}
    (h : words payload = r.tokens) (hs : Stores payload row) : row = r.row P row.id := by
  obtain ⟨garbage, -, hrow⟩ := hs
  rw [r.parseHistory_eq h] at hrow
  obtain ⟨hi, hp, hst, he⟩ := r.cstr_fields
  rw [hrow]
  simp only [HistoryRow.ofHistory, Record.row, Stamp.cstr_text, affinity_text, hi, hp, hst, he]

theorem decode_row (r : Record) (id : ℕ) : (r.row P id).decode = ⟨r.time.text 32, r.imagePath,
    r.plateNumber, r.type, r.startSnapshot, r.endSnapshot, r.speed P, columnInt id⟩ := by
  obtain ⟨hi, hp, hst, he⟩ := r.cstr_fields
  simp only [HistoryRow.decode, row, Platform.columnText, Stamp.cstr_text, hi, hp, hst, he]

theorem type_cases (r : Record) : r.type = 0 ∨ r.type = 1 ∨ r.type = 2 := by
  have := r.type_le
  unfold type
  omega

theorem speed_of_ne {r : Record} (h : r.type ≠ 1) : r.speed P = none := by
  simp [speed, h]

theorem renderFull_row (r : Record) (id : ℕ) :
    renderFull (r.row P id).decode = r.fullEntry P (columnInt id) := by
  rw [decode_row, renderFull_eq, fullEntry]
  by_cases h₁ : r.type = 1
  · simp only [h₁, if_true]
    rfl
  · simp only [h₁, if_false, speed_of_ne h₁]

theorem renderCompact_row (r : Record) (id : ℕ) :
    renderCompact (r.row P id).decode = some (r.compactEntry P (columnInt id)) := by
  rw [decode_row, compactEntry]
  rcases r.type_cases with h | h | h
  · rw [renderCompact_zero h, speed_of_ne (by omega)]
    simp [h]
  · rw [renderCompact_one h]
    simp only [h]
    cases r.speed P <;> simp
  · rw [renderCompact_two h, speed_of_ne (by omega)]
    simp [h]

theorem utf8_time (t : Stamp) : Utf8.valid (t.text 32) = true := by
  refine Utf8.valid_of_ascii fun c hc => ?_
  have hchars : ∀ c : UInt8, isDigit c = true ∨ c = 45 ∨ c = 58 ∨ c = 32 → c ≤ 0x7F := by
    rintro c (h | rfl | rfl | rfl)
    · simp only [isDigit, Bool.and_eq_true, decide_eq_true_eq] at h
      exact UInt8.le_trans h.2 (by decide)
    · decide
    · decide
    · decide
  exact hchars c (t.mem_text hc)

theorem readable (r : Record) (id : ℕ) (f : HistoryFilter) : RowReadable f (r.row P id) := by
  have hutf := r.utf8
  simp only [List.mem_cons, forall_eq_or_imp] at hutf
  obtain ⟨hi, hp, hopt⟩ := hutf
  obtain ⟨hs, he⟩ := r.snapshots (p := fun t => Utf8.valid t = true) rfl hopt
  have ht := utf8_time r.time
  obtain ⟨eventType, dates⟩ := f
  cases eventType with
  | none =>
    rw [RowReadable, decode_row]
    exact ⟨ht, hi, hp, fun _ => ⟨hs, he⟩⟩
  | some t =>
    rw [RowReadable, decode_row]
    exact ⟨fun _ => ⟨ht, hi⟩, fun _ => hp, fun _ => ⟨hs, he⟩⟩

end Record

namespace Query

/-- Texts compare as the times do, and the suffixes make the range inclusive. -/
theorem admits_row (q : Query) (r : Record) (id : ℕ) :
    q.filter.admits (r.row P id) = decide (q.Selects r) := by
  have hlo : P.valueLe (P.affinity ((Stamp.midnight q.first).text 32)) (r.row P id).date =
      decide (q.first.key ≤ r.time.date.key) := by
    simp only [Record.row_date, Record.affinity_text, Platform.valueLe, SqlValue.le, Stamp.text_le,
      Stamp.midnight_key_le]
  have hhi : P.valueLe (r.row P id).date (P.affinity ((Stamp.lastSecond q.last).text 32)) =
      decide (r.time.date.key ≤ q.last.key) := by
    simp only [Record.row_date, Record.affinity_text, Platform.valueLe, SqlValue.le, Stamp.text_le,
      Stamp.key_le_lastSecond]
  have htype : r.type = (r.row P id).eventType := rfl
  rw [Bool.eq_iff_iff, decide_eq_true_iff]
  by_cases ht : q.command.typed = true <;> by_cases hd : q.command.dated = true <;>
    simp [HistoryFilter.admits, filter, Selects, htype, ht, hd, hlo, hhi]

theorem entries_rows (q : Query) (L : List (Record × ℕ)) :
    entries q.filter (L.map fun x => x.1.row P x.2) =
      L.map fun x => q.entry P x.1 (columnInt x.2) := by
  unfold entries entry filter
  cases q.command.typed with
  | false => simp [Record.renderFull_row]
  | true => simp [List.filterMap_map, Record.renderCompact_row]

/-- The page of a query: the selected records, newest first, from `offset` on. -/
theorem selectHistory_rows (q : Query) (n : ℕ) (db : Database P) (records : List (Record × ℕ))
    (h : db.history = records.map fun x => x.1.row P x.2) :
    ∃ L : List (Record × ℕ), L.Perm (records.filter fun x => q.Selects x.1) ∧
      L.Pairwise (fun a b => b.1.time.key ≤ a.1.time.key) ∧
      db.selectHistory n q.filter q.limit q.offset =
        ((L.drop q.offset).take q.limit).map fun x => x.1.row P x.2 := by
  have hfilter : db.history.filter q.filter.admits =
      (records.filter fun x => q.Selects x.1).map fun x => x.1.row P x.2 := by
    rw [h, List.filter_map]
    simp only [Function.comp_def, admits_row]
  have hrows : List.Forall₂ (fun row (x : Record × ℕ) => row = x.1.row P x.2)
      (db.history.filter q.filter.admits) (records.filter fun x => q.Selects x.1) := by
    rw [hfilter, List.forall₂_map_left_iff, List.forall₂_same]
    exact fun _ _ => rfl
  obtain ⟨L, hL, hperm⟩ := List.perm_comp_forall₂
    (P.orderDesc_perm n _ (·.date) (db.history.filter q.filter.admits)) hrows
  have hmap : P.orderDesc n (·.date) (db.history.filter q.filter.admits) =
      L.map fun x => x.1.row P x.2 := by
    rw [← List.forall₂_eq_eq_eq, List.forall₂_map_right_iff]
    exact hL
  have hsorted := P.orderDesc_sorted n _ (·.date) (db.history.filter q.filter.admits)
  rw [hmap, List.pairwise_map] at hsorted
  refine ⟨L, hperm, hsorted.imp fun {a b} hab => ?_, ?_⟩
  · simpa [Record.row, SqlValue.le, Stamp.text_le] using hab
  · have hlimit : ¬ ((q.limit : ℤ) < 0) := by omega
    rw [Database.selectHistory, page, if_neg hlimit, hmap, Int.toNat_natCast, Int.toNat_natCast,
      List.map_take, List.map_drop]

end Query

theorem Served.records {allowed : Call P → Outcome → Prop} {s₀ s : World P × Socket}
    {served : List (Bytes × Bytes)} {records : List Record}
    (hserved : Served (World.Serves allowed) s₀ served s) (hempty : s₀.1.db.history = [])
    (hrecords : List.Forall₂ (fun r payload => words payload = Record.tokens r) records
      (added served)) :
    s.1.db.history = (records.zipIdx 1).map fun x => x.1.row P x.2 := by
  obtain ⟨new, hnew, hhist, hids⟩ := hserved.history
  rw [hempty, List.nil_append] at hhist
  have hids' : new.map HistoryRow.id = List.range' 1 new.length := by
    have := hids (by rw [hempty]; rfl)
    rwa [hhist] at this
  have hlen : records.length = new.length := hrecords.length_eq.trans hnew.length_eq
  rw [hhist]
  refine List.ext_getElem (by simp [hlen]) fun i h₁ h₂ => ?_
  have hi : i < records.length := hlen ▸ h₁
  have hi' : i < (added served).length := hnew.length_eq ▸ h₁
  have hw := (List.forall₂_iff_get.mp hrecords).2 i hi hi'
  have hs := (List.forall₂_iff_get.mp hnew).2 i hi' h₁
  have hid : new[i].id = 1 + i := by
    have := congrArg (·[i]?) hids'
    simpa [List.getElem?_range', h₁] using this
  have hrow := Record.row_of_stores hw hs
  simp only [List.get_eq_getElem] at hrow
  rw [hid] at hrow
  simpa using hrow

/-- After any session a history query replies with the page of the records it selects,
newest first, each once, and each with the values that were sent. -/
theorem history_query_refines {allowed : Call P → Outcome → Prop} {s₀ s s' : World P × Socket}
    {served : List (Bytes × Bytes)} {records : List Record} {q : Query} {payload : Bytes}
    {tr : List (Event (Res (P := P)))} {x : Option Bytes} (hempty : s₀.1.db.history = [])
    (hserved : Served (World.Serves allowed) s₀ served s)
    (hrecords : List.Forall₂ (fun r payload => words payload = Record.tokens r) records
      (added served))
    (hline : (10 : UInt8) ∉ payload) (hquery : words payload = q.tokens)
    (hreg : (s.1.db.users.selectByEmail (cstr q.email)).isSome = true)
    (hrun : Prog.Runs (World.Serves World.Faultless)
      (handle (commandLine q.command.text payload)) s tr x s') :
    ∃ L : List (Record × ℕ), L.Perm ((records.zipIdx 1).filter fun x => q.Selects x.1) ∧
      L.Pairwise (fun a b => b.1.time.key ≤ a.1.time.key) ∧
      ∃ reply, x = some reply ∧
        (response "History retrieved successfully" (.arr <|
          ((L.drop q.offset).take q.limit).map fun x => q.entry P x.1 (columnInt x.2))).dump =
            some reply := by
  rw [handle_query _ hline, q.query_eq hquery] at hrun
  obtain ⟨-, n, hx, -⟩ := runs_query rfl hreg hrun
  obtain ⟨L, hperm, hsorted, hpage⟩ := q.selectHistory_rows n s.1.db _
    (hserved.records hempty hrecords)
  refine ⟨L, hperm, hsorted, ?_⟩
  dsimp only at hx
  rw [hpage] at hx
  have hsome : (queryReply q.filter
      (((L.drop q.offset).take q.limit).map fun x => x.1.row P x.2)).isSome = true := by
    rw [queryReply_isSome, List.forall_mem_map]
    exact fun x _ => x.1.readable x.2 q.filter
  obtain ⟨reply, hreply⟩ := Option.isSome_iff_exists.mp hsome
  refine ⟨reply, hx.trans hreply, ?_⟩
  rwa [queryReply, q.entries_rows] at hreply

def speeding (day : Fin 100) : Record where
  time := .fullHour (.inMay day day.2) 15 (by decide)
  imagePath := ascii "images/b.jpg"
  plateNumber := ascii "12A3456"
  eventType := ascii "1"
  optional := [ascii "-", ascii "-", ascii "60"]
  type_numeral := by decide
  type_le := by decide
  speed_decimal t ht := by
    cases ht
    exact .inl (by decide)
  nul_free := by decide
  utf8 := by decide

def childDetected : Record where
  time := .fullHour (.inMay 20 (by decide)) 9 (by decide)
  imagePath := ascii "images/c.jpg"
  plateNumber := ascii "98B7654"
  eventType := ascii "2"
  optional := []
  type_numeral := by decide
  type_le := by decide
  speed_decimal := by simp
  nul_free := by decide
  utf8 := by decide

def mayRecords : List Record := [speeding 12, childDetected, speeding 30, speeding 21]

def mayPayloads : List Bytes :=
  [ascii "2025-05-12_15:00:00 images/b.jpg 12A3456 1 - - 60",
    ascii "2025-05-20_09:00:00 images/c.jpg 98B7654 2",
    ascii "2025-05-30_15:00:00 images/b.jpg 12A3456 1 - - 60",
    ascii "2025-05-21_15:00:00 images/b.jpg 12A3456 1 - - 60"]

/-- The second page, of one record, of the speeding records up to the 25th. -/
def mayQuery : Query where
  command := .byTypeAndDates
  email := ascii "u"
  eventType := ascii "1"
  first := .inMay 1 (by decide)
  last := .inMay 25 (by decide)
  paging := [ascii "1", ascii "1"]
  type_numeral := by decide
  type_le := by decide
  paging_numeral := by decide
  paging_le := by decide
  limit_pos t ht := by
    cases ht
    decide

def afterMay : World .reference × Socket :=
  mayPayloads.foldl
    (fun s p => (Server.run (handle (commandLine "ADD_HISTORY" p)) s).2.2) registered

theorem speeding_query :
    ∃ tr reply s, Prog.Runs (World.Serves World.Faultless)
        (handle (commandLine QueryCommand.byTypeAndDates.text
          (ascii "u 1 2025-05-01 2025-05-25 1 1"))) afterMay tr (some reply) s ∧
      (response "History retrieved successfully"
        (.arr [(speeding 12).compactEntry .reference 1])).dump = some reply := by
  have hserved : Served (World.Serves World.Faultless) registered
      (mayPayloads.map fun p => (commandLine "ADD_HISTORY" p, created)) afterMay :=
    .cons (Server.runs _ _ (by decide)) <| .cons (Server.runs _ _ (by decide)) <|
      .cons (Server.runs _ _ (by decide)) <| .cons (Server.runs _ _ (by decide)) .nil
  have hrun := Server.runs (handle (commandLine QueryCommand.byTypeAndDates.text
    (ascii "u 1 2025-05-01 2025-05-25 1 1"))) afterMay rfl
  have hrecords : List.Forall₂ (fun r payload => words payload = Record.tokens r) mayRecords
      mayPayloads :=
    .cons (by decide) <| .cons (by decide) <| .cons (by decide) <| .cons (by decide) .nil
  obtain ⟨L, hperm, hsorted, reply, hx, hreply⟩ := history_query_refines (q := mayQuery) rfl
    hserved hrecords (by decide) (by decide) (by decide) hrun
  -- two records are selected, and the newer one comes first
  have hselected : L.Perm [(speeding 12, 1), (speeding 21, 4)] := hperm
  have hL : L = [(speeding 21, 4), (speeding 12, 1)] := by
    refine (hselected.trans (.swap _ _ _)).eq_of_pairwise (fun a b ha hb h₁ h₂ => ?_) hsorted
      (by decide)
    simp only [hselected.mem_iff, List.mem_cons, List.not_mem_nil, or_false] at ha hb
    rcases ha with rfl | rfl
    · rcases hb with rfl | rfl
      · exact absurd h₁ (by decide)
      · rfl
    · rcases hb with rfl | rfl
      · rfl
      · exact absurd h₂ (by decide)
  rw [hx] at hrun
  rw [hL] at hreply
  exact ⟨_, reply, _, hrun, hreply⟩

end CctvServer
