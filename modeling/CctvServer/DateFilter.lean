import CctvServer.AddHistory
import CctvServer.HistoryQueries

namespace CctvServer

open CommandHandler IStream

variable {P : Platform}

/-- What follows the day in the date as it is stored. -/
def storedTail (tail : Bytes) : Bytes := cstr (replaceUnderscores tail)

/-- The day and what follows it lie between the bounds of the query, compared as texts. -/
def WithinRange (q : Query) (d : Day) (tail : Bytes) : Prop :=
  (q.first.key < d.key ∨ ascii " 00:00:00" ≤ storedTail tail) ∧
    (d.key < q.last.key ∨ storedTail tail ≤ ascii " 23:59:59")

instance (q : Query) (d : Day) (tail : Bytes) : Decidable (WithinRange q d tail) :=
  inferInstanceAs (Decidable ((_ ∨ _) ∧ (_ ∨ _)))

theorem Day.mem_text {d : Day} {c : UInt8} (h : c ∈ d.text) : isDigit c = true ∨ c = 45 := by
  have hy := isDigit_pad4 d.year_lt c
  have hm := isDigit_pad2 d.month_lt c
  have hd := isDigit_pad2 d.day_lt c
  simp only [Day.text, List.mem_append, List.mem_cons] at h
  tauto

theorem cstr_replace_text (d : Day) (tail : Bytes) :
    cstr (replaceUnderscores (d.text ++ tail)) = d.text ++ storedTail tail := by
  have hkeep : replaceUnderscores d.text = d.text := by
    refine (List.map_congr_left fun c hc => ?_).trans (List.map_id _)
    rcases Day.mem_text hc with h | rfl
    · exact if_neg (ne_of_isDigit h (by decide))
    · rfl
  have hnul : (0 : UInt8) ∉ d.text := by
    intro h
    rcases Day.mem_text h with h | h <;> exact absurd h (by decide)
  have hsplit : replaceUnderscores (d.text ++ tail) =
      replaceUnderscores d.text ++ replaceUnderscores tail := List.map_append
  rw [hsplit, hkeep, cstr_append _ hnul, storedTail]

theorem append_le_append_iff {a a' b b' : Bytes} (h : a.length = a'.length) :
    a ++ b ≤ a' ++ b' ↔ a < a' ∨ (a = a' ∧ b ≤ b') := by
  rw [← List.not_lt, append_lt_append_iff h.symm, ← List.not_lt]
  constructor
  · intro hn
    rw [not_or, not_and] at hn
    by_cases hlt : a < a'
    · exact .inl hlt
    · have heq : a = a' := List.le_antisymm (List.not_lt.mp hn.1) (List.not_lt.mp hlt)
      exact .inr ⟨heq, hn.2 heq.symm⟩
  · rintro (hlt | ⟨rfl, hle⟩) (hlt' | ⟨heq, hlt'⟩)
    · exact List.lt_asymm hlt hlt'
    · exact List.lt_irrefl _ (heq ▸ hlt)
    · exact List.lt_irrefl _ hlt'
    · exact hle hlt'

section Bounds

/-- No numeric literal has a minus sign behind a digit. -/
def SignsLead (P : Platform) : Prop :=
  ∀ (a b : Bytes) (c : UInt8), isDigit c = true → P.numeric (a ++ c :: 45 :: b) = none

theorem affinity_day (hnum : SignsLead P) (d : Day) (tail : Bytes) :
    P.affinity (d.text ++ tail) = .text (d.text ++ tail) := by
  have hsplit : d.text ++ tail = (pad4 d.year).take 3 ++ (pad4 d.year)[3] :: 45 ::
      (pad2 d.month ++ 45 :: pad2 d.day ++ tail) := by
    simp [Day.text, pad4, pad2]
  have hdigit : isDigit (pad4 d.year)[3] = true := isDigit_pad4 d.year_lt _ (List.getElem_mem _)
  rw [Platform.affinity, hsplit, hnum _ _ _ hdigit]

theorem midnight_text (d : Day) : (Stamp.midnight d).text 32 = d.text ++ ascii " 00:00:00" := by
  have hsuffix : ascii " 00:00:00" = 32 :: (pad2 0 ++ 58 :: (pad2 0 ++ 58 :: pad2 0)) := by decide
  rw [hsuffix]
  rfl

theorem lastSecond_text (d : Day) :
    (Stamp.lastSecond d).text 32 = d.text ++ ascii " 23:59:59" := by
  have hsuffix : ascii " 23:59:59" = 32 :: (pad2 23 ++ 58 :: (pad2 59 ++ 58 :: pad2 59)) := by
    decide
  rw [hsuffix]
  rfl

/-- The bounds of a range around the day cut off times of its first and its last day only. -/
theorem bounds_iff (hnum : SignsLead P) {q : Query} {d : Day} {tail : Bytes}
    (hf : q.first.key ≤ d.key) (hl : d.key ≤ q.last.key) :
    (P.valueLe (P.affinity ((Stamp.midnight q.first).text 32))
        (P.affinity (d.text ++ storedTail tail)) = true ∧
      P.valueLe (P.affinity (d.text ++ storedTail tail))
        (P.affinity ((Stamp.lastSecond q.last).text 32)) = true) ↔ WithinRange q d tail := by
  have hlen : ∀ a b : Day, a.text.length = b.text.length := fun _ _ => rfl
  rw [affinity_day hnum, midnight_text, affinity_day hnum, lastSecond_text, affinity_day hnum]
  simp only [Platform.valueLe, SqlValue.le, decide_eq_true_eq]
  rw [append_le_append_iff (hlen q.first d), append_le_append_iff (hlen d q.last), Day.text_lt,
    Day.text_lt, Day.text_inj, Day.text_inj]
  have hcut : ∀ {j k : ℕ} {p : Prop}, j ≤ k → (j < k ∨ j = k ∧ p ↔ j < k ∨ p) := by
    intro j k p hjk
    rcases hjk.lt_or_eq with hlt | heq
    · exact ⟨fun _ => .inl hlt, fun _ => .inl hlt⟩
    · exact ⟨Or.imp_right And.right, Or.imp_right fun hp => ⟨heq, hp⟩⟩
  rw [hcut hf, hcut hl, WithinRange]

end Bounds

/-- The query wants all rows of the record's type from a range of days around the record's. -/
structure AsksFor (q : Query) (d : Day) (r : HistoryRow P) (count : ℕ) : Prop where
  dated : q.command.dated = true
  type : q.command.typed = true → r.eventType = digitsValue q.eventType
  first : q.first.key ≤ d.key
  last : d.key ≤ q.last.key
  offset : q.offset = 0
  limit : count ≤ q.limit

/-- The record, whose date token is the day and this tail, was accepted, other requests
followed, and a registered user queries for it. -/
structure Asked (d : Day) (tail : Bytes) (q : Query) (r : HistoryRow P) (s : World P × Socket)
    (tr : List (Event (Res (P := P)))) (x : Option Bytes) : Prop where
  stored : ∃ (allowed allowed' : Call P → Outcome → Prop) (s₀ s₁ : World P × Socket)
    (line : Bytes) (served : List (Bytes × Bytes)) (tr₀ : List (Event (Res (P := P)))),
    (splitCommand line).1 = ascii "ADD_HISTORY" ∧
      (words (splitCommand line).2).head? = some (d.text ++ tail) ∧
      Prog.Runs (World.Serves allowed) (handle line) s₀ tr₀ (some created) s₁ ∧
      Served (World.Serves allowed') s₁ served s ∧
      r ∈ s.1.db.history ∧ r.id = Database.nextId s₀.1.db.history
  asks : AsksFor q d r s.1.db.history.length
  registered : (s.1.db.users.selectByEmail (cstr q.email)).isSome = true
  run : ∃ (payload : Bytes) (s' : World P × Socket), (10 : UInt8) ∉ payload ∧
    words payload = q.tokens ∧ Prog.Runs (World.Serves World.Faultless)
      (handle (commandLine q.command.text payload)) s tr x s'

/-- The query is answered with entries of its rows, and the record's entry is among them. -/
def Includes (q : Query) (r : HistoryRow P) (tr : List (Event (Res (P := P)))) (x : Option Bytes) :
    Prop :=
  ∃ rows reply, ⟨.selectHistory q.filter q.limit q.offset, rows⟩ ∈ tr ∧ r ∈ rows ∧
    x = some reply ∧ (response "History retrieved successfully"
      (.arr (entries q.filter rows))).dump = some reply ∧
    ∃ e ∈ entries q.filter rows, entries q.filter [r] = [e]

theorem mem_selectHistory_all {db : Database P} (n : ℕ) {f : HistoryFilter} {limit : ℤ}
    {r : HistoryRow P} (hl : db.history.length ≤ limit) :
    r ∈ db.selectHistory n f limit 0 ↔ r ∈ db.history ∧ f.admits r = true := by
  have hperm := P.orderDesc_perm n _ (·.date) (db.history.filter f.admits)
  have hlimit : ¬limit < 0 := by omega
  have hlen := List.length_filter_le f.admits db.history
  rw [Database.selectHistory, page, if_neg hlimit, Int.toNat_zero, List.drop_zero,
    List.take_of_length_le (by rw [hperm.length_eq]; omega), hperm.mem_iff, List.mem_filter]

theorem Stores.date_eq {payload : Bytes} {r : HistoryRow P} (h : Stores payload r) {d : Day}
    {tail : Bytes} (hd : (words payload).head? = some (d.text ++ tail)) :
    r.date = P.affinity (d.text ++ storedTail tail) := by
  obtain ⟨garbage, -, hr⟩ := h
  rw [parseHistory_tokens] at hr
  have hhead : (words payload).getD 0 [] = d.text ++ tail := by
    rw [List.getD_eq_getElem?_getD, ← List.head?_eq_getElem?, hd]
    rfl
  rw [hr, ← cstr_replace_text, ← hhead]
  rfl

theorem exists_entry {f : HistoryFilter} {r : HistoryRow P} {rows : List (HistoryRow P)}
    (ht : 0 ≤ r.eventType ∧ r.eventType ≤ 2) (hr : r ∈ rows) :
    ∃ e ∈ entries f rows, entries f [r] = [e] := by
  obtain ⟨eventType, dates⟩ := f
  cases eventType with
  | none => exact ⟨renderFull r.decode, List.mem_map_of_mem hr, rfl⟩
  | some t =>
    obtain ⟨e, he⟩ := exists_renderCompact (h := r.decode) ht
    have hone : [r].filterMap (fun r => renderCompact r.decode) = [e] :=
      List.filterMap_cons_some he
    exact ⟨e, List.mem_filterMap.mpr ⟨r, hr, he⟩, hone⟩

/-- A query for all rows is answered with the record's entry if and only if its filter admits
the record and all it admits can be shown. -/
theorem includes_iff {d : Day} {tail : Bytes} {q : Query} {r : HistoryRow P} {s : World P × Socket}
    {tr : List (Event (Res (P := P)))} {x : Option Bytes} (h : Asked d tail q r s tr x)
    (ht : 0 ≤ r.eventType ∧ r.eventType ≤ 2) (hr : r ∈ s.1.db.history) :
    Includes q r tr x ↔ q.filter.admits r = true ∧
      ∀ row ∈ s.1.db.history, q.filter.admits row = true → RowReadable q.filter row := by
  obtain ⟨payload, s', hp, hw, hrun⟩ := h.run
  rw [handle_query _ hp, q.query_eq hw] at hrun
  have huser : ∀ row s₁, World.Serves World.Faultless (.selectUserByEmail (cstr q.email)) s row s₁ →
      row.isSome = true ∧ s₁ = s := fun row s₁ hE => by
    obtain ⟨rfl, rfl⟩ := serves_lookup hE
    exact ⟨h.registered, rfl⟩
  obtain ⟨row, rows, hE, hx, rfl⟩ := runs_answer rfl huser hrun
  obtain ⟨-, n, hrows⟩ := serves_select hE
  have hmem : ∀ a, a ∈ rows ↔ a ∈ s.1.db.history ∧ q.filter.admits a = true := by
    intro a
    rw [hrows]
    dsimp only
    rw [h.asks.offset]
    exact mem_selectHistory_all n (Int.ofNat_le.mpr h.asks.limit)
  have hreads : (∀ a ∈ s.1.db.history, q.filter.admits a = true → RowReadable q.filter a) ↔
      (queryReply q.filter rows).isSome = true := by
    simp only [queryReply_isSome, hmem, and_imp]
  rw [hreads]
  constructor
  · rintro ⟨rows', reply, hsel, hr', hreply, hdump, -⟩
    obtain rfl : rows' = rows := by
      rcases List.mem_cons.mp hsel with heq | hsel
      · cases heq
      · cases List.mem_singleton.mp hsel
        rfl
    exact ⟨((hmem r).mp hr').2, Option.isSome_iff_exists.mpr ⟨reply, hdump⟩⟩
  · rintro ⟨hadmits, hsome⟩
    obtain ⟨reply, hreply⟩ := Option.isSome_iff_exists.mp hsome
    have hr' : r ∈ rows := (hmem r).mpr ⟨hr, hadmits⟩
    exact ⟨rows, reply, List.mem_cons_of_mem _ List.mem_cons_self, hr', hx.trans hreply, hreply,
      exists_entry ht hr'⟩

theorem admits_iff (hnum : SignsLead P) {d : Day} {tail : Bytes} {q : Query} {r : HistoryRow P}
    {count : ℕ} (hasks : AsksFor q d r count)
    (hdate : r.date = P.affinity (d.text ++ storedTail tail)) :
    q.filter.admits r = true ↔ WithinRange q d tail := by
  rw [← bounds_iff hnum hasks.first hasks.last, ← hdate]
  have htype := hasks.type
  by_cases ht : q.command.typed = true
  · simp [HistoryFilter.admits, Query.filter, ht, hasks.dated, htype ht]
  · simp [HistoryFilter.admits, Query.filter, ht, hasks.dated]

theorem Asked.row {d : Day} {tail : Bytes} {q : Query} {r : HistoryRow P} {s : World P × Socket}
    {tr : List (Event (Res (P := P)))} {x : Option Bytes} (h : Asked d tail q r s tr x) :
    r ∈ s.1.db.history ∧ (0 ≤ r.eventType ∧ r.eventType ≤ 2) ∧
      r.date = P.affinity (d.text ++ storedTail tail) := by
  obtain ⟨_, _, _, _, _, _, _, hl, hd, hadd, hlater, hr, hid⟩ := h.stored
  obtain ⟨r', hstores, hid', -, hunique⟩ := Served.added_row hl hadd hlater
  obtain rfl : r = r' := hunique r hr (hid.trans hid'.symm)
  exact ⟨hr, hstores.type, hstores.date_eq hd⟩

/-- A query whose range holds the day of an accepted record is answered with the record's entry
if and only if the date lies between the bounds that the filter appends and all records in
between can be shown. -/
theorem date_filter_finds_iff (hnum : SignsLead P) {d : Day} {tail : Bytes} {q : Query}
    {r : HistoryRow P} {s : World P × Socket} {tr : List (Event (Res (P := P)))} {x : Option Bytes}
    (h : Asked d tail q r s tr x) :
    Includes q r tr x ↔ WithinRange q d tail ∧
      ∀ row ∈ s.1.db.history, q.filter.admits row = true → RowReadable q.filter row := by
  obtain ⟨hr, ht, hdate⟩ := h.row
  rw [includes_iff h ht hr, admits_iff hnum h.asks hdate]

def datedPayload (date : Bytes) : Bytes := date ++ 32 :: ascii "a b 0"

def dayQuery (d : Day) : Query where
  command := .byDates
  email := ascii "u"
  eventType := ascii "0"
  first := d
  last := d
  paging := []
  type_numeral := by decide
  type_le := by decide
  paging_numeral := by simp
  paging_le := by simp
  limit_pos := by simp

def dayPayload (d : Day) : Bytes := ascii "u" ++ 32 :: (d.text ++ 32 :: d.text)

theorem Day.not_space {d : Day} : ∀ c ∈ d.text, isSpace c = false := by
  intro c hc
  rcases Day.mem_text hc with h | rfl
  · exact not_isSpace_of_isDigit h
  · decide

theorem Day.text_ne_nil (d : Day) : d.text ≠ [] := fun h => by simpa [h] using d.text_length

theorem words_datedPayload {date : Bytes} (hne : date ≠ []) (hd : ∀ c ∈ date, isSpace c = false) :
    words (datedPayload date) = [date, ascii "a", ascii "b", ascii "0"] := by
  rw [datedPayload, words_append_space _ hne hd (by decide)]
  exact congrArg (date :: ·) (by decide)

theorem words_dayPayload (d : Day) : words (dayPayload d) = (dayQuery d).tokens := by
  rw [dayPayload, words_append_space _ (by decide) (by decide) (by decide),
    words_append_space _ d.text_ne_nil Day.not_space (by decide),
    words_token d.text_ne_nil Day.not_space]
  rfl

theorem newline_notMem {b : Bytes} (h : ∀ c ∈ b, isSpace c = false) : (10 : UInt8) ∉ b :=
  fun h10 => absurd (h 10 h10) (by decide)

def quiet (P : Platform) : World P × Socket :=
  (⟨Reference.emptyFs, ⟨⟨[⟨1, ascii "u", [], []⟩], 1⟩, [], 0⟩⟩, ⟨[], []⟩)

theorem exists_asked_day (P : Platform) (d : Day) (tail : Bytes)
    (htail : ∀ c ∈ tail, isSpace c = false) :
    ∃ r s tr x, Asked (P := P) d tail (dayQuery d) r s tr x := by
  have hne : d.text ++ tail ≠ [] := by simp [d.text_ne_nil]
  have hspace : ∀ c ∈ d.text ++ tail, isSpace c = false := by
    intro c hc
    rcases List.mem_append.mp hc with hc | hc
    · exact Day.not_space c hc
    · exact htail c hc
  have hwords := words_datedPayload hne hspace
  have hnl : (10 : UInt8) ∉ datedPayload (d.text ++ tail) := by
    rw [datedPayload, List.mem_append, not_or]
    exact ⟨newline_notMem hspace, by decide⟩
  have hsplit : splitCommand (commandLine "ADD_HISTORY" (datedPayload (d.text ++ tail))) =
      (ascii "ADD_HISTORY", datedPayload (d.text ++ tail)) :=
    splitCommand_commandLine (by decide) hnl
  have hacc : Accepted (P := P) (parseHistory (datedPayload (d.text ++ tail)) (columnInt 0)) := by
    rw [parseHistory_tokens, accepted_iff fun _ => words_ne_nil, hwords]
    change 3 ≤ 4 ∧ 0 ≤ (intTokens (columnInt 0) [ascii "0"]).1 ∧
      (intTokens (columnInt 0) [ascii "0"]).1 ≤ 2
    decide
  obtain ⟨tr, s₁, hadd⟩ := exists_created (quiet P) hacc
  obtain ⟨husers, ⟨-, r, hstores, hid, hhist⟩ | ⟨hne, -⟩⟩ := runs_addHistory hadd
  · rw [← handle_addHistory hnl] at hadd
    have hhist' : s₁.1.db.history = [r] := hhist
    have hdate : (words (datedPayload (d.text ++ tail))).head? = some (d.text ++ tail) := by
      rw [hwords]
      rfl
    have hasks : AsksFor (dayQuery d) d r s₁.1.db.history.length := by
      rw [hhist']
      have hlimit : 1 ≤ (dayQuery d).limit := (dayQuery d).limit_pos'
      exact ⟨rfl, nofun, le_rfl, le_rfl, rfl, hlimit⟩
    have hquery : (10 : UInt8) ∉ dayPayload d := by
      have hday := newline_notMem (Day.not_space (d := d))
      simp only [dayPayload, List.mem_append, List.mem_cons, hday, or_false, not_or]
      decide
    refine ⟨r, s₁, _, _, ⟨⟨_, World.Faultless, _, s₁, _, [], _, by rw [hsplit], ?_, hadd, .nil, ?_,
      hid⟩, hasks, ?_, dayPayload d, _, hquery, words_dayPayload d, Server.runs _ _ rfl⟩⟩
    · rw [hsplit]
      exact hdate
    · rw [hhist']
      exact List.mem_singleton_self r
    · rw [husers]
      rfl
  · exact absurd rfl hne

theorem not_includes (hnum : SignsLead P) {d : Day} {tail : Bytes} {q : Query} {r : HistoryRow P}
    {s : World P × Socket} {tr : List (Event (Res (P := P)))} {x : Option Bytes}
    (h : Asked d tail q r s tr x) (hout : ¬WithinRange q d tail) : ¬Includes q r tr x := by
  obtain ⟨hr, ht, hdate⟩ := h.row
  rw [includes_iff h ht hr, admits_iff hnum h.asks hdate]
  exact fun hin => hout hin.1

theorem signsLead_reference : SignsLead .reference := by
  intro a b c _
  refine if_neg fun h => ?_
  exact absurd (h.2 45 (by simp)) (by decide)

/-- A record whose date is a bare day, or has a `T` before the time, is not found on its day. -/
theorem bare_day_is_hidden :
    (∃ r s tr x, Asked (P := .reference) .may30 [] (dayQuery .may30) r s tr x ∧
      ¬Includes (dayQuery .may30) r tr x) ∧
    ∃ r s tr x, Asked (P := .reference) .may30 (ascii "T15:00:00") (dayQuery .may30) r s tr x ∧
      ¬Includes (dayQuery .may30) r tr x := by
  obtain ⟨r, s, tr, x, h⟩ := exists_asked_day .reference .may30 [] (by decide)
  obtain ⟨r', s', tr', x', h'⟩ :=
    exists_asked_day .reference .may30 (ascii "T15:00:00") (by decide)
  exact ⟨⟨r, s, tr, x, h, not_includes signsLead_reference h (by decide)⟩,
    r', s', tr', x', h', not_includes signsLead_reference h' (by decide)⟩

/-- Records of an afternoon, of the same evening and of the next day. -/
def afternoon : Bytes := ascii "2025-05-30_15:00:00 images/b.jpg 12A3456 0"

def evening : Bytes := ascii "2025-05-30_23:59:59 images/c.jpg 98B7654 2"

def nextDay : Bytes := ascii "2025-05-31_00:00:00 images/d.jpg 12A3456 1"

def afterThree : World .reference × Socket :=
  (Server.run (handle (commandLine "ADD_HISTORY" nextDay))
    (Server.run (handle (commandLine "ADD_HISTORY" evening)) (afterAdd afternoon)).2.2).2.2

def afternoonRow : HistoryRow .reference :=
  ⟨1, .text (ascii "2025-05-30 15:00:00"), ascii "images/b.jpg", ascii "12A3456", 0, [], [], none⟩

theorem timed_record_is_found :
    ∃ tr x, Asked .may30 (ascii "_15:00:00") (dayQuery .may30) afternoonRow afterThree tr x ∧
      Includes (dayQuery .may30) afternoonRow tr x := by
  have hasked : Asked .may30 (ascii "_15:00:00") (dayQuery .may30) afternoonRow afterThree _ _ :=
    ⟨⟨_, _, registered, afterAdd afternoon, commandLine "ADD_HISTORY" afternoon,
        [(commandLine "ADD_HISTORY" evening, created),
          (commandLine "ADD_HISTORY" nextDay, created)],
        _, by decide, by decide, Server.runs _ _ (by decide),
        .cons (Server.runs _ _ (by decide)) (.cons (Server.runs _ _ (by decide)) .nil),
        List.mem_cons_self, rfl⟩,
      ⟨rfl, nofun, le_rfl, le_rfl, rfl, by decide⟩, by decide,
      dayPayload .may30, _, by decide, by decide, Server.runs _ _ rfl⟩
  exact ⟨_, _, hasked,
    (date_filter_finds_iff signsLead_reference hasked).mpr ⟨by decide, by decide⟩⟩

end CctvServer
