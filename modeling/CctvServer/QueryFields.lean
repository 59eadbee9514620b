import CctvServer.AddHistory
import CctvServer.HistoryReadable

namespace CctvServer

open CommandHandler IStream

variable {P : Platform}

/-- A decimal integer that fits an `int`. -/
def IStream.IsInt (t : Bytes) : Prop :=
  IsInteger t ∧ intMin ≤ numeralValue t ∧ numeralValue t ≤ intMax

instance (t : Bytes) : Decidable (IsInt t) := inferInstanceAs (Decidable (_ ∧ _ ∧ _))

namespace CommandHandler.QueryCommand

/-- The position of the limit among the tokens; the offset follows it. -/
def limitAt (c : QueryCommand) : ℕ :=
  (if c.typed then 2 else 1) + if c.dated then 2 else 0

def numbersAt (c : QueryCommand) : List ℕ :=
  if c.typed then [1, c.limitAt, c.limitAt + 1] else [c.limitAt, c.limitAt + 1]

def datesAt (c : QueryCommand) : ℕ := if c.typed then 2 else 1

def numberAt (old : ℤ) (ws : List Bytes) (i : ℕ) : ℤ := (ws[i]?).elim old numeralValue

/-- The query with the values of the tokens present and the defaults of the others. -/
def asks (c : QueryCommand) (ws : List Bytes) : HistoryQuery :=
  c.build (ws.getD 0 []) (if c.typed then numberAt 0 ws 1 else 0) (ws.getD c.datesAt [])
    (ws.getD (c.datesAt + 1) []) (numberAt 10 ws c.limitAt) (numberAt 0 ws (c.limitAt + 1))

/-- A token in the position of a number is none that fits. -/
def Misspelt (c : QueryCommand) (ws : List Bytes) : Prop :=
  ∃ i ∈ c.numbersAt, ∃ t ∈ ws[i]?, ¬IsInt t

theorem intTokens_isInt {old : ℤ} {t : Bytes} {ts : List Bytes} (h : IsInt t) :
    intTokens old (t :: ts) = (numeralValue t, ts) := by
  obtain ⟨hint, hmin, hmax⟩ := h
  obtain ⟨hdigits, hrest⟩ := (isInteger_iff t).mp hint
  exact intTokens_fits hdigits hrest hmin hmax

theorem intTokens_drop {old : ℤ} {ws : List Bytes} {i : ℕ} (h : ∀ t ∈ ws[i]?, IsInt t) :
    intTokens old (ws.drop i) = (numberAt old ws i, ws.drop (i + 1)) := by
  cases ht : ws[i]? with
  | none =>
    have hlen : ws.length ≤ i := List.getElem?_eq_none_iff.mp ht
    rw [List.drop_eq_nil_of_le hlen, List.drop_eq_nil_of_le (by omega), numberAt, ht]
    rfl
  | some t =>
    obtain ⟨hlt, rfl⟩ := List.getElem?_eq_some_iff.mp ht
    rw [List.drop_eq_getElem_cons hlt, intTokens_isInt (h _ ht), numberAt, ht]
    rfl

/-- Well-spelt numbers are read in their positions. -/
theorem reads_eq_asks {c : QueryCommand} {ws : List Bytes} (h : ¬c.Misspelt ws) :
    c.reads ws = c.asks ws := by
  have hint : ∀ i ∈ c.numbersAt, ∀ t ∈ ws[i]?, IsInt t := by
    intro i hi t ht
    by_contra hnot
    exact h ⟨i, hi, t, ht, hnot⟩
  have htype : c.readType ws.tail =
      (if c.typed then numberAt 0 ws 1 else 0, ws.drop c.datesAt) := by
    rw [← List.drop_one, readType, datesAt]
    cases ht : c.typed with
    | true => exact intTokens_drop (hint 1 (by simp [numbersAt, ht]))
    | false => rfl
  have hlimits : c.behindDates (ws.drop c.datesAt) = ws.drop c.limitAt := by
    unfold behindDates limitAt datesAt
    cases c.typed <;> cases c.dated <;> simp
  have hlimit : intTokens 10 (ws.drop c.limitAt) = (numberAt 10 ws c.limitAt,
      ws.drop (c.limitAt + 1)) :=
    intTokens_drop (hint c.limitAt (by unfold numbersAt; split <;> simp))
  have hoffset : intTokens 0 (ws.drop (c.limitAt + 1)) = (numberAt 0 ws (c.limitAt + 1),
      ws.drop (c.limitAt + 1 + 1)) :=
    intTokens_drop (hint (c.limitAt + 1) (by unfold numbersAt; split <;> simp))
  have hdate : ∀ i, (ws.drop c.datesAt).getD i [] = ws.getD (c.datesAt + i) [] := by
    simp [List.getD]
  simp only [reads, htype, hlimits, hlimit, hoffset, hdate, Nat.add_zero, asks]

/-- The extraction does not go on behind the number of this token. -/
def Stops (t : Bytes) : Prop :=
  (numeral t).2.1 = [] ∨ numeralValue t < intMin ∨ intMax < numeralValue t

instance (t : Bytes) : Decidable (Stops t) := inferInstanceAs (Decidable (_ ∨ _ ∨ _))

/-- The tokens that are left behind the number of the first: what follows its digits stays a
token. -/
def tokensBehind (t : Bytes) (ts : List Bytes) : List Bytes :=
  if Stops t then [] else behind (numeral t).2.2 ts

/-- The limit at the start of these tokens, or the offset behind it, is out of range. -/
def LimitsRefused : List Bytes → Prop
  | [] => False
  | t :: ts => numeralValue t ≤ 0 ∨ ∃ u ∈ (tokensBehind t ts).head?, numeralValue u < 0

def DatesRefused (c : QueryCommand) (ts : List Bytes) : Prop :=
  (c.dated = true ∧ ts.length < 2) ∨ LimitsRefused (c.behindDates ts)

def Refused (c : QueryCommand) (ts : List Bytes) : Prop :=
  if c.typed then match ts with
    | [] => c.DatesRefused []
    | t :: ts => numeralValue t < 0 ∨ c.DatesRefused (tokensBehind t ts)
  else c.DatesRefused ts

theorem numeralValue_of_nil {t : Bytes} (h : (numeral t).2.1 = []) : numeralValue t = 0 := by
  simp [numeralValue, h, digitsValue]

theorem intTokens_cons (old : ℤ) (t : Bytes) (ts : List Bytes) :
    ((intTokens old (t :: ts)).1 < 0 ↔ numeralValue t < 0) ∧
      ((intTokens old (t :: ts)).1 ≤ 0 ↔ numeralValue t ≤ 0) ∧
      (intTokens old (t :: ts)).2 = tokensBehind t ts := by
  have hmin : intMin < 0 := by decide
  have hmax : 0 < intMax := by decide
  by_cases hdigits : (numeral t).2.1 = []
  · have hstops : Stops t := .inl hdigits
    simp [intTokens, tokensBehind, hdigits, hstops, numeralValue_of_nil]
  rw [intTokens, if_neg hdigits]
  split_ifs with hlow hhigh
  · have hstops : Stops t := .inr (.inl hlow)
    simp only [tokensBehind, hstops, if_true, and_true]
    omega
  · have hstops : Stops t := .inr (.inr hhigh)
    simp only [tokensBehind, hstops, if_true, and_true]
    omega
  · have hgoes : ¬Stops t := fun h => h.elim hdigits fun h => h.elim hlow hhigh
    simp [tokensBehind, hgoes]

theorem limitsRefused_iff (ts : List Bytes) : LimitsRefused ts ↔
    (intTokens 10 ts).1 ≤ 0 ∨ (intTokens 0 (intTokens 10 ts).2).1 < 0 := by
  cases ts with
  | nil => simp [LimitsRefused, intTokens]
  | cons t ts =>
    obtain ⟨-, hlimit, hbehind⟩ := intTokens_cons 10 t ts
    rw [hlimit, hbehind, LimitsRefused]
    refine or_congr_right ?_
    cases tokensBehind t ts with
    | nil => simp [intTokens]
    | cons u us => simp [(intTokens_cons 0 u us).1]

theorem datesRefused_iff (c : QueryCommand) {ts : List Bytes} (hts : ∀ t ∈ ts, t ≠ []) :
    c.DatesRefused ts ↔ (c.dated = true ∧ (ts.getD 0 [] = [] ∨ ts.getD 1 [] = [])) ∨
      (intTokens 10 (c.behindDates ts)).1 ≤ 0 ∨
      (intTokens 0 (intTokens 10 (c.behindDates ts)).2).1 < 0 := by
  have hmissing : ts.length < 2 ↔ ts.getD 0 [] = [] ∨ ts.getD 1 [] = [] := by
    match ts with
    | [] => simp
    | [t] => simp
    | t :: u :: ts =>
      have ht : t ≠ [] := hts t (by simp)
      have hu : u ≠ [] := hts u (by simp)
      simp [ht, hu]
  rw [DatesRefused, limitsRefused_iff, hmissing]

theorem mem_tokensBehind {t u : Bytes} {ts : List Bytes} (hts : ∀ t ∈ ts, t ≠ [])
    (hu : u ∈ tokensBehind t ts) : u ≠ [] := by
  unfold tokensBehind behind at hu
  split_ifs at hu with hstops hrest
  · cases hu
  · exact hts u hu
  · rcases List.mem_cons.mp hu with rfl | hu
    · exact hrest
    · exact hts u hu

theorem reads_invalid {c : QueryCommand} {ws : List Bytes} (hws : ∀ w ∈ ws, w ≠ []) :
    (c.reads ws).valid = false ↔ ws = [] ∨ c.Refused ws.tail := by
  have hemail : (ws.getD 0 []).isEmpty = true ↔ ws = [] := by
    cases ws with
    | nil => simp
    | cons w ws => simpa using hws w List.mem_cons_self
  have htail : ∀ t ∈ ws.tail, t ≠ [] := fun t ht => hws t (List.mem_of_mem_tail ht)
  have hread : (c.reads ws).valid = false ↔ ws = [] ∨ (c.readType ws.tail).1 < 0 ∨
      c.DatesRefused (c.readType ws.tail).2 := by
    have hbehind : ∀ t ∈ (c.readType ws.tail).2, t ≠ [] := by
      unfold readType
      split
      · cases h : ws.tail with
        | nil => simp [intTokens]
        | cons t ts =>
          rw [h] at htail
          rw [(intTokens_cons 0 t ts).2.2]
          exact fun u hu => mem_tokensBehind (fun x hx => htail x (List.mem_cons_of_mem _ hx)) hu
      · exact htail
    rw [datesRefused_iff c hbehind, ← hemail]
    simp only [reads, build, Bool.not_eq_false', Bool.or_eq_true, Bool.and_eq_true,
      decide_eq_true_eq, List.isEmpty_iff]
    tauto
  rw [hread]
  refine or_congr_right ?_
  unfold readType Refused
  cases c.typed with
  | false => simp
  | true =>
    cases ws.tail with
    | nil => simp [intTokens]
    | cons t ts => simp [(intTokens_cons 0 t ts).1, (intTokens_cons 0 t ts).2.2]

end CommandHandler.QueryCommand

/-- The questions put to the history. -/
def questions (tr : List (Event (Res (P := P)))) : List (HistoryFilter × ℤ × ℤ) :=
  tr.filterMap fun e => match e with
    | ⟨.selectHistory f limit offset, _⟩ => some (f, limit, offset)
    | _ => none

def FindsUser (tr : List (Event (Res (P := P)))) : Prop :=
  ∀ (email : Bytes) (row : Option UserRow),
    (⟨.selectUserByEmail email, row⟩ : Event (Res (P := P))) ∈ tr → row ≠ none

theorem findsUser_pair (email : Bytes) (row : UserRow) (f : HistoryFilter) (limit offset : ℤ)
    (rows : List (HistoryRow P)) :
    FindsUser [⟨.selectUserByEmail email, some row⟩, ⟨.selectHistory f limit offset, rows⟩] := by
  intro email row hmem
  rcases List.mem_cons.mp hmem with h | h
  · cases h
    simp
  · cases List.mem_singleton.mp h

/-- A misspelt number is answered with an error; otherwise, if all is in range, the
history is asked what the payload says. -/
structure AsAsked (c : QueryCommand) (ws : List Bytes) (tr : List (Event (Res (P := P))))
    (x : Option Bytes) : Prop where
  misspelt : c.Misspelt ws → x = some (errorReply 400 "Invalid input format")
  asked : ¬c.Misspelt ws → (c.asks ws).valid = true →
    questions tr = [((c.asks ws).filter, (c.asks ws).limit, (c.asks ws).offset)]

section Runs

variable {q : HistoryQuery} {E : Env (Res (P := P)) (World P × Socket)} {s s' : World P × Socket}
  {tr : List (Event (Res (P := P)))} {x : Option Bytes}

theorem runs_refused (hv : q.valid = false) (h : Prog.Runs E q.answer s tr x s') :
    x = some (errorReply 400 "Invalid input format") := by
  rw [HistoryQuery.answer_eq, hv] at h
  exact h.2.1

theorem runs_asked (hv : q.valid = true) (h : Prog.Runs E q.answer s tr x s')
    (hfinds : FindsUser tr) : questions tr = [(q.filter, q.limit, q.offset)] := by
  rcases runs_valid hv h with ⟨-, -, rfl⟩ | ⟨user, s₁, rows, -, -, -, rfl⟩
  · exact absurd rfl (hfinds _ none List.mem_cons_self)
  · rfl

def noEntries : Bytes :=
  ascii ("\x7b\"code\":200,\"data\":[],\"message\":\"History retrieved successfully\"," ++
    "\"status\":\"success\"\x7d")

theorem queryReply_nil (f : HistoryFilter) : queryReply (P := P) f [] = some noEntries := by
  have hentries : entries (P := P) f [] = [] := by
    unfold entries
    cases f.eventType <;> rfl
  rw [queryReply, hentries]
  rfl

theorem exists_asked (hv : q.valid = true) :
    ∃ (s : World P × Socket) (tr : List (Event (Res (P := P)))),
      Prog.Runs (World.Serves fun _ _ => True) q.answer s tr (some noEntries) s ∧
        FindsUser tr := by
  let user : UserRow := ⟨1, cstr q.email, [], []⟩
  let s : World P × Socket := (⟨Reference.emptyFs, ⟨⟨[user], 1⟩, [], 0⟩⟩, ⟨[], []⟩)
  have hlookup : World.answer .ok (.selectUserByEmail (cstr q.email)) s = (some user, s) := by
    simp [World.answer, Outcome.failed, Users.selectByEmail, s, user]
  have hselect : World.answer (.fail 0) (.selectHistory q.filter q.limit q.offset) s = ([], s) := by
    simp [World.answer, Outcome.failed, Outcome.number]
  have hrun := runs_answer_of (E := World.Serves fun _ _ => True) hv ⟨.ok, trivial, hlookup⟩
    ⟨.fail 0, trivial, hselect⟩
  rw [queryReply_nil] at hrun
  exact ⟨s, _, hrun, findsUser_pair _ _ _ _ _ _⟩

end Runs

/-- A history query never answers a question that was not asked exactly if each payload with
a misspelt number is caught by the range checks. -/
theorem query_asks_exactly_iff (c : QueryCommand) (payload : Bytes) :
    (∀ (allowed : Call P → Outcome → Prop) (s s' : World P × Socket)
      (tr : List (Event (Res (P := P)))) (x : Option Bytes),
      Prog.Runs (World.Serves allowed) (c.handler payload) s tr x s' → FindsUser tr →
      AsAsked c (words payload) tr x) ↔
    (c.Misspelt (words payload) → c.Refused (words payload).tail) := by
  have hws : ∀ w ∈ words payload, w ≠ [] := fun _ => words_ne_nil
  constructor
  · intro h hmisspelt
    by_contra hrefused
    have hne : words payload ≠ [] := by
      rintro hnil
      obtain ⟨i, -, t, ht, -⟩ := hmisspelt
      simp [hnil] at ht
    have hv : (c.query payload).valid = true := by
      rw [c.query_tokens, ← Bool.not_eq_false, QueryCommand.reads_invalid hws]
      exact not_or.mpr ⟨hne, hrefused⟩
    obtain ⟨s, tr, hrun, hfinds⟩ := exists_asked (P := P) hv
    rw [← c.handler_eq] at hrun
    have hreply := (h _ s s tr _ hrun hfinds).misspelt hmisspelt
    exact absurd hreply (by decide)
  · intro h allowed s s' tr x hrun hfinds
    rw [c.handler_eq] at hrun
    constructor
    · intro hmisspelt
      refine runs_refused ?_ hrun
      rw [c.query_tokens, QueryCommand.reads_invalid hws]
      exact .inr (h hmisspelt)
    · intro hspelt hvalid
      have hquery : c.query payload = c.asks (words payload) := by
        rw [c.query_tokens, QueryCommand.reads_eq_asks hspelt]
      rw [hquery] at hrun
      exact runs_asked hvalid hrun hfinds

def queriedWorld : World Platform.reference :=
  ⟨Reference.emptyFs, ⟨⟨[⟨1, ascii "u", [], []⟩], 1⟩, [], 0⟩⟩

/-- The type x counts as type 0, and the defaults follow. -/
theorem misspelt_type_is_answered : ∃ tr s',
    Prog.Runs (World.Serves World.Faultless) (QueryCommand.byType.handler (ascii "u x"))
      (queriedWorld, ⟨[], []⟩) tr (some noEntries) s' ∧ FindsUser tr ∧
    questions tr = [(⟨some 0, none⟩, 10, 0)] ∧
    QueryCommand.byType.Misspelt (words (ascii "u x")) ∧
    ¬AsAsked .byType (words (ascii "u x")) tr (some noEntries) := by
  have hrun := Server.runs (QueryCommand.byType.handler (ascii "u x")) (queriedWorld, ⟨[], []⟩)
    (x := some noEntries) (by decide +kernel)
  have hwords : words (ascii "u x") = [ascii "u", ascii "x"] := by decide
  have hmisspelt : QueryCommand.byType.Misspelt (words (ascii "u x")) :=
    ⟨1, by decide, ascii "x", by rw [hwords]; rfl, by decide⟩
  have hlog : (Server.run (QueryCommand.byType.handler (ascii "u x"))
      (queriedWorld, ⟨[], []⟩)).1 = [⟨.selectUserByEmail (ascii "u"), some ⟨1, ascii "u", [], []⟩⟩,
        ⟨.selectHistory ⟨some 0, none⟩ 10 0, []⟩] := by rfl
  refine ⟨_, _, hlog ▸ hrun, findsUser_pair _ _ _ _ _ _, rfl, hmisspelt, fun h => ?_⟩
  exact absurd (h.misspelt hmisspelt) (by decide)

end CctvServer
