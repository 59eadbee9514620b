import CctvServer.HistoryFields
import CctvServer.Reference

namespace CctvServer

open CommandHandler IStream

variable {P : Platform}

namespace IStream

def Signed (Q : Bytes → Prop) (t : Bytes) : Prop := Q t ∨ ∃ u, Q u ∧ (t = 43 :: u ∨ t = 45 :: u)

def IsInteger : Bytes → Prop := Signed IsNumeral

def IsReal : Bytes → Prop := Signed IsDecimal

theorem isNumeral_iff (t : Bytes) :
    IsNumeral t ↔ t.takeWhile isDigit ≠ [] ∧ t.dropWhile isDigit = [] := by
  have hall : (∀ c ∈ t, isDigit c = true) ↔ t.dropWhile isDigit = [] := by
    rw [List.dropWhile_eq_nil_iff]
  constructor
  · rintro ⟨hne, hd⟩
    rw [List.takeWhile_eq_self_iff.mpr hd]
    exact ⟨hne, hall.mp hd⟩
  · rintro ⟨hne, hd⟩
    refine ⟨fun h => hne (by rw [h]; rfl), hall.mpr hd⟩

theorem isInteger_iff (t : Bytes) :
    IsInteger t ↔ (numeral t).2.1 ≠ [] ∧ (numeral t).2.2 = [] := by
  have hsign : ∀ c u, isDigit c = false → ¬IsNumeral (c :: u) := by
    intro c u hc h
    exact absurd (h.2 c List.mem_cons_self) (by simp [hc])
  have hsigned : ∀ c u, c = 43 ∨ c = 45 → (IsInteger (c :: u) ↔ IsNumeral u) := by
    intro c u hc
    constructor
    · rintro (h | ⟨v, hv, h | h⟩)
      · exact absurd h (hsign c u (by rcases hc with rfl | rfl <;> decide))
      · exact (List.cons.inj h).2 ▸ hv
      · exact (List.cons.inj h).2 ▸ hv
    · rintro h
      rcases hc with rfl | rfl
      · exact .inr ⟨u, h, .inl rfl⟩
      · exact .inr ⟨u, h, .inr rfl⟩
  by_cases h45 : t.head? = some 45
  · obtain ⟨u, rfl⟩ := List.head?_eq_some_iff.mp h45
    exact (hsigned 45 u (.inr rfl)).trans (isNumeral_iff u)
  · by_cases h43 : t.head? = some 43
    · obtain ⟨u, rfl⟩ := List.head?_eq_some_iff.mp h43
      exact (hsigned 43 u (.inl rfl)).trans (isNumeral_iff u)
    · rw [numeral_unsigned h45 h43, ← isNumeral_iff]
      constructor
      · rintro (h | ⟨u, -, rfl | rfl⟩)
        · exact h
        · exact absurd rfl h43
        · exact absurd rfl h45
      · exact .inl

instance : DecidablePred IsInteger := fun t => decidable_of_iff _ (isInteger_iff t).symm

end IStream

/-- What is stored for a number token. -/
def speedValue (P : Platform) (t : Bytes) : P.Speed := (P.strtof (floatLexeme t).1).1

/-- A decimal number in the range of a `float`. One below the range is negative, and no speed
is stored for it. -/
def IsSpeed (P : Platform) (t : Bytes) : Prop :=
  IsReal t ∧ ((P.strtof (floatLexeme t).1).2 = true ∨ P.nonneg (speedValue P t) = false)

/-- The tokens behind the plate number begin with an event type, and the speed that follows
the snapshots of a speeding record is a number. -/
def LegibleType (P : Platform) : List Bytes → Prop
  | [] => False
  | t :: ts => IsInteger t ∧ 0 ≤ numeralValue t ∧ numeralValue t ≤ 2 ∧
      (numeralValue t = 1 → ∀ v ∈ ts[2]?, IsSpeed P v)

def Legible (P : Platform) (ws : List Bytes) : Prop := LegibleType P (ws.drop 3)

def sentSpeed (P : Platform) : List Bytes → Option P.Speed
  | [] => none
  | t :: ts =>
      if numeralValue t = 1 then ((ts[2]?).map (speedValue P)).filter (P.nonneg ·) else none

/-- What ADD_HISTORY should do: it stores the numbers of a record and refuses all else. -/
structure ReadsExactly (ws : List Bytes) (s : World P × Socket) (x : Option Bytes)
    (s' : World P × Socket) : Prop where
  accepted : x = some created → Legible P ws ∧ ∃ r : HistoryRow P,
    s'.1.db.history = s.1.db.history ++ [r] ∧ (∀ t ∈ ws[3]?, r.eventType = numeralValue t) ∧
      r.speed = sentSpeed P (ws.drop 3)
  refused : ¬Legible P ws → x = some (errorReply 400 "Invalid input format") ∧
    s'.1.db.history = s.1.db.history

/-- A type token whose number is read as it stands, or is refused for its value. -/
def TypeIsClear (t : Bytes) : Prop :=
  IsInteger t ∨ (numeral t).2.1 ≠ [] ∧ (numeralValue t < 0 ∨ 2 < numeralValue t)

/-- The payloads that are read exactly: there are not just three tokens, the type is clear, and
the speed of a speeding record is a number in range. -/
def Unmistakable (P : Platform) (ws : List Bytes) : Prop :=
  ws.length ≠ 3 ∧ ∀ t ∈ ws[3]?, TypeIsClear t ∧
    (IsInteger t → numeralValue t = 1 → ∀ v ∈ ws[6]?, IsSpeed P v)

theorem intTokens_range {garbage : ℤ} {t : Bytes} {ts : List Bytes} :
    (0 ≤ (intTokens garbage (t :: ts)).1 ∧ (intTokens garbage (t :: ts)).1 ≤ 2) ↔
      (numeral t).2.1 = [] ∨ 0 ≤ numeralValue t ∧ numeralValue t ≤ 2 := by
  rw [intTokens]
  by_cases hdigits : (numeral t).2.1 = []
  · simp [hdigits]
  · rw [if_neg hdigits]
    unfold intMin intMax
    split
    · simp only [hdigits, false_or]
      omega
    · split
      · simp only [hdigits, false_or]
        omega
      · simp only [hdigits, false_or]

theorem accepted_iff {garbage : ℤ} {ws : List Bytes} (hws : ∀ w ∈ ws, w ≠ []) :
    Accepted (P := P) (ws.getD 0 [], historyFields P garbage ws) ↔
      3 ≤ ws.length ∧ 0 ≤ (intTokens garbage (ws.drop 3)).1 ∧
        (intTokens garbage (ws.drop 3)).1 ≤ 2 := by
  have himage : (historyFields P garbage ws).imagePath = ws.getD 1 [] := rfl
  have hplate : (historyFields P garbage ws).plateNumber = ws.getD 2 [] := rfl
  have htype : (historyFields P garbage ws).eventType = (intTokens garbage (ws.drop 3)).1 := rfl
  simp only [Accepted, himage, hplate, htype, not_or, not_lt]
  rcases ws with _ | ⟨a, _ | ⟨b, _ | ⟨c, rest⟩⟩⟩
  · simp
  · simp
  · simp
  · have ha : a ≠ [] := hws a (by simp)
    have hb : b ≠ [] := hws b (by simp)
    have hc : c ≠ [] := hws c (by simp)
    simp [ha, hb, hc]

/-- A record that is accepted although its tokens are not those of a record. -/
theorem accepted_of_mistakable {ws : List Bytes} (hws : ∀ w ∈ ws, w ≠ [])
    (h : ¬Unmistakable P ws) :
    Accepted (P := P) (ws.getD 0 [], historyFields P 0 ws) ∧ ¬Legible P ws := by
  rw [accepted_iff hws]
  by_cases hlen : ws.length = 3
  · have hdrop : ws.drop 3 = [] := List.drop_eq_nil_of_le hlen.le
    rw [Legible, hdrop]
    exact ⟨⟨hlen.ge, le_rfl, by decide⟩, id⟩
  · obtain ⟨t, ht, hclear⟩ : ∃ t ∈ ws[3]?, ¬(TypeIsClear t ∧
        (IsInteger t → numeralValue t = 1 → ∀ v ∈ ws[6]?, IsSpeed P v)) := by
      by_contra hall
      push Not at hall
      exact h ⟨hlen, fun t ht => hall t ht⟩
    obtain ⟨hlt, rfl⟩ := List.getElem?_eq_some_iff.mp ht
    have hdrop : ws.drop 3 = ws[3] :: ws.drop 4 := List.drop_eq_getElem_cons hlt
    have hspeed : (ws.drop 4)[2]? = ws[6]? := List.getElem?_drop
    rw [Legible, hdrop, LegibleType, intTokens_range, hspeed]
    refine ⟨⟨by omega, ?_⟩, ?_⟩
    · by_contra hrange
      rw [not_or, not_and_or, not_le, not_le] at hrange
      refine hclear ⟨.inr hrange, fun _ hone => ?_⟩
      omega
    · rintro ⟨hint, -, -, hreal⟩
      exact hclear ⟨.inl hint, fun _ => hreal⟩

theorem floatTokens_speed (ts : List Bytes) :
    (if P.nonneg (floatTokens P.strtof P.minusOne (ts.drop 2)) = true then
      some (floatTokens P.strtof P.minusOne (ts.drop 2)) else none) =
      ((ts[2]?).map (speedValue P)).filter (P.nonneg ·) := by
  cases h : ts[2]? with
  | none =>
    have hdrop : ts.drop 2 = [] := List.drop_eq_nil_of_le (List.getElem?_eq_none_iff.mp h)
    rw [hdrop, floatTokens, P.minusOne_neg]
    rfl
  | some v =>
    obtain ⟨hlt, rfl⟩ := List.getElem?_eq_some_iff.mp h
    rw [List.drop_eq_getElem_cons hlt, floatTokens, Option.map_some, Option.filter_some]
    rfl

theorem legible_of_accepted {garbage : ℤ} {ws : List Bytes} (hws : ∀ w ∈ ws, w ≠ [])
    (h : Unmistakable P ws) (hacc : Accepted (P := P) (ws.getD 0 [], historyFields P garbage ws)) :
    Legible P ws ∧ (∀ t ∈ ws[3]?, (historyFields P garbage ws).eventType = numeralValue t) ∧
      (historyFields P garbage ws).speed = sentSpeed P (ws.drop 3) := by
  obtain ⟨hlen, hrange⟩ := (accepted_iff hws).mp hacc
  have hlt : 3 < ws.length := lt_of_le_of_ne hlen (Ne.symm h.1)
  have hdrop : ws.drop 3 = ws[3] :: ws.drop 4 := List.drop_eq_getElem_cons hlt
  have hspeed : (ws.drop 4)[2]? = ws[6]? := List.getElem?_drop
  obtain ⟨hclear, hreal⟩ := h.2 ws[3] (List.getElem?_eq_getElem hlt)
  rw [hdrop, intTokens_range] at hrange
  have hint : IsInteger ws[3] := by
    rcases hclear with hint | ⟨hdigits, hout⟩
    · exact hint
    · rcases hrange with hnone | hin
      · exact absurd hnone hdigits
      · omega
  have hin : 0 ≤ numeralValue ws[3] ∧ numeralValue ws[3] ≤ 2 := by
    rcases hrange with hnone | hin
    · exact absurd hnone ((isInteger_iff _).mp hint).1
    · exact hin
  have hread : intTokens garbage (ws.drop 3) = (numeralValue ws[3], ws.drop 4) := by
    obtain ⟨hdigits, hrest⟩ := (isInteger_iff _).mp hint
    have hmin : intMin ≤ numeralValue ws[3] := le_trans (by decide) hin.1
    have hmax : numeralValue ws[3] ≤ intMax := hin.2.trans (by decide)
    rw [hdrop, intTokens_fits hdigits hrest hmin hmax]
  refine ⟨?_, ?_, ?_⟩
  · rw [Legible, hdrop, LegibleType, hspeed]
    exact ⟨hint, hin.1, hin.2, hreal hint⟩
  · intro t ht
    rw [List.getElem?_eq_getElem hlt] at ht
    cases ht
    exact congrArg Prod.fst hread
  · have hfields : (historyFields P garbage ws).speed =
        if numeralValue ws[3] = 1 ∧
            P.nonneg (floatTokens P.strtof P.minusOne ((ws.drop 4).drop 2)) = true then
          some (floatTokens P.strtof P.minusOne ((ws.drop 4).drop 2))
        else none := by
      unfold historyFields
      rw [hread]
    rw [hfields, hdrop, sentSpeed]
    by_cases hone : numeralValue ws[3] = 1
    · simp only [hone, true_and, if_true]
      exact floatTokens_speed _
    · rw [if_neg hone, if_neg fun h => hone h.1]

theorem exists_created {payload : Bytes} (s : World P × Socket)
    (hacc : Accepted (P := P) (parseHistory payload (columnInt 0))) :
    ∃ tr s', Prog.Runs (World.Serves World.Faultless) (handleAddHistory payload) s tr
      (some created) s' := by
  refine ⟨_, _, Server.runs (handleAddHistory payload) s ?_⟩
  rw [handleAddHistory_eq]
  change (Server.run (storeRecord (parseHistory payload (columnInt 0))) s).2.1 = some created
  rw [storeRecord, if_neg hacc]
  rfl

/-- ADD_HISTORY stores what it can read and refuses all else, whatever the unwritten event type
starts with, if and only if the payload is unmistakable. -/
theorem add_history_reads_exactly_iff (payload : Bytes) :
    (∀ (allowed : Call P → Outcome → Prop) (s s' : World P × Socket)
      (tr : List (Event (Res (P := P)))) (x : Option Bytes),
      Prog.Runs (World.Serves allowed) (handleAddHistory payload) s tr x s' →
      ReadsExactly (words payload) s x s') ↔ Unmistakable P (words payload) := by
  have hws : ∀ w ∈ words payload, w ≠ [] := fun _ => words_ne_nil
  constructor
  · intro h
    by_contra hmistakable
    obtain ⟨hacc, hlegible⟩ := accepted_of_mistakable (P := P) hws hmistakable
    have hacc' : Accepted (P := P) (parseHistory payload (columnInt 0)) := by
      rw [parseHistory_tokens]
      exact hacc
    obtain ⟨tr, s', hrun⟩ :=
      exists_created (⟨Reference.emptyFs, Reference.emptyDb P⟩, ⟨[], []⟩) hacc'
    exact hlegible ((h _ _ _ _ _ hrun).accepted rfl).1
  · intro h allowed s s' tr x hrun
    obtain ⟨-, garbage, ⟨-, rfl, hhist⟩ | ⟨hacc, hstored⟩⟩ := runs_handleAddHistory hrun
    · exact ⟨fun hx => absurd hx (by decide), fun _ => ⟨rfl, hhist⟩⟩
    · rw [parseHistory_tokens] at hacc hstored
      obtain ⟨hlegible, htype, hspeed⟩ := legible_of_accepted hws h hacc
      refine ⟨fun hx => ⟨hlegible, ?_⟩, fun hnot => absurd hlegible hnot⟩
      rcases hstored with ⟨-, hhist⟩ | ⟨rfl, -⟩
      · exact ⟨_, hhist, htype, hspeed⟩
      · exact absurd hx (by decide)

def untyped : Bytes := ascii "2025-05-30_15:00:00 images/b.jpg 12A3456 speeding"

/-- The text counts as type 0. -/
theorem unreadable_type_is_stored :
    ∃ tr s, Prog.Runs (World.Serves World.Faultless) (handleAddHistory untyped)
        (⟨Reference.emptyFs, Reference.emptyDb .reference⟩, ⟨[], []⟩) tr (some created) s ∧
      s.1.db.history.map (·.eventType) = [0] ∧ ¬Legible .reference (words untyped) ∧
      ¬ReadsExactly (words untyped)
        (⟨Reference.emptyFs, Reference.emptyDb .reference⟩, ⟨[], []⟩) (some created) s := by
  have hlegible : ¬Legible .reference (words untyped) := by
    have hword : words untyped = [ascii "2025-05-30_15:00:00", ascii "images/b.jpg",
        ascii "12A3456", ascii "speeding"] := by decide
    rw [hword]
    exact fun h => absurd h.1 (by decide)
  exact ⟨_, _, Server.runs (handleAddHistory untyped) _ (by decide), by decide, hlegible,
    fun h => hlegible (h.accepted rfl).1⟩

end CctvServer
