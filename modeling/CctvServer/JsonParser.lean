import CctvServer.JsonTokens
import Mathlib.Logic.Function.Iterate

namespace CctvServer

/-- `strtod` and the printing of what it returns. The laws are what the library promises
of its printed numbers: the shortest text that is read back as the same number, with a
point or an exponent. -/
structure Floats where
  /-- The text that is printed for the number read; `none` if it is not finite. -/
  read : Bytes → Option FloatText
  number : ∀ b x, read b = some x → JsonText.Number x.1
  float : ∀ b x, read b = some x → ∃ c ∈ x.1, c = 46 ∨ JsonLexer.isExponent c = true
  again : ∀ b x, read b = some x → read x.1 = some x

namespace JsonParser

open JsonLexer

/-- An array or object that is not closed, with what it holds so far and the key of the
value that comes next. -/
inductive Frame
  | array (items : List Json)
  | object (members : List (Bytes × Json)) (key : Bytes)

/-- The loop of `sax_parse_internal`, over the values that the callbacks build: about to
look at the last token, behind a complete value, or finished. -/
inductive State
  | value (last : Token) (rest : Bytes) (stack : List Frame)
  | parsed (v : Json) (rest : Bytes) (stack : List Frame)
  | done (v : Json) (rest : Bytes)
  | error

section Machine

variable (F : Floats)

def next (b : Bytes) (stack : List Frame) : State := .value (scan b).1 (scan b).2 stack

def separator (members : List (Bytes × Json)) (key b : Bytes) (stack : List Frame) : State :=
  match scan b with
  | (.nameSeparator, b) => next b (.object members key :: stack)
  | _ => .error

def onValue (rest : Bytes) (stack : List Frame) : Token → State
  | .beginObject => match scan rest with
      | (.endObject, rest) => .parsed (.obj []) rest stack
      | (.valueString key, rest) => separator [] key rest stack
      | _ => .error
  | .beginArray => match scan rest with
      | (.endArray, rest) => .parsed (.arr []) rest stack
      | (last, rest) => .value last rest (.array [] :: stack)
  | .valueFloat t => match F.read t with
      | some x => .parsed (.float x) rest stack
      | none => .error
  | .literalFalse => .parsed (.bool false) rest stack
  | .literalNull => .parsed .null rest stack
  | .literalTrue => .parsed (.bool true) rest stack
  | .valueInteger n => .parsed (.int n) rest stack
  | .valueString s => .parsed (.str s) rest stack
  | .valueUnsigned n => .parsed (.int n) rest stack
  | _ => .error

def onParsed (v : Json) (rest : Bytes) : List Frame → State
  | [] => .done v rest
  | .array items :: stack => match scan rest with
      | (.valueSeparator, rest) => next rest (.array (items ++ [v]) :: stack)
      | (.endArray, rest) => .parsed (.arr (items ++ [v])) rest stack
      | _ => .error
  | .object members key :: stack => match scan rest with
      | (.valueSeparator, rest) => match scan rest with
          | (.valueString key', rest) => separator (Json.setKey key v members) key' rest stack
          | _ => .error
      | (.endObject, rest) => .parsed (.obj (Json.setKey key v members)) rest stack
      | _ => .error

def step : State → State
  | .value last rest stack => onValue F rest stack last
  | .parsed v rest stack => onParsed v rest stack
  | .done v rest => .done v rest
  | .error => .error

def start (b : Bytes) : State := .value (scanFirst b).1 (scanFirst b).2 []

/-- `input >> j`: the value and what is left of the input, which is not looked at;
`none` is the exception. Every token has at most two turns. -/
def parse (b : Bytes) : Option (Json × Bytes) :=
  match (step F)^[2 * b.length + 3] (start b) with
  | .done v rest => some (v, rest)
  | _ => none

def State.Final : State → Prop
  | .done _ _ | .error => True
  | _ => False

/-- A bound on the turns that are left. -/
def State.weight : State → ℕ
  | .value .parseError _ _ | .value .endOfInput _ _ => 1
  | .value _ rest _ => 2 * rest.length + 3
  | .parsed _ rest _ => 2 * rest.length + 2
  | .done _ _ | .error => 0

theorem weight_value_le (last : Token) (rest : Bytes) (stack : List Frame) :
    0 < (State.value last rest stack).weight ∧
      (State.value last rest stack).weight ≤ 2 * rest.length + 3 := by
  cases last <;> simp only [State.weight] <;> omega

theorem scan_lt {b rest : Bytes} {token : Token} (h : Reads b token rest) :
    rest.length < b.length := by
  obtain ⟨w, t, rfl, -, hlex, -, -⟩ := h
  simp only [List.length_append]
  have ht : 0 < t.length := by
    cases hlex with
    | string quoted =>
      cases quoted
      simp
    | number number =>
      obtain ⟨c, u, rfl, -⟩ := Number.cons number
      simp
    | _ => decide
  omega

theorem weight_of_scan {b rest : Bytes} {last : Token} (h : scan b = (last, rest))
    (stack : List Frame) : (State.value last rest stack).weight ≤ 2 * b.length + 1 := by
  rcases scans_of_scan h with rfl | rfl | hread
  · simp [State.weight]
  · simp [State.weight]
  · have hlt := scan_lt hread
    have hle := (weight_value_le last rest stack).2
    omega

theorem weight_next (b : Bytes) (stack : List Frame) :
    (next b stack).weight ≤ 2 * b.length + 1 := weight_of_scan rfl stack

theorem weight_separator (members : List (Bytes × Json)) (key b : Bytes) (stack : List Frame) :
    (separator members key b stack).weight ≤ 2 * b.length + 1 := by
  rw [separator]
  split
  · rename_i rest h
    have hlt := scan_lt (.of_scan h (by simp) (by simp))
    have hle := weight_next rest (.object members key :: stack)
    omega
  · simp [State.weight]

theorem weight_onValue (rest : Bytes) (stack : List Frame) (last : Token) :
    (onValue F rest stack last).weight < (State.value last rest stack).weight := by
  cases last with
  | beginObject =>
    have hweight : (State.value .beginObject rest stack).weight = 2 * rest.length + 3 := rfl
    rw [onValue, hweight]
    split
    · rename_i rest' h
      have hlt := scan_lt (.of_scan h (by simp) (by simp))
      simp only [State.weight]
      omega
    · rename_i key rest' h
      have hlt := scan_lt (.of_scan h (by simp) (by simp))
      have hle := weight_separator [] key rest' stack
      omega
    · simp [State.weight]
  | beginArray =>
    have hweight : (State.value .beginArray rest stack).weight = 2 * rest.length + 3 := rfl
    rw [onValue, hweight]
    split
    · rename_i rest' h
      have hlt := scan_lt (.of_scan h (by simp) (by simp))
      simp only [State.weight]
      omega
    · rename_i last rest' _ h
      have hle := weight_of_scan h (.array [] :: stack)
      omega
  | valueFloat t =>
    rw [onValue]
    split <;> simp [State.weight]
  | _ => simp [onValue, State.weight]

theorem weight_onParsed (v : Json) (rest : Bytes) (stack : List Frame) :
    (onParsed v rest stack).weight < (State.parsed v rest stack).weight := by
  have hparsed : ∀ v rest stack, (State.parsed v rest stack).weight = 2 * rest.length + 2 :=
    fun _ _ _ => rfl
  cases stack with
  | nil => simp [onParsed, State.weight]
  | cons frame stack =>
    cases frame with
    | array items =>
      rw [onParsed, hparsed]
      split
      · rename_i rest' h
        have hlt := scan_lt (.of_scan h (by simp) (by simp))
        have hle := weight_next rest' (.array (items ++ [v]) :: stack)
        omega
      · rename_i rest' h
        have hlt := scan_lt (.of_scan h (by simp) (by simp))
        rw [hparsed]
        omega
      · simp [State.weight]
    | object members key =>
      rw [onParsed, hparsed]
      split
      · rename_i rest' h
        have hlt := scan_lt (.of_scan h (by simp) (by simp))
        split
        · rename_i key' rest'' h'
          have hlt' := scan_lt (.of_scan h' (by simp) (by simp))
          have hle := weight_separator (Json.setKey key v members) key' rest'' stack
          omega
        · simp [State.weight]
      · rename_i rest' h
        have hlt := scan_lt (.of_scan h (by simp) (by simp))
        rw [hparsed]
        omega
      · simp [State.weight]

theorem weight_step {s : State} (h : ¬s.Final) : (step F s).weight < s.weight := by
  cases s with
  | value last rest stack => exact weight_onValue F rest stack last
  | parsed v rest stack => exact weight_onParsed v rest stack
  | _ => exact absurd trivial h

theorem step_final {s : State} (h : s.Final) : step F s = s := by
  cases s with
  | done | error => rfl
  | _ => exact h.elim

theorem iterate_final {s : State} (h : s.Final) (n : ℕ) : (step F)^[n] s = s :=
  Function.iterate_fixed (step_final F h) n

/-- The loop ends. -/
theorem final_of_weight {n : ℕ} {s : State} (h : s.weight ≤ n) : ((step F)^[n] s).Final := by
  induction n generalizing s with
  | zero =>
    by_contra hs
    exact absurd (weight_step F hs) (Nat.not_lt.mpr (h.trans (Nat.zero_le _)))
  | succ n ih =>
    rw [Function.iterate_succ_apply]
    by_cases hs : s.Final
    · rw [step_final F hs, iterate_final F hs]
      exact hs
    · have hlt := weight_step F hs
      exact ih (by omega)

theorem weight_start (b : Bytes) : (start b).weight ≤ 2 * b.length + 3 := by
  rw [start, scanFirst]
  split
  · rename_i b' h
    obtain ⟨m, -, rfl⟩ := mark_of_skipBom h
    have hle := weight_next b' []
    rw [List.length_append]
    exact hle.trans (by omega)
  · simp [State.weight]

def Reaches (s s' : State) : Prop := ∃ n, (step F)^[n] s = s'

theorem Reaches.refl (s : State) : Reaches F s s := ⟨0, rfl⟩

variable {F}

theorem Reaches.trans {s s' s'' : State} (h : Reaches F s s') (h' : Reaches F s' s'') :
    Reaches F s s'' := by
  obtain ⟨n, rfl⟩ := h
  obtain ⟨m, rfl⟩ := h'
  exact ⟨m + n, Function.iterate_add_apply _ _ _ _⟩

theorem Reaches.head {s s' : State} (h : Reaches F (step F s) s') : Reaches F s s' :=
  .trans ⟨1, rfl⟩ h

/-- A final state that is reached at all is the one that the loop ends in. -/
theorem Reaches.final {s s' : State} (h : Reaches F s s') (hs' : s'.Final) {n : ℕ}
    (hn : s.weight ≤ n) : (step F)^[n] s = s' := by
  obtain ⟨m, rfl⟩ := h
  have hfinal := final_of_weight F hn
  rcases Nat.le_total m n with hmn | hmn
  · rw [← Nat.sub_add_cancel hmn, Function.iterate_add_apply, iterate_final F hs']
  · rw [← Nat.sub_add_cancel hmn, Function.iterate_add_apply, iterate_final F hfinal]

end Machine

end JsonParser

end CctvServer
