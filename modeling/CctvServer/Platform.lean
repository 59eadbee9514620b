import CctvServer.Json

namespace CctvServer

inductive SqlValue (N : Type)
  | num (n : N)
  | text (b : Bytes)

/-- SQLite's comparison: numbers come before texts, texts compare bytewise. -/
def SqlValue.le {N : Type} (numLe : N → N → Bool) : SqlValue N → SqlValue N → Bool
  | .num a, .num b => numLe a b
  | .num _, .text _ => true
  | .text _, .num _ => false
  | .text a, .text b => decide (a ≤ b)

/-- The characters of SQLite's numeric literals, with the blanks around them. -/
def isNumericChar (c : UInt8) : Bool :=
  isDigit c || isSpace c || c == 43 || c == 45 || c == 46 || c == 69 || c == 101

/-- The code the server is linked with: SQLite's numbers and sorter, the `float`
type and `strtof`, OpenSSL's SHA-256, the clock and the JSON parser. The laws are
what the documentation promises and the server relies on. -/
structure Platform where
  Num : Type
  numLe : Num → Num → Bool
  /-- The number a text is stored as when it is a numeric literal. -/
  numeric : Bytes → Option Num
  numericText : Num → Bytes
  /-- `ORDER BY date DESC`; the order of equal dates is chosen by the first argument. -/
  orderDesc : ℕ → {α : Type} → (α → SqlValue Num) → List α → List α
  Speed : Type
  /-- The stored value and whether the text was a number in range. -/
  strtof : Bytes → Speed × Bool
  minusOne : Speed
  nonneg : Speed → Bool
  /-- The JSON number of `std::round(speed * 100) / 100.0f`. -/
  rounded : Speed → FloatText
  sha256 : Bytes → Bytes
  putTime : ℕ → Bytes
  /-- Whether `n` bytes written to a stream with `k` bytes in its buffer go on to the file. -/
  flushes : ℕ → ℕ → Bool
  /-- `ifs >> config`: `none` is a parse error. -/
  parseJson : Bytes → Option Json
  numeric_chars : ∀ b n, numeric b = some n → ∀ c ∈ b, isNumericChar c = true
  numericText_ascii : ∀ n, ∀ c ∈ numericText n, 32 ≤ c ∧ c ≤ 126
  orderDesc_perm : ∀ k (α : Type) (date : α → SqlValue Num) rows,
    (orderDesc k date rows).Perm rows
  orderDesc_sorted : ∀ k (α : Type) (date : α → SqlValue Num) rows,
    (orderDesc k date rows).Pairwise fun a b => SqlValue.le numLe (date b) (date a) = true
  strtof_nonneg : ∀ b, (∀ c ∈ b, isDigit c = true ∨ c = 46) → nonneg (strtof b).1 = true
  minusOne_neg : nonneg minusOne = false
  parseJson_utf8 : ∀ b j, parseJson b = some j → j.Utf8Valid

namespace Platform

variable (P : Platform)

abbrev Value := SqlValue P.Num

def affinity (b : Bytes) : P.Value :=
  match P.numeric b with
  | some n => .num n
  | none => .text b

/-- `sqlite3_column_text`. -/
def columnText : P.Value → Bytes
  | .num n => P.numericText n
  | .text b => b

def valueLe (a b : P.Value) : Bool := SqlValue.le P.numLe a b

theorem affinity_of_notMem {b : Bytes} {c : UInt8} (hc : c ∈ b) (hn : isNumericChar c = false) :
    P.affinity b = .text b := by
  unfold affinity
  split
  · rename_i n h
    have := P.numeric_chars b n h c hc
    simp [hn] at this
  · rfl

/-- A text column gives the stored bytes back unless they were a numeric literal. -/
theorem columnText_affinity (b : Bytes) :
    P.columnText (P.affinity b) = b ∨
      ∀ c ∈ P.columnText (P.affinity b), 32 ≤ c ∧ c ≤ 126 := by
  unfold affinity
  split
  · exact .inr (P.numericText_ascii _)
  · exact .inl rfl

end Platform

end CctvServer
