import CctvServer.JsonText
import Mathlib.Tactic.IntervalCases

namespace CctvServer

namespace JsonLexer

open JsonText

/-- `token_type`, with the value that the scanner keeps for it. -/
inductive Token
  | literalTrue
  | literalFalse
  | literalNull
  | valueString (s : Bytes)
  | valueUnsigned (n : ℕ)
  | valueInteger (n : ℤ)
  /-- The token buffer that `strtod` is given. -/
  | valueFloat (t : Bytes)
  | beginArray
  | beginObject
  | endArray
  | endObject
  | nameSeparator
  | valueSeparator
  | parseError
  | endOfInput

/-- The bounds of the bytes that follow a byte from 0x80 on; `none` where no character
begins with it. -/
def ranges (c : UInt8) : Option (List (UInt8 × UInt8)) :=
  if 0xC2 ≤ c ∧ c ≤ 0xDF then some [(0x80, 0xBF)]
  else if c = 0xE0 then some [(0xA0, 0xBF), (0x80, 0xBF)]
  else if (0xE1 ≤ c ∧ c ≤ 0xEC) ∨ c = 0xEE ∨ c = 0xEF then some [(0x80, 0xBF), (0x80, 0xBF)]
  else if c = 0xED then some [(0x80, 0x9F), (0x80, 0xBF)]
  else if c = 0xF0 then some [(0x90, 0xBF), (0x80, 0xBF), (0x80, 0xBF)]
  else if 0xF1 ≤ c ∧ c ≤ 0xF3 then some [(0x80, 0xBF), (0x80, 0xBF), (0x80, 0xBF)]
  else if c = 0xF4 then some [(0x80, 0x8F), (0x80, 0xBF), (0x80, 0xBF)]
  else none

inductive Turn
  | close (rest : Bytes)
  | add (s rest : Bytes)
  | error

/-- `next_byte_in_range`; `s` has been added so far. -/
def nextByteInRange (s : Bytes) : List (UInt8 × UInt8) → Bytes → Turn
  | [], b => .add s b
  | _ :: _, [] => .error
  | (low, high) :: rs, c :: b =>
      if low ≤ c ∧ c ≤ high then nextByteInRange (s ++ [c]) rs b else .error

def hexDigit (x : ℕ × Bytes) (factor : ℕ) : Option (ℕ × Bytes) :=
  match x.2 with
  | [] => none
  | c :: b => (hexValue c).map fun v => (x.1 + v <<< factor, b)

def getCodepoint (b : Bytes) : Option (ℕ × Bytes) := [12, 8, 4, 0].foldlM hexDigit (0, b)

/-- The bytes of a code point, as they are added to the token buffer. -/
def codepointBytes (n : ℕ) : Bytes :=
  if n < 0x80 then [UInt8.ofNat n]
  else if n ≤ 0x7FF then [UInt8.ofNat (0xC0 ||| n >>> 6), UInt8.ofNat (0x80 ||| n &&& 0x3F)]
  else if n ≤ 0xFFFF then
    [UInt8.ofNat (0xE0 ||| n >>> 12), UInt8.ofNat (0x80 ||| n >>> 6 &&& 0x3F),
      UInt8.ofNat (0x80 ||| n &&& 0x3F)]
  else
    [UInt8.ofNat (0xF0 ||| n >>> 18), UInt8.ofNat (0x80 ||| n >>> 12 &&& 0x3F),
      UInt8.ofNat (0x80 ||| n >>> 6 &&& 0x3F), UInt8.ofNat (0x80 ||| n &&& 0x3F)]

def scanUnicode (b : Bytes) : Turn :=
  match getCodepoint b with
  | none => .error
  | some (codepoint1, b) =>
      if 0xD800 ≤ codepoint1 ∧ codepoint1 ≤ 0xDBFF then
        match b with
        | 92 :: 117 :: b => match getCodepoint b with
            | none => .error
            | some (codepoint2, b) =>
                if 0xDC00 ≤ codepoint2 ∧ codepoint2 ≤ 0xDFFF then
                  .add (codepointBytes (codepoint1 <<< 10 + codepoint2 - 0x35FDC00)) b
                else .error
        | _ => .error
      else if 0xDC00 ≤ codepoint1 ∧ codepoint1 ≤ 0xDFFF then .error
      else .add (codepointBytes codepoint1) b

def scanEscape : Bytes → Turn
  | [] => .error
  | c :: b =>
      if c = 34 then .add [34] b
      else if c = 92 then .add [92] b
      else if c = 47 then .add [47] b
      else if c = 98 then .add [8] b
      else if c = 102 then .add [12] b
      else if c = 110 then .add [10] b
      else if c = 114 then .add [13] b
      else if c = 116 then .add [9] b
      else if c = 117 then scanUnicode b
      else .error

def scanChar : Bytes → Turn
  | [] => .error
  | c :: b =>
      if c = 34 then .close b
      else if c = 92 then scanEscape b
      else if c < 32 then .error
      else if c ≤ 0x7F then .add [c] b
      else match ranges c with
        | some rs => nextByteInRange [c] rs b
        | none => .error

/-- The loop of `scan_string`, with the token buffer `s`. What is left after an error
is read by nobody. -/
def scanStringLoop : ℕ → Bytes → Bytes → Token × Bytes
  | 0, _, _ => (.parseError, [])
  | n + 1, s, b => match scanChar b with
      | .close b => (.valueString s, b)
      | .add u b => scanStringLoop n (s ++ u) b
      | .error => (.parseError, [])

/-- Every turn reads a byte, so the length of the input bounds their number. -/
def scanString (b : Bytes) : Token × Bytes := scanStringLoop (b.length + 1) [] b

/-- The labels of `scan_number`. -/
inductive NumberState
  | init
  | minus
  | zero
  | any1
  | decimal1
  | decimal2
  | exponent
  | sign
  | any2
  deriving DecidableEq

def isExponent (c : UInt8) : Bool := c == 101 || c == 69

namespace NumberState

def next : NumberState → UInt8 → Option NumberState
  | init, c => if c = 45 then some minus else if c = 48 then some zero
      else if isDigit c then some any1 else none
  | minus, c => if c = 48 then some zero else if isDigit c then some any1 else none
  | zero, c => if c = 46 then some decimal1 else if isExponent c then some exponent else none
  | any1, c => if isDigit c then some any1 else if c = 46 then some decimal1
      else if isExponent c then some exponent else none
  | decimal1, c => if isDigit c then some decimal2 else none
  | decimal2, c => if isDigit c then some decimal2 else if isExponent c then some exponent else none
  | exponent, c => if c = 43 ∨ c = 45 then some sign else if isDigit c then some any2 else none
  | sign, c => if isDigit c then some any2 else none
  | any2, c => if isDigit c then some any2 else none

/-- Where a byte that does not belong to the number ends it, instead of being an error. -/
def done : NumberState → Bool
  | zero | any1 | decimal2 | any2 => true
  | _ => false

end NumberState

inductive NumberType
  | unsigned
  | integer
  | float

/-- `number_type` on entry to a state. -/
def NumberType.enter (type : NumberType) : NumberState → NumberType
  | .minus => .integer
  | .decimal1 | .exponent => .float
  | _ => type

/-- `scan_number_done`: `strtoull` and `strtoll`, and `strtod` where they are out of range. -/
def numberToken : NumberType → Bytes → Token
  | .unsigned, t => if digitsValue t < 2 ^ 64 then .valueUnsigned (digitsValue t) else .valueFloat t
  | .integer, t =>
      if digitsValue t.tail ≤ 2 ^ 63 then .valueInteger (-digitsValue t.tail) else .valueFloat t
  | .float, t => .valueFloat t

def scanNumber : NumberState → NumberType → Bytes → Bytes → Token × Bytes
  | state, type, t, [] => if state.done then (numberToken type t, []) else (.parseError, [])
  | state, type, t, c :: b => match state.next c with
      | some state' => scanNumber state' (type.enter state') (t ++ [c]) b
      | none => if state.done then (numberToken type t, c :: b) else (.parseError, [])

def scanLiteral (token : Token) : Bytes → Bytes → Token × Bytes
  | [], b => (token, b)
  | _ :: _, [] => (.parseError, [])
  | l :: ls, c :: b => if c = l then scanLiteral token ls b else (.parseError, [])

/-- `scan` behind the byte order mark; comments are not ignored. -/
def scan (b : Bytes) : Token × Bytes :=
  match b.dropWhile isBlank with
  | [] => (.endOfInput, [])
  | c :: b =>
      if c = 91 then (.beginArray, b)
      else if c = 93 then (.endArray, b)
      else if c = 123 then (.beginObject, b)
      else if c = 125 then (.endObject, b)
      else if c = 58 then (.nameSeparator, b)
      else if c = 44 then (.valueSeparator, b)
      else if c = 116 then scanLiteral .literalTrue (ascii "rue") b
      else if c = 102 then scanLiteral .literalFalse (ascii "alse") b
      else if c = 110 then scanLiteral .literalNull (ascii "ull") b
      else if c = 34 then scanString b
      else if c = 45 ∨ isDigit c then scanNumber .init .unsigned [] (c :: b)
      else if c = 0 then (.endOfInput, b)
      else (.parseError, [])

/-- `skip_bom`: `none` is a mark that is not complete. -/
def skipBom : Bytes → Option Bytes
  | 0xEF :: b => match b with
      | 0xBB :: 0xBF :: b => some b
      | _ => none
  | b => some b

def scanFirst (b : Bytes) : Token × Bytes :=
  match skipBom b with
  | some b => scan b
  | none => (.parseError, [])

end JsonLexer

end CctvServer
