import Mathlib.Algebra.Group.Nat.Defs
import Mathlib.Data.Nat.Notation
import Mathlib.Data.Int.Notation
import Mathlib.Data.List.DropRight
import Mathlib.Data.List.Infix
import Mathlib.Tactic.Common

namespace CctvServer

abbrev Bytes := List UInt8

/-- A condition on the bytes of a text is decided along the text, not over all 256 bytes. -/
instance decidableForallByte (p : UInt8 → Prop) [DecidablePred p] (b : Bytes) :
    Decidable (∀ c ∈ b, p c) := List.decidableBAll p b

def ascii (s : String) : Bytes := s.toList.map fun c => UInt8.ofNat c.toNat

/-- What `c_str()` shows to a callee that stops at the first NUL. -/
def cstr (b : Bytes) : Bytes := b.takeWhile (· != 0)

/-- `isspace` in the C locale. -/
def isSpace (c : UInt8) : Bool := c == 32 || (9 ≤ c && c ≤ 13)

def isDigit (c : UInt8) : Bool := 48 ≤ c && c ≤ 57

def digitsValue (ds : Bytes) : ℕ := ds.foldl (fun n d => 10 * n + (d.toNat - 48)) 0

def decimal (n : ℕ) : Bytes := (Nat.toDigits 10 n).map fun c => UInt8.ofNat c.toNat

def decimalInt : ℤ → Bytes
  | .ofNat n => decimal n
  | .negSucc n => 45 :: decimal (n + 1)

def words (b : Bytes) : List Bytes := (b.splitOnP isSpace).filter (!·.isEmpty)

/-- `find(needle) != npos`. -/
def contains (b needle : Bytes) : Bool := decide (needle <:+: b)

@[simp] theorem ascii_append (s t : String) : ascii (s ++ t) = ascii s ++ ascii t := by
  simp [ascii]

@[simp] theorem cstr_nil : cstr [] = [] := rfl

theorem cstr_eq_self {b : Bytes} (h : (0 : UInt8) ∉ b) : cstr b = b :=
  List.takeWhile_eq_self_iff.mpr fun c hc => by
    rw [bne_iff_ne]
    exact fun h0 => h (h0 ▸ hc)

theorem zero_notMem_cstr (b : Bytes) : (0 : UInt8) ∉ cstr b := by
  intro h
  simpa using List.mem_takeWhile_imp h

@[simp] theorem cstr_cstr (b : Bytes) : cstr (cstr b) = cstr b := cstr_eq_self (zero_notMem_cstr b)

theorem cstr_append {a : Bytes} (b : Bytes) (h : (0 : UInt8) ∉ a) :
    cstr (a ++ b) = a ++ cstr b := by
  induction a with
  | nil => rfl
  | cons c a ih =>
    have hc : c ≠ 0 := fun h0 => h (h0 ▸ List.mem_cons_self)
    have ha : cstr (a ++ b) = a ++ cstr b := ih fun h0 => h (List.mem_cons_of_mem _ h0)
    simpa [cstr, hc] using ha

theorem cstr_subset (b : Bytes) : cstr b ⊆ b := List.takeWhile_subset _

theorem isDigit_of_mem_decimal {n : ℕ} {c : UInt8} (h : c ∈ decimal n) : isDigit c = true := by
  obtain ⟨d, hd, rfl⟩ := List.mem_map.mp h
  have hd' : d.isDigit = true := Nat.isDigit_of_mem_toDigits (by decide) (by decide) hd
  simp only [Char.isDigit, ge_iff_le, Bool.and_eq_true, decide_eq_true_eq,
    UInt32.le_iff_toNat_le] at hd'
  have hlow : 48 ≤ d.toNat := hd'.1
  have hhigh : d.toNat ≤ 57 := hd'.2
  have hmod : (UInt8.ofNat d.toNat).toNat = d.toNat := by
    rw [UInt8.toNat_ofNat']
    exact Nat.mod_eq_of_lt (by omega)
  simp only [isDigit, Bool.and_eq_true, decide_eq_true_eq, UInt8.le_iff_toNat_le, hmod]
  exact ⟨hlow, hhigh⟩

theorem printable_decimal {n : ℕ} : ∀ c ∈ decimal n, 33 ≤ c ∧ c ≤ 126 := by
  intro c hc
  have hd := isDigit_of_mem_decimal hc
  simp only [isDigit, Bool.and_eq_true, decide_eq_true_eq, UInt8.le_iff_toNat_le] at hd
  have h48 : 48 ≤ c.toNat := hd.1
  have h57 : c.toNat ≤ 57 := hd.2
  refine ⟨UInt8.le_iff_toNat_le.mpr ?_, UInt8.le_iff_toNat_le.mpr ?_⟩
  · exact le_trans (by decide) h48
  · exact le_trans h57 (by decide)

theorem printable_decimalInt (n : ℤ) : ∀ c ∈ decimalInt n, 33 ≤ c ∧ c ≤ 126 := by
  intro c hc
  cases n with
  | ofNat n => exact printable_decimal c hc
  | negSucc n =>
    rcases List.mem_cons.mp hc with rfl | hc
    · decide
    · exact printable_decimal c hc

theorem ne_of_isDigit {c d : UInt8} (h : isDigit c = true) (hd : isDigit d = false) : c ≠ d := by
  rintro rfl
  simp [h] at hd

theorem words_cons_space {c : UInt8} (b : Bytes) (hc : isSpace c = true) :
    words (c :: b) = words b := by
  simp [words, List.splitOnP_cons_eq_if_modifyHead, hc]

theorem words_nil : words [] = [] := rfl

theorem words_dropWhile (b : Bytes) : words (b.dropWhile isSpace) = words b := by
  induction b with
  | nil => rfl
  | cons c b ih =>
    by_cases hc : isSpace c = true
    · rw [List.dropWhile_cons_of_pos hc, ih, words_cons_space b hc]
    · rw [List.dropWhile_cons_of_neg hc]

/-- A text that starts inside a token is that token followed by the other tokens. -/
theorem words_cons_token {c : UInt8} (b : Bytes) (hc : isSpace c = false) :
    words (c :: b) =
      (c :: b).takeWhile (!isSpace ·) :: words ((c :: b).dropWhile (!isSpace ·)) := by
  induction b generalizing c with
  | nil => simp [words, List.splitOnP_cons_eq_if_modifyHead, hc]
  | cons d b ih =>
    by_cases hd : isSpace d = true
    · simp [words, List.splitOnP_cons_eq_if_modifyHead, hc, hd]
    · have hd' : isSpace d = false := by simpa using hd
      have h := ih hd'
      rw [words, List.splitOnP_cons_eq_if_modifyHead, if_neg (by simp [hc])]
      rw [words, List.splitOnP_cons_eq_if_modifyHead, if_neg hd] at h
      cases hs : b.splitOnP isSpace with
      | nil => exact absurd hs (by simp)
      | cons w ws =>
        rw [List.splitOnP_cons_eq_if_modifyHead, if_neg hd, hs]
        rw [hs] at h
        simp only [List.modifyHead_cons, List.filter_cons, List.isEmpty_cons, Bool.not_false,
          if_true, List.cons.injEq] at h ⊢
        constructor
        · simp [hc, h.1]
        · simpa [hc] using h.2

theorem mem_words_not_space {b w : Bytes} (hw : w ∈ words b) : ∀ c ∈ w, isSpace c = false := by
  induction h : b.length using Nat.strong_induction_on generalizing b w with
  | _ n ih =>
    subst h
    rw [← words_dropWhile] at hw
    cases hd : b.dropWhile isSpace with
    | nil => simp [hd, words_nil] at hw
    | cons c d =>
      have hc : isSpace c = false := by
        have := List.head_dropWhile_not isSpace (by rw [hd]; simp : b.dropWhile isSpace ≠ [])
        simpa [hd] using this
      have hlen : (c :: d).length ≤ b.length := by
        rw [← hd]
        exact List.length_dropWhile_le _ _
      rw [hd, words_cons_token d hc] at hw
      rcases List.mem_cons.mp hw with rfl | hw
      · intro x hx
        simpa using List.mem_takeWhile_imp hx
      · refine ih _ ?_ hw rfl
        have := List.length_dropWhile_le (!isSpace ·) d
        simp only [List.length_cons] at hlen
        simp only [List.dropWhile_cons, hc, Bool.not_false, if_true]
        omega

theorem words_ne_nil {b w : Bytes} (hw : w ∈ words b) : w ≠ [] := by
  simpa using (List.mem_filter.mp hw).2

theorem words_token {w : Bytes} (hw : w ≠ []) (hs : ∀ c ∈ w, isSpace c = false) :
    words w = [w] := by
  simp [words, List.splitOnP_eq_singleton hs, hw]

theorem words_concat_space {c : UInt8} (b : Bytes) (hc : isSpace c = true) :
    words (b ++ [c]) = words b := by
  simp [words, List.splitOnP_append_cons b [] hc]

theorem words_append_space {w : Bytes} {c : UInt8} (b : Bytes) (hw : w ≠ [])
    (hs : ∀ x ∈ w, isSpace x = false) (hc : isSpace c = true) :
    words (w ++ c :: b) = w :: words b := by
  simp [words, List.splitOnP_append_cons_of_forall_mem hs c hc, hw]

end CctvServer
