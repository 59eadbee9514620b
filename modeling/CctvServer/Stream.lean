import CctvServer.Bytes

namespace CctvServer

/-- A `std::istringstream`: the unread characters and the two state bits. -/
structure IStream where
  buf : Bytes
  eof : Bool
  fail : Bool
  deriving DecidableEq, Repr

namespace IStream

def ofBytes (b : Bytes) : IStream := ⟨b, false, false⟩

def good (s : IStream) : Bool := !s.eof && !s.fail

/-- The sentry of a formatted extraction skips whitespace; finding nothing
behind it, or an earlier failure, sets the fail bit. -/
def sentry (s : IStream) : IStream :=
  if s.good then
    match s.buf.dropWhile isSpace with
    | [] => ⟨[], true, true⟩
    | c :: rest => ⟨c :: rest, false, false⟩
  else { s with fail := true }

/-- `iss >> str` for a string that was empty before. -/
def word (s : IStream) : Bytes × IStream :=
  let s := s.sentry
  if s.good then
    let rest := s.buf.dropWhile (!isSpace ·)
    (s.buf.takeWhile (!isSpace ·), ⟨rest, rest.isEmpty, false⟩)
  else ([], s)

def numeral (b : Bytes) : Bool × Bytes × Bytes :=
  let (neg, b) := match b with
    | 45 :: b => (true, b)
    | 43 :: b => (false, b)
    | b => (false, b)
  (neg, b.takeWhile isDigit, b.dropWhile isDigit)

def intMin : ℤ := -2147483648
def intMax : ℤ := 2147483647

/-- `iss >> n` for an `int n` that held `old`: no digits store 0, an overflow
stores the nearest limit, both set the fail bit; a failed sentry stores nothing. -/
def int (old : ℤ) (s : IStream) : ℤ × IStream :=
  let s := s.sentry
  if s.good then
    let (neg, digits, rest) := numeral s.buf
    let v : ℤ := if neg then -(digitsValue digits) else digitsValue digits
    if digits = [] then (0, ⟨rest, rest.isEmpty, true⟩)
    else if v < intMin then (intMin, ⟨rest, rest.isEmpty, true⟩)
    else if intMax < v then (intMax, ⟨rest, rest.isEmpty, true⟩)
    else (v, ⟨rest, rest.isEmpty, false⟩)
  else (old, s)

/-- `iss >> n` for a 64-bit `size_t n` that held `old`: a leading minus wraps. -/
def size (old : ℕ) (s : IStream) : ℕ × IStream :=
  let s := s.sentry
  if s.good then
    let (neg, digits, rest) := numeral s.buf
    let n := digitsValue digits
    if digits = [] then (0, ⟨rest, rest.isEmpty, true⟩)
    else if 2 ^ 64 ≤ n then (2 ^ 64 - 1, ⟨rest, rest.isEmpty, true⟩)
    else (if neg then (2 ^ 64 - n) % 2 ^ 64 else n, ⟨rest, rest.isEmpty, false⟩)
  else (old, s)

/-- The characters a floating-point extraction accumulates after the sign:
`man`, `dec` and `sci` tell whether a digit, a point and an exponent mark were
seen, `mark` that the mark came just before. Leading zeros count once. -/
def floatChars (zeros man dec sci mark : Bool) : Bytes → Bytes × Bytes
  | [] => ([], [])
  | c :: b =>
      if mark && (c == 43 || c == 45) then
        let (l, rest) := floatChars false man dec sci false b
        (c :: l, rest)
      else if zeros && c == 48 then
        let (l, rest) := floatChars true true dec sci false b
        (if man then l else 48 :: l, rest)
      else if isDigit c then
        let (l, rest) := floatChars false true dec sci false b
        (c :: l, rest)
      else if c == 46 && !dec && !sci then
        let (l, rest) := floatChars false man true sci false b
        (46 :: l, rest)
      else if (c == 101 || c == 69) && !sci && man then
        let (l, rest) := floatChars false man dec true true b
        (101 :: l, rest)
      else ([], c :: b)

/-- The text a floating-point extraction hands to `strtof`, and the rest. -/
def floatLexeme (b : Bytes) : Bytes × Bytes :=
  match b with
  | 45 :: b => let (l, rest) := floatChars true false false false false b; (45 :: l, rest)
  | 43 :: b => let (l, rest) := floatChars true false false false false b; (43 :: l, rest)
  | b => floatChars true false false false false b

/-- `iss >> x` for a `float x` that held `old`; `strtof` gives the stored value
and whether the whole text was a number in range. -/
def float {F : Type} (strtof : Bytes → F × Bool) (old : F) (s : IStream) : F × IStream :=
  let s := s.sentry
  if s.good then
    let (lexeme, rest) := floatLexeme s.buf
    let (v, ok) := strtof lexeme
    (v, ⟨rest, rest.isEmpty, !ok⟩)
  else (old, s)

/-- `std::getline(iss, str, delim)` for a string that was empty before. -/
def getline (delim : UInt8) (s : IStream) : Bytes × IStream :=
  if s.good then
    let line := s.buf.takeWhile (· != delim)
    match s.buf.dropWhile (· != delim) with
    | [] => (line, ⟨[], true, line.isEmpty⟩)
    | _ :: rest => (line, ⟨rest, false, false⟩)
  else ([], { s with fail := true })

def tokens (s : IStream) : List Bytes := if s.good then words s.buf else []

@[simp] theorem tokens_ofBytes (b : Bytes) : (ofBytes b).tokens = words b := rfl

theorem sentry_of_tokens_nil {s : IStream} (h : s.tokens = []) :
    s.sentry.good = false ∧ s.sentry.fail = true := by
  unfold sentry
  by_cases hg : s.good = true
  · rw [if_pos hg]
    cases hd : s.buf.dropWhile isSpace with
    | nil => exact ⟨rfl, rfl⟩
    | cons c b =>
      have hc : isSpace c = false := by
        have := List.head_dropWhile_not isSpace (by rw [hd]; simp : s.buf.dropWhile isSpace ≠ [])
        simpa [hd] using this
      rw [tokens, if_pos hg, ← words_dropWhile, hd, words_cons_token b hc] at h
      cases h
  · rw [if_neg hg]
    exact ⟨by simp [good], rfl⟩

theorem sentry_of_tokens_cons {s : IStream} {t : Bytes} {ts : List Bytes} (h : s.tokens = t :: ts) :
    s.sentry.good = true ∧ s.sentry.buf.takeWhile (!isSpace ·) = t ∧
      words (s.sentry.buf.dropWhile (!isSpace ·)) = ts := by
  have hg : s.good = true := by
    by_contra hg
    rw [tokens, if_neg hg] at h
    cases h
  rw [tokens, if_pos hg, ← words_dropWhile] at h
  rw [sentry, if_pos hg]
  cases hd : s.buf.dropWhile isSpace with
  | nil => simp [hd, words_nil] at h
  | cons c b =>
    have hc : isSpace c = false := by
      have := List.head_dropWhile_not isSpace (by rw [hd]; simp : s.buf.dropWhile isSpace ≠ [])
      simpa [hd] using this
    rw [hd, words_cons_token b hc, List.cons.injEq] at h
    exact ⟨rfl, h.1, h.2⟩

theorem tokens_rest (rest : Bytes) : tokens ⟨rest, rest.isEmpty, false⟩ = words rest := by
  cases rest <;> rfl

theorem word_of_tokens_nil {s : IStream} (h : s.tokens = []) :
    s.word.1 = [] ∧ s.word.2.tokens = [] ∧ s.word.2.fail = true := by
  obtain ⟨hg, hf⟩ := sentry_of_tokens_nil h
  simp [word, hg, tokens, hf]

theorem word_of_tokens_cons {s : IStream} {t : Bytes} {ts : List Bytes} (h : s.tokens = t :: ts) :
    s.word.1 = t ∧ s.word.2.tokens = ts ∧ s.word.2.fail = false := by
  obtain ⟨hg, ht, hts⟩ := sentry_of_tokens_cons h
  simp [word, hg, ht, tokens_rest, hts]

theorem word_eq (s : IStream) : s.word.1 = s.tokens.headD [] ∧ s.word.2.tokens = s.tokens.tail := by
  cases h : s.tokens with
  | nil =>
    obtain ⟨h₁, h₂, -⟩ := word_of_tokens_nil h
    exact ⟨h₁, h₂⟩
  | cons t ts =>
    obtain ⟨h₁, h₂, -⟩ := word_of_tokens_cons h
    exact ⟨h₁, h₂⟩

theorem int_of_tokens_nil {s : IStream} (old : ℤ) (h : s.tokens = []) :
    (s.int old).1 = old ∧ (s.int old).2.tokens = [] ∧ (s.int old).2.fail = true := by
  obtain ⟨hg, hf⟩ := sentry_of_tokens_nil h
  simp [int, hg, tokens, hf]

theorem size_of_tokens_nil {s : IStream} (old : ℕ) (h : s.tokens = []) :
    (s.size old).1 = old ∧ (s.size old).2.fail = true := by
  obtain ⟨hg, hf⟩ := sentry_of_tokens_nil h
  simp [size, hg, hf]

def IsNumeral (t : Bytes) : Prop := t ≠ [] ∧ ∀ c ∈ t, isDigit c = true

instance (t : Bytes) : Decidable (IsNumeral t) := inferInstanceAs (Decidable (_ ∧ _))

theorem not_isSpace_of_isDigit {c : UInt8} (h : isDigit c = true) : isSpace c = false := by
  simp only [isDigit, Bool.and_eq_true, decide_eq_true_eq, UInt8.le_iff_toNat_le] at h
  simp only [isSpace, Bool.or_eq_false_iff, Bool.and_eq_false_iff, beq_eq_false_iff_ne, ne_eq,
    decide_eq_false_iff_not, UInt8.le_iff_toNat_le, ← UInt8.toNat_inj]
  simp at h ⊢
  omega

theorem digits_token (b : Bytes) :
    b.takeWhile isDigit = (b.takeWhile (!isSpace ·)).takeWhile isDigit ∧
      b.dropWhile isDigit =
        (b.takeWhile (!isSpace ·)).dropWhile isDigit ++ b.dropWhile (!isSpace ·) := by
  induction b with
  | nil => exact ⟨rfl, rfl⟩
  | cons c b ih =>
    by_cases hc : isDigit c = true
    · simp [hc, not_isSpace_of_isDigit hc, ih.1, ih.2]
    · by_cases hs : isSpace c = true
      · simp [hc, hs]
      · simp [hc, hs, List.takeWhile_append_dropWhile]

theorem numeral_unsigned {b : Bytes} (h45 : b.head? ≠ some 45) (h43 : b.head? ≠ some 43) :
    numeral b = (false, b.takeWhile isDigit, b.dropWhile isDigit) := by
  unfold numeral
  split
  rename_i heq
  split at heq
  · exact absurd rfl h45
  · exact absurd rfl h43
  · cases heq
    rfl

theorem numeral_token (b : Bytes) : numeral b =
    ((numeral (b.takeWhile (!isSpace ·))).1, (numeral (b.takeWhile (!isSpace ·))).2.1,
      (numeral (b.takeWhile (!isSpace ·))).2.2 ++ b.dropWhile (!isSpace ·)) := by
  match b with
  | [] => rfl
  | c :: b =>
    obtain ⟨h₁, h₂⟩ := digits_token b
    by_cases h45 : c = 45
    · subst h45
      change (true, b.takeWhile isDigit, b.dropWhile isDigit) = _
      rw [h₁, h₂]
      rfl
    · by_cases h43 : c = 43
      · subst h43
        change (false, b.takeWhile isDigit, b.dropWhile isDigit) = _
        rw [h₁, h₂]
        rfl
      · obtain ⟨h₁, h₂⟩ := digits_token (c :: b)
        have hhead : ∀ d, c ≠ d → ((c :: b).takeWhile (!isSpace ·)).head? ≠ some d := by
          intro d hd
          by_cases hs : isSpace c = true
          · simp [hs]
          · simpa [hs] using hd
        rw [numeral_unsigned (b := c :: b) (by simpa using h45) (by simpa using h43),
          numeral_unsigned (hhead 45 h45) (hhead 43 h43), h₁, h₂]

theorem numeral_of_isNumeral {t : Bytes} (h : IsNumeral t) : numeral t = (false, t, []) := by
  obtain ⟨c, u, rfl⟩ := List.exists_cons_of_ne_nil h.1
  have hc : isDigit c = true := h.2 c List.mem_cons_self
  have h45 : c ≠ 45 := ne_of_isDigit hc (by decide)
  have h43 : c ≠ 43 := ne_of_isDigit hc (by decide)
  rw [numeral_unsigned (by simpa using h45) (by simpa using h43),
    List.takeWhile_eq_self_iff.mpr h.2, List.dropWhile_eq_nil_iff.mpr h.2]

def IsDecimal (t : Bytes) : Prop :=
  IsNumeral t ∨ ∃ whole frac, IsNumeral whole ∧ IsNumeral frac ∧ t = whole ++ 46 :: frac

/-- The same number with one leading zero at most before another digit is dropped. -/
def trimZeros : Bytes → Bytes
  | 48 :: b => 48 :: b.dropWhile (· == 48)
  | b => b

theorem floatChars_stop {b : Bytes} (h : ∀ c ∈ b.head?, isSpace c = true)
    (zeros man dec sci mark : Bool) : (floatChars zeros man dec sci mark b).1 = [] := by
  cases b with
  | nil => rfl
  | cons c b =>
    have hc : isSpace c = true := h c rfl
    have hne : ∀ d : UInt8, isSpace d = false → c ≠ d := by
      rintro d hd rfl
      simp [hc] at hd
    have hd : isDigit c = false := by
      by_contra hd
      simp [not_isSpace_of_isDigit (by simpa using hd)] at hc
    simp [floatChars, hd, hne 43 (by decide), hne 45 (by decide), hne 48 (by decide),
      hne 46 (by decide), hne 101 (by decide), hne 69 (by decide)]

theorem floatChars_digits {ds : Bytes} (h : ∀ c ∈ ds, isDigit c = true) (dec : Bool) (b : Bytes) :
    (floatChars false true dec false false (ds ++ b)).1 =
      ds ++ (floatChars false true dec false false b).1 := by
  induction ds with
  | nil => rfl
  | cons c ds ih =>
    have hc : isDigit c = true := h c List.mem_cons_self
    simp [floatChars, hc, ih fun x hx => h x (List.mem_cons_of_mem _ hx)]

/-- Behind a first digit zeros count only after another digit. -/
theorem floatChars_zeros {ds b : Bytes} (h : ∀ c ∈ ds, isDigit c = true)
    (hb : ∀ c ∈ b.head?, c ≠ 48) :
    (floatChars true true false false false (ds ++ b)).1 =
      ds.dropWhile (· == 48) ++ (floatChars false true false false false b).1 := by
  induction ds with
  | nil =>
    cases b with
    | nil => rfl
    | cons c b =>
      have hc : c ≠ 48 := hb c rfl
      simp [floatChars, hc]
  | cons c ds ih =>
    have hds := fun x hx => h x (List.mem_cons_of_mem _ hx)
    by_cases hc : c = 48
    · simp [floatChars, hc, ih hds]
    · simp [floatChars, hc, h c List.mem_cons_self, floatChars_digits hds]

theorem floatLexeme_digits {ds b : Bytes} (h : IsNumeral ds) (hb : ∀ c ∈ b.head?, c ≠ 48) :
    (floatLexeme (ds ++ b)).1 = trimZeros ds ++ (floatChars false true false false false b).1 := by
  cases ds with
  | nil => exact absurd rfl h.1
  | cons c ds =>
    have hc : isDigit c = true := h.2 c List.mem_cons_self
    have hds := fun x hx => h.2 x (List.mem_cons_of_mem _ hx)
    have h45 : c ≠ 45 := by rintro rfl; simp [isDigit] at hc
    have h43 : c ≠ 43 := by rintro rfl; simp [isDigit] at hc
    have hlex : floatLexeme (c :: ds ++ b) =
        floatChars true false false false false (c :: ds ++ b) := by
      unfold floatLexeme
      split
      · rename_i heq
        exact absurd (List.cons.inj heq).1 h45
      · rename_i heq
        exact absurd (List.cons.inj heq).1 h43
      · rfl
    rw [hlex]
    by_cases h0 : c = 48
    · subst h0
      simp [floatChars, trimZeros, floatChars_zeros hds hb]
    · have htrim : trimZeros (c :: ds) = c :: ds := by
        unfold trimZeros
        split
        · rename_i heq
          exact absurd (List.cons.inj heq).1 h0
        · rfl
      simp [floatChars, h0, hc, htrim, floatChars_digits hds]

theorem trimZeros_point (whole frac : Bytes) :
    trimZeros (whole ++ 46 :: frac) = trimZeros whole ++ 46 :: frac := by
  have hdrop : ∀ b : Bytes, (b ++ 46 :: frac).dropWhile (· == 48) =
      b.dropWhile (· == 48) ++ 46 :: frac := by
    intro b
    induction b with
    | nil => rfl
    | cons c b ih =>
      by_cases hc : c = 48
      · simp [hc, ih]
      · simp [hc]
  cases whole with
  | nil => rfl
  | cons c whole =>
    by_cases hc : c = 48
    · simp [hc, trimZeros, hdrop]
    · have hid : ∀ b, trimZeros (c :: b) = c :: b := by
        intro b
        unfold trimZeros
        split
        · rename_i heq
          exact absurd (List.cons.inj heq).1 hc
        · rfl
      rw [List.cons_append, hid, hid, List.cons_append]

theorem floatLexeme_of_token {t b : Bytes} (ht : IsDecimal t)
    (hb : ∀ c ∈ b.head?, isSpace c = true) : (floatLexeme (t ++ b)).1 = trimZeros t := by
  have hspace : ∀ c ∈ b.head?, c ≠ 48 := by
    rintro c hc rfl
    exact absurd (hb 48 hc) (by decide)
  rcases ht with ht | ⟨whole, frac, hw, hf, rfl⟩
  · rw [floatLexeme_digits ht hspace, floatChars_stop hb, List.append_nil]
  · have hpoint : ∀ c ∈ (46 :: (frac ++ b)).head?, c ≠ 48 := by simp
    have hfrac : (floatChars false true false false false (46 :: (frac ++ b))).1 = 46 :: frac := by
      simp [floatChars, floatChars_digits hf.2, floatChars_stop hb, isDigit]
    rw [List.append_assoc, List.cons_append, floatLexeme_digits hw hpoint, hfrac, trimZeros_point]

theorem IsDecimal.trimZeros_chars {t : Bytes} (h : IsDecimal t) :
    ∀ c ∈ trimZeros t, isDigit c = true ∨ c = 46 := by
  have hsub : trimZeros t ⊆ t := by
    unfold trimZeros
    split
    · exact List.cons_subset_cons _ (List.dropWhile_subset _)
    · exact fun _ h => h
  intro c hc
  rcases h with ht | ⟨whole, frac, hw, hf, rfl⟩
  · exact .inl (ht.2 c (hsub hc))
  · rcases List.mem_append.mp (hsub hc) with hc | hc
    · exact .inl (hw.2 c hc)
    · rcases List.mem_cons.mp hc with rfl | hc
      · exact .inr rfl
      · exact .inl (hf.2 c hc)

theorem float_of_tokens_nil {F : Type} {s : IStream} (strtof : Bytes → F × Bool) (old : F)
    (h : s.tokens = []) : (s.float strtof old).1 = old := by
  obtain ⟨hg, -⟩ := sentry_of_tokens_nil h
  simp [float, hg]

end IStream

end CctvServer
