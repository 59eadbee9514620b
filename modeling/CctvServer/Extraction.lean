import CctvServer.Stream

namespace CctvServer.IStream

def behind (rest : Bytes) (ts : List Bytes) : List Bytes := if rest = [] then ts else rest :: ts

def numeralValue (t : Bytes) : ℤ :=
  if (numeral t).1 then -(digitsValue (numeral t).2.1) else digitsValue (numeral t).2.1

/-- `iss >> n` for an `int n` as far as tokens go. -/
def intTokens (old : ℤ) : List Bytes → ℤ × List Bytes
  | [] => (old, [])
  | t :: ts =>
      if (numeral t).2.1 = [] then (0, [])
      else if numeralValue t < intMin then (intMin, [])
      else if intMax < numeralValue t then (intMax, [])
      else (numeralValue t, behind (numeral t).2.2 ts)

/-- `iss >> n` for a `size_t n` as far as tokens go. -/
def sizeTokens (old : ℕ) : List Bytes → ℕ
  | [] => old
  | t :: _ =>
      if (numeral t).2.1 = [] then 0
      else if 2 ^ 64 ≤ digitsValue (numeral t).2.1 then 2 ^ 64 - 1
      else if (numeral t).1 then (2 ^ 64 - digitsValue (numeral t).2.1) % 2 ^ 64
      else digitsValue (numeral t).2.1

theorem words_behind {rest b : Bytes} (hr : ∀ c ∈ rest, isSpace c = false)
    (hb : ∀ c ∈ b.head?, isSpace c = true) : words (rest ++ b) = behind rest (words b) := by
  unfold behind
  split
  · rename_i h
    rw [h]
    rfl
  · rename_i h
    cases b with
    | nil => rw [List.append_nil, words_token h hr, words_nil]
    | cons c b => rw [words_append_space b h hr (hb c rfl), words_cons_space b (hb c rfl)]

theorem headD_eq_getD (ws : List Bytes) : ws.headD [] = ws.getD 0 [] := by
  cases ws <;> rfl

theorem headD_tail_eq_getD (ws : List Bytes) : ws.tail.headD [] = ws.getD 1 [] := by
  match ws with
  | [] => rfl
  | [_] => rfl
  | _ :: _ :: _ => rfl

theorem numeral_rest_subset (t : Bytes) : (numeral t).2.2 ⊆ t := by
  unfold numeral
  split
  rename_i heq
  split at heq
  · cases heq
    exact fun c hc => List.mem_cons_of_mem _ (List.dropWhile_subset _ hc)
  · cases heq
    exact fun c hc => List.mem_cons_of_mem _ (List.dropWhile_subset _ hc)
  · cases heq
    exact List.dropWhile_subset _

theorem sentry_token {s : IStream} {t : Bytes} {ts : List Bytes} (h : s.tokens = t :: ts) :
    s.sentry.good = true ∧ ∃ b, s.sentry.buf = t ++ b ∧ (∀ c ∈ b.head?, isSpace c = true) ∧
      words b = ts ∧ s.sentry.buf.takeWhile (!isSpace ·) = t ∧
      s.sentry.buf.dropWhile (!isSpace ·) = b ∧ ∀ c ∈ t, isSpace c = false := by
  obtain ⟨hg, ht, hts⟩ := sentry_of_tokens_cons h
  refine ⟨hg, _, ?_, ?_, hts, ht, rfl, ?_⟩
  · rw [← ht, List.takeWhile_append_dropWhile]
  · intro c hc
    have := List.head?_dropWhile_not (!isSpace ·) s.sentry.buf
    rw [Option.mem_def.mp hc] at this
    simpa using this
  · intro c hc
    rw [← ht] at hc
    simpa using List.mem_takeWhile_imp hc

theorem int_tokens (old : ℤ) (s : IStream) : (s.int old).1 = (intTokens old s.tokens).1 ∧
    (s.int old).2.tokens = (intTokens old s.tokens).2 := by
  refine Prod.ext_iff.mp (?_ : ((s.int old).1, (s.int old).2.tokens) = intTokens old s.tokens)
  cases h : s.tokens with
  | nil =>
    obtain ⟨h₁, h₂, -⟩ := int_of_tokens_nil old h
    rw [h₁, h₂]
    rfl
  | cons t ts =>
    obtain ⟨hg, b, -, hspace, hts, htok, hdrop, ht⟩ := sentry_token h
    have hnum := numeral_token s.sentry.buf
    rw [htok, hdrop] at hnum
    have hrest : words ((numeral t).2.2 ++ b) = behind (numeral t).2.2 ts := by
      rw [words_behind (fun c hc => ht c (numeral_rest_subset t hc)) hspace, hts]
    have hfail : ∀ rest, tokens ⟨rest, rest.isEmpty, true⟩ = [] := fun rest => by
      simp [tokens, good]
    have hvalue : (if (numeral t).1 = true then -(digitsValue (numeral t).2.1 : ℤ)
        else digitsValue (numeral t).2.1) = numeralValue t := rfl
    simp only [int, hg, if_true, hnum, hvalue, intTokens]
    split
    · simp only [hfail]
    · split
      · simp only [hfail]
      · split
        · simp only [hfail]
        · simp only [tokens_rest, hrest]

/-- A number that fits is read with nothing left of its token. -/
theorem intTokens_fits {old : ℤ} {t : Bytes} {ts : List Bytes} (hdigits : (numeral t).2.1 ≠ [])
    (hrest : (numeral t).2.2 = []) (hmin : intMin ≤ numeralValue t)
    (hmax : numeralValue t ≤ intMax) : intTokens old (t :: ts) = (numeralValue t, ts) := by
  rw [intTokens, if_neg hdigits, if_neg (Int.not_lt.mpr hmin), if_neg (Int.not_lt.mpr hmax), behind,
    if_pos hrest]

theorem intTokens_numeral {old : ℤ} {t : Bytes} {ts : List Bytes} (h : IsNumeral t)
    (hle : (digitsValue t : ℤ) ≤ intMax) :
    intTokens old (t :: ts) = ((digitsValue t : ℤ), ts) := by
  have hnum := numeral_of_isNumeral h
  have hvalue : numeralValue t = digitsValue t := by
    rw [numeralValue, hnum, if_neg Bool.false_ne_true]
  have hmin : intMin ≤ (digitsValue t : ℤ) := by
    unfold intMin
    omega
  rw [← hvalue] at hle hmin ⊢
  exact intTokens_fits (by rw [hnum]; exact h.1) (by rw [hnum]) hmin hle

/-- Whether `iss >> n` for an `int n` sets the fail bit, as far as tokens go. -/
def intFails : List Bytes → Bool
  | [] => true
  | t :: _ =>
      decide ((numeral t).2.1 = [] ∨ numeralValue t < intMin ∨ intMax < numeralValue t)

theorem int_fail (old : ℤ) (s : IStream) : (s.int old).2.fail = intFails s.tokens := by
  cases h : s.tokens with
  | nil => exact (int_of_tokens_nil old h).2.2
  | cons t ts =>
    obtain ⟨hg, b, -, -, -, htok, hdrop, -⟩ := sentry_token h
    have hnum := numeral_token s.sentry.buf
    rw [htok, hdrop] at hnum
    have hvalue : (if (numeral t).1 = true then -(digitsValue (numeral t).2.1 : ℤ)
        else digitsValue (numeral t).2.1) = numeralValue t := rfl
    simp only [int, hg, if_true, hnum, hvalue, intFails]
    split_ifs with h₁ h₂ h₃
    · simp [h₁]
    · simp [h₂]
    · simp [h₃]
    · simp [h₁, h₂, h₃]

/-- Streams with the same tokens are read alike. -/
theorem int_congr {s s' : IStream} (old : ℤ) (h : s.tokens = s'.tokens) :
    (s.int old).1 = (s'.int old).1 ∧ (s.int old).2.tokens = (s'.int old).2.tokens ∧
      (s.int old).2.fail = (s'.int old).2.fail := by
  obtain ⟨hvalue, hrest⟩ := int_tokens old s
  obtain ⟨hvalue', hrest'⟩ := int_tokens old s'
  rw [hvalue, hvalue', hrest, hrest', int_fail, int_fail, h]
  exact ⟨rfl, rfl, rfl⟩

theorem word_congr {s s' : IStream} (h : s.tokens = s'.tokens) :
    s.word.1 = s'.word.1 ∧ s.word.2.tokens = s'.word.2.tokens ∧
      s.word.2.fail = s'.word.2.fail := by
  obtain ⟨hvalue, hrest⟩ := word_eq s
  obtain ⟨hvalue', hrest'⟩ := word_eq s'
  refine ⟨by rw [hvalue, hvalue', h], by rw [hrest, hrest', h], ?_⟩
  cases ht : s.tokens with
  | nil => rw [(word_of_tokens_nil ht).2.2, (word_of_tokens_nil (h ▸ ht)).2.2]
  | cons t ts => rw [(word_of_tokens_cons ht).2.2, (word_of_tokens_cons (h ▸ ht)).2.2]

theorem size_tokens (old : ℕ) (s : IStream) : (s.size old).1 = sizeTokens old s.tokens := by
  cases h : s.tokens with
  | nil => exact (size_of_tokens_nil old h).1
  | cons t ts =>
    obtain ⟨hg, b, -, -, -, htok, hdrop, -⟩ := sentry_token h
    have hnum := numeral_token s.sentry.buf
    rw [htok, hdrop] at hnum
    simp only [size, hg, if_true, hnum, sizeTokens]
    split
    · rfl
    · split <;> rfl

theorem sizeTokens_numeral {old : ℕ} {t : Bytes} {ts : List Bytes} (h : IsNumeral t)
    (hlt : digitsValue t < 2 ^ 64) : sizeTokens old (t :: ts) = digitsValue t := by
  rw [sizeTokens, numeral_of_isNumeral h, if_neg h.1, if_neg (not_le.mpr hlt),
    if_neg Bool.false_ne_true]

/-- The text that a floating-point extraction reads of a token does not depend on what follows. -/
theorem floatChars_token {t b : Bytes} (ht : ∀ c ∈ t, isSpace c = false)
    (hb : ∀ c ∈ b.head?, isSpace c = true) (zeros man dec sci mark : Bool) :
    (floatChars zeros man dec sci mark (t ++ b)).1 = (floatChars zeros man dec sci mark t).1 := by
  induction t generalizing zeros man dec sci mark with
  | nil =>
    rw [List.nil_append, floatChars_stop hb]
    rfl
  | cons c t ih =>
    have ih := ih fun d hd => ht d (List.mem_cons_of_mem _ hd)
    rw [List.cons_append, floatChars, floatChars]
    split
    · exact congrArg (c :: ·) (ih _ _ _ _ _)
    · split
      · simp only [ih]
      · split
        · exact congrArg (c :: ·) (ih _ _ _ _ _)
        · split
          · exact congrArg (46 :: ·) (ih _ _ _ _ _)
          · split
            · exact congrArg (101 :: ·) (ih _ _ _ _ _)
            · rfl

theorem floatLexeme_token {t b : Bytes} (h : t ≠ []) (ht : ∀ c ∈ t, isSpace c = false)
    (hb : ∀ c ∈ b.head?, isSpace c = true) : (floatLexeme (t ++ b)).1 = (floatLexeme t).1 := by
  match t with
  | [] => exact absurd rfl h
  | c :: t =>
    have htail : ∀ d ∈ t, isSpace d = false := fun d hd => ht d (List.mem_cons_of_mem _ hd)
    by_cases h45 : c = 45
    · subst h45
      exact congrArg (45 :: ·) (floatChars_token htail hb _ _ _ _ _)
    · by_cases h43 : c = 43
      · subst h43
        exact congrArg (43 :: ·) (floatChars_token htail hb _ _ _ _ _)
      · have hplain : ∀ b, floatLexeme (c :: b) =
            floatChars true false false false false (c :: b) := by
          intro b
          unfold floatLexeme
          split
          · rename_i heq
            exact absurd (List.cons.inj heq).1 h45
          · rename_i heq
            exact absurd (List.cons.inj heq).1 h43
          · rfl
        rw [List.cons_append, hplain, hplain, ← List.cons_append, floatChars_token ht hb]

/-- `iss >> x` for a `float x` as far as tokens go. -/
def floatTokens {F : Type} (strtof : Bytes → F × Bool) (old : F) : List Bytes → F
  | [] => old
  | t :: _ => (strtof (floatLexeme t).1).1

theorem floatTokens_decimal {F : Type} {strtof : Bytes → F × Bool} {old : F} {t : Bytes}
    {ts : List Bytes} (h : IsDecimal t) :
    floatTokens strtof old (t :: ts) = (strtof (trimZeros t)).1 := by
  have hlex : (floatLexeme (t ++ [])).1 = trimZeros t := floatLexeme_of_token h (by simp)
  rw [List.append_nil] at hlex
  rw [floatTokens, hlex]

theorem float_tokens {F : Type} (strtof : Bytes → F × Bool) (old : F) (s : IStream) :
    (s.float strtof old).1 = floatTokens strtof old s.tokens := by
  cases h : s.tokens with
  | nil => exact float_of_tokens_nil strtof old h
  | cons t ts =>
    obtain ⟨hg, b, hbuf, hspace, -, htok, -, ht⟩ := sentry_token h
    have hne : t ≠ [] := by
      have hmem : t ∈ words s.buf := by
        unfold tokens at h
        split at h
        · rw [h]
          exact List.mem_cons_self
        · cases h
      exact words_ne_nil hmem
    simp only [float, hg, if_true, hbuf, floatLexeme_token hne ht hspace, floatTokens]

end CctvServer.IStream
