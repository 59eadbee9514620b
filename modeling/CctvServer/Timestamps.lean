import CctvServer.Bytes

namespace CctvServer

def pad2 (n : ℕ) : Bytes := [UInt8.ofNat (48 + n / 10), UInt8.ofNat (48 + n % 10)]

def pad4 (n : ℕ) : Bytes := pad2 (n / 100) ++ pad2 (n % 100)

@[simp] theorem pad4_length (n : ℕ) : (pad4 n).length = 4 := rfl

theorem append_lt_append_iff {a a' b b' : Bytes} (h : a.length = a'.length) :
    a ++ b < a' ++ b' ↔ a < a' ∨ (a = a' ∧ b < b') := by
  induction a generalizing a' with
  | nil =>
    have ha' : a' = [] := List.eq_nil_of_length_eq_zero h.symm
    simp [ha']
  | cons c a ih =>
    cases a' with
    | nil => cases h
    | cons c' a' =>
      have hlen : a.length = a'.length := by simpa using h
      simp only [List.cons_append, List.cons_lt_cons_iff, ih hlen, List.cons.injEq]
      tauto

theorem ofNat_lt_iff {m n : ℕ} (hm : m < 256) (hn : n < 256) :
    UInt8.ofNat m < UInt8.ofNat n ↔ m < n := by
  rw [UInt8.lt_iff_toNat_lt, UInt8.toNat_ofNat', UInt8.toNat_ofNat', Nat.mod_eq_of_lt hm,
    Nat.mod_eq_of_lt hn]

theorem ofNat_inj {m n : ℕ} (hm : m < 256) (hn : n < 256) :
    UInt8.ofNat m = UInt8.ofNat n ↔ m = n := by
  rw [← UInt8.toNat_inj, UInt8.toNat_ofNat', UInt8.toNat_ofNat', Nat.mod_eq_of_lt hm,
    Nat.mod_eq_of_lt hn]

theorem pad2_lt {m n : ℕ} (hm : m < 100) (hn : n < 100) : pad2 m < pad2 n ↔ m < n := by
  have h₁ : 48 + m / 10 < 256 := by omega
  have h₂ : 48 + n / 10 < 256 := by omega
  have h₃ : 48 + m % 10 < 256 := by omega
  have h₄ : 48 + n % 10 < 256 := by omega
  simp only [pad2, List.cons_lt_cons_iff, ofNat_lt_iff h₁ h₂, ofNat_inj h₁ h₂, ofNat_lt_iff h₃ h₄,
    List.not_lt_nil, and_false, or_false]
  omega

theorem pad2_inj {m n : ℕ} (hm : m < 100) (hn : n < 100) : pad2 m = pad2 n ↔ m = n := by
  have h₁ : 48 + m / 10 < 256 := by omega
  have h₂ : 48 + n / 10 < 256 := by omega
  have h₃ : 48 + m % 10 < 256 := by omega
  have h₄ : 48 + n % 10 < 256 := by omega
  simp only [pad2, List.cons.injEq, ofNat_inj h₁ h₂, ofNat_inj h₃ h₄, and_true]
  omega

theorem pad4_lt {m n : ℕ} (hm : m < 10000) (hn : n < 10000) : pad4 m < pad4 n ↔ m < n := by
  have hlen : (pad2 (m / 100)).length = (pad2 (n / 100)).length := rfl
  rw [pad4, pad4, append_lt_append_iff hlen, pad2_lt (by omega) (by omega),
    pad2_inj (by omega) (by omega), pad2_lt (by omega) (by omega)]
  omega

theorem pad4_inj {m n : ℕ} (hm : m < 10000) (hn : n < 10000) : pad4 m = pad4 n ↔ m = n := by
  refine ⟨fun h => ?_, congrArg pad4⟩
  rcases lt_trichotomy m n with hlt | heq | hlt
  · exact absurd ((pad4_lt hm hn).mpr hlt) (h ▸ List.lt_irrefl _)
  · exact heq
  · exact absurd ((pad4_lt hn hm).mpr hlt) (h ▸ List.lt_irrefl _)

theorem isDigit_pad2 {n : ℕ} (h : n < 100) : ∀ c ∈ pad2 n, isDigit c = true := by
  have hall : ∀ n < 100, ∀ c ∈ pad2 n, isDigit c = true := by decide
  exact hall n h

theorem isDigit_pad4 {n : ℕ} (h : n < 10000) : ∀ c ∈ pad4 n, isDigit c = true := by
  intro c hc
  rcases List.mem_append.mp hc with hc | hc
  · exact isDigit_pad2 (by omega) c hc
  · exact isDigit_pad2 (by omega) c hc

/-- A calendar day in the form `YYYY-MM-DD`. -/
structure Day where
  year : ℕ
  month : ℕ
  day : ℕ
  year_lt : year < 10000
  month_lt : month < 100
  day_lt : day < 100

/-- A time in the form `YYYY-MM-DD HH:MM:SS`. -/
structure Stamp where
  date : Day
  hour : ℕ
  minute : ℕ
  second : ℕ
  hour_lt : hour < 24
  minute_lt : minute < 60
  second_lt : second < 60

namespace Day

def inMay (day : ℕ) (h : day < 100) : Day := ⟨2025, 5, day, by decide, by decide, h⟩

def may30 : Day := inMay 30 (by decide)

def text (d : Day) : Bytes := pad4 d.year ++ 45 :: (pad2 d.month ++ 45 :: pad2 d.day)

def key (d : Day) : ℕ := (d.year * 100 + d.month) * 100 + d.day

theorem text_length (d : Day) : d.text.length = 10 := rfl

theorem text_lt (d e : Day) : d.text < e.text ↔ d.key < e.key := by
  have hy : (pad4 d.year).length = (pad4 e.year).length := rfl
  have hm : (pad2 d.month).length = (pad2 e.month).length := rfl
  have := d.month_lt
  have := d.day_lt
  have := e.month_lt
  have := e.day_lt
  simp only [text, key, append_lt_append_iff hy, append_lt_append_iff hm, List.cons_lt_cons_iff,
    pad4_lt d.year_lt e.year_lt, pad4_inj d.year_lt e.year_lt, pad2_lt d.month_lt e.month_lt,
    pad2_inj d.month_lt e.month_lt, pad2_lt d.day_lt e.day_lt, UInt8.lt_irrefl, false_or, true_and]
  omega

theorem text_inj (d e : Day) : d.text = e.text ↔ d.key = e.key := by
  constructor
  · intro h
    rcases lt_trichotomy d.key e.key with hlt | heq | hlt
    · exact absurd ((text_lt d e).mpr hlt) (h ▸ List.lt_irrefl _)
    · exact heq
    · exact absurd ((text_lt e d).mpr hlt) (h ▸ List.lt_irrefl _)
  · intro h
    have h₁ : ¬ d.text < e.text := by rw [text_lt]; omega
    have h₂ : ¬ e.text < d.text := by rw [text_lt]; omega
    exact List.le_antisymm (List.not_lt.mp h₂) (List.not_lt.mp h₁)

end Day

namespace Stamp

def text (sep : UInt8) (t : Stamp) : Bytes :=
  t.date.text ++ sep :: (pad2 t.hour ++ 58 :: (pad2 t.minute ++ 58 :: pad2 t.second))

def key (t : Stamp) : ℕ := ((t.date.key * 100 + t.hour) * 100 + t.minute) * 100 + t.second

/-- Bytewise order is chronological order. -/
theorem text_lt (sep : UInt8) (t u : Stamp) : t.text sep < u.text sep ↔ t.key < u.key := by
  have hd : t.date.text.length = u.date.text.length := rfl
  have hh : (pad2 t.hour).length = (pad2 u.hour).length := rfl
  have hm : (pad2 t.minute).length = (pad2 u.minute).length := rfl
  have h₁ : t.hour < 100 := by have := t.hour_lt; omega
  have h₂ : u.hour < 100 := by have := u.hour_lt; omega
  have h₃ : t.minute < 100 := by have := t.minute_lt; omega
  have h₄ : u.minute < 100 := by have := u.minute_lt; omega
  have h₅ : t.second < 100 := by have := t.second_lt; omega
  have h₆ : u.second < 100 := by have := u.second_lt; omega
  simp only [text, key, append_lt_append_iff hd, append_lt_append_iff hh, append_lt_append_iff hm,
    List.cons_lt_cons_iff, Day.text_lt, Day.text_inj, pad2_lt h₁ h₂, pad2_inj h₁ h₂,
    pad2_lt h₃ h₄, pad2_inj h₃ h₄, pad2_lt h₅ h₆, UInt8.lt_irrefl, false_or, true_and]
  omega

theorem text_le (sep : UInt8) (t u : Stamp) : t.text sep ≤ u.text sep ↔ t.key ≤ u.key := by
  rw [← List.not_lt, text_lt, not_lt]

def midnight (d : Day) : Stamp := ⟨d, 0, 0, 0, by decide, by decide, by decide⟩

def lastSecond (d : Day) : Stamp := ⟨d, 23, 59, 59, by decide, by decide, by decide⟩

def fullHour (d : Day) (hour : ℕ) (h : hour < 24) : Stamp :=
  ⟨d, hour, 0, 0, h, by decide, by decide⟩

/-- A time lies on or after a day, or on or before it, as its own day does. -/
theorem midnight_key_le (d : Day) (t : Stamp) : (midnight d).key ≤ t.key ↔ d.key ≤ t.date.key := by
  have := t.hour_lt
  have := t.minute_lt
  have := t.second_lt
  simp only [key, midnight]
  omega

theorem key_le_lastSecond (d : Day) (t : Stamp) :
    t.key ≤ (lastSecond d).key ↔ t.date.key ≤ d.key := by
  have := t.hour_lt
  have := t.minute_lt
  have := t.second_lt
  simp only [key, lastSecond]
  omega

theorem mem_text {sep : UInt8} {t : Stamp} {c : UInt8} (h : c ∈ t.text sep) :
    isDigit c = true ∨ c = 45 ∨ c = 58 ∨ c = sep := by
  have hp : ∀ n < 100, c ∈ pad2 n → isDigit c = true := fun n hn hc => isDigit_pad2 hn c hc
  have hy := isDigit_pad4 t.date.year_lt c
  have hm := hp _ t.date.month_lt
  have hd := hp _ t.date.day_lt
  have hh := hp t.hour (by have := t.hour_lt; omega)
  have hmi := hp t.minute (by have := t.minute_lt; omega)
  have hs := hp t.second (by have := t.second_lt; omega)
  simp only [text, Day.text, List.mem_append, List.mem_cons] at h
  rcases h with (h | rfl | h | rfl | h) | rfl | h | rfl | h | rfl | h
  · exact .inl (hy h)
  · exact .inr (.inl rfl)
  · exact .inl (hm h)
  · exact .inr (.inl rfl)
  · exact .inl (hd h)
  · exact .inr (.inr (.inr rfl))
  · exact .inl (hh h)
  · exact .inr (.inr (.inl rfl))
  · exact .inl (hmi h)
  · exact .inr (.inr (.inl rfl))
  · exact .inl (hs h)

theorem colon_mem_text (sep : UInt8) (t : Stamp) : (58 : UInt8) ∈ t.text sep := by
  simp [text]

end Stamp

end CctvServer
