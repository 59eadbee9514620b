import CctvServer.JsonLexemes

namespace CctvServer

namespace JsonLexer

open JsonText

namespace NumberState

def after (state : NumberState) (t : Bytes) : Option NumberState := t.foldlM next state

@[simp] theorem after_nil (state : NumberState) : state.after [] = some state := rfl

@[simp] theorem after_cons (state : NumberState) (c : UInt8) (t : Bytes) :
    state.after (c :: t) = (state.next c).bind fun state' => state'.after t := rfl

theorem after_append (state : NumberState) (a b : Bytes) :
    state.after (a ++ b) = (state.after a).bind fun state' => state'.after b := List.foldlM_append

/-- The number ends before this text. -/
def Stops (state : NumberState) (rest : Bytes) : Prop := ∀ c ∈ rest.head?, state.next c = none

/-- The scanner reads a number as far as it can. -/
theorem exists_after (state : NumberState) (b : Bytes) :
    ∃ t state' rest, b = t ++ rest ∧ state.after t = some state' ∧ state'.Stops rest := by
  induction b generalizing state with
  | nil => exact ⟨[], state, [], rfl, rfl, nofun⟩
  | cons c b ih =>
    cases hc : state.next c with
    | none => exact ⟨[], state, c :: b, rfl, rfl, by simp [Stops, hc]⟩
    | some state₁ =>
      obtain ⟨t, state', rest, rfl, ht, hstop⟩ := ih state₁
      exact ⟨c :: t, state', rest, rfl, by simp [hc, ht], hstop⟩

theorem after_digits {state : NumberState} (hs : ∀ c, isDigit c = true → state.next c = some state)
    {ds : Bytes} (h : ∀ c ∈ ds, isDigit c = true) : state.after ds = some state := by
  induction ds with
  | nil => rfl
  | cons c ds ih =>
    obtain ⟨hc, hds⟩ := List.forall_mem_cons.mp h
    simp [hs c hc, ih hds]

theorem isExponent_iff {c : UInt8} : isExponent c = true ↔ c = 101 ∨ c = 69 := by
  simp [isExponent]

theorem isDigit_zero : isDigit 48 = true := by decide

def Fraction (t : Bytes) : Prop := t = [] ∨ ∃ ds, Digits ds ∧ t = 46 :: ds

def Exponent (t : Bytes) : Prop :=
  t = [] ∨ ∃ e s ds, (e = 101 ∨ e = 69) ∧ (s = [] ∨ s = [43] ∨ s = [45]) ∧ Digits ds ∧
    t = e :: s ++ ds

/-- What can follow in a state so that the number is complete. -/
def Completes : NumberState → Bytes → Prop
  | init, t => Number t
  | minus, t => Number (45 :: t)
  | zero, t => ∃ f e, t = f ++ e ∧ Fraction f ∧ Exponent e
  | any1, t => ∃ ds f e, t = ds ++ f ++ e ∧ (∀ c ∈ ds, isDigit c = true) ∧ Fraction f ∧ Exponent e
  | decimal1, t => ∃ ds e, t = ds ++ e ∧ Digits ds ∧ Exponent e
  | decimal2, t => ∃ ds e, t = ds ++ e ∧ (∀ c ∈ ds, isDigit c = true) ∧ Exponent e
  | exponent, t => ∃ s ds, t = s ++ ds ∧ (s = [] ∨ s = [43] ∨ s = [45]) ∧ Digits ds
  | sign, t => Digits t
  | any2, t => ∀ c ∈ t, isDigit c = true

theorem digits_cons {c : UInt8} {ds : Bytes} (hc : isDigit c = true)
    (h : ∀ c ∈ ds, isDigit c = true) : Digits (c :: ds) :=
  ⟨by simp, List.forall_mem_cons.mpr ⟨hc, h⟩⟩

theorem number_of_zero {sign t : Bytes} (hsign : sign = [] ∨ sign = [45]) (h : zero.Completes t) :
    Number (sign ++ 48 :: t) := by
  obtain ⟨f, e, rfl, hf, he⟩ := h
  exact ⟨sign, [48], f, e, by simp, hsign,
    ⟨digits_cons isDigit_zero (List.forall_mem_nil _), .inl rfl⟩, hf, he⟩

theorem number_of_any1 {sign t : Bytes} {c : UInt8} (hsign : sign = [] ∨ sign = [45])
    (hc : isDigit c = true) (h48 : c ≠ 48) (h : any1.Completes t) : Number (sign ++ c :: t) := by
  obtain ⟨ds, f, e, rfl, hds, hf, he⟩ := h
  exact ⟨sign, c :: ds, f, e, by simp, hsign, ⟨digits_cons hc hds, .inr (by simpa using h48)⟩,
    hf, he⟩

theorem completes_cons {state state' : NumberState} {c : UInt8} {t : Bytes}
    (hc : state.next c = some state') (h : state'.Completes t) : state.Completes (c :: t) := by
  cases state with
  | init =>
    simp only [next] at hc
    split_ifs at hc with h45 h48 hd <;> cases hc
    · exact h45 ▸ h
    · exact h48 ▸ number_of_zero (.inl rfl) h
    · exact number_of_any1 (.inl rfl) hd h48 h
  | minus =>
    simp only [next] at hc
    split_ifs at hc with h48 hd <;> cases hc
    · exact h48 ▸ number_of_zero (.inr rfl) h
    · exact number_of_any1 (.inr rfl) hd h48 h
  | zero =>
    simp only [next] at hc
    split_ifs at hc with h46 hexp <;> cases hc
    · obtain ⟨ds, e, rfl, hds, he⟩ := h
      exact ⟨46 :: ds, e, by simp [h46], .inr ⟨ds, hds, rfl⟩, he⟩
    · obtain ⟨s, ds, rfl, hs, hds⟩ := h
      exact ⟨[], c :: s ++ ds, rfl, .inl rfl, .inr ⟨c, s, ds, isExponent_iff.mp hexp, hs, hds, rfl⟩⟩
  | any1 =>
    simp only [next] at hc
    split_ifs at hc with hd h46 hexp <;> cases hc
    · obtain ⟨ds, f, e, rfl, hds, hf, he⟩ := h
      exact ⟨c :: ds, f, e, rfl, List.forall_mem_cons.mpr ⟨hd, hds⟩, hf, he⟩
    · obtain ⟨ds, e, rfl, hds, he⟩ := h
      exact ⟨[], 46 :: ds, e, by simp [h46], List.forall_mem_nil _, .inr ⟨ds, hds, rfl⟩, he⟩
    · obtain ⟨s, ds, rfl, hs, hds⟩ := h
      exact ⟨[], [], c :: s ++ ds, rfl, List.forall_mem_nil _, .inl rfl,
        .inr ⟨c, s, ds, isExponent_iff.mp hexp, hs, hds, rfl⟩⟩
  | decimal1 =>
    simp only [next] at hc
    split_ifs at hc with hd
    cases hc
    obtain ⟨ds, e, rfl, hds, he⟩ := h
    exact ⟨c :: ds, e, rfl, digits_cons hd hds, he⟩
  | decimal2 =>
    simp only [next] at hc
    split_ifs at hc with hd hexp <;> cases hc
    · obtain ⟨ds, e, rfl, hds, he⟩ := h
      exact ⟨c :: ds, e, rfl, List.forall_mem_cons.mpr ⟨hd, hds⟩, he⟩
    · obtain ⟨s, ds, rfl, hs, hds⟩ := h
      exact ⟨[], c :: s ++ ds, rfl, List.forall_mem_nil _,
        .inr ⟨c, s, ds, isExponent_iff.mp hexp, hs, hds, rfl⟩⟩
  | exponent =>
    simp only [next] at hc
    split_ifs at hc with hsign hd <;> cases hc
    · exact ⟨[c], t, rfl, .inr (by simpa using hsign), h⟩
    · exact ⟨[], c :: t, rfl, .inl rfl, digits_cons hd h⟩
  | sign =>
    simp only [next] at hc
    split_ifs at hc with hd
    cases hc
    exact digits_cons hd h
  | any2 =>
    simp only [next] at hc
    split_ifs at hc with hd
    cases hc
    exact List.forall_mem_cons.mpr ⟨hd, h⟩

theorem completes_of_after {state state' : NumberState} {t : Bytes}
    (h : state.after t = some state') (hdone : state'.done = true) : state.Completes t := by
  induction t generalizing state with
  | nil =>
    obtain rfl := Option.some.inj h
    cases state with
    | zero => exact ⟨[], [], rfl, .inl rfl, .inl rfl⟩
    | any1 => exact ⟨[], [], [], rfl, List.forall_mem_nil _, .inl rfl, .inl rfl⟩
    | decimal2 => exact ⟨[], [], rfl, List.forall_mem_nil _, .inl rfl⟩
    | any2 => exact List.forall_mem_nil _
    | _ => cases hdone
  | cons c t ih =>
    obtain ⟨state₁, hc, ht⟩ := Option.bind_eq_some_iff.mp h
    exact completes_cons hc (ih ht)

theorem after_exponent {state : NumberState} (hs : ∀ c, isExponent c = true →
    state.next c = some exponent) (hdone : state.done = true) {t : Bytes} (h : Exponent t) :
    ∃ state', state.after t = some state' ∧ state'.done = true := by
  obtain rfl | ⟨e, s, ds, he, hsign, ⟨hne, hds⟩, rfl⟩ := h
  · exact ⟨state, rfl, hdone⟩
  · obtain ⟨d, ds, rfl⟩ := List.exists_cons_of_ne_nil hne
    obtain ⟨hd, hds⟩ := List.forall_mem_cons.mp hds
    have hrest : any2.after ds = some any2 := after_digits (fun c hc => by simp [next, hc]) hds
    have hd43 : d ≠ 43 := ne_of_isDigit hd (by decide)
    have hd45 : d ≠ 45 := ne_of_isDigit hd (by decide)
    have hdigit : exponent.next d = some any2 := by simp [next, hd, hd43, hd45]
    have hsigned : ∀ c, c = 43 ∨ c = 45 → (exponent.next c = some .sign) ∧
        NumberState.sign.next d = some any2 := fun c hc => by simp [next, hd, hc]
    refine ⟨any2, ?_, rfl⟩
    rcases hsign with rfl | rfl | rfl
    · simp [hs e (isExponent_iff.mpr he), hdigit, hrest]
    · simp [hs e (isExponent_iff.mpr he), hsigned 43 (.inl rfl), hrest]
    · simp [hs e (isExponent_iff.mpr he), hsigned 45 (.inr rfl), hrest]

theorem after_fraction {state : NumberState} (hpoint : state.next 46 = some decimal1)
    (hs : ∀ c, isExponent c = true → state.next c = some exponent) (hdone : state.done = true)
    {f e : Bytes} (hf : Fraction f) (he : Exponent e) :
    ∃ state', state.after (f ++ e) = some state' ∧ state'.done = true := by
  obtain rfl | ⟨ds, ⟨hne, hds⟩, rfl⟩ := hf
  · exact after_exponent hs hdone he
  · obtain ⟨d, ds, rfl⟩ := List.exists_cons_of_ne_nil hne
    obtain ⟨hd, hds⟩ := List.forall_mem_cons.mp hds
    have hrest : decimal2.after ds = some decimal2 :=
      after_digits (fun c hc => by simp [next, hc]) hds
    have hexp : ∀ c, isExponent c = true → decimal2.next c = some exponent := by
      intro c hc
      have hc' : isDigit c = false := by
        rcases isExponent_iff.mp hc with rfl | rfl <;> decide
      simp [next, hc, hc']
    obtain ⟨state', hafter, hdone'⟩ := after_exponent hexp rfl he
    have hdigit : decimal1.next d = some decimal2 := by simp [next, hd]
    refine ⟨state', ?_, hdone'⟩
    simp [hpoint, hdigit, after_append, hrest, hafter]

theorem next_exponent {c : UInt8} (hc : isExponent c = true) :
    zero.next c = some exponent ∧ any1.next c = some exponent := by
  rcases isExponent_iff.mp hc with rfl | rfl <;> decide

theorem after_of_number {t : Bytes} (h : Number t) :
    ∃ state, init.after t = some state ∧ state.done = true := by
  obtain ⟨sign, whole, f, e, rfl, hsign, ⟨⟨hne, hdigits⟩, hlead⟩, hf, he⟩ := h.parts
  obtain ⟨d, ds, rfl⟩ := List.exists_cons_of_ne_nil hne
  obtain ⟨hd, hds⟩ := List.forall_mem_cons.mp hdigits
  have hd45 : d ≠ 45 := ne_of_isDigit hd (by decide)
  -- the state behind the first digit, with or without a sign
  have hfirst : init.after (sign ++ [d]) = if d = 48 then some zero else some any1 := by
    rcases hsign with rfl | rfl <;> by_cases h48 : d = 48 <;> simp [next, hd, hd45, h48]
  have hsplit : sign ++ d :: ds ++ f ++ e = (sign ++ [d]) ++ (ds ++ (f ++ e)) := by simp
  rw [hsplit, after_append, hfirst]
  by_cases h48 : d = 48
  · have hnil : ds = [] := by
      rcases hlead with hlead | hlead
      · exact (List.cons.inj hlead).2
      · exact absurd (congrArg some h48) hlead
    rw [if_pos h48, Option.bind_some, hnil, List.nil_append]
    exact after_fraction rfl (fun c hc => (next_exponent hc).1) rfl hf he
  · have hrest : any1.after ds = some any1 := after_digits (fun c hc => by simp [next, hc]) hds
    rw [if_neg h48, Option.bind_some, after_append, hrest, Option.bind_some]
    exact after_fraction rfl (fun c hc => (next_exponent hc).2) rfl hf he

/-- The numbers are what the scanner can stop behind. -/
theorem number_iff_after {t : Bytes} :
    Number t ↔ ∃ state, init.after t = some state ∧ state.done = true :=
  ⟨after_of_number, fun ⟨_, h, hdone⟩ => completes_of_after h hdone⟩

end NumberState

def numberType (t : Bytes) : NumberType :=
  if t.any fun c => c == 46 || isExponent c then .float
  else if t.head? = some 45 then .integer else .unsigned

theorem plain_of_isDigit {c : UInt8} (h : isDigit c = true) :
    c ≠ 45 ∧ c ≠ 46 ∧ isExponent c = false := by
  refine ⟨ne_of_isDigit h (by decide), ne_of_isDigit h (by decide), ?_⟩
  rw [Bool.eq_false_iff, Ne, NumberState.isExponent_iff]
  rintro (rfl | rfl) <;> exact absurd h (by decide)

/-- A point or an exponent makes a number a float, else a leading minus an integer. -/
theorem enter_next {k : NumberType} {state state' : NumberState} {c : UInt8}
    (h : state.next c = some state') : state' ≠ .init ∧ k.enter state' =
      if c == 46 || isExponent c then .float
      else if state = .init ∧ c = 45 then .integer else k := by
  have hminus : isExponent 45 = false := by decide
  have hplus : isExponent 43 = false := by decide
  have hzero : isExponent 48 = false := by decide
  have hsign : c = 43 ∨ c = 45 → (c == 46 || isExponent c) = false := by
    rintro (rfl | rfl) <;> decide
  cases state <;> simp only [NumberState.next] at h <;> split_ifs at h <;> cases h <;>
    simp_all [NumberType.enter, plain_of_isDigit]

theorem scanNumber_append {type : NumberType} {state state' : NumberState} {t : Bytes}
    (h : state.after t = some state') (s rest : Bytes) :
    scanNumber state type s (t ++ rest) = scanNumber state'
      (if t.any fun c => c == 46 || isExponent c then .float
        else if state = .init ∧ t.head? = some 45 then .integer else type) (s ++ t) rest := by
  induction t generalizing state type s with
  | nil =>
    obtain rfl := Option.some.inj h
    simp
  | cons c t ih =>
    obtain ⟨state₁, hc, ht⟩ := Option.bind_eq_some_iff.mp h
    obtain ⟨hinit, htype⟩ := enter_next (k := type) hc
    rw [List.cons_append, scanNumber, hc]
    simp only [ih ht, htype, hinit, List.any_cons, List.head?_cons, Option.some.injEq, false_and,
      if_false, List.append_assoc, List.singleton_append]
    generalize t.any (fun c => c == 46 || isExponent c) = later
    generalize (c == 46 || isExponent c) = here
    cases later <;> cases here <;> rfl

theorem scanNumber_stop {type : NumberType} {state : NumberState} {s rest : Bytes}
    (h : state.Stops rest) : scanNumber state type s rest =
      if state.done then (numberToken type s, rest) else (.parseError, []) := by
  cases rest with
  | nil => rfl
  | cons c rest => simp [scanNumber, h c rfl]

/-- What follows does not continue the text, if the text is a number. -/
def Ends (t rest : Bytes) : Prop :=
  ∀ state, NumberState.init.after t = some state → state.Stops rest

/-- Every number is read as far as it goes, and nothing else is. -/
theorem scanNumber_iff {b rest : Bytes} {token : Token} (htoken : token ≠ .parseError) :
    scanNumber .init .unsigned [] b = (token, rest) ↔
      ∃ t, b = t ++ rest ∧ Number t ∧ Ends t rest ∧ token = numberToken (numberType t) t := by
  have hscan : ∀ {t rest : Bytes} {state : NumberState}, NumberState.init.after t = some state →
      state.Stops rest → scanNumber .init .unsigned [] (t ++ rest) =
        if state.done then (numberToken (numberType t) t, rest) else (.parseError, []) := by
    intro t rest state ht hstop
    rw [scanNumber_append ht, scanNumber_stop hstop]
    simp [numberType]
  constructor
  · intro h
    obtain ⟨t, state, rest', rfl, ht, hstop⟩ := NumberState.exists_after .init b
    rw [hscan ht hstop] at h
    split_ifs at h with hdone
    · cases h
      refine ⟨t, rfl, NumberState.number_iff_after.mpr ⟨state, ht, hdone⟩,
        fun state' ht' => ?_, rfl⟩
      obtain rfl := Option.some.inj (ht.symm.trans ht')
      exact hstop
    · exact absurd (Prod.mk.inj h).1.symm htoken
  · rintro ⟨t, rfl, hnumber, hends, rfl⟩
    obtain ⟨state, ht, hdone⟩ := NumberState.number_iff_after.mp hnumber
    rw [hscan ht (hends state ht), if_pos hdone]

inductive Lexeme : Bytes → Token → Prop
  | literalTrue : Lexeme (ascii "true") .literalTrue
  | literalFalse : Lexeme (ascii "false") .literalFalse
  | literalNull : Lexeme (ascii "null") .literalNull
  | string {t s : Bytes} (quoted : Quoted t s) : Lexeme t (.valueString s)
  | number {t : Bytes} (number : Number t) : Lexeme t (numberToken (numberType t) t)
  | beginArray : Lexeme [91] .beginArray
  | endArray : Lexeme [93] .endArray
  | beginObject : Lexeme [123] .beginObject
  | endObject : Lexeme [125] .endObject
  | nameSeparator : Lexeme [58] .nameSeparator
  | valueSeparator : Lexeme [44] .valueSeparator

def Token.text : Token → Option Bytes
  | .literalTrue => some (ascii "true")
  | .literalFalse => some (ascii "false")
  | .literalNull => some (ascii "null")
  | .beginArray => some [91]
  | .endArray => some [93]
  | .beginObject => some [123]
  | .endObject => some [125]
  | .nameSeparator => some [58]
  | .valueSeparator => some [44]
  | _ => none

theorem numberToken_cases (type : NumberType) (t : Bytes) :
    (∃ n, numberToken type t = .valueUnsigned n) ∨ (∃ n, numberToken type t = .valueInteger n) ∨
      numberToken type t = .valueFloat t := by
  cases type with
  | unsigned =>
    rw [numberToken]
    split_ifs
    · exact .inl ⟨_, rfl⟩
    · exact .inr (.inr rfl)
  | integer =>
    rw [numberToken]
    split_ifs
    · exact .inr (.inl ⟨_, rfl⟩)
    · exact .inr (.inr rfl)
  | float => exact .inr (.inr rfl)

theorem numberToken_ne (type : NumberType) (t : Bytes) : numberToken type t ≠ .parseError := by
  rcases numberToken_cases type t with ⟨n, h⟩ | ⟨n, h⟩ | h <;> simp [h]

theorem Lexeme.eq_text {t u : Bytes} {token : Token} (h : Lexeme t token)
    (hu : token.text = some u) : t = u := by
  cases h with
  | string => cases hu
  | number =>
    rename_i number
    rcases numberToken_cases (numberType t) t with ⟨n, h⟩ | ⟨n, h⟩ | h <;>
      simp [h, Token.text] at hu
  | _ => exact Option.some.inj hu

theorem Lexeme.quoted {t s : Bytes} (h : Lexeme t (.valueString s)) : Quoted t s := by
  generalize htoken : Token.valueString s = token at h
  cases h with
  | string quoted =>
    cases htoken
    exact quoted
  | number =>
    rcases numberToken_cases (numberType t) t with ⟨n, h⟩ | ⟨n, h⟩ | h <;> simp [h] at htoken
  | _ => cases htoken

theorem next_init {c : UInt8} {state : NumberState} (h : NumberState.init.next c = some state) :
    c = 45 ∨ isDigit c = true := by
  simp only [NumberState.next] at h
  split_ifs at h with h45 h48 hd
  · exact .inl h45
  · exact .inr (h48 ▸ NumberState.isDigit_zero)
  · exact .inr hd

theorem Number.cons {t : Bytes} (h : Number t) :
    ∃ c u, t = c :: u ∧ (c = 45 ∨ isDigit c = true) := by
  obtain ⟨state, hafter, hdone⟩ := NumberState.number_iff_after.mp h
  cases t with
  | nil =>
    obtain rfl := Option.some.inj hafter
    cases hdone
  | cons c u =>
    obtain ⟨state₁, hc, -⟩ := Option.bind_eq_some_iff.mp hafter
    exact ⟨c, u, rfl, next_init hc⟩

theorem ascii_of_number {t : Bytes} (h : Number t) : ∀ c ∈ t, c ≤ 0x7F := by
  have hdigit : ∀ {c : UInt8}, isDigit c = true → c ≤ 0x7F := by
    intro c hc
    simp only [isDigit, Bool.and_eq_true, decide_eq_true_eq] at hc
    exact UInt8.le_trans hc.2 (by decide)
  obtain ⟨sign, whole, f, e, rfl, hsign, ⟨hwhole, -⟩, hf, he⟩ := h.parts
  intro c hc
  simp only [List.mem_append] at hc
  rcases hc with ((hc | hc) | hc) | hc
  · rcases hsign with rfl | rfl
    · cases hc
    · exact List.mem_singleton.mp hc ▸ by decide
  · exact hdigit (hwhole.2 c hc)
  · obtain rfl | ⟨ds, hds, rfl⟩ := hf
    · cases hc
    · rcases List.mem_cons.mp hc with rfl | hc
      · decide
      · exact hdigit (hds.2 c hc)
  · obtain rfl | ⟨x, s, ds, hx, hs, hds, rfl⟩ := he
    · cases hc
    · simp only [List.mem_append, List.mem_cons] at hc
      rcases hc with (rfl | hc) | hc
      · rcases hx with rfl | rfl <;> decide
      · rcases hs with rfl | rfl | rfl
        · cases hc
        · exact List.mem_singleton.mp hc ▸ by decide
        · exact List.mem_singleton.mp hc ▸ by decide
      · exact hdigit (hds.2 c hc)

theorem ends_of_head {c : UInt8} (h : c ≠ 45) (hd : isDigit c = false) (t rest : Bytes) :
    Ends (c :: t) rest := by
  intro state hafter
  obtain ⟨state₁, hc, -⟩ := Option.bind_eq_some_iff.mp hafter
  rcases next_init hc with rfl | hc
  · exact absurd rfl h
  · simp [hd] at hc

theorem dropWhile_blank {w b : Bytes} (hw : Blank w) (hb : ∀ c ∈ b.head?, isBlank c = false) :
    (w ++ b).dropWhile isBlank = b := by
  rw [List.dropWhile_append_of_pos hw]
  cases b with
  | nil => rfl
  | cons c b => simp [hb c rfl]

theorem scanLiteral_append (token : Token) (l rest : Bytes) :
    scanLiteral token l (l ++ rest) = (token, rest) := by
  induction l with
  | nil => rfl
  | cons c l ih => simpa [scanLiteral] using ih

theorem literal_of_scan {token token' : Token} {l b rest : Bytes}
    (h : scanLiteral token l b = (token', rest)) :
    token' = .parseError ∨ (token' = token ∧ b = l ++ rest) := by
  induction l generalizing b with
  | nil =>
    cases h
    exact .inr ⟨rfl, rfl⟩
  | cons c l ih =>
    cases b with
    | nil =>
      cases h
      exact .inl rfl
    | cons d b =>
      rw [scanLiteral] at h
      split_ifs at h with hd
      · exact (ih h).imp_right fun ⟨htoken, hb⟩ => ⟨htoken, by rw [hd, hb]; rfl⟩
      · cases h
        exact .inl rfl

theorem blank_cases {c : UInt8} (h : isBlank c = true) : c = 32 ∨ c = 9 ∨ c = 10 ∨ c = 13 := by
  simpa [isBlank, or_assoc] using h

theorem isBlank_of_number {c : UInt8} (h : c = 45 ∨ isDigit c = true) : isBlank c = false := by
  by_contra hblank
  rcases blank_cases (Bool.not_eq_false _ ▸ hblank) with rfl | rfl | rfl | rfl <;>
    exact absurd h (by decide)

theorem scan_number {c : UInt8} {b : Bytes} (h : c = 45 ∨ isDigit c = true) :
    scan (c :: b) = scanNumber .init .unsigned [] (c :: b) := by
  have hne : ∀ d : UInt8, d ≠ 45 → isDigit d = false → c ≠ d := by
    rintro d h45 hd rfl
    simp [h45, hd] at h
  simp [scan, isBlank_of_number h, h, hne 91 (by decide) (by decide),
    hne 93 (by decide) (by decide), hne 123 (by decide) (by decide),
    hne 125 (by decide) (by decide), hne 58 (by decide) (by decide),
    hne 44 (by decide) (by decide), hne 116 (by decide) (by decide),
    hne 102 (by decide) (by decide), hne 110 (by decide) (by decide),
    hne 34 (by decide) (by decide)]

/-- A token is read from its text, behind blanks. -/
theorem scan_of_lexeme {w t r : Bytes} {token : Token} (hw : Blank w) (h : Lexeme t token)
    (hutf : Utf8.valid t = true) (hends : Ends t r) : scan (w ++ t ++ r) = (token, r) := by
  have hskip : ∀ {c : UInt8} {u : Bytes}, isBlank c = false →
      scan (w ++ c :: u ++ r) = scan (c :: u ++ r) := by
    intro c u hc
    have hcons : (c :: (u ++ r)).dropWhile isBlank = c :: (u ++ r) := by simp [hc]
    rw [List.append_assoc, scan, scan, dropWhile_blank hw (by simpa using hc), List.cons_append,
      hcons]
  cases h with
  | literalTrue => exact (hskip (by decide)).trans (scanLiteral_append _ (ascii "rue") r)
  | literalFalse => exact (hskip (by decide)).trans (scanLiteral_append _ (ascii "alse") r)
  | literalNull => exact (hskip (by decide)).trans (scanLiteral_append _ (ascii "ull") r)
  | string quoted =>
    cases quoted with
    | mk body =>
      rename_i s u
      have hu : Utf8.valid u = true := by
        have hbefore := Utf8.acceptsFrom_before (c := 34) (t := []) (by decide) hutf
        exact (Utf8.acceptsFrom_append u (show Utf8.acceptsFrom 0 [34] = true by decide)).symm.trans
          hbefore
      have hstring : scanString (u ++ 34 :: r) = (.valueString s, r) :=
        scanString_iff.mpr ⟨u, rfl, body, hu⟩
      rw [List.cons_append, hskip (by decide)]
      simpa [scan, isBlank] using hstring
  | number number =>
    obtain ⟨c, u, rfl, hc⟩ := Number.cons number
    rw [hskip (isBlank_of_number hc), List.cons_append, scan_number hc]
    exact (scanNumber_iff (numberToken_ne _ _)).mpr ⟨c :: u, rfl, number, hends, rfl⟩
  | beginArray => exact hskip (by decide)
  | endArray => exact hskip (by decide)
  | beginObject => exact hskip (by decide)
  | endObject => exact hskip (by decide)
  | nameSeparator => exact hskip (by decide)
  | valueSeparator => exact hskip (by decide)

/-- What a token leaves of the input, and that it has been read from its text. -/
def Reads (b : Bytes) (token : Token) (rest : Bytes) : Prop :=
  ∃ w t, b = w ++ t ++ rest ∧ Blank w ∧ Lexeme t token ∧ Utf8.valid t = true ∧ Ends t rest

/-- A result of the scanner: an error, the end, or a token read from its text. -/
abbrev Scans (b : Bytes) (token : Token) (rest : Bytes) : Prop :=
  token = .parseError ∨ token = .endOfInput ∨ Reads b token rest

theorem of_ite_eq {α : Type} {p Q : Prop} [Decidable p] {x y z : α} (hx : p → x = z → Q)
    (hy : y = z → Q) : (if p then x else y) = z → Q := by
  split
  · exact hx ‹p›
  · exact hy

section Branches

variable {w u rest : Bytes} {c s : UInt8} {token token' : Token}

theorem scans_symbol (hw : Blank w) (hc : c = s) (hsymbol : Lexeme [s] token')
    (hs : s ≤ 0x7F ∧ s ≠ 45 ∧ isDigit s = false) (h : (token', u) = (token, rest)) :
    Scans (w ++ c :: u) token rest := by
  obtain ⟨hascii, h45, hd⟩ := hs
  cases h
  subst hc
  exact .inr (.inr ⟨w, [c], by simp, hw, hsymbol,
    Utf8.valid_of_ascii (List.forall_mem_singleton.mpr hascii), ends_of_head h45 hd [] u⟩)

theorem scans_literal {l : Bytes} (hw : Blank w) (hc : c = s) (hliteral : Lexeme (s :: l) token')
    (hs : (∀ x ∈ s :: l, x ≤ 0x7F) ∧ s ≠ 45 ∧ isDigit s = false)
    (h : scanLiteral token' l u = (token, rest)) : Scans (w ++ c :: u) token rest := by
  obtain ⟨hascii, h45, hd⟩ := hs
  obtain herror | ⟨rfl, rfl⟩ := literal_of_scan h
  · exact .inl herror
  · subst hc
    exact .inr (.inr ⟨w, c :: l, by simp, hw, hliteral, Utf8.valid_of_ascii hascii,
      ends_of_head h45 hd l rest⟩)

theorem scans_string (hw : Blank w) (hc : c = 34) (h : scanString u = (token, rest)) :
    Scans (w ++ c :: u) token rest := by
  rcases scanString_cases u with ⟨text, rest', hs⟩ | hs
  · rw [hs] at h
    cases h
    obtain ⟨t, rfl, hbody, ht⟩ := scanString_iff.mp hs
    refine .inr (.inr ⟨w, 34 :: t ++ [34], by simp [hc], hw, .string (.mk hbody), ?_, ?_⟩)
    · exact Utf8.valid_append (a := 34 :: t)
        (Utf8.valid_append (a := [34]) (by decide) ht) (by decide)
    · exact ends_of_head (by decide) (by decide) _ _
  · rw [hs] at h
    cases h
    exact .inl rfl

theorem scans_number (hw : Blank w)
    (h : scanNumber .init .unsigned [] (c :: u) = (token, rest)) :
    Scans (w ++ c :: u) token rest := by
  by_cases htoken : token = .parseError
  · exact .inl htoken
  · obtain ⟨t, hcu, hnumber, hends, rfl⟩ := (scanNumber_iff htoken).mp h
    exact .inr (.inr ⟨w, t, by rw [hcu, List.append_assoc], hw, .number hnumber,
      Utf8.valid_of_ascii (ascii_of_number hnumber), hends⟩)

end Branches

theorem scans_of_scan {b rest : Bytes} {token : Token} (h : scan b = (token, rest)) :
    Scans b token rest := by
  have hw : Blank (b.takeWhile isBlank) := fun c hc => List.mem_takeWhile_imp hc
  have hb : b = b.takeWhile isBlank ++ b.dropWhile isBlank := List.takeWhile_append_dropWhile.symm
  generalize b.takeWhile isBlank = w at hw hb
  rw [scan] at h
  split at h
  · cases h
    exact .inr (.inl rfl)
  rename_i c u hu
  rw [hu] at hb
  subst hb
  revert h
  -- one branch for each byte that can begin a token
  refine of_ite_eq (scans_symbol hw · .beginArray (by decide)) ?_
  refine of_ite_eq (scans_symbol hw · .endArray (by decide)) ?_
  refine of_ite_eq (scans_symbol hw · .beginObject (by decide)) ?_
  refine of_ite_eq (scans_symbol hw · .endObject (by decide)) ?_
  refine of_ite_eq (scans_symbol hw · .nameSeparator (by decide)) ?_
  refine of_ite_eq (scans_symbol hw · .valueSeparator (by decide)) ?_
  refine of_ite_eq (scans_literal hw · .literalTrue (by decide)) ?_
  refine of_ite_eq (scans_literal hw · .literalFalse (by decide)) ?_
  refine of_ite_eq (scans_literal hw · .literalNull (by decide)) ?_
  refine of_ite_eq (scans_string hw) ?_
  refine of_ite_eq (fun _ => scans_number hw) ?_
  refine of_ite_eq (fun _ h => ?_) fun h => ?_
  · cases h
    exact .inr (.inl rfl)
  · cases h
    exact .inl rfl

theorem Reads.of_scan {b rest : Bytes} {token : Token} (h : scan b = (token, rest))
    (herror : token ≠ .parseError) (hend : token ≠ .endOfInput) : Reads b token rest :=
  ((scans_of_scan h).resolve_left herror).resolve_left hend

def Mark (m : Bytes) : Prop := m = [] ∨ m = [0xEF, 0xBB, 0xBF]

theorem mark_of_skipBom {b b' : Bytes} (h : skipBom b = some b') : ∃ m, Mark m ∧ b = m ++ b' := by
  unfold skipBom at h
  split at h
  · split at h
    · cases h
      exact ⟨_, .inr rfl, rfl⟩
    · cases h
  · cases h
    exact ⟨[], .inl rfl, rfl⟩

theorem skipBom_mark {m b : Bytes} (h : Mark m) (hb : ∀ c ∈ b.head?, c ≤ 0x7F) :
    skipBom (m ++ b) = some b := by
  obtain rfl | rfl := h
  · cases b with
    | nil => rfl
    | cons c b =>
      have hc : c ≠ 0xEF := by
        rintro rfl
        exact absurd (hb _ rfl) (by decide)
      unfold skipBom
      split
      · rename_i h
        exact absurd (List.cons.inj h).1 hc
      · rfl
  · rfl

end JsonLexer

end CctvServer
