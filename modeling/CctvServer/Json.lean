import CctvServer.Bytes

namespace CctvServer

namespace Utf8

/-- The character classes of `utf8d[0..255]`. -/
def byteClass (b : UInt8) : ℕ :=
  if b ≤ 0x7F then 0 else if b ≤ 0x8F then 1 else if b ≤ 0x9F then 9 else if b ≤ 0xBF then 7
  else if b ≤ 0xC1 then 8 else if b ≤ 0xDF then 2 else if b = 0xE0 then 10 else if b ≤ 0xEC then 3
  else if b = 0xED then 4 else if b ≤ 0xEF then 3 else if b = 0xF0 then 11 else if b ≤ 0xF3 then 6
  else if b = 0xF4 then 5 else 8

/-- The rows of `utf8d[256..399]`: 0 accepts, 1 rejects for good. -/
def transitions : List (List ℕ) :=
  [[0, 1, 2, 3, 5, 8, 7, 1, 1, 1, 4, 6, 1, 1, 1, 1],
   [1, 1, 1, 1, 1, 1, 1, 1, 1, 1, 1, 1, 1, 1, 1, 1],
   [1, 0, 1, 1, 1, 1, 1, 0, 1, 0, 1, 1, 1, 1, 1, 1],
   [1, 2, 1, 1, 1, 1, 1, 2, 1, 2, 1, 1, 1, 1, 1, 1],
   [1, 1, 1, 1, 1, 1, 1, 2, 1, 1, 1, 1, 1, 1, 1, 1],
   [1, 2, 1, 1, 1, 1, 1, 1, 1, 2, 1, 1, 1, 1, 1, 1],
   [1, 1, 1, 1, 1, 1, 1, 3, 1, 3, 1, 1, 1, 1, 1, 1],
   [1, 3, 1, 1, 1, 1, 1, 3, 1, 3, 1, 1, 1, 1, 1, 1],
   [1, 3, 1, 1, 1, 1, 1, 1, 1, 1, 1, 1, 1, 1, 1, 1]]

def decode (state : ℕ) (b : UInt8) : ℕ := (transitions.getD state []).getD (byteClass b) 1

/-- The decoder, started in `state`, ends between two characters. -/
def acceptsFrom : ℕ → Bytes → Bool
  | state, [] => state == 0
  | state, b :: bs => decode state b != 1 && acceptsFrom (decode state b) bs

def valid (b : Bytes) : Bool := acceptsFrom 0 b

theorem decode_ascii {b : UInt8} (h : b ≤ 0x7F) : decode 0 b = 0 := by
  simp [decode, byteClass, h, transitions]

theorem byteClass_ascii {b : UInt8} (h : b ≤ 0x7F) : byteClass b = 0 := by simp [byteClass, h]

/-- Inside a character no ASCII byte is accepted. -/
theorem decode_ascii_inside {state : ℕ} {b : UInt8} (hs : state ≠ 0) (h : b ≤ 0x7F) :
    decode state b = 1 := by
  have hrows : ∀ n < 9, n ≠ 0 → (transitions.getD n []).getD 0 1 = 1 := by decide
  rw [decode, byteClass_ascii h]
  by_cases hlt : state < 9
  · exact hrows state hlt hs
  · have hnil : transitions[state]? = none :=
      List.getElem?_eq_none (by simpa [transitions] using hlt)
    simp [List.getD, hnil]

theorem valid_of_ascii {b : Bytes} (h : ∀ c ∈ b, c ≤ 0x7F) : valid b = true := by
  unfold valid
  induction b with
  | nil => rfl
  | cons c b ih =>
    have hc : decode 0 c = 0 := decode_ascii (h c List.mem_cons_self)
    simp [acceptsFrom, hc, ih fun x hx => h x (List.mem_cons_of_mem _ hx)]

/-- Exchanging ASCII bytes for ASCII bytes changes nothing for the decoder. -/
theorem acceptsFrom_map {f : UInt8 → UInt8} (hf : ∀ c, byteClass (f c) = byteClass c)
    (state : ℕ) (b : Bytes) : acceptsFrom state (b.map f) = acceptsFrom state b := by
  induction b generalizing state with
  | nil => rfl
  | cons c b ih => simp [acceptsFrom, decode, hf, ih]

theorem acceptsFrom_append {state : ℕ} {a : Bytes} (b : Bytes) (h : acceptsFrom state a = true) :
    acceptsFrom state (a ++ b) = valid b := by
  induction a generalizing state with
  | nil =>
    have hs : state = 0 := by simpa [acceptsFrom] using h
    rw [hs, List.nil_append, valid]
  | cons c a ih =>
    simp only [acceptsFrom, Bool.and_eq_true] at h
    simp [acceptsFrom, h.1, ih h.2]

theorem acceptsFrom_before {state : ℕ} {a t : Bytes} {c : UInt8} (hc : c ≤ 0x7F)
    (h : acceptsFrom state (a ++ c :: t) = true) : acceptsFrom state a = true := by
  induction a generalizing state with
  | nil =>
    by_cases hs : state = 0
    · simp [acceptsFrom, hs]
    · simp [acceptsFrom, decode_ascii_inside hs hc] at h
  | cons d a ih =>
    simp only [List.cons_append, acceptsFrom, Bool.and_eq_true] at h ⊢
    exact ⟨h.1, ih h.2⟩

end Utf8

/-- What the library prints for a floating-point number: printable ASCII. -/
abbrev FloatText := {t : Bytes // ∀ c ∈ t, 33 ≤ c ∧ c ≤ 126}

/-- A JSON value. The members of an object are ordered by key, as in `std::map`. -/
inductive Json
  | null
  | bool (b : Bool)
  | int (n : ℤ)
  | float (x : FloatText)
  | str (s : Bytes)
  | arr (xs : List Json)
  | obj (members : List (Bytes × Json))

namespace Json

def setKey (key : Bytes) (v : Json) : List (Bytes × Json) → List (Bytes × Json)
  | [] => [(key, v)]
  | (k, w) :: rest =>
      if key < k then (key, v) :: (k, w) :: rest
      else if key = k then (key, v) :: rest
      else (k, w) :: setKey key v rest

def eraseKey (key : Bytes) (members : List (Bytes × Json)) : List (Bytes × Json) :=
  members.filter (·.1 ≠ key)

def find (key : Bytes) (members : List (Bytes × Json)) : Option Json :=
  (members.find? (·.1 = key)).map (·.2)

/-- The object of an initializer list of pairs. -/
def object (pairs : List (String × Json)) : Json :=
  .obj (pairs.foldl (fun m p => setKey (ascii p.1) p.2 m) [])

def hexDigit (n : ℕ) : UInt8 := UInt8.ofNat (if n < 10 then 48 + n else 87 + n)

def escape (b : UInt8) : Bytes :=
  if b = 0x08 then ascii "\\b" else if b = 0x09 then ascii "\\t" else if b = 0x0A then ascii "\\n"
  else if b = 0x0C then ascii "\\f" else if b = 0x0D then ascii "\\r"
  else if b = 0x22 then ascii "\\\"" else if b = 0x5C then ascii "\\\\"
  else if b ≤ 0x1F then ascii "\\u00" ++ [hexDigit (b.toNat / 16), hexDigit (b.toNat % 16)]
  else [b]

/-- `dump_escaped` with the strict error handler: `none` is the exception
thrown at bytes that are not UTF-8. Only a byte that is a whole character can
need an escape. -/
def dumpEscaped : ℕ → Bytes → Option Bytes
  | state, [] => if state = 0 then some [] else none
  | state, b :: bs =>
      if Utf8.decode state b = 1 then none
      else (dumpEscaped (Utf8.decode state b) bs).map fun t =>
        (if state = 0 ∧ Utf8.decode state b = 0 then escape b else [b]) ++ t

def dumpString (s : Bytes) : Option Bytes := (dumpEscaped 0 s).map fun t => 34 :: t ++ [34]

mutual

/-- `dump()`: `none` is the exception of a string that is not UTF-8. -/
def dump : Json → Option Bytes
  | .null => some (ascii "null")
  | .bool b => some (if b then ascii "true" else ascii "false")
  | .int n => some (decimalInt n)
  | .float x => some x.1
  | .str s => dumpString s
  | .arr xs => (dumpItems xs).map fun t => 91 :: t ++ [93]
  | .obj members => (dumpMembers members).map fun t => 123 :: t ++ [125]

def dumpItems : List Json → Option Bytes
  | [] => some []
  | x :: xs =>
      match dump x, dumpItems xs with
      | some t, some ts => some (if xs.isEmpty then t else t ++ 44 :: ts)
      | _, _ => none

def dumpMembers : List (Bytes × Json) → Option Bytes
  | [] => some []
  | (k, v) :: rest =>
      match dumpString k, dump v, dumpMembers rest with
      | some key, some t, some ts =>
          some (if rest.isEmpty then key ++ 58 :: t else key ++ 58 :: t ++ 44 :: ts)
      | _, _, _ => none

end

mutual

/-- Every string and every key of the value is UTF-8. -/
def Utf8Valid : Json → Prop
  | .str s => Utf8.valid s = true
  | .arr xs => ItemsValid xs
  | .obj members => MembersValid members
  | _ => True

def ItemsValid : List Json → Prop
  | [] => True
  | x :: xs => Utf8Valid x ∧ ItemsValid xs

def MembersValid : List (Bytes × Json) → Prop
  | [] => True
  | (k, v) :: rest => Utf8.valid k = true ∧ Utf8Valid v ∧ MembersValid rest

end

theorem dumpEscaped_isSome (state : ℕ) (s : Bytes) :
    (dumpEscaped state s).isSome = Utf8.acceptsFrom state s := by
  induction s generalizing state with
  | nil => by_cases h : state = 0 <;> simp [dumpEscaped, Utf8.acceptsFrom, h]
  | cons b s ih =>
    by_cases h : Utf8.decode state b = 1
    · simp [dumpEscaped, Utf8.acceptsFrom, h]
    · simp [dumpEscaped, Utf8.acceptsFrom, h, ih]

theorem dumpString_isSome (s : Bytes) : (dumpString s).isSome = Utf8.valid s := by
  simp [dumpString, dumpEscaped_isSome, Utf8.valid]

mutual

/-- `dump` throws exactly when some string is not UTF-8. -/
theorem dump_isSome_iff : (j : Json) → ((dump j).isSome = true ↔ Utf8Valid j)
  | .null => by simp [dump, Utf8Valid]
  | .bool b => by simp [dump, Utf8Valid]
  | .int n => by simp [dump, Utf8Valid]
  | .float x => by simp [dump, Utf8Valid]
  | .str s => by simp [dump, Utf8Valid, dumpString_isSome]
  | .arr xs => by simp [dump, Utf8Valid, dumpItems_isSome_iff xs]
  | .obj members => by simp [dump, Utf8Valid, dumpMembers_isSome_iff members]

theorem dumpItems_isSome_iff : (xs : List Json) → ((dumpItems xs).isSome = true ↔ ItemsValid xs)
  | [] => by simp [dumpItems, ItemsValid]
  | x :: xs => by
    have hx := dump_isSome_iff x
    have hxs := dumpItems_isSome_iff xs
    rw [ItemsValid, ← hx, ← hxs, dumpItems]
    cases dump x <;> cases dumpItems xs <;> simp

theorem dumpMembers_isSome_iff :
    (members : List (Bytes × Json)) → ((dumpMembers members).isSome = true ↔ MembersValid members)
  | [] => by simp [dumpMembers, MembersValid]
  | (k, v) :: rest => by
    have hv := dump_isSome_iff v
    have hrest := dumpMembers_isSome_iff rest
    rw [MembersValid, ← hv, ← hrest, ← dumpString_isSome, dumpMembers]
    cases dumpString k <;> cases dump v <;> cases dumpMembers rest <;> simp

end

theorem itemsValid_iff {xs : List Json} : ItemsValid xs ↔ ∀ x ∈ xs, Utf8Valid x := by
  induction xs with
  | nil => simp [ItemsValid]
  | cons x xs ih => simp [ItemsValid, ih]

theorem membersValid_iff {members : List (Bytes × Json)} :
    MembersValid members ↔ ∀ p ∈ members, Utf8.valid p.1 = true ∧ Utf8Valid p.2 := by
  induction members with
  | nil => simp [MembersValid]
  | cons p rest ih => simp [MembersValid, ih, and_assoc]

theorem mem_setKey {key : Bytes} {v : Json} {members : List (Bytes × Json)} {p : Bytes × Json}
    (h : p ∈ setKey key v members) : p = (key, v) ∨ p ∈ members := by
  induction members with
  | nil => simpa [setKey] using h
  | cons q rest ih =>
    obtain ⟨k, w⟩ := q
    simp only [setKey] at h
    split_ifs at h with h₁ h₂
    · simpa using h
    · rcases List.mem_cons.mp h with h | h
      · exact .inl h
      · exact .inr (List.mem_cons_of_mem _ h)
    · rcases List.mem_cons.mp h with rfl | h
      · exact .inr List.mem_cons_self
      · exact (ih h).imp_right (List.mem_cons_of_mem _)

theorem utf8Valid_setKey {key : Bytes} {v : Json} {members : List (Bytes × Json)}
    (hk : Utf8.valid key = true) (hv : Utf8Valid v) (hm : Utf8Valid (.obj members)) :
    Utf8Valid (.obj (setKey key v members)) := by
  rw [Utf8Valid, membersValid_iff] at hm ⊢
  intro p hp
  rcases mem_setKey hp with rfl | hp
  · exact ⟨hk, hv⟩
  · exact hm p hp

theorem utf8Valid_eraseKey {key : Bytes} {members : List (Bytes × Json)}
    (hm : Utf8Valid (.obj members)) : Utf8Valid (.obj (eraseKey key members)) := by
  rw [Utf8Valid, membersValid_iff] at hm ⊢
  exact fun p hp => hm p (List.mem_filter.mp hp).1

theorem newline_notMem_escape (b : UInt8) : (10 : UInt8) ∉ escape b := by
  have hhex : ∀ n < 16, hexDigit n ≠ 10 := by decide
  have hlow : b.toNat % 16 < 16 := Nat.mod_lt _ (by decide)
  have hhigh : b.toNat / 16 < 16 := by have := b.toNat_lt; omega
  unfold escape
  split_ifs with h₁ h₂ h₃ h₄ h₅ h₆ h₇ h₈
  · decide
  · decide
  · decide
  · decide
  · decide
  · decide
  · decide
  · simp only [List.mem_append, List.mem_cons, List.not_mem_nil, or_false, not_or]
    exact ⟨by decide, (hhex _ hhigh).symm, (hhex _ hlow).symm⟩
  · simpa using Ne.symm h₃

theorem newline_notMem_dumpEscaped {state : ℕ} {s t : Bytes} (h : dumpEscaped state s = some t) :
    (10 : UInt8) ∉ t := by
  induction s generalizing state t with
  | nil =>
    unfold dumpEscaped at h
    split at h <;> simp_all
  | cons b s ih =>
    simp only [dumpEscaped] at h
    split at h
    · cases h
    · rename_i hd
      obtain ⟨u, hu, rfl⟩ := Option.map_eq_some_iff.mp h
      have hb : state ≠ 0 ∨ Utf8.decode state b ≠ 0 → b ≠ 10 := by
        rintro h₁ rfl
        by_cases hs : state = 0
        · subst hs
          simp [Utf8.decode_ascii] at h₁
        · exact hd (Utf8.decode_ascii_inside hs (by decide))
      rw [List.mem_append, not_or]
      refine ⟨?_, ih hu⟩
      split_ifs with h₂
      · exact newline_notMem_escape b
      · simpa using Ne.symm (hb (by tauto))

theorem newline_notMem_dumpString {s t : Bytes} (h : dumpString s = some t) :
    (10 : UInt8) ∉ t := by
  obtain ⟨u, hu, rfl⟩ := Option.map_eq_some_iff.mp h
  simpa using newline_notMem_dumpEscaped hu

theorem newline_notMem_decimal (n : ℕ) : (10 : UInt8) ∉ decimal n := fun h =>
  ne_of_isDigit (isDigit_of_mem_decimal h) (by decide) rfl

theorem newline_notMem_decimalInt (n : ℤ) : (10 : UInt8) ∉ decimalInt n := by
  cases n with
  | ofNat n => exact newline_notMem_decimal n
  | negSucc n => simpa [decimalInt] using newline_notMem_decimal (n + 1)

mutual

theorem newline_notMem_dump : (j : Json) → {t : Bytes} → dump j = some t → (10 : UInt8) ∉ t
  | .null, t, h => by
    simp only [dump, Option.some.injEq] at h
    subst h
    decide
  | .bool b, t, h => by
    simp only [dump, Option.some.injEq] at h
    subst h
    cases b <;> decide
  | .int n, t, h => by
    simp only [dump, Option.some.injEq] at h
    subst h
    exact newline_notMem_decimalInt n
  | .float x, t, h => by
    simp only [dump, Option.some.injEq] at h
    subst h
    intro h10
    exact absurd (x.2 10 h10).1 (by decide)
  | .str s, t, h => newline_notMem_dumpString h
  | .arr xs, t, h => by
    obtain ⟨u, hu, rfl⟩ := Option.map_eq_some_iff.mp h
    simpa using newline_notMem_dumpItems xs hu
  | .obj members, t, h => by
    obtain ⟨u, hu, rfl⟩ := Option.map_eq_some_iff.mp h
    simpa using newline_notMem_dumpMembers members hu

theorem newline_notMem_dumpItems :
    (xs : List Json) → {t : Bytes} → dumpItems xs = some t → (10 : UInt8) ∉ t
  | [], t, h => by
    simp only [dumpItems, Option.some.injEq] at h
    simp [← h]
  | x :: xs, t, h => by
    simp only [dumpItems] at h
    split at h
    · rename_i u us hu hus
      have h₁ := newline_notMem_dump x hu
      have h₂ := newline_notMem_dumpItems xs hus
      simp only [Option.some.injEq] at h
      subst h
      split <;> simp [h₁, h₂]
    · cases h

theorem newline_notMem_dumpMembers :
    (members : List (Bytes × Json)) → {t : Bytes} → dumpMembers members = some t →
      (10 : UInt8) ∉ t
  | [], t, h => by
    simp only [dumpMembers, Option.some.injEq] at h
    simp [← h]
  | (k, v) :: rest, t, h => by
    simp only [dumpMembers] at h
    split at h
    · rename_i key u us hk hu hus
      have h₁ := newline_notMem_dumpString hk
      have h₂ := newline_notMem_dump v hu
      have h₃ := newline_notMem_dumpMembers rest hus
      simp only [Option.some.injEq] at h
      subst h
      split <;> simp [h₁, h₂, h₃]
    · cases h

end

end Json

end CctvServer
