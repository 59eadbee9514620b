import CctvServer.Json

namespace CctvServer

namespace JsonText

/-- A value as it is written: numbers by their texts, members in the order of the text. -/
inductive Tree
  | null
  | bool (b : Bool)
  | number (t : Bytes)
  | str (s : Bytes)
  | arr (xs : List Tree)
  | obj (members : List (Bytes × Tree))

def isBlank (c : UInt8) : Bool := c == 32 || c == 9 || c == 10 || c == 13

def Blank (w : Bytes) : Prop := ∀ c ∈ w, isBlank c = true

def Digits (ds : Bytes) : Prop := ds ≠ [] ∧ ∀ c ∈ ds, isDigit c = true

/-- `[ minus ] int [ frac ] [ exp ]`. -/
structure Number (t : Bytes) : Prop where
  parts : ∃ sign whole frac exp, t = sign ++ whole ++ frac ++ exp ∧
    (sign = [] ∨ sign = [45]) ∧
    (Digits whole ∧ (whole = [48] ∨ whole.head? ≠ some 48)) ∧
    (frac = [] ∨ ∃ ds, Digits ds ∧ frac = 46 :: ds) ∧
    (exp = [] ∨ ∃ e s ds, (e = 101 ∨ e = 69) ∧ (s = [] ∨ s = [43] ∨ s = [45]) ∧ Digits ds ∧
      exp = e :: s ++ ds)

def hexValue (c : UInt8) : Option ℕ :=
  if isDigit c then some (c.toNat - 48)
  else if 65 ≤ c ∧ c ≤ 70 then some (c.toNat - 55)
  else if 97 ≤ c ∧ c ≤ 102 then some (c.toNat - 87)
  else none

inductive Hex4 : Bytes → ℕ → Prop
  | mk {a b c d : UInt8} {i j k l : ℕ} (ha : hexValue a = some i) (hb : hexValue b = some j)
      (hc : hexValue c = some k) (hd : hexValue d = some l) :
      Hex4 [a, b, c, d] (((16 * i + j) * 16 + k) * 16 + l)

def encode (n : ℕ) : Bytes :=
  if n < 0x80 then [UInt8.ofNat n]
  else if n < 0x800 then [UInt8.ofNat (0xC0 + n / 64), UInt8.ofNat (0x80 + n % 64)]
  else if n < 0x10000 then
    [UInt8.ofNat (0xE0 + n / 4096), UInt8.ofNat (0x80 + n / 64 % 64), UInt8.ofNat (0x80 + n % 64)]
  else
    [UInt8.ofNat (0xF0 + n / 262144), UInt8.ofNat (0x80 + n / 4096 % 64),
      UInt8.ofNat (0x80 + n / 64 % 64), UInt8.ofNat (0x80 + n % 64)]

inductive Escape : Bytes → Bytes → Prop
  | quote : Escape [34] [34]
  | backslash : Escape [92] [92]
  | slash : Escape [47] [47]
  | backspace : Escape [98] [8]
  | formFeed : Escape [102] [12]
  | lineFeed : Escape [110] [10]
  | carriageReturn : Escape [114] [13]
  | tab : Escape [116] [9]
  | unicode {h : Bytes} {n : ℕ} (hex : Hex4 h n) (single : n < 0xD800 ∨ 0xDFFF < n) :
      Escape (117 :: h) (encode n)
  | surrogates {h l : Bytes} {m n : ℕ} (high : Hex4 h m) (hm : 0xD800 ≤ m ∧ m ≤ 0xDBFF)
      (low : Hex4 l n) (hn : 0xDC00 ≤ n ∧ n ≤ 0xDFFF) :
      Escape (117 :: h ++ 92 :: 117 :: l) (encode (0x10000 + (m - 0xD800) * 1024 + (n - 0xDC00)))

inductive Body : Bytes → Bytes → Prop
  | nil : Body [] []
  | plain {c : UInt8} {t s : Bytes} (low : 32 ≤ c) (quote : c ≠ 34) (backslash : c ≠ 92)
      (rest : Body t s) : Body (c :: t) (c :: s)
  | escape {e d t s : Bytes} (seq : Escape e d) (rest : Body t s) :
      Body (92 :: e ++ t) (d ++ s)

inductive Quoted : Bytes → Bytes → Prop
  | mk {t s : Bytes} (body : Body t s) : Quoted (34 :: t ++ [34]) s

/-- A value, or what stands between the brackets of a value that is not empty. -/
inductive Part
  | value (v : Tree)
  | items (xs : List Tree)
  | members (ms : List (Bytes × Tree))

/-- The text of a part, without blanks around a value. -/
inductive Denotes : Bytes → Part → Prop
  | null : Denotes (ascii "null") (.value .null)
  | bool (b : Bool) : Denotes (if b then ascii "true" else ascii "false") (.value (.bool b))
  | number {t : Bytes} (number : Number t) : Denotes t (.value (.number t))
  | str {t s : Bytes} (quoted : Quoted t s) : Denotes t (.value (.str s))
  | emptyArr {w : Bytes} (blank : Blank w) : Denotes (91 :: w ++ [93]) (.value (.arr []))
  | arr {t : Bytes} {xs : List Tree} (items : Denotes t (.items xs)) :
      Denotes (91 :: t ++ [93]) (.value (.arr xs))
  | emptyObj {w : Bytes} (blank : Blank w) : Denotes (123 :: w ++ [125]) (.value (.obj []))
  | obj {t : Bytes} {ms : List (Bytes × Tree)} (members : Denotes t (.members ms)) :
      Denotes (123 :: t ++ [125]) (.value (.obj ms))
  | item {w t w' : Bytes} {x : Tree} (before : Blank w) (value : Denotes t (.value x))
      (after : Blank w') : Denotes (w ++ t ++ w') (.items [x])
  | items {w t w' ts : Bytes} {x : Tree} {xs : List Tree} (before : Blank w)
      (value : Denotes t (.value x)) (after : Blank w') (rest : Denotes ts (.items xs)) :
      Denotes (w ++ t ++ w' ++ 44 :: ts) (.items (x :: xs))
  | member {w₁ q w₂ w₃ t w₄ k : Bytes} {x : Tree} (before : Blank w₁) (key : Quoted q k)
      (colon : Blank w₂) (gap : Blank w₃) (value : Denotes t (.value x)) (after : Blank w₄) :
      Denotes (w₁ ++ q ++ w₂ ++ 58 :: (w₃ ++ t ++ w₄)) (.members [(k, x)])
  | members {w₁ q w₂ w₃ t w₄ k ts : Bytes} {x : Tree} {ms : List (Bytes × Tree)}
      (before : Blank w₁) (key : Quoted q k) (colon : Blank w₂) (gap : Blank w₃)
      (value : Denotes t (.value x)) (after : Blank w₄) (rest : Denotes ts (.members ms)) :
      Denotes (w₁ ++ q ++ w₂ ++ 58 :: (w₃ ++ t ++ w₄) ++ 44 :: ts) (.members ((k, x) :: ms))

structure Parses (text : Bytes) (v : Tree) : Prop where
  utf8 : Utf8.valid text = true
  value : ∃ w t w', text = w ++ t ++ w' ∧ Blank w ∧ Blank w' ∧ Denotes t (.value v)

def Allowed (c : UInt8) : Prop := 32 ≤ c ∨ isBlank c = true

theorem Blank.allowed {w : Bytes} (h : Blank w) : ∀ c ∈ w, Allowed c := fun c hc => .inr (h c hc)

theorem allowed_digit {c : UInt8} (h : isDigit c = true) : Allowed c := by
  simp only [isDigit, Bool.and_eq_true, decide_eq_true_eq] at h
  exact .inl (UInt8.le_trans (by decide) h.1)

theorem Number.allowed {t : Bytes} (h : Number t) : ∀ c ∈ t, Allowed c := by
  obtain ⟨sign, whole, frac, exp, rfl, hsign, ⟨hwhole, -⟩, hfrac, hexp⟩ := h.parts
  have h45 : Allowed 45 := .inl (by decide)
  intro c hc
  simp only [List.mem_append] at hc
  rcases hc with ((hc | hc) | hc) | hc
  · rcases hsign with rfl | rfl
    · cases hc
    · rw [List.mem_singleton.mp hc]
      exact h45
  · exact allowed_digit (hwhole.2 c hc)
  · rcases hfrac with rfl | ⟨ds, hds, rfl⟩
    · cases hc
    · rcases List.mem_cons.mp hc with rfl | hc
      · exact .inl (by decide)
      · exact allowed_digit (hds.2 c hc)
  · rcases hexp with rfl | ⟨e, s, ds, he, hs, hds, rfl⟩
    · cases hc
    · rcases List.mem_append.mp hc with hc | hc
      · rcases List.mem_cons.mp hc with rfl | hc
        · rcases he with rfl | rfl
          · exact .inl (by decide)
          · exact .inl (by decide)
        · rcases hs with rfl | rfl | rfl
          · cases hc
          · rw [List.mem_singleton.mp hc]
            exact .inl (by decide)
          · rw [List.mem_singleton.mp hc]
            exact h45
      · exact allowed_digit (hds.2 c hc)

theorem Hex4.allowed {h : Bytes} {n : ℕ} (hex : Hex4 h n) : ∀ c ∈ h, Allowed c := by
  have hdigit : ∀ {c : UInt8} {i : ℕ}, hexValue c = some i → Allowed c := by
    intro c i hc
    unfold hexValue at hc
    split_ifs at hc with h₁ h₂ h₃
    · exact allowed_digit h₁
    · exact .inl (UInt8.le_trans (by decide) h₂.1)
    · exact .inl (UInt8.le_trans (by decide) h₃.1)
  cases hex with
  | mk ha hb hc hd =>
    simp only [List.forall_mem_cons, List.not_mem_nil, false_imp_iff, implies_true, and_true]
    exact ⟨hdigit ha, hdigit hb, hdigit hc, hdigit hd⟩

theorem Escape.allowed {e d : Bytes} (h : Escape e d) : ∀ c ∈ e, Allowed c := by
  have hu : Allowed 117 := .inl (by decide)
  cases h with
  | unicode hex =>
    exact List.forall_mem_cons.mpr ⟨hu, hex.allowed⟩
  | surrogates high _ low =>
    refine List.forall_mem_append.mpr ⟨List.forall_mem_cons.mpr ⟨hu, high.allowed⟩, ?_⟩
    exact List.forall_mem_cons.mpr ⟨.inl (by decide), List.forall_mem_cons.mpr ⟨hu, low.allowed⟩⟩
  | _ => exact List.forall_mem_singleton.mpr (.inl (by decide))

theorem Body.allowed {t s : Bytes} (h : Body t s) : ∀ c ∈ t, 32 ≤ c ∨ isBlank c = true := by
  induction h with
  | nil => simp
  | plain low _ _ _ ih => exact List.forall_mem_cons.mpr ⟨.inl low, ih⟩
  | escape seq _ ih =>
    refine List.forall_mem_append.mpr ⟨List.forall_mem_cons.mpr ⟨.inl (by decide), ?_⟩, ih⟩
    exact seq.allowed

theorem Quoted.allowed {t s : Bytes} (h : Quoted t s) : ∀ c ∈ t, Allowed c := by
  cases h with
  | mk body =>
    have hq : Allowed 34 := .inl (by decide)
    refine List.forall_mem_append.mpr ⟨List.forall_mem_cons.mpr ⟨hq, body.allowed⟩, ?_⟩
    exact List.forall_mem_singleton.mpr hq

theorem Denotes.allowed {t : Bytes} {p : Part} (h : Denotes t p) : ∀ c ∈ t, Allowed c := by
  have hat : ∀ {c : UInt8}, 32 ≤ c → ∀ {t : Bytes}, (∀ c ∈ t, Allowed c) →
      ∀ x ∈ c :: t, Allowed x := fun hc _ ht => List.forall_mem_cons.mpr ⟨.inl hc, ht⟩
  induction h with
  | null => exact fun c hc => .inl (by revert c; decide)
  | bool b =>
    cases b with
    | false => exact fun c hc => .inl (by revert c; decide)
    | true => exact fun c hc => .inl (by revert c; decide)
  | number number => exact number.allowed
  | str quoted => exact quoted.allowed
  | emptyArr blank =>
    exact List.forall_mem_append.mpr ⟨hat (by decide) blank.allowed, hat (by decide) (by simp)⟩
  | arr _ ih =>
    exact List.forall_mem_append.mpr ⟨hat (by decide) ih, hat (by decide) (by simp)⟩
  | emptyObj blank =>
    exact List.forall_mem_append.mpr ⟨hat (by decide) blank.allowed, hat (by decide) (by simp)⟩
  | obj _ ih =>
    exact List.forall_mem_append.mpr ⟨hat (by decide) ih, hat (by decide) (by simp)⟩
  | item before _ after ih =>
    exact List.forall_mem_append.mpr
      ⟨List.forall_mem_append.mpr ⟨before.allowed, ih⟩, after.allowed⟩
  | items before _ after _ ih ihs =>
    refine List.forall_mem_append.mpr ⟨List.forall_mem_append.mpr ⟨?_, after.allowed⟩, ?_⟩
    · exact List.forall_mem_append.mpr ⟨before.allowed, ih⟩
    · exact hat (by decide) ihs
  | member before key colon gap _ after ih =>
    refine List.forall_mem_append.mpr ⟨List.forall_mem_append.mpr ⟨?_, colon.allowed⟩, ?_⟩
    · exact List.forall_mem_append.mpr ⟨before.allowed, key.allowed⟩
    · exact hat (by decide) (List.forall_mem_append.mpr
        ⟨List.forall_mem_append.mpr ⟨gap.allowed, ih⟩, after.allowed⟩)
  | members before key colon gap _ after _ ih ihs =>
    refine List.forall_mem_append.mpr ⟨List.forall_mem_append.mpr
      ⟨List.forall_mem_append.mpr ⟨?_, colon.allowed⟩, ?_⟩, hat (by decide) ihs⟩
    · exact List.forall_mem_append.mpr ⟨before.allowed, key.allowed⟩
    · exact hat (by decide) (List.forall_mem_append.mpr
        ⟨List.forall_mem_append.mpr ⟨gap.allowed, ih⟩, after.allowed⟩)

theorem Parses.allowed {text : Bytes} {v : Tree} (h : Parses text v) : ∀ c ∈ text, Allowed c := by
  obtain ⟨w, t, w', rfl, hw, hw', ht⟩ := h.value
  exact List.forall_mem_append.mpr
    ⟨List.forall_mem_append.mpr ⟨hw.allowed, ht.allowed⟩, hw'.allowed⟩

/-- Without a backslash a string stands for its own bytes, none of them a quote. -/
theorem Body.verbatim {t s : Bytes} (h : Body t s) (ht : (92 : UInt8) ∉ t) :
    s = t ∧ (34 : UInt8) ∉ s := by
  induction h with
  | nil => simp
  | plain _ quote _ _ ih =>
    rw [List.mem_cons, not_or] at ht
    obtain ⟨rfl, hs⟩ := ih ht.2
    rw [List.mem_cons, not_or]
    exact ⟨rfl, quote.symm, hs⟩
  | escape => simp at ht

theorem body_verbatim {s : Bytes} (h : ∀ c ∈ s, 32 ≤ c ∧ c ≠ 34 ∧ c ≠ 92) : Body s s := by
  induction s with
  | nil => exact .nil
  | cons c s ih =>
    obtain ⟨low, quote, backslash⟩ := h c List.mem_cons_self
    exact .plain low quote backslash (ih fun x hx => h x (List.mem_cons_of_mem _ hx))

theorem Denotes.value_of_mem {t : Bytes} {p : Part} (h : Denotes t p) {ms : List (Bytes × Tree)}
    (hp : p = .members ms) : ∀ m ∈ ms, ∃ u, u ⊆ t ∧ Denotes u (.value m.2) := by
  induction h generalizing ms with
  | member before key colon gap value after =>
    cases hp
    refine List.forall_mem_singleton.mpr ⟨_, ?_, value⟩
    intro c hc
    simp [hc]
  | members before key colon gap value after _ _ ihs =>
    cases hp
    refine List.forall_mem_cons.mpr ⟨⟨_, ?_, value⟩, fun m hm => ?_⟩
    · intro c hc
      simp [hc]
    · obtain ⟨u, hu, hvalue⟩ := ihs rfl m hm
      refine ⟨u, fun c hc => ?_, hvalue⟩
      simp [hu hc]
  | _ => cases hp

/-- In a text without backslashes no member of the object is a string with a quote. -/
theorem Parses.quote_notMem {text : Bytes} {ms : List (Bytes × Tree)} (h : Parses text (.obj ms))
    (htext : (92 : UInt8) ∉ text) {k s : Bytes} (hm : (k, .str s) ∈ ms) : (34 : UInt8) ∉ s := by
  obtain ⟨w, t, w', rfl, -, -, ht⟩ := h.value
  have hvalue : ∃ u, u ⊆ t ∧ Denotes u (.value (.str s)) := by
    cases ht with
    | emptyObj => cases hm
    | obj members =>
      obtain ⟨u, hu, hd⟩ := members.value_of_mem rfl _ hm
      exact ⟨u, fun c hc => by simp [hu hc], hd⟩
  obtain ⟨u, hu, hd⟩ := hvalue
  have hslash : (92 : UInt8) ∉ u := fun h92 => htext (by simp [hu h92])
  cases hd with
  | str quoted =>
    cases quoted with
    | mk body =>
      simp only [List.mem_append, List.mem_cons, not_or] at hslash
      exact (body.verbatim hslash.1.2).2

/-- Bytes that stand for themselves in a string: printable ASCII without quote and backslash. -/
def Plain (s : Bytes) : Prop := ∀ c ∈ s, (32 ≤ c ∧ c ≠ 34 ∧ c ≠ 92) ∧ c ≤ 0x7F

instance (s : Bytes) : Decidable (Plain s) := inferInstanceAs (Decidable (∀ c ∈ s, _))

theorem Plain.quoted {s : Bytes} (h : Plain s) : Quoted (34 :: s ++ [34]) s :=
  .mk (body_verbatim fun c hc => (h c hc).1)

/-- Members as they are written by hand: each a key, the text of its value and the
value, with the same gap behind every colon and comma. -/
def joinMembers (gap : Bytes) : List (Bytes × Bytes × Tree) → Bytes
  | [] => []
  | [m] => 34 :: m.1 ++ [34] ++ 58 :: gap ++ m.2.1
  | m :: m' :: ms =>
      34 :: m.1 ++ [34] ++ 58 :: gap ++ m.2.1 ++ 44 :: gap ++ joinMembers gap (m' :: ms)

theorem joinMembers_denotes {gap w : Bytes} (hgap : Blank gap) (hw : Blank w)
    {ms : List (Bytes × Bytes × Tree)} (hne : ms ≠ [])
    (hms : ∀ m ∈ ms, Plain m.1 ∧ Denotes m.2.1 (.value m.2.2)) :
    Denotes (w ++ joinMembers gap ms) (.members (ms.map fun m => (m.1, m.2.2))) := by
  have hnil : Blank [] := List.forall_mem_nil _
  induction ms generalizing w with
  | nil => exact absurd rfl hne
  | cons m ms ih =>
    obtain ⟨⟨hkey, hvalue⟩, hrest⟩ := List.forall_mem_cons.mp hms
    cases ms with
    | nil =>
      have hone := Denotes.member hw hkey.quoted hnil hgap hvalue hnil
      simpa [joinMembers] using hone
    | cons m' ms =>
      have htail := ih hgap (by simp) hrest
      have hmore := Denotes.members hw hkey.quoted hnil hgap hvalue hnil htail
      simpa [joinMembers] using hmore

theorem object_denotes {gap : Bytes} {ms : List (Bytes × Bytes × Tree)} (hgap : Blank gap)
    (hne : ms ≠ []) (hms : ∀ m ∈ ms, Plain m.1 ∧ Denotes m.2.1 (.value m.2.2)) :
    Denotes (123 :: joinMembers gap ms ++ [125])
      (.value (.obj (ms.map fun m => (m.1, m.2.2)))) := by
  have hmembers := joinMembers_denotes hgap (List.forall_mem_nil _) hne hms
  rw [List.nil_append] at hmembers
  exact .obj hmembers

theorem parses_joinMembers {gap text : Bytes} {ms : List (Bytes × Bytes × Tree)}
    (htext : text = 123 :: joinMembers gap ms ++ [125]) (hutf : Utf8.valid text = true)
    (hgap : Blank gap) (hne : ms ≠ [])
    (hms : ∀ m ∈ ms, Plain m.1 ∧ Denotes m.2.1 (.value m.2.2)) :
    Parses text (.obj (ms.map fun m => (m.1, m.2.2))) := by
  have hnil : Blank [] := List.forall_mem_nil _
  exact ⟨hutf, [], text, [], by simp, hnil, hnil, htext ▸ object_denotes hgap hne hms⟩

end JsonText

namespace Utf8

theorem ascii_of_decode {b : UInt8} (h : decode 0 b = 0) : b ≤ 0x7F := by
  have hall : ∀ n < 256, decode 0 (UInt8.ofNat n) = 0 → n ≤ 0x7F := by decide +kernel
  have hb := hall b.toNat b.toNat_lt
  rw [UInt8.ofNat_toNat] at hb
  exact UInt8.le_iff_toNat_le.mpr (hb h)

theorem valid_append {a b : Bytes} (ha : valid a = true) (hb : valid b = true) :
    valid (a ++ b) = true := (acceptsFrom_append b ha).trans hb

end Utf8

namespace Json

open JsonText

theorem hexDigit_ascii : ∀ n < 16, hexDigit n ≤ 0x7F ∧ hexValue (hexDigit n) = some n := by decide

theorem escape_ascii {b : UInt8} (hb : b ≤ 0x7F) : ∀ c ∈ escape b, c ≤ 0x7F := by
  have hhigh : b.toNat / 16 < 16 := by have := b.toNat_lt; omega
  have hlow : b.toNat % 16 < 16 := Nat.mod_lt _ (by decide)
  unfold escape
  split_ifs
  · decide
  · decide
  · decide
  · decide
  · decide
  · decide
  · decide
  · refine List.forall_mem_append.mpr ⟨by decide, ?_⟩
    simp only [List.forall_mem_cons, List.not_mem_nil, false_imp_iff, implies_true, and_true]
    exact ⟨(hexDigit_ascii _ hhigh).1, (hexDigit_ascii _ hlow).1⟩
  · exact List.forall_mem_singleton.mpr hb

theorem body_escape {b : UInt8} {t s : Bytes} (h : Body t s) : Body (escape b ++ t) (b :: s) := by
  unfold escape
  split_ifs with h₁ h₂ h₃ h₄ h₅ h₆ h₇ h₈
  · subst h₁
    exact .escape .backspace h
  · subst h₂
    exact .escape .tab h
  · subst h₃
    exact .escape .lineFeed h
  · subst h₄
    exact .escape .formFeed h
  · subst h₅
    exact .escape .carriageReturn h
  · subst h₆
    exact .escape .quote h
  · subst h₇
    exact .escape .backslash h
  · have hb : b.toNat ≤ 31 := UInt8.le_iff_toNat_le.mp h₈
    have hhigh := (hexDigit_ascii (b.toNat / 16) (by omega)).2
    have hlow := (hexDigit_ascii (b.toNat % 16) (Nat.mod_lt _ (by decide))).2
    have hzero : hexValue 48 = some 0 := rfl
    have hhex := Hex4.mk hzero hzero hhigh hlow
    have hvalue : ((16 * 0 + 0) * 16 + b.toNat / 16) * 16 + b.toNat % 16 = b.toNat := by omega
    rw [hvalue] at hhex
    have hencode : encode b.toNat = [b] := by
      rw [encode, if_pos (by omega), UInt8.ofNat_toNat]
    have hescape := Body.escape (.unicode hhex (.inl (by omega))) h
    rw [hencode] at hescape
    exact hescape
  · have hlow : 32 ≤ b := by
      rw [UInt8.le_iff_toNat_le] at h₈ ⊢
      exact Nat.lt_of_not_le h₈
    exact .plain hlow h₆ h₇ h

theorem dumpEscaped_body {state : ℕ} {s t : Bytes} (h : dumpEscaped state s = some t) :
    Body t s ∧ Utf8.acceptsFrom state t = true := by
  induction s generalizing state t with
  | nil =>
    unfold dumpEscaped at h
    split at h
    · rename_i hs
      cases h
      exact ⟨.nil, by simp [Utf8.acceptsFrom, hs]⟩
    · cases h
  | cons b s ih =>
    simp only [dumpEscaped] at h
    split at h
    · cases h
    · rename_i hd
      obtain ⟨u, hu, rfl⟩ := Option.map_eq_some_iff.mp h
      obtain ⟨hbody, hutf⟩ := ih hu
      split_ifs with hwhole
      · obtain ⟨rfl, hzero⟩ := hwhole
        rw [hzero] at hutf
        have hascii := escape_ascii (Utf8.ascii_of_decode hzero)
        exact ⟨body_escape hbody, Utf8.valid_append (Utf8.valid_of_ascii hascii) hutf⟩
      · -- a byte of a longer character is not ASCII
        have hb : ¬b ≤ 0x7F := by
          intro hb
          by_cases hs : state = 0
          · exact hwhole ⟨hs, hs ▸ Utf8.decode_ascii hb⟩
          · exact hd (Utf8.decode_ascii_inside hs hb)
        have hlow : 0x7F < b := by
          rw [UInt8.le_iff_toNat_le] at hb
          exact UInt8.lt_iff_toNat_lt.mpr (Nat.lt_of_not_le hb)
        have hne : ∀ c : UInt8, c ≤ 0x7F → b ≠ c := by
          rintro c hc rfl
          exact hb hc
        refine ⟨.plain ?_ (hne 34 (by decide)) (hne 92 (by decide)) hbody, ?_⟩
        · exact UInt8.le_of_lt (UInt8.lt_of_le_of_lt (by decide) hlow)
        · simp [Utf8.acceptsFrom, hd, hutf]

theorem dumpString_quoted {s t : Bytes} (h : dumpString s = some t) :
    Quoted t s ∧ Utf8.valid t = true := by
  obtain ⟨u, hu, rfl⟩ := Option.map_eq_some_iff.mp h
  obtain ⟨hbody, hutf⟩ := dumpEscaped_body hu
  refine ⟨.mk hbody, Utf8.valid_append (a := 34 :: u) ?_ (by decide)⟩
  exact Utf8.valid_append (a := [34]) (by decide) hutf

mutual

def tree : Json → Tree
  | .null => .null
  | .bool b => .bool b
  | .int n => .number (decimalInt n)
  | .float x => .number x.1
  | .str s => .str s
  | .arr xs => .arr (treeItems xs)
  | .obj members => .obj (treeMembers members)

def treeItems : List Json → List Tree
  | [] => []
  | x :: xs => tree x :: treeItems xs

def treeMembers : List (Bytes × Json) → List (Bytes × Tree)
  | [] => []
  | (k, v) :: rest => (k, tree v) :: treeMembers rest

end

mutual

/-- Every floating-point number of the value is printed as a JSON number. -/
def Printed : Json → Prop
  | .float x => Number x.1
  | .arr xs => ItemsPrinted xs
  | .obj members => MembersPrinted members
  | _ => True

def ItemsPrinted : List Json → Prop
  | [] => True
  | x :: xs => Printed x ∧ ItemsPrinted xs

def MembersPrinted : List (Bytes × Json) → Prop
  | [] => True
  | (_, v) :: rest => Printed v ∧ MembersPrinted rest

end

theorem head_decimal {n : ℕ} (h : 0 < n) : (decimal n).head? ≠ some 48 := by
  induction n using Nat.strong_induction_on with
  | _ n ih =>
    by_cases hn : n < 10
    · rw [decimal, Nat.toDigits_of_lt_base hn]
      have hall : ∀ n < 10, 0 < n → UInt8.ofNat n.digitChar.toNat ≠ 48 := by decide
      simpa using hall n hn h
    · have hdiv : (decimal (n / 10)).head? ≠ some 48 := ih _ (by omega) (by omega)
      have hne : decimal (n / 10) ≠ [] := by simp [decimal]
      have hsplit : decimal n = decimal (n / 10) ++ [UInt8.ofNat (n % 10).digitChar.toNat] := by
        rw [decimal, Nat.toDigits_of_base_le (by decide) (Nat.le_of_not_lt hn), List.map_append]
        rfl
      rw [hsplit, List.head?_append_of_ne_nil _ hne]
      exact hdiv

theorem number_decimalInt (n : ℤ) : Number (decimalInt n) := by
  have hdigits : ∀ m, Digits (decimal m) := fun m =>
    ⟨by simp [decimal], fun _ => isDigit_of_mem_decimal⟩
  cases n with
  | ofNat m =>
    refine ⟨[], decimal m, [], [], by simp [decimalInt], .inl rfl, ⟨hdigits m, ?_⟩, .inl rfl,
      .inl rfl⟩
    by_cases hm : 0 < m
    · exact .inr (head_decimal hm)
    · obtain rfl : m = 0 := by omega
      exact .inl rfl
  | negSucc m =>
    refine ⟨[45], decimal (m + 1), [], [], by simp [decimalInt], .inr rfl, ⟨hdigits _, ?_⟩,
      .inl rfl, .inl rfl⟩
    exact .inr (head_decimal (Nat.succ_pos m))

theorem blank_nil : Blank [] := nofun

mutual

/-- What `dump` prints is the text of the value. -/
theorem dump_denotes : (j : Json) → {t : Bytes} → Printed j → dump j = some t →
    Denotes t (.value (tree j))
  | .null, t, _, h => by
    cases h
    exact .null
  | .bool b, t, _, h => by
    cases h
    exact .bool b
  | .int n, t, _, h => by
    cases h
    exact .number (number_decimalInt n)
  | .float x, t, hp, h => by
    cases h
    exact .number hp
  | .str s, t, _, h => .str (dumpString_quoted h).1
  | .arr xs, t, hp, h => by
    obtain ⟨u, hu, rfl⟩ := Option.map_eq_some_iff.mp h
    cases xs with
    | nil =>
      cases hu
      exact .emptyArr blank_nil
    | cons x xs => exact .arr (dumpItems_denotes (x :: xs) (by simp) hp hu)
  | .obj members, t, hp, h => by
    obtain ⟨u, hu, rfl⟩ := Option.map_eq_some_iff.mp h
    cases members with
    | nil =>
      cases hu
      exact .emptyObj blank_nil
    | cons m ms => exact .obj (dumpMembers_denotes (m :: ms) (by simp) hp hu)

theorem dumpItems_denotes : (xs : List Json) → {t : Bytes} → xs ≠ [] → ItemsPrinted xs →
    dumpItems xs = some t → Denotes t (.items (treeItems xs))
  | [], _, hne, _, _ => absurd rfl hne
  | x :: xs, t, _, hp, h => by
    simp only [dumpItems] at h
    split at h
    · rename_i u us hu hus
      have hx := dump_denotes x hp.1 hu
      cases xs with
      | nil =>
        cases h
        have hone := Denotes.item blank_nil hx blank_nil
        rwa [List.nil_append, List.append_nil] at hone
      | cons y ys =>
        cases h
        have hrest := dumpItems_denotes (y :: ys) (by simp) hp.2 hus
        have hmore := Denotes.items blank_nil hx blank_nil hrest
        rwa [List.nil_append, List.append_nil] at hmore
    · cases h

theorem dumpMembers_denotes : (members : List (Bytes × Json)) → {t : Bytes} → members ≠ [] →
    MembersPrinted members → dumpMembers members = some t →
    Denotes t (.members (treeMembers members))
  | [], _, hne, _, _ => absurd rfl hne
  | (k, v) :: rest, t, _, hp, h => by
    simp only [dumpMembers] at h
    split at h
    · rename_i key u us hk hu hus
      have hkey := (dumpString_quoted hk).1
      have hv := dump_denotes v hp.1 hu
      cases rest with
      | nil =>
        cases h
        have hone := Denotes.member blank_nil hkey blank_nil blank_nil hv blank_nil
        simpa [treeMembers] using hone
      | cons m ms =>
        cases h
        have hrest := dumpMembers_denotes (m :: ms) (by simp) hp.2 hus
        have hmore := Denotes.members blank_nil hkey blank_nil blank_nil hv blank_nil hrest
        simpa [treeMembers] using hmore
    · cases h

end

mutual

theorem dump_utf8 : (j : Json) → {t : Bytes} → dump j = some t → Utf8.valid t = true
  | .null, t, h => by
    cases h
    decide
  | .bool b, t, h => by
    cases h
    cases b <;> decide
  | .int n, t, h => by
    cases h
    exact Utf8.valid_of_ascii fun c hc => UInt8.le_trans (printable_decimalInt n c hc).2 (by decide)
  | .float x, t, h => by
    cases h
    exact Utf8.valid_of_ascii fun c hc => UInt8.le_trans (x.2 c hc).2 (by decide)
  | .str s, t, h => (dumpString_quoted h).2
  | .arr xs, t, h => by
    obtain ⟨u, hu, rfl⟩ := Option.map_eq_some_iff.mp h
    refine Utf8.valid_append (a := 91 :: u) ?_ (by decide)
    exact Utf8.valid_append (a := [91]) (by decide) (dumpItems_utf8 xs hu)
  | .obj members, t, h => by
    obtain ⟨u, hu, rfl⟩ := Option.map_eq_some_iff.mp h
    refine Utf8.valid_append (a := 123 :: u) ?_ (by decide)
    exact Utf8.valid_append (a := [123]) (by decide) (dumpMembers_utf8 members hu)

theorem dumpItems_utf8 : (xs : List Json) → {t : Bytes} → dumpItems xs = some t →
    Utf8.valid t = true
  | [], t, h => by
    cases h
    rfl
  | x :: xs, t, h => by
    simp only [dumpItems] at h
    split at h
    · rename_i u us hu hus
      have hx := dump_utf8 x hu
      cases h
      split
      · exact hx
      · exact Utf8.valid_append hx
          (Utf8.valid_append (a := [44]) (by decide) (dumpItems_utf8 xs hus))
    · cases h

theorem dumpMembers_utf8 : (members : List (Bytes × Json)) → {t : Bytes} →
    dumpMembers members = some t → Utf8.valid t = true
  | [], t, h => by
    cases h
    rfl
  | (k, v) :: rest, t, h => by
    simp only [dumpMembers] at h
    split at h
    · rename_i key u us hk hu hus
      have hkey := (dumpString_quoted hk).2
      have hv := dump_utf8 v hu
      have hfirst : Utf8.valid (key ++ 58 :: u) = true :=
        Utf8.valid_append hkey (Utf8.valid_append (a := [58]) (by decide) hv)
      cases h
      split
      · exact hfirst
      · exact Utf8.valid_append hfirst
          (Utf8.valid_append (a := [44]) (by decide) (dumpMembers_utf8 rest hus))
    · cases h

end

/-- A value that can be printed is read back as it was. -/
theorem dump_parses {j : Json} {t : Bytes} (hp : Printed j) (h : dump j = some t) :
    Parses t (tree j) :=
  ⟨dump_utf8 j h, [], t, [], by simp, blank_nil, blank_nil, dump_denotes j hp h⟩

end Json

end CctvServer
