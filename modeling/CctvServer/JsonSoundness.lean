import CctvServer.JsonParser

namespace CctvServer

namespace JsonParser

open JsonText JsonLexer

section Build

variable (F : Floats)

def numberValue : Token → Option Json
  | .valueUnsigned n => some (.int n)
  | .valueInteger n => some (.int n)
  | .valueFloat t => (F.read t).map .float
  | _ => none

mutual

/-- The value of a text: members by key, a number by its size and its form. It is `none`
only for a number that is not finite. -/
def build : Tree → Option Json
  | .null => some .null
  | .bool b => some (.bool b)
  | .number t => numberValue F (numberToken (numberType t) t)
  | .str s => some (.str s)
  | .arr xs => (buildItems xs).map .arr
  | .obj ms => (buildMembers [] ms).map .obj

def buildItems : List Tree → Option (List Json)
  | [] => some []
  | x :: xs => (build x).bind fun v => (buildItems xs).map fun vs => v :: vs

/-- A later member replaces an earlier one with the same key. -/
def buildMembers : List (Bytes × Json) → List (Bytes × Tree) → Option (List (Bytes × Json))
  | members, [] => some members
  | members, (k, x) :: ms => (build x).bind fun v => buildMembers (Json.setKey k v members) ms

end

variable {F}

theorem buildItems_append (xs ys : List Tree) : buildItems F (xs ++ ys) =
    (buildItems F xs).bind fun vs => (buildItems F ys).map fun ws => vs ++ ws := by
  induction xs with
  | nil => simp [buildItems]
  | cons x xs ih =>
    simp only [List.cons_append, buildItems, ih]
    cases build F x <;> cases buildItems F xs <;> cases buildItems F ys <;> rfl

theorem buildMembers_append (members : List (Bytes × Json)) (ms ns : List (Bytes × Tree)) :
    buildMembers F members (ms ++ ns) =
      (buildMembers F members ms).bind fun members' => buildMembers F members' ns := by
  induction ms generalizing members with
  | nil => rfl
  | cons m ms ih =>
    obtain ⟨k, x⟩ := m
    simp only [List.cons_append, buildMembers]
    cases build F x with
    | none => rfl
    | some v => exact ih _

end Build

theorem denotes_items_snoc {t w u w' : Bytes} {xs : List Tree} {x : Tree} {p : Part}
    (h : Denotes t p) (hp : p = .items xs) (hw : Blank w) (hx : Denotes u (.value x))
    (hw' : Blank w') : Denotes (t ++ 44 :: (w ++ u ++ w')) (.items (xs ++ [x])) := by
  induction h generalizing xs with
  | item before value after =>
    cases hp
    exact .items before value after (.item hw hx hw')
  | items before value after _ _ ih =>
    cases hp
    have hmore := Denotes.items before value after (ih rfl)
    simpa using hmore
  | _ => cases hp

theorem denotes_members_snoc {t w₁ q w₂ w₃ u w₄ k : Bytes} {ms : List (Bytes × Tree)} {x : Tree}
    {p : Part} (h : Denotes t p) (hp : p = .members ms) (hw₁ : Blank w₁) (hq : Quoted q k)
    (hw₂ : Blank w₂) (hw₃ : Blank w₃) (hx : Denotes u (.value x)) (hw₄ : Blank w₄) :
    Denotes (t ++ 44 :: (w₁ ++ q ++ w₂ ++ 58 :: (w₃ ++ u ++ w₄))) (.members (ms ++ [(k, x)])) := by
  induction h generalizing ms with
  | member before key colon gap value after =>
    cases hp
    exact .members before key colon gap value after (.member hw₁ hq hw₂ hw₃ hx hw₄)
  | members before key colon gap value after _ _ ih =>
    cases hp
    have hmore := Denotes.members before key colon gap value after (ih rfl)
    simpa using hmore
  | _ => cases hp

/-- The text from the first bracket to the place of the next value, behind the byte order
mark `m`. -/
inductive Open (F : Floats) (m : Bytes) : List Frame → Bytes → Prop
  | nil : Open F m [] m
  | array {stack : List Frame} {u w : Bytes} (before : Open F m stack u) (blank : Blank w) :
      Open F m (.array [] :: stack) (u ++ w ++ [91])
  | items {stack : List Frame} {u w t : Bytes} {xs : List Tree} {vs : List Json}
      (before : Open F m stack u) (blank : Blank w) (items : Denotes t (.items xs))
      (build : buildItems F xs = some vs) :
      Open F m (.array vs :: stack) (u ++ w ++ 91 :: t ++ [44])
  | object {stack : List Frame} {u w w₁ q w₂ key : Bytes} (before : Open F m stack u)
      (blank : Blank w) (gap : Blank w₁) (quoted : Quoted q key) (colon : Blank w₂) :
      Open F m (.object [] key :: stack) (u ++ w ++ 123 :: (w₁ ++ q ++ w₂ ++ [58]))
  | members {stack : List Frame} {u w t w₁ q w₂ key : Bytes} {ms : List (Bytes × Tree)}
      {members : List (Bytes × Json)} (before : Open F m stack u) (blank : Blank w)
      (denotes : Denotes t (.members ms)) (build : buildMembers F [] ms = some members)
      (gap : Blank w₁) (quoted : Quoted q key) (colon : Blank w₂) :
      Open F m (.object members key :: stack)
        (u ++ w ++ 123 :: t ++ 44 :: (w₁ ++ q ++ w₂ ++ [58]))

def ReadValue (F : Floats) (m : Bytes) (stack : List Frame) (v : Json) (read rest : Bytes) : Prop :=
  Utf8.valid read = true ∧ ∃ u w t x, read = u ++ w ++ t ∧ Open F m stack u ∧ Blank w ∧
    Denotes t (.value x) ∧ build F x = some v ∧ Ends t rest

def ReadToken (F : Floats) (m : Bytes) (stack : List Frame) (last : Token) (read rest : Bytes) :
    Prop :=
  Utf8.valid read = true ∧ ∃ u w t, read = u ++ w ++ t ∧ Open F m stack u ∧ Blank w ∧
    Lexeme t last ∧ Ends t rest

/-- What the state of the loop says of the text `b` that is parsed. -/
def Covers (F : Floats) (m b : Bytes) : State → Prop
  | .value last rest stack => last = .parseError ∨ last = .endOfInput ∨
      ∃ read, b = read ++ rest ∧ ReadToken F m stack last read rest
  | .parsed v rest stack => ∃ read, b = read ++ rest ∧ ReadValue F m stack v read rest
  | .done v rest => ∃ read, b = read ++ rest ∧ ReadValue F m [] v read rest
  | .error => True

section Step

variable {F : Floats} {m b : Bytes}

theorem ascii_of_blank {w : Bytes} (h : Blank w) : ∀ c ∈ w, c ≤ 0x7F := by
  intro c hc
  rcases blank_cases (h c hc) with rfl | rfl | rfl | rfl <;> decide

theorem valid_blank {w : Bytes} (h : Blank w) : Utf8.valid w = true :=
  Utf8.valid_of_ascii (ascii_of_blank h)

theorem covers_of_scan {stack : List Frame} {read rest rest' : Bytes} {last : Token}
    (hopen : Open F m stack read) (hb : b = read ++ rest) (hread : Utf8.valid read = true)
    (h : scan rest = (last, rest')) : Covers F m b (.value last rest' stack) := by
  refine (scans_of_scan h).imp_right fun h => h.imp_right ?_
  rintro ⟨w, t, rfl, hw, hlex, ht, hends⟩
  exact ⟨read ++ w ++ t, by simp [hb], Utf8.valid_append
    (Utf8.valid_append hread (valid_blank hw)) ht, read, w, t, rfl, hopen, hw, hlex, hends⟩

theorem covers_separator {stack : List Frame} {members : List (Bytes × Json)}
    {key u rest : Bytes} (hopen : ∀ w, Blank w → Open F m (.object members key :: stack)
      (u ++ w ++ [58])) (hb : b = u ++ rest) (hread : Utf8.valid u = true) :
    Covers F m b (separator members key rest stack) := by
  rw [separator]
  split
  · rename_i rest' h
    obtain ⟨w, t, rfl, hw, hlex, -, -⟩ := Reads.of_scan h (by simp) (by simp)
    obtain rfl := hlex.eq_text rfl
    refine covers_of_scan (hopen w hw) (by simp [hb]) ?_ rfl
    exact Utf8.valid_append (Utf8.valid_append hread (valid_blank hw)) (by decide)
  · trivial

theorem onValue_number (type : NumberType) (t rest : Bytes) (stack : List Frame) :
    onValue F rest stack (numberToken type t) =
      (numberValue F (numberToken type t)).elim .error fun v => .parsed v rest stack := by
  rcases numberToken_cases type t with ⟨n, h⟩ | ⟨n, h⟩ | h
  · rw [h]
    rfl
  · rw [h]
    rfl
  · rw [h, onValue, numberValue]
    cases F.read t <;> rfl

theorem covers_onValue {stack : List Frame} {last : Token} {rest : Bytes}
    (h : Covers F m b (.value last rest stack)) : Covers F m b (onValue F rest stack last) := by
  obtain rfl | rfl | ⟨read, hb, hvalid, u, w, t, rfl, hopen, hw, hlex, hends⟩ := h
  · trivial
  · trivial
  -- a value that is one token
  have hone : ∀ {x : Tree} {v : Json}, Denotes t (.value x) → build F x = some v →
      Covers F m b (.parsed v rest stack) := fun hx hv =>
    ⟨_, hb, hvalid, u, w, t, _, rfl, hopen, hw, hx, hv, hends⟩
  cases hlex with
  | literalTrue => exact hone (.bool true) rfl
  | literalFalse => exact hone (.bool false) rfl
  | literalNull => exact hone .null rfl
  | string quoted => exact hone (.str quoted) rfl
  | number number =>
    rw [onValue_number]
    cases hv : numberValue F (numberToken (numberType t) t) with
    | none => trivial
    | some v => exact hone (.number number) hv
  | beginArray =>
    rw [onValue]
    split
    · rename_i rest' h
      obtain ⟨w', t', rfl, hw', hlex, -, -⟩ := Reads.of_scan h (by simp) (by simp)
      obtain rfl := hlex.eq_text rfl
      refine ⟨u ++ w ++ (91 :: w' ++ [93]), by simp [hb], ?_, u, w, _, .arr [], rfl, hopen, hw,
        .emptyArr hw', rfl, ends_of_head (by decide) (by decide) _ _⟩
      simpa using Utf8.valid_append (Utf8.valid_append hvalid (valid_blank hw'))
        (by decide : Utf8.valid [93] = true)
    · rename_i last rest' _ h
      exact covers_of_scan (.array hopen hw) hb hvalid h
  | beginObject =>
    rw [onValue]
    split
    · rename_i rest' h
      obtain ⟨w', t', rfl, hw', hlex, -, -⟩ := Reads.of_scan h (by simp) (by simp)
      obtain rfl := hlex.eq_text rfl
      refine ⟨u ++ w ++ (123 :: w' ++ [125]), by simp [hb], ?_, u, w, _, .obj [], rfl, hopen, hw,
        .emptyObj hw', rfl, ends_of_head (by decide) (by decide) _ _⟩
      simpa using Utf8.valid_append (Utf8.valid_append hvalid (valid_blank hw'))
        (by decide : Utf8.valid [125] = true)
    · rename_i key rest' h
      obtain ⟨w', q, rfl, hw', hlex, hq, -⟩ := Reads.of_scan h (by simp) (by simp)
      refine covers_separator (u := u ++ w ++ [123] ++ w' ++ q) (fun w'' hw'' => ?_)
        (by simp [hb]) (Utf8.valid_append (Utf8.valid_append hvalid (valid_blank hw')) hq)
      have hobject := Open.object (F := F) hopen hw hw' hlex.quoted hw''
      simpa using hobject
    · trivial
  | _ => trivial

theorem items_of_open {stack : List Frame} {items : List Json} {u w t w' : Bytes} {x : Tree}
    {v : Json} (h : Open F m (.array items :: stack) u) (hw : Blank w) (hx : Denotes t (.value x))
    (hv : build F x = some v) (hw' : Blank w') : ∃ u₀ w₀ ts xs,
      u ++ w ++ t ++ w' = u₀ ++ w₀ ++ 91 :: ts ∧ Open F m stack u₀ ∧ Blank w₀ ∧
        Denotes ts (.items xs) ∧ buildItems F xs = some (items ++ [v]) := by
  cases h with
  | @array _ u₀ w₀ before blank =>
    exact ⟨u₀, w₀, w ++ t ++ w', [x], by simp, before, blank, .item hw hx hw',
      by simp [buildItems, hv]⟩
  | @items _ u₀ w₀ ts xs _ before blank denotes hbuild =>
    refine ⟨u₀, w₀, ts ++ 44 :: (w ++ t ++ w'), xs ++ [x], by simp, before, blank,
      denotes_items_snoc denotes rfl hw hx hw', ?_⟩
    simp [buildItems_append, buildItems, hbuild, hv]

theorem members_of_open {stack : List Frame} {members : List (Bytes × Json)}
    {key u w t w' : Bytes} {x : Tree} {v : Json} (h : Open F m (.object members key :: stack) u)
    (hw : Blank w) (hx : Denotes t (.value x)) (hv : build F x = some v) (hw' : Blank w') :
    ∃ u₀ w₀ ts ms, u ++ w ++ t ++ w' = u₀ ++ w₀ ++ 123 :: ts ∧ Open F m stack u₀ ∧ Blank w₀ ∧
      Denotes ts (.members ms) ∧ buildMembers F [] ms = some (Json.setKey key v members) := by
  cases h with
  | @object _ u₀ w₀ w₁ q w₂ _ before blank gap quoted colon =>
    exact ⟨u₀, w₀, w₁ ++ q ++ w₂ ++ 58 :: (w ++ t ++ w'), [(key, x)], by simp, before, blank,
      .member gap quoted colon hw hx hw', by simp [buildMembers, hv]⟩
  | @members _ u₀ w₀ ts w₁ q w₂ _ ms _ before blank denotes hbuild gap quoted colon =>
    refine ⟨u₀, w₀, ts ++ 44 :: (w₁ ++ q ++ w₂ ++ 58 :: (w ++ t ++ w')), ms ++ [(key, x)],
      by simp, before, blank, denotes_members_snoc denotes rfl gap quoted colon hw hx hw', ?_⟩
    simp [buildMembers_append, buildMembers, hbuild, hv]

theorem covers_onParsed {stack : List Frame} {v : Json} {rest : Bytes}
    (h : Covers F m b (.parsed v rest stack)) : Covers F m b (onParsed v rest stack) := by
  cases stack with
  | nil => exact h
  | cons frame stack =>
    obtain ⟨read, hb, hvalid, u, w, t, x, rfl, hopen, hw, hx, hv, -⟩ := h
    -- a separator or a bracket of one byte, behind blanks
    have hmore : ∀ {w' : Bytes} {c : UInt8}, Blank w' → Utf8.valid [c] = true →
        Utf8.valid (u ++ w ++ t ++ w' ++ [c]) = true := fun hw' hc =>
      Utf8.valid_append (Utf8.valid_append hvalid (valid_blank hw')) hc
    cases frame with
    | array items =>
      rw [onParsed]
      split
      · rename_i rest' h
        obtain ⟨w', t', rfl, hw', hlex, -, -⟩ := Reads.of_scan h (by simp) (by simp)
        obtain rfl := hlex.eq_text rfl
        obtain ⟨u₀, w₀, ts, xs, heq, hopen₀, hw₀, hts, hbuild⟩ := items_of_open hopen hw hx hv hw'
        have hread : Open F m (.array (items ++ [v]) :: stack) (u ++ w ++ t ++ w' ++ [44]) := by
          rw [heq]
          exact .items hopen₀ hw₀ hts hbuild
        exact covers_of_scan hread (by simp [hb]) (hmore hw' (by decide)) rfl
      · rename_i rest' h
        obtain ⟨w', t', rfl, hw', hlex, -, -⟩ := Reads.of_scan h (by simp) (by simp)
        obtain rfl := hlex.eq_text rfl
        obtain ⟨u₀, w₀, ts, xs, heq, hopen₀, hw₀, hts, hbuild⟩ := items_of_open hopen hw hx hv hw'
        refine ⟨u ++ w ++ t ++ w' ++ [93], by simp [hb], hmore hw' (by decide), u₀, w₀,
          91 :: ts ++ [93], .arr xs, by rw [heq]; simp, hopen₀, hw₀, .arr hts, ?_,
          ends_of_head (by decide) (by decide) _ _⟩
        simp [build, hbuild]
      · trivial
    | object members key =>
      rw [onParsed]
      split
      · rename_i rest' h
        obtain ⟨w', t', rfl, hw', hlex, -, -⟩ := Reads.of_scan h (by simp) (by simp)
        obtain rfl := hlex.eq_text rfl
        obtain ⟨u₀, w₀, ts, ms, heq, hopen₀, hw₀, hts, hbuild⟩ := members_of_open hopen hw hx hv hw'
        split
        · rename_i key' rest'' h'
          obtain ⟨w'', q, rfl, hw'', hlex, hq, -⟩ := Reads.of_scan h' (by simp) (by simp)
          refine covers_separator (u := u ++ w ++ t ++ w' ++ [44] ++ w'' ++ q)
            (fun w₂ hw₂ => ?_) (by simp [hb])
            (Utf8.valid_append (Utf8.valid_append (hmore hw' (by decide)) (valid_blank hw'')) hq)
          have hmembers := Open.members hopen₀ hw₀ hts hbuild hw'' hlex.quoted hw₂
          rw [heq]
          simpa using hmembers
        · trivial
      · rename_i rest' h
        obtain ⟨w', t', rfl, hw', hlex, -, -⟩ := Reads.of_scan h (by simp) (by simp)
        obtain rfl := hlex.eq_text rfl
        obtain ⟨u₀, w₀, ts, ms, heq, hopen₀, hw₀, hts, hbuild⟩ := members_of_open hopen hw hx hv hw'
        refine ⟨u ++ w ++ t ++ w' ++ [125], by simp [hb], hmore hw' (by decide), u₀, w₀,
          123 :: ts ++ [125], .obj ms, by rw [heq]; simp, hopen₀, hw₀, .obj hts, ?_,
          ends_of_head (by decide) (by decide) _ _⟩
        simp [build, hbuild]
      · trivial

theorem covers_step {s : State} (h : Covers F m b s) : Covers F m b (step F s) := by
  cases s with
  | value last rest stack => exact covers_onValue h
  | parsed v rest stack => exact covers_onParsed h
  | done v rest => exact h
  | error => exact h

theorem covers_iterate {s : State} (h : Covers F m b s) (n : ℕ) :
    Covers F m b ((step F)^[n] s) := by
  induction n generalizing s with
  | zero => exact h
  | succ n ih => exact ih (covers_step h)

end Step

/-- A value that the parser returns stands at the beginning of the input. -/
theorem denotes_of_parse {F : Floats} {b rest : Bytes} {v : Json}
    (h : parse F b = some (v, rest)) : ∃ m w t x, b = m ++ w ++ t ++ rest ∧ Mark m ∧ Blank w ∧
      Utf8.valid t = true ∧ Denotes t (.value x) ∧ build F x = some v ∧ Ends t rest := by
  rw [parse] at h
  split at h
  · rename_i v' rest' hdone
    cases h
    have hstart : ∃ m, Mark m ∧ Covers F m b (start b) := by
      rw [start, scanFirst]
      split
      · rename_i b' hb
        obtain ⟨m, hm, rfl⟩ := mark_of_skipBom hb
        have hvalid : Utf8.valid m = true := by
          obtain rfl | rfl := hm <;> decide
        exact ⟨m, hm, covers_of_scan .nil rfl hvalid rfl⟩
      · exact ⟨[], .inl rfl, .inl rfl⟩
    obtain ⟨m, hm, hcovers⟩ := hstart
    have hcover := covers_iterate hcovers (2 * b.length + 3)
    rw [hdone] at hcover
    obtain ⟨read, hb, hvalid, u, w, t, x, rfl, hopen, hw, hx, hv, hends⟩ := hcover
    cases hopen
    have hfront : Utf8.valid (m ++ w) = true :=
      Utf8.valid_append (by obtain rfl | rfl := hm <;> decide) (valid_blank hw)
    exact ⟨m, w, t, x, by rw [hb], hm, hw, (Utf8.acceptsFrom_append t hfront).symm.trans hvalid,
      hx, hv, hends⟩
  · cases h

end JsonParser

end CctvServer
