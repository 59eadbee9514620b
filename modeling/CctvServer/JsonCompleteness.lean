import CctvServer.JsonSoundness

namespace CctvServer

namespace Utf8

theorem valid_of_ascii_append {a b : Bytes} (ha : ∀ c ∈ a, c ≤ 0x7F)
    (h : valid (a ++ b) = true) : valid b = true :=
  (acceptsFrom_append b (valid_of_ascii ha)).symm.trans h

theorem valid_of_append_ascii {a b : Bytes} (hb : ∀ c ∈ b, c ≤ 0x7F)
    (h : valid (a ++ b) = true) : valid a = true := by
  cases b with
  | nil => simpa using h
  | cons c b => exact acceptsFrom_before (hb c List.mem_cons_self) h

theorem valid_split {a b : Bytes} {c : UInt8} (hc : c ≤ 0x7F) (h : valid (a ++ c :: b) = true) :
    valid a = true ∧ valid b = true := by
  have ha : valid a = true := acceptsFrom_before hc h
  have hcb : valid (c :: b) = true := (acceptsFrom_append _ ha).symm.trans h
  exact ⟨ha, valid_of_ascii_append (List.forall_mem_singleton.mpr hc) hcb⟩

end Utf8

namespace JsonParser

open JsonText JsonLexer

def Ending (c : UInt8) : Prop := isBlank c = true ∨ c = 44 ∨ c = 93 ∨ c = 125

theorem ends_of_ending {c : UInt8} (hc : Ending c) (t b : Bytes) : Ends t (c :: b) := by
  have hall : ∀ c ∈ ([32, 9, 10, 13, 44, 93, 125] : Bytes), ∀ state : NumberState,
      state.next c = none := by
    intro c hc state
    cases state <;> revert c <;> decide
  have hmem : c ∈ ([32, 9, 10, 13, 44, 93, 125] : Bytes) := by
    rcases hc with hc | rfl | rfl | rfl
    · simp only [isBlank, Bool.or_eq_true, beq_iff_eq] at hc
      simp only [List.mem_cons]
      tauto
    · decide
    · decide
    · decide
  intro state _ d hd
  obtain rfl := Option.some.inj hd
  exact hall _ hmem state

theorem ends_blank {w : Bytes} (hw : Blank w) {c : UInt8} (hc : c = 44 ∨ c = 93 ∨ c = 125)
    (t b : Bytes) : Ends t (w ++ c :: b) := by
  cases w with
  | nil => exact ends_of_ending (.inr hc) t b
  | cons d w => exact ends_of_ending (.inl (hw d List.mem_cons_self)) t _

theorem valid_inside {t : Bytes} {c d : UInt8} (hc : c ≤ 0x7F) (hd : d ≤ 0x7F)
    (h : Utf8.valid (c :: t ++ [d]) = true) : Utf8.valid t = true :=
  (Utf8.valid_split (a := []) hc (Utf8.valid_split hd h).1).2

theorem valid_between {w t w' : Bytes} (hw : Blank w) (hw' : Blank w')
    (h : Utf8.valid (w ++ t ++ w') = true) : Utf8.valid t = true :=
  Utf8.valid_of_ascii_append (ascii_of_blank hw) (Utf8.valid_of_append_ascii (ascii_of_blank hw') h)

section Step

variable {F : Floats}

theorem next_of_lexeme {w t r : Bytes} {token : Token} (stack : List Frame) (hw : Blank w)
    (h : Lexeme t token) (hutf : Utf8.valid t = true) (hends : Ends t r) :
    next (w ++ t ++ r) stack = .value token r stack := by
  rw [next, scan_of_lexeme hw h hutf hends]

theorem reaches_lexeme {w t rest : Bytes} {token : Token} {v : Json} (stack : List Frame)
    (hw : Blank w) (h : Lexeme t token) (hutf : Utf8.valid t = true) (hends : Ends t rest)
    (hv : onValue F rest stack token = .parsed v rest stack) :
    Reaches F (next (w ++ t ++ rest) stack) (.parsed v rest stack) := by
  rw [next_of_lexeme stack hw h hutf hends]
  exact .head (hv ▸ .refl F _)

/-- No value begins with the bracket that closes an array. -/
theorem ne_endArray_of_reaches {b rest : Bytes} {stack stack' : List Frame} {v : Json}
    (h : Reaches F (next b stack) (.parsed v rest stack')) : (scan b).1 ≠ .endArray := by
  intro hend
  obtain ⟨n, hn⟩ := h
  cases n with
  | zero => cases hn
  | succ n =>
    have hstep : step F (next b stack) = .error := by
      rw [next, hend]
      rfl
    rw [Function.iterate_succ_apply, hstep, iterate_final F (s := .error) trivial] at hn
    cases hn

theorem onValue_beginArray {b : Bytes} (stack : List Frame) (h : (scan b).1 ≠ .endArray) :
    onValue F b stack .beginArray = next b (.array [] :: stack) := by
  rw [onValue]
  split
  · rename_i hscan
    rw [hscan] at h
    exact absurd rfl h
  · rename_i hscan
    rw [next, hscan]

/-- What is reached from the text of a part of a value, within the value's brackets. -/
def Reached (F : Floats) (t : Bytes) : Part → Prop
  | .value x => ∀ (v : Json) (w rest : Bytes) (stack : List Frame), Blank w →
      build F x = some v → Ends t rest →
      Reaches F (next (w ++ t ++ rest) stack) (.parsed v rest stack)
  | .items xs => ∀ (items vs : List Json) (rest : Bytes) (stack : List Frame),
      buildItems F xs = some vs →
      Reaches F (next (t ++ 93 :: rest) (.array items :: stack))
        (.parsed (.arr (items ++ vs)) rest stack)
  | .members ms => ∀ (members members' : List (Bytes × Json)) (rest : Bytes) (stack : List Frame),
      buildMembers F members ms = some members' →
      ∃ key rest', scan (t ++ 125 :: rest) = (.valueString key, rest') ∧
        Reaches F (separator members key rest' stack) (.parsed (.obj members') rest stack)

theorem step_array {w rest : Bytes} (v : Json) (items : List Json) (stack : List Frame)
    (hw : Blank w) :
    step F (.parsed v (w ++ 93 :: rest) (.array items :: stack)) =
        .parsed (.arr (items ++ [v])) rest stack ∧
      step F (.parsed v (w ++ 44 :: rest) (.array items :: stack)) =
        next rest (.array (items ++ [v]) :: stack) := by
  have hclose : scan (w ++ 93 :: rest) = (.endArray, rest) := by
    have h := scan_of_lexeme (r := rest) hw .endArray (by decide)
      (ends_of_head (by decide) (by decide) [] rest)
    simpa using h
  have hcomma : scan (w ++ 44 :: rest) = (.valueSeparator, rest) := by
    have h := scan_of_lexeme (r := rest) hw .valueSeparator (by decide)
      (ends_of_head (by decide) (by decide) [] rest)
    simpa using h
  exact ⟨by rw [step, onParsed, hclose], by rw [step, onParsed, hcomma]⟩

theorem separator_of_colon {w b : Bytes} (members : List (Bytes × Json)) (key : Bytes)
    (stack : List Frame) (hw : Blank w) :
    separator members key (w ++ 58 :: b) stack = next b (.object members key :: stack) := by
  have h := scan_of_lexeme (r := b) hw .nameSeparator (by decide)
    (ends_of_head (by decide) (by decide) [] b)
  have hcolon : scan (w ++ 58 :: b) = (.nameSeparator, b) := by simpa using h
  rw [separator, hcolon]

theorem scan_key {w q key : Bytes} (hw : Blank w) (hq : Quoted q key)
    (hutf : Utf8.valid q = true) (b : Bytes) : scan (w ++ q ++ b) = (.valueString key, b) := by
  refine scan_of_lexeme hw (.string hq) hutf ?_
  cases hq
  exact ends_of_head (by decide) (by decide) _ b

theorem step_object {w rest : Bytes} (v : Json) (members : List (Bytes × Json)) (key : Bytes)
    (stack : List Frame) (hw : Blank w) :
    step F (.parsed v (w ++ 125 :: rest) (.object members key :: stack)) =
        .parsed (.obj (Json.setKey key v members)) rest stack ∧
      ∀ key' rest', scan rest = (.valueString key', rest') →
        step F (.parsed v (w ++ 44 :: rest) (.object members key :: stack)) =
          separator (Json.setKey key v members) key' rest' stack := by
  have hclose : scan (w ++ 125 :: rest) = (.endObject, rest) := by
    have h := scan_of_lexeme (r := rest) hw .endObject (by decide)
      (ends_of_head (by decide) (by decide) [] rest)
    simpa using h
  have hcomma : scan (w ++ 44 :: rest) = (.valueSeparator, rest) := by
    have h := scan_of_lexeme (r := rest) hw .valueSeparator (by decide)
      (ends_of_head (by decide) (by decide) [] rest)
    simpa using h
  refine ⟨by rw [step, onParsed, hclose], fun key' rest' hkey => ?_⟩
  rw [step, onParsed, hcomma]
  simp only [hkey]

theorem next_punctuation {w rest : Bytes} {c : UInt8} {token : Token} (stack : List Frame)
    (hw : Blank w) (h : Lexeme [c] token) (hc : c ≤ 0x7F) (h45 : c ≠ 45)
    (hd : isDigit c = false) : next (w ++ c :: rest) stack = .value token rest stack := by
  have hnext := next_of_lexeme (r := rest) stack hw h
    (Utf8.valid_of_ascii (List.forall_mem_singleton.mpr hc)) (ends_of_head h45 hd [] rest)
  simpa using hnext

theorem reached_emptyArr {w : Bytes} (hw : Blank w) :
    Reached F (91 :: w ++ [93]) (.value (.arr [])) := by
  intro v w₀ rest stack hw₀ hv _
  cases hv
  have hsplit : w₀ ++ (91 :: w ++ [93]) ++ rest = w₀ ++ 91 :: (w ++ 93 :: rest) := by simp
  have hend : scan (w ++ 93 :: rest) = (.endArray, rest) := by
    simpa using scan_of_lexeme (r := rest) hw .endArray (by decide)
      (ends_of_head (by decide) (by decide) [] rest)
  rw [hsplit, next_punctuation stack hw₀ .beginArray (by decide) (by decide) (by decide)]
  refine .head ?_
  rw [step, onValue, hend]
  exact .refl F _

theorem reached_arr {t : Bytes} {xs : List Tree} (h : Reached F t (.items xs)) :
    Reached F (91 :: t ++ [93]) (.value (.arr xs)) := by
  intro v w rest stack hw hv _
  obtain ⟨vs, hvs, rfl⟩ := Option.map_eq_some_iff.mp hv
  have hitems := h [] vs rest stack hvs
  have hsplit : w ++ (91 :: t ++ [93]) ++ rest = w ++ 91 :: (t ++ 93 :: rest) := by simp
  rw [hsplit, next_punctuation stack hw .beginArray (by decide) (by decide) (by decide)]
  refine .head ?_
  rw [step, onValue_beginArray stack (ne_endArray_of_reaches hitems)]
  exact hitems

theorem reached_emptyObj {w : Bytes} (hw : Blank w) :
    Reached F (123 :: w ++ [125]) (.value (.obj [])) := by
  intro v w₀ rest stack hw₀ hv _
  cases hv
  have hsplit : w₀ ++ (123 :: w ++ [125]) ++ rest = w₀ ++ 123 :: (w ++ 125 :: rest) := by simp
  have hend : scan (w ++ 125 :: rest) = (.endObject, rest) := by
    simpa using scan_of_lexeme (r := rest) hw .endObject (by decide)
      (ends_of_head (by decide) (by decide) [] rest)
  rw [hsplit, next_punctuation stack hw₀ .beginObject (by decide) (by decide) (by decide)]
  refine .head ?_
  rw [step, onValue, hend]
  exact .refl F _

theorem reached_obj {t : Bytes} {ms : List (Bytes × Tree)} (h : Reached F t (.members ms)) :
    Reached F (123 :: t ++ [125]) (.value (.obj ms)) := by
  intro v w rest stack hw hv _
  obtain ⟨members, hmembers, rfl⟩ := Option.map_eq_some_iff.mp hv
  obtain ⟨key, rest', hkey, hreach⟩ := h [] members rest stack hmembers
  have hsplit : w ++ (123 :: t ++ [125]) ++ rest = w ++ 123 :: (t ++ 125 :: rest) := by simp
  rw [hsplit, next_punctuation stack hw .beginObject (by decide) (by decide) (by decide)]
  refine .head ?_
  rw [step, onValue, hkey]
  exact hreach

theorem reached_item {w t w' : Bytes} {x : Tree} (hw : Blank w) (h : Reached F t (.value x))
    (hw' : Blank w') : Reached F (w ++ t ++ w') (.items [x]) := by
  intro items vs rest stack hbuild
  obtain ⟨v, hv, hvs⟩ := Option.bind_eq_some_iff.mp hbuild
  cases hvs
  have hvalue := h v w (w' ++ 93 :: rest) (.array items :: stack) hw hv
    (ends_blank hw' (.inr (.inl rfl)) _ _)
  rw [List.append_assoc (w ++ t)]
  refine hvalue.trans (.head ?_)
  rw [(step_array v items stack hw').1]
  exact .refl F _

theorem reached_items {w t w' ts : Bytes} {x : Tree} {xs : List Tree} (hw : Blank w)
    (h : Reached F t (.value x)) (hw' : Blank w') (hs : Reached F ts (.items xs)) :
    Reached F (w ++ t ++ w' ++ 44 :: ts) (.items (x :: xs)) := by
  intro items vs rest stack hbuild
  obtain ⟨v, hv, hvs⟩ := Option.bind_eq_some_iff.mp hbuild
  obtain ⟨vs, hxs, rfl⟩ := Option.map_eq_some_iff.mp hvs
  have hvalue := h v w (w' ++ 44 :: (ts ++ 93 :: rest)) (.array items :: stack) hw hv
    (ends_blank hw' (.inl rfl) _ _)
  have hsplit : w ++ t ++ w' ++ 44 :: ts ++ 93 :: rest =
      w ++ t ++ (w' ++ 44 :: (ts ++ 93 :: rest)) := by simp
  rw [hsplit]
  refine hvalue.trans (.head ?_)
  rw [(step_array v items stack hw').2]
  simpa using hs (items ++ [v]) vs rest stack hxs

theorem reached_member {w₁ q w₂ w₃ t w₄ k : Bytes} {x : Tree} (hw₁ : Blank w₁)
    (hq : Quoted q k) (hutf : Utf8.valid q = true) (hw₂ : Blank w₂) (hw₃ : Blank w₃)
    (h : Reached F t (.value x)) (hw₄ : Blank w₄) :
    Reached F (w₁ ++ q ++ w₂ ++ 58 :: (w₃ ++ t ++ w₄)) (.members [(k, x)]) := by
  intro members members' rest stack hbuild
  obtain ⟨v, hv, hmembers⟩ := Option.bind_eq_some_iff.mp hbuild
  cases hmembers
  have hvalue := h v w₃ (w₄ ++ 125 :: rest) (.object members k :: stack) hw₃ hv
    (ends_blank hw₄ (.inr (.inr rfl)) _ _)
  refine ⟨k, w₂ ++ 58 :: (w₃ ++ t ++ (w₄ ++ 125 :: rest)), ?_, ?_⟩
  · simpa using scan_key hw₁ hq hutf (w₂ ++ 58 :: (w₃ ++ t ++ (w₄ ++ 125 :: rest)))
  · rw [separator_of_colon members k stack hw₂]
    refine hvalue.trans (.head ?_)
    rw [(step_object v members k stack hw₄).1]
    exact .refl F _

theorem reached_members {w₁ q w₂ w₃ t w₄ k ts : Bytes} {x : Tree} {ms : List (Bytes × Tree)}
    (hw₁ : Blank w₁) (hq : Quoted q k) (hutf : Utf8.valid q = true) (hw₂ : Blank w₂)
    (hw₃ : Blank w₃) (h : Reached F t (.value x)) (hw₄ : Blank w₄)
    (hs : Reached F ts (.members ms)) :
    Reached F (w₁ ++ q ++ w₂ ++ 58 :: (w₃ ++ t ++ w₄) ++ 44 :: ts) (.members ((k, x) :: ms)) := by
  intro members members' rest stack hbuild
  obtain ⟨v, hv, hmembers⟩ := Option.bind_eq_some_iff.mp hbuild
  obtain ⟨key, rest', hkey, hrest⟩ := hs _ members' rest stack hmembers
  have hvalue := h v w₃ (w₄ ++ 44 :: (ts ++ 125 :: rest)) (.object members k :: stack) hw₃ hv
    (ends_blank hw₄ (.inl rfl) _ _)
  refine ⟨k, w₂ ++ 58 :: (w₃ ++ t ++ (w₄ ++ 44 :: (ts ++ 125 :: rest))), ?_, ?_⟩
  · simpa using scan_key hw₁ hq hutf (w₂ ++ 58 :: (w₃ ++ t ++ (w₄ ++ 44 :: (ts ++ 125 :: rest))))
  · rw [separator_of_colon members k stack hw₂]
    refine hvalue.trans (.head ?_)
    rw [(step_object v members k stack hw₄).2 key rest' hkey]
    exact hrest

/-- Within the brackets of its value every part is parsed to its end. -/
theorem reached_of_denotes {t : Bytes} {p : Part} (h : Denotes t p) (hutf : Utf8.valid t = true) :
    Reached F t p := by
  induction h with
  | null =>
    intro v w rest stack hw hv hends
    cases hv
    exact reaches_lexeme stack hw .literalNull (by decide) hends rfl
  | bool b =>
    intro v w rest stack hw hv hends
    cases hv
    cases b with
    | false => exact reaches_lexeme stack hw .literalFalse (by decide) hends rfl
    | true => exact reaches_lexeme stack hw .literalTrue (by decide) hends rfl
  | number number =>
    intro v w rest stack hw hv hends
    refine reaches_lexeme stack hw (.number number) hutf hends ?_
    rw [build] at hv
    rw [onValue_number, hv]
    rfl
  | str quoted =>
    intro v w rest stack hw hv hends
    cases hv
    exact reaches_lexeme stack hw (.string quoted) hutf hends rfl
  | emptyArr blank => exact reached_emptyArr blank
  | arr _ ih => exact reached_arr (ih (valid_inside (by decide) (by decide) hutf))
  | emptyObj blank => exact reached_emptyObj blank
  | obj _ ih => exact reached_obj (ih (valid_inside (by decide) (by decide) hutf))
  | item before _ after ih => exact reached_item before (ih (valid_between before after hutf)) after
  | items before _ after _ ih ihs =>
    obtain ⟨hx, hxs⟩ := Utf8.valid_split (by decide) hutf
    exact reached_items before (ih (valid_between before after hx)) after (ihs hxs)
  | member before key colon gap _ after ih =>
    obtain ⟨hkey, hx⟩ := Utf8.valid_split (by decide) hutf
    exact reached_member before key (valid_between before colon hkey) colon gap
      (ih (valid_between gap after hx)) after
  | members before key colon gap _ after _ ih ihs =>
    obtain ⟨hone, hms⟩ := Utf8.valid_split (by decide) hutf
    obtain ⟨hkey, hx⟩ := Utf8.valid_split (by decide) hone
    exact reached_members before key (valid_between before colon hkey) colon gap
      (ih (valid_between gap after hx)) after (ihs hms)

end Step

theorem head_of_denotes {t : Bytes} {x : Tree} (h : Denotes t (.value x)) :
    ∃ c u, t = c :: u ∧ c ≤ 0x7F := by
  cases h with
  | null => exact ⟨_, _, rfl, by decide⟩
  | bool b => cases b <;> exact ⟨_, _, rfl, by decide⟩
  | number number =>
    obtain ⟨c, u, rfl, -⟩ := Number.cons number
    exact ⟨c, u, rfl, ascii_of_number number c List.mem_cons_self⟩
  | str quoted =>
    cases quoted
    exact ⟨_, _, rfl, by decide⟩
  | _ => exact ⟨_, _, rfl, by decide⟩

/-- The parser reads a value that stands at the beginning of the input, whatever follows. -/
theorem parse_of_denotes {F : Floats} {m w t r : Bytes} {x : Tree} {v : Json} (hm : Mark m)
    (hw : Blank w) (hutf : Utf8.valid t = true) (hx : Denotes t (.value x))
    (hv : build F x = some v) (hends : Ends t r) :
    parse F (m ++ w ++ t ++ r) = some (v, r) := by
  have hreach := reached_of_denotes (F := F) hx hutf v w r [] hw hv hends
  have hstart : start (m ++ w ++ t ++ r) = next (w ++ t ++ r) [] := by
    obtain ⟨c, u, rfl, hc⟩ := head_of_denotes hx
    have hhead : ∀ d ∈ (w ++ (c :: u ++ r)).head?, d ≤ 0x7F := by
      intro d hd
      cases w with
      | nil => exact Option.some.inj hd ▸ hc
      | cons e w =>
        exact Option.some.inj hd ▸ ascii_of_blank hw e List.mem_cons_self
    have hskip := skipBom_mark hm hhead
    simp only [List.append_assoc] at hskip ⊢
    rw [start, scanFirst, hskip, next]
  have hdone : Reaches F (start (m ++ w ++ t ++ r)) (.done v r) := by
    rw [hstart]
    exact hreach.trans (.head (.refl F _))
  rw [parse, hdone.final trivial (weight_start _)]

/-- The parser takes exactly the texts of the grammar, and reads one as far as it goes. -/
theorem parse_iff {F : Floats} {b rest : Bytes} {v : Json} :
    parse F b = some (v, rest) ↔ ∃ m w t x, b = m ++ w ++ t ++ rest ∧ Mark m ∧ Blank w ∧
      Utf8.valid t = true ∧ Denotes t (.value x) ∧ build F x = some v ∧ Ends t rest := by
  refine ⟨denotes_of_parse, ?_⟩
  rintro ⟨m, w, t, x, rfl, hm, hw, hutf, hx, hv, hends⟩
  exact parse_of_denotes hm hw hutf hx hv hends

end JsonParser

end CctvServer
