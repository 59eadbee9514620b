import CctvServer.JsonCompleteness
import CctvServer.JsonObjects
import CctvServer.Reference

namespace CctvServer

namespace JsonParser

open JsonText JsonLexer Json

variable {F : Floats}

section Canonical

variable (F)

mutual

/-- The values that the library can hold: integers of 64 bits, numbers that `strtod` gives,
and members in the order of their keys. -/
def Canonical : Json → Prop
  | .int n => -2 ^ 63 ≤ n ∧ n < 2 ^ 64
  | .float x => F.read x.1 = some x
  | .arr xs => CanonicalItems xs
  | .obj members => Ordered members ∧ CanonicalMembers members
  | _ => True

def CanonicalItems : List Json → Prop
  | [] => True
  | x :: xs => Canonical x ∧ CanonicalItems xs

def CanonicalMembers : List (Bytes × Json) → Prop
  | [] => True
  | (_, v) :: rest => Canonical v ∧ CanonicalMembers rest

end

end Canonical

theorem canonicalMembers_iff {members : List (Bytes × Json)} :
    CanonicalMembers F members ↔ ∀ p ∈ members, Canonical F p.2 := by
  induction members with
  | nil => simp [CanonicalMembers]
  | cons p rest ih => simp [CanonicalMembers, ih]

theorem digitsValue_decimal (n : ℕ) : digitsValue (decimal n) = n := by
  induction n using Nat.strong_induction_on with
  | _ n ih =>
    by_cases hn : n < 10
    · have hall : ∀ n < 10, UInt8.toNat (UInt8.ofNat n.digitChar.toNat) - 48 = n := by decide
      rw [decimal, Nat.toDigits_of_lt_base hn]
      simpa [digitsValue] using hall n hn
    · have hdigit : ∀ n < 10, UInt8.toNat (UInt8.ofNat n.digitChar.toNat) - 48 = n := by decide
      have hsplit : decimal n = decimal (n / 10) ++ [UInt8.ofNat (n % 10).digitChar.toNat] := by
        rw [decimal, Nat.toDigits_of_base_le (by decide) (Nat.le_of_not_lt hn), List.map_append]
        rfl
      have hrest := ih (n / 10) (by omega)
      rw [digitsValue] at hrest
      rw [hsplit, digitsValue, List.foldl_append, hrest]
      simp only [List.foldl_cons, List.foldl_nil, hdigit _ (Nat.mod_lt n (by decide))]
      omega

theorem numberType_digits {t : Bytes} (h : ∀ c ∈ t, isDigit c = true) :
    numberType t = .unsigned ∧ numberType (45 :: t) = .integer := by
  have hany : (t.any fun c => c == 46 || isExponent c) = false := by
    rw [List.any_eq_false]
    intro c hc
    have hplain := plain_of_isDigit (h c hc)
    simp [hplain]
  have hhead : t.head? ≠ some 45 := by
    cases t with
    | nil => simp
    | cons c t => simpa using (plain_of_isDigit (h c List.mem_cons_self)).1
  have hminus : isExponent 45 = false := by decide
  constructor
  · simp [numberType, hany, hhead]
  · simp [numberType, hany, hminus]

theorem numberValue_decimalInt {n : ℤ} (h : -2 ^ 63 ≤ n ∧ n < 2 ^ 64) :
    numberValue F (numberToken (numberType (decimalInt n)) (decimalInt n)) = some (.int n) := by
  have hdigits : ∀ m, ∀ c ∈ decimal m, isDigit c = true := fun m c => isDigit_of_mem_decimal
  cases n with
  | ofNat m =>
    have hm : m < 2 ^ 64 := Int.ofNat_lt.mp h.2
    rw [decimalInt, (numberType_digits (hdigits m)).1, numberToken, digitsValue_decimal, if_pos hm]
    rfl
  | negSucc m =>
    have hm : m + 1 ≤ 2 ^ 63 := by omega
    rw [decimalInt, (numberType_digits (hdigits (m + 1))).2, numberToken, List.tail_cons,
      digitsValue_decimal, if_pos hm]
    rfl

theorem numberToken_float {x : FloatText} {t : Bytes} (h : F.read t = some x) :
    numberToken (numberType x.1) x.1 = .valueFloat x.1 := by
  obtain ⟨c, hc, hfloat⟩ := F.float t x h
  have hany : (x.1.any fun c => c == 46 || isExponent c) = true := by
    rw [List.any_eq_true]
    exact ⟨c, hc, by simpa using hfloat⟩
  rw [numberType, if_pos hany, numberToken]

theorem setKey_last {key : Bytes} {v : Json} {members : List (Bytes × Json)}
    (h : ∀ p ∈ members, p.1 < key) : setKey key v members = members ++ [(key, v)] := by
  induction members with
  | nil => rfl
  | cons p rest ih =>
    obtain ⟨hp, hrest⟩ := List.forall_mem_cons.mp h
    have hlt : ¬key < p.1 := fun hlt => List.lt_irrefl _ (List.lt_trans hlt hp)
    obtain ⟨k, w⟩ := p
    rw [setKey, if_neg hlt, if_neg (ne_of_key_lt hp).symm, ih hrest, List.cons_append]

mutual

theorem build_tree : (j : Json) → Canonical F j → build F (tree j) = some j
  | .null, _ => rfl
  | .bool b, _ => rfl
  | .int n, h => numberValue_decimalInt h
  | .float x, h => by
    have hread : F.read x.1 = some x := h
    rw [tree, build, numberToken_float hread, numberValue, hread]
    rfl
  | .str s, _ => rfl
  | .arr xs, h => by
    rw [tree, build, build_treeItems xs h]
    rfl
  | .obj members, h => by
    rw [tree, build, build_treeMembers [] members h.1 h.2]
    rfl

theorem build_treeItems : (xs : List Json) → CanonicalItems F xs →
    buildItems F (treeItems xs) = some xs
  | [], _ => rfl
  | x :: xs, h => by
    rw [treeItems, buildItems, build_tree x h.1, build_treeItems xs h.2]
    rfl

theorem build_treeMembers : (before members : List (Bytes × Json)) → Ordered (before ++ members) →
    CanonicalMembers F members →
    buildMembers F before (treeMembers members) = some (before ++ members)
  | before, [], _, _ => by simp [treeMembers, buildMembers]
  | before, (k, v) :: rest, ho, h => by
    have hbefore : ∀ p ∈ before, p.1 < k := fun p hp =>
      (List.pairwise_append.mp ho).2.2 p hp (k, v) List.mem_cons_self
    have hsplit : before ++ (k, v) :: rest = before ++ [(k, v)] ++ rest := by simp
    rw [treeMembers, buildMembers, build_tree v h.1, Option.bind_some, setKey_last hbefore, hsplit]
    exact build_treeMembers (before ++ [(k, v)]) rest (hsplit ▸ ho) h.2

end

mutual

theorem printed_of_canonical : (j : Json) → Canonical F j → Printed j
  | .null, _ => trivial
  | .bool _, _ => trivial
  | .int _, _ => trivial
  | .float x, h => F.number _ x h
  | .str _, _ => trivial
  | .arr xs, h => itemsPrinted_of_canonical xs h
  | .obj members, h => membersPrinted_of_canonical members h.2

theorem itemsPrinted_of_canonical : (xs : List Json) → CanonicalItems F xs → ItemsPrinted xs
  | [], _ => trivial
  | x :: xs, h => ⟨printed_of_canonical x h.1, itemsPrinted_of_canonical xs h.2⟩

theorem membersPrinted_of_canonical : (members : List (Bytes × Json)) →
    CanonicalMembers F members → MembersPrinted members
  | [], _ => trivial
  | (_, v) :: rest, h => ⟨printed_of_canonical v h.1, membersPrinted_of_canonical rest h.2⟩

end

/-- What is printed of a value is read back as the value, up to where it ends. -/
theorem parse_dump {j : Json} {t : Bytes} (hj : Canonical F j) (h : j.dump = some t) {rest : Bytes}
    (hends : Ends t rest) : parse F (t ++ rest) = some (j, rest) :=
  parse_of_denotes (m := []) (w := []) (.inl rfl) blank_nil (dump_utf8 j h)
    (dump_denotes j (printed_of_canonical j hj) h) (build_tree j hj) hends

section Shown

variable (F)

mutual

/-- The values that the server prints: a number may also be one that is printed as null. -/
def Held : Json → Prop
  | .int n => -2 ^ 63 ≤ n ∧ n < 2 ^ 64
  | .float x => F.read x.1 = some x ∨ x.1 = ascii "null"
  | .arr xs => HeldItems xs
  | .obj members => Ordered members ∧ HeldMembers members
  | _ => True

def HeldItems : List Json → Prop
  | [] => True
  | x :: xs => Held x ∧ HeldItems xs

def HeldMembers : List (Bytes × Json) → Prop
  | [] => True
  | (_, v) :: rest => Held v ∧ HeldMembers rest

end

end Shown

mutual

/-- The value that the printed text shows. -/
def shown : Json → Json
  | .float x => if x.1 = ascii "null" then .null else .float x
  | .arr xs => .arr (shownItems xs)
  | .obj members => .obj (shownMembers members)
  | j => j

def shownItems : List Json → List Json
  | [] => []
  | x :: xs => shown x :: shownItems xs

def shownMembers : List (Bytes × Json) → List (Bytes × Json)
  | [] => []
  | (k, v) :: rest => (k, shown v) :: shownMembers rest

end

theorem heldItems_iff {xs : List Json} : HeldItems F xs ↔ ∀ x ∈ xs, Held F x := by
  induction xs with
  | nil => simp [HeldItems]
  | cons x xs ih => simp [HeldItems, ih]

theorem shownItems_isEmpty (xs : List Json) : (shownItems xs).isEmpty = xs.isEmpty := by
  cases xs <;> rfl

theorem shownMembers_isEmpty (members : List (Bytes × Json)) :
    (shownMembers members).isEmpty = members.isEmpty := by
  cases members <;> rfl

theorem shownMembers_keys (members : List (Bytes × Json)) :
    (shownMembers members).map Prod.fst = members.map Prod.fst := by
  induction members with
  | nil => rfl
  | cons p rest ih => simp [shownMembers, ih]

mutual

theorem dump_shown : (j : Json) → (shown j).dump = j.dump
  | .null => rfl
  | .bool b => rfl
  | .int n => rfl
  | .float x => by
    rw [shown]
    split_ifs with hx
    · rw [dump, dump, hx]
    · rfl
  | .str s => rfl
  | .arr xs => by rw [shown, dump, dump, dumpItems_shown xs]
  | .obj members => by rw [shown, dump, dump, dumpMembers_shown members]

theorem dumpItems_shown : (xs : List Json) → dumpItems (shownItems xs) = dumpItems xs
  | [] => rfl
  | x :: xs => by
    rw [shownItems, dumpItems, dumpItems, dump_shown x, dumpItems_shown xs, shownItems_isEmpty]

theorem dumpMembers_shown : (members : List (Bytes × Json)) →
    dumpMembers (shownMembers members) = dumpMembers members
  | [] => rfl
  | (k, v) :: rest => by
    rw [shownMembers, dumpMembers, dumpMembers, dump_shown v, dumpMembers_shown rest,
      shownMembers_isEmpty]

end

mutual

theorem canonical_shown : (j : Json) → Held F j → Canonical F (shown j)
  | .null, _ => trivial
  | .bool _, _ => trivial
  | .int _, h => h
  | .float x, h => by
    rw [shown]
    split_ifs with hx
    · trivial
    · exact h.resolve_right hx
  | .str _, _ => trivial
  | .arr xs, h => canonicalItems_shown xs h
  | .obj members, h => by
    have hkeys := List.pairwise_map.mpr h.1
    rw [← shownMembers_keys] at hkeys
    exact ⟨List.pairwise_map.mp hkeys, canonicalMembers_shown members h.2⟩

theorem canonicalItems_shown : (xs : List Json) → HeldItems F xs →
    CanonicalItems F (shownItems xs)
  | [], _ => trivial
  | x :: xs, h => ⟨canonical_shown x h.1, canonicalItems_shown xs h.2⟩

theorem canonicalMembers_shown : (members : List (Bytes × Json)) → HeldMembers F members →
    CanonicalMembers F (shownMembers members)
  | [], _ => trivial
  | (_, v) :: rest, h => ⟨canonical_shown v h.1, canonicalMembers_shown rest h.2⟩

end

theorem canonical_of_numberValue {t : Bytes} {type : NumberType} {v : Json}
    (h : numberValue F (numberToken type t) = some v) : Canonical F v ∧ v.Utf8Valid := by
  have hfloat : ∀ t, (F.read t).map Json.float = some v → Canonical F v ∧ v.Utf8Valid := by
    intro t h
    obtain ⟨x, hx, rfl⟩ := Option.map_eq_some_iff.mp h
    exact ⟨F.again t x hx, trivial⟩
  cases type with
  | unsigned =>
    rw [numberToken] at h
    split_ifs at h with hlt
    · cases h
      exact ⟨⟨by omega, by exact_mod_cast hlt⟩, trivial⟩
    · exact hfloat t h
  | integer =>
    rw [numberToken] at h
    split_ifs at h with hle
    · cases h
      exact ⟨⟨by omega, by omega⟩, trivial⟩
    · exact hfloat t h
  | float => exact hfloat t h

/-- What the text of a part leads to can be printed and read again. -/
def Rereadable (F : Floats) : Part → Prop
  | .value x => ∀ v, build F x = some v → Canonical F v ∧ v.Utf8Valid
  | .items xs => ∀ vs, buildItems F xs = some vs → CanonicalItems F vs ∧ ItemsValid vs
  | .members ms => ∀ members members', Ordered members → CanonicalMembers F members →
      MembersValid members → buildMembers F members ms = some members' →
      Ordered members' ∧ CanonicalMembers F members' ∧ MembersValid members'

theorem valid_of_quoted {q s : Bytes} (h : Quoted q s) (hutf : Utf8.valid q = true) :
    Utf8.valid s = true := by
  cases h with
  | mk body =>
    rename_i t
    have hscan := scanStringLoop_of_body body (valid_inside (by decide) (by decide) hutf)
      (Nat.lt_succ_self _) [] []
    obtain ⟨-, u, -, hs, -, -, hu⟩ := quoted_of_scanStringLoop hscan
    rw [List.nil_append, List.nil_append] at hs
    exact hs ▸ hu

theorem canonicalMembers_setKey {key : Bytes} {v : Json} {members : List (Bytes × Json)}
    (hv : Canonical F v) (h : CanonicalMembers F members) :
    CanonicalMembers F (setKey key v members) := by
  rw [canonicalMembers_iff] at h ⊢
  intro p hp
  rcases mem_setKey hp with rfl | hp
  · exact hv
  · exact h p hp

theorem rereadable_member {q k : Bytes} {x : Tree} {members : List (Bytes × Json)} {v : Json}
    (hq : Quoted q k) (hutf : Utf8.valid q = true) (hx : Rereadable F (.value x))
    (hv : build F x = some v) (ho : Ordered members) (hc : CanonicalMembers F members)
    (hu : MembersValid members) : Ordered (setKey k v members) ∧
      CanonicalMembers F (setKey k v members) ∧ MembersValid (setKey k v members) := by
  obtain ⟨hcv, huv⟩ := hx v hv
  exact ⟨ho.setKey, canonicalMembers_setKey hcv hc,
    utf8Valid_setKey (valid_of_quoted hq hutf) huv hu⟩

theorem rereadable_of_denotes {t : Bytes} {p : Part} (h : Denotes t p)
    (hutf : Utf8.valid t = true) : Rereadable F p := by
  induction h with
  | null =>
    intro v hv
    cases hv
    exact ⟨trivial, trivial⟩
  | bool b =>
    intro v hv
    cases hv
    exact ⟨trivial, trivial⟩
  | number number => exact fun v hv => canonical_of_numberValue hv
  | str quoted =>
    intro v hv
    cases hv
    exact ⟨trivial, valid_of_quoted quoted hutf⟩
  | emptyArr blank =>
    intro v hv
    cases hv
    exact ⟨trivial, trivial⟩
  | arr _ ih =>
    intro v hv
    obtain ⟨vs, hvs, rfl⟩ := Option.map_eq_some_iff.mp hv
    exact ih (valid_inside (by decide) (by decide) hutf) vs hvs
  | emptyObj blank =>
    intro v hv
    cases hv
    exact ⟨⟨List.Pairwise.nil, trivial⟩, trivial⟩
  | obj _ ih =>
    intro v hv
    obtain ⟨members, hmembers, rfl⟩ := Option.map_eq_some_iff.mp hv
    obtain ⟨ho, hc, hu⟩ := ih (valid_inside (by decide) (by decide) hutf) [] members .nil trivial
      trivial hmembers
    exact ⟨⟨ho, hc⟩, hu⟩
  | item before _ after ih =>
    intro vs hvs
    obtain ⟨v, hv, hnil⟩ := Option.bind_eq_some_iff.mp hvs
    cases hnil
    obtain ⟨hc, hu⟩ := ih (valid_between before after hutf) v hv
    exact ⟨⟨hc, trivial⟩, hu, trivial⟩
  | items before _ after _ ih ihs =>
    intro vs hvs
    obtain ⟨hx, hxs⟩ := Utf8.valid_split (by decide) hutf
    obtain ⟨v, hv, hrest⟩ := Option.bind_eq_some_iff.mp hvs
    obtain ⟨vs', hvs', rfl⟩ := Option.map_eq_some_iff.mp hrest
    obtain ⟨hc, hu⟩ := ih (valid_between before after hx) v hv
    obtain ⟨hcs, hus⟩ := ihs hxs vs' hvs'
    exact ⟨⟨hc, hcs⟩, hu, hus⟩
  | member before key colon gap _ after ih =>
    intro members members' ho hc hu hbuild
    obtain ⟨hkey, hx⟩ := Utf8.valid_split (by decide) hutf
    obtain ⟨v, hv, hset⟩ := Option.bind_eq_some_iff.mp hbuild
    cases hset
    exact rereadable_member key (valid_between before colon hkey)
      (ih (valid_between gap after hx)) hv ho hc hu
  | members before key colon gap _ after _ ih ihs =>
    intro members members' ho hc hu hbuild
    obtain ⟨hone, hms⟩ := Utf8.valid_split (by decide) hutf
    obtain ⟨hkey, hx⟩ := Utf8.valid_split (by decide) hone
    obtain ⟨v, hv, hset⟩ := Option.bind_eq_some_iff.mp hbuild
    obtain ⟨ho', hc', hu'⟩ := rereadable_member key (valid_between before colon hkey)
      (ih (valid_between gap after hx)) hv ho hc hu
    exact ihs hms _ members' ho' hc' hu' hset

/-- A value that the parser returns can be printed, and what is printed is read as the
same value. -/
theorem canonical_of_parse {b rest : Bytes} {v : Json} (h : parse F b = some (v, rest)) :
    Canonical F v ∧ v.Utf8Valid := by
  obtain ⟨m, w, t, x, -, -, -, hutf, hx, hv, -⟩ := denotes_of_parse h
  exact rereadable_of_denotes hx hutf v hv

theorem ends_nil (t : Bytes) : Ends t [] := nofun

/-- Whatever text a value has been read from, its printed text stands for it. -/
theorem parse_dump_of_parse {b rest : Bytes} {v : Json} (h : parse F b = some (v, rest)) :
    ∃ t, v.dump = some t ∧ parse F t = some (v, []) := by
  obtain ⟨hc, hu⟩ := canonical_of_parse h
  obtain ⟨t, ht⟩ := Option.isSome_iff_exists.mp ((dump_isSome_iff v).mpr hu)
  have hparse := parse_dump hc ht (ends_nil t)
  rw [List.append_nil] at hparse
  exact ⟨t, ht, hparse⟩

end JsonParser

namespace Reference

open JsonText JsonLexer JsonParser

def wholePart : Bytes → ℤ
  | 45 :: t => -digitsValue (t.take (t.length - 2))
  | t => digitsValue (t.take (t.length - 2))

theorem wholePart_decimalInt (v : ℤ) : wholePart (decimalInt v ++ ascii ".0") = v := by
  have hlen : ∀ n, ((decimal n ++ ascii ".0").take ((decimal n ++ ascii ".0").length - 2)) =
      decimal n := by
    intro n
    rw [List.length_append, show (ascii ".0").length = 2 from rfl, Nat.add_sub_cancel]
    exact List.take_left
  cases v with
  | negSucc n =>
    change -(digitsValue ((decimal (n + 1) ++ ascii ".0").take
      ((decimal (n + 1) ++ ascii ".0").length - 2)) : ℤ) = _
    rw [hlen, digitsValue_decimal]
    rfl
  | ofNat n =>
    have hhead : ∀ t, decimal n ++ ascii ".0" ≠ 45 :: t := by
      intro t ht
      cases hd : decimal n with
      | nil => simp [decimal] at hd
      | cons c ds =>
        rw [hd] at ht
        have hdigit : isDigit c = true := isDigit_of_mem_decimal (hd ▸ List.mem_cons_self)
        exact (plain_of_isDigit hdigit).1 (List.cons.inj ht).1
    change wholePart (decimal n ++ ascii ".0") = _
    unfold wholePart
    split
    · rename_i t ht
      exact absurd ht (hhead t)
    · rw [hlen, digitsValue_decimal]
      rfl

theorem number_whole (v : ℤ) : Number (decimalInt v ++ ascii ".0") := by
  have hdigits : ∀ n, Digits (decimal n) := fun n =>
    ⟨by simp [decimal], fun _ => isDigit_of_mem_decimal⟩
  have hlead : ∀ n, decimal n = [48] ∨ (decimal n).head? ≠ some 48 := by
    intro n
    by_cases hn : 0 < n
    · exact .inr (Json.head_decimal hn)
    · obtain rfl : n = 0 := by omega
      exact .inl rfl
  have hfrac : ∃ ds, Digits ds ∧ ascii ".0" = 46 :: ds :=
    ⟨[48], ⟨by simp, List.forall_mem_singleton.mpr (by decide)⟩, rfl⟩
  cases v with
  | ofNat n =>
    exact ⟨[], decimal n, ascii ".0", [], by simp [decimalInt], .inl rfl, ⟨hdigits n, hlead n⟩,
      .inr hfrac, .inl rfl⟩
  | negSucc n =>
    exact ⟨[45], decimal (n + 1), ascii ".0", [], by simp [decimalInt], .inr rfl,
      ⟨hdigits _, hlead _⟩, .inr hfrac, .inl rfl⟩

theorem printable_whole (v : ℤ) : ∀ c ∈ decimalInt v ++ ascii ".0", 33 ≤ c ∧ c ≤ 126 :=
  fun c hc => (List.mem_append.mp hc).elim (printable_decimalInt v c) (printable_zero c)

def whole (v : ℤ) : FloatText := ⟨decimalInt v ++ ascii ".0", printable_whole v⟩

/-- Numbers with a zero behind the point; others are taken to be infinite. -/
def floats : Floats where
  read t := if t = decimalInt (wholePart t) ++ ascii ".0" then some (whole (wholePart t)) else none
  number t x h := by
    split at h
    · cases h
      exact number_whole _
    · cases h
  float t x h := by
    split at h
    · cases h
      exact ⟨46, List.mem_append_right _ (by decide), .inl rfl⟩
    · cases h
  again t x h := by
    split at h
    · cases h
      rw [whole, wholePart_decimalInt, if_pos rfl, whole]
    · cases h

theorem read_whole (v : ℤ) : floats.read (decimalInt v ++ ascii ".0") = some (whole v) := by
  change (if _ then _ else _) = _
  rw [wholePart_decimalInt, if_pos rfl]

end Reference

namespace JsonParser

def byHand : Bytes := ascii "\x7b\"b\" :[1,-0,null] ,\n\"a\":\"\\u0062\",\"b\": true\x7d tail"

set_option maxRecDepth 8192 in
theorem byHand_parse_dump : ∃ t,
    (Json.obj [(ascii "a", .str (ascii "b")), (ascii "b", .bool true)]).dump = some t ∧
      parse Reference.floats t =
        some (.obj [(ascii "a", .str (ascii "b")), (ascii "b", .bool true)], []) :=
  parse_dump_of_parse (show parse Reference.floats byHand = some (_, ascii " tail") by rfl)

end JsonParser

end CctvServer
