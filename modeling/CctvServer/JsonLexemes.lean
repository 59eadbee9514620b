import CctvServer.JsonLexer

namespace CctvServer

namespace Utf8

/-- The bounds of the bytes that the decoder still waits for. -/
def owed (state : ℕ) : List (UInt8 × UInt8) :=
  [[], [], [(0x80, 0xBF)], [(0x80, 0xBF), (0x80, 0xBF)], [(0xA0, 0xBF), (0x80, 0xBF)],
    [(0x80, 0x9F), (0x80, 0xBF)], [(0x90, 0xBF), (0x80, 0xBF), (0x80, 0xBF)],
    [(0x80, 0xBF), (0x80, 0xBF), (0x80, 0xBF)],
    [(0x80, 0x8F), (0x80, 0xBF), (0x80, 0xBF)]].getD state []

theorem eq_zero_of_owed : ∀ state < 9, state ≠ 1 → owed state = [] → state = 0 := by decide

def Within (state : ℕ) (c : UInt8) : Prop :=
  ((owed state).headD (0, 0)).1 ≤ c ∧ c ≤ ((owed state).headD (0, 0)).2

instance (state : ℕ) (c : UInt8) : Decidable (Within state c) := inferInstanceAs (Decidable (_ ∧ _))

theorem getD_of_forall {α : Type} {p : α → Prop} {l : List α} {d : α} (hl : ∀ x ∈ l, p x)
    (hd : p d) (k : ℕ) : p (l.getD k d) := by
  rw [List.getD_eq_getElem?_getD]
  cases hx : l[k]? with
  | none => exact hd
  | some x => exact hl x (List.mem_of_getElem? hx)

theorem decode_lt (state : ℕ) (c : UInt8) : decode state c < 9 := by
  have hrows : ∀ row ∈ transitions, ∀ s ∈ row, s < 9 := by decide
  exact getD_of_forall (getD_of_forall hrows (List.forall_mem_nil _) state) (by decide) _

set_option synthInstance.maxSize 256 in
theorem decode_step : ∀ state < 9, owed state ≠ [] → ∀ n < 256,
    if Within state (UInt8.ofNat n) then decode state (UInt8.ofNat n) ≠ 1 ∧
      owed (decode state (UInt8.ofNat n)) = (owed state).tail
    else decode state (UInt8.ofNat n) = 1 := by decide +kernel

theorem decode_of_owed {state : ℕ} {low high : UInt8} {rs : List (UInt8 × UInt8)} (c : UInt8)
    (hs : state < 9) (ho : owed state = (low, high) :: rs) :
    (low ≤ c ∧ c ≤ high → decode state c ≠ 1 ∧ owed (decode state c) = rs) ∧
      (decode state c ≠ 1 → low ≤ c ∧ c ≤ high) := by
  have hstep := decode_step state hs (by simp [ho]) c.toNat c.toNat_lt
  simp only [Within, ho, UInt8.ofNat_toNat, List.headD_cons, List.tail_cons] at hstep
  split_ifs at hstep with hc
  · exact ⟨fun _ => hstep, fun _ => hc⟩
  · exact ⟨fun h => absurd h hc, fun h => absurd hstep h⟩

theorem accepts_of_within {state : ℕ} {u : Bytes} (hs : state < 9) (h1 : state ≠ 1)
    (h : List.Forall₂ (fun r c => r.1 ≤ c ∧ c ≤ r.2) (owed state) u) :
    acceptsFrom state u = true := by
  induction u generalizing state with
  | nil =>
    generalize ho : owed state = rs at h
    cases h
    rw [eq_zero_of_owed state hs h1 ho]
    rfl
  | cons c u ih =>
    generalize ho : owed state = rs at h
    cases h with
    | cons hc hu =>
      obtain ⟨hne, howed⟩ := (decode_of_owed c hs ho).1 hc
      simp [acceptsFrom, hne, ih (decode_lt state c) hne (howed ▸ hu)]

end Utf8

namespace JsonLexer

open JsonText

/-- The bounds behind a first byte are those of the decoder. -/
theorem ranges_decode : ∀ n < 256, 0x80 ≤ UInt8.ofNat n → ranges (UInt8.ofNat n) =
    if Utf8.decode 0 (UInt8.ofNat n) = 1 then none
    else some (Utf8.owed (Utf8.decode 0 (UInt8.ofNat n))) := by decide +kernel

theorem ranges_eq {c : UInt8} (hc : 0x80 ≤ c) : ranges c =
    if Utf8.decode 0 c = 1 then none else some (Utf8.owed (Utf8.decode 0 c)) := by
  simpa using ranges_decode c.toNat c.toNat_lt (by simpa using hc)

def High (u : Bytes) : Prop := ∀ c ∈ u, 0x80 ≤ c

theorem high_of_decode {state : ℕ} {c : UInt8} (hs : state ≠ 0) (h : Utf8.decode state c ≠ 1) :
    0x80 ≤ c := by
  by_contra hc
  have hlow : c ≤ 0x7F := by
    rw [UInt8.le_iff_toNat_le] at hc ⊢
    exact Nat.le_of_lt_succ (Nat.lt_of_not_le hc)
  exact h (Utf8.decode_ascii_inside hs hlow)

theorem accepts_of_nextByteInRange {state : ℕ} {s s' b rest : Bytes} (hs : state < 9)
    (h1 : state ≠ 1) (h : nextByteInRange s (Utf8.owed state) b = .add s' rest) :
    ∃ u, b = u ++ rest ∧ s' = s ++ u ∧ Utf8.acceptsFrom state u = true ∧ High u := by
  induction hrs : Utf8.owed state generalizing state s b with
  | nil =>
    rw [hrs, nextByteInRange] at h
    cases h
    rw [Utf8.eq_zero_of_owed state hs h1 hrs]
    exact ⟨[], rfl, (List.append_nil _).symm, rfl, List.forall_mem_nil _⟩
  | cons r rs ih =>
    obtain ⟨low, high⟩ := r
    rw [hrs] at h
    cases b with
    | nil => cases h
    | cons c b =>
      simp only [nextByteInRange] at h
      split_ifs at h with hc
      obtain ⟨hne, howed⟩ := (Utf8.decode_of_owed c hs hrs).1 hc
      obtain ⟨u, rfl, rfl, hu, hhigh⟩ := ih (Utf8.decode_lt state c) hne (howed ▸ h) howed
      have h0 : state ≠ 0 := by
        rintro rfl
        cases hrs
      refine ⟨c :: u, rfl, by simp, by simp [Utf8.acceptsFrom, hne, hu], ?_⟩
      exact List.forall_mem_cons.mpr ⟨high_of_decode h0 hne, hhigh⟩

theorem nextByteInRange_of_accepts {state : ℕ} {t : Bytes} (hs : state < 9) (h1 : state ≠ 1)
    (h : Utf8.acceptsFrom state t = true) : ∃ u t', t = u ++ t' ∧ Utf8.valid t' = true ∧ High u ∧
      ∀ s rest, nextByteInRange s (Utf8.owed state) (u ++ rest) = .add (s ++ u) rest := by
  induction hrs : Utf8.owed state generalizing state t with
  | nil =>
    rw [Utf8.eq_zero_of_owed state hs h1 hrs] at h
    exact ⟨[], t, rfl, h, List.forall_mem_nil _, fun s rest => by simp [nextByteInRange]⟩
  | cons r rs ih =>
    obtain ⟨low, high⟩ := r
    have h0 : state ≠ 0 := by
      rintro rfl
      cases hrs
    cases t with
    | nil => exact absurd (by simpa [Utf8.acceptsFrom] using h) h0
    | cons c t =>
      simp only [Utf8.acceptsFrom, Bool.and_eq_true, bne_iff_ne] at h
      have hc := (Utf8.decode_of_owed c hs hrs).2 h.1
      obtain ⟨hne, howed⟩ := (Utf8.decode_of_owed c hs hrs).1 hc
      obtain ⟨u, t', rfl, hvalid, hhigh, hnext⟩ := ih (Utf8.decode_lt state c) hne h.2 howed
      refine ⟨c :: u, t', rfl, hvalid, ?_, fun s rest => ?_⟩
      · exact List.forall_mem_cons.mpr ⟨high_of_decode h0 hne, hhigh⟩
      · simp [nextByteInRange, hc, hnext]

theorem hexDigit_eq_some {n m f : ℕ} {b rest : Bytes} (h : hexDigit (n, b) f = some (m, rest)) :
    ∃ c v, b = c :: rest ∧ hexValue c = some v ∧ m = n + v <<< f := by
  cases b with
  | nil => cases h
  | cons c b =>
    obtain ⟨v, hv, hx⟩ := Option.map_eq_some_iff.mp h
    cases hx
    exact ⟨c, v, rfl, hv, rfl⟩

theorem getCodepoint_iff {b rest : Bytes} {n : ℕ} :
    getCodepoint b = some (n, rest) ↔ ∃ h, b = h ++ rest ∧ Hex4 h n := by
  have hshift : ∀ i j k l : ℕ, 0 + i <<< 12 + j <<< 8 + k <<< 4 + l <<< 0 =
      ((16 * i + j) * 16 + k) * 16 + l := by
    intro i j k l
    simp only [Nat.shiftLeft_eq]
    omega
  constructor
  · intro h
    simp only [getCodepoint, List.foldlM_cons, List.foldlM_nil, bind, Option.bind_eq_some_iff,
      Prod.exists] at h
    obtain ⟨n₁, b₁, h₁, n₂, b₂, h₂, n₃, b₃, h₃, n₄, b₄, h₄, h₅⟩ := h
    obtain ⟨a, i, rfl, ha, rfl⟩ := hexDigit_eq_some h₁
    obtain ⟨b, j, rfl, hb, rfl⟩ := hexDigit_eq_some h₂
    obtain ⟨c, k, rfl, hc, rfl⟩ := hexDigit_eq_some h₃
    obtain ⟨d, l, rfl, hd, rfl⟩ := hexDigit_eq_some h₄
    cases h₅
    exact ⟨[a, b, c, d], rfl, hshift i j k l ▸ .mk ha hb hc hd⟩
  · rintro ⟨h, rfl, hex⟩
    cases hex with
    | mk ha hb hc hd =>
      simp [getCodepoint, hexDigit, ha, hb, hc, hd, ← hshift]

theorem hexValue_lt {c : UInt8} {v : ℕ} (h : hexValue c = some v) : v < 16 ∧ c ≤ 0x7F := by
  have hall : ∀ n < 256, ∀ v ∈ hexValue (UInt8.ofNat n), v < 16 ∧ UInt8.ofNat n ≤ 0x7F := by
    decide +kernel
  simpa using hall c.toNat c.toNat_lt v (by simpa using h)

theorem hex4_lt {h : Bytes} {n : ℕ} (hex : Hex4 h n) : n < 0x10000 ∧ ∀ c ∈ h, c ≤ 0x7F := by
  cases hex with
  | mk ha hb hc hd =>
    obtain ⟨hi, ha⟩ := hexValue_lt ha
    obtain ⟨hj, hb⟩ := hexValue_lt hb
    obtain ⟨hk, hc⟩ := hexValue_lt hc
    obtain ⟨hl, hd⟩ := hexValue_lt hd
    refine ⟨by omega, ?_⟩
    simp [ha, hb, hc, hd]

theorem marked (i a : ℕ) {b : ℕ} (h : b < 2 ^ i) : a <<< i ||| b = a <<< i + b :=
  (Nat.shiftLeft_add_eq_or_of_lt h a).symm

theorem codepointBytes_eq {n : ℕ} (h : n < 0x110000) : codepointBytes n = encode n := by
  have hlast : ∀ m : ℕ, 0x80 ||| m &&& 0x3F = 0x80 + m % 64 := by
    intro m
    have hm : m &&& 0x3F = m % 64 := Nat.and_two_pow_sub_one_eq_mod m 6
    rw [hm]
    exact marked 6 2 (Nat.mod_lt _ (by decide))
  have hshift : ∀ m i : ℕ, m >>> i = m / 2 ^ i := Nat.shiftRight_eq_div_pow
  unfold codepointBytes encode
  by_cases h₁ : n < 0x80
  · rw [if_pos h₁, if_pos h₁]
  · rw [if_neg h₁, if_neg h₁]
    by_cases h₂ : n < 0x800
    · rw [if_pos (Nat.le_of_lt_succ h₂), if_pos h₂, hlast, hshift]
      rw [show 0xC0 ||| n / 2 ^ 6 = 0xC0 + n / 64 from marked 6 3 (by omega)]
    · rw [if_neg (by omega), if_neg h₂]
      by_cases h₃ : n < 0x10000
      · rw [if_pos (Nat.le_of_lt_succ h₃), if_pos h₃, hlast, hlast, hshift, hshift]
        rw [show 0xE0 ||| n / 2 ^ 12 = 0xE0 + n / 4096 from marked 4 14 (by omega)]
        rfl
      · rw [if_neg (by omega), if_neg h₃, hlast, hlast, hlast, hshift, hshift, hshift]
        rw [show 0xF0 ||| n / 2 ^ 18 = 0xF0 + n / 262144 from marked 3 30 (by omega)]
        rfl

theorem Escape.ascii {e d : Bytes} (h : Escape e d) : ∀ c ∈ e, c ≤ 0x7F := by
  cases h with
  | unicode hex => exact List.forall_mem_cons.mpr ⟨by decide, (hex4_lt hex).2⟩
  | surrogates high _ low =>
    refine List.forall_mem_append.mpr ⟨List.forall_mem_cons.mpr ⟨by decide, (hex4_lt high).2⟩, ?_⟩
    exact List.forall_mem_cons.mpr
      ⟨by decide, List.forall_mem_cons.mpr ⟨by decide, (hex4_lt low).2⟩⟩
  | _ => exact List.forall_mem_singleton.mpr (by decide)

/-- A pair of surrogates, as the source combines it. -/
theorem surrogates_eq {m n : ℕ} (hm : 0xD800 ≤ m) (hn : 0xDC00 ≤ n) :
    m <<< 10 + n - 0x35FDC00 = 0x10000 + (m - 0xD800) * 1024 + (n - 0xDC00) := by
  rw [Nat.shiftLeft_eq]
  omega

theorem escape_of_scanUnicode {b s rest : Bytes} (h : scanUnicode b = .add s rest) :
    ∃ e, b = e ++ rest ∧ Escape (117 :: e) s := by
  unfold scanUnicode at h
  split at h
  · cases h
  · rename_i m b' hm
    obtain ⟨e, rfl, hhex⟩ := getCodepoint_iff.mp hm
    have hlt := (hex4_lt hhex).1
    split_ifs at h with hhigh hlow
    · split at h
      · rename_i b''
        split at h
        · cases h
        · rename_i n b₂ hn
          obtain ⟨l, rfl, hlhex⟩ := getCodepoint_iff.mp hn
          split_ifs at h with hlow
          obtain ⟨rfl, rfl⟩ := Turn.add.inj h
          refine ⟨e ++ 92 :: 117 :: l, by simp, ?_⟩
          rw [surrogates_eq hhigh.1 hlow.1, codepointBytes_eq (by omega)]
          exact .surrogates hhex hhigh hlhex hlow
      · cases h
    · obtain ⟨rfl, rfl⟩ := Turn.add.inj h
      rw [codepointBytes_eq (by omega)]
      exact ⟨e, rfl, .unicode hhex (by omega)⟩

theorem escape_of_scanEscape {b s rest : Bytes} (h : scanEscape b = .add s rest) :
    ∃ e, b = e ++ rest ∧ Escape e s := by
  cases b with
  | nil => cases h
  | cons c b =>
    simp only [scanEscape] at h
    split_ifs at h with h₁ h₂ h₃ h₄ h₅ h₆ h₇ h₈ h₉
    · cases h
      exact ⟨[34], by rw [h₁]; rfl, .quote⟩
    · cases h
      exact ⟨[92], by rw [h₂]; rfl, .backslash⟩
    · cases h
      exact ⟨[47], by rw [h₃]; rfl, .slash⟩
    · cases h
      exact ⟨[98], by rw [h₄]; rfl, .backspace⟩
    · cases h
      exact ⟨[102], by rw [h₅]; rfl, .formFeed⟩
    · cases h
      exact ⟨[110], by rw [h₆]; rfl, .lineFeed⟩
    · cases h
      exact ⟨[114], by rw [h₇]; rfl, .carriageReturn⟩
    · cases h
      exact ⟨[116], by rw [h₈]; rfl, .tab⟩
    · obtain ⟨e, rfl, hescape⟩ := escape_of_scanUnicode h
      exact ⟨117 :: e, by rw [h₉]; rfl, hescape⟩

theorem scanEscape_of_escape {e s : Bytes} (h : Escape e s) (rest : Bytes) :
    scanEscape (e ++ rest) = .add s rest := by
  cases h with
  | unicode hex single =>
    rename_i u n
    have hlt := (hex4_lt hex).1
    have hread : getCodepoint (u ++ rest) = some (n, rest) := getCodepoint_iff.mpr ⟨u, rfl, hex⟩
    have hhigh : ¬(0xD800 ≤ n ∧ n ≤ 0xDBFF) := by omega
    have hlow : ¬(0xDC00 ≤ n ∧ n ≤ 0xDFFF) := by omega
    simp [scanEscape, scanUnicode, hread, hhigh, hlow, codepointBytes_eq (n := n) (by omega)]
  | surrogates high hm low hn =>
    rename_i u l m n
    have hread : getCodepoint (u ++ 92 :: 117 :: (l ++ rest)) =
        some (m, 92 :: 117 :: (l ++ rest)) := getCodepoint_iff.mpr ⟨u, rfl, high⟩
    have hread' : getCodepoint (l ++ rest) = some (n, rest) := getCodepoint_iff.mpr ⟨l, rfl, low⟩
    have hbytes := codepointBytes_eq (n := m <<< 10 + n - 0x35FDC00)
      (by rw [surrogates_eq hm.1 hn.1]; omega)
    rw [surrogates_eq hm.1 hn.1] at hbytes
    simp [scanEscape, scanUnicode, hread, hread', hm, hn, surrogates_eq hm.1 hn.1, hbytes]
  | _ => rfl

theorem decode_lead_two : ∀ a < 32, 2 ≤ a → Utf8.decode 0 (UInt8.ofNat (0xC0 + a)) = 2 := by
  decide

theorem decode_lead_three : ∀ a < 16, Utf8.decode 0 (UInt8.ofNat (0xE0 + a)) =
    if a = 0 then 4 else if a = 13 then 5 else 3 := by decide

theorem decode_lead_four : ∀ a < 5, Utf8.decode 0 (UInt8.ofNat (0xF0 + a)) =
    if a = 0 then 6 else if a = 4 then 8 else 7 := by decide

theorem byte_between (l h : ℕ) {n : ℕ} (hl : l ≤ n) (hn : n ≤ h) (hh : h < 256) :
    UInt8.ofNat l ≤ UInt8.ofNat n ∧ UInt8.ofNat n ≤ UInt8.ofNat h := by
  simp only [UInt8.le_iff_toNat_le, UInt8.toNat_ofNat']
  omega

theorem byte_behind (n : ℕ) : (0x80 : UInt8) ≤ UInt8.ofNat (0x80 + n % 64) ∧
    UInt8.ofNat (0x80 + n % 64) ≤ 0xBF := by
  have hlt : n % 64 < 64 := Nat.mod_lt _ (by decide)
  exact byte_between 0x80 0xBF (by omega) (by omega) (by decide)

theorem valid_of_lead {c : UInt8} {u : Bytes} {state : ℕ} (hc : Utf8.decode 0 c = state)
    (h1 : state ≠ 1) (hu : List.Forall₂ (fun r d => r.1 ≤ d ∧ d ≤ r.2) (Utf8.owed state) u) :
    Utf8.valid (c :: u) = true := by
  have hrest := Utf8.accepts_of_within (hc ▸ Utf8.decode_lt 0 c) h1 hu
  simp [Utf8.valid, Utf8.acceptsFrom, hc, h1, hrest]

theorem valid_encode {n : ℕ} (h : n < 0x110000) (hs : n < 0xD800 ∨ 0xDFFF < n) :
    Utf8.valid (encode n) = true := by
  unfold encode
  split_ifs with h₁ h₂ h₃
  · have hascii : UInt8.ofNat n ≤ 0x7F :=
      (byte_between 0 0x7F (by omega) (by omega) (by decide)).2
    exact Utf8.valid_of_ascii (List.forall_mem_singleton.mpr hascii)
  · have hlead := decode_lead_two (n / 64) (by omega) (by omega)
    exact valid_of_lead hlead (by decide) (.cons (byte_behind n) .nil)
  · have hlead := decode_lead_three (n / 4096) (by omega)
    split_ifs at hlead with h0 h13
    · have hsecond := byte_between 0xA0 0xBF (n := 0x80 + n / 64 % 64) (by omega) (by omega)
        (by decide)
      exact valid_of_lead hlead (by decide) (.cons hsecond (.cons (byte_behind n) .nil))
    · have hsecond := byte_between 0x80 0x9F (n := 0x80 + n / 64 % 64) (by omega) (by omega)
        (by decide)
      exact valid_of_lead hlead (by decide) (.cons hsecond (.cons (byte_behind n) .nil))
    · exact valid_of_lead hlead (by decide) (.cons (byte_behind _) (.cons (byte_behind n) .nil))
  · have hlead := decode_lead_four (n / 262144) (by omega)
    have hlast : List.Forall₂ (fun r d => r.1 ≤ d ∧ d ≤ r.2) [(0x80, 0xBF), (0x80, 0xBF)]
        [UInt8.ofNat (0x80 + n / 64 % 64), UInt8.ofNat (0x80 + n % 64)] :=
      .cons (byte_behind (n / 64)) (.cons (byte_behind n) .nil)
    split_ifs at hlead with h0 h4
    · have hsecond := byte_between 0x90 0xBF (n := 0x80 + n / 4096 % 64) (by omega) (by omega)
        (by decide)
      exact valid_of_lead hlead (by decide) (.cons hsecond hlast)
    · have hsecond := byte_between 0x80 0x8F (n := 0x80 + n / 4096 % 64) (by omega) (by omega)
        (by decide)
      exact valid_of_lead hlead (by decide) (.cons hsecond hlast)
    · exact valid_of_lead hlead (by decide) (.cons (byte_behind _) hlast)

theorem valid_of_escape {e d : Bytes} (h : Escape e d) : Utf8.valid d = true := by
  cases h with
  | unicode hex single => exact valid_encode (by have := (hex4_lt hex).1; omega) single
  | surrogates high hm low hn => exact valid_encode (by omega) (by omega)
  | _ => decide

theorem body_high {u : Bytes} (hu : High u) {t s : Bytes} (h : Body t s) :
    Body (u ++ t) (u ++ s) := by
  induction u with
  | nil => exact h
  | cons c u ih =>
    obtain ⟨hc, hu⟩ := List.forall_mem_cons.mp hu
    have hne : ∀ d : UInt8, d < 0x80 → c ≠ d := by
      rintro d hd rfl
      exact absurd (UInt8.lt_of_lt_of_le hd hc) (UInt8.lt_irrefl _)
    exact .plain (UInt8.le_trans (by decide) hc) (hne 34 (by decide)) (hne 92 (by decide)) (ih hu)

theorem body_of_high {u : Bytes} (hu : High u) {t s : Bytes} (h : Body (u ++ t) s) :
    ∃ s', s = u ++ s' ∧ Body t s' := by
  induction u generalizing s with
  | nil => exact ⟨s, rfl, h⟩
  | cons c u ih =>
    obtain ⟨hc, hu⟩ := List.forall_mem_cons.mp hu
    generalize ht : c :: u ++ t = b at h
    cases h with
    | nil => cases ht
    | plain _ _ _ rest =>
      obtain ⟨rfl, rfl⟩ := List.cons.inj ht
      obtain ⟨s', rfl, hbody⟩ := ih hu rest
      exact ⟨s', rfl, hbody⟩
    | escape =>
      obtain ⟨rfl, -⟩ := List.cons.inj ht
      exact absurd hc (by decide)

/-- What a turn adds is a part of a string, and UTF-8 where its text is. -/
theorem body_of_scanChar {b s rest : Bytes} (h : scanChar b = .add s rest) :
    ∃ t, b = t ++ rest ∧ t ≠ [] ∧ Utf8.valid t = true ∧ Utf8.valid s = true ∧
      ∀ {t' s'}, Body t' s' → Body (t ++ t') (s ++ s') := by
  cases b with
  | nil => cases h
  | cons c b =>
    simp only [scanChar] at h
    split_ifs at h with h₁ h₂ h₃ h₄
    · obtain ⟨e, rfl, hescape⟩ := escape_of_scanEscape h
      have hascii : ∀ c ∈ 92 :: e, c ≤ 0x7F :=
        List.forall_mem_cons.mpr ⟨by decide, Escape.ascii hescape⟩
      refine ⟨92 :: e, by rw [h₂]; rfl, by simp, Utf8.valid_of_ascii hascii,
        valid_of_escape hescape, fun hbody => ?_⟩
      exact .escape hescape hbody
    · obtain ⟨rfl, rfl⟩ := Turn.add.inj h
      have hvalid := Utf8.valid_of_ascii (List.forall_mem_singleton.mpr h₄)
      exact ⟨[c], rfl, by simp, hvalid, hvalid,
        fun hbody => .plain (UInt8.not_lt.mp h₃) h₁ h₂ hbody⟩
    · have hc : 0x80 ≤ c := by
        rw [UInt8.le_iff_toNat_le] at h₄ ⊢
        exact Nat.lt_of_not_le h₄
      rw [ranges_eq hc] at h
      split_ifs at h with hd
      obtain ⟨u, rfl, rfl, hu, hhigh⟩ := accepts_of_nextByteInRange (Utf8.decode_lt 0 c) hd h
      have hvalid : Utf8.valid (c :: u) = true := by simp [Utf8.valid, Utf8.acceptsFrom, hd, hu]
      exact ⟨c :: u, rfl, by simp, hvalid, hvalid,
        fun hbody => body_high (List.forall_mem_cons.mpr ⟨hc, hhigh⟩) hbody⟩

theorem nextByteInRange_ne_close {s b rest : Bytes} {rs : List (UInt8 × UInt8)} :
    nextByteInRange s rs b ≠ .close rest := by
  induction rs generalizing s b with
  | nil => simp [nextByteInRange]
  | cons r rs ih =>
    cases b with
    | nil => simp [nextByteInRange]
    | cons c b =>
      rw [nextByteInRange]
      split_ifs
      · exact ih
      · simp

theorem scanUnicode_ne_close {b rest : Bytes} : scanUnicode b ≠ .close rest := by
  unfold scanUnicode
  split
  · simp
  · split_ifs
    · split
      · split
        · simp
        · split_ifs <;> simp
      · simp
    · simp
    · simp

theorem scanEscape_ne_close {b rest : Bytes} : scanEscape b ≠ .close rest := by
  cases b with
  | nil => simp [scanEscape]
  | cons c b =>
    rw [scanEscape]
    split_ifs <;> first | exact scanUnicode_ne_close | simp

theorem scanChar_close {b rest : Bytes} (h : scanChar b = .close rest) : b = 34 :: rest := by
  cases b with
  | nil => cases h
  | cons c b =>
    simp only [scanChar] at h
    split_ifs at h with h₁ h₂
    · cases h
      rw [h₁]
    · exact absurd h scanEscape_ne_close
    · split at h
      · exact absurd h nextByteInRange_ne_close
      · cases h

theorem quoted_of_scanStringLoop {n : ℕ} {s s' b rest : Bytes}
    (h : scanStringLoop n s b = (.valueString s', rest)) : ∃ t u, b = t ++ 34 :: rest ∧
      s' = s ++ u ∧ Body t u ∧ Utf8.valid t = true ∧ Utf8.valid u = true := by
  induction n generalizing s b with
  | zero => cases h
  | succ n ih =>
    rw [scanStringLoop] at h
    split at h
    · rename_i b' hclose
      cases h
      exact ⟨[], [], scanChar_close hclose, (List.append_nil _).symm, .nil, rfl, rfl⟩
    · rename_i v b' hadd
      obtain ⟨t, rfl, -, ht, hv, hbody⟩ := body_of_scanChar hadd
      obtain ⟨t', u, rfl, rfl, hrest, ht', hu⟩ := ih h
      exact ⟨t ++ t', v ++ u, by simp, by simp, hbody hrest, Utf8.valid_append ht ht',
        Utf8.valid_append hv hu⟩
    · cases h

theorem scanChar_ascii {c : UInt8} {b : Bytes} (hlow : 32 ≤ c) (hquote : c ≠ 34)
    (hslash : c ≠ 92) (hc : c ≤ 0x7F) : scanChar (c :: b) = .add [c] b := by
  simp [scanChar, hquote, hslash, hc, UInt8.not_lt.mpr hlow]

theorem scanChar_high {c : UInt8} {b : Bytes} (hc : 0x80 ≤ c) (hd : Utf8.decode 0 c ≠ 1) :
    scanChar (c :: b) = nextByteInRange [c] (Utf8.owed (Utf8.decode 0 c)) b := by
  have hne : ∀ d : UInt8, d < 0x80 → c ≠ d := by
    rintro d hdc rfl
    exact absurd (UInt8.lt_of_lt_of_le hdc hc) (UInt8.lt_irrefl _)
  have hlow : ¬c < 32 := UInt8.not_lt.mpr (UInt8.le_trans (by decide) hc)
  have hhigh : ¬c ≤ 0x7F := fun h => absurd (UInt8.le_trans hc h) (by decide)
  simp [scanChar, hne 34 (by decide), hne 92 (by decide), hlow, hhigh, ranges_eq hc, hd]

theorem scanStringLoop_of_body {n : ℕ} {t u : Bytes} (h : Body t u) (ht : Utf8.valid t = true)
    (hn : t.length < n) (s rest : Bytes) :
    scanStringLoop n s (t ++ 34 :: rest) = (.valueString (s ++ u), rest) := by
  induction n generalizing t u s with
  | zero => exact absurd hn (Nat.not_lt_zero _)
  | succ n ih =>
    cases h with
    | nil => simp [scanStringLoop, scanChar]
    | @plain c t u low quote slash body =>
      rw [List.length_cons] at hn
      simp only [Utf8.valid, Utf8.acceptsFrom, Bool.and_eq_true, bne_iff_ne] at ht
      by_cases hc : c ≤ 0x7F
      · rw [Utf8.decode_ascii hc] at ht
        have hturn := scanChar_ascii (b := t ++ 34 :: rest) low quote slash hc
        simp [scanStringLoop, hturn, ih body ht.2 (Nat.lt_of_succ_lt_succ hn)]
      · have hc' : 0x80 ≤ c := by
          rw [UInt8.le_iff_toNat_le] at hc ⊢
          exact Nat.lt_of_not_le hc
        obtain ⟨v, t', rfl, hvalid, hhigh, hnext⟩ :=
          nextByteInRange_of_accepts (Utf8.decode_lt 0 c) ht.1 ht.2
        obtain ⟨u', rfl, hbody⟩ := body_of_high hhigh body
        have hturn := scanChar_high (b := v ++ (t' ++ 34 :: rest)) hc' ht.1
        rw [hnext] at hturn
        have hlen : t'.length < n := by
          rw [List.length_append] at hn
          omega
        simp [scanStringLoop, hturn, ih hbody hvalid hlen]
    | @escape e d t u seq body =>
      have hascii : ∀ c ∈ 92 :: e, c ≤ 0x7F :=
        List.forall_mem_cons.mpr ⟨by decide, Escape.ascii seq⟩
      have hvalid : Utf8.valid t = true :=
        (Utf8.acceptsFrom_append t (Utf8.valid_of_ascii hascii)).symm.trans ht
      have hturn : scanChar (92 :: (e ++ (t ++ 34 :: rest))) = .add d (t ++ 34 :: rest) := by
        simpa [scanChar] using scanEscape_of_escape seq (t ++ 34 :: rest)
      have hlen : t.length < n := by
        simp only [List.length_append, List.length_cons] at hn
        omega
      simp [scanStringLoop, hturn, ih body hvalid hlen]

/-- A string is accepted exactly if it is well formed and UTF-8. -/
theorem scanString_iff {b s rest : Bytes} : scanString b = (.valueString s, rest) ↔
    ∃ t, b = t ++ 34 :: rest ∧ Body t s ∧ Utf8.valid t = true := by
  constructor
  · intro h
    obtain ⟨t, u, rfl, rfl, hbody, ht, -⟩ := quoted_of_scanStringLoop h
    exact ⟨t, rfl, hbody, ht⟩
  · rintro ⟨t, rfl, hbody, ht⟩
    exact scanStringLoop_of_body hbody ht (by grind) [] rest

theorem scanString_cases (b : Bytes) : (∃ s rest, scanString b = (.valueString s, rest)) ∨
    scanString b = (.parseError, []) := by
  have hloop : ∀ n s b, (∃ s' rest, scanStringLoop n s b = (.valueString s', rest)) ∨
      scanStringLoop n s b = (.parseError, []) := by
    intro n
    induction n with
    | zero => exact fun s b => .inr rfl
    | succ n ih =>
      intro s b
      rw [scanStringLoop]
      split
      · exact .inl ⟨_, _, rfl⟩
      · exact ih _ _
      · exact .inr rfl
  exact hloop _ _ _

end JsonLexer

end CctvServer
