import Mathlib.Data.List.Nodup
import Mathlib.Data.List.Perm.Basic
import Mathlib.Data.Nat.Notation
import Mathlib.Tactic.Common

namespace CctvServer.Ranking

variable {α : Type} {R : α → α → Prop} {order rows : List α} {r : α} {i k L n : ℕ}

def slice (L m : ℕ) (order : List α) : List α := (order.drop (m * L)).take L

theorem mem_slice_iff {m : ℕ} (hL : 0 < L) :
    r ∈ slice L m order ↔ ∃ i, order[i]? = some r ∧ i / L = m := by
  rw [slice, List.mem_iff_getElem?]
  constructor
  · rintro ⟨j, hj⟩
    obtain ⟨hlt, -⟩ := List.getElem?_eq_some_iff.mp hj
    have hjL : j < L := by
      rw [List.length_take] at hlt
      omega
    rw [List.getElem?_take_of_lt hjL, List.getElem?_drop] at hj
    refine ⟨m * L + j, hj, ?_⟩
    rw [Nat.mul_comm, Nat.mul_add_div hL, Nat.div_eq_of_lt hjL, Nat.add_zero]
  · rintro ⟨i, hi, rfl⟩
    have hlt : i % L < L := Nat.mod_lt i hL
    refine ⟨i % L, ?_⟩
    rw [List.getElem?_take_of_lt hlt, List.getElem?_drop, Nat.div_add_mod']
    exact hi

theorem slice_sublist (L m : ℕ) (order : List α) : (slice L m order).Sublist order :=
  (List.take_sublist _ _).trans (List.drop_sublist _ _)

theorem around (hs : order.Pairwise R) (hi : order[i]? = some r) :
    order = order.take i ++ r :: order.drop (i + 1) ∧ (order.take i).length = i ∧
      (∀ x ∈ order.take i, R x r) ∧ ∀ y ∈ order.drop (i + 1), R r y := by
  obtain ⟨hlt, hr⟩ := List.getElem?_eq_some_iff.mp hi
  have hsplit : order = order.take i ++ r :: order.drop (i + 1) := by
    rw [← hr, ← List.drop_eq_getElem_cons hlt, List.take_append_drop]
  have hpair := hs
  rw [hsplit, List.pairwise_append, List.pairwise_cons] at hpair
  refine ⟨hsplit, List.length_take_of_le (Nat.le_of_lt hlt), fun x hx => ?_, hpair.2.1.1⟩
  exact hpair.2.2 x hx r List.mem_cons_self

section Counting

variable [DecidableRel R]

theorem place_eq (hasymm : ∀ a b, R a b → ¬R b a) (hs : order.Pairwise R)
    (hi : order[i]? = some r) : i = order.countP fun x => R x r := by
  obtain ⟨hsplit, hlen, hbefore, hafter⟩ := around hs hi
  have h₁ : (order.take i).countP (fun x => R x r) = i := by
    rw [List.countP_eq_length.mpr fun x hx => by simpa using hbefore x hx, hlen]
  have h₂ : (order.drop (i + 1)).countP (fun x => R x r) = 0 :=
    List.countP_eq_zero.mpr fun y hy => by simpa using hasymm r y (hafter y hy)
  have hself : ¬R r r := fun h => hasymm r r h h
  rw [hsplit, List.countP_append, List.countP_cons, h₁, h₂]
  simp [hself]

/-- In a list ordered up to ties the place lies behind all that come strictly before
the element and before the end of its ties. -/
theorem place_bounds (hrefl : ∀ a, R a a) (hs : order.Pairwise R) (hi : order[i]? = some r) :
    order.countP (fun x => ¬R r x) ≤ i ∧ i < order.countP fun x => R x r := by
  obtain ⟨hsplit, hlen, hbefore, hafter⟩ := around hs hi
  have h₁ : (order.take i).countP (fun x => ¬R r x) ≤ i := by
    have := (order.take i).countP_le_length (p := fun x => decide ¬R r x)
    omega
  have h₂ : (order.drop (i + 1)).countP (fun x => ¬R r x) = 0 :=
    List.countP_eq_zero.mpr fun y hy => by simpa using hafter y hy
  have h₃ : (order.take i).countP (fun x => R x r) = i := by
    rw [List.countP_eq_length.mpr fun x hx => by simpa using hbefore x hx, hlen]
  constructor
  · rw [hsplit, List.countP_append, List.countP_cons, h₂]
    simpa [hrefl r] using h₁
  · rw [hsplit, List.countP_append, List.countP_cons, h₃]
    simp [hrefl r]

end Counting

/-- When every order has each element on the page `k` gives, the pages hold every
element once. -/
theorem pages_perm {order : ℕ → List α} {k : α → ℕ} (hL : 0 < L) (hnodup : rows.Nodup)
    (hn : rows.length ≤ n * L) (hperm : ∀ m < n, (order m).Perm rows)
    (hplace : ∀ m < n, ∀ i r, (order m)[i]? = some r → i / L = k r) :
    ((List.range n).flatMap fun m => slice L m (order m)).Perm rows := by
  have hmem : ∀ m < n, ∀ r, r ∈ slice L m (order m) ↔ r ∈ rows ∧ k r = m := by
    intro m hm r
    rw [mem_slice_iff hL, ← (hperm m hm).mem_iff, List.mem_iff_getElem?]
    constructor
    · rintro ⟨i, hi, rfl⟩
      exact ⟨⟨i, hi⟩, (hplace _ hm i r hi).symm⟩
    · rintro ⟨⟨i, hi⟩, rfl⟩
      exact ⟨i, hi, hplace _ hm i r hi⟩
  have hk : ∀ r ∈ rows, k r < n := by
    intro r hr
    have hn0 : 0 < n := by
      by_contra h0
      have : rows.length = 0 := by
        rw [Nat.eq_zero_of_not_pos h0] at hn
        omega
      exact List.ne_nil_of_mem hr (List.length_eq_zero_iff.mp this)
    obtain ⟨i, hi⟩ := List.mem_iff_getElem?.mp ((hperm 0 hn0).mem_iff.mpr hr)
    obtain ⟨hlt, -⟩ := List.getElem?_eq_some_iff.mp hi
    rw [(hperm 0 hn0).length_eq] at hlt
    rw [← hplace 0 hn0 i r hi]
    exact Nat.div_lt_of_lt_mul (by rw [Nat.mul_comm]; omega)
  -- an element of two pages would have two page numbers
  have hdisjoint : ((List.range n).flatMap fun m => slice L m (order m)).Nodup := by
    rw [List.nodup_flatMap]
    refine ⟨fun m hm => ?_, ?_⟩
    · have hm' := List.mem_range.mp hm
      exact ((hperm m hm').nodup_iff.mpr hnodup).sublist (slice_sublist _ _ _)
    · refine (List.pairwise_lt_range (n := n)).imp_of_mem fun {a b} ha hb hab r hra hrb => ?_
      have ha' := ((hmem a (List.mem_range.mp ha) r).mp hra).2
      have hb' := ((hmem b (List.mem_range.mp hb) r).mp hrb).2
      omega
  rw [List.perm_ext_iff_of_nodup hdisjoint hnodup]
  intro r
  rw [List.mem_flatMap]
  constructor
  · rintro ⟨m, hm, hr⟩
    exact ((hmem m (List.mem_range.mp hm) r).mp hr).1
  · intro hr
    exact ⟨k r, List.mem_range.mpr (hk r hr), (hmem _ (hk r hr) r).mpr ⟨hr, rfl⟩⟩

/-- Places never fall while the rows grow, so whoever is on none of the pages so far
stands behind them all; a last page that is not full has nobody behind it. -/
theorem received_by_last {H order : ℕ → List α} (hL : 0 < L)
    (hasymm : ∀ a b, R a b → ¬R b a) (hgrow : ∀ m < n, (H m).Sublist (H (m + 1)))
    (hperm : ∀ m ≤ n, (order m).Perm (H m)) (hs : ∀ m ≤ n, (order m).Pairwise R)
    (hlast : (slice L n (order n)).length < L) (hr : r ∈ H 0) :
    ∃ m ≤ n, r ∈ slice L m (order m) := by
  classical
  have hmem : ∀ m ≤ n, r ∈ H m := by
    intro m
    induction m with
    | zero => exact fun _ => hr
    | succ m ih => exact fun hm => (hgrow m hm).subset (ih (by omega))
  -- where the element stands is the number of those before it
  have hplace : ∀ m ≤ n, (order m)[(H m).countP fun x => R x r]? = some r := by
    intro m hm
    obtain ⟨i, hi⟩ := List.mem_iff_getElem?.mp ((hperm m hm).mem_iff.mpr (hmem m hm))
    rwa [← (hperm m hm).countP_eq, ← place_eq hasymm (hs m hm) hi]
  by_contra hnot
  push Not at hnot
  -- the page that was read did not hold it, and only more can come before it
  have hbehind : ∀ m ≤ n, (m + 1) * L ≤ (H m).countP fun x => R x r := by
    intro m
    induction m with
    | zero =>
      intro hm
      by_contra hlt
      have hdiv : (H 0).countP (fun x => decide (R x r)) / L = 0 := Nat.div_eq_of_lt (by omega)
      exact hnot 0 hm ((mem_slice_iff hL).mpr ⟨_, hplace 0 hm, hdiv⟩)
    | succ m ih =>
      intro hm
      have hle := ih (by omega)
      have hmono : (H m).countP (fun x => decide (R x r)) ≤
          (H (m + 1)).countP fun x => decide (R x r) := (hgrow m hm).countP_le
      by_contra hlt
      refine hnot (m + 1) hm ((mem_slice_iff hL).mpr ⟨_, hplace (m + 1) hm, ?_⟩)
      exact Nat.div_eq_of_lt_le (Nat.le_trans hle hmono) (by omega)
  obtain ⟨hlt, -⟩ := List.getElem?_eq_some_iff.mp (hplace n (Nat.le_refl n))
  have hle := hbehind n (Nat.le_refl n)
  rw [Nat.add_mul, Nat.one_mul] at hle
  rw [slice, List.length_take, List.length_drop] at hlast
  omega

section Ties

variable [DecidableRel R]

theorem exists_first (hrefl : ∀ a, R a a) (htrans : ∀ a b c, R a b → R b c → R a c)
    (hs : order.Pairwise R) (hr : r ∈ order) : ∃ first : List α, first.Perm order ∧
      first.Pairwise R ∧ first[order.countP fun x => ¬R r x]? = some r := by
  obtain ⟨i, hi⟩ := List.mem_iff_getElem?.mp hr
  obtain ⟨hsplit, -, hbefore, hafter⟩ := around hs hi
  generalize order.take i = before at hsplit hbefore
  generalize order.drop (i + 1) = after at hsplit hafter
  subst hsplit
  rw [List.pairwise_append, List.pairwise_cons] at hs
  obtain ⟨hsb, ⟨-, hsa⟩, hba⟩ := hs
  have hperm : (before.filter (fun x => ¬R r x) ++ before.filter fun x => R r x).Perm before := by
    have := List.filter_append_perm (fun x => decide (¬R r x)) before
    simpa using this
  -- the ties that came before the element move behind it
  refine ⟨before.filter (fun x => ¬R r x) ++ r :: (before.filter (fun x => R r x) ++ after),
    ?_, ?_, ?_⟩
  · refine List.perm_middle.trans ((List.Perm.cons r ?_).trans List.perm_middle.symm)
    rw [← List.append_assoc]
    exact hperm.append_right after
  · rw [List.pairwise_append, List.pairwise_cons, List.pairwise_append]
    refine ⟨hsb.filter _, ⟨fun y hy => ?_, hsb.filter _, hsa, fun x hx y hy => ?_⟩,
      fun x hx y hy => ?_⟩
    · rcases List.mem_append.mp hy with hy | hy
      · simpa using (List.mem_filter.mp hy).2
      · exact hafter y hy
    · exact hba x (List.mem_filter.mp hx).1 y (List.mem_cons_of_mem _ hy)
    · have hx' := (List.mem_filter.mp hx).1
      rcases List.mem_cons.mp hy with rfl | hy
      · exact hbefore x hx'
      · rcases List.mem_append.mp hy with hy | hy
        · have hry : R r y := by simpa using (List.mem_filter.mp hy).2
          exact htrans x r y (hbefore x hx') hry
        · exact hba x hx' y (List.mem_cons_of_mem _ hy)
  · have hnone : after.countP (fun x => ¬R r x) = 0 :=
      List.countP_eq_zero.mpr fun y hy => by simpa using hafter y hy
    rw [List.countP_append, List.countP_cons, hnone, List.countP_eq_length_filter]
    simp [hrefl r]

theorem exists_last (hrefl : ∀ a, R a a) (htrans : ∀ a b c, R a b → R b c → R a c)
    (hs : order.Pairwise R) (hr : r ∈ order) : ∃ last : List α, last.Perm order ∧
      last.Pairwise R ∧ last[(order.countP fun x => R x r) - 1]? = some r := by
  obtain ⟨first, hperm, hpair, hplace⟩ := exists_first (R := fun a b => R b a) hrefl
    (fun a b c hab hbc => htrans c b a hbc hab) (List.pairwise_reverse.mpr hs)
    (List.mem_reverse.mpr hr)
  have hlen : first.length = order.length := by rw [hperm.length_eq, List.length_reverse]
  have hcount : (order.countP fun x => R x r) + (order.countP fun x => ¬R x r) = order.length := by
    simpa using (List.length_eq_countP_add_countP (fun x => decide (R x r)) (l := order)).symm
  have hpos : 0 < order.countP fun x => R x r :=
    List.countP_pos_iff.mpr ⟨r, hr, by simpa using hrefl r⟩
  refine ⟨first.reverse, (first.reverse_perm.trans hperm).trans order.reverse_perm,
    List.pairwise_reverse.mpr hpair, ?_⟩
  rw [List.countP_reverse] at hplace
  rw [List.getElem?_reverse (by omega), ← hplace]
  congr 1
  omega

end Ties

end CctvServer.Ranking
