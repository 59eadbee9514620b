import Mathlib.Data.List.DropRight

namespace CctvServer

namespace Tokens

variable {α : Type} {p : α → Bool} {l n : List α}

def first (p : α → Bool) (l : List α) : List α := (l.dropWhile p).takeWhile (!p ·)

def behind (p : α → Bool) (l : List α) : List α := (l.dropWhile p).dropWhile (!p ·)

/-- The list without the separators at its ends. -/
def trim (p : α → Bool) (l : List α) : List α := (l.dropWhile p).rdropWhile p

theorem append (p : α → Bool) (l : List α) : l.takeWhile p ++ (first p l ++ behind p l) = l := by
  rw [first, behind, List.takeWhile_append_dropWhile, List.takeWhile_append_dropWhile]

theorem not_of_mem_first {x : α} (h : x ∈ first p l) : p x = false := by
  simpa using List.mem_takeWhile_imp h

theorem head_behind {x : α} (h : x ∈ (behind p l).head?) : p x = true := by
  have hhead := List.head?_dropWhile_not (!p ·) (l.dropWhile p)
  rw [← behind, Option.mem_def.mp h] at hhead
  simpa using hhead

theorem first_eq_nil_iff : first p l = [] ↔ ∀ x ∈ l, p x = true := by
  have hhead := List.head?_dropWhile_not p l
  rw [first, ← List.dropWhile_eq_nil_iff]
  cases h : l.dropWhile p with
  | nil => simp
  | cons x t =>
    have hx : p x = false := by simpa [h] using hhead
    simp [hx]

theorem parts_append {w t u : List α} (hw : ∀ x ∈ w, p x = true) (ht : ∀ x ∈ t, p x = false)
    (hne : t ≠ []) (hu : ∀ x ∈ u.head?, p x = true) :
    first p (w ++ (t ++ u)) = t ∧ behind p (w ++ (t ++ u)) = u := by
  have hdrop : (w ++ (t ++ u)).dropWhile p = t ++ u := by
    rw [List.dropWhile_append_of_pos hw]
    cases t with
    | nil => exact absurd rfl hne
    | cons x t => simp [ht x List.mem_cons_self]
  have ht' : ∀ x ∈ t, (!p x) = true := by simpa using ht
  rw [first, behind, hdrop, List.takeWhile_append_of_pos ht', List.dropWhile_append_of_pos ht']
  cases u with
  | nil => simp
  | cons x u => simp [hu x rfl]

theorem rdropWhile_append {u : List α} (hu : ∀ x ∈ u, p x = true) :
    (n ++ u).rdropWhile p = n.rdropWhile p := by
  have hu' : ∀ x ∈ u.reverse, p x = true := by simpa using hu
  rw [List.rdropWhile, List.reverse_append, List.dropWhile_append_of_pos hu', ← List.rdropWhile]

theorem trim_self (h : ∀ x ∈ l, p x = false) : trim p l = l := by
  have hdrop : l.dropWhile p = l := by
    cases l with
    | nil => rfl
    | cons x t => simp [h x List.mem_cons_self]
  rw [trim, hdrop]
  exact List.rdropWhile_eq_self_iff.mpr fun hne => by simp [h _ (List.getLast_mem hne)]

theorem trim_append {u : List α} (hu : ∀ x ∈ u, p x = true) : trim p (l ++ u) = trim p l := by
  by_cases hl : ∀ x ∈ l, p x = true
  · rw [trim, trim, List.dropWhile_append_of_pos hl, List.dropWhile_eq_nil_iff.mpr hu,
      List.dropWhile_eq_nil_iff.mpr hl]
  · have hne : l.dropWhile p ≠ [] := fun h => hl (List.dropWhile_eq_nil_iff.mp h)
    rw [trim, trim, List.dropWhile_append, if_neg (by simpa using hne), rdropWhile_append hu]

/-- Only a list that consists of one token and separators is trimmed to the token. -/
theorem trim_eq_iff (hne : n ≠ []) (hn : ∀ x ∈ n, p x = false) :
    trim p l = n ↔ first p l = n ∧ ∀ x ∈ behind p l, p x = true := by
  constructor
  · intro h
    have hsplit : l.dropWhile p = n ++ (l.dropWhile p).rtakeWhile p := by
      rw [← h, trim, List.rdropWhile_append_rtakeWhile]
    have hend : ∀ x ∈ (l.dropWhile p).rtakeWhile p, p x = true := fun x hx =>
      List.mem_rtakeWhile_imp hx
    obtain ⟨hfirst, hbehind⟩ := parts_append (p := p) (w := l.takeWhile p)
      (fun x hx => List.mem_takeWhile_imp hx) hn hne fun x hx =>
        hend x (List.mem_of_mem_head? hx)
    rw [← hsplit, List.takeWhile_append_dropWhile] at hfirst hbehind
    rw [hbehind]
    exact ⟨hfirst, hend⟩
  · rintro ⟨hfirst, hbehind⟩
    have hsplit : l.dropWhile p = n ++ behind p l := by
      rw [← hfirst, first, behind, List.takeWhile_append_dropWhile]
    rw [trim, hsplit, rdropWhile_append hbehind, List.rdropWhile_eq_self_iff]
    intro hl
    simp [hn _ (List.getLast_mem hl)]

theorem prefix_iff (hne : n ≠ []) (hn : ∀ x ∈ n, p x = false) :
    n <+: l ↔ l.takeWhile p = [] ∧ n <+: first p l := by
  constructor
  · rintro ⟨t, rfl⟩
    have hn' : ∀ x ∈ n, (!p x) = true := by simpa using hn
    obtain ⟨c, m, rfl⟩ := List.exists_cons_of_ne_nil hne
    have hc : p c = false := hn c List.mem_cons_self
    refine ⟨by simp [hc], ?_⟩
    have hdrop : (c :: m ++ t).dropWhile p = c :: m ++ t := by simp [hc]
    rw [first, hdrop, List.takeWhile_append_of_pos hn']
    exact List.prefix_append _ _
  · rintro ⟨hleading, hprefix⟩
    have hsplit := append p l
    rw [hleading, List.nil_append] at hsplit
    rw [← hsplit]
    exact hprefix.trans (List.prefix_append _ _)

theorem span_of_notMem [BEq α] [LawfulBEq α] {d : α} {u : List α} (hd : d ∉ n) :
    (n ++ d :: u).takeWhile (· != d) = n ∧ (n ++ d :: u).dropWhile (· != d) = d :: u := by
  have hn : ∀ x ∈ n, (x != d) = true := by
    intro x hx
    rw [bne_iff_ne]
    rintro rfl
    exact hd hx
  rw [List.takeWhile_append_of_pos hn, List.dropWhile_append_of_pos hn]
  simp

/-- What stands before the first `d` has no token if that comes before every token. -/
theorem first_takeWhile_nil [BEq α] [LawfulBEq α] {d : α} (hd : d ∈ l.takeWhile p) :
    first p (l.takeWhile (· != d)) = [] := by
  obtain ⟨a, b, hsplit, ha⟩ := List.eq_append_cons_of_mem hd
  have hl : l = a ++ d :: (b ++ l.dropWhile p) := by
    rw [← List.cons_append, ← List.append_assoc, ← hsplit, List.takeWhile_append_dropWhile]
  have hall : ∀ x ∈ a, p x = true := by
    intro x hx
    refine List.mem_takeWhile_imp (l := l) ?_
    rw [hsplit]
    exact List.mem_append_left _ hx
  rw [hl, (span_of_notMem ha).1, first, List.dropWhile_eq_nil_iff.mpr hall]
  rfl

/-- Cut at a `d` behind its first token, a list keeps the token, with less behind it. -/
theorem parts_takeWhile [BEq α] [LawfulBEq α] {d : α} (hp : p d = true) (hne : first p l ≠ [])
    (hd : d ∉ l.takeWhile p) : first p (l.takeWhile (· != d)) = first p l ∧
      behind p (l.takeWhile (· != d)) = (behind p l).takeWhile (· != d) := by
  have hleading : ∀ x ∈ l.takeWhile p, (x != d) = true := by
    intro x hx
    rw [bne_iff_ne]
    rintro rfl
    exact hd hx
  have htoken : ∀ x ∈ first p l, (x != d) = true := by
    intro x hx
    rw [bne_iff_ne]
    rintro rfl
    simp [not_of_mem_first hx] at hp
  have hsplit : l.takeWhile (· != d) =
      l.takeWhile p ++ (first p l ++ (behind p l).takeWhile (· != d)) := by
    conv_lhs => rw [← append p l]
    rw [List.takeWhile_append_of_pos hleading, List.takeWhile_append_of_pos htoken]
  rw [hsplit]
  refine parts_append (fun x hx => List.mem_takeWhile_imp hx) (fun x => not_of_mem_first) hne ?_
  intro x hx
  rw [List.head?_takeWhile] at hx
  exact head_behind (Option.mem_filter_iff.mp hx).1

end Tokens

end CctvServer
