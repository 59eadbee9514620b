import CctvServer.Json

namespace CctvServer

namespace Json

variable {key k : Bytes} {v : Json} {members members' : List (Bytes × Json)}

theorem ne_of_key_lt {a b : Bytes} (h : a < b) : a ≠ b := by
  rintro rfl
  exact List.lt_irrefl a h

def Ordered (members : List (Bytes × Json)) : Prop := members.Pairwise fun p q => p.1 < q.1

@[simp] theorem find_cons (p : Bytes × Json) :
    find k (p :: members) = if p.1 = k then some p.2 else find k members := by
  by_cases h : p.1 = k <;> simp [find, h]

theorem find_setKey_self : find key (setKey key v members) = some v := by
  induction members with
  | nil => simp [setKey]
  | cons p rest ih =>
    obtain ⟨k, w⟩ := p
    simp only [setKey]
    split_ifs with h₁ h₂
    · simp
    · simp
    · rw [find_cons, if_neg (Ne.symm h₂), ih]

theorem find_setKey_of_ne (h : k ≠ key) : find k (setKey key v members) = find k members := by
  induction members with
  | nil => simp [setKey, find, Ne.symm h]
  | cons p rest ih =>
    obtain ⟨k', w⟩ := p
    simp only [setKey]
    split_ifs with h₁ h₂
    · rw [find_cons, if_neg (Ne.symm h)]
    · subst h₂
      rw [find_cons, find_cons, if_neg (Ne.symm h), if_neg (Ne.symm h)]
    · rw [find_cons, find_cons, ih]

theorem find_eraseKey_self : find key (eraseKey key members) = none := by
  simp [find, eraseKey]

theorem find_eraseKey_of_ne (h : k ≠ key) : find k (eraseKey key members) = find k members := by
  induction members with
  | nil => rfl
  | cons p rest ih =>
    rw [eraseKey, List.filter_cons]
    split
    · rw [find_cons, find_cons]
      exact if_congr Iff.rfl rfl ih
    · rename_i hp
      have hp : p.1 = key := by simpa using hp
      rw [find_cons, if_neg (by rw [hp]; exact h.symm)]
      exact ih

theorem find_eq_none (h : ∀ p ∈ members, p.1 ≠ key) : find key members = none := by
  simpa [find] using h

theorem Ordered.eraseKey (h : Ordered members) : Ordered (eraseKey key members) :=
  List.Pairwise.filter _ h

theorem Ordered.setKey (h : Ordered members) : Ordered (setKey key v members) := by
  induction members with
  | nil => simp [Json.setKey, Ordered]
  | cons p rest ih =>
    obtain ⟨k, w⟩ := p
    obtain ⟨hp, hrest⟩ := List.pairwise_cons.mp h
    simp only [Json.setKey]
    split_ifs with h₁ h₂
    · refine List.pairwise_cons.mpr ⟨fun q hq => ?_, h⟩
      rcases List.mem_cons.mp hq with rfl | hq
      · exact h₁
      · exact List.lt_trans h₁ (hp q hq)
    · subst h₂
      exact List.pairwise_cons.mpr ⟨hp, hrest⟩
    · refine List.pairwise_cons.mpr ⟨fun q hq => ?_, ih hrest⟩
      rcases mem_setKey hq with rfl | hq
      · exact ((Std.lt_trichotomy key k).resolve_left h₁).resolve_left h₂
      · exact hp q hq

/-- An object is what is found under its keys. -/
theorem Ordered.ext (h : Ordered members) (h' : Ordered members')
    (heq : ∀ k, find k members = find k members') : members = members' := by
  induction members generalizing members' with
  | nil =>
    cases members' with
    | nil => rfl
    | cons q rest' => simpa [find] using heq q.1
  | cons p rest ih =>
    cases members' with
    | nil => simpa [find] using heq p.1
    | cons q rest' =>
      obtain ⟨hp, hrest⟩ := List.pairwise_cons.mp h
      obtain ⟨hq, hrest'⟩ := List.pairwise_cons.mp h'
      have hkey : p.1 = q.1 := by
        rcases Std.lt_trichotomy p.1 q.1 with hlt | heq' | hlt
        · have hnone : find p.1 (q :: rest') = none := find_eq_none fun x hx => by
            rcases List.mem_cons.mp hx with rfl | hx
            · exact (ne_of_key_lt hlt).symm
            · exact (ne_of_key_lt (List.lt_trans hlt (hq x hx))).symm
          have := heq p.1
          simp [hnone] at this
        · exact heq'
        · have hnone : find q.1 (p :: rest) = none := find_eq_none fun x hx => by
            rcases List.mem_cons.mp hx with rfl | hx
            · exact (ne_of_key_lt hlt).symm
            · exact (ne_of_key_lt (List.lt_trans hlt (hp x hx))).symm
          have := heq q.1
          simp [hnone] at this
      have hvalue : p.2 = q.2 := by simpa [hkey] using heq p.1
      obtain rfl : p = q := Prod.ext hkey hvalue
      refine congrArg _ (ih hrest hrest' fun k => ?_)
      by_cases hk : p.1 = k
      · subst hk
        rw [find_eq_none fun x hx => (ne_of_key_lt (hp x hx)).symm,
          find_eq_none fun x hx => (ne_of_key_lt (hq x hx)).symm]
      · simpa [hk] using heq k

theorem find_setKey :
    find k (setKey key v members) = if k = key then some v else find k members := by
  split
  · rename_i h
    rw [h, find_setKey_self]
  · exact find_setKey_of_ne ‹_›

theorem find_eraseKey :
    find k (eraseKey key members) = if k = key then none else find k members := by
  split
  · rename_i h
    rw [h, find_eraseKey_self]
  · exact find_eraseKey_of_ne ‹_›

end Json

end CctvServer
