import Mathlib.Data.Finset.Disjoint
import Mathlib.Data.Finset.Erase

namespace CctvServer

/-- Every live handle is held by one of the holders, and by no other. -/
structure Owned {ι ρ : Type} (live : Finset ρ) (holds : ι → Finset ρ) : Prop where
  subset : ∀ i, holds i ⊆ live
  covered : ∀ r ∈ live, ∃ i, r ∈ holds i
  unique : ∀ i j r, r ∈ holds i → r ∈ holds j → i = j

namespace Owned

variable {ι ρ : Type} {live : Finset ρ} {holds holds' : ι → Finset ρ} {i j : ι} {r : ρ}

/-- What one holder holds, no other does. -/
theorem disjoint (h : Owned live holds) (hij : i ≠ j) : Disjoint (holds i) (holds j) :=
  Finset.disjoint_left.mpr fun r hi hj => hij (h.unique i j r hi hj)

theorem acquire [DecidableEq ρ] (h : Owned live holds) (hr : r ∉ live)
    (hi : holds' i = insert r (holds i)) (ho : ∀ j, j ≠ i → holds' j = holds j) :
    Owned (insert r live) holds' := by
  have hold : ∀ k s, s ∈ holds' k ↔ s ∈ holds k ∨ (k = i ∧ s = r) := by
    intro k s
    by_cases hki : k = i
    · subst hki
      rw [hi, Finset.mem_insert]
      grind
    · rw [ho k hki]
      grind
  have hnew : ∀ k, r ∉ holds k := fun k hk => hr (h.subset k hk)
  refine ⟨fun k s hs => ?_, fun s hs => ?_, fun k k' s hk hk' => ?_⟩
  · rcases (hold k s).mp hs with hs | ⟨-, rfl⟩
    · exact Finset.mem_insert_of_mem (h.subset k hs)
    · exact Finset.mem_insert_self s live
  · rcases Finset.mem_insert.mp hs with rfl | hs
    · exact ⟨i, (hold i s).mpr (.inr ⟨rfl, rfl⟩)⟩
    · obtain ⟨k, hk⟩ := h.covered s hs
      exact ⟨k, (hold k s).mpr (.inl hk)⟩
  · rcases (hold k s).mp hk with hk | ⟨rfl, rfl⟩ <;> rcases (hold k' s).mp hk' with hk' | ⟨rfl, hs⟩
    · exact h.unique k k' s hk hk'
    · exact absurd (hs ▸ hk) (hnew k)
    · exact absurd hk' (hnew k')
    · rfl

theorem release [DecidableEq ρ] (h : Owned live holds) (hr : r ∈ holds i)
    (hi : holds' i = (holds i).erase r) (ho : ∀ j, j ≠ i → holds' j = holds j) :
    Owned (live.erase r) holds' := by
  have hold : ∀ k s, s ∈ holds' k ↔ s ∈ holds k ∧ s ≠ r := by
    intro k s
    by_cases hki : k = i
    · subst hki
      rw [hi, Finset.mem_erase, and_comm]
    · rw [ho k hki]
      refine ⟨fun hs => ⟨hs, ?_⟩, fun hs => hs.1⟩
      rintro rfl
      exact hki (h.unique k i s hs hr)
  refine ⟨fun k s hs => ?_, fun s hs => ?_, fun k k' s hk hk' => ?_⟩
  · obtain ⟨hs, hne⟩ := (hold k s).mp hs
    exact Finset.mem_erase.mpr ⟨hne, h.subset k hs⟩
  · obtain ⟨hne, hs⟩ := Finset.mem_erase.mp hs
    obtain ⟨k, hk⟩ := h.covered s hs
    exact ⟨k, (hold k s).mpr ⟨hk, hne⟩⟩
  · exact h.unique k k' s ((hold k s).mp hk).1 ((hold k' s).mp hk').1

theorem give (h : Owned live holds) (hij : i ≠ j) (hj : holds j = ∅) (hi' : holds' i = ∅)
    (hj' : holds' j = holds i) (ho : ∀ k, k ≠ i → k ≠ j → holds' k = holds k) :
    Owned live holds' := by
  have hold : ∀ k s, s ∈ holds' k ↔ (k = j ∧ s ∈ holds i) ∨ (k ≠ i ∧ s ∈ holds k) := by
    intro k s
    by_cases hki : k = i
    · subst hki
      simp [hi', hij]
    · by_cases hkj : k = j
      · subst hkj
        simp [hki, hj, hj']
      · simp [hki, hkj, ho k hki hkj]
  refine ⟨fun k s hs => ?_, fun s hs => ?_, fun k k' s hk hk' => ?_⟩
  · rcases (hold k s).mp hs with ⟨-, hs⟩ | ⟨-, hs⟩
    · exact h.subset i hs
    · exact h.subset k hs
  · obtain ⟨k, hk⟩ := h.covered s hs
    by_cases hki : k = i
    · exact ⟨j, (hold j s).mpr (.inl ⟨rfl, hki ▸ hk⟩)⟩
    · exact ⟨k, (hold k s).mpr (.inr ⟨hki, hk⟩)⟩
  · rcases (hold k s).mp hk with ⟨rfl, hs⟩ | ⟨hki, hs⟩ <;>
      rcases (hold k' s).mp hk' with ⟨rfl, hs'⟩ | ⟨hki', hs'⟩
    · rfl
    · exact absurd (h.unique k' i s hs' hs) hki'
    · exact absurd (h.unique k i s hs hs') hki
    · exact h.unique k k' s hs hs'

theorem congr (h : Owned live holds) (ho : ∀ k, holds' k = holds k) : Owned live holds' := by
  rwa [funext ho]

end Owned

end CctvServer
