import CctvServer.Database
import Mathlib.Data.List.Nodup

namespace CctvServer

theorem columnInt_of_lt {n : ℕ} (h : n < 2 ^ 31) : columnInt n = n := by
  rw [columnInt, BitVec.toInt_ofNat', Int.bmod_def]
  omega

namespace Users

/-- The password hash stored for every key. -/
def account (u : Users) (key : Bytes) : Option Bytes :=
  (u.selectByEmail key).map (·.passwordHash)

/-- Ids are given in order, e-mails are unique and hashes contain no NUL. -/
structure WellFormed (u : Users) : Prop where
  ids : u.rows.map (·.id) = List.range' 1 u.seq
  emails : (u.rows.map (·.email)).Nodup
  clean : ∀ r ∈ u.rows, cstr r.passwordHash = r.passwordHash

variable {u u' : Users}

theorem wellFormed_empty : WellFormed ⟨[], 0⟩ := ⟨rfl, .nil, nofun⟩

theorem mem_of_selectByEmail {key : Bytes} {r : UserRow} (h : u.selectByEmail key = some r) :
    r ∈ u.rows ∧ r.email = key :=
  ⟨List.mem_of_find?_eq_some h, by simpa using List.find?_some h⟩

theorem WellFormed.selectByEmail (hu : u.WellFormed) {r : UserRow} (h : r ∈ u.rows) :
    u.selectByEmail r.email = some r := by
  obtain ⟨r', hr'⟩ : ∃ r', u.selectByEmail r.email = some r' := by
    rw [← Option.isSome_iff_exists, Users.selectByEmail, List.find?_isSome]
    exact ⟨r, h, by simp⟩
  obtain ⟨hm, he⟩ := mem_of_selectByEmail hr'
  rw [hr', List.inj_on_of_nodup_map hu.emails hm h he]

theorem account_eq_none_iff {key : Bytes} : u.account key = none ↔ ∀ r ∈ u.rows, r.email ≠ key := by
  simp [account, Users.selectByEmail]

theorem WellFormed.id_le (hu : u.WellFormed) {r : UserRow} (h : r ∈ u.rows) : r.id ≤ u.seq := by
  have : r.id ∈ u.rows.map (·.id) := List.mem_map_of_mem h
  rw [hu.ids, List.mem_range'_1] at this
  omega

theorem insert_some {email hash createdAt : Bytes} (h : u.insert email hash createdAt = some u') :
    u.account email = none ∧ u' = ⟨u.rows ++ [⟨u.seq + 1, email, hash, createdAt⟩], u.seq + 1⟩ := by
  unfold insert at h
  split at h
  · cases h
  · rename_i hany
    cases h
    refine ⟨account_eq_none_iff.mpr fun r hr he => hany ?_, rfl⟩
    exact List.any_eq_true.mpr ⟨r, hr, by simpa using he⟩

theorem WellFormed.insert (hu : u.WellFormed) {email hash createdAt : Bytes}
    (hh : cstr hash = hash) (h : u.insert email hash createdAt = some u') : u'.WellFormed := by
  obtain ⟨hnone, rfl⟩ := insert_some h
  rw [account_eq_none_iff] at hnone
  refine ⟨?_, ?_, ?_⟩
  · simp only [List.map_append, List.map_cons, List.map_nil, hu.ids, List.range'_concat]
    simp [Nat.add_comm]
  · rw [List.map_append, List.nodup_append]
    refine ⟨hu.emails, by simp, fun a ha b hb => ?_⟩
    obtain ⟨r, hr, rfl⟩ := List.mem_map.mp ha
    rw [List.mem_singleton.mp hb]
    exact hnone r hr
  · intro r hr
    rcases List.mem_append.mp hr with hr | hr
    · exact hu.clean r hr
    · rw [List.mem_singleton.mp hr]
      exact hh

theorem account_insert {email hash createdAt : Bytes}
    (h : u.insert email hash createdAt = some u') :
    u'.account = Function.update u.account email (some hash) := by
  obtain ⟨hnone, rfl⟩ := insert_some h
  funext key
  by_cases hk : key = email
  · subst hk
    have hfind : u.rows.find? (fun r => decide (r.email = key)) = none := by
      simpa [account, Users.selectByEmail] using hnone
    simp [account, Users.selectByEmail, List.find?_append, hfind]
  · have hne : (decide (email = key)) = false := by simpa using Ne.symm hk
    simp [account, Users.selectByEmail, List.find?_append, hk, hne]

theorem WellFormed.updatePassword_rows (hu : u.WellFormed) {r : UserRow} (hr : r ∈ u.rows)
    (hash : Bytes) : (u.updatePassword hash r.id).rows =
      u.rows.map fun r' => if r'.email = r.email then { r' with passwordHash := hash } else r' := by
  have hnodup : (u.rows.map (·.id)).Nodup := hu.ids ▸ List.nodup_range'
  refine List.map_congr_left fun r' hr' => if_congr ?_ rfl rfl
  rw [Int.natCast_inj]
  constructor
  · intro h
    rw [List.inj_on_of_nodup_map hnodup hr' hr h]
  · intro h
    rw [List.inj_on_of_nodup_map hu.emails hr' hr h]

theorem WellFormed.updatePassword (hu : u.WellFormed) {hash : Bytes} (hh : cstr hash = hash)
    (id : ℤ) : (u.updatePassword hash id).WellFormed := by
  refine ⟨?_, ?_, ?_⟩
  · refine Eq.trans ?_ hu.ids
    simp only [Users.updatePassword, List.map_map]
    refine List.map_congr_left fun r _ => ?_
    simp only [Function.comp_apply]
    split <;> rfl
  · have : (u.updatePassword hash id).rows.map (·.email) = u.rows.map (·.email) := by
      simp only [Users.updatePassword, List.map_map]
      refine List.map_congr_left fun r _ => ?_
      simp only [Function.comp_apply]
      split <;> rfl
    rw [this]
    exact hu.emails
  · intro r hr
    obtain ⟨r', hr', rfl⟩ := List.mem_map.mp hr
    split
    · exact hh
    · exact hu.clean r' hr'

theorem WellFormed.account_updatePassword (hu : u.WellFormed) {r : UserRow} (hr : r ∈ u.rows)
    (hash : Bytes) : (u.updatePassword hash r.id).account =
      Function.update u.account r.email (some hash) := by
  funext key
  have hsame : ((fun r' : UserRow => decide (r'.email = key)) ∘ fun r' =>
      if r'.email = r.email then { r' with passwordHash := hash } else r') =
      fun r' => decide (r'.email = key) := by
    funext r'
    simp only [Function.comp_apply]
    split <;> rfl
  have hfind : (u.updatePassword hash r.id).account key = (u.selectByEmail key).map fun r' =>
      if r'.email = r.email then hash else r'.passwordHash := by
    simp only [account, Users.selectByEmail, hu.updatePassword_rows hr, List.find?_map, hsame,
      Option.map_map]
    refine congrArg (Option.map · _) (funext fun r' => ?_)
    simp only [Function.comp_apply]
    split <;> rfl
  rw [hfind]
  by_cases hk : key = r.email
  · subst hk
    simp [hu.selectByEmail hr]
  · rw [Function.update_of_ne hk, account]
    cases h : u.selectByEmail key with
    | none => rfl
    | some r' =>
      have hne : r'.email ≠ r.email := fun h' => hk ((mem_of_selectByEmail h).2 ▸ h')
      simp [hne]

end Users

end CctvServer
