import Mathlib.Data.Fintype.Option
import CctvServer.Accounts
import CctvServer.CommandLines

namespace CctvServer

open CommandHandler

variable {P : Platform}

inductive UserStep (P : Platform) (line : Bytes) (u : Users) : Server P Bytes → Users → Prop
  | keep {p : Server P Bytes} : UserStep P line u p u
  | insert {createdAt : Bytes} {u₁ : Users} (register : accountCommand line = some .register)
      (insert : u.insert (keyOf line) (hashOf P line) createdAt = some u₁) :
      UserStep P line u (.ret accountCreated) u₁
  | update {p : Server P Bytes} {r : UserRow} (mem : r ∈ u.rows) (email : r.email = keyOf line) :
      UserStep P line u p (u.updatePassword (hashOf P line) r.id)

/-- The replies that tell the client that its e-mail has an account. -/
def acknowledgements : AccountCommand → List Bytes
  | .register => [errorReply 409 "Email already exists"]
  | .login => [loggedIn, errorReply 401 "Invalid email or password"]
  | .resetPassword => [passwordReset, errorReply 500 "Failed to reset password"]

def Acknowledges (line reply : Bytes) : Prop :=
  ∃ command, accountCommand line = some command ∧ reply ∈ acknowledgements command

/-- The request says or acts on that its e-mail has an account. -/
def Finds (line : Bytes) (p : Server P Bytes) : Prop :=
  (∃ reply, p = .ret reply ∧ Acknowledges line reply) ∨
    ∃ hash id k, p = .call (.updatePassword hash id) k

def afterTime (line : Bytes) (createdAt : Bytes) : Server P Bytes :=
  .call (.insertUser (keyOf line) (hashOf P line) createdAt) fun ok =>
    if ok then .ret accountCreated else .ret (errorReply 500 "Failed to create user")

/-- The same point of one request over two tables. -/
inductive Alike (u u' : Users) (line : Bytes) : Server P Bytes → Server P Bytes → Prop
  | started : Alike u u' line (handle line) (handle line)
  | time (register : accountCommand line = some .register) :
      Alike u u' line (.call .time fun t => afterTime line (cstr (P.putTime t)))
        (.call .time fun t => afterTime line (cstr (P.putTime t)))
  | insert (t t' : Bytes) (register : accountCommand line = some .register) :
      Alike u u' line (afterTime line t) (afterTime line t')
  | update {r r' : UserRow} (reset : accountCommand line = some .resetPassword)
      (mem : r ∈ u.rows) (email : r.email = keyOf line)
      (mem' : r' ∈ u'.rows) (email' : r'.email = keyOf line) :
      Alike u u' line
        (.call (.updatePassword (hashOf P line) (columnInt r.id)) fun ok =>
          if ok then .ret passwordReset else .ret (errorReply 500 "Failed to reset password"))
        (.call (.updatePassword (hashOf P line) (columnInt r'.id)) fun ok =>
          if ok then .ret passwordReset else .ret (errorReply 500 "Failed to reset password"))
  | done {reply : Bytes} (known : Acknowledges line reply → u.account (keyOf line) ≠ none) :
      Alike u u' line (.ret reply) (.ret reply)

namespace Users

/-- Rows keep their id and e-mail. -/
def Keeps (u u₁ : Users) : Prop :=
  ∀ r ∈ u.rows, ∃ r₁ ∈ u₁.rows, r₁.id = r.id ∧ r₁.email = r.email

variable {u u₁ u' u₁' : Users} {key : Bytes}

theorem Keeps.refl (u : Users) : u.Keeps u := fun r hr => ⟨r, hr, rfl, rfl⟩

theorem account_ne_none_iff : u.account key ≠ none ↔ ∃ r ∈ u.rows, r.email = key := by
  rw [Ne, account_eq_none_iff]
  push Not
  exact Iff.rfl

theorem Keeps.account (h : u.Keeps u₁) (hk : u.account key ≠ none) : u₁.account key ≠ none := by
  rw [account_ne_none_iff] at hk ⊢
  obtain ⟨r, hr, he⟩ := hk
  obtain ⟨r₁, hr₁, -, he₁⟩ := h r hr
  exact ⟨r₁, hr₁, he₁.trans he⟩

theorem insert_isSome_iff {hash createdAt : Bytes} :
    (u.insert key hash createdAt).isSome ↔ u.account key = none := by
  rw [account_eq_none_iff, Users.insert]
  split
  · rename_i h
    obtain ⟨r, hr, he⟩ := List.any_eq_true.mp h
    simpa using ⟨r, hr, by simpa using he⟩
  · rename_i h
    simpa using h

end Users

theorem Alike.keeps {u u₁ u' u₁' : Users} {line : Bytes} {p p' : Server P Bytes}
    (h : Alike u u' line p p') (hu : u.Keeps u₁) (hu' : u'.Keeps u₁') : Alike u₁ u₁' line p p' := by
  cases h with
  | started => exact .started
  | time hc => exact .time hc
  | insert t t' hc => exact .insert t t' hc
  | update hc hm he hm' he' =>
    obtain ⟨r₁, hr₁, hid, hem⟩ := hu _ hm
    obtain ⟨r₁', hr₁', hid', hem'⟩ := hu' _ hm'
    rw [← hid, ← hid']
    exact .update hc hr₁ (hem.trans he) hr₁' (hem'.trans he')
  | done hk => exact .done fun ha => hu.account (hk ha)

theorem Alike.ret_iff {u u' : Users} {line : Bytes} {p p' : Server P Bytes}
    (h : Alike u u' line p p') (reply : Bytes) : p = .ret reply ↔ p' = .ret reply := by
  cases h with
  | started => exact Iff.rfl
  | time _ => exact ⟨nofun, nofun⟩
  | insert _ _ _ => exact ⟨nofun, nofun⟩
  | update _ _ _ _ _ => exact ⟨nofun, nofun⟩
  | done _ => exact Iff.rfl

theorem Alike.symm {u u' : Users} {line : Bytes} {p p' : Server P Bytes}
    (h : Alike u u' line p p') (hacc : u.account (keyOf line) = u'.account (keyOf line)) :
    Alike u' u line p' p := by
  cases h with
  | started => exact .started
  | time hc => exact .time hc
  | insert t t' hc => exact .insert t' t hc
  | update hc hm he hm' he' => exact .update hc hm' he' hm he
  | done hk => exact .done (hacc ▸ hk)

theorem not_acknowledges_missing (line : Bytes) : ¬ Acknowledges line missing := by
  rintro ⟨command, -, h⟩
  revert h
  cases command <;> decide

theorem handle_account {line : Bytes} (h : accountCommand line ≠ none) :
    handle (P := P) line = .ret missing ∨
      ∃ k, handle (P := P) line = .call (.selectUserByEmail (keyOf line)) k := by
  change dispatch (splitCommand line).1 (splitCommand line).2 = _ ∨
    ∃ k, dispatch (splitCommand line).1 (splitCommand line).2 = _
  rcases accountCommand_cases h with ⟨-, hs⟩ | ⟨-, hs⟩ | ⟨-, hs⟩
  · rw [hs]
    simp +decide only [dispatch, if_true, handleRegister_eq]
    split
    · exact .inl rfl
    · exact .inr ⟨_, rfl⟩
  · rw [hs]
    simp +decide only [dispatch, if_true, if_false, handleLogin_eq]
    split
    · exact .inl rfl
    · exact .inr ⟨_, rfl⟩
  · rw [hs]
    simp +decide only [dispatch, if_true, if_false, handleResetPassword_eq]
    split
    · exact .inl rfl
    · exact .inr ⟨_, rfl⟩

theorem Alike.finds {u u' : Users} {line : Bytes} {p p' : Server P Bytes}
    (h : Alike u u' line p p') (hcommand : accountCommand line ≠ none) (hf : Finds line p) :
    u.account (keyOf line) ≠ none := by
  cases h with
  | started =>
    exfalso
    rcases handle_account (P := P) hcommand with he | ⟨_, he⟩ <;> rw [he] at hf
    · obtain ⟨_, h, ha⟩ | ⟨_, _, _, h⟩ := hf <;> cases h
      exact not_acknowledges_missing line ha
    · obtain ⟨_, h, -⟩ | ⟨_, _, _, h⟩ := hf <;> cases h
  | time _ =>
    obtain ⟨_, h, -⟩ | ⟨_, _, _, h⟩ := hf <;> cases h
  | insert _ _ _ =>
    obtain ⟨_, h, -⟩ | ⟨_, _, _, h⟩ := hf <;> cases h
  | update _ hm he _ _ => exact Users.account_ne_none_iff.mpr ⟨_, hm, he⟩
  | done hk =>
    obtain ⟨_, h, ha⟩ | ⟨_, _, _, h⟩ := hf
    · cases h
      exact hk ha
    · cases h

structure After (line : Bytes) (u u' : Users) (q q' : Server P Bytes × (World P × Socket)) :
    Prop where
  alike : Alike q.2.1.db.users q'.2.1.db.users line q.1 q'.1
  account : q.2.1.db.users.account (keyOf line) = q'.2.1.db.users.account (keyOf line)
  left : UserStep P line u q.1 q.2.1.db.users
  right : UserStep P line u' q'.1 q'.2.1.db.users

section Step

variable {line : Bytes} {s s' : World P × Socket} {w : Outcome}
  (hacc : s.1.db.users.account (keyOf line) = s'.1.db.users.account (keyOf line))

include hacc

theorem After.of_users {p p' : Server P Bytes} {t t' : World P × Socket}
    (ht : t.1.db.users = s.1.db.users) (ht' : t'.1.db.users = s'.1.db.users)
    (h : Alike s.1.db.users s'.1.db.users line p p') :
    After line s.1.db.users s'.1.db.users (p, t) (p', t') := by
  refine ⟨?_, ?_, ?_, ?_⟩
  · rw [ht, ht']
    exact h
  · rw [ht, ht', hacc]
  · rw [ht]
    exact .keep
  · rw [ht']
    exact .keep

theorem After.stay {p p' : Server P Bytes}
    (h : Alike s.1.db.users s'.1.db.users line p p') :
    After line s.1.db.users s'.1.db.users (p, s) (p', s') := .of_users hacc rfl rfl h

theorem after_lookup {k : Option UserRow → Server P Bytes}
    (hnone : Alike s.1.db.users s'.1.db.users line (k none) (k none))
    (hsome : ∀ r r', r ∈ s.1.db.users.rows → r.email = keyOf line → r' ∈ s'.1.db.users.rows →
      r'.email = keyOf line → r.passwordHash = r'.passwordHash →
      Alike s.1.db.users s'.1.db.users line (k (some r)) (k (some r'))) :
    After line s.1.db.users s'.1.db.users
      ((if emailOf line = [] ∨ passwordOf line = [] then .ret missing
        else .call (.selectUserByEmail (keyOf line)) k : Server P Bytes).next World.answer w s)
      ((if emailOf line = [] ∨ passwordOf line = [] then .ret missing
        else .call (.selectUserByEmail (keyOf line)) k : Server P Bytes).next World.answer w
          s') := by
  split
  · exact .stay hacc (.done fun h => absurd h (not_acknowledges_missing line))
  · refine .stay hacc ?_
    cases hw : w.failed with
    | true => simpa [World.answer, hw] using hnone
    | false =>
      have hmap : (s.1.db.users.selectByEmail (keyOf line)).map (·.passwordHash) =
          (s'.1.db.users.selectByEmail (keyOf line)).map (·.passwordHash) := hacc
      cases hr : s.1.db.users.selectByEmail (keyOf line) with
      | none =>
        cases hr' : s'.1.db.users.selectByEmail (keyOf line) with
        | none => simpa [World.answer, hw, hr, hr'] using hnone
        | some r' => simp [hr, hr'] at hmap
      | some r =>
        cases hr' : s'.1.db.users.selectByEmail (keyOf line) with
        | none => simp [hr, hr'] at hmap
        | some r' =>
          obtain ⟨hm, he⟩ := Users.mem_of_selectByEmail hr
          obtain ⟨hm', he'⟩ := Users.mem_of_selectByEmail hr'
          have hh : r.passwordHash = r'.passwordHash := by simpa [hr, hr'] using hmap
          simpa [World.answer, hw, hr, hr'] using hsome r r' hm he hm' he' hh

theorem after_insert (t t' : Bytes) (hc : accountCommand line = some .register) :
    After line s.1.db.users s'.1.db.users ((afterTime line t).next World.answer w s)
      ((afterTime line t').next World.answer w s') := by
  have hrefused (n : ℕ) : After line s.1.db.users s'.1.db.users
      ((.ret (errorReply 500 "Failed to create user") : Server P Bytes),
        ({ s.1 with db := s.1.db.abandon n }, s.2))
      (.ret (errorReply 500 "Failed to create user"),
        ({ s'.1 with db := s'.1.db.abandon n }, s'.2)) := by
    refine .of_users hacc rfl rfl (.done ?_)
    rintro ⟨command, hcommand, hm⟩
    rw [hc] at hcommand
    cases hcommand
    exact absurd hm (by decide)
  cases hw : w.failed with
  | true => simpa [afterTime, Prog.next, World.answer, hw] using hrefused w.number
  | false =>
    cases hu : s.1.db.users.insert (keyOf line) (hashOf P line) t with
    | none =>
      have hu' : s'.1.db.users.insert (keyOf line) (hashOf P line) t' = none := by
        have htaken : ¬ s.1.db.users.account (keyOf line) = none := by
          rw [← Users.insert_isSome_iff, hu]
          simp
        rwa [← Option.not_isSome_iff_eq_none, Users.insert_isSome_iff, ← hacc]
      simpa [afterTime, Prog.next, World.answer, Database.insertUser, hw, hu, hu'] using hrefused 1
    | some u₁ =>
      have hfree := (Users.insert_some hu).1
      obtain ⟨u₁', hu'⟩ :
          ∃ u₁', s'.1.db.users.insert (keyOf line) (hashOf P line) t' = some u₁' := by
        rw [← Option.isSome_iff_exists, Users.insert_isSome_iff, ← hacc, hfree]
      simp only [afterTime, Prog.next, World.answer, Database.insertUser, hw, hu, hu']
      have hkey : u₁.account (keyOf line) = some (hashOf P line) := by
        rw [Users.account_insert hu, Function.update_self]
      have hkey' : u₁'.account (keyOf line) = some (hashOf P line) := by
        rw [Users.account_insert hu', Function.update_self]
      exact ⟨.done fun _ => by simp [hkey], hkey.trans hkey'.symm, .insert hc hu, .insert hc hu'⟩

end Step

/-- Alike points go on alike, and touch their own account only. -/
theorem Alike.next {line : Bytes} {p p' : Server P Bytes} {s s' : World P × Socket}
    (h : Alike s.1.db.users s'.1.db.users line p p') (hcommand : accountCommand line ≠ none)
    (hu : s.1.db.users.WellFormed) (hu' : s'.1.db.users.WellFormed)
    (hids : s.1.db.users.seq < 2 ^ 31) (hids' : s'.1.db.users.seq < 2 ^ 31)
    (hacc : s.1.db.users.account (keyOf line) = s'.1.db.users.account (keyOf line)) (w : Outcome) :
    After line s.1.db.users s'.1.db.users (p.next World.answer w s)
      (p'.next World.answer w s') := by
  cases h with
  | started =>
    change After line _ _ ((dispatch (splitCommand line).1 (splitCommand line).2).next _ _ _)
      ((dispatch (splitCommand line).1 (splitCommand line).2).next _ _ _)
    rcases accountCommand_cases hcommand with ⟨hc, hs⟩ | ⟨hc, hs⟩ | ⟨hc, hs⟩
    · rw [hs]
      simp +decide only [dispatch, if_true, handleRegister_eq]
      refine after_lookup hacc (.time hc) fun r r' hm he _ _ _ => .done fun _ => ?_
      exact Users.account_ne_none_iff.mpr ⟨r, hm, he⟩
    · rw [hs]
      simp +decide only [dispatch, if_true, if_false, handleLogin_eq]
      refine after_lookup hacc (.done ?_) fun r r' hm he _ _ hh => ?_
      · rintro ⟨command, hcmd, hm⟩
        rw [hc] at hcmd
        cases hcmd
        exact absurd hm (by decide)
      · dsimp only
        rw [hh]
        split
        · exact .done fun _ => Users.account_ne_none_iff.mpr ⟨r, hm, he⟩
        · exact .done fun _ => Users.account_ne_none_iff.mpr ⟨r, hm, he⟩
    · rw [hs]
      simp +decide only [dispatch, if_true, if_false, handleResetPassword_eq]
      refine after_lookup hacc (.done ?_) fun r r' hm he hm' he' _ => .update hc hm he hm' he'
      rintro ⟨command, hcmd, hm⟩
      rw [hc] at hcmd
      cases hcmd
      exact absurd hm (by decide)
  | time hc => exact .stay hacc (.insert _ _ hc)
  | insert t t' hc => exact after_insert hacc t t' hc
  | @update r r' hc hm he hm' he' =>
    have hknown : s.1.db.users.account (keyOf line) ≠ none :=
      Users.account_ne_none_iff.mpr ⟨r, hm, he⟩
    cases hw : w.failed with
    | true =>
      simp only [Prog.next, World.answer, hw]
      exact .of_users hacc rfl rfl (.done fun _ => hknown)
    | false =>
      have hid : columnInt r.id = r.id := columnInt_of_lt (by have := hu.id_le hm; omega)
      have hid' : columnInt r'.id = r'.id := columnInt_of_lt (by have := hu'.id_le hm'; omega)
      have hkey : (s.1.db.users.updatePassword (hashOf P line) r.id).account (keyOf line) =
          some (hashOf P line) := by
        rw [hu.account_updatePassword hm, he, Function.update_self]
      have hkey' : (s'.1.db.users.updatePassword (hashOf P line) r'.id).account (keyOf line) =
          some (hashOf P line) := by
        rw [hu'.account_updatePassword hm', he', Function.update_self]
      simp only [Prog.next, World.answer, hw, hid, hid']
      refine ⟨.done fun _ => ?_, hkey.trans hkey'.symm, .update hm he, .update hm' he'⟩
      exact hkey ▸ Option.some_ne_none _
  | done hk => exact .stay hacc (.done hk)

namespace UserStep

variable {line : Bytes} {u u₁ : Users} {p : Server P Bytes}

theorem wellFormed (h : UserStep P line u p u₁) (hu : u.WellFormed) : u₁.WellFormed := by
  cases h with
  | keep => exact hu
  | insert _ hins => exact hu.insert (cstr_hashOf line) hins
  | update _ _ => exact hu.updatePassword (cstr_hashOf line) _

theorem keeps (h : UserStep P line u p u₁) : u.Keeps u₁ := by
  cases h with
  | keep => exact .refl u
  | insert _ hins =>
    obtain ⟨-, rfl⟩ := Users.insert_some hins
    exact fun r hr => ⟨r, List.mem_append_left _ hr, rfl, rfl⟩
  | update _ _ =>
    refine fun r hr => ⟨_, List.mem_map_of_mem hr, ?_, ?_⟩ <;> split <;> rfl

theorem account_of_ne (h : UserStep P line u p u₁) (hu : u.WellFormed) {key : Bytes}
    (hk : key ≠ keyOf line) : u₁.account key = u.account key := by
  cases h with
  | keep => rfl
  | insert _ hins => rw [Users.account_insert hins, Function.update_of_ne hk]
  | update hm he =>
    rw [hu.account_updatePassword hm, he, Function.update_of_ne hk]

theorem created (h : UserStep P line u p u₁) {key : Bytes} (hnew : u₁.account key ≠ none) :
    u.account key ≠ none ∨
      key = keyOf line ∧ accountCommand line = some .register ∧ p = .ret accountCreated := by
  cases h with
  | keep => exact .inl hnew
  | insert hc hins =>
    by_cases hk : key = keyOf line
    · exact .inr ⟨hk, hc, rfl⟩
    · rw [Users.account_insert hins, Function.update_of_ne hk] at hnew
      exact .inl hnew
  | update _ _ =>
    rw [Users.account_ne_none_iff] at hnew ⊢
    obtain ⟨r₁, hr₁, he⟩ := hnew
    obtain ⟨r, hr, rfl⟩ := List.mem_map.mp hr₁
    refine .inl ⟨r, hr, ?_⟩
    split at he <;> exact he

end UserStep

section Runs

variable {ι : Type} {line : ι → Bytes} {key : Bytes} {c c' c₀ : Clients P ι Bytes} {i : ι}
  {w : Outcome}

/-- The row ids given so far fit in an `int`. -/
abbrev SmallIds (c : Clients P ι Bytes) : Prop := c.shared.db.users.seq < 2 ^ 31

/-- The table is well formed, every request is at a point of its command and every
account comes from a REGISTER that was answered with success. -/
structure Orderly (line : ι → Bytes) (c : Clients P ι Bytes) : Prop where
  table : c.shared.db.users.WellFormed
  points : ∀ i, Alike c.shared.db.users c.shared.db.users (line i) (c.prog i) (c.prog i)
  created : ∀ key, c.shared.db.users.account key ≠ none → ∃ j,
    accountCommand (line j) = some .register ∧ keyOf (line j) = key ∧
      c.prog j = .ret accountCreated

/-- Two runs that agree on the account and on the requests of one key. -/
structure Isolated (line : ι → Bytes) (key : Bytes) (c c' : Clients P ι Bytes) : Prop where
  left : Orderly line c
  right : Orderly line c'
  account : c.shared.db.users.account key = c'.shared.db.users.account key
  alike : ∀ i, keyOf (line i) = key →
    Alike c.shared.db.users c'.shared.db.users (line i) (c.prog i) (c'.prog i)

theorem Orderly.after (h : Orderly line c) (hcommand : accountCommand (line i) ≠ none)
    (hids : SmallIds c) (w : Outcome) :
    After (line i) c.shared.db.users c.shared.db.users
      ((c.prog i).next World.answer w (c.shared, c.loc i))
      ((c.prog i).next World.answer w (c.shared, c.loc i)) := by
  have hpoint : Alike (c.shared, c.loc i).1.db.users (c.shared, c.loc i).1.db.users (line i)
      (c.prog i) (c.prog i) := h.points i
  exact hpoint.next hcommand h.table h.table hids hids rfl w

theorem orderly_start (hprog : ∀ i, c₀.prog i = handle (line i))
    (hempty : c₀.shared.db.users = ⟨[], 0⟩) : Orderly line c₀ := by
  refine ⟨?_, fun i => ?_, fun key hkey => ?_⟩
  · rw [hempty]
    exact Users.wellFormed_empty
  · rw [hprog]
    exact .started
  · rw [hempty] at hkey
    exact absurd rfl hkey

theorem Isolated.symm (h : Isolated line key c c') : Isolated line key c' c :=
  ⟨h.right, h.left, h.account.symm, fun i hi => (h.alike i hi).symm (hi ▸ h.account)⟩

variable [DecidableEq ι]

theorem Orderly.userStep (h : Orderly line c) (hcommand : accountCommand (line i) ≠ none)
    (hids : SmallIds c) (w : Outcome) :
    UserStep P (line i) c.shared.db.users ((c.perform World.answer i w).prog i)
      (c.perform World.answer i w).shared.db.users := by
  have hleft := (h.after hcommand hids w).left
  rwa [Config.perform_prog, Config.perform_shared, Function.update_self]

theorem Orderly.perform (h : Orderly line c) (hcommand : accountCommand (line i) ≠ none)
    (hids : SmallIds c) (w : Outcome) : Orderly line (c.perform World.answer i w) := by
  have hstep := h.userStep hcommand hids w
  refine ⟨hstep.wellFormed h.table, fun j => ?_, fun key hkey => ?_⟩
  · by_cases hj : j = i
    · subst hj
      have halike := (h.after hcommand hids w).alike
      rwa [Config.perform_prog, Config.perform_shared, Function.update_self]
    · rw [Config.perform_prog, Function.update_of_ne hj]
      exact (h.points j).keeps hstep.keeps hstep.keeps
  · rcases hstep.created hkey with hold | ⟨rfl, hc, hp⟩
    · obtain ⟨j, hc, hk, hp⟩ := h.created key hold
      refine ⟨j, hc, hk, ?_⟩
      by_cases hj : j = i
      · subst hj
        rw [Config.perform_prog, hp, Function.update_self]
        rfl
      · rw [Config.perform_prog, Function.update_of_ne hj, hp]
    · exact ⟨i, hc, rfl, hp⟩

theorem Isolated.perform_left (h : Isolated line key c c') (hi : keyOf (line i) ≠ key)
    (hcommand : accountCommand (line i) ≠ none) (hids : SmallIds c) (w : Outcome) :
    Isolated line key (c.perform World.answer i w) c' := by
  have hstep := h.left.userStep hcommand hids w
  refine ⟨h.left.perform hcommand hids w, h.right, ?_, fun j hj => ?_⟩
  · rw [hstep.account_of_ne h.left.table hi.symm, h.account]
  · have hne : j ≠ i := fun hji => hi (hji ▸ hj)
    rw [Config.perform_prog, Function.update_of_ne hne]
    exact (h.alike j hj).keeps hstep.keeps (.refl _)

theorem Isolated.perform_both (h : Isolated line key c c') (hi : keyOf (line i) = key)
    (hcommand : accountCommand (line i) ≠ none) (hids : SmallIds c) (hids' : SmallIds c')
    (w : Outcome) :
    Isolated line key (c.perform World.answer i w) (c'.perform World.answer i w) := by
  have hpoint : Alike (c.shared, c.loc i).1.db.users (c'.shared, c'.loc i).1.db.users (line i)
      (c.prog i) (c'.prog i) := h.alike i hi
  subst hi
  have hafter := hpoint.next hcommand h.left.table h.right.table hids hids' h.account w
  have hstep := h.left.userStep hcommand hids w
  have hstep' := h.right.userStep hcommand hids' w
  refine ⟨h.left.perform hcommand hids w, h.right.perform hcommand hids' w, ?_, fun j hj => ?_⟩
  · rw [Config.perform_shared, Config.perform_shared]
    exact hafter.account
  · by_cases hji : j = i
    · subst hji
      have halike := hafter.alike
      rwa [Config.perform_prog, Config.perform_shared, Config.perform_prog, Config.perform_shared,
        Function.update_self, Function.update_self]
    · have hj' := (h.alike j hj).keeps hstep.keeps hstep'.keeps
      rwa [Config.perform_prog, Config.perform_prog, Function.update_of_ne hji,
        Function.update_of_ne hji]

/-- When no two e-mail tokens of the requests are equal up to their first NUL, the
requests that name one never change an answer to those that name another, which only
a REGISTER of that very token makes known. -/
theorem accounts_are_isolated {e₁ e₂ : Bytes} {σ σ' : List (ι × Outcome)}
    (hprog : ∀ i, c₀.prog i = handle (line i)) (hcommand : ∀ i, accountCommand (line i) ≠ none)
    (hempty : c₀.shared.db.users = ⟨[], 0⟩)
    (hkeys : ∀ i j, keyOf (line i) = keyOf (line j) → emailOf (line i) = emailOf (line j))
    (hids : c₀.Along World.answer SmallIds σ) (hids' : c₀.Along World.answer SmallIds σ')
    (hne : e₁ ≠ e₂)
    (hrest : σ.filter (fun x => emailOf (line x.1) ≠ e₁) =
      σ'.filter fun x => emailOf (line x.1) ≠ e₁) (hi : emailOf (line i) = e₂) :
    (∀ reply, (c₀.follow World.answer σ).prog i = .ret reply ↔
      (c₀.follow World.answer σ').prog i = .ret reply) ∧
    (Finds (line i) ((c₀.follow World.answer σ).prog i) → ∃ j,
      accountCommand (line j) = some .register ∧ emailOf (line j) = e₂ ∧
        (c₀.follow World.answer σ).prog j = .ret accountCreated) := by
  have hstart := orderly_start hprog hempty
  constructor
  · have hlow : ∀ τ : List (ι × Outcome), τ.filter (fun x => keyOf (line x.1) = keyOf (line i)) =
        (τ.filter fun x => emailOf (line x.1) ≠ e₁).filter
          fun x => keyOf (line x.1) = keyOf (line i) := by
      intro τ
      rw [List.filter_filter]
      refine List.filter_congr fun x _ => ?_
      by_cases hk : keyOf (line x.1) = keyOf (line i)
      · have hx : emailOf (line x.1) ≠ e₁ := by
          rw [hkeys _ _ hk, hi]
          exact hne.symm
        simp [hk, hx]
      · simp [hk]
    have hend : Isolated line (keyOf (line i)) (c₀.follow World.answer σ)
        (c₀.follow World.answer σ') := by
      refine Config.follow_unwind (fun j => keyOf (line j) = keyOf (line i))
        (fun c c' j w hj hids h => h.perform_left (by simpa using hj) (hcommand j) hids w)
        (fun c c' j w hj hids h =>
          (h.symm.perform_left (by simpa using hj) (hcommand j) hids w).symm)
        (fun c c' j w hj hids hids' h =>
          h.perform_both (by simpa using hj) (hcommand j) hids hids' w)
        ?_ hids hids' ⟨hstart, hstart, rfl, fun j _ => hstart.points j⟩
      rw [hlow σ, hlow σ', hrest]
    exact fun reply => (hend.alike i rfl).ret_iff reply
  · intro hfinds
    have hend : Orderly line (c₀.follow World.answer σ) :=
      hids.invariant (fun c j w hids h => h.perform (hcommand j) hids w) hstart
    obtain ⟨j, hc, hk, hp⟩ := hend.created _ ((hend.points i).finds (hcommand i) hfinds)
    exact ⟨j, hc, (hkeys j i hk).trans hi, hp⟩

end Runs

def requests {ι : Type} (line : ι → Bytes) : Clients .reference ι Bytes where
  shared := Reference.world Reference.emptyFs
  loc _ := ⟨[], []⟩
  prog i := handle (line i)
  trace := []

def threeRequests : Option Bool → Bytes
  | some false => ascii "REGISTER u p"
  | some true => ascii "LOGIN u p"
  | none => ascii "REGISTER v q"

/-- Another account is created between a REGISTER and the LOGIN. -/
def visited : List (Option Bool × Outcome) :=
  [(some false, .ok), (some false, .ok), (none, .ok), (none, .ok), (some false, .ok), (none, .ok),
    (some true, .ok)]

def unvisited : List (Option Bool × Outcome) :=
  [(some false, .ok), (some false, .ok), (some false, .ok), (some true, .ok)]

theorem login_is_isolated :
    (((requests threeRequests).follow World.answer visited).prog (some true) = .ret loggedIn ↔
      ((requests threeRequests).follow World.answer unvisited).prog (some true) =
        .ret loggedIn) ∧
    ∃ j, accountCommand (threeRequests j) = some .register ∧
      emailOf (threeRequests j) = ascii "u" ∧
        ((requests threeRequests).follow World.answer visited).prog j = .ret accountCreated := by
  have hlogin : ((requests threeRequests).follow World.answer visited).prog (some true) =
      .ret loggedIn := rfl
  have hprog : ∀ i, (requests threeRequests).prog i = handle (threeRequests i) := fun _ => rfl
  have hisolated := accounts_are_isolated hprog (by decide) rfl (by decide) (by decide) (by decide)
    (show ascii "v" ≠ ascii "u" by decide) (show visited.filter _ = unvisited.filter _ by decide)
    (show emailOf (threeRequests (some true)) = ascii "u" by decide)
  exact ⟨hisolated.1 loggedIn, hisolated.2 (.inl ⟨loggedIn, hlogin, .login, by decide, by decide⟩)⟩

def nulRequests : Bool → Bytes
  | false => ascii "REGISTER u" ++ 0 :: ascii "x p"
  | true => ascii "LOGIN u p"

/-- A REGISTER of another token lets the LOGIN succeed. -/
theorem nul_token_opens_account :
    emailOf (nulRequests false) ≠ emailOf (nulRequests true) ∧
    ((requests nulRequests).follow World.answer
      [(false, .ok), (false, .ok), (false, .ok), (true, .ok)]).prog true = .ret loggedIn ∧
    ((requests nulRequests).follow World.answer [(true, .ok)]).prog true =
      .ret (errorReply 404 "User not found") := ⟨by decide, rfl, rfl⟩

end CctvServer
