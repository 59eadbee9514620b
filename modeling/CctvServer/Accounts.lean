import CctvServer.Reference
import CctvServer.TcpServer
import CctvServer.Monitor
import CctvServer.UserTable

namespace CctvServer

open CommandHandler TcpServer

variable {P : Platform}

inductive AccountCommand
  | register
  | login
  | resetPassword
  deriving DecidableEq, Repr

def accountCommand (line : Bytes) : Option AccountCommand :=
  if (splitCommand line).1 = ascii "REGISTER" then some .register
  else if (splitCommand line).1 = ascii "LOGIN" then some .login
  else if (splitCommand line).1 = ascii "RESET_PASSWORD" then some .resetPassword
  else none

def emailOf (line : Bytes) : Bytes := (credentials (splitCommand line).2).1

def passwordOf (line : Bytes) : Bytes := (credentials (splitCommand line).2).2

def keyOf (line : Bytes) : Bytes := cstr (emailOf line)

def hashOf (P : Platform) (line : Bytes) : Bytes := passwordHash P (passwordOf line)

def accountCreated : Bytes := successReply "User registered successfully"

def loggedIn : Bytes := successReply "Login successful"

def passwordReset : Bytes := successReply "Password reset successful"

def missing : Bytes := errorReply 400 "Email or password is missing"

theorem cstr_hashOf (line : Bytes) : cstr (hashOf P line) = hashOf P line := by
  have hhex : ∀ n < 16, Json.hexDigit n ≠ 0 := by decide
  refine cstr_eq_self fun h => ?_
  obtain ⟨b, -, hb⟩ := List.mem_flatMap.mp h
  have hlow : b.toNat % 16 < 16 := Nat.mod_lt _ (by decide)
  have hhigh : b.toNat / 16 < 16 := by have := b.toNat_lt; omega
  simp only [List.mem_cons, List.not_mem_nil, or_false] at hb
  rcases hb with hb | hb
  · exact hhex _ hhigh hb.symm
  · exact hhex _ hlow hb.symm

/-- The account commands as they took effect: the line in service of each client, the
hash last stored for each key, what that was when a client last looked its key up,
and the keys whose REGISTER was answered with success. -/
structure Ledger (ι : Type) where
  line : ι → Bytes
  hash : Bytes → Option Bytes
  seen : ι → Option Bytes
  winners : List Bytes

namespace Ledger

variable {ι : Type} [DecidableEq ι]

def empty : Ledger ι := ⟨fun _ => [], fun _ => none, fun _ => none, []⟩

def store (l : Ledger ι) (i : ι) (hash : Bytes) : Ledger ι :=
  { l with hash := Function.update l.hash (keyOf (l.line i)) (some hash) }

def record (l : Ledger ι) (i : ι) : Event (Res (P := P)) → Ledger ι
  | ⟨.received line, _⟩ =>
      { l with line := Function.update l.line i line, seen := Function.update l.seen i none }
  | ⟨.selectUserByEmail _, _⟩ =>
      { l with seen := Function.update l.seen i (l.hash (keyOf (l.line i))) }
  | ⟨.insertUser _ hash _, true⟩ => l.store i hash
  | ⟨.updatePassword hash _, true⟩ => l.store i hash
  | ⟨.sslWrite reply, _⟩ =>
      if reply = terminate accountCreated then { l with winners := l.winners ++ [keyOf (l.line i)] }
      else l
  | _ => l

end Ledger

inductive Stage
  | idle
  | started (line : Bytes)
  | looked (line : Bytes) (row : Option UserRow)
  | stored (line : Bytes) (ok : Bool)

def Stage.reply (P : Platform) : Stage → Option Bytes
  | idle => none
  | started line =>
      if emailOf line = [] ∨ passwordOf line = [] then some missing else none
  | looked line row =>
      match accountCommand line, row with
      | some .register, some _ => some (errorReply 409 "Email already exists")
      | some .login, none => some (errorReply 404 "User not found")
      | some .login, some row =>
          if cstr row.passwordHash = hashOf P line then some loggedIn
          else some (errorReply 401 "Invalid email or password")
      | some .resetPassword, none => some (errorReply 404 "User not found")
      | _, _ => none
  | stored line ok =>
      match accountCommand line with
      | some .register =>
          some (if ok then accountCreated else errorReply 500 "Failed to create user")
      | some .resetPassword =>
          some (if ok then passwordReset else errorReply 500 "Failed to reset password")
      | _ => none

/-- Look up, then store what the command asks for, then reply. -/
def accountMonitor (P : Platform) : Monitor (Res (P := P)) Stage where
  admits
    | .idle, .sslReadChar => True
    | .idle, .received _ => True
    | .started line, .selectUserByEmail key =>
        key = keyOf line ∧ emailOf line ≠ [] ∧ passwordOf line ≠ []
    | .looked line row, .time => accountCommand line = some .register ∧ row = none
    | .looked line row, .insertUser key hash _ =>
        accountCommand line = some .register ∧ row = none ∧ key = keyOf line ∧ hash = hashOf P line
    | .looked line row, .updatePassword hash id =>
        accountCommand line = some .resetPassword ∧ hash = hashOf P line ∧
          ∃ r, row = some r ∧ id = columnInt r.id
    | g, .sslWrite b => ∃ s, g.reply P = some s ∧ b = terminate s
    | _, _ => False
  expects
    | _, .received line, _ => accountCommand line ≠ none
    | _, _, _ => True
  next
    | _, .received line, _ => .started line
    | .started line, .selectUserByEmail _, row => .looked line row
    | .looked line _, .insertUser _ _ _, ok => .stored line ok
    | .looked line _, .updatePassword _ _, ok => .stored line ok
    | _, .sslWrite _, _ => .idle
    | g, _, _ => g

section Handlers

variable (line : Bytes)

theorem handleRegister_eq : handleRegister (P := P) (splitCommand line).2 =
    if emailOf line = [] ∨ passwordOf line = [] then .ret missing
    else .call (.selectUserByEmail (keyOf line)) fun row =>
      match row with
      | some _ => .ret (errorReply 409 "Email already exists")
      | none => .call .time fun t =>
          .call (.insertUser (keyOf line) (hashOf P line) (cstr (P.putTime t))) fun ok =>
            if ok then .ret accountCreated else .ret (errorReply 500 "Failed to create user") := by
  rw [← cstr_hashOf]
  unfold handleRegister
  refine if_congr (P := emailOf line = [] ∨ passwordOf line = []) Iff.rfl rfl
    (congrArg (Prog.call _) (funext fun row => ?_))
  cases row <;> rfl

theorem handleLogin_eq : handleLogin (P := P) (splitCommand line).2 =
    if emailOf line = [] ∨ passwordOf line = [] then .ret missing
    else .call (.selectUserByEmail (keyOf line)) fun row =>
      match row with
      | none => .ret (errorReply 404 "User not found")
      | some row =>
          if cstr row.passwordHash ≠ hashOf P line then
            .ret (errorReply 401 "Invalid email or password")
          else .ret loggedIn := by
  unfold handleLogin
  refine if_congr (P := emailOf line = [] ∨ passwordOf line = []) Iff.rfl rfl
    (congrArg (Prog.call _) (funext fun row => ?_))
  cases row <;> rfl

theorem handleResetPassword_eq : handleResetPassword (P := P) (splitCommand line).2 =
    if emailOf line = [] ∨ passwordOf line = [] then .ret missing
    else .call (.selectUserByEmail (keyOf line)) fun row =>
      match row with
      | none => .ret (errorReply 404 "User not found")
      | some row => .call (.updatePassword (hashOf P line) (columnInt row.id)) fun ok =>
          if ok then .ret passwordReset else .ret (errorReply 500 "Failed to reset password") := by
  rw [← cstr_hashOf]
  unfold handleResetPassword
  refine if_congr (P := emailOf line = [] ∨ passwordOf line = []) Iff.rfl rfl
    (congrArg (Prog.call _) (funext fun row => ?_))
  cases row <;> rfl

end Handlers

section Safe

variable {line : Bytes}

theorem accountCommand_cases (h : accountCommand line ≠ none) :
    (accountCommand line = some .register ∧ (splitCommand line).1 = ascii "REGISTER") ∨
    (accountCommand line = some .login ∧ (splitCommand line).1 = ascii "LOGIN") ∨
    (accountCommand line = some .resetPassword ∧
      (splitCommand line).1 = ascii "RESET_PASSWORD") := by
  unfold accountCommand at h ⊢
  split_ifs at h ⊢ <;> simp_all

end Safe

inductive AccountStep (P : Platform) (u : Users) : Stage → Event (Res (P := P)) → Users → Prop
  | read {r : Option UInt8} : AccountStep P u .idle ⟨.sslReadChar, r⟩ u
  | received {line : Bytes} (account : accountCommand line ≠ none) :
      AccountStep P u .idle ⟨.received line, ()⟩ u
  | lookup {line : Bytes} (email : emailOf line ≠ []) (password : passwordOf line ≠ []) :
      AccountStep P u (.started line)
        ⟨.selectUserByEmail (keyOf line), u.selectByEmail (keyOf line)⟩ u
  | time {line : Bytes} {t : ℕ} (register : accountCommand line = some .register) :
      AccountStep P u (.looked line none) ⟨.time, t⟩ u
  | inserted {line createdAt : Bytes} {u' : Users}
      (register : accountCommand line = some .register)
      (insert : u.insert (keyOf line) (hashOf P line) createdAt = some u') :
      AccountStep P u (.looked line none)
        ⟨.insertUser (keyOf line) (hashOf P line) createdAt, true⟩ u'
  | notInserted {line createdAt : Bytes} (register : accountCommand line = some .register) :
      AccountStep P u (.looked line none)
        ⟨.insertUser (keyOf line) (hashOf P line) createdAt, false⟩ u
  | updated {line : Bytes} {row : UserRow} (reset : accountCommand line = some .resetPassword) :
      AccountStep P u (.looked line (some row))
        ⟨.updatePassword (hashOf P line) (columnInt row.id), true⟩
        (u.updatePassword (hashOf P line) (columnInt row.id))
  | notUpdated {line : Bytes} {row : UserRow} (reset : accountCommand line = some .resetPassword) :
      AccountStep P u (.looked line (some row))
        ⟨.updatePassword (hashOf P line) (columnInt row.id), false⟩ u
  | replied {g : Stage} {s : Bytes} {r : Bool} (due : g.reply P = some s) :
      AccountStep P u g ⟨.sslWrite (terminate s), r⟩ u

namespace World

/-- A lookup of a user finds the row that is there. Everything else may fail. -/
def Finding : Call P → Outcome → Prop
  | .selectUserByEmail _, w => w.failed = false
  | _, _ => True

theorem Finding.of_faultless (o : Call P) (w : Outcome) (h : w.failed = false) : Finding o w := by
  cases o <;> first | exact h | trivial

end World

section Agreement

variable {ι : Type} [DecidableEq ι] {u u' : Users} {l l' : Ledger ι} {g : ι → Stage} {i : ι}
  {g' : Stage}

def Tracks (u : Users) (l : Ledger ι) (i : ι) : Stage → Prop
  | .idle => True
  | .started line => l.line i = line ∧ l.seen i = none
  | .looked line row => l.line i = line ∧ l.seen i = row.map (·.passwordHash) ∧
      (emailOf line ≠ [] ∧ passwordOf line ≠ []) ∧
      ∀ r, row = some r → cstr r.passwordHash = r.passwordHash ∧
        ∃ r' ∈ u.rows, r'.id = r.id ∧ r'.email = keyOf line
  | .stored line _ => l.line i = line

/-- The client has stored a new user and not said so yet. -/
def Claims (g : Stage) (key : Bytes) : Prop :=
  ∃ line, g = .stored line true ∧ accountCommand line = some .register ∧ keyOf line = key

/-- The table holds what the ledger says, and every key has one REGISTER that was
answered with success or is about to be, at most. -/
structure Agrees (u : Users) (l : Ledger ι) (g : ι → Stage) : Prop where
  table : u.WellFormed
  account : u.account = l.hash
  tracks : ∀ i, Tracks u l i (g i)
  nodup : l.winners.Nodup
  won : ∀ k ∈ l.winners, u.account k ≠ none
  claimed : ∀ i k, Claims (g i) k → u.account k ≠ none ∧ k ∉ l.winners
  unique : ∀ i j k, Claims (g i) k → Claims (g j) k → i = j

omit [DecidableEq ι] in
theorem Tracks.congr {j : ι} (h : Tracks u l j g') (hline : l'.line j = l.line j)
    (hseen : l'.seen j = l.seen j)
    (hrows : ∀ r ∈ u.rows, ∃ r' ∈ u'.rows, r'.id = r.id ∧ r'.email = r.email) :
    Tracks u' l' j g' := by
  cases g' with
  | idle => trivial
  | started line => exact ⟨hline.trans h.1, hseen.trans h.2⟩
  | looked line row =>
    refine ⟨hline.trans h.1, hseen.trans h.2.1, h.2.2.1, fun r hr => ⟨(h.2.2.2 r hr).1, ?_⟩⟩
    obtain ⟨r', hr', hid, he⟩ := (h.2.2.2 r hr).2
    obtain ⟨r'', hr'', hid', he'⟩ := hrows r' hr'
    exact ⟨r'', hr'', hid'.trans hid, he'.trans he⟩
  | stored line ok => exact hline.trans h

theorem Agrees.move (h : Agrees u l g) (hhash : l'.hash = l.hash) (hwin : l'.winners = l.winners)
    (hother : ∀ j ≠ i, l'.line j = l.line j ∧ l'.seen j = l.seen j) (ht : Tracks u l' i g')
    (hc : ∀ k, ¬ Claims g' k) : Agrees u l' (Function.update g i g') := by
  have hclaims : ∀ j k, Claims (Function.update g i g' j) k → Claims (g j) k := by
    intro j k hj
    by_cases hji : j = i
    · subst hji
      rw [Function.update_self] at hj
      exact absurd hj (hc k)
    · rwa [Function.update_of_ne hji] at hj
  refine ⟨h.table, h.account.trans hhash.symm, ?_, hwin ▸ h.nodup, hwin ▸ h.won,
    fun j k hj => hwin ▸ h.claimed j k (hclaims j k hj),
    unique_update h.unique fun j k _ _ => hc k⟩
  refine (Function.forall_update_iff g fun j s => Tracks u l' j s).mpr ⟨ht, fun j hj => ?_⟩
  exact (h.tracks j).congr (hother j hj).1 (hother j hj).2 fun r hr => ⟨r, hr, rfl, rfl⟩

theorem Agrees.store (h : Agrees u l g) {line hash : Bytes} (hline : l.line i = line)
    (hu' : u'.WellFormed)
    (hacc : u'.account = Function.update u.account (keyOf line) (some hash))
    (hrows : ∀ r ∈ u.rows, ∃ r' ∈ u'.rows, r'.id = r.id ∧ r'.email = r.email)
    (hnew : accountCommand line = some .register → u.account (keyOf line) = none) :
    Agrees u' (l.store i hash) (Function.update g i (.stored line true)) := by
  have hkeep : ∀ k, u.account k ≠ none → u'.account k ≠ none := by
    intro k hk
    rw [hacc]
    by_cases hkey : k = keyOf line
    · subst hkey
      simp
    · rwa [Function.update_of_ne hkey]
  -- the claim of this client is new, and its account is there by now
  have hmine : ∀ k, Claims (.stored line true) k → u.account k = none ∧ u'.account k ≠ none := by
    rintro k ⟨line', hg, hreg, rfl⟩
    cases hg
    refine ⟨hnew hreg, ?_⟩
    rw [hacc]
    simp
  refine ⟨hu', ?_, ?_, h.nodup, fun k hk => hkeep k (h.won k hk), ?_, ?_⟩
  · rw [hacc, h.account, ← hline]
    rfl
  · exact (Function.forall_update_iff g fun j s => Tracks u' (l.store i hash) j s).mpr
      ⟨hline, fun j _ => (h.tracks j).congr rfl rfl hrows⟩
  · exact (Function.forall_update_iff g fun _ s => ∀ k, Claims s k →
      u'.account k ≠ none ∧ k ∉ l.winners).mpr
        ⟨fun k hk => ⟨(hmine k hk).2, fun hwon => h.won k hwon (hmine k hk).1⟩,
          fun j _ k hk => ⟨hkeep k (h.claimed j k hk).1, (h.claimed j k hk).2⟩⟩
  · exact unique_update h.unique fun j k _ hj hk => (h.claimed j k hj).1 (hmine k hk).1

theorem Agrees.win (h : Agrees u l g) {line : Bytes} (hg : g i = .stored line true)
    (hreg : accountCommand line = some .register) :
    Agrees u { l with winners := l.winners ++ [keyOf (l.line i)] } (Function.update g i .idle) := by
  have hline : l.line i = line := by simpa [hg, Tracks] using h.tracks i
  have hmine : Claims (g i) (keyOf (l.line i)) := ⟨line, hg, hreg, by rw [hline]⟩
  obtain ⟨hacc, hnot⟩ := h.claimed i _ hmine
  -- this client has no claim any more, the others keep theirs
  have hclaims : ∀ j k, Claims (Function.update g i .idle j) k → j ≠ i ∧ Claims (g j) k := by
    intro j k hj
    by_cases hji : j = i
    · subst hji
      rw [Function.update_self] at hj
      obtain ⟨line', hj, -⟩ := hj
      cases hj
    · rw [Function.update_of_ne hji] at hj
      exact ⟨hji, hj⟩
  refine ⟨h.table, h.account, ?_, ?_, fun k hk => ?_, fun j k hj => ?_,
    fun j j' k hj hj' => h.unique j j' k (hclaims j k hj).2 (hclaims j' k hj').2⟩
  · exact (Function.forall_update_iff g fun j s => Tracks u _ j s).mpr
      ⟨trivial, fun j _ => (h.tracks j).congr rfl rfl fun r hr => ⟨r, hr, rfl, rfl⟩⟩
  · rw [List.nodup_append]
    refine ⟨h.nodup, by simp, fun a ha b hb hab => hnot ?_⟩
    rwa [← List.mem_singleton.mp hb, ← hab]
  · rcases List.mem_append.mp hk with hk | hk
    · exact h.won k hk
    · rwa [List.mem_singleton.mp hk]
  · obtain ⟨hji, hj⟩ := hclaims j k hj
    refine ⟨(h.claimed j k hj).1, fun hk => ?_⟩
    rcases List.mem_append.mp hk with hk | hk
    · exact (h.claimed j k hj).2 hk
    · rw [List.mem_singleton.mp hk] at hj
      exact hji (h.unique j i _ hj hmine)

theorem reply_accountCreated {g : Stage} {s : Bytes} (hs : g.reply P = some s)
    (h : terminate s = terminate accountCreated) :
    ∃ line, g = .stored line true ∧ accountCommand line = some .register := by
  have hne : ∀ t ∈ [missing, errorReply 409 "Email already exists", errorReply 404 "User not found",
      loggedIn, errorReply 401 "Invalid email or password", passwordReset,
      errorReply 500 "Failed to create user", errorReply 500 "Failed to reset password"],
      terminate t ≠ terminate accountCreated := by decide
  simp only [List.mem_cons, List.not_mem_nil, or_false, forall_eq_or_imp, forall_eq] at hne
  obtain ⟨h₁, h₂, h₃, h₄, h₅, h₆, h₇, h₈⟩ := hne
  -- each stage has its replies, and no other of them has this text
  cases g with
  | idle => cases hs
  | started line =>
    simp only [Stage.reply] at hs
    split at hs <;> cases hs
    exact absurd h h₁
  | looked line row =>
    simp only [Stage.reply] at hs
    split at hs
    · cases hs
      exact absurd h h₂
    · cases hs
      exact absurd h h₃
    · split at hs <;> cases hs
      · exact absurd h h₄
      · exact absurd h h₅
    · cases hs
      exact absurd h h₃
    · cases hs
  | stored line ok =>
    simp only [Stage.reply] at hs
    split at hs
    · rename_i hreg
      cases hs
      cases ok with
      | true => exact ⟨line, rfl, hreg⟩
      | false => exact absurd h h₇
    · cases hs
      cases ok with
      | true => exact absurd h h₆
      | false => exact absurd h h₈
    · cases hs

omit [DecidableEq ι] in
theorem Tracks.found {line : Bytes} {row : UserRow} (h : Tracks u l i (.looked line (some row)))
    (hu : u.WellFormed) (hids : u.seq < 2 ^ 31) :
    ∃ row' ∈ u.rows, row'.email = keyOf line ∧ columnInt row.id = row'.id := by
  obtain ⟨-, row', hrow', hid, hemail⟩ := h.2.2.2 row rfl
  have := hu.id_le hrow'
  exact ⟨row', hrow', hemail, by rw [hid, columnInt_of_lt (by omega)]⟩

theorem Agrees.step (h : Agrees u l g) (hids : u.seq < 2 ^ 31) {o : Call P} {r : Res o}
    (hstep : AccountStep P u (g i) ⟨o, r⟩ u') :
    Agrees u' (l.record i ⟨o, r⟩)
      (Function.update g i ((accountMonitor P).next (g i) o r)) := by
  have ht := h.tracks i
  generalize hg : g i = stage at hstep ht ⊢
  -- reading and looking move the client, the two statements store a hash
  cases hstep with
  | read => exact h.move rfl rfl (fun _ _ => ⟨rfl, rfl⟩) trivial nofun
  | received hc =>
    refine h.move rfl rfl (fun j hj => ?_) ⟨?_, ?_⟩ nofun
    · simp [Ledger.record, hj]
    · simp [Ledger.record]
    · simp [Ledger.record]
  | @lookup line he hp =>
    refine h.move rfl rfl (fun j hj => ?_) ⟨ht.1, ?_, ⟨he, hp⟩, fun row hrow => ?_⟩ nofun
    · simp [Ledger.record, hj]
    · simp only [Ledger.record, Function.update_self, ← h.account, ht.1]
      rfl
    · obtain ⟨hm, hemail⟩ := Users.mem_of_selectByEmail hrow
      exact ⟨h.table.clean row hm, row, hm, rfl, hemail⟩
  | time hreg => exact h.move rfl rfl (fun _ _ => ⟨rfl, rfl⟩) ht nofun
  | @inserted line createdAt _ hreg hins =>
    obtain ⟨hnone, hu'⟩ := Users.insert_some hins
    refine h.store ht.1 (h.table.insert (cstr_hashOf line) hins) (Users.account_insert hins)
      (fun row hrow => ⟨row, ?_, rfl, rfl⟩) fun _ => hnone
    rw [hu']
    exact List.mem_append_left _ hrow
  | notInserted hreg =>
    exact h.move rfl rfl (fun _ _ => ⟨rfl, rfl⟩) ht.1 fun k ⟨_, hk, _⟩ => by cases hk
  | @updated line row hreset =>
    obtain ⟨row', hrow', hemail, hcol⟩ := ht.found h.table hids
    rw [hcol]
    refine h.store ht.1 (h.table.updatePassword (cstr_hashOf line) _) ?_ (fun r hr => ?_)
      fun hreg => ?_
    · rw [← hemail]
      exact h.table.account_updatePassword hrow' _
    · refine ⟨_, List.mem_map_of_mem hr, ?_, ?_⟩ <;> split <;> rfl
    · rw [hreset] at hreg
      cases hreg
  | notUpdated hreset =>
    exact h.move rfl rfl (fun _ _ => ⟨rfl, rfl⟩) ht.1 fun k ⟨_, hk, _⟩ => by cases hk
  | @replied _ s r hs =>
    have hnext : (accountMonitor P).next stage (.sslWrite (terminate s)) r = .idle := by
      cases stage <;> rfl
    rw [hnext]
    by_cases hwin : terminate s = terminate accountCreated
    · obtain ⟨line, hstage, hreg⟩ := reply_accountCreated hs hwin
      have := h.win (hg.trans hstage) hreg
      simpa [Ledger.record, hwin] using this
    · have hrec : l.record i (⟨.sslWrite (terminate s), r⟩ : Event (Res (P := P))) = l := by
        simp [Ledger.record, hwin]
      rw [hrec]
      exact h.move rfl rfl (fun _ _ => ⟨rfl, rfl⟩) trivial nofun

end Agreement

section Clients

variable {ι : Type} [DecidableEq ι] {c₀ c : Clients P ι (Option Bool)}

end Clients

end CctvServer
