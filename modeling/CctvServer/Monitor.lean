import CctvServer.Interleaving

namespace CctvServer

/-- What a program may do in a ghost state: the calls it may make, the answers
it relies on, and the ghost state after a call. -/
structure Monitor {Op : Type} (Res : Op → Type) (γ : Type) where
  admits : γ → Op → Prop
  expects : γ → (o : Op) → Res o → Prop
  next : γ → (o : Op) → Res o → γ

namespace Monitor

variable {Op : Type} {Res : Op → Type} {γ : Type}

def after (M : Monitor Res γ) (g : γ) (tr : List (Event Res)) : γ :=
  tr.foldl (fun g e => M.next g e.1 e.2) g

@[simp] theorem after_nil (M : Monitor Res γ) (g : γ) : M.after g [] = g := rfl

@[simp] theorem after_cons (M : Monitor Res γ) (g : γ) (e : Event Res) (tr : List (Event Res)) :
    M.after g (e :: tr) = M.after (M.next g e.1 e.2) tr := rfl

theorem after_snoc (M : Monitor Res γ) (g : γ) (tr : List (Event Res)) (e : Event Res) :
    M.after g (tr ++ [e]) = M.next (M.after g tr) e.1 e.2 := by
  simp [after]

def sum {δ : Type} (M : Monitor Res γ) (N : Monitor Res δ) : Monitor Res (γ ⊕ δ) where
  admits g o := g.elim (M.admits · o) (N.admits · o)
  expects g o r := g.elim (M.expects · o r) (N.expects · o r)
  next g o r := g.map (M.next · o r) (N.next · o r)

end Monitor

namespace Prog

variable {Op : Type} {Res : Op → Type} {α β γ : Type} {M : Monitor Res γ}

/-- From ghost state `g` on the program makes only calls the monitor admits, as
long as the answers are those it relies on; it returns in `Q` and throws in `T`. -/
def Safe (M : Monitor Res γ) (Q : γ → α → Prop) (T : γ → Prop) : Prog Res α → γ → Prop
  | ret a, g => Q g a
  | throw, g => T g
  | call o k, g => M.admits g o ∧ ∀ r, M.expects g o r → (k r).Safe M Q T (M.next g o r)

variable {Q Q' : γ → α → Prop} {T T' : γ → Prop} {g : γ}

@[simp] theorem safe_ret {a : α} : (ret a : Prog Res α).Safe M Q T g ↔ Q g a := Iff.rfl

@[simp] theorem safe_throw : (throw : Prog Res α).Safe M Q T g ↔ T g := Iff.rfl

theorem safe_call {o : Op} {k : Res o → Prog Res α} : (call o k).Safe M Q T g ↔
    M.admits g o ∧ ∀ r, M.expects g o r → (k r).Safe M Q T (M.next g o r) := Iff.rfl

theorem safe_bind {p : Prog Res α} {f : α → Prog Res β} {R : γ → β → Prop} :
    (p >>= f).Safe M R T g ↔ p.Safe M (fun g a => (f a).Safe M R T g) T g := by
  induction p generalizing g with
  | ret a => exact Iff.rfl
  | throw => exact Iff.rfl
  | call o k ih =>
    exact and_congr_right fun _ => forall_congr' fun r => imp_congr_right fun _ => ih r

theorem Safe.mono {p : Prog Res α} (h : p.Safe M Q T g) (hQ : ∀ g a, Q g a → Q' g a)
    (hT : ∀ g, T g → T' g) : p.Safe M Q' T' g := by
  induction p generalizing g with
  | ret a => exact hQ g a h
  | throw => exact hT g h
  | call o k ih => exact ⟨h.1, fun r hr => ih r (h.2 r hr)⟩

theorem Safe.sum_left {δ : Type} {N : Monitor Res δ} {R : δ → α → Prop} {U : δ → Prop}
    {p : Prog Res α}
    (h : p.Safe M Q T g) :
    p.Safe (M.sum N) (fun g a => g.elim (Q · a) (R · a)) (fun g => g.elim T U) (.inl g) := by
  induction p generalizing g with
  | ret a => exact h
  | throw => exact h
  | call o k ih => exact ⟨h.1, fun r hr => ih r (h.2 r hr)⟩

theorem Safe.sum_right {δ : Type} {N : Monitor Res δ} {R : δ → α → Prop} {U : δ → Prop}
    {p : Prog Res α}
    (h : p.Safe M Q T g) :
    p.Safe (N.sum M) (fun g a => g.elim (R · a) (Q · a)) (fun g => g.elim U T) (.inr g) := by
  induction p generalizing g with
  | ret a => exact h
  | throw => exact h
  | call o k ih => exact ⟨h.1, fun r hr => ih r (h.2 r hr)⟩

theorem Safe.of_calls {C : Op → Prop} {p : Prog Res α} (hp : p.Calls C) (hr : p.Returns (Q g))
    (hT : T g) (hC : ∀ o, C o → M.admits g o ∧ ∀ r, M.next g o r = g) : p.Safe M Q T g := by
  induction p with
  | ret a => exact hr
  | throw => exact hT
  | call o k ih =>
    obtain ⟨ha, hn⟩ := hC o hp.1
    refine ⟨ha, fun r _ => ?_⟩
    rw [hn r]
    exact ih r (hp.2 r) (hr r)

/-- A complete run whose answers are as expected ends in `Q` or `T`. -/
theorem Safe.of_runs {σ : Type} {E : Env Res σ} {I : σ → γ → Prop} {p : Prog Res α} {s s' : σ}
    {tr : List (Event Res)} {x : Option α} (h : p.Safe M Q T g) (hi : I s g)
    (hE : ∀ s g o r s', I s g → M.admits g o → E o s r s' →
      M.expects g o r ∧ I s' (M.next g o r))
    (hr : Runs E p s tr x s') :
    I s' (M.after g tr) ∧ (∀ a, x = some a → Q (M.after g tr) a) ∧
      (x = none → T (M.after g tr)) := by
  induction p generalizing s g tr with
  | ret a =>
    obtain ⟨rfl, rfl, rfl⟩ := hr
    refine ⟨hi, fun b hb => ?_, nofun⟩
    cases hb
    exact h
  | throw =>
    obtain ⟨rfl, rfl, rfl⟩ := hr
    exact ⟨hi, nofun, fun _ => h⟩
  | call o k ih =>
    obtain ⟨r, s₁, tr', he, hk, rfl⟩ := hr
    obtain ⟨hx, hi'⟩ := hE s g o r s₁ hi h.1 he
    have hend := ih r (h.2 r hx) hi' hk
    exact hend

end Prog

namespace Config

variable {Op : Type} {Res : Op → Type} {S L ι α γ : Type} [DecidableEq ι]
  {E : Env Res (S × L)} {ok : Config Res S L ι α → ι → Event Res → Prop}
  {c₀ c : Config Res S L ι α} {Q : ι → γ → α → Prop} {T : ι → γ → Prop}

def ghosts (M : Monitor Res γ) (g₀ : ι → γ) (c : Config Res S L ι α) : ι → γ :=
  fun i => M.after (g₀ i) (c.log i)

theorem ghosts_advance (M : Monitor Res γ) (g₀ : ι → γ) (c : Config Res S L ι α) (i : ι)
    (e : Event Res) (p : Prog Res α) (s : S × L) :
    (c.advance i e p s).ghosts M g₀ =
      Function.update (c.ghosts M g₀) i (M.next (c.ghosts M g₀ i) e.1 e.2) := by
  funext j
  by_cases h : j = i
  · subst h
    simp [ghosts, M.after_snoc]
  · simp [ghosts, h, advance_log_of_ne _ _ _ _ _ h]

/-- Threads that keep to a monitor maintain every invariant that its steps
maintain, whatever their programs are. -/
theorem Reach.monitored (M : Monitor Res γ) (g₀ : ι → γ)
    {I : Config Res S L ι α → (ι → γ) → Prop} (h : Reach E ok c₀ c) (htr : c₀.trace = [])
    (hp : ∀ i, (c₀.prog i).Safe M (Q i) (T i) (g₀ i)) (h₀ : I c₀ g₀)
    (hs : ∀ c g i o r s p, I c g → M.admits (g i) o → E o (c.shared, c.loc i) r s →
      ok c i ⟨o, r⟩ → g = c.ghosts M g₀ → M.expects (g i) o r ∧
        I (c.advance i ⟨o, r⟩ p s) (Function.update g i (M.next (g i) o r))) :
    (∀ i, (c.prog i).Safe M (Q i) (T i) (c.ghosts M g₀ i)) ∧ I c (c.ghosts M g₀) := by
  have hinit : c₀.ghosts M g₀ = g₀ := by
    funext i
    simp [ghosts, log, htr]
  refine h.invariant
    (I := fun c => (∀ i, (c.prog i).Safe M (Q i) (T i) (c.ghosts M g₀ i)) ∧ I c (c.ghosts M g₀))
    ?_ ?_
  · rw [hinit]
    exact ⟨hp, h₀⟩
  · rintro c i e c' - ⟨hsafe, hI⟩ hstep hok
    obtain ⟨o, k, r, s, hprog, he, rfl, rfl⟩ := hstep.inv
    have hi := hsafe i
    rw [hprog] at hi
    obtain ⟨hx, hI'⟩ := hs c _ i o r s (k r) hI hi.1 he hok rfl
    rw [ghosts_advance]
    refine ⟨fun j => ?_, hI'⟩
    by_cases hj : j = i
    · subst hj
      simpa using hi.2 r hx
    · simpa [hj, advance_prog_of_ne _ _ _ _ _ hj] using hsafe j

/-- The same for what each thread has done and holds, next to what all of them share: a step
of a thread leaves the parts of the others alone. -/
theorem Reach.monitored_each (M : Monitor Res γ) (g₀ : ι → γ) {J : S → Prop}
    {I : ι → List (Event Res) → L → γ → Prop} (h : Reach E ok c₀ c) (htr : c₀.trace = [])
    (hp : ∀ i, (c₀.prog i).Safe M (Q i) (T i) (g₀ i)) (hJ : J c₀.shared)
    (h₀ : ∀ i, I i [] (c₀.loc i) (g₀ i))
    (hs : ∀ c i o r s, J c.shared → I i (c.log i) (c.loc i) (c.ghosts M g₀ i) →
      M.admits (c.ghosts M g₀ i) o → E o (c.shared, c.loc i) r s → ok c i ⟨o, r⟩ →
      M.expects (c.ghosts M g₀ i) o r ∧ J s.1 ∧
        I i (c.log i ++ [⟨o, r⟩]) s.2 (M.next (c.ghosts M g₀ i) o r)) :
    (∀ i, (c.prog i).Safe M (Q i) (T i) (c.ghosts M g₀ i)) ∧ J c.shared ∧
      ∀ i, I i (c.log i) (c.loc i) (c.ghosts M g₀ i) := by
  have hlog : ∀ i, c₀.log i = [] := fun i => by simp [log, htr]
  refine h.monitored M g₀ (I := fun c g => J c.shared ∧ ∀ i, I i (c.log i) (c.loc i) (g i)) htr hp
    ⟨hJ, fun i => by rw [hlog]; exact h₀ i⟩ ?_
  rintro c g i o r s p ⟨hshared, hI⟩ ha hE hok rfl
  obtain ⟨hexp, hnext, hlocal⟩ := hs c i o r s hshared (hI i) ha hE hok
  refine ⟨hexp, hnext, fun j => ?_⟩
  by_cases hj : j = i
  · subst hj
    rw [advance_log_self, advance_loc_self, Function.update_self]
    exact hlocal
  · rw [advance_log_of_ne _ _ _ _ _ hj, advance_loc_of_ne _ _ _ _ _ hj, Function.update_of_ne hj]
    exact hI j

end Config

end CctvServer
