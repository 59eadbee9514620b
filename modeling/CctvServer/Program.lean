import Mathlib.Data.Nat.Notation
import Mathlib.Tactic.Common

namespace CctvServer

/-- A program that calls an environment: `call o k` performs `o` and goes on
with its result. `throw` is an exception that nothing catches. -/
inductive Prog {Op : Type} (Res : Op → Type) (α : Type) : Type
  | ret (a : α) : Prog Res α
  | throw : Prog Res α
  | call (o : Op) (k : Res o → Prog Res α) : Prog Res α

abbrev Event {Op : Type} (Res : Op → Type) := (o : Op) × Res o

/-- What a call may answer, and the state it may leave. -/
abbrev Env {Op : Type} (Res : Op → Type) (σ : Type) := (o : Op) → σ → Res o → σ → Prop

/-- The environment whose calls are resolved by an outcome that `allowed` admits. -/
def Env.resolve {Op : Type} {Res : Op → Type} {σ Ω : Type}
    (answer : Ω → (o : Op) → σ → Res o × σ) (allowed : Op → Ω → Prop) : Env Res σ :=
  fun o s r s' => ∃ w, allowed o w ∧ answer w o s = (r, s')

namespace Prog

variable {Op : Type} {Res : Op → Type} {α β γ σ Ω : Type}

def bind : Prog Res α → (α → Prog Res β) → Prog Res β
  | ret a, f => f a
  | throw, _ => throw
  | call o k, f => call o fun r => (k r).bind f

instance : Monad (Prog Res) where
  pure := ret
  bind := bind

def perform (o : Op) : Prog Res (Res o) := call o ret

@[simp] theorem pure_eq (a : α) : (pure a : Prog Res α) = ret a := rfl

@[simp] theorem ret_bind (a : α) (f : α → Prog Res β) : ret a >>= f = f a := rfl

@[simp] theorem throw_bind (f : α → Prog Res β) : (throw : Prog Res α) >>= f = throw := rfl

@[simp] theorem call_bind (o : Op) (k : Res o → Prog Res α) (f : α → Prog Res β) :
    call o k >>= f = call o fun r => k r >>= f := rfl

@[simp] theorem perform_bind (o : Op) (f : Res o → Prog Res β) : perform o >>= f = call o f := rfl

theorem bind_assoc (p : Prog Res α) (f : α → Prog Res β) (g : β → Prog Res γ) :
    (p >>= f) >>= g = p >>= fun a => f a >>= g := by
  induction p with
  | ret a => rfl
  | throw => rfl
  | call o k ih => exact congrArg (call o) (funext ih)

/-- A complete run: the calls performed, in order, the result (`none` when an
exception leaves the program) and the state left behind. -/
def Runs (E : Env Res σ) : Prog Res α → σ → List (Event Res) → Option α → σ → Prop
  | ret a, s, tr, x, s' => tr = [] ∧ x = some a ∧ s' = s
  | throw, s, tr, x, s' => tr = [] ∧ x = none ∧ s' = s
  | call o k, s, tr, x, s' =>
      ∃ r s₁ tr', E o s r s₁ ∧ Runs E (k r) s₁ tr' x s' ∧ tr = ⟨o, r⟩ :: tr'

variable {E : Env Res σ} {s s' : σ} {tr : List (Event Res)}

@[simp] theorem runs_ret {a : α} {x : Option α} :
    Runs E (ret a) s tr x s' ↔ tr = [] ∧ x = some a ∧ s' = s := Iff.rfl

@[simp] theorem runs_throw {x : Option α} :
    Runs E (throw : Prog Res α) s tr x s' ↔ tr = [] ∧ x = none ∧ s' = s := Iff.rfl

@[simp] theorem runs_call {o : Op} {k : Res o → Prog Res α} {x : Option α} :
    Runs E (call o k) s tr x s' ↔
      ∃ r s₁ tr', E o s r s₁ ∧ Runs E (k r) s₁ tr' x s' ∧ tr = ⟨o, r⟩ :: tr' := Iff.rfl

/-- A run of `p >>= f` is a run of `p` that returns followed by a run of `f`,
or a run of `p` that throws. -/
theorem runs_bind {p : Prog Res α} {f : α → Prog Res β} {x : Option β} :
    Runs E (p >>= f) s tr x s' ↔
      (∃ a s₁ tr₁ tr₂, Runs E p s tr₁ (some a) s₁ ∧ Runs E (f a) s₁ tr₂ x s' ∧ tr = tr₁ ++ tr₂) ∨
      (x = none ∧ Runs E p s tr none s') := by
  induction p generalizing s tr with
  | ret a => simp
  | throw =>
    constructor
    · rintro ⟨ht, hx, hs⟩
      exact .inr ⟨hx, ht, rfl, hs⟩
    · rintro (⟨a, s₁, tr₁, tr₂, ⟨-, hx, -⟩, -⟩ | ⟨hx, ht, -, hs⟩)
      · cases hx
      · exact ⟨ht, hx, hs⟩
  | call o k ih =>
    simp only [call_bind, runs_call, ih]
    constructor
    · rintro ⟨r, s₁, tr', he, ⟨a, s₂, tr₁, tr₂, hp, hf, rfl⟩ | ⟨hx, hp⟩, rfl⟩
      · exact .inl ⟨a, s₂, ⟨o, r⟩ :: tr₁, tr₂, ⟨r, s₁, tr₁, he, hp, rfl⟩, hf, rfl⟩
      · exact .inr ⟨hx, r, s₁, tr', he, hp, rfl⟩
    · rintro (⟨a, s₂, _, tr₂, ⟨r, s₁, tr', he, hp, rfl⟩, hf, rfl⟩ | ⟨hx, r, s₁, tr', he, hp, rfl⟩)
      · exact ⟨r, s₁, tr' ++ tr₂, he, .inl ⟨a, s₂, tr', tr₂, hp, hf, rfl⟩, rfl⟩
      · exact ⟨r, s₁, tr', he, .inr ⟨hx, hp⟩, rfl⟩

theorem Runs.mono {E' : Env Res σ} {p : Prog Res α} {x : Option α}
    (hE : ∀ o s r s', E o s r s' → E' o s r s') (h : Runs E p s tr x s') : Runs E' p s tr x s' := by
  induction p generalizing s tr with
  | ret a => exact h
  | throw => exact h
  | call o k ih =>
    obtain ⟨r, s₁, tr', he, hk, rfl⟩ := h
    exact ⟨r, s₁, tr', hE _ _ _ _ he, ih r hk, rfl⟩

theorem Runs.call_mono {o : Op} {k k' : Res o → Prog Res α} {x : Option α}
    (hk : ∀ r s₁ tr', Runs E (k r) s₁ tr' x s' → Runs E (k' r) s₁ tr' x s')
    (h : Runs E (call o k) s tr x s') : Runs E (call o k') s tr x s' := by
  obtain ⟨r, s₁, tr', he, hr, rfl⟩ := h
  exact ⟨r, s₁, tr', he, hk r s₁ tr' hr, rfl⟩

def Returns (Q : α → Prop) : Prog Res α → Prop
  | ret a => Q a
  | throw => True
  | call _ k => ∀ r, (k r).Returns Q

def Calls (C : Op → Prop) : Prog Res α → Prop
  | ret _ => True
  | throw => True
  | call o k => C o ∧ ∀ r, (k r).Calls C

@[simp] theorem returns_ret {Q : α → Prop} {a : α} : (ret a : Prog Res α).Returns Q ↔ Q a := Iff.rfl

@[simp] theorem returns_throw {Q : α → Prop} : (throw : Prog Res α).Returns Q ↔ True := Iff.rfl

@[simp] theorem returns_call {Q : α → Prop} {o : Op} {k : Res o → Prog Res α} :
    (call o k).Returns Q ↔ ∀ r, (k r).Returns Q := Iff.rfl

@[simp] theorem calls_ret {C : Op → Prop} {a : α} : (ret a : Prog Res α).Calls C ↔ True := Iff.rfl

@[simp] theorem calls_throw {C : Op → Prop} : (throw : Prog Res α).Calls C ↔ True := Iff.rfl

@[simp] theorem calls_call {C : Op → Prop} {o : Op} {k : Res o → Prog Res α} :
    (call o k).Calls C ↔ C o ∧ ∀ r, (k r).Calls C := Iff.rfl

theorem calls_bind {C : Op → Prop} {p : Prog Res α} {f : α → Prog Res β}
    (hp : p.Calls C) (hf : ∀ a, (f a).Calls C) : (p >>= f).Calls C := by
  induction p with
  | ret a => exact hf a
  | throw => trivial
  | call o k ih => exact ⟨hp.1, fun r => ih r (hp.2 r)⟩

theorem Calls.mono {C C' : Op → Prop} {p : Prog Res α} (h : p.Calls C) (hC : ∀ o, C o → C' o) :
    p.Calls C' := by
  induction p with
  | ret a => trivial
  | throw => trivial
  | call o k ih => exact ⟨hC o h.1, fun r => ih r (h.2 r)⟩

theorem calls_perform {C : Op → Prop} {o : Op} (h : C o) :
    (perform o : Prog Res (Res o)).Calls C := ⟨h, fun _ => trivial⟩

theorem calls_ite {C : Op → Prop} {b : Prop} [Decidable b] {p q : Prog Res α} (hp : p.Calls C)
    (hq : q.Calls C) : (if b then p else q).Calls C := by
  split
  · exact hp
  · exact hq

theorem Returns.of_forall {Q : α → Prop} {p : Prog Res α} (h : ∀ a, Q a) : p.Returns Q := by
  induction p with
  | ret a => exact h a
  | throw => trivial
  | call o k ih => exact ih

theorem Calls.frame {C : Op → Prop} {p : Prog Res α} {x : Option α} {τ : Type} (view : σ → τ)
    (h : p.Calls C) (hE : ∀ o, C o → ∀ s r s', E o s r s' → view s' = view s)
    (hr : Runs E p s tr x s') : view s' = view s := by
  induction p generalizing s tr with
  | ret a => rw [hr.2.2]
  | throw => rw [hr.2.2]
  | call o k ih =>
    obtain ⟨r, s₁, tr', he, hk, rfl⟩ := hr
    exact (ih r (h.2 r) hk).trans (hE o h.1 _ _ _ he)

theorem Calls.of_runs {C : Op → Prop} {p : Prog Res α} {x : Option α} (h : p.Calls C)
    (hr : Runs E p s tr x s') : ∀ e ∈ tr, C e.1 := by
  induction p generalizing s tr with
  | ret a => simp [hr.1]
  | throw => simp [hr.1]
  | call o k ih =>
    obtain ⟨r, s₁, tr', -, hk, rfl⟩ := hr
    intro e he
    rcases List.mem_cons.mp he with rfl | he
    · exact h.1
    · exact ih r (h.2 r) hk e he

/-- A change of the state that the calls carry through carries through the run. -/
theorem Calls.carry {C : Op → Prop} {p : Prog Res α} {x : Option α} (f : σ → σ) (h : p.Calls C)
    (hE : ∀ o, C o → ∀ s r s', E o s r s' → E o (f s) r (f s')) (hr : Runs E p s tr x s') :
    Runs E p (f s) tr x (f s') := by
  induction p generalizing s tr with
  | ret a => exact ⟨hr.1, hr.2.1, congrArg f hr.2.2⟩
  | throw => exact ⟨hr.1, hr.2.1, congrArg f hr.2.2⟩
  | call o k ih =>
    obtain ⟨r, s₁, tr', he, hk, rfl⟩ := hr
    exact ⟨r, f s₁, tr', hE o h.1 _ _ _ he, ih r (h.2 r) hk, rfl⟩

def AtMost : Prog Res α → ℕ → Prop
  | ret _, _ => True
  | throw, _ => True
  | call _ _, 0 => False
  | call _ k, n + 1 => ∀ r, (k r).AtMost n

theorem AtMost.mono {p : Prog Res α} {m n : ℕ} (h : p.AtMost m) (hmn : m ≤ n) : p.AtMost n := by
  induction p generalizing m n with
  | ret a => trivial
  | throw => trivial
  | call o k ih =>
    cases m with
    | zero => exact h.elim
    | succ m =>
      cases n with
      | zero => omega
      | succ n => exact fun r => ih r (h r) (by omega)

theorem atMost_bind {p : Prog Res α} {f : α → Prog Res β} {m n : ℕ} (hp : p.AtMost m)
    (hf : ∀ a, (f a).AtMost n) : (p >>= f).AtMost (m + n) := by
  induction p generalizing m with
  | ret a => exact (hf a).mono (Nat.le_add_left n m)
  | throw => trivial
  | call o k ih =>
    cases m with
    | zero => exact hp.elim
    | succ m =>
      rw [Nat.succ_add]
      exact fun r => ih r (hp r)

theorem AtMost.of_runs {p : Prog Res α} {n : ℕ} {x : Option α} (h : p.AtMost n)
    (hr : Runs E p s tr x s') : tr.length ≤ n := by
  induction p generalizing s tr n with
  | ret a => simp [hr.1]
  | throw => simp [hr.1]
  | call o k ih =>
    obtain ⟨r, s₁, tr', -, hk, rfl⟩ := hr
    cases n with
    | zero => exact h.elim
    | succ n => exact Nat.succ_le_succ (ih r (h r) hk)

/-- Runs a program, taking the outcomes from a list and `usual` when it is used up. -/
def run (answer : Ω → (o : Op) → σ → Res o × σ) (usual : Ω) :
    Prog Res α → List Ω → σ → List (Event Res) × Option α × σ
  | ret a, _, s => ([], some a, s)
  | throw, _, s => ([], none, s)
  | call o k, ws, s =>
      let (r, s₁) := answer (ws.headD usual) o s
      let (tr, x, s') := (k r).run answer usual ws.tail s₁
      (⟨o, r⟩ :: tr, x, s')

theorem run_call_state (answer : Ω → (o : Op) → σ → Res o × σ) (usual : Ω) (o : Op)
    (k : Res o → Prog Res α) (ws : List Ω) (s : σ) : ((call o k).run answer usual ws s).2.2 =
      ((k (answer (ws.headD usual) o s).1).run answer usual ws.tail
        (answer (ws.headD usual) o s).2).2.2 := rfl

theorem run_bind_state {answer : Ω → (o : Op) → σ → Res o × σ} {usual : Ω} {f : α → Prog Res β}
    (hf : ∀ a, ∃ b, f a = ret b) (p : Prog Res α) (ws : List Ω) (s : σ) :
    ((p >>= f).run answer usual ws s).2.2 = (p.run answer usual ws s).2.2 := by
  induction p generalizing ws s with
  | ret a =>
    obtain ⟨b, hb⟩ := hf a
    rw [ret_bind, hb]
    rfl
  | throw => rfl
  | call o k ih => exact ih _ _ _

theorem run_runs {answer : Ω → (o : Op) → σ → Res o × σ} {allowed : Op → Ω → Prop} {usual : Ω}
    (p : Prog Res α) (ws : List Ω) (s : σ) (hu : ∀ o, allowed o usual)
    (hw : ∀ w ∈ ws, ∀ o, allowed o w) :
    Runs (Env.resolve answer allowed) p s (p.run answer usual ws s).1
      (p.run answer usual ws s).2.1 (p.run answer usual ws s).2.2 := by
  induction p generalizing ws s with
  | ret a => exact ⟨rfl, rfl, rfl⟩
  | throw => exact ⟨rfl, rfl, rfl⟩
  | call o k ih =>
    have hhead : allowed o (ws.headD usual) := by
      cases ws with
      | nil => exact hu o
      | cons w ws => exact hw w List.mem_cons_self o
    exact ⟨_, _, _, ⟨_, hhead, rfl⟩,
      ih _ _ _ fun w hm => hw w (List.mem_of_mem_tail hm), rfl⟩

def feed (answer : Ω → (o : Op) → σ → Res o × σ) : Prog Res α → (ℕ → Ω) → σ → Option α
  | ret a, _, _ => some a
  | throw, _, _ => none
  | call o k, ω, s =>
      (k (answer (ω 0) o s).1).feed answer (fun n => ω (n + 1)) (answer (ω 0) o s).2

theorem feed_call (answer : Ω → (o : Op) → σ → Res o × σ) (o : Op) (k : Res o → Prog Res α)
    (ω : ℕ → Ω) (s : σ) : (call o k).feed answer ω s =
      (k (answer (ω 0) o s).1).feed answer (fun n => ω (n + 1)) (answer (ω 0) o s).2 := rfl

/-- The program with each call made as one of another kind, whose answers `g` translates. -/
def embed {Op' : Type} {Res' : Op' → Type} (f : Op → Op') (g : ∀ o, Res' (f o) → Res o) :
    Prog Res α → Prog Res' α
  | ret a => ret a
  | throw => throw
  | call o k => call (f o) fun r => (k (g o r)).embed f g

theorem calls_embed {Op' : Type} {Res' : Op' → Type} {f : Op → Op'} {g : ∀ o, Res' (f o) → Res o}
    {C : Op' → Prop} (hC : ∀ o, C (f o)) (p : Prog Res α) : (p.embed f g).Calls C := by
  induction p with
  | ret a => trivial
  | throw => trivial
  | call o k ih => exact ⟨hC o, fun r => ih (g o r)⟩

end Prog

end CctvServer
