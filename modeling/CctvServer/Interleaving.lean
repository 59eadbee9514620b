import CctvServer.Program
import Mathlib.Data.Fintype.Defs
import Mathlib.Logic.Function.Basic

namespace CctvServer

theorem unique_update {ι γ κ : Type} [DecidableEq ι] {R : γ → κ → Prop} {g : ι → γ} {i : ι} {x : γ}
    (h : ∀ j j' k, R (g j) k → R (g j') k → j = j') (hx : ∀ j k, j ≠ i → R (g j) k → ¬R x k)
    (j j' : ι) (k : κ) (hj : R (Function.update g i x j) k)
    (hj' : R (Function.update g i x j') k) : j = j' := by
  by_cases hji : j = i <;> by_cases hji' : j' = i
  · rw [hji, hji']
  · subst hji
    rw [Function.update_self] at hj
    rw [Function.update_of_ne hji'] at hj'
    exact absurd hj (hx j' k hji' hj')
  · subst hji'
    rw [Function.update_self] at hj'
    rw [Function.update_of_ne hji] at hj
    exact absurd hj' (hx j k hji hj)
  · rw [Function.update_of_ne hji] at hj
    rw [Function.update_of_ne hji'] at hj'
    exact h j j' k hj hj'

/-- Threads, each with a program and a state of its own, over one shared state.
The trace lists the performed calls, oldest first. -/
structure Config {Op : Type} (Res : Op → Type) (S L ι α : Type) where
  shared : S
  loc : ι → L
  prog : ι → Prog Res α
  trace : List (ι × Event Res)

namespace Config

variable {Op : Type} {Res : Op → Type} {S L ι α Ω : Type} [DecidableEq ι]

def log (c : Config Res S L ι α) (i : ι) : List (Event Res) :=
  c.trace.filterMap fun x => if x.1 = i then some x.2 else none

def advance (c : Config Res S L ι α) (i : ι) (e : Event Res) (p : Prog Res α) (s : S × L) :
    Config Res S L ι α where
  shared := s.1
  loc := Function.update c.loc i s.2
  prog := Function.update c.prog i p
  trace := c.trace ++ [(i, e)]

section
variable (c : Config Res S L ι α) (i : ι) (e : Event Res) (p : Prog Res α) (s : S × L)

@[simp] theorem advance_shared : (c.advance i e p s).shared = s.1 := rfl

@[simp] theorem advance_trace : (c.advance i e p s).trace = c.trace ++ [(i, e)] := rfl

@[simp] theorem advance_prog_self : (c.advance i e p s).prog i = p := by simp [advance]

@[simp] theorem advance_loc_self : (c.advance i e p s).loc i = s.2 := by simp [advance]

theorem advance_prog_of_ne {j : ι} (h : j ≠ i) : (c.advance i e p s).prog j = c.prog j := by
  simp [advance, h]

theorem advance_loc_of_ne {j : ι} (h : j ≠ i) : (c.advance i e p s).loc j = c.loc j := by
  simp [advance, h]

@[simp] theorem advance_log_self : (c.advance i e p s).log i = c.log i ++ [e] := by
  simp [log]

theorem advance_log_of_ne {j : ι} (h : j ≠ i) : (c.advance i e p s).log j = c.log j := by
  simp [log, h.symm]
end

/-- One call of one thread. An exception in any thread ends the whole process. -/
inductive Step (E : Env Res (S × L)) (c : Config Res S L ι α) (i : ι) :
    Event Res → Config Res S L ι α → Prop
  | call {o : Op} {k : Res o → Prog Res α} {r : Res o} {s : S × L}
      (alive : ∀ j, c.prog j ≠ .throw) (prog : c.prog i = .call o k)
      (answer : E o (c.shared, c.loc i) r s) : Step E c i ⟨o, r⟩ (c.advance i ⟨o, r⟩ (k r) s)

def Asks (c : Config Res S L ι α) (i : ι) (o : Op) : Prop := ∃ k, c.prog i = .call o k

/-- The configurations that runs reach whose steps all satisfy `ok`. -/
inductive Reach (E : Env Res (S × L)) (ok : Config Res S L ι α → ι → Event Res → Prop)
    (c₀ : Config Res S L ι α) : Config Res S L ι α → Prop
  | refl : Reach E ok c₀ c₀
  | step {c c' : Config Res S L ι α} {i : ι} {e : Event Res} :
      Reach E ok c₀ c → Step E c i e c' → ok c i e → Reach E ok c₀ c'

variable {E : Env Res (S × L)} {ok : Config Res S L ι α → ι → Event Res → Prop}
  {c₀ c c' : Config Res S L ι α}

/-- What holds initially and is kept by every step holds of every reachable configuration. -/
theorem Reach.invariant {I : Config Res S L ι α → Prop} (h : Reach E ok c₀ c) (h₀ : I c₀)
    (hs : ∀ c i e c', Reach E ok c₀ c → I c → Step E c i e c' → ok c i e → I c') : I c := by
  induction h with
  | refl => exact h₀
  | step hr hstep hok ih => exact hs _ _ _ _ hr ih hstep hok

/-- A condition that all steps of runs meet can be required of them. -/
theorem Reach.strengthen {ok' : Config Res S L ι α → ι → Event Res → Prop} (h : Reach E ok c₀ c)
    (hs : ∀ c i e c', Reach E ok c₀ c → Step E c i e c' → ok c i e → ok' c i e) :
    Reach E ok' c₀ c := by
  induction h with
  | refl => exact .refl
  | step hr hstep hok ih => exact .step ih hstep (hs _ _ _ _ hr hstep hok)

theorem Reach.trans {c₁ : Config Res S L ι α} (h₁ : Reach E ok c₀ c₁) (h₂ : Reach E ok c₁ c) :
    Reach E ok c₀ c := by
  induction h₂ with
  | refl => exact h₁
  | step _ hstep hok ih => exact .step ih hstep hok

theorem Step.inv {i : ι} {e : Event Res} (h : Step E c i e c') :
    ∃ o k r s, c.prog i = .call o k ∧ E o (c.shared, c.loc i) r s ∧ e = ⟨o, r⟩ ∧
      c' = c.advance i ⟨o, r⟩ (k r) s := by
  cases h with
  | call _ hp he => exact ⟨_, _, _, _, hp, he, rfl, rfl⟩

end Config

theorem Config.Reach.calls {Op : Type} {Res : Op → Type} {S L ι α : Type} [DecidableEq ι]
    {E : Env Res (S × L)} {ok : Config Res S L ι α → ι → Event Res → Prop}
    {c₀ c : Config Res S L ι α} {C : ι → Op → Prop} (h : Config.Reach E ok c₀ c)
    (h₀ : ∀ i, (c₀.prog i).Calls (C i)) (i : ι) : (c.prog i).Calls (C i) := by
  refine h.invariant (I := fun c => ∀ i, (c.prog i).Calls (C i)) h₀ ?_ i
  rintro c i e c' - hc hstep - j
  obtain ⟨o, k, r, s, hprog, -, rfl, rfl⟩ := hstep.inv
  by_cases hj : j = i
  · subst hj
    have hi := hc j
    rw [hprog] at hi
    rw [Config.advance_prog_self]
    exact hi.2 r
  · rw [Config.advance_prog_of_ne _ _ _ _ _ hj]
    exact hc j

namespace Prog

variable {Op : Type} {Res : Op → Type} {α : Type}

def Thrown : Prog Res α → Bool
  | throw => true
  | _ => false

/-- One call, resolved by the outcome `w`; a finished program stays as it is. -/
def next {Ω σ : Type} (answer : Ω → (o : Op) → σ → Res o × σ) (w : Ω) :
    Prog Res α → σ → Prog Res α × σ
  | call o k, s => (k (answer w o s).1, (answer w o s).2)
  | p, s => (p, s)

end Prog

namespace Config

variable {Op : Type} {Res : Op → Type} {S L ι α Ω : Type} [DecidableEq ι]

def perform (answer : Ω → (o : Op) → S × L → Res o × (S × L)) (c : Config Res S L ι α) (i : ι)
    (w : Ω) : Config Res S L ι α :=
  match c.prog i with
  | .call o k =>
      let (r, s) := answer w o (c.shared, c.loc i)
      c.advance i ⟨o, r⟩ (k r) s
  | _ => c

/-- Every scheduled thread has a call left, no thread has thrown before it, and
every step passes the check `good`. -/
def Fits [Fintype ι] (answer : Ω → (o : Op) → S × L → Res o × (S × L))
    (good : Config Res S L ι α → ι → Event Res → Bool) :
    Config Res S L ι α → List (ι × Ω) → Bool
  | _, [] => true
  | c, (i, w) :: rest =>
      decide (∀ j, (c.prog j).Thrown = false) &&
        (match c.prog i with
          | .call o _ => good c i ⟨o, (answer w o (c.shared, c.loc i)).1⟩
          | _ => false) &&
        (c.perform answer i w).Fits answer good rest

def follow (answer : Ω → (o : Op) → S × L → Res o × (S × L)) :
    Config Res S L ι α → List (ι × Ω) → Config Res S L ι α
  | c, [] => c
  | c, (i, w) :: rest => (c.perform answer i w).follow answer rest

section
variable {answer : Ω → (o : Op) → S × L → Res o × (S × L)} (c : Config Res S L ι α) (i : ι) (w : Ω)

theorem perform_prog : (c.perform answer i w).prog =
    Function.update c.prog i ((c.prog i).next answer w (c.shared, c.loc i)).1 := by
  cases h : c.prog i with
  | call o k => simp [perform, Prog.next, h, advance]
  | _ =>
    simp only [perform, Prog.next, h]
    rw [← h, Function.update_eq_self]

theorem perform_shared : (c.perform answer i w).shared =
    ((c.prog i).next answer w (c.shared, c.loc i)).2.1 := by
  cases h : c.prog i <;> simp [perform, Prog.next, h]
end

/-- Every configuration that the schedule passes through satisfies `good`. -/
def Along (answer : Ω → (o : Op) → S × L → Res o × (S × L)) (good : Config Res S L ι α → Prop) :
    Config Res S L ι α → List (ι × Ω) → Prop
  | c, [] => good c
  | c, (i, w) :: rest => good c ∧ (c.perform answer i w).Along answer good rest

instance decidableAlong (answer : Ω → (o : Op) → S × L → Res o × (S × L))
    (good : Config Res S L ι α → Prop) [DecidablePred good] :
    ∀ c σ, Decidable (Along answer good c σ)
  | c, [] => inferInstanceAs (Decidable (good c))
  | c, (i, w) :: rest =>
      have := decidableAlong answer good (c.perform answer i w) rest
      inferInstanceAs (Decidable (good c ∧ (c.perform answer i w).Along answer good rest))

section Unwinding

variable {answer : Ω → (o : Op) → S × L → Res o × (S × L)} {good : Config Res S L ι α → Prop}
  {R : Config Res S L ι α → Config Res S L ι α → Prop} {c c' : Config Res S L ι α}

theorem Along.invariant {I : Config Res S L ι α → Prop}
    (hstep : ∀ c i w, good c → I c → I (c.perform answer i w)) {σ : List (ι × Ω)}
    (h : c.Along answer good σ) (h₀ : I c) : I (c.follow answer σ) := by
  induction σ generalizing c with
  | nil => exact h₀
  | cons x rest ih => exact ih h.2 (hstep c x.1 x.2 h.1 h₀)

/-- Two schedules with the same steps of the `low` threads keep a relation that the
steps of the others keep on either side and the steps of the `low` ones on both. -/
theorem follow_unwind (low : ι → Bool)
    (hleft : ∀ c c' i w, low i = false → good c → R c c' → R (c.perform answer i w) c')
    (hright : ∀ c c' i w, low i = false → good c' → R c c' → R c (c'.perform answer i w))
    (hboth : ∀ c c' i w, low i = true → good c → good c' → R c c' →
      R (c.perform answer i w) (c'.perform answer i w))
    {σ σ' : List (ι × Ω)} (hσ : σ.filter (fun x => low x.1) = σ'.filter fun x => low x.1)
    (hc : c.Along answer good σ) (hc' : c'.Along answer good σ') (h : R c c') :
    R (c.follow answer σ) (c'.follow answer σ') := by
  induction σ generalizing c c' σ' with
  | nil =>
    induction σ' generalizing c' with
    | nil => exact h
    | cons y rest' ih' =>
      have hy : low y.1 = false := by
        by_contra hy
        simp [hy] at hσ
      refine ih' ?_ hc'.2 (hright _ _ _ _ hy hc'.1 h)
      simpa [hy] using hσ
  | cons x rest ih =>
    cases hx : low x.1 with
    | false =>
      refine ih ?_ hc.2 hc' (hleft _ _ _ _ hx hc.1 h)
      simpa [hx] using hσ
    | true =>
      -- the other schedule has the same step after some of the others' steps
      induction σ' generalizing c' with
      | nil => simp [hx] at hσ
      | cons y rest' ih' =>
        cases hy : low y.1 with
        | false =>
          refine ih' ?_ hc'.2 (hright _ _ _ _ hy hc'.1 h)
          simpa [hy] using hσ
        | true =>
          simp only [List.filter_cons, hx, hy, if_true] at hσ
          obtain ⟨rfl, hrest⟩ := List.cons.inj hσ
          have hend := ih hrest hc.2 hc'.2 (hboth _ _ _ _ hx hc.1 hc'.1 h)
          exact hend

end Unwinding

/-- A schedule that fits leads to a reachable configuration. -/
theorem follow_reach [Fintype ι] {answer : Ω → (o : Op) → S × L → Res o × (S × L)}
    {allowed : Op → Ω → Prop} {good : Config Res S L ι α → ι → Event Res → Bool}
    (schedule : List (ι × Ω)) (c : Config Res S L ι α)
    (hf : c.Fits answer good schedule = true) (hw : ∀ x ∈ schedule, ∀ o, allowed o x.2) :
    Reach (Env.resolve answer allowed) (fun c i e => good c i e = true) c
      (c.follow answer schedule) := by
  induction schedule generalizing c with
  | nil => exact .refl
  | cons x rest ih =>
    obtain ⟨i, w⟩ := x
    simp only [Fits, Bool.and_eq_true, decide_eq_true_eq] at hf
    obtain ⟨⟨halive, hgood⟩, hrest⟩ := hf
    refine Reach.trans ?_ (ih _ hrest fun y hy => hw y (List.mem_cons_of_mem _ hy))
    cases hp : c.prog i with
    | ret a => simp [hp] at hgood
    | throw => simp [hp] at hgood
    | call o k =>
      have hstep : Step (Env.resolve answer allowed) c i
          ⟨o, (answer w o (c.shared, c.loc i)).1⟩ (c.perform answer i w) := by
        simp only [perform, hp]
        refine .call (fun j hj => ?_) hp ⟨w, hw _ List.mem_cons_self o, rfl⟩
        have := halive j
        simp [hj, Prog.Thrown] at this
      exact .step .refl hstep (by simpa [hp] using hgood)

def FitsAmong (threads : List ι) (answer : Ω → (o : Op) → S × L → Res o × (S × L))
    (good : Config Res S L ι α → ι → Event Res → Bool) :
    Config Res S L ι α → List (ι × Ω) → Bool
  | _, [] => true
  | c, (i, w) :: rest =>
      (threads.all fun j => !(c.prog j).Thrown) && threads.contains i &&
        (match c.prog i with
          | .call o _ => good c i ⟨o, (answer w o (c.shared, c.loc i)).1⟩
          | _ => false) &&
        (c.perform answer i w).FitsAmong threads answer good rest

theorem follow_reach_among {answer : Ω → (o : Op) → S × L → Res o × (S × L)}
    {allowed : Op → Ω → Prop} {good : Config Res S L ι α → ι → Event Res → Bool}
    (threads : List ι) (schedule : List (ι × Ω)) (c : Config Res S L ι α)
    (hc : ∀ j, j ∉ threads → (c.prog j).Thrown = false)
    (hf : c.FitsAmong threads answer good schedule = true)
    (hw : ∀ x ∈ schedule, ∀ o, allowed o x.2) :
    Reach (Env.resolve answer allowed) (fun c i e => good c i e = true) c
      (c.follow answer schedule) := by
  induction schedule generalizing c with
  | nil => exact .refl
  | cons x rest ih =>
    obtain ⟨i, w⟩ := x
    simp only [FitsAmong, Bool.and_eq_true, List.all_eq_true, Bool.not_eq_true',
      List.contains_iff_mem] at hf
    obtain ⟨⟨⟨hamong, hi⟩, hgood⟩, hrest⟩ := hf
    have halive : ∀ j, c.prog j ≠ .throw := by
      intro j hj
      by_cases hjt : j ∈ threads
      · have hn := hamong j hjt
        simp [hj, Prog.Thrown] at hn
      · have hn := hc j hjt
        simp [hj, Prog.Thrown] at hn
    have hothers : ∀ j, j ∉ threads → ((c.perform answer i w).prog j).Thrown = false := by
      intro j hj
      have hji : j ≠ i := fun h => hj (h ▸ hi)
      rw [perform_prog, Function.update_of_ne hji]
      exact hc j hj
    refine Reach.trans ?_ (ih _ hothers hrest fun y hy => hw y (List.mem_cons_of_mem _ hy))
    cases hp : c.prog i with
    | ret a => simp [hp] at hgood
    | throw => simp [hp] at hgood
    | call o k =>
      have hstep : Step (Env.resolve answer allowed) c i
          ⟨o, (answer w o (c.shared, c.loc i)).1⟩ (c.perform answer i w) := by
        simp only [perform, hp]
        exact .call halive hp ⟨w, hw _ List.mem_cons_self o, rfl⟩
      exact .step .refl hstep (by simpa [hp] using hgood)

end Config

end CctvServer
