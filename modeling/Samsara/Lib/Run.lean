import Mathlib.Data.List.Basic

/-!
# Runs of a step function

A system is a step function `step : S → A → Option S` (`none`: the action is not
enabled). `Run step env s₀ tr s`: from `s₀` the steps of the history `tr` lead to
`s`. `tr` lists each step as the state before it and its action, oldest first, so
what happened so far is a function of `tr` and needs no field in the state. `env`
is what the run assumes of its environment: a condition on every step, which may
look at the history before the step.
-/

namespace StepSys

variable {S A : Type*}

/-- A finite history: the state before each step and the action taken there. -/
abbrev History (S A : Type*) := List (S × A)

def anyEnv : History S A → S → A → Prop := fun _ _ _ => True

inductive Run (step : S → A → Option S) (env : History S A → S → A → Prop) (s₀ : S) :
    History S A → S → Prop where
  | nil : Run step env s₀ [] s₀
  | snoc {tr : History S A} {s s' : S} {a : A} : Run step env s₀ tr s → env tr s a →
      step s a = some s' → Run step env s₀ (tr ++ [(s, a)]) s'

variable {step : S → A → Option S} {env env' : History S A → S → A → Prop} {s₀ s s' : S}
  {tr : History S A}

/-- **Invariant rule.** What holds initially and is kept by every step holds after every run. -/
theorem Run.inv {P : S → Prop} (h0 : P s₀) (hs : ∀ s a s', P s → step s a = some s' → P s')
    (h : Run step env s₀ tr s) : P s := by
  induction h with
  | nil => exact h0
  | snoc _ _ hst ih => exact hs _ _ _ ih hst

/-- **History rule.** The invariant may speak about the history, and a step may use
what the environment promises and that the state before it was reached. -/
theorem Run.hist {P : History S A → S → Prop} (h0 : P [] s₀)
    (hs : ∀ tr s a s', Run step env s₀ tr s → P tr s → env tr s a → step s a = some s' →
      P (tr ++ [(s, a)]) s')
    (h : Run step env s₀ tr s) : P tr s := by
  induction h with
  | nil => exact h0
  | snoc hr he hst ih => exact hs _ _ _ _ hr ih he hst

theorem Run.imp (he : ∀ tr s a, env tr s a → env' tr s a) (h : Run step env s₀ tr s) :
    Run step env' s₀ tr s := by
  induction h with
  | nil => exact .nil
  | snoc _ hp hst ih => exact .snoc ih (he _ _ _ hp) hst

/-- Every step of a run was taken, and met the environment's promise, in a state that
the history before it reaches. -/
theorem Run.split {pre post : History S A} {x : S × A} (h : Run step env s₀ tr s)
    (e : tr = pre ++ x :: post) :
    Run step env s₀ pre x.1 ∧ env pre x.1 x.2 ∧ ∃ s₁, step x.1 x.2 = some s₁ := by
  induction h generalizing post with
  | nil => simp at e
  | @snoc tr s s' a hr he hst ih =>
    rcases List.eq_nil_or_concat post with rfl | ⟨post', y, rfl⟩
    · obtain ⟨rfl, hx⟩ := List.append_inj' e rfl
      simp only [List.cons.injEq, and_true] at hx
      subst hx
      exact ⟨hr, he, s', hst⟩
    · rw [List.concat_eq_append, ← List.cons_append, ← List.append_assoc] at e
      exact ih (List.append_inj' e rfl).1

theorem Run.last {x : S × A} (h : Run step env s₀ (tr ++ [x]) s) :
    Run step env s₀ tr x.1 ∧ env tr x.1 x.2 ∧ step x.1 x.2 = some s := by
  generalize e : tr ++ [x] = tr' at h
  cases h with
  | nil => simp at e
  | snoc hr he hst =>
    obtain ⟨rfl, hx⟩ := List.append_inj' e rfl
    cases hx
    exact ⟨hr, he, hst⟩

/-- A run passes through a state after each part of its history, and the rest of it is a run
from there, every step of which is in the rest of the history. -/
theorem Run.cut {pre mid : History S A} (h : Run step env s₀ (pre ++ mid) s) :
    ∃ s₁, Run step env s₀ pre s₁ ∧
      Run step (fun tr s a => env (pre ++ tr) s a ∧ (s, a) ∈ mid) s₁ mid s := by
  generalize e : pre ++ mid = tr at h
  induction h generalizing mid with
  | nil =>
    obtain ⟨rfl, rfl⟩ := List.append_eq_nil_iff.mp e
    exact ⟨s₀, .nil, .nil⟩
  | @snoc tr s s' a hr he hst ih =>
    rcases List.eq_nil_or_concat mid with rfl | ⟨mid', x, rfl⟩
    · rw [List.append_nil] at e
      subst e
      exact ⟨s', .snoc hr he hst, .nil⟩
    · rw [List.concat_eq_append, ← List.append_assoc] at e
      obtain ⟨rfl, hx⟩ := List.append_inj' e rfl
      cases hx
      obtain ⟨s₁, h₁, h₂⟩ := ih rfl
      rw [List.concat_eq_append]
      refine ⟨s₁, h₁, .snoc (h₂.imp fun _ _ _ h => ⟨h.1, ?_⟩) ⟨he, ?_⟩ hst⟩
      · exact List.mem_append_left _ h.2
      · exact List.mem_append_right _ (List.mem_singleton_self _)

/-! ## Systems without a choice -/

theorem Run.eq_of_nil (h : Run step env s₀ [] s) : s = s₀ := by
  generalize e : ([] : History S A) = tr at h
  cases h with
  | nil => rfl
  | snoc => simp at e

theorem Run.unique (h : Run step env s₀ tr s) (h' : Run step env s₀ tr s') : s = s' := by
  rcases List.eq_nil_or_concat tr with rfl | ⟨tr', x, rfl⟩
  · exact h.eq_of_nil.trans h'.eq_of_nil.symm
  · rw [List.concat_eq_append] at h h'
    exact Option.some.inj (h.last.2.2.symm.trans h'.last.2.2)

/-- With one action only, a run that is stuck has every other run as a prefix. -/
theorem Run.prefix_of_stuck [Subsingleton A] {tr' : History S A} (h' : Run step env s₀ tr' s')
    (hstuck : ∀ a, step s' a = none) (h : Run step env s₀ tr s) : tr <+: tr' := by
  induction h with
  | nil => exact List.nil_prefix
  | @snoc tr s s₁ a hr he hst ih =>
    obtain ⟨rest, rfl⟩ := ih
    cases rest with
    | nil =>
      rw [List.append_nil] at h'
      have hnone := hstuck a
      rw [← hr.unique h', hst] at hnone
      cases hnone
    | cons x rest =>
      obtain ⟨hx, -, -⟩ := h'.split rfl
      have hxa : x = (s, a) := Prod.ext (hx.unique hr) (Subsingleton.elim _ _)
      subst hxa
      exact ⟨rest, by simp⟩

/-! ## Simulations -/

section Simulation

variable {S₂ A₂ : Type*} {step₂ : S₂ → A₂ → Option S₂} {f : S → S₂} {act : S → A → Option A₂}

/-- The history of the steps that another system takes part in. -/
def projected (f : S → S₂) (act : S → A → Option A₂) (tr : History S A) : History S₂ A₂ :=
  tr.filterMap fun x => (act x.1 x.2).map fun b => (f x.1, b)

/-- Every step is one of the other system or leaves its state alone. -/
def Simulates (step : S → A → Option S) (step₂ : S₂ → A₂ → Option S₂) (f : S → S₂)
    (act : S → A → Option A₂) : Prop :=
  ∀ s a s', step s a = some s' →
    match act s a with
    | some b => step₂ (f s) b = some (f s')
    | none => f s' = f s

/-- **Simulation rule.** A run is a run of the system it simulates. -/
theorem Run.simulates (hs : Simulates step step₂ f act) (h : Run step env s₀ tr s) :
    Run step₂ anyEnv (f s₀) (projected f act tr) (f s) := by
  induction h with
  | nil => exact .nil
  | @snoc tr s s' a _ _ hst ih =>
    have hstep := hs s a s' hst
    unfold projected at ih ⊢
    rw [List.filterMap_append]
    cases hact : act s a with
    | none =>
      rw [hact] at hstep
      rw [hstep]
      simpa [hact] using ih
    | some b =>
      rw [hact] at hstep
      simpa [hact] using ih.snoc trivial hstep

end Simulation

/-! ## Refinements -/

section Refinement

variable {S₂ A₂ : Type*} {step₂ : S₂ → A₂ → Option S₂} {act : S → A → Option A₂} {t₀ : S₂}

/-- The actions of another system that a history stands for. -/
def shadow (act : S → A → Option A₂) (tr : History S A) : List A₂ :=
  tr.filterMap fun x => act x.1 x.2

def follow (step₂ : S₂ → A₂ → Option S₂) (t : S₂) : Option A₂ → Option S₂
  | some b => step₂ t b
  | none => some t

/-- The actions of another system that a history stands for, any number for each step. -/
def expansion (acts : S → A → List A₂) (tr : History S A) : List A₂ :=
  tr.flatMap fun x => acts x.1 x.2

/-- **Refinement rule, many steps for one.** A relation kept by every step, the other system
taking the steps it stands for, holds between what a run reaches and what the other system
computes. -/
theorem Run.expands {acts : S → A → List A₂} {R : S → S₂ → Prop} (h0 : R s₀ t₀)
    (hs : ∀ tr s a s' t, Run step env s₀ tr s → R s t → env tr s a → step s a = some s' →
      ∃ t', (acts s a).foldlM step₂ t = some t' ∧ R s' t')
    (h : Run step env s₀ tr s) : ∃ t, (expansion acts tr).foldlM step₂ t₀ = some t ∧ R s t := by
  induction h with
  | nil => exact ⟨t₀, rfl, h0⟩
  | @snoc tr s s' a hr he hst ih =>
    obtain ⟨t, ht, hR⟩ := ih
    obtain ⟨t', ht', hR'⟩ := hs tr s a s' t hr hR he hst
    refine ⟨t', ?_, hR'⟩
    unfold expansion at ht ⊢
    rw [List.flatMap_append, List.foldlM_append, ht]
    simpa using ht'

theorem Run.fold (hr : Run step anyEnv s₀ tr s) {as : List A} (h : as.foldlM step s = some s') :
    ∃ tr', Run step anyEnv s₀ (tr ++ tr') s' ∧ tr'.map Prod.snd = as := by
  induction as generalizing tr s with
  | nil =>
    cases h
    exact ⟨[], by simpa using hr, rfl⟩
  | cons a as ih =>
    obtain ⟨s₁, hst, h⟩ := Option.bind_eq_some_iff.mp h
    obtain ⟨tr', hr', has⟩ := ih (hr.snoc trivial hst) h
    exact ⟨(s, a) :: tr', by simpa using hr', by simp [has]⟩

theorem shadow_eq_expansion (act : S → A → Option A₂) (tr : History S A) :
    shadow act tr = expansion (fun s a => (act s a).toList) tr :=
  List.filterMap_eq_flatMap_toList ..

/-- **Refinement rule.** A relation kept by every step, the other system following, holds
between what a run reaches and what the other system computes. -/
theorem Run.refines {R : S → S₂ → Prop} (h0 : R s₀ t₀)
    (hs : ∀ tr s a s' t, R s t → env tr s a → step s a = some s' →
      ∃ t', follow step₂ t (act s a) = some t' ∧ R s' t')
    (h : Run step env s₀ tr s) : ∃ t, (shadow act tr).foldlM step₂ t₀ = some t ∧ R s t := by
  rw [shadow_eq_expansion]
  refine h.expands h0 fun tr s a s' t _ hR he hst => ?_
  obtain ⟨t', ht', hR'⟩ := hs tr s a s' t hR he hst
  refine ⟨t', ?_, hR'⟩
  cases hact : act s a <;> simpa [hact, follow] using ht'

end Refinement

/-! ## Executing a list of actions -/

/-- The history and the state after the actions, from a history so far. -/
def exec (step : S → A → Option S) : History S A → S → List A → Option (History S A × S)
  | tr, s, [] => some (tr, s)
  | tr, s, a :: as =>
    match step s a with
    | some s' => exec step (tr ++ [(s, a)]) s' as
    | none => none

/-- Executing actions the environment allows in every state extends a run. -/
theorem Run.exec (hr : Run step env s₀ tr s) {as : List A} (he : ∀ a ∈ as, ∀ tr s, env tr s a)
    {r : History S A × S} (h : exec step tr s as = some r) : Run step env s₀ r.1 r.2 := by
  induction as generalizing tr s with
  | nil => simp only [StepSys.exec, Option.some.injEq] at h; subst h; exact hr
  | cons a as ih =>
    simp only [StepSys.exec] at h
    split at h
    · next s₁ hs =>
      exact ih (.snoc hr (he a List.mem_cons_self _ _) hs)
        (fun b hb => he b (List.mem_cons_of_mem _ hb)) h
    · cases h

/-- The steps of `step` that pass a check, so that a run may be executed with the check on. -/
def guarded (ok : S → A → Bool) (step : S → A → Option S) (s : S) (a : A) : Option S :=
  if ok s a then step s a else none

/-- What the check lets through is a run under any promise it implies. -/
theorem Run.of_guarded {ok : S → A → Bool} (hok : ∀ tr s a, ok s a = true → env tr s a)
    (h : Run (guarded ok step) env' s₀ tr s) : Run step env s₀ tr s := by
  induction h with
  | nil => exact .nil
  | snoc _ _ hst ih =>
    unfold guarded at hst
    split at hst
    · next hpass => exact .snoc ih (hok _ _ _ hpass) hst
    · cases hst

end StepSys
