import Mathlib.Tactic.TypeStar

/-!
# Two services in lock-step

A service answers requests: `step s q` is the state after the request `q` and its answer, or
`none` when the request is not served. `Alike R` compares two such outcomes: both fail, or
both give the same answer and lead to states related by `R`. If that holds of every request
in related states, it holds of every sequence of requests (`serve_alike`).
-/

namespace Lockstep

variable {S T Q A : Type*} {step : S → Q → Option (S × A)} {step' : T → Q → Option (T × A)}
  {R : S → T → Prop} {s : S} {t : T}

/-- The state after a sequence of requests and the answers, in order. -/
def serve (step : S → Q → Option (S × A)) : S → List Q → Option (S × List A)
  | s, [] => some (s, [])
  | s, q :: qs =>
    match step s q with
    | none => none
    | some (s', a) => (serve step s' qs).map fun r => (r.1, a :: r.2)

/-- The same failure, or the same answer and related states. -/
def Alike (R : S → T → Prop) : Option (S × A) → Option (T × A) → Prop :=
  Option.Rel fun x y => R x.1 y.1 ∧ x.2 = y.2

theorem Alike.answers {x : Option (S × A)} {y : Option (T × A)} (h : Alike R x y) :
    x.map Prod.snd = y.map Prod.snd := by
  cases h with
  | some h => exact congrArg some h.2
  | none => rfl

theorem Alike.states {a b : A} (h : Alike R (some (s, a)) (some (t, b))) : R s t := by
  cases h with
  | some h => exact h.1

theorem Alike.map {B : Type*} {x : Option (S × B)} {y : Option (T × B)} (h : Alike R x y)
    (f : B → A) : Alike R (x.map fun r => (r.1, f r.2)) (y.map fun r => (r.1, f r.2)) := by
  cases h with
  | some h => exact .some ⟨h.1, congrArg f h.2⟩
  | none => exact .none

theorem Alike.update {x : Option S} {y : Option T} (h : Option.Rel R x y) (a : A) :
    Alike R (x.map fun s => (s, a)) (y.map fun t => (t, a)) := by
  cases h with
  | some h => exact .some ⟨h, rfl⟩
  | none => exact .none

theorem Alike.query {B : Type*} {x y : Option B} (h : R s t) (e : x = y) (f : B → A) :
    Alike R (x.map fun b => (s, f b)) (y.map fun b => (t, f b)) := by
  subst e
  cases x with
  | some b => exact .some ⟨h, rfl⟩
  | none => exact .none

/-- **Lock-step rule.** -/
theorem serve_alike (hstep : ∀ s t q, R s t → Alike R (step s q) (step' t q)) (h : R s t)
    (qs : List Q) : Alike R (serve step s qs) (serve step' t qs) := by
  induction qs generalizing s t with
  | nil => exact .some ⟨h, rfl⟩
  | cons q qs ih =>
    have hq := hstep s t q h
    unfold serve
    generalize step s q = x at hq
    generalize step' t q = y at hq
    cases hq with
    | none => exact .none
    | @some x y hxy =>
      obtain ⟨hR, ha⟩ := hxy
      have htail := ih hR
      simp only
      generalize serve step x.1 qs = u at htail
      generalize serve step' y.1 qs = v at htail
      cases htail with
      | none => exact .none
      | some huv => exact .some ⟨huv.1, by simp only [ha, huv.2]⟩

end Lockstep
