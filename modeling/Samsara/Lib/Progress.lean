import Mathlib.Algebra.BigOperators.Group.Finset.Basic
import Mathlib.Algebra.BigOperators.Group.List.Basic
import Mathlib.Algebra.BigOperators.Ring.List
import Mathlib.Algebra.Order.BigOperators.Group.Finset
import Mathlib.Algebra.Ring.Nat
import Mathlib.Data.Prod.Lex
import Samsara.Lib.Run

/-!
# Runs that reach a goal, and what they cost

From a state that keeps `I`, as long as the goal is not reached, some action is enabled that
keeps `I` and lowers the rank: then a run leads to the goal (`Run.reaches`). `I` and the rank
may speak about a ghost value `w` beside the state, and `ok` marks the actions taken. The
rank is a pair: a step lowers the first component, or keeps it and lowers the second.

Where the steps are to be counted, a potential is better than a rank: each step pays for what
it spends, out of the potential of the state and of what it gains (`Run.amortized`). Where
the state belongs to threads, each has a potential of its own, and a step may raise those of
the others (`Run.amortized_threads`).
-/

namespace StepSys

variable {S A W : Type*} {step : S → A → Option S} {env : History S A → S → A → Prop} {s₀ s : S}
  {tr : History S A} {w : W}

/-- **Progress rule.** -/
theorem Run.reaches (ok : A → Prop) (goal : S → Prop) (I : S → W → Prop) (rank : S → W → ℕ ×ₗ ℕ)
    (hstep : ∀ tr s w, Run step env s₀ tr s → I s w → ¬ goal s →
      ∃ a s' w', ok a ∧ env tr s a ∧ step s a = some s' ∧ I s' w' ∧ rank s' w' < rank s w)
    (hr : Run step env s₀ tr s) (hw : I s w) :
    ∃ tr' s' w', Run step env s₀ (tr ++ tr') s' ∧ (∀ x ∈ tr', ok x.2) ∧ I s' w' ∧ goal s' := by
  generalize hn : rank s w = n
  induction n using WellFoundedLT.induction generalizing tr s w with
  | ind n ih =>
    by_cases hg : goal s
    · exact ⟨[], s, w, by simpa using hr, nofun, hw, hg⟩
    · obtain ⟨a, s₁, w₁, ha, he, hst, hw₁, hlt⟩ := hstep tr s w hr hw hg
      obtain ⟨tr', s', w', hr', hok, hw', hg'⟩ := ih _ (hn ▸ hlt) (hr.snoc he hst) hw₁ rfl
      refine ⟨(s, a) :: tr', s', w', by simpa using hr', fun x hx => ?_, hw', hg'⟩
      rcases List.mem_cons.1 hx with rfl | hx
      · exact ha
      · exact hok x hx

theorem toLex_lt_of {i i' j j' : ℕ} (h : i' < i ∨ (i' = i ∧ j' < j)) :
    toLex (i', j') < toLex (i, j) :=
  Prod.Lex.toLex_lt_toLex.2 h

/-! ## Potentials -/

/-- What the steps of a history did, in order. -/
def log {B : Type*} (f : S → A → List B) (tr : History S A) : List B :=
  tr.flatMap fun x => f x.1 x.2

theorem log_snoc {B : Type*} (f : S → A → List B) (tr : History S A) (s : S) (a : A) :
    log f (tr ++ [(s, a)]) = log f tr ++ f s a := by
  simp [log]

def total (f : S → A → ℕ) (tr : History S A) : ℕ := (tr.map fun x => f x.1 x.2).sum

theorem length_log {B : Type*} (f : S → A → List B) (tr : History S A) :
    (log f tr).length = total (fun s a => (f s a).length) tr :=
  List.length_flatMap

/-- **Potential rule.** If every step pays for what it spends, then so does a run. -/
theorem Run.amortized {I : S → Prop} {spends gains : S → A → ℕ} (Φ : S → ℕ) (h0 : I s₀)
    (hs : ∀ tr s a s', I s → env tr s a → step s a = some s' →
      I s' ∧ spends s a + Φ s' ≤ Φ s + gains s a)
    (h : Run step env s₀ tr s) : I s ∧ total spends tr + Φ s ≤ Φ s₀ + total gains tr := by
  induction h with
  | nil => exact ⟨h0, by simp [total]⟩
  | snoc _ he hst ih =>
    obtain ⟨hI, hle⟩ := hs _ _ _ _ ih.1 he hst
    refine ⟨hI, ?_⟩
    simp only [total, List.map_append, List.sum_append, List.map_cons, List.map_nil,
      List.sum_singleton] at ih ⊢
    omega

theorem total_add (f g : S → A → ℕ) (tr : History S A) :
    total (fun s a => f s a + g s a) tr = total f tr + total g tr := by
  simp [total, List.sum_map_add]

theorem total_mul (k : ℕ) (f : S → A → ℕ) (tr : History S A) :
    total (fun s a => k * f s a) tr = k * total f tr := by
  simp [total, List.sum_map_mul_left]

@[simp]
theorem total_zero (tr : History S A) : total (fun _ _ => 0) tr = 0 := by
  simp [total]

section Threads

variable {T : Type*} [DecidableEq T]

/-- One thread pays, the others rise by at most `r` each. -/
theorem sum_pot_le {pot pot' : T → ℕ} {threads : Finset T} {t : T} {spent gained r : ℕ}
    (ht : t ∈ threads) (hown : spent + pot' t ≤ pot t + gained)
    (hothers : ∀ u, u ≠ t → pot' u ≤ pot u + r) :
    spent + ∑ u ∈ threads, pot' u ≤
      ∑ u ∈ threads, pot u + (gained + (threads.card - 1) * r) := by
  have hrest : ∑ u ∈ threads.erase t, pot' u ≤
      ∑ u ∈ threads.erase t, pot u + (threads.card - 1) * r :=
    calc ∑ u ∈ threads.erase t, pot' u
        ≤ ∑ u ∈ threads.erase t, (pot u + r) :=
          Finset.sum_le_sum fun u hu => hothers u (Finset.ne_of_mem_erase hu)
      _ = ∑ u ∈ threads.erase t, pot u + (threads.card - 1) * r := by
          rw [Finset.sum_add_distrib, Finset.sum_const, Finset.card_erase_of_mem ht,
            Nat.nsmul_eq_mul]
  rw [← Finset.add_sum_erase threads pot ht, ← Finset.add_sum_erase threads pot' ht]
  omega

/-- **Potential rule for threads.** What the steps of the threads spend is paid by their
potentials, by what they gain, and by how far each step raises the potentials of the others. -/
theorem Run.amortized_threads {I : S → Prop} (who : A → T) (pot : S → T → ℕ)
    (spends gains raises : S → A → ℕ) {threads : Finset T} (h0 : I s₀)
    (hs : ∀ tr s a s', I s → env tr s a → step s a = some s' →
      I s' ∧ spends s a + pot s' (who a) ≤ pot s (who a) + gains s a ∧
        ∀ t, t ≠ who a → pot s' t ≤ pot s t + raises s a)
    (h : Run step env s₀ tr s) (hwho : ∀ x ∈ tr, who x.2 ∈ threads) :
    total spends tr + ∑ t ∈ threads, pot s t ≤
      ∑ t ∈ threads, pot s₀ t + (total gains tr + (threads.card - 1) * total raises tr) := by
  obtain ⟨s₁, hnil, hmid⟩ := Run.cut (show Run step env s₀ ([] ++ tr) s from h)
  obtain rfl := hnil.eq_of_nil
  have hstep : ∀ tr' s a s', I s → env ([] ++ tr') s a ∧ (s, a) ∈ tr → step s a = some s' →
      I s' ∧ spends s a + ∑ t ∈ threads, pot s' t ≤
        ∑ t ∈ threads, pot s t + (gains s a + (threads.card - 1) * raises s a) := by
    intro tr' s a s' hI he hst
    obtain ⟨hI', hown, hothers⟩ := hs _ s a s' hI he.1 hst
    exact ⟨hI', sum_pot_le (hwho _ he.2) hown hothers⟩
  have hle := (Run.amortized (fun s => ∑ t ∈ threads, pot s t) h0 hstep hmid).2
  rwa [total_add, total_mul] at hle

end Threads

end StepSys
