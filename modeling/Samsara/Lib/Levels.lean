import Mathlib.Data.Set.Card
import Mathlib.Logic.Function.Basic

/-!
# Climbers

Threads climb from place to place, and a thread leaves a place for the next one only when it
finds another thread there. `level t` is the place of `t`, `none` when it is not climbing.
If at most `n` threads climb at any time, then at most `n - i` of them are at place `i` or
above (`Thin`): a thread that passes place `i` leaves another one behind. So no thread comes
to place `n`.
-/

namespace Levels

variable {T : Type*} {level level' : T → Option Nat} {n i : Nat} {t u : T}

/-- The threads at place `i` or above. -/
def above (level : T → Option Nat) (i : Nat) : Set T := {t | ∃ j, level t = some j ∧ i ≤ j}

/-- At most `n - i` threads are at place `i` or above. -/
def Thin (n : Nat) (level : T → Option Nat) : Prop :=
  ∀ i, 0 < i → i ≤ n → (above level i).encard + i ≤ n

theorem mem_above {j : Nat} (h : level t = some j) : t ∈ above level i ↔ i ≤ j := by
  simp [above, h]

theorem thin_none : Thin n fun _ : T => none := by
  intro i _ hi
  have hempty : above (fun _ : T => none) i = ∅ := by simp [above]
  rw [hempty, Set.encard_empty, zero_add]
  exact_mod_cast hi

theorem Thin.mono (h : Thin n level) (hle : ∀ i, 0 < i → above level' i ⊆ above level i) :
    Thin n level' := fun i hi hn =>
  (add_le_add_left (Set.encard_le_encard (hle i hi)) _).trans (h i hi hn)

theorem Thin.lt (h : Thin n level) (hn : 0 < n) (ht : level t = some i) : i < n := by
  by_contra hi
  have hm : t ∈ above level n := (mem_above ht).mpr (Nat.le_of_not_lt hi)
  have hone : 1 ≤ (above level n).encard := Set.one_le_encard_iff_nonempty.mpr ⟨t, hm⟩
  have hle : (1 : ℕ∞) + n ≤ n := (add_le_add_left hone _).trans (h n hn (Nat.le_refl n))
  have hle : 1 + n ≤ n := by exact_mod_cast hle
  omega

variable [DecidableEq T]

theorem above_update {x : Option Nat} (h : u ∈ above (Function.update level t x) i) :
    (u = t ∧ ∃ j, x = some j ∧ i ≤ j) ∨ u ∈ above level i := by
  obtain ⟨j, hu, hj⟩ := h
  by_cases e : u = t
  · subst e
    rw [Function.update_self] at hu
    exact .inl ⟨rfl, j, hu, hj⟩
  · rw [Function.update_of_ne e] at hu
    exact .inr ⟨j, hu, hj⟩

theorem Thin.update (h : Thin n level) {x : Option Nat}
    (hx : ∀ j, x = some j → j = 0 ∨ level t = some j) : Thin n (Function.update level t x) := by
  refine h.mono fun i hi u hu => ?_
  rcases above_update hu with ⟨rfl, j, hj, hij⟩ | hu
  · rcases hx j hj with rfl | ht
    · omega
    · exact ⟨j, ht, hij⟩
  · exact hu

/-- **A thread climbs past another one.** -/
theorem Thin.climb (h : Thin n level) (hall : (above level 0).encard ≤ n) (ht : level t = some i)
    (hu : level u = some i) (hne : u ≠ t) : Thin n (Function.update level t (some (i + 1))) := by
  intro k hk hkn
  by_cases e : k = i + 1
  · subst e
    have hsub : above (Function.update level t (some (i + 1))) (i + 1) ⊆
        insert t (above level (i + 1)) := fun v hv => (above_update hv).imp_left And.left
    -- both threads were at place `i`, neither above it
    have htu : insert u (insert t (above level (i + 1))) ⊆ above level i := by
      rintro v (rfl | rfl | ⟨j, hv, hj⟩)
      · exact (mem_above hu).mpr (Nat.le_refl i)
      · exact (mem_above ht).mpr (Nat.le_refl i)
      · exact ⟨j, hv, by omega⟩
    have hu' : u ∉ insert t (above level (i + 1)) := by
      rintro (e | hm)
      · exact hne e
      · exact absurd ((mem_above hu).mp hm) (by omega)
    have hi : (above level i).encard + i ≤ n := by
      rcases Nat.eq_zero_or_pos i with rfl | h0
      · simpa using hall
      · exact h i h0 (by omega)
    calc (above (Function.update level t (some (i + 1))) (i + 1)).encard + ((i + 1 : Nat) : ℕ∞)
        ≤ (insert t (above level (i + 1))).encard + ((i + 1 : Nat) : ℕ∞) :=
          add_le_add_left (Set.encard_le_encard hsub) _
      _ = (insert u (insert t (above level (i + 1)))).encard + i := by
          rw [Set.encard_insert_of_notMem hu', Nat.cast_add, Nat.cast_one, add_assoc,
            add_comm (i : ℕ∞) 1]
      _ ≤ (above level i).encard + i := add_le_add_left (Set.encard_le_encard htu) _
      _ ≤ n := hi
  · refine (add_le_add_left (Set.encard_le_encard fun v hv => ?_) _).trans (h k hk hkn)
    rcases above_update hv with ⟨rfl, j, hj, hkj⟩ | hv
    · cases hj
      exact ⟨i, ht, by omega⟩
    · exact hv

end Levels
