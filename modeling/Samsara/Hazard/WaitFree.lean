import Samsara.Hazard.Registry
import Samsara.Lib.Progress

/-!
# The registry is wait-free

`acquire` passes each slot once, and so do the queries, with two loads for a slot in use. So
a call takes a bounded number of its own steps, however often other clients win the slots it
tries, and no step ever waits.
-/

namespace Samsara

namespace HazardRegistry

open StepSys

/-- The steps left until the call has returned. -/
def Pc.cost : Pc → Nat
  | idle | live _ => 0
  | acquire i => MAX_HAZARDS - i + 2
  | protect .. | clear _ | drop_release _ | acquire_none | is_hazarded_ret .. | snapshot_ret _ => 1
  | drop_clear _ => 2
  | is_hazarded _ i | snapshot i _ => 2 * (MAX_HAZARDS - i) + 2
  | is_hazarded_ptr _ i | snapshot_ptr i _ => 2 * (MAX_HAZARDS - (i + 1)) + 3

def callsOf (c : Nat) (_ : HazardRegistry) : Act → Nat
  | .step _ => 0
  | a => if a.client = c then 1 else 0

def stepsOf (c : Nat) (_ : HazardRegistry) : Act → Nat
  | .step d => if d = c then 1 else 0
  | _ => 0

variable {s s' : HazardRegistry} {a : Act} {slots slots' : Slots} {q q' : Pc} {c : Nat}

theorem cost_step (hm : clientStep slots q = some (slots', q')) : 1 + q'.cost ≤ q.cost := by
  cases clientStep_cases hm
  case call_acquire | call_protect | call_clear | call_drop | call_is_hazarded | call_snapshot =>
    cases hm
  all_goals
    simp only [Pc.cost]
    omega

theorem can_step (hidle : q ≠ .idle) (hlive : ∀ i, q ≠ .live i) (slots : Slots) :
    ∃ r, clientStep slots q = some r := by
  cases q with
  | idle => exact absurd rfl hidle
  | live i => exact absurd rfl (hlive i)
  | acquire | is_hazarded | snapshot =>
    simp only [clientStep]
    split
    · split <;> exact ⟨_, rfl⟩
    · exact ⟨_, rfl⟩
  | is_hazarded_ptr =>
    simp only [clientStep]
    split <;> exact ⟨_, rfl⟩
  | _ => exact ⟨_, rfl⟩

theorem step_cost (hst : s.step a = some s') :
    stepsOf c s a + (s'.pc c).cost ≤ (s.pc c).cost + (2 * MAX_HAZARDS + 2) * callsOf c s a := by
  by_cases e : a.client = c
  · subst e
    cases a with
    | step d =>
      obtain ⟨⟨slots, q⟩, hm, rfl⟩ := Option.map_eq_some_iff.mp hst
      simpa [stepsOf, callsOf, Act.client] using cost_step hm
    | acquire d | is_hazarded d _ | snapshot d =>
      simp only [HazardRegistry.step] at hst
      split at hst <;> cases hst
      simp only [stepsOf, callsOf, Act.client, setPc, Function.update_self, Pc.cost, if_true]
      omega
    | protect d _ | clear d | drop d =>
      obtain ⟨i, hi, rfl⟩ := onGuard_cases hst
      simp only [stepsOf, callsOf, Act.client, setPc, Function.update_self, Pc.cost, if_true]
      omega
  · obtain ⟨q, -, hpc⟩ := step_cases hst
    have hno : stepsOf c s a = 0 := by
      cases a <;> first | rfl | exact if_neg e
    rw [hno, hpc, Function.update_of_ne (Ne.symm e), Nat.zero_add]
    exact Nat.le_add_right ..

end HazardRegistry

open StepSys HazardRegistry

/-- **The registry is wait-free.** In any part of a run, whatever the other clients do, a
client takes at most `2 * MAX_HAZARDS + 2` steps for each call it makes, and as many for the
call it was in; and in a call it can always step. -/
theorem registry_wait_free {s₀ s : HazardRegistry} {tr : History HazardRegistry Act}
    (h : Run HazardRegistry.step anyEnv s₀ tr s) (c : Nat) :
    total (stepsOf c) tr + (s.pc c).cost ≤
        (s₀.pc c).cost + (2 * MAX_HAZARDS + 2) * total (callsOf c) tr ∧
      (s₀.pc c).cost ≤ 2 * MAX_HAZARDS + 2 ∧
      (s.pc c ≠ .idle → (∀ i, s.pc c ≠ .live i) → ∃ s', s.step (.step c) = some s') := by
  refine ⟨?_, ?_, fun hidle hlive => ?_⟩
  · have hle := (Run.amortized (I := fun _ => True) (fun s => (s.pc c).cost) trivial
      (fun _ _ _ _ _ _ hst => ⟨trivial, step_cost hst⟩) h).2
    rwa [total_mul] at hle
  · have hmax : MAX_HAZARDS = 64 := rfl
    cases s₀.pc c <;> simp only [Pc.cost] <;> omega
  · obtain ⟨r, hr⟩ := can_step hidle hlive s.slots
    exact ⟨_, by rw [HazardRegistry.step, hr]; rfl⟩

/-- Client 1 has failed on the slot of client 0 and tries the next one. -/
theorem registry_wait_free_busy :
    ∃ tr s, Run HazardRegistry.step anyEnv .new tr s ∧ s.pc 1 = .acquire 1 ∧
      total (stepsOf 1) tr = 1 ∧ ∃ s', s.step (.step 1) = some s' := by
  have h0 : Run HazardRegistry.step anyEnv .new [] .new := .nil
  have h1 := h0.exec (fun _ _ _ _ => trivial) (show exec _ _ _
    [.acquire 0, .step 0, .acquire 1, .step 1] = some _ from rfl)
  exact ⟨_, _, h1, rfl, by decide, (registry_wait_free h1 1).2.2 nofun nofun⟩

end Samsara
