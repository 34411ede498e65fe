import Samsara.Hazard.Guards

/-!
# A slot is always found

`acquire` passes the slots one by one and may find each of them in use at its own moment.
It still finds a free one: a client that passes a slot leaves the holder of it behind
(`Lib/Levels`), and there are not enough clients to do so `MAX_HAZARDS` times.
-/

namespace Samsara.HazardRegistry

open Levels StepSys

def Pc.level : Pc → Option Nat
  | acquire i | live i | protect i _ | clear i | drop_clear i | drop_release i => some i
  | _ => none

def inside (s : HazardRegistry) : Set Nat := {c | (s.pc c).level ≠ none}

/-- At most `MAX_HAZARDS` clients are inside. -/
def uncrowded (_ : History HazardRegistry Act) (s : HazardRegistry) (_ : Act) : Prop :=
  s.inside.encard ≤ MAX_HAZARDS

theorem Pc.level_of_slot {q : Pc} {i : Nat} (h : q.role.slot = some i) : q.level = some i := by
  cases q <;> first | exact h | cases h

variable {s s' : HazardRegistry} {a : Act} {tr : History HazardRegistry Act}

theorem above_zero (s : HazardRegistry) : above (Pc.level ∘ s.pc) 0 = s.inside := by
  ext c
  simp [above, inside, Option.ne_none_iff_exists']

/-- The clients stay thin, and `acquire` does not run out of slots. -/
theorem thin_step (ht : s.Tabled) (hl : Thin MAX_HAZARDS (Pc.level ∘ s.pc))
    (hn : ∀ c, s.pc c ≠ .acquire_none) (hall : s.inside.encard ≤ MAX_HAZARDS)
    (hst : s.step a = some s') :
    Thin MAX_HAZARDS (Pc.level ∘ s'.pc) ∧ ∀ c, s'.pc c ≠ .acquire_none := by
  obtain ⟨p, hm, hpc⟩ := step_cases hst
  rw [hpc, Function.comp_update]
  generalize s'.slots = slots' at hm
  refine and_comm.mp ⟨(Function.forall_update_iff s.pc (p := fun _ q => q ≠ .acquire_none)).mpr
    ⟨?_, fun c _ => hn c⟩, ?_⟩
  · generalize hq : s.pc a.client = q at hm
    rintro rfl
    cases hm with
    | acquire_none hi => exact hi (hl.lt (by decide) (congrArg Pc.level hq))
  · generalize hq : s.pc a.client = q at hm
    have hlevel : (Pc.level ∘ s.pc) a.client = q.level := congrArg Pc.level hq
    cases hm
    case acquire_busy i hi hu =>
      refine ht.climb hl (above_zero s ▸ hall) (fun u i => Pc.level_of_slot) ?_ hlevel hu
      exact congrArg Pc.role hq
    all_goals
      refine hl.update fun j hj => ?_
      rw [hlevel]
      simp_all [Pc.level]

/-- **`acquire` never returns `None`** while at most `MAX_HAZARDS` clients are inside. -/
theorem acquire_never_none (h : Run step uncrowded new tr s) : ∀ c, s.pc c ≠ .acquire_none := by
  have hall : s.Tabled ∧ Thin MAX_HAZARDS (Pc.level ∘ s.pc) ∧ ∀ c, s.pc c ≠ .acquire_none := by
    refine h.hist (P := fun _ s => s.Tabled ∧ Thin MAX_HAZARDS (Pc.level ∘ s.pc) ∧
      ∀ c, s.pc c ≠ .acquire_none) ?_ ?_
    · exact ⟨tabled_new, thin_none, fun _ => by simp [new]⟩
    · intro tr s a s' _ ⟨ht, hl, hn⟩ hcrowd hst
      exact ⟨ht.step hst, thin_step ht hl hn hcrowd hst⟩
  exact hall.2.2

/-- Clients below `MAX_HAZARDS` are not a crowd; the others stay idle. -/
theorem uncrowded_of_run (h : Run step anyEnv new tr s)
    (hb : ∀ x ∈ tr, x.2.client < MAX_HAZARDS) :
    Run step uncrowded new tr s ∧ ∀ c, MAX_HAZARDS ≤ c → s.pc c = .idle := by
  induction h with
  | nil => exact ⟨.nil, fun _ _ => rfl⟩
  | @snoc tr s s' a _ _ hst ih =>
    obtain ⟨hrun, hidle⟩ := ih fun x hx => hb x (List.mem_append_left _ hx)
    have ha : a.client < MAX_HAZARDS := hb (s, a) (List.mem_append_right _ (List.mem_singleton_self _))
    have hinside : s.inside ⊆ {c | c < MAX_HAZARDS} := by
      intro c hc
      by_contra hlt
      exact hc (by rw [hidle c (Nat.le_of_not_lt hlt)]; rfl)
    refine ⟨hrun.snoc ((Set.encard_le_encard hinside).trans (Set.Nat.encard_range _).le) hst, ?_⟩
    intro c hc
    obtain ⟨p, -, hpc⟩ := step_cases hst
    rw [hpc, Function.update_of_ne (show c ≠ a.client by omega)]
    exact hidle c hc

end Samsara.HazardRegistry
