import Samsara.Gc.Moves

/-!
# The end of marking

`concurrent_mark` returns after it has seen the phase off `Marking`, drained the
remembered set once more and found the stack empty. `Ending` is what that tail of the
loop knows, in any run in which nothing is recorded once the phase has left `Marking`
(`Settled`). Two promises of the environment give that: every call of the mutators has
returned when the phase leaves and none starts afterwards (`quietEnd`), or no call is
about to record when it leaves and marking does not start again (`recordedEnd`).
-/

namespace Samsara

open StepSys

abbrev GcHistory := History Gc Act

namespace Gc

def leaves (s : Gc) (a : Act) : Prop := s.phase.load = .Marking ∧ s.phaseAfter a ≠ .Marking

def enters (s : Gc) (a : Act) : Prop := s.phase.load ≠ .Marking ∧ s.phaseAfter a = .Marking

def AllIdle (s : Gc) : Prop := ∀ t, s.muts t = .idle

/-- No mutator is between a phase load that saw `Marking` and its record. -/
def Settled (s : Gc) : Prop := ∀ t old slot, s.muts t ≠ .record old slot

theorem AllIdle.settled {s : Gc} (h : s.AllIdle) : s.Settled := fun t _ _ e => by
  rw [h t] at e; cases e

end Gc

def Act.startsCall : Act → Bool
  | .pre_write _ _ | .overwrite _ _ _ => true
  | _ => false

def HasLeft (tr : GcHistory) : Prop := ∃ x ∈ tr, x.1.leaves x.2

def recorded (tr : GcHistory) : List UInt32 := tr.filterMap fun x =>
  match x.2 with
  | .mutator t =>
    match x.1.muts t with
    | .record old _ => some old
    | _ => none
  | _ => none

/-- When the phase leaves `Marking` every call of the mutators has returned, and no call
starts afterwards. -/
def quietEnd (tr : GcHistory) (s : Gc) (a : Act) : Prop :=
  (s.leaves a → s.AllIdle) ∧ (a.startsCall → ¬ HasLeft tr)

/-- When the phase leaves `Marking` no call is about to record, and marking does not
start again. -/
def recordedEnd (tr : GcHistory) (s : Gc) (a : Act) : Prop :=
  (s.leaves a → s.Settled) ∧ (s.enters a → ¬ HasLeft tr)

/-- Steps of a thread inside a call: no promise of the environment is about them. -/
def Act.silent : Act → Bool
  | .spawn | .worker | .mutator _ | .load _ _ _ => true
  | _ => false

theorem Act.silent_spec {a : Act} (h : a.silent) :
    a.startsCall = false ∧ ∀ s : Gc, ¬ s.leaves a ∧ ¬ s.enters a := by
  cases a <;> first | exact ⟨rfl, fun s => ⟨fun h => h.2 h.1, fun h => h.1 h.2⟩⟩ | cases h

theorem hasLeft_snoc {tr : GcHistory} {s : Gc} {a : Act} :
    HasLeft (tr ++ [(s, a)]) ↔ HasLeft tr ∨ s.leaves a := by
  simp [HasLeft, or_and_right, exists_or]

theorem mem_recorded_snoc {tr : GcHistory} {s : Gc} {a : Act} {id : UInt32} :
    id ∈ recorded (tr ++ [(s, a)]) ↔
      id ∈ recorded tr ∨ ∃ t slot, a = .mutator t ∧ s.muts t = .record id slot := by
  simp only [recorded, List.filterMap_append, List.mem_append]
  refine or_congr Iff.rfl ?_
  constructor
  · intro h
    simp only [List.mem_filterMap, List.mem_singleton, exists_eq_left] at h
    split at h
    · next t =>
      split at h
      · next old slot hm => cases h; exact ⟨t, slot, rfl, hm⟩
      · cases h
    · cases h
  · rintro ⟨t, slot, rfl, hm⟩
    simp [hm]

variable {env : GcHistory → Gc → Act → Prop} {s₀ s : Gc} {tr : GcHistory}

theorem hasLeft_of_phase (hm : s₀.phase.load = .Marking) (h : Run Gc.step env s₀ tr s) :
    s.phase.load ≠ .Marking → HasLeft tr := by
  refine h.hist (P := fun tr s => s.phase.load ≠ .Marking → HasLeft tr) (absurd hm) ?_
  intro tr s a s' _ ih _ hst hs'
  rw [hasLeft_snoc]
  by_cases hp : s.phase.load = .Marking
  · exact .inr ⟨hp, Gc.step_phase hst ▸ hs'⟩
  · exact .inl (ih hp)

theorem allIdle_of_left (hq : ∀ tr s a, env tr s a → quietEnd tr s a)
    (h : Run Gc.step env s₀ tr s) : HasLeft tr → s.AllIdle := by
  refine h.hist (P := fun tr s => HasLeft tr → s.AllIdle) (fun ⟨x, hx, _⟩ => nomatch hx) ?_
  intro tr s a s' _ ih he hst hl t
  obtain ⟨hidle, hcall⟩ := hq _ _ _ he
  have hs : s.AllIdle := (hasLeft_snoc.mp hl).elim ih hidle
  rcases Gc.step_muts hst with e | ⟨u, m, hmv, e⟩
  · rw [e]; exact hs t
  · -- an idle mutator can only start a call, and the leaving step is not one
    have hl' : HasLeft tr :=
      (hasLeft_snoc.mp hl).resolve_right fun hl => hl.2 (hmv.phaseAfter ▸ hl.1)
    cases hmv with
    | call | overwrite => exact absurd hl' (hcall rfl)
    | saw hm | skip hm | record hm | write hm => rw [hs] at hm; cases hm

theorem settled_of_left (hq : ∀ tr s a, env tr s a → recordedEnd tr s a)
    (h : Run Gc.step env s₀ tr s) : HasLeft tr → s.Settled ∧ s.phase.load ≠ .Marking := by
  refine h.hist (P := fun tr s => HasLeft tr → s.Settled ∧ s.phase.load ≠ .Marking)
    (fun ⟨x, hx, _⟩ => nomatch hx) ?_
  intro tr s a s' _ ih he hst hl
  obtain ⟨hset, hent⟩ := hq _ _ _ he
  have hs : s.Settled := (hasLeft_snoc.mp hl).elim (fun h => (ih h).1) hset
  have hp : s'.phase.load ≠ .Marking := by
    rw [Gc.step_phase hst]
    rcases hasLeft_snoc.mp hl with hl | hl
    · exact fun e => hent ⟨(ih hl).2, e⟩ hl
    · exact hl.2
  refine ⟨fun t old slot hm => ?_, hp⟩
  rcases Gc.step_to_record hst hm with hm | ⟨rfl, -, hp'⟩
  · exact hs t old slot hm
  · exact hp ((Gc.step_phase hst).trans hp')

/-- The phase is `Marking` and `concurrent_mark` is not called yet. -/
structure BeforeCall (s₀ : Gc) : Prop where
  phase : s₀.phase.load = .Marking
  not_called : s₀.pc = .not_called
  black : s₀.black = ∅

theorem BeforeCall.wf {s₀ : Gc} (h : BeforeCall s₀) : s₀.Wf :=
  ⟨fun id e => (by rw [h.not_called] at e; cases e), fun _ => h.black⟩

/-- What the worker knows on its way out, when nothing is recorded after the phase left. -/
structure Ending (tr : GcHistory) (s : Gc) : Prop where
  tail : s.pc = .final_drain ∨ (∃ fd, s.pc = .is_empty fd) ∨ s.pc = .returned → HasLeft tr
  drained : (∃ fd, s.pc = .is_empty fd) ∨ s.pc = .returned → s.remembered.inner = []

theorem ending_of_run (h0 : BeforeCall s₀)
    (hset : ∀ {tr s}, Run Gc.step env s₀ tr s → HasLeft tr → s.Settled)
    (h : Run Gc.step env s₀ tr s) : Ending tr s := by
  refine h.hist ⟨by simp [h0.not_called], by simp [h0.not_called]⟩ ?_
  intro tr s a s' hr ih _ hst
  rcases Gc.step_locals hst with rfl | ⟨rfl, -, rfl⟩ | ⟨hw, hpc', -⟩
  · obtain ⟨h1, h2, h3⟩ := Gc.worker_tail hst
    refine ⟨fun h => hasLeft_snoc.mpr (.inl ?_), fun h => ?_⟩
    · rcases h with h | ⟨fd, h⟩ | h
      · exact hasLeft_of_phase h0.phase hr (h1 h)
      · exact ih.tail (.inl (h2 fd h).1)
      · exact ih.tail (.inr (.inl ⟨_, (h3 h).1⟩))
    · rcases h with ⟨fd, h⟩ | h
      · exact (h2 fd h).2
      · rw [(h3 h).2.2.2]; exact ih.drained (.inl ⟨_, (h3 h).1⟩)
  · exact ⟨by simp, by simp⟩
  · -- the other threads do not move the worker, and none of them records any more
    refine ⟨fun h => hasLeft_snoc.mpr (.inl (ih.tail (hpc' ▸ h))), fun h => ?_⟩
    rw [hpc'] at h
    rcases Gc.step_remembered hst with e | ⟨t, old, slot, -, hrec, -⟩ | ⟨e, -, -⟩
    · rw [e]; exact ih.drained h
    · exact absurd hrec (hset hr (ih.tail (.inr h)) t old slot)
    · exact absurd e hw

theorem Ending.returnsClean {s' : Gc} {a : Act} (he : Ending tr s) (h : s.step a = some s') :
    s.ReturnsClean s' := by
  intro hn hr
  rcases Gc.step_locals h with rfl | ⟨rfl, -, rfl⟩ | ⟨-, hpc, -⟩
  · exact he.drained (.inl ⟨_, ((Gc.worker_tail h).2.2 hr).1⟩)
  · cases hr
  · rw [hpc] at hr
    exact absurd hr hn

end Samsara
