import Mathlib.Algebra.BigOperators.Group.Finset.Basic
import Samsara.Gc.Agree
import Samsara.Lib.Progress

/-!
# `concurrent_mark` terminates

With a fixed `refs_of` and marking over, every step of the worker is paid out of `potential`:
an entry of the stack pays for its pop and its test, an entry of the remembered set for the
way to the stack as well, and an id that is not black yet for its scan and for the children
the scan pushes. The other threads leave the potential alone, so the worker returns whatever
they do in between (`worker_steps_le`).

Over a whole run the calls of `refs_of` are the black ids, each once (`Called`). What is
popped was on the stack or in the remembered set at the start, or it was recorded or pushed by
another thread, or it is a slot of a scanned id (`pops_le`).
-/

namespace Samsara

open StepSys

def fixedRefs (_ : GcHistory) (_ : Gc) (a : Act) : Prop := a.mutates = false

namespace Gc

def pops (s : Gc) : Act → List UInt32
  | .worker =>
    match s.pc, s.stack.objects with
    | .pop, id :: _ => [id]
    | _, _ => []
  | _ => []

def calls (s : Gc) : Act → List UInt32
  | .worker =>
    match s.pc with
    | .refs_of id => [id]
    | _ => []
  | _ => []

def records (s : Gc) : Act → List UInt32
  | .mutator t =>
    match s.muts t with
    | .record old _ => [old]
    | _ => []
  | _ => []

def pushes (_ : Gc) : Act → List UInt32
  | .push id => [id]
  | _ => []

end Gc

/-- Marking is over: the phase stays off `Marking`, no other thread pushes or records. -/
structure MarkingOver (tr : GcHistory) (s : Gc) (a : Act) : Prop where
  refs : fixedRefs tr s a
  phase : s.phaseAfter a ≠ .Marking
  pushes : s.pushes a = []
  records : s.records a = []

def workerOver (s : Gc) (a : Act) : Bool := a = .worker ∧ s.phase.load ≠ .Marking

theorem markingOver_of_worker (tr : GcHistory) (s : Gc) (a : Act) (h : workerOver s a = true) :
    MarkingOver tr s a := by
  obtain ⟨rfl, hp⟩ := of_decide_eq_true h
  exact ⟨rfl, hp, rfl, rfl⟩

def workerSteps (tr : GcHistory) : ℕ := total (fun _ a => if a = .worker then 1 else 0) tr

theorem recorded_eq_log (tr : GcHistory) : recorded tr = log Gc.records tr := by
  unfold recorded log
  rw [List.filterMap_eq_flatMap_toList]
  refine List.flatMap_congr fun ⟨s, a⟩ _ => ?_
  cases a with
  | mutator t => cases hm : s.muts t <;> simp [Gc.records, hm]
  | _ => rfl

variable {s₀ s s' : Gc} {tr : GcHistory} {a : Act}

/-! ## Termination -/

namespace Gc

/-- What is left of the iteration: an id about to be pushed costs 4, one more than its entry
on the stack is then worth, and with the stack empty the tail of the loop leads out. -/
def price (s : Gc) : ℕ :=
  match s.pc with
  | .not_called | .drain => 5
  | .lock l => 6 + 4 * l.length
  | .push l => 5 + 4 * l.length
  | .pop => 4
  | .insert _ => 6
  | .refs_of id => 7 + 4 * (s.objects.refs_of id).length
  | .children l => 6 + 4 * l.length
  | .load => if s.stack.objects = [] then 3 else 10
  | .final_drain => if s.stack.objects = [] then 2 else 9
  | .is_empty l => if l = [] ∧ s.stack.objects = [] then 1 else 8 + 4 * l.length
  | .final_lock l => 7 + 4 * l.length
  | .final_push l => 6 + 4 * l.length
  | .returned => 0

def unscanned (ids : Finset UInt32) (s : Gc) : ℕ :=
  ∑ id ∈ ids \ s.black, (2 + 4 * (s.objects.refs_of id).length)

/-- The steps left once marking is over, or more. An entry of the stack is worth its pop, its
test and the way back to the drain. -/
def potential (ids : Finset UInt32) (s : Gc) : ℕ :=
  3 * s.stack.objects.length + 11 * s.remembered.inner.length + s.unscanned ids + s.price

variable {ids : Finset UInt32}

theorem unscanned_insert (hids : ∀ id, id ∈ ids) {id : UInt32} (hb : id ∉ s.black)
    (hs' : s'.black = insert id s.black) (ho : s'.objects = s.objects) :
    s'.unscanned ids + (2 + 4 * (s.objects.refs_of id).length) = s.unscanned ids := by
  unfold unscanned
  rw [hs', ho, Finset.sdiff_insert]
  exact Finset.sum_erase_add _ _ (Finset.mem_sdiff.mpr ⟨hids id, hb⟩)

/-- **A step of the worker lowers the potential.** -/
theorem worker_potential (hids : ∀ id, id ∈ ids) (hp : s.phase.load ≠ .Marking)
    (h : s.workerStep = some s') : s'.potential ids + 1 ≤ s.potential ids := by
  cases worker_cases h
  case load_marking hpc hp' => exact absurd hp' hp
  case insert id hpc hb =>
    have hpay : ({ s with black := insert id s.black, pc := .refs_of id } : Gc).unscanned ids +
        (2 + 4 * (s.objects.refs_of id).length) = s.unscanned ids :=
      unscanned_insert hids hb rfl rfl
    simp only [potential, price, hpc]
    omega
  case drain hpc hr =>
    have := List.length_pos_iff.mpr hr
    simp only [potential, price, unscanned, hpc, List.length_nil]
    omega
  case load_left hpc _ =>
    simp only [potential, price, unscanned, hpc]
    split <;> omega
  case final_drain hpc =>
    -- with ids recorded the loop goes on, and their share of the remembered set pays for it
    simp only [potential, price, unscanned, hpc, List.length_nil]
    by_cases hr : s.remembered.inner = []
    · simp only [hr, true_and, List.length_nil]
      split <;> omega
    · have := List.length_pos_iff.mpr hr
      rw [if_neg fun e => hr e.1]
      split <;> omega
  case is_empty l hpc hs =>
    simp only [potential, price, unscanned, hpc]
    rw [if_neg fun e => hs e.1 e.2]
    omega
  all_goals simp +arith [potential, price, unscanned, MarkStack.push, *]

theorem step_potential (hw : s.Wf) (hids : ∀ id, id ∈ ids) (hp : s.phase.load ≠ .Marking)
    (he : MarkingOver tr s a) (h : s.step a = some s') :
    (if a = .worker then 1 else 0) + s'.potential ids ≤ s.potential ids := by
  rcases step_locals h with rfl | ⟨rfl, hpc, rfl⟩ | ⟨ha, hpc, hb⟩
  · rw [if_pos rfl, add_comm]
    exact worker_potential hids hp h
  · simp [potential, price, unscanned, hpc, hw.not_called hpc]
  have hobj := step_objects_eq he.refs h
  have hstack := step_stack h ha fun id e => by
    have := he.pushes
    rw [e] at this
    cases this
  have hrem : s'.remembered = s.remembered := by
    rcases step_remembered h with e | ⟨t, old, slot, rfl, hm, -⟩ | ⟨rfl, -⟩
    · exact e
    · have := he.records
      simp [records, hm] at this
    · exact absurd rfl ha
  rw [if_neg ha, zero_add]
  simp only [potential, price, unscanned, hobj, hstack, hrem, hpc, hb]
  exact le_rfl

theorem returned_of_potential (ids : Finset UInt32) (h : s.potential ids = 0) :
    s.pc = .returned := by
  have hprice : s.price = 0 := by
    unfold potential at h
    omega
  cases hpc : s.pc <;> simp only [price, hpc] at hprice
  case returned => rfl
  all_goals (try split at hprice) <;> omega

theorem worker_enabled (hcalled : s.pc ≠ .not_called) (hret : s.pc ≠ .returned) :
    ∃ s', s.step .worker = some s' := by
  cases hpc : s.pc
  case not_called => exact absurd hpc hcalled
  case returned => exact absurd hpc hret
  case push l => cases l <;> simp [step, workerStep, hpc]
  case final_push l => cases l <;> simp [step, workerStep, hpc]
  case pop => cases hs : s.stack.objects <;> simp [step, workerStep, MarkStack.pop, hpc, hs]
  case insert id => by_cases hb : id ∈ s.black <;> simp [step, workerStep, hpc, hb]
  case children l =>
    rcases l with _ | ⟨c, l⟩
    · simp [step, workerStep, hpc]
    · by_cases hb : c ∈ s.black <;> simp [step, workerStep, hpc, hb]
  all_goals simp [step, workerStep, hpc]

end Gc

/-- **The worker terminates once marking is over.** -/
theorem worker_steps_le {ids : Finset UInt32} (hids : ∀ id, id ∈ ids) (hw : s₀.Wf)
    (hp : s₀.phase.load ≠ .Marking) (h : Run Gc.step MarkingOver s₀ tr s) :
    workerSteps tr + s.potential ids ≤ s₀.potential ids := by
  have hle : workerSteps tr + s.potential ids ≤
      s₀.potential ids + total (fun (_ : Gc) (_ : Act) => 0) tr := by
    refine (Run.amortized (I := fun s => s.Wf ∧ s.phase.load ≠ .Marking) _ ⟨hw, hp⟩ ?_ h).2
    intro tr s a s' hI he hst
    refine ⟨⟨Gc.step_wf hI.1 hst, ?_⟩, Gc.step_potential hI.1 hids hI.2 he hst⟩
    rw [Gc.step_phase hst]
    exact he.phase
  simpa [total] using hle

/-! ## The calls of `refs_of` -/

namespace Gc

theorem worker_calls (hw : s.Wf) (h : s.workerStep = some s') :
    s'.scanned = s.scanned ∪ {id | id ∈ s.calls .worker} := by
  ext x
  simp only [scanned, calls, Set.mem_union, Set.mem_ofPred_eq]
  cases worker_cases h
  case refs_of id hpc =>
    have hid : x = id → x ∈ s.black := fun e => e ▸ hw.refs_of id hpc
    simp [hpc]
    tauto
  case insert id hpc hb =>
    have hid : x = id → x ∉ s.black := fun e => e ▸ hb
    simp [hpc]
    tauto
  all_goals simp [*]

theorem step_calls (hw : s.Wf) (h : s.step a = some s') :
    s'.scanned = s.scanned ∪ {id | id ∈ s.calls a} := by
  rcases step_locals h with rfl | ⟨rfl, hpc, rfl⟩ | ⟨ha, hpc, hb⟩
  · exact worker_calls hw h
  · simp [scanned, calls, hpc, hw.not_called hpc]
  · have hno : s.calls a = [] := by cases a <;> first | rfl | exact absurd rfl ha
    simp [scanned, hno, hpc, hb]

theorem calls_fresh {id : UInt32} (h : id ∈ s.calls a) : s.calls a = [id] ∧ id ∉ s.scanned := by
  unfold calls at h ⊢
  split at h
  · split at h
    · next x hpc =>
      rw [List.mem_singleton] at h
      subst h
      exact ⟨rfl, fun hs => hs.2 hpc⟩
    · cases h
  · cases h

end Gc

/-- The calls so far are for the scanned ids, each once. -/
structure Called (s₀ : Gc) (tr : GcHistory) (s : Gc) : Prop where
  wf : s.Wf
  objects : s.objects = s₀.objects
  nodup : (log Gc.calls tr).Nodup
  scanned : ∀ id, id ∈ log Gc.calls tr ↔ id ∈ s.scanned

theorem Called.step (h : Called s₀ tr s) (hf : fixedRefs tr s a) (hst : s.step a = some s') :
    Called s₀ (tr ++ [(s, a)]) s' := by
  refine ⟨Gc.step_wf h.wf hst, (Gc.step_objects_eq hf hst).trans h.objects, ?_, fun id => ?_⟩
  · rw [log_snoc, List.nodup_append]
    refine ⟨h.nodup, ?_, fun x hx y hy e => ?_⟩
    · rcases hc : s.calls a with _ | ⟨id, l⟩
      · exact List.nodup_nil
      · rw [← hc, (Gc.calls_fresh (hc ▸ List.mem_cons_self)).1]
        exact List.nodup_singleton id
    · subst e
      exact (Gc.calls_fresh hy).2 ((h.scanned x).mp hx)
  · rw [log_snoc, List.mem_append, h.scanned, Gc.step_calls h.wf hst]
    rfl

theorem called_of_run (hw : s₀.Wf) (hb : s₀.black = ∅) (h : Run Gc.step fixedRefs s₀ tr s) :
    Called s₀ tr s := by
  refine h.hist ⟨hw, rfl, List.nodup_nil, fun id => ?_⟩ fun _ _ _ _ _ ih he hst => ih.step he hst
  simp [log, Gc.scanned, hb]

/-! ## The pops -/

def WorkerPc.held : WorkerPc → List UInt32
  | .lock l | .push l | .children l | .is_empty l | .final_lock l | .final_push l => l
  | _ => []

namespace Gc

def entries (s : Gc) : ℕ :=
  s.stack.objects.length + s.remembered.inner.length + s.pc.held.length

def brings (o : Objects) (s : Gc) (a : Act) : List UInt32 :=
  s.records a ++ s.pushes a ++ (s.calls a).flatMap o.refs_of

/-- A step pops an entry there was or brings in new ones. -/
theorem step_entries (h : s.step a = some s') :
    (s.pops a).length + s'.entries ≤ s.entries + (s.brings s.objects a).length := by
  cases a <;> simp only [step] at h
  case worker =>
    cases worker_cases h
    all_goals
      simp +arith [pops, brings, entries, calls, records, pushes, WorkerPc.held, MarkStack.push, *]
  case mutator t =>
    simp only [mutatorStep] at h
    split at h
    · cases h; simp [pops, entries, setMut]
    · next hm =>
      cases h
      simp +arith [pops, brings, entries, records, hm, RememberedSet.record, setMut]
    · cases h
  case push id =>
    split at h <;> cases h
    simp +arith [pops, brings, entries, pushes, MarkStack.push]
  case spawn =>
    split at h <;> cases h
    next hpc => simp [pops, entries, WorkerPc.held, hpc]
  all_goals
    (try split at h) <;> cases h
    simp [pops, entries, setMut]

end Gc

theorem pops_le (h : Run Gc.step fixedRefs s₀ tr s) :
    (log Gc.pops tr).length + s.entries ≤
      s₀.entries + (log (Gc.brings s₀.objects) tr).length := by
  rw [length_log, length_log]
  refine (Run.amortized (I := fun s => s.objects = s₀.objects) Gc.entries rfl ?_ h).2
  intro tr s a s' ho he hst
  refine ⟨(Gc.step_objects_eq he hst).trans ho, ?_⟩
  rw [← ho]
  exact Gc.step_entries hst

/-- What was brought in: the ids recorded, those pushed, and the slots of the scanned ones. -/
theorem length_brings (o : Objects) (tr : GcHistory) :
    (log (Gc.brings o) tr).length = (recorded tr).length + (log Gc.pushes tr).length +
      ((log Gc.calls tr).map fun id => (o.refs_of id).length).sum := by
  rw [recorded_eq_log]
  induction tr with
  | nil => rfl
  | cons x tr ih =>
    simp only [log, List.flatMap_cons, List.length_append, List.map_append, List.sum_append,
      Gc.brings] at ih ⊢
    rw [ih, List.length_flatMap]
    omega

/-- **`concurrent_mark` terminates and scans each object once.** Once the phase is off `Marking`
and nobody else pushes or records, the worker is never blocked and returns within a number
of its own steps that does not depend on the schedule. Over the whole run it calls `refs_of`
once for each id of the black set it returns, and pops no more ids than there were, were recorded
or pushed by another thread, or are slots of those. -/
theorem concurrent_mark_terminates (h0 : s₀.pc = .not_called) (hb : s₀.black = ∅)
    (h : Run Gc.step fixedRefs s₀ tr s) :
    (s.phase.load ≠ .Marking → ∃ n, ∀ tr' s', Run Gc.step MarkingOver s tr' s' →
      (s'.pc ≠ .not_called → s'.pc ≠ .returned → ∃ s'', s'.step .worker = some s'') ∧
      (n ≤ workerSteps tr' → s'.pc = .returned)) ∧
    (s.pc = .returned →
      (log Gc.calls tr).Nodup ∧ (∀ id, id ∈ log Gc.calls tr ↔ id ∈ s.black) ∧
      (log Gc.pops tr).length ≤ s₀.stack.objects.length + s₀.remembered.inner.length +
        (recorded tr).length + (log Gc.pushes tr).length +
        ∑ id ∈ s.black, (s₀.objects.refs_of id).length) := by
  have hw : s₀.Wf := ⟨fun id e => (by rw [h0] at e; cases e), fun _ => hb⟩
  have hc := called_of_run hw hb h
  refine ⟨fun hp => ?_, fun hret => ?_⟩
  · have hids : ∀ id, id ∈ (finite_ids Set.univ).toFinset := by simp
    refine ⟨s.potential (finite_ids Set.univ).toFinset, fun tr' s' h' => ⟨Gc.worker_enabled, ?_⟩⟩
    intro hn
    have hle := worker_steps_le hids hc.wf hp h'
    exact Gc.returned_of_potential (finite_ids Set.univ).toFinset (by omega)
  · have hblack : ∀ id, id ∈ log Gc.calls tr ↔ id ∈ s.black := fun id => by
      rw [hc.scanned]
      simp [Gc.scanned, hret]
    have hsum : ((log Gc.calls tr).map fun id => (s₀.objects.refs_of id).length).sum =
        ∑ id ∈ s.black, (s₀.objects.refs_of id).length := by
      rw [← List.sum_toFinset _ hc.nodup]
      exact Finset.sum_congr (Finset.ext fun id => by rw [List.mem_toFinset, hblack]) fun _ _ => rfl
    have hle := pops_le h
    have hstart : s₀.entries = s₀.stack.objects.length + s₀.remembered.inner.length := by
      simp [Gc.entries, h0, WorkerPc.held]
    rw [length_brings, hsum, hstart] at hle
    exact ⟨hc.nodup, hblack, by omega⟩

/-- Nothing to mark when the worker starts. -/
def rootlessStart : Gc where
  objects _ := none
  phase := .store .Marking
  remembered := ⟨[]⟩
  stack := ⟨[]⟩
  black := ∅
  pc := .not_called
  muts _ := .idle

/-- A root that another thread pushes after the call is popped as well. -/
theorem late_push_is_popped :
    ∃ tr s tr' s', Run Gc.step fixedRefs rootlessStart tr s ∧ s.phase.load ≠ .Marking ∧
      Run Gc.step MarkingOver s tr' s' ∧ s'.pc = .returned ∧
      rootlessStart.stack.objects.length + rootlessStart.remembered.inner.length +
        (recorded (tr ++ tr')).length + ∑ id ∈ s'.black, (rootlessStart.objects.refs_of id).length <
          (log Gc.pops (tr ++ tr')).length := by
  have h1 := (Run.nil : Run Gc.step fixedRefs rootlessStart [] rootlessStart).exec
    (fun a ha tr s =>
      (show ∀ a ∈ [Act.spawn, .push 7, .store .Idle], a.mutates = false by decide) a ha) rfl
  have h2 := (Run.nil : Run (guarded workerOver Gc.step) anyEnv
    { rootlessStart with phase := .store .Idle, stack := ⟨[7]⟩, pc := .drain } [] _).exec
    (fun _ _ _ _ => trivial) (show exec _ _ _ (List.replicate 10 Act.worker) = some _ from rfl)
  exact ⟨_, _, _, _, h1, by decide, h2.of_guarded markingOver_of_worker, rfl, by decide +kernel⟩

/-- A call in flight records `2`, the phase leaves, and then the worker starts: it returns from
there, and 32 of its steps are enough. -/
theorem concurrent_mark_terminates_capture :
    ∃ tr s tr' s', Run Gc.step fixedRefs agreeStart tr s ∧ s.pc = .drain ∧
      (∃ n, ∀ tr₁ s₁, Run Gc.step MarkingOver s tr₁ s₁ → n ≤ workerSteps tr₁ →
        s₁.pc = .returned) ∧
      Run Gc.step fixedRefs agreeStart tr' s' ∧ s'.pc = .returned ∧
      (log Gc.calls tr').Nodup ∧ (log Gc.pops tr').length ≤ 6 := by
  have h := (Run.nil : Run Gc.step fixedRefs agreeStart [] agreeStart).exec
    (fun a ha tr s =>
      (show ∀ a ∈ [Act.mutator 0, .mutator 0, .store .Idle, .spawn], a.mutates = false by decide)
        a ha) rfl
  have h' := h.exec
    (fun a ha tr s => (show ∀ a ∈ List.replicate 32 Act.worker, a.mutates = false by decide) a ha)
    rfl
  obtain ⟨n, hn⟩ := (concurrent_mark_terminates rfl rfl h).1 (by decide)
  obtain ⟨hnodup, -, hle⟩ := (concurrent_mark_terminates rfl rfl h').2 rfl
  exact ⟨_, _, _, _, h, rfl, ⟨n, fun tr₁ s₁ h₁ => (hn tr₁ s₁ h₁).2⟩, h', rfl, hnodup,
    hle.trans (by decide +kernel)⟩

end Samsara
