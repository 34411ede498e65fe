import Samsara.Gc.System

/-!
# What a step can do

Every step of the collector is one of the two moves of a graph search (`Lib/Search`) on
the sets `scanned` and `found`: it scans one id or finds some (`shaded`). `found_mono`,
`shaded_found`, `found_le` and `scanned_step` say so for every action at once, and the
frame lemmas say which part of the state an action leaves alone; the invariants of the
following modules are derived from these and do not unfold `step` again.
-/

namespace Samsara

/-- The ids the worker holds in its locals between two steps. -/
def WorkerPc.transit : WorkerPc → List UInt32
  | .lock l | .push l | .children l | .is_empty l | .final_lock l | .final_push l => l
  | .insert id | .refs_of id => [id]
  | _ => []

def Act.mutates : Act → Bool
  | .write _ _ | .alloc _ _ _ => true
  | _ => false

namespace Gc

/-- What the worker still has to process; nothing once it has returned. -/
def pending (s : Gc) : Set UInt32 :=
  {id | s.pc ≠ .returned ∧ (id ∈ s.stack.objects ∨ id ∈ s.remembered.inner ∨ id ∈ s.pc.transit)}

def found (s : Gc) : Set UInt32 := {id | id ∈ s.black ∨ id ∈ s.pending}

def scanned (s : Gc) : Set UInt32 := {id | id ∈ s.black ∧ s.pc ≠ .refs_of id}

def shaded (s : Gc) : Act → Set UInt32
  | .worker => {id | ∃ src, s.pc = .refs_of src ∧ id ∈ s.objects.refs_of src}
  | .push id => {id}
  | .mutator t => {id | ∃ slot, s.muts t = .record id slot}
  | _ => ∅

/-- The id being scanned is black, and there is no black set before the call. -/
structure Wf (s : Gc) : Prop where
  refs_of : ∀ id, s.pc = .refs_of id → id ∈ s.black
  not_called : s.pc = .not_called → s.black = ∅

/-- The worker returns in this step, with nothing left in the remembered set. -/
def ReturnsClean (s s' : Gc) : Prop :=
  s.pc ≠ .returned → s'.pc = .returned → s.remembered.inner = []

variable {s s' : Gc} {a : Act}

/-! ## The worker -/

/-- The branches of the worker's loop, one constructor each. -/
inductive WorkerMove (s : Gc) : Gc → Prop where
  | drain_none (hpc : s.pc = .drain) (hr : s.remembered.inner = []) :
      WorkerMove s { s with remembered := ⟨[]⟩, pc := .pop }
  | drain (hpc : s.pc = .drain) (hr : s.remembered.inner ≠ []) :
      WorkerMove s { s with remembered := ⟨[]⟩, pc := .lock s.remembered.inner }
  | lock {l : List UInt32} (hpc : s.pc = .lock l) : WorkerMove s { s with pc := .push l }
  | push {id : UInt32} {l : List UInt32} (hpc : s.pc = .push (id :: l)) :
      WorkerMove s { s with stack := s.stack.push id, pc := .push l }
  | push_done (hpc : s.pc = .push []) : WorkerMove s { s with pc := .pop }
  | pop {id : UInt32} {rest : List UInt32} (hpc : s.pc = .pop)
      (hs : s.stack.objects = id :: rest) :
      WorkerMove s { s with stack := ⟨rest⟩, pc := .insert id }
  | pop_none (hpc : s.pc = .pop) (hs : s.stack.objects = []) : WorkerMove s { s with pc := .load }
  | dup {id : UInt32} (hpc : s.pc = .insert id) (hb : id ∈ s.black) :
      WorkerMove s { s with pc := .drain }
  | insert {id : UInt32} (hpc : s.pc = .insert id) (hb : id ∉ s.black) :
      WorkerMove s { s with black := insert id s.black, pc := .refs_of id }
  | refs_of {id : UInt32} (hpc : s.pc = .refs_of id) :
      WorkerMove s { s with pc := .children (s.objects.refs_of id) }
  | child_dup {c : UInt32} {l : List UInt32} (hpc : s.pc = .children (c :: l)) (hb : c ∈ s.black) :
      WorkerMove s { s with pc := .children l }
  | child {c : UInt32} {l : List UInt32} (hpc : s.pc = .children (c :: l)) (hb : c ∉ s.black) :
      WorkerMove s { s with stack := s.stack.push c, pc := .children l }
  | children_done (hpc : s.pc = .children []) : WorkerMove s { s with pc := .drain }
  | load_left (hpc : s.pc = .load) (hp : s.phase.load ≠ .Marking) :
      WorkerMove s { s with pc := .final_drain }
  | load_marking (hpc : s.pc = .load) (hp : s.phase.load = .Marking) :
      WorkerMove s { s with pc := .drain }
  | final_drain (hpc : s.pc = .final_drain) :
      WorkerMove s { s with remembered := ⟨[]⟩, pc := .is_empty s.remembered.inner }
  | ret (hpc : s.pc = .is_empty []) (hs : s.stack.objects = []) :
      WorkerMove s { s with pc := .returned }
  | is_empty {l : List UInt32} (hpc : s.pc = .is_empty l) (hs : l = [] → s.stack.objects ≠ []) :
      WorkerMove s { s with pc := .final_lock l }
  | final_lock {l : List UInt32} (hpc : s.pc = .final_lock l) :
      WorkerMove s { s with pc := .final_push l }
  | final_push {id : UInt32} {l : List UInt32} (hpc : s.pc = .final_push (id :: l)) :
      WorkerMove s { s with stack := s.stack.push id, pc := .final_push l }
  | final_done (hpc : s.pc = .final_push []) : WorkerMove s { s with pc := .drain }

theorem worker_cases (h : s.workerStep = some s') : WorkerMove s s' := by
  cases hpc : s.pc <;> simp only [workerStep, hpc] at h
  case not_called => cases h
  case returned => cases h
  case drain =>
    cases h
    by_cases hr : s.remembered.inner = []
    · simpa [RememberedSet.drain, hr] using WorkerMove.drain_none hpc hr
    · simpa [RememberedSet.drain, hr] using WorkerMove.drain hpc hr
  case lock l => cases h; exact .lock hpc
  case push l =>
    rcases l with _ | ⟨id, l⟩ <;> cases h
    · exact .push_done hpc
    · exact .push hpc
  case pop =>
    cases hs : s.stack.objects <;> simp only [MarkStack.pop, hs] at h <;> cases h
    · exact .pop_none hpc hs
    · exact .pop hpc hs
  case insert id =>
    split at h <;> cases h
    · next hb => exact .dup hpc hb
    · next hb => exact .insert hpc hb
  case refs_of id => cases h; exact .refs_of hpc
  case children l =>
    rcases l with _ | ⟨c, l⟩
    · cases h; exact .children_done hpc
    · simp only at h
      split at h <;> cases h
      · next hb => exact .child_dup hpc hb
      · next hb => exact .child hpc hb
  case load =>
    cases h
    by_cases hp : s.phase.load = .Marking
    · simpa [hp] using WorkerMove.load_marking hpc hp
    · simpa [hp] using WorkerMove.load_left hpc hp
  case final_drain => cases h; exact .final_drain hpc
  case is_empty l =>
    cases h
    by_cases he : l = [] ∧ s.stack.objects = []
    · obtain ⟨rfl, hs⟩ := he
      simpa [MarkStack.is_empty, hs] using WorkerMove.ret hpc hs
    · simpa [MarkStack.is_empty, he] using
        WorkerMove.is_empty hpc fun hl hs => he ⟨hl, hs⟩
  case final_lock l => cases h; exact .final_lock hpc
  case final_push l =>
    rcases l with _ | ⟨id, l⟩ <;> cases h
    · exact .final_done hpc
    · exact .final_push hpc

theorem worker_frame (h : s.workerStep = some s') :
    s'.objects = s.objects ∧ s'.phase = s.phase ∧ s'.muts = s.muts := by
  cases worker_cases h <;> exact ⟨rfl, rfl, rfl⟩

theorem worker_running (h : s.workerStep = some s') :
    s.pc ≠ .not_called ∧ s.pc ≠ .returned ∧ s'.pc ≠ .not_called := by
  cases worker_cases h <;> simp [*]

theorem mem_found {x : UInt32} : x ∈ s.found ↔ x ∈ s.black ∨
    (s.pc ≠ .returned ∧ (x ∈ s.stack.objects ∨ x ∈ s.remembered.inner ∨ x ∈ s.pc.transit)) :=
  Iff.rfl

/-- A step of the worker loses no found id, and finds the slots it reads and nothing else. -/
theorem worker_found (hw : s.Wf) (h : s.workerStep = some s') (hr : ReturnsClean s s') :
    s'.found = s.found ∪ s.shaded .worker := by
  refine Set.ext fun x => ?_
  simp only [Set.mem_union, mem_found, shaded, Set.mem_ofPred_eq]
  cases worker_cases h
  case dup id hpc hb | child_dup id _ hpc hb =>
    -- a duplicate: the id is black already
    have : x = id → x ∈ s.black := fun e => by rwa [e]
    simp [WorkerPc.transit, hpc]
    tauto
  case refs_of id hpc =>
    have : x = id → x ∈ s.black := fun e => by rw [e]; exact hw.refs_of id hpc
    simp [WorkerPc.transit, hpc]
    tauto
  case ret hpc hs =>
    have hrem := hr (by simp [hpc]) rfl
    simp [WorkerPc.transit, hpc, hs, hrem]
  all_goals
    simp [WorkerPc.transit, MarkStack.push, *]
    try tauto

/-- Only `insert` blackens an id, a new one, and it goes on to read the slots of that id. -/
theorem worker_black (h : s.workerStep = some s') :
    (s'.black = s.black ∧ ∀ id, s'.pc ≠ .refs_of id) ∨
      ∃ id, s.pc = .insert id ∧ id ∉ s.black ∧ s'.black = insert id s.black ∧
        s'.pc = .refs_of id := by
  cases worker_cases h
  case insert id hpc hb => exact .inr ⟨id, hpc, hb, rfl, rfl⟩
  all_goals exact .inl ⟨rfl, by simp⟩

theorem worker_scanned (h : s.workerStep = some s') :
    s'.scanned ⊆ s.scanned ∪ {id | s.pc = .refs_of id} := by
  rintro x ⟨hb, hx⟩
  by_cases hpc : s.pc = .refs_of x
  · exact .inr hpc
  refine .inl ⟨?_, hpc⟩
  rcases worker_black h with ⟨he, -⟩ | ⟨id, -, -, he, hpc'⟩
  · rwa [← he]
  · rw [he, Finset.mem_insert] at hb
    exact hb.resolve_left fun e => hx (by rw [hpc', e])

theorem worker_wf (h : s.workerStep = some s') : s'.Wf := by
  refine ⟨fun id hid => ?_, fun e => absurd e (worker_running h).2.2⟩
  rcases worker_black h with ⟨-, hne⟩ | ⟨id', -, -, he, hpc'⟩
  · exact absurd hid (hne id)
  · rw [hpc'] at hid
    cases hid
    rw [he]; exact Finset.mem_insert_self _ _

/-- The way to the return: `load` with the phase no longer `Marking`, then the final
drain, then the emptiness tests. -/
theorem worker_tail (h : s.workerStep = some s') :
    (s'.pc = .final_drain → s.phase.load ≠ .Marking) ∧
      (∀ fd, s'.pc = .is_empty fd → s.pc = .final_drain ∧ s'.remembered.inner = []) ∧
      (s'.pc = .returned → s.pc = .is_empty [] ∧ s.stack.objects = [] ∧
        s'.stack = s.stack ∧ s'.remembered = s.remembered) := by
  cases worker_cases h <;> simp [*]

/-! ## Every action -/

theorem step_locals (h : s.step a = some s') :
    a = .worker ∨
      (a = .spawn ∧ s.pc = .not_called ∧ s' = { s with black := ∅, pc := .drain }) ∨
      (a ≠ .worker ∧ s'.pc = s.pc ∧ s'.black = s.black) := by
  cases a <;> simp only [step, mutatorStep] at h
  case worker => exact .inl rfl
  case spawn =>
    split at h <;> cases h
    next hpc => exact .inr (.inl ⟨rfl, hpc, rfl⟩)
  all_goals
    refine .inr (.inr ⟨by simp, ?_⟩)
    (try split at h) <;> cases h <;> exact ⟨rfl, rfl⟩

theorem step_wf (hw : s.Wf) (h : s.step a = some s') : s'.Wf := by
  rcases step_locals h with rfl | ⟨rfl, -, rfl⟩ | ⟨-, hpc, hb⟩
  · exact worker_wf h
  · exact ⟨(fun id e => nomatch e), (fun e => nomatch e)⟩
  · exact ⟨fun id e => by rw [hb]; exact hw.refs_of id (hpc ▸ e),
      fun e => by rw [hb]; exact hw.not_called (hpc ▸ e)⟩

/-- A step loses no found id, and finds what it shades and nothing else; after the return
the worker takes no more notice of what others shade. -/
theorem step_found (hw : s.Wf) (h : s.step a = some s') (hr : ReturnsClean s s') :
    s'.found = s.found ∪ {id | s.pc ≠ .returned ∧ id ∈ s.shaded a} := by
  refine Set.ext fun x => ?_
  simp only [Set.mem_union, Set.mem_ofPred_eq]
  cases a <;> simp only [step] at h
  case worker =>
    rw [worker_found hw h hr, Set.mem_union]
    have := (worker_running h).2.1
    tauto
  case spawn =>
    split at h <;> cases h
    next hpc => simp [mem_found, hpc, hw.not_called hpc, shaded, WorkerPc.transit]
  case push id =>
    split at h <;> cases h
    simp [mem_found, shaded, MarkStack.push]
    tauto
  case mutator t =>
    simp only [mutatorStep] at h
    split at h
    · next hm => cases h; simp [mem_found, shaded, hm, setMut]
    · next hm =>
      cases h
      simp [mem_found, shaded, hm, setMut, RememberedSet.record]
      tauto
    · cases h
  all_goals
    (try split at h) <;> cases h
    simp [mem_found, shaded, setMut]

theorem step_found_subset (hw : s.Wf) (h : s.step a = some s') :
    s'.found ⊆ s.found ∪ s.shaded a := by
  by_cases hr : ReturnsClean s s'
  · rw [step_found hw h hr]
    exact Set.union_subset_union_right _ fun x hx => hx.2
  rintro x (hx | hx)
  · rw [ReturnsClean, Classical.not_imp, Classical.not_imp] at hr
    obtain ⟨hn, hret, -⟩ := hr
    rcases step_locals h with rfl | ⟨rfl, -, rfl⟩ | ⟨-, hpc, -⟩
    · rcases worker_black h with ⟨e, -⟩ | ⟨id, -, -, -, hpc⟩
      · exact .inl (.inl (e ▸ hx))
      · rw [hret] at hpc; cases hpc
    · cases hret
    · exact absurd (hpc ▸ hret) hn
  · rw [ReturnsClean, Classical.not_imp, Classical.not_imp] at hr
    exact absurd hr.2.1 hx.1

theorem step_scanned (h : s.step a = some s') :
    s'.scanned ⊆ s.scanned ∪ {id | a = .worker ∧ s.pc = .refs_of id} := by
  rcases step_locals h with rfl | ⟨rfl, -, rfl⟩ | ⟨-, hpc, hb⟩
  · exact (worker_scanned h).trans fun x hx => hx.imp_right fun e => ⟨rfl, e⟩
  · exact fun x hx => by simp [scanned] at hx
  · rintro x ⟨hxb, hx⟩
    exact .inl ⟨hb ▸ hxb, hpc ▸ hx⟩

def phaseAfter (s : Gc) : Act → Phase
  | .store p => p
  | .transition from_ to_ => if s.phase.load = from_ then to_ else s.phase.load
  | _ => s.phase.load

theorem step_phase (h : s.step a = some s') : s'.phase.load = s.phaseAfter a := by
  cases a <;> simp only [step, mutatorStep] at h
  case worker => rw [(worker_frame h).2.1]; rfl
  case store p => cases h; simp [phaseAfter]
  case transition from_ to_ => cases h; exact AtomicPhase.load_transition _ _ _
  all_goals (try split at h) <;> cases h <;> rfl

theorem step_objects (h : s.step a = some s') :
    (s'.objects = s.objects ∧ ∀ t id slots, a ≠ .alloc t id slots) ∨
      (∃ t target old src i, a = .write t target ∧ s.muts t = .write old (src, i) ∧
        s'.objects = s.objects.setSlot src i target) ∨
      ∃ t id slots, a = .alloc t id slots ∧ s.objects id = none ∧
        s'.objects = Function.update s.objects id (some slots) := by
  cases a <;> simp only [step, mutatorStep] at h
  case worker => exact .inl ⟨(worker_frame h).1, by simp⟩
  case write t target =>
    split at h <;> cases h
    next old src i hm => exact .inr (.inl ⟨t, target, old, src, i, rfl, hm, rfl⟩)
  case alloc t id slots =>
    split at h <;> cases h
    next hg => exact .inr (.inr ⟨t, id, slots, rfl, hg.2, rfl⟩)
  all_goals (try split at h) <;> cases h <;> exact .inl ⟨rfl, by simp⟩

theorem step_objects_eq (hf : a.mutates = false) (h : s.step a = some s') :
    s'.objects = s.objects := by
  rcases step_objects h with ⟨e, -⟩ | ⟨t, target, _, _, _, rfl, -⟩ | ⟨t, id, slots, rfl, -⟩
  · exact e
  · cases hf
  · cases hf

theorem step_stack (h : s.step a = some s') (hw : a ≠ .worker) (hp : ∀ id, a ≠ .push id) :
    s'.stack = s.stack := by
  cases a <;> simp only [step, mutatorStep] at h
  case worker => exact absurd rfl hw
  case push id => exact absurd rfl (hp id)
  all_goals (try split at h) <;> cases h <;> rfl

theorem step_remembered (h : s.step a = some s') :
    s'.remembered = s.remembered ∨
      (∃ t old slot, a = .mutator t ∧ s.muts t = .record old slot ∧
        s'.remembered = s.remembered.record old) ∨
      (a = .worker ∧ (s.pc = .drain ∨ s.pc = .final_drain) ∧ s'.remembered.inner = []) := by
  cases a <;> simp only [step, mutatorStep] at h
  case worker =>
    cases worker_cases h
    case drain hpc _ | drain_none hpc _ => exact .inr (.inr ⟨rfl, .inl hpc, rfl⟩)
    case final_drain hpc => exact .inr (.inr ⟨rfl, .inr hpc, rfl⟩)
    all_goals exact .inl rfl
  case mutator t =>
    split at h
    · cases h; exact .inl rfl
    · next old slot hm => cases h; exact .inr (.inl ⟨t, old, slot, rfl, hm, rfl⟩)
    · cases h
  all_goals
    (try split at h) <;> cases h
    exact .inl rfl

/-- What a step does to the mutator it is a step of. -/
inductive MutMove (s : Gc) : Act → Nat → MutPc → Prop where
  | call {t : Nat} {id : UInt32} (hm : s.muts t = .idle) :
      MutMove s (.pre_write t id) t (.pre_write id none)
  | overwrite {t : Nat} {src old : UInt32} {i : Nat} (hm : s.muts t = .idle)
      (hold : s.objects.slot src i = some old) :
      MutMove s (.overwrite t src i) t (.pre_write old (some (src, i)))
  | saw {t : Nat} {old : UInt32} {slot : Option (UInt32 × Nat)}
      (hm : s.muts t = .pre_write old slot) (hp : s.phase.load = .Marking) :
      MutMove s (.mutator t) t (.record old slot)
  | skip {t : Nat} {old : UInt32} {slot : Option (UInt32 × Nat)}
      (hm : s.muts t = .pre_write old slot) (hp : s.phase.load ≠ .Marking) :
      MutMove s (.mutator t) t (.after old slot)
  | record {t : Nat} {old : UInt32} {slot : Option (UInt32 × Nat)}
      (hm : s.muts t = .record old slot) : MutMove s (.mutator t) t (.after old slot)
  | write {t : Nat} {target old : UInt32} {slot : UInt32 × Nat}
      (hm : s.muts t = .write old slot) : MutMove s (.write t target) t .idle

theorem MutMove.phaseAfter {t : Nat} {m : MutPc} (h : MutMove s a t m) :
    s.phaseAfter a = s.phase.load := by
  cases h <;> rfl

theorem step_muts (h : s.step a = some s') :
    s'.muts = s.muts ∨ ∃ t m, MutMove s a t m ∧ s'.muts = Function.update s.muts t m := by
  cases a <;> simp only [step, mutatorStep] at h
  case worker => exact .inl (worker_frame h).2.2
  case pre_write t id =>
    split at h <;> cases h
    next hm => exact .inr ⟨t, _, .call hm, rfl⟩
  case overwrite t src i =>
    split at h <;> cases h
    next hm hold => exact .inr ⟨t, _, .overwrite hm hold, rfl⟩
  case mutator t =>
    split at h
    · next hm =>
      cases h
      by_cases hp : s.phase.load = .Marking
      · exact .inr ⟨t, _, .saw hm hp, by simp [setMut, hp]⟩
      · exact .inr ⟨t, _, .skip hm hp, by simp [setMut, hp]⟩
    · next hm => cases h; exact .inr ⟨t, _, .record hm, rfl⟩
    · cases h
  case write t target =>
    split at h <;> cases h
    next hm => exact .inr ⟨t, _, .write hm, rfl⟩
  all_goals
    (try split at h) <;> cases h
    exact .inl rfl

theorem step_to_write (h : s.step a = some s') {t : Nat} {old : UInt32} {slot : UInt32 × Nat}
    (hw : s'.muts t = .write old slot) :
    s.muts t = .write old slot ∨
      (a = .mutator t ∧ s.muts t = .pre_write old (some slot) ∧ s.phase.load ≠ .Marking) ∨
      (a = .mutator t ∧ s.muts t = .record old (some slot)) := by
  rcases step_muts h with e | ⟨u, m, hmv, e⟩
  · exact .inl (e ▸ hw)
  by_cases htu : t = u
  · subst htu
    rw [e, Function.update_self] at hw
    cases hmv with
    | call | overwrite | saw | write => cases hw
    | @skip _ old' sl hm hp =>
      cases sl <;> cases hw
      exact .inr (.inl ⟨rfl, hm, hp⟩)
    | @record _ old' sl hm =>
      cases sl <;> cases hw
      exact .inr (.inr ⟨rfl, hm⟩)
  · rw [e, Function.update_of_ne htu] at hw
    exact .inl hw

theorem step_to_record (h : s.step a = some s') {t : Nat} {old : UInt32}
    {slot : Option (UInt32 × Nat)} (hr : s'.muts t = .record old slot) :
    s.muts t = .record old slot ∨
      (a = .mutator t ∧ s.muts t = .pre_write old slot ∧ s.phase.load = .Marking) := by
  rcases step_muts h with e | ⟨u, m, hmv, e⟩
  · exact .inl (e ▸ hr)
  by_cases htu : t = u
  · subst htu
    rw [e, Function.update_self] at hr
    cases hmv with
    | call | overwrite | write => cases hr
    | saw hm hp => cases hr; exact .inr ⟨rfl, hm, hp⟩
    | @skip _ _ sl | @record _ _ sl => cases sl <;> cases hr
  · rw [e, Function.update_of_ne htu] at hr
    exact .inl hr

end Gc

end Samsara
