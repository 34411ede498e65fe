import Samsara.Gc.Ending

/-!
# Garbage is not retained

The ids that may survive are those reachable from the roots when marking starts and those
allocated since (`survivors`). If the mutators only store and capture ids they hold (a
root, an id loaded from a slot of a survivor, an id allocated since), then the slots of
survivors lead to survivors, so a mutator loads nothing else and the worker finds nothing
else, in whatever order they run.
-/

namespace Samsara

open StepSys

def Allocated (tr : GcHistory) (id : UInt32) : Prop := ∃ x ∈ tr, ∃ t slots, x.2 = .alloc t id slots

/-- Reachable from the roots at the start, or allocated since. -/
def survivors (s₀ : Gc) (roots : List UInt32) (tr : GcHistory) : Set UInt32 :=
  (s₀.objects.graph roots []).reach ∪ {id | Allocated tr id}

def Act.reads : Act → Option (Nat × UInt32 × Nat)
  | .load t src i | .overwrite t src i => some (t, src, i)
  | _ => none

/-- Mutator `t` loaded `id` from a slot of a survivor. -/
def Loaded (s₀ : Gc) (roots : List UInt32) (tr : GcHistory) (t : Nat) (id : UInt32) : Prop :=
  ∃ pre post s a src i, tr = pre ++ (s, a) :: post ∧ a.reads = some (t, src, i) ∧
    s.objects.slot src i = some id ∧ src ∈ survivors s₀ roots pre

/-- Mutator `t` may hold `id`: a root, loaded, or allocated since. -/
def Held (s₀ : Gc) (roots : List UInt32) (tr : GcHistory) (t : Nat) (id : UInt32) : Prop :=
  id ∈ roots ∨ Loaded s₀ roots tr t id ∨ Allocated tr id

/-- Mutators store, and pass to `pre_write`, only ids they hold (an overwrite has just read
the old target, an allocation may link the new object to itself); only roots are pushed. -/
def heldEnv (s₀ : Gc) (roots : List UInt32) (tr : GcHistory) (s : Gc) (a : Act) : Prop :=
  match a with
  | .write t target => Held s₀ roots tr t target
  | .pre_write t id => Held s₀ roots tr t id
  | .overwrite t src i =>
    ∀ old, s.objects.slot src i = some old → Held s₀ roots (tr ++ [(s, a)]) t old
  | .alloc t _ slots => ∀ target ∈ slots, Held s₀ roots (tr ++ [(s, a)]) t target
  | .push id => id ∈ roots
  | _ => True

/-- The part of `heldEnv` about references: what is stored into a slot is held. -/
def storesHeld (s₀ : Gc) (roots : List UInt32) (tr : GcHistory) (s : Gc) (a : Act) : Prop :=
  match a with
  | .write t target => Held s₀ roots tr t target
  | .alloc t _ slots => ∀ target ∈ slots, Held s₀ roots (tr ++ [(s, a)]) t target
  | _ => True

theorem storesHeld_of_heldEnv {s₀ s : Gc} {roots : List UInt32} {tr : GcHistory} {a : Act}
    (h : heldEnv s₀ roots tr s a) : storesHeld s₀ roots tr s a := by
  cases a <;> first | exact h | trivial

def MutPc.capturing : MutPc → Option UInt32
  | .pre_write id _ | .record id _ => some id
  | _ => none

/-- The instant marking starts: only roots on the stack, nothing remembered, and what a
call in flight may record is reachable. -/
structure CycleStarts (s₀ : Gc) (roots : List UInt32) : Prop extends BeforeCall s₀ where
  stack : ∀ id ∈ s₀.stack.objects, id ∈ roots
  remembered : s₀.remembered.inner = []
  inflight : ∀ t id, (s₀.muts t).capturing = some id → id ∈ (s₀.objects.graph roots []).reach

/-- References lead from survivors to survivors, and the mutators hold no other id. -/
structure Closed (s₀ : Gc) (roots : List UInt32) (tr : GcHistory) (s : Gc) : Prop where
  slots : ∀ src ∈ survivors s₀ roots tr, ∀ i id, s.objects.slot src i = some id →
    id ∈ survivors s₀ roots tr
  held : ∀ t id, Held s₀ roots tr t id → id ∈ survivors s₀ roots tr

structure GarbageInv (s₀ : Gc) (roots : List UInt32) (tr : GcHistory) (s : Gc) : Prop where
  wf : s.Wf
  found : s.found ⊆ survivors s₀ roots tr
  slots : ∀ src ∈ survivors s₀ roots tr, ∀ i id, s.objects.slot src i = some id →
    id ∈ survivors s₀ roots tr
  inflight : ∀ t id, (s.muts t).capturing = some id → id ∈ survivors s₀ roots tr
  held : ∀ t id, Held s₀ roots tr t id → id ∈ survivors s₀ roots tr
  named : ∀ id, s.objects id = none → s₀.objects id = none
  fresh : ∀ id, Allocated tr id → s₀.objects id = none

section Step

variable {s₀ s s' : Gc} {roots : List UInt32} {tr : GcHistory} {a : Act}

theorem allocated_snoc {id : UInt32} :
    Allocated (tr ++ [(s, a)]) id ↔ Allocated tr id ∨ ∃ t slots, a = .alloc t id slots := by
  simp [Allocated, or_and_right, exists_or]

theorem survivors_snoc : survivors s₀ roots tr ⊆ survivors s₀ roots (tr ++ [(s, a)]) :=
  Set.union_subset_union_right _ fun _ h => allocated_snoc.mpr (.inl h)

theorem survivors_of_snoc {id : UInt32} (h : id ∈ survivors s₀ roots (tr ++ [(s, a)])) :
    id ∈ survivors s₀ roots tr ∨ ∃ t slots, a = .alloc t id slots := by
  rcases h with h | h
  · exact .inl (.inl h)
  · exact (allocated_snoc.mp h).imp_left .inr

theorem loaded_snoc {t : Nat} {id : UInt32} (h : Loaded s₀ roots (tr ++ [(s, a)]) t id) :
    Loaded s₀ roots tr t id ∨ ∃ src i, a.reads = some (t, src, i) ∧
      s.objects.slot src i = some id ∧ src ∈ survivors s₀ roots tr := by
  obtain ⟨pre, post, s₁, a₁, src, i, e, hread, hslot, hsrc⟩ := h
  rcases List.eq_nil_or_concat post with rfl | ⟨post', y, rfl⟩
  · obtain ⟨rfl, hlast⟩ := List.append_inj' e rfl
    cases hlast
    exact .inr ⟨src, i, hread, hslot, hsrc⟩
  · rw [List.concat_eq_append, ← List.cons_append, ← List.append_assoc] at e
    obtain ⟨rfl, -⟩ := List.append_inj' e rfl
    exact .inl ⟨pre, post', s₁, a₁, src, i, rfl, hread, hslot, hsrc⟩

theorem step_capturing (h : s.step a = some s') {t : Nat} {id : UInt32}
    (hc : (s'.muts t).capturing = some id) :
    (s.muts t).capturing = some id ∨ a = .pre_write t id ∨
      ∃ src i, a = .overwrite t src i ∧ s.objects.slot src i = some id := by
  rcases Gc.step_muts h with e | ⟨u, m, hmv, e⟩
  · exact .inl (e ▸ hc)
  by_cases htu : t = u
  · subst htu
    rw [e, Function.update_self] at hc
    cases hmv with
    | call => cases hc; exact .inr (.inl rfl)
    | overwrite _ hold => cases hc; exact .inr (.inr ⟨_, _, rfl, hold⟩)
    | saw hm => cases hc; exact .inl (by rw [hm]; rfl)
    | @skip _ _ sl | @record _ _ sl => cases sl <;> cases hc
    | write => cases hc
  · rw [e, Function.update_of_ne htu] at hc
    exact .inl hc

theorem Closed.init (s₀ : Gc) (roots : List UInt32) : Closed s₀ roots [] s₀ where
  slots src hsrc i id hid := by
    rcases hsrc with hsrc | ⟨x, hx, -⟩
    · exact .inl (Search.Reach.step hsrc (Objects.mem_refs_of.mpr ⟨i, hid⟩))
    · cases hx
  held t id hid := by
    rcases hid with hid | ⟨pre, post, _, _, _, _, e, -⟩ | ⟨x, hx, -⟩
    · exact .inl (Search.Reach.root hid)
    · simp at e
    · cases hx

theorem Closed.held_snoc (h : Closed s₀ roots tr s) {t : Nat} {id : UInt32}
    (hid : Held s₀ roots (tr ++ [(s, a)]) t id) : id ∈ survivors s₀ roots (tr ++ [(s, a)]) := by
  rcases hid with hid | hid | hid
  · exact survivors_snoc (h.held t id (.inl hid))
  · rcases loaded_snoc hid with hid | ⟨src, i, -, hslot, hsrc⟩
    · exact survivors_snoc (h.held t id (.inr (.inl hid)))
    · exact survivors_snoc (h.slots src hsrc i id hslot)
  · exact .inr hid

/-- The slots of a survivor: unchanged, stored into, or those of a new object. -/
theorem Closed.step (h : Closed s₀ roots tr s) (henv : storesHeld s₀ roots tr s a)
    (hst : s.step a = some s') : Closed s₀ roots (tr ++ [(s, a)]) s' := by
  refine ⟨fun src hsrc i id hid => ?_, fun t id => h.held_snoc⟩
  have hold {src : UInt32} (hsrc : src ∈ survivors s₀ roots tr)
      (hid : s.objects.slot src i = some id) : id ∈ survivors s₀ roots (tr ++ [(s, a)]) :=
    survivors_snoc (h.slots src hsrc i id hid)
  rcases Gc.step_objects hst with ⟨e, hne⟩ | ⟨t, target, old, src', j, rfl, -, e⟩ |
    ⟨t, id', slots, rfl, -, e⟩
  · rw [e] at hid
    rcases survivors_of_snoc hsrc with hsrc | ⟨t, slots, ha⟩
    · exact hold hsrc hid
    · exact absurd ha (hne t src slots)
  · rw [e] at hid
    rcases survivors_of_snoc hsrc with hsrc | ⟨t, slots, ha⟩
    · rcases Objects.slot_setSlot hid with hid | rfl
      · exact hold hsrc hid
      · exact survivors_snoc (h.held t _ henv)
    · cases ha
  · rw [e] at hid
    by_cases hs : src = id'
    · subst hs
      exact h.held_snoc (henv id (Objects.mem_of_slot_alloc hid))
    · rw [Objects.slot_alloc_of_ne hs] at hid
      rcases survivors_of_snoc hsrc with hsrc | ⟨t, slots, ha⟩
      · exact hold hsrc hid
      · cases ha; exact absurd rfl hs

theorem GarbageInv.closed (h : GarbageInv s₀ roots tr s) : Closed s₀ roots tr s :=
  ⟨h.slots, h.held⟩

theorem GarbageInv.init (h : CycleStarts s₀ roots) : GarbageInv s₀ roots [] s₀ where
  wf := h.wf
  found id hid := by
    simp only [Gc.mem_found, h.black, h.remembered, h.not_called, WorkerPc.transit] at hid
    exact .inl (Search.Reach.root (h.stack id (by simpa using hid)))
  slots := (Closed.init s₀ roots).slots
  inflight t id hid := .inl (h.inflight t id hid)
  held := (Closed.init s₀ roots).held
  named _ h := h
  fresh _ := fun ⟨_, hx, _⟩ => nomatch hx

theorem GarbageInv.shaded (h : GarbageInv s₀ roots tr s) (henv : heldEnv s₀ roots tr s a) :
    s.shaded a ⊆ survivors s₀ roots tr := by
  intro id hid
  cases a with
  | worker =>
    obtain ⟨src, hpc, hid⟩ := hid
    obtain ⟨i, hslot⟩ := Objects.mem_refs_of.mp hid
    exact h.slots src (h.found (.inl (h.wf.refs_of src hpc))) i id hslot
  | push id' =>
    cases hid
    exact h.held 0 id (.inl henv)
  | mutator t =>
    obtain ⟨slot, hm⟩ := hid
    exact h.inflight t id (by rw [hm]; rfl)
  | _ => exact hid.elim

theorem GarbageInv.step (h : GarbageInv s₀ roots tr s) (henv : heldEnv s₀ roots tr s a)
    (hst : s.step a = some s') : GarbageInv s₀ roots (tr ++ [(s, a)]) s' := by
  have hsub {id : UInt32} (hid : id ∈ survivors s₀ roots tr) :
      id ∈ survivors s₀ roots (tr ++ [(s, a)]) := survivors_snoc hid
  have hclosed := h.closed.step (storesHeld_of_heldEnv henv) hst
  refine ⟨Gc.step_wf h.wf hst, fun id hid => ?_, hclosed.slots, fun t id hid => ?_,
    hclosed.held, fun id hid => ?_, fun id hid => ?_⟩
  · rcases Gc.step_found_subset h.wf hst hid with hid | hid
    · exact hsub (h.found hid)
    · exact hsub (h.shaded henv hid)
  · rcases step_capturing hst hid with hid | rfl | ⟨src, i, rfl, hslot⟩
    · exact hsub (h.inflight t id hid)
    · exact hsub (h.held t id henv)
    · exact h.closed.held_snoc (henv id hslot)
  · rcases Gc.step_objects hst with ⟨e, -⟩ | ⟨t, target, old, src, j, -, -, e⟩ |
      ⟨t, id', slots, -, -, e⟩
    · exact h.named id (e ▸ hid)
    · rw [e, Objects.setSlot_eq_none] at hid
      exact h.named id hid
    · by_cases hs : id = id'
      · subst hs; simp [e] at hid
      · rw [e, Function.update_of_ne hs] at hid
        exact h.named id hid
  · rcases allocated_snoc.mp hid with hid | ⟨t, slots, rfl⟩
    · exact h.fresh id hid
    · rcases Gc.step_objects hst with ⟨-, hne⟩ | ⟨_, _, _, _, _, e, -⟩ | ⟨_, _, _, e, hnone, -⟩
      · exact absurd rfl (hne t id slots)
      · cases e
      · cases e; exact h.named id hnone

end Step

/-- **Garbage is not retained.** Every black id was reachable from the roots when marking
started, or was allocated since under an id that named no object then. -/
theorem garbage_is_not_retained {s₀ s : Gc} {roots all_ids : List UInt32} {tr : GcHistory}
    (h0 : CycleStarts s₀ roots) (h : Run Gc.step (heldEnv s₀ roots) s₀ tr s) :
    ∀ id ∈ s.black, id ∈ (s₀.objects.graph roots all_ids).reach ∨
      (Allocated tr id ∧ s₀.objects id = none) := by
  have hinv : GarbageInv s₀ roots tr s :=
    h.hist (.init h0) fun _ _ _ _ _ ih he hst => ih.step he hst
  intro id hid
  rcases hinv.found (.inl hid) with hr | ha
  · exact .inl hr
  · exact .inr ⟨ha, hinv.fresh id ha⟩

theorem heldEnv_of_silent {s₀ s : Gc} {roots : List UInt32} {tr : GcHistory} {a : Act}
    (h : a.silent) : heldEnv s₀ roots tr s a := by
  cases a <;> trivial

/-- The root `1` points at `2`; the garbage `9` does too. -/
def garbageStart : Gc where
  objects
    | 1 => some [2]
    | 2 => some []
    | 9 => some [2]
    | _ => none
  phase := .store .Marking
  remembered := .new
  stack := ⟨[1]⟩
  black := ∅
  pc := .not_called
  muts _ := .idle

theorem garbageStart_reach : (garbageStart.objects.graph [1] []).reach ⊆ {1, 2} := by
  refine Search.Reach.subset (fun r hr => .inl (List.mem_singleton.mp hr)) fun x hx y e => ?_
  rcases hx with rfl | rfl
  · exact .inr (List.mem_singleton.mp e)
  · cases e

/-- A mutator loads `2`, links it from a new object and captures that one. -/
theorem garbage_is_not_retained_fresh :
    ∃ tr s, Run Gc.step (heldEnv garbageStart [1]) garbageStart tr s ∧ s.pc = .returned ∧
      5 ∈ s.black ∧ 9 ∉ s.black := by
  have hstart : CycleStarts garbageStart [1] :=
    ⟨⟨by simp [garbageStart], rfl, rfl⟩, fun _ h => h, rfl, fun _ _ h => nomatch h⟩
  have h1 := (Run.nil : Run Gc.step (heldEnv garbageStart [1]) garbageStart [] garbageStart).snoc
    (show heldEnv _ _ _ _ (.load 0 1 0) from trivial) rfl
  have h2 := h1.snoc (show heldEnv garbageStart [1] _ _ (.alloc 0 5 [2]) from fun target ht => by
    rw [List.mem_singleton.mp ht]
    exact .inr (.inl ⟨[], _, _, _, 1, 0, rfl, rfl, rfl,
      .inl (Search.Reach.root (List.mem_singleton_self 1))⟩)) rfl
  have h3 := h2.snoc (show heldEnv garbageStart [1] _ _ (.pre_write 0 5) from
    .inr (.inr ⟨_, List.mem_append_right _ (List.mem_singleton_self _), 0, [2], rfl⟩)) rfl
  have h4 := h3.exec (fun a ha tr s => heldEnv_of_silent
    ((show ∀ a ∈ [Act.mutator 0, .mutator 0], a.silent = true by decide) a ha)) rfl
  have h5 := h4.snoc (show heldEnv garbageStart [1] _ _ (.store .Sweeping) from trivial) rfl
  have h6 := h5.exec (fun a ha tr s => heldEnv_of_silent
    ((show ∀ a ∈ Act.spawn :: List.replicate 25 .worker, a.silent = true by decide) a ha)) rfl
  refine ⟨_, _, h6, rfl, by decide, fun h9 => ?_⟩
  rcases garbage_is_not_retained hstart h6 9 h9 with h | ⟨-, h⟩
  · simpa using garbageStart_reach h
  · cases h

end Samsara
