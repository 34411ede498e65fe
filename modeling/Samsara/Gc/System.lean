import Mathlib.Data.Finset.Insert
import Mathlib.Data.Set.Basic
import Mathlib.Logic.Function.Basic
import Samsara.Gc.Barrier
import Samsara.Lib.Run
import Samsara.Marker

/-!
# The concurrent collector (`concurrent.rs`, `atomic.rs`)

One state for the objects, the shared cells, the worker thread that `concurrent_mark`
spawns and any number of mutator threads. `Gc.step` is one atomic step of one thread;
a schedule is a list of actions, so a run interleaves the threads in any order. The
worker's program counter follows the loop of `concurrent_mark` line by line, and every
lock, load, drain, push and pop is a step of its own.
-/

namespace Samsara

/-- The objects: `objects id` lists the current targets of the slots of `id`; `none`
when `id` names no object. -/
abbrev Objects := UInt32 → Option (List UInt32)

namespace Objects

/-- `refs_of(id)`: the current slots, read at once. -/
def refs_of (o : Objects) (id : UInt32) : List UInt32 := (o id).getD []

def slot (o : Objects) (src : UInt32) (i : Nat) : Option UInt32 := (o.refs_of src)[i]?

def setSlot (o : Objects) (src : UInt32) (i : Nat) (target : UInt32) : Objects :=
  Function.update o src ((o src).map (·.set i target))

def graph (o : Objects) (roots all_ids : List UInt32) : ObjectGraph UInt32 :=
  ⟨roots, o.refs_of, all_ids⟩

theorem mem_refs_of {o : Objects} {x y : UInt32} : y ∈ o.refs_of x ↔ ∃ i, o.slot x i = some y :=
  List.mem_iff_getElem?

theorem slot_setSlot_of_ne {o : Objects} {src n : UInt32} {i j : Nat} {v : UInt32}
    (h : n ≠ src ∨ j ≠ i) : (o.setSlot src i v).slot n j = o.slot n j := by
  by_cases hn : n = src
  · subst hn
    have hj : j ≠ i := h.resolve_left (not_not_intro rfl)
    cases ho : o n with
    | none => simp [slot, refs_of, setSlot, ho]
    | some l => simp [slot, refs_of, setSlot, ho, Ne.symm hj]
  · simp [slot, refs_of, setSlot, hn]

theorem slot_setSlot {o : Objects} {src n : UInt32} {i j : Nat} {v w : UInt32}
    (h : (o.setSlot src i v).slot n j = some w) : o.slot n j = some w ∨ w = v := by
  by_cases hn : n = src
  · subst hn
    cases ho : o n with
    | none => simp [slot, refs_of, setSlot, ho] at h
    | some l =>
      simp only [slot, refs_of, setSlot, ho, Option.map_some, Function.update_self,
        Option.getD_some, List.getElem?_set] at h ⊢
      split at h
      · split at h
        · exact .inr (Option.some.inj h).symm
        · cases h
      · exact .inl h
  · rw [slot_setSlot_of_ne (.inl hn)] at h
    exact .inl h

theorem slot_alloc_of_ne {o : Objects} {id n : UInt32} {slots : List UInt32} {j : Nat}
    (h : n ≠ id) : slot (Function.update o id (some slots)) n j = o.slot n j := by
  simp [slot, refs_of, h]

theorem slot_alloc {o : Objects} {id n : UInt32} {slots : List UInt32} {j : Nat} {w : UInt32}
    (hid : o id = none) (h : o.slot n j = some w) :
    slot (Function.update o id (some slots)) n j = some w := by
  by_cases hn : n = id
  · subst hn; simp [slot, refs_of, hid] at h
  · rwa [slot_alloc_of_ne hn]

theorem mem_of_slot_alloc {o : Objects} {id v : UInt32} {slots : List UInt32} {j : Nat}
    (h : slot (Function.update o id (some slots)) id j = some v) : v ∈ slots := by
  simp only [slot, refs_of, Function.update_self, Option.getD_some] at h
  exact List.mem_of_getElem? h

theorem setSlot_eq_none {o : Objects} {src n : UInt32} {i : Nat} {v : UInt32} :
    o.setSlot src i v n = none ↔ o n = none := by
  by_cases h : n = src
  · subst h; simp [setSlot]
  · simp [setSlot, h]

end Objects

/-- Where the worker is in `concurrent_mark`. -/
inductive WorkerPc where
  | not_called
  /-- `let drained = remembered.drain()` -/
  | drain
  /-- about to lock the stack for a non-empty `drained` -/
  | lock (drained : List UInt32)
  /-- pushing `drained`, the stack locked -/
  | push (drained : List UInt32)
  /-- `let next = stack.lock().pop()` -/
  | pop
  /-- `if !black.insert(id) { continue }` -/
  | insert (id : UInt32)
  /-- `graph.refs_of(id)` -/
  | refs_of (id : UInt32)
  /-- the children still to be tested and pushed -/
  | children (rest : List UInt32)
  /-- `phase.load()` -/
  | load
  /-- `let final_drain = remembered.drain()` -/
  | final_drain
  /-- `final_drain.is_empty() && stack.lock().is_empty()` -/
  | is_empty (final_drain : List UInt32)
  /-- about to lock the stack for `final_drain` -/
  | final_lock (final_drain : List UInt32)
  /-- pushing `final_drain`, the stack locked -/
  | final_push (final_drain : List UInt32)
  | returned
  deriving DecidableEq

/-- The worker holds the stack's mutex across its steps. -/
def WorkerPc.holdsStack : WorkerPc → Bool
  | .push _ | .final_push _ => true
  | _ => false

/-- Where a mutator is. `slot` is the slot it is about to overwrite, `none` in a call of
`pre_write` on its own. -/
inductive MutPc where
  | idle
  /-- `pre_write(overwritten)` called: `self.phase.load()` is next -/
  | pre_write (overwritten : UInt32) (slot : Option (UInt32 × Nat))
  /-- the load saw `Marking`: `self.set.record(overwritten)` is next -/
  | record (overwritten : UInt32) (slot : Option (UInt32 × Nat))
  /-- `pre_write` returned: the store into the slot is next -/
  | write (overwritten : UInt32) (slot : UInt32 × Nat)
  deriving DecidableEq

def MutPc.after (overwritten : UInt32) : Option (UInt32 × Nat) → MutPc
  | none => .idle
  | some slot => .write overwritten slot

structure Gc where
  objects : Objects
  phase : AtomicPhase
  remembered : RememberedSet
  stack : MarkStack
  /-- the worker's local set -/
  black : Finset UInt32
  pc : WorkerPc
  muts : Nat → MutPc

inductive Act where
  /-- `concurrent_mark` is called -/
  | spawn
  /-- the worker takes a step -/
  | worker
  /-- another thread pushes `id` on the mark stack -/
  | push (id : UInt32)
  /-- `AtomicPhase::store` -/
  | store (p : Phase)
  /-- `AtomicPhase::transition` -/
  | transition (from_ to_ : Phase)
  /-- mutator `t` calls `pre_write(id)` on its own -/
  | pre_write (t : Nat) (id : UInt32)
  /-- mutator `t` reads the old target of a slot and calls `pre_write` with it -/
  | overwrite (t : Nat) (src : UInt32) (i : Nat)
  /-- mutator `t` takes a step of `pre_write` -/
  | mutator (t : Nat)
  /-- mutator `t` stores the new target into the slot it is overwriting -/
  | write (t : Nat) (target : UInt32)
  /-- mutator `t` loads a slot into a local -/
  | load (t : Nat) (src : UInt32) (i : Nat)
  /-- mutator `t` allocates `id`, which names no object, with the given slots -/
  | alloc (t : Nat) (id : UInt32) (slots : List UInt32)
  deriving DecidableEq

namespace Gc

def setMut (s : Gc) (t : Nat) (m : MutPc) : Gc := { s with muts := Function.update s.muts t m }

/-- One step of the worker; `none` before the call and after the return. -/
def workerStep (s : Gc) : Option Gc :=
  match s.pc with
  | .not_called | .returned => none
  | .drain =>
    let (drained, remembered) := s.remembered.drain
    some { s with
      remembered := remembered
      pc := if drained.isEmpty then .pop else .lock drained }
  | .lock drained => some { s with pc := .push drained }
  | .push [] => some { s with pc := .pop }
  | .push (id :: rest) => some { s with stack := s.stack.push id, pc := .push rest }
  | .pop =>
    match s.stack.pop with
    | (some id, stack) => some { s with stack := stack, pc := .insert id }
    | (none, stack) => some { s with stack := stack, pc := .load }
  | .insert id =>
    if id ∈ s.black then some { s with pc := .drain }
    else some { s with black := insert id s.black, pc := .refs_of id }
  | .refs_of id => some { s with pc := .children (s.objects.refs_of id) }
  | .children [] => some { s with pc := .drain }
  | .children (child :: rest) =>
    if child ∈ s.black then some { s with pc := .children rest }
    else some { s with stack := s.stack.push child, pc := .children rest }
  | .load => some { s with pc := if s.phase.load ≠ .Marking then .final_drain else .drain }
  | .final_drain =>
    let (final_drain, remembered) := s.remembered.drain
    some { s with remembered := remembered, pc := .is_empty final_drain }
  | .is_empty final_drain =>
    some { s with
      pc := if final_drain.isEmpty && s.stack.is_empty then .returned
        else .final_lock final_drain }
  | .final_lock final_drain => some { s with pc := .final_push final_drain }
  | .final_push [] => some { s with pc := .drain }
  | .final_push (id :: rest) => some { s with stack := s.stack.push id, pc := .final_push rest }

/-- One step of mutator `t` inside `AtomicWriteBarrier::pre_write`. -/
def mutatorStep (s : Gc) (t : Nat) : Option Gc :=
  match s.muts t with
  | .pre_write overwritten slot =>
    some (s.setMut t (if s.phase.load = .Marking then .record overwritten slot
      else .after overwritten slot))
  | .record overwritten slot =>
    some ({ s with remembered := s.remembered.record overwritten }.setMut t
      (.after overwritten slot))
  | _ => none

def step (s : Gc) : Act → Option Gc
  | .spawn => if s.pc = .not_called then some { s with black := ∅, pc := .drain } else none
  | .worker => s.workerStep
  | .push id => if s.pc.holdsStack then none else some { s with stack := s.stack.push id }
  | .store p => some { s with phase := .store p }
  | .transition from_ to_ => some { s with phase := (s.phase.transition from_ to_).1 }
  | .pre_write t id => if s.muts t = .idle then some (s.setMut t (.pre_write id none)) else none
  | .overwrite t src i =>
    match s.muts t, s.objects.slot src i with
    | .idle, some old => some (s.setMut t (.pre_write old (some (src, i))))
    | _, _ => none
  | .mutator t => s.mutatorStep t
  | .write t target =>
    match s.muts t with
    | .write _ (src, i) =>
      some ({ s with objects := s.objects.setSlot src i target }.setMut t .idle)
    | _ => none
  | .load t src i =>
    if s.muts t = .idle ∧ (s.objects.slot src i).isSome then some s else none
  | .alloc t id slots =>
    if s.muts t = .idle ∧ s.objects id = none then
      some { s with objects := Function.update s.objects id (some slots) }
    else none

end Gc

end Samsara
