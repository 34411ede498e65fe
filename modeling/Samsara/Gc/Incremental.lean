import Samsara.Gc.Agree
import Samsara.Lib.Progress

/-!
# The single-threaded barrier (`barrier.rs`)

Before the collector was concurrent: one thread, which alternates between turns of the
marking loop (`drain_marker`) and changes of the graph, the overwrites announced to a
`WriteBarrier`. A turn pops an object and, the first time, pushes its children; an overwrite
pushes the old target while the phase is `Marking`. `found` is what is black or waiting on
the stack. An edge of the graph at the start is still there or leads to a found object
(`Snap`), so once the stack is empty everything that was reachable is black.
-/

namespace Samsara

open StepSys

namespace MarkStack

def len (s : MarkStack) : Nat := s.objects.length

end MarkStack

namespace Objects

/-- `edges.entry(src).or_default().push(dst)` -/
def add_edge (o : Objects) (src dst : UInt32) : Objects :=
  Function.update o src (some (o.refs_of src ++ [dst]))

theorem slot_add_edge {o : Objects} {src dst n v : UInt32} {i : Nat} (h : o.slot n i = some v) :
    (o.add_edge src dst).slot n i = some v := by
  by_cases hn : n = src
  · subst hn
    have hlt : i < (o.refs_of n).length := (List.getElem?_eq_some_iff.mp h).1
    have hrefs : (o.add_edge n dst).refs_of n = o.refs_of n ++ [dst] := by
      simp [refs_of, add_edge]
    rw [slot, hrefs, List.getElem?_append_left hlt]
    exact h
  · simpa [slot, refs_of, add_edge, hn] using h

end Objects

/-- The phase it consults and the stack it pushes on. -/
structure WriteBarrier where
  phase : Phase
  stack : MarkStack

def WriteBarrier.pre_write (b : WriteBarrier) (overwritten : UInt32) : WriteBarrier :=
  if b.phase = .Marking then { b with stack := b.stack.push overwritten } else b

structure Incremental where
  objects : Objects
  phase : Phase
  stack : MarkStack
  black : Finset UInt32

inductive IncAct where
  /-- one turn of `while let Some(obj) = stack.pop()` -/
  | turn
  /-- `pre_write` of the old target of a slot, then the store -/
  | overwrite (src : UInt32) (i : Nat) (target : UInt32)
  /-- a new slot: nothing is overwritten, so the barrier is not called -/
  | add_edge (src dst : UInt32)
  | push (id : UInt32)
  | alloc (id : UInt32) (slots : List UInt32)
  deriving DecidableEq

namespace Incremental

/-- `for child in refs_of(obj) { if !black.contains(&child) { stack.push(child) } }` -/
def pushChildren (black : Finset UInt32) (stack : MarkStack) (children : List UInt32) : MarkStack :=
  children.foldl (fun stack child => if child ∈ black then stack else stack.push child) stack

def step (s : Incremental) : IncAct → Option Incremental
  | .turn =>
    match s.stack.pop with
    | (none, _) => none
    | (some obj, stack) =>
      if obj ∈ s.black then some { s with stack := stack }
      else
        let black := insert obj s.black
        some { s with stack := pushChildren black stack (s.objects.refs_of obj), black := black }
  | .overwrite src i target =>
    (s.objects.slot src i).map fun old =>
      let barrier := (WriteBarrier.mk s.phase s.stack).pre_write old
      { s with objects := s.objects.setSlot src i target, stack := barrier.stack }
  | .add_edge src dst => some { s with objects := s.objects.add_edge src dst }
  | .push id => some { s with stack := s.stack.push id }
  | .alloc id slots =>
    if s.objects id = none then
      some { s with objects := Function.update s.objects id (some slots) }
    else none

def found (s : Incremental) : Set UInt32 := {id | id ∈ s.black ∨ id ∈ s.stack.objects}

def scans (s : Incremental) : IncAct → List UInt32
  | .turn =>
    match s.stack.pop with
    | (some obj, _) => if obj ∈ s.black then [] else [obj]
    | (none, _) => []
  | _ => []

/-! ## What a step does -/

variable {s₀ s s' : Incremental} {a : IncAct} {tr : History Incremental IncAct} {x : UInt32}

theorem mem_pushChildren {black : Finset UInt32} {stack : MarkStack} {children : List UInt32} :
    x ∈ (pushChildren black stack children).objects ↔
      x ∈ stack.objects ∨ (x ∈ children ∧ x ∉ black) := by
  induction children generalizing stack with
  | nil => simp [pushChildren]
  | cons child children ih =>
    rw [pushChildren, List.foldl_cons, ← pushChildren, ih]
    split
    · next hb =>
      simp only [List.mem_cons]
      constructor
      · tauto
      · rintro (h | ⟨rfl | h, hn⟩) <;> tauto
    · next hb =>
      simp only [MarkStack.push, List.mem_cons]
      constructor
      · rintro ((rfl | h) | h) <;> tauto
      · rintro (h | ⟨rfl | h, hn⟩) <;> tauto

theorem length_pushChildren_le (black : Finset UInt32) (stack : MarkStack)
    (children : List UInt32) :
    (pushChildren black stack children).len ≤ stack.len + children.length := by
  induction children generalizing stack with
  | nil => exact Nat.le_refl _
  | cons child children ih =>
    rw [pushChildren, List.foldl_cons, ← pushChildren]
    refine (ih _).trans ?_
    split
    · simp only [List.length_cons]
      omega
    · simp only [MarkStack.len, MarkStack.push, List.length_cons]
      omega

/-- The steps, each with the object it pops or the id it pushes. -/
inductive Move (s : Incremental) : IncAct → Incremental → Prop where
  | again {obj : UInt32} {rest : List UInt32} (hpop : s.stack.objects = obj :: rest)
      (hb : obj ∈ s.black) : Move s .turn { s with stack := ⟨rest⟩ }
  | scan {obj : UInt32} {rest : List UInt32} (hpop : s.stack.objects = obj :: rest)
      (hb : obj ∉ s.black) : Move s .turn { s with
        stack := pushChildren (insert obj s.black) ⟨rest⟩ (s.objects.refs_of obj)
        black := insert obj s.black }
  | overwrite {src old target : UInt32} {i : Nat} (hold : s.objects.slot src i = some old) :
      Move s (.overwrite src i target) { s with
        objects := s.objects.setSlot src i target
        stack := if s.phase = .Marking then s.stack.push old else s.stack }
  | add_edge {src dst : UInt32} :
      Move s (.add_edge src dst) { s with objects := s.objects.add_edge src dst }
  | push {id : UInt32} : Move s (.push id) { s with stack := s.stack.push id }
  | alloc {id : UInt32} {slots : List UInt32} (hid : s.objects id = none) :
      Move s (.alloc id slots) { s with objects := Function.update s.objects id (some slots) }

theorem step_cases (h : s.step a = some s') : Move s a s' := by
  cases a with
  | turn =>
    simp only [step, MarkStack.pop] at h
    cases hpop : s.stack.objects with
    | nil => rw [hpop] at h; cases h
    | cons obj rest =>
      rw [hpop] at h
      simp only at h
      split at h
      · next hb => cases h; exact .again hpop hb
      · next hb => cases h; exact .scan hpop hb
  | overwrite src i target =>
    obtain ⟨old, hold, rfl⟩ := Option.map_eq_some_iff.mp h
    have hstack : ((WriteBarrier.mk s.phase s.stack).pre_write old).stack =
        if s.phase = .Marking then s.stack.push old else s.stack := by
      unfold WriteBarrier.pre_write
      split <;> rfl
    simp only [hstack]
    exact .overwrite hold
  | add_edge src dst => cases h; exact .add_edge
  | push id => cases h; exact .push
  | alloc id slots =>
    simp only [step] at h
    split at h
    · next hid => cases h; exact .alloc hid
    · cases h

theorem step_found (h : s.step a = some s') : s.found ⊆ s'.found ∧
    ∀ obj ∈ s.scans a, ∀ y ∈ s.objects.refs_of obj, y ∈ s'.found := by
  cases step_cases h with
  | @again obj rest hpop hb =>
    refine ⟨fun x hx => ?_, fun y hy => ?_⟩
    · simp only [found, Set.mem_ofPred_eq, hpop, List.mem_cons] at hx ⊢
      rcases hx with hx | rfl | hx
      · exact .inl hx
      · exact .inl hb
      · exact .inr hx
    · simp [scans, MarkStack.pop, hpop, hb] at hy
  | @scan obj rest hpop hb =>
    refine ⟨fun x hx => ?_, fun y hy z hz => ?_⟩
    · simp only [found, Set.mem_ofPred_eq, hpop, List.mem_cons, mem_pushChildren,
        Finset.mem_insert] at hx ⊢
      tauto
    · have hy : y = obj := by simpa [scans, MarkStack.pop, hpop, hb] using hy
      subst hy
      simp only [found, Set.mem_ofPred_eq, mem_pushChildren, Finset.mem_insert]
      tauto
  | overwrite hold =>
    refine ⟨fun x hx => hx.imp_right fun hx => ?_, by simp [scans]⟩
    simp only
    split
    · exact List.mem_cons_of_mem _ hx
    · exact hx
  | push => exact ⟨fun x hx => hx.imp_right (List.mem_cons_of_mem _), by simp [scans]⟩
  | add_edge | alloc => exact ⟨fun x hx => hx, by simp [scans]⟩

theorem step_black (h : s.step a = some s') :
    s'.phase = s.phase ∧ ∀ x, x ∈ s'.black ↔ x ∈ s.black ∨ x ∈ s.scans a := by
  cases step_cases h with
  | again hpop hb => exact ⟨rfl, by simp [scans, MarkStack.pop, hpop, hb]⟩
  | scan hpop hb => exact ⟨rfl, by simp [scans, MarkStack.pop, hpop, hb, or_comm]⟩
  | overwrite | add_edge | push | alloc => exact ⟨rfl, by simp [scans]⟩

theorem scans_fresh (h : x ∈ s.scans a) : s.scans a = [x] ∧ x ∉ s.black := by
  unfold scans at h ⊢
  split at h
  · split at h
    · next obj stack hpop =>
      split at h
      · cases h
      · next hb =>
        cases List.mem_singleton.mp h
        simp only [if_neg hb]
        exact ⟨trivial, hb⟩
    · cases h
  · cases h

/-! ## The snapshot -/

/-- The start of marking: nothing is black, and every root is on the stack. -/
structure Starts (s₀ : Incremental) (roots : List UInt32) : Prop where
  phase : s₀.phase = .Marking
  black : s₀.black = ∅
  roots : ∀ r ∈ roots, r ∈ s₀.stack.objects

structure Snap (s₀ : Incremental) (roots : List UInt32) (s : Incremental) : Prop where
  phase : s.phase = .Marking
  cover : Search.Cover (s₀.objects.graph roots []).Edge {r | r ∈ roots} {x | x ∈ s.black} s.found
  /-- an edge of the start is still there, or leads to a found object -/
  slots : ∀ n i v, s₀.objects.slot n i = some v → s.objects.slot n i = some v ∨ v ∈ s.found

theorem Snap.step {roots : List UInt32} (h : Snap s₀ roots s) (hst : s.step a = some s') :
    Snap s₀ roots s' := by
  obtain ⟨hf, hchildren⟩ := step_found hst
  obtain ⟨hphase, hblack⟩ := step_black hst
  refine ⟨hphase.trans h.phase, ⟨h.cover.roots.trans hf, fun x hx y hy => ?_⟩,
    fun n i v hv => ?_⟩
  · rcases (hblack x).mp hx with hx | hx
    · exact hf (h.cover.scanned x hx y hy)
    · -- scanned in this step: the edge of the start is in the slot now, or led to a found object
      obtain ⟨i, hi⟩ := Objects.mem_refs_of.mp hy
      rcases h.slots x i y hi with hcur | hy
      · exact hchildren x hx y (Objects.mem_refs_of.mpr ⟨i, hcur⟩)
      · exact hf hy
  · rcases h.slots n i v hv with hcur | hv
    · cases step_cases hst with
      | again | scan | push => exact .inl hcur
      | @overwrite src old target j hold =>
        by_cases e : n = src ∧ i = j
        · -- the barrier has pushed the old target
          obtain ⟨rfl, rfl⟩ := e
          rw [hold, Option.some.injEq] at hcur
          subst hcur
          refine .inr (.inr ?_)
          simp only [h.phase, if_true]
          exact List.mem_cons_self
        · exact .inl ((Objects.slot_setSlot_of_ne (by tauto)).trans hcur)
      | add_edge => exact .inl (Objects.slot_add_edge hcur)
      | alloc hid => exact .inl (Objects.slot_alloc hid hcur)
    · exact .inr (hf hv)

theorem snap_of_run {roots : List UInt32} (h0 : Starts s₀ roots)
    (h : Run step anyEnv s₀ tr s) : Snap s₀ roots s := by
  refine h.inv ⟨h0.phase, ⟨fun r hr => .inr (h0.roots r hr), fun x hx => ?_⟩,
    fun _ _ _ hv => .inl hv⟩ fun _ _ _ ih => ih.step
  simp only [h0.black] at hx
  cases hx

end Incremental

/-- **The barrier preserves the snapshot.** Whatever the mutator overwrites, adds and allocates
between two turns of the marking loop: when the stack is empty, every object that was
reachable from the roots at the start of marking is black. -/
theorem barrier_preserves_snapshot {s₀ s : Incremental} {roots all_ids : List UInt32}
    {tr : History Incremental IncAct} (h0 : Incremental.Starts s₀ roots)
    (h : Run Incremental.step anyEnv s₀ tr s) (hempty : s.stack.is_empty = true) :
    ∀ id ∈ (s₀.objects.graph roots all_ids).reach, id ∈ s.black := by
  have hsnap := Incremental.snap_of_run h0 h
  have hnil : s.stack.objects = [] := List.isEmpty_iff.mp hempty
  have hd : s.found ⊆ {x | x ∈ s.black} := fun x hx => hx.resolve_right (by simp [hnil])
  exact fun id hid => hsnap.cover.reach_subset hd hid

/-- The root `1` points at `2`, which points at `3`; `4` is new. -/
def orphanStart : Incremental where
  objects
    | 1 => some [2]
    | 2 => some [3]
    | 3 => some []
    | 4 => some []
    | _ => none
  phase := .Marking
  stack := ⟨[1]⟩
  black := ∅

theorem orphanStart_starts : Incremental.Starts orphanStart [1] := ⟨rfl, rfl, fun _ h => h⟩

theorem orphanStart_reach : 3 ∈ (orphanStart.objects.graph [1] []).reach := by
  have h1 : 1 ∈ (orphanStart.objects.graph [1] []).reach :=
    Search.Reach.root (List.mem_singleton_self 1)
  have h2 : 2 ∈ (orphanStart.objects.graph [1] []).reach :=
    Search.Reach.step h1 (show 2 ∈ orphanStart.objects.refs_of 1 by decide)
  exact Search.Reach.step h2 (show 3 ∈ orphanStart.objects.refs_of 2 by decide)

/-- Once `1` is scanned its reference moves from `2` to `4`; the turns end with an empty stack. -/
def orphanActs : List IncAct :=
  [.turn, .overwrite 1 0 4, .push 4, .turn, .turn, .turn, .turn]

theorem barrier_preserves_snapshot_orphan :
    ∃ tr s, Run Incremental.step anyEnv orphanStart tr s ∧ s.stack.is_empty = true ∧
      2 ∉ s.objects.refs_of 1 ∧ 3 ∈ s.black := by
  have h := (Run.nil : Run Incremental.step anyEnv orphanStart [] orphanStart).exec
    (fun _ _ _ _ => trivial)
    (show exec Incremental.step [] orphanStart orphanActs = some _ from rfl)
  exact ⟨_, _, h, rfl, by decide,
    barrier_preserves_snapshot orphanStart_starts h rfl 3 orphanStart_reach⟩

/-! ## The work -/

namespace Incremental

def turns (_ : Incremental) : IncAct → ℕ
  | .turn => 1
  | _ => 0

/-- The entries pushed from outside the loop: captures and explicit pushes. -/
def arrivals (s : Incremental) : IncAct → ℕ
  | .overwrite _ _ _ => if s.phase = .Marking then 1 else 0
  | .push _ => 1
  | _ => 0

def slotsRead (s : Incremental) (a : IncAct) : ℕ :=
  ((s.scans a).flatMap s.objects.refs_of).length

variable {s₀ s s' : Incremental} {a : IncAct} {tr : History Incremental IncAct}

/-- A turn is paid by the entry it pops; what comes onto the stack was pushed or read. -/
theorem step_turns (h : s.step a = some s') :
    s.turns a + s'.stack.len ≤ s.stack.len + (s.arrivals a + s.slotsRead a) := by
  cases step_cases h with
  | again hpop => simp [turns, MarkStack.len, hpop, Nat.add_comm]
  | @scan obj rest hpop hb =>
    have hle := length_pushChildren_le (insert obj s.black) ⟨rest⟩ (s.objects.refs_of obj)
    simp only [turns, arrivals, slotsRead, scans, MarkStack.pop, MarkStack.len, hpop, hb, if_false,
      List.flatMap_singleton, List.length_cons] at hle ⊢
    omega
  | overwrite =>
    simp only [turns, arrivals, MarkStack.len]
    split <;> simp [MarkStack.push]
  | push => simp [turns, arrivals, MarkStack.len, MarkStack.push]
  | add_edge | alloc => simp [turns]

/-- Each object is scanned once, when it becomes black. -/
theorem scans_of_run (h0 : s₀.black = ∅) (h : Run step anyEnv s₀ tr s) :
    (log scans tr).Nodup ∧ ∀ x, x ∈ log scans tr ↔ x ∈ s.black := by
  refine h.hist (P := fun tr s => (log scans tr).Nodup ∧ ∀ x, x ∈ log scans tr ↔ x ∈ s.black)
    ⟨List.nodup_nil, by simp [h0, log]⟩ ?_
  rintro tr s a s' - ⟨hnd, hmem⟩ - hst
  rw [log_snoc]
  refine ⟨?_, fun x => ?_⟩
  · refine List.nodup_append.mpr ⟨hnd, ?_, fun x hx y hy e => ?_⟩
    · cases hsc : s.scans a with
      | nil => exact List.nodup_nil
      | cons x l =>
        obtain ⟨e, -⟩ := scans_fresh (hsc ▸ List.mem_cons_self : x ∈ s.scans a)
        rw [← hsc, e]
        exact List.nodup_singleton x
    · exact (scans_fresh hy).2 ((hmem y).mp (e ▸ hx))
  · rw [List.mem_append, hmem, (step_black hst).2]

end Incremental

/-- **The barrier's cost is bounded.** However turns and overwrites alternate, each black object
is scanned exactly once, and the turns taken, with the entries still on the stack, are at
most the entries of the start, the captures and pushes, and the slots read by the scans. -/
theorem turns_bounded {s₀ s : Incremental} {tr : History Incremental IncAct}
    (h0 : s₀.black = ∅) (h : Run Incremental.step anyEnv s₀ tr s) :
    (log Incremental.scans tr).Nodup ∧ (∀ x, x ∈ log Incremental.scans tr ↔ x ∈ s.black) ∧
      total Incremental.turns tr + s.stack.len ≤ s₀.stack.len +
        (total Incremental.arrivals tr + total Incremental.slotsRead tr) := by
  obtain ⟨hnd, hmem⟩ := Incremental.scans_of_run h0 h
  refine ⟨hnd, hmem, ?_⟩
  have hle : total Incremental.turns tr + s.stack.len ≤
      s₀.stack.len + total (fun s a => s.arrivals a + s.slotsRead a) tr :=
    (Run.amortized (I := fun _ => True) (fun s => s.stack.len) trivial
      (fun _ _ _ _ _ _ hst => ⟨trivial, Incremental.step_turns hst⟩) h).2
  have hsum : total (fun (s : Incremental) a => s.arrivals a + s.slotsRead a) tr =
      total Incremental.arrivals tr + total Incremental.slotsRead tr := by
    simp [total, List.sum_map_add]
  rwa [hsum] at hle

/-- The second entry of `2` costs a turn and no scan. -/
theorem turns_bounded_orphan :
    ∃ tr s, Run Incremental.step anyEnv orphanStart tr s ∧ total Incremental.turns tr = 5 ∧
      (log Incremental.scans tr).Nodup ∧ total Incremental.turns tr + s.stack.len ≤
        1 + (total Incremental.arrivals tr + total Incremental.slotsRead tr) := by
  have h := (Run.nil : Run Incremental.step anyEnv orphanStart [] orphanStart).exec
    (fun _ _ _ _ => trivial)
    (show exec Incremental.step [] orphanStart orphanActs = some _ from rfl)
  obtain ⟨hnd, -, hle⟩ := turns_bounded rfl h
  exact ⟨_, _, h, rfl, hnd, hle⟩

/-! ## Draining -/

open Incremental in
/-- `while let Some(obj) = stack.pop()`, `none` when the fuel runs out. -/
def drainLoop (refs_of : UInt32 → List UInt32) :
    Nat → MarkStack → Finset UInt32 → Option (Finset UInt32)
  | 0, _, _ => none
  | fuel + 1, stack, black =>
    match stack.pop with
    | (none, _) => some black
    | (some obj, stack) =>
      if obj ∈ black then drainLoop refs_of fuel stack black
      else
        let black := insert obj black
        drainLoop refs_of fuel (pushChildren black stack (refs_of obj)) black

def drain_marker (refs_of : UInt32 → List UInt32) (fuel : Nat) (stack : MarkStack) :
    Option (Finset UInt32) :=
  drainLoop refs_of fuel stack ∅

section Drain

open Incremental

variable {refs_of : UInt32 → List UInt32} {fuel : Nat} {stack : MarkStack}
  {black b : Finset UInt32} {R : Set UInt32}

/-- The graph whose nodes are the ids. -/
def Refs (refs_of : UInt32 → List UInt32) (x y : UInt32) : Prop := y ∈ refs_of x

theorem drainLoop_spec (h : drainLoop refs_of fuel stack black = some b)
    (hc : Search.Cover (Refs refs_of) R {x | x ∈ black} {x | x ∈ black ∨ x ∈ stack.objects})
    (hs : ∀ x, x ∈ black ∨ x ∈ stack.objects → x ∈ Search.Reach (Refs refs_of) R) :
    {x | x ∈ b} = Search.Reach (Refs refs_of) R := by
  induction fuel generalizing stack black with
  | zero => cases h
  | succ fuel ih =>
    obtain ⟨objects⟩ := stack
    cases objects with
    | nil =>
      cases h
      exact hc.eq_reach (fun x hx => hx.resolve_right (by simp)) fun x hx => hs x (.inl hx)
    | cons obj rest =>
      simp only [drainLoop, MarkStack.pop] at h
      split at h
      · next hb =>
        refine ih h (hc.mono (fun _ hx => hx) fun x hx => ?_) fun x hx =>
          hs x (hx.imp_right (List.mem_cons_of_mem _))
        rcases hx with hx | hx
        · exact .inl hx
        · rcases List.mem_cons.mp hx with rfl | hx
          · exact .inl hb
          · exact .inr hx
      · next hb =>
        refine ih h (hc.scan (fun x hx => Finset.mem_insert.mp hx) (fun x hx => ?_)
          fun y hy => ?_) fun x hx => ?_
        · simp only [Set.mem_ofPred_eq, List.mem_cons, mem_pushChildren, Finset.mem_insert] at hx ⊢
          tauto
        · simp only [Refs] at hy
          simp only [Set.mem_ofPred_eq, mem_pushChildren, Finset.mem_insert]
          tauto
        · have hobj := hs obj (.inr List.mem_cons_self)
          simp only [mem_pushChildren, Finset.mem_insert] at hx
          rcases hx with (rfl | hx) | hx | ⟨hx, -⟩
          · exact hobj
          · exact hs x (.inl hx)
          · exact hs x (.inr (List.mem_cons_of_mem _ hx))
          · exact Search.Reach.step hobj hx

/-- The entries on the stack, and the slots of what is not black yet. -/
def drainLeft (refs_of : UInt32 → List UInt32) (ids black : Finset UInt32)
    (stack : MarkStack) : ℕ :=
  stack.len + ∑ id ∈ ids \ black, (refs_of id).length

theorem drainLoop_isSome {ids : Finset UInt32} (hids : ∀ id, id ∈ ids)
    (hlt : drainLeft refs_of ids black stack < fuel) :
    ∃ b, drainLoop refs_of fuel stack black = some b := by
  induction fuel generalizing stack black with
  | zero => omega
  | succ fuel ih =>
    obtain ⟨objects⟩ := stack
    cases objects with
    | nil => exact ⟨black, rfl⟩
    | cons obj rest =>
      simp only [drainLoop, MarkStack.pop]
      split
      · refine ih ?_
        simp only [drainLeft, MarkStack.len, List.length_cons] at hlt ⊢
        omega
      · next hb =>
        refine ih ?_
        have hle := length_pushChildren_le (insert obj black) ⟨rest⟩ (refs_of obj)
        have hsum : ∑ id ∈ ids \ insert obj black, (refs_of id).length + (refs_of obj).length =
            ∑ id ∈ ids \ black, (refs_of id).length := by
          rw [Finset.sdiff_insert]
          exact Finset.sum_erase_add _ _ (Finset.mem_sdiff.mpr ⟨hids obj, hb⟩)
        simp only [drainLeft, MarkStack.len, List.length_cons] at hlt hle ⊢
        omega

theorem drain_marker_returns (refs_of : UInt32 → List UInt32) (stack : MarkStack) :
    ∃ n, ∀ fuel, n ≤ fuel → ∃ b, drain_marker refs_of fuel stack = some b ∧
      {x | x ∈ b} = Search.Reach (Refs refs_of) {x | x ∈ stack.objects} := by
  let ids := (finite_ids Set.univ).toFinset
  refine ⟨drainLeft refs_of ids ∅ stack + 1, fun fuel hf => ?_⟩
  have hids : ∀ id, id ∈ ids := fun id => by simp [ids]
  obtain ⟨b, hb⟩ := drainLoop_isSome hids (Nat.lt_of_succ_le hf)
  refine ⟨b, hb, drainLoop_spec hb ⟨fun x hx => .inr hx, fun x hx => by simp at hx⟩ fun x hx => ?_⟩
  exact Search.Reach.root (hx.resolve_left (by simp))

end Drain

/-- **Draining a stack and marking breadth first agree.** With enough fuel `drain_marker` returns,
on any graph and any stack of its roots, duplicates allowed, exactly the ids that `mark`
colours Black. -/
theorem drain_marker_agrees_with_mark (g : ObjectGraph UInt32) (stack : MarkStack)
    (hstack : ∀ id, id ∈ stack.objects ↔ id ∈ g.roots) :
    ∃ color, Marks g color ∧ ∃ n, ∀ fuel, n ≤ fuel →
      ∃ b, drain_marker g.refs_of fuel stack = some b ∧ ∀ id, id ∈ b ↔ color id = some .Black := by
  obtain ⟨color, hcolor⟩ := mark_returns g (finite_ids _)
  obtain ⟨n, hn⟩ := drain_marker_returns g.refs_of stack
  refine ⟨color, hcolor, n, fun fuel hf => ?_⟩
  obtain ⟨b, hb, hreach⟩ := hn fuel hf
  refine ⟨b, hb, fun id => ?_⟩
  have hroots : {x | x ∈ stack.objects} = {r | r ∈ g.roots} := Set.ext hstack
  rw [hcolor.black_iff, ObjectGraph.reach, ← hroots]
  exact Set.ext_iff.mp hreach id

/-- A root pushed twice. -/
theorem drain_marker_agrees_with_mark_twice :
    ∃ color, Marks (orphanStart.objects.graph [1] []) color ∧ ∃ n, ∀ fuel, n ≤ fuel →
      ∃ b, drain_marker orphanStart.objects.refs_of fuel ⟨[1, 1]⟩ = some b ∧
        ∀ id, id ∈ b ↔ color id = some .Black :=
  drain_marker_agrees_with_mark (orphanStart.objects.graph [1] []) ⟨[1, 1]⟩
    fun id => by simp [Objects.graph]

/-- **Draining completes the snapshot.** At any moment of marking, draining the stack over the
graph as it is then and adding what is black already gives every object that was reachable
when marking started. -/
theorem drain_completes_snapshot {s₀ s : Incremental} {roots all_ids : List UInt32}
    {tr : History Incremental IncAct} (h0 : Incremental.Starts s₀ roots)
    (h : Run Incremental.step anyEnv s₀ tr s) :
    ∃ n, ∀ fuel, n ≤ fuel → ∃ b, drain_marker s.objects.refs_of fuel s.stack = some b ∧
      ∀ id ∈ (s₀.objects.graph roots all_ids).reach, id ∈ b ∪ s.black := by
  have hsnap := Incremental.snap_of_run h0 h
  obtain ⟨n, hn⟩ := drain_marker_returns s.objects.refs_of s.stack
  refine ⟨n, fun fuel hf => ?_⟩
  obtain ⟨b, hb, hreach⟩ := hn fuel hf
  have hfound {x : UInt32} (hx : x ∈ s.found) : x ∈ b ∪ s.black := by
    rw [Finset.mem_union]
    refine hx.symm.imp_left fun hx => ?_
    exact (Set.ext_iff.mp hreach x).mpr (Search.Reach.root hx)
  refine ⟨b, hb, fun id hid => Search.Reach.subset (S := {x | x ∈ b ∪ s.black})
    (fun r hr => hfound (hsnap.cover.roots hr)) (fun x hx y hy => ?_) hid⟩
  rcases Finset.mem_union.mp hx with hx | hx
  · -- `x` was drained: so are its present children, and a child it lost was found
    obtain ⟨i, hi⟩ := Objects.mem_refs_of.mp hy
    rcases hsnap.slots x i y hi with hcur | hy
    · have hx : x ∈ Search.Reach _ _ := (Set.ext_iff.mp hreach x).mp hx
      exact Finset.mem_union_left _ ((Set.ext_iff.mp hreach y).mpr
        (Search.Reach.step hx (Objects.mem_refs_of.mpr ⟨i, hcur⟩)))
    · exact hfound hy
  · exact hfound (hsnap.cover.scanned x hx y hy)

/-- Drained right after the overwrite, `3` is found through the captured `2`. -/
theorem drain_completes_snapshot_orphan :
    ∃ tr s b, Run Incremental.step anyEnv orphanStart tr s ∧ s.stack.len = 2 ∧
      3 ∈ b ∪ s.black := by
  have h := (Run.nil : Run Incremental.step anyEnv orphanStart [] orphanStart).exec
    (fun _ _ _ _ => trivial)
    (show exec Incremental.step [] orphanStart (orphanActs.take 2) = some _ from rfl)
  obtain ⟨n, hn⟩ := drain_completes_snapshot orphanStart_starts h
  obtain ⟨b, -, hb⟩ := hn n (Nat.le_refl n)
  exact ⟨_, _, b, h, rfl, hb 3 orphanStart_reach⟩

end Samsara
