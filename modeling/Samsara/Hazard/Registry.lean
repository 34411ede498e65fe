import Samsara.Hazard.Table
import Samsara.Lib.Run

/-!
# The hazard registry (`hazard.rs`)

Any number of clients acquire guards, use them and drop them, or query the registry; every
atomic load, store and compare-and-swap is a step of its own. A client is one guard, from
the call of `acquire` that makes it to the end of its `drop`, or one call of `is_hazarded` or
`snapshot`; a guard belongs to one thread, so its own operations follow one another.
-/

namespace Samsara.HazardRegistry

open StepSys

/-- What a client is doing. -/
inductive Pc where
  | idle
  /-- `acquire`: the compare-and-swap on slot `idx` is next -/
  | acquire (idx : Nat)
  /-- `acquire` returns `None` -/
  | acquire_none
  /-- a live guard, none of its operations in progress -/
  | live (idx : Nat)
  | protect (idx : Nat) (ptr : Addr)
  | clear (idx : Nat)
  /-- the guard's `drop`: the store of `clear` is next, then that of `in_use` -/
  | drop_clear (idx : Nat)
  | drop_release (idx : Nat)
  /-- `is_hazarded(ptr)`: the load of `in_use` of slot `idx` is next, then that of `ptr` -/
  | is_hazarded (ptr : Addr) (idx : Nat)
  | is_hazarded_ptr (ptr : Addr) (idx : Nat)
  | is_hazarded_ret (ptr : Addr) (res : Bool)
  /-- `snapshot`: the load of `in_use` of slot `idx` is next, then that of `ptr` -/
  | snapshot (idx : Nat) (out : List Addr)
  | snapshot_ptr (idx : Nat) (out : List Addr)
  | snapshot_ret (out : List Addr)
  deriving DecidableEq

open Pc in
/-- One atomic step of a client. -/
def clientStep (slots : Slots) : Pc → Option (Slots × Pc)
  | idle | live _ => none
  | acquire idx =>
    if idx < MAX_HAZARDS then
      if (slots idx).in_use then some (slots, acquire (idx + 1))
      else some (slots.claim idx, live idx)
    else some (slots, acquire_none)
  | acquire_none => some (slots, idle)
  | protect idx ptr => some ((Store.ptr idx ptr).apply slots, live idx)
  | clear idx => some ((Store.ptr idx null).apply slots, live idx)
  | drop_clear idx => some ((Store.ptr idx null).apply slots, drop_release idx)
  | drop_release idx => some ((Store.in_use idx).apply slots, idle)
  | is_hazarded ptr idx =>
    if idx < MAX_HAZARDS then
      if (slots idx).in_use then some (slots, is_hazarded_ptr ptr idx)
      else some (slots, is_hazarded ptr (idx + 1))
    else some (slots, is_hazarded_ret ptr false)
  | is_hazarded_ptr ptr idx =>
    if (slots idx).ptr = ptr then some (slots, is_hazarded_ret ptr true)
    else some (slots, is_hazarded ptr (idx + 1))
  | is_hazarded_ret _ _ => some (slots, idle)
  | snapshot idx out =>
    if idx < MAX_HAZARDS then
      if (slots idx).in_use then some (slots, snapshot_ptr idx out)
      else some (slots, snapshot (idx + 1) out)
    else some (slots, snapshot_ret out)
  | snapshot_ptr idx out =>
    some (slots, snapshot (idx + 1)
      (if (slots idx).ptr ≠ null then out ++ [(slots idx).ptr] else out))
  | snapshot_ret _ => some (slots, idle)

inductive Act where
  | acquire (c : Nat)
  | protect (c : Nat) (ptr : Addr)
  | clear (c : Nat)
  | drop (c : Nat)
  | is_hazarded (c : Nat) (ptr : Addr)
  | snapshot (c : Nat)
  /-- client `c` takes a step -/
  | step (c : Nat)
  deriving DecidableEq

end HazardRegistry

structure HazardRegistry where
  slots : Slots
  pc : Nat → HazardRegistry.Pc

namespace HazardRegistry

def new : HazardRegistry := ⟨fun _ => ⟨false, null⟩, fun _ => .idle⟩

def setPc (s : HazardRegistry) (c : Nat) (p : Pc) : HazardRegistry :=
  { s with pc := Function.update s.pc c p }

def onGuard (s : HazardRegistry) (c : Nat) (next : Nat → Pc) : Option HazardRegistry :=
  match s.pc c with
  | .live idx => some (s.setPc c (next idx))
  | _ => none

def step (s : HazardRegistry) : Act → Option HazardRegistry
  | .acquire c => if s.pc c = .idle then some (s.setPc c (.acquire 0)) else none
  | .protect c ptr => s.onGuard c fun idx => .protect idx ptr
  | .clear c => s.onGuard c .clear
  | .drop c => s.onGuard c .drop_clear
  | .is_hazarded c ptr =>
    if s.pc c = .idle then some (s.setPc c (.is_hazarded ptr 0)) else none
  | .snapshot c => if s.pc c = .idle then some (s.setPc c (.snapshot 0 [])) else none
  | .step c => (clientStep s.slots (s.pc c)).map fun (slots, p) => ⟨slots, Function.update s.pc c p⟩

/-! ## What a step can do -/

def Pc.role : Pc → Role
  | live idx | protect idx _ | clear idx | drop_clear idx => .holder idx
  | drop_release idx => .leaver idx
  | _ => .outside

/-- What a step of a client does, one constructor for each branch, and for each call. -/
inductive Move (slots : Slots) : Pc → Slots → Pc → Prop where
  | call_acquire : Move slots .idle slots (.acquire 0)
  | call_protect {i : Nat} {p : Addr} : Move slots (.live i) slots (.protect i p)
  | call_clear {i : Nat} : Move slots (.live i) slots (.clear i)
  | call_drop {i : Nat} : Move slots (.live i) slots (.drop_clear i)
  | call_is_hazarded {p : Addr} : Move slots .idle slots (.is_hazarded p 0)
  | call_snapshot : Move slots .idle slots (.snapshot 0 [])
  | acquire_busy {i : Nat} (hi : i < MAX_HAZARDS) (hu : (slots i).in_use = true) :
      Move slots (.acquire i) slots (.acquire (i + 1))
  | acquire {i : Nat} (hi : i < MAX_HAZARDS) (hu : (slots i).in_use = false) :
      Move slots (.acquire i) (slots.claim i) (.live i)
  | acquire_none {i : Nat} (hi : ¬ i < MAX_HAZARDS) : Move slots (.acquire i) slots .acquire_none
  | ret_none : Move slots .acquire_none slots .idle
  | protect {i : Nat} {p : Addr} :
      Move slots (.protect i p) ((Store.ptr i p).apply slots) (.live i)
  | clear {i : Nat} : Move slots (.clear i) ((Store.ptr i null).apply slots) (.live i)
  | drop_clear {i : Nat} :
      Move slots (.drop_clear i) ((Store.ptr i null).apply slots) (.drop_release i)
  | drop_release {i : Nat} : Move slots (.drop_release i) ((Store.in_use i).apply slots) .idle
  | query_used {i : Nat} {p : Addr} (hi : i < MAX_HAZARDS) (hu : (slots i).in_use = true) :
      Move slots (.is_hazarded p i) slots (.is_hazarded_ptr p i)
  | query_unused {i : Nat} {p : Addr} (hi : i < MAX_HAZARDS) (hu : (slots i).in_use = false) :
      Move slots (.is_hazarded p i) slots (.is_hazarded p (i + 1))
  | query_end {i : Nat} {p : Addr} (hi : ¬ i < MAX_HAZARDS) :
      Move slots (.is_hazarded p i) slots (.is_hazarded_ret p false)
  | query_hit {i : Nat} {p : Addr} (hp : (slots i).ptr = p) :
      Move slots (.is_hazarded_ptr p i) slots (.is_hazarded_ret p true)
  | query_miss {i : Nat} {p : Addr} (hp : (slots i).ptr ≠ p) :
      Move slots (.is_hazarded_ptr p i) slots (.is_hazarded p (i + 1))
  | query_ret {p : Addr} {b : Bool} : Move slots (.is_hazarded_ret p b) slots .idle
  | scan_used {i : Nat} {out : List Addr} (hi : i < MAX_HAZARDS)
      (hu : (slots i).in_use = true) : Move slots (.snapshot i out) slots (.snapshot_ptr i out)
  | scan_unused {i : Nat} {out : List Addr} (hi : i < MAX_HAZARDS)
      (hu : (slots i).in_use = false) : Move slots (.snapshot i out) slots (.snapshot (i + 1) out)
  | scan_end {i : Nat} {out : List Addr} (hi : ¬ i < MAX_HAZARDS) :
      Move slots (.snapshot i out) slots (.snapshot_ret out)
  | scan_ptr {i : Nat} {out : List Addr} :
      Move slots (.snapshot_ptr i out) slots
        (.snapshot (i + 1) (if (slots i).ptr ≠ null then out ++ [(slots i).ptr] else out))
  | scan_ret {out : List Addr} : Move slots (.snapshot_ret out) slots .idle

theorem clientStep_cases {slots slots' : Slots} {q p : Pc}
    (h : clientStep slots q = some (slots', p)) : Move slots q slots' p := by
  cases q <;> simp only [clientStep] at h
  case idle | live => cases h
  case acquire i =>
    split at h
    · next hi =>
      split at h <;> cases h
      · next hu => exact .acquire_busy hi hu
      · next hu => exact .acquire hi (by simpa using hu)
    · next hi => cases h; exact .acquire_none hi
  case is_hazarded a i =>
    split at h
    · next hi =>
      split at h <;> cases h
      · next hu => exact .query_used hi hu
      · next hu => exact .query_unused hi (by simpa using hu)
    · next hi => cases h; exact .query_end hi
  case is_hazarded_ptr a i =>
    split at h <;> cases h
    · next hp => exact .query_hit hp
    · next hp => exact .query_miss hp
  case snapshot i out =>
    split at h
    · next hi =>
      split at h <;> cases h
      · next hu => exact .scan_used hi hu
      · next hu => exact .scan_unused hi (by simpa using hu)
    · next hi => cases h; exact .scan_end hi
  all_goals
    cases h
    constructor

def Act.client : Act → Nat
  | acquire c | protect c _ | clear c | drop c | is_hazarded c _ | snapshot c | step c => c

variable {s s' : HazardRegistry} {a : Act} {slots slots' : Slots} {q p : Pc}

theorem onGuard_cases {c : Nat} {next : Nat → Pc} (h : s.onGuard c next = some s') :
    ∃ i, s.pc c = .live i ∧ s' = s.setPc c (next i) := by
  unfold onGuard at h
  split at h
  · next i hi => exact ⟨i, hi, (Option.some.inj h).symm⟩
  · cases h

/-- **Every action is a move of its client.** -/
theorem step_cases (h : s.step a = some s') :
    ∃ p, Move s.slots (s.pc a.client) s'.slots p ∧ s'.pc = Function.update s.pc a.client p := by
  cases a <;> simp only [step] at h
  case acquire c | is_hazarded c _ | snapshot c =>
    split at h <;> cases h
    next hc =>
      refine ⟨_, ?_, rfl⟩
      simp only [Act.client, hc]
      constructor
  case protect c _ | clear c | drop c =>
    obtain ⟨i, hc, rfl⟩ := onGuard_cases h
    refine ⟨_, ?_, rfl⟩
    simp only [Act.client, hc]
    constructor
  case step c =>
    obtain ⟨⟨slots, p⟩, hm, rfl⟩ := Option.map_eq_some_iff.mp h
    exact ⟨p, clientStep_cases hm, rfl⟩

theorem Move.slotMove (h : Move slots q slots' p) : SlotMove slots q.role slots' p.role := by
  cases h
  case acquire hi hu => exact .claim hi hu
  case protect | clear => exact .point
  case drop_clear => exact .clear
  case drop_release => exact .release
  all_goals exact .keep

end HazardRegistry

end Samsara
