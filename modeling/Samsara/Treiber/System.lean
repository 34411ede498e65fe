import Samsara.Hazard
import Samsara.Lib.Linearize
import Samsara.Lib.Run

/-!
# The plain stack (`treiber.rs`)

Any number of threads run `push` and `pop`; `threadStep` is one atomic step of one thread.
`pop` frees the node it has taken off the list at once, so another `pop` may still hold its
address. The allocator never returns an address twice (the no-ABA assumption), and a freed
node keeps its contents: a read of it returns what it held.
-/

namespace Samsara.Treiber

open Linearize StepSys

structure Node where
  value : UInt32
  next : Addr
  deriving DecidableEq

structure Mem where
  /-- the contents of the nodes allocated so far, freed ones included -/
  heap : Addr → Option Node
  freed : Addr → Bool
  head : Addr

namespace Mem

def new : Mem := ⟨fun _ => none, fun _ => false, null⟩

def next (m : Mem) (a : Addr) : Option Addr := (m.heap a).map Node.next

/-- The values along a list of nodes. -/
def values (m : Mem) (l : List Addr) : List UInt32 :=
  l.filterMap fun a => (m.heap a).map Node.value

end Mem

/-- What a call returns. -/
inductive Ret where
  | pushed
  | popped (v : Option UInt32)
  deriving DecidableEq

/-- Where a thread is; the arguments are its locals. -/
inductive Pc where
  | idle
  /-- `push(value)`: `Box::new` is next -/
  | push_alloc (value : UInt32)
  | push_load (value : UInt32) (new : Addr)
  | push_next (value : UInt32) (new head : Addr)
  | push_cas (value : UInt32) (new head : Addr)
  | pop_load
  | read_next (head : Addr)
  | pop_cas (head next : Addr)
  /-- `Box::from_raw(head)`: the read of its value is next -/
  | take (head : Addr)
  /-- the box is dropped at the end of its scope -/
  | free (head : Addr) (value : UInt32)
  | ret (r : Ret)
  deriving DecidableEq

open Pc in
/-- One step of a thread; `none` when it has none. -/
def threadStep (m : Mem) : Pc → Option (Mem × Pc)
  | idle | push_alloc _ => none
  | push_load value new => some (m, push_next value new m.head)
  | push_next value new head =>
    (m.heap new).map fun n =>
      ({ m with heap := Function.update m.heap new (some { n with next := head }) },
        push_cas value new head)
  | push_cas value new head =>
    if m.head = head then some ({ m with head := new }, ret .pushed)
    else some (m, push_load value new)
  | pop_load => if m.head = null then some (m, ret (.popped none)) else some (m, read_next m.head)
  | read_next head => (m.heap head).map fun n => (m, pop_cas head n.next)
  | pop_cas head next =>
    if m.head = head then some ({ m with head := next }, take head) else some (m, pop_load)
  | take head => (m.heap head).map fun n => (m, free head n.value)
  | free head value =>
    some ({ m with freed := Function.update m.freed head true }, ret (.popped (some value)))
  | ret _ => some (m, idle)

structure Stack where
  mem : Mem
  pc : Nat → Pc

namespace Stack

def new : Stack := ⟨.new, fun _ => .idle⟩

inductive Act where
  /-- thread `t` calls `push(value)` -/
  | push (t : Nat) (value : UInt32)
  | pop (t : Nat)
  /-- the allocator gives `t` the fresh address `a` for its new node -/
  | alloc (t : Nat) (a : Addr)
  /-- `t` takes a step -/
  | step (t : Nat)
  deriving DecidableEq

def setPc (s : Stack) (t : Nat) (p : Pc) : Stack := { s with pc := Function.update s.pc t p }

def step (s : Stack) : Act → Option Stack
  | .push t value => if s.pc t = .idle then some (s.setPc t (.push_alloc value)) else none
  | .pop t => if s.pc t = .idle then some (s.setPc t .pop_load) else none
  | .alloc t a =>
    match s.pc t with
    | .push_alloc value =>
      if a ≠ null ∧ s.mem.heap a = none then
        some ⟨{ s.mem with heap := Function.update s.mem.heap a (some ⟨value, null⟩) },
          Function.update s.pc t (.push_load value a)⟩
      else none
    | _ => none
  | .step t => (threadStep s.mem (s.pc t)).map fun (m, p) => ⟨m, Function.update s.pc t p⟩

/-- Calls and returns; everything else is internal. -/
def event : Stack × Act → Event Nat (StackOp UInt32) (StackRes UInt32)
  | (_, .push t value) => .call t (.push value)
  | (_, .pop t) => .call t .pop
  | (s, .step t) =>
    match s.pc t with
    | .ret .pushed => .ret t .pushed
    | .ret (.popped v) => .ret t (.popped v)
    | _ => .internal
  | _ => .internal

end Stack

/-! ## What a step can do -/

open Pc in
/-- The branches of `threadStep`, one constructor each. -/
inductive Move (m : Mem) : Pc → Mem → Pc → Prop where
  | push_load {v : UInt32} {a : Addr} : Move m (push_load v a) m (push_next v a m.head)
  | push_next {v : UInt32} {a h : Addr} {n : Node} (hn : m.heap a = some n) :
      Move m (push_next v a h)
        { m with heap := Function.update m.heap a (some { n with next := h }) } (push_cas v a h)
  | push_cas_ok {v : UInt32} {a h : Addr} (hh : m.head = h) :
      Move m (push_cas v a h) { m with head := a } (ret .pushed)
  | push_cas_fail {v : UInt32} {a h : Addr} (hh : m.head ≠ h) :
      Move m (push_cas v a h) m (push_load v a)
  | pop_load_null (hh : m.head = null) : Move m pop_load m (ret (.popped none))
  | pop_load (hh : m.head ≠ null) : Move m pop_load m (read_next m.head)
  | read_next {h : Addr} {n : Node} (hn : m.heap h = some n) :
      Move m (read_next h) m (pop_cas h n.next)
  | pop_cas_ok {h n : Addr} (hh : m.head = h) : Move m (pop_cas h n) { m with head := n } (take h)
  | pop_cas_fail {h n : Addr} (hh : m.head ≠ h) : Move m (pop_cas h n) m pop_load
  | take {h : Addr} {n : Node} (hn : m.heap h = some n) : Move m (take h) m (free h n.value)
  | free {h : Addr} {v : UInt32} :
      Move m (free h v) { m with freed := Function.update m.freed h true }
        (ret (.popped (some v)))
  | ret {r : Ret} : Move m (ret r) m idle

theorem move_cases {m m' : Mem} {p p' : Pc} (h : threadStep m p = some (m', p')) :
    Move m p m' p' := by
  cases p <;> simp only [threadStep] at h
  case idle | push_alloc => cases h
  case push_load | free | ret => cases h; constructor
  case push_next | read_next | take =>
    obtain ⟨n, hn, e⟩ := Option.map_eq_some_iff.1 h
    cases e
    constructor
    exact hn
  case push_cas | pop_load | pop_cas =>
    split at h <;> cases h <;> constructor <;> assumption

namespace Stack

/-- The actions: a call, an allocation or a step of a thread. -/
inductive ActMove (s : Stack) : Act → Stack → Prop where
  | push {t : Nat} {v : UInt32} (hp : s.pc t = .idle) :
      ActMove s (.push t v) (s.setPc t (.push_alloc v))
  | pop {t : Nat} (hp : s.pc t = .idle) : ActMove s (.pop t) (s.setPc t .pop_load)
  | alloc {t : Nat} {v : UInt32} {a : Addr} (hp : s.pc t = .push_alloc v) (ha : a ≠ null)
      (hh : s.mem.heap a = none) :
      ActMove s (.alloc t a)
        ⟨{ s.mem with heap := Function.update s.mem.heap a (some ⟨v, null⟩) },
          Function.update s.pc t (.push_load v a)⟩
  | step {t : Nat} {m : Mem} {p : Pc} (hm : Move s.mem (s.pc t) m p) :
      ActMove s (.step t) ⟨m, Function.update s.pc t p⟩

theorem act_cases {s s' : Stack} {a : Act} (h : s.step a = some s') : ActMove s a s' := by
  cases a <;> simp only [step] at h
  case push | pop =>
    split at h <;> cases h
    constructor
    assumption
  case alloc t a =>
    split at h
    · next v hp =>
      split at h <;> cases h
      next hg => exact .alloc hp hg.1 hg.2
    · cases h
  case step t =>
    obtain ⟨⟨m, p⟩, hm, rfl⟩ := Option.map_eq_some_iff.1 h
    exact .step (move_cases hm)

end Stack

end Samsara.Treiber
