import Samsara.Lib.Linearize
import Samsara.Lib.Run
import Samsara.Hazard

/-!
# The hazard-pointer stack (`safe_treiber.rs`)

Any number of threads run `push`, `pop` and `force_reclaim`; `threadStep` is one atomic
step of one thread. Under `tso` a plain atomic store goes to the thread's buffer and
reaches shared memory at a later `flush`; a compare-and-swap or a mutex operation empties
the buffer first. Under `sc` a store takes effect at once. The critical sections of the
`retired` mutex are not single steps: the loads of the scan and the frees are steps of
their own, taken while the mutex is held.
-/

namespace Samsara.SafeTreiber

open Linearize StepSys

structure Node where
  value : UInt32
  next : Addr
  deriving DecidableEq

/-- Reclaim retired nodes after the queue grows past this many entries. -/
def RETIRE_THRESHOLD : Nat := 64

inductive MemModel where
  | sc
  | tso
  deriving DecidableEq

structure Mem where
  /-- the allocated nodes -/
  heap : Addr → Option Node
  head : Addr
  slots : Slots
  retired : List Addr
  /-- the thread that holds the `retired` mutex -/
  lock : Option Nat
  /-- the store buffers, oldest store first -/
  buf : Nat → List Store

namespace Mem

def new : Mem := ⟨fun _ => none, null, fun _ => ⟨false, null⟩, [], none, fun _ => []⟩

/-- The slots as thread `t` sees them. -/
def view (m : Mem) (t : Nat) : Slots := m.slots.after (m.buf t)

def append (m : Mem) (t : Nat) (st : Store) : Mem :=
  { m with buf := Function.update m.buf t (m.buf t ++ [st]) }

/-- The oldest store of `t` reaches shared memory. -/
def flush (m : Mem) (t : Nat) : Option Mem :=
  match m.buf t with
  | [] => none
  | st :: rest => some { m with slots := st.apply m.slots, buf := Function.update m.buf t rest }

/-- Every store of `t` reaches shared memory. -/
def drain (m : Mem) (t : Nat) : Mem :=
  { m with slots := m.view t, buf := Function.update m.buf t [] }

def store (mm : MemModel) (m : Mem) (t : Nat) (st : Store) : Mem :=
  match mm with
  | .sc => (m.append t st).drain t
  | .tso => m.append t st

def next (m : Mem) (a : Addr) : Option Addr := (m.heap a).map Node.next

end Mem

/-- What a call returns. -/
inductive Ret where
  | pushed
  | popped (v : Option UInt32)
  | reclaimed
  deriving DecidableEq

/-- Where a thread is; the arguments are its locals. -/
inductive Pc where
  | idle
  /-- `push(value)`: `Box::new` is next -/
  | push_alloc (value : UInt32)
  | push_load (value : UInt32) (new : Addr)
  | push_next (value : UInt32) (new head : Addr)
  | push_cas (value : UInt32) (new head : Addr)
  /-- `pop`: the compare-and-swap on slot `idx` of `acquire` is next -/
  | acquire (idx : Nat)
  | pop_load (idx : Nat)
  | protect (idx : Nat) (head : Addr)
  | verify (idx : Nat) (head : Addr)
  | read_next (idx : Nat) (head : Addr)
  | pop_cas (idx : Nat) (head next : Addr)
  | read_value (idx : Nat) (head : Addr)
  | clear (idx : Nat) (head : Addr) (value : UInt32)
  /-- the guard's `drop`; `popped` is the node to retire and its value -/
  | drop_clear (idx : Nat) (popped : Option (Addr × UInt32))
  | drop_release (idx : Nat) (popped : Option (Addr × UInt32))
  | retire_lock (head : Addr) (value : UInt32)
  | retire_push (head : Addr) (value : UInt32)
  /-- `force_reclaim` -/
  | reclaim_lock
  /-- `snapshot`: the load of `in_use` of slot `idx` is next -/
  | scan (idx : Nat) (out : List Addr) (r : Ret)
  /-- `snapshot`: the load of `ptr` of slot `idx` is next -/
  | scan_ptr (idx : Nat) (out : List Addr) (r : Ret)
  /-- `retain` has reached entry `k` of the queue -/
  | retain (out : List Addr) (k : Nat) (r : Ret)
  | unlock (r : Ret)
  | ret (r : Ret)
  /-- `expect("hazard slot exhausted")` -/
  | panicked
  /-- the thread has read a node that is not allocated -/
  | fault
  deriving DecidableEq

open Pc in
/-- One step of thread `t`; `none` when it is blocked or has none. -/
def threadStep (mm : MemModel) (t : Nat) (m : Mem) : Pc → Option (Mem × Pc)
  | idle | push_alloc _ | panicked | fault => none
  | push_load value new => some (m, push_next value new m.head)
  | push_next value new head =>
    match m.heap new with
    | some n =>
      some ({ m with heap := Function.update m.heap new (some { n with next := head }) },
        push_cas value new head)
    | none => some (m, fault)
  | push_cas value new head =>
    if m.head = head then some ({ m.drain t with head := new }, ret .pushed)
    else some (m.drain t, push_load value new)
  | acquire idx =>
    if idx < MAX_HAZARDS then
      if ((m.drain t).slots idx).in_use then some (m.drain t, acquire (idx + 1))
      else
        some ({ m.drain t with
          slots := Function.update (m.drain t).slots idx
            { (m.drain t).slots idx with in_use := true } }, pop_load idx)
    else some (m, panicked)
  | pop_load idx =>
    if m.head = null then some (m, drop_clear idx none) else some (m, protect idx m.head)
  | protect idx head => some (m.store mm t (.ptr idx head), verify idx head)
  | verify idx head =>
    if m.head = head then some (m, read_next idx head) else some (m, pop_load idx)
  | read_next idx head =>
    match m.heap head with
    | some n => some (m, pop_cas idx head n.next)
    | none => some (m, fault)
  | pop_cas idx head next =>
    if m.head = head then some ({ m.drain t with head := next }, read_value idx head)
    else some (m.drain t, pop_load idx)
  | read_value idx head =>
    match m.heap head with
    | some n => some (m, clear idx head n.value)
    | none => some (m, fault)
  | clear idx head value => some (m.store mm t (.ptr idx null), drop_clear idx (some (head, value)))
  | drop_clear idx popped => some (m.store mm t (.ptr idx null), drop_release idx popped)
  | drop_release idx none => some (m.store mm t (.in_use idx), ret (.popped none))
  | drop_release idx (some (head, value)) =>
    some (m.store mm t (.in_use idx), retire_lock head value)
  | retire_lock head value =>
    if m.lock = none then some ({ m.drain t with lock := some t }, retire_push head value) else none
  | retire_push head value =>
    some ({ m with retired := m.retired ++ [head] },
      if (m.retired ++ [head]).length ≥ RETIRE_THRESHOLD then scan 0 [] (.popped (some value))
      else unlock (.popped (some value)))
  | reclaim_lock =>
    if m.lock = none then some ({ m.drain t with lock := some t }, scan 0 [] .reclaimed) else none
  | scan idx out r =>
    if idx < MAX_HAZARDS then
      if (m.view t idx).in_use then some (m, scan_ptr idx out r) else some (m, scan (idx + 1) out r)
    else some (m, retain out 0 r)
  | scan_ptr idx out r =>
    some (m, scan (idx + 1)
      (if (m.view t idx).ptr ≠ null then out ++ [(m.view t idx).ptr] else out) r)
  | retain out k r =>
    match m.retired[k]? with
    | some p =>
      if p ∈ out then some (m, retain out (k + 1) r)
      else
        some ({ m with heap := Function.update m.heap p none, retired := m.retired.eraseIdx k },
          retain out k r)
    | none => some (m, unlock r)
  | unlock r => some ({ m.drain t with lock := none }, ret r)
  | ret _ => some (m, idle)

structure Stack where
  mem : Mem
  pc : Nat → Pc

namespace Stack

def new : Stack := ⟨.new, fun _ => .idle⟩

inductive Act where
  /-- thread `t` calls `push(value)` -/
  | push (t : Nat) (value : UInt32)
  | pop (t : Nat)
  | force_reclaim (t : Nat)
  /-- the allocator gives `t` the unallocated address `a` for its new node -/
  | alloc (t : Nat) (a : Addr)
  /-- `t` takes a step -/
  | step (t : Nat)
  /-- the oldest store in the buffer of `t` reaches shared memory -/
  | flush (t : Nat)
  deriving DecidableEq

def setPc (s : Stack) (t : Nat) (p : Pc) : Stack := { s with pc := Function.update s.pc t p }

def step (mm : MemModel) (s : Stack) : Act → Option Stack
  | .push t value => if s.pc t = .idle then some (s.setPc t (.push_alloc value)) else none
  | .pop t => if s.pc t = .idle then some (s.setPc t (.acquire 0)) else none
  | .force_reclaim t => if s.pc t = .idle then some (s.setPc t .reclaim_lock) else none
  | .alloc t a =>
    match s.pc t with
    | .push_alloc value =>
      if a ≠ null ∧ s.mem.heap a = none then
        some ⟨{ s.mem with heap := Function.update s.mem.heap a (some ⟨value, null⟩) },
          Function.update s.pc t (.push_load value a)⟩
      else none
    | _ => none
  | .step t =>
    (threadStep mm t s.mem (s.pc t)).map fun (m, p) => ⟨m, Function.update s.pc t p⟩
  | .flush t => (s.mem.flush t).map fun m => { s with mem := m }

/-- Calls and returns of `push` and `pop`; everything else is internal. -/
def event : Stack × Act → Event Nat (StackOp UInt32) (StackRes UInt32)
  | (_, .push t value) => .call t (.push value)
  | (_, .pop t) => .call t .pop
  | (s, .step t) =>
    match s.pc t with
    | .ret .pushed => .ret t .pushed
    | .ret (.popped v) => .ret t (.popped v)
    | _ => .internal
  | _ => .internal

end Stack

end Samsara.SafeTreiber
