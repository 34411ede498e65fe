import Samsara.SafeTreiber.System

/-!
# What a step of a thread can do

`Move` has one constructor for each branch of `push`, `pop` and `reclaim_locked`
(`move_cases`), and the projections of `Pc` say what of a program counter an invariant
looks at: the slot held, the address published there, the node being pushed, the node
popped, the scan in progress. A step whose projections do not change is the business of a
frame lemma; the invariants of the following modules argue about the others only.
-/

namespace Samsara.SafeTreiber

open StepSys

namespace Pc

def slot : Pc → Option Nat
  | pop_load i | protect i _ | verify i _ | read_next i _ | pop_cas i _ _ | read_value i _
  | clear i _ _ | drop_clear i _ | drop_release i _ => some i
  | _ => none

/-- The slot and the address the thread has published there. -/
def hazard : Pc → Option (Nat × Addr)
  | verify i h | read_next i h | pop_cas i h _ => some (i, h)
  | _ => none

/-- As `hazard`, once the reload of `head` has verified it. -/
def protects : Pc → Option (Nat × Addr)
  | read_next i h | pop_cas i h _ => some (i, h)
  | _ => none

def critical : Pc → Bool
  | retire_push _ _ | scan _ _ _ | scan_ptr _ _ _ | retain _ _ _ | unlock _ => true
  | _ => false

def pushing : Pc → Option (UInt32 × Addr)
  | push_load v a | push_next v a _ | push_cas v a _ => some (v, a)
  | _ => none

/-- The node a `push` is about to link, and its successor. -/
def linking : Pc → Option (Addr × Addr)
  | push_cas _ a h => some (a, h)
  | _ => none

/-- The node a `pop` has taken off the list and not retired yet. -/
def popped : Pc → Option Addr
  | read_value _ h | clear _ h _ | retire_lock h _ | retire_push h _ => some h
  | drop_clear _ p | drop_release _ p => p.map Prod.fst
  | _ => none

/-- The slots scanned so far are those below the index; the list holds what was found. -/
def scanned : Pc → Option (Nat × List Addr)
  | scan i out _ | scan_ptr i out _ => some (i, out)
  | retain out _ _ => some (MAX_HAZARDS, out)
  | _ => none

/-- The successor `pop` is about to swing `head` to. -/
def swinging : Pc → Option (Addr × Addr)
  | pop_cas _ h n => some (h, n)
  | _ => none

end Pc

open Pc in
/-- The branches of `threadStep`, one constructor each. -/
inductive Move (mm : MemModel) (t : Nat) (m : Mem) : Pc → Mem → Pc → Prop where
  | push_load {v : UInt32} {a : Addr} : Move mm t m (push_load v a) m (push_next v a m.head)
  | push_next {v : UInt32} {a h : Addr} {n : Node} (hn : m.heap a = some n) :
      Move mm t m (push_next v a h)
        { m with heap := Function.update m.heap a (some { n with next := h }) } (push_cas v a h)
  | push_next_fault {v : UInt32} {a h : Addr} (hn : m.heap a = none) :
      Move mm t m (push_next v a h) m fault
  | push_cas_ok {v : UInt32} {a h : Addr} (hh : m.head = h) :
      Move mm t m (push_cas v a h) { m.drain t with head := a } (ret .pushed)
  | push_cas_fail {v : UInt32} {a h : Addr} (hh : m.head ≠ h) :
      Move mm t m (push_cas v a h) (m.drain t) (push_load v a)
  | acquire_ok {i : Nat} (hi : i < MAX_HAZARDS) (hu : ((m.drain t).slots i).in_use = false) :
      Move mm t m (acquire i)
        { m.drain t with
          slots := Function.update (m.drain t).slots i
            { (m.drain t).slots i with in_use := true } } (pop_load i)
  | acquire_fail {i : Nat} (hi : i < MAX_HAZARDS) (hu : ((m.drain t).slots i).in_use = true) :
      Move mm t m (acquire i) (m.drain t) (acquire (i + 1))
  | acquire_none {i : Nat} (hi : ¬ i < MAX_HAZARDS) : Move mm t m (acquire i) m panicked
  | pop_load_null {i : Nat} (hh : m.head = null) : Move mm t m (pop_load i) m (drop_clear i none)
  | pop_load {i : Nat} (hh : m.head ≠ null) : Move mm t m (pop_load i) m (protect i m.head)
  | protect {i : Nat} {h : Addr} :
      Move mm t m (protect i h) (m.store mm t (.ptr i h)) (verify i h)
  | verify_ok {i : Nat} {h : Addr} (hh : m.head = h) : Move mm t m (verify i h) m (read_next i h)
  | verify_fail {i : Nat} {h : Addr} (hh : m.head ≠ h) : Move mm t m (verify i h) m (pop_load i)
  | read_next {i : Nat} {h : Addr} {n : Node} (hn : m.heap h = some n) :
      Move mm t m (read_next i h) m (pop_cas i h n.next)
  | read_next_fault {i : Nat} {h : Addr} (hn : m.heap h = none) :
      Move mm t m (read_next i h) m fault
  | pop_cas_ok {i : Nat} {h n : Addr} (hh : m.head = h) :
      Move mm t m (pop_cas i h n) { m.drain t with head := n } (read_value i h)
  | pop_cas_fail {i : Nat} {h n : Addr} (hh : m.head ≠ h) :
      Move mm t m (pop_cas i h n) (m.drain t) (pop_load i)
  | read_value {i : Nat} {h : Addr} {n : Node} (hn : m.heap h = some n) :
      Move mm t m (read_value i h) m (clear i h n.value)
  | read_value_fault {i : Nat} {h : Addr} (hn : m.heap h = none) :
      Move mm t m (read_value i h) m fault
  | clear {i : Nat} {h : Addr} {v : UInt32} :
      Move mm t m (clear i h v) (m.store mm t (.ptr i null)) (drop_clear i (some (h, v)))
  | drop_clear {i : Nat} {p : Option (Addr × UInt32)} :
      Move mm t m (drop_clear i p) (m.store mm t (.ptr i null)) (drop_release i p)
  | drop_release_none {i : Nat} :
      Move mm t m (drop_release i none) (m.store mm t (.in_use i)) (ret (.popped none))
  | drop_release {i : Nat} {h : Addr} {v : UInt32} :
      Move mm t m (drop_release i (some (h, v))) (m.store mm t (.in_use i)) (retire_lock h v)
  | retire_lock {h : Addr} {v : UInt32} (hl : m.lock = none) :
      Move mm t m (retire_lock h v) { m.drain t with lock := some t } (retire_push h v)
  | retire_full {h : Addr} {v : UInt32} (hf : (m.retired ++ [h]).length ≥ RETIRE_THRESHOLD) :
      Move mm t m (retire_push h v) { m with retired := m.retired ++ [h] }
        (scan 0 [] (.popped (some v)))
  | retire_push {h : Addr} {v : UInt32} (hf : ¬ (m.retired ++ [h]).length ≥ RETIRE_THRESHOLD) :
      Move mm t m (retire_push h v) { m with retired := m.retired ++ [h] }
        (unlock (.popped (some v)))
  | reclaim_lock (hl : m.lock = none) :
      Move mm t m reclaim_lock { m.drain t with lock := some t } (scan 0 [] .reclaimed)
  | scan_used {i : Nat} {out : List Addr} {r : Ret} (hi : i < MAX_HAZARDS)
      (hu : (m.view t i).in_use = true) : Move mm t m (scan i out r) m (scan_ptr i out r)
  | scan_unused {i : Nat} {out : List Addr} {r : Ret} (hi : i < MAX_HAZARDS)
      (hu : (m.view t i).in_use = false) : Move mm t m (scan i out r) m (scan (i + 1) out r)
  | scan_done {i : Nat} {out : List Addr} {r : Ret} (hi : ¬ i < MAX_HAZARDS) :
      Move mm t m (scan i out r) m (retain out 0 r)
  | scan_ptr {i : Nat} {out : List Addr} {r : Ret} :
      Move mm t m (scan_ptr i out r) m
        (scan (i + 1) (if (m.view t i).ptr ≠ null then out ++ [(m.view t i).ptr] else out) r)
  | retain_keep {out : List Addr} {k : Nat} {r : Ret} {p : Addr} (hp : m.retired[k]? = some p)
      (ho : p ∈ out) : Move mm t m (retain out k r) m (retain out (k + 1) r)
  | retain_free {out : List Addr} {k : Nat} {r : Ret} {p : Addr} (hp : m.retired[k]? = some p)
      (ho : p ∉ out) :
      Move mm t m (retain out k r)
        { m with heap := Function.update m.heap p none, retired := m.retired.eraseIdx k }
        (retain out k r)
  | retain_done {out : List Addr} {k : Nat} {r : Ret} (hp : m.retired[k]? = none) :
      Move mm t m (retain out k r) m (unlock r)
  | unlock {r : Ret} : Move mm t m (unlock r) { m.drain t with lock := none } (ret r)
  | ret {r : Ret} : Move mm t m (ret r) m idle

theorem move_cases {mm : MemModel} {t : Nat} {m m' : Mem} {p p' : Pc}
    (h : threadStep mm t m p = some (m', p')) : Move mm t m p m' p' := by
  cases p <;> simp only [threadStep] at h
  case idle | push_alloc | panicked | fault => cases h
  case push_load | protect | clear | drop_clear | scan_ptr | unlock | ret => cases h; constructor
  case push_next | read_next | read_value =>
    split at h <;> cases h <;> constructor <;> assumption
  case push_cas | pop_cas | verify | pop_load =>
    split at h <;> cases h <;> constructor <;> assumption
  case acquire i =>
    split at h
    · next hi =>
      split at h <;> cases h
      · next hu => exact .acquire_fail hi hu
      · next hu => exact .acquire_ok hi (by simpa using hu)
    · next hi => cases h; exact .acquire_none hi
  case drop_release i p =>
    rcases p with _ | ⟨h', v⟩ <;> cases h <;> constructor
  case retire_lock | reclaim_lock =>
    split at h
    · next hl => cases h; constructor; exact hl
    · cases h
  case retire_push a v =>
    cases h
    by_cases hf : (m.retired ++ [a]).length ≥ RETIRE_THRESHOLD
    · rw [if_pos hf]; exact .retire_full hf
    · rw [if_neg hf]; exact .retire_push hf
  case scan i out r =>
    split at h
    · next hi =>
      split at h <;> cases h
      · next hu => exact .scan_used hi hu
      · next hu => exact .scan_unused hi (by simpa using hu)
    · next hi => cases h; exact .scan_done hi
  case retain out k r =>
    split at h
    · next p hp =>
      split at h <;> cases h
      · next ho => exact .retain_keep hp ho
      · next ho => exact .retain_free hp ho
    · next hp => cases h; exact .retain_done hp

namespace Stack

/-- The actions: a call, an allocation, a step of a thread, or a store reaching memory. -/
inductive ActMove (mm : MemModel) (s : Stack) : Act → Stack → Prop where
  | push {t : Nat} {v : UInt32} (hp : s.pc t = .idle) :
      ActMove mm s (.push t v) (s.setPc t (.push_alloc v))
  | pop {t : Nat} (hp : s.pc t = .idle) : ActMove mm s (.pop t) (s.setPc t (.acquire 0))
  | force_reclaim {t : Nat} (hp : s.pc t = .idle) :
      ActMove mm s (.force_reclaim t) (s.setPc t .reclaim_lock)
  | alloc {t : Nat} {v : UInt32} {a : Addr} (hp : s.pc t = .push_alloc v) (ha : a ≠ null)
      (hh : s.mem.heap a = none) :
      ActMove mm s (.alloc t a)
        ⟨{ s.mem with heap := Function.update s.mem.heap a (some ⟨v, null⟩) },
          Function.update s.pc t (.push_load v a)⟩
  | step {t : Nat} {m : Mem} {p : Pc} (hm : Move mm t s.mem (s.pc t) m p) :
      ActMove mm s (.step t) ⟨m, Function.update s.pc t p⟩
  | flush {t : Nat} {st : Store} {rest : List Store} (hb : s.mem.buf t = st :: rest) :
      ActMove mm s (.flush t)
        { s with
          mem := { s.mem with
            slots := st.apply s.mem.slots, buf := Function.update s.mem.buf t rest } }

theorem act_cases {mm : MemModel} {s s' : Stack} {a : Act} (h : s.step mm a = some s') :
    ActMove mm s a s' := by
  cases a <;> simp only [step] at h
  case push | pop | force_reclaim =>
    split at h <;> cases h
    constructor
    assumption
  case alloc t a =>
    split at h
    · next v hp =>
      split at h <;> cases h
      next hg => exact .alloc hp hg.1 hg.2
    · cases h
  case step t =>
    obtain ⟨⟨m, p⟩, hm, rfl⟩ := Option.map_eq_some_iff.mp h
    exact .step (move_cases hm)
  case flush t =>
    obtain ⟨m, hm, rfl⟩ := Option.map_eq_some_iff.mp h
    unfold Mem.flush at hm
    split at hm <;> cases hm
    next hb => exact .flush hb

def Act.thread : Act → Nat
  | .push t _ | .pop t | .force_reclaim t | .alloc t _ | .step t | .flush t => t

variable {mm : MemModel} {s s' : Stack} {a : Act} {t : Nat}

theorem step_others (hst : s.step mm a = some s') (ht : t ≠ a.thread) : s'.pc t = s.pc t := by
  cases act_cases hst
  case flush => rfl
  all_goals exact Function.update_of_ne ht ..

theorem idle_of_run {env : History Stack Act → Stack → Act → Prop} {tr : History Stack Act}
    (h : Run (Stack.step mm) env .new tr s) (ht : ∀ x ∈ tr, t ≠ x.2.thread) : s.pc t = .idle := by
  induction h with
  | nil => rfl
  | snoc _ _ hst ih =>
    rw [step_others hst (ht _ (List.mem_append_right _ (List.mem_singleton_self _)))]
    exact ih fun x hx => ht x (List.mem_append_left _ hx)

end Stack

end Samsara.SafeTreiber
