import Samsara.SafeTreiber.Solo

/-!
# Dropping the stack

`Life` is a stack from `new` to the end of its `Drop`. While it is `live` any threads call it;
`Drop` has it to itself (`exclusive`, the `&mut self`): it calls `pop` until it returns `None`
and then frees what is left in the `retired` queue. `Stage` is what each part of `Drop` may
rely on. Nodes are freed by `reclaim_locked` and by `Drop` only (`freeing`); `allocs` and
`frees` count what a run has done at an address.
-/

namespace Samsara.SafeTreiber

open StepSys

/-- Where `Drop` is; `t` is the thread that drops the stack. -/
inductive Dropping where
  | live
  /-- `while self.pop().is_some() {}` -/
  | pops (t : Nat)
  /-- the `retired` mutex is next -/
  | lock (t : Nat)
  /-- `for ptr in retired.drain(..)` -/
  | drain (t : Nat)
  | dropped
  deriving DecidableEq

structure Life where
  stack : Stack
  dropping : Dropping

namespace Life

def new : Life := ⟨.new, .live⟩

inductive Act where
  /-- an action of the threads that share the stack -/
  | call (a : Stack.Act)
  /-- thread `t` drops the stack -/
  | drop (t : Nat)
  /-- a step of `Drop` -/
  | step
  deriving DecidableEq

/-- A step of the loop: a `pop` that returns `None` ends it. -/
def popStep (t : Nat) (s : Stack) : Option Life :=
  match s.pc t with
  | .idle => (s.step .sc (.pop t)).map fun s' => ⟨s', .pops t⟩
  | .ret (.popped none) => (s.step .sc (.step t)).map fun s' => ⟨s', .lock t⟩
  | _ => (s.step .sc (.step t)).map fun s' => ⟨s', .pops t⟩

/-- The next entry of the queue is freed; the guard is dropped after the last one. -/
def drainStep (t : Nat) (s : Stack) : Life :=
  match s.mem.retired with
  | p :: rest =>
    ⟨{ s with mem := { s.mem with heap := Function.update s.mem.heap p none, retired := rest } },
      .drain t⟩
  | [] => ⟨{ s with mem := { s.mem with lock := none } }, .dropped⟩

def step (s : Life) : Act → Option Life
  | .call a =>
    if s.dropping = .live then (s.stack.step .sc a).map fun s' => ⟨s', .live⟩ else none
  | .drop t => if s.dropping = .live then some ⟨s.stack, .pops t⟩ else none
  | .step =>
    match s.dropping with
    | .pops t => popStep t s.stack
    | .lock t =>
      if s.stack.mem.lock = none then
        some ⟨{ s.stack with mem := { s.stack.mem with lock := some t } }, .drain t⟩
      else none
    | .drain t => some (drainStep t s.stack)
    | .live | .dropped => none

/-- The stack is dropped after all calls have returned. -/
def exclusive (_ : History Life Act) (s : Life) (a : Act) : Prop :=
  ∀ t, a = .drop t → ∀ u, s.stack.pc u = .idle

end Life

def Pc.freeing (m : Mem) : Pc → Option Addr
  | retain out k _ => m.retired[k]?.filter fun p => p ∉ out
  | _ => none

/-- One while a node is allocated at `a`. -/
def Mem.present (m : Mem) (a : Addr) : Nat := if m.heap a = none then 0 else 1

variable {mm : MemModel} {m m' : Mem} {own : Addr → Place} {l : List Addr} {t : Nat} {b c : Addr}

theorem Mem.present_congr (h : m'.heap b = none ↔ m.heap b = none) :
    m'.present b = m.present b := by
  simp only [Mem.present, h]

theorem Mem.present_free (hc : m.heap c ≠ none) (h : m'.heap = Function.update m.heap c none) :
    m'.present b + (if some c = some b then 1 else 0) = m.present b := by
  unfold Mem.present
  rw [h]
  rcases eq_or_ne b c with rfl | e
  · simp [hc]
  · simp [Function.update_of_ne e, Ne.symm e]

theorem Mem.present_alloc {n : Node} (hc : m.heap c = none)
    (h : m'.heap = Function.update m.heap c (some n)) :
    m'.present b = m.present b + (if some c = some b then 1 else 0) := by
  unfold Mem.present
  rw [h]
  rcases eq_or_ne b c with rfl | e
  · simp [hc]
  · simp [Function.update_of_ne e, Ne.symm e]

theorem Pc.retired_of_freeing {q : Pc} (hf : q.freeing m = some c) : c ∈ m.retired := by
  cases q <;> simp only [Pc.freeing, reduceCtorEq] at hf
  exact List.mem_of_getElem? (Option.filter_eq_some_iff.1 hf).1

theorem Move.present {q p : Pc} (ho : Owned own l m) (hm : Move mm t m q m' p) :
    m'.present b + (if q.freeing m = some b then 1 else 0) = m.present b := by
  cases hm
  case push_next v a h n hn =>
    refine Mem.present_congr ?_
    rcases eq_or_ne b a with rfl | e
    · simp [hn]
    · simp [Function.update_of_ne e]
  case retain_free out k r a hk hout =>
    have halloc : m.heap a ≠ none := by
      rw [ne_eq, ← ho.free, ho.retired_of_getElem? hk]
      nofun
    have hfree : (Pc.retain out k r).freeing m = some a := by simp [Pc.freeing, hk, hout]
    rw [hfree]
    exact Mem.present_free halloc rfl
  case retain_keep out k r a hk hout =>
    have hkeep : (Pc.retain out k r).freeing m = none := by
      simp only [Pc.freeing, hk, Option.filter_some, hout, not_true_eq_false, decide_false,
        Bool.false_eq_true, if_false]
    rw [hkeep]
    rfl
  case retain_done out k r hk => simp [Pc.freeing, hk]
  all_goals exact Mem.present_congr (by simp)

namespace Life

def allocating : Act → Option Addr
  | .call (.alloc _ a) => some a
  | _ => none

def freeing (s : Life) : Act → Option Addr
  | .call (.step t) => (s.stack.pc t).freeing s.stack.mem
  | .step =>
    match s.dropping with
    | .pops t => (s.stack.pc t).freeing s.stack.mem
    | .drain _ => s.stack.mem.retired.head?
    | _ => none
  | _ => none

def allocs (tr : History Life Act) (a : Addr) : Nat := tr.countP fun x => allocating x.2 = some a

def frees (tr : History Life Act) (a : Addr) : Nat := tr.countP fun x => x.1.freeing x.2 = some a

/-! ## What a step can do -/

inductive Move (s : Life) : Act → Life → Prop where
  | call {a : Stack.Act} {s' : Stack} (hd : s.dropping = .live)
      (hs : s.stack.step .sc a = some s') : Move s (.call a) ⟨s', .live⟩
  | drop {t : Nat} (hd : s.dropping = .live) : Move s (.drop t) ⟨s.stack, .pops t⟩
  | pop {t : Nat} (hd : s.dropping = .pops t) (hp : s.stack.pc t = .idle) :
      Move s .step ⟨s.stack.setPc t (.acquire 0), .pops t⟩
  | pops {t : Nat} {s' : Stack} (hd : s.dropping = .pops t)
      (hp : s.stack.pc t ≠ .ret (.popped none)) (hs : s.stack.step .sc (.step t) = some s') :
      Move s .step ⟨s', .pops t⟩
  | ends {t : Nat} (hd : s.dropping = .pops t) (hp : s.stack.pc t = .ret (.popped none)) :
      Move s .step ⟨s.stack.setPc t .idle, .lock t⟩
  | lock {t : Nat} (hd : s.dropping = .lock t) (hl : s.stack.mem.lock = none) :
      Move s .step ⟨{ s.stack with mem := { s.stack.mem with lock := some t } }, .drain t⟩
  | free {t : Nat} {p : Addr} {rest : List Addr} (hd : s.dropping = .drain t)
      (hr : s.stack.mem.retired = p :: rest) :
      Move s .step
        ⟨{ s.stack with
          mem := { s.stack.mem with
            heap := Function.update s.stack.mem.heap p none, retired := rest } }, .drain t⟩
  | unlock {t : Nat} (hd : s.dropping = .drain t) (hr : s.stack.mem.retired = []) :
      Move s .step ⟨{ s.stack with mem := { s.stack.mem with lock := none } }, .dropped⟩

theorem popStep_cases {s s' : Life} {t : Nat} (hd : s.dropping = .pops t)
    (h : popStep t s.stack = some s') : Move s .step s' := by
  unfold popStep at h
  split at h
  · next hp =>
    obtain ⟨s₁, hs, rfl⟩ := Option.map_eq_some_iff.1 h
    simp only [Stack.step, if_pos hp, Option.some.injEq] at hs
    subst hs
    exact .pop hd hp
  · next hp =>
    obtain ⟨s₁, hs, rfl⟩ := Option.map_eq_some_iff.1 h
    simp only [Stack.step, hp, threadStep, Option.map_some, Option.some.injEq] at hs
    subst hs
    exact .ends hd hp
  · next hp =>
    obtain ⟨s₁, hs, rfl⟩ := Option.map_eq_some_iff.1 h
    exact .pops hd hp hs

theorem step_cases {s s' : Life} {a : Act} (h : s.step a = some s') : Move s a s' := by
  cases a <;> simp only [step] at h
  case call a =>
    split at h
    · next hd =>
      obtain ⟨s₁, hs, rfl⟩ := Option.map_eq_some_iff.1 h
      exact .call hd hs
    · cases h
  case drop t =>
    split at h
    · next hd =>
      cases h
      exact .drop hd
    · cases h
  case step =>
    split at h
    · next t hd => exact popStep_cases hd h
    · next t hd =>
      split at h
      · next hl =>
        cases h
        exact .lock hd hl
      · cases h
    · next t hd =>
      cases h
      unfold drainStep
      split
      · next p rest hr => exact .free hd hr
      · next hr => exact .unlock hd hr
    · cases h
    · cases h

/-! ## The stages of `Drop` -/

/-- The threads that share the stack have brought it here. -/
def Reachable (s : Stack) : Prop := ∃ tr, Run (Stack.step .sc) anyEnv .new tr s

/-- Nobody is inside, and the list is empty. -/
structure Emptied (s : Stack) : Prop where
  idle : ∀ u, s.pc u = .idle
  nodes : ∃ own, Nodes own [] s.mem s.pc

/-- What holds of the stack in each part of `Drop`. -/
def Stage (s : Stack) : Dropping → Prop
  | .live => Reachable s
  | .pops t => Reachable s ∧ (∀ u, u ≠ t → s.pc u = .idle) ∧ Solo s.mem (s.pc t)
  | .lock _ => Emptied s ∧ s.mem.lock = none
  | .drain _ => Emptied s
  | .dropped => Emptied s ∧ s.mem.retired = []

variable {s s' : Life} {a : Act} {tr : History Life Act} {t : Nat} {own : Addr → Place}
  {l : List Addr} {b : Addr}

theorem Reachable.safe {s : Stack} (h : Reachable s) : ∃ own l, Safe own l s.mem s.pc := by
  obtain ⟨tr, hr⟩ := h
  exact Stack.safe (fun _ _ a hr _ => Stack.publishesFirst_sc hr a) hr

theorem Reachable.step {s s' : Stack} {a : Stack.Act} (h : Reachable s)
    (hs : s.step .sc a = some s') : Reachable s' := by
  obtain ⟨tr, hr⟩ := h
  exact ⟨_, hr.snoc trivial hs⟩

theorem Reachable.slot_free {s : Stack} (h : Reachable s) (ho : ∀ u, u ≠ t → s.pc u = .idle)
    (i : Nat) (hp : s.pc t = .acquire i) : ((s.mem.drain t).slots i).in_use = false := by
  obtain ⟨tr, hr⟩ := h
  rw [Mem.drain_of_nil (Stack.buf_sc hr t), (Stack.tabled_of_run hr).free (fun u => ?_) i]
  simp only [Function.comp_apply]
  rcases eq_or_ne u t with rfl | e
  · rw [hp]
    rfl
  · rw [ho u e]
    rfl

theorem Emptied.congr {s : Stack} {m : Mem} (h : Emptied s) (hh : m.heap = s.mem.heap)
    (hd : m.head = s.mem.head) (hr : m.retired = s.mem.retired) : Emptied { s with mem := m } := by
  obtain ⟨own, hn⟩ := h.nodes
  exact ⟨h.idle, own, hn.congr hh hd hr⟩

theorem Reachable.emptied {s : Stack} (h : Reachable s) (hp : s.pc t = .ret (.popped none))
    (ho : ∀ u, u ≠ t → s.pc u = .idle) (hs : Solo s.mem (s.pc t)) :
    Emptied (s.setPc t .idle) ∧ s.mem.lock = none := by
  have hret : Reachable (s.setPc t .idle) :=
    h.step (a := .step t) (by simp [Stack.step, hp, threadStep, Stack.setPc])
  obtain ⟨own, l, hsafe⟩ := hret.safe
  have hidle : ∀ u, (s.setPc t .idle).pc u = .idle :=
    (Function.forall_update_iff s.pc (p := fun _ q => q = .idle)).2 ⟨rfl, ho⟩
  have hhead : s.mem.head = null := hs.empty (by rw [hp]; rfl)
  obtain rfl := hsafe.owned.links.eq_nil hhead
  refine ⟨⟨hidle, own, hsafe.toNodes⟩, hsafe.settled.lock_none fun u => ?_⟩
  rw [hidle u]
  rfl

theorem Emptied.free {s : Stack} {p : Addr} {rest : List Addr} (h : Emptied s)
    (hr : s.mem.retired = p :: rest) :
    Emptied { s with
      mem := { s.mem with heap := Function.update s.mem.heap p none, retired := rest } } := by
  obtain ⟨own, hn⟩ := h.nodes
  have hfree := hn.retain (k := 0) (a := p) (by rw [hr]; rfl) fun u i hu => by
    rw [h.idle u] at hu
    cases hu
  rw [hr] at hfree
  exact ⟨h.idle, _, hfree⟩

theorem Reachable.alone {s s' : Stack} (h : Reachable s) (ho : ∀ u, u ≠ t → s.pc u = .idle)
    (hsolo : Solo s.mem (s.pc t)) (hs : s.step .sc (.step t) = some s') :
    Stage s' (.pops t) := by
  obtain ⟨own, l, hsafe⟩ := h.safe
  have hr := h.step hs
  cases Stack.act_cases hs
  next m p hm =>
  refine ⟨hr, fun u hu => ?_, ?_⟩
  · exact (Function.update_of_ne hu ..).trans (ho u hu)
  · simp only [Function.update_self]
    exact hsolo.move (h.slot_free ho) (hsafe.ne_fault hm) hm

theorem stage_step (h : Stage s.stack s.dropping) (he : exclusive tr s a) (hm : Move s a s') :
    Stage s'.stack s'.dropping := by
  cases hm with
  | call hd hs =>
    rw [hd] at h
    exact Reachable.step h hs
  | @drop t hd =>
    rw [hd] at h
    have hidle := he t rfl
    exact ⟨h, fun u _ => hidle u, (hidle t).symm ▸ .idle⟩
  | @pop t hd hp =>
    rw [hd] at h
    obtain ⟨hr, ho, -⟩ := h
    refine ⟨hr.step (a := .pop t) (by simp [Stack.step, hp]), fun u hu => ?_, ?_⟩
    · exact (Function.update_of_ne hu ..).trans (ho u hu)
    · simp only [Stack.setPc, Function.update_self]
      exact .call
  | @pops t s₁ hd hp hs =>
    rw [hd] at h
    exact h.1.alone h.2.1 h.2.2 hs
  | ends hd hp =>
    rw [hd] at h
    exact h.1.emptied hp h.2.1 h.2.2
  | lock hd hl =>
    rw [hd] at h
    exact h.1.congr rfl rfl rfl
  | free hd hr =>
    rw [hd] at h
    exact Emptied.free h hr
  | unlock hd hr =>
    rw [hd] at h
    exact ⟨Emptied.congr h rfl rfl rfl, hr⟩

theorem stage_of_run (h : Run Life.step exclusive .new tr s) : Stage s.stack s.dropping := by
  have hnew : Stage Stack.new .live := ⟨[], .nil⟩
  refine h.hist (P := fun _ s => Stage s.stack s.dropping) hnew ?_
  intro tr s a s' _ ih he hst
  exact stage_step ih he (step_cases hst)

theorem Stage.nodes (h : Stage s.stack s.dropping) :
    ∃ own l, Nodes own l s.stack.mem s.stack.pc := by
  have hsafe (hr : Reachable s.stack) : ∃ own l, Nodes own l s.stack.mem s.stack.pc := by
    obtain ⟨own, l, hs⟩ := hr.safe
    exact ⟨own, l, hs.toNodes⟩
  have hempty (he : Emptied s.stack) : ∃ own l, Nodes own l s.stack.mem s.stack.pc := by
    obtain ⟨own, hn⟩ := he.nodes
    exact ⟨own, [], hn⟩
  cases hd : s.dropping <;> rw [hd] at h
  case live => exact hsafe h
  case pops t => exact hsafe h.1
  case drain t => exact hempty h
  case lock | dropped => exact hempty h.1

/-! ## Counting -/

/-- **What an action allocates and frees.** -/
theorem Move.present (hn : Nodes own l s.stack.mem s.stack.pc) (hm : Move s a s') :
    s'.stack.mem.present b + (if s.freeing a = some b then 1 else 0) =
      s.stack.mem.present b + (if allocating a = some b then 1 else 0) := by
  cases hm with
  | @call a s₁ hd hs =>
    cases Stack.act_cases hs
    case alloc t v c hp hnull hc =>
      simp only [freeing, allocating, reduceCtorEq, if_false, Nat.add_zero]
      exact Mem.present_alloc hc rfl
    case step t m p hm => exact hm.present hn.owned
    all_goals rfl
  | drop => rfl
  | pop hd hp | ends hd hp =>
    simp only [freeing, hd, hp]
    rfl
  | lock hd | unlock hd hr =>
    simp only [freeing, allocating, *]
    rfl
  | pops hd hp hs =>
    simp only [freeing, hd, allocating]
    cases Stack.act_cases hs
    next m p hm => exact hm.present hn.owned
  | @free t p rest hd hr =>
    have halloc : s.stack.mem.heap p ≠ none := by
      rw [ne_eq, ← hn.owned.free, (hn.owned.retired p).2 (by rw [hr]; exact List.mem_cons_self)]
      nofun
    simp only [freeing, hd, hr, List.head?_cons, allocating, reduceCtorEq, if_false, Nat.add_zero]
    exact Mem.present_free halloc rfl

theorem allocs_eq (h : Run Life.step exclusive .new tr s) :
    allocs tr b = frees tr b + s.stack.mem.present b := by
  refine h.hist (P := fun tr s => allocs tr b = frees tr b + s.stack.mem.present b) rfl ?_
  intro tr s a s' hr ih he hst
  obtain ⟨own, l, hn⟩ := (stage_of_run hr).nodes
  have hstep := (step_cases hst).present (b := b) hn
  have halloc : allocs (tr ++ [(s, a)]) b =
      allocs tr b + if allocating a = some b then 1 else 0 := by
    simp [allocs, List.countP_append, List.countP_singleton]
  have hfree : frees (tr ++ [(s, a)]) b = frees tr b + if s.freeing a = some b then 1 else 0 := by
    simp [frees, List.countP_append, List.countP_singleton]
  omega

/-- The place of every node, for the list `l` linked from `head`. -/
structure Custody (own : Addr → Place) (l : List Addr) (s : Life) : Prop where
  links : Linked s.stack.mem.next null s.stack.mem.head l
  nodup : l.Nodup
  queue : s.stack.mem.retired.Nodup
  free : ∀ a, own a = .free ↔ s.stack.mem.heap a = none
  pusher : ∀ t a, own a = .pusher t ↔ ∃ v, (s.stack.pc t).pushing = some (v, a)
  linked : ∀ a, own a = .linked ↔ a ∈ l
  popper : ∀ t a, own a = .popper t ↔ (s.stack.pc t).popped = some a
  retired : ∀ a, own a = .retired ↔ a ∈ s.stack.mem.retired
  /-- only nodes of the queue are freed -/
  freed : ∀ act a, s.freeing act = some a → own a = .retired

theorem Stage.custody (h : Stage s.stack s.dropping) : ∃ own l, Custody own l s := by
  obtain ⟨own, l, hn⟩ := Stage.nodes h
  refine ⟨own, l, hn.owned.links, hn.owned.nodup, hn.owned.retired_nodup, hn.owned.free,
    fun t => (hn.mine t).pusher, hn.owned.linked, fun t => (hn.mine t).popper, hn.owned.retired,
    fun act a hf => (hn.owned.retired a).2 ?_⟩
  cases act with
  | call act =>
    cases act with
    | step t => exact Pc.retired_of_freeing hf
    | _ => cases hf
  | drop => cases hf
  | step =>
    simp only [freeing] at hf
    split at hf
    · exact Pc.retired_of_freeing hf
    · exact List.mem_of_head? hf
    · cases hf

theorem Emptied.heap {s : Stack} (h : Emptied s) (hr : s.mem.retired = []) (a : Addr) :
    s.mem.heap a = none := by
  obtain ⟨own, hn⟩ := h.nodes
  rw [← hn.owned.free]
  cases hp : own a with
  | free => rfl
  | pusher t =>
    obtain ⟨v, hv⟩ := ((hn.mine t).pusher a).1 hp
    rw [h.idle t] at hv
    cases hv
  | linked => exact absurd ((hn.owned.linked a).1 hp) List.not_mem_nil
  | popper t =>
    have hv := ((hn.mine t).popper a).1 hp
    rw [h.idle t] at hv
    cases hv
  | retired =>
    have hq := (hn.owned.retired a).1 hp
    rw [hr] at hq
    cases hq

/-! ## `Drop` comes to its end -/

/-- The nodes still linked, then the steps to the next one; what is left in the queue. -/
def rank (s : Life) (l : List Addr) : ℕ ×ₗ ℕ :=
  match s.dropping with
  | .pops t => toLex (l.length + 1, (s.stack.pc t).rest s.stack.mem.retired.length)
  | .lock _ => toLex (0, s.stack.mem.retired.length + 2)
  | .drain _ => toLex (0, s.stack.mem.retired.length + 1)
  | .live | .dropped => toLex (0, 0)

/-- `Drop` is under way; while it pops, `l` is the list linked from `head`. -/
structure Underway (s : Life) (l : List Addr) : Prop where
  started : s.dropping ≠ .live
  safe : ∀ t, s.dropping = .pops t → ∃ own, Safe own l s.stack.mem s.stack.pc

theorem Underway.of_act {s₁ : Stack} {act : Stack.Act} {own : Addr → Place} (h : Reachable s.stack)
    (hsafe : Safe own l s.stack.mem s.stack.pc) (hs : s.stack.step .sc act = some s₁) :
    Underway ⟨s₁, .pops t⟩ (s.stack.relinked l act) := by
  refine ⟨by simp, fun _ _ => ?_⟩
  obtain ⟨tr, hr⟩ := h
  exact hsafe.act hs (Stack.publishesFirst_sc hr act)

theorem Underway.pops (h : Underway s l) (hd : s.dropping = .pops t)
    (hstage : Stage s.stack (.pops t)) :
    ∃ s' l', popStep t s.stack = some s' ∧ Underway s' l' ∧ rank s' l' < rank s l := by
  obtain ⟨own, hsafe⟩ := h.safe t hd
  obtain ⟨hreach, ho, hsolo⟩ := hstage
  by_cases hidle : s.stack.pc t = .idle
  · have hs : s.stack.step .sc (.pop t) = some (s.stack.setPc t (.acquire 0)) := by
      simp [Stack.step, hidle]
    refine ⟨⟨_, .pops t⟩, l, by simp only [popStep, hidle, hs, Option.map_some],
      .of_act hreach hsafe hs, ?_⟩
    simp only [rank, hd, Stack.setPc, Function.update_self, hidle]
    exact toLex_lt_of (.inr ⟨rfl, by simp only [Pc.rest]; omega⟩)
  by_cases hnone : s.stack.pc t = .ret (.popped none)
  · have hs : s.stack.step .sc (.step t) = some (s.stack.setPc t .idle) := by
      simp [Stack.step, hnone, threadStep, Stack.setPc]
    refine ⟨⟨s.stack.setPc t .idle, .lock t⟩, [], by
      simp only [popStep, hnone, hs, Option.map_some],
      ⟨by simp, by simp⟩, ?_⟩
    simp only [rank, hd]
    exact toLex_lt_of (.inl (Nat.succ_pos _))
  have hlock : (s.stack.pc t).critical = false → s.stack.mem.lock = none := by
    refine fun hc => hsafe.settled.lock_none fun u => ?_
    rcases eq_or_ne u t with rfl | e
    · exact hc
    · rw [ho u e]
      rfl
  obtain ⟨m, p, hm⟩ := hsolo.enabled (t := t) hidle hlock
  have hs : s.stack.step .sc (.step t) = some ⟨m, Function.update s.stack.pc t p⟩ := by
    simp [Stack.step, hm]
  have hmove := move_cases hm
  refine ⟨⟨_, .pops t⟩, _, ?_, .of_act hreach hsafe hs, ?_⟩
  · unfold popStep
    split
    · next e => exact absurd e hidle
    · next e => exact absurd e hnone
    · rw [hs, Option.map_some]
  · obtain ⟨tr, hr⟩ := hreach
    have hne : ∀ a, (s.stack.pc t).aimed = some a → l ≠ [] := by
      rintro a ha rfl
      have hnull : s.stack.mem.head ≠ null := hsolo.aimed a ha ▸ hsafe.published.aimed t a ha
      obtain ⟨b, l', e, -⟩ := hsafe.owned.links.uncons hnull
      cases e
    simp only [rank, hd, Stack.relinked, Function.update_self]
    refine toLex_lt_of ((hsolo.lower (Reachable.slot_free ⟨tr, hr⟩ ho)
      ((Stack.bounded_of_run hr).locked t) (hsafe.ne_fault hmove) hnone hne hmove).imp
      Nat.succ_lt_succ fun e => ⟨by rw [e.1], e.2⟩)

/-- **`Drop` always has a next step**, and with each it comes closer to its end. -/
theorem Underway.step (h : Underway s l) (hr : Run Life.step exclusive .new tr s)
    (hg : s.dropping ≠ .dropped) :
    ∃ s' l', s.step .step = some s' ∧ Underway s' l' ∧ rank s' l' < rank s l := by
  have hstage := stage_of_run hr
  simp only [Life.step]
  cases hd : s.dropping <;> rw [hd] at hstage
  case live => exact absurd hd h.started
  case dropped => exact absurd hd hg
  case pops t => exact h.pops hd hstage
  case lock t =>
    refine ⟨_, [], if_pos hstage.2, ⟨by simp, by simp⟩, ?_⟩
    simp only [rank, hd]
    exact toLex_lt_of (.inr ⟨rfl, by omega⟩)
  case drain t =>
    refine ⟨_, [], rfl, ?_⟩
    unfold drainStep
    split
    · next p rest hq =>
      refine ⟨⟨by simp, by simp⟩, ?_⟩
      simp only [rank, hd, hq, List.length_cons]
      exact toLex_lt_of (.inr ⟨rfl, by omega⟩)
    · next hq =>
      refine ⟨⟨by simp, by simp⟩, ?_⟩
      simp only [rank, hd, hq]
      exact toLex_lt_of (.inr ⟨rfl, by omega⟩)

theorem drop_ends (h : Run Life.step exclusive .new tr s) (hs : s.dropping ≠ .live) :
    ∃ tr' s', Run Life.step exclusive .new (tr ++ tr') s' ∧ (∀ x ∈ tr', x.2 = .step) ∧
      s'.dropping = .dropped := by
  have hstart : ∃ l, Underway s l := by
    cases hd : s.dropping with
    | pops t =>
      have hstage := stage_of_run h
      rw [hd] at hstage
      obtain ⟨own, l, hsafe⟩ := hstage.1.safe
      exact ⟨l, hs, fun _ _ => ⟨own, hsafe⟩⟩
    | _ => exact ⟨[], hs, by simp [hd]⟩
  obtain ⟨l, hl⟩ := hstart
  obtain ⟨tr', s', -, hr', hall, -, hg⟩ := h.reaches (fun a => a = .step)
    (fun s => s.dropping = .dropped) Underway rank (fun tr s w hr hw hg => by
      obtain ⟨s', w', hst, hw', hlt⟩ := hw.step hr hg
      exact ⟨.step, s', w', rfl, nofun, hst, hw', hlt⟩) hl
  exact ⟨tr', s', hr', hall, hg⟩

end Life

/-- **Every node is freed exactly once.** At every moment each address is in one place, the
queue has no duplicates and only its nodes are freed; what was allocated was freed or is
allocated still, and `Drop`, which always comes to its end, leaves nothing allocated. -/
theorem freed_exactly_once {tr : History Life Life.Act} {s : Life}
    (h : Run Life.step Life.exclusive .new tr s) :
    (∃ own l, Life.Custody own l s) ∧
      (∀ a, Life.allocs tr a = Life.frees tr a + s.stack.mem.present a) ∧
      (s.dropping = .dropped → ∀ a, s.stack.mem.heap a = none) ∧
      (s.dropping ≠ .live → ∃ tr' s', Run Life.step Life.exclusive .new (tr ++ tr') s' ∧
        (∀ x ∈ tr', x.2 = .step) ∧ s'.dropping = .dropped) := by
  have hstage := Life.stage_of_run h
  refine ⟨Life.Stage.custody hstage, fun a => Life.allocs_eq h, fun hd => ?_, Life.drop_ends h⟩
  rw [hd] at hstage
  exact hstage.1.heap hstage.2

def Life.called (tr : History Stack Stack.Act) : History Life Life.Act :=
  tr.map fun x => (⟨x.1, .live⟩, .call x.2)

theorem Life.of_stack {tr : History Stack Stack.Act} {s : Stack}
    (h : Run (Stack.step .sc) anyEnv .new tr s) :
    Run Life.step Life.exclusive .new (Life.called tr) ⟨s, .live⟩ := by
  induction h with
  | nil => exact .nil
  | @snoc tr s s' a _ _ hst ih =>
    rw [Life.called, List.map_append, List.map_singleton, ← Life.called]
    refine ih.snoc (fun t e => nomatch e) ?_
    rw [Life.step, if_pos rfl, hst]
    rfl

/-- After the overlapping calls thread 0 drops the stack: `Drop` frees the node on the list and
the one in the queue, whose address had been freed before. -/
theorem freed_exactly_once_overlapping :
    ∃ tr s, Run Life.step Life.exclusive .new tr s ∧ s.dropping = .dropped ∧
      Life.frees tr 1 = 2 ∧ Life.frees tr 2 = 1 ∧ ∀ a, s.stack.mem.heap a = none := by
  have hexec : (exec (Stack.step .sc) [] Stack.new overlappingCalls).map (fun r =>
      (r.1.map Prod.snd, r.2.pc 0, r.2.pc 1, r.2.pc 2)) =
        some (overlappingCalls, .idle, .idle, .idle) := by
    decide +kernel
  obtain ⟨⟨tr, s⟩, hr, hend⟩ := Option.map_eq_some_iff.1 hexec
  simp only [Prod.mk.injEq] at hend
  obtain ⟨hacts, h0, h1, h2⟩ := hend
  have hrun : Run (Stack.step .sc) anyEnv .new tr s := Run.nil.exec (fun _ _ _ _ => trivial) hr
  have hidle (u : Nat) : s.pc u = .idle := by
    by_cases hu : u < 3
    · rcases (show u = 0 ∨ u = 1 ∨ u = 2 by omega) with rfl | rfl | rfl <;> assumption
    · refine Stack.idle_of_run hrun fun x hx e => hu ?_
      have hall : ∀ a ∈ overlappingCalls, a.thread < 3 := by decide +kernel
      exact e ▸ hall x.2 (hacts ▸ List.mem_map_of_mem hx)
  have hdrop := (Life.of_stack hrun).snoc (a := .drop 0) (fun _ _ u => hidle u) rfl
  obtain ⟨-, -, -, hends⟩ := freed_exactly_once hdrop
  obtain ⟨tr', s', hrun', hsteps, hdropped⟩ := hends (by simp)
  obtain ⟨-, hcount, hnone, -⟩ := freed_exactly_once hrun'
  have hheap := hnone hdropped
  -- `Drop` allocates nothing, so what is freed in the end is what the calls allocated
  have hallocs (a : Addr) : tr'.countP (fun x => Life.allocating x.2 = some a) = 0 :=
    List.countP_eq_zero.mpr fun x hx => by simp [hsteps x hx, Life.allocating]
  have hfrees (a : Addr) :
      Life.frees (Life.called tr ++ [(⟨s, .live⟩, .drop 0)] ++ tr') a =
        overlappingCalls.countP fun x => Life.allocating (.call x) = some a := by
    have hc := hcount a
    simp only [Mem.present, hheap a, if_true, Nat.add_zero] at hc
    rw [← hc, ← hacts, Life.allocs, List.countP_append, List.countP_append, hallocs, Life.called,
      List.countP_map, List.countP_map]
    rfl
  exact ⟨_, _, hrun', hdropped, (hfrees 1).trans (by decide +kernel),
    (hfrees 2).trans (by decide +kernel), hheap⟩

end Samsara.SafeTreiber
