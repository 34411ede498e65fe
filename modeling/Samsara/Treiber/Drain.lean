import Samsara.Lib.Progress
import Samsara.Treiber.Linear

/-!
# Draining the plain stack

When no call is in progress, one thread that calls `pop` again and again meets no
interference (`Solo`): every attempt succeeds, the calls come to the one that returns `None`
(`drain_ends`), and what they have returned by then is the list that was linked, in its
order (`Drains`). Every node is freed once, by the `pop` that took it off.
-/

namespace Samsara.Treiber

open Linearize StepSys

/-! ## A `pop` that runs alone -/

/-- The program counter of the only thread inside. -/
structure Solo (m : Mem) (q : Pc) : Prop where
  popping : q.pushing = none ∧ (∀ v, q ≠ .push_alloc v) ∧ q ≠ .ret .pushed
  aimed : ∀ h, q.aimed = some h → m.head = h
  empty : q = .ret (.popped none) → m.head = null

/-- The value taken off the list by a `pop` that has not returned yet. -/
def Pc.pending (m : Mem) : Pc → List UInt32
  | take h => ((m.heap h).map Node.value).toList
  | free _ v => [v]
  | ret (.popped (some v)) => [v]
  | _ => []

/-- Steps left until a node is taken off or `None` is returned. -/
def Pc.rest : Pc → Nat
  | pop_cas _ _ => 1
  | read_next _ => 2
  | pop_load => 3
  | idle => 4
  | ret (.popped (some _)) => 5
  | free _ _ => 6
  | take _ => 7
  | _ => 0

def returned (x : Stack × Stack.Act) : Option UInt32 :=
  match Stack.event x with
  | .ret _ (.popped v) => v
  | _ => none

variable {own : Addr → Place} {l : List Addr} {m m' : Mem} {pc : Nat → Pc} {t : Nat} {p q : Pc}

theorem Solo.move (h : Solo m q) (hm : Move m q m' p) : Solo m' p := by
  have hp := h.popping
  cases hm
  case push_load | push_next | push_cas_ok | push_cas_fail => exact nomatch hp.1
  case pop_cas_fail a n hh => exact absurd (h.aimed a rfl) hh
  case pop_load_null hh => exact ⟨⟨rfl, nofun, nofun⟩, nofun, fun _ => hh⟩
  case pop_load hh =>
    exact ⟨⟨rfl, nofun, nofun⟩, fun a e => by cases e; rfl, nofun⟩
  case read_next a n hn =>
    exact ⟨⟨rfl, nofun, nofun⟩, fun b e => by cases e; exact h.aimed a rfl, nofun⟩
  all_goals exact ⟨⟨rfl, nofun, nofun⟩, nofun, nofun⟩

theorem Solo.lower (h : Solo m q) (hr : q ≠ .ret (.popped none)) (hl : q.aimed ≠ none → l ≠ [])
    (hm : Move m q m' p) :
    (q.relinked m l).length < l.length ∨ q.relinked m l = l ∧ p.rest < q.rest := by
  have hp := h.popping
  cases hm
  case push_load | push_next | push_cas_ok | push_cas_fail => exact nomatch hp.1
  case pop_cas_fail a n hh => exact absurd (h.aimed a rfl) hh
  case pop_cas_ok a n hh =>
    refine .inl ?_
    simp only [Pc.relinked, if_pos hh, List.length_tail]
    have hlen := List.length_pos_iff.2 (hl (by simp [Pc.aimed]))
    omega
  case ret r =>
    refine .inr ⟨rfl, ?_⟩
    cases r with
    | pushed => exact absurd rfl hp.2.2
    | popped v =>
      cases v with
      | none => exact absurd rfl hr
      | some v => simp only [Pc.rest]; omega
  all_goals exact .inr ⟨rfl, by simp only [Pc.rest]; omega⟩

theorem Solo.enabled (h : Solo m q) (hq : q ≠ .idle)
    (ha : ∀ a, q.aimed = some a ∨ q.popped = some a → m.heap a ≠ none) :
    ∃ m' p, threadStep m q = some (m', p) := by
  have hp := h.popping
  rw [← Prod.exists', ← Option.isSome_iff_exists]
  cases q
  case idle => exact absurd rfl hq
  case push_alloc v => exact absurd rfl (hp.2.1 v)
  case push_load | push_next | push_cas => exact nomatch hp.1
  case read_next a =>
    simpa [threadStep, Option.isSome_iff_ne_none] using ha a (.inl rfl)
  case take a =>
    simpa [threadStep, Option.isSome_iff_ne_none] using ha a (.inr rfl)
  all_goals
    simp only [threadStep]
    repeat' split
    all_goals rfl

namespace Stack

/-- Only thread `t` acts, and it calls `pop` only. -/
def popsOf (t : Nat) (_ : History Stack Act) (_ : Stack) (a : Act) : Prop :=
  a = .pop t ∨ a = .step t

def Quiet (s : Stack) : Prop := ∀ u, s.pc u = .idle

variable {s s' s₀ : Stack} {a : Act} {tr : History Stack Act}

/-- Only thread `t` is inside, and `l` is linked. -/
structure Alone (t : Nat) (s : Stack) (l : List Addr) : Prop where
  safe : ∃ own, Safe own l s.mem s.pc
  others : ∀ u, u ≠ t → s.pc u = .idle
  solo : Solo s.mem (s.pc t)

theorem Alone.start (hs : Safe own l s.mem s.pc) (hq : s.Quiet) : Alone t s l where
  safe := ⟨own, hs⟩
  others u _ := hq u
  solo := by
    rw [hq t]
    exact ⟨⟨rfl, nofun, nofun⟩, nofun, nofun⟩

theorem Alone.step (h : Alone t s l) (ha : popsOf t tr s a) (hst : s.step a = some s') :
    Alone t s' (s.relinked l a) := by
  obtain ⟨own, hs⟩ := h.safe
  have hothers {p : Pc} (u : Nat) (hu : u ≠ t) : Function.update s.pc t p u = .idle :=
    (Function.update_of_ne hu ..).trans (h.others u hu)
  rcases ha with rfl | rfl
  · have hsafe := safe_act hs hst
    cases act_cases hst
    refine ⟨hsafe, hothers, ?_⟩
    simp only [setPc, Function.update_self]
    exact ⟨⟨rfl, nofun, nofun⟩, nofun, nofun⟩
  · have hsafe := safe_act hs hst
    cases act_cases hst
    next m p hm =>
    refine ⟨hsafe, hothers, ?_⟩
    simp only [Function.update_self]
    exact h.solo.move hm

/-! ## What a drain returns -/

/-- The values returned, taken off and left: a step passes them on. -/
theorem sum_move (hs : Safe own l s.mem s.pc) (hsolo : Solo s.mem (s.pc t))
    (hm : Move s.mem (s.pc t) m p) :
    (returned (s, .step t)).toList ++ p.pending m ++ m.values ((s.pc t).relinked s.mem l) =
      (s.pc t).pending s.mem ++ s.mem.values l := by
  have hvals := (hs.final_heap hm).values hs.owned
  have hp := hsolo.popping
  generalize hpc : s.pc t = q at hm hp
  have silent (hr : returned (s, .step t) = none) (hl : q.relinked s.mem l = l)
      (hq : p.pending m = q.pending s.mem) :
      (returned (s, .step t)).toList ++ p.pending m ++ m.values (q.relinked s.mem l) =
        q.pending s.mem ++ s.mem.values l := by
    rw [hr, hl, hq, hvals]
    rfl
  cases hm
  case push_load | push_next | push_cas_ok | push_cas_fail => exact nomatch hp.1
  case pop_cas_fail a n hh =>
    have haim := hsolo.aimed a
    rw [hpc] at haim
    exact absurd (haim rfl) hh
  case pop_cas_ok a n hh =>
    subst hh
    obtain ⟨node, hn, hcons⟩ := hs.pop_value hpc
    rw [hcons, Pc.relinked, if_pos rfl, Pc.pending, hn]
    simp only [returned, event, hpc]
    rfl
  case take a node hn =>
    refine silent (by simp [returned, event, hpc]) rfl ?_
    simp [Pc.pending, hn]
  case ret r =>
    cases r with
    | pushed => exact absurd rfl hp.2.2
    | popped v =>
      simp only [returned, event, hpc, Pc.relinked]
      cases v <;> rfl
  all_goals exact silent (by simp [returned, event, hpc]) rfl rfl

theorem returned_concat (x : Stack × Act) :
    (tr ++ [x]).filterMap returned = tr.filterMap returned ++ (returned x).toList := by
  rw [List.filterMap_append]
  cases hx : returned x <;> simp [hx]

/-- Returned, taken off and left: together the values there were at the start. -/
def Drained (vs : List UInt32) (t : Nat) (tr : History Stack Act) (s : Stack) (l : List Addr) :
    Prop :=
  tr.filterMap returned ++ ((s.pc t).pending s.mem ++ s.mem.values l) = vs

theorem Drained.step {vs : List UInt32} (h : Drained vs t tr s l) (halone : Alone t s l)
    (ha : popsOf t tr s a) (hst : s.step a = some s') :
    Drained vs t (tr ++ [(s, a)]) s' (s.relinked l a) := by
  unfold Drained at h ⊢
  rw [returned_concat]
  obtain ⟨own, hs⟩ := halone.safe
  rcases ha with rfl | rfl
  · cases act_cases hst
    next hp =>
    rw [hp] at h
    simpa [returned, event, setPc, Pc.pending, relinked] using h
  · cases act_cases hst
    next m p hm =>
    have hsum := sum_move hs halone.solo hm
    rw [List.append_assoc] at hsum
    simp only [Function.update_self, relinked]
    rw [List.append_assoc, hsum, h]

/-- **What a drain returns**: with the `pop` that finds the stack empty, the whole list. -/
theorem drain_returns (hs : Safe own l s₀.mem s₀.pc) (hq : s₀.Quiet)
    (h : Run Stack.step (popsOf t) s₀ tr s) (hp : s.pc t = .ret (.popped none)) :
    tr.filterMap returned = s₀.mem.values l := by
  have hdrain : ∃ l', Alone t s l' ∧ Drained (s₀.mem.values l) t tr s l' := by
    refine h.hist (P := fun tr s => ∃ l', Alone t s l' ∧ Drained (s₀.mem.values l) t tr s l')
      ⟨l, .start hs hq, by rw [Drained, hq t]; rfl⟩ ?_
    rintro tr s a s' - ⟨l', halone, hd⟩ ha hst
    exact ⟨_, halone.step ha hst, hd.step halone ha hst⟩
  obtain ⟨l', halone, hd⟩ := hdrain
  obtain ⟨own', hs'⟩ := halone.safe
  obtain rfl := hs'.owned.links.eq_nil (halone.solo.empty hp)
  rw [Drained, hp] at hd
  simpa [Pc.pending, Mem.values] using hd

/-! ## A drain ends -/

def rank (t : Nat) (s : Stack) (l : List Addr) : ℕ ×ₗ ℕ := toLex (l.length, (s.pc t).rest)

theorem Alone.next (h : Alone t s l) (hg : s.pc t ≠ .ret (.popped none)) :
    ∃ a s', popsOf t tr s a ∧ s.step a = some s' ∧ rank t s' (s.relinked l a) < rank t s l := by
  obtain ⟨own, hs⟩ := h.safe
  by_cases hidle : s.pc t = .idle
  · refine ⟨.pop t, s.setPc t .pop_load, .inl rfl, by simp only [Stack.step, if_pos hidle], ?_⟩
    simp only [rank, setPc, Function.update_self, hidle, relinked]
    exact toLex_lt_of (.inr ⟨rfl, by simp only [Pc.rest]; omega⟩)
  have hheap : ∀ a, (s.pc t).aimed = some a ∨ (s.pc t).popped = some a → s.mem.heap a ≠ none :=
    fun a ha => ha.elim hs.aimed_heap hs.popped_heap
  obtain ⟨m, p, hm⟩ := h.solo.enabled hidle hheap
  have hne : (s.pc t).aimed ≠ none → l ≠ [] := by
    rintro ha rfl
    obtain ⟨a, ha⟩ := Option.ne_none_iff_exists'.1 ha
    have hnull : s.mem.head ≠ null := by
      rw [h.solo.aimed a ha]
      exact hs.owned.ne_null ((hs.aimed t).ne_fresh ha)
    obtain ⟨b, l', e, -⟩ := hs.owned.links.uncons hnull
    cases e
  refine ⟨.step t, ⟨m, Function.update s.pc t p⟩, .inr rfl, by simp [Stack.step, hm], ?_⟩
  simp only [rank, relinked, Function.update_self]
  exact toLex_lt_of ((h.solo.lower hg hne (move_cases hm)).imp_right fun e =>
    ⟨congrArg List.length e.1, e.2⟩)

/-- **A drain comes to its end.** -/
theorem drain_ends (hs : Safe own l s₀.mem s₀.pc) (hq : s₀.Quiet) :
    ∃ tr s, Run Stack.step (popsOf t) s₀ tr s ∧ s.pc t = .ret (.popped none) := by
  have hrun : Run Stack.step (popsOf t) s₀ [] s₀ := .nil
  obtain ⟨tr, s, -, hr, -, -, hg⟩ := hrun.reaches (fun _ => True)
    (fun s => s.pc t = .ret (.popped none)) (Alone t) (rank t) (fun tr s l _ h hg => by
      obtain ⟨a, s', ha, hst, hlt⟩ := h.next hg
      exact ⟨a, s', _, trivial, ha, hst, h.step ha hst, hlt⟩) (.start hs hq)
  exact ⟨tr, s, hr, hg⟩

/-! ## Who frees a node -/

def freeing (x : Stack × Act) : Option Addr :=
  match x.2 with
  | .step t =>
    match x.1.pc t with
    | .free a _ => some a
    | _ => none
  | _ => none

def frees (tr : History Stack Act) (b : Addr) : Nat := tr.countP fun x => freeing x = some b

theorem freed_move {b : Addr} (hs : Safe own l s.mem s.pc) (hst : s.step a = some s') :
    (if s'.mem.freed b then 1 else 0) =
      (if s.mem.freed b then 1 else 0) + if freeing (s, a) = some b then 1 else 0 := by
  cases act_cases hst
  case push | pop | alloc => rfl
  case step t m p hm =>
    generalize hpc : s.pc t = q at hm
    cases hm
    case free c v =>
      have hown : own c = .popper t := ((hs.mine t).popper c).2 (by rw [hpc]; rfl)
      have hc : s.mem.freed c = false := by
        by_contra hc
        have hfreed := (hs.owned.freed c).2 (by simpa using hc)
        rw [hown] at hfreed
        cases hfreed
      simp only [freeing, hpc, Option.some.injEq, Function.update_apply]
      rcases eq_or_ne b c with rfl | e
      · simp [hc]
      · simp [e, Ne.symm e]
    all_goals simp [freeing, hpc]

theorem frees_eq {env : History Stack Act → Stack → Act → Prop} (h : Run Stack.step env .new tr s)
    (b : Addr) : frees tr b = if s.mem.freed b then 1 else 0 := by
  refine h.hist (P := fun tr s => frees tr b = if s.mem.freed b then 1 else 0) rfl ?_
  intro tr s a s' hr ih _ hst
  obtain ⟨own, l, hs⟩ := safe hr
  rw [freed_move hs hst, ← ih]
  simp [frees, List.countP_append, List.countP_singleton]

/-- The place of every node, for the list `l` linked from `head`. -/
structure Custody (own : Addr → Place) (l : List Addr) (s : Stack) : Prop where
  links : Linked s.mem.next null s.mem.head l
  nodup : l.Nodup
  fresh : ∀ a, own a = .fresh ↔ s.mem.heap a = none
  pusher : ∀ t a, own a = .pusher t ↔ ∃ v, (s.pc t).pushing = some (v, a)
  linked : ∀ a, own a = .linked ↔ a ∈ l
  popper : ∀ t a, own a = .popper t ↔ (s.pc t).popped = some a
  freed : ∀ a, own a = .freed ↔ s.mem.freed a = true
  /-- a node is freed by the `pop` that took it off the list -/
  freeing : ∀ t a, freeing (s, .step t) = some a → own a = .popper t

end Stack

theorem Safe.custody {s : Stack} (hs : Safe own l s.mem s.pc) : s.Custody own l where
  links := hs.owned.links
  nodup := hs.owned.nodup
  fresh := hs.owned.fresh
  pusher t := (hs.mine t).pusher
  linked := hs.owned.linked
  popper t := (hs.mine t).popper
  freed := hs.owned.freed
  freeing t a hf := by
    refine ((hs.mine t).popper a).2 ?_
    simp only [Stack.freeing] at hf
    split at hf
    · next hpc =>
      rw [hpc]
      exact hf
    · cases hf

/-- With no call in progress a node that is not linked has been freed. -/
theorem Safe.freed_of_quiet {s : Stack} (hs : Safe own l s.mem s.pc) (hq : s.Quiet) {a : Addr}
    (ha : s.mem.heap a ≠ none) (hl : a ∉ l) : own a = .freed := by
  cases hp : own a with
  | fresh => exact absurd ((hs.owned.fresh a).1 hp) ha
  | pusher t =>
    obtain ⟨v, hv⟩ := ((hs.mine t).pusher a).1 hp
    rw [hq t] at hv
    cases hv
  | linked => exact absurd ((hs.owned.linked a).1 hp) hl
  | popper t =>
    have hv := ((hs.mine t).popper a).1 hp
    rw [hq t] at hv
    cases hv
  | freed => rfl

/-- **The plain stack is a linearizable LIFO stack** while no address is used twice: the
effects, each inside its call, are a run of the sequential stack; each node is freed by the
`pop` that took it off, once; and draining a quiet stack returns what is left, in order. -/
theorem treiber_linearizable {tr : History Stack Stack.Act} {s : Stack}
    (h : Run Stack.step anyEnv .new tr s) :
    ∃ own l effs st, s.Custody own l ∧
      Linear Lifo [] (tr.map Stack.event) effs st (s.mem.values l) ∧
      SeqRun Lifo [] effs (s.mem.values l) ∧
      (pushes effs).Perm (pops effs ++ s.mem.values l) ∧
      (∀ a, Stack.frees tr a = if own a = .freed then 1 else 0) ∧
      (s.Quiet → (∀ a, s.mem.heap a ≠ none → a ∉ l → Stack.frees tr a = 1) ∧ ∀ t,
        (∀ tr' s', Run Stack.step (Stack.popsOf t) s tr' s' → s'.pc t = .ret (.popped none) →
          tr'.filterMap returned = s.mem.values l) ∧
        ∃ tr' s', Run Stack.step (Stack.popsOf t) s tr' s' ∧ s'.pc t = .ret (.popped none)) := by
  obtain ⟨own, l, effs, st, hs, hl, -⟩ := Linearized.of_run h
  have hfrees (a : Addr) : Stack.frees tr a = if own a = .freed then 1 else 0 := by
    rw [Stack.frees_eq h]
    simp only [hs.owned.freed a]
  refine ⟨own, l, effs, st, hs.custody, hl, hl.seqRun, hl.seqRun.perm, hfrees, fun hq =>
    ⟨fun a ha hal => ?_, fun t => ⟨fun tr' s' => Stack.drain_returns hs hq,
      Stack.drain_ends hs hq⟩⟩⟩
  rw [hfrees a, if_pos (hs.freed_of_quiet hq ha hal)]

/-- Thread 0 pushes a value, thread 1 drains the stack. -/
theorem treiber_linearizable_drain :
    ∃ tr s own l, Run Stack.step anyEnv .new tr s ∧ s.mem.head = 1 ∧ s.Custody own l ∧
      ∃ tr' s', Run Stack.step (Stack.popsOf 1) s tr' s' ∧ s'.pc 1 = .ret (.popped none) ∧
        tr'.filterMap returned = s.mem.values l := by
  have h0 : Run Stack.step anyEnv .new [] .new := .nil
  have h1 := h0.exec (fun _ _ _ _ => trivial) (show exec _ _ _
    [.push 0 7, .alloc 0 1, .step 0, .step 0, .step 0, .step 0] = some _ from rfl)
  obtain ⟨own, l, -, -, hc, -, -, -, -, hquiet⟩ := treiber_linearizable h1
  obtain ⟨-, hdrain⟩ := hquiet fun u => by
    rcases eq_or_ne u 0 with rfl | h
    · rfl
    · simp [h, Stack.new, Stack.setPc]
  obtain ⟨hreturns, tr', s', hr, hp⟩ := hdrain 1
  exact ⟨_, _, own, l, h1, rfl, hc, tr', s', hr, hp, hreturns tr' s' hr hp⟩

end Samsara.Treiber
