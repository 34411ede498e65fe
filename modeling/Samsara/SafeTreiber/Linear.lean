import Samsara.SafeTreiber.Safe

/-!
# The stack is linearizable

The abstract list is made of the values along the linked list. `push` and a `pop` that
returns a value take effect at their successful compare-and-swap, a `pop` that returns
`None` at the load that finds `head` null; no other step changes the values
(`Linearized.act`). `Matches` says where the effect of a thread's call stands.
-/

namespace Samsara.SafeTreiber

open Linearize StepSys

/-- The values along a list of nodes. -/
def Mem.values (m : Mem) (l : List Addr) : List UInt32 :=
  l.filterMap fun a => (m.heap a).map Node.value

def Ret.Matches : Ret → Status (StackOp UInt32) (StackRes UInt32) → Prop
  | pushed, st => ∃ v, st = .done (.push v) .pushed
  | popped v, st => st = .done .pop (.popped v)
  | reclaimed, st => st = .idle

/-- What a program counter says of its call: not started, no effect yet, or done. -/
def Pc.Matches (m : Mem) : Pc → Status (StackOp UInt32) (StackRes UInt32) → Prop
  | idle, st | reclaim_lock, st => st = .idle
  | push_alloc v, st | push_load v _, st | push_next v _ _, st | push_cas v _ _, st =>
    st = .called (.push v)
  | acquire _, st | pop_load _, st | protect _ _, st | verify _ _, st | read_next _ _, st
  | pop_cas _ _ _, st | panicked, st => st = .called .pop
  | read_value _ h, st => ∃ n, m.heap h = some n ∧ st = .done .pop (.popped (some n.value))
  | clear _ _ v, st | retire_lock _ v, st | retire_push _ v, st =>
    st = .done .pop (.popped (some v))
  | drop_clear _ p, st | drop_release _ p, st => st = .done .pop (.popped (p.map Prod.snd))
  | scan _ _ r, st | scan_ptr _ _ r, st | retain _ _ r, st | unlock r, st | ret r, st =>
    r.Matches st
  | fault, _ => False

variable {own : Addr → Place} {l : List Addr} {m m' : Mem} {pc : Nat → Pc} {t : Nat} {p q : Pc}
  {mm : MemModel} {x : Status (StackOp UInt32) (StackRes UInt32)}
  {st : Nat → Status (StackOp UInt32) (StackRes UInt32)}

theorem Mem.values_congr (h : ∀ a ∈ l, (m'.heap a).map Node.value = (m.heap a).map Node.value) :
    m'.values l = m.values l := by
  unfold values
  exact List.filterMap_congr h

theorem Pc.Matches.congr (hq : q.Matches m x) (hh : ∀ a, q.popped = some a → m'.heap a = m.heap a) :
    q.Matches m' x := by
  cases q
  case read_value i a =>
    obtain ⟨n, hn, hx⟩ := hq
    exact ⟨n, (hh a rfl).trans hn, hx⟩
  all_goals exact hq

/-! ## One step -/

/-- The heap changes at most at a node that is neither linked nor popped. -/
def HeapFrame (own : Addr → Place) (m m' : Mem) : Prop :=
  ∀ a, own a = .linked ∨ (∃ t, own a = .popper t) → m'.heap a = m.heap a

namespace HeapFrame

theorem of_eq (h : m'.heap = m.heap) : HeapFrame own m m' := fun a _ => by rw [h]

theorem of_write {a : Addr} (h : own a ≠ .linked) (hp : ∀ t, own a ≠ .popper t)
    (hh : ∀ b, b ≠ a → m'.heap b = m.heap b) : HeapFrame own m m' := by
  intro b hb
  refine hh b ?_
  rintro rfl
  rcases hb with hb | ⟨t, hb⟩
  · exact h hb
  · exact hp t hb

theorem values (h : HeapFrame own m m') (ho : Owned own l m) : m'.values l = m.values l :=
  Mem.values_congr fun a ha => by rw [h a (.inl ((ho.linked a).2 ha))]

theorem matches_setPc (h : HeapFrame own m m') (hs : Safe own l m pc)
    (hm : ∀ u, (pc u).Matches m (st u)) (hp : p.Matches m' x) (u : Nat) :
    (Function.update pc t p u).Matches m' (Function.update st t x u) := by
  rcases eq_or_ne u t with rfl | e
  · simpa only [Function.update_self] using hp
  · simp only [Function.update_of_ne e]
    exact (hm u).congr fun a ha => h a (.inr ⟨u, ((hs.mine u).popper a).2 ha⟩)

end HeapFrame

theorem Safe.heapFrame (h : Safe own l m pc) (hm : Move mm t m (pc t) m' p) :
    HeapFrame own m m' := by
  generalize hpc : pc t = q at hm
  cases hm
  case push_next v a b node hn =>
    have hown : own a = .pusher t := ((h.mine t).pusher a).2 ⟨v, by rw [hpc]; rfl⟩
    exact .of_write (by simp [hown]) (by simp [hown]) fun b hb => Function.update_of_ne hb ..
  case retain_free out k r a hk ho =>
    have hown : own a = .retired := h.owned.retired_of_getElem? hk
    exact .of_write (by simp [hown]) (by simp [hown]) fun b hb => Function.update_of_ne hb ..
  all_goals exact .of_eq (by simp)

namespace Safe

variable {v : UInt32} {i : Nat} {a n : Addr}

theorem push_effect (h : Safe own l m pc) (ht : pc t = .push_cas v a m.head)
    (hst : st t = .called (.push v)) :
    Advance Lifo st (m.values l) .internal (Function.update st t (.done (.push v) .pushed))
      (m.values (a :: l)) := by
  have hv : (m.heap a).map Node.value = some v := (h.mine t).value v a (by rw [ht]; rfl)
  have hvals : m.values (a :: l) = v :: m.values l := by simp [Mem.values, hv]
  rw [hvals]
  exact .effect hst .push

theorem empty_effect (h : Safe own l m pc) (hh : m.head = null) (hst : st t = .called .pop) :
    Advance Lifo st (m.values l) .internal (Function.update st t (.done .pop (.popped none)))
      (m.values l) := by
  obtain rfl := h.owned.links.eq_nil hh
  exact .effect hst .empty

theorem pop_effect (h : Safe own l m pc) (ht : pc t = .pop_cas i m.head n)
    (hst : st t = .called .pop) :
    ∃ node, m.heap m.head = some node ∧
      Advance Lifo st (m.values l) .internal
        (Function.update st t (.done .pop (.popped (some node.value)))) (m.values l.tail) := by
  have hnull : m.head ≠ null := h.published.aimed t m.head (by rw [ht]; rfl)
  have hcons : l = m.head :: l.tail := (h.pop_cas ht hnull).2
  obtain ⟨node, hn⟩ := Option.ne_none_iff_exists'.1
    (h.protected_heap (t := t) (i := i) (a := m.head) (by rw [ht]; rfl))
  have hvals : m.values l = node.value :: m.values l.tail := by
    rw [hcons]
    simp [Mem.values, hn]
  rw [hvals]
  exact ⟨node, hn, .effect hst .pop⟩

/-- A step is one of the three effects, a return, or leaves the abstract list alone. -/
theorem linear_move (h : Safe own l m pc) (hst : (pc t).Matches m (st t))
    (hm : Move mm t m (pc t) m' p) :
    ∃ x, Advance Lifo st (m.values l) (Stack.event (⟨m, pc⟩, .step t)) (Function.update st t x)
      (m'.values ((pc t).relinked m l)) ∧ p.Matches m' x := by
  have hf := h.ne_fault hm
  have hvals := (h.heapFrame hm).values h.owned
  generalize hpc : pc t = q at hm hst
  have silent : ∀ {l' : List Addr}, Stack.event (⟨m, pc⟩, .step t) = .internal → l' = l →
      p.Matches m' (st t) → ∃ x, Advance Lifo st (m.values l) (Stack.event (⟨m, pc⟩, .step t))
        (Function.update st t x) (m'.values l') ∧ p.Matches m' x := by
    rintro l' he rfl hp
    rw [he, hvals]
    exact ⟨st t, .keep t, hp⟩
  cases hm
  case push_next_fault | read_next_fault | read_value_fault => exact absurd rfl hf
  case push_cas_ok v a b hh =>
    subst hh
    simp only [Pc.relinked, if_pos, Stack.event, hpc]
    exact ⟨_, h.push_effect hpc hst, v, rfl⟩
  case pop_load_null i hh =>
    simp only [Pc.relinked, Stack.event, hpc]
    exact ⟨_, h.empty_effect hh hst, rfl⟩
  case pop_cas_ok i b n hh =>
    subst hh
    simp only [Pc.relinked, if_pos, Stack.event, hpc]
    obtain ⟨node, hn, hadv⟩ := h.pop_effect hpc hst
    exact ⟨_, hadv, node, hn, rfl⟩
  case ret r =>
    cases r
    case pushed =>
      obtain ⟨v, hst⟩ := hst
      simp only [Stack.event, hpc]
      exact ⟨_, .ret hst, rfl⟩
    case popped v =>
      simp only [Stack.event, hpc]
      exact ⟨_, .ret hst, rfl⟩
    case reclaimed => exact silent (by simp [Stack.event, hpc]) rfl hst
  case read_value i a node hn =>
    obtain ⟨node', hn', hst⟩ := hst
    obtain rfl : node = node' := Option.some.inj (hn.symm.trans hn')
    exact silent (by simp [Stack.event, hpc]) rfl hst
  case push_cas_fail v a b hh | pop_cas_fail i a n hh =>
    exact silent (by simp [Stack.event, hpc]) (if_neg hh) hst
  all_goals exact silent (by simp [Stack.event, hpc]) rfl hst

end Safe

/-! ## Runs -/

/-- What the steps so far have done to the abstract list, and where the calls stand. -/
def Linearized (tr : History Stack Stack.Act) (s : Stack) : Prop :=
  ∃ own l effs st, Safe own l s.mem s.pc ∧
    Linear Lifo [] (tr.map Stack.event) effs st (s.mem.values l) ∧
    ∀ t, (s.pc t).Matches s.mem (st t)

namespace Linearized

variable {tr : History Stack Stack.Act} {s s' : Stack} {a : Stack.Act}

theorem new : Linearized [] .new :=
  ⟨_, _, _, _, .new, .nil, fun _ => rfl⟩

theorem act (h : Linearized tr s) (hs : s.step mm a = some s') (hv : s.PublishesFirst a) :
    Linearized (tr ++ [(s, a)]) s' := by
  obtain ⟨own, l, effs, st, hsafe, hl, hst⟩ := h
  obtain ⟨own', hsafe'⟩ := hsafe.act hs hv
  unfold Linearized
  rw [List.map_append]
  cases Stack.act_cases hs
  case push t v hp =>
    have hidle : st t = .idle := by simpa [hp, Pc.Matches] using hst t
    exact ⟨_, _, _, _, hsafe', hl.call hidle,
      (HeapFrame.of_eq rfl).matches_setPc hsafe hst rfl⟩
  case pop t hp =>
    have hidle : st t = .idle := by simpa [hp, Pc.Matches] using hst t
    exact ⟨_, _, _, _, hsafe', hl.call hidle,
      (HeapFrame.of_eq rfl).matches_setPc hsafe hst rfl⟩
  case force_reclaim t hp =>
    have hidle : st t = .idle := by simpa [hp, Pc.Matches] using hst t
    refine ⟨_, _, effs, Function.update st t (st t), hsafe', ?_,
      (HeapFrame.of_eq rfl).matches_setPc hsafe hst hidle⟩
    rw [Function.update_eq_self]
    exact hl.silent
  case alloc t v a hp ha hn =>
    have hfree : own a = .free := (hsafe.owned.free a).2 hn
    have hframe : HeapFrame own s.mem
        { s.mem with heap := Function.update s.mem.heap a (some ⟨v, null⟩) } :=
      .of_write (by simp [hfree]) (by simp [hfree]) fun b hb => Function.update_of_ne hb ..
    have hcalled : st t = .called (.push v) := by simpa [hp, Pc.Matches] using hst t
    refine ⟨_, _, effs, Function.update st t (st t), hsafe', ?_,
      hframe.matches_setPc hsafe hst hcalled⟩
    rw [Function.update_eq_self]
    exact (hframe.values hsafe.owned).symm ▸ hl.silent
  case step t m p hm =>
    obtain ⟨x, hadv, hx⟩ := hsafe.linear_move (hst t) hm
    obtain ⟨effs', hl'⟩ := hl.advance hadv
    exact ⟨_, _, _, _, hsafe', hl', (hsafe.heapFrame hm).matches_setPc hsafe hst hx⟩
  case flush t st' rest hb => exact ⟨_, _, _, _, hsafe', hl.silent, hst⟩

theorem of_run {env : History Stack Stack.Act → Stack → Stack.Act → Prop}
    (he : ∀ tr s a, Run (Stack.step mm) env .new tr s → env tr s a → s.PublishesFirst a)
    (h : Run (Stack.step mm) env .new tr s) : Linearized tr s :=
  h.hist .new fun tr s a _ hr hlin henv hs => hlin.act hs (he tr s a hr henv)

end Linearized

/-- **The stack is a linearizable LIFO stack** for any number of threads and any reuse of
freed addresses: the effects, each inside its call, are a run of the sequential stack that
ends with the values now linked from `head`, and what was pushed is what was popped and
what is left. -/
theorem stack_linearizable {tr : History Stack Stack.Act} {s : Stack}
    (h : Run (Stack.step .sc) anyEnv .new tr s) :
    ∃ l effs st, Linked s.mem.next null s.mem.head l ∧
      Linear Lifo [] (tr.map Stack.event) effs st (s.mem.values l) ∧
      SeqRun Lifo [] effs (s.mem.values l) ∧
      (pushes effs).Perm (pops effs ++ s.mem.values l) := by
  obtain ⟨own, l, effs, st, hsafe, hl, -⟩ :=
    Linearized.of_run (fun _ _ a hr _ => Stack.publishesFirst_sc hr a) h
  exact ⟨l, effs, st, hsafe.owned.links, hl, hl.seqRun, hl.seqRun.perm⟩

/-- The calls overlap, and address `1` is pushed and popped twice. -/
theorem stack_linearizable_overlapping :
    ∃ tr s, Run (Stack.step .sc) anyEnv .new tr s ∧ tr.map Prod.snd = overlappingCalls ∧
      overlappingCalls.count (.alloc 0 1) = 2 ∧
      ∃ l effs st, Linked s.mem.next null s.mem.head l ∧
        Linear Lifo [] (tr.map Stack.event) effs st (s.mem.values l) ∧
        SeqRun Lifo [] effs (s.mem.values l) ∧
        (pushes effs).Perm (pops effs ++ s.mem.values l) := by
  have hexec : (exec (Stack.step .sc) [] Stack.new overlappingCalls).map (·.1.map Prod.snd) =
      some overlappingCalls := by
    decide +kernel
  obtain ⟨r, hr, hacts⟩ := Option.map_eq_some_iff.1 hexec
  have hrun : Run (Stack.step .sc) anyEnv .new r.1 r.2 :=
    Run.nil.exec (fun _ _ _ _ => trivial) hr
  exact ⟨r.1, r.2, hrun, hacts, by decide, stack_linearizable hrun⟩

end Samsara.SafeTreiber
