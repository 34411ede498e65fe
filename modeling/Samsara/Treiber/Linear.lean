import Samsara.Treiber.Safe

/-!
# The plain stack is linearizable

`push` and a `pop` that returns a value take effect at their successful compare-and-swap, a
`pop` that returns `None` at the load that finds `head` null. What a node holds is final once
it is linked (`Safe.final_heap`), so the values along the list change at these steps only.
`Matches` says where the effect of a thread's call stands.
-/

namespace Samsara.Treiber

open Linearize StepSys

/-- What a program counter says of its call: not started, no effect yet, or done. -/
def Pc.Matches (m : Mem) : Pc → Status (StackOp UInt32) (StackRes UInt32) → Prop
  | idle, st => st = .idle
  | push_alloc v, st | push_load v _, st | push_next v _ _, st | push_cas v _ _, st =>
    st = .called (.push v)
  | pop_load, st | read_next _, st | pop_cas _ _, st => st = .called .pop
  | take h, st => ∃ n, m.heap h = some n ∧ st = .done .pop (.popped (some n.value))
  | free _ v, st => st = .done .pop (.popped (some v))
  | ret .pushed, st => ∃ v, st = .done (.push v) .pushed
  | ret (.popped v), st => st = .done .pop (.popped v)

variable {own own' : Addr → Place} {l : List Addr} {m m' : Mem} {pc : Nat → Pc} {t : Nat}
  {p q : Pc} {a n : Addr} {x : Status (StackOp UInt32) (StackRes UInt32)}
  {st : Nat → Status (StackOp UInt32) (StackRes UInt32)}

/-- The nodes that have been linked keep their contents. -/
def FinalFrame (own : Addr → Place) (m m' : Mem) : Prop :=
  ∀ a, (own a).final = true → m'.heap a = m.heap a

namespace FinalFrame

theorem of_eq (h : m'.heap = m.heap) : FinalFrame own m m' := fun a _ => by rw [h]

theorem of_write (ha : (own a).final = false) (hh : ∀ b, b ≠ a → m'.heap b = m.heap b) :
    FinalFrame own m m' := by
  intro b hb
  refine hh b ?_
  rintro rfl
  rw [ha] at hb
  cases hb

theorem values (h : FinalFrame own m m') (ho : Owned own l m) : m'.values l = m.values l := by
  unfold Mem.values
  refine List.filterMap_congr fun a ha => ?_
  rw [h a]
  rw [(ho.linked a).2 ha]
  rfl

theorem congr (h : FinalFrame own m m') (hm : Mine own m t q) (hq : q.Matches m x) :
    q.Matches m' x := by
  cases q
  case take a =>
    obtain ⟨n, hn, hx⟩ := hq
    refine ⟨n, (h a ?_).trans hn, hx⟩
    rw [(hm.popper a).2 rfl]
    rfl
  case ret r => cases r <;> exact hq
  all_goals exact hq

theorem matches_setPc (h : FinalFrame own m m') (hs : Safe own l m pc)
    (hm : ∀ u, (pc u).Matches m (st u)) (hp : p.Matches m' x) (u : Nat) :
    (Function.update pc t p u).Matches m' (Function.update st t x u) := by
  rcases eq_or_ne u t with rfl | e
  · simpa only [Function.update_self] using hp
  · simp only [Function.update_of_ne e]
    exact h.congr (hs.mine u) (hm u)

end FinalFrame

/-! ## One step -/

namespace Safe

variable {v : UInt32}

theorem final_heap (hs : Safe own l m pc) (hm : Move m (pc t) m' p) : FinalFrame own m m' := by
  generalize hpc : pc t = q at hm
  cases hm
  case push_next v a b node hn =>
    have hown : own a = .pusher t := ((hs.mine t).pusher a).2 ⟨v, by rw [hpc]; rfl⟩
    exact .of_write (by rw [hown]; rfl) fun b hb => Function.update_of_ne hb ..
  all_goals exact .of_eq rfl

theorem push_effect (hs : Safe own l m pc) (ht : pc t = .push_cas v a m.head)
    (hst : st t = .called (.push v)) :
    Advance Lifo st (m.values l) .internal (Function.update st t (.done (.push v) .pushed))
      (m.values (a :: l)) := by
  have hv : (m.heap a).map Node.value = some v := (hs.mine t).value v a (by rw [ht]; rfl)
  have hvals : m.values (a :: l) = v :: m.values l := by simp [Mem.values, hv]
  rw [hvals]
  exact .effect hst .push

theorem empty_effect (hs : Safe own l m pc) (hh : m.head = null) (hst : st t = .called .pop) :
    Advance Lifo st (m.values l) .internal (Function.update st t (.done .pop (.popped none)))
      (m.values l) := by
  obtain rfl := hs.owned.links.eq_nil hh
  exact .effect hst .empty

theorem pop_value (hs : Safe own l m pc) (ht : pc t = .pop_cas m.head n) :
    ∃ node, m.heap m.head = some node ∧ m.values l = node.value :: m.values l.tail := by
  obtain ⟨hcons, -⟩ := hs.pop_cas ht
  have hnext : m.next m.head = some n := (hs.aimed t).swings m.head n (by rw [ht]; rfl)
  obtain ⟨node, hn, -⟩ := Option.map_eq_some_iff.1 hnext
  refine ⟨node, hn, ?_⟩
  rw [hcons]
  simp [Mem.values, hn]

/-- A step is one of the three effects, a return, or leaves the abstract list alone. -/
theorem linear_move (hs : Safe own l m pc) (hst : (pc t).Matches m (st t))
    (hm : Move m (pc t) m' p) :
    ∃ x, Advance Lifo st (m.values l) (Stack.event (⟨m, pc⟩, .step t)) (Function.update st t x)
      (m'.values ((pc t).relinked m l)) ∧ p.Matches m' x := by
  have hvals := (hs.final_heap hm).values hs.owned
  generalize hpc : pc t = q at hm hst
  have silent : ∀ {l' : List Addr}, Stack.event (⟨m, pc⟩, .step t) = .internal → l' = l →
      p.Matches m' (st t) → ∃ x, Advance Lifo st (m.values l) (Stack.event (⟨m, pc⟩, .step t))
        (Function.update st t x) (m'.values l') ∧ p.Matches m' x := by
    rintro l' he rfl hp
    rw [he, hvals]
    exact ⟨st t, .keep t, hp⟩
  cases hm
  case push_cas_ok v a b hh =>
    subst hh
    simp only [Pc.relinked, if_pos, Stack.event, hpc]
    exact ⟨_, hs.push_effect hpc hst, v, rfl⟩
  case pop_load_null hh =>
    simp only [Pc.relinked, Stack.event, hpc]
    exact ⟨_, hs.empty_effect hh hst, rfl⟩
  case pop_cas_ok b n hh =>
    subst hh
    obtain ⟨node, hn, hcons⟩ := hs.pop_value hpc
    rw [hcons]
    simp only [Pc.relinked, if_pos, Stack.event, hpc]
    exact ⟨_, .effect hst .pop, node, hn, rfl⟩
  case ret r =>
    cases r
    case pushed =>
      obtain ⟨v, hst⟩ := hst
      simp only [Stack.event, hpc]
      exact ⟨_, .ret hst, rfl⟩
    case popped v =>
      simp only [Stack.event, hpc]
      exact ⟨_, .ret hst, rfl⟩
  case take a node hn =>
    obtain ⟨node', hn', hst⟩ := hst
    obtain rfl : node = node' := Option.some.inj (hn.symm.trans hn')
    exact silent (by simp [Stack.event, hpc]) rfl hst
  case push_cas_fail v a b hh | pop_cas_fail a n hh =>
    exact silent (by simp [Stack.event, hpc]) (if_neg hh) hst
  all_goals exact silent (by simp [Stack.event, hpc]) rfl hst

end Safe

/-! ## Runs -/

/-- What the steps so far have done to the abstract list, and where the calls stand. -/
def Linearized (tr : History Stack Stack.Act) (s : Stack) : Prop :=
  ∃ own l effs st, Safe own l s.mem s.pc ∧
    Linear Lifo [] (tr.map Stack.event) effs st (s.mem.values l) ∧
    ∀ t, (s.pc t).Matches s.mem (st t)

namespace Linearized

variable {tr : History Stack Stack.Act} {s s' : Stack} {b : Stack.Act}

theorem new : Linearized [] .new := ⟨_, _, _, _, .new, .nil, fun _ => rfl⟩

theorem act (h : Linearized tr s) (hst : s.step b = some s') :
    Linearized (tr ++ [(s, b)]) s' := by
  obtain ⟨own, l, effs, st, hs, hl, hm⟩ := h
  obtain ⟨own', hs'⟩ := Stack.safe_act hs hst
  unfold Linearized
  rw [List.map_append]
  cases Stack.act_cases hst
  case push t v hp =>
    have hidle : st t = .idle := by simpa [hp, Pc.Matches] using hm t
    exact ⟨_, _, _, _, hs', hl.call hidle, (FinalFrame.of_eq rfl).matches_setPc hs hm rfl⟩
  case pop t hp =>
    have hidle : st t = .idle := by simpa [hp, Pc.Matches] using hm t
    exact ⟨_, _, _, _, hs', hl.call hidle, (FinalFrame.of_eq rfl).matches_setPc hs hm rfl⟩
  case alloc t v a hp ha hn =>
    have hfresh : own a = .fresh := (hs.owned.fresh a).2 hn
    have hframe : FinalFrame own s.mem
        { s.mem with heap := Function.update s.mem.heap a (some ⟨v, null⟩) } :=
      .of_write (by rw [hfresh]; rfl) fun b hb => Function.update_of_ne hb ..
    have hcalled : st t = .called (.push v) := by simpa [hp, Pc.Matches] using hm t
    refine ⟨_, _, effs, Function.update st t (st t), hs', ?_,
      hframe.matches_setPc hs hm hcalled⟩
    rw [Function.update_eq_self]
    exact (hframe.values hs.owned).symm ▸ hl.silent
  case step t m p hmove =>
    obtain ⟨x, hadv, hx⟩ := hs.linear_move (hm t) hmove
    obtain ⟨effs', hl'⟩ := hl.advance hadv
    exact ⟨_, _, _, _, hs', hl', (hs.final_heap hmove).matches_setPc hs hm hx⟩

theorem of_run {env : History Stack Stack.Act → Stack → Stack.Act → Prop}
    (h : Run Stack.step env .new tr s) : Linearized tr s :=
  h.hist .new fun _ _ _ _ _ hlin _ hst => hlin.act hst

end Linearized

end Samsara.Treiber
