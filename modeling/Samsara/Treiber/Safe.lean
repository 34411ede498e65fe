import Samsara.Lib.Linked
import Samsara.Treiber.System

/-!
# The invariant of the plain stack

`own` says where every node is: with the `push` that allocated it, linked from `head`, with
the `pop` that took it off, or freed. `Safe` ties the places to the memory and to the
program counters. Once a node has been linked nobody writes it again, freed or not; and as
no address is allocated twice, a compare-and-swap that finds `head` unchanged installs the
successor the node still has.
-/

namespace Samsara.Treiber

open StepSys

namespace Pc

def pushing : Pc → Option (UInt32 × Addr)
  | push_load v a | push_next v a _ | push_cas v a _ => some (v, a)
  | _ => none

/-- The node a `push` is about to link, and its successor. -/
def linking : Pc → Option (Addr × Addr)
  | push_cas _ a h => some (a, h)
  | _ => none

/-- The node a `pop` has loaded as the head. -/
def aimed : Pc → Option Addr
  | read_next h | pop_cas h _ => some h
  | _ => none

/-- The successor `pop` is about to swing `head` to. -/
def swinging : Pc → Option (Addr × Addr)
  | pop_cas h n => some (h, n)
  | _ => none

/-- The node a `pop` has taken off the list and not freed yet. -/
def popped : Pc → Option Addr
  | take h | free h _ => some h
  | _ => none

/-- The list after a step: `push` and `pop` change it when their compare-and-swap succeeds. -/
def relinked (m : Mem) (l : List Addr) : Pc → List Addr
  | push_cas _ new head => if m.head = head then new :: l else l
  | pop_cas head _ => if m.head = head then l.tail else l
  | _ => l

end Pc

inductive Place where
  /-- never allocated -/
  | fresh
  /-- allocated by the `push` of `t`, not linked yet -/
  | pusher (t : Nat)
  | linked
  /-- taken off the list by the `pop` of `t`, not freed yet -/
  | popper (t : Nat)
  | freed
  deriving DecidableEq

namespace Place

def owner : Place → Option Nat
  | pusher t | popper t => some t
  | _ => none

/-- The node has been linked: its contents are final, and any thread may hold its address. -/
def final : Place → Bool
  | linked | popper _ | freed => true
  | _ => false

theorem ne_of_owner {x : Place} {t : Nat} (h : x.owner ≠ some t) : x ≠ pusher t ∧ x ≠ popper t :=
  ⟨by rintro rfl; exact h rfl, by rintro rfl; exact h rfl⟩

end Place

structure Owned (own : Addr → Place) (l : List Addr) (m : Mem) : Prop
    extends Chain m.next null m.head own .linked l where
  fresh : ∀ a, own a = .fresh ↔ m.heap a = none
  null_fresh : own null = .fresh
  freed : ∀ a, own a = .freed ↔ m.freed a = true

/-- The nodes private to `t`, whose program counter is `q`. -/
structure Mine (own : Addr → Place) (m : Mem) (t : Nat) (q : Pc) : Prop where
  pusher : ∀ a, own a = .pusher t ↔ ∃ v, q.pushing = some (v, a)
  value : ∀ v a, q.pushing = some (v, a) → (m.heap a).map Node.value = some v
  linking : ∀ a h, q.linking = some (a, h) → m.next a = some h
  popper : ∀ a, own a = .popper t ↔ q.popped = some a

/-- What a thread knows of the node it has loaded as the head. -/
structure Aimed (own : Addr → Place) (m : Mem) (q : Pc) : Prop where
  final : ∀ a, q.aimed = some a → (own a).final = true
  swings : ∀ a n, q.swinging = some (a, n) → m.next a = some n

structure Safe (own : Addr → Place) (l : List Addr) (m : Mem) (pc : Nat → Pc) : Prop where
  owned : Owned own l m
  mine : ∀ t, Mine own m t (pc t)
  aimed : ∀ t, Aimed own m (pc t)

variable {own : Addr → Place} {l : List Addr} {m m' : Mem} {pc : Nat → Pc} {a h n : Addr}
  {t u : Nat} {q p : Pc} {y : Place}

/-! ## The shared memory -/

namespace Owned

theorem new : Owned (fun _ => .fresh) [] .new where
  links := .nil
  nodup := .nil
  linked a := by simp
  fresh a := by simp [Mem.new]
  null_fresh := rfl
  freed a := by simp [Mem.new]

theorem ne_null (ho : Owned own l m) (ha : own a ≠ .fresh) : a ≠ null := by
  rintro rfl
  exact ha ho.null_fresh

theorem null_update (ho : Owned own l m) (ha : a ≠ null) :
    Function.update own a y null = .fresh := by
  rw [Function.update_of_ne (Ne.symm ha)]
  exact ho.null_fresh

theorem write (ho : Owned own l m) (ha : a ≠ null) (hp : own a = .fresh ∨ own a = .pusher t)
    (node : Node) :
    Owned (Function.update own a (.pusher t)) l
      { m with heap := Function.update m.heap a (some node) } where
  toChain := ho.toChain.move (by rcases hp with hp | hp <;> simp [hp]) (by simp) fun b hb => by
    simp only [Mem.next, Function.update_of_ne hb]
  fresh := place_update ho.fresh (by simp) fun b hb => by simp [hb]
  null_fresh := ho.null_update ha
  freed := place_move ho.freed (by rcases hp with hp | hp <;> simp [hp]) (by simp)

theorem push_cas (ho : Owned own l m) (ha : own a = .pusher t) (hn : m.next a = some m.head) :
    Owned (Function.update own a .linked) (a :: l) { m with head := a } where
  toChain := ho.toChain.push (ho.ne_null (by simp [ha])) (by simp [ha]) hn
  fresh := place_move ho.fresh (by simp [ha]) (by simp)
  null_fresh := ho.null_update (ho.ne_null (by simp [ha]))
  freed := place_move ho.freed (by simp [ha]) (by simp)

theorem pop_cas (ho : Owned own l m) (hh : m.head ≠ null) (hn : m.next m.head = some n) :
    ∃ l', l = m.head :: l' ∧
      Owned (Function.update own m.head (.popper t)) l' { m with head := n } := by
  have hp : own m.head = .linked := ho.toChain.head_linked hh
  obtain ⟨l', rfl, hc⟩ := ho.toChain.pop (y := .popper t) hh (by simp) hn
  exact ⟨l', rfl, {
    toChain := hc
    fresh := place_move ho.fresh (by simp [hp]) (by simp)
    null_fresh := ho.null_update hh
    freed := place_move ho.freed (by simp [hp]) (by simp) }⟩

theorem free (ho : Owned own l m) (ha : own a = .popper t) :
    Owned (Function.update own a .freed) l
      { m with freed := Function.update m.freed a true } where
  toChain := ho.toChain.move (by simp [ha]) (by simp) fun _ _ => rfl
  fresh := place_move ho.fresh (by simp [ha]) (by simp)
  null_fresh := ho.null_update (ho.ne_null (by simp [ha]))
  freed := place_update ho.freed (by simp) fun b hb => by simp [hb]

end Owned

/-! ## What a thread has and knows -/

namespace Mine

theorem new : Mine (fun _ => .fresh) .new t .idle :=
  ⟨by simp [Pc.pushing], nofun, nofun, by simp [Pc.popped]⟩

theorem setPc (hm : Mine own m t q) (hp : p.pushing = q.pushing)
    (hl : ∀ x, p.linking = some x → q.linking = some x) (ho : p.popped = q.popped) :
    Mine own m t p where
  pusher := by simpa only [hp] using hm.pusher
  value := by simpa only [hp] using hm.value
  linking a h hq := hm.linking a h (hl _ hq)
  popper := by simpa only [ho] using hm.popper

theorem move (hm : Mine own m u q) (hx : (own a).owner ≠ some u) (hy : y.owner ≠ some u)
    (hh : ∀ b, b ≠ a → m'.heap b = m.heap b) : Mine (Function.update own a y) m' u q := by
  have hpush : ∀ v b, q.pushing = some (v, b) → b ≠ a := by
    rintro v b hq rfl
    rw [(hm.pusher b).2 ⟨v, hq⟩] at hx
    exact hx rfl
  have hlink : ∀ b h, q.linking = some (b, h) → b ≠ a := by
    intro b h hq
    cases q <;> cases hq
    exact hpush _ b rfl
  have hx := Place.ne_of_owner hx
  have hy := Place.ne_of_owner hy
  refine ⟨place_move hm.pusher hx.1 hy.1, fun v b hq => ?_, fun b h hq => ?_,
    place_move hm.popper hx.2 hy.2⟩
  · rw [hh b (hpush v b hq)]
    exact hm.value v b hq
  · simp only [Mem.next, hh b (hlink b h hq)]
    exact hm.linking b h hq

end Mine

namespace Aimed

theorem of_none (ha : q.aimed = none) : Aimed own m q := by
  refine ⟨by simp [ha], fun a n hs => ?_⟩
  cases q <;> cases hs
  cases ha

theorem ne_fresh (hs : Aimed own m q) (ha : q.aimed = some a) : own a ≠ .fresh := by
  intro e
  have hfin := hs.final a ha
  rw [e] at hfin
  cases hfin

/-- A node that is not final may be written; a final one stays final. -/
theorem move (hs : Aimed own m q)
    (hk : (own a).final = true → y.final = true ∧ m'.heap a = m.heap a)
    (hh : ∀ b, b ≠ a → m'.heap b = m.heap b) : Aimed (Function.update own a y) m' q where
  final b hb := by
    have hfin := hs.final b hb
    rcases eq_or_ne b a with rfl | e
    · simpa using (hk hfin).1
    · rwa [Function.update_of_ne e]
  swings b n hb := by
    have hfin : (own b).final = true := by
      cases q <;> cases hb
      exact hs.final _ rfl
    have hheap : m'.heap b = m.heap b := by
      rcases eq_or_ne b a with rfl | e
      · exact (hk hfin).2
      · exact hh b e
    simp only [Mem.next, hheap]
    exact hs.swings b n hb

end Aimed

/-! ## Steps -/

namespace Safe

theorem new : Safe (fun _ => .fresh) [] .new fun _ => .idle :=
  ⟨.new, fun _ => .new, fun _ => .of_none rfl⟩

theorem aimed_heap (hs : Safe own l m pc) (ha : (pc t).aimed = some a) : m.heap a ≠ none :=
  fun hn => (hs.aimed t).ne_fresh ha ((hs.owned.fresh a).2 hn)

theorem popped_heap (hs : Safe own l m pc) (ha : (pc t).popped = some a) : m.heap a ≠ none := by
  intro hn
  have hown := ((hs.mine t).popper a).2 ha
  rw [(hs.owned.fresh a).2 hn] at hown
  cases hown

theorem setPc (hs : Safe own l m pc) (hp : p.pushing = (pc t).pushing)
    (hl : ∀ x, p.linking = some x → (pc t).linking = some x) (ho : p.popped = (pc t).popped)
    (ha : Aimed own m p) : Safe own l m (Function.update pc t p) :=
  ⟨hs.owned, (Function.forall_update_iff pc (p := fun u q => Mine own m u q)).2
    ⟨(hs.mine t).setPc hp hl ho, fun u _ => hs.mine u⟩,
    (Function.forall_update_iff pc (p := fun _ q => Aimed own m q)).2
      ⟨ha, fun u _ => hs.aimed u⟩⟩

theorem give {l' : List Addr} (hs : Safe own l m pc)
    (howned : Owned (Function.update own a y) l' m')
    (hx : ∀ u, u ≠ t → (own a).owner ≠ some u) (hy : ∀ u, u ≠ t → y.owner ≠ some u)
    (hk : (own a).final = true → y.final = true ∧ m'.heap a = m.heap a)
    (hh : ∀ b, b ≠ a → m'.heap b = m.heap b) (hp : Mine (Function.update own a y) m' t p)
    (ha : p.aimed = none) : Safe (Function.update own a y) l' m' (Function.update pc t p) :=
  ⟨howned, (Function.forall_update_iff pc (p := fun u q => Mine (Function.update own a y) m' u q)).2
    ⟨hp, fun u hu => (hs.mine u).move (hx u hu) (hy u hu) hh⟩,
    (Function.forall_update_iff pc (p := fun _ q => Aimed (Function.update own a y) m' q)).2
      ⟨.of_none ha, fun u _ => (hs.aimed u).move hk hh⟩⟩

theorem alloc (hs : Safe own l m pc) {v : UInt32} (ht : pc t = .push_alloc v) (ha : a ≠ null)
    (hn : m.heap a = none) :
    Safe (Function.update own a (.pusher t)) l
      { m with heap := Function.update m.heap a (some ⟨v, null⟩) }
      (Function.update pc t (.push_load v a)) := by
  have hown : own a = .fresh := (hs.owned.fresh a).2 hn
  have hm := hs.mine t
  rw [ht] at hm
  refine hs.give (hs.owned.write ha (.inl hown) _) (by simp [hown, Place.owner])
    (fun u hu => by simp [Place.owner, Ne.symm hu]) (by simp [hown, Place.final])
    (fun b hb => Function.update_of_ne hb ..) ?_ rfl
  refine ⟨place_update hm.pusher (by simp [Pc.pushing]) fun b hb => ?_, fun v' b hq => ?_, nofun,
    place_update hm.popper (by simp [Pc.popped]) fun b hb => ?_⟩
  · simp [Pc.pushing, Ne.symm hb]
  · cases hq
    simp
  · simp [Pc.popped]

theorem push_next (hs : Safe own l m pc) {v : UInt32} {node : Node}
    (ht : pc t = .push_next v a h) (hn : m.heap a = some node) :
    Safe (Function.update own a (.pusher t)) l
      { m with heap := Function.update m.heap a (some { node with next := h }) }
      (Function.update pc t (.push_cas v a h)) := by
  have hm := hs.mine t
  rw [ht] at hm
  have hown : own a = .pusher t := (hm.pusher a).2 ⟨v, rfl⟩
  refine hs.give (hs.owned.write (hs.owned.ne_null (by simp [hown])) (.inr hown) _)
    (fun u hu => by simp [hown, Place.owner, Ne.symm hu])
    (fun u hu => by simp [Place.owner, Ne.symm hu]) (by simp [hown, Place.final])
    (fun b hb => Function.update_of_ne hb ..) ?_ rfl
  refine ⟨place_update hm.pusher (by simp [Pc.pushing]) fun b hb => ?_, fun v' b hq => ?_,
    fun b h' hq => ?_, place_update hm.popper (by simp [Pc.popped]) fun b hb => ?_⟩
  · simp [Pc.pushing]
  · have hv := hm.value v a rfl
    cases hq
    simpa [hn] using hv
  · cases hq
    simp [Mem.next]
  · simp [Pc.popped]

theorem push_cas (hs : Safe own l m pc) {v : UInt32} (ht : pc t = .push_cas v a m.head) :
    Safe (Function.update own a .linked) (a :: l) { m with head := a }
      (Function.update pc t (.ret .pushed)) := by
  have hm := hs.mine t
  rw [ht] at hm
  have hown : own a = .pusher t := (hm.pusher a).2 ⟨v, rfl⟩
  refine hs.give (hs.owned.push_cas hown (hm.linking a m.head rfl))
    (fun u hu => by simp [hown, Place.owner, Ne.symm hu]) (by simp [Place.owner])
    (by simp [hown, Place.final]) (fun _ _ => rfl) ?_ rfl
  refine ⟨place_update hm.pusher (by simp [Pc.pushing]) fun b hb => ?_, nofun, nofun,
    place_update hm.popper (by simp [Pc.popped]) fun b hb => ?_⟩
  · simp [Pc.pushing, Ne.symm hb]
  · simp [Pc.popped]

/-- The successor read after the load is still the head's: no address is allocated twice. -/
theorem pop_cas (hs : Safe own l m pc) (ht : pc t = .pop_cas m.head n) :
    l = m.head :: l.tail ∧ Safe (Function.update own m.head (.popper t)) l.tail { m with head := n }
      (Function.update pc t (.take m.head)) := by
  have hm := hs.mine t
  have haim := hs.aimed t
  rw [ht] at hm haim
  have hnull : m.head ≠ null := hs.owned.ne_null (haim.ne_fresh rfl)
  have hown : own m.head = .linked := hs.owned.toChain.head_linked hnull
  obtain ⟨l', rfl, howned⟩ := hs.owned.pop_cas (t := t) hnull (haim.swings m.head n rfl)
  refine ⟨rfl, hs.give howned (by simp [hown, Place.owner])
    (fun u hu => by simp [Place.owner, Ne.symm hu]) (by simp [Place.final]) (fun _ _ => rfl) ?_ rfl⟩
  refine ⟨place_update hm.pusher (by simp [Pc.pushing]) fun b hb => ?_, nofun, nofun,
    place_update hm.popper (by simp [Pc.popped]) fun b hb => ?_⟩
  · simp [Pc.pushing]
  · simp [Pc.popped, Ne.symm hb]

theorem free (hs : Safe own l m pc) {v : UInt32} (ht : pc t = .free a v) (r : Ret) :
    Safe (Function.update own a .freed) l { m with freed := Function.update m.freed a true }
      (Function.update pc t (.ret r)) := by
  have hm := hs.mine t
  rw [ht] at hm
  have hown : own a = .popper t := (hm.popper a).2 rfl
  refine hs.give (hs.owned.free hown) (fun u hu => by simp [hown, Place.owner, Ne.symm hu])
    (by simp [Place.owner]) (by simp [Place.final]) (fun _ _ => rfl) ?_ rfl
  refine ⟨place_update hm.pusher (by simp [Pc.pushing]) fun b hb => ?_, nofun, nofun,
    place_update hm.popper (by simp [Pc.popped]) fun b hb => ?_⟩
  · simp [Pc.pushing]
  · simp [Pc.popped, Ne.symm hb]

/-- **Every move keeps the invariant.** -/
theorem step (hs : Safe own l m pc) (hm : Move m (pc t) m' p) :
    ∃ own', Safe own' ((pc t).relinked m l) m' (Function.update pc t p) := by
  generalize hpc : pc t = q at hm
  have keep (hp : p.pushing = q.pushing) (hl : p.linking = none) (ho : p.popped = q.popped)
      (ha : Aimed own m p) : ∃ own', Safe own' l m (Function.update pc t p) :=
    ⟨own, hs.setPc (hpc ▸ hp) (by simp [hl]) (hpc ▸ ho) ha⟩
  cases hm
  case push_next v a b node hn => exact ⟨_, hs.push_next hpc hn⟩
  case push_cas_ok v a b hh =>
    subst hh
    simp only [Pc.relinked, if_pos]
    exact ⟨_, hs.push_cas hpc⟩
  case pop_cas_ok b n hh =>
    subst hh
    simp only [Pc.relinked, if_pos]
    exact ⟨_, (hs.pop_cas hpc).2⟩
  case free a v => exact ⟨_, hs.free hpc _⟩
  case push_cas_fail v a b hh | pop_cas_fail b n hh =>
    simp only [Pc.relinked, if_neg hh]
    exact keep rfl rfl rfl (.of_none rfl)
  case pop_load hh =>
    refine keep rfl rfl rfl ⟨fun a ha => ?_, nofun⟩
    cases ha
    rw [hs.owned.toChain.head_linked hh]
    rfl
  case read_next a node hn =>
    refine keep rfl rfl rfl ⟨fun b hb => ?_, fun b n hb => ?_⟩
    · cases hb
      exact (hs.aimed t).final a (by rw [hpc]; rfl)
    · cases hb
      simp [Mem.next, hn]
  all_goals exact keep rfl rfl rfl (.of_none rfl)

end Safe

namespace Stack

variable {s s' : Stack} {act : Act} {env : History Stack Act → Stack → Act → Prop}
  {tr : History Stack Act}

def relinked (s : Stack) (l : List Addr) : Act → List Addr
  | .step t => (s.pc t).relinked s.mem l
  | _ => l

theorem safe_act (hs : Safe own l s.mem s.pc) (hst : s.step act = some s') :
    ∃ own', Safe own' (s.relinked l act) s'.mem s'.pc := by
  cases act_cases hst
  case push hp | pop hp =>
    exact ⟨own, hs.setPc (by rw [hp]; rfl) nofun (by rw [hp]; rfl) (.of_none rfl)⟩
  case alloc t v a hp ha hn => exact ⟨_, hs.alloc hp ha hn⟩
  case step t m p hm => exact hs.step hm

theorem safe (h : Run Stack.step env .new tr s) : ∃ own l, Safe own l s.mem s.pc := by
  refine h.inv (P := fun s => ∃ own l, Safe own l s.mem s.pc) ⟨_, _, .new⟩ ?_
  rintro s a s' ⟨own, l, hs⟩ hst
  obtain ⟨own', hs'⟩ := safe_act hs hst
  exact ⟨own', _, hs'⟩

end Stack

end Samsara.Treiber
