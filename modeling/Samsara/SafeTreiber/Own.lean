import Mathlib.Data.List.Nodup
import Samsara.Lib.Linked
import Samsara.SafeTreiber.Publish

/-!
# Where a node is

A node is private to the `push` that allocated it, linked from `head`, owned by the `pop`
that took it off, in the retired queue, or free: `own` assigns a `Place` to every address,
so one address is never in two places. `Owned` ties the places to the shared memory,
`Mine` to what each thread is doing.

`Guarded` is what hazard pointers are for: a protected node has been linked and is not
freed, its successor is the one `pop` has read, and a scan under way has found every
retired node that is protected in a slot it has passed.
-/

namespace Samsara.SafeTreiber

inductive Place where
  | free
  /-- allocated by the `push` of `t`, not linked yet -/
  | pusher (t : Nat)
  | linked
  /-- taken off the list by the `pop` of `t`, not retired yet -/
  | popper (t : Nat)
  | retired
  deriving DecidableEq

namespace Place

def owner : Place → Option Nat
  | pusher t | popper t => some t
  | _ => none

/-- The node has been linked and is not freed: another thread may hold its address. -/
def shared : Place → Bool
  | linked | popper _ | retired => true
  | _ => false

theorem ne_of_owner {x : Place} {t : Nat} (h : x.owner ≠ some t) : x ≠ pusher t ∧ x ≠ popper t :=
  ⟨by rintro rfl; exact h rfl, by rintro rfl; exact h rfl⟩

end Place

structure Owned (own : Addr → Place) (l : List Addr) (m : Mem) : Prop where
  links : Linked m.next null m.head l
  nodup : l.Nodup
  linked : ∀ a, own a = .linked ↔ a ∈ l
  free : ∀ a, own a = .free ↔ m.heap a = none
  null_free : own null = .free
  retired : ∀ a, own a = .retired ↔ a ∈ m.retired
  retired_nodup : m.retired.Nodup

/-- The nodes private to `t`, whose program counter is `q`. -/
structure Mine (own : Addr → Place) (m : Mem) (t : Nat) (q : Pc) : Prop where
  pusher : ∀ a, own a = .pusher t ↔ ∃ v, q.pushing = some (v, a)
  value : ∀ v a, q.pushing = some (v, a) → (m.heap a).map Node.value = some v
  linking : ∀ a h, q.linking = some (a, h) → m.next a = some h
  popper : ∀ a, own a = .popper t ↔ q.popped = some a

variable {own : Addr → Place} {l : List Addr} {m m' : Mem} {a h n : Addr} {t : Nat} {y : Place}

/-! ## The shared memory -/

namespace Owned

theorem new : Owned (fun _ => .free) [] .new where
  links := .nil
  nodup := .nil
  linked a := by simp
  free a := by simp [Mem.new]
  null_free := rfl
  retired a := by simp [Mem.new]
  retired_nodup := .nil

theorem congr (ho : Owned own l m) (hh : m'.heap = m.heap) (hd : m'.head = m.head)
    (hr : m'.retired = m.retired) : Owned own l m' where
  links := by
    have hn : m'.next = m.next := by
      funext x
      simp only [Mem.next, hh]
    rw [hn, hd]
    exact ho.links
  nodup := ho.nodup
  linked := ho.linked
  free := by simpa only [hh] using ho.free
  null_free := ho.null_free
  retired := by simpa only [hr] using ho.retired
  retired_nodup := hr ▸ ho.retired_nodup

theorem ne_null (ho : Owned own l m) (ha : own a ≠ .free) : a ≠ null := by
  rintro rfl
  exact ha ho.null_free

theorem null_update (ho : Owned own l m) (ha : a ≠ null) :
    Function.update own a y null = .free := by
  rw [Function.update_of_ne (Ne.symm ha)]
  exact ho.null_free

theorem retired_of_getElem? (ho : Owned own l m) {k : Nat} (hk : m.retired[k]? = some a) :
    own a = .retired :=
  (ho.retired a).2 (List.mem_of_getElem? hk)

theorem chain (ho : Owned own l m) : Chain m.next null m.head own .linked l :=
  ⟨ho.links, ho.nodup, ho.linked⟩

/-- A node that is not linked is written, or freed, and moves to another place. -/
theorem chain_write (ho : Owned own l m) (ha : own a ≠ .linked) (hy : y ≠ .linked)
    (x : Option Node) :
    Chain (Mem.next { m with heap := Function.update m.heap a x }) null m.head
      (Function.update own a y) .linked l :=
  ho.chain.move ha hy fun b hb => by simp only [Mem.next, Function.update_of_ne hb]

theorem write (ho : Owned own l m) (ha : a ≠ null)
    (hp : own a = .free ∨ own a = .pusher t) (node : Node) :
    Owned (Function.update own a (.pusher t)) l
      { m with heap := Function.update m.heap a (some node) } := by
  have hl : own a ≠ .linked := by rcases hp with hp | hp <;> simp [hp]
  have hr : own a ≠ .retired := by rcases hp with hp | hp <;> simp [hp]
  have hc := ho.chain_write (y := .pusher t) hl (by simp) (some node)
  exact {
    links := hc.links
    nodup := hc.nodup
    linked := hc.linked
    free := place_update ho.free (by simp) fun b hb => by simp [hb]
    null_free := ho.null_update ha
    retired := place_move ho.retired hr (by simp)
    retired_nodup := ho.retired_nodup }

theorem push_cas (ho : Owned own l m) (ha : own a = .pusher t) (hn : m.next a = some m.head) :
    Owned (Function.update own a .linked) (a :: l) { m with head := a } := by
  have hnull : a ≠ null := ho.ne_null (by simp [ha])
  have hc := ho.chain.push hnull (by simp [ha]) hn
  exact {
    links := hc.links
    nodup := hc.nodup
    linked := hc.linked
    free := place_move ho.free (by simp [ha]) (by simp)
    null_free := ho.null_update hnull
    retired := place_move ho.retired (by simp [ha]) (by simp)
    retired_nodup := ho.retired_nodup }

/-- The successor `pop` has read is the rest of the list: no ABA. -/
theorem pop_cas (ho : Owned own l m) (hh : m.head ≠ null) (hn : m.next m.head = some n) :
    ∃ l', l = m.head :: l' ∧
      Owned (Function.update own m.head (.popper t)) l' { m with head := n } := by
  have hp : own m.head = .linked := ho.chain.head_linked hh
  obtain ⟨l', rfl, hc⟩ := ho.chain.pop (y := .popper t) hh (by simp) hn
  exact ⟨l', rfl, {
    links := hc.links
    nodup := hc.nodup
    linked := hc.linked
    free := place_move ho.free (by simp [hp]) (by simp)
    null_free := ho.null_update hh
    retired := place_move ho.retired (by simp [hp]) (by simp)
    retired_nodup := ho.retired_nodup }⟩

theorem retire (ho : Owned own l m) (hp : own a = .popper t) :
    Owned (Function.update own a .retired) l { m with retired := m.retired ++ [a] } := by
  have hr : a ∉ m.retired := by simp [← ho.retired, hp]
  exact {
    links := ho.links
    nodup := ho.nodup
    linked := place_move ho.linked (by simp [hp]) (by simp)
    free := place_move ho.free (by simp [hp]) (by simp)
    null_free := ho.null_update (ho.ne_null (by simp [hp]))
    retired := place_update ho.retired (by simp) fun b hb => by simp [hb]
    retired_nodup := by
      rw [← List.concat_eq_append]
      exact ho.retired_nodup.concat hr }

theorem retain (ho : Owned own l m) {k : Nat} (hk : m.retired[k]? = some a) :
    Owned (Function.update own a .free) l
      { m with heap := Function.update m.heap a none, retired := m.retired.eraseIdx k } := by
  obtain ⟨hlt, rfl⟩ := List.getElem?_eq_some_iff.1 hk
  have hp : own m.retired[k] = .retired := ho.retired_of_getElem? hk
  have hc := ho.chain_write (a := m.retired[k]) (y := .free) (by simp [hp]) (by simp) none
  exact {
    links := hc.links
    nodup := hc.nodup
    linked := hc.linked
    free := place_update ho.free (by simp) fun b hb => by simp [hb]
    null_free := ho.null_update (ho.ne_null (by simp [hp]))
    retired := by
      rw [← ho.retired_nodup.erase_getElem k hlt]
      refine place_update ho.retired ?_ fun b hb => ?_
      · simp [ho.retired_nodup.mem_erase_iff]
      · simp [ho.retired_nodup.mem_erase_iff, hb]
    retired_nodup := ho.retired_nodup.eraseIdx k }

end Owned

/-! ## The nodes private to a thread -/

namespace Mine

variable {u : Nat} {q p : Pc}

theorem new : Mine (fun _ => .free) .new t .idle :=
  ⟨by simp [Pc.pushing], (fun _ _ hq => nomatch hq), (fun _ _ hq => nomatch hq),
    by simp [Pc.popped]⟩

theorem congr (hm : Mine own m t q) (hh : m'.heap = m.heap) (hp : p.pushing = q.pushing)
    (hl : ∀ x, p.linking = some x → q.linking = some x) (ho : p.popped = q.popped) :
    Mine own m' t p where
  pusher := by simpa only [hp] using hm.pusher
  value := by simpa only [hp, hh] using hm.value
  linking a h hq := by
    simp only [Mem.next, hh]
    exact hm.linking a h (hl _ hq)
  popper := by simpa only [ho] using hm.popper

theorem move (hm : Mine own m u q) (hx : (own a).owner ≠ some u) (hy : y.owner ≠ some u)
    (hh : ∀ b, b ≠ a → m'.heap b = m.heap b) : Mine (Function.update own a y) m' u q := by
  have hpush : ∀ v b, q.pushing = some (v, b) → b ≠ a := by
    rintro v b hq rfl
    rw [(hm.pusher b).2 ⟨v, hq⟩] at hx
    exact hx rfl
  have hlink : ∀ b h, q.linking = some (b, h) → b ≠ a := by
    intro b h hq
    cases q <;> cases hq
    exact hpush _ b rfl
  have hx := Place.ne_of_owner hx
  have hy := Place.ne_of_owner hy
  refine ⟨place_move hm.pusher hx.1 hy.1, fun v b hq => ?_, fun b h hq => ?_,
    place_move hm.popper hx.2 hy.2⟩
  · rw [hh b (hpush v b hq)]
    exact hm.value v b hq
  · simp only [Mem.next, hh b (hlink b h hq)]
    exact hm.linking b h hq

theorem push_alloc {v : UInt32} (hm : Mine own m t (.push_alloc v)) :
    Mine (Function.update own a (.pusher t))
      { m with heap := Function.update m.heap a (some ⟨v, null⟩) } t (.push_load v a) where
  pusher := place_update hm.pusher (by simp [Pc.pushing]) fun b hb => by
    simp [Pc.pushing, Ne.symm hb]
  value v' b hq := by
    cases hq
    simp
  linking b h hq := nomatch hq
  popper := place_update hm.popper (by simp [Pc.popped]) fun b hb => by simp [Pc.popped]

theorem push_next {v : UInt32} {node : Node} (hm : Mine own m t (.push_next v a h))
    (hn : m.heap a = some node) :
    Mine (Function.update own a (.pusher t))
      { m with heap := Function.update m.heap a (some { node with next := h }) } t
      (.push_cas v a h) where
  pusher := place_update hm.pusher (by simp [Pc.pushing]) fun b hb => by simp [Pc.pushing]
  value v' b hq := by
    have hv := hm.value v a rfl
    cases hq
    simpa [hn] using hv
  linking b h' hq := by
    cases hq
    simp [Mem.next]
  popper := place_update hm.popper (by simp [Pc.popped]) fun b hb => by simp [Pc.popped]

theorem push_cas {v : UInt32} (hm : Mine own m t (.push_cas v a h)) (r : Ret) :
    Mine (Function.update own a .linked) m' t (.ret r) where
  pusher := place_update hm.pusher (by simp [Pc.pushing]) fun b hb => by
    simp [Pc.pushing, Ne.symm hb]
  value v' b hq := nomatch hq
  linking b h' hq := nomatch hq
  popper := place_update hm.popper (by simp [Pc.popped]) fun b hb => by simp [Pc.popped]

theorem pop_cas {i : Nat} (hm : Mine own m t (.pop_cas i a n)) :
    Mine (Function.update own a (.popper t)) m' t (.read_value i a) where
  pusher := place_update hm.pusher (by simp [Pc.pushing]) fun b hb => by simp [Pc.pushing]
  value v' b hq := nomatch hq
  linking b h' hq := nomatch hq
  popper := place_update hm.popper (by simp [Pc.popped]) fun b hb => by
    simp [Pc.popped, Ne.symm hb]

theorem retire {v : UInt32} (hm : Mine own m t (.retire_push a v)) (hp : p.pushing = none)
    (hl : p.linking = none) (ho : p.popped = none) :
    Mine (Function.update own a .retired) m' t p where
  pusher := place_update hm.pusher (by simp [hp]) fun b hb => by
    simp only [hp]
    simp [Pc.pushing]
  value v' b hq := by simp [hp] at hq
  linking b h' hq := by simp [hl] at hq
  popper := place_update hm.popper (by simp [ho]) fun b hb => by
    simp only [ho]
    simp [Pc.popped, Ne.symm hb]

end Mine

/-! ## What hazard pointers guard -/

structure Guarded (own : Addr → Place) (m : Mem) (pc : Nat → Pc) : Prop where
  shared : ∀ t i a, (pc t).protects = some (i, a) → (own a).shared = true
  swings : ∀ t a n, (pc t).swinging = some (a, n) → m.next a = some n
  scanned : ∀ t j out u i a, (pc t).scanned = some (j, out) → (pc u).protects = some (i, a) →
    own a = .retired → i < j → a ∈ out

theorem Pc.protects_of_swinging {q : Pc} (hq : q.swinging = some (a, n)) :
    ∃ i, q.protects = some (i, a) := by
  cases q <;> cases hq
  exact ⟨_, rfl⟩

theorem Pc.critical_of_scanned {q : Pc} {x : Nat × List Addr} (hq : q.scanned = some x) :
    q.critical = true := by
  cases q <;> simp_all [scanned, critical]

namespace Guarded

variable {pc : Nat → Pc} {p : Pc} {k : Nat} {out : List Addr} {r : Ret}

theorem new : Guarded (fun _ => .free) .new fun _ => .idle :=
  ⟨(fun _ _ _ ht => nomatch ht), (fun _ _ _ ht => nomatch ht),
    (fun _ _ _ _ _ _ ht => nomatch ht)⟩

theorem congr (hg : Guarded own m pc) (hh : m'.heap = m.heap) : Guarded own m' pc where
  shared := hg.shared
  swings := by simpa only [Mem.next, hh] using hg.swings
  scanned := hg.scanned

/-- A node nobody can protect moves or is written, or a protected one stays shared. -/
theorem move (hg : Guarded own m pc)
    (hk : (own a).shared = true → y.shared = true ∧ m'.heap a = m.heap a)
    (hr : y = .retired → own a = .retired) (hh : ∀ b, b ≠ a → m'.heap b = m.heap b) :
    Guarded (Function.update own a y) m' pc where
  shared t i b ht := by
    have hb := hg.shared t i b ht
    rcases eq_or_ne b a with rfl | e
    · simpa using (hk hb).1
    · rwa [Function.update_of_ne e]
  swings t b n ht := by
    obtain ⟨i, hp⟩ := Pc.protects_of_swinging ht
    have hheap : m'.heap b = m.heap b := by
      rcases eq_or_ne b a with rfl | e
      · exact (hk (hg.shared t i b hp)).2
      · exact hh b e
    simp only [Mem.next, hheap]
    exact hg.swings t b n ht
  scanned t j out u i b ht hu hb := by
    refine hg.scanned t j out u i b ht hu ?_
    rcases eq_or_ne b a with rfl | e
    · exact hr (by simpa using hb)
    · rwa [Function.update_of_ne e] at hb

theorem setPc (hg : Guarded own m pc)
    (hp : ∀ i a, p.protects = some (i, a) → (own a).shared = true ∧
      (own a = .retired → (pc t).protects = some (i, a)))
    (hs : ∀ a n, p.swinging = some (a, n) → m.next a = some n)
    (hc : ∀ j out, p.scanned = some (j, out) → ∀ u i a, (pc u).protects = some (i, a) →
      own a = .retired → i < j → a ∈ out) : Guarded own m (Function.update pc t p) where
  shared := (Function.forall_update_iff pc
    (p := fun _ q => ∀ i a, q.protects = some (i, a) → (own a).shared = true)).2
      ⟨fun i a ht => (hp i a ht).1, fun u _ => hg.shared u⟩
  swings := (Function.forall_update_iff pc
    (p := fun _ q => ∀ a n, q.swinging = some (a, n) → m.next a = some n)).2
      ⟨hs, fun u _ => hg.swings u⟩
  scanned u j out w i a hu hw ha hlt := by
    have hw' : (pc w).protects = some (i, a) := by
      rcases eq_or_ne w t with rfl | e
      · rw [Function.update_self] at hw
        exact (hp i a hw).2 ha
      · rwa [Function.update_of_ne e] at hw
    rcases eq_or_ne u t with rfl | e
    · rw [Function.update_self] at hu
      exact hc j out hu w i a hw' ha hlt
    · rw [Function.update_of_ne e] at hu
      exact hg.scanned u j out w i a hu hw' ha hlt

theorem mono (hg : Guarded own m pc) (hp : ∀ x, p.protects = some x → (pc t).protects = some x)
    (hs : ∀ x, p.swinging = some x → (pc t).swinging = some x)
    (hc : ∀ x, p.scanned = some x → (pc t).scanned = some x) :
    Guarded own m (Function.update pc t p) :=
  hg.setPc (fun i a ht => ⟨hg.shared t i a (hp _ ht), fun _ => hp _ ht⟩)
    (fun a n ht => hg.swings t a n (hs _ ht)) fun j out ht u i a =>
      hg.scanned t j out u i a (hc _ ht)

/-- A node is retired while no scan has passed a slot. -/
theorem retire (hg : Guarded own m pc) (hh : m'.heap = m.heap)
    (hc : ∀ u j out, (pc u).scanned = some (j, out) → j = 0) :
    Guarded (Function.update own a .retired) m' pc where
  shared t i b ht := by
    rcases eq_or_ne b a with rfl | e
    · rw [Function.update_self]
      rfl
    · rw [Function.update_of_ne e]
      exact hg.shared t i b ht
  swings := by simpa only [Mem.next, hh] using hg.swings
  scanned t j out u i b ht hu hb hlt := by
    obtain rfl := hc t j out ht
    omega

/-- What `retain` frees nobody protects: the scan has passed every slot. -/
theorem not_protected (hg : Guarded own m pc) (ht : pc t = .retain out k r) (ha : own a = .retired)
    (ho : a ∉ out) {u i : Nat} (hi : i < MAX_HAZARDS) : (pc u).protects ≠ some (i, a) := fun hu =>
  ho (hg.scanned t MAX_HAZARDS out u i a (by rw [ht]; rfl) hu ha hi)

theorem retain (hg : Guarded own m pc) (hn : ∀ u i, (pc u).protects ≠ some (i, a))
    (hh : ∀ b, b ≠ a → m'.heap b = m.heap b) :
    Guarded (Function.update own a .free) m' pc where
  shared t i b ht := by
    have e : b ≠ a := fun e => hn t i (e ▸ ht)
    rw [Function.update_of_ne e]
    exact hg.shared t i b ht
  swings t b n ht := by
    obtain ⟨i, hp⟩ := Pc.protects_of_swinging ht
    have e : b ≠ a := fun e => hn t i (e ▸ hp)
    simp only [Mem.next, hh b e]
    exact hg.swings t b n ht
  scanned t j out u i b ht hu hb := by
    have e : b ≠ a := fun e => hn u i (e ▸ hu)
    rw [Function.update_of_ne e] at hb
    exact hg.scanned t j out u i b ht hu hb

end Guarded

end Samsara.SafeTreiber
