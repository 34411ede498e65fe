import Samsara.SafeTreiber.Own

/-!
# The invariant of the stack

`Safe` puts the invariants together, and `Safe.step` carries them over a step: the moves
that touch a node are one case each, every other move leaves places and list alone.
`relinked` is what a compare-and-swap on `head` makes of the list.
-/

namespace Samsara.SafeTreiber

open StepSys

/-- The invariants about nodes, for the places `own` and the list `l`. -/
structure Nodes (own : Addr → Place) (l : List Addr) (m : Mem) (pc : Nat → Pc) : Prop where
  owned : Owned own l m
  mine : ∀ t, Mine own m t (pc t)
  guarded : Guarded own m pc

structure Safe (own : Addr → Place) (l : List Addr) (m : Mem) (pc : Nat → Pc) : Prop
    extends Nodes own l m pc where
  published : Published m pc
  settled : Settled m pc
  /-- no thread has read a node that was not allocated -/
  sound : ∀ t, pc t ≠ .fault

/-- The list after a step: `push` and `pop` change it when their compare-and-swap succeeds. -/
def Pc.relinked (m : Mem) (l : List Addr) : Pc → List Addr
  | push_cas _ new head => if m.head = head then new :: l else l
  | pop_cas _ head _ => if m.head = head then l.tail else l
  | _ => l

variable {own : Addr → Place} {l : List Addr} {m m' : Mem} {pc : Nat → Pc} {t : Nat} {p : Pc}
  {mm : MemModel} {i : Nat} {a : Addr}

namespace Nodes

theorem congr (h : Nodes own l m pc) (hh : m'.heap = m.heap) (hd : m'.head = m.head)
    (hr : m'.retired = m.retired) : Nodes own l m' pc :=
  ⟨h.owned.congr hh hd hr, fun u => (h.mine u).congr hh rfl (fun _ hx => hx) rfl,
    h.guarded.congr hh⟩

theorem setPc (h : Nodes own l m pc) (hp : p.pushing = (pc t).pushing)
    (hl : ∀ x, p.linking = some x → (pc t).linking = some x) (ho : p.popped = (pc t).popped)
    (hg : Guarded own m (Function.update pc t p)) : Nodes own l m (Function.update pc t p) :=
  ⟨h.owned, (Function.forall_update_iff pc (p := fun u q => Mine own m u q)).2
    ⟨(h.mine t).congr rfl hp hl ho, fun u _ => h.mine u⟩, hg⟩

theorem mine_setPc {own' : Addr → Place} (ht : Mine own' m' t p)
    (hu : ∀ u, u ≠ t → Mine own' m' u (pc u)) (u : Nat) :
    Mine own' m' u (Function.update pc t p u) :=
  (Function.forall_update_iff pc (p := fun u q => Mine own' m' u q)).2 ⟨ht, hu⟩ u

theorem alloc (h : Nodes own l m pc) {v : UInt32} (ht : pc t = .push_alloc v) (ha : a ≠ null)
    (hn : m.heap a = none) :
    Nodes (Function.update own a (.pusher t)) l
      { m with heap := Function.update m.heap a (some ⟨v, null⟩) }
      (Function.update pc t (.push_load v a)) := by
  have hfree : own a = .free := (h.owned.free a).2 hn
  have hmine : Mine own m t (.push_alloc v) := ht ▸ h.mine t
  refine ⟨h.owned.write ha (.inl hfree) _, mine_setPc hmine.push_alloc fun u hu => ?_, ?_⟩
  · exact (h.mine u).move (by simp [hfree, Place.owner]) (by simp [Place.owner, Ne.symm hu])
      fun b hb => Function.update_of_ne hb ..
  · have hg : Guarded (Function.update own a (.pusher t))
        { m with heap := Function.update m.heap a (some ⟨v, null⟩) } pc :=
      h.guarded.move (by simp [hfree, Place.shared]) (by simp) fun b hb =>
        Function.update_of_ne hb ..
    exact hg.mono (by simp [Pc.protects]) (by simp [Pc.swinging]) (by simp [Pc.scanned])

theorem push_next (h : Nodes own l m pc) {v : UInt32} {b : Addr} {node : Node}
    (ht : pc t = .push_next v a b) (hn : m.heap a = some node) :
    Nodes (Function.update own a (.pusher t)) l
      { m with heap := Function.update m.heap a (some { node with next := b }) }
      (Function.update pc t (.push_cas v a b)) := by
  have hmine : Mine own m t (.push_next v a b) := ht ▸ h.mine t
  have hown : own a = .pusher t := (hmine.pusher a).2 ⟨v, rfl⟩
  have hnull : a ≠ null := h.owned.ne_null (by simp [hown])
  refine ⟨h.owned.write hnull (.inr hown) _, mine_setPc (hmine.push_next hn) fun u hu => ?_, ?_⟩
  · exact (h.mine u).move (by simp [hown, Place.owner, Ne.symm hu])
      (by simp [Place.owner, Ne.symm hu]) fun b hb => Function.update_of_ne hb ..
  · have hg : Guarded (Function.update own a (.pusher t))
        { m with heap := Function.update m.heap a (some { node with next := b }) } pc :=
      h.guarded.move (by simp [hown, Place.shared]) (by simp) fun b hb =>
        Function.update_of_ne hb ..
    exact hg.mono (by simp [Pc.protects]) (by simp [Pc.swinging]) (by simp [Pc.scanned])

theorem push_cas (h : Nodes own l m pc) {v : UInt32} (ht : pc t = .push_cas v a m.head) :
    Nodes (Function.update own a .linked) (a :: l) { m with head := a }
      (Function.update pc t (.ret .pushed)) := by
  have hmine : Mine own m t (.push_cas v a m.head) := ht ▸ h.mine t
  have hown : own a = .pusher t := (hmine.pusher a).2 ⟨v, rfl⟩
  have hnext : m.next a = some m.head := hmine.linking a m.head rfl
  refine ⟨h.owned.push_cas hown hnext, mine_setPc (hmine.push_cas _) fun u hu => ?_, ?_⟩
  · exact (h.mine u).move (by simp [hown, Place.owner, Ne.symm hu]) (by simp [Place.owner])
      fun _ _ => rfl
  · have hg : Guarded (Function.update own a .linked) { m with head := a } pc :=
      h.guarded.move (by simp [hown, Place.shared]) (by simp) fun _ _ => rfl
    exact hg.mono (by simp [Pc.protects]) (by simp [Pc.swinging]) (by simp [Pc.scanned])

/-- The node has been protected since it was verified: its successor is the one read then. -/
theorem pop_cas (h : Nodes own l m pc) {n : Addr} (ht : pc t = .pop_cas i m.head n)
    (hh : m.head ≠ null) :
    Nodes (Function.update own m.head (.popper t)) l.tail { m with head := n }
      (Function.update pc t (.read_value i m.head)) ∧ l = m.head :: l.tail := by
  have hmine : Mine own m t (.pop_cas i m.head n) := ht ▸ h.mine t
  have hnext : m.next m.head = some n := h.guarded.swings t m.head n (by rw [ht]; rfl)
  obtain ⟨l', rfl, howned⟩ := h.owned.pop_cas (t := t) hh hnext
  have hown : own m.head = .linked := (h.owned.linked _).2 List.mem_cons_self
  refine ⟨⟨howned, mine_setPc hmine.pop_cas fun u hu => ?_, ?_⟩, rfl⟩
  · exact (h.mine u).move (by simp [hown, Place.owner]) (by simp [Place.owner, Ne.symm hu])
      fun _ _ => rfl
  · have hg : Guarded (Function.update own m.head (.popper t)) { m with head := n } pc :=
      h.guarded.move (by simp [Place.shared]) (by simp) fun _ _ => rfl
    exact hg.mono (by simp [Pc.protects]) (by simp [Pc.swinging]) (by simp [Pc.scanned])

/-- The mutex keeps scans and retirements apart. -/
theorem retire (h : Nodes own l m pc) {v : UInt32} (ht : pc t = .retire_push a v)
    (hc : ∀ u, u ≠ t → (pc u).critical = false) (hp : p.pushing = none) (hl : p.linking = none)
    (ho : p.popped = none) (hpr : p.protects = none) (hsw : p.swinging = none)
    (hz : ∀ j out, p.scanned = some (j, out) → j = 0) :
    Nodes (Function.update own a .retired) l { m with retired := m.retired ++ [a] }
      (Function.update pc t p) := by
  have hmine : Mine own m t (.retire_push a v) := ht ▸ h.mine t
  have hown : own a = .popper t := (hmine.popper a).2 rfl
  have hg : Guarded own m (Function.update pc t p) := by
    refine h.guarded.setPc (by simp [hpr]) (by simp [hsw]) fun j out hj u i a _ _ hlt => ?_
    obtain rfl := hz j out hj
    omega
  refine ⟨h.owned.retire hown, mine_setPc (hmine.retire hp hl ho) fun u hu => ?_,
    hg.retire rfl fun u j out hj => ?_⟩
  · exact (h.mine u).move (by simp [hown, Place.owner, Ne.symm hu]) (by simp [Place.owner])
      fun _ _ => rfl
  · rcases eq_or_ne u t with rfl | e
    · rw [Function.update_self] at hj
      exact hz j out hj
    · rw [Function.update_of_ne e] at hj
      have hcu := hc u e
      rw [Pc.critical_of_scanned hj] at hcu
      cases hcu

theorem retain (h : Nodes own l m pc) {k : Nat} (hk : m.retired[k]? = some a)
    (hn : ∀ u i, (pc u).protects ≠ some (i, a)) :
    Nodes (Function.update own a .free) l
      { m with heap := Function.update m.heap a none, retired := m.retired.eraseIdx k } pc := by
  have hown : own a = .retired := h.owned.retired_of_getElem? hk
  refine ⟨h.owned.retain hk, fun u => ?_, ?_⟩
  · exact (h.mine u).move (by simp [hown, Place.owner]) (by simp [Place.owner]) fun b hb =>
      Function.update_of_ne hb ..
  · exact h.guarded.retain hn fun b hb => Function.update_of_ne hb ..

end Nodes

namespace Safe

theorem new : Safe (fun _ => .free) [] .new fun _ => .idle where
  owned := .new
  mine _ := .new
  guarded := .new
  published := .new
  settled := .new
  sound := by simp

theorem sound_setPc (h : Safe own l m pc) (hp : p ≠ .fault) (u : Nat) :
    Function.update pc t p u ≠ .fault :=
  (Function.forall_update_iff pc (p := fun _ q => q ≠ .fault)).2 ⟨hp, fun u _ => h.sound u⟩ u

theorem protected_heap (h : Safe own l m pc) (ht : (pc t).protects = some (i, a)) :
    m.heap a ≠ none := by
  intro hn
  have hs := h.guarded.shared t i a ht
  rw [(h.owned.free a).2 hn] at hs
  cases hs

theorem popped_heap (h : Safe own l m pc) (ht : (pc t).popped = some a) : m.heap a ≠ none := by
  intro hn
  have hp := ((h.mine t).popper a).2 ht
  rw [(h.owned.free a).2 hn] at hp
  cases hp

theorem pushing_heap (h : Safe own l m pc) {v : UInt32} (ht : (pc t).pushing = some (v, a)) :
    m.heap a ≠ none := by
  intro hn
  have hp := ((h.mine t).pusher a).2 ⟨v, ht⟩
  rw [(h.owned.free a).2 hn] at hp
  cases hp

/-- No step of a thread reads a node that is not allocated. -/
theorem ne_fault (h : Safe own l m pc) (hm : Move mm t m (pc t) m' p) : p ≠ .fault := by
  rintro rfl
  generalize hpc : pc t = q at hm
  cases hm
  case push_next_fault v a b hn => exact h.pushing_heap (v := v) (by rw [hpc]; rfl) hn
  case read_next_fault i a hn => exact h.protected_heap (i := i) (by rw [hpc]; rfl) hn
  case read_value_fault i a hn => exact h.popped_heap (by rw [hpc]; rfl) hn

/-- What a scan sees of a protected node: its slot in use, and its address in it. -/
theorem view_protected (h : Safe own l m pc) (hs : (pc t).settled = true) {u : Nat}
    (hu : (pc u).protects = some (i, a)) : i < MAX_HAZARDS ∧ m.view t i = ⟨true, a⟩ := by
  rw [Mem.view_of_nil (h.settled.empty t hs)]
  exact h.published.in_memory h.settled hu

theorem scan (h : Safe own l m pc) {j : Nat} {out out' : List Addr}
    (ht : (pc t).scanned = some (j, out)) (hp : p.protects = none) (hs : p.swinging = none)
    (hc : p.scanned = some (j + 1, out')) (hsub : ∀ x ∈ out, x ∈ out')
    (hj : ∀ u x, (pc u).protects = some (j, x) → x ∈ out') :
    Guarded own m (Function.update pc t p) := by
  refine h.guarded.setPc (by simp [hp]) (by simp [hs]) fun j' out'' he u i a hu ha hlt => ?_
  rw [hc] at he
  cases he
  rcases Nat.lt_succ_iff_lt_or_eq.1 hlt with hlt | rfl
  · exact hsub a (h.guarded.scanned t j out u i a ht hu ha hlt)
  · exact hj u a hu

theorem nodes_step (h : Safe own l m pc) (hm : Move mm t m (pc t) m' p) :
    ∃ own', Nodes own' ((pc t).relinked m l) m' (Function.update pc t p) := by
  have hf := h.ne_fault hm
  generalize hpc : pc t = q at hm
  have hset : Pc.critical q = true → (pc t).settled = true := fun hq =>
    Pc.settled_of_critical (hpc ▸ hq)
  cases hm
  case push_next_fault | read_next_fault | read_value_fault => exact absurd rfl hf
  case push_next v a b node hn => exact ⟨_, h.push_next hpc hn⟩
  case push_cas_ok v a b hh =>
    subst hh
    simp only [Pc.relinked, if_pos]
    exact ⟨_, (h.push_cas hpc).congr rfl rfl rfl⟩
  case pop_cas_ok i b n hh =>
    subst hh
    have hnull : m.head ≠ null := h.published.aimed t m.head (by rw [hpc]; rfl)
    simp only [Pc.relinked, if_pos]
    exact ⟨_, (h.pop_cas hpc hnull).1.congr rfl rfl rfl⟩
  case retire_full a v _ | retire_push a v _ =>
    have hc : ∀ u, u ≠ t → (pc u).critical = false := by
      intro u hu
      by_contra hcu
      exact hu (h.settled.critical_unique (by rw [hpc]; rfl) (by simpa using hcu))
    exact ⟨_, h.retire hpc hc rfl rfl rfl rfl rfl (by simp [Pc.scanned])⟩
  case retain_free out k r a hk ho =>
    have hn : ∀ u i, (pc u).protects ≠ some (i, a) := by
      intro u i hu
      have hown : own a = .retired := h.owned.retired_of_getElem? hk
      have hi := (h.published.in_memory h.settled hu).1
      exact h.guarded.not_protected hpc hown ho hi hu
    have hself : Function.update pc t (.retain out k r) = pc := by
      rw [← hpc, Function.update_eq_self]
    rw [hself]
    exact ⟨_, h.retain hk hn⟩
  case verify_ok i a hh =>
    subst hh
    have hnull : m.head ≠ null := h.published.aimed t m.head (by rw [hpc]; rfl)
    obtain ⟨b, l', rfl, -, -⟩ := h.owned.links.uncons hnull
    have hown : own m.head = .linked := (h.owned.linked _).2 List.mem_cons_self
    refine ⟨own, h.setPc ?_ ?_ ?_ ?_⟩
    · rw [hpc]; rfl
    · simp [Pc.linking]
    · rw [hpc]; rfl
    · refine h.guarded.setPc (fun j b hb => ?_) (by simp [Pc.swinging]) (by simp [Pc.scanned])
      cases hb
      simp [hown, Place.shared]
  case read_next i a node hn =>
    refine ⟨own, h.setPc ?_ ?_ ?_ ?_⟩
    · rw [hpc]; rfl
    · simp [Pc.linking]
    · rw [hpc]; rfl
    · refine h.guarded.setPc (fun j b hb => ?_) (fun b n hb => ?_) (by simp [Pc.scanned])
      · cases hb
        have hb : (pc t).protects = some (i, a) := by rw [hpc]; rfl
        exact ⟨h.guarded.shared t i a hb, fun _ => hb⟩
      · cases hb
        simp [Mem.next, hn]
  case scan_unused i out r hi hu =>
    refine ⟨own, h.setPc (by rw [hpc]; rfl) (by simp [Pc.linking]) (by rw [hpc]; rfl)
      (h.scan (by rw [hpc]; rfl) rfl rfl rfl (fun _ hx => hx) fun u x hx => ?_)⟩
    rw [(h.view_protected (hset rfl) hx).2] at hu
    cases hu
  case scan_ptr i out r =>
    refine ⟨own, h.setPc (by rw [hpc]; rfl) (by simp [Pc.linking]) (by rw [hpc]; rfl)
      (h.scan (by rw [hpc]; rfl) rfl rfl rfl (fun x hx => ?_) fun u x hx => ?_)⟩
    · split
      · exact List.mem_append_left _ hx
      · exact hx
    · have hnull : x ≠ null :=
        h.published.aimed u x (Pc.aimed_of_hazard (Pc.hazard_of_protects hx))
      simp [(h.view_protected (hset rfl) hx).2, hnull]
  case scan_done i out r hi =>
    refine ⟨own, h.setPc (by rw [hpc]; rfl) (by simp [Pc.linking]) (by rw [hpc]; rfl) ?_⟩
    refine h.guarded.setPc (by simp [Pc.protects]) (by simp [Pc.swinging])
      fun j out' hj u k a hu ha hlt => ?_
    cases hj
    exact h.guarded.scanned t i out u k a (by rw [hpc]; rfl) hu ha (by omega)
  case reclaim_lock hl =>
    refine ⟨own, Nodes.congr (m := m) (h.setPc (by rw [hpc]; rfl) (by simp [Pc.linking])
      (by rw [hpc]; rfl) ?_) rfl rfl rfl⟩
    refine h.guarded.setPc (by simp [Pc.protects]) (by simp [Pc.swinging])
      fun j out' hj u k a hu ha hlt => ?_
    cases hj
    omega
  case push_cas_fail v a b hh | pop_cas_fail i b n hh =>
    simp only [Pc.relinked, if_neg hh]
    refine ⟨own, Nodes.congr (m := m) (h.setPc (by rw [hpc]; rfl) (by simp [Pc.linking])
      (by rw [hpc]; rfl) ?_) rfl rfl rfl⟩
    exact h.guarded.mono (by simp [Pc.protects]) (by simp [Pc.swinging]) (by simp [Pc.scanned])
  all_goals
    refine ⟨own, Nodes.congr (m := m) (h.setPc (by rw [hpc]; rfl) (by simp [hpc, Pc.linking])
      (by rw [hpc]; rfl) ?_) (by simp) (by simp) (by simp)⟩
    exact h.guarded.mono (by simp [Pc.protects]) (by simp [Pc.swinging])
      (by simp [hpc, Pc.scanned])

theorem step (h : Safe own l m pc) (hm : Move mm t m (pc t) m' p)
    (hv : ∀ i a, pc t = .verify i a → m.head = a → m.buf t = []) :
    ∃ own', Safe own' ((pc t).relinked m l) m' (Function.update pc t p) := by
  obtain ⟨own', hn⟩ := h.nodes_step hm
  exact ⟨own', {
    toNodes := hn
    published := h.published.step hm
    settled := h.settled.step hm hv
    sound := h.sound_setPc (h.ne_fault hm) }⟩

theorem flush (h : Safe own l m pc) {st : Store} {rest : List Store} (hb : m.buf t = st :: rest) :
    Safe own l (m.flushed t st rest) pc where
  toNodes := h.toNodes.congr rfl rfl rfl
  published := h.published.flush hb
  settled := h.settled.flush hb
  sound := h.sound

theorem alloc (h : Safe own l m pc) {v : UInt32} (ht : pc t = .push_alloc v) (ha : a ≠ null)
    (hn : m.heap a = none) :
    Safe (Function.update own a (.pusher t)) l
      { m with heap := Function.update m.heap a (some ⟨v, null⟩) }
      (Function.update pc t (.push_load v a)) where
  toNodes := h.toNodes.alloc ht ha hn
  published := (h.published.setPc (by simp [Pc.slot]) (by simp [Pc.hazard])
    (by simp [Pc.aimed])).congr rfl rfl
  settled :=
    let hs := h.settled.setPc (t := t) (p := .push_load v a) rfl (by rw [ht]; rfl)
    ⟨hs.empty, hs.lock⟩
  sound := h.sound_setPc (by simp)

end Safe

def Stack.relinked (s : Stack) (l : List Addr) : Stack.Act → List Addr
  | .step t => (s.pc t).relinked s.mem l
  | _ => l

/-- **Every action keeps the invariant**, if hazards are published before `head` is reloaded. -/
theorem Safe.act {s s' : Stack} {a : Stack.Act} (h : Safe own l s.mem s.pc)
    (hs : s.step mm a = some s') (hv : s.PublishesFirst a) :
    ∃ own', Safe own' (s.relinked l a) s'.mem s'.pc := by
  cases Stack.act_cases hs
  case push t v hp | pop t hp | force_reclaim t hp =>
    refine ⟨own, { toNodes := ?_, published := ?_, settled := ?_, sound := ?_ }⟩
    · exact h.setPc (by rw [hp]; rfl) (by simp [Pc.linking]) (by rw [hp]; rfl)
        (h.guarded.mono (by simp [Pc.protects]) (by simp [Pc.swinging]) (by simp [Pc.scanned]))
    · exact h.published.setPc (by simp [Pc.slot]) (by simp [Pc.hazard]) (by simp [Pc.aimed])
    · exact h.settled.setPc rfl (by rw [hp]; rfl)
    · exact h.sound_setPc (by simp)
  case alloc t v a hp ha hn => exact ⟨_, h.alloc hp ha hn⟩
  case step t m p hm => exact h.step hm fun i a hp hh => hv t i a rfl hp hh
  case flush t st rest hb => exact ⟨own, h.flush hb⟩

/-! ## Runs -/

namespace Stack

variable {env : History Stack Act → Stack → Act → Prop} {tr : History Stack Act} {s : Stack}

theorem safe (he : ∀ tr s a, Run (Stack.step mm) env .new tr s → env tr s a → s.PublishesFirst a)
    (h : Run (Stack.step mm) env .new tr s) : ∃ own l, Safe own l s.mem s.pc := by
  refine h.hist (P := fun _ s => ∃ own l, Safe own l s.mem s.pc) ⟨_, _, .new⟩ ?_
  rintro tr s a s' hr ⟨own, l, hsafe⟩ henv hs
  obtain ⟨own', hsafe'⟩ := hsafe.act hs (he tr s a hr henv)
  exact ⟨own', _, hsafe'⟩

/-- Under `sc` every store reaches shared memory at once. -/
theorem buf_sc (h : Run (Stack.step .sc) env .new tr s) (t : Nat) : s.mem.buf t = [] := by
  refine h.inv (P := fun s => ∀ t, s.mem.buf t = []) (fun _ => rfl) ?_ t
  intro s a s' hb hs u
  cases act_cases hs
  case push | pop | force_reclaim | alloc => exact hb u
  case flush t st rest hbt => rw [hb t] at hbt; cases hbt
  case step t m p hm =>
    rcases eq_or_ne u t with rfl | e
    · generalize s.pc u = q at hm
      cases hm <;> first | exact hb u | exact Mem.drain_buf
    · exact (hm.buf_of_ne e).trans (hb u)

theorem publishesFirst_sc (h : Run (Stack.step .sc) env .new tr s) (a : Act) :
    s.PublishesFirst a :=
  fun t _ _ _ _ _ => buf_sc h t

end Stack

/-- A push of thread 0 spans a `pop` of thread 1 and the reclamation of its node: its
compare-and-swap fails once. The next push gets the freed address `1` while thread 1 pops, and
thread 1 has to load `head` again. -/
def overlappingCalls : List Stack.Act := List.flatten
  [[.push 0 7, .alloc 0 1], .replicate 4 (.step 0), [.pop 1], .replicate 4 (.step 1),
    [.push 0 8, .alloc 0 2, .step 0], .replicate 3 (.step 1), [.step 0, .step 0],
    .replicate 7 (.step 1), [.force_reclaim 2], .replicate 70 (.step 2), .replicate 4 (.step 0),
    [.pop 1, .step 1, .step 1, .push 0 9, .alloc 0 1], .replicate 4 (.step 0),
    .replicate 15 (.step 1)]

end Samsara.SafeTreiber
