import Samsara.SafeTreiber.Moves

/-!
# Publishing a hazard

`Published` says who may write which slot: a thread that holds a slot, or still has stores
to it in its buffer, is alone there, and the slot is marked in use in shared memory. So
the stores of other threads reach other slots, and what a thread has published is what it
sees in its slot. `Settled` adds which buffers are empty and who holds the `retired` mutex;
it is kept by every step that reloads `head` with an empty buffer (`PublishesFirst`).
-/

namespace Samsara.SafeTreiber

/-! ## Buffers -/

namespace Mem

variable {mm : MemModel} {m : Mem} {t u : Nat} {st : Store}

@[simp] theorem drain_heap : (m.drain t).heap = m.heap := rfl

@[simp] theorem drain_head : (m.drain t).head = m.head := rfl

@[simp] theorem drain_retired : (m.drain t).retired = m.retired := rfl

@[simp] theorem drain_lock : (m.drain t).lock = m.lock := rfl

@[simp] theorem drain_buf : (m.drain t).buf t = [] := Function.update_self ..

theorem drain_buf_of_ne (h : u ≠ t) : (m.drain t).buf u = m.buf u := Function.update_of_ne h ..

@[simp] theorem store_heap : (m.store mm t st).heap = m.heap := by cases mm <;> rfl

@[simp] theorem store_head : (m.store mm t st).head = m.head := by cases mm <;> rfl

@[simp] theorem store_retired : (m.store mm t st).retired = m.retired := by cases mm <;> rfl

@[simp] theorem store_lock : (m.store mm t st).lock = m.lock := by cases mm <;> rfl

theorem append_buf_of_ne (h : u ≠ t) : (m.append t st).buf u = m.buf u :=
  Function.update_of_ne h ..

theorem store_buf_of_ne (h : u ≠ t) : (m.store mm t st).buf u = m.buf u := by
  cases mm
  · exact (drain_buf_of_ne h).trans (append_buf_of_ne h)
  · exact append_buf_of_ne h

theorem mem_append_buf {st' : Store} (h : st' ∈ (m.append t st).buf u) :
    st' ∈ m.buf u ∨ (u = t ∧ st' = st) := by
  by_cases e : u = t
  · subst e
    simpa [append] using h
  · rw [append_buf_of_ne e] at h
    exact .inl h

theorem view_of_nil (h : m.buf t = []) : m.view t = m.slots := by simp [view, h]

def flushed (m : Mem) (t : Nat) (st : Store) (rest : List Store) : Mem :=
  { m with slots := st.apply m.slots, buf := Function.update m.buf t rest }

def claimed (m : Mem) (i : Nat) : Mem :=
  { m with slots := Function.update m.slots i { m.slots i with in_use := true } }

theorem drain_of_nil (h : m.buf t = []) : m.drain t = m := by
  unfold drain
  rw [view_of_nil h, ← h, Function.update_eq_self]

theorem drain_of_cons {rest : List Store} (h : m.buf t = st :: rest) :
    m.drain t = (m.flushed t st rest).drain t := by
  simp [drain, flushed, view, h]

/-- What every store reaching memory keeps, emptying a buffer keeps. -/
theorem drain_rule {P : Mem → Prop}
    (hf : ∀ m st rest, m.buf t = st :: rest → P m → P (m.flushed t st rest)) (h : P m) :
    P (m.drain t) := by
  generalize hb : m.buf t = b
  induction b generalizing m with
  | nil => rwa [drain_of_nil hb]
  | cons st rest ih =>
    rw [drain_of_cons hb]
    exact ih (hf m st rest hb h) (Function.update_self ..)

/-- A store is one that waits in the buffer, which may have been emptied. -/
theorem store_rule {P : Mem → Prop}
    (hf : ∀ m st rest, m.buf t = st :: rest → P m → P (m.flushed t st rest))
    (h : P (m.append t st)) : P (m.store mm t st) := by
  cases mm
  · exact drain_rule hf h
  · exact h

end Mem

/-! ## Slots and their users -/

namespace Pc

/-- The address `pop` is about to publish or has published. -/
def aimed : Pc → Option Addr
  | protect _ h | verify _ h | read_next _ h | pop_cas _ h _ => some h
  | _ => none

variable {q : Pc} {i : Nat} {h : Addr}

theorem slot_of_hazard (hq : q.hazard = some (i, h)) : q.slot = some i := by
  cases q <;> simp_all [hazard, slot]

theorem aimed_of_hazard (hq : q.hazard = some (i, h)) : q.aimed = some h := by
  cases q <;> simp_all [hazard, aimed]

theorem hazard_of_protects (hq : q.protects = some (i, h)) : q.hazard = some (i, h) := by
  cases q <;> simp_all [hazard, protects]

end Pc

/-- `t` holds slot `i`, or a store of `t` to it has not reached shared memory. -/
def Occupies (m : Mem) (pc : Nat → Pc) (t i : Nat) : Prop :=
  (pc t).slot = some i ∨ ∃ st ∈ m.buf t, st.idx = i

theorem Occupies.of_append {m : Mem} {pc pc' : Nat → Pc} {t u i : Nat} {st : Store}
    (ht : (pc t).slot = some st.idx) (hslot : ∀ j, (pc' u).slot = some j → (pc u).slot = some j)
    (h : Occupies (m.append t st) pc' u i) : Occupies m pc u i := by
  rcases h with hu | ⟨st', hst, hi⟩
  · exact .inl (hslot i hu)
  · rcases Mem.mem_append_buf hst with hst | ⟨rfl, rfl⟩
    · exact .inr ⟨st', hst, hi⟩
    · exact .inl (hi ▸ ht)

structure Published (m : Mem) (pc : Nat → Pc) : Prop where
  exclusive : ∀ t u i, Occupies m pc t i → Occupies m pc u i → t = u
  used : ∀ t i, Occupies m pc t i → (m.slots i).in_use = true
  lt : ∀ t i, (pc t).slot = some i → i < MAX_HAZARDS
  held : ∀ t i, (pc t).slot = some i → ∀ st ∈ m.buf t, ∃ p, st = .ptr i p
  last : ∀ t pre i post, m.buf t = pre ++ .in_use i :: post → post = []
  seen : ∀ t i h, (pc t).hazard = some (i, h) → (m.view t i).ptr = h
  aimed : ∀ t h, (pc t).aimed = some h → h ≠ null

namespace Published

variable {m m' : Mem} {pc : Nat → Pc} {t : Nat} {p : Pc} {i : Nat} {a : Addr}

theorem new : Published .new fun _ => .idle where
  exclusive t u i ht := by simp [Occupies, Mem.new, Pc.slot] at ht
  used t i ht := by simp [Occupies, Mem.new, Pc.slot] at ht
  lt t i ht := nomatch ht
  held t i ht := nomatch ht
  last t pre i post h := by simp [Mem.new] at h
  seen t i h ht := nomatch ht
  aimed t h ht := nomatch ht

theorem congr (h : Published m pc) (hs : m'.slots = m.slots) (hb : m'.buf = m.buf) :
    Published m' pc where
  exclusive := by simpa only [Occupies, hb] using h.exclusive
  used := by simpa only [Occupies, hb, hs] using h.used
  lt := h.lt
  held := by simpa only [hb] using h.held
  last := by simpa only [hb] using h.last
  seen := by simpa only [Mem.view, hb, hs] using h.seen
  aimed := h.aimed

theorem aimed_setPc (h : Published m pc) (ha : ∀ a, p.aimed = some a → a ≠ null) :
    ∀ u a, (Function.update pc t p u).aimed = some a → a ≠ null :=
  (Function.forall_update_iff pc (p := fun _ q => ∀ a, q.aimed = some a → a ≠ null)).2
    ⟨ha, fun u _ => h.aimed u⟩

theorem setPc (h : Published m pc) (hs : ∀ i, p.slot = some i → (pc t).slot = some i)
    (hz : ∀ x, p.hazard = some x → (pc t).hazard = some x)
    (ha : ∀ a, p.aimed = some a → a ≠ null) : Published m (Function.update pc t p) := by
  have hslot : ∀ u i, (Function.update pc t p u).slot = some i → (pc u).slot = some i := by
    intro u i hu
    rcases eq_or_ne u t with rfl | e
    · rw [Function.update_self] at hu
      exact hs i hu
    · rwa [Function.update_of_ne e] at hu
  have hocc : ∀ u i, Occupies m (Function.update pc t p) u i → Occupies m pc u i := fun u i =>
    Or.imp_left (hslot u i)
  refine ⟨fun u v i hu hv => h.exclusive u v i (hocc u i hu) (hocc v i hv),
    fun u i hu => h.used u i (hocc u i hu), fun u i hu => h.lt u i (hslot u i hu),
    fun u i hu => h.held u i (hslot u i hu), h.last, fun u i a hu => ?_, h.aimed_setPc ha⟩
  · rcases eq_or_ne u t with rfl | e
    · rw [Function.update_self] at hu
      exact h.seen u i a (hz _ hu)
    · rw [Function.update_of_ne e] at hu
      exact h.seen u i a hu

/-- The stores of a thread go to slots no other thread is concerned with. -/
theorem idx_ne (h : Published m pc) {u : Nat} {st : Store} (hu : (pc u).slot = some i)
    (e : u ≠ t) (hst : st ∈ m.buf t) : st.idx ≠ i := by
  rintro rfl
  exact e (h.exclusive u t _ (.inl hu) (.inr ⟨st, hst, rfl⟩))

theorem flush (h : Published m pc) {st : Store} {rest : List Store} (hb : m.buf t = st :: rest) :
    Published (m.flushed t st rest) pc := by
  have hbt : (m.flushed t st rest).buf t = rest := Function.update_self ..
  have hbu : ∀ u, u ≠ t → (m.flushed t st rest).buf u = m.buf u := fun u e =>
    Function.update_of_ne e ..
  have hsub : ∀ u st', st' ∈ (m.flushed t st rest).buf u → st' ∈ m.buf u := by
    intro u st' hst'
    rcases eq_or_ne u t with rfl | e
    · rw [hbt] at hst'
      rw [hb]
      exact List.mem_cons_of_mem _ hst'
    · rwa [hbu u e] at hst'
  have hocc : ∀ u i, Occupies (m.flushed t st rest) pc u i → Occupies m pc u i := by
    rintro u i (hu | ⟨st', hst', hi⟩)
    · exact .inl hu
    · exact .inr ⟨st', hsub u st' hst', hi⟩
  have hst : st ∈ m.buf t := hb ▸ List.mem_cons_self
  refine ⟨fun u v i hu hv => h.exclusive u v i (hocc u i hu) (hocc v i hv), fun u i hu => ?_,
    h.lt, fun u i hu st' hst' => h.held u i hu st' (hsub u st' hst'), fun u pre i post hu => ?_,
    fun u i a hu => ?_, h.aimed⟩
  · have hused := h.used u i (hocc u i hu)
    show (st.apply m.slots i).in_use = true
    cases st with
    | ptr j b =>
      rcases eq_or_ne i j with rfl | e
      · simpa [Store.apply] using hused
      · simpa [Store.apply, e] using hused
    | in_use j =>
      -- a release is the last store of its thread, which does not hold the slot any more
      rcases eq_or_ne i j with rfl | e
      · obtain rfl : u = t := h.exclusive u t i (hocc u i hu) (.inr ⟨_, hst, rfl⟩)
        have hrest : rest = [] := h.last u [] i rest hb
        rcases hu with hu | ⟨st', hst', -⟩
        · obtain ⟨b, hb'⟩ := h.held u i hu _ hst
          cases hb'
        · rw [hbt, hrest] at hst'
          cases hst'
      · simpa [Store.apply, e] using hused
  · rcases eq_or_ne u t with rfl | e
    · rw [hbt] at hu
      exact h.last u (st :: pre) i post (by rw [hb, hu]; rfl)
    · rw [hbu u e] at hu
      exact h.last u pre i post hu
  · have hseen := h.seen u i a hu
    unfold Mem.view at hseen ⊢
    rcases eq_or_ne u t with rfl | e
    · rw [hbt]
      rwa [hb, Slots.after_cons] at hseen
    · rw [hbu u e]
      have hslot : st.apply m.slots i = m.slots i :=
        Store.apply_of_ne (h.idx_ne (Pc.slot_of_hazard hu) e hst)
      exact (congrArg Slot.ptr (Slots.after_congr hslot)).trans hseen

theorem drain (h : Published m pc) (t : Nat) : Published (m.drain t) pc :=
  Mem.drain_rule (P := fun m => Published m pc) (fun _ _ _ hb h => h.flush hb) h

theorem append_ptr (h : Published m pc) (ht : (pc t).slot = some i) (hs : p.slot = some i)
    (hz : ∀ x, p.hazard = some x → x = (i, a)) (ha : ∀ a, p.aimed = some a → a ≠ null) :
    Published (m.append t (.ptr i a)) (Function.update pc t p) := by
  have hbt : (m.append t (.ptr i a)).buf t = m.buf t ++ [.ptr i a] := Function.update_self ..
  have hslot : ∀ u, (Function.update pc t p u).slot = (pc u).slot := by
    intro u
    rcases eq_or_ne u t with rfl | e
    · rw [Function.update_self, hs, ht]
    · rw [Function.update_of_ne e]
  have hocc : ∀ u j, Occupies (m.append t (.ptr i a)) (Function.update pc t p) u j →
      Occupies m pc u j :=
    fun u j hu => hu.of_append ht fun j hj => hslot u ▸ hj
  refine ⟨fun u v j hu hv => h.exclusive u v j (hocc u j hu) (hocc v j hv),
    fun u j hu => h.used u j (hocc u j hu), fun u j hu => h.lt u j (hslot u ▸ hu),
    fun u j hu st hst => ?_, fun u pre j post hu => ?_, fun u j b hu => ?_, h.aimed_setPc ha⟩
  · rw [hslot u] at hu
    rcases Mem.mem_append_buf hst with hst | ⟨rfl, rfl⟩
    · exact h.held u j hu st hst
    · rw [ht] at hu
      cases hu
      exact ⟨a, rfl⟩
  · rcases eq_or_ne u t with rfl | e
    · have hmem : Store.in_use j ∈ (m.append u (.ptr i a)).buf u := by simp [hu]
      rcases Mem.mem_append_buf hmem with hmem | ⟨-, hj⟩
      · obtain ⟨b, hb⟩ := h.held u i ht _ hmem
        cases hb
      · cases hj
    · rw [Mem.append_buf_of_ne e] at hu
      exact h.last u pre j post hu
  · unfold Mem.view
    rcases eq_or_ne u t with rfl | e
    · rw [Function.update_self] at hu
      cases hz _ hu
      rw [hbt, Slots.after_append]
      simp [Store.apply]
    · rw [Function.update_of_ne e] at hu
      rw [Mem.append_buf_of_ne e]
      exact h.seen u j b hu

/-- The guard's `drop`: the slot is given up, and its release is the thread's last store. -/
theorem append_in_use (h : Published m pc) (ht : (pc t).slot = some i) (hs : p.slot = none)
    (ha : p.aimed = none) :
    Published (m.append t (.in_use i)) (Function.update pc t p) := by
  have hbt : (m.append t (.in_use i)).buf t = m.buf t ++ [.in_use i] := Function.update_self ..
  have hold : ∀ u j, (Function.update pc t p u).slot = some j → u ≠ t ∧ (pc u).slot = some j := by
    intro u j hu
    rcases eq_or_ne u t with rfl | e
    · rw [Function.update_self, hs] at hu
      cases hu
    · rw [Function.update_of_ne e] at hu
      exact ⟨e, hu⟩
  have hocc : ∀ u j, Occupies (m.append t (.in_use i)) (Function.update pc t p) u j →
      Occupies m pc u j :=
    fun u j hu => hu.of_append ht fun j hj => (hold u j hj).2
  refine ⟨fun u v j hu hv => h.exclusive u v j (hocc u j hu) (hocc v j hv),
    fun u j hu => h.used u j (hocc u j hu), fun u j hu => h.lt u j (hold u j hu).2,
    fun u j hu st hst => ?_, fun u pre j post hu => ?_, fun u j b hu => ?_,
    h.aimed_setPc (by simp [ha])⟩
  · obtain ⟨e, hu⟩ := hold u j hu
    rw [Mem.append_buf_of_ne e] at hst
    exact h.held u j hu st hst
  · rcases eq_or_ne u t with rfl | e
    · rcases List.eq_nil_or_concat post with rfl | ⟨post', st, rfl⟩
      · rfl
      -- an earlier release would be among the stores of a thread that still holds the slot
      · rw [hbt, List.concat_eq_append, ← List.cons_append, ← List.append_assoc] at hu
        have hmem : Store.in_use j ∈ m.buf u := by
          rw [(List.append_inj' hu rfl).1]
          simp
        obtain ⟨b, hb⟩ := h.held u i ht _ hmem
        cases hb
    · rw [Mem.append_buf_of_ne e] at hu
      exact h.last u pre j post hu
  · obtain ⟨e, -⟩ := hold u j (Pc.slot_of_hazard hu)
    rw [Function.update_of_ne e] at hu
    unfold Mem.view
    rw [Mem.append_buf_of_ne e]
    exact h.seen u j b hu

theorem acquire (h : Published m pc) (hb : m.buf t = []) (hi : i < MAX_HAZARDS)
    (hu : (m.slots i).in_use = false) (hs : p.slot = some i) (hz : p.hazard = none)
    (ha : p.aimed = none) :
    Published (m.claimed i) (Function.update pc t p) := by
  have hfree : ∀ u, ¬ Occupies m pc u i := by
    intro u ho
    have hused := h.used u i ho
    rw [hu] at hused
    cases hused
  have hold : ∀ u j, (Function.update pc t p u).slot = some j →
      (u = t ∧ j = i) ∨ (u ≠ t ∧ (pc u).slot = some j) := by
    intro u j hj
    rcases eq_or_ne u t with rfl | e
    · rw [Function.update_self, hs] at hj
      cases hj
      exact .inl ⟨rfl, rfl⟩
    · rw [Function.update_of_ne e] at hj
      exact .inr ⟨e, hj⟩
  have hocc : ∀ u j, Occupies (m.claimed i) (Function.update pc t p) u j →
      (u = t ∧ j = i) ∨ Occupies m pc u j := by
    rintro u j (hj | hj)
    · exact (hold u j hj).imp_right fun hj => .inl hj.2
    · exact .inr (.inr hj)
  refine ⟨fun u v j hj hj' => ?_, fun u j hj => ?_, fun u j hj => ?_, fun u j hj st hst => ?_,
    h.last, fun u j b hj => ?_, h.aimed_setPc (by simp [ha])⟩
  · rcases hocc u j hj with ⟨rfl, rfl⟩ | ho
    · rcases hocc v j hj' with ⟨rfl, -⟩ | ho'
      · rfl
      · exact absurd ho' (hfree v)
    · rcases hocc v j hj' with ⟨-, rfl⟩ | ho'
      · exact absurd ho (hfree u)
      · exact h.exclusive u v j ho ho'
  · rcases eq_or_ne j i with rfl | e
    · simp [Mem.claimed]
    · simp only [Mem.claimed, Function.update_of_ne e]
      exact h.used u j ((hocc u j hj).resolve_left fun hj => e hj.2)
  · rcases hold u j hj with ⟨-, rfl⟩ | ⟨-, hj⟩
    · exact hi
    · exact h.lt u j hj
  · have hst : st ∈ m.buf u := hst
    rcases hold u j hj with ⟨rfl, -⟩ | ⟨-, hj⟩
    · rw [hb] at hst
      cases hst
    · exact h.held u j hj st hst
  · rcases eq_or_ne u t with rfl | e
    · rw [Function.update_self, hz] at hj
      cases hj
    · rw [Function.update_of_ne e] at hj
      have hne : j ≠ i := by
        rintro rfl
        exact hfree u (.inl (Pc.slot_of_hazard hj))
      have hslot : (m.claimed i).slots j = m.slots j := Function.update_of_ne hne ..
      exact (congrArg Slot.ptr (Slots.after_congr hslot)).trans (h.seen u j b hj)

theorem store_ptr (h : Published m pc) {mm : MemModel} (ht : (pc t).slot = some i)
    (hs : p.slot = some i) (hz : ∀ x, p.hazard = some x → x = (i, a))
    (ha : ∀ a, p.aimed = some a → a ≠ null) :
    Published (m.store mm t (.ptr i a)) (Function.update pc t p) :=
  Mem.store_rule (P := fun m => Published m _) (fun _ _ _ hb h => h.flush hb)
    (h.append_ptr ht hs hz ha)

theorem store_in_use (h : Published m pc) {mm : MemModel} (ht : (pc t).slot = some i)
    (hs : p.slot = none) (ha : p.aimed = none) :
    Published (m.store mm t (.in_use i)) (Function.update pc t p) :=
  Mem.store_rule (P := fun m => Published m _) (fun _ _ _ hb h => h.flush hb)
    (h.append_in_use ht hs ha)

theorem step (h : Published m pc) {mm : MemModel} (hm : Move mm t m (pc t) m' p) :
    Published m' (Function.update pc t p) := by
  generalize hpc : pc t = q at hm
  cases hm
  case acquire_ok i hi hu =>
    exact (h.drain t).acquire Mem.drain_buf hi hu rfl rfl rfl
  case protect i a =>
    have ha : a ≠ null := h.aimed t a (by rw [hpc]; rfl)
    exact h.store_ptr (by rw [hpc]; rfl) rfl (by simp [Pc.hazard]) (by simpa [Pc.aimed] using ha)
  case clear i a v | drop_clear i p =>
    exact h.store_ptr (by rw [hpc]; rfl) rfl (by simp [Pc.hazard]) (by simp [Pc.aimed])
  case drop_release_none i | drop_release i a v =>
    exact h.store_in_use (by rw [hpc]; rfl) rfl rfl
  case pop_load i hh =>
    exact h.setPc (by simp [hpc, Pc.slot]) (by simp [Pc.hazard]) (by simpa [Pc.aimed] using hh)
  case verify_ok i a hh | read_next i a n hn =>
    have ha : a ≠ null := h.aimed t a (by rw [hpc]; rfl)
    exact h.setPc (by simp [hpc, Pc.slot]) (by simp [hpc, Pc.hazard]) (by simpa [Pc.aimed] using ha)
  case push_cas_ok | push_cas_fail | acquire_fail | pop_cas_ok | pop_cas_fail | retire_lock
      | reclaim_lock | unlock =>
    exact ((h.drain t).setPc (by simp [hpc, Pc.slot]) (by simp [Pc.hazard])
      (by simp [Pc.aimed])).congr rfl rfl
  all_goals
    exact (h.setPc (by simp [hpc, Pc.slot]) (by simp [Pc.hazard])
      (by simp [Pc.aimed])).congr rfl rfl

end Published

/-! ## Empty buffers and the mutex -/

/-- Past the reload of `head` or inside the mutex: the buffer has been empty since. -/
def Pc.settled (q : Pc) : Bool := q.protects.isSome || q.critical

theorem Pc.settled_of_protects {q : Pc} {x : Nat × Addr} (hq : q.protects = some x) :
    q.settled = true := by
  simp [settled, hq]

theorem Pc.settled_of_critical {q : Pc} (hq : q.critical = true) : q.settled = true := by
  simp [settled, hq]

/-- A reload that finds `head` unchanged is made with an empty buffer: the hazard stored
for this attempt has reached shared memory. -/
def Stack.PublishesFirst (s : Stack) (a : Stack.Act) : Prop :=
  ∀ t i h, a = .step t → s.pc t = .verify i h → s.mem.head = h → s.mem.buf t = []

namespace Move

variable {mm : MemModel} {t u : Nat} {m m' : Mem} {q p : Pc}

theorem buf_of_ne (hm : Move mm t m q m' p) (hu : u ≠ t) : m'.buf u = m.buf u := by
  cases hm <;> first | rfl | exact Mem.drain_buf_of_ne hu | exact Mem.store_buf_of_ne hu

theorem settled (hm : Move mm t m q m' p) (hp : p.settled = true) :
    m'.buf t = [] ∨ (q.settled = true ∧ m'.buf t = m.buf t) ∨
      ∃ i h, q = .verify i h ∧ m.head = h ∧ m'.buf t = m.buf t := by
  cases hm
  case retire_lock | reclaim_lock => exact .inl Mem.drain_buf
  case verify_ok i h hh => exact .inr (.inr ⟨i, h, rfl, hh, rfl⟩)
  case read_next | retire_full | retire_push | scan_used | scan_unused | scan_done | scan_ptr
      | retain_keep | retain_free | retain_done =>
    exact .inr (.inl ⟨rfl, rfl⟩)
  all_goals cases hp

theorem lock (hm : Move mm t m q m' p) :
    (p.critical = q.critical ∧ m'.lock = m.lock) ∨
      (p.critical = true ∧ m.lock = none ∧ m'.lock = some t) ∨
      (q.critical = true ∧ p.critical = false ∧ m'.lock = none) := by
  cases hm
  case retire_lock hl | reclaim_lock hl => exact .inr (.inl ⟨rfl, hl, rfl⟩)
  case unlock => exact .inr (.inr ⟨rfl, rfl, rfl⟩)
  case protect | clear | drop_clear | drop_release_none | drop_release =>
    exact .inl ⟨rfl, Mem.store_lock⟩
  all_goals exact .inl ⟨rfl, rfl⟩

end Move

structure Settled (m : Mem) (pc : Nat → Pc) : Prop where
  empty : ∀ t, (pc t).settled = true → m.buf t = []
  lock : ∀ t, m.lock = some t ↔ (pc t).critical = true

namespace Settled

variable {m m' : Mem} {pc : Nat → Pc} {t : Nat} {p : Pc}

theorem new : Settled .new fun _ => .idle where
  empty _ _ := rfl
  lock t := by simp [Mem.new, Pc.critical]

theorem setPc (h : Settled m pc) (hp : p.settled = false) (hc : (pc t).critical = false) :
    Settled m (Function.update pc t p) where
  empty := (Function.forall_update_iff pc (p := fun u q => q.settled = true → m.buf u = [])).2
    ⟨by simp [hp], fun u _ => h.empty u⟩
  lock := by
    have hpc : p.critical = false := by
      cases hq : p.critical
      · rfl
      · simp [Pc.settled_of_critical hq] at hp
    exact (Function.forall_update_iff pc
      (p := fun u q => m.lock = some u ↔ q.critical = true)).2
        ⟨by simp [hpc, h.lock t, hc], fun u _ => h.lock u⟩

theorem flush (h : Settled m pc) {st : Store} {rest : List Store} (hb : m.buf t = st :: rest) :
    Settled (m.flushed t st rest) pc where
  empty u hu := by
    have hbu : m.buf u = [] := h.empty u hu
    have e : u ≠ t := by
      rintro rfl
      rw [hb] at hbu
      cases hbu
    exact (Function.update_of_ne e ..).trans hbu
  lock := h.lock

theorem step (h : Settled m pc) {mm : MemModel} (hm : Move mm t m (pc t) m' p)
    (hv : ∀ i a, pc t = .verify i a → m.head = a → m.buf t = []) :
    Settled m' (Function.update pc t p) where
  empty := by
    refine (Function.forall_update_iff pc
      (p := fun u q => q.settled = true → m'.buf u = [])).2 ⟨fun hp => ?_, fun u hu hq => ?_⟩
    · rcases hm.settled hp with hb | ⟨hq, hb⟩ | ⟨i, a, hq, hh, hb⟩
      · exact hb
      · exact hb.trans (h.empty t hq)
      · exact hb.trans (hv i a hq hh)
    · exact (hm.buf_of_ne hu).trans (h.empty u hq)
  lock := by
    refine (Function.forall_update_iff pc
      (p := fun u q => m'.lock = some u ↔ q.critical = true)).2 ⟨?_, fun u hu => ?_⟩
    · rcases hm.lock with ⟨hc, hl⟩ | ⟨hc, -, hl⟩ | ⟨-, hc, hl⟩
      · rw [hl, hc]
        exact h.lock t
      · simp [hl, hc]
      · simp [hl, hc]
    · have hlu := h.lock u
      rcases hm.lock with ⟨-, hl⟩ | ⟨-, hn, hl⟩ | ⟨hc, -, hl⟩
      · rw [hl]
        exact hlu
      · rw [← hlu, hl, hn]
        simp [Ne.symm hu]
      · rw [← hlu, hl, (h.lock t).2 hc]
        simp [Ne.symm hu]

theorem critical_unique (h : Settled m pc) {u : Nat} (ht : (pc t).critical = true)
    (hu : (pc u).critical = true) : u = t := by
  have hl := (h.lock t).2 ht
  rw [(h.lock u).2 hu] at hl
  exact Option.some.inj hl

theorem lock_none (h : Settled m pc) (hc : ∀ u, (pc u).critical = false) : m.lock = none := by
  cases hl : m.lock with
  | none => rfl
  | some u =>
    have hu := (h.lock u).1 hl
    rw [hc u] at hu
    cases hu

end Settled

/-- What a thread protects is in its slot in shared memory, and the slot is in use. -/
theorem Published.in_memory {m : Mem} {pc : Nat → Pc} (h : Published m pc) (hs : Settled m pc)
    {t i : Nat} {a : Addr} (ht : (pc t).protects = some (i, a)) :
    i < MAX_HAZARDS ∧ m.slots i = ⟨true, a⟩ := by
  have hz := Pc.hazard_of_protects ht
  have hslot := Pc.slot_of_hazard hz
  have hseen := h.seen t i a hz
  rw [Mem.view_of_nil (hs.empty t (Pc.settled_of_protects ht))] at hseen
  have hused := h.used t i (.inl hslot)
  refine ⟨h.lt t i hslot, ?_⟩
  rw [← hseen, ← hused]

end Samsara.SafeTreiber
