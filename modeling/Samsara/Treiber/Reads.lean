import Samsara.Treiber.Safe

/-!
# Reads of freed nodes

`pop` loads `head` and then reads the successor of the node it has found. Another `pop` may
take that node off the list and free it in between: it wins its compare-and-swap, but
nothing makes it wait for the first one. That is the only way a read comes too late
(`read_allocated_iff`); no reuse of addresses is needed.
-/

namespace Samsara.Treiber

open StepSys

def Mem.Allocated (m : Mem) (a : Addr) : Prop := m.heap a ≠ none ∧ m.freed a = false

namespace Stack

def Reads (x : Stack × Act) (t : Nat) (a : Addr) : Prop :=
  x.2 = .step t ∧ x.1.pc t = .read_next a

/-- The step frees `a` while the `pop` of `t` has loaded it and not read it yet. -/
def FreesUnder (x : Stack × Act) (t : Nat) (a : Addr) : Prop :=
  x.1.pc t = .read_next a ∧ ∃ u v, x.2 = .step u ∧ x.1.pc u = .free a v

variable {s s' : Stack} {act : Act} {env : History Stack Act → Stack → Act → Prop}
  {tr : History Stack Act} {t : Nat} {a : Addr}

theorem freed_step (hst : s.step act = some s') (hf : s.mem.freed a = true) :
    s'.mem.freed a = true := by
  cases act_cases hst
  case push | pop | alloc => exact hf
  case step t m p hm =>
    generalize s.pc t = q at hm
    cases hm
    case free b v =>
      simp only [Function.update_apply]
      split
      · rfl
      · exact hf
    all_goals exact hf

theorem freed_of_freesUnder (hst : s.step act = some s') (hx : FreesUnder (s, act) t a) :
    s'.mem.freed a = true := by
  obtain ⟨-, u, v, hact, hu⟩ := hx
  simp only at hact hu
  subst hact
  simp only [step, hu, threadStep, Option.map_some, Option.some.injEq] at hst
  subst hst
  simp

/-- A `pop` comes to its read with an allocated node, and only a step that frees the node
under it changes that. -/
theorem freed_cases (own : Addr → Place) (l : List Addr) (hs : Safe own l s.mem s.pc)
    (hst : s.step act = some s') (hp : s'.pc t = .read_next a) (hf : s'.mem.freed a = true) :
    s.pc t = .read_next a ∧ (s.mem.freed a = true ∨ FreesUnder (s, act) t a) := by
  have other {u : Nat} {p : Pc} (hpc : Function.update s.pc u p t = .read_next a)
      (hne : p ≠ .read_next a) : s.pc t = .read_next a := by
    rcases eq_or_ne t u with rfl | e
    · rw [Function.update_self] at hpc
      exact absurd hpc hne
    · rwa [Function.update_of_ne e] at hpc
  cases act_cases hst
  case push | pop | alloc => exact ⟨other hp (by simp), .inl hf⟩
  case step u m p hm =>
    generalize hq : s.pc u = q at hm
    cases hm
    case pop_load hh =>
      rcases eq_or_ne t u with rfl | e
      · -- the head is linked, and so not freed
        simp only [Function.update_self, Pc.read_next.injEq] at hp
        subst hp
        have hfreed := (hs.owned.freed _).2 hf
        rw [hs.owned.toChain.head_linked hh] at hfreed
        cases hfreed
      · simp only [Function.update_of_ne e] at hp
        exact ⟨hp, .inl hf⟩
    case free b v =>
      have hpt := other hp (by simp)
      refine ⟨hpt, ?_⟩
      rcases eq_or_ne a b with rfl | e
      · exact .inr ⟨hpt, u, v, rfl, hq⟩
      · simp only [Function.update_of_ne e] at hf
        exact .inl hf
    all_goals exact ⟨other hp (by simp), .inl hf⟩

theorem freed_iff (h : Run Stack.step env .new tr s) (hp : s.pc t = .read_next a) :
    s.mem.freed a = true ↔ ∃ x ∈ tr, FreesUnder x t a := by
  constructor
  · refine fun hf => h.hist (P := fun tr s => ∀ t a, s.pc t = .read_next a →
      s.mem.freed a = true → ∃ x ∈ tr, FreesUnder x t a) (by simp [new]) ?_ t a hp hf
    intro tr s act s' hr ih _ hst t a hp hf
    obtain ⟨own, l, hs⟩ := safe hr
    obtain ⟨hpt, hf | hx⟩ := freed_cases own l hs hst hp hf
    · obtain ⟨x, hx, hu⟩ := ih t a hpt hf
      exact ⟨x, List.mem_append_left _ hx, hu⟩
    · exact ⟨_, List.mem_append_right _ (List.mem_singleton_self _), hx⟩
  · rintro ⟨x, hx, hu⟩
    refine h.hist (P := fun tr s => ∀ x ∈ tr, FreesUnder x t a → s.mem.freed a = true) nofun ?_
      x hx hu
    intro tr s act s' hr ih _ hst x hx hu
    rcases List.mem_append.1 hx with hx | hx
    · exact freed_step hst (ih x hx hu)
    · cases List.mem_singleton.1 hx
      exact freed_of_freesUnder hst hu

theorem allocated_iff (h : Run Stack.step env .new tr s) (hp : s.pc t = .read_next a) :
    s.mem.Allocated a ↔ ∀ x ∈ tr, ¬ FreesUnder x t a := by
  obtain ⟨own, l, hs⟩ := Stack.safe h
  have halloc : s.mem.heap a ≠ none := hs.aimed_heap (t := t) (by rw [hp]; rfl)
  have hiff := Stack.freed_iff h hp
  constructor
  · intro ha x hx hu
    exact nomatch ha.2.symm.trans (hiff.2 ⟨x, hx, hu⟩)
  · intro hno
    refine ⟨halloc, ?_⟩
    by_contra hf
    obtain ⟨x, hx, hu⟩ := hiff.1 (by simpa using hf)
    exact hno x hx hu

end Stack

/-- **When a read is of an allocated node.** In every run, a `pop` reads `(*head).next` while
the node is allocated if and only if no other `pop` has freed the node between the load of
`head` and the read. -/
theorem read_allocated_iff {tr pre post : History Stack Stack.Act} {s : Stack}
    {x : Stack × Stack.Act} {t : Nat} {a : Addr} (h : Run Stack.step anyEnv .new tr s)
    (e : tr = pre ++ x :: post) (hx : Stack.Reads x t a) :
    x.1.mem.Allocated a ↔ ∀ y ∈ pre, ¬ Stack.FreesUnder y t a :=
  Stack.allocated_iff (h.split e).1 hx.2

/-- Thread 1 has taken the node off the list when thread 0 reads it, and frees it afterwards. -/
theorem read_allocated_overlapping :
    ∃ tr s, Run Stack.step anyEnv .new tr s ∧ s.mem.freed 1 = true ∧
      ∃ x ∈ tr, Stack.Reads x 0 1 ∧ x.1.pc 1 = .free 1 7 ∧ x.1.mem.Allocated 1 := by
  have h0 : Run Stack.step anyEnv .new [] .new := .nil
  have h1 := h0.exec (fun _ _ _ _ => trivial) (show exec _ _ _
    (List.flatten [[.push 0 7, .alloc 0 1], .replicate 4 (.step 0), [.pop 0, .step 0, .pop 1],
      .replicate 4 (.step 1)]) = some _ from rfl)
  have h2 := (h1.snoc (a := .step 0) trivial rfl).snoc (a := .step 1) trivial rfl
  have hread := (read_allocated_iff h2 (List.append_assoc ..)
    (show Stack.Reads _ 0 1 from ⟨rfl, rfl⟩)).2 (by simp [Stack.FreesUnder, Stack.new, Stack.setPc])
  exact ⟨_, _, h2, rfl, _, List.mem_append_left _ (List.mem_append_right _
    (List.mem_singleton_self _)), ⟨rfl, rfl⟩, rfl, hread⟩

/-! ## One `pop` at a time -/

def Pc.popping : Pc → Bool
  | pop_load | read_next _ | pop_cas _ _ | take _ | free _ _ | ret (.popped _) => true
  | _ => false

namespace Stack

/-- No `pop` is called while another is in progress. -/
def inTurn (_ : History Stack Act) (s : Stack) (a : Act) : Prop :=
  ∀ t, a = .pop t → ∀ u, (s.pc u).popping = false

variable {s s' : Stack} {act : Act} {tr : History Stack Act}

theorem popping_step (hst : s.step act = some s') (hact : ∀ t, act ≠ .pop t) {t : Nat}
    (hp : (s'.pc t).popping = true) : (s.pc t).popping = true := by
  cases act_cases hst
  case push u v hu | alloc u v a hu _ _ =>
    rcases eq_or_ne t u with rfl | e
    · simp [setPc, Pc.popping] at hp
    · simpa [setPc, Function.update_of_ne e] using hp
  case pop u hu => exact absurd rfl (hact u)
  case step u m p hm =>
    rcases eq_or_ne t u with rfl | e
    · generalize s.pc t = q at hm ⊢
      simp only [Function.update_self] at hp
      cases hm <;> first | rfl | simp [Pc.popping] at hp
    · simpa only [Function.update_of_ne e] using hp

theorem popping_unique (h : Run Stack.step inTurn .new tr s) {t u : Nat}
    (ht : (s.pc t).popping = true) (hu : (s.pc u).popping = true) : t = u := by
  refine h.hist (P := fun _ s => ∀ t u, (s.pc t).popping = true → (s.pc u).popping = true → t = u)
    (by simp [new, Pc.popping]) ?_ t u ht hu
  intro tr s act s' _ ih hturn hst t u ht hu
  by_cases hact : ∃ v, act = .pop v
  · obtain ⟨v, rfl⟩ := hact
    have hother {w : Nat} (hw : (s'.pc w).popping = true) : w = v := by
      by_contra e
      cases act_cases hst with
      | pop hv =>
        simp only [setPc, Function.update_of_ne e] at hw
        exact nomatch (hturn v rfl w).symm.trans hw
    exact (hother ht).trans (hother hu).symm
  · have hact' : ∀ v, act ≠ .pop v := fun v e => hact ⟨v, e⟩
    exact ih t u (popping_step hst hact' ht) (popping_step hst hact' hu)

end Stack

/-- With one `pop` at a time every read is of an allocated node, whatever is pushed meanwhile. -/
theorem reads_allocated_in_turn {tr : History Stack Stack.Act} {s : Stack}
    (h : Run Stack.step Stack.inTurn .new tr s) {x : Stack × Stack.Act} (hx : x ∈ tr) {t : Nat}
    {a : Addr} (hr : Stack.Reads x t a) : x.1.mem.Allocated a := by
  obtain ⟨pre, post, rfl⟩ := List.append_of_mem hx
  have hpre := (h.split rfl).1
  refine (Stack.allocated_iff hpre hr.2).mpr ?_
  rintro y hy ⟨hyt, u, v, -, hyu⟩
  obtain ⟨pre', post', rfl⟩ := List.append_of_mem hy
  have htu : t = u := Stack.popping_unique (hpre.split rfl).1 (by rw [hyt]; rfl) (by rw [hyu]; rfl)
  subst htu
  rw [hyt] at hyu
  cases hyu

/-- Thread 0 loads node 1 as the head; thread 1 pops the node and frees it. -/
def staleHead : List Stack.Act :=
  List.flatten [[.push 0 7, .alloc 0 1], .replicate 4 (.step 0), [.pop 0, .step 0, .pop 1],
    .replicate 5 (.step 1)]

/-- Then thread 0 reads the freed node. -/
theorem pop_reads_freed :
    ¬ ∀ (tr : History Stack Stack.Act) (s : Stack), Run Stack.step anyEnv .new tr s →
      ∀ x ∈ tr, ∀ t a, Stack.Reads x t a → x.1.mem.Allocated a := by
  intro hclaim
  have hexec : (exec Stack.step [] .new staleHead).map (fun r =>
      (r.2.pc 0, r.2.mem.freed 1, (r.2.step (.step 0)).isSome)) =
      some (.read_next 1, true, true) := by
    decide +kernel
  obtain ⟨r, hr, he⟩ := Option.map_eq_some_iff.1 hexec
  simp only [Prod.mk.injEq] at he
  obtain ⟨hpc, hfreed, hstep⟩ := he
  obtain ⟨s, hs⟩ := Option.isSome_iff_exists.1 hstep
  have hrun : Run Stack.step anyEnv .new r.1 r.2 := Run.nil.exec (fun _ _ _ _ => trivial) hr
  have halloc := hclaim _ _ (hrun.snoc trivial hs) (r.2, .step 0)
    (List.mem_append_right _ (List.mem_singleton_self _)) 0 1 ⟨rfl, hpc⟩
  exact nomatch halloc.2.symm.trans hfreed

end Samsara.Treiber
