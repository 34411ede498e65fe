import Samsara.Hazard.Guards

/-!
# What an answer of the registry is worth

A query reads the slots one after the other while guards come and go, so its answer is not
that of one moment. A pointer it has found was published at the moment it was read: a guard
held that slot, and the last of its operations to finish had been a `protect` of the pointer
(`answers_were_published`). A pointer it has not found may have been handed from a slot ahead
to one behind; but that takes a `protect` of it during the query. A reclaimer asks about
pointers that nobody protects any more, and then nobody publishes the pointer at the end of
the query either (`unseen_is_unpublished`).
-/

namespace Samsara

namespace HazardRegistry

open StepSys

variable {s s' : HazardRegistry} {a call : Act} {slots slots' : Slots} {q q' : Pc} {c g i : Nat}
  {p v : Addr} {env : History HazardRegistry Act → HazardRegistry → Act → Prop}
  {tr : History HazardRegistry Act}

/-! ## What the guards have stored -/

/-- What a step of a client leaves in its slot, when `v` was there. -/
def Pc.stores (v : Addr) : Pc → Addr
  | .protect _ p => p
  | .clear _ | .drop_clear _ => null
  | _ => v

/-- What the finished operations of the guard of `c` have left in its slot. -/
def stored (c : Nat) (tr : History HazardRegistry Act) : Addr :=
  tr.foldl (fun v x => if x.2 = .step c then (x.1.pc c).stores v else v) null

theorem stored_snoc (c : Nat) (tr : History HazardRegistry Act) (s : HazardRegistry) (a : Act) :
    stored c (tr ++ [(s, a)]) =
      if a = .step c then (s.pc c).stores (stored c tr) else stored c tr := by
  simp [stored]

/-- The slot of the client holds `v`; without a slot it is the null pointer. -/
def Pc.Keeps (slots : Slots) (v : Addr) (q : Pc) : Prop :=
  match q.role.slot with
  | some i => (slots i).ptr = v
  | none => v = null

theorem Pc.Keeps.frame (h : q.Keeps slots v)
    (hs : ∀ i, q.role.slot = some i → slots' i = slots i) : q.Keeps slots' v := by
  unfold Keeps at h ⊢
  split
  · next i hi => rw [hi] at h; rw [hs i hi]; exact h
  · next hn => rw [hn] at h; exact h

theorem Pc.Keeps.step (h : q.Keeps slots v)
    (hun : ∀ i, (slots i).in_use = false → (slots i).ptr = null)
    (hcl : ∀ i, q.role = .leaver i → (slots i).ptr = null)
    (hm : clientStep slots q = some (slots', q')) : q'.Keeps slots' (q.stores v) := by
  cases clientStep_cases hm
  case acquire i hi hu =>
    have hv : v = null := h
    simpa [Keeps, Pc.role, Role.slot, Slots.claim, Pc.stores, hv] using hun i hu
  case protect | clear | drop_clear => simp [Keeps, Pc.role, Role.slot, Store.apply, Pc.stores]
  case drop_release i =>
    have hv : (slots i).ptr = v := h
    exact hv.symm.trans (hcl i rfl)
  all_goals exact h

theorem keeps_of_run (h : Run step env .new tr s) (c : Nat) :
    (s.pc c).Keeps s.slots (stored c tr) := by
  refine h.hist (P := fun tr s => ∀ c, (s.pc c).Keeps s.slots (stored c tr)) (fun _ => rfl) ?_ c
  intro tr s a s' hr hk _ hst c
  have ht := tabled_of_run hr
  rw [stored_snoc]
  by_cases e : a.client = c
  · subst e
    have hc := hk a.client
    cases a with
    | step c =>
      obtain ⟨⟨slots, q⟩, hm, rfl⟩ := Option.map_eq_some_iff.mp hst
      simp only [Act.client, if_true, Function.update_self] at hc ⊢
      exact hc.step ht.unused (fun i => ht.cleared c i) hm
    | acquire c | is_hazarded c _ | snapshot c =>
      simp only [HazardRegistry.step] at hst
      split at hst <;> cases hst
      next hidle =>
        simp only [Act.client, hidle] at hc
        simp only [Act.client, setPc, reduceCtorEq, if_false, Function.update_self]
        exact hc
    | protect c _ | clear c | drop c =>
      obtain ⟨i, hi, rfl⟩ := onGuard_cases hst
      simp only [Act.client, hi] at hc
      simp only [Act.client, setPc, reduceCtorEq, if_false, Function.update_self]
      exact hc
  · obtain ⟨q, hm, hpc⟩ := step_cases hst
    have hne : a ≠ .step c := by
      rintro rfl
      exact e rfl
    rw [if_neg hne, hpc, Function.update_of_ne (Ne.symm e)]
    exact (hk c).frame fun i hi => Table.frame ht hm.slotMove hi (Ne.symm e)

/-! ## What a query has found -/

def InCall (tr : History HazardRegistry Act) (c : Nat) (call : Act) : Prop :=
  ∃ pre s₀ mid, tr = pre ++ (s₀, call) :: mid ∧ ∀ x ∈ mid, x.1.pc c ≠ .idle

/-- During the call that `c` is in it has read `p` in a slot that a guard held, whose last
finished operation was a `protect` of `p`. -/
def Found (tr : History HazardRegistry Act) (c : Nat) (call : Act) (p : Addr) : Prop :=
  ∃ pre s₁ post g i, tr = pre ++ (s₁, .step c) :: post ∧ InCall pre c call ∧
    (∀ x ∈ (s₁, .step c) :: post, x.1.pc c ≠ .idle) ∧
    (s₁.pc g).role.slot = some i ∧ stored g pre = p

theorem InCall.snoc (h : InCall tr c call) (hs : s.pc c ≠ .idle) :
    InCall (tr ++ [(s, a)]) c call := by
  obtain ⟨pre, s₀, mid, rfl, hmid⟩ := h
  refine ⟨pre, s₀, mid ++ [(s, a)], by simp, fun x hx => ?_⟩
  rcases List.mem_append.mp hx with hx | hx
  · exact hmid x hx
  · cases List.mem_singleton.mp hx
    exact hs

theorem Found.snoc (h : Found tr c call p) (hs : s.pc c ≠ .idle) :
    Found (tr ++ [(s, a)]) c call p := by
  obtain ⟨pre, s₁, post, g, i, rfl, hcall, hpost, hg⟩ := h
  refine ⟨pre, s₁, post ++ [(s, a)], g, i, by simp, hcall, fun x hx => ?_, hg⟩
  rw [← List.cons_append] at hx
  rcases List.mem_append.mp hx with hx | hx
  · exact hpost x hx
  · cases List.mem_singleton.mp hx
    exact hs

theorem found_of_read (h : Run step env .new tr s) (hcall : InCall tr c call)
    (hs : s.pc c ≠ .idle) (hp : (s.slots i).ptr = p) (hne : p ≠ null) :
    Found (tr ++ [(s, .step c)]) c call p := by
  have ht := tabled_of_run h
  have hused : (s.slots i).in_use = true := by
    by_contra hu
    exact hne (hp.symm.trans (ht.unused i (by simpa using hu)))
  obtain ⟨g, hg⟩ := ht.held i hused
  have hkeeps := keeps_of_run h g
  have hslot : (s.pc g).role.slot = some i := hg
  unfold Pc.Keeps at hkeeps
  rw [hslot] at hkeeps
  refine ⟨tr, s, [], g, i, rfl, hcall, fun x hx => ?_, hslot, hkeeps.symm.trans hp⟩
  cases List.mem_singleton.mp hx
  exact hs

/-- What a query of client `c` under way has to show for what it has found. -/
def Pc.Shows (tr : History HazardRegistry Act) (c : Nat) : Pc → Prop
  | .is_hazarded p _ | .is_hazarded_ptr p _ => InCall tr c (.is_hazarded c p)
  | .is_hazarded_ret p b => b = true → p ≠ null → Found tr c (.is_hazarded c p) p
  | .snapshot _ out | .snapshot_ptr _ out => InCall tr c (.snapshot c) ∧
      ∀ p ∈ out, p ≠ null ∧ Found tr c (.snapshot c) p
  | .snapshot_ret out => ∀ p ∈ out, p ≠ null ∧ Found tr c (.snapshot c) p
  | _ => True

theorem Pc.Shows.snoc (h : q.Shows tr c) (hs : s.pc c = q) : q.Shows (tr ++ [(s, a)]) c := by
  cases q
  case is_hazarded | is_hazarded_ptr => exact InCall.snoc h (by simp [hs])
  case is_hazarded_ret => exact fun hb hp => (h hb hp).snoc (by simp [hs])
  case snapshot | snapshot_ptr =>
    exact ⟨h.1.snoc (by simp [hs]), fun p hp => (h.2 p hp).imp_right fun h => h.snoc (by simp [hs])⟩
  case snapshot_ret => exact fun p hp => (h p hp).imp_right fun h => h.snoc (by simp [hs])
  all_goals trivial

theorem Pc.Shows.step (hr : Run HazardRegistry.step env .new tr s) (h : (s.pc c).Shows tr c)
    (hm : clientStep s.slots (s.pc c) = some (slots', q')) :
    q'.Shows (tr ++ [(s, .step c)]) c := by
  have hkept := h.snoc (a := .step c) rfl
  have hread {call : Act} {i : Nat} {p : Addr} (hcall : InCall tr c call)
      (hs : s.pc c ≠ .idle) (hp : (s.slots i).ptr = p) (hne : p ≠ null) :=
    found_of_read hr hcall hs hp hne
  generalize hpc : s.pc c = q at hm h hkept
  cases clientStep_cases hm
  case query_used | query_unused | query_miss | scan_used | scan_unused => exact hkept
  case query_end => simp [Shows]
  case query_hit i p hp => exact fun _ hne => hread h (by simp [hpc]) hp hne
  case scan_end => exact hkept.2
  case scan_ptr i out =>
    refine ⟨hkept.1, fun p hp => ?_⟩
    split at hp
    · next hne =>
      rcases List.mem_append.mp hp with hp | hp
      · exact hkept.2 p hp
      · cases List.mem_singleton.mp hp
        exact ⟨hne, hread h.1 (by simp [hpc]) rfl hne⟩
    · exact hkept.2 p hp
  all_goals trivial

theorem shows_of_run (h : Run step env .new tr s) (c : Nat) : (s.pc c).Shows tr c := by
  refine h.hist (P := fun tr s => ∀ c, (s.pc c).Shows tr c) (fun _ => trivial) ?_ c
  intro tr s a s' hr hk _ hst c
  by_cases e : a.client = c
  · subst e
    have hc := hk a.client
    cases a with
    | step c =>
      obtain ⟨⟨slots, q⟩, hm, rfl⟩ := Option.map_eq_some_iff.mp hst
      simp only [Act.client, Function.update_self] at hc ⊢
      exact hc.step hr hm
    | acquire c | is_hazarded c _ | snapshot c =>
      simp only [HazardRegistry.step] at hst
      split at hst <;> cases hst
      simp only [Act.client, setPc, Function.update_self]
      first
        | trivial
        | exact ⟨tr, s, [], rfl, by simp⟩
        | exact ⟨⟨tr, s, [], rfl, by simp⟩, by simp⟩
    | protect c _ | clear c | drop c =>
      obtain ⟨i, hi, rfl⟩ := onGuard_cases hst
      simp only [Act.client, setPc, Function.update_self]
      trivial
  · obtain ⟨q, hm, hpc⟩ := step_cases hst
    rw [hpc, Function.update_of_ne (Ne.symm e)]
    exact (hk c).snoc rfl

/-! ## What a query has not found -/

theorem Move.was_published (hm : Move slots q slots' q')
    (hun : ∀ i, (slots i).in_use = false → (slots i).ptr = null) (hp : p ≠ null)
    (hq : ∀ j, q ≠ .protect j p) (hs : slots' i = ⟨true, p⟩) : slots i = ⟨true, p⟩ := by
  cases hm
  case acquire j hj hu =>
    by_cases e : i = j
    · subst e
      simp only [Slots.claim, Function.update_self, Slot.mk.injEq] at hs
      exact absurd (hs.2.symm.trans (hun i hu)) hp
    · rwa [Slots.claim, Function.update_of_ne e] at hs
  case protect j r =>
    by_cases e : i = j
    · subst e
      simp only [Store.apply, Function.update_self, Slot.mk.injEq] at hs
      exact absurd (by rw [hs.2]) (hq i)
    · rwa [Store.apply, Function.update_of_ne e] at hs
  case clear j | drop_clear j =>
    by_cases e : i = j
    · subst e
      simp only [Store.apply, Function.update_self, Slot.mk.injEq] at hs
      exact absurd hs.2.symm hp
    · rwa [Store.apply, Function.update_of_ne e] at hs
  case drop_release j =>
    by_cases e : i = j
    · subst e
      simp [Store.apply] at hs
    · rwa [Store.apply, Function.update_of_ne e] at hs
  all_goals exact hs

theorem step_of_protect (hg : s.pc a.client = .protect i p) (hst : s.step a = some s') :
    a = .step a.client := by
  cases a with
  | step c => rfl
  | acquire c | is_hazarded c _ | snapshot c =>
    simp only [step] at hst
    split at hst
    · next hc =>
      have hbusy := hg.symm.trans hc
      cases hbusy
    · cases hst
  | protect c _ | clear c | drop c =>
    obtain ⟨j, hc, -⟩ := onGuard_cases hst
    have hbusy := hg.symm.trans hc
    cases hbusy

def publishing (p : Addr) (x : HazardRegistry × Act) : Bool :=
  match x.2 with
  | .step g =>
    match x.1.pc g with
    | .protect _ q => q = p
    | _ => false
  | _ => false

theorem publishing_of_protect (hg : s.pc a.client = .protect i p) (hst : s.step a = some s') :
    publishing p (s, a) = true := by
  rw [step_of_protect hg hst]
  simp [publishing, hg]

theorem sees_of_run {s₀ : HazardRegistry} (ht : s₀.Tabled) (hp : p ≠ null)
    (h0 : ∀ i, (s₀.pc c).Sees i p)
    (h : Run step (fun _ s a => publishing p (s, a) = false) s₀ tr s) :
    s.Tabled ∧ ∀ i, s.slots i = ⟨true, p⟩ → (s.pc c).Sees i p := by
  refine h.hist (P := fun _ s => s.Tabled ∧ ∀ i, s.slots i = ⟨true, p⟩ → (s.pc c).Sees i p)
    ⟨ht, fun i _ => h0 i⟩ ?_
  intro tr s a s' _ ⟨ht, hsees⟩ hno hst
  refine ⟨ht.step hst, fun i hs' => ?_⟩
  obtain ⟨q, hm, hpc⟩ := step_cases hst
  have hs : s.slots i = ⟨true, p⟩ :=
    hm.was_published ht.unused hp (fun j hj => by
      rw [publishing_of_protect hj hst] at hno
      cases hno) hs'
  have hi : i < MAX_HAZARDS := by
    obtain ⟨g, hg⟩ := ht.held i (by rw [hs])
    exact ht.lt g i hg
  rw [hpc]
  by_cases e : c = a.client
  · subst e
    rw [Function.update_self]
    exact hm.sees hs hp hi (hsees i hs)
  · rw [Function.update_of_ne e]
    exact hsees i hs

end HazardRegistry

open StepSys HazardRegistry

/-- **Answers were true when they were read.** A pointer that `is_hazarded` has confirmed, or
that is in a snapshot, was published at some moment of the call: the query then read a slot
that a guard held, and the last operation of that guard to finish was a `protect` of it. -/
theorem answers_were_published {tr : History HazardRegistry Act} {s : HazardRegistry}
    (h : Run HazardRegistry.step anyEnv .new tr s) (c : Nat) :
    (∀ p, s.pc c = .is_hazarded_ret p true → p ≠ null → Found tr c (.is_hazarded c p) p) ∧
      ∀ out, s.pc c = .snapshot_ret out → ∀ p ∈ out, p ≠ null ∧ Found tr c (.snapshot c) p := by
  have hshows := shows_of_run h c
  refine ⟨fun p hret hp => ?_, fun out hret => ?_⟩
  · rw [hret] at hshows
    exact hshows rfl hp
  · rw [hret] at hshows
    exact hshows

/-- Client 1 finds what the guard of client 0 protects. -/
theorem answers_were_published_hit :
    ∃ tr s, Run HazardRegistry.step anyEnv .new tr s ∧ Found tr 1 (.is_hazarded 1 7) 7 := by
  have h0 : Run HazardRegistry.step anyEnv .new [] .new := .nil
  have h1 := h0.exec (fun _ _ _ _ => trivial) (show exec _ _ _
    [.acquire 0, .step 0, .protect 0 7, .step 0, .is_hazarded 1 7, .step 1, .step 1] = some _
    from rfl)
  exact ⟨_, _, h1, (answers_were_published h1 1).1 7 rfl (by decide)⟩

/-- **What a reclaimer may rely on.** If nobody publishes `p` between the call of a query and
its return, and the query does not find `p`, then at the return no guard has `p` published. -/
theorem unseen_is_unpublished {pre mid : History HazardRegistry Act} {s₀ s : HazardRegistry}
    {call : Act} {c : Nat} {p : Addr}
    (h : Run HazardRegistry.step anyEnv .new (pre ++ (s₀, call) :: mid) s) (hp : p ≠ null)
    (hcall : call = .is_hazarded c p ∨ call = .snapshot c)
    (hmid : ∀ x ∈ mid, publishing p x = false)
    (hret : s.pc c = .is_hazarded_ret p false ∨ ∃ out, s.pc c = .snapshot_ret out ∧ p ∉ out) :
    ∀ g, stored g (pre ++ (s₀, call) :: mid) ≠ p := by
  have hkeeps := keeps_of_run h
  rw [List.append_cons] at h
  obtain ⟨s₁, h₁, h₂⟩ := h.cut
  have h0 (i : Nat) : (s₁.pc c).Sees i p := by
    obtain ⟨-, -, hst⟩ := h₁.last
    rcases hcall with rfl | rfl <;> simp only [HazardRegistry.step] at hst <;>
      split at hst <;> cases hst
    · simp [setPc, Pc.Sees]
    · simp [setPc, Pc.Sees]
  obtain ⟨ht, hsees⟩ := sees_of_run (tabled_of_run h₁) hp h0
    (h₂.imp fun _ s a hx => hmid _ hx.2)
  intro g hg
  have hg' := hkeeps g
  unfold Pc.Keeps at hg'
  rw [hg] at hg'
  split at hg'
  · next i hi =>
    have hseen := hsees i (by rw [← hg', ← ht.used g i hi])
    rcases hret with hret | ⟨out, hret, hout⟩
    · rw [hret] at hseen
      have hfound : false = true := hseen rfl
      cases hfound
    · rw [hret] at hseen
      exact hout hseen
  · exact hp hg'

/-- The guard of client 0 clears its slot while client 1 asks about the pointer. -/
theorem unseen_is_unpublished_cleared :
    ∃ tr s, Run HazardRegistry.step anyEnv .new tr s ∧ s.pc 1 = .is_hazarded_ret 7 false ∧
      stored 0 tr ≠ 7 := by
  have h0 : Run HazardRegistry.step anyEnv .new [] .new := .nil
  have h1 := h0.exec (fun _ _ _ _ => trivial) (show exec _ _ _
    [.acquire 0, .step 0, .protect 0 7, .step 0, .clear 0] = some _ from rfl)
  have h2 := h1.snoc (show anyEnv _ _ (.is_hazarded 1 7) from trivial) rfl
  have h3 := h2.exec (fun _ _ _ _ => trivial) (show exec _ _ _
    (.step 1 :: .step 0 :: List.replicate 65 (.step 1)) = some _ from rfl)
  have hun := @unseen_is_unpublished [_, _, _, _, _] _ _ _ (.is_hazarded 1 7) 1 7 h3 (by decide)
    (.inl rfl) (by decide +kernel) (.inl rfl)
  exact ⟨_, _, h3, rfl, hun 0⟩

end Samsara
