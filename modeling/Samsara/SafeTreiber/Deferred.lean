import Samsara.SafeTreiber.Table

/-!
# How much garbage waits

A thread gives the `retired` mutex back with at most `MAX_HAZARDS` nodes in the queue. Either
it has left the queue below the threshold, or it has scanned: a scan of `MAX_HAZARDS` slots
finds at most that many addresses, and of nodes that are pairwise distinct `retain` keeps
those found. `Pc.Bounded` is what the thread in the critical section knows of the queue on
its way there.
-/

namespace Samsara.SafeTreiber

open StepSys

/-- What the thread inside the mutex knows of the queue. -/
def Pc.Bounded (m : Mem) : Pc → Prop
  | retire_push _ _ | unlock _ => m.retired.length ≤ MAX_HAZARDS
  | scan i out _ => out.length ≤ i ∧ i ≤ MAX_HAZARDS
  | scan_ptr i out _ => out.length ≤ i ∧ i < MAX_HAZARDS
  | retain out k _ =>
    out.length ≤ MAX_HAZARDS ∧ ∀ j a, j < k → m.retired[j]? = some a → a ∈ out
  | _ => True

variable {mm : MemModel} {m m' : Mem} {pc : Nat → Pc} {t : Nat} {p q : Pc}

theorem Pc.Bounded.congr (h : q.Bounded m) (hr : m'.retired = m.retired) : q.Bounded m' := by
  cases q
  case retire_push | unlock | retain =>
    simp only [Bounded, hr] at h ⊢
    exact h
  all_goals exact h

theorem Pc.bounded_of_outside (h : q.critical = false) : q.Bounded m := by
  cases q <;> trivial

theorem Move.retired (hm : Move mm t m q m' p) : m'.retired = m.retired ∨ q.critical = true := by
  cases hm
  case retire_full | retire_push | retain_free => exact .inr rfl
  case protect | clear | drop_clear | drop_release_none | drop_release =>
    exact .inl Mem.store_retired
  all_goals exact .inl rfl

/-- A queue without duplicates whose entries have all been found is no longer than the scan. -/
theorem length_le_of_found {retired out : List Addr} {k : Nat} (hnd : retired.Nodup)
    (hk : retired[k]? = none) (hf : ∀ j a, j < k → retired[j]? = some a → a ∈ out) :
    retired.length ≤ out.length := by
  refine (List.subperm_of_subset hnd fun a ha => ?_).length_le
  obtain ⟨j, hj⟩ := List.mem_iff_getElem?.1 ha
  have hlt : j < retired.length := (List.getElem?_eq_some_iff.1 hj).1
  have hle : retired.length ≤ k := List.getElem?_eq_none_iff.1 hk
  exact hf j a (by omega) hj

theorem Move.bounded (hm : Move mm t m q m' p) (hnd : m.retired.Nodup) (hq : q.Bounded m)
    (hl : m.lock = none → m.retired.length ≤ MAX_HAZARDS) : p.Bounded m' := by
  cases hm
  case retire_lock hn => exact hl hn
  case retire_full => exact ⟨Nat.le_refl 0, Nat.zero_le _⟩
  case retire_push hf => exact Nat.le_of_not_le hf
  case reclaim_lock => exact ⟨Nat.le_refl 0, Nat.zero_le _⟩
  case scan_used hi hu => exact ⟨hq.1, hi⟩
  case scan_unused hi hu => exact ⟨Nat.le_succ_of_le hq.1, hi⟩
  case scan_done hi =>
    have hout := hq.1
    have hle := hq.2
    exact ⟨by omega, fun j a hj => absurd hj (Nat.not_lt_zero j)⟩
  case scan_ptr =>
    have hout := hq.1
    refine ⟨?_, hq.2⟩
    split
    · rw [List.length_append, List.length_singleton]
      omega
    · omega
  case retain_keep out k r a hk ho =>
    refine ⟨hq.1, fun j b hj hb => ?_⟩
    rcases Nat.lt_succ_iff_lt_or_eq.1 hj with hj | rfl
    · exact hq.2 j b hj hb
    · rw [hk] at hb
      cases hb
      exact ho
  case retain_free out k r a hk ho =>
    refine ⟨hq.1, fun j b hj hb => hq.2 j b hj ?_⟩
    rwa [List.getElem?_eraseIdx_of_lt hj] at hb
  case retain_done out k r hk => exact (length_le_of_found hnd hk hq.2).trans hq.1
  all_goals trivial

theorem Move.found {j : Nat} {out : List Addr} {b : Addr} (hm : Move mm t m q m' p)
    (hp : p.scanned = some (j, out)) (hb : b ∈ out) :
    (∃ i out', q.scanned = some (i, out') ∧ b ∈ out') ∨
      ∃ i out' r, q = .scan_ptr i out' r ∧ (m.view t i).ptr = b ∧ b ≠ null := by
  cases hm
  case retire_full | reclaim_lock =>
    cases hp
    cases hb
  case scan_ptr i out' r =>
    cases hp
    split at hb
    · next hne =>
      rcases List.mem_append.1 hb with hb | hb
      · exact .inl ⟨i, out', rfl, hb⟩
      · cases List.mem_singleton.1 hb
        exact .inr ⟨i, out', r, rfl, rfl, hne⟩
    · exact .inl ⟨i, out', rfl, hb⟩
  case scan_used | scan_unused | scan_done | retain_keep | retain_free =>
    cases hp
    exact .inl ⟨_, _, rfl, hb⟩
  all_goals cases hp

namespace Stack

variable {s s' : Stack} {a : Act} {env : History Stack Act → Stack → Act → Prop}
  {tr : History Stack Act}

structure Bounded (s : Stack) : Prop where
  /-- whenever nobody holds the mutex -/
  unlocked : s.mem.lock = none → s.mem.retired.length ≤ MAX_HAZARDS
  locked : ∀ t, (s.pc t).Bounded s.mem

theorem Bounded.setPc (h : s.Bounded) (hp : p.critical = false) (hm : m'.retired = s.mem.retired)
    (hl : m'.lock = s.mem.lock) : Bounded ⟨m', Function.update s.pc t p⟩ where
  unlocked := by simpa only [hm, hl] using h.unlocked
  locked := (Function.forall_update_iff s.pc (p := fun _ q => q.Bounded m')).2
    ⟨Pc.bounded_of_outside hp, fun u _ => (h.locked u).congr hm⟩

theorem Bounded.move (h : s.Bounded) (hset : Settled s.mem s.pc) (hnd : s.mem.retired.Nodup)
    (hm : Move mm t s.mem (s.pc t) m' p) : Bounded ⟨m', Function.update s.pc t p⟩ where
  unlocked := by
    intro hn
    have hnow := h.locked t
    rcases hm.lock with ⟨-, hl⟩ | ⟨-, -, hl⟩ | ⟨hq, hp, -⟩
    · -- nobody is inside, so the queue has not changed
      have hnone : s.mem.lock = none := hl.symm.trans hn
      rcases hm.retired with hr | hq
      · rw [hr]
        exact h.unlocked hnone
      · exact nomatch hnone.symm.trans ((hset.lock t).2 hq)
    · exact nomatch hl.symm.trans hn
    · generalize s.pc t = q at hm hnow hq
      cases hm <;> first | exact hnow | contradiction
  locked := by
    refine (Function.forall_update_iff s.pc (p := fun _ q => q.Bounded m')).2
      ⟨hm.bounded hnd (h.locked t) h.unlocked, fun u hu => ?_⟩
    rcases hm.retired with hr | hq
    · exact (h.locked u).congr hr
    · refine Pc.bounded_of_outside ?_
      by_contra hc
      exact hu (hset.critical_unique hq (by simpa using hc))

theorem bounded_of_run (h : Run (Stack.step .sc) env .new tr s) : s.Bounded := by
  refine h.hist (P := fun _ s => s.Bounded) ⟨fun _ => Nat.zero_le _, fun _ => trivial⟩ ?_
  intro tr s a s' hr ih he hst
  obtain ⟨own, l, hsafe⟩ := safe (fun _ _ a hr _ => publishesFirst_sc hr a) hr
  cases act_cases hst
  case push | pop | force_reclaim | alloc => exact ih.setPc rfl rfl rfl
  case step t m p hm => exact ih.move hsafe.settled hsafe.owned.retired_nodup hm
  case flush => exact ⟨ih.unlocked, fun t => (ih.locked t).congr rfl⟩

/-! ## What the scan has found -/

/-- The pass that `t` is in has read `a` in a slot in use. -/
def FoundBy (tr : History Stack Act) (t : Nat) (a : Addr) : Prop :=
  ∃ pre s₁ post i out r, tr = pre ++ (s₁, .step t) :: post ∧ s₁.pc t = .scan_ptr i out r ∧
    i < MAX_HAZARDS ∧ s₁.mem.slots i = ⟨true, a⟩ ∧ ∀ x ∈ post, (x.1.pc t).scanned ≠ none

theorem FoundBy.snoc {b : Addr} (h : FoundBy tr t b) (hs : (s.pc t).scanned ≠ none) :
    FoundBy (tr ++ [(s, a)]) t b := by
  obtain ⟨pre, s₁, post, i, out, r, rfl, hpc, hi, hslot, hpost⟩ := h
  refine ⟨pre, s₁, post ++ [(s, a)], i, out, r, by simp, hpc, hi, hslot, fun x hx => ?_⟩
  rcases List.mem_append.1 hx with hx | hx
  · exact hpost x hx
  · cases List.mem_singleton.1 hx
    exact hs

theorem FoundBy.read {i : Nat} {out : List Addr} {r : Ret} {b : Addr} (ht : s.Tabled)
    (hs : s.Bounded) (hpc : s.pc t = .scan_ptr i out r) (hp : (s.mem.slots i).ptr = b)
    (hb : b ≠ null) : FoundBy (tr ++ [(s, .step t)]) t b := by
  have hi : i < MAX_HAZARDS := (hpc ▸ hs.locked t : (Pc.scan_ptr i out r).Bounded s.mem).2
  have hu : (s.mem.slots i).in_use = true := by
    by_contra hu
    exact hb (hp.symm.trans (ht.unused i (by simpa using hu)))
  exact ⟨tr, s, [], i, out, r, rfl, hpc, hi, by rw [← hu, ← hp], nofun⟩

theorem found_of_run (h : Run (Stack.step .sc) env .new tr s) :
    ∀ t j out, (s.pc t).scanned = some (j, out) → ∀ b ∈ out, FoundBy tr t b := by
  refine h.hist (P := fun tr s => ∀ t j out, (s.pc t).scanned = some (j, out) →
    ∀ b ∈ out, FoundBy tr t b) nofun ?_
  intro tr s a s' hr ih he hst t j out hs b hb
  have old {i : Nat} {out' : List Addr} (hold : (s.pc t).scanned = some (i, out'))
      (hb : b ∈ out') : FoundBy (tr ++ [(s, a)]) t b :=
    (ih t i out' hold b hb).snoc (by simp [hold])
  have other {u : Nat} {p : Pc} (hs : (Function.update s.pc u p t).scanned = some (j, out))
      (hp : p.scanned = none) : FoundBy (tr ++ [(s, a)]) t b := by
    rcases eq_or_ne t u with rfl | e
    · rw [Function.update_self, hp] at hs
      cases hs
    · rw [Function.update_of_ne e] at hs
      exact old hs hb
  cases act_cases hst
  case push | pop | force_reclaim | alloc => exact other hs rfl
  case flush => exact old hs hb
  case step u m p hm =>
    rcases eq_or_ne t u with rfl | e
    · simp only [Function.update_self] at hs
      rcases hm.found hs hb with ⟨i, out', hold, hb⟩ | ⟨i, out', r, hpc, hptr, hne⟩
      · exact old hold hb
      · rw [Mem.view_of_nil (buf_sc hr t)] at hptr
        exact .read (tabled_of_run hr) (bounded_of_run hr) hpc hptr hne
    · simp only [Function.update_of_ne e] at hs
      exact old hs hb

end Stack

/-- **Deferred garbage is bounded.** With the mutex free at most `MAX_HAZARDS` nodes wait in
the queue, and those that a reclaim pass leaves there it has read in slots in use. -/
theorem retired_bounded {tr : History Stack Stack.Act} {s : Stack}
    (h : Run (Stack.step .sc) anyEnv .new tr s) :
    (s.mem.lock = none → s.mem.retired.length ≤ MAX_HAZARDS) ∧
      ∀ t out k r, s.pc t = .retain out k r → s.mem.retired[k]? = none →
        ∀ a ∈ s.mem.retired, Stack.FoundBy tr t a := by
  have hb := Stack.bounded_of_run h
  refine ⟨hb.unlocked, fun t out k r hpc hk a ha => ?_⟩
  have hkept := (hpc ▸ hb.locked t : (Pc.retain out k r).Bounded s.mem).2
  obtain ⟨j, hj⟩ := List.mem_iff_getElem?.1 ha
  have hlt : j < s.mem.retired.length := (List.getElem?_eq_some_iff.1 hj).1
  have hle : s.mem.retired.length ≤ k := List.getElem?_eq_none_iff.1 hk
  exact Stack.found_of_run h t MAX_HAZARDS out (by rw [hpc]; rfl) a (hkept j a (by omega) hj)

/-- Thread 2 scans while thread 1 has node 1 in slot 0, which thread 0 has popped. -/
def keptHazard : List Stack.Act :=
  List.flatten [[.push 0 7, .alloc 0 1], .replicate 4 (.step 0), [.pop 1],
    .replicate 3 (.step 1), [.pop 0], .replicate 15 (.step 0), [.force_reclaim 2],
    .replicate 68 (.step 2)]

theorem retired_bounded_kept :
    ∃ tr s, Run (Stack.step .sc) anyEnv .new tr s ∧ s.mem.retired = [1] ∧
      Stack.FoundBy tr 2 1 := by
  have hexec : (exec (Stack.step .sc) [] .new keptHazard).map
      (fun r => (r.2.pc 2, r.2.mem.retired)) = some (.retain [1] 1 .reclaimed, [1]) := by
    decide +kernel
  obtain ⟨r, hr, hret⟩ := Option.map_eq_some_iff.1 hexec
  have hrun : Run (Stack.step .sc) anyEnv .new r.1 r.2 :=
    Run.nil.exec (fun _ _ _ _ => trivial) hr
  have hq : r.2.mem.retired = [1] := congrArg Prod.snd hret
  exact ⟨r.1, r.2, hrun, hq, (retired_bounded hrun).2 2 [1] 1 .reclaimed
    (congrArg Prod.fst hret) (by rw [hq]; rfl) 1 (by rw [hq]; exact List.mem_cons_self)⟩

end Samsara.SafeTreiber
