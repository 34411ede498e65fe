import Samsara.Lib.Progress
import Samsara.SafeTreiber.Drop

/-!
# Progress of the hazard-pointer stack

A step of `push` or `pop` is paid for as in the plain stack: what the call has left when
nobody interferes (`Pc.cost`), and five steps more when the head it has loaded is stale. The
reclaim pass is paid for in advance: the mutex is only taken with at most `MAX_HAZARDS` nodes
in the queue, and nobody else touches the queue while it is held. The mutex is also the only
thing a thread ever waits for, and who holds it can always step.
-/

namespace Samsara.SafeTreiber

open StepSys

namespace Pc

/-- The steps left until the call has returned, with `n` nodes in the queue, when nobody else
moves `head`. -/
def cost (n : Nat) : Pc → Nat
  | idle | panicked | fault => 0
  | push_alloc _ => 5
  | push_load .. => 4
  | push_next .. => 3
  | push_cas .. => 2
  | acquire i => 3 * MAX_HAZARDS + 17 + (MAX_HAZARDS - i)
  | pop_load _ => 3 * MAX_HAZARDS + 16
  | protect .. => 3 * MAX_HAZARDS + 15
  | verify .. => 3 * MAX_HAZARDS + 14
  | read_next .. => 3 * MAX_HAZARDS + 13
  | pop_cas .. => 3 * MAX_HAZARDS + 12
  | read_value .. => 3 * MAX_HAZARDS + 11
  | clear .. => 3 * MAX_HAZARDS + 10
  | drop_clear _ none => 3
  | drop_clear _ (some _) => 3 * MAX_HAZARDS + 9
  | drop_release _ none => 2
  | drop_release _ (some _) => 3 * MAX_HAZARDS + 8
  | retire_lock .. => 3 * MAX_HAZARDS + 7
  | retire_push .. => 2 * MAX_HAZARDS + 6 + n
  | reclaim_lock => 3 * MAX_HAZARDS + 5
  | scan i .. => 2 * (MAX_HAZARDS - i) + 4 + n
  | scan_ptr i .. => 2 * (MAX_HAZARDS - (i + 1)) + 5 + n
  | retain _ k _ => n - k + 3
  | unlock _ => 2
  | ret _ => 1

/-- The head that the thread will compare with `head` again. -/
def expects : Pc → Option Addr
  | push_next _ _ h | push_cas _ _ h | protect _ h | verify _ h | read_next _ h
  | pop_cas _ h _ => some h
  | _ => none

def stale (m : Mem) (p : Pc) : Bool := p.expects.any (· ≠ m.head)

/-- The steps left, counting those a stale head costs. -/
def potential (m : Mem) (p : Pc) : Nat := p.cost m.retired.length + 5 * (p.stale m).toNat

def wins (m : Mem) : Pc → Bool
  | push_cas _ _ h | pop_cas _ h _ => m.head = h
  | _ => false

def trying : Pc → Bool
  | push_alloc _ | push_load .. | push_next .. | push_cas .. | acquire _ | pop_load _
  | protect .. | verify .. | read_next .. | pop_cas .. => true
  | _ => false

def waits : Pc → Bool
  | retire_lock .. | reclaim_lock => true
  | _ => false

/-- Outside the mutex a thread does not count on the length of the queue. -/
theorem cost_of_outside {p : Pc} (h : p.critical = false) (n n' : Nat) : p.cost n = p.cost n' := by
  cases p
  case drop_clear i p | drop_release i p => cases p <;> rfl
  all_goals first | rfl | cases h

theorem potential_le {m : Mem} {p : Pc}
    (hp : p.critical = true → m.retired.length ≤ MAX_HAZARDS + 1) :
    p.potential m ≤ 4 * MAX_HAZARDS + 17 := by
  have hstale := (p.stale m).toNat_le
  have hmax : MAX_HAZARDS = 64 := rfl
  unfold potential
  cases p
  case drop_clear i p | drop_release i p =>
    cases p <;> simp only [cost, stale, expects, Option.any_none, Bool.toNat_false] <;> omega
  case retire_push | scan | scan_ptr | retain | unlock =>
    have hlen := hp rfl
    simp only [cost, stale, expects, Option.any_none, Bool.toNat_false]
    omega
  case acquire | pop_load =>
    simp only [cost, stale, expects, Option.any_none, Bool.toNat_false]
    omega
  all_goals
    simp only [cost]
    omega

end Pc

variable {m m' : Mem} {p q : Pc} {t : Nat}

/-- A step pays for itself, also when it sends the thread back to the load of `head`. -/
theorem Move.pays (hm : Move .sc t m q m' p) (hl : m.lock = none → m.retired.length ≤ MAX_HAZARDS) :
    1 + p.potential m' ≤ q.potential m := by
  unfold Pc.potential
  cases hm
  case push_cas_fail hh | pop_cas_fail hh | verify_fail hh =>
    simp only [Pc.cost, Pc.stale, Pc.expects, Option.any_some, Option.any_none, ne_eq, Ne.symm hh,
      not_false_eq_true, decide_true, Bool.toNat_true, Bool.toNat_false]
    omega
  case push_next | read_next | protect | verify_ok =>
    simp only [Pc.cost, Pc.stale, Pc.expects, Option.any_some, Mem.store_head]
    omega
  case push_load | pop_load =>
    simp only [Pc.cost, Pc.stale, Pc.expects, Option.any_some, Option.any_none, ne_eq,
      not_true_eq_false, decide_false, Bool.toNat_false]
    omega
  case retain_keep hp _ =>
    obtain ⟨hk, -⟩ := List.getElem?_eq_some_iff.mp hp
    simp only [Pc.cost, Pc.stale, Pc.expects, Option.any_none, Bool.toNat_false]
    omega
  case retain_free hp _ =>
    obtain ⟨hk, -⟩ := List.getElem?_eq_some_iff.mp hp
    simp only [Pc.cost, Pc.stale, Pc.expects, Option.any_none, Bool.toNat_false,
      List.length_eraseIdx_of_lt hk]
    omega
  case retire_lock hn | reclaim_lock hn =>
    have hlen := hl hn
    simp only [Pc.cost, Pc.stale, Pc.expects, Option.any_none, Bool.toNat_false, Mem.drain_retired]
    omega
  case drop_clear i p =>
    cases p <;> simp only [Pc.cost, Pc.stale, Pc.expects, Option.any_none, Bool.toNat_false] <;>
      omega
  all_goals
    simp only [Pc.cost, Pc.stale, Pc.expects, Option.any_none, Bool.toNat_false, List.length_append,
      List.length_singleton]
    omega

theorem Move.head (hm : Move .sc t m q m' p) (hw : q.wins m = false) : m'.head = m.head := by
  cases hm
  case push_cas_ok hh | pop_cas_ok hh => simp [Pc.wins, hh] at hw
  case protect | clear | drop_clear | drop_release_none | drop_release => exact Mem.store_head
  all_goals rfl

theorem Move.delays {r : Pc} (hm : Move .sc t m q m' p)
    (hr : r.critical = true → q.critical = false) :
    r.potential m' ≤ r.potential m + 5 * (q.wins m).toNat := by
  have hcost : r.cost m'.retired.length = r.cost m.retired.length := by
    rcases hm.retired with e | hq
    · rw [e]
    · refine Pc.cost_of_outside ?_ _ _
      by_contra hc
      exact nomatch hq.symm.trans (hr (by simpa using hc))
  have hstale := (r.stale m').toNat_le
  unfold Pc.potential
  rw [hcost]
  cases hw : q.wins m with
  | false => rw [Pc.stale, hm.head hw]; exact Nat.le_add_right ..
  | true => simp only [Bool.toNat_true]; omega

theorem Move.won (hm : Move .sc t m q m' p) :
    (q.wins m).toNat + p.trying.toNat ≤ q.trying.toNat := by
  cases hm
  case push_cas_ok hh | pop_cas_ok hh | push_cas_fail hh | pop_cas_fail hh =>
    simp [Pc.wins, Pc.trying, hh]
  all_goals simp [Pc.wins, Pc.trying]

namespace Stack

def calls (_ : Stack) : Act → Nat
  | .push .. | .pop _ | .force_reclaim _ => 1
  | .alloc .. | .step _ | .flush _ => 0

def works (_ : Stack) : Act → Nat
  | .push .. | .pop _ | .force_reclaim _ | .flush _ => 0
  | .alloc .. | .step _ => 1

def wins (s : Stack) : Act → Nat
  | .step t => ((s.pc t).wins s.mem).toNat
  | _ => 0

variable {s s' : Stack} {a : Act}

theorem queue_le (h : Life.Reachable s) : s.mem.retired.length ≤ MAX_HAZARDS + 1 := by
  obtain ⟨tr, hr⟩ := h
  refine hr.hist (P := fun _ s => s.mem.retired.length ≤ MAX_HAZARDS + 1) (Nat.zero_le _) ?_
  intro tr s a s' hr ih _ hst
  have hb := bounded_of_run hr
  cases act_cases hst with
  | push | pop | force_reclaim | alloc | flush => exact ih
  | @step t m p hm =>
    have hnow := hb.locked t
    generalize s.pc t = q at hm hnow
    cases hm
    case retire_full | retire_push =>
      have hle : s.mem.retired.length ≤ MAX_HAZARDS := hnow
      simpa using hle
    case retain_free hp _ => exact (List.length_eraseIdx_le ..).trans ih
    case protect | clear | drop_clear | drop_release_none | drop_release =>
      simpa only [Mem.store_retired] using ih
    all_goals exact ih

/-- A step is paid for by the thread that takes it, and costs the others five steps each if it
is a successful compare-and-swap. -/
theorem step_potential (h : Life.Reachable s) (hst : s.step .sc a = some s') :
    s.works a + (s'.pc a.thread).potential s'.mem ≤
        (s.pc a.thread).potential s.mem + (4 * MAX_HAZARDS + 17) * s.calls a ∧
      ∀ t, t ≠ a.thread → (s'.pc t).potential s'.mem ≤ (s.pc t).potential s.mem + 5 * s.wins a := by
  have hothers {u : Nat} (hu : u ≠ a.thread) := step_others hst hu
  cases act_cases hst with
  | push hp | pop hp | force_reclaim hp =>
    refine ⟨?_, fun u hu => ?_⟩
    · simp only [Act.thread, works, calls, setPc, Function.update_self, hp, Pc.potential, Pc.cost,
        Pc.stale, Pc.expects, Option.any_none, Bool.toNat_false]
      omega
    · rw [hothers hu]
      exact Nat.le_add_right ..
  | alloc hp =>
    refine ⟨?_, fun u hu => ?_⟩
    · simp [Act.thread, works, calls, hp, Pc.potential, Pc.cost, Pc.stale, Pc.expects]
    · rw [hothers hu]
      exact Nat.le_add_right ..
  | flush => exact ⟨Nat.le_of_eq (Nat.zero_add _), fun u _ => Nat.le_add_right ..⟩
  | @step t m p hm =>
    obtain ⟨own, l, hsafe⟩ := h.safe
    obtain ⟨tr, hr⟩ := h
    refine ⟨?_, fun u hu => ?_⟩
    · simpa [Act.thread, works, calls] using hm.pays (bounded_of_run hr).unlocked
    · rw [hothers hu]
      refine hm.delays fun hc => ?_
      by_contra hq
      exact hu (hsafe.settled.critical_unique (Bool.eq_true_of_not_eq_false hq) hc)

theorem step_trying (hst : s.step .sc a = some s') :
    s.wins a + (s'.pc a.thread).trying.toNat ≤ (s.pc a.thread).trying.toNat + s.calls a ∧
      ∀ t, t ≠ a.thread → (s'.pc t).trying.toNat ≤ (s.pc t).trying.toNat + 0 := by
  refine ⟨?_, fun u hu => by rw [step_others hst hu]; rfl⟩
  cases act_cases hst with
  | push hp | pop hp | force_reclaim hp => simp [Act.thread, wins, calls, setPc, hp, Pc.trying]
  | alloc hp => simp [Act.thread, wins, calls, hp, Pc.trying]
  | step hm => simpa [Act.thread, wins, calls] using hm.won
  | flush => simp [Act.thread, wins, calls]

theorem can_step_of_critical (hc : (s.pc t).critical = true) :
    ∃ s', s.step .sc (.step t) = some s' := by
  suffices h : ∃ r, threadStep .sc t s.mem (s.pc t) = some r by
    obtain ⟨r, hr⟩ := h
    exact ⟨_, by rw [step, hr]; rfl⟩
  cases hpc : s.pc t with
  | retire_push | scan_ptr | unlock => exact ⟨_, rfl⟩
  | scan =>
    simp only [threadStep]
    split
    · split <;> exact ⟨_, rfl⟩
    · exact ⟨_, rfl⟩
  | retain =>
    simp only [threadStep]
    split
    · split <;> exact ⟨_, rfl⟩
    · exact ⟨_, rfl⟩
  | _ => rw [hpc] at hc; cases hc

theorem can_step (hidle : s.pc t ≠ .idle) (halloc : ∀ v, s.pc t ≠ .push_alloc v)
    (hpanic : s.pc t ≠ .panicked) (hfault : s.pc t ≠ .fault)
    (hlock : (s.pc t).waits = true → s.mem.lock = none) :
    ∃ s', s.step .sc (.step t) = some s' := by
  by_cases hc : (s.pc t).critical = true
  · exact can_step_of_critical hc
  suffices h : ∃ r, threadStep .sc t s.mem (s.pc t) = some r by
    obtain ⟨r, hr⟩ := h
    exact ⟨_, by rw [step, hr]; rfl⟩
  cases hpc : s.pc t with
  | idle => exact absurd hpc hidle
  | push_alloc v => exact absurd hpc (halloc v)
  | panicked => exact absurd hpc hpanic
  | fault => exact absurd hpc hfault
  | push_load | protect | clear | drop_clear | ret => exact ⟨_, rfl⟩
  | drop_release i p => cases p <;> exact ⟨_, rfl⟩
  | push_next | read_next | read_value | push_cas | pop_load | verify | pop_cas =>
    simp only [threadStep]
    split <;> exact ⟨_, rfl⟩
  | acquire =>
    simp only [threadStep]
    split
    · split <;> exact ⟨_, rfl⟩
    · exact ⟨_, rfl⟩
  | retire_lock | reclaim_lock =>
    simp only [threadStep, hlock (by rw [hpc]; rfl)]
    exact ⟨_, rfl⟩
  | _ => rw [hpc] at hc; exact absurd rfl hc

end Stack

section Segment

variable {pre tr : History Stack Stack.Act} {s₁ s : Stack} {threads : Finset Nat}

/-- **Progress of the hazard-pointer stack.** However the threads interleave, in any part of a
run they take at most `4 * MAX_HAZARDS + 17` steps each and for each call made, and five for
each successful compare-and-swap of another thread, of which a call has one at most. A thread
in a call is never blocked but for the `retired` mutex, whose holder can step. -/
theorem safe_treiber_progress (h₁ : Run (Stack.step .sc) anyEnv .new pre s₁)
    (h₂ : Run (Stack.step .sc) anyEnv s₁ tr s) (hthreads : ∀ x ∈ tr, x.2.thread ∈ threads) :
    total Stack.works tr ≤ (4 * MAX_HAZARDS + 17) * (threads.card + total Stack.calls tr) +
        (threads.card - 1) * (5 * total Stack.wins tr) ∧
      total Stack.wins tr ≤ threads.card + total Stack.calls tr ∧
      ∀ t, s.pc t ≠ .idle → (∀ v, s.pc t ≠ .push_alloc v) → s.pc t ≠ .panicked →
        (∃ s', s.step .sc (.step t) = some s') ∨ (s.pc t).waits = true ∧
          ∃ u, s.mem.lock = some u ∧ ∃ s', s.step .sc (.step u) = some s' := by
  have hreach : Life.Reachable s₁ := ⟨pre, h₁⟩
  have hend : Life.Reachable s :=
    h₂.inv (P := Life.Reachable) hreach fun _ _ _ h hst => h.step hst
  refine ⟨?_, ?_, fun t hidle halloc hpanic => ?_⟩
  · have hle := h₂.amortized_threads (I := Life.Reachable) Stack.Act.thread
      (fun s t => (s.pc t).potential s.mem) Stack.works
      (fun s a => (4 * MAX_HAZARDS + 17) * s.calls a) (fun s a => 5 * s.wins a) hreach
      (fun _ _ _ _ h _ hst => ⟨h.step hst, Stack.step_potential h hst⟩) hthreads
    have hstart : ∑ t ∈ threads, (s₁.pc t).potential s₁.mem ≤
        threads.card * (4 * MAX_HAZARDS + 17) :=
      Finset.sum_le_card_nsmul _ _ _ fun t _ => Pc.potential_le fun _ => Stack.queue_le hreach
    simp only [total_mul] at hle
    rw [Nat.mul_add, Nat.mul_comm _ threads.card]
    omega
  · have hle := h₂.amortized_threads (I := fun _ => True) Stack.Act.thread
      (fun s t => (s.pc t).trying.toNat) Stack.wins Stack.calls (fun _ _ => 0) trivial
      (fun _ _ _ _ _ _ hst => ⟨trivial, Stack.step_trying hst⟩) hthreads
    have hstart : ∑ t ∈ threads, (s₁.pc t).trying.toNat ≤ threads.card * 1 :=
      Finset.sum_le_card_nsmul _ _ _ fun t _ => Bool.toNat_le _
    simp only [total_zero, Nat.mul_zero] at hle
    omega
  · obtain ⟨own, l, hsafe⟩ := hend.safe
    obtain ⟨tr', hr⟩ := hend
    cases hl : s.mem.lock with
    | none =>
      exact .inl (Stack.can_step hidle halloc hpanic (Stack.ne_fault_sc hr t) fun _ => hl)
    | some u =>
      by_cases hw : (s.pc t).waits = true
      · exact .inr ⟨hw, u, rfl, Stack.can_step_of_critical ((hsafe.settled.lock u).mp hl)⟩
      · exact .inl (Stack.can_step hidle halloc hpanic (Stack.ne_fault_sc hr t)
          fun h => absurd h hw)

/-- Two threads pop the same node: the compare-and-swap of thread 1 comes too late. -/
theorem safe_treiber_progress_race :
    ∃ tr s, Run (Stack.step .sc) anyEnv .new tr s ∧ total Stack.calls tr = 3 ∧
      total Stack.works tr = 18 ∧ total Stack.wins tr = 2 ∧ s.pc 1 = .pop_load 0 ∧
      ∃ s', s.step .sc (.step 1) = some s' := by
  have h0 : Run (Stack.step .sc) anyEnv .new [] .new := .nil
  have h := h0.exec (fun _ _ _ _ => trivial) (show exec _ _ _
    ([.push 0 7, .alloc 0 1] ++ List.replicate 4 (.step 0) ++
      .pop 1 :: List.replicate 5 (.step 1) ++ .pop 2 :: List.replicate 7 (.step 2) ++ [.step 1]) =
        some _ from rfl)
  obtain ⟨-, -, hstep⟩ := @safe_treiber_progress _ _ _ _ {0, 1, 2} h0 h (by decide)
  exact ⟨_, _, h, by decide, by decide, by decide, rfl,
    (hstep 1 nofun nofun nofun).resolve_right nofun⟩

end Segment

end Samsara.SafeTreiber
