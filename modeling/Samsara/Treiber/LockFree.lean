import Samsara.Lib.Progress
import Samsara.Treiber.Safe

/-!
# The plain stack is lock-free

A thread in a call can always step, whatever the others do, and only a compare-and-swap that
another thread has won makes it start over. A thread pays for its steps out of what its call
has left when nobody interferes (`Pc.cost`); a success of another thread makes the head it
has loaded stale, which costs it at most three more steps: the failed compare-and-swap and
the steps it repeats.
-/

namespace Samsara.Treiber

open StepSys

namespace Pc

/-- The steps left until the call has returned, when nobody interferes. -/
def cost : Pc → Nat
  | idle => 0
  | push_alloc _ => 5
  | push_load .. => 4
  | push_next .. => 3
  | push_cas .. => 2
  | pop_load => 6
  | read_next _ => 5
  | pop_cas .. => 4
  | take _ => 3
  | free .. => 2
  | ret _ => 1

/-- The head that the thread's next compare-and-swap will expect. -/
def expects : Pc → Option Addr
  | push_next _ _ h | push_cas _ _ h | read_next h | pop_cas h _ => some h
  | _ => none

def wins (m : Mem) : Pc → Bool
  | push_cas _ _ h | pop_cas h _ => m.head = h
  | _ => false

def trying : Pc → Bool
  | push_alloc _ | push_load .. | push_next .. | push_cas .. | pop_load | read_next _
  | pop_cas .. => true
  | idle | take _ | free .. | ret _ => false

def stale (m : Mem) (p : Pc) : Bool := p.expects.any (· ≠ m.head)

/-- The steps left, counting those a stale head costs. -/
def potential (m : Mem) (p : Pc) : Nat := p.cost + 3 * (p.stale m).toNat

theorem potential_le (m : Mem) (p : Pc) : p.potential m ≤ 8 := by
  have hstale := (p.stale m).toNat_le
  unfold potential
  cases p
  case pop_load => simp [cost, stale, expects]
  all_goals simp only [cost]; omega

theorem potential_of_head {m m' : Mem} (h : m'.head = m.head) (p : Pc) :
    p.potential m' = p.potential m := by
  unfold potential stale
  rw [h]

theorem potential_le_add (m m' : Mem) (p : Pc) : p.potential m' ≤ p.potential m + 3 := by
  have hstale := (p.stale m').toNat_le
  unfold potential
  omega

end Pc

variable {m m' : Mem} {p p' : Pc}

/-- A step pays for itself, also when it sends the thread back to the load. -/
theorem Move.pays (hm : Move m p m' p') : 1 + p'.potential m' ≤ p.potential m := by
  unfold Pc.potential
  cases hm
  case push_cas_fail hh | pop_cas_fail hh =>
    simp [Pc.cost, Pc.stale, Pc.expects, Ne.symm hh]
  case push_next | read_next =>
    simp only [Pc.cost, Pc.stale, Pc.expects, Option.any_some]
    omega
  all_goals simp [Pc.cost, Pc.stale, Pc.expects]

theorem Move.head (hm : Move m p m' p') (hw : p.wins m = false) : m'.head = m.head := by
  cases hm
  case push_cas_ok hh | pop_cas_ok hh => simp [Pc.wins, hh] at hw
  all_goals rfl

theorem Move.won (hm : Move m p m' p') :
    (p.wins m).toNat + p'.trying.toNat ≤ p.trying.toNat := by
  cases hm
  case push_cas_fail hh | pop_cas_fail hh => simp [Pc.wins, Pc.trying, hh]
  case push_cas_ok hh | pop_cas_ok hh => simp [Pc.wins, Pc.trying, hh]
  all_goals simp [Pc.wins, Pc.trying]

namespace Stack

def Act.thread : Act → Nat
  | .push t _ | .pop t | .alloc t _ | .step t => t

def calls (_ : Stack) : Act → Nat
  | .push .. | .pop _ => 1
  | .alloc .. | .step _ => 0

def works (_ : Stack) : Act → Nat
  | .push .. | .pop _ => 0
  | .alloc .. | .step _ => 1

def wins (s : Stack) : Act → Nat
  | .step t => ((s.pc t).wins s.mem).toNat
  | _ => 0

variable {s s' : Stack} {a : Act} {t : Nat}

theorem step_others (hst : s.step a = some s') (ht : t ≠ a.thread) : s'.pc t = s.pc t := by
  cases act_cases hst <;> exact Function.update_of_ne ht ..

/-- A step is paid for by the thread that takes it, and costs the others three steps each if
it is a successful compare-and-swap. -/
theorem step_potential (hst : s.step a = some s') :
    s.works a + (s'.pc a.thread).potential s'.mem ≤
        (s.pc a.thread).potential s.mem + 6 * s.calls a ∧
      ∀ t, t ≠ a.thread → (s'.pc t).potential s'.mem ≤ (s.pc t).potential s.mem + 3 * s.wins a := by
  have hothers {u : Nat} (hu : u ≠ a.thread) := step_others hst hu
  cases act_cases hst with
  | push hp | pop hp =>
    refine ⟨?_, fun u hu => ?_⟩
    · simp [Act.thread, works, calls, setPc, hp, Pc.potential, Pc.cost, Pc.stale, Pc.expects]
    · rw [hothers hu]
      exact Nat.le_add_right ..
  | alloc hp =>
    refine ⟨?_, fun u hu => ?_⟩
    · simp [Act.thread, works, calls, hp, Pc.potential, Pc.cost, Pc.stale, Pc.expects]
    · rw [hothers hu]
      exact Nat.le_add_right ..
  | @step t m p hm =>
    refine ⟨?_, fun u hu => ?_⟩
    · simpa [Act.thread, works, calls] using hm.pays
    · rw [hothers hu, wins]
      cases hw : (s.pc t).wins s.mem with
      | false => exact (Pc.potential_of_head (hm.head hw) _).le
      | true => exact Pc.potential_le_add s.mem m _

theorem step_trying (hst : s.step a = some s') :
    s.wins a + (s'.pc a.thread).trying.toNat ≤ (s.pc a.thread).trying.toNat + s.calls a ∧
      ∀ t, t ≠ a.thread → (s'.pc t).trying.toNat ≤ (s.pc t).trying.toNat + 0 := by
  refine ⟨?_, fun u hu => by rw [step_others hst hu]; rfl⟩
  cases act_cases hst with
  | push hp | pop hp => simp [Act.thread, wins, calls, setPc, hp, Pc.trying]
  | alloc hp => simp [Act.thread, wins, calls, hp, Pc.trying]
  | step hm => simpa [Act.thread, wins, calls] using hm.won

end Stack

theorem Safe.can_step {own : Addr → Place} {l : List Addr} {s : Stack} {t : Nat}
    (hs : Safe own l s.mem s.pc) (hidle : s.pc t ≠ .idle)
    (halloc : ∀ v, s.pc t ≠ .push_alloc v) : ∃ s', s.step (.step t) = some s' := by
  suffices h : ∃ r, threadStep s.mem (s.pc t) = some r by
    obtain ⟨r, hr⟩ := h
    exact ⟨_, by rw [Stack.step, hr]; rfl⟩
  cases hpc : s.pc t with
  | idle => exact absurd hpc hidle
  | push_alloc v => exact absurd hpc (halloc v)
  | push_next v a h =>
    have hval := (hs.mine t).value v a (by rw [hpc]; rfl)
    obtain ⟨n, hn, -⟩ := Option.map_eq_some_iff.1 hval
    exact ⟨_, by simp only [threadStep, hn]; rfl⟩
  | read_next h =>
    obtain ⟨n, hn⟩ := Option.ne_none_iff_exists'.1 (hs.aimed_heap (t := t) (by rw [hpc]; rfl))
    exact ⟨_, by simp only [threadStep, hn]; rfl⟩
  | take h =>
    obtain ⟨n, hn⟩ := Option.ne_none_iff_exists'.1 (hs.popped_heap (t := t) (by rw [hpc]; rfl))
    exact ⟨_, by simp only [threadStep, hn]; rfl⟩
  | push_cas | pop_load | pop_cas =>
    simp only [threadStep]
    split <;> exact ⟨_, rfl⟩
  | push_load | free | ret => exact ⟨_, rfl⟩

section Segment

variable {pre tr : History Stack Stack.Act} {s₁ s : Stack} {threads : Finset Nat}

/-- **The plain stack is lock-free.** However the threads interleave, in any part of a run they
take at most eight steps each, six for each call made, and three for each success of another
thread; so as long as they step, compare-and-swaps succeed. A call has one success at most,
and a thread in a call is never blocked. -/
theorem treiber_lock_free (h₁ : Run Stack.step anyEnv .new pre s₁)
    (h₂ : Run Stack.step anyEnv s₁ tr s) (hthreads : ∀ x ∈ tr, x.2.thread ∈ threads) :
    total Stack.works tr ≤ 8 * threads.card + 6 * total Stack.calls tr +
        (threads.card - 1) * (3 * total Stack.wins tr) ∧
      total Stack.wins tr ≤ threads.card + total Stack.calls tr ∧
      ∀ t, s.pc t ≠ .idle → (∀ v, s.pc t ≠ .push_alloc v) → ∃ s', s.step (.step t) = some s' := by
  refine ⟨?_, ?_, ?_⟩
  · have hle := h₂.amortized_threads (I := fun _ => True) Stack.Act.thread
      (fun s t => (s.pc t).potential s.mem) Stack.works (fun s a => 6 * s.calls a)
      (fun s a => 3 * s.wins a) trivial
      (fun _ _ _ _ _ _ hst => ⟨trivial, Stack.step_potential hst⟩) hthreads
    have hstart : ∑ t ∈ threads, (s₁.pc t).potential s₁.mem ≤ threads.card * 8 :=
      Finset.sum_le_card_nsmul _ _ _ fun t _ => Pc.potential_le s₁.mem (s₁.pc t)
    simp only [total_mul] at hle
    omega
  · have hle := h₂.amortized_threads (I := fun _ => True) Stack.Act.thread
      (fun s t => (s.pc t).trying.toNat) Stack.wins Stack.calls (fun _ _ => 0) trivial
      (fun _ _ _ _ _ _ hst => ⟨trivial, Stack.step_trying hst⟩) hthreads
    have hstart : ∑ t ∈ threads, (s₁.pc t).trying.toNat ≤ threads.card * 1 :=
      Finset.sum_le_card_nsmul _ _ _ fun t _ => Bool.toNat_le _
    simp only [total_zero, Nat.mul_zero] at hle
    omega
  · obtain ⟨own, l, hs⟩ := h₂.inv (P := fun s => ∃ own l, Safe own l s.mem s.pc) (Stack.safe h₁)
      fun _ _ _ ⟨_, _, hs⟩ hst => (Stack.safe_act hs hst).imp fun _ hs => ⟨_, hs⟩
    exact fun t => hs.can_step

/-- Thread 1 pushes between the load and the compare-and-swap of thread 0, which has to go
round once more. -/
theorem treiber_lock_free_contended :
    ∃ tr s, Run Stack.step anyEnv .new tr s ∧ total Stack.calls tr = 2 ∧
      total Stack.works tr = 11 ∧ total Stack.wins tr = 2 ∧ s.pc 0 = .ret .pushed ∧
      ∃ s', s.step (.step 0) = some s' := by
  have h0 : Run Stack.step anyEnv .new [] .new := .nil
  have h := h0.exec (fun _ _ _ _ => trivial) (show exec _ _ _
    [.push 0 7, .alloc 0 1, .step 0, .push 1 8, .alloc 1 2, .step 1, .step 1, .step 1, .step 0,
      .step 0, .step 0, .step 0, .step 0] = some _ from rfl)
  obtain ⟨-, -, hstep⟩ := @treiber_lock_free _ _ _ _ {0, 1} h0 h (by decide)
  exact ⟨_, _, h, by decide, by decide, by decide, rfl, hstep 0 nofun nofun⟩

end Segment

end Samsara.Treiber
