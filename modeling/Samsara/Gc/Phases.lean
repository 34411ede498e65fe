import Mathlib.Logic.Function.Iterate
import Samsara.Gc.Capture
import Samsara.Lib.Progress

/-!
# The phase as a state machine

`AtomicPhase::transition` is a compare-and-swap, so that a collector that is out of order is
refused. Let any number of threads call it, each for a step of the intended cycle
`Idle -> Marking -> Sweeping -> Idle`, in any order and as often as they like: the calls that
succeed are then those of one collector going round, and collections do not overlap.

`pre_write` loads the phase and records in two steps, so a capture may come when marking is
over. At most one does for each thread and each end of marking.
-/

namespace Samsara

open StepSys

def Phase.next : Phase → Phase
  | Idle => Marking
  | Marking => Sweeping
  | Sweeping => Idle

namespace Capture

/-- The phase is changed by `transition` only, along the cycle, and `pre_write` is called by
the threads of `threads`. -/
def inCycle (threads : Finset Nat) : History Capture CaptureAct → Capture → CaptureAct → Prop :=
  fun _ _ a =>
    match a with
    | .store _ => False
    | .transition p q => q = p.next
    | .drain => True
    | .pre_write t _ | .step t => t ∈ threads

def ends (s : Capture) : CaptureAct → List Phase
  | .transition p q => if (s.phase.transition p q).2 then [p] else []
  | _ => []

def leaves (s : Capture) (a : CaptureAct) : ℕ := (s.ends a).count .Marking

def late (s : Capture) : CaptureAct → ℕ
  | .step t =>
    match s.pc t with
    | .record _ => if s.phase.load = .Marking then 0 else 1
    | _ => 0
  | _ => 0

def recording (s : Capture) (t : Nat) : Bool :=
  match s.pc t with
  | .record _ => true
  | _ => false

/-- The captures of `threads` that can still come late. -/
def straggling (threads : Finset Nat) (s : Capture) : ℕ :=
  if s.phase.load = .Marking then 0 else (threads.filter fun t => s.recording t = true).card

variable {s s' : Capture} {a : CaptureAct} {tr : History Capture CaptureAct} {t : Nat}
  {threads : Finset Nat} {p q : Phase}

theorem transition_cases (s : Capture) (p q : Phase) :
    (s.phase.load = p ∧ s.ends (.transition p q) = [p] ∧
        (s.phase.transition p q).1.load = q) ∨
      (s.phase.load ≠ p ∧ s.ends (.transition p q) = [] ∧
        (s.phase.transition p q).1 = s.phase) := by
  by_cases h : s.phase.load = p
  · left
    subst h
    simp [ends, AtomicPhase.transition, AtomicPhase.byte_eq]
  · right
    have hb : s.phase.byte ≠ encode p := by rwa [AtomicPhase.byte_eq, ne_eq, encode_inj]
    simp [h, ends, AtomicPhase.transition, hb]

theorem step_phase (he : inCycle threads tr s a) (hst : s.step a = some s') :
    (s.ends a = [s.phase.load] ∧ s'.phase.load = s.phase.load.next ∧ s'.pc = s.pc) ∨
      (s.ends a = [] ∧ s'.phase = s.phase) := by
  cases a with
  | store p => exact he.elim
  | transition p q =>
    cases hst
    obtain rfl : q = p.next := he
    rcases transition_cases s p p.next with ⟨rfl, hends, hload⟩ | ⟨-, hends, hsame⟩
    · exact .inl ⟨hends, hload, rfl⟩
    · exact .inr ⟨hends, hsame⟩
  | drain =>
    cases hst
    exact .inr ⟨rfl, rfl⟩
  | pre_write t id =>
    simp only [step] at hst
    split at hst <;> cases hst
    exact .inr ⟨rfl, rfl⟩
  | step t =>
    simp only [step] at hst
    split at hst <;> cases hst <;> exact .inr ⟨rfl, rfl⟩

/-- **The successful transitions go round the cycle.** -/
theorem ends_of_run (h : Run step (inCycle threads) (.new .new) tr s) :
    log ends tr = (List.range (log ends tr).length).map (fun i => Phase.next^[i] .Idle) ∧
      s.phase.load = Phase.next^[(log ends tr).length] .Idle := by
  refine h.hist (P := fun tr s =>
    log ends tr = (List.range (log ends tr).length).map (fun i => Phase.next^[i] .Idle) ∧
      s.phase.load = Phase.next^[(log ends tr).length] .Idle) ⟨rfl, ?_⟩ ?_
  · exact AtomicPhase.load_store _
  · intro tr s a s' _ ⟨hlog, hload⟩ he hst
    rw [log_snoc]
    rcases step_phase he hst with ⟨hends, hnext, -⟩ | ⟨hends, hsame⟩
    · rw [hends, List.length_append, List.length_singleton, List.range_succ, List.map_append,
        ← hlog, hnext, hload, Function.iterate_succ_apply']
      exact ⟨rfl, rfl⟩
    · rw [hends, List.append_nil, hsame]
      exact ⟨hlog, hload⟩

theorem straggling_le (hp : s'.phase.load = s.phase.load)
    (hsub : ∀ u, s'.recording u = true → s.recording u = true) :
    straggling threads s' ≤ straggling threads s := by
  unfold straggling
  rw [hp]
  split
  · exact le_rfl
  · exact Finset.card_le_card (Finset.monotone_filter_right _ fun u _ => hsub u)

theorem straggling_of_marking (h : s.phase.load = .Marking) : straggling threads s = 0 := if_pos h

theorem recording_setPc {x : CapturePc} (hx : ∀ id, x ≠ .record id) {u : Nat}
    (hu : (s.setPc t x).recording u = true) : u ≠ t ∧ s.recording u = true := by
  simp only [recording, setPc] at hu
  by_cases e : u = t
  · subst e
    rw [Function.update_self] at hu
    cases x with
    | record id => exact absurd rfl (hx id)
    | _ => cases hu
  · rw [Function.update_of_ne e] at hu
    exact ⟨e, hu⟩

theorem straggling_record {id : UInt32} (ht : t ∈ threads) (hpc : s.pc t = .record id)
    (hm : s.phase.load ≠ .Marking) (hp : s'.phase.load = s.phase.load)
    (hsub : ∀ u, s'.recording u = true → u ≠ t ∧ s.recording u = true) :
    1 + straggling threads s' ≤ straggling threads s := by
  unfold straggling
  rw [hp, if_neg hm, if_neg hm, Nat.add_comm]
  refine Nat.succ_le_of_lt (Finset.card_lt_card ((Finset.ssubset_iff_of_subset ?_).mpr ?_))
  · exact Finset.monotone_filter_right _ fun u _ hu => (hsub u hu).2
  · have hrec : s.recording t = true := by simp [recording, hpc]
    refine ⟨t, Finset.mem_filter.mpr ⟨ht, hrec⟩, fun hmem => ?_⟩
    exact (hsub t (Finset.mem_filter.mp hmem).2).1 rfl

/-- When a phase ends: either marking is over, and every thread may straggle, or nobody more. -/
theorem straggling_transition (hpc : s'.pc = s.pc) (hnext : s'.phase.load = s.phase.load.next) :
    straggling threads s' ≤
      straggling threads s + threads.card * [s.phase.load].count .Marking := by
  cases hp : s.phase.load with
  | Idle =>
    rw [hp] at hnext
    simp [straggling, hnext, Phase.next]
  | Marking =>
    rw [hp] at hnext
    have hle := Finset.card_filter_le threads fun t => s'.recording t = true
    simpa [straggling, hnext, hp, Phase.next] using hle
  | Sweeping =>
    rw [hp] at hnext
    have hrec : s'.recording = s.recording := by
      funext t
      simp only [recording, hpc]
    simp [straggling, hnext, hp, Phase.next, hrec]

theorem step_straggling (he : inCycle threads tr s a) (hst : s.step a = some s') :
    s.late a + straggling threads s' ≤ straggling threads s + threads.card * s.leaves a := by
  unfold leaves
  rcases step_phase he hst with ⟨hends, hnext, hpc⟩ | ⟨hends, hsame⟩
  · have hlate : s.late a = 0 := by
      cases a with
      | step t => cases hends
      | _ => rfl
    rw [hends, hlate, Nat.zero_add]
    exact straggling_transition hpc hnext
  · have hload : s'.phase.load = s.phase.load := by rw [hsame]
    rw [hends, List.count_nil, Nat.mul_zero, Nat.add_zero]
    cases a with
    | store p => exact he.elim
    | transition p q | drain =>
      cases hst
      exact (Nat.zero_add _).trans_le (straggling_le hload fun _ hu => hu)
    | pre_write t id =>
      simp only [step] at hst
      split at hst <;> cases hst
      refine (Nat.zero_add _).trans_le (straggling_le hload fun u hu => ?_)
      exact (recording_setPc (by simp) hu).2
    | step t =>
      simp only [step] at hst
      split at hst
      · cases hst
      · next id hpc =>
        cases hst
        have hlate : s.late (.step t) = 0 := by simp [late, hpc]
        rw [hlate, Nat.zero_add]
        by_cases hm : s.phase.load = .Marking
        · rw [straggling_of_marking (hload.trans hm)]
          exact Nat.zero_le _
        · refine straggling_le hload fun u hu => ?_
          rw [if_neg hm] at hu
          exact (recording_setPc (by simp) hu).2
      · next id hpc =>
        cases hst
        by_cases hm : s.phase.load = .Marking
        · rw [straggling_of_marking (hload.trans hm)]
          simp [late, hpc, hm]
        · have hlate : s.late (.step t) = 1 := by simp [late, hpc, hm]
          rw [hlate]
          exact straggling_record he hpc hm hload fun u hu => recording_setPc (by simp) hu

end Capture

open Capture

/-- **Collections do not overlap, and captures straggle at most once.** In every run in which
the phase is changed only by calls of `transition` along the cycle, by any number of threads
and in any order: the transitions that succeed are `Idle -> Marking`, `Marking -> Sweeping`,
`Sweeping -> Idle` in turn, and the phase is where they have come to; and the captures
recorded while the phase is not `Marking` are at most one for each thread and each
transition out of it. -/
theorem phases_in_turn {threads : Finset Nat} {tr : History Capture CaptureAct} {s : Capture}
    (h : Run Capture.step (inCycle threads) (.new .new) tr s) :
    log ends tr = (List.range (log ends tr).length).map (fun i => Phase.next^[i] .Idle) ∧
      s.phase.load = Phase.next^[(log ends tr).length] .Idle ∧
      total late tr ≤ threads.card * (log ends tr).count .Marking := by
  obtain ⟨hlog, hload⟩ := ends_of_run h
  have hle := (h.amortized (I := fun _ => True) (straggling threads) trivial
    fun _ _ _ _ _ he hst => ⟨trivial, step_straggling he hst⟩).2
  have hstart : straggling threads (.new .new) = 0 := by simp [straggling, recording, Capture.new]
  have hcount : total leaves tr = (log ends tr).count .Marking := by
    unfold total leaves log
    rw [List.count_flatMap]
    rfl
  rw [total_mul, hstart, hcount] at hle
  exact ⟨hlog, hload, by simpa using Nat.le_of_add_right_le hle⟩

/-- Thread 0 records after marking is over; the second call that ends marking is refused. -/
theorem phases_in_turn_late :
    ∃ tr s, Run Capture.step (inCycle {0}) (.new .new) tr s ∧ total late tr = 1 ∧
      log ends tr = [.Idle, .Marking] ∧ total late tr ≤ (log ends tr).count .Marking := by
  have h0 : Run Capture.step (inCycle {0}) (.new .new) [] (.new .new) := .nil
  have h1 := h0.snoc (show inCycle {0} _ _ (.transition .Idle .Marking) from rfl) rfl
  have h2 := h1.snoc (show inCycle {0} _ _ (.pre_write 0 7) from Finset.mem_singleton_self 0) rfl
  have h3 := h2.snoc (show inCycle {0} _ _ (.step 0) from Finset.mem_singleton_self 0) rfl
  have h4 := h3.snoc (show inCycle {0} _ _ (.transition .Marking .Sweeping) from rfl) rfl
  have h5 := h4.snoc (show inCycle {0} _ _ (.transition .Marking .Sweeping) from rfl) rfl
  have h6 := h5.snoc (show inCycle {0} _ _ (.step 0) from Finset.mem_singleton_self 0) rfl
  have hturn := phases_in_turn h6
  exact ⟨_, _, h6, by decide, by decide, by simpa using hturn.2.2⟩

end Samsara
