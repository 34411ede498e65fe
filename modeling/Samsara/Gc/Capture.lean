import Mathlib.Logic.Function.Basic
import Samsara.Gc.Barrier
import Samsara.Lib.Run

/-!
# What the write barrier captures (`atomic.rs`, `remembered_set.rs`)

Any number of threads call `AtomicWriteBarrier::pre_write`, whose phase load and record are
steps of their own; others change the phase and drain the set at any time. The history says
what was recorded (`recorded`), what the drains returned (`delivered`) and what each call of
a thread has done (`calls`). Nothing recorded is lost, doubled or moved past another entry.
-/

namespace Samsara

open StepSys

/-- Where a thread is in `pre_write`. -/
inductive CapturePc where
  | idle
  /-- `self.phase.load()` is next -/
  | load (overwritten : UInt32)
  /-- the load saw `Marking`: `self.set.record(overwritten)` is next -/
  | record (overwritten : UInt32)
  deriving DecidableEq

/-- The two fields of the barrier, and its threads. -/
structure Capture where
  phase : AtomicPhase
  set : RememberedSet
  pc : Nat → CapturePc

inductive CaptureAct where
  | store (p : Phase)
  | transition (from_ to_ : Phase)
  | drain
  /-- thread `t` calls `pre_write(overwritten)` -/
  | pre_write (t : Nat) (overwritten : UInt32)
  /-- thread `t` takes a step of `pre_write` -/
  | step (t : Nat)

/-- A call of `pre_write`, as far as it got. -/
structure Call where
  overwritten : UInt32
  /-- what its phase load saw -/
  load : Option Phase
  /-- its record step is taken -/
  recorded : Bool

def Call.captured (c : Call) : Bool := c.load = some .Marking && c.recorded

/-- The call is complete: it has recorded if its load saw `Marking`, and only then. -/
def Call.Settled (c : Call) : Prop := ∃ p, c.load = some p ∧ (c.recorded = true ↔ p = .Marking)

namespace Capture

def new (phase : AtomicPhase) : Capture := ⟨phase, .new, fun _ => .idle⟩

def setPc (s : Capture) (t : Nat) (p : CapturePc) : Capture :=
  { s with pc := Function.update s.pc t p }

def step (s : Capture) : CaptureAct → Option Capture
  | .store p => some { s with phase := .store p }
  | .transition from_ to_ => some { s with phase := (s.phase.transition from_ to_).1 }
  | .drain => some { s with set := s.set.drain.2 }
  | .pre_write t overwritten =>
    if s.pc t = .idle then some (s.setPc t (.load overwritten)) else none
  | .step t =>
    match s.pc t with
    | .idle => none
    | .load overwritten =>
      some (s.setPc t (if s.phase.load = .Marking then .record overwritten else .idle))
    | .record overwritten => some ({ s with set := s.set.record overwritten }.setPc t .idle)

/-! ## What a history says -/

def returns (s : Capture) : CaptureAct → List UInt32
  | .drain => s.set.drain.1
  | _ => []

/-- The thread and the id, if the action is a record step. -/
def records (s : Capture) : CaptureAct → List (Nat × UInt32)
  | .step t =>
    match s.pc t with
    | .record overwritten => [(t, overwritten)]
    | _ => []
  | _ => []

def callsStep (t : Nat) (l : List Call) (s : Capture) : CaptureAct → List Call
  | .pre_write u overwritten => if u = t then ⟨overwritten, none, false⟩ :: l else l
  | .step u =>
    if u = t then
      match s.pc t, l with
      | .load _, c :: l => { c with load := some s.phase.load } :: l
      | .record _, c :: l => { c with recorded := true } :: l
      | _, l => l
    else l
  | _ => l

/-- What the drains returned so far, in drain order. -/
def delivered (tr : History Capture CaptureAct) : List UInt32 := tr.flatMap fun x => x.1.returns x.2

def recorded (tr : History Capture CaptureAct) : List (Nat × UInt32) :=
  tr.flatMap fun x => x.1.records x.2

/-- The calls of thread `t` so far, newest first. -/
def calls (t : Nat) (tr : History Capture CaptureAct) : List Call :=
  tr.foldl (fun l x => callsStep t l x.1 x.2) []

/-- The calls of thread `t` that have returned: only its newest may be in progress. -/
def completed (t : Nat) (tr : History Capture CaptureAct) (s : Capture) : List Call :=
  if s.pc t = .idle then calls t tr else (calls t tr).tail

variable {s s' : Capture} {a : CaptureAct} {tr : History Capture CaptureAct} {t : Nat}
  {phase : AtomicPhase}

/-- **Drains and records keep the sequence.** -/
theorem step_sequence (hst : s.step a = some s') :
    s.set.inner ++ (s.records a).map Prod.snd = s.returns a ++ s'.set.inner := by
  cases a with
  | store p => cases hst; simp [records, returns]
  | transition p q => cases hst; simp [records, returns]
  | drain => cases hst; simp [records, returns, RememberedSet.drain]
  | pre_write t id =>
    simp only [step] at hst
    split at hst <;> cases hst
    simp [records, returns, setPc]
  | step t =>
    simp only [step] at hst
    split at hst <;> cases hst
    · next id hpc => simp [records, returns, setPc, hpc]
    · next id hpc => simp [records, returns, setPc, hpc, RememberedSet.record]

theorem sequence_of_run (h : Run step anyEnv (new phase) tr s) :
    delivered tr ++ s.set.inner = (recorded tr).map Prod.snd := by
  refine h.hist (P := fun tr s => delivered tr ++ s.set.inner = (recorded tr).map Prod.snd) rfl ?_
  intro tr s a s' _ ih _ hst
  simp only [delivered, recorded, List.flatMap_append, List.flatMap_singleton, List.map_append]
    at ih ⊢
  rw [← ih, List.append_assoc, List.append_assoc, step_sequence hst]

/-! ## The calls of one thread -/

/-- The newest call of a thread against where the thread is; the others are complete. -/
def Current (l : List Call) : CapturePc → Prop
  | .idle => ∀ c ∈ l, c.Settled
  | .load id => ∃ l', l = ⟨id, none, false⟩ :: l' ∧ ∀ c ∈ l', c.Settled
  | .record id => ∃ l', l = ⟨id, some .Marking, false⟩ :: l' ∧ ∀ c ∈ l', c.Settled

def captures (l : List Call) : List UInt32 := (l.reverse.filter Call.captured).map Call.overwritten

theorem captures_cons (c : Call) (l : List Call) :
    captures (c :: l) = captures l ++ if c.captured then [c.overwritten] else [] := by
  unfold captures
  rw [List.reverse_cons, List.filter_append, List.map_append]
  by_cases hc : c.captured <;> simp [hc]

def entries (t : Nat) (l : List (Nat × UInt32)) : List UInt32 :=
  (l.filter fun e => e.1 = t).map Prod.snd

theorem step_of_ne {u : Nat} (hst : s.step (.step u) = some s') (hne : u ≠ t) :
    s'.pc t = s.pc t ∧ entries t (s.records (.step u)) = [] := by
  simp only [step] at hst
  split at hst <;> cases hst
  · next id hpc => exact ⟨Function.update_of_ne (Ne.symm hne) _ _, by simp [records, hpc, entries]⟩
  · next id hpc =>
    exact ⟨Function.update_of_ne (Ne.symm hne) _ _, by simp [records, hpc, entries, hne]⟩

/-- **One action and the calls of one thread**: a call is captured when it records. -/
theorem step_calls {l : List Call} (hst : s.step a = some s') (h : Current l (s.pc t)) :
    Current (callsStep t l s a) (s'.pc t) ∧
      captures (callsStep t l s a) = captures l ++ entries t (s.records a) := by
  cases a with
  | store p | transition p q | drain =>
    cases hst
    exact ⟨h, (List.append_nil _).symm⟩
  | pre_write u id =>
    simp only [step] at hst
    split at hst
    · next hidle =>
      cases hst
      by_cases hu : u = t
      · subst hu
        rw [hidle] at h
        simp only [callsStep, setPc, Function.update_self, if_true]
        exact ⟨⟨l, rfl, h⟩, captures_cons _ _⟩
      · simp only [callsStep, setPc, Function.update_of_ne (Ne.symm hu), if_neg hu]
        exact ⟨h, (List.append_nil _).symm⟩
    · cases hst
  | step u =>
    by_cases hu : u = t
    · subst hu
      simp only [step] at hst
      simp only [callsStep, records, if_true]
      cases hpc : s.pc u with
      | idle =>
        rw [hpc] at hst
        cases hst
      | load id =>
        rw [hpc] at hst h
        obtain ⟨l', rfl, hl'⟩ := h
        cases hst
        simp only [setPc, Function.update_self]
        refine ⟨?_, ?_⟩
        · by_cases hm : s.phase.load = .Marking
          · rw [if_pos hm, hm]
            exact ⟨l', rfl, hl'⟩
          · rw [if_neg hm]
            exact List.forall_mem_cons.mpr ⟨⟨_, rfl, iff_of_false (by simp) hm⟩, hl'⟩
        · rw [captures_cons, captures_cons]
          simp [Call.captured, entries]
      | record id =>
        rw [hpc] at hst h
        obtain ⟨l', rfl, hl'⟩ := h
        cases hst
        simp only [setPc, Function.update_self]
        refine ⟨List.forall_mem_cons.mpr ⟨⟨_, rfl, iff_of_true rfl rfl⟩, hl'⟩, ?_⟩
        rw [captures_cons, captures_cons]
        simp [Call.captured, entries]
    · obtain ⟨hpc, hno⟩ := step_of_ne hst hu
      have hcalls : callsStep t l s (.step u) = l := if_neg hu
      rw [hpc, hno, hcalls, List.append_nil]
      exact ⟨h, rfl⟩

theorem calls_of_run (h : Run step anyEnv (new phase) tr s) (t : Nat) :
    Current (calls t tr) (s.pc t) ∧ entries t (recorded tr) = captures (calls t tr) := by
  have h0 : Current [] .idle := fun c hc => nomatch hc
  refine h.hist (P := fun tr s => Current (calls t tr) (s.pc t) ∧
    entries t (recorded tr) = captures (calls t tr)) ?_ ?_
  · exact ⟨h0, rfl⟩
  intro tr s a s' _ ⟨hcur, hent⟩ _ hst
  obtain ⟨hcur', hcap⟩ := step_calls hst hcur
  have hcalls : calls t (tr ++ [(s, a)]) = callsStep t (calls t tr) s a := by
    simp [calls, List.foldl_append]
  rw [hcalls]
  refine ⟨hcur', ?_⟩
  rw [hcap, ← hent]
  simp [entries, recorded]

end Capture

open Capture

/-- **Each capture is delivered exactly once and in order.** In every run: what the drains
returned followed by the content of the set is the sequence of the recorded ids; of each
thread it holds one entry for each call whose phase load saw `Marking` and that has
recorded, in call order, and no other; and every completed call has recorded if its load saw
`Marking`, and only then. -/
theorem captures_delivered_once {phase : AtomicPhase} {tr : History Capture CaptureAct}
    {s : Capture} (h : Run Capture.step anyEnv (.new phase) tr s) :
    delivered tr ++ s.set.inner = (recorded tr).map Prod.snd ∧
    ∀ t, ((recorded tr).filter fun e => e.1 = t).map Prod.snd =
        ((calls t tr).reverse.filter Call.captured).map Call.overwritten ∧
      ∀ c ∈ completed t tr s, ∃ p, c.load = some p ∧ (c.recorded = true ↔ p = .Marking) := by
  refine ⟨sequence_of_run h, fun t => ?_⟩
  obtain ⟨hcur, hent⟩ := calls_of_run h t
  refine ⟨hent, fun c hc => ?_⟩
  unfold completed at hc
  cases hpc : s.pc t with
  | idle =>
    rw [hpc] at hc hcur
    exact hcur c hc
  | load id | record id =>
    rw [hpc] at hc hcur
    obtain ⟨l, hl, hset⟩ := hcur
    rw [hl] at hc
    exact hset c hc

/-- Two threads, a drain between the load and the record of the second. -/
theorem captures_delivered_once_two :
    ∃ tr s, Run Capture.step anyEnv (.new (.store .Marking)) tr s ∧ delivered tr = [7] ∧
      s.set.inner = [9] ∧ delivered tr ++ s.set.inner = (recorded tr).map Prod.snd := by
  have h0 : Run Capture.step anyEnv (.new (.store .Marking)) [] (.new (.store .Marking)) := .nil
  have h1 := h0.exec (fun _ _ _ _ => trivial) (show exec _ _ _
    [.pre_write 0 7, .step 0, .step 0, .pre_write 1 9, .step 1, .drain, .step 1] = some _ from rfl)
  exact ⟨_, _, h1, rfl, rfl, (captures_delivered_once h1).1⟩

end Samsara
