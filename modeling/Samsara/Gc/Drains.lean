import Samsara.Gc.Capture
import Samsara.Gc.Worker

/-!
# The barrier inside the collector

The mutators, the orchestrator and the worker together are one instance of `Capture`: the
worker is what drains the set (`Gc.simulates_capture`). So what its drains return, in drain
order, followed by what waits in the set, is what was recorded (`drained_eq_recorded`).
-/

namespace Samsara

open StepSys

def MutPc.capturePc : MutPc → CapturePc
  | .pre_write overwritten _ => .load overwritten
  | .record overwritten _ => .record overwritten
  | .idle | .write _ _ => .idle

theorem MutPc.capturePc_after (overwritten : UInt32) (slot : Option (UInt32 × Nat)) :
    (MutPc.after overwritten slot).capturePc = .idle := by
  cases slot <;> rfl

namespace Gc

def capture (s : Gc) : Capture := ⟨s.phase, s.remembered, fun t => (s.muts t).capturePc⟩

def captureAct (s : Gc) : Act → Option CaptureAct
  | .store p => some (.store p)
  | .transition from_ to_ => some (.transition from_ to_)
  | .pre_write t id => some (.pre_write t id)
  | .overwrite t src i => (s.objects.slot src i).map (.pre_write t)
  | .mutator t => some (.step t)
  | .worker => if s.pc = .drain ∨ s.pc = .final_drain then some .drain else none
  | _ => none

def drains (s : Gc) : Act → List UInt32
  | .worker => if s.pc = .drain ∨ s.pc = .final_drain then s.remembered.inner else []
  | _ => []

variable {s s' : Gc} {a : Act}

theorem capture_setMut (s : Gc) (t : Nat) (m : MutPc) :
    (s.setMut t m).capture = s.capture.setPc t m.capturePc := by
  unfold capture setMut Capture.setPc
  congr 1
  funext u
  by_cases hu : u = t
  · subst hu
    simp
  · simp [hu]

theorem capture_pc {t : Nat} {m : MutPc} (hm : s.muts t = m) : s.capture.pc t = m.capturePc :=
  congrArg MutPc.capturePc hm

theorem capture_pc_self {t : Nat} {p : CapturePc} (h : s.capture.pc t = p) :
    s.capture.setPc t p = s.capture := by
  unfold Capture.setPc
  rw [← h, Function.update_eq_self]

/-- **The collector simulates the barrier.** -/
theorem simulates_capture : Simulates step Capture.step capture captureAct := by
  intro s a s' h
  cases a <;> simp only [step] at h
  case worker =>
    cases worker_cases h <;> simp [captureAct, capture, Capture.step, RememberedSet.drain, *]
  case pre_write t id =>
    split at h <;> cases h
    next hm =>
      rw [capture_setMut]
      exact if_pos (capture_pc hm)
  case overwrite t src i =>
    split at h <;> cases h
    next old hm hold =>
      rw [capture_setMut]
      simp only [captureAct, hold, Option.map_some]
      exact if_pos (capture_pc hm)
  case mutator t =>
    simp only [mutatorStep] at h
    split at h
    · next overwritten slot hm =>
      cases h
      have hpc : s.capture.pc t = .load overwritten := capture_pc hm
      have hload : s.capture.phase.load = s.phase.load := rfl
      rw [capture_setMut]
      simp only [captureAct, Capture.step, hpc, hload]
      split
      · rfl
      · rw [MutPc.capturePc_after]
    · next overwritten slot hm =>
      cases h
      have hpc : s.capture.pc t = .record overwritten := capture_pc hm
      rw [capture_setMut, MutPc.capturePc_after]
      simp only [captureAct, Capture.step, hpc]
      rfl
    · cases h
  case write t target =>
    split at h <;> cases h
    next old src i hm =>
      -- the call of `pre_write` is over already
      rw [capture_setMut]
      have hpc : s.capture.pc t = .idle := capture_pc hm
      exact capture_pc_self hpc
  all_goals
    (try split at h) <;> cases h
    rfl

theorem delivered_projected (tr : GcHistory) :
    Capture.delivered (projected capture captureAct tr) = log drains tr := by
  unfold Capture.delivered projected log
  rw [List.filterMap_eq_flatMap_toList, List.flatMap_assoc]
  refine List.flatMap_congr fun ⟨s, a⟩ _ => ?_
  cases a with
  | overwrite t src i =>
    cases hs : s.objects.slot src i <;> simp [captureAct, drains, hs, Capture.returns]
  | worker =>
    by_cases hd : s.pc = .drain ∨ s.pc = .final_drain <;>
      simp [captureAct, drains, hd, Capture.returns, capture, RememberedSet.drain]
  | _ => rfl

theorem recorded_projected (tr : GcHistory) :
    (Capture.recorded (projected capture captureAct tr)).map Prod.snd = recorded tr := by
  rw [recorded_eq_log]
  unfold Capture.recorded projected log
  rw [List.filterMap_eq_flatMap_toList, List.flatMap_assoc, List.map_flatMap]
  refine List.flatMap_congr fun ⟨s, a⟩ _ => ?_
  cases a with
  | overwrite t src i =>
    cases hs : s.objects.slot src i <;> simp [captureAct, records, hs, Capture.records]
  | worker =>
    by_cases hd : s.pc = .drain ∨ s.pc = .final_drain <;>
      simp [captureAct, records, hd, Capture.records]
  | mutator t =>
    cases hm : s.muts t <;>
      simp [captureAct, records, hm, Capture.records, capture_pc hm, MutPc.capturePc]
  | _ => rfl

end Gc

/-- **The worker drains what is recorded, in order.** -/
theorem drained_eq_recorded {env : GcHistory → Gc → Act → Prop} {s₀ s : Gc} {tr : GcHistory}
    (hidle : s₀.AllIdle) (hset : s₀.remembered = .new) (h : Run Gc.step env s₀ tr s) :
    log Gc.drains tr ++ s.remembered.inner = recorded tr := by
  have hnew : s₀.capture = .new s₀.phase := by
    unfold Gc.capture Capture.new
    rw [hset]
    congr 1
    funext t
    rw [hidle t]
    rfl
  have hrun : Run Capture.step anyEnv s₀.capture (projected Gc.capture Gc.captureAct tr)
      s.capture := h.simulates Gc.simulates_capture
  rw [hnew] at hrun
  have hseq := Capture.sequence_of_run hrun
  rw [Gc.delivered_projected, Gc.recorded_projected] at hseq
  exact hseq

end Samsara
