import Samsara.Gc.Ending

/-!
# What the barrier records

`pre_write` tests the phase in one step and records in another, and the overwrite it
guards is a third. Both edges of marking can fall in between. At the end, an id recorded
after the worker's final drain stays behind in the remembered set; every other recorded id
turns black (`KeepInv`), and none stays behind when the phase leaves `Marking` with no call
about to record (`recordedEnd`). At the start, an overwrite whose call saw the
phase before `Marking` goes unrecorded, and every other overwrite is recorded
(`entryEnv`).
-/

namespace Samsara

open StepSys

/-! ## The end of marking -/

/-- Marking does not start again once the phase has left it. -/
def markOnce (tr : GcHistory) (s : Gc) (a : Act) : Prop := s.enters a → ¬ HasLeft tr

namespace Gc

/-- What the worker has taken over and will blacken before it returns. -/
def taken (s : Gc) : Set UInt32 :=
  {id | id ∈ s.black ∨ (s.pc ≠ .returned ∧ (id ∈ s.stack.objects ∨ id ∈ s.pc.transit))}

variable {s s' : Gc} {a : Act}

theorem mem_taken {x : UInt32} : x ∈ s.taken ↔ x ∈ s.black ∨
    (s.pc ≠ .returned ∧ (x ∈ s.stack.objects ∨ x ∈ s.pc.transit)) := Iff.rfl

theorem worker_taken (hw : s.Wf) (h : s.workerStep = some s') : s.taken ⊆ s'.taken := by
  intro x
  simp only [mem_taken]
  cases worker_cases h
  case dup id hpc hb | child_dup id _ hpc hb =>
    -- a duplicate: the id is black already
    have : x = id → x ∈ s.black := fun e => by rwa [e]
    simp [WorkerPc.transit, hpc]
    tauto
  case refs_of id hpc =>
    have : x = id → x ∈ s.black := fun e => by rw [e]; exact hw.refs_of id hpc
    simp [WorkerPc.transit, hpc]
    tauto
  all_goals
    simp [WorkerPc.transit, MarkStack.push, *]
    try tauto

theorem step_taken (hw : s.Wf) (h : s.step a = some s') : s.taken ⊆ s'.taken := by
  cases a <;> simp only [step, mutatorStep] at h
  case worker => exact worker_taken hw h
  case spawn =>
    split at h <;> cases h
    next hpc =>
    intro x
    simp [mem_taken, hpc, hw.not_called hpc, WorkerPc.transit]
  case push id =>
    split at h <;> cases h
    intro x
    simp [mem_taken, MarkStack.push]
    tauto
  all_goals (try split at h) <;> cases h <;> exact fun _ hx => hx

theorem drain_taken (hd : s.pc = .drain ∨ s.pc = .final_drain) (h : s.step .worker = some s') :
    {id | id ∈ s.remembered.inner} ⊆ s'.taken := by
  intro x hx
  rcases hd with hd | hd <;> cases worker_cases h <;> simp_all [mem_taken, WorkerPc.transit]

theorem step_kept (h : s.step a = some s') {x : UInt32} (hx : x ∈ s.remembered.inner) :
    x ∈ s'.taken ∨ x ∈ s'.remembered.inner := by
  rcases step_remembered h with e | ⟨t, old, slot, -, -, e⟩ | ⟨rfl, hd, -⟩
  · exact .inr (e ▸ hx)
  · exact .inr (e ▸ List.mem_append_left _ hx)
  · exact .inl (drain_taken hd h hx)

end Gc

section End

variable {env : GcHistory → Gc → Act → Prop} {s₀ s s' : Gc} {tr : GcHistory} {a : Act}

/-- The ids that are in the remembered set at the start or recorded. -/
def handed (s₀ : Gc) (tr : GcHistory) : Set UInt32 :=
  {id | id ∈ s₀.remembered.inner ∨ id ∈ recorded tr}

/-- No id is lost between the barrier and the worker. -/
structure KeepInv (s₀ : Gc) (tr : GcHistory) (s : Gc) : Prop where
  wf : s.Wf
  kept : ∀ id ∈ handed s₀ tr, id ∈ s.taken ∨ id ∈ s.remembered.inner
  drained : ∀ pre s₁ post, tr = pre ++ (s₁, .worker) :: post →
    s₁.pc = .drain ∨ s₁.pc = .final_drain → handed s₀ pre ⊆ s.taken

theorem KeepInv.step (h : KeepInv s₀ tr s) (hst : s.step a = some s') :
    KeepInv s₀ (tr ++ [(s, a)]) s' := by
  have htaken := Gc.step_taken h.wf hst
  refine ⟨Gc.step_wf h.wf hst, fun id hid => ?_, fun pre s₁ post e hd id hid => ?_⟩
  · rcases hid with hid | hid
    · exact (h.kept id (.inl hid)).elim (fun hk => .inl (htaken hk)) (Gc.step_kept hst)
    rcases mem_recorded_snoc.mp hid with hid | ⟨t, slot, rfl, hm⟩
    · exact (h.kept id (.inr hid)).elim (fun hk => .inl (htaken hk)) (Gc.step_kept hst)
    · simp only [Gc.step, Gc.mutatorStep, hm] at hst
      cases hst
      exact .inr (List.mem_append_right _ (List.mem_singleton_self id))
  · rcases List.eq_nil_or_concat post with rfl | ⟨post', x, rfl⟩
    · -- the drain is this step
      obtain ⟨rfl, hx⟩ := List.append_inj' e rfl
      cases hx
      exact (h.kept id hid).elim (fun hk => htaken hk) (Gc.drain_taken hd hst ·)
    · rw [List.concat_eq_append, ← List.cons_append, ← List.append_assoc] at e
      exact htaken (h.drained pre s₁ post' (List.append_inj' e rfl).1 hd hid)

theorem keepInv_of_run (hw : s₀.Wf) (h : Run Gc.step env s₀ tr s) : KeepInv s₀ tr s := by
  refine h.hist ⟨hw, fun id hid => ?_, fun pre s₁ post e => ?_⟩ fun _ _ _ _ _ ih _ hst =>
    ih.step hst
  · exact .inr (hid.resolve_right fun hr => nomatch hr)
  · simp at e

theorem KeepInv.found (h : KeepInv s₀ tr s) (hend : Ending tr s) {id : UInt32}
    (hid : id ∈ handed s₀ tr) : id ∈ s.found := by
  rcases h.kept id hid with hk | hk
  · exact hk.imp_right fun ⟨hn, hp⟩ => ⟨hn, hp.imp_right .inr⟩
  · refine .inr ⟨fun hret => ?_, .inr (.inl hk)⟩
    rw [hend.drained (.inr hret)] at hk
    cases hk

/-- **No recorded id is lost**, however the threads interleave. When the worker has returned,
every id that was recorded is black or still in the remembered set, and it is black if it was
recorded before the final drain. -/
theorem recorded_ids_are_kept (hpc : s₀.pc = .not_called) (hblack : s₀.black = ∅)
    (h : Run Gc.step anyEnv s₀ tr s) (hret : s.pc = .returned) :
    (∀ id, id ∈ s₀.remembered.inner ∨ id ∈ recorded tr →
      id ∈ s.black ∨ id ∈ s.remembered.inner) ∧
    ∀ pre s₁ post, tr = pre ++ (s₁, .worker) :: post → s₁.pc = .final_drain →
      ∀ id, id ∈ s₀.remembered.inner ∨ id ∈ recorded pre → id ∈ s.black := by
  have hinv := keepInv_of_run ⟨fun id e => (by rw [hpc] at e; cases e), fun _ => hblack⟩ h
  have hdone : s.taken ⊆ {id | id ∈ s.black} := fun id hid => hid.resolve_right fun hp => hp.1 hret
  refine ⟨fun id hid => (hinv.kept id hid).imp_left fun hk => hdone hk, ?_⟩
  intro pre s₁ post e hd id hid
  exact hdone (hinv.drained pre s₁ post e (.inr hd) hid)

end End

/-- One object, and a call of `pre_write` in flight. -/
def windowStart : Gc where
  objects
    | 1 => some [2]
    | 2 => some []
    | _ => none
  phase := .store .Marking
  remembered := .new
  stack := .new
  black := ∅
  pc := .not_called
  muts t := if t = 0 then .pre_write 2 none else .idle

/-- Mutator 1 records 3; then the phase leaves, and the worker is about to drain for the last
time. -/
def finalDrain : Option (GcHistory × Gc) :=
  exec Gc.step [] windowStart ([.mutator 0, .pre_write 1 3, .mutator 1, .mutator 1, .store .Idle,
    .spawn] ++ List.replicate 11 .worker)

/-- Mutator 0 records 2 after the final drain. -/
theorem recorded_ids_are_kept_late :
    ∃ tr s, Run Gc.step anyEnv windowStart tr s ∧ s.pc = .returned ∧ 2 ∈ recorded tr ∧
      2 ∈ s.remembered.inner ∧ 3 ∈ s.black := by
  have h1 := (Run.nil : Run Gc.step anyEnv windowStart [] windowStart).exec
    (fun _ _ _ _ => trivial) (Option.some_get (show finalDrain.isSome from rfl)).symm
  have h2 := h1.exec (fun _ _ _ _ => trivial) (show exec Gc.step _ _
    [.worker, .mutator 0, .worker] = some (_, _) from rfl)
  obtain ⟨hkept, hdrained⟩ := recorded_ids_are_kept rfl rfl h2 rfl
  refine ⟨_, _, h2, rfl, by decide, (hkept 2 (.inr (by decide))).resolve_left (by decide), ?_⟩
  exact hdrained (finalDrain.get rfl).1 (finalDrain.get rfl).2 _ rfl rfl 3 (.inr (by decide))

theorem markOnce_of_silent {tr : GcHistory} {s : Gc} {a : Act}
    (h : a.silent ∨ a = .store .Idle) : markOnce tr s a := by
  rcases h with h | rfl
  · exact fun he => absurd he ((Act.silent_spec h).2 s).2
  · exact fun he => nomatch he.2

/-- The phase leaves between the load and the record, and the record falls between the
worker's final drain and its return. -/
theorem late_record_is_missed :
    ¬ ∀ (s₀ s : Gc) (tr : GcHistory), BeforeCall s₀ → Run Gc.step markOnce s₀ tr s →
      s.pc = .returned → ∀ id ∈ recorded tr, id ∈ s.black := by
  intro hclaim
  have h1 := (Run.nil : Run Gc.step markOnce windowStart [] windowStart).exec
    (fun a ha tr s => markOnce_of_silent
      ((show ∀ a ∈ [Act.mutator 0, .store .Idle, .spawn, .worker, .worker, .worker, .worker,
        .mutator 0, .worker], a.silent = true ∨ a = .store .Idle by decide) a ha)) rfl
  have hmissed := hclaim _ _ _ ⟨by simp [windowStart], rfl, rfl⟩ h1 rfl 2 (by decide)
  exact absurd hmissed (by decide)

section Quiet

variable {s₀ s : Gc} {tr : GcHistory}

/-- When the phase leaves `Marking` with no call between its phase load and its record, none
is left behind. -/
theorem recorded_ids_are_black (h0 : BeforeCall s₀) (h : Run Gc.step recordedEnd s₀ tr s)
    (hret : s.pc = .returned) :
    ∀ id, id ∈ s₀.remembered.inner ∨ id ∈ recorded tr → id ∈ s.black := by
  have hend := ending_of_run h0 (fun h hl => (settled_of_left (fun _ _ _ h => h) h hl).1) h
  intro id hid
  exact ((keepInv_of_run h0.wf h).found hend hid).resolve_right fun hp => hp.1 hret

end Quiet

theorem recordedEnd_of_silent {tr : GcHistory} {s : Gc} {a : Act} (h : a.silent) :
    recordedEnd tr s a := by
  obtain ⟨-, hl⟩ := Act.silent_spec h
  exact ⟨fun h => absurd h (hl s).1, fun h => absurd h (hl s).2⟩

/-- The call records before the phase leaves. -/
theorem recorded_ids_are_black_window :
    ∃ tr s, Run Gc.step recordedEnd windowStart tr s ∧ s.pc = .returned ∧ 2 ∈ s.black := by
  have hstart : BeforeCall windowStart := ⟨by simp [windowStart], rfl, rfl⟩
  have h1 := (Run.nil : Run Gc.step recordedEnd windowStart [] windowStart).exec
    (fun a ha tr s => recordedEnd_of_silent
      ((show ∀ a ∈ [Act.mutator 0, .mutator 0], a.silent = true by decide) a ha)) rfl
  have h2 := h1.snoc
    (show recordedEnd _ _ (.store .Idle) from
      ⟨fun _ t _ _ => by by_cases ht : t = 0 <;> simp [Gc.setMut, windowStart, MutPc.after, ht],
        fun h => nomatch h.2⟩) rfl
  have h3 := h2.exec (fun a ha tr s => recordedEnd_of_silent
    ((show ∀ a ∈ Act.spawn :: List.replicate 13 .worker, a.silent = true by decide) a ha)) rfl
  exact ⟨_, _, h3, rfl, recorded_ids_are_black hstart h3 rfl 2 (.inr (by decide))⟩

/-! ## The start of marking -/

def loadedPhase (t : Nat) : Gc × Act → Option Phase
  | (s, .mutator u) =>
    match s.muts u with
    | .pre_write _ _ => if u = t then some s.phase.load else none
    | _ => none
  | _ => none

def lastLoad (tr : GcHistory) (t : Nat) : Option Phase :=
  (tr.filterMap (loadedPhase t)).getLast?

/-- When the phase enters `Marking`, every overwrite that is already past its `pre_write`
loaded `Marking` there. -/
def entryEnv (tr : GcHistory) (s : Gc) (a : Act) : Prop :=
  s.enters a → ∀ t old slot, s.muts t = .write old slot → lastLoad tr t = some .Marking

/-- Every overwrite that takes effect while the phase is `Marking` has had its old target
recorded before. -/
def OverwritesRecorded (tr : GcHistory) : Prop :=
  ∀ pre post s t target old slot, tr = pre ++ (s, .write t target) :: post →
    s.phase.load = .Marking → s.muts t = .write old slot → old ∈ recorded pre

section Start

variable {s₀ s s' : Gc} {tr : GcHistory} {a : Act}

theorem lastLoad_load {t : Nat} {old : UInt32} {slot : Option (UInt32 × Nat)}
    (hm : s.muts t = .pre_write old slot) :
    lastLoad (tr ++ [(s, .mutator t)]) t = some s.phase.load := by
  simp [lastLoad, loadedPhase, hm]

theorem lastLoad_of_not_load {t : Nat} (h : ∀ old slot, s.muts t ≠ .pre_write old slot) :
    lastLoad (tr ++ [(s, a)]) t = lastLoad tr t := by
  have hnone : loadedPhase t (s, a) = none := by
    unfold loadedPhase
    split
    · next u e =>
      cases e
      split
      · next hm => exact if_neg fun e => h _ _ (e ▸ hm)
      · rfl
    · rfl
  simp [lastLoad, hnone]

/-- An overwrite whose load saw `Marking` is recorded when its `pre_write` returns; while
the phase is `Marking` there is no other. -/
structure EntryInv (tr : GcHistory) (s : Gc) : Prop where
  record : ∀ t old slot, s.muts t = .record old slot → lastLoad tr t = some .Marking
  write : ∀ t old slot, s.muts t = .write old slot → lastLoad tr t = some .Marking →
    old ∈ recorded tr
  marking : s.phase.load = .Marking → ∀ t old slot, s.muts t = .write old slot →
    lastLoad tr t = some .Marking

theorem EntryInv.step (h : EntryInv tr s) (henv : entryEnv tr s a) (hst : s.step a = some s') :
    EntryInv (tr ++ [(s, a)]) s' := by
  refine ⟨fun t old slot hr => ?_, fun t old slot hw hl => ?_, fun hp t old slot hw => ?_⟩
  · rcases Gc.step_to_record hst hr with hr | ⟨rfl, hm, hp⟩
    · rw [lastLoad_of_not_load (by simp [hr])]
      exact h.record t old slot hr
    · rw [lastLoad_load hm, hp]
  · rw [mem_recorded_snoc]
    rcases Gc.step_to_write hst hw with hw | ⟨rfl, hm, hp⟩ | ⟨rfl, hm⟩
    · rw [lastLoad_of_not_load (by simp [hw])] at hl
      exact .inl (h.write t old slot hw hl)
    · rw [lastLoad_load hm] at hl
      exact absurd (Option.some.inj hl) hp
    · exact .inr ⟨t, _, rfl, hm⟩
  · rw [Gc.step_phase hst] at hp
    rcases Gc.step_to_write hst hw with hw | ⟨rfl, hm, hp'⟩ | ⟨rfl, hm⟩
    · rw [lastLoad_of_not_load (by simp [hw])]
      by_cases hm : s.phase.load = .Marking
      · exact h.marking hm t old slot hw
      · exact henv ⟨hm, hp⟩ t old slot hw
    · exact absurd hp hp'
    · rw [lastLoad_of_not_load (by simp [hm])]
      exact h.record t old _ hm

/-- **Barrier coverage at the start of marking.** If every overwrite that is past its
`pre_write` when the phase enters `Marking` saw `Marking` there, every overwrite that takes
effect during `Marking` has been recorded. -/
theorem overwrites_recorded (hidle : s₀.AllIdle) (h : Run Gc.step entryEnv s₀ tr s) :
    OverwritesRecorded tr := by
  intro pre post s₁ t target old slot e hp hm
  have hinv : EntryInv pre s₁ := by
    refine (h.split e).1.hist ⟨fun t _ _ hm => ?_, fun t _ _ hm => ?_, fun _ t _ _ hm => ?_⟩
      fun _ _ _ _ _ ih he hst => ih.step he hst
    all_goals rw [hidle t] at hm; cases hm
  exact hinv.write t old slot hm (hinv.marking hp t old slot hm)

end Start

/-- Two objects, marking not started. -/
def idleStart : Gc where
  objects
    | 1 => some [2]
    | 2 => some []
    | _ => none
  phase := .new
  remembered := .new
  stack := .new
  black := ∅
  pc := .not_called
  muts _ := .idle

theorem entryEnv_of_idle {tr : GcHistory} {s : Gc} {a : Act} (h : s.AllIdle) : entryEnv tr s a :=
  fun _ t _ _ hm => by rw [h t] at hm; cases hm

/-- The phase enters `Marking` before the overwrite begins. -/
theorem overwrites_recorded_idle :
    ∃ tr pre post s s₁, Run Gc.step entryEnv idleStart tr s ∧
      tr = pre ++ (s₁, .write 0 1) :: post ∧ 2 ∈ recorded pre := by
  have hidle : idleStart.AllIdle := fun _ => rfl
  have h1 := (Run.nil : Run Gc.step entryEnv idleStart [] idleStart).snoc
    (show entryEnv _ _ (.transition .Idle .Marking) from entryEnv_of_idle hidle) rfl
  have h2 := h1.snoc (show entryEnv _ _ (.overwrite 0 1 0) from fun h => absurd h.2 h.1) rfl
  have h3 := h2.snoc (show entryEnv _ _ (.mutator 0) from fun h => absurd h.2 h.1) rfl
  have h4 := h3.snoc (show entryEnv _ _ (.mutator 0) from fun h => absurd h.2 h.1) rfl
  have h5 := h4.snoc (show entryEnv _ _ (.write 0 1) from fun h => absurd h.2 h.1) rfl
  exact ⟨_, _, [], _, _, h5, rfl, overwrites_recorded hidle h5 _ [] _ 0 1 2 (1, 0) rfl rfl rfl⟩

/-- The phase only moves from `Idle` to `Marking`. -/
def startOnly (_ : GcHistory) (s : Gc) (a : Act) : Prop :=
  s.phaseAfter a ≠ s.phase.load → s.phase.load = .Idle ∧ s.phaseAfter a = .Marking

/-- The phase enters `Marking` between the phase load of an overwrite and its store. -/
theorem early_load_is_unrecorded :
    ¬ ∀ (s₀ s : Gc) (tr : GcHistory), s₀.AllIdle → s₀.phase.load = .Idle →
      Run Gc.step startOnly s₀ tr s → OverwritesRecorded tr := by
  intro hclaim
  have h1 := (Run.nil : Run Gc.step startOnly idleStart [] idleStart).snoc
    (show startOnly _ _ (.overwrite 0 1 0) from fun h => absurd rfl h) rfl
  have h2 := h1.snoc (show startOnly _ _ (.mutator 0) from fun h => absurd rfl h) rfl
  have h3 := h2.snoc (show startOnly _ _ (.store .Marking) from fun _ => ⟨rfl, rfl⟩) rfl
  have h4 := h3.snoc (show startOnly _ _ (.write 0 1) from fun h => absurd rfl h) rfl
  have hrec := hclaim _ _ _ (fun _ => rfl) rfl h4 _ [] _ 0 1 2 (1, 0) rfl rfl rfl
  exact absurd hrec (by decide)

end Samsara
