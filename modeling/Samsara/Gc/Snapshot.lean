import Samsara.Gc.Ending

/-!
# Snapshot safety

The run starts at the instant the phase becomes `Marking`, in any state with no call of
a mutator in flight and the worker not called yet. `SnapInv` is the snapshot invariant:
an edge of that instant is still in its slot or its target has been found, which is what
makes scanning the current slots of an id as good as scanning its snapshot slots.
-/

namespace Samsara

open StepSys

/-- The old target and the slot of an overwrite in flight. -/
def MutPc.overwriting : MutPc → Option (UInt32 × UInt32 × Nat)
  | .pre_write old (some slot) | .record old (some slot) | .write old slot => some (old, slot)
  | _ => none

/-- The state at the instant the phase becomes `Marking`: nothing in flight. -/
structure MarkingStarts (s₀ : Gc) : Prop extends BeforeCall s₀ where
  idle : s₀.AllIdle

/-- What the mutators and the orchestrator promise: `quietEnd`, and every root is on the
mark stack before the phase leaves `Marking`. -/
def snapshotEnv (s₀ : Gc) (roots : List UInt32) (tr : GcHistory) (s : Gc) (a : Act) : Prop :=
  quietEnd tr s a ∧
    (s.leaves a → ∀ r ∈ roots, r ∈ s₀.stack.objects ∨ ∃ x ∈ tr, x.2 = .push r)

/-- The snapshot invariant. -/
structure SnapInv (s₀ : Gc) (roots : List UInt32) (tr : GcHistory) (s : Gc) : Prop where
  wf : s.Wf
  scanned : ∀ x ∈ s.scanned, ∀ y ∈ s₀.objects.refs_of x, y ∈ s.found
  slots : ∀ n i v, s₀.objects.slot n i = some v → s.objects.slot n i = some v ∨ v ∈ s.found
  /-- an overwrite in flight read the snapshot target of its slot, or that one is found -/
  inflight : ∀ t old n i, (s.muts t).overwriting = some (old, n, i) →
    ∀ v, s₀.objects.slot n i = some v → old = v ∨ v ∈ s.found
  captured : ∀ t old slot, s.muts t = .write old slot → old ∈ s.found
  initial : ∀ r ∈ s₀.stack.objects, r ∈ s.found
  pushed : ¬ HasLeft tr → ∀ x ∈ tr, ∀ r, x.2 = .push r → r ∈ s.found
  roots : HasLeft tr → ∀ r ∈ roots, r ∈ s.found

section Step

variable {s₀ s s' : Gc} {roots : List UInt32} {tr : GcHistory} {a : Act}

theorem SnapInv.init (h : MarkingStarts s₀) : SnapInv s₀ roots [] s₀ where
  wf := h.wf
  scanned x hx := by have := hx.1; rw [h.black] at this; simp at this
  slots _ _ _ hv := .inl hv
  inflight t old n i ho := by rw [h.idle t] at ho; cases ho
  captured t old slot ho := by rw [h.idle t] at ho; cases ho
  initial r hr := .inr ⟨by simp [h.not_called], .inl hr⟩
  pushed _ _ hx := nomatch hx
  roots := fun ⟨_, hx, _⟩ => nomatch hx

theorem overwriting_step (h : s.step a = some s') (t : Nat) :
    (s'.muts t).overwriting = (s.muts t).overwriting ∨ (s'.muts t).overwriting = none ∨
      ∃ old n i, (s'.muts t).overwriting = some (old, n, i) ∧ s.objects.slot n i = some old := by
  rcases Gc.step_muts h with e | ⟨u, m, hmv, e⟩
  · exact .inl (by rw [e])
  by_cases htu : t = u
  · subst htu
    rw [e, Function.update_self]
    cases hmv with
    | call => exact .inr (.inl rfl)
    | overwrite _ hold => exact .inr (.inr ⟨_, _, _, rfl, hold⟩)
    | write => exact .inr (.inl rfl)
    | @saw t old slot hm | @skip t old slot hm | @record t old slot hm =>
      cases slot <;> simp [hm, MutPc.overwriting, MutPc.after]
  · exact .inl (by rw [e, Function.update_of_ne htu])

/-- A call only records while the phase is `Marking`, and is then found: with `quietEnd`
every load of an overwrite sees `Marking`. -/
theorem SnapInv.captured_step (h : SnapInv s₀ roots tr s) (hst : s.step a = some s')
    (hf : s.found ⊆ s'.found) (hsh : s.pc ≠ .returned → s.shaded a ⊆ s'.found)
    (hmark : ∀ t, s.muts t ≠ .idle → s.phase.load = .Marking ∧ s.pc ≠ .returned)
    {t : Nat} {old : UInt32} {slot : UInt32 × Nat} (hw : s'.muts t = .write old slot) :
    old ∈ s'.found := by
  rcases Gc.step_to_write hst hw with hw | ⟨rfl, hm, hp⟩ | ⟨rfl, hm⟩
  · exact hf (h.captured t old slot hw)
  · exact absurd (hmark t (by rw [hm]; simp)).1 hp
  · exact hsh (hmark t (by rw [hm]; simp)).2 ⟨_, hm⟩

theorem SnapInv.step (h : SnapInv s₀ roots tr s) (hend : Ending tr s)
    (hidle : HasLeft tr → s.AllIdle) (hmark : s.phase.load ≠ .Marking → HasLeft tr)
    (henv : snapshotEnv s₀ roots tr s a) (hst : s.step a = some s') :
    SnapInv s₀ roots (tr ++ [(s, a)]) s' := by
  have hfound := Gc.step_found h.wf hst (hend.returnsClean hst)
  have hf : s.found ⊆ s'.found := by rw [hfound]; exact Set.subset_union_left
  have hsh : s.pc ≠ .returned → s.shaded a ⊆ s'.found := fun hn x hx => by
    rw [hfound]; exact .inr ⟨hn, hx⟩
  have hnret : ¬ HasLeft tr → s.pc ≠ .returned := fun hl hr => hl (hend.tail (.inr (.inr hr)))
  -- a mutator in the middle of a call: the phase has not left
  have hbusy : ∀ t, s.muts t ≠ .idle → s.phase.load = .Marking ∧ s.pc ≠ .returned := by
    intro t ht
    have hl : ¬ HasLeft tr := fun hl => ht (hidle hl t)
    exact ⟨by_contra fun hp => hl (hmark hp), hnret hl⟩
  refine ⟨Gc.step_wf h.wf hst, fun x hx y hy => ?_, fun n i v hv => ?_,
    fun t old n i ho v hv => ?_, fun t old slot => h.captured_step hst hf hsh hbusy,
    fun r hr => hf (h.initial r hr), fun hl x hx r hr => ?_, fun hl r hr => ?_⟩
  · -- a scanned id: its snapshot slots are found, or still there when the slots are read
    rcases Gc.step_scanned hst hx with hx | ⟨rfl, hpc⟩
    · exact hf (h.scanned x hx y hy)
    · obtain ⟨i, hi⟩ := Objects.mem_refs_of.mp hy
      rcases h.slots x i y hi with hcur | hy
      · exact hsh (by rw [hpc]; simp) ⟨x, hpc, Objects.mem_refs_of.mpr ⟨i, hcur⟩⟩
      · exact hf hy
  · -- a slot: only the store of an overwrite changes it, and that one captured the old target
    rcases h.slots n i v hv with hcur | hv
    · rcases Gc.step_objects hst with ⟨e, -⟩ | ⟨t, target, old, src, j, -, hm, e⟩ |
        ⟨t, id, sl, -, hid, e⟩
      · exact .inl (by rw [e]; exact hcur)
      · by_cases hne : n = src ∧ i = j
        · obtain ⟨rfl, rfl⟩ := hne
          refine .inr ?_
          rcases h.inflight t old n i (by rw [hm]; rfl) v hv with rfl | hv
          · exact hf (h.captured t _ _ hm)
          · exact hf hv
        · exact .inl (by rw [e, Objects.slot_setSlot_of_ne (by tauto)]; exact hcur)
      · exact .inl (by rw [e]; exact Objects.slot_alloc hid hcur)
    · exact .inr (hf hv)
  · -- an overwrite: it starts by reading the slot, which holds `v` unless `v` is found
    rcases overwriting_step hst t with e | e | ⟨old', n', i', e, hcur⟩
    · exact (h.inflight t old n i (e ▸ ho) v hv).imp_right fun h => hf h
    · rw [e] at ho; cases ho
    · rw [e] at ho
      cases ho
      rcases h.slots n i v hv with hv | hv
      · exact .inl (Option.some.inj (hcur.symm.trans hv))
      · exact .inr (hf hv)
  · rw [hasLeft_snoc, not_or] at hl
    rcases List.mem_append.mp hx with hx | hx
    · exact hf (h.pushed hl.1 x hx r hr)
    · rw [List.mem_singleton] at hx
      subst hx
      simp only at hr
      subst hr
      exact hsh (hnret hl.1) rfl
  · by_cases hl0 : HasLeft tr
    · exact hf (h.roots hl0 r hr)
    · rcases henv.2 ((hasLeft_snoc.mp hl).resolve_left hl0) r hr with hr | ⟨x, hx, hr⟩
      · exact hf (h.initial r hr)
      · exact hf (h.pushed hl0 x hx r hr)

theorem snapInv_of_run (h0 : MarkingStarts s₀) (h : Run Gc.step (snapshotEnv s₀ roots) s₀ tr s) :
    SnapInv s₀ roots tr s ∧ Ending tr s := by
  have hq : ∀ tr s a, snapshotEnv s₀ roots tr s a → quietEnd tr s a := fun _ _ _ h => h.1
  have hend {tr s} (h : Run Gc.step (snapshotEnv s₀ roots) s₀ tr s) : Ending tr s :=
    ending_of_run h0.toBeforeCall (fun h hl => (allIdle_of_left hq h hl).settled) h
  refine ⟨h.hist (.init h0) fun tr s a s' hr ih he hst => ?_, hend h⟩
  exact ih.step (hend hr) (allIdle_of_left hq hr) (hasLeft_of_phase h0.phase hr) he hst

theorem SnapInv.done (h : SnapInv s₀ roots tr s) (hend : Ending tr s) (hret : s.pc = .returned)
    (all_ids : List UInt32) : s.found ⊆ s.scanned ∧
      Search.Cover (s₀.objects.graph roots all_ids).Edge {r | r ∈ roots} s.scanned s.found :=
  ⟨fun _ hx => ⟨hx.resolve_right fun hp => hp.1 hret, by rw [hret]; simp⟩,
    h.roots (hend.tail (.inr (.inr hret))), h.scanned⟩

end Step

/-- **Snapshot safety.** Whatever the mutators overwrite and however the threads interleave,
the set the worker returns contains every id that was reachable from the roots at the
instant the phase became `Marking`. -/
theorem concurrent_mark_snapshot_safe {s₀ s : Gc} {roots all_ids : List UInt32} {tr : GcHistory}
    (h0 : MarkingStarts s₀) (h : Run Gc.step (snapshotEnv s₀ roots) s₀ tr s)
    (hret : s.pc = .returned) :
    ∀ id ∈ (s₀.objects.graph roots all_ids).reach, id ∈ s.black := by
  obtain ⟨hinv, hend⟩ := snapInv_of_run h0 h
  obtain ⟨hdone, hcover⟩ := hinv.done hend hret all_ids
  exact fun id hid => (hcover.reach_subset hdone hid).1

/-- The root `1` points at `2`; marking has just started. -/
def captureStart : Gc where
  objects
    | 1 => some [2]
    | 2 => some []
    | 3 => some []
    | _ => none
  phase := .store .Marking
  remembered := .new
  stack := ⟨[1]⟩
  black := ∅
  pc := .not_called
  muts _ := .idle

theorem snapshotEnv_of_silent {s₀ s : Gc} {roots : List UInt32} {tr : GcHistory} {a : Act}
    (h : a.silent) : snapshotEnv s₀ roots tr s a := by
  obtain ⟨hc, hl⟩ := Act.silent_spec h
  exact ⟨⟨fun h => absurd h (hl s).1, fun h => by rw [hc] at h; cases h⟩,
    fun h => absurd h (hl s).1⟩

/-- The only reference to `2` is overwritten before the worker's first step. -/
theorem concurrent_mark_snapshot_safe_capture :
    ∃ tr s, Run Gc.step (snapshotEnv captureStart [1]) captureStart tr s ∧ s.pc = .returned ∧
      2 ∉ s.objects.refs_of 1 ∧ 2 ∈ s.black := by
  have hstart : MarkingStarts captureStart := ⟨⟨by simp [captureStart], rfl, rfl⟩, fun _ => rfl⟩
  have hreach : 2 ∈ (captureStart.objects.graph [1] []).reach :=
    Search.Reach.step (Search.Reach.root (show 1 ∈ {r | r ∈ [1]} from List.mem_singleton_self 1))
      (show 2 ∈ captureStart.objects.refs_of 1 by decide)
  have h0 : Run Gc.step (snapshotEnv captureStart [1]) captureStart [] captureStart := .nil
  -- mutator 0 overwrites the slot with 3, the phase leaves, the worker runs to its return
  have h1 := h0.snoc
    (show snapshotEnv captureStart [1] _ _ (.overwrite 0 1 0) from
      ⟨⟨fun h => absurd h.1 h.2, fun _ ⟨x, hx, _⟩ => nomatch hx⟩, fun h => absurd h.1 h.2⟩) rfl
  have h2 := h1.exec (fun a ha tr s => snapshotEnv_of_silent
    ((show ∀ a ∈ [Act.spawn, .mutator 0, .mutator 0], a.silent = true by decide) a ha)) rfl
  have h3 := h2.snoc
    (show snapshotEnv captureStart [1] _ _ (.write 0 3) from
      ⟨⟨fun h => absurd h.1 h.2, fun h => nomatch h⟩, fun h => absurd h.1 h.2⟩) rfl
  have h4 := h3.snoc
    (show snapshotEnv captureStart [1] _ _ (.store .Idle) from
      ⟨⟨fun _ t => by simp [Gc.setMut, captureStart], fun h => nomatch h⟩,
        fun _ r hr => .inl (by simpa [captureStart] using hr)⟩) rfl
  have h5 := h4.exec (fun a ha tr s => snapshotEnv_of_silent
    ((show ∀ a ∈ List.replicate 24 Act.worker, a.silent = true by decide) a ha)) rfl
  exact ⟨_, _, h5, rfl, by decide, concurrent_mark_snapshot_safe hstart h5 rfl 2 hreach⟩

end Samsara
