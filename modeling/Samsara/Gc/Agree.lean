import Samsara.Gc.Ending

/-!
# `concurrent_mark` agrees with `mark`

With a fixed `refs_of` the worker is a search of one graph whose roots keep arriving: the
ids on the stack at the start, those in the remembered set then, and every id recorded
since (`arrived`). `AgreeInv` is the search invariant for the roots that have arrived;
when the worker returns it makes the black set the reachable set, which is what `mark`
colours Black.
-/

namespace Samsara

open StepSys

def Act.disturbs : Act → Bool
  | .write _ _ | .alloc _ _ _ | .push _ => true
  | _ => false

/-- `quietEnd`, the slots stay as they are and nobody else touches the stack. -/
def fixedEnv (tr : GcHistory) (s : Gc) (a : Act) : Prop := quietEnd tr s a ∧ a.disturbs = false

/-- The roots that have arrived: on the stack or in the remembered set at the start, or
recorded since. -/
def arrived (s₀ : Gc) (tr : GcHistory) : List UInt32 :=
  s₀.stack.objects ++ s₀.remembered.inner ++ recorded tr

/-- The search invariant for the roots that have arrived. -/
structure AgreeInv (s₀ : Gc) (tr : GcHistory) (s : Gc) : Prop where
  wf : s.Wf
  objects : s.objects = s₀.objects
  cover : Search.Cover (s₀.objects.graph (arrived s₀ tr) []).Edge {r | r ∈ arrived s₀ tr}
    s.scanned s.found
  sound : s.found ⊆ (s₀.objects.graph (arrived s₀ tr) []).reach
  stack : s.pc = .returned → s.stack.objects = []

section Step

variable {s₀ s s' : Gc} {tr : GcHistory} {a : Act}

theorem AgreeInv.init (h : BeforeCall s₀) : AgreeInv s₀ [] s₀ := by
  have hfound : s₀.found = {r | r ∈ arrived s₀ []} := by
    ext r
    simp [Gc.mem_found, h.black, h.not_called, WorkerPc.transit, arrived, recorded]
  refine ⟨h.wf, rfl, ⟨hfound.ge, fun x hx => ?_⟩, ?_, fun e => ?_⟩
  · have := hx.1
    rw [h.black] at this
    simp at this
  · rw [hfound]
    exact fun r hr => Search.Reach.root hr
  · rw [h.not_called] at e
    cases e

theorem AgreeInv.shaded (h : AgreeInv s₀ tr s) (hd : a.disturbs = false) {x : UInt32}
    (hx : x ∈ s.shaded a) : x ∈ (s₀.objects.graph (arrived s₀ (tr ++ [(s, a)])) []).reach := by
  cases a with
  | worker =>
    obtain ⟨src, hpc, hx⟩ := hx
    rw [h.objects] at hx
    have hsrc := h.sound (.inl (h.wf.refs_of src hpc))
    refine Search.Reach.step (Search.Reach.mono (fun _ _ e => e) (fun r hr => ?_) hsrc) hx
    simp only [arrived, List.mem_append, Set.mem_ofPred_eq, Objects.graph] at hr ⊢
    exact hr.imp_right fun hr => mem_recorded_snoc.mpr (.inl hr)
  | mutator t =>
    obtain ⟨slot, hm⟩ := hx
    refine Search.Reach.root (List.mem_append_right _ ?_)
    exact mem_recorded_snoc.mpr (.inr ⟨t, slot, rfl, hm⟩)
  | push id => cases hd
  | _ => exact hx.elim

theorem AgreeInv.step (h : AgreeInv s₀ tr s) (hend : Ending tr s)
    (hidle : HasLeft tr → s.AllIdle) (henv : fixedEnv tr s a) (hst : s.step a = some s') :
    AgreeInv s₀ (tr ++ [(s, a)]) s' := by
  have hfound := Gc.step_found h.wf hst (hend.returnsClean hst)
  have hf : s.found ⊆ s'.found := by rw [hfound]; exact Set.subset_union_left
  have hroots : {r | r ∈ arrived s₀ tr} ⊆ {r | r ∈ arrived s₀ (tr ++ [(s, a)])} := fun r hr => by
    simp only [arrived, List.mem_append, Set.mem_ofPred_eq] at hr ⊢
    exact hr.imp_right fun hr => mem_recorded_snoc.mpr (.inl hr)
  refine ⟨Gc.step_wf h.wf hst, ?_, ⟨fun r hr => ?_, fun x hx y hy => ?_⟩, ?_, fun hret => ?_⟩
  · have hfixed : a.mutates = false := by
      cases a <;> first | rfl | cases henv.2
    exact (Gc.step_objects_eq hfixed hst).trans h.objects
  · -- a root that arrives is recorded by a mutator: the phase has not left
    simp only [arrived, List.mem_append, Set.mem_ofPred_eq, mem_recorded_snoc] at hr
    rw [← or_assoc] at hr
    rcases hr with hr | ⟨t, slot, rfl, hm⟩
    · exact hf (h.cover.roots (by
        simpa only [arrived, List.mem_append, Set.mem_ofPred_eq] using hr))
    · have hl : ¬ HasLeft tr := fun hl => by rw [hidle hl t] at hm; cases hm
      rw [hfound]
      exact .inr ⟨fun hret => hl (hend.tail (.inr (.inr hret))), slot, hm⟩
  · rcases Gc.step_scanned hst hx with hx | ⟨rfl, hpc⟩
    · exact hf (h.cover.scanned x hx y hy)
    · rw [hfound]
      refine .inr ⟨by rw [hpc]; simp, x, hpc, ?_⟩
      rw [h.objects]
      exact hy
  · rw [hfound]
    rintro x (hx | ⟨-, hx⟩)
    · exact Search.Reach.mono (fun _ _ e => e) hroots (h.sound hx)
    · exact h.shaded henv.2 hx
  · rcases Gc.step_locals hst with rfl | ⟨rfl, -, rfl⟩ | ⟨hw, hpc, -⟩
    · obtain ⟨-, hs, he, -⟩ := (Gc.worker_tail hst).2.2 hret
      rw [he, hs]
    · cases hret
    · rw [Gc.step_stack hst hw fun id e => by rw [e] at henv; cases henv.2]
      exact h.stack (hpc ▸ hret)

end Step

variable {s₀ s : Gc} {tr : GcHistory}

/-- Ids are 32 bit wide, so every set of them is finite. -/
theorem finite_ids (ids : Set UInt32) : ids.Finite := by
  have : Finite UInt32 := Finite.of_injective UInt32.toFin fun x y e => UInt32.toFin_inj.mp e
  exact Set.toFinite ids

theorem agreeInv_of_run (h0 : BeforeCall s₀) (h : Run Gc.step fixedEnv s₀ tr s) :
    AgreeInv s₀ tr s ∧ Ending tr s := by
  have hq : ∀ tr s a, fixedEnv tr s a → quietEnd tr s a := fun _ _ _ h => h.1
  have hend {tr s} (h : Run Gc.step fixedEnv s₀ tr s) : Ending tr s :=
    ending_of_run h0 (fun h hl => (allIdle_of_left hq h hl).settled) h
  refine ⟨h.hist (.init h0) fun tr s a s' hr ih he hst => ?_, hend h⟩
  exact ih.step (hend hr) (allIdle_of_left hq hr) he hst

/-- **`concurrent_mark` agrees with `mark`.** The black set it returns is the set of ids that
`mark` colours Black from the ids that were on the stack, in the remembered set or recorded
during the run, and it leaves the stack and the remembered set empty. -/
theorem concurrent_mark_agrees_with_mark {all_ids : List UInt32} (h0 : BeforeCall s₀)
    (h : Run Gc.step fixedEnv s₀ tr s) (hret : s.pc = .returned) :
    (∃ c, Marks (s₀.objects.graph
        (s₀.stack.objects ++ s₀.remembered.inner ++ recorded tr) all_ids) c ∧
      ∀ id, id ∈ s.black ↔ c id = some .Black) ∧
    s.stack.is_empty ∧ s.remembered.inner = [] := by
  obtain ⟨hinv, hend⟩ := agreeInv_of_run h0 h
  have hfb : s.found ⊆ s.scanned := fun x hx =>
    ⟨hx.resolve_right fun hp => hp.1 hret, by rw [hret]; simp⟩
  have hsb : s.scanned = {id | id ∈ s.black} := by
    ext x
    simp [Gc.scanned, hret]
  have hreach := hinv.cover.eq_reach hfb fun x hx => hinv.sound (.inl hx.1)
  refine ⟨?_, by simp [MarkStack.is_empty, hinv.stack hret], hend.drained (.inr hret)⟩
  obtain ⟨c, hc⟩ := mark_returns (s₀.objects.graph (arrived s₀ tr) all_ids) (finite_ids _)
  refine ⟨c, hc, fun id => ?_⟩
  rw [hc.black_iff, ← Set.mem_ofPred_eq (p := fun id => id ∈ s.black), ← hsb, hreach]
  rfl

/-- A duplicate on the stack, a capture waiting and a call of `pre_write` in flight. -/
def agreeStart : Gc where
  objects
    | 1 => some [1]
    | 2 => some [3]
    | 3 => some []
    | 4 => some [2]
    | _ => none
  phase := .store .Marking
  remembered := ⟨[3]⟩
  stack := ⟨[1, 1]⟩
  black := ∅
  pc := .not_called
  muts t := if t = 0 then .pre_write 2 none else .idle

theorem fixedEnv_of_silent {s : Gc} {a : Act} (h : a.silent) : fixedEnv tr s a := by
  obtain ⟨hc, hl⟩ := Act.silent_spec h
  refine ⟨⟨fun h => absurd h (hl s).1, fun h => by rw [hc] at h; cases h⟩, ?_⟩
  cases a <;> first | rfl | cases h

/-- The phase leaves before the worker's first step, after `2` was recorded. -/
theorem concurrent_mark_agrees_with_mark_capture :
    ∃ tr s, Run Gc.step fixedEnv agreeStart tr s ∧ s.pc = .returned ∧ s.remembered.inner = [] ∧
      ∃ c, Marks (agreeStart.objects.graph [1, 1, 3, 2] []) c ∧
        ∀ id, id ∈ s.black ↔ c id = some .Black := by
  have hstart : BeforeCall agreeStart := ⟨by simp [agreeStart], rfl, rfl⟩
  have h1 := (Run.nil : Run Gc.step fixedEnv agreeStart [] agreeStart).exec
    (fun a ha tr s => fixedEnv_of_silent
      ((show ∀ a ∈ [Act.mutator 0, .mutator 0], a.silent = true by decide) a ha)) rfl
  have h2 := h1.snoc
    (show fixedEnv _ _ (.store .Idle) from
      ⟨⟨fun _ t => by by_cases ht : t = 0 <;> simp [Gc.setMut, agreeStart, MutPc.after, ht],
        fun h => nomatch h⟩, rfl⟩) rfl
  have h3 := h2.exec (fun a ha tr s => fixedEnv_of_silent
    ((show ∀ a ∈ Act.spawn :: List.replicate 32 .worker, a.silent = true by decide) a ha)) rfl
  obtain ⟨hmark, -, hrem⟩ := concurrent_mark_agrees_with_mark hstart h3 rfl
  exact ⟨_, _, h3, rfl, hrem, hmark⟩

end Samsara
