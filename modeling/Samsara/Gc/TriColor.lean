import Samsara.Gc.Garbage
import Samsara.Gc.Snapshot

/-!
# The tri-color invariant

The barrier is a deletion barrier: it shades the target that an overwrite removes, never the
one it inserts. A reference stored into a scanned object is therefore black at the end only
because its target is found some other way: what the mutators hold is reachable in the
snapshot, and so found, or was allocated since marking started. The second kind is the only
one a black object can be left pointing at.
-/

namespace Samsara

open StepSys

/-- `snapshotEnv`, and the mutators store only what they hold. -/
def storingEnv (s₀ : Gc) (roots : List UInt32) (tr : GcHistory) (s : Gc) (a : Act) : Prop :=
  snapshotEnv s₀ roots tr s a ∧ storesHeld s₀ roots tr s a

/-- A slot holds its snapshot target, or a survivor that was stored there. -/
structure StoreInv (s₀ : Gc) (roots : List UInt32) (tr : GcHistory) (s : Gc) : Prop
    extends Closed s₀ roots tr s where
  stored : ∀ n i v, s.objects.slot n i = some v →
    s₀.objects.slot n i = some v ∨ v ∈ survivors s₀ roots tr

section Step

variable {s₀ s s' : Gc} {roots : List UInt32} {tr : GcHistory} {a : Act}

theorem StoreInv.step (h : StoreInv s₀ roots tr s) (henv : storesHeld s₀ roots tr s a)
    (hst : s.step a = some s') : StoreInv s₀ roots (tr ++ [(s, a)]) s' := by
  refine ⟨h.toClosed.step henv hst, fun n i v hv => ?_⟩
  have hold (hv : s.objects.slot n i = some v) :
      s₀.objects.slot n i = some v ∨ v ∈ survivors s₀ roots (tr ++ [(s, a)]) :=
    (h.stored n i v hv).imp_right fun hv => survivors_snoc hv
  rcases Gc.step_objects hst with ⟨e, -⟩ | ⟨t, target, old, src, j, rfl, -, e⟩ |
    ⟨t, id, slots, rfl, -, e⟩
  · exact hold (e ▸ hv)
  · rw [e] at hv
    rcases Objects.slot_setSlot hv with hv | rfl
    · exact hold hv
    · exact .inr (survivors_snoc (h.held t _ henv))
  · rw [e] at hv
    by_cases hn : n = id
    · subst hn
      exact .inr (h.held_snoc (henv v (Objects.mem_of_slot_alloc hv)))
    · rw [Objects.slot_alloc_of_ne hn] at hv
      exact hold hv

theorem storeInv_of_run (h : Run Gc.step (storingEnv s₀ roots) s₀ tr s) :
    StoreInv s₀ roots tr s :=
  h.hist ⟨.init s₀ roots, fun _ _ _ hv => .inl hv⟩ fun _ _ _ _ _ ih he hst => ih.step he.2 hst

end Step

/-- **What is left of the tri-color invariant.** When the worker returns, a black object
points at black objects and at objects allocated since marking started, at no other. -/
theorem black_points_at_black_or_allocated {s₀ s : Gc} {roots : List UInt32} {tr : GcHistory}
    (h0 : MarkingStarts s₀) (h : Run Gc.step (storingEnv s₀ roots) s₀ tr s)
    (hret : s.pc = .returned) :
    ∀ id ∈ s.black, ∀ child ∈ s.objects.refs_of id, child ∈ s.black ∨ Allocated tr child := by
  have hstore := storeInv_of_run h
  obtain ⟨hinv, hend⟩ := snapInv_of_run h0 (h.imp fun _ _ _ he => he.1)
  obtain ⟨hdone, hcover⟩ := hinv.done hend hret []
  intro id hid child hchild
  obtain ⟨i, hslot⟩ := Objects.mem_refs_of.mp hchild
  rcases hstore.stored id i child hslot with hold | hreach | halloc
  · -- the reference of the snapshot is still there, and was found when `id` was scanned
    have hscanned : id ∈ s.scanned := ⟨hid, by rw [hret]; simp⟩
    have hfound := hinv.scanned id hscanned child (Objects.mem_refs_of.mpr ⟨i, hold⟩)
    exact .inl (hdone hfound).1
  · exact .inl (hcover.reach_subset hdone hreach).1
  · exact .inr halloc

/-- The invariant of the README, for mutators that may store whatever they hold. -/
def TriColor : Prop :=
  ∀ (s₀ s : Gc) (roots : List UInt32) (tr : GcHistory), MarkingStarts s₀ →
    Run Gc.step (storingEnv s₀ roots) s₀ tr s → s.pc = .returned →
    ∀ id ∈ s.black, ∀ child ∈ s.objects.refs_of id, child ∈ s.black

theorem storingEnv_of_silent {s₀ s : Gc} {roots : List UInt32} {tr : GcHistory} {a : Act}
    (h : a.silent) : storingEnv s₀ roots tr s a := by
  refine ⟨snapshotEnv_of_silent h, ?_⟩
  cases a with
  | write | alloc => cases h
  | _ => trivial

/-- After `1` has been scanned, a mutator stores the new object `5` into its slot. -/
theorem links_new_object :
    ∃ tr s, Run Gc.step (storingEnv captureStart [1]) captureStart tr s ∧ s.pc = .returned ∧
      s.black = {1, 2} ∧ s.objects.refs_of 1 = [5] := by
  have h0 : Run Gc.step (storingEnv captureStart [1]) captureStart [] captureStart := .nil
  have h1 := h0.snoc (show storingEnv captureStart [1] _ _ (.alloc 0 5 []) from
    ⟨⟨⟨fun h => absurd h.1 h.2, fun h => nomatch h⟩, fun h => absurd h.1 h.2⟩,
      fun _ h => nomatch h⟩) rfl
  have h2 := h1.snoc (show storingEnv captureStart [1] _ _ (.overwrite 0 1 0) from
    ⟨⟨⟨fun h => absurd h.1 h.2, fun _ ⟨x, hx, hl⟩ => by
        cases List.mem_singleton.mp hx
        exact hl.2 hl.1⟩, fun h => absurd h.1 h.2⟩, trivial⟩) rfl
  have h3 := h2.exec (fun a ha tr s => storingEnv_of_silent
    ((show ∀ a ∈ Act.spawn :: List.replicate 4 .worker ++ List.replicate 2 (.mutator 0),
      a.silent = true by decide) a ha)) rfl
  have h4 := h3.snoc (show storingEnv captureStart [1] _ _ (.write 0 5) from
    ⟨⟨⟨fun h => absurd h.1 h.2, fun h => nomatch h⟩, fun h => absurd h.1 h.2⟩,
      .inr (.inr ⟨(captureStart, .alloc 0 5 []), by simp, 0, [], rfl⟩)⟩) rfl
  have h5 := h4.snoc (show storingEnv captureStart [1] _ _ (.store .Idle) from
    ⟨⟨⟨fun _ t => by simp [Gc.setMut, captureStart], fun h => nomatch h⟩,
      fun _ r hr => .inl (by simpa [captureStart] using hr)⟩, trivial⟩) rfl
  have h6 := h5.exec (fun a ha tr s => storingEnv_of_silent
    ((show ∀ a ∈ List.replicate 18 Act.worker, a.silent = true by decide) a ha)) rfl
  exact ⟨_, _, h6, rfl, by decide, by decide⟩

theorem captureStart_starts : MarkingStarts captureStart :=
  ⟨⟨by simp [captureStart], rfl, rfl⟩, fun _ => rfl⟩

/-- The black `1` points at `5`, which is not black. -/
theorem new_object_breaks_triColor : ¬ TriColor := by
  intro hall
  obtain ⟨tr, s, hrun, hret, hblack, hrefs⟩ := links_new_object
  have h5 := hall _ s _ tr captureStart_starts hrun hret 1 (by simp [hblack]) 5 (by simp [hrefs])
  simp [hblack] at h5

theorem black_points_at_black_or_allocated_new :
    ∃ tr s, Run Gc.step (storingEnv captureStart [1]) captureStart tr s ∧ s.pc = .returned ∧
      5 ∈ s.objects.refs_of 1 ∧ 5 ∉ s.black ∧ Allocated tr 5 := by
  obtain ⟨tr, s, hrun, hret, hblack, hrefs⟩ := links_new_object
  have hchild := black_points_at_black_or_allocated captureStart_starts hrun hret 1
    (by simp [hblack]) 5 (by simp [hrefs])
  have hwhite : 5 ∉ s.black := by simp [hblack]
  exact ⟨tr, s, hrun, hret, by simp [hrefs], hwhite, hchild.resolve_left hwhite⟩

end Samsara
