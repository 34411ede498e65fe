import Samsara.Region.Cycle

/-!
# Live counts of a collector that marks once

`Client` runs in which `mark_live` is called on valid handles of nonzero size, each at most
once between two `pre_mark`s (`marksOnce`). A live count is then the number of marked
handles of its region (`Counted`). They are distinct and 8-aligned, so there are at most
`REGION_SIZE / 8` of them, the `u32` does not wrap, and as a region with a marked handle is
not dead, no `sweep` takes such a handle back. Nothing here bounds the number of regions.
-/

namespace Samsara

open StepSys

/-- What a call does to the handles passed to `mark_live` since the last `pre_mark`. -/
def HeapOp.marked (l : List RegionHandle) : HeapOp → List RegionHandle
  | .pre_mark => []
  | .mark_live hd => hd :: l
  | _ => l

/-- The handles passed to `mark_live` since the last `pre_mark`, newest first. -/
def markedSince (tr : History Client HeapOp) : List RegionHandle :=
  tr.foldl (fun l x => x.2.marked l) []

/-- The promise of the collector. -/
def marksOnce (tr : History Client HeapOp) (c : Client) : HeapOp → Prop
  | .mark_live hd => (∃ g ∈ c.grants, g.handle = hd ∧ 0 < g.size) ∧ hd ∉ markedSince tr
  | _ => True

/-- A grant lies 8-aligned in a region there is. -/
structure Grant.Inside (h : RegionHeap) (g : Grant) : Prop where
  region : g.region < h.regions.length
  end_ : g.end_ ≤ REGION_SIZE
  aligned : 8 ∣ g.start

/-- `l` lists the marked handles: they are valid and of nonzero size. -/
structure Listed (l : List RegionHandle) (c : Client) : Prop where
  inside : ∀ g ∈ c.grants, g.Inside c.heap
  nodup : l.Nodup
  backed : ∀ hd ∈ l, ∃ g ∈ c.grants, g.handle = hd ∧ 0 < g.size

/-- A live count is the number of marked handles of the region. -/
structure Counted (l : List RegionHandle) (c : Client) : Prop extends Listed l c where
  count : ∀ (i : Nat) r, c.heap.regions[i]? = some r →
    r.live_count.toNat = l.countP (·.region.toNat = i)

theorem markedSince_snoc (tr : History Client HeapOp) (c : Client) (op : HeapOp) :
    markedSince (tr ++ [(c, op)]) = op.marked (markedSince tr) := by
  unfold markedSince
  rw [List.foldl_append]
  rfl

section Step

variable {c : Client} {heap : RegionHeap} {l : List RegionHandle} {hd : RegionHandle} {g : Grant}

theorem Grant.Inside.resize (h : g.Inside c.heap)
    (hlen : heap.regions.length = c.heap.regions.length) : g.Inside heap :=
  ⟨hlen ▸ h.region, h.end_, h.aligned⟩

theorem Grant.Inside.same {g' : Grant} (h : g.Inside heap) (hs : g.SameRange g') :
    g'.Inside heap := by
  obtain ⟨hh, hz⟩ := hs
  refine ⟨?_, ?_, ?_⟩
  · simpa only [Grant.region, hh] using h.region
  · simpa only [Grant.end_, Grant.start, hh, hz] using h.end_
  · simpa only [Grant.start, hh] using h.aligned

/-- **The bound.** -/
theorem Listed.count_le (h : Listed l c) (i : Nat) :
    l.countP (·.region.toNat = i) ≤ REGION_SIZE / 8 := by
  refine count_aligned_le h.nodup i fun hd hdl _ => ?_
  obtain ⟨g, hg, rfl, hsize⟩ := h.backed hd hdl
  obtain ⟨-, hend, h8⟩ := h.inside g hg
  refine ⟨h8, ?_⟩
  unfold Grant.end_ at hend
  exact Nat.lt_of_lt_of_le (Nat.lt_add_of_pos_right hsize) hend

theorem Listed.cons (h : Listed l c) (hg : g ∈ c.grants) (hsize : 0 < g.size)
    (hfresh : g.handle ∉ l) : Listed (g.handle :: l) c :=
  ⟨h.inside, List.nodup_cons.mpr ⟨hfresh, h.nodup⟩,
    List.forall_mem_cons.mpr ⟨⟨g, hg, rfl, hsize⟩, h.backed⟩⟩

theorem Listed.frame (h : Listed l c) {f : Grant → Grant} {marks : Nat → Nat}
    (hlen : heap.regions.length = c.heap.regions.length)
    (hf : ∀ g : Grant, g.SameRange (f g)) : Listed l ⟨heap, c.grants.map f, marks⟩ := by
  refine ⟨fun g' hg' => ?_, h.nodup, fun hd hdl => ?_⟩
  · obtain ⟨g, hg, rfl⟩ := List.mem_map.mp hg'
    exact ((h.inside g hg).same (hf g)).resize hlen
  · obtain ⟨g, hg, hhd, hsize⟩ := h.backed hd hdl
    obtain ⟨hh, hs⟩ := hf g
    exact ⟨f g, List.mem_map_of_mem hg, hh.trans hhd, hs ▸ hsize⟩

theorem Counted.refused (h : Counted l c) (hr : Refuses c.heap.regions heap.regions) :
    Counted l { c with heap := heap } := by
  refine ⟨⟨fun g hg => (h.inside g hg).resize hr.length, h.nodup, h.backed⟩, fun i r' hi => ?_⟩
  obtain ⟨r, hr, e, -⟩ := (hr.closes i).before hi
  exact e ▸ h.count i r hr

theorem Counted.granted (h : Counted l c) {size i off : Nat}
    (hg : Grants c.heap.regions heap.regions size i off) :
    Counted l { c with
      heap := heap, grants := ⟨RegionHeap.handle i off, size, [], false⟩ :: c.grants } := by
  obtain ⟨r, hr, hoff, hle, -⟩ := hg.region
  have hlt : i < c.heap.regions.length := (List.getElem?_eq_some_iff.mp hr).1
  have hstart : (UInt32.ofNat off).toNat = off :=
    toNat_ofNat_of_lt (by unfold REGION_SIZE at hle; omega)
  refine ⟨⟨fun g hgm => ?_, h.nodup, fun hd hdl => ?_⟩, fun j r' hj => ?_⟩
  · rcases List.mem_cons.mp hgm with rfl | hgm
    · refine ⟨?_, ?_, ?_⟩
      · show (UInt32.ofNat i).toNat < heap.regions.length
        rw [UInt32.toNat_ofNat', hg.length]
        exact Nat.lt_of_le_of_lt (Nat.mod_le _ _) hlt
      · show (UInt32.ofNat off).toNat + size ≤ REGION_SIZE
        rwa [hstart]
      · show 8 ∣ (UInt32.ofNat off).toNat
        rw [hstart, hoff]
        exact dvd_aligned r.offset
    · exact (h.inside g hgm).resize hg.length
  · obtain ⟨g, hgm, hg⟩ := h.backed hd hdl
    exact ⟨g, List.mem_cons_of_mem _ hgm, hg⟩
  · obtain ⟨r, hr, e, -⟩ := hg.before hj
    exact e ▸ h.count j r hr

theorem Counted.write (h : Counted l c) {data : List UInt8}
    (hw : c.heap.write hd data = some heap) :
    Counted l { c with heap := heap, grants := c.grants.map (Grant.write hd data) } := by
  obtain ⟨r, b, hr, -, rfl⟩ := RegionHeap.write_cases hw
  refine ⟨h.toListed.frame List.length_set (Grant.sameRange_write hd data), fun i r' hi => ?_⟩
  rcases Buffer.getElem?_set_cases hi with ⟨rfl, rfl⟩ | ⟨-, hi⟩
  · exact h.count _ r hr
  · exact h.count i r' hi

theorem Counted.pre_mark (h : Counted l c) {marks : Nat → Nat} :
    Counted [] ⟨c.heap.pre_mark, c.grants.map Grant.unmark, marks⟩ := by
  have hnil : Listed [] c := ⟨h.inside, List.nodup_nil, (fun _ hd => nomatch hd)⟩
  refine ⟨hnil.frame (List.length_map _) fun _ => ⟨rfl, rfl⟩, fun i r hi => ?_⟩
  rw [RegionHeap.pre_mark_region] at hi
  obtain ⟨r₀, -, rfl⟩ := Option.map_eq_some_iff.mp hi
  rfl

/-- With one more distinct handle the bound still holds, so the count does not wrap. -/
theorem Counted.mark_live (h : Counted l c) (hg : g ∈ c.grants) (hsize : 0 < g.size)
    (hfresh : g.handle ∉ l) {marks : Nat → Nat} (hm : c.heap.mark_live g.handle = some heap) :
    Counted (g.handle :: l) ⟨heap, c.grants.map (Grant.mark g.handle), marks⟩ := by
  have hl := h.toListed.cons hg hsize hfresh
  obtain ⟨r, hr, rfl⟩ := RegionHeap.mark_live_cases hm
  refine ⟨hl.frame List.length_set (Grant.sameRange_mark _), fun i r' hi => ?_⟩
  rcases Buffer.getElem?_set_cases hi with ⟨rfl, rfl⟩ | ⟨hne, hi⟩
  · have hle := hl.count_le g.handle.region.toNat
    rw [List.countP_cons_of_pos (by simp)] at hle ⊢
    unfold REGION_SIZE at hle
    rw [UInt32.toNat_add, h.count _ r hr]
    exact Nat.mod_eq_of_lt (by simp only [UInt32.toNat_one]; omega)
  · rw [List.countP_cons_of_neg (by simpa using Ne.symm hne)]
    exact h.count i r' hi

/-- The region of a marked handle is not dead. -/
theorem Counted.sweep (h : Counted l c) :
    Counted l
      { c with heap := c.heap.sweep.1, grants := c.grants.filter (Client.keeps c.heap) } := by
  have hlen : c.heap.sweep.1.regions.length = c.heap.regions.length := by
    rw [c.heap.sweep_spec.1, List.length_map]
  refine ⟨⟨fun g hg => ?_, h.nodup, fun hd hdl => ?_⟩, fun i r' hi => ?_⟩
  · exact (h.inside g (List.mem_filter.mp hg).1).resize hlen
  · obtain ⟨g, hg, rfl, hsize⟩ := h.backed hd hdl
    refine ⟨g, List.mem_filter.mpr ⟨hg, ?_⟩, rfl, hsize⟩
    obtain ⟨r, hr⟩ : ∃ r, c.heap.regions[g.region]? = some r :=
      ⟨_, List.getElem?_eq_getElem (h.inside g hg).region⟩
    have hcount := h.count _ r hr
    have hpos : 0 < l.countP (·.region.toNat = g.region) :=
      List.countP_pos_iff.mpr ⟨g.handle, hdl, by simp [Grant.region]⟩
    have hlive : r.live_count ≠ 0 := fun e => by
      rw [e] at hcount
      exact absurd hcount.symm (Nat.ne_of_gt hpos)
    simp [Client.keeps, hr, Region.dead, hlive]
  · rw [sweep_region] at hi
    obtain ⟨r, hr, rfl⟩ := Option.map_eq_some_iff.mp hi
    rw [← h.count i r hr]
    split
    · next hd =>
      simp only [Region.dead, Bool.and_eq_true, decide_eq_true_eq] at hd
      rw [hd.2]
      rfl
    · rfl

/-- **Every call the collector makes keeps the counts.** -/
theorem Counted.step {tr : History Client HeapOp} {c' : Client} {op : HeapOp}
    (h : Counted (markedSince tr) c) (hp : marksOnce tr c op) (hst : c.step op = some c') :
    Counted (op.marked (markedSince tr)) c' := by
  cases op with
  | alloc size =>
    simp only [Client.step] at hst
    split at hst
    · cases hst
    · next heap ha =>
      cases hst
      cases RegionHeap.alloc_cases ha with
      | refused hr hc => exact h.refused hr
    · next heap hd ha =>
      cases hst
      cases RegionHeap.alloc_cases ha with
      | granted hg hc => exact h.granted hg
  | write hd data =>
    obtain ⟨heap, hw, rfl⟩ := Option.map_eq_some_iff.mp hst
    exact h.write hw
  | pre_mark =>
    cases hst
    exact h.pre_mark
  | mark_live hd =>
    obtain ⟨⟨g, hg, rfl, hsize⟩, hfresh⟩ := hp
    obtain ⟨heap, hm, rfl⟩ := Option.map_eq_some_iff.mp hst
    exact h.mark_live hg hsize hfresh hm
  | sweep =>
    cases hst
    exact h.sweep

theorem counted_new (n : Nat) : Counted [] (.new n) := by
  refine ⟨⟨(fun g hg => nomatch hg), List.nodup_nil, (fun _ hd => nomatch hd)⟩, fun i r hi => ?_⟩
  have hr : r = .new := List.eq_of_mem_replicate (List.mem_of_getElem? hi)
  rw [hr]
  rfl

theorem counted_of_run {n : Nat} {tr : History Client HeapOp}
    (h : Run Client.step marksOnce (.new n) tr c) : Counted (markedSince tr) c := by
  refine h.hist (P := fun tr c => Counted (markedSince tr) c) (counted_new n) ?_
  intro tr c op c' _ ih hp hst
  rw [markedSince_snoc]
  exact ih.step hp hst

end Step

/-- **Live counts do not overflow.** In every run in which `mark_live` is called on valid
handles of nonzero size, each at most once between two `pre_mark`s: a live count is at most
`REGION_SIZE / 8`; it is 0 exactly when no valid handle of the region has been marked since
the last `pre_mark`; and the next `mark_live` finds its region, the count below the bound,
and returns. -/
theorem live_counts_bounded {n : Nat} {tr : History Client HeapOp} {c : Client}
    (h : Run Client.step marksOnce (.new n) tr c) :
    (∀ (i : Nat) r, c.heap.regions[i]? = some r → r.live_count.toNat ≤ REGION_SIZE / 8 ∧
      (r.live_count = 0 ↔ ¬ ∃ g ∈ c.grants, g.region = i ∧ g.handle ∈ markedSince tr)) ∧
    ∀ hd, marksOnce tr c (.mark_live hd) → (∃ r, c.heap.regions[hd.region.toNat]? = some r ∧
      r.live_count.toNat + 1 ≤ REGION_SIZE / 8) ∧ ∃ h', c.heap.mark_live hd = some h' := by
  have hc := counted_of_run h
  refine ⟨fun i r hi => ⟨?_, ?_⟩, fun hd hp => ?_⟩
  · rw [hc.count i r hi]
    exact hc.count_le i
  · have hzero : r.live_count = 0 ↔ (markedSince tr).countP (·.region.toNat = i) = 0 := by
      rw [← hc.count i r hi, ← UInt32.toNat_inj]
      rfl
    rw [hzero, List.countP_eq_zero]
    constructor
    · rintro hno ⟨g, -, rfl, hm⟩
      exact hno g.handle hm (by simp [Grant.region])
    · intro hno hd hm hreg
      obtain ⟨g, hg, rfl, -⟩ := hc.backed hd hm
      exact hno ⟨g, hg, of_decide_eq_true hreg, hm⟩
  · obtain ⟨⟨g, hg, rfl, hsize⟩, hfresh⟩ := hp
    have hr := List.getElem?_eq_getElem (hc.inside g hg).region
    have hle := (hc.toListed.cons hg hsize hfresh).count_le g.region
    rw [List.countP_cons_of_pos (by simp [Grant.region])] at hle
    refine ⟨⟨_, hr, (hc.count _ _ hr).symm ▸ hle⟩, ?_⟩
    unfold RegionHeap.mark_live
    rw [show c.heap.regions[g.handle.region.toNat]? = some _ from hr]
    exact ⟨_, rfl⟩

/-- Two objects in one region, one marked and the other about to be. -/
theorem live_counts_bounded_two :
    ∃ tr c r, Run Client.step marksOnce (.new 1) tr c ∧ c.heap.regions[0]? = some r ∧
      r.live_count ≠ 0 ∧ r.live_count.toNat + 1 ≤ REGION_SIZE / 8 ∧
      ∃ h', c.heap.mark_live ⟨0, 8⟩ = some h' := by
  have h0 : Run Client.step marksOnce (.new 1) [] (.new 1) := .nil
  have h1 := h0.snoc (show marksOnce _ _ (.alloc 3) from trivial) rfl
  have h2 := h1.snoc (show marksOnce _ _ (.alloc 8) from trivial) rfl
  have h3 := h2.snoc (show marksOnce _ _ .pre_mark from trivial) rfl
  have h4 := h3.snoc (show marksOnce _ _ (.mark_live ⟨0, 0⟩) from
    ⟨⟨_, List.mem_cons_of_mem _ List.mem_cons_self, rfl, by decide⟩, by decide⟩) rfl
  obtain ⟨hcounts, hmark⟩ := live_counts_bounded h4
  obtain ⟨⟨r, hr, hle⟩, hreturns⟩ := hmark ⟨0, 8⟩
    ⟨⟨_, List.mem_cons_self, rfl, by decide⟩, by decide⟩
  refine ⟨_, _, r, h4, hr, fun hz => ((hcounts 0 r hr).2.mp hz) ?_, hle, hreturns⟩
  exact ⟨_, List.mem_cons_of_mem _ List.mem_cons_self, rfl, by decide⟩

end Samsara
