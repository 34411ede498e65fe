import Samsara.Lib.Lockstep
import Samsara.Region.States

/-!
# Refused allocations

When `alloc` answers `None`, and what it leaves behind. It tries the current region and the
free ones only, so a request may be refused although it fits in a region that was closed and
left (`Stranded`). A refusal closes the current region at most, and no answer depends on
whether a region is `Allocating` or `Full`: the heaps before and after it answer every
sequence of requests alike (`Relabelled`).
-/

namespace Samsara

open StepSys Lockstep

/-! ## When `alloc` gives up -/

namespace RegionHeap

/-- `alloc` answers `None` only if no region is free and none has room. -/
def GivesUpOnlyFull (h : RegionHeap) (size : Nat) : Prop :=
  ∀ h', h.alloc size = some (h', none) → ∀ r ∈ h.regions, r.state ≠ .Free ∧ ¬ r.fits size

/-- No region is free and the current one, if there is one, has no room, but another has. -/
structure Stranded (h : RegionHeap) (size : Nat) : Prop where
  free : ∀ r ∈ h.regions, r.state ≠ .Free
  current : ∀ (i : Nat) r, h.current = some i → h.regions[i]? = some r → ¬ r.fits size
  left : ∃ r ∈ h.regions, r.fits size

end RegionHeap

section GiveUp

variable {h h' : RegionHeap} {rs : List Region} {size : Nat}

/-- `alloc` refuses exactly when no region is free and the current one has no room. -/
theorem Consistent.refuses_iff (hc : Consistent h) (hs : size ≤ REGION_SIZE) :
    (∃ h', h.alloc size = some (h', none)) ↔ (∀ r ∈ h.regions, r.state ≠ .Free) ∧
      ∀ (i : Nat) r, h.current = some i → h.regions[i]? = some r → ¬ r.fits size := by
  obtain ⟨h', res, e⟩ : ∃ h' res, h.alloc size = some (h', res) := hc.alloc_isSome
  rw [e]
  have hcase := hc.alloc_cases e
  cases hcase with
  | oversized hs' => omega
  | @bump i r hs hcur hr hf =>
    refine iff_of_false (fun ⟨_, e⟩ => ?_) fun ⟨_, hno⟩ => hno i r hcur hr hf
    cases e
  | @opens rs i r hs hsp hr hfree hfirst =>
    refine iff_of_false (fun ⟨_, e⟩ => ?_) fun ⟨hno, _⟩ => ?_
    · cases e
    · exact hno r (List.mem_of_getElem? (hsp.free hr hfree)) hfree
  | exhausted hs hsp hno =>
    refine iff_of_true ⟨_, rfl⟩ ⟨hsp.no_free hc hno, fun i r hcur hr => ?_⟩
    cases hsp with
    | unset hcur' => exact nomatch hcur'.symm.trans hcur
    | full hcur' hr' hf =>
      obtain rfl := Option.some.inj (hcur'.symm.trans hcur)
      obtain rfl := Option.some.inj (hr'.symm.trans hr)
      exact hf

end GiveUp

/-- **When a refusal means that the heap is out of room.** For every reachable heap and every
size that fits in a region: `alloc` answers `None` only if no region is free and none has
room, if and only if the request is not stranded. -/
theorem alloc_gives_up_iff {n size : Nat} {tr : History RegionHeap HeapOp} {h : RegionHeap}
    (hrun : Run RegionHeap.call anyEnv (.with_regions n) tr h) (hs : size ≤ REGION_SIZE) :
    h.GivesUpOnlyFull size ↔ ¬ h.Stranded size := by
  have href := (Consistent.of_run hrun).refuses_iff hs
  constructor
  · intro hg hst
    obtain ⟨h', e⟩ := href.mpr ⟨hst.free, hst.current⟩
    obtain ⟨r, hr, hf⟩ := hst.left
    exact (hg h' e r hr).2 hf
  · intro hst h' e r hr
    obtain ⟨hfree, hcur⟩ := href.mp ⟨h', e⟩
    exact ⟨hfree r hr, fun hf => hst ⟨hfree, hcur, r, hr, hf⟩⟩

/-- The doc of `alloc` says a refusal means that no region has room and none is free. -/
def RefusalMeansFull : Prop :=
  ∀ (n size : Nat) (tr : History RegionHeap HeapOp) (h : RegionHeap),
    Run RegionHeap.call anyEnv (.with_regions n) tr h → size ≤ REGION_SIZE →
    h.GivesUpOnlyFull size

/-- Two regions: 8 bytes, then a whole region, then 8 bytes, which are refused. -/
theorem alloc_gives_up_early : ¬ RefusalMeansFull := by
  intro hall
  have h0 : Run RegionHeap.call anyEnv (.with_regions 2) [] (.with_regions 2) := .nil
  have h1 := h0.snoc (show anyEnv _ _ (.alloc 8) from trivial) rfl
  have h2 := h1.snoc (show anyEnv _ _ (.alloc REGION_SIZE) from trivial) rfl
  have hno := hall 2 8 _ _ h2 (by decide) _ rfl ((Region.new.bump 8).close) List.mem_cons_self
  revert hno
  decide

/-- A whole region is refused, and the only region has no room for it. -/
theorem alloc_gives_up_iff_closed :
    (∃ h', closedHeap.alloc REGION_SIZE = some (h', none)) ∧
      closedHeap.GivesUpOnlyFull REGION_SIZE := by
  obtain ⟨tr, hrun⟩ := closedHeap_reached
  refine ⟨⟨_, rfl⟩, (alloc_gives_up_iff hrun (by decide)).mpr fun hst => ?_⟩
  obtain ⟨r, hr, hf⟩ := hst.left
  cases List.mem_singleton.mp hr
  revert hf
  decide

/-! ## What a refusal leaves behind -/

/-- A call on the heap or on one of its regions, with the arguments. -/
inductive Request where
  | alloc (size : Nat)
  | read (hd : RegionHandle) (len : Nat)
  | write (hd : RegionHandle) (data : List UInt8)
  | pre_mark
  | mark_live (hd : RegionHandle)
  | sweep
  | n_free
  | used (idx : Nat)
  | live_count (idx : Nat)

/-- What the caller gets back. -/
inductive Answer where
  | handle (res : Option RegionHandle)
  | bytes (data : List UInt8)
  | count (n : Nat)
  | done

namespace RegionHeap

/-- The heap after a call and what it returned; `none` is a panic. -/
def answer (h : RegionHeap) : Request → Option (RegionHeap × Answer)
  | .alloc size => (h.alloc size).map fun x => (x.1, .handle x.2)
  | .read hd len => (h.read hd len).map fun data => (h, .bytes data)
  | .write hd data => (h.write hd data).map fun h' => (h', .done)
  | .pre_mark => some (h.pre_mark, .done)
  | .mark_live hd => (h.mark_live hd).map fun h' => (h', .done)
  | .sweep => some (h.sweep.1, .count h.sweep.2)
  | .n_free => some (h, .count h.n_free)
  | .used idx => (h.regions[idx]?.map Region.used).map fun k => (h, .count k)
  | .live_count idx => (h.regions[idx]?.map fun r => r.live_count.toNat).map fun k => (h, .count k)

end RegionHeap

/-- The regions differ in `Allocating` and `Full` at most. -/
structure Region.SameData (r r' : Region) : Prop where
  bytes : r.bytes = r'.bytes
  offset : r.offset = r'.offset
  live_count : r.live_count = r'.live_count
  free : r.state = .Free ↔ r'.state = .Free

structure Relabelled (h h' : RegionHeap) : Prop where
  regions : List.Forall₂ Region.SameData h.regions h'.regions
  current : h.current = h'.current

section Relabel

variable {h h' : RegionHeap} {rs rs' : List Region} {r r' : Region} {size : Nat}

namespace Region.SameData

theorem refl (r : Region) : r.SameData r := ⟨rfl, rfl, rfl, .rfl⟩

theorem close (hne : r.state ≠ .Free) : r.SameData r.close :=
  ⟨rfl, rfl, rfl, iff_of_false hne (fun e => nomatch e)⟩

theorem dead (h : r.SameData r') : r.dead = r'.dead := by
  simp only [Region.dead, h.live_count, ne_eq, h.free]

theorem reset (h : r.SameData r') : r.reset.SameData r'.reset :=
  ⟨h.bytes, rfl, rfl, .rfl⟩

theorem try_alloc (h : r.SameData r') (size : Nat) :
    (r.try_alloc size).1.SameData (r'.try_alloc size).1 ∧
      (r.try_alloc size).2 = (r'.try_alloc size).2 := by
  unfold Region.try_alloc
  rw [← h.offset]
  split
  · exact ⟨h, rfl⟩
  split
  · exact ⟨⟨h.bytes, rfl, h.live_count, .rfl⟩, rfl⟩
  · exact ⟨⟨h.bytes, rfl, h.live_count, .rfl⟩, rfl⟩

end Region.SameData

theorem Relabelled.region (hr : Relabelled h h') (i : Nat) :
    Option.Rel Region.SameData h.regions[i]? h'.regions[i]? :=
  Buffer.forall₂_getElem? hr.regions i

theorem Relabelled.set (hr : Relabelled h h') (hs : r.SameData r') (i : Nat) :
    Relabelled ⟨h.regions.set i r, h.current⟩ ⟨h'.regions.set i r', h'.current⟩ :=
  ⟨Buffer.forall₂_set hr.regions hs i, hr.current⟩

theorem allocLoop_relabelled (size : Nat) (hrs : List.Forall₂ Region.SameData rs rs') (k : Nat) :
    List.Forall₂ Region.SameData (RegionHeap.allocLoop size k rs).1
        (RegionHeap.allocLoop size k rs').1 ∧
      (RegionHeap.allocLoop size k rs).2 = (RegionHeap.allocLoop size k rs').2 := by
  induction hrs generalizing k with
  | nil => exact ⟨.nil, rfl⟩
  | @cons r r' rs rs' hr hrs ih =>
    obtain ⟨htail, hfound⟩ := ih (k + 1)
    unfold RegionHeap.allocLoop
    by_cases hfree : r.state = .Free
    · obtain ⟨hdata, hoff⟩ := hr.try_alloc size
      rw [if_pos hfree, if_pos (hr.free.mp hfree)]
      generalize r.try_alloc size = x at hdata hoff
      generalize r'.try_alloc size = y at hdata hoff
      obtain ⟨r₁, off⟩ := x
      obtain ⟨r₁', off'⟩ := y
      obtain rfl : off = off' := hoff
      cases off with
      | none => exact ⟨.cons hdata htail, hfound⟩
      | some off => exact ⟨.cons hdata hrs, rfl⟩
    · rw [if_neg hfree, if_neg fun e => hfree (hr.free.mpr e)]
      exact ⟨.cons hr htail, hfound⟩

theorem Relabelled.allocFree (hr : Relabelled h h') :
    Relabelled (h.allocFree size).1 (h'.allocFree size).1 ∧
      (h.allocFree size).2 = (h'.allocFree size).2 := by
  obtain ⟨hrs, hfound⟩ := allocLoop_relabelled size hr.regions 0
  unfold RegionHeap.allocFree
  generalize RegionHeap.allocLoop size 0 h.regions = x at hrs hfound
  generalize RegionHeap.allocLoop size 0 h'.regions = y at hrs hfound
  obtain ⟨rs, found⟩ := x
  obtain ⟨rs', found'⟩ := y
  obtain rfl : found = found' := hfound
  cases found with
  | none => exact ⟨⟨hrs, hr.current⟩, rfl⟩
  | some f => exact ⟨⟨hrs, rfl⟩, rfl⟩

theorem Relabelled.alloc (hr : Relabelled h h') :
    Alike Relabelled (h.alloc size) (h'.alloc size) := by
  unfold RegionHeap.alloc
  rw [← hr.current]
  split
  · exact .some ⟨hr, rfl⟩
  split
  · exact .some hr.allocFree
  next idx hcur =>
  have hregion := hr.region idx
  generalize h.regions[idx]? = o at hregion
  generalize h'.regions[idx]? = o' at hregion
  cases hregion with
  | none => exact .none
  | @some r r' hdata =>
    obtain ⟨hdata, hoff⟩ := hdata.try_alloc size
    simp only
    generalize r.try_alloc size = x at hdata hoff
    generalize r'.try_alloc size = y at hdata hoff
    obtain ⟨r₁, off⟩ := x
    obtain ⟨r₁', off'⟩ := y
    obtain rfl : off = off' := hoff
    have hset := hr.set hdata idx
    rw [← hr.current] at hset
    cases off with
    | none => exact .some hset.allocFree
    | some off => exact .some ⟨hset, rfl⟩

theorem sweepLoop_relabelled (hrs : List.Forall₂ Region.SameData rs rs') (k : Nat)
    (current : Option Nat) (freed : Nat) :
    List.Forall₂ Region.SameData (RegionHeap.sweepLoop k rs current freed).1
        (RegionHeap.sweepLoop k rs' current freed).1 ∧
      (RegionHeap.sweepLoop k rs current freed).2 =
        (RegionHeap.sweepLoop k rs' current freed).2 := by
  induction hrs generalizing k current freed with
  | nil => exact ⟨.nil, rfl⟩
  | @cons r r' rs rs' hr hrs ih =>
    unfold RegionHeap.sweepLoop
    rw [← hr.dead]
    split
    · obtain ⟨htail, hrest⟩ := ih (k + 1) (if current = some k then none else current) (freed + 1)
      exact ⟨.cons hr.reset htail, hrest⟩
    · obtain ⟨htail, hrest⟩ := ih (k + 1) current freed
      exact ⟨.cons hr htail, hrest⟩

theorem Relabelled.sweep (hr : Relabelled h h') :
    Relabelled h.sweep.1 h'.sweep.1 ∧ h.sweep.2 = h'.sweep.2 := by
  obtain ⟨hrs, hrest⟩ := sweepLoop_relabelled hr.regions 0 h.current 0
  unfold RegionHeap.sweep
  rw [← hr.current]
  obtain ⟨hcur, hfreed⟩ := Prod.ext_iff.mp hrest
  exact ⟨⟨hrs, hcur⟩, hfreed⟩

theorem Relabelled.n_free (hr : Relabelled h h') : h.n_free = h'.n_free := by
  unfold RegionHeap.n_free
  have hrs := hr.regions
  generalize h.regions = rs at hrs
  generalize h'.regions = rs' at hrs
  induction hrs with
  | nil => rfl
  | cons hr _ ih => simp only [List.countP_cons, ih, hr.free]

theorem Relabelled.pre_mark (hr : Relabelled h h') : Relabelled h.pre_mark h'.pre_mark := by
  refine ⟨?_, hr.current⟩
  unfold RegionHeap.pre_mark
  rw [List.forall₂_map_left_iff, List.forall₂_map_right_iff]
  exact hr.regions.imp fun _ _ hr => ⟨hr.bytes, hr.offset, rfl, hr.free⟩

theorem Relabelled.read (hr : Relabelled h h') (hd : RegionHandle) (len : Nat) :
    h.read hd len = h'.read hd len := by
  have hregion := hr.region hd.region.toNat
  unfold RegionHeap.read
  generalize h.regions[hd.region.toNat]? = o at hregion
  generalize h'.regions[hd.region.toNat]? = o' at hregion
  cases hregion with
  | none => rfl
  | some hdata => simp only [hdata.bytes]

theorem Relabelled.write (hr : Relabelled h h') (hd : RegionHandle) (data : List UInt8) :
    Option.Rel Relabelled (h.write hd data) (h'.write hd data) := by
  have hregion := hr.region hd.region.toNat
  unfold RegionHeap.write
  generalize h.regions[hd.region.toNat]? = o at hregion
  generalize h'.regions[hd.region.toNat]? = o' at hregion
  cases hregion with
  | none => exact .none
  | @some r r' hdata =>
    simp only [hdata.bytes]
    split
    · exact .none
    · next b hb =>
      have hnew : Region.SameData { r with bytes := b } { r' with bytes := b } :=
        ⟨rfl, hdata.offset, hdata.live_count, hdata.free⟩
      exact .some (hr.set hnew _)

theorem Relabelled.mark_live (hr : Relabelled h h') (hd : RegionHandle) :
    Option.Rel Relabelled (h.mark_live hd) (h'.mark_live hd) := by
  have hregion := hr.region hd.region.toNat
  unfold RegionHeap.mark_live
  generalize h.regions[hd.region.toNat]? = o at hregion
  generalize h'.regions[hd.region.toNat]? = o' at hregion
  cases hregion with
  | none => exact .none
  | @some r r' hdata =>
    have hnew : Region.SameData { r with live_count := r.live_count + 1 }
        { r' with live_count := r'.live_count + 1 } :=
      ⟨hdata.bytes, hdata.offset, by simp only [hdata.live_count], hdata.free⟩
    exact .some (hr.set hnew _)

theorem Relabelled.observe {β : Type} (hr : Relabelled h h') {f : Region → β}
    (hf : ∀ r r', r.SameData r' → f r = f r') (i : Nat) :
    h.regions[i]?.map f = h'.regions[i]?.map f := by
  have hregion := hr.region i
  generalize h.regions[i]? = o at hregion
  generalize h'.regions[i]? = o' at hregion
  cases hregion with
  | none => rfl
  | some hdata => exact congrArg some (hf _ _ hdata)

/-- **No answer depends on the label.** -/
theorem Relabelled.answer (hr : Relabelled h h') (q : Request) :
    Alike Relabelled (h.answer q) (h'.answer q) := by
  cases q with
  | alloc size => exact hr.alloc.map Answer.handle
  | read hd len => exact .query hr (hr.read hd len) Answer.bytes
  | write hd data => exact .update (hr.write hd data) Answer.done
  | pre_mark => exact .some ⟨hr.pre_mark, rfl⟩
  | mark_live hd => exact .update (hr.mark_live hd) Answer.done
  | sweep => exact .some ⟨hr.sweep.1, congrArg Answer.count hr.sweep.2⟩
  | n_free => exact .some ⟨hr, congrArg Answer.count hr.n_free⟩
  | used idx => exact .query hr (hr.observe (fun _ _ hd => hd.offset) idx) Answer.count
  | live_count idx =>
    exact .query hr (hr.observe (fun _ _ hd => congrArg UInt32.toNat hd.live_count) idx)
      Answer.count

/-- A refusal closes the current region or does nothing. -/
theorem Consistent.refused_relabelled (hc : Consistent h) (e : h.alloc size = some (h', none)) :
    Relabelled h h' := by
  have hrefl : List.Forall₂ Region.SameData h.regions h.regions :=
    List.forall₂_same.mpr fun r _ => .refl r
  have hcase := hc.alloc_cases e
  cases hcase with
  | oversized => exact ⟨hrefl, rfl⟩
  | exhausted hs hsp hno =>
    cases hsp with
    | unset => exact ⟨hrefl, rfl⟩
    | @full i r hcur hr hf =>
      obtain ⟨r', hr', hne⟩ := hc.current i hcur
      obtain rfl := Option.some.inj (hr'.symm.trans hr)
      have hset := Buffer.forall₂_set hrefl (Region.SameData.close hne) i
      obtain ⟨hlt, rfl⟩ := List.getElem?_eq_some_iff.mp hr
      rw [List.set_getElem_self] at hset
      exact ⟨hset, rfl⟩

end Relabel

/-- **A failed allocation has no later effect.** For every reachable heap and every refused
request: the heaps before and after it answer every sequence of requests alike, and end up
in heaps that differ in `Allocating` and `Full` labels at most. -/
theorem refusal_has_no_effect {n size : Nat} {tr : History RegionHeap HeapOp} {h h' : RegionHeap}
    (hrun : Run RegionHeap.call anyEnv (.with_regions n) tr h)
    (hf : h.alloc size = some (h', none)) (qs : List Request) :
    Alike Relabelled (serve RegionHeap.answer h qs) (serve RegionHeap.answer h' qs) :=
  serve_alike (fun _ _ q hr => hr.answer q) ((Consistent.of_run hrun).refused_relabelled hf) qs

/-- Before and after the refusal that leads to `closedHeap`. -/
theorem refusal_has_no_effect_closed :
    (serve RegionHeap.answer ⟨[Region.new.bump 8], some 0⟩ [.alloc 8, .sweep]).map Prod.snd =
      (serve RegionHeap.answer closedHeap [.alloc 8, .sweep]).map Prod.snd := by
  have h0 : Run RegionHeap.call anyEnv (.with_regions 1) [] (.with_regions 1) := .nil
  have h1 := h0.snoc (show anyEnv _ _ (.alloc 8) from trivial) rfl
  have hno : ¬ (Region.new.bump 8).fits REGION_SIZE := by decide
  have hf : RegionHeap.alloc ⟨[Region.new.bump 8], some 0⟩ REGION_SIZE =
      some (closedHeap, none) := by
    simp only [RegionHeap.alloc, List.getElem?_cons_zero,
      Region.try_alloc_of_not_fits (by decide) (Nat.le_refl _) hno]
    rfl
  exact (refusal_has_no_effect h1 hf _).answers

end Samsara
