import Samsara.Region.Cycle

/-!
# The region state machine

The state of a region is set in `try_alloc` and in `reset`, `current` in `alloc` and in
`sweep`. `Consistent` is what links the two and holds in every run. Under it an allocation
has four outcomes (`AllocCase`): a free region is at offset 0 and always has room, so only
the current region ever closes, and closing it is all that happens before another opens.
-/

namespace Samsara

open StepSys

namespace Region

def fits (r : Region) (size : Nat) : Prop := aligned r.offset + size ≤ REGION_SIZE

instance (r : Region) (size : Nat) : Decidable (r.fits size) :=
  inferInstanceAs (Decidable (_ ≤ _))

def bump (r : Region) (size : Nat) : Region :=
  { r with offset := aligned r.offset + size, state := .Allocating }

variable {r : Region} {size : Nat}

theorem try_alloc_of_fits (hf : r.fits size) :
    r.try_alloc size = (r.bump size, some (aligned r.offset)) := by
  unfold fits REGION_SIZE at hf
  have hadd : checked_add (aligned r.offset) size = some (aligned r.offset + size) :=
    checked_add_eq_some.mpr ⟨by unfold usizeSize; omega, rfl⟩
  unfold try_alloc
  rw [hadd]
  exact if_neg (by unfold REGION_SIZE; omega)

/-- A refusal marks the region `Full`: the addition does not overflow. -/
theorem try_alloc_of_not_fits (ho : r.offset ≤ REGION_SIZE) (hs : size ≤ REGION_SIZE)
    (hf : ¬ r.fits size) : r.try_alloc size = (r.close, none) := by
  unfold fits at hf
  unfold REGION_SIZE at ho hs
  have hle : aligned r.offset ≤ r.offset + 7 := by
    rw [aligned_eq (by unfold usizeSize; omega)]
    omega
  have hadd : checked_add (aligned r.offset) size = some (aligned r.offset + size) :=
    checked_add_eq_some.mpr ⟨by unfold usizeSize; omega, rfl⟩
  unfold try_alloc
  rw [hadd]
  exact if_pos (Nat.lt_of_not_le hf)

theorem fits_of_offset_zero (ho : r.offset = 0) (hs : size ≤ REGION_SIZE) : r.fits size := by
  have h0 : aligned 0 = 0 := by decide
  unfold fits
  rw [ho, h0, Nat.zero_add]
  exact hs

end Region

/-- The link between the states of the regions and `current`. -/
structure Consistent (h : RegionHeap) : Prop where
  free : ∀ (i : Nat) r, h.regions[i]? = some r → r.state = .Free → r.offset = 0
  offset : ∀ (i : Nat) r, h.regions[i]? = some r → r.offset ≤ REGION_SIZE
  current : ∀ i, h.current = some i → ∃ r, h.regions[i]? = some r ∧ r.state ≠ .Free
  allocating : ∀ (i : Nat) r, h.regions[i]? = some r → r.state = .Allocating → h.current = some i

/-! ## The outcomes of `alloc` -/

/-- The regions when the loop over the free ones starts: the current one had no room. -/
inductive Spilled (h : RegionHeap) (size : Nat) : List Region → Prop where
  | unset (hc : h.current = none) : Spilled h size h.regions
  | full {i : Nat} {r : Region} (hc : h.current = some i) (hr : h.regions[i]? = some r)
      (hf : ¬ r.fits size) : Spilled h size (h.regions.set i r.close)

inductive AllocCase (h : RegionHeap) (size : Nat) : RegionHeap → Option RegionHandle → Prop where
  | oversized (hs : REGION_SIZE < size) : AllocCase h size h none
  /-- the current region has room -/
  | bump {i : Nat} {r : Region} (hs : size ≤ REGION_SIZE) (hc : h.current = some i)
      (hr : h.regions[i]? = some r) (hf : r.fits size) :
      AllocCase h size ⟨h.regions.set i (r.bump size), h.current⟩
        (some (RegionHeap.handle i (aligned r.offset)))
  /-- the first free region opens -/
  | opens {rs : List Region} {i : Nat} {r : Region} (hs : size ≤ REGION_SIZE)
      (hsp : Spilled h size rs) (hr : rs[i]? = some r) (hfree : r.state = .Free)
      (hfirst : rs.findIdx? (·.state = .Free) = some i) :
      AllocCase h size ⟨rs.set i (r.bump size), some i⟩
        (some (RegionHeap.handle i (aligned r.offset)))
  | exhausted {rs : List Region} (hs : size ≤ REGION_SIZE) (hsp : Spilled h size rs)
      (hno : ∀ r ∈ rs, r.state ≠ .Free) : AllocCase h size ⟨rs, h.current⟩ none

section Alloc

variable {h h' : RegionHeap} {rs : List Region} {size : Nat} {res : Option RegionHandle}

theorem allocLoop_first (hs : size ≤ REGION_SIZE) (k : Nat)
    (hz : ∀ r ∈ rs, r.state = .Free → r.offset = 0) :
    (RegionHeap.allocLoop size k rs = (rs, none) ∧ ∀ r ∈ rs, r.state ≠ .Free) ∨
      ∃ i r, rs[i]? = some r ∧ r.state = .Free ∧ rs.findIdx? (·.state = .Free) = some i ∧
        RegionHeap.allocLoop size k rs =
          (rs.set i (r.bump size), some (k + i, aligned r.offset)) := by
  induction rs generalizing k with
  | nil => exact .inl ⟨rfl, fun r hr => nomatch hr⟩
  | cons r rs ih =>
    unfold RegionHeap.allocLoop
    by_cases hr : r.state = .Free
    · have hfit := r.fits_of_offset_zero (hz r List.mem_cons_self hr) hs
      rw [if_pos hr, r.try_alloc_of_fits hfit]
      refine .inr ⟨0, r, rfl, hr, ?_, rfl⟩
      rw [List.findIdx?_cons, hr]
      rfl
    · rw [if_neg hr]
      rcases ih (k + 1) fun r hr => hz r (List.mem_cons_of_mem _ hr) with
        ⟨e, hno⟩ | ⟨i, r', hr', hfree, hfirst, e⟩
      · rw [e]
        exact .inl ⟨rfl, List.forall_mem_cons.mpr ⟨hr, hno⟩⟩
      · rw [e]
        refine .inr ⟨i + 1, r', hr', hfree, ?_, ?_⟩
        · simp [List.findIdx?_cons, hr, hfirst]
        · rw [List.set_cons_succ, Nat.add_assoc, Nat.add_comm 1 i]

theorem Spilled.free (hsp : Spilled h size rs) {i : Nat} {r : Region} (hr : rs[i]? = some r)
    (hfree : r.state = .Free) : h.regions[i]? = some r := by
  cases hsp with
  | unset => exact hr
  | full hc hi hf =>
    rcases Buffer.getElem?_set_cases hr with ⟨-, rfl⟩ | ⟨-, hr⟩
    · cases hfree
    · exact hr

/-- If nothing is free after the spill, nothing was: the current region is not free. -/
theorem Spilled.no_free (hsp : Spilled h size rs) (hc : Consistent h)
    (hno : ∀ r ∈ rs, r.state ≠ .Free) : ∀ r ∈ h.regions, r.state ≠ .Free := by
  cases hsp with
  | unset => exact hno
  | @full j r hcur hr hf =>
    intro r' hr' hfree
    obtain ⟨i, hi⟩ := List.getElem?_of_mem hr'
    obtain ⟨r'', hr'', hne⟩ := hc.current j hcur
    have hij : j ≠ i := by
      rintro rfl
      obtain rfl := Option.some.inj (hr''.symm.trans hi)
      exact hne hfree
    refine hno r' (List.mem_of_getElem? (i := i) ?_) hfree
    rw [List.getElem?_set_ne hij, hi]

theorem Consistent.allocFree_cases (hc : Consistent h) (hs : size ≤ REGION_SIZE)
    (hsp : Spilled h size rs) (e : RegionHeap.allocFree ⟨rs, h.current⟩ size = (h', res)) :
    AllocCase h size h' res := by
  have hz : ∀ r ∈ rs, r.state = .Free → r.offset = 0 := by
    intro r hr hfree
    obtain ⟨i, hi⟩ := List.getElem?_of_mem hr
    exact hc.free i r (hsp.free hi hfree) hfree
  unfold RegionHeap.allocFree at e
  rcases allocLoop_first hs 0 hz with ⟨hl, hno⟩ | ⟨i, r, hr, hfree, hfirst, hl⟩
  · rw [hl] at e
    cases e
    exact .exhausted hs hsp hno
  · rw [hl] at e
    cases e
    rw [Nat.zero_add]
    exact .opens hs hsp hr hfree hfirst

/-- **The four outcomes of an allocation.** -/
theorem Consistent.alloc_cases (hc : Consistent h) (e : h.alloc size = some (h', res)) :
    AllocCase h size h' res := by
  unfold RegionHeap.alloc at e
  split at e
  · next hs =>
    cases e
    exact .oversized hs
  next hs =>
  have hs : size ≤ REGION_SIZE := Nat.le_of_not_gt hs
  split at e
  · next hcur =>
    have hsp : Spilled h size h.regions := .unset hcur
    exact hc.allocFree_cases hs hsp (Option.some.inj e)
  next i hcur =>
  obtain ⟨r, hr, -⟩ := hc.current i hcur
  rw [hr] at e
  simp only at e
  by_cases hf : r.fits size
  · rw [r.try_alloc_of_fits hf] at e
    cases e
    exact .bump hs hcur hr hf
  · rw [r.try_alloc_of_not_fits (hc.offset i r hr) hs hf] at e
    exact hc.allocFree_cases hs (.full hcur hr hf) (Option.some.inj e)

theorem Consistent.alloc_isSome (hc : Consistent h) : ∃ h' res, h.alloc size = some (h', res) := by
  refine RegionHeap.alloc_isSome fun i hi => ?_
  obtain ⟨r, hr, -⟩ := hc.current i hi
  exact (List.getElem?_eq_some_iff.mp hr).1

end Alloc

/-! ## Every call keeps the link -/

section Calls

variable {h h' : RegionHeap} {rs : List Region} {size : Nat} {res : Option RegionHandle}
  {op : HeapOp}

/-- Calls that allocate nothing and reclaim nothing leave the shapes alone. -/
theorem RegionHeap.call_shape (ha : ∀ size, op ≠ .alloc size) (hne : op ≠ .sweep)
    (e : h.call op = some h') :
    h'.regions.map Region.shape = h.regions.map Region.shape ∧ h'.current = h.current := by
  cases op with
  | alloc size => exact absurd rfl (ha size)
  | write hd data =>
    obtain ⟨r, b, hr, -, rfl⟩ := write_cases e
    exact ⟨shape_set hr rfl, rfl⟩
  | pre_mark =>
    cases e
    refine ⟨?_, rfl⟩
    unfold pre_mark
    rw [List.map_map]
    rfl
  | mark_live hd =>
    obtain ⟨r, hr, rfl⟩ := mark_live_cases e
    exact ⟨shape_set hr rfl, rfl⟩
  | sweep => exact absurd rfl hne

theorem getElem?_of_shape {rs' : List Region}
    (hs : rs'.map Region.shape = rs.map Region.shape) {i : Nat} {r' : Region}
    (hi : rs'[i]? = some r') :
    ∃ r, rs[i]? = some r ∧ r.offset = r'.offset ∧ r.state = r'.state := by
  have he := congrArg (·[i]?) hs
  simp only [List.getElem?_map, hi, Option.map_some] at he
  obtain ⟨r, hr, he⟩ := Option.map_eq_some_iff.mp he.symm
  exact ⟨r, hr, (Prod.ext_iff.mp he).1, (Prod.ext_iff.mp he).2⟩

namespace Consistent

theorem with_regions (n : Nat) : Consistent (.with_regions n) := by
  have hnew (i : Nat) (r : Region) (hi : (RegionHeap.with_regions n).regions[i]? = some r) :
      r = .new := List.eq_of_mem_replicate (List.mem_of_getElem? hi)
  refine ⟨fun i r hi _ => ?_, fun i r hi => ?_, (fun i hi => nomatch hi), fun i r hi ha => ?_⟩
  · rw [hnew i r hi]
    rfl
  · rw [hnew i r hi]
    exact Nat.zero_le _
  · rw [hnew i r hi] at ha
    cases ha

theorem reshape (hc : Consistent h)
    (hs : h'.regions.map Region.shape = h.regions.map Region.shape)
    (he : h'.current = h.current) : Consistent h' := by
  refine ⟨fun i r' hi hfree => ?_, fun i r' hi => ?_, fun i hi => ?_, fun i r' hi ha => ?_⟩
  · obtain ⟨r, hr, ho, hst⟩ := getElem?_of_shape hs hi
    exact ho ▸ hc.free i r hr (hst.trans hfree)
  · obtain ⟨r, hr, ho, -⟩ := getElem?_of_shape hs hi
    exact ho ▸ hc.offset i r hr
  · obtain ⟨r, hr, hne⟩ := hc.current i (he ▸ hi)
    obtain ⟨r', hr', -, hst⟩ := getElem?_of_shape hs.symm hr
    exact ⟨r', hr', hst ▸ hne⟩
  · obtain ⟨r, hr, -, hst⟩ := getElem?_of_shape hs hi
    exact he ▸ hc.allocating i r hr (hst.trans ha)

theorem spill (hc : Consistent h) (hsp : Spilled h size rs) :
    Consistent ⟨rs, h.current⟩ ∧ ∀ (i : Nat) r, rs[i]? = some r → r.state ≠ .Allocating := by
  have hnone : ∀ (i : Nat) r, rs[i]? = some r → r.state ≠ .Allocating := by
    intro i r hi ha
    cases hsp with
    | unset hcur => exact nomatch hcur.symm.trans (hc.allocating i r hi ha)
    | full hcur hr hf =>
      rcases Buffer.getElem?_set_cases hi with ⟨-, rfl⟩ | ⟨hne, hi⟩
      · cases ha
      · exact hne (Option.some.inj ((hc.allocating i r hi ha).symm.trans hcur))
  refine ⟨⟨fun i r hi hfree => hc.free i r (hsp.free hi hfree) hfree, fun i r hi => ?_,
    fun i hi => ?_, fun i r hi ha => absurd ha (hnone i r hi)⟩, hnone⟩
  · cases hsp with
    | unset => exact hc.offset i r hi
    | full hcur hr hf =>
      rcases Buffer.getElem?_set_cases hi with ⟨rfl, rfl⟩ | ⟨-, hi⟩
      · exact (hc.offset i _ hr :)
      · exact hc.offset i r hi
  · cases hsp with
    | unset => exact hc.current i hi
    | @full j r hcur hr hf =>
      obtain rfl : j = i := Option.some.inj (hcur.symm.trans hi)
      refine ⟨r.close, ?_, (fun e => nomatch e)⟩
      exact List.getElem?_set_self (List.getElem?_eq_some_iff.mp hr).1

theorem opened (hc : Consistent ⟨rs, h.current⟩) {i : Nat} {r : Region} (hr : rs[i]? = some r)
    (hf : r.fits size)
    (hother : ∀ (j : Nat) r', rs[j]? = some r' → j ≠ i → r'.state ≠ .Allocating) :
    Consistent ⟨rs.set i (r.bump size), some i⟩ := by
  refine ⟨fun j r' hj hfree => ?_, fun j r' hj => ?_, fun j hj => ?_, fun j r' hj ha => ?_⟩
  · rcases Buffer.getElem?_set_cases hj with ⟨-, rfl⟩ | ⟨-, hj⟩
    · cases hfree
    · exact hc.free j r' hj hfree
  · rcases Buffer.getElem?_set_cases hj with ⟨-, rfl⟩ | ⟨-, hj⟩
    · exact hf
    · exact hc.offset j r' hj
  · cases hj
    refine ⟨r.bump size, ?_, (fun e => nomatch e)⟩
    exact List.getElem?_set_self (List.getElem?_eq_some_iff.mp hr).1
  · rcases Buffer.getElem?_set_cases hj with ⟨rfl, -⟩ | ⟨hne, hj⟩
    · rfl
    · exact absurd ha (hother j r' hj hne)

theorem alloc (hc : Consistent h) (e : h.alloc size = some (h', res)) : Consistent h' := by
  cases hc.alloc_cases e with
  | oversized => exact hc
  | @bump i r hs hcur hr hf =>
    rw [hcur]
    refine hc.opened hr hf fun j r' hj hne ha => hne ?_
    exact Option.some.inj ((hc.allocating j r' hj ha).symm.trans hcur)
  | @opens rs i r hs hsp hr hfree hfirst =>
    obtain ⟨hc', hnone⟩ := hc.spill hsp
    have hfit := r.fits_of_offset_zero (hc'.free i r hr hfree) hs
    exact hc'.opened hr hfit fun j r' hj _ => hnone j r' hj
  | exhausted hs hsp hno => exact (hc.spill hsp).1

end Consistent

/-! ### `sweep` -/

namespace RegionHeap

theorem sweepLoop_below {c k freed : Nat} (hk : c < k) :
    (sweepLoop k rs (some c) freed).2.1 = some c := by
  induction rs generalizing k freed with
  | nil => rfl
  | cons r rs ih =>
    have hne : some c ≠ some k := fun e => absurd (Option.some.inj e) (Nat.ne_of_lt hk)
    unfold sweepLoop
    rw [if_neg hne]
    split <;> exact ih (Nat.lt_succ_of_lt hk)

theorem sweepLoop_current {j k freed : Nat} {r : Region} (hr : rs[j]? = some r) :
    (sweepLoop k rs (some (k + j)) freed).2.1 = if r.dead then none else some (k + j) := by
  induction rs generalizing j k freed with
  | nil => cases hr
  | cons r₀ rs ih =>
    unfold sweepLoop
    cases j with
    | zero =>
      obtain rfl : r₀ = r := Option.some.inj hr
      by_cases hd : r₀.dead
      · rw [if_pos hd, if_pos hd]
        obtain ⟨c', e, hc'⟩ := sweepLoop_eq (k + 1) rs none (freed + 1)
        simpa [e] using hc'
      · rw [if_neg hd, if_neg hd]
        exact sweepLoop_below (Nat.lt_succ_self k)
    | succ j =>
      have hne : some (k + (j + 1)) ≠ some k := fun e => by
        have := Option.some.inj e
        omega
      have hk : k + (j + 1) = k + 1 + j := by omega
      have hr : rs[j]? = some r := hr
      rw [if_neg hne, hk]
      split <;> exact ih hr

/-- `sweep` unsets `current` exactly when its region is dead. -/
theorem sweep_current {i : Nat} {r : Region} (hi : h.current = some i)
    (hr : h.regions[i]? = some r) : h.sweep.1.current = if r.dead then none else some i := by
  unfold sweep
  rw [hi]
  simpa only [Nat.zero_add] using sweepLoop_current (k := 0) hr

end RegionHeap

namespace Consistent

theorem sweep (hc : Consistent h) : Consistent h.sweep.1 := by
  obtain ⟨-, -, hcur⟩ := h.sweep_spec
  refine ⟨fun i r hi hfree => ?_, fun i r hi => ?_, fun i hi => ?_, fun i r hi ha => ?_⟩
  · rw [sweep_region] at hi
    obtain ⟨r₀, hr₀, rfl⟩ := Option.map_eq_some_iff.mp hi
    by_cases hd : r₀.dead
    · rw [if_pos hd]
      rfl
    · rw [if_neg hd] at hfree ⊢
      exact hc.free i r₀ hr₀ hfree
  · rw [sweep_region] at hi
    obtain ⟨r₀, hr₀, rfl⟩ := Option.map_eq_some_iff.mp hi
    split
    · exact Nat.zero_le _
    · exact hc.offset i r₀ hr₀
  · have hi₀ : h.current = some i := hcur.elim (fun e => nomatch e.symm.trans hi) (· ▸ hi)
    obtain ⟨r, hr, hne⟩ := hc.current i hi₀
    have hd : ¬ r.dead := by
      intro hd
      rw [RegionHeap.sweep_current hi₀ hr, if_pos hd] at hi
      cases hi
    exact ⟨r, by rw [sweep_region, hr, Option.map_some, if_neg hd], hne⟩
  · rw [sweep_region] at hi
    obtain ⟨r₀, hr₀, rfl⟩ := Option.map_eq_some_iff.mp hi
    split at ha
    · cases ha
    · next hd =>
      have hi₀ := hc.allocating i r₀ hr₀ ha
      rw [RegionHeap.sweep_current hi₀ hr₀, if_neg hd]

theorem call (hc : Consistent h) (e : h.call op = some h') : Consistent h' := by
  cases op with
  | alloc size =>
    obtain ⟨⟨h₁, res⟩, ha, rfl⟩ := Option.map_eq_some_iff.mp e
    exact hc.alloc ha
  | sweep =>
    cases e
    exact hc.sweep
  | write | pre_mark | mark_live =>
    obtain ⟨hs, hcur⟩ := RegionHeap.call_shape (by simp) (by simp) e
    exact hc.reshape hs hcur

theorem of_run {n : Nat} {tr : History RegionHeap HeapOp}
    (hrun : Run RegionHeap.call anyEnv (.with_regions n) tr h) : Consistent h :=
  hrun.inv (with_regions n) fun _ _ _ ih => ih.call

theorem alloc_of_free (hc : Consistent h) (hs : size ≤ REGION_SIZE) (hfree : 0 < h.n_free) :
    ∃ h' hd, h.alloc size = some (h', some hd) := by
  obtain ⟨h', res, e⟩ : ∃ h' res, h.alloc size = some (h', res) := hc.alloc_isSome
  refine ⟨h', ?_⟩
  have hcase := hc.alloc_cases e
  cases hcase with
  | oversized hs' => omega
  | bump | opens => exact ⟨_, e⟩
  | @exhausted rs hs hsp hno =>
    obtain ⟨r, hr, hst⟩ := List.countP_pos_iff.mp hfree
    exact absurd (of_decide_eq_true hst) (hsp.no_free hc hno r hr)

end Consistent

end Calls

/-- **The region state machine.** Whatever is called: a free region is at offset 0, no offset
passes the end, the current region exists and is not free, a region being allocated into is
the current one, so there is at most one, and a free region serves every request that fits
in a region. -/
theorem region_states {n : Nat} {tr : History RegionHeap HeapOp} {h : RegionHeap}
    (hrun : Run RegionHeap.call anyEnv (.with_regions n) tr h) :
    (∀ (i : Nat) r, h.regions[i]? = some r →
      (r.state = .Free → r.offset = 0) ∧ r.offset ≤ REGION_SIZE) ∧
    (∀ i, h.current = some i → ∃ r, h.regions[i]? = some r ∧ r.state ≠ .Free) ∧
    (∀ (i : Nat) r, h.regions[i]? = some r → r.state = .Allocating → h.current = some i) ∧
    (∀ (i j : Nat) r r', h.regions[i]? = some r → h.regions[j]? = some r' →
      r.state = .Allocating → r'.state = .Allocating → i = j) ∧
    ∀ size ≤ REGION_SIZE, 0 < h.n_free → ∃ h' hd, h.alloc size = some (h', some hd) := by
  have hc := Consistent.of_run hrun
  refine ⟨fun i r hi => ⟨hc.free i r hi, hc.offset i r hi⟩, hc.current, hc.allocating,
    fun i j r r' hi hj ha ha' => ?_, fun size hs => hc.alloc_of_free hs⟩
  exact Option.some.inj ((hc.allocating i r hi ha).symm.trans (hc.allocating j r' hj ha'))

/-- A request spills from region 0, which closes, into region 1. -/
theorem region_states_spill :
    ∃ tr h, Run RegionHeap.call anyEnv (.with_regions 2) tr h ∧
      h.regions.map Region.state = [.Full, .Allocating] ∧
      ∀ (i : Nat) r, h.regions[i]? = some r → r.state = .Allocating → h.current = some i := by
  have h0 : Run RegionHeap.call anyEnv (.with_regions 2) [] (.with_regions 2) := .nil
  have h1 := h0.snoc (show anyEnv _ _ (.alloc 8) from trivial) rfl
  have h2 := h1.snoc (show anyEnv _ _ (.alloc REGION_SIZE) from trivial) rfl
  exact ⟨_, _, h2, rfl, (region_states h2).2.2.1⟩

/-! ## A Full region -/

def RegionHeap.full (h : RegionHeap) (i : Nat) : Prop :=
  ∃ r, h.regions[i]? = some r ∧ r.state = .Full

/-- The call allocates out of region `i`, which is current, because the request fits in what
is left of it. -/
def Reopens (i : Nat) (h : RegionHeap) (op : HeapOp) : Prop :=
  ∃ size, op = .alloc size ∧ size ≤ REGION_SIZE ∧ h.current = some i ∧
    ∃ r, h.regions[i]? = some r ∧ r.fits size

/-- The region that grants `size` bytes: the current one if it has room, else the first free
one. -/
def RegionHeap.serving (h : RegionHeap) (size : Nat) : Option Nat :=
  if h.current.any fun i => h.regions[i]?.any fun r => r.fits size then h.current
  else h.regions.findIdx? (·.state = .Free)

/-- The call allocates out of a region from index `2 ^ 32` on, and the cast in the handle makes
that index `i`. -/
def Misnames (i : Nat) (h : RegionHeap) (op : HeapOp) : Prop :=
  ∃ size j, op = .alloc size ∧ size ≤ REGION_SIZE ∧ h.serving size = some j ∧ 2 ^ 32 ≤ j ∧
    j % 2 ^ 32 = i

/-- The call returns a handle in region `i`. -/
def Returns (i : Nat) (h : RegionHeap) (op : HeapOp) : Prop :=
  ∃ size h' hd, op = .alloc size ∧ h.alloc size = some (h', some hd) ∧ hd.region.toNat = i

/-- Region `i` is `Full` before every call of the history and after it, and no call returns a
handle in it. -/
def StaysFull (i : Nat) (tr : History RegionHeap HeapOp) (h : RegionHeap) : Prop :=
  h.full i ∧ ∀ x ∈ tr, x.1.full i ∧ ¬ Returns i x.1 x.2

section Full

variable {h h' : RegionHeap} {rs : List Region} {i size : Nat} {res : Option RegionHandle}
  {op : HeapOp}

theorem Spilled.full_kept (hsp : Spilled h size rs) (hfull : h.full i) :
    RegionHeap.full ⟨rs, h.current⟩ i := by
  obtain ⟨r, hr, hst⟩ := hfull
  cases hsp with
  | unset => exact ⟨r, hr, hst⟩
  | @full j r' hcur hr' hf =>
    by_cases e : j = i
    · subst e
      exact ⟨r'.close, List.getElem?_set_self (List.getElem?_eq_some_iff.mp hr').1, rfl⟩
    · exact ⟨r, (List.getElem?_set_ne e).trans hr, hst⟩

theorem RegionHeap.full_set {j : Nat} {r : Region} {c c' : Option Nat}
    (hfull : RegionHeap.full ⟨rs, c⟩ i) (hne : j ≠ i) : RegionHeap.full ⟨rs.set j r, c'⟩ i := by
  obtain ⟨r₀, hr₀, hst⟩ := hfull
  exact ⟨r₀, (List.getElem?_set_ne hne).trans hr₀, hst⟩

theorem Consistent.full_alloc (hc : Consistent h) (hfull : h.full i)
    (hno : ¬ Reopens i h (.alloc size)) (e : h.alloc size = some (h', res)) : h'.full i := by
  have hcase := hc.alloc_cases e
  cases hcase with
  | oversized => exact hfull
  | @bump j r hs hcur hr hf =>
    refine RegionHeap.full_set hfull ?_
    rintro rfl
    exact hno ⟨size, rfl, hs, hcur, r, hr, hf⟩
  | @opens rs j r hs hsp hr hfree hfirst =>
    refine RegionHeap.full_set (hsp.full_kept hfull) ?_
    rintro rfl
    obtain ⟨r', hr', hst⟩ := hsp.full_kept hfull
    rw [hr, Option.some.injEq] at hr'
    rw [← hr', hfree] at hst
    cases hst
  | exhausted hs hsp hno => exact hsp.full_kept hfull

theorem Consistent.reopens_alloc (hc : Consistent h) (hr : Reopens i h (.alloc size))
    (e : h.alloc size = some (h', res)) : ¬ h'.full i := by
  obtain ⟨_, he, hs, hcur, r, hr, hf⟩ := hr
  cases he
  have hcase := hc.alloc_cases e
  have hstuck {rs : List Region} (hsp : Spilled h size rs) : False := by
    cases hsp with
    | unset hc' => exact nomatch hc'.symm.trans hcur
    | full hc' hr' hf' =>
      obtain rfl := Option.some.inj (hc'.symm.trans hcur)
      obtain rfl := Option.some.inj (hr'.symm.trans hr)
      exact hf' hf
  cases hcase with
  | oversized hs' => omega
  | @bump j r' hs' hc' hr' hf' =>
    obtain rfl := Option.some.inj (hc'.symm.trans hcur)
    rintro ⟨r'', hr'', hst⟩
    rcases Buffer.getElem?_set_cases hr'' with ⟨-, rfl⟩ | ⟨hne, -⟩
    · cases hst
    · exact hne rfl
  | opens _ hsp => exact (hstuck hsp).elim
  | exhausted _ hsp => exact (hstuck hsp).elim

theorem RegionHeap.full_of_shape (hs : h'.regions.map Region.shape = h.regions.map Region.shape)
    (hfull : h.full i) : h'.full i := by
  obtain ⟨r, hr, hst⟩ := hfull
  obtain ⟨r', hr', -, hst'⟩ := getElem?_of_shape hs.symm hr
  exact ⟨r', hr', hst'.trans hst⟩

/-- Between sweeps a call keeps a `Full` region `Full` exactly when it does not reopen it. -/
theorem Consistent.full_call (hc : Consistent h) (hfull : h.full i) (hne : op ≠ .sweep)
    (e : h.call op = some h') : h'.full i ↔ ¬ Reopens i h op := by
  by_cases ha : ∃ size, op = .alloc size
  · obtain ⟨size, rfl⟩ := ha
    obtain ⟨⟨h₁, res⟩, ha, rfl⟩ := Option.map_eq_some_iff.mp e
    exact ⟨fun hf hr => hc.reopens_alloc hr ha hf, fun hno => hc.full_alloc hfull hno ha⟩
  · have ha : ∀ size, op ≠ .alloc size := fun size e => ha ⟨size, e⟩
    obtain ⟨hs, -⟩ := RegionHeap.call_shape ha hne e
    exact iff_of_true (RegionHeap.full_of_shape hs hfull) fun ⟨size, e, _⟩ => ha size e

/-! ### The region named in a handle -/

theorem findIdx?_free_set {j : Nat} {r r' : Region} (hr : rs[j]? = some r)
    (hne : r.state ≠ .Free) (hne' : r'.state ≠ .Free) :
    (rs.set j r').findIdx? (·.state = .Free) = rs.findIdx? (·.state = .Free) := by
  induction rs generalizing j with
  | nil => rfl
  | cons r₀ rs ih =>
    cases j with
    | zero =>
      obtain rfl : r₀ = r := Option.some.inj hr
      simp [List.findIdx?_cons, hne, hne']
    | succ j =>
      have hr : rs[j]? = some r := hr
      simp only [List.set_cons_succ, List.findIdx?_cons, ih hr]

theorem Spilled.serving (hc : Consistent h) (hsp : Spilled h size rs) :
    h.serving size = rs.findIdx? (·.state = .Free) := by
  unfold RegionHeap.serving
  cases hsp with
  | unset hcur => simp [hcur]
  | full hcur hr hf =>
    obtain ⟨r', hr', hne⟩ := hc.current _ hcur
    obtain rfl := Option.some.inj (hr'.symm.trans hr)
    rw [findIdx?_free_set hr hne (by simp [Region.close])]
    simp [hcur, hr, hf]

/-- **The region named in the handle** is the one that grants, cast to 32 bits. -/
theorem Consistent.alloc_serving (hc : Consistent h) (hs : size ≤ REGION_SIZE)
    (e : h.alloc size = some (h', res)) :
    res.map RegionHandle.region = (h.serving size).map UInt32.ofNat := by
  have hcase := hc.alloc_cases e
  cases hcase with
  | oversized hs' => omega
  | bump hs hcur hr hf =>
    simp [RegionHeap.serving, hcur, hr, hf, RegionHeap.handle]
  | opens hs hsp hr hfree hfirst =>
    rw [hsp.serving hc, hfirst]
    rfl
  | exhausted hs hsp hno =>
    rw [hsp.serving hc, List.findIdx?_eq_none_iff.mpr fun r hr => by simpa using hno r hr]
    rfl

theorem reopens_of_serving (hfull : h.full i) (hs : size ≤ REGION_SIZE)
    (he : h.serving size = some i) : Reopens i h (.alloc size) := by
  obtain ⟨r, hr, hst⟩ := hfull
  unfold RegionHeap.serving at he
  split at he
  · next hroom =>
    rw [he, Option.any_some, hr, Option.any_some] at hroom
    exact ⟨size, rfl, hs, he, r, hr, of_decide_eq_true hroom⟩
  · obtain ⟨hlt, hfree, -⟩ := List.findIdx?_eq_some_iff_getElem.mp he
    rw [List.getElem?_eq_getElem hlt, Option.some.injEq] at hr
    rw [hr, hst] at hfree
    cases hfree

theorem RegionHeap.serving_lt {j : Nat} (he : h.serving size = some j) : j < h.regions.length := by
  unfold serving at he
  split at he
  · next hroom =>
    rw [he, Option.any_some] at hroom
    by_contra hlt
    rw [List.getElem?_eq_none (Nat.le_of_not_lt hlt)] at hroom
    cases hroom
  · exact (List.findIdx?_eq_some_iff_findIdx_eq.mp he).1

theorem not_misnames (hl : h.regions.length ≤ 2 ^ 32) : ¬ Misnames i h op := by
  rintro ⟨size, j, -, -, hj, hge, -⟩
  have hlt := RegionHeap.serving_lt hj
  omega

/-- As long as it is not reopened, a handle names the region only by its cast. -/
theorem Consistent.returns_iff (hc : Consistent h) (hfull : h.full i) (hno : ¬ Reopens i h op) :
    Returns i h op ↔ Misnames i h op := by
  constructor
  · rintro ⟨size, h', hd, rfl, e, rfl⟩
    have hs : size ≤ REGION_SIZE := by
      by_contra hs
      simp [RegionHeap.alloc, Nat.lt_of_not_le hs] at e
    obtain ⟨j, hj, he⟩ := Option.map_eq_some_iff.mp (hc.alloc_serving hs e).symm
    have hmod : j % 2 ^ 32 = hd.region.toNat := by rw [← he, UInt32.toNat_ofNat']
    refine ⟨size, j, rfl, hs, hj, ?_, hmod⟩
    by_contra hlt
    rw [Nat.mod_eq_of_lt (Nat.lt_of_not_le hlt)] at hmod
    exact hno (reopens_of_serving hfull hs (hmod ▸ hj))
  · rintro ⟨size, j, rfl, hs, hj, -, rfl⟩
    obtain ⟨h', res, e⟩ : ∃ h' res, h.alloc size = some (h', res) := hc.alloc_isSome
    have hregion := hc.alloc_serving hs e
    rw [hj, Option.map_some] at hregion
    obtain ⟨hd, rfl, he⟩ := Option.map_eq_some_iff.mp hregion
    exact ⟨size, h', hd, rfl, e, by rw [he, UInt32.toNat_ofNat']⟩

end Full

/-- **When a Full region stays closed.** From any reachable heap, until the next sweep, a
`Full` region keeps its state and no handle in it is returned if and only if no allocation is
asked for that fits in what is left of it while it is the current region, nor one that another
region grants whose index is cast to its own. -/
theorem full_region_stays_full_iff {n i : Nat} {tr₀ tr : History RegionHeap HeapOp}
    {h₀ h : RegionHeap} (hrun₀ : Run RegionHeap.call anyEnv (.with_regions n) tr₀ h₀)
    (hfull : h₀.full i) (hrun : Run RegionHeap.call noSweep h₀ tr h) :
    StaysFull i tr h ↔ ∀ x ∈ tr, ¬ Reopens i x.1 x.2 ∧ ¬ Misnames i x.1 x.2 := by
  have hinv : Consistent h ∧
      (StaysFull i tr h ↔ ∀ x ∈ tr, ¬ Reopens i x.1 x.2 ∧ ¬ Misnames i x.1 x.2) := by
    refine hrun.hist (P := fun tr h => Consistent h ∧
      (StaysFull i tr h ↔ ∀ x ∈ tr, ¬ Reopens i x.1 x.2 ∧ ¬ Misnames i x.1 x.2))
      ⟨.of_run hrun₀, ?_⟩ ?_
    · exact iff_of_true ⟨hfull, fun x hx => nomatch hx⟩ fun x hx => nomatch hx
    intro tr s op s' _ ⟨hc, ih⟩ hne hst
    refine ⟨hc.call hst, ?_⟩
    simp only [StaysFull, List.forall_mem_append, List.forall_mem_singleton]
    constructor
    · rintro ⟨hs', htr, hs, hret⟩
      have hno := (hc.full_call hs hne hst).mp hs'
      exact ⟨ih.mp ⟨hs, htr⟩, hno, fun hm => hret ((hc.returns_iff hs hno).mpr hm)⟩
    · rintro ⟨htr, hno, hm⟩
      obtain ⟨hs, htr⟩ := ih.mpr htr
      exact ⟨(hc.full_call hs hne hst).mpr hno, htr, hs, fun hret =>
        hm ((hc.returns_iff hs hno).mp hret)⟩
  exact hinv.2

/-- The doc of `Full` says no more allocations until `sweep`. -/
def FullUntilSweep : Prop :=
  ∀ (n i : Nat) (tr₀ tr : History RegionHeap HeapOp) (h₀ h : RegionHeap),
    Run RegionHeap.call anyEnv (.with_regions n) tr₀ h₀ → h₀.full i →
    Run RegionHeap.call noSweep h₀ tr h → StaysFull i tr h

/-- One region, closed by a request of a whole region after 8 bytes were granted. -/
def closedHeap : RegionHeap := ⟨[(Region.new.bump 8).close], some 0⟩

theorem closedHeap_reached : ∃ tr, Run RegionHeap.call anyEnv (.with_regions 1) tr closedHeap := by
  have h0 : Run RegionHeap.call anyEnv (.with_regions 1) [] (.with_regions 1) := .nil
  have h1 := h0.snoc (show anyEnv _ _ (.alloc 8) from trivial) rfl
  exact ⟨_, h1.snoc (show anyEnv _ _ (.alloc REGION_SIZE) from trivial) rfl⟩

theorem closedHeap_full : closedHeap.full 0 := ⟨_, rfl, rfl⟩

theorem full_region_reopens : ¬ FullUntilSweep := by
  intro hall
  obtain ⟨tr₀, h₀⟩ := closedHeap_reached
  have h1 : Run RegionHeap.call noSweep closedHeap [] closedHeap := .nil
  have h2 := h1.snoc (show noSweep _ _ (.alloc 8) from (fun e => nomatch e)) rfl
  obtain ⟨⟨r, hr, hst⟩, -⟩ := hall 1 0 _ _ _ _ h₀ closedHeap_full h2
  cases hr
  cases hst

/-- A request that does not fit leaves a `Full` region closed. -/
theorem full_region_stays_full_refused :
    ∃ tr h, Run RegionHeap.call noSweep closedHeap tr h ∧ tr ≠ [] ∧ StaysFull 0 tr h := by
  obtain ⟨tr₀, h₀⟩ := closedHeap_reached
  have h1 : Run RegionHeap.call noSweep closedHeap [] closedHeap := .nil
  have h2 := h1.snoc (show noSweep _ _ (.alloc REGION_SIZE) from (fun e => nomatch e)) rfl
  refine ⟨_, _, h2, by simp, (full_region_stays_full_iff h₀ closedHeap_full h2).mpr ?_⟩
  intro x hx
  cases List.mem_singleton.mp hx
  refine ⟨?_, ?_⟩
  · rintro ⟨size, hop, -, -, r, hr, hf⟩
    cases hop
    cases hr
    revert hf
    decide
  · exact not_misnames (by decide)

end Samsara
