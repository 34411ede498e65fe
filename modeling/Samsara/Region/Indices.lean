import Samsara.Region.States

/-!
# Region indices in a `u32`

A handle holds the index of its region as a `u32`, `with_regions` takes any `usize`, and
`alloc` casts. A heap of more than `2^32` regions can be filled up to region `2^32`
(`UsedUpTo`), whose handle is that of region 0: a stop-the-world cycle is safe for heaps of
`2^32` regions or fewer, and for no others.
-/

namespace Samsara

open StepSys

/-- Of the `n` regions the first `k` are used to the last byte, the others are free. -/
structure UsedUpTo (k n : Nat) (h : RegionHeap) : Prop extends Consistent h where
  length : h.regions.length = n
  used : ∀ i < k, ∃ r, h.regions[i]? = some r ∧ r.state ≠ .Free ∧ r.offset = REGION_SIZE
  unused : ∀ i, k ≤ i → ∀ r, h.regions[i]? = some r → r.state = .Free

namespace UsedUpTo

variable {k n m i size : Nat} {h : RegionHeap} {r : Region} {rs : List Region}

theorem current_used (hu : UsedUpTo k n h) (hc : h.current = some i)
    (hr : h.regions[i]? = some r) : i < k ∧ r.offset = REGION_SIZE := by
  obtain ⟨r', hr', hne⟩ := hu.current i hc
  have hlt : i < k := Nat.lt_of_not_le fun hle => hne (hu.unused i hle r' hr')
  obtain ⟨r₀, hr₀, -, ho⟩ := hu.used i hlt
  exact ⟨hlt, Option.some.inj (hr₀.symm.trans hr) ▸ ho⟩

/-- Closing the current region changes no offset and none of the free regions. -/
theorem spill (hu : UsedUpTo k n h) (hsp : Spilled h size rs) :
    rs.length = n ∧
      (∀ i < k, ∃ r, rs[i]? = some r ∧ r.state ≠ .Free ∧ r.offset = REGION_SIZE) ∧
      ∀ i, k ≤ i → rs[i]? = h.regions[i]? := by
  cases hsp with
  | unset => exact ⟨hu.length, hu.used, fun _ _ => rfl⟩
  | @full i r hc hr hf =>
    obtain ⟨hlt, ho⟩ := hu.current_used hc hr
    refine ⟨List.length_set.trans hu.length, fun j hj => ?_, fun j hj => ?_⟩
    · by_cases hij : i = j
      · subst hij
        refine ⟨r.close, ?_, (fun e => nomatch e), ho⟩
        exact List.getElem?_set_self (List.getElem?_eq_some_iff.mp hr).1
      · rw [List.getElem?_set_ne hij]
        exact hu.used j hj
    · exact List.getElem?_set_ne (Nat.ne_of_lt (hlt.trans_le hj))

theorem first_free (hu : UsedUpTo k n h) (hsp : Spilled h size rs) (hk : k < n)
    (hr : rs[i]? = some r) (hfree : r.state = .Free)
    (hfirst : rs.findIdx? (·.state = .Free) = some i) : i = k := by
  obtain ⟨hlen, hused, hsame⟩ := hu.spill hsp
  obtain ⟨hi, -, hno⟩ := List.findIdx?_eq_some_iff_getElem.mp hfirst
  refine Nat.le_antisymm (Nat.le_of_not_lt fun hlt => ?_) (Nat.le_of_not_lt fun hlt => ?_)
  · have hrk : rs[k]? = some rs[k] := List.getElem?_eq_getElem (hlen.symm ▸ hk)
    have hkfree := hu.unused k le_rfl _ ((hsame k le_rfl).symm.trans hrk)
    exact hno k hlt (by simp [hkfree])
  · obtain ⟨r', hr', hne, -⟩ := hused i hlt
    exact hne (Option.some.inj (hr'.symm.trans hr) ▸ hfree)

/-- The current region is one of the used ones, so the next region opens. -/
theorem alloc (hu : UsedUpTo k n h) (hk : k < n) :
    ∃ h', h.alloc REGION_SIZE = some (h', some (RegionHeap.handle k 0)) ∧
      UsedUpTo (k + 1) n h' := by
  obtain ⟨h', res, e⟩ : ∃ h' res, h.alloc REGION_SIZE = some (h', res) := hu.alloc_isSome
  have hc' := hu.toConsistent.alloc e
  cases hu.alloc_cases e with
  | oversized hs => exact absurd hs (Nat.lt_irrefl _)
  | bump hs hc hr hf =>
    unfold Region.fits at hf
    rw [(hu.current_used hc hr).2] at hf
    exact absurd hf (by decide)
  | exhausted hs hsp hno =>
    have hrk := List.getElem?_eq_getElem (hu.length.symm ▸ hk : k < h.regions.length)
    exact absurd (hu.unused k le_rfl _ hrk)
      (hsp.no_free hu.toConsistent hno _ (List.mem_of_getElem? hrk))
  | @opens rs i r hs hsp hr hfree hfirst =>
    obtain ⟨hlen, hused, hsame⟩ := hu.spill hsp
    obtain rfl := hu.first_free hsp hk hr hfree hfirst
    have ho : r.offset = 0 := hu.free i r (hsp.free hr hfree) hfree
    have hzero : aligned 0 = 0 := by decide
    rw [ho, hzero] at e
    refine ⟨_, e, hc', List.length_set.trans hlen, fun j hj => ?_, fun j hj r' hr' => ?_⟩
    · by_cases hji : i = j
      · subst hji
        refine ⟨r.bump REGION_SIZE, ?_, (fun e => nomatch e), ?_⟩
        · exact List.getElem?_set_self (List.getElem?_eq_some_iff.mp hr).1
        · simp only [Region.bump, ho, hzero, Nat.zero_add]
      · simp only [List.getElem?_set_ne hji]
        exact hused j (by omega)
    · simp only [List.getElem?_set_ne (show i ≠ j by omega), hsame j (by omega)] at hr'
      exact hu.unused j (by omega) r' hr'

theorem reshape {h' : RegionHeap} (hu : UsedUpTo k n h)
    (hs : h'.regions.map Region.shape = h.regions.map Region.shape)
    (he : h'.current = h.current) : UsedUpTo k n h' := by
  have hlen : h'.regions.length = h.regions.length := by simpa using congrArg List.length hs
  refine ⟨hu.toConsistent.reshape hs he, hlen.trans hu.length, fun i hi => ?_, fun i hi r hr => ?_⟩
  · obtain ⟨r, hr, hne, ho⟩ := hu.used i hi
    obtain ⟨r', hr', ho', hst⟩ := getElem?_of_shape hs.symm hr
    exact ⟨r', hr', hst ▸ hne, ho'.trans ho⟩
  · obtain ⟨r', hr', -, hst⟩ := getElem?_of_shape hs hr
    exact hst ▸ hu.unused i hi r' hr'

theorem sweep (hu : UsedUpTo k n h)
    (hlive : ∀ i < k, ∀ r, h.regions[i]? = some r → r.live_count ≠ 0) :
    UsedUpTo k n h.sweep.1 := by
  refine ⟨hu.toConsistent.sweep, ?_, fun i hi => ?_, fun i hi r hr => ?_⟩
  · rw [h.sweep_spec.1, List.length_map, hu.length]
  · obtain ⟨r, hr, hne, ho⟩ := hu.used i hi
    refine ⟨r, ?_, hne, ho⟩
    have hd : ¬ r.dead := by simp [Region.dead, hlive i hi r hr]
    rw [sweep_region, hr, Option.map_some, if_neg hd]
  · rw [sweep_region] at hr
    obtain ⟨r₀, hr₀, rfl⟩ := Option.map_eq_some_iff.mp hr
    split
    · rfl
    · exact hu.unused i hi r₀ hr₀

end UsedUpTo

/-- The object takes up region 0. -/
def wholeRegion : Grant := ⟨⟨0, 0⟩, REGION_SIZE, [], false⟩

/-- The one object is marked, so the sweep leaves region 0 used up. -/
theorem UsedUpTo.cycle {n : Nat} {h marked : RegionHeap} (hu : UsedUpTo 1 n h)
    (hm : h.pre_mark.markAll [wholeRegion.handle] = some marked) :
    UsedUpTo 1 n marked.sweep.1 := by
  have hmark : h.pre_mark.mark_live wholeRegion.handle = some marked := by
    simpa [RegionHeap.markAll] using hm
  obtain ⟨hs, he⟩ := RegionHeap.call_shape (by simp) (by simp)
    (show h.call .pre_mark = some h.pre_mark from rfl)
  obtain ⟨hs', he'⟩ := RegionHeap.call_shape (by simp) (by simp)
    (show h.pre_mark.call (.mark_live wholeRegion.handle) = some marked from hmark)
  refine ((hu.reshape hs he).reshape hs' he').sweep fun i hi r hr => ?_
  obtain ⟨r₀, hr₀, rfl⟩ := RegionHeap.mark_live_cases hmark
  rw [RegionHeap.pre_mark_region] at hr₀
  obtain ⟨r₁, -, rfl⟩ := Option.map_eq_some_iff.mp hr₀
  rcases Buffer.getElem?_set_cases hr with ⟨-, rfl⟩ | ⟨hne, -⟩
  · simp only [UInt32.zero_add]
    decide
  · exact absurd (show i = 0 by omega) hne

end Samsara
