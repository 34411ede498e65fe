import Mathlib.Algebra.BigOperators.Group.Finset.Basic
import Mathlib.Algebra.Order.BigOperators.Group.Finset
import Samsara.Region.Refusal

/-!
# How much room the heap has

`alloc` leaves a region behind once one request has not fitted, and tries it no more while
another is current. So what is left in a closed region is bounded by the largest request
(`Packed`), and a heap that serves one size only holds exactly as many objects as its regions
have room for, however they are reclaimed in between (`Filled`).
-/

namespace Samsara

open StepSys

/-! ## Closed regions have little room left -/

/-- No closed region has room for `s` bytes. -/
def Packed (s : Nat) (h : RegionHeap) : Prop :=
  ∀ (i : Nat) r, h.regions[i]? = some r → r.state = .Full → ¬ r.fits s

/-- No request is larger than `s`. -/
def HeapOp.atMost (s : Nat) : HeapOp → Prop
  | .alloc size => size ≤ s
  | _ => True

section Packed

variable {h h' : RegionHeap} {rs : List Region} {s size : Nat} {res : Option RegionHandle}
  {op : HeapOp}

theorem Region.fits_mono {r : Region} (hf : r.fits s) (hs : size ≤ s) : r.fits size :=
  Nat.le_trans (Nat.add_le_add_left hs _) hf

theorem Packed.spill (hp : Packed s h) (hs : size ≤ s) (hsp : Spilled h size rs) :
    Packed s ⟨rs, h.current⟩ := by
  intro i r hi hfull
  cases hsp with
  | unset => exact hp i r hi hfull
  | full hc hr hf =>
    rcases Buffer.getElem?_set_cases hi with ⟨-, rfl⟩ | ⟨-, hi⟩
    · exact fun hfit => hf (Region.fits_mono hfit hs)
    · exact hp i r hi hfull

theorem Packed.bump {i : Nat} {r : Region} {c c' : Option Nat} (hp : Packed s ⟨rs, c⟩) :
    Packed s ⟨rs.set i (r.bump size), c'⟩ := by
  intro j r' hj hfull
  rcases Buffer.getElem?_set_cases hj with ⟨-, rfl⟩ | ⟨-, hj⟩
  · cases hfull
  · exact hp j r' hj hfull

theorem Packed.alloc (hp : Packed s h) (hc : Consistent h) (hs : size ≤ s)
    (e : h.alloc size = some (h', res)) : Packed s h' := by
  cases hc.alloc_cases e with
  | oversized => exact hp
  | bump => exact Packed.bump (c := h.current) hp
  | opens _ hsp => exact (hp.spill hs hsp).bump
  | exhausted _ hsp => exact hp.spill hs hsp

/-- **Every call keeps closed regions packed**, whatever it is. -/
theorem Packed.call (hp : Packed s h) (hc : Consistent h) (hop : op.atMost s)
    (e : h.call op = some h') : Packed s h' := by
  have reshape (ha : ∀ size, op ≠ .alloc size) (hne : op ≠ .sweep) : Packed s h' := by
    intro i r' hi hfull
    obtain ⟨r, hr, ho, hst⟩ := getElem?_of_shape (RegionHeap.call_shape ha hne e).1 hi
    have hno := hp i r hr (hst.trans hfull)
    unfold Region.fits at hno ⊢
    rwa [ho] at hno
  cases op with
  | alloc size =>
    obtain ⟨⟨h₁, res⟩, ha, rfl⟩ := Option.map_eq_some_iff.mp e
    exact hp.alloc hc hop ha
  | sweep =>
    cases e
    intro i r' hi hfull
    rw [sweep_region] at hi
    obtain ⟨r, hr, rfl⟩ := Option.map_eq_some_iff.mp hi
    split at hfull
    · cases hfull
    · next hd => rw [if_neg hd]; exact hp i r hr hfull
  | write | pre_mark | mark_live => exact reshape (by simp) (by simp)

theorem packed_new (n : Nat) : Packed s (.with_regions n) := by
  intro i r hi hfull
  have hr : r = .new := List.eq_of_mem_replicate (List.mem_of_getElem? hi)
  rw [hr] at hfull
  cases hfull

theorem RegionHeap.call_length (e : h.call op = some h') :
    h'.regions.length = h.regions.length := by
  have reshape (ha : ∀ size, op ≠ .alloc size) (hne : op ≠ .sweep) :
      h'.regions.length = h.regions.length := by
    simpa using congrArg List.length (call_shape ha hne e).1
  cases op with
  | alloc size =>
    obtain ⟨⟨h₁, res⟩, ha, rfl⟩ := Option.map_eq_some_iff.mp e
    cases alloc_cases ha with
    | refused hr => exact hr.length
    | granted hg => exact hg.length
  | sweep =>
    cases e
    rw [h.sweep_spec.1, List.length_map]
  | write | pre_mark | mark_live => exact reshape (by simp) (by simp)

theorem Packed.refused (hp : Packed s h) (hc : Consistent h) (hs : s ≤ REGION_SIZE)
    (hsize : size ≤ s) (e : h.alloc size = some (h', none)) : ∀ r ∈ h.regions, ¬ r.fits s := by
  obtain ⟨hfree, hcur⟩ := (hc.refuses_iff (hsize.trans hs)).mp ⟨h', e⟩
  intro r hr
  obtain ⟨i, hi⟩ := List.getElem?_of_mem hr
  cases hstate : r.state with
  | Free => exact absurd hstate (hfree r hr)
  | Full => exact hp i r hi hstate
  | Allocating =>
    have hno := hcur i r (hc.allocating i r hi hstate) hi
    exact fun hf => hno (Region.fits_mono hf hsize)

end Packed

theorem Region.used_of_not_fits {r : Region} {s : Nat} (ho : r.offset ≤ REGION_SIZE)
    (hf : ¬ r.fits s) : REGION_SIZE - (s + 6) ≤ r.used := by
  unfold fits REGION_SIZE at hf
  unfold REGION_SIZE at ho ⊢
  rw [aligned_eq (by unfold usizeSize; omega)] at hf
  unfold used
  omega

/-- **Memory only runs out when it is used up.** In every run in which no request is larger
than `s`, whatever is marked and swept: when a request is refused, no region has room for `s`
bytes, and all but `s + 6` bytes of each are in use. -/
theorem refused_when_used_up {n s size : Nat} {tr : History RegionHeap HeapOp}
    {h h' : RegionHeap} (hs : s ≤ REGION_SIZE)
    (hrun : Run RegionHeap.call (fun _ _ op => op.atMost s) (.with_regions n) tr h)
    (hsize : size ≤ s) (e : h.alloc size = some (h', none)) :
    (∀ r ∈ h.regions, ¬ r.fits s) ∧
      n * (REGION_SIZE - (s + 6)) ≤ (h.regions.map Region.used).sum := by
  have hinv : (Consistent h ∧ Packed s h) ∧ h.regions.length = n := by
    refine hrun.hist (P := fun _ h => (Consistent h ∧ Packed s h) ∧ h.regions.length = n)
      ⟨⟨.with_regions n, packed_new n⟩, List.length_replicate ..⟩ ?_
    intro _ h op h' _ ⟨⟨hc, hp⟩, hl⟩ hop hst
    exact ⟨⟨hc.call hst, hp.call hc hop hst⟩, (RegionHeap.call_length hst).trans hl⟩
  obtain ⟨⟨hc, hp⟩, rfl⟩ := hinv
  have hno := hp.refused hc hs hsize e
  refine ⟨hno, ?_⟩
  have hle := List.card_nsmul_le_sum (h.regions.map Region.used) (REGION_SIZE - (s + 6))
    fun u hu => by
      obtain ⟨r, hr, rfl⟩ := List.mem_map.mp hu
      obtain ⟨i, hi⟩ := List.getElem?_of_mem hr
      exact r.used_of_not_fits (hc.offset i r hi) (hno r hr)
  simpa using hle

/-- A region with two objects of 16 KiB has no room for a third. -/
theorem refused_when_used_up_two :
    ∃ h h' : RegionHeap, 1 * (REGION_SIZE - (16384 + 6)) ≤ (h.regions.map Region.used).sum ∧
      h.alloc 16384 = some (h', none) := by
  have h0 : Run RegionHeap.call (fun _ _ op => op.atMost 16384) (.with_regions 1) []
      (.with_regions 1) := .nil
  have h1 := h0.snoc (show HeapOp.atMost 16384 (.alloc 16384) from le_rfl) rfl
  have h2 := h1.snoc (show HeapOp.atMost 16384 (.alloc 16384) from le_rfl) rfl
  exact ⟨_, _, (refused_when_used_up (by decide) h2 le_rfl rfl).2, rfl⟩

/-! ## Requests of one size -/

def uniform (s : Nat) (_ : History Client HeapOp) (_ : Client) : HeapOp → Prop
  | .alloc size => size = s
  | _ => True

def Client.count (c : Client) (i : Nat) : Nat := c.grants.countP (·.region = i)

/-- Each valid handle takes `aligned s` bytes of its region. -/
def Filled (s : Nat) (c : Client) : Prop :=
  ∀ (i : Nat) r, c.heap.regions[i]? = some r → aligned r.offset = c.count i * aligned s

section Filled

variable {c c' : Client} {heap : RegionHeap} {s size : Nat} {op : HeapOp}

theorem Client.step_call (hst : c.step op = some c') : c.heap.call op = some c'.heap := by
  cases op with
  | alloc size =>
    simp only [Client.step] at hst
    unfold RegionHeap.call
    split at hst <;> cases hst <;> simp_all
  | write | mark_live =>
    obtain ⟨heap, hw, rfl⟩ := Option.map_eq_some_iff.mp hst
    exact hw
  | pre_mark | sweep =>
    cases hst
    rfl

theorem aligned_mul_add {k : Nat} (hs : s ≤ REGION_SIZE) (hk : k * aligned s + s ≤ REGION_SIZE) :
    aligned (k * aligned s + s) = (k + 1) * aligned s := by
  have hdvd : 8 ∣ k * aligned s := Dvd.dvd.mul_left (dvd_aligned s) k
  unfold REGION_SIZE at hs hk
  rw [Nat.add_mul, Nat.one_mul, @aligned_eq (k * aligned s + s) (by unfold usizeSize; omega)]
  rw [@aligned_eq s (by unfold usizeSize; omega)] at hdvd ⊢
  omega

theorem Filled.refused (hf : Filled s c) (hr : Refuses c.heap.regions heap.regions) :
    Filled s { c with heap := heap } := by
  intro j r' hj
  obtain ⟨r, hr, -, ho⟩ := (hr.closes j).before hj
  exact ho ▸ hf j r hr

theorem Filled.granted {i off : Nat} (hf : Filled s c) (hs : s ≤ REGION_SIZE)
    (hl : c.heap.regions.length ≤ 2 ^ 32) (hg : Grants c.heap.regions heap.regions s i off) :
    Filled s { c with
      heap := heap, grants := ⟨RegionHeap.handle i off, s, [], false⟩ :: c.grants } := by
  obtain ⟨hregion, -⟩ := hg.handle_toNat hl
  intro j r' hj
  simp only [Client.count, List.countP_cons, Grant.region, hregion]
  by_cases e : j = i
  · subst e
    obtain ⟨r, hr, rfl, hle, hr'⟩ := hg.region
    rw [hr', Option.some.injEq] at hj
    subst hj
    have hcount := hf j r hr
    rw [hcount] at hle ⊢
    rw [aligned_mul_add hs hle]
    simp [Client.count, Grant.region]
  · obtain ⟨r, hr, -, ho⟩ := (hg.closes j e).before hj
    rw [ho, hf j r hr]
    simp [Client.count, Grant.region, Ne.symm e]

theorem Filled.reshape (hf : Filled s c) {f : Grant → Grant} {marks : Nat → Nat}
    (hshape : heap.regions.map Region.shape = c.heap.regions.map Region.shape)
    (hsame : ∀ g : Grant, g.SameRange (f g)) : Filled s ⟨heap, c.grants.map f, marks⟩ := by
  intro i r' hi
  obtain ⟨r, hr, ho, -⟩ := getElem?_of_shape hshape hi
  have hcount : Client.count ⟨heap, c.grants.map f, marks⟩ i = c.count i := by
    unfold Client.count
    rw [List.countP_map]
    refine List.countP_congr fun g _ => ?_
    have hregion : (f g).region = g.region := congrArg (·.region.toNat) (hsame g).1
    rw [Function.comp_apply, hregion]
  rw [hcount]
  exact ho ▸ hf i r hr

theorem Filled.sweep (hf : Filled s c) :
    Filled s { c with
      heap := c.heap.sweep.1, grants := c.grants.filter (Client.keeps c.heap) } := by
  intro i r' hi
  rw [sweep_region] at hi
  obtain ⟨r, hr, rfl⟩ := Option.map_eq_some_iff.mp hi
  have hkeeps (g : Grant) (hg : g.region = i) : Client.keeps c.heap g = !r.dead := by
    simp [Client.keeps, hg, hr]
  simp only [Client.count, List.countP_filter]
  split
  · next hd =>
    have hnone : c.grants.countP (fun g => decide (g.region = i) && Client.keeps c.heap g) = 0 := by
      refine List.countP_eq_zero.mpr fun g _ hg => ?_
      simp only [Bool.and_eq_true, decide_eq_true_eq] at hg
      simp [hkeeps g hg.1, hd] at hg
    rw [hnone, Nat.zero_mul]
    exact (show aligned 0 = 0 by decide)
  · next hd =>
    rw [hf i r hr, Client.count]
    refine congrArg (· * aligned s) (List.countP_congr fun g _ => ?_)
    by_cases e : g.region = i
    · simp [e, hkeeps g e, hd]
    · simp [e]

/-- **Every call keeps the count.** -/
theorem Filled.step (hf : Filled s c) (hl : c.heap.regions.length ≤ 2 ^ 32)
    (hs : s ≤ REGION_SIZE) (hop : uniform s [] c op) (hst : c.step op = some c') :
    Filled s c' := by
  cases op with
  | alloc size =>
    obtain rfl : size = s := hop
    simp only [Client.step] at hst
    split at hst
    · cases hst
    · next heap ha =>
      cases hst
      cases RegionHeap.alloc_cases ha with
      | refused hr => exact hf.refused hr
    · next heap hd ha =>
      cases hst
      cases RegionHeap.alloc_cases ha with
      | granted hg => exact hf.granted hs hl hg
  | write hd data =>
    obtain ⟨heap, hw, rfl⟩ := Option.map_eq_some_iff.mp hst
    obtain ⟨r, b, hr, -, rfl⟩ := RegionHeap.write_cases hw
    exact hf.reshape (shape_set hr rfl) (Grant.sameRange_write hd data)
  | pre_mark =>
    cases hst
    refine hf.reshape ?_ fun _ => ⟨rfl, rfl⟩
    rw [RegionHeap.pre_mark, List.map_map]
    rfl
  | mark_live hd =>
    obtain ⟨heap, hm, rfl⟩ := Option.map_eq_some_iff.mp hst
    obtain ⟨r, hr, rfl⟩ := RegionHeap.mark_live_cases hm
    exact hf.reshape (shape_set hr rfl) (Grant.sameRange_mark hd)
  | sweep =>
    cases hst
    exact hf.sweep

/-- What holds of the client of a heap that serves one size. -/
structure OneSize (s n : Nat) (c : Client) : Prop extends Layout c where
  consistent : Consistent c.heap
  packed : Packed s c.heap
  filled : Filled s c
  regions : c.heap.regions.length = n

theorem oneSize_of_run {n : Nat} {tr : History Client HeapOp} (hn : n ≤ 2 ^ 32)
    (hs : s ≤ REGION_SIZE) (h : Run Client.step (uniform s) (.new n) tr c) : OneSize s n c := by
  refine h.hist (P := fun _ c => OneSize s n c)
    ⟨layout_new hn, .with_regions n, packed_new n, fun i r hi => ?_, List.length_replicate ..⟩ ?_
  · have hr : r = .new := List.eq_of_mem_replicate (List.mem_of_getElem? hi)
    rw [hr]
    exact (show aligned 0 = 0 * aligned s by rw [Nat.zero_mul]; decide)
  · intro tr c op c' _ ih hop hst
    have hcall := Client.step_call hst
    have hmost : op.atMost s := by
      cases op with
      | alloc size => exact Nat.le_of_eq hop
      | _ => trivial
    exact ⟨ih.toLayout.step hst, ih.consistent.call hcall, ih.packed.call ih.consistent hmost hcall,
      ih.filled.step ih.length hs hop hst, (RegionHeap.call_length hcall).trans ih.regions⟩

namespace OneSize

variable {n i : Nat} {r : Region}

/-- A region holds at most as many objects as fit into it, and no more fit once it does. -/
theorem fits_iff (h : OneSize s n c) (hpos : 0 < s) (hs : s ≤ REGION_SIZE)
    (hr : c.heap.regions[i]? = some r) :
    c.count i ≤ REGION_SIZE / aligned s ∧ (r.fits s ↔ c.count i < REGION_SIZE / aligned s) := by
  have hoffset := h.offset i r hr
  have hcount := h.filled i r hr
  obtain ⟨k, hk⟩ : 8 ∣ c.count i * aligned s := hcount ▸ dvd_aligned r.offset
  unfold Region.fits
  rw [hcount]
  unfold REGION_SIZE at hoffset hs ⊢
  have ha : aligned s = (s + 7) / 8 * 8 := aligned_eq (by unfold usizeSize; omega)
  have hpos' : 0 < aligned s := by omega
  have hle : c.count i * aligned s ≤ 32 * 1024 := by
    rw [← hcount, aligned_eq (by unfold usizeSize; omega)]
    omega
  refine ⟨(Nat.le_div_iff_mul_le hpos').mpr hle, ?_⟩
  rw [Nat.lt_iff_add_one_le, Nat.le_div_iff_mul_le hpos', Nat.add_mul, Nat.one_mul]
  omega

theorem sum_count (h : OneSize s n c) : ∑ i ∈ Finset.range n, c.count i = c.grants.length := by
  have hlt : ∀ g ∈ c.grants, g.region < n := by
    intro g hg
    obtain ⟨r, hr, -⟩ := (h.laid g hg).region
    exact h.regions ▸ (List.getElem?_eq_some_iff.mp hr).1
  unfold Client.count
  generalize c.grants = gs at hlt
  induction gs with
  | nil => simp
  | cons g gs ih =>
    obtain ⟨hg, hgs⟩ := List.forall_mem_cons.mp hlt
    simp only [List.countP_cons, Finset.sum_add_distrib, ih hgs, List.length_cons,
      decide_eq_true_eq]
    rw [Finset.sum_ite_eq, if_pos (Finset.mem_range.mpr hg)]

theorem refuses_iff (h : OneSize s n c) (hpos : 0 < s) (hs : s ≤ REGION_SIZE) :
    (∃ heap, c.heap.alloc s = some (heap, none)) ↔
      ∀ i < n, c.count i = REGION_SIZE / aligned s := by
  constructor
  · rintro ⟨heap, e⟩ i hi
    rw [← h.regions] at hi
    have hr := List.getElem?_eq_getElem hi
    obtain ⟨hle, hfits⟩ := h.fits_iff hpos hs hr
    have hno := h.packed.refused h.consistent hs le_rfl e _ (List.mem_of_getElem? hr)
    exact Nat.le_antisymm hle (Nat.le_of_not_lt (hfits.not.mp hno))
  · intro hall
    -- a region with as many objects as fit is not free, and no more fit
    have hno (i : Nat) r (hr : c.heap.regions[i]? = some r) : ¬ r.fits s := by
      have hi : i < n := h.regions ▸ (List.getElem?_eq_some_iff.mp hr).1
      rw [(h.fits_iff hpos hs hr).2, hall i hi]
      exact Nat.lt_irrefl _
    refine (h.consistent.refuses_iff hs).mpr ⟨fun r hr hfree => ?_, fun i r _ hr => hno i r hr⟩
    obtain ⟨i, hi⟩ := List.getElem?_of_mem hr
    exact hno i r hi (Region.fits_of_offset_zero (h.consistent.free i r hi hfree) hs)

end OneSize

end Filled

/-- **The capacity of a heap that serves one size.** Whatever is written, marked and swept
in between: at most `n * (REGION_SIZE / aligned s)` handles of `s` bytes are valid at a time,
and a request is refused exactly when there are as many. -/
theorem heap_capacity {n s : Nat} {tr : History Client HeapOp} {c : Client} (hn : n ≤ 2 ^ 32)
    (hpos : 0 < s) (hs : s ≤ REGION_SIZE) (h : Run Client.step (uniform s) (.new n) tr c) :
    c.grants.length ≤ n * (REGION_SIZE / aligned s) ∧
      ((∃ heap, c.heap.alloc s = some (heap, none)) ↔
        c.grants.length = n * (REGION_SIZE / aligned s)) := by
  have hone := oneSize_of_run hn hs h
  have hle : ∀ i ∈ Finset.range n, c.count i ≤ REGION_SIZE / aligned s := by
    intro i hi
    rw [Finset.mem_range, ← hone.regions] at hi
    exact (hone.fits_iff hpos hs (List.getElem?_eq_getElem hi)).1
  have hmax : ∑ _i ∈ Finset.range n, REGION_SIZE / aligned s = n * (REGION_SIZE / aligned s) := by
    rw [Finset.sum_const, Finset.card_range, Nat.nsmul_eq_mul]
  rw [hone.refuses_iff hpos hs, ← hone.sum_count, ← hmax]
  refine ⟨Finset.sum_le_sum hle, ?_⟩
  rw [Finset.sum_eq_sum_iff_of_le hle]
  simp only [Finset.mem_range]

/-- An object of the size of a region leaves no room for a second one. -/
theorem heap_capacity_whole :
    ∃ (c : Client) (heap : RegionHeap),
      c.heap.alloc REGION_SIZE = some (heap, none) ∧ c.grants.length = 1 := by
  have h0 : Run Client.step (uniform REGION_SIZE) (.new 1) [] (.new 1) := .nil
  have h1 := h0.snoc (show uniform REGION_SIZE _ _ (.alloc REGION_SIZE) from rfl) rfl
  obtain ⟨heap, e⟩ := (heap_capacity (by decide) (by decide) le_rfl h1).2.mpr
    (show 1 = 1 * (REGION_SIZE / aligned REGION_SIZE) by decide)
  exact ⟨_, heap, e, rfl⟩

end Samsara
