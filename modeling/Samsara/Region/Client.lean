import Mathlib.Logic.Function.Basic
import Mathlib.Order.CompletePartialOrder
import Mathlib.Order.Interval.Set.Disjoint
import Samsara.Lib.Run
import Samsara.Region.Ops

/-!
# A client of the region heap

`Client` is the heap with what its user knows: the handles that are valid (`Grant`), what
was last written through each, and how often each region was marked since the last
`pre_mark`. A run of `Client.step` is any sequence of calls; `Client.permits` is the
discipline asked of the user. `Layout` says where the valid handles lie and holds in every
run; `ClientInv` adds data and marks and holds in every disciplined run.
-/

namespace Samsara

open StepSys

/-- A valid handle: what an `alloc` returned and no `sweep` has taken back. -/
structure Grant where
  handle : RegionHandle
  size : Nat
  /-- the bytes written through the handle, later writes over earlier ones -/
  written : List UInt8
  /-- passed to `mark_live` since the last `pre_mark` -/
  marked : Bool

namespace Grant

def region (g : Grant) : Nat := g.handle.region.toNat
def start (g : Grant) : Nat := g.handle.offset.toNat
def end_ (g : Grant) : Nat := g.start + g.size

/-- A write through `h` of data that fits. -/
def write (h : RegionHandle) (data : List UInt8) (g : Grant) : Grant :=
  if g.handle = h ∧ data.length ≤ g.size then
    { g with written := data ++ g.written.drop data.length }
  else g

def unmark (g : Grant) : Grant := { g with marked := false }

def mark (h : RegionHandle) (g : Grant) : Grant :=
  if g.handle = h then { g with marked := true } else g

end Grant

inductive HeapOp where
  | alloc (size : Nat)
  | write (h : RegionHandle) (data : List UInt8)
  | pre_mark
  | mark_live (h : RegionHandle)
  | sweep

structure Client where
  heap : RegionHeap
  /-- newest first -/
  grants : List Grant
  /-- calls of `mark_live` for each region since the last `pre_mark` -/
  marks : Nat → Nat

namespace Client

def new (n : Nat) : Client := ⟨.with_regions n, [], fun _ => 0⟩

def keeps (h : RegionHeap) (g : Grant) : Bool :=
  match h.regions[g.region]? with
  | some r => !r.dead
  | none => false

/-- One call; `none` is a panic. -/
def step (c : Client) : HeapOp → Option Client
  | .alloc size =>
    match c.heap.alloc size with
    | none => none
    | some (heap, none) => some { c with heap := heap }
    | some (heap, some h) =>
      some { c with heap := heap, grants := ⟨h, size, [], false⟩ :: c.grants }
  | .write h data =>
    (c.heap.write h data).map fun heap =>
      { c with heap := heap, grants := c.grants.map (Grant.write h data) }
  | .pre_mark => some ⟨c.heap.pre_mark, c.grants.map Grant.unmark, fun _ => 0⟩
  | .mark_live h =>
    (c.heap.mark_live h).map fun heap =>
      ⟨heap, c.grants.map (Grant.mark h),
        Function.update c.marks h.region.toNat (c.marks h.region.toNat + 1)⟩
  | .sweep => some { c with heap := c.heap.sweep.1, grants := c.grants.filter (keeps c.heap) }

/-- Writes go through a valid handle and stay within its size; `mark_live` is called on
valid handles, fewer than `2^32` times a region between two `pre_mark`s. -/
def permits (c : Client) : HeapOp → Prop
  | .write h data => ∃ g ∈ c.grants, g.handle = h ∧ data.length ≤ g.size
  | .mark_live h => (∃ g ∈ c.grants, g.handle = h) ∧ c.marks h.region.toNat + 1 < 2 ^ 32
  | _ => True

/-- The discipline as the promise of a run's environment. -/
def disciplined (_ : History Client HeapOp) (c : Client) (op : HeapOp) : Prop := c.permits op

end Client

/-! ## The layout -/

/-- What a change of a region must leave alone for the handles into it. -/
structure Region.Grows (r r' : Region) : Prop where
  offset : r.offset ≤ r'.offset
  state : r.state ≠ .Free → r'.state ≠ .Free

structure Region.Keeps (r r' : Region) : Prop extends r.Grows r' where
  bytes : r'.bytes = r.bytes

theorem Region.Keeps.refl (r : Region) : r.Keeps r := ⟨⟨Nat.le_refl _, id⟩, rfl⟩

/-- A grant lies below the bump offset of a region in use. -/
structure Grant.Laid (h : RegionHeap) (g : Grant) : Prop where
  region : ∃ r, h.regions[g.region]? = some r ∧ g.end_ ≤ r.offset ∧ r.state ≠ .Free
  aligned : 8 ∣ g.start

/-- The older grant of a region ends before the newer one starts. -/
def Grant.After (g g' : Grant) : Prop := g.region = g'.region → g'.end_ ≤ g.start

/-- Where the valid handles lie. No call breaks this, whatever its arguments. -/
structure Layout (c : Client) : Prop where
  length : c.heap.regions.length ≤ 2 ^ 32
  current : ∀ i, c.heap.current = some i → i < c.heap.regions.length
  offset : ∀ (i : Nat) r, c.heap.regions[i]? = some r → r.offset ≤ REGION_SIZE
  laid : ∀ g ∈ c.grants, g.Laid c.heap
  after : c.grants.Pairwise Grant.After

section Layout

variable {c c' : Client} {heap heap' : RegionHeap} {g : Grant} {hd : RegionHandle}

theorem Grant.Laid.keep (h : g.Laid heap) (hk : ∀ r, heap.regions[g.region]? = some r →
    ∃ r', heap'.regions[g.region]? = some r' ∧ r.Grows r') : g.Laid heap' := by
  obtain ⟨r, hr, hend, hstate⟩ := h.region
  obtain ⟨r', hr', hgrows⟩ := hk r hr
  exact ⟨⟨r', hr', hend.trans hgrows.offset, hgrows.state hstate⟩, h.aligned⟩

theorem Layout.apart (h : Layout c) {g g' : Grant} (hg : g ∈ c.grants) (hg' : g' ∈ c.grants)
    (hne : g ≠ g') (hr : g.region = g'.region) : g.end_ ≤ g'.start ∨ g'.end_ ≤ g.start := by
  let R (g g' : Grant) : Prop :=
    g = g' ∨ (g.region = g'.region → g.end_ ≤ g'.start ∨ g'.end_ ≤ g.start)
  have h₁ : c.grants.Pairwise R := h.after.imp fun hxy => .inr fun e => .inr (hxy e)
  have h₂ : c.grants.Pairwise (flip R) := h.after.imp fun hxy => .inr fun e => .inl (hxy e.symm)
  have hall := h₁.forall_of_forall_of_flip (fun _ _ => .inl rfl) h₂ hg hg'
  exact hall.resolve_left hne hr

theorem Closes.keeps {o o' : Option Region} {r : Region} (h : Closes o o') (e : o = some r) :
    ∃ r', o' = some r' ∧ r.Keeps r' := by
  subst e
  rcases h with rfl | rfl
  · exact ⟨r, rfl, .refl r⟩
  · exact ⟨r.close, rfl, ⟨Nat.le_refl _, fun _ e => nomatch e⟩, rfl⟩

theorem Closes.before {o o' : Option Region} {r' : Region} (h : Closes o o') (e : o' = some r') :
    ∃ r, o = some r ∧ r'.live_count = r.live_count ∧ r'.offset = r.offset := by
  subst e
  rcases h with h | h
  · exact ⟨r', h.symm, rfl, rfl⟩
  · obtain ⟨r, hr, rfl⟩ := Option.map_eq_some_iff.mp h.symm
    exact ⟨r, hr, rfl, rfl⟩

theorem Layout.alloc_refused (h : Layout c) (hr : Refuses c.heap.regions heap.regions)
    (hc : heap.current = c.heap.current) : Layout { c with heap := heap } where
  length := hr.length ▸ h.length
  current i hi := hr.length ▸ h.current i (hc ▸ hi)
  offset i r hi := by
    obtain ⟨r₀, hr₀, -, e⟩ := (hr.closes i).before hi
    exact e ▸ h.offset i r₀ hr₀
  laid g hg := (h.laid g hg).keep fun r hi =>
    ((hr.closes g.region).keeps hi).imp fun _ hk => ⟨hk.1, hk.2.toGrows⟩
  after := h.after

theorem Grants.keeps {rs rs' : List Region} {size i off j : Nat} {r : Region}
    (hg : Grants rs rs' size i off) (hr : rs[j]? = some r) (hro : r.offset ≤ REGION_SIZE) :
    ∃ r', rs'[j]? = some r' ∧ r.Keeps r' := by
  by_cases e : j = i
  · subst e
    obtain ⟨r₀, hr₀, -, -, hr'⟩ := hg.region
    have hbump := hg.bump hr hro
    rw [hr, Option.some.injEq] at hr₀
    subst hr₀
    exact ⟨_, hr', ⟨by simp only; omega, fun _ e => nomatch e⟩, rfl⟩
  · exact (hg.closes j e).keeps hr

theorem Grants.before {rs rs' : List Region} {size i off j : Nat} {r' : Region}
    (hg : Grants rs rs' size i off) (hj : rs'[j]? = some r') :
    ∃ r, rs[j]? = some r ∧ r'.live_count = r.live_count ∧ (j ≠ i → r'.offset = r.offset) := by
  by_cases e : j = i
  · subst e
    obtain ⟨r, hr, -, -, hr'⟩ := hg.region
    rw [hr', Option.some.injEq] at hj
    exact ⟨r, hr, by rw [← hj], fun hne => absurd rfl hne⟩
  · obtain ⟨r, hr, hcount, hoff⟩ := (hg.closes j e).before hj
    exact ⟨r, hr, hcount, fun _ => hoff⟩

theorem Layout.alloc_granted (h : Layout c) {size i off : Nat}
    (hg : Grants c.heap.regions heap.regions size i off) (hc : heap.current = some i) :
    Layout { c with
      heap := heap, grants := ⟨RegionHeap.handle i off, size, [], false⟩ :: c.grants } := by
  obtain ⟨r, hr, hoff, hle, hr'⟩ := hg.region
  have hlt : i < c.heap.regions.length := (List.getElem?_eq_some_iff.mp hr).1
  have hbump : r.offset ≤ off := hg.bump hr (h.offset i r hr)
  obtain ⟨hregion, hstart⟩ := hg.handle_toNat h.length
  refine ⟨hg.length ▸ h.length, fun j hj => ?_, fun j r₁ hj => ?_, fun g hgm => ?_, ?_⟩
  · rw [hc] at hj
    cases hj
    exact hg.length ▸ hlt
  · by_cases e : j = i
    · subst e
      rw [hr', Option.some.injEq] at hj
      rw [← hj]
      exact hle
    · obtain ⟨r₀, hr₀, -, e⟩ := (hg.closes j e).before hj
      exact e ▸ h.offset j r₀ hr₀
  · rcases List.mem_cons.mp hgm with rfl | hgm
    · rw [← hregion] at hr'
      refine ⟨⟨_, hr', ?_, by simp⟩, ?_⟩
      · simp only [Grant.end_, Grant.start, hstart, Nat.le_refl]
      · simp only [Grant.start, hstart]
        exact hoff ▸ dvd_aligned r.offset
    · exact (h.laid g hgm).keep fun r₁ hr₁ =>
        (hg.keeps hr₁ (h.offset _ _ hr₁)).imp fun _ hk => ⟨hk.1, hk.2.toGrows⟩
  · refine List.pairwise_cons.mpr ⟨fun g hgm e => ?_, h.after⟩
    obtain ⟨r₁, hr₁, hend, -⟩ := (h.laid g hgm).region
    rw [← e, Grant.region, hregion, hr, Option.some.injEq] at hr₁
    simp only [Grant.start, hstart]
    rw [← hr₁] at hend
    omega

/-- What `alloc` and `sweep` alone change of a region. -/
def Region.shape (r : Region) : Nat × RegionState := (r.offset, r.state)

/-- The labels of a grant other than its data. -/
def Grant.SameRange (g g' : Grant) : Prop := g'.handle = g.handle ∧ g'.size = g.size

theorem Grant.sameRange_write (hd : RegionHandle) (data : List UInt8) (g : Grant) :
    g.SameRange (g.write hd data) := by
  unfold Grant.write
  split <;> exact ⟨rfl, rfl⟩

theorem Grant.sameRange_mark (hd : RegionHandle) (g : Grant) : g.SameRange (g.mark hd) := by
  unfold Grant.mark
  split <;> exact ⟨rfl, rfl⟩

/-- `write`, `pre_mark` and `mark_live` leave shapes and ranges alone. -/
theorem Layout.reshape (h : Layout c) {f : Grant → Grant} {marks : Nat → Nat}
    (hs : heap.regions.map Region.shape = c.heap.regions.map Region.shape)
    (hc : heap.current = c.heap.current) (hf : ∀ g : Grant, g.SameRange (f g)) :
    Layout ⟨heap, c.grants.map f, marks⟩ := by
  have hlen : heap.regions.length = c.heap.regions.length := by
    simpa using congrArg List.length hs
  have hshape (i : Nat) : (heap.regions[i]?).map Region.shape =
      (c.heap.regions[i]?).map Region.shape := by
    rw [← List.getElem?_map, hs, List.getElem?_map]
  refine ⟨hlen ▸ h.length, fun i hi => hlen ▸ h.current i (hc ▸ hi), fun i r hi => ?_,
    fun g' hg' => ?_, ?_⟩
  · have he := hshape i
    rw [hi, Option.map_some, eq_comm] at he
    obtain ⟨r₀, hr₀, he⟩ := Option.map_eq_some_iff.mp he
    have hoff : r₀.offset = r.offset := (Prod.ext_iff.mp he).1
    exact hoff ▸ h.offset i r₀ hr₀
  · obtain ⟨g, hg, rfl⟩ := List.mem_map.mp hg'
    have hl : g.Laid heap := (h.laid g hg).keep fun r hr => by
      have he := hshape g.region
      rw [hr, Option.map_some] at he
      obtain ⟨r', hr', he⟩ := Option.map_eq_some_iff.mp he
      have hoff : r'.offset = r.offset := (Prod.ext_iff.mp he).1
      have hstate : r'.state = r.state := (Prod.ext_iff.mp he).2
      exact ⟨r', hr', hoff.ge, fun hr => hstate ▸ hr⟩
    obtain ⟨hh, hsz⟩ := hf g
    refine ⟨?_, ?_⟩
    · simpa only [Grant.region, Grant.end_, Grant.start, hh, hsz] using hl.region
    · simpa only [Grant.start, hh] using hl.aligned
  · refine List.Pairwise.map f (fun g g' hgg => ?_) h.after
    obtain ⟨hh, -⟩ := hf g
    obtain ⟨hh', hs'⟩ := hf g'
    simpa only [Grant.After, Grant.region, Grant.end_, Grant.start, hh, hh', hs'] using hgg

theorem shape_set {rs : List Region} {k : Nat} {r r' : Region} (hr : rs[k]? = some r)
    (hs : r'.shape = r.shape) : (rs.set k r').map Region.shape = rs.map Region.shape := by
  obtain ⟨hlt, rfl⟩ := List.getElem?_eq_some_iff.mp hr
  rw [List.map_set, hs]
  refine List.ext_getElem? fun i => ?_
  by_cases e : k = i
  · subst e
    rw [List.getElem?_set_self (by simpa using hlt), List.getElem?_map,
      List.getElem?_eq_getElem hlt, Option.map_some]
  · rw [List.getElem?_set_ne e]

theorem sweep_region (h : RegionHeap) (i : Nat) :
    h.sweep.1.regions[i]? = (h.regions[i]?).map fun r => if r.dead then r.reset else r := by
  rw [h.sweep_spec.1, List.getElem?_map]

theorem Client.region_of_keeps {r : Region} (hk : Client.keeps c.heap g = true)
    (hr : c.heap.regions[g.region]? = some r) : c.heap.sweep.1.regions[g.region]? = some r := by
  have hd : r.dead = false := by simpa [Client.keeps, hr] using hk
  rw [sweep_region, hr, Option.map_some, hd]
  rfl

theorem Layout.sweep (h : Layout c) :
    Layout { c with heap := c.heap.sweep.1, grants := c.grants.filter (Client.keeps c.heap) } := by
  obtain ⟨hrs, -, hcur⟩ := c.heap.sweep_spec
  refine ⟨by simpa [hrs] using h.length, fun i hi => ?_, fun i r hi => ?_, fun g hg => ?_,
    h.after.filter _⟩
  · rcases hcur with e | e
    · rw [e] at hi; cases hi
    · simpa [hrs] using h.current i (e ▸ hi)
  · rw [sweep_region] at hi
    obtain ⟨r₀, hr₀, rfl⟩ := Option.map_eq_some_iff.mp hi
    split
    · exact Nat.zero_le _
    · exact h.offset i r₀ hr₀
  · obtain ⟨hgm, hk⟩ := List.mem_filter.mp hg
    exact (h.laid g hgm).keep fun r hr =>
      ⟨r, Client.region_of_keeps hk hr, (Region.Keeps.refl r).toGrows⟩

/-- **Every call keeps the layout.** -/
theorem Layout.step (h : Layout c) {op : HeapOp} (hst : c.step op = some c') : Layout c' := by
  cases op with
  | alloc size =>
    simp only [Client.step] at hst
    split at hst
    · cases hst
    · next heap ha =>
      cases hst
      cases RegionHeap.alloc_cases ha with
      | refused hr hc => exact h.alloc_refused hr hc
    · next heap hd ha =>
      cases hst
      cases RegionHeap.alloc_cases ha with
      | granted hg hc => exact h.alloc_granted hg hc
  | write hd data =>
    obtain ⟨heap, hw, rfl⟩ := Option.map_eq_some_iff.mp hst
    obtain ⟨r, b, hr, -, rfl⟩ := RegionHeap.write_cases hw
    exact h.reshape (shape_set hr rfl) rfl (Grant.sameRange_write hd data)
  | pre_mark =>
    cases hst
    refine h.reshape ?_ rfl fun _ => ⟨rfl, rfl⟩
    rw [RegionHeap.pre_mark, List.map_map]
    rfl
  | mark_live hd =>
    obtain ⟨heap, hm, rfl⟩ := Option.map_eq_some_iff.mp hst
    obtain ⟨r, hr, rfl⟩ := RegionHeap.mark_live_cases hm
    exact h.reshape (shape_set hr rfl) rfl (Grant.sameRange_mark hd)
  | sweep =>
    cases hst
    exact h.sweep

theorem layout_new {n : Nat} (hn : n ≤ 2 ^ 32) : Layout (.new n) where
  length := by simpa [Client.new, RegionHeap.with_regions] using hn
  current i hi := nomatch hi
  offset i r hi := by
    have hr : r = .new := List.eq_of_mem_replicate (List.mem_of_getElem? hi)
    rw [hr]
    exact Nat.zero_le _
  laid g hg := nomatch hg
  after := .nil

end Layout

/-! ## What the discipline adds -/

/-- A grant reads back what was written through it. -/
structure Grant.Stored (h : RegionHeap) (g : Grant) : Prop where
  written : g.written.length ≤ g.size
  read : h.read g.handle g.written.length = some g.written

structure ClientInv (c : Client) : Prop extends Layout c where
  count : ∀ (i : Nat) r, c.heap.regions[i]? = some r → r.live_count.toNat = c.marks i
  stored : ∀ g ∈ c.grants, g.Stored c.heap
  marked : ∀ g ∈ c.grants, g.marked → 0 < c.marks g.region

section Ops

variable {c : Client} {heap : RegionHeap} {g : Grant} {hd : RegionHandle}

/-- **Frame rule.** -/
theorem Grant.Stored.keep (h : g.Stored c.heap) (hl : g.Laid c.heap)
    (hk : ∀ r, c.heap.regions[g.region]? = some r →
      ∃ r', heap.regions[g.region]? = some r' ∧ r'.bytes = r.bytes) : g.Stored heap := by
  obtain ⟨r, hr, -⟩ := hl.region
  obtain ⟨r', hr', hbytes⟩ := hk r hr
  refine ⟨h.written, ?_⟩
  rw [RegionHeap.read_of_region hr', hbytes, ← RegionHeap.read_of_region hr]
  exact h.read

theorem ClientInv.alloc_refused (h : ClientInv c) (hr : Refuses c.heap.regions heap.regions)
    (hc : heap.current = c.heap.current) : ClientInv { c with heap := heap } where
  toLayout := h.toLayout.alloc_refused hr hc
  count i r hi := by
    obtain ⟨r₀, hr₀, e, -⟩ := (hr.closes i).before hi
    exact e ▸ h.count i r₀ hr₀
  stored g hg := (h.stored g hg).keep (h.laid g hg) fun r hi =>
    ((hr.closes g.region).keeps hi).imp fun _ hk => ⟨hk.1, hk.2.bytes⟩
  marked := h.marked

theorem ClientInv.alloc_granted (h : ClientInv c) {size i off : Nat}
    (hg : Grants c.heap.regions heap.regions size i off) (hc : heap.current = some i) :
    ClientInv { c with
      heap := heap, grants := ⟨RegionHeap.handle i off, size, [], false⟩ :: c.grants } := by
  obtain ⟨r, hr, -, hle, hr'⟩ := hg.region
  obtain ⟨hregion, hstart⟩ := hg.handle_toNat h.length
  refine { toLayout := h.toLayout.alloc_granted hg hc, count := fun j r₁ hj => ?_,
           stored := fun g hgm => ?_, marked := fun g hgm hm => ?_ }
  · obtain ⟨r₀, hr₀, e, -⟩ := hg.before hj
    exact e ▸ h.count j r₀ hr₀
  · rcases List.mem_cons.mp hgm with rfl | hgm
    · rw [← hregion] at hr'
      refine ⟨Nat.zero_le _, ?_⟩
      rw [RegionHeap.read_of_region hr']
      refine Buffer.slice_eq_some.mpr ⟨?_, rfl, fun _ _ hi => nomatch hi⟩
      simp only [hstart, List.length_nil]
      omega
    · exact (h.stored g hgm).keep (h.laid g hgm) fun r₁ hr₁ =>
        (hg.keeps hr₁ (h.offset _ _ hr₁)).imp fun _ hk => ⟨hk.1, hk.2.bytes⟩
  · rcases List.mem_cons.mp hgm with rfl | hgm
    · cases hm
    · exact h.marked g hgm hm

theorem ClientInv.stored_write (h : ClientInv c) {data : List UInt8} {g₀ : Grant}
    (hg₀ : g₀ ∈ c.grants) (hhd : g₀.handle = hd) (hlen : data.length ≤ g₀.size)
    (hw : c.heap.write hd data = some heap) (hg : g ∈ c.grants) :
    (g.write hd data).Stored heap := by
  obtain ⟨r, b, hr, hb, rfl⟩ := RegionHeap.write_cases hw
  have hv := h.stored g hg
  by_cases hreg : hd.region.toNat = g.region
  · have hnew : (c.heap.regions.set hd.region.toNat { r with bytes := b })[g.region]? =
        some { r with bytes := b } := by
      rw [← hreg, List.getElem?_set_self (List.getElem?_eq_some_iff.mp hr).1]
    have hread := hv.read
    have hwritten := hv.written
    rw [RegionHeap.read_of_region (hreg ▸ hr)] at hread
    by_cases hown : g.handle = hd ∧ data.length ≤ g.size
    · rw [Grant.write, if_pos hown]
      refine ⟨?_, ?_⟩
      · simp only [List.length_append, List.length_drop]
        omega
      · rw [RegionHeap.read_of_region hnew]
        rw [hown.1] at hread ⊢
        exact Buffer.slice_splice_self hb hread
    · rw [Grant.write, if_neg hown]
      refine ⟨hwritten, ?_⟩
      rw [RegionHeap.read_of_region hnew]
      have hne : g ≠ g₀ := fun e => hown (e ▸ ⟨hhd, hlen⟩)
      have hapart := h.apart hg hg₀ hne (by rw [← hreg, ← hhd]; rfl)
      simp only [Grant.end_, Grant.start, hhd] at hapart
      exact (Buffer.slice_splice_of_disjoint hb (by omega)).trans hread
  · have hne : g.handle ≠ hd := fun e => hreg (e ▸ rfl)
    rw [Grant.write, if_neg fun e => hne e.1]
    exact hv.keep (h.laid g hg) fun r₁ hr₁ => ⟨r₁, by rw [List.getElem?_set_ne hreg, hr₁], rfl⟩

theorem ClientInv.write (h : ClientInv c) {data : List UInt8} {g₀ : Grant}
    (hg₀ : g₀ ∈ c.grants) (hhd : g₀.handle = hd) (hlen : data.length ≤ g₀.size)
    (hw : c.heap.write hd data = some heap)
    (hl : Layout { c with heap := heap, grants := c.grants.map (Grant.write hd data) }) :
    ClientInv { c with heap := heap, grants := c.grants.map (Grant.write hd data) } := by
  have hstored {g : Grant} := h.stored_write (g := g) hg₀ hhd hlen hw
  obtain ⟨r, b, hr, -, rfl⟩ := RegionHeap.write_cases hw
  refine { toLayout := hl, count := fun i r₁ hi => ?_, stored := fun g hg => ?_,
           marked := fun g hg hm => ?_ }
  · rcases Buffer.getElem?_set_cases hi with ⟨rfl, rfl⟩ | ⟨-, hi⟩
    · exact h.count _ r hr
    · exact h.count i r₁ hi
  · obtain ⟨g, hgm, rfl⟩ := List.mem_map.mp hg
    exact hstored hgm
  · obtain ⟨g, hgm, rfl⟩ := List.mem_map.mp hg
    have hmark : (g.write hd data).marked = g.marked := by
      unfold Grant.write
      split <;> rfl
    rw [Grant.region, (g.sameRange_write hd data).1]
    exact h.marked g hgm (hmark ▸ hm)

theorem ClientInv.pre_mark (h : ClientInv c)
    (hl : Layout ⟨c.heap.pre_mark, c.grants.map Grant.unmark, fun _ => 0⟩) :
    ClientInv ⟨c.heap.pre_mark, c.grants.map Grant.unmark, fun _ => 0⟩ := by
  refine { toLayout := hl, count := fun i r hi => ?_, stored := fun g hg => ?_,
           marked := fun g hg hm => ?_ }
  · rw [RegionHeap.pre_mark_region] at hi
    obtain ⟨r₀, -, rfl⟩ := Option.map_eq_some_iff.mp hi
    rfl
  · obtain ⟨g, hgm, rfl⟩ := List.mem_map.mp hg
    have hv : g.Stored c.heap.pre_mark := (h.stored g hgm).keep (h.laid g hgm) fun r hr =>
      ⟨{ r with live_count := 0 }, by rw [RegionHeap.pre_mark_region, hr, Option.map_some], rfl⟩
    exact ⟨hv.written, hv.read⟩
  · obtain ⟨g, -, rfl⟩ := List.mem_map.mp hg
    cases hm

theorem ClientInv.mark_live (h : ClientInv c) (hlim : c.marks hd.region.toNat + 1 < 2 ^ 32)
    (hm : c.heap.mark_live hd = some heap)
    (hl : Layout ⟨heap, c.grants.map (Grant.mark hd),
      Function.update c.marks hd.region.toNat (c.marks hd.region.toNat + 1)⟩) :
    ClientInv ⟨heap, c.grants.map (Grant.mark hd),
      Function.update c.marks hd.region.toNat (c.marks hd.region.toNat + 1)⟩ := by
  obtain ⟨r, hr, rfl⟩ := RegionHeap.mark_live_cases hm
  refine { toLayout := hl, count := fun i r₁ hi => ?_, stored := fun g hg => ?_,
           marked := fun g hg hmk => ?_ }
  · rcases Buffer.getElem?_set_cases hi with ⟨rfl, rfl⟩ | ⟨hne, hi⟩
    · -- the count does not wrap
      simp only [Function.update_self, UInt32.toNat_add, h.count _ r hr]
      exact Nat.mod_eq_of_lt hlim
    · simp only [Function.update_of_ne hne]
      exact h.count i r₁ hi
  · obtain ⟨g, hgm, rfl⟩ := List.mem_map.mp hg
    have hv : g.Stored ⟨c.heap.regions.set hd.region.toNat
        { r with live_count := r.live_count + 1 }, c.heap.current⟩ := by
      refine (h.stored g hgm).keep (h.laid g hgm) fun r₁ hr₁ => ?_
      by_cases e : hd.region.toNat = g.region
      · rw [← e, hr, Option.some.injEq] at hr₁
        subst hr₁
        refine ⟨{ r with live_count := r.live_count + 1 }, ?_, rfl⟩
        rw [← e, List.getElem?_set_self (List.getElem?_eq_some_iff.mp hr).1]
      · exact ⟨r₁, by rw [List.getElem?_set_ne e, hr₁], rfl⟩
    unfold Grant.mark
    split
    · exact ⟨hv.written, hv.read⟩
    · exact hv
  · obtain ⟨g, hgm, rfl⟩ := List.mem_map.mp hg
    simp only [Grant.region, (g.sameRange_mark hd).1]
    by_cases e : g.handle.region.toNat = hd.region.toNat
    · rw [e, Function.update_self]
      omega
    · rw [Function.update_of_ne e]
      have hne : g.handle ≠ hd := fun e' => e (e' ▸ rfl)
      rw [Grant.mark, if_neg hne] at hmk
      exact h.marked g hgm hmk

theorem ClientInv.sweep (h : ClientInv c) :
    ClientInv { c with
      heap := c.heap.sweep.1, grants := c.grants.filter (Client.keeps c.heap) } := by
  refine { toLayout := h.toLayout.sweep, count := fun i r hi => ?_, stored := fun g hg => ?_,
           marked := fun g hg => h.marked g (List.mem_filter.mp hg).1 }
  · rw [sweep_region] at hi
    obtain ⟨r₀, hr₀, rfl⟩ := Option.map_eq_some_iff.mp hi
    have hcount := h.count i r₀ hr₀
    split
    · next hd =>
      -- a dead region was not marked
      have hz : r₀.live_count = 0 := by
        simp only [Region.dead, Bool.and_eq_true, decide_eq_true_eq] at hd
        exact hd.2
      rw [hz] at hcount
      exact hcount
    · exact hcount
  · obtain ⟨hgm, hk⟩ := List.mem_filter.mp hg
    exact (h.stored g hgm).keep (h.laid g hgm) fun r hr =>
      ⟨r, Client.region_of_keeps hk hr, rfl⟩

/-- **Every permitted call keeps the invariant.** -/
theorem ClientInv.step (h : ClientInv c) {c' : Client} {op : HeapOp} (hp : c.permits op)
    (hst : c.step op = some c') : ClientInv c' := by
  have hl := h.toLayout.step hst
  cases op with
  | alloc size =>
    simp only [Client.step] at hst
    split at hst
    · cases hst
    · next heap ha =>
      cases hst
      cases RegionHeap.alloc_cases ha with
      | refused hr hc => exact h.alloc_refused hr hc
    · next heap hd ha =>
      cases hst
      cases RegionHeap.alloc_cases ha with
      | granted hg hc => exact h.alloc_granted hg hc
  | write hd data =>
    obtain ⟨g₀, hg₀, hhd, hlen⟩ := hp
    obtain ⟨heap, hw, rfl⟩ := Option.map_eq_some_iff.mp hst
    exact h.write hg₀ hhd hlen hw hl
  | pre_mark =>
    cases hst
    exact h.pre_mark hl
  | mark_live hd =>
    obtain ⟨heap, hm, rfl⟩ := Option.map_eq_some_iff.mp hst
    exact h.mark_live hp.2 hm hl
  | sweep =>
    cases hst
    exact h.sweep

theorem ClientInv.returns (h : ClientInv c) {op : HeapOp} (hp : c.permits op) :
    ∃ c', c.step op = some c' := by
  cases op with
  | alloc size =>
    obtain ⟨heap, res, ha⟩ : ∃ heap res, c.heap.alloc size = some (heap, res) :=
      RegionHeap.alloc_isSome h.current
    cases res <;> exact ⟨_, by rw [Client.step, ha]⟩
  | write hd data =>
    obtain ⟨g, hg, rfl, hlen⟩ := hp
    obtain ⟨r, hr, hend, -⟩ := (h.laid g hg).region
    have hro := h.offset _ r hr
    obtain ⟨b, hb⟩ := Buffer.splice_isSome (b := r.bytes) (s := g.start) (d := data) (by
      unfold Grant.end_ at hend
      omega)
    have hw : c.heap.write g.handle data = some
        { c.heap with regions := c.heap.regions.set g.region { r with bytes := b } } := by
      unfold RegionHeap.write
      rw [show c.heap.regions[g.handle.region.toNat]? = some r from hr]
      simp only [show Buffer.splice r.bytes g.handle.offset.toNat data = some b from hb]
      rfl
    exact ⟨_, by rw [Client.step, hw]; rfl⟩
  | mark_live hd =>
    obtain ⟨⟨g, hg, rfl⟩, -⟩ := hp
    obtain ⟨r, hr, -⟩ := (h.laid g hg).region
    have hm : c.heap.mark_live g.handle = some { c.heap with
        regions := c.heap.regions.set g.region { r with live_count := r.live_count + 1 } } := by
      unfold RegionHeap.mark_live
      rw [show c.heap.regions[g.handle.region.toNat]? = some r from hr]
      rfl
    exact ⟨_, by rw [Client.step, hm]; rfl⟩
  | pre_mark | sweep => exact ⟨_, rfl⟩

theorem clientInv_new {n : Nat} (hn : n ≤ 2 ^ 32) : ClientInv (.new n) where
  toLayout := layout_new hn
  count i r hi := by
    have hr : r = .new := List.eq_of_mem_replicate (List.mem_of_getElem? hi)
    rw [hr]
    rfl
  stored g hg := nomatch hg
  marked g hg := nomatch hg

theorem clientInv_of_run {n : Nat} {tr : History Client HeapOp} (hn : n ≤ 2 ^ 32)
    (h : Run Client.step Client.disciplined (.new n) tr c) : ClientInv c :=
  h.hist (clientInv_new hn) fun _ _ _ _ _ ih hp hst => ClientInv.step ih hp hst

end Ops

/-! ## Isolation and persistence -/

/-- **The region heap isolates its handles and keeps their data.** After any disciplined
sequence of calls every valid handle lies 8-aligned below the bump offset of its region,
apart from the other valid handles of the region, and reads back what was written through
it; a sweep keeps the handles marked since the last `pre_mark`. -/
theorem region_heap_isolates {n : Nat} {tr : History Client HeapOp} {c : Client} (hn : n ≤ 2 ^ 32)
    (h : Run Client.step Client.disciplined (.new n) tr c) :
    (∀ g ∈ c.grants, 8 ∣ g.start ∧
      (∃ r, c.heap.regions[g.region]? = some r ∧ g.end_ ≤ r.offset ∧ r.offset ≤ REGION_SIZE) ∧
      ∀ len ≤ g.written.length, c.heap.read g.handle len = some (g.written.take len)) ∧
    c.grants.Pairwise (fun g g' => g.region = g'.region →
      Disjoint (Set.Ico g.start g.end_) (Set.Ico g'.start g'.end_)) ∧
    ∀ c', c.step .sweep = some c' → ∀ g ∈ c.grants, g.marked → g ∈ c'.grants := by
  have hinv := clientInv_of_run hn h
  refine ⟨fun g hg => ⟨(hinv.laid g hg).aligned, ?_, fun len hlen => ?_⟩, ?_, ?_⟩
  · obtain ⟨r, hr, hend, -⟩ := (hinv.laid g hg).region
    exact ⟨r, hr, hend, hinv.offset _ r hr⟩
  · obtain ⟨r, hr, -⟩ := (hinv.laid g hg).region
    have hread := (hinv.stored g hg).read
    rw [RegionHeap.read_of_region hr] at hread ⊢
    exact Buffer.slice_take hread hlen
  · refine hinv.after.imp fun {g g'} hafter e => ?_
    have hle := hafter e
    rw [Set.Ico_disjoint_Ico]
    omega
  · intro c' hst g hg hm
    cases hst
    obtain ⟨r, hr, -⟩ := (hinv.laid g hg).region
    have hcount := hinv.count _ r hr
    have hpos := hinv.marked g hg hm
    refine List.mem_filter.mpr ⟨hg, ?_⟩
    have hlive : r.live_count ≠ 0 := fun e => by rw [e] at hcount; simp at hcount; omega
    simp [Client.keeps, hr, Region.dead, hlive]

/-- Two handles of one region, one marked; the sweep keeps the region. -/
theorem region_heap_isolates_cycle :
    ∃ tr c, Run Client.step Client.disciplined (.new 2) tr c ∧
      c.heap.read ⟨0, 0⟩ 2 = some [1, 2] := by
  have h0 : Run Client.step Client.disciplined (.new 2) [] (.new 2) := .nil
  have h1 := h0.snoc (show Client.disciplined _ _ (.alloc 3) from trivial) rfl
  have h2 := h1.snoc (show Client.disciplined _ _ (.alloc 8) from trivial) rfl
  have h3 := h2.snoc (show Client.disciplined _ _ (.write ⟨0, 0⟩ [1, 2]) from
    ⟨_, List.mem_cons_of_mem _ List.mem_cons_self, rfl, by decide⟩) rfl
  have h4 := h3.snoc (show Client.disciplined _ _ .pre_mark from trivial) rfl
  have h5 := h4.snoc (show Client.disciplined _ _ (.mark_live ⟨0, 8⟩) from
    ⟨⟨_, List.mem_cons_self, rfl⟩, by decide⟩) rfl
  have h6 := h5.snoc (show Client.disciplined _ _ .sweep from trivial) rfl
  obtain ⟨hread, -⟩ := region_heap_isolates (by decide) h6
  have hlast := hread ⟨⟨0, 0⟩, 3, [1, 2], false⟩ (List.mem_cons_of_mem _ List.mem_cons_self)
  exact ⟨_, _, h6, hlast.2.2 2 (by decide)⟩

end Samsara
