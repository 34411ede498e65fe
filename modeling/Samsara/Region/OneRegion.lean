import Samsara.Arena
import Samsara.Region.Refusal

/-!
# The arena and a heap of one region

Both are asked the same: where the arena gets a handle `o`, the heap gets the handle with
region 0 and offset `o`, and where the arena is `reset`, the heap is told `pre_mark` and
`sweep`. `OneRegion` relates the two; they give the same answers, refusals and panics
included (`arena_is_one_region_heap`).
-/

namespace Samsara

open Lockstep

/-- A call on a bump allocator; `o` is the offset in a handle. -/
inductive BumpCall where
  | alloc (size : Nat)
  | write (o : UInt32) (data : List UInt8)
  | read (o : UInt32) (len : Nat)
  | reset
  | used

/-- `RegionHandle { region: 0, offset: o }` -/
def inRegion0 (o : UInt32) : RegionHandle := ⟨0, o⟩

/-- The arena, its handles renamed. -/
def Arena.serves {cap : Nat} (a : Arena cap) : BumpCall → Option (Arena cap × Answer)
  | .alloc size => some ((a.alloc size).1, .handle ((a.alloc size).2.map fun h => inRegion0 h.val))
  | .write o data => (a.write ⟨o⟩ data).map fun a' => (a', .done)
  | .read o len => (a.read ⟨o⟩ len).map fun data => (a, .bytes data)
  | .reset => some (a.reset, .done)
  | .used => some (a, .count a.used)

def RegionHeap.serves (h : RegionHeap) : BumpCall → Option (RegionHeap × Answer)
  | .alloc size => h.answer (.alloc size)
  | .write o data => h.answer (.write (inRegion0 o) data)
  | .read o len => h.answer (.read (inRegion0 o) len)
  | .reset => some (h.pre_mark.sweep.1, .done)
  | .used => h.answer (.used 0)

/-- The one region has the arena's bytes and bump offset, and is current unless it is free. -/
structure OneRegion (a : Arena REGION_SIZE) (h : RegionHeap) : Prop extends Consistent h where
  region : ∃ r, h.regions = [r] ∧ r.bytes = a.bytes ∧ r.offset = a.offset ∧
    (h.current = none → r.state = .Free)

namespace OneRegion

variable {a : Arena REGION_SIZE} {h : RegionHeap} {r : Region} {size : Nat}

theorem fits_iff (ho : r.offset = a.offset) : r.fits size ↔ a.fits size := by
  unfold Region.fits Arena.fits
  rw [ho]

theorem granted (hb : r.bytes = a.bytes) (ho : r.offset = a.offset) (hf : r.fits size)
    (hc : Consistent ⟨[r.bump size], some 0⟩) :
    OneRegion (a.alloc size).1 ⟨[r.bump size], some 0⟩ ∧
      some (RegionHeap.handle 0 (aligned r.offset)) =
        (a.alloc size).2.map fun x => inRegion0 x.val := by
  rw [a.alloc_of_fits (by decide) ((fits_iff ho).mp hf), ← ho]
  exact ⟨⟨hc, r.bump size, rfl, hb, rfl, fun e => nomatch e⟩, rfl⟩

/-- Where the region refuses, at most its label changes. -/
theorem refused (hf : ¬ a.fits size) (hr : OneRegion a h) :
    OneRegion (a.alloc size).1 h ∧
      none = (a.alloc size).2.map fun x => inRegion0 x.val := by
  rw [a.alloc_of_not_fits hf]
  exact ⟨hr, rfl⟩

theorem alloc (hr : OneRegion a h) (size : Nat) : ∃ h',
    h.alloc size = some (h', (a.alloc size).2.map fun x => inRegion0 x.val) ∧
      OneRegion (a.alloc size).1 h' := by
  obtain ⟨h', res, e⟩ : ∃ h' res, h.alloc size = some (h', res) := hr.alloc_isSome
  suffices hres : OneRegion (a.alloc size).1 h' ∧
      res = (a.alloc size).2.map fun x => inRegion0 x.val from ⟨h', hres.2 ▸ e, hres.1⟩
  have hc' := hr.toConsistent.alloc e
  obtain ⟨r, hrs, hb, ho, hfree⟩ := hr.region
  -- the only index is 0
  have hzero {rs : List Region} {r₁ r₂ : Region} {i : Nat} (hrs : rs = [r₁])
      (hi : rs[i]? = some r₂) : i = 0 ∧ r₂ = r₁ := by
    subst hrs
    cases i with
    | zero => exact ⟨rfl, (Option.some.inj hi).symm⟩
    | succ i => cases hi
  have hcase := hr.alloc_cases e
  cases hcase with
  | oversized hs =>
    refine refused (fun hf => ?_) hr
    unfold Arena.fits at hf
    omega
  | bump hs hcur hi hf =>
    obtain ⟨rfl, rfl⟩ := hzero hrs hi
    rw [hrs, hcur] at hc' ⊢
    exact granted hb ho hf hc'
  | opens hs hsp hi hopen hfirst =>
    cases hsp with
    | unset hcur =>
      obtain ⟨rfl, rfl⟩ := hzero hrs hi
      have hf := Region.fits_of_offset_zero (hr.free 0 _ hi hopen) hs
      rw [hrs] at hc' ⊢
      exact granted hb ho hf hc'
    | full hcur hr' hf =>
      -- the current region is closed, and there is no other
      obtain ⟨rfl, rfl⟩ := hzero hrs hr'
      rw [hrs] at hi
      obtain ⟨-, rfl⟩ := hzero rfl hi
      cases hopen
  | exhausted hs hsp hno =>
    cases hsp with
    | unset hcur =>
      refine absurd (hfree hcur) (hno r ?_)
      rw [hrs]
      exact List.mem_cons_self
    | full hcur hr' hf =>
      obtain ⟨rfl, rfl⟩ := hzero hrs hr'
      rw [hrs] at hc' ⊢
      exact refused (fun hfa => hf ((fits_iff ho).mpr hfa))
        ⟨hc', _, rfl, hb, ho, fun e => nomatch hcur.symm.trans e⟩

theorem write (hr : OneRegion a h) (o : UInt32) (data : List UInt8) :
    Option.Rel OneRegion (a.write ⟨o⟩ data) (h.write (inRegion0 o) data) := by
  obtain ⟨r, hrs, hb, ho, hfree⟩ := hr.region
  have hc {h' : RegionHeap} (e : h.write (inRegion0 o) data = some h') : Consistent h' :=
    hr.toConsistent.call (show h.call (.write (inRegion0 o) data) = some h' from e)
  unfold Arena.write RegionHeap.write at *
  rw [hrs] at hc ⊢
  simp only [inRegion0, UInt32.toNat_zero, List.getElem?_cons_zero, hb] at hc ⊢
  cases hs : Buffer.splice a.bytes o.toNat data with
  | none => exact .none
  | some b =>
    rw [hs] at hc
    exact .some ⟨hc rfl, { r with bytes := b }, rfl, rfl, ho, hfree⟩

theorem read (hr : OneRegion a h) (o : UInt32) (len : Nat) :
    a.read ⟨o⟩ len = h.read (inRegion0 o) len := by
  obtain ⟨r, hrs, hb, -⟩ := hr.region
  have hi : h.regions[(inRegion0 o).region.toNat]? = some r := by
    rw [hrs]
    rfl
  rw [RegionHeap.read_of_region hi, hb]
  rfl

/-- After `pre_mark` the region is dead unless it is free: `sweep` resets it. -/
theorem reset (hr : OneRegion a h) : OneRegion a.reset h.pre_mark.sweep.1 := by
  have hc : Consistent h.pre_mark.sweep.1 :=
    (hr.toConsistent.call (show h.call .pre_mark = some h.pre_mark from rfl)).sweep
  obtain ⟨r, hrs, hb, ho, hfree⟩ := hr.region
  refine ⟨hc, ?_⟩
  have hpre : h.pre_mark.regions = [{ r with live_count := 0 }] := by
    rw [RegionHeap.pre_mark, hrs]
    rfl
  have hsweep := h.pre_mark.sweep_spec.1
  rw [hpre] at hsweep
  by_cases hst : r.state = .Free
  · have hd : Region.dead { r with live_count := 0 } = false := by simp [Region.dead, hst]
    refine ⟨{ r with live_count := 0 }, by simpa [hd] using hsweep, hb, ?_, fun _ => hst⟩
    exact hr.free 0 r (by rw [hrs]; rfl) hst
  · have hd : Region.dead { r with live_count := 0 } = true := by simp [Region.dead, hst]
    refine ⟨Region.reset { r with live_count := 0 }, ?_, hb, rfl, fun _ => rfl⟩
    simpa [hd] using hsweep

/-- **One call**, on the two sides. -/
theorem serves (hr : OneRegion a h) (q : BumpCall) :
    Alike OneRegion (a.serves q) (h.serves q) := by
  cases q with
  | alloc size =>
    obtain ⟨h', e, hr'⟩ := hr.alloc size
    have hs : h.serves (.alloc size) = some (h', .handle _) := congrArg (Option.map _) e
    rw [hs]
    exact .some ⟨hr', rfl⟩
  | write o data => exact .update (hr.write o data) Answer.done
  | read o len => exact .query hr (hr.read o len) Answer.bytes
  | reset => exact .some ⟨hr.reset, rfl⟩
  | used =>
    obtain ⟨r, hrs, -, ho, -⟩ := hr.region
    have hs : h.serves .used = some (h, .count r.used) := by
      simp only [RegionHeap.serves, RegionHeap.answer, hrs]
      rfl
    rw [hs]
    exact .some ⟨hr, congrArg Answer.count ho.symm⟩

theorem init : OneRegion (Arena.with_capacity REGION_SIZE) (.with_regions 1) :=
  ⟨.with_regions 1, .new, rfl, rfl, rfl, fun _ => rfl⟩

end OneRegion

/-- **The arena and a one-region heap are the same allocator.** Every sequence of calls gets
the same answers from both: an `alloc` of any size succeeds on one side when it does on the
other, at the same offset, `used` agrees, and a read returns the same bytes or panics on
both sides. -/
theorem arena_is_one_region_heap (qs : List BumpCall) :
    Alike OneRegion (serve Arena.serves (Arena.with_capacity REGION_SIZE) qs)
      (serve RegionHeap.serves (RegionHeap.with_regions 1) qs) :=
  serve_alike (fun _ _ q hr => hr.serves q) OneRegion.init qs

end Samsara
