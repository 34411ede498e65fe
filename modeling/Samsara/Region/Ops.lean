import Samsara.Region.Heap

/-!
# What each heap operation does

One lemma for each operation, about the region at an index before and after it. An
allocation grants bytes of one region and at most closes others (`Grants`, `Refuses`); the
collector's operations touch live counts and `sweep` resets the dead regions. The
invariants of the following modules are derived from these.
-/

namespace Samsara

/-! ## `try_alloc` -/

namespace Region

def close (r : Region) : Region := { r with state := .Full }

theorem try_alloc_some {r r' : Region} {size off : Nat} (h : r.try_alloc size = (r', some off)) :
    off = aligned r.offset ∧ off + size ≤ REGION_SIZE ∧
      r' = { r with offset := off + size, state := .Allocating } := by
  unfold try_alloc at h
  split at h
  · cases h
  next end_ hadd =>
    obtain ⟨-, rfl⟩ := checked_add_eq_some.mp hadd
    split at h
    · cases h
    · next hle =>
      cases h
      exact ⟨rfl, Nat.le_of_not_gt hle, rfl⟩

theorem try_alloc_none {r r' : Region} {size : Nat} (h : r.try_alloc size = (r', none)) :
    r' = r ∨ r' = r.close := by
  unfold try_alloc at h
  split at h
  · cases h; exact .inl rfl
  · split at h <;> cases h
    exact .inr rfl

end Region

/-! ## `alloc` -/

/-- The region at an index is as it was, or has been marked `Full`. -/
def Closes (o o' : Option Region) : Prop := o' = o ∨ o' = o.map Region.close

theorem Closes.refl (o : Option Region) : Closes o o := .inl rfl

theorem Closes.trans {o o₁ o₂ : Option Region} (h : Closes o o₁) (h' : Closes o₁ o₂) :
    Closes o o₂ := by
  rcases h with e | e <;> rcases h' with e' | e' <;> subst e <;> subst e'
  · exact .inl rfl
  · exact .inr rfl
  · exact .inr rfl
  · exact .inr (by rw [Option.map_map]; rfl)

/-- No region grants; some may close. -/
structure Refuses (rs rs' : List Region) : Prop where
  length : rs'.length = rs.length
  closes : ∀ j : Nat, Closes rs[j]? rs'[j]?

/-- Region `i` grants `size` bytes at `off`; others may close. -/
structure Grants (rs rs' : List Region) (size i off : Nat) : Prop where
  length : rs'.length = rs.length
  region : ∃ r, rs[i]? = some r ∧ off = aligned r.offset ∧ off + size ≤ REGION_SIZE ∧
    rs'[i]? = some { r with offset := off + size, state := .Allocating }
  closes : ∀ j : Nat, j ≠ i → Closes rs[j]? rs'[j]?

section Alloc

variable {rs rs₁ rs' : List Region} {r r' : Region} {size i off k : Nat}

theorem Refuses.trans (h : Refuses rs rs₁) (h' : Refuses rs₁ rs') : Refuses rs rs' :=
  ⟨h'.length.trans h.length, fun j => (h.closes j).trans (h'.closes j)⟩

theorem Refuses.grants (h : Refuses rs rs₁) (h' : Grants rs₁ rs' size i off) :
    Grants rs rs' size i off := by
  obtain ⟨hl, ⟨r, hr, hoff, hle, hr'⟩, hc⟩ := h'
  refine ⟨hl.trans h.length, ?_, fun j hj => (h.closes j).trans (hc j hj)⟩
  rcases h.closes i with e | e
  · exact ⟨r, by rw [← e, hr], hoff, hle, hr'⟩
  · -- closing leaves the offset alone
    rw [hr] at e
    obtain ⟨r₀, hr₀, rfl⟩ := Option.map_eq_some_iff.mp e.symm
    exact ⟨r₀, hr₀, hoff, hle, hr'⟩

theorem refuses_set (hr : rs[i]? = some r) (h : r.try_alloc size = (r', none)) :
    Refuses rs (rs.set i r') := by
  refine ⟨List.length_set, fun j => ?_⟩
  by_cases hj : i = j
  · subst hj
    rw [List.getElem?_set_self (List.getElem?_eq_some_iff.mp hr).1, hr]
    rcases r.try_alloc_none h with rfl | rfl
    · exact .inl rfl
    · exact .inr rfl
  · rw [List.getElem?_set_ne hj]
    exact .refl _

theorem grants_set (hr : rs[i]? = some r) (h : r.try_alloc size = (r', some off)) :
    Grants rs (rs.set i r') size i off := by
  obtain ⟨hoff, hle, rfl⟩ := r.try_alloc_some h
  refine ⟨List.length_set, ⟨r, hr, hoff, hle, ?_⟩, fun j hj => ?_⟩
  · rw [List.getElem?_set_self (List.getElem?_eq_some_iff.mp hr).1]
  · rw [List.getElem?_set_ne (Ne.symm hj)]
    exact .refl _

theorem Refuses.cons (hc : Closes (some r) (some r')) (h : Refuses rs rs') :
    Refuses (r :: rs) (r' :: rs') := by
  refine ⟨by simp [h.length], fun j => ?_⟩
  cases j with
  | zero => exact hc
  | succ j => exact h.closes j

theorem Grants.cons (hc : Closes (some r) (some r')) (h : Grants rs rs' size i off) :
    Grants (r :: rs) (r' :: rs') size (i + 1) off := by
  refine ⟨by simp [h.length], h.region, fun j hj => ?_⟩
  cases j with
  | zero => exact hc
  | succ j => exact h.closes j (by omega)

/-- The loop over the free regions: the first that has room grants. -/
theorem allocLoop_spec {found : Option (Nat × Nat)}
    (h : RegionHeap.allocLoop size k rs = (rs', found)) :
    (found = none → Refuses rs rs') ∧
      ∀ m off, found = some (m, off) → ∃ i, m = k + i ∧ Grants rs rs' size i off := by
  induction rs generalizing k rs' found with
  | nil =>
    cases h
    exact ⟨fun _ => ⟨rfl, fun _ => .refl _⟩, fun _ _ e => nomatch e⟩
  | cons r rs ih =>
    -- what the loop does to the tail carries over when the head grants nothing
    have tail {r' : Region} (hc : Closes (some r) (some r'))
        (h : (r' :: (RegionHeap.allocLoop size (k + 1) rs).1,
          (RegionHeap.allocLoop size (k + 1) rs).2) = (rs', found)) :
        (found = none → Refuses (r :: rs) rs') ∧
          ∀ m off, found = some (m, off) → ∃ i, m = k + i ∧ Grants (r :: rs) rs' size i off := by
      cases h
      obtain ⟨hnone, hsome⟩ := ih (k := k + 1) rfl
      refine ⟨fun e => (hnone e).cons hc, fun m off e => ?_⟩
      obtain ⟨i, rfl, hg⟩ := hsome m off e
      exact ⟨i + 1, by omega, hg.cons hc⟩
    unfold RegionHeap.allocLoop at h
    split at h
    · split at h
      · next r' off' hr =>
        cases h
        refine ⟨(fun e => nomatch e), fun m off e => ?_⟩
        cases e
        exact ⟨0, rfl, grants_set (show (r :: rs)[0]? = some r from rfl) hr⟩
      · next r' hr =>
        refine tail ?_ h
        rcases r.try_alloc_none hr with rfl | rfl
        · exact .refl _
        · exact .inr rfl
    · exact tail (.refl _) h

/-- Rounding up a bump offset does not wrap. -/
theorem le_aligned_offset {offset : Nat} (h : offset ≤ REGION_SIZE) : offset ≤ aligned offset :=
  le_aligned (by unfold REGION_SIZE at h; unfold usizeSize; omega)

theorem Grants.bump (h : Grants rs rs' size i off) (hr : rs[i]? = some r)
    (hro : r.offset ≤ REGION_SIZE) : r.offset ≤ off := by
  obtain ⟨r₀, hr₀, hoff, -, -⟩ := h.region
  rw [hr, Option.some.injEq] at hr₀
  rw [hoff, ← hr₀]
  exact le_aligned_offset hro

theorem toNat_ofNat_of_lt {i : Nat} (h : i < 2 ^ 32) : (UInt32.ofNat i).toNat = i := by
  rw [UInt32.toNat_ofNat']
  exact Nat.mod_eq_of_lt h

theorem Grants.handle_toNat (h : Grants rs rs' size i off) (hl : rs.length ≤ 2 ^ 32) :
    (RegionHeap.handle i off).region.toNat = i ∧ (RegionHeap.handle i off).offset.toNat = off := by
  obtain ⟨r, hr, -, hle, -⟩ := h.region
  have hlt : i < rs.length := (List.getElem?_eq_some_iff.mp hr).1
  unfold REGION_SIZE at hle
  exact ⟨toNat_ofNat_of_lt (hlt.trans_le hl), toNat_ofNat_of_lt (by omega)⟩

end Alloc

/-- The two outcomes of `alloc`. -/
inductive AllocMove (h : RegionHeap) (size : Nat) : RegionHeap → Option RegionHandle → Prop where
  | refused {h' : RegionHeap} (hr : Refuses h.regions h'.regions) (hc : h'.current = h.current) :
      AllocMove h size h' none
  | granted {h' : RegionHeap} {i off : Nat} (hg : Grants h.regions h'.regions size i off)
      (hc : h'.current = some i) : AllocMove h size h' (some (RegionHeap.handle i off))

namespace RegionHeap

variable {h h' : RegionHeap} {size : Nat} {res : Option RegionHandle}

theorem allocFree_cases (e : h.allocFree size = (h', res)) : AllocMove h size h' res := by
  unfold allocFree at e
  split at e
  · next rs i off hl =>
    cases e
    obtain ⟨i', rfl, hg⟩ := (allocLoop_spec hl).2 i off rfl
    rw [Nat.zero_add] at *
    exact .granted hg rfl
  · next rs hl =>
    cases e
    exact .refused ((allocLoop_spec hl).1 rfl) rfl

theorem alloc_cases (e : h.alloc size = some (h', res)) : AllocMove h size h' res := by
  unfold alloc at e
  split at e
  · cases e
    exact .refused ⟨rfl, fun _ => .refl _⟩ rfl
  split at e
  · exact allocFree_cases (Option.some.inj e)
  next idx hidx =>
  split at e
  · cases e
  next r hr =>
  split at e
  · next r' off ht =>
    cases e
    exact .granted (grants_set hr ht) hidx
  · next r' ht =>
    -- the current region closes before the loop starts
    have hclose := refuses_set hr ht
    cases allocFree_cases (Option.some.inj e) with
    | refused hr' hc => exact .refused (hclose.trans hr') hc
    | granted hg hc => exact .granted (hclose.grants hg) hc

theorem alloc_isSome (hcur : ∀ i, h.current = some i → i < h.regions.length) :
    ∃ h' res, h.alloc size = some (h', res) := by
  unfold alloc
  split
  · exact ⟨_, _, rfl⟩
  split
  · exact ⟨_, _, rfl⟩
  next idx hidx =>
  rw [List.getElem?_eq_getElem (hcur idx hidx)]
  simp only
  split <;> exact ⟨_, _, rfl⟩

/-! ## `read` and `write` -/

variable {hd hd' : RegionHandle} {data : List UInt8}

theorem write_cases (e : h.write hd data = some h') :
    ∃ r b, h.regions[hd.region.toNat]? = some r ∧
      Buffer.splice r.bytes hd.offset.toNat data = some b ∧
      h' = { h with regions := h.regions.set hd.region.toNat { r with bytes := b } } := by
  unfold write at e
  split at e
  · cases e
  next r hr =>
  split at e
  · cases e
  · next b hb => exact ⟨r, b, hr, hb, (Option.some.inj e).symm⟩

theorem read_of_region {r : Region} {len : Nat} (hr : h.regions[hd.region.toNat]? = some r) :
    h.read hd len = Buffer.slice r.bytes hd.offset.toNat len := by
  unfold read
  rw [hr]

/-! ## `pre_mark`, `mark_live`, `sweep` -/

theorem pre_mark_region (i : Nat) :
    h.pre_mark.regions[i]? = (h.regions[i]?).map fun r => { r with live_count := 0 } :=
  List.getElem?_map

theorem mark_live_cases (e : h.mark_live hd = some h') :
    ∃ r, h.regions[hd.region.toNat]? = some r ∧
      h' = { h with
        regions := h.regions.set hd.region.toNat { r with live_count := r.live_count + 1 } } := by
  unfold mark_live at e
  split at e
  · cases e
  · next r hr => exact ⟨r, hr, (Option.some.inj e).symm⟩

theorem sweepLoop_eq (k : Nat) (rs : List Region) (current : Option Nat) (freed : Nat) :
    ∃ current', sweepLoop k rs current freed =
        (rs.map fun r => if r.dead then r.reset else r, current', freed + rs.countP Region.dead) ∧
      (current' = none ∨ current' = current) := by
  induction rs generalizing k current freed with
  | nil => exact ⟨current, rfl, .inr rfl⟩
  | cons r rs ih =>
    unfold sweepLoop
    by_cases hd : r.dead
    · obtain ⟨current', e, hc⟩ :=
        ih (k + 1) (if current = some k then none else current) (freed + 1)
      rw [if_pos hd, e]
      refine ⟨current', ?_, ?_⟩
      · simp [hd, Nat.add_comm, Nat.add_left_comm]
      · split at hc
        · exact .inl (by tauto)
        · exact hc
    · obtain ⟨current', e, hc⟩ := ih (k + 1) current freed
      rw [if_neg hd, e]
      exact ⟨current', by simp [hd], hc⟩

theorem sweep_spec (h : RegionHeap) :
    h.sweep.1.regions = (h.regions.map fun r => if r.dead then r.reset else r) ∧
      h.sweep.2 = h.regions.countP Region.dead ∧
      (h.sweep.1.current = none ∨ h.sweep.1.current = h.current) := by
  obtain ⟨current', e, hc⟩ := sweepLoop_eq 0 h.regions h.current 0
  simp only [sweep, e, Nat.zero_add]
  exact ⟨trivial, trivial, hc⟩

end RegionHeap

end Samsara
