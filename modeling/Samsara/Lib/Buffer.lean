import Mathlib.Data.List.OfFn

/-!
# Windows of a buffer

A buffer of `n` cells is a function on `Fin n`. `slice` reads a window and `splice` copies
a list over one; both fail out of bounds. `mem_slice` says what a slice holds, cell by
cell, and the laws below say what a splice does to the slices around it: it leaves the
disjoint ones alone (`slice_splice_of_disjoint`) and overlays those that start where it
does (`slice_splice_self`). Lemmas about the entries of a changed list, and of two lists
related entry by entry, close the file.
-/

namespace Buffer

variable {α : Type*} {n : Nat} {b b' : Fin n → α} {s o len : Nat} {d w : List α}

/-- `b[start..start + len]`. -/
def slice (b : Fin n → α) (start len : Nat) : Option (List α) :=
  if h : start + len ≤ n then some (List.ofFn fun i : Fin len => b ⟨start + i, by omega⟩)
  else none

/-- `b[start..start + data.len()].copy_from_slice(data)`. -/
def splice (b : Fin n → α) (start : Nat) (data : List α) : Option (Fin n → α) :=
  if start + data.length ≤ n then
    some fun i => if h : start ≤ i ∧ i < start + data.length then data[i.val - start] else b i
  else none

theorem slice_eq_some : slice b s len = some w ↔
    s + len ≤ n ∧ w.length = len ∧ ∀ i (h : s + i < n), i < len → w[i]? = some (b ⟨s + i, h⟩) := by
  unfold slice
  constructor
  · intro h
    split at h
    · next hn =>
      cases h
      refine ⟨hn, List.length_ofFn, fun i _ hi => ?_⟩
      rw [List.getElem?_ofFn, dif_pos hi]
    · cases h
  · rintro ⟨hn, rfl, hw⟩
    rw [dif_pos hn, Option.some.injEq]
    refine List.ext_getElem? fun i => ?_
    by_cases hi : i < w.length
    · rw [List.getElem?_ofFn, dif_pos hi, hw i (by omega) hi]
    · rw [List.getElem?_eq_none (by simpa using hi), List.getElem?_eq_none (by omega)]

theorem slice_congr (h : ∀ i : Fin n, o ≤ i → i < o + len → b' i = b i) :
    slice b' o len = slice b o len := by
  unfold slice
  by_cases hn : o + len ≤ n
  · rw [dif_pos hn, dif_pos hn]
    have hcells : ∀ i : Fin len, b' ⟨o + i, by omega⟩ = b ⟨o + i, by omega⟩ := fun i =>
      h _ (Nat.le_add_right _ _) (Nat.add_lt_add_left i.isLt o)
    simp only [hcells]
  · rw [dif_neg hn, dif_neg hn]

theorem slice_take (h : slice b s w.length = some w) (hl : len ≤ w.length) :
    slice b s len = some (w.take len) := by
  obtain ⟨hn, -, hw⟩ := slice_eq_some.mp h
  refine slice_eq_some.mpr ⟨by omega, by simpa using hl, fun i hi hlt => ?_⟩
  rw [List.getElem?_take_of_lt hlt, hw i hi (by omega)]

theorem splice_bound (h : splice b s d = some b') : s + d.length ≤ n := by
  unfold splice at h
  split at h
  · assumption
  · cases h

theorem splice_isSome (h : s + d.length ≤ n) : ∃ b', splice b s d = some b' := by
  unfold splice
  rw [if_pos h]
  exact ⟨_, rfl⟩

theorem splice_outside (h : splice b s d = some b') {i : Fin n}
    (hi : i < s ∨ s + d.length ≤ i) : b' i = b i := by
  unfold splice at h
  rw [if_pos (splice_bound h)] at h
  cases h
  exact dif_neg (by omega)

theorem splice_inside (h : splice b s d = some b') {i : Nat} (hi : i < d.length) (hn : s + i < n) :
    d[i]? = some (b' ⟨s + i, hn⟩) := by
  unfold splice at h
  rw [if_pos (splice_bound h)] at h
  cases h
  simp only
  rw [dif_pos ⟨Nat.le_add_right _ _, Nat.add_lt_add_left hi s⟩, List.getElem?_eq_getElem hi]
  simp only [Nat.add_sub_cancel_left]

theorem slice_splice_of_disjoint (h : splice b s d = some b')
    (hd : o + len ≤ s ∨ s + d.length ≤ o) : slice b' o len = slice b o len :=
  slice_congr fun i h1 h2 => splice_outside h (by omega)

/-- **Over a window that starts where it does, a splice is an overlay.** -/
theorem slice_splice_self (h : splice b s d = some b') (hw : slice b s w.length = some w) :
    slice b' s (d ++ w.drop d.length).length = some (d ++ w.drop d.length) := by
  obtain ⟨hn, -, hget⟩ := slice_eq_some.mp hw
  have hb := splice_bound h
  refine slice_eq_some.mpr ⟨?_, rfl, fun i hi hlt => ?_⟩
  · simp only [List.length_append, List.length_drop]
    omega
  by_cases hid : i < d.length
  · rw [List.getElem?_append_left hid, splice_inside h hid hi]
  · simp only [List.length_append, List.length_drop] at hlt
    rw [List.getElem?_append_right (by omega), List.getElem?_drop,
      show d.length + (i - d.length) = i by omega, hget i hi (by omega),
      splice_outside h (.inr (by simp only; omega))]

/-! ## Entries of a list -/

variable {l : List α} {x y : α} {i k : Nat}

theorem getElem?_set_cases (h : (l.set k x)[i]? = some y) :
    (i = k ∧ y = x) ∨ (i ≠ k ∧ l[i]? = some y) := by
  by_cases e : k = i
  · subst e
    rw [List.getElem?_set_self (by simpa using (List.getElem?_eq_some_iff.mp h).1)] at h
    exact .inl ⟨rfl, (Option.some.inj h).symm⟩
  · rw [List.getElem?_set_ne e] at h
    exact .inr ⟨Ne.symm e, h⟩

theorem getElem?_concat_cases (h : (l ++ [x])[i]? = some y) :
    (i = l.length ∧ y = x) ∨ (i < l.length ∧ l[i]? = some y) := by
  rcases Nat.lt_trichotomy i l.length with hi | rfl | hi
  · rw [List.getElem?_append_left hi] at h
    exact .inr ⟨hi, h⟩
  · rw [List.getElem?_concat_length] at h
    exact .inl ⟨rfl, (Option.some.inj h).symm⟩
  · have hlen : (l ++ [x]).length ≤ i := by simpa using Nat.succ_le_of_lt hi
    rw [List.getElem?_eq_none hlen] at h
    cases h

/-! ## Entries of two lists -/

section Entries

variable {β : Type*} {R : α → β → Prop} {l' : List β} {z : β}

theorem forall₂_getElem? (h : List.Forall₂ R l l') (i : Nat) : Option.Rel R l[i]? l'[i]? := by
  induction h generalizing i with
  | nil => exact .none
  | cons hxz _ ih =>
    cases i with
    | zero => exact .some hxz
    | succ i => exact ih i

theorem forall₂_set (h : List.Forall₂ R l l') (hx : R x z) (i : Nat) :
    List.Forall₂ R (l.set i x) (l'.set i z) := by
  induction h generalizing i with
  | nil => exact .nil
  | cons hyz hl ih =>
    cases i with
    | zero => exact .cons hx hl
    | succ i => exact .cons hyz (ih i)

end Entries

end Buffer
