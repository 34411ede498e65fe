import Mathlib.Data.List.Basic
import Mathlib.Data.List.Nodup

/-!
# Linked lists in a heap

`Linked next null a l`: following `next` from `a` visits the cells of `l` in order and
ends at `null`. `next` is any partial successor function, so the lemmas serve every node
type.

`own` assigns a place to every cell. `Chain` says that the cells at the place `x` are those
of the list, once each: a cell is pushed in front of the list, popped from it, or moves
between other places and leaves the list alone.
-/

inductive Linked {α : Type*} (next : α → Option α) (null : α) : α → List α → Prop where
  | nil : Linked next null null []
  | cons {a b : α} {l : List α} (ha : a ≠ null) (hn : next a = some b) (h : Linked next null b l) :
      Linked next null a (a :: l)

namespace Linked

variable {α : Type*} {next next' : α → Option α} {null a b : α} {l : List α}

/-- Only the successors of the cells of the list matter. -/
theorem congr (h : Linked next null a l) (hn : ∀ x ∈ l, next' x = next x) :
    Linked next' null a l := by
  induction h with
  | nil => exact .nil
  | cons ha hb _ ih =>
    exact .cons ha ((hn _ List.mem_cons_self).trans hb)
      (ih fun x hx => hn x (List.mem_cons_of_mem _ hx))

theorem eq_nil (h : Linked next null a l) (ha : a = null) : l = [] := by
  cases h with
  | nil => rfl
  | cons hne => exact absurd ha hne

theorem uncons (h : Linked next null a l) (ha : a ≠ null) :
    ∃ b l', l = a :: l' ∧ next a = some b ∧ Linked next null b l' := by
  cases h with
  | nil => exact absurd rfl ha
  | cons _ hn h => exact ⟨_, _, rfl, hn, h⟩

end Linked

section Places

variable {α P : Type*} [DecidableEq α] {own : α → P} {x y : P} {a : α}

/-- What the place `x` says of the cells, after the cell `a` has moved to `y`. -/
theorem place_update {Q Q' : α → Prop} (h : ∀ b, own b = x ↔ Q b) (ha : y = x ↔ Q' a)
    (hb : ∀ b, b ≠ a → (Q' b ↔ Q b)) (b : α) : Function.update own a y b = x ↔ Q' b := by
  rcases eq_or_ne b a with rfl | e
  · rwa [Function.update_self]
  · rw [Function.update_of_ne e, h b, hb b e]

theorem place_move {Q : α → Prop} (h : ∀ b, own b = x ↔ Q b) (ha : own a ≠ x) (hy : y ≠ x)
    (b : α) : Function.update own a y b = x ↔ Q b :=
  place_update h (by simpa [hy] using (h a).not.1 ha) (fun _ _ => .rfl) b

/-- `l` is linked from `head`, and `own` puts its cells, no others, at `x`. -/
structure Chain (next : α → Option α) (null head : α) (own : α → P) (x : P) (l : List α) :
    Prop where
  links : Linked next null head l
  nodup : l.Nodup
  linked : ∀ a, own a = x ↔ a ∈ l

namespace Chain

variable {next next' : α → Option α} {null head n : α} {l : List α}

theorem move (h : Chain next null head own x l) (ha : own a ≠ x) (hy : y ≠ x)
    (hn : ∀ b, b ≠ a → next' b = next b) :
    Chain next' null head (Function.update own a y) x l where
  links := by
    refine h.links.congr fun b hb => hn b ?_
    rintro rfl
    exact ha ((h.linked b).2 hb)
  nodup := h.nodup
  linked := place_move h.linked ha hy

theorem push (h : Chain next null head own x l) (hnull : a ≠ null) (ha : own a ≠ x)
    (hn : next a = some head) : Chain next null a (Function.update own a x) x (a :: l) where
  links := .cons hnull hn h.links
  nodup := List.nodup_cons.2 ⟨(h.linked a).not.1 ha, h.nodup⟩
  linked := place_update h.linked (by simp) fun b hb => by simp [hb]

theorem pop (h : Chain next null head own x l) (hnull : head ≠ null) (hy : y ≠ x)
    (hn : next head = some n) :
    ∃ l', l = head :: l' ∧ Chain next null n (Function.update own head y) x l' := by
  obtain ⟨b, l', rfl, hb, hlinks⟩ := h.links.uncons hnull
  obtain rfl : n = b := Option.some.inj (hn.symm.trans hb)
  obtain ⟨hl, hnd⟩ := List.nodup_cons.1 h.nodup
  exact ⟨l', rfl, hlinks, hnd, place_update h.linked (by simp [hy, hl]) fun b hb => by simp [hb]⟩

omit [DecidableEq α] in
theorem head_linked (h : Chain next null head own x l) (hnull : head ≠ null) : own head = x := by
  obtain ⟨b, l', rfl, -, -⟩ := h.links.uncons hnull
  exact (h.linked head).2 List.mem_cons_self

end Chain

end Places
