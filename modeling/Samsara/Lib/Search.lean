import Mathlib.Data.Set.Basic
import Mathlib.Data.Set.Finite.Basic
import Mathlib.Logic.Relation

/-!
# Searching a graph

`Reach E R` is the set of nodes reached from `R` along the edges `E`. A search keeps
two sets, `black` (scanned) and `found` (black, or waiting to be scanned). What every
search loop keeps is `Cover E R black found`: the roots are found, and every edge out
of a scanned node leads to a found one. Once everything found is scanned, the scanned
set holds everything reachable (`Cover.reach_subset`). The two ways a loop moves on are
`Cover.mono` (more is found) and `Cover.scan` (one more node is scanned).
-/

namespace Search

variable {α : Type*} {E E' : α → α → Prop} {R R' black black' found found' : Set α} {x y : α}

/-- The nodes reached from `R` along `E`. -/
def Reach (E : α → α → Prop) (R : Set α) : Set α := {y | ∃ r ∈ R, Relation.ReflTransGen E r y}

theorem Reach.root (h : x ∈ R) : x ∈ Reach E R := ⟨x, h, .refl⟩

theorem Reach.step (h : x ∈ Reach E R) (e : E x y) : y ∈ Reach E R := by
  obtain ⟨r, hr, hx⟩ := h
  exact ⟨r, hr, hx.tail e⟩

/-- A set that holds the roots and is closed under the edges holds everything reachable. -/
theorem Reach.subset {S : Set α} (hR : R ⊆ S) (hc : ∀ x ∈ S, ∀ y, E x y → y ∈ S) :
    Reach E R ⊆ S := by
  rintro y ⟨r, hr, h⟩
  induction h with
  | refl => exact hR hr
  | tail _ e ih => exact hc _ ih _ e

theorem Reach.mono (hE : ∀ x y, E x y → E' x y) (hR : R ⊆ R') : Reach E R ⊆ Reach E' R' :=
  Reach.subset (fun _ h => Reach.root (hR h)) fun _ h _ e => Reach.step h (hE _ _ e)

/-- The roots are found, and the edges out of scanned nodes lead to found ones. -/
structure Cover (E : α → α → Prop) (R black found : Set α) : Prop where
  roots : R ⊆ found
  scanned : ∀ x ∈ black, ∀ y, E x y → y ∈ found

theorem Cover.mono (h : Cover E R black found) (hb : black' ⊆ black) (hf : found ⊆ found') :
    Cover E R black' found' :=
  ⟨fun _ hx => hf (h.roots hx), fun _ hx _ e => hf (h.scanned _ (hb hx) _ e)⟩

theorem Cover.scan (h : Cover E R black found) (hb : black' ⊆ insert x black)
    (hf : found ⊆ found') (hx : ∀ y, E x y → y ∈ found') : Cover E R black' found' := by
  refine ⟨fun _ hr => hf (h.roots hr), fun z hz y e => ?_⟩
  rcases hb hz with rfl | hz
  · exact hx y e
  · exact hf (h.scanned z hz y e)

/-- **Once everything found is scanned, everything reachable is.** -/
theorem Cover.reach_subset (h : Cover E R black found) (hd : found ⊆ black) :
    Reach E R ⊆ black :=
  Reach.subset (h.roots.trans hd) fun x hx y e => hd (h.scanned x hx y e)

/-- If moreover only reachable nodes are scanned, the scanned set is the reachable set. -/
theorem Cover.eq_reach (h : Cover E R black found) (hd : found ⊆ black)
    (hs : black ⊆ Reach E R) : black = Reach E R :=
  hs.antisymm (h.reach_subset hd)

end Search
