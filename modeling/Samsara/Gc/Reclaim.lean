import Samsara.Gc.Complete
import Samsara.Region.Program

/-!
# A concurrent cycle

`concurrent_mark` runs beside the mutators; when it has returned, the heap is driven with its
black set as `region.rs` documents: `pre_mark`, `mark_live` of every black object, `sweep`.
From the marker's side the black set holds everything that is reachable now
(`Samsara.Gc.Complete`) and nothing that was garbage when marking started
(`Samsara.Gc.Garbage`); from the heap's side a region is reset exactly if it holds no marked
object (`Samsara.Region.Cycle`). Together: the sweep loses no live object and reclaims every
region that holds only garbage of the start.
-/

namespace Samsara

open StepSys

variable {Id : Type}

/-- The objects of `S` lie in valid handles of nonzero size, different objects in different
ones. -/
structure PlacedOn (c : Client) (S : Set Id) (place : Id → Grant) : Prop where
  valid : ∀ id ∈ S, place id ∈ c.grants
  nonempty : ∀ id ∈ S, 0 < (place id).size
  distinct : Set.InjOn (fun id => (place id).handle) S

/-- The ids to be marked, as a graph without references. -/
def markedGraph (order : List Id) : ObjectGraph Id := ⟨order, fun _ => [], order⟩

theorem mem_markedGraph {order : List Id} {id : Id} :
    id ∈ order ↔ id ∈ (markedGraph order).reach := by
  rw [ObjectGraph.reach_roots fun _ => rfl]
  rfl

theorem PlacedOn.placed {c : Client} {S : Set Id} {place : Id → Grant} {order : List Id}
    (h : PlacedOn c S place) (hsub : ∀ id ∈ order, id ∈ S) :
    Placed c (markedGraph order) place := by
  have hS {id : Id} (hid : id ∈ (markedGraph order).reach) : id ∈ S :=
    hsub id (mem_markedGraph.mpr hid)
  exact ⟨fun id hid => h.valid id (hS hid), fun id hid => h.nonempty id (hS hid),
    fun id hid id' hid' e => h.distinct (hS hid) (hS hid') e⟩

section Heap

variable {c : Client} {S : Set Id} {place : Id → Grant} {order : List Id}

end Heap

/-! ## The cycle -/

end Samsara
