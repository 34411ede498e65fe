import Samsara.Bump
import Samsara.Lib.Buffer

/-!
# The mark-region heap (`region.rs`)

An operation returns `none` where the Rust code panics (an index or a slice out of
bounds); a refused allocation is `some (_, none)`.
-/

namespace Samsara

def REGION_SIZE : Nat := 32 * 1024

inductive RegionState where
  | Free
  | Allocating
  | Full
  deriving DecidableEq, Repr

structure Region where
  bytes : Fin REGION_SIZE → UInt8
  offset : Nat
  state : RegionState
  live_count : UInt32

namespace Region

def new : Region := ⟨fun _ => 0, 0, .Free, 0⟩

def used (r : Region) : Nat := r.offset

def try_alloc (r : Region) (size : Nat) : Region × Option Nat :=
  match checked_add (aligned r.offset) size with
  | none => (r, none)
  | some end_ =>
    if end_ > REGION_SIZE then ({ r with state := .Full }, none)
    else ({ r with offset := end_, state := .Allocating }, some (aligned r.offset))

def reset (r : Region) : Region := { r with offset := 0, state := .Free, live_count := 0 }

/-- The test of `sweep`. -/
def dead (r : Region) : Bool := r.state ≠ .Free && r.live_count = 0

end Region

structure RegionHandle where
  region : UInt32
  offset : UInt32
  deriving DecidableEq

structure RegionHeap where
  regions : List Region
  current : Option Nat

namespace RegionHeap

def with_regions (n : Nat) : RegionHeap := ⟨List.replicate n .new, none⟩

def n_free (h : RegionHeap) : Nat := h.regions.countP (·.state = .Free)

/-- The casts `idx as u32` and `off as u32`. -/
def handle (i off : Nat) : RegionHandle := ⟨UInt32.ofNat i, UInt32.ofNat off⟩

/-- The loop of `alloc` over the regions from index `i` on: the regions after it, and the
index and offset where a free region had room. -/
def allocLoop (size : Nat) : Nat → List Region → List Region × Option (Nat × Nat)
  | _, [] => ([], none)
  | i, r :: rs =>
    if r.state = .Free then
      match r.try_alloc size with
      | (r', some off) => (r' :: rs, some (i, off))
      | (r', none) =>
        let (rs', found) := allocLoop size (i + 1) rs
        (r' :: rs', found)
    else
      let (rs', found) := allocLoop size (i + 1) rs
      (r :: rs', found)

/-- `alloc` once the current region is unset or has no room. -/
def allocFree (h : RegionHeap) (size : Nat) : RegionHeap × Option RegionHandle :=
  match allocLoop size 0 h.regions with
  | (rs, some (i, off)) => (⟨rs, some i⟩, some (handle i off))
  | (rs, none) => (⟨rs, h.current⟩, none)

def alloc (h : RegionHeap) (size : Nat) : Option (RegionHeap × Option RegionHandle) :=
  if size > REGION_SIZE then some (h, none)
  else
    match h.current with
    | none => some (h.allocFree size)
    | some idx =>
      match h.regions[idx]? with
      | none => none
      | some r =>
        match r.try_alloc size with
        | (r', some off) => some (⟨h.regions.set idx r', h.current⟩, some (handle idx off))
        | (r', none) => some (allocFree ⟨h.regions.set idx r', h.current⟩ size)

def read (h : RegionHeap) (hd : RegionHandle) (len : Nat) : Option (List UInt8) :=
  match h.regions[hd.region.toNat]? with
  | none => none
  | some r => Buffer.slice r.bytes hd.offset.toNat len

def write (h : RegionHeap) (hd : RegionHandle) (data : List UInt8) : Option RegionHeap :=
  match h.regions[hd.region.toNat]? with
  | none => none
  | some r =>
    match Buffer.splice r.bytes hd.offset.toNat data with
    | none => none
    | some bytes =>
      some { h with regions := h.regions.set hd.region.toNat { r with bytes := bytes } }

def pre_mark (h : RegionHeap) : RegionHeap :=
  { h with regions := h.regions.map fun r => { r with live_count := 0 } }

/-- The count wraps, as in a release build. -/
def mark_live (h : RegionHeap) (hd : RegionHandle) : Option RegionHeap :=
  match h.regions[hd.region.toNat]? with
  | none => none
  | some r =>
    some { h with
      regions := h.regions.set hd.region.toNat { r with live_count := r.live_count + 1 } }

/-- The loop of `sweep` from index `i` on: the regions after it, `current` and `freed`. -/
def sweepLoop : Nat → List Region → Option Nat → Nat → List Region × Option Nat × Nat
  | _, [], current, freed => ([], current, freed)
  | i, r :: rs, current, freed =>
    if r.dead then
      let (rs', current', freed') :=
        sweepLoop (i + 1) rs (if current = some i then none else current) (freed + 1)
      (r.reset :: rs', current', freed')
    else
      let (rs', current', freed') := sweepLoop (i + 1) rs current freed
      (r :: rs', current', freed')

def sweep (h : RegionHeap) : RegionHeap × Nat :=
  let (regions, current, freed) := sweepLoop 0 h.regions h.current 0
  (⟨regions, current⟩, freed)

end RegionHeap

end Samsara
