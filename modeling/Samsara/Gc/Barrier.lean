import Mathlib.Tactic.TypeStar

/-!
# Phase, mark stack, remembered set (`barrier.rs`, `atomic.rs`, `remembered_set.rs`)

The shared cells of the concurrent collector. Each operation below is one atomic
step: an atomic load, store or compare-and-swap, or one critical section of a mutex.
-/

namespace Samsara

inductive Phase where
  | Idle
  | Marking
  | Sweeping
  deriving DecidableEq, Repr

/-! ## `AtomicPhase` -/

def PHASE_IDLE : UInt8 := 0
def PHASE_MARKING : UInt8 := 1
def PHASE_SWEEPING : UInt8 := 2

def encode : Phase → UInt8
  | .Idle => PHASE_IDLE
  | .Marking => PHASE_MARKING
  | .Sweeping => PHASE_SWEEPING

/-- `none` is the `unreachable!` arm. -/
def decode (v : UInt8) : Option Phase :=
  if v = PHASE_IDLE then some .Idle
  else if v = PHASE_MARKING then some .Marking
  else if v = PHASE_SWEEPING then some .Sweeping
  else none

@[simp] theorem decode_encode (p : Phase) : decode (encode p) = some p := by
  cases p <;> rfl

theorem encode_inj {p q : Phase} : encode p = encode q ↔ p = q :=
  ⟨fun h => Option.some.inj (by rw [← decode_encode p, h, decode_encode]), fun h => by rw [h]⟩

/-- The atomic byte. Only encoded phases are ever stored, so it always decodes. -/
structure AtomicPhase where
  byte : UInt8
  valid : ∃ p, byte = encode p

namespace AtomicPhase

def store (p : Phase) : AtomicPhase := ⟨encode p, p, rfl⟩

def new : AtomicPhase := store .Idle

def load (a : AtomicPhase) : Phase :=
  (decode a.byte).get (by obtain ⟨p, hp⟩ := a.valid; rw [hp, decode_encode]; rfl)

/-- The compare-and-swap: the cell after it and whether it succeeded. -/
def transition (a : AtomicPhase) (from_ to_ : Phase) : AtomicPhase × Bool :=
  if a.byte = encode from_ then (store to_, true) else (a, false)

@[simp] theorem load_store (p : Phase) : (store p).load = p := by
  simp [load, store]

theorem byte_eq (a : AtomicPhase) : a.byte = encode a.load := by
  obtain ⟨p, hp⟩ := a.valid
  simp [load, hp]

theorem load_transition (a : AtomicPhase) (from_ to_ : Phase) :
    (a.transition from_ to_).1.load = if a.load = from_ then to_ else a.load := by
  simp only [transition, byte_eq, encode_inj]
  split <;> simp

end AtomicPhase

/-! ## `MarkStack` -/

/-- The `Vec` of the mark stack, listed from its top. -/
structure MarkStack where
  objects : List UInt32

namespace MarkStack

def new : MarkStack := ⟨[]⟩

def push (s : MarkStack) (id : UInt32) : MarkStack := ⟨id :: s.objects⟩

def pop (s : MarkStack) : Option UInt32 × MarkStack :=
  match s.objects with
  | [] => (none, s)
  | id :: rest => (some id, ⟨rest⟩)

def is_empty (s : MarkStack) : Bool := s.objects.isEmpty

end MarkStack

/-! ## `RememberedSet` -/

/-- The `Vec` of the remembered set, oldest record first. -/
structure RememberedSet where
  inner : List UInt32

namespace RememberedSet

def new : RememberedSet := ⟨[]⟩

def record (r : RememberedSet) (id : UInt32) : RememberedSet := ⟨r.inner ++ [id]⟩

def drain (r : RememberedSet) : List UInt32 × RememberedSet := (r.inner, ⟨[]⟩)

end RememberedSet

end Samsara
