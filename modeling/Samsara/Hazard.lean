import Mathlib.Logic.Function.Basic

/-!
# Hazard slots and store buffers (`hazard.rs`)

The slots of the registry are the only cells written by plain atomic stores. `Store` is
such a store; a thread's buffer holds its stores that have not reached shared memory yet,
oldest first, and `view` is what the thread's own loads see.
-/

namespace Samsara

/-- The address of a node; `0` is the null pointer. -/
abbrev Addr := Nat

def null : Addr := 0

def MAX_HAZARDS : Nat := 64

structure Slot where
  in_use : Bool
  ptr : Addr
  deriving DecidableEq

/-- The slots by index; those from `MAX_HAZARDS` on are never touched. -/
abbrev Slots := Nat → Slot

/-- A store into a slot. -/
inductive Store where
  /-- `slots[idx].ptr.store(p)`, in `protect` and in `clear` -/
  | ptr (idx : Nat) (p : Addr)
  /-- `slots[idx].in_use.store(false)`, in the guard's `drop` -/
  | in_use (idx : Nat)
  deriving DecidableEq

namespace Store

def idx : Store → Nat
  | .ptr idx _ | .in_use idx => idx

def apply (slots : Slots) : Store → Slots
  | .ptr idx p => Function.update slots idx { slots idx with ptr := p }
  | .in_use idx => Function.update slots idx { slots idx with in_use := false }

theorem apply_of_ne {slots : Slots} {st : Store} {i : Nat} (h : st.idx ≠ i) :
    st.apply slots i = slots i := by
  cases st <;> exact Function.update_of_ne (Ne.symm h) _ _

end Store

/-- The slots after the stores of a buffer. -/
def Slots.after (slots : Slots) (buf : List Store) : Slots := buf.foldl Store.apply slots

namespace Slots

variable {slots slots' : Slots} {buf : List Store} {st : Store} {i : Nat}

@[simp] theorem after_nil : slots.after [] = slots := rfl

@[simp] theorem after_cons : slots.after (st :: buf) = (st.apply slots).after buf := rfl

@[simp] theorem after_append : slots.after (buf ++ [st]) = st.apply (slots.after buf) := by
  simp [after]

theorem after_congr (h : slots' i = slots i) : slots'.after buf i = slots.after buf i := by
  induction buf generalizing slots slots' with
  | nil => exact h
  | cons st buf ih =>
    refine ih ?_
    by_cases e : st.idx = i
    · cases st <;> subst e <;> simp [Store.apply, Store.idx] at h ⊢ <;> rw [h]
    · rw [Store.apply_of_ne e, Store.apply_of_ne e, h]

end Slots

end Samsara
