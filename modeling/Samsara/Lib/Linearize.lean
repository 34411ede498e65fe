import Mathlib.Data.List.Perm.Basic
import Mathlib.Logic.Function.Basic

/-!
# Linearizability

Threads call operations of a shared object and get results back; every step of a run is a
call, a return or internal (`Event`). `Linear seq q₀ es effs st q` assigns effects to the
internal steps of the events `es`: an operation takes effect at most once, at a step after
its call, with the result the sequential object `seq` gives there, and a return is only
allowed after the effect and with its result. `effs` lists the effects in their order,
`st` says where each thread is, `q` is the abstract state. `Advance` is what one more event
may do to `st` and `q`: to show that a system is linearizable, show that its steps advance
them (`Linear.advance`).

`Lifo` is the sequential stack; what its runs push is what they pop and what is left.
-/

namespace Linearize

/-- A step of a run as its environment sees it. -/
inductive Event (T Op Res : Type*) where
  | call (t : T) (op : Op)
  | ret (t : T) (r : Res)
  | internal

/-- Where a thread's current operation is. -/
inductive Status (Op Res : Type*) where
  | idle
  | called (op : Op)
  | done (op : Op) (r : Res)

variable {T Op Res Q : Type*} [DecidableEq T]

inductive Linear (seq : Q → Op → Res → Q → Prop) (q₀ : Q) :
    List (Event T Op Res) → List (T × Op × Res) → (T → Status Op Res) → Q → Prop where
  | nil : Linear seq q₀ [] [] (fun _ => .idle) q₀
  | call {es : List (Event T Op Res)} {effs : List (T × Op × Res)} {st : T → Status Op Res} {q : Q}
      {t : T} {op : Op} (h : Linear seq q₀ es effs st q) (ht : st t = .idle) :
      Linear seq q₀ (es ++ [.call t op]) effs (Function.update st t (.called op)) q
  | ret {es : List (Event T Op Res)} {effs : List (T × Op × Res)} {st : T → Status Op Res} {q : Q}
      {t : T} {op : Op} {r : Res} (h : Linear seq q₀ es effs st q) (ht : st t = .done op r) :
      Linear seq q₀ (es ++ [.ret t r]) effs (Function.update st t .idle) q
  | silent {es : List (Event T Op Res)} {effs : List (T × Op × Res)} {st : T → Status Op Res}
      {q : Q} (h : Linear seq q₀ es effs st q) : Linear seq q₀ (es ++ [.internal]) effs st q
  | effect {es : List (Event T Op Res)} {effs : List (T × Op × Res)} {st : T → Status Op Res}
      {q q' : Q} {t : T} {op : Op} {r : Res} (h : Linear seq q₀ es effs st q)
      (ht : st t = .called op) (hq : seq q op r q') :
      Linear seq q₀ (es ++ [.internal]) (effs ++ [(t, op, r)])
        (Function.update st t (.done op r)) q'

/-- One more event, with the threads at `st` and the abstract state `q` before it. -/
inductive Advance (seq : Q → Op → Res → Q → Prop) (st : T → Status Op Res) (q : Q) :
    Event T Op Res → (T → Status Op Res) → Q → Prop where
  | call {t : T} {op : Op} (ht : st t = .idle) :
      Advance seq st q (.call t op) (Function.update st t (.called op)) q
  | ret {t : T} {op : Op} {r : Res} (ht : st t = .done op r) :
      Advance seq st q (.ret t r) (Function.update st t .idle) q
  | silent : Advance seq st q .internal st q
  | effect {t : T} {op : Op} {r : Res} {q' : Q} (ht : st t = .called op) (hq : seq q op r q') :
      Advance seq st q .internal (Function.update st t (.done op r)) q'

theorem Advance.keep {seq : Q → Op → Res → Q → Prop} {st : T → Status Op Res} {q : Q} (t : T) :
    Advance seq st q .internal (Function.update st t (st t)) q := by
  rw [Function.update_eq_self]
  exact .silent

/-- **An event that advances the threads and the abstract state linearizes.** -/
theorem Linear.advance {seq : Q → Op → Res → Q → Prop} {q₀ q q' : Q} {es : List (Event T Op Res)}
    {effs : List (T × Op × Res)} {st st' : T → Status Op Res} {e : Event T Op Res}
    (h : Linear seq q₀ es effs st q) (ha : Advance seq st q e st' q') :
    ∃ effs', Linear seq q₀ (es ++ [e]) effs' st' q' := by
  cases ha with
  | call ht => exact ⟨_, h.call ht⟩
  | ret ht => exact ⟨_, h.ret ht⟩
  | silent => exact ⟨_, h.silent⟩
  | effect ht hq => exact ⟨_, h.effect ht hq⟩

/-- A run of the sequential object. -/
inductive SeqRun (seq : Q → Op → Res → Q → Prop) (q₀ : Q) : List (T × Op × Res) → Q → Prop where
  | nil : SeqRun seq q₀ [] q₀
  | snoc {effs : List (T × Op × Res)} {q q' : Q} {t : T} {op : Op} {r : Res}
      (h : SeqRun seq q₀ effs q) (hq : seq q op r q') :
      SeqRun seq q₀ (effs ++ [(t, op, r)]) q'

/-- **The effects are a run of the sequential object.** -/
theorem Linear.seqRun {seq : Q → Op → Res → Q → Prop} {q₀ q : Q} {es : List (Event T Op Res)}
    {effs : List (T × Op × Res)} {st : T → Status Op Res} (h : Linear seq q₀ es effs st q) :
    SeqRun seq q₀ effs q := by
  induction h with
  | nil => exact .nil
  | call _ _ ih | ret _ _ ih | silent _ ih => exact ih
  | effect _ _ hq ih => exact .snoc ih hq

/-! ## The sequential stack -/

inductive StackOp (V : Type*) where
  | push (v : V)
  | pop

inductive StackRes (V : Type*) where
  | pushed
  | popped (v : Option V)

inductive Lifo {V : Type*} : List V → StackOp V → StackRes V → List V → Prop where
  | push {v : V} {q : List V} : Lifo q (.push v) .pushed (v :: q)
  | pop {v : V} {q : List V} : Lifo (v :: q) .pop (.popped (some v)) q
  | empty : Lifo [] .pop (.popped none) []

variable {V : Type*}

def pushes (effs : List (T × StackOp V × StackRes V)) : List V :=
  effs.filterMap fun e => match e.2.1 with
    | .push v => some v
    | .pop => none

def pops (effs : List (T × StackOp V × StackRes V)) : List V :=
  effs.filterMap fun e => match e.2.2 with
    | .popped v => v
    | .pushed => none

omit [DecidableEq T] in
/-- **Nothing is lost and nothing is popped twice.** -/
theorem SeqRun.perm {effs : List (T × StackOp V × StackRes V)} {q : List V}
    (h : SeqRun Lifo [] effs q) : (pushes effs).Perm (pops effs ++ q) := by
  induction h with
  | nil => exact .nil
  | @snoc effs q q' t op r _ hq ih =>
    cases hq with
    | @push v q =>
      have hmove : ((pops effs ++ q) ++ [v]).Perm (pops effs ++ v :: q) := by
        rw [List.append_assoc]
        exact (List.perm_append_singleton v q).append_left _
      simpa [pushes, pops] using (ih.append_right [v]).trans hmove
    | pop => simpa [pushes, pops] using ih
    | empty => simpa [pushes, pops] using ih

end Linearize
