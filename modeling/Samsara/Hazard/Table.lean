import Samsara.Hazard
import Samsara.Lib.Levels

/-!
# Who holds a slot

Clients of the hazard table take slots, point them at nodes, clear and release them. `Role`
is what a client has to do with the table and `SlotMove` what it may do there in one atomic
step; `Table` says that the slots in use are the ones held, each by one client, and that a
slot is cleared before it is given up. The guards of the registry and the `pop`s of the
stack are both such clients.
-/

namespace Samsara

inductive Role where
  | outside
  /-- holds slot `i` -/
  | holder (i : Nat)
  /-- holds slot `i` still, and has cleared it to release it -/
  | leaver (i : Nat)
  deriving DecidableEq

def Role.slot : Role → Option Nat
  | outside => none
  | holder i | leaver i => some i

/-- The slots after the compare-and-swap of `acquire` on slot `i`. -/
def Slots.claim (slots : Slots) (i : Nat) : Slots :=
  Function.update slots i { slots i with in_use := true }

/-- What a step of a client does to the slots and to its role. -/
inductive SlotMove (slots : Slots) : Role → Slots → Role → Prop where
  | keep {q : Role} : SlotMove slots q slots q
  | claim {i : Nat} (hi : i < MAX_HAZARDS) (hu : (slots i).in_use = false) :
      SlotMove slots .outside (slots.claim i) (.holder i)
  | point {i : Nat} {p : Addr} :
      SlotMove slots (.holder i) ((Store.ptr i p).apply slots) (.holder i)
  | clear {i : Nat} : SlotMove slots (.holder i) ((Store.ptr i null).apply slots) (.leaver i)
  | release {i : Nat} : SlotMove slots (.leaver i) ((Store.in_use i).apply slots) .outside

structure Table {T : Type*} (slots : Slots) (role : T → Role) : Prop where
  exclusive : ∀ t u i, (role t).slot = some i → (role u).slot = some i → t = u
  lt : ∀ t i, (role t).slot = some i → i < MAX_HAZARDS
  used : ∀ t i, (role t).slot = some i → (slots i).in_use = true
  held : ∀ i, (slots i).in_use = true → ∃ t, (role t).slot = some i
  /-- a slot that is not in use holds a null pointer -/
  unused : ∀ i, (slots i).in_use = false → (slots i).ptr = null
  cleared : ∀ t i, role t = .leaver i → (slots i).ptr = null

namespace Table

variable {T : Type*} {slots slots' : Slots} {role : T → Role} {t u : T} {i : Nat} {q : Role}

theorem new : Table (fun _ => ⟨false, null⟩) fun _ : T => .outside :=
  ⟨(fun _ _ _ h => nomatch h), (fun _ _ h => nomatch h), (fun _ _ h => nomatch h),
    (fun _ h => nomatch h), fun _ _ => rfl, fun _ _ h => nomatch h⟩

/-- No client reaches the slot of another one. -/
theorem frame (h : Table slots role) (hm : SlotMove slots (role t) slots' q)
    (hu : (role u).slot = some i) (hne : u ≠ t) : slots' i = slots i := by
  generalize ht : role t = r at hm
  have hother {j : Nat} (hj : (role t).slot = some j) : j ≠ i := by
    rintro rfl
    exact hne (h.exclusive u t j hu hj)
  cases hm with
  | keep => rfl
  | claim _ hf =>
    refine Function.update_of_ne ?_ ..
    rintro rfl
    rw [h.used u _ hu] at hf
    cases hf
  | point | clear | release => exact Store.apply_of_ne (hother (by rw [ht]; rfl))

theorem store_ptr (h : Table slots role) (ht : (role t).slot = some i) {p : Addr}
    (hc : ∀ j, role t = .leaver j → p = null) : Table ((Store.ptr i p).apply slots) role := by
  have huse (j : Nat) : ((Store.ptr i p).apply slots j).in_use = (slots j).in_use := by
    by_cases e : j = i
    · subst e
      simp [Store.apply]
    · simp [Store.apply, e]
  have hptr (j : Nat) (hj : j ≠ i) : (Store.ptr i p).apply slots j = slots j :=
    Function.update_of_ne hj ..
  refine ⟨h.exclusive, h.lt, fun u j hu => (huse j).trans (h.used u j hu),
    fun j hj => h.held j (huse j ▸ hj), fun j hj => ?_, fun u j hu => ?_⟩
  · have hne : j ≠ i := by
      rintro rfl
      rw [huse, h.used t j ht] at hj
      cases hj
    rw [hptr j hne]
    exact h.unused j (huse j ▸ hj)
  · by_cases e : j = i
    · subst e
      obtain rfl : u = t := h.exclusive u t j (by rw [hu]; rfl) ht
      simp [Store.apply, hc j hu]
    · rw [hptr j e]
      exact h.cleared u j hu

theorem free (h : Table slots role) (hout : ∀ t, role t = .outside) (i : Nat) :
    slots i = ⟨false, null⟩ := by
  have hu : (slots i).in_use = false := by
    by_contra hu
    obtain ⟨t, ht⟩ := h.held i (by simpa using hu)
    rw [hout t] at ht
    cases ht
  have hp := h.unused i hu
  rw [← hu, ← hp]

variable [DecidableEq T]

theorem slot_update {j : Nat} (h : (Function.update role t q u).slot = some j) :
    (u = t ∧ q.slot = some j) ∨ (u ≠ t ∧ (role u).slot = some j) := by
  by_cases e : u = t
  · subst e
    rw [Function.update_self] at h
    exact .inl ⟨rfl, h⟩
  · rw [Function.update_of_ne e] at h
    exact .inr ⟨e, h⟩

theorem leave (h : Table slots role) (ht : role t = .holder i) (hp : (slots i).ptr = null) :
    Table slots (Function.update role t (.leaver i)) := by
  have hslot (u : T) : (Function.update role t (.leaver i) u).slot = (role u).slot := by
    by_cases e : u = t
    · subst e
      rw [Function.update_self, ht]
      rfl
    · rw [Function.update_of_ne e]
  refine ⟨fun v u i hv hu => h.exclusive v u i (hslot v ▸ hv) (hslot u ▸ hu),
    fun u i hu => h.lt u i (hslot u ▸ hu), fun u i hu => h.used u i (hslot u ▸ hu),
    fun i hi => (h.held i hi).imp fun u hu => (hslot u).trans hu, h.unused, fun u j hu => ?_⟩
  by_cases e : u = t
  · subst e
    rw [Function.update_self] at hu
    cases hu
    exact hp
  · rw [Function.update_of_ne e] at hu
    exact h.cleared u j hu

theorem claim (h : Table slots role) (ht : (role t).slot = none) (hi : i < MAX_HAZARDS)
    (hf : (slots i).in_use = false) :
    Table (slots.claim i) (Function.update role t (.holder i)) := by
  have hfree {u : T} {j : Nat} (hu : (role u).slot = some j) : j ≠ i := by
    rintro rfl
    rw [h.used u j hu] at hf
    cases hf
  have hold {j : Nat} (hj : j ≠ i) : slots.claim i j = slots j := Function.update_of_ne hj ..
  refine ⟨fun v u j hv hu => ?_, fun u j hu => ?_, fun u j hu => ?_, fun j hj => ?_,
    fun j hj => ?_, fun u j hu => ?_⟩
  · rcases slot_update hv with ⟨rfl, ⟨⟩⟩ | ⟨-, hv⟩
    · rcases slot_update hu with ⟨rfl, -⟩ | ⟨-, hu⟩
      · rfl
      · exact absurd rfl (hfree hu)
    · rcases slot_update hu with ⟨-, ⟨⟩⟩ | ⟨-, hu⟩
      · exact absurd rfl (hfree hv)
      · exact h.exclusive v u j hv hu
  · rcases slot_update hu with ⟨-, ⟨⟩⟩ | ⟨-, hu⟩
    · exact hi
    · exact h.lt u j hu
  · rcases slot_update hu with ⟨-, ⟨⟩⟩ | ⟨-, hu⟩
    · simp [Slots.claim]
    · rw [hold (hfree hu)]
      exact h.used u j hu
  · by_cases e : j = i
    · subst e
      exact ⟨t, by rw [Function.update_self]; rfl⟩
    · rw [hold e] at hj
      obtain ⟨u, hu⟩ := h.held j hj
      refine ⟨u, ?_⟩
      rw [Function.update_of_ne, hu]
      rintro rfl
      exact nomatch ht.symm.trans hu
  · have e : j ≠ i := by
      rintro rfl
      simp [Slots.claim] at hj
    rw [hold e] at hj ⊢
    exact h.unused j hj
  · by_cases e : u = t
    · subst e
      rw [Function.update_self] at hu
      cases hu
    · rw [Function.update_of_ne e] at hu
      rw [hold (hfree (u := u) (by rw [hu]; rfl))]
      exact h.cleared u j hu

theorem release (h : Table slots role) (ht : role t = .leaver i) :
    Table ((Store.in_use i).apply slots) (Function.update role t .outside) := by
  have hti : (role t).slot = some i := by rw [ht]; rfl
  have hslot {u : T} {j : Nat} (hu : (Function.update role t .outside u).slot = some j) :
      (role u).slot = some j ∧ j ≠ i := by
    rcases slot_update hu with ⟨-, ⟨⟩⟩ | ⟨e, hu⟩
    refine ⟨hu, ?_⟩
    rintro rfl
    exact e (h.exclusive u t j hu hti)
  have hold {j : Nat} (hj : j ≠ i) : (Store.in_use i).apply slots j = slots j :=
    Function.update_of_ne hj ..
  refine ⟨fun v u j hv hu => h.exclusive v u j (hslot hv).1 (hslot hu).1,
    fun u j hu => h.lt u j (hslot hu).1, fun u j hu => ?_, fun j hj => ?_, fun j hj => ?_,
    fun u j hu => ?_⟩
  · rw [hold (hslot hu).2]
    exact h.used u j (hslot hu).1
  · have e : j ≠ i := by
      rintro rfl
      simp [Store.apply] at hj
    rw [hold e] at hj
    obtain ⟨u, hu⟩ := h.held j hj
    refine ⟨u, ?_⟩
    rw [Function.update_of_ne, hu]
    rintro rfl
    exact e (Option.some.inj (hu.symm.trans hti))
  · by_cases e : j = i
    · subst e
      simpa [Store.apply] using h.cleared t j ht
    · rw [hold e] at hj ⊢
      exact h.unused j hj
  · rw [hold (hslot (u := u) (by rw [hu]; rfl)).2]
    refine h.cleared u j ?_
    rwa [Function.update_of_ne] at hu
    rintro rfl
    rw [Function.update_self] at hu
    cases hu

/-- **Every step of a client keeps the table.** -/
theorem step (h : Table slots role) (hm : SlotMove slots (role t) slots' q) :
    Table slots' (Function.update role t q) := by
  generalize ht : role t = r at hm
  have hself : Function.update role t r = role := by rw [← ht, Function.update_eq_self]
  cases hm with
  | keep => rwa [hself]
  | claim hi hf => exact h.claim (by rw [ht]; rfl) hi hf
  | point =>
    rw [hself]
    exact h.store_ptr (t := t) (by rw [ht]; rfl) fun j e => nomatch ht.symm.trans e
  | clear =>
    refine (h.store_ptr (t := t) (by rw [ht]; rfl) fun _ _ => rfl).leave ht ?_
    simp [Store.apply]
  | release => exact h.release ht

/-- A client outside the table that finds slot `i` in use leaves its holder behind. -/
theorem climb (h : Table slots role) {n : Nat} {level : T → Option Nat}
    (hl : Levels.Thin n level) (hall : (Levels.above level 0).encard ≤ n)
    (hslot : ∀ u i, (role u).slot = some i → level u = some i) (ht : role t = .outside)
    (hi : level t = some i) (hu : (slots i).in_use = true) :
    Levels.Thin n (Function.update level t (some (i + 1))) := by
  obtain ⟨u, hu⟩ := h.held i hu
  refine hl.climb hall hi (hslot u i hu) ?_
  rintro rfl
  rw [ht] at hu
  cases hu

end Table

end Samsara
