import Samsara.Lib.Progress
import Samsara.SafeTreiber.Deferred

/-!
# A `pop` that runs alone

`Drop` calls `pop` until it returns `None`, and no other thread is inside the stack. Then
`head` stays what it was at the load (`Solo`): the reload verifies it and the compare-and-swap
takes a node off the list. `Pc.rest` bounds the steps to the next node taken off or to
`None`, so the calls end (`Solo.lower`).
-/

namespace Samsara.SafeTreiber

open StepSys

def Ret.isNone : Ret → Bool
  | popped none => true
  | _ => false

/-- The `pop` has found the list empty. -/
def Pc.empties : Pc → Bool
  | drop_clear _ none | drop_release _ none => true
  | scan _ _ r | scan_ptr _ _ r | retain _ _ r | unlock r | ret r => r.isNone
  | _ => false

/-- The program counter of the only thread inside. -/
structure Solo (m : Mem) (q : Pc) : Prop where
  popping : q = .idle ∨ q.popping = true
  first : ∀ i, q = .acquire i → i = 0
  aimed : ∀ h, q.aimed = some h → m.head = h
  empty : q.empties = true → m.head = null

/-- Steps left, with `n` nodes in the queue, until a node is taken off or `None` is returned. -/
def Pc.rest (n : Nat) : Pc → Nat
  | drop_release _ none | read_next _ _ => 1
  | drop_clear _ none | verify _ _ => 2
  | protect _ _ => 3
  | pop_load _ => 4
  | acquire _ => 5
  | idle => 6
  | ret (.popped (some _)) => 7
  | unlock _ => 8
  | retain _ k _ => 9 + (n - k)
  | scan i _ _ => 10 + n + 2 * (MAX_HAZARDS - i)
  | scan_ptr i _ _ => 9 + n + 2 * (MAX_HAZARDS - i)
  | retire_push _ _ => 12 + n + 2 * MAX_HAZARDS
  | retire_lock _ _ => 13 + n + 2 * MAX_HAZARDS
  | drop_release _ (some _) => 14 + n + 2 * MAX_HAZARDS
  | drop_clear _ (some _) => 15 + n + 2 * MAX_HAZARDS
  | clear _ _ _ => 16 + n + 2 * MAX_HAZARDS
  | read_value _ _ => 17 + n + 2 * MAX_HAZARDS
  | _ => 0

variable {m m' : Mem} {l : List Addr} {t : Nat} {q p : Pc}

theorem Solo.idle : Solo m .idle := ⟨.inl rfl, nofun, nofun, nofun⟩

theorem Solo.call : Solo m (.acquire 0) := ⟨.inr rfl, fun _ e => by cases e; rfl, nofun, nofun⟩

/-- A step alone: neither `acquire` nor the reload nor the compare-and-swap fails. -/
theorem Solo.move (h : Solo m q) (hu : ∀ i, q = .acquire i → ((m.drain t).slots i).in_use = false)
    (hf : p ≠ .fault) (hm : Move .sc t m q m' p) : Solo m' p := by
  have hp := h.popping
  cases hm
  case push_next_fault | read_next_fault | read_value_fault => exact absurd rfl hf
  case acquire_fail i hi hused => rw [hu i rfl] at hused; cases hused
  case acquire_none i hi => rw [h.first i rfl] at hi; exact absurd (by decide) hi
  case verify_fail i a hh | pop_cas_fail i a n hh => exact absurd (h.aimed a rfl) hh
  case pop_load_null i hh => exact ⟨.inr rfl, nofun, nofun, fun _ => hh⟩
  case pop_load i hh => exact ⟨.inr rfl, nofun, fun a e => by cases e; rfl, nofun⟩
  case protect i a =>
    refine ⟨.inr rfl, nofun, fun b e => ?_, nofun⟩
    cases e
    exact Mem.store_head.trans (h.aimed a rfl)
  case verify_ok i a hh | read_next i a n hn =>
    exact ⟨.inr rfl, nofun, fun b e => by cases e; exact h.aimed a rfl, nofun⟩
  case drop_clear i x =>
    cases x with
    | none => exact ⟨.inr rfl, nofun, nofun, fun _ => Mem.store_head.trans (h.empty rfl)⟩
    | some x => exact ⟨.inr rfl, nofun, nofun, nofun⟩
  case drop_release_none i =>
    exact ⟨.inr rfl, nofun, nofun, fun _ => Mem.store_head.trans (h.empty rfl)⟩
  case scan_used | scan_unused | scan_done | scan_ptr | retain_keep | retain_free | retain_done
      | unlock =>
    exact ⟨.inr (hp.resolve_left nofun), nofun, nofun, h.empty⟩
  case ret r => exact .idle
  case push_load | push_next | push_cas_ok | push_cas_fail | reclaim_lock =>
    exact absurd hp (by simp [Pc.popping])
  all_goals exact ⟨.inr rfl, nofun, nofun, nofun⟩

theorem Solo.lower (h : Solo m q) (hu : ∀ i, q = .acquire i → ((m.drain t).slots i).in_use = false)
    (hb : q.Bounded m) (hf : p ≠ .fault) (hr : q ≠ .ret (.popped none))
    (hl : ∀ a, q.aimed = some a → l ≠ []) (hm : Move .sc t m q m' p) :
    (q.relinked m l).length < l.length ∨
      q.relinked m l = l ∧ p.rest m'.retired.length < q.rest m.retired.length := by
  have hp := h.popping
  cases hm
  case push_next_fault | read_next_fault | read_value_fault => exact absurd rfl hf
  case acquire_fail i hi hused => rw [hu i rfl] at hused; cases hused
  case acquire_none i hi => rw [h.first i rfl] at hi; exact absurd (by decide) hi
  case verify_fail i a hh | pop_cas_fail i a n hh => exact absurd (h.aimed a rfl) hh
  case pop_cas_ok i a n hh =>
    refine .inl ?_
    simp only [Pc.relinked, if_pos hh, List.length_tail]
    have hlen := List.length_pos_iff.2 (hl a rfl)
    omega
  case push_load | push_next | push_cas_ok | push_cas_fail | reclaim_lock =>
    exact absurd hp (by simp [Pc.popping])
  case scan_ptr i out r =>
    have hi : i < MAX_HAZARDS := hb.2
    exact .inr ⟨rfl, by simp only [Pc.rest]; omega⟩
  case retain_keep out k r a hk ho =>
    have hlt : k < m.retired.length := (List.getElem?_eq_some_iff.1 hk).1
    exact .inr ⟨rfl, by simp only [Pc.rest]; omega⟩
  case retain_free out k r a hk ho =>
    have hlt : k < m.retired.length := (List.getElem?_eq_some_iff.1 hk).1
    refine .inr ⟨rfl, ?_⟩
    simp only [Pc.rest, List.length_eraseIdx_of_lt hlt]
    omega
  case drop_clear i x =>
    refine .inr ⟨rfl, ?_⟩
    rw [Mem.store_retired]
    cases x <;> simp only [Pc.rest] <;> omega
  case unlock r =>
    refine .inr ⟨rfl, ?_⟩
    cases r with
    | popped v => cases v <;> simp only [Pc.rest] <;> omega
    | _ => exact absurd hp (by simp [Pc.popping, Ret.isPop])
  case ret r =>
    refine .inr ⟨rfl, ?_⟩
    cases r with
    | popped v =>
      cases v with
      | none => exact absurd rfl hr
      | some v => simp only [Pc.rest]; omega
    | _ => exact absurd hp (by simp [Pc.popping, Ret.isPop])
  all_goals
    refine .inr ⟨rfl, ?_⟩
    simp only [Pc.rest, Mem.store_retired, Mem.drain_retired, List.length_append,
      List.length_singleton]
    omega

theorem Solo.enabled (h : Solo m q) (hq : q ≠ .idle) (hl : q.critical = false → m.lock = none) :
    ∃ m' p, threadStep .sc t m q = some (m', p) := by
  have hp := h.popping.resolve_left hq
  rw [← Prod.exists', ← Option.isSome_iff_exists]
  cases q
  case idle | push_alloc | panicked | fault | reclaim_lock => cases hp
  case retire_lock a v => simp [threadStep, hl rfl]
  case drop_release i x => cases x <;> rfl
  all_goals
    simp only [threadStep]
    repeat' split
    all_goals rfl

end Samsara.SafeTreiber
