import Samsara.Hazard.Acquire
import Samsara.SafeTreiber.Safe

/-!
# The slots of the stack

Under `sc` the threads of the stack are clients of the hazard table (`Hazard/Table`): the
slots in use are those held by a `pop` in progress, and the others hold null. So `pop` finds
a slot whenever at most `MAX_HAZARDS` of them are in progress.
-/

namespace Samsara.SafeTreiber

open Levels StepSys

namespace Mem

variable {m : Mem} {t : Nat} {st : Store}

theorem store_sc_slots (hb : m.buf t = []) : (m.store .sc t st).slots = st.apply m.slots := by
  simp [store, drain, view, append, hb]

end Mem

def Pc.role : Pc → Role
  | pop_load i | protect i _ | verify i _ | read_next i _ | pop_cas i _ _ | read_value i _
  | clear i _ _ | drop_clear i _ => .holder i
  | drop_release i _ => .leaver i
  | _ => .outside

def Pc.level : Pc → Option Nat
  | acquire i => some i
  | q => q.slot

theorem Pc.level_of_slot {q : Pc} {i : Nat} (h : q.role.slot = some i) : q.level = some i := by
  cases q <;> first | exact h | cases h

def Ret.isPop : Ret → Bool
  | popped _ => true
  | _ => false

def Pc.popping : Pc → Bool
  | acquire _ | pop_load _ | protect _ _ | verify _ _ | read_next _ _ | pop_cas _ _ _
  | read_value _ _ | clear _ _ _ | drop_clear _ _ | drop_release _ _ | retire_lock _ _
  | retire_push _ _ => true
  | scan _ _ r | scan_ptr _ _ r | retain _ _ r | unlock r | ret r => r.isPop
  | _ => false

/-- Under `sc` a thread of the stack is a client of the table. -/
theorem Move.slotMove {t : Nat} {m m' : Mem} {q p : Pc} (hb : m.buf t = [])
    (hf : p ≠ .fault) (hm : Move .sc t m q m' p) : SlotMove m.slots q.role m'.slots p.role := by
  have hd := Mem.drain_of_nil hb
  cases hm
  case push_next_fault | read_next_fault | read_value_fault => exact absurd rfl hf
  case acquire_ok i hi hu =>
    rw [hd] at hu ⊢
    exact .claim hi hu
  case protect i h | clear i h v =>
    rw [Mem.store_sc_slots hb]
    exact .point
  case drop_clear i p =>
    rw [Mem.store_sc_slots hb]
    exact .clear
  case drop_release_none i | drop_release i h v =>
    rw [Mem.store_sc_slots hb]
    exact .release
  case push_cas_ok | push_cas_fail | acquire_fail | pop_cas_ok | pop_cas_fail | retire_lock
      | reclaim_lock | unlock =>
    rw [hd]
    exact .keep
  all_goals exact .keep

namespace Stack

variable {s s' : Stack} {a : Act} {env : History Stack Act → Stack → Act → Prop}
  {tr : History Stack Act}

def Tabled (s : Stack) : Prop := Table s.mem.slots (Pc.role ∘ s.pc)

theorem ne_fault_sc (h : Run (Stack.step .sc) env .new tr s) (t : Nat) : s.pc t ≠ .fault := by
  obtain ⟨own, l, hsafe⟩ := safe (fun _ _ a hr _ => publishesFirst_sc hr a) h
  exact hsafe.sound t

theorem Tabled.step (h : s.Tabled) (hb : ∀ t, s.mem.buf t = []) (hf : ∀ t, s'.pc t ≠ .fault)
    (hst : s.step .sc a = some s') : s'.Tabled := by
  have keep {t : Nat} {p : Pc} (hp : p.role = (s.pc t).role) :
      Table s.mem.slots (Pc.role ∘ Function.update s.pc t p) := by
    rw [Function.comp_update, hp]
    exact Table.step h .keep
  cases act_cases hst
  case push hp | pop hp | force_reclaim hp | alloc hp _ _ => exact keep (by rw [hp]; rfl)
  case flush t st rest hbt => rw [hb t] at hbt; cases hbt
  case step t m p hm =>
    have hp : p ≠ .fault := by simpa using hf t
    unfold Tabled
    rw [Function.comp_update]
    exact Table.step h (hm.slotMove (hb t) hp)

theorem tabled_of_run (h : Run (Stack.step .sc) env .new tr s) : s.Tabled := by
  refine h.hist (P := fun _ s => s.Tabled) ?_ ?_
  · exact Table.new
  · intro tr s a s' hr ih he hst
    exact ih.step (buf_sc hr) (ne_fault_sc (hr.snoc he hst)) hst

def popping (s : Stack) : Set Nat := {t | (s.pc t).popping = true}

/-- At most `MAX_HAZARDS` `pop`s are in progress. -/
def uncrowded (_ : History Stack Act) (s : Stack) (_ : Act) : Prop :=
  s.popping.encard ≤ MAX_HAZARDS

theorem above_zero_subset (s : Stack) : above (Pc.level ∘ s.pc) 0 ⊆ s.popping := by
  rintro t ⟨i, ht, -⟩
  simp only [Function.comp_apply] at ht
  unfold popping
  simp only [Set.mem_ofPred_eq]
  cases hq : s.pc t <;> rw [hq] at ht <;> first | rfl | cases ht

theorem thin_step (ht : s.Tabled) (hb : ∀ t, s.mem.buf t = [])
    (hl : Thin MAX_HAZARDS (Pc.level ∘ s.pc)) (hn : ∀ t, s.pc t ≠ .panicked)
    (hall : s.popping.encard ≤ MAX_HAZARDS) (hst : s.step .sc a = some s') :
    Thin MAX_HAZARDS (Pc.level ∘ s'.pc) ∧ ∀ t, s'.pc t ≠ .panicked := by
  have hset {t : Nat} {p : Pc} (hne : p ≠ .panicked) :
      ∀ u, Function.update s.pc t p u ≠ .panicked :=
    (Function.forall_update_iff s.pc (p := fun _ q => q ≠ .panicked)).mpr ⟨hne, fun u _ => hn u⟩
  have hkeep {t : Nat} {p : Pc} (hp : ∀ j, p.level = some j → j = 0 ∨ (s.pc t).level = some j)
      (hne : p ≠ .panicked) : Thin MAX_HAZARDS (Pc.level ∘ Function.update s.pc t p) ∧
        ∀ u, Function.update s.pc t p u ≠ .panicked := by
    rw [Function.comp_update]
    exact ⟨hl.update hp, hset hne⟩
  cases act_cases hst
  case push hp | force_reclaim hp | alloc hp _ _ =>
    exact hkeep (by simp [Pc.level, Pc.slot]) (by simp)
  case pop hp => exact hkeep (by simp [Pc.level]) (by simp)
  case flush t st rest hbt => rw [hb t] at hbt; cases hbt
  case step t m p hm =>
    have hd := Mem.drain_of_nil (hb t)
    generalize hq : s.pc t = q at hm
    have hlevel : (Pc.level ∘ s.pc) t = q.level := congrArg Pc.level hq
    cases hm
    case acquire_fail i hi hu =>
      rw [hd] at hu
      refine ⟨?_, hset (by simp)⟩
      rw [Function.comp_update]
      exact ht.climb hl ((Set.encard_le_encard s.above_zero_subset).trans hall)
        (fun u i => Pc.level_of_slot) (congrArg Pc.role hq) hlevel hu
    case acquire_none i hi => exact absurd (hl.lt (by decide) hlevel) hi
    all_goals
      exact hkeep (by simp [hq, Pc.level, Pc.slot]) (by simp)

/-- **`pop` never panics** while at most `MAX_HAZARDS` of them are in progress. -/
theorem pop_never_panics (h : Run (Stack.step .sc) uncrowded .new tr s) :
    ∀ t, s.pc t ≠ .panicked := by
  have hall : Thin MAX_HAZARDS (Pc.level ∘ s.pc) ∧ ∀ t, s.pc t ≠ .panicked := by
    refine h.hist (P := fun _ s => Thin MAX_HAZARDS (Pc.level ∘ s.pc) ∧
      ∀ t, s.pc t ≠ .panicked) ?_ ?_
    · exact ⟨thin_none, fun _ => by simp [new]⟩
    · intro tr s a s' hr ⟨hl, hn⟩ hcrowd hst
      exact thin_step (tabled_of_run hr) (buf_sc hr) hl hn hcrowd hst
  exact hall.2

/-- Threads below `MAX_HAZARDS` are not a crowd; the others stay idle. -/
theorem uncrowded_of_run (h : Run (Stack.step .sc) anyEnv .new tr s)
    (hb : ∀ x ∈ tr, x.2.thread < MAX_HAZARDS) : Run (Stack.step .sc) uncrowded .new tr s := by
  induction h with
  | nil => exact .nil
  | @snoc tr s s' a hr _ hst ih =>
    have hb' : ∀ x ∈ tr, x.2.thread < MAX_HAZARDS := fun x hx => hb x (List.mem_append_left _ hx)
    have hpopping : s.popping ⊆ {t | t < MAX_HAZARDS} := by
      intro t ht
      by_contra hlt
      have hidle : s.pc t = .idle := idle_of_run hr fun x hx e => hlt (e ▸ hb' x hx)
      have hpop : (s.pc t).popping = true := ht
      rw [hidle] at hpop
      cases hpop
    exact (ih hb').snoc ((Set.encard_le_encard hpopping).trans (Set.Nat.encard_range _).le) hst

end Stack

/-- **A slot is always found.** While at most `MAX_HAZARDS` clients are inside, `acquire`
never returns `None`; while at most `MAX_HAZARDS` `pop`s are in progress, none panics. -/
theorem slots_never_run_out :
    (∀ (tr : History HazardRegistry HazardRegistry.Act) (s : HazardRegistry),
      Run HazardRegistry.step HazardRegistry.uncrowded .new tr s → ∀ c, s.pc c ≠ .acquire_none) ∧
    ∀ (tr : History Stack Stack.Act) (s : Stack),
      Run (Stack.step .sc) Stack.uncrowded .new tr s → ∀ t, s.pc t ≠ .panicked :=
  ⟨fun _ _ => HazardRegistry.acquire_never_none, fun _ _ => Stack.pop_never_panics⟩

/-- Client 1 passes the slot that client 0 holds, in the registry and in two `pop`s. -/
theorem slots_never_run_out_two :
    (∃ tr s, Run HazardRegistry.step HazardRegistry.uncrowded .new tr s ∧ s.pc 1 = .live 1 ∧
      ∀ c, s.pc c ≠ .acquire_none) ∧
    ∃ tr s, Run (Stack.step .sc) Stack.uncrowded .new tr s ∧ s.pc 0 = .pop_load 0 ∧
      s.pc 1 = .pop_load 1 ∧ ∀ t, s.pc t ≠ .panicked := by
  have h0 : Run HazardRegistry.step anyEnv .new [] .new := .nil
  have h1 := h0.exec (fun _ _ _ _ => trivial)
    (show exec _ _ _ [.acquire 0, .step 0, .acquire 1, .step 1, .step 1] = some _ from rfl)
  have hreg := (HazardRegistry.uncrowded_of_run h1 (by decide)).1
  have k0 : Run (Stack.step .sc) anyEnv .new [] .new := .nil
  have k1 := k0.exec (fun _ _ _ _ => trivial)
    (show exec _ _ _ [.pop 0, .step 0, .pop 1, .step 1, .step 1] = some _ from rfl)
  have hstack := Stack.uncrowded_of_run k1 (by decide)
  obtain ⟨hslots, hpops⟩ := slots_never_run_out
  exact ⟨⟨_, _, hreg, rfl, hslots _ _ hreg⟩, _, _, hstack, rfl, rfl, hpops _ _ hstack⟩

end Samsara.SafeTreiber
