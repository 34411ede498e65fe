import Samsara.Hazard.Registry

/-!
# Guards are exclusive and their hazards are seen

A query passes every slot once. While a guard publishes `p` in slot `i` the query cannot
pass that slot without seeing it, whatever other guards do: `Sees` is what a query that
started since has to show for the slots it has passed.
-/

namespace Samsara.HazardRegistry

open StepSys

variable {s s' : HazardRegistry} {a : Act} {slots slots' : Slots} {q q' : Pc} {c g i : Nat}
  {p : Addr} {env : History HazardRegistry Act → HazardRegistry → Act → Prop}
  {tr : History HazardRegistry Act}

def Tabled (s : HazardRegistry) : Prop := Table s.slots (Pc.role ∘ s.pc)

theorem tabled_new : Tabled new := Table.new

theorem Tabled.step (h : s.Tabled) (hst : s.step a = some s') : s'.Tabled := by
  obtain ⟨p, hm, hpc⟩ := step_cases hst
  unfold Tabled
  rw [hpc, Function.comp_update]
  exact Table.step h hm.slotMove

theorem tabled_of_run (h : Run step env .new tr s) : s.Tabled :=
  h.inv tabled_new fun _ _ _ => Tabled.step

/-- The guard of `g` publishes `p` in slot `i`, and none of its operations is in progress. -/
structure Publishes (g i : Nat) (p : Addr) (s : HazardRegistry) : Prop where
  slot : s.slots i = ⟨true, p⟩
  live : s.pc g = .live i

def Act.begins (g : Nat) : Act → Prop
  | protect c _ | clear c | drop c => c = g
  | _ => False

theorem client_ne_of_live (hg : s.pc g = .live i) (hb : ¬ a.begins g) (hst : s.step a = some s') :
    g ≠ a.client := by
  rintro rfl
  cases a with
  | protect | clear | drop => exact hb rfl
  | acquire c | is_hazarded c _ | snapshot c =>
    simp only [step] at hst
    split at hst
    · next hc =>
      have hpc := hg.symm.trans hc
      cases hpc
    · cases hst
  | step c =>
    simp only [Act.client] at hg
    simp [HazardRegistry.step, hg, clientStep] at hst

theorem Publishes.step (h : Publishes g i p s) (ht : s.Tabled) (hb : ¬ a.begins g)
    (hst : s.step a = some s') : Publishes g i p s' := by
  have hne := client_ne_of_live h.live hb hst
  obtain ⟨q, hm, hpc⟩ := step_cases hst
  have hrole : (Pc.role (s.pc g)).slot = some i := by rw [h.live]; rfl
  refine ⟨(Table.frame ht hm.slotMove hrole hne).trans h.slot, ?_⟩
  rw [hpc, Function.update_of_ne hne]
  exact h.live

theorem publishes_of_protect (hg : s.pc g = .protect i p) (ht : s.Tabled)
    (hst : s.step (.step g) = some s') : Publishes g i p s' := by
  have hused : (s.slots i).in_use = true := ht.used g i (by simp [Pc.role, Role.slot, hg])
  simp only [step, hg, clientStep, Option.map_some, Option.some.injEq] at hst
  subst hst
  refine ⟨?_, Function.update_self ..⟩
  simp [Store.apply, hused]

/-- What a query of `p` or a snapshot has seen of slot `i`, which publishes `p`. -/
def Pc.Sees (i : Nat) (p : Addr) : Pc → Prop
  | is_hazarded q j | is_hazarded_ptr q j => q = p → j ≤ i
  | is_hazarded_ret q b => q = p → b = true
  | snapshot j out | snapshot_ptr j out => i < j → p ∈ out
  | snapshot_ret out => p ∈ out
  | _ => True

theorem Move.sees (h : Move slots q slots' q') (hs : slots i = ⟨true, p⟩) (hp : p ≠ null)
    (hi : i < MAX_HAZARDS) (hq : q.Sees i p) : q'.Sees i p := by
  cases h
  case call_is_hazarded => exact fun _ => Nat.zero_le i
  case call_snapshot => exact fun h => absurd h (Nat.not_lt_zero i)
  case query_used | query_hit | scan_used => first | exact hq | exact fun _ => rfl
  case query_unused j r hj hu =>
    intro e
    have hle : j ≤ i := hq e
    have hne : j ≠ i := by
      rintro rfl
      rw [hs] at hu
      cases hu
    omega
  case query_end j r hj =>
    intro e
    exact absurd (Nat.lt_of_le_of_lt (hq e) hi) hj
  case query_miss j r hr =>
    intro e
    have hle : j ≤ i := hq e
    have hne : j ≠ i := by
      rintro rfl
      rw [hs] at hr
      exact hr e.symm
    omega
  case scan_unused j out hj hu =>
    intro hlt
    refine hq (Nat.lt_of_le_of_ne (Nat.le_of_lt_succ hlt) ?_)
    rintro rfl
    rw [hs] at hu
    cases hu
  case scan_end j out hj => exact hq (Nat.lt_of_lt_of_le hi (Nat.le_of_not_lt hj))
  case scan_ptr j out =>
    intro hlt
    rcases Nat.lt_succ_iff_lt_or_eq.mp hlt with hlt | rfl
    · split
      · exact List.mem_append_left _ (hq hlt)
      · exact hq hlt
    · simp [hs, hp]
  all_goals trivial

def Act.queries (c : Nat) : Act → Prop
  | is_hazarded d _ | snapshot d => d = c
  | _ => False

theorem idle_of_queries (hq : a.queries c) (hst : s.step a = some s') : s.pc c = .idle := by
  cases a with
  | is_hazarded d _ | snapshot d =>
    obtain rfl : d = c := hq
    simp only [step] at hst
    split at hst
    · assumption
    · cases hst
  | _ => exact hq.elim

/-- **Publications are stable and seen** as long as the guard begins no operation. -/
theorem publishes_of_run {s₀ : HazardRegistry} (h0 : Publishes g i p s₀) (ht : s₀.Tabled)
    (hp : p ≠ null) (h : Run step (fun _ _ a => ¬ a.begins g) s₀ tr s) :
    Publishes g i p s ∧ ∀ c, (∃ x ∈ tr, x.2.queries c) → (s.pc c).Sees i p := by
  have hall : s.Tabled ∧ Publishes g i p s ∧
      ∀ c, (∃ x ∈ tr, x.2.queries c) → (s.pc c).Sees i p := by
    refine h.hist (P := fun tr s => s.Tabled ∧ Publishes g i p s ∧
      ∀ c, (∃ x ∈ tr, x.2.queries c) → (s.pc c).Sees i p)
      ⟨ht, h0, fun _ ⟨_, hx, _⟩ => nomatch hx⟩ ?_
    intro tr s a s' _ ⟨ht, hg, hsees⟩ hb hst
    refine ⟨ht.step hst, hg.step ht hb hst, fun c hc => ?_⟩
    have hi : i < MAX_HAZARDS := ht.lt g i (by simp [Pc.role, Role.slot, hg.live])
    -- a call that has just begun starts from rest
    have hold : (s.pc c).Sees i p := by
      obtain ⟨x, hx, hcall⟩ := hc
      rcases List.mem_append.mp hx with hx | hx
      · exact hsees c ⟨x, hx, hcall⟩
      · rw [List.mem_singleton] at hx
        subst hx
        rw [idle_of_queries hcall hst]
        trivial
    obtain ⟨q, hm, hpc⟩ := step_cases hst
    rw [hpc]
    by_cases e : c = a.client
    · subst e
      rw [Function.update_self]
      exact hm.sees hg.slot hp hi hold
    · rwa [Function.update_of_ne e]
  exact hall.2

end HazardRegistry

open StepSys HazardRegistry

/-- **Guards are exclusive and their publications are stable and seen.** In every run: no two
guards have the same slot; a slot that is not in use holds a null pointer; and from the store
of `protect(p)` on, until the guard begins another operation, every `is_hazarded(p)` and
every `snapshot` that starts and ends finds `p`. -/
theorem hazards_exclusive_and_seen {tr : History HazardRegistry Act} {s : HazardRegistry}
    (h : Run HazardRegistry.step anyEnv .new tr s) :
    (∀ c d i, (s.pc c).role.slot = some i → (s.pc d).role.slot = some i → c = d) ∧
    (∀ i, (s.slots i).in_use = false → (s.slots i).ptr = null) ∧
    ∀ pre s₁ mid g i p, tr = pre ++ (s₁, .step g) :: mid → s₁.pc g = .protect i p → p ≠ null →
      (∀ x ∈ mid, ¬ x.2.begins g) →
      (∀ c b, (∃ x ∈ mid, x.2 = .is_hazarded c p) → s.pc c = .is_hazarded_ret p b → b = true) ∧
      ∀ c out, (∃ x ∈ mid, x.2 = .snapshot c) → s.pc c = .snapshot_ret out → p ∈ out := by
  have ht := tabled_of_run h
  refine ⟨ht.exclusive, ht.unused, fun pre s₁ mid g i p e hg hp hb => ?_⟩
  rw [e, List.append_cons] at h
  obtain ⟨s₂, h₂, h₃⟩ := h.cut
  obtain ⟨h₁, -, hst⟩ := h₂.last
  have hpub : Publishes g i p s₂ := publishes_of_protect hg (tabled_of_run h₁) hst
  obtain ⟨-, hsees⟩ := publishes_of_run hpub (tabled_of_run h₂) hp
    (h₃.imp fun _ _ _ ha => hb _ ha.2)
  refine ⟨fun c b ⟨x, hx, hcall⟩ hret => ?_, fun c out ⟨x, hx, hcall⟩ hret => ?_⟩
  · have hs := hsees c ⟨x, hx, by rw [hcall]; rfl⟩
    rw [hret] at hs
    exact hs rfl
  · have hs := hsees c ⟨x, hx, by rw [hcall]; rfl⟩
    rw [hret] at hs
    exact hs

/-- A query of another client between the store of `protect` and the next operation. -/
theorem hazards_exclusive_and_seen_query :
    ∃ tr s, Run HazardRegistry.step anyEnv .new tr s ∧
      ∃ b, s.pc 1 = .is_hazarded_ret 7 b ∧ b = true := by
  have h0 : Run HazardRegistry.step anyEnv .new [] .new := .nil
  have h1 := h0.exec (fun _ _ _ _ => trivial)
    (show exec _ _ _ [.acquire 0, .step 0, .protect 0 7] = some _ from rfl)
  have h2 := h1.snoc (show anyEnv _ _ (.step 0) from trivial) rfl
  have h3 := h2.snoc (show anyEnv _ _ (.is_hazarded 1 7) from trivial) rfl
  have h4 := h3.exec (fun _ _ _ _ => trivial) (show exec _ _ _ [.step 1, .step 1] = some _ from rfl)
  have hseen := (hazards_exclusive_and_seen h4).2.2 [_, _, _] _ [_, _, _] 0 0 7 rfl rfl (by decide)
    (by simp [Act.begins])
  exact ⟨_, _, h4, true, rfl, hseen.1 1 true ⟨_, List.mem_cons_self, rfl⟩ rfl⟩

end Samsara
