import Samsara.Hazard.Guards

/-!
# Reclamation under hazard pointers

What the registry is for. A reader publishes a pointer with its guard, looks whether it is
still linked, and may use it until the guard begins another operation. A reclaimer unlinks a
pointer, asks the registry afterwards, and frees the pointer if the answer does not find it.
`Reclamation` is any number of readers and reclaimers on one registry; a freed pointer may be
allocated and linked again at any time, also while older queries are under way.
-/

namespace Samsara

open StepSys HazardRegistry

/-- Where a pointer is. -/
inductive Reclamation.Status where
  | free
  | linked
  /-- unlinked, not freed yet -/
  | retired
  deriving DecidableEq

structure Reclamation where
  registry : HazardRegistry
  status : Addr → Reclamation.Status
  /-- what client `c` has found linked since its guard has protected it -/
  valid : Nat → Option Addr
  /-- the pointer was retired, and has been since, when the query of client `c` was called -/
  asked : Nat → Addr → Bool

namespace Reclamation

def new : Reclamation := ⟨.new, fun _ => .free, fun _ => none, fun _ _ => false⟩

inductive Act where
  | registry (a : HazardRegistry.Act)
  /-- `p` is allocated and linked -/
  | link (p : Addr)
  /-- client `c`, whose guard protects `p`, finds `p` linked -/
  | validate (c : Nat) (p : Addr)
  /-- `p` is unlinked -/
  | retire (p : Addr)
  /-- client `c` frees `p`, which its query has not found -/
  | free (c : Nat) (p : Addr)
  deriving DecidableEq

/-- The guard of `c` is at rest and `p` is in its slot. -/
def holds (s : HazardRegistry) (c : Nat) (p : Addr) : Bool :=
  match s.pc c with
  | .live i => (s.slots i).ptr = p
  | _ => false

/-- The query of `c` returns without having found `p`. -/
def clears (s : HazardRegistry) (c : Nat) (p : Addr) : Bool :=
  match s.pc c with
  | .is_hazarded_ret q b => q = p && !b
  | .snapshot_ret out => p ∉ out
  | _ => false

/-- A guard that begins an operation gives up what it has validated. -/
def validAfter (s : Reclamation) : HazardRegistry.Act → Nat → Option Addr
  | .protect c _ | .clear c | .drop c => Function.update s.valid c none
  | _ => s.valid

/-- A query is about the pointers that are retired when it is called. -/
def askedAfter (s : Reclamation) : HazardRegistry.Act → Nat → Addr → Bool
  | .is_hazarded c _ | .snapshot c => Function.update s.asked c fun p => s.status p = .retired
  | _ => s.asked

def step (s : Reclamation) : Act → Option Reclamation
  | .registry a => (s.registry.step a).map fun r =>
      { s with registry := r, valid := s.validAfter a, asked := s.askedAfter a }
  | .link p =>
    if p ≠ null ∧ s.status p = .free then
      some { s with
        status := Function.update s.status p .linked
        asked := fun c q => s.asked c q && q ≠ p }
    else none
  | .validate c p =>
    if holds s.registry c p = true ∧ s.status p = .linked then
      some { s with valid := Function.update s.valid c (some p) }
    else none
  | .retire p =>
    if s.status p = .linked then some { s with status := Function.update s.status p .retired }
    else none
  | .free c p =>
    if s.status p = .retired ∧ s.asked c p = true ∧ clears s.registry c p = true then
      some { s with status := Function.update s.status p .free }
    else none

/-- What a validated pointer and the queries about it have to do with each other. -/
structure Sound (s : Reclamation) : Prop where
  tabled : s.registry.Tabled
  null_free : s.status null = .free
  /-- a query is about pointers that are not linked -/
  unlinked : ∀ c p, s.asked c p = true → s.status p ≠ .linked
  /-- a validated pointer is published and not free -/
  valid : ∀ g p, s.valid g = some p → s.status p ≠ .free ∧ ∃ i, Publishes g i p s.registry
  /-- a query called since the pointer was retired passes no slot where it is validated -/
  sees : ∀ c p, s.asked c p = true → ∀ g i, s.valid g = some p → s.registry.pc g = .live i →
    (s.registry.pc c).Sees i p

variable {s s' : Reclamation} {r : HazardRegistry} {a : HazardRegistry.Act} {act : Act}
  {c g : Nat} {p : Addr}

theorem sound_new : Sound new where
  tabled := tabled_new
  null_free := rfl
  unlinked := nofun
  valid := nofun
  sees := nofun

theorem holds_iff : holds r c p = true ↔ ∃ i, r.pc c = .live i ∧ (r.slots i).ptr = p := by
  unfold holds
  split
  · next i hi => simp [hi]
  · next hno => simpa using fun i hi => absurd hi (hno i)

theorem not_sees_of_clears (hc : clears r c p = true) (i : Nat) : ¬ (r.pc c).Sees i p := by
  unfold clears at hc
  split at hc
  · next q b hq =>
    simp only [Bool.and_eq_true, decide_eq_true_eq, Bool.not_eq_true'] at hc
    rw [hq]
    intro hsee
    have hb : b = true := hsee hc.1
    rw [hc.2] at hb
    cases hb
  · next out hq =>
    have hout : p ∉ out := of_decide_eq_true hc
    rw [hq]
    exact hout
  · cases hc

theorem valid_of_after (hv : s.validAfter a g = some p) : s.valid g = some p ∧ ¬ a.begins g := by
  cases a with
  | protect d _ | clear d | drop d =>
    by_cases e : g = d
    · subst e
      simp [validAfter] at hv
    · rw [validAfter, Function.update_of_ne e] at hv
      exact ⟨hv, fun h => e h.symm⟩
  | _ => exact ⟨hv, id⟩

theorem asked_of_after (ha : s.askedAfter a c p = true) :
    (a.queries c ∧ s.status p = .retired) ∨ s.asked c p = true := by
  cases a with
  | is_hazarded d _ | snapshot d =>
    by_cases e : c = d
    · subst e
      rw [askedAfter, Function.update_self] at ha
      exact .inl ⟨rfl, of_decide_eq_true ha⟩
    · rw [askedAfter, Function.update_of_ne e] at ha
      exact .inr ha
  | _ => exact .inr ha

theorem Sound.registry (h : Sound s) (hr : s.registry.step a = some r) :
    Sound { s with registry := r, valid := s.validAfter a, asked := s.askedAfter a } where
  tabled := h.tabled.step hr
  null_free := h.null_free
  unlinked c p ha := by
    rcases asked_of_after ha with ⟨-, hret⟩ | ha
    · simp [hret]
    · exact h.unlinked c p ha
  valid g p hv := by
    obtain ⟨hv, hb⟩ := valid_of_after hv
    obtain ⟨hfree, i, hpub⟩ := h.valid g p hv
    exact ⟨hfree, i, hpub.step h.tabled hb hr⟩
  sees c p ha g i hv hg := by
    obtain ⟨hv, hb⟩ := valid_of_after hv
    obtain ⟨hfree, j, hpub⟩ := h.valid g p hv
    have hj := hpub.step h.tabled hb hr
    obtain rfl : i = j := Pc.live.inj (hg.symm.trans hj.live)
    have hi : i < MAX_HAZARDS := h.tabled.lt g i (by simp [Pc.role, Role.slot, hpub.live])
    have hp : p ≠ null := by
      rintro rfl
      exact hfree h.null_free
    -- a query that has just been called starts from rest
    have hold : (s.registry.pc c).Sees i p := by
      rcases asked_of_after ha with ⟨hq, -⟩ | ha
      · rw [idle_of_queries hq hr]
        trivial
      · exact h.sees c p ha g i hv hpub.live
    obtain ⟨q, hm, hpc⟩ := step_cases hr
    change (r.pc c).Sees i p
    rw [hpc]
    by_cases e : c = a.client
    · subst e
      rw [Function.update_self]
      exact hm.sees hpub.slot hp hi hold
    · rwa [Function.update_of_ne e]

theorem Sound.set_status (h : Sound s) {st : Status} {asked : Nat → Addr → Bool}
    (hp : p ≠ null) (hasked : ∀ c q, asked c q = true → s.asked c q = true)
    (hl : st = .linked → ∀ c, asked c p = false) (hf : st = .free → ∀ g, s.valid g ≠ some p) :
    Sound { s with status := Function.update s.status p st, asked := asked } where
  tabled := h.tabled
  null_free := (Function.update_of_ne hp.symm ..).trans h.null_free
  unlinked c q ha := by
    by_cases e : q = p
    · subst e
      intro hst
      have hno := hl ((Function.update_self ..).symm.trans hst) c
      have hyes : asked c q = true := ha
      rw [hno] at hyes
      cases hyes
    · dsimp only
      rw [Function.update_of_ne e]
      exact h.unlinked c q (hasked c q ha)
  valid g q hv := by
    obtain ⟨hq, hpub⟩ := h.valid g q hv
    refine ⟨?_, hpub⟩
    by_cases e : q = p
    · subst e
      intro hst
      exact hf ((Function.update_self ..).symm.trans hst) g hv
    · dsimp only
      rwa [Function.update_of_ne e]
  sees c q ha := h.sees c q (hasked c q ha)

theorem Sound.not_null (h : Sound s) (hp : s.status p ≠ .free) : p ≠ null := by
  rintro rfl
  exact hp h.null_free

theorem Sound.validate (h : Sound s) (hheld : holds s.registry c p = true)
    (hl : s.status p = .linked) :
    Sound { s with valid := Function.update s.valid c (some p) } where
  tabled := h.tabled
  null_free := h.null_free
  unlinked := h.unlinked
  valid g q hv := by
    by_cases e : g = c
    · subst e
      obtain rfl : p = q := by simpa using hv
      obtain ⟨i, hi, hptr⟩ := holds_iff.mp hheld
      have hused := h.tabled.used g i (by simp [Pc.role, Role.slot, hi])
      exact ⟨by simp [hl], i, by rw [← hptr, ← hused], hi⟩
    · exact h.valid g q ((Function.update_of_ne e ..).symm.trans hv)
  sees d q ha g i hv hg := by
    by_cases e : g = c
    · subst e
      obtain rfl : p = q := by simpa using hv
      exact absurd hl (h.unlinked d p ha)
    · exact h.sees d q ha g i ((Function.update_of_ne e ..).symm.trans hv) hg

/-- **What is freed is validated nowhere.** -/
theorem Sound.not_valid (h : Sound s) (ha : s.asked c p = true)
    (hc : clears s.registry c p = true) (g : Nat) : s.valid g ≠ some p := by
  intro hv
  obtain ⟨-, i, hpub⟩ := h.valid g p hv
  exact not_sees_of_clears hc i (h.sees c p ha g i hv hpub.live)

theorem Sound.step (h : Sound s) (hst : s.step act = some s') : Sound s' := by
  cases act <;> simp only [Reclamation.step] at hst
  case registry a =>
    obtain ⟨r, hr, rfl⟩ := Option.map_eq_some_iff.mp hst
    exact h.registry hr
  case link p =>
    split at hst <;> cases hst
    next hp =>
    refine h.set_status hp.1 (fun c q hq => ?_) (fun _ c => ?_) (fun hst => ?_)
    · exact (Bool.and_eq_true_iff.mp hq).1
    · simp
    · cases hst
  case validate c p =>
    split at hst <;> cases hst
    next hp => exact h.validate hp.1 hp.2
  case retire p =>
    split at hst <;> cases hst
    next hp =>
    refine h.set_status (h.not_null (by simp [hp])) (fun _ _ => id) ?_ ?_
    · rintro ⟨⟩
    · rintro ⟨⟩
  case free c p =>
    split at hst <;> cases hst
    next hp =>
    refine h.set_status (h.not_null (by simp [hp.1])) (fun _ _ => id) ?_ fun _ => ?_
    · rintro ⟨⟩
    · exact h.not_valid hp.2.1 hp.2.2

theorem sound_of_run {env : History Reclamation Act → Reclamation → Act → Prop}
    {tr : History Reclamation Act} (h : Run step env new tr s) : Sound s :=
  h.inv sound_new fun _ _ _ => Sound.step

def Act.keeps (g : Nat) : Act → Prop
  | registry a => ¬ a.begins g
  | _ => True

theorem valid_step (h : Sound s) (hv : s.valid g = some p) (hk : act.keeps g)
    (hst : s.step act = some s') : s'.valid g = some p := by
  cases act <;> simp only [Reclamation.step] at hst
  case registry a =>
    obtain ⟨r, hr, rfl⟩ := Option.map_eq_some_iff.mp hst
    cases a with
    | protect d _ | clear d | drop d =>
      have hne : g ≠ d := fun e => hk e.symm
      exact (Function.update_of_ne hne ..).trans hv
    | _ => exact hv
  case validate c q =>
    split at hst <;> cases hst
    next hq =>
    by_cases e : g = c
    · subst e
      obtain ⟨-, i, hpub⟩ := h.valid g p hv
      obtain ⟨j, hj, hptr⟩ := holds_iff.mp hq.1
      obtain rfl : i = j := Pc.live.inj (hpub.live.symm.trans hj)
      rw [hpub.slot] at hptr
      simp [← hptr]
    · exact (Function.update_of_ne e ..).trans hv
  case link | retire | free =>
    split at hst <;> cases hst
    exact hv

/-- A validated pointer is neither freed nor allocated again. -/
theorem spared_of_valid (h : Sound s) (hv : s.valid g = some p) (hst : s.step act = some s') :
    (∀ c, act ≠ .free c p) ∧ act ≠ .link p := by
  refine ⟨?_, ?_⟩
  · rintro c rfl
    simp only [Reclamation.step] at hst
    split at hst
    · next hc => exact h.not_valid hc.2.1 hc.2.2 g hv
    · cases hst
  · rintro rfl
    simp only [Reclamation.step] at hst
    split at hst
    · next hc => exact (h.valid g p hv).1 hc.2
    · cases hst

end Reclamation

open Reclamation

/-- **Validated pointers stay.** In every run of readers and reclaimers on one registry: from
the moment a reader, whose guard protects `p`, finds `p` linked, until its guard begins
another operation, nobody frees `p` and the address is not allocated again, whatever other
guards do and however many queries, old and new, are under way. -/
theorem validated_pointers_stay {tr : History Reclamation Reclamation.Act} {s : Reclamation}
    (h : Run Reclamation.step anyEnv .new tr s) :
    ∀ pre s₁ mid g p, tr = pre ++ (s₁, .validate g p) :: mid → (∀ x ∈ mid, x.2.keeps g) →
      s.status p ≠ .free ∧ ∀ x ∈ mid, (∀ c, x.2 ≠ .free c p) ∧ x.2 ≠ .link p := by
  intro pre s₁ mid g p e hkeeps
  rw [e, List.append_cons] at h
  obtain ⟨s₂, h₂, h₃⟩ := h.cut
  have hsound := sound_of_run h₂
  have hv : s₂.valid g = some p := by
    obtain ⟨-, -, hst⟩ := h₂.last
    simp only [Reclamation.step] at hst
    split at hst <;> cases hst
    exact Function.update_self ..
  have hall : Sound s ∧ s.valid g = some p ∧
      ∀ x ∈ mid, (∀ c, x.2 ≠ .free c p) ∧ x.2 ≠ .link p := by
    refine h₃.hist (P := fun tr s => Sound s ∧ s.valid g = some p ∧
      ∀ x ∈ tr, (∀ c, x.2 ≠ .free c p) ∧ x.2 ≠ .link p) ⟨hsound, hv, by simp⟩ ?_
    intro tr s a s' _ ⟨hs, hv, hspared⟩ he hst
    refine ⟨hs.step hst, valid_step hs hv (hkeeps _ he.2) hst, fun x hx => ?_⟩
    rcases List.mem_append.mp hx with hx | hx
    · exact hspared x hx
    · cases List.mem_singleton.mp hx
      exact spared_of_valid hs hv hst
  exact ⟨(hall.1.valid g p hall.2.1).1, hall.2.2⟩

/-- Client 1 asks about the pointer after it was retired, while client 0 still reads it. -/
theorem validated_pointers_stay_retired :
    ∃ tr s, Run Reclamation.step anyEnv .new tr s ∧ s.status 7 = .retired ∧
      s.status 7 ≠ .free := by
  have h0 : Run Reclamation.step anyEnv .new [] .new := .nil
  have h1 := h0.exec (fun _ _ _ _ => trivial) (show exec _ _ _
    [.link 7, .registry (.acquire 0), .registry (.step 0), .registry (.protect 0 7),
      .registry (.step 0)] = some _ from rfl)
  have h2 := h1.snoc (show anyEnv _ _ (.validate 0 7) from trivial) rfl
  have h3 := h2.exec (fun _ _ _ _ => trivial) (show exec _ _ _
    [.retire 7, .registry (.is_hazarded 1 7), .registry (.step 1), .registry (.step 1)] = some _
    from rfl)
  have hstay := validated_pointers_stay h3 [_, _, _, _, _] _ [_, _, _, _] 0 7 rfl
    (by simp [Reclamation.Act.keeps, HazardRegistry.Act.begins])
  exact ⟨_, _, h3, rfl, hstay.1⟩

end Samsara
