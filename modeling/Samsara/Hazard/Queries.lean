import Samsara.Hazard.Guards
import Samsara.Lib.Progress

/-!
# `is_hazarded` and `snapshot` side by side

What the two queries answer when no operation is in progress, against what the live guards
did last (`latest`). Both pass the slots in use; `snapshot` leaves out null pointers and
`is_hazarded` does not, although a slot with a null pointer publishes nothing. So they decide
alike except on the null pointer (`queries_agree_iff`).
-/

namespace Samsara

/-- The loop of `is_hazarded` over slots that do not change. -/
def Slots.is_hazarded (slots : Slots) (ptr : Addr) : Bool :=
  (List.range MAX_HAZARDS).any fun i => (slots i).in_use && (slots i).ptr = ptr

/-- The loop of `snapshot` over the first `n` slots, which do not change. -/
def Slots.snapshot (slots : Slots) (n : Nat) : List Addr :=
  (List.range n).flatMap fun i =>
    if (slots i).in_use ∧ (slots i).ptr ≠ null then [(slots i).ptr] else []

namespace HazardRegistry

open StepSys

/-- What an action makes of the pointer that the guard of `c` protects. -/
def Act.latest (c : Nat) (p : Option Addr) : Act → Option Addr
  | .protect d ptr => if d = c then some ptr else p
  | .clear d | .acquire d => if d = c then none else p
  | _ => p

/-- The pointer of the most recent `protect` or `clear` of the guard of `c`, if that was a
`protect`; a guard just acquired has done neither. -/
def latest (c : Nat) (tr : History HazardRegistry Act) : Option Addr :=
  tr.foldl (fun p x => x.2.latest c p) none

def IsLive (s : HazardRegistry) (c : Nat) : Prop := ∃ i, s.pc c = .live i

def AtRest (s : HazardRegistry) : Prop := ∀ c, s.pc c = .idle ∨ s.IsLive c

/-- Client `c` makes the call `a` and, running alone, gets to the return `r`. -/
def Alone (s : HazardRegistry) (c : Nat) (a : Act) (r : Pc) : Prop :=
  ∃ s₁ tr s', s.step a = some s₁ ∧ Run step (fun _ _ b => b = .step c) s₁ tr s' ∧ s'.pc c = r

variable {s s' : HazardRegistry} {a : Act} {slots slots' : Slots} {q q' : Pc} {c d i : Nat}
  {p : Addr} {tr : History HazardRegistry Act}
  {env : History HazardRegistry Act → HazardRegistry → Act → Prop}

/-! ## What a guard did last is in its slot -/

/-- The slot of a guard against what it did last: while `protect` or `clear` is in progress its
store is still to come. -/
def Pc.Holds (slots : Slots) (l : Option Addr) : Pc → Prop
  | .acquire _ => l = none
  | .live i => (slots i).ptr = l.getD null
  | .protect _ p => l = some p
  | .clear _ => l = none
  | _ => True

theorem latest_snoc (tr : History HazardRegistry Act) (x : HazardRegistry × Act) :
    latest c (tr ++ [x]) = x.2.latest c (latest c tr) := by
  unfold latest
  rw [List.foldl_append]
  rfl

theorem Act.latest_of_ne {l : Option Addr} (h : a.client ≠ c) : a.latest c l = l := by
  cases a <;> first | rfl | exact if_neg h

theorem Pc.Holds.frame {l : Option Addr} (h : q.Holds slots l)
    (hs : ∀ i, q.role.slot = some i → slots' i = slots i) : q.Holds slots' l := by
  cases q with
  | live i =>
    have h : (slots i).ptr = l.getD null := h
    rw [← hs i rfl] at h
    exact h
  | _ => exact h

/-- What the client does itself: a store puts into the slot what the call announced. -/
theorem Pc.Holds.step {l : Option Addr} (h : q.Holds slots l)
    (hun : ∀ i, (slots i).in_use = false → (slots i).ptr = null)
    (hm : clientStep slots q = some (slots', q')) : q'.Holds slots' l := by
  cases clientStep_cases hm
  case acquire_busy hi hu => exact h
  case acquire i hi hu =>
    obtain rfl : l = none := h
    simpa [Holds, Slots.claim] using hun i hu
  case protect i p =>
    obtain rfl : l = some p := h
    simp [Holds, Store.apply]
  case clear i =>
    obtain rfl : l = none := h
    simp [Holds, Store.apply]
  all_goals trivial

theorem Tabled.holds_step (ht : s.Tabled) (hh : ∀ c, (s.pc c).Holds s.slots (latest c tr))
    (hst : s.step a = some s') (c : Nat) :
    (s'.pc c).Holds s'.slots (a.latest c (latest c tr)) := by
  by_cases e : a.client = c
  · subst e
    have hc := hh a.client
    cases a with
    | acquire c =>
      simp only [HazardRegistry.step] at hst
      split at hst <;> cases hst
      simp [setPc, Act.client, Act.latest, Pc.Holds]
    | protect c _ | clear c | drop c =>
      obtain ⟨i, hi, rfl⟩ := onGuard_cases hst
      simp [setPc, Act.client, Act.latest, Pc.Holds]
    | is_hazarded c _ | snapshot c =>
      simp only [HazardRegistry.step] at hst
      split at hst <;> cases hst
      simp [setPc, Act.client, Pc.Holds]
    | step c =>
      obtain ⟨⟨slots, q⟩, hm, rfl⟩ := Option.map_eq_some_iff.mp hst
      simp only [Act.client, Function.update_self] at hc ⊢
      exact hc.step ht.unused hm
  · obtain ⟨q, hm, hpc⟩ := step_cases hst
    rw [Act.latest_of_ne e, hpc, Function.update_of_ne (Ne.symm e)]
    exact (hh c).frame fun i hi => Table.frame ht hm.slotMove hi (Ne.symm e)

theorem holds_of_run (h : Run step env .new tr s) :
    ∀ c, (s.pc c).Holds s.slots (latest c tr) := by
  have hall : s.Tabled ∧ ∀ c, (s.pc c).Holds s.slots (latest c tr) := by
    refine h.hist (P := fun tr s => s.Tabled ∧ ∀ c, (s.pc c).Holds s.slots (latest c tr))
      ⟨tabled_new, fun _ => trivial⟩ ?_
    intro tr s a s' _ ⟨ht, hh⟩ _ hst
    refine ⟨ht.step hst, fun c => ?_⟩
    rw [latest_snoc]
    exact ht.holds_step hh hst c
  exact hall.2

/-! ## A query that runs alone -/

def hits (slots : Slots) (p : Addr) (i : Nat) : Prop :=
  (slots i).in_use = true ∧ (slots i).ptr = p

theorem is_hazarded_iff : slots.is_hazarded p = true ↔ ∃ i < MAX_HAZARDS, hits slots p i := by
  simp [Slots.is_hazarded, hits]

theorem mem_snapshot {n : Nat} : p ∈ slots.snapshot n ↔ p ≠ null ∧ ∃ i < n, hits slots p i := by
  unfold Slots.snapshot hits
  simp only [List.mem_flatMap, List.mem_range]
  constructor
  · rintro ⟨i, hi, hp⟩
    split at hp
    · next hu =>
      rw [List.mem_singleton] at hp
      subst hp
      exact ⟨hu.2, i, hi, hu.1, rfl⟩
    · cases hp
  · rintro ⟨hp, i, hi, hu, rfl⟩
    exact ⟨i, hi, by simp [hu, hp]⟩

theorem snapshot_succ (slots : Slots) (n : Nat) : slots.snapshot (n + 1) = slots.snapshot n ++
    if (slots n).in_use ∧ (slots n).ptr ≠ null then [(slots n).ptr] else [] := by
  simp [Slots.snapshot, List.range_succ]

/-- A query that has found these slots so far is on its way to a return. -/
def Pc.Towards (slots : Slots) : Pc → Pc → Prop
  | .is_hazarded p i, r => r = .is_hazarded_ret p (slots.is_hazarded p) ∧ i ≤ MAX_HAZARDS ∧
      ∀ j < i, ¬ hits slots p j
  | .is_hazarded_ptr p i, r => r = .is_hazarded_ret p (slots.is_hazarded p) ∧ i < MAX_HAZARDS ∧
      (slots i).in_use = true ∧ ∀ j < i, ¬ hits slots p j
  | .snapshot i out, r => r = .snapshot_ret (slots.snapshot MAX_HAZARDS) ∧ i ≤ MAX_HAZARDS ∧
      out = slots.snapshot i
  | .snapshot_ptr i out, r => r = .snapshot_ret (slots.snapshot MAX_HAZARDS) ∧
      i < MAX_HAZARDS ∧ (slots i).in_use = true ∧ out = slots.snapshot i
  | .is_hazarded_ret p b, r => r = .is_hazarded_ret p b
  | .snapshot_ret out, r => r = .snapshot_ret out
  | _, _ => False

def Pc.left : Pc → Nat
  | .is_hazarded _ i | .snapshot i _ => 2 * (MAX_HAZARDS - i) + 1
  | .is_hazarded_ptr _ i | .snapshot_ptr i _ => 2 * (MAX_HAZARDS - i)
  | _ => 0

theorem no_hit_succ (h : ∀ j < i, ¬ hits slots p j) (hi : ¬ hits slots p i) :
    ∀ j < i + 1, ¬ hits slots p j := by
  intro j hj
  rcases Nat.lt_succ_iff_lt_or_eq.mp hj with hj | rfl
  · exact h j hj
  · exact hi

theorem Pc.Towards.enabled {r : Pc} (h : q.Towards slots r) (slots' : Slots) :
    ∃ slots'' q', clientStep slots' q = some (slots'', q') := by
  cases q <;> first | exact (show False from h).elim | simp only [clientStep]
  case is_hazarded | snapshot =>
    split
    · split <;> exact ⟨_, _, rfl⟩
    · exact ⟨_, _, rfl⟩
  case is_hazarded_ptr => split <;> exact ⟨_, _, rfl⟩
  all_goals exact ⟨_, _, rfl⟩

theorem Pc.Towards.step {r : Pc} (h : q.Towards slots r)
    (hm : clientStep slots q = some (slots', q')) :
    slots' = slots ∧ (q = r ∧ q' = .idle ∨ q'.Towards slots r ∧ q'.left < q.left) := by
  cases clientStep_cases hm <;> first | exact (show False from h).elim | refine ⟨rfl, ?_⟩
  case query_used i p hi hu =>
    obtain ⟨hr, -, hno⟩ := h
    exact .inr ⟨⟨hr, hi, hu, hno⟩, by simp only [left]; omega⟩
  case query_unused i p hi hu =>
    obtain ⟨hr, -, hno⟩ := h
    refine .inr ⟨⟨hr, hi, no_hit_succ hno fun hh => ?_⟩, by simp only [left]; omega⟩
    exact nomatch hu.symm.trans hh.1
  case query_end i p hi =>
    obtain ⟨hr, -, hno⟩ := h
    have hfalse : slots.is_hazarded p = false := by
      rw [Bool.eq_false_iff, ne_eq, is_hazarded_iff]
      rintro ⟨j, hj, hh⟩
      exact hno j (Nat.lt_of_lt_of_le hj (Nat.le_of_not_lt hi)) hh
    refine .inr ⟨hfalse ▸ hr, by simp only [left]; omega⟩
  case query_hit i p hp =>
    obtain ⟨hr, hi, hu, hno⟩ := h
    refine .inr ⟨?_, by simp only [left]; omega⟩
    rwa [is_hazarded_iff.mpr ⟨i, hi, hu, hp⟩] at hr
  case query_miss i p hp =>
    obtain ⟨hr, hi, hu, hno⟩ := h
    exact .inr ⟨⟨hr, hi, no_hit_succ hno fun hh => hp hh.2⟩, by simp only [left]; omega⟩
  case scan_used i out hi hu =>
    obtain ⟨hr, -, hout⟩ := h
    exact .inr ⟨⟨hr, hi, hu, hout⟩, by simp only [left]; omega⟩
  case scan_unused i out hi hu =>
    obtain ⟨hr, -, hout⟩ := h
    refine .inr ⟨⟨hr, hi, ?_⟩, by simp only [left]; omega⟩
    rw [snapshot_succ, hout, hu]
    simp
  case scan_end i out hi =>
    obtain ⟨hr, hle, hout⟩ := h
    obtain rfl : i = MAX_HAZARDS := Nat.le_antisymm hle (Nat.le_of_not_lt hi)
    exact .inr ⟨hout ▸ hr, by simp only [left]; omega⟩
  case scan_ptr i out =>
    obtain ⟨hr, hi, hu, hout⟩ := h
    refine .inr ⟨⟨hr, hi, ?_⟩, by simp only [left]; omega⟩
    rw [snapshot_succ, hout, hu]
    split <;> simp_all
  case query_ret => exact .inl ⟨h.symm, rfl⟩
  case scan_ret => exact .inl ⟨h.symm, rfl⟩

def only (c : Nat) (_ : History HazardRegistry Act) (_ : HazardRegistry) (a : Act) : Prop :=
  a = .step c

theorem towards_of_run {s₁ : HazardRegistry} {r : Pc} (hs : s₁.slots = slots)
    (h0 : (s₁.pc c).Towards slots r) (h : Run step (only c) s₁ tr s) :
    s.slots = slots ∧ (s.pc c = .idle ∨ (s.pc c).Towards slots r) := by
  refine h.hist (P := fun _ s => s.slots = slots ∧ (s.pc c = .idle ∨ (s.pc c).Towards slots r))
    ⟨hs, .inr h0⟩ ?_
  intro tr s a s' _ ⟨hs, hc⟩ ha hst
  obtain rfl : a = .step c := ha
  obtain ⟨⟨slots', q⟩, hm, rfl⟩ := Option.map_eq_some_iff.mp hst
  rw [hs] at hm
  rcases hc with hc | hc
  · rw [hc] at hm
    cases hm
  · obtain ⟨rfl, hq⟩ := hc.step hm
    refine ⟨rfl, ?_⟩
    simp only [Function.update_self]
    exact hq.imp And.right And.left

theorem returns_of_towards {s₁ : HazardRegistry} {r : Pc} (hs : s₁.slots = slots)
    (h0 : (s₁.pc c).Towards slots r) :
    ∃ tr s, Run step (only c) s₁ tr s ∧ s.pc c = r := by
  have hnil : Run step (only c) s₁ [] s₁ := .nil
  obtain ⟨tr, s, -, hr, -, -, hret⟩ := hnil.reaches (fun _ => True) (fun s => s.pc c = r)
    (fun s (_ : Unit) => s.slots = slots ∧ (s.pc c).Towards slots r)
    (fun s _ => toLex (0, (s.pc c).left)) (w := ()) (fun tr s w _ ⟨hs, hc⟩ hgoal => by
      obtain ⟨slots', q, hm⟩ := hc.enabled s.slots
      have hst : s.step (.step c) = some ⟨slots', Function.update s.pc c q⟩ := by
        rw [step, hm]
        rfl
      rw [hs] at hm
      obtain ⟨rfl, ⟨hr, -⟩ | ⟨hq, hlt⟩⟩ := hc.step hm
      · exact absurd hr hgoal
      · refine ⟨.step c, _, w, trivial, rfl, hst, ⟨rfl, ?_⟩, toLex_lt_of (.inr ⟨rfl, ?_⟩)⟩
        · simpa only [Function.update_self] using hq
        · simpa only [Function.update_self] using hlt) ⟨hs, h0⟩
  exact ⟨tr, s, hr, hret⟩

/-- A call of a client at rest goes to the returns that `Towards` says, and to no other. -/
theorem alone_iff {s₁ : HazardRegistry} {r r' : Pc} (ha : s.step a = some s₁)
    (h0 : (s₁.pc c).Towards s₁.slots r) (hne : r' ≠ .idle)
    (hret : r'.Towards s₁.slots r → r = r') : s.Alone c a r' ↔ r' = r := by
  constructor
  · rintro ⟨s₂, tr, s', hst, hr, rfl⟩
    obtain rfl := Option.some.inj (ha.symm.trans hst)
    obtain ⟨-, hc | hc⟩ := towards_of_run rfl h0 hr
    · exact absurd hc hne
    · exact (hret hc).symm
  · rintro rfl
    obtain ⟨tr, s', hr, hc⟩ := returns_of_towards rfl h0
    exact ⟨s₁, tr, s', ha, hr, hc⟩

/-- **`is_hazarded(p)`, alone, returns** what its loop says of the slots. -/
theorem alone_is_hazarded (hc : s.pc c = .idle) {b : Bool} :
    s.Alone c (.is_hazarded c p) (.is_hazarded_ret p b) ↔ b = s.slots.is_hazarded p := by
  have hst : s.step (.is_hazarded c p) = some (s.setPc c (.is_hazarded p 0)) := if_pos hc
  have h0 : ((s.setPc c (.is_hazarded p 0)).pc c).Towards (s.setPc c (.is_hazarded p 0)).slots
      (.is_hazarded_ret p (s.slots.is_hazarded p)) := by
    show Pc.Towards s.slots (Function.update s.pc c (.is_hazarded p 0) c) _
    rw [Function.update_self]
    exact ⟨rfl, Nat.zero_le _, fun j hj => absurd hj (Nat.not_lt_zero j)⟩
  refine (alone_iff hst h0 (by simp) id).trans ?_
  simp

theorem alone_snapshot (hc : s.pc c = .idle) {out : List Addr} :
    s.Alone c (.snapshot c) (.snapshot_ret out) ↔ out = s.slots.snapshot MAX_HAZARDS := by
  have hst : s.step (.snapshot c) = some (s.setPc c (.snapshot 0 [])) := if_pos hc
  have h0 : ((s.setPc c (.snapshot 0 [])).pc c).Towards (s.setPc c (.snapshot 0 [])).slots
      (.snapshot_ret (s.slots.snapshot MAX_HAZARDS)) := by
    show Pc.Towards s.slots (Function.update s.pc c (.snapshot 0 []) c) _
    rw [Function.update_self]
    exact ⟨rfl, Nat.zero_le _, rfl⟩
  refine (alone_iff hst h0 (by simp) id).trans ?_
  simp

end HazardRegistry

open StepSys HazardRegistry

/-- What the three say of `p`: `is_hazarded`, `snapshot` and the live guards. -/
def HazardRegistry.Agree (tr : History HazardRegistry Act) (s : HazardRegistry) (p : Addr)
    (b : Bool) (out : List Addr) : Prop :=
  (b = true ↔ p ∈ out) ∧ (b = true ↔ ∃ g, s.IsLive g ∧ latest g tr = some p)

/-- The slots in use belong to live guards when no operation is in progress. -/
theorem HazardRegistry.hits_iff {tr : History HazardRegistry Act} {s : HazardRegistry}
    (h : Run HazardRegistry.step anyEnv .new tr s) (hrest : s.AtRest) (p : Addr) :
    (∃ i < MAX_HAZARDS, hits s.slots p i) ↔ ∃ g, s.IsLive g ∧ (latest g tr).getD null = p := by
  have ht := tabled_of_run h
  have hh := holds_of_run h
  constructor
  · rintro ⟨i, -, hu, rfl⟩
    obtain ⟨g, hg⟩ := ht.held i hu
    simp only [Function.comp_apply] at hg
    rcases hrest g with hc | ⟨j, hc⟩
    · rw [hc] at hg
      cases hg
    · have hl := hh g
      rw [hc] at hg hl
      cases hg
      exact ⟨g, ⟨i, hc⟩, Eq.symm hl⟩
  · rintro ⟨g, ⟨i, hc⟩, rfl⟩
    have hl := hh g
    rw [hc] at hl
    have hslot : (Pc.role (s.pc g)).slot = some i := by rw [hc]; rfl
    exact ⟨i, ht.lt g i hslot, ht.used g i hslot, hl⟩

/-- **When the two hazard queries agree.** After any run, with no operation in progress, both
queries of an idle client return, and whatever they answer about `p` agrees with each other and
with what the live guards protected last if and only if `p` is not null, or every live guard's
most recent operation was a `protect` of a pointer that is not null. -/
theorem queries_agree_iff {tr : History HazardRegistry Act} {s : HazardRegistry}
    (h : Run HazardRegistry.step anyEnv .new tr s) (hrest : s.AtRest) {c : Nat}
    (hc : s.pc c = .idle) (p : Addr) :
    (∃ b out, s.Alone c (.is_hazarded c p) (.is_hazarded_ret p b) ∧
      s.Alone c (.snapshot c) (.snapshot_ret out)) ∧
    ∀ b out, s.Alone c (.is_hazarded c p) (.is_hazarded_ret p b) →
      s.Alone c (.snapshot c) (.snapshot_ret out) →
      (Agree tr s p b out ↔
        p ≠ null ∨ ∀ g, s.IsLive g → ∃ q, q ≠ null ∧ latest g tr = some q) := by
  refine ⟨⟨_, _, (alone_is_hazarded hc).mpr rfl, (alone_snapshot hc).mpr rfl⟩, ?_⟩
  intro b out hb hout
  obtain rfl := (alone_is_hazarded hc).mp hb
  obtain rfl := (alone_snapshot hc).mp hout
  unfold Agree
  rw [is_hazarded_iff, mem_snapshot, hits_iff h hrest]
  by_cases hp : p = null
  · subst hp
    constructor
    · rintro ⟨hsnap, -⟩
      refine .inr fun g hg => ?_
      cases hl : latest g tr with
      | none => exact absurd rfl (hsnap.mp ⟨g, hg, by rw [hl]; rfl⟩).1
      | some q =>
        refine ⟨q, ?_, rfl⟩
        rintro rfl
        exact absurd rfl (hsnap.mp ⟨g, hg, by rw [hl]; rfl⟩).1
    · rintro (hne | hall)
      · exact absurd rfl hne
      · have hno : ¬ ∃ g, s.IsLive g ∧ (latest g tr).getD null = null := by
          rintro ⟨g, hg, e⟩
          obtain ⟨q, hq, hl⟩ := hall g hg
          rw [hl] at e
          exact hq e
        refine ⟨iff_of_false hno fun hm => hm.1 rfl, iff_of_false hno ?_⟩
        rintro ⟨g, hg, hl⟩
        exact hno ⟨g, hg, by rw [hl]; rfl⟩
  · have hget (l : Option Addr) : l.getD null = p ↔ l = some p := by
      cases l with
      | none => simp [Ne.symm hp]
      | some q => simp
    simp [hp, hget]

/-- The queries and the guards agree on every pointer. -/
def QueriesAgree : Prop :=
  ∀ (tr : History HazardRegistry Act) (s : HazardRegistry) (c : Nat) (p : Addr) (b : Bool)
    (out : List Addr), Run HazardRegistry.step anyEnv .new tr s → s.AtRest → s.pc c = .idle →
    s.Alone c (.is_hazarded c p) (.is_hazarded_ret p b) →
    s.Alone c (.snapshot c) (.snapshot_ret out) → Agree tr s p b out

/-- One guard, acquired and not used yet. -/
def freshGuard : HazardRegistry where
  slots := HazardRegistry.new.slots.claim 0
  pc := Function.update (Function.update HazardRegistry.new.pc 0 (.acquire 0)) 0 (.live 0)

theorem freshGuard_reached : ∃ tr, Run HazardRegistry.step anyEnv .new tr freshGuard := by
  have h0 : Run HazardRegistry.step anyEnv .new [] .new := .nil
  have h1 := h0.snoc (show anyEnv _ _ (.acquire 0) from trivial) rfl
  exact ⟨_, h1.snoc (show anyEnv _ _ (.step 0) from trivial) rfl⟩

theorem freshGuard_atRest : freshGuard.AtRest := by
  intro c
  by_cases e : c = 0
  · subst e
    exact .inr ⟨0, rfl⟩
  · exact .inl (by simp [freshGuard, HazardRegistry.new, e])

/-- `is_hazarded(null)` says that the guard publishes the null pointer. -/
theorem null_is_hazarded : ¬ QueriesAgree := by
  intro hall
  obtain ⟨tr, hr⟩ := freshGuard_reached
  have hidle : freshGuard.pc 1 = .idle := rfl
  have hb : freshGuard.Alone 1 (.is_hazarded 1 null) (.is_hazarded_ret null true) :=
    (alone_is_hazarded hidle).mpr (by decide)
  have hout : freshGuard.Alone 1 (.snapshot 1) (.snapshot_ret []) :=
    (alone_snapshot hidle).mpr (by decide)
  have hagree := (hall tr freshGuard 1 null true [] hr freshGuard_atRest hidle hb hout).1
  exact nomatch hagree.mp rfl

/-- A query of a pointer that is not null. -/
theorem queries_agree_iff_fresh :
    ∃ tr b out, freshGuard.Alone 1 (.is_hazarded 1 7) (.is_hazarded_ret 7 b) ∧
      freshGuard.Alone 1 (.snapshot 1) (.snapshot_ret out) ∧ Agree tr freshGuard 7 b out := by
  obtain ⟨tr, hr⟩ := freshGuard_reached
  obtain ⟨⟨b, out, hb, hout⟩, hagree⟩ := queries_agree_iff hr freshGuard_atRest
    (show freshGuard.pc 1 = .idle from rfl) 7
  exact ⟨tr, b, out, hb, hout, (hagree b out hb hout).mpr (.inl (by decide))⟩

end Samsara
