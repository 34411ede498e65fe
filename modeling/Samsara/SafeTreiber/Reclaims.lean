import Samsara.Hazard.Reclamation
import Samsara.SafeTreiber.Table

/-!
# The stack reclaims as hazard pointers say

`Reclamation` is reading and freeing under a hazard registry with nothing else to it. The
stack does no more: every step of a thread is a sequence of steps there, none for most, and
two for the last store of `clear`, after which the guard's `drop` begins. A `push` links its
node, a `pop` is a reader from the call of `acquire` on and retires the node it takes off,
and the scan under the mutex is the query of a reclaimer.
-/

namespace Samsara.SafeTreiber

open StepSys

theorem Settled.scans_alone {m : Mem} {pc : Nat → Pc} {t : Nat} (h : Settled m pc)
    (ht : (pc t).critical = true) (u : Nat) (hu : u ≠ t) : (pc u).scanned = none := by
  by_contra hne
  obtain ⟨x, hx⟩ := Option.ne_none_iff_exists'.mp hne
  exact hu (h.critical_unique ht (Pc.critical_of_scanned hx))

/-- What a thread is doing as a client of the hazard registry. -/
def Pc.registry : Pc → HazardRegistry.Pc
  | acquire i => .acquire i
  | panicked => .acquire_none
  | pop_load i | verify i _ | read_next i _ | pop_cas i _ _ | read_value i _ => .live i
  | protect i h => .protect i h
  | clear i _ _ => .clear i
  | drop_clear i _ => .drop_clear i
  | drop_release i _ => .drop_release i
  | scan i out _ => .snapshot i out
  | scan_ptr i out _ => .snapshot_ptr i out
  | retain out _ _ => .snapshot_ret out
  | _ => .idle

/-- What a step of thread `t` is as reclamation. -/
def Pc.reclaiming (t : Nat) (m : Mem) : Pc → List Reclamation.Act
  | push_cas _ new head => if m.head = head then [.link new] else []
  | acquire _ | protect _ _ | drop_clear _ _ | drop_release _ _ | scan _ _ _ | scan_ptr _ _ _ =>
    [.registry (.step t)]
  | pop_load _ => if m.head = null then [.registry (.drop t)] else [.registry (.protect t m.head)]
  | verify _ head => if m.head = head then [.validate t head] else []
  | pop_cas _ head _ => if m.head = head then [.retire head] else []
  | read_value _ _ => [.registry (.clear t)]
  | clear _ _ _ => [.registry (.step t), .registry (.drop t)]
  | retire_push head _ =>
    if (m.retired ++ [head]).length ≥ RETIRE_THRESHOLD then [.registry (.snapshot t)] else []
  | reclaim_lock => [.registry (.snapshot t)]
  | retain out k _ =>
    match m.retired[k]? with
    | some p => if p ∈ out then [] else [.free t p]
    | none => [.registry (.step t)]
  | _ => []

def Stack.reclaiming (s : Stack) : Stack.Act → List Reclamation.Act
  | .pop t => [.registry (.acquire t)]
  | .step t => (s.pc t).reclaiming t s.mem
  | _ => []

/-- What the stack and the reclamation have in common; `l` is the list from `head`. -/
structure Reclaims (l : List Addr) (m : Mem) (pc : Nat → Pc) (r : Reclamation) : Prop where
  registry : r.registry = ⟨m.slots, Pc.registry ∘ pc⟩
  linked : ∀ a, r.status a = .linked ↔ a ∈ l
  retired : ∀ a, r.status a = .retired ↔ a ∈ m.retired ∨ ∃ t, (pc t).popped = some a
  /-- what `pop` has verified is validated -/
  valid : ∀ t i a, (pc t).protects = some (i, a) → r.valid t = some a
  /-- a scan is about all that waits in the queue -/
  asked : ∀ t, (pc t).scanned ≠ none → ∀ a ∈ m.retired, r.asked t a = true

namespace Reclaims

variable {l : List Addr} {m m' : Mem} {pc : Nat → Pc} {r r' : Reclamation} {t : Nat} {p : Pc}
  {own : Addr → Place} {a : Addr} {act : HazardRegistry.Act} {q : Pc}

theorem new : Reclaims [] .new (fun _ => .idle) .new where
  registry := rfl
  linked a := by simp [Reclamation.new]
  retired a := by simp [Reclamation.new, Mem.new, Pc.popped]
  valid t i a h := by simp [Pc.protects] at h
  asked t h := by simp [Pc.scanned] at h

theorem popped_iff {a : Addr} :
    (∃ u, (Function.update pc t p u).popped = some a) ↔
      p.popped = some a ∨ ∃ u, u ≠ t ∧ (pc u).popped = some a := by
  constructor
  · rintro ⟨u, hu⟩
    by_cases e : u = t
    · subst e
      exact .inl (by rwa [Function.update_self] at hu)
    · exact .inr ⟨u, e, by rwa [Function.update_of_ne e] at hu⟩
  · rintro (hp | ⟨u, e, hu⟩)
    · exact ⟨t, by rwa [Function.update_self]⟩
    · exact ⟨u, by rwa [Function.update_of_ne e]⟩

theorem popped_update (ht : pc t = q) (hp : p.popped = q.popped) (a : Addr) :
    (∃ u, (Function.update pc t p u).popped = some a) ↔ ∃ u, (pc u).popped = some a := by
  rw [popped_iff, hp]
  conv_rhs => rw [← Function.update_eq_self t pc, popped_iff, ht]

theorem of_update {Q : Pc → Prop} (h : Q p → Q (pc t)) {u : Nat}
    (hu : Q (Function.update pc t p u)) : Q (pc u) := by
  by_cases e : u = t
  · subst e
    rw [Function.update_self] at hu
    exact h hu
  · rwa [Function.update_of_ne e] at hu

theorem protects_update (ht : pc t = q) (h : p.protects = none ∨ p.protects = q.protects)
    {u i : Nat} (hu : (Function.update pc t p u).protects = some (i, a)) :
    (pc u).protects = some (i, a) := by
  refine of_update (Q := fun q => q.protects = some (i, a)) (fun hp => ?_) hu
  rcases h with h | h
  · rw [h] at hp
    cases hp
  · rw [ht, ← h, hp]

theorem scanned_update (ht : pc t = q) (h : p.scanned = none ∨ q.scanned ≠ none) {u : Nat}
    (hu : (Function.update pc t p u).scanned ≠ none) : (pc u).scanned ≠ none := by
  refine of_update (Q := fun q => q.scanned ≠ none) (fun hp => ?_) hu
  rw [ht]
  exact h.resolve_left hp

theorem registry_eq (h : Reclaims l m pc r) (ht : pc t = q) (hs : m'.slots = m.slots)
    (hr : p.registry = q.registry) :
    r.registry = ⟨m'.slots, Pc.registry ∘ Function.update pc t p⟩ := by
  have hself : Function.update (Pc.registry ∘ pc) t (pc t).registry = Pc.registry ∘ pc :=
    Function.update_eq_self ..
  rw [Function.comp_update, hr, ← ht, hs, hself]
  exact h.registry

theorem quiet (h : Reclaims l m pc r) (ht : pc t = q) (hs : m'.slots = m.slots)
    (hm : m'.retired = m.retired) (hr : p.registry = q.registry) (hp : p.popped = q.popped)
    (hv : p.protects = none ∨ p.protects = q.protects)
    (hz : p.scanned = none ∨ q.scanned ≠ none) : Reclaims l m' (Function.update pc t p) r where
  registry := h.registry_eq ht hs hr
  linked := h.linked
  retired a := by rw [popped_update ht hp, hm, h.retired]
  valid u i a hu := h.valid u i a (protects_update ht hv hu)
  asked u hu := by
    rw [hm]
    exact h.asked u (scanned_update ht hz hu)

theorem valid_of_ne {u : Nat} (hc : act.client = t) (hne : u ≠ t) :
    r.validAfter act u = r.valid u := by
  subst hc
  cases act <;> first | rfl | exact Function.update_of_ne hne ..

theorem asked_of_ne {u : Nat} (hc : act.client = t) (hne : u ≠ t) :
    r.askedAfter act u = r.asked u := by
  subst hc
  cases act <;> first | rfl | exact Function.update_of_ne hne ..

theorem client (h : Reclaims l m pc r) (act : HazardRegistry.Act) (m' : Mem) (p : Pc)
    (hc : act.client = t) (ht : pc t = q)
    (hst : HazardRegistry.step ⟨m.slots, Pc.registry ∘ pc⟩ act =
      some ⟨m'.slots, Function.update (Pc.registry ∘ pc) t p.registry⟩)
    (hm : m'.retired = m.retired) (hp : p.popped = q.popped) (hv : p.protects = none)
    (hz : p.scanned = none ∨ act = .snapshot t ∨ (act = .step t ∧ q.scanned ≠ none)) :
    ∃ r', r.step (.registry act) = some r' ∧ Reclaims l m' (Function.update pc t p) r' := by
  refine ⟨{ r with
    registry := ⟨m'.slots, Function.update (Pc.registry ∘ pc) t p.registry⟩
    valid := r.validAfter act
    asked := r.askedAfter act }, ?_, ?_⟩
  · simp only [Reclamation.step, h.registry, hst, Option.map_some]
  · refine ⟨by rw [Function.comp_update], h.linked, fun a => ?_, fun u i a hu => ?_,
      fun u hu a ha => ?_⟩
    · rw [popped_update ht hp, hm]
      exact h.retired a
    · have hne : u ≠ t := by
        rintro rfl
        rw [Function.update_self, hv] at hu
        cases hu
      rw [Function.update_of_ne hne] at hu
      exact (valid_of_ne hc hne).trans (h.valid u i a hu)
    · rw [hm] at ha
      by_cases e : u = t
      · subst e
        rw [Function.update_self] at hu
        rcases hz.resolve_left hu with rfl | ⟨rfl, hold⟩
        · have hret : r.status a = .retired := (h.retired a).2 (.inl ha)
          simp [Reclamation.askedAfter, hret]
        · exact h.asked u (by rwa [ht]) a ha
      · rw [Function.update_of_ne e] at hu
        exact (congrFun (asked_of_ne hc e) a).trans (h.asked u hu a ha)

theorem verify (h : Reclaims l m pc r) (ho : Owned own l m) (hpub : Published m pc) {i : Nat}
    (hb : m.buf t = []) (ht : pc t = .verify i m.head) :
    ∃ r', r.step (.validate t m.head) = some r' ∧
      Reclaims l m (Function.update pc t (.read_next i m.head)) r' := by
  have hnull : m.head ≠ null := hpub.aimed t m.head (by rw [ht]; rfl)
  obtain ⟨b, l', rfl, -, -⟩ := ho.links.uncons hnull
  have hl : r.status m.head = .linked := (h.linked _).2 List.mem_cons_self
  have hseen : (m.slots i).ptr = m.head := by
    rw [← Mem.view_of_nil hb]
    exact hpub.seen t i m.head (by rw [ht]; rfl)
  have hheld : Reclamation.holds r.registry t m.head = true := by
    rw [h.registry]
    exact Reclamation.holds_iff.mpr ⟨i, by simp [ht, Pc.registry], hseen⟩
  refine ⟨{ r with valid := Function.update r.valid t (some m.head) }, ?_, ?_⟩
  · simp [Reclamation.step, hheld, hl]
  · refine ⟨h.registry_eq ht rfl rfl, h.linked, fun a => ?_, fun u j a hu => ?_,
      fun u hu => h.asked u (scanned_update ht (.inl rfl) hu)⟩
    · rw [popped_update (p := .read_next i m.head) ht rfl]
      exact h.retired a
    · by_cases e : u = t
      · subst e
        rw [Function.update_self] at hu
        cases hu
        exact Function.update_self ..
      · rw [Function.update_of_ne e] at hu
        exact (Function.update_of_ne e ..).trans (h.valid u j a hu)

theorem link (h : Reclaims l m pc r) (m' : Mem) (hn : Nodes own l m pc) {v : UInt32} {b : Addr}
    (hs : m'.slots = m.slots) (hm : m'.retired = m.retired) (ht : pc t = .push_cas v a b) :
    ∃ r', r.step (.link a) = some r' ∧
      Reclaims (a :: l) m' (Function.update pc t (.ret .pushed)) r' := by
  have hown : own a = .pusher t := ((hn.mine t).pusher a).2 ⟨v, by rw [ht]; rfl⟩
  have hnl : a ∉ l := by simp [← hn.owned.linked, hown]
  have hnr : a ∉ m.retired := by simp [← hn.owned.retired, hown]
  have hnp (u : Nat) : (pc u).popped ≠ some a := by simp [← (hn.mine u).popper, hown]
  have hfree : r.status a = .free := by
    cases hst : r.status a with
    | free => rfl
    | linked => exact absurd ((h.linked a).1 hst) hnl
    | retired =>
      rcases (h.retired a).1 hst with ha | ⟨u, hu⟩
      · exact absurd ha hnr
      · exact absurd hu (hnp u)
  refine ⟨_, if_pos ⟨hn.owned.ne_null (by simp [hown]), hfree⟩, ?_⟩
  refine ⟨h.registry_eq ht hs rfl, fun c => ?_, fun c => ?_,
    fun u j c hu => h.valid u j c (protects_update ht (.inl rfl) hu),
    fun u hu c hc => ?_⟩
  · by_cases e : c = a
    · simp [e]
    · simp [e, h.linked]
  · rw [hm, popped_update (p := .ret .pushed) ht rfl]
    by_cases e : c = a
    · simp [e, hnr, hnp]
    · simp [e, h.retired]
  · rw [hm] at hc
    have hne : c ≠ a := by
      rintro rfl
      exact hnr hc
    simp [h.asked u (scanned_update ht (.inl rfl) hu) c hc, hne]

theorem unlink (h : Reclaims l m pc r) (m' : Mem) (hn : Nodes own l m pc) {i : Nat} {b : Addr}
    (hnull : m.head ≠ null) (hs : m'.slots = m.slots) (hm : m'.retired = m.retired)
    (ht : pc t = .pop_cas i m.head b) :
    ∃ r', r.step (.retire m.head) = some r' ∧
      Reclaims l.tail m' (Function.update pc t (.read_value i m.head)) r' := by
  obtain ⟨c, l', rfl, -, -⟩ := hn.owned.links.uncons hnull
  obtain ⟨hnl, -⟩ := List.nodup_cons.1 hn.owned.nodup
  have hl : r.status m.head = .linked := (h.linked _).2 List.mem_cons_self
  refine ⟨_, if_pos hl, ?_⟩
  refine ⟨h.registry_eq ht hs rfl, fun d => ?_, fun d => ?_,
    fun u j d hu => h.valid u j d (protects_update ht (.inl rfl) hu),
    fun u hu d hd => ?_⟩
  · by_cases e : d = m.head
    · simp [e, hnl]
    · simp [e, h.linked]
  · rw [hm, popped_iff]
    by_cases e : d = m.head
    · simp [e, Pc.popped]
    · have hold := h.retired d
      rw [← Function.update_eq_self t pc, popped_iff, ht] at hold
      simpa [e, Pc.popped, Ne.symm e] using hold
  · rw [hm] at hd
    exact h.asked u (scanned_update ht (.inl rfl) hu) d hd

theorem queue (h : Reclaims l m pc r) (ret : Ret) {v : UInt32}
    (hz : ∀ u, u ≠ t → (pc u).scanned = none) (ht : pc t = .retire_push a v) :
    Reclaims l { m with retired := m.retired ++ [a] } (Function.update pc t (.unlock ret)) r where
  registry := h.registry_eq ht rfl rfl
  linked := h.linked
  retired b := by
    have hold := h.retired b
    rw [← Function.update_eq_self t pc, popped_iff, ht] at hold
    rw [hold, popped_iff]
    simp only [Pc.popped, List.mem_append, List.mem_singleton, Option.some.injEq, reduceCtorEq,
      false_or, or_assoc, eq_comm]
  valid u j b hu := h.valid u j b (protects_update ht (.inl rfl) hu)
  asked u hu := by
    by_cases e : u = t
    · subst e
      rw [Function.update_self] at hu
      exact absurd rfl hu
    · rw [Function.update_of_ne e] at hu
      exact absurd (hz u e) hu

/-- `retain` frees an entry that the scan has not found. -/
theorem free (h : Reclaims l m pc r) (hn : Nodes own l m pc) {out : List Addr} {k : Nat}
    {ret : Ret} {heap : Addr → Option Node} (ht : pc t = .retain out k ret)
    (hk : m.retired[k]? = some a) (ho : a ∉ out) :
    ∃ r', r.step (.free t a) = some r' ∧
      Reclaims l { m with heap := heap, retired := m.retired.eraseIdx k } pc r' := by
  obtain ⟨hlt, rfl⟩ := List.getElem?_eq_some_iff.1 hk
  have hmem : m.retired[k] ∈ m.retired := List.getElem_mem hlt
  have hown : own m.retired[k] = .retired := (hn.owned.retired _).2 hmem
  have hclears : Reclamation.clears r.registry t m.retired[k] = true := by
    rw [h.registry]
    simp [Reclamation.clears, ht, Pc.registry, ho]
  have hasked := h.asked t (by simp [ht, Pc.scanned]) _ hmem
  refine ⟨_, if_pos ⟨(h.retired _).2 (.inl hmem), hasked, hclears⟩, ?_⟩
  refine ⟨h.registry, fun b => ?_, fun b => ?_, h.valid, fun u hu b hb => ?_⟩
  · by_cases e : b = m.retired[k]
    · simp [e, ← hn.owned.linked, hown]
    · simp [e, h.linked]
  · have hnp (u : Nat) : (pc u).popped ≠ some m.retired[k] := by
      simp [← (hn.mine u).popper, hown]
    rw [← hn.owned.retired_nodup.erase_getElem k hlt, hn.owned.retired_nodup.mem_erase_iff]
    by_cases e : b = m.retired[k]
    · simp [e, hnp]
    · simp [e, h.retired]
  · exact h.asked u hu b (List.mem_of_mem_eraseIdx hb)

theorem client_step (h : Reclaims l m pc r) (m' : Mem) (p : Pc) (ht : pc t = q)
    (hst : HazardRegistry.clientStep m.slots q.registry = some (m'.slots, p.registry))
    (hm : m'.retired = m.retired) (hp : p.popped = q.popped) (hv : p.protects = none)
    (hz : p.scanned = none ∨ q.scanned ≠ none) :
    ∃ r', [Reclamation.Act.registry (.step t)].foldlM Reclamation.step r = some r' ∧
      Reclaims l m' (Function.update pc t p) r' := by
  obtain ⟨r', hr, h'⟩ := h.client (.step t) m' p rfl ht
    (by simp [HazardRegistry.step, HazardRegistry.Act.client, ht, hst]) hm hp hv
    (hz.imp_right fun hz => .inr ⟨rfl, hz⟩)
  exact ⟨r', by simp [hr], h'⟩

theorem client_call (h : Reclaims l m pc r) (act : HazardRegistry.Act) (m' : Mem) (p : Pc)
    {next : Nat → HazardRegistry.Pc} {i : Nat} (hc : act.client = t) (ht : pc t = q)
    (hg : q.registry = .live i) (hst : ∀ s : HazardRegistry, s.step act = s.onGuard t next)
    (hs : m'.slots = m.slots) (hpr : p.registry = next i) (hm : m'.retired = m.retired)
    (hp : p.popped = q.popped) (hv : p.protects = none) (hz : p.scanned = none) :
    ∃ r', [Reclamation.Act.registry act].foldlM Reclamation.step r = some r' ∧
      Reclaims l m' (Function.update pc t p) r' := by
  obtain ⟨r', hr, h'⟩ := h.client act m' p hc ht
    (by simp [hst, HazardRegistry.onGuard, ht, hg, HazardRegistry.setPc, hs, hpr]) hm hp hv
    (.inl hz)
  exact ⟨r', by simp [hr], h'⟩

theorem clear (h : Reclaims l m pc r) {i : Nat} {v : UInt32}
    (hs : m'.slots = (Store.ptr i null).apply m.slots) (hm : m'.retired = m.retired)
    (ht : pc t = .clear i a v) :
    ∃ r', [Reclamation.Act.registry (.step t), .registry (.drop t)].foldlM Reclamation.step r =
        some r' ∧
      Reclaims l m' (Function.update pc t (.drop_clear i (some (a, v)))) r' := by
  obtain ⟨r₁, hr₁, h₁⟩ := h.client_step m' (.read_value i a) ht
    (by simp [Pc.registry, HazardRegistry.clientStep, hs]) hm rfl rfl (.inl rfl)
  obtain ⟨r', hr', h'⟩ := h₁.client_call (t := t) (.drop t) m' (.drop_clear i (some (a, v))) rfl
    (Function.update_self ..) rfl (fun _ => rfl) rfl rfl rfl rfl rfl rfl
  rw [Function.update_idem] at h'
  refine ⟨r', ?_, h'⟩
  rw [show [Reclamation.Act.registry (.step t), .registry (.drop t)] =
    [.registry (.step t)] ++ [.registry (.drop t)] from rfl, List.foldlM_append, hr₁]
  exact hr'

theorem query (h : Reclaims l m pc r) (m' : Mem) (ret : Ret) (ht : pc t = q)
    (hs : m'.slots = m.slots) (hm : m'.retired = m.retired) (hg : q.registry = .idle)
    (hp : q.popped = none) :
    ∃ r', [Reclamation.Act.registry (.snapshot t)].foldlM Reclamation.step r = some r' ∧
      Reclaims l m' (Function.update pc t (.scan 0 [] ret)) r' := by
  obtain ⟨r', hr', h'⟩ := h.client (t := t) (.snapshot t) m' (.scan 0 [] ret) rfl ht
    (by simp [HazardRegistry.step, ht, hg, HazardRegistry.setPc, hs]; rfl) hm hp.symm rfl
    (.inr (.inl rfl))
  exact ⟨r', by simp [hr'], h'⟩

/-- **Every step of a thread is reclamation.** -/
theorem move (h : Reclaims l m pc r) (hsafe : Safe own l m pc) (hb : m.buf t = [])
    (hm : Move .sc t m (pc t) m' p) :
    ∃ r', ((pc t).reclaiming t m).foldlM Reclamation.step r = some r' ∧
      Reclaims ((pc t).relinked m l) m' (Function.update pc t p) r' := by
  have hf := hsafe.ne_fault hm
  have hd := Mem.drain_of_nil hb
  generalize hpc : pc t = q at hm
  cases hm
  case push_next_fault | read_next_fault | read_value_fault => exact absurd rfl hf
  case push_load | push_next | ret =>
    exact ⟨r, rfl, h.quiet hpc rfl rfl rfl rfl (.inl rfl) (.inl rfl)⟩
  case push_cas_ok v a b hh =>
    subst hh
    obtain ⟨r', hr, h'⟩ := h.link { m.drain t with head := a } hsafe.toNodes (by rw [hd]) rfl hpc
    exact ⟨r', by simp [Pc.reclaiming, hr], by simpa [Pc.relinked] using h'⟩
  case push_cas_fail hh | pop_cas_fail hh =>
    simp only [Pc.reclaiming, Pc.relinked, if_neg hh]
    exact ⟨r, rfl, h.quiet hpc (by rw [hd]) rfl rfl rfl (.inl rfl) (.inl rfl)⟩
  case acquire_ok i hi hu | acquire_fail i hi hu =>
    rw [hd] at hu ⊢
    refine h.client_step _ _ hpc ?_ rfl rfl rfl (.inl rfl)
    simp [Pc.registry, HazardRegistry.clientStep, hi, hu, Slots.claim]
  case acquire_none i hi =>
    refine h.client_step _ _ hpc ?_ rfl rfl rfl (.inl rfl)
    simp [Pc.registry, HazardRegistry.clientStep, hi]
  case pop_load_null i hh =>
    simp only [Pc.reclaiming, if_pos hh, Pc.relinked]
    exact h.client_call _ _ _ rfl hpc rfl (fun _ => rfl) rfl rfl rfl rfl rfl rfl
  case pop_load i hh =>
    simp only [Pc.reclaiming, if_neg hh, Pc.relinked]
    exact h.client_call _ _ _ rfl hpc rfl (fun _ => rfl) rfl rfl rfl rfl rfl rfl
  case protect i a =>
    refine h.client_step _ _ hpc ?_ (by simp) rfl rfl (.inl rfl)
    simp [Pc.registry, HazardRegistry.clientStep, Mem.store_sc_slots hb]
  case verify_ok i a hh =>
    subst hh
    obtain ⟨r', hr, h'⟩ := h.verify hsafe.owned hsafe.published hb hpc
    exact ⟨r', by simp [Pc.reclaiming, hr], h'⟩
  case verify_fail i a hh =>
    simp only [Pc.reclaiming, if_neg hh]
    exact ⟨r, rfl, h.quiet hpc rfl rfl rfl rfl (.inl rfl) (.inl rfl)⟩
  case read_next i a node hn =>
    exact ⟨r, rfl, h.quiet hpc rfl rfl rfl rfl (.inr rfl) (.inl rfl)⟩
  case pop_cas_ok i a b hh =>
    subst hh
    have hnull : m.head ≠ null := hsafe.published.aimed t m.head (by rw [hpc]; rfl)
    obtain ⟨r', hr, h'⟩ := h.unlink { m.drain t with head := b } hsafe.toNodes hnull
      (by rw [hd]) rfl hpc
    exact ⟨r', by simp [Pc.reclaiming, hr], by simpa [Pc.relinked] using h'⟩
  case read_value i a node hn =>
    exact h.client_call _ _ _ rfl hpc rfl (fun _ => rfl) rfl rfl rfl rfl rfl rfl
  case clear i a v => exact h.clear (Mem.store_sc_slots hb) (by simp) hpc
  case drop_clear | drop_release_none | drop_release =>
    refine h.client_step _ _ hpc ?_ (by simp) rfl rfl (.inl rfl)
    simp [Pc.registry, HazardRegistry.clientStep, Mem.store_sc_slots hb]
  case retire_lock | unlock =>
    exact ⟨r, rfl, h.quiet hpc (by rw [hd]) rfl rfl rfl (.inl rfl) (.inl rfl)⟩
  case retire_full a v hfull =>
    have h₁ := h.queue (.popped (some v)) (hsafe.settled.scans_alone (by rw [hpc]; rfl)) hpc
    have h₂ := h₁.query { m with retired := m.retired ++ [a] } (.popped (some v))
      (Function.update_self ..) rfl rfl rfl rfl
    rw [Function.update_idem] at h₂
    simpa only [Pc.reclaiming, Pc.relinked, if_pos hfull] using h₂
  case retire_push a v hfew =>
    simp only [Pc.reclaiming, if_neg hfew]
    exact ⟨r, rfl, h.queue _ (hsafe.settled.scans_alone (by rw [hpc]; rfl)) hpc⟩
  case reclaim_lock hl => exact h.query _ _ hpc (by rw [hd]) rfl rfl rfl
  case scan_used i out ret hi hu | scan_unused i out ret hi hu =>
    rw [Mem.view_of_nil hb] at hu
    refine h.client_step _ _ hpc ?_ rfl rfl rfl (.inr (by simp [Pc.scanned]))
    simp [Pc.registry, HazardRegistry.clientStep, hi, hu]
  case scan_done i out ret hi =>
    refine h.client_step _ _ hpc ?_ rfl rfl rfl (.inr (by simp [Pc.scanned]))
    simp [Pc.registry, HazardRegistry.clientStep, hi]
  case scan_ptr i out ret =>
    refine h.client_step _ _ hpc ?_ rfl rfl rfl (.inr (by simp [Pc.scanned]))
    simp [Pc.registry, HazardRegistry.clientStep, Mem.view_of_nil hb]
  case retain_keep out k ret a hk ho =>
    simp only [Pc.reclaiming, hk, if_pos ho]
    exact ⟨r, rfl, h.quiet hpc rfl rfl rfl rfl (.inl rfl) (.inr (by simp [Pc.scanned]))⟩
  case retain_free out k ret a hk ho =>
    have hself : Function.update pc t (.retain out k ret) = pc := by
      rw [← hpc, Function.update_eq_self]
    obtain ⟨r', hr', h'⟩ := h.free hsafe.toNodes hpc hk ho
    rw [hself]
    exact ⟨r', by simp [Pc.reclaiming, hk, ho, hr'], h'⟩
  case retain_done out k ret hk =>
    simp only [Pc.reclaiming, hk, Pc.relinked]
    refine h.client_step _ _ hpc ?_ rfl rfl rfl (.inl rfl)
    simp [Pc.registry, HazardRegistry.clientStep]

end Reclaims

variable {l : List Addr} {s s' : Stack} {r : Reclamation} {own : Addr → Place} {a : Stack.Act}

theorem Reclaims.act (h : Reclaims l s.mem s.pc r) (hsafe : Safe own l s.mem s.pc)
    (hb : ∀ t, s.mem.buf t = []) (hst : s.step .sc a = some s') :
    ∃ r', (s.reclaiming a).foldlM Reclamation.step r = some r' ∧
      Reclaims (s.relinked l a) s'.mem s'.pc r' := by
  cases Stack.act_cases hst
  case push t v hp | force_reclaim t hp | alloc t v a hp ha hn =>
    exact ⟨r, rfl, h.quiet hp rfl rfl rfl rfl (.inl rfl) (.inl rfl)⟩
  case pop t hp =>
    obtain ⟨r', hr', h'⟩ := h.client (t := t) (.acquire t) s.mem (.acquire 0) rfl hp
      (by simp [HazardRegistry.step, hp, Pc.registry, HazardRegistry.setPc]) rfl rfl rfl (.inl rfl)
    exact ⟨r', by simp [Stack.reclaiming, hr'], h'⟩
  case step t m p hm => exact h.move hsafe (hb t) hm
  case flush t st rest hbt => rw [hb t] at hbt; cases hbt

/-- **The stack refines hazard-pointer reclamation.** Every run of the stack is, step by step,
a run of readers and reclaimers on one registry: in it the registry has the slots of the
stack and its threads as clients, the nodes of the list are linked, the nodes popped or
queued are retired, what a `pop` has verified is validated, and a node that the stack frees
is freed there, which takes a query that was called after the node was retired. -/
theorem stack_refines_reclamation {tr : History Stack Stack.Act} {s : Stack}
    (h : Run (Stack.step .sc) anyEnv .new tr s) :
    ∃ tr' r, Run Reclamation.step anyEnv .new tr' r ∧
      tr'.map Prod.snd = expansion Stack.reclaiming tr ∧
      ∃ l, Linked s.mem.next null s.mem.head l ∧ Reclaims l s.mem s.pc r := by
  obtain ⟨r, hr, own, l, hsafe, hrec⟩ := h.expands
    (R := fun s r => ∃ own l, Safe own l s.mem s.pc ∧ Reclaims l s.mem s.pc r)
    ⟨_, _, .new, .new⟩ fun tr s a s' r hrun ⟨own, l, hsafe, hrec⟩ _ hst => by
      obtain ⟨r', hr', hrec'⟩ := hrec.act hsafe (Stack.buf_sc hrun) hst
      obtain ⟨own', hsafe'⟩ := hsafe.act hst (Stack.publishesFirst_sc hrun a)
      exact ⟨r', hr', own', _, hsafe', hrec'⟩
  obtain ⟨tr', hrun, hacts⟩ := Run.nil.fold hr
  exact ⟨tr', r, hrun, hacts, l, hsafe.owned.links, hrec⟩

/-- One thread pushes a node, another pops it, and a third reclaims it. -/
theorem stack_refines_reclamation_freed :
    ∃ tr s, Run (Stack.step .sc) anyEnv .new tr s ∧ s.mem.heap 1 = none ∧
      ∃ tr' r, Run Reclamation.step anyEnv .new tr' r ∧
        tr'.map Prod.snd = expansion Stack.reclaiming tr ∧
        ∃ l, Linked s.mem.next null s.mem.head l ∧ Reclaims l s.mem s.pc r := by
  have hexec : (exec (Stack.step .sc) [] Stack.new
      (List.flatten [[.push 0 7, .alloc 0 1], .replicate 4 (.step 0), [.pop 1],
        .replicate 14 (.step 1), [.force_reclaim 2], .replicate 68 (.step 2)])).map
          (fun r => r.2.mem.heap 1) = some none := by
    decide +kernel
  obtain ⟨r, hr, hfreed⟩ := Option.map_eq_some_iff.1 hexec
  have hrun : Run (Stack.step .sc) anyEnv .new r.1 r.2 :=
    Run.nil.exec (fun _ _ _ _ => trivial) hr
  exact ⟨r.1, r.2, hrun, hfreed, stack_refines_reclamation hrun⟩

end Samsara.SafeTreiber
