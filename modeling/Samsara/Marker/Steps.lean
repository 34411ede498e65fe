import Mathlib.Algebra.BigOperators.Group.Finset.Basic
import Samsara.Lib.Progress
import Samsara.Marker

/-!
# `mark`, one step at a time

`MarkCall` is a call of `mark` in progress: its locals and where it stands. A step is one
turn of a loop, one `pop_front` or one call of `refs_of`, so that the history of a run says
how often each is done. The invariant at the head of the `while` loop is `MarkInv` without
an open id; inside the body the dequeued id is open (`MarkCall.Inv`). `Logs` says what was
enqueued, dequeued, scanned and inspected so far.
-/

namespace Samsara

open StepSys

/-- Where `mark` stands; `rest` is what is left of the list a `for` loop goes through. -/
inductive MarkPc (Id : Type) where
  | roots (rest : List Id)
  /-- the head of the `while` loop -/
  | head
  /-- `id` is dequeued, `refs_of` is called next -/
  | refs_of (id : Id)
  | children (id : Id) (rest : List Id)
  | done

structure MarkCall (Id : Type) where
  m : MarkState Id
  pc : MarkPc Id

variable {Id : Type} [DecidableEq Id]

def MarkState.fresh (m : MarkState Id) (id : Id) : List Id := if id ∈ m.seen then [] else [id]

namespace MarkCall

def start (g : ObjectGraph Id) : MarkCall Id where
  m := { color := fun id => if id ∈ g.all_ids then some .White else none, grey := [], seen := ∅ }
  pc := .roots g.roots

def step (g : ObjectGraph Id) (s : MarkCall Id) (_ : Unit) : Option (MarkCall Id) :=
  match s.pc with
  | .roots [] => some { s with pc := .head }
  | .roots (r :: rest) => some ⟨s.m.visit r, .roots rest⟩
  | .head =>
    match s.m.grey with
    | [] => some { s with pc := .done }
    | id :: rest => some ⟨{ s.m with grey := rest }, .refs_of id⟩
  | .refs_of id => some { s with pc := .children id (g.refs_of id) }
  | .children id [] =>
    some ⟨{ s.m with color := Function.update s.m.color id (some .Black) }, .head⟩
  | .children id (child :: rest) => some ⟨s.m.visit child, .children id rest⟩
  | .done => none

/-! ## What a step does -/

def enqueues (s : MarkCall Id) : List Id :=
  match s.pc with
  | .roots (id :: _) | .children _ (id :: _) => s.m.fresh id
  | _ => []

def dequeues (s : MarkCall Id) : List Id :=
  match s.pc, s.m.grey with
  | .head, id :: _ => [id]
  | _, _ => []

def calls (s : MarkCall Id) : List Id :=
  match s.pc with
  | .refs_of id => [id]
  | _ => []

def inspects (s : MarkCall Id) : List Id :=
  match s.pc with
  | .children _ (child :: _) => [child]
  | _ => []

/-- What the steps of a history did, in order. -/
def logged (f : MarkCall Id → List Id) (tr : History (MarkCall Id) Unit) : List Id :=
  tr.flatMap fun x => f x.1

/-! ## The loop invariant -/

/-- Before the loop the part of the roots left is still to be visited; in the body the
dequeued id is open. -/
def Inv (g : ObjectGraph Id) (s : MarkCall Id) : Prop :=
  match s.pc with
  | .roots rest => MarkInv g ∅ none s.m ∧ (∀ r ∈ rest, r ∈ g.roots) ∧
      ∀ r ∈ g.roots, r ∈ rest ∨ r ∈ s.m.seen
  | .head => MarkInv g g.rootSet none s.m
  | .refs_of id => MarkInv g g.rootSet (some id) s.m
  | .children id rest => MarkInv g g.rootSet (some id) s.m ∧ (∀ c ∈ rest, c ∈ g.refs_of id) ∧
      ∀ c ∈ g.refs_of id, c ∈ rest ∨ c ∈ s.m.seen
  | .done => MarkInv g g.rootSet none s.m ∧ s.m.grey = []

variable {g : ObjectGraph Id} {s s' : MarkCall Id} {m : MarkState Id}

theorem seen_rest {l rest : List Id} {id : Id} (h : ∀ x ∈ l, x ∈ id :: rest ∨ x ∈ m.seen) :
    ∀ x ∈ l, x ∈ rest ∨ x ∈ (m.visit id).seen := by
  intro x hx
  rw [MarkState.seen_visit, Finset.mem_insert]
  rcases h x hx with hm | hm
  · rcases List.mem_cons.mp hm with rfl | hm
    · exact .inr (.inl rfl)
    · exact .inl hm
  · exact .inr (.inr hm)

theorem inv_start (g : ObjectGraph Id) : Inv g (start g) :=
  ⟨markStart_inv g, fun _ hr => hr, fun _ hr => .inl hr⟩

/-- **Every step keeps the invariant.** -/
theorem Inv.step (h : Inv g s) {a : Unit} (hst : s.step g a = some s') : Inv g s' := by
  obtain ⟨m, pc⟩ := s
  cases pc with
  | roots rest =>
    obtain ⟨hm, hsub, hall⟩ := h
    cases rest with
    | nil =>
      cases hst
      exact { hm with cover := ⟨fun r hr => (hall r hr).resolve_left (by simp), hm.cover.scanned⟩ }
    | cons r rest =>
      cases hst
      have hr : r ∈ g.reach := Search.Reach.root (hsub r List.mem_cons_self)
      exact ⟨hm.visit hr, fun x hx => hsub x (List.mem_cons_of_mem _ hx), seen_rest hall⟩
  | head =>
    have h : MarkInv g g.rootSet none m := h
    simp only [MarkCall.step] at hst
    split at hst
    · next hq =>
      cases hst
      exact ⟨h, hq⟩
    · next id rest hq =>
      cases hst
      exact h.dequeue hq
  | refs_of id =>
    cases hst
    exact ⟨h, fun c hc => hc, fun c hc => .inl hc⟩
  | children id rest =>
    obtain ⟨hm, hsub, hall⟩ := h
    cases rest with
    | nil =>
      cases hst
      exact hm.blacken fun c hc => (hall c hc).resolve_left (by simp)
    | cons c rest =>
      cases hst
      have hid : id ∈ g.reach := hm.reach_of_grey ((hm.grey id).mpr (.inr rfl))
      have hc : c ∈ g.reach := Search.Reach.step hid (hsub c List.mem_cons_self)
      exact ⟨hm.visit hc, fun x hx => hsub x (List.mem_cons_of_mem _ hx), seen_rest hall⟩
  | done => cases hst

theorem inv_of_run {tr : History (MarkCall Id) Unit} (h : Run (step g) anyEnv (start g) tr s) :
    Inv g s :=
  h.inv (inv_start g) fun _ _ _ ih hst => ih.step hst

end MarkCall

/-! ## The head of the loop -/

open MarkCall

/-- **The tri-colour loop invariant.** In every run, at the head of every iteration: the Grey
ids are the entries of the queue, each there once, the seen ones the Grey and Black; every
root is Grey or Black, every Grey or Black id is reachable, and so are the colours of the
children of a Black id: not White and not absent. -/
theorem mark_loop_invariant {g : ObjectGraph Id} {tr : History (MarkCall Id) Unit}
    {s : MarkCall Id} (h : Run (MarkCall.step g) anyEnv (start g) tr s) (hpc : s.pc = .head) :
    (∀ id, s.m.color id = some .Grey ↔ id ∈ s.m.grey) ∧ s.m.grey.Nodup ∧
    (∀ id, id ∈ s.m.seen ↔ s.m.color id = some .Grey ∨ s.m.color id = some .Black) ∧
    (∀ r ∈ g.roots, s.m.color r = some .Grey ∨ s.m.color r = some .Black) ∧
    (∀ id, s.m.color id = some .Grey ∨ s.m.color id = some .Black → id ∈ g.reach) ∧
    ∀ id, s.m.color id = some .Black → ∀ child ∈ g.refs_of id,
      s.m.color child ≠ some .White ∧ s.m.color child ≠ none := by
  have hinv := inv_of_run h
  unfold MarkCall.Inv at hinv
  rw [hpc] at hinv
  refine ⟨fun id => ?_, hinv.nodup, hinv.seen, fun r hr => (hinv.seen r).mp (hinv.cover.roots hr),
    fun id hid => hinv.sound id ((hinv.seen id).mpr hid), fun id hb child hc => ?_⟩
  · rw [hinv.grey]
    simp
  · have hseen := (hinv.seen child).mp (hinv.cover.scanned id hb child hc)
    constructor <;> intro e <;> rw [e] at hseen <;> simp at hseen

/-- The first id of the cycle is scanned, its child waits. -/
theorem mark_loop_invariant_cycle :
    ∃ tr s, Run (MarkCall.step cycleGraph) anyEnv (start cycleGraph) tr s ∧ s.m.grey = [1] ∧
      ∀ id, s.m.color id = some .Grey ↔ id ∈ s.m.grey := by
  obtain ⟨⟨tr, s⟩, hx⟩ : ∃ r, exec (MarkCall.step cycleGraph) [] (start cycleGraph)
      (List.replicate 7 ()) = some r := ⟨_, rfl⟩
  have h0 : Run (MarkCall.step cycleGraph) anyEnv (start cycleGraph) [] (start cycleGraph) := .nil
  have hr := h0.exec (fun _ _ _ _ => trivial) hx
  cases hx
  exact ⟨_, _, hr, rfl, (mark_loop_invariant hr rfl).1⟩

/-! ## The log of a run -/

theorem MarkState.grey_visit (m : MarkState Id) (id : Id) :
    (m.visit id).grey = m.grey ++ m.fresh id := by
  unfold visit fresh
  split
  · rw [List.append_nil]
  · rfl

namespace MarkCall

omit [DecidableEq Id] in
theorem logged_snoc (f : MarkCall Id → List Id) (tr : History (MarkCall Id) Unit)
    (x : MarkCall Id × Unit) : logged f (tr ++ [x]) = logged f tr ++ f x.1 := by
  simp [logged]

/-- Children not yet looked at. -/
def pending (s : MarkCall Id) : List Id :=
  match s.pc with
  | .children _ rest => rest
  | _ => []

variable {g : ObjectGraph Id} {s s' : MarkCall Id} {m : MarkState Id}
  {tr : History (MarkCall Id) Unit}

/-- `l` lists the seen ids, each once. -/
def Lists (l : List Id) (m : MarkState Id) : Prop := l.Nodup ∧ ∀ id, id ∈ m.seen ↔ id ∈ l

theorem Lists.visit {l : List Id} (h : Lists l m) (x : Id) :
    Lists (l ++ m.fresh x) (m.visit x) := by
  obtain ⟨hnd, hseen⟩ := h
  unfold MarkState.fresh
  by_cases hx : x ∈ m.seen
  · rw [if_pos hx, List.append_nil]
    refine ⟨hnd, fun id => ?_⟩
    rw [MarkState.seen_visit, Finset.insert_eq_self.mpr hx]
    exact hseen id
  · rw [if_neg hx]
    refine ⟨List.nodup_append.mpr ⟨hnd, List.nodup_singleton x, fun a ha b hb => ?_⟩, fun id => ?_⟩
    · rw [List.mem_singleton.mp hb]
      rintro rfl
      exact hx ((hseen a).mpr ha)
    · rw [MarkState.seen_visit, Finset.mem_insert, hseen, List.mem_append, List.mem_singleton,
        or_comm]

/-- What one step does to the queue, to the calls and to the children left. -/
structure Effect (g : ObjectGraph Id) (s s' : MarkCall Id) : Prop where
  queue : s.m.grey ++ s.enqueues = s.dequeues ++ s'.m.grey
  seen : ∀ l, Lists l s.m → Lists (l ++ s.enqueues) s'.m
  called : s.dequeues = s'.calls
  inspected : s.pending ++ s.calls.flatMap g.refs_of = s.inspects ++ s'.pending

theorem step_effect {a : Unit} (hst : s.step g a = some s') : Effect g s s' := by
  obtain ⟨m, pc⟩ := s
  have quiet (l : List Id) (h : Lists l m) : Lists (l ++ []) m := by rwa [List.append_nil]
  cases pc with
  | roots rest =>
    cases rest with
    | nil =>
      cases hst
      exact ⟨List.append_nil _, quiet, rfl, rfl⟩
    | cons r rest =>
      cases hst
      exact ⟨(m.grey_visit r).symm, fun l h => h.visit r, rfl, rfl⟩
  | head =>
    simp only [MarkCall.step] at hst
    split at hst
    · next hq =>
      cases hst
      refine ⟨?_, quiet, ?_, rfl⟩ <;> simp [enqueues, dequeues, calls, hq]
    · next id rest hq =>
      cases hst
      refine ⟨?_, quiet, ?_, rfl⟩ <;> simp [enqueues, dequeues, calls, hq]
  | refs_of id =>
    cases hst
    exact ⟨List.append_nil _, quiet, rfl, List.flatMap_singleton _ _⟩
  | children id rest =>
    cases rest with
    | nil =>
      cases hst
      exact ⟨List.append_nil _, quiet, rfl, rfl⟩
    | cons c rest =>
      cases hst
      exact ⟨(m.grey_visit c).symm, fun l h => h.visit c, rfl, List.append_nil _⟩
  | done => cases hst

/-- What was enqueued is what was dequeued and the queue, each id once; what was dequeued is
scanned, and the children of the scanned ids are inspected. -/
structure Logs (g : ObjectGraph Id) (tr : History (MarkCall Id) Unit) (s : MarkCall Id) :
    Prop where
  queue : logged enqueues tr = logged dequeues tr ++ s.m.grey
  seen : Lists (logged enqueues tr) s.m
  called : logged dequeues tr = logged calls tr ++ s.calls
  inspected : (logged calls tr).flatMap g.refs_of = logged inspects tr ++ s.pending

theorem Logs.step (h : Logs g tr s) {a : Unit} (hst : s.step g a = some s') :
    Logs g (tr ++ [(s, a)]) s' := by
  have he := step_effect hst
  refine ⟨?_, ?_, ?_, ?_⟩ <;> simp only [logged_snoc]
  · rw [h.queue, List.append_assoc, he.queue, List.append_assoc]
  · exact he.seen _ h.seen
  · rw [h.called, he.called]
  · rw [List.flatMap_append, h.inspected, List.append_assoc, he.inspected, List.append_assoc]

theorem logs_of_run (h : Run (MarkCall.step g) anyEnv (start g) tr s) : Logs g tr s := by
  refine h.hist (P := Logs g) ⟨rfl, ⟨List.nodup_nil, fun id => ?_⟩, rfl, rfl⟩ ?_
  · simp [start, logged]
  · exact fun _ _ _ _ _ ih _ hst => ih.step hst

/-! ## Termination -/

/-- What is left to do: `unscanned` ids, and within an iteration the children. -/
def rank (g : ObjectGraph Id) (unscanned : Nat) (s : MarkCall Id) : Nat ×ₗ Nat :=
  match s.pc with
  | .roots rest => toLex (unscanned + 1, rest.length)
  | .head =>
    match s.m.grey with
    | [] => toLex (unscanned, 1)
    | id :: _ => toLex (unscanned, (g.refs_of id).length + 3)
  | .refs_of id => toLex (unscanned, (g.refs_of id).length + 2)
  | .children _ rest => toLex (unscanned, rest.length + 1)
  | .done => toLex (unscanned, 0)

def unscanned (g : ObjectGraph Id) (s : MarkCall Id) : Set Id := g.reach \ s.m.black

theorem step_of_not_done (g : ObjectGraph Id) (hd : s.pc ≠ .done) (a : Unit) :
    ∃ s', s.step g a = some s' := by
  obtain ⟨m, pc⟩ := s
  cases pc with
  | roots rest => cases rest <;> exact ⟨_, rfl⟩
  | head =>
    simp only [MarkCall.step]
    split <;> exact ⟨_, rfl⟩
  | refs_of id => exact ⟨_, rfl⟩
  | children id rest => cases rest <;> exact ⟨_, rfl⟩
  | done => exact absurd rfl hd

/-- **Every step lowers the rank**: an iteration takes its id out of the unscanned ones. -/
theorem Inv.rank_lt (h : Inv g s) (hfin : g.reach.Finite) {a : Unit}
    (hst : s.step g a = some s') :
    s'.rank g (s'.unscanned g).ncard < s.rank g (s.unscanned g).ncard := by
  obtain ⟨m, pc⟩ := s
  cases pc with
  | roots rest =>
    obtain ⟨hm, -⟩ := h
    cases rest with
    | nil =>
      cases hst
      unfold rank
      simp only
      split <;> exact toLex_lt_of (.inl (Nat.lt_succ_self _))
    | cons r rest =>
      cases hst
      refine toLex_lt_of (.inr ⟨?_, Nat.lt_succ_self _⟩)
      simp only [unscanned, hm.black_visit]
  | head =>
    simp only [MarkCall.step] at hst
    split at hst
    · next hq =>
      cases hst
      simp only [rank, hq]
      exact toLex_lt_of (.inr ⟨rfl, Nat.zero_lt_one⟩)
    · next id rest hq =>
      cases hst
      simp only [rank, hq]
      exact toLex_lt_of (.inr ⟨rfl, Nat.lt_succ_self _⟩)
  | refs_of id =>
    cases hst
    exact toLex_lt_of (.inr ⟨rfl, Nat.lt_succ_self _⟩)
  | children id rest =>
    obtain ⟨hm, -⟩ := h
    cases rest with
    | nil =>
      cases hst
      have hgrey : m.color id = some .Grey := (hm.grey id).mpr (.inr rfl)
      have hlt : (unscanned g ⟨{ m with color := Function.update m.color id (some .Black) },
          .head⟩).ncard < (unscanned g ⟨m, .children id []⟩).ncard := by
        refine ncard_unscanned_lt hfin (hm.reach_of_grey hgrey)
          (fun hb => by rw [MarkState.black, Set.mem_ofPred_eq, hgrey] at hb; cases hb) ?_
        rintro x (rfl | hx)
        · simp [MarkState.black]
        · by_cases e : x = id <;> simp_all [MarkState.black]
      unfold rank
      simp only
      split <;> exact toLex_lt_of (.inl hlt)
    | cons c rest =>
      cases hst
      refine toLex_lt_of (.inr ⟨?_, Nat.lt_succ_self _⟩)
      simp only [unscanned, hm.black_visit]
  | done => cases hst

theorem step_of_done (hd : s.pc = .done) (a : Unit) : s.step g a = none := by
  simp only [MarkCall.step, hd]

theorem returns (g : ObjectGraph Id) (hfin : g.reach.Finite) :
    ∃ tr s, Run (MarkCall.step g) anyEnv (start g) tr s ∧ s.pc = .done := by
  have h0 : Run (MarkCall.step g) anyEnv (start g) [] (start g) := .nil
  obtain ⟨tr, s, -, hr, -, -, hd⟩ := h0.reaches (fun _ => True) (fun s => s.pc = .done)
    (fun s (_ : Unit) => MarkCall.Inv g s) (fun s _ => s.rank g (s.unscanned g).ncard)
    (fun tr s w _ hi hd => by
      obtain ⟨s', hst⟩ := step_of_not_done g hd ()
      exact ⟨(), s', w, trivial, trivial, hst, hi.step hst, hi.rank_lt hfin hst⟩)
    (w := ()) (inv_start g)
  exact ⟨tr, s, hr, hd⟩

/-- The step machine computes what `mark` returns. -/
theorem marks_of_done (hfin : g.reach.Finite) (hi : MarkInv g g.rootSet none m)
    (hq : m.grey = []) : Marks g m.color := by
  obtain ⟨c, hc⟩ := mark_returns g hfin
  obtain ⟨m', rfl, hi', hq'⟩ := hc.final
  rwa [hi.color_eq hq hi' hq']

end MarkCall

/-- **Each reachable object is processed exactly once.** On a graph with a finite reachable
set the call of `mark` comes to an end, and every run is a part of the one that does: there
each reachable id is enqueued once, dequeued once and passed to `refs_of` once, and no other
id is; dequeues and children inspected add up to the reachable ids and their references. -/
theorem mark_processes_each_once (g : ObjectGraph Id) (hfin : g.reach.Finite) :
    ∃ tr s, Run (MarkCall.step g) anyEnv (start g) tr s ∧ s.pc = .done ∧ Marks g s.m.color ∧
      (∀ tr' s', Run (MarkCall.step g) anyEnv (start g) tr' s' → tr' <+: tr) ∧
      (logged enqueues tr).Nodup ∧ (∀ id, id ∈ logged enqueues tr ↔ id ∈ g.reach) ∧
      logged dequeues tr = logged enqueues tr ∧ logged calls tr = logged dequeues tr ∧
      (logged dequeues tr).length + (logged inspects tr).length =
        g.reach.ncard + ∑ id ∈ hfin.toFinset, (g.refs_of id).length := by
  obtain ⟨tr, s, hr, hd⟩ := MarkCall.returns g hfin
  have hlogs := logs_of_run hr
  have hinv := inv_of_run hr
  unfold MarkCall.Inv at hinv
  rw [hd] at hinv
  obtain ⟨hinv, hq⟩ := hinv
  obtain ⟨hnd, hseen⟩ := hlogs.seen
  -- at the end the queue is empty and nothing is pending
  have hdeq : logged dequeues tr = logged enqueues tr := by
    rw [hlogs.queue, hq, List.append_nil]
  have hcall : logged calls tr = logged dequeues tr := by
    rw [hlogs.called, calls, hd, List.append_nil]
  have hins : (logged calls tr).flatMap g.refs_of = logged inspects tr := by
    rw [hlogs.inspected, pending, hd, List.append_nil]
  have hreach (id : Id) : id ∈ logged enqueues tr ↔ id ∈ g.reach := by
    rw [← hseen, hinv.seen, ← hinv.black_iff_reach hq]
    have := hinv.not_grey hq id
    tauto
  refine ⟨tr, s, hr, hd, marks_of_done hfin hinv hq,
    fun tr' s' h' => hr.prefix_of_stuck (step_of_done hd) h', hnd, hreach, hdeq, hcall, ?_⟩
  have hfs : hfin.toFinset = (logged enqueues tr).toFinset := by
    ext id
    rw [Set.Finite.mem_toFinset, List.mem_toFinset, hreach]
  have hcard : g.reach.ncard = (logged enqueues tr).length := by
    rw [Set.ncard_eq_toFinset_card _ hfin, hfs, List.toFinset_card_of_nodup hnd]
  rw [hcard, hfs, List.sum_toFinset _ hnd, ← hins, hcall, hdeq, List.length_flatMap]

/-- The cycle, its duplicate root and its self-reference. -/
theorem mark_processes_each_once_cycle :
    ∃ tr s, Run (MarkCall.step cycleGraph) anyEnv (start cycleGraph) tr s ∧ s.pc = .done ∧
      (logged calls tr).Nodup := by
  have hfin : cycleGraph.reach.Finite := (Set.toFinite {0, 1, 2, 9}).subset cycleGraph_reach
  obtain ⟨tr, s, hr, hd, -, -, hnd, -, hdeq, hcall, -⟩ := mark_processes_each_once cycleGraph hfin
  exact ⟨tr, s, hr, hd, by rwa [hcall, hdeq]⟩

end Samsara
