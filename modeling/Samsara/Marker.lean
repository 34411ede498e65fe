import Mathlib.Data.Finset.Insert
import Mathlib.Data.Set.Card
import Mathlib.Logic.Function.Basic
import Samsara.Lib.Search

/-!
# The stop-the-world marker (`marker.rs`)

`mark` colours a graph breadth first: `color` maps ids to colours, `grey` is the
queue, `seen` the set of ids ever enqueued. The `while` loop runs on fuel; with a
finite reachable set enough fuel exists (`mark_returns`), and what is returned is the
same for all of it. `MarkInv` is the loop invariant; its parameter `scanning` is the id
whose children are being visited, which is grey without being in the queue.
-/

namespace Samsara

inductive Color where
  | White
  | Grey
  | Black
  deriving DecidableEq, Repr

structure ObjectGraph (Id : Type) where
  roots : List Id
  refs_of : Id → List Id
  all_ids : List Id

variable {Id : Type}

/-- `y` is a child of `x`. -/
def ObjectGraph.Edge (g : ObjectGraph Id) (x y : Id) : Prop := y ∈ g.refs_of x

/-- The ids reachable from `roots()` through `refs_of`. -/
def ObjectGraph.reach (g : ObjectGraph Id) : Set Id := Search.Reach g.Edge {r | r ∈ g.roots}

/-- The locals of `mark`. -/
structure MarkState (Id : Type) where
  color : Id → Option Color
  grey : List Id
  seen : Finset Id

variable [DecidableEq Id]

/-- `if seen.insert(id) { color.insert(id, Grey); grey.push_back(id) }`. -/
def MarkState.visit (m : MarkState Id) (id : Id) : MarkState Id :=
  if id ∈ m.seen then m
  else
    { color := Function.update m.color id (some .Grey)
      grey := m.grey ++ [id]
      seen := insert id m.seen }

/-- The maps before the loop: every listed id White, the roots visited. -/
def markInit (g : ObjectGraph Id) : MarkState Id :=
  g.roots.foldl MarkState.visit
    { color := fun id => if id ∈ g.all_ids then some .White else none
      grey := []
      seen := ∅ }

/-- The loop body for the dequeued `id`: visit its children, then colour it Black. -/
def MarkState.scan (g : ObjectGraph Id) (m : MarkState Id) (id : Id) : MarkState Id :=
  let m' := (g.refs_of id).foldl MarkState.visit m
  { m' with color := Function.update m'.color id (some .Black) }

/-- `while let Some(id) = grey.pop_front()`, `none` when the fuel runs out. -/
def markLoop (g : ObjectGraph Id) : Nat → MarkState Id → Option (MarkState Id)
  | 0, _ => none
  | fuel + 1, m =>
    match m.grey with
    | [] => some m
    | id :: rest => markLoop g fuel (MarkState.scan g { m with grey := rest } id)

def mark (g : ObjectGraph Id) (fuel : Nat) : Option (Id → Option Color) :=
  (markLoop g fuel (markInit g)).map MarkState.color

/-- `mark(graph)` returns the map `c`: every large enough fuel computes it. -/
def Marks (g : ObjectGraph Id) (c : Id → Option Color) : Prop :=
  ∃ n, ∀ fuel, n ≤ fuel → mark g fuel = some c

/-! ## The loop invariant -/

def MarkState.black (m : MarkState Id) : Set Id := {id | m.color id = some .Black}

/-- The tri-colour invariant of `mark`, for the part `R` of the roots. -/
structure MarkInv (g : ObjectGraph Id) (R : Set Id) (scanning : Option Id) (m : MarkState Id) :
    Prop where
  grey : ∀ id, m.color id = some .Grey ↔ id ∈ m.grey ∨ scanning = some id
  nodup : m.grey.Nodup
  not_queued : ∀ id, scanning = some id → id ∉ m.grey
  seen : ∀ id, id ∈ m.seen ↔ m.color id = some .Grey ∨ m.color id = some .Black
  keys : ∀ id, (m.color id).isSome ↔ id ∈ g.all_ids ∨ id ∈ m.seen
  sound : ∀ id ∈ m.seen, id ∈ g.reach
  cover : Search.Cover g.Edge R m.black {id | id ∈ m.seen}

theorem MarkState.seen_visit (m : MarkState Id) (id : Id) :
    (m.visit id).seen = insert id m.seen := by
  unfold visit
  split
  · next h => exact (Finset.insert_eq_self.mpr h).symm
  · rfl

theorem MarkState.seen_foldl (ids : List Id) (m : MarkState Id) (x : Id) :
    x ∈ (ids.foldl visit m).seen ↔ x ∈ m.seen ∨ x ∈ ids := by
  induction ids generalizing m with
  | nil => simp
  | cons id ids ih =>
    rw [List.foldl_cons, ih, seen_visit, Finset.mem_insert, List.mem_cons]
    tauto

section Visit

variable {g : ObjectGraph Id} {R : Set Id} {scanning : Option Id} {m : MarkState Id}

theorem MarkInv.visit (h : MarkInv g R scanning m) {id : Id} (hid : id ∈ g.reach) :
    MarkInv g R scanning (m.visit id) := by
  unfold MarkState.visit
  split
  · exact h
  next hn =>
  -- an unseen id is neither Grey nor Black, so neither queued nor open
  have hc : m.color id ≠ some .Grey ∧ m.color id ≠ some .Black := by
    rw [h.seen] at hn; tauto
  have hq : id ∉ m.grey ∧ scanning ≠ some id := by
    have := (h.grey id).not.mp hc.1; tauto
  refine ⟨fun x => ?_, ?_, fun x hx => ?_, fun x => ?_, fun x => ?_, fun x hx => ?_, ?_⟩
  · by_cases e : x = id
    · subst e; simp
    · simp [e, h.grey]
  · exact List.nodup_append.mpr ⟨h.nodup, List.nodup_singleton _,
      fun a ha b hb => by rw [List.mem_singleton.mp hb]; exact fun e => hq.1 (e ▸ ha)⟩
  · simp only [List.mem_append, List.mem_singleton, not_or]
    exact ⟨h.not_queued x hx, fun e => hq.2 (e ▸ hx)⟩
  · by_cases e : x = id
    · subst e; simp
    · simp [e, h.seen]
  · by_cases e : x = id
    · subst e; simp
    · simp [e, h.keys]
  · rcases Finset.mem_insert.mp hx with rfl | hx
    · exact hid
    · exact h.sound x hx
  · refine h.cover.mono (fun x hx => ?_) fun x hx => Finset.mem_insert_of_mem hx
    by_cases e : x = id
    · subst e; simp [MarkState.black] at hx
    · simpa [MarkState.black, e] using hx

theorem MarkInv.visits (h : MarkInv g R scanning m) {ids : List Id}
    (hids : ∀ id ∈ ids, id ∈ g.reach) : MarkInv g R scanning (ids.foldl MarkState.visit m) := by
  induction ids generalizing m with
  | nil => exact h
  | cons id ids ih =>
    exact ih (h.visit (hids id List.mem_cons_self)) fun x hx => hids x (List.mem_cons_of_mem _ hx)

theorem MarkInv.black_visit (h : MarkInv g R scanning m) (id : Id) :
    (m.visit id).black = m.black := by
  unfold MarkState.visit
  split
  · rfl
  next hn =>
  have hb : m.color id ≠ some .Black := fun e => hn ((h.seen id).mpr (.inr e))
  ext x
  by_cases e : x = id
  · subst e
    simp [MarkState.black, hb]
  · simp [MarkState.black, e]

end Visit

abbrev ObjectGraph.rootSet (g : ObjectGraph Id) : Set Id := {r | r ∈ g.roots}

theorem markStart_inv (g : ObjectGraph Id) : MarkInv g ∅ none
    { color := fun id => if id ∈ g.all_ids then some .White else none, grey := [], seen := ∅ } := by
  refine ⟨fun id => ?_, List.nodup_nil, (fun _ h => nomatch h), fun id => ?_, fun id => ?_,
    fun id hid => by simp at hid, ⟨fun _ h => h.elim, fun id hid => ?_⟩⟩
  · by_cases h : id ∈ g.all_ids <;> simp [h]
  · by_cases h : id ∈ g.all_ids <;> simp [h]
  · by_cases h : id ∈ g.all_ids <;> simp [h]
  · simp [MarkState.black] at hid

theorem markInit_inv (g : ObjectGraph Id) : MarkInv g g.rootSet none (markInit g) := by
  have h1 : MarkInv g ∅ none (markInit g) :=
    (markStart_inv g).visits fun _ h => Search.Reach.root h
  exact { h1 with
    cover := ⟨fun r hr => (MarkState.seen_foldl _ _ _).mpr (.inr hr), h1.cover.scanned⟩ }

section Scan

variable {g : ObjectGraph Id} {m : MarkState Id} {id : Id} {rest : List Id}

omit [DecidableEq Id] in
theorem MarkInv.reach_of_grey {R : Set Id} {scanning : Option Id} (h : MarkInv g R scanning m)
    (hid : m.color id = some .Grey) : id ∈ g.reach :=
  h.sound id ((h.seen id).mpr (.inl hid))

omit [DecidableEq Id] in
theorem MarkInv.dequeue (h : MarkInv g g.rootSet none m) (hq : m.grey = id :: rest) :
    MarkInv g g.rootSet (some id) { m with grey := rest } :=
  have hnd : id ∉ rest ∧ rest.Nodup := List.nodup_cons.mp (hq ▸ h.nodup)
  { h with
    grey := fun x => by rw [h.grey, hq, List.mem_cons, Option.some.injEq]; tauto
    nodup := hnd.2
    not_queued := fun x hx => by cases hx; exact hnd.1 }

theorem MarkInv.blacken (h : MarkInv g g.rootSet (some id) m)
    (hkids : ∀ c ∈ g.refs_of id, c ∈ m.seen) :
    MarkInv g g.rootSet none { m with color := Function.update m.color id (some .Black) } := by
  have hopen : m.color id = some .Grey := (h.grey id).mpr (.inr rfl)
  refine ⟨fun x => ?_, h.nodup, (fun _ h => nomatch h), fun x => ?_, fun x => ?_, h.sound, ?_⟩
  · by_cases e : x = id
    · subst e; simpa using h.not_queued x rfl
    · simp [e, h.grey, Ne.symm e]
  · by_cases e : x = id
    · subst e; simpa using (h.seen x).mpr (.inl hopen)
    · simp [e, h.seen]
  · by_cases e : x = id
    · subst e; simpa using .inr ((h.seen x).mpr (.inl hopen))
    · simp [e, h.keys]
  · refine h.cover.scan (x := id) (fun x hx => ?_) subset_rfl fun c hc => hkids c hc
    by_cases e : x = id
    · exact .inl e
    · exact .inr (by simpa [MarkState.black, e] using hx)

/-- One iteration keeps the invariant, colours the dequeued id Black and no Black id otherwise. -/
theorem MarkInv.scan (h : MarkInv g g.rootSet none m) (hq : m.grey = id :: rest) :
    MarkInv g g.rootSet none (MarkState.scan g { m with grey := rest } id) := by
  have hgrey : m.color id = some .Grey := (h.grey id).mpr (.inl (by simp [hq]))
  have hreach : id ∈ g.reach := h.reach_of_grey hgrey
  have hkids : ∀ c ∈ g.refs_of id, c ∈ g.reach := fun c hc => Search.Reach.step hreach hc
  exact ((h.dequeue hq).visits hkids).blacken fun c hc =>
    (MarkState.seen_foldl _ _ _).mpr (.inr hc)

end Scan

/-! ## Termination -/

theorem MarkState.color_foldl {ids : List Id} {m : MarkState Id} {x : Id} (hx : x ∈ m.seen) :
    (ids.foldl visit m).color x = m.color x := by
  induction ids generalizing m with
  | nil => rfl
  | cons id ids ih =>
    rw [List.foldl_cons, ih (by rw [seen_visit]; exact Finset.mem_insert_of_mem hx)]
    unfold visit
    split
    · rfl
    · next hn => exact Function.update_of_ne (fun e => hn (by rwa [← e])) _ _

theorem MarkInv.insert_black {g : ObjectGraph Id} {m : MarkState Id}
    (h : MarkInv g g.rootSet none m) (id : Id) (rest : List Id) :
    insert id m.black ⊆ (MarkState.scan g { m with grey := rest } id).black := by
  rintro x (rfl | hx)
  · simp [MarkState.black, MarkState.scan]
  · by_cases e : x = id
    · subst e; simp [MarkState.black, MarkState.scan]
    · have hs : x ∈ ({ m with grey := rest } : MarkState Id).seen := (h.seen x).mpr (.inr hx)
      simp only [MarkState.black, MarkState.scan, Set.mem_ofPred_eq, ne_eq, e, not_false_eq_true,
        Function.update_of_ne, MarkState.color_foldl hs]
      exact hx

omit [DecidableEq Id] in
theorem MarkInv.black_sub {g : ObjectGraph Id} {m : MarkState Id}
    (h : MarkInv g g.rootSet none m) : m.black ⊆ g.reach := fun x hx =>
  h.sound x ((h.seen x).mpr (.inr hx))

omit [DecidableEq Id] in
theorem ncard_unscanned_lt {g : ObjectGraph Id} (hfin : g.reach.Finite) {id : Id}
    {black black' : Set Id} (hid : id ∈ g.reach) (hn : id ∉ black)
    (hb : insert id black ⊆ black') : (g.reach \ black').ncard < (g.reach \ black).ncard :=
  Set.ncard_lt_ncard ⟨fun _ hx => ⟨hx.1, fun hm => hx.2 (hb (.inr hm))⟩,
    fun hs => (hs ⟨hid, hn⟩).2 (hb (.inl rfl))⟩ hfin.sdiff

/-- **The loop ends** on any fuel above the number of reachable ids still to be scanned:
an iteration takes its id out of them. -/
theorem markLoop_isSome {g : ObjectGraph Id} (hfin : g.reach.Finite) {fuel : Nat}
    {m : MarkState Id} (h : MarkInv g g.rootSet none m) (hf : (g.reach \ m.black).ncard < fuel) :
    ∃ m', markLoop g fuel m = some m' := by
  induction fuel generalizing m with
  | zero => omega
  | succ fuel ih =>
    unfold markLoop
    split
    · exact ⟨m, rfl⟩
    next id rest hq =>
    have hgrey : m.color id = some .Grey := (h.grey id).mpr (.inl (by simp [hq]))
    have hlt := ncard_unscanned_lt hfin (h.reach_of_grey hgrey)
      (fun hm => by rw [MarkState.black, Set.mem_ofPred_eq, hgrey] at hm; cases hm)
      (h.insert_black id rest)
    exact ih (h.scan hq) (by omega)

theorem markLoop_mono {g : ObjectGraph Id} {n k : Nat} {m m' : MarkState Id}
    (h : markLoop g n m = some m') (hk : n ≤ k) : markLoop g k m = some m' := by
  induction n generalizing m k with
  | zero => cases h
  | succ n ih =>
    obtain ⟨k, rfl⟩ : ∃ j, k = j + 1 := ⟨k - 1, by omega⟩
    unfold markLoop at h ⊢
    split
    · next hq => rw [hq] at h; exact h
    · next id rest hq =>
      rw [hq] at h
      exact ih h (by omega)

theorem markLoop_inv {g : ObjectGraph Id} {fuel : Nat} {m m' : MarkState Id}
    (h : MarkInv g g.rootSet none m) (hl : markLoop g fuel m = some m') :
    MarkInv g g.rootSet none m' ∧ m'.grey = [] := by
  induction fuel generalizing m with
  | zero => cases hl
  | succ fuel ih =>
    unfold markLoop at hl
    split at hl
    · next hq => cases hl; exact ⟨h, hq⟩
    · next id rest hq => exact ih (h.scan hq) hl

theorem mark_returns (g : ObjectGraph Id) (hfin : g.reach.Finite) : ∃ c, Marks g c := by
  obtain ⟨m, hm⟩ := markLoop_isSome hfin (markInit_inv g) (Nat.lt_succ_self _)
  exact ⟨m.color, _, fun fuel hf => by rw [mark, markLoop_mono hm hf]; rfl⟩

theorem Marks.unique {g : ObjectGraph Id} {c c' : Id → Option Color} (h : Marks g c)
    (h' : Marks g c') : c = c' := by
  obtain ⟨n, hn⟩ := h
  obtain ⟨n', hn'⟩ := h'
  exact Option.some.inj ((hn (max n n') (Nat.le_max_left _ _)).symm.trans
    (hn' (max n n') (Nat.le_max_right _ _)))

/-! ## What `mark` computes -/

section Final

variable {g : ObjectGraph Id} {m m' : MarkState Id}

omit [DecidableEq Id] in
theorem MarkInv.not_grey (h : MarkInv g g.rootSet none m) (hq : m.grey = []) (id : Id) :
    m.color id ≠ some .Grey := by
  rw [Ne, h.grey, hq]
  simp

omit [DecidableEq Id] in
/-- With the queue empty no id is Grey, so everything seen is Black. -/
theorem MarkInv.black_iff_reach (h : MarkInv g g.rootSet none m) (hq : m.grey = []) (id : Id) :
    m.color id = some .Black ↔ id ∈ g.reach := by
  have hd : {x | x ∈ m.seen} ⊆ m.black := fun x hx =>
    ((h.seen x).mp hx).resolve_left (h.not_grey hq x)
  exact Set.ext_iff.mp (h.cover.eq_reach hd h.black_sub) id

omit [DecidableEq Id] in
theorem MarkInv.keys_iff (h : MarkInv g g.rootSet none m) (hq : m.grey = []) (id : Id) :
    (m.color id).isSome ↔ id ∈ g.all_ids ∨ id ∈ g.reach := by
  rw [← h.black_iff_reach hq, h.keys, h.seen]
  have := h.not_grey hq id
  tauto

omit [DecidableEq Id] in
/-- The colours at the end depend on the graph only. -/
theorem MarkInv.color_eq (h : MarkInv g g.rootSet none m) (hq : m.grey = [])
    (h' : MarkInv g g.rootSet none m') (hq' : m'.grey = []) : m.color = m'.color := by
  funext id
  have hg := h.not_grey hq id
  have hg' := h'.not_grey hq' id
  have hb := (h.black_iff_reach hq id).trans (h'.black_iff_reach hq' id).symm
  have hk := (h.keys_iff hq id).trans (h'.keys_iff hq' id).symm
  match hc : m.color id, hc' : m'.color id with
  | none, none => rfl
  | some .White, some .White => rfl
  | some .Black, some .Black => rfl
  | some .Grey, _ => exact absurd hc hg
  | _, some .Grey => exact absurd hc' hg'
  | none, some _ | some _, none => simp [hc, hc'] at hk
  | some .White, some .Black | some .Black, some .White => simp [hc, hc'] at hb

end Final

theorem Marks.final {g : ObjectGraph Id} {c : Id → Option Color} (h : Marks g c) :
    ∃ m, m.color = c ∧ MarkInv g g.rootSet none m ∧ m.grey = [] := by
  obtain ⟨n, hn⟩ := h
  have hm := hn n (Nat.le_refl n)
  rw [mark, Option.map_eq_some_iff] at hm
  obtain ⟨m, hl, rfl⟩ := hm
  exact ⟨m, rfl, markLoop_inv (markInit_inv g) hl⟩

theorem Marks.not_grey {g : ObjectGraph Id} {c : Id → Option Color} (h : Marks g c) (id : Id) :
    c id ≠ some .Grey := by
  obtain ⟨m, rfl, hi, hq⟩ := h.final
  exact hi.not_grey hq id

/-- **The Black ids are exactly the reachable ones.** -/
theorem Marks.black_iff {g : ObjectGraph Id} {c : Id → Option Color} (h : Marks g c) (id : Id) :
    c id = some .Black ↔ id ∈ g.reach := by
  obtain ⟨m, rfl, hi, hq⟩ := h.final
  exact hi.black_iff_reach hq id

theorem Marks.keys {g : ObjectGraph Id} {c : Id → Option Color} (h : Marks g c) (id : Id) :
    (c id).isSome ↔ id ∈ g.all_ids ∨ id ∈ g.reach := by
  obtain ⟨m, rfl, hi, hq⟩ := h.final
  exact hi.keys_iff hq id

theorem Marks.white {g : ObjectGraph Id} {c : Id → Option Color} (h : Marks g c) {id : Id}
    (hk : (c id).isSome) (hr : id ∉ g.reach) : c id = some .White := by
  have hg := h.not_grey id
  rw [← h.black_iff] at hr
  match hc : c id with
  | some .White => rfl
  | some .Grey => exact absurd hc hg
  | some .Black => exact absurd hc hr
  | none => rw [hc] at hk; cases hk

/-- **`mark` computes reachability.** On a graph with a finite reachable set it returns
a map with the listed and the reachable ids as keys, the reachable ones Black, every
other key White, nothing Grey, and the children of a Black id Black. -/
theorem mark_computes_reachability (g : ObjectGraph Id) (hfin : g.reach.Finite) :
    ∃ c, Marks g c ∧
      (∀ id, (c id).isSome ↔ id ∈ g.all_ids ∨ id ∈ g.reach) ∧
      (∀ id, c id = some .Black ↔ id ∈ g.reach) ∧
      (∀ id, (c id).isSome → id ∉ g.reach → c id = some .White) ∧
      (∀ id, c id ≠ some .Grey) ∧
      ∀ id, c id = some .Black → ∀ child ∈ g.refs_of id, c child = some .Black := by
  obtain ⟨c, hc⟩ := mark_returns g hfin
  refine ⟨c, hc, hc.keys, hc.black_iff, fun id => hc.white, hc.not_grey, fun id hb child hch => ?_⟩
  rw [hc.black_iff] at hb ⊢
  exact Search.Reach.step hb hch

/-- A three-element cycle with an edge to an unlisted id; `7` is listed garbage. -/
def cycleGraph : ObjectGraph Nat where
  roots := [0, 0]
  refs_of
    | 0 => [1]
    | 1 => [2, 9]
    | 2 => [0, 2]
    | _ => []
  all_ids := [0, 1, 2, 7]

theorem cycleGraph_reach : cycleGraph.reach ⊆ {0, 1, 2, 9} := by
  refine Search.Reach.subset (fun r hr => ?_) fun x hx y e => ?_
  · simp [cycleGraph] at hr
    simp [hr]
  · simp only [ObjectGraph.Edge, cycleGraph] at e
    rcases hx with rfl | rfl | rfl | rfl <;> simp at e ⊢ <;> omega

theorem mark_computes_reachability_cycle :
    ∃ c, Marks cycleGraph c ∧ c 9 = some .Black ∧ c 7 = some .White := by
  have hfin : cycleGraph.reach.Finite := (Set.toFinite {0, 1, 2, 9}).subset cycleGraph_reach
  obtain ⟨c, hc, hkeys, hblack, hwhite, -, hkids⟩ := mark_computes_reachability cycleGraph hfin
  have h0 : c 0 = some .Black := (hblack 0).mpr (Search.Reach.root (by simp [cycleGraph]))
  have h1 := hkids 0 h0 1 (by simp [cycleGraph])
  refine ⟨c, hc, hkids 1 h1 9 (by simp [cycleGraph]), ?_⟩
  exact hwhite 7 ((hkeys 7).mpr (.inl (by simp [cycleGraph])))
    fun h => by simpa using cycleGraph_reach h

end Samsara
