import Samsara.Region.States

/-!
# A program over the collected heap

What the crate is for: a program that allocates objects in a `RegionHeap`, writes into them,
links them, and collects whenever it likes, each time by the documented cycle (`pre_mark`,
`mark`, `mark_live` of every Black object, `sweep`). `Ideal` is the same program over objects
that are never collected. `Agrees` relates the two on the objects reachable from the roots;
every operation keeps it, the ideal program skipping the collections.
-/

namespace Samsara

open StepSys

/-- Where the program keeps an object. -/
structure Entry where
  handle : RegionHandle
  size : Nat

structure Program (Id : Type) where
  heap : RegionHeap
  table : Id → Option Entry
  roots : List Id
  refs : Id → List Id
  /-- allocated so far, dead or alive -/
  ids : List Id

inductive ProgramOp (Id : Type) where
  /-- a new object without references, which becomes a root -/
  | alloc (id : Id) (size : Nat)
  | write (id : Id) (data : List UInt8)
  /-- replace the references of `id` -/
  | link (id : Id) (targets : List Id)
  /-- replace the roots -/
  | root (ids : List Id)
  /-- a whole cycle, `mark_live` in the given order -/
  | collect (order : List Id)

variable {Id : Type}

namespace Program

def new (n : Nat) : Program Id := ⟨.with_regions n, fun _ => none, [], fun _ => [], []⟩

def graph (p : Program Id) : ObjectGraph Id := ⟨p.roots, p.refs, p.ids⟩

def read (p : Program Id) (id : Id) (len : Nat) : Option (List UInt8) :=
  (p.table id).bind fun e => p.heap.read e.handle len

/-- `pre_mark`, `mark_live` of the objects in `order`, `sweep`. -/
def cycle (p : Program Id) (order : List Id) : Option RegionHeap :=
  (order.mapM fun id => (p.table id).map Entry.handle).bind fun hds =>
    (p.heap.pre_mark.markAll hds).map fun marked => marked.sweep.1

variable [DecidableEq Id]

/-- One operation; `none` is a panic. A refused allocation leaves the program as it was. -/
def step (p : Program Id) : ProgramOp Id → Option (Program Id)
  | .alloc id size =>
    match p.heap.alloc size with
    | none => none
    | some (heap, none) => some { p with heap := heap }
    | some (heap, some h) =>
      some { heap := heap
             table := Function.update p.table id (some ⟨h, size⟩)
             roots := id :: p.roots
             refs := Function.update p.refs id []
             ids := id :: p.ids }
  | .write id data =>
    (p.table id).bind fun e => (p.heap.write e.handle data).map fun heap => { p with heap := heap }
  | .link id targets => some { p with refs := Function.update p.refs id targets }
  | .root ids => some { p with roots := ids }
  | .collect order => (p.cycle order).map fun heap => { p with heap := heap }

/-- The program reaches what it touches, new ids name no reachable object, writes fit, and a
collection marks what `mark` colours Black, each object once. -/
def permits (p : Program Id) : ProgramOp Id → Prop
  | .alloc id size => id ∉ p.graph.reach ∧ 0 < size
  | .write id data => id ∈ p.graph.reach ∧ ∀ e, p.table id = some e → data.length ≤ e.size
  | .link id targets => id ∈ p.graph.reach ∧ ∀ x ∈ targets, x ∈ p.graph.reach
  | .root ids => ∀ x ∈ ids, x ∈ p.graph.reach
  | .collect order => order.Nodup ∧
      ∃ color, Marks p.graph color ∧ ∀ id, id ∈ order ↔ color id = some .Black

def proper (_ : History (Program Id) (ProgramOp Id)) (p : Program Id) (op : ProgramOp Id) : Prop :=
  p.permits op

end Program

/-! ## The ideal program -/

structure Object where
  size : Nat
  /-- the bytes written, later writes over earlier ones -/
  written : List UInt8

structure Ideal (Id : Type) where
  objects : Id → Option Object
  roots : List Id
  refs : Id → List Id

inductive IdealOp (Id : Type) where
  | new (id : Id) (size : Nat)
  | write (id : Id) (data : List UInt8)
  | link (id : Id) (targets : List Id)
  | root (ids : List Id)

namespace Ideal

def new : Ideal Id := ⟨fun _ => none, [], fun _ => []⟩

/-- The first `len` bytes, if they were written. -/
def read (t : Ideal Id) (id : Id) (len : Nat) : Option (List UInt8) :=
  (t.objects id).bind fun o => if len ≤ o.written.length then some (o.written.take len) else none

def step [DecidableEq Id] (t : Ideal Id) : IdealOp Id → Option (Ideal Id)
  | .new id size =>
    some { objects := Function.update t.objects id (some ⟨size, []⟩)
           roots := id :: t.roots
           refs := Function.update t.refs id [] }
  | .write id data =>
    (t.objects id).map fun o => { t with
      objects := Function.update t.objects id
        (some { o with written := data ++ o.written.drop data.length }) }
  | .link id targets => some { t with refs := Function.update t.refs id targets }
  | .root ids => some { t with roots := ids }

end Ideal

/-- What the ideal program does at a step: nothing at a collection or a refused allocation. -/
def Program.ideal (p : Program Id) : ProgramOp Id → Option (IdealOp Id)
  | .alloc id size =>
    match p.heap.alloc size with
    | some (_, some _) => some (.new id size)
    | _ => none
  | .write id data => some (.write id data)
  | .link id targets => some (.link id targets)
  | .root ids => some (.root ids)
  | .collect _ => none

/-! ## The relation -/

/-- Object `id` of the ideal program lies in a valid handle of the heap. -/
def Backed (c : Client) (p : Program Id) (t : Ideal Id) (id : Id) : Prop :=
  ∃ g ∈ c.grants, p.table id = some ⟨g.handle, g.size⟩ ∧
    t.objects id = some ⟨g.size, g.written⟩ ∧ 0 < g.size

/-- The two programs agree on everything reachable; `c` is what the heap's user knows. -/
structure Agrees (c : Client) (p : Program Id) (t : Ideal Id) : Prop extends ClientInv c where
  heap : c.heap = p.heap
  consistent : Consistent p.heap
  roots : p.roots = t.roots
  refs : p.refs = t.refs
  listed : ∀ id ∈ p.graph.reach, id ∈ p.ids
  backed : ∀ id ∈ p.graph.reach, Backed c p t id
  distinct : ∀ id ∈ p.graph.reach, ∀ id' ∈ p.graph.reach, p.table id = p.table id' → id = id'

/-- Without references the roots are all that is reachable. -/
theorem ObjectGraph.reach_roots {g : ObjectGraph Id} (hrefs : ∀ id, g.refs_of id = []) :
    g.reach = {id | id ∈ g.roots} := by
  refine Set.Subset.antisymm ?_ fun _ h => Search.Reach.root h
  refine Search.Reach.subset (fun _ h => h) fun x _ y hy => ?_
  rw [Edge, hrefs] at hy
  cases hy

section Step

variable {c : Client} {p : Program Id} {t : Ideal Id}

theorem Program.reach_subset {p' : Program Id} (hroots : ∀ x ∈ p'.roots, x ∈ p.graph.reach)
    (hrefs : ∀ x ∈ p.graph.reach, ∀ y ∈ p'.refs x, y ∈ p.graph.reach) :
    p'.graph.reach ⊆ p.graph.reach :=
  Search.Reach.subset hroots hrefs

theorem Agrees.shrink (h : Agrees c p t) {p' : Program Id} {t' : Ideal Id}
    (hheap : p'.heap = p.heap) (htable : p'.table = p.table) (hids : p'.ids = p.ids)
    (hobjects : t'.objects = t.objects) (hroots : p'.roots = t'.roots) (hrefs : p'.refs = t'.refs)
    (hsub : p'.graph.reach ⊆ p.graph.reach) : Agrees c p' t' where
  toClientInv := h.toClientInv
  heap := h.heap.trans hheap.symm
  consistent := hheap ▸ h.consistent
  roots := hroots
  refs := hrefs
  listed id hid := hids ▸ h.listed id (hsub hid)
  backed id hid := by
    unfold Backed
    rw [htable, hobjects]
    exact h.backed id (hsub hid)
  distinct id hid id' hid' := by
    rw [htable]
    exact h.distinct id (hsub hid) id' (hsub hid')

theorem Layout.handle_inj (h : Layout c) {g g' : Grant} (hg : g ∈ c.grants) (hg' : g' ∈ c.grants)
    (hs : 0 < g.size) (hs' : 0 < g'.size) (he : g.handle = g'.handle) : g = g' := by
  by_contra hne
  have hapart := h.apart hg hg' hne (congrArg (·.region.toNat) he)
  simp only [Grant.end_, Grant.start, he] at hapart
  omega

theorem Agrees.placed (h : Agrees c p t) : ∃ place : Id → Grant, Placed c p.graph place ∧
    ∀ id ∈ p.graph.reach, p.table id = some ⟨(place id).handle, (place id).size⟩ ∧
      t.objects id = some ⟨(place id).size, (place id).written⟩ := by
  have : Nonempty Grant := ⟨⟨⟨0, 0⟩, 0, [], false⟩⟩
  choose! place hmem htable hobjects hsize using h.backed
  refine ⟨place, ⟨hmem, hsize, fun id hid id' hid' e => ?_⟩,
    fun id hid => ⟨htable id hid, hobjects id hid⟩⟩
  refine h.distinct id hid id' hid' ?_
  have hg := h.handle_inj (hmem id hid) (hmem id' hid') (hsize id hid) (hsize id' hid') e
  rw [htable id hid, htable id' hid', hg]

theorem Agrees.reach_finite (h : Agrees c p t) : p.graph.reach.Finite :=
  (List.finite_toSet p.ids).subset h.listed

/-! ## Allocation -/

variable {id : Id} {size : Nat} {heap : RegionHeap}

theorem Agrees.refused (h : Agrees c p t) (e : p.heap.alloc size = some (heap, none)) :
    Agrees { c with heap := heap } { p with heap := heap } t := by
  have hst : c.step (.alloc size) = some { c with heap := heap } := by
    rw [Client.step, h.heap, e]
  have hperm : c.permits (.alloc size) := trivial
  exact { toClientInv := ClientInv.step h.toClientInv hperm hst, heap := rfl,
          consistent := h.consistent.alloc e, roots := h.roots, refs := h.refs,
          listed := h.listed, backed := h.backed, distinct := h.distinct }

variable [DecidableEq Id] {hd : RegionHandle}

def Program.extend (p : Program Id) (heap : RegionHeap) (hd : RegionHandle) (id : Id)
    (size : Nat) : Program Id where
  heap := heap
  table := Function.update p.table id (some ⟨hd, size⟩)
  roots := id :: p.roots
  refs := Function.update p.refs id []
  ids := id :: p.ids

theorem Program.reach_extend {x : Id} (hx : x ∈ (p.extend heap hd id size).graph.reach) :
    x = id ∨ x ∈ p.graph.reach := by
  refine Search.Reach.subset (S := {x | x = id ∨ x ∈ p.graph.reach}) (fun r hr => ?_)
    (fun y hy z hz => ?_) hx
  · exact (List.mem_cons.mp hr).imp_right Search.Reach.root
  · by_cases e : y = id
    · subst e
      simp [ObjectGraph.Edge, graph, extend] at hz
    · refine .inr (Search.Reach.step (hy.resolve_left e) ?_)
      simpa [ObjectGraph.Edge, graph, extend, e] using hz

theorem Agrees.granted (h : Agrees c p t) (hfresh : id ∉ p.graph.reach) (hsize : 0 < size)
    (e : p.heap.alloc size = some (heap, some hd)) :
    ∃ t', t.step (.new id size) = some t' ∧
      Agrees { c with heap := heap, grants := ⟨hd, size, [], false⟩ :: c.grants }
        (p.extend heap hd id size) t' := by
  have hst : c.step (.alloc size) =
      some { c with heap := heap, grants := ⟨hd, size, [], false⟩ :: c.grants } := by
    rw [Client.step, h.heap, e]
  have hperm : c.permits (.alloc size) := trivial
  have hinv := ClientInv.step h.toClientInv hperm hst
  have hne {x : Id} (hx : x ∈ p.graph.reach) : x ≠ id := fun he => hfresh (he ▸ hx)
  -- an old object keeps its entry, and its handle is not the new one
  have hold {x : Id} (hx : x ∈ p.graph.reach) :
      (p.extend heap hd id size).table x = p.table x ∧ p.table x ≠ some ⟨hd, size⟩ := by
    refine ⟨Function.update_of_ne (hne hx) _ _, fun hd' => ?_⟩
    obtain ⟨g, hg, htable, -, hpos⟩ := h.backed x hx
    rw [htable, Option.some.injEq, Entry.mk.injEq] at hd'
    have hafter := (List.pairwise_cons.mp hinv.after).1 g hg (by rw [← hd'.1]; rfl)
    simp only [Grant.end_, Grant.start, hd'.1] at hafter
    omega
  refine ⟨_, rfl, ?_⟩
  refine { toClientInv := hinv, heap := rfl, consistent := h.consistent.alloc e,
           roots := congrArg (id :: ·) h.roots, refs := by simp [Program.extend, h.refs],
           listed := fun x hx => ?_, backed := fun x hx => ?_,
           distinct := fun x hx y hy he => ?_ }
  · exact (Program.reach_extend hx).elim (fun he => he ▸ List.mem_cons_self)
      fun hx => List.mem_cons_of_mem _ (h.listed x hx)
  · rcases Program.reach_extend hx with rfl | hx
    · exact ⟨_, List.mem_cons_self, Function.update_self .., Function.update_self .., hsize⟩
    · obtain ⟨g, hg, htable, hobject, hpos⟩ := h.backed x hx
      exact ⟨g, List.mem_cons_of_mem _ hg, (hold hx).1.trans htable,
        (Function.update_of_ne (hne hx) _ _).trans hobject, hpos⟩
  · have hnew : (p.extend heap hd id size).table id = some ⟨hd, size⟩ := Function.update_self ..
    rcases Program.reach_extend hx with ex | hx <;> rcases Program.reach_extend hy with ey | hy
    · rw [ex, ey]
    · rw [ex, hnew, (hold hy).1] at he
      exact absurd he.symm (hold hy).2
    · rw [ey, hnew, (hold hx).1] at he
      exact absurd he (hold hx).2
    · rw [(hold hx).1, (hold hy).1] at he
      exact h.distinct x hx y hy he

/-! ## Writes -/

theorem Agrees.write (h : Agrees c p t) {data : List UInt8} (hid : id ∈ p.graph.reach)
    (hfit : ∀ e, p.table id = some e → data.length ≤ e.size) :
    ∃ c' p' t', p.step (.write id data) = some p' ∧ t.step (.write id data) = some t' ∧
      Agrees c' p' t' := by
  obtain ⟨g, hg, htable, hobject, hpos⟩ := h.backed id hid
  have hperm : c.permits (.write g.handle data) := ⟨g, hg, rfl, hfit _ htable⟩
  obtain ⟨c', hst⟩ := h.returns hperm
  have hinv := ClientInv.step h.toClientInv hperm hst
  obtain ⟨heap, hw, rfl⟩ := Option.map_eq_some_iff.mp hst
  have hw' : p.heap.write g.handle data = some heap := h.heap ▸ hw
  have hcall : p.heap.call (.write g.handle data) = some heap := hw'
  let o : Object := ⟨g.size, data ++ g.written.drop data.length⟩
  refine ⟨{ c with heap := heap, grants := c.grants.map (Grant.write g.handle data) },
    { p with heap := heap }, { t with objects := Function.update t.objects id (some o) },
    ?_, ?_, ?_⟩
  · simp only [Program.step, htable, Option.bind_some, hw', Option.map_some]
  · simp only [Ideal.step, hobject, Option.map_some, o]
  refine { toClientInv := hinv, heap := rfl,
           consistent := h.consistent.call hcall, roots := h.roots, refs := h.refs,
           listed := h.listed, backed := fun x hx => ?_, distinct := h.distinct }
  by_cases e : x = id
  · subst e
    have hown : g.write g.handle data = { g with written := o.written } :=
      if_pos ⟨rfl, hfit _ htable⟩
    exact ⟨_, List.mem_map_of_mem hg, by rw [hown]; exact htable,
      by rw [hown]; exact Function.update_self .., by rw [hown]; exact hpos⟩
  · obtain ⟨g', hg', htable', hobject', hpos'⟩ := h.backed x hx
    -- another object has another handle, so the write passes it by
    have hother : g'.write g.handle data = g' := if_neg fun hw => e <| by
      refine h.distinct x hx id hid ?_
      rw [htable, htable', h.handle_inj hg' hg hpos' hpos hw.1]
    exact ⟨_, List.mem_map_of_mem hg', by rw [hother]; exact htable',
      by rw [hother]; exact (Function.update_of_ne e _ _).trans hobject',
      by rw [hother]; exact hpos'⟩

end Step

/-! ## Collections -/

section Collect

variable {c : Client} {p : Program Id} {t : Ideal Id} {place : Id → Grant} {order : List Id}
  {marked : RegionHeap} {g : ObjectGraph Id}

theorem mapM_eq_some_map {α β : Type} {f : α → Option β} {m : α → β} {l : List α}
    (h : ∀ x ∈ l, f x = some (m x)) : l.mapM f = some (l.map m) := by
  induction l with
  | nil => rfl
  | cons a l ih =>
    rw [List.mapM_cons, h a List.mem_cons_self, ih fun x hx => h x (List.mem_cons_of_mem _ hx)]
    rfl

theorem Marked.shapes (hm : Marked c place order marked) :
    marked.regions.map Region.shape = c.heap.regions.map Region.shape := by
  refine List.ext_getElem? fun i => ?_
  rw [List.getElem?_map, List.getElem?_map, hm.regions i, Option.map_map]
  rfl

theorem ClientInv.marked_objects (h : ClientInv c) (hm : Marked c place order marked) :
    ClientInv ⟨marked, c.grants.map Grant.unmark,
      fun i => (UInt32.ofNat (order.countP fun id => (place id).region = i)).toNat⟩ := by
  refine { toLayout := h.toLayout.reshape hm.shapes hm.current fun _ => ⟨rfl, rfl⟩,
           count := fun i r hi => ?_, stored := fun g hg => ?_, marked := fun g hg hmk => ?_ }
  · rw [hm.regions i] at hi
    obtain ⟨r₀, -, rfl⟩ := Option.map_eq_some_iff.mp hi
    rfl
  · obtain ⟨g, hgm, rfl⟩ := List.mem_map.mp hg
    have hv : g.Stored marked := (h.stored g hgm).keep (h.laid g hgm) fun r hr =>
      ⟨_, (hm.regions _).trans (congrArg _ hr), rfl⟩
    exact ⟨hv.written, hv.read⟩
  · obtain ⟨g, -, rfl⟩ := List.mem_map.mp hg
    cases hmk

theorem Marked.keeps (hm : Marked c place order marked) (hp : Placed c g place)
    (hinv : Layout c) (hnd : order.Nodup) (horder : ∀ id, id ∈ order ↔ id ∈ g.reach) {id : Id}
    (hid : id ∈ g.reach) : Client.keeps marked (place id).unmark = true := by
  obtain ⟨r, hr, -⟩ := (hinv.laid _ (hp.valid id hid)).region
  have hmr := hm.regions (place id).region
  rw [hr, Option.map_some] at hmr
  have hlive : ¬ Reclaimable c.heap g place (place id).region :=
    fun ⟨_, _, _, hun⟩ => hun id hid rfl
  have hd := fun hd => hlive ((hm.dead_iff hp hinv hnd horder).mp ⟨_, hmr, hd⟩)
  rw [Client.keeps, show (place id).unmark.region = (place id).region from rfl, hmr]
  simpa using hd

theorem Marked.in_use_iff (hm : Marked c place order marked) (hp : Placed c g place)
    (hinv : Layout c) (hnd : order.Nodup) (horder : ∀ id, id ∈ order ↔ id ∈ g.reach) {i : Nat}
    {r : Region} (hr : marked.sweep.1.regions[i]? = some r) :
    r.state ≠ .Free ↔ ∃ id ∈ g.reach, (place id).region = i := by
  rw [sweep_region] at hr
  obtain ⟨m, hmi, rfl⟩ := Option.map_eq_some_iff.mp hr
  have hmr := hm.regions i
  rw [hmi, eq_comm, Option.map_eq_some_iff] at hmr
  obtain ⟨r₀, hr₀, rfl⟩ := hmr
  constructor
  · intro hs
    by_contra hno
    split at hs
    · exact hs rfl
    · next hd =>
      obtain ⟨m, hmi', hd'⟩ := (hm.dead_iff hp hinv hnd horder).mpr
        ⟨r₀, hr₀, hs, fun id hid e => hno ⟨id, hid, e⟩⟩
      rw [hmi, Option.some.injEq] at hmi'
      exact hd (hmi' ▸ hd')
  · rintro ⟨id, hid, rfl⟩
    obtain ⟨r, hr', -, hs⟩ := (hinv.laid _ (hp.valid id hid)).region
    rw [hr₀, Option.some.injEq] at hr'
    subst hr'
    have hk := hm.keeps hp hinv hnd horder hid
    rw [Client.keeps, show (place id).unmark.region = (place id).region from rfl, hmi] at hk
    rw [if_neg (by simpa using hk)]
    exact hs

/-- **A collection loses no reachable object**, and frees every region without one. -/
theorem Agrees.collect (h : Agrees c p t) (hnd : order.Nodup)
    (horder : ∀ id, id ∈ order ↔ id ∈ p.graph.reach) :
    ∃ c' heap, p.cycle order = some heap ∧ Agrees c' { p with heap := heap } t ∧
      ∀ (i : Nat) r, heap.regions[i]? = some r →
        (r.state ≠ .Free ↔
          ∃ id ∈ p.graph.reach, ∃ e, p.table id = some e ∧ e.handle.region.toNat = i) := by
  obtain ⟨place, hp, hplace⟩ := h.placed
  obtain ⟨marked, hmark, hm⟩ :=
    marked_of_placed hp h.toLayout fun id hid => (horder id).mp hid
  have hcycle : p.cycle order = some marked.sweep.1 := by
    unfold Program.cycle
    rw [mapM_eq_some_map fun id hid => by rw [(hplace id ((horder id).mp hid)).1]; rfl]
    simp only [Option.bind_some, ← h.heap, hmark, Option.map_some]
  have hinv := (h.toClientInv.marked_objects hm).sweep
  refine ⟨_, _, hcycle, { toClientInv := hinv, heap := rfl, consistent := ?_, roots := h.roots,
                          refs := h.refs, listed := h.listed, backed := fun id hid => ?_,
                          distinct := h.distinct }, fun i r hr => ?_⟩
  · exact (h.consistent.reshape (h.heap ▸ hm.shapes) (h.heap ▸ hm.current)).sweep
  · obtain ⟨htable, hobject⟩ := hplace id hid
    exact ⟨_, List.mem_filter.mpr ⟨List.mem_map_of_mem (hp.valid id hid),
      hm.keeps hp h.toLayout hnd horder hid⟩, htable, hobject, hp.nonempty id hid⟩
  · rw [hm.in_use_iff hp h.toLayout hnd horder hr]
    refine exists_congr fun id => and_congr_right fun hid => ?_
    rw [(hplace id hid).1]
    simp [Grant.region]

end Collect

/-! ## Runs -/

section Run

variable {c : Client} {p : Program Id} {t : Ideal Id} {n : Nat}

theorem agrees_new (hn : n ≤ 2 ^ 32) : Agrees (.new n) (.new n : Program Id) .new := by
  have hreach (id : Id) : id ∉ (Program.new n : Program Id).graph.reach := fun hid => by
    obtain ⟨r, hr, -⟩ := hid
    cases hr
  exact { toClientInv := clientInv_new hn
          heap := rfl
          consistent := .with_regions n
          roots := rfl
          refs := rfl
          listed := fun id hid => absurd hid (hreach id)
          backed := fun id hid => absurd hid (hreach id)
          distinct := fun id hid => absurd hid (hreach id) }

theorem Agrees.reads (h : Agrees c p t) {id : Id} (hid : id ∈ p.graph.reach) {len : Nat}
    {bytes : List UInt8} (hread : t.read id len = some bytes) : p.read id len = some bytes := by
  obtain ⟨g, hg, htable, hobject, -⟩ := h.backed id hid
  obtain ⟨r, hr, -⟩ := (h.laid g hg).region
  have hstored := (h.stored g hg).read
  rw [Ideal.read, hobject, Option.bind_some] at hread
  split at hread
  · next hlen =>
    cases hread
    rw [Program.read, htable, Option.bind_some, ← h.heap]
    rw [RegionHeap.read_of_region hr] at hstored ⊢
    exact Buffer.slice_take hstored hlen
  · cases hread

variable [DecidableEq Id] {tr : History (Program Id) (ProgramOp Id)}

/-- **Every permitted operation returns**, and the ideal program can follow it. -/
theorem Agrees.step (h : Agrees c p t) {op : ProgramOp Id} (hp : p.permits op) :
    ∃ c' p' t', p.step op = some p' ∧ follow Ideal.step t (p.ideal op) = some t' ∧
      Agrees c' p' t' := by
  cases op with
  | alloc id size =>
    obtain ⟨hfresh, hsize⟩ := hp
    obtain ⟨heap, res, e⟩ : ∃ heap res, p.heap.alloc size = some (heap, res) :=
      h.consistent.alloc_isSome
    simp only [Program.step, Program.ideal, e]
    cases res with
    | none => exact ⟨_, _, t, rfl, rfl, h.refused e⟩
    | some hd =>
      obtain ⟨t', ht', hagrees⟩ := h.granted hfresh hsize e
      exact ⟨_, _, t', rfl, ht', hagrees⟩
  | write id data => exact h.write hp.1 hp.2
  | link id targets =>
    refine ⟨c, _, _, rfl, rfl, h.shrink rfl rfl rfl rfl h.roots ?_ ?_⟩
    · rw [h.refs]
    · refine Program.reach_subset (fun x hx => Search.Reach.root hx) fun x hx y hy => ?_
      by_cases e : x = id
      · subst e
        simp only [Function.update_self] at hy
        exact hp.2 y hy
      · simp only [Function.update_of_ne e] at hy
        exact Search.Reach.step hx hy
  | root ids =>
    refine ⟨c, { p with roots := ids }, { t with roots := ids }, rfl, rfl,
      h.shrink rfl rfl rfl rfl rfl h.refs ?_⟩
    exact Program.reach_subset hp fun x hx y hy => Search.Reach.step hx hy
  | collect order =>
    obtain ⟨hnd, color, hcolor, hblack⟩ := hp
    obtain ⟨c', heap, hcycle, hagrees, -⟩ := h.collect hnd fun id =>
      (hblack id).trans (hcolor.black_iff id)
    exact ⟨c', _, t, by rw [Program.step, hcycle]; rfl, rfl, hagrees⟩

theorem agrees_of_run (hn : n ≤ 2 ^ 32) (h : Run Program.step Program.proper (.new n) tr p) :
    ∃ t, (shadow Program.ideal tr).foldlM Ideal.step .new = some t ∧ ∃ c, Agrees c p t := by
  refine h.refines (R := fun p t => ∃ c, Agrees c p t) ⟨_, agrees_new hn⟩ ?_
  rintro tr p op p' t ⟨c, hagrees⟩ hp hst
  obtain ⟨c', p₁, t', hst', ht', hagrees'⟩ := hagrees.step hp
  rw [hst, Option.some.injEq] at hst'
  exact ⟨t', ht', c', hst' ▸ hagrees'⟩

theorem Agrees.can_collect (h : Agrees c p t) : ∃ order, p.permits (.collect order) := by
  obtain ⟨color, hcolor⟩ := mark_returns p.graph h.reach_finite
  refine ⟨h.reach_finite.toFinset.toList, Finset.nodup_toList _, color, hcolor, fun id => ?_⟩
  rw [Finset.mem_toList, Set.Finite.mem_toFinset, hcolor.black_iff]

/-- **Collection is transparent.** Whatever the program does and however often it collects, it
has the roots and the references of the program that never collects, and whatever that one
reads from a reachable object it reads too; no permitted operation panics, and a collection
is permitted at any moment. -/
theorem collection_is_transparent (hn : n ≤ 2 ^ 32)
    (h : Run Program.step Program.proper (.new n) tr p) :
    ∃ t, (shadow Program.ideal tr).foldlM Ideal.step .new = some t ∧
      p.roots = t.roots ∧ p.refs = t.refs ∧
      (∀ id ∈ p.graph.reach, (t.objects id).isSome ∧
        ∀ len bytes, t.read id len = some bytes → p.read id len = some bytes) ∧
      (∀ op, p.permits op → ∃ p', p.step op = some p') ∧
      ∃ order, p.permits (.collect order) := by
  obtain ⟨t, ht, c, hagrees⟩ := agrees_of_run hn h
  refine ⟨t, ht, hagrees.roots, hagrees.refs,
    fun id hid => ⟨?_, fun len bytes => hagrees.reads hid⟩, fun op hp => ?_, hagrees.can_collect⟩
  · obtain ⟨g, -, -, hobject, -⟩ := hagrees.backed id hid
    rw [hobject]
    rfl
  · obtain ⟨_, p', _, hst, -⟩ := hagrees.step hp
    exact ⟨p', hst⟩

/-- **A collection makes room.** After it a region is in use exactly if it holds a reachable
object, and as long as one does not, every request that fits in a region is served. -/
theorem collection_makes_room (hn : n ≤ 2 ^ 32)
    (h : Run Program.step Program.proper (.new n) tr p) {order : List Id}
    (hp : p.permits (.collect order)) {p' : Program Id} (hst : p.step (.collect order) = some p') :
    (∀ (i : Nat) r, p'.heap.regions[i]? = some r →
      (r.state ≠ .Free ↔
        ∃ id ∈ p'.graph.reach, ∃ e, p'.table id = some e ∧ e.handle.region.toNat = i)) ∧
    ∀ i < p'.heap.regions.length,
      (∀ id ∈ p'.graph.reach, ∀ e, p'.table id = some e → e.handle.region.toNat ≠ i) →
      ∀ size ≤ REGION_SIZE, ∃ heap hd, p'.heap.alloc size = some (heap, some hd) := by
  obtain ⟨t, -, c, hagrees⟩ := agrees_of_run hn h
  obtain ⟨hnd, color, hcolor, hblack⟩ := hp
  obtain ⟨c', heap, hcycle, hagrees', hregions⟩ := hagrees.collect hnd fun id =>
    (hblack id).trans (hcolor.black_iff id)
  rw [Program.step, hcycle] at hst
  cases hst
  refine ⟨hregions, fun i hi hempty size hsize => ?_⟩
  refine hagrees'.consistent.alloc_of_free hsize
    (List.countP_pos_iff.mpr ⟨_, List.getElem_mem hi, ?_⟩)
  by_contra hs
  obtain ⟨id, hid, e, htable, hregion⟩ :=
    (hregions i _ (List.getElem?_eq_getElem hi)).mp (by simpa using hs)
  exact hempty id hid e htable hregion

end Run

/-! ## An example -/

/-- Object `0` holds a byte; object `1` filled the other region and was dropped. -/
theorem dropped_run :
    ∃ tr p p', Run Program.step Program.proper (.new 2) tr (p : Program Nat) ∧
      p.permits (.collect [0]) ∧ p.step (.collect [0]) = some p' ∧
      p'.roots = [0] ∧ (∀ id, p'.refs id = []) ∧ p'.table 0 = some ⟨⟨0, 0⟩, 8⟩ ∧
      p.heap.n_free = 0 ∧ p'.heap.regions.length = 2 ∧
      ((shadow Program.ideal tr).foldlM Ideal.step .new).bind (·.read 0 1) = some [7] := by
  have hrefs (id : Nat) :
      Function.update (Function.update (fun _ => ([] : List Nat)) 0 []) 1 [] id = [] := by
    simp [Function.update]
  have h1 := (Run.nil : Run Program.step Program.proper (.new 2) [] (.new 2 : Program Nat)).snoc
    (show Program.proper _ _ (.alloc 0 8) from
      ⟨by rw [ObjectGraph.reach_roots fun _ => rfl]; exact List.not_mem_nil, by decide⟩) rfl
  have h2 := h1.snoc (show Program.proper _ _ (.write 0 [7]) from
    ⟨Search.Reach.root (List.mem_singleton_self 0), fun e he => by cases he; decide⟩) rfl
  have h3 := h2.snoc (show Program.proper _ _ (.alloc 1 REGION_SIZE) from
    ⟨by
      rw [ObjectGraph.reach_roots fun id => by simp [Program.graph, Program.new]]
      decide, by decide⟩) rfl
  have h4 := h3.snoc (show Program.proper _ _ (.root [0]) from
    fun x hx => Search.Reach.root (List.mem_cons_of_mem _ hx)) rfl
  obtain ⟨t, -, c, hagrees⟩ := agrees_of_run (by decide) h4
  obtain ⟨color, hcolor⟩ := mark_returns _ hagrees.reach_finite
  refine ⟨_, _, _, h4, ⟨List.nodup_singleton 0, color, hcolor, fun id => ?_⟩, rfl, rfl, hrefs, rfl,
    by decide, rfl, rfl⟩
  rw [hcolor.black_iff, ObjectGraph.reach_roots hrefs]
  rfl

/-- The collection leaves object `0` readable. -/
theorem collection_is_transparent_dropped :
    ∃ tr p, Run Program.step Program.proper (.new 2) tr (p : Program Nat) ∧
      p.read 0 1 = some [7] := by
  obtain ⟨tr, p, p', h, hp, hst, hroots, -, -, -, -, hread⟩ := dropped_run
  have h' : Run Program.step Program.proper _ _ _ := h.snoc hp hst
  obtain ⟨t, ht, -, -, hreads, -⟩ := collection_is_transparent (by decide) h'
  refine ⟨_, p', h', (hreads 0 (Search.Reach.root ?_)).2 1 [7] ?_⟩
  · exact (show 0 ∈ p'.roots by rw [hroots]; exact List.mem_singleton_self 0)
  · rw [shadow, List.filterMap_append] at ht
    have ht' : (shadow Program.ideal tr).foldlM Ideal.step .new = some t := by
      simpa [Program.ideal, shadow] using ht
    rw [ht'] at hread
    exact hread

/-- With no region free, the collection makes room in the one that object `1` filled. -/
theorem collection_makes_room_dropped :
    ∃ tr p p', Run Program.step Program.proper (.new 2) tr (p : Program Nat) ∧
      p.heap.n_free = 0 ∧ p.step (.collect [0]) = some p' ∧
      ∃ heap hd, p'.heap.alloc REGION_SIZE = some (heap, some hd) := by
  obtain ⟨tr, p, p', h, hp, hst, hroots, hrefs, htable, hfull, hlen, -⟩ := dropped_run
  obtain ⟨-, hroom⟩ := collection_makes_room (by decide) h hp hst
  refine ⟨tr, p, p', h, hfull, hst, hroom 1 (by omega) (fun id hid e he => ?_) _ (Nat.le_refl _)⟩
  rw [ObjectGraph.reach_roots hrefs, show p'.graph.roots = [0] from hroots] at hid
  cases List.mem_singleton.mp hid
  rw [htable, Option.some.injEq] at he
  subst he
  decide

end Samsara
