import Samsara.SafeTreiber.Safe

/-!
# Hazards under store buffers

Under `tso` the `Release` store of `protect` may still be in the thread's buffer when the
`Acquire` load of the verify step runs, so a scan can miss the hazard and free the node
(`buffered_hazard_is_missed`). When every successful verify step comes after its hazard has
reached shared memory, no node is freed that a `pop` is still going to read.
-/

namespace Samsara.SafeTreiber

open StepSys

/-- The node `pop` has verified and is about to read or take. -/
def Pc.reads : Pc → Option Addr
  | read_next _ h | pop_cas _ h _ | read_value _ h => some h
  | _ => none

theorem Pc.reads_cases {q : Pc} {a : Addr} (hq : q.reads = some a) :
    (∃ i, q.protects = some (i, a)) ∨ q.popped = some a := by
  cases q <;> cases hq
  case read_next i | pop_cas i n => exact .inl ⟨i, rfl⟩
  case read_value i => exact .inr rfl

namespace Stack

def frees (s : Stack) (t : Nat) (a : Addr) : Prop :=
  ∃ out k r, s.pc t = .retain out k r ∧ s.mem.retired[k]? = some a ∧ a ∉ out

/-- No thread has read a freed node, and none is freed before it is read. -/
def ReadsAllocated (s : Stack) : Prop :=
  (∀ t, s.pc t ≠ .fault) ∧ ∀ t a, s.frees t a → ∀ u, (s.pc u).reads ≠ some a

end Stack

theorem Safe.readsAllocated {own : Addr → Place} {l : List Addr} {s : Stack}
    (h : Safe own l s.mem s.pc) : s.ReadsAllocated := by
  refine ⟨h.sound, ?_⟩
  rintro t a ⟨out, k, r, ht, hk, ho⟩ u hu
  have hown : own a = .retired := h.owned.retired_of_getElem? hk
  rcases Pc.reads_cases hu with ⟨i, hp⟩ | hp
  · have hi := (h.published.in_memory h.settled hp).1
    exact h.guarded.not_protected ht hown ho hi hp
  · have hpop := ((h.mine u).popper a).2 hp
    rw [hown] at hpop
    cases hpop

/-- Hazards reach shared memory before the reload of `head` that verifies them. -/
def publishedEnv : History Stack Stack.Act → Stack → Stack.Act → Prop :=
  fun _ s a => s.PublishesFirst a

/-- **No `pop` reads a freed node** in any run in which every verify step that finds `head`
unchanged comes after its hazard has left the store buffer. -/
theorem pop_reads_allocated {tr : History Stack Stack.Act} {s : Stack}
    (h : Run (Stack.step .tso) publishedEnv .new tr s) : s.ReadsAllocated := by
  obtain ⟨own, l, hsafe⟩ := Stack.safe (fun _ _ _ _ he => he) h
  exact hsafe.readsAllocated

/-- `PublishesFirst` as a check. -/
def Stack.publishesFirst (s : Stack) : Stack.Act → Bool
  | .step t =>
    match s.pc t with
    | .verify _ h => s.mem.head ≠ h || (s.mem.buf t).isEmpty
    | _ => true
  | _ => true

theorem Stack.publishesFirst_sound {s : Stack} {a : Stack.Act} (h : s.publishesFirst a = true) :
    s.PublishesFirst a := by
  rintro t i b rfl hp hh
  simpa [publishesFirst, hp, hh] using h

/-- The hazard of thread 1 is flushed before it verifies; thread 0 reclaims meanwhile. -/
theorem pop_reads_allocated_flushed :
    ∃ tr s, Run (Stack.step .tso) publishedEnv .new tr s ∧ s.pc 1 = .read_next 0 1 ∧
      s.ReadsAllocated := by
  have hexec : (exec (guarded Stack.publishesFirst (Stack.step .tso)) [] Stack.new
      (List.flatten [[.push 0 7, .alloc 0 1], .replicate 4 (.step 0), [.pop 1],
        .replicate 3 (.step 1), [.flush 1, .step 1]])).map (fun r => r.2.pc 1) =
      some (.read_next 0 1) := by
    decide +kernel
  obtain ⟨r, hr, hpc⟩ := Option.map_eq_some_iff.1 hexec
  have hchecked : Run (guarded Stack.publishesFirst (Stack.step .tso)) anyEnv .new r.1 r.2 :=
    Run.nil.exec (fun _ _ _ _ => trivial) hr
  have hrun : Run (Stack.step .tso) publishedEnv .new r.1 r.2 :=
    hchecked.of_guarded fun _ _ _ h => Stack.publishesFirst_sound h
  exact ⟨r.1, r.2, hrun, hpc, pop_reads_allocated hrun⟩

/-- Thread 0 pushes a node and starts to pop it; its hazard stays in its store buffer while it
verifies `head`. Thread 1 pops the node, retires it and reclaims: its scan finds no hazard
and the node is freed. Then thread 0 reads `next`. -/
def bufferedHazard : List Stack.Act :=
  [.push 0 7, .alloc 0 1] ++ List.replicate 4 (.step 0) ++ [.pop 0] ++
    List.replicate 4 (.step 0) ++ [.pop 1] ++ List.replicate 15 (.step 1) ++
    [.force_reclaim 1] ++ List.replicate 68 (.step 1) ++ [.step 0]

theorem buffered_hazard_is_missed :
    ¬ ∀ (tr : History Stack Stack.Act) (s : Stack),
      Run (Stack.step .tso) anyEnv .new tr s → s.ReadsAllocated := by
  intro hclaim
  have hexec : (exec (Stack.step .tso) [] Stack.new bufferedHazard).map (fun r => r.2.pc 0) =
      some .fault := by
    decide +kernel
  obtain ⟨r, hr, hpc⟩ := Option.map_eq_some_iff.1 hexec
  exact (hclaim r.1 r.2 (Run.nil.exec (fun _ _ _ _ => trivial) hr)).1 0 hpc

end Samsara.SafeTreiber
