import Mathlib.Data.Finset.Option
import Samsara.SafeTreiber.Progress

/-!
# What the stack holds in memory

Popped nodes are freed late, but not much later: besides the nodes on the list there are the
nodes in the queue, which a reclaim pass keeps short, and one node at most for each thread in
a call, the one it is about to link or has taken off.
-/

namespace Samsara.SafeTreiber

open StepSys

def Pc.holding (q : Pc) : Option Addr :=
  match q.pushing with
  | some (_, a) => some a
  | none => q.popped

theorem Pc.holding_of_pushing {q : Pc} {v : UInt32} {a : Addr} (h : q.pushing = some (v, a)) :
    q.holding = some a := by
  simp [holding, h]

theorem Pc.holding_of_popped {q : Pc} {a : Addr} (h : q.popped = some a) :
    q.holding = some a := by
  cases q <;> first | exact h | cases h

theorem Pc.ne_idle_of_holding {q : Pc} {a : Addr} (h : q.holding = some a) : q ≠ .idle := by
  rintro rfl
  cases h

variable {own : Addr → Place} {l : List Addr} {s : Stack} {threads : Finset Nat} {a : Addr}

/-- Where the allocated nodes are. -/
def Stack.held (l : List Addr) (threads : Finset Nat) (s : Stack) : Finset Addr :=
  l.toFinset ∪ s.mem.retired.toFinset ∪ threads.biUnion fun t => (s.pc t).holding.toFinset

theorem mem_held (h : Safe own l s.mem s.pc) (ht : ∀ t, s.pc t ≠ .idle → t ∈ threads)
    (ha : s.mem.heap a ≠ none) : a ∈ s.held l threads := by
  simp only [Stack.held, Finset.mem_union, List.mem_toFinset, Finset.mem_biUnion,
    Option.mem_toFinset, Option.mem_def]
  have hmine {t : Nat} (hp : (s.pc t).holding = some a) :
      ∃ t ∈ threads, (s.pc t).holding = some a :=
    ⟨t, ht t (Pc.ne_idle_of_holding hp), hp⟩
  cases hown : own a with
  | free => exact absurd ((h.owned.free a).1 hown) ha
  | linked => exact .inl (.inl ((h.owned.linked a).1 hown))
  | retired => exact .inl (.inr ((h.owned.retired a).1 hown))
  | pusher t =>
    obtain ⟨v, hp⟩ := ((h.mine t).pusher a).1 hown
    exact .inr (hmine (Pc.holding_of_pushing hp))
  | popper t => exact .inr (hmine (Pc.holding_of_popped (((h.mine t).popper a).1 hown)))

theorem card_held (l : List Addr) (threads : Finset Nat) (s : Stack) :
    (s.held l threads).card ≤ l.length + s.mem.retired.length + threads.card := by
  have hone : ∀ t ∈ threads, (s.pc t).holding.toFinset.card ≤ 1 := by
    intro t _
    cases (s.pc t).holding <;> simp
  have hthreads := Finset.card_biUnion_le_card_mul threads _ 1 hone
  have hlist := List.toFinset_card_le l
  have hqueue := List.toFinset_card_le s.mem.retired
  have hunion := Finset.card_union_le (l.toFinset ∪ s.mem.retired.toFinset)
    (threads.biUnion fun t => (s.pc t).holding.toFinset)
  have hunion' := Finset.card_union_le l.toFinset s.mem.retired.toFinset
  unfold Stack.held
  omega

/-- **The memory of the stack.** With the threads in `threads` inside calls, the allocated
nodes are at most those on the list, one for each of these threads, and `MAX_HAZARDS + 1` that
wait to be freed; with no thread inside a call at most `MAX_HAZARDS` wait. -/
theorem memory_bounded {tr : History Stack Stack.Act} {s : Stack}
    (h : Run (Stack.step .sc) anyEnv .new tr s) {threads : Finset Nat}
    (ht : ∀ t, s.pc t ≠ .idle → t ∈ threads) :
    ∃ (l : List Addr) (nodes : Finset Addr), Linked s.mem.next null s.mem.head l ∧
      (∀ a, s.mem.heap a ≠ none ↔ a ∈ nodes) ∧
      nodes.card ≤ l.length + threads.card + (MAX_HAZARDS + 1) ∧
      (threads = ∅ → nodes.card ≤ l.length + MAX_HAZARDS) := by
  obtain ⟨own, l, hsafe⟩ := Stack.safe (fun _ _ a hr _ => Stack.publishesFirst_sc hr a) h
  let nodes := (s.held l threads).filter fun a => s.mem.heap a ≠ none
  have hcard : nodes.card ≤ l.length + s.mem.retired.length + threads.card :=
    (Finset.card_filter_le ..).trans (card_held l threads s)
  refine ⟨l, nodes, hsafe.owned.links, fun a => ?_, ?_, ?_⟩
  · simp only [nodes, Finset.mem_filter]
    exact ⟨fun ha => ⟨mem_held hsafe ht ha, ha⟩, fun ha => ha.2⟩
  · have hle := Stack.queue_le ⟨tr, h⟩
    omega
  · rintro rfl
    have hidle (t : Nat) : s.pc t = .idle := by
      by_contra hne
      exact Finset.notMem_empty t (ht t hne)
    have hlock := hsafe.settled.lock_none fun u => by rw [hidle u]; rfl
    have hle := (Stack.bounded_of_run h).unlocked hlock
    rw [Finset.card_empty] at hcard
    omega

/-- Thread 0 has allocated its node and not linked it yet. -/
theorem memory_bounded_pushing :
    ∃ tr s, Run (Stack.step .sc) anyEnv .new tr s ∧ s.mem.head = null ∧
      ∃ nodes : Finset Addr, 1 ∈ nodes ∧ nodes.card ≤ 1 + (MAX_HAZARDS + 1) := by
  have h0 : Run (Stack.step .sc) anyEnv .new [] .new := .nil
  have h1 := h0.exec (fun _ _ _ _ => trivial) (show exec _ _ _ [.push 0 7, .alloc 0 1] = some _
    from rfl)
  have hidle : ∀ t, ((Stack.new.setPc 0 (.push_alloc 7)).setPc 0 (.push_load 7 1)).pc t ≠ .idle →
      t ∈ ({0} : Finset Nat) := by
    intro t ht
    by_contra hne
    simp only [Finset.mem_singleton] at hne
    exact ht (by simp [Stack.setPc, Stack.new, hne])
  obtain ⟨l, nodes, hl, hnodes, hle, -⟩ := memory_bounded h1 hidle
  have hnil := hl.eq_nil rfl
  rw [hnil] at hle
  exact ⟨_, _, h1, rfl, nodes, (hnodes 1).mp (by decide), by simpa using hle⟩

end Samsara.SafeTreiber
