import Samsara.SafeTreiber.Linear
import Samsara.SafeTreiber.Weak

/-!
# No ABA

The compare-and-swap of `pop` compares an address, not the list below it. Here it decides
the same: when it succeeds, the node has stood on the same rest of the list in every state
since `head` was verified. A node that leaves the list meanwhile does not come back, since
its address cannot be allocated again while it is protected.

The same promise, hazards that reach shared memory in time, makes the stack linearizable
under store buffers as well.
-/

namespace Samsara.SafeTreiber

open Linearize StepSys

/-- Under `tso` hazards are published before they are verified; under `sc` they always are. -/
def inTime (mm : MemModel) : History Stack Stack.Act → Stack → Stack.Act → Prop :=
  fun _ s a => mm = .tso → s.PublishesFirst a

variable {mm : MemModel} {own : Addr → Place} {l rest : List Addr} {s s' : Stack} {t i : Nat}
  {a : Addr} {act : Stack.Act} {tr : History Stack Stack.Act}

theorem published_of_inTime (h : Run (Stack.step mm) (inTime mm) .new tr s) :
    Run (Stack.step mm) publishedEnv .new tr s := by
  induction h with
  | nil => exact .nil
  | @snoc tr s s' act _ he hst ih =>
    refine ih.snoc ?_ hst
    cases mm with
    | sc => exact Stack.publishesFirst_sc ih act
    | tso => exact he rfl

/-- The node `a` is on the list, and below it are the nodes `rest`. -/
def Stack.Stands (s : Stack) (a : Addr) (rest : List Addr) : Prop :=
  ∃ top, Linked s.mem.next null s.mem.head (top ++ a :: rest)

theorem relinked_of_stands (hnd : l.Nodup) (hl : ∃ top, l = top ++ a :: rest) :
    (∃ top, s.relinked l act = top ++ a :: rest) ∨ a ∉ s.relinked l act := by
  obtain ⟨top, rfl⟩ := hl
  unfold Stack.relinked
  split
  · unfold Pc.relinked
    split
    · split
      · exact .inl ⟨_ :: top, rfl⟩
      · exact .inl ⟨top, rfl⟩
    · split
      · cases top with
        | nil => exact .inr (List.nodup_cons.mp hnd).1
        | cons b top => exact .inl ⟨top, rfl⟩
      · exact .inl ⟨top, rfl⟩
    · exact .inl ⟨top, rfl⟩
  · exact .inl ⟨top, rfl⟩

theorem notMem_relinked (hsafe : Safe own l s.mem s.pc) (hsh : (own a).shared = true)
    (hl : a ∉ l) : a ∉ s.relinked l act := by
  unfold Stack.relinked
  split
  · next t =>
    generalize hpc : s.pc t = q
    unfold Pc.relinked
    split
    · next v new head =>
      split
      · have hown : own new = .pusher t := ((hsafe.mine t).pusher new).2 ⟨v, by rw [hpc]; rfl⟩
        have hne : a ≠ new := by
          rintro rfl
          rw [hown] at hsh
          cases hsh
        simp [hne, hl]
      · exact hl
    · split
      · exact fun ha => hl (List.mem_of_mem_tail ha)
      · exact hl
    · exact hl
  · exact hl

/-- While `t` protects `a`, it stands on `rest` as it did, or it is off the list for good. -/
theorem stands_of_run {s₀ : Stack} (h0 : Safe own (a :: rest) s₀.mem s₀.pc)
    (h : Run (Stack.step mm)
      (fun _ s act => s.PublishesFirst act ∧ (s.pc t).protects = some (i, a)) s₀ tr s) :
    ∃ own l, Safe own l s.mem s.pc ∧
      (((∃ top, l = top ++ a :: rest) ∧ ∀ x ∈ tr, x.1.Stands a rest) ∨ a ∉ l) := by
  refine h.hist (P := fun tr s => ∃ own l, Safe own l s.mem s.pc ∧
    (((∃ top, l = top ++ a :: rest) ∧ ∀ x ∈ tr, x.1.Stands a rest) ∨ a ∉ l))
    ⟨own, _, h0, .inl ⟨⟨[], rfl⟩, by simp⟩⟩ ?_
  rintro tr s act s' - ⟨own, l, hsafe, hl⟩ ⟨hv, hprot⟩ hst
  obtain ⟨own', hsafe'⟩ := hsafe.act hst hv
  refine ⟨own', _, hsafe', ?_⟩
  rcases hl with ⟨hl, hstood⟩ | hl
  · refine (relinked_of_stands hsafe.owned.nodup hl).imp_left fun hl' => ⟨hl', fun x hx => ?_⟩
    rcases List.mem_append.mp hx with hx | hx
    · exact hstood x hx
    · cases List.mem_singleton.mp hx
      obtain ⟨top, rfl⟩ := hl
      exact ⟨top, hsafe.owned.links⟩
  · exact .inr (notMem_relinked hsafe (hsafe.guarded.shared t i a hprot) hl)

/-- **No ABA.** When the compare-and-swap of a `pop` finds `head` as it was verified, the node
has been on the list, with the same nodes below it, in every state in between, and the
successor read from it is the rest of the list. -/
theorem pop_cas_undisturbed {pre mid : History Stack Stack.Act} {s₁ : Stack} {n : Addr}
    (h : Run (Stack.step mm) (inTime mm) .new (pre ++ (s₁, .step t) :: mid) s)
    (hv : s₁.pc t = .verify i s₁.mem.head)
    (hmid : ∀ x ∈ mid, (x.1.pc t).protects = some (i, s₁.mem.head))
    (hpc : s.pc t = .pop_cas i s₁.mem.head n) (hcas : s.mem.head = s₁.mem.head) :
    ∃ rest, Linked s₁.mem.next null s₁.mem.head (s₁.mem.head :: rest) ∧
      (∀ x ∈ mid, x.1.Stands s₁.mem.head rest) ∧ Linked s.mem.next null n rest := by
  have hrun := published_of_inTime h
  rw [List.append_cons] at hrun
  obtain ⟨s₂, h₂, h₃⟩ := hrun.cut
  obtain ⟨h₁, hpub, hst⟩ := h₂.last
  obtain ⟨own, l, hsafe⟩ := Stack.safe (fun _ _ _ _ he => he) h₁
  have hnull : s₁.mem.head ≠ null := hsafe.published.aimed t _ (by rw [hv]; rfl)
  obtain ⟨b, rest, rfl, -, -⟩ := hsafe.owned.links.uncons hnull
  obtain ⟨own₂, hsafe₂⟩ := hsafe.act hst hpub
  have hsame : s₁.relinked (s₁.mem.head :: rest) (.step t) = s₁.mem.head :: rest := by
    simp [Stack.relinked, hv, Pc.relinked]
  rw [hsame] at hsafe₂
  obtain ⟨own', l, hsafe', hl⟩ := stands_of_run hsafe₂
    (h₃.imp fun _ _ _ hx => ⟨hx.1, hmid _ hx.2⟩)
  -- the node that is compared is the head of the list
  obtain ⟨c, l', rfl, hc, hlinks⟩ := hsafe'.owned.links.uncons (hcas ▸ hnull)
  rw [hcas] at hc hl hsafe'
  obtain ⟨⟨top, htop⟩, hstood⟩ := hl.resolve_right fun hno => hno List.mem_cons_self
  have hnd := (List.nodup_cons.mp hsafe'.owned.nodup).1
  cases top with
  | nil =>
    obtain ⟨-, rfl⟩ := List.cons_eq_cons.mp htop
    have hn := hsafe'.guarded.swings t _ n (by rw [hpc]; rfl)
    obtain rfl : n = c := Option.some.inj (hn.symm.trans hc)
    exact ⟨l', hsafe.owned.links, hstood, hlinks⟩
  | cons d top =>
    obtain ⟨-, rfl⟩ := List.cons_eq_cons.mp htop
    exact absurd (by simp) hnd

/-- Between the reload of thread 1 and its compare-and-swap thread 0 pushes and pops a node. -/
theorem pop_cas_undisturbed_busy :
    ∃ pre s₁ mid s n rest, Run (Stack.step .sc) (inTime .sc) .new (pre ++ (s₁, .step 1) :: mid) s ∧
      mid.length = 15 ∧ (∀ x ∈ mid, x.1.Stands s₁.mem.head rest) ∧
      Linked s.mem.next null n rest := by
  have hexec : (exec (Stack.step .sc) [] Stack.new
      (List.flatten [[.push 0 7, .alloc 0 1], .replicate 4 (.step 0), [.pop 1],
        .replicate 5 (.step 1), [.push 0 8, .alloc 0 2], .replicate 4 (.step 0), [.pop 0],
        .replicate 7 (.step 0)])).map (fun r =>
          decide ((r.1.drop 10).head?.map (fun x => (x.1.pc 1, x.1.mem.head, x.2)) =
              some (.verify 0 1, 1, .step 1)) &&
            decide ((r.1.drop 10).tail.map (fun x => (x.1.pc 1).protects) =
              List.replicate 15 (some (0, 1))) &&
            decide (r.2.pc 1 = .pop_cas 0 1 0) && decide (r.2.mem.head = 1)) = some true := by
    decide +kernel
  obtain ⟨r, hr, hfacts⟩ := Option.map_eq_some_iff.1 hexec
  simp only [Bool.and_eq_true, decide_eq_true_eq, Option.map_eq_some_iff, Prod.mk.injEq] at hfacts
  obtain ⟨⟨⟨⟨⟨s₁, act⟩, hx, hpc, hhead, rfl⟩, hmid⟩, hpc'⟩, hhead'⟩ := hfacts
  have hrun : Run (Stack.step .sc) (inTime .sc) .new r.1 r.2 :=
    Run.nil.exec (fun _ _ _ _ => by simp [inTime]) hr
  obtain ⟨mid, hdrop⟩ := List.head?_eq_some_iff.mp hx
  rw [← List.take_append_drop 10 r.1, hdrop] at hrun
  rw [hdrop, List.tail_cons] at hmid
  have hlen : mid.length = 15 := by simpa using congrArg List.length hmid
  obtain ⟨rest, -, hstood, hlinked⟩ := pop_cas_undisturbed hrun (by rw [hhead]; exact hpc)
    (fun x hx => by
      have hmem := List.mem_map_of_mem (f := fun x => (x.1.pc 1).protects) hx
      rw [hmid] at hmem
      rw [hhead]
      exact (List.mem_replicate.mp hmem).2) (by rw [hhead]; exact hpc') (hhead'.trans hhead.symm)
  exact ⟨_, s₁, mid, r.2, 0, rest, hrun, hlen, hstood, hlinked⟩

/-- **The stack is linearizable under store buffers** if its hazards are published before
they are verified: the same statement as under `sc`. -/
theorem stack_linearizable_published {tr : History Stack Stack.Act} {s : Stack}
    (h : Run (Stack.step .tso) publishedEnv .new tr s) :
    ∃ l effs st, Linked s.mem.next null s.mem.head l ∧
      Linear Lifo [] (tr.map Stack.event) effs st (s.mem.values l) ∧
      SeqRun Lifo [] effs (s.mem.values l) ∧
      (pushes effs).Perm (pops effs ++ s.mem.values l) := by
  obtain ⟨own, l, effs, st, hsafe, hl, -⟩ := Linearized.of_run (fun _ _ _ _ he => he) h
  exact ⟨l, effs, st, hsafe.owned.links, hl, hl.seqRun, hl.seqRun.perm⟩

/-- Thread 1 pops what thread 0 has pushed; its stores reach memory one by one. -/
theorem stack_linearizable_published_pop :
    ∃ tr s, Run (Stack.step .tso) publishedEnv .new tr s ∧ s.mem.retired = [1] ∧
      ∃ l effs st, Linked s.mem.next null s.mem.head l ∧
        Linear Lifo [] (tr.map Stack.event) effs st (s.mem.values l) ∧
        SeqRun Lifo [] effs (s.mem.values l) ∧
        (pushes effs).Perm (pops effs ++ s.mem.values l) := by
  have hexec : (exec (guarded Stack.publishesFirst (Stack.step .tso)) [] Stack.new
      (List.flatten [[.push 0 7, .alloc 0 1], .replicate 4 (.step 0), [.pop 1],
        .replicate 3 (.step 1), [.flush 1], .replicate 11 (.step 1)])).map
          (fun r => r.2.mem.retired) = some [1] := by
    decide +kernel
  obtain ⟨r, hr, hret⟩ := Option.map_eq_some_iff.1 hexec
  have hchecked : Run (guarded Stack.publishesFirst (Stack.step .tso)) anyEnv .new r.1 r.2 :=
    Run.nil.exec (fun _ _ _ _ => trivial) hr
  have hrun : Run (Stack.step .tso) publishedEnv .new r.1 r.2 :=
    hchecked.of_guarded fun _ _ _ h => Stack.publishesFirst_sound h
  exact ⟨r.1, r.2, hrun, hret, stack_linearizable_published hrun⟩

end Samsara.SafeTreiber
