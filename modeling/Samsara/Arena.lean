import Mathlib.Order.CompletePartialOrder
import Mathlib.Order.Interval.Set.Disjoint
import Samsara.Bump
import Samsara.Lib.Buffer
import Samsara.Lib.Run

/-!
# The bump arena (`arena.rs`)

`Arena cap` is an arena over a buffer of `cap` bytes; `write` and `read` return `none` where
the Rust code panics. A handle is the low 32 bits of the offset it was granted at.

`ArenaClient` adds what the user of an arena knows: the blocks granted since construction or
the last `reset`, and what was last written through each. `Intact` is what the user relies
on. It holds as long as no block starts at or above `2^32` (`Sound`), and is lost for good
with the first one that does (`Clash`): its handle points into an older block.
-/

namespace Samsara

open StepSys

structure Handle where
  val : UInt32
  deriving DecidableEq

structure Arena (cap : Nat) where
  bytes : Fin cap → UInt8
  offset : Nat

namespace Arena

variable {cap : Nat}

def with_capacity (cap : Nat) : Arena cap := ⟨fun _ => 0, 0⟩

def capacity (_ : Arena cap) : Nat := cap

def used (a : Arena cap) : Nat := a.offset

def handle (off : Nat) : Handle := ⟨UInt32.ofNat off⟩

def alloc (a : Arena cap) (size : Nat) : Arena cap × Option Handle :=
  match checked_add (aligned a.offset) size with
  | none => (a, none)
  | some end_ =>
    if end_ > a.capacity then (a, none)
    else ({ a with offset := end_ }, some (handle (aligned a.offset)))

def write (a : Arena cap) (h : Handle) (data : List UInt8) : Option (Arena cap) :=
  (Buffer.splice a.bytes h.val.toNat data).map fun bytes => { a with bytes := bytes }

def read (a : Arena cap) (h : Handle) (len : Nat) : Option (List UInt8) :=
  Buffer.slice a.bytes h.val.toNat len

def reset (a : Arena cap) : Arena cap := { a with offset := 0 }

def fits (a : Arena cap) (size : Nat) : Prop := aligned a.offset + size ≤ cap

instance (a : Arena cap) (size : Nat) : Decidable (a.fits size) :=
  inferInstanceAs (Decidable (_ ≤ _))

variable {a : Arena cap} {size : Nat}

theorem alloc_of_fits (hcap : cap < 2 ^ 63) (hf : a.fits size) :
    a.alloc size =
      ({ a with offset := aligned a.offset + size }, some (handle (aligned a.offset))) := by
  unfold fits at hf
  have hadd : checked_add (aligned a.offset) size = some (aligned a.offset + size) :=
    checked_add_eq_some.mpr ⟨by unfold usizeSize; omega, rfl⟩
  unfold alloc capacity
  rw [hadd]
  exact if_neg (Nat.not_lt.mpr hf)

theorem alloc_of_not_fits (hf : ¬ a.fits size) : a.alloc size = (a, none) := by
  unfold alloc capacity
  split
  · rfl
  next end_ hadd =>
    obtain ⟨-, rfl⟩ := checked_add_eq_some.mp hadd
    exact if_pos (Nat.lt_of_not_le hf)

theorem handle_toNat (off : Nat) : (handle off).val.toNat = off % 2 ^ 32 :=
  UInt32.toNat_ofNat'

end Arena

/-! ## A client -/

/-- What an `alloc` granted. -/
structure Block where
  handle : Handle
  size : Nat
  /-- the bytes written through the handle, later writes over earlier ones -/
  written : List UInt8

namespace Block

def start (b : Block) : Nat := b.handle.val.toNat
def end_ (b : Block) : Nat := b.start + b.size
def range (b : Block) : Set Nat := Set.Ico b.start b.end_

def write (b : Block) (data : List UInt8) : Block :=
  { b with written := data ++ b.written.drop data.length }

end Block

inductive ArenaOp where
  | alloc (size : Nat)
  /-- a write through the `k`-th handle granted -/
  | write (k : Nat) (data : List UInt8)

structure ArenaClient (cap : Nat) where
  arena : Arena cap
  /-- oldest first -/
  blocks : List Block

namespace ArenaClient

variable {cap : Nat}

def new (a : Arena cap) : ArenaClient cap := ⟨a, []⟩

/-- One call; `none` is a panic. -/
def step (c : ArenaClient cap) : ArenaOp → Option (ArenaClient cap)
  | .alloc size =>
    match c.arena.alloc size with
    | (arena, none) => some { c with arena := arena }
    | (arena, some h) => some ⟨arena, c.blocks ++ [⟨h, size, []⟩]⟩
  | .write k data =>
    match c.blocks[k]? with
    | none => none
    | some b =>
      (c.arena.write b.handle data).map fun arena => ⟨arena, c.blocks.set k (b.write data)⟩

/-- Data written through a handle is no longer than what was granted. -/
def disciplined (_ : History (ArenaClient cap) ArenaOp) (c : ArenaClient cap) : ArenaOp → Prop
  | .alloc _ => True
  | .write k data => ∃ b, c.blocks[k]? = some b ∧ data.length ≤ b.size

/-- What the user relies on: the blocks are aligned, in the buffer and apart, and each reads
back what was last written through its handle. -/
structure Intact (c : ArenaClient cap) : Prop where
  aligned : ∀ (i : Nat) b, c.blocks[i]? = some b → 8 ∣ b.start
  inside : ∀ (i : Nat) b, c.blocks[i]? = some b → b.end_ ≤ cap
  apart : ∀ (i j : Nat) b b', i < j → c.blocks[i]? = some b → c.blocks[j]? = some b' →
    Disjoint b.range b'.range
  stored : ∀ (i : Nat) b, c.blocks[i]? = some b → ∀ len ≤ b.written.length,
    c.arena.read b.handle len = some (b.written.take len)

/-- A block of nonzero size is granted below `2^32` only. -/
def StartsBelow (c : ArenaClient cap) (op : ArenaOp) : Prop :=
  ∀ size, op = .alloc size → 0 < size → c.arena.fits size → aligned c.arena.offset < 2 ^ 32

/-! ## As long as handles are exact -/

/-- The blocks lie one after the other below the bump offset, and fill it but for padding. -/
structure Sound (c : ArenaClient cap) : Prop where
  offset : c.arena.offset ≤ cap
  laid : ∀ (i : Nat) b, c.blocks[i]? = some b → 8 ∣ b.start ∧ b.end_ ≤ c.arena.offset
  after : ∀ (i j : Nat) b b', i < j → c.blocks[i]? = some b → c.blocks[j]? = some b' →
    0 < b'.size → b.end_ ≤ b'.start
  stored : ∀ (i : Nat) b, c.blocks[i]? = some b → b.written.length ≤ b.size ∧
    c.arena.read b.handle b.written.length = some b.written
  covered : ∀ x, 8 ∣ x → x < c.arena.offset →
    ∃ (i : Nat) (b : Block), c.blocks[i]? = some b ∧ x ∈ b.range

def Clash (c : ArenaClient cap) : Prop :=
  ∃ (i j : Nat) (b b' : Block), i < j ∧ c.blocks[i]? = some b ∧ c.blocks[j]? = some b' ∧
    ¬ Disjoint b.range b'.range

section Ops

variable {c c' : ArenaClient cap} {op : ArenaOp} {size k : Nat} {data : List UInt8} {b : Block}

theorem step_alloc_of_fits (hcap : cap < 2 ^ 63) (hf : c.arena.fits size) :
    c.step (.alloc size) = some ⟨{ c.arena with offset := aligned c.arena.offset + size },
      c.blocks ++ [⟨Arena.handle (aligned c.arena.offset), size, []⟩]⟩ := by
  simp only [step, Arena.alloc_of_fits hcap hf]

theorem step_alloc_of_not_fits (hf : ¬ c.arena.fits size) : c.step (.alloc size) = some c := by
  simp only [step, Arena.alloc_of_not_fits hf]

theorem write_cases (h : c.step (.write k data) = some c') :
    ∃ b bytes, c.blocks[k]? = some b ∧
      Buffer.splice c.arena.bytes b.start data = some bytes ∧
      c' = ⟨{ c.arena with bytes := bytes }, c.blocks.set k (b.write data)⟩ := by
  simp only [step] at h
  split at h
  · cases h
  next b hb =>
    obtain ⟨arena, hw, rfl⟩ := Option.map_eq_some_iff.mp h
    obtain ⟨bytes, hs, rfl⟩ := Option.map_eq_some_iff.mp hw
    exact ⟨b, bytes, hb, hs, rfl⟩

theorem place_of_write {i : Nat} {b' : Block} (hb : c.blocks[k]? = some b)
    (h : (c.blocks.set k (b.write data))[i]? = some b') :
    ∃ b₀, c.blocks[i]? = some b₀ ∧ b₀.start = b'.start ∧ b₀.size = b'.size := by
  rcases Buffer.getElem?_set_cases h with ⟨rfl, rfl⟩ | ⟨-, h⟩
  · exact ⟨b, hb, rfl, rfl⟩
  · exact ⟨b', h, rfl, rfl⟩

theorem write_of_place {i : Nat} {b' : Block} (hb : c.blocks[k]? = some b)
    (h : c.blocks[i]? = some b') : ∃ b₁, (c.blocks.set k (b.write data))[i]? = some b₁ ∧
      b₁.start = b'.start ∧ b₁.size = b'.size := by
  obtain ⟨hlt, rfl⟩ := List.getElem?_eq_some_iff.mp h
  have hlt' : i < (c.blocks.set k (b.write data)).length := by simpa using hlt
  have h₁ := List.getElem?_eq_getElem hlt'
  obtain ⟨b₀, hb₀, hs, hz⟩ := place_of_write hb h₁
  obtain rfl := Option.some.inj (h.symm.trans hb₀)
  exact ⟨_, h₁, hs.symm, hz.symm⟩

theorem sound_new (a : Arena cap) : (new a.reset).Sound :=
  ⟨Nat.zero_le _, (fun _ _ h => nomatch h), (fun _ _ _ _ _ h => nomatch h),
    (fun _ _ h => nomatch h), fun x _ hx => absurd hx (Nat.not_lt_zero x)⟩

/-- The padding below an aligned offset holds no multiple of 8. -/
theorem lt_of_lt_aligned {offset x : Nat} (ho : offset < 2 ^ 63) (hx : 8 ∣ x)
    (h : x < aligned offset) : x < offset := by
  rw [aligned_eq (by unfold usizeSize; omega)] at h
  omega

theorem Sound.alloc (hs : c.Sound) (hcap : cap < 2 ^ 63) (hf : c.arena.fits size)
    (hb : 0 < size → aligned c.arena.offset < 2 ^ 32) :
    Sound ⟨{ c.arena with offset := aligned c.arena.offset + size },
      c.blocks ++ [⟨Arena.handle (aligned c.arena.offset), size, []⟩]⟩ := by
  have ho := hs.offset
  have hup : c.arena.offset ≤ aligned c.arena.offset := le_aligned (by unfold usizeSize; omega)
  have h8 := dvd_aligned c.arena.offset
  have hstart := Arena.handle_toNat (aligned c.arena.offset)
  have hexact (h0 : 0 < size) : (Arena.handle (aligned c.arena.offset)).val.toNat =
      aligned c.arena.offset := by
    rw [hstart]
    exact Nat.mod_eq_of_lt (hb h0)
  have hle := Nat.mod_le (aligned c.arena.offset) (2 ^ 32)
  unfold Arena.fits at hf
  refine ⟨hf, fun i b h => ?_, fun i j b b' hij h h' h0 => ?_, fun i b h => ?_, fun x hx hlt => ?_⟩
  · rcases Buffer.getElem?_concat_cases h with ⟨-, rfl⟩ | ⟨-, h⟩
    · simp only [Block.end_, Block.start, hstart]
      refine ⟨?_, by omega⟩
      exact (Nat.dvd_mod_iff (by decide : 8 ∣ 2 ^ 32)).mpr h8
    · obtain ⟨h1, h2⟩ := hs.laid i b h
      exact ⟨h1, by simp only; omega⟩
  · rcases Buffer.getElem?_concat_cases h with ⟨rfl, -⟩ | ⟨hi, h⟩
    · have hlen := (List.getElem?_eq_some_iff.mp h').1
      rw [List.length_append, List.length_singleton] at hlen
      omega
    rcases Buffer.getElem?_concat_cases h' with ⟨-, rfl⟩ | ⟨-, h'⟩
    · obtain ⟨-, h2⟩ := hs.laid i b h
      have he := hexact h0
      simp only [Block.start]
      omega
    · exact hs.after i j b b' hij h h' h0
  · rcases Buffer.getElem?_concat_cases h with ⟨-, rfl⟩ | ⟨-, h⟩
    · refine ⟨Nat.zero_le _, Buffer.slice_eq_some.mpr ⟨?_, rfl, fun _ _ hi => nomatch hi⟩⟩
      simp only [hstart, List.length_nil]
      omega
    · exact hs.stored i b h
  · by_cases hold : x < aligned c.arena.offset
    · obtain ⟨i, b, h, hm⟩ := hs.covered x hx (lt_of_lt_aligned (by omega) hx hold)
      refine ⟨i, b, ?_, hm⟩
      rw [List.getElem?_append_left (List.getElem?_eq_some_iff.mp h).1, h]
    · simp only at hlt
      have he := hexact (by omega)
      refine ⟨_, _, List.getElem?_concat_length, ?_⟩
      simp only [Block.range, Block.end_, Block.start, he, Set.mem_Ico]
      omega

theorem Sound.write (hs : c.Sound) (hb : c.blocks[k]? = some b) (hlen : data.length ≤ b.size)
    {bytes : Fin cap → UInt8} (hw : Buffer.splice c.arena.bytes b.start data = some bytes) :
    Sound ⟨{ c.arena with bytes := bytes }, c.blocks.set k (b.write data)⟩ := by
  refine ⟨hs.offset, fun i b' h => ?_, fun i j b₁ b₂ hij h h' h0 => ?_, fun i b' h => ?_,
    fun x hx hlt => ?_⟩
  · obtain ⟨b₀, h₀, he, hz⟩ := place_of_write hb h
    have hl := hs.laid i b₀ h₀
    simp only [Block.end_] at hl ⊢
    rwa [← he, ← hz]
  · obtain ⟨b₀, h₀, he, hz⟩ := place_of_write hb h
    obtain ⟨b₀', h₀', he', hz'⟩ := place_of_write hb h'
    have hl := hs.after i j b₀ b₀' hij h₀ h₀' (hz' ▸ h0)
    simp only [Block.end_] at hl ⊢
    rwa [← he, ← hz, ← he']
  · rcases Buffer.getElem?_set_cases h with ⟨rfl, rfl⟩ | ⟨hne, h⟩
    · obtain ⟨hl, hr⟩ := hs.stored i b hb
      refine ⟨?_, Buffer.slice_splice_self hw hr⟩
      simp only [Block.write, List.length_append, List.length_drop]
      omega
    · -- the cells of the other blocks are not written
      obtain ⟨hl, hr⟩ := hs.stored i b' h
      refine ⟨hl, (Buffer.slice_congr fun x h1 h2 => Buffer.splice_outside hw ?_).trans hr⟩
      have hx1 : b'.start ≤ x := h1
      have hx2 : x < b'.end_ := Nat.lt_of_lt_of_le h2 (Nat.add_le_add_left hl _)
      by_cases hz : data.length = 0
      · omega
      rcases Nat.lt_or_gt_of_ne hne with hlt | hlt
      · have := hs.after i k b' b hlt h hb (by omega)
        omega
      · have hsz : 0 < b'.size := by
          unfold Block.end_ at hx2
          omega
        have := hs.after k i b b' hlt hb h hsz
        unfold Block.end_ at this
        omega
  · obtain ⟨i, b₀, h₀, hm⟩ := hs.covered x hx hlt
    obtain ⟨b₁, h₁, he, hz⟩ := write_of_place hb h₀
    refine ⟨i, b₁, h₁, ?_⟩
    simp only [Block.range, Block.end_] at hm ⊢
    rwa [he, hz]

theorem Sound.intact (hs : c.Sound) : c.Intact where
  aligned i b h := (hs.laid i b h).1
  inside i b h := (hs.laid i b h).2.trans hs.offset
  apart i j b b' hij h h' := by
    rw [Block.range, Block.range, Set.Ico_disjoint_Ico]
    unfold Block.end_
    by_cases h0 : 0 < b'.size
    · have hle := hs.after i j b b' hij h h' h0
      unfold Block.end_ at hle
      omega
    · omega
  stored i b h len hlen := Buffer.slice_take (hs.stored i b h).2 hlen

/-! ## Once a handle has wrapped -/

/-- The first block granted at or above `2^32` overlaps an older one. -/
theorem Sound.clash (hs : c.Sound) (hcap : cap < 2 ^ 63) (h0 : 0 < size)
    (hge : 2 ^ 32 ≤ aligned c.arena.offset) :
    Clash ⟨{ c.arena with offset := aligned c.arena.offset + size },
      c.blocks ++ [⟨Arena.handle (aligned c.arena.offset), size, []⟩]⟩ := by
  have ho := hs.offset
  have hstart := Arena.handle_toNat (aligned c.arena.offset)
  have h8 := dvd_aligned c.arena.offset
  have hle : aligned c.arena.offset ≤ c.arena.offset + 7 := by
    rw [aligned_eq (by unfold usizeSize; omega)]
    omega
  have hwrap : aligned c.arena.offset % 2 ^ 32 < c.arena.offset := by omega
  obtain ⟨i, b, h, hm⟩ := hs.covered (aligned c.arena.offset % 2 ^ 32) (by omega) hwrap
  have hi := (List.getElem?_eq_some_iff.mp h).1
  refine ⟨i, _, b, _, hi, (List.getElem?_append_left hi).trans h, List.getElem?_concat_length,
    Set.not_disjoint_iff.mpr ⟨_, hm, ?_⟩⟩
  simp only [Block.range, Block.end_, Block.start, hstart, Set.mem_Ico]
  omega

theorem Clash.step (hcap : cap < 2 ^ 63) (hc : c.Clash) (hst : c.step op = some c') : c'.Clash := by
  obtain ⟨i, j, b, b', hij, hi, hj, hd⟩ := hc
  cases op with
  | alloc size =>
    by_cases hf : c.arena.fits size
    · rw [step_alloc_of_fits hcap hf] at hst
      cases hst
      exact ⟨i, j, b, b', hij,
        (List.getElem?_append_left (List.getElem?_eq_some_iff.mp hi).1).trans hi,
        (List.getElem?_append_left (List.getElem?_eq_some_iff.mp hj).1).trans hj, hd⟩
    · rw [step_alloc_of_not_fits hf] at hst
      cases hst
      exact ⟨i, j, b, b', hij, hi, hj, hd⟩
  | write k data =>
    obtain ⟨b₀, bytes, hk, -, rfl⟩ := write_cases hst
    obtain ⟨b₁, h₁, he, hz⟩ := write_of_place hk hi
    obtain ⟨b₂, h₂, he', hz'⟩ := write_of_place hk hj
    refine ⟨i, j, b₁, b₂, hij, h₁, h₂, ?_⟩
    simp only [Block.range, Block.end_] at hd ⊢
    rwa [he, hz, he', hz']

theorem Clash.not_intact (hc : c.Clash) : ¬ c.Intact := by
  obtain ⟨i, j, b, b', hij, hi, hj, hd⟩ := hc
  exact fun h => hd (h.apart i j b b' hij hi hj)

/-! ## Runs -/

/-- A call that starts its block below `2^32` keeps the layout, one that does not breaks it. -/
theorem Sound.step (hs : c.Sound) (hcap : cap < 2 ^ 63) {tr : History (ArenaClient cap) ArenaOp}
    (hp : disciplined tr c op) (hst : c.step op = some c') :
    c.StartsBelow op ∧ c'.Sound ∨ ¬ c.StartsBelow op ∧ c'.Clash := by
  cases op with
  | alloc size =>
    by_cases hf : c.arena.fits size
    · rw [step_alloc_of_fits hcap hf] at hst
      cases hst
      by_cases hb : 0 < size → aligned c.arena.offset < 2 ^ 32
      · refine .inl ⟨fun size' e h0 _ => ?_, hs.alloc hcap hf hb⟩
        cases e
        exact hb h0
      · obtain ⟨h0, hge⟩ := Classical.not_imp.mp hb
        refine .inr ⟨fun h => hge (h size rfl h0 hf), hs.clash hcap h0 (Nat.le_of_not_lt hge)⟩
    · rw [step_alloc_of_not_fits hf] at hst
      cases hst
      refine .inl ⟨fun size' e _ hf' => ?_, hs⟩
      cases e
      exact absurd hf' hf
  | write k data =>
    obtain ⟨b, hb, hlen⟩ := hp
    obtain ⟨b₀, bytes, hk, hw, rfl⟩ := write_cases hst
    obtain rfl := Option.some.inj (hb.symm.trans hk)
    exact .inl ⟨(fun _ e => nomatch e), hs.write hb hlen hw⟩

theorem Sound.returns (hs : c.Sound) {tr : History (ArenaClient cap) ArenaOp}
    (hp : disciplined tr c op) : ∃ c', c.step op = some c' := by
  cases op with
  | alloc size =>
    simp only [ArenaClient.step]
    split <;> exact ⟨_, rfl⟩
  | write k data =>
    obtain ⟨b, hb, hlen⟩ := hp
    obtain ⟨-, hend⟩ := hs.laid k b hb
    have ho := hs.offset
    obtain ⟨bytes, hw⟩ := Buffer.splice_isSome (b := c.arena.bytes) (s := b.start) (d := data) (by
      unfold Block.end_ at hend
      omega)
    have hw : c.arena.write b.handle data = some { c.arena with bytes := bytes } :=
      Option.map_eq_some_iff.mpr ⟨bytes, hw, rfl⟩
    exact ⟨_, by simp only [ArenaClient.step, hb, hw]; rfl⟩

end Ops

/-- Either every block so far started below `2^32` and all is in order, or two overlap. -/
theorem sound_or_clash (hcap : cap < 2 ^ 63) {a : Arena cap}
    {tr : History (ArenaClient cap) ArenaOp} {c : ArenaClient cap}
    (hrun : Run step disciplined (new a.reset) tr c) :
    (∀ x ∈ tr, x.1.StartsBelow x.2) ∧ c.Sound ∨ (¬ ∀ x ∈ tr, x.1.StartsBelow x.2) ∧ c.Clash := by
  refine hrun.hist (P := fun tr c => (∀ x ∈ tr, x.1.StartsBelow x.2) ∧ c.Sound ∨
    (¬ ∀ x ∈ tr, x.1.StartsBelow x.2) ∧ c.Clash) (.inl ⟨(fun _ h => nomatch h), sound_new a⟩) ?_
  intro tr s op s' _ ih hp hst
  simp only [List.forall_mem_append, List.forall_mem_singleton]
  rcases ih with ⟨htr, hs⟩ | ⟨htr, hc⟩
  · rcases hs.step hcap hp hst with ⟨hb, hs'⟩ | ⟨hb, hc'⟩
    · exact .inl ⟨⟨htr, hb⟩, hs'⟩
    · exact .inr ⟨fun h => hb h.2, hc'⟩
  · exact .inr ⟨fun h => htr h.1, hc.step hcap hst⟩

end ArenaClient

open ArenaClient

/-- **When arena handles never alias.** For every capacity a `Vec` can have, after any calls
of `alloc` and `write` since construction or a `reset`, the blocks are aligned, in the buffer
and apart and read back what was written if and only if every block of nonzero size was
granted below `2^32`. -/
theorem arena_intact_iff {cap : Nat} (hcap : cap < 2 ^ 63) {a : Arena cap}
    {tr : History (ArenaClient cap) ArenaOp} {c : ArenaClient cap}
    (hrun : Run ArenaClient.step disciplined (.new a.reset) tr c) :
    c.Intact ↔ ∀ x ∈ tr, x.1.StartsBelow x.2 := by
  rcases sound_or_clash hcap hrun with ⟨htr, hs⟩ | ⟨htr, hc⟩
  · exact iff_of_true hs.intact htr
  · exact iff_of_false hc.not_intact htr

/-- The law of `alloc`, `write` and `read` for every capacity. -/
def HandlesNeverAlias : Prop :=
  ∀ cap < 2 ^ 63, ∀ (a : Arena cap) (tr : History (ArenaClient cap) ArenaOp) (c : ArenaClient cap),
    Run ArenaClient.step disciplined (.new a.reset) tr c → c.Intact

/-- After a block of `2^32` bytes, the next handle is 0 again. -/
theorem arena_handle_wraps : ¬ HandlesNeverAlias := by
  intro hall
  have hcap : 2 ^ 32 + 8 < 2 ^ 63 := by decide
  have h0 : Run ArenaClient.step disciplined
    (.new (Arena.with_capacity (2 ^ 32 + 8)).reset) [] (.new (Arena.with_capacity _).reset) := .nil
  have h1 := h0.snoc (show disciplined _ _ (.alloc (2 ^ 32)) from trivial)
    (step_alloc_of_fits hcap (by decide))
  have h2 := h1.snoc (show disciplined _ _ (.alloc 8) from trivial)
    (step_alloc_of_fits hcap (by decide))
  have hd := (hall _ hcap _ _ _ h2).apart 0 1 _ _ (by decide) rfl rfl
  exact absurd hd (Set.not_disjoint_iff.mpr
    ⟨0, ⟨by decide, by decide⟩, ⟨by decide, by decide⟩⟩)

/-- Two blocks of a small arena, one written. -/
theorem arena_intact_small :
    ∃ tr c, Run ArenaClient.step disciplined (.new (Arena.with_capacity 64).reset) tr c ∧
      c.blocks.map Block.start = [0, 8] ∧ c.Intact := by
  have h0 : Run ArenaClient.step disciplined
    (.new (Arena.with_capacity 64).reset) [] (.new (Arena.with_capacity 64).reset) := .nil
  have h1 := h0.snoc (show disciplined _ _ (.alloc 3) from trivial) rfl
  have h2 := h1.snoc (show disciplined _ _ (.alloc 8) from trivial) rfl
  have h3 := h2.snoc (show disciplined _ _ (.write 0 [1, 2]) from ⟨_, rfl, by decide⟩) rfl
  refine ⟨_, _, h3, rfl, (arena_intact_iff (by decide) h3).mpr ?_⟩
  simp only [List.forall_mem_append, List.forall_mem_singleton, List.nil_append]
  refine ⟨⟨?_, ?_⟩, ?_⟩ <;> rintro size ⟨⟩ - - <;> decide

end Samsara
