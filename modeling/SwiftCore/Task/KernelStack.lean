/-
Kernel stacks (core/task/thread.rs): a 2 MiB pool shared by two allocators.

A stack is a guard page and, right above it, the stack's own pages. New ones are cut off the pool by a bump offset, whose
`fetch_add` happens before the bounds check; a freed one leaves its guard address in the first empty of 32 slots and the
next allocation takes the first address it finds there, whatever size it was cut for.

`Stacks` adds to the code's state what the statements are about: the stacks that are live, with the sizes asked for, and
the blocks cut off the pool, with the sizes they were cut for.
- `inv_step`: blocks never overlap, and every live stack and every address in the free list has a block of its own; a
  live stack fits its block as long as no allocation reuses a block cut for fewer pages (`Fits`).
- `stacks_disjoint_of_fits`: in every run of such allocations the live stacks and their guard pages lie inside the pool
  and apart from each other.
- `fork_block_reused_by_exec`: a 16 KiB block reused for 128 KiB runs into the next live stack.
-/
import SwiftCore.Lib.Run
import SwiftCore.Mem.Frame

namespace SwiftCore.Task

open Run
open Mem (add64 add64_eq_some)

/-! ## Model -/

def kstackPoolSize : ℕ := 4096 * 512

def kstackPageBytes : ℕ := 4096

def kstackGuardBytes : ℕ := kstackPageBytes

def kstackFreeListCap : ℕ := 32

/-- where the linker put `KSTACK_POOL`: a page-aligned object that does not reach past the address space -/
structure KernelStackPool where
  base : ℕ
  pos : 0 < base
  aligned : base % 4096 = 0
  fits : base + kstackPoolSize < 2 ^ 64

/-- `KSTACK_FREE_LIST` (guard addresses, 0 for an empty slot) and `NEXT_KSTACK_OFFSET` -/
structure KernelStacks where
  freeList : List ℕ
  nextOffset : ℕ
deriving DecidableEq, Repr

def KernelStacks.new : KernelStacks := ⟨List.replicate kstackFreeListCap 0, 0⟩

/-- the first non-empty slot is emptied -/
def takeSlot : List ℕ → Option (ℕ × List ℕ)
  | [] => none
  | slot :: slots =>
    if slot ≠ 0 then some (slot, 0 :: slots) else (takeSlot slots).map fun (guard, rest) => (guard, slot :: rest)

/-- the first empty slot is filled; a full list drops the address -/
def putSlot (guardAddr : ℕ) : List ℕ → List ℕ
  | [] => []
  | slot :: slots => if slot = 0 then guardAddr :: slots else slot :: putSlot guardAddr slots

/-- the size in whole pages -/
def sizePages (size : ℕ) : ℕ := (size + (kstackPageBytes - 1)) / kstackPageBytes * kstackPageBytes

/-- `allocate_kernel_stack`, given whether `unmap_guard_page` succeeds; `none` outside is the overflow panic of
`off + alloc_size`, inside it is the returned `None` -/
def allocateKernelStack (pool : KernelStackPool) (ks : KernelStacks) (size : ℕ) (unmapGuardPage : Bool) :
    Option (Option ℕ × KernelStacks) :=
  if size = 0 ∨ size > kstackPoolSize - kstackGuardBytes then some (none, ks)
  else
    match takeSlot ks.freeList with
    | some (guardAddr, freeList) => some (add64 guardAddr kstackGuardBytes, { ks with freeList })
    | none =>
      let allocSize := sizePages size + kstackGuardBytes
      let off := ks.nextOffset
      let ks := { ks with nextOffset := (off + allocSize) % 2 ^ 64 }
      match add64 off allocSize with
      | none => none
      | some stop =>
        if stop > kstackPoolSize then some (none, ks)
        else
          match add64 pool.base off with
          | none => some (none, ks)
          | some guardAddr => some (if unmapGuardPage then add64 guardAddr kstackGuardBytes else none, ks)

/-- `free_kernel_stack` -/
def freeKernelStack (pool : KernelStackPool) (ks : KernelStacks) (base : ℕ) : KernelStacks :=
  if base = 0 ∨ base < kstackGuardBytes then ks
  else
    let guardAddr := base - kstackGuardBytes
    if guardAddr < pool.base ∨ guardAddr ≥ pool.base + kstackPoolSize then ks
    else { ks with freeList := putSlot guardAddr ks.freeList }

/-! ## Runs -/

/-- a stack as its caller sees it: the address returned and the size asked for -/
structure Stack where
  base : ℕ
  size : ℕ
deriving DecidableEq, Repr

/-- the addresses of the guard page and of the stack -/
def Stack.Covers (k : Stack) (a : ℕ) : Prop := k.base - kstackGuardBytes ≤ a ∧ a < k.base + k.size

/-- a block cut off the pool: its guard address and the bytes above the guard page -/
structure Block where
  guardAddr : ℕ
  room : ℕ
deriving DecidableEq, Repr

/-- the code's state, the live stacks and the blocks cut so far -/
structure Stacks where
  ks : KernelStacks
  live : List Stack
  blocks : List Block
deriving DecidableEq, Repr

inductive StackOp
  | allocate (size : ℕ) (unmapGuardPage : Bool)
  | free (base : ℕ)
deriving DecidableEq, Repr

namespace Stacks

def init : Stacks := ⟨KernelStacks.new, [], []⟩

/-- one call; a panic ends the run and leaves the state as it is. An allocation that moved the bump offset and
returned an address has cut a block. -/
def step (pool : KernelStackPool) (s : Stacks) : StackOp → Stacks
  | .allocate size ok =>
    match allocateKernelStack pool s.ks size ok with
    | none => s
    | some (none, ks) => { s with ks }
    | some (some base, ks) =>
      { ks, live := ⟨base, size⟩ :: s.live,
        blocks := if ks.nextOffset = s.ks.nextOffset then s.blocks
          else ⟨base - kstackGuardBytes, sizePages size⟩ :: s.blocks }
  | .free base => { s with ks := freeKernelStack pool s.ks base, live := s.live.filter fun k => k.base ≠ base }

/-- only live stacks are freed -/
def Proper (s : Stacks) : StackOp → Prop
  | .allocate _ _ => True
  | .free base => ∃ k ∈ s.live, k.base = base

/-- the block that would be reused was cut for at least as many pages -/
def Fits (s : Stacks) : StackOp → Prop
  | .allocate size _ => ∀ b ∈ s.blocks, (takeSlot s.ks.freeList).map Prod.fst = some b.guardAddr → sizePages size ≤ b.room
  | .free _ => True

instance (s : Stacks) : (o : StackOp) → Decidable (Proper s o)
  | .allocate _ _ => inferInstanceAs (Decidable True)
  | .free base => inferInstanceAs (Decidable (∃ k ∈ s.live, k.base = base))

instance (s : Stacks) : (o : StackOp) → Decidable (Fits s o)
  | .allocate size _ => inferInstanceAs (Decidable (∀ b ∈ s.blocks,
      (takeSlot s.ks.freeList).map Prod.fst = some b.guardAddr → sizePages size ≤ b.room))
  | .free _ => inferInstanceAs (Decidable True)

end Stacks

/-! ## The free list -/

/-- the addresses in the free list -/
def entries (slots : List ℕ) : List ℕ := slots.filter (· ≠ 0)

theorem takeSlot_some {slots rest : List ℕ} {guardAddr : ℕ} (h : takeSlot slots = some (guardAddr, rest)) :
    entries slots = guardAddr :: entries rest := by
  induction slots generalizing rest with
  | nil => cases h
  | cons slot slots ih =>
    unfold takeSlot at h
    by_cases hs : slot = 0
    · rw [if_neg (not_not.2 hs)] at h
      obtain ⟨⟨g, r⟩, hr, heq⟩ := Option.map_eq_some_iff.1 h
      obtain ⟨rfl, rfl⟩ := Prod.mk.inj heq
      simpa [entries, hs] using ih hr
    · rw [if_pos hs] at h
      cases h
      simp [entries, hs]

/-- an address given back is added, or dropped when the list is full -/
theorem entries_putSlot {guardAddr : ℕ} (hg : guardAddr ≠ 0) (slots : List ℕ) :
    (entries (putSlot guardAddr slots)).Perm (guardAddr :: entries slots) ∨
      entries (putSlot guardAddr slots) = entries slots := by
  induction slots with
  | nil => exact .inr rfl
  | cons slot slots ih =>
    unfold putSlot
    by_cases hs : slot = 0
    · left
      simp [entries, hs, hg]
    · rw [if_neg hs]
      rcases ih with ih | ih
      · left
        simp only [entries, ne_eq, hs, not_false_eq_true, decide_true, List.filter_cons_of_pos] at ih ⊢
        exact (ih.cons slot).trans (List.Perm.swap ..)
      · right
        simpa [entries, hs] using ih

theorem le_sizePages (size : ℕ) : size ≤ sizePages size := by
  unfold sizePages kstackPageBytes
  omega

/-- **What `allocate_kernel_stack` does**: it takes an address from the free list, or cuts a block off the pool, or
returns nothing, with the bump offset possibly moved all the same. -/
theorem allocateKernelStack_cases {pool : KernelStackPool} {ks ks' : KernelStacks} {size : ℕ} {ok : Bool}
    {r : Option ℕ} (h : allocateKernelStack pool ks size ok = some (r, ks')) :
    (∃ guardAddr, takeSlot ks.freeList = some (guardAddr, ks'.freeList) ∧ ks'.nextOffset = ks.nextOffset ∧
      r = add64 guardAddr kstackGuardBytes) ∨
    (ks'.freeList = ks.freeList ∧ ks'.nextOffset = ks.nextOffset + (sizePages size + kstackGuardBytes) ∧
      ks'.nextOffset ≤ kstackPoolSize ∧ r = some (pool.base + ks.nextOffset + kstackGuardBytes)) ∨
    (ks'.freeList = ks.freeList ∧ ks.nextOffset ≤ ks'.nextOffset ∧ r = none) := by
  unfold allocateKernelStack at h
  split at h
  · cases h
    exact .inr (.inr ⟨rfl, le_refl _, rfl⟩)
  · split at h
    next g rest htake =>
      rw [Option.some.injEq, Prod.mk.injEq] at h
      obtain ⟨rfl, rfl⟩ := h
      exact .inl ⟨g, htake, rfl, rfl⟩
    next htake =>
      simp only at h
      split at h
      · cases h
      next stop hstop =>
        obtain ⟨rfl, hlt⟩ := add64_eq_some hstop
        rw [Nat.mod_eq_of_lt hlt] at h
        rcases ite_eq_iff.1 h with ⟨hpool, h⟩ | ⟨hpool, h⟩
        · cases h
          exact .inr (.inr ⟨rfl, Nat.le_add_right .., rfl⟩)
        · -- the whole block lies in the pool, so neither its guard address nor the stack's base overflows
          have hfits := pool.fits
          have hguard : add64 pool.base ks.nextOffset = some (pool.base + ks.nextOffset) := if_pos (by omega)
          have hbase : add64 (pool.base + ks.nextOffset) kstackGuardBytes =
              some (pool.base + ks.nextOffset + kstackGuardBytes) := if_pos (by omega)
          rw [hguard] at h
          cases h
          cases ok with
          | false => exact .inr (.inr ⟨rfl, Nat.le_add_right .., rfl⟩)
          | true => exact .inr (.inl ⟨rfl, rfl, Nat.not_lt.1 hpool, by rw [if_pos rfl, hbase]⟩)

/-! ## The invariant -/

/-- the first address behind a block -/
def Block.stop (b : Block) : ℕ := b.guardAddr + kstackGuardBytes + b.room

/-- two blocks share no address -/
def Block.Apart (b c : Block) : Prop := b.stop ≤ c.guardAddr ∨ c.stop ≤ b.guardAddr

instance : Std.Symm Block.Apart := ⟨fun _ _ h => h.symm⟩

namespace Stacks

/-- the blocks lie apart in the used part of the pool; live stacks and free addresses have a block each -/
structure Inv (pool : KernelStackPool) (s : Stacks) : Prop where
  inside : ∀ b ∈ s.blocks, pool.base ≤ b.guardAddr ∧ b.stop ≤ pool.base + s.ks.nextOffset ∧
    b.stop ≤ pool.base + kstackPoolSize
  apart : s.blocks.Pairwise Block.Apart
  live : ∀ k ∈ s.live, ∃ b ∈ s.blocks, b.guardAddr + kstackGuardBytes = k.base ∧ k.size ≤ b.room
  distinct : s.live.Pairwise fun k l => k.base ≠ l.base
  free : ∀ g ∈ entries s.ks.freeList, (∃ b ∈ s.blocks, b.guardAddr = g) ∧
    ∀ k ∈ s.live, k.base ≠ g + kstackGuardBytes
  nodup : (entries s.ks.freeList).Nodup

theorem inv_init (pool : KernelStackPool) : Inv pool init := by
  have hfree : entries init.ks.freeList = [] := by decide
  refine ⟨nofun, .nil, nofun, .nil, ?_, ?_⟩
  · rw [hfree]
    exact nofun
  · rw [hfree]
    exact List.nodup_nil

section Steps

variable {pool : KernelStackPool} {s : Stacks} (hi : Inv pool s)

include hi

/-- an address in the free list becomes a live stack that fits its block -/
theorem inv_reuse {g : ℕ} {ks : KernelStacks} {size : ℕ} (htake : takeSlot s.ks.freeList = some (g, ks.freeList))
    (hoff : ks.nextOffset = s.ks.nextOffset) (hfit : ∀ b ∈ s.blocks, b.guardAddr = g → sizePages size ≤ b.room) :
    Inv pool ⟨ks, ⟨g + kstackGuardBytes, size⟩ :: s.live, s.blocks⟩ := by
  have hentries := takeSlot_some htake
  have hnodup := hi.nodup
  rw [hentries] at hnodup
  obtain ⟨hnot, hrest⟩ := List.nodup_cons.1 hnodup
  obtain ⟨⟨b, hb, rfl⟩, hfresh⟩ := hi.free g (hentries ▸ List.mem_cons_self ..)
  refine ⟨fun c hc => ?_, hi.apart, fun k hk => ?_, ?_, fun g' hg' => ?_, hrest⟩
  · rw [hoff]
    exact hi.inside c hc
  · rcases List.mem_cons.1 hk with rfl | hk
    · exact ⟨b, hb, rfl, (le_sizePages size).trans (hfit b hb rfl)⟩
    · exact hi.live k hk
  · exact List.pairwise_cons.2 ⟨fun k hk => (hfresh k hk).symm, hi.distinct⟩
  · obtain ⟨hblock, hlive⟩ := hi.free g' (hentries ▸ List.mem_cons_of_mem _ hg')
    refine ⟨hblock, fun k hk => ?_⟩
    rcases List.mem_cons.1 hk with rfl | hk
    · intro he
      exact hnot ((Nat.add_right_cancel he) ▸ hg')
    · exact hlive k hk

/-- a new block behind all others becomes a live stack -/
theorem inv_cut {ks : KernelStacks} {size : ℕ} (hfree : ks.freeList = s.ks.freeList)
    (hoff : ks.nextOffset = s.ks.nextOffset + (sizePages size + kstackGuardBytes))
    (hpool : ks.nextOffset ≤ kstackPoolSize) :
    Inv pool ⟨ks, ⟨pool.base + s.ks.nextOffset + kstackGuardBytes, size⟩ :: s.live,
      ⟨pool.base + s.ks.nextOffset, sizePages size⟩ :: s.blocks⟩ := by
  have hguard : 0 < kstackGuardBytes := by decide
  -- every older block ends before the new one starts
  have hbefore : ∀ c ∈ s.blocks, c.stop ≤ pool.base + s.ks.nextOffset := fun c hc => (hi.inside c hc).2.1
  have hne : ∀ c ∈ s.blocks, c.guardAddr ≠ pool.base + s.ks.nextOffset := fun c hc he => by
    have := hbefore c hc
    unfold Block.stop at this
    omega
  refine ⟨fun c hc => ?_, ?_, fun k hk => ?_, ?_, fun g hg => ?_, by rw [hfree]; exact hi.nodup⟩
  · rcases List.mem_cons.1 hc with rfl | hc
    · simp only [Block.stop]
      omega
    · obtain ⟨h₁, h₂, h₃⟩ := hi.inside c hc
      refine ⟨h₁, ?_, h₃⟩
      show c.stop ≤ pool.base + ks.nextOffset
      omega
  · exact List.pairwise_cons.2 ⟨fun c hc => .inr (hbefore c hc), hi.apart⟩
  · rcases List.mem_cons.1 hk with rfl | hk
    · exact ⟨_, List.mem_cons_self .., rfl, le_sizePages size⟩
    · obtain ⟨b, hb, hbk⟩ := hi.live k hk
      exact ⟨b, List.mem_cons_of_mem _ hb, hbk⟩
  · refine List.pairwise_cons.2 ⟨fun k hk he => ?_, hi.distinct⟩
    obtain ⟨b, hb, hbase, -⟩ := hi.live k hk
    exact hne b hb (by simp only at he; omega)
  · rw [hfree] at hg
    obtain ⟨⟨b, hb, hbg⟩, hlive⟩ := hi.free g hg
    refine ⟨⟨b, List.mem_cons_of_mem _ hb, hbg⟩, fun k hk => ?_⟩
    rcases List.mem_cons.1 hk with rfl | hk
    · intro he
      exact hne b hb (by simp only at he; omega)
    · exact hlive k hk

theorem inv_allocate (size : ℕ) (ok : Bool) (hfit : Fits s (.allocate size ok)) :
    Inv pool (step pool s (.allocate size ok)) := by
  cases hcall : allocateKernelStack pool s.ks size ok with
  | none =>
    simp only [step, hcall]
    exact hi
  | some res =>
    obtain ⟨r, ks⟩ := res
    rcases allocateKernelStack_cases hcall with ⟨g, htake, hoff, hr⟩ | ⟨hfree, hoff, hpool, hr⟩ | ⟨hfree, hoff, hr⟩
    · have hmem : g ∈ entries s.ks.freeList := by
        rw [takeSlot_some htake]
        exact List.mem_cons_self ..
      obtain ⟨⟨b, hb, hbg⟩, -⟩ := hi.free g hmem
      have hadd : add64 g kstackGuardBytes = some (g + kstackGuardBytes) := by
        have h₁ := (hi.inside b hb).2.2
        have h₂ := pool.fits
        unfold Block.stop at h₁
        exact if_pos (by omega)
      simp only [step, hcall, hr, hadd, hoff, if_true]
      refine inv_reuse hi htake hoff fun c hc hcg => hfit c hc ?_
      rw [htake, hcg]
      rfl
    · have hguard : 0 < kstackGuardBytes := by decide
      have hne : ks.nextOffset ≠ s.ks.nextOffset := by omega
      simp only [step, hcall, hr, if_neg hne, Nat.add_sub_cancel]
      exact inv_cut hi hfree hoff hpool
    · simp only [step, hcall, hr]
      refine ⟨fun c hc => ?_, hi.apart, hi.live, hi.distinct, ?_, ?_⟩
      · obtain ⟨h₁, h₂, h₃⟩ := hi.inside c hc
        refine ⟨h₁, ?_, h₃⟩
        show c.stop ≤ pool.base + ks.nextOffset
        omega
      · rw [hfree]
        exact hi.free
      · rw [hfree]
        exact hi.nodup

theorem inv_free {base : ℕ} (hlive : Proper s (.free base)) : Inv pool (step pool s (.free base)) := by
  obtain ⟨k, hk, rfl⟩ := hlive
  obtain ⟨b, hb, hbase, -⟩ := hi.live k hk
  obtain ⟨hlow, -, hhigh⟩ := hi.inside b hb
  have hpos := pool.pos
  have hg : k.base - kstackGuardBytes = b.guardAddr := by omega
  have hguard : 0 < kstackGuardBytes := by decide
  -- the address passes the checks of the code
  have hks : freeKernelStack pool s.ks k.base = { s.ks with freeList := putSlot b.guardAddr s.ks.freeList } := by
    unfold Block.stop at hhigh
    unfold freeKernelStack
    rw [if_neg (by omega)]
    simp only [hg]
    rw [if_neg (by omega)]
  have hsub : ∀ l ∈ s.live.filter fun l => decide (l.base ≠ k.base), l ∈ s.live ∧ l.base ≠ k.base := fun l hl => by
    simpa using hl
  have hnotin : b.guardAddr ∉ entries s.ks.freeList := fun hm => (hi.free _ hm).2 k hk hbase.symm
  simp only [step, hks]
  refine ⟨hi.inside, hi.apart, fun l hl => hi.live l (hsub l hl).1, hi.distinct.filter _, fun g hm => ?_, ?_⟩
  · have hold : g ∈ entries s.ks.freeList → (∃ b ∈ s.blocks, b.guardAddr = g) ∧
        ∀ l ∈ s.live.filter fun l => decide (l.base ≠ k.base), l.base ≠ g + kstackGuardBytes := fun h =>
      ⟨(hi.free g h).1, fun l hl => (hi.free g h).2 l (hsub l hl).1⟩
    rcases entries_putSlot (show b.guardAddr ≠ 0 by omega) s.ks.freeList with hperm | heq
    · rcases List.mem_cons.1 (hperm.mem_iff.1 hm) with rfl | hm
      · exact ⟨⟨b, hb, rfl⟩, fun l hl => by rw [hbase]; exact (hsub l hl).2⟩
      · exact hold hm
    · exact hold (heq ▸ hm)
  · rcases entries_putSlot (show b.guardAddr ≠ 0 by omega) s.ks.freeList with hperm | heq
    · exact hperm.nodup_iff.2 (List.nodup_cons.2 ⟨hnotin, hi.nodup⟩)
    · simp only [heq]
      exact hi.nodup

/-- live stacks of different bases lie in different blocks -/
theorem covers_apart {k l : Stack} (hk : k ∈ s.live) (hl : l ∈ s.live) (hne : k.base ≠ l.base) (a : ℕ) :
    ¬ (k.Covers a ∧ l.Covers a) := by
  rintro ⟨⟨hka, hak⟩, ⟨hla, hal⟩⟩
  obtain ⟨b, hb, hbk, hkb⟩ := hi.live k hk
  obtain ⟨c, hc, hcl, hlc⟩ := hi.live l hl
  have hbc : b ≠ c := by
    rintro rfl
    exact hne (hbk.symm.trans hcl)
  rcases hi.apart.forall hb hc hbc with h | h
  · unfold Block.stop at h
    omega
  · unfold Block.stop at h
    omega

end Steps

/-- **One step.** -/
theorem inv_step {pool : KernelStackPool} (s : Stacks) (o : StackOp) (hi : Inv pool s) (ho : Proper s o ∧ Fits s o) :
    Inv pool (step pool s o) := by
  cases o with
  | allocate size ok => exact inv_allocate hi size ok ho.2
  | free base => exact inv_free hi ho.1

/-- **Kernel stacks are disjoint.** In every run that frees only live stacks and reuses a freed block only for as many
pages as it was cut for, every live stack and its guard page lie inside the pool, and no two live stacks or guard pages
share an address. -/
theorem stacks_disjoint_of_fits (pool : KernelStackPool) (ops : List StackOp)
    (hops : Along (step pool) (fun s o => Proper s o ∧ Fits s o) init ops) :
    let s := run (step pool) init ops
    (∀ k ∈ s.live, pool.base ≤ k.base - kstackGuardBytes ∧ k.base + k.size ≤ pool.base + kstackPoolSize) ∧
      s.live.Pairwise fun k l => ∀ a, ¬ (k.Covers a ∧ l.Covers a) := by
  intro s
  have hi : Inv pool s := inv_along inv_step _ ops (inv_init pool) hops
  constructor
  · intro k hk
    obtain ⟨b, hb, hbk, hkb⟩ := hi.live k hk
    obtain ⟨hlow, -, hhigh⟩ := hi.inside b hb
    unfold Block.stop at hhigh
    omega
  · exact hi.distinct.imp_of_mem fun hk hl hne => covers_apart hi hk hl hne

/-- an exec stack is freed and reused for another exec while a fork stack stays live -/
theorem stacks_disjoint_of_fits_execReuse :
    let pool : KernelStackPool := ⟨0x200000, by decide, by decide, by decide⟩
    let s := run (step pool) init
      [.allocate 0x20000 true, .allocate 0x4000 true, .free 0x201000, .allocate 0x20000 true]
    s.live = [⟨0x201000, 0x20000⟩, ⟨0x222000, 0x4000⟩] ∧
      s.live.Pairwise fun k l => ∀ a, ¬ (k.Covers a ∧ l.Covers a) :=
  ⟨by decide +kernel, (stacks_disjoint_of_fits _ _ (by decide +kernel)).2⟩

/-- two forks, the first child ends and an exec takes its block: the new stack runs over the second child's stack -/
theorem fork_block_reused_by_exec :
    let pool : KernelStackPool := ⟨0x200000, by decide, by decide, by decide⟩
    let ops : List StackOp := [.allocate 0x4000 true, .allocate 0x4000 true, .free 0x201000, .allocate 0x20000 true]
    let s := run (step pool) init ops
    Along (step pool) Proper init ops ∧ s.live = [⟨0x201000, 0x20000⟩, ⟨0x206000, 0x4000⟩] ∧
      ¬ s.live.Pairwise fun k l => ∀ a, ¬ (k.Covers a ∧ l.Covers a) := by
  intro pool ops s
  have hlive : s.live = [⟨0x201000, 0x20000⟩, ⟨0x206000, 0x4000⟩] := by decide +kernel
  refine ⟨by decide +kernel, hlive, fun h => ?_⟩
  rw [hlive] at h
  refine (List.pairwise_cons.1 h).1 ⟨0x206000, 0x4000⟩ (List.mem_singleton_self _) 0x206000 ?_
  constructor <;> (unfold Stack.Covers kstackGuardBytes kstackPageBytes; decide)

end Stacks

end SwiftCore.Task
