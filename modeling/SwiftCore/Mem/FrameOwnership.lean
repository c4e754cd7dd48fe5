/-
Who owns a physical frame: runs of the frame allocator together with the holders of its frames.

`Sys` adds to the allocator and the memory two lists that exist only here: `held`, the frames handed out and not given
back, and `freed`, the frames given back and not handed out again, the last one first. Steps are `allocate_frame`,
`deallocate_frame` and a holder's write to a word of a frame. A run is `Proper` when frames are given back and written
only while they are held.
- `inv_step`, from which `inv_run_proper`: in every proper run the links in memory spell out `freed`, no freed frame is
  held, and held and freed frames are exactly the usable ones between 1 MiB and the bump pointer.
- `frame_exclusivity`: what this gives for the next call of `allocate_frame`.
- `mmio_excludes_ram`: a range that `is_allowed_mmio_range` accepts holds no frame of the allocator and no memory in use.
-/
import SwiftCore.Lib.Links
import SwiftCore.Lib.Run
import SwiftCore.Mem.Frame

namespace SwiftCore.Mem

open Run Links BitmapFrameAllocator Function

/-! ## The memory map -/

/-- a frame that lies inside a `Usable` region -/
def UsableFrame (map : List MemoryRegion) (f : PhysFrame) : Prop :=
  ∃ r ∈ map, r.regionType = .usable ∧ r.start ≤ f.startAddress ∧ f.startAddress + 4096 ≤ r.start + r.len

/-- every region starts and ends on a page boundary -/
def PageAligned (map : List MemoryRegion) : Prop := ∀ r ∈ map, r.start % 4096 = 0 ∧ r.len % 4096 = 0
  deriving Decidable

variable {map : List MemoryRegion} {r : MemoryRegion} {b : Bool} {f : PhysFrame} {a : BitmapFrameAllocator} {m : PhysMem}

theorem MemoryRegion.holds_eq_some {a : ℕ} (h : r.holds a = some b) :
    b = true ↔ r.regionType = .usable ∧ r.start ≤ a ∧ a < r.start + r.len := by
  unfold holds at h
  split_ifs at h with hc
  · obtain ⟨e, he, rfl⟩ := Option.map_eq_some_iff.1 h
    obtain ⟨rfl, -⟩ := add64_eq_some he
    simp [hc]
  · cases h
    simp only [Bool.false_eq_true, false_iff]
    exact fun hr => hc ⟨hr.1, hr.2.1⟩

/-- an answer of the lookup is right about the regions it is made from -/
theorem isUsableAddr_eq_some {a : ℕ} (h : isUsableAddr map a = some b) :
    b = true ↔ ∃ r ∈ map, r.regionType = .usable ∧ r.start ≤ a ∧ a < r.start + r.len := by
  induction map with
  | nil =>
    cases h
    simp
  | cons r rs ih =>
    unfold isUsableAddr at h
    cases hr : r.holds a with
    | none => rw [hr] at h; cases h
    | some c =>
      have hc := MemoryRegion.holds_eq_some hr
      rw [hr] at h
      cases c with
      | true =>
        cases h
        simp only [true_iff, List.mem_cons, exists_eq_or_imp] at hc ⊢
        exact .inl hc
      | false =>
        simp only [Bool.false_eq_true, false_iff] at hc
        simp [ih h, hc]

/-- on a page-aligned map a usable address of a frame makes the whole frame usable -/
theorem usableFrame_iff (hmap : PageAligned map)
    (h : isUsableAddr map f.startAddress = some b) : b = true ↔ UsableFrame map f := by
  rw [isUsableAddr_eq_some h]
  unfold UsableFrame
  refine exists_congr fun r => and_congr_right fun hr => ?_
  have := hmap r hr
  have hf : f.startAddress % 4096 = 0 := Nat.mul_mod_left ..
  refine and_congr_right fun _ => and_congr_right fun _ => ?_
  omega

theorem maxFrame_le {last : ℕ} (h : maxFrame map = some last)
    (hr : r ∈ map) : (r.start + r.len) / 4096 ≤ last := by
  induction map generalizing last with
  | nil => exact absurd hr List.not_mem_nil
  | cons r' rs ih =>
    unfold maxFrame at h
    split at h
    next e m he hm =>
      cases h
      rcases List.mem_cons.1 hr with rfl | hr
      · rw [(add64_eq_some he).1]
        exact le_max_left ..
      · exact (ih hm hr).trans (le_max_right ..)
    · cases h

/-- what the search of the bump pointer finds: the first usable frame, or that there is none -/
theorem nextUsable_eq_some {n f : ℕ} {res : Option ℕ}
    (h : nextUsable map n f = some res) :
    match res with
    | some g => f ≤ g ∧ isUsableAddr map (g * 4096) = some true ∧
        ∀ k, f ≤ k → k < g → isUsableAddr map (k * 4096) = some false
    | none => ∀ k, f ≤ k → k < f + n → isUsableAddr map (k * 4096) = some false := by
  induction n generalizing f with
  | zero =>
    cases h
    intro k hk hlt
    omega
  | succ n ih =>
    unfold nextUsable at h
    split at h
    · cases h
    next hu =>
      cases h
      exact ⟨le_refl f, hu, fun k hk hlt => absurd hlt (Nat.not_lt.2 hk)⟩
    next hu =>
      have := ih h
      cases res with
      | some g =>
        obtain ⟨hle, hg, hbefore⟩ := this
        refine ⟨by omega, hg, fun k hk hlt => ?_⟩
        rcases Nat.eq_or_lt_of_le hk with rfl | hk
        · exact hu
        · exact hbefore k hk hlt
      | none =>
        intro k hk hlt
        rcases Nat.eq_or_lt_of_le hk with rfl | hk
        · exact hu
        · exact this k hk (by omega)

/-! ## Runs -/

/-- the allocator, the memory and, for the statements only, which frames are held and which wait to be reused -/
structure Frames where
  alloc : BitmapFrameAllocator
  mem : PhysMem
  held : Finset PhysFrame
  freed : List PhysFrame

/-- calls of the allocator and writes of the holders -/
inductive FrameOp
  | allocate
  | deallocate (frame : PhysFrame)
  | write (frame : PhysFrame) (index : ℕ) (word : BitVec 64)
deriving DecidableEq, Repr

namespace Frames

def init (map : List MemoryRegion) (physOffset : ℕ) (mem : PhysMem) : Frames :=
  ⟨BitmapFrameAllocator.new map physOffset, mem, ∅, []⟩

/-- one operation; a panic ends the run and leaves the state as it is -/
def step (s : Frames) : FrameOp → Frames
  | .allocate =>
    match s.alloc.allocateFrame s.mem with
    | some (some f, a, m) => ⟨a, m, insert f s.held, s.freed.erase f⟩
    | some (none, a, m) => ⟨a, m, s.held, s.freed⟩
    | none => s
  | .deallocate f =>
    match s.alloc.deallocateFrame s.mem f with
    | some (true, a, m) => ⟨a, m, s.held.erase f, f :: s.freed⟩
    | some (false, a, m) => ⟨a, m, s.held, s.freed⟩
    | none => s
  | .write f i w => { s with mem := update s.mem f.number (update (s.mem f.number) i w) }

/-- frames are given back and written only while they are held -/
def Proper (s : Frames) : FrameOp → Prop
  | .allocate => True
  | .deallocate f => f ∈ s.held
  | .write f _ _ => f ∈ s.held

instance (s : Frames) : (o : FrameOp) → Decidable (Proper s o)
  | .allocate => inferInstanceAs (Decidable True)
  | .deallocate f => inferInstanceAs (Decidable (f ∈ s.held))
  | .write f _ _ => inferInstanceAs (Decidable (f ∈ s.held))

/-- the links of the free list: the first word of the frame at an address -/
def link (m : PhysMem) (a : ℕ) : ℕ := (m.read a).toNat

/-- the free list of the allocator visits the frames `l` -/
def FreeList (a : BitmapFrameAllocator) (m : PhysMem) (l : List PhysFrame) : Prop :=
  Chain (link m) 0 a.freeListHead (l.map PhysFrame.startAddress)

/-- the invariant of proper runs -/
structure Inv (map : List MemoryRegion) (off : ℕ) (s : Frames) : Prop where
  map_eq : s.alloc.memoryMap = map
  off_eq : s.alloc.physOffset = off
  list : FreeList s.alloc s.mem s.freed
  apart : ∀ f ∈ s.freed, f ∉ s.held
  cover : ∀ f, f ∈ s.held ∨ f ∈ s.freed ↔
    UsableFrame map f ∧ 0x100000 ≤ f.startAddress ∧ f.number < s.alloc.nextFrame
  base : 0x100000 / 4096 ≤ s.alloc.nextFrame

/-! ## Links in memory -/

variable {l : List PhysFrame} {a' : BitmapFrameAllocator} {m' : PhysMem} {off : ℕ} {s : Frames}

theorem write_startAddress (m : PhysMem) (f : PhysFrame) (w : BitVec 64) :
    m.write f.startAddress w = update m f.number (update (m f.number) 0 w) := by
  simp [PhysMem.write, PhysFrame.startAddress]

theorem link_startAddress (m : PhysMem) (f : PhysFrame) : link m f.startAddress = (m f.number 0).toNat := by
  simp [link, PhysMem.read, PhysFrame.startAddress]

theorem link_write (m : PhysMem) (f : PhysFrame) (w : BitVec 64) :
    link (m.write f.startAddress w) f.startAddress = w.toNat := by
  simp [link_startAddress, write_startAddress]

/-- a change of one frame leaves the links of the others -/
theorem link_update (m : PhysMem) (words : ℕ → BitVec 64) {g : PhysFrame} (h : g ≠ f) :
    link (update m f.number words) g.startAddress = link m g.startAddress := by
  have hne : g.number ≠ f.number := fun he => h (PhysFrame.ext_number he)
  simp [link_startAddress, update_of_ne hne]

/-- the free list survives a change of a frame outside it -/
theorem FreeList.update (h : FreeList a m l)
    (hf : f ∉ l) (words : ℕ → BitVec 64) : FreeList a (update m f.number words) l := by
  refine Chain.congr h fun b hb => ?_
  obtain ⟨g, hg, rfl⟩ := List.mem_map.1 hb
  exact link_update m words fun he => hf (he ▸ hg)

theorem FreeList.nodup (h : FreeList a m l) : l.Nodup :=
  (Chain.nodup h).of_map _

theorem FreeList.head (h : FreeList a m l) :
    a.freeListHead = (l.map PhysFrame.startAddress).headD 0 := by
  unfold FreeList at h
  cases hl : l.map PhysFrame.startAddress with
  | nil => rw [hl] at h; generalize a.freeListHead = x at h ⊢; cases h; rfl
  | cons b l => rw [hl] at h; generalize a.freeListHead = x at h ⊢; cases h; rfl

theorem FreeList.pop (h : FreeList a m (f :: l)) : f.startAddress ≠ 0 ∧
    FreeList { a with freeListHead := link m f.startAddress } (m.write f.startAddress 0) l := by
  obtain ⟨hhead, hne, hrest⟩ := Chain.pop h
  rw [write_startAddress]
  exact ⟨hhead ▸ hne, FreeList.update (a := { a with freeListHead := link m f.startAddress }) hrest
    (List.nodup_cons.1 h.nodup).1 _⟩

/-- the head of the list fits into the word that a freed frame keeps it in -/
theorem FreeList.link_push (h : FreeList a m l) :
    link (m.write f.startAddress (BitVec.ofNat 64 a.freeListHead)) f.startAddress = a.freeListHead := by
  rw [link_write, BitVec.toNat_ofNat, Nat.mod_eq_of_lt]
  rw [h.head]
  cases l with
  | nil => decide
  | cons g l => exact g.startAddress_lt.trans (by decide)

theorem FreeList.push (h : FreeList a m l) (hf : f ∉ l) (hne : f.startAddress ≠ 0) :
    FreeList { a with freeListHead := f.startAddress }
      (m.write f.startAddress (BitVec.ofNat 64 a.freeListHead)) (f :: l) := by
  refine Chain.push (b := f.startAddress) h hne h.link_push fun b hb => ?_
  obtain ⟨g, hg, rfl⟩ := List.mem_map.1 hb
  rw [write_startAddress]
  exact link_update _ _ fun he => hf (he ▸ hg)

section Lists

variable (hlist : FreeList s.alloc s.mem s.freed) (hapart : ∀ f ∈ s.freed, f ∉ s.held)

include hlist hapart

/-- the head leaves the free list -/
theorem lists_pop (hl : s.freed = f :: l) :
    FreeList { s.alloc with freeListHead := link s.mem f.startAddress } (s.mem.write f.startAddress 0) (s.freed.erase f) ∧
      ∀ g ∈ s.freed.erase f, g ∉ insert f s.held := by
  rw [hl] at hlist hapart ⊢
  rw [List.erase_cons_head]
  refine ⟨hlist.pop.2, fun g hg => ?_⟩
  rw [Finset.mem_insert, not_or]
  exact ⟨fun he => (List.nodup_cons.1 hlist.nodup).1 (he ▸ hg), hapart g (List.mem_cons_of_mem _ hg)⟩

/-- a held frame becomes the head -/
theorem lists_push (hf : f ∈ s.held) (hne : f.startAddress ≠ 0) :
    FreeList { s.alloc with freeListHead := f.startAddress }
      (s.mem.write f.startAddress (BitVec.ofNat 64 s.alloc.freeListHead)) (f :: s.freed) ∧
      ∀ g ∈ f :: s.freed, g ∉ s.held.erase f := by
  refine ⟨hlist.push (fun hm => hapart f hm hf) hne, fun g hg => ?_⟩
  simp only [Finset.mem_erase, not_and_or, not_not]
  rcases List.mem_cons.1 hg with rfl | hg
  · exact .inl rfl
  · exact .inr (hapart g hg)

end Lists

/-! ## One call -/

/-- **What `allocate_frame` returns.** A freed frame when there is one, else the first usable frame from the bump
pointer on, else there is no usable frame left behind it. -/
theorem allocateFrame_cases (hmap : s.alloc.memoryMap = map)
    (hlist : FreeList s.alloc s.mem s.freed) (hoff : s.freed ≠ [] → s.alloc.physOffset ≠ 0) {r : Option PhysFrame}
    (h : s.alloc.allocateFrame s.mem = some (r, a, m)) :
    (∃ f l, s.freed = f :: l ∧ r = some f ∧ a = { s.alloc with freeListHead := link s.mem f.startAddress } ∧
      m = s.mem.write f.startAddress 0) ∨
    (s.freed = [] ∧ ∃ f : PhysFrame, r = some f ∧ isUsableAddr map f.startAddress = some true ∧
      s.alloc.nextFrame ≤ f.number ∧ (∀ g : PhysFrame, s.alloc.nextFrame ≤ g.number → g.number < f.number →
        isUsableAddr map g.startAddress = some false) ∧
      a = { s.alloc with nextFrame := f.number + 1 } ∧ m = s.mem) ∨
    (s.freed = [] ∧ r = none ∧ a = s.alloc ∧ m = s.mem ∧
      ∀ g : PhysFrame, s.alloc.nextFrame ≤ g.number → UsableFrame map g →
        isUsableAddr map g.startAddress = some false) := by
  have hhead := hlist.head
  unfold allocateFrame at h
  cases hl : s.freed with
  | cons f l =>
    rw [hl] at hlist
    rw [hl, List.map_cons, List.headD_cons] at hhead
    rw [if_pos ⟨hhead ▸ hlist.pop.1, hoff (by simp [hl])⟩, hhead] at h
    simp only [PhysFrame.containingAddress_startAddress, Option.bind_eq_bind, Option.bind_some, Option.pure_def,
      Option.bind_eq_some_iff, Option.some.injEq, Prod.mk.injEq] at h
    obtain ⟨-, -, rfl, rfl, rfl⟩ := h
    exact .inl ⟨f, l, rfl, rfl, rfl, rfl⟩
  | nil =>
    rw [hl] at hhead
    rw [if_neg (fun hc => hc.1 hhead), hmap] at h
    simp only [Option.bind_eq_bind, Option.pure_def, Option.bind_eq_some_iff] at h
    obtain ⟨last, hlast, res, hres, h⟩ := h
    have hsearch := nextUsable_eq_some hres
    cases res with
    | some k =>
      simp only [Option.bind_eq_some_iff, Option.some.injEq, Prod.mk.injEq] at h
      obtain ⟨f, hf, rfl, rfl, rfl⟩ := h
      obtain ⟨hle, huse, hbefore⟩ := hsearch
      unfold PhysFrame.containingAddress at hf
      split_ifs at hf with hlt
      cases hf
      have hk : k * 4096 / 4096 = k := Nat.mul_div_cancel k (by decide)
      refine .inr (.inl ⟨rfl, _, rfl, by simpa [PhysFrame.startAddress, hk] using huse, by simpa [hk] using hle, ?_,
        by simp [hk, hmap], rfl⟩)
      intro g hg hgk
      exact hbefore g.number hg (by simpa [hk] using hgk)
    | none =>
      cases h
      refine .inr (.inr ⟨rfl, rfl, rfl, rfl, fun g hg hu => ?_⟩)
      obtain ⟨region, hr, -, -, hend⟩ := hu
      have hmax := maxFrame_le hlast hr
      unfold PhysFrame.startAddress at hend
      exact hsearch g.number hg (by omega)

/-- **What `deallocate_frame` does.** It refuses the frame, or puts it in front of the free list. -/
theorem deallocateFrame_cases
    (h : a.deallocateFrame m f = some (b, a', m')) :
    (b = false ∧ a' = a ∧ m' = m ∧ (isUsableAddr a.memoryMap f.startAddress = some false ∨ a.physOffset = 0)) ∨
    (b = true ∧ isUsableAddr a.memoryMap f.startAddress = some true ∧ a.physOffset ≠ 0 ∧
      f.startAddress + a.physOffset < 2 ^ 64 ∧ a' = { a with freeListHead := f.startAddress } ∧
      m' = m.write f.startAddress (BitVec.ofNat 64 a.freeListHead)) := by
  have haligned : f.startAddress % 4096 = 0 := Nat.mul_mod_left ..
  unfold deallocateFrame isUsableFrameAddr at h
  rw [if_neg (not_not_intro haligned)] at h
  obtain ⟨u, hu, h⟩ := Option.bind_eq_some_iff.1 h
  split_ifs at h with hno hzero
  · cases h
    exact .inl ⟨rfl, rfl, rfl, .inl (by simpa [hu] using hno)⟩
  · cases h
    exact .inl ⟨rfl, rfl, rfl, .inr hzero⟩
  · obtain ⟨e, he, h⟩ := Option.bind_eq_some_iff.1 h
    cases h
    exact .inr ⟨rfl, by simpa [hu] using hno, hzero, (add64_eq_some he).2, rfl, rfl⟩

section Call

variable (hi : Inv map off s)

include hi

/-! ## Steps -/

theorem inv_allocate (hoff : s.freed ≠ [] → off ≠ 0) (hmap : PageAligned map) : Inv map off (step s .allocate) := by
  unfold step
  cases hcall : s.alloc.allocateFrame s.mem with
  | none => exact hi
  | some res =>
    obtain ⟨r, a, m⟩ := res
    rcases allocateFrame_cases hi.map_eq hi.list (by rwa [hi.off_eq]) hcall with ⟨f, l, hl, rfl, rfl, rfl⟩ |
      ⟨hl, f, rfl, huse, hle, hskip, rfl, rfl⟩ | ⟨hl, rfl, rfl, rfl, -⟩
    · obtain ⟨hlist, hapart⟩ := lists_pop hi.list hi.apart hl
      refine ⟨hi.map_eq, hi.off_eq, hlist, hapart, fun g => ?_, hi.base⟩
      rw [← hi.cover g]
      simp only [hl, List.erase_cons_head, Finset.mem_insert, List.mem_cons]
      tauto
    · -- the bump pointer moves behind the new frame
      refine ⟨hi.map_eq, hi.off_eq, ?_, fun g hg => ?_, fun g => ?_, ?_⟩
      · simp only [hl, List.erase_nil]
        have := hi.list
        rw [hl] at this
        exact this
      · simp [hl] at hg
      · have hg := hi.cover g
        have hbase := hi.base
        simp only [hl, List.erase_nil, Finset.mem_insert, List.not_mem_nil, or_false] at hg ⊢
        constructor
        · rintro (rfl | hheld)
          · exact ⟨(usableFrame_iff hmap huse).1 rfl, by unfold PhysFrame.startAddress; omega, by omega⟩
          · obtain ⟨h₁, h₂, h₃⟩ := hg.1 hheld
            exact ⟨h₁, h₂, by omega⟩
        · rintro ⟨h₁, h₂, h₃⟩
          by_cases heq : g.number = f.number
          · exact .inl (PhysFrame.ext_number heq)
          · by_cases hlt : g.number < s.alloc.nextFrame
            · exact .inr (hg.2 ⟨h₁, h₂, hlt⟩)
            · exact absurd ((usableFrame_iff hmap (hskip g (by omega) (by omega))).2 h₁) nofun
      · have := hi.base
        show 0x100000 / 4096 ≤ f.number + 1
        omega
    · exact hi

theorem inv_deallocate (hf : f ∈ s.held) : Inv map off (step s (.deallocate f)) := by
  unfold step
  dsimp only
  rcases hcall : s.alloc.deallocateFrame s.mem f with _ | ⟨b, a, m⟩
  · exact hi
  rcases deallocateFrame_cases hcall with ⟨rfl, rfl, rfl, -⟩ | ⟨rfl, -, -, -, rfl, rfl⟩
  · exact hi
  · have hcover := (hi.cover f).1 (.inl hf)
    obtain ⟨hlist, hapart⟩ := lists_push hi.list hi.apart hf (by omega)
    refine ⟨hi.map_eq, hi.off_eq, hlist, hapart, fun g => ?_, hi.base⟩
    rw [← hi.cover g]
    simp only [Finset.mem_erase, List.mem_cons]
    by_cases hgf : g = f
    · subst hgf
      tauto
    · tauto

theorem inv_write (hf : f ∈ s.held) (i : ℕ) (w : BitVec 64) : Inv map off (step s (.write f i w)) :=
  ⟨hi.map_eq, hi.off_eq, hi.list.update (fun hm => hi.apart f hm hf) _, hi.apart, hi.cover, hi.base⟩

end Call

/-- **One step.** -/
theorem inv_step (hmap : PageAligned map) (hoff : off ≠ 0) (s : Frames)
    (o : FrameOp) (hi : Inv map off s) (ho : Proper s o) : Inv map off (step s o) := by
  cases o with
  | allocate => exact inv_allocate hi (fun _ => hoff) hmap
  | deallocate f => exact inv_deallocate hi ho
  | write f i w => exact inv_write hi ho i w

variable (map)

theorem inv_init (off : ℕ) (mem : PhysMem) : Inv map off (init map off mem) := by
  refine ⟨rfl, rfl, .nil, by simp [init], fun f => ?_, le_refl _⟩
  constructor
  · intro h
    simp [init] at h
  · rintro ⟨-, h, hlt⟩
    simp only [PhysFrame.startAddress, init, BitmapFrameAllocator.new] at h hlt
    omega

/-- **Frame exclusivity.** In every proper run the free list in memory consists of exactly the freed frames, without
repetition and none of them held. A frame that `allocate_frame` returns there is not held, lies at or above 1 MiB and
inside a usable region; it returns none only when every usable frame from 1 MiB on is held; and as long as a freed
frame waits, it returns one and the bump pointer stays. -/
theorem frame_exclusivity (hmap : PageAligned map) (off : ℕ) (hoff : off ≠ 0) (mem : PhysMem)
    (ops : List FrameOp) (hops : Along step Proper (init map off mem) ops) :
    let s := run step (init map off mem) ops
    FreeList s.alloc s.mem s.freed ∧ s.freed.Nodup ∧ (∀ f ∈ s.freed, f ∉ s.held) ∧
    ∀ r a m, s.alloc.allocateFrame s.mem = some (r, a, m) →
      (∀ f, r = some f → f ∉ s.held ∧ 0x100000 ≤ f.startAddress ∧ UsableFrame map f) ∧
      (r = none → ∀ f, UsableFrame map f → 0x100000 ≤ f.startAddress → f ∈ s.held) ∧
      (s.freed ≠ [] → r = s.freed.head? ∧ a.nextFrame = s.alloc.nextFrame) := by
  intro s
  have hi : Inv map off s := inv_along (inv_step hmap hoff) _ ops (inv_init map off mem) hops
  refine ⟨hi.list, hi.list.nodup, hi.apart, fun r a m hcall => ?_⟩
  rcases allocateFrame_cases hi.map_eq hi.list (fun _ => by rwa [hi.off_eq]) hcall with ⟨f, l, hl, rfl, rfl, rfl⟩ |
    ⟨hl, f, rfl, huse, hle, -, rfl, rfl⟩ | ⟨hl, rfl, rfl, rfl, hnone⟩
  · have hf : f ∈ s.freed := hl ▸ List.mem_cons_self ..
    have hcover := (hi.cover f).1 (.inr hf)
    refine ⟨?_, nofun, fun _ => ⟨by rw [hl]; rfl, rfl⟩⟩
    rintro g ⟨⟩
    exact ⟨hi.apart f hf, hcover.2.1, hcover.1⟩
  · refine ⟨?_, nofun, fun hne => absurd hl hne⟩
    rintro g ⟨⟩
    have hbase := hi.base
    refine ⟨fun hheld => ?_, by unfold PhysFrame.startAddress; omega, (usableFrame_iff hmap huse).1 rfl⟩
    have := ((hi.cover f).1 (.inl hheld)).2.2
    omega
  · refine ⟨nofun, fun _ f huse hlow => ?_, fun hne => absurd hl hne⟩
    -- usable frames behind the bump pointer are gone, those before it are held since none is freed
    have hlt : f.number < s.alloc.nextFrame := by
      by_contra hge
      exact absurd ((usableFrame_iff hmap (hnone f (by omega) huse)).2 huse) nofun
    have := (hi.cover f).2 ⟨huse, hlow, hlt⟩
    simpa [hl] using this

/-- three usable frames at 1 MiB: two are handed out, the second is written and the first given back; the next call
returns the first one again -/
theorem frame_exclusivity_reuse :
    let s := run step (init [⟨0x100000, 0x3000, .usable⟩] 0xffff800000000000 fun _ _ => 0)
      [.allocate, .allocate, .write ⟨257, by decide⟩ 0 7, .deallocate ⟨256, by decide⟩]
    s.held = {⟨257, by decide⟩} ∧ s.freed = [⟨256, by decide⟩] ∧
      ∀ r a m, s.alloc.allocateFrame s.mem = some (r, a, m) →
        r = s.freed.head? ∧ a.nextFrame = s.alloc.nextFrame :=
  ⟨by decide +kernel, by decide +kernel, fun r a m h =>
    ((frame_exclusivity _ (by decide) _ (by decide) _ _ (by decide +kernel)).2.2.2 r a m h).2.2 (by decide +kernel)⟩

/-! ## Giving back -/

/-- the invariant for every offset and every map -/
structure Linked (off : ℕ) (s : Frames) : Prop where
  map_eq : s.alloc.memoryMap = map
  off_eq : s.alloc.physOffset = off
  list : FreeList s.alloc s.mem s.freed
  apart : ∀ f ∈ s.freed, f ∉ s.held
  taken : ∀ f, f ∈ s.held ∨ f ∈ s.freed → isUsableAddr map f.startAddress = some true ∧ 0 < f.number
  base : 0 < s.alloc.nextFrame
  window : s.freed ≠ [] → s.alloc.physOffset ≠ 0

theorem linked_init (off : ℕ) (mem : PhysMem) : Linked map off (init map off mem) :=
  ⟨rfl, rfl, .nil, by simp [init], by simp [init], by simp [init, new], fun h => absurd rfl h⟩

variable {map}

theorem linked_step (s : Frames) (o : FrameOp) (h : Linked map off s)
    (ho : Proper s o) : Linked map off (step s o) := by
  cases o with
  | allocate =>
    unfold step
    rcases hcall : s.alloc.allocateFrame s.mem with _ | ⟨r, a, m⟩
    · exact h
    rcases allocateFrame_cases h.map_eq h.list h.window hcall with ⟨f, l, hl, rfl, rfl, rfl⟩ |
      ⟨hl, f, rfl, huse, hle, -, rfl, rfl⟩ | ⟨-, rfl, rfl, rfl, -⟩
    · obtain ⟨hlist, hapart⟩ := lists_pop h.list h.apart hl
      refine ⟨h.map_eq, h.off_eq, hlist, hapart, fun g hg => h.taken g ?_, h.base, fun _ => h.window (by simp [hl])⟩
      simp only [hl, List.erase_cons_head, Finset.mem_insert, List.mem_cons] at hg ⊢
      tauto
    · have hlist := h.list
      rw [hl] at hlist
      refine ⟨h.map_eq, h.off_eq, by simp only [hl, List.erase_nil]; exact hlist,
        by simp [hl], fun g hg => ?_, Nat.succ_pos _, by simp [hl]⟩
      simp only [hl, List.erase_nil, Finset.mem_insert, List.not_mem_nil, or_false] at hg
      rcases hg with rfl | hg
      · exact ⟨huse, h.base.trans_le hle⟩
      · exact h.taken g (.inl hg)
    · exact h
  | deallocate f =>
    unfold step
    dsimp only
    rcases hcall : s.alloc.deallocateFrame s.mem f with _ | ⟨b, a, m⟩
    · exact h
    rcases deallocateFrame_cases hcall with ⟨rfl, rfl, rfl, -⟩ | ⟨rfl, -, hoff, -, rfl, rfl⟩
    · exact h
    · obtain ⟨huse, hpos⟩ := h.taken f (.inl ho)
      obtain ⟨hlist, hapart⟩ := lists_push h.list h.apart ho (by unfold PhysFrame.startAddress; omega)
      refine ⟨h.map_eq, h.off_eq, hlist, hapart, fun g hg => ?_, h.base, fun _ => hoff⟩
      simp only [Finset.mem_erase, List.mem_cons] at hg
      rcases hg with ⟨-, hg⟩ | rfl | hg
      · exact h.taken g (.inl hg)
      · exact ⟨huse, hpos⟩
      · exact h.taken g (.inr hg)
  | write f i w => exact ⟨h.map_eq, h.off_eq, h.list.update (fun hm => h.apart f hm ho) _, h.apart, h.taken, h.base, h.window⟩

/-- at least `n` frames can still be allocated -/
def Yields : ℕ → BitmapFrameAllocator → PhysMem → Prop
  | 0, _, _ => True
  | n + 1, a, m => ∃ f a' m', a.allocateFrame m = some (some f, a', m') ∧ Yields n a' m'

/-- a call neither reads nor writes a frame outside the free list -/
theorem allocateFrame_update (h : FreeList a m l) (hf : f ∉ l) (words : ℕ → BitVec 64)
    {r : Option PhysFrame} (hcall : a.allocateFrame m = some (r, a', m')) :
    a.allocateFrame (update m f.number words) = some (r, a', update m' f.number words) ∧
      ∃ l', FreeList a' m' l' ∧ f ∉ l' := by
  unfold allocateFrame at hcall ⊢
  split_ifs at hcall ⊢ with hc
  · cases l with
    | nil => exact absurd h.head hc.1
    | cons g l =>
      obtain ⟨hfg, hfl⟩ := List.ne_and_not_mem_of_not_mem_cons hf
      have hne : g.number ≠ f.number := fun he => hfg (PhysFrame.ext_number he.symm)
      have hlink : (PhysMem.read (update m f.number words) g.startAddress).toNat = link m g.startAddress :=
        link_update m words hfg.symm
      rw [show a.freeListHead = g.startAddress from h.head] at hcall ⊢
      simp only [PhysFrame.containingAddress_startAddress, hlink, write_startAddress, update_of_ne hne,
        update_comm hne.symm] at hcall ⊢
      obtain ⟨e, he, hcall⟩ := Option.bind_eq_some_iff.1 hcall
      cases hcall
      rw [he]
      exact ⟨rfl, l, write_startAddress m g 0 ▸ h.pop.2, hfl⟩
  · obtain ⟨last, hlast, hcall⟩ := Option.bind_eq_some_iff.1 hcall
    obtain ⟨res, hres, hcall⟩ := Option.bind_eq_some_iff.1 hcall
    simp only [hlast, hres, Option.bind_eq_bind, Option.bind_some]
    cases res with
    | none => cases hcall; exact ⟨rfl, l, h, hf⟩
    | some k =>
      obtain ⟨g, hg, hcall⟩ := Option.bind_eq_some_iff.1 hcall
      cases hcall
      exact ⟨by simp only [hg]; rfl, l, h, hf⟩

/-- a frame just given back is the next one handed out -/
theorem allocateFrame_push (h : FreeList a m l) (hpos : 0 < f.number)
    (hoff : a.physOffset ≠ 0) {e : ℕ} (he : add64 f.startAddress a.physOffset = some e) :
    allocateFrame { a with freeListHead := f.startAddress } (m.write f.startAddress (BitVec.ofNat 64 a.freeListHead)) =
      some (some f, a, update m f.number (update (m f.number) 0 0)) := by
  have hlink : (PhysMem.read (m.write f.startAddress (BitVec.ofNat 64 a.freeListHead)) f.startAddress).toNat = _ :=
    h.link_push
  have hne : f.startAddress ≠ 0 := by unfold PhysFrame.startAddress; omega
  unfold allocateFrame
  rw [if_pos ⟨hne, hoff⟩]
  simp only [he, hlink, PhysFrame.containingAddress_startAddress]
  simp [write_startAddress]

theorem yields_update (h : FreeList a m l) (hf : f ∉ l) (words : ℕ → BitVec 64) {n : ℕ}
    (hn : Yields n a m) : Yields n a (update m f.number words) := by
  induction n generalizing a m l with
  | zero => trivial
  | succ n ih =>
    obtain ⟨g, a', m', hcall, hn⟩ := hn
    obtain ⟨hcall', l', hl', hf'⟩ := allocateFrame_update h hf words hcall
    exact ⟨g, a', _, hcall', ih hl' hf' hn⟩

/-- **A frame given back can be allocated again.** After every run, for every memory map, giving a held frame back
succeeds and raises the number of frames that can still be allocated by one exactly when the window to memory has an
address other than 0 and the frame's address in it does not overflow. -/
theorem freed_frame_returns (map : List MemoryRegion) (off : ℕ) (mem : PhysMem) (ops : List FrameOp)
    (hops : Along step Proper (init map off mem) ops) (f : PhysFrame) (hf : f ∈ (run step (init map off mem) ops).held) :
    let s := run step (init map off mem) ops
    (∃ a m, s.alloc.deallocateFrame s.mem f = some (true, a, m) ∧ ∀ n, Yields (n + 1) a m ↔ Yields n s.alloc s.mem) ↔
      off ≠ 0 ∧ f.startAddress + off < 2 ^ 64 := by
  intro s
  have h : Linked map off s := inv_along linked_step _ ops (linked_init map off mem) hops
  obtain ⟨huse, hpos⟩ := h.taken f (.inl hf)
  constructor
  · rintro ⟨a, m, hcall, -⟩
    rcases deallocateFrame_cases hcall with ⟨hb, -⟩ | ⟨-, -, hne, hlt, -⟩
    · cases hb
    · exact h.off_eq ▸ ⟨hne, hlt⟩
  · rintro ⟨hne, hlt⟩
    have haligned : f.startAddress % 4096 = 0 := Nat.mul_mod_left ..
    have hwindow : add64 f.startAddress s.alloc.physOffset = some (f.startAddress + off) := by
      rw [h.off_eq, add64, if_pos hlt]
    rw [← h.off_eq] at hne
    rw [← h.map_eq] at huse
    refine ⟨_, _, by simp [deallocateFrame, isUsableFrameAddr, haligned, huse, hne, hwindow]; exact ⟨rfl, rfl⟩, fun n => ?_⟩
    have hnot : f ∉ s.freed := fun hm => h.apart f hm hf
    -- the next call returns the frame and leaves the allocator as it was
    have hnext := allocateFrame_push h.list hpos hne hwindow
    constructor
    · rintro ⟨g, a, m, hg, hn⟩
      cases hnext.symm.trans hg
      simpa using yields_update (h.list.update hnot _) hnot (s.mem f.number) hn
    · exact fun hn => ⟨f, _, _, hnext, yields_update h.list hnot _ hn⟩

/-- with the window in the upper half the first frame at 1 MiB can be allocated again -/
theorem freed_frame_returns_first :
    let s := run step (init [⟨0x100000, 0x3000, .usable⟩] 0xffff800000000000 fun _ _ => 0) [.allocate]
    ∃ a m, s.alloc.deallocateFrame s.mem ⟨256, by decide⟩ = some (true, a, m) ∧
      ∀ n, Yields (n + 1) a m ↔ Yields n s.alloc s.mem :=
  (freed_frame_returns _ _ _ _ (by decide +kernel) _ (by decide +kernel)).2 (by decide)

/-- with the offset 0 that the boot loader stores the only frame is refused, and nothing can be allocated any more -/
theorem freed_frame_lost :
    let s := run step (init [⟨0x100000, 0x1000, .usable⟩] 0 fun _ _ => 0) [.allocate, .deallocate ⟨256, by decide⟩]
    s.held = {⟨256, by decide⟩} ∧ (s.alloc.allocateFrame s.mem).map Prod.fst = some none := by
  decide +kernel

/-! ## Device memory -/

theorem mmioRegionTypeAllowed_iff (t : MemoryType) :
    mmioRegionTypeAllowed t = true ↔ t = .reserved ∨ t = .acpiNvs ∨ t = .framebuffer := by
  cases t <;> decide

/-- what the scan accepts meets no region of a refused type, unless its end is past the address space -/
theorem allowed_of_mmioScan {start last : ℕ} {overlapsAny contained : Bool}
    (h : mmioScan start last map overlapsAny contained = true) (hr : r ∈ map)
    (hwrap : r.start + r.len ≤ 2 ^ 64) {p : ℕ} (hp : start ≤ p ∧ p ≤ last) (hin : r.start ≤ p ∧ p < r.start + r.len) :
    mmioRegionTypeAllowed r.regionType = true := by
  induction map generalizing overlapsAny contained with
  | nil => exact absurd hr List.not_mem_nil
  | cons q rs ih =>
    unfold mmioScan at h
    rcases List.mem_cons.1 hr with rfl | hr
    · have hend : add64 r.start (r.len - 1) = some (r.start + (r.len - 1)) := if_pos (by omega)
      rw [if_neg (by omega), hend] at h
      dsimp only at h
      rw [if_neg (not_not_intro ⟨by omega, by omega⟩)] at h
      by_contra hno
      rw [if_pos (Bool.eq_false_iff.2 hno)] at h
      cases h
    · split at h
      · exact ih h hr
      · split at h
        · exact ih h hr
        · split_ifs at h
          · exact ih h hr
          · exact ih h hr

/-- **Device memory is no RAM.** On a page-aligned map without wrap-around, a range that the check accepts in one proper
run holds no byte of a frame that `allocate_frame` returns in the same or any other run, and no byte of a region of a
type other than Reserved, AcpiNvs or Framebuffer. -/
theorem mmio_excludes_ram (map : List MemoryRegion) (hmap : PageAligned map)
    (hwrap : ∀ r ∈ map, r.start + r.len ≤ 2 ^ 64) (off : ℕ) (mem : PhysMem) (before : List FrameOp)
    (hbefore : Along step Proper (init map off mem) before) (start size : ℕ)
    (hallowed : isAllowedMmioRange (some (run step (init map off mem) before).alloc) start size = true) (p : ℕ)
    (hp : start ≤ p ∧ p < start + size) :
    (∀ ops, Along step Proper (init map off mem) ops → ∀ f a m,
      (run step (init map off mem) ops).alloc.allocateFrame (run step (init map off mem) ops).mem = some (some f, a, m) →
        ¬ (f.startAddress ≤ p ∧ p < f.startAddress + 4096)) ∧
    ∀ r ∈ map, r.regionType ≠ .reserved → r.regionType ≠ .acpiNvs → r.regionType ≠ .framebuffer →
      ¬ (r.start ≤ p ∧ p < r.start + r.len) := by
  have hlinked (ops : List FrameOp) (hops : Along step Proper (init map off mem) ops) :=
    inv_along linked_step (init map off mem) ops (linked_init map off mem) hops
  have hscan : mmioScan start (start + (size - 1)) map false false = true := by
    unfold isAllowedMmioRange at hallowed
    rw [if_neg (by omega)] at hallowed
    cases hlast : add64 start (size - 1) with
    | none => rw [hlast] at hallowed; cases hallowed
    | some last =>
      obtain ⟨rfl, -⟩ := add64_eq_some hlast
      rw [hlast] at hallowed
      rwa [← (hlinked before hbefore).map_eq]
  have hregion : ∀ r ∈ map, r.start ≤ p ∧ p < r.start + r.len → mmioRegionTypeAllowed r.regionType = true :=
    fun r hr hin => allowed_of_mmioScan hscan hr (hwrap r hr) ⟨hp.1, by omega⟩ hin
  refine ⟨fun ops hops f a m hcall hin => ?_, fun r hr hres hnvs hfb hin => ?_⟩
  · have h := hlinked ops hops
    have huse : isUsableAddr map f.startAddress = some true := by
      rcases allocateFrame_cases h.map_eq h.list h.window hcall with ⟨g, l, hl, hg, -, -⟩ |
        ⟨-, g, hg, huse, -⟩ | ⟨-, hg, -⟩
      · cases hg
        exact (h.taken f (.inr (hl ▸ List.mem_cons_self ..))).1
      · cases hg
        exact huse
      · cases hg
    obtain ⟨r, hr, htype, hlow, hhigh⟩ := (usableFrame_iff hmap huse).1 rfl
    have hok := hregion r hr ⟨by omega, by omega⟩
    rw [htype] at hok
    cases hok
  · have hok := hregion r hr hin
    rcases (mmioRegionTypeAllowed_iff _).1 hok with h | h | h
    · exact hres h
    · exact hnvs h
    · exact hfb h

/-- RAM at 1 MiB and a reserved page behind it: the page may be mapped, and is never handed out -/
theorem mmio_excludes_ram_reserved :
    let map : List MemoryRegion := [⟨0x100000, 0x1000, .usable⟩, ⟨0x101000, 0x1000, .reserved⟩]
    isAllowedMmioRange (some (run step (init map 0 fun _ _ => 0) [.allocate]).alloc) 0x101000 0x1000 = true ∧
      ∀ a m, (run step (init map 0 fun _ _ => 0) []).alloc.allocateFrame (fun _ _ => 0) ≠ some (some ⟨257, by decide⟩, a, m) :=
  ⟨by decide +kernel, fun a m hcall => (mmio_excludes_ram _ (by decide) (by decide) 0 (fun _ _ => 0) [.allocate]
    (by decide +kernel) 0x101000 0x1000 (by decide +kernel) 0x101000 (by decide)).1 [] trivial _ a m hcall (by decide)⟩

end Frames

end SwiftCore.Mem
