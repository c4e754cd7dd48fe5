/-
The roles of frames, read off the memory.

`Space` speaks of roles that nobody stores. In every state with `Space` they can be recovered: the tables are what the
live level 4 tables lead to, the kernel's tables on the way to the scratch page likewise, the free frames are what the
allocator has not handed out. So conditions on a call can be stated about the state it finds.
- `Space.table_iff`, `Space.scratch_iff`, `Space.free_iff`, `Space.page_iff`: the roles as predicates on the state.
- `Booted.space`: a booted kernel without user tables has `Space`.
- `Space.walk_back`, `Space.huge_back`: what a walk finds in a grown state, seen from the state before.
-/
import SwiftCore.Mem.Clone

namespace SwiftCore.Mem

open Fallible BitmapFrameAllocator

variable {A : EntryProp} {shared : ℕ → Prop} {R : Set ℕ} {ρ ρ' : Roles} {σ τ : Machine} {m : PhysMem}

/-! ## Tables, free frames, data -/

/-- a table under one of the live level 4 tables -/
def UserTable (m : PhysMem) (R : Set ℕ) (k t : ℕ) : Prop := ∃ r ∈ R, Under m r k t

variable {t k f : ℕ} {P shared' : ℕ → Prop} {B : EntryProp}

theorem Space.table_iff (h : Space A shared R ρ σ) : ρ t = .table k ↔ UserTable σ.mem R k t :=
  ⟨h.tables.exists_under, fun ⟨_, hr, hu⟩ => h.tables.under hr hu⟩

/-- a table of the kernel on the way to the scratch page -/
inductive ScratchTable (m : PhysMem) (pageTable : Option ℕ) : ℕ → ℕ → Prop
  | root {t : ℕ} (h : pageTable = some t) : ScratchTable m pageTable 4 t
  | link {t f n : ℕ} (h : ScratchTable m pageTable (n + 2) t) (hl : Link (m t (tableIndex (n + 2) scratchPage)) f) :
      ScratchTable m pageTable (n + 1) f

theorem Space.scratch_iff (h : Space A shared R ρ σ) : ρ t = .scratch k ↔ ScratchTable σ.mem σ.pageTable k t := by
  constructor
  · intro ht
    obtain ⟨hk, hk'⟩ := h.scratch.level ht
    obtain ⟨d, hd⟩ := Nat.exists_eq_add_of_le hk'
    induction d generalizing k t with
    | zero =>
      obtain rfl : k = 4 := by omega
      exact .root ((h.scratch.root t).1 ht)
    | succ d ih =>
      obtain ⟨n, rfl⟩ := Nat.exists_eq_add_of_le' hk
      obtain ⟨u, hu, hl⟩ := h.scratch.parent ht (by omega)
      exact .link (ih hu (by omega) (by omega) (by omega)) hl
  · intro ht
    induction ht with
    | root hp => exact (h.scratch.root _).2 hp
    | link _ hl ih => exact h.scratch.below ih hl

/-- on the allocator's free list -/
def OnFreeList (a : BitmapFrameAllocator) (m : PhysMem) (f : PhysFrame) : Prop := ∃ l, Frames.FreeList a m l ∧ f ∈ l

/-- usable memory that is not handed out: below 1 MiB, not reached by the bump pointer, or given back -/
def Idle (a : BitmapFrameAllocator) (m : PhysMem) (f : ℕ) : Prop :=
  ∃ p : PhysFrame, p.number = f ∧ UsableFrame a.memoryMap p ∧
    (p.startAddress < 0x100000 ∨ a.nextFrame ≤ p.number ∨ OnFreeList a m p)

theorem freeList_unique {a : BitmapFrameAllocator} {l l' : List PhysFrame} (h : Frames.FreeList a m l)
    (h' : Frames.FreeList a m l') : l = l' :=
  List.map_injective_iff.2 (fun _ _ he => PhysFrame.startAddress_inj he) (Links.Chain.unique h h')

/-- the frames that the allocator's invariant counts as held are the usable ones that are not idle -/
theorem held_iff {a : BitmapFrameAllocator} {held : Finset PhysFrame} {freed : List PhysFrame}
    (hi : Frames.Inv a.memoryMap a.physOffset ⟨a, m, held, freed⟩) {f : PhysFrame} :
    f ∈ held ↔ UsableFrame a.memoryMap f ∧ ¬ Idle a m f.number := by
  have hcover := hi.cover f
  constructor
  · intro hf
    obtain ⟨huse, hbase, hlt⟩ := hcover.1 (.inl hf)
    refine ⟨huse, ?_⟩
    rintro ⟨p, hp, -, hc⟩
    obtain rfl : p = f := PhysFrame.ext_number hp
    rcases hc with hc | hc | ⟨l, hl, hmem⟩
    · omega
    · exact absurd hlt (not_lt.2 hc)
    · rw [freeList_unique hl hi.list] at hmem
      exact hi.apart _ hmem hf
  · rintro ⟨huse, hidle⟩
    have hbase : 0x100000 ≤ f.startAddress := by
      by_contra hc
      exact hidle ⟨f, rfl, huse, .inl (by omega)⟩
    have hlt : f.number < a.nextFrame := by
      by_contra hc
      exact hidle ⟨f, rfl, huse, .inr (.inl (by omega))⟩
    rcases hcover.2 ⟨huse, hbase, hlt⟩ with hf | hf
    · exact hf
    · exact absurd ⟨f, rfl, huse, .inr (.inr ⟨freed, hi.list, hf⟩)⟩ hidle

theorem Space.free_iff (h : Space A shared R ρ σ) : ρ f = .free ↔ Idle σ.alloc σ.mem f := by
  obtain ⟨held, freed, hi, -, hheld⟩ := h.stock.frames
  constructor
  · intro hf
    obtain ⟨p, rfl, huse⟩ := h.stock.usable f hf
    by_contra hidle
    exact ((hheld p).1 ((held_iff hi).2 ⟨huse, hidle⟩)).2 hf
  · rintro hidle
    obtain ⟨p, rfl, huse, hc⟩ := hidle
    by_contra hne
    exact ((held_iff hi).1 ((hheld p).2 ⟨huse, hne⟩)).2 ⟨p, rfl, huse, hc⟩

/-- the free list: it ends, visits no frame twice, and what is on it is free -/
theorem Space.freeList (h : Space A shared R ρ σ) :
    ∃ l, Frames.FreeList σ.alloc σ.mem l ∧ l.Nodup ∧ ∀ f ∈ l, ρ f.number = .free := by
  obtain ⟨held, freed, hi, -, hheld⟩ := h.stock.frames
  refine ⟨freed, hi.list, (Links.Chain.nodup hi.list).of_map _, fun f hf => ?_⟩
  by_contra hc
  have huse := ((hi.cover f).1 (.inr hf)).1
  exact hi.apart f hf ((hheld f).2 ⟨huse, hc⟩)

/-- a frame for data: handed out or outside usable memory, and no table -/
structure DataFrame (σ : Machine) (R : Set ℕ) (f : ℕ) : Prop where
  held : ¬ Idle σ.alloc σ.mem f
  user : ∀ k, ¬ UserTable σ.mem R k f
  kernel : ∀ k, ¬ ScratchTable σ.mem σ.pageTable k f

theorem Space.page_iff (h : Space A shared R ρ σ) : ρ f = .page ↔ DataFrame σ R f := by
  constructor
  · intro hf
    refine ⟨fun hc => ?_, fun k hc => ?_, fun k hc => ?_⟩
    · rw [h.free_iff.2 hc] at hf
      cases hf
    · rw [h.table_iff.2 hc] at hf
      cases hf
    · rw [h.scratch_iff.2 hc] at hf
      cases hf
  · intro hd
    cases hρ : ρ f with
    | page => rfl
    | free => exact absurd (h.free_iff.1 hρ) hd.held
    | table k => exact absurd (h.table_iff.1 hρ) (hd.user k)
    | scratch k => exact absurd (h.scratch_iff.1 hρ) (hd.kernel k)

/-! ## The booted kernel -/

/-- the machine after `paging::init`: the allocator in a state that its own operations reach, `PAGE_TABLE` on the table
in `KERNEL_L4_PHYS`, and the kernel's own tables outside free memory -/
structure Booted (σ : Machine) : Prop where
  aligned : PageAligned σ.alloc.memoryMap
  frames : ∃ held freed, Frames.Inv σ.alloc.memoryMap σ.alloc.physOffset ⟨σ.alloc, σ.mem, held, freed⟩ ∧
    (freed ≠ [] → σ.alloc.physOffset ≠ 0)
  kernel : σ.pageTable = some (σ.kernelL4 / 4096)
  /-- level 4 entries are present when in use, and never huge -/
  low : Shape 4 (σ.mem (σ.kernelL4 / 4096) 0)
  held : ∀ {k t}, ScratchTable σ.mem σ.pageTable k t → ¬ Idle σ.alloc σ.mem t
  level : ∀ {k j t}, ScratchTable σ.mem σ.pageTable k t → ScratchTable σ.mem σ.pageTable j t → k = j

theorem ScratchTable.level {pt : Option ℕ} (h : ScratchTable m pt k t) : 1 ≤ k ∧ k ≤ 4 := by
  induction h with
  | root => decide
  | link _ _ ih => omega

open Classical in
/-- the roles at boot -/
noncomputable def bootRoles (σ : Machine) : Roles := fun f =>
  if h : ∃ k, ScratchTable σ.mem σ.pageTable k f then .scratch h.choose
  else if Idle σ.alloc σ.mem f then .free else .page

theorem Booted.scratch_iff (h : Booted σ) : bootRoles σ t = .scratch k ↔ ScratchTable σ.mem σ.pageTable k t := by
  unfold bootRoles
  by_cases hex : ∃ k, ScratchTable σ.mem σ.pageTable k t
  · rw [dif_pos hex, Role.scratch.injEq]
    exact ⟨fun hk => hk ▸ hex.choose_spec, fun ht => h.level hex.choose_spec ht⟩
  · rw [dif_neg hex]
    refine iff_of_false ?_ fun ht => hex ⟨k, ht⟩
    split_ifs <;> nofun

theorem Booted.free_iff (h : Booted σ) : bootRoles σ f = .free ↔ Idle σ.alloc σ.mem f := by
  unfold bootRoles
  by_cases hex : ∃ k, ScratchTable σ.mem σ.pageTable k f
  · rw [dif_pos hex]
    obtain ⟨k, hk⟩ := hex
    exact iff_of_false nofun (h.held hk)
  · rw [dif_neg hex]
    split_ifs with hi
    · exact iff_of_true rfl hi
    · exact iff_of_false nofun hi

theorem bootRoles_ne_table (t k : ℕ) : bootRoles σ t ≠ .table k := by
  unfold bootRoles
  split_ifs <;> nofun

/-- **Boot.** Without user tables, everything that `Space` asks for holds. -/
theorem Booted.space (h : Booted σ) (A : EntryProp) (shared : ℕ → Prop) : Space A shared ∅ (bootRoles σ) σ := by
  have hno : ∀ {t k}, bootRoles σ t ≠ .table k := bootRoles_ne_table _ _
  obtain ⟨held, freed, hi, hoff⟩ := h.frames
  refine ⟨⟨fun t => iff_of_false hno (Set.notMem_empty t), fun ht => absurd ht hno, fun ht => absurd ht hno,
    fun _ ht => absurd ht hno, fun ht => absurd ht hno, fun ht => absurd ht hno, fun ht => absurd ht hno,
    fun ht => absurd ht hno, fun _ ht => absurd ht hno⟩, ⟨h.aligned, ⟨held, freed, hi, hoff, fun f => ?_⟩, fun n hn => ?_⟩,
    ⟨h.kernel, fun t => ?_, fun ht => (h.scratch_iff.1 ht).level, fun {t} ht => ?_, fun ht hl => ?_, fun hf hn => ?_⟩⟩
  · rw [held_iff hi, Ne, h.free_iff]
  · obtain ⟨p, hp, huse, -⟩ := h.free_iff.1 hn
    exact ⟨p, hp, huse⟩
  · rw [h.scratch_iff]
    constructor
    · intro ht
      generalize hk : 4 = k at ht
      cases ht with
      | root hp => exact hp
      | link ht _ =>
        have := ht.level
        omega
    · exact .root
  · have ht := h.scratch_iff.1 ht
    generalize hk : 4 = k at ht
    cases ht with
    | root hp =>
      rw [h.kernel, Option.some.injEq] at hp
      exact hp ▸ h.low
    | link ht _ =>
      have := ht.level
      omega
  · exact h.scratch_iff.2 (.link (h.scratch_iff.1 ht) hl)
  · have hf := h.scratch_iff.1 hf
    generalize hk : _ + 1 = k at hf
    cases hf with
    | root _ => omega
    | @link t _ n' ht hl =>
      obtain rfl : _ = n' := Nat.add_right_cancel hk
      exact ⟨t, h.scratch_iff.2 ht, hl⟩

/-! ## Walks, seen from the state before -/

variable (h : Space A shared R ρ σ)

include h

/-- the table above one that was there before -/
theorem Space.parent_back {R' : Set ℕ}
    (h' : Space B shared' R' ρ' τ) (hg : Grows P ρ σ.mem ρ' τ.mem) {i n : ℕ} (ht : ρ' t = .table (n + 2)) (hn : n < 3)
    (hl : Link (τ.mem t i) f) (hf : ρ f = .table (n + 1)) : ρ t = .table (n + 2) ∧ Link (σ.mem t i) f := by
  obtain ⟨u, j, hu, hlu⟩ := h.tables.parent hf hn
  obtain ⟨rfl, rfl⟩ := h'.tables.only (hg.table hu) ht (hg.link hu hlu) hl
  exact ⟨hu, hlu⟩

theorem Space.walk_back
    (h' : Space B shared' R ρ' τ) (hg : Grows P ρ σ.mem ρ' τ.mem) {r v : ℕ} (hr : r ∈ R) (hw : Walk τ.mem r v t)
    (ht : ρ t = .table 1) : Walk σ.mem r v t := by
  obtain ⟨l3, l2, h4, h3, h2⟩ := hw
  have hl3 := h'.tables.below (h'.root hr) h4
  obtain ⟨hl2, h2⟩ := h.parent_back h' hg (h'.tables.below hl3 h3) (by decide) h2 ht
  obtain ⟨hl3, h3⟩ := h.parent_back h' hg hl3 (by decide) h3 hl2
  exact ⟨l3, l2, (h.parent_back h' hg (h'.root hr) (by decide) h4 hl3).2, h3, h2⟩

theorem Space.huge_back
    (h' : Space B shared' R ρ' τ) (hg : Grows P ρ σ.mem ρ' τ.mem) {r v : ℕ} (hr : r ∈ R) (hh : HugeAt τ.mem r v)
    (hold : ∀ {t i}, ρ' t = .table 2 → isHuge (τ.mem t i) = true → ρ t = .table 2 ∧ isHuge (σ.mem t i) = true) :
    HugeAt σ.mem r v := by
  obtain ⟨l3, l2, h4, h3, hh⟩ := hh
  have hl3 := h'.tables.below (h'.root hr) h4
  obtain ⟨hl2, hh⟩ := hold (h'.tables.below hl3 h3) hh
  obtain ⟨hl3, h3⟩ := h.parent_back h' hg hl3 (by decide) h3 hl2
  exact ⟨l3, l2, (h.parent_back h' hg (h'.root hr) (by decide) h4 hl3).2, h3, hh⟩

end SwiftCore.Mem
