/-
W^X of user address spaces.

Six functions write the flags of user pages. `Spaces` is the machine with the level 4 tables it has handed out, and a step
is one call of one of these functions with any arguments; a call that does not return leaves the state as it is.
- `protected_of_careful_run`: while every call is `Careful`, no page that user code can write can be executed.
- `shared_page_is_writable_code`: `map_page_in_table`, as `alloc_shared_pages` calls it, breaks the rule at once. It has no
  way to set `NO_EXECUTE`.
Two more calls are not careful. A writable segment over an entry of the kernel, or over a page that was protected with no
access, takes over that the old entry was executable; `map_to` opens a huge page of the kernel that it finds on its way.
-/
import SwiftCore.Mem.Live
import SwiftCore.Mem.Walker

namespace SwiftCore.Mem.WriteXorExecute

open Fallible Run Function

/-! ## Calls -/

/-- the machine and the level 4 tables that were handed out -/
structure Spaces where
  machine : Machine
  live : List ℕ

/-- the frames of the live tables -/
def Spaces.roots (s : Spaces) : Set ℕ := { t | t * 4096 ∈ s.live }

inductive TableOp
  | createUserPageTable
  | mapAndCopySegmentTo (table vaddr filesz memsz : ℕ) (src : List UInt8) (writable executable : Bool)
  | protectUserRangeInTable (table addr len : ℕ) (present writable executable : Bool)
  | mapPhysicalRangeToUser (table virt phys size : ℕ)
  /-- with `user_accessible` set -/
  | mapPageInTable (table virt phys : ℕ) (writable : Bool)
  | cloneUserPageTable (table : ℕ)
  /-- by the callers of `map_page_in_table`, for the frames they map -/
  | allocateFrame

/-- a call, with the tables that its result adds -/
def exec {α : Type} (x : K α) (add : α → List ℕ) (s : Spaces) : Spaces :=
  match x s.machine with
  | (.ok a, σ) => ⟨σ, add a ++ s.live⟩
  | (.err _, σ) => ⟨σ, s.live⟩
  | (.stuck, _) => s

def step (T : Mapper) (s : Spaces) : TableOp → Spaces
  | .createUserPageTable => exec createUserPageTable (fun a => [a]) s
  | .mapAndCopySegmentTo table vaddr filesz memsz src writable executable =>
    exec (mapAndCopySegmentTo T table vaddr filesz memsz src writable executable) (fun _ => []) s
  | .protectUserRangeInTable table addr len present writable executable =>
    exec (protectUserRangeInTable T table addr len present writable executable) (fun _ => []) s
  | .mapPhysicalRangeToUser table virt phys size => exec (mapPhysicalRangeToUser T table virt phys size) (fun _ => []) s
  | .mapPageInTable table virt phys writable => exec (mapPageInTable table virt phys writable true) (fun _ => []) s
  | .cloneUserPageTable table => exec (cloneUserPageTable T table) (fun a => [a]) s
  | .allocateFrame => exec Mem.allocateFrame (fun _ => []) s

/-! ## The property and the condition -/

/-- an entry that user code cannot both write and execute -/
def Exclusive (w : Word) : Prop :=
  isPresent w = true → isUser w = true → isWritable w = true → isNoExecute w = true

/-- no leaf of a live table is both -/
def Protected (s : Spaces) : Prop :=
  ∀ k t i, UserTable s.machine.mem s.roots k t → k = 1 ∨ isHuge (s.machine.mem t i) = true →
    Exclusive (s.machine.mem t i)

/-- an entry in use that is not for user code, and executable -/
def Risky (w : Word) : Prop := w ≠ 0 ∧ isUser w = false ∧ isNoExecute w = false

/-- such an entry at a page -/
def RiskyAt (m : PhysMem) (r v : ℕ) : Prop := ∃ t, Walk m r v t ∧ Risky (m t (tableIndex 1 v))

/-- the calls that keep the rule: on a live table; no writable page from `map_page_in_table`; no writable segment over
executable entries that are not for user code; no physical range over huge pages; and only data frames are mapped -/
def Careful (s : Spaces) : TableOp → Prop
  | .createUserPageTable => True
  | .mapAndCopySegmentTo table vaddr _ memsz _ writable _ => table ∈ s.live ∧ (writable = true →
      ∀ j, j < pageCount vaddr (vaddr + memsz) →
        ¬ RiskyAt s.machine.mem (table / 4096) (firstPage vaddr + j * 4096))
  | .protectUserRangeInTable table _ _ _ _ _ => table ∈ s.live
  | .mapPhysicalRangeToUser table virt phys size => table ∈ s.live ∧ ∀ j, j < physicalPages size →
      DataFrame s.machine s.roots ((firstPage phys + j * 4096) / 4096) ∧
        ¬ HugeAt s.machine.mem (table / 4096) (firstPage virt + j * 4096)
  | .mapPageInTable table _ phys writable => table ∈ s.live ∧ writable = false ∧
      DataFrame s.machine s.roots (phys / 4096)
  | .cloneUserPageTable table => table ∈ s.live
  | .allocateFrame => True

/-! ## Flags that are written -/

/-- the assertion that the tables carry -/
def Sealed : EntryProp := fun k _ _ w => k = 1 ∨ isHuge w = true → Exclusive w

theorem exclusive_of_not_user {w : Word} (h : isUser w = false) : Exclusive w := fun _ hu => by
  rw [h] at hu
  cases hu

theorem exclusive_of_noExecute {w : Word} (h : isNoExecute w = true) : Exclusive w := fun _ _ _ => h

theorem sealed_userOnly : UserOnly Sealed := fun hquiet hc => exclusive_of_not_user (hquiet hc)

theorem sealed_mild : Mild Sealed where
  zero _ _ _ := sealed_userOnly fun _ => by decide
  link hk hh := sealed_userOnly fun hc => by
    rcases hc with hc | hc
    · omega
    · cases hh.symm.trans hc

theorem sealed_lenient (ρ : Roles) : Lenient Sealed ρ := fun _ hquiet _ => sealed_userOnly hquiet

/-- the high bit of an entry comes with its flags -/
theorem isNoExecute_entry_of {fl : Word} (f : ℕ) (h : isNoExecute fl = true) : isNoExecute (entry f fl) = true := by
  unfold isNoExecute entry at *
  rw [BitVec.getLsbD_or, h, Bool.or_true]

/-- the low bits come from the flags only -/
theorem isWritable_entry_of (f : ℕ) (fl : Word) : isWritable (entry f fl) = isWritable fl := by
  unfold isWritable entry
  rw [BitVec.getLsbD_or, getLsbD_frame]
  simp

variable {e : Word} {f table : ℕ} {writable executable : Bool} {α : Type}

/-- a segment's page: it is for user code, and exclusive unless the entry below it was risky -/
theorem installed_sealed
    (hwx : ¬ (writable = true ∧ executable = true)) (hr : ¬ refuses (segmentFlags writable executable) e)
    (hrisk : writable = true → ¬ Risky e) : Exclusive (installed (segmentFlags writable executable) e f) := by
  cases writable with
  | false =>
    intro _ _ hw
    unfold installed at hw
    split_ifs at hw <;> rw [isWritable_entry_of] at hw <;> cases executable <;> exact absurd hw (by decide)
  | true =>
    obtain rfl : executable = false := by simpa using hwx
    refine exclusive_of_noExecute ?_
    unfold installed
    split_ifs with hz hu hn hn
    · exact isNoExecute_entry_of _ (by decide)
    · exact isNoExecute_entry_of _ (by decide)
    · -- a merge that is not refused finds an entry that is not executable
      exact absurd ⟨hz, hu, .inl ⟨hn, by decide⟩⟩ hr
    · exact isNoExecute_entry_of _ (by decide)
    · exact absurd ⟨hz, by simpa using hu, by simpa using hn⟩ (hrisk rfl)

theorem installed_user (writable executable : Bool) :
    isUser (installed (segmentFlags writable executable) e f) = true := by
  have huser : ∀ {g fl}, isUser fl = true → isUser (entry g fl) = true := fun h => by
    unfold isUser entry at *
    rw [BitVec.getLsbD_or, h, Bool.or_true]
  unfold installed
  split_ifs <;> refine huser ?_ <;> cases writable <;> cases executable <;> decide

theorem protected_sealed {present : Bool} (hwx : ¬ (present = true ∧ writable = true ∧ executable = true)) :
    Exclusive (entry (frameOf e) (protectedFlags e present writable executable)) := by
  have hbit : ∀ {i}, i < 12 ∨ 52 ≤ i → (Flags.present ||| Flags.user ||| Flags.writable ||| Flags.noExecute).getLsbD i = true →
      ∀ {fl : Word}, ((flagsOf e &&& ~~~(Flags.present ||| Flags.user ||| Flags.writable ||| Flags.noExecute)) |||
        fl).getLsbD i = fl.getLsbD i := by
    intro i _ hm fl
    rw [BitVec.getLsbD_or, BitVec.getLsbD_and, BitVec.getLsbD_not, hm]
    simp
  intro hp hu hw
  unfold protectedFlags at hp hu hw ⊢
  rw [isPresent_entry (frameOf_lt e)] at hp
  rw [isWritable_entry_of] at hw
  unfold isPresent at hp
  unfold isWritable at hw
  rw [hbit (.inl (by decide)) (by decide)] at hp hw
  refine isNoExecute_entry_of _ ?_
  unfold isNoExecute
  rw [hbit (.inr (by decide)) (by decide)]
  cases present with
  | false =>
    rw [if_neg (by decide)] at hp
    exact absurd hp (by decide)
  | true =>
    cases executable with
    | false => cases writable <;> decide
    | true =>
      cases writable with
      | false => exact absurd hw (by decide)
      | true => exact absurd ⟨rfl, rfl, rfl⟩ hwx

theorem copied_sealed (hp : isPresent e = true) (hu : isUser e = true) (he : Exclusive e) :
    Exclusive (entry f (copiedFlags e)) := by
  intro _ _ hw
  rw [isWritable_entry_of] at hw
  refine isNoExecute_entry_of _ ?_
  unfold copiedFlags at *
  cases hwe : isWritable e with
  | false =>
    rw [hwe] at hw
    cases hn : isNoExecute e <;> rw [hn] at hw <;> exact absurd hw (by decide)
  | true =>
    rw [he hp hu hwe]
    decide

/-! ## The invariant -/

/-- the tables are sealed, and live tables are known by their addresses -/
def Inv (s : Spaces) : Prop :=
  (∀ a ∈ s.live, a % 4096 = 0) ∧ ∃ ρ, Space Sealed (fun _ => True) s.roots ρ s.machine

theorem Inv.protected {s : Spaces} (h : Inv s) : Protected s := by
  obtain ⟨-, ρ, h⟩ := h
  exact fun k t i ht hc => h.tables.entries i (h.table_iff.2 ht) hc

theorem roots_of_mem {s : Spaces} (h : Inv s) {a : ℕ} (ha : a ∈ s.live) : a / 4096 ∈ s.roots := by
  show a / 4096 * 4096 ∈ s.live
  rwa [Nat.div_mul_cancel (Nat.dvd_of_mod_eq_zero (h.1 a ha))]

theorem roots_cons {σ τ : Machine} {live : List ℕ} {a : ℕ} (ha : a % 4096 = 0) :
    (Spaces.mk τ (a :: live)).roots = insert (a / 4096) (Spaces.mk σ live).roots := by
  ext t
  show t * 4096 ∈ a :: live ↔ t = a / 4096 ∨ t * 4096 ∈ live
  rw [List.mem_cons]
  exact or_congr_left ⟨by omega, by omega⟩

/-- a call keeps the invariant when its triple says so -/
theorem exec_inv {x : K α} {add : α → List ℕ} {s : Spaces} (h : Inv s)
    (hx : Spec (· = s.machine) x (fun a τ => Inv ⟨τ, add a ++ s.live⟩) (fun τ => Inv ⟨τ, s.live⟩)) :
    Inv (exec x add s) := by
  have hspec := hx s.machine rfl
  unfold exec
  rcases hc : x s.machine with ⟨_ | _ | _, τ⟩ <;> rw [hc] at hspec
  · exact hspec
  · exact hspec
  · exact h

/-- more tables under the same live ones, with an assertion at least as strong -/
theorem inv_of_grown {s : Spaces} {B : EntryProp} {P : ℕ → Prop} {ρ : Roles} {m : PhysMem} {τ : Machine} (h : Inv s)
    (hB : ∀ k t i w, B k t i w → Sealed k t i w) (hg : Grown B (fun _ => True) s.roots P ρ m τ) : Inv ⟨τ, s.live⟩ := by
  obtain ⟨ρ', hs, -⟩ := hg
  exact ⟨h.1, ρ', hs.mono hB⟩

/-- a new live table -/
theorem inv_cons {s : Spaces} {ρ : Roles} {τ : Machine} {a : ℕ} (h : Inv s) (ha : a % 4096 = 0)
    (hs : Space Sealed (fun _ => True) (insert (a / 4096) s.roots) ρ τ) : Inv ⟨τ, [a] ++ s.live⟩ := by
  refine ⟨fun b hb => ?_, ρ, ?_⟩
  · rcases List.mem_cons.1 hb with rfl | hb
    · exact ha
    · exact h.1 b hb
  · rw [show (Spaces.mk τ ([a] ++ s.live)).roots = insert (a / 4096) s.roots from roots_cons ha]
    exact hs

/-- a call that lets the tables grow -/
theorem exec_grown {x : K α} {s : Spaces} {B : EntryProp} {ρ : Roles} (h : Inv s)
    (hB : ∀ k t i w, B k t i w → Sealed k t i w)
    (hx : Spec (· = s.machine) x (fun _ => Grown B (fun _ => True) s.roots (fun _ => True) ρ s.machine.mem)
      (Grown B (fun _ => True) s.roots (fun _ => True) ρ s.machine.mem)) : Inv (exec x (fun _ => []) s) :=
  exec_inv h (Spec.post hx (fun _ _ => inv_of_grown h hB) fun _ => inv_of_grown h hB)

section Step

variable {T : Mapper} (hT : T.Documented) {s : Spaces} (h : Inv s)

include h

theorem inv_create : Inv (exec createUserPageTable (fun a => [a]) s) := by
  obtain ⟨-, ρ, hs⟩ := id h
  exact exec_inv h (Spec.post (createUserPageTable_spec (sealed_lenient ρ) hs)
    (fun a τ ⟨ha, _, ρ', hs', _⟩ => inv_cons h ha hs') fun τ hg => inv_of_grown h (fun _ _ _ _ => id) hg)

theorem inv_allocate : Inv (exec Mem.allocateFrame (fun _ => []) s) := by
  obtain ⟨halign, ρ, hs⟩ := id h
  exact exec_inv h (Spec.ok (allocateFrame_spec hs h) (fun _ τ ha => ⟨halign, _, ha.space⟩))

theorem inv_mapPage {virt phys : ℕ} (hlive : table ∈ s.live) (hdata : DataFrame s.machine s.roots (phys / 4096)) :
    Inv (exec (mapPageInTable table virt phys false true) (fun _ => []) s) := by
  obtain ⟨halign, ρ, hs⟩ := id h
  refine exec_inv h (Spec.post (mapPageInTable_spec sealed_mild hs (roots_of_mem h hlive) (fun _ => hs.page_iff.2 hdata)
    (fun _ => .inl trivial) fun t i _ _ _ hw => ?_) (fun _ τ ⟨ρ', hs', _⟩ => ⟨halign, ρ', hs'⟩)
    fun τ hg => inv_of_grown h (fun _ _ _ _ => id) hg)
  rw [isWritable_entry_of] at hw
  exact absurd hw (by decide)

include hT

section

variable (hlive : table ∈ s.live)

include hlive

theorem inv_protect {addr len : ℕ} {present : Bool} :
    Inv (exec (protectUserRangeInTable T table addr len present writable executable) (fun _ => []) s) := by
  obtain ⟨-, ρ, hs⟩ := id h
  exact exec_grown h (fun _ _ _ _ => id) (protectUserRangeInTable_spec hT hs (roots_of_mem h hlive)
    (fun hwx t i e _ _ => protected_sealed hwx) _)

/-- the assertion of a segment: executable entries that are not for user code were there before -/
theorem inv_segment {vaddr filesz memsz : ℕ} {src : List UInt8} (hrisk : writable = true → ∀ j, j < pageCount vaddr (vaddr + memsz) →
      ¬ RiskyAt s.machine.mem (table / 4096) (firstPage vaddr + j * 4096)) :
    Inv (exec (mapAndCopySegmentTo T table vaddr filesz memsz src writable executable) (fun _ => []) s) := by
  obtain ⟨halign, ρ, hs⟩ := id h
  have hr := roots_of_mem h hlive
  let B : EntryProp := fun k t i w =>
    Sealed k t i w ∧ (k = 1 → Risky w → ρ t = .table 1 ∧ Risky (s.machine.mem t i))
  have hB : Mild B := by
    refine ⟨fun k t i => ⟨sealed_mild.zero k t i, fun _ hc => absurd rfl hc.1⟩, fun hk hh =>
      ⟨sealed_mild.link hk hh, fun hc => ?_⟩⟩
    omega
  have hs' : Space B (fun _ => True) s.roots ρ s.machine := hs.assert fun t k i ht =>
    ⟨hs.tables.entries i ht, fun hk hrisky => ⟨hk ▸ ht, hrisky⟩⟩
  refine exec_grown h (fun _ _ _ _ hB => hB.1) (mapAndCopySegmentTo_spec hT hB hs' (fun _ _ => trivial) hr
    fun j hj ρ' τ t f hτ hg hw hnr hf hwx => ⟨fun _ => ?_, fun _ hc => ?_⟩)
  · refine installed_sealed hwx hnr fun hwr hrisky => hrisk hwr j hj ?_
    obtain ⟨ht, hrisky₀⟩ := (hτ.tables.entries _ (hτ.walk hr hw)).2 rfl hrisky
    exact ⟨t, hs.walk_back hτ hg hr hw ht, hrisky₀⟩
  · rw [Risky, installed_user] at hc
    exact absurd hc.2.1 (by decide)

/-- the assertion of a physical range: huge pages were there before -/
theorem inv_range {virt phys size : ℕ}
    (hpages : ∀ j, j < physicalPages size → DataFrame s.machine s.roots ((firstPage phys + j * 4096) / 4096) ∧
      ¬ HugeAt s.machine.mem (table / 4096) (firstPage virt + j * 4096)) :
    Inv (exec (mapPhysicalRangeToUser T table virt phys size) (fun _ => []) s) := by
  obtain ⟨halign, ρ, hs⟩ := id h
  have hr := roots_of_mem h hlive
  let B : EntryProp := fun k t i w =>
    Sealed k t i w ∧ (k = 2 → isHuge w = true → ρ t = .table 2 ∧ isHuge (s.machine.mem t i) = true)
  have hB : Mild B := by
    refine ⟨fun k t i => ⟨sealed_mild.zero k t i, fun _ hc => absurd hc (by decide)⟩, fun hk hh =>
      ⟨sealed_mild.link hk hh, fun _ hc => ?_⟩⟩
    rw [hh] at hc
    cases hc
  have hs' : Space B (fun _ => True) s.roots ρ s.machine := hs.assert fun t k i ht =>
    ⟨hs.tables.entries i ht, fun hk hh => ⟨hk ▸ ht, hh⟩⟩
  exact exec_grown h (fun _ _ _ _ hB => hB.1) (mapPhysicalRangeToUser_spec hT hB hs' hr
    (fun j hj _ => hs.page_iff.2 (hpages j hj).1) (fun _ _ => ⟨trivial, trivial⟩)
    (fun f t i => ⟨fun _ => exclusive_of_noExecute (isNoExecute_entry_of _ (by decide)), fun hk => absurd hk (by decide)⟩)
    fun j hj ρ' τ hτ hg hh => (hpages j hj).2 (hs.huge_back hτ hg hr hh fun ht hhuge =>
      (hτ.tables.entries _ ht).2 rfl hhuge))

theorem inv_clone : Inv (exec (cloneUserPageTable T table) (fun a => [a]) s) := by
  obtain ⟨halign, ρ, hs⟩ := id h
  have hr := roots_of_mem h hlive
  refine exec_inv h (Spec.post (cloneUserPageTable_spec hT (X := Sealed) sealed_userOnly hs hr fun t b i ht hns f u j _ _ => ?_)
    (fun a τ ⟨ha, _, ρ', hs', hg⟩ => inv_cons h ha (hs.restore hs' hg.role fun _ _ _ _ _ hX => hX))
    fun τ ⟨ρ', hs'⟩ => ⟨halign, ρ', hs'⟩)
  have hentry := hs.tables.entries i (hs.tables.under hr ht.under) (.inl rfl)
  refine copied_sealed ?_ ?_ hentry
  · by_contra hp
    exact hns (.inr (.inl hp))
  · by_contra hu
    exact hns (.inr (.inr (by rw [if_pos rfl]; exact hu)))

end

/-- **A careful call** keeps the invariant. -/
theorem inv_step {op : TableOp} (hc : Careful s op) : Inv (step T s op) := by
  cases op with
  | createUserPageTable => exact inv_create h
  | mapAndCopySegmentTo => exact inv_segment hT h hc.1 hc.2
  | protectUserRangeInTable => exact inv_protect hT h hc
  | mapPhysicalRangeToUser => exact inv_range hT h hc.1 hc.2
  | mapPageInTable table virt phys writable =>
    obtain ⟨hlive, rfl, hdata⟩ := hc
    exact inv_mapPage h hlive hdata
  | cloneUserPageTable => exact inv_clone hT h hc
  | allocateFrame => exact inv_allocate h

end Step

/-! ## Runs -/

/-- **W^X of careful runs.** From a booted kernel without user tables, any run of careful calls, on any number of tables,
leaves no page that user code can write and execute. -/
theorem protected_of_careful_run {T : Mapper} (hT : T.Documented) {σ : Machine} (hboot : Booted σ) (ops : List TableOp)
    (hc : Along (step T) Careful ⟨σ, []⟩ ops) : Protected (run (step T) ⟨σ, []⟩ ops) := by
  have hinit : Inv ⟨σ, []⟩ := by
    refine ⟨nofun, bootRoles σ, ?_⟩
    rw [show (Spaces.mk σ []).roots = ∅ from Set.eq_empty_iff_forall_notMem.2 fun _ => List.not_mem_nil]
    exact hboot.space _ _
  exact (inv_along (I := Inv) (fun _ _ h hok => inv_step hT h hok) _ _ hinit hc).protected

/-- a machine with 1 MiB of free memory and nothing in its tables -/
def bare : Machine where
  mem := fun _ _ => 0
  alloc := BitmapFrameAllocator.new [⟨0x100000, 0x100000, .usable⟩] 0x1000000000
  physOffset := some 0x1000000000
  kernelL4 := 0x5000
  pageTable := some 5

theorem bare_scratch {k t : ℕ} (h : ScratchTable bare.mem bare.pageTable k t) : k = 4 ∧ t = 5 := by
  cases h with
  | root h => exact ⟨rfl, (Option.some.inj h).symm⟩
  | link _ hl => exact absurd rfl hl.1

theorem bare_booted : Booted bare where
  aligned := by decide
  frames := ⟨∅, [], Frames.inv_init _ _ _, fun h => absurd rfl h⟩
  kernel := rfl
  low := shape_zero 4
  held {k t} h := by
    rw [(bare_scratch h).2]
    rintro ⟨p, hp, ⟨r, hr, -, hstart, -⟩, -⟩
    rw [List.mem_singleton.1 hr] at hstart
    have : 0x100000 ≤ p.number * 4096 := hstart
    omega
  level h h' := (bare_scratch h).1.trans (bare_scratch h').1.symm

/-- a process with a page of data that becomes read-only code -/
def loadAndSeal : List TableOp :=
  [.createUserPageTable, .mapAndCopySegmentTo 0x100000 0x400000 4 0x1000 [1, 2, 3, 4] true false,
    .protectUserRangeInTable 0x100000 0x400000 0x1000 true false true]

/-! ### The run, call by call -/

/-- after the table was created -/
def created : Machine := { bare with alloc := { bare.alloc with nextFrame := 257 } }

theorem step_create : step walker ⟨bare, []⟩ .createUserPageTable = ⟨created, [0x100000]⟩ := by
  have hm : (step walker ⟨bare, []⟩ .createUserPageTable).machine.mem = bare.mem := by
    funext t i
    show update bare.mem 256 (fun _ => 0) t i = 0
    rw [update_apply]
    split_ifs <;> rfl
  show Spaces.mk ⟨(step walker ⟨bare, []⟩ .createUserPageTable).machine.mem, _, _, _, _⟩ _ = _
  rw [hm]
  rfl

/-- after the kernel mapped the table for itself, with three new tables -/
def opened : Machine := { bare with
  alloc := { bare.alloc with nextFrame := 260 }
  mem := fun t i =>
    if t = 259 ∧ i = 0 then 0x8000000000100003#64
    else if t = 258 ∧ i = 0 then 0x103003#64
    else if t = 257 ∧ i = 0 then 0x102003#64
    else if t = 5 ∧ i = 256 then 0x101003#64 else 0 }

set_option maxRecDepth 10000 in
theorem mapTo_created :
    walker.mapTo 5 scratchPage 256 (Flags.present ||| Flags.writable ||| Flags.noExecute) created = (.ok ⟨⟩, opened) := by
  have hm : (walker.mapTo 5 scratchPage 256 (Flags.present ||| Flags.writable ||| Flags.noExecute) created).2.mem =
      opened.mem := by
    funext t i
    show setWord (setWord (update (setWord (update (setWord
      (update created.mem 257 fun _ => 0) 5 256 0x101003#64) 258 fun _ => 0) 257 0 0x102003#64) 259 fun _ => 0)
      258 0 0x103003#64) 259 0 0x8000000000100003#64 t i = _
    simp only [setWord_apply, update_apply, ite_apply, opened]
    split_ifs <;> first | omega | rfl
  show (_, Machine.mk (walker.mapTo 5 scratchPage 256 (Flags.present ||| Flags.writable ||| Flags.noExecute) created).2.mem
    _ _ _ _) = _
  rw [hm]
  rfl

/-- the rest of the call -/
def load : K Unit := do
  mapSegment 256 0x400000 4 0x1000 [1, 2, 3, 4] (segmentFlags true false)
  let _ ← M.attempt (walker.unmap 5 scratchPage)
  pure ()

theorem mapAndCopy_created :
    mapAndCopySegmentTo walker 0x100000 0x400000 4 0x1000 [1, 2, 3, 4] true false created = load opened := by
  have hopen : (M.attempt (walker.mapTo 5 scratchPage (0x100000 / 4096)
      (Flags.present ||| Flags.writable ||| Flags.noExecute)) : K _) created = (.ok (.ok ⟨⟩), opened) := by
    rw [M.attempt, show 0x100000 / 4096 = 256 from rfl, mapTo_created]
  rw [mapAndCopySegmentTo, if_neg (by decide), ok_bind (show physicalMemoryOffset created = (.ok 0x1000000000, created)
    from rfl), if_neg (by decide), if_neg (by decide), if_neg (by decide), gets_bind_apply,
    show created.pageTable = some 5 from rfl]
  dsimp only
  rw [if_neg (by decide), ok_bind hopen]
  rfl

theorem eq_of_fst {β : Type} {x : α × β} {a : α} (h : x.1 = a) : x = (a, x.2) := by rw [← h]

/-- the rest of the run goes through -/
theorem load_and_seal : ∃ σ τ, load opened = (.ok (), σ) ∧
    protectUserRangeInTable walker 0x100000 0x400000 0x1000 true false true σ = (.ok (), τ) ∧
    (userPageFlagsInTable τ 0x100000 0x400000).map isNoExecute = some false := by
  refine ⟨(load opened).2, (protectUserRangeInTable walker 0x100000 0x400000 0x1000 true false true (load opened).2).2,
    eq_of_fst ?_, eq_of_fst ?_, ?_⟩
  · decide +kernel
  · decide +kernel
  · decide +kernel

theorem exec_of_ok {x : K α} {s : Spaces} {a : α} {σ : Machine} (h : x s.machine = (.ok a, σ))
    (add : α → List ℕ) : exec x add s = ⟨σ, add a ++ s.live⟩ := by rw [exec, h]

/-- the run is careful and goes through: the page is executable in the end -/
theorem protected_of_loadAndSeal : Protected (run (step walker) ⟨bare, []⟩ loadAndSeal) ∧
    (userPageFlagsInTable (run (step walker) ⟨bare, []⟩ loadAndSeal).machine 0x100000 0x400000).map isNoExecute =
      some false := by
  obtain ⟨σ, τ, hload, hseal, hflags⟩ := load_and_seal
  have hstep₂ : step walker ⟨created, [0x100000]⟩
      (.mapAndCopySegmentTo 0x100000 0x400000 4 0x1000 [1, 2, 3, 4] true false) = ⟨σ, [0x100000]⟩ :=
    exec_of_ok (s := ⟨created, [0x100000]⟩) (mapAndCopy_created.trans hload) fun _ => []
  have hstep₃ : step walker ⟨σ, [0x100000]⟩ (.protectUserRangeInTable 0x100000 0x400000 0x1000 true false true) =
      ⟨τ, [0x100000]⟩ := exec_of_ok (s := ⟨σ, [0x100000]⟩) hseal fun _ => []
  refine ⟨protected_of_careful_run walker_documented bare_booted loadAndSeal ⟨trivial, ⟨?_, fun _ j _ => ?_⟩, ?_, trivial⟩, ?_⟩
  · rw [step_create]
    exact List.mem_singleton_self _
  · rw [step_create]
    rintro ⟨t, ⟨l3, l2, h4, _⟩, _⟩
    exact h4.1 rfl
  · rw [step_create, hstep₂]
    exact List.mem_singleton_self _
  · rw [loadAndSeal, run_cons, run_cons, run_cons, run_nil, step_create, hstep₂, hstep₃]
    exact hflags

def sharedPage : Spaces :=
  run (step walker) ⟨bare, []⟩ [.createUserPageTable, .allocateFrame, .mapPageInTable 0x100000 0x400000 0x101000 true]

/-- **A shared page is writable code.** `alloc_shared_pages` allocates a frame and maps it with `map_page_in_table`,
writable: the page can be executed. -/
theorem shared_page_is_writable_code :
    ¬ Protected (run (step walker) ⟨bare, []⟩
      [.createUserPageTable, .allocateFrame, .mapPageInTable 0x100000 0x400000 0x101000 true]) := by
  intro h
  have hlink4 : Link (sharedPage.machine.mem 256 0) 258 := by decide +kernel
  have hlink3 : Link (sharedPage.machine.mem 258 0) 259 := by decide +kernel
  have hlink2 : Link (sharedPage.machine.mem 259 2) 260 := by decide +kernel
  have hnx := h 1 260 0 ⟨256, by show 256 * 4096 ∈ Spaces.live _; decide +kernel, ((Under.root.link hlink4).link hlink3).link hlink2⟩
    (.inl rfl) (by decide +kernel) (by decide +kernel) (by decide +kernel)
  exact absurd hnx (by decide +kernel)

end SwiftCore.Mem.WriteXorExecute
