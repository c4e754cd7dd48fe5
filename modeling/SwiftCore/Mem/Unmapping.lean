/-
What the functions that unmap user pages do to the roles of frames, and what they leave of the tables.

Unmapping clears entries of level 1 tables and changes nothing else that is a table: `Cleared`. A frame that was mapped
at one place only is mapped nowhere once that place is cleared, so it may be given back.
- `unmapRangeInTable_spec`: unmapping a range, given that each frame in it is mapped once.
- `copyToUserInTable_spec`: a copy to user memory touches pages only.
- `mapPageInTable_stays`: a page that is mapped moves no other frame.
-/
import SwiftCore.Mem.Live

namespace SwiftCore.Mem

open Fallible

variable {A : EntryProp} {shared : ℕ → Prop} {R : Set ℕ} {ρ ρ' : Roles} {σ τ : Machine} {m m' : PhysMem}

/-! ## Cleared entries -/

/-- the tables are the ones that were there, with some level 1 entries cleared -/
structure Cleared (ρ : Roles) (m : PhysMem) (ρ' : Roles) (m' : PhysMem) : Prop where
  table : ∀ {t k}, ρ' t = .table k ↔ ρ t = .table k
  upper : ∀ {t n}, ρ t = .table (n + 2) → m' t = m t
  leaf : ∀ {t} i, ρ t = .table 1 → m' t i = m t i ∨ m' t i = 0

namespace Cleared

theorem refl (ρ : Roles) (m : PhysMem) : Cleared ρ m ρ m := ⟨.rfl, fun _ => rfl, fun _ _ => .inl rfl⟩

section

variable (h : Cleared ρ m ρ' m')

include h

theorem trans {ρ'' : Roles} {m'' : PhysMem} (h' : Cleared ρ' m' ρ'' m'') : Cleared ρ m ρ'' m'' where
  table := h'.table.trans h.table
  upper ht := (h'.upper (h.table.2 ht)).trans (h.upper ht)
  leaf i ht := by
    rcases h'.leaf i (h.table.2 ht) with he | he
    · rw [he]
      exact h.leaf i ht
    · exact .inr he

/-- a user entry that is left is as it was -/
theorem user {t i : ℕ} (ht : ρ t = .table 1) (hu : isUser (m' t i) = true) : m' t i = m t i := by
  rcases h.leaf i ht with he | he
  · exact he
  · rw [he] at hu
    exact absurd hu (by decide)

theorem unmapped {f : ℕ} (hf : Unmapped ρ m f) : Unmapped ρ' m' f := by
  intro t i ht hu he
  have ht := h.table.1 ht
  have hsame := h.user ht hu
  rw [hsame] at hu he
  exact hf t i ht hu he

/-- the tables above level 1 are as they were, on the way to any address -/
theorem way_iff (ht : Tables A shared R ρ m) {r v : ℕ} (hr : r ∈ R) (P : Word → Prop) :
    (∃ l3 l2, Link (m' r (tableIndex 4 v)) l3 ∧ Link (m' l3 (tableIndex 3 v)) l2 ∧ P (m' l2 (tableIndex 2 v))) ↔
      ∃ l3 l2, Link (m r (tableIndex 4 v)) l3 ∧ Link (m l3 (tableIndex 3 v)) l2 ∧ P (m l2 (tableIndex 2 v)) := by
  have h4 : m' r = m r := h.upper ((ht.root r).2 hr)
  have h3 : ∀ {l3}, Link (m r (tableIndex 4 v)) l3 → ρ l3 = .table 3 := ht.below ((ht.root r).2 hr)
  rw [h4]
  constructor
  · rintro ⟨l3, l2, hl3, hl2, hP⟩
    rw [h.upper (h3 hl3)] at hl2
    rw [h.upper (ht.below (h3 hl3) hl2)] at hP
    exact ⟨l3, l2, hl3, hl2, hP⟩
  · rintro ⟨l3, l2, hl3, hl2, hP⟩
    rw [← h.upper (ht.below (h3 hl3) hl2)] at hP
    rw [← h.upper (h3 hl3)] at hl2
    exact ⟨l3, l2, hl3, hl2, hP⟩

theorem walk_iff (ht : Tables A shared R ρ m) {r v t : ℕ} (hr : r ∈ R) :
    Walk m' r v t ↔ Walk m r v t := h.way_iff ht hr fun e => Link e t

theorem huge_iff (ht : Tables A shared R ρ m) {r v : ℕ} (hr : r ∈ R) :
    HugeAt m' r v ↔ HugeAt m r v := h.way_iff ht hr fun e => isHuge e = true

/-- a frame that was mapped at one place, which is cleared -/
theorem unmapped_of_once {t i f : ℕ} (honce : MappedOnce ρ m f) (ht : ρ t = .table 1)
    (hu : isUser (m t i) = true) (hf : frameOf (m t i) = f) (hzero : m' t i = 0) : Unmapped ρ' m' f := by
  intro u j hut huser he
  have hut := h.table.1 hut
  have hsame := h.user hut huser
  rw [hsame] at huser he
  obtain ⟨rfl, rfl⟩ := honce u j t i hut ht huser hu he hf
  rw [← hsame, hzero] at huser
  exact absurd huser (by decide)

end

end Cleared

theorem cleared_setEntry {t : ℕ} (ht : ρ t = .table 1) (i : ℕ) : Cleared ρ σ.mem ρ (σ.setEntry t i 0).mem where
  table := .rfl
  upper {u n} hu := setWord_of_ne _ (fun he => by rw [he, ht] at hu; cases hu) _ _
  leaf {u} j _ := by
    rcases setWord_cases σ.mem t i 0 u j with ⟨-, -, he⟩ | ⟨-, he⟩
    · exact .inr he
    · exact .inl he

theorem Freed.cleared {f : ℕ} (h : Freed A shared R ρ σ f ρ' τ) (hf : ρ f = .page) : Cleared ρ σ.mem ρ' τ.mem := by
  have hne : ∀ {t k}, ρ t = .table k → t ≠ f := fun ht he => by
    rw [he, hf] at ht
    cases ht
  refine ⟨fun {t k} => ⟨fun ht => ?_, fun ht => (h.role t (hne ht)).trans ht⟩, fun ht => h.mem _ (hne ht),
    fun i ht => .inl (congrFun (h.mem _ (hne ht)) i)⟩
  by_cases he : t = f
  · rw [he] at ht
    rcases h.own with ho | ho <;> rw [ho] at ht <;> cases ht
  · rwa [← h.role t he]

/-! ## unmap_range_in_table -/

section Range

variable {T : Mapper} (hT : T.Documented)

include hT

/-- one page of the range -/
theorem unmapRangePage_spec (hA : Mild A) {ρ₀ : Roles} {m₀ : PhysMem} {tablePhys v : ℕ} (hr : tablePhys / 4096 ∈ R)
    (h₀ : Tables A shared R ρ₀ m₀)
    (honce : ∀ t, Walk m₀ (tablePhys / 4096) v t → isUser (m₀ t (tableIndex 1 v)) = true →
      MappedOnce ρ₀ m₀ (frameOf (m₀ t (tableIndex 1 v)))) :
    Spec (fun τ => ∃ ρ', Space A shared R ρ' τ ∧ Cleared ρ₀ m₀ ρ' τ.mem) (unmapRangePage T tablePhys v)
      (fun _ τ => ∃ ρ', Space A shared R ρ' τ ∧ Cleared ρ₀ m₀ ρ' τ.mem)
      (fun τ => ∃ ρ', Space A shared R ρ' τ ∧ Cleared ρ₀ m₀ ρ' τ.mem) := by
  refine Spec.pre fun σ ⟨ρ, h, hc⟩ => ?_
  unfold unmapRangePage
  refine Spec.gets_bind (Spec.when (fun hsome => Spec.ite (fun _ => Spec.halt) fun _ => ?_) fun _ s hs => hs ▸ ⟨ρ, h, hc⟩)
  refine Spec.step (unmap_spec hT hA h hr) fun res σ₁ hres => ?_
  obtain ⟨h₁, -, hres⟩ := hres
  cases res with
  | error e => exact Spec.pure fun s hs => hs ▸ hres ▸ ⟨ρ, h, hc⟩
  | ok f =>
    obtain ⟨t, hw, hf, rfl⟩ := hres
    have ht := h.walk hr hw
    obtain ⟨e, he⟩ := Option.isSome_iff_exists.1 hsome
    obtain ⟨rfl, -, hu⟩ := userPageFlags_walk (σ := σ) he hw
    -- the entry is as it was in the beginning, so its frame was mapped here only
    have ht₀ := hc.table.1 ht
    have hsame := hc.user ht₀ hu
    have hc₁ := hc.trans (cleared_setEntry (σ := σ) ht (tableIndex 1 v))
    have hpage : ρ f.number = .page := hf ▸ h.tables.mapped ht hu
    rw [hsame] at hu hf
    have hun : Unmapped ρ (σ.setEntry t (tableIndex 1 v) 0).mem f.number :=
      hc₁.unmapped_of_once (hf ▸ honce t ((hc.walk_iff h₀ hr).1 hw) hu) ht₀ hu hf (setWord_self ..)
    refine Spec.step (deallocateFrame_spec h₁ hpage hun) fun _ σ₂ ⟨ρ₂, hfr⟩ => Spec.ret ?_
    exact ⟨ρ₂, hfr.space, hc₁.trans (hfr.cleared hpage)⟩

/-- **unmap_range_in_table** gives back the frames it unmaps; each has to be mapped once. -/
theorem unmapRangeInTable_spec (hA : Mild A) (h : Space A shared R ρ σ) {tablePhys addr len : ℕ}
    (hr : tablePhys / 4096 ∈ R)
    (honce : ∀ j, j < pageCount addr (addr + len) → ∀ t, Walk σ.mem (tablePhys / 4096) (firstPage addr + j * 4096) t →
      isUser (σ.mem t (tableIndex 1 (firstPage addr + j * 4096))) = true →
      MappedOnce ρ σ.mem (frameOf (σ.mem t (tableIndex 1 (firstPage addr + j * 4096))))) :
    Spec (· = σ) (unmapRangeInTable T tablePhys addr len)
      (fun _ τ => ∃ ρ', Space A shared R ρ' τ ∧ Cleared ρ σ.mem ρ' τ.mem)
      (fun τ => ∃ ρ', Space A shared R ρ' τ ∧ Cleared ρ σ.mem ρ' τ.mem) := by
  have hstart : ∃ ρ', Space A shared R ρ' σ ∧ Cleared ρ σ.mem ρ' σ.mem := ⟨ρ, h, .refl _ _⟩
  unfold unmapRangeInTable
  refine Spec.ite (fun _ => Spec.ret hstart) fun _ => offset_bind hstart fun _ =>
    Spec.check hstart fun _ => ?_
  exact Spec.mono (Spec.forRange (I := fun _ τ => ∃ ρ', Space A shared R ρ' τ ∧ Cleared ρ σ.mem ρ' τ.mem) _ 0
    fun j _ hj => unmapRangePage_spec hT hA hr h.tables (honce j (by omega))) (fun s hs => hs ▸ hstart)
    (fun _ _ hs => hs) fun _ hs => hs

end Range

/-! ## Copies to user memory -/

theorem tableIndex_firstPage (k v : ℕ) : tableIndex k (v - v % 4096) = tableIndex k v := by
  have hpow : 2 ^ (12 + 9 * (k - 1)) = 4096 * 2 ^ (9 * (k - 1)) := by
    rw [pow_add]
    norm_num
  have hv : v - v % 4096 = 4096 * (v / 4096) := by omega
  unfold tableIndex
  rw [hpow, hv, Nat.mul_div_mul_left _ _ (by decide), Nat.div_div_eq_div_mul]

theorem walk_firstPage {r v t : ℕ} : Walk m r (v - v % 4096) t ↔ Walk m r v t := by
  unfold Walk
  rw [tableIndex_firstPage, tableIndex_firstPage, tableIndex_firstPage]

/-- a check that gives up passed -/
theorem guard_eq_some {α β : Type} {c : Prop} [Decidable c] {f : β → Option α} {x : Option α} {a : α}
    (h : (if c then Option.bind none f else x) = some a) : ¬ c ∧ x = some a := by
  split_ifs at h with hc
  · cases h
  · exact ⟨hc, h⟩

/-- a huge page is not for user code -/
def NoUserHuge (A : EntryProp) : Prop := ∀ {k t i w}, A k t i w → 2 ≤ k → isHuge w = true → isUser w = false

/-- a user page found by `user_page_flags_in_table` has a level 1 entry -/
theorem Space.userPage_walk (h : Space A shared R ρ σ) (hA : NoUserHuge A) {tablePhys v : ℕ} {e : Word}
    (hr : tablePhys / 4096 ∈ R) (he : userPageFlagsInTable σ tablePhys v = some e) :
    ∃ t, Walk σ.mem (tablePhys / 4096) v t := by
  have flat : ∀ {k t i}, ρ t = .table k → 2 ≤ k → isUser (σ.mem t i) = true → isHuge (σ.mem t i) = false := by
    intro k t i ht hk hu
    by_contra hh
    have := hA (h.tables.entries i ht) hk (by simpa using hh)
    rw [this] at hu
    cases hu
  unfold userPageFlagsInTable at he
  simp only [Option.bind_eq_bind, Option.bind_eq_some_iff, Option.pure_def] at he
  obtain ⟨-, -, he⟩ := he
  have he := (guard_eq_some (guard_eq_some he).2).2
  simp only [Option.bind_eq_some_iff] at he
  obtain ⟨l4e, hl4, l3e, hl3, he⟩ := he
  obtain ⟨rfl, hz4, -, hu4⟩ := userEntry_eq_some hl4
  obtain ⟨rfl, hz3, -, hu3⟩ := userEntry_eq_some hl3
  have ht4 := h.root hr
  have h4 : Link (σ.mem (tablePhys / 4096) (tableIndex 4 v)) _ := ⟨hz4, flat ht4 (by decide) hu4, rfl⟩
  have ht3 := h.tables.below ht4 h4
  have h3 : Link (σ.mem _ (tableIndex 3 v)) _ := ⟨hz3, flat ht3 (by decide) hu3, rfl⟩
  have ht2 := h.tables.below ht3 h3
  have hflat : isHuge (σ.mem (frameOf (σ.mem (tablePhys / 4096) (p4Index v))) (p3Index v)) = false :=
    flat ht3 (by decide) hu3
  rw [if_neg (by rw [hflat]; decide)] at he
  simp only [Option.bind_eq_some_iff] at he
  obtain ⟨l2e, hl2, -⟩ := he
  obtain ⟨rfl, hz2, -, hu2⟩ := userEntry_eq_some hl2
  exact ⟨_, _, _, h4, h3, ⟨hz2, flat ht2 (by decide) hu2, rfl⟩⟩

/-- where the walk of `translate_addr_in_table` ends -/
theorem translateAddr_walk {tablePhys v t phys : ℕ} {e : Word} (he : translateAddrInTable σ tablePhys v = some (phys, e))
    (hw : Walk σ.mem (tablePhys / 4096) v t) :
    phys = frameOf (σ.mem t (tableIndex 1 v)) * 4096 + v % 4096 ∧ isPresent (σ.mem t (tableIndex 1 v)) = true := by
  obtain ⟨l3, l2, h4, h3, h2⟩ := hw
  unfold translateAddrInTable at he
  simp only [Option.bind_eq_bind, Option.bind_eq_some_iff, Option.pure_def] at he
  obtain ⟨-, -, he⟩ := he
  have he := (guard_eq_some he).2
  simp only [Option.bind_eq_some_iff] at he
  obtain ⟨l4e, hl4, l3e, hl3, he⟩ := he
  obtain ⟨rfl, -⟩ := presentEntry_eq_some hl4
  rw [show frameOf (σ.mem (tablePhys / 4096) (p4Index v)) = l3 from h4.2.2] at hl3
  obtain ⟨rfl, -⟩ := presentEntry_eq_some hl3
  rw [if_neg (by rw [show isHuge (σ.mem l3 (p3Index v)) = false from h3.2.1]; decide)] at he
  simp only [Option.bind_eq_some_iff] at he
  obtain ⟨l2e, hl2, he⟩ := he
  rw [show frameOf (σ.mem l3 (p3Index v)) = l2 from h3.2.2] at hl2
  obtain ⟨rfl, -⟩ := presentEntry_eq_some hl2
  rw [if_neg (by rw [show isHuge (σ.mem l2 (p2Index v)) = false from h2.2.1]; decide)] at he
  simp only [Option.bind_eq_some_iff] at he
  obtain ⟨l1e, hl1, he⟩ := he
  rw [show frameOf (σ.mem l2 (p2Index v)) = t from h2.2.2] at hl1
  obtain ⟨rfl, -, hp⟩ := presentEntry_eq_some hl1
  simp only [Option.some.injEq, Prod.mk.injEq] at he
  exact ⟨he.1.symm, hp⟩

/-- an address that `virt_to_phys_in_table` translates, outside huge pages, has a level 1 entry -/
theorem Space.virtToPhys_walk (h : Space A shared R ρ σ) {tablePhys v phys : ℕ} (hr : tablePhys / 4096 ∈ R)
    (hh : ¬ HugeAt σ.mem (tablePhys / 4096) v) (he : virtToPhysInTable σ tablePhys v = some phys) :
    σ.physOffset ≠ none ∧ ∃ t, Walk σ.mem (tablePhys / 4096) v t ∧ isPresent (σ.mem t (tableIndex 1 v)) = true ∧
      phys / 4096 = frameOf (σ.mem t (tableIndex 1 v)) := by
  obtain ⟨⟨p, e⟩, htr, rfl⟩ := Option.map_eq_some_iff.1 he
  have hcopy := htr
  unfold translateAddrInTable at htr
  simp only [Option.bind_eq_bind, Option.bind_eq_some_iff, Option.pure_def] at htr
  obtain ⟨off, hoff, htr⟩ := htr
  obtain ⟨l4e, hl4, htr⟩ := Option.bind_eq_some_iff.1 (guard_eq_some htr).2
  obtain ⟨l3e, hl3, htr⟩ := Option.bind_eq_some_iff.1 htr
  obtain ⟨rfl, hz4, -⟩ := presentEntry_eq_some hl4
  obtain ⟨rfl, hz3, -⟩ := presentEntry_eq_some hl3
  have ht4 := h.root hr
  have h4 : Link (σ.mem (tablePhys / 4096) (tableIndex 4 v)) _ := ⟨hz4, (h.tables.shape _ ht4).flat (by decide), rfl⟩
  have ht3 := h.tables.below ht4 h4
  have hflat : isHuge (σ.mem (frameOf (σ.mem (tablePhys / 4096) (p4Index v))) (p3Index v)) = false :=
    (h.tables.shape _ ht3).flat (by decide)
  have h3 : Link (σ.mem (frameOf (σ.mem (tablePhys / 4096) (p4Index v))) (tableIndex 3 v)) _ := ⟨hz3, hflat, rfl⟩
  rw [if_neg (by rw [hflat]; decide)] at htr
  obtain ⟨l2e, hl2, -⟩ := Option.bind_eq_some_iff.1 htr
  obtain ⟨rfl, hz2, -⟩ := presentEntry_eq_some hl2
  have h2 : Link (σ.mem _ (tableIndex 2 v)) _ := ⟨hz2, by
    by_contra hc
    exact hh ⟨_, _, h4, h3, Bool.eq_true_of_not_eq_false hc⟩, rfl⟩
  have hw : Walk σ.mem (tablePhys / 4096) v _ := ⟨_, _, h4, h3, h2⟩
  obtain ⟨rfl, hp⟩ := translateAddr_walk hcopy hw
  refine ⟨by rw [hoff]; exact Option.some_ne_none _, _, hw, hp, ?_⟩
  have := Nat.mod_lt v (show 0 < 4096 by decide)
  dsimp only
  omega

/-- user memory is in frames in the role of pages -/
theorem Space.userAddr_page (h : Space A shared R ρ σ) (hA : NoUserHuge A) {tablePhys v phys off : ℕ} {w : Bool}
    (hr : tablePhys / 4096 ∈ R) (he : translateUserAddrInTable σ tablePhys v w = some (phys, off)) :
    ∃ f, ρ f = .page ∧ phys = f * 4096 + off ∧ off < 4096 := by
  unfold translateUserAddrInTable at he
  simp only [Option.bind_eq_bind, Option.pure_def] at he
  obtain ⟨e, hflags, hrest⟩ := Option.bind_eq_some_iff.1 (guard_eq_some he).2
  obtain ⟨⟨p, e'⟩, ht, hp⟩ := Option.bind_eq_some_iff.1 (guard_eq_some hrest).2
  cases hp
  obtain ⟨t, hw⟩ := h.userPage_walk hA hr hflags
  obtain ⟨rfl, -, hu⟩ := userPageFlags_walk hflags hw
  rw [tableIndex_firstPage] at hu
  rw [walk_firstPage] at hw
  exact ⟨_, h.tables.mapped (h.walk hr hw) hu, (translateAddr_walk ht hw).1, Nat.mod_lt _ (by decide)⟩

/-- the tables after a change of pages -/
def SameTables (ρ : Roles) (m m' : PhysMem) : Prop := ∀ t k, ρ t = .table k → m' t = m t

theorem copyToUserLoop_spec (hA : NoUserHuge A) {m₀ : PhysMem} {tablePhys : ℕ} (hr : tablePhys / 4096 ∈ R) (n v : ℕ)
    (src : List UInt8) :
    Spec (fun τ => Space A shared R ρ τ ∧ SameTables ρ m₀ τ.mem) (copyToUserLoop tablePhys n v src)
      (fun _ τ => Space A shared R ρ τ ∧ SameTables ρ m₀ τ.mem)
      (fun τ => Space A shared R ρ τ ∧ SameTables ρ m₀ τ.mem) := by
  induction n generalizing v src with
  | zero => exact Spec.pure fun s hs => hs
  | succ n ih =>
    cases src with
    | nil => exact Spec.pure fun s hs => hs
    | cons b src =>
      refine Spec.pre fun σ hσ => Spec.gets_bind ?_
      cases he : translateUserAddrInTable (id σ) tablePhys v true with
      | none => exact Spec.stop hσ
      | some p =>
        obtain ⟨phys, off⟩ := p
        obtain ⟨f, hf, rfl, hoff⟩ := hσ.1.userAddr_page hA hr he
        refine Spec.modify_bind (Spec.mono (ih _ _) ?_ (fun _ _ hs => hs) fun _ hs => hs)
        rintro s rfl
        have hm : ∀ g, g ≠ f → writeBytes σ.mem (f * 4096 + off)
            ((b :: src).take (min (4096 - off) (b :: src).length)) g = σ.mem g := fun g hg =>
          writeBytes_of_ne hg (by omega) (by rw [List.length_take]; omega)
        refine ⟨hσ.1.data hf hm, fun t k ht => (hm t ?_).trans (hσ.2 t k ht)⟩
        rintro rfl
        cases hf.symm.trans ht

/-- **copy_to_user_in_table** writes into pages. -/
theorem copyToUserInTable_spec (h : Space A shared R ρ σ) (hA : NoUserHuge A) {tablePhys dst : ℕ} {src : List UInt8}
    (hr : tablePhys / 4096 ∈ R) :
    Spec (· = σ) (copyToUserInTable tablePhys dst src) (fun _ τ => Space A shared R ρ τ ∧ SameTables ρ σ.mem τ.mem)
      (fun τ => Space A shared R ρ τ ∧ SameTables ρ σ.mem τ.mem) := by
  have hstart : Space A shared R ρ σ ∧ SameTables ρ σ.mem σ.mem := ⟨h, fun _ _ _ => rfl⟩
  unfold copyToUserInTable
  refine Spec.ite (fun _ => Spec.ret hstart) fun _ => offset_bind hstart fun _ =>
    Spec.check hstart fun _ =>
    Spec.check hstart fun _ =>
    Spec.here (copyToUserLoop_spec hA hr _ _ _) hstart

/-! ## Single pages -/

/-- the least assertion of this kind -/
def Plain : EntryProp := fun k _ _ w => 2 ≤ k → isHuge w = true → isUser w = false

theorem plain_noUserHuge : NoUserHuge Plain := fun h => h

theorem plain_mild : Mild Plain where
  zero _ _ _ _ hh := absurd hh (by decide)
  link _ hh _ hc := by
    rw [hh] at hc
    cases hc

theorem plain_lenient (ρ : Roles) : Lenient Plain ρ := fun _ hquiet _ _ hh => hquiet (.inr hh)

theorem plain_leaf (t i : ℕ) (w : Word) : Plain 1 t i w := fun hk => absurd hk (by decide)

/-- the user entries for the frames in `S` were there before -/
def NoNew (S : ℕ → Prop) (ρ : Roles) (m : PhysMem) (ρ' : Roles) (m' : PhysMem) : Prop :=
  ∀ t i, ρ' t = .table 1 → isUser (m' t i) = true → S (frameOf (m' t i)) →
    ρ t = .table 1 ∧ isUser (m t i) = true ∧ frameOf (m t i) = frameOf (m' t i)

/-- the same as an assertion about entries -/
def Stays (S : ℕ → Prop) (ρ : Roles) (m : PhysMem) : EntryProp := fun k t i w =>
  k = 1 → isUser w = true → S (frameOf w) → ρ t = .table 1 ∧ isUser (m t i) = true ∧ frameOf (m t i) = frameOf w

theorem Mild.stays (hA : Mild A) (S : ℕ → Prop) (ρ : Roles) (m : PhysMem) :
    Mild fun k t i w => A k t i w ∧ Stays S ρ m k t i w where
  zero k t i := ⟨hA.zero k t i, fun _ hu => absurd hu (by decide)⟩
  link hk hh := ⟨hA.link hk hh, fun hc => by omega⟩

theorem Space.stays (h : Space A shared R ρ σ) (S : ℕ → Prop) :
    Space (fun k t i w => A k t i w ∧ Stays S ρ σ.mem k t i w) shared R ρ σ :=
  h.assert fun _ _ i ht => ⟨h.tables.entries i ht, fun hk hu _ => ⟨hk ▸ ht, hu, rfl⟩⟩

theorem Space.noNew {S : ℕ → Prop} {ρ₀ : Roles} {m₀ : PhysMem}
    (h : Space (fun k t i w => A k t i w ∧ Stays S ρ₀ m₀ k t i w) shared R ρ σ) : NoNew S ρ₀ m₀ ρ σ.mem :=
  fun _ i ht hu hS => (h.tables.entries i ht).2 rfl hu hS

/-- **map_page_in_table** maps one frame and moves no other. -/
theorem mapPageInTable_stays (hA : Mild A) (h : Space A shared R ρ σ) {tablePhys virt phys : ℕ} {w : Bool}
    (hr : tablePhys / 4096 ∈ R) (hlt : phys < 2 ^ 52) (hpage : ρ (phys / 4096) = .page)
    (hsh : shared (phys / 4096) ∨ Unmapped ρ σ.mem (phys / 4096))
    (hleaf : ∀ t i, A 1 t i (entry (phys / 4096) (pageFlags w true))) :
    Spec (· = σ) (mapPageInTable tablePhys virt phys w true)
      (fun _ τ => ∃ ρ', Space A shared R ρ' τ ∧ Grows (· = phys / 4096) ρ σ.mem ρ' τ.mem ∧
        NoNew (· ≠ phys / 4096) ρ σ.mem ρ' τ.mem ∧ ∃ t, Walk τ.mem (tablePhys / 4096) virt t ∧
          τ.mem t (tableIndex 1 virt) = entry (phys / 4096) (pageFlags w true))
      (fun τ => ∃ ρ', Space A shared R ρ' τ ∧ Grows (fun _ => False) ρ σ.mem ρ' τ.mem ∧
        NoNew (· ≠ phys / 4096) ρ σ.mem ρ' τ.mem) := by
  have hframe : frameOf (entry (phys / 4096) (pageFlags w true)) = phys / 4096 :=
    frameOf_entry (by omega) (by cases w <;> exact onlyFlags_of_and (by decide))
  have hspec : Spec (· = σ) (mapPageInTable tablePhys virt phys w true) _ _ :=
    mapPageInTable_spec (hA.stays (· ≠ phys / 4096) ρ σ.mem) (h.stays _) hr (fun _ => hpage) (fun _ => hsh)
      fun t i => ⟨hleaf t i, fun _ _ hS => absurd hframe hS⟩
  refine Spec.post hspec (fun _ τ hτ => ?_) fun τ hτ => ?_
  · obtain ⟨ρ', h', hg, hw⟩ := hτ
    exact ⟨ρ', h'.mono fun _ _ _ _ hw => hw.1, hg.mono fun f hf => hf.2, h'.noNew, hw⟩
  · obtain ⟨ρ', h', hg⟩ := hτ
    exact ⟨ρ', h'.mono fun _ _ _ _ hw => hw.1, hg, h'.noNew⟩

/-! ### The window stays -/

theorem keeps_physicalMemoryOffset : Keeps Machine.physOffset physicalMemoryOffset := by
  intro σ
  unfold physicalMemoryOffset
  cases h : σ.physOffset <;> exact h

theorem keeps_allocateFrame : Keeps Machine.physOffset allocateFrame := by
  intro σ
  unfold allocateFrame
  rcases σ.alloc.allocateFrame σ.mem with _ | ⟨_ | _, _, _⟩ <;> rfl

theorem keeps_writeEntry (t i : ℕ) (e : Word) : Keeps Machine.physOffset (writeEntry t i e) := Keeps.modify fun _ => rfl

theorem keeps_zeroFrame (f : ℕ) : Keeps Machine.physOffset (zeroFrame f) := Keeps.modify fun _ => rfl

theorem keeps_tableBelow (t i : ℕ) (user : Bool) : Keeps Machine.physOffset (tableBelow t i user) :=
  (Keeps.gets _).bind fun _ => Keeps.ite
    (keeps_allocateFrame.bind fun _ => (keeps_zeroFrame _).bind fun _ => (keeps_writeEntry _ _ _).bind fun _ =>
      Keeps.pure _)
    (Keeps.ite ((keeps_writeEntry _ _ _).bind fun _ => Keeps.pure _) (Keeps.pure _))

theorem keeps_refuseHuge (t i : ℕ) : Keeps Machine.physOffset (refuseHuge t i) :=
  (Keeps.gets _).bind fun _ => Keeps.ite (Keeps.fail _) (Keeps.pure _)

theorem keeps_mapPageInTable (tablePhys virt phys : ℕ) (w u : Bool) :
    Keeps Machine.physOffset (mapPageInTable tablePhys virt phys w u) :=
  Keeps.ite (Keeps.fail _) <| Keeps.ite (Keeps.fail _) <| Keeps.ite (Keeps.fail _) <|
    keeps_physicalMemoryOffset.bind fun _ => Keeps.ite Keeps.halt <| (keeps_tableBelow _ _ _).bind fun _ =>
    (keeps_refuseHuge _ _).bind fun _ => (keeps_tableBelow _ _ _).bind fun _ => (keeps_refuseHuge _ _).bind fun _ =>
    (keeps_tableBelow _ _ _).bind fun _ => Keeps.ite Keeps.halt (keeps_writeEntry _ _ _)

theorem keeps_copyToUserLoop (tablePhys n v : ℕ) (src : List UInt8) :
    Keeps Machine.physOffset (copyToUserLoop tablePhys n v src) := by
  induction n generalizing v src with
  | zero => exact Keeps.pure _
  | succ n ih =>
    cases src with
    | nil => exact Keeps.pure _
    | cons b src =>
      refine (Keeps.gets _).bind fun σ => ?_
      cases translateUserAddrInTable σ tablePhys v true with
      | none => exact Keeps.fail _
      | some p => exact Keeps.bind (Keeps.modify fun _ => rfl) fun _ => ih _ _

theorem keeps_copyToUserInTable (tablePhys dst : ℕ) (src : List UInt8) :
    Keeps Machine.physOffset (copyToUserInTable tablePhys dst src) :=
  Keeps.ite (Keeps.pure _) <| keeps_physicalMemoryOffset.bind fun _ => Keeps.ite (Keeps.fail _) <|
    Keeps.ite (Keeps.fail _) (keeps_copyToUserLoop _ _ _ _)

/-- a page is mapped only when the window is known -/
theorem mapPageInTable_window (tablePhys virt phys : ℕ) (w u : Bool) (σ : Machine) :
    Spec (· = σ) (mapPageInTable tablePhys virt phys w u) (fun _ τ => τ.physOffset ≠ none)
      (fun τ => τ.physOffset = σ.physOffset) := by
  have hkeeps := (keeps_mapPageInTable tablePhys virt phys w u).spec σ
  by_cases hoff : σ.physOffset = none
  · have hwindow : physicalMemoryOffset σ = (.err (.memory .notMapped), σ) := by rw [physicalMemoryOffset, hoff]
    unfold mapPageInTable
    refine Spec.check rfl fun _ => Spec.check rfl
      fun _ => Spec.check rfl fun _ => ?_
    rintro s rfl
    rw [err_bind hwindow]
  · exact Spec.ok hkeeps (fun _ τ hτ => by rw [hτ]; exact hoff)

/-- the only errors are misaligned addresses and a window that is not known yet -/
theorem unmapPageInTable_ne_err {tablePhys virt : ℕ} {e : Kernel} (htab : tablePhys % 4096 = 0) (hvirt : virt % 4096 = 0)
    (hoff : σ.physOffset ≠ none) : unmapPageInTable tablePhys virt σ ≠ (.err e, τ) := by
  obtain ⟨off, hoff⟩ := Option.ne_none_iff_exists'.1 hoff
  have hwindow : physicalMemoryOffset σ = (.ok off, σ) := by rw [physicalMemoryOffset, hoff]
  intro h
  rw [unmapPageInTable, if_neg (by omega), if_neg (by omega), ok_bind hwindow] at h
  by_cases hc : Canonical virt
  · rw [if_neg (not_not.2 hc), gets_bind_apply] at h
    cases h4 : presentEntry σ.mem (tablePhys / 4096) (p4Index virt) with
    | none => rw [h4] at h; cases h
    | some l4e =>
      rw [h4] at h
      dsimp only at h
      cases h3 : presentEntry σ.mem (frameOf l4e) (p3Index virt) with
      | none => rw [h3] at h; cases h
      | some l3e =>
        rw [h3] at h
        dsimp only at h
        cases h2 : presentEntry σ.mem (frameOf l3e) (p2Index virt) with
        | none => rw [h2] at h; cases h
        | some l2e => rw [h2] at h; cases h
  · rw [if_pos hc] at h
    cases h

/-- **unmap_page_in_table** leaves nothing at the page, once the window is known. -/
theorem unmapPageInTable_cleared (hA : Mild A) (h : Space A shared R ρ σ) {tablePhys virt : ℕ}
    (hr : tablePhys / 4096 ∈ R) (hh : ¬ HugeAt σ.mem (tablePhys / 4096) virt) {E : Machine → Prop} :
    Spec (· = σ) (M.attempt (unmapPageInTable tablePhys virt) : K _)
      (fun _ τ => Space A shared R ρ τ ∧ Cleared ρ σ.mem ρ τ.mem ∧ τ.physOffset = σ.physOffset ∧
        (tablePhys % 4096 = 0 → virt % 4096 = 0 → σ.physOffset ≠ none →
          ∀ t, Walk σ.mem (tablePhys / 4096) virt t → τ.mem t (tableIndex 1 virt) = 0)) E := by
  refine Spec.ok (Spec.attempt_eq _ _) (fun res τ hres => ?_)
  have hflat : ∀ l3 l2, Link (σ.mem (tablePhys / 4096) (tableIndex 4 virt)) l3 →
      Link (σ.mem l3 (tableIndex 3 virt)) l2 → isHuge (σ.mem l2 (tableIndex 2 virt)) = false := fun l3 l2 h4 h3 => by
    by_contra hc
    exact hh ⟨l3, l2, h4, h3, by simpa using hc⟩
  have hspec := unmapPageInTable_spec hA h hr hflat σ rfl
  cases res with
  | ok _ =>
    rw [show unmapPageInTable tablePhys virt σ = _ from hres] at hspec
    obtain ⟨h', -, ⟨rfl, hno⟩ | ⟨t, hw, rfl⟩⟩ := hspec
    · exact ⟨h', .refl _ _, rfl, fun _ _ _ t hw => absurd hw (hno t)⟩
    · refine ⟨h', cleared_setEntry (h.walk hr hw) _, rfl, fun _ _ _ u hu => ?_⟩
      obtain ⟨l3, l2, h4, h3, h2⟩ := hw
      obtain ⟨k3, k2, g4, g3, g2⟩ := hu
      obtain rfl := h4.frame g4
      obtain rfl := h3.frame g3
      obtain rfl := h2.frame g2
      exact setWord_self ..
  | error e =>
    rw [show unmapPageInTable tablePhys virt σ = _ from hres] at hspec
    obtain rfl := hspec
    exact ⟨h, .refl _ _, rfl, fun htab hvirt hoff => absurd hres (unmapPageInTable_ne_err htab hvirt hoff)⟩

end SwiftCore.Mem
