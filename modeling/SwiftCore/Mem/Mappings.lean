/-
What the functions that map, change and unmap user pages do to the roles of frames.

Each function gets one triple, from a state with `Space` on: the state after it, also after an error, has `Space` with
new roles, and `Grows` says what it kept. `A` has to accept unused entries and links (`Mild`) and whatever the function
writes into level 1 tables; the hypotheses of the triples say which words these are.
- `mapPageInTable_spec`, `unmapPageInTable_spec`: the functions that walk the tables by hand.
- `mapsTo_spec`, `mapsTo_scratch`: what `map_to` may do, in a user table and in the kernel's own.
- `mapAndCopySegmentTo_spec`, `protectUserRangeInTable_spec`, `mapPhysicalRangeToUser_spec`: the loops.
-/
import SwiftCore.Mem.Roles

namespace SwiftCore.Mem

open Fallible Function

variable {A : EntryProp} {shared : ℕ → Prop} {R : Set ℕ} {ρ ρ' : Roles} {σ τ : Machine} {m' : PhysMem}

/-! ## Entries that lead to tables -/

variable {f t i n v frame tablePhys virt phys l4 vaddr : ℕ} {fl e w flags finalFlags : Word}
  {E : Machine → Prop} {m : PhysMem} {src : List UInt8} {r : Outcome MapToError PUnit} {writable executable : Bool}

theorem link_entry (hf : f < 2 ^ 40) (hfl : OnlyFlags fl) (hp : isPresent fl = true)
    (hh : isHuge fl = false) : Link (entry f fl) f :=
  ⟨entry_ne_zero hf (.inl (by decide)) hp, by rw [isHuge_entry hf, hh], frameOf_entry hf hfl⟩

/-- an entry with other flags -/
theorem link_reflag (he : Link e f) (hfl : OnlyFlags fl) (hp : isPresent fl = true)
    (hh : isHuge fl = false) (g : ℕ) : Link (entry (frameOf e) fl) g ↔ Link e g := by
  have h := link_entry (frameOf_lt e) hfl hp hh
  exact ⟨fun hg => ⟨he.1, he.2.1, h.frame hg⟩, fun hg => by rw [← hg.2.2]; exact h⟩

theorem link_setEntry (h : Link w f) : Link ((σ.setEntry t i w).mem t i) f := by
  rw [show (σ.setEntry t i w).mem t i = w from setWord_self ..]
  exact h

theorem writeEntry_bind {α : Type} {f : PUnit → K α} {Q : α → Machine → Prop}
    (h : Spec (· = σ.setEntry t i w) (f ⟨⟩) Q E) : Spec (· = σ) (writeEntry t i w >>= f) Q E := Spec.modify_bind h

/-- an assertion that says nothing about unused entries and about links -/
structure Mild (A : EntryProp) : Prop where
  zero : ∀ k t i, A k t i 0
  link : ∀ {k t i w}, 2 ≤ k → isHuge w = false → A k t i w

/-! ## Entries of level 1 tables -/

theorem Space.clearLeaf (hA : Mild A) (h : Space A shared R ρ σ) (ht : ρ t = .table 1) (i : ℕ) :
    Space A shared R ρ (σ.setEntry t i 0) ∧ ∀ P, Grows P ρ σ.mem ρ (σ.setEntry t i 0).mem := by
  obtain ⟨hs, hg⟩ := h.leaf (w := 0) (i := i) ht (fun hu => absurd hu (by decide)) (fun hu => absurd hu (by decide))
    (hA.zero _ _ _)
  exact ⟨hs, fun P => hg.mono fun f hf => absurd hf.1 (by decide)⟩

/-- other flags for a page that is mapped for user code -/
theorem Space.reflagLeaf (h : Space A shared R ρ σ) {P : ℕ → Prop} {ρ₀ : Roles} {m₀ : PhysMem}
    (hg : Grows P ρ₀ m₀ ρ σ.mem) (ht : ρ t = .table 1) (hu : isUser (σ.mem t i) = true)
    (hfl : OnlyFlags fl) (hA : A 1 t i (entry (frameOf (σ.mem t i)) fl)) :
    let τ := σ.setEntry t i (entry (frameOf (σ.mem t i)) fl)
    Space A shared R ρ τ ∧ Grows P ρ₀ m₀ ρ τ.mem ∧ ∀ f, Unmapped ρ σ.mem f → Unmapped ρ τ.mem f := by
  have hf := frameOf_entry (frameOf_lt (σ.mem t i)) hfl
  obtain ⟨hs, hgs⟩ := h.leaf ht (fun _ => by rw [hf]; exact h.tables.mapped ht hu) (fun _ hns u j huj huser he => by
    rw [hf] at hns he
    exact h.tables.sole huj ht huser hu he (by rw [he]; exact hns)) hA
  have hun : ∀ f, Unmapped ρ σ.mem f → Unmapped ρ (σ.setEntry t i (entry (frameOf (σ.mem t i)) fl)).mem f :=
    fun f hun => hgs.unmapped (fun hc => hun t i ht hu (by rw [hc.2, hf])) hun
  exact ⟨hs, ⟨hg.role, fun hu hl => hgs.link (hg.table hu) (hg.link hu hl), fun hP hung => hun _ (hg.unmapped hP hung)⟩,
    hun⟩

/-! ## Entries of the other tables -/

/-- **A new table.** A frame that was just handed out and cleared is linked below an entry without a link. -/
theorem Space.newTable (h : Space A shared R ρ σ)
    (ha : Allocated A shared R ρ σ f τ) (hzero : ∀ j, τ.mem f j = 0) (ht : ρ t = .table (n + 2))
    (hnone : ∀ g, ¬ Link (σ.mem t i) g) (hw : Link w f) (hlive : isPresent w = true) (hlink : A (n + 2) t i w)
    (hblank : ∀ j, A (n + 1) f j 0) :
    Space A shared R (update ρ f (.table (n + 1))) (τ.setEntry t i w) ∧
      ∀ P, Grows P ρ σ.mem (update ρ f (.table (n + 1))) (τ.setEntry t i w).mem := by
  have hft : ∀ {u k}, ρ u = .table k → u ≠ f := fun hu he => by rw [he, ha.free] at hu; cases hu
  have hrole : update (update ρ f .page) f (.table (n + 1)) =
      update ρ f (.table (n + 1)) := update_idem ..
  constructor
  · rw [← hrole]
    refine ha.space.grow (ha.table_iff.2 ht) (update_self ..) (ha.unmapped h) hzero hw ?_
      ⟨fun _ _ => hlive, fun _ => hw.2.1⟩ hlink hblank
    rw [ha.mem t (hft ht)]
    exact hnone
  · refine fun P => ⟨fun {g} hg => update_of_ne (fun he => hg (by rw [he, ha.free])) _ _,
      fun {u j g k} hu hl => ?_, fun {g} _ hun u j hu huser => ?_⟩
    · show Link (setWord τ.mem t i w u j) g
      rcases setWord_cases τ.mem t i w u j with ⟨rfl, rfl, -⟩ | ⟨-, hw'⟩
      · exact absurd hl (hnone g)
      · rw [hw', ha.mem u (hft hu)]
        exact hl
    · have hut : u ≠ t := by
        rintro rfl
        rw [update_of_ne (hft ht), ht, Role.table.injEq] at hu
        omega
      rw [show (τ.setEntry t i w).mem u = τ.mem u from setWord_of_ne _ hut _ _] at huser ⊢
      by_cases huf : u = f
      · rw [huf, hzero] at huser
        exact absurd huser (by decide)
      · rw [update_of_ne huf] at hu
        rw [ha.mem u huf] at huser ⊢
        exact hun u j hu huser

/-! ## map_page_in_table -/

/-- the states that one of the table functions may leave: more tables, nothing mapped -/
def Grown (A : EntryProp) (shared : ℕ → Prop) (R : Set ℕ) (P : ℕ → Prop) (ρ : Roles) (m : PhysMem) (τ : Machine) :
    Prop := ∃ ρ', Space A shared R ρ' τ ∧ Grows P ρ m ρ' τ.mem

theorem Space.grown (h : Space A shared R ρ σ) (P : ℕ → Prop) : Grown A shared R P ρ σ.mem σ := ⟨ρ, h, .refl _ _ _⟩

/-- the table below an entry, after the code that makes sure of it -/
def TableAt (A : EntryProp) (shared : ℕ → Prop) (R : Set ℕ) (ρ : Roles) (m : PhysMem) (t i n f : ℕ) (τ : Machine) :
    Prop :=
  ∃ ρ', Space A shared R ρ' τ ∧ (∀ P, Grows P ρ m ρ' τ.mem) ∧ ρ' f = .table (n + 1) ∧ Link (τ.mem t i) f

/-- an entry with a link gets other flags -/
theorem Space.reflagLink (hA : Mild A) (h : Space A shared R ρ σ) (ht : ρ t = .table (n + 2))
    (hl : Link (σ.mem t i) (frameOf (σ.mem t i))) (hfl : OnlyFlags fl) (hp : isPresent fl = true)
    (hh : isHuge fl = false) :
    TableAt A shared R ρ σ.mem t i n (frameOf (σ.mem t i)) (σ.setEntry t i (entry (frameOf (σ.mem t i)) fl)) := by
  have hw := link_entry (frameOf_lt (σ.mem t i)) hfl hp hh
  obtain ⟨hs, hg⟩ := h.relink ht (link_reflag hl hfl hp hh)
    ⟨fun _ _ => by rw [isPresent_entry (frameOf_lt _), hp], fun _ => hw.2.1⟩ (hA.link (by omega) hw.2.1)
  exact ⟨ρ, hs, hg, h.tables.below ht hl, link_setEntry hw⟩

theorem tableBelow_spec (hA : Mild A) (h : Space A shared R ρ σ) (ht : ρ t = .table (n + 2))
    (hh : isHuge (σ.mem t i) = false) (user : Bool) (hE : E σ) :
    Spec (· = σ) (tableBelow t i user) (fun f τ => TableAt A shared R ρ σ.mem t i n f τ) E := by
  unfold tableBelow
  refine Spec.gets_bind (Spec.ite (fun hc => ?_) fun hc => ?_)
  · -- present means in use here
    have hzero : σ.mem t i = 0 := by
      by_contra hne
      rcases hc with hc | hc
      · exact hne hc
      · exact hc ((h.tables.shape i ht).live (by omega) hne)
    refine newFrame_spec h hE fun f τ ha hz => writeEntry_bind (Spec.ret ?_)
    have hlink : Link (entry f.number (tableFlags user)) f.number := by
      cases user <;> exact link_entry f.lt (onlyFlags_of_and (by decide)) (by decide) (by decide)
    have hlive : isPresent (entry f.number (tableFlags user)) = true := by
      rw [isPresent_entry f.lt]
      cases user <;> decide
    obtain ⟨hs, hg⟩ := h.newTable ha hz ht (fun g hl => hl.1 hzero) hlink hlive (hA.link (by omega) hlink.2.1)
      fun _ => hA.zero _ _ _
    exact ⟨_, hs, hg, update_self .., link_setEntry hlink⟩
  · rw [not_or, not_not] at hc
    have hl : Link (σ.mem t i) (frameOf (σ.mem t i)) := ⟨hc.1, hh, rfl⟩
    split_ifs
    · refine writeEntry_bind (Spec.ret ?_)
      have hp : isPresent (flagsOf (σ.mem t i) ||| Flags.user) = true := by
        unfold isPresent
        rw [BitVec.getLsbD_or, getLsbD_flagsOf _ (.inl (by decide)), show (σ.mem t i).getLsbD 0 = true from hc.2]
        rfl
      have hh' : isHuge (flagsOf (σ.mem t i) ||| Flags.user) = false := by
        unfold isHuge
        rw [BitVec.getLsbD_or, getLsbD_flagsOf _ (.inl (by decide)), show (σ.mem t i).getLsbD 7 = false from hh]
        decide
      have hfl : OnlyFlags (flagsOf (σ.mem t i) ||| Flags.user) :=
        (onlyFlags_flagsOf _).or (onlyFlags_of_and (by decide))
      exact h.reflagLink hA ht hl hfl hp hh'
    · exact Spec.ret ⟨ρ, h, fun P => .refl _ _ _, h.tables.below ht hl, hl⟩

theorem refuseHuge_spec (h : Space A shared R ρ σ) (ht : ρ t = .table (n + 2))
    (hE : E σ) : Spec (· = σ) (refuseHuge t i) (fun _ τ => τ = σ ∧ isHuge (σ.mem t i) = false) E := by
  unfold refuseHuge
  refine Spec.gets_bind ?_
  split_ifs with hc
  · exact Spec.stop hE
  · refine Spec.ret ⟨rfl, ?_⟩
    by_cases hz : σ.mem t i = 0
    · rw [hz]
      decide
    · by_contra hh
      exact hc ⟨hz, (h.tables.shape i ht).live (by omega) hz, by simpa using hh⟩

theorem offset_bind {α : Type} {f : ℕ → K α} {Q : α → Machine → Prop} (hE : E σ)
    (hf : ∀ off, Spec (· = σ) (f off) Q E) : Spec (· = σ) (physicalMemoryOffset >>= f) Q E := by
  refine Spec.step (Q := fun _ τ => τ = σ) ?_ fun off τ hτ => hτ ▸ hf off
  rintro s rfl
  unfold physicalMemoryOffset
  cases s.physOffset with
  | none => exact hE
  | some off => rfl

/-- what is known after a page was mapped -/
def MappedAt (A : EntryProp) (shared : ℕ → Prop) (R : Set ℕ) (P : ℕ → Prop) (ρ : Roles) (m : PhysMem) (r v : ℕ)
    (w : Word) (τ : Machine) : Prop :=
  ∃ ρ', Space A shared R ρ' τ ∧ Grows P ρ m ρ' τ.mem ∧ ∃ t, Walk τ.mem r v t ∧ τ.mem t (tableIndex 1 v) = w

/-- the walk through three tables that were found one after the other -/
theorem Grows.walk_of_links {P : ℕ → Prop} {ρ₁ ρ₂ ρ₃ : Roles} {m₁ m₂ m₃ : PhysMem} (hg₂ : Grows P ρ₁ m₁ ρ₂ m₂)
    (hg₃ : Grows P ρ₂ m₂ ρ₃ m₃) {r l3 l2 l1 : ℕ} (hr : ρ₁ r = .table 4) (hl3 : ρ₁ l3 = .table 3)
    (h4 : Link (m₁ r (tableIndex 4 v)) l3) (h3 : Link (m₂ l3 (tableIndex 3 v)) l2)
    (h2 : Link (m₃ l2 (tableIndex 2 v)) l1) : Walk m₃ r v l1 :=
  ⟨l3, l2, hg₃.link (hg₂.table hr) (hg₂.link hr h4), hg₃.link (hg₂.table hl3) h3, h2⟩

/-- a page is entered where a walk ends -/
theorem Space.mapLeaf {ρ₁ : Roles} (h : Space A shared R ρ₁ σ) (hg : ∀ P, Grows P ρ m ρ₁ σ.mem)
    {r : ℕ} (hr : r ∈ R) (hw : Walk σ.mem r v t) (hframe : frame < 2 ^ 40)
    (hfl : OnlyFlags flags) (hpage : isUser flags = true → ρ frame = .page)
    (hsh : isUser flags = true → shared frame ∨ Unmapped ρ m frame) (hA : A 1 t (tableIndex 1 v) (entry frame flags)) :
    MappedAt A shared R (fun f => isUser flags = true ∧ f = frame) ρ m r v (entry frame flags)
      (σ.setEntry t (tableIndex 1 v) (entry frame flags)) := by
  have hf : frameOf (entry frame flags) = frame := frameOf_entry hframe hfl
  have huser : isUser (entry frame flags) = isUser flags := isUser_entry hframe _
  obtain ⟨hs, hgs⟩ := h.leaf (h.walk hr hw) (fun hu => by rw [hf]; exact (hg fun _ => False).page (hpage (huser ▸ hu)))
    (fun hu hns u j huj huser' he => by
      rw [hf] at hns he
      rcases hsh (huser ▸ hu) with hs | hun
      · exact absurd hs hns
      · exact absurd he ((hg fun _ => False).unmapped id hun u j huj huser')) hA
  refine ⟨ρ₁, hs, ((hg _).trans hgs).mono fun g hgf => ?_, t, hgs.walk h.tables hr hw, setWord_self ..⟩
  rwa [huser, hf] at hgf

/-- **map_page_in_table** gives the page to the table: a page of user code needs a frame in the role of a page that may
be mapped once more. -/
theorem mapPageInTable_spec (hA : Mild A) (h : Space A shared R ρ σ) {w u : Bool}
    (hr : tablePhys / 4096 ∈ R) (hpage : u = true → ρ (phys / 4096) = .page)
    (hsh : u = true → shared (phys / 4096) ∨ Unmapped ρ σ.mem (phys / 4096))
    (hleaf : ∀ t i, A 1 t i (entry (phys / 4096) (pageFlags w u))) :
    Spec (· = σ) (mapPageInTable tablePhys virt phys w u)
      (fun _ => MappedAt A shared R (fun f => u = true ∧ f = phys / 4096) ρ σ.mem (tablePhys / 4096) virt
        (entry (phys / 4096) (pageFlags w u)))
      (Grown A shared R (fun _ => False) ρ σ.mem) := by
  have hfail : Grown A shared R (fun _ => False) ρ σ.mem σ := h.grown _
  have hroot := h.root hr
  unfold mapPageInTable
  refine Spec.check hfail fun _ => ?_
  refine Spec.check hfail fun _ => ?_
  refine Spec.check hfail fun _ => ?_
  refine offset_bind hfail fun _ => Spec.ite (fun _ => Spec.halt) fun _ => ?_
  -- level 4
  refine Spec.step (tableBelow_spec hA h hroot ((h.tables.shape _ hroot).flat (by decide)) u hfail)
    fun l3 σ₁ ⟨ρ₁, h₁, hg₁, hl3, hlink4⟩ => ?_
  have hfail₁ : Grown A shared R (fun _ => False) ρ σ.mem σ₁ := ⟨ρ₁, h₁, hg₁ _⟩
  -- level 3
  refine Spec.step (refuseHuge_spec h₁ hl3 hfail₁) fun _ σ' ⟨hσ', hh3⟩ => ?_
  subst hσ'
  refine Spec.step (tableBelow_spec hA h₁ hl3 hh3 u hfail₁) fun l2 σ₂ ⟨ρ₂, h₂, hg₂, hl2, hlink3⟩ => ?_
  have hfail₂ : Grown A shared R (fun _ => False) ρ σ.mem σ₂ := ⟨ρ₂, h₂, (hg₁ _).trans (hg₂ _)⟩
  -- level 2
  refine Spec.step (refuseHuge_spec h₂ hl2 hfail₂) fun _ σ' ⟨hσ', hh2⟩ => ?_
  subst hσ'
  refine Spec.step (tableBelow_spec hA h₂ hl2 hh2 u hfail₂) fun l1 σ₃ ⟨ρ₃, h₃, hg₃, hl1, hlink2⟩ => ?_
  have hg : ∀ P, Grows P ρ σ.mem ρ₃ σ₃.mem := fun P => ((hg₁ P).trans (hg₂ P)).trans (hg₃ P)
  have hwalk : Walk σ₃.mem (tablePhys / 4096) virt l1 :=
    (hg₂ fun _ => False).walk_of_links (hg₃ _) ((hg₁ fun _ => False).table hroot) hl3 hlink4 hlink3 hlink2
  refine Spec.ite (fun _ => Spec.halt) fun hlt => ?_
  refine Spec.modify fun s hs => ?_
  obtain rfl : σ₃ = s := hs.symm
  have huser : isUser (pageFlags w u) = true → u = true := by cases w <;> cases u <;> decide
  obtain ⟨ρ', hs, hg', hw⟩ := h₃.mapLeaf hg hr hwalk (by omega)
    (by cases w <;> cases u <;> exact onlyFlags_of_and (by decide)) (fun hu => hpage (huser hu))
    (fun hu => hsh (huser hu)) (hleaf _ _)
  exact ⟨ρ', hs, hg'.mono fun f hf => ⟨huser hf.1, hf.2⟩, hw⟩

theorem presentEntry_eq_some (h : presentEntry m t i = some e) :
    e = m t i ∧ m t i ≠ 0 ∧ isPresent (m t i) = true := by
  unfold presentEntry at h
  dsimp only at h
  split_ifs at h with hc
  rw [not_or, not_not] at hc
  exact ⟨(Option.some.inj h).symm, hc⟩

theorem presentEntry_eq_none (h : presentEntry m t i = none) : m t i = 0 ∨ ¬ isPresent (m t i) = true := by
  unfold presentEntry at h
  dsimp only at h
  split_ifs at h with hc
  exact hc

/-- **unmap_page_in_table** clears the entry of a page that is not part of a huge page. -/
theorem unmapPageInTable_spec (hA : Mild A) (h : Space A shared R ρ σ) (hr : tablePhys / 4096 ∈ R)
    (hh : ∀ l3 l2, Link (σ.mem (tablePhys / 4096) (tableIndex 4 virt)) l3 → Link (σ.mem l3 (tableIndex 3 virt)) l2 →
      isHuge (σ.mem l2 (tableIndex 2 virt)) = false) :
    Spec (· = σ) (unmapPageInTable tablePhys virt)
      (fun _ τ => Space A shared R ρ τ ∧ Grows (fun _ => False) ρ σ.mem ρ τ.mem ∧
        ((τ = σ ∧ ∀ t, ¬ Walk σ.mem (tablePhys / 4096) virt t) ∨
          ∃ t, Walk σ.mem (tablePhys / 4096) virt t ∧ τ = σ.setEntry t (tableIndex 1 virt) 0))
      (fun τ => τ = σ) := by
  unfold unmapPageInTable
  refine Spec.guard (fun s hs => hs) fun _ => ?_
  refine Spec.guard (fun s hs => hs) fun _ => ?_
  refine offset_bind rfl fun _ => Spec.ite (fun _ => Spec.halt) fun _ => Spec.gets_bind ?_
  have hroot := h.root hr
  -- an entry found present is a link unless it is huge, and one that is not found is none
  have hfound : ∀ {t i e}, presentEntry σ.mem t i = some e → isHuge (σ.mem t i) = false →
      Link (σ.mem t i) (frameOf e) := by
    intro t i e he hhuge
    obtain ⟨rfl, hne, -⟩ := presentEntry_eq_some he
    exact ⟨hne, hhuge, rfl⟩
  have hmissing : ∀ {t i n f}, ρ t = .table (n + 2) → presentEntry σ.mem t i = none → ¬ Link (σ.mem t i) f := by
    intro t i n f ht he hl
    rcases presentEntry_eq_none he with hc | hc
    · exact hl.1 hc
    · exact hc ((h.tables.shape i ht).live (by omega) hl.1)
  cases he4 : presentEntry σ.mem (tablePhys / 4096) (p4Index virt) with
  | none =>
    exact Spec.ret ⟨h, .refl _ _ _, .inl ⟨rfl, fun t ⟨l3, l2, h4, _⟩ => hmissing hroot he4 h4⟩⟩
  | some l4e =>
    have hl4 := hfound he4 ((h.tables.shape _ hroot).flat (by decide))
    have ht3 := h.tables.below hroot hl4
    dsimp only
    cases he3 : presentEntry σ.mem (frameOf l4e) (p3Index virt) with
    | none =>
      refine Spec.ret ⟨h, .refl _ _ _, .inl ⟨rfl, fun t ⟨l3, l2, h4, h3, _⟩ => ?_⟩⟩
      rw [h4.frame hl4] at h3
      exact hmissing ht3 he3 h3
    | some l3e =>
      have hl3 := hfound he3 ((h.tables.shape _ ht3).flat (by decide))
      have ht2 := h.tables.below ht3 hl3
      dsimp only
      cases he2 : presentEntry σ.mem (frameOf l3e) (p2Index virt) with
      | none =>
        refine Spec.ret ⟨h, .refl _ _ _, .inl ⟨rfl, fun t ⟨l3, l2, h4, h3, h2⟩ => ?_⟩⟩
        rw [h4.frame hl4] at h3
        rw [h3.frame hl3] at h2
        exact hmissing ht2 he2 h2
      | some l2e =>
        have hl2 := hfound he2 (hh _ _ hl4 hl3)
        have ht1 := h.tables.below ht2 hl2
        refine Spec.modify fun s hs => ?_
        subst hs
        obtain ⟨hs, hg⟩ := h.clearLeaf hA ht1 (p1Index virt)
        exact ⟨hs, hg _, .inr ⟨_, ⟨_, _, hl4, hl3, hl2⟩, rfl⟩⟩

/-! ## Segments -/

theorem ensureTable_spec (hA : Mild A) (h : Space A shared R ρ σ) (ht : ρ t = .table (n + 2))
    {replaceHuge : Bool} (hh : replaceHuge = false → isHuge (σ.mem t i) = false) (hE : E σ) :
    Spec (· = σ) (ensureTable t i replaceHuge) (fun _ τ => ∃ f, TableAt A shared R ρ σ.mem t i n f τ) E := by
  unfold ensureTable
  refine Spec.gets_bind (Spec.ite (fun hc => ?_) fun hc => ?_)
  · have hnone : ∀ g, ¬ Link (σ.mem t i) g := by
      rintro g ⟨hne, hhuge, -⟩
      rcases hc with hc | hc
      · exact hne hc
      · rw [hhuge] at hc
        exact absurd hc.2 (by decide)
    refine Spec.step (allocateTable_spec h hE) fun f τ ⟨ha, hz⟩ => Spec.modify fun s hs => ?_
    obtain rfl : τ = s := hs.symm
    have hlink : Link (entry f (Flags.present ||| Flags.writable ||| Flags.user)) f :=
      link_entry ha.lt (onlyFlags_of_and (by decide)) (by decide) (by decide)
    obtain ⟨hs, hg⟩ := h.newTable ha hz ht hnone hlink (by rw [isPresent_entry ha.lt]; decide)
      (hA.link (by omega) hlink.2.1) fun _ => hA.zero _ _ _
    exact ⟨f, _, hs, hg, update_self .., link_setEntry hlink⟩
  · rw [not_or, not_and] at hc
    have hhuge : isHuge (σ.mem t i) = false := by
      cases replaceHuge with
      | false => exact hh rfl
      | true => simpa using hc.2 rfl
    have hl : Link (σ.mem t i) (frameOf (σ.mem t i)) := ⟨hc.1, hhuge, rfl⟩
    refine Spec.modify fun s hs => ?_
    obtain rfl : σ = s := hs.symm
    have hfl : OnlyFlags ((flagsOf (σ.mem t i) ||| Flags.present ||| Flags.writable ||| Flags.user) &&&
        ~~~Flags.noExecute) :=
      ((((onlyFlags_flagsOf _).or (onlyFlags_of_and (by decide))).or (onlyFlags_of_and (by decide))).or
        (onlyFlags_of_and (by decide))).and _
    have hp : isPresent ((flagsOf (σ.mem t i) ||| Flags.present ||| Flags.writable ||| Flags.user) &&&
        ~~~Flags.noExecute) = true := by
      unfold isPresent
      rw [BitVec.getLsbD_and, BitVec.getLsbD_or, BitVec.getLsbD_or, BitVec.getLsbD_or,
        show Flags.present.getLsbD 0 = true from rfl, Bool.or_true]
      rfl
    have hhuge' : isHuge ((flagsOf (σ.mem t i) ||| Flags.present ||| Flags.writable ||| Flags.user) &&&
        ~~~Flags.noExecute) = false := by
      have : (flagsOf (σ.mem t i)).getLsbD 7 = false := by
        rw [getLsbD_flagsOf _ (.inl (by decide))]
        exact hhuge
      unfold isHuge
      rw [BitVec.getLsbD_and, BitVec.getLsbD_or, BitVec.getLsbD_or, BitVec.getLsbD_or, this]
      decide
    exact ⟨_, h.reflagLink hA ht hl hfl hp hhuge'⟩

/-- **ensure_user_page_table_hierarchy**: afterwards the walk to the address ends at a level 1 table. -/
theorem ensureUserPageTableHierarchy_spec (hA : Mild A) (h : Space A shared R ρ σ) (hr : l4 ∈ R)
    (hE : ∀ τ ρ', Space A shared R ρ' τ → (∀ P, Grows P ρ σ.mem ρ' τ.mem) → E τ) :
    Spec (· = σ) (ensureUserPageTableHierarchy l4 v)
      (fun _ τ => ∃ ρ', Space A shared R ρ' τ ∧ (∀ P, Grows P ρ σ.mem ρ' τ.mem) ∧ ∃ t, Walk τ.mem l4 v t) E := by
  have hroot := h.root hr
  unfold ensureUserPageTableHierarchy
  refine Spec.step (ensureTable_spec hA h hroot (fun _ => (h.tables.shape _ hroot).flat (by decide))
    (hE σ ρ h fun P => .refl _ _ _)) fun _ σ₁ ⟨l3, ρ₁, h₁, hg₁, hl3, hlink4⟩ => Spec.gets_bind ?_
  rw [hlink4.2.2]
  refine Spec.step (ensureTable_spec hA h₁ hl3 (fun _ => (h₁.tables.shape _ hl3).flat (by decide)) (hE σ₁ ρ₁ h₁ hg₁))
    fun _ σ₂ ⟨l2, ρ₂, h₂, hg₂, hl2, hlink3⟩ => Spec.gets_bind ?_
  rw [hlink3.2.2]
  have hlast : Spec (· = σ₂) (ensureTable l2 (p2Index v) true)
      (fun _ τ => ∃ f, TableAt A shared R ρ₂ σ₂.mem l2 (p2Index v) 0 f τ) E :=
    ensureTable_spec hA h₂ hl2 (by nofun) (hE σ₂ ρ₂ h₂ fun P => (hg₁ P).trans (hg₂ P))
  refine Spec.ok hlast (fun _ σ₃ ⟨l1, ρ₃, h₃, hg₃, hl1, hlink2⟩ => ?_)
  exact ⟨ρ₃, h₃, fun P => ((hg₁ P).trans (hg₂ P)).trans (hg₃ P), l1,
    (hg₂ fun _ => False).walk_of_links (hg₃ _) ((hg₁ fun _ => False).table hroot) hl3 hlink4 hlink3 hlink2⟩

/-! ### The page of a segment -/

/-- the merge that `map_and_copy_segment_to` refuses -/
def refuses (finalFlags e : Word) : Prop :=
  e ≠ 0 ∧ isUser e = true ∧
    ((¬ isNoExecute e = true ∧ isWritable finalFlags = true) ∨ (isWritable e = true ∧ ¬ isNoExecute finalFlags = true))

/-- the entry it writes over `e` for the new frame `f` -/
def installed (finalFlags e : Word) (f : ℕ) : Word :=
  if e = 0 then entry f finalFlags
  else if ¬ isUser e = true then
    entry f (if isNoExecute e = true then finalFlags else finalFlags &&& ~~~Flags.noExecute)
  else entry (frameOf e) (if ¬ isNoExecute e = true then finalFlags &&& ~~~Flags.noExecute else finalFlags)

theorem writeBytes_of_ne {g : ℕ} {bytes : List UInt8} (hg : g ≠ frame)
    (hlow : frame * 4096 ≤ phys) (hhigh : phys + bytes.length ≤ frame * 4096 + 4096) :
    writeBytes m phys bytes g = m g := by
  induction bytes generalizing m phys with
  | nil => rfl
  | cons b bs ih =>
    rw [List.length_cons] at hhigh
    unfold writeBytes
    rw [ih (by omega) (by omega)]
    unfold PhysMem.write
    exact update_of_ne (by omega) _ _

theorem copySegmentBytes_spec (h : Space A shared R ρ σ) {pageAddr fileEnd : ℕ} (hf : ρ f = .page) :
    Spec (· = σ) (copySegmentBytes pageAddr vaddr fileEnd src f)
      (fun _ τ => Space A shared R ρ τ ∧ ∀ P, Grows P ρ σ.mem ρ τ.mem) E := by
  unfold copySegmentBytes
  refine Spec.when (fun hc => Spec.modify fun s hs => ?_) fun _ s hs => ?_
  · obtain rfl : σ = s := hs.symm
    have hm : ∀ g, g ≠ f → writeBytes σ.mem (f * 4096 + (max pageAddr vaddr - pageAddr))
        ((src.drop (max pageAddr vaddr - vaddr)).take (min (pageAddr + 4096) fileEnd - max pageAddr vaddr)) g =
          σ.mem g := by
      intro g hg
      refine writeBytes_of_ne hg (by omega) ?_
      have := List.length_take_le (min (pageAddr + 4096) fileEnd - max pageAddr vaddr)
        (src.drop (max pageAddr vaddr - vaddr))
      omega
    exact ⟨h.data hf hm, fun P => .data hf hm⟩
  · obtain rfl : σ = s := hs.symm
    exact ⟨h, fun P => .refl _ _ _⟩

section Segment

variable {ρ₀ : Roles} {m₀ : PhysMem} {P : ℕ → Prop}

/-- **The entry of a segment's page.** The new frame is mapped, or given back when the page keeps the frame it has. -/
theorem installPage_spec (h : Space A shared R ρ σ) (hg : Grows P ρ₀ m₀ ρ σ.mem) {l1 : ℕ} (ht : ρ l1 = .table 1)
    {f : PhysFrame} (hnew : ρ₀ f.number = .free) (hf : ρ f.number = .page) (hun : Unmapped ρ σ.mem f.number)
    (hP : P f.number) (hfl : OnlyFlags finalFlags)
    (hleaf : ¬ refuses finalFlags (σ.mem l1 i) → A 1 l1 i (installed finalFlags (σ.mem l1 i) f.number)) :
    Spec (· = σ) (installPage l1 i f finalFlags)
      (fun target τ => ∃ ρ', Space A shared R ρ' τ ∧ Grows P ρ₀ m₀ ρ' τ.mem ∧ ρ' target = .page)
      (Grown A shared R P ρ₀ m₀) := by
  -- the new frame goes into the entry, with some flags
  have htake : ∀ fl, OnlyFlags fl → A 1 l1 i (entry f.number fl) →
      Spec (· = σ) (writeEntry l1 i (entry f.number fl) >>= fun _ => (pure f.number : K ℕ))
        (fun target τ => ∃ ρ', Space A shared R ρ' τ ∧ Grows P ρ₀ m₀ ρ' τ.mem ∧ ρ' target = .page)
        (Grown A shared R P ρ₀ m₀) := by
    intro fl hfl hAw
    have hframe : frameOf (entry f.number fl) = f.number := frameOf_entry f.lt hfl
    refine writeEntry_bind (Spec.ret ?_)
    obtain ⟨hs, hgs⟩ := h.leaf ht (fun _ => by rw [hframe]; exact hf)
      (fun _ _ u j hu huser he => absurd (he.trans hframe) (hun u j hu huser)) hAw
    exact ⟨ρ, hs, hg.trans (hgs.mono fun g hg => by rw [hg.2, hframe]; exact hP), hf⟩
  unfold installPage
  refine Spec.gets_bind (Spec.ite (fun hzero => ?_) fun hne => Spec.ite (fun hnu => ?_) fun hu =>
    Spec.ite (fun hc => ?_) fun hc => ?_)
  · refine htake finalFlags hfl ?_
    have := hleaf fun hr => hr.1 hzero
    rwa [installed, if_pos hzero] at this
  · refine htake _ (by split_ifs; exacts [hfl, hfl.and _]) ?_
    have := hleaf fun hr => hnu hr.2.1
    rwa [installed, if_neg hne, if_pos hnu] at this
  · refine Spec.step (deallocateFrame_spec h hf hun) fun _ τ ⟨ρ', hfr⟩ => Spec.stop ?_
    exact ⟨ρ', hfr.space, hg.freed hnew hfr⟩
  · -- the page stays where it is
    rw [not_not] at hu
    have hAw := hleaf fun hr => hc hr.2.2
    rw [installed, if_neg hne, if_neg (not_not.2 hu)] at hAw
    refine writeEntry_bind ?_
    generalize hfl' : (if ¬ isNoExecute (σ.mem l1 i) = true then finalFlags &&& ~~~Flags.noExecute else finalFlags) = fl at *
    have hfl : OnlyFlags fl := by
      rw [← hfl']
      split_ifs
      exacts [hfl, hfl.and _]
    obtain ⟨hs, hkept, hun'⟩ := h.reflagLeaf hg ht hu hfl hAw
    have hne : f.number ≠ frameOf (σ.mem l1 i) := fun he => hun l1 i ht hu he.symm
    refine Spec.step (deallocateFrame_spec hs hf (hun' _ hun)) fun _ τ ⟨ρ', hfr⟩ => Spec.ret ?_
    exact ⟨ρ', hfr.space, hkept.freed hnew hfr, by rw [hfr.role _ hne.symm, h.tables.mapped ht hu]⟩

/-- one page of a segment -/
theorem mapSegmentPage_spec (hA : Mild A) (hP : ∀ f, ρ₀ f = .free → P f) (hr : l4 ∈ R) {fileEnd : ℕ}
    (hfl : OnlyFlags finalFlags)
    (hleaf : ∀ ρ' τ t f, Space A shared R ρ' τ → Grows P ρ₀ m₀ ρ' τ.mem → Walk τ.mem l4 v t →
      ¬ refuses finalFlags (τ.mem t (tableIndex 1 v)) → f < 2 ^ 40 →
      A 1 t (tableIndex 1 v) (installed finalFlags (τ.mem t (tableIndex 1 v)) f)) :
    Spec (Grown A shared R P ρ₀ m₀) (mapSegmentPage l4 vaddr fileEnd src finalFlags v)
      (fun _ => Grown A shared R P ρ₀ m₀) (Grown A shared R P ρ₀ m₀) := by
  refine Spec.pre fun σ ⟨ρ, h, hg⟩ => ?_
  unfold mapSegmentPage
  refine Spec.step (ensureUserPageTableHierarchy_spec hA h hr fun τ ρ' h' hg' => ⟨ρ', h', hg.trans (hg' P)⟩)
    fun _ σ₁ ⟨ρ₁, h₁, hg₁, t, hwalk⟩ => ?_
  have hg' := hg.trans (hg₁ P)
  refine newFrame_spec h₁ ⟨ρ₁, h₁, hg'⟩ fun f σ₂ ha _ => ?_
  have hg₂ : Grows P ρ₀ m₀ (update ρ₁ f.number .page) σ₂.mem := hg'.trans ha.grows
  have hfail : Grown A shared R P ρ₀ m₀ σ₂ := ⟨_, ha.space, hg₂⟩
  have hwalk : Walk σ₂.mem l4 v t := (ha.grows (P := fun _ => False)).walk h₁.tables hr hwalk
  have ht := ha.space.walk hr hwalk
  obtain ⟨l3, l2, h4, h3, h2⟩ := id hwalk
  have hnew : ρ₀ f.number = .free := by
    by_contra hne
    have := ha.free
    rw [hg'.role hne] at this
    exact hne this
  -- the walk of the code is the one that the hierarchy has
  refine Spec.gets_bind (Spec.check hfail fun _ => Spec.gets_bind ?_)
  rw [show frameOf (σ₂.mem l4 (p4Index v)) = l3 from h4.2.2]
  refine Spec.check hfail fun _ => Spec.gets_bind ?_
  rw [show frameOf (σ₂.mem l3 (p3Index v)) = l2 from h3.2.2]
  refine Spec.check hfail fun _ => ?_
  rw [show frameOf (σ₂.mem l2 (p2Index v)) = t from h2.2.2]
  refine Spec.step (installPage_spec ha.space hg₂ ht hnew (update_self ..) (ha.unmapped h₁) (hP _ hnew) hfl
    fun hr => hleaf _ σ₂ t f.number ha.space hg₂ hwalk hr f.lt) fun target σ₃ ⟨ρ₃, h₃, hg₃, hpage⟩ => ?_
  exact Spec.ok (copySegmentBytes_spec h₃ hpage)
    (fun _ τ ⟨hs, hgs⟩ => ⟨ρ₃, hs, hg₃.trans (hgs P)⟩)

/-- **A segment**, given that the entries it writes are acceptable. -/
theorem mapSegment_spec (hA : Mild A) (hP : ∀ f, ρ₀ f = .free → P f) {filesz memsz : ℕ} (hr : l4 ∈ R)
    (hfl : OnlyFlags finalFlags)
    (hleaf : ∀ j, j < pageCount vaddr (vaddr + memsz) → ∀ ρ' τ t f, Space A shared R ρ' τ → Grows P ρ₀ m₀ ρ' τ.mem →
      Walk τ.mem l4 (firstPage vaddr + j * 4096) t →
      ¬ refuses finalFlags (τ.mem t (tableIndex 1 (firstPage vaddr + j * 4096))) → f < 2 ^ 40 →
      A 1 t (tableIndex 1 (firstPage vaddr + j * 4096))
        (installed finalFlags (τ.mem t (tableIndex 1 (firstPage vaddr + j * 4096))) f)) :
    Spec (Grown A shared R P ρ₀ m₀) (mapSegment l4 vaddr filesz memsz src finalFlags)
      (fun _ => Grown A shared R P ρ₀ m₀) (Grown A shared R P ρ₀ m₀) := by
  have hensure : ∀ v, Spec (Grown A shared R P ρ₀ m₀) (ensureUserPageTableHierarchy l4 v)
      (fun _ => Grown A shared R P ρ₀ m₀) (Grown A shared R P ρ₀ m₀) := fun v =>
    Spec.pre fun σ ⟨ρ, h, hg⟩ => Spec.mono
      (ensureUserPageTableHierarchy_spec hA h hr fun τ ρ' h' hg' => ⟨ρ', h', hg.trans (hg' P)⟩) (fun _ hs => hs)
      (fun _ τ ⟨ρ', h', hg', _⟩ => ⟨ρ', h', hg.trans (hg' P)⟩) fun _ hs => hs
  unfold mapSegment
  refine Spec.bind (hensure vaddr) fun _ => Spec.bind (hensure _) fun _ => ?_
  refine Spec.ite ?_ ?_
  · exact fun _ => Spec.fail fun _ hs => hs
  · intro _
    refine Spec.forRange (I := fun _ => Grown A shared R P ρ₀ m₀) _ 0 fun j _ hj => ?_
    rw [Nat.zero_add] at hj
    exact mapSegmentPage_spec (v := firstPage vaddr + j * 4096) hA hP hr hfl (hleaf j hj)

end Segment

/-! ## map_to -/

theorem parentFlags_high {extra : Word} (h : extra &&& parentFlags = extra) (i : ℕ) (hi : 3 ≤ i) :
    extra.getLsbD i = false := by
  have hbit : parentFlags.getLsbD i = false := by
    by_cases h64 : i < 64
    · interval_cases i <;> decide
    · exact BitVec.getLsbD_of_ge _ _ (by omega)
  rw [← h, BitVec.getLsbD_and, hbit, Bool.and_false]

theorem link_or {extra : Word} (hex : extra &&& parentFlags = extra) (he : e ≠ 0) (g : ℕ) :
    Link (e ||| extra) g ↔ Link e g := by
  unfold Link
  rw [frameOf_or (parentFlags_high hex), isHuge_or (parentFlags_high hex)]
  exact ⟨fun h => ⟨he, h.2⟩, fun h => ⟨or_ne_zero he, h.2⟩⟩

theorem onlyFlags_parent (h : fl &&& parentFlags = fl) : OnlyFlags fl := fun i hlow _ =>
  parentFlags_high h i (by omega)

/-- the new entry of a table that `map_to` made -/
theorem link_parent {f : PhysFrame} (hfl : fl &&& parentFlags = fl) (hp : isPresent fl = true) :
    Link (entry f.number fl) f.number :=
  link_entry f.lt (onlyFlags_parent hfl) hp (parentFlags_high hfl 7 (by decide))

theorem scratchIndex_ne_zero (h : n + 2 = 4) : tableIndex (n + 2) scratchPage ≠ 0 := by
  rw [h]
  decide

/-- **The kernel's own table.** -/
theorem mapsTo_scratch {k : ℕ}
    (hm : MapsTo scratchPage frame flags k t σ r τ) (h : Space A shared R ρ σ) (ht : ρ t = .scratch k) :
    ∃ ρ', Space A shared R ρ' τ ∧ ∀ P, Grows P ρ σ.mem ρ' τ.mem := by
  induction hm generalizing ρ with
  | page hz => exact ⟨ρ, h.scratchWrite ht (fun hk => absurd hk (by decide)) fun n f hk => absurd hk (by omega)⟩
  | mapped hne => exact ⟨ρ, h, fun P => .refl _ _ _⟩
  | noFrame hz halloc =>
    obtain ⟨rfl, rfl⟩ := h.stock.allocate_none halloc
    exact ⟨ρ, h, fun P => .refl _ _ _⟩
  | @grow n t σ τ alloc mem f fl r hz halloc hfl hp hrest ih =>
    have ha := (h.allocate halloc).cleared
    have hzero : ∀ j, update mem f.number (fun _ => (0 : Word)) f.number j = 0 := fun j => by
      rw [update_self]
    obtain ⟨hs, hg⟩ := h.newScratch ha hzero ht (fun g hl => hl.1 hz) (link_parent hfl hp)
    obtain ⟨ρ', h', hg'⟩ := ih hs (update_self ..)
    exact ⟨ρ', h', fun P => (hg P).trans (hg' P)⟩
  | @down n t f σ τ extra r hl hex hrest ih =>
    obtain ⟨hs, hg⟩ := h.scratchWrite (w := σ.mem t (tableIndex (n + 2) scratchPage) ||| extra) ht scratchIndex_ne_zero
      fun n' g hk hi => link_or hex hl.1 g
    obtain ⟨ρ', h', hg'⟩ := ih hs (h.scratch.below ht hl)
    exact ⟨ρ', h', fun P => (hg P).trans (hg' P)⟩
  | @huge n t σ extra hhuge hex =>
    have hne : σ.mem t (tableIndex (n + 2) scratchPage) ≠ 0 := fun he => by rw [he] at hhuge; exact absurd hhuge (by decide)
    exact ⟨ρ, h.scratchWrite ht scratchIndex_ne_zero fun n' g hk hi => link_or hex hne g⟩

/-- an assertion that says nothing about unused entries of the tables in `N` and about their links, as long as these stay
in `N` -/
structure Within (N : ℕ → Prop) (A : EntryProp) : Prop where
  zero : ∀ {k t} i, N t → A k t i 0
  link : ∀ {k t i w}, 2 ≤ k → N t → isHuge w = false → (∀ f, Link w f → N f) → A k t i w
  next : ∀ {k t i w f}, 2 ≤ k → N t → A k t i w → Link w f → N f

theorem Mild.within (hA : Mild A) : Within (fun _ => True) A :=
  ⟨fun _ _ => hA.zero _ _ _, fun hk _ hh _ => hA.link hk hh, fun _ _ _ _ => trivial⟩

/-- one level of `map_to` in a user table: on to the next table, or the end -/
theorem mapsTo_descend {N : ℕ → Prop} (hA : Within N A) {page : ℕ}
    (hm : MapsTo page frame flags (n + 2) t σ r τ) (h : Space A shared R ρ σ)
    (ht : ρ t = .table (n + 2)) (hN : N t) (hfresh : ∀ f, ρ f = .free → N f) :
    (∃ f σ' ρ', Space A shared R ρ' σ' ∧ (∀ P, Grows P ρ σ.mem ρ' σ'.mem) ∧ ρ' f = .table (n + 1) ∧ N f ∧
      Link (σ'.mem t (tableIndex (n + 2) page)) f ∧ MapsTo page frame flags (n + 1) f σ' r τ) ∨
    (r = .err .frameAllocationFailed ∧ τ = σ) ∨
    (n = 0 ∧ r = .err .parentEntryHugePage ∧ isHuge (σ.mem t (tableIndex (n + 2) page)) = true ∧
      ∃ extra, extra &&& parentFlags = extra ∧
        τ = σ.setEntry t (tableIndex (n + 2) page) (σ.mem t (tableIndex (n + 2) page) ||| extra)) := by
  cases hm with
  | noFrame hz halloc =>
    obtain ⟨rfl, rfl⟩ := h.stock.allocate_none halloc
    exact .inr (.inl ⟨rfl, rfl⟩)
  | @grow _ _ _ _ alloc mem f fl _ hz halloc hfl hp hrest =>
    have ha := (h.allocate halloc).cleared
    have hzero : ∀ j, update mem f.number (fun _ => (0 : Word)) f.number j = 0 := fun j => by
      rw [update_self]
    have hlink := link_parent (f := f) hfl hp
    have hNf := hfresh _ ha.free
    obtain ⟨hs, hg⟩ := h.newTable ha hzero ht (fun g hl => hl.1 hz) hlink (by rw [isPresent_entry f.lt, hp])
      (hA.link (by omega) hN hlink.2.1 fun g hl => hl.frame hlink ▸ hNf) fun j => hA.zero j hNf
    exact .inl ⟨_, _, _, hs, hg, update_self .., hNf, link_setEntry hlink, hrest⟩
  | @down _ _ f _ _ extra _ hl hex hrest =>
    have hw := (link_or hex hl.1 f).2 hl
    have hNf := hA.next (by omega) hN (h.tables.entries _ ht) hl
    obtain ⟨hs, hg⟩ := h.relink ht (link_or hex hl.1)
      ⟨fun _ _ => isPresent_or ((h.tables.shape _ ht).live (by omega) hl.1), fun _ => hw.2.1⟩
      (hA.link (by omega) hN hw.2.1 fun g hg => hg.frame hw ▸ hNf)
    exact .inl ⟨f, _, ρ, hs, hg, h.tables.below ht hl, hNf, link_setEntry hw, hrest⟩
  | @huge _ _ _ extra hhuge hex =>
    refine .inr (.inr ⟨?_, rfl, hhuge, extra, hex, rfl⟩)
    by_contra hn
    cases ((h.tables.shape _ ht).flat (by omega)).symm.trans hhuge

/-- the end of `map_to` at a huge page: its entry may have more flags than before -/
def HugeStop (A : EntryProp) (shared : ℕ → Prop) (R : Set ℕ) (ρ : Roles) (m : PhysMem) (l4 v : ℕ) (τ : Machine) :
    Prop :=
  ∃ ρ' σ' l3 l2 extra, Space A shared R ρ' σ' ∧ (∀ P, Grows P ρ m ρ' σ'.mem) ∧ Link (σ'.mem l4 (tableIndex 4 v)) l3 ∧
    Link (σ'.mem l3 (tableIndex 3 v)) l2 ∧ isHuge (σ'.mem l2 (tableIndex 2 v)) = true ∧
    extra &&& parentFlags = extra ∧
    τ = σ'.setEntry l2 (tableIndex 2 v) (σ'.mem l2 (tableIndex 2 v) ||| extra)

/-- **map_to** in a user table maps the page, or stops somewhere on the way. -/
theorem mapsTo_spec {N : ℕ → Prop} (hA : Within N A)
    (hm : MapsTo v frame flags 4 l4 σ r τ) (h : Space A shared R ρ σ) (hr : l4 ∈ R) (hN : N l4)
    (hfresh : ∀ f, ρ f = .free → N f) (hframe : frame < 2 ^ 40) (hfl : OnlyFlags flags)
    (hpage : isUser flags = true → ρ frame = .page)
    (hsh : isUser flags = true → shared frame ∨ Unmapped ρ σ.mem frame)
    (hleaf : ∀ t i, N t → A 1 t i (entry frame flags)) :
    match r with
    | .ok _ => MappedAt A shared R (fun f => isUser flags = true ∧ f = frame) ρ σ.mem l4 v (entry frame flags) τ
    | .err _ => (∃ ρ', Space A shared R ρ' τ ∧ ∀ P, Grows P ρ σ.mem ρ' τ.mem) ∨ HugeStop A shared R ρ σ.mem l4 v τ
    | .stuck => True := by
  have hroot := h.root hr
  -- a frame that is free later was free at the start
  have hlater : ∀ {ρ' m'}, (∀ P, Grows P ρ σ.mem ρ' m') → ∀ f, ρ' f = .free → N f := fun hg f hf => hfresh f (by
    by_contra hne
    rw [(hg fun _ => False).role hne] at hf
    exact hne hf)
  rcases mapsTo_descend hA hm h hroot hN hfresh with ⟨l3, σ₁, ρ₁, h₁, hg₁, hl3, hN₃, hlink4, hm₁⟩ | ⟨rfl, rfl⟩ | ⟨hn, -⟩
  · rcases mapsTo_descend hA hm₁ h₁ hl3 hN₃ (hlater hg₁) with
      ⟨l2, σ₂, ρ₂, h₂, hg₂, hl2, hN₂, hlink3, hm₂⟩ | ⟨rfl, rfl⟩ | ⟨hn, -⟩
    · rcases mapsTo_descend hA hm₂ h₂ hl2 hN₂ (hlater fun P => (hg₁ P).trans (hg₂ P)) with
        ⟨l1, σ₃, ρ₃, h₃, hg₃, hl1, hN₁, hlink2, hm₃⟩ | ⟨rfl, rfl⟩ | ⟨-, rfl, hhuge, extra, hex, rfl⟩
      · have hg : ∀ P, Grows P ρ σ.mem ρ₃ σ₃.mem := fun P => ((hg₁ P).trans (hg₂ P)).trans (hg₃ P)
        have hwalk : Walk σ₃.mem l4 v l1 :=
          (hg₂ fun _ => False).walk_of_links (hg₃ _) ((hg₁ fun _ => False).table hroot) hl3 hlink4 hlink3 hlink2
        cases hm₃ with
        | mapped hne => exact .inl ⟨ρ₃, h₃, hg⟩
        | page hz => exact h₃.mapLeaf hg hr hwalk hframe hfl hpage hsh (hleaf _ _ hN₁)
      · exact .inl ⟨ρ₂, h₂, fun P => (hg₁ P).trans (hg₂ P)⟩
      · exact .inr ⟨ρ₂, σ₂, l3, l2, extra, h₂, fun P => (hg₁ P).trans (hg₂ P),
          (hg₂ fun _ => False).link ((hg₁ fun _ => False).table hroot) hlink4, hlink3, hhuge, hex, rfl⟩
    · exact .inl ⟨ρ₁, h₁, hg₁⟩
    · omega
  · exact .inl ⟨ρ, h, fun P => .refl _ _ _⟩
  · omega

/-! ## Functions that use the mapper -/

section Mapper

variable {T : Mapper} (hT : T.Documented)

include hT

/-- `unmap` on a user table -/
theorem unmap_spec (hA : Mild A) (h : Space A shared R ρ σ) (hr : l4 ∈ R) :
    Spec (· = σ) (M.attempt (T.unmap l4 v) : K _)
      (fun res τ => Space A shared R ρ τ ∧ (∀ P, Grows P ρ σ.mem ρ τ.mem) ∧
        match res with
        | .ok f => ∃ t, Walk σ.mem l4 v t ∧ frameOf (σ.mem t (tableIndex 1 v)) = f.number ∧
            τ = σ.setEntry t (tableIndex 1 v) 0
        | .error _ => τ = σ) E := by
  refine Spec.ok (Spec.attempt_eq _ _) (fun res τ hres => ?_)
  cases res with
  | ok f =>
    obtain ⟨t, hw, -, hf, rfl⟩ := hT.unmap hres
    obtain ⟨hs, hg⟩ := h.clearLeaf hA (h.walk hr hw) (tableIndex 1 v)
    exact ⟨hs, hg, t, hw, hf, rfl⟩
  | error e =>
    obtain rfl := hT.unmap_err hres
    exact ⟨h, fun P => .refl _ _ _, rfl⟩

/-- **map_and_copy_segment_to**, given that the entries it writes are acceptable. -/
theorem mapAndCopySegmentTo_spec (hA : Mild A) (h : Space A shared R ρ σ) {P : ℕ → Prop} (hP : ∀ f, ρ f = .free → P f)
    {filesz memsz : ℕ} (hr : tablePhys / 4096 ∈ R)
    (hleaf : ∀ j, j < pageCount vaddr (vaddr + memsz) → ∀ ρ' τ t f, Space A shared R ρ' τ →
      Grows P ρ σ.mem ρ' τ.mem → Walk τ.mem (tablePhys / 4096) (firstPage vaddr + j * 4096) t →
      ¬ refuses (segmentFlags writable executable) (τ.mem t (tableIndex 1 (firstPage vaddr + j * 4096))) → f < 2 ^ 40 →
      ¬ (writable = true ∧ executable = true) →
      A 1 t (tableIndex 1 (firstPage vaddr + j * 4096))
        (installed (segmentFlags writable executable) (τ.mem t (tableIndex 1 (firstPage vaddr + j * 4096))) f)) :
    Spec (· = σ) (mapAndCopySegmentTo T tablePhys vaddr filesz memsz src writable executable)
      (fun _ => Grown A shared R P ρ σ.mem) (Grown A shared R P ρ σ.mem) := by
  have hstart : Grown A shared R P ρ σ.mem σ := h.grown P
  unfold mapAndCopySegmentTo
  refine Spec.check hstart fun hwx => ?_
  refine offset_bind hstart fun _ => Spec.ite ?_ ?_
  · intro _
    refine Spec.ite ?_ ?_
    · exact fun _ => Spec.ret hstart
    · exact fun _ => Spec.stop hstart
  intro _
  refine Spec.check hstart fun _ => ?_
  refine Spec.check hstart fun _ => ?_
  refine Spec.gets_bind ?_
  cases hpt : σ.pageTable with
  | none => exact Spec.stop hstart
  | some kernelPt =>
    have hk : ρ kernelPt = .scratch 4 := (h.scratch.root kernelPt).2 hpt
    dsimp only
    refine Spec.ite ?_ ?_
    · exact fun _ => Spec.halt
    intro _
    refine Spec.step (Spec.attempt_eq _ _) fun res σ₁ hres => ?_
    cases res with
    | error e =>
      obtain ⟨ρ₁, h₁, hg₁⟩ := mapsTo_scratch (hT.mapTo hres nofun) h hk
      refine Spec.stop ?_
      exact ⟨ρ₁, h₁, hg₁ P⟩
    | ok _ =>
      obtain ⟨ρ₁, h₁, hg₁⟩ := mapsTo_scratch (hT.mapTo hres nofun) h hk
      have hsegment : Spec (Grown A shared R P ρ σ.mem)
          (mapSegment (tablePhys / 4096) vaddr filesz memsz src (segmentFlags writable executable))
          (fun _ => Grown A shared R P ρ σ.mem) (Grown A shared R P ρ σ.mem) := mapSegment_spec hA hP hr
        (show OnlyFlags (segmentFlags writable executable) by
          cases writable <;> cases executable <;> exact onlyFlags_of_and (by decide))
        fun j hj ρ' τ t f h' hg' hw hnr hf => hleaf j hj ρ' τ t f h' hg' hw hnr hf (by simpa using hwx)
      refine Spec.step (Spec.here hsegment ⟨ρ₁, h₁, hg₁ P⟩)
        fun _ σ₂ ⟨ρ₂, h₂, hg₂⟩ => ?_
      refine Spec.step (Spec.attempt_eq _ _) fun res σ₃ hres => Spec.ret ?_
      cases res with
      | error e =>
        obtain rfl := hT.unmap_err hres
        exact ⟨ρ₂, h₂, hg₂⟩
      | ok f =>
        obtain ⟨t, ⟨l3, l2, h4, h3, h2⟩, -, -, rfl⟩ := hT.unmap hres
        have ht : ρ₂ t = .scratch 1 :=
          h₂.scratch.below (h₂.scratch.below (h₂.scratch.below (hg₂.scratch hk) h4) h3) h2
        obtain ⟨hs, hg⟩ := h₂.scratchWrite (w := 0) (i := tableIndex 1 scratchPage) ht
          (fun hk => absurd hk (by decide)) fun n f hn => absurd hn (by omega)
        exact ⟨ρ₂, hs, hg₂.trans (hg P)⟩

/-! ### Protection -/

omit hT in
theorem userEntry_eq_some (h : userEntry m t i = some e) :
    e = m t i ∧ m t i ≠ 0 ∧ isPresent (m t i) = true ∧ isUser (m t i) = true := by
  unfold userEntry at h
  dsimp only at h
  split_ifs at h with hc
  simp only [not_or, not_not] at hc
  exact ⟨(Option.some.inj h).symm, hc⟩

omit hT in
/-- the entry that `user_page_flags_in_table` finds is the one the walk ends at -/
theorem userPageFlags_walk (he : userPageFlagsInTable σ tablePhys v = some e)
    (hw : Walk σ.mem (tablePhys / 4096) v t) :
    e = σ.mem t (tableIndex 1 v) ∧ isPresent e = true ∧ isUser e = true := by
  obtain ⟨l3, l2, h4, h3, h2⟩ := hw
  unfold userPageFlagsInTable at he
  simp only [Option.bind_eq_bind, Option.bind_eq_some_iff, Option.pure_def] at he
  obtain ⟨-, -, he⟩ := he
  split at he
  · cases he
  split at he
  · cases he
  simp only [Option.bind_eq_some_iff] at he
  obtain ⟨l4e, hl4, l3e, hl3, he⟩ := he
  obtain ⟨rfl, -⟩ := userEntry_eq_some hl4
  rw [show frameOf (σ.mem (tablePhys / 4096) (p4Index v)) = l3 from h4.2.2] at hl3
  obtain ⟨rfl, -⟩ := userEntry_eq_some hl3
  rw [show isHuge (σ.mem l3 (p3Index v)) = false from h3.2.1] at he
  simp only [Bool.false_eq_true, if_false, Option.bind_eq_some_iff] at he
  obtain ⟨l2e, hl2, he⟩ := he
  rw [show frameOf (σ.mem l3 (p3Index v)) = l2 from h3.2.2] at hl2
  obtain ⟨rfl, -⟩ := userEntry_eq_some hl2
  rw [show isHuge (σ.mem l2 (p2Index v)) = false from h2.2.1] at he
  simp only [Bool.false_eq_true, if_false] at he
  rw [show frameOf (σ.mem l2 (p2Index v)) = t from h2.2.2] at he
  obtain ⟨rfl, -, hp, hu⟩ := userEntry_eq_some he
  exact ⟨rfl, hp, hu⟩

/-- one page of a protected range -/
theorem protectPage_spec {P : ℕ → Prop} {ρ₀ : Roles} {m₀ : PhysMem} (hr : tablePhys / 4096 ∈ R) {present : Bool}
    (hleaf : ∀ t i e, A 1 t i e → A 1 t i (entry (frameOf e) (protectedFlags e present writable executable))) :
    Spec (Grown A shared R P ρ₀ m₀) (protectPage T tablePhys present writable executable v)
      (fun _ => Grown A shared R P ρ₀ m₀) (Grown A shared R P ρ₀ m₀) := by
  refine Spec.pre fun σ ⟨ρ, h, hg⟩ => ?_
  have hfail : Grown A shared R P ρ₀ m₀ σ := ⟨ρ, h, hg⟩
  unfold protectPage
  refine Spec.gets_bind ?_
  cases he : userPageFlagsInTable (id σ) tablePhys v with
  | none => exact Spec.stop hfail
  | some e =>
    dsimp only
    refine Spec.ite ?_ ?_
    · exact fun _ => Spec.stop hfail
    intro _
    refine Spec.step (Spec.attempt_eq _ _) fun res τ hres => ?_
    cases res with
    | error e =>
      obtain rfl := hT.updateFlags_err hres
      exact Spec.stop hfail
    | ok _ =>
      obtain ⟨t, hw, -, rfl⟩ := hT.updateFlags hres
      refine Spec.ret ?_
      obtain ⟨rfl, hp, hu⟩ := userPageFlags_walk he hw
      have ht := h.walk hr hw
      have hfl : OnlyFlags (protectedFlags (σ.mem t (tableIndex 1 v)) present writable executable) := by
        unfold protectedFlags
        refine ((onlyFlags_flagsOf _).and _).or ?_
        cases present <;> cases writable <;> cases executable <;> exact onlyFlags_of_and (by decide)
      obtain ⟨hs, hgs, -⟩ := h.reflagLeaf hg ht hu hfl (hleaf _ _ _ (h.tables.entries _ ht))
      exact ⟨ρ, hs, hgs⟩

/-- **protect_user_range_in_table** -/
theorem protectUserRangeInTable_spec (h : Space A shared R ρ σ) {addr len : ℕ} (hr : tablePhys / 4096 ∈ R)
    {present : Bool}
    (hleaf : ¬ (present = true ∧ writable = true ∧ executable = true) → ∀ t i e, A 1 t i e →
      A 1 t i (entry (frameOf e) (protectedFlags e present writable executable))) (P : ℕ → Prop) :
    Spec (· = σ) (protectUserRangeInTable T tablePhys addr len present writable executable)
      (fun _ => Grown A shared R P ρ σ.mem) (Grown A shared R P ρ σ.mem) := by
  have hstart : Grown A shared R P ρ σ.mem σ := h.grown P
  unfold protectUserRangeInTable
  refine Spec.check hstart fun hwx => ?_
  refine Spec.ite ?_ ?_
  · exact fun _ => Spec.ret hstart
  intro _
  refine Spec.check hstart fun _ => ?_
  refine Spec.check hstart fun _ => ?_
  refine offset_bind hstart fun _ => ?_
  refine Spec.mono (Spec.forRange (I := fun _ => Grown A shared R P ρ σ.mem) _ 0 fun j _ _ =>
    protectPage_spec hT hr (hleaf (by simpa [and_assoc] using hwx))) (fun s hs => hs ▸ hstart) (fun _ _ hs => hs)
    fun _ hs => hs

/-! ### Physical ranges -/

/-- the page is part of a huge page -/
def HugeAt (m : PhysMem) (l4 v : ℕ) : Prop :=
  ∃ l3 l2, Link (m l4 (tableIndex 4 v)) l3 ∧ Link (m l3 (tableIndex 3 v)) l2 ∧ isHuge (m l2 (tableIndex 2 v)) = true

/-- one page of a physical range -/
theorem mapPhysicalPage_spec (hA : Mild A) {P : ℕ → Prop} {ρ₀ : Roles} {m₀ : PhysMem} (hr : l4 ∈ R)
    (hpage : phys < 2 ^ 52 → ρ₀ (phys / 4096) = .page) (hshared : shared (phys / 4096)) (hP : P (phys / 4096))
    (hleaf : ∀ t i, A 1 t i (entry (phys / 4096) physicalFlags))
    (hhuge : ∀ ρ' τ, Space A shared R ρ' τ → Grows P ρ₀ m₀ ρ' τ.mem → ¬ HugeAt τ.mem l4 v) :
    Spec (Grown A shared R P ρ₀ m₀) (mapPhysicalPage T l4 v phys)
      (fun _ => Grown A shared R P ρ₀ m₀) (Grown A shared R P ρ₀ m₀) := by
  -- a call of `map_to`, from any state on the way
  have hmap : ∀ {σ τ res}, Grown A shared R P ρ₀ m₀ σ → phys < 2 ^ 52 →
      T.mapTo l4 v (phys / 4096) physicalFlags σ = (res, τ) → res ≠ .stuck → Grown A shared R P ρ₀ m₀ τ := by
    rintro σ τ res ⟨ρ, h, hg⟩ hlt hcall hres
    have hspec := mapsTo_spec hA.within (hT.mapTo hcall hres) h hr trivial (fun _ _ => trivial) (by omega)
      (onlyFlags_of_and (by decide)) (fun _ => hg.page (hpage hlt)) (fun _ => .inl hshared) fun t i _ => hleaf t i
    cases res with
    | ok _ =>
      obtain ⟨ρ', h', hg', -⟩ := hspec
      exact ⟨ρ', h', hg.trans (hg'.mono fun f hf => hf.2 ▸ hP)⟩
    | err e =>
      rcases hspec with ⟨ρ', h', hg'⟩ | ⟨ρ', σ', l3, l2, extra, h', hg', hl4, hl3, hh, -⟩
      · exact ⟨ρ', h', hg.trans (hg' P)⟩
      · exact absurd ⟨l3, l2, hl4, hl3, hh⟩ (hhuge ρ' σ' h' (hg.trans (hg' P)))
    | stuck => exact absurd rfl hres
  refine Spec.pre fun σ hgrown => ?_
  unfold mapPhysicalPage
  refine Spec.ite ?_ ?_
  · exact fun _ => Spec.halt
  intro hc
  have hlt : phys < 2 ^ 52 := by
    rw [not_or] at hc
    omega
  refine Spec.step (Spec.attempt_eq _ _) fun res σ₁ hres => ?_
  rcases res with e | _
  · have hgrown₁ := hmap hgrown hlt hres (by simp)
    cases e with
    | pageAlreadyMapped old =>
      obtain ⟨ρ₁, h₁, hg₁⟩ := id hgrown₁
      refine Spec.step (unmap_spec hT hA h₁ hr) fun _ σ₂ h₂ => ?_
      refine Spec.step (Spec.attempt_eq _ _) fun res σ₃ hres => ?_
      have hgrown₂ : Grown A shared R P ρ₀ m₀ σ₂ := ⟨ρ₁, h₂.1, hg₁.trans (h₂.2.1 P)⟩
      rcases res with e | _
      · exact Spec.stop (hmap hgrown₂ hlt hres (by simp))
      · exact Spec.ret (hmap hgrown₂ hlt hres (by simp))
    | frameAllocationFailed => exact Spec.stop hgrown₁
    | parentEntryHugePage => exact Spec.stop hgrown₁
  · exact Spec.ret (hmap hgrown hlt hres (by simp))

/-- **map_physical_range_to_user**, of frames in the role of pages and outside huge pages -/
theorem mapPhysicalRangeToUser_spec (hA : Mild A) (h : Space A shared R ρ σ) {P : ℕ → Prop}
    {size : ℕ} (hr : tablePhys / 4096 ∈ R)
    (hpage : ∀ j, j < physicalPages size → firstPage phys + j * 4096 < 2 ^ 52 →
      ρ ((firstPage phys + j * 4096) / 4096) = .page)
    (hframe : ∀ j, j < physicalPages size → shared ((firstPage phys + j * 4096) / 4096) ∧
      P ((firstPage phys + j * 4096) / 4096))
    (hleaf : ∀ f t i, A 1 t i (entry f physicalFlags))
    (hhuge : ∀ j, j < physicalPages size → ∀ ρ' τ, Space A shared R ρ' τ → Grows P ρ σ.mem ρ' τ.mem →
      ¬ HugeAt τ.mem (tablePhys / 4096) (firstPage virt + j * 4096)) :
    Spec (· = σ) (mapPhysicalRangeToUser T tablePhys virt phys size)
      (fun _ => Grown A shared R P ρ σ.mem) (Grown A shared R P ρ σ.mem) := by
  have hstart : Grown A shared R P ρ σ.mem σ := h.grown P
  unfold mapPhysicalRangeToUser
  refine offset_bind hstart fun _ => Spec.ite ?_ ?_
  · exact fun _ => Spec.ret hstart
  intro _
  refine Spec.mono (Spec.forRange (I := fun _ => Grown A shared R P ρ σ.mem) _ 0 fun j _ hj => ?_)
    (fun s hs => hs ▸ hstart) (fun _ _ hs => hs) fun _ hs => hs
  rw [Nat.zero_add] at hj
  exact mapPhysicalPage_spec hT hA hr (hpage j hj) (hframe j hj).1 (hframe j hj).2 (hleaf _) (hhuge j hj)

end Mapper

end SwiftCore.Mem
