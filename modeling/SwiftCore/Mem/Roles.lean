/-
What each physical frame is used for, and the shape of the user page tables.

Every frame has one `Role`: it waits in the allocator (or has never been handed out), it is a user table of some level,
it is one of the kernel's tables on the way to the scratch page, or it is anything else, a `page`. `Space` says that the
memory agrees with the roles: tables link to tables one level below and to nothing twice, the level 4 tables are the live
address spaces, user entries map frames in the role of pages, and the allocator owns exactly the free frames.

The statement is local: one word of memory is checked against the roles of two frames. The lemmas below say what each
kind of change does to it, and everything the paging code does is made of these changes.
- `Space.data`, `Space.allocate`, `Space.deallocate`: pages, new frames and frames given back.
- `Space.leaf`, `Space.relink`, `Space.grow`: entries of user tables.
- `Grows`: what all of these keep of the tables that were there.
`A` is an assertion about entries and `shared` a set of frames that may be mapped twice; both are left open here.
-/
import SwiftCore.Mem.AddressSpace
import SwiftCore.Mem.FrameOwnership

namespace SwiftCore.Mem

open Fallible BitmapFrameAllocator Function

/-! ## Words and frames of memory -/

theorem setWord_apply (m : PhysMem) (t i u j : ℕ) (w : Word) :
    setWord m t i w u j = if u = t ∧ j = i then w else m u j := by
  unfold setWord
  by_cases hu : u = t
  · subst hu
    by_cases hj : j = i
    · subst hj
      simp
    · simp [hj]
  · simp [hu]

@[simp] theorem setWord_self (m : PhysMem) (t i : ℕ) (w : Word) : setWord m t i w t i = w := by simp [setWord_apply]

variable {t u i n k : ℕ} {w : Word} {E : Machine → Prop}

theorem setWord_of_ne (m : PhysMem) (h : u ≠ t) (i : ℕ) (w : Word) : setWord m t i w u = m u := by
  unfold setWord
  exact update_of_ne h _ _

/-- a word after a write: the new one, or another word as it was -/
theorem setWord_cases (m : PhysMem) (t i : ℕ) (w : Word) (u j : ℕ) :
    (u = t ∧ j = i ∧ setWord m t i w u j = w) ∨ (¬ (u = t ∧ j = i) ∧ setWord m t i w u j = m u j) := by
  rw [setWord_apply]
  by_cases h : u = t ∧ j = i
  · exact .inl ⟨h.1, h.2, if_pos h⟩
  · exact .inr ⟨h, if_neg h⟩

@[simp] theorem not_link_zero (f : ℕ) : ¬ Link 0 f := fun h => h.1 rfl

theorem Link.frame {e : Word} {f g : ℕ} (hf : Link e f) (hg : Link e g) : f = g := hf.2.2.symm.trans hg.2.2

/-! ## Roles -/

/-- what a frame is used for -/
inductive Role
  /-- usable and not handed out -/
  | free
  /-- none of the others: data, kernel memory, devices -/
  | page
  | table (level : ℕ)
  /-- a table of the kernel on the way to the scratch page -/
  | scratch (level : ℕ)
deriving DecidableEq, Repr

abbrev Roles := ℕ → Role

/-- a frame with a new role: the other roles are where they were -/
theorem update_role_iff {ρ : Roles} {f : ℕ} {x r : Role} (hold : ρ f ≠ r) (hnew : x ≠ r) :
    update ρ f x u = r ↔ ρ u = r := by
  by_cases hu : u = f
  · rw [hu, update_self]
    exact iff_of_false hnew hold
  · rw [update_of_ne hu]

/-- an assertion about an entry: level and frame of its table, its index, the word -/
abbrev EntryProp := ℕ → ℕ → ℕ → Word → Prop

/-- what holds of all entries of tables, and of a new word, holds after the write -/
theorem entries_setWord {P : EntryProp} {ρ : Roles} {m : PhysMem}
    (hold : ∀ {u k} j, ρ u = .table k → P k u j (m u j)) (ht : ρ t = .table n) (hnew : P n t i w) (j : ℕ)
    (hu : ρ u = .table k) : P k u j (setWord m t i w u j) := by
  rcases setWord_cases m t i w u j with ⟨rfl, rfl, hw⟩ | ⟨-, hw⟩
  · rw [ht, Role.table.injEq] at hu
    rw [hw, ← hu]
    exact hnew
  · rw [hw]
    exact hold j hu

/-- no user entry maps the frame -/
def Unmapped (ρ : Roles) (m : PhysMem) (f : ℕ) : Prop :=
  ∀ t i, ρ t = .table 1 → isUser (m t i) = true → frameOf (m t i) ≠ f

/-- entries of the upper tables: present when in use, and huge pages only at level 2 -/
structure Shape (level : ℕ) (e : Word) : Prop where
  live : 2 ≤ level → e ≠ 0 → isPresent e = true
  flat : 3 ≤ level → isHuge e = false

theorem shape_zero (level : ℕ) : Shape level 0 := ⟨fun _ h => absurd rfl h, fun _ => by decide⟩

theorem shape_one (e : Word) : Shape 1 e := ⟨fun h => absurd h (by decide), fun h => absurd h (by decide)⟩

/-- the tables under the level 4 tables `R` -/
structure Tables (A : EntryProp) (shared : ℕ → Prop) (R : Set ℕ) (ρ : Roles) (m : PhysMem) : Prop where
  root : ∀ t, ρ t = .table 4 ↔ t ∈ R
  level : ∀ {t k}, ρ t = .table k → 1 ≤ k ∧ k ≤ 4
  below : ∀ {t i f n}, ρ t = .table (n + 2) → Link (m t i) f → ρ f = .table (n + 1)
  shape : ∀ {t k} i, ρ t = .table k → Shape k (m t i)
  only : ∀ {t u i j f n}, ρ t = .table (n + 2) → ρ u = .table (n + 2) → Link (m t i) f → Link (m u j) f → t = u ∧ i = j
  parent : ∀ {f n}, ρ f = .table (n + 1) → n < 3 → ∃ t i, ρ t = .table (n + 2) ∧ Link (m t i) f
  mapped : ∀ {t i}, ρ t = .table 1 → isUser (m t i) = true → ρ (frameOf (m t i)) = .page
  sole : ∀ {t u i j}, ρ t = .table 1 → ρ u = .table 1 → isUser (m t i) = true → isUser (m u j) = true →
    frameOf (m t i) = frameOf (m u j) → ¬ shared (frameOf (m t i)) → t = u ∧ i = j
  entries : ∀ {t k} i, ρ t = .table k → A k t i (m t i)

variable {A : EntryProp} {shared : ℕ → Prop} {R : Set ℕ} {ρ ρ' : Roles} {m m' : PhysMem}

namespace Tables

section

variable (h : Tables A shared R ρ m)

include h

/-- changes that touch no link and no user page -/
theorem transfer {A' : EntryProp} (hrole : ∀ t k, ρ' t = .table k ↔ ρ t = .table k)
    (hlink : ∀ t n i f, ρ t = .table (n + 2) → (Link (m' t i) f ↔ Link (m t i) f))
    (hshape : ∀ t k i, ρ t = .table k → Shape k (m' t i))
    (hleaf : ∀ t, ρ t = .table 1 → m' t = m t)
    (hmapped : ∀ t i, ρ t = .table 1 → isUser (m t i) = true → ρ' (frameOf (m t i)) = .page)
    (hA : ∀ t k i, ρ t = .table k → A' k t i (m' t i)) : Tables A' shared R ρ' m' where
  root t := (hrole t 4).trans (h.root t)
  level ht := h.level ((hrole _ _).1 ht)
  below ht hl := (hrole _ _).2 (h.below ((hrole _ _).1 ht) ((hlink _ _ _ _ ((hrole _ _).1 ht)).1 hl))
  shape i ht := hshape _ _ i ((hrole _ _).1 ht)
  only ht hu hl hl' :=
    h.only ((hrole _ _).1 ht) ((hrole _ _).1 hu) ((hlink _ _ _ _ ((hrole _ _).1 ht)).1 hl)
      ((hlink _ _ _ _ ((hrole _ _).1 hu)).1 hl')
  parent hf hn := by
    obtain ⟨t, i, ht, hl⟩ := h.parent ((hrole _ _).1 hf) hn
    exact ⟨t, i, (hrole _ _).2 ht, (hlink _ _ _ _ ht).2 hl⟩
  mapped {t i} ht hu := by
    have ht := (hrole _ _).1 ht
    rw [hleaf t ht] at hu ⊢
    exact hmapped t i ht hu
  sole {t u i j} ht hu huser huser' heq hshared := by
    have ht := (hrole _ _).1 ht
    have hu := (hrole _ _).1 hu
    rw [hleaf t ht] at huser heq hshared
    rw [hleaf u hu] at huser' heq
    exact h.sole ht hu huser huser' heq hshared
  entries i ht := hA _ _ i ((hrole _ _).1 ht)

/-- changes outside the tables -/
theorem same (hrole : ∀ t k, ρ' t = .table k ↔ ρ t = .table k) (hm : ∀ {t k}, ρ t = .table k → m' t = m t)
    (hmapped : ∀ t i, ρ t = .table 1 → isUser (m t i) = true → ρ' (frameOf (m t i)) = .page) :
    Tables A shared R ρ' m' := by
  refine h.transfer hrole (fun t n i f ht => ?_) (fun t k i ht => ?_) (fun t ht => hm ht) hmapped fun t k i ht => ?_
  · rw [hm ht]
  · rw [hm ht]
    exact h.shape i ht
  · rw [hm ht]
    exact h.entries i ht

/-- a table entry rewritten with the same link, or the same lack of one -/
theorem relink (ht : ρ t = .table (n + 2))
    (hlink : ∀ f, Link w f ↔ Link (m t i) f) (hshape : Shape (n + 2) w) (hA : A (n + 2) t i w) :
    Tables A shared R ρ (setWord m t i w) := by
  refine h.transfer (fun _ _ => .rfl) (fun u _ j f _ => ?_)
    (fun u k j hu => entries_setWord (P := fun k _ _ => Shape k) (m := m) h.shape ht hshape j hu) (fun u hu => ?_)
    (fun u j hu huser => h.mapped hu huser) fun u k j hu => entries_setWord (m := m) h.entries ht hA j hu
  · rcases setWord_cases m t i w u j with ⟨rfl, rfl, hw⟩ | ⟨-, hw⟩
    · rw [hw]
      exact hlink f
    · rw [hw]
  · refine setWord_of_ne m (fun he => ?_) i w
    rw [he, ht, Role.table.injEq] at hu
    omega

/-- an entry of a level 1 table -/
theorem leaf (ht : ρ t = .table 1) (hpage : isUser w = true → ρ (frameOf w) = .page)
    (hsole : isUser w = true → ¬ shared (frameOf w) → ∀ u j, ρ u = .table 1 → isUser (m u j) = true →
      frameOf (m u j) = frameOf w → u = t ∧ j = i) (hA : A 1 t i w) :
    Tables A shared R ρ (setWord m t i w) := by
  have hother : ∀ {u n}, ρ u = .table (n + 2) → setWord m t i w u = m u := fun {u n} hu =>
    setWord_of_ne m (fun he => by rw [he, ht, Role.table.injEq] at hu; omega) i w
  refine ⟨h.root, h.level, fun {u j f n} hu hl => ?_, entries_setWord (P := fun k _ _ => Shape k) (m := m) h.shape ht (shape_one w),
    fun {u v j l f n} hu hv hl hl' => ?_, fun {f n} hf hn => ?_, fun {u j} hu huser => ?_,
    fun {u v j l} hu hv huser huser' heq hshared => ?_, entries_setWord (m := m) h.entries ht hA⟩
  · rw [hother hu] at hl
    exact h.below hu hl
  · rw [hother hu] at hl
    rw [hother hv] at hl'
    exact h.only hu hv hl hl'
  · obtain ⟨u, j, hu, hl⟩ := h.parent hf hn
    exact ⟨u, j, hu, by rwa [hother hu]⟩
  · rcases setWord_cases m t i w u j with ⟨rfl, rfl, hw⟩ | ⟨-, hw⟩
    · rw [hw] at huser ⊢
      exact hpage huser
    · rw [hw] at huser ⊢
      exact h.mapped hu huser
  · -- the new entry against an old one, either way round, or two old ones
    rcases setWord_cases m t i w u j with ⟨hut, hji, hw⟩ | ⟨-, hw⟩ <;>
      rcases setWord_cases m t i w v l with ⟨hvt, hli, hw'⟩ | ⟨-, hw'⟩
    · exact ⟨hut.trans hvt.symm, hji.trans hli.symm⟩
    · rw [hw] at huser heq hshared
      rw [hw'] at huser' heq
      obtain ⟨hvt, hli⟩ := hsole huser hshared v l hv huser' heq.symm
      exact ⟨hut.trans hvt.symm, hji.trans hli.symm⟩
    · rw [hw'] at huser' heq
      rw [hw] at huser heq hshared
      rw [heq] at hshared
      obtain ⟨hut, hji⟩ := hsole huser' hshared u j hu huser heq
      exact ⟨hut.trans hvt.symm, hji.trans hli.symm⟩
    · rw [hw'] at huser' heq
      rw [hw] at huser heq hshared
      exact h.sole hu hv huser huser' heq hshared

/-- a cleared frame becomes the table below an entry that had none -/
theorem grow {f : ℕ} (ht : ρ t = .table (n + 2)) (hf : ρ f = .page)
    (hun : Unmapped ρ m f) (hzero : ∀ j, m f j = 0) (hw : Link w f) (hnone : ∀ g, ¬ Link (m t i) g)
    (hshape : Shape (n + 2) w) (hA : A (n + 2) t i w) (hA' : ∀ j, A (n + 1) f j 0) :
    Tables A shared R (update ρ f (.table (n + 1))) (setWord m t i w) := by
  have hft : f ≠ t := fun he => by rw [he, ht] at hf; cases hf
  have hlevel := h.level ht
  -- a table other than the new one was a table before
  have hold : ∀ {u k}, update ρ f (.table (n + 1)) u = .table k → u ≠ f → ρ u = .table k := fun hu hne => by
    rwa [update_of_ne hne] at hu
  have hkeep : ∀ {u k}, ρ u = .table k → update ρ f (.table (n + 1)) u = .table k := fun {u k} hu => by
    rwa [update_of_ne (fun he => by rw [he, hf] at hu; cases hu)]
  have hblank : ∀ j, setWord m t i w f j = 0 := fun j => by rw [setWord_of_ne m hft, hzero]
  -- the links after the change
  have hlinks : ∀ {u j g k}, update ρ f (.table (n + 1)) u = .table (k + 2) → Link (setWord m t i w u j) g →
      (u = t ∧ j = i ∧ g = f) ∨ (ρ u = .table (k + 2) ∧ Link (m u j) g) := by
    intro u j g k hu hl
    have huf : u ≠ f := fun he => by rw [he, hblank] at hl; exact not_link_zero g hl
    rcases setWord_cases m t i w u j with ⟨rfl, rfl, hw'⟩ | ⟨-, hw'⟩
    · rw [hw'] at hl
      exact .inl ⟨rfl, rfl, hl.frame hw⟩
    · rw [hw'] at hl
      exact .inr ⟨hold hu huf, hl⟩
  -- the level 1 entries that are in use after the change
  have hleaf : ∀ {u j}, update ρ f (.table (n + 1)) u = .table 1 → isUser (setWord m t i w u j) = true →
      ρ u = .table 1 ∧ setWord m t i w u j = m u j := by
    intro u j hu huser
    have huf : u ≠ f := fun he => by rw [he, hblank] at huser; exact absurd huser (by decide)
    have hu := hold hu huf
    rcases setWord_cases m t i w u j with ⟨rfl, rfl, -⟩ | ⟨-, hw'⟩
    · rw [ht, Role.table.injEq] at hu
      omega
    · exact ⟨hu, hw'⟩
  refine ⟨fun u => ?_, fun {u k} hu => ?_, fun {u j g k} hu hl => ?_, fun {u k} j hu => ?_,
    fun {u v j l g k} hu hv hl hl' => ?_, fun {g k} hg hk => ?_, fun {u j} hu huser => ?_,
    fun {u v j l} hu hv huser huser' heq hshared => ?_, fun {u k} j hu => ?_⟩
  · rw [← h.root u]
    constructor
    · intro hu
      refine hold hu fun he => ?_
      rw [he, update_self, Role.table.injEq] at hu
      omega
    · exact hkeep
  · by_cases huf : u = f
    · rw [huf, update_self, Role.table.injEq] at hu
      omega
    · exact h.level (hold hu huf)
  · rcases hlinks hu hl with ⟨rfl, rfl, rfl⟩ | ⟨hu', hl'⟩
    · rw [hkeep ht, Role.table.injEq] at hu
      rw [update_self, Role.table.injEq]
      omega
    · exact hkeep (h.below hu' hl')
  · by_cases huf : u = f
    · rw [huf, hblank]
      exact shape_zero k
    · exact entries_setWord (P := fun k _ _ => Shape k) (m := m) h.shape ht hshape j (hold hu huf)
  · rcases hlinks hu hl with ⟨rfl, rfl, rfl⟩ | ⟨hu', hl₁⟩ <;> rcases hlinks hv hl' with ⟨rfl, rfl, hg⟩ | ⟨hv', hl₂⟩
    · exact ⟨rfl, rfl⟩
    · have := h.below hv' hl₂
      cases hf.symm.trans this
    · have := h.below hu' hl₁
      rw [hg, hf] at this
      cases this
    · exact h.only hu' hv' hl₁ hl₂
  · by_cases hgf : g = f
    · rw [hgf, update_self, Role.table.injEq] at hg
      obtain rfl : k = n := by omega
      exact ⟨t, i, hkeep ht, by rw [setWord_self, hgf]; exact hw⟩
    · obtain ⟨u, j, hu, hl⟩ := h.parent (hold hg hgf) hk
      refine ⟨u, j, hkeep hu, ?_⟩
      rcases setWord_cases m t i w u j with ⟨rfl, rfl, -⟩ | ⟨-, hw'⟩
      · exact absurd hl (hnone g)
      · rwa [hw']
  · obtain ⟨hu', hw'⟩ := hleaf hu huser
    rw [hw'] at huser ⊢
    rw [update_of_ne (hun u j hu' huser)]
    exact h.mapped hu' huser
  · obtain ⟨hu', hw'⟩ := hleaf hu huser
    obtain ⟨hv', hw''⟩ := hleaf hv huser'
    rw [hw'] at huser heq hshared
    rw [hw''] at huser' heq
    exact h.sole hu' hv' huser huser' heq hshared
  · by_cases huf : u = f
    · rw [huf, update_self, Role.table.injEq] at hu
      rw [huf, hblank, ← hu]
      exact hA' j
    · exact entries_setWord (m := m) h.entries ht hA j (hold hu huf)

end

end Tables

/-! ## The allocator's frames -/

/-- the allocator owns the free frames: it is in a state that its own operations reach, and has handed out the usable
frames with another role -/
structure Stock (ρ : Roles) (a : BitmapFrameAllocator) (m : PhysMem) : Prop where
  aligned : PageAligned a.memoryMap
  frames : ∃ held freed, Frames.Inv a.memoryMap a.physOffset ⟨a, m, held, freed⟩ ∧
    (freed ≠ [] → a.physOffset ≠ 0) ∧ ∀ f, f ∈ held ↔ UsableFrame a.memoryMap f ∧ ρ f.number ≠ .free
  usable : ∀ n, ρ n = .free → ∃ f : PhysFrame, f.number = n ∧ UsableFrame a.memoryMap f

namespace Stock

variable {a a' : BitmapFrameAllocator} {f : PhysFrame}

variable (h : Stock ρ a m)

include h

/-- writes outside the free frames, and roles exchanged among the frames in use -/
theorem transfer (hrole : ∀ n, ρ' n = .free ↔ ρ n = .free) (hm : ∀ n, ρ n = .free → m' n = m n) : Stock ρ' a m' := by
  obtain ⟨held, freed, hi, hoff, hheld⟩ := h.frames
  refine ⟨h.aligned, ⟨held, freed, ⟨hi.map_eq, hi.off_eq, ?_, hi.apart, hi.cover, hi.base⟩, hoff, fun f => ?_⟩,
    fun n hn => h.usable n ((hrole n).1 hn)⟩
  · refine Links.Chain.congr hi.list fun b hb => ?_
    obtain ⟨g, hg, rfl⟩ := List.mem_map.1 hb
    have hfree : ρ g.number = .free := by
      by_contra hne
      exact hi.apart g hg ((hheld g).2 ⟨((hi.cover g).1 (.inr hg)).1, hne⟩)
    rw [Frames.link_startAddress, Frames.link_startAddress]
    exact congrArg (fun words => (words 0).toNat) (hm _ hfree)
  · rw [hheld f, Ne, Ne, hrole]

theorem allocate (hcall : a.allocateFrame m = some (some f, a', m')) :
    ρ f.number = .free ∧ 0 < f.number ∧ Stock (update ρ f.number .page) a' m' ∧
      ∀ n, n ≠ f.number → m' n = m n := by
  obtain ⟨held, freed, hi, hoff, hheld⟩ := h.frames
  have hinv := Frames.inv_allocate hi hoff h.aligned
  have hcases := Frames.allocateFrame_cases hi.map_eq hi.list hoff hcall
  simp only [Frames.step, hcall] at hinv
  have hmap : a'.memoryMap = a.memoryMap := hinv.map_eq
  have hoff' : a'.physOffset = a.physOffset := hinv.off_eq
  -- the frame was not held, whichever way it was found
  have hnew : UsableFrame a.memoryMap f ∧ f ∉ held ∧ 0x100000 ≤ f.startAddress ∧ ∀ n, n ≠ f.number → m' n = m n := by
    rcases hcases with ⟨g, l, hl, hg, -, hm⟩ | ⟨-, g, hg, huse, hle, -, -, hm⟩ | ⟨-, hg, -⟩
    · cases hg
      have hmem : f ∈ freed := by rw [show freed = f :: l from hl]; exact List.mem_cons_self ..
      have hcover := (hi.cover f).1 (.inr hmem)
      refine ⟨hcover.1, hi.apart f hmem, hcover.2.1, fun n hn => ?_⟩
      rw [hm, Frames.write_startAddress]
      exact update_of_ne hn _ _
    · cases hg
      have hbase : 0x100000 / 4096 ≤ a.nextFrame := hi.base
      have hle : a.nextFrame ≤ f.number := hle
      refine ⟨(usableFrame_iff h.aligned huse).1 rfl, fun hmem => ?_, by unfold PhysFrame.startAddress; omega, fun n _ => by rw [hm]⟩
      have : f.number < a.nextFrame := ((hi.cover f).1 (.inl hmem)).2.2
      omega
    · cases hg
  obtain ⟨huse, hnot, hbase, hmem⟩ := hnew
  have hfree : ρ f.number = .free := by
    by_contra hne
    exact hnot ((hheld f).2 ⟨huse, hne⟩)
  refine ⟨hfree, by unfold PhysFrame.startAddress at hbase; omega,
    ⟨hmap ▸ h.aligned, ⟨insert f held, freed.erase f, ?_, fun hne => ?_, fun g => ?_⟩, fun n hn => ?_⟩, hmem⟩
  · rw [hmap, hoff']
    exact hinv
  · rw [hoff']
    exact hoff fun he => hne (by rw [he]; rfl)
  · rw [Finset.mem_insert, hheld g, hmap]
    by_cases hg : g = f
    · subst hg
      simp [huse]
    · rw [update_of_ne fun he => hg (PhysFrame.ext_number he)]
      simp [hg]
  · rw [update_apply] at hn
    split_ifs at hn
    rw [hmap]
    exact h.usable n hn

theorem allocate_none (hcall : a.allocateFrame m = some (none, a', m')) : a' = a ∧ m' = m := by
  obtain ⟨held, freed, hi, hoff, -⟩ := h.frames
  rcases Frames.allocateFrame_cases hi.map_eq hi.list hoff hcall with ⟨_, _, _, hr, _⟩ | ⟨_, _, hr, _⟩ | ⟨-, -, ha, hm, -⟩
  · cases hr
  · cases hr
  · exact ⟨ha, hm⟩

theorem deallocate (hf : ρ f.number = .page) {b : Bool} (hcall : a.deallocateFrame m f = some (b, a', m')) :
    (a' = a ∧ m' = m) ∨ (Stock (update ρ f.number .free) a' m' ∧ ∀ n, n ≠ f.number → m' n = m n) := by
  rcases Frames.deallocateFrame_cases hcall with ⟨-, ha, hm, -⟩ | ⟨rfl, hu, hne, -, ha, hm⟩
  · exact .inl ⟨ha, hm⟩
  · have huse := (usableFrame_iff h.aligned hu).1 rfl
    obtain ⟨held, freed, hi, -, hheld⟩ := h.frames
    have hinv := Frames.inv_deallocate hi ((hheld f).2 ⟨huse, by rw [hf]; nofun⟩)
    simp only [Frames.step, hcall] at hinv
    have hmap : a'.memoryMap = a.memoryMap := hinv.map_eq
    have hoff' : a'.physOffset = a.physOffset := hinv.off_eq
    refine .inr ⟨⟨hmap ▸ h.aligned, ⟨held.erase f, f :: freed, ?_, fun _ => by rwa [hoff'], fun g => ?_⟩,
      fun n hn => ?_⟩, fun n hn => ?_⟩
    · rw [hmap, hoff']
      exact hinv
    · rw [Finset.mem_erase, hheld g, hmap]
      by_cases hg : g = f
      · subst hg
        simp
      · rw [update_of_ne fun he => hg (PhysFrame.ext_number he)]
        simp [hg]
    · rw [hmap]
      by_cases hnf : n = f.number
      · exact ⟨f, hnf.symm, huse⟩
      · rw [update_of_ne hnf] at hn
        exact h.usable n hn
    · rw [hm, Frames.write_startAddress]
      exact update_of_ne hn _ _

end Stock

/-! ## The kernel's tables on the way to the scratch page -/

structure Scratch (ρ : Roles) (pageTable : Option ℕ) (kernelL4 : ℕ) (m : PhysMem) : Prop where
  kernel : pageTable = some (kernelL4 / 4096)
  root : ∀ t, ρ t = .scratch 4 ↔ pageTable = some t
  level : ∀ {t k}, ρ t = .scratch k → 1 ≤ k ∧ k ≤ 4
  /-- the entry for the low half, which every user table starts from -/
  low : ∀ {t}, ρ t = .scratch 4 → Shape 4 (m t 0)
  below : ∀ {t f n}, ρ t = .scratch (n + 2) → Link (m t (tableIndex (n + 2) scratchPage)) f → ρ f = .scratch (n + 1)
  parent : ∀ {f n}, ρ f = .scratch (n + 1) → n < 3 →
    ∃ t, ρ t = .scratch (n + 2) ∧ Link (m t (tableIndex (n + 2) scratchPage)) f

namespace Scratch

variable {pt : Option ℕ} {kernelL4 : ℕ}

/-- changes outside these tables -/
theorem transfer (h : Scratch ρ pt kernelL4 m) (hrole : ∀ t k, ρ' t = .scratch k ↔ ρ t = .scratch k)
    (hm : ∀ t k, ρ t = .scratch k → m' t = m t) : Scratch ρ' pt kernelL4 m' where
  kernel := h.kernel
  root t := (hrole t 4).trans (h.root t)
  level ht := h.level ((hrole _ _).1 ht)
  low ht := by
    rw [hm _ _ ((hrole _ _).1 ht)]
    exact h.low ((hrole _ _).1 ht)
  below ht hl := by
    rw [hm _ _ ((hrole _ _).1 ht)] at hl
    exact (hrole _ _).2 (h.below ((hrole _ _).1 ht) hl)
  parent hf hn := by
    obtain ⟨t, ht, hl⟩ := h.parent ((hrole _ _).1 hf) hn
    exact ⟨t, (hrole _ _).2 ht, by rwa [hm _ _ ht]⟩

/-- an entry rewritten with the same link, or one that is not on the way -/
theorem write (h : Scratch ρ pt kernelL4 m) (ht : ρ t = .scratch k) (hi : k = 4 → i ≠ 0)
    (hlink : ∀ n f, k = n + 2 → i = tableIndex (n + 2) scratchPage → (Link w f ↔ Link (m t i) f)) :
    Scratch ρ pt kernelL4 (setWord m t i w) := by
  have hiff : ∀ {u f n}, ρ u = .scratch (n + 2) → (Link (setWord m t i w u (tableIndex (n + 2) scratchPage)) f ↔
      Link (m u (tableIndex (n + 2) scratchPage)) f) := by
    intro u f n hu
    rcases setWord_cases m t i w u (tableIndex (n + 2) scratchPage) with ⟨rfl, hidx, hw⟩ | ⟨-, hw⟩
    · rw [hw]
      rw [ht, Role.scratch.injEq] at hu
      rw [hidx]
      exact hlink n f hu hidx.symm
    · rw [hw]
  refine ⟨h.kernel, h.root, h.level, fun {u} hu => ?_, fun hu hl => h.below hu ((hiff hu).1 hl), fun hf hn => ?_⟩
  · rcases setWord_cases m t i w u 0 with ⟨rfl, hidx, -⟩ | ⟨-, hw⟩
    · rw [ht, Role.scratch.injEq] at hu
      exact absurd hidx.symm (hi hu)
    · rw [hw]
      exact h.low hu
  · obtain ⟨u, hu, hl⟩ := h.parent hf hn
    exact ⟨u, hu, (hiff hu).2 hl⟩

/-- a cleared frame becomes the next table of the way -/
theorem grow (h : Scratch ρ pt kernelL4 m) {f : ℕ} (ht : ρ t = .scratch (n + 2)) (hf : ρ f = .page)
    (hzero : ∀ j, m f j = 0) (hw : Link w f) (hnone : ∀ g, ¬ Link (m t (tableIndex (n + 2) scratchPage)) g) :
    Scratch (update ρ f (.scratch (n + 1))) pt kernelL4
      (setWord m t (tableIndex (n + 2) scratchPage) w) := by
  have hft : f ≠ t := fun he => by rw [he, ht] at hf; cases hf
  have hlevel := h.level ht
  have hold : ∀ {u k}, update ρ f (.scratch (n + 1)) u = .scratch k → u ≠ f → ρ u = .scratch k :=
    fun hu hne => by rwa [update_of_ne hne] at hu
  have hkeep : ∀ {u k}, ρ u = .scratch k → update ρ f (.scratch (n + 1)) u = .scratch k := fun {u k} hu => by
    rwa [update_of_ne (fun he => by rw [he, hf] at hu; cases hu)]
  have hfour : ∀ {u}, update ρ f (.scratch (n + 1)) u = .scratch 4 → ρ u = .scratch 4 := fun {u} hu =>
    hold hu fun he => by
      rw [he, update_self, Role.scratch.injEq] at hu
      omega
  refine ⟨h.kernel, fun u => ?_, fun {u k} hu => ?_, fun {u} hu => ?_, fun {u g k} hu hl => ?_, fun {g k} hg hk => ?_⟩
  · rw [← h.root u]
    exact ⟨hfour, hkeep⟩
  · by_cases huf : u = f
    · rw [huf, update_self, Role.scratch.injEq] at hu
      omega
    · exact h.level (hold hu huf)
  · have hu := hfour hu
    rcases setWord_cases m t (tableIndex (n + 2) scratchPage) w u 0 with ⟨rfl, hidx, -⟩ | ⟨-, hw'⟩
    · rw [ht, Role.scratch.injEq] at hu
      obtain rfl : n = 2 := by omega
      exact absurd hidx (by decide)
    · rw [hw']
      exact h.low hu
  · have huf : u ≠ f := fun he => by
      rw [he, setWord_of_ne m hft, hzero] at hl
      exact not_link_zero g hl
    have hu' := hold hu huf
    by_cases hut : u = t
    · rw [hut, ht, Role.scratch.injEq] at hu'
      obtain rfl : k = n := by omega
      rw [hut, setWord_self] at hl
      rw [hl.frame hw, update_self]
    · rw [setWord_of_ne m hut] at hl
      exact hkeep (h.below hu' hl)
  · by_cases hgf : g = f
    · rw [hgf, update_self, Role.scratch.injEq] at hg
      obtain rfl : k = n := by omega
      exact ⟨t, hkeep ht, by rw [setWord_self, hgf]; exact hw⟩
    · obtain ⟨u, hu, hl⟩ := h.parent (hold hg hgf) hk
      refine ⟨u, hkeep hu, ?_⟩
      by_cases hut : u = t
      · rw [hut, ht, Role.scratch.injEq] at hu
        obtain rfl : k = n := by omega
        exact absurd (hut ▸ hl) (hnone g)
      · rwa [setWord_of_ne m hut]

end Scratch

/-! ## All together -/

/-- memory, allocator and kernel agree with the roles -/
structure Space (A : EntryProp) (shared : ℕ → Prop) (R : Set ℕ) (ρ : Roles) (σ : Machine) : Prop where
  tables : Tables A shared R ρ σ.mem
  stock : Stock ρ σ.alloc σ.mem
  scratch : Scratch ρ σ.pageTable σ.kernelL4 σ.mem

/-- frames in use keep their roles, tables their links, and only frames in `P` become mapped -/
structure Grows (P : ℕ → Prop) (ρ : Roles) (m : PhysMem) (ρ' : Roles) (m' : PhysMem) : Prop where
  role : ∀ {f}, ρ f ≠ .free → ρ' f = ρ f
  link : ∀ {t i f n}, ρ t = .table (n + 2) → Link (m t i) f → Link (m' t i) f
  unmapped : ∀ {f}, ¬ P f → Unmapped ρ m f → Unmapped ρ' m' f

namespace Grows

variable {P Q : ℕ → Prop}

theorem refl (P : ℕ → Prop) (ρ : Roles) (m : PhysMem) : Grows P ρ m ρ m := ⟨fun _ => rfl, fun _ => id, fun _ => id⟩

section

variable (h : Grows P ρ m ρ' m')

include h

theorem table (ht : ρ t = .table k) : ρ' t = .table k := by
  rw [h.role (by rw [ht]; nofun), ht]

theorem page {f : ℕ} (hf : ρ f = .page) : ρ' f = .page := by
  rw [h.role (by rw [hf]; nofun), hf]

theorem scratch (ht : ρ t = .scratch k) : ρ' t = .scratch k := by
  rw [h.role (by rw [ht]; nofun), ht]

theorem trans {ρ'' : Roles} {m'' : PhysMem} (h' : Grows P ρ' m' ρ'' m'') : Grows P ρ m ρ'' m'' where
  role {f} hf := by rw [h'.role (by rw [h.role hf]; exact hf), h.role hf]
  link ht hl := h'.link (h.table ht) (h.link ht hl)
  unmapped hf hun := h'.unmapped hf (h.unmapped hf hun)

theorem mono (hPQ : ∀ f, P f → Q f) : Grows Q ρ m ρ' m' :=
  ⟨h.role, h.link, fun hf => h.unmapped fun hP => hf (hPQ _ hP)⟩

end

/-- a write into a page -/
theorem data {f : ℕ} (hf : ρ f = .page) (hm : ∀ g, g ≠ f → m' g = m g) : Grows P ρ m ρ m' where
  role _ := rfl
  link {t i g n} ht hl := by rwa [hm t fun he => by rw [he, hf] at ht; cases ht]
  unmapped _ hun t i ht hu := by
    rw [hm t fun he => by rw [he, hf] at ht; cases ht] at hu ⊢
    exact hun t i ht hu

/-- a walk from a live table stays -/
theorem walk (hg : Grows P ρ m ρ' m') (h : Tables A shared R ρ m) {r v : ℕ} (hr : r ∈ R) (hw : Walk m r v t) :
    Walk m' r v t := by
  obtain ⟨l3, l2, h4, h3, h2⟩ := hw
  have hr := (h.root r).2 hr
  have h₃ := h.below hr h4
  exact ⟨l3, l2, hg.link hr h4, hg.link h₃ h3, hg.link (h.below h₃ h3) h2⟩

end Grows

namespace Space

variable {σ : Machine}

section

variable (h : Space A shared R ρ σ)

include h

/-- a live level 4 table -/
theorem root {r : ℕ} (hr : r ∈ R) : ρ r = .table 4 := (h.tables.root r).2 hr

theorem walk {r v : ℕ} (hr : r ∈ R) (hw : Walk σ.mem r v t) : ρ t = .table 1 := by
  obtain ⟨l3, l2, h4, h3, h2⟩ := hw
  exact h.tables.below (h.tables.below (h.tables.below (h.root hr) h4) h3) h2

/-- the assertion may be replaced by one that the entries satisfy as well -/
theorem assert {B : EntryProp} (hB : ∀ t k i, ρ t = .table k → B k t i (σ.mem t i)) : Space B shared R ρ σ :=
  ⟨h.tables.transfer (fun _ _ => .rfl) (fun _ _ _ _ _ => .rfl) (fun _ _ i ht => h.tables.shape i ht)
    (fun _ _ => rfl) (fun _ _ ht hu => h.tables.mapped ht hu) hB, h.stock, h.scratch⟩

theorem mono {B : EntryProp} (hB : ∀ k t i w, A k t i w → B k t i w) :
    Space B shared R ρ σ := h.assert fun _ _ i ht => hB _ _ _ _ (h.tables.entries i ht)

theorem share {shared' : ℕ → Prop}
    (hs : ∀ t i, ρ t = .table 1 → isUser (σ.mem t i) = true → shared (frameOf (σ.mem t i)) →
      shared' (frameOf (σ.mem t i))) : Space A shared' R ρ σ := by
  refine ⟨{ h.tables with sole := fun {t u i j} ht hu huser huser' heq hn => ?_ }, h.stock, h.scratch⟩
  exact h.tables.sole ht hu huser huser' heq fun hsh => hn (hs t i ht huser hsh)

/-- a free frame is not mapped -/
theorem unmapped_free {f : ℕ} (hf : ρ f = .free) : Unmapped ρ σ.mem f :=
  fun t i ht hu he => by
    have := h.tables.mapped ht hu
    rw [he, hf] at this
    cases this

/-- a write into a page -/
theorem data {f : ℕ} (hf : ρ f = .page) (hm : ∀ g, g ≠ f → m' g = σ.mem g) :
    Space A shared R ρ { σ with mem := m' } := by
  have hne : ∀ t, ρ t ≠ .page → m' t = σ.mem t := fun t ht => hm t fun he => ht (he ▸ hf)
  exact ⟨h.tables.same (fun _ _ => .rfl) (fun ht => hne _ (by rw [ht]; nofun)) fun t i ht hu => h.tables.mapped ht hu,
    h.stock.transfer (fun _ => .rfl) fun n hn => hne n (by rw [hn]; nofun),
    h.scratch.transfer (fun _ _ => .rfl) fun t k ht => hne t (by rw [ht]; nofun)⟩

/-- an entry of a level 1 table -/
theorem leaf (ht : ρ t = .table 1) (hpage : isUser w = true → ρ (frameOf w) = .page)
    (hsole : isUser w = true → ¬ shared (frameOf w) → ∀ u j, ρ u = .table 1 → isUser (σ.mem u j) = true →
      frameOf (σ.mem u j) = frameOf w → u = t ∧ j = i) (hA : A 1 t i w) :
    Space A shared R ρ (σ.setEntry t i w) ∧
      Grows (fun f => isUser w = true ∧ f = frameOf w) ρ σ.mem ρ (σ.setEntry t i w).mem := by
  have hne : ∀ u, ρ u ≠ .table 1 → setWord σ.mem t i w u = σ.mem u := fun u hu =>
    setWord_of_ne _ (fun he => hu (by rw [he, ht])) _ _
  refine ⟨⟨h.tables.leaf ht hpage hsole hA, h.stock.transfer (fun _ => .rfl) fun n hn => ?_,
    h.scratch.transfer (fun _ _ => .rfl) fun u k hu => hne u (by rw [hu]; nofun)⟩, fun _ => rfl,
    fun {u j f n} hu hl => ?_, fun {f} hf hun u j hu huser => ?_⟩
  · exact hne n (by rw [hn]; nofun)
  · show Link (setWord _ _ _ _ u _) f
    rwa [hne u (by rw [hu]; simp)]
  · rcases setWord_cases σ.mem t i w u j with ⟨-, -, hw⟩ | ⟨-, hw⟩
    · rw [show (σ.setEntry t i w).mem u j = w from hw] at huser ⊢
      exact fun he => hf ⟨huser, he.symm⟩
    · rw [show (σ.setEntry t i w).mem u j = σ.mem u j from hw] at huser ⊢
      exact hun u j hu huser

/-- a link rewritten -/
theorem relink (ht : ρ t = .table (n + 2))
    (hlink : ∀ f, Link w f ↔ Link (σ.mem t i) f) (hshape : Shape (n + 2) w) (hA : A (n + 2) t i w) :
    Space A shared R ρ (σ.setEntry t i w) ∧ ∀ P, Grows P ρ σ.mem ρ (σ.setEntry t i w).mem := by
  have hne : ∀ {u}, (∀ k, ρ u ≠ .table k) → setWord σ.mem t i w u = σ.mem u := fun hu =>
    setWord_of_ne _ (fun he => hu _ (he ▸ ht)) _ _
  refine ⟨⟨h.tables.relink ht hlink hshape hA, h.stock.transfer (fun _ => .rfl) fun u hu => ?_,
    h.scratch.transfer (fun _ _ => .rfl) fun u k hu => hne (by rw [hu]; nofun)⟩, fun P => ⟨fun _ => rfl,
    fun {u j f k} hu hl => ?_, fun _ hun u j hu huser => ?_⟩⟩
  · exact hne (by rw [hu]; nofun)
  · show Link (setWord σ.mem t i w u j) f
    rcases setWord_cases σ.mem t i w u j with ⟨rfl, rfl, hw⟩ | ⟨-, hw⟩
    · rw [hw]
      exact (hlink f).2 hl
    · rwa [hw]
  · have hsame : setWord σ.mem t i w u = σ.mem u :=
      setWord_of_ne _ (fun he => by rw [he, ht, Role.table.injEq] at hu; omega) _ _
    rw [show (σ.setEntry t i w).mem u = σ.mem u from hsame] at huser ⊢
    exact hun u j hu huser

/-- a cleared frame becomes a table -/
theorem grow {f : ℕ} (ht : ρ t = .table (n + 2)) (hf : ρ f = .page)
    (hun : Unmapped ρ σ.mem f) (hzero : ∀ j, σ.mem f j = 0) (hw : Link w f) (hnone : ∀ g, ¬ Link (σ.mem t i) g)
    (hshape : Shape (n + 2) w) (hA : A (n + 2) t i w) (hA' : ∀ j, A (n + 1) f j 0) :
    Space A shared R (update ρ f (.table (n + 1))) (σ.setEntry t i w) := by
  have hne : ∀ {u}, (∀ k, ρ u ≠ .table k) → setWord σ.mem t i w u = σ.mem u := fun hu =>
    setWord_of_ne _ (fun he => hu _ (he ▸ ht)) _ _
  exact ⟨h.tables.grow ht hf hun hzero hw hnone hshape hA hA',
    h.stock.transfer (fun u => update_role_iff (by rw [hf]; nofun) nofun) fun u hu => hne (by rw [hu]; nofun),
    h.scratch.transfer (fun u k => update_role_iff (by rw [hf]; nofun) nofun) fun u k hu => hne (by rw [hu]; nofun)⟩

end

end Space

/-! ### New frames and frames given back -/

/-- the state after a frame was handed out -/
structure Allocated (A : EntryProp) (shared : ℕ → Prop) (R : Set ℕ) (ρ : Roles) (σ : Machine) (f : ℕ) (τ : Machine) :
    Prop where
  free : ρ f = .free
  pos : 0 < f
  lt : f < 2 ^ 40
  space : Space A shared R (update ρ f .page) τ
  mem : ∀ g, g ≠ f → τ.mem g = σ.mem g

/-- the state after a frame was given back, or refused -/
structure Freed (A : EntryProp) (shared : ℕ → Prop) (R : Set ℕ) (ρ : Roles) (σ : Machine) (f : ℕ) (ρ' : Roles)
    (τ : Machine) : Prop where
  space : Space A shared R ρ' τ
  role : ∀ g, g ≠ f → ρ' g = ρ g
  own : ρ' f = .page ∨ ρ' f = .free
  mem : ∀ g, g ≠ f → τ.mem g = σ.mem g

section Frames

variable {σ τ : Machine} {f : ℕ}

section

variable (ha : Allocated A shared R ρ σ f τ)

include ha

theorem Allocated.role {g : ℕ} (hg : ρ g ≠ .free) :
    update ρ f .page g = ρ g := update_of_ne (fun he => hg (by rw [he, ha.free])) _ _

theorem Allocated.table_iff :
    update ρ f .page t = .table k ↔ ρ t = .table k := update_role_iff (by rw [ha.free]; nofun) nofun

theorem Allocated.grows {P : ℕ → Prop} : Grows P ρ σ.mem (update ρ f .page) τ.mem where
  role := ha.role
  link {t i g n} ht hl := by rwa [ha.mem t fun he => by rw [he, ha.free] at ht; cases ht]
  unmapped _ hun t i ht hu := by
    have ht := ha.table_iff.1 ht
    rw [ha.mem t fun he => by rw [he, ha.free] at ht; cases ht] at hu ⊢
    exact hun t i ht hu

theorem Allocated.unmapped (h : Space A shared R ρ σ) : Unmapped (update ρ f .page) τ.mem f :=
  (ha.grows (P := fun _ => False)).unmapped id (h.unmapped_free ha.free)

/-- clearing the new frame -/
theorem Allocated.cleared : Allocated A shared R ρ σ f { τ with mem := update τ.mem f fun _ => 0 } := by
  have hmem : ∀ g, g ≠ f → update τ.mem f (fun _ => (0 : Word)) g = τ.mem g := fun g hg =>
    update_of_ne hg _ _
  exact ⟨ha.free, ha.pos, ha.lt, ha.space.data (update_self ..) hmem,
    fun g hg => (hmem g hg).trans (ha.mem g hg)⟩

end

namespace Space

theorem allocate (h : Space A shared R ρ σ) {f : PhysFrame} {a : BitmapFrameAllocator}
    (hcall : σ.alloc.allocateFrame σ.mem = some (some f, a, m')) :
    Allocated A shared R ρ σ f.number { σ with alloc := a, mem := m' } := by
  obtain ⟨hfree, hpos, hstock, hmem⟩ := h.stock.allocate hcall
  have hsame : ∀ {u}, ρ u ≠ .free → m' u = σ.mem u := fun hu => hmem _ fun he => hu (by rw [he, hfree])
  refine ⟨hfree, hpos, f.lt, ⟨h.tables.same (fun t k => update_role_iff (by rw [hfree]; nofun) nofun)
    (fun ht => hsame (by rw [ht]; nofun)) fun t i ht hu => ?_, hstock,
    h.scratch.transfer (fun t k => update_role_iff (by rw [hfree]; nofun) nofun) fun t k ht =>
      hsame (by rw [ht]; nofun)⟩, hmem⟩
  rw [update_of_ne (h.unmapped_free hfree t i ht hu)]
  exact h.tables.mapped ht hu

theorem deallocate (h : Space A shared R ρ σ) {f : PhysFrame} (hf : ρ f.number = .page)
    (hun : Unmapped ρ σ.mem f.number) {b : Bool} {a : BitmapFrameAllocator}
    (hcall : σ.alloc.deallocateFrame σ.mem f = some (b, a, m')) :
    ∃ ρ', Freed A shared R ρ σ f.number ρ' { σ with alloc := a, mem := m' } := by
  rcases h.stock.deallocate hf hcall with ⟨rfl, rfl⟩ | ⟨hstock, hmem⟩
  · exact ⟨ρ, h, fun _ _ => rfl, .inl hf, fun _ _ => rfl⟩
  · have hsame : ∀ {u}, ρ u ≠ .page → m' u = σ.mem u := fun hu => hmem _ fun he => hu (by rw [he, hf])
    refine ⟨update ρ f.number .free, ⟨h.tables.same (fun t k => update_role_iff (by rw [hf]; nofun) nofun)
      (fun ht => hsame (by rw [ht]; nofun)) fun t i ht hu => ?_, hstock,
      h.scratch.transfer (fun t k => update_role_iff (by rw [hf]; nofun) nofun) fun t k ht =>
        hsame (by rw [ht]; nofun)⟩, fun g hg => update_of_ne hg _ _, .inr (update_self ..), hmem⟩
    rw [update_of_ne (hun t i ht hu)]
    exact h.tables.mapped ht hu

end Space

/-- a frame that was free before and is given back -/
theorem Grows.freed {P : ℕ → Prop} {ρ'' : Roles} {τ' : Machine} (hg : Grows P ρ m ρ' τ.mem) (hf : ρ f = .free)
    (hfr : Freed A shared R ρ' τ f ρ'' τ') : Grows P ρ m ρ'' τ'.mem where
  role {g} hgf := by rw [hfr.role g fun he => hgf (he ▸ hf), hg.role hgf]
  link {t i g n} ht hl := by
    rw [hfr.mem t fun he => by rw [he, hf] at ht; cases ht]
    exact hg.link ht hl
  unmapped {g} hP hun t i ht hu := by
    have htf : t ≠ f := fun he => by
      rw [he] at ht
      rcases hfr.own with hown | hown <;> rw [hown] at ht <;> cases ht
    rw [hfr.role t htf] at ht
    rw [hfr.mem t htf] at hu ⊢
    exact hg.unmapped hP hun t i ht hu

/-! ### Calls of the allocator -/

section

variable (h : Space A shared R ρ σ)

include h

theorem allocateFrame_spec (hE : E σ) :
    Spec (· = σ) allocateFrame (fun f τ => Allocated A shared R ρ σ f.number τ) E := by
  rintro s rfl
  unfold allocateFrame
  rcases hcall : s.alloc.allocateFrame s.mem with _ | ⟨_ | f, a, m'⟩
  · trivial
  · obtain ⟨rfl, rfl⟩ := h.stock.allocate_none hcall
    exact hE
  · exact h.allocate hcall

/-- a new frame, cleared before it is used -/
theorem newFrame_spec (hE : E σ) {α : Type} {k : PhysFrame → K α}
    {Q : α → Machine → Prop} (hk : ∀ f τ, Allocated A shared R ρ σ f.number τ → (∀ j, τ.mem f.number j = 0) →
      Spec (· = τ) (k f) Q E) :
    Spec (· = σ) (allocateFrame >>= fun f => zeroFrame f.number >>= fun _ => k f) Q E := by
  refine Spec.step (allocateFrame_spec h hE) fun f τ ha => Spec.modify_bind (hk f _ ha.cleared fun j => ?_)
  · show update τ.mem f.number (fun _ => (0 : Word)) f.number j = 0
    rw [update_self]

theorem allocateTable_spec (hE : E σ) :
    Spec (· = σ) allocateTable (fun f τ => Allocated A shared R ρ σ f τ ∧ ∀ j, τ.mem f j = 0) E :=
  newFrame_spec h hE fun _ _ ha hzero => Spec.pure fun _ hs => hs ▸ ⟨ha, hzero⟩

theorem deallocateFrame_spec {f : PhysFrame} (hf : ρ f.number = .page) (hun : Unmapped ρ σ.mem f.number) :
    Spec (· = σ) (M.attempt (deallocateFrame f) : K _) (fun _ τ => ∃ ρ', Freed A shared R ρ σ f.number ρ' τ) E := by
  rintro s rfl
  unfold M.attempt deallocateFrame
  rcases hcall : s.alloc.deallocateFrame s.mem f with _ | ⟨_ | _, a, m'⟩
  · trivial
  · exact h.deallocate hf hun hcall
  · exact h.deallocate hf hun hcall

/-! ### Writes to the kernel's tables -/

/-- an entry of the kernel's tables, with the way to the scratch page as it was -/
theorem Space.scratchWrite (ht : ρ t = .scratch k) (hi : k = 4 → i ≠ 0)
    (hlink : ∀ n f, k = n + 2 → i = tableIndex (n + 2) scratchPage → (Link w f ↔ Link (σ.mem t i) f)) :
    Space A shared R ρ (σ.setEntry t i w) ∧ ∀ P, Grows P ρ σ.mem ρ (σ.setEntry t i w).mem := by
  have hne : ∀ {u}, (∀ k, ρ u ≠ .scratch k) → (σ.setEntry t i w).mem u = σ.mem u := fun hu =>
    setWord_of_ne _ (fun he => hu _ (he ▸ ht)) _ _
  have htable : ∀ {u k}, ρ u = .table k → (σ.setEntry t i w).mem u = σ.mem u := fun hu => hne (by rw [hu]; nofun)
  refine ⟨⟨h.tables.same (fun _ _ => .rfl) htable fun u j hu huser => h.tables.mapped hu huser,
    h.stock.transfer (fun _ => .rfl) fun u hu => hne (by rw [hu]; nofun),
    h.scratch.write ht hi hlink⟩, fun P => ⟨fun _ => rfl, fun {u j f n} hu hl => ?_,
    fun {f} _ hun u j hu huser => ?_⟩⟩
  · rwa [htable hu]
  · rw [htable hu] at huser ⊢
    exact hun u j hu huser

/-- a new table on the way to the scratch page -/
theorem Space.newScratch (ha : Allocated A shared R ρ σ f τ)
    (hzero : ∀ j, τ.mem f j = 0) (ht : ρ t = .scratch (n + 2))
    (hnone : ∀ g, ¬ Link (σ.mem t (tableIndex (n + 2) scratchPage)) g) (hw : Link w f) :
    Space A shared R (update ρ f (.scratch (n + 1))) (τ.setEntry t (tableIndex (n + 2) scratchPage) w) ∧
      ∀ P, Grows P ρ σ.mem (update ρ f (.scratch (n + 1)))
        (τ.setEntry t (tableIndex (n + 2) scratchPage) w).mem := by
  have hrole : update (update ρ f .page) f (.scratch (n + 1)) =
      update ρ f (.scratch (n + 1)) := update_idem ..
  have ht' : update ρ f .page t = .scratch (n + 2) := by rw [ha.role (by rw [ht]; nofun), ht]
  have hf : update ρ f .page f = .page := update_self ..
  have htf : t ≠ f := fun he => by rw [he, ha.free] at ht; cases ht
  have hne : ∀ {u}, (∀ k, update ρ f .page u ≠ .scratch k) →
      (τ.setEntry t (tableIndex (n + 2) scratchPage) w).mem u = τ.mem u := fun hu =>
    setWord_of_ne _ (fun he => hu _ (he ▸ ht')) _ _
  have htable : ∀ {u k}, update ρ f .page u = .table k →
      (τ.setEntry t (tableIndex (n + 2) scratchPage) w).mem u = τ.mem u := fun hu => hne (by rw [hu]; nofun)
  have hsame : ∀ {u r}, r ≠ .page → (∀ k, r ≠ .scratch k) →
      (update (update ρ f .page) f (.scratch (n + 1)) u = r ↔ update ρ f .page u = r) :=
    fun hp hs => update_role_iff (by rw [hf]; exact hp.symm) (hs _).symm
  constructor
  · rw [← hrole]
    refine ⟨ha.space.tables.same (fun u k => hsame nofun nofun) htable (fun u j hu huser => ?_),
      ha.space.stock.transfer (fun u => hsame nofun nofun) fun u hu => hne (by rw [hu]; nofun),
      ha.space.scratch.grow ht' hf hzero hw (by rw [ha.mem t htf]; exact hnone)⟩
    rw [update_of_ne (ha.unmapped h u j hu huser)]
    exact ha.space.tables.mapped hu huser
  · refine fun P => ⟨fun {g} hg => update_of_ne (fun he => hg (by rw [he, ha.free])) _ _,
      fun {u j g k} hu hl => ?_, fun {g} hP hun u j hu huser => ?_⟩
    · rw [htable (ha.table_iff.2 hu)]
      exact (ha.grows (P := P)).link hu hl
    · rw [← hrole] at hu
      have hu : update ρ f .page u = .table 1 := (hsame (by nofun) (by nofun)).1 hu
      rw [htable hu] at huser ⊢
      exact (ha.grows (P := P)).unmapped hP hun u j hu huser

end

end Frames

end SwiftCore.Mem
