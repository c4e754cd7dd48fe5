/-
New address spaces.

`create_user_page_table` copies the kernel's low tables frame by frame, writes into the copies and links them from the
bottom up; it may fail at every allocation and gives nothing back then. Until it is done its frames are drafts: pages that
no table links. `Space.graft` makes a finished draft a live table.
- `Drafts`: only frames that were free have changed.
- `cloneKernelL2_spec`, `copyKernelL4Entry_spec`, `openUserCode_spec`: what the drafts hold.
- `createUserPageTable_spec`: the new table, which maps nothing for user code.
-/
import SwiftCore.Mem.Teardown

namespace SwiftCore.Mem

open Fallible Function

variable {A : EntryProp} {shared : ℕ → Prop} {R : Set ℕ} {ρ ρ' ρ'' : Roles} {σ τ : Machine} {m m' m'' : PhysMem}

/-! ## A finished draft -/

variable {k t f i : ℕ} {w : Word}

theorem Under.level {r : ℕ} (h : Under m r k t) : 1 ≤ k ∧ k ≤ 4 := by
  induction h with
  | root => decide
  | link _ _ ih => omega

open Classical in
/-- the roles with the tables under `r` added -/
noncomputable def grafted (m : PhysMem) (r : ℕ) (ρ : Roles) : Roles := fun f =>
  if h : ∃ k, Under m r k f then .table h.choose else ρ f

/-- a tree of tables that is not in use yet -/
structure Draft (A : EntryProp) (ρ : Roles) (m : PhysMem) (r : ℕ) : Prop where
  page : ∀ {k f}, Under m r k f → ρ f = .page
  unmapped : ∀ {k f}, Under m r k f → Unmapped ρ m f
  level : ∀ {k j f}, Under m r k f → Under m r j f → k = j
  shape : ∀ {k t} i, Under m r k t → Shape k (m t i)
  only : ∀ {n t u i j f}, Under m r (n + 2) t → Under m r (n + 2) u → Link (m t i) f → Link (m u j) f → t = u ∧ i = j
  quiet : ∀ {t} i, Under m r 1 t → isUser (m t i) = false
  entries : ∀ {k t} i, Under m r k t → A k t i (m t i)

section Graft

variable {r : ℕ} (hd : Draft A ρ m r)

include hd

theorem Draft.grafted_under (h : Under m r k f) : grafted m r ρ f = .table k := by
  have hex : ∃ k, Under m r k f := ⟨k, h⟩
  unfold grafted
  rw [dif_pos hex, hd.level hex.choose_spec h]

omit hd in
theorem grafted_of_not (h : ∀ k, ¬ Under m r k f) : grafted m r ρ f = ρ f := dif_neg fun ⟨k, hk⟩ => h k hk

/-- a table is an old one or one of the draft -/
theorem Draft.grafted_cases (h : grafted m r ρ t = .table k) :
    Under m r k t ∨ (ρ t = .table k ∧ ∀ j, ¬ Under m r j t) := by
  by_cases hex : ∃ j, Under m r j t
  · obtain ⟨j, hj⟩ := hex
    rw [hd.grafted_under hj, Role.table.injEq] at h
    exact .inl (h ▸ hj)
  · rw [not_exists] at hex
    rw [grafted_of_not hex] at h
    exact .inr ⟨h, hex⟩

theorem Draft.grafted_of_ne (h : ρ f ≠ .page) : grafted m r ρ f = ρ f :=
  grafted_of_not fun _ hk => h (hd.page hk)

theorem Draft.grafted_iff {x : Role} (hp : x ≠ .page) (ht : ∀ k, x ≠ .table k) : grafted m r ρ f = x ↔ ρ f = x := by
  by_cases hex : ∃ j, Under m r j f
  · obtain ⟨j, hj⟩ := hex
    rw [hd.grafted_under hj, hd.page hj]
    exact iff_of_false (ht j).symm hp.symm
  · rw [grafted_of_not (not_exists.1 hex)]

theorem Tables.graft (h : Tables A shared R ρ m) : Tables A shared (insert r R) (grafted m r ρ) m := by
  have hkeep : ∀ {t k}, ρ t = .table k → grafted m r ρ t = .table k := fun ht => by
    rw [hd.grafted_of_ne (by rw [ht]; nofun), ht]
  -- an old link does not lead into the draft
  have hold : ∀ {t i f n k}, ρ t = .table (n + 2) → Link (m t i) f → ¬ Under m r k f := fun ht hl hu => by
    have := h.below ht hl
    rw [hd.page hu] at this
    cases this
  refine ⟨fun t => ⟨fun ht => ?_, fun ht => ?_⟩, fun ht => ?_, fun ht hl => ?_, fun i ht => ?_, fun ht hu hl hl' => ?_,
    fun hf hn => ?_, fun {t i} ht hu => ?_, fun {t u i j} ht hu huser huser' => ?_, fun i ht => ?_⟩
  · rcases hd.grafted_cases ht with hu | ⟨ht, -⟩
    · generalize hk : 4 = k at hu
      cases hu with
      | root => exact .inl rfl
      | link hu _ =>
        have := hu.level
        omega
    · exact .inr ((h.root t).1 ht)
  · rcases ht with rfl | ht
    · exact hd.grafted_under .root
    · exact hkeep ((h.root t).2 ht)
  · rcases hd.grafted_cases ht with hu | ⟨ht, -⟩
    · exact hu.level
    · exact h.level ht
  · rcases hd.grafted_cases ht with hu | ⟨ht, -⟩
    · exact hd.grafted_under (hu.link hl)
    · exact hkeep (h.below ht hl)
  · rcases hd.grafted_cases ht with hu | ⟨ht, -⟩
    · exact hd.shape i hu
    · exact h.shape i ht
  · rcases hd.grafted_cases ht with hut | ⟨ht, -⟩ <;> rcases hd.grafted_cases hu with huu | ⟨hu, -⟩
    · exact hd.only hut huu hl hl'
    · exact absurd (hut.link hl) (hold hu hl')
    · exact absurd (huu.link hl') (hold ht hl)
    · exact h.only ht hu hl hl'
  · rcases hd.grafted_cases hf with hu | ⟨hf, -⟩
    · generalize hk : _ + 1 = k at hu
      cases hu with
      | root => omega
      | @link t i _ n' hu hl =>
        obtain rfl : _ = n' := Nat.add_right_cancel hk
        exact ⟨t, i, hd.grafted_under hu, hl⟩
    · obtain ⟨t, i, ht, hl⟩ := h.parent hf hn
      exact ⟨t, i, hkeep ht, hl⟩
  · rcases hd.grafted_cases ht with hut | ⟨ht, -⟩
    · rw [hd.quiet i hut] at hu
      cases hu
    · rw [grafted_of_not fun k hk => hd.unmapped hk t i ht hu rfl]
      exact h.mapped ht hu
  · rcases hd.grafted_cases ht with hut | ⟨ht, -⟩
    · cases (hd.quiet i hut).symm.trans huser
    · rcases hd.grafted_cases hu with huu | ⟨hu, -⟩
      · rw [hd.quiet j huu] at huser'
        cases huser'
      · exact h.sole ht hu huser huser'
  · rcases hd.grafted_cases ht with hu | ⟨ht, -⟩
    · exact hd.entries i hu
    · exact h.entries i ht

end Graft

/-- **A new live table.** -/
theorem Space.graft (h : Space A shared R ρ σ) {r : ℕ} (hd : Draft A ρ σ.mem r) :
    Space A shared (insert r R) (grafted σ.mem r ρ) σ :=
  ⟨h.tables.graft hd, h.stock.transfer (fun _ => hd.grafted_iff nofun nofun) fun _ _ => rfl,
    h.scratch.transfer (fun _ _ => hd.grafted_iff nofun nofun) fun _ _ _ => rfl⟩

/-! ## Drafts -/

/-- only frames that were free have changed, and those are free or pages -/
structure Drafts (ρ : Roles) (m : PhysMem) (ρ' : Roles) (m' : PhysMem) : Prop where
  role : ∀ {f}, ρ f ≠ .free → ρ' f = ρ f
  mem : ∀ {f}, ρ f ≠ .free → m' f = m f
  fresh : ∀ {f}, ρ f = .free → ρ' f = .free ∨ ρ' f = .page

namespace Drafts

theorem refl (ρ : Roles) (m : PhysMem) : Drafts ρ m ρ m := ⟨fun _ => rfl, fun _ => rfl, .inl⟩

section

variable (h : Drafts ρ m ρ' m')

include h

/-- a frame that is free now was free before -/
theorem free {f : ℕ} (hf : ρ' f = .free) : ρ f = .free := by
  by_contra hne
  rw [h.role hne] at hf
  exact hne hf

theorem trans (h' : Drafts ρ' m' ρ'' m'') : Drafts ρ m ρ'' m'' where
  role hf := by rw [h'.role (by rw [h.role hf]; exact hf), h.role hf]
  mem hf := by rw [h'.mem (by rw [h.role hf]; exact hf), h.mem hf]
  fresh {f} hf := by
    rcases h.fresh hf with hf' | hf'
    · exact h'.fresh hf'
    · exact .inr (by rw [h'.role (by rw [hf']; nofun), hf'])

/-- a write into a draft -/
theorem write {f : ℕ} (hf : ρ f = .free) (hm : ∀ g, g ≠ f → m'' g = m' g) : Drafts ρ m ρ' m'' :=
  ⟨h.role, fun {g} hg => (hm g fun he => hg (he ▸ hf)).trans (h.mem hg), h.fresh⟩

theorem table (ht : ρ' t = .table k) : ρ t = .table k := by
  by_cases hf : ρ t = .free
  · rcases h.fresh hf with hc | hc <;> rw [hc] at ht <;> cases ht
  · rwa [h.role hf] at ht

theorem grows (P : ℕ → Prop) : Grows P ρ m ρ' m' where
  role := h.role
  link ht hl := by rwa [h.mem (by rw [ht]; nofun)]
  unmapped _ hun t i ht hu := by
    have ht := h.table ht
    rw [h.mem (by rw [ht]; nofun)] at hu ⊢
    exact hun t i ht hu

end

end Drafts

theorem Allocated.drafts {f : ℕ} (h : Allocated A shared R ρ σ f τ) :
    Drafts ρ σ.mem (update ρ f .page) τ.mem where
  role := h.role
  mem {g} hg := h.mem g fun he => hg (he ▸ h.free)
  fresh {g} hg := by
    rw [update_apply]
    split_ifs
    · exact .inr rfl
    · exact .inl hg

/-! ## Copies of the kernel's tables -/

theorem writeEntry_last {Q : PUnit → Machine → Prop} {E : Machine → Prop}
    (h : Q ⟨⟩ (σ.setEntry t i w)) : Spec (· = σ) (writeEntry t i w) Q E := by
  rintro _ rfl
  exact h

/-- the state after a frame became a draft -/
structure Sketch (A : EntryProp) (shared : ℕ → Prop) (R : Set ℕ) (ρ : Roles) (m : PhysMem) (f : ℕ) (ρ' : Roles)
    (τ : Machine) : Prop where
  space : Space A shared R ρ' τ
  drafts : Drafts ρ m ρ' τ.mem
  free : ρ f = .free
  page : ρ' f = .page
  pos : 0 < f
  lt : f < 2 ^ 40

/-- the states that a failed creation may leave -/
def Drafted (A : EntryProp) (shared : ℕ → Prop) (R : Set ℕ) (ρ : Roles) (m : PhysMem) (τ : Machine) : Prop :=
  ∃ ρ', Space A shared R ρ' τ ∧ Drafts ρ m ρ' τ.mem

theorem Allocated.sketch {f : ℕ} (h : Allocated A shared R ρ σ f τ) :
    Sketch A shared R ρ σ.mem f (update ρ f .page) τ :=
  ⟨h.space, h.drafts, h.free, update_self .., h.pos, h.lt⟩

/-- a write into a frame that became a draft -/
theorem Sketch.writeAt {f g : ℕ} (h : Sketch A shared R ρ m f ρ' τ) (hg : ρ g = .free) (hp : ρ' g = .page) (i : ℕ)
    (w : Word) : Sketch A shared R ρ m f ρ' (τ.setEntry g i w) :=
  ⟨h.space.data hp fun _ hg => setWord_of_ne _ hg _ _, h.drafts.write hg fun _ hg => setWord_of_ne _ hg _ _,
    h.free, h.page, h.pos, h.lt⟩

theorem Sketch.write {f : ℕ} (h : Sketch A shared R ρ m f ρ' τ) (i : ℕ) (w : Word) :
    Sketch A shared R ρ m f ρ' (τ.setEntry f i w) := h.writeAt h.free h.page i w

theorem Sketch.after {f : ℕ} (h : Sketch A shared R ρ m f ρ' σ) (hs : Space A shared R ρ'' τ)
    (hd : Drafts ρ' σ.mem ρ'' τ.mem) : Sketch A shared R ρ m f ρ'' τ :=
  ⟨hs, h.drafts.trans hd, h.free, by rw [hd.role (by rw [h.page]; nofun), h.page], h.pos, h.lt⟩

theorem Drafted.after (hd : Drafts ρ m ρ' m') (h : Drafted A shared R ρ' m' τ) : Drafted A shared R ρ m τ := by
  obtain ⟨ρ'', hs, hd'⟩ := h
  exact ⟨ρ'', hs, hd.trans hd'⟩

theorem Space.drafted (h : Space A shared R ρ σ) : Drafted A shared R ρ σ.mem σ := ⟨ρ, h, .refl _ _⟩

/-- another table of a draft -/
theorem Sketch.newTable {f : ℕ} (h : Sketch A shared R ρ m f ρ' σ) :
    Spec (· = σ) allocateTable (fun n τ => ∃ ρ'', Sketch A shared R ρ' σ.mem n ρ'' τ ∧ ∀ i, τ.mem n i = 0)
      (Drafted A shared R ρ m) :=
  Spec.post (allocateTable_spec h.space h.space.drafted) (fun _ _ ⟨ha, hzero⟩ => ⟨_, ha.sketch, hzero⟩)
    fun _ hs => hs.after h.drafts

theorem ne_of_free {f g : ℕ} (hf : ρ f = .free) (hg : ρ g = .page) : f ≠ g := by
  rintro rfl
  rw [hf] at hg
  cases hg

/-- **The copy of a level 1 table** holds no entry for user code, and none where the kernel has none. -/
theorem cloneKernelL1_spec (h : Space A shared R ρ σ) (src : ℕ) :
    Spec (· = σ) (cloneKernelL1TableWithoutUserEntries src)
      (fun n τ => ∃ ρ', Sketch A shared R ρ σ.mem n ρ' τ ∧ (∀ i, isUser (τ.mem n i) = false) ∧
        ∀ i, τ.mem n i ≠ 0 → ρ src = .free ∨ σ.mem src i ≠ 0)
      (Drafted A shared R ρ σ.mem) := by
  unfold cloneKernelL1TableWithoutUserEntries
  refine Spec.step (allocateTable_spec h h.drafted) fun n σ₁ ⟨ha, hzero⟩ => ?_
  let I : ℕ → Machine → Prop := fun _ τ => ∃ ρ', Sketch A shared R ρ σ.mem n ρ' τ ∧ (∀ i, isUser (τ.mem n i) = false) ∧
    ∀ i, τ.mem n i ≠ 0 → ρ src = .free ∨ σ.mem src i ≠ 0
  refine Spec.bind (Q := fun _ => I 512) (Spec.mono (Spec.forRange (I := I) 512 0 fun i _ _ => ?_) ?_
    (fun _ _ hs => hs) fun _ hs => hs) fun _ => Spec.pure fun _ hs => hs
  · refine Spec.pre fun s ⟨ρ', hsk, hq, ho⟩ => Spec.gets_bind ?_
    refine Spec.ite (fun _ => Spec.pure fun _ hs => hs ▸ ⟨ρ', hsk, hq, ho⟩) fun hc => ?_
    refine Spec.ite (fun _ => Spec.pure fun _ hs => hs ▸ ⟨ρ', hsk, hq, ho⟩) fun hu => Spec.modify ?_
    intro _ hcur
    obtain rfl : s = _ := hcur.symm
    refine ⟨ρ', hsk.write i _, fun j => ?_, fun j hj => ?_⟩
    · show isUser (setWord s.mem n i (s.mem src i) n j) = false
      rcases setWord_cases s.mem n i (s.mem src i) n j with ⟨-, -, hw⟩ | ⟨-, hw⟩
      · rw [hw]
        simpa using hu
      · rw [hw]
        exact hq j
    · change setWord s.mem n i (s.mem src i) n j ≠ 0 at hj
      rcases setWord_cases s.mem n i (s.mem src i) n j with ⟨-, rfl, hw⟩ | ⟨-, hw⟩
      · rw [hw] at hj
        by_cases hf : ρ src = .free
        · exact .inl hf
        · rw [hsk.drafts.mem hf] at hj
          exact .inr hj
      · rw [hw] at hj
        exact ho j hj
  · rintro _ rfl
    refine ⟨_, ha.sketch, fun i => by rw [hzero]; decide, fun i hi => absurd (hzero i) hi⟩

/-- the copy of a level 2 table: huge pages of the kernel and new level 1 tables; `O` are the places where those may have
entries -/
structure CopyL2 (ρ₀ : Roles) (O : ℕ → ℕ → Prop) (ρ : Roles) (m : PhysMem) (n : ℕ) : Prop where
  live : ∀ {i}, m n i ≠ 0 → isPresent (m n i) = true
  huge : ∀ {i}, isHuge (m n i) = true → isUser (m n i) = false
  below : ∀ {i f}, Link (m n i) f → ρ₀ f = .free ∧ ρ f = .page ∧ f ≠ n
  quiet : ∀ {i f} j, Link (m n i) f → isUser (m f j) = false
  origin : ∀ {i f j}, Link (m n i) f → m f j ≠ 0 → O i j
  only : ∀ {i j f}, Link (m n i) f → Link (m n j) f → i = j

namespace CopyL2

variable {ρ₀ : Roles} {O : ℕ → ℕ → Prop} {n : ℕ}

theorem blank (h : ∀ i, m n i = 0) : CopyL2 ρ₀ O ρ m n where
  live {i} hi := absurd (h i) hi
  huge {i} hi := by
    rw [h i] at hi
    exact absurd hi (by decide)
  below {i f} hl := absurd (h i) hl.1
  quiet {i f} _ hl := absurd (h i) hl.1
  origin {i f _} hl := absurd (h i) hl.1
  only {i _ _} hl := absurd (h i) hl.1

section

variable (h : CopyL2 ρ₀ O ρ m n)

include h

/-- changes elsewhere do not touch it -/
theorem congr (hm : m' n = m n) (hf : ∀ {i f}, Link (m n i) f → m' f = m f ∧ ρ' f = ρ f) : CopyL2 ρ₀ O ρ' m' n := by
  refine ⟨fun hi => ?_, fun hi => ?_, fun hl => ?_, fun j hl => ?_, fun hl hj => ?_, fun hl hl' => ?_⟩
  · rw [hm] at hi ⊢
    exact h.live hi
  · rw [hm] at hi ⊢
    exact h.huge hi
  · rw [hm] at hl
    rw [(hf hl).2]
    exact h.below hl
  · rw [hm] at hl
    rw [(hf hl).1]
    exact h.quiet j hl
  · rw [hm] at hl
    rw [(hf hl).1] at hj
    exact h.origin hl hj
  · rw [hm] at hl hl'
    exact h.only hl hl'

/-- later drafts do not touch it -/
theorem after (hn : ρ n ≠ .free) (hd : Drafts ρ m ρ' m') : CopyL2 ρ₀ O ρ' m' n := by
  refine h.congr (hd.mem hn) fun hl => ?_
  have hpage := (h.below hl).2.1
  exact ⟨hd.mem (by rw [hpage]; nofun), hd.role (by rw [hpage]; nofun)⟩

/-- a write to another draft -/
theorem of_ne (hn : n ≠ t) (hbelow : ∀ j, ¬ Link (m n j) t) : CopyL2 ρ₀ O ρ (setWord m t i w) n :=
  h.congr (setWord_of_ne _ hn _ _) fun {j f} hl =>
    ⟨setWord_of_ne _ (fun (he : f = t) => hbelow j (he ▸ hl)) _ _, rfl⟩

/-- an entry of the copy -/
theorem write (hlive : w ≠ 0 → isPresent w = true)
    (hhuge : isHuge w = true → isUser w = false) (hbelow : ∀ f, Link w f → ρ₀ f = .free ∧ ρ f = .page ∧ f ≠ n)
    (hquiet : ∀ f j, Link w f → isUser (m f j) = false) (horigin : ∀ f j, Link w f → m f j ≠ 0 → O i j)
    (hnew : ∀ f j, Link w f → j ≠ i → ¬ Link (m n j) f) : CopyL2 ρ₀ O ρ (setWord m n i w) n := by
  have hcase := fun j => setWord_cases m n i w n j
  have hsame : ∀ {j f}, Link (m n j) f → setWord m n i w f = m f := fun hl => setWord_of_ne _ (h.below hl).2.2 _ _
  have hsame' : ∀ {f}, Link w f → setWord m n i w f = m f := fun hl => setWord_of_ne _ (hbelow _ hl).2.2 _ _
  refine ⟨fun {j} hj => ?_, fun {j} hj => ?_, fun {j f} hl => ?_, fun {j f} l hl => ?_, fun {j f l} hl hne => ?_,
    fun {j l f} hl hl' => ?_⟩
  · rcases hcase j with ⟨-, rfl, hw⟩ | ⟨-, hw⟩ <;> rw [hw] at hj ⊢
    exacts [hlive hj, h.live hj]
  · rcases hcase j with ⟨-, rfl, hw⟩ | ⟨-, hw⟩ <;> rw [hw] at hj ⊢
    exacts [hhuge hj, h.huge hj]
  · rcases hcase j with ⟨-, rfl, hw⟩ | ⟨-, hw⟩ <;> rw [hw] at hl
    exacts [hbelow f hl, h.below hl]
  · rcases hcase j with ⟨-, rfl, hw⟩ | ⟨-, hw⟩ <;> rw [hw] at hl
    · rw [hsame' hl]
      exact hquiet f l hl
    · rw [hsame hl]
      exact h.quiet l hl
  · rcases hcase j with ⟨-, rfl, hw⟩ | ⟨-, hw⟩ <;> rw [hw] at hl
    · rw [hsame' hl] at hne
      exact horigin f l hl hne
    · rw [hsame hl] at hne
      exact h.origin hl hne
  · rcases hcase j with ⟨-, hji, hw⟩ | ⟨hji, hw⟩ <;> rcases hcase l with ⟨-, hli, hw'⟩ | ⟨hli, hw'⟩ <;>
      rw [hw] at hl <;> rw [hw'] at hl'
    · exact hji.trans hli.symm
    · exact absurd hl' (hnew f l hl fun he => hli ⟨rfl, he⟩)
    · exact absurd hl (hnew f j hl' fun he => hji ⟨rfl, he⟩)
    · exact h.only hl hl'

/-- an entry for a level 1 table that was free until now -/
theorem linkNew (hn : ρ n = .page) (hd : Drafts ρ m ρ' m') {f : ℕ} (hl : Link w f)
    (hp : isPresent w = true) (hb : ρ₀ f = .free) (hf : ρ f = .free) (hf' : ρ' f = .page)
    (hquiet : ∀ j, isUser (m' f j) = false) (horigin : ∀ j, m' f j ≠ 0 → O i j) :
    CopyL2 ρ₀ O ρ' (setWord m' n i w) n := by
  have hn' : ρ n ≠ .free := by rw [hn]; nofun
  refine (h.after hn' hd).write (fun _ => hp) ?_ ?_ ?_ ?_ ?_
  · intro hh
    rw [hl.2.1] at hh
    cases hh
  · intro g hg
    obtain rfl := hg.frame hl
    exact ⟨hb, hf', ne_of_free hf hn⟩
  · intro g j hg
    obtain rfl := hg.frame hl
    exact hquiet j
  · intro g j hg
    obtain rfl := hg.frame hl
    exact horigin j
  · intro g j hg _ hg'
    obtain rfl := hg.frame hl
    rw [hd.mem hn'] at hg'
    exact ne_of_free hf (h.below hg').2.1 rfl

end

end CopyL2

/-- the kernel has an entry at this place below its level 2 table `src`, unless its tables are in free memory -/
def LowEntry (ρ : Roles) (m : PhysMem) (src i j : ℕ) : Prop :=
  ρ src = .free ∨ ρ (frameOf (m src i)) = .free ∨
    (Link (m src i) (frameOf (m src i)) ∧ m (frameOf (m src i)) j ≠ 0)

/-- an entry for a new table, with the flags of one that links to a table -/
theorem link_flagsOf {e : Word} {f : ℕ} (hf : f < 2 ^ 40) (hp : isPresent e = true) (hh : isHuge e = false) :
    Link (entry f (flagsOf e)) f ∧ isPresent (entry f (flagsOf e)) = true := by
  have hp' : isPresent (flagsOf e) = true := by
    unfold isPresent
    rw [getLsbD_flagsOf _ (.inl (by decide))]
    exact hp
  have hh' : isHuge (flagsOf e) = false := by
    unfold isHuge
    rw [getLsbD_flagsOf _ (.inl (by decide))]
    exact hh
  exact ⟨link_entry hf (onlyFlags_flagsOf _) hp' hh', by rw [isPresent_entry hf, hp']⟩

/-- **The copy of a level 2 table.** -/
theorem cloneKernelL2_spec (h : Space A shared R ρ σ) (src : ℕ) :
    Spec (· = σ) (cloneKernelL2TableWithoutUserEntries src)
      (fun n τ => ∃ ρ', Sketch A shared R ρ σ.mem n ρ' τ ∧ CopyL2 ρ (LowEntry ρ σ.mem src) ρ' τ.mem n)
      (Drafted A shared R ρ σ.mem) := by
  unfold cloneKernelL2TableWithoutUserEntries
  refine Spec.step (allocateTable_spec h h.drafted) fun n σ₁ ⟨ha, hzero⟩ => ?_
  -- the entries from the index of the loop on are still unused
  let I : ℕ → Machine → Prop := fun j τ => ∃ ρ', Sketch A shared R ρ σ.mem n ρ' τ ∧
    CopyL2 ρ (LowEntry ρ σ.mem src) ρ' τ.mem n ∧ ∀ i, j ≤ i → τ.mem n i = 0
  refine Spec.bind (Q := fun _ => I 512) (Spec.mono (Spec.forRange (I := I) 512 0 fun i _ _ => ?_) ?_
    (fun _ _ hs => hs) fun _ hs => hs) fun _ => Spec.pure fun _ ⟨ρ', hsk, hc, _⟩ => ⟨ρ', hsk, hc⟩
  · refine Spec.pre fun s ⟨ρ', hsk, hcopy, hrest⟩ => Spec.gets_bind ?_
    have hskip : I (i + 1) s := ⟨ρ', hsk, hcopy, fun j hj => hrest j (by omega)⟩
    have hset : ∀ {ρ'' τ w}, Sketch A shared R ρ σ.mem n ρ'' τ → (∀ j, i ≤ j → τ.mem n j = 0) →
        CopyL2 ρ (LowEntry ρ σ.mem src) ρ'' (setWord τ.mem n i w) n → I (i + 1) (τ.setEntry n i w) := by
      refine fun {ρ'' τ w} hsk' hz hc => ⟨ρ'', hsk'.write i w, hc, fun j hj => ?_⟩
      show setWord τ.mem n i w n j = 0
      rw [setWord_apply, if_neg (by omega)]
      exact hz j (by omega)
    refine Spec.ite (fun _ => Spec.pure fun _ hs => hs ▸ hskip) fun hc => ?_
    rw [not_or, not_not] at hc
    refine Spec.ite (fun hhuge => Spec.when (fun hu => Spec.modify ?_) fun _ _ hs => hs ▸ hskip) fun hhuge => ?_
    · intro _ hcur
      obtain rfl : s = _ := hcur.symm
      have hno : ∀ f, ¬ Link (s.mem src i) f := fun f hl => by
        cases hl.2.1.symm.trans hhuge
      refine hset hsk hrest (hcopy.write (fun _ => hc.2) (fun _ => by simpa using hu) ?_ ?_ ?_ ?_)
      · exact fun f hl => absurd hl (hno f)
      · exact fun f _ hl => absurd hl (hno f)
      · exact fun f _ hl => absurd hl (hno f)
      · exact fun f _ hl => absurd hl (hno f)
    · have hhuge : isHuge (s.mem src i) = false := by simpa using hhuge
      refine Spec.step (Spec.post (cloneKernelL1_spec hsk.space (frameOf (s.mem src i)))
        (fun _ _ hs => hs) fun _ hs => hs.after hsk.drafts) fun l1 s₁ ⟨ρ₁, hsk₁, hq, ho⟩ => Spec.modify ?_
      intro _ hcur
      obtain rfl : s₁ = _ := hcur.symm
      have hn : ρ' n ≠ .free := by rw [hsk.page]; nofun
      obtain ⟨hlink, hpr⟩ := link_flagsOf hsk₁.lt hc.2 hhuge
      have hzero₁ : ∀ j, i ≤ j → s₁.mem n j = 0 := fun j hj => by rw [hsk₁.drafts.mem hn, hrest j hj]
      refine hset (hsk.after hsk₁.space hsk₁.drafts) hzero₁ (hcopy.linkNew hsk.page hsk₁.drafts hlink hpr
        (hsk.drafts.free hsk₁.free) hsk₁.free hsk₁.page hq fun j hj => ?_)
      -- what was read from the kernel's tables is what they held at the start
      by_cases hsrc : ρ src = .free
      · exact .inl hsrc
      have hsame : s.mem src i = σ.mem src i := by rw [hsk.drafts.mem hsrc]
      rw [hsame] at ho hc hhuge
      by_cases hbelow : ρ (frameOf (σ.mem src i)) = .free
      · exact .inr (.inl hbelow)
      refine .inr (.inr ⟨⟨hc.1, hhuge, rfl⟩, ?_⟩)
      rcases ho j hj with hf | hne
      · rw [hsk.drafts.role hbelow] at hf
        exact absurd hf hbelow
      · rwa [hsk.drafts.mem hbelow] at hne
  · rintro _ rfl
    exact ⟨_, ha.sketch, .blank hzero, fun i _ => hzero i⟩

theorem LowEntry.before {ρ₀ : Roles} {m₀ : PhysMem} {src j : ℕ} (hd : Drafts ρ₀ m₀ ρ m) (h : LowEntry ρ m src i j) :
    LowEntry ρ₀ m₀ src i j := by
  by_cases hsrc : ρ₀ src = .free
  · exact .inl hsrc
  by_cases hbelow : ρ₀ (frameOf (m₀ src i)) = .free
  · exact .inr (.inl hbelow)
  unfold LowEntry at h
  rw [hd.role hsrc, hd.mem hsrc, hd.role hbelow, hd.mem hbelow] at h
  exact h

theorem CopyL2.weaken {ρ₀ ρ₁ : Roles} {O O' : ℕ → ℕ → Prop} {n : ℕ} (h : CopyL2 ρ₀ O ρ m n)
    (hO : ∀ i j, O i j → O' i j) (hb : ∀ f, ρ₀ f = .free → ρ₁ f = .free) : CopyL2 ρ₁ O' ρ m n :=
  ⟨h.live, h.huge, fun hl => ⟨hb _ (h.below hl).1, (h.below hl).2⟩, h.quiet, fun hl hj => hO _ _ (h.origin hl hj), h.only⟩

/-- the upper two levels of a draft that has a table for the low half -/
structure Top (ρ : Roles) (m : PhysMem) (n4 n3 : ℕ) : Prop where
  link : Link (m n4 0) n3
  live : isPresent (m n4 0) = true
  rest : ∀ i, i ≠ 0 → m n4 i = 0
  page : ρ n3 = .page
  ne : n3 ≠ n4
  rest' : ∀ i, i ≠ 0 → m n3 i = 0

theorem Top.congr {n4 n3 : ℕ} (h : Top ρ m n4 n3) (hm : m' n4 = m n4) (hp : ρ' n3 = .page)
    (hm' : ∀ i, i ≠ 0 → m' n3 i = m n3 i) : Top ρ' m' n4 n3 := by
  refine ⟨?_, ?_, fun i hi => ?_, hp, h.ne, fun i hi => (hm' i hi).trans (h.rest' i hi)⟩
  · rw [hm]
    exact h.link
  · rw [hm]
    exact h.live
  · rw [hm]
    exact h.rest i hi

theorem Top.after {n4 n3 : ℕ} (h : Top ρ m n4 n3) (hn : ρ n4 ≠ .free) (hd : Drafts ρ m ρ' m') : Top ρ' m' n4 n3 := by
  have hn3 : ρ n3 ≠ .free := by rw [h.page]; nofun
  exact h.congr (hd.mem hn) (by rw [hd.role hn3, h.page]) fun i _ => by rw [hd.mem hn3]

/-- the roles at the time when the lower tables of a draft were still free -/
structure Base (ρ₀ ρb ρ : Roles) (n4 n3 : ℕ) : Prop where
  before : ∀ f, ρb f = .free → ρ₀ f = .free
  after : ∀ f, ρ f = .free → ρb f = .free
  new : ρ₀ n3 = .free
  four : ρb n4 ≠ .free
  three : ρb n3 ≠ .free

theorem Base.later {ρ₀ ρb : Roles} {n4 n3 : ℕ} (h : Base ρ₀ ρb ρ n4 n3) (hd : Drafts ρ m ρ' m') :
    Base ρ₀ ρb ρ' n4 n3 :=
  ⟨h.before, fun f hf => h.after f (hd.free hf), h.new, h.four, h.three⟩

/-- where the kernel has entries below its level 3 table `l3` -/
def KernelLow (ρ : Roles) (m : PhysMem) (l3 i j : ℕ) : Prop := ρ l3 = .free ∨ LowEntry ρ m (frameOf (m l3 0)) i j

theorem LowEntry.kernelLow {ρ₀ : Roles} {m₀ : PhysMem} {l3 j : ℕ} (hd : Drafts ρ₀ m₀ ρ m)
    (h : LowEntry ρ m (frameOf (m l3 0)) i j) : KernelLow ρ₀ m₀ l3 i j := by
  by_cases hfree : ρ₀ l3 = .free
  · exact .inl hfree
  · rw [hd.mem hfree] at h
    exact .inr (h.before hd)

section Create

variable {ρ₀ ρb : Roles} {m₀ : PhysMem} {O : ℕ → ℕ → Prop} {n4 n3 n2 : ℕ}

/-- the level 3 table of a draft is empty, or leads to the copy of a level 2 table -/
def Third (ρb : Roles) (O : ℕ → ℕ → Prop) (ρ : Roles) (m : PhysMem) (n4 n3 : ℕ) : Prop :=
  m n3 0 = 0 ∨ (ρ (frameOf (m n3 0)) = .page ∧ frameOf (m n3 0) ≠ n4 ∧ CopyL2 ρb O ρ m (frameOf (m n3 0)))

/-- a draft whose level 4 entry is not written yet -/
structure Lower (ρ₀ : Roles) (O : ℕ → ℕ → Prop) (ρb ρ : Roles) (m : PhysMem) (n4 n3 : ℕ) : Prop where
  base : Base ρ₀ ρb ρ n4 n3
  page : ρ n3 = .page
  ne : n3 ≠ n4
  blank : ∀ i, m n4 i = 0
  rest : ∀ i, i ≠ 0 → m n3 i = 0
  third : Third ρb O ρ m n4 n3

/-- the copy of the level 2 table is entered -/
theorem Lower.copy (h : Lower ρ₀ O ρb ρ m n4 n3) (hn4 : ρ n4 = .page) (hd : Drafts ρ m ρ' m')
    (hfree : ρ n2 = .free) (hpage : ρ' n2 = .page) (hw : frameOf w = n2) (hcopy : CopyL2 ρb O ρ' m' n2) :
    Lower ρ₀ O ρb ρ' (setWord m' n3 0 w) n4 n3 := by
  have hn4' : ρ n4 ≠ .free := by rw [hn4]; nofun
  have hn3 : ρ n3 ≠ .free := by rw [h.page]; nofun
  refine ⟨h.base.later hd, by rw [hd.role hn3, h.page], h.ne, fun i => ?_, fun i hi => ?_, .inr ?_⟩
  · rw [setWord_of_ne _ h.ne.symm, hd.mem hn4', h.blank]
  · rw [setWord_apply, if_neg (fun hc => hi hc.2), hd.mem hn3, h.rest i hi]
  · rw [setWord_self, hw]
    exact ⟨hpage, ne_of_free hfree hn4,
      hcopy.of_ne (ne_of_free hfree h.page) fun j hl => h.base.three (hcopy.below hl).1⟩

/-- the level 4 entry is written -/
theorem Lower.top (h : Lower ρ₀ O ρb ρ m n4 n3) (hl : Link w n3) (hp : isPresent w = true) :
    Top ρ (setWord m n4 0 w) n4 n3 ∧ Third ρb O ρ (setWord m n4 0 w) n4 n3 := by
  have hother : setWord m n4 0 w n3 = m n3 := setWord_of_ne _ h.ne _ _
  refine ⟨⟨?_, ?_, fun i hi => ?_, h.page, h.ne, fun i hi => ?_⟩, ?_⟩
  · rwa [setWord_self]
  · rwa [setWord_self]
  · rw [setWord_apply, if_neg (fun hc => hi hc.2), h.blank]
  · rw [hother, h.rest i hi]
  · unfold Third
    rw [hother]
    exact h.third.imp_right fun ⟨hpage, hne, hcopy⟩ =>
      ⟨hpage, hne, hcopy.of_ne hne fun j hl => h.base.four (hcopy.below hl).1⟩

/-- **The copy of the kernel's first level 4 entry.** -/
theorem copyKernelL4Entry_spec (hsk : Sketch A shared R ρ₀ m₀ n4 ρ σ) (hblank : ∀ i, σ.mem n4 i = 0) {kernelL4 : ℕ}
    (hk : ρ₀ kernelL4 = .scratch 4) (huse : m₀ kernelL4 0 ≠ 0) (hshape : Shape 4 (m₀ kernelL4 0)) :
    Spec (· = σ) (copyKernelL4Entry kernelL4 n4)
      (fun _ τ => ∃ ρ' ρb n3, Sketch A shared R ρ₀ m₀ n4 ρ' τ ∧ Base ρ₀ ρb ρ' n4 n3 ∧ Top ρ' τ.mem n4 n3 ∧ 0 < n3 ∧
        Third ρb (KernelLow ρ₀ m₀ (frameOf (m₀ kernelL4 0))) ρ' τ.mem n4 n3)
      (Drafted A shared R ρ₀ m₀) := by
  -- the kernel's entry stays the same all along
  have hkernel : ∀ {ρ' m'}, Drafts ρ₀ m₀ ρ' m' → m' kernelL4 0 = m₀ kernelL4 0 := fun hd => by
    rw [hd.mem (by rw [hk]; nofun)]
  generalize m₀ kernelL4 0 = l4e at huse hshape hkernel ⊢
  unfold copyKernelL4Entry
  refine Spec.gets_bind ?_
  rw [hkernel hsk.drafts]
  refine Spec.step hsk.newTable fun n3 σ₁ ⟨ρ₁, hnew, hzero⟩ => ?_
  have hsk₁ := hsk.after hnew.space hnew.drafts
  have hn3 : ρ₀ n3 = .free := hsk.drafts.free hnew.free
  obtain ⟨hlink, hlive⟩ := link_flagsOf hnew.lt (hshape.live (by decide) huse) (hshape.flat (by decide))
  have hlower : Lower ρ₀ (KernelLow ρ₀ m₀ (frameOf l4e)) ρ₁ ρ₁ σ₁.mem n4 n3 :=
    { base := ⟨fun f hf => hsk₁.drafts.free hf, fun _ hf => hf, hn3, by rw [hsk₁.page]; nofun, by rw [hnew.page]; nofun⟩
      page := hnew.page
      ne := ne_of_free hnew.free hsk.page
      blank := fun i => by rw [hnew.drafts.mem (by rw [hsk.page]; nofun), hblank]
      rest := fun i _ => hzero i
      third := .inl (hzero 0) }
  refine Spec.gets_bind (Spec.step (Q := fun _ τ => ∃ ρ₂, Sketch A shared R ρ₀ m₀ n4 ρ₂ τ ∧
    Lower ρ₀ (KernelLow ρ₀ m₀ (frameOf l4e)) ρ₁ ρ₂ τ.mem n4 n3)
    (Spec.when (fun _ => ?_) fun _ s hs => hs ▸ ⟨ρ₁, hsk₁, hlower⟩)
    fun _ τ ⟨ρ₂, hsk₂, hlower₂⟩ => Spec.gets_bind (writeEntry_last ?_))
  · refine Spec.step ((cloneKernelL2_spec hsk₁.space _).err fun _ hs => hs.after hsk₁.drafts)
      fun n2 σ₂ ⟨ρ₂, hsk₂, hcopy⟩ => Spec.gets_bind (writeEntry_last ?_)
    have hlower₂ := hlower.copy (w := entry n2 (flagsOf (σ₂.mem (frameOf l4e) 0))) hsk₁.page hsk₂.drafts hsk₂.free
      hsk₂.page (frameOf_entry hsk₂.lt (onlyFlags_flagsOf _))
      (hcopy.weaken (fun _ _ hlow => hlow.kernelLow hsk₁.drafts) fun _ hf => hf)
    exact ⟨ρ₂, (hsk₁.after hsk₂.space hsk₂.drafts).writeAt hn3 hlower₂.page 0 _, hlower₂⟩
  · rw [hkernel hsk₂.drafts]
    obtain ⟨htop, hthird⟩ := hlower₂.top hlink hlive
    exact ⟨ρ₂, ρ₁, n3, hsk₂.write 0 _, hlower₂.base, htop, hnew.pos, hthird⟩

/-- a draft with its three lower levels -/
structure Tree (ρ₀ : Roles) (O : ℕ → ℕ → Prop) (ρb ρ : Roles) (m : PhysMem) (n4 n3 n2 : ℕ) : Prop where
  base : Base ρ₀ ρb ρ n4 n3
  top : Top ρ m n4 n3
  link : Link (m n3 0) n2
  live : isPresent (m n3 0) = true
  new : ρb n2 = .free
  page : ρ n2 = .page
  copy : CopyL2 ρb O ρ m n2
  /-- the window for user code -/
  code : ∀ f j, Link (m n2 4) f → m f j = 0

/-- the level 3 entry is written -/
theorem Top.tree (h : Top ρ m n4 n3) (hbase : Base ρ₀ ρb ρ n4 n3) (hl : Link w n2) (hp : isPresent w = true)
    (hnew : ρb n2 = .free) (hpage : ρ n2 = .page) (hcopy : CopyL2 ρb O ρ m n2)
    (hcode : ∀ f j, Link (m n2 4) f → m f j = 0) : Tree ρ₀ O ρb ρ (setWord m n3 0 w) n4 n3 n2 := by
  have hnolink : ∀ {j}, ¬ Link (m n2 j) n3 := fun hl => hbase.three (hcopy.below hl).1
  have hn2 : n2 ≠ n3 := fun he => hbase.three (he ▸ hnew)
  refine ⟨hbase, h.congr (setWord_of_ne _ h.ne.symm _ _) h.page fun i hi => ?_, ?_, ?_, hnew, hpage,
    hcopy.of_ne hn2 fun _ => hnolink, fun f j hlink => ?_⟩
  · rw [setWord_apply, if_neg fun hc => hi hc.2]
  · rwa [setWord_self]
  · rwa [setWord_self]
  · rw [setWord_of_ne _ hn2] at hlink
    rw [setWord_of_ne _ (fun (he : f = n3) => hnolink (he ▸ hlink))]
    exact hcode f j hlink

/-- the new level 2 table holds some of the entries of the old one -/
structure Picked (A : EntryProp) (shared : ℕ → Prop) (R : Set ℕ) (O : ℕ → ℕ → Prop) (ρb ρ : Roles) (m : PhysMem)
    (old n2 : ℕ) (ρ' : Roles) (τ : Machine) : Prop where
  sketch : Sketch A shared R ρ m n2 ρ' τ
  copy : CopyL2 ρb O ρ' τ.mem n2
  subset : ∀ i, τ.mem n2 i ≠ 0 → τ.mem n2 i = τ.mem old i

/-- one more -/
theorem Picked.write {old : ℕ} (h : Picked A shared R O ρb ρ m old n2 ρ' τ) (hp : ρ old = .page)
    (hold : CopyL2 ρb O ρ m old) (i : ℕ) :
    Picked A shared R O ρb ρ m old n2 ρ' (τ.setEntry n2 i (τ.mem old i)) := by
  have hne : ∀ {f}, ρ f = .page → f ≠ n2 := fun hf => (ne_of_free h.sketch.free hf).symm
  have hpne : ρ old ≠ .free := by rw [hp]; nofun
  have hcold := hold.after hpne h.sketch.drafts
  refine ⟨h.sketch.write i _, h.copy.write (fun hw => hcold.live hw) (fun hw => hcold.huge hw) ?_ ?_ ?_ ?_,
    fun j hj => ?_⟩
  · intro f hl
    have hl' := hl
    rw [h.sketch.drafts.mem hpne] at hl'
    exact ⟨(hcold.below hl).1, (hcold.below hl).2.1, hne (hold.below hl').2.1⟩
  · exact fun f j hl => hcold.quiet j hl
  · exact fun f j hl hj => hcold.origin hl hj
  · intro f j hl hji hl'
    rw [h.subset j hl'.1] at hl'
    exact hji (hcold.only hl' hl)
  · have hsame : (τ.setEntry n2 i (τ.mem old i)).mem old = τ.mem old := setWord_of_ne _ (hne hp) _ _
    rw [hsame]
    change setWord τ.mem n2 i (τ.mem old i) n2 j ≠ 0 at hj
    show setWord τ.mem n2 i (τ.mem old i) n2 j = τ.mem old j
    rcases setWord_cases τ.mem n2 i (τ.mem old i) n2 j with ⟨-, rfl, hw⟩ | ⟨-, hw⟩
    · exact hw
    · rw [hw] at hj ⊢
      exact h.subset j hj

/-- **The tables for user code** replace the copy of the kernel's level 2 table by one with the kernel's entries only. -/
theorem openUserCode_spec (hsk : Sketch A shared R ρ₀ m₀ n4 ρ σ) (hbase : Base ρ₀ ρb ρ n4 n3) (htop : Top ρ σ.mem n4 n3)
    (hold : Third ρb O ρ σ.mem n4 n3) :
    Spec (· = σ) (openUserCode n3)
      (fun _ τ => ∃ ρ' n2, Sketch A shared R ρ₀ m₀ n4 ρ' τ ∧ Tree ρ₀ O ρb ρ' τ.mem n4 n3 n2)
      (Drafted A shared R ρ₀ m₀) := by
  have hn4 : ρ n4 ≠ .free := by rw [hsk.page]; nofun
  have hn3 : ρ n3 ≠ .free := by rw [htop.page]; nofun
  unfold openUserCode
  refine Spec.step hsk.newTable fun n2 σ₁ ⟨ρ₁, hnew, hzero⟩ => Spec.gets_bind ?_
  rw [show σ₁.mem n3 0 = σ.mem n3 0 by rw [hnew.drafts.mem hn3]]
  unfold Third at hold
  generalize frameOf (σ.mem n3 0) = old at hold ⊢
  have hstart : Picked A shared R O ρb ρ σ.mem old n2 ρ₁ σ₁ := ⟨hnew, .blank hzero, fun i hi => absurd (hzero i) hi⟩
  refine Spec.step (Q := fun _ => Picked A shared R O ρb ρ σ.mem old n2 ρ₁) (Spec.when (fun hl3e => ?_)
    fun _ s hs => hs ▸ hstart) fun _ σ₂ ⟨hsk₂, hcopy₂, _⟩ => ?_
  · obtain ⟨hp, -, hcopy⟩ := hold.resolve_left hl3e
    refine Spec.mono (Spec.forRange (I := fun _ => Picked A shared R O ρb ρ σ.mem old n2 ρ₁) 512 0 fun i _ _ => ?_)
      (fun s hs => hs ▸ hstart) (fun _ _ hs => hs) fun _ hs => hs
    exact Spec.pre fun s hs => Spec.gets_bind (Spec.when (fun _ => writeEntry_last (hs.write hp hcopy i))
      fun _ s' hs' => hs' ▸ hs)
  · -- the window for user code
    have hskall := hsk.after hsk₂.space hsk₂.drafts
    refine Spec.step hskall.newTable fun n1 σ₃ ⟨ρ₃, hnew₃, hzero₃⟩ => writeEntry_bind (writeEntry_last ?_)
    have hlink1 : Link (entry n1 (Flags.present ||| Flags.writable ||| Flags.user)) n1 :=
      link_entry hnew₃.lt (onlyFlags_of_and (by decide)) (by decide) (by decide)
    have hlink2 : Link (entry n2 (Flags.present ||| Flags.writable)) n2 :=
      link_entry hnew.lt (onlyFlags_of_and (by decide)) (by decide) (by decide)
    have hdall := hsk₂.drafts.trans hnew₃.drafts
    have hn2 : ρ₃ n2 = .page := (hsk₂.after hnew₃.space hnew₃.drafts).page
    have htop₃ := htop.after hn4 hdall
    have hne : n1 ≠ n2 := ne_of_free hnew₃.free hsk₂.page
    have hcopy₃ := hcopy₂.linkNew (i := 4) hsk₂.page hnew₃.drafts hlink1 (by rw [isPresent_entry hnew₃.lt]; decide)
      (hbase.after n1 (hsk₂.drafts.free hnew₃.free)) hnew₃.free hnew₃.page (fun j => by rw [hzero₃]; decide)
      fun j hj => absurd (hzero₃ j) hj
    have hsk₃ := (hskall.after hnew₃.space hnew₃.drafts).writeAt (hsk.drafts.free hsk₂.free) hn2 4
      (entry n1 (Flags.present ||| Flags.writable ||| Flags.user))
    refine ⟨ρ₃, n2, hsk₃.writeAt hbase.new htop₃.page 0 _, Top.tree (htop₃.congr ?_ htop₃.page fun i _ => ?_)
      (hbase.later hdall) hlink2 (by rw [isPresent_entry hnew.lt]; decide) (hbase.after n2 hnew.free) hn2 hcopy₃
      fun f j hl => ?_⟩
    · exact setWord_of_ne _ (ne_of_free hnew.free hsk.page).symm _ _
    · exact congrFun (setWord_of_ne _ (ne_of_free hnew.free htop.page).symm _ _) i
    · change Link (setWord σ₃.mem n2 4 _ n2 4) f at hl
      rw [setWord_self] at hl
      obtain rfl := hl.frame hlink1
      exact (congrFun (setWord_of_ne _ hne _ _) j).trans (hzero₃ j)

/-- what a new level 4 table holds: nothing, or a copy of the kernel's low half -/
def Blank (ρ₀ : Roles) (O : ℕ → ℕ → Prop) (ρ : Roles) (m : PhysMem) (n4 : ℕ) : Prop :=
  (∀ i, m n4 i = 0) ∨ ∃ ρb n3 n2, Tree ρ₀ O ρb ρ m n4 n3 n2

/-- **create_user_page_table**, before its table counts as live -/
theorem createUserPageTable_draft (h : Space A shared R ρ σ) :
    Spec (· = σ) createUserPageTable
      (fun a τ => ∃ n4 ρ', a = n4 * 4096 ∧ Sketch A shared R ρ σ.mem n4 ρ' τ ∧
        Blank ρ (KernelLow ρ σ.mem (frameOf (σ.mem (σ.kernelL4 / 4096) 0))) ρ' τ.mem n4)
      (Drafted A shared R ρ σ.mem) := by
  have hk : ρ (σ.kernelL4 / 4096) = .scratch 4 := (h.scratch.root _).2 h.scratch.kernel
  have hkne : ρ (σ.kernelL4 / 4096) ≠ .free := by rw [hk]; nofun
  unfold createUserPageTable
  refine offset_bind h.drafted fun _ => Spec.gets_bind (Spec.guard (fun _ hs => hs ▸ h.drafted) fun _ => ?_)
  refine Spec.step (allocateTable_spec h h.drafted) fun n4 σ₁ ⟨ha, hzero⟩ => Spec.gets_bind ?_
  have hsame : σ₁.mem (σ.kernelL4 / 4096) 0 = σ.mem (σ.kernelL4 / 4096) 0 := by rw [ha.drafts.mem hkne]
  rw [hsame]
  by_cases hl4e : σ.mem (σ.kernelL4 / 4096) 0 ≠ 0
  · refine Spec.step (Spec.when (fun _ => copyKernelL4Entry_spec ha.sketch hzero hk hl4e (h.scratch.low hk))
      fun hc => absurd hl4e hc) fun _ σ₂ ⟨ρ₂, ρb, n3, hsk, hbase, htop, hpos, hl3⟩ => Spec.gets_bind ?_
    rw [htop.link.2.2]
    refine Spec.step (Spec.when (fun _ => openUserCode_spec hsk hbase htop hl3) fun hc => absurd (by omega) hc)
      fun _ σ₃ ⟨ρ₃, n2, hsk₃, htree⟩ => Spec.pure ?_
    rintro _ rfl
    exact ⟨n4, ρ₃, rfl, hsk₃, .inr ⟨ρb, n3, n2, htree⟩⟩
  · refine Spec.step (Q := fun _ τ => τ = σ₁) (Spec.when (fun hc => absurd hc hl4e) fun _ s hs => hs) fun _ σ₂ hσ₂ => ?_
    subst hσ₂
    refine Spec.gets_bind (Spec.step (Q := fun _ τ => τ = σ₂) (Spec.when (fun hc => ?_) fun _ s hs => hs)
      fun _ σ₃ hσ₃ => Spec.pure ?_)
    · exact absurd (by rw [hzero]; decide) hc
    · subst hσ₃
      rintro _ rfl
      exact ⟨n4, _, rfl, ha.sketch, .inl hzero⟩

/-! ## The new table goes live -/

theorem Tree.under {f : ℕ} (h : Tree ρ₀ O ρb ρ m n4 n3 n2) (hu : Under m n4 k f) :
    (k = 4 ∧ f = n4) ∨ (k = 3 ∧ f = n3) ∨ (k = 2 ∧ f = n2) ∨ (k = 1 ∧ ∃ i, Link (m n2 i) f) := by
  induction hu with
  | root => exact .inl ⟨rfl, rfl⟩
  | @link t i f n _ hl ih =>
    rcases ih with ⟨hk, rfl⟩ | ⟨hk, rfl⟩ | ⟨hk, rfl⟩ | ⟨hk, -⟩
    · by_cases hi : i = 0
      · subst hi
        exact .inr (.inl ⟨by omega, hl.frame h.top.link⟩)
      · exact absurd (h.top.rest i hi) hl.1
    · by_cases hi : i = 0
      · subst hi
        exact .inr (.inr (.inl ⟨by omega, hl.frame h.link⟩))
      · exact absurd (h.top.rest' i hi) hl.1
    · exact .inr (.inr (.inr ⟨by omega, i, hl⟩))
    · omega

/-- the frame tells the level -/
theorem Tree.level {f : ℕ} (h : Tree ρ₀ O ρb ρ m n4 n3 n2) (hu : Under m n4 k f) :
    k = if f = n4 then 4 else if f = n3 then 3 else if f = n2 then 2 else 1 := by
  have hne : ∀ {f}, ρb f = .free → f ≠ n4 ∧ f ≠ n3 := fun hf =>
    ⟨fun he => h.base.four (he ▸ hf), fun he => h.base.three (he ▸ hf)⟩
  rcases h.under hu with ⟨rfl, rfl⟩ | ⟨rfl, rfl⟩ | ⟨rfl, rfl⟩ | ⟨rfl, i, hl⟩
  · rw [if_pos rfl]
  · rw [if_neg h.top.ne, if_pos rfl]
  · rw [if_neg (hne h.new).1, if_neg (hne h.new).2, if_pos rfl]
  · obtain ⟨hfree, -, hn2⟩ := h.copy.below hl
    rw [if_neg (hne hfree).1, if_neg (hne hfree).2, if_neg hn2]

/-- an assertion that says nothing about new tables as long as they lead to new frames only and show nothing to user code -/
def Lenient (A : EntryProp) (ρ₀ : Roles) : Prop :=
  ∀ {k t i w}, ρ₀ t = .free → (k = 1 ∨ isHuge w = true → isUser w = false) →
    (∀ f, 2 ≤ k → Link w f → ρ₀ f = .free) → A k t i w

/-- an entry of an upper table: its only link, or nothing -/
theorem lone_entry {f : ℕ} (hl : Link (m t 0) f) (hrest : ∀ i, i ≠ 0 → m t i = 0) :
    isHuge (m t i) = false ∧ ∀ g, Link (m t i) g → i = 0 ∧ g = f := by
  by_cases hi : i = 0
  · subst hi
    exact ⟨hl.2.1, fun g hg => ⟨rfl, hg.frame hl⟩⟩
  · rw [hrest i hi]
    exact ⟨by decide, fun g hg => absurd hg (not_link_zero g)⟩

theorem under_blank {r f : ℕ} (hzero : ∀ i, m r i = 0) (hu : Under m r k f) : k = 4 ∧ f = r := by
  induction hu with
  | root => exact ⟨rfl, rfl⟩
  | link _ hl ih => exact absurd (ih.2 ▸ hzero _) hl.1

/-- the tables of the draft were free before -/
theorem Sketch.new (hsk : Sketch A shared R ρ₀ m₀ n4 ρ τ) (hblank : Blank ρ₀ O ρ τ.mem n4) {f : ℕ}
    (hu : Under τ.mem n4 k f) : ρ₀ f = .free ∧ ρ f = .page := by
  rcases hblank with hzero | ⟨ρb, n3, n2, htree⟩
  · rw [(under_blank hzero hu).2]
    exact ⟨hsk.free, hsk.page⟩
  · rcases htree.under hu with ⟨-, rfl⟩ | ⟨-, rfl⟩ | ⟨-, rfl⟩ | ⟨-, i, hl⟩
    · exact ⟨hsk.free, hsk.page⟩
    · exact ⟨htree.base.new, htree.top.page⟩
    · exact ⟨htree.base.before _ htree.new, htree.page⟩
    · exact ⟨htree.base.before _ (htree.copy.below hl).1, (htree.copy.below hl).2.1⟩

theorem Sketch.draft (hA : Lenient A ρ₀) (h₀ : Space A shared R ρ₀ σ)
    (hsk : Sketch A shared R ρ₀ σ.mem n4 ρ τ) (hblank : Blank ρ₀ O ρ τ.mem n4) : Draft A ρ τ.mem n4 := by
  have hun : ∀ {f}, ρ₀ f = .free → Unmapped ρ τ.mem f := fun hf =>
    (hsk.drafts.grows (fun _ => False)).unmapped id (h₀.unmapped_free hf)
  have hnew : ∀ {k f}, Under τ.mem n4 k f → ρ₀ f = .free ∧ ρ f = .page := fun hu => hsk.new hblank hu
  rcases hblank with hzero | ⟨ρb, n3, n2, htree⟩
  · -- a table without entries
    have hunder : ∀ {k f}, Under τ.mem n4 k f → k = 4 ∧ f = n4 := fun hu => under_blank hzero hu
    refine ⟨fun hu => (hnew hu).2, fun hu => hun (hnew hu).1, fun hu hu' => (hunder hu).1.trans (hunder hu').1.symm,
      fun {k t} i hu => ?_, fun hu _ hl _ => absurd ((hunder hu).2 ▸ hzero _) hl.1,
      fun i hu => absurd (hunder hu).1 (by decide), fun {k t} i hu => ?_⟩
    · rw [(hunder hu).2, hzero]
      exact shape_zero k
    · rw [(hunder hu).2, hzero]
      exact hA hsk.free (fun _ => by decide) fun f _ hl => absurd hl (not_link_zero f)
  · have hn2 : ρ₀ n2 = .free := htree.base.before n2 htree.new
    have hl1 : ∀ {i f}, Link (τ.mem n2 i) f → ρ₀ f = .free := fun hl => htree.base.before _ (htree.copy.below hl).1
    have hfour := fun i => lone_entry (i := i) htree.top.link htree.top.rest
    have hthree := fun i => lone_entry (i := i) htree.link htree.top.rest'
    refine ⟨fun hu => (hnew hu).2, fun hu => hun (hnew hu).1, fun {k j f} hu hu' => ?_, fun {k t} i hu => ?_,
      fun {n t u i j f} hu hu' hl hl' => ?_, fun {t} i hu => ?_, fun {k t} i hu => ?_⟩
    · exact (htree.level hu).trans (htree.level hu').symm
    · rcases htree.under hu with ⟨rfl, rfl⟩ | ⟨rfl, rfl⟩ | ⟨rfl, rfl⟩ | ⟨rfl, -⟩
      · refine ⟨fun _ hne => ?_, fun _ => (hfour i).1⟩
        by_cases hi : i = 0
        · exact hi ▸ htree.top.live
        · exact absurd (htree.top.rest i hi) hne
      · refine ⟨fun _ hne => ?_, fun _ => (hthree i).1⟩
        by_cases hi : i = 0
        · exact hi ▸ htree.live
        · exact absurd (htree.top.rest' i hi) hne
      · exact ⟨fun _ hne => htree.copy.live hne, fun hk => absurd hk (by decide)⟩
      · exact shape_one _
    · rcases htree.under hu with ⟨hk, rfl⟩ | ⟨hk, rfl⟩ | ⟨hk, rfl⟩ | ⟨hk, -⟩ <;>
        rcases htree.under hu' with ⟨hj, rfl⟩ | ⟨hj, rfl⟩ | ⟨hj, rfl⟩ | ⟨hj, -⟩ <;> try omega
      · exact ⟨rfl, ((hfour i).2 f hl).1.trans ((hfour j).2 f hl').1.symm⟩
      · exact ⟨rfl, ((hthree i).2 f hl).1.trans ((hthree j).2 f hl').1.symm⟩
      · exact ⟨rfl, htree.copy.only hl hl'⟩
    · rcases htree.under hu with ⟨hk, -⟩ | ⟨hk, -⟩ | ⟨hk, -⟩ | ⟨-, j, hl⟩
      · cases hk
      · cases hk
      · cases hk
      · exact htree.copy.quiet i hl
    · refine hA (hnew hu).1 (fun hc => ?_) fun f hk hl => ?_
      · rcases htree.under hu with ⟨rfl, rfl⟩ | ⟨rfl, rfl⟩ | ⟨rfl, rfl⟩ | ⟨rfl, j, hl⟩
        · rw [(hfour i).1] at hc
          simp at hc
        · rw [(hthree i).1] at hc
          simp at hc
        · exact htree.copy.huge (hc.resolve_left (by decide))
        · exact htree.copy.quiet i hl
      · rcases htree.under hu with ⟨rfl, rfl⟩ | ⟨rfl, rfl⟩ | ⟨rfl, rfl⟩ | ⟨rfl, -⟩
        · rw [((hfour i).2 f hl).2]
          exact htree.base.new
        · rw [((hthree i).2 f hl).2]
          exact hn2
        · exact hl1 hl
        · omega

/-- **create_user_page_table** adds a live table and leaves the others as they are. -/
theorem createUserPageTable_spec (hA : Lenient A ρ) (h : Space A shared R ρ σ) :
    Spec (· = σ) createUserPageTable
      (fun a τ => a % 4096 = 0 ∧ ρ (a / 4096) = .free ∧ ∃ ρ', Space A shared (insert (a / 4096) R) ρ' τ ∧
        ∀ P, Grows P ρ σ.mem ρ' τ.mem)
      (Grown A shared R (fun _ => False) ρ σ.mem) := by
  refine Spec.post (createUserPageTable_draft h) (fun a τ ⟨n4, ρ', ha, hsk, hblank⟩ => ?_)
    fun τ ⟨ρ', hs, hd⟩ => ⟨ρ', hs, hd.grows _⟩
  obtain rfl : n4 = a / 4096 := by omega
  have hdraft := hsk.draft hA h hblank
  refine ⟨by omega, hsk.free, _, hsk.space.graft hdraft, fun P => ⟨fun {f} hf => ?_, fun {t i f n} ht hl => ?_,
    fun {f} hP hun t i ht hu => ?_⟩⟩
  · rw [grafted_of_not fun k hu => hf (hsk.new hblank hu).1, hsk.drafts.role hf]
  · exact (hsk.drafts.grows P).link ht hl
  · rcases hdraft.grafted_cases ht with hut | ⟨ht, -⟩
    · rw [hdraft.quiet i hut] at hu
      cases hu
    · exact (hsk.drafts.grows P).unmapped hP hun t i ht hu

end Create

end SwiftCore.Mem
