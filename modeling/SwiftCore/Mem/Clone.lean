/-
Copies of address spaces for fork.

`clone_user_page_table` creates a table and copies the user pages of the source one by one, in the order of their
addresses; an error on the way destroys the new table.
- `copyUserL4_rule`: the four loops as one, for any invariant that the copy of one page carries on.
- `Copying`: the assertion under which the copy runs. Old tables stay as they are, new tables lead to new frames.
- `cloneUserPageTable_spec`: a new live table, or the tables that were there before.
-/
import SwiftCore.Mem.Creation

namespace SwiftCore.Mem

open Fallible Function

variable {A X : EntryProp} {shared : ℕ → Prop} {R : Set ℕ} {ρ ρ₀ ρ' : Roles} {σ σ₀ τ : Machine} {m m₀ : PhysMem}

/-! ## The four loops -/

/-- the addresses below an entry of a table -/
def span (level : ℕ) : ℕ := 2 ^ (12 + 9 * (level - 1))

/-- the tables that the loops come to, with the first address of each -/
inductive Spans (m : PhysMem) (src : ℕ) : ℕ → ℕ → ℕ → Prop
  | root : Spans m src 4 src 0
  | link {t b i f n : ℕ} (h : Spans m src (n + 2) t b) (hi : i < width (n + 2)) (hl : Link (m t i) f) :
      Spans m src (n + 1) f (b + i * span (n + 2))

/-- entries that the loops pass over -/
def Skipped (level : ℕ) (e : Word) : Prop :=
  e = 0 ∨ ¬ isPresent e = true ∨ (if level = 1 then ¬ isUser e = true else isHuge e = true)

theorem Spans.under {src k t b : ℕ} (h : Spans m src k t b) : Under m src k t := by
  induction h with
  | root => exact .root
  | link _ _ hl ih => exact ih.link hl

theorem Spans.four {src t b : ℕ} (h : Spans m src 4 t b) : t = src := by
  generalize hk : 4 = k at h
  cases h with
  | root => rfl
  | link h _ _ =>
    have := h.under.level
    omega

section Rule

variable (m₀) {T : Mapper} {src dst : ℕ} {I : ℕ → Machine → Prop} {E : Machine → Prop}
  (hmem : ∀ v s k t b, I v s → Spans m₀ src k t b → s.mem t = m₀ t)
  (hskip : ∀ s k t b i, Spans m₀ src k t b → i < width k → Skipped k (m₀ t i) → I (b + i * span k) s →
    I (b + (i + 1) * span k) s)
  (hpage : ∀ t b i, Spans m₀ src 1 t b → i < 512 → ¬ Skipped 1 (m₀ t i) →
    Spec (I (b + i * span 1)) (copyUserPage T dst (b + i * span 1) t i (m₀ t i)) (fun _ => I (b + (i + 1) * span 1)) E)

include hmem hskip hpage

theorem copyUserL1_rule {t b : ℕ} (ht : Spans m₀ src 1 t b) :
    Spec (I b) (copyUserL1 T dst b t) (fun _ => I (b + 512 * span 1)) E := by
  unfold copyUserL1
  refine Spec.mono (Spec.forRange (I := fun j => I (b + j * span 1)) 512 0 fun i _ hi => ?_)
    (fun s hs => by simpa using hs) (fun _ s hs => by simpa using hs) fun _ hs => hs
  have hi : i < 512 := by simpa using hi
  refine Spec.pre fun s hs => Spec.gets_bind ?_
  rw [show s.mem t i = m₀ t i by rw [hmem _ s _ t b hs ht]]
  refine Spec.ite (fun hc => Spec.pure fun _ h => h ▸ hskip _ _ t b i ht hi ?_ hs) fun hc => ?_
  · rcases hc with hc | hc | hc
    exacts [.inl hc, .inr (.inl hc), .inr (.inr (by rw [if_pos rfl]; exact hc))]
  · refine Spec.here (hpage t b i ht hi fun hs => hc ?_) hs
    rcases hs with hs | hs | hs
    exacts [.inl hs, .inr (.inl hs), .inr (.inr (by rwa [if_pos rfl] at hs))]

omit hpage in
/-- the loop of an upper level -/
theorem copyUser_rule {n : ℕ} (copyBelow : ℕ → ℕ → K Unit) (stop : Word → Prop) [DecidablePred stop]
    (hstop : ∀ {t b i}, Spans m₀ src (n + 2) t b → i < width (n + 2) → (stop (m₀ t i) ↔ Skipped (n + 2) (m₀ t i)))
    (hbelow : ∀ {t b}, Spans m₀ src (n + 1) t b → Spec (I b) (copyBelow b t) (fun _ => I (b + span (n + 2))) E)
    {t b : ℕ} (ht : Spans m₀ src (n + 2) t b) :
    Spec (I b) (M.forRange (fun i => readEntry t i >>= fun e => if stop e then pure () else
      copyBelow (b + i * span (n + 2)) (frameOf e)) (width (n + 2)) 0)
      (fun _ => I (b + width (n + 2) * span (n + 2))) E := by
  refine Spec.mono (Spec.forRange (I := fun j => I (b + j * span (n + 2))) (width (n + 2)) 0 fun i _ hi => ?_)
    (fun s hs => by simpa using hs) (fun _ s hs => by simpa using hs) fun _ hs => hs
  have hi : i < width (n + 2) := by simpa using hi
  refine Spec.pre fun s hs => Spec.gets_bind ?_
  rw [show s.mem t i = m₀ t i by rw [hmem _ s _ t b hs ht]]
  refine Spec.ite (fun hc => Spec.pure fun _ h => h ▸ hskip _ _ t b i ht hi ((hstop ht hi).1 hc) hs) fun hc => ?_
  have hns : ¬ Skipped (n + 2) (m₀ t i) := fun h => hc ((hstop ht hi).2 h)
  have hl : Link (m₀ t i) (frameOf (m₀ t i)) := by
    refine ⟨fun h => hns (.inl h), ?_, rfl⟩
    by_contra hh
    exact hns (.inr (.inr (by rw [if_neg (by omega)]; simpa using hh)))
  refine Spec.ok (Spec.here (hbelow (ht.link hi hl)) hs) fun _ s h => ?_
  rwa [Nat.add_mul, Nat.one_mul, ← Nat.add_assoc]

/-- **The loops in order of addresses.** An invariant that is indexed by the address up to which pages are copied holds
for the whole lower half in the end. -/
theorem copyUserL4_rule (hflat : ∀ i, isHuge (m₀ src i) = false) :
    Spec (I 0) (copyUserL4 T dst src) (fun _ => I (256 * span 4)) E := by
  have hL2 : ∀ {t b}, Spans m₀ src 2 t b → Spec (I b) (copyUserL2 T dst b t) (fun _ => I (b + span 3)) E := by
    intro t b ht
    have h := copyUser_rule m₀ hmem hskip (n := 0) (copyUserL1 T dst)
      (fun e => e = 0 ∨ ¬ isPresent e = true ∨ isHuge e = true) (fun _ _ => by simp [Skipped])
      (fun h1 => copyUserL1_rule m₀ hmem hskip hpage h1) ht
    exact h
  have hL3 : ∀ {t b}, Spans m₀ src 3 t b → Spec (I b) (copyUserL3 T dst b t) (fun _ => I (b + span 4)) E := by
    intro t b ht
    have h := copyUser_rule m₀ hmem hskip (n := 1) (copyUserL2 T dst)
      (fun e => e = 0 ∨ ¬ isPresent e = true ∨ isHuge e = true) (fun _ _ => by simp [Skipped]) hL2 ht
    exact h
  have h := copyUser_rule m₀ hmem hskip (n := 2) (copyUserL3 T dst)
    (fun e => e = 0 ∨ ¬ isPresent e = true) (fun {t b i} ht _ => ?_) hL3 .root
  · simpa [copyUserL4, span, width] using h
  · rw [ht.four]
    simp [Skipped, hflat]

end Rule

/-! ## While pages are copied -/

/-- the assertion of the copy: tables from before the call keep their entries, new tables lead to new frames and satisfy
`X` -/
def Copying (ρ₀ : Roles) (m₀ : PhysMem) (X : EntryProp) : EntryProp := fun k t i w =>
  (ρ₀ t ≠ .free → w = m₀ t i) ∧
    (ρ₀ t = .free → (k = 1 → isUser w = true → ρ₀ (frameOf w) = .free) ∧ (2 ≤ k → ∀ f, Link w f → ρ₀ f = .free) ∧
      X k t i w)

/-- an assertion about what user code can reach -/
def UserOnly (X : EntryProp) : Prop := ∀ {k t i w}, (k = 1 ∨ isHuge w = true → isUser w = false) → X k t i w

section Copying

variable (hX : UserOnly X)

include hX

theorem copying_lenient : Lenient (Copying ρ₀ m₀ X) ρ₀ := by
  intro k t i w ht hquiet hlink
  refine ⟨fun hne => absurd ht hne, fun _ => ⟨fun hk hu => ?_, fun hk f hl => hlink f hk hl, hX hquiet⟩⟩
  rw [hquiet (.inl hk)] at hu
  cases hu

theorem copying_within : Within (fun t => ρ₀ t = .free) (Copying ρ₀ m₀ X) where
  zero i ht := copying_lenient hX ht (fun _ => by decide) fun f _ hl => absurd hl (not_link_zero f)
  link {k t i w} hk ht hh hl := by
    refine copying_lenient hX ht (fun hc => ?_) fun f _ => hl f
    rcases hc with hc | hc
    · omega
    · cases hh.symm.trans hc
  next hk ht hA hl := (hA.2 ht).2.1 hk _ hl

end Copying

/-- the states of the copy -/
def CopyState (ρ₀ : Roles) (m₀ : PhysMem) (X : EntryProp) (R : Set ℕ) (s : Machine) : Prop :=
  ∃ ρ, Space (Copying ρ₀ m₀ X) (fun f => ρ₀ f ≠ .free) R ρ s ∧ Grows (fun _ => True) ρ₀ m₀ ρ s.mem

theorem CopyState.weaken {s : Machine} (h : CopyState ρ₀ m₀ X R s) : CopyState ρ₀ m₀ (fun _ _ _ _ => True) R s := by
  obtain ⟨ρ, hs, hg⟩ := h
  exact ⟨ρ, hs.mono fun k t i w hA => ⟨hA.1, fun ht => ⟨(hA.2 ht).1, (hA.2 ht).2.1, trivial⟩⟩, hg⟩

/-- a frame that is free now was free before -/
theorem Grows.free {P : ℕ → Prop} (h : Grows P ρ₀ m₀ ρ m) {f : ℕ} (hf : ρ f = .free) : ρ₀ f = .free := by
  by_contra hne
  rw [h.role hne] at hf
  exact hne hf

/-- tables under the new one are new -/
theorem Space.under_new {shared : ℕ → Prop} (h : Space (Copying ρ₀ m₀ X) shared R ρ σ) {r k t : ℕ} (hr : r ∈ R)
    (hnew : ρ₀ r = .free) (hu : Under σ.mem r k t) : ρ₀ t = .free := by
  induction hu with
  | root => exact hnew
  | link hu hl ih => exact ((h.tables.entries _ (h.tables.under hr hu)).2 ih).2.1 (by omega) _ hl

section Page

variable {T : Mapper} (hT : T.Documented)

include hT

/-- **One page of a copy.** A huge page of the kernel in the way may get more flags before the copy fails. -/
theorem copyUserPage_spec (hX : UserOnly X) {dst v t i : ℕ} {pte : Word} (hdst : dst ∈ R) (hnew : ρ₀ dst = .free)
    (hleaf : ∀ f u j, f < 2 ^ 40 → X 1 u j (entry f (copiedFlags pte))) :
    Spec (CopyState ρ₀ m₀ X R) (copyUserPage T dst v t i pte) (fun _ => CopyState ρ₀ m₀ X R)
      (CopyState ρ₀ m₀ (fun _ _ _ _ => True) R) := by
  refine Spec.pre fun s ⟨ρ, h, hg⟩ => ?_
  have hfail : CopyState ρ₀ m₀ X R s := ⟨ρ, h, hg⟩
  unfold copyUserPage
  refine Spec.step (allocateFrame_spec h hfail.weaken) fun f s₁ ha => ?_
  have hg₁ := hg.trans (ha.grows (P := fun _ => True))
  have hf₀ : ρ₀ f.number = .free := hg.free ha.free
  have hfl : OnlyFlags (copiedFlags pte) := by
    unfold copiedFlags
    cases isWritable pte <;> cases isNoExecute pte <;> exact onlyFlags_of_and (by decide)
  refine Spec.step (Spec.attempt_eq _ _) fun res s₂ hres => ?_
  have hmap : ∀ {r}, T.mapTo dst v f.number (copiedFlags pte) s₁ = (r, s₂) → r ≠ .stuck → _ := fun {r} hcall hr =>
    mapsTo_spec (copying_within hX) (hT.mapTo hcall hr) ha.space hdst hnew (fun g hgf => hg₁.free hgf) f.lt hfl
      (fun _ => update_self ..) (fun _ => .inr (ha.unmapped h)) fun u j hu => ⟨fun hne => absurd hu hne, fun _ =>
        ⟨fun _ _ => by rw [frameOf_entry f.lt hfl]; exact hf₀, fun hk => absurd hk (by decide), hleaf _ u j f.lt⟩⟩
  rcases res with e | _
  · -- nothing is mapped, or a huge page has got more flags
    have hstop : CopyState ρ₀ m₀ (fun _ _ _ _ => True) R s₂ := by
      rcases hmap hres nofun with ⟨ρ₂, h₂, hg₂⟩ | ⟨ρ₂, s', l3, l2, extra, h₂, hg₂, hl4, hl3, hh, hex, rfl⟩
      · exact CopyState.weaken ⟨ρ₂, h₂, hg₁.trans (hg₂ _)⟩
      · have ht2 : ρ₂ l2 = .table 2 := h₂.tables.below (h₂.tables.below (h₂.root hdst) hl4) hl3
        have hl2 : ρ₀ l2 = .free := h₂.under_new hdst hnew ((Under.root.link hl4).link hl3)
        have hne : s'.mem l2 (tableIndex 2 v) ≠ 0 := fun hz => by
          rw [hz] at hh
          exact absurd hh (by decide)
        have hentry := h₂.tables.entries (tableIndex 2 v) ht2
        have h₃ : Space (Copying ρ₀ m₀ fun _ _ _ _ => True) (fun f => ρ₀ f ≠ .free) R ρ₂ s' :=
          h₂.mono fun k t i w hA => ⟨hA.1, fun ht => ⟨(hA.2 ht).1, (hA.2 ht).2.1, trivial⟩⟩
        obtain ⟨hs, hgs⟩ := h₃.relink (w := s'.mem l2 (tableIndex 2 v) ||| extra) ht2 (link_or hex hne)
          ⟨fun _ _ => isPresent_or ((h₂.tables.shape _ ht2).live (by decide) hne), fun hk => absurd hk (by decide)⟩
          ⟨fun hc => absurd hl2 hc, fun _ => ⟨fun hk => absurd hk (by decide), fun _ g hl =>
            (hentry.2 hl2).2.1 (le_refl 2) g ((link_or hex hne g).1 hl), trivial⟩⟩
        exact ⟨ρ₂, hs, (hg₁.trans (hg₂ _)).trans (hgs _)⟩
    cases e with
    | pageAlreadyMapped old =>
      refine Spec.step (Spec.attempt_eq _ _) fun res s₃ hres₃ => ?_
      rcases res with e | _
      · obtain rfl := hT.unmap_err hres₃
        exact Spec.fail fun _ hs => hs ▸ hstop
      · exact Spec.halt
    | frameAllocationFailed => exact Spec.fail fun _ hs => hs ▸ hstop
    | parentEntryHugePage => exact Spec.fail fun _ hs => hs ▸ hstop
  · obtain ⟨ρ₂, h₂, hg₂, -⟩ := hmap hres nofun
    refine Spec.gets_bind (Spec.modify ?_)
    intro _ hcur
    obtain rfl : s₂ = _ := hcur.symm
    have hpage : ρ₂ f.number = .page := hg₂.page (update_self ..)
    have hm : ∀ g, g ≠ f.number →
        update s₂.mem f.number (s₂.mem (frameOf (s₂.mem t i))) g = s₂.mem g := fun g hg =>
      update_of_ne hg _ _
    exact ⟨ρ₂, h₂.data hpage hm, (hg₁.trans (hg₂.mono fun _ _ => trivial)).trans (.data hpage hm)⟩

end Page

/-! ## The whole copy -/

/-- afterwards the assertion from before holds again, and only frames that were shared before are mapped twice -/
theorem Space.restore (h₀ : Space A shared R ρ₀ σ₀) {R' : Set ℕ}
    (h : Space (Copying ρ₀ σ₀.mem X) (fun f => ρ₀ f ≠ .free) R' ρ σ) (hrole : ∀ {f}, ρ₀ f ≠ .free → ρ f = ρ₀ f)
    (hXA : ∀ t k i, ρ t = .table k → ρ₀ t = .free → X k t i (σ.mem t i) → A k t i (σ.mem t i)) :
    Space A shared R' ρ σ := by
  -- an old table is the same table as before
  have hold : ∀ {t k}, ρ t = .table k → ρ₀ t ≠ .free → ρ₀ t = .table k ∧ σ.mem t = σ₀.mem t := fun {t k} ht hne =>
    ⟨by rw [← hrole hne, ht], funext fun i => (h.tables.entries i ht).1 hne⟩
  refine ⟨{ (h.assert (B := A) fun t k i ht => ?_).tables with sole := ?_ }, h.stock, h.scratch⟩
  · by_cases hne : ρ₀ t = .free
    · exact hXA t k i ht hne ((h.tables.entries i ht).2 hne).2.2
    · obtain ⟨ht₀, hm⟩ := hold ht hne
      rw [hm]
      exact h₀.tables.entries i ht₀
  · intro t u i j ht hu huser huser' heq hshared
    by_cases hf : ρ₀ (frameOf (σ.mem t i)) = .free
    · exact h.tables.sole ht hu huser huser' heq fun hc => hc hf
    · have hnew : ∀ {t i}, ρ t = .table 1 → isUser (σ.mem t i) = true → ρ₀ (frameOf (σ.mem t i)) ≠ .free →
          ρ₀ t ≠ .free := fun ht huser hf hc => hf (((h.tables.entries _ ht).2 hc).1 rfl huser)
      obtain ⟨ht₀, hmt⟩ := hold ht (hnew ht huser hf)
      obtain ⟨hu₀, hmu⟩ := hold hu (hnew hu huser' (heq ▸ hf))
      rw [hmt] at huser heq hshared
      rw [hmu] at huser' heq
      exact h₀.tables.sole ht₀ hu₀ huser huser' heq hshared

/-- without the new table there are only the old ones -/
theorem Space.old_tables (h₀ : Space A shared R ρ₀ σ₀)
    (h : Space (Copying ρ₀ σ₀.mem X) (fun f => ρ₀ f ≠ .free) R ρ σ) {t k : ℕ} (ht : ρ t = .table k) : ρ₀ t ≠ .free := by
  obtain ⟨r, hr, hu⟩ := h.tables.exists_under ht
  suffices hold : ρ₀ t = .table k by
    rw [hold]
    nofun
  clear ht
  induction hu with
  | root => exact h₀.root hr
  | @link t i f n hu hl ih =>
    have hentry := h.tables.entries i (h.tables.under hr hu)
    rw [hentry.1 (by rw [ih]; nofun)] at hl
    exact h₀.tables.below ih hl

section Clone

variable {T : Mapper} (hT : T.Documented)

include hT

/-- **clone_user_page_table** adds a live table whose pages are new frames, or fails and leaves the live tables as they
were. -/
theorem cloneUserPageTable_spec (hX : UserOnly X) (h₀ : Space A shared R ρ₀ σ₀) {src : ℕ} (hsrc : src / 4096 ∈ R)
    (hleaf : ∀ t b i, Spans σ₀.mem (src / 4096) 1 t b → ¬ Skipped 1 (σ₀.mem t i) → ∀ f u j, f < 2 ^ 40 →
      X 1 u j (entry f (copiedFlags (σ₀.mem t i)))) :
    Spec (· = σ₀) (cloneUserPageTable T src)
      (fun a τ => a % 4096 = 0 ∧ ρ₀ (a / 4096) = .free ∧
        CopyState ρ₀ σ₀.mem X (insert (a / 4096) R) τ)
      (fun τ => ∃ ρ, Space A shared R ρ τ) := by
  unfold cloneUserPageTable
  refine offset_bind ⟨ρ₀, h₀⟩ fun _ => ?_
  -- the assertion of the copy holds from the start
  have hstart : Space (Copying ρ₀ σ₀.mem X) (fun f => ρ₀ f ≠ .free) R ρ₀ σ₀ := by
    have h : Space (Copying ρ₀ σ₀.mem X) shared R ρ₀ σ₀ := h₀.assert fun t k i ht =>
      ⟨fun _ => rfl, fun hc => by rw [ht] at hc; cases hc⟩
    refine h.share fun t i ht hu _ hc => ?_
    rw [h₀.tables.mapped ht hu] at hc
    cases hc
  have hfailed : ∀ {Y ρ τ}, Space (Copying ρ₀ σ₀.mem Y) (fun f => ρ₀ f ≠ .free) R ρ τ →
      (∀ {f}, ρ₀ f ≠ .free → ρ f = ρ₀ f) → ∃ ρ, Space A shared R ρ τ := fun {Y ρ τ} h hrole =>
    ⟨ρ, h₀.restore h hrole fun t k i ht hc => absurd hc (h₀.old_tables h ht)⟩
  refine Spec.step (Spec.post (createUserPageTable_spec (copying_lenient hX) hstart) (fun _ _ hs => hs)
    fun τ ⟨ρ, h, hg⟩ => hfailed h hg.role) fun a σ₁ ⟨halign, hnew, ρ₁, h₁, hg₁⟩ => ?_
  have hdst : a / 4096 ∈ insert (a / 4096) R := .inl rfl
  have hR : insert (a / 4096) R \ {a / 4096} = R := by
    refine Set.insert_sdiff_self_of_notMem fun hc => ?_
    rw [h₀.root hc] at hnew
    cases hnew
  have hcopy : Spec (· = σ₁) (copyUserL4 T (a / 4096) (src / 4096))
      (fun _ => CopyState ρ₀ σ₀.mem X (insert (a / 4096) R))
      (CopyState ρ₀ σ₀.mem (fun _ _ _ _ => True) (insert (a / 4096) R)) := by
    refine Spec.mono (copyUserL4_rule σ₀.mem (I := fun _ => CopyState ρ₀ σ₀.mem X (insert (a / 4096) R))
      (fun v s k t b hs ht => ?_) (fun s k t b i _ _ _ hs => hs) (fun t b i ht hi hns => ?_) fun i => ?_)
      (fun s hs => hs ▸ ⟨ρ₁, h₁, hg₁ _⟩) (fun _ _ hs => hs) fun _ hs => hs
    · obtain ⟨ρ, h, hg⟩ := hs
      have ht₀ := h₀.tables.under hsrc ht.under
      exact funext fun i => (h.tables.entries i (hg.table ht₀)).1 (by rw [ht₀]; nofun)
    · exact copyUserPage_spec hT hX hdst hnew (hleaf t b i ht hns)
    · exact (h₀.tables.shape i (h₀.root hsrc)).flat (by decide)
  refine Spec.onError (C := CopyState ρ₀ σ₀.mem (fun _ _ _ _ => True) (insert (a / 4096) R))
    (Spec.step hcopy fun _ τ hτ => Spec.pure fun _ hs => hs ▸ ⟨halign, hnew, hτ⟩) ?_
  -- the cleanup
  refine Spec.pre fun s ⟨ρ, h, hg⟩ => ?_
  have hprune : ∀ {f}, ρ₀ f ≠ .free → pruned s.mem (a / 4096) ρ f = ρ₀ f := fun {f} hf => by
    rw [pruned_of_not fun k hu => hf (h.under_new hdst hnew hu), hg.role hf]
  refine Spec.post (destroyUserPageTable_spec h hdst fun f ⟨t, i, hut, huser, hf⟩ => ?_)
    (fun _ τ ⟨ρ', h', htorn⟩ => ?_) fun τ hτ => ?_
  · have hft : ρ₀ f = .free := hf ▸
      ((h.tables.entries i (h.tables.under hdst hut)).2 (h.under_new hdst hnew hut)).1 rfl huser
    intro t' i' u j ht' hu huser' huser'' he he'
    exact h.tables.sole ht' hu huser' huser'' (he.trans he'.symm) fun hc => hc (he ▸ hft)
  · rw [hR] at h'
    refine hfailed h' fun {f} hf => ?_
    rw [htorn.role fun hown => ?_, hprune hf]
    rcases owned_cases .root hown with ⟨k, hu⟩ | ⟨t, i, hut, huser, rfl⟩
    · exact hf (h.under_new hdst hnew hu)
    · exact hf (((h.tables.entries i (h.tables.under hdst hut)).2 (h.under_new hdst hnew hut)).1 rfl huser)
  · subst hτ
    exact hfailed (hR ▸ h.prune hdst) hprune

end Clone

end SwiftCore.Mem
