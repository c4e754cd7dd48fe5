/-
The end of an address space.

`destroy_user_page_table` walks the entries for user code and gives back what they lead to, pages first and each table
after its entries. It reads the tables while it frees frames, and a freed frame is overwritten by the allocator: the walk
is right only because no frame of the tree is reached twice.
- `Space.prune`: a live table may be taken out of the account at any time; its frames become ordinary pages.
- `Owned`, `Apart`: the frames that the walk gives back, and that it comes to each of them once.
- `destroyTable_frees`: one level of the walk, from the level below.
- `destroyUserPageTable_spec`: the whole function, for a table whose pages no other live entry maps.
-/
import SwiftCore.Mem.Mappings

namespace SwiftCore.Mem

open Fallible

variable {A : EntryProp} {shared : ℕ → Prop} {R : Set ℕ} {ρ ρ' : Roles} {σ τ : Machine} {m m' : PhysMem}

/-! ## The tables of one address space -/

/-- the tables under the level 4 table `r`, with their levels -/
inductive Under (m : PhysMem) (r : ℕ) : ℕ → ℕ → Prop
  | root : Under m r 4 r
  | link {t i f n : ℕ} (h : Under m r (n + 2) t) (hl : Link (m t i) f) : Under m r (n + 1) f

variable {k t f i : ℕ}

theorem Tables.under (h : Tables A shared R ρ m) {r : ℕ} (hr : r ∈ R) (hu : Under m r k t) : ρ t = .table k := by
  induction hu with
  | root => exact (h.root r).2 hr
  | link _ hl ih => exact h.below ih hl

/-- every table is under a live one -/
theorem Tables.exists_under (h : Tables A shared R ρ m) (ht : ρ t = .table k) : ∃ r ∈ R, Under m r k t := by
  obtain ⟨hk, hk'⟩ := h.level ht
  -- from level 4 down
  obtain ⟨d, hd⟩ := Nat.exists_eq_add_of_le hk'
  induction d generalizing k t with
  | zero =>
    obtain rfl : k = 4 := by omega
    exact ⟨t, (h.root t).1 ht, .root⟩
  | succ d ih =>
    obtain ⟨n, rfl⟩ := Nat.exists_eq_add_of_le' hk
    obtain ⟨u, i, hu, hl⟩ := h.parent ht (by omega)
    obtain ⟨r, hr, hur⟩ := ih hu (by omega) (by omega) (by omega)
    exact ⟨r, hr, hur.link hl⟩

/-- a table is under one live table only -/
theorem Tables.under_unique (h : Tables A shared R ρ m) {r r' : ℕ} (hr : r ∈ R) (hr' : r' ∈ R)
    (hu : Under m r k t) (hu' : Under m r' k t) : r = r' := by
  induction hu with
  | root =>
    generalize hk : 4 = k at hu'
    cases hu' with
    | root => rfl
    | link hu'' hl =>
      have := h.level (h.under hr' hu'')
      omega
  | @link t i f n hut hl ih =>
    generalize hk : n + 1 = k at hu'
    cases hu' with
    | root =>
      have := h.level (h.under hr hut)
      omega
    | @link t' i' _ n' hut' hl' =>
      obtain rfl : n = n' := by omega
      obtain ⟨rfl, -⟩ := h.only (h.under hr hut) (h.under hr' hut') hl hl'
      exact ih hut'

open Classical in
/-- the roles after `r` is given up -/
noncomputable def pruned (m : PhysMem) (r : ℕ) (ρ : Roles) : Roles := fun f =>
  if ∃ k, Under m r k f then .page else ρ f

theorem pruned_under {r : ℕ} (h : Under m r k f) : pruned m r ρ f = .page := if_pos ⟨k, h⟩

theorem pruned_of_not {r : ℕ} (h : ∀ k, ¬ Under m r k f) : pruned m r ρ f = ρ f := if_neg fun ⟨k, hk⟩ => h k hk

/-- a role that tables do not have is kept -/
theorem Tables.pruned_of_ne (h : Tables A shared R ρ m) {r : ℕ} (hr : r ∈ R) (hf : ∀ k, ρ f ≠ .table k) :
    pruned m r ρ f = ρ f := pruned_of_not fun k hk => hf k (h.under hr hk)

/-- the tables that are left -/
theorem pruned_table {r : ℕ} : pruned m r ρ t = .table k ↔ ρ t = .table k ∧ ∀ j, ¬ Under m r j t := by
  by_cases hu : ∃ j, Under m r j t
  · obtain ⟨j, hj⟩ := hu
    rw [pruned_under hj]
    exact iff_of_false nofun fun hc => hc.2 j hj
  · rw [not_exists] at hu
    rw [pruned_of_not hu]
    exact ⟨fun ht => ⟨ht, hu⟩, fun hc => hc.1⟩

/-- roles other than tables and pages do not change -/
theorem Tables.pruned_iff (h : Tables A shared R ρ m) {r : ℕ} (hr : r ∈ R) {x : Role} (hp : x ≠ .page)
    (ht : ∀ k, x ≠ .table k) : pruned m r ρ f = x ↔ ρ f = x := by
  by_cases hu : ∃ j, Under m r j f
  · obtain ⟨j, hj⟩ := hu
    rw [pruned_under hj, h.under hr hj]
    exact iff_of_false hp.symm (ht j).symm
  · rw [pruned_of_not (not_exists.1 hu)]

theorem Tables.prune (h : Tables A shared R ρ m) {r : ℕ} (hr : r ∈ R) :
    Tables A shared (R \ {r}) (pruned m r ρ) m := by
  have htable : ∀ {t k}, pruned m r ρ t = .table k → ρ t = .table k := fun ht => (pruned_table.1 ht).1
  -- the table below one that is left is left, and so is the table above
  have hdown : ∀ {t i f n}, pruned m r ρ t = .table (n + 2) → Link (m t i) f → ∀ j, ¬ Under m r j f := by
    intro t i f n ht hl j hj
    obtain ⟨ht, hnot⟩ := pruned_table.1 ht
    have hf := h.below ht hl
    cases hj with
    | root =>
      rw [h.under hr .root, Role.table.injEq] at hf
      have := h.level ht
      omega
    | @link t' _ _ n' hu' hl' =>
      have := h.below (h.under hr hu') hl'
      rw [hf, Role.table.injEq] at this
      obtain rfl : n = n' := by omega
      obtain ⟨rfl, -⟩ := h.only ht (h.under hr hu') hl hl'
      exact hnot _ hu'
  refine ⟨fun t => ?_, fun ht => h.level (htable ht), fun ht hl => ?_, fun i ht => h.shape i (htable ht),
    fun ht hu hl hl' => h.only (htable ht) (htable hu) hl hl', fun {f n} hf hn => ?_, fun {t i} ht hu => ?_,
    fun ht hu => h.sole (htable ht) (htable hu), fun i ht => h.entries i (htable ht)⟩
  · rw [pruned_table, h.root]
    refine and_congr_right fun ht => ⟨fun hnot he => hnot 4 (he ▸ .root), fun hne j hj => ?_⟩
    have hj4 := h.under hr hj
    rw [(h.root t).2 ht] at hj4
    cases hj4
    exact hne (h.under_unique ht hr .root hj)
  · rw [pruned_of_not (hdown ht hl)]
    exact h.below (htable ht) hl
  · obtain ⟨hf, hnot⟩ := pruned_table.1 hf
    obtain ⟨t, i, ht, hl⟩ := h.parent hf hn
    refine ⟨t, i, pruned_table.2 ⟨ht, fun j hj => ?_⟩, hl⟩
    have hj' := h.under hr hj
    rw [ht] at hj'
    cases hj'
    exact hnot _ (hj.link hl)
  · have hpage := h.mapped (htable ht) hu
    rw [h.pruned_of_ne hr (by rw [hpage]; nofun), hpage]

/-- **Giving up a table.** Its frames are pages from then on. -/
theorem Space.prune (h : Space A shared R ρ σ) {r : ℕ} (hr : r ∈ R) :
    Space A shared (R \ {r}) (pruned σ.mem r ρ) σ :=
  ⟨h.tables.prune hr, h.stock.transfer (fun _ => h.tables.pruned_iff hr nofun nofun) fun _ _ => rfl,
    h.scratch.transfer (fun _ _ => h.tables.pruned_iff hr nofun nofun) fun _ _ _ => rfl⟩

/-! ## What the walk gives back -/

/-- entries that are cleared without a look at what they lead to -/
def forgets : ℕ → Word → Bool
  | 1, _ => false
  | _, e => isHuge e

/-- the entries of a table that the walk looks at -/
def width : ℕ → ℕ
  | 4 => 256
  | _ => 512

/-- the walk goes on below the entry -/
structure Follows (m : PhysMem) (k t i : ℕ) : Prop where
  lt : i < width k
  used : m t i ≠ 0
  present : isPresent (m t i) = true
  user : isUser (m t i) = true
  kept : forgets k (m t i) = false

/-- the frames that go with the table `t` of level `k`; level 0 are the pages -/
def Owned (m : PhysMem) : ℕ → ℕ → ℕ → Prop
  | 0, t, f => f = t
  | k + 1, t, f => f = t ∨ ∃ i, Follows m (k + 1) t i ∧ Owned m k (frameOf (m t i)) f

/-- no frame goes with the table twice -/
def Apart (m : PhysMem) : ℕ → ℕ → Prop
  | 0, _ => True
  | k + 1, t =>
    (∀ i, Follows m (k + 1) t i → Apart m k (frameOf (m t i)) ∧ ¬ Owned m k (frameOf (m t i)) t) ∧
      ∀ i j f, Follows m (k + 1) t i → Follows m (k + 1) t j → Owned m k (frameOf (m t i)) f →
        Owned m k (frameOf (m t j)) f → i = j

theorem Follows.link (h : Follows m (k + 2) t i) : Link (m t i) (frameOf (m t i)) := by
  refine ⟨h.used, ?_, rfl⟩
  have := h.kept
  unfold forgets at this
  exact this

/-- a frame that a table of `r` maps for user code -/
def MapsUnder (m : PhysMem) (r f : ℕ) : Prop := ∃ t i, Under m r 1 t ∧ isUser (m t i) = true ∧ frameOf (m t i) = f

/-- below an entry there are tables of lower levels and mapped pages -/
theorem owned_below {r : ℕ} (ht : Under m r (k + 1) t) (hi : Follows m (k + 1) t i)
    (hf : Owned m k (frameOf (m t i)) f) : (∃ j, j ≤ k ∧ Under m r j f) ∨ MapsUnder m r f := by
  induction k generalizing t i with
  | zero => exact .inr ⟨t, i, ht, hi.user, hf.symm⟩
  | succ k ih =>
    have hu := ht.link hi.link
    rcases hf with rfl | ⟨j, hj, hf⟩
    · exact .inl ⟨k + 1, le_refl _, hu⟩
    · rcases ih hu hj hf with ⟨l, hl, hul⟩ | hmap
      · exact .inl ⟨l, by omega, hul⟩
      · exact .inr hmap

theorem owned_cases {r : ℕ} (ht : Under m r (k + 1) t) (hf : Owned m (k + 1) t f) :
    (∃ j, Under m r j f) ∨ MapsUnder m r f := by
  rcases hf with rfl | ⟨i, hi, hf⟩
  · exact .inl ⟨_, ht⟩
  · rcases owned_below ht hi hf with ⟨j, -, hj⟩ | hmap
    · exact .inl ⟨j, hj⟩
    · exact .inr hmap

/-- the frame is mapped at one place at most -/
def MappedOnce (ρ : Roles) (m : PhysMem) (f : ℕ) : Prop :=
  ∀ t i u j, ρ t = .table 1 → ρ u = .table 1 → isUser (m t i) = true → isUser (m u j) = true →
    frameOf (m t i) = f → frameOf (m u j) = f → t = u ∧ i = j

section Apart

variable (h : Tables A shared R ρ m) {r : ℕ} (hr : r ∈ R)

include h hr

theorem Tables.owned_below_ne (ht : Under m r (k + 1) t) (hi : Follows m (k + 1) t i)
    (hf : Owned m k (frameOf (m t i)) f) : ρ f ≠ .table (k + 1) := by
  intro hk
  rcases owned_below ht hi hf with ⟨j, hj, hu⟩ | ⟨u, j, hu, huser, rfl⟩
  · rw [h.under hr hu, Role.table.injEq] at hk
    omega
  · rw [h.mapped (h.under hr hu) huser] at hk
    cases hk

/-- a frame goes with one table of a level only -/
theorem Tables.owned_unique {a b : ℕ} (hsole : MappedOnce ρ m f) (ha : Under m r (k + 1) a)
    (hb : Under m r (k + 1) b) (hfa : Owned m (k + 1) a f) (hfb : Owned m (k + 1) b f) : a = b := by
  induction k generalizing a b
  all_goals
    rcases hfa with rfl | ⟨i, hi, hfa⟩ <;> rcases hfb with rfl | ⟨j, hj, hfb⟩
    · rfl
    · exact absurd (h.under hr ha) (h.owned_below_ne hr hb hj hfb)
    · exact absurd (h.under hr hb) (h.owned_below_ne hr ha hi hfa)
  case zero => exact (hsole a i b j (h.under hr ha) (h.under hr hb) hi.user hj.user hfa.symm hfb.symm).1
  case succ k ih =>
    have hsame := ih (ha.link hi.link) (hb.link hj.link) hfa hfb
    exact (h.only (h.under hr ha) (h.under hr hb) hi.link (hsame ▸ hj.link)).1

/-- **Every frame once.** The tables are a tree, and the pages are mapped once by assumption. -/
theorem Tables.apart (ht : Under m r (k + 1) t) (hsole : ∀ f, Owned m (k + 1) t f → MappedOnce ρ m f) :
    Apart m (k + 1) t := by
  have hown : ∀ {k t i f}, Follows m (k + 1) t i → Owned m k (frameOf (m t i)) f → Owned m (k + 1) t f :=
    fun hi hf => .inr ⟨_, hi, hf⟩
  induction k generalizing t with
  | zero =>
    refine ⟨fun i hi => ⟨trivial, fun hf => h.owned_below_ne hr ht hi hf (h.under hr ht)⟩,
      fun i j f hi hj hfi hfj => ?_⟩
    exact (hsole f (hown hi hfi) t i t j (h.under hr ht) (h.under hr ht) hi.user hj.user hfi.symm hfj.symm).2
  | succ k ih =>
    refine ⟨fun i hi => ⟨ih (ht.link hi.link) fun f hf => hsole f (hown hi hf), fun hf =>
      h.owned_below_ne hr ht hi hf (h.under hr ht)⟩, fun i j f hi hj hfi hfj => ?_⟩
    have hsame := h.owned_unique hr (hsole f (hown hi hfi)) (ht.link hi.link) (ht.link hj.link) hfi hfj
    exact (h.only (h.under hr ht) (h.under hr ht) hi.link (hsame ▸ hj.link)).2

end Apart

/-! ## The walk -/

/-- the frames in `S` were pages and may have been given back, the others are as they were -/
structure Torn (S : ℕ → Prop) (ρ : Roles) (m : PhysMem) (ρ' : Roles) (m' : PhysMem) : Prop where
  role : ∀ {f}, ¬ S f → ρ' f = ρ f
  mem : ∀ {f}, ¬ S f → m' f = m f
  own : ∀ {f}, S f → ρ' f = .page ∨ ρ' f = .free

namespace Torn

variable {S S' : ℕ → Prop}

theorem refl (hS : ∀ f, S f → ρ f = .page) : Torn S ρ m ρ m := ⟨fun _ => rfl, fun _ => rfl, fun hf => .inl (hS _ hf)⟩

section

variable (h : Torn S ρ m ρ' m')

include h

theorem unmapped (hf : Unmapped ρ m f) : Unmapped ρ' m' f := by
  intro t i ht hu
  have hS : ¬ S t := fun hS => by rcases h.own hS with hc | hc <;> rw [hc] at ht <;> cases ht
  rw [h.role hS] at ht
  rw [h.mem hS] at hu ⊢
  exact hf t i ht hu

/-- a larger set of pages -/
theorem mono (hS : ∀ f, S f → S' f) (hpage : ∀ f, S' f → ρ f = .page) : Torn S' ρ m ρ' m' where
  role hf := h.role fun hc => hf (hS _ hc)
  mem hf := h.mem fun hc => hf (hS _ hc)
  own {f} hf := by
    by_cases hc : S f
    · exact h.own hc
    · exact .inl (by rw [h.role hc, hpage f hf])

theorem trans {ρ'' : Roles} {m'' : PhysMem} (h' : Torn S ρ' m' ρ'' m'') : Torn S ρ m ρ'' m'' :=
  ⟨fun hf => (h'.role hf).trans (h.role hf), fun hf => (h'.mem hf).trans (h.mem hf), fun hf => h'.own hf⟩

/-- a write into one of the pages -/
theorem write {w : Word} (ht : S t) : Torn S ρ m ρ' (setWord m' t i w) :=
  ⟨h.role, fun {f} hf => (setWord_of_ne _ (fun (he : f = t) => hf (he ▸ ht)) _ _).trans (h.mem hf), h.own⟩

end

end Torn

/-- the triple of one level of the walk, in the memory `m` that the walk began with: from a state in which the frames of
a table are pages that nothing maps -/
def Frees (A : EntryProp) (shared : ℕ → Prop) (R : Set ℕ) (m : PhysMem) (k : ℕ) (destroy : ℕ → K Unit) : Prop :=
  ∀ {ρ : Roles} {σ : Machine} {t : ℕ}, Space A shared R ρ σ → Apart m k t →
    (∀ f, Owned m k t f → ρ f = .page ∧ Unmapped ρ σ.mem f ∧ σ.mem f = m f) → ∀ E : Machine → Prop,
    Spec (· = σ) (destroy t) (fun _ τ => ∃ ρ', Space A shared R ρ' τ ∧ Torn (Owned m k t) ρ σ.mem ρ' τ.mem) E

theorem deallocate4kFrameByPhys_spec (h : Space A shared R ρ σ) (hf : ρ f = .page) (hun : Unmapped ρ σ.mem f)
    {E : Machine → Prop} :
    Spec (· = σ) (deallocate4kFrameByPhys f) (fun _ τ => ∃ ρ', Freed A shared R ρ σ f ρ' τ) E := by
  unfold deallocate4kFrameByPhys
  cases hc : PhysFrame.containingAddress (f * 4096) with
  | none => exact Spec.halt
  | some frame =>
    have hnum : frame.number = f := by
      unfold PhysFrame.containingAddress at hc
      split_ifs at hc
      cases hc
      exact Nat.mul_div_cancel f (by decide)
    subst hnum
    exact Spec.step (deallocateFrame_spec h hf hun) fun _ τ hτ => Spec.ret hτ

theorem Freed.torn {S : ℕ → Prop} (h : Freed A shared R ρ σ f ρ' τ) (hf : S f) (hS : ∀ g, S g → ρ g = .page) :
    Torn S ρ σ.mem ρ' τ.mem where
  role {g} hg := h.role g fun he => hg (he ▸ hf)
  mem {g} hg := h.mem g fun he => hg (he ▸ hf)
  own {g} hg := by
    by_cases he : g = f
    · rw [he]
      exact h.own
    · exact .inl (by rw [h.role g he, hS g hg])

/-- a page -/
theorem deallocate4kFrameByPhys_frees : Frees A shared R m 0 deallocate4kFrameByPhys := by
  intro ρ σ t h _ hown E
  obtain ⟨hpage, hun, -⟩ := hown t rfl
  exact Spec.ok (deallocate4kFrameByPhys_spec h hpage hun)
    (fun _ τ ⟨ρ', hfr⟩ => ⟨ρ', hfr.space, hfr.torn rfl fun g hg => (hown g hg).1⟩)

/-- what is given back before the turn `j` of the loop, with the table itself, which is written to -/
def Before (m : PhysMem) (k t j f : ℕ) : Prop :=
  f = t ∨ ∃ i, i < j ∧ Follows m (k + 1) t i ∧ Owned m k (frameOf (m t i)) f

theorem Before.owned {j : ℕ} (h : Before m k t j f) : Owned m (k + 1) t f := by
  rcases h with h | ⟨i, -, hi, hf⟩
  · exact .inl h
  · exact .inr ⟨i, hi, hf⟩

/-- **One level of the walk.** The loop has given back what the entries before its index lead to and has not touched the
others. -/
theorem destroyTable_frees {destroy : ℕ → K Unit} (hbelow : Frees A shared R m k destroy) :
    Frees A shared R m (k + 1) (destroyTable destroy (forgets (k + 1)) (width (k + 1))) := by
  intro ρ σ t h hapart hown E
  have hpage : ∀ j f, Before m k t j f → ρ f = .page := fun j f hf => (hown f hf.owned).1
  obtain ⟨ht, -, hmt⟩ := hown t (.inl rfl)
  -- the loop's invariant
  let I : ℕ → Machine → Prop := fun j s => ∃ ρ', Space A shared R ρ' s ∧ Torn (Before m k t j) ρ σ.mem ρ' s.mem ∧
    ρ' t = .page ∧ ∀ i, j ≤ i → s.mem t i = m t i
  have hnext : ∀ {j s ρ'}, Space A shared R ρ' s → Torn (Before m k t (j + 1)) ρ σ.mem ρ' s.mem → ρ' t = .page →
      (∀ i, j ≤ i → s.mem t i = m t i) → I (j + 1) (s.setEntry t j 0) := by
    intro j s ρ' hs htorn ht' hrest
    refine ⟨ρ', hs.data ht' fun g hg => setWord_of_ne _ hg _ _, htorn.write (.inl rfl), ht', fun i hi => ?_⟩
    show setWord s.mem t j 0 t i = m t i
    rw [setWord_apply, if_neg (by omega)]
    exact hrest i (by omega)
  have hgrow : ∀ {j f}, Before m k t j f → Before m k t (j + 1) f := by
    rintro j f (rfl | ⟨i, hij, hi⟩)
    · exact .inl rfl
    · exact .inr ⟨i, by omega, hi⟩
  unfold destroyTable
  refine Spec.bind (Q := fun _ => I (width (k + 1))) (Spec.mono (Spec.forRange (I := I) (width (k + 1)) 0
    fun j _ hj => ?_) ?_ (fun _ s hs => by rwa [Nat.zero_add] at hs) fun _ hs => hs) fun _ => ?_
  · refine Spec.pre fun s ⟨ρ', hs, htorn, ht', hrest⟩ => Spec.gets_bind ?_
    rw [Nat.zero_add] at hj
    rw [show s.mem t j = m t j from hrest j (le_refl j)]
    have htorn' := htorn.mono (fun _ => hgrow) (hpage (j + 1))
    refine Spec.ite (fun _ => Spec.pure ?_) fun hc => Spec.ite (fun _ => Spec.modify ?_) fun hforget => ?_
    · rintro _ rfl
      exact ⟨ρ', hs, htorn', ht', fun i hi => hrest i (by omega)⟩
    · rintro _ rfl
      exact hnext hs htorn' ht' hrest
    · simp only [not_or, not_not] at hc
      have hfollows : Follows m (k + 1) t j := ⟨hj, hc.1, hc.2.1, hc.2.2, by simpa using hforget⟩
      obtain ⟨hsub, hnot⟩ := hapart.1 j hfollows
      -- the frames below this entry were not reached before
      have hfresh : ∀ f, Owned m k (frameOf (m t j)) f → ¬ Before m k t j f := by
        rintro f hf (rfl | ⟨i, hij, hi, hfi⟩)
        · exact hnot hf
        · have := hapart.2 i j f hi hfollows hfi hf
          omega
      refine Spec.step (hbelow hs hsub (fun f hf => ?_) E) fun _ s' ⟨ρ'', hs', htorn''⟩ => Spec.modify ?_
      · obtain ⟨hp, hun, hmf⟩ := hown f (.inr ⟨j, hfollows, hf⟩)
        exact ⟨by rw [htorn.role (hfresh f hf), hp], htorn.unmapped hun, by rw [htorn.mem (hfresh f hf), hmf]⟩
      · intro _ hcur
        obtain rfl : s' = _ := hcur.symm
        have hwide : Torn (Before m k t (j + 1)) ρ' s.mem ρ'' s'.mem := by
          refine ⟨fun hf => htorn''.role fun hc => hf (.inr ⟨j, by omega, hfollows, hc⟩),
            fun hf => htorn''.mem fun hc => hf (.inr ⟨j, by omega, hfollows, hc⟩), fun {f} hf => ?_⟩
          by_cases hc : Owned m k (frameOf (m t j)) f
          · exact htorn''.own hc
          · rw [htorn''.role hc]
            exact htorn'.own hf
        refine hnext hs' (htorn'.trans hwide) (by rw [htorn''.role hnot, ht']) fun i hi => ?_
        rw [htorn''.mem hnot]
        exact hrest i hi
  · rintro _ rfl
    exact ⟨ρ, h, .refl (hpage 0), ht, fun i _ => by rw [hmt]⟩
  · refine Spec.pre fun s ⟨ρ', hs, htorn, ht', _⟩ => ?_
    have hall := htorn.mono (fun _ hf => hf.owned) fun f hf => (hown f hf).1
    have hun : Unmapped ρ' s.mem t := htorn.unmapped (hown t (.inl rfl)).2.1
    refine Spec.ok (deallocate4kFrameByPhys_spec hs ht' hun) (fun _ τ ⟨ρ'', hfr⟩ => ?_)
    refine ⟨ρ'', hfr.space, fun hf => ?_, fun hf => ?_, fun {f} hf => ?_⟩
    · rw [hfr.role _ fun he => hf (.inl he), hall.role hf]
    · rw [hfr.mem _ fun he => hf (.inl he), hall.mem hf]
    · by_cases he : f = t
      · rw [he]
        exact hfr.own
      · rw [hfr.role f he]
        exact hall.own hf

theorem destroyUserL3Table_frees : Frees A shared R m 3 destroyUserL3Table :=
  destroyTable_frees (destroyTable_frees (destroyTable_frees deallocate4kFrameByPhys_frees))

/-- **destroy_user_page_table** ends an address space: its frames are given back or become pages without an owner, and
no other table changes. -/
theorem destroyUserPageTable_spec (h : Space A shared R ρ σ) {tablePhys : ℕ} (hr : tablePhys / 4096 ∈ R)
    (hsole : ∀ f, MapsUnder σ.mem (tablePhys / 4096) f → MappedOnce ρ σ.mem f) :
    Spec (· = σ) (destroyUserPageTable tablePhys)
      (fun _ τ => ∃ ρ', Space A shared (R \ {tablePhys / 4096}) ρ' τ ∧
        Torn (Owned σ.mem 4 (tablePhys / 4096)) (pruned σ.mem (tablePhys / 4096) ρ) σ.mem ρ' τ.mem)
      (fun τ => τ = σ) := by
  have hroot : Under σ.mem (tablePhys / 4096) 4 (tablePhys / 4096) := .root
  unfold destroyUserPageTable
  refine Spec.guard (fun _ hs => hs) fun _ => offset_bind rfl fun _ => ?_
  -- a table is mapped nowhere, a page only in the table that ends
  have hunder : ∀ {k f}, Under σ.mem (tablePhys / 4096) k f → ∀ t i, ρ t = .table 1 → isUser (σ.mem t i) = true →
      frameOf (σ.mem t i) ≠ f := by
    rintro k f hu t i ht huser rfl
    have := h.tables.mapped ht huser
    rw [h.tables.under hr hu] at this
    cases this
  refine destroyTable_frees destroyUserL3Table_frees (h.prune hr) (h.tables.apart hr hroot fun f hf => ?_)
    (fun f hf => ?_) _
  · rcases owned_cases hroot hf with ⟨k, hu⟩ | hmap
    · exact fun t i _ _ ht _ huser _ he _ => absurd he (hunder hu t i ht huser)
    · exact hsole f hmap
  · rcases owned_cases hroot hf with ⟨k, hu⟩ | hmap
    · exact ⟨pruned_under hu, fun t i ht huser => hunder hu t i (pruned_table.1 ht).1 huser, rfl⟩
    · have hmap' := hmap
      obtain ⟨u, j, hu, huser, rfl⟩ := hmap
      have hpage := h.tables.mapped (h.tables.under hr hu) huser
      refine ⟨by rw [h.tables.pruned_of_ne hr (by rw [hpage]; nofun), hpage], fun t i ht huser' he => ?_, rfl⟩
      obtain ⟨ht, hnot⟩ := pruned_table.1 ht
      obtain ⟨rfl, -⟩ := hsole _ hmap' t i u j ht (h.tables.under hr hu) huser' huser he rfl
      exact hnot 1 hu

end SwiftCore.Mem
