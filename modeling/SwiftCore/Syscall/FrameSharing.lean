/-
Frames of shared memory.

Processes map memory with mmap, brk and alloc_shared_pages, share frames with map_physical_pages and ipc_send_pages, and
give frames back with munmap, unmap_pages and at their end. Nothing counts how often a frame is mapped.
- `sound_of_careful_run`: while every frame that a call gives back is mapped at that one place, no frame waits in the
  free list that a live table still maps, none is there twice, and two address spaces share only what was shared.
- `freed_while_mapped`: a service gives a page back that it shared, and the other process still maps it; with a direct map
  at offset 0, where nothing is given back, a frame is mapped for one process before it is handed out to another.
-/
import SwiftCore.Mem.Unmapping
import SwiftCore.Mem.WriteXorExecute
import SwiftCore.Syscall.Memory

namespace SwiftCore.Syscall.FrameSharing

open Fallible Mem Run Memory Function

variable {A : EntryProp} {shared : ℕ → Prop} {R : Set ℕ} {ρ ρ' ρ₀ : Roles} {σ τ : Machine} {m : PhysMem}

/-! ## Pages in a row -/

variable {E : Machine → Prop} {i tid : ℕ} {p : Process}

theorem pageAt_spec (virt j : ℕ) : Spec (· = σ) (pageAt virt j) (fun v τ => v = virt + j * 0x1000 ∧ τ = σ) E := by
  unfold pageAt
  exact Spec.ite (fun _ => Spec.pure fun s hs => ⟨rfl, hs⟩) fun _ => Spec.halt

/-- the entries of the first `n` pages from `virt` on are clear -/
def ClearedPages (m m' : PhysMem) (r virt n : ℕ) : Prop :=
  ∀ j, j < n → ∀ t, Walk m r (virt + j * 0x1000) t → m' t (tableIndex 1 (virt + j * 0x1000)) = 0

theorem unmapPagesBefore_spec (hA : Mild A) (h : Space A shared R ρ σ) {pt virt n : ℕ} (hr : pt / 4096 ∈ R)
    (hh : ∀ j, j < n → ¬ HugeAt σ.mem (pt / 4096) (virt + j * 0x1000)) :
    Spec (· = σ) (unmapPagesBefore pt virt n)
      (fun _ τ => Space A shared R ρ τ ∧ Cleared ρ σ.mem ρ τ.mem ∧
        (pt % 4096 = 0 → virt % 4096 = 0 → σ.physOffset ≠ none → ClearedPages σ.mem τ.mem (pt / 4096) virt n)) E := by
  have hloop : Spec _ (unmapPagesBefore pt virt n) _ E := Spec.forRange (I := fun i τ => Space A shared R ρ τ ∧
      Cleared ρ σ.mem ρ τ.mem ∧ τ.physOffset = σ.physOffset ∧
      (pt % 4096 = 0 → virt % 4096 = 0 → σ.physOffset ≠ none → ClearedPages σ.mem τ.mem (pt / 4096) virt i))
    n 0 fun j _ hj => Spec.pre fun τ ⟨hτ, hc, hoff, hz⟩ =>
      Spec.step (pageAt_spec virt j) fun v τ' ⟨hv, hτ'⟩ => ?_
  · refine Spec.mono hloop ?_ (fun _ τ hτ => ⟨hτ.1, hτ.2.1, by simpa using hτ.2.2.2⟩) fun _ hs => hs
    rintro s rfl
    exact ⟨h, .refl _ _, rfl, fun _ _ _ j hj => absurd hj (by omega)⟩
  · subst hv hτ'
    have hhuge : ¬ HugeAt τ'.mem (pt / 4096) (virt + j * 0x1000) := fun hc' =>
      hh j (by omega) ((hc.huge_iff h.tables hr).1 hc')
    refine Spec.step (unmapPageInTable_cleared hA hτ hr hhuge) fun _ τ₁ ⟨h₁, hc₁, hoff₁, hz₁⟩ => Spec.ret ?_
    refine ⟨h₁, hc.trans hc₁, hoff₁.trans hoff, fun hpt hvirt hw i hi t ht => ?_⟩
    by_cases hij : i = j
    · subst hij
      exact hz₁ hpt (by omega) (by rw [hoff]; exact hw) t ((hc.walk_iff h.tables hr).2 ht)
    · -- a page that was cleared before
      have hzero := hz hpt hvirt hw i (by omega) t ht
      rcases hc₁.leaf (tableIndex 1 (virt + i * 0x1000)) (h.walk hr ht) with he | he
      · rw [he, hzero]
      · exact he

/-! ## Placing a list of frames -/

variable (shared)

/-- the first `i` frames of a list are mapped one after another from `virt` on, those that are not shared nowhere else,
and the rest not at all -/
structure Placed (R : Set ℕ) (r virt : ℕ) (pages : List ℕ) (ρ₀ : Roles) (i : ℕ) (ρ : Roles) (τ : Machine) : Prop where
  space : Space Plain shared R ρ τ
  page : ∀ {f}, ρ₀ f = .page → ρ f = .page
  window : 0 < i → τ.physOffset ≠ none
  walk : ∀ {j}, j < i → ∃ t, Walk τ.mem r (virt + j * 0x1000) t
  only : ∀ {j phys : ℕ}, j < i → pages[j]? = some phys → ¬ shared (phys / 4096) → ∀ t k, ρ t = .table 1 →
    isUser (τ.mem t k) = true → frameOf (τ.mem t k) = phys / 4096 →
    Walk τ.mem r (virt + j * 0x1000) t ∧ k = tableIndex 1 (virt + j * 0x1000)
  rest : ∀ {j phys : ℕ}, i ≤ j → pages[j]? = some phys → ¬ shared (phys / 4096) → Unmapped ρ τ.mem (phys / 4096)

/-- frames that may be mapped: in the role of pages, and those that are not shared once each -/
structure Mappable (pages : List ℕ) (ρ : Roles) : Prop where
  lt : ∀ {phys}, phys ∈ pages → phys < 2 ^ 52
  page : ∀ {phys}, phys ∈ pages → ρ (phys / 4096) = .page
  once : ∀ {j k p q : ℕ}, pages[j]? = some p → pages[k]? = some q → p / 4096 = q / 4096 → ¬ shared (p / 4096) → j = k

/-- none of the frames that are not shared is mapped any more -/
structure Emptied (R : Set ℕ) (pages : List ℕ) (ρ₀ ρ : Roles) (τ : Machine) : Prop where
  space : Space Plain shared R ρ τ
  page : ∀ {f}, ρ₀ f = .page → ρ f = .page
  unmapped : ∀ {phys}, phys ∈ pages → ¬ shared (phys / 4096) → Unmapped ρ τ.mem (phys / 4096)

variable {shared}

section Placing

variable {r virt pt : ℕ} {pages : List ℕ}

/-- tables may grow as long as no frame of the list gets a new mapping -/
theorem Placed.grow {S P : ℕ → Prop} (h : Placed shared R r virt pages ρ₀ i ρ σ) (hr : r ∈ R)
    (h' : Space Plain shared R ρ' τ) (hoff : 0 < i → τ.physOffset ≠ none) (hg : Grows P ρ σ.mem ρ' τ.mem)
    (hnew : NoNew S ρ σ.mem ρ' τ.mem)
    (hS : ∀ {j phys : ℕ}, j < i → pages[j]? = some phys → ¬ shared (phys / 4096) → S (phys / 4096))
    (hP : ∀ {j phys : ℕ}, i ≤ j → pages[j]? = some phys → ¬ shared (phys / 4096) → ¬ P (phys / 4096)) :
    Placed shared R r virt pages ρ₀ i ρ' τ where
  space := h'
  page hf := hg.page (h.page hf)
  window := hoff
  walk hj := by
    obtain ⟨t, ht⟩ := h.walk hj
    exact ⟨t, hg.walk h.space.tables hr ht⟩
  only {j phys} hj hp hns t k ht hu he := by
    obtain ⟨ht₀, hu₀, he₀⟩ := hnew t k ht hu (he ▸ hS hj hp hns)
    obtain ⟨hw, hk⟩ := h.only hj hp hns t k ht₀ hu₀ (he₀.trans he)
    exact ⟨hg.walk h.space.tables hr hw, hk⟩
  rest hj hp hns := hg.unmapped (hP hj hp hns) (h.rest hj hp hns)

/-- one page of the list -/
theorem mapPage_placed {phys : ℕ} (hm : Mappable shared pages ρ₀) (h : Placed shared R (pt / 4096) virt pages ρ₀ i ρ σ)
    (hr : pt / 4096 ∈ R) (hi : pages[i]? = some phys) :
    Spec (· = σ) (mapPageInTable pt (virt + i * 0x1000) phys true true)
      (fun _ τ => ∃ ρ', Placed shared R (pt / 4096) virt pages ρ₀ (i + 1) ρ' τ)
      (fun τ => ∃ ρ', Placed shared R (pt / 4096) virt pages ρ₀ i ρ' τ) := by
  have hmem := List.mem_of_getElem? hi
  have hsh : shared (phys / 4096) ∨ Unmapped ρ σ.mem (phys / 4096) := by
    by_cases hs : shared (phys / 4096)
    · exact .inl hs
    · exact .inr (h.rest (le_refl i) hi hs)
  -- the other frames of the list that are not shared are other frames
  have hother : ∀ {j q : ℕ}, j ≠ i → pages[j]? = some q → ¬ shared (q / 4096) → q / 4096 ≠ phys / 4096 :=
    fun hj hq hns he => hj (hm.once hq hi he hns)
  refine Spec.post (Spec.and (mapPageInTable_stays plain_mild h.space hr (hm.lt hmem) (h.page (hm.page hmem)) hsh
    fun t k => plain_leaf t k _) (mapPageInTable_window pt (virt + i * 0x1000) phys true true σ))
    (fun _ τ ⟨⟨ρ', h', hg, hnew, t, hw, ht⟩, hwin⟩ => ⟨ρ', ?_⟩) fun τ ⟨⟨ρ', h', hg, hnew⟩, hwin⟩ => ⟨ρ', ?_⟩
  · have hframe : frameOf (entry (phys / 4096) (pageFlags true true)) = phys / 4096 :=
      frameOf_entry (by have := hm.lt hmem; omega) (onlyFlags_of_and (by decide))
    have huser : isUser (entry (phys / 4096) (pageFlags true true)) = true := by
      rw [isUser_entry (by have := hm.lt hmem; omega)]
      decide
    have hkeep : ∀ {j}, j < i → ∃ t, Walk τ.mem (pt / 4096) (virt + j * 0x1000) t := fun hj => by
      obtain ⟨u, hu⟩ := h.walk hj
      exact ⟨u, hg.walk h.space.tables hr hu⟩
    refine ⟨h', fun hf => hg.page (h.page hf), fun _ => hwin, fun {j} hj => ?_, fun {j q} hj hq hns u k hu huk he => ?_,
      fun {j q} hj hq hns => hg.unmapped (hother (by omega) hq hns) (h.rest (by omega) hq hns)⟩
    · rcases Nat.lt_succ_iff_lt_or_eq.1 hj with hj | rfl
      · exact hkeep hj
      · exact ⟨t, hw⟩
    · rcases Nat.lt_succ_iff_lt_or_eq.1 hj with hj | rfl
      · obtain ⟨hu₀, huk₀, he₀⟩ := hnew u k hu huk (he ▸ hother (by omega) hq hns)
        obtain ⟨hwj, hk⟩ := h.only hj hq hns u k hu₀ huk₀ (he₀.trans he)
        exact ⟨hg.walk h.space.tables hr hwj, hk⟩
      · -- the new page is the only place of its frame
        cases hq.symm.trans hi
        obtain ⟨rfl, rfl⟩ := h'.tables.sole hu (h'.walk hr hw) huk (by rw [ht]; exact huser)
          (by rw [he, ht, hframe]) (by rw [he]; exact hns)
        exact ⟨hw, rfl⟩
  · exact h.grow hr h' (fun hpos => by rw [hwin]; exact h.window hpos) hg hnew
      (fun hj hq hns => hother (by omega) hq hns) fun _ _ _ hf => hf

/-- the pages placed so far are taken away again -/
theorem unmapPages_placed (h : Placed shared R (pt / 4096) virt pages ρ₀ i ρ σ) (hr : pt / 4096 ∈ R)
    (hpt : pt % 4096 = 0) (hvirt : virt % 4096 = 0) :
    Spec (· = σ) (unmapPagesBefore pt virt i) (fun _ => Emptied shared R pages ρ₀ ρ) E := by
  have hh : ∀ j, j < i → ¬ HugeAt σ.mem (pt / 4096) (virt + j * 0x1000) := by
    rintro j hj ⟨l3, l2, h4, h3, hh⟩
    obtain ⟨t, k3, k2, g4, g3, g2⟩ := h.walk hj
    obtain rfl := h4.frame g4
    obtain rfl := h3.frame g3
    rw [g2.2.1] at hh
    cases hh
  refine Spec.ok (unmapPagesBefore_spec plain_mild h.space hr hh)
    (fun _ τ ⟨h', hc, hz⟩ => ⟨h', h.page, fun {phys} hmem hns => ?_⟩)
  obtain ⟨j, hj⟩ := List.mem_iff_getElem?.1 hmem
  by_cases hji : j < i
  · -- its only place is clear now
    intro t k ht hu he
    have hsame := hc.user ht hu
    rw [hsame] at hu he
    obtain ⟨hw, rfl⟩ := h.only hji hj hns t k ht hu he
    have hzero := hz hpt hvirt (h.window (by omega)) j hji t hw
    rw [← hsame, hzero] at hu
    exact absurd hu (by decide)
  · exact hc.unmapped (h.rest (by omega) hj hns)

/-- **The list is placed as a whole, or not at all.** -/
theorem mapPages_spec (hm : Mappable shared pages ρ₀) (hr : pt / 4096 ∈ R) (hpt : pt % 4096 = 0)
    (hvirt : virt % 4096 = 0) {rest : List ℕ} (hrest : pages.drop i = rest)
    (h : Placed shared R (pt / 4096) virt pages ρ₀ i ρ σ) :
    Spec (· = σ) (mapPages pt virt i rest)
      (fun _ τ => ∃ ρ', Placed shared R (pt / 4096) virt pages ρ₀ pages.length ρ' τ)
      (fun τ => ∃ ρ', Emptied shared R pages ρ₀ ρ' τ) := by
  induction rest generalizing i ρ σ with
  | nil =>
    have hlen : pages.length ≤ i := List.drop_eq_nil_iff.1 hrest
    refine Spec.ret ?_
    refine ⟨ρ, h.space, h.page, fun hpos => h.window (by omega), fun hj => h.walk (by omega),
      fun hj => h.only (by omega), fun {j phys} hj hp => ?_⟩
    rw [List.getElem?_eq_none hj] at hp
    cases hp
  | cons phys rest ih =>
    have hi : pages[i]? = some phys := by
      have := congrArg (·[0]?) hrest
      simpa using this
    have hdrop : pages.drop (i + 1) = rest := by rw [← List.tail_drop, hrest, List.tail_cons]
    unfold mapPages
    refine Spec.step (pageAt_spec virt i) fun v σ' ⟨hv, hσ'⟩ => ?_
    subst hv hσ'
    refine Spec.step (Spec.onError (mapPage_placed hm h hr hi) (Spec.pre fun τ ⟨ρ', h'⟩ =>
      Spec.ok (unmapPages_placed h' hr hpt hvirt) (fun _ _ hs => ⟨ρ', hs⟩)))
      fun _ τ ⟨ρ', h'⟩ => ih hdrop h'

end Placing

/-- writing into pages moves nothing -/
theorem Placed.same {r virt i : ℕ} {pages : List ℕ} (h : Placed shared R r virt pages ρ₀ i ρ σ) (hr : r ∈ R)
    (h' : Space Plain shared R ρ τ) (hoff : 0 < i → τ.physOffset ≠ none) (hsame : SameTables ρ σ.mem τ.mem) :
    Placed shared R r virt pages ρ₀ i ρ τ := by
  have hc : Cleared ρ σ.mem ρ τ.mem := ⟨.rfl, fun ht => hsame _ _ ht, fun i ht => .inl (congrFun (hsame _ _ ht) i)⟩
  refine ⟨h', h.page, hoff, fun hj => ?_, fun {j phys} hj hp hns t k ht hu he => ?_,
    fun hj hp hns => hc.unmapped (h.rest hj hp hns)⟩
  · obtain ⟨t, hw⟩ := h.walk hj
    exact ⟨t, (hc.walk_iff h.space.tables hr).2 hw⟩
  · rw [hsame t 1 ht] at hu he
    obtain ⟨hw, hk⟩ := h.only hj hp hns t k ht hu he
    exact ⟨(hc.walk_iff h.space.tables hr).2 hw, hk⟩

/-! ## Taking and giving back frames -/

theorem deallocateFrames_spec (fs : List PhysFrame) (h : Space A shared R ρ σ) (hnodup : fs.Nodup)
    (hf : ∀ f ∈ fs, ρ f.number = .page ∧ Unmapped ρ σ.mem f.number) :
    Spec (· = σ) (deallocateFrames fs) (fun _ τ => ∃ ρ', Space A shared R ρ' τ) E := by
  induction fs generalizing ρ σ with
  | nil => exact Spec.pure fun s hs => hs ▸ ⟨ρ, h⟩
  | cons f fs ih =>
    obtain ⟨hnot, hnodup⟩ := List.nodup_cons.1 hnodup
    obtain ⟨hpage, hun⟩ := hf f List.mem_cons_self
    refine Spec.step (deallocateFrame_spec h hpage hun) fun _ τ ⟨ρ', hfr⟩ => ih hfr.space hnodup fun g hg => ?_
    have hne : g.number ≠ f.number := fun he => hnot (PhysFrame.ext_number he ▸ hg)
    obtain ⟨hgpage, hgun⟩ := hf g (List.mem_cons_of_mem _ hg)
    exact ⟨(hfr.role _ hne).trans hgpage, (hfr.cleared hpage).unmapped hgun⟩

/-- frames that were just handed out -/
structure Taken (A : EntryProp) (shared : ℕ → Prop) (R : Set ℕ) (ρ₀ : Roles) (fs : List PhysFrame) (ρ : Roles)
    (τ : Machine) : Prop where
  space : Space A shared R ρ τ
  free : ∀ f ∈ fs, ρ₀ f.number = .free
  page : ∀ f ∈ fs, ρ f.number = .page ∧ Unmapped ρ τ.mem f.number
  kept : ∀ {f}, ρ f = .free → ρ₀ f = .free
  nodup : fs.Nodup

theorem allocateFrames_spec (n : ℕ) {fs : List PhysFrame} (h : Taken A shared R ρ₀ fs ρ σ) :
    Spec (· = σ) (allocateFrames n fs) (fun gs τ => gs.length = fs.length + n ∧ ∃ ρ', Taken A shared R ρ₀ gs ρ' τ)
      (fun τ => ∃ ρ', Space A shared R ρ' τ) := by
  induction n generalizing fs ρ σ with
  | zero => exact Spec.pure fun s hs => hs ▸ ⟨rfl, ρ, h⟩
  | succ n ih =>
    refine Spec.step (Spec.onError (allocateFrame_spec h.space (E := (· = σ)) rfl)
      (deallocateFrames_spec fs h.space h.nodup h.page)) fun f τ ha => Spec.mono
      (ih (ρ := update ρ f.number .page) ?_) (fun _ hs => hs)
      (fun gs _ hs => ⟨by simp only [hs.1, List.length_append, List.length_singleton]; omega, hs.2⟩) fun _ hs => hs
    have hnew : f ∉ fs := fun hf => by
      have := (h.page f hf).1
      cases ha.free.symm.trans this
    have hgrows := ha.grows (P := fun _ => False)
    refine ⟨ha.space, fun g hg => ?_, fun g hg => ?_, fun {g} hg => ?_, ?_⟩
    · rcases List.mem_append.1 hg with hg | hg
      · exact h.free g hg
      · exact List.mem_singleton.1 hg ▸ h.kept ha.free
    · rcases List.mem_append.1 hg with hg | hg
      · exact ⟨hgrows.page (h.page g hg).1, hgrows.unmapped id (h.page g hg).2⟩
      · rw [List.mem_singleton.1 hg]
        exact ⟨update_self .., ha.unmapped h.space⟩
    · rw [update_apply] at hg
      split_ifs at hg
      exact h.kept hg
    · exact List.nodup_append.2 ⟨h.nodup, List.nodup_singleton f, fun a ha b hb =>
        fun he => hnew (by rw [← List.mem_singleton.1 hb, ← he]; exact ha)⟩

theorem freeOnce_spec (phys freed : List ℕ) (h : Space A shared R ρ σ)
    (hf : ∀ p ∈ phys, firstPage p ∉ freed → ρ (p / 4096) = .page ∧ Unmapped ρ σ.mem (p / 4096)) :
    Spec (· = σ) (freeOnce phys freed) (fun _ τ => ∃ ρ', Space A shared R ρ' τ) E := by
  induction phys generalizing ρ σ freed with
  | nil => exact Spec.pure fun s hs => hs ▸ ⟨ρ, h⟩
  | cons p phys ih =>
    unfold freeOnce
    refine Spec.ite (fun _ => ih freed h fun q hq => hf q (List.mem_cons_of_mem _ hq)) fun hnot => ?_
    obtain ⟨hpage, hun⟩ := hf p List.mem_cons_self hnot
    refine Spec.step (deallocate4kFrameByPhys_spec h hpage hun) fun _ τ ⟨ρ', hfr⟩ => ih _ hfr.space fun q hq hqn => ?_
    have hne : q / 4096 ≠ p / 4096 := fun he => hqn (by
      rw [show firstPage q = firstPage p by unfold firstPage; omega]
      exact List.mem_cons_self)
    obtain ⟨hqpage, hqun⟩ := hf q (List.mem_cons_of_mem _ hq) fun hc => hqn (List.mem_cons_of_mem _ hc)
    exact ⟨(hfr.role _ hne).trans hqpage, (hfr.cleared hpage).unmapped hqun⟩

theorem physAddrs_spec (pt virt n i : ℕ) :
    Spec (· = σ) (physAddrs pt virt n i) (fun l τ => τ = σ ∧ ∀ p ∈ l, ∃ j, i ≤ j ∧ j < i + n ∧
      virtToPhysInTable σ pt (virt + j * 0x1000) = some p) E := by
  induction n generalizing i with
  | zero => exact Spec.pure fun s hs => ⟨hs, nofun⟩
  | succ n ih =>
    unfold physAddrs
    refine Spec.step (pageAt_spec virt i) fun v σ' ⟨hv, hσ'⟩ => ?_
    subst hv hσ'
    refine Spec.gets_bind (Spec.step (ih (i + 1)) fun l τ ⟨hτ, hl⟩ => Spec.ret ?_)
    refine ⟨hτ, fun p hp => ?_⟩
    rcases List.mem_append.1 hp with hp | hp
    · exact ⟨i, le_refl i, by omega, Option.mem_toList.1 hp⟩
    · obtain ⟨j, hj, hlt, he⟩ := hl p hp
      exact ⟨j, by omega, by omega, he⟩

/-! ## Inside a system call -/

/-- the page table of a process -/
def tableOf (s : Sys) (pid : ℕ) : Option ℕ := (s.processes pid).bind Process.pageTable

/-- the level 4 tables of the processes -/
def rootsOf (tab : ℕ → Option ℕ) : Set ℕ := { t | ∃ pid, tab pid = some (t * 4096) }

/-- the processes have the tables `tab`, and the machine satisfies `P` -/
def Upon (tab : ℕ → Option ℕ) (P : Machine → Prop) (s : Sys) : Prop := tableOf s = tab ∧ P s.machine

theorem tableOf_setProcess (s : Sys) (pid : ℕ) (p : Process) :
    tableOf (setProcess s pid p) = update (tableOf s) pid p.pageTable := by
  funext q
  by_cases hq : q = pid
  · subst hq
    simp [tableOf, setProcess]
  · simp [tableOf, setProcess, update_of_ne hq]

section Calls

variable {tab : ℕ → Option ℕ} {P : Machine → Prop} {pid : ℕ} {e : Errno}

theorem upon_setProcess {s : Sys} (h : Upon tab P s) (hp : p.pageTable = tab pid) :
    Upon tab P (setProcess s pid p) := ⟨by rw [tableOf_setProcess, h.1, hp, update_eq_self], h.2⟩

theorem setProcess_spec (hp : p.pageTable = tab pid) {E : Sys → Prop} :
    Spec (Upon tab P) (M.modify fun s => setProcess s pid p : S Unit) (fun _ => Upon tab P) E :=
  Spec.modify fun _ hs => upon_setProcess hs hp

theorem paging_spec {α : Type} {x : K α} {Q : α → Machine → Prop} (hx : Spec P x Q E) :
    Spec (Upon tab P) (paging e x) (fun a => Upon tab (Q a)) (Upon tab E) := by
  rintro s ⟨htab, hs⟩
  have h := hx s.machine hs
  unfold paging
  rcases hxs : x s.machine with ⟨_ | _ | _, τ⟩ <;> rw [hxs] at h
  · exact ⟨htab, h⟩
  · exact ⟨htab, h⟩
  · trivial

theorem withProcess_same {I : Sys → Prop} (pid : ℕ) (e : Errno) :
    Spec I (withProcess pid e) (fun p s => I s ∧ s.processes pid = some p) I := by
  intro s hs
  unfold withProcess
  cases hp : s.processes pid with
  | none => exact hs
  | some p => exact ⟨hs, hp⟩

theorem withProcess_spec : Spec (Upon tab P) (withProcess pid e) (fun p s => Upon tab P s ∧ p.pageTable = tab pid)
    (Upon tab P) :=
  Spec.ok (withProcess_same pid e) fun p s ⟨hs, hp⟩ => ⟨hs, by rw [← hs.1, tableOf, hp, Option.bind_some]⟩

theorem pageTableOf_spec (hp : p.pageTable = tab pid) :
    Spec (Upon tab P) (pageTableOf p e) (fun a s => Upon tab P s ∧ tab pid = some a) (Upon tab P) := by
  unfold pageTableOf
  cases ha : p.pageTable with
  | none => exact Spec.fail fun s hs => hs
  | some a => exact Spec.pure fun s hs => ⟨hs, hp ▸ ha⟩

theorem orInvalid_spec {I : Sys → Prop} (a : Option ℕ) :
    Spec I (orInvalid a) (fun v s => I s ∧ a = some v) I := by
  unfold orInvalid
  cases a with
  | none => exact Spec.fail fun s hs => hs
  | some v => exact Spec.pure fun s hs => ⟨hs, rfl⟩

theorem openHeap_pageTable (hash floor maxPages : ℕ) (p : Process) :
    (openHeap hash floor maxPages p).pageTable = p.pageTable := by
  unfold openHeap
  split_ifs <;> rfl

theorem requireServicePrivilege_spec {I : Sys → Prop} (pid : ℕ) :
    Spec I (requireServicePrivilege pid) (fun _ => I) I :=
  Spec.bind (withProcess_same pid _) fun _ => Spec.guard (fun _ hs => hs.1) fun _ => Spec.pure fun _ hs => hs.1

theorem requireAllowed_spec {I : Sys → Prop} (pages : List ℕ) : Spec I (requireAllowed pages) (fun _ => I) I := by
  induction pages with
  | nil => exact Spec.pure fun _ hs => hs
  | cons phys pages ih =>
    refine Spec.bind (Spec.gets (Q := fun _ => I) fun _ hs => hs) fun a => Spec.guard (fun _ hs => hs) fun _ => ?_
    cases a.isUsableFrameAddr phys with
    | none => exact Spec.halt
    | some b =>
      cases b with
      | false => exact Spec.fail fun _ hs => hs
      | true => exact ih

theorem pageAlignUp_dvd {a v : ℕ} (h : pageAlignUp a = some v) : 4096 ∣ v := by
  unfold pageAlignUp at h
  split_ifs at h
  rw [← Option.some.inj h]
  exact Dvd.intro_left _ rfl

/-- where the pages go: into the table of the process, at a page address -/
theorem reserve_spec (base hint span : ℕ) :
    Spec (Upon tab P) (reserve pid base hint span)
      (fun place s => Upon tab P s ∧ tab pid = some place.pageTable ∧ 4096 ∣ place.virt) (Upon tab P) := by
  unfold reserve
  refine Spec.ite (fun _ => Spec.guard (fun _ hs => hs) fun hmod => ?_) fun _ => ?_
  · exact Spec.bind withProcess_spec fun p => Spec.assume fun hp => Spec.bind (pageTableOf_spec hp) fun pt =>
      Spec.pure fun s hs => ⟨hs.1, hs.2, Nat.dvd_of_mod_eq_zero (not_not.1 hmod)⟩
  · refine Spec.bind withProcess_spec fun p => Spec.assume fun hp => ?_
    refine Spec.bind (orInvalid_spec (I := Upon tab P) _) fun virt => Spec.assume fun hvirt => ?_
    refine Spec.bind (orInvalid_spec (I := Upon tab P) _) fun newEnd => Spec.assume fun _ => ?_
    refine Spec.bind (pageTableOf_spec hp) fun pt => Spec.assume fun hpt => ?_
    refine Spec.bind (setProcess_spec (p := { p with heapEnd := newEnd }) hp) fun _ => ?_
    exact Spec.pure fun s hs => ⟨hs, hpt, pageAlignUp_dvd hvirt⟩

theorem giveBack_spec (place : Place) {E : Sys → Prop} :
    Spec (Upon tab P) (giveBack pid place) (fun _ => Upon tab P) E := by
  refine Spec.modify fun s hs => ?_
  rcases place.heap with _ | ⟨oldEnd, newEnd⟩
  · exact hs
  · cases hp : s.processes pid with
    | none => exact hs
    | some p =>
      dsimp only
      split_ifs
      · exact upon_setProcess hs (by rw [← hs.1, tableOf, hp, Option.bind_some])
      · exact hs

end Calls

/-! ## What each call keeps -/

/-- the state after a call: the same tables, and roles for all frames -/
def Kept (shared : ℕ → Prop) (tab : ℕ → Option ℕ) : Sys → Prop :=
  Upon tab fun τ => ∃ ρ, Space Plain shared (rootsOf tab) ρ τ

/-- the tables of processes are known by their addresses -/
def Aligned (tab : ℕ → Option ℕ) : Prop := ∀ {pid a}, tab pid = some a → a % 4096 = 0

theorem Aligned.root {tab : ℕ → Option ℕ} (h : Aligned tab) {pid a : ℕ} (ha : tab pid = some a) :
    a / 4096 ∈ rootsOf tab := ⟨pid, by rw [Nat.div_mul_cancel (Nat.dvd_of_mod_eq_zero (h ha))]; exact ha⟩

section Steps

variable {T : Mapper} {tab : ℕ → Option ℕ} {pid : ℕ} (hT : T.Documented) (htab : Aligned tab)
  (h : Space Plain shared (rootsOf tab) ρ σ)

/-- from the machine `σ`, whether it ends well or with an error, the call keeps the tables and the roles -/
def Safe {α : Type} (shared : ℕ → Prop) (tab : ℕ → Option ℕ) (σ : Machine) (x : S α) : Prop :=
  Spec (Upon tab (· = σ)) x (fun _ => Kept shared tab) (Kept shared tab)

include h in
theorem kept_of_at (s : Sys) (hs : Upon tab (· = σ) s) : Kept shared tab s := ⟨hs.1, ρ, hs.2 ▸ h⟩

include h in
theorem Safe.guard {α : Type} {x : S α} {c : Prop} [Decidable c] {e : Errno} (hx : ¬ c → Safe shared tab σ x) :
    Safe shared tab σ (if c then M.fail e else x) := Spec.guard (kept_of_at h) hx

include h in
/-- a step that only reads: what it tells is at hand afterwards -/
theorem Safe.bind {α β : Type} {x : S α} {f : α → S β} {c : α → Prop}
    (hx : Spec (Upon tab (· = σ)) x (fun a s => Upon tab (· = σ) s ∧ c a) (Upon tab (· = σ)))
    (hf : ∀ a, c a → Safe shared tab σ (f a)) : Safe shared tab σ (x >>= f) :=
  Spec.bind (hx.err (kept_of_at h)) fun a => Spec.assume (hf a)

include hT htab h

theorem segment_spec {pt v size : ℕ} {e : Errno} (hpt : tab pid = some pt) :
    Safe shared tab σ (paging e (mapAndCopySegmentTo T pt v 0 size [] true false)) :=
  paging_spec (Spec.post (mapAndCopySegmentTo_spec hT plain_mild h (P := fun _ => True) (fun _ _ => trivial)
    (htab.root hpt) fun _ _ _ _ t _ _ _ _ _ _ _ => plain_leaf t _ _)
    (fun _ _ ⟨ρ', h', _⟩ => ⟨ρ', h'⟩) fun _ ⟨ρ', h', _⟩ => ⟨ρ', h'⟩)

theorem brk_spec (hash addr : ℕ) :
    Safe shared tab σ (brk T hash pid addr) := by
  unfold brk
  refine Safe.bind h withProcess_spec fun p₀ hp₀ => ?_
  have hp := (openHeap_pageTable hash 0x40000000 0x8000 p₀).trans hp₀
  refine Spec.bind (setProcess_spec hp) fun _ => Spec.ite (fun _ => Spec.pure fun _ => kept_of_at h _) fun _ =>
    Safe.guard h fun _ => Safe.guard h fun _ =>
    Spec.ite (fun _ => ?_) fun _ => ?_
  · exact Spec.bind (setProcess_spec (p := { openHeap hash 0x40000000 0x8000 p₀ with heapEnd := addr }) hp) fun _ =>
      Spec.pure fun _ => kept_of_at h _
  · refine Safe.bind h (pageTableOf_spec hp) fun pt hpt => ?_
    refine Spec.bind (Spec.gets (Q := fun _ => Upon tab (· = σ)) fun _ hs => hs) fun mapped => ?_
    refine Safe.bind h (orInvalid_spec _) fun startPage _ => ?_
    refine Safe.bind h (orInvalid_spec _) fun endPage _ => ?_
    refine Spec.bind (Spec.when (fun _ => segment_spec hT htab h hpt) fun _ => kept_of_at h) fun _ => ?_
    exact Spec.bind (setProcess_spec (p := { openHeap hash 0x40000000 0x8000 p₀ with heapEnd := addr }) hp) fun _ =>
      Spec.pure fun _ hs => hs

theorem mmap_spec (hash addr length : ℕ) :
    Safe shared tab σ (mmap T hash pid addr length) := by
  unfold mmap
  refine Safe.guard h fun _ => ?_
  refine Safe.bind h (orInvalid_spec _) fun size _ => ?_
  refine Safe.bind h withProcess_spec fun p₀ hp₀ => ?_
  have hp := (openHeap_pageTable hash 0x50000000 0x10000 p₀).trans hp₀
  refine Spec.bind (setProcess_spec hp) fun _ => Safe.guard h fun _ => ?_
  refine Safe.bind h (orInvalid_spec _) fun mapStart _ => Safe.guard h fun _ => ?_
  refine Safe.bind h (pageTableOf_spec hp) fun pt hpt => Spec.bind (segment_spec hT htab h hpt) fun _ => ?_
  refine Spec.bind (Spec.when (fun _ => Spec.guard (fun _ hs => hs) fun _ =>
    setProcess_spec (p := { openHeap hash 0x50000000 0x10000 p₀ with heapEnd := mapStart + size }) hp)
    fun _ _ hs => hs) fun _ => Spec.pure fun _ hs => hs

/-- frames to share: data of 52 bits, and marked as shared -/
def Shareable (shared : ℕ → Prop) (ρ : Roles) (pages : List ℕ) : Prop :=
  ∀ phys ∈ pages, phys < 2 ^ 52 ∧ ρ (phys / 4096) = .page ∧ shared (phys / 4096)

omit hT in
theorem mapPhysPagesIntoTarget_spec {hint : ℕ} {pages : List ℕ} (hpages : Shareable shared ρ pages) :
    Safe shared tab σ (mapPhysPagesIntoTarget tid pages hint) := by
  unfold mapPhysPagesIntoTarget
  refine Spec.bind (Spec.gets (Q := fun _ => Upon tab (· = σ)) fun _ hs => hs) fun limit =>
    Safe.guard h fun _ => Spec.bind ((requireAllowed_spec pages).err (kept_of_at h)) fun _ => ?_
  refine Spec.bind (Spec.gets (Q := fun _ => Upon tab (· = σ)) fun _ hs => hs) fun target => ?_
  cases target with
  | none => exact Spec.fail (kept_of_at h)
  | some pid =>
    refine Safe.guard h fun _ => Safe.bind h (reserve_spec _ _ _) fun place ⟨hpt, hvirt⟩ => ?_
    have hstart : Placed shared (rootsOf tab) (place.pageTable / 4096) place.virt pages ρ 0 ρ σ :=
      ⟨h, id, fun hc => absurd hc (by decide), fun hc => absurd hc (by omega), fun hc => absurd hc (by omega),
        fun _ hp hns => absurd (hpages _ (List.mem_of_getElem? hp)).2.2 hns⟩
    have hm : Mappable shared pages ρ :=
      ⟨fun hp => (hpages _ hp).1, fun hp => (hpages _ hp).2.1,
        fun hp _ _ hns => absurd (hpages _ (List.mem_of_getElem? hp)).2.2 hns⟩
    refine Spec.bind (Spec.onError (paging_spec (mapPages_spec hm (htab.root hpt) (htab hpt)
      (Nat.mod_eq_zero_of_dvd hvirt) (List.drop_zero) hstart)) ?_) fun _ =>
      Spec.pure fun _ hs => ⟨hs.1, hs.2.imp fun _ hp => hp.space⟩
    exact Spec.ok (giveBack_spec place) (fun _ _ hs => ⟨hs.1, hs.2.imp fun _ he => he.space⟩)

omit hT in
theorem mapPhysicalPages_spec {hint : ℕ} {pages : List ℕ} (hpages : Shareable shared ρ pages) :
    Safe shared tab σ (mapPhysicalPages pid tid pages hint) :=
  Spec.bind ((requireServicePrivilege_spec pid).err (kept_of_at h)) fun _ =>
    mapPhysPagesIntoTarget_spec htab h hpages

omit hT in
theorem ipcSendPages_spec {pages : List ℕ} {sent : Bool} (hpages : Shareable shared ρ pages) :
    Safe shared tab σ (ipcSendPages pid tid pages sent) := by
  refine Spec.bind ((requireServicePrivilege_spec pid).err (kept_of_at h)) fun _ =>
    Safe.guard h fun _ =>
    Spec.bind (mapPhysPagesIntoTarget_spec htab h hpages) fun _ => ?_
  exact Spec.ite (fun _ => Spec.pure fun _ hs => hs) fun _ => Spec.fail fun _ hs => hs

theorem munmap_spec {addr length : ℕ}
    (honce : ∀ pt, tab pid = some pt → ∀ j, j < pageCount addr (addr + length) → ∀ t,
      Walk σ.mem (pt / 4096) (firstPage addr + j * 4096) t →
      isUser (σ.mem t (tableIndex 1 (firstPage addr + j * 4096))) = true →
      MappedOnce ρ σ.mem (frameOf (σ.mem t (tableIndex 1 (firstPage addr + j * 4096))))) :
    Safe shared tab σ (munmap T pid addr length) := by
  unfold munmap
  refine Safe.guard h fun _ => Safe.guard h
    fun _ => Safe.bind h (orInvalid_spec _) fun stop hstop =>
    Safe.guard h fun hlt => Safe.guard h
    fun _ => Safe.bind h withProcess_spec fun p hp =>
    Safe.bind h (pageTableOf_spec hp) fun pt hpt => ?_
  -- the range is the one of the arguments, rounded to pages
  have hfirst : firstPage (firstPage addr) = firstPage addr := by unfold firstPage; omega
  have hcount : pageCount (firstPage addr) (firstPage addr + (stop - firstPage addr)) = pageCount addr (addr + length) := by
    have hup : stop = (addr + length + 4095) / 4096 * 4096 := by
      unfold pageAlignUp at hstop
      split_ifs at hstop
      exact (Option.some.inj hstop).symm
    have hround : (stop + 0xfff) / 4096 * 4096 = (addr + length + 0xfff) / 4096 * 4096 := by omega
    rw [pageCount, pageCount, hfirst, Nat.add_sub_cancel' (Nat.le_of_lt (not_le.1 hlt)), hround]
  refine paging_spec (Spec.post (unmapRangeInTable_spec hT plain_mild h (htab.root hpt) ?_)
    (fun _ _ ⟨ρ', h', _⟩ => ⟨ρ', h'⟩) fun _ ⟨ρ', h', _⟩ => ⟨ρ', h'⟩)
  rw [hcount, hfirst]
  exact honce pt hpt

omit hT h in
theorem copyToUser_spec {r virt i dst : ℕ} {pages : List ℕ} {src : List UInt8}
    (hp : Placed shared (rootsOf tab) r virt pages ρ₀ i ρ σ) (hr : r ∈ rootsOf tab) :
    Spec (Upon tab (· = σ)) (copyToUser pid dst src)
      (fun _ => Upon tab fun τ => Placed shared (rootsOf tab) r virt pages ρ₀ i ρ τ)
      (Upon tab fun τ => Placed shared (rootsOf tab) r virt pages ρ₀ i ρ τ) := by
  have hat : ∀ s, Upon tab (· = σ) s → Upon tab (fun τ => Placed shared (rootsOf tab) r virt pages ρ₀ i ρ τ) s :=
    fun _ hs => ⟨hs.1, hs.2 ▸ hp⟩
  unfold copyToUser
  refine Spec.ite (fun _ => Spec.pure fun _ => hat _) fun _ => Spec.bind (withProcess_spec.err hat) fun p =>
    Spec.assume fun hpt => Spec.bind ((pageTableOf_spec hpt).err hat) fun pt => Spec.assume fun hpt =>
    Spec.guard hat fun _ => paging_spec ?_
  have hcopy := Spec.and (copyToUserInTable_spec hp.space plain_noUserHuge (htab.root hpt))
    ((keeps_copyToUserInTable pt dst src).spec σ)
  have hplaced : ∀ τ, (Space Plain shared (rootsOf tab) ρ τ ∧ SameTables ρ σ.mem τ.mem) ∧ τ.physOffset = σ.physOffset →
      Placed shared (rootsOf tab) r virt pages ρ₀ i ρ τ := fun τ hτ =>
    hp.same hr hτ.1.1 (fun hi => by rw [hτ.2]; exact hp.window hi) hτ.1.2
  exact Spec.post hcopy (fun _ => hplaced) hplaced

omit hT h in
/-- from new frames on: they are mapped behind the heap or at the hint, and an error takes every mapping back -/
theorem placeFrames_spec {fs : List PhysFrame} (hfs : Taken Plain shared (rootsOf tab) ρ₀ fs ρ σ)
    {place : Place} (hpt : tab pid = some place.pageTable) (hvirt : 4096 ∣ place.virt)
    (out : ℕ) :
    Spec (Upon tab (· = σ)) (M.onError (do
        paging .EFAULT (mapPages place.pageTable place.virt 0 (fs.map PhysFrame.startAddress))
        M.when (out ≠ 0) (M.onError (copyToUser pid out ((fs.map PhysFrame.startAddress).flatMap (Ipc.leBytes 8)))
          (machine (unmapPagesBefore place.pageTable place.virt fs.length)))) (giveBack pid place))
      (fun _ => Kept shared tab)
      (Upon tab fun τ => ∃ ρ', Emptied shared (rootsOf tab) (fs.map PhysFrame.startAddress) ρ ρ' τ) := by
  have hframe : ∀ {j phys : ℕ}, (fs.map PhysFrame.startAddress)[j]? = some phys →
      ∃ f ∈ fs, fs[j]? = some f ∧ phys < 2 ^ 52 ∧ phys / 4096 = f.number := fun hp => by
    rw [List.getElem?_map] at hp
    obtain ⟨f, hf, rfl⟩ := Option.map_eq_some_iff.1 hp
    exact ⟨f, List.mem_of_getElem? hf, hf, f.startAddress_lt, by unfold PhysFrame.startAddress; omega⟩
  have hstart : Placed shared (rootsOf tab) (place.pageTable / 4096) place.virt (fs.map PhysFrame.startAddress) ρ 0 ρ σ := by
    refine ⟨hfs.space, id, fun hc => absurd hc (by decide), fun hc => absurd hc (by omega),
      fun hc => absurd hc (by omega), fun _ hp _ => ?_⟩
    obtain ⟨f, hf, -, -, he⟩ := hframe hp
    exact he ▸ (hfs.page f hf).2
  have hm : Mappable shared (fs.map PhysFrame.startAddress) ρ := by
    refine ⟨fun hp => ?_, fun hp => ?_, fun {j k p q} hj hk he _ => ?_⟩
    · obtain ⟨f, -, rfl⟩ := List.mem_map.1 hp
      exact f.startAddress_lt
    · obtain ⟨j, hj⟩ := List.mem_iff_getElem?.1 hp
      obtain ⟨f, hf, -, -, he⟩ := hframe hj
      exact he ▸ (hfs.page f hf).1
    · obtain ⟨f, -, hf, -, hpf⟩ := hframe hj
      obtain ⟨g, -, hg, -, hqg⟩ := hframe hk
      have hfg : f = g := PhysFrame.ext_number (by rw [← hpf, ← hqg, he])
      exact (List.getElem?_inj (List.getElem?_eq_some_iff.1 hf).1 hfs.nodup).1 (by rw [hf, hg, hfg])
  have hr := htab.root hpt
  refine Spec.onError (Spec.bind (paging_spec (mapPages_spec hm hr (htab hpt) (Nat.mod_eq_zero_of_dvd hvirt)
    List.drop_zero hstart)) fun _ => Spec.pre fun s ⟨hs, ρ₁, hp⟩ => ?_) (giveBack_spec place)
  have hkept : ∀ {t : Sys}, Upon tab (fun τ => Placed shared (rootsOf tab) (place.pageTable / 4096) place.virt
      (fs.map PhysFrame.startAddress) ρ (fs.map PhysFrame.startAddress).length ρ₁ τ) t → Kept shared tab t :=
    fun ht => ⟨ht.1, ρ₁, ht.2.space⟩
  refine Spec.when (fun _ => Spec.onError ((Spec.here (copyToUser_spec htab hp hr) ⟨hs, rfl⟩).ok fun _ _ => hkept) ?_)
    fun _ t ht => hkept (ht ▸ ⟨hs, hp⟩)
  refine paging_spec (Spec.pre fun τ hτ => ?_)
  have hundo := unmapPages_placed (E := fun τ => ∃ ρ', Emptied shared (rootsOf tab) (fs.map PhysFrame.startAddress) ρ ρ' τ)
    hτ hr (htab hpt) (Nat.mod_eq_zero_of_dvd hvirt)
  rw [List.length_map] at hundo
  exact Spec.ok hundo (fun _ _ ht => ⟨ρ₁, ht⟩)

omit hT in
theorem allocSharedPages_spec (hnew : ∀ f, ρ f = .free → ¬ shared f) (count out outLen hint : ℕ) :
    Safe shared tab σ (allocSharedPages pid count out outLen hint) := by
  unfold allocSharedPages
  refine Spec.bind ((requireServicePrivilege_spec pid).err (kept_of_at h)) fun _ =>
    Spec.bind (Spec.gets (Q := fun _ => Upon tab (· = σ)) fun _ hs => hs) fun limit =>
    Safe.guard h fun _ => Safe.guard h fun _ => ?_
  refine Spec.bind (paging_spec (allocateFrames_spec count ⟨h, nofun, nofun, id, List.nodup_nil⟩)) fun fs =>
    Spec.pre fun s ⟨hs, hlen, ρ₁, hfs⟩ => ?_
  obtain rfl : fs.length = count := by simpa using hlen
  have hpages : ∀ f ∈ fs, ¬ shared f.number := fun f hf => hnew _ (hfs.free f hf)
  -- an error leaves the frames unmapped
  refine Spec.onError (C := Upon tab fun τ => ∃ ρ', Space Plain shared (rootsOf tab) ρ' τ ∧
      ∀ f ∈ fs, ρ' f.number = .page ∧ Unmapped ρ' τ.mem f.number) ?_ ?_
  · have hat₁ : ∀ t, Upon tab (· = s.machine) t → Upon tab (fun τ => ∃ ρ', Space Plain shared (rootsOf tab) ρ' τ ∧
        ∀ f ∈ fs, ρ' f.number = .page ∧ Unmapped ρ' τ.mem f.number) t := fun t ht => ⟨ht.1, ρ₁, ht.2 ▸ ⟨hfs.space, hfs.page⟩⟩
    have hstart : Upon tab (· = s.machine) s := ⟨hs, rfl⟩
    refine Spec.guard (fun t ht => hat₁ t (ht ▸ hstart)) fun _ => ?_
    refine Spec.bind ((Spec.here (reserve_spec _ _ _) hstart).err hat₁) fun place =>
      Spec.assume fun ⟨hpt, hvirt⟩ => ?_
    refine Spec.bind ((placeFrames_spec htab hfs hpt hvirt out).err fun t ⟨ht, ρ₂, he⟩ => ⟨ht, ρ₂, he.space, ?_⟩)
      fun _ => Spec.pure fun _ ht => ht
    intro f hf
    have hnum : f.startAddress / 4096 = f.number := by unfold PhysFrame.startAddress; omega
    exact ⟨he.page (hfs.page f hf).1, hnum ▸ he.unmapped (List.mem_map_of_mem hf) (hnum.symm ▸ hpages f hf)⟩
  · exact paging_spec (Spec.pre fun τ ⟨ρ', h', hf⟩ => deallocateFrames_spec fs h' hfs.nodup hf)

omit hT in
/-- **unmap_pages**: no page under a huge page, and what is given back is mapped for user code at that one place. -/
theorem unmapPages_spec {virt count : ℕ} {deallocate : Bool}
    (hh : ∀ pt, tab pid = some pt → ∀ j, j < count → ¬ HugeAt σ.mem (pt / 4096) (virt + j * 0x1000))
    (honce : deallocate = true → ∀ pt, tab pid = some pt → ∀ j, j < count → ∀ t,
      Walk σ.mem (pt / 4096) (virt + j * 0x1000) t → isPresent (σ.mem t (tableIndex 1 (virt + j * 0x1000))) = true →
      isUser (σ.mem t (tableIndex 1 (virt + j * 0x1000))) = true ∧
        MappedOnce ρ σ.mem (frameOf (σ.mem t (tableIndex 1 (virt + j * 0x1000))))) :
    Safe shared tab σ (unmapPages pid virt count deallocate) := by
  unfold unmapPages
  refine Spec.bind ((requireServicePrivilege_spec pid).err (kept_of_at h)) fun _ =>
    Spec.bind (Spec.gets (Q := fun _ => Upon tab (· = σ)) fun _ hs => hs) fun limit =>
    Safe.guard h fun _ => Safe.guard h
    fun hvirt => Safe.bind h withProcess_spec fun p hp =>
    Safe.bind h (pageTableOf_spec hp) fun pt hpt => paging_spec ?_
  -- the addresses found before anything is unmapped
  refine Spec.step (Q := fun l τ => τ = σ ∧ ∀ q ∈ l, deallocate = true ∧ ∃ j, j < count ∧
    virtToPhysInTable σ pt (virt + j * 0x1000) = some q) ?_ fun l σ' ⟨hσ', hl⟩ => ?_
  · refine Spec.ite (fun hd => Spec.ok (physAddrs_spec pt virt count 0) (fun l τ hτ => ?_))
      fun _ => Spec.pure fun _ hs => ⟨hs, nofun⟩
    refine ⟨hτ.1, fun q hq => ⟨hd, ?_⟩⟩
    obtain ⟨j, -, hj, he⟩ := hτ.2 q hq
    exact ⟨j, by omega, he⟩
  subst hσ'
  have hr := htab.root hpt
  refine Spec.step (unmapPagesBefore_spec plain_mild h hr (hh pt hpt)) fun _ τ ⟨hτ, hc, hz⟩ =>
    freeOnce_spec l [] hτ fun q hq _ => ?_
  obtain ⟨hd, j, hj, he⟩ := hl q hq
  obtain ⟨hoff, t, hw, hpres, hframe⟩ := h.virtToPhys_walk hr (hh pt hpt j hj) he
  obtain ⟨huser, hmapped⟩ := honce hd pt hpt j hj t hw hpres
  have ht := h.walk hr hw
  have hzero := hz (htab hpt) (not_not.1 hvirt) hoff j hj t hw
  rw [hframe]
  exact ⟨h.tables.mapped ht huser, hc.unmapped_of_once hmapped ht huser rfl hzero⟩

end Steps

/-! ## Runs -/

inductive Call
  /-- a new process with an empty address space -/
  | spawn (pid : ℕ) (privilege : PrivilegeLevel)
  | brk (hash pid addr : ℕ)
  | mmap (hash pid addr length : ℕ)
  | munmap (pid addr length : ℕ)
  | allocSharedPages (pid count out outLen hint : ℕ)
  | mapPhysicalPages (pid targetTid : ℕ) (physPages : List ℕ) (hint : ℕ)
  | ipcSendPages (pid destTid : ℕ) (physPages : List ℕ) (sent : Bool)
  | unmapPages (pid virt count : ℕ) (deallocate : Bool)
  /-- the end of a process: `destroy_user_page_table` -/
  | reap (pid : ℕ)

/-- a new process: its table comes from `create_user_page_table` -/
def spawn (pid : ℕ) (privilege : PrivilegeLevel) : S Unit := do
  match ← M.gets fun s => s.processes pid with
  | some _ => M.fail .EINVAL
  | none => do
    let a ← paging .ENOMEM createUserPageTable
    M.modify fun s => setProcess s pid ⟨privilege, 0, 0, some a⟩

/-- the process leaves the table of processes first; errors of the teardown are only logged -/
def reap (pid : ℕ) : S Unit := do
  let p ← withProcess pid .EINVAL
  M.modify fun s => { s with processes := update s.processes pid none }
  match p.pageTable with
  | none => pure ()
  | some a => machine do
    let _ ← M.attempt (destroyUserPageTable a)
    pure ()

def perform (T : Mapper) : Call → S Unit
  | .spawn pid privilege => spawn pid privilege
  | .brk hash pid addr => do let _ ← brk T hash pid addr
  | .mmap hash pid addr length => do let _ ← mmap T hash pid addr length
  | .munmap pid addr length => munmap T pid addr length
  | .allocSharedPages pid count out outLen hint => do let _ ← allocSharedPages pid count out outLen hint
  | .mapPhysicalPages pid tid pages hint => do let _ ← mapPhysicalPages pid tid pages hint
  | .ipcSendPages pid tid pages sent => ipcSendPages pid tid pages sent
  | .unmapPages pid virt count deallocate => unmapPages pid virt count deallocate
  | .reap pid => reap pid

/-- the frames that a call names to share them -/
def Call.names : Call → List ℕ
  | .mapPhysicalPages _ _ pages _ => pages.map (· / 4096)
  | .ipcSendPages _ _ pages _ => pages.map (· / 4096)
  | _ => []

/-- the system, with the frames that were named by a sharing call since they were handed out -/
structure World where
  sys : Sys
  shared : Set ℕ

/-- a call that does not return leaves everything as it is -/
def exec (x : S Unit) (s : Sys) : Sys :=
  match x s with
  | (.stuck, _) => s
  | (_, t) => t

def step (T : Mapper) (w : World) (c : Call) : World where
  sys := exec (perform T c) w.sys
  shared := { f | (f ∈ w.shared ∨ f ∈ c.names) ∧
    ¬ Idle (exec (perform T c) w.sys).machine.alloc (exec (perform T c) w.sys).machine.mem f }

variable (w : World)

/-- the live level 4 tables -/
def World.roots : Set ℕ := rootsOf (tableOf w.sys)

/-- the free list ends and visits no frame twice, no live table maps a frame on it, and two address spaces map one frame
only when it was shared -/
structure Sound : Prop where
  list : ∃ l, Frames.FreeList w.sys.machine.alloc w.sys.machine.mem l ∧ l.Nodup
  unmapped : ∀ f, OnFreeList w.sys.machine.alloc w.sys.machine.mem f → ∀ r ∈ w.roots,
    ¬ MapsUnder w.sys.machine.mem r f.number
  explicit : ∀ r ∈ w.roots, ∀ r' ∈ w.roots, r ≠ r' → ∀ f, MapsUnder w.sys.machine.mem r f →
    MapsUnder w.sys.machine.mem r' f → f ∈ w.shared

/-- the live tables map the frame at one place at most -/
def SoleMapping (f : ℕ) : Prop :=
  ∀ t i u j, UserTable w.sys.machine.mem w.roots 1 t → UserTable w.sys.machine.mem w.roots 1 u →
    isUser (w.sys.machine.mem t i) = true → isUser (w.sys.machine.mem u j) = true →
    frameOf (w.sys.machine.mem t i) = f → frameOf (w.sys.machine.mem u j) = f → t = u ∧ i = j

/-- the condition: what is named to be shared is data; what is given back is mapped at that one place; `unmap_pages` stays
away from huge pages and frees user pages only -/
def Careful : Call → Prop
  | .munmap pid addr length => ∀ pt, tableOf w.sys pid = some pt → ∀ j, j < pageCount addr (addr + length) → ∀ t,
      Walk w.sys.machine.mem (pt / 4096) (firstPage addr + j * 4096) t →
      isUser (w.sys.machine.mem t (tableIndex 1 (firstPage addr + j * 4096))) = true →
      SoleMapping w (frameOf (w.sys.machine.mem t (tableIndex 1 (firstPage addr + j * 4096))))
  | .mapPhysicalPages _ _ pages _ => ∀ phys ∈ pages, phys < 2 ^ 52 ∧ DataFrame w.sys.machine w.roots (phys / 4096)
  | .ipcSendPages _ _ pages _ => ∀ phys ∈ pages, phys < 2 ^ 52 ∧ DataFrame w.sys.machine w.roots (phys / 4096)
  | .unmapPages pid virt count deallocate => ∀ pt, tableOf w.sys pid = some pt → ∀ j, j < count →
      ¬ HugeAt w.sys.machine.mem (pt / 4096) (virt + j * 0x1000) ∧
      (deallocate = true → ∀ t, Walk w.sys.machine.mem (pt / 4096) (virt + j * 0x1000) t →
        isPresent (w.sys.machine.mem t (tableIndex 1 (virt + j * 0x1000))) = true →
        isUser (w.sys.machine.mem t (tableIndex 1 (virt + j * 0x1000))) = true ∧
          SoleMapping w (frameOf (w.sys.machine.mem t (tableIndex 1 (virt + j * 0x1000)))))
  | .reap pid => ∀ pt, tableOf w.sys pid = some pt → ∀ f, MapsUnder w.sys.machine.mem (pt / 4096) f → SoleMapping w f
  | _ => True

/-! ## The invariant -/

/-- the tables of processes are known by their addresses and differ, frames in the allocator are not shared, and every
frame has a role -/
structure Inv : Prop where
  aligned : Aligned (tableOf w.sys)
  apart : ∀ {pid pid' a}, tableOf w.sys pid = some a → tableOf w.sys pid' = some a → pid = pid'
  fresh : ∀ f ∈ w.shared, ¬ Idle w.sys.machine.alloc w.sys.machine.mem f
  space : ∃ ρ, Space Plain (· ∈ w.shared) w.roots ρ w.sys.machine

/-- shared before the call or named by it -/
def World.named (c : Call) : ℕ → Prop := fun f => f ∈ w.shared ∨ f ∈ c.names

theorem upon_self (s : Sys) : Upon (tableOf s) (· = s.machine) s := ⟨rfl, rfl⟩

theorem Inv.sound {w : World} (h : Inv w) : Sound w := by
  obtain ⟨ρ, hs⟩ := h.space
  obtain ⟨l, hl, hnodup, hfree⟩ := hs.freeList
  refine ⟨⟨l, hl, hnodup⟩, ?_, ?_⟩
  · rintro f ⟨l', hl', hf⟩ r hr ⟨t, i, ht, hu, he⟩
    rw [freeList_unique hl' hl] at hf
    exact hs.unmapped_free (hfree f hf) t i (hs.tables.under hr ht) hu he
  · rintro r hr r' hr' hne f ⟨t, i, ht, hu, rfl⟩ ⟨u, j, hut, huj, he⟩
    by_contra hns
    obtain ⟨rfl, -⟩ := hs.tables.sole (hs.tables.under hr ht) (hs.tables.under hr' hut) hu huj he.symm hns
    exact hne (hs.tables.under_unique hr hr' ht hut)

/-- a frame that was not shared is mapped once -/
theorem Inv.soleMapping {w : World} (h : Inv w) {f : ℕ} (hf : f ∉ w.shared) : SoleMapping w f := by
  obtain ⟨ρ, hs⟩ := h.space
  rintro t i u j ht hu hti huj rfl he
  exact hs.tables.sole (hs.table_iff.2 ht) (hs.table_iff.2 hu) hti huj he.symm hf

theorem SoleMapping.mappedOnce {w : World} {f : ℕ} (hf : SoleMapping w f)
    (hs : Space A shared w.roots ρ w.sys.machine) : MappedOnce ρ w.sys.machine.mem f :=
  fun t i u j ht hu => hf t i u j (hs.table_iff.1 ht) (hs.table_iff.1 hu)

theorem exec_spec {x : S Unit} {s : Sys} {Q : Sys → Prop} (hx : Spec (· = s) x (fun _ => Q) Q) (hs : Q s) :
    Q (exec x s) := by
  have h := hx s rfl
  unfold exec
  rcases hxs : x s with ⟨_ | _ | _, t⟩ <;> rw [hxs] at h
  · exact h
  · exact h
  · exact hs

variable {c : Call}

/-- frames that wait in the allocator are not shared any more -/
theorem space_step {T : Mapper} {w : World} {tab : ℕ → Option ℕ}
    (h : ∃ ρ, Space Plain (w.named c) (rootsOf tab) ρ (step T w c).sys.machine) :
    ∃ ρ, Space Plain (· ∈ (step T w c).shared) (rootsOf tab) ρ (step T w c).sys.machine := by
  obtain ⟨ρ, hs⟩ := h
  refine ⟨ρ, hs.share fun t i ht hu hsh => ⟨hsh, fun hidle => ?_⟩⟩
  have := hs.tables.mapped ht hu
  rw [hs.free_iff.2 hidle] at this
  cases this

/-- a call that leaves the tables of the processes where they are -/
theorem inv_of_kept {T : Mapper} {w : World} (h : Inv w)
    (hk : Kept (w.named c) (tableOf w.sys) (step T w c).sys) : Inv (step T w c) := by
  obtain ⟨htab, hs⟩ := hk
  refine ⟨?_, ?_, fun f hf => hf.2, ?_⟩
  · rw [htab]
    exact h.aligned
  · rw [htab]
    exact h.apart
  · rw [World.roots, htab]
    exact space_step hs

section Step

variable {T : Mapper} (hT : T.Documented) {w : World} (h : Inv w)

include h

/-- roles before a call, with the frames it names as shared -/
theorem Inv.start (c : Call) : ∃ ρ, Space Plain (w.named c) (rootsOf (tableOf w.sys)) ρ
    w.sys.machine := by
  obtain ⟨ρ, hs⟩ := h.space
  exact ⟨ρ, hs.share fun _ _ _ _ hf => .inl hf⟩

/-- the triple of a call gives the invariant -/
theorem inv_call (hx : ∀ ρ, Space Plain (w.named c) (rootsOf (tableOf w.sys)) ρ
      w.sys.machine → Safe (w.named c) (tableOf w.sys) w.sys.machine (perform T c)) : Inv (step T w c) := by
  obtain ⟨ρ, hs⟩ := h.start c
  exact inv_of_kept h (exec_spec (Spec.here (hx ρ hs) (upon_self _)) (kept_of_at hs _ (upon_self _)))

omit h in
theorem rootsOf_insert {tab : ℕ → Option ℕ} {pid a : ℕ} (hnone : tab pid = none) (ha : a % 4096 = 0) :
    rootsOf (update tab pid (some a)) = insert (a / 4096) (rootsOf tab) := by
  ext t
  constructor
  · rintro ⟨q, hq⟩
    rw [update_apply] at hq
    split_ifs at hq with hqp
    · exact .inl (by have := Option.some.inj hq; omega)
    · exact .inr ⟨q, hq⟩
  · rintro (rfl | ⟨q, hq⟩)
    · exact ⟨pid, by rw [update_self, Nat.div_mul_cancel (Nat.dvd_of_mod_eq_zero ha)]⟩
    · refine ⟨q, ?_⟩
      rw [update_of_ne fun he => by rw [he, hnone] at hq; cases hq]
      exact hq

omit h in
theorem rootsOf_remove {tab : ℕ → Option ℕ} {pid a : ℕ} (hpid : tab pid = some a) (ha : a % 4096 = 0)
    (hapart : ∀ {q}, tab q = some a → q = pid) :
    rootsOf (update tab pid none) = rootsOf tab \ {a / 4096} := by
  have hcancel : a / 4096 * 4096 = a := Nat.div_mul_cancel (Nat.dvd_of_mod_eq_zero ha)
  ext t
  constructor
  · rintro ⟨q, hq⟩
    rw [update_apply] at hq
    split_ifs at hq with hqp
    refine ⟨⟨q, hq⟩, fun he => hqp (hapart ?_)⟩
    rw [hq, Set.mem_singleton_iff.1 he, hcancel]
  · rintro ⟨⟨q, hq⟩, hne⟩
    refine ⟨q, ?_⟩
    rw [update_of_ne fun he => hne ?_]
    · exact hq
    · rw [he, hpid] at hq
      have := Option.some.inj hq
      exact Set.mem_singleton_iff.2 (by omega)

/-- a new process: its table is apart from the others -/
theorem inv_spawn (pid : ℕ) (privilege : PrivilegeLevel) : Inv (step T w (.spawn pid privilege)) := by
  obtain ⟨ρ, hs⟩ := h.start (.spawn pid privilege)
  have hspec : Spec (· = w.sys) (spawn pid privilege)
      (fun _ s => ∃ a, a % 4096 = 0 ∧ a / 4096 ∉ w.roots ∧ tableOf w.sys pid = none ∧
        tableOf s = update (tableOf w.sys) pid (some a) ∧
        ∃ ρ, Space Plain (w.named (.spawn pid privilege)) (insert (a / 4096) w.roots) ρ
          s.machine)
      (Kept (w.named (.spawn pid privilege)) (tableOf w.sys)) := by
    refine Spec.gets_bind ?_
    cases hp : w.sys.processes pid with
    | some p => exact Spec.fail fun s hs' => hs' ▸ kept_of_at hs _ (upon_self _)
    | none =>
      have hnone : tableOf w.sys pid = none := by rw [tableOf, hp, Option.bind_none]
      refine Spec.bind ((Spec.here (paging_spec (createUserPageTable_spec (plain_lenient ρ) hs)) (upon_self _)).err
        fun s ⟨ht, ρ', h', _⟩ => ⟨ht, ρ', h'⟩) fun a => Spec.modify fun s ⟨ht, ha, hfree, ρ', h', _⟩ =>
        ⟨a, ha, fun hr => ?_, hnone, by rw [tableOf_setProcess, ht], ρ', h'⟩
      have := hs.root hr
      cases hfree.symm.trans this
  rcases exec_spec (Spec.post hspec (fun _ _ hs' => Or.inl hs') fun _ hs' => Or.inr hs')
    (.inr (kept_of_at hs _ (upon_self _))) with ⟨a, ha, hnew, hnone, htab, hs'⟩ | hk
  · have hroots := rootsOf_insert hnone ha
    -- the address of the new table is not that of another one
    have hother : ∀ {q}, tableOf w.sys q ≠ some a := fun hq => hnew (Aligned.root h.aligned hq)
    have hcases : ∀ {q b}, tableOf (step T w (.spawn pid privilege)).sys q = some b →
        (q = pid ∧ b = a) ∨ (q ≠ pid ∧ tableOf w.sys q = some b) := by
      intro q b hq
      rw [show tableOf (step T w (.spawn pid privilege)).sys = _ from htab, update_apply] at hq
      split_ifs at hq with hqp
      · exact .inl ⟨hqp, (Option.some.inj hq).symm⟩
      · exact .inr ⟨hqp, hq⟩
    refine ⟨fun hq => ?_, fun {q q' b} hq hq' => ?_, fun f hf => hf.2, ?_⟩
    · rcases hcases hq with ⟨-, rfl⟩ | ⟨-, hq⟩
      exacts [ha, h.aligned hq]
    · rcases hcases hq with ⟨rfl, rfl⟩ | ⟨-, hq⟩ <;> rcases hcases hq' with ⟨hq'', he⟩ | ⟨-, hq'⟩
      · exact hq''.symm
      · exact absurd hq' hother
      · exact absurd (he ▸ hq) hother
      · exact h.apart hq hq'
    · rw [World.roots, show tableOf (step T w (.spawn pid privilege)).sys = _ from htab]
      rw [World.roots, ← hroots] at hs'
      exact space_step hs'
  · exact inv_of_kept h hk

/-- the end of a process: its frames are mapped nowhere else -/
theorem inv_reap {pid : ℕ} (hc : Careful w (.reap pid)) : Inv (step T w (.reap pid)) := by
  obtain ⟨ρ, hs⟩ := h.start (.reap pid)
  have hremoved : ∀ {s : Sys}, tableOf s = tableOf w.sys →
      tableOf { s with processes := update s.processes pid none } = update (tableOf w.sys) pid none := by
    intro s hs
    funext q
    rw [← hs]
    by_cases hq : q = pid
    · subst hq
      simp [tableOf]
    · simp [tableOf, update_of_ne hq]
  have hspec : Spec (· = w.sys) (reap pid)
      (fun _ => Kept (w.named (.reap pid)) (update (tableOf w.sys) pid none))
      (Kept (w.named (.reap pid)) (tableOf w.sys)) := by
    refine Spec.bind ((Spec.here withProcess_spec (upon_self _)).err (kept_of_at hs)) fun p => Spec.assume fun hp => ?_
    refine Spec.bind (Spec.modify (Q := fun _ => Upon (update (tableOf w.sys) pid none) (· = w.sys.machine))
      fun s hs' => ⟨hremoved hs'.1, hs'.2⟩) fun _ => ?_
    cases ha : p.pageTable with
    | none =>
      have hsame : update (tableOf w.sys) pid none = tableOf w.sys := by
        rw [show none = tableOf w.sys pid from ha ▸ hp, update_eq_self]
      rw [hsame]
      exact Spec.pure fun _ => kept_of_at hs _
    | some a =>
      have hpid : tableOf w.sys pid = some a := by rw [← hp, ha]
      have hr : a / 4096 ∈ rootsOf (tableOf w.sys) := Aligned.root h.aligned hpid
      have hroots := rootsOf_remove hpid (h.aligned hpid) fun hq => h.apart hq hpid
      -- the table is given up, also when the teardown does not begin
      have hdestroy := destroyUserPageTable_spec hs hr fun f hf => (hc a hpid f hf).mappedOnce hs
      refine Spec.post (paging_spec (P := (· = w.sys.machine)) (E := fun _ => False) (Spec.bind (Spec.attempt
        (Q := fun _ τ => ∃ ρ', Space Plain _ (rootsOf (tableOf w.sys) \ {a / 4096}) ρ' τ)
        (Spec.post hdestroy (fun _ τ ⟨ρ', h', _⟩ => ⟨ρ', h'⟩) fun τ hτ _ => ?_))
        fun _ => Spec.pure fun τ hτ => ?_)) (fun _ _ hs' => hs') fun _ hs' => hs'.2.elim
      · exact ⟨_, hτ ▸ hs.prune hr⟩
      · rw [hroots]
        exact hτ
  rcases exec_spec (Spec.post hspec (fun _ _ hs' => Or.inl hs') fun _ hs' => Or.inr hs')
    (.inr (kept_of_at hs _ (upon_self _))) with ⟨htab, hs'⟩ | hk
  · have hcases : ∀ {q b}, tableOf (step T w (.reap pid)).sys q = some b → tableOf w.sys q = some b := by
      intro q b hq
      rw [show tableOf (step T w (.reap pid)).sys = _ from htab, update_apply] at hq
      split_ifs at hq
      exact hq
    refine ⟨fun hq => h.aligned (hcases hq), fun hq hq' => h.apart (hcases hq) (hcases hq'), fun f hf => hf.2, ?_⟩
    rw [World.roots, show tableOf (step T w (.reap pid)).sys = _ from htab]
    exact space_step hs'
  · exact inv_of_kept h hk

include hT

/-- **A careful call** keeps the invariant. -/
theorem inv_step (hc : Careful w c) : Inv (step T w c) := by
  have hdone : ∀ {P Q : Sys → Prop} {x : S ℕ}, Spec P x (fun _ => Q) Q → Spec P (x >>= fun _ => pure ()) (fun _ => Q) Q :=
    fun hx => Spec.bind hx fun _ => Spec.pure fun _ hs => hs
  have hshare : ∀ {ρ : Roles} {c : Call} {pages : List ℕ}, c.names = pages.map (· / 4096) →
      Space Plain (w.named c) (rootsOf (tableOf w.sys)) ρ w.sys.machine →
      (∀ phys ∈ pages, phys < 2 ^ 52 ∧ DataFrame w.sys.machine w.roots (phys / 4096)) →
      Shareable (w.named c) ρ pages := fun hn hs hdata phys hp =>
    ⟨(hdata phys hp).1, hs.page_iff.2 (hdata phys hp).2, .inr (hn ▸ List.mem_map_of_mem hp)⟩
  cases c with
  | spawn pid privilege => exact inv_spawn h pid privilege
  | brk hash pid addr => exact inv_call h fun ρ hs => hdone (brk_spec hT h.aligned hs hash addr)
  | mmap hash pid addr length => exact inv_call h fun ρ hs => hdone (mmap_spec hT h.aligned hs hash addr length)
  | munmap pid addr length =>
    exact inv_call h fun ρ hs => munmap_spec hT h.aligned hs fun pt hpt j hj t hw hu =>
      (hc pt hpt j hj t hw hu).mappedOnce hs
  | allocSharedPages pid count out outLen hint =>
    exact inv_call h fun ρ hs => hdone (allocSharedPages_spec h.aligned hs (fun f hf hsh =>
      h.fresh f (hsh.resolve_right List.not_mem_nil) (hs.free_iff.1 hf)) count out outLen hint)
  | mapPhysicalPages pid tid pages hint =>
    exact inv_call h fun ρ hs => hdone (mapPhysicalPages_spec h.aligned hs (hshare rfl hs hc))
  | ipcSendPages pid tid pages sent =>
    exact inv_call h fun ρ hs => ipcSendPages_spec h.aligned hs (hshare rfl hs hc)
  | unmapPages pid virt count deallocate =>
    exact inv_call h fun ρ hs => unmapPages_spec h.aligned hs (fun pt hpt j hj => (hc pt hpt j hj).1)
      fun hd pt hpt j hj t hw hp => ((hc pt hpt j hj).2 hd t hw hp).imp id fun hf => hf.mappedOnce hs
  | reap pid => exact inv_reap h hc

end Step

/-- a booted kernel without processes; the threads are given -/
def booted (σ : Machine) (processOf : ℕ → Option ℕ) : World := ⟨⟨σ, fun _ => none, processOf⟩, ∅⟩

theorem inv_booted {σ : Machine} (hboot : Booted σ) (processOf : ℕ → Option ℕ) : Inv (booted σ processOf) := by
  refine ⟨nofun, nofun, nofun, bootRoles σ, ?_⟩
  rw [show (booted σ processOf).roots = ∅ from Set.eq_empty_iff_forall_notMem.2 fun _ ⟨_, hq⟩ => nomatch hq]
  exact hboot.space _ _

/-- **Frames of careful runs.** From a booted kernel, whatever processes do: as long as every frame that is given back is
mapped at that one place, no live table maps a frame of the free list, none is there twice, and address spaces share only
what was shared. -/
theorem sound_of_careful_run {T : Mapper} (hT : T.Documented) {σ : Machine} (hboot : Booted σ)
    (processOf : ℕ → Option ℕ) (calls : List Call) (hc : Along (step T) Careful (booted σ processOf) calls) :
    Sound (run (step T) (booted σ processOf) calls) :=
  (inv_along (I := Inv) (fun _ _ h hok => inv_step hT h hok) _ _ (inv_booted hboot processOf) hc).sound

open Mem.WriteXorExecute (bare bare_booted)

def threads : ℕ → Option ℕ
  | 10 => some 1
  | 20 => some 2
  | _ => none

/-- a service with a page of its own, which it frees again -/
def allocAndFree : List Call := [.spawn 1 .service, .allocSharedPages 1 1 0 0 0x400000, .unmapPages 1 0x400000 1 true]

/-- the service with its page -/
def allocated : World :=
  step walker (step walker (booted bare threads) (.spawn 1 .service)) (.allocSharedPages 1 1 0 0 0x400000)

/-- the run is careful and goes through: the frame is in the free list in the end -/
theorem sound_of_allocAndFree : Sound (run (step walker) (booted bare threads) allocAndFree) ∧
    (run (step walker) (booted bare threads) allocAndFree).sys.machine.alloc.freeListHead = 0x101000 := by
  refine ⟨sound_of_careful_run walker_documented bare_booted threads allocAndFree ⟨trivial, trivial, ?_, trivial⟩,
    by decide +kernel⟩
  have hinv : Inv allocated :=
    have hspawn : Inv (step walker (booted bare threads) (.spawn 1 .service)) :=
      inv_step walker_documented (inv_booted bare_booted threads) (by exact trivial)
    inv_step walker_documented hspawn (by exact trivial)
  have hnone : ∀ f, f ∉ allocated.shared := by
    rintro f ⟨(⟨hf | hf, -⟩ | hf), -⟩ <;> exact absurd hf nofun
  have hroot : tableOf allocated.sys 1 = some 0x100000 := by decide +kernel
  have h4 : Link (allocated.sys.machine.mem 256 0) 258 := by decide +kernel
  have h3 : Link (allocated.sys.machine.mem 258 0) 259 := by decide +kernel
  have h2 : Link (allocated.sys.machine.mem 259 2) 260 := by decide +kernel
  have huser : isUser (allocated.sys.machine.mem 260 0) = true := by decide +kernel
  change Careful allocated _
  generalize allocated = w at *
  intro pt hpt j hj
  cases hpt.symm.trans hroot
  obtain rfl : j = 0 := by omega
  refine ⟨?_, fun _ t ⟨l3, l2, g4, g3, g2⟩ _ => ?_⟩
  · rintro ⟨l3, l2, g4, g3, hh⟩
    obtain rfl := h4.frame g4
    obtain rfl := h3.frame g3
    cases hh.symm.trans h2.2.1
  · obtain rfl := h4.frame g4
    obtain rfl := h3.frame g3
    obtain rfl := h2.frame g2
    exact ⟨huser, hinv.soleMapping (hnone _)⟩

/-- a service shares a page with a process and then frees it -/
def shareAndFree : List Call :=
  [.spawn 1 .service, .spawn 2 .user, .allocSharedPages 1 1 0 0 0x400000, .mapPhysicalPages 1 20 [0x102000] 0x400000,
    .unmapPages 1 0x400000 1 true]

def freed : World := run (step walker) (booted bare threads) shareAndFree

/-- the machine with its memory mapped at offset 0, as the loader of the repository has it -/
def identity : Machine :=
  { bare with alloc := BitmapFrameAllocator.new [⟨0x100000, 0x100000, .usable⟩] 0, physOffset := some 0 }

/-- a service maps a frame for a process that the allocator hands out next -/
def mapFresh : List Call :=
  [.spawn 1 .service, .spawn 2 .user, .mapPhysicalPages 1 20 [0x105000] 0x400000]

def mapped : World := run (step walker) (booted identity threads) mapFresh

/-- the service gets the frame -/
def handedOut : World := step walker mapped (.allocSharedPages 1 1 0 0 0x400000)

theorem not_shared_handedOut : 261 ∉ handedOut.shared := by
  have hidle : Idle mapped.sys.machine.alloc mapped.sys.machine.mem 261 :=
    ⟨⟨261, by decide⟩, rfl, by unfold UsableFrame; decide +kernel, .inr (.inl (by decide +kernel))⟩
  rintro ⟨hbefore | hnamed, -⟩
  · exact hbefore.2 hidle
  · exact absurd hnamed nofun

/-- **Freed while mapped.** The service frees the page with `unmap_pages`; the process still maps it, and the next one to
ask for a frame gets it. At offset 0 two processes map a frame that nobody shared. -/
theorem freed_while_mapped : ¬ Sound (run (step walker) (booted bare threads) shareAndFree) ∧
    ¬ Sound (run (step walker) (booted identity threads) (mapFresh ++ [.allocSharedPages 1 1 0 0 0x400000])) := by
  refine ⟨?_, ?_⟩
  · have hhead : freed.sys.machine.alloc.freeListHead = 0x102000 := by decide +kernel
    have hlast : Frames.link freed.sys.machine.mem 0x102000 = 0 := by decide +kernel
    have hroot : tableOf freed.sys 2 = some (257 * 4096) := by decide +kernel
    have h4 : Link (freed.sys.machine.mem 257 0) 262 := by decide +kernel
    have h3 : Link (freed.sys.machine.mem 262 0) 263 := by decide +kernel
    have h2 : Link (freed.sys.machine.mem 263 2) 264 := by decide +kernel
    have huser : isUser (freed.sys.machine.mem 264 0) = true := by decide +kernel
    have hframe : frameOf (freed.sys.machine.mem 264 0) = 258 := by decide +kernel
    intro h
    change Sound freed at h
    generalize freed = w at *
    have hlist : Frames.FreeList w.sys.machine.alloc w.sys.machine.mem [⟨258, by decide⟩] := by
      unfold Frames.FreeList
      rw [hhead]
      exact .cons (by decide) (hlast ▸ .nil)
    exact h.unmapped _ ⟨_, hlist, List.mem_singleton_self _⟩ 257 ⟨2, hroot⟩
      ⟨264, 0, ((Under.root.link h4).link h3).link h2, huser, hframe⟩
  · have hroot : tableOf handedOut.sys 1 = some (256 * 4096) ∧ tableOf handedOut.sys 2 = some (257 * 4096) := by
      decide +kernel
    have h4 : Link (handedOut.sys.machine.mem 256 0) 262 ∧ Link (handedOut.sys.machine.mem 257 0) 258 := by decide +kernel
    have h3 : Link (handedOut.sys.machine.mem 262 0) 263 ∧ Link (handedOut.sys.machine.mem 258 0) 259 := by decide +kernel
    have h2 : Link (handedOut.sys.machine.mem 263 2) 264 ∧ Link (handedOut.sys.machine.mem 259 2) 260 := by decide +kernel
    have huser : isUser (handedOut.sys.machine.mem 264 0) ∧ isUser (handedOut.sys.machine.mem 260 0) := by decide +kernel
    have hframe : frameOf (handedOut.sys.machine.mem 264 0) = 261 ∧ frameOf (handedOut.sys.machine.mem 260 0) = 261 := by
      decide +kernel
    have hshared := not_shared_handedOut
    intro h
    change Sound handedOut at h
    generalize handedOut = w at *
    exact hshared (h.explicit 256 ⟨1, hroot.1⟩ 257 ⟨2, hroot.2⟩ (by decide) 261
      ⟨264, 0, ((Under.root.link h4.1).link h3.1).link h2.1, huser.1, hframe.1⟩
      ⟨260, 0, ((Under.root.link h4.2).link h3.2).link h2.2, huser.2, hframe.2⟩)

end SwiftCore.Syscall.FrameSharing
