/-
Tables of a fixed range of slots, each empty or holding a value: `f i` is the content of slot `i`, and only the slots
`lo ≤ i < hi` count.

- `firstFree`: the first-fit search for an empty slot; `firstSlot`: the search for a value with a property.
- `tally w`: the sum of the weights `w` of the stored values. A weight of 0 or 1 makes it the number of stored values
  with a property. `tally_update` is how it changes when one slot is written; `tally_clear` when a set of slots is
  emptied and their contents listed.
- `takeFirst`: a loop that empties the first `n` slots with a property; `takeFirst_eq` names the slots it empties.
-/
import Mathlib.Algebra.BigOperators.Intervals
import Mathlib.Tactic

namespace SwiftCore.SlotTable

open Function

variable {α β : Type*} {lo hi i : ℕ} {f : ℕ → Option α}

/-- the first empty slot -/
def firstFree (lo hi : ℕ) (f : ℕ → Option α) : Option ℕ :=
  (List.range' lo (hi - lo)).find? fun i => (f i).isNone

theorem mem_slots : i ∈ List.range' lo (hi - lo) ↔ lo ≤ i ∧ i < hi := by
  rw [List.mem_range'_1]
  omega

theorem firstFree_some (h : firstFree lo hi f = some i) : lo ≤ i ∧ i < hi ∧ f i = none := by
  obtain ⟨hlo, hhi⟩ := mem_slots.1 (List.mem_of_find?_eq_some h)
  exact ⟨hlo, hhi, by simpa using List.find?_some h⟩

theorem firstFree_eq_none : firstFree lo hi f = none ↔ ∀ i, lo ≤ i → i < hi → f i ≠ none := by
  simp only [firstFree, List.find?_eq_none, mem_slots, Option.isNone_iff_eq_none, and_imp, ne_eq]

variable {n : ℕ} {p : α → Bool}

/-- a table whose stored values go one to one to other places, with one place left over, has an empty slot -/
theorem firstFree_of_injection {k : ℕ} {f : ℕ → Option α} {g : ℕ → ℕ} (hk : k < n)
    (hg : ∀ i, i < n → f i ≠ none → g i < n ∧ g i ≠ k)
    (hinj : ∀ i j, i < n → j < n → f i ≠ none → f j ≠ none → g i = g j → i = j) : firstFree 0 n f ≠ none := by
  intro hnone
  have hfull : ∀ i, i < n → f i ≠ none := fun i hi => firstFree_eq_none.1 hnone i (Nat.zero_le i) hi
  have hcard : ((Finset.range n).erase k).card < (Finset.range n).card :=
    Finset.card_erase_lt_of_mem (Finset.mem_range.2 hk)
  have hmaps : ∀ i ∈ Finset.range n, g i ∈ (Finset.range n).erase k := by
    intro i hi
    have hi := Finset.mem_range.1 hi
    obtain ⟨hlt, hne⟩ := hg i hi (hfull i hi)
    exact Finset.mem_erase.2 ⟨hne, Finset.mem_range.2 hlt⟩
  obtain ⟨i, hi, j, hj, hne, heq⟩ := Finset.exists_ne_map_eq_of_card_lt_of_maps_to hcard hmaps
  have hi := Finset.mem_range.1 hi
  have hj := Finset.mem_range.1 hj
  exact hne (hinj i j hi hj (hfull i hi) (hfull j hj) heq)

/-! ## Search -/

/-- the first slot that holds a value with property `p` -/
def firstSlot (lo hi : ℕ) (p : α → Bool) (f : ℕ → Option α) : Option ℕ :=
  (List.range' lo (hi - lo)).find? fun i => (f i).any p

theorem firstSlot_some (h : firstSlot lo hi p f = some i) : lo ≤ i ∧ i < hi ∧ ∃ a, f i = some a ∧ p a = true := by
  obtain ⟨hlo, hhi⟩ := mem_slots.1 (List.mem_of_find?_eq_some h)
  have hany : (f i).any p = true := by simpa using List.find?_some h
  exact ⟨hlo, hhi, (Option.any_eq_true _ _).1 hany⟩

theorem firstSlot_eq_none : firstSlot lo hi p f = none ↔ ∀ i a, lo ≤ i → i < hi → f i = some a → p a = false := by
  simp only [firstSlot, List.find?_eq_none, mem_slots, and_imp, Bool.not_eq_true, Option.any_eq_false]
  exact ⟨fun h i a hlo hhi ha => h i hlo hhi a ha, fun h i hlo hhi a ha => h i a hlo hhi ha⟩

/-- the search looks at nothing but the property of what a slot holds -/
theorem firstSlot_congr {g : ℕ → Option β} {q : β → Bool}
    (h : ∀ i, lo ≤ i → i < hi → (f i).any p = (g i).any q) : firstSlot lo hi p f = firstSlot lo hi q g := by
  unfold firstSlot
  apply List.find?_congr
  intro i hi
  exact h i (mem_slots.1 hi).1 (mem_slots.1 hi).2

/-- the only slot with the property is the one found -/
theorem firstSlot_of_unique {a : α} (hlo : lo ≤ i) (hhi : i < hi) (ha : f i = some a) (hp : p a = true)
    (hone : ∀ j b, lo ≤ j → j < hi → f j = some b → p b = true → j = i) : firstSlot lo hi p f = some i := by
  cases hfound : firstSlot lo hi p f with
  | none =>
    rw [firstSlot_eq_none] at hfound
    exact absurd (hp.symm.trans (hfound i a hlo hhi ha)) nofun
  | some j =>
    obtain ⟨hjlo, hjhi, b, hb, hpb⟩ := firstSlot_some hfound
    rw [hone j b hjlo hjhi hb hpb]

/-! ## Weights -/

/-- the weight of one slot -/
def weigh (w : α → ℕ) (o : Option α) : ℕ := o.elim 0 w

variable (w : α → ℕ)

@[simp] theorem weigh_none : weigh w none = 0 := rfl

@[simp] theorem weigh_some (a : α) : weigh w (some a) = w a := rfl

/-- the weights of all stored values -/
def tally (lo hi : ℕ) (w : α → ℕ) (f : ℕ → Option α) : ℕ := ∑ i ∈ Finset.Ico lo hi, weigh w (f i)

/-- writing one slot trades its old weight for the new one -/
theorem tally_update (hlo : lo ≤ i) (hhi : i < hi) (b : Option α) :
    tally lo hi w (update f i b) + weigh w (f i) = tally lo hi w f + weigh w b := by
  have hmem : i ∈ Finset.Ico lo hi := Finset.mem_Ico.2 ⟨hlo, hhi⟩
  have hnew : tally lo hi w (update f i b) =
      weigh w b + ∑ j ∈ Finset.Ico lo hi \ {i}, weigh w (f j) := by
    rw [← Finset.sum_update_of_mem hmem]
    apply Finset.sum_congr rfl
    intro j _
    exact apply_update (fun _ => weigh w) f i b j
  have hold : tally lo hi w f = weigh w (f i) + ∑ j ∈ Finset.Ico lo hi \ {i}, weigh w (f j) :=
    Finset.sum_eq_add_sum_sdiff_singleton_of_mem hmem fun j => weigh w (f j)
  omega

theorem tally_congr {g : ℕ → Option β} {w : α → ℕ} {v : β → ℕ}
    (h : ∀ i, lo ≤ i → i < hi → weigh w (f i) = weigh v (g i)) : tally lo hi w f = tally lo hi v g := by
  apply Finset.sum_congr rfl
  intro i hi
  exact h i (Finset.mem_Ico.1 hi).1 (Finset.mem_Ico.1 hi).2

theorem tally_mono {w v : α → ℕ} (h : ∀ a, w a ≤ v a) : tally lo hi w f ≤ tally lo hi v f := by
  apply Finset.sum_le_sum
  intro i _
  cases f i with
  | none => exact le_refl 0
  | some a => exact h a

@[simp] theorem tally_empty : tally lo hi w (fun _ => none) = 0 := by simp [tally]

/-- with weight 1, `tally` counts the used slots: no slot is free iff it is the size of the table -/
theorem firstFree_eq_none_iff_tally : firstFree lo hi f = none ↔ tally lo hi (fun _ => 1) f = hi - lo := by
  have hsize : ∑ _i ∈ Finset.Ico lo hi, 1 = hi - lo := by simp
  have hle : ∀ i ∈ Finset.Ico lo hi, weigh (fun _ => 1) (f i) ≤ 1 := by
    intro i _
    cases f i <;> simp
  rw [firstFree_eq_none, tally, ← hsize, Finset.sum_eq_sum_iff_of_le hle]
  constructor
  · intro h i hi
    obtain ⟨a, ha⟩ := Option.ne_none_iff_exists'.1 (h i (Finset.mem_Ico.1 hi).1 (Finset.mem_Ico.1 hi).2)
    simp [ha]
  · intro h i hlo hhi hnone
    have := h i (Finset.mem_Ico.2 ⟨hlo, hhi⟩)
    simp [hnone] at this

theorem tally_one_le : tally lo hi (fun _ => 1) f ≤ hi - lo := by
  have hle : ∀ i ∈ Finset.Ico lo hi, weigh (fun _ => 1) (f i) ≤ 1 := by
    intro i _
    cases f i <;> simp
  calc tally lo hi (fun _ => 1) f ≤ ∑ _i ∈ Finset.Ico lo hi, 1 := Finset.sum_le_sum hle
    _ = hi - lo := by simp

/-- the contents of the slots with property `p`, in order -/
def select (lo hi : ℕ) (p : ℕ → Bool) (f : ℕ → Option α) : List α :=
  (List.range' lo (hi - lo)).filterMap fun i => if p i then f i else none

/-- the table with the slots with property `p` emptied -/
def clear (p : ℕ → Bool) (f : ℕ → Option α) : ℕ → Option α := fun i => if p i then none else f i

theorem clear_nothing : clear (fun _ => false) f = f := rfl

theorem sum_filterMap (g : ℕ → Option α) (l : List ℕ) :
    ((l.filterMap g).map w).sum = (l.map fun i => weigh w (g i)).sum := by
  induction l with
  | nil => rfl
  | cons i l ih =>
    cases hg : g i with
    | none => simp [hg, ih]
    | some a => simp [hg, ih]

theorem length_filter_filterMap (p : α → Bool) (g : ℕ → Option α) (l : List ℕ) :
    ((l.filterMap g).filter p).length = (l.filter fun i => (g i).any p).length := by
  induction l with
  | nil => rfl
  | cons i l ih =>
    cases hg : g i with
    | none => simp [hg, ih]
    | some a => cases hp : p a <;> simp [hg, hp, ih]

/-- values that a key tells apart from slot to slot have their keys listed once -/
theorem nodup_map_filterMap {g : α → β} {l : List ℕ} (hnodup : l.Nodup)
    (hinj : ∀ i ∈ l, ∀ j ∈ l, ∀ a b, f i = some a → f j = some b → g a = g b → i = j) :
    ((l.filterMap f).map g).Nodup := by
  induction l with
  | nil => exact List.nodup_nil
  | cons i l ih =>
    obtain ⟨hi, hnodup⟩ := List.nodup_cons.1 hnodup
    have hrest := ih hnodup fun j hj k hk =>
      hinj j (List.mem_cons_of_mem i hj) k (List.mem_cons_of_mem i hk)
    cases hfi : f i with
    | none =>
      rw [List.filterMap_cons_none hfi]
      exact hrest
    | some a =>
      rw [List.filterMap_cons_some hfi, List.map_cons, List.nodup_cons]
      refine ⟨fun hmem => ?_, hrest⟩
      obtain ⟨b, hb, hkey⟩ := List.mem_map.1 hmem
      obtain ⟨j, hj, hfj⟩ := List.mem_filterMap.1 hb
      have heq := hinj j (List.mem_cons_of_mem i hj) i List.mem_cons_self b a hfj hfi hkey
      exact hi (heq ▸ hj)

/-- emptying slots moves their weight to the list of what they held -/
theorem tally_clear (p : ℕ → Bool) :
    tally lo hi w (clear p f) + ((select lo hi p f).map w).sum = tally lo hi w f := by
  have hsum : ((select lo hi p f).map w).sum = ∑ i ∈ Finset.Ico lo hi, weigh w (if p i then f i else none) := by
    rw [select, sum_filterMap]
    rfl
  rw [hsum, tally, tally, ← Finset.sum_add_distrib]
  apply Finset.sum_congr rfl
  intro i _
  cases hp : p i <;> simp [clear, hp]

theorem mem_select_iff {p : ℕ → Bool} {a : α} :
    a ∈ select lo hi p f ↔ ∃ i, lo ≤ i ∧ i < hi ∧ p i = true ∧ f i = some a := by
  simp only [select, List.mem_filterMap, mem_slots, Option.ite_none_right_eq_some]
  exact ⟨fun ⟨i, ⟨hlo, hhi⟩, hp, ha⟩ => ⟨i, hlo, hhi, hp, ha⟩, fun ⟨i, hlo, hhi, hp, ha⟩ => ⟨i, ⟨hlo, hhi⟩, hp, ha⟩⟩

/-! ## Taking the first few values with a property -/

/-- go over the slots, empty those that hold a value with property `p` and list the values, until there are `n` -/
def takeFirst (p : α → Bool) : List ℕ → ℕ → (ℕ → Option α) → List α × (ℕ → Option α)
  | [], _, f => ([], f)
  | i :: slots, n, f =>
    if n = 0 then ([], f)
    else
      match f i with
      | none => takeFirst p slots n f
      | some a =>
        if p a then
          let (l, f') := takeFirst p slots (n - 1) (update f i none)
          (a :: l, f')
        else takeFirst p slots n f

/-- the slots that `takeFirst` empties -/
def taken (p : α → Bool) (slots : List ℕ) (n : ℕ) (f : ℕ → Option α) : List ℕ :=
  (slots.filter fun i => (f i).any p).take n

theorem taken_congr {slots : List ℕ} {g : ℕ → Option α} (h : ∀ i ∈ slots, f i = g i) :
    taken p slots n f = taken p slots n g := by
  have hfilter : slots.filter (fun i => (f i).any p) = slots.filter fun i => (g i).any p := by
    apply List.filter_congr
    intro i hi
    rw [h i hi]
  rw [taken, taken, hfilter]

theorem takeFirst_eq (p : α → Bool) (slots : List ℕ) (hnodup : slots.Nodup) (n : ℕ) (f : ℕ → Option α) :
    takeFirst p slots n f =
      ((taken p slots n f).filterMap f, clear (fun i => i ∈ taken p slots n f) f) := by
  induction slots generalizing n f with
  | nil => simp [takeFirst, taken, clear_nothing]
  | cons i slots ih =>
    obtain ⟨hi, hnodup⟩ := List.nodup_cons.1 hnodup
    cases n with
    | zero => simp [takeFirst, taken, clear_nothing]
    | succ n =>
      cases hfi : f i with
      | none =>
        have hskip : taken p (i :: slots) (n + 1) f = taken p slots (n + 1) f := by simp [taken, hfi]
        simp [takeFirst, hfi, ih hnodup, hskip]
      | some a =>
        by_cases hp : p a = true
        · -- the slot just emptied is not met again
          have hother : ∀ j ∈ slots, update f i none j = f j := by
            intro j hj
            have hne : j ≠ i := by
              rintro rfl
              exact hi hj
            exact update_of_ne hne _ _
          have hsame : taken p slots n (update f i none) = taken p slots n f := taken_congr hother
          have hcons : taken p (i :: slots) (n + 1) f = i :: taken p slots n f := by simp [taken, hfi, hp]
          have hsub : ∀ j ∈ taken p slots n f, j ∈ slots := by
            intro j hj
            exact List.mem_of_mem_filter (List.mem_of_mem_take hj)
          have hvalues : (taken p slots n f).filterMap (update f i none) =
              (taken p slots n f).filterMap f := by
            apply List.filterMap_congr
            intro j hj
            exact hother j (hsub j hj)
          have hclear : clear (fun j => j ∈ taken p slots n f) (update f i none) =
              clear (fun j => j ∈ i :: taken p slots n f) f := by
            funext j
            by_cases hj : j = i
            · simp [clear, hj]
            · simp [clear, hj]
          simp [takeFirst, hfi, hp, ih hnodup, hsame, hcons, hvalues, hclear]
        · have hskip : taken p (i :: slots) (n + 1) f = taken p slots (n + 1) f := by simp [taken, hfi, hp]
          simp [takeFirst, hfi, hp, ih hnodup, hskip]

theorem split_slots (hlo : lo ≤ i) (hhi : i < hi) :
    List.range' lo (hi - lo) = List.range' lo (i - lo) ++ i :: List.range' (i + 1) (hi - (i + 1)) := by
  have hfirst : hi - lo = (i - lo) + ((hi - (i + 1)) + 1) := by omega
  rw [hfirst, ← List.range'_append_1, show lo + (i - lo) = i by omega, List.range'_succ]

/-- a slot is emptied when it has the property and fewer than `n` slots before it do -/
theorem mem_taken :
    i ∈ taken p (List.range' lo (hi - lo)) n f ↔
      lo ≤ i ∧ i < hi ∧ (f i).any p = true ∧
        (List.range' lo (i - lo)).countP (fun j => (f j).any p) < n := by
  constructor
  · intro h
    obtain ⟨hmem, hp⟩ := List.mem_filter.1 (List.mem_of_mem_take h)
    obtain ⟨hlo, hhi⟩ := mem_slots.1 hmem
    refine ⟨hlo, hhi, hp, ?_⟩
    rw [taken, split_slots hlo hhi, List.filter_append,
      List.filter_cons_of_pos (p := fun j => (f j).any p) hp] at h
    rw [List.countP_eq_length_filter]
    by_contra hle
    rw [List.take_append_of_le_length (Nat.le_of_not_lt hle)] at h
    have := (mem_slots.1 (List.mem_of_mem_filter (List.mem_of_mem_take h))).2
    exact lt_irrefl i this
  · rintro ⟨hlo, hhi, hp, hcount⟩
    rw [List.countP_eq_length_filter] at hcount
    rw [taken, split_slots hlo hhi, List.filter_append,
      List.filter_cons_of_pos (p := fun j => (f j).any p) hp, List.take_append]
    obtain ⟨k, hk⟩ := Nat.exists_eq_add_of_lt hcount
    rw [show n - ((List.range' lo (i - lo)).filter fun j => (f j).any p).length = k + 1 by omega, List.take_succ_cons]
    exact List.mem_append_right _ List.mem_cons_self

end SwiftCore.SlotTable
