/-
Intrusive singly linked lists: every element holds the link to the next one, a null link ends the list.

`Chain next null a l` says that following `next` from `a` visits the elements of `l` in order and then reaches `null`.
- `Chain.nodup`: a list that ends cannot visit an element twice, so it is acyclic.
- `Chain.unique`: the links determine the list.
- `Chain.congr`: a change of links outside the list leaves it as it is.
- `Chain.push`, `Chain.pop`: inserting and removing at the front.
-/
import Mathlib.Tactic

namespace SwiftCore.Links

variable {α : Type*} {null : α}

/-- the links lead from `a` through `l` to the null link -/
inductive Chain (next : α → α) (null : α) : α → List α → Prop
  | nil : Chain next null null []
  | cons {a : α} {l : List α} (ha : a ≠ null) (h : Chain next null (next a) l) : Chain next null a (a :: l)

variable {next : α → α} {l : List α} {a : α}

theorem Chain.eq_nil (h : Chain next null null l) : l = [] := by
  cases h with
  | nil => rfl
  | cons ha _ => exact absurd rfl ha

section

variable (h : Chain next null a l)

include h

/-- the links determine the list -/
theorem Chain.unique {l' : List α} (h' : Chain next null a l') : l = l' := by
  induction h generalizing l' with
  | nil => exact h'.eq_nil.symm
  | cons ha _ ih =>
    cases h' with
    | nil => exact absurd rfl ha
    | cons _ h₁ => rw [ih h₁]

/-- every element of the list starts a list of its own, which is a suffix -/
theorem Chain.suffix {b : α} (hb : b ∈ l) : ∃ l', Chain next null b l' ∧ l' <:+ l := by
  induction h with
  | nil => exact absurd hb List.not_mem_nil
  | @cons a l ha h ih =>
    rcases List.mem_cons.1 hb with rfl | hb
    · exact ⟨b :: l, .cons ha h, List.suffix_refl _⟩
    · obtain ⟨l', h', hs⟩ := ih hb
      exact ⟨l', h', hs.trans (List.suffix_cons a l)⟩

/-- **Acyclic.** A list of links that ends visits no element twice. -/
theorem Chain.nodup : l.Nodup := by
  induction h with
  | nil => exact List.nodup_nil
  | @cons a l ha h ih =>
    refine List.nodup_cons.2 ⟨fun hm => ?_, ih⟩
    -- the suffix that starts at the second visit would be the whole list
    obtain ⟨l', h', hs⟩ := h.suffix hm
    have heq : l' = a :: l := h'.unique (.cons ha h)
    have hlen := hs.length_le
    simp [heq] at hlen

/-- links outside the list do not matter -/
theorem Chain.congr {next' : α → α} (heq : ∀ b ∈ l, next' b = next b) : Chain next' null a l := by
  induction h with
  | nil => exact .nil
  | @cons a l ha _ ih =>
    refine .cons ha ?_
    rw [heq a (List.mem_cons_self ..)]
    exact ih fun b hb => heq b (List.mem_cons_of_mem _ hb)

/-- inserting at the front: the new element links to the old head -/
theorem Chain.push {next' : α → α} {b : α} (hb : b ≠ null)
    (hlink : next' b = a) (heq : ∀ c ∈ l, next' c = next c) : Chain next' null b (b :: l) :=
  .cons hb (hlink ▸ h.congr heq)

end

/-- removing at the front: the head's link is the new head -/
theorem Chain.pop {b : α} (h : Chain next null a (b :: l)) : a = b ∧ a ≠ null ∧ Chain next null (next b) l := by
  cases h with
  | cons ha h => exact ⟨rfl, ha, h⟩

end SwiftCore.Links
