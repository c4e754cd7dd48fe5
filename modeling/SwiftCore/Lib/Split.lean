/-
Lists cut at a separator.

The pieces that are not empty do not change when separators are taken off the ends (`filter_splitOn_trim`), and there are
none exactly for lists of separators (`trim_eq_nil_iff`).
-/
import Mathlib.Tactic
import Mathlib.Data.List.DropRight

namespace SwiftCore.Split

variable {α : Type*} [DecidableEq α]

/-- `xs` without the separators at its ends -/
def trim (sep : α) (xs : List α) : List α := (xs.dropWhile (· == sep)).rdropWhile (· == sep)

variable (sep : α)

theorem splitOn_append (xs ys : List α) : (xs ++ sep :: ys).splitOn sep = xs.splitOn sep ++ ys.splitOn sep :=
  List.splitOnP_append_cons xs ys (by simp)

variable (xs : List α)

theorem splitOn_cons_sep : (sep :: xs).splitOn sep = [] :: xs.splitOn sep :=
  splitOn_append sep [] xs

theorem filter_splitOn_rdropWhile :
    ((xs.rdropWhile (· == sep)).splitOn sep).filter (· ≠ []) = (xs.splitOn sep).filter (· ≠ []) := by
  induction xs using List.reverseRecOn with
  | nil => simp
  | append_singleton xs x ih =>
    by_cases hx : x = sep
    · subst hx
      have hlast : (xs ++ [x]).splitOn x = xs.splitOn x ++ [[]] := splitOn_append x xs []
      rw [List.rdropWhile_concat_pos _ _ _ (by simp), hlast, List.filter_append, ih]
      simp
    · rw [List.rdropWhile_concat_neg _ _ _ (by simpa using hx)]

theorem filter_splitOn_dropWhile :
    ((xs.dropWhile (· == sep)).splitOn sep).filter (· ≠ []) = (xs.splitOn sep).filter (· ≠ []) := by
  induction xs with
  | nil => simp
  | cons x xs ih =>
    by_cases hx : x = sep
    · subst hx
      rw [List.dropWhile_cons_of_pos (by simp), ih, splitOn_cons_sep]
      simp
    · rw [List.dropWhile_cons_of_neg (by simpa using hx)]

theorem filter_splitOn_trim :
    ((trim sep xs).splitOn sep).filter (· ≠ []) = (xs.splitOn sep).filter (· ≠ []) := by
  rw [trim, filter_splitOn_rdropWhile, filter_splitOn_dropWhile]

theorem eq_sep_of_filter_splitOn {sep : α} {xs : List α} (h : (xs.splitOn sep).filter (· ≠ []) = []) :
    ∀ x ∈ xs, x = sep := by
  induction xs with
  | nil => simp
  | cons x xs ih =>
    by_cases hx : x = sep
    · subst hx
      rw [splitOn_cons_sep] at h
      intro y hy
      rcases List.mem_cons.1 hy with rfl | hy
      · rfl
      · exact ih (by simpa using h) y hy
    · -- the first piece starts with `x`
      exfalso
      have hcons : (x :: xs).splitOn sep = (xs.splitOn sep).modifyHead (List.cons x) := by
        simp [List.splitOn, List.splitOnP_cons_eq_if_modifyHead, hx]
      rw [hcons] at h
      cases hsplit : xs.splitOn sep with
      | nil => exact List.splitOnP_ne_nil _ xs hsplit
      | cons piece pieces => simp [hsplit] at h

theorem trim_eq_nil_iff : trim sep xs = [] ↔ (xs.splitOn sep).filter (· ≠ []) = [] := by
  constructor
  · intro h
    rw [← filter_splitOn_trim, h]
    simp
  · intro h
    by_contra hne
    have hall := eq_sep_of_filter_splitOn (by rwa [filter_splitOn_trim] : ((trim sep xs).splitOn sep).filter (· ≠ []) = [])
    have hlast := List.rdropWhile_last_not (· == sep) (xs.dropWhile (· == sep)) hne
    exact hlast (beq_iff_eq.2 (hall _ (List.getLast_mem hne)))

end SwiftCore.Split
