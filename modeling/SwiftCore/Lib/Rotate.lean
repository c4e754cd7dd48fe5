/-
Searching a queue by rotating it: elements are taken off the front and put back behind until one matches, which is kept.
The search stops in the middle of the rotation, so `rotateTo p l` is the part behind the first match followed by the
part before it.

- `split_find`: the list around its first match.
- `rotateTo_eq_eraseP_iff`: on a queue without repetitions the rest keeps its order exactly when the first match stands
  at one end of the queue, or there is none.
- `filter_rotateTo`: the matches themselves always keep their order.
-/
import Mathlib.Data.List.TakeWhile
import Mathlib.Tactic

namespace SwiftCore.Rotate

variable {α : Type*}

variable (p : α → Bool)

variable (l : List α)

/-- what stands before the first match -/
def before : List α := l.takeWhile fun x => ! p x

/-- what stands behind the first match -/
def behind : List α := (l.dropWhile fun x => ! p x).tail

/-- the queue that a search by rotation leaves -/
def rotateTo : List α := behind p l ++ before p l

theorem before_not : ∀ x ∈ before p l, p x = false := by
  intro x hx
  simpa using List.mem_takeWhile_imp hx

variable {p : α → Bool} {l : List α}

/-- the list around its first match -/
theorem split_find {x : α} (h : l.find? p = some x) : l = before p l ++ x :: behind p l := by
  induction l with
  | nil => simp at h
  | cons y l ih =>
    cases hy : p y with
    | true =>
      rw [List.find?_cons_of_pos hy] at h
      cases h
      simp [before, behind, hy]
    | false =>
      rw [List.find?_cons_of_neg (by simp [hy])] at h
      simpa [before, behind, hy] using ih h

theorem before_of_none (h : l.find? p = none) : before p l = l := by
  rw [List.find?_eq_none] at h
  exact List.takeWhile_eq_self_iff.2 fun x hx => by simpa using h x hx

theorem behind_of_none (h : l.find? p = none) : behind p l = [] := by
  rw [List.find?_eq_none] at h
  rw [behind, List.dropWhile_eq_nil_iff.2 fun x hx => by simpa using h x hx, List.tail_nil]

theorem mem_of_mem_rotateTo {x : α} (h : x ∈ rotateTo p l) : x ∈ l := by
  rcases List.mem_append.1 h with h | h
  · exact (List.dropWhile_sublist _).subset (List.mem_of_mem_tail h)
  · exact (List.takeWhile_sublist _).subset h

variable (p)

/-- removing the first match instead keeps the rest in order -/
theorem eraseP_eq (l : List α) : l.eraseP p = before p l ++ behind p l := by
  cases h : l.find? p with
  | none =>
    rw [before_of_none h, behind_of_none h, List.append_nil]
    exact List.eraseP_of_forall_not (List.find?_eq_none.1 h)
  | some x =>
    have hl := split_find h
    have hx : p x = true := List.find?_some h
    rw [hl, List.eraseP_append_right _ (by simpa using before_not p l), List.eraseP_cons_of_pos hx, ← hl]

theorem filter_before (l : List α) : (before p l).filter p = [] :=
  List.filter_eq_nil_iff.2 fun x hx => by simp [before_not p l x hx]

/-- a rotation takes the first match out and keeps the others in order -/
theorem filter_rotateTo (l : List α) : (rotateTo p l).filter p = (l.filter p).tail := by
  rw [rotateTo, List.filter_append, filter_before, List.append_nil]
  cases h : l.find? p with
  | none => rw [behind_of_none h, List.filter_eq_nil_iff.2 (List.find?_eq_none.1 h), List.filter_nil, List.tail_nil]
  | some x =>
    have hl := congrArg (List.filter p) (split_find h)
    rw [List.filter_append, filter_before, List.nil_append, List.filter_cons_of_pos (List.find?_some h)] at hl
    rw [hl, List.tail_cons]

/-- a rotation and its first match are the list in another order -/
theorem perm_rotateTo (l : List α) : ((l.find? p).toList ++ rotateTo p l).Perm l := by
  cases h : l.find? p with
  | none => simp [rotateTo, before_of_none h, behind_of_none h]
  | some x => exact .trans (@List.perm_append_comm _ (x :: behind p l) _) (.of_eq (split_find h).symm)

variable {p}

theorem append_comm_iff {a b : List α} (h : (a ++ b).Nodup) : b ++ a = a ++ b ↔ a = [] ∨ b = [] := by
  constructor
  · intro he
    cases a with
    | nil => exact .inl rfl
    | cons x a =>
      cases b with
      | nil => exact .inr rfl
      | cons y b =>
        rw [List.cons_append, List.cons_append, List.cons.injEq] at he
        have hxy := List.nodup_append.1 h
        exact absurd he.1.symm (hxy.2.2 x (by simp) y (by simp))
  · rintro (rfl | rfl) <;> simp

/-- **A rotation keeps the order iff the match is at an end.** -/
theorem rotateTo_eq_eraseP_iff (h : l.Nodup) : rotateTo p l = l.eraseP p ↔ before p l = [] ∨ behind p l = [] := by
  rw [eraseP_eq, rotateTo]
  apply append_comm_iff
  rw [← eraseP_eq]
  exact h.sublist List.eraseP_sublist

end SwiftCore.Rotate
