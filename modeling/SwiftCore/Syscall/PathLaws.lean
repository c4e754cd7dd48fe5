/-
The laws of `normalize_path` (core/syscall/fs.rs).

What a path means is said on its own first: a place in a tree of names, where `..` goes to the parent and the root is
its own parent (`Place`). `normalize_path` writes down the place that its segments lead to, and the laws follow.

- `names_go`: a segment moves the stack of `normalize_path` as it moves the place.
- `normalizePath_laws`: shape of the result, idempotence, meaning, and composition.
- `utf8Len_normalizePath_le`: an absolute path does not get longer.
-/
import Mathlib.Data.String.Basic
import SwiftCore.Syscall.Paths

namespace SwiftCore.Syscall.Paths

open SwiftCore.Task FsReplies

/-! ## Places -/

/-- a directory or file by the names on the way to it -/
inductive Place where
  | root
  | child (dir : Place) (name : Path)

namespace Place

/-- the root is its own parent -/
def parent : Place → Place
  | root => root
  | child dir _ => dir

/-- where a segment leads -/
def go (p : Place) (seg : Path) : Place :=
  if seg = [] ∨ seg = dot then p else if seg = dotdot then p.parent else p.child seg

/-- the names on the way, each behind a slash -/
def trail : Place → Path
  | root => []
  | child dir name => dir.trail ++ '/' :: name

def path : Place → Path
  | root => ['/']
  | child dir name => (child dir name).trail

def names : Place → List Path
  | root => []
  | child dir name => dir.names ++ [name]

end Place

theorem names_parent (p : Place) : p.parent.names = p.names.dropLast := by
  cases p with
  | root => rfl
  | child dir name => exact List.dropLast_concat.symm

theorem names_go (p : Place) (seg : Path) : (p.go seg).names = push p.names seg := by
  unfold Place.go push
  split_ifs
  · rfl
  · exact names_parent p
  · rfl

theorem names_walk (segs : List Path) (p : Place) : (segs.foldl Place.go p).names = segs.foldl push p.names := by
  induction segs generalizing p with
  | nil => rfl
  | cons seg segs ih =>
    rw [List.foldl_cons, List.foldl_cons, ih, names_go]

variable (parts : List Path)

/-- joining from the right -/
theorem slash_intercalate_concat (name : Path) :
    '/' :: ['/'].intercalate (parts ++ [name]) =
      (if parts = [] then [] else '/' :: ['/'].intercalate parts) ++ '/' :: name := by
  induction parts with
  | nil => simp
  | cons first parts ih =>
    cases parts with
    | nil => simp [List.intercalate]
    | cons second parts =>
      simpa [List.intercalate, List.intersperse] using ih

theorem trail_eq (p : Place) : p.trail = if p.names = [] then [] else '/' :: ['/'].intercalate p.names := by
  induction p with
  | root => rfl
  | child dir name ih =>
    have hnames : dir.names ++ [name] ≠ [] := List.append_ne_nil_of_right_ne_nil _ (List.cons_ne_nil _ _)
    rw [Place.trail, Place.names, if_neg hnames, slash_intercalate_concat, ih]

theorem path_eq_render (p : Place) : p.path = render p.names := by
  cases p with
  | root => rfl
  | child dir name =>
    have hnames : (Place.child dir name).names ≠ [] :=
      List.append_ne_nil_of_right_ne_nil _ (List.cons_ne_nil _ _)
    rw [Place.path, trail_eq, render, if_neg hnames, if_neg hnames]

/-- `normalize_path` is the path of the place that the segments lead to -/
theorem normalizePath_eq_path (p : Path) : normalizePath p = ((segments p).foldl Place.go .root).path := by
  rw [path_eq_render, names_walk]
  rfl

/-! ## Laws -/

/-- a path in normal form -/
structure Normal (p : Path) : Prop where
  slash : p.head? = some '/'
  segs : p ≠ ['/'] → ∀ seg ∈ segments p.tail, seg ≠ [] ∧ seg ≠ dot ∧ seg ≠ dotdot
  trailing : p ≠ ['/'] → p.getLast? ≠ some '/'

theorem segments_intercalate {parts : List Path} (h : ∀ seg ∈ parts, Name seg) (hparts : parts ≠ []) :
    segments (['/'].intercalate parts) = parts :=
  List.splitOn_intercalate '/' (fun seg hseg => (h seg hseg).no_slash) hparts

theorem normal_render {parts : List Path} (h : ∀ seg ∈ parts, Name seg) : Normal (render parts) := by
  by_cases hparts : parts = []
  · have hroot : render parts = ['/'] := if_pos hparts
    rw [hroot]
    exact ⟨rfl, fun hne => absurd rfl hne, fun hne => absurd rfl hne⟩
  have htext : render parts = '/' :: ['/'].intercalate parts := if_neg hparts
  refine ⟨?_, ?_, ?_⟩
  · rw [htext]
    rfl
  · intro _ seg hseg
    rw [htext, List.tail_cons, segments_intercalate h hparts] at hseg
    exact ⟨(h seg hseg).nonempty, (h seg hseg).not_dot, (h seg hseg).not_dotdot⟩
  · intro _
    -- a slash at the end would leave an empty last segment
    obtain ⟨front, name, rfl⟩ := List.eq_nil_or_concat' parts |>.resolve_left hparts
    have hname : Name name := h name (List.mem_append_right _ List.mem_cons_self)
    rw [htext, slash_intercalate_concat]
    intro hlast
    obtain ⟨init, c, rfl⟩ := List.eq_nil_or_concat' name |>.resolve_left hname.nonempty
    rw [← List.cons_append, ← List.append_assoc, List.getLast?_concat] at hlast
    have hc : c = '/' := Option.some.inj hlast
    exact hname.no_slash (hc ▸ List.mem_append_right _ List.mem_cons_self)

/-- the directory in front may be normalised first -/
theorem normalizePath_under (a b : Path) :
    normalizePath (a ++ '/' :: b) = normalizePath (normalizePath a ++ '/' :: b) := by
  have hstack : stack (normalizePath a) = stack a := stack_render (names_stack a)
  rw [normalizePath, normalizePath, stack_under, stack_under, hstack]

/-- **The laws of `normalize_path`.** -/
theorem normalizePath_laws :
    (∀ p, Normal (normalizePath p) ∧ normalizePath (normalizePath p) = normalizePath p ∧
      normalizePath p = ((segments p).foldl Place.go .root).path) ∧
    ∀ a b, normalizePath (a ++ '/' :: b) = normalizePath (normalizePath a ++ '/' :: b) :=
  ⟨fun p => ⟨normal_render (names_stack p), normalizePath_idem p, normalizePath_eq_path p⟩, normalizePath_under⟩

/-! ## Length -/

/-- the bytes of the names, with the slash in front of each -/
def spread (parts : List Path) : ℕ := (parts.map fun name => String.utf8Len name + 1).sum

theorem spread_append (parts parts' : List Path) : spread (parts ++ parts') = spread parts + spread parts' := by
  rw [spread, List.map_append, List.sum_append]
  rfl

theorem spread_dropLast_le : spread parts.dropLast ≤ spread parts := by
  obtain rfl | ⟨front, name, rfl⟩ := List.eq_nil_or_concat' parts
  · rfl
  · rw [List.dropLast_concat, spread_append]
    exact Nat.le_add_right _ _

theorem spread_push_le (seg : Path) : spread (push parts seg) ≤ spread parts + spread [seg] := by
  unfold push
  split_ifs
  · exact Nat.le_add_right _ _
  · exact (spread_dropLast_le parts).trans (Nat.le_add_right _ _)
  · exact (spread_append parts [seg]).le

theorem spread_foldl_push_le (segs parts : List Path) :
    spread (segs.foldl push parts) ≤ spread parts + spread segs := by
  induction segs generalizing parts with
  | nil => exact le_rfl
  | cons seg segs ih =>
    calc spread (segs.foldl push (push parts seg))
        ≤ spread (push parts seg) + spread segs := ih _
      _ ≤ spread parts + spread [seg] + spread segs := Nat.add_le_add_right (spread_push_le parts seg) _
      _ = spread parts + spread (seg :: segs) := by rw [Nat.add_assoc, ← spread_append, List.singleton_append]

theorem spread_segments (path : Path) : spread (segments path) = String.utf8Len path + 1 := by
  induction path with
  | nil => rfl
  | cons c path ih =>
    by_cases hc : c = '/'
    · subst hc
      have hcons : spread ([] :: segments path) = 1 + spread (segments path) := rfl
      rw [segments_cons_slash, hcons, ih, String.utf8Len_cons]
      have hone : Char.utf8Size '/' = 1 := by decide
      omega
    · have hcons : segments (c :: path) = (segments path).modifyHead (List.cons c) := by
        simp [segments, List.splitOn, List.splitOnP_cons_eq_if_modifyHead, hc]
      cases hsegs : segments path with
      | nil => exact absurd hsegs (List.splitOnP_ne_nil _ _)
      | cons first rest =>
        rw [hsegs] at ih hcons
        have hfirst : spread ((c :: first) :: rest) = spread (first :: rest) + c.utf8Size := by
          simp only [spread, List.map_cons, List.sum_cons, String.utf8Len_cons]
          omega
        rw [hcons, List.modifyHead_cons, hfirst, ih, String.utf8Len_cons]
        omega

theorem utf8Len_render : String.utf8Len (render parts) = max 1 (spread parts) := by
  induction parts using List.reverseRecOn with
  | nil => rfl
  | append_singleton parts name ih =>
    have hslash : Char.utf8Size '/' = 1 := by decide
    have hlast : spread [name] = String.utf8Len name + 1 := by simp [spread]
    have hne : parts ++ [name] ≠ [] := by simp
    rw [render, if_neg hne, slash_intercalate_concat, String.utf8Len_append, String.utf8Len_cons, spread_append, hlast]
    by_cases hparts : parts = []
    · subst hparts
      simp [spread, hslash]
    · rw [render, if_neg hparts] at ih
      rw [if_neg hparts, ih, hslash]
      have hpos : 1 ≤ spread parts := by
        obtain ⟨first, rest, rfl⟩ := List.exists_cons_of_ne_nil hparts
        simp only [spread, List.map_cons, List.sum_cons]
        omega
      omega

/-- normalising an absolute path makes it no longer -/
theorem utf8Len_normalizePath_le (path : Path) :
    String.utf8Len (normalizePath ('/' :: path)) ≤ String.utf8Len ('/' :: path) := by
  have hslash : Char.utf8Size '/' = 1 := by decide
  have hfold := spread_foldl_push_le (segments path) []
  have hstack : stack ('/' :: path) = (segments path).foldl push [] := by
    rw [stack, segments_cons_slash, List.foldl_cons, push_nil]
  rw [normalizePath, utf8Len_render, hstack, String.utf8Len_cons]
  rw [spread_segments] at hfold
  have hnil : spread [] = 0 := rfl
  omega

end SwiftCore.Syscall.Paths
