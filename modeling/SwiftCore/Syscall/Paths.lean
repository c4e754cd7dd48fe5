/-
How the system calls turn a directory and a path into the path they look up (`normalize_path`, `resolve_path`, `open`,
`openat`, `stat`, `newfstatat`, `faccessat`, `chdir` of `core/syscall/fs.rs`, `access` of `core/syscall/pgroup.rs`).

A path is a list of characters. `normalize_path` cuts it at the slashes and keeps a stack of names: an empty segment or
`.` changes nothing, `..` drops the last name. Every call but `access` writes its own prefix in front of the path and
normalises; `access` hands the path as it is to the walk through the boot image (`metadataLoop`).

- `normalizePath_idem`: the result of `normalize_path` is in normal form.
- `foldl_push`: started from a stack, the segments take off as many names as they climb above their start.
- `resolve_iff`: the calls agree with the one meaning of a directory and a path, except that `faccessat` and `access`
  forget the current directory, and `access` does not treat `..` and final dots as the others do.
- `access_from_subdirectory`: the same relative path, opened in the current directory and looked for in the root.
-/
import SwiftCore.Lib.Split
import SwiftCore.Syscall.FsReplies

namespace SwiftCore.Syscall.Paths

open SwiftCore.Task FsReplies

/-! ## Normal forms -/

def dot : Path := ['.']

def dotdot : Path := ['.', '.']

variable (path : Path)

/-- `path.split('/')` -/
def segments : List Path := path.splitOn '/'

/-- one turn of the loop of `normalize_path` -/
def push (parts : List Path) (seg : Path) : List Path :=
  if seg = [] ∨ seg = dot then parts else if seg = dotdot then parts.dropLast else parts ++ [seg]

/-- the names left at the end of the loop -/
def stack : List Path := (segments path).foldl push []

def render (parts : List Path) : Path := if parts = [] then ['/'] else '/' :: ['/'].intercalate parts

def normalizePath : Path := render (stack path)

/-- a segment that names an entry of a directory -/
structure Name (seg : Path) : Prop where
  nonempty : seg ≠ []
  not_dot : seg ≠ dot
  not_dotdot : seg ≠ dotdot
  no_slash : '/' ∉ seg

theorem segments_append (path path' : Path) : segments (path ++ '/' :: path') = segments path ++ segments path' :=
  Split.splitOn_append '/' path path'

theorem segments_cons_slash : segments ('/' :: path) = [] :: segments path :=
  segments_append [] path

variable {seg : Path} {segs parts : List Path}

theorem no_slash_of_mem_segments {path : Path} (h : seg ∈ segments path) : '/' ∉ seg := by
  induction path generalizing seg with
  | nil =>
    have hseg : seg = [] := by simpa [segments, List.splitOn] using h
    simp [hseg]
  | cons c path ih =>
    by_cases hc : c = '/'
    · subst hc
      rw [segments_cons_slash, List.mem_cons] at h
      obtain rfl | h := h
      · simp
      · exact ih h
    · have hcons : segments (c :: path) = (segments path).modifyHead (List.cons c) := by
        simp [segments, List.splitOn, List.splitOnP_cons_eq_if_modifyHead, hc]
      rw [hcons] at h
      cases hsegs : segments path with
      | nil => simp [hsegs] at h
      | cons first rest =>
        rw [hsegs, List.modifyHead_cons, List.mem_cons] at h
        obtain rfl | h := h
        · simpa [Ne.symm hc] using ih (hsegs ▸ List.mem_cons_self)
        · exact ih (hsegs ▸ List.mem_cons_of_mem _ h)

@[simp] theorem push_nil (parts : List Path) : push parts [] = parts := rfl

theorem push_skip (h : seg = [] ∨ seg = dot) (parts : List Path) : push parts seg = parts := if_pos h

theorem push_up (parts : List Path) : push parts dotdot = parts.dropLast := by simp [push, dot, dotdot]

theorem push_other (hskip : ¬ (seg = [] ∨ seg = dot)) (hup : seg ≠ dotdot) (parts : List Path) :
    push parts seg = parts ++ [seg] := by
  rw [push, if_neg hskip, if_neg hup]

theorem push_name (h : Name seg) (parts : List Path) : push parts seg = parts ++ [seg] :=
  push_other (by simp [h.nonempty, h.not_dot]) h.not_dotdot parts

theorem foldl_push_names {names : List Path} (h : ∀ seg ∈ names, Name seg) (parts : List Path) :
    names.foldl push parts = parts ++ names := by
  induction names generalizing parts with
  | nil => simp
  | cons seg names ih =>
    rw [List.foldl_cons, push_name (h seg List.mem_cons_self), ih fun seg' h' => h seg' (List.mem_cons_of_mem _ h')]
    simp

theorem names_foldl_push (hsegs : ∀ seg ∈ segs, '/' ∉ seg) (hparts : ∀ seg ∈ parts, Name seg) :
    ∀ seg ∈ segs.foldl push parts, Name seg := by
  induction segs generalizing parts with
  | nil => exact hparts
  | cons seg segs ih =>
    apply ih fun seg' h' => hsegs seg' (List.mem_cons_of_mem _ h')
    intro name hname
    unfold push at hname
    split_ifs at hname with hskip hup
    · exact hparts name hname
    · exact hparts name (List.mem_of_mem_dropLast hname)
    · rw [List.mem_append, List.mem_singleton] at hname
      obtain hname | rfl := hname
      · exact hparts name hname
      · exact ⟨fun h => hskip (.inl h), fun h => hskip (.inr h), hup, hsegs name List.mem_cons_self⟩

theorem names_stack : ∀ seg ∈ stack path, Name seg :=
  names_foldl_push (fun _ h => no_slash_of_mem_segments h) (by simp)

/-- the names can be read back from the text -/
theorem stack_render (h : ∀ seg ∈ parts, Name seg) : stack (render parts) = parts := by
  unfold render
  split_ifs with hparts
  · subst hparts
    rfl
  · have hsegs : segments (['/'].intercalate parts) = parts :=
      List.splitOn_intercalate '/' (fun seg hseg => (h seg hseg).no_slash) hparts
    rw [stack, segments_cons_slash, hsegs, List.foldl_cons, push_nil, foldl_push_names h, List.nil_append]

theorem render_inj {parts' : List Path} (h : ∀ seg ∈ parts, Name seg) (h' : ∀ seg ∈ parts', Name seg) :
    render parts = render parts' ↔ parts = parts' := by
  refine ⟨fun heq => ?_, fun heq => heq ▸ rfl⟩
  rw [← stack_render h, heq, stack_render h']

theorem normalizePath_idem : normalizePath (normalizePath path) = normalizePath path := by
  rw [normalizePath, normalizePath, stack_render (names_stack path)]

/-! ## Climbing -/

/-- how many names below `n` names the segments take off, beyond those they put there -/
def climbsFrom : ℕ → List Path → ℕ
  | _, [] => 0
  | n, seg :: segs =>
    if seg = [] ∨ seg = dot then climbsFrom n segs
    else if seg = dotdot then (if n = 0 then climbsFrom 0 segs + 1 else climbsFrom (n - 1) segs)
    else climbsFrom (n + 1) segs

/-- how far a path climbs above the directory it starts from -/
def climbs (path : Path) : ℕ := climbsFrom 0 (segments path)

/-- the loop of `normalize_path` from a stack: the names put there by the segments are those they would leave on an empty
stack, and below them the old names lose as many as the segments climb -/
theorem foldl_push (segs below above : List Path) :
    segs.foldl push (below ++ above) =
      below.take (below.length - climbsFrom above.length segs) ++ segs.foldl push above := by
  induction segs generalizing below above with
  | nil => simp [climbsFrom]
  | cons seg segs ih =>
    rw [List.foldl_cons, List.foldl_cons, climbsFrom]
    by_cases hskip : seg = [] ∨ seg = dot
    · rw [if_pos hskip, push_skip hskip, push_skip hskip]
      exact ih below above
    by_cases hup : seg = dotdot
    · subst hup
      rw [if_neg hskip, if_pos rfl, push_up, push_up]
      cases habove : above with
      | nil =>
        have hih := ih below.dropLast []
        rw [List.append_nil] at hih
        rw [List.append_nil, List.length_nil, if_pos rfl, List.dropLast_nil, hih, List.length_nil, List.length_dropLast,
          List.dropLast_eq_take, List.take_take, show below.length - 1 - climbsFrom 0 segs =
            below.length - (climbsFrom 0 segs + 1) by omega, Nat.min_eq_left (by omega)]
      | cons name names =>
        rw [List.dropLast_append_of_ne_nil (by simp), ih, List.length_dropLast, if_neg (by simp)]
    · rw [if_neg hskip, if_neg hup, push_other hskip hup, push_other hskip hup, List.append_assoc,
        ih below (above ++ [seg]), List.length_append, List.length_singleton]

/-- started from `below` or from nothing, a path leaves the same names iff it climbs above all of `below` -/
theorem foldl_push_eq_iff {below : List Path} :
    segs.foldl push below = segs.foldl push [] ↔ below.length ≤ climbsFrom 0 segs := by
  have hfold := foldl_push segs below []
  rw [List.append_nil, List.length_nil] at hfold
  rw [hfold, List.append_left_eq_self, List.take_eq_nil_iff]
  constructor
  · rintro (hlen | rfl)
    · omega
    · simp
  · intro hle
    exact .inl (by omega)

/-- the segments that name an entry, in order -/
def isName (seg : Path) : Bool := seg ≠ [] ∧ seg ≠ dot ∧ seg ≠ dotdot

theorem isName_of (hskip : ¬ (seg = [] ∨ seg = dot)) (hup : seg ≠ dotdot) : isName seg = true := by
  rw [not_or] at hskip
  simp [isName, hskip.1, hskip.2, hup]

/-- each `..` either climbs or takes off a name -/
theorem length_foldl_push (segs parts : List Path) :
    (segs.foldl push parts).length + segs.count dotdot =
      parts.length + (segs.filter isName).length + climbsFrom parts.length segs := by
  induction segs generalizing parts with
  | nil => simp [climbsFrom]
  | cons seg segs ih =>
    rw [List.foldl_cons, climbsFrom, List.count_cons, List.filter_cons]
    by_cases hskip : seg = [] ∨ seg = dot
    · have hname : isName seg = false := by
        rcases hskip with rfl | rfl <;> simp [isName]
      have hup : (seg == dotdot) = false := by
        rcases hskip with rfl | rfl <;> rfl
      rw [if_pos hskip, push_skip hskip, hname, hup]
      exact ih parts
    by_cases hup : seg = dotdot
    · subst hup
      have hih := ih parts.dropLast
      rw [List.length_dropLast] at hih
      rw [if_neg hskip, if_pos rfl, push_up]
      simp only [isName, beq_self_eq_true, if_true, ne_eq, not_true, and_false, decide_false, Bool.false_eq_true, if_false]
      generalize parts = r at hih ⊢
      cases r with
      | nil =>
        simp only [List.length_nil, List.dropLast_nil, Nat.zero_sub, if_true] at hih ⊢
        omega
      | cons name names =>
        simp only [List.length_cons, Nat.add_sub_cancel, Nat.add_eq_zero_iff, one_ne_zero, and_false, if_false] at hih ⊢
        omega
    · have hname : isName seg = true := isName_of hskip hup
      have hih := ih (parts ++ [seg])
      rw [List.length_append, List.length_singleton] at hih
      rw [if_neg hskip, if_neg hup, push_other hskip hup, hname, if_pos rfl, List.length_cons]
      simp only [beq_iff_eq, hup, if_false]
      omega

theorem foldl_push_sublist (segs parts : List Path) :
    List.Sublist (segs.foldl push parts) (parts ++ segs.filter isName) := by
  induction segs generalizing parts with
  | nil => simp
  | cons seg segs ih =>
    refine (ih (push parts seg)).trans ?_
    have hrest : List.Sublist (segs.filter isName) ((seg :: segs).filter isName) :=
      (List.sublist_cons_self seg segs).filter isName
    by_cases hskip : seg = [] ∨ seg = dot
    · rw [push_skip hskip]
      exact hrest.append_left parts
    by_cases hup : seg = dotdot
    · rw [hup, push_up, ← hup]
      exact (List.dropLast_sublist parts).append hrest
    · rw [push_other hskip hup, List.filter_cons_of_pos (isName_of hskip hup), List.append_assoc]
      exact List.Sublist.refl _

/-- the names left are all names of the path iff every `..` climbs -/
theorem filter_isName_eq_iff : segs.filter isName = segs.foldl push [] ↔ climbsFrom 0 segs = segs.count dotdot := by
  have hlength := length_foldl_push segs []
  rw [List.length_nil] at hlength
  refine ⟨fun heq => ?_, fun hclimb => ?_⟩
  · rw [heq] at hlength
    omega
  · have hsub := foldl_push_sublist segs []
    rw [List.nil_append] at hsub
    exact (hsub.eq_of_length (by omega)).symm

/-! ## Trimming -/

/-- `trim_end_matches('/')` -/
def trimEnd (path : Path) : Path := path.rdropWhile (· == '/')

/-- `trim_matches('/')` -/
def trim (path : Path) : Path := trimEnd (path.dropWhile (· == '/'))

/-- trimming takes off empty segments only -/
theorem filter_segments_trimEnd :
    (segments (trimEnd path)).filter (· ≠ []) = (segments path).filter (· ≠ []) :=
  Split.filter_splitOn_rdropWhile '/' path

theorem filter_segments_trim :
    (segments (trim path)).filter (· ≠ []) = (segments path).filter (· ≠ []) :=
  Split.filter_splitOn_trim '/' path

/-- the loop of `normalize_path` does not see empty segments -/
theorem foldl_push_filter (segs parts : List Path) : (segs.filter (· ≠ [])).foldl push parts = segs.foldl push parts := by
  induction segs generalizing parts with
  | nil => rfl
  | cons seg segs ih =>
    by_cases hseg : seg = []
    · subst hseg
      simpa using ih parts
    · rw [List.filter_cons_of_pos (by simpa using hseg), List.foldl_cons, List.foldl_cons, ih]

/-- a directory in front of a path: the segments of the path go on from the names of the directory -/
theorem stack_under (base path : Path) : stack (base ++ '/' :: path) = (segments path).foldl push (stack base) := by
  rw [stack, segments_append, List.foldl_append, stack]

theorem stack_trimEnd : stack (trimEnd path) = stack path := by
  rw [stack, ← foldl_push_filter, filter_segments_trimEnd, foldl_push_filter, stack]

theorem stack_trim : stack (trim path) = stack path := by
  rw [stack, ← foldl_push_filter, filter_segments_trim, foldl_push_filter, stack]

theorem normalizePath_trimEnd_under (base path : Path) :
    normalizePath (trimEnd base ++ '/' :: path) = normalizePath (base ++ '/' :: path) := by
  rw [normalizePath, stack_under, stack_trimEnd, ← stack_under, normalizePath]

/-! ## The calls -/

/-- `path.starts_with('/')` -/
def absolute (path : Path) : Bool := path.head? = some '/'

/-- what a path means in a directory -/
def meaning (base path : Path) : Path :=
  if absolute path then normalizePath path else normalizePath (base ++ '/' :: path)

/-- `resolve_path` in a process with current directory `cwd` -/
def resolvePath (cwd path : Path) : Path :=
  if absolute path then normalizePath path else normalizePath (trimEnd cwd ++ '/' :: path)

def atFdcwd : ℤ := -100

def atEmptyPath : ℕ := 0x1000

/-- the directory a descriptor was opened on; `dirfd as usize` is taken modulo 2^64 -/
def dirPathOf (t : FdTable) (dirfd : ℤ) : Option Path :=
  let idx := (dirfd % 2 ^ 64).toNat
  if processMaxFds ≤ idx then none else ((t.get idx).bind FileHandle.dirPath).map String.toList

/-- what a call looks up: a path, or the file of a descriptor; `error`: it fails before that -/
inductive Target where
  | path (p : Path)
  | descriptor (dirfd : ℤ)
  | error (errno : UInt64)
  deriving DecidableEq

variable (cwd path : Path)

def openFile : Target := .path (resolvePath cwd path)

def stat : Target := .path (resolvePath cwd path)

def chdir : Target := .path (resolvePath cwd path)

def openat (cwd : Path) (t : FdTable) (dirfd : ℤ) (path : Path) : Target :=
  if dirfd = atFdcwd then openFile cwd path
  else
    match dirPathOf t dirfd with
    | none => .error EBADF
    | some dirPath =>
      let fullPath := if absolute path then path else trimEnd dirPath ++ '/' :: path
      .path (normalizePath fullPath)

def newfstatat (cwd : Path) (t : FdTable) (dirfd : ℤ) (path : Path) (flags : ℕ) : Target :=
  if flags &&& atEmptyPath ≠ 0 then (if dirfd = atFdcwd then stat cwd path else .descriptor dirfd)
  else if dirfd = atFdcwd then stat cwd path
  else
    match dirPathOf t dirfd with
    | none => .error EBADF
    | some dirPath =>
      .path (if absolute path then normalizePath path else normalizePath (trimEnd dirPath ++ '/' :: path))

def faccessat (t : FdTable) (dirfd : ℤ) (path : Path) : Target :=
  if dirfd = atFdcwd ∨ absolute path then .path (normalizePath path)
  else
    match dirPathOf t dirfd with
    | none => .error EBADF
    | some dirPath => .path (normalizePath (trimEnd dirPath ++ '/' :: path))

/-- the loop of `file_metadata_in`: the names it goes down, from those in `walked`; it has an answer only where the last
part is a name -/
def metadataLoop : List Path → List Path → Option (List Path)
  | _, [] => none
  | walked, part :: parts =>
    if part = dotdot ∨ part = dot then metadataLoop walked parts
    else if parts = [] then some (walked ++ [part])
    else metadataLoop (walked ++ [part]) parts

/-- the names `file_metadata_in` goes down for a path -/
def metadataWalk (path : Path) : Option (List Path) :=
  let normalized := trim path
  if normalized = [] ∨ normalized = dot then some []
  else metadataLoop [] ((segments normalized).filter (· ≠ []))

def access (path : Path) : Target :=
  match metadataWalk path with
  | some names => .path (render names)
  | none => .error ENOENT

inductive Call where
  | openFile | openat | stat | newfstatat | faccessat | access | chdir
  deriving DecidableEq

/-- the calls without a directory argument are about the current directory -/
def Call.Takes (dirfd : ℤ) : Call → Prop
  | .openat | .newfstatat | .faccessat => True
  | _ => dirfd = atFdcwd

def Call.resolve (cwd : Path) (t : FdTable) (dirfd : ℤ) (path : Path) : Call → Target
  | .openFile => Paths.openFile cwd path
  | .openat => Paths.openat cwd t dirfd path
  | .stat => Paths.stat cwd path
  | .newfstatat => Paths.newfstatat cwd t dirfd path 0
  | .faccessat => Paths.faccessat t dirfd path
  | .access => Paths.access path
  | .chdir => Paths.chdir cwd path

/-- the directory that `dirfd` stands for -/
def baseDir (cwd : Path) (t : FdTable) (dirfd : ℤ) : Option Path :=
  if dirfd = atFdcwd then some cwd else dirPathOf t dirfd

/-- `access` can follow the path: it is the root, or it ends in a name and each of its `..` climbs above the start -/
def Plain (path : Path) : Prop :=
  trim path = [] ∨ trim path = dot ∨
    (∃ part, ((segments path).filter (· ≠ [])).getLast? = some part ∧ part ≠ dot ∧ part ≠ dotdot) ∧
      climbs path = (segments path).count dotdot

/-- relative paths climb above the whole current directory, and `access` can follow the path -/
def Settled (cwd path : Path) : Prop := (absolute path = true ∨ (stack cwd).length ≤ climbs path) ∧ Plain path

theorem resolvePath_eq (cwd path : Path) : resolvePath cwd path = meaning cwd path := by
  rw [resolvePath, meaning, normalizePath_trimEnd_under]

/-! ## Where the calls agree -/

/-- the loop of `file_metadata_in` has an answer iff the last part is a name, and then went down all names -/
theorem metadataLoop_eq_some {walked names : List Path} :
    metadataLoop walked parts = some names ↔
      (∃ part, parts.getLast? = some part ∧ part ≠ dot ∧ part ≠ dotdot) ∧
        walked ++ parts.filter (fun part => part ≠ dot ∧ part ≠ dotdot) = names := by
  induction parts generalizing walked with
  | nil => simp [metadataLoop]
  | cons part parts ih =>
    rw [metadataLoop]
    by_cases hdots : part = dotdot ∨ part = dot
    · rw [if_pos hdots, ih, List.filter_cons_of_neg (by simpa using fun h => hdots.resolve_right h)]
      apply and_congr_left
      intro _
      cases parts with
      | nil =>
        simp only [List.getLast?_nil, List.getLast?_singleton, Option.some.injEq]
        constructor
        · rintro ⟨part', hnone, -⟩
          simp at hnone
        · rintro ⟨part', rfl, hdot, hdotdot⟩
          exact absurd hdots (by simp [hdot, hdotdot])
      | cons next rest => rw [List.getLast?_cons_cons]
    · have hname : part ≠ dot ∧ part ≠ dotdot := ⟨fun h => hdots (.inr h), fun h => hdots (.inl h)⟩
      rw [if_neg hdots, List.filter_cons_of_pos (by simpa using hname)]
      cases parts with
      | nil => simp [hname]
      | cons next rest =>
        rw [if_neg (by simp), ih, List.getLast?_cons_cons]
        simp

theorem filter_entries (segs : List Path) :
    (segs.filter (· ≠ [])).filter (fun part => part ≠ dot ∧ part ≠ dotdot) = segs.filter isName := by
  rw [List.filter_filter]
  apply List.filter_congr
  intro seg _
  simp [isName, and_comm]

theorem names_filter_segments : ∀ seg ∈ (segments path).filter isName, Name seg := by
  intro seg hseg
  obtain ⟨hmem, hname⟩ := List.mem_filter.1 hseg
  obtain ⟨hnonempty, hdot, hdotdot⟩ : seg ≠ [] ∧ seg ≠ dot ∧ seg ≠ dotdot := by simpa [isName] using hname
  exact ⟨hnonempty, hdot, hdotdot, no_slash_of_mem_segments hmem⟩

/-- `access` looks up the normal form of the path, read from the root, iff it can follow it -/
theorem access_iff : access path = .path (normalizePath path) ↔ Plain path := by
  unfold access metadataWalk Plain
  by_cases hroot : trim path = [] ∨ trim path = dot
  · have hstack : stack path = [] := by
      rw [← stack_trim]
      rcases hroot with h | h <;> rw [h] <;> rfl
    simp only [if_pos hroot, normalizePath, hstack, true_iff]
    exact hroot.imp_right .inl
  · rw [not_or] at hroot
    simp only [hroot.1, hroot.2, or_self, if_false, false_or, filter_segments_trim]
    constructor
    · intro h
      cases hloop : metadataLoop [] ((segments path).filter (· ≠ [])) with
      | none =>
        rw [hloop] at h
        exact absurd h (by simp)
      | some names =>
        rw [hloop] at h
        obtain ⟨hlast, hnames⟩ := metadataLoop_eq_some.1 hloop
        rw [List.nil_append, filter_entries] at hnames
        subst hnames
        have hrender := Target.path.inj h
        rw [normalizePath, render_inj (names_filter_segments path) (names_stack path)] at hrender
        exact ⟨hlast, filter_isName_eq_iff.1 hrender⟩
    · rintro ⟨hlast, hclimb⟩
      have hnames : (segments path).filter isName = stack path := filter_isName_eq_iff.2 hclimb
      rw [metadataLoop_eq_some.2 ⟨hlast, rfl⟩, List.nil_append, filter_entries, hnames, normalizePath]

/-- forgetting the current directory changes nothing iff the path is absolute or climbs above it -/
theorem normalizePath_eq_meaning_iff (cwd path : Path) :
    normalizePath path = meaning cwd path ↔ (absolute path = true ∨ (stack cwd).length ≤ climbs path) := by
  unfold meaning
  cases habs : absolute path with
  | true => simp
  | false =>
    simp only [Bool.false_eq_true, if_false, false_or]
    rw [normalizePath, normalizePath, render_inj (names_stack _) (names_stack _), stack_under, eq_comm]
    exact foldl_push_eq_iff

/-- **One meaning.** For the current directory or a directory descriptor, and every path, all calls that take it look up
the one meaning of the path there, except that in the current directory the path has to be one that `faccessat` and
`access` do not get wrong. -/
theorem resolve_iff (cwd : Path) (t : FdTable) (dirfd : ℤ) (path base : Path) (hbase : baseDir cwd t dirfd = some base) :
    (∀ call : Call, call.Takes dirfd → call.resolve cwd t dirfd path = .path (meaning base path)) ↔
      (dirfd = atFdcwd → Settled cwd path) := by
  unfold baseDir at hbase
  by_cases hcwd : dirfd = atFdcwd
  · rw [if_pos hcwd] at hbase
    cases hbase
    have hfaccessat : faccessat t dirfd path = .path (normalizePath path) := if_pos (.inl hcwd)
    constructor
    · intro h _
      have hsame : normalizePath path = meaning cwd path := by
        have hf := h .faccessat trivial
        rw [Call.resolve, hfaccessat] at hf
        exact Target.path.inj hf
      have haccess := h .access hcwd
      rw [Call.resolve, ← hsame] at haccess
      exact ⟨(normalizePath_eq_meaning_iff cwd path).1 hsame, (access_iff path).1 haccess⟩
    · intro h call _
      obtain ⟨hclimb, hplain⟩ := h hcwd
      have hsame := (normalizePath_eq_meaning_iff cwd path).2 hclimb
      cases call with
      | openFile | stat | chdir => exact congrArg Target.path (resolvePath_eq cwd path)
      | openat => simp only [Call.resolve, openat, if_pos hcwd, openFile, resolvePath_eq]
      | newfstatat => simp [Call.resolve, newfstatat, hcwd, stat, resolvePath_eq]
      | faccessat => rw [Call.resolve, hfaccessat, hsame]
      | access => rw [Call.resolve, (access_iff path).2 hplain, hsame]
  · rw [if_neg hcwd] at hbase
    refine iff_of_true (fun call htakes => ?_) fun h => absurd h hcwd
    cases call with
    | openFile | stat | chdir | access => exact absurd htakes hcwd
    | openat =>
      simp only [Call.resolve, openat, if_neg hcwd, hbase, meaning]
      split_ifs
      · rfl
      · rw [normalizePath_trimEnd_under]
    | newfstatat => simp [Call.resolve, newfstatat, hcwd, hbase, meaning, normalizePath_trimEnd_under]
    | faccessat =>
      simp only [Call.resolve, faccessat, hcwd, hbase, meaning, false_or, normalizePath_trimEnd_under]
      split_ifs <;> rfl

/-- a table with a directory opened on descriptor 3 -/
def tableWithDir : FdTable :=
  FdTable.new.set 3 (some (FileHandle.newLocal [] 0 (some "/usr/lib/") 0)) 0

theorem resolve_in_directory :
    baseDir "/home".toList tableWithDir 3 = some "/usr/lib/".toList ∧
      ∀ call : Call, call.Takes 3 →
        call.resolve "/home".toList tableWithDir 3 "../x//y".toList = .path (meaning "/usr/lib/".toList "../x//y".toList) :=
  ⟨by decide +kernel,
    (resolve_iff _ tableWithDir 3 "../x//y".toList "/usr/lib/".toList (by decide +kernel)).2 fun h => absurd h (by decide)⟩

/-- in `/home` the path `notes` is `/home/notes` for `open`, `stat` and `chdir`, and `/notes` for `faccessat` and `access`;
and `access` reads `/a/../b` as `/a/b` -/
theorem access_from_subdirectory :
    openFile "/home".toList "notes".toList = .path "/home/notes".toList ∧
      faccessat FdTable.new atFdcwd "notes".toList = .path "/notes".toList ∧
      access "notes".toList = .path "/notes".toList ∧
      openFile "/home".toList "/a/../b".toList = .path "/b".toList ∧
      access "/a/../b".toList = .path "/a/b".toList ∧ access "/a/.".toList = .error ENOENT := by
  decide +kernel

end SwiftCore.Syscall.Paths
