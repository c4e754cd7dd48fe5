/-
The arguments of a program on their way into the kernel (user/process.rs: exec_with_args,
exec_from_buffer_named_with_args, exec_via_fs_stream; core/syscall/exec.rs: read_nul_args_from_user).

The library writes the arguments one after the other into a buffer of 512 bytes, each with a NUL behind it and one more
NUL at the end. The kernel copies 512 bytes, cuts them behind the first two NULs in a row, splits at NULs, skips empty
pieces and stops at 64 arguments.

- `packArgs_fits`, `packArgs_stop`: what the library writes, and where `exec_with_args` stops without an error.
- `truncateArgs_packed`: the cut finds the end of the list if no argument is empty.
- `handed_spec`: what the kernel makes of the buffer has no empty argument, and at most 64.
- `lossless_iff`: the list arrives iff it fits, has at most 64 arguments, and none is empty; a list that does not fit is
  an error except in `exec_with_args`.
- `lists_not_delivered`: lists that arrive changed, with success reported.
-/
import SwiftCore.Lib.Bytes
import SwiftCore.Lib.Split

namespace SwiftCore.User.ExecArgs

open Bytes Split

/-! ## The library -/

def bytes (s : String) : List UInt8 := s.toByteArray.data.toList

/-- `core::str::from_utf8` -/
def fromUtf8 (bs : List UInt8) : Option String := String.fromUTF8? ⟨bs.toArray⟩

def argsBufLen : ℕ := 512

/-- what the loop over the arguments does with one that does not fit -/
inductive Full where
  | stop | fail
  deriving DecidableEq

def Full.result (w : List UInt8) : Full → Option (List UInt8)
  | .stop => some w
  | .fail => none

/-- the loop over the arguments; `w` is what is written so far -/
def packArgs (full : Full) : List String → List UInt8 → Option (List UInt8)
  | [], w => some w
  | arg :: args, w =>
    if argsBufLen < w.length + (bytes arg).length + 2 then full.result w
    else packArgs full args (w ++ bytes arg ++ [0])

/-- the buffer, zeros behind what is written -/
def argsBuf (w : List UInt8) : List UInt8 := w ++ List.replicate (argsBufLen - w.length) 0

/-! ## The kernel -/

/-- `windows(2).position(|w| w == [0, 0])` -/
def doubleNul : List UInt8 → Option ℕ
  | a :: b :: rest => if a = 0 ∧ b = 0 then some 0 else (doubleNul (b :: rest)).map (· + 1)
  | _ => none

def truncateArgs (storage : List UInt8) : List UInt8 :=
  match doubleNul storage with
  | some i => storage.take (i + 2)
  | none => storage

/-- the loop over the pieces; `none` is `EINVAL` -/
def collectArgs (maxArgs : ℕ) : List (List UInt8) → List String → Option (List String)
  | [], out => some out
  | s :: rest, out =>
    if s = [] then collectArgs maxArgs rest out
    else
      match fromUtf8 s with
      | none => none
      | some text =>
        if maxArgs ≤ (out ++ [text]).length then some (out ++ [text]) else collectArgs maxArgs rest (out ++ [text])

/-- `copy` is the answer of `copy_from_user` for so many bytes at the pointer -/
def readNulArgsFromUser (copy : ℕ → ℕ → Option (List UInt8)) (argsPtr maxTotalBytes maxArgs : ℕ) : Option (List String) :=
  if argsPtr = 0 then some []
  else (copy argsPtr maxTotalBytes).bind fun storage => collectArgs maxArgs ((truncateArgs storage).splitOn 0) []

/-- the process that calls, and what the rest of the system call does -/
structure Caller where
  mem : Memory
  /-- where the buffer lies -/
  addr : ℕ
  addr_pos : 0 < addr
  /-- the 512 bytes there can be read -/
  readable : Bool
  /-- the checks before the arguments are read succeed -/
  admitted : Bool
  /-- the result of `exec_with_data` and of what comes before it, for the arguments that it is handed -/
  finish : List String → Int

/-- the arguments handed to `exec_with_data`, and the value that the library returns on success -/
structure Outcome where
  handed : Option (List String)
  reported : Option Int
  deriving DecidableEq

def Outcome.failed : Outcome := ⟨none, none⟩

variable (c : Caller)

/-- the system call with the buffer `w` or a null pointer, and the check of its result -/
def syscall (w : Option (List UInt8)) : Outcome :=
  let mem := match w with
    | none => c.mem
    | some w => store c.mem c.addr (argsBuf w)
  let argsPtr := if w.isSome then c.addr else 0
  if c.admitted then
    match readNulArgsFromUser (fun a n => if c.readable then some (load mem a n) else none) argsPtr argsBufLen 64 with
    | none => .failed
    | some args => ⟨some args, if c.finish args < 0 then none else some (c.finish args)⟩
  else .failed

/-- the body that the functions of the library share -/
def request (full : Full) (c : Caller) (args : List String) : Outcome :=
  match packArgs full args [] with
  | none => .failed
  | some w => syscall c (if args = [] then none else some w)

def execWithArgs (path : String) (args : List String) : Outcome :=
  if 255 ≤ (bytes path).length then .failed else request .stop c args

def execFromBufferNamedWithArgs (path : String) (args : List String) : Outcome :=
  if bytes path = [] ∨ 255 ≤ (bytes path).length then .failed else request .fail c args

def execViaFsStream (path : String) (args : List String) : Outcome :=
  if bytes path = [] ∨ 255 ≤ (bytes path).length then .failed else request .fail c args

/-- when success is reported, the list has arrived -/
def Lossless (f : Caller → String → List String → Outcome) (path : String) (args : List String) : Prop :=
  ∀ c r, (f c path args).reported = some r → (f c path args).handed = some args

/-- the arguments with their NULs -/
def packed (args : List String) : List UInt8 := args.flatMap fun a => bytes a ++ [0]

/-- the list and its NULs fit into the buffer -/
def Fits (args : List String) : Prop := (packed args).length + 1 ≤ argsBufLen
  deriving Decidable

/-- the kernel gives the list back -/
def Plain (args : List String) : Prop := (∀ a ∈ args, a ≠ "") ∧ args.length ≤ 64
  deriving Decidable

/-! ## Strings and pieces -/

theorem fromUtf8_bytes (s : String) : fromUtf8 (bytes s) = some s := by
  have hbytes : (⟨(bytes s).toArray⟩ : ByteArray) = s.toByteArray := by rw [bytes, Array.toArray_toList]
  rw [fromUtf8, hbytes, String.fromUTF8?, dif_pos s.isValidUTF8]
  rfl

theorem bytes_injective : Function.Injective bytes := by
  intro s t h
  have hs := fromUtf8_bytes s
  rw [h, fromUtf8_bytes] at hs
  exact (Option.some.inj hs).symm

theorem bytes_eq_nil {s : String} : bytes s = [] ↔ s = "" := by
  constructor
  · exact fun h => bytes_injective (h.trans (by decide +kernel))
  · rintro rfl
    decide +kernel

/-- the pieces of what the library writes are the arguments -/
theorem splitOn_packed (bs : List (List UInt8)) (hnul : ∀ b ∈ bs, 0 ∉ b) (rest : List UInt8) :
    (bs.flatMap (· ++ [0]) ++ rest).splitOn 0 = bs ++ rest.splitOn 0 := by
  induction bs with
  | nil => rfl
  | cons b bs ih =>
    have hb : b.splitOn 0 = [b] := by
      rw [List.splitOn, List.splitOnP_eq_singleton]
      intro x hx
      simpa using fun h0 : x = 0 => hnul b List.mem_cons_self (h0 ▸ hx)
    rw [List.flatMap_cons, List.append_assoc, List.append_assoc]
    show (b ++ 0 :: (bs.flatMap (· ++ [0]) ++ rest)).splitOn 0 = _
    rw [splitOn_append, hb, ih fun b' hb' => hnul b' (List.mem_cons_of_mem _ hb')]
    rfl

theorem splitOn_zeros (n : ℕ) : (List.replicate n (0 : UInt8)).splitOn 0 = List.replicate (n + 1) [] := by
  induction n with
  | zero => rfl
  | succ n ih => rw [List.replicate_succ, splitOn_cons_sep, ih, ← List.replicate_succ]

theorem truncateArgs_cons (a b : UInt8) (rest : List UInt8) :
    truncateArgs (a :: b :: rest) = if a = 0 ∧ b = 0 then [0, 0] else a :: truncateArgs (b :: rest) := by
  rw [truncateArgs, doubleNul]
  split_ifs with hzero
  · rw [hzero.1, hzero.2]
    rfl
  · rw [truncateArgs]
    cases doubleNul (b :: rest) <;> rfl

theorem truncateArgs_append {b : List UInt8} (hb : 0 ∉ b) (l : List UInt8) : truncateArgs (b ++ l) = b ++ truncateArgs l := by
  induction b with
  | nil => rfl
  | cons a b ih =>
    have ha : a ≠ 0 := fun h => hb (h ▸ List.mem_cons_self)
    have ih := ih fun h => hb (List.mem_cons_of_mem _ h)
    rw [List.cons_append, List.cons_append, ← ih]
    cases b ++ l with
    | nil => rfl
    | cons c rest => rw [truncateArgs_cons, if_neg fun h => ha h.1]

/-- the cut falls at the end of the list if no argument is empty -/
theorem truncateArgs_packed {bs : List (List UInt8)} (hbs : bs ≠ []) (hnul : ∀ b ∈ bs, 0 ∉ b) (hne : ∀ b ∈ bs, b ≠ [])
    (rest : List UInt8) : truncateArgs (bs.flatMap (· ++ [0]) ++ 0 :: rest) = bs.flatMap (· ++ [0]) ++ [0] := by
  induction bs with
  | nil => exact absurd rfl hbs
  | cons b bs ih =>
    rw [List.flatMap_cons, List.append_assoc, List.append_assoc, List.append_assoc, List.append_assoc,
      truncateArgs_append (hnul b List.mem_cons_self)]
    congr 1
    cases bs with
    | nil => exact (truncateArgs_cons 0 0 rest).trans (if_pos ⟨rfl, rfl⟩)
    | cons c bs =>
      have ih := ih (List.cons_ne_nil c bs) (fun b' hb' => hnul b' (List.mem_cons_of_mem _ hb'))
        fun b' hb' => hne b' (List.mem_cons_of_mem _ hb')
      -- the next argument begins with a byte that is not 0
      obtain ⟨x, c', rfl⟩ := List.exists_cons_of_ne_nil (hne c (List.mem_cons_of_mem _ List.mem_cons_self))
      have hx : x ≠ 0 := fun h =>
        hnul (x :: c') (List.mem_cons_of_mem _ List.mem_cons_self) (h ▸ List.mem_cons_self)
      rw [← ih]
      exact (truncateArgs_cons 0 x _).trans (if_neg fun h => hx h.2)

/-- the cut falls behind a NUL -/
theorem truncateArgs_cases (l : List UInt8) :
    truncateArgs l = l ∨ ∃ l₁ l₂, l = l₁ ++ 0 :: l₂ ∧ truncateArgs l = l₁ ++ [0] := by
  induction l with
  | nil => exact .inl rfl
  | cons a l ih =>
    cases l with
    | nil => exact .inl rfl
    | cons b rest =>
      rw [truncateArgs_cons]
      split_ifs with hzero
      · exact .inr ⟨[0], rest, by rw [hzero.1, hzero.2]; rfl, rfl⟩
      · rcases ih with ih | ⟨l₁, l₂, hl, ih⟩
        · exact .inl (by rw [ih])
        · exact .inr ⟨a :: l₁, l₂, by rw [hl]; rfl, by rw [ih]; rfl⟩

theorem mem_splitOn_truncateArgs {l p : List UInt8} (h : p ∈ (truncateArgs l).splitOn 0) : p = [] ∨ p ∈ l.splitOn 0 := by
  rcases truncateArgs_cases l with hl | ⟨l₁, l₂, hl, htrunc⟩
  · rw [hl] at h
    exact .inr h
  · rw [htrunc, splitOn_append, List.mem_append] at h
    rcases h with h | h
    · rw [hl, splitOn_append]
      exact .inr (List.mem_append_left _ h)
    · exact .inl (List.mem_singleton.1 h)

/-! ## What the kernel collects -/

theorem collectArgs_spec {maxArgs : ℕ} {pieces : List (List UInt8)} {strs out : List String}
    (hpieces : pieces.filter (· ≠ []) = strs.map bytes) (hout : out.length < maxArgs) :
    collectArgs maxArgs pieces out = some (out ++ strs.take (maxArgs - out.length)) := by
  induction pieces generalizing strs out with
  | nil =>
    obtain rfl : strs = [] := by simpa using hpieces.symm
    simp [collectArgs]
  | cons p pieces ih =>
    rw [collectArgs]
    split_ifs with hp
    · exact ih (by simpa [hp] using hpieces) hout
    · rw [List.filter_cons_of_pos (by simpa using hp)] at hpieces
      cases strs with
      | nil => cases hpieces
      | cons s strs =>
        obtain ⟨rfl, hrest⟩ := List.cons_eq_cons.1 hpieces
        rw [fromUtf8_bytes]
        simp only [List.length_append, List.length_singleton]
        have htake : (s :: strs).take (maxArgs - out.length) = s :: strs.take (maxArgs - (out ++ [s]).length) := by
          rw [List.length_append, List.length_singleton, ← Nat.sub_sub]
          obtain ⟨k, hk⟩ : ∃ k, maxArgs - out.length = k + 1 := ⟨maxArgs - out.length - 1, by omega⟩
          rw [hk, List.take_succ_cons, Nat.add_sub_cancel]
        split_ifs with hfull
        · have hzero : maxArgs - (out ++ [s]).length = 0 := by
            rw [List.length_append, List.length_singleton]
            omega
          rw [htake, hzero, List.take_zero]
        · rw [ih hrest (by rw [List.length_append, List.length_singleton]; omega), htake, List.append_assoc]
          rfl

/-! ## What the library writes -/

theorem packed_eq (args : List String) : packed args = (args.map bytes).flatMap (· ++ [0]) := by
  rw [packed, List.flatMap_map]

/-- a list that fits is written as a whole -/
theorem packArgs_fits (full : Full) (args : List String) (w : List UInt8)
    (h : w.length + (packed args).length + 1 ≤ argsBufLen) : packArgs full args w = some (w ++ packed args) := by
  induction args generalizing w with
  | nil => simp [packArgs, packed]
  | cons a args ih =>
    have hcons : packed (a :: args) = bytes a ++ [0] ++ packed args := rfl
    simp only [hcons, List.length_append, List.length_singleton] at h
    rw [packArgs, if_neg (by omega), ih (w ++ bytes a ++ [0]), hcons, ← List.append_assoc, ← List.append_assoc]
    simp only [List.length_append, List.length_singleton]
    omega

/-- a list that does not fit is refused, or cut short -/
theorem packArgs_full (args : List String) (w : List UInt8) (h : argsBufLen < w.length + (packed args).length + 1)
    (hw : w.length + 1 ≤ argsBufLen) :
    packArgs .fail args w = none ∧ ∃ n < args.length, packArgs .stop args w = some (w ++ packed (args.take n)) ∧
      w.length + (packed (args.take n)).length + 1 ≤ argsBufLen := by
  induction args generalizing w with
  | nil =>
    simp only [packed, List.flatMap_nil, List.length_nil] at h
    omega
  | cons a args ih =>
    have hcons : packed (a :: args) = bytes a ++ [0] ++ packed args := rfl
    simp only [hcons, List.length_append, List.length_singleton] at h
    simp only [packArgs]
    split_ifs with hfull
    · exact ⟨rfl, 0, Nat.succ_pos _, by simp [packed, Full.result], by simpa [packed] using hw⟩
    · have hlen : (w ++ bytes a ++ [0]).length = w.length + (bytes a).length + 1 := by
        simp only [List.length_append, List.length_singleton]
      obtain ⟨hfail, n, hn, hstop, hfits⟩ := ih (w ++ bytes a ++ [0]) (by omega) (by omega)
      refine ⟨hfail, n + 1, Nat.succ_lt_succ hn, ?_, ?_⟩
      · rw [hstop, List.take_succ_cons]
        simp [packed]
      · rw [List.take_succ_cons]
        show w.length + (bytes a ++ [0] ++ packed (args.take n)).length + 1 ≤ argsBufLen
        simp only [List.length_append, List.length_singleton]
        omega

/-! ## The whole way -/

/-- the bytes of the buffer as the kernel sees them: the list, a NUL, and more of them -/
theorem argsBuf_packed {args : List String} (h : (packed args).length + 1 ≤ argsBufLen) :
    argsBuf (packed args) = packed args ++ 0 :: List.replicate (argsBufLen - ((packed args).length + 1)) 0 := by
  obtain ⟨k, hk⟩ : ∃ k, argsBufLen - (packed args).length = k + 1 := ⟨argsBufLen - (packed args).length - 1, by omega⟩
  rw [argsBuf, hk, List.replicate_succ, ← Nat.sub_sub, hk, Nat.add_sub_cancel]

theorem length_argsBuf {args : List String} (h : (packed args).length + 1 ≤ argsBufLen) :
    (argsBuf (packed args)).length = argsBufLen := by
  rw [argsBuf, List.length_append, List.length_replicate]
  omega

variable {args : List String}

/-- **Decoding.** From a list in the buffer the kernel takes at most 64 strings, none of them empty; and the first 64 of
the list if it has no empty ones. -/
theorem collect_packed (hnul : ∀ a ∈ args, 0 ∉ bytes a) (hfits : (packed args).length + 1 ≤ argsBufLen) :
    ∃ got, collectArgs 64 ((truncateArgs (argsBuf (packed args))).splitOn 0) [] = some got ∧ got.length ≤ 64 ∧
      (∀ a ∈ got, a ≠ "") ∧ ((∀ a ∈ args, a ≠ "") → got = args.take 64) := by
  have hnul' : ∀ b ∈ args.map bytes, 0 ∉ b := by simpa using hnul
  set pieces := (truncateArgs (argsBuf (packed args))).splitOn 0 with hpieces
  -- every piece is an argument or empty
  have hmem : ∀ p ∈ pieces.filter (· ≠ []), p ∈ args.map bytes := by
    intro p hp
    obtain ⟨hp, hne⟩ := List.mem_filter.1 hp
    have hne : p ≠ [] := by simpa using hne
    have hbuf := (mem_splitOn_truncateArgs hp).resolve_left hne
    rw [argsBuf, packed_eq, splitOn_packed _ hnul', splitOn_zeros, List.mem_append] at hbuf
    exact hbuf.resolve_right fun h => hne (List.eq_of_mem_replicate h)
  obtain ⟨strs, hstrs⟩ : ∃ strs : List String, strs.map bytes = pieces.filter (· ≠ []) := by
    have hrange : pieces.filter (· ≠ []) ∈ Set.range (List.map bytes) := by
      rw [Set.range_list_map]
      intro p hp
      obtain ⟨a, -, ha⟩ := List.mem_map.1 (hmem p hp)
      exact ⟨a, ha⟩
    exact hrange
  have hcollect : collectArgs 64 pieces [] = some (strs.take 64) := collectArgs_spec hstrs.symm (by decide)
  refine ⟨strs.take 64, hcollect, List.length_take_le 64 strs, fun a ha hempty => ?_, fun hne => ?_⟩
  · have hfilter : bytes a ∈ pieces.filter (· ≠ []) := hstrs ▸ List.mem_map_of_mem (List.mem_of_mem_take ha)
    have hbytes := (List.mem_filter.1 hfilter).2
    rw [hempty, bytes_eq_nil.2 rfl] at hbytes
    exact absurd hbytes (by simp)
  · suffices hall : pieces.filter (· ≠ []) = args.map bytes by
      rw [List.map_injective_iff.2 bytes_injective (hstrs.trans hall)]
    cases args with
    | nil => exact List.eq_nil_iff_forall_not_mem.2 fun p hp => nomatch hmem p hp
    | cons a args =>
      have hne' : ∀ b ∈ (a :: args).map bytes, b ≠ [] := by
        intro b hb
        obtain ⟨c, hc, rfl⟩ := List.mem_map.1 hb
        exact fun h => hne c hc (bytes_eq_nil.1 h)
      have hbs : (a :: args).map bytes ≠ [] := by simp
      have htrunc := truncateArgs_packed hbs hnul' hne'
        (List.replicate (argsBufLen - ((packed (a :: args)).length + 1)) 0)
      rw [← packed_eq, ← argsBuf_packed hfits] at htrunc
      rw [hpieces, htrunc, packed_eq, splitOn_packed _ hnul', List.filter_append,
        List.filter_eq_self.2 fun b hb => by simpa using hne' b hb]
      exact List.append_nil _

/-- what the system call is handed, if it gets so far -/
theorem syscall_packed (hfits : (packed args).length + 1 ≤ argsBufLen) :
    syscall c (some (packed args)) =
      if c.admitted = true ∧ c.readable = true then
        match collectArgs 64 ((truncateArgs (argsBuf (packed args))).splitOn 0) [] with
        | none => .failed
        | some got => ⟨some got, if c.finish got < 0 then none else some (c.finish got)⟩
      else .failed := by
  have hload : load (store c.mem c.addr (argsBuf (packed args))) c.addr argsBufLen = argsBuf (packed args) := by
    have h := load_store c.mem c.addr (argsBuf (packed args))
    rwa [length_argsBuf hfits] at h
  have hptr : c.addr ≠ 0 := Nat.pos_iff_ne_zero.1 c.addr_pos
  simp only [syscall, Option.isSome_some, if_true, readNulArgsFromUser, if_neg hptr]
  rw [hload]
  split_ifs <;> first | rfl | simp_all

theorem syscall_null :
    syscall c none =
      if c.admitted then ⟨some [], if c.finish [] < 0 then none else some (c.finish [])⟩ else .failed := rfl

/-- a caller whose calls succeed -/
def obliging : Caller := ⟨fun _ => 0, 4096, by decide, true, true, fun _ => 7⟩

/-- a request whose list is in the buffer is lossless iff the kernel reads it back -/
theorem lossless_packed {sent : List String} (hnul : ∀ a ∈ sent, 0 ∉ bytes a)
    (hfits : (packed sent).length + 1 ≤ argsBufLen) :
    (∀ c r, (syscall c (some (packed sent))).reported = some r → (syscall c (some (packed sent))).handed = some args) ↔
      ∃ got, collectArgs 64 ((truncateArgs (argsBuf (packed sent))).splitOn 0) [] = some got ∧ got = args := by
  obtain ⟨got, hgot, -⟩ := collect_packed hnul hfits
  constructor
  · intro h
    refine ⟨got, hgot, ?_⟩
    have hdone : syscall obliging (some (packed sent)) = ⟨some got, some 7⟩ := by
      rw [syscall_packed obliging hfits, hgot]
      rfl
    have hhanded := h obliging 7 (by rw [hdone])
    rw [hdone] at hhanded
    exact Option.some.inj hhanded
  · rintro ⟨got', hgot', rfl⟩ c r hr
    rw [syscall_packed c hfits, hgot'] at hr ⊢
    split_ifs at hr ⊢
    · rfl
    · cases hr

/-- **Requests.** A request is lossless iff its list fits, or is refused because it does not, and the kernel reads back
such a list. -/
theorem lossless_request (full : Full) (hnul : ∀ a ∈ args, 0 ∉ bytes a) :
    (∀ c r, (request full c args).reported = some r → (request full c args).handed = some args) ↔
      (full = .stop → Fits args) ∧ (Fits args → Plain args) := by
  by_cases hargs : args = []
  · subst hargs
    have hrequest : ∀ c, request full c [] = syscall c none := fun _ => rfl
    refine ⟨fun _ => ⟨fun _ => Nat.le_of_ble_eq_true rfl, fun _ => ⟨nofun, Nat.zero_le 64⟩⟩, fun _ c r hr => ?_⟩
    rw [hrequest, syscall_null] at hr ⊢
    split_ifs at hr ⊢
    · rfl
    · cases hr
  by_cases hfits : Fits args
  · have hrequest : ∀ c, request full c args = syscall c (some (packed args)) := by
      intro c
      rw [request, packArgs_fits full args [] (by rwa [List.length_nil, Nat.zero_add])]
      simp [if_neg hargs]
    simp only [hrequest]
    obtain ⟨got, hgot, hlen, hne, htake⟩ := collect_packed hnul hfits
    refine (lossless_packed hnul hfits).trans ⟨?_, fun h => ⟨got, hgot, ?_⟩⟩
    · rintro ⟨got', hgot', rfl⟩
      cases hgot.symm.trans hgot'
      exact ⟨fun _ => hfits, fun _ => ⟨hne, hlen⟩⟩
    · obtain ⟨hplain, hcount⟩ := h.2 hfits
      rw [htake hplain, List.take_of_length_le hcount]
  · have hover : argsBufLen < ([] : List UInt8).length + (packed args).length + 1 := by
      simpa [Fits, packed] using hfits
    obtain ⟨hfail, n, hn, hstop, hfits'⟩ := packArgs_full args [] hover (by decide)
    cases full with
    | fail =>
      refine ⟨fun _ => ⟨nofun, fun h => absurd h hfits⟩, fun _ c r hr => ?_⟩
      rw [request, hfail] at hr
      cases hr
    | stop =>
      refine ⟨fun h => ?_, fun h => absurd (h.1 rfl) hfits⟩
      have hrequest : ∀ c, request .stop c args = syscall c (some (packed (args.take n))) := by
        intro c
        rw [request, hstop]
        simp [if_neg hargs]
      simp only [hrequest] at h
      have hnul' : ∀ a ∈ args.take n, 0 ∉ bytes a := fun a ha => hnul a (List.mem_of_mem_take ha)
      have hfits' : (packed (args.take n)).length + 1 ≤ argsBufLen := by simpa using hfits'
      obtain ⟨got, hgot, rfl⟩ := (lossless_packed hnul' hfits').1 h
      -- the list that arrives is at most as long as what was written
      obtain ⟨got', hgot', -, hne, htake⟩ := collect_packed hnul' hfits'
      cases hgot.symm.trans hgot'
      have hshort := congrArg List.length (htake fun a ha => hne a (List.mem_of_mem_take ha))
      rw [List.length_take, List.length_take] at hshort
      omega

theorem lossless_unless {f : Caller → String → List String → Outcome} (full : Full) {path : String} {refused : Prop}
    [Decidable refused] (hf : ∀ c, f c path args = if refused then .failed else request full c args)
    (hnul : ∀ a ∈ args, 0 ∉ bytes a) :
    Lossless f path args ↔ refused ∨ ((full = .stop → Fits args) ∧ (Fits args → Plain args)) := by
  by_cases hrefused : refused
  · simp only [Lossless, hf, hrefused, true_or, iff_true]
    exact fun _ _ hr => nomatch hr
  · simp only [Lossless, hf, hrefused, false_or]
    exact lossless_request full hnul

/-- **Arguments.** With arguments that hold no NUL: `exec_with_args` hands over the list, whenever it reports success, iff
the path is refused, or the list fits, has at most 64 arguments and none is empty; the other two functions iff the path or
the list is refused, or the list has at most 64 arguments and none is empty. -/
theorem lossless_iff (path : String) (args : List String) (hnul : ∀ a ∈ args, 0 ∉ bytes a) :
    (Lossless execWithArgs path args ↔ 255 ≤ (bytes path).length ∨ Fits args ∧ Plain args) ∧
      (Lossless execFromBufferNamedWithArgs path args ↔
        (bytes path = [] ∨ 255 ≤ (bytes path).length) ∨ ¬ Fits args ∨ Plain args) ∧
      (Lossless execViaFsStream path args ↔
        (bytes path = [] ∨ 255 ≤ (bytes path).length) ∨ ¬ Fits args ∨ Plain args) := by
  refine ⟨(lossless_unless .stop (fun _ => rfl) hnul).trans (or_congr_right ?_),
    (lossless_unless .fail (fun _ => rfl) hnul).trans (or_congr_right ?_),
    (lossless_unless .fail (fun _ => rfl) hnul).trans (or_congr_right ?_)⟩
  · exact ⟨fun h => ⟨h.1 rfl, h.2 (h.1 rfl)⟩, fun h => ⟨fun _ => h.1, fun _ => h.2⟩⟩
  · exact ⟨fun h => imp_iff_not_or.1 h.2, fun h => ⟨nofun, imp_iff_not_or.2 h⟩⟩
  · exact ⟨fun h => imp_iff_not_or.1 h.2, fun h => ⟨nofun, imp_iff_not_or.2 h⟩⟩

theorem lossless_two : (∀ a ∈ ["-l", "/tmp"], 0 ∉ bytes a) ∧ Lossless execWithArgs "/bin/ls" ["-l", "/tmp"] := by
  have hnul : ∀ a ∈ ["-l", "/tmp"], 0 ∉ bytes a := by decide +kernel
  exact ⟨hnul, (lossless_iff "/bin/ls" ["-l", "/tmp"] hnul).1.2 (.inr ⟨by decide +kernel, by decide +kernel⟩)⟩

/-- an empty argument ends the list, a 65th argument is dropped, and `exec_with_args` drops what does not fit -/
theorem lists_not_delivered :
    execViaFsStream obliging "/bin/sh" ["a", "", "b"] = ⟨some ["a"], some 7⟩ ∧
      execFromBufferNamedWithArgs obliging "/bin/sh" (List.replicate 65 "a") = ⟨some (List.replicate 64 "a"), some 7⟩ ∧
      execWithArgs obliging "/bin/sh" ["a", String.ofList (List.replicate 511 'b'), "c"] = ⟨some ["a"], some 7⟩ ∧
      ¬ Lossless execViaFsStream "/bin/sh" ["a", "", "b"] := by
  have hempty : execViaFsStream obliging "/bin/sh" ["a", "", "b"] = ⟨some ["a"], some 7⟩ := by decide +kernel
  refine ⟨hempty, by decide +kernel, by decide +kernel, fun h => ?_⟩
  have hhanded := h obliging 7 (by rw [hempty])
  rw [hempty] at hhanded
  exact absurd hhanded (by decide)

end SwiftCore.User.ExecArgs
