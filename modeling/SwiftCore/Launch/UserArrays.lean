/-
Strings and arrays of strings in the memory of the caller (core/syscall/mod.rs: `read_user_cstring`, `read_user_u64`;
core/syscall/exec.rs: `read_user_ptr_array`).

`CString` and `IsArray` say what the memory holds; the readers have limits and turn errors into the end of the array.

- `readUserCString_iff`: a string is read iff it is there, is valid UTF-8 and is shorter than the limit.
- `readUserPtrArray_spec`: what the loop over the pointers returns.
- `read_eq_array_iff`: the array is read as it is iff it has at most `maxEntries` strings, each of which can be read.
-/
import SwiftCore.Elf.Headers

namespace SwiftCore.Launch

open Bytes
open Elf (userSpaceEnd)

/-! ## Memory -/

/-- the bytes that the caller can read; none is past user space -/
structure UserMemory where
  byte : ℕ → Option UInt8
  inSpace : ∀ a, userSpaceEnd < a → byte a = none

namespace UserMemory

variable (u : UserMemory)

/-- the string `s` with its NUL is at `ptr` -/
def CString (ptr : ℕ) (s : List UInt8) : Prop :=
  (∀ k, ∀ h : k < s.length, u.byte (ptr + k) = some s[k] ∧ s[k] ≠ 0) ∧ u.byte (ptr + s.length) = some 0

/-- the 8 bytes at `ptr`, if all can be read -/
def word (ptr : ℕ) : Option ℕ := ((List.range 8).mapM fun i => u.byte (ptr + i)).map ofLe

/-- the array at `ptr` has the strings of `l`, then a null pointer -/
def IsArray (ptr : ℕ) (l : List (List UInt8)) : Prop :=
  (∀ i, ∀ h : i < l.length, ∃ p, u.word (ptr + 8 * i) = some p ∧ p ≠ 0 ∧ u.CString p l[i]) ∧
    u.word (ptr + 8 * l.length) = some 0

/-! ## The readers -/

/-- `String::from_utf8` accepts the bytes -/
def isUtf8 (bs : List UInt8) : Bool := (String.fromUTF8? ⟨bs.toArray⟩).isSome

/-- the loop of `read_user_cstring`; `bytes` is what it has read -/
def readBytes : ℕ → ℕ → List UInt8 → Option (List UInt8)
  | 0, _, _ => none
  | n + 1, addr, bytes =>
    if 2 ^ 64 ≤ addr then none
    else
      match u.byte addr with
      | none => none
      | some b => if b = 0 then if isUtf8 bytes then some bytes else none else readBytes n (addr + 1) (bytes ++ [b])

def readUserCString (ptr maxLen : ℕ) : Option (List UInt8) :=
  if ptr = 0 ∨ maxLen = 0 then none else u.readBytes maxLen ptr []

/-- `read_user_u64` behind `validate_user_ptr`; both look for the same bytes -/
def readUserU64 (ptr : ℕ) : Option ℕ := if ptr = 0 then none else u.word ptr

def maxArgLen : ℕ := 4096

/-- one turn of `read_user_ptr_array` up to the string; `none` where the loop breaks -/
def arrayEntry (arrayPtr i : ℕ) : Option (List UInt8) :=
  if 2 ^ 64 ≤ arrayPtr + 8 * i then none
  else
    match u.readUserU64 (arrayPtr + 8 * i) with
    | none => none
    | some entryPtr => if entryPtr = 0 then none else u.readUserCString entryPtr maxArgLen

/-- the loop of `read_user_ptr_array` -/
def readEntries (arrayPtr maxEntries : ℕ) : ℕ → ℕ → List (List UInt8) → List (List UInt8)
  | 0, _, result => result
  | n + 1, i, result =>
    match u.arrayEntry arrayPtr i with
    | none => result
    | some s =>
      if maxEntries ≤ (result ++ [s]).length then result ++ [s]
      else readEntries arrayPtr maxEntries n (i + 1) (result ++ [s])

def readUserPtrArray (arrayPtr maxEntries : ℕ) : List (List UInt8) :=
  if arrayPtr = 0 then [] else u.readEntries arrayPtr maxEntries (maxEntries + 1) 0 []

/-! ## Strings -/

variable {u}

variable {b : UInt8} {ptr arrayPtr i maxEntries : ℕ} {s : List UInt8}

/-- what is readable is in the address space -/
theorem lt_of_byte {a : ℕ} (h : u.byte a = some b) : a < 2 ^ 64 := by
  by_contra hge
  rw [u.inSpace a (by unfold userSpaceEnd; omega)] at h
  cases h

theorem CString.tail (h : u.CString ptr (b :: s)) : u.CString (ptr + 1) s := by
  refine ⟨fun k hk => ?_, ?_⟩
  · rw [Nat.add_assoc, Nat.add_comm 1]
    exact h.1 (k + 1) (by simpa using hk)
  · have hnul := h.2
    rwa [List.length_cons, Nat.add_comm s.length, ← Nat.add_assoc] at hnul

theorem CString.cons (hb : u.byte ptr = some b) (hne : b ≠ 0)
    (h : u.CString (ptr + 1) s) : u.CString ptr (b :: s) := by
  refine ⟨fun k hk => ?_, ?_⟩
  · cases k with
    | zero => exact ⟨hb, hne⟩
    | succ k =>
      have hbyte := h.1 k (by simpa using hk)
      rwa [Nat.add_assoc, Nat.add_comm 1] at hbyte
  · rw [List.length_cons, Nat.add_comm s.length, ← Nat.add_assoc]
    exact h.2

theorem readBytes_iff {n : ℕ} {acc : List UInt8} :
    u.readBytes n ptr acc = some s ↔ ∃ r, s = acc ++ r ∧ u.CString ptr r ∧ r.length < n ∧ isUtf8 s = true := by
  induction n generalizing ptr acc with
  | zero => simp [readBytes]
  | succ n ih =>
    rw [readBytes]
    cases hb : u.byte ptr with
    | none =>
      have hnone : (if 2 ^ 64 ≤ ptr then (none : Option (List UInt8)) else none) = some s ↔ False := by simp
      refine hnone.trans ⟨False.elim, ?_⟩
      rintro ⟨r, -, hr, -⟩
      cases r with
      | nil => cases hb.symm.trans hr.2
      | cons b r => cases hb.symm.trans (hr.1 0 (by simp)).1
    | some b =>
      rw [if_neg (Nat.not_le.2 (lt_of_byte hb))]
      dsimp only
      by_cases hz : b = 0
      · subst hz
        rw [if_pos rfl]
        constructor
        · intro h
          rcases ite_eq_iff.1 h with ⟨hutf, h⟩ | ⟨hutf, h⟩
          · cases h
            exact ⟨[], by simp, ⟨fun k hk => absurd hk (Nat.not_lt_zero k), hb⟩, Nat.succ_pos n, hutf⟩
          · cases h
        · rintro ⟨r, rfl, hr, -, hutf⟩
          cases r with
          | nil => rw [List.append_nil, if_pos (by simpa using hutf)]
          | cons c r =>
            have hc := hr.1 0 (by simp)
            rw [Nat.add_zero, hb, Option.some.injEq] at hc
            exact absurd hc.1.symm hc.2
      · rw [if_neg hz, ih]
        constructor
        · rintro ⟨r, rfl, hr, hlen, hutf⟩
          exact ⟨b :: r, by simp, hr.cons hb hz, by simpa using hlen, hutf⟩
        · rintro ⟨r, rfl, hr, hlen, hutf⟩
          cases r with
          | nil =>
            have hnul := hr.2
            rw [List.length_nil, Nat.add_zero, hb, Option.some.injEq] at hnul
            exact absurd hnul hz
          | cons c r =>
            have hc := (hr.1 0 (by simp)).1
            rw [Nat.add_zero, hb, Option.some.injEq] at hc
            obtain rfl : b = c := hc
            exact ⟨r, by simp, hr.tail, by simpa using hlen, hutf⟩

/-- **When a string is read.** -/
theorem readUserCString_iff {maxLen : ℕ} : u.readUserCString ptr maxLen = some s ↔
    ptr ≠ 0 ∧ u.CString ptr s ∧ s.length < maxLen ∧ isUtf8 s = true := by
  rw [readUserCString]
  split_ifs with hbad
  · refine ⟨fun h => (nomatch h), fun h => ?_⟩
    rcases hbad with hptr | hmax
    · exact absurd hptr h.1
    · have hlen := h.2.2.1
      omega
  · rw [readBytes_iff]
    rw [not_or] at hbad
    simp [hbad.1]

/-! ## Arrays -/

/-- the string can be read as an argument -/
def Readable (s : List UInt8) : Prop := s.length < maxArgLen ∧ isUtf8 s = true

theorem word_lt {p : ℕ} (h : u.word ptr = some p) : ptr < 2 ^ 64 := by
  obtain ⟨bs, hbs, -⟩ := Option.map_eq_some_iff.1 h
  cases hb : u.byte ptr with
  | none => simp [List.range_succ_eq_map, hb] at hbs
  | some b => exact lt_of_byte hb

theorem arrayEntry_iff (hptr : arrayPtr ≠ 0) : u.arrayEntry arrayPtr i = some s ↔
    ∃ p, u.word (arrayPtr + 8 * i) = some p ∧ p ≠ 0 ∧ u.CString p s ∧ Readable s := by
  have hpos : arrayPtr + 8 * i ≠ 0 := by omega
  rw [arrayEntry, readUserU64, if_neg hpos]
  cases hw : u.word (arrayPtr + 8 * i) with
  | none => simp
  | some p =>
    rw [if_neg (Nat.not_le.2 (word_lt hw))]
    by_cases hp : p = 0
    · simp [hp]
    · simp [hp, readUserCString_iff, Readable]

/-- a null pointer ends the array -/
theorem arrayEntry_null (hptr : arrayPtr ≠ 0) (h : u.word (arrayPtr + 8 * i) = some 0) :
    u.arrayEntry arrayPtr i = none := by
  cases he : u.arrayEntry arrayPtr i with
  | none => rfl
  | some s =>
    obtain ⟨p, hp, hne, -⟩ := (arrayEntry_iff hptr).1 he
    exact absurd (Option.some.inj (hp.symm.trans h)) hne

/-- the loop adds entries until one cannot be read or there are enough -/
theorem readEntries_spec {n : ℕ} {result : List (List UInt8)} (hi : result.length = i)
    (hlt : i < maxEntries) (hn : maxEntries ≤ i + n) :
    ∃ r, u.readEntries arrayPtr maxEntries n i result = result ++ r ∧ i + r.length ≤ maxEntries ∧
      (∀ k, ∀ h : k < r.length, u.arrayEntry arrayPtr (i + k) = some r[k]) ∧
      (i + r.length = maxEntries ∨ u.arrayEntry arrayPtr (i + r.length) = none) := by
  induction n generalizing i result with
  | zero => omega
  | succ n ih =>
    rw [readEntries]
    cases he : u.arrayEntry arrayPtr i with
    | none => exact ⟨[], by simp, hlt.le, fun k hk => absurd hk (Nat.not_lt_zero k), .inr he⟩
    | some s =>
      dsimp only
      have hlen : (result ++ [s]).length = i + 1 := by rw [List.length_append, hi, List.length_singleton]
      rw [hlen]
      split_ifs with hfull
      · refine ⟨[s], rfl, hlt, fun k hk => ?_, .inl (by simp; omega)⟩
        obtain rfl : k = 0 := by simpa using hk
        exact he
      · obtain ⟨r, hr, hle, hin, hend⟩ := ih hlen (Nat.not_le.1 hfull) (by omega)
        have hcount : i + (s :: r).length = i + 1 + r.length := by rw [List.length_cons]; omega
        refine ⟨s :: r, by rw [hr]; simp, by rwa [hcount], fun k hk => ?_, by rwa [hcount]⟩
        cases k with
        | zero => exact he
        | succ k =>
          have hk' := hin k (by simpa using hk)
          rwa [Nat.add_assoc, Nat.add_comm 1] at hk'

theorem readUserPtrArray_spec (hptr : arrayPtr ≠ 0) (hmax : 0 < maxEntries) :
    let r := u.readUserPtrArray arrayPtr maxEntries
    r.length ≤ maxEntries ∧ (∀ k, ∀ h : k < r.length, u.arrayEntry arrayPtr k = some r[k]) ∧
      (r.length = maxEntries ∨ u.arrayEntry arrayPtr r.length = none) := by
  obtain ⟨r, hr, hle, hin, hend⟩ :=
    u.readEntries_spec (n := maxEntries + 1) (List.length_nil) hmax (by omega)
  have hread : u.readUserPtrArray arrayPtr maxEntries = r := by
    rw [readUserPtrArray, if_neg hptr, hr, List.nil_append]
  simp only [Nat.zero_add] at hle hin hend
  rw [hread]
  exact ⟨hle, hin, hend⟩

/-- **When an array is read as it is.** -/
theorem read_eq_array_iff (hptr : arrayPtr ≠ 0) (hmax : 0 < maxEntries)
    {l : List (List UInt8)} (harr : u.IsArray arrayPtr l) :
    u.readUserPtrArray arrayPtr maxEntries = l ↔ l.length ≤ maxEntries ∧ ∀ s ∈ l, Readable s := by
  obtain ⟨hle, hin, hend⟩ := u.readUserPtrArray_spec hptr hmax
  constructor
  · intro hread
    rw [hread] at hle hin
    refine ⟨hle, fun s hs => ?_⟩
    obtain ⟨k, hk, rfl⟩ := List.getElem_of_mem hs
    obtain ⟨p, -, -, -, hreadable⟩ := (arrayEntry_iff hptr).1 (hin k hk)
    exact hreadable
  · rintro ⟨hlen, hall⟩
    have hentry : ∀ i, ∀ h : i < l.length, u.arrayEntry arrayPtr i = some l[i] := by
      intro i hi
      obtain ⟨p, hp, hne, hstr⟩ := harr.1 i hi
      exact (arrayEntry_iff hptr).2 ⟨p, hp, hne, hstr, hall _ (List.getElem_mem hi)⟩
    have hnull := arrayEntry_null hptr harr.2
    generalize u.readUserPtrArray arrayPtr maxEntries = r at hle hin hend
    -- neither list can be the shorter one
    have hshort : ¬ r.length < l.length := by
      intro hlt
      rcases hend with hfull | hnone
      · omega
      · cases hnone.symm.trans (hentry _ hlt)
    have hlong : ¬ l.length < r.length := fun hlt => nomatch hnull.symm.trans (hin _ hlt)
    refine List.ext_getElem (by omega) fun k hk hk' => ?_
    exact Option.some.inj ((hin k hk).symm.trans (hentry k hk'))

end UserMemory

end SwiftCore.Launch
