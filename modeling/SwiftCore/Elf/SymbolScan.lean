/-
The search for `__sinit` in the symbol table of a `.service` file (core/syscall/exec.rs, exec_with_data).

The scan looks for the first section of type SHT_SYMTAB, takes its string table from the section it links to, and goes
through the symbols until one is named `__sinit`. It checks that the section table as a whole, and each symbol as a
whole, lies in the file, but then reads 64 bytes of a section header and 16 bytes of a symbol, whatever their sizes are.

`safe_sinitScan`: the scan returns exactly when the file is `Scannable`:
- the end of the section table is inside the address space;
- each section header up to the symbol table has 64 bytes in the file, the linked one has 40;
- the first symbol ends inside the address space, and each symbol that the scan comes to has 16 bytes in the file and a
  name inside the address space.
-/
import SwiftCore.Elf.Headers

namespace SwiftCore.Elf

open Bytes Checked
open Exec (add sub mul div index slice forRange loop attempt add_eq mul_eq ok_bind)

/-! ## The scan -/

def shtSymtab : UInt32 := 2

/-- what the scan keeps of the symbol table and of its string table -/
structure SymTab where
  offset : UInt64
  size : UInt64
  entsize : UInt64
  strOffset : UInt64
  strSize : UInt64

def SymTab.unset : SymTab := ⟨0, 0, 0, 0, 0⟩

variable (data : File) (eh : Elf64Ehdr)

/-- section `i`; `Sum.inr` ends the loop -/
def sectionTurn (i : ℕ) (_ : Unit) : Exec (Unit ⊕ SymTab) := do
  let x ← mul 64 i eh.eShentsize.toNat
  let shOff ← add 64 eh.eShoff.toNat x
  let upto ← add 64 shOff eh.eShentsize.toNat
  if data.len < upto then return .inr SymTab.unset
  else do
    let shType ← u32At data shOff 4
    let shOffset ← u64At data shOff 24
    let shSize ← u64At data shOff 32
    let shLink ← u32At data shOff 40
    let shEntsize ← u64At data shOff 56
    if shType = shtSymtab then
      if shLink.toNat < eh.eShnum.toNat then do
        let y ← mul 64 shLink.toNat eh.eShentsize.toNat
        let linkShOff ← add 64 eh.eShoff.toNat y
        let strOffset ← u64At data linkShOff 24
        let strSize ← u64At data linkShOff 32
        return .inr ⟨shOffset, shSize, shEntsize, strOffset, strSize⟩
      else return .inr ⟨shOffset, shSize, shEntsize, 0, 0⟩
    else return .inl ()

/-- one turn of `while end < data.len() && data[end] != 0 { end += 1 }` -/
def nulTurn (e : ℕ) : Exec (ℕ ⊕ ℕ) :=
  if e < data.len then do
    let b ← index data.bytes e
    if b ≠ 0 then do
      let e' ← add 64 e 1
      return .inl e'
    else return .inr e
  else return .inr e

def nulEnd (start : ℕ) : Exec ℕ := loop (nulTurn data) (data.len + 1) start

/-- `core::str::from_utf8(bytes) == Ok("__sinit")` -/
def namesSinit (bytes : List UInt8) : Bool := String.fromUTF8? ⟨bytes.toArray⟩ = some "__sinit"

variable (t : SymTab)

/-- symbol `i`; the loop ends with `None` at the end of the file -/
def symbolTurn (i : ℕ) (_ : Unit) : Exec (Unit ⊕ Option UInt64) := do
  let x ← mul 64 i t.entsize.toNat
  let symOff ← add 64 t.offset.toNat x
  let upto ← add 64 symOff t.entsize.toNat
  if data.len < upto then return .inr none
  else do
    let stName ← u32At data symOff 0
    let stValue ← u64At data symOff 8
    if stName.toNat < t.strSize.toNat then do
      let nameOff ← add 64 t.strOffset.toNat stName.toNat
      if nameOff < data.len then do
        let stop ← nulEnd data nameOff
        if stop ≤ data.len then do
          let bytes ← slice data.bytes nameOff stop
          return if namesSinit bytes then .inr (some stValue) else .inl ()
        else return .inl ()
      else return .inl ()
    else return .inl ()

def scanSymbols : Exec (Option UInt64) :=
  if 0 < t.offset.toNat ∧ 0 < t.strOffset.toNat ∧ 0 < t.entsize.toNat then do
    let nsyms ← div t.size.toNat t.entsize.toNat
    let r ← forRange (symbolTurn data t) nsyms 0 ()
    return r.elim (fun _ => none) id
  else return none

/-- the address of `__sinit`, if the scan finds it -/
def sinitScan : Exec (Option UInt64) := do
  match ← attempt (parseElfHeader data) with
  | none => return none
  | some eh =>
    if 0 < eh.eShoff.toNat ∧ 0 < eh.eShentsize.toNat ∧ 0 < eh.eShnum.toNat then do
      let x ← mul 64 eh.eShentsize.toNat eh.eShnum.toNat
      let upto ← add 64 eh.eShoff.toNat x
      if upto ≤ data.len then do
        let r ← forRange (sectionTurn data eh) eh.eShnum.toNat 0 ()
        scanSymbols data (r.elim (fun _ => SymTab.unset) id)
      else return none
    else return none

/-! ## What the file must be like -/

/-- offset of section header `k` -/
def secOff (k : ℕ) : ℕ := eh.eShoff.toNat + k * eh.eShentsize.toNat

def secType (k : ℕ) : UInt32 := data.u32 (secOff eh k + 4)

def secLink (k : ℕ) : ℕ := (data.u32 (secOff eh k + 40)).toNat

/-- the symbol table that section `k` describes -/
def symTabAt (k : ℕ) : SymTab :=
  let link := secOff eh (secLink data eh k)
  ⟨data.u64 (secOff eh k + 24), data.u64 (secOff eh k + 32), data.u64 (secOff eh k + 56),
    if secLink data eh k < eh.eShnum.toNat then data.u64 (link + 24) else 0,
    if secLink data eh k < eh.eShnum.toNat then data.u64 (link + 32) else 0⟩

/-- section `k` is the first symbol table, or comes before it -/
def Reached (k : ℕ) : Prop := ∀ j < k, secType data eh j ≠ shtSymtab

/-- the header of section `k` is in the file, and so is the part that is read of the section it links to -/
def SectionInFile (k : ℕ) : Prop :=
  secOff eh k + 64 ≤ data.len ∧
    (secType data eh k = shtSymtab → secLink data eh k < eh.eShnum.toNat →
      secOff eh (secLink data eh k) + 40 ≤ data.len)

def symOff (i : ℕ) : ℕ := t.offset.toNat + i * t.entsize.toNat

def symName (i : ℕ) : ℕ := (data.u32 (symOff t i)).toNat

/-- the bytes up to the next NUL or the end of the file -/
def cString (start : ℕ) : List UInt8 := (data.bytes.drop start).takeWhile (· ≠ 0)

def IsSinit (i : ℕ) : Prop :=
  symName data t i < t.strSize.toNat ∧ t.strOffset.toNat + symName data t i < data.len ∧
    namesSinit (cString data (t.strOffset.toNat + symName data t i)) = true
  deriving Decidable

/-- symbol `i` has 16 bytes in the file and a name inside the address space -/
def SymbolInFile (i : ℕ) : Prop :=
  symOff t i + 16 ≤ data.len ∧ (symName data t i < t.strSize.toNat → t.strOffset.toNat + symName data t i < 2 ^ 64)

/-- the symbols of a table can be gone through -/
def SymbolsScannable : Prop :=
  0 < t.offset.toNat → 0 < t.strOffset.toNat → 0 < t.entsize.toNat →
    (t.entsize.toNat ≤ t.size.toNat → t.offset.toNat + t.entsize.toNat < 2 ^ 64) ∧
      ∀ i < t.size.toNat / t.entsize.toNat, symOff t (i + 1) ≤ data.len → (∀ j < i, ¬ IsSinit data t j) →
        SymbolInFile data t i

/-- what the scan needs of a file -/
def Scannable : Prop :=
  let eh := ehdr data
  0 < eh.eShoff.toNat → 0 < eh.eShentsize.toNat → 0 < eh.eShnum.toNat →
    secOff eh eh.eShnum.toNat < 2 ^ 64 ∧
      (secOff eh eh.eShnum.toNat ≤ data.len → ∀ k < eh.eShnum.toNat, Reached data eh k →
        SectionInFile data eh k ∧ (secType data eh k = shtSymtab → SymbolsScannable data (symTabAt data eh k)))

/-! ## Sections -/

section Sections

variable {data : File} {eh : Elf64Ehdr} {k : ℕ}

theorem secOff_add_le {n : ℕ} (hk : k < n) : secOff eh k + eh.eShentsize.toNat ≤ secOff eh n := by
  have hmul : (k + 1) * eh.eShentsize.toNat ≤ n * eh.eShentsize.toNat := Nat.mul_le_mul_right _ hk
  rw [Nat.succ_mul] at hmul
  unfold secOff
  omega

/-- the reads of a turn: the section lies in the table, so its offsets do not overflow -/
theorem sectionTurn_reads (hk : k < eh.eShnum.toNat) (hguard : secOff eh eh.eShnum.toNat ≤ data.len) :
    sectionTurn data eh k () = (do
      let shType ← u32At data (secOff eh k) 4
      let shOffset ← u64At data (secOff eh k) 24
      let shSize ← u64At data (secOff eh k) 32
      let shLink ← u32At data (secOff eh k) 40
      let shEntsize ← u64At data (secOff eh k) 56
      if shType = shtSymtab then
        if shLink.toNat < eh.eShnum.toNat then do
          let strOffset ← u64At data (secOff eh shLink.toNat) 24
          let strSize ← u64At data (secOff eh shLink.toNat) 32
          return .inr ⟨shOffset, shSize, shEntsize, strOffset, strSize⟩
        else return .inr ⟨shOffset, shSize, shEntsize, 0, 0⟩
      else return .inl ()) := by
  have hlen := data.len_lt
  have hsec : ∀ j < eh.eShnum.toNat, j * eh.eShentsize.toNat < 2 ^ 64 ∧
      eh.eShoff.toNat + j * eh.eShentsize.toNat < 2 ^ 64 := by
    intro j hj
    have := @secOff_add_le eh j _ hj
    unfold secOff at this hguard
    omega
  have hend := @secOff_add_le eh k _ hk
  rw [sectionTurn, mul_eq (hsec k hk).1, ok_bind, add_eq (hsec k hk).2, ok_bind, ← secOff,
    add_eq (by omega), ok_bind, if_neg (by omega)]
  have hlink : ∀ (link : UInt32) (f : ℕ → Exec (Unit ⊕ SymTab)), link.toNat < eh.eShnum.toNat →
      (do let y ← mul 64 link.toNat eh.eShentsize.toNat
          let linkShOff ← add 64 eh.eShoff.toNat y
          f linkShOff) = f (secOff eh link.toNat) := by
    intro link f hlt
    rw [mul_eq (hsec _ hlt).1, ok_bind, add_eq (hsec _ hlt).2, ok_bind]
    rfl
  congr 1
  funext shType
  congr 1
  funext shOffset
  congr 1
  funext shSize
  congr 1
  funext shLink
  congr 1
  funext shEntsize
  split_ifs with _ hlt
  · exact hlink shLink _ hlt
  · rfl
  · rfl

theorem sectionTurn_eq (hk : k < eh.eShnum.toNat) (hguard : secOff eh eh.eShnum.toNat ≤ data.len)
    (h : SectionInFile data eh k) :
    sectionTurn data eh k () =
      .ok (if secType data eh k = shtSymtab then .inr (symTabAt data eh k) else .inl ()) := by
  obtain ⟨hhead, hlink⟩ := h
  rw [sectionTurn_reads hk hguard]
  simp (disch := omega) only [u32At_eq, u64At_eq, ok_bind]
  rw [← secType, ← secLink]
  split_ifs with htype hlt
  · have hin := hlink htype hlt
    rw [u64At_eq (by omega), ok_bind, u64At_eq (by omega), ok_bind, symTabAt, if_pos hlt, if_pos hlt]
    rfl
  · rw [symTabAt, if_neg hlt, if_neg hlt]
    rfl
  · rfl

theorem safe_sectionTurn (hk : k < eh.eShnum.toNat) (hguard : secOff eh eh.eShnum.toNat ≤ data.len) :
    Safe (sectionTurn data eh k ()) ↔ SectionInFile data eh k := by
  constructor
  · intro h
    rw [sectionTurn_reads hk hguard] at h
    obtain ⟨h1, h⟩ := safe_bind.1 h
    obtain ⟨h2, h⟩ := safe_bind.1 (h _ (u32At_eq (safe_u32At.1 h1)))
    obtain ⟨h3, h⟩ := safe_bind.1 (h _ (u64At_eq (safe_u64At.1 h2)))
    obtain ⟨h4, h⟩ := safe_bind.1 (h _ (u64At_eq (safe_u64At.1 h3)))
    obtain ⟨h5, h⟩ := safe_bind.1 (h _ (u32At_eq (safe_u32At.1 h4)))
    have hrest := h _ (u64At_eq (safe_u64At.1 h5))
    refine ⟨by have := safe_u64At.1 h5; omega, fun htype hlt => ?_⟩
    rw [secType] at htype
    rw [secLink] at hlt
    rw [if_pos htype, if_pos hlt] at hrest
    obtain ⟨h6, hrest⟩ := safe_bind.1 hrest
    have h7 := safe_u64At.1 (safe_bind.1 (hrest _ (u64At_eq (safe_u64At.1 h6)))).1
    rw [secLink]
    omega
  · intro h
    rw [sectionTurn_eq hk hguard h]
    exact safe_ok _

/-- the loop goes on up to section `k` iff no section before it is a symbol table -/
theorem reached_iff (hguard : secOff eh eh.eShnum.toNat ≤ data.len)
    (hfile : ∀ j < k, Reached data eh j → SectionInFile data eh j) (hk : k ≤ eh.eShnum.toNat) :
    (∀ j < k, sectionTurn data eh j () = .ok (.inl ())) ↔ Reached data eh k := by
  constructor
  · intro h j hj
    have hin := (safe_sectionTurn (by omega) hguard).1 (h j hj ▸ safe_ok _)
    have hturn := h j hj
    rw [sectionTurn_eq (by omega) hguard hin] at hturn
    intro htype
    rw [if_pos htype] at hturn
    cases hturn
  · intro h j hj
    rw [sectionTurn_eq (by omega) hguard (hfile j hj fun i hi => h i (by omega)), if_neg (h j hj)]

/-- the loop over the sections is safe iff each section it comes to is in the file -/
theorem safe_sections (hguard : secOff eh eh.eShnum.toNat ≤ data.len) :
    Safe (forRange (sectionTurn data eh) eh.eShnum.toNat 0 ()) ↔
      ∀ k < eh.eShnum.toNat, Reached data eh k → SectionInFile data eh k := by
  rw [safe_forRange_unit]
  constructor
  · intro h k
    induction k using Nat.strong_induction_on with
    | _ k ih =>
      intro hk hreach
      have hpass := (reached_iff hguard (fun j hj => ih j hj (by omega)) hk.le).2 hreach
      exact (safe_sectionTurn hk hguard).1 (h k hk hpass)
  · intro h k hk hpass
    have hreach := (reached_iff hguard (fun j hj => h j (by omega)) hk.le).1 hpass
    exact (safe_sectionTurn hk hguard).2 (h k hk hreach)

end Sections

/-! ## Symbols -/

section Symbols

variable {data : File} {t : SymTab} {i start : ℕ}

/-- the loop ends at the next NUL or at the end of the file -/
theorem loop_nulTurn {fuel e : ℕ} (he : e ≤ data.len) (hfuel : data.len - e < fuel) :
    loop (nulTurn data) fuel e = .ok (e + (cString data e).length) := by
  have hlen := data.len_lt
  induction fuel generalizing e with
  | zero => omega
  | succ fuel ih =>
    rw [loop, nulTurn]
    split_ifs with hin
    · have hin' : e < data.bytes.length := hin
      have hdrop : data.bytes.drop e = data.bytes[e] :: data.bytes.drop (e + 1) := List.drop_eq_getElem_cons hin'
      rw [Exec.index_eq hin', ok_bind]
      split_ifs with hb
      · rw [add_eq (by omega), ok_bind]
        refine (ih (Nat.succ_le_of_lt hin) (by omega)).trans ?_
        rw [cString, cString, hdrop, List.takeWhile_cons_of_pos (by simpa using hb), List.length_cons,
          Nat.succ_add_eq_add_succ]
      · rw [cString, hdrop, List.takeWhile_cons_of_neg (by simpa using hb)]
        rfl
    · have hnil : data.bytes.drop e = [] := List.drop_eq_nil_of_le (Nat.not_lt.1 hin)
      rw [cString, hnil]
      rfl

theorem nulEnd_eq (h : start ≤ data.len) : nulEnd data start = .ok (start + (cString data start).length) :=
  loop_nulTurn h (by omega)

/-- the name that is compared is the string at that offset -/
theorem slice_cString (h : start ≤ data.len) :
    start + (cString data start).length ≤ data.len ∧
      slice data.bytes start (start + (cString data start).length) = .ok (cString data start) := by
  have hle : (cString data start).length ≤ (data.bytes.drop start).length := (List.takeWhile_sublist _).length_le
  rw [List.length_drop] at hle
  unfold File.len at h ⊢
  refine ⟨by omega, ?_⟩
  rw [slice_eq (by omega) (by omega), Nat.add_sub_cancel_left]
  congr 1
  exact (List.prefix_iff_eq_take.1 (List.takeWhile_prefix _)).symm

theorem symOff_succ (t : SymTab) (i : ℕ) : symOff t (i + 1) = symOff t i + t.entsize.toNat := by
  rw [symOff, symOff, Nat.succ_mul, Nat.add_assoc]

/-- the turn for a symbol whose offset does not overflow -/
theorem symbolTurn_reads (hi : symOff t i < 2 ^ 64) (hi' : symOff t (i + 1) < 2 ^ 64) :
    symbolTurn data t i () =
      if data.len < symOff t (i + 1) then .ok (.inr none)
      else do
        let stName ← u32At data (symOff t i) 0
        let stValue ← u64At data (symOff t i) 8
        if stName.toNat < t.strSize.toNat then do
          let nameOff ← add 64 t.strOffset.toNat stName.toNat
          if nameOff < data.len then
            return if namesSinit (cString data nameOff) then .inr (some stValue) else .inl ()
          else return .inl ()
        else return .inl () := by
  have hx : i * t.entsize.toNat < 2 ^ 64 := by
    unfold symOff at hi
    omega
  rw [symOff_succ] at hi'
  rw [symbolTurn, mul_eq hx, ok_bind, add_eq hi, ok_bind, ← symOff, add_eq hi', ok_bind,
    symOff_succ]
  split_ifs with hend
  · rfl
  congr 1
  funext stName
  congr 1
  funext stValue
  split_ifs with hname
  · congr 1
    funext nameOff
    refine ite_congr rfl (fun hoff => ?_) fun _ => rfl
    obtain ⟨hle, hslice⟩ := slice_cString (Nat.le_of_lt hoff)
    rw [nulEnd_eq (Nat.le_of_lt hoff), ok_bind, if_pos hle, hslice, ok_bind]
  · rfl

/-- a turn for a symbol in the file finds `__sinit` or goes on -/
theorem symbolTurn_eq (hend : symOff t (i + 1) ≤ data.len) (h : SymbolInFile data t i) :
    symbolTurn data t i () =
      .ok (if IsSinit data t i then .inr (some (data.u64 (symOff t i + 8))) else .inl ()) := by
  have hlen := data.len_lt
  obtain ⟨hin, hname⟩ := h
  rw [symbolTurn_reads (by omega) (by omega), if_neg (by omega), u32At_eq (by omega), ok_bind, u64At_eq (by omega),
    ok_bind, Nat.add_zero, ← symName]
  by_cases hstr : symName data t i < t.strSize.toNat
  · rw [if_pos hstr, add_eq (hname hstr), ok_bind]
    unfold IsSinit
    split_ifs <;> simp_all
  · rw [if_neg hstr, if_neg fun h => hstr h.1]
    rfl

/-- a turn is safe iff the symbol ends inside the address space and, if it ends in the file, is `SymbolInFile` -/
theorem safe_symbolTurn (hi : symOff t i < 2 ^ 64) :
    Safe (symbolTurn data t i ()) ↔
      symOff t (i + 1) < 2 ^ 64 ∧ (symOff t (i + 1) ≤ data.len → SymbolInFile data t i) := by
  constructor
  · intro h
    have hi' : symOff t (i + 1) < 2 ^ 64 := by
      obtain ⟨hx, h⟩ := safe_bind.1 h
      rw [symOff_succ]
      have hmul : mul 64 i t.entsize.toNat = .ok (i * t.entsize.toNat) :=
        mul_eq (by unfold symOff at hi; omega)
      obtain ⟨-, h⟩ := safe_bind.1 (h _ hmul)
      exact safe_add.1 (safe_bind.1 (h _ (add_eq hi))).1
    refine ⟨hi', fun hend => ?_⟩
    rw [symbolTurn_reads hi hi', if_neg (Nat.not_lt.2 hend)] at h
    obtain ⟨hname, h⟩ := safe_bind.1 h
    obtain ⟨hvalue, h⟩ := safe_bind.1 (h _ (u32At_eq (safe_u32At.1 hname)))
    have hrest := h _ (u64At_eq (safe_u64At.1 hvalue))
    refine ⟨safe_u64At.1 hvalue, fun hstr => ?_⟩
    rw [Nat.add_zero, ← symName, if_pos hstr] at hrest
    exact safe_add.1 (safe_bind.1 hrest).1
  · rintro ⟨hi', hin⟩
    by_cases hend : symOff t (i + 1) ≤ data.len
    · rw [symbolTurn_eq hend (hin hend)]
      exact safe_ok _
    · rw [symbolTurn_reads hi hi', if_pos (Nat.not_le.1 hend)]
      exact safe_ok _

theorem symbolTurn_goes_on (hi : symOff t i < 2 ^ 64) :
    symbolTurn data t i () = .ok (.inl ()) ↔
      symOff t (i + 1) ≤ data.len ∧ SymbolInFile data t i ∧ ¬ IsSinit data t i := by
  constructor
  · intro h
    obtain ⟨hi', hin⟩ := (safe_symbolTurn hi).1 (h ▸ safe_ok _)
    by_cases hend : symOff t (i + 1) ≤ data.len
    · refine ⟨hend, hin hend, fun hsinit => ?_⟩
      rw [symbolTurn_eq hend (hin hend), if_pos hsinit] at h
      cases h
    · rw [symbolTurn_reads hi hi', if_pos (Nat.not_le.1 hend)] at h
      cases h
  · rintro ⟨hend, hin, hsinit⟩
    rw [symbolTurn_eq hend hin, if_neg hsinit]

/-- the offsets of the symbols that the scan comes to do not overflow -/
theorem symOff_lt (hpass : ∀ j < i, symOff t (j + 1) ≤ data.len) : symOff t i < 2 ^ 64 := by
  cases i with
  | zero =>
    have := t.offset.toNat_lt
    rw [symOff, Nat.zero_mul]
    omega
  | succ i =>
    have := hpass i (Nat.lt_succ_self i)
    have := data.len_lt
    omega

theorem symOff_mono {j : ℕ} (h : j ≤ i) : symOff t j ≤ symOff t i := by
  unfold symOff
  gcongr

/-- the turns before `i` went on iff the symbols before `i` are in the file and none is `__sinit` -/
theorem passes_iff : (∀ j < i, symbolTurn data t j () = .ok (.inl ())) ↔
    ∀ j < i, symOff t (j + 1) ≤ data.len ∧ SymbolInFile data t j ∧ ¬ IsSinit data t j := by
  induction i with
  | zero => simp
  | succ i ih =>
    rw [Nat.forall_lt_succ_right, Nat.forall_lt_succ_right, ih]
    refine and_congr_right fun hall => symbolTurn_goes_on ?_
    exact symOff_lt fun j hj => (hall j hj).1

/-- the loop over the symbols -/
theorem safe_symbols {n : ℕ} (hsize : n * t.entsize.toNat ≤ t.size.toNat) :
    Safe (forRange (symbolTurn data t) n 0 ()) ↔
      (0 < n → t.offset.toNat + t.entsize.toNat < 2 ^ 64) ∧
        ∀ i < n, symOff t (i + 1) ≤ data.len → (∀ j < i, ¬ IsSinit data t j) → SymbolInFile data t i := by
  have hlen := data.len_lt
  have hone : symOff t 1 = t.offset.toNat + t.entsize.toNat := by rw [symOff, Nat.one_mul]
  rw [safe_forRange_unit]
  constructor
  · intro h
    refine ⟨fun hn => ?_, fun i => ?_⟩
    · rw [← hone]
      exact ((safe_symbolTurn (@symOff_lt data t 0 (by simp))).1 (h 0 hn (by simp))).1
    · induction i using Nat.strong_induction_on with
      | _ i ih =>
        intro hi hend hsinit
        have hpass : ∀ j < i, symOff t (j + 1) ≤ data.len ∧ SymbolInFile data t j ∧ ¬ IsSinit data t j := by
          intro j hj
          have hj' : symOff t (j + 1) ≤ data.len := (symOff_mono (by omega)).trans hend
          exact ⟨hj', ih j hj (by omega) hj' fun k hk => hsinit k (by omega), hsinit j hj⟩
        have hsafe := h i hi (passes_iff.2 hpass)
        exact ((safe_symbolTurn (symOff_lt fun j hj => (hpass j hj).1)).1 hsafe).2 hend
  · rintro ⟨hfirst, hall⟩ i hi hturns
    have hpass := passes_iff.1 hturns
    rw [safe_symbolTurn (symOff_lt fun j hj => (hpass j hj).1)]
    refine ⟨?_, fun hend => hall i hi hend fun j hj => (hpass j hj).2.2⟩
    cases i with
    | zero => exact hone ▸ hfirst hi
    | succ i =>
      -- a table of two symbols or more has entries of at most half the address space
      have hbefore := (hpass i (Nat.lt_succ_self i)).1
      have htwo : 2 * t.entsize.toNat ≤ n * t.entsize.toNat := Nat.mul_le_mul_right _ (by omega)
      have := t.size.toNat_lt
      rw [symOff_succ]
      omega

theorem safe_scanSymbols : Safe (scanSymbols data t) ↔ SymbolsScannable data t := by
  unfold scanSymbols SymbolsScannable
  by_cases hguard : 0 < t.offset.toNat ∧ 0 < t.strOffset.toNat ∧ 0 < t.entsize.toNat
  · obtain ⟨hoff, hstr, hent⟩ := hguard
    have hn : 0 < t.size.toNat / t.entsize.toNat ↔ t.entsize.toNat ≤ t.size.toNat :=
      Nat.div_pos_iff.trans (by simp [hent])
    rw [if_pos ⟨hoff, hstr, hent⟩, Exec.div_eq hent.ne', ok_bind, safe_bind,
      safe_symbols (Nat.div_mul_le_self _ _), hn]
    simp [hoff, hstr, hent]
  · rw [if_neg hguard]
    exact ⟨fun _ h1 h2 h3 => absurd ⟨h1, h2, h3⟩ hguard, fun _ => safe_ok _⟩

end Symbols

/-! ## The whole scan -/

theorem scannable_unset : SymbolsScannable data SymTab.unset := fun h => absurd h (by decide)

/-- the table that the loop over the sections ends with -/
theorem sections_result {data : File} {eh : Elf64Ehdr} (hguard : secOff eh eh.eShnum.toNat ≤ data.len)
    (hfile : ∀ k < eh.eShnum.toNat, Reached data eh k → SectionInFile data eh k) :
    ∃ r, forRange (sectionTurn data eh) eh.eShnum.toNat 0 () = .ok r ∧
      (SymbolsScannable data (r.elim (fun _ => SymTab.unset) id) ↔
        ∀ k < eh.eShnum.toNat, Reached data eh k → secType data eh k = shtSymtab →
          SymbolsScannable data (symTabAt data eh k)) := by
  by_cases hex : ∃ k < eh.eShnum.toNat, Reached data eh k ∧ secType data eh k = shtSymtab
  · obtain ⟨k, hk, hreach, htype⟩ := hex
    have hpass := (reached_iff hguard (fun j hj => hfile j (by omega)) hk.le).2 hreach
    have hbreak := forRange_unit_break hk hpass
      ((sectionTurn_eq hk hguard (hfile k hk hreach)).trans (by rw [if_pos htype]))
    refine ⟨_, hbreak, fun h k' hk' hreach' htype' => ?_, fun h => h k hk hreach htype⟩
    -- only one section is reached and of this type
    rcases lt_trichotomy k' k with hlt | rfl | hlt
    · exact absurd htype' (hreach k' hlt)
    · exact h
    · exact absurd htype (hreach' k hlt)
  · push Not at hex
    have hpass : ∀ j < eh.eShnum.toNat, Reached data eh j := by
      intro j hj
      induction j with
      | zero => exact fun i hi => absurd hi (Nat.not_lt_zero i)
      | succ j ih =>
        intro i hi
        rcases Nat.lt_succ_iff_lt_or_eq.1 hi with hlt | rfl
        · exact ih (by omega) i hlt
        · exact hex i (by omega) (ih (by omega))
    have hall : Reached data eh eh.eShnum.toNat := fun j hj => hex j hj (hpass j hj)
    have hthrough := forRange_unit_iff.2 ((reached_iff hguard hfile le_rfl).2 hall)
    exact ⟨_, hthrough, fun _ k hk hreach htype => absurd htype (hex k hk hreach), fun _ => scannable_unset data⟩

/-- **When the scan returns.** -/
theorem safe_sinitScan : Safe (sinitScan data) ↔ (IsElf data → Scannable data) := by
  rw [sinitScan, parseElfHeader_eq]
  by_cases helf : IsElf data
  swap
  · simp [helf]
  rw [if_pos helf, Exec.attempt_ok, ok_bind]
  simp only [helf, forall_const, Scannable]
  set eh := ehdr data
  by_cases hguard : 0 < eh.eShoff.toNat ∧ 0 < eh.eShentsize.toNat ∧ 0 < eh.eShnum.toNat
  swap
  · rw [if_neg hguard]
    exact ⟨fun _ h1 h2 h3 => absurd ⟨h1, h2, h3⟩ hguard, fun _ => safe_ok _⟩
  obtain ⟨hoff, hent, hnum⟩ := hguard
  have hmul : eh.eShentsize.toNat * eh.eShnum.toNat < 2 ^ 64 := by
    have := eh.eShentsize.toNat_lt
    have := eh.eShnum.toNat_lt
    nlinarith
  have hend : eh.eShoff.toNat + eh.eShentsize.toNat * eh.eShnum.toNat = secOff eh eh.eShnum.toNat := by
    rw [secOff, Nat.mul_comm]
  rw [if_pos ⟨hoff, hent, hnum⟩, mul_eq hmul, ok_bind, safe_bind, safe_add, hend]
  simp only [hoff, hent, hnum, forall_const]
  refine and_congr_right fun hlt => ?_
  rw [← hend] at hlt
  rw [add_eq hlt, hend]
  simp only [Exec.ok.injEq, forall_eq']
  by_cases hin : secOff eh eh.eShnum.toNat ≤ data.len
  swap
  · rw [if_neg hin]
    exact ⟨fun _ h => absurd h hin, fun _ => safe_ok _⟩
  rw [if_pos hin, safe_bind, safe_sections hin]
  simp only [hin, forall_const]
  constructor
  · rintro ⟨hfile, hscan⟩ k hk hreach
    obtain ⟨r, hr, hiff⟩ := sections_result hin hfile
    exact ⟨hfile k hk hreach, hiff.1 (safe_scanSymbols.1 (hscan r hr)) k hk hreach⟩
  · intro h
    have hfile := fun k hk hreach => (h k hk hreach).1
    obtain ⟨r, hr, hiff⟩ := sections_result hin hfile
    refine ⟨hfile, fun r' hr' => ?_⟩
    cases hr.symm.trans hr'
    exact safe_scanSymbols.2 (hiff.2 fun k hk hreach => (h k hk hreach).2)

end SwiftCore.Elf
