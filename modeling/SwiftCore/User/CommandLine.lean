/-
How the shell cuts a line into arguments (services/shell/src/char.rs: parse_command_line).

The loop goes over the bytes of the line with the token it collects and the quote that is open. A token ends at a blank
if it is not empty, and each byte is pushed as a character of its own.
- `scan_line`: what the loop does with the parts of a line, by induction on them.
- `quoting_iff`: quoted words come back iff none is empty; parts that touch are one token iff no token is empty or has a
  byte outside ASCII.
- `quoting_lost`: `''` is no token, and `é` comes out as other text.
-/
import Mathlib.Tactic

namespace SwiftCore.User.CommandLine

/-! ## Model -/

/-- the variables of the loop; a string is the list of its bytes -/
structure Scan where
  tokens : List (List UInt8)
  current : List UInt8
  quote : Option UInt8

/-- the bytes that `push(b as char)` adds to a string -/
def pushed (b : UInt8) : List UInt8 := String.utf8EncodeChar (Char.ofNat b.toNat)

/-- `if !current.is_empty()`: the token is complete -/
def Scan.flush (s : Scan) : Scan :=
  if s.current = [] then s else { s with tokens := s.tokens ++ [s.current], current := [] }

/-- one turn of the loop -/
def Scan.turn (s : Scan) (b : UInt8) : Scan :=
  match s.quote with
  | some q => if b = q then { s with quote := none } else { s with current := s.current ++ pushed b }
  | none =>
    if b = 0x22 ∨ b = 0x27 then { s with quote := some b }
    else if b = 0x20 ∨ b = 0x09 then s.flush
    else { s with current := s.current ++ pushed b }

def parseCommandLine (line : List UInt8) : List (List UInt8) := (line.foldl Scan.turn ⟨[], [], none⟩).flush.tokens

/-! ## Lines by their parts -/

/-- a line by its parts: blanks, unquoted bytes, quoted texts; the last quotation may lack its end -/
inductive Line
  | done
  | unclosed (q : UInt8) (text : List UInt8) (h : (q = 0x22 ∨ q = 0x27) ∧ q ∉ text)
  | blank (b : UInt8) (h : b = 0x20 ∨ b = 0x09) (rest : Line)
  | plain (b : UInt8) (h : ¬ (b = 0x22 ∨ b = 0x27) ∧ ¬ (b = 0x20 ∨ b = 0x09)) (rest : Line)
  | quoted (q : UInt8) (text : List UInt8) (h : (q = 0x22 ∨ q = 0x27) ∧ q ∉ text) (rest : Line)

def Line.bytes : Line → List UInt8
  | .done => []
  | .unclosed q text _ => q :: text
  | .blank b _ rest | .plain b _ rest => b :: rest.bytes
  | .quoted q text _ rest => q :: (text ++ q :: rest.bytes)

/-- what stands between two blanks is one token; `word` is the part of it that has been read -/
def Line.tokens : Option (List UInt8) → Line → List (List UInt8)
  | word, .done => word.toList
  | word, .unclosed _ text _ => [word.getD [] ++ text]
  | word, .blank _ _ rest => word.toList ++ rest.tokens none
  | word, .plain b _ rest => rest.tokens (some (word.getD [] ++ [b]))
  | word, .quoted _ text _ rest => rest.tokens (some (word.getD [] ++ text))

theorem exists_line : ∀ line : List UInt8, ∃ l : Line, l.bytes = line
  | [] => ⟨.done, rfl⟩
  | b :: line => by
    by_cases hq : b = 0x22 ∨ b = 0x27
    · by_cases hend : b ∈ line
      · obtain ⟨text, rest, rfl, htext⟩ := List.eq_append_cons_of_mem hend
        obtain ⟨l, hl⟩ := exists_line rest
        exact ⟨.quoted b text ⟨hq, htext⟩ l, by rw [Line.bytes, hl]⟩
      · exact ⟨.unclosed b line ⟨hq, hend⟩, rfl⟩
    · obtain ⟨l, hl⟩ := exists_line line
      by_cases hb : b = 0x20 ∨ b = 0x09
      · exact ⟨.blank b hb l, by rw [Line.bytes, hl]⟩
      · exact ⟨.plain b ⟨hq, hb⟩ l, by rw [Line.bytes, hl]⟩
termination_by line => line.length
decreasing_by all_goals simp_all <;> omega

/-! ## Bytes as characters -/

theorem length_pushed (b : UInt8) : (pushed b).length = if b < 0x80 then 1 else 2 := by
  have h : ∀ n < 256, (pushed (UInt8.ofNat n)).length = if UInt8.ofNat n < 0x80 then 1 else 2 := by decide +kernel
  simpa using h b.toNat b.toNat_lt

theorem pushed_of_lt {b : UInt8} (hb : b < 0x80) : pushed b = [b] := by
  have h : ∀ n < 128, pushed (UInt8.ofNat n) = [UInt8.ofNat n] := by decide +kernel
  simpa using h b.toNat hb

theorem length_flatMap_pushed (t : List UInt8) :
    (t.flatMap pushed).length = t.length + t.countP fun b => ¬ b < 0x80 := by
  induction t with
  | nil => rfl
  | cons b t ih =>
    rw [List.flatMap_cons, List.length_append, List.length_cons, List.countP_cons, ih, length_pushed]
    split_ifs <;> simp_all <;> omega

theorem flatMap_pushed_eq_nil {t : List UInt8} : t.flatMap pushed = [] ↔ t = [] := by
  rw [← List.length_eq_zero_iff, length_flatMap_pushed, ← List.length_eq_zero_iff]
  have := t.countP_le_length (p := fun b => ¬ b < 0x80)
  omega

/-- a text comes out as it went in if and only if it is ASCII -/
theorem flatMap_pushed_eq_self {t : List UInt8} : t.flatMap pushed = t ↔ ∀ b ∈ t, b < 0x80 := by
  constructor
  · intro h
    have hlength := length_flatMap_pushed t
    rw [h] at hlength
    simpa using List.countP_eq_zero.1 (show t.countP (fun b => ¬ b < 0x80) = 0 by omega)
  · intro h
    rw [List.flatMap_congr fun b hb => pushed_of_lt (h b hb), List.flatMap_singleton']

/-! ## The loop -/

/-- the bytes of the tokens that the loop keeps -/
def kept (ts : List (List UInt8)) : List (List UInt8) := (ts.filter (· ≠ [])).map (·.flatMap pushed)

theorem flush_word (toks : List (List UInt8)) (word : Option (List UInt8)) (quote : Option UInt8) :
    Scan.flush ⟨toks, (word.getD []).flatMap pushed, quote⟩ = ⟨toks ++ kept word.toList, [], quote⟩ := by
  cases word with
  | none => simp [Scan.flush, kept]
  | some w =>
    unfold Scan.flush
    split_ifs with hw
    · obtain rfl := flatMap_pushed_eq_nil.1 hw
      simp [kept]
    · have hne : w ≠ [] := mt flatMap_pushed_eq_nil.2 hw
      simp [kept, hne]

/-- inside quotes every byte belongs to the token -/
theorem scan_quoted (toks : List (List UInt8)) (cur : List UInt8) {q : UInt8} {text : List UInt8} (hq : q ∉ text) :
    text.foldl Scan.turn ⟨toks, cur, some q⟩ = ⟨toks, cur ++ text.flatMap pushed, some q⟩ := by
  induction text generalizing cur with
  | nil => simp
  | cons b text ih =>
    obtain ⟨hb, hq⟩ := List.ne_and_not_mem_of_not_mem_cons hq
    rw [List.foldl_cons, Scan.turn]
    dsimp only
    rw [if_neg hb.symm, ih _ hq, List.flatMap_cons, List.append_assoc]

/-- **The loop**, by induction on the parts of the line. -/
theorem scan_line (l : Line) (toks : List (List UInt8)) (word : Option (List UInt8)) :
    (l.bytes.foldl Scan.turn ⟨toks, (word.getD []).flatMap pushed, none⟩).flush.tokens =
      toks ++ kept (l.tokens word) := by
  induction l generalizing toks word with
  | done => exact congrArg Scan.tokens (flush_word toks word none)
  | unclosed q text h =>
    have := congrArg Scan.tokens (flush_word toks (some (word.getD [] ++ text)) (some q))
    simpa [Line.bytes, Scan.turn, h.1, scan_quoted _ _ h.2, Line.tokens] using this
  | blank b h rest ih =>
    have hb : ¬ (b = 0x22 ∨ b = 0x27) := by rcases h with rfl | rfl <;> decide
    have := ih (toks ++ kept word.toList) none
    simpa [Line.bytes, Scan.turn, hb, h, flush_word, Line.tokens, kept] using this
  | plain b h rest ih =>
    have := ih toks (some (word.getD [] ++ [b]))
    simpa [Line.bytes, Scan.turn, h.1, h.2, Line.tokens] using this
  | quoted q text h rest ih =>
    have := ih toks (some (word.getD [] ++ text))
    simpa [Line.bytes, Scan.turn, h.1, scan_quoted _ _ h.2, Line.tokens] using this

/-- **The tokens of a line** are what stands between its blanks, if and only if that is never empty and ASCII. -/
theorem parse_iff (l : Line) :
    parseCommandLine l.bytes = l.tokens none ↔ ∀ t ∈ l.tokens none, t ≠ [] ∧ ∀ b ∈ t, b < 0x80 := by
  have hscan : parseCommandLine l.bytes = kept (l.tokens none) := scan_line l [] none
  rw [hscan, kept]
  generalize l.tokens none = ts
  constructor
  · intro h
    have hall : ts.filter (· ≠ []) = ts :=
      List.filter_eq_self.2 (List.length_filter_eq_length_iff.1 (by simpa using congrArg List.length h))
    rw [hall] at h
    intro t ht
    exact ⟨by simpa using List.filter_eq_self.1 hall t ht,
      flatMap_pushed_eq_self.1 (List.map_inj_left.1 (h.trans (List.map_id ts).symm) t ht)⟩
  · intro h
    rw [List.filter_eq_self.2 fun t ht => by simpa using (h t ht).1]
    exact (List.map_congr_left fun t ht => flatMap_pushed_eq_self.2 (h t ht).2).trans (List.map_id ts)

/-! ## Quoted words -/

/-- a printable ASCII string without a single quote -/
abbrev Word := { s : List UInt8 // ∀ b ∈ s, b ≠ 0x27 ∧ 0x20 ≤ b ∧ b < 0x7f }

/-- words in single quotes, joined by blanks -/
def quoteAll : List Word → Line
  | [] => .done
  | w :: ws => .quoted 0x27 w.1 ⟨.inr rfl, fun h => (w.2 _ h).1 rfl⟩ (match ws with
    | [] => .done
    | _ :: _ => .blank 0x20 (.inl rfl) (quoteAll ws))

theorem tokens_quoteAll : ∀ ws : List Word, (quoteAll ws).tokens none = ws.map Subtype.val
  | [] | [_] => rfl
  | w :: v :: ws => congrArg (w.1 :: ·) (tokens_quoteAll (v :: ws))

/-- **Quoting round trip.** Words in single quotes come back if and only if none of them is empty. Every line is composed
of blanks, quoted and unquoted parts; those without a blank between them are one token, their concatenation, if and only
if no token of the line is empty or has a byte outside ASCII. -/
theorem quoting_iff (ws : List Word) (line : List UInt8) (l : Line) :
    (parseCommandLine (quoteAll ws).bytes = ws.map Subtype.val ↔ ∀ w ∈ ws, w.1 ≠ []) ∧
      (∃ l : Line, l.bytes = line) ∧ (parseCommandLine l.bytes = l.tokens none ↔
        ∀ t ∈ l.tokens none, t ≠ [] ∧ ∀ b ∈ t, b < 0x80) := by
  refine ⟨?_, exists_line line, parse_iff l⟩
  rw [← tokens_quoteAll, parse_iff, tokens_quoteAll, List.forall_mem_map]
  refine forall₂_congr fun w _ => and_iff_left fun b hb => ?_
  exact UInt8.lt_trans (w.2 b hb).2.2 (by decide)

/-- `''` is no token, and of `é` each byte becomes a character -/
theorem quoting_lost : parseCommandLine (quoteAll [⟨[], by simp⟩]).bytes = [] ∧
    parseCommandLine [0xc3, 0xa9] = [[0xc3, 0x83, 0xc2, 0xa9]] := by
  decide +kernel

end SwiftCore.User.CommandLine
