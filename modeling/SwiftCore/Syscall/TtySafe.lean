/-
Arithmetic of the terminal's output (core/syscall/tty.rs).

Cursor, window and parameters are `u16`. Numbers in a sequence saturate, the buffers for digits and parameters are
long enough, and the cursor never leaves the window. The one sum with no bound is the tab stop,
`((col - 1) / 8 + 1) * 8 + 1`.

- `safe_step_iff`: a byte overflows only as a tab from column 65529 on.
- `output_safe_iff`: after any run of calls, all output is safe iff the window has at most 65528 columns.
- `tab_overflows`: a run that ends in a panic.
-/
import SwiftCore.Syscall.Tty

namespace SwiftCore.Syscall.Tty

open Checked
open Exec (add sub mul index slice add_eq ok_bind sub_eq)

/-! ## Arithmetic -/

section Arithmetic

variable {s t : TtyState}

/-- `n` has at most `i` digits, so the index stays inside the buffer -/
theorem safe_asciiLoop {fuel n i : ℕ} (hfuel : n < fuel) (hdigits : n < 10 ^ i) (hi : i ≤ 5) (digits : List UInt8) :
    Safe (asciiLoop fuel n i digits) := by
  induction fuel generalizing n i digits with
  | zero => exact absurd hfuel (Nat.not_lt_zero n)
  | succ fuel ih =>
    rw [asciiLoop]
    split_ifs with hn
    · exact safe_ok _
    obtain _ | i := i
    · rw [pow_zero] at hdigits
      exact absurd (Nat.lt_one_iff.1 hdigits) hn
    rw [sub_eq (Nat.le_add_left 1 i), ok_bind, Nat.add_sub_cancel, if_neg (by omega)]
    have htenth : n / 10 < 10 ^ i := by
      rw [pow_succ] at hdigits
      exact Nat.div_lt_of_lt_mul (by omega)
    exact ih (by omega) htenth (by omega) _

theorem safe_pushAsciiU16 {n : ℕ} (h : n < 65536) : Safe (pushAsciiU16 n) := by
  unfold pushAsciiU16
  split_ifs
  · exact safe_ok _
  · exact safe_asciiLoop (Nat.lt_succ_self n) (h.trans (by decide)) le_rfl []

/-- a number in text saturates -/
theorem returns_parseAsciiLoop (bytes : List UInt8) {value : ℕ} (h : value < 65536) :
    Returns (parseAsciiLoop bytes value) (· < 65536) := by
  induction bytes generalizing value with
  | nil => exact h
  | cons b bytes ih =>
    rw [parseAsciiLoop]
    split_ifs with hdigit
    · have hb : 48 ≤ b.toNat := UInt8.le_iff_toNat_le.1 (of_decide_eq_true hdigit).1
      rw [sub_eq hb, ok_bind]
      exact ih (Nat.lt_succ_of_le (min_le_right _ _))
    · exact returns_absent

theorem returns_parseAsciiU16 (bytes : List UInt8) : Returns (parseAsciiU16 bytes) (· < 65536) :=
  returns_parseAsciiLoop bytes (by decide)

/-- the turns of the loop end behind the sequence, and a part starts no later than it ends -/
theorem safe_csiLoop (seq : List UInt8) {n i partStart : ℕ} (hpart : partStart ≤ i) (hturns : i + n ≤ seq.length + 1)
    (params : List ℕ) : Safe (csiLoop seq n i partStart params) := by
  induction n generalizing i partStart params with
  | zero => exact safe_ok _
  | succ n ih =>
    rw [csiLoop]
    by_cases hfull : maxParams ≤ params.length
    · rw [if_pos hfull]
      exact safe_ok _
    rw [if_neg hfull, safe_bind]
    refine ⟨?_, ?_⟩
    · unfold byteOrEnd
      split_ifs with hlast
      · exact safe_ok _
      · rw [Exec.index_eq (by omega)]
        exact safe_ok _
    intro b _
    by_cases hsep : b = 59
    · rw [if_pos hsep]
      split_ifs
      · exact ih le_rfl (by omega) _
      rw [slice_eq hpart (by omega), ok_bind, safe_bind, safe_attempt]
      refine ⟨(returns_parseAsciiU16 _).ne_stop, ?_⟩
      rintro (_ | v) _
      · exact ih le_rfl (by omega) _
      · exact ih le_rfl (by omega) _
    · rw [if_neg hsep]
      exact ih (by omega) (by omega) _

theorem safe_csiParams (seq : List UInt8) : Safe (csiParams seq) := by
  have hstart : (if (csiPrivate seq).isSome then 1 else 0) ≤ seq.length := by
    cases seq with
    | nil => exact le_rfl
    | cons b seq =>
      split_ifs
      · exact Nat.le_add_left 1 _
      · exact Nat.zero_le _
  exact safe_csiLoop seq le_rfl (by omega) []

theorem returns_parseDecrqmMode (seq : List UInt8) : Returns (parseDecrqmMode seq) (· < 65536) := by
  unfold parseDecrqmMode
  split_ifs with hform
  · exact returns_absent
  have hlen : 3 ≤ seq.length := by
    by_contra hshort
    exact hform (.inl (by omega))
  rw [sub_eq (by omega), ok_bind, slice_eq (by omega) (by omega)]
  exact returns_parseAsciiU16 _

/-- a terminal as the calls leave it -/
structure Valid (s : TtyState) : Prop where
  inside : InWindow s
  wsRow : s.wsRow < 65536
  wsCol : s.wsCol < 65536
  len : s.outCsiLen ≤ outCsiMaxSeq

theorem Stays.valid (h : Stays s t) (hs : Valid s) : Valid t :=
  ⟨h.inside, h.wsRow.trans_lt hs.wsRow, h.wsCol.trans_lt hs.wsCol, h.len hs.len⟩

theorem Valid.cursorRow_lt (h : Valid s) : s.cursorRow < 65536 :=
  h.inside.row.2.trans_lt (max_lt h.wsRow (by decide))

theorem Valid.cursorCol_lt (h : Valid s) : s.cursorCol < 65536 :=
  h.inside.col.2.trans_lt (max_lt h.wsCol (by decide))

theorem safe_statusReply (h : Valid s) (priv : Option UInt8) (params : List ℕ) : Safe (statusReply s priv params) := by
  refine safe_ite (safe_ok _) (safe_ite ?_ (safe_ok _))
  refine safe_bind.2 ⟨safe_pushAsciiU16 (max_lt h.cursorRow_lt (by decide)), fun row _ => ?_⟩
  exact safe_bind.2 ⟨safe_pushAsciiU16 (max_lt h.cursorCol_lt (by decide)), fun col _ => safe_ok _⟩

theorem safe_modeReply (priv : Option UInt8) (seq : List UInt8) : Safe (modeReply priv seq) := by
  unfold modeReply
  split_ifs
  · have hmode := returns_parseDecrqmMode seq
    refine safe_bind.2 ⟨safe_attempt.2 hmode.ne_stop, ?_⟩
    rintro (_ | mode) hsome
    · exact safe_ok _
    · have hlt : mode < 65536 := hmode.attempt.of_ok hsome mode rfl
      exact safe_bind.2 ⟨safe_pushAsciiU16 hlt, fun digits _ => safe_ok _⟩
  · exact safe_ok _

theorem safe_handleOutputCsi (h : Valid s) (b : UInt8) : Safe (handleOutputCsi s b) := by
  have hlen : s.outCsiLen ≤ s.outCsiSeq.toList.length := by
    rw [Vector.length_toList]
    exact h.len
  refine safe_bind.2 ⟨safe_slice.2 ⟨Nat.zero_le _, hlen⟩, fun seq _ => ?_⟩
  refine safe_bind.2 ⟨safe_csiParams seq, fun params _ => ?_⟩
  have reply {x : Exec (List UInt8)} (hx : Safe x) : Safe (x >>= fun r => (pure (s, r) : Exec _)) :=
    safe_bind.2 ⟨hx, fun r _ => safe_ok _⟩
  -- A, B, C, D, H and f, G, d, J, then the three that answer
  refine safe_ite (safe_ok _) (safe_ite (safe_ok _) (safe_ite (safe_ok _) (safe_ite (safe_ok _) ?_)))
  refine safe_ite (safe_ok _) (safe_ite (safe_ok _) (safe_ite (safe_ok _) (safe_ite (safe_ok _) ?_)))
  refine safe_ite (reply (safe_statusReply h _ params)) (safe_ite (safe_ok _) ?_)
  exact safe_ite (reply (safe_modeReply _ seq)) (safe_ok _)

theorem safe_csiByte (h : Valid s) (b : UInt8) : Safe (csiByte s b) := by
  have hcsi : Safe (handleOutputCsi s b) := safe_handleOutputCsi h b
  unfold csiByte
  refine safe_ite ?_ (safe_ite (safe_bind.2 ⟨hcsi, fun _ _ => safe_ok _⟩) (safe_ok _))
  split_ifs with hroom
  · have hlt : s.outCsiLen + 1 < 2 ^ 64 := (Nat.succ_le_of_lt hroom).trans_lt (by decide)
    exact safe_bind.2 ⟨safe_add.2 hlt, fun _ _ => safe_ok _⟩
  · exact safe_ok _

/-- the last tab stop a `u16` holds is 65529, and it is reached from 65528 at most -/
theorem safe_nextTab_iff : Safe (nextTab s) ↔ s.cursorCol ≤ 65528 := by
  unfold nextTab
  by_cases hcol : s.cursorCol ≤ 65528
  · have hmul : ((s.cursorCol - 1) / 8 + 1) * 8 < 2 ^ 16 := by omega
    rw [add_eq (by omega), ok_bind, Exec.mul_eq hmul, ok_bind, add_eq (by omega)]
    exact iff_of_true (safe_ok _) hcol
  · refine iff_of_false (fun hsafe => ?_) hcol
    obtain ⟨hadd, hrest⟩ := safe_bind.1 hsafe
    have hmul := (safe_bind.1 (hrest _ (add_eq (safe_add.1 hadd)))).1
    rw [mul, if_neg (by omega)] at hmul
    exact not_safe_stop _ hmul

theorem safe_plainByte_iff (h : Valid s) (b : UInt8) : Safe (plainByte s b) ↔ ¬ (b = 9 ∧ 65528 < s.cursorCol) := by
  have hrow := h.cursorRow_lt
  have hcol := h.cursorCol_lt
  have hrows : s.rows < 65536 := max_lt h.wsRow (by decide)
  have hcols : s.cols < 65536 := max_lt h.wsCol (by decide)
  by_cases htab : b = 9
  · subst htab
    have hplain : plainByte s 9 = nextTab s >>= fun next => pure { s with cursorCol := min next s.cols } := rfl
    rw [hplain, safe_bind, safe_nextTab_iff]
    refine ⟨fun hsafe hlate => absurd hlate.2 (not_lt.2 hsafe.1), fun hearly => ⟨?_, fun _ _ => safe_ok _⟩⟩
    exact not_lt.1 fun hlate => hearly ⟨rfl, hlate⟩
  · refine iff_of_true ?_ fun hlate => htab hlate.1
    have next {a m : ℕ} (hlt : a < m) (hm : m < 65536) : Safe (add 16 a 1) := safe_add.2 (by omega)
    unfold plainByte
    rw [if_neg htab]
    refine safe_ite (safe_ok _) (safe_ite (safe_ok _) (safe_ite ?_ (safe_ite ?_ (safe_ite ?_ (safe_ok _)))))
    · split_ifs with hroom
      · exact safe_bind.2 ⟨next hroom hrows, fun _ _ => safe_ok _⟩
      · exact safe_ok _
    · split_ifs with hroom
      · rw [sub_eq hroom.le]
        exact safe_ok _
      · exact safe_ok _
    · split_ifs with hwrap hroom
      · exact safe_bind.2 ⟨next hroom hrows, fun _ _ => safe_ok _⟩
      · exact safe_ok _
      · exact safe_bind.2 ⟨next (not_le.1 hwrap) hcols, fun _ _ => safe_ok _⟩

/-- a tab in the text, from a column behind the last one with a tab stop -/
def TabTooLate (s : TtyState) (b : UInt8) : Prop :=
  s.outCsiMode = false ∧ s.outEscPending = false ∧ b = 9 ∧ 65528 < s.cursorCol

theorem safe_step_iff (h : Valid s) (b : UInt8) : Safe (step s b) ↔ ¬ TabTooLate s b := by
  unfold step TabTooLate
  cases hcsi : s.outCsiMode with
  | true => exact iff_of_true (safe_csiByte h b) fun hlate => (nomatch hlate.1)
  | false =>
    cases hesc : s.outEscPending with
    | true => exact iff_of_true (safe_ok _) fun hlate => (nomatch hlate.2.1)
    | false =>
      have hplain : Safe (plainByte s b >>= fun t => (pure (t, []) : Exec (TtyState × List UInt8))) ↔
          Safe (plainByte s b) := safe_bind.trans (and_iff_left fun _ _ => safe_ok _)
      exact hplain.trans ((safe_plainByte_iff h b).trans (by simp))

end Arithmetic

/-! ## Runs -/

/-- the terminals that calls lead to from the first one; the queue is whatever reading and typing left -/
inductive Reachable : TtyState → Prop where
  | new : Reachable .new
  | output {s : TtyState} {c : Console} (queue bytes : List UInt8) (h : Reachable s)
      (hok : processOutput ⟨s, queue⟩ bytes = .ok c) : Reachable c.state
  | setWinsize {s : TtyState} (row col xpixel ypixel : UInt16) (h : Reachable s) :
      Reachable (s.setWinsize row col xpixel ypixel)

section Runs

variable {s t : TtyState}

theorem valid_setWinsize (h : Valid s) (row col xpixel ypixel : UInt16) :
    Valid (s.setWinsize row col xpixel ypixel) := by
  have hrow : (if row ≠ 0 then row.toNat else s.wsRow) < 65536 := by
    split_ifs
    · exact row.toNat_lt
    · exact h.wsRow
  have hcol : (if col ≠ 0 then col.toNat else s.wsCol) < 65536 := by
    split_ifs
    · exact col.toNat_lt
    · exact h.wsCol
  exact ⟨clampCursor_window _, hrow, hcol, h.len⟩

theorem stays_processOutput {c c' : Console} (h : InWindow c.state) {bytes : List UInt8}
    (hok : processOutput c bytes = .ok c') : Stays c.state c'.state := by
  rw [processOutput_eq h] at hok
  obtain ⟨r, hsteps, hok⟩ := Exec.bind_eq_ok.1 hok
  cases hok
  exact steps_window h hsteps

theorem Reachable.valid (h : Reachable s) : Valid s := by
  induction h with
  | new => exact ⟨⟨by decide, by decide⟩, by decide, by decide, by decide⟩
  | output queue bytes _ hok ih => exact (stays_processOutput ih.inside hok).valid ih
  | setWinsize row col xpixel ypixel _ ih => exact valid_setWinsize ih row col xpixel ypixel

/-- up to 65528 columns no tab is too late -/
theorem safe_steps (h : Valid s) (hcols : s.wsCol ≤ 65528) (replies bytes : List UInt8) :
    Safe (steps (s, replies) bytes) := by
  induction bytes generalizing s replies with
  | nil => exact safe_ok _
  | cons b bytes ih =>
    have hearly : ¬ TabTooLate s b := by
      intro hlate
      have hcol : s.cursorCol ≤ max s.wsCol 1 := h.inside.col.2
      have hlast := hlate.2.2.2
      omega
    refine safe_bind.2 ⟨(safe_step_iff h b).2 hearly, ?_⟩
    rintro ⟨u, more⟩ hstep
    have hstays := step_window h.inside hstep
    exact ih (hstays.valid h) (hstays.wsCol.trans_le hcols) _

theorem safe_processOutput_iff {c : Console} (h : InWindow c.state) (bytes : List UInt8) :
    Safe (processOutput c bytes) ↔ Safe (steps (c.state, []) bytes) := by
  rw [processOutput_eq h, safe_bind]
  exact and_iff_left fun _ _ => safe_ok _

/-! ### A late tab in a wide window -/

/-- the terminal is inside a control sequence with the parameter bytes `seq` -/
structure Collects (s : TtyState) (seq : List UInt8) : Prop where
  mode : s.outCsiMode = true
  len : s.outCsiLen = seq.length
  bytes : s.outCsiSeq.toList.take seq.length = seq

theorem csiByte_param {seq : List UInt8} {b : UInt8} (h : Collects s seq) (hroom : seq.length < outCsiMaxSeq)
    (hb : 0x20 ≤ b ∧ b ≤ 0x3F) :
    ∃ t, step s b = .ok (t, []) ∧ Collects t (seq ++ [b]) ∧
      t = { s with outCsiSeq := t.outCsiSeq, outCsiLen := t.outCsiLen } := by
  have hlt : s.outCsiLen + 1 < 2 ^ 64 := by
    rw [h.len]
    exact (Nat.succ_le_of_lt hroom).trans_lt (by decide)
  refine ⟨{ s with outCsiSeq := s.outCsiSeq.setIfInBounds s.outCsiLen b, outCsiLen := s.outCsiLen + 1 }, ?_, ?_, rfl⟩
  · rw [step, if_pos h.mode, csiByte, if_pos hb, if_pos (h.len.trans_lt hroom), add_eq hlt]
    rfl
  · refine ⟨h.mode, ?_, ?_⟩
    · change s.outCsiLen + 1 = _
      rw [h.len, List.length_append, List.length_singleton]
    · have hin : seq.length < s.outCsiSeq.toList.length := by
        rw [Vector.length_toList]
        exact hroom
      change (s.outCsiSeq.setIfInBounds s.outCsiLen b).toList.take _ = _
      rw [Vector.toList_setIfInBounds, h.len, List.length_append, List.length_singleton, List.take_add_one,
        List.take_set_of_le le_rfl, h.bytes, List.getElem?_set_self hin]
      rfl

theorem steps_params {seq : List UInt8} (h : Collects s seq) (replies params : List UInt8)
    (hroom : seq.length + params.length ≤ outCsiMaxSeq) (hparams : ∀ b ∈ params, 0x20 ≤ b ∧ b ≤ 0x3F) :
    ∃ t, steps (s, replies) params = .ok (t, replies) ∧ Collects t (seq ++ params) ∧
      t = { s with outCsiSeq := t.outCsiSeq, outCsiLen := t.outCsiLen } := by
  induction params generalizing s seq with
  | nil => exact ⟨s, rfl, by rwa [List.append_nil], rfl⟩
  | cons b params ih =>
    rw [List.length_cons] at hroom
    obtain ⟨t, hstep, ht, hst⟩ := csiByte_param h (by omega) (hparams b List.mem_cons_self)
    have hroom' : (seq ++ [b]).length + params.length ≤ outCsiMaxSeq := by
      rw [List.length_append, List.length_singleton]
      omega
    obtain ⟨u, hsteps, hu, htu⟩ := ih ht hroom' fun x hx => hparams x (List.mem_cons_of_mem b hx)
    refine ⟨u, ?_, ?_, ?_⟩
    · rw [steps, hstep, ok_bind]
      change steps (t, replies ++ []) params = _
      rw [List.append_nil]
      exact hsteps
    · rwa [List.append_assoc] at hu
    · rw [htu, hst]

/-- two bytes 0 end whatever sequence is open -/
theorem steps_reset (s : TtyState) :
    steps (s, []) [0, 0] = .ok ({ s with
      outEscPending := false, outCsiMode := false, outCsiLen := if s.outCsiMode then 0 else s.outCsiLen }, []) := by
  obtain ⟨wsRow, wsCol, wsXpixel, wsYpixel, outEscPending, outCsiMode, outCsiSeq, outCsiLen, cursorRow, cursorCol⟩ := s
  cases outCsiMode with
  | false =>
    cases outEscPending with
    | false => rfl
    | true => rfl
  | true =>
    cases outEscPending with
    | false => rfl
    | true => rfl

/-- `65529` as text -/
def lateColumn : List UInt8 := [54, 53, 53, 50, 57]

/-- go to column 65529, then tab -/
def lateTab : List UInt8 := [0, 0] ++ [0x1b, 91] ++ lateColumn ++ [71, 9]

/-- the column that the sequence `65529 G` sets -/
theorem step_lateColumn (h : Collects s lateColumn) (hcols : 65529 ≤ s.wsCol) :
    ∃ t, step s 71 = .ok (t, []) ∧ t.outCsiMode = false ∧ t.outEscPending = s.outEscPending ∧ t.cursorCol = 65529 := by
  have hlen : s.outCsiLen ≤ s.outCsiSeq.toList.length := by
    rw [Vector.length_toList, h.len]
    decide
  have hseq : slice s.outCsiSeq.toList 0 s.outCsiLen = .ok lateColumn := by
    rw [slice_eq (Nat.zero_le _) hlen, h.len]
    exact congrArg Exec.ok h.bytes
  have hparams : csiParams lateColumn = .ok [65529] := by decide +kernel
  have hcsi : handleOutputCsi s 71 = .ok ({ s with cursorCol := 65529 }.clampCursor, []) := by
    rw [handleOutputCsi, hseq, ok_bind, hparams]
    rfl
  have hwide : ¬ s.cols < 65529 := not_lt.2 (hcols.trans (le_max_left _ _))
  refine ⟨{ s with cursorCol := 65529 }.clampCursor.endCsi, ?_, rfl, rfl, if_neg hwide⟩
  rw [step, if_pos h.mode, csiByte, if_neg (by decide), if_pos (by decide), hcsi]
  rfl

/-- in a window of more columns a late tab can be written at any time -/
theorem lateTab_stops (h : Valid s) (hcols : 65529 ≤ s.wsCol) : ¬ Safe (steps (s, []) lateTab) := by
  -- `s₁` is outside every sequence, `s₂` behind the start of one, `s₃` behind its parameter
  obtain ⟨s₁, hs₁⟩ : ∃ s₁, s₁ = ({ s with
      outEscPending := false, outCsiMode := false, outCsiLen := if s.outCsiMode then 0 else s.outCsiLen }) := ⟨_, rfl⟩
  obtain ⟨s₂, hs₂⟩ : ∃ s₂, s₂ = ({ s₁ with outEscPending := false, outCsiMode := true, outCsiLen := 0 }) := ⟨_, rfl⟩
  have hreset : steps (s, []) [0, 0] = .ok (s₁, []) := by
    rw [hs₁]
    exact steps_reset s
  have hopen : steps (s₁, []) [0x1b, 91] = .ok (s₂, []) := by
    rw [hs₂, hs₁]
    rfl
  have hcollects : Collects s₂ [] := by
    rw [hs₂]
    exact ⟨rfl, rfl, rfl⟩
  obtain ⟨s₃, hsteps, hs₃, hs₂₃⟩ := steps_params hcollects [] lateColumn (by decide) (by decide +kernel)
  have hwide : 65529 ≤ s₃.wsCol := by
    rw [hs₂₃, hs₂, hs₁]
    exact hcols
  have hesc : s₃.outEscPending = false := by
    rw [hs₂₃, hs₂]
  obtain ⟨s₄, hcolumn, hmode, hpending, hcol⟩ := step_lateColumn hs₃ hwide
  have hall : steps (s, []) ([0, 0] ++ [0x1b, 91] ++ lateColumn ++ [71]) = .ok (s₄, []) := by
    rw [steps_append, steps_append, steps_append, hreset, ok_bind, hopen, ok_bind, hsteps, ok_bind,
      steps, hcolumn]
    rfl
  have hvalid : Valid s₄ := (steps_window h.inside hall).valid h
  have hlate : TabTooLate s₄ 9 := ⟨hmode, hpending.trans hesc, rfl, by omega⟩
  have hcut : lateTab = [0, 0] ++ [0x1b, 91] ++ lateColumn ++ [71] ++ [9] := rfl
  rw [hcut, steps_append, hall, ok_bind, steps, safe_bind]
  exact fun hsafe => (safe_step_iff hvalid 9).1 hsafe.1 hlate

/-- no output panics or takes the cursor out of the window, byte by byte -/
def OutputSafe (s : TtyState) : Prop :=
  ∀ queue bytes, Safe (processOutput ⟨s, queue⟩ bytes) ∧
    ∀ n r, steps (s, []) (bytes.take n) = .ok r → InWindow r.1

/-- **Output is safe.** At every terminal that calls lead to, a byte overflows exactly as a tab in the text behind
column 65528, and otherwise leaves the cursor inside. All output is safe exactly with at most 65528 columns. -/
theorem output_safe_iff (h : Reachable s) :
    (∀ b, (Safe (step s b) ↔ ¬ TabTooLate s b) ∧ ∀ r, step s b = .ok r → InWindow r.1) ∧
      (OutputSafe s ↔ s.wsCol ≤ 65528) := by
  have hvalid := h.valid
  refine ⟨fun b => ⟨safe_step_iff hvalid b, fun r hok => (step_window hvalid.inside hok).inside⟩, ?_, ?_⟩
  · intro hsafe
    by_contra hwide
    have hlate := (safe_processOutput_iff (c := ⟨s, []⟩) hvalid.inside lateTab).1 (hsafe [] lateTab).1
    exact lateTab_stops hvalid (by omega) hlate
  · intro hcols queue bytes
    refine ⟨(safe_processOutput_iff (c := ⟨s, queue⟩) hvalid.inside bytes).2 (safe_steps hvalid hcols [] bytes), ?_⟩
    intro n r hok
    exact (steps_window hvalid.inside hok).inside

theorem new_output_safe : Reachable TtyState.new ∧ OutputSafe TtyState.new :=
  ⟨.new, (output_safe_iff .new).2.2 (by decide)⟩

/-- **A panic.** a window of 65535 columns, the cursor sent to column 65529, a tab -/
theorem tab_overflows :
    Reachable (TtyState.new.setWinsize 24 65535 0 0) ∧
      processOutput ⟨TtyState.new.setWinsize 24 65535 0 0, []⟩ [0x1b, 91, 54, 53, 53, 50, 57, 71, 9] =
        .stop .overflow :=
  ⟨.setWinsize 24 65535 0 0 .new, by decide +kernel⟩

end Runs

end SwiftCore.Syscall.Tty
