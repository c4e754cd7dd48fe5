/-
The output side of the terminal (core/syscall/tty.rs: `process_output` and what it calls, `set_winsize`).

Every byte written to the terminal moves the cursor or is part of an escape sequence. The parser's state, the cursor and
the window are kept between calls; replies to queries are collected during a call and go to the input queue at its end.
All numbers are `u16` with checked arithmetic (`Checked.Exec`).

- `step_window`: a byte leaves the cursor inside the window.
- `processOutput_append`: output may be cut into calls anywhere.
-/
import SwiftCore.Lib.Checked

namespace SwiftCore.Syscall.Tty

open Checked
open Exec (add sub mul index slice attempt bind_bind bind_eq_ok eq_of_add_ok)

/-! ## Model -/

def outCsiMaxSeq : ℕ := 32

/-- the fields of `TtyState` that output and `set_winsize` read or write -/
structure TtyState where
  wsRow : ℕ
  wsCol : ℕ
  wsXpixel : ℕ
  wsYpixel : ℕ
  outEscPending : Bool
  outCsiMode : Bool
  outCsiSeq : Vector UInt8 32
  outCsiLen : ℕ
  cursorRow : ℕ
  cursorCol : ℕ
deriving DecidableEq

namespace TtyState

def new : TtyState := ⟨24, 80, 0, 0, false, false, Vector.replicate 32 0, 0, 1, 1⟩

variable (s : TtyState)

def rows : ℕ := max s.wsRow 1

def cols : ℕ := max s.wsCol 1

def clampCursor : TtyState :=
  { s with
    cursorRow := if s.cursorRow = 0 then 1 else if s.rows < s.cursorRow then s.rows else s.cursorRow
    cursorCol := if s.cursorCol = 0 then 1 else if s.cols < s.cursorCol then s.cols else s.cursorCol }

def setWinsize (row col xpixel ypixel : UInt16) : TtyState :=
  clampCursor
    { s with
      wsRow := if row ≠ 0 then row.toNat else s.wsRow
      wsCol := if col ≠ 0 then col.toNat else s.wsCol
      wsXpixel := xpixel.toNat
      wsYpixel := ypixel.toNat }

end TtyState

/-- `u16::MAX` -/
def u16Max : ℕ := 65535

def saturatingAdd (a b : ℕ) : ℕ := min (a + b) u16Max

def saturatingMul (a b : ℕ) : ℕ := min (a * b) u16Max

/-! ### Numbers in text -/

/-- the digit loop of `push_ascii_u16`: `i` is the index in the buffer of 5 bytes, `digits` what is behind it -/
def asciiLoop : ℕ → ℕ → ℕ → List UInt8 → Exec (List UInt8)
  | 0, _, _, _ => .stop .fuel
  | fuel + 1, n, i, digits =>
    if n = 0 then .ok digits
    else do
      let i ← sub i 1
      if 5 ≤ i then .stop .bounds else asciiLoop fuel (n / 10) i (UInt8.ofNat (48 + n % 10) :: digits)

def pushAsciiU16 (n : ℕ) : Exec (List UInt8) := if n = 0 then .ok [48] else asciiLoop (n + 1) n 5 []

def isAsciiDigit (b : UInt8) : Bool := 48 ≤ b ∧ b ≤ 57

def parseAsciiLoop : List UInt8 → ℕ → Exec ℕ
  | [], value => .ok value
  | b :: bytes, value =>
    if isAsciiDigit b then do
      let d ← sub b.toNat 48
      parseAsciiLoop bytes (saturatingAdd (saturatingMul value 10) d)
    else .absent

def parseAsciiU16 (bytes : List UInt8) : Exec ℕ := parseAsciiLoop bytes 0

/-! ### Parameters -/

def maxParams : ℕ := 8

/-- the byte at `i`, a separator at the end -/
def byteOrEnd (seq : List UInt8) (i : ℕ) : Exec UInt8 := if i = seq.length then .ok 59 else index seq i

/-- the loop of `csi_params`, with `n` turns left; `params` is the part of the array that is filled -/
def csiLoop (seq : List UInt8) : ℕ → ℕ → ℕ → List ℕ → Exec (List ℕ)
  | 0, _, _, params => .ok params
  | n + 1, i, partStart, params =>
    if maxParams ≤ params.length then .ok params
    else do
      let b ← byteOrEnd seq i
      if b = 59 then
        if i = partStart then csiLoop seq n (i + 1) (i + 1) (params ++ [0])
        else do
          let part ← slice seq partStart i
          match ← attempt (parseAsciiU16 part) with
          | some v => csiLoop seq n (i + 1) (i + 1) (params ++ [v])
          | none => csiLoop seq n (i + 1) (i + 1) params
      else csiLoop seq n (i + 1) partStart params

/-- `?`, `>` or `!` in front -/
def csiPrivate (seq : List UInt8) : Option UInt8 :=
  match seq.head? with
  | some b => if b = 63 ∨ b = 62 ∨ b = 33 then some b else none
  | none => none

/-- `csi_params` without the private byte: the loop runs while `i <= seq.len()` -/
def csiParams (seq : List UInt8) : Exec (List ℕ) :=
  let start := if (csiPrivate seq).isSome then 1 else 0
  csiLoop seq (seq.length + 1 - start) start start []

def csiParamOr (params : List ℕ) (idx dflt : ℕ) : ℕ :=
  let v := if idx < params.length then params.getD idx 0 else dflt
  if v = 0 then dflt else v

/-- `parse_decrqm_mode` -/
def parseDecrqmMode (seq : List UInt8) : Exec ℕ :=
  if seq.length < 3 ∨ seq.head? ≠ some 63 ∨ seq.getLast? ≠ some 36 then .absent
  else do
    let stop ← sub seq.length 1
    let digits ← slice seq 1 stop
    parseAsciiU16 digits

/-! ### Control sequences -/

variable (s : TtyState)

/-- the replies to `n` -/
def statusReply (priv : Option UInt8) (params : List ℕ) : Exec (List UInt8) :=
  let p0 := csiParamOr params 0 0
  if p0 = 5 then .ok (if priv = some 63 then [0x1b, 91, 63, 48, 110] else [0x1b, 91, 48, 110])
  else if p0 = 6 then do
    let row ← pushAsciiU16 (max s.cursorRow 1)
    let col ← pushAsciiU16 (max s.cursorCol 1)
    return [0x1b, 91] ++ (if priv = some 63 then [63] else []) ++ row ++ [59] ++ col ++ [82]
  else .ok []

/-- the reply to `p` -/
def modeReply (priv : Option UInt8) (seq : List UInt8) : Exec (List UInt8) :=
  if priv = some 63 then do
    match ← attempt (parseDecrqmMode seq) with
    | some mode => do
      let digits ← pushAsciiU16 mode
      return [0x1b, 91, 63] ++ digits ++ [59, 48, 36, 121]
    | none => return []
  else .ok []

/-- `handle_output_csi`: the new state and the bytes added to the replies -/
def handleOutputCsi (finalByte : UInt8) : Exec (TtyState × List UInt8) := do
  let seq ← slice s.outCsiSeq.toList 0 s.outCsiLen
  let priv := csiPrivate seq
  let params ← csiParams seq
  let n := csiParamOr params 0 1
  if finalByte = 65 then -- A
    return ({ s with cursorRow := if s.cursorRow - n = 0 then 1 else s.cursorRow - n }, [])
  else if finalByte = 66 then -- B
    return ({ s with cursorRow := min (saturatingAdd s.cursorRow n) s.rows }, [])
  else if finalByte = 67 then -- C
    return ({ s with cursorCol := min (saturatingAdd s.cursorCol n) s.cols }, [])
  else if finalByte = 68 then -- D
    return ({ s with cursorCol := if s.cursorCol - n = 0 then 1 else s.cursorCol - n }, [])
  else if finalByte = 72 ∨ finalByte = 102 then -- H, f
    return ({ s with cursorRow := n, cursorCol := csiParamOr params 1 1 }.clampCursor, [])
  else if finalByte = 71 then -- G
    return ({ s with cursorCol := n }.clampCursor, [])
  else if finalByte = 100 then -- d
    return ({ s with cursorRow := n }.clampCursor, [])
  else if finalByte = 74 then -- J
    return (if params.headD 0 = 2 then { s with cursorRow := 1, cursorCol := 1 } else s, [])
  else if finalByte = 110 then do -- n
    let reply ← statusReply s priv params
    return (s, reply)
  else if finalByte = 99 then -- c
    return (s, if priv = some 62 then [0x1b, 91, 62, 48, 59, 49, 51, 54, 59, 48, 99]
      else [0x1b, 91, 63, 49, 59, 50, 99])
  else if finalByte = 112 then do -- p
    let reply ← modeReply priv seq
    return (s, reply)
  else return (s, [])

/-! ### Output -/

/-- the sequence is over -/
def TtyState.endCsi : TtyState := { s with outCsiMode := false, outCsiLen := 0 }

/-- a byte inside a control sequence -/
def csiByte (b : UInt8) : Exec (TtyState × List UInt8) :=
  if 0x20 ≤ b ∧ b ≤ 0x3F then
    if s.outCsiLen < outCsiMaxSeq then do
      let len ← add 64 s.outCsiLen 1
      return ({ s with outCsiSeq := s.outCsiSeq.setIfInBounds s.outCsiLen b, outCsiLen := len }, [])
    else .ok (s.endCsi, [])
  else if 0x40 ≤ b ∧ b ≤ 0x7E then do
    let (s, replies) ← handleOutputCsi s b
    return (s.endCsi, replies)
  else .ok (s.endCsi, [])

/-- a byte behind an escape -/
def escByte (b : UInt8) : TtyState :=
  if b = 91 then { s with outEscPending := false, outCsiMode := true, outCsiLen := 0 }
  else { s with outEscPending := false }

/-- the column a tab goes to -/
def nextTab : Exec ℕ := do
  let stop ← add 16 ((s.cursorCol - 1) / 8) 1
  let stop ← mul 16 stop 8
  add 16 stop 1

/-- a byte of text -/
def plainByte (b : UInt8) : Exec TtyState :=
  if b = 0x1B then .ok { s with outEscPending := true }
  else if b = 13 then .ok { s with cursorCol := 1 }
  else if b = 10 then
    if s.cursorRow < s.rows then do
      let row ← add 16 s.cursorRow 1
      return { s with cursorRow := row }
    else .ok s
  else if b = 8 then
    if 1 < s.cursorCol then do
      let col ← sub s.cursorCol 1
      return { s with cursorCol := col }
    else .ok s
  else if b = 9 then do
    let next ← nextTab s
    return { s with cursorCol := min next s.cols }
  else if 0x20 ≤ b ∧ b ≤ 0x7E then
    if s.cols ≤ s.cursorCol then
      if s.cursorRow < s.rows then do
        let row ← add 16 s.cursorRow 1
        return { s with cursorCol := 1, cursorRow := row }
      else .ok { s with cursorCol := 1 }
    else do
      let col ← add 16 s.cursorCol 1
      return { s with cursorCol := col }
  else .ok s

/-- one turn of the loop over the bytes -/
def step (b : UInt8) : Exec (TtyState × List UInt8) :=
  if s.outCsiMode then csiByte s b
  else if s.outEscPending then .ok (escByte s b, [])
  else do
    let s ← plainByte s b
    return (s, [])

/-- the loop over the bytes, with the replies so far -/
def steps : TtyState × List UInt8 → List UInt8 → Exec (TtyState × List UInt8)
  | r, [] => .ok r
  | (s, replies), b :: bytes => do
    let (s, more) ← step s b
    steps (s, replies ++ more) bytes

/-- the terminal and its input queue -/
structure Console where
  state : TtyState
  queue : List UInt8
deriving DecidableEq

/-- capacity of `INPUT_QUEUE` -/
def queueCap : ℕ := 1024

/-- `Fifo::push`; what does not fit is dropped -/
def push (queue : List UInt8) (b : UInt8) : List UInt8 := if queueCap ≤ queue.length then queue else queue ++ [b]

/-- `push_bytes` -/
def pushBytes (queue bytes : List UInt8) : List UInt8 := bytes.foldl push queue

def processOutput (c : Console) (bytes : List UInt8) : Exec Console :=
  if bytes = [] then .ok c
  else do
    let (s, replies) ← steps (c.state, []) bytes
    return ⟨s.clampCursor, pushBytes c.queue replies⟩

/-! ## The cursor stays inside the window -/

/-- the cursor is inside the window -/
structure InWindow (s : TtyState) : Prop where
  row : 1 ≤ s.cursorRow ∧ s.cursorRow ≤ s.rows
  col : 1 ≤ s.cursorCol ∧ s.cursorCol ≤ s.cols

section Window

variable {s t : TtyState}

variable (s)

theorem one_le_rows : 1 ≤ s.rows := le_max_right _ _

theorem one_le_cols : 1 ≤ s.cols := le_max_right _ _

theorem clampCursor_window : InWindow s.clampCursor := by
  have hrows := one_le_rows s
  have hcols := one_le_cols s
  constructor
  · change 1 ≤ ite _ _ _ ∧ ite _ _ _ ≤ s.rows
    split_ifs
    · omega
    · omega
    · omega
  · change 1 ≤ ite _ _ _ ∧ ite _ _ _ ≤ s.cols
    split_ifs
    · omega
    · omega
    · omega

variable {s}

theorem InWindow.clampCursor_eq (h : InWindow s) : s.clampCursor = s := by
  have hrow : ¬ s.cursorRow = 0 ∧ ¬ s.rows < s.cursorRow := by
    have := h.row
    omega
  have hcol : ¬ s.cursorCol = 0 ∧ ¬ s.cols < s.cursorCol := by
    have := h.col
    omega
  rw [TtyState.clampCursor, if_neg hrow.1, if_neg hrow.2, if_neg hcol.1, if_neg hcol.2]

/-- `t` is `s` with the cursor somewhere inside the window -/
structure Moved (s t : TtyState) : Prop where
  same : t = { s with cursorRow := t.cursorRow, cursorCol := t.cursorCol }
  inside : InWindow t

theorem Moved.refl (h : InWindow s) : Moved s s := ⟨rfl, h⟩

theorem moved_row (h : InWindow s) {row : ℕ} (hrow : 1 ≤ row ∧ row ≤ s.rows) : Moved s { s with cursorRow := row } :=
  ⟨rfl, hrow, h.col⟩

theorem moved_col (h : InWindow s) {col : ℕ} (hcol : 1 ≤ col ∧ col ≤ s.cols) : Moved s { s with cursorCol := col } :=
  ⟨rfl, h.row, hcol⟩

theorem moved_home (s : TtyState) : Moved s { s with cursorRow := 1, cursorCol := 1 } :=
  ⟨rfl, ⟨le_rfl, one_le_rows s⟩, ⟨le_rfl, one_le_cols s⟩⟩

/-- a cursor put anywhere and clamped -/
theorem moved_clamp (s : TtyState) (row col : ℕ) : Moved s { s with cursorRow := row, cursorCol := col }.clampCursor :=
  ⟨rfl, clampCursor_window _⟩

theorem one_le_saturatingAdd {a : ℕ} (h : 1 ≤ a) (b : ℕ) : 1 ≤ saturatingAdd a b := by
  unfold saturatingAdd u16Max
  omega

variable {b : UInt8} {replies : List UInt8}

/-- a control sequence moves the cursor inside the window and changes nothing else -/
theorem handleOutputCsi_moved (h : InWindow s) (hok : handleOutputCsi s b = .ok (t, replies)) : Moved s t := by
  obtain ⟨seq, -, hok⟩ := bind_eq_ok.1 hok
  obtain ⟨params, -, hok⟩ := bind_eq_ok.1 hok
  have hrow := h.row
  have hcol := h.col
  have done {u : TtyState} {r : List UInt8} (hu : (pure (u, r) : Exec (TtyState × List UInt8)) = .ok (t, replies))
      (hmoved : Moved s u) : Moved s t := by
    obtain rfl : u = t := congrArg Prod.fst (Exec.ok.inj hu)
    exact hmoved
  dsimp only at hok
  generalize csiParamOr params 0 1 = n at hok
  rcases ite_eq_iff.1 hok with ⟨hA, hok⟩ | ⟨hA, hok⟩
  · refine done hok (moved_row h ?_)
    split_ifs
    · omega
    · omega
  rcases ite_eq_iff.1 hok with ⟨hB, hok⟩ | ⟨hB, hok⟩
  · exact done hok (moved_row h ⟨le_min (one_le_saturatingAdd hrow.1 n) (one_le_rows s), min_le_right _ _⟩)
  rcases ite_eq_iff.1 hok with ⟨hC, hok⟩ | ⟨hC, hok⟩
  · exact done hok (moved_col h ⟨le_min (one_le_saturatingAdd hcol.1 n) (one_le_cols s), min_le_right _ _⟩)
  rcases ite_eq_iff.1 hok with ⟨hD, hok⟩ | ⟨hD, hok⟩
  · refine done hok (moved_col h ?_)
    split_ifs
    · omega
    · omega
  rcases ite_eq_iff.1 hok with ⟨hH, hok⟩ | ⟨hH, hok⟩
  · exact done hok (moved_clamp s _ _)
  rcases ite_eq_iff.1 hok with ⟨hG, hok⟩ | ⟨hG, hok⟩
  · exact done hok (moved_clamp s _ _)
  rcases ite_eq_iff.1 hok with ⟨hd, hok⟩ | ⟨hd, hok⟩
  · exact done hok (moved_clamp s _ _)
  rcases ite_eq_iff.1 hok with ⟨hJ, hok⟩ | ⟨hJ, hok⟩
  · refine done hok ?_
    split_ifs
    · exact moved_home s
    · exact Moved.refl h
  rcases ite_eq_iff.1 hok with ⟨hn, hok⟩ | ⟨hn, hok⟩
  · obtain ⟨reply, -, hok⟩ := bind_eq_ok.1 hok
    exact done hok (Moved.refl h)
  rcases ite_eq_iff.1 hok with ⟨hc, hok⟩ | ⟨hc, hok⟩
  · exact done hok (Moved.refl h)
  rcases ite_eq_iff.1 hok with ⟨hp, hok⟩ | ⟨hp, hok⟩
  · obtain ⟨reply, -, hok⟩ := bind_eq_ok.1 hok
    exact done hok (Moved.refl h)
  exact done hok (Moved.refl h)

/-- what every byte leaves: the cursor inside, the window as it was, a sequence that fits its buffer -/
structure Stays (s t : TtyState) : Prop where
  inside : InWindow t
  wsRow : t.wsRow = s.wsRow
  wsCol : t.wsCol = s.wsCol
  len : s.outCsiLen ≤ outCsiMaxSeq → t.outCsiLen ≤ outCsiMaxSeq

theorem Moved.stays (h : Moved s t) : Stays s t := by
  have hrow : t.wsRow = s.wsRow := by rw [h.same]
  have hcol : t.wsCol = s.wsCol := by rw [h.same]
  have hlen : t.outCsiLen = s.outCsiLen := by rw [h.same]
  exact ⟨h.inside, hrow, hcol, hlen.trans_le⟩

theorem Stays.endCsi (h : Stays s t) : Stays s t.endCsi :=
  ⟨⟨h.inside.row, h.inside.col⟩, h.wsRow, h.wsCol, fun _ => Nat.zero_le _⟩

theorem csiByte_stays (h : InWindow s) (hok : csiByte s b = .ok (t, replies)) : Stays s t := by
  have ended {u : TtyState} {r : List UInt8} (hu : Exec.ok (u.endCsi, r) = .ok (t, replies)) (hstays : Stays s u) :
      Stays s t := by
    obtain rfl : u.endCsi = t := congrArg Prod.fst (Exec.ok.inj hu)
    exact hstays.endCsi
  unfold csiByte at hok
  rcases ite_eq_iff.1 hok with ⟨hparam, hok⟩ | ⟨hparam, hok⟩
  · rcases ite_eq_iff.1 hok with ⟨hroom, hok⟩ | ⟨hroom, hok⟩
    · obtain ⟨len, hlen, hok⟩ := bind_eq_ok.1 hok
      obtain rfl := congrArg Prod.fst (Exec.ok.inj hok)
      exact ⟨⟨h.row, h.col⟩, rfl, rfl, fun _ => (eq_of_add_ok hlen).trans_le hroom⟩
    · exact ended hok (Moved.refl h).stays
  split at hok
  · obtain ⟨⟨u, r⟩, hcsi, hok⟩ := bind_eq_ok.1 hok
    exact ended hok (handleOutputCsi_moved h hcsi).stays
  · exact ended hok (Moved.refl h).stays

theorem escByte_stays (h : InWindow s) (b : UInt8) : Stays s (escByte s b) := by
  unfold escByte
  split_ifs
  · exact ⟨⟨h.row, h.col⟩, rfl, rfl, fun _ => Nat.zero_le _⟩
  · exact ⟨⟨h.row, h.col⟩, rfl, rfl, id⟩

/-- the column behind a tab is not 0 -/
theorem one_le_nextTab {next : ℕ} (hok : nextTab s = .ok next) : 1 ≤ next := by
  obtain ⟨n, -, hok⟩ := bind_eq_ok.1 hok
  obtain ⟨m, -, hok⟩ := bind_eq_ok.1 hok
  rw [eq_of_add_ok hok]
  exact Nat.le_add_left 1 m

theorem plainByte_stays (h : InWindow s) (hok : plainByte s b = .ok t) : Stays s t := by
  have hrow := h.row
  have hcol := h.col
  have hone := one_le_cols s
  have done {u : TtyState} (hu : Exec.ok u = .ok t) (hmoved : Moved s u) : Stays s t := by
    cases hu
    exact hmoved.stays
  unfold plainByte at hok
  rcases ite_eq_iff.1 hok with ⟨hesc, hok⟩ | ⟨hesc, hok⟩
  · cases hok
    exact ⟨⟨h.row, h.col⟩, rfl, rfl, id⟩
  rcases ite_eq_iff.1 hok with ⟨hcr, hok⟩ | ⟨hcr, hok⟩
  · exact done hok (moved_col h ⟨le_rfl, hone⟩)
  rcases ite_eq_iff.1 hok with ⟨hlf, hok⟩ | ⟨hlf, hok⟩
  · rcases ite_eq_iff.1 hok with ⟨hroom, hok⟩ | ⟨hroom, hok⟩
    · obtain ⟨row, hnext, hok⟩ := bind_eq_ok.1 hok
      obtain rfl := eq_of_add_ok hnext
      exact done hok (moved_row h ⟨Nat.le_add_left 1 _, hroom⟩)
    · exact done hok (Moved.refl h)
  rcases ite_eq_iff.1 hok with ⟨hbs, hok⟩ | ⟨hbs, hok⟩
  · rcases ite_eq_iff.1 hok with ⟨hroom, hok⟩ | ⟨hroom, hok⟩
    · rw [Exec.sub_eq hroom.le] at hok
      exact done hok (moved_col h (by omega))
    · exact done hok (Moved.refl h)
  rcases ite_eq_iff.1 hok with ⟨htab, hok⟩ | ⟨htab, hok⟩
  · obtain ⟨next, hnext, hok⟩ := bind_eq_ok.1 hok
    exact done hok (moved_col h ⟨le_min (one_le_nextTab hnext) hone, min_le_right _ _⟩)
  rcases ite_eq_iff.1 hok with ⟨htext, hok⟩ | ⟨htext, hok⟩
  · rcases ite_eq_iff.1 hok with ⟨hwrap, hok⟩ | ⟨hwrap, hok⟩
    · rcases ite_eq_iff.1 hok with ⟨hroom, hok⟩ | ⟨hroom, hok⟩
      · obtain ⟨row, hnext, hok⟩ := bind_eq_ok.1 hok
        obtain rfl := eq_of_add_ok hnext
        exact done hok ⟨rfl, ⟨Nat.le_add_left 1 _, hroom⟩, ⟨le_rfl, hone⟩⟩
      · exact done hok (moved_col h ⟨le_rfl, hone⟩)
    · obtain ⟨col, hnext, hok⟩ := bind_eq_ok.1 hok
      obtain rfl := eq_of_add_ok hnext
      exact done hok (moved_col h (by omega))
  · exact done hok (Moved.refl h)

/-- **A byte.** it leaves the cursor inside the window -/
theorem step_window (h : InWindow s) (hok : step s b = .ok (t, replies)) : Stays s t := by
  unfold step at hok
  split at hok
  · exact csiByte_stays h hok
  split at hok
  · obtain rfl := congrArg Prod.fst (Exec.ok.inj hok)
    exact escByte_stays h b
  · obtain ⟨u, hplain, hok⟩ := bind_eq_ok.1 hok
    obtain rfl := congrArg Prod.fst (Exec.ok.inj hok)
    exact plainByte_stays h hplain

theorem Stays.refl (h : InWindow s) : Stays s s := (Moved.refl h).stays

theorem Stays.trans {u : TtyState} (h : Stays s t) (h' : Stays t u) : Stays s u :=
  ⟨h'.inside, h'.wsRow.trans h.wsRow, h'.wsCol.trans h.wsCol, h'.len ∘ h.len⟩

theorem steps_window {bytes : List UInt8} {more : List UInt8} (h : InWindow s)
    (hok : steps (s, replies) bytes = .ok (t, more)) : Stays s t := by
  induction bytes generalizing s replies with
  | nil =>
    obtain rfl := congrArg Prod.fst (Exec.ok.inj hok)
    exact Stays.refl h
  | cons b bytes ih =>
    obtain ⟨⟨u, r⟩, hstep, hok⟩ := bind_eq_ok.1 hok
    have hstays := step_window h hstep
    exact hstays.trans (ih hstays.inside hok)

end Window

/-! ## Cutting the output -/

section Cut

theorem steps_append (r : TtyState × List UInt8) (a b : List UInt8) :
    steps r (a ++ b) = steps r a >>= fun r' => steps r' b := by
  induction a generalizing r with
  | nil => rfl
  | cons x a ih =>
    obtain ⟨s, replies⟩ := r
    change (step s x >>= fun p => steps (p.1, replies ++ p.2) (a ++ b)) = _
    simp only [ih]
    rw [← bind_bind]
    rfl

/-- the replies so far are only added to -/
theorem steps_replies (s : TtyState) (replies bytes : List UInt8) :
    steps (s, replies) bytes = steps (s, []) bytes >>= fun r => .ok (r.1, replies ++ r.2) := by
  induction bytes generalizing s replies with
  | nil =>
    change Exec.ok (s, replies) = .ok (s, replies ++ [])
    rw [List.append_nil]
  | cons b bytes ih =>
    change (step s b >>= fun p => steps (p.1, replies ++ p.2) bytes) =
      (step s b >>= fun p => steps (p.1, [] ++ p.2) bytes) >>= fun r => .ok (r.1, replies ++ r.2)
    rw [bind_bind]
    congr 1
    funext p
    rw [ih p.1 (replies ++ p.2), ih p.1 ([] ++ p.2), bind_bind]
    congr 1
    funext q
    change Exec.ok (q.1, replies ++ p.2 ++ q.2) = .ok (q.1, replies ++ ([] ++ p.2 ++ q.2))
    rw [List.nil_append, List.append_assoc]

theorem pushBytes_append (queue a b : List UInt8) : pushBytes queue (a ++ b) = pushBytes (pushBytes queue a) b :=
  List.foldl_append

/-- with the cursor inside the window the empty case is no special one, and the clamping at the end does nothing -/
theorem processOutput_eq {c : Console} (h : InWindow c.state) (bytes : List UInt8) :
    processOutput c bytes = steps (c.state, []) bytes >>= fun r => .ok ⟨r.1, pushBytes c.queue r.2⟩ := by
  unfold processOutput
  by_cases hbytes : bytes = []
  · rw [if_pos hbytes, hbytes]
    rfl
  rw [if_neg hbytes]
  cases hsteps : steps (c.state, []) bytes with
  | absent => rfl
  | stop why => rfl
  | ok r =>
    change Exec.ok (Console.mk r.1.clampCursor _) = .ok (Console.mk r.1 _)
    rw [(steps_window h hsteps).inside.clampCursor_eq]

/-- **Chunks.** Output cut into two calls does what one call does: the same terminal, the same queue, the same panic. -/
theorem processOutput_append {c : Console} (h : InWindow c.state) (a b : List UInt8) :
    processOutput c (a ++ b) = processOutput c a >>= fun c' => processOutput c' b := by
  rw [processOutput_eq h, processOutput_eq h, steps_append, bind_bind, bind_bind]
  cases hfirst : steps (c.state, []) a with
  | absent => rfl
  | stop why => rfl
  | ok r =>
    have hinside : InWindow r.1 := (steps_window h hfirst).inside
    change (steps (r.1, r.2) b >>= fun r' => .ok ⟨r'.1, pushBytes c.queue r'.2⟩) =
      processOutput ⟨r.1, pushBytes c.queue r.2⟩ b
    rw [processOutput_eq hinside, steps_replies, bind_bind]
    congr 1
    funext r'
    change Exec.ok (Console.mk r'.1 _) = .ok (Console.mk r'.1 _)
    rw [pushBytes_append]

/-- a cursor report cut in the middle of its sequence -/
theorem report_in_two_calls :
    InWindow TtyState.new ∧
      processOutput ⟨.new, []⟩ ([72, 105, 0x1b] ++ [91, 54, 110]) =
        processOutput ⟨.new, []⟩ [72, 105, 0x1b] >>= fun c => processOutput c [91, 54, 110] :=
  have hinside : InWindow TtyState.new := ⟨by decide, by decide⟩
  ⟨hinside, processOutput_append (c := ⟨.new, []⟩) hinside _ _⟩

end Cut

end SwiftCore.Syscall.Tty
