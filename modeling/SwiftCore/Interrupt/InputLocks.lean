/-
The locks of keyboard and mouse input (core/util/fifo.rs, ps2kbd.rs, ps2mouse.rs; core/syscall/keyboard.rs, mouse.rs,
tty.rs; the handlers of core/interrupt/idt.rs).

`Fifo` and the packet assembler are under `spin::Mutex`, which leaves interrupts as they are; the thread queue, the
scheduler, the process table and the TTY state are under `SpinLock`, which disables them. System calls run with interrupts
enabled. A call is the list of what it does to these locks, to the interrupt flag and to the processor; the environment
decides what it finds in the queues (how many turns a loop takes, how many bytes a scancode is decoded to). Locks that no
handler takes, such as those of the heap and of the page tables, are left out.

- `tidy_trace`: every call gives back its locks in order and keeps none over a switch.
- `handlers_never_spin`: if no keyboard interrupt comes while the running code holds one of the scancode queues, and no
  mouse interrupt that completes a packet while it holds the packet queue, no handler wants a lock that this code holds;
  each interrupt that breaks this spins.
- `pop_interrupted`: a keyboard interrupt inside `pop_scancode` spins.
-/
import SwiftCore.Lib.IrqLocks

namespace SwiftCore.Interrupt.InputLocks

open Run IrqLocks

inductive Lock where
  | scancodeBuf | tapBuf | mousePacketBuf | inputQueue | assembler
  | threadQueue | scheduler | processTable | ttyState
  deriving DecidableEq, Repr

/-- `SpinLock` disables interrupts, `spin::Mutex` does not -/
def masks : Lock → Bool
  | .scancodeBuf | .tapBuf | .mousePacketBuf | .inputQueue | .assembler => false
  | .threadQueue | .scheduler | .processTable | .ttyState => true

/-! ## Threads and scheduling -/

/-- `push`, `pop`, `is_empty` and `len` of a queue -/
def fifo (l : Lock) : Trace Lock := locked l []

/-- `with_thread`, `with_thread_mut` -/
def withThread : Trace Lock := locked .threadQueue []

def withProcess : Trace Lock := locked .processTable []

def currentThreadId : Trace Lock := masked []

def wakeThread : Trace Lock := withThread

def sleepThreadUnlessWoken : Trace Lock := withThread

def schedule (picked : Bool) : Trace Lock :=
  locked .threadQueue currentThreadId ++ if picked then locked .scheduler [] else []

/-- `switch_to_thread`; `current` if there is a current thread -/
def switchToThread (current : Bool) : Trace Lock :=
  locked .threadQueue ((if current then withProcess else []) ++ withProcess) ++ [.switch]

/-- how far `yield_now` gets -/
inductive Yield where
  | disabled | noneReady | same | switched (current : Bool)

def yieldNow : Yield → Trace Lock
  | .disabled => locked .scheduler []
  | .noneReady => locked .scheduler [] ++ masked (schedule false)
  | .same => locked .scheduler [] ++ masked (schedule true ++ currentThreadId)
  | .switched current => locked .scheduler [] ++ masked (schedule true ++ currentThreadId ++ switchToThread current)

/-! ## The queues -/

variable (waiter : Bool)

/-- `waiter`: a thread is registered -/
def pushScancode : Trace Lock :=
  fifo .scancodeBuf ++ fifo .tapBuf ++ if waiter then wakeThread else []

def pushPacket : Trace Lock := fifo .mousePacketBuf ++ if waiter then wakeThread else []

variable (packet : Option Bool)

/-- `push_byte`; `packet` if the byte completes one without overflow -/
def pushByte : Trace Lock :=
  fifo .assembler ++ match packet with
    | none => []
    | some waiter => pushPacket waiter

/-! ## System calls -/

/-- how far `caller_has_input_privilege` gets: no thread, no entry in the queue, the process -/
inductive Caller where
  | none | unknown | process

def callerHasInputPrivilege : Caller → Trace Lock
  | .none => currentThreadId
  | .unknown => currentThreadId ++ withThread
  | .process => currentThreadId ++ withThread ++ withProcess

/-- a turn of a blocking loop that finds nothing: the thread yields, or it was woken before it slept -/
def waitTurn (queue : Lock) : Option Yield → Trace Lock
  | none => fifo queue ++ sleepThreadUnlessWoken
  | some y => fifo queue ++ sleepThreadUnlessWoken ++ yieldNow y

/-- a turn that does not sleep: without a thread, or without the place of the waiter -/
def pollTurn (queue : Lock) (y : Yield) : Trace Lock := fifo queue ++ yieldNow y

inductive Turn where
  | wait (y : Option Yield)
  | poll (y : Yield)

def turnTrace (queue : Lock) : Turn → Trace Lock
  | .wait y => waitTurn queue y
  | .poll y => pollTurn queue y

/-- the turns that find nothing, then the one that does -/
def readCharBlocking (turns : List Turn) : Trace Lock :=
  currentThreadId ++ turns.flatMap (turnTrace .scancodeBuf) ++ fifo .scancodeBuf

/-- `turns` if the first look finds nothing -/
def readPacketBlocking (turns : Option (List Turn)) : Trace Lock :=
  fifo .mousePacketBuf ++ match turns with
    | none => []
    | some turns => currentThreadId ++ turns.flatMap (turnTrace .mousePacketBuf) ++ fifo .mousePacketBuf

/-- `decode_scancode_into_queue`: the bytes go into the input queue under the lock of the TTY state -/
def decodeScancodeIntoQueue (bytes : ℕ) : Trace Lock := locked .ttyState ((List.range bytes).flatMap fun _ => fifo .inputQueue)

/-- `feed_from_scancode_queue_nonblocking`: the scancodes, by the number of bytes each becomes -/
def feedFromScancodeQueue (scancodes : List ℕ) : Trace Lock :=
  scancodes.flatMap (fun n => fifo .scancodeBuf ++ decodeScancodeIntoQueue n) ++ fifo .scancodeBuf

/-- a turn of `next_input_byte_blocking` that finds no byte -/
structure InputTurn where
  fed : List ℕ
  turns : List Turn
  bytes : ℕ

def inputTurn (t : InputTurn) : Trace Lock :=
  fifo .inputQueue ++ feedFromScancodeQueue t.fed ++ fifo .inputQueue ++ readCharBlocking t.turns ++
    decodeScancodeIntoQueue t.bytes

/-- `next_input_byte_nonblocking`, and the last turn of the blocking one; `fed` if the queue was empty at first -/
def nextInputByteNonblocking (fed : Option (List ℕ)) : Trace Lock :=
  match fed with
  | none => fifo .inputQueue
  | some l => fifo .inputQueue ++ feedFromScancodeQueue l ++ fifo .inputQueue

def nextInputByteBlocking (turns : List InputTurn) (fed : Option (List ℕ)) : Trace Lock :=
  turns.flatMap inputTurn ++ nextInputByteNonblocking fed

/-- `read_stdin`: byte by byte, or one byte without and then with blocking -/
inductive Stdin where
  | canonical (bytes : List (List InputTurn × Option (List ℕ)))
  | raw (fed : Option (List ℕ)) (rest : Option (List InputTurn × Option (List ℕ)))

def readStdin : Stdin → Trace Lock
  | .canonical bytes => locked .ttyState [] ++ bytes.flatMap fun b => nextInputByteBlocking b.1 b.2
  | .raw fed rest => locked .ttyState [] ++ nextInputByteNonblocking fed ++
      match rest with
      | none => []
      | some b => nextInputByteBlocking b.1 b.2

inductive Call where
  | readChar
  /-- `allowed` if the caller has the privilege -/
  | readCharTap (caller : Caller) (allowed : Bool)
  /-- `waiter` if the caller may inject and the value is in range: a thread is registered or not -/
  | injectScancode (caller : Caller) (waiter : Option Bool)
  | readCharBlocking (turns : List Turn)
  /-- `has_pending_input` and `pending_input_len` -/
  | pollTty (scancodes : List ℕ)
  | readStdin (how : Stdin)
  | readPacket
  | readPacketBlocking (turns : Option (List Turn))
  | injectPacket (caller : Caller) (waiter : Option Bool)

def trace : Call → Trace Lock
  | .readChar => fifo .scancodeBuf
  | .readCharTap caller allowed => callerHasInputPrivilege caller ++ if allowed then fifo .tapBuf else []
  | .injectScancode caller waiter => callerHasInputPrivilege caller ++ (waiter.map pushScancode).getD []
  | .readCharBlocking turns => readCharBlocking turns
  | .pollTty scancodes => feedFromScancodeQueue scancodes ++ fifo .inputQueue
  | .readStdin how => readStdin how
  | .readPacket => fifo .mousePacketBuf
  | .readPacketBlocking turns => readPacketBlocking turns
  | .injectPacket caller waiter => callerHasInputPrivilege caller ++ (waiter.map pushPacket).getD []

/-! ## Interrupts -/

/-- `leave_to_user`: the handler interrupted the kernel, or how far the switch to the page table of the user gets -/
inductive Leave where
  | kernel | noThread | unknown | core | user

def leaveToUser : Leave → Trace Lock
  | .kernel => []
  | .noThread => currentThreadId
  | .unknown => currentThreadId ++ withThread
  | .core => currentThreadId ++ withThread ++ withProcess
  | .user => currentThreadId ++ withThread ++ withProcess ++ withProcess

variable (leave : Leave)

def keyboardInterruptHandler : Trace Lock := pushScancode waiter ++ leaveToUser leave

def mouseInterruptHandler : Trace Lock := pushByte packet ++ leaveToUser leave

inductive Op where
  /-- the current thread, outside of system calls, makes one -/
  | call (c : Call)
  | keyboard (waiter : Bool) (leave : Leave)
  | mouse (packet : Option Bool) (leave : Leave)
  /-- the next act of what runs; a thread that yields gives the processor to `next` -/
  | exec (next : ℕ)
  /-- the timer takes the processor from a thread outside of system calls -/
  | tick (next : ℕ)

def Op.act : Op → IrqLocks.Op Lock
  | .call c => .call (trace c)
  | .keyboard waiter leave => .irq (keyboardInterruptHandler waiter leave)
  | .mouse packet leave => .irq (mouseInterruptHandler packet leave)
  | .exec next => .exec next
  | .tick next => .tick next

abbrev World := IrqLocks.World Lock

def step (w : World) (op : Op) : World := IrqLocks.step masks w op.act

/-- no thread is in a system call -/
def start (current : ℕ) : World := ⟨fun _ => ⟨[], [], 0⟩, current, none, []⟩

/-- the code that runs does not hold the queues which the handler of an interrupt pushes to -/
def Apart (w : World) : Op → Prop
  | .keyboard _ _ => .scancodeBuf ∉ w.thread.held ∧ .tapBuf ∉ w.thread.held
  | .mouse (some _) _ => .mousePacketBuf ∉ w.thread.held
  | .mouse none _ | .call _ | .exec _ | .tick _ => True

/-- the condition: an interrupt that is enabled meets code which does not hold the queues of its handler -/
def Spared (w : World) (op : Op) : Prop := w.handler = none → w.thread.Enabled masks → Apart w op

/-! ## Calls keep the discipline -/

/-- the locks of system calls: only the mouse interrupt takes the assembler -/
def CallLock (l : Lock) : Prop := l ≠ .assembler

section Tidy

variable {held : List Lock}

theorem tidy_fifo {A : Lock → Prop} {l : Lock} (hA : A l) (hl : l ∉ held) : Tidy A held (fifo l) := Tidy.nil.locked hA hl

theorem tidy_currentThreadId {A : Lock → Prop} : Tidy A held currentThreadId := Tidy.nil.masked

theorem tidy_withThread : Tidy CallLock [] withThread := Tidy.nil.locked nofun List.not_mem_nil

theorem tidy_withProcess (h : .processTable ∉ held) : Tidy CallLock held withProcess := Tidy.nil.locked nofun h

theorem tidy_schedule (picked : Bool) : Tidy CallLock [] (schedule picked) :=
  (tidy_currentThreadId.locked nofun List.not_mem_nil).append ((Tidy.nil.locked nofun List.not_mem_nil).ite Tidy.nil)

theorem tidy_switchToThread (current : Bool) : Tidy CallLock [] (switchToThread current) := by
  have hprocess : Tidy CallLock [.threadQueue] withProcess := tidy_withProcess (by decide)
  exact (((hprocess.ite Tidy.nil).append hprocess).locked nofun List.not_mem_nil).append Tidy.switch

theorem tidy_yieldNow (y : Yield) : Tidy CallLock [] (yieldNow y) := by
  have henabled : Tidy CallLock [] (locked .scheduler []) := Tidy.nil.locked nofun List.not_mem_nil
  cases y with
  | disabled => exact henabled
  | noneReady => exact henabled.append (tidy_schedule false).masked
  | same => exact henabled.append ((tidy_schedule true).append tidy_currentThreadId).masked
  | switched current =>
    exact henabled.append (((tidy_schedule true).append tidy_currentThreadId).append (tidy_switchToThread current)).masked

theorem tidy_pushScancode (waiter : Bool) : Tidy CallLock [] (pushScancode waiter) :=
  ((tidy_fifo nofun List.not_mem_nil).append (tidy_fifo nofun List.not_mem_nil)).append (tidy_withThread.ite Tidy.nil)

theorem tidy_pushPacket (waiter : Bool) : Tidy CallLock [] (pushPacket waiter) :=
  (tidy_fifo nofun List.not_mem_nil).append (tidy_withThread.ite Tidy.nil)

theorem tidy_callerHasInputPrivilege (caller : Caller) : Tidy CallLock [] (callerHasInputPrivilege caller) := by
  have hthread : Tidy CallLock [] (currentThreadId ++ withThread) := tidy_currentThreadId.append tidy_withThread
  cases caller with
  | none => exact tidy_currentThreadId
  | unknown => exact hthread
  | process => exact hthread.append (tidy_withProcess List.not_mem_nil)

theorem tidy_turn {queue : Lock} (hqueue : CallLock queue) (t : Turn) : Tidy CallLock [] (turnTrace queue t) := by
  have hfifo : Tidy CallLock [] (fifo queue) := tidy_fifo hqueue List.not_mem_nil
  rcases t with (_ | y) | y
  · exact hfifo.append tidy_withThread
  · exact (hfifo.append tidy_withThread).append (tidy_yieldNow y)
  · exact hfifo.append (tidy_yieldNow y)

theorem tidy_readCharBlocking (turns : List Turn) : Tidy CallLock [] (readCharBlocking turns) := by
  have hfifo : Tidy CallLock [] (fifo .scancodeBuf) := tidy_fifo nofun List.not_mem_nil
  have hturn : ∀ t, Tidy CallLock [] (turnTrace .scancodeBuf t) := tidy_turn nofun
  exact (tidy_currentThreadId.append (Tidy.flatMap hturn)).append hfifo

theorem tidy_readPacketBlocking (turns : Option (List Turn)) : Tidy CallLock [] (readPacketBlocking turns) := by
  have hfifo : Tidy CallLock [] (fifo .mousePacketBuf) := tidy_fifo nofun List.not_mem_nil
  have hturn : ∀ t, Tidy CallLock [] (turnTrace .mousePacketBuf t) := tidy_turn nofun
  cases turns with
  | none => exact hfifo.append Tidy.nil
  | some turns => exact hfifo.append ((tidy_currentThreadId.append (Tidy.flatMap hturn)).append hfifo)

theorem tidy_decodeScancodeIntoQueue (bytes : ℕ) : Tidy CallLock [] (decodeScancodeIntoQueue bytes) :=
  (Tidy.flatMap fun _ => tidy_fifo nofun (by decide)).locked nofun List.not_mem_nil

theorem tidy_feedFromScancodeQueue (scancodes : List ℕ) : Tidy CallLock [] (feedFromScancodeQueue scancodes) := by
  have hfifo : Tidy CallLock [] (fifo .scancodeBuf) := tidy_fifo nofun List.not_mem_nil
  exact (Tidy.flatMap fun n => hfifo.append (tidy_decodeScancodeIntoQueue n)).append hfifo

theorem tidy_nextInputByteNonblocking (fed : Option (List ℕ)) : Tidy CallLock [] (nextInputByteNonblocking fed) := by
  have hfifo : Tidy CallLock [] (fifo .inputQueue) := tidy_fifo nofun List.not_mem_nil
  cases fed with
  | none => exact hfifo
  | some l => exact (hfifo.append (tidy_feedFromScancodeQueue l)).append hfifo

theorem tidy_inputTurn (t : InputTurn) : Tidy CallLock [] (inputTurn t) :=
  ((tidy_nextInputByteNonblocking (some t.fed)).append (tidy_readCharBlocking t.turns)).append
    (tidy_decodeScancodeIntoQueue t.bytes)

theorem tidy_nextInputByteBlocking (turns : List InputTurn) (fed : Option (List ℕ)) :
    Tidy CallLock [] (nextInputByteBlocking turns fed) :=
  (Tidy.flatMap tidy_inputTurn).append (tidy_nextInputByteNonblocking fed)

theorem tidy_readStdin (how : Stdin) : Tidy CallLock [] (readStdin how) := by
  have hstate : Tidy CallLock [] (locked .ttyState []) := Tidy.nil.locked nofun List.not_mem_nil
  rcases how with bytes | ⟨fed, _ | b⟩
  · exact hstate.append (Tidy.flatMap fun b => tidy_nextInputByteBlocking b.1 b.2)
  · exact (hstate.append (tidy_nextInputByteNonblocking fed)).append Tidy.nil
  · exact (hstate.append (tidy_nextInputByteNonblocking fed)).append (tidy_nextInputByteBlocking b.1 b.2)

/-- every call gives back its locks, keeps none over a switch, and leaves the assembler alone -/
theorem tidy_trace (c : Call) : Tidy CallLock [] (trace c) := by
  cases c with
  | readChar | readPacket => exact tidy_fifo nofun List.not_mem_nil
  | readCharTap caller allowed =>
    exact (tidy_callerHasInputPrivilege caller).append ((tidy_fifo nofun List.not_mem_nil).ite Tidy.nil)
  | injectScancode caller waiter =>
    cases waiter with
    | none => exact (tidy_callerHasInputPrivilege caller).append Tidy.nil
    | some waiter => exact (tidy_callerHasInputPrivilege caller).append (tidy_pushScancode waiter)
  | injectPacket caller waiter =>
    cases waiter with
    | none => exact (tidy_callerHasInputPrivilege caller).append Tidy.nil
    | some waiter => exact (tidy_callerHasInputPrivilege caller).append (tidy_pushPacket waiter)
  | readCharBlocking turns => exact tidy_readCharBlocking turns
  | pollTty scancodes => exact (tidy_feedFromScancodeQueue scancodes).append (tidy_fifo nofun List.not_mem_nil)
  | readStdin how => exact tidy_readStdin how
  | readPacketBlocking turns => exact tidy_readPacketBlocking turns

end Tidy

/-! ## Handlers -/

/-- the locks of handlers -/
theorem tidy_leaveToUser : Tidy (fun _ => True) [] (leaveToUser leave) := by
  have hthread : Tidy (fun _ => True) [] (currentThreadId ++ withThread) :=
    tidy_currentThreadId.append (Tidy.nil.locked trivial List.not_mem_nil)
  have hprocess : Tidy (fun _ => True) [] withProcess := Tidy.nil.locked trivial List.not_mem_nil
  cases leave with
  | kernel => exact Tidy.nil
  | noThread => exact tidy_currentThreadId
  | unknown => exact hthread
  | core => exact hthread.append hprocess
  | user => exact (hthread.append hprocess).append hprocess

theorem keyboard_fits : Fits [] 0 (keyboardInterruptHandler waiter leave) := by
  have hpush : Tidy (fun _ => True) [] (pushScancode waiter) := ⟨(tidy_pushScancode waiter).fits, fun _ _ => trivial⟩
  exact (hpush.append (tidy_leaveToUser leave)).complete

theorem mouse_fits : Fits [] 0 (mouseInterruptHandler packet leave) := by
  have hassembler : Tidy (fun _ => True) [] (fifo .assembler) := tidy_fifo trivial List.not_mem_nil
  have hpush : ∀ waiter, Tidy (fun _ => True) [] (pushPacket waiter) := fun waiter =>
    ⟨(tidy_pushPacket waiter).fits, fun _ _ => trivial⟩
  cases packet with
  | none => exact ((hassembler.append Tidy.nil).append (tidy_leaveToUser leave)).complete
  | some waiter => exact ((hassembler.append (hpush waiter)).append (tidy_leaveToUser leave)).complete

theorem legal_act (op : Op) : op.act.Legal := by
  cases op with
  | call c => exact (tidy_trace c).complete
  | keyboard waiter leave => exact ⟨keyboard_fits waiter leave, by cases waiter <;> cases leave <;> decide⟩
  | mouse packet leave => exact ⟨mouse_fits packet leave, by rcases packet with _ | _ | _ <;> cases leave <;> decide⟩
  | exec next => trivial
  | tick next => trivial

theorem keyboard_acquires :
    ∀ l ∈ acquires (keyboardInterruptHandler waiter leave), l = .scancodeBuf ∨ l = .tapBuf ∨ masks l = true := by
  cases waiter <;> cases leave <;> decide

theorem mouse_acquires :
    ∀ l ∈ acquires (mouseInterruptHandler packet leave),
      l = .assembler ∨ (l = .mousePacketBuf ∧ packet ≠ none) ∨ masks l = true := by
  rcases packet with _ | _ | _ <;> cases leave <;> decide

/-! ## Runs -/

/-- the invariant of every run -/
structure Inv (w : World) : Prop where
  base : Base w
  uses : ∀ t, (w.threads t).Uses CallLock

theorem inv_start (current : ℕ) : Inv (start current) :=
  ⟨⟨fun _ => ⟨rfl, rfl⟩, fun _ => rfl, nofun, rfl⟩, fun _ _ h => h.elim nofun nofun⟩

theorem inv_step {w : World} (h : Inv w) (op : Op) : Inv (step w op) := by
  refine ⟨base_step h.base op.act (legal_act op), uses_step h.uses op.act fun tr htr => ?_⟩
  cases op with
  | call c =>
    cases htr
    exact (tidy_trace c).uses
  | keyboard | mouse | exec | tick => cases htr

/-- code that can be interrupted holds no lock that disables interrupts -/
theorem masks_not_held {w : World} (h : w.thread.Enabled masks) {l : Lock} (hl : masks l = true) : l ∉ w.thread.held :=
  fun hheld => absurd (h.2 l hheld) (by rw [hl]; nofun)

/-- an interrupt that meets the condition does not meet its locks -/
theorem apart_acquires {w : World} (h : Inv w) (op : Op) (hop : Apart w op) (tr : Trace Lock) (htr : op.act = .irq tr)
    (henabled : w.thread.Enabled masks) : ∀ l ∈ acquires tr, l ∉ w.thread.held := by
  intro l hl
  cases op with
  | keyboard waiter leave =>
    cases htr
    rcases keyboard_acquires waiter leave l hl with rfl | rfl | hmask
    · exact hop.1
    · exact hop.2
    · exact masks_not_held henabled hmask
  | mouse packet leave =>
    cases htr
    rcases mouse_acquires packet leave l hl with rfl | ⟨rfl, hpacket⟩ | hmask
    · exact fun hheld => h.uses w.current _ (.inl hheld) rfl
    · obtain ⟨waiter, rfl⟩ := Option.ne_none_iff_exists'.1 hpacket
      exact hop
    · exact masks_not_held henabled hmask
  | call | exec | tick => cases htr

/-- an interrupt that does not meet the condition meets one of its locks -/
theorem conflict_of_not_apart {w : World} (op : Op) (hop : ¬ Apart w op) :
    ∃ tr, op.act = .irq tr ∧ ∃ l ∈ acquires tr, l ∈ w.thread.held := by
  rcases op with c | ⟨waiter, leave⟩ | ⟨_ | waiter, leave⟩ | next | next
  · exact absurd trivial hop
  · rw [Apart, not_and_or, not_not, not_not] at hop
    have hmem : .scancodeBuf ∈ acquires (keyboardInterruptHandler waiter leave) ∧
        .tapBuf ∈ acquires (keyboardInterruptHandler waiter leave) := by
      cases waiter <;> cases leave <;> decide
    refine ⟨_, rfl, ?_⟩
    rcases hop with hheld | hheld
    · exact ⟨_, hmem.1, hheld⟩
    · exact ⟨_, hmem.2, hheld⟩
  · exact absurd trivial hop
  · have hmem : .mousePacketBuf ∈ acquires (mouseInterruptHandler (some waiter) leave) := by
      cases waiter <;> cases leave <;> decide
    exact ⟨_, rfl, _, hmem, not_not.1 hop⟩
  · exact absurd trivial hop
  · exact absurd trivial hop

theorem run_exec (w : World) (n : ℕ) :
    run step w (List.replicate n (.exec 0)) = run (IrqLocks.step masks) w (List.replicate n (.exec 0)) := by
  induction n generalizing w with
  | zero => rfl
  | succ n ih => exact ih (step w (.exec 0))

/-- **Handlers and locks.** In every run in which each interrupt meets code that does not hold the queues of its handler,
no handler wants a lock held by the code that it interrupted; any other interrupt, in any state that is reached, comes to
spin on such a lock. -/
theorem handlers_never_spin (current : ℕ) (ops : List Op) :
    (Along step Spared (start current) ops → ¬ Spins (run step (start current) ops)) ∧
      ∀ op, ¬ Spared (run step (start current) ops) op →
        ∃ n, Spins (run step (step (run step (start current) ops) op) (List.replicate n (.exec 0))) := by
  have hinv : Inv (run step (start current) ops) := 
    inv_run (I := Inv) (fun w op h => inv_step h op) (start current) ops (inv_start current)
  refine ⟨fun hspared => ?_, fun op hop => ?_⟩
  · have hclear : Inv (run step (start current) ops) ∧ Clear (run step (start current) ops) := by
      refine inv_along (I := fun w => Inv w ∧ Clear w) (fun w op h hop => ⟨inv_step h.1 op, ?_⟩) _ ops
        ⟨inv_start current, clear_of_none rfl⟩ hspared
      exact clear_step h.1.base h.2 op.act fun tr htr hnone henabled =>
        apart_acquires h.1 op (hop hnone henabled) tr htr henabled
    exact hclear.2.not_spins
  · generalize hw : run step (start current) ops = w at hinv hop ⊢
    rw [Spared, Classical.not_imp, Classical.not_imp] at hop
    obtain ⟨hnone, henabled, hapart⟩ := hop
    obtain ⟨tr, hact, l, hl, hheld⟩ := conflict_of_not_apart op hapart
    have hstep : step w op = { w with handler := some ⟨tr, [], 0⟩ } := by
      rw [step, hact, IrqLocks.step, if_pos ⟨Option.isNone_iff_eq_none.2 hnone, henabled⟩]
    have hbase : Base (step w op) := (inv_step hinv op).base
    rw [hstep] at hbase ⊢
    obtain ⟨n, hn⟩ := @spins_of_conflict Lock masks _ _ hbase ⟨tr, [], 0⟩ rfl l hl hheld
    exact ⟨n, by rw [run_exec]; exact hn⟩

/-- a read that is interrupted before it takes the lock -/
theorem spared_before_pop :
    ¬ Spins (run step (start 1) [.call .readChar, .keyboard false .kernel, .exec 0, .exec 0]) :=
  (handlers_never_spin 1 [.call .readChar, .keyboard false .kernel, .exec 0, .exec 0]).1
    ⟨fun _ _ => trivial, fun _ _ => ⟨by decide, by decide⟩, fun _ _ => trivial, fun _ _ => trivial, trivial⟩

/-- a keyboard interrupt inside `pop_scancode`, and a mouse interrupt inside `pop_packet` -/
theorem pop_interrupted :
    Spins (run step (start 1) [.call .readChar, .exec 0, .keyboard false .kernel]) ∧
      Spins (run step (start 1) [.call .readPacket, .exec 0, .mouse (some false) .kernel, .exec 0, .exec 0]) :=
  ⟨⟨_, .scancodeBuf, _, rfl, rfl, by decide⟩, ⟨_, .mousePacketBuf, _, rfl, rfl, by decide⟩⟩

end SwiftCore.Interrupt.InputLocks
