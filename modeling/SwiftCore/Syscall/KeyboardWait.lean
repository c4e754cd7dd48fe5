/-
Readers that wait for the keyboard (core/syscall/keyboard.rs: read_char_blocking, inject_scancode; core/util/ps2kbd.rs;
core/task/scheduler.rs: wake_thread, sleep_thread_unless_woken, yield_now).

A thread in `read_char_blocking` registers itself in the one waiter cell, pops, and goes to sleep if there was nothing. The
keyboard interrupt fires between any two steps: system calls run with interrupts enabled. The timer does not switch away
from a thread inside a system call (`scheduler_tick`), so the CPU changes hands in `yield_now` or outside of the calls.

- `inv_step`: a reader that sleeps is the registered waiter of an empty buffer, or its wake-up is on the way.
- `awake_of_lone_reader`: while one thread at a time reads, and no interrupt falls between its pop and its sleep, no reader
  sleeps through input.
- `sleeps_through`: an interrupt there is lost, since `wake_thread` takes no note for a thread that runs; and of two
  readers the first is forgotten.
-/
import SwiftCore.Syscall.PipeWait

namespace SwiftCore.Syscall.KeyboardWait

open Run SwiftCore.Task SwiftCore.Task.Threads Function

/-! ## Model -/

/-- where a thread is in `read_char_blocking` or in `push_scancode` of `inject_scancode` -/
inductive Point
  | outside
  /-- at the head of the loop -/
  | top
  /-- behind `register_waiter` -/
  | registered
  /-- behind a pop that found nothing -/
  | empty
  /-- behind a pop that found a scancode -/
  | got
  /-- behind `sleep_thread_unless_woken`, asleep -/
  | slept
  /-- the scancode is in the buffer -/
  | pushed
  /-- the waiter is taken out of its cell -/
  | waking (tid : ℕ)
deriving DecidableEq, Repr

/-- inside `read_char_blocking` -/
def Point.Reading : Point → Prop
  | .top | .registered | .empty | .got | .slept => True
  | .outside | .pushed | .waking _ => False

instance : DecidablePred Point.Reading
  | .top | .registered | .empty | .got | .slept => isTrue trivial
  | .outside | .pushed | .waking _ => isFalse id

structure World where
  threads : Threads
  current : ℕ
  /-- `SCANCODE_BUF` -/
  buf : List UInt8
  /-- `KEYBOARD_WAITER`, 0 if nobody waits -/
  waiter : ℕ
  points : ℕ → Point

inductive Op
  -- the steps of `read_char_blocking`
  | read
  | register
  | pop
  | unregister
  | sleep
  | yield
  -- the steps of `inject_scancode`; `privileged` is the answer of `caller_has_input_privilege`
  | inject (scancode : ℕ) (privileged : Bool)
  | swap
  | wake
  /-- `read_char` -/
  | take
  /-- the keyboard interrupt -/
  | irq (scancode : UInt8)
  /-- a wake-up from elsewhere -/
  | wakeThread (tid : ℕ)
  /-- the timer, at the end of a time slice or not -/
  | tick (slice : Bool)

variable (w : World)

def World.point : Point := w.points w.current

def World.goto (p : Point) : World := { w with points := update w.points w.current p }

/-- `schedule` and the switch to its pick -/
def switch : World :=
  { w with threads := (schedule w.threads (some w.current)).2
           current := ((schedule w.threads (some w.current)).1).getD w.current }

def bufCapacity : ℕ := 256

/-- `Fifo::push`; a full buffer drops the value -/
def fifoPush (buf : List UInt8) (c : UInt8) : List UInt8 := if bufCapacity ≤ buf.length then buf else buf ++ [c]

/-- `push_scancode` without a break, as the interrupt runs it -/
def pushScancode (c : UInt8) : World :=
  { w with buf := fifoPush w.buf c, waiter := 0
           threads := if w.waiter ≠ 0 then wakeThread w.threads w.waiter else w.threads }

def step : Op → World
  | .read => if w.point = .outside then w.goto .top else w
  | .register => if w.point = .top then { w with waiter := w.current }.goto .registered else w
  | .pop =>
    if w.point = .registered then
      match w.buf with
      | [] => w.goto .empty
      | _ :: rest => { w with buf := rest }.goto .got
    else w
  | .unregister =>
    if w.point = .got then { w with waiter := if w.waiter = w.current then 0 else w.waiter }.goto .outside else w
  | .sleep =>
    if w.point = .empty then
      match sleepThreadUnlessWoken w.threads w.current with
      | (true, threads) => { w with threads := threads }.goto .slept
      | (false, threads) => { w with threads := threads }.goto .top
    else w
  | .yield => if w.point = .slept then switch (w.goto .top) else w
  | .inject scancode privileged =>
    if w.point = .outside ∧ privileged = true ∧ scancode ≤ 0xff then
      { w with buf := fifoPush w.buf (UInt8.ofNat scancode) }.goto .pushed
    else w
  | .swap =>
    if w.point = .pushed then
      { w with waiter := 0 }.goto (if w.waiter ≠ 0 then .waking w.waiter else .outside)
    else w
  | .wake =>
    match w.point with
    | .waking tid => { w with threads := wakeThread w.threads tid }.goto .outside
    | _ => w
  | .take => if w.point = .outside then { w with buf := w.buf.tail } else w
  | .irq c => pushScancode w c
  | .wakeThread tid => { w with threads := wakeThread w.threads tid }
  | .tick slice => if slice = true ∧ w.point = .outside then switch w else w

/-! ## Specification -/

/-- the thread has a note of a wake-up, or the thread that injects is about to wake it -/
def WakePending (tid : ℕ) (t : Thread) : Prop :=
  t.pendingWakeup = true ∨ (w.point = .pushed ∧ w.waiter = tid) ∨ w.point = .waking tid
  deriving Decidable

/-- a reader sleeps with no wake-up to come, there is input, and no other reader can run -/
def SleepsThrough : Prop :=
  ∃ tid t, (w.points tid).Reading ∧ w.threads.get tid = some t ∧ t.state = .sleeping ∧ ¬ WakePending w tid t ∧
    w.buf ≠ [] ∧ ∀ i < maxThreads, ∀ t' ∈ w.threads.slots i, t'.id ≠ tid → (w.points t'.id).Reading →
      t'.state ≠ .ready ∧ t'.state ≠ .running

/-- the condition: a reader is the only one when it starts, and no interrupt falls between its pop and its sleep -/
def Undisturbed : Op → Prop
  | .read => ∀ tid, tid ≠ w.current → ¬ (w.points tid).Reading
  | .irq _ => w.point ≠ .empty
  | _ => True

/-! ## The invariant -/

structure Inv : Prop where
  turns : Turns w.threads w.current
  lone : ∀ {r s}, (w.points r).Reading → (w.points s).Reading → r = s
  /-- only the current thread is between two steps -/
  others : ∀ {r}, r ≠ w.current → w.points r = .outside ∨ w.points r = .top
  asleep : ∀ {r t}, (w.points r).Reading → w.threads.get r = some t → t.state = .sleeping →
    w.waiter = r ∧ (w.buf = [] ∨ w.point = .pushed) ∨ w.point = .waking r
  registered : w.point = .registered → w.buf = [] → w.waiter = w.current
  empty : w.point = .empty → w.buf = [] ∧ w.waiter = w.current
  /-- a thread that leaves, or is outside, does not sleep -/
  awake : ¬ w.point.Reading ∨ w.point = .got → ∀ {t}, w.threads.get w.current = some t → t.state ≠ .sleeping

/-! ## Steps -/

variable {w : World}

theorem goto_point (w : World) (p : Point) : (w.goto p).point = p := update_self ..

theorem goto_other (w : World) (p : Point) {r : ℕ} (hr : r ≠ w.current) : (w.goto p).points r = w.points r :=
  update_of_ne hr ..

theorem Inv.alone (h : Inv w) (hreading : w.point.Reading) {r : ℕ} (hr : r ≠ w.current) : ¬ (w.points r).Reading :=
  fun hr' => hr (h.lone hr' hreading)

/-- a step of the current thread when no other one reads -/
theorem inv_own {p : Point} (hturns : Turns w.threads w.current)
    (hothers : ∀ {r}, r ≠ w.current → w.points r = .outside ∨ w.points r = .top)
    (halone : ∀ {r}, r ≠ w.current → ¬ (w.points r).Reading)
    (hasleep : p.Reading → p ≠ .got → ∀ {t}, w.threads.get w.current = some t → t.state = .sleeping →
      w.waiter = w.current ∧ w.buf = [])
    (hregistered : p = .registered → w.buf = [] → w.waiter = w.current)
    (hempty : p = .empty → w.buf = [] ∧ w.waiter = w.current)
    (hawake : ¬ p.Reading ∨ p = .got → ∀ {t}, w.threads.get w.current = some t → t.state ≠ .sleeping) :
    Inv (w.goto p) := by
  have honly : ∀ {r}, ((w.goto p).points r).Reading → r = w.current := by
    intro r hr
    by_contra hne
    rw [goto_other w p hne] at hr
    exact halone hne hr
  refine ⟨hturns, fun hr hs => (honly hr).trans (honly hs).symm, fun {r} hr => ?_, fun {r t} hr ht hs => ?_, ?_, ?_, ?_⟩
  · rw [goto_other w p hr]
    exact hothers hr
  · obtain rfl := honly hr
    have hr : ((w.goto p).point).Reading := hr
    rw [goto_point] at hr
    by_cases hgot : p = .got
    · exact absurd hs (hawake (.inr hgot) ht)
    · obtain ⟨hwaiter, hbuf⟩ := hasleep hr hgot ht hs
      exact .inl ⟨hwaiter, .inl hbuf⟩
  · rw [goto_point]
    exact hregistered
  · rw [goto_point]
    exact hempty
  · rw [goto_point]
    exact hawake

variable (h : Inv w)

include h

/-- a sleeping reader that runs on is registered, and the buffer is empty -/
theorem Inv.own_asleep (hreading : w.point.Reading) {t : Thread} (ht : w.threads.get w.current = some t)
    (hs : t.state = .sleeping) : w.waiter = w.current ∧ w.buf = [] := by
  rcases h.asleep hreading ht hs with ⟨hwaiter, hbuf | hpushed⟩ | hwaking
  · exact ⟨hwaiter, hbuf⟩
  · rw [hpushed] at hreading
    exact hreading.elim
  · rw [hwaking] at hreading
    exact hreading.elim

theorem inv_read (hlone : Undisturbed w .read) : Inv (step w .read) := by
  rw [step]
  split_ifs with hp
  · exact inv_own h.turns h.others (fun hr => hlone _ hr)
      (fun _ _ {t} ht hs => absurd hs (h.awake (.inl (by rw [hp]; exact id)) ht)) nofun nofun
      (fun hno => by simp [Point.Reading] at hno)
  · exact h

theorem inv_register : Inv (step w .register) := by
  rw [step]
  split_ifs with hp
  · have hreading : w.point.Reading := by rw [hp]; trivial
    exact inv_own (w := { w with waiter := w.current }) h.turns h.others (fun hr => h.alone hreading hr)
      (fun _ _ {t} ht hs => ⟨rfl, (h.own_asleep hreading ht hs).2⟩) (fun _ _ => rfl) nofun
      (fun hno => by simp [Point.Reading] at hno)
  · exact h

theorem inv_pop : Inv (step w .pop) := by
  rw [step]
  split_ifs with hp
  · have hreading : w.point.Reading := by rw [hp]; trivial
    cases hbuf : w.buf with
    | nil =>
      exact inv_own h.turns h.others (fun hr => h.alone hreading hr) (fun _ _ {t} ht hs => h.own_asleep hreading ht hs)
        nofun (fun _ => ⟨hbuf, h.registered hp hbuf⟩) (fun hno => by simp [Point.Reading] at hno)
    | cons c rest =>
      refine inv_own (w := { w with buf := rest }) h.turns h.others (fun hr => h.alone hreading hr)
        (fun _ hgot => absurd rfl hgot) nofun nofun fun _ {t} ht hs => ?_
      have hnil := (h.own_asleep hreading ht hs).2
      cases hbuf.symm.trans hnil
  · exact h

theorem inv_unregister : Inv (step w .unregister) := by
  rw [step]
  by_cases hp : w.point = .got
  · have hreading : w.point.Reading := by rw [hp]; trivial
    rw [if_pos hp]
    exact inv_own (w := { w with waiter := _ }) h.turns h.others (fun hr => h.alone hreading hr) (fun hno => hno.elim)
      nofun nofun fun _ {t} ht => h.awake (.inr hp) ht
  · rw [if_neg hp]
    exact h

theorem inv_sleep : Inv (step w .sleep) := by
  rw [step]
  split_ifs with hp
  · have hreading : w.point.Reading := by rw [hp]; trivial
    obtain ⟨hbuf, hwaiter⟩ := h.empty hp
    obtain ⟨t, ht, -⟩ := h.turns.current
    rw [sleepThreadUnlessWoken, ht]
    by_cases hpending : t.pendingWakeup = true
    · simp only [if_pos hpending]
      have hturns : Turns (w.threads.withThreadMut w.current fun t => { t with pendingWakeup := false }) w.current :=
        h.turns.withThreadMut (f := fun t => { t with pendingWakeup := false }) (fun _ => rfl) (fun _ hs => hs)
          (fun _ hl => hl) w.current
      exact inv_own (w := { w with threads := _ }) hturns h.others (fun hr => h.alone hreading hr)
        (fun _ _ {_} _ _ => ⟨hwaiter, hbuf⟩) nofun nofun (fun hno => by simp [Point.Reading] at hno)
    · simp only [if_neg hpending]
      exact inv_own (w := { w with threads := _ }) (h.turns.sleepThread w.current) h.others
        (fun hr => h.alone hreading hr) (fun _ _ {_} _ _ => ⟨hwaiter, hbuf⟩) nofun nofun
        (fun hno => by simp [Point.Reading] at hno)
  · exact h

/-- the CPU changes hands: the current thread is at the head of the loop or outside -/
theorem inv_switch (hp : w.point = .outside ∨ w.point = .top) : Inv (switch w) := by
  have hpoints : ∀ r, w.points r = .outside ∨ w.points r = .top := by
    intro r
    by_cases hr : r = w.current
    · rw [hr]
      exact hp
    · exact h.others hr
  have hmid : ∀ {p : Point}, (switch w).point = p → p = .outside ∨ p = .top := fun {p} hq => hq ▸ hpoints _
  refine ⟨h.turns.schedule, h.lone, fun {r} _ => hpoints r, fun {r u} hr hu hs => ?_, fun hq => ?_, fun hq => ?_,
    fun hq {u} hu hs => ?_⟩
  · obtain ⟨t, ht, hs⟩ := asleep_of_schedule hu hs
    rcases h.asleep hr ht hs with ⟨hwaiter, hbuf | hpushed⟩ | hwaking
    · exact .inl ⟨hwaiter, .inl hbuf⟩
    · rw [hpushed] at hp
      exact absurd hp (by decide)
    · rw [hwaking] at hp
      exact absurd hp (by simp)
  · exact absurd (hmid hq) (by decide)
  · exact absurd (hmid hq) (by decide)
  · -- the thread picked runs; without a pick the current thread goes on, outside
    cases hpick : (schedule w.threads (some w.current)).1 with
    | some id =>
      obtain ⟨v, hv, hrun⟩ := schedule_pick h.turns.distinct hpick
      have hcurrent : (switch w).current = id := by simp [switch, hpick]
      rw [hcurrent] at hu
      cases hu.symm.trans hv
      cases hrun.symm.trans hs
    | none =>
      have hcurrent : (switch w).current = w.current := by simp [switch, hpick]
      have hpoint : (switch w).point = w.point := congrArg w.points hcurrent
      rw [hpoint] at hq
      rw [hcurrent] at hu
      obtain ⟨t, ht, hs⟩ := asleep_of_schedule hu hs
      exact h.awake hq ht hs

theorem inv_yield : Inv (step w .yield) := by
  rw [step]
  split_ifs with hp
  · have hreading : w.point.Reading := by rw [hp]; trivial
    refine inv_switch (inv_own h.turns h.others (fun hr => h.alone hreading hr)
      (fun _ _ {t} ht hs => h.own_asleep hreading ht hs) nofun nofun (fun hno => by simp [Point.Reading] at hno)) ?_
    exact .inr (goto_point w .top)
  · exact h

/-- a step of a thread that does not read, and does not begin to -/
theorem inv_aside {p : Point} (hp : ¬ w.point.Reading) (hq : ¬ p.Reading) {threads : Threads} {buf : List UInt8}
    {waiter : ℕ} (hturns : Turns threads w.current)
    (hthreads : ∀ {r u}, threads.get r = some u → u.state = .sleeping → ∃ t, w.threads.get r = some t ∧ t.state = .sleeping)
    (hasleep : ∀ {r t}, threads.get r = some t → t.state = .sleeping → r ≠ 0 →
      w.waiter = r ∧ (w.buf = [] ∨ w.point = .pushed) ∨ w.point = .waking r →
      waiter = r ∧ (buf = [] ∨ p = .pushed) ∨ p = .waking r) :
    Inv ({ w with threads := threads, buf := buf, waiter := waiter }.goto p) := by
  have hpoints : ∀ {r}, (update w.points w.current p r).Reading → (w.points r).Reading := by
    intro r hr
    rw [update_apply] at hr
    split_ifs at hr with hne
    · exact absurd hr hq
    · exact hr
  have hnot : ∀ {o : Point}, o.Reading →
      (World.goto { w with threads := threads, buf := buf, waiter := waiter } p).point ≠ o := by
    intro o ho heq
    rw [goto_point] at heq
    exact hq (heq ▸ ho)
  refine ⟨hturns, fun hr hs => h.lone (hpoints hr) (hpoints hs), fun {r} hr => ?_, fun {r t} hr ht hs => ?_,
    fun hreg => absurd hreg (hnot trivial), fun hemp => absurd hemp (hnot trivial), fun _ {t} ht hs => ?_⟩
  · rw [goto_other { w with threads := threads, buf := buf, waiter := waiter } p hr]
    exact h.others hr
  · rw [goto_point]
    obtain ⟨u, hu, hs'⟩ := hthreads ht hs
    exact hasleep ht hs (hturns.get_nonzero ht) (h.asleep (hpoints hr) hu hs')
  · obtain ⟨u, hu, hs'⟩ := hthreads ht hs
    exact h.awake (.inl hp) hu hs'

theorem inv_inject (scancode : ℕ) (privileged : Bool) : Inv (step w (.inject scancode privileged)) := by
  rw [step]
  split_ifs with hp
  · refine inv_aside h (by rw [hp.1]; exact id) id h.turns (fun hu hs => ⟨_, hu, hs⟩) fun {r t} _ _ _ hasleep => ?_
    rcases hasleep with ⟨hwaiter, -⟩ | hwaking
    · exact .inl ⟨hwaiter, .inr rfl⟩
    · cases hp.1.symm.trans hwaking
  · exact h

theorem inv_swap : Inv (step w .swap) := by
  rw [step]
  by_cases hp : w.point = .pushed
  · rw [if_pos hp]
    have hq : ¬ (if w.waiter ≠ 0 then Point.waking w.waiter else .outside).Reading := by
      split_ifs <;> exact id
    refine inv_aside h (by rw [hp]; exact id) hq h.turns (fun hu hs => ⟨_, hu, hs⟩) fun {r t} _ _ hr hasleep => ?_
    rcases hasleep with ⟨rfl, -⟩ | hwaking
    · exact .inr (if_pos hr)
    · cases hp.symm.trans hwaking
  · rw [if_neg hp]
    exact h

omit h

/-- a thread that sleeps after a wake-up was not the one woken -/
theorem asleep_of_wakeThread {q : Threads} {id r : ℕ} {u : Thread} (hu : (wakeThread q id).get r = some u)
    (hs : u.state = .sleeping) : r ≠ id ∧ q.get r = some u := by
  rw [get_wakeThread] at hu
  split_ifs at hu with hr
  · obtain ⟨t, -, rfl⟩ := Option.map_eq_some_iff.1 hu
    exact absurd hs t.woken_not_sleeping
  · exact ⟨hr, hu⟩

theorem inv_wake (h : Inv w) : Inv (step w .wake) := by
  rw [step]
  cases hp : w.point with
  | waking tid =>
    refine inv_aside h (by rw [hp]; exact id) id (h.turns.wakeThread tid)
      (fun hu hs => ⟨_, (asleep_of_wakeThread hu hs).2, hs⟩) fun {r t} ht hs _ hasleep => ?_
    rcases hasleep with ⟨hwaiter, hbuf | hpushed⟩ | hwaking
    · exact .inl ⟨hwaiter, .inl hbuf⟩
    · cases hp.symm.trans hpushed
    · exact absurd (Point.waking.inj (hp.symm.trans hwaking)).symm (asleep_of_wakeThread ht hs).1
  | outside | top | registered | empty | got | slept | pushed => exact h

theorem inv_take (h : Inv w) : Inv (step w .take) := by
  rw [step]
  split_ifs with hp
  · have hinv : Inv ({ w with buf := w.buf.tail }.goto .outside) := by
      refine inv_aside h (by rw [hp]; exact id) id h.turns (fun hu hs => ⟨_, hu, hs⟩) fun {r t} _ _ _ hasleep => ?_
      rcases hasleep with ⟨hwaiter, hbuf | hpushed⟩ | hwaking
      · exact .inl ⟨hwaiter, .inl (by rw [hbuf]; rfl)⟩
      · cases hp.symm.trans hpushed
      · cases hp.symm.trans hwaking
    have hsame : ({ w with buf := w.buf.tail }.goto .outside : World) = { w with buf := w.buf.tail } := by
      have hpoints : update w.points w.current .outside = w.points := by
        rw [← hp]
        exact update_eq_self ..
      simp only [World.goto, hpoints]
    rwa [hsame] at hinv
  · exact h

/-- the threads change so that none falls asleep, and readers stay registered -/
theorem inv_interrupt (h : Inv w) {threads : Threads} {buf : List UInt8} {waiter : ℕ} (hturns : Turns threads w.current)
    (hthreads : ∀ {r u}, threads.get r = some u → u.state = .sleeping → w.threads.get r = some u)
    (hasleep : ∀ {r t}, threads.get r = some t → t.state = .sleeping → r ≠ 0 → w.waiter = r → waiter = r ∧ buf = w.buf)
    (hregistered : w.point = .registered → buf = [] → waiter = w.current)
    (hempty : w.point = .empty → buf = [] ∧ waiter = w.current) :
    Inv { w with threads := threads, buf := buf, waiter := waiter } := by
  refine ⟨hturns, h.lone, h.others, fun {r t} hr ht hs => ?_, hregistered, hempty, fun hq {t} ht hs =>
    h.awake hq (hthreads ht hs) hs⟩
  rcases h.asleep hr (hthreads ht hs) hs with ⟨hwaiter, hbuf⟩ | hwaking
  · obtain ⟨hwaiter', hbuf'⟩ := hasleep ht hs (hturns.get_nonzero ht) hwaiter
    exact .inl ⟨hwaiter', by rw [hbuf']; exact hbuf⟩
  · exact .inr hwaking

theorem fifoPush_ne_nil (buf : List UInt8) (c : UInt8) : fifoPush buf c ≠ [] := by
  unfold fifoPush
  split_ifs with hfull
  · rintro rfl
    exact absurd hfull (by decide)
  · simp

include h

theorem inv_irq (c : UInt8) (hmid : Undisturbed w (.irq c)) : Inv (step w (.irq c)) := by
  rw [step, pushScancode]
  split_ifs with hwaiter
  · exact inv_interrupt h (h.turns.wakeThread _) (fun hu hs => (asleep_of_wakeThread hu hs).2)
      (fun ht hs _ hr => absurd hr.symm (asleep_of_wakeThread ht hs).1) (fun _ hnil => absurd hnil (fifoPush_ne_nil _ c))
      fun hempty => absurd hempty hmid
  · exact inv_interrupt h h.turns (fun hu _ => hu) (fun _ _ hr hr' => absurd hr'.symm fun heq => hwaiter (heq ▸ hr))
      (fun _ hnil => absurd hnil (fifoPush_ne_nil _ c)) fun hempty => absurd hempty hmid

theorem inv_wakeThread (tid : ℕ) : Inv (step w (.wakeThread tid)) :=
  inv_interrupt h (h.turns.wakeThread tid) (fun hu hs => (asleep_of_wakeThread hu hs).2) (fun _ _ _ hr => ⟨hr, rfl⟩)
    h.registered h.empty

theorem inv_tick (slice : Bool) : Inv (step w (.tick slice)) := by
  rw [step]
  split_ifs with hp
  · exact inv_switch h (.inl hp.2)
  · exact h

/-- **Step.** While one thread at a time reads and is not disturbed between pop and sleep, a reader that sleeps is
registered with the buffer empty, or about to be woken. -/
theorem inv_step (op : Op) (hok : Undisturbed w op) : Inv (step w op) := by
  cases op with
  | read => exact inv_read h hok
  | register => exact inv_register h
  | pop => exact inv_pop h
  | unregister => exact inv_unregister h
  | sleep => exact inv_sleep h
  | yield => exact inv_yield h
  | inject scancode privileged => exact inv_inject h scancode privileged
  | swap => exact inv_swap h
  | wake => exact inv_wake h
  | take => exact inv_take h
  | irq c => exact inv_irq h c hok
  | wakeThread tid => exact inv_wakeThread h tid
  | tick slice => exact inv_tick h slice

theorem Inv.not_sleepsThrough : ¬ SleepsThrough w := by
  rintro ⟨tid, t, hreading, ht, hs, hpending, hbuf, -⟩
  rcases h.asleep hreading ht hs with ⟨hwaiter, hnil | hpushed⟩ | hwaking
  · exact hbuf hnil
  · exact hpending (.inr (.inl ⟨hpushed, hwaiter⟩))
  · exact hpending (.inr (.inr hwaking))

omit h

/-! ## Runs -/

/-- a system before anyone reads from the keyboard -/
structure Started (w : World) : Prop where
  turns : Turns w.threads w.current
  outside : ∀ tid, w.points tid = .outside
  awake : ∀ {t}, w.threads.get w.current = some t → t.state ≠ .sleeping

theorem Started.inv (h : Started w) : Inv w := by
  have hpoint : w.point = .outside := h.outside w.current
  have hno : ∀ {r}, ¬ (w.points r).Reading := fun {r} hr => by
    rw [h.outside r] at hr
    exact hr
  exact ⟨h.turns, fun hr => absurd hr hno, fun {r} _ => .inl (h.outside r), fun hr => absurd hr hno,
    fun hr => (nomatch hpoint.symm.trans hr), fun hr => (nomatch hpoint.symm.trans hr), fun _ {_} ht => h.awake ht⟩

/-- **No reader sleeps through input.** In every run in which one thread at a time reads and no keyboard interrupt falls
between its pop and its sleep. -/
theorem awake_of_lone_reader {w : World} (hw : Started w) (ops : List Op) (hc : Along step Undisturbed w ops) :
    ¬ SleepsThrough (run step w ops) :=
  (inv_along (I := Inv) (fun _ op h hok => inv_step h op hok) w ops hw.inv hc).not_sleepsThrough

/-- threads 1, 2 and 3, of which 1 runs -/
def idle : World where
  threads := PipeWait.threeThreads.threads
  current := 1
  buf := []
  waiter := 0
  points _ := .outside

theorem idle_started : Started idle := by
  refine ⟨PipeWait.threeThreads_started.turns, fun _ => rfl, fun {t} ht => ?_⟩
  have hget : idle.threads.get idle.current = some ⟨1, 0, .running, false, false⟩ := by decide +kernel
  cases ht.symm.trans hget
  nofun

/-- a reader goes to sleep and is woken by the interrupt -/
def oneReader : List Op := [.read, .register, .pop, .sleep, .yield, .irq 30, .tick true]

theorem keyboard_reader_woken :
    Along step Undisturbed idle oneReader ∧ ¬ SleepsThrough (run step idle oneReader) := by
  have hirq : (run step idle [.read, .register, .pop, .sleep, .yield]).point ≠ .empty := by decide +kernel
  have hok : Along step Undisturbed idle oneReader :=
    ⟨fun _ _ h => h, trivial, trivial, trivial, trivial, hirq, trivial, trivial⟩
  exact ⟨hok, awake_of_lone_reader idle_started oneReader hok⟩

/-- the interrupt falls between the pop and the sleep -/
def disturbed : List Op := [.read, .register, .pop, .irq 30, .sleep, .yield]

/-- 1 and 2 wait; two keys are pressed, and 2, which is woken, takes one of them -/
def forgotten : List Op :=
  [.read, .register, .pop, .sleep, .yield, .read, .register, .pop, .sleep, .yield, .irq 30, .irq 31, .tick true,
    .register, .pop, .unregister]

theorem sleeps_through : SleepsThrough (run step idle disturbed) ∧ SleepsThrough (run step idle forgotten) := by
  constructor
  · exact ⟨1, ⟨1, 0, .sleeping, false, false⟩, by decide +kernel, by decide +kernel, rfl, by decide +kernel,
      by decide +kernel, by decide +kernel⟩
  · exact ⟨1, ⟨1, 0, .sleeping, false, false⟩, by decide +kernel, by decide +kernel, rfl, by decide +kernel,
      by decide +kernel, by decide +kernel⟩

end SwiftCore.Syscall.KeyboardWait
