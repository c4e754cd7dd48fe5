/-
Mailboxes under thread creation, exit and slot reuse (`send`, the kernel sends and the receives of `core/syscall/ipc.rs`,
over `ThreadQueue`).

Mailbox `i` belongs to SLOT `i` of the thread table; a message belongs to the thread it was sent to and carries that
thread's id, slot and generation. A send has two phases with other threads' steps between them: it looks the
destination up in the thread table (`sendStart`), copies the data, and then pushes under the mailbox lock (`Sys.push`).
A receive is made by a live thread on its own mailbox. Nothing empties a mailbox when its thread exits.

Unreadable user data ends a send before anything is queued, so `sendStart` takes the bytes that were read.

- Every delivered message is that of an accepted send to the receiver's id, in every run.
- `mailboxes_start_clean`: if threads move only into slots whose mailbox is empty, and no message is pushed into the
  mailbox of a slot that meanwhile another thread occupies (`CleanStep`), then a send to a live thread gets `EAGAIN`
  exactly when `mailboxCap` messages for that very thread are queued.
- `leftovers_block_sends`: without that, 64 messages to a thread that has exited block the next thread in its slot; its
  selective receives do not discard them.
-/
import SwiftCore.Ipc.Invariant
import SwiftCore.Syscall.Types
import SwiftCore.Task.ThreadQueue

namespace SwiftCore.Ipc.Slots

open Run Syscall SwiftCore.Task Mailbox Function

/-! ## Model -/

/-- a send after its lookup -/
structure Pending where
  sender : ℕ
  dest : Addr
  payload : Payload

def Pending.message (p : Pending) : Message := p.payload.message p.sender p.dest

/-- a send up to the mailbox lock; the kernel sends report any error as `false` -/
def sendStart (q : ThreadQueue) (sender destTid : ℕ) (payload : Payload) : Except Errno Pending :=
  if destTid = 0 then .error .EINVAL
  else if ¬ payload.fits then .error .EINVAL
  else
    match q.slotIndexAndGeneration destTid with
    | none => .error .EINVAL
    | some (idx, generation) =>
      if maxThreads ≤ idx ∨ 65535 < idx then .error .EINVAL
      else .ok ⟨sender, ⟨destTid, idx, generation⟩, payload⟩

structure Sys where
  queue : ThreadQueue
  boxes : ℕ → Mailbox
  /-- sends between their two phases -/
  inFlight : List Pending
  /-- accepted sends -/
  sent : List Pending
  /-- (receiver's thread id, message) -/
  delivered : List (ℕ × Message)

def init : Sys := ⟨ThreadQueue.new, fun _ => Mailbox.new, [], [], []⟩

variable (st : Sys)

/-- the locked part of a send -/
def Sys.push (p : Pending) : Except Errno Unit × Sys :=
  match (st.boxes p.dest.slot).deliver p.sender p.dest p.payload with
  | (false, mb) => (.error .EAGAIN, { st with boxes := update st.boxes p.dest.slot mb })
  | (true, mb) => (.ok (), { st with boxes := update st.boxes p.dest.slot mb, sent := st.sent ++ [p] })

/-- a receive by thread `tid` from its own mailbox -/
def Sys.receive (tid : ℕ) (pop : Mailbox → Addr → Option Message × Mailbox) : Sys :=
  match st.queue.slotIndexAndGeneration tid with
  | none => st
  | some (idx, generation) =>
    let (m, mb) := pop (st.boxes idx) ⟨tid, idx, generation⟩
    { st with boxes := update st.boxes idx mb, delivered := st.delivered ++ m.toList.map fun m => (tid, m) }

inductive Op where
  | create (tid : ℕ)
  | exit (tid : ℕ)
  | sendStart (sender destTid : ℕ) (payload : Payload)
  /-- second phase of the `k`-th send in flight -/
  | push (k : ℕ)
  | recv (tid : ℕ)
  | recvFrom (tid sender : ℕ)

def step : Op → Sys
  | .create tid => { st with queue := (st.queue.push tid).2 }
  | .exit tid => { st with queue := (st.queue.remove tid).2 }
  | .sendStart sender destTid payload =>
    match sendStart st.queue sender destTid payload with
    | .error _ => st
    | .ok p => { st with inFlight := st.inFlight ++ [p] }
  | .push k =>
    match st.inFlight[k]? with
    | none => st
    | some p => { (st.push p).2 with inFlight := st.inFlight.eraseIdx k }
  | .recv tid => st.receive tid popValid
  | .recvFrom tid sender => st.receive tid fun mb r => mb.popFromSender sender r

/-- the slot of `p`'s destination is free, or still the destination's -/
def Sys.NotTakenOver (p : Pending) : Prop :=
  st.queue.threads p.dest.slot = none ∨
    (st.queue.threads p.dest.slot = some p.dest.tid ∧ st.queue.slotGenerations p.dest.slot = p.dest.generation)
  deriving Decidable

/-- a thread moves only into a slot with an empty mailbox; nothing is pushed to an earlier occupant of a slot -/
def CleanStep : Op → Prop
  | .create _ => ∀ i ∈ st.queue.freeSlot, (st.boxes i).count = 0
  | .push k => ∀ p ∈ st.inFlight[k]?, st.NotTakenOver p
  | _ => True

instance (o : Op) : Decidable (CleanStep st o) := by
  cases o <;> unfold CleanStep <;> infer_instance

/-! ## Every run: delivery to the addressee only -/

structure Inv : Prop where
  boxes : ∀ i, (st.boxes i).Inv
  queued : ∀ i, ∀ m ∈ (st.boxes i).contents, ∃ p ∈ st.sent, p.message = m
  delivered : ∀ d ∈ st.delivered, d.2.toTid = d.1 ∧ ∃ p ∈ st.sent, p.message = d.2
  fits : ∀ p ∈ st.inFlight, p.payload.fits

theorem inv_init : Inv init :=
  ⟨fun _ => inv_new, fun _ m hm => by simp [init, contents, queued, new] at hm, by simp [init], by simp [init]⟩

variable {p : Pending} {st : Sys}

theorem sendStart_ok {q : ThreadQueue} {sender destTid : ℕ} {payload : Payload}
    (h : sendStart q sender destTid payload = .ok p) : p.payload.fits := by
  unfold sendStart at h
  split_ifs at h with h0 hfits
  cases hs : q.slotIndexAndGeneration destTid with
  | none => simp [hs] at h
  | some ig =>
    rw [hs] at h
    dsimp only at h
    split_ifs at h
    rw [Except.ok.injEq] at h
    subst h
    simpa using hfits

/-- a property of every mailbox, after one of them is replaced -/
theorem forall_boxes {boxes : ℕ → Mailbox} {i : ℕ} {mb : Mailbox} (P : ℕ → Mailbox → Prop) (hi : P i mb)
    (h : ∀ j, P j (boxes j)) : ∀ j, P j (update boxes i mb j) :=
  (forall_update_iff boxes P).2 ⟨hi, fun j _ => h j⟩

/-- a push in one equation -/
theorem push_eq (st : Sys) (p : Pending) :
    let res := (st.boxes p.dest.slot).deliver p.sender p.dest p.payload
    st.push p = (if res.1 then .ok () else .error .EAGAIN,
      { st with
        boxes := update st.boxes p.dest.slot res.2
        sent := st.sent ++ if res.1 then [p] else [] }) := by
  intro res
  unfold Sys.push
  rcases hres : (st.boxes p.dest.slot).deliver p.sender p.dest p.payload with ⟨_ | _, mb⟩ <;> simp [res, hres]

/-- what is queued after a push was queued before or is the pushed message -/
theorem mem_of_sent {mb : Mailbox} {m m' : Message} {res : Bool × Mailbox} (h : mb.Sent m res)
    (hm : m' ∈ res.2.contents) : m' ∈ mb.contents ∨ (res.1 = true ∧ m' = m) := by
  rw [h.contents] at hm
  split_ifs at hm with hok
  · rcases List.mem_append.1 hm with hm | hm
    · exact .inl hm
    · exact .inr ⟨hok, List.mem_singleton.1 hm⟩
  · exact .inl hm

theorem push_inv (h : Inv st) (p : Pending) : Inv (st.push p).2 := by
  have hsent : (st.boxes p.dest.slot).Sent p.message _ := deliver_sent (h.boxes p.dest.slot) p.sender p.dest p.payload
  have hold : ∀ {m : Message} (l : List Pending), (∃ q ∈ st.sent, q.message = m) → ∃ q ∈ st.sent ++ l, q.message = m := by
    rintro m l ⟨q, hq, hm⟩
    exact ⟨q, List.mem_append_left l hq, hm⟩
  rw [push_eq]
  refine ⟨forall_boxes (fun _ mb => mb.Inv) hsent.inv h.boxes, ?_, ?_, h.fits⟩
  · refine forall_boxes (fun _ mb => ∀ m ∈ mb.contents, ∃ q ∈ st.sent ++ _, q.message = m) ?_ fun j m hm =>
      hold _ (h.queued j m hm)
    intro m hm
    rcases mem_of_sent hsent hm with hm | ⟨hok, rfl⟩
    · exact hold _ (h.queued _ m hm)
    · exact ⟨p, by simp [hok], rfl⟩
  · exact fun d hd => ⟨(h.delivered d hd).1, hold _ (h.delivered d hd).2⟩

theorem receive_inv (h : Inv st) (tid : ℕ) {pop : Mailbox → Addr → Option Message × Mailbox}
    (hpop : ∀ (mb : Mailbox) r, mb.Inv → mb.Popped r (pop mb r)) : Inv (st.receive tid pop) := by
  unfold Sys.receive
  cases hs : st.queue.slotIndexAndGeneration tid with
  | none => exact h
  | some ig =>
    obtain ⟨idx, generation⟩ := ig
    have hp := hpop (st.boxes idx) ⟨tid, idx, generation⟩ (h.boxes idx)
    refine { h with boxes := forall_boxes (fun _ mb => mb.Inv) hp.inv h.boxes, queued := ?_, delivered := ?_ }
    · exact forall_boxes (fun _ mb => ∀ m ∈ mb.contents, ∃ q ∈ st.sent, q.message = m)
        (fun m hm => h.queued idx m (hp.subset m hm)) h.queued
    · intro d hd
      rcases List.mem_append.1 hd with hd | hd
      · exact h.delivered d hd
      · obtain ⟨m, hm, rfl⟩ := List.mem_map.1 hd
        obtain ⟨hmem, haddr⟩ := hp.got m (Option.mem_toList.1 hm)
        exact ⟨haddr.1, h.queued idx m hmem⟩

theorem step_inv (st : Sys) (o : Op) (h : Inv st) : Inv (step st o) := by
  cases o with
  | create tid => exact ⟨h.boxes, h.queued, h.delivered, h.fits⟩
  | exit tid => exact ⟨h.boxes, h.queued, h.delivered, h.fits⟩
  | sendStart sender destTid payload =>
    cases hs : sendStart st.queue sender destTid payload with
    | error e => simpa only [step, hs] using h
    | ok p =>
      simp only [step, hs]
      refine { h with fits := fun p' hp' => ?_ }
      rcases List.mem_append.1 hp' with hp' | hp'
      · exact h.fits p' hp'
      · exact List.mem_singleton.1 hp' ▸ sendStart_ok hs
  | push k =>
    cases hk : st.inFlight[k]? with
    | none => simpa only [step, hk] using h
    | some p =>
      simp only [step, hk]
      exact { push_inv h p with fits := fun p' hp' => h.fits p' (List.mem_of_mem_eraseIdx hp') }
  | recv tid => exact receive_inv h tid fun mb r hmb => popValid_popped hmb r
  | recvFrom tid sender => exact receive_inv h tid fun mb r hmb => popFromSender_popped hmb sender r

/-! ## Clean runs: only the occupant's messages are queued -/

/-- the mailbox of an occupied slot holds messages for its occupant only -/
def Clean (st : Sys) : Prop :=
  ∀ i tid, st.queue.threads i = some tid →
    ∀ m ∈ (st.boxes i).contents, m.addressedTo ⟨tid, i, st.queue.slotGenerations i⟩

theorem message_addressedTo (p : Pending) : p.message.addressedTo p.dest := by
  obtain ⟨sender, dest, payload⟩ := p
  cases payload <;> exact ⟨rfl, rfl, rfl⟩

theorem push_clean (h : Inv st) (hc : Clean st) (hp : st.NotTakenOver p) : Clean (st.push p).2 := by
  have hsent : (st.boxes p.dest.slot).Sent p.message _ := deliver_sent (h.boxes p.dest.slot) p.sender p.dest p.payload
  rw [push_eq]
  refine forall_boxes (fun i mb => ∀ tid, st.queue.threads i = some tid →
    ∀ m ∈ mb.contents, m.addressedTo ⟨tid, i, st.queue.slotGenerations i⟩) ?_ hc
  intro tid htid m hm
  rcases mem_of_sent hsent hm with hm | ⟨-, rfl⟩
  · exact hc _ tid htid m hm
  · rcases hp with hfree | ⟨hocc, hgen⟩
    · simp [hfree] at htid
    · rw [hocc] at htid
      cases htid
      rw [hgen]
      exact message_addressedTo p

theorem receive_clean (h : Inv st) (hc : Clean st) (tid : ℕ)
    {pop : Mailbox → Addr → Option Message × Mailbox} (hpop : ∀ (mb : Mailbox) r, mb.Inv → mb.Popped r (pop mb r)) :
    Clean (st.receive tid pop) := by
  unfold Sys.receive
  cases hs : st.queue.slotIndexAndGeneration tid with
  | none => exact hc
  | some ig =>
    obtain ⟨idx, generation⟩ := ig
    have hp := hpop (st.boxes idx) ⟨tid, idx, generation⟩ (h.boxes idx)
    exact forall_boxes (fun i mb => ∀ tid, st.queue.threads i = some tid →
      ∀ m ∈ mb.contents, m.addressedTo ⟨tid, i, st.queue.slotGenerations i⟩)
      (fun t ht m hm => hc idx t ht m (hp.subset m hm)) hc

theorem create_clean (hc : Clean st) {tid : ℕ} (hempty : ∀ i ∈ st.queue.freeSlot, (st.boxes i).count = 0) :
    Clean { st with queue := (st.queue.push tid).2 } := by
  intro i t ht m hm
  rcases ThreadQueue.push_threads ht with hfree | ⟨hold, hgen⟩
  · -- a new occupant finds nothing
    have hnil : (st.boxes i).contents = [] := by
      rw [← List.length_eq_zero_iff, length_contents]
      exact hempty i hfree
    simp [hnil] at hm
  · rw [hgen]
    exact hc i t hold m hm

theorem exit_clean (hc : Clean st) (tid : ℕ) : Clean { st with queue := (st.queue.remove tid).2 } := by
  intro i t ht m hm
  rw [ThreadQueue.remove_slotGenerations]
  exact hc i t (ThreadQueue.remove_threads ht) m hm

theorem step_clean (st : Sys) (o : Op) (h : Inv st ∧ Clean st) (hok : CleanStep st o) :
    Inv (step st o) ∧ Clean (step st o) := by
  refine ⟨step_inv st o h.1, ?_⟩
  cases o with
  | create tid => exact create_clean h.2 hok
  | exit tid => exact exit_clean h.2 tid
  | sendStart sender destTid payload =>
    cases hs : sendStart st.queue sender destTid payload with
    | error e => simpa only [step, hs] using h.2
    | ok p =>
      simp only [step, hs]
      exact h.2
  | push k =>
    cases hk : st.inFlight[k]? with
    | none => simpa only [step, hk] using h.2
    | some p =>
      simp only [step, hk]
      exact push_clean h.1 h.2 (hok p hk)
  | recv tid => exact receive_clean h.1 h.2 tid fun mb r hmb => popValid_popped hmb r
  | recvFrom tid sender => exact receive_clean h.1 h.2 tid fun mb r hmb => popFromSender_popped hmb sender r

theorem clean_init : Clean init := by
  intro i tid htid
  simp [init, ThreadQueue.new] at htid

/-! ## Results -/

theorem push_eq_EAGAIN (h : Inv st) (hfits : p.payload.fits) :
    (st.push p).1 = .error .EAGAIN ↔ (st.boxes p.dest.slot).contents.length = mailboxCap := by
  rw [← deliver_eq_false (h.boxes p.dest.slot) p.sender p.dest hfits, push_eq]
  cases ((st.boxes p.dest.slot).deliver p.sender p.dest p.payload).1 <;> simp

/-- **Mailboxes start clean.** In every run, what a thread gets was sent to that thread. In every run whose steps are
clean, a send in flight to a live thread gets `EAGAIN` exactly when `mailboxCap` messages to that very thread (same id,
slot and generation) are queued. -/
theorem mailboxes_start_clean (ops : List Op) :
    let st := run step init ops
    (∀ d ∈ st.delivered, d.2.toTid = d.1 ∧ ∃ p ∈ st.sent, p.message = d.2 ∧ p.dest.tid = d.1) ∧
      (Along step CleanStep init ops → ∀ p ∈ st.inFlight,
        st.queue.slotIndexAndGeneration p.dest.tid = some (p.dest.slot, p.dest.generation) →
        ((st.push p).1 = .error .EAGAIN ↔
          ((st.boxes p.dest.slot).contents.filter fun m => m.addressedTo p.dest).length = mailboxCap)) := by
  intro st
  have h : Inv st := inv_run step_inv init ops inv_init
  refine ⟨fun d hd => ?_, fun hok p hp hlive => ?_⟩
  · obtain ⟨hto, p, hp, hm⟩ := h.delivered d hd
    refine ⟨hto, p, hp, hm, ?_⟩
    rw [← hto, ← hm]
    exact (message_addressedTo p).1.symm
  · have hclean : Inv st ∧ Clean st := inv_along step_clean init ops ⟨inv_init, clean_init⟩ hok
    obtain ⟨-, hocc, hgen⟩ := ThreadQueue.slotIndexAndGeneration_some hlive
    have hall : (st.boxes p.dest.slot).contents.filter (fun m => m.addressedTo p.dest) =
        (st.boxes p.dest.slot).contents := by
      rw [List.filter_eq_self]
      intro m hm
      have := hclean.2 p.dest.slot p.dest.tid hocc m hm
      rw [hgen] at this
      exact decide_eq_true this
    rw [hall]
    exact push_eq_EAGAIN h (h.fits p hp)

/-- thread 1 has looked up thread 2, which has one message queued -/
def oneQueued : List Op :=
  [.create 1, .create 2, .sendStart 1 2 (.bytes [7]), .push 0, .sendStart 1 2 (.bytes [8])]

theorem mailboxes_start_clean_oneQueued :
    let st := run step init oneQueued
    (st.push ⟨1, ⟨2, 1, 1⟩, .bytes [8]⟩).1 = .error .EAGAIN ↔
      ((st.boxes 1).contents.filter fun m => m.addressedTo ⟨2, 1, 1⟩).length = mailboxCap :=
  (mailboxes_start_clean oneQueued).2 (by decide) ⟨1, ⟨2, 1, 1⟩, .bytes [8]⟩ (List.mem_of_getElem? (i := 0) rfl)
    (by decide)

/-- thread 1 fills the mailbox of thread 2, which exits; thread 3 moves in, makes a selective receive, and is sent to -/
def leftovers : List Op :=
  [.create 1, .create 2] ++ (List.replicate mailboxCap [.sendStart 1 2 (.bytes [0]), .push 0]).flatten ++
    [.exit 2, .create 3, .recvFrom 3 1, .sendStart 1 3 (.bytes [5])]

/-- **Leftovers block sends.** A send in flight to a live thread gets `EAGAIN` though nothing is queued for it. -/
theorem leftovers_block_sends :
    let st := run step init leftovers
    ∃ p ∈ st.inFlight, st.queue.slotIndexAndGeneration p.dest.tid = some (p.dest.slot, p.dest.generation) ∧
      (st.push p).1 = .error .EAGAIN ∧
      ((st.boxes p.dest.slot).contents.filter fun m => m.addressedTo p.dest).length = 0 := by
  decide +kernel

end SwiftCore.Ipc.Slots
