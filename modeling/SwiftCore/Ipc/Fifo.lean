/-
Order of delivery of one mailbox: any number of senders, one receiver `r`, plain and selective receives in any order.

The system logs what was accepted (`sent`) and what the receiver got (`got`), as messages. Sends may carry any
destination, so the mailbox can also hold leftovers for earlier occupants of the slot.

- A plain receive keeps every sender's order.
- A selective receive (`popFromSender`) stops rotating at the match, so what stood before the match ends up behind what
  stood after it. It keeps the order exactly when the match is the oldest or the newest queued message (`Edge`).
- `fifo_of_edge_receives`: in every run whose selective receives meet `Edge`, what the receiver got of each sender is an
  initial part of what that sender sent, and a selective receive keeps the order of the rest iff it meets `Edge`.
- `fifo_broken`: two senders, three sends; selecting the message in the middle swaps the other two.
-/
import SwiftCore.Ipc.Invariant

namespace SwiftCore.Ipc.Fifo

open Run Mailbox

/-! ## Model -/

structure St where
  mb : Mailbox
  /-- accepted messages, in order -/
  sent : List Message
  /-- messages returned to the receiver, in order -/
  got : List Message

def init : St := ⟨Mailbox.new, [], []⟩

inductive Op where
  | send (sender : ℕ) (dest : Addr) (p : Payload)
  /-- plain receive -/
  | recv
  /-- selective receive -/
  | recvFrom (sender : ℕ)

/-- log a send of `m` -/
def St.accept (st : St) (m : Message) (res : Bool × Mailbox) : St :=
  if res.1 then ⟨res.2, st.sent ++ [m], st.got⟩ else ⟨res.2, st.sent, st.got⟩

/-- log a receive -/
def St.take (st : St) (res : Option Message × Mailbox) : St := ⟨res.2, st.sent, st.got ++ res.1.toList⟩

def step (r : Addr) (st : St) : Op → St
  | .send s d p => st.accept (p.message s d) (st.mb.deliver s d p)
  | .recv => st.take (st.mb.popValid r)
  | .recvFrom s => st.take (st.mb.popFromSender s r)

/-- the slots a selective receive looks for -/
def wanted (mb : Mailbox) (sender : ℕ) (r : Addr) : ℕ → Bool := fun i => Matches sender r (mb.slots i)

/-- the first queued message from `sender` is the oldest or the newest queued one, or there is none -/
def Edge (mb : Mailbox) (sender : ℕ) (r : Addr) : Prop :=
  Rotate.before (wanted mb sender r) mb.queued = [] ∨ Rotate.behind (wanted mb sender r) mb.queued = []
  deriving Decidable

/-- the condition on a step: only selective receives are restricted -/
def EdgeStep (r : Addr) (st : St) : Op → Prop
  | .recvFrom s => Edge st.mb s r
  | _ => True

instance (r : Addr) (st : St) (o : Op) : Decidable (EdgeStep r st o) := by
  cases o <;> unfold EdgeStep <;> infer_instance

/-! ## The invariant -/

/-- the accepted messages of each sender to `r` are those it got, followed by those still queued -/
structure Inv (r : Addr) (st : St) : Prop where
  mb : st.mb.Inv
  /-- nothing is delivered to anyone but the receiver -/
  own : ∀ m ∈ st.got, m.addressedTo r
  order : ∀ s, st.sent.filter (fun m => Matches s r m) =
    st.got.filter (fun m => Matches s r m) ++ st.mb.contents.filter (fun m => Matches s r m)

theorem inv_init (r : Addr) : Inv r init :=
  ⟨inv_new, by simp [init], fun s => by simp [init, contents, queued, new]⟩

variable {r : Addr} {st : St}

theorem accept_inv (h : Inv r st) {m : Message} {res : Bool × Mailbox} (hres : st.mb.Sent m res) :
    Inv r (st.accept m res) := by
  obtain ⟨ok, mb'⟩ := res
  have hc := hres.contents
  cases ok with
  | false =>
    simp only [Bool.false_eq_true, if_false] at hc
    exact ⟨hres.inv, h.own, fun s => by simpa [St.accept, hc] using h.order s⟩
  | true =>
    simp only [if_true] at hc
    refine ⟨hres.inv, h.own, fun s => ?_⟩
    simp [St.accept, hc, h.order s]

/-- messages none of which is addressed to `r` hold nothing from any sender to `r` -/
theorem filter_matches_nil {l : List Message} (hl : ∀ m ∈ l, ¬ m.addressedTo r) (s : ℕ) :
    l.filter (fun m => Matches s r m) = [] := by
  rw [List.filter_eq_nil_iff]
  intro m hm hmatch
  exact hl m hm (of_decide_eq_true hmatch).2

theorem take_own (h : Inv r st) {m : Message} (hm : m.addressedTo r) : ∀ m' ∈ st.got ++ [m], m'.addressedTo r := by
  intro m' hm'
  rcases List.mem_append.1 hm' with hm' | hm'
  · exact h.own m' hm'
  · exact List.mem_singleton.1 hm' ▸ hm

theorem recv_inv (h : Inv r st) : Inv r (st.take (st.mb.popValid r)) := by
  obtain ⟨mb', hpop, hmb, hc⟩ := popValid_spec h.mb r
  rw [hpop]
  cases hf : st.mb.contents.find? (fun m => m.addressedTo r) with
  | none =>
    have hempty := filter_matches_nil (r := r) (fun m hm => by simpa using List.find?_eq_none.1 hf m hm)
    have hc' : mb'.contents = [] := by simpa [hc, Rotate.behind] using Rotate.behind_of_none hf
    refine ⟨hmb, by simpa [St.take] using h.own, fun s => ?_⟩
    simpa [St.take, hc', hempty s] using h.order s
  | some m =>
    have hm : m.addressedTo r := by simpa using List.find?_some hf
    have hc' : mb'.contents = Rotate.behind (fun m => decide (m.addressedTo r)) st.mb.contents := by
      simpa [Rotate.behind] using hc
    -- what `popValid` throws away was not addressed to the receiver
    have hnot : ∀ m' ∈ Rotate.before (fun m => decide (m.addressedTo r)) st.mb.contents, ¬ m'.addressedTo r :=
      fun m' hm' => of_decide_eq_false (Rotate.before_not _ _ m' hm')
    refine ⟨hmb, take_own h hm, fun s => ?_⟩
    have horder := h.order s
    rw [Rotate.split_find hf, List.filter_append, filter_matches_nil hnot, List.nil_append,
      ← List.singleton_append, List.filter_append] at horder
    simpa only [St.take, hc', Option.toList_some, List.filter_append, List.append_assoc] using horder

/-- a selective receive at an edge removes the match and keeps the rest in order -/
theorem popFromSender_edge {mb : Mailbox} (h : mb.Inv) {sender : ℕ} (he : Edge mb sender r) :
    (mb.popFromSender sender r).2.contents = mb.contents.eraseP (fun m => Matches sender r m) := by
  obtain ⟨mb', hpop, -, hq, hc⟩ := popFromSender_spec h sender r
  have hnodup : mb.queued.Nodup := (List.nodup_append.1 h.nodup).2.1
  have hkeep := (Rotate.rotateTo_eq_eraseP_iff hnodup).2 he
  rw [hpop, hc, hq]
  unfold wanted at hkeep
  rw [hkeep, contents, List.eraseP_map]
  rfl

theorem recvFrom_inv (h : Inv r st) (sender : ℕ) (he : Edge st.mb sender r) :
    Inv r (st.take (st.mb.popFromSender sender r)) := by
  have hc' := popFromSender_edge h.mb he
  obtain ⟨mb', hpop, hmb, -, -⟩ := popFromSender_spec h.mb sender r
  rw [hpop] at hc' ⊢
  cases hf : st.mb.contents.find? (fun m => Matches sender r m) with
  | none =>
    have hsame : mb'.contents = st.mb.contents := hc'.trans (List.eraseP_of_forall_not (List.find?_eq_none.1 hf))
    refine ⟨hmb, by simpa [St.take] using h.own, fun s => ?_⟩
    simpa [St.take, hsame] using h.order s
  | some m =>
    have hm : Matches sender r m := by simpa using List.find?_some hf
    rw [Rotate.eraseP_eq] at hc'
    refine ⟨hmb, take_own h hm.2, fun s => ?_⟩
    have horder := h.order s
    rw [Rotate.split_find hf, List.filter_append, ← List.singleton_append, List.filter_append] at horder
    simp only [St.take, hc', Option.toList_some, List.filter_append, List.append_assoc, horder]
    -- the match leaves its place: either it is not of sender `s`, or nothing of `s` stands before it
    rcases eq_or_ne s sender with rfl | hs
    · simp [Rotate.filter_before]
    · have hno : ([m] : List Message).filter (fun m => Matches s r m) = [] := by
        have hne : m.fromTid ≠ s := hm.1.trans_ne hs.symm
        simp [Matches, hne]
      simp [hno]

theorem step_inv (r : Addr) (st : St) (o : Op) (h : Inv r st) (hok : EdgeStep r st o) : Inv r (step r st o) := by
  cases o with
  | send s d p => exact accept_inv h (deliver_sent h.mb s d p)
  | recv => exact recv_inv h
  | recvFrom s => exact recvFrom_inv h s hok

/-! ## Order of delivery -/

/-- a selective receive leaves the queued slots in order iff it meets `Edge` -/
theorem popFromSender_keeps_iff {mb : Mailbox} (h : mb.Inv) (s : ℕ) (r : Addr) :
    (mb.popFromSender s r).2.queued = mb.queued.eraseP (wanted mb s r) ↔ Edge mb s r := by
  obtain ⟨mb', hpop, -, hq, -⟩ := popFromSender_spec h s r
  have hnodup : mb.queued.Nodup := (List.nodup_append.1 h.nodup).2.1
  rw [hpop, hq]
  exact Rotate.rotateTo_eq_eraseP_iff hnodup

/-- **Per-sender order.** In every run whose selective receives find their message at an end of the queue (or not at
all), the receiver has got of each sender the first messages that sender sent it, in order; and in the state reached a
selective receive keeps the order of the rest exactly when it finds its message so. -/
theorem fifo_of_edge_receives (r : Addr) (ops : List Op) (hok : Along (step r) (EdgeStep r) init ops) :
    let st := run (step r) init ops
    ∀ s, st.got.filter (fun m => m.fromTid = s) <+: st.sent.filter (fun m => Matches s r m) ∧
      ((st.mb.popFromSender s r).2.queued = st.mb.queued.eraseP (wanted st.mb s r) ↔ Edge st.mb s r) := by
  intro st s
  have h : Inv r st := inv_along (step_inv r) init ops (inv_init r) hok
  refine ⟨?_, popFromSender_keeps_iff h.mb s r⟩
  have hgot : st.got.filter (fun m => m.fromTid = s) = st.got.filter (fun m => Matches s r m) := by
    apply List.filter_congr
    intro m hm
    simp [Matches, h.own m hm]
  rw [hgot, h.order s]
  exact List.prefix_append _ _

/-- thread 9 in slot 3 -/
def receiver : Addr := ⟨9, 3, 1⟩

/-- threads 1 and 2 send; the receiver selects thread 2's message, then receives twice -/
def selectMiddle : List Op :=
  [.send 1 receiver (.bytes [10]), .send 2 receiver (.bytes [20]), .send 1 receiver (.bytes [11]),
    .recvFrom 2, .recv, .recv]

/-- **Order is lost.** The second message of thread 1 arrives before its first. -/
theorem fifo_broken :
    let st := run (step receiver) init selectMiddle
    ¬ (st.got.filter (fun m => m.fromTid = 1) <+: st.sent.filter (fun m => Matches 1 receiver m)) := by
  intro st hprefix
  have hbytes : (st.got.filter (fun m => m.fromTid = 1)).map (fun m => m.data 0) <+:
      (st.sent.filter (fun m => Matches 1 receiver m)).map (fun m => m.data 0) := hprefix.map _
  exact absurd hbytes (by decide)

/-- the same sends, received oldest first: thread 1, then thread 2 (now the oldest), then the rest -/
theorem fifo_oldest_first :
    let st := run (step receiver) init
      [.send 1 receiver (.bytes [10]), .send 2 receiver (.bytes [20]), .send 1 receiver (.bytes [11]),
        .recv, .recvFrom 2]
    st.got.filter (fun m => m.fromTid = 1) <+: st.sent.filter (fun m => Matches 1 receiver m) :=
  (fifo_of_edge_receives receiver _ (by decide) 1).1

end SwiftCore.Ipc.Fifo
