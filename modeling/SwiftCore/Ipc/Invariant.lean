/-
The representation invariant of a mailbox and the list it stands for.

`Owns mb held`: the slot numbers in `free[0 .. freeCount)`, those in the ring window and the numbers `held` by the
running operation are together a permutation of `0 .. mailboxCap`. Between operations nothing is held (`Inv`). Each
primitive has one lemma that says where the number goes; the three sends and the two pops are assembled from them.

`contents` is the abstraction of a mailbox: the queued messages in order. Over it
- a send appends to a mailbox that is not full (`pushWith_ok`, `pushWith_full`);
- `popValid` drops everything before the first message addressed to the receiver, and takes that (`popValid_spec`);
- `popFromSender` takes the first match and leaves the queue ROTATED: what stood behind the match comes first, what
  stood before it comes last (`popFromSender_spec`).

`mailbox_partition` is the result over whole runs, from `Mailbox.new` and under any sequence of the five operations.
-/
import SwiftCore.Lib.Rotate
import SwiftCore.Lib.Run
import SwiftCore.Ipc.Mailbox

namespace SwiftCore.Ipc

open Function

theorem mailboxCap_pos : 0 < mailboxCap := by decide

namespace Mailbox

variable (mb : Mailbox)

/-- the unused slot numbers -/
def freeList : List ℕ := (List.range mb.freeCount).map mb.free

/-- the queued slot numbers, oldest first -/
def queued : List ℕ := Ring.window mb.queue mailboxCap mb.head mb.count

/-- the queued messages, oldest first -/
def contents : List Message := mb.queued.map mb.slots

@[simp] theorem length_freeList : mb.freeList.length = mb.freeCount := by simp [freeList]

@[simp] theorem length_queued : mb.queued.length = mb.count := by simp [queued]

@[simp] theorem length_contents : mb.contents.length = mb.count := by simp [contents]

/-- the slot numbers are where they should be, except for those a running operation holds -/
structure Owns (held : List ℕ) : Prop where
  perm : (held ++ mb.freeList ++ mb.queued).Perm (List.range mailboxCap)
  head_lt : mb.head < mailboxCap
  tail_eq : mb.tail = (mb.head + mb.count) % mailboxCap
  /-- unused slots have been wiped -/
  blank : ∀ i ∈ mb.freeList, mb.slots i = Message.empty
  clean : mb.faults = []

/-- the invariant between operations -/
def Inv : Prop := mb.Owns []

variable {mb : Mailbox} {held : List ℕ} {i : ℕ}

theorem Owns.nodup (h : mb.Owns held) : (held ++ mb.freeList ++ mb.queued).Nodup :=
  h.perm.nodup_iff.2 List.nodup_range

theorem Owns.lt (h : mb.Owns held) (hi : i ∈ held ++ mb.freeList ++ mb.queued) : i < mailboxCap :=
  List.mem_range.1 (h.perm.subset hi)

/-- a held slot is neither unused nor queued -/
theorem Owns.held_notMem (h : mb.Owns (i :: held)) : i ∉ mb.freeList ∧ i ∉ mb.queued := by
  have hnd := h.nodup
  simp only [List.cons_append, List.append_assoc, List.nodup_cons, List.mem_append, not_or] at hnd
  exact hnd.1.2

theorem Owns.count_eq (h : mb.Owns held) : held.length + mb.freeCount + mb.count = mailboxCap := by
  have := h.perm.length_eq
  simpa [Nat.add_assoc] using this

theorem mod_256 (h : i < mailboxCap) : i % 256 = i :=
  Nat.mod_eq_of_lt (h.trans (by decide))

theorem inv_new : new.Inv := by
  refine ⟨?_, mailboxCap_pos, rfl, fun _ _ => rfl, rfl⟩
  have hfree : new.freeList = List.range mailboxCap := by decide
  have hqueued : new.queued = [] := rfl
  rw [hfree, hqueued, List.nil_append, List.append_nil]

/-! ## Where each primitive moves a slot number -/

theorem allocSlot_spec (h : mb.Owns held) (hf : mb.freeCount ≠ 0) :
    ∃ i mb', mb.allocSlot = (some i, mb') ∧ mb'.Owns (i :: held) ∧ mb'.queued = mb.queued ∧ mb'.slots = mb.slots ∧
      mb.slots i = Message.empty := by
  obtain ⟨n, hn⟩ := Nat.exists_eq_succ_of_ne_zero hf
  have hsplit : mb.freeList = (List.range n).map mb.free ++ [mb.free n] := by
    simp [freeList, hn, List.range_succ]
  refine ⟨mb.free n, { mb with freeCount := n }, by simp [allocSlot, hn], ?_, rfl, rfl, ?_⟩
  · refine ⟨?_, h.head_lt, h.tail_eq, fun i hi => h.blank i ?_, h.clean⟩
    · refine List.Perm.trans ?_ h.perm
      rw [hsplit]
      simp only [queued, freeList, List.cons_append, List.append_assoc]
      refine List.perm_middle.symm.trans ?_
      exact List.Perm.append_left held List.perm_middle.symm
    · rw [hsplit]
      exact List.mem_append_left _ hi
  · exact h.blank _ (by rw [hsplit]; simp)

theorem setSlot_spec (h : mb.Owns (i :: held)) (m : Message) : (mb.setSlot i m).Owns (i :: held) := by
  refine ⟨h.perm, h.head_lt, h.tail_eq, fun j hj => ?_, h.clean⟩
  have hne : j ≠ i := ne_of_mem_of_not_mem hj h.held_notMem.1
  simpa [setSlot, update_of_ne hne] using h.blank j hj

theorem enqueueSlot_spec (h : mb.Owns (i :: held)) :
    ∃ mb', mb.enqueueSlot i = (true, mb') ∧ mb'.Owns held ∧ mb'.queued = mb.queued ++ [i] ∧ mb'.slots = mb.slots := by
  have hcount : mb.count < mailboxCap := by
    have := h.count_eq
    rw [List.length_cons] at this
    omega
  have hi : i % 256 = i := mod_256 (h.lt (by simp))
  have hq : Ring.window (update mb.queue mb.tail (i % 256)) mailboxCap mb.head (mb.count + 1) =
      mb.queued ++ [i] := by
    rw [h.tail_eq, hi]
    exact Ring.window_snoc _ _ _ _ _ hcount
  refine ⟨{ mb with
    queue := update mb.queue mb.tail (i % 256)
    tail := (mb.tail + 1) % mailboxCap
    count := mb.count + 1 }, by simp only [enqueueSlot, if_neg (not_le.2 hcount)],
    ⟨?_, h.head_lt, ?_, h.blank, h.clean⟩, hq, rfl⟩
  · refine List.Perm.trans ?_ h.perm
    simp only [queued, freeList, hq, List.cons_append, ← List.append_assoc]
    exact List.perm_append_singleton _ _
  · simp only [h.tail_eq, Nat.mod_add_mod, Nat.add_assoc]

theorem dequeueSlot_spec {rest : List ℕ} (h : mb.Owns held) (hq : mb.queued = i :: rest) :
    ∃ mb', mb.dequeueSlot = (some i, mb') ∧ mb'.Owns (i :: held) ∧ mb'.queued = rest ∧ mb'.slots = mb.slots := by
  obtain ⟨n, hn⟩ : ∃ n, mb.count = n + 1 := ⟨rest.length, by rw [← mb.length_queued, hq]; rfl⟩
  have hwin := hq
  rw [queued, hn, Ring.window_succ, Nat.mod_eq_of_lt h.head_lt, List.cons.injEq] at hwin
  refine ⟨{ mb with head := (mb.head + 1) % mailboxCap, count := n }, ?_, ⟨?_, Nat.mod_lt _ mailboxCap_pos, ?_,
    h.blank, h.clean⟩, ?_, rfl⟩
  · simp [dequeueSlot, hn, hwin.1]
  · refine List.Perm.trans ?_ h.perm
    simp only [queued, Ring.window_mod, hwin.2]
    rw [← queued, hq, List.cons_append, List.cons_append]
    exact List.perm_middle.symm
  · simp only [h.tail_eq, hn, Nat.mod_add_mod]
    congr 1
    omega
  · simp only [queued, Ring.window_mod, hwin.2]

theorem freeSlot_spec (h : mb.Owns (i :: held)) :
    ∃ mb', mb.freeSlot i = (true, mb') ∧ mb'.Owns held ∧ mb'.queued = mb.queued ∧
      mb'.slots = update mb.slots i Message.empty := by
  have hlt : i < mailboxCap := h.lt (by simp)
  have hfree : mb.freeCount < mailboxCap := by
    have := h.count_eq
    rw [List.length_cons] at this
    omega
  have hnot : ¬ ∃ j < mb.freeCount, mb.free j = i := by
    rintro ⟨j, hj, rfl⟩
    exact h.held_notMem.1 (List.mem_map.2 ⟨j, List.mem_range.2 hj, rfl⟩)
  have hlist : (List.range (mb.freeCount + 1)).map (update mb.free mb.freeCount (i % 256)) =
      mb.freeList ++ [i] := by
    rw [mod_256 hlt, List.range_succ, List.map_append, List.map_singleton, update_self, freeList]
    congr 1
    apply List.map_congr_left
    intro j hj
    rw [update_of_ne (List.mem_range.1 hj).ne]
  refine ⟨{ mb with
    slots := update mb.slots i Message.empty
    free := update mb.free mb.freeCount (i % 256)
    freeCount := mb.freeCount + 1 },
    by simp only [freeSlot, if_neg (not_le.2 hlt), if_neg (not_le.2 hfree), if_neg hnot],
    ⟨?_, h.head_lt, h.tail_eq, ?_, h.clean⟩, rfl, rfl⟩
  · refine List.Perm.trans ?_ h.perm
    simp only [freeList, hlist, queued, List.cons_append, List.append_assoc]
    refine (List.Perm.append_left held List.perm_middle).trans ?_
    exact List.perm_middle
  · intro j hj
    simp only [freeList, hlist, List.mem_append, List.mem_singleton] at hj
    rcases eq_or_ne j i with rfl | hji
    · exact update_self _ _ _
    · exact (update_of_ne hji _ _).trans (h.blank j (hj.resolve_right hji))

/-! ## The operations, on the list of queued messages -/

/-- wiping a slot that is not queued does not change what is queued -/
theorem map_slots_congr {mb' : Mailbox} {l : List ℕ}
    (hs : mb'.slots = update mb.slots i Message.empty) (hi : i ∉ l) : l.map mb'.slots = l.map mb.slots := by
  apply List.map_congr_left
  intro j hj
  rw [hs, update_of_ne (ne_of_mem_of_not_mem hj hi)]

theorem pushWith_full (h : mb.Inv) (hfull : mb.count = mailboxCap) (write : Message → Message) :
    mb.pushWith write = (false, mb) := by
  have hf : mb.freeCount = 0 := by
    have := h.count_eq
    rw [List.length_nil] at this
    omega
  simp [pushWith, allocSlot, hf]

theorem pushWith_ok (h : mb.Inv) (hlt : mb.count < mailboxCap) (write : Message → Message) :
    ∃ mb', mb.pushWith write = (true, mb') ∧ mb'.Inv ∧ mb'.contents = mb.contents ++ [write Message.empty] := by
  have hf : mb.freeCount ≠ 0 := by
    have := h.count_eq
    rw [List.length_nil] at this
    omega
  obtain ⟨i, mb₁, halloc, h₁, hq₁, hs₁, hblank⟩ := allocSlot_spec h hf
  have h₂ := setSlot_spec h₁ (write (mb₁.slots i))
  obtain ⟨mb₃, henq, h₃, hq₃, hs₃⟩ := enqueueSlot_spec h₂
  refine ⟨mb₃, by simp only [pushWith, halloc, henq], h₃, ?_⟩
  have hq : (mb₁.setSlot i (write (mb₁.slots i))).queued = mb₁.queued := rfl
  rw [contents, hq₃, hq, List.map_append, hs₃]
  congr 1
  · rw [contents, ← hq₁, ← hs₁]
    apply List.map_congr_left
    intro j hj
    exact update_of_ne (ne_of_mem_of_not_mem hj h₁.held_notMem.2) _ _
  · simp [setSlot, hs₁, hblank]

/-- what a send of `m` leaves behind: an accepted message is queued last, a refused one changes nothing -/
structure Sent (mb : Mailbox) (m : Message) (res : Bool × Mailbox) : Prop where
  inv : res.2.Inv
  contents : res.2.contents = if res.1 then mb.contents ++ [m] else mb.contents

theorem Sent.refused (h : mb.Inv) (m : Message) : mb.Sent m (false, mb) := ⟨h, by simp⟩

theorem Owns.count_le (h : mb.Owns held) : mb.count ≤ mailboxCap := by
  have := h.count_eq
  omega

theorem pushWith_sent (h : mb.Inv) (write : Message → Message) :
    mb.Sent (write Message.empty) (mb.pushWith write) := by
  rcases h.count_le.eq_or_lt with hfull | hlt
  · rw [pushWith_full h hfull]
    exact Sent.refused h _
  · obtain ⟨mb', hpush, h', hc⟩ := pushWith_ok h hlt write
    rw [hpush]
    exact ⟨h', by simpa using hc⟩

theorem pushMessage_sent (h : mb.Inv) (sender : ℕ) (dest : Addr) (bytes : List UInt8) :
    mb.Sent (Message.empty.fill sender dest bytes) (mb.pushMessage sender dest bytes) := by
  unfold pushMessage
  split_ifs
  · exact Sent.refused h _
  · exact pushWith_sent h fun m => m.fill sender dest bytes

/-- clearing the waiter touches no slot -/
theorem Sent.thenTakeWaiter {m : Message} {res : Bool × Mailbox} (h : mb.Sent m res) :
    mb.Sent m (thenTakeWaiter res) := by
  obtain ⟨_ | _, mb'⟩ := res
  · exact h
  · exact ⟨⟨h.inv.perm, h.inv.head_lt, h.inv.tail_eq, h.inv.blank, h.inv.clean⟩, h.contents⟩

@[simp] theorem thenTakeWaiter_fst (res : Bool × Mailbox) : (thenTakeWaiter res).1 = res.1 := by
  obtain ⟨_ | _, mb'⟩ := res <;> rfl

theorem sendPages_sent (h : mb.Inv) (sender : ℕ) (dest : Addr) (mapStart total : ℕ) (pages : List ℕ) :
    mb.Sent (Message.empty.fillPages sender dest mapStart total pages)
      (mb.sendPages sender dest mapStart total pages) := by
  unfold sendPages
  split_ifs
  · exact Sent.refused h _
  · exact (pushWith_sent h fun m => m.fillPages sender dest mapStart total pages).thenTakeWaiter

theorem sendMapHeader_sent (h : mb.Inv) (sender : ℕ) (dest : Addr) (mapStart total : ℕ) :
    mb.Sent (Message.empty.fillMapHeader sender dest mapStart total) (mb.sendMapHeader sender dest mapStart total) :=
  (pushWith_sent h fun m => m.fillMapHeader sender dest mapStart total).thenTakeWaiter

theorem deliver_sent (h : mb.Inv) (sender : ℕ) (dest : Addr) (p : Payload) :
    mb.Sent (p.message sender dest) (mb.deliver sender dest p) := by
  cases p with
  | bytes data => exact (pushMessage_sent h sender dest data).thenTakeWaiter
  | pages mapStart total frames => exact sendPages_sent h sender dest mapStart total frames
  | mapHeader mapStart total => exact sendMapHeader_sent h sender dest mapStart total

/-- what `popValid` does to the queue: stale messages in front are dropped, the first addressed one is taken -/
theorem popValidGo_spec (r : Addr) (q : List ℕ) : ∀ {mb : Mailbox}, mb.Inv → mb.queued = q →
    ∃ mb', popValidGo r q.length mb = (mb.contents.find? (fun m => m.addressedTo r), mb') ∧ mb'.Inv ∧
      mb'.contents = (mb.contents.dropWhile (fun m => ¬ m.addressedTo r)).tail := by
  induction q with
  | nil =>
    intro mb h hq
    exact ⟨mb, by simp [popValidGo, contents, hq], h, by simp [contents, hq]⟩
  | cons i q ih =>
    intro mb h hq
    obtain ⟨mb₁, hdeq, h₁, hq₁, hs₁⟩ := dequeueSlot_spec h hq
    obtain ⟨mb₂, hfree, h₂, hq₂, hs₂⟩ := freeSlot_spec h₁
    have hrest : mb₂.contents = q.map mb.slots := by
      rw [contents, map_slots_congr hs₂ (hq₂ ▸ h₁.held_notMem.2), hq₂, hq₁, hs₁]
    have hc : mb.contents = mb.slots i :: q.map mb.slots := by rw [contents, hq, List.map_cons]
    rw [hc, List.length_cons]
    by_cases ha : (mb.slots i).addressedTo r
    · exact ⟨mb₂, by simp [popValidGo, hdeq, hfree, hs₁, ha], h₂, by simp [hrest, ha]⟩
    · obtain ⟨mb₃, hgo, h₃, hc₃⟩ := ih h₂ (hq₂.trans hq₁)
      refine ⟨mb₃, ?_, h₃, ?_⟩
      · rw [hrest] at hgo
        simp [popValidGo, hdeq, hfree, hs₁, ha, hgo]
      · rw [hc₃, hrest]
        simp [ha]

theorem popValid_spec (h : mb.Inv) (r : Addr) :
    ∃ mb', mb.popValid r = (mb.contents.find? (fun m => m.addressedTo r), mb') ∧ mb'.Inv ∧
      mb'.contents = (mb.contents.dropWhile (fun m => ¬ m.addressedTo r)).tail := by
  have := popValidGo_spec r mb.queued h rfl
  rwa [length_queued] at this

/-- the messages a selective receive looks for -/
def Matches (sender : ℕ) (r : Addr) (m : Message) : Prop := m.fromTid = sender ∧ m.addressedTo r
  deriving Decidable

/-- the loop of `popFromSender` after it has moved `rot` to the back: `q` is what it has not looked at -/
theorem popFromSenderGo_spec (sender : ℕ) (r : Addr) (q : List ℕ) : ∀ {mb : Mailbox} {rot : List ℕ}, mb.Inv →
    mb.queued = q ++ rot →
    ∃ mb', popFromSenderGo sender r q.length mb =
        ((q.map mb.slots).find? (fun m => Matches sender r m), mb') ∧ mb'.Inv ∧
      mb'.queued = (q.dropWhile (fun i => ¬ Matches sender r (mb.slots i))).tail ++ rot ++
        q.takeWhile (fun i => ¬ Matches sender r (mb.slots i)) ∧
      mb'.contents = mb'.queued.map mb.slots := by
  induction q with
  | nil =>
    intro mb rot h hq
    exact ⟨mb, by simp [popFromSenderGo], h, by simpa using hq, rfl⟩
  | cons i q ih =>
    intro mb rot h hq
    obtain ⟨mb₁, hdeq, h₁, hq₁, hs₁⟩ := dequeueSlot_spec h hq
    by_cases hm : Matches sender r (mb.slots i)
    · obtain ⟨mb₂, hfree, h₂, hq₂, hs₂⟩ := freeSlot_spec h₁
      refine ⟨mb₂, ?_, h₂, ?_, ?_⟩
      · have hm' := hm
        unfold Matches at hm'
        simp [popFromSenderGo, hdeq, hfree, hs₁, hm', hm]
      · simp [hq₂, hq₁, hm]
      · rw [contents, map_slots_congr hs₂ (hq₂ ▸ h₁.held_notMem.2), hs₁]
    · obtain ⟨mb₂, henq, h₂, hq₂, hs₂⟩ := enqueueSlot_spec h₁
      have hq₂' : mb₂.queued = q ++ (rot ++ [i]) := by rw [hq₂, hq₁]; exact List.append_assoc _ _ _
      obtain ⟨mb₃, hgo, h₃, hq₃, hc₃⟩ := ih h₂ hq₂'
      have hs : mb₂.slots = mb.slots := hs₂.trans hs₁
      rw [hs] at hgo hq₃ hc₃
      refine ⟨mb₃, ?_, h₃, ?_, hc₃⟩
      · have hm' := hm
        unfold Matches at hm'
        simp [popFromSenderGo, hdeq, henq, hs₁, hm', hm, hgo]
      · simp [hq₃, hm]

theorem popFromSender_spec (h : mb.Inv) (sender : ℕ) (r : Addr) :
    ∃ mb', mb.popFromSender sender r = (mb.contents.find? (fun m => Matches sender r m), mb') ∧ mb'.Inv ∧
      mb'.queued = Rotate.rotateTo (fun i => Matches sender r (mb.slots i)) mb.queued ∧
      mb'.contents = mb'.queued.map mb.slots := by
  unfold popFromSender
  split_ifs with h0
  · have hq : mb.queued = [] := List.length_eq_zero_iff.1 (mb.length_queued.trans h0)
    exact ⟨mb, by simp [contents, hq], h, by simp [hq, Rotate.rotateTo, Rotate.before, Rotate.behind], rfl⟩
  · obtain ⟨mb', hgo, h', hq', hc'⟩ := popFromSenderGo_spec sender r mb.queued h (List.append_nil _).symm
    rw [length_queued] at hgo
    exact ⟨mb', hgo, h', by simpa [Rotate.rotateTo, Rotate.before, Rotate.behind] using hq', hc'⟩

/-- what any receive leaves behind: it takes at most one message, addressed to the receiver, and adds none -/
structure Popped (mb : Mailbox) (r : Addr) (res : Option Message × Mailbox) : Prop where
  inv : res.2.Inv
  subset : ∀ m ∈ res.2.contents, m ∈ mb.contents
  got : ∀ m ∈ res.1, m ∈ mb.contents ∧ m.addressedTo r

theorem popValid_popped (h : mb.Inv) (r : Addr) : mb.Popped r (mb.popValid r) := by
  obtain ⟨mb', hpop, h', hc⟩ := popValid_spec h r
  rw [hpop]
  refine ⟨h', fun m hm => ?_, fun m hm => ⟨List.mem_of_find?_eq_some hm, by simpa using List.find?_some hm⟩⟩
  rw [hc] at hm
  exact (List.dropWhile_sublist _).subset (List.mem_of_mem_tail hm)

theorem popFromSender_popped (h : mb.Inv) (sender : ℕ) (r : Addr) : mb.Popped r (mb.popFromSender sender r) := by
  obtain ⟨mb', hpop, h', hq, hc⟩ := popFromSender_spec h sender r
  rw [hpop]
  refine ⟨h', fun m hm => ?_, fun m hm => ⟨List.mem_of_find?_eq_some hm, ?_⟩⟩
  · rw [hc, hq] at hm
    obtain ⟨i, hi, rfl⟩ := List.mem_map.1 hm
    exact List.mem_map_of_mem (Rotate.mem_of_mem_rotateTo hi)
  · have hm : Matches sender r m := by simpa using List.find?_some hm
    exact hm.2

/-! ## Runs -/

/-- the operations that take the mailbox lock -/
inductive Op where
  | pushMessage (sender : ℕ) (dest : Addr) (bytes : List UInt8)
  | sendPages (sender : ℕ) (dest : Addr) (mapStart total : ℕ) (pages : List ℕ)
  | sendMapHeader (sender : ℕ) (dest : Addr) (mapStart total : ℕ)
  | popValidForReceiverCopy (r : Addr) (out : List UInt8)
  | popFromSenderCopy (sender : ℕ) (r : Addr) (out : List UInt8)
  /-- a blocking receive registers itself or gives up; a send takes the waiter (0) -/
  | setWaiter (tid : ℕ)

variable (mb)

def step : Op → Mailbox
  | .pushMessage sender dest bytes => (mb.pushMessage sender dest bytes).2
  | .sendPages sender dest mapStart total pages => (mb.sendPages sender dest mapStart total pages).2
  | .sendMapHeader sender dest mapStart total => (mb.sendMapHeader sender dest mapStart total).2
  | .popValidForReceiverCopy r out => (mb.popValidForReceiverCopy r out).2.2
  | .popFromSenderCopy sender r out => (mb.popFromSenderCopy sender r out).2.2
  | .setWaiter tid => { mb with waiter := tid }

theorem popValidForReceiverCopy_mailbox (r : Addr) (out : List UInt8) :
    (mb.popValidForReceiverCopy r out).2.2 = (mb.popValid r).2 := by
  unfold popValidForReceiverCopy
  rcases mb.popValid r with ⟨_ | m, mb'⟩ <;> rfl

theorem popFromSenderCopy_mailbox (sender : ℕ) (r : Addr) (out : List UInt8) :
    (mb.popFromSenderCopy sender r out).2.2 = (mb.popFromSender sender r).2 := by
  unfold popFromSenderCopy
  rcases mb.popFromSender sender r with ⟨_ | m, mb'⟩ <;> rfl

theorem step_inv (o : Op) (h : mb.Inv) : (mb.step o).Inv := by
  cases o with
  | pushMessage sender dest bytes => exact (pushMessage_sent h sender dest bytes).inv
  | sendPages sender dest mapStart total pages => exact (sendPages_sent h sender dest mapStart total pages).inv
  | sendMapHeader sender dest mapStart total => exact (sendMapHeader_sent h sender dest mapStart total).inv
  | popValidForReceiverCopy r out =>
    simpa only [step, popValidForReceiverCopy_mailbox] using (popValid_popped h r).inv
  | popFromSenderCopy sender r out =>
    simpa only [step, popFromSenderCopy_mailbox] using (popFromSender_popped h sender r).inv
  | setWaiter tid => exact ⟨h.perm, h.head_lt, h.tail_eq, h.blank, h.clean⟩

variable {mb}

theorem pushMessage_eq_false (h : mb.Inv) (sender : ℕ) (dest : Addr) (bytes : List UInt8) :
    (mb.pushMessage sender dest bytes).1 = false ↔ maxMsgSize < bytes.length ∨ mb.queued.length = mailboxCap := by
  unfold pushMessage
  split_ifs with hlen
  · simp [hlen]
  · rcases h.count_le.eq_or_lt with hfull | hlt
    · simp [pushWith_full h hfull, hfull]
    · obtain ⟨mb', hpush, -⟩ := pushWith_ok h hlt fun m => m.fill sender dest bytes
      simp [hpush, hlen, hlt.ne]

/-- a payload within its limit is refused exactly by a full mailbox -/
theorem deliver_eq_false (h : mb.Inv) (sender : ℕ) (dest : Addr) {p : Payload} (hp : p.fits) :
    (mb.deliver sender dest p).1 = false ↔ mb.contents.length = mailboxCap := by
  have hpush : ∀ write, (mb.pushWith write).1 = false ↔ mb.contents.length = mailboxCap := by
    intro write
    rcases h.count_le.eq_or_lt with hfull | hlt
    · simp [pushWith_full h hfull, hfull]
    · obtain ⟨mb', hok, -⟩ := pushWith_ok h hlt write
      simp [hok, hlt.ne]
  cases p with
  | bytes data =>
    have hlen : ¬ maxMsgSize < data.length := by simpa [Payload.fits] using hp
    simp [deliver, pushMessage, hlen, hpush]
  | pages mapStart total frames =>
    have hlen : ¬ maxExtPages < frames.length := by simpa [Payload.fits] using hp
    simp [deliver, sendPages, hlen, hpush]
  | mapHeader mapStart total => simp [deliver, sendMapHeader, hpush]

/-- **The slots of a mailbox are never lost, doubled or wiped.** After every sequence of operations on a new mailbox,
the unused and the queued slot numbers are a permutation of all slot numbers; the counters agree with them; no
quarantine and no failed `enqueue_slot` has happened; and a push is refused exactly when the data is too long or
`mailboxCap` messages are queued. -/
theorem mailbox_partition (ops : List Op) :
    let mb := Run.run step new ops
    (mb.freeList ++ mb.queued).Perm (List.range mailboxCap) ∧ mb.freeCount + mb.count = mailboxCap ∧
      mb.tail = (mb.head + mb.count) % mailboxCap ∧ mb.faults = [] ∧
      ∀ sender dest bytes, (mb.pushMessage sender dest bytes).1 = false ↔
        maxMsgSize < bytes.length ∨ mb.queued.length = mailboxCap := by
  intro mb
  have h : mb.Inv := Run.inv_run step_inv new ops inv_new
  refine ⟨h.perm, ?_, h.tail_eq, h.clean, fun sender dest bytes => pushMessage_eq_false h sender dest bytes⟩
  simpa using h.count_eq

end Mailbox

end SwiftCore.Ipc
