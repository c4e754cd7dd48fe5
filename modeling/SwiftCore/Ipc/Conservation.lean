/-
No message is delivered twice (the sends and receives of core/syscall/ipc.rs).

A receive drops messages for earlier occupants of the slot, or moves messages to the back until one matches.
- `popValid_takes`, `popFromSender_takes`: what a receive takes and leaves was queued, each message once.
- `delivered_once`: over whole runs, what was delivered and what is queued was accepted, with multiplicities.
-/
import SwiftCore.Ipc.Slots

namespace SwiftCore.Ipc.Slots

open Run Mailbox Function

variable {mb : Mailbox} {st : Sys}

/-! ## One receive -/

/-- what was received and what is left were queued, each message once -/
theorem popValid_takes (h : mb.Inv) (r : Addr) :
    ((mb.popValid r).1.toList ++ (mb.popValid r).2.contents).Subperm mb.contents := by
  obtain ⟨mb', hpop, -, hc⟩ := popValid_spec h r
  rw [hpop, hc]
  refine .trans (List.Sublist.subperm ?_) (Rotate.perm_rotateTo (fun m => m.addressedTo r) mb.contents).subperm
  simp [Rotate.rotateTo, Rotate.behind]

theorem popFromSender_takes (h : mb.Inv) (sender : ℕ) (r : Addr) :
    ((mb.popFromSender sender r).1.toList ++ (mb.popFromSender sender r).2.contents).Subperm mb.contents := by
  obtain ⟨mb', hpop, -, hq, hc⟩ := popFromSender_spec h sender r
  have := ((Rotate.perm_rotateTo (fun i => decide (Matches sender r (mb.slots i))) mb.queued).map mb.slots).subperm
  rw [hpop, hc, hq]
  simpa [contents, Option.toList_map] using this

/-! ## Runs -/

/-- the messages for threads in slot `i` -/
def ofSlot (i : ℕ) (l : List Message) : List Message := l.filter fun m => m.toSlot = i

@[simp] theorem ofSlot_append (i : ℕ) (a b : List Message) : ofSlot i (a ++ b) = ofSlot i a ++ ofSlot i b :=
  List.filter_append a b

/-- what was delivered from slot `i` and what is queued there was accepted, each message as often as that -/
def Accounted (st : Sys) : Prop :=
  ∀ i, (ofSlot i (st.delivered.map Prod.snd) ++ (st.boxes i).contents).Subperm
    (ofSlot i (st.sent.map Pending.message))

theorem accounted_push (h : Inv st) (ha : Accounted st) (p : Pending) : Accounted (st.push p).2 := by
  have hsent : (st.boxes p.dest.slot).Sent p.message _ := deliver_sent (h.boxes p.dest.slot) p.sender p.dest p.payload
  rw [push_eq]
  intro i
  by_cases hi : i = p.dest.slot
  · subst hi
    simp only [update_self, hsent.contents]
    have hown : ofSlot p.dest.slot [p.message] = [p.message] := by
      have hslot : p.message.toSlot = p.dest.slot := by
        unfold Pending.message
        cases p.payload <;> rfl
      simp [ofSlot, hslot]
    split_ifs
    · simpa [hown, ← List.append_assoc] using (List.subperm_append_right _).2 (ha p.dest.slot)
    · simpa using ha p.dest.slot
  · simp only [update_of_ne hi, List.map_append, ofSlot_append]
    exact (ha i).trans (List.sublist_append_left _ _).subperm

theorem accounted_receive (h : Inv st) (ha : Accounted st) (tid : ℕ) {pop : Mailbox → Addr → Option Message × Mailbox}
    (hpop : ∀ (mb : Mailbox) r, mb.Inv → mb.Popped r (pop mb r))
    (htakes : ∀ (mb : Mailbox) r, mb.Inv → ((pop mb r).1.toList ++ (pop mb r).2.contents).Subperm mb.contents) :
    Accounted (st.receive tid pop) := by
  unfold Sys.receive
  split
  · exact ha
  rename_i idx generation hs
  intro i
  have hgot : ∀ m ∈ (pop (st.boxes idx) ⟨tid, idx, generation⟩).1.toList, m.toSlot = idx := fun m hm =>
    ((hpop _ _ (h.boxes idx)).got m (Option.mem_toList.1 hm)).2.2.1
  simp only [List.map_append, List.map_map, comp_def, List.map_id', ofSlot_append, List.append_assoc]
  by_cases hi : i = idx
  · subst hi
    have hall : ofSlot i (pop (st.boxes i) ⟨tid, i, generation⟩).1.toList = _ :=
      List.filter_eq_self.2 fun m hm => by simpa using hgot m hm
    rw [update_self, hall]
    exact ((List.subperm_append_left _).2 (htakes _ _ (h.boxes i))).trans (ha i)
  · have hnone : ofSlot i (pop (st.boxes idx) ⟨tid, idx, generation⟩).1.toList = [] :=
      List.filter_eq_nil_iff.2 fun m hm => by simpa [hgot m hm] using Ne.symm hi
    rw [update_of_ne hi, hnone]
    exact ha i

theorem accounted_step (st : Sys) (o : Op) (h : Inv st ∧ Accounted st) :
    Inv (step st o) ∧ Accounted (step st o) := by
  obtain ⟨h, ha⟩ := h
  refine ⟨step_inv st o h, ?_⟩
  cases o with
  | create tid | exit tid => exact ha
  | sendStart sender destTid payload =>
    simp only [step]
    split <;> exact ha
  | push k =>
    simp only [step]
    split
    · exact ha
    · exact accounted_push h ha _
  | recv tid =>
    exact accounted_receive h ha tid (fun _ r hmb => popValid_popped hmb r) fun _ r hmb => popValid_takes hmb r
  | recvFrom tid sender =>
    exact accounted_receive h ha tid (fun _ r hmb => popFromSender_popped hmb sender r)
      fun _ r hmb => popFromSender_takes hmb sender r

/-- **No message twice.** However threads come and go and sends and receives interleave: a message that was accepted is
delivered once at most, and not while it is queued; as often as it was accepted if sent again. -/
theorem delivered_once (ops : List Op) : Accounted (run step init ops) :=
  (inv_run accounted_step init ops ⟨inv_init, fun i => by simp [init, contents, queued, Mailbox.new, ofSlot]⟩).2

end SwiftCore.Ipc.Slots
