/-
Spin locks, interrupts and threads on one processor.

Code is what it does to locks, to the interrupt flag and to the processor, in order. A thread runs its code until it hands
over the processor; an interrupt that is enabled puts its handler in between. Some locks disable interrupts while they are
held (`masks`), others do not. A lock that is taken makes whoever wants it spin.

- `Fits`: a trace gives back its locks in the opposite order and keeps none when it hands over the processor.
- `Tidy.append`, `Tidy.locked`, `Tidy.masked`: traces that fit are put together from sections.
- `base_step`: threads that do not run hold no lock, and the locks taken are those of the running thread and the handler.
- `uses_step`: threads hold and take only the locks of the traces they begin with.
- `clear_step`: a handler that starts clear of the locks held by the code it interrupts stays clear of them.
- `spins_of_conflict`: one that wants a lock which that code holds comes to spin on it.
-/
import SwiftCore.Lib.Run

namespace SwiftCore.IrqLocks

open Run

variable {κ : Type}

inductive Act (κ : Type) where
  | acquire (l : κ)
  | release (l : κ)
  /-- interrupts are disabled until `unmask` -/
  | mask
  | unmask
  /-- the processor is given to another thread -/
  | switch
  deriving DecidableEq, Repr

abbrev Trace (κ : Type) := List (Act κ)

/-! ## Traces -/

/-- from the locks `held`, the last one first, and interrupts disabled `masked` times, the trace gives back everything -/
def Fits : List κ → ℕ → Trace κ → Prop
  | held, masked, [] => held = [] ∧ masked = 0
  | held, masked, .acquire l :: tr => l ∉ held ∧ Fits (l :: held) masked tr
  | held, masked, .release l :: tr => ∃ rest, held = l :: rest ∧ Fits rest masked tr
  | held, masked, .mask :: tr => Fits held (masked + 1) tr
  | held, masked, .unmask :: tr => 0 < masked ∧ Fits held (masked - 1) tr
  | held, masked, .switch :: tr => held = [] ∧ Fits held masked tr

/-- the locks that a trace takes -/
def acquires (tr : Trace κ) : List κ := tr.filterMap fun
  | .acquire l => some l
  | _ => none

/-- `body` under the lock `l` -/
def locked (l : κ) (body : Trace κ) : Trace κ := .acquire l :: body ++ [.release l]

/-- `body` without interrupts -/
def masked (body : Trace κ) : Trace κ := .mask :: body ++ [.unmask]

/-- takes only locks of `A`, and can stand in front of any trace that starts with the locks `held` -/
structure Tidy (A : κ → Prop) (held : List κ) (tr : Trace κ) : Prop where
  fits : ∀ masked rest, Fits held masked rest → Fits held masked (tr ++ rest)
  uses : ∀ l ∈ acquires tr, A l

namespace Tidy

variable {A : κ → Prop} {held : List κ} {tr tr' body : Trace κ}

theorem nil : Tidy A held [] := ⟨fun _ _ h => h, nofun⟩

theorem append (h : Tidy A held tr) (h' : Tidy A held tr') : Tidy A held (tr ++ tr') := by
  refine ⟨fun m rest hrest => ?_, fun l hl => ?_⟩
  · rw [List.append_assoc]
    exact h.fits m _ (h'.fits m rest hrest)
  · rw [acquires, List.filterMap_append, List.mem_append] at hl
    exact hl.elim (h.uses l) (h'.uses l)

theorem flatMap {α : Type} {l : List α} {f : α → Trace κ} (h : ∀ a, Tidy A held (f a)) : Tidy A held (l.flatMap f) := by
  induction l with
  | nil => exact nil
  | cons a l ih =>
    rw [List.flatMap_cons]
    exact (h a).append ih

theorem ite {c : Prop} [Decidable c] (h : Tidy A held tr) (h' : Tidy A held tr') : Tidy A held (if c then tr else tr') := by
  split_ifs
  · exact h
  · exact h'

theorem locked {l : κ} (hA : A l) (hl : l ∉ held) (h : Tidy A (l :: held) body) : Tidy A held (locked l body) := by
  refine ⟨fun m rest hrest => ⟨hl, ?_⟩, fun k hk => ?_⟩
  · show Fits (l :: held) m ((body ++ [.release l]) ++ rest)
    rw [List.append_assoc]
    exact h.fits m _ ⟨held, rfl, hrest⟩
  · have hk : k ∈ l :: acquires (body ++ [.release l]) := hk
    rw [acquires, List.filterMap_append, List.mem_cons, List.mem_append] at hk
    rcases hk with rfl | hk | hk
    · exact hA
    · exact h.uses k hk
    · cases hk

theorem masked (h : Tidy A held body) : Tidy A held (masked body) := by
  refine ⟨fun m rest hrest => ?_, fun k hk => ?_⟩
  · show Fits held (m + 1) ((body ++ [.unmask]) ++ rest)
    rw [List.append_assoc]
    exact h.fits (m + 1) _ ⟨Nat.succ_pos m, hrest⟩
  · have hk : k ∈ acquires (body ++ [.unmask]) := hk
    rw [acquires, List.filterMap_append, List.mem_append] at hk
    exact hk.elim (h.uses k) nofun

theorem switch : Tidy A [] [.switch] := ⟨fun _ _ h => ⟨rfl, h⟩, nofun⟩

theorem complete (h : Tidy A [] tr) : Fits [] 0 tr := by
  have hfits := h.fits 0 [] ⟨rfl, rfl⟩
  rwa [List.append_nil] at hfits

end Tidy

/-! ## The machine -/

/-- code on its way: what is left of it, the locks it holds, how often it has disabled interrupts -/
structure Ctx (κ : Type) where
  todo : Trace κ
  held : List κ
  masked : ℕ

/-- interrupts are enabled -/
def Ctx.Enabled (masks : κ → Bool) (c : Ctx κ) : Prop := c.masked = 0 ∧ ∀ l ∈ c.held, masks l = false
  deriving Decidable

structure World (κ : Type) where
  threads : ℕ → Ctx κ
  current : ℕ
  /-- the handler that runs, with interrupts disabled -/
  handler : Option (Ctx κ)
  /-- the locks that are taken -/
  locks : List κ

def World.thread (w : World κ) : Ctx κ := w.threads w.current

def World.setThread (w : World κ) (c : Ctx κ) : World κ := { w with threads := Function.update w.threads w.current c }

inductive Op (κ : Type) where
  /-- the current thread begins with a trace -/
  | call (tr : Trace κ)
  /-- an interrupt with its handler -/
  | irq (tr : Trace κ)
  /-- the next act of the handler, or of the current thread; a thread that hands over the processor gives it to `next` -/
  | exec (next : ℕ)
  /-- the timer takes the processor from a thread that does nothing -/
  | tick (next : ℕ)

section Step

variable [DecidableEq κ]

/-- the next act of `c` with the locks taken: `c` and the locks afterwards; it spins on a lock that is taken -/
def advance (locks : List κ) (c : Ctx κ) : Ctx κ × List κ :=
  match c.todo with
  | [] => (c, locks)
  | .acquire l :: tr => if l ∈ locks then (c, locks) else (⟨tr, l :: c.held, c.masked⟩, l :: locks)
  | .release l :: tr => (⟨tr, c.held.erase l, c.masked⟩, locks.erase l)
  | .mask :: tr => (⟨tr, c.held, c.masked + 1⟩, locks)
  | .unmask :: tr => (⟨tr, c.held, c.masked - 1⟩, locks)
  | .switch :: tr => (⟨tr, c.held, c.masked⟩, locks)

def step (masks : κ → Bool) (w : World κ) : Op κ → World κ
  | .call tr => if w.handler.isNone ∧ w.thread.todo = [] then w.setThread ⟨tr, [], 0⟩ else w
  | .irq tr => if w.handler.isNone ∧ w.thread.Enabled masks then { w with handler := some ⟨tr, [], 0⟩ } else w
  | .exec next =>
    match w.handler with
    | some h =>
      if h.todo = [] then { w with handler := none }
      else { w with handler := some (advance w.locks h).1, locks := (advance w.locks h).2 }
    | none =>
      let w' := { w.setThread (advance w.locks w.thread).1 with locks := (advance w.locks w.thread).2 }
      if w.thread.todo.head? = some .switch then { w' with current := next } else w'
  | .tick next => if w.handler.isNone ∧ w.thread.todo = [] then { w with current := next } else w

end Step

/-- the handler wants a lock that the code it interrupted holds -/
def Spins (w : World κ) : Prop :=
  ∃ h l tr, w.handler = some h ∧ h.todo = .acquire l :: tr ∧ l ∈ w.thread.held

/-! ## Invariants -/

/-- threads keep the discipline; those that do not run hold nothing; the locks taken are those held -/
structure Base (w : World κ) : Prop where
  fits : ∀ t, Fits (w.threads t).held (w.threads t).masked (w.threads t).todo
  away : ∀ {t}, t ≠ w.current → (w.threads t).held = []
  handler : ∀ {h}, w.handler = some h → Fits h.held h.masked h.todo ∧ .switch ∉ h.todo
  locks : w.locks = (w.handler.map Ctx.held).getD [] ++ w.thread.held

section Advance

variable [DecidableEq κ] {c : Ctx κ} {other : List κ}

/-- one act of code that keeps the discipline, with the locks of others taken: it does the act, or spins on one of them -/
theorem advance_spec (h : Fits c.held c.masked c.todo) (htodo : c.todo ≠ []) :
    (∃ l tr, c.todo = .acquire l :: tr ∧ l ∈ other ∧ advance (c.held ++ other) c = (c, c.held ++ other)) ∨
      ∃ c', advance (c.held ++ other) c = (c', c'.held ++ other) ∧ c'.todo = c.todo.tail ∧
        Fits c'.held c'.masked c'.todo ∧ (c.todo.head? = some .switch → c'.held = []) := by
  rcases c with ⟨_ | ⟨a, tr⟩, held, masked⟩
  · exact absurd rfl htodo
  cases a with
  | acquire l =>
    obtain ⟨hl, hfits⟩ := h
    by_cases hother : l ∈ other
    · exact .inl ⟨l, tr, rfl, hother, if_pos (List.mem_append_right _ hother)⟩
    · refine .inr ⟨⟨tr, l :: held, masked⟩, if_neg ?_, rfl, hfits, nofun⟩
      rw [List.mem_append, not_or]
      exact ⟨hl, hother⟩
  | release l =>
    obtain ⟨rest, rfl, hfits⟩ := h
    refine .inr ⟨⟨tr, rest, masked⟩, ?_, rfl, hfits, nofun⟩
    simp [advance]
  | mask => exact .inr ⟨⟨tr, held, masked + 1⟩, rfl, rfl, h, nofun⟩
  | unmask => exact .inr ⟨⟨tr, held, masked - 1⟩, rfl, rfl, h.2, nofun⟩
  | switch => exact .inr ⟨⟨tr, held, masked⟩, rfl, rfl, h.2, fun _ => h.1⟩

end Advance

/-! ## Steps -/

section Steps

variable {masks : κ → Bool} {w : World κ}

theorem idle_held (h : Base w) {t : ℕ} (htodo : (w.threads t).todo = []) : (w.threads t).held = [] := by
  have hfits := h.fits t
  rw [htodo] at hfits
  exact hfits.1

theorem threads_setThread (w : World κ) (c : Ctx κ) (t : ℕ) :
    (w.setThread c).threads t = if t = w.current then c else w.threads t :=
  Function.update_apply ..

/-- the current thread gets on, or changes hands, without a handler -/
theorem base_setThread (h : Base w) (hnone : w.handler = none) {c : Ctx κ} {locks : List κ} {current : ℕ}
    (hc : Fits c.held c.masked c.todo) (hlocks : locks = c.held) (hcurrent : current = w.current ∨ c.held = []) :
    Base { w.setThread c with locks := locks, current := current } := by
  have hself : (w.setThread c).threads w.current = c := by rw [threads_setThread, if_pos rfl]
  have hothers : ∀ {t}, t ≠ w.current → (w.setThread c).threads t = w.threads t := fun ht => by
    rw [threads_setThread, if_neg ht]
  refine ⟨fun t => ?_, fun {t} ht => ?_, fun {k} hk => (nomatch hnone.symm.trans hk), ?_⟩
  · by_cases ht : t = w.current
    · simp only [ht, hself]
      exact hc
    · simp only [hothers ht]
      exact h.fits t
  · by_cases ht' : t = w.current
    · rcases hcurrent with rfl | hheld
      · exact absurd ht' ht
      · simp only [ht', hself]
        exact hheld
    · simp only [hothers ht']
      exact h.away ht'
  · have hmap : (w.setThread c).handler = none := hnone
    simp only [hmap, Option.map_none, Option.getD_none, List.nil_append, World.thread, hlocks]
    by_cases hcur : current = w.current
    · rw [hcur, hself]
    · rw [hothers hcur, h.away hcur]
      exact hcurrent.resolve_left hcur

/-- what may happen: code that keeps the discipline, and handlers that do not hand over the processor -/
def Op.Legal : Op κ → Prop
  | .call tr => Fits [] 0 tr
  | .irq tr => Fits [] 0 tr ∧ .switch ∉ tr
  | .exec _ | .tick _ => True

variable [DecidableEq κ]

theorem base_call (h : Base w) (tr : Trace κ) (htr : Fits [] 0 tr) : Base (step masks w (.call tr)) := by
  rw [step]
  split_ifs with hidle
  · have hnone : w.handler = none := Option.isNone_iff_eq_none.1 hidle.1
    have hheld : w.thread.held = [] := idle_held h hidle.2
    have hlocks : w.locks = [] := by rw [h.locks, hnone, hheld]; rfl
    exact @base_setThread κ w h hnone ⟨tr, [], 0⟩ w.locks w.current htr hlocks (.inl rfl)
  · exact h

theorem base_irq (h : Base w) (tr : Trace κ) (htr : Fits [] 0 tr ∧ .switch ∉ tr) : Base (step masks w (.irq tr)) := by
  rw [step]
  split_ifs with hidle
  · have hnone : w.handler = none := Option.isNone_iff_eq_none.1 hidle.1
    refine ⟨h.fits, h.away, fun {k} hk => ?_, ?_⟩
    · cases hk
      exact htr
    · have hlocks := h.locks
      rw [hnone] at hlocks
      exact hlocks
  · exact h

theorem base_exec (h : Base w) (next : ℕ) : Base (step masks w (.exec next)) := by
  rw [step]
  cases hh : w.handler with
  | some k =>
    obtain ⟨hfits, hswitch⟩ := h.handler hh
    have hlocks : w.locks = k.held ++ w.thread.held := by
      rw [h.locks, hh]
      rfl
    simp only
    split_ifs with hdone
    · rw [hdone] at hfits
      refine ⟨h.fits, h.away, nofun, ?_⟩
      rw [hlocks, hfits.1]
      rfl
    · rw [hlocks]
      obtain ⟨l, tr, -, -, hadv⟩ | ⟨c', hadv, htail, hfits', -⟩ := @advance_spec κ _ k w.thread.held hfits hdone
      · rw [hadv]
        refine ⟨h.fits, h.away, fun {c} hc => ?_, rfl⟩
        cases hc
        exact ⟨hfits, hswitch⟩
      · rw [hadv]
        refine ⟨h.fits, h.away, fun {c} hc => ?_, rfl⟩
        cases hc
        rw [htail]
        exact ⟨htail ▸ hfits', fun hmem => hswitch (List.mem_of_mem_tail hmem)⟩
  | none =>
    have hlocks : w.locks = w.thread.held ++ [] := by
      rw [h.locks, hh, List.append_nil]
      rfl
    simp only
    rw [hlocks]
    by_cases hdone : w.thread.todo = []
    · have hadv : advance (w.thread.held ++ []) w.thread = (w.thread, w.thread.held ++ []) := by
        simp only [advance, hdone]
      rw [hadv, hdone, if_neg (by simp)]
      exact base_setThread h hh (h.fits w.current) (List.append_nil _) (.inl rfl)
    · obtain ⟨l, tr, -, hl, -⟩ | ⟨c', hadv, -, hfits', hswitch⟩ :=
        @advance_spec κ _ w.thread [] (h.fits w.current) hdone
      · exact absurd hl List.not_mem_nil
      · rw [hadv]
        split_ifs with hhead
        · exact base_setThread h hh hfits' (List.append_nil _) (.inr (hswitch hhead))
        · exact base_setThread h hh hfits' (List.append_nil _) (.inl rfl)

theorem base_tick (h : Base w) (next : ℕ) : Base (step masks w (.tick next)) := by
  rw [step]
  split_ifs with hidle
  · have hnone : w.handler = none := Option.isNone_iff_eq_none.1 hidle.1
    have hheld : w.thread.held = [] := idle_held h hidle.2
    have haway : ∀ t, (w.threads t).held = [] := by
      intro t
      by_cases ht : t = w.current
      · rw [ht]
        exact hheld
      · exact h.away ht
    refine ⟨h.fits, fun {t} _ => haway t, h.handler, ?_⟩
    rw [h.locks, hheld]
    exact congrArg _ (haway next).symm
  · exact h

/-- **Step.** The locks taken are those of the thread that runs and of its handler. -/
theorem base_step (h : Base w) (op : Op κ) (hop : op.Legal) : Base (step masks w op) := by
  cases op with
  | call tr => exact base_call h tr hop
  | irq tr => exact base_irq h tr hop
  | exec next => exact base_exec h next
  | tick next => exact base_tick h next

/-- code that holds and takes only locks of `A` -/
def Ctx.Uses (A : κ → Prop) (c : Ctx κ) : Prop := ∀ l, l ∈ c.held ∨ l ∈ acquires c.todo → A l

theorem Ctx.Uses.advance {A : κ → Prop} {c : Ctx κ} (h : c.Uses A) (locks : List κ) : (advance locks c).1.Uses A := by
  rcases c with ⟨_ | ⟨a, tr⟩, held, masked⟩
  · exact h
  have htail : ∀ {l}, l ∈ acquires tr → A l := fun {l} hl => h l (.inr (by
    rw [acquires, List.filterMap_cons]
    split
    · exact hl
    · exact List.mem_cons_of_mem _ hl))
  cases a with
  | acquire l =>
    rw [IrqLocks.advance]
    simp only
    split_ifs
    · exact h
    · rintro k (hk | hk)
      · rcases List.mem_cons.1 hk with rfl | hk
        · exact h k (.inr List.mem_cons_self)
        · exact h k (.inl hk)
      · exact htail hk
  | release l => exact fun k hk => hk.elim (fun hk => h k (.inl (List.mem_of_mem_erase hk))) htail
  | mask | unmask | switch => exact fun k hk => hk.elim (fun hk => h k (.inl hk)) htail

/-- **Step.** Threads hold only locks of `A` if their traces take no others. -/
theorem uses_step {A : κ → Prop} (h : ∀ t, (w.threads t).Uses A) (op : Op κ)
    (hcall : ∀ tr, op = .call tr → ∀ l ∈ acquires tr, A l) (t : ℕ) : ((step masks w op).threads t).Uses A := by
  have hset : ∀ {c : Ctx κ}, c.Uses A → ((w.setThread c).threads t).Uses A := by
    intro c hc
    rw [threads_setThread]
    split_ifs
    · exact hc
    · exact h t
  cases op with
  | call tr =>
    rw [step]
    split_ifs
    · exact hset fun l hl => hl.elim nofun (hcall tr rfl l)
    · exact h t
  | irq tr =>
    rw [step]
    split_ifs <;> exact h t
  | tick next =>
    rw [step]
    split_ifs <;> exact h t
  | exec next =>
    rw [step]
    cases w.handler with
    | some k =>
      simp only
      split_ifs <;> exact h t
    | none =>
      have hadv := (h w.current).advance w.locks
      simp only
      split_ifs <;> exact hset hadv

/-- one act of a handler: it gets on, or spins on a lock of the code it interrupted -/
theorem exec_handler (h : Base w) {k : Ctx κ} (hh : w.handler = some k) (htodo : k.todo ≠ []) (next : ℕ) :
    (∃ l tr, k.todo = .acquire l :: tr ∧ l ∈ w.thread.held) ∨
      ∃ c', (step masks w (.exec next)).handler = some c' ∧ c'.todo = k.todo.tail ∧
        (step masks w (.exec next)).thread = w.thread := by
  have hlocks : w.locks = k.held ++ w.thread.held := by
    rw [h.locks, hh]
    rfl
  obtain ⟨l, tr, hacq, hl, -⟩ | ⟨c', hadv, htail, -, -⟩ := @advance_spec κ _ k w.thread.held (h.handler hh).1 htodo
  · exact .inl ⟨l, tr, hacq, hl⟩
  · refine .inr ⟨c', ?_, htail, ?_⟩
    · rw [step, hh]
      simp only [if_neg htodo, hlocks, hadv]
    · rw [step, hh]
      simp only [if_neg htodo]
      rfl

/-! ## Handlers that are clear of the locks they meet -/

/-- what the handler still takes is not held by the code it interrupted -/
def Clear (w : World κ) : Prop := ∀ h, w.handler = some h → ∀ l ∈ acquires h.todo, l ∉ w.thread.held

omit [DecidableEq κ] in
theorem Clear.not_spins (h : Clear w) : ¬ Spins w := by
  rintro ⟨k, l, tr, hk, htodo, hl⟩
  exact h k hk l (by simp [acquires, htodo]) hl

omit [DecidableEq κ] in
theorem clear_of_none (h : w.handler = none) : Clear w := fun _ hk => (nomatch h.symm.trans hk)

omit [DecidableEq κ] in
theorem acquires_tail {tr : Trace κ} {l : κ} (h : l ∈ acquires tr.tail) : l ∈ acquires tr := by
  cases tr with
  | nil => exact h
  | cons a tr =>
    rw [acquires, List.filterMap_cons]
    split
    · exact h
    · exact List.mem_cons_of_mem _ h

/-- **Step.** A handler that starts clear of the locks it meets stays clear of them. -/
theorem clear_step (hbase : Base w) (h : Clear w) (op : Op κ)
    (hirq : ∀ tr, op = .irq tr → w.handler = none → w.thread.Enabled masks → ∀ l ∈ acquires tr, l ∉ w.thread.held) :
    Clear (step masks w op) := by
  cases op with
  | call tr =>
    rw [step]
    split_ifs with hidle
    · exact clear_of_none (Option.isNone_iff_eq_none.1 hidle.1)
    · exact h
  | irq tr =>
    rw [step]
    split_ifs with hidle
    · intro k hk
      cases hk
      exact hirq tr rfl (Option.isNone_iff_eq_none.1 hidle.1) hidle.2
    · exact h
  | tick next =>
    rw [step]
    split_ifs with hidle
    · exact clear_of_none (Option.isNone_iff_eq_none.1 hidle.1)
    · exact h
  | exec next =>
    cases hh : w.handler with
    | none =>
      refine clear_of_none ?_
      rw [step, hh]
      simp only
      split_ifs <;> exact hh
    | some k =>
      by_cases hdone : k.todo = []
      · refine clear_of_none ?_
        rw [step, hh]
        simp only [if_pos hdone]
      · obtain ⟨l, tr, hacq, hl⟩ | ⟨c', hc', htail, hthread⟩ := @exec_handler κ masks w _ hbase k hh hdone next
        · exact absurd hl (h k hh l (by simp [acquires, hacq]))
        · intro c hc l hl
          cases hc'.symm.trans hc
          rw [htail] at hl
          rw [hthread]
          exact h k hh l (acquires_tail hl)

/-- **Conflict.** A handler that still takes a lock which the code it interrupted holds comes to spin. -/
theorem spins_of_conflict (hbase : Base w) {k : Ctx κ} (hh : w.handler = some k) {l : κ} (hl : l ∈ acquires k.todo)
    (hheld : l ∈ w.thread.held) : ∃ n, Spins (run (step masks) w (List.replicate n (.exec 0))) := by
  induction htodo : k.todo generalizing w k with
  | nil =>
    rw [htodo] at hl
    cases hl
  | cons a tr ih =>
    have hne : k.todo ≠ [] := by
      rw [htodo]
      exact List.cons_ne_nil a tr
    obtain ⟨l', tr', hacq, hl'⟩ | ⟨c', hc', htail, hthread⟩ := @exec_handler κ masks w _ hbase k hh hne 0
    · exact ⟨0, k, l', tr', hh, hacq, hl'⟩
    · by_cases ha : a = .acquire l
      · exact ⟨0, k, l, tr, hh, by rw [htodo, ha], hheld⟩
      · have htail' : c'.todo = tr := by rw [htail, htodo, List.tail_cons]
        have hl'' : l ∈ acquires c'.todo := by
          rw [htodo, acquires, List.filterMap_cons] at hl
          rw [htail']
          cases a with
          | acquire k => exact (List.mem_cons.1 hl).resolve_left fun heq => ha (by rw [heq])
          | release | mask | unmask | switch => exact hl
        obtain ⟨n, hn⟩ := ih (base_exec hbase 0) hc' hl'' (by rw [hthread]; exact hheld) htail'
        exact ⟨n + 1, hn⟩

end Steps

end SwiftCore.IrqLocks
