import Mixv6.Kernel.Sched
import Mixv6.Lib.Machine
import Mathlib.Data.Fintype.Basic

/-!
# Fork, exit and wait

Processes create children, exit and wait for their children, in any order the
scheduler allows.  The machine has the columns of the process table these calls work
on: the state, the wait channel and the parent.  Each `cli` section is one step;
between two of them, and between the stores that `sys_fork` makes into the new slot,
another process may run.

`sys_wait` puts its caller to sleep without looking for a child that has exited
already, so a child can exit before its parent sleeps and never be collected.

## Main definitions

* `WaitSt`, `waitUni` — the processes and the processor they share.
* `NoMissedExit` — nobody sleeps in `sys_wait` with a child that has exited.
* `SafeWait`, `no_missed_exit` — it holds in every run in which a process goes to sleep
  in `sys_wait` before its children exit.
-/

namespace Mixv6.Kernel

open Mixv6.Lib

/-- What processes sleep on here: a slot of the process table, or something else. -/
inductive Chan
  | proc (p : Slot)
  | other (n : ℕ)
  deriving DecidableEq, Repr

/-- Where a process stands. -/
inductive WaitPc
  /-- There is no process in the slot, or it has exited. -/
  | gone
  /-- In user mode, or in a system call that has nothing to do with the others. -/
  | user
  /-- Asleep on another channel. -/
  | nap
  /-- `sys_fork` before its call of `palloc`. -/
  | palloc
  /-- `sys_fork` before its call of `copyuvm` for the new slot. -/
  | copyuvm (np : Slot)
  /-- `sys_fork` before the store `np->pproc = curproc`. -/
  | pproc (np : Slot)
  /-- `sys_fork` before the store `np->stat = RUN`. -/
  | run (np : Slot)
  /-- `sys_wait` before its call of `sleep`. -/
  | wait
  /-- `sys_wait` asleep. -/
  | waiting
  /-- `sys_wait` before its call of `collect_zombies`. -/
  | collect
  deriving DecidableEq, Repr

/-- The slot a process in `sys_fork` is filling in. -/
def WaitPc.np : WaitPc → Option Slot
  | .copyuvm np | .pproc np | .run np => some np
  | _ => none

/-- The columns `stat`, `wchan` and `pproc` of the process table. -/
structure WaitSt where
  pc : Slot → WaitPc
  tab : ProcTab Slot Chan
  pproc : Slot → Option Slot

/-- What a process in user mode does next. -/
inductive Syscall
  | fork
  | exit
  | wait
  /-- Sleep on another channel. -/
  | sleep (n : ℕ)
  /-- Wake another channel. -/
  | wake (n : ℕ)

/-- The next thing to happen to the current process. -/
inductive WaitAct
  | call (c : Syscall)
  /-- The system call goes on; `ok` says whether the kernel finds memory. -/
  | go (ok : Bool)
  /-- A device interrupt wakes a channel. -/
  | device (n : ℕ)

namespace WaitSt

/-- After `uinit`: slot 0 is the zombie dummy, slot 1 is the first process. -/
def init : WaitSt where
  pc p := if p = 1 then .user else .gone
  tab :=
    { stat := fun p => if p = 0 then .ZOMB else if p = 1 then .RUN else .UNUSED
      wchan := fun _ => none }
  pproc _ := none

def goto (s : WaitSt) (p : Slot) (pc : WaitPc) : WaitSt :=
  { s with pc := Function.update s.pc p pc }

def setStat (s : WaitSt) (p : Slot) (stat : ProcStat) : WaitSt :=
  { s with tab.stat := Function.update s.tab.stat p stat }

/-- The slot that the loop of `palloc` stops at. -/
def unused (s : WaitSt) : Option Slot :=
  (List.finRange NPROC).find? fun i => s.tab.stat i = .UNUSED

/-- `memset(p, 0, sizeof(struct proc))` on an unused slot. -/
def memset (s : WaitSt) (np : Slot) : WaitSt :=
  { s with
    tab.wchan := Function.update s.tab.wchan np none
    pproc := Function.update s.pproc np none }

/-- The `cli` section of `sys_exit`. -/
def exit (s : WaitSt) (p : Slot) : WaitSt :=
  let s := (s.goto p .gone).setStat p .ZOMB
  match s.pproc p with
  | some pproc => { s with tab := s.tab.wakeup (some (.proc pproc)) }
  | none => s

/-- `collect_zombies`; `pfree` returns the slot to the table. -/
def collect (s : WaitSt) (p : Slot) : WaitSt :=
  { s with tab.stat := fun c =>
      if s.pproc c = some p ∧ s.tab.stat c = .ZOMB then .UNUSED else s.tab.stat c }

/-- A process in user mode enters the kernel. -/
def call (s : WaitSt) (p : Slot) : Syscall → WaitSt
  | .fork => s.goto p .palloc
  | .exit => s.exit p
  | .wait => s.goto p .wait
  | .sleep n => { s.goto p .nap with tab := s.tab.sleep p (.other n) }
  | .wake n => { s with tab := s.tab.wakeup (some (.other n)) }

/-- The next statement of a process in the kernel. -/
def go (s : WaitSt) (p : Slot) (ok : Bool) : Option WaitSt :=
  match s.pc p with
  | .user | .gone => none
  | .nap => if s.tab.wchan p = none then some (s.goto p .user) else none
  | .palloc =>
      match s.unused with
      | none => some (s.goto p .user)
      | some np =>
          if ok then some (((s.memset np).setStat np .SET).goto p (.copyuvm np))
          else some ((s.memset np).goto p .user)
  | .copyuvm np =>
      if ok then some (s.goto p (.pproc np))
      else some ((s.setStat np .UNUSED).goto p .user)
  | .pproc np => some ({ s with pproc := Function.update s.pproc np (some p) }.goto p (.run np))
  | .run np => some (((s.goto np .user).setStat np .RUN).goto p .user)
  | .wait => some { s.goto p .waiting with tab := s.tab.sleep p (.proc p) }
  | .waiting => if s.tab.wchan p = none then some (s.goto p .collect) else none
  | .collect => some ((s.collect p).goto p .user)

/-- One step of process `p`. -/
def next (p : Slot) (act : WaitAct) (s : WaitSt) : Option WaitSt :=
  match act with
  | .call c => if s.pc p = .user then some (s.call p c) else none
  | .go ok => s.go p ok
  | .device n => some { s with tab := s.tab.wakeup (some (.other n)) }

end WaitSt

/-- What a step of process `p` does, with what it has found before. -/
inductive WaitMove (p : Slot) (s : WaitSt) : WaitAct → WaitSt → Prop
  | device (n : ℕ) : WaitMove p s (.device n) { s with tab := s.tab.wakeup (some (.other n)) }
  | call (c : Syscall) (hpc : s.pc p = .user) : WaitMove p s (.call c) (s.call p c)
  | nap (ok : Bool) (hpc : s.pc p = .nap) : WaitMove p s (.go ok) (s.goto p .user)
  | full (ok : Bool) (hpc : s.pc p = .palloc) : WaitMove p s (.go ok) (s.goto p .user)
  | palloc (np : Slot) (hpc : s.pc p = .palloc) (hnp : s.tab.stat np = .UNUSED) :
      WaitMove p s (.go true) (((s.memset np).setStat np .SET).goto p (.copyuvm np))
  | stack (np : Slot) (hpc : s.pc p = .palloc) :
      WaitMove p s (.go false) ((s.memset np).goto p .user)
  | copyuvm (np : Slot) (hpc : s.pc p = .copyuvm np) :
      WaitMove p s (.go true) (s.goto p (.pproc np))
  | undo (np : Slot) (hpc : s.pc p = .copyuvm np) :
      WaitMove p s (.go false) ((s.setStat np .UNUSED).goto p .user)
  | pproc (ok : Bool) (np : Slot) (hpc : s.pc p = .pproc np) : WaitMove p s (.go ok)
      ({ s with pproc := Function.update s.pproc np (some p) }.goto p (.run np))
  | run (ok : Bool) (np : Slot) (hpc : s.pc p = .run np) :
      WaitMove p s (.go ok) (((s.goto np .user).setStat np .RUN).goto p .user)
  | wait (ok : Bool) (hpc : s.pc p = .wait) :
      WaitMove p s (.go ok) { s.goto p .waiting with tab := s.tab.sleep p (.proc p) }
  | waiting (ok : Bool) (hpc : s.pc p = .waiting) (hw : s.tab.wchan p = none) :
      WaitMove p s (.go ok) (s.goto p .collect)
  | collect (ok : Bool) (hpc : s.pc p = .collect) :
      WaitMove p s (.go ok) ((s.collect p).goto p .user)

theorem WaitSt.next_cases {p : Slot} {act : WaitAct} {s s' : WaitSt}
    (h : WaitSt.next p act s = some s') : WaitMove p s act s' := by
  cases act with
  | device n => exact Option.some.inj h ▸ .device n
  | call c =>
      simp only [next, Option.ite_none_right_eq_some, Option.some.injEq] at h
      exact h.2 ▸ .call c h.1
  | go ok =>
      simp only [next, go] at h
      cases hpc : s.pc p with
      | gone => simp [hpc] at h
      | user => simp [hpc] at h
      | nap =>
          simp only [hpc, Option.ite_none_right_eq_some, Option.some.injEq] at h
          exact h.2 ▸ .nap ok hpc
      | palloc =>
          simp only [hpc] at h
          split at h
          next => exact Option.some.inj h ▸ .full ok hpc
          next np hnp =>
            have hunused : s.tab.stat np = .UNUSED := by simpa using List.find?_some hnp
            cases ok with
            | true => exact Option.some.inj h ▸ .palloc np hpc hunused
            | false => exact Option.some.inj h ▸ .stack np hpc
      | copyuvm np =>
          simp only [hpc] at h
          cases ok with
          | true => exact Option.some.inj h ▸ .copyuvm np hpc
          | false => exact Option.some.inj h ▸ .undo np hpc
      | pproc np =>
          simp only [hpc, Option.some.injEq] at h
          exact h ▸ .pproc ok np hpc
      | run np =>
          simp only [hpc, Option.some.injEq] at h
          exact h ▸ .run ok np hpc
      | wait =>
          simp only [hpc, Option.some.injEq] at h
          exact h ▸ .wait ok hpc
      | waiting =>
          simp only [hpc, Option.ite_none_right_eq_some, Option.some.injEq] at h
          exact h.2 ▸ .waiting ok hpc h.1
      | collect =>
          simp only [hpc, Option.some.injEq] at h
          exact h ▸ .collect ok hpc

/-- The processor.  `sched` chooses a runnable process, or a sleeping one when the
current process has exited and none is runnable. -/
def waitUni : Uni Slot WaitAct WaitSt where
  next := WaitSt.next
  runnable s p q := s.tab.stat q = .RUN ∨
    (s.tab.stat p = .ZOMB ∧ (∀ r, s.tab.stat r ≠ .RUN) ∧ s.tab.stat q = .SLEEP)
  intr _ := none

/-- Nobody sleeps in `sys_wait` while one of its children is a zombie. -/
def NoMissedExit (s : WaitSt) : Prop :=
  ∀ p c, s.tab.wchan p = some (.proc p) → s.pproc c = some p → s.tab.stat c ≠ .ZOMB

/-- A process that goes to sleep in `sys_wait` has no child that has exited already. -/
def SafeWait (s : Cpu Slot WaitSt) : CpuEvent Slot WaitAct → Prop
  | .exec (.go _) =>
      s.st.pc s.cur = .wait → ∀ c, s.st.pproc c = some s.cur → s.st.tab.stat c ≠ .ZOMB
  | _ => True

instance (s : Cpu Slot WaitSt) : ∀ e : CpuEvent Slot WaitAct, Decidable (SafeWait s e)
  | .exec (.go _) => inferInstanceAs (Decidable (_ → _))
  | .exec (.call _) | .exec (.device _) | .switch _ | .intr => .isTrue trivial

/-! ## Slots in use, slots being filled in, and slots nobody runs in -/

/-- A slot being filled in: out of the scheduler's sight, with nobody in it. -/
def WaitSt.Fresh (s : WaitSt) (np : Slot) : Prop :=
  s.tab.stat np = .SET ∧ s.tab.wchan np = none ∧ s.pc np = .gone

/-- The slots of the table are kept apart.  This holds in every run. -/
structure SlotInv (s : WaitSt) : Prop where
  waiting : ∀ p, s.tab.wchan p = some (.proc p) → s.pc p = .waiting
  unused : ∀ p, s.tab.stat p = .UNUSED ∨ s.tab.stat p = .ZOMB → s.pc p = .gone
  fresh : ∀ p np, (s.pc p).np = some np → s.Fresh np
  one : ∀ p q np, (s.pc p).np = some np → (s.pc q).np = some np → p = q

namespace SlotInv
variable {s s' : WaitSt} {p np : Slot}

theorem init : SlotInv .init where
  waiting p hp := by simp [WaitSt.init] at hp
  unused p hp := by
    by_cases h1 : p = 1
    · subst h1; revert hp; decide
    · simp [WaitSt.init, h1]
  fresh p np hp := by
    by_cases h1 : p = 1 <;> simp [WaitSt.init, h1, WaitPc.np] at hp
  one p q np hp _ := by
    by_cases h1 : p = 1 <;> simp [WaitSt.init, h1, WaitPc.np] at hp

/-- Nobody fills in a slot that somebody lives in. -/
theorem np_ne (h : SlotInv s) (hp : s.pc p ≠ .gone) (q : Slot) : (s.pc q).np ≠ some p :=
  fun hq => hp (h.fresh q p hq).2.2

/-- A process moves on, appears in a slot or leaves it. -/
theorem move (h : SlotInv s) {pc : WaitPc}
    (hown : s.tab.wchan p = some (.proc p) → pc = .waiting)
    (hlive : pc = .gone ∨
      ¬ (s.tab.stat p = .UNUSED ∨ s.tab.stat p = .ZOMB) ∧ ∀ q, (s.pc q).np ≠ some p)
    (hnp : ∀ np, pc.np = some np → s.Fresh np ∧ np ≠ p ∧
      ∀ q, (s.pc q).np = some np → q = p) : SlotInv (s.goto p pc) := by
  have hself : (s.goto p pc).pc p = pc := Function.update_self ..
  have hother : ∀ q, q ≠ p → (s.goto p pc).pc q = s.pc q :=
    fun q hq => Function.update_of_ne hq ..
  refine ⟨?_, ?_, ?_, ?_⟩
  · intro q hq
    by_cases hqp : q = p
    · subst hqp; rw [hself]; exact hown hq
    · rw [hother q hqp]; exact h.waiting q hq
  · intro q hq
    by_cases hqp : q = p
    · subst hqp; rw [hself]; exact hlive.resolve_right fun hn => hn.1 hq
    · rw [hother q hqp]; exact h.unused q hq
  · intro q np hq
    by_cases hqp : q = p
    · subst hqp
      rw [hself] at hq
      obtain ⟨⟨hset, hw, hgone⟩, hne, -⟩ := hnp np hq
      exact ⟨hset, hw, by rw [hother np hne]; exact hgone⟩
    · rw [hother q hqp] at hq
      obtain ⟨hset, hw, hgone⟩ := h.fresh q np hq
      refine ⟨hset, hw, ?_⟩
      by_cases hne : np = p
      · subst hne; rw [hself]; exact hlive.resolve_right fun hn => hn.2 q hq
      · rw [hother np hne]; exact hgone
  · intro q r np hq hr
    by_cases hqp : q = p <;> by_cases hrp : r = p
    · rw [hqp, hrp]
    · subst hqp
      rw [hself] at hq; rw [hother r hrp] at hr
      exact ((hnp np hq).2.2 r hr).symm
    · subst hrp
      rw [hother q hqp] at hq; rw [hself] at hr
      exact (hnp np hr).2.2 q hq
    · rw [hother q hqp] at hq; rw [hother r hrp] at hr
      exact h.one q r np hq hr

/-- A process goes on, with the same new slot in its hands or with none. -/
theorem goto (h : SlotInv s) {pc : WaitPc} (hpc : s.pc p ≠ .gone)
    (hown : s.tab.wchan p = some (.proc p) → pc = .waiting)
    (hnp : pc.np = none ∨ pc.np = (s.pc p).np) : SlotInv (s.goto p pc) := by
  refine h.move hown (.inr ⟨fun hs => hpc (h.unused p hs), h.np_ne hpc⟩) fun np hp => ?_
  have hold : (s.pc p).np = some np := by
    rcases hnp with hnp | hnp
    · rw [hnp] at hp; cases hp
    · rw [← hnp, hp]
  refine ⟨h.fresh p np hold, ?_, fun q hq => h.one q p np hq hold⟩
  rintro rfl
  exact h.np_ne hpc np hold

/-- A `wakeup` makes processes runnable that were asleep. -/
theorem wakeup (h : SlotInv s) (w : Chan) : SlotInv { s with tab := s.tab.wakeup (some w) } := by
  refine ⟨fun q hq => h.waiting q (ProcTab.wchan_of_wakeup hq), ?_, ?_, h.one⟩
  · intro q hq
    refine h.unused q (hq.imp ?_ ?_) <;> exact ProcTab.stat_of_wakeup (by decide)
  · intro q np hq
    obtain ⟨hset, hw, hgone⟩ := h.fresh q np hq
    refine ⟨?_, ?_, hgone⟩ <;> simp [ProcTab.wakeup, hw, hset]

/-- A running process goes to sleep. -/
theorem sleep (h : SlotInv s) {w : Chan} (hpc : s.pc p ≠ .gone)
    (hw : w = .proc p → s.pc p = .waiting) : SlotInv { s with tab := s.tab.sleep p w } := by
  refine ⟨?_, ?_, ?_, h.one⟩
  · intro q hq
    simp only [ProcTab.wchan_sleep] at hq
    split at hq
    next hqp => subst hqp; exact hw (Option.some.inj hq)
    next => exact h.waiting q hq
  · intro q hq
    by_cases hqp : q = p
    · subst hqp; simp [ProcTab.sleep] at hq
    · exact h.unused q (by simpa [ProcTab.sleep, hqp] using hq)
  · intro q np hq
    have hne : np ≠ p := by rintro rfl; exact h.np_ne hpc q hq
    simpa [WaitSt.Fresh, ProcTab.sleep, hne] using h.fresh q np hq

/-- The state of a slot changes that nobody is filling in. -/
theorem setStat (h : SlotInv s) {stat : ProcStat} (hnp : ∀ q, (s.pc q).np ≠ some p)
    (hgone : stat = .UNUSED ∨ stat = .ZOMB → s.pc p = .gone) : SlotInv (s.setStat p stat) := by
  refine ⟨h.waiting, ?_, ?_, h.one⟩
  · intro q hq
    by_cases hqp : q = p
    · subst hqp; exact hgone (by simpa [WaitSt.setStat] using hq)
    · exact h.unused q (by simpa [WaitSt.setStat, hqp] using hq)
  · intro q np hq
    have hne : np ≠ p := by rintro rfl; exact hnp q hq
    simpa [WaitSt.Fresh, WaitSt.setStat, hne] using h.fresh q np hq

/-- A cleared slot has nobody asleep in it. -/
theorem memset (h : SlotInv s) (np : Slot) : SlotInv (s.memset np) := by
  refine ⟨?_, h.unused, ?_, h.one⟩
  · intro q hq
    by_cases hqn : q = np
    · subst hqn; simp [WaitSt.memset] at hq
    · exact h.waiting q (by simpa [WaitSt.memset, hqn] using hq)
  · intro q i hq
    obtain ⟨hset, hw, hgone⟩ := h.fresh q i hq
    refine ⟨hset, ?_, hgone⟩
    by_cases hin : i = np <;> simp [WaitSt.memset, hin, hw]

/-- The parents of the processes do not matter for the slots. -/
theorem setPproc (h : SlotInv s) (pproc : Slot → Option Slot) : SlotInv { s with pproc } :=
  ⟨h.waiting, h.unused, h.fresh, h.one⟩

/-- `palloc` takes a slot that is not in use. -/
theorem palloc (h : SlotInv s) (hpc : s.pc p = .palloc) (hnp : s.tab.stat np = .UNUSED) :
    SlotInv (((s.memset np).setStat np .SET).goto p (.copyuvm np)) := by
  have hgone : s.pc np = .gone := h.unused np (.inl hnp)
  have hnone : ∀ q, (s.pc q).np ≠ some np := by
    intro q hq
    have hset := (h.fresh q np hq).1
    rw [hnp] at hset; cases hset
  have hset : SlotInv ((s.memset np).setStat np .SET) := (h.memset np).setStat hnone (by simp)
  have hp : ((s.memset np).setStat np .SET).pc p ≠ .gone := by
    simp [WaitSt.memset, WaitSt.setStat, hpc]
  have hne : np ≠ p := by rintro rfl; rw [hpc] at hgone; cases hgone
  refine hset.move (fun hw => ?_) (.inr ⟨fun hs => hp (hset.unused p hs), hset.np_ne hp⟩) ?_
  · have := hset.waiting p hw
    simp [WaitSt.memset, WaitSt.setStat, hpc] at this
  · intro i hi
    obtain rfl : np = i := by simpa [WaitPc.np] using hi
    exact ⟨by simp [WaitSt.Fresh, WaitSt.memset, WaitSt.setStat, hgone], hne,
      fun q hq => absurd hq (hnone q)⟩

/-- The new process becomes runnable and starts in user mode. -/
theorem run (h : SlotInv s) (hpc : s.pc p = .run np) :
    SlotInv (((s.goto np .user).setStat np .RUN).goto p .user) := by
  have hnp : (s.pc p).np = some np := by rw [hpc]; rfl
  obtain ⟨-, hw, hgone⟩ := h.fresh p np hnp
  have hne : np ≠ p := by rintro rfl; rw [hpc] at hgone; cases hgone
  have hp : SlotInv (s.goto p .user) := h.goto (by simp [hpc])
    (fun hw => absurd (h.waiting p hw) (by simp [hpc])) (.inl rfl)
  have hnone : ∀ q, ((s.goto p .user).pc q).np ≠ some np := by
    intro q hq
    by_cases hqp : q = p
    · subst hqp; simp [WaitSt.goto, WaitPc.np] at hq
    · exact hqp (h.one q p np (by simpa [WaitSt.goto, hqp] using hq) hnp)
  have hrun : SlotInv ((s.goto p .user).setStat np .RUN) := hp.setStat hnone (by simp)
  have : SlotInv (((s.goto p .user).setStat np .RUN).goto np .user) := hrun.move
    (fun hw' => by simp [WaitSt.goto, WaitSt.setStat, hw] at hw')
    (.inr ⟨by simp [WaitSt.setStat], hnone⟩) (by simp [WaitPc.np])
  simpa [WaitSt.goto, WaitSt.setStat, Function.update_comm hne] using this

/-- The process disappears from its slot. -/
theorem exit (h : SlotInv s) (hpc : s.pc p = .user) : SlotInv (s.exit p) := by
  have hown : s.tab.wchan p ≠ some (.proc p) := fun hw => by
    rw [h.waiting p hw] at hpc; cases hpc
  have hleave : SlotInv (s.goto p .gone) :=
    h.move (fun hw => absurd hw hown) (.inl rfl) (by simp [WaitPc.np])
  have hnone : ∀ q, ((s.goto p .gone).pc q).np ≠ some p := by
    intro q hq
    by_cases hqp : q = p
    · subst hqp; simp [WaitSt.goto, WaitPc.np] at hq
    · exact h.np_ne (p := p) (by simp [hpc]) q (by simpa [WaitSt.goto, hqp] using hq)
  have hzomb : SlotInv ((s.goto p .gone).setStat p .ZOMB) :=
    hleave.setStat hnone fun _ => by simp [WaitSt.goto]
  simp only [WaitSt.exit]
  split
  · exact hzomb.wakeup _
  · exact hzomb

theorem collect (h : SlotInv s) (p : Slot) : SlotInv (s.collect p) := by
  refine ⟨h.waiting, ?_, ?_, h.one⟩
  · intro q hq
    refine h.unused q ?_
    simp only [WaitSt.collect] at hq
    split at hq
    next hz => exact .inr hz.2
    next => exact hq
  · intro q np hq
    simpa [WaitSt.Fresh, WaitSt.collect, (h.fresh q np hq).1] using h.fresh q np hq

/-- **Every step** keeps the slots apart. -/
theorem next {act : WaitAct} (h : SlotInv s) (hstep : WaitSt.next p act s = some s') :
    SlotInv s' := by
  have hgoto : ∀ pc, s.pc p ≠ .gone → s.pc p ≠ .waiting →
      (pc.np = none ∨ pc.np = (s.pc p).np) → SlotInv (s.goto p pc) :=
    fun pc hg hw hnp => h.goto hg (fun hown => absurd (h.waiting p hown) hw) hnp
  have hself : ∀ pc, (s.goto p pc).pc p = pc := fun pc => Function.update_self ..
  cases WaitSt.next_cases hstep with
  | device n => exact h.wakeup _
  | call c hpc =>
      cases c with
      | fork => exact hgoto _ (by simp [hpc]) (by simp [hpc]) (.inl rfl)
      | exit => exact h.exit hpc
      | wait => exact hgoto _ (by simp [hpc]) (by simp [hpc]) (.inl rfl)
      | sleep n =>
          have hnap := hgoto .nap (by simp [hpc]) (by simp [hpc]) (.inl rfl)
          exact hnap.sleep (w := .other n) (by simp [hself]) (by simp)
      | wake n => exact h.wakeup _
  | nap ok hpc => exact hgoto _ (by simp [hpc]) (by simp [hpc]) (.inl rfl)
  | full ok hpc => exact hgoto _ (by simp [hpc]) (by simp [hpc]) (.inl rfl)
  | palloc np hpc hnp => exact h.palloc hpc hnp
  | stack np hpc => exact (hgoto .user (by simp [hpc]) (by simp [hpc]) (.inl rfl)).memset np
  | copyuvm np hpc =>
      exact hgoto (.pproc np) (by simp [hpc]) (by simp [hpc]) (.inr (by rw [hpc]; rfl))
  | undo np hpc =>
      have hgone : s.pc np = .gone := (h.fresh p np (by rw [hpc]; rfl)).2.2
      have hne : np ≠ p := by
        rintro rfl
        rw [hpc] at hgone
        cases hgone
      apply (hgoto .user (by simp [hpc]) (by simp [hpc]) (.inl rfl)).setStat
      · intro q hq
        by_cases hqp : q = p
        · subst hqp; simp [hself, WaitPc.np] at hq
        · exact hqp (h.one q p np (by simpa [WaitSt.goto, hqp] using hq) (by rw [hpc]; rfl))
      · exact fun _ => by simp [WaitSt.goto, hne, hgone]
  | pproc ok np hpc =>
      exact (hgoto (.run np) (by simp [hpc]) (by simp [hpc]) (.inr (by rw [hpc]; rfl))).setPproc _
  | run ok np hpc => exact h.run hpc
  | wait ok hpc =>
      have hwaiting := hgoto .waiting (by simp [hpc]) (by simp [hpc]) (.inl rfl)
      exact hwaiting.sleep (w := .proc p) (by simp [hself]) (fun _ => hself _)
  | waiting ok hpc hw => exact h.goto (by simp [hpc]) (fun hown => by simp [hw] at hown) (.inl rfl)
  | collect ok hpc => exact (hgoto .user (by simp [hpc]) (by simp [hpc]) (.inl rfl)).collect p

end SlotInv

/-! ## Exits that are not missed -/

namespace NoMissedExit
variable {s s' : WaitSt} {p : Slot}

/-- Nobody new sleeps in `sys_wait`, nobody new is a zombie, and nobody gets a new
parent who sleeps. -/
theorem mono (h : NoMissedExit s)
    (hw : ∀ p, s'.tab.wchan p = some (.proc p) → s.tab.wchan p = some (.proc p))
    (hz : ∀ c, s'.tab.stat c = .ZOMB → s.tab.stat c = .ZOMB)
    (hp : ∀ p c, s'.tab.wchan p = some (.proc p) → s'.pproc c = some p → s.pproc c = some p) :
    NoMissedExit s' :=
  fun p c hwp hc hzc => h p c (hw p hwp) (hp p c hwp hc) (hz c hzc)

theorem wakeup (h : NoMissedExit s) (w : Chan) :
    NoMissedExit { s with tab := s.tab.wakeup (some w) } :=
  h.mono (fun _ => ProcTab.wchan_of_wakeup) (fun _ => ProcTab.stat_of_wakeup (by decide))
    (fun _ _ _ hc => hc)

/-- A process goes to sleep; if it is in `sys_wait`, none of its children is a zombie. -/
theorem sleep (h : NoMissedExit s) {w : Chan}
    (hw : w = .proc p → ∀ c, s.pproc c = some p → s.tab.stat c ≠ .ZOMB) :
    NoMissedExit { s with tab := s.tab.sleep p w } := by
  intro q c hq hc hz
  have hzc : s.tab.stat c = .ZOMB := by
    by_cases hcp : c = p
    · subst hcp; simp [ProcTab.sleep] at hz
    · simpa [ProcTab.sleep, hcp] using hz
  simp only [ProcTab.wchan_sleep] at hq
  split at hq
  next hqp => subst hqp; exact hw (Option.some.inj hq) c hc hzc
  next => exact h q c hq hc hzc

/-- A state other than ZOMB is stored. -/
theorem setStat (h : NoMissedExit s) {stat : ProcStat} (hne : stat ≠ .ZOMB) :
    NoMissedExit (s.setStat p stat) := by
  refine h.mono (fun _ hw => hw) (fun c hz => ?_) (fun _ _ _ hc => hc)
  by_cases hcp : c = p
  · subst hcp; exact absurd (by simpa [WaitSt.setStat] using hz) hne
  · simpa [WaitSt.setStat, hcp] using hz

theorem memset (h : NoMissedExit s) (np : Slot) : NoMissedExit (s.memset np) := by
  refine h.mono (fun q hq => ?_) (fun _ hz => hz) (fun q c _ hc => ?_)
  · by_cases hqn : q = np
    · subst hqn; simp [WaitSt.memset] at hq
    · simpa [WaitSt.memset, hqn] using hq
  · by_cases hcn : c = np
    · subst hcn; simp [WaitSt.memset] at hc
    · simpa [WaitSt.memset, hcn] using hc

/-- An exit wakes the parent in the same `cli` section. -/
theorem exit (h : NoMissedExit s) : NoMissedExit (s.exit p) := by
  intro q c hq hc hz
  simp only [WaitSt.exit] at hq hc hz
  have hold : ∀ c, c ≠ p → ((s.goto p .gone).setStat p .ZOMB).tab.stat c = s.tab.stat c :=
    fun c hcp => Function.update_of_ne hcp ..
  rcases hpar : ((s.goto p .gone).setStat p .ZOMB).pproc p with _ | par
  · simp only [hpar] at hq hc hz
    refine h q c hq hc ?_
    rw [← hold c (by rintro rfl; rw [hpar] at hc; cases hc)]
    exact hz
  · simp only [hpar] at hq hc hz
    refine h q c (ProcTab.wchan_of_wakeup hq) hc ?_
    rw [← hold c ?_]
    · exact ProcTab.stat_of_wakeup (by decide) hz
    · -- The parent of `p` does not sleep any more.
      rintro rfl
      obtain rfl : par = q := Option.some.inj (hpar.symm.trans hc)
      exact ProcTab.wchan_wakeup_ne hq

theorem collect (h : NoMissedExit s) (p : Slot) : NoMissedExit (s.collect p) := by
  refine h.mono (fun _ hw => hw) (fun c hz => ?_) (fun _ _ _ hc => hc)
  simp only [WaitSt.collect] at hz
  split at hz
  · cases hz
  · exact hz

/-- **Every safe step** misses no exit. -/
theorem next {act : WaitAct} (h : NoMissedExit s) (hinv : SlotInv s)
    (hsafe : SafeWait ⟨p, s⟩ (.exec act)) (hstep : WaitSt.next p act s = some s') :
    NoMissedExit s' := by
  have hgoto : ∀ q pc, NoMissedExit (s.goto q pc) := fun _ _ => h
  cases WaitSt.next_cases hstep with
  | device n => exact h.wakeup _
  | call c hpc =>
      cases c with
      | fork => exact hgoto p _
      | exit => exact h.exit
      | wait => exact hgoto p _
      | sleep n => exact (hgoto p .nap).sleep (by simp)
      | wake n => exact h.wakeup _
  | nap ok hpc => exact hgoto p _
  | full ok hpc => exact hgoto p _
  | palloc np hpc hnp =>
      have hset : NoMissedExit ((s.memset np).setStat np .SET) := (h.memset np).setStat (by decide)
      exact hset
  | stack np hpc => exact h.memset np
  | copyuvm np hpc => exact hgoto p _
  | undo np hpc =>
      have hfree : NoMissedExit (s.setStat np .UNUSED) := h.setStat (by decide)
      exact hfree
  | pproc ok np hpc =>
      refine h.mono (fun _ hw => hw) (fun _ hz => hz) (fun q c hq hc => ?_)
      -- The new parent is running, so it does not sleep in `sys_wait`.
      have hqp : q ≠ p := by
        rintro rfl
        rw [hinv.waiting q hq] at hpc
        cases hpc
      by_cases hcn : c = np
      · subst hcn
        exact absurd (by simpa [WaitSt.goto] using hc) hqp.symm
      · simpa [WaitSt.goto, hcn] using hc
  | run ok np hpc =>
      have hrun : NoMissedExit ((s.goto np .user).setStat np .RUN) :=
        (hgoto np .user).setStat (by decide)
      exact hrun
  | wait ok hpc => exact (hgoto p .waiting).sleep fun _ => hsafe hpc
  | waiting ok hpc hw => exact hgoto p _
  | collect ok hpc => exact h.collect p

end NoMissedExit

/-- The slots are kept apart in every run. -/
theorem slotInv_of_reaches {s : Cpu Slot WaitSt} (h : waitUni.machine.Reaches ⟨1, .init⟩ s) :
    SlotInv s.st :=
  Uni.invariant (I := SlotInv) h SlotInv.init (fun _ _ _ _ hI _ hnext => hI.next hnext)
    (fun _ _ _ _ _ hintr => nomatch hintr)

/-- **Exits and waits.**  In every run in which `sys_wait` puts a process to sleep only
while none of its children is a zombie, nobody is ever asleep in `sys_wait` with a child
that has exited. -/
theorem no_missed_exit {s : Cpu Slot WaitSt} (h : waitUni.machine.Path SafeWait ⟨1, .init⟩ s) :
    NoMissedExit s.st := by
  have hinv := Uni.invariant (I := fun st => SlotInv st ∧ NoMissedExit st) h
    ⟨SlotInv.init, fun p c hp _ => by simp [WaitSt.init] at hp⟩
    (fun _ _ _ _ hI hok hnext => ⟨hI.1.next hnext, hI.2.next hI.1 hok hnext⟩)
    (fun _ _ _ _ _ hintr => nomatch hintr)
  exact hinv.2

/-- `collect_zombies` leaves its caller without a zombie child. -/
theorem collect_collects (s : WaitSt) (p c : Slot) (hc : (s.collect p).pproc c = some p) :
    (s.collect p).tab.stat c ≠ .ZOMB := by
  have hc : s.pproc c = some p := hc
  by_cases hz : s.tab.stat c = .ZOMB <;> simp [WaitSt.collect, hc, hz]

/-! ### Process 1 and its child in slot 2 -/

/-- Process 1 forks. -/
def forkOnce : List (CpuEvent Slot WaitAct) :=
  [.exec (.call .fork), .exec (.go true), .exec (.go true), .exec (.go true), .exec (.go true)]

/-- The parent sleeps first, then the child exits. -/
def waitThenExit : List (CpuEvent Slot WaitAct) :=
  forkOnce ++ [.exec (.call .wait), .exec (.go true), .switch 2, .exec (.call .exit)]

theorem no_missed_exit_waitThenExit :
    ∃ s, waitUni.machine.Path SafeWait ⟨1, .init⟩ s ∧
      (s.st.tab.stat 1 = .RUN ∧ s.st.tab.stat 2 = .ZOMB) ∧ NoMissedExit s.st := by
  obtain ⟨s, h, htest⟩ := waitUni.machine.exists_path_of_run SafeWait ⟨1, .init⟩ waitThenExit
    (fun s => s.st.tab.stat 1 = .RUN ∧ s.st.tab.stat 2 = .ZOMB) (by decide +kernel)
  exact ⟨s, h, htest, no_missed_exit h⟩

/-- The child exits before the parent, which has just entered `sys_wait`, sleeps. -/
def exitThenWait : List (CpuEvent Slot WaitAct) :=
  forkOnce ++ [.exec (.call .wait), .switch 2, .exec (.call .exit), .switch 1, .exec (.go true)]

/-- The parent sleeps on its own slot with a zombie child. -/
theorem not_no_missed_exit :
    ∃ s, waitUni.machine.Reaches ⟨1, .init⟩ s ∧ s.st.pc 1 = .waiting ∧ ¬ NoMissedExit s.st := by
  obtain ⟨s, h, hpc, hw, hpar, hz⟩ := waitUni.machine.exists_path_of_run (fun _ _ => True)
    ⟨1, .init⟩ exitThenWait
    (fun s => s.st.pc 1 = .waiting ∧ s.st.tab.wchan 1 = some (.proc 1) ∧
      s.st.pproc 2 = some 1 ∧ s.st.tab.stat 2 = .ZOMB) (by decide +kernel)
  exact ⟨s, h, hpc, fun hok => hok 1 2 hw hpar hz⟩

end Mixv6.Kernel
