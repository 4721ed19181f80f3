import Mixv6.Kernel.Wait

/-!
# The life of a process

The process table under everything that writes `stat` and `wchan`: `palloc` and `pfree`,
the stores of `sys_fork`, `sleep`, `wakeup`, `sys_exit` and `collect_zombies`, with the
selection loop of `sched` as the source has it.  Each `cli` section and each call of
`sched` is one step.  A timer interrupt may call `sched` between any two steps.

`wakeup` makes every slot runnable whose channel it finds, whatever the state of the
slot.  It is safe because a channel is stored in sleeping slots only.

## Main definitions

* `LifeSt`, `lifeMachine` — the table and the processor.
* `Moves` — how the state of a slot may change.
* `Slots` — what the state of each slot says about its channel and its process.
* `life_cycle` — every slot of every run follows `Moves`, and `sched` resumes only
  processes that can run.
-/

namespace Mixv6.Kernel

open Mixv6.Lib

/-- Where the process of a slot stands. -/
inductive LifePc
  /-- `uinit` after its `swtch`, in slot 0. -/
  | boot
  /-- In user mode, or in a system call that has nothing to do with the others. -/
  | user
  /-- `sys_fork` before its call of `copyuvm` for the new slot. -/
  | copyuvm (np : Slot)
  /-- `sys_fork` before the store `np->pproc = curproc`. -/
  | pproc (np : Slot)
  /-- `sys_fork` before the store `np->stat = RUN`. -/
  | run (np : Slot)
  /-- `sys_fork` before `pfree(np)`. -/
  | bad (np : Slot)
  /-- The loop of `sleep`; `wait` if `sys_wait` has called it. -/
  | sleep (wait : Bool)
  /-- `sys_wait` before its call of `collect_zombies`. -/
  | collect
  /-- `sys_exit` before its call of `sched`. -/
  | exiting
  /-- `sys_exit` at `panic("zombie exit")`. -/
  | zombieExit
  deriving DecidableEq, Repr

/-- The slot that `sys_fork` is filling in. -/
def LifePc.np : LifePc → Option Slot
  | .copyuvm np | .pproc np | .run np | .bad np => some np
  | _ => none

/-- The process table, `user.procp` and `user.sched`. -/
structure LifeSt where
  tab : ProcTab Slot Chan
  pproc : Slot → Option Slot
  pc : Slot → LifePc
  procp : Slot
  sched : ℕ

/-- What a process in user mode does next. -/
inductive LifeCall
  /-- `ok` says whether `palloc` finds memory. -/
  | fork (ok : Bool)
  | exit
  | wait
  | sleep (c : Chan)
  | wakeup (c : Chan)

/-- What can happen next. -/
inductive LifeEvent
  | call (c : LifeCall)
  /-- The process in the kernel goes on; `ok` says whether `copyuvm` finds memory. -/
  | go (ok : Bool)
  /-- A device interrupt wakes a channel. -/
  | device (c : Chan)
  /-- A timer interrupt that calls `sched`. -/
  | tick

namespace LifeSt

/-- After `uinit`. -/
def init : LifeSt where
  tab :=
    { stat := fun p => if p = 0 then .ZOMB else if p = 1 then .RUN else .UNUSED
      wchan := fun _ => none }
  pproc _ := none
  pc p := if p = 0 then .boot else .user
  procp := 1
  sched := 0

def goto (s : LifeSt) (p : Slot) (pc : LifePc) : LifeSt :=
  { s with pc := Function.update s.pc p pc }

def setStat (s : LifeSt) (p : Slot) (stat : ProcStat) : LifeSt :=
  { s with tab.stat := Function.update s.tab.stat p stat }

def wakeup (s : LifeSt) (c : Chan) : LifeSt := { s with tab := s.tab.wakeup (some c) }

/-- The slot that the loop of `palloc` stops at. -/
def unused (s : LifeSt) : Option Slot :=
  (List.finRange NPROC).find? fun i => s.tab.stat i = .UNUSED

/-- `memset(p, 0, sizeof(struct proc))` on an unused slot. -/
def memset (s : LifeSt) (np : Slot) : LifeSt :=
  { s with
    tab.wchan := Function.update s.tab.wchan np none
    pproc := Function.update s.pproc np none }

/-- `palloc`, called by `sys_fork`.  The new process will start at `trapret`. -/
def palloc (s : LifeSt) (ok : Bool) : LifeSt :=
  match s.unused with
  | none => s
  | some np =>
      if ok then (((s.memset np).setStat np .SET).goto np .user).goto s.procp (.copyuvm np)
      else s.memset np

/-- The `cli` section of `sleep`. -/
def sleep (s : LifeSt) (c : Chan) (wait : Bool) : LifeSt :=
  { s.goto s.procp (.sleep wait) with tab := s.tab.sleep s.procp c }

/-- The `cli` section of `sys_exit`. -/
def exit (s : LifeSt) : LifeSt :=
  let t := (s.goto s.procp .exiting).setStat s.procp .ZOMB
  match s.pproc s.procp with
  | some pproc => t.wakeup (.proc pproc)
  | none => t

/-- `collect_zombies`; `pfree` returns the slot to the table. -/
def collectZombies (s : LifeSt) : LifeSt :=
  { s with tab.stat := fun i =>
      if s.pproc i = some s.procp ∧ s.tab.stat i = .ZOMB then .UNUSED else s.tab.stat i }

/-- `sched`; there is no state after its panic. -/
def callSched (s : LifeSt) : Option LifeSt :=
  match pick s.tab.stat s.procp s.sched with
  | (.stay, sched) => some { s with sched }
  | (.switch newproc, sched) => some { s with procp := newproc, sched }
  | (.panic, _) => none

/-- A process in user mode enters the kernel. -/
def call (s : LifeSt) : LifeCall → LifeSt
  | .fork ok => s.palloc ok
  | .exit => s.exit
  | .wait => s.sleep (.proc s.procp) true
  | .sleep c => s.sleep c false
  | .wakeup c => s.wakeup c

/-- The next step of the current process in the kernel. -/
def go (s : LifeSt) (ok : Bool) : Option LifeSt :=
  match s.pc s.procp with
  | .copyuvm np => some (s.goto s.procp (if ok then .pproc np else .bad np))
  | .pproc np =>
      some { s.goto s.procp (.run np) with pproc := Function.update s.pproc np (some s.procp) }
  | .run np => some ((s.setStat np .RUN).goto s.procp .user)
  | .bad np => some ((s.setStat np .UNUSED).goto s.procp .user)
  | .sleep wait =>
      if (s.tab.wchan s.procp).isSome then s.callSched
      else some (s.goto s.procp (if wait then .collect else .user))
  | .collect => some (s.collectZombies.goto s.procp .user)
  | .exiting => (s.goto s.procp .zombieExit).callSched
  | .user | .boot | .zombieExit => none

def step (s : LifeSt) : LifeEvent → Option LifeSt
  | .call c => if s.pc s.procp = .user then some (s.call c) else none
  | .go ok => s.go ok
  | .device c => some (s.wakeup c)
  | .tick => s.callSched

end LifeSt

/-- The processor and the process table as a machine. -/
def lifeMachine : Machine LifeSt LifeEvent := ⟨LifeSt.step⟩

/-- How the state of a slot may change in one step. -/
inductive Moves : ProcStat → ProcStat → Prop
  | same (a : ProcStat) : Moves a a
  | palloc : Moves .UNUSED .SET
  | run : Moves .SET .RUN
  | sleep : Moves .RUN .SLEEP
  | wakeup : Moves .SLEEP .RUN
  | exit : Moves .RUN .ZOMB
  | collect : Moves .ZOMB .UNUSED
  | pfree : Moves .SET .UNUSED

/-- **One step of a life cycle.**  Every slot makes an allowed move, and if the processor
is given to another slot, that slot is runnable, or it sleeps, the caller of `sched` is a
zombie and nobody is runnable. -/
structure LifeStep (s t : LifeSt) : Prop where
  moves : ∀ p, Moves (s.tab.stat p) (t.tab.stat p)
  switches : t.procp ≠ s.procp → s.tab.stat t.procp = .RUN ∨
    (s.tab.stat t.procp = .SLEEP ∧ s.tab.stat s.procp = .ZOMB ∧ ∀ q, s.tab.stat q ≠ .RUN)

/-- **The state of the table.**  The sleeping slots are those with a channel, the current
process is not at `panic("zombie exit")`, and slot 0 is a zombie that has no parent. -/
structure LifeOk (s : LifeSt) : Prop where
  sleep_iff : ∀ p, s.tab.stat p = .SLEEP ↔ s.tab.wchan p ≠ none
  no_panic : s.pc s.procp ≠ .zombieExit
  dummy : s.tab.stat 0 = .ZOMB ∧ s.pproc 0 = none

/-! ## The invariant -/

/-- What the state of a slot says about its channel and its process. -/
def SlotOk (stat : ProcStat) (wchan : Option Chan) (pc : LifePc) : Prop :=
  match stat with
  | .UNUSED => wchan = none ∧ pc.np = none
  | .SET => wchan = none ∧ pc = .user
  | .RUN => wchan = none ∧ pc ≠ .exiting ∧ pc ≠ .zombieExit
  | .SLEEP => wchan ≠ none ∧ ∃ wait, pc = .sleep wait
  | .ZOMB => wchan = none ∧ (pc = .exiting ∨ pc = .zombieExit ∨ pc = .boot)
  | .STOP => False

/-- The invariant.  Each slot is as its state says, the current process is in use, and the
slots that are being filled in are kept apart. -/
structure Slots (s : LifeSt) : Prop where
  slot : ∀ p, SlotOk (s.tab.stat p) (s.tab.wchan p) (s.pc p)
  cur : s.tab.stat s.procp = .RUN ∨ s.tab.stat s.procp = .SLEEP ∨
    (s.tab.stat s.procp = .ZOMB ∧ s.pc s.procp = .exiting)
  fresh : ∀ p np, (s.pc p).np = some np → s.tab.stat np = .SET
  one : ∀ p q np, (s.pc p).np = some np → (s.pc q).np = some np → p = q
  dummy : s.tab.stat 0 = .ZOMB ∧ s.pc 0 = .boot ∧ s.pproc 0 = none

/-- One slot of the table is written. -/
def LifeSt.put (s : LifeSt) (p : Slot) (stat : ProcStat) (wchan : Option Chan) (pc : LifePc) :
    LifeSt :=
  { s with
    tab.stat := Function.update s.tab.stat p stat
    tab.wchan := Function.update s.tab.wchan p wchan
    pc := Function.update s.pc p pc }

namespace Slots
variable {s t : LifeSt} {p np : Slot}

theorem init : Slots .init where
  slot p := by
    by_cases h0 : p = 0
    · subst h0; exact ⟨rfl, .inr (.inr rfl)⟩
    by_cases h1 : p = 1
    · subst h1; exact ⟨rfl, by decide, by decide⟩
    simp [LifeSt.init, h0, h1, SlotOk, LifePc.np]
  cur := .inl rfl
  fresh p np h := by by_cases h0 : p = 0 <;> simp [LifeSt.init, h0, LifePc.np] at h
  one p q np h := by by_cases h0 : p = 0 <;> simp [LifeSt.init, h0, LifePc.np] at h
  dummy := ⟨rfl, rfl, rfl⟩

theorem procp_ne_zero (h : Slots s) : s.procp ≠ 0 := by
  intro h0
  obtain ⟨hz, hboot, -⟩ := h.dummy
  rcases h.cur with hr | hs | ⟨-, he⟩
  · rw [h0, hz] at hr; cases hr
  · rw [h0, hz] at hs; cases hs
  · rw [h0, hboot] at he; cases he

/-- Only a runnable process is at a statement other than these. -/
theorem run_of_pc (h : Slots s) (hs : ∀ wait, s.pc s.procp ≠ .sleep wait)
    (he : s.pc s.procp ≠ .exiting) : s.tab.stat s.procp = .RUN := by
  rcases h.cur with hr | hsl | ⟨-, hex⟩
  · exact hr
  · have hslot := h.slot s.procp
    rw [hsl] at hslot
    obtain ⟨-, wait, hw⟩ := hslot
    exact absurd hw (hs wait)
  · exact absurd hex he

/-- Nobody fills in a slot that is not `SET`. -/
theorem not_held (h : Slots s) (hp : s.tab.stat p ≠ .SET) (q : Slot) : (s.pc q).np ≠ some p :=
  fun hq => hp (h.fresh q p hq)

/-- **One slot is written.**  Its new contents must fit together, nobody else may be
filling it in if its state changes, and the slot in its hands must be its own. -/
theorem put (h : Slots s) {stat : ProcStat} {wchan : Option Chan} {pc : LifePc}
    (hok : SlotOk stat wchan pc) (h0 : p ≠ 0)
    (hheld : stat = s.tab.stat p ∨ ∀ q, (s.pc q).np ≠ some p)
    (hnp : ∀ np, pc.np = some np →
      s.tab.stat np = .SET ∧ np ≠ p ∧ ∀ q, (s.pc q).np = some np → q = p)
    (hcur : p = s.procp → stat = .RUN ∨ stat = .SLEEP ∨ (stat = .ZOMB ∧ pc = .exiting)) :
    Slots (s.put p stat wchan pc) where
  slot q := by
    by_cases hq : q = p
    · subst hq; simpa [LifeSt.put] using hok
    · simpa [LifeSt.put, hq] using h.slot q
  cur := by
    by_cases hq : s.procp = p
    · simpa [LifeSt.put, hq] using hcur hq.symm
    · simpa [LifeSt.put, hq] using h.cur
  fresh q np hq := by
    by_cases hqp : q = p
    · obtain ⟨hset, hne, -⟩ := hnp np (by simpa [LifeSt.put, hqp] using hq)
      simpa [LifeSt.put, hne] using hset
    · have hq' : (s.pc q).np = some np := by simpa [LifeSt.put, hqp] using hq
      have hset := h.fresh q np hq'
      by_cases hne : np = p
      · subst hne
        rcases hheld with hstat | hheld
        · simpa [LifeSt.put, hstat] using hset
        · exact absurd hq' (hheld q)
      · simpa [LifeSt.put, hne] using hset
  one q r np hq hr := by
    by_cases hqp : q = p <;> by_cases hrp : r = p
    · rw [hqp, hrp]
    · obtain ⟨-, -, hown⟩ := hnp np (by simpa [LifeSt.put, hqp] using hq)
      exact absurd (hown r (by simpa [LifeSt.put, hrp] using hr)) hrp
    · obtain ⟨-, -, hown⟩ := hnp np (by simpa [LifeSt.put, hrp] using hr)
      exact absurd (hown q (by simpa [LifeSt.put, hqp] using hq)) hqp
    · exact h.one q r np (by simpa [LifeSt.put, hqp] using hq) (by simpa [LifeSt.put, hrp] using hr)
  dummy := by simpa [LifeSt.put, Ne.symm h0] using h.dummy

/-- The parents of the processes do not matter for the slots. -/
theorem setPproc (h : Slots s) {pproc : Slot → Option Slot} (h0 : pproc 0 = none) :
    Slots { s with pproc } :=
  ⟨h.slot, h.cur, h.fresh, h.one, h.dummy.1, h.dummy.2.1, h0⟩

/-- A running process goes on. -/
theorem goto (h : Slots s) {pc : LifePc} (hrun : s.tab.stat s.procp = .RUN)
    (hpc : pc ≠ .exiting ∧ pc ≠ .zombieExit)
    (hnp : ∀ np, pc.np = some np →
      s.tab.stat np = .SET ∧ ∀ q, (s.pc q).np = some np → q = s.procp) :
    Slots (s.goto s.procp pc) := by
  have hput : s.goto s.procp pc = s.put s.procp .RUN (s.tab.wchan s.procp) pc := by
    simp [LifeSt.goto, LifeSt.put, ← hrun]
  have hslot := h.slot s.procp
  rw [hrun] at hslot
  have hok : SlotOk .RUN (s.tab.wchan s.procp) pc := ⟨hslot.1, hpc⟩
  rw [hput]
  apply h.put hok h.procp_ne_zero (.inl hrun.symm)
  · intro np hp
    obtain ⟨hset, hown⟩ := hnp np hp
    refine ⟨hset, ?_, hown⟩
    rintro rfl
    rw [hset] at hrun; cases hrun
  · exact fun _ => .inl rfl

/-- A running process goes on with no slot in its hands. -/
theorem goto_none (h : Slots s) {pc : LifePc} (hrun : s.tab.stat s.procp = .RUN)
    (hpc : pc ≠ .exiting ∧ pc ≠ .zombieExit) (hnp : pc.np = none) :
    Slots (s.goto s.procp pc) :=
  h.goto hrun hpc fun np hp => by rw [hnp] at hp; cases hp

/-- A `wakeup` makes runnable what sleeps. -/
theorem wakeup (h : Slots s) (c : Chan) : Slots (s.wakeup c) := by
  have key : ∀ q, s.tab.wchan q = some c → s.tab.stat q = .SLEEP := by
    intro q hq
    have hslot := h.slot q
    cases hstat : s.tab.stat q <;> simp [hstat, SlotOk, hq] at hslot ⊢
  have hne : ∀ {q stat}, s.tab.stat q = stat → stat ≠ .SLEEP → s.tab.wchan q ≠ some c :=
    fun hq hn hw => hn (hq.symm.trans (key _ hw))
  have hkeep : ∀ {q}, s.tab.wchan q ≠ some c →
      (s.wakeup c).tab.stat q = s.tab.stat q ∧ (s.wakeup c).tab.wchan q = s.tab.wchan q :=
    fun hq => ⟨if_neg hq, if_neg hq⟩
  refine ⟨?_, ?_, ?_, h.one, ?_⟩
  · intro q
    have hslot := h.slot q
    by_cases hq : s.tab.wchan q = some c
    · rw [key q hq] at hslot
      obtain ⟨-, wait, hpc⟩ := hslot
      simp [LifeSt.wakeup, ProcTab.wakeup, hq, SlotOk, hpc]
    · obtain ⟨hstat, hwchan⟩ := hkeep hq
      rw [hstat, hwchan]
      exact hslot
  · by_cases hq : s.tab.wchan s.procp = some c
    · exact .inl (if_pos hq)
    · have hp := (hkeep hq).1
      exact h.cur.imp hp.trans (Or.imp hp.trans (And.imp_left hp.trans))
  · intro q np hq
    have hset := h.fresh q np hq
    rw [(hkeep (hne hset (by decide))).1]
    exact hset
  · rw [(hkeep (hne h.dummy.1 (by decide))).1]
    exact h.dummy

/-- `collect_zombies` returns zombies to the table; slot 0 has no parent and stays. -/
theorem collectZombies (h : Slots s) (hrun : s.tab.stat s.procp = .RUN) :
    Slots s.collectZombies := by
  have hkeep : ∀ {q}, s.tab.stat q ≠ .ZOMB → s.collectZombies.tab.stat q = s.tab.stat q :=
    fun hq => if_neg fun hz => hq hz.2
  refine ⟨?_, ?_, ?_, h.one, ?_⟩
  · intro q
    have hslot := h.slot q
    by_cases hz : s.pproc q = some s.procp ∧ s.tab.stat q = .ZOMB
    · rw [hz.2] at hslot
      obtain ⟨hw, hpc⟩ := hslot
      simp only [LifeSt.collectZombies, hz, and_self, if_true, SlotOk]
      exact ⟨hw, by rcases hpc with hpc | hpc | hpc <;> rw [hpc] <;> rfl⟩
    · simp only [LifeSt.collectZombies, hz, if_false]
      exact hslot
  · have hne : s.tab.stat s.procp ≠ .ZOMB := by rw [hrun]; decide
    exact .inl ((hkeep hne).trans hrun)
  · intro q np hq
    have hset := h.fresh q np hq
    exact (hkeep (by rw [hset]; decide)).trans hset
  · refine ⟨(if_neg fun hz => ?_).trans h.dummy.1, h.dummy.2⟩
    rw [h.dummy.2.2] at hz
    cases hz.1

/-- `palloc` takes a slot that is not in use. -/
theorem palloc (h : Slots s) (hpc : s.pc s.procp = .user) (ok : Bool) : Slots (s.palloc ok) := by
  have hrun : s.tab.stat s.procp = .RUN := h.run_of_pc (by simp [hpc]) (by simp [hpc])
  unfold LifeSt.palloc
  split
  · exact h
  case h_2 np hnp =>
  have hunused : s.tab.stat np = .UNUSED := by simpa using List.find?_some hnp
  have h0 : np ≠ 0 := by
    rintro rfl
    rw [h.dummy.1] at hunused; cases hunused
  have hne : s.procp ≠ np := by
    rintro rfl
    rw [hunused] at hrun; cases hrun
  have hslot := h.slot np
  rw [hunused] at hslot
  have hclear : Function.update s.tab.wchan np none = s.tab.wchan := by
    rw [← hslot.1, Function.update_eq_self]
  have hfree : ∀ q, (s.pc q).np ≠ some np := h.not_held (by rw [hunused]; decide)
  have hmem : Slots (s.memset np) := by
    have : Slots { s with pproc := Function.update s.pproc np none } :=
      h.setPproc (by simpa [Ne.symm h0] using h.dummy.2.2)
    rwa [LifeSt.memset, hclear]
  have hset : Slots (((s.memset np).setStat np .SET).goto np .user) := by
    have hput : ((s.memset np).setStat np .SET).goto np .user =
        (s.memset np).put np .SET none .user := by
      simp [LifeSt.memset, LifeSt.setStat, LifeSt.goto, LifeSt.put]
    have hok : SlotOk .SET none .user := ⟨rfl, rfl⟩
    rw [hput]
    apply hmem.put hok h0 (.inr hfree)
    · intro i hi; cases hi
    · exact fun heq => absurd heq.symm hne
  cases ok with
  | false => exact hmem
  | true =>
      have hrun' : (((s.memset np).setStat np .SET).goto np .user).tab.stat s.procp = .RUN := by
        simpa [LifeSt.memset, LifeSt.setStat, LifeSt.goto, hne] using hrun
      apply hset.goto hrun' ⟨by simp, by simp⟩
      intro i hi
      obtain rfl : np = i := by simpa [LifePc.np] using hi
      constructor
      · simp [LifeSt.setStat, LifeSt.goto]
      · intro q hq
        by_cases hqn : q = np
        · subst hqn; simp [LifeSt.goto, LifePc.np] at hq
        · exact absurd (by simpa [LifeSt.memset, LifeSt.setStat, LifeSt.goto, hqn] using hq)
            (hfree q)

/-- `sys_fork` lets go of the new slot, which becomes runnable or free. -/
theorem letGo (h : Slots s) {stat : ProcStat} (hnp : (s.pc s.procp).np = some np)
    (hstat : stat = .RUN ∨ stat = .UNUSED) : Slots ((s.setStat np stat).goto s.procp .user) := by
  have hrun : s.tab.stat s.procp = .RUN :=
    h.run_of_pc (fun wait hpc => by simp [hpc, LifePc.np] at hnp)
      (fun hpc => by simp [hpc, LifePc.np] at hnp)
  have hset := h.fresh s.procp np hnp
  have hne : np ≠ s.procp := by rintro rfl; rw [hset] at hrun; cases hrun
  have h0 : np ≠ 0 := by
    rintro rfl
    rw [h.dummy.1] at hset; cases hset
  have huser : Slots (s.goto s.procp .user) := h.goto_none hrun ⟨by simp, by simp⟩ rfl
  have hslot := huser.slot np
  rw [show (s.goto s.procp .user).tab.stat np = .SET from hset] at hslot
  have hput : (s.setStat np stat).goto s.procp .user =
      (s.goto s.procp .user).put np stat none .user := by
    obtain ⟨hw, hp⟩ := hslot
    have hwchan : Function.update (s.goto s.procp .user).tab.wchan np none = s.tab.wchan :=
      Function.update_eq_iff.mpr ⟨hw.symm, fun _ _ => rfl⟩
    have hpc : Function.update (s.goto s.procp .user).pc np .user = (s.goto s.procp .user).pc :=
      Function.update_eq_iff.mpr ⟨hp.symm, fun _ _ => rfl⟩
    rw [LifeSt.put, hwchan, hpc]
    rfl
  have hok : SlotOk stat none .user := by
    rcases hstat with rfl | rfl
    · exact ⟨rfl, by simp, by simp⟩
    · exact ⟨rfl, rfl⟩
  rw [hput]
  apply huser.put hok h0
  · right
    intro q hq
    by_cases hqp : q = s.procp
    · subst hqp; simp [LifeSt.goto, LifePc.np] at hq
    · exact hqp (h.one q s.procp np (by simpa [LifeSt.goto, hqp] using hq) hnp)
  · intro i hi; cases hi
  · exact fun heq => absurd heq hne

/-- A running process goes to sleep. -/
theorem sleep (h : Slots s) (hpc : s.pc s.procp = .user) (c : Chan) (wait : Bool) :
    Slots (s.sleep c wait) := by
  have hrun : s.tab.stat s.procp = .RUN := h.run_of_pc (by simp [hpc]) (by simp [hpc])
  have hok : SlotOk .SLEEP (some c) (.sleep wait) := ⟨by simp, wait, rfl⟩
  exact h.put hok h.procp_ne_zero (.inr (h.not_held (by rw [hrun]; decide)))
    (fun np hnp => by cases hnp) fun _ => .inr (.inl rfl)

/-- A running process exits. -/
theorem exit (h : Slots s) (hpc : s.pc s.procp = .user) : Slots s.exit := by
  have hrun : s.tab.stat s.procp = .RUN := h.run_of_pc (by simp [hpc]) (by simp [hpc])
  have hslot := h.slot s.procp
  rw [hrun] at hslot
  have hput : (s.goto s.procp .exiting).setStat s.procp .ZOMB =
      s.put s.procp .ZOMB none .exiting := by
    rw [LifeSt.put, ← hslot.1, Function.update_eq_self]
    rfl
  have hok : SlotOk .ZOMB none .exiting := ⟨rfl, .inl rfl⟩
  have hzomb : Slots ((s.goto s.procp .exiting).setStat s.procp .ZOMB) := by
    rw [hput]
    exact h.put hok h.procp_ne_zero (.inr (h.not_held (by rw [hrun]; decide)))
      (fun np hnp => by cases hnp) fun _ => .inr (.inr ⟨rfl, rfl⟩)
  unfold LifeSt.exit
  split
  · exact hzomb.wakeup _
  · exact hzomb

/-- What `sched` does: nothing, unless the caller is a zombie, or a switch to a process
that can run. -/
theorem callSched_cases {s t : LifeSt} (h : s.callSched = some t) :
    t.tab = s.tab ∧ t.pc = s.pc ∧ t.pproc = s.pproc ∧
      ((t.procp = s.procp ∧ s.tab.stat s.procp ≠ .ZOMB) ∨
        s.tab.stat t.procp = .RUN ∨ (s.tab.stat t.procp = .SLEEP ∧ s.tab.stat s.procp = .ZOMB ∧
          ∀ q, s.tab.stat q ≠ .RUN)) := by
  have hcases := @pick_cases s.tab.stat s.procp s.sched
  unfold LifeSt.callSched at h
  rcases hpick : pick s.tab.stat s.procp s.sched with ⟨_ | q | _, sched⟩ <;>
    rw [hpick] at h hcases
  · obtain rfl := Option.some.inj h
    exact ⟨rfl, rfl, rfl, .inl ⟨rfl, by simpa using hcases⟩⟩
  · obtain rfl := Option.some.inj h
    exact ⟨rfl, rfl, rfl, .inr (by simpa using hcases)⟩
  · cases h

/-- `sched` leaves the table alone; the process it gives the processor to can run. -/
theorem callSched (hslot : ∀ p, SlotOk (s.tab.stat p) (s.tab.wchan p) (s.pc p))
    (hcur : s.tab.stat s.procp ≠ .ZOMB → s.tab.stat s.procp = .RUN ∨ s.tab.stat s.procp = .SLEEP)
    (hfresh : ∀ p np, (s.pc p).np = some np → s.tab.stat np = .SET)
    (hone : ∀ p q np, (s.pc p).np = some np → (s.pc q).np = some np → p = q)
    (hdummy : s.tab.stat 0 = .ZOMB ∧ s.pc 0 = .boot ∧ s.pproc 0 = none)
    (h : s.callSched = some t) : Slots t := by
  obtain ⟨htab, hpc, hpproc, hprocp⟩ := callSched_cases h
  refine ⟨?_, ?_, ?_, ?_, ?_⟩ <;> simp only [htab, hpc, hpproc]
  · exact hslot
  · rcases hprocp with ⟨hsame, hz⟩ | hrun | ⟨hsleep, -, -⟩
    · rw [hsame]
      exact (hcur hz).imp id .inl
    · exact .inl hrun
    · exact .inr (.inl hsleep)
  · exact hfresh
  · exact hone
  · exact hdummy

/-- The processor is given to a process that can run. -/
theorem tick (h : Slots s) (hstep : s.callSched = some t) : Slots t :=
  callSched h.slot (fun hz => h.cur.imp id (Or.resolve_right · fun hn => hz hn.1))
    h.fresh h.one h.dummy hstep

/-- A process that has exited gives up the processor for good. -/
theorem leave (h : Slots s) (hpc : s.pc s.procp = .exiting)
    (hstep : (s.goto s.procp .zombieExit).callSched = some t) : Slots t := by
  have hother : ∀ {q}, q ≠ s.procp → (s.goto s.procp .zombieExit).pc q = s.pc q :=
    fun hq => Function.update_of_ne hq ..
  have hself : (s.goto s.procp .zombieExit).pc s.procp = .zombieExit := Function.update_self ..
  have hzomb : s.tab.stat s.procp = .ZOMB := by
    have hslot := h.slot s.procp
    rcases h.cur with hr | hs | ⟨hz, -⟩
    · rw [hr] at hslot; exact absurd hpc hslot.2.1
    · rw [hs] at hslot
      obtain ⟨-, wait, hw⟩ := hslot
      rw [hpc] at hw; cases hw
    · exact hz
  have hnp : ∀ {q np}, ((s.goto s.procp .zombieExit).pc q).np = some np → (s.pc q).np = some np := by
    intro q np hq
    by_cases hqp : q = s.procp
    · subst hqp; rw [hself] at hq; cases hq
    · rwa [hother hqp] at hq
  refine callSched (s := s.goto s.procp .zombieExit) ?_ (absurd hzomb) (fun q np hq => h.fresh q np (hnp hq))
    (fun q r np hq hr => h.one q r np (hnp hq) (hnp hr)) ?_ hstep
  · intro q
    by_cases hqp : q = s.procp
    · subst hqp
      have hslot := h.slot s.procp
      rw [hzomb] at hslot
      rw [hself, show (s.goto s.procp .zombieExit).tab.stat s.procp = .ZOMB from hzomb]
      exact ⟨hslot.1, .inr (.inl rfl)⟩
    · rw [hother hqp]; exact h.slot q
  · rw [hother h.procp_ne_zero.symm]; exact h.dummy

/-- **Every step** keeps the invariant. -/
theorem step (h : Slots s) {e : LifeEvent} (hstep : s.step e = some t) : Slots t := by
  cases e with
  | call c =>
      simp only [LifeSt.step, Option.ite_none_right_eq_some, Option.some.injEq] at hstep
      obtain ⟨hpc, rfl⟩ := hstep
      cases c with
      | fork ok => exact h.palloc hpc ok
      | exit => exact h.exit hpc
      | wait => exact h.sleep hpc _ _
      | sleep c => exact h.sleep hpc c false
      | wakeup c => exact h.wakeup c
  | go ok =>
      have hrun := h.run_of_pc
      simp only [LifeSt.step, LifeSt.go] at hstep
      cases hpc : s.pc s.procp with
      | user | boot | zombieExit => simp [hpc] at hstep
      | copyuvm np =>
          simp only [hpc, Option.some.injEq] at hstep
          have hnp : (s.pc s.procp).np = some np := by rw [hpc]; rfl
          rw [← hstep]
          apply h.goto (hrun (by simp [hpc]) (by simp [hpc])) (by cases ok <;> simp)
          intro i hi
          obtain rfl : np = i := by cases ok <;> simpa [LifePc.np] using hi
          exact ⟨h.fresh s.procp np hnp, fun q hq => h.one q s.procp np hq hnp⟩
      | pproc np =>
          simp only [hpc, Option.some.injEq] at hstep
          have hnp : (s.pc s.procp).np = some np := by rw [hpc]; rfl
          have hset := h.fresh s.procp np hnp
          have h0 : (0 : Slot) ≠ np := by
            rintro rfl
            rw [h.dummy.1] at hset; cases hset
          rw [← hstep]
          refine Slots.setPproc (s := s.goto s.procp (.run np))
            (h.goto (hrun (by simp [hpc]) (by simp [hpc])) ⟨by simp, by simp⟩ ?_) ?_
          · intro i hi
            obtain rfl : np = i := by simpa [LifePc.np] using hi
            exact ⟨hset, fun q hq => h.one q s.procp np hq hnp⟩
          · simpa [LifeSt.goto, h0] using h.dummy.2.2
      | run np =>
          simp only [hpc, Option.some.injEq] at hstep
          exact hstep ▸ h.letGo (by rw [hpc]; rfl) (.inl rfl)
      | bad np =>
          simp only [hpc, Option.some.injEq] at hstep
          exact hstep ▸ h.letGo (by rw [hpc]; rfl) (.inr rfl)
      | sleep wait =>
          simp only [hpc] at hstep
          split at hstep
          · exact h.tick hstep
          case isFalse hwchan =>
            have hslot := h.slot s.procp
            have hr : s.tab.stat s.procp = .RUN := by
              rcases h.cur with hr | hs | ⟨-, he⟩
              · exact hr
              · rw [hs] at hslot
                exact absurd (Option.isSome_iff_ne_none.mpr hslot.1) hwchan
              · rw [hpc] at he; cases he
            rw [← Option.some.inj hstep]
            exact h.goto_none hr (by cases wait <;> simp) (by cases wait <;> rfl)
      | collect =>
          simp only [hpc, Option.some.injEq] at hstep
          have hr := hrun (by simp [hpc]) (by simp [hpc])
          have hcol := h.collectZombies hr
          have hr' : s.collectZombies.tab.stat s.procp = .RUN := by
            simp [LifeSt.collectZombies, hr]
          exact hstep ▸ hcol.goto_none hr' ⟨by simp, by simp⟩ rfl
      | exiting =>
          simp only [hpc] at hstep
          exact h.leave hpc hstep
  | device c => exact Option.some.inj hstep ▸ h.wakeup c
  | tick => exact h.tick hstep

/-- The invariant gives the table its shape. -/
theorem lifeOk (h : Slots s) : LifeOk s where
  sleep_iff p := by
    have hslot := h.slot p
    cases hstat : s.tab.stat p <;> simp [hstat, SlotOk] at hslot <;> simp [hslot]
  no_panic hpc := by
    have hslot := h.slot s.procp
    rcases h.cur with hr | hs | ⟨-, he⟩
    · rw [hr] at hslot; exact hslot.2.2 hpc
    · rw [hs] at hslot
      obtain ⟨-, wait, hw⟩ := hslot
      rw [hpc] at hw; cases hw
    · rw [hpc] at he; cases he
  dummy := ⟨h.dummy.1, h.dummy.2.2⟩

/-! ## How the states change -/

theorem moves_update {stat : Slot → ProcStat} {a : ProcStat} (h : Moves (stat p) a) (q : Slot) :
    Moves (stat q) (Function.update stat p a q) := by
  by_cases hq : q = p
  · subst hq; simpa using h
  · rw [Function.update_of_ne hq]; exact .same _

theorem moves_wakeup (h : Slots s) (c : Chan) (q : Slot) :
    Moves (s.tab.stat q) ((s.wakeup c).tab.stat q) := by
  by_cases hq : s.tab.wchan q = some c
  · have hsleep : s.tab.stat q = .SLEEP := by
      rw [h.lifeOk.sleep_iff, hq]
      exact Option.some_ne_none c
    rw [hsleep, show (s.wakeup c).tab.stat q = .RUN from if_pos hq]
    exact .wakeup
  · rw [show (s.wakeup c).tab.stat q = s.tab.stat q from if_neg hq]
    exact .same _

/-- A process in user mode enters the kernel. -/
theorem moves_call (h : Slots s) (hpc : s.pc s.procp = .user) (c : LifeCall) (q : Slot) :
    Moves (s.tab.stat q) ((s.call c).tab.stat q) := by
  have hrun : s.tab.stat s.procp = .RUN := h.run_of_pc (by simp [hpc]) (by simp [hpc])
  have hsleep : Moves (s.tab.stat s.procp) .SLEEP := by rw [hrun]; exact .sleep
  cases c with
  | fork ok =>
      simp only [LifeSt.call, LifeSt.palloc]
      split
      · exact .same _
      case h_2 np hnp =>
        have hunused : s.tab.stat np = .UNUSED := by simpa using List.find?_some hnp
        cases ok with
        | false => exact .same _
        | true => exact moves_update (by rw [hunused]; exact .palloc) q
  | exit =>
      have hne : ∀ c, s.tab.wchan q ≠ some c ∨ q ≠ s.procp := by
        intro c
        by_cases hq : q = s.procp
        · left
          have hslot := h.slot s.procp
          rw [hrun] at hslot
          rw [hq, hslot.1]
          exact (Option.some_ne_none c).symm
        · exact .inr hq
      have hexit : Moves (s.tab.stat q) (Function.update s.tab.stat s.procp .ZOMB q) :=
        moves_update (by rw [hrun]; exact .exit) q
      simp only [LifeSt.call, LifeSt.exit]
      split
      case h_1 pproc _ =>
        by_cases hq : s.tab.wchan q = some (.proc pproc)
        · have hother : q ≠ s.procp := (hne _).resolve_left (not_not_intro hq)
          have hmove := h.moves_wakeup (.proc pproc) q
          rw [show (s.wakeup (.proc pproc)).tab.stat q = .RUN from if_pos hq] at hmove
          simpa [LifeSt.wakeup, ProcTab.wakeup, LifeSt.goto, LifeSt.setStat, hq] using hmove
        · simpa [LifeSt.wakeup, ProcTab.wakeup, LifeSt.goto, LifeSt.setStat, hq] using hexit
      case h_2 => exact hexit
  | wait => exact moves_update hsleep q
  | sleep c => exact moves_update hsleep q
  | wakeup c => exact h.moves_wakeup c q

/-- The process in the kernel goes on. -/
theorem moves_go (h : Slots s) {ok : Bool} (hstep : s.go ok = some t) (q : Slot) :
    Moves (s.tab.stat q) (t.tab.stat q) := by
  unfold LifeSt.go at hstep
  cases hpc : s.pc s.procp with
  | user | boot | zombieExit => simp [hpc] at hstep
  | copyuvm np | pproc np =>
      simp only [hpc, Option.some.injEq] at hstep
      rw [← hstep]
      exact .same _
  | run np | bad np =>
      simp only [hpc, Option.some.injEq] at hstep
      have hset := h.fresh s.procp np (by rw [hpc]; rfl)
      rw [← hstep]
      exact moves_update (by rw [hset]; constructor) q
  | sleep wait =>
      simp only [hpc] at hstep
      split at hstep
      · rw [(callSched_cases hstep).1]; exact .same _
      · rw [← Option.some.inj hstep]; exact .same _
  | collect =>
      simp only [hpc, Option.some.injEq] at hstep
      rw [← hstep]
      by_cases hz : s.pproc q = some s.procp ∧ s.tab.stat q = .ZOMB
      · rw [show (s.collectZombies.goto s.procp .user).tab.stat q = .UNUSED from if_pos hz, hz.2]
        exact .collect
      · rw [show (s.collectZombies.goto s.procp .user).tab.stat q = _ from if_neg hz]
        exact .same _
  | exiting =>
      simp only [hpc] at hstep
      rw [(callSched_cases hstep).1]
      exact .same _

/-- Only `sched` gives the processor away. -/
theorem procp_cases {e : LifeEvent} (hstep : s.step e = some t) :
    t.procp = s.procp ∨ s.tab.stat t.procp = .RUN ∨
      (s.tab.stat t.procp = .SLEEP ∧ s.tab.stat s.procp = .ZOMB ∧ ∀ q, s.tab.stat q ≠ .RUN) := by
  have hsched : ∀ u : LifeSt, u.tab = s.tab → u.procp = s.procp → u.callSched = some t →
      t.procp = s.procp ∨ s.tab.stat t.procp = .RUN ∨
        (s.tab.stat t.procp = .SLEEP ∧ s.tab.stat s.procp = .ZOMB ∧
          ∀ q, s.tab.stat q ≠ .RUN) := by
    intro u htab hprocp hu
    have hcases := (callSched_cases hu).2.2.2
    rw [htab, hprocp] at hcases
    exact hcases.imp And.left id
  cases e with
  | call c =>
      simp only [LifeSt.step, Option.ite_none_right_eq_some, Option.some.injEq] at hstep
      obtain ⟨-, rfl⟩ := hstep
      left
      cases c with
      | fork ok =>
          simp only [LifeSt.call, LifeSt.palloc]
          split
          · rfl
          · cases ok <;> rfl
      | exit =>
          simp only [LifeSt.call, LifeSt.exit]
          split <;> rfl
      | wait | sleep c | wakeup c => rfl
  | go ok =>
      simp only [LifeSt.step, LifeSt.go] at hstep
      cases hpc : s.pc s.procp with
      | user | boot | zombieExit => simp [hpc] at hstep
      | copyuvm np | pproc np | run np | bad np | collect =>
          simp only [hpc, Option.some.injEq] at hstep
          rw [← hstep]
          exact .inl rfl
      | sleep wait =>
          simp only [hpc] at hstep
          split at hstep
          · exact hsched s rfl rfl hstep
          · rw [← Option.some.inj hstep]; exact .inl rfl
      | exiting =>
          simp only [hpc] at hstep
          exact hsched (s.goto s.procp .zombieExit) rfl rfl hstep
  | device c => exact .inl (by rw [← Option.some.inj hstep]; rfl)
  | tick => exact hsched s rfl rfl hstep

theorem lifeStep (h : Slots s) {e : LifeEvent} (hstep : s.step e = some t) : LifeStep s t where
  moves q := by
    cases e with
    | call c =>
        simp only [LifeSt.step, Option.ite_none_right_eq_some, Option.some.injEq] at hstep
        obtain ⟨hpc, rfl⟩ := hstep
        exact h.moves_call hpc c q
    | go ok => exact h.moves_go hstep q
    | device c => exact Option.some.inj hstep ▸ h.moves_wakeup c q
    | tick => rw [(callSched_cases hstep).1]; exact .same _
  switches hne := (procp_cases hstep).resolve_left hne

end Slots

/-- **Process life cycle.**  In every state of every run the table has its shape, and
every step from there is a step of a life cycle. -/
theorem life_cycle {s : LifeSt} (h : lifeMachine.Reaches .init s) :
    LifeOk s ∧ ∀ e t, lifeMachine.step s e = some t → LifeStep s t := by
  have hslots : Slots s := h.invariant Slots.init fun _ _ _ I _ hs => I.step hs
  exact ⟨hslots.lifeOk, fun _ _ hs => hslots.lifeStep hs⟩

/-- The first process forks, its child exits, and it collects the child. -/
theorem life_cycle_fork : ∃ s, LifeOk s ∧ s.procp = 1 ∧ s.tab.stat 2 = .UNUSED ∧
    s.pproc 2 = some 1 := by
  obtain ⟨s, hs, hprocp, hstat, hpproc⟩ := lifeMachine.exists_path_of_run (fun _ _ => True) .init
    [.call (.fork true), .go true, .go true, .go true, .call .wait, .go true, .call .exit,
      .go true, .go true, .go true]
    (fun s => s.procp = 1 ∧ s.tab.stat 2 = .UNUSED ∧ s.pproc 2 = some 1) (by decide +kernel)
  exact ⟨s, (life_cycle hs).1, hprocp, hstat, hpproc⟩

end Mixv6.Kernel
