import Mixv6.Kernel.Lock
import Mixv6.Lib.Machine
import Mathlib.Data.Fintype.Basic

/-!
# Processes competing for one sleep lock

Any number of processes run `acquire`, a critical section and `release` on one
`struct lock`, over and over.  The timer may give the processor to another runnable
process between any two statements.  Inside and outside the critical section a
process may also sleep on other channels and wake them, as `iderw` does while it holds
`idelock`.

Two properties are proved of the runs: mutual exclusion and the absence of lost
wakeups.  Neither holds for every schedule.  For each there is a schedule that breaks
it, and a condition on the single statements of a run under which it always holds.

## Main definitions

* `Pc`, `LockSt`, `lockUni` — the processes and the processor they share.
* `MutualExclusion`, `SafeStep`, `mutual_exclusion` — the critical section.
* `NoLostWakeup`, `SafeSleep`, `no_lost_wakeup` — the sleepers.
-/

namespace Mixv6.Kernel

open Mixv6.Lib

/-- Where a process stands with respect to the lock. -/
inductive Pc
  /-- Outside, not using the lock. -/
  | rem
  | acq (a : Acq)
  /-- In the critical section: `acquire` has returned, `release` is not yet called. -/
  | crit
  | rel (r : Rel)
  /-- Asleep on another channel, inside the critical section or outside. -/
  | nap (inside : Bool)
  deriving DecidableEq, Repr

/-- Past `acquire` and not yet into `release`. -/
def Pc.inCrit : Pc → Bool
  | .crit | .nap true => true
  | _ => false

/-- Inside `acquire`. -/
def Pc.inAcquire : Pc → Bool
  | .acq _ => true
  | _ => false

/-- How far the process has come with the lock. -/
def Pc.phase : Pc → Phase
  | .acq a => a.phase
  | .crit | .nap true => .holding
  | .rel r => r.phase
  | .rem | .nap false => .out

/-- The two windows in which losing the processor matters: after the test has read a
free lock and before the store `locked = 1`, and between the two stores of
`release`. -/
def Pc.inWindow : Pc → Bool
  | .acq .set | .rel .clear => true
  | _ => false

/-- Inside `release`, past the store `locked = 0`, with the call of `wakeup` still to
come. -/
def Pc.waking : Pc → Bool
  | .rel .clear | .rel .wake => true
  | _ => false

/-- What a process outside `acquire` and `release` does next. -/
inductive Call (C : Type)
  /-- Call `acquire` from outside, `release` from the critical section. -/
  | lock
  /-- Sleep on a channel other than the lock. -/
  | nap (c : C)
  /-- Wake a channel other than the lock. -/
  | wake (c : C)

/-- The program counters, the lock and the process table. -/
structure LockSt (P C : Type) where
  pc : P → Pc
  lock : Lock P
  tab : ProcTab P C

/-- The lock is free and every process is runnable and outside. -/
def LockSt.init (P C : Type) : LockSt P C where
  pc _ := .rem
  lock := .free
  tab := ⟨fun _ => .RUN, fun _ => none⟩

section Model
variable {P C : Type} [DecidableEq P] [DecidableEq C] (chan : C)

/-- The next statement of process `p` on the lock with address `chan`. -/
def lockNext (p : P) (call : Call C) (s : LockSt P C) : Option (LockSt P C) :=
  match s.pc p with
  | .rem => outside .rem (.nap false) (.acq .test)
  | .acq a => (acquireStep p chan a s.lock s.tab).map fun (a', l, t) =>
      { pc := Function.update s.pc p (a'.elim .crit .acq), lock := l, tab := t }
  | .crit => outside .crit (.nap true) (.rel .free)
  | .rel r =>
      let (r', l, t) := releaseStep chan r s.lock s.tab
      some { pc := Function.update s.pc p (r'.elim .rem .rel), lock := l, tab := t }
  | .nap inside =>
      if s.tab.wchan p = none then
        some { s with pc := Function.update s.pc p (if inside then .crit else .rem) }
      else none
where
  /-- Statements that do not touch the lock. -/
  outside (here napping next : Pc) : Option (LockSt P C) :=
    match call with
    | .lock => some { s with pc := Function.update s.pc p next }
    | .nap c =>
        if c = chan then none
        else some { s with pc := Function.update s.pc p napping, tab := s.tab.sleep p c }
    | .wake c =>
        if c = chan then none
        else some { s with pc := Function.update s.pc p here, tab := s.tab.wakeup (some c) }

/-- The processor: `sched` gives it to a runnable process. -/
def lockUni : Uni P (Call C) (LockSt P C) where
  next := lockNext chan
  runnable s _ q := s.tab.stat q = .RUN
  intr _ := none

/-! ## What one statement does -/

/-- The lock's own part of a statement, with what it may change. -/
inductive LockMove (p : P) (s : LockSt P C) : LockSt P C → Prop
  /-- A statement of `acquire`. -/
  | acquire (a : Acq) (a' : Option Acq) (l : Lock P) (t : ProcTab P C) :
      s.pc p = .acq a → acquireStep p chan a s.lock s.tab = some (a', l, t) →
      LockMove p s ⟨Function.update s.pc p (a'.elim .crit .acq), l, t⟩
  /-- A statement of `release`. -/
  | release (r : Rel) (r' : Option Rel) (l : Lock P) (t : ProcTab P C) :
      s.pc p = .rel r → releaseStep chan r s.lock s.tab = (r', l, t) →
      LockMove p s ⟨Function.update s.pc p (r'.elim .rem .rel), l, t⟩
  /-- Any other statement keeps the process on its side of the lock and puts nobody
  to sleep on it. -/
  | other (k : Pc) (t : ProcTab P C) :
      k.phase = (s.pc p).phase → k.inWindow = false → (s.pc p).waking = false →
      (∀ q, t.wchan q = some chan → s.tab.wchan q = some chan) →
      LockMove p s ⟨Function.update s.pc p k, s.lock, t⟩

variable {chan} {p : P} {call : Call C} {s s' : LockSt P C}

private theorem outside_cases {here napping next : Pc}
    (h : lockNext.outside chan p call s here napping next = some s') :
    ∃ k t, (k = here ∨ k = napping ∨ k = next) ∧ s' = ⟨Function.update s.pc p k, s.lock, t⟩ ∧
      ∀ q, t.wchan q = some chan → s.tab.wchan q = some chan := by
  cases call with
  | lock =>
      obtain rfl := Option.some.inj h
      exact ⟨next, s.tab, by simp, rfl, fun _ hq => hq⟩
  | nap c =>
      simp only [lockNext.outside, Option.ite_none_left_eq_some, Option.some.injEq] at h
      obtain ⟨hc, rfl⟩ := h
      refine ⟨napping, s.tab.sleep p c, by simp, rfl, fun q hq => ?_⟩
      rw [ProcTab.wchan_sleep] at hq
      split at hq
      · exact absurd (Option.some.inj hq) hc
      · exact hq
  | wake c =>
      simp only [lockNext.outside, Option.ite_none_left_eq_some, Option.some.injEq] at h
      obtain ⟨-, rfl⟩ := h
      exact ⟨here, s.tab.wakeup (some c), by simp, rfl, fun q hq => ProcTab.wchan_of_wakeup hq⟩

/-- Every statement of a process is one of the three kinds of `LockMove`. -/
theorem lockNext_cases (h : lockNext chan p call s = some s') : LockMove chan p s s' := by
  unfold lockNext at h
  cases hpc : s.pc p with
  | rem =>
      rw [hpc] at h
      obtain ⟨k, t, hk, rfl, ht⟩ := outside_cases h
      refine .other k t ?_ ?_ (by rw [hpc]; rfl) ht <;> rcases hk with rfl | rfl | rfl <;>
        simp [hpc, Pc.phase, Acq.phase, Pc.inWindow]
  | acq a =>
      rw [hpc] at h
      obtain ⟨⟨a', l, t⟩, ha, rfl⟩ := Option.map_eq_some_iff.mp h
      exact .acquire a a' l t hpc ha
  | crit =>
      rw [hpc] at h
      obtain ⟨k, t, hk, rfl, ht⟩ := outside_cases h
      refine .other k t ?_ ?_ (by rw [hpc]; rfl) ht <;> rcases hk with rfl | rfl | rfl <;>
        simp [hpc, Pc.phase, Rel.phase, Pc.inWindow]
  | rel r =>
      rw [hpc] at h
      obtain rfl := Option.some.inj h
      exact .release r _ _ _ hpc rfl
  | nap inside =>
      rw [hpc] at h
      simp only [Option.ite_none_right_eq_some, Option.some.injEq] at h
      obtain ⟨-, rfl⟩ := h
      refine .other _ s.tab ?_ ?_ (by rw [hpc]; rfl) (fun _ hq => hq) <;> cases inside <;>
        simp [hpc, Pc.phase, Pc.inWindow]

end Model

/-! ## Mutual exclusion -/

section MutualExclusion
variable {P C : Type}

/-- At most one process is in the critical section, and whoever is there holds the
lock. -/
def MutualExclusion (s : LockSt P C) : Prop :=
  (∀ p q, (s.pc p).inCrit → (s.pc q).inCrit → p = q) ∧
    ∀ p, (s.pc p).inCrit → holding s.lock p

/-- The current process does not overtake another one in the middle of `acquire` or
`release`: it stores `locked = 1` only while the lock is still free, and `procp = 0`
only while no later owner is recorded. -/
def SafeStep (s : Cpu P (LockSt P C)) : CpuEvent P (Call C) → Prop
  | .exec _ =>
      (s.st.pc s.cur = .acq .set → s.st.lock.locked = 0) ∧
        (s.st.pc s.cur = .rel .clear → s.st.lock.locked = 0 ∨ s.st.lock.procp = some s.cur)
  | _ => True

instance [DecidableEq P] (s : Cpu P (LockSt P C)) :
    ∀ e : CpuEvent P (Call C), Decidable (SafeStep s e)
  | .exec _ => inferInstanceAs (Decidable (_ ∧ _))
  | .switch _ => .isTrue trivial
  | .intr => .isTrue trivial

variable [DecidableEq P] [DecidableEq C] {chan : C}

/-- One safe statement keeps the lock discipline. -/
theorem lockInv_next {p : P} {call : Call C} {s s' : LockSt P C}
    (hinv : LockInv s.lock (Pc.phase ∘ s.pc)) (hsafe : SafeStep ⟨p, s⟩ (.exec call))
    (h : lockNext chan p call s = some s') : LockInv s'.lock (Pc.phase ∘ s'.pc) := by
  have hp : ∀ k, s.pc p = k → (Pc.phase ∘ s.pc) p = k.phase := fun k hk => by simp [hk]
  cases lockNext_cases h with
  | acquire a a' l t hpc ha =>
      have hnext := hinv.acquireStep (hp _ hpc) (fun h => hsafe.1 (by rw [hpc, h])) ha
      rw [Function.comp_update]
      cases a' <;> exact hnext
  | release r r' l t hpc hr =>
      have hnext := hinv.releaseStep (hp _ hpc) (fun h => hsafe.2 (by rw [hpc, h])) hr
      rw [Function.comp_update]
      cases r' <;> exact hnext
  | other k t hk _ _ _ =>
      rw [Function.comp_update, hk, ← hp _ rfl, Function.update_eq_self]
      exact hinv

omit [DecidableEq P] [DecidableEq C] in
/-- The lock discipline gives mutual exclusion. -/
theorem mutualExclusion_of_lockInv {s : LockSt P C}
    (h : LockInv s.lock (Pc.phase ∘ s.pc)) : MutualExclusion s := by
  have hphase : ∀ p, (s.pc p).inCrit → (Pc.phase ∘ s.pc) p = .holding := by
    intro p hp
    rcases hpc : s.pc p with _ | a | _ | r | _ | _ <;> simp_all [Pc.inCrit, Pc.phase]
  refine ⟨fun p q hp hq => ?_, fun p hp => h.holding_of_phase (hphase p hp)⟩
  exact h.unique p q (by rw [hphase p hp]; decide) (by rw [hphase q hq]; decide)

theorem lockInv_of_path {p : P} {s : Cpu P (LockSt P C)}
    (h : (lockUni chan).machine.Path SafeStep ⟨p, .init P C⟩ s) :
    LockInv s.st.lock (Pc.phase ∘ s.st.pc) := by
  refine Uni.invariant (I := fun st => LockInv st.lock (Pc.phase ∘ st.pc)) h LockInv.init ?_ ?_
  · exact fun p c st st' hI hok hnext => lockInv_next hI hok hnext
  · intro p st st' _ _ hi; cases hi

/-- **Mutual exclusion.**  In every run whose stores to the lock are all safe, at most
one process is in the critical section, and `holding` is true for it. -/
theorem mutual_exclusion (chan : C) (p : P) {s : Cpu P (LockSt P C)}
    (h : (lockUni chan).machine.Path SafeStep ⟨p, .init P C⟩ s) : MutualExclusion s.st :=
  mutualExclusion_of_lockInv (lockInv_of_path h)

/-- The processor is not taken away inside a window. -/
def NoPreempt (s : Cpu P (LockSt P C)) : CpuEvent P (Call C) → Prop
  | .switch _ => (s.st.pc s.cur).inWindow = false
  | _ => True

/-- Only the current process is in a window, and there the lock is free. -/
def WindowInv (s : Cpu P (LockSt P C)) : Prop :=
  ∀ q, (s.st.pc q).inWindow → q = s.cur ∧ s.st.lock.locked = 0

theorem windowInv_next {p : P} {call : Call C} {s s' : LockSt P C} (hinv : WindowInv ⟨p, s⟩)
    (h : lockNext chan p call s = some s') : WindowInv ⟨p, s'⟩ := by
  -- A process other than `p` is in no window, before the step or after it.
  have hself : ∀ {k : Pc} {q : P}, (Function.update s.pc p k q).inWindow →
      q = p ∧ k.inWindow := by
    intro k q hq
    by_cases hqp : q = p
    · subst hqp; exact ⟨rfl, by simpa using hq⟩
    · rw [Function.update_of_ne hqp] at hq
      exact absurd (hinv q hq).1 hqp
  intro q hq
  cases lockNext_cases h with
  | acquire a a' l t hpc ha =>
      obtain ⟨rfl, hk⟩ := hself hq
      refine ⟨rfl, ?_⟩
      cases a <;> simp only [acquireStep, Option.ite_none_right_eq_some, Option.some.injEq,
        Prod.mk.injEq] at ha
      case test =>
        obtain ⟨rfl, rfl, -⟩ := ha
        by_contra hl
        simp [show s.lock.locked ≠ 0 from hl, Pc.inWindow] at hk
      case wait => obtain ⟨-, rfl, -⟩ := ha; cases hk
      all_goals obtain ⟨rfl, -⟩ := ha; cases hk
  | release r r' l t hpc hr =>
      obtain ⟨rfl, hk⟩ := hself hq
      refine ⟨rfl, ?_⟩
      cases r <;> simp only [releaseStep, Prod.mk.injEq] at hr <;> obtain ⟨rfl, rfl, -⟩ := hr
      case free => rfl
      all_goals cases hk
  | other k t _ hk _ _ =>
      obtain ⟨rfl, hk'⟩ := hself hq
      rw [hk] at hk'; cases hk'

/-- A run that never loses the processor inside a window makes safe stores only. -/
theorem safe_of_noPreempt {p : P} {s : Cpu P (LockSt P C)}
    (h : (lockUni chan).machine.Path NoPreempt ⟨p, .init P C⟩ s) :
    (lockUni chan).machine.Path SafeStep ⟨p, .init P C⟩ s := by
  have hsafe : ∀ (t : Cpu P (LockSt P C)) (e : CpuEvent P (Call C)),
      WindowInv t → SafeStep t e := by
    intro t e ht
    cases e with
    | exec c =>
        have hcur := ht t.cur
        exact ⟨fun hpc => (hcur (by rw [hpc]; rfl)).2, fun hpc => .inl (hcur (by rw [hpc]; rfl)).2⟩
    | switch q => trivial
    | intr => trivial
  suffices (lockUni chan).machine.Path SafeStep ⟨p, .init P C⟩ s ∧ WindowInv s from this.1
  induction h with
  | refl => exact ⟨.refl, fun q hq => by cases hq⟩
  | @snoc t u e _ hok hstep ih =>
      refine ⟨ih.1.snoc e (hsafe t e ih.2) hstep, ?_⟩
      cases e with
      | exec c =>
          obtain ⟨st, hst, rfl⟩ := Option.map_eq_some_iff.mp hstep
          exact windowInv_next ih.2 hst
      | switch q =>
          simp only [Uni.machine, Option.ite_none_right_eq_some, Option.some.injEq] at hstep
          obtain ⟨-, rfl⟩ := hstep
          intro r hr
          obtain ⟨rfl, -⟩ := ih.2 r hr
          rw [hok] at hr; cases hr
      | intr => cases hstep

end MutualExclusion

/-! ### Two processes, numbered 0 and 1, and the lock at address 0 -/

/-- Process 0 runs alone through `acquire` into the critical section. -/
def soloAcquire : List (CpuEvent (Fin 2) (Call (Fin 1))) :=
  [.exec .lock, .exec .lock, .exec .lock, .exec .lock]

/-- Process 1 finds the lock of process 0 locked and sleeps on it; process 0 releases the
lock, and process 1 wakes up, tests it again and takes it. -/
def handOver : List (CpuEvent (Fin 2) (Call (Fin 1))) :=
  soloAcquire ++ [.switch 1, .exec .lock, .exec .lock, .exec .lock, .switch 0,
    .exec .lock, .exec .lock, .exec .lock, .exec .lock, .switch 1,
    .exec .lock, .exec .lock, .exec .lock, .exec .lock]

theorem mutual_exclusion_handOver :
    ∃ s, (lockUni (0 : Fin 1)).machine.Path SafeStep ⟨(0 : Fin 2), .init _ _⟩ s ∧
      (s.st.pc 1).inCrit ∧ ¬ holding s.st.lock 0 ∧ MutualExclusion s.st :=
  have h := Machine.path_of_run handOver rfl
  ⟨_, h, rfl, by decide, mutual_exclusion 0 0 h⟩

/-- Process 0 tests the free lock and loses the processor; process 1 passes the same
test and enters; process 0 goes on and enters too. -/
def twoOwners : List (CpuEvent (Fin 2) (Call (Fin 1))) :=
  [.exec .lock, .exec .lock, .switch 1,
   .exec .lock, .exec .lock, .exec .lock, .exec .lock, .switch 0,
   .exec .lock, .exec .lock]

/-- The timer between the test and the store of `acquire` lets two processes in. -/
theorem not_mutual_exclusion :
    ∃ s, (lockUni (0 : Fin 1)).machine.Reaches ⟨(0 : Fin 2), .init _ _⟩ s ∧
      (s.st.pc 0).inCrit ∧ (s.st.pc 1).inCrit ∧ ¬ holding s.st.lock 1 ∧
      ¬ MutualExclusion s.st := by
  refine ⟨_, Machine.path_of_run twoOwners rfl, by decide, by decide, by decide, ?_⟩
  intro h
  exact absurd (h.1 0 1 (by decide) (by decide)) (by decide)

/-! ## Lost wakeups -/

section LostWakeup
variable {P C : Type} (chan : C)

/-- A lock that is free while somebody sleeps on it has a runnable process inside
`acquire` that will find it free. -/
def NoLostWakeup (s : LockSt P C) : Prop :=
  s.lock.locked = 0 → (∃ q, s.tab.wchan q = some chan) →
    ∃ q, s.tab.stat q = .RUN ∧ (s.pc q).inAcquire

/-- The current process does not call `sleep(lock)` on a lock that has been freed since
it tested it. -/
def SafeSleep (s : Cpu P (LockSt P C)) : CpuEvent P (Call C) → Prop
  | .exec _ => s.st.pc s.cur = .acq .sleep → s.st.lock.locked ≠ 0
  | _ => True

instance [Fintype P] [DecidableEq C] (s : LockSt P C) : Decidable (NoLostWakeup chan s) :=
  inferInstanceAs (Decidable (_ → _))

instance (s : Cpu P (LockSt P C)) : ∀ e : CpuEvent P (Call C), Decidable (SafeSleep s e)
  | .exec _ => inferInstanceAs (Decidable (_ → _))
  | .switch _ => .isTrue trivial
  | .intr => .isTrue trivial

/-- A free lock with sleepers has a process in `release` that is going to wake them. -/
def WakerInv (s : LockSt P C) : Prop :=
  s.lock.locked = 0 → (∃ q, s.tab.wchan q = some chan) → ∃ r, (s.pc r).waking

variable [DecidableEq P] [DecidableEq C] {chan}

theorem wakerInv_next {p : P} {call : Call C} {s s' : LockSt P C}
    (hinv : WakerInv chan s) (hsafe : SafeSleep ⟨p, s⟩ (.exec call))
    (h : lockNext chan p call s = some s') : WakerInv chan s' := by
  -- The waking process of the old state is still there unless it is `p` itself.
  have hkeep : ∀ k : Pc, ((s.pc p).waking → k.waking) → (∃ r, (s.pc r).waking) →
      ∃ r, (Function.update s.pc p k r).waking := by
    rintro k hk ⟨r, hr⟩
    by_cases hrp : r = p
    · subst hrp; exact ⟨r, by simpa using hk hr⟩
    · exact ⟨r, by rwa [Function.update_of_ne hrp]⟩
  intro hfree hsleeper
  cases lockNext_cases h with
  | acquire a a' l t hpc ha =>
      cases a <;> simp only [acquireStep, Option.ite_none_right_eq_some, Option.some.injEq,
        Prod.mk.injEq] at ha
      case test =>
        obtain ⟨rfl, rfl, rfl⟩ := ha
        exact hkeep _ (by simp [hpc, Pc.waking]) (hinv hfree hsleeper)
      case sleep =>
        obtain ⟨rfl, rfl, rfl⟩ := ha
        exact absurd hfree (hsafe hpc)
      case wait =>
        obtain ⟨-, rfl, rfl, rfl⟩ := ha
        exact hkeep _ (by simp [hpc, Pc.waking]) (hinv hfree hsleeper)
      case set =>
        obtain ⟨rfl, rfl, rfl⟩ := ha
        cases hfree
      case own =>
        obtain ⟨rfl, rfl, rfl⟩ := ha
        exact hkeep _ (by simp [hpc, Pc.waking]) (hinv hfree hsleeper)
  | release r r' l t hpc hr =>
      cases r <;> simp only [releaseStep, Prod.mk.injEq] at hr <;> obtain ⟨rfl, rfl, rfl⟩ := hr
      case free => exact ⟨p, by simp [Pc.waking]⟩
      case clear => exact ⟨p, by simp [Pc.waking]⟩
      case wake =>
        obtain ⟨q, hq⟩ := hsleeper
        exact absurd hq ProcTab.wchan_wakeup_ne
  | other k t _ _ hwaking ht =>
      obtain ⟨q, hq⟩ := hsleeper
      exact hkeep k (by simp [hwaking]) (hinv hfree ⟨q, ht q hq⟩)

theorem wakerInv_of_path {p : P} {s : Cpu P (LockSt P C)}
    (h : (lockUni chan).machine.Path SafeSleep ⟨p, .init P C⟩ s) : WakerInv chan s.st := by
  refine Uni.invariant (I := WakerInv chan) h ?_ ?_ ?_
  · rintro - ⟨q, hq⟩; cases hq
  · exact fun p c st st' hI hok hnext => wakerInv_next hI hok hnext
  · intro p st st' _ _ hi; cases hi

/-- **No lost wakeup.**  In every run in which nobody goes to sleep on the free lock,
and whenever no process stands inside `release` before its `wakeup`. -/
theorem no_lost_wakeup (chan : C) (p : P) {s : Cpu P (LockSt P C)}
    (h : (lockUni chan).machine.Path SafeSleep ⟨p, .init P C⟩ s)
    (hquiet : ∀ r, (s.st.pc r).waking = false) : NoLostWakeup chan s.st := by
  intro hfree hsleeper
  obtain ⟨r, hr⟩ := wakerInv_of_path h hfree hsleeper
  rw [hquiet r] at hr; cases hr

end LostWakeup

/-- Process 0 takes the lock, process 1 finds it locked and goes to sleep, and process 0
runs all of `release`: process 1 is runnable again, inside `acquire`. -/
def sleepAndWake : List (CpuEvent (Fin 2) (Call (Fin 1))) :=
  soloAcquire ++ [.switch 1, .exec .lock, .exec .lock, .exec .lock, .switch 0,
    .exec .lock, .exec .lock, .exec .lock, .exec .lock]

theorem no_lost_wakeup_sleepAndWake :
    ∃ s, (lockUni (0 : Fin 1)).machine.Path SafeSleep ⟨(0 : Fin 2), .init _ _⟩ s ∧
      s.st.tab.stat 1 = .RUN ∧ NoLostWakeup 0 s.st :=
  have h := Machine.path_of_run sleepAndWake rfl
  ⟨_, h, rfl, no_lost_wakeup 0 0 h (by decide)⟩

/-- Process 0 takes the lock; process 1 finds it locked and loses the processor before
it calls `sleep`; process 0 runs all of `release`; then process 1 goes to sleep. -/
def lostWakeup : List (CpuEvent (Fin 2) (Call (Fin 1))) :=
  soloAcquire ++ [.switch 1, .exec .lock, .exec .lock, .switch 0,
    .exec .lock, .exec .lock, .exec .lock, .exec .lock, .switch 1, .exec .lock]

/-- The lock is free, process 0 is outside and process 1 sleeps on the lock. -/
theorem not_no_lost_wakeup :
    ∃ s, (lockUni (0 : Fin 1)).machine.Reaches ⟨(0 : Fin 2), .init _ _⟩ s ∧
      s.st.pc 0 = .rem ∧ s.st.pc 1 = .acq .wait ∧ ¬ NoLostWakeup 0 s.st :=
  ⟨_, Machine.path_of_run lostWakeup rfl, by decide, by decide, by decide⟩

end Mixv6.Kernel
