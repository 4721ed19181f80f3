import Mathlib.Algebra.Ring.Nat
import Mathlib.Logic.Function.Basic

/-!
# Sleep and wakeup

The two columns of `struct proc` through which processes wait for each other: the
process state and the wait channel.  `sleep` and `wakeup` of `kernel/proc.c` each
change them inside one `pushcli`/`popcli` section, so each section is one step here;
the loop `while (user.procp->wchan) sched();` that follows in `sleep` is a statement
of its own and belongs to the machines that use this table.

A channel is the address a process sleeps on.  `none` is the null pointer, which is
also a value `wakeup` can be called with.
-/

namespace Mixv6.Kernel

/-- `enum procstat`. -/
inductive ProcStat
  | UNUSED
  | SET
  | RUN
  | SLEEP
  | ZOMB
  | STOP
  deriving DecidableEq, Repr

/-- The fields `stat` and `wchan` of the process table. -/
structure ProcTab (P C : Type) where
  stat : P → ProcStat
  wchan : P → Option C

namespace ProcTab
variable {P C : Type}

section Sleep
variable [DecidableEq P]

/-- The `cli` section of `sleep(wchan)` run by process `p`. -/
def sleep (t : ProcTab P C) (p : P) (wchan : C) : ProcTab P C where
  stat := Function.update t.stat p .SLEEP
  wchan := Function.update t.wchan p (some wchan)

variable (t : ProcTab P C) (p q : P) (c : C)

@[simp] theorem wchan_sleep_self : (t.sleep p c).wchan p = some c := by simp [sleep]

theorem wchan_sleep : (t.sleep p c).wchan q = if q = p then some c else t.wchan q := by
  simp [sleep, Function.update_apply]

end Sleep

section Wakeup
variable [DecidableEq C]

/-- The `cli` section of `wakeup(wchan)`: every slot whose channel is equal, a null
channel included, is made runnable. -/
def wakeup (t : ProcTab P C) (wchan : Option C) : ProcTab P C where
  stat q := if t.wchan q = wchan then .RUN else t.stat q
  wchan q := if t.wchan q = wchan then none else t.wchan q

variable {t : ProcTab P C} {q : P} {c : C} {w : Option C}

theorem wchan_wakeup : (t.wakeup w).wchan q = if t.wchan q = w then none else t.wchan q := rfl

/-- After `wakeup(c)` nobody sleeps on `c`. -/
@[simp] theorem wchan_wakeup_ne : (t.wakeup (some c)).wchan q ≠ some c := by
  by_cases h : t.wchan q = some c <;> simp [wchan_wakeup, h]

/-- A `wakeup` puts nobody to sleep. -/
theorem wchan_of_wakeup (h : (t.wakeup w).wchan q = some c) : t.wchan q = some c := by
  rw [wchan_wakeup] at h
  split at h
  · cases h
  · exact h

/-- A `wakeup` only makes processes runnable. -/
theorem stat_of_wakeup {stat : ProcStat} (hne : stat ≠ .RUN) (h : (t.wakeup w).stat q = stat) :
    t.stat q = stat := by
  simp only [wakeup] at h
  split at h
  · exact absurd h.symm hne
  · exact h

end Wakeup

end ProcTab
end Mixv6.Kernel
