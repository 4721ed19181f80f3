import Mixv6.Kernel.Sleep

/-!
# Sleep locks, statement by statement

`acquire` and `release` of `kernel/lock.c` as the statements a process executes with
interrupts enabled.  Neither function calls `pushcli`, so a timer interrupt can give
the processor away between any two of the statements below; only the bodies of
`sleep` and `wakeup` run with interrupts off.

`LockInv` says what the two words of a lock record when the protocol is undisturbed.
It is stated over the phase of each process, so that every machine with sleep locks
in it can use the four rules about it: one for each statement that stores to the
lock.

## Main definitions

* `Lock`, `holding` — `struct lock` and the test on it.
* `acquireStep`, `releaseStep` — one statement of `acquire` and of `release`.
* `SafeAcquire`, `SafeRelease` — the stores that do not overtake another process.
* `LockInv` — at most one process owns the lock, and the lock records it.
-/

namespace Mixv6.Kernel

/-- `struct lock`: `locked` is a 32-bit word that only ever holds 0 or 1. -/
structure Lock (P : Type) where
  locked : ℕ
  procp : Option P

/-- A lock nobody holds. -/
def Lock.free {P : Type} : Lock P := ⟨0, none⟩

/-- `holding`, evaluated by process `p`. -/
def holding {P : Type} (l : Lock P) (p : P) : Prop := l.locked ≠ 0 ∧ l.procp = some p

instance {P : Type} [DecidableEq P] (l : Lock P) (p : P) : Decidable (holding l p) :=
  inferInstanceAs (Decidable (_ ∧ _))

/-- Where a process stands inside `acquire`. -/
inductive Acq
  /-- At the test `while (lock->locked)`. -/
  | test
  /-- The test read a locked lock; about to call `sleep(lock)`. -/
  | sleep
  /-- In the loop of `sleep` that calls `sched` until `wchan` is null. -/
  | wait
  /-- The test read a free lock; about to store `lock->locked = 1`. -/
  | set
  /-- About to store `lock->procp = user.procp`. -/
  | own
  deriving DecidableEq, Repr

/-- Where a process stands inside `release`. -/
inductive Rel
  /-- About to store `lock->locked = 0`. -/
  | free
  /-- About to store `lock->procp = 0`. -/
  | clear
  /-- About to call `wakeup(lock)`. -/
  | wake
  deriving DecidableEq, Repr

section Steps
variable {P C : Type} [DecidableEq P] [DecidableEq C]

/-- One statement of `acquire(lock)`, executed by `p`; `chan` is the lock's address.
The next position is `none` when `acquire` returns, and there is no step while `p`
sleeps. -/
def acquireStep (p : P) (chan : C) (a : Acq) (l : Lock P) (t : ProcTab P C) :
    Option (Option Acq × Lock P × ProcTab P C) :=
  match a with
  | .test => some (some (if l.locked ≠ 0 then .sleep else .set), l, t)
  | .sleep => some (some .wait, l, t.sleep p chan)
  | .wait => if t.wchan p = none then some (some .test, l, t) else none
  | .set => some (some .own, { l with locked := 1 }, t)
  | .own => some (none, { l with procp := some p }, t)

/-- One statement of `release(lock)`. -/
def releaseStep (chan : C) (r : Rel) (l : Lock P) (t : ProcTab P C) :
    Option Rel × Lock P × ProcTab P C :=
  match r with
  | .free => (some .clear, { l with locked := 0 }, t)
  | .clear => (some .wake, { l with procp := none }, t)
  | .wake => (none, l, t.wakeup (some chan))

omit [DecidableEq C] in
/-- What a statement of `acquire` does to the process table. -/
theorem tab_of_acquireStep {p : P} {chan : C} {a : Acq} {l l' : Lock P} {t t' : ProcTab P C}
    {a' : Option Acq} (h : acquireStep p chan a l t = some (a', l', t')) :
    t' = t ∨ t' = t.sleep p chan := by
  cases a <;> simp only [acquireStep, Option.ite_none_right_eq_some, Option.some.injEq,
    Prod.mk.injEq] at h
  case wait => exact .inl h.2.2.2.symm
  case sleep => exact .inr h.2.2.symm
  all_goals exact .inl h.2.2.symm

omit [DecidableEq P] in
/-- What a statement of `release` does to the process table. -/
theorem tab_of_releaseStep {chan : C} {r : Rel} {l l' : Lock P} {t t' : ProcTab P C}
    {r' : Option Rel} (h : releaseStep chan r l t = (r', l', t')) :
    t' = t ∨ t' = t.wakeup (some chan) := by
  cases r <;> simp only [releaseStep, Prod.mk.injEq] at h
  case wake => exact .inr h.2.2.symm
  all_goals exact .inl h.2.2.symm

/-- `acquire` stores `locked = 1` only into a lock that is still free. -/
def SafeAcquire (l : Lock P) (a : Acq) : Prop := a = .set → l.locked = 0

/-- `release` stores `procp = 0` only while no other process is recorded in the lock
as its holder. -/
def SafeRelease (p : P) (l : Lock P) (r : Rel) : Prop :=
  r = .clear → l.locked = 0 ∨ l.procp = some p

omit [DecidableEq P] in
instance (l : Lock P) (a : Acq) : Decidable (SafeAcquire l a) :=
  inferInstanceAs (Decidable (_ → _))

instance (p : P) (l : Lock P) (r : Rel) : Decidable (SafeRelease p l r) :=
  inferInstanceAs (Decidable (_ → _))

end Steps

/-! ## The lock discipline -/

/-- How far a process has come with one lock. -/
inductive Phase
  /-- It has not taken the lock, or has given it back. -/
  | out
  /-- It has stored `locked = 1` and not yet `procp`. -/
  | taking
  /-- It has returned from `acquire` and not yet stored `locked = 0`. -/
  | holding
  deriving DecidableEq

/-- The phase of a process inside `acquire`. -/
def Acq.phase : Acq → Phase
  | .own => .taking
  | _ => .out

/-- The phase of a process inside `release`: it owns the lock until its first store. -/
def Rel.phase : Rel → Phase
  | .free => .holding
  | _ => .out

/-- At most one process owns the lock, the lock records it, and a locked lock has an
owner. -/
structure LockInv {P : Type} (l : Lock P) (phase : P → Phase) : Prop where
  unique : ∀ p q, phase p ≠ .out → phase q ≠ .out → p = q
  locked : ∀ p, phase p ≠ .out → l.locked ≠ 0
  owned : l.locked ≠ 0 → ∃ p, phase p ≠ .out
  owner : ∀ p, phase p = .holding → l.procp = some p

namespace LockInv
variable {P : Type} {l : Lock P} {phase : P → Phase} {p : P}

theorem init : LockInv (Lock.free : Lock P) (fun _ => .out) := by
  constructor <;> simp [Lock.free]

/-- A lock that nobody is in the region of is not locked. -/
theorem locked_eq_zero (h : LockInv l phase) (hout : ∀ q, phase q = .out) : l.locked = 0 := by
  by_contra hlocked
  obtain ⟨q, hq⟩ := h.owned hlocked
  exact hq (hout q)

/-- Who holds the lock passes the test `holding`. -/
theorem holding_of_phase (h : LockInv l phase) (hp : phase p = .holding) : holding l p :=
  ⟨h.locked p (by simp [hp]), h.owner p hp⟩

/-- `lock->procp = 0` by a process that no longer owns the lock, as long as nobody
else has been recorded in it since. -/
theorem clear (h : LockInv l phase) (hp : phase p = .out)
    (hsafe : l.locked = 0 ∨ l.procp = some p) : LockInv { l with procp := none } phase := by
  refine ⟨h.unique, h.locked, h.owned, ?_⟩
  intro q hq
  have hlocked := h.locked q (by simp [hq])
  rcases hsafe with h0 | hown
  · exact absurd h0 hlocked
  · -- The recorded owner would be `p`, which is out.
    obtain rfl : p = q := Option.some.inj (hown.symm.trans (h.owner q hq))
    rw [hp] at hq; cases hq

variable [DecidableEq P]

/-- `lock->locked = 1` on a free lock makes its process the only owner. -/
theorem set (h : LockInv l phase) (hfree : l.locked = 0) :
    LockInv { l with locked := 1 } (Function.update phase p .taking) := by
  have hout : ∀ q, phase q = .out := fun q => by
    by_contra hq
    exact h.locked q hq hfree
  have hself : ∀ q, Function.update phase p .taking q ≠ .out → q = p := by
    intro q hq
    by_contra hne
    exact hq (by rw [Function.update_of_ne hne, hout])
  refine ⟨fun q r hq hr => (hself q hq).trans (hself r hr).symm, by simp,
    fun _ => ⟨p, by simp⟩, ?_⟩
  intro q hq
  by_cases hqp : q = p
  · subst hqp; simp at hq
  · rw [Function.update_of_ne hqp, hout] at hq; cases hq

/-- `lock->procp = user.procp` by the process that is taking the lock. -/
theorem own (h : LockInv l phase) (hp : phase p = .taking) :
    LockInv { l with procp := some p } (Function.update phase p .holding) := by
  have hne : phase p ≠ .out := by simp [hp]
  have hself : ∀ q, Function.update phase p .holding q ≠ .out → q = p := by
    intro q hq
    by_contra hqp
    rw [Function.update_of_ne hqp] at hq
    exact hqp (h.unique q p hq hne)
  refine ⟨fun q r hq hr => (hself q hq).trans (hself r hr).symm, fun _ _ => h.locked p hne,
    fun _ => ⟨p, by simp⟩, ?_⟩
  intro q hq
  rw [hself q (by simp [hq])]

/-- `lock->locked = 0` by the holder leaves the lock without an owner. -/
theorem free (h : LockInv l phase) (hp : phase p = .holding) :
    LockInv { l with locked := 0 } (Function.update phase p .out) := by
  have hout : ∀ q, Function.update phase p .out q = .out := by
    intro q
    by_cases hqp : q = p
    · subst hqp; simp
    · rw [Function.update_of_ne hqp]
      by_contra hq
      exact hqp (h.unique q p hq (by simp [hp]))
  constructor <;> intros <;> simp_all

variable {C : Type} {chan : C} {t t' : ProcTab P C} {l' : Lock P}

/-- **One statement of `acquire`** keeps the discipline unless it locks a locked lock. -/
theorem acquireStep [DecidableEq C] {a : Acq} {a' : Option Acq} (h : LockInv l phase)
    (hp : phase p = a.phase) (hsafe : SafeAcquire l a)
    (hstep : acquireStep p chan a l t = some (a', l', t')) :
    LockInv l' (Function.update phase p (a'.elim .holding Acq.phase)) := by
  have hkeep : LockInv l (Function.update phase p (phase p)) := by
    rwa [Function.update_eq_self]
  cases a with
  | test =>
      simp only [Kernel.acquireStep, Option.some.injEq, Prod.mk.injEq] at hstep
      obtain ⟨rfl, rfl, -⟩ := hstep
      by_cases hl : l.locked ≠ 0 <;> simpa [hl, hp, Acq.phase] using hkeep
  | sleep =>
      simp only [Kernel.acquireStep, Option.some.injEq, Prod.mk.injEq] at hstep
      obtain ⟨rfl, rfl, -⟩ := hstep
      simpa [hp, Acq.phase] using hkeep
  | wait =>
      simp only [Kernel.acquireStep, Option.ite_none_right_eq_some, Option.some.injEq,
        Prod.mk.injEq] at hstep
      obtain ⟨-, rfl, rfl, -⟩ := hstep
      simpa [hp, Acq.phase] using hkeep
  | set =>
      simp only [Kernel.acquireStep, Option.some.injEq, Prod.mk.injEq] at hstep
      obtain ⟨rfl, rfl, -⟩ := hstep
      exact h.set (hsafe rfl)
  | own =>
      simp only [Kernel.acquireStep, Option.some.injEq, Prod.mk.injEq] at hstep
      obtain ⟨rfl, rfl, -⟩ := hstep
      exact h.own hp

/-- **One statement of `release`** keeps the discipline unless it clears the owner
another process has recorded. -/
theorem releaseStep [DecidableEq C] {r : Rel} {r' : Option Rel} (h : LockInv l phase)
    (hp : phase p = r.phase) (hsafe : SafeRelease p l r)
    (hstep : releaseStep chan r l t = (r', l', t')) :
    LockInv l' (Function.update phase p (r'.elim .out Rel.phase)) := by
  have hout : phase p = .out → Function.update phase p .out = phase := fun hp => by
    rw [← hp, Function.update_eq_self]
  cases r with
  | free =>
      simp only [Kernel.releaseStep, Prod.mk.injEq] at hstep
      obtain ⟨rfl, rfl, -⟩ := hstep
      exact h.free hp
  | clear =>
      simp only [Kernel.releaseStep, Prod.mk.injEq] at hstep
      obtain ⟨rfl, rfl, -⟩ := hstep
      simpa [Rel.phase, hout hp] using h.clear hp (hsafe rfl)
  | wake =>
      simp only [Kernel.releaseStep, Prod.mk.injEq] at hstep
      obtain ⟨rfl, rfl, -⟩ := hstep
      simpa [Rel.phase, hout hp] using h

end LockInv
end Mixv6.Kernel
