import Mathlib.Algebra.Ring.Nat
import Mathlib.Logic.Function.Basic

/-!
# Event-driven machines

A machine is a partial step function: `step s e` is the state after event `e`, and
`none` says that `e` cannot happen in `s`.  Runs are lists of events, so a schedule
can be evaluated; paths are the same runs as an inductive relation, which is what an
invariant is proved along.

Paths carry a side condition `ok` on each step.  With `ok` everywhere true a path is
plain reachability; with a proper condition, an invariant proved along paths says that
the system behaves in every run whose steps all meet it.

## Main definitions

* `Machine.Path` — a run whose steps all satisfy `ok`.
* `Machine.run` — the evaluation of a schedule.
* `Machine.Path.invariant` — what every step preserves holds along a path.
* `Uni` — a uniprocessor: one process runs at a time, others take over by a switch.
-/

namespace Mixv6.Lib

/-- A transition system driven by events. -/
structure Machine (σ ε : Type) where
  step : σ → ε → Option σ

namespace Machine
variable {σ ε : Type} (M : Machine σ ε)

/-- A run from `s` to `t` in which every step is taken in a state that allows it. -/
inductive Path (ok : σ → ε → Prop) (s : σ) : σ → Prop
  | refl : Path ok s s
  | snoc {t u : σ} (e : ε) : Path ok s t → ok t e → M.step t e = some u → Path ok s u

/-- Reachability is a path without a side condition. -/
def Reaches (s t : σ) : Prop := M.Path (fun _ _ => True) s t

/-- Take the events of a schedule in order, as long as each step is allowed. -/
def run (ok : σ → ε → Prop) [∀ s e, Decidable (ok s e)] (s : σ) : List ε → Option σ
  | [] => some s
  | e :: es => if ok s e then (M.step s e).bind fun t => run ok t es else none

variable {M} {ok : σ → ε → Prop} {s t u : σ}

theorem Path.trans (h : M.Path ok s t) (h' : M.Path ok t u) : M.Path ok s u := by
  induction h' with
  | refl => exact h
  | snoc e _ hok hstep ih => exact ih.snoc e hok hstep

theorem Path.mono {ok' : σ → ε → Prop} (himp : ∀ s e, ok s e → ok' s e)
    (h : M.Path ok s t) : M.Path ok' s t := by
  induction h with
  | refl => exact .refl
  | snoc e _ hok hstep ih => exact ih.snoc e (himp _ _ hok) hstep

/-- **Invariants.**  A predicate that holds at the start and is preserved by every
allowed step holds at the end of every path. -/
theorem Path.invariant {I : σ → Prop} (h : M.Path ok s t) (h0 : I s)
    (hstep : ∀ s e s', I s → ok s e → M.step s e = some s' → I s') : I t := by
  induction h with
  | refl => exact h0
  | snoc e _ hok hs ih => exact hstep _ e _ ih hok hs

/-- Two side conditions allow the same runs if they agree on the steps from states with
an invariant that both of them preserve. -/
theorem path_iff {ok' : σ → ε → Prop} {I : σ → Prop} (h0 : I s)
    (hstep : ∀ s e u, I s → M.step s e = some u →
      (ok s e → ok' s e ∧ I u) ∧ (ok' s e → ok s e ∧ I u)) :
    M.Path ok s t ↔ M.Path ok' s t := by
  constructor
  · intro h
    suffices key : M.Path ok' s t ∧ I t from key.1
    induction h with
    | refl => exact ⟨.refl, h0⟩
    | snoc e _ hok hs ih =>
        obtain ⟨hok', hI⟩ := (hstep _ e _ ih.2 hs).1 hok
        exact ⟨ih.1.snoc e hok' hs, hI⟩
  · intro h
    suffices key : M.Path ok s t ∧ I t from key.1
    induction h with
    | refl => exact ⟨.refl, h0⟩
    | snoc e _ hok hs ih =>
        obtain ⟨hok', hI⟩ := (hstep _ e _ ih.2 hs).2 hok
        exact ⟨ih.1.snoc e hok' hs, hI⟩

/-- A schedule that can be taken in full is a path to its last state. -/
theorem path_of_run [∀ s e, Decidable (ok s e)] (es : List ε) (h : M.run ok s es = some t) :
    M.Path ok s t := by
  induction es generalizing s with
  | nil =>
      obtain rfl : s = t := by simpa [run] using h
      exact .refl
  | cons e es ih =>
      simp only [run, Option.ite_none_right_eq_some, Option.bind_eq_some_iff] at h
      obtain ⟨hok, v, hv, ht⟩ := h
      exact Path.trans (Path.snoc e .refl hok hv) (ih ht)

/-- A schedule can be checked by evaluation, together with a test on its last state. -/
theorem exists_path_of_run (M : Machine σ ε) (ok : σ → ε → Prop) [∀ s e, Decidable (ok s e)]
    (s : σ) (es : List ε) (test : σ → Prop) [DecidablePred test]
    (h : (M.run ok s es).any (fun t => decide (test t)) = true) :
    ∃ t, M.Path ok s t ∧ test t := by
  rcases hrun : M.run ok s es with _ | t
  · rw [hrun] at h; cases h
  · rw [hrun] at h
    exact ⟨t, path_of_run es hrun, of_decide_eq_true h⟩

end Machine

/-! ## One processor, many processes -/

/-- The processor runs process `cur`; everything else is in `st`. -/
structure Cpu (P σ : Type) where
  cur : P
  st : σ

/-- What can happen next on the processor. -/
inductive CpuEvent (P C : Type)
  /-- The current process executes its next statement; `c` resolves its choices. -/
  | exec (c : C)
  /-- The processor is given to another process. -/
  | switch (q : P)
  /-- A device interrupt runs its handler to the end. -/
  | intr

/-- The processes of a uniprocessor: the next statement of a process, the processes
that may be given the processor, and the interrupt handler. -/
structure Uni (P C σ : Type) where
  next : P → C → σ → Option σ
  runnable : σ → P → P → Bool
  intr : σ → Option σ

/-- Schedules of two processes name them by the numerals of `Fin 2`. -/
instance neZeroTwo : NeZero 2 := ⟨by decide⟩

namespace Uni
variable {P C σ : Type} (U : Uni P C σ)

/-- The processor as a machine. -/
def machine : Machine (Cpu P σ) (CpuEvent P C) where
  step s
    | .exec c => (U.next s.cur c s.st).map fun st => { s with st := st }
    | .switch q => if U.runnable s.st s.cur q then some { s with cur := q } else none
    | .intr => (U.intr s.st).map fun st => { s with st := st }

variable {U} {ok : Cpu P σ → CpuEvent P C → Prop} {s t : Cpu P σ}

/-- Every step of the processor is a statement of the current process, an interrupt,
or leaves the rest of the state alone. -/
theorem step_cases {e : CpuEvent P C} (h : U.machine.step s e = some t) :
    (∃ c, e = .exec c ∧ U.next s.cur c s.st = some t.st) ∨
      (e = .intr ∧ U.intr s.st = some t.st) ∨ t.st = s.st := by
  cases e with
  | exec c =>
      obtain ⟨st, hst, rfl⟩ := Option.map_eq_some_iff.mp h
      exact .inl ⟨c, rfl, hst⟩
  | switch q =>
      simp only [machine, Option.ite_none_right_eq_some, Option.some.injEq] at h
      exact .inr (.inr (by rw [← h.2]))
  | intr =>
      obtain ⟨st, hst, rfl⟩ := Option.map_eq_some_iff.mp h
      exact .inr (.inl ⟨rfl, hst⟩)

/-- An invariant of the shared state needs to be checked for the statements of the
processes and for the interrupt handler only: a switch changes neither. -/
theorem invariant {I : σ → Prop} (h : U.machine.Path ok s t) (h0 : I s.st)
    (hexec : ∀ p c st st', I st → ok ⟨p, st⟩ (.exec c) → U.next p c st = some st' → I st')
    (hintr : ∀ p st st', I st → ok ⟨p, st⟩ .intr → U.intr st = some st' → I st') :
    I t.st := by
  refine h.invariant (I := fun s => I s.st) h0 ?_
  intro s e s' hI hok hstep
  rcases step_cases hstep with ⟨c, rfl, hc⟩ | ⟨rfl, hi⟩ | hst
  · exact hexec s.cur c s.st s'.st hI hok hc
  · exact hintr s.cur s.st s'.st hI hok hi
  · rw [hst]; exact hI

end Uni
end Mixv6.Lib
