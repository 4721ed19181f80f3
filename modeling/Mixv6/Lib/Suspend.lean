import Mixv6.Lib.Refine
import Mathlib.Data.List.Infix

/-!
# Suspended work

What somebody has begun and not finished, the last piece first.  Work is suspended for something else,
and goes on when that is done.  A piece that is suspended stays as it is until it goes on, unless it is
changed there.

## Main definitions

* `WorkOp`, `works` — the machine.
* `Spares` — a step that leaves some of the work alone.
* `works_spared` — and a run.
-/

namespace Mixv6.Lib

/-- What happens to the work. -/
inductive WorkOp (α : Type)
  /-- Nothing. -/
  | rest
  /-- Work is suspended. -/
  | suspend (a : α)
  /-- What was suspended last is changed. -/
  | edit (a : α)
  /-- It goes on. -/
  | resume
  /-- Somebody new has work. -/
  | begin (l : List α)
  /-- All the work is dropped. -/
  | drop

def works (α : Type) : Machine (List α) (WorkOp α) where
  step
    | l, .rest => some l
    | l, .suspend a => some (a :: l)
    | _ :: l, .edit a => some (a :: l)
    | _ :: l, .resume => some l
    | [], .begin l => some l
    | _, .drop => some []
    | _, _ => none

/-- The same, for work that is part of more. -/
def WorkOp.map {α β : Type} (f : α → β) : WorkOp α → WorkOp β
  | .rest => .rest
  | .suspend a => .suspend (f a)
  | .edit a => .edit (f a)
  | .resume => .resume
  | .begin l => .begin (l.map f)
  | .drop => .drop

/-- A step that leaves the work `l` alone, if that lies below. -/
def Spares {α : Type} (l t : List α) : WorkOp α → Prop
  | .edit _ => t ≠ l
  | .resume => t ≠ l
  | .drop => False
  | _ => True

variable {α : Type} {l s t u : List α} {d : WorkOp α} {ds : List (WorkOp α)}

theorem suffix_of_cons {a : α} (h : l <:+ a :: t) (hne : a :: t ≠ l) : l <:+ t := by
  rcases List.suffix_cons_iff.mp h with rfl | h
  · exact absurd rfl hne
  · exact h

theorem works_step (h : (works α).step s d = some t) (hd : Spares l s d) (hl : l <:+ s) : l <:+ t := by
  cases d with
  | rest =>
      obtain rfl := Option.some.inj h
      exact hl
  | suspend a =>
      obtain rfl := Option.some.inj h
      exact hl.trans (List.suffix_cons ..)
  | edit a =>
      cases s with
      | nil => cases h
      | cons b s =>
          obtain rfl := Option.some.inj h
          exact (suffix_of_cons hl hd).trans (List.suffix_cons ..)
  | resume =>
      cases s with
      | nil => cases h
      | cons b s =>
          obtain rfl := Option.some.inj h
          exact suffix_of_cons hl hd
  | begin m =>
      cases s with
      | nil =>
          obtain rfl := List.suffix_nil.mp hl
          exact List.nil_suffix
      | cons b s => cases h
  | drop => exact hd.elim

/-- **What is suspended stays.** -/
theorem works_spared (h : (works α).Trace (Spares l) s ds t) (hl : l <:+ s) : l <:+ t := by
  induction h with
  | nil => exact hl
  | snoc d _ hd hstep ih => exact works_step hstep hd ih

theorem works_map {β : Type} (f : α → β) (h : (works α).step s d = some t) :
    (works β).step (s.map f) (d.map f) = some (t.map f) := by
  cases d with
  | rest | suspend | drop =>
      obtain rfl := Option.some.inj h
      rfl
  | edit a =>
      cases s with
      | nil => cases h
      | cons b s =>
          obtain rfl := Option.some.inj h
          rfl
  | resume =>
      cases s with
      | nil => cases h
      | cons b s =>
          obtain rfl := Option.some.inj h
          rfl
  | begin l =>
      cases s with
      | nil =>
          obtain rfl := Option.some.inj h
          rfl
      | cons b s => cases h

end Mixv6.Lib
