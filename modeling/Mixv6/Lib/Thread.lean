import Mathlib.Logic.Function.Basic

/-!
# Threads

A thread is a program whose statements interleave with those of other threads.  Between
two statements anybody may change what the threads share, so a thread is a tree: each
statement says what it does to the shared state, and how the thread goes on.  Calls of
another component, which may take many statements of its own, are left to the machine that
runs the threads.

A thread is reasoned about on its own.  A specification says what a statement and a call
lead to, as far as this thread can tell, and the weakest preconditions follow from it.  A
precondition that the other threads cannot break still holds when the thread moves again.

## Main definitions

* `Thread` — what a thread still has to do.
* `Spec`, `Thread.wp` — what statements lead to, and weakest preconditions.
* `Thread.wp_bind`, `Thread.wp_mono` — the rules for sequences.
* `Spec.Stable`, `Thread.wp_stable` — what the other threads cannot break.
-/

namespace Mixv6.Lib

/-- What a thread over the shared states `σ` still has to do; a call of `c` returns a value
of `R c`. -/
inductive Thread (σ C : Type) (R : C → Type) (α : Type) : Type
  | ret (a : α)
  /-- The thread never goes on. -/
  | stop
  /-- A statement, which blocks where `f` is `none`; `k` sees the state before it. -/
  | atom (f : σ → Option σ) (k : σ → Thread σ C R α)
  | call (c : C) (k : R c → Thread σ C R α)

/-- What statements and calls lead to, as predicate transformers over what a thread knows. -/
structure Spec (σ C : Type) (R : C → Type) (κ : Type) where
  atom : (σ → Option σ) → (σ → κ → Prop) → κ → Prop
  call : (c : C) → (R c → κ → Prop) → κ → Prop
  atom_mono : ∀ {f Q Q' x}, (∀ s y, Q s y → Q' s y) → atom f Q x → atom f Q' x
  call_mono : ∀ {c Q Q' x}, (∀ r y, Q r y → Q' r y) → call c Q x → call c Q' x

/-- What holds before a statement or a call still holds when the other threads have taken
what the thread knows from `x` to `y`. -/
structure Spec.Stable {σ C : Type} {R : C → Type} {κ : Type} (S : Spec σ C R κ)
    (rely : κ → κ → Prop) : Prop where
  atom : ∀ {f Q x y}, (∀ s x y, rely x y → Q s x → Q s y) → rely x y → S.atom f Q x → S.atom f Q y
  call : ∀ {c Q x y}, (∀ r x y, rely x y → Q r x → Q r y) → rely x y → S.call c Q x → S.call c Q y

namespace Thread
variable {σ C : Type} {R : C → Type} {κ α β : Type}

/-- One thread after the other. -/
def bind : Thread σ C R α → (α → Thread σ C R β) → Thread σ C R β
  | ret a, g => g a
  | stop, _ => stop
  | atom f k, g => atom f fun s => (k s).bind g
  | call c k, g => call c fun r => (k r).bind g

instance monadThread : Monad (Thread σ C R) where
  pure := ret
  bind := bind

/-- Look at the shared state. -/
def look : Thread σ C R σ := atom some ret

/-- Change the shared state. -/
def change (f : σ → σ) : Thread σ C R Unit := atom (fun s => some (f s)) fun _ => ret ()

/-- Wait until the state can be changed. -/
def await (f : σ → Option σ) : Thread σ C R Unit := atom f fun _ => ret ()

/-- If the thread returns then `Q` holds. -/
def wp (S : Spec σ C R κ) : Thread σ C R α → (α → κ → Prop) → κ → Prop
  | ret a, Q, x => Q a x
  | stop, _, _ => True
  | atom f k, Q, x => S.atom f (fun s y => (k s).wp S Q y) x
  | call c k, Q, x => S.call c (fun r y => (k r).wp S Q y) x

variable {S : Spec σ C R κ} {t : Thread σ C R α} {g : α → Thread σ C R β} {x y : κ}

@[simp] theorem wp_pure {Q : α → κ → Prop} {a : α} :
    (pure a : Thread σ C R α).wp S Q x ↔ Q a x := Iff.rfl

@[simp] theorem wp_stop {Q : α → κ → Prop} : (stop : Thread σ C R α).wp S Q x ↔ True := Iff.rfl

@[simp] theorem wp_look {Q : σ → κ → Prop} :
    (look : Thread σ C R σ).wp S Q x ↔ S.atom some Q x := Iff.rfl

@[simp] theorem wp_change {Q : Unit → κ → Prop} {f : σ → σ} :
    (change f : Thread σ C R Unit).wp S Q x ↔
      S.atom (fun s => some (f s)) (fun _ y => Q () y) x := Iff.rfl

@[simp] theorem wp_await {Q : Unit → κ → Prop} {f : σ → Option σ} :
    (await f : Thread σ C R Unit).wp S Q x ↔ S.atom f (fun _ y => Q () y) x := Iff.rfl

/-- A sequence: the rest runs with what the first part has led to. -/
@[simp] theorem wp_bind {Q : β → κ → Prop} :
    (t >>= g).wp S Q x ↔ t.wp S (fun a y => (g a).wp S Q y) x := by
  change (t.bind g).wp S Q x ↔ _
  induction t generalizing x with
  | ret a => rfl
  | stop => rfl
  | atom f k ih => simp only [bind, wp, ih]
  | call c k ih => simp only [bind, wp, ih]

/-- A postcondition can be weakened. -/
theorem wp_mono {Q Q' : α → κ → Prop} (h : t.wp S Q x) (himp : ∀ a y, Q a y → Q' a y) :
    t.wp S Q' x := by
  induction t generalizing x with
  | ret a => exact himp a x h
  | stop => trivial
  | atom f k ih => exact S.atom_mono (fun s y => ih s) h
  | call c k ih => exact S.call_mono (fun r y => ih r) h

/-- Use what is known about the first part of a sequence. -/
theorem wp_seq {Q : α → κ → Prop} {Q' : β → κ → Prop} (h : t.wp S Q x)
    (himp : ∀ a y, Q a y → (g a).wp S Q' y) : (t >>= g).wp S Q' x :=
  wp_bind.mpr (wp_mono h himp)

@[simp] theorem wp_ite {Q : α → κ → Prop} {p : Prop} [Decidable p] {t u : Thread σ C R α} :
    (if p then t else u).wp S Q x ↔ if p then t.wp S Q x else u.wp S Q x := by
  split <;> rfl

/-- What holds before a thread moves, the other threads cannot break. -/
theorem wp_stable {rely : κ → κ → Prop} (hS : S.Stable rely) {Q : α → κ → Prop}
    (hQ : ∀ a x y, rely x y → Q a x → Q a y) (hxy : rely x y) (h : t.wp S Q x) : t.wp S Q y := by
  induction t generalizing x y with
  | ret a => exact hQ a x y hxy h
  | stop => trivial
  | atom f k ih => exact hS.atom (fun s x y hxy => ih s hxy) hxy h
  | call c k ih => exact hS.call (fun r x y hxy => ih r hxy) hxy h

end Thread
end Mixv6.Lib
