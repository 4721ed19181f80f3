import Mixv6.Lib.Mem
import Mathlib.Tactic.Common

/-!
# A stack in memory

A stack of words that grows down.  A push moves the stack pointer by four bytes and writes all of
them, or only the lower two; what has been pushed is found where it was put, and nothing else has
changed.

## Main definitions

* `Cell`, `Cell.put`, `Cell.At` — what one push writes.
* `pushes`, `Stacked` — many of them, and what they leave.
* `stacked_pushes`, `pushes_of_ne` — both together.
* `Laid` — the same words from the lowest one up, as the fields of a structure.
-/

namespace Mixv6.Lib

/-- What a push writes: a word, or the lower half of one. -/
inductive Cell
  | word (v : BitVec 32)
  | half (v : BitVec 16)

namespace Cell

/-- Write the cell at address `a`. -/
def put (m : Mem) (a : ℕ) : Cell → Mem
  | word v => m.store32 a v.toNat
  | half v => m.store16 a v.toNat

/-- The cell lies at address `a`. -/
def At (m : Mem) (a : ℕ) : Cell → Prop
  | word v => m.load32 a = v.toNat
  | half v => m.load16 a = v.toNat

variable {m m' : Mem} {a x : ℕ} {c : Cell}

theorem put_of_ne (h : x < a ∨ a + 4 ≤ x) : c.put m a x = m x := by
  cases c with
  | word v => exact Mem.store32_of_ne h
  | half v => exact Mem.store16_of_ne (by omega)

theorem at_put : c.At (c.put m a) a := by
  cases c with
  | word v => exact Mem.load32_store32 v.isLt
  | half v => exact Mem.load16_store16 v.isLt

theorem At.congr (h : c.At m a) (hm : ∀ x, a ≤ x → x < a + 4 → m' x = m x) : c.At m' a := by
  cases c with
  | word v => exact (Mem.load32_congr fun k hk => hm _ (by omega) (by omega)).trans h
  | half v => exact (Mem.load16_congr fun k hk => hm _ (by omega) (by omega)).trans h

end Cell

/-- Push the cells, the first one first, on a stack with its top at `a`. -/
def pushes (m : Mem) (a : ℕ) : List Cell → Mem
  | [] => m
  | c :: cs => pushes (c.put m (a - 4)) (a - 4) cs

/-- The cells have been pushed at `a`. -/
def Stacked (m : Mem) (a : ℕ) : List Cell → Prop
  | [] => True
  | c :: cs => c.At m (a - 4) ∧ Stacked m (a - 4) cs

/-- The cells lie one after the other from address `a` up. -/
def Laid (m : Mem) (a : ℕ) : List Cell → Prop
  | [] => True
  | c :: cs => c.At m a ∧ Laid m (a + 4) cs

variable {m m' : Mem} {a x : ℕ} {c : Cell} {cs ds : List Cell}

theorem pushes_append : pushes m a (cs ++ ds) = pushes (pushes m a cs) (a - 4 * cs.length) ds := by
  induction cs generalizing m a with
  | nil => rfl
  | cons c cs ih =>
      rw [List.cons_append, pushes, ih, List.length_cons, pushes]
      congr 1
      omega

theorem pushes_concat :
    pushes m a (cs ++ [c]) = c.put (pushes m a cs) (a - 4 * cs.length - 4) := by
  rw [pushes_append]
  rfl

theorem stacked_append : Stacked m a (cs ++ ds) ↔ Stacked m a cs ∧ Stacked m (a - 4 * cs.length) ds := by
  induction cs generalizing a with
  | nil => simp [Stacked]
  | cons c cs ih =>
      have hlength : a - 4 - 4 * cs.length = a - 4 * (cs.length + 1) := by omega
      rw [List.cons_append, Stacked, ih, List.length_cons, Stacked, hlength, and_assoc]

/-- What lies above the top, or below the last cell, stays as it is. -/
theorem pushes_of_ne (ha : 4 * cs.length ≤ a) (hx : x < a - 4 * cs.length ∨ a ≤ x) :
    pushes m a cs x = m x := by
  induction cs generalizing m a with
  | nil => rfl
  | cons c cs ih =>
      rw [List.length_cons] at ha hx
      rw [pushes, ih (by omega) (by omega), Cell.put_of_ne (by omega)]

/-- **Every cell is where it has been pushed.** -/
theorem stacked_pushes (ha : 4 * cs.length ≤ a) : Stacked (pushes m a cs) a cs := by
  induction cs generalizing m a with
  | nil => trivial
  | cons c cs ih =>
      rw [List.length_cons] at ha
      refine ⟨?_, ih (by omega)⟩
      apply Cell.at_put.congr
      intro x hx _
      rw [pushes]
      apply pushes_of_ne
      · omega
      · exact .inr hx

theorem laid_concat : Laid m a (cs ++ [c]) ↔ Laid m a cs ∧ c.At m (a + 4 * cs.length) := by
  induction cs generalizing a with
  | nil => simp [Laid]
  | cons d cs ih =>
      have hlength : a + 4 + 4 * cs.length = a + 4 * (cs.length + 1) := by omega
      rw [List.cons_append, Laid, ih, List.length_cons, Laid, hlength, and_assoc]

/-- The first cell pushed is the last field. -/
theorem laid_reverse : Laid m a cs.reverse ↔ Stacked m (a + 4 * cs.length) cs := by
  induction cs with
  | nil => simp [Laid, Stacked]
  | cons c cs ih =>
      have hlength : a + 4 * (cs.length + 1) - 4 = a + 4 * cs.length := by omega
      rw [List.reverse_cons, laid_concat, ih, List.length_reverse, List.length_cons, Stacked, hlength,
        and_comm]

end Mixv6.Lib
