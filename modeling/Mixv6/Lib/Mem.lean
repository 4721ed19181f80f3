import Mathlib.Algebra.Ring.Nat
import Mathlib.Logic.Function.Basic

/-!
# Memory

A byte-addressed memory, with the little-endian words in it, and the two string
operations that fill and copy a range.  Addresses are natural numbers.

## Main definitions

* `Mem` — a memory.
* `load16`, `load32`, `store16`, `store32` — half words and words.
* `fill`, `movsb` — a range filled with a byte, a range copied upwards byte by byte.
-/

namespace Mixv6.Lib

/-- A memory. -/
abbrev Mem := ℕ → UInt8

namespace Mem

/-- The half word at address `a`. -/
def load16 (m : Mem) (a : ℕ) : ℕ := (m a).toNat + 256 * (m (a + 1)).toNat

/-- The word at address `a`. -/
def load32 (m : Mem) (a : ℕ) : ℕ :=
  (m a).toNat + 256 * (m (a + 1)).toNat + 65536 * (m (a + 2)).toNat +
    16777216 * (m (a + 3)).toNat

/-- Store the low 16 bits of `v` at address `a`. -/
def store16 (m : Mem) (a v : ℕ) : Mem := fun x =>
  if x = a then UInt8.ofNat v else if x = a + 1 then UInt8.ofNat (v / 256) else m x

/-- Store the low 32 bits of `v` at address `a`. -/
def store32 (m : Mem) (a v : ℕ) : Mem := fun x =>
  if x = a then UInt8.ofNat v
  else if x = a + 1 then UInt8.ofNat (v / 256)
  else if x = a + 2 then UInt8.ofNat (v / 65536)
  else if x = a + 3 then UInt8.ofNat (v / 16777216)
  else m x

/-- Fill `n` bytes from address `a`. -/
def fill (m : Mem) (a : ℕ) (c : UInt8) (n : ℕ) : Mem := fun x =>
  if a ≤ x ∧ x < a + n then c else m x

/-- Copy `n` bytes from `src` to `dst`, the first one first. -/
def movsb (m : Mem) (src dst : ℕ) : ℕ → Mem
  | 0 => m
  | n + 1 => movsb (Function.update m dst (m src)) (src + 1) (dst + 1) n

/-- Store the bytes of a list from address `a` on. -/
def write (m : Mem) (a : ℕ) : List UInt8 → Mem
  | [] => m
  | b :: bs => write (Function.update m a b) (a + 1) bs

/-- The `n` bytes from address `a` on. -/
def read (m : Mem) (a n : ℕ) : List UInt8 := (List.range n).map fun k => m (a + k)

variable {m m' : Mem} {a b v n : ℕ}

theorem load32_lt (m : Mem) (a : ℕ) : load32 m a < 2 ^ 32 := by
  have h0 := (m a).toNat_lt
  have h1 := (m (a + 1)).toNat_lt
  have h2 := (m (a + 2)).toNat_lt
  have h3 := (m (a + 3)).toNat_lt
  simp only [load32]
  omega

/-- A word depends on its four bytes. -/
theorem load32_congr (h : ∀ k < 4, m' (a + k) = m (a + k)) : load32 m' a = load32 m a := by
  have h0 := h 0 (by omega)
  have h1 := h 1 (by omega)
  have h2 := h 2 (by omega)
  have h3 := h 3 (by omega)
  simp only [Nat.add_zero] at h0
  simp only [load32, h0, h1, h2, h3]

/-- The bytes of a word that is zero. -/
theorem eq_zero_of_load32 (h : load32 m a = 0) {k : ℕ} (hk : k < 4) : m (a + k) = 0 := by
  simp only [load32] at h
  apply UInt8.toNat_inj.mp
  rw [UInt8.toNat_zero]
  obtain rfl | rfl | rfl | rfl : k = 0 ∨ k = 1 ∨ k = 2 ∨ k = 3 := by omega
  · rw [Nat.add_zero]
    omega
  · omega
  · omega
  · omega

/-- A word that has just been stored. -/
theorem load32_store32 (hv : v < 2 ^ 32) : load32 (store32 m a v) a = v := by
  simp [load32, store32]
  omega

/-- A store changes its four bytes only. -/
theorem store32_of_ne {x : ℕ} (h : x < a ∨ a + 4 ≤ x) : store32 m a v x = m x := by
  simp only [store32]
  rw [if_neg (by omega), if_neg (by omega), if_neg (by omega), if_neg (by omega)]

/-- A store changes no other aligned word. -/
theorem load32_store32_of_ne (h : b + 4 ≤ a ∨ a + 4 ≤ b) :
    load32 (store32 m a v) b = load32 m b :=
  load32_congr fun k hk => store32_of_ne (by omega)

/-- A half word depends on its two bytes. -/
theorem load16_congr (h : ∀ k < 2, m' (a + k) = m (a + k)) : load16 m' a = load16 m a := by
  have h0 := h 0 (by omega)
  have h1 := h 1 (by omega)
  simp only [Nat.add_zero] at h0
  simp only [load16, h0, h1]

/-- A half word that has just been stored. -/
theorem load16_store16 (hv : v < 2 ^ 16) : load16 (store16 m a v) a = v := by
  simp [load16, store16]
  omega

theorem store16_of_ne {x : ℕ} (h : x < a ∨ a + 2 ≤ x) : store16 m a v x = m x := by
  simp only [store16]
  rw [if_neg (by omega), if_neg (by omega)]

theorem load16_store16_of_ne (h : b + 2 ≤ a ∨ a + 2 ≤ b) :
    load16 (store16 m a v) b = load16 m b :=
  load16_congr fun k hk => store16_of_ne (by omega)

theorem load16_store32_of_ne (h : b + 2 ≤ a ∨ a + 4 ≤ b) :
    load16 (store32 m a v) b = load16 m b :=
  load16_congr fun k hk => store32_of_ne (by omega)

theorem fill_of_mem {x : ℕ} {c : UInt8} (h : a ≤ x ∧ x < a + n) : fill m a c n x = c := if_pos h

theorem fill_of_ne {x : ℕ} {c : UInt8} (h : x < a ∨ a + n ≤ x) : fill m a c n x = m x :=
  if_neg (by omega)

/-- A word in a range filled with zeros. -/
theorem load32_fill_zero (h : a ≤ b ∧ b + 4 ≤ a + n) : load32 (fill m a 0 n) b = 0 := by
  have hb : ∀ k < 4, fill m a 0 n (b + k) = 0 := fun k hk => fill_of_mem (by omega)
  have h0 := hb 0 (by omega)
  simp only [Nat.add_zero] at h0
  simp [load32, h0, hb 1 (by omega), hb 2 (by omega), hb 3 (by omega)]

/-- A copy changes its destination only. -/
theorem movsb_of_ne {src dst x : ℕ} (h : x < dst ∨ dst + n ≤ x) : movsb m src dst n x = m x := by
  induction n generalizing m src dst with
  | zero => rfl
  | succ n ih =>
      rw [movsb, ih (by omega), Function.update_of_ne (by omega)]

/-- A copy downwards, or between two ranges that do not overlap. -/
theorem movsb_of_mem {src dst k : ℕ} (hsrc : src + n ≤ dst ∨ dst ≤ src) (hk : k < n) :
    movsb m src dst n (dst + k) = m (src + k) := by
  induction n generalizing m src dst k with
  | zero => omega
  | succ n ih =>
      rw [movsb]
      cases k with
      | zero => rw [movsb_of_ne (by omega)]; simp
      | succ k =>
          have hrest : movsb (Function.update m dst (m src)) (src + 1) (dst + 1) n (dst + 1 + k) =
              Function.update m dst (m src) (src + 1 + k) := ih (by omega) (by omega)
          rw [show dst + (k + 1) = dst + 1 + k by omega, hrest, Function.update_of_ne (by omega)]
          congr 1
          omega

/-- A half word that is copied. -/
theorem load16_movsb {src dst k : ℕ} (hsrc : src + n ≤ dst ∨ dst ≤ src) (hk : k + 2 ≤ n) :
    load16 (movsb m src dst n) (dst + k) = load16 m (src + k) := by
  have h0 : movsb m src dst n (dst + k) = m (src + k) := movsb_of_mem hsrc (by omega)
  have h1 : movsb m src dst n (dst + (k + 1)) = m (src + (k + 1)) := movsb_of_mem hsrc (by omega)
  simp only [load16, Nat.add_assoc, h0, h1]

theorem load16_movsb_of_ne {src dst : ℕ} (h : b + 2 ≤ dst ∨ dst + n ≤ b) :
    load16 (movsb m src dst n) b = load16 m b :=
  load16_congr fun k hk => movsb_of_ne (by omega)

/-- A half word in a range filled with zeros. -/
theorem load16_fill_zero (h : a ≤ b ∧ b + 2 ≤ a + n) : load16 (fill m a 0 n) b = 0 := by
  have h0 : fill m a 0 n b = 0 := fill_of_mem (by omega)
  have h1 : fill m a 0 n (b + 1) = 0 := fill_of_mem (by omega)
  simp [load16, h0, h1]

theorem load16_fill_of_ne {c : UInt8} (h : b + 2 ≤ a ∨ a + n ≤ b) :
    load16 (fill m a c n) b = load16 m b :=
  load16_congr fun k hk => fill_of_ne (by omega)

/-- A write changes its range only. -/
theorem write_of_ne {x : ℕ} {bs : List UInt8} (h : x < a ∨ a + bs.length ≤ x) :
    write m a bs x = m x := by
  induction bs generalizing m a with
  | nil => rfl
  | cons b bs ih =>
      simp only [List.length_cons] at h
      rw [write, ih (by omega), Function.update_of_ne (by omega)]

theorem write_of_mem {k : ℕ} {bs : List UInt8} (h : k < bs.length) :
    write m a bs (a + k) = bs[k] := by
  induction bs generalizing m a k with
  | nil => simp at h
  | cons b bs ih =>
      cases k with
      | zero => rw [write, write_of_ne (by omega)]; simp
      | succ k =>
          have hk : k < bs.length := by simpa using h
          rw [write, show a + (k + 1) = a + 1 + k by omega, ih hk]
          rfl

/-- The bytes of a range depend on the range. -/
theorem read_congr (h : ∀ k < n, m' (a + k) = m (a + k)) : read m' a n = read m a n :=
  List.map_congr_left fun k hk => h k (List.mem_range.mp hk)

/-- The bytes that have just been written. -/
theorem read_write (bs : List UInt8) : read (write m a bs) a bs.length = bs := by
  apply List.ext_getElem
  · simp [read]
  · intro k _ hk
    simpa [read] using write_of_mem hk

/-! ## A part of a memory -/

theorem load16_shift : load16 (fun x => m (b + x)) a = load16 m (b + a) := by
  simp only [load16, Nat.add_assoc]

theorem load32_shift : load32 (fun x => m (b + x)) a = load32 m (b + a) := by
  simp only [load32, Nat.add_assoc]

end Mem
end Mixv6.Lib
