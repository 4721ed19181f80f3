import Mixv6.Fs.Cache
import Mathlib.Algebra.Ring.Int.Defs

/-!
# Reading and writing files

`readi` and `writei` of `fs/inode.c`.  Their callers hold the lock of the inode.  The
routines of a device are parameters; they do not use the buffer cache.

## Main definitions

* `readi`, `writei` — the routines.
* `Fine` — the accesses to a block that lose no data.
* `wp_readi`, `wp_writei` — what they do to the blocks, while nothing is lost.
-/

namespace Mixv6.Fs.Cache

open Mixv6.Lib
open Mixv6.Syscall (Inode T_DEV NADDR)

/-- The bytes from a pointer on. -/
abbrev Bytes := ℕ → UInt8

/-- `struct devsw`; null pointers are `none`. -/
structure Devsw where
  read : Option (Bytes → ℕ → ℤ × Bytes)
  write : Option (Bytes → ℕ → ℤ)

/-- `NELEM(devsw)`. -/
def NDEV : ℕ := 10

/-- `int` of a `uint32_t`. -/
def toInt (n : ℕ) : ℤ := if n < 2 ^ 31 then n else n - 2 ^ 32

/-- `memmove` of `m` bytes from a sector, to `dst + cnt`. -/
def moveOut (data : Sector) (start : ℕ) (dst : Bytes) (cnt m : ℕ) : Bytes := fun k =>
  if cnt ≤ k ∧ k < cnt + m then data (Fin.ofNat SECTSIZE (start + (k - cnt))) else dst k

/-- `memmove` of `m` bytes from `src + cnt`, to a sector. -/
def moveIn (src : Bytes) (cnt : ℕ) (data : Sector) (start m : ℕ) : Sector := fun j =>
  if start ≤ j ∧ j < start + m then src (cnt + (j - start)) else data j

/-- The variables of the loops. -/
structure Loop where
  cnt : ℕ
  offset : ℕ

/-- The number of bytes of a turn. -/
def Loop.m (l : Loop) (size : ℕ) : ℕ := min (size - l.cnt) (SECTSIZE - l.offset % SECTSIZE)

/-- The variables in the next turn. -/
def Loop.next (l : Loop) (size : ℕ) : Loop := ⟨l.cnt + l.m size, l.offset + l.m size⟩

/-- A turn of the loop of `readi`. -/
def readTurn (ip : Inode) (size : ℕ) (a : Loop × Bytes) : Kern ((Loop × Bytes) ⊕ Bytes) := do
  let (l, dst) := a
  if ¬ l.cnt < size then
    return .inr dst
  let bp ← bread (ip.dinode.addr (l.offset / SECTSIZE))
  let dst := moveOut ((← get).blocks bp).data (l.offset % SECTSIZE) dst l.cnt (l.m size)
  brelse bp
  return .inl (l.next size, dst)

/-- `readi`, with the bytes at `dst` afterwards. -/
def readi (devsw : ℕ → Devsw) (ip : Inode) (dst : Bytes) (offset size : ℕ) : Kern (ℤ × Bytes) := do
  if ip.dinode.type = T_DEV then
    if NDEV ≤ ip.devno then
      return (-1, dst)
    match (devsw ip.devno).read with
    | none => return (-1, dst)
    | some read => return read dst size
  if ip.dinode.size < offset ∨ (offset + size) % 2 ^ 32 < offset ∨ NADDR ≤ offset / SECTSIZE then
    return (-1, dst)
  let size := if ip.dinode.size < offset + size then ip.dinode.size - offset else size
  let dst ← iterate .loop (readTurn ip size) (size + 1) (⟨0, offset⟩, dst)
  return (toInt size, dst)

/-- A turn of the loop of `writei`. -/
def writeTurn (ip : Inode) (src : Bytes) (size : ℕ) (l : Loop) : Kern (Loop ⊕ Unit) := do
  if ¬ l.cnt < size then
    return .inr ()
  let m := l.m size
  let bp ← if m = SECTSIZE then bget (ip.dinode.addr (l.offset / SECTSIZE))
    else bread (ip.dinode.addr (l.offset / SECTSIZE))
  modify fun s => s.setBlock bp { s.blocks bp with
    data := moveIn src l.cnt (s.blocks bp).data (l.offset % SECTSIZE) m }
  brelse bp
  return .inl (l.next size)

/-- `writei` looks at the offset. -/
def Rejected (ip : Inode) (offset size : ℕ) : Prop :=
  ip.dinode.size < offset ∨ (offset + size) % 2 ^ 32 < offset ∨ NADDR ≤ offset / SECTSIZE ∨
    NADDR * SECTSIZE < offset + size

instance decidableRejected (ip : Inode) (offset size : ℕ) : Decidable (Rejected ip offset size) :=
  inferInstanceAs (Decidable (_ ∨ _))

/-- `writei`. -/
def writei (devsw : ℕ → Devsw) (ip : Inode) (src : Bytes) (offset size : ℕ) : Kern ℤ := do
  if ip.dinode.type = T_DEV then
    if NDEV ≤ ip.devno then
      return -1
    match (devsw ip.devno).write with
    | none => return -1
    | some write => return write src size
  if Rejected ip offset size then
    return -1
  iterate .loop (writeTurn ip src size) (size + 1) ⟨0, offset⟩
  return toInt size

variable {s t : State} {n : ℕ} {E : Panic → Prop} {ip : Inode} {size : ℕ} {l : Loop}

/-! ## One turn -/

theorem Loop.m_pos (h : l.cnt < size) : 0 < l.m size := by
  simp only [Loop.m, SECTSIZE]
  omega

/-- The loop moves the bytes of one block, and of no more than `size`. -/
theorem Loop.m_le (h : l.cnt < size) :
    l.cnt + l.m size ≤ size ∧ l.offset % SECTSIZE + l.m size ≤ SECTSIZE := by
  simp only [Loop.m, SECTSIZE]
  omega

theorem wp_readTurn (h : Quiet s) {dst : Bytes} {Q : (Loop × Bytes) ⊕ Bytes → State → Prop}
    (hdone : size ≤ l.cnt → Q (.inr dst) s)
    (hE : l.cnt < size → NSECTOR ≤ ip.dinode.addr (l.offset / SECTSIZE) → E .blockno)
    (hgo : l.cnt < size → ip.dinode.addr (l.offset / SECTSIZE) < NSECTOR →
      Q (.inl (l.next size, moveOut (view s (ip.dinode.addr (l.offset / SECTSIZE)))
      (l.offset % SECTSIZE) dst l.cnt (l.m size)))
      (s.access (ip.dinode.addr (l.offset / SECTSIZE)) true (view s (ip.dinode.addr (l.offset / SECTSIZE))))) :
    wp E (readTurn ip size (l, dst)) Q s := by
  simp only [readTurn, wp_ite, wp_pure, wp_bind]
  split
  next hge => exact hdone (by omega)
  next hlt =>
    rw [not_not] at hlt
    refine wp_bread h (hE hlt) fun hn => ?_
    simp only [wp_get, State.setBlock_blocks, Function.update_self]
    exact wp_brelse (hgo hlt hn)

/-- The data of a block after a turn of `writei`: those that a reader finds are overwritten, or
those that are in the buffer. -/
def written (s : State) (ip : Inode) (src : Bytes) (size : ℕ) (l : Loop) : Sector :=
  moveIn src l.cnt
    (if l.m size = SECTSIZE then (s.blocks (slot s (ip.dinode.addr (l.offset / SECTSIZE)))).data
      else view s (ip.dinode.addr (l.offset / SECTSIZE))) (l.offset % SECTSIZE) (l.m size)

/-- The buffer is valid after a turn of `writei` that writes a part of it; `bget` does not care. -/
def writtenValid (s : State) (ip : Inode) (size : ℕ) (l : Loop) : Bool :=
  if l.m size = SECTSIZE then hit s (ip.dinode.addr (l.offset / SECTSIZE)) else true

theorem wp_writeTurn (h : Quiet s) {src : Bytes} {Q : Loop ⊕ Unit → State → Prop}
    (hdone : size ≤ l.cnt → Q (.inr ()) s)
    (hE : l.cnt < size → l.m size ≠ SECTSIZE → NSECTOR ≤ ip.dinode.addr (l.offset / SECTSIZE) →
      E .blockno)
    (hgo : l.cnt < size →
      (l.m size ≠ SECTSIZE → ip.dinode.addr (l.offset / SECTSIZE) < NSECTOR) →
      Q (.inl (l.next size))
      (s.access (ip.dinode.addr (l.offset / SECTSIZE)) (writtenValid s ip size l)
        (written s ip src size l))) :
    wp E (writeTurn ip src size l) Q s := by
  simp only [writeTurn, wp_ite, wp_pure, wp_bind]
  split
  next hge => exact hdone (by omega)
  next hlt =>
    rw [not_not] at hlt
    split
    next hwhole =>
      have hnext := hgo hlt (absurd hwhole)
      simp only [written, writtenValid, if_pos hwhole] at hnext
      refine wp_bget h ?_
      simp only [wp_modify, State.setBlock_blocks, Function.update_self, State.setBlock_setBlock]
      exact wp_brelse hnext
    next hpart =>
      refine wp_bread h (hE hlt hpart) fun hn => ?_
      have hnext := hgo hlt fun _ => hn
      simp only [written, writtenValid, if_neg hpart] at hnext
      simp only [wp_modify, State.setBlock_blocks, Function.update_self, State.setBlock_setBlock]
      exact wp_brelse hnext

end Mixv6.Fs.Cache
