import Mixv6.Dev.Console
import Mixv6.Fs.Inode
import Mixv6.Lib.Mem

/-!
# Reading the console

`consoleread` from the moment it has been woken up, with the memory it writes, and the way
of the size from `sys_read` through `readi`: an `int`, a `uint32_t` and an `int` again.

`consoleread` stores a NUL behind the characters and empties the buffer.  With room for
one more character than has been typed, the NUL is in the caller's buffer and nothing is
lost; with less room the NUL is behind the buffer, and what did not fit is dropped.

## Main definitions

* `consoleread`, `readi`, `sys_read` — the routines.
* `Delivers` — the caller has the first characters, and the next read finds the rest.
* `delivers_iff` — so it is if and only if the caller has room for the NUL.
-/

namespace Mixv6.Dev

open Mixv6.Lib
open Mixv6.Fs.Cache (Bytes Devsw toInt)
open Mixv6.Syscall (Inode T_DEV DEV_CONSOLE)

/-- What a read leaves: its result, the memory, the input buffer, and the offset of the file. -/
structure Reading where
  r : ℤ
  mem : Mem
  input : Input
  offset : ℕ

/-- `consoleread`, after `sleep(&input)`.  `min` compares unsigned. -/
def consoleread (i : Input) (m : Mem) (dst : ℕ) (size : ℤ) : ℤ × Mem × Input :=
  let n := toInt (min (size % 2 ^ 32).toNat i.index)
  let m := m.write dst ((List.range n.toNat).map i.buf)
  (n, Function.update m (dst + n.toNat) 0, { i with index := 0 })

/-- `readi` of a device.  `consoleinit` registers the only routine. -/
def readi (i : Input) (m : Mem) (devno dst size : ℕ) : ℤ × Mem × Input :=
  if devno = DEV_CONSOLE then consoleread i m dst (toInt size) else (-1, m, i)

/-- `sys_read` of a file on a device, whose lock is free. -/
def sys_read (i : Input) (m : Mem) (devno offset dst : ℕ) (size : ℤ) : Reading :=
  if dst = 0 ∨ size < 0 then ⟨-1, m, i, offset⟩
  else
    let (r, m, i) := readi i m devno dst (size % 2 ^ 32).toNat
    ⟨r, m, i, if 0 < r then (offset + r.toNat) % 2 ^ 32 else offset⟩

/-- The entries of `devsw`. -/
def devsw (i : Input) (m : Mem) (dst : ℕ) (devno : ℕ) : Devsw where
  read := if devno = DEV_CONSOLE then some fun _ size =>
      let (r, m, _) := consoleread i m dst (toInt size)
      (r, fun k => m (dst + k))
    else none
  write := none

/-- **What a read promises**: it returns as many characters as there are and fit, places
them at `dst`, changes nothing outside of the caller's buffer, and leaves the rest. -/
structure Delivers (i : Input) (m : Mem) (dst size : ℕ) (o : Reading) : Prop where
  result : o.r = min size i.index
  placed : Mem.read o.mem dst (min size i.index) = i.text.take size
  frame : ∀ a, a < dst ∨ dst + size ≤ a → o.mem a = m a
  rest : o.input.text = i.text.drop size

variable {i : Input} {m : Mem} {devno offset dst size : ℕ}

/-- `readi` of an inode of the console is the device branch. -/
theorem readi_eq {ip : Inode} (htype : ip.dinode.type = T_DEV) (hdevno : ip.devno = DEV_CONSOLE)
    (s : Fs.Cache.State) :
    Fs.Cache.readi (devsw i m dst) ip (fun k => m (dst + k)) offset size s =
      .ok (((readi i m ip.devno dst size).1, fun k => (readi i m ip.devno dst size).2.1 (dst + k)), s) := by
  simp only [Fs.Cache.readi, if_pos htype, hdevno, devsw, if_true, readi]
  rfl

theorem text_take (i : Input) (size : ℕ) :
    (List.range (min size i.index)).map i.buf = i.text.take size := by
  rw [Input.text, ← List.map_take, List.take_range]

/-- What `consoleread` does for a size that is an `int`. -/
theorem consoleread_eq (hsize : size < 2 ^ 31) :
    consoleread i m dst size =
      (((min size i.index : ℕ) : ℤ), Function.update (m.write dst (i.text.take size)) (dst + min size i.index) 0,
        { i with index := 0 }) := by
  have hunsigned : ((size : ℤ) % 2 ^ 32).toNat = size := by omega
  have hn : toInt (min size i.index) = (min size i.index : ℕ) := if_pos (by omega)
  simp only [consoleread, hunsigned, hn, Int.toNat_natCast, text_take]

/-- The size reaches `consoleread` unchanged. -/
theorem sys_read_eq (i : Input) (m : Mem) (offset : ℕ) (hdst : dst ≠ 0) (hsize : size < 2 ^ 31) :
    ∃ offset', sys_read i m DEV_CONSOLE offset dst size =
      ⟨(min size i.index : ℕ),
        Function.update (m.write dst (i.text.take size)) (dst + min size i.index) 0,
        { i with index := 0 }, offset'⟩ := by
  have hunsigned : ((size : ℤ) % 2 ^ 32).toNat = size := by omega
  have hint : toInt size = size := if_pos hsize
  have hok : ¬ (dst = 0 ∨ (size : ℤ) < 0) := by omega
  rw [sys_read, if_neg hok, hunsigned, readi, if_pos rfl, hint, consoleread_eq hsize]
  exact ⟨_, rfl⟩

/-- The bytes that are written lie in front of the NUL. -/
theorem length_take_text (i : Input) (size : ℕ) : (i.text.take size).length = min size i.index := by
  rw [List.length_take, Input.text, List.length_map, List.length_range]

/-- **`consoleread`** keeps its promise if and only if the caller has room for the NUL, or there
is a NUL already. -/
theorem delivers_iff (hdst : dst ≠ 0) (hsize : size < 2 ^ 31) :
    Delivers i m dst size (sys_read i m DEV_CONSOLE offset dst size) ↔
      i.index < size ∨ i.index = size ∧ m (dst + size) = 0 := by
  obtain ⟨offset', heq⟩ := sys_read_eq i m offset hdst hsize
  rw [heq]
  have hlen := length_take_text i size
  constructor
  · intro h
    have hrest := congrArg List.length h.rest
    simp only [Input.text, List.range_zero, List.map_nil, List.length_nil, List.length_drop,
      List.length_map, List.length_range] at hrest
    rcases Nat.lt_or_ge i.index size with hlt | hge
    · exact .inl hlt
    · have hindex : i.index = size := by omega
      have hnul := h.frame (dst + size) (.inr le_rfl)
      simp only [hindex, Nat.min_self, Function.update_self] at hnul
      exact .inr ⟨hindex, hnul.symm⟩
  · intro hroom
    refine ⟨rfl, ?_, ?_, ?_⟩
    · have hfront : ∀ k < min size i.index,
          Function.update (m.write dst (i.text.take size)) (dst + min size i.index) 0 (dst + k) =
            m.write dst (i.text.take size) (dst + k) :=
        fun k hk => Function.update_of_ne (by omega) _ _
      rw [Mem.read_congr hfront, ← hlen, Mem.read_write]
    · intro a ha
      by_cases hnul : a = dst + min size i.index
      · -- The NUL is behind the buffer, where there was one.
        subst hnul
        rcases hroom with hlt | ⟨hindex, hzero⟩
        · omega
        · simp only [hindex, Nat.min_self, Function.update_self, hzero]
      · simp only [Function.update_of_ne hnul]
        exact Mem.write_of_ne (by omega)
    · have hle : i.text.length ≤ size := by
        simp only [Input.text, List.length_map, List.length_range]
        omega
      rw [List.drop_eq_nil_of_le hle]
      rfl

/-- Two characters, and room for three bytes. -/
theorem delivers_three :
    Delivers ⟨fun _ => 97, 2⟩ (fun _ => 255) 0x40001000 3
      (sys_read ⟨fun _ => 97, 2⟩ (fun _ => 255) DEV_CONSOLE 0 0x40001000 3) :=
  (delivers_iff (by decide) (by decide)).mpr (.inl (by decide))

/-- Two characters, and room for one: the byte behind the buffer becomes a NUL, and the
second character is gone. -/
theorem not_delivers_one :
    ¬ Delivers ⟨fun _ => 97, 2⟩ (fun _ => 255) 0x40001000 1
      (sys_read ⟨fun _ => 97, 2⟩ (fun _ => 255) DEV_CONSOLE 0 0x40001000 1) := by
  intro h
  have hnul := h.frame 0x40001001 (.inr (by decide))
  exact absurd hnul (by decide)

end Mixv6.Dev
