import Mixv6.Fs.Layout
import Mixv6.Fs.Store
import Mathlib.Algebra.Order.Ring.Int

/-!
# The program that makes the disk image

`mkfs.c`.  It works on `bin`, the image, and on `used_block`, which says what sectors it has
given away.  A store outside of the two, and an argument that is too short for its prefix, end
the program here with an error; so does a file that cannot be opened or is too large, after
which the program writes no image.

The files are lists of bytes.  `fread` fills the last sector of a file as far as the file goes.

## Main definitions

* `Disk`, `Stop` — what the program works on, and why it writes no image.
* `ialloc`, `balloc` — the allocators.
* `addKernel`, `addRootdir`, `addFile`, `freeList` — the parts of `main`.
* `main` — the program.
-/

namespace Mixv6.Fs.Mkfs

open Mixv6.Lib
open Cache (toInt T_FILE)
open Mixv6.Syscall (FNAMESIZ)

/-- `bin` and `used_block`. -/
structure Disk where
  bin : Mem
  used_block : ℕ → Bool

/-- Both are zeroed. -/
def Disk.zero : Disk := ⟨fun _ => 0, fun _ => false⟩

/-- Why there is no image. -/
inductive Stop
  /-- A store or a pointer outside of an array. -/
  | bounds
  /-- "no bootblock", "no kernel" and "no file". -/
  | noFile
  /-- "file size too large". -/
  | tooLarge
  deriving DecidableEq, Repr

/-- A part of the program. -/
abbrev Mk (α : Type) := Prog Disk Stop α

/-- `DISKSIZE`. -/
def DISKSIZE : ℕ := 4 * 1024 * 1024

/-- The number of entries of `used_block`. -/
def NBLOCKS : ℕ := 8192

/-- The first sector behind the inodes. -/
def NINODES : ℕ := 2048

/-- `T_DIR`. -/
def T_DIR : ℕ := 1

/-! ## Stores to the image -/

/-- A store of `n` bytes to `bin`, from index `a` on. -/
def poke (a : ℤ) (n : ℕ) (f : ℕ → Mem → Mem) : Mk Unit := do
  if n ≠ 0 ∧ (a < 0 ∨ (DISKSIZE : ℤ) < a + n) then throw .bounds
  modify fun s => { s with bin := f a.toNat s.bin }

/-- A store of an `int`. -/
def putInt (a v : ℤ) : Mk Unit := poke a 4 fun a m => m.store32 a (v % 2 ^ 32).toNat

/-- A store of a `short`. -/
def putShort (a v : ℤ) : Mk Unit := poke a 2 fun a m => m.store16 a (v % 2 ^ 16).toNat

/-- A store of bytes. -/
def putBytes (a : ℤ) (bs : List UInt8) : Mk Unit := poke a bs.length fun a m => m.write a bs

/-- `fread` of `n` sectors. -/
def fread (a n : ℤ) (data : List UInt8) : Mk Unit :=
  putBytes a (data.take (512 * (n % 2 ^ 64).toNat))

/-- The characters of a string, without the terminator. -/
def cstr (s : List UInt8) : List UInt8 := s.takeWhile (· ≠ 0)

/-- What `strncpy` stores. -/
def strncpy (s : List UInt8) (n : ℕ) : List UInt8 :=
  (cstr s).take n ++ List.replicate (n - (cstr s).length) 0

/-! ## The allocators -/

/-- `used_block[i] = 1`. -/
def mark (i : ℕ) : Mk Unit := do
  if NBLOCKS ≤ i then throw .bounds
  modify fun s => { s with used_block := Function.update s.used_block i true }

/-- `ialloc`. -/
def ialloc : Mk ℤ := do
  let s ← get
  match (List.range' 2 (NINODES - 2)).find? fun i => !s.used_block i with
  | some i =>
      mark i
      return i
  | none => return -1

/-- `balloc`. -/
def balloc (blocksize : ℤ) : Mk ℤ := do
  let s ← get
  match (List.range' NINODES (NBLOCKS - NINODES)).find? fun i => !s.used_block i with
  | some i =>
      each (fun j => mark (i + j)) (List.range' 0 blocksize.toNat)
      return i
  | none => return -1

/-! ## The parts of `main` -/

/-- The number of sectors of a file, in an `int`. -/
def sectorsOf (size : ℕ) : ℤ := toInt ((size + 511) / 512 % 2 ^ 32)

/-- The stores to the fields of an inode. -/
def setInode (a type size : ℤ) : Mk Unit := do
  putShort a type
  putShort (a + 2) 0
  putShort (a + 4) 0
  putShort (a + 6) 0x755
  putInt (a + 8) 1
  putInt (a + 12) size

/-- "add boot block". -/
def addBoot (boot : List UInt8) : Mk Unit := do
  fread 0 1 boot
  mark 0

/-- "add kernel". -/
def addKernel (kernel : List UInt8) : Mk Unit := do
  let blocksize := sectorsOf kernel.length
  let block ← balloc blocksize
  putInt (512 + 12) block
  fread (block * 512) blocksize kernel

/-- "make rootdir": the sector of the directory. -/
def addRootdir : Mk ℤ := do
  let ino ← ialloc
  putInt (512 + 8) ino
  setInode (ino * 512) T_DIR 512
  let block ← balloc 512
  putInt (ino * 512 + 16) block
  return block

/-- The files that the program can open. -/
structure Files where
  bootblock : Option (List UInt8)
  kernel : Option (List UInt8)
  file : List UInt8 → Option (List UInt8)

/-- "add files": the turn for the argument at index `i + 1`; `dir` is the sector of the
directory. -/
def addFile (fs : Files) (dir : ℤ) (i : ℕ) (arg : List UInt8) : Mk Unit := do
  let ino ← ialloc
  putInt (dir * 512 + 32 * i) ino
  -- `&argv[i][7]` skips "build/_".
  if arg.length < 7 then throw .bounds
  putBytes (dir * 512 + 32 * i + 4) (strncpy (arg.drop 7) FNAMESIZ)
  match fs.file arg with
  | none => throw .noFile
  | some data =>
      let blocksize := sectorsOf data.length
      if 124 < blocksize then throw .tooLarge
      let blockno ← balloc blocksize
      setInode (ino * 512) T_FILE data.length
      each (fun j : ℕ => putInt (ino * 512 + 16 + 4 * j) (blockno + j))
        (List.range' 0 blocksize.toNat)
      fread (blockno * 512) blocksize data

/-- The loop over the arguments. -/
def addFiles (fs : Files) (dir : ℤ) : ℕ → List (List UInt8) → Mk Unit
  | _, [] => pure ()
  | i, arg :: args => do
      addFile fs dir i arg
      addFiles fs dir (i + 1) args

/-- The loops of "make free inode list" and "make free datablock list". -/
def freeTurns : List ℤ → ℕ → ℤ → Mk Unit
  | [], _, _ => pure ()
  | i :: is, cnt, block => do
      putInt (block + 4 * cnt) i
      if cnt = 127 then freeTurns is 0 (i * 512) else freeTurns is (cnt + 1) block

/-- The list of the free sectors from `start` on, up to `stop`. -/
def freeList (start : ℤ) (stop : ℕ) : Mk Unit :=
  freeTurns ((List.range (stop - start).toNat).map fun k : ℕ => start + k) 0 (start * 512)

/-- `main`. -/
def main (fs : Files) (argv : List (List UInt8)) : Mk Unit := do
  match fs.bootblock with
  | none => throw .noFile
  | some boot => addBoot boot
  match fs.kernel with
  | none => throw .noFile
  | some kernel => addKernel kernel
  let dir ← addRootdir
  addFiles fs dir 0 argv
  let freeino ← ialloc
  putInt (512 + 20) freeino
  freeList freeino NINODES
  let freeblock ← balloc 512
  putInt (512 + 16) freeblock
  freeList freeblock NBLOCKS
  putInt (512 + 4) 127
  putInt 512 127

/-- The image that the program writes. -/
def image (fs : Files) (argv : List (List UInt8)) : Except Stop Mem :=
  (main fs argv .zero).map fun x => x.2.bin

end Mixv6.Fs.Mkfs
