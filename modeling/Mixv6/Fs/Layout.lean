import Mixv6.Fs.Inode
import Mixv6.Lib.Mem

/-!
# Inodes and directories on the disk

`struct dinode` and `struct directory` as the bytes of a sector.

## Main definitions

* `dinodeAt`, `entryAt` — the structures at an address.
* `copyDinode` — the copy of a sector to an inode in memory.
-/

namespace Mixv6.Fs

open Mixv6.Lib
open Cache (Sector SECTSIZE)
open Mixv6.Syscall (Dinode NADDR FNAMESIZ NDIRENT)

/-- The bytes of a sector from address 0 on. -/
def bytes (data : Sector) : Mem := fun a => data (Fin.ofNat SECTSIZE a)

/-- The `struct dinode` at address `a`. -/
def dinodeAt (m : Mem) (a : ℕ) : Dinode where
  type := m.load16 a
  uid := m.load16 (a + 2)
  gid := m.load16 (a + 4)
  mode := m.load16 (a + 6)
  nlink := m.load32 (a + 8)
  size := m.load32 (a + 12)
  addr k := m.load32 (a + 16 + 4 * k)

/-- `dir[i]` of the `struct directory` at address `a`: the inode number and the name. -/
def entryAt (m : Mem) (a i : ℕ) : ℕ × List UInt8 :=
  (m.load32 (a + 32 * i), m.read (a + 32 * i + 4) FNAMESIZ)

/-- `memmove(b->data, &ip->type, SECTSIZE)`, which ends with the last address. -/
def copyDinode (d : Dinode) (data : Sector) : Dinode :=
  let new := dinodeAt (bytes data) 0
  { new with addr := fun k => if k < NADDR then new.addr k else d.addr k }

end Mixv6.Fs
