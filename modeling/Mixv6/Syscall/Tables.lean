import Mixv6.Kernel.Sched
import Mixv6.Lib.Wp
import Mathlib.Data.List.FinRange

/-!
# The file table and the inode table

`fs/file.c` and the table of `fs/inode.c`, on a state that also holds the process table.
Pointers into a table are indices, null pointers are `none`.

A system call runs to the end without another process in between, but for `sys_wait`, so
`pushcli` and `popcli` are left out.  What `bread` returns is a parameter of a call: the
blocks on the disk may change between two calls.

## Main definitions

* `File`, `Inode`, `Proc`, `State` — the three tables.
* `fget`, `falloc`, `ffree`, `fdup` — the file table.
* `ialloc`, `iget`, `irelse`, `idup`, `namei` — the inode table.
-/

namespace Mixv6.Syscall

open Mixv6.Lib Mixv6.Kernel

/-! ## The tables -/

/-- `NELEM(file)`. -/
def NFILE : ℕ := 64

/-- `NELEM(inode)`. -/
def NINODE : ℕ := 64

/-- The number of descriptors of a process. -/
def NOFILE : ℕ := 32

/-- The length of a name in a directory. -/
def FNAMESIZ : ℕ := 28

/-- The number of entries of a directory. -/
def NDIRENT : ℕ := 16

/-- The number of block addresses of an inode. -/
def NADDR : ℕ := 124

instance neZeroNFILE : NeZero NFILE := ⟨by decide⟩
instance neZeroNINODE : NeZero NINODE := ⟨by decide⟩
instance neZeroNOFILE : NeZero NOFILE := ⟨by decide⟩

/-- An index of `file`. -/
abbrev FileId := Fin NFILE

/-- An index of `inode`. -/
abbrev InodeId := Fin NINODE

/-- An index of `ofile`. -/
abbrev Fd := Fin NOFILE

/-- `struct file`. -/
structure File where
  refcnt : ℕ
  inode : Option InodeId
  offset : ℕ

/-- `struct dinode`. -/
structure Dinode where
  type : ℕ
  uid : ℕ
  gid : ℕ
  mode : ℕ
  nlink : ℕ
  size : ℕ
  addr : ℕ → ℕ

/-- `T_DEV`. -/
def T_DEV : ℕ := 3

/-- `DEV_CONSOLE`. -/
def DEV_CONSOLE : ℕ := 1

/-- `struct inode`, without its lock. -/
structure Inode where
  num : ℕ
  refcnt : ℕ
  valid : Bool
  devno : ℕ
  dinode : Dinode

/-- The fields of `struct proc` that the system calls use, but for `stat` and `wchan`. -/
structure Proc where
  pid : ℕ
  pproc : Option Slot
  cwd : Option InodeId
  ofile : Fd → Option FileId

/-- A cleared slot. -/
def Proc.zero : Proc := ⟨0, none, none, fun _ => none⟩

/-- What no code reads: how many processes have been made, which of them is in a slot and
which of them forked it, and how many forks have succeeded. -/
structure History where
  made : ℕ
  birth : Slot → ℕ
  maker : Slot → Option ℕ
  forks : ℕ

/-- The tables.  `waits` says which processes are in `sys_wait`, after `sleep`. -/
structure State where
  file : FileId → File
  inode : InodeId → Inode
  proc : Slot → Proc
  tab : ProcTab Slot Slot
  nextpid : ℕ
  waits : Slot → Bool
  past : History

/-- Why the kernel stops. -/
inductive Panic
  /-- `panic("ffree(1)")`. -/
  | ffree1
  /-- `panic("ffree(2)")`. -/
  | ffree2
  /-- `panic("fdup")`. -/
  | fdup
  /-- `panic("irelse")`. -/
  | irelse
  /-- `panic("idup")`. -/
  | idup
  /-- `panic("no rootdir")`. -/
  | rootdir
  /-- `panic("uinit: palloc")`. -/
  | uinit
  deriving DecidableEq, Repr

/-- A routine of the kernel. -/
abbrev Kern (α : Type) := Prog State Panic α

namespace State

def setFile (s : State) (i : FileId) (f : File) : State :=
  { s with file := Function.update s.file i f }

def setInode (s : State) (i : InodeId) (ip : Inode) : State :=
  { s with inode := Function.update s.inode i ip }

def setProc (s : State) (p : Slot) (q : Proc) : State :=
  { s with proc := Function.update s.proc p q }

section Fields
variable (s : State) (i : FileId) (f : File) (j : InodeId) (ip : Inode) (p : Slot) (q : Proc)

@[simp] theorem setFile_file : (s.setFile i f).file = Function.update s.file i f := rfl
@[simp] theorem setFile_inode : (s.setFile i f).inode = s.inode := rfl
@[simp] theorem setFile_proc : (s.setFile i f).proc = s.proc := rfl
@[simp] theorem setFile_tab : (s.setFile i f).tab = s.tab := rfl
@[simp] theorem setFile_waits : (s.setFile i f).waits = s.waits := rfl
@[simp] theorem setFile_past : (s.setFile i f).past = s.past := rfl

@[simp] theorem setInode_file : (s.setInode j ip).file = s.file := rfl
@[simp] theorem setInode_inode : (s.setInode j ip).inode = Function.update s.inode j ip := rfl
@[simp] theorem setInode_proc : (s.setInode j ip).proc = s.proc := rfl
@[simp] theorem setInode_tab : (s.setInode j ip).tab = s.tab := rfl
@[simp] theorem setInode_waits : (s.setInode j ip).waits = s.waits := rfl
@[simp] theorem setInode_past : (s.setInode j ip).past = s.past := rfl

@[simp] theorem setProc_file : (s.setProc p q).file = s.file := rfl
@[simp] theorem setProc_inode : (s.setProc p q).inode = s.inode := rfl
@[simp] theorem setProc_proc : (s.setProc p q).proc = Function.update s.proc p q := rfl
@[simp] theorem setProc_tab : (s.setProc p q).tab = s.tab := rfl
@[simp] theorem setProc_waits : (s.setProc p q).waits = s.waits := rfl
@[simp] theorem setProc_past : (s.setProc p q).past = s.past := rfl

end Fields
end State

/-- The first entry of a table that satisfies a test. -/
def first {n : ℕ} (test : Fin n → Bool) : Option (Fin n) := (List.finRange n).find? test

theorem of_first {n : ℕ} {test : Fin n → Bool} {i : Fin n} (h : first test = some i) :
    test i = true := List.find?_some h

theorem not_of_first {n : ℕ} {test : Fin n → Bool} (h : first test = none) (i : Fin n) :
    test i = false := by
  have hall := List.find?_eq_none.mp h i (List.mem_finRange i)
  simpa using hall

/-- No entry before the first one satisfies the test. -/
theorem lt_of_first {n : ℕ} {test : Fin n → Bool} {i j : Fin n} (h : first test = some i)
    (hj : j < i) : test j = false := by
  obtain ⟨-, k, hk, hki, hlt⟩ := List.find?_eq_some_iff_getElem.mp h
  have hik : i.val = k := by
    rw [← hki]
    simp
  have hjk := hlt j (by omega)
  simpa using hjk

theorem first_eq_some {n : ℕ} {test : Fin n → Bool} {i : Fin n} (hi : test i = true)
    (hlt : ∀ j, j < i → test j = false) : first test = some i := by
  rcases hfirst : first test with _ | j
  · rw [not_of_first hfirst i] at hi
    cases hi
  · rcases lt_trichotomy j i with hji | hji | hji
    · have hj := of_first hfirst
      rw [hlt j hji] at hj
      cases hj
    · rw [hji]
    · rw [lt_of_first hfirst hji] at hi
      cases hi

/-! ## `fs/file.c` -/

/-- The entry of the file table for the standard input. -/
def STDIN : FileId := 0

/-- The entry of the file table for the standard output. -/
def STDOUT : FileId := 1

/-- `fget`. -/
def fget (index : FileId) : Kern FileId := do
  let s ← get
  set (s.setFile index { s.file index with refcnt := ((s.file index).refcnt + 1) % 2 ^ 32 })
  return index

/-- `falloc`; `none` when the table is full. -/
def falloc : Kern (Option FileId) := do
  let s ← get
  match first fun i => (s.file i).refcnt = 0 with
  | none => return none
  | some i =>
      set (s.setFile i { s.file i with refcnt := 1 })
      return some i

/-- `ffree`. -/
def ffree : Option FileId → Kern Unit
  | none => throw .ffree1
  | some f => do
      let s ← get
      if (s.file f).refcnt < 1 then throw .ffree2
      set (s.setFile f { s.file f with refcnt := (s.file f).refcnt - 1 })

/-- `fdup`, of a pointer that is not null. -/
def fdup (f : FileId) : Kern FileId := do
  let s ← get
  if (s.file f).refcnt < 1 then throw .fdup
  set (s.setFile f { s.file f with refcnt := ((s.file f).refcnt + 1) % 2 ^ 32 })
  return f

/-! ## `fs/inode.c` -/

/-- A directory: inode numbers and names. -/
abbrev Directory := List (ℕ × List UInt8)

/-- What the disk holds when a call reads it: the superblock's `rootdir`, the inode in a
sector, the directory in a sector. -/
structure Contents where
  rootdir : ℕ
  dinode : ℕ → Dinode
  directory : ℕ → Directory

/-- `ialloc`; `none` when the table is full. -/
def ialloc : Kern (Option InodeId) := do
  let s ← get
  match first fun i => ¬ (s.inode i).valid with
  | none => return none
  | some i =>
      set (s.setInode i { s.inode i with valid := true, refcnt := 1 })
      return some i

/-- `iget`; `none` when the table is full. -/
def iget (c : Contents) (inum : ℕ) : Kern (Option InodeId) := do
  let s ← get
  match first fun i => (s.inode i).valid && (s.inode i).num == inum with
  | some i =>
      set (s.setInode i { s.inode i with refcnt := ((s.inode i).refcnt + 1) % 2 ^ 16 })
      return some i
  | none =>
      match first fun i => ¬ (s.inode i).valid with
      | none => return none
      | some i =>
          set (s.setInode i ⟨inum, 1, true, 0, c.dinode inum⟩)
          return some i

/-- `irelse`. -/
def irelse : Option InodeId → Kern Unit
  | none => throw .irelse
  | some ip => do
      let s ← get
      if 1 < (s.inode ip).refcnt then
        set (s.setInode ip { s.inode ip with refcnt := (s.inode ip).refcnt - 1 })
      else
        set (s.setInode ip { s.inode ip with valid := false })

/-- `idup`. -/
def idup : Option InodeId → Kern (Option InodeId)
  | none => throw .idup
  | some ip => do
      let s ← get
      set (s.setInode ip { s.inode ip with refcnt := ((s.inode ip).refcnt + 1) % 2 ^ 16 })
      return some ip

/-- `getrootdir`. -/
def getrootdir (c : Contents) : Kern InodeId := do
  match ← iget c c.rootdir with
  | none => throw .rootdir
  | some ip => return ip

/-- `strcmp` of `lib/string.c`; a list is a string up to its terminator. -/
def strcmp (p q : List UInt8) : ℕ → Bool
  | 0 => true
  | limit + 1 =>
      if p.headD 0 = 0 then q.headD 0 = 0
      else if p.headD 0 ≠ q.headD 0 then false
      else strcmp p.tail q.tail limit

/-- `dirlookup`. -/
def dirlookup (c : Contents) (d : Directory) (fname : List UInt8) : Kern (Option InodeId) :=
  match (d.take NDIRENT).find? fun e => strcmp fname e.2 FNAMESIZ with
  | none => return none
  | some (ino, _) => iget c ino

/-- `namei`, of a path or a null pointer. -/
def namei (c : Contents) : Option (List UInt8) → Kern (Option InodeId)
  | none => return none
  | some path => do
      let ip ← getrootdir c
      if path.headD 0 = 0x2F then
        return some ip
      let b := c.directory (((← get).inode ip).dinode.addr 0)
      irelse (some ip)
      dirlookup c b path

end Mixv6.Syscall
