import Mixv6.Lib.Machine
import Mixv6.Syscall.Tables

/-!
# System calls

The process table of `kernel/proc.c` and the system calls of `kernel/syscall`, as far as they
work on the three tables.  What a call finds in its arguments, in the memory and on the disk
is a parameter of the call: so is whether `kalloc`, `copyuvm` and the loader succeed.

## Main definitions

* `palloc`, `pfree`, `fdalloc`, `collect_zombies` — the process table.
* `Call`, `Call.run` — the system calls.
* `boot` — `fsinit` and `uinit`.
* `callMachine` — any process that is able to run makes a call.
-/

namespace Mixv6.Syscall

open Mixv6.Lib Mixv6.Kernel

/-! ## `kernel/proc.c` -/

/-- `palloc`; `kstack` says whether `kalloc` finds a page.  `none` when there is no slot or no
page. -/
def palloc (maker : Option ℕ) (kstack : Bool) : Kern (Option Slot) := do
  let s ← get
  match first fun i => s.tab.stat i = .UNUSED with
  | none => return none
  | some i =>
      -- memset(p, 0, sizeof(struct proc)): the slot is UNUSED already.
      let s := { s.setProc i .zero with
        tab := { s.tab with wchan := Function.update s.tab.wchan i none } }
      set s
      if ¬ kstack then
        return none
      set { s.setProc i { Proc.zero with pid := s.nextpid } with
        tab := { s.tab with stat := Function.update s.tab.stat i .SET }
        nextpid := (s.nextpid + 1) % 2 ^ 32
        waits := Function.update s.waits i false
        past := { s.past with
          made := s.past.made + 1
          birth := Function.update s.past.birth i s.past.made
          maker := Function.update s.past.maker i maker } }
      setOfile i 0 (← fget STDIN)
      setOfile i 1 (← fget STDOUT)
      return some i
where
  /-- `p->ofile[fd] = f`. -/
  setOfile (p : Slot) (fd : Fd) (f : FileId) : Kern Unit := modify fun s =>
    s.setProc p { s.proc p with ofile := Function.update (s.proc p).ofile fd (some f) }

/-- `pfree`. -/
def pfree (p : Slot) : Kern Unit := do
  each (fun fd => do
    if ((← get).proc p).ofile fd ≠ none then
      ffree (((← get).proc p).ofile fd)
      modify fun s =>
        s.setProc p { s.proc p with ofile := Function.update (s.proc p).ofile fd none })
    (List.finRange NOFILE)
  if ((← get).proc p).cwd ≠ none then
    irelse ((← get).proc p).cwd
    modify fun s => s.setProc p { s.proc p with cwd := none }
  modify fun s => { s with tab := { s.tab with stat := Function.update s.tab.stat p .UNUSED } }

/-- `fdalloc`, for process `p`; `none` when all its descriptors are in use. -/
def fdalloc (p : Slot) (f : FileId) : Kern (Option Fd) := do
  let s ← get
  match first fun fd => (s.proc p).ofile fd = none with
  | none => return none
  | some fd =>
      set (s.setProc p { s.proc p with ofile := Function.update (s.proc p).ofile fd (some f) })
      return some fd

/-- `collect_zombies`, for process `p`. -/
def collect_zombies (p : Slot) : Kern Unit :=
  each (fun i => do
    let s ← get
    if (s.proc i).pproc = some p ∧ s.tab.stat i = .ZOMB then
      pfree i) (List.finRange NPROC)

/-- `sleep`, up to its loop. -/
def sleep (p : Slot) (wchan : Slot) : Kern Unit :=
  modify fun s => { s with tab := s.tab.sleep p wchan }

/-- `wakeup`. -/
def wakeup (wchan : Slot) : Kern Unit :=
  modify fun s => { s with tab := s.tab.wakeup (some wchan) }

/-! ## `kernel/syscall` -/

/-- `argfd`: the file of a descriptor. -/
def argfd (s : State) (p : Slot) (fd : ℤ) : Option FileId :=
  if fd < 0 ∨ NOFILE ≤ fd then none else (s.proc p).ofile (Fin.ofNat NOFILE fd.toNat)

/-- `sys_read` and `sys_write` of process `p`, which differ in the routine that returns `r`:
`readi` or `writei`.  `buf` says whether the buffer is not null. -/
def sys_rw (p : Slot) (fd : ℤ) (buf : Bool) (size r : ℤ) : Kern ℤ := do
  let s ← get
  match argfd s p fd with
  | none => return -1
  | some f =>
      if ¬ buf ∨ size < 0 then
        return -1
      if 0 < r then
        set (s.setFile f { s.file f with offset := ((s.file f).offset + r.toNat) % 2 ^ 32 })
      return r

/-- `sys_open`. -/
def sys_open (p : Slot) (c : Contents) (path : Option (List UInt8)) : Kern ℤ := do
  match ← namei c path with
  | none => return -1
  | some ip =>
      match ← falloc with
      | none => return -1
      | some f =>
          match ← fdalloc p f with
          | none =>
              ffree (some f)
              return -1
          | some fd =>
              modify fun s => s.setFile f { s.file f with inode := some ip, offset := 0 }
              return fd

/-- `sys_close`. -/
def sys_close (p : Slot) (fd : ℤ) : Kern ℤ := do
  if fd < 2 ∨ NOFILE ≤ fd then
    return -1
  let i := Fin.ofNat NOFILE fd.toNat
  ffree (((← get).proc p).ofile i)
  modify fun s => s.setProc p { s.proc p with ofile := Function.update (s.proc p).ofile i none }
  return 0

/-- The loop of `sys_fork` over the descriptors. -/
def copyFiles (p np : Slot) : Kern Unit :=
  each (fun fd => do
    match ((← get).proc p).ofile fd with
    | none => pure ()
    | some f =>
        let f ← fdup f
        modify fun s => s.setProc np
          { s.proc np with ofile := Function.update (s.proc np).ofile fd (some f) })
    (List.finRange NOFILE)

/-- `sys_fork`; `space` says whether `copyuvm` succeeds. -/
def sys_fork (p : Slot) (kstack space : Bool) : Kern ℤ := do
  let me := (← get).past.birth p
  match ← palloc (some me) kstack with
  | none => return -1
  | some np =>
      if ¬ space then
        pfree np
        return -1
      modify fun s => s.setProc np { s.proc np with pproc := some p }
      copyFiles p np
      let cwd ← idup ((← get).proc p).cwd
      modify fun s => s.setProc np { s.proc np with cwd }
      modify fun s => { s with
        tab := { s.tab with stat := Function.update s.tab.stat np .RUN }
        past := { s.past with forks := s.past.forks + 1 } }
      return ((← get).proc np).pid

/-- `sys_execv`; `load` says whether the program is loaded.  No path gives the inode that
`namei` returns back. -/
def sys_execv (c : Contents) (path : Option (List UInt8)) (load : Bool) : Kern ℤ := do
  match ← namei c path with
  | none => return -1
  | some _ => return if load then 0 else -1

/-- `sys_exit`, up to `sched`. -/
def sys_exit (p : Slot) : Kern ℤ := do
  modify fun s => { s with tab := { s.tab with stat := Function.update s.tab.stat p .ZOMB } }
  match ((← get).proc p).pproc with
  | none => return 0
  | some parent =>
      wakeup parent
      return 0

/-- The first part of `sys_wait`: the process sleeps. -/
def sys_wait (p : Slot) : Kern ℤ := do
  sleep p p
  modify fun s => { s with waits := Function.update s.waits p true }
  return 0

/-- The second part of `sys_wait`: somebody has woken the process. -/
def sys_wait_return (p : Slot) : Kern ℤ := do
  collect_zombies p
  modify fun s => { s with waits := Function.update s.waits p false }
  return 0

/-- A system call, with what it finds in its arguments, in the memory and on the disk. -/
inductive Call
  | read (fd : ℤ) (buf : Bool) (size r : ℤ)
  | write (fd : ℤ) (buf : Bool) (size r : ℤ)
  | open (c : Contents) (path : Option (List UInt8))
  | close (fd : ℤ)
  | fork (kstack space : Bool)
  | execv (c : Contents) (path : Option (List UInt8)) (load : Bool)
  | exit
  | wait
  /-- The end of `sys_wait`. -/
  | waitReturn

/-- The call of process `p`. -/
def Call.run (p : Slot) : Call → Kern ℤ
  | .read fd buf size r => sys_rw p fd buf size r
  | .write fd buf size r => sys_rw p fd buf size r
  | .open c path => sys_open p c path
  | .close fd => sys_close p fd
  | .fork kstack space => sys_fork p kstack space
  | .execv c path load => sys_execv c path load
  | .exit => sys_exit p
  | .wait => sys_wait p
  | .waitReturn => sys_wait_return p

/-- Process `p` can make the call: it runs, and it returns from `sys_wait` before it calls
anything else. -/
def Ready (s : State) (p : Slot) : Call → Bool
  | .waitReturn => s.tab.stat p = .RUN && s.waits p
  | _ => s.tab.stat p = .RUN && ! s.waits p

/-! ## The system -/

/-- `fsinit`. -/
def fsinit : Kern Unit := do
  console STDIN
  console STDOUT
where
  console (f : FileId) : Kern Unit := do
    match ← ialloc with
    | none => throw .uinit
    | some ip =>
        modify fun s => s.setInode ip { s.inode ip with
          devno := DEV_CONSOLE, dinode := { (s.inode ip).dinode with type := T_DEV } }
        modify fun s => s.setFile f { s.file f with refcnt := 1, inode := some ip }

/-- `uinit`, where there is memory for the first process. -/
def uinit (c : Contents) : Kern Unit := do
  modify fun s => { s with tab := { s.tab with stat := Function.update s.tab.stat 0 .ZOMB } }
  match ← palloc none true with
  | none => throw .uinit
  | some p =>
      let ip ← getrootdir c
      modify fun s => { s.setProc p { s.proc p with cwd := some ip } with
        tab := { s.tab with stat := Function.update s.tab.stat p .RUN } }

/-- The tables before the kernel starts. -/
def State.zero : State where
  file _ := ⟨0, none, 0⟩
  inode _ := ⟨0, 0, false, 0, ⟨0, 0, 0, 0, 0, 0, fun _ => 0⟩⟩
  proc _ := .zero
  tab := ⟨fun _ => .UNUSED, fun _ => none⟩
  nextpid := 0
  waits _ := false
  past := ⟨0, fun _ => 0, fun _ => none, 0⟩

/-- The state in which the first process starts. -/
def boot (c : Contents) : Except Panic State := do
  let ((), s) ← (do fsinit; uinit c : Kern Unit) .zero
  return s

/-- The system: a process that is able to run makes a call. -/
def callMachine : Machine State (Slot × Call) where
  step s e := if Ready s e.1 e.2 then (e.2.run e.1 s).toOption.map Prod.snd else none

end Mixv6.Syscall
