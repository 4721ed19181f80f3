import Mixv6.Kernel.Lock
import Mixv6.Lib.Machine
import Mathlib.Data.Fin.Basic
import Mathlib.Data.List.FinRange

/-!
# The buffer cache and the disk

`bget`, `bread`, `bwrite` and `brelse` of `fs/bio.c` on top of `sendreq`, `iderw` and
`ideintr` of `dev/ide.c`, as the statements that any number of processes execute with
interrupts enabled.  The bodies of `bget`, `sleep` and `wakeup` run with interrupts off
and are one statement each; so is `sendreq`, which only talks to the drive.  `acquire`
and `release` are the statements of the sleep locks.

The drive works on one request at a time.  It interrupts when the request is done, at
any statement from then on.

## Main definitions

* `Block`, `Stage`, `IoPc` — a buffer, and where a process stands.
* `IoSt`, `IoSt.next`, `IoSt.ideintr` — the statements and the interrupt handler.
* `ioUni` — the processor.
-/

namespace Mixv6.Fs

open Mixv6.Lib Mixv6.Kernel

/-- The number of buffers. -/
def NBLOCK : ℕ := 256

/-- `DISKSIZE / SECTSIZE`. -/
def NSECTOR : ℕ := 0x400000 / 512

instance : NeZero NBLOCK := ⟨by decide⟩

/-- An index of `blocks`. -/
abbrev Buf := Fin NBLOCK

/-- `struct block`, with the two bits of `flags` apart. -/
structure Block (P D : Type) where
  blockno : ℕ
  valid : Bool
  dirty : Bool
  refcnt : ℕ
  lock : Lock P
  data : D

/-- `(b->flags & (B_VALID | B_DIRTY)) == B_VALID`. -/
def Block.ready {P D : Type} (b : Block P D) : Bool := b.valid && !b.dirty

/-- What a process sleeps on here. -/
inductive IoChan
  /-- `sleep(b)`. -/
  | blk (i : Buf)
  /-- `sleep(&b->lock)`. -/
  | lock (i : Buf)
  /-- `sleep(&idelock)`. -/
  | idelock
  deriving DecidableEq, Repr

/-- Where a process stands between the call of `acquire(&b->lock)` and the return of
`release(&b->lock)`. -/
inductive Stage
  | acq (a : Acq)
  /-- After `acquire(&b->lock)`. -/
  | start
  /-- At `if (!holding(&b->lock))` of `iderw`. -/
  | rw
  /-- At the test of `iderw` that there is something to do. -/
  | todo
  | ideAcq (a : Acq)
  /-- At `sendreq(b)`. -/
  | send
  /-- At the test of the loop of `iderw`. -/
  | loop
  /-- At `sleep(b)`. -/
  | sleep
  /-- In `sleep(b)`. -/
  | wait
  | ideRel (r : Rel)
  | rel (r : Rel)
  deriving DecidableEq, Repr

/-- Which function has called `acquire(&b->lock)`. -/
inductive Op
  | read (n : ℕ)
  | write
  deriving DecidableEq, Repr

/-- Where a process stands. -/
inductive IoPc
  /-- Outside. -/
  | idle
  /-- `bread(n)` before `bget(n)`. -/
  | bget (n : ℕ)
  /-- `bread(n)` at `if (b->refcnt > 1)`. -/
  | test (n : ℕ) (i : Buf)
  | io (op : Op) (i : Buf) (st : Stage)
  deriving DecidableEq, Repr

/-- A command the drive is working on; `data` is what a write command has sent. -/
structure Req (P D : Type) where
  proc : P
  buf : Buf
  blockno : ℕ
  data : Option D

/-- What a process outside does next. -/
inductive Bio (D : Type)
  /-- Nothing: the call in progress goes on. -/
  | go
  | bread (n : ℕ)
  /-- `brelse(b)` on a buffer that a `bread(n)` of this process has returned. -/
  | brelse (n : ℕ) (i : Buf)
  /-- Write to the data of such a buffer. -/
  | fill (n : ℕ) (i : Buf) (d : D)
  | bwrite (n : ℕ) (i : Buf)

/-- The buffers, the drive and the processes.  `held` and `log` record what no code
reads: the buffers `bread` has returned and `brelse` has not yet been called on, and
for each interrupt the request it was for and the channel `ideintr` took it for. -/
structure IoSt (P D : Type) where
  pc : P → IoPc
  blocks : Buf → Block P D
  idelock : Lock P
  tab : ProcTab P IoChan
  disk : Option (Req P D)
  sectors : ℕ → D
  held : P → List (ℕ × Buf)
  log : List (Req P D × Option IoChan)

namespace IoSt
variable {P D : Type}

/-- The buffers are zeroed and the drive is idle. -/
def init (stat : P → ProcStat) (zero : D) (sectors : ℕ → D) : IoSt P D where
  pc _ := .idle
  blocks _ := ⟨0, false, false, 0, .free, zero⟩
  idelock := .free
  tab := ⟨stat, fun _ => none⟩
  disk := none
  sectors := sectors
  held _ := []
  log := []

def setBlock (s : IoSt P D) (i : Buf) (b : Block P D) : IoSt P D :=
  { s with blocks := Function.update s.blocks i b }

variable [DecidableEq P]

def goto (s : IoSt P D) (p : P) (pc : IoPc) : IoSt P D :=
  { s with pc := Function.update s.pc p pc }

def setHeld (s : IoSt P D) (p : P) (bs : List (ℕ × Buf)) : IoSt P D :=
  { s with held := Function.update s.held p bs }

section Fields
variable (s : IoSt P D) (p : P) (k : IoPc) (i : Buf) (b : Block P D) (bs : List (ℕ × Buf))

@[simp] theorem goto_pc : (s.goto p k).pc = Function.update s.pc p k := rfl
@[simp] theorem goto_blocks : (s.goto p k).blocks = s.blocks := rfl
@[simp] theorem goto_idelock : (s.goto p k).idelock = s.idelock := rfl
@[simp] theorem goto_tab : (s.goto p k).tab = s.tab := rfl
@[simp] theorem goto_disk : (s.goto p k).disk = s.disk := rfl
@[simp] theorem goto_sectors : (s.goto p k).sectors = s.sectors := rfl
@[simp] theorem goto_held : (s.goto p k).held = s.held := rfl
@[simp] theorem goto_log : (s.goto p k).log = s.log := rfl

omit [DecidableEq P] in
@[simp] theorem setBlock_pc : (s.setBlock i b).pc = s.pc := rfl
omit [DecidableEq P] in
@[simp] theorem setBlock_blocks : (s.setBlock i b).blocks = Function.update s.blocks i b := rfl
omit [DecidableEq P] in
@[simp] theorem setBlock_idelock : (s.setBlock i b).idelock = s.idelock := rfl
omit [DecidableEq P] in
@[simp] theorem setBlock_tab : (s.setBlock i b).tab = s.tab := rfl
omit [DecidableEq P] in
@[simp] theorem setBlock_disk : (s.setBlock i b).disk = s.disk := rfl
omit [DecidableEq P] in
@[simp] theorem setBlock_sectors : (s.setBlock i b).sectors = s.sectors := rfl
omit [DecidableEq P] in
@[simp] theorem setBlock_held : (s.setBlock i b).held = s.held := rfl
omit [DecidableEq P] in
@[simp] theorem setBlock_log : (s.setBlock i b).log = s.log := rfl

@[simp] theorem setHeld_pc : (s.setHeld p bs).pc = s.pc := rfl
@[simp] theorem setHeld_blocks : (s.setHeld p bs).blocks = s.blocks := rfl
@[simp] theorem setHeld_idelock : (s.setHeld p bs).idelock = s.idelock := rfl
@[simp] theorem setHeld_tab : (s.setHeld p bs).tab = s.tab := rfl
@[simp] theorem setHeld_disk : (s.setHeld p bs).disk = s.disk := rfl
@[simp] theorem setHeld_sectors : (s.setHeld p bs).sectors = s.sectors := rfl
@[simp] theorem setHeld_held : (s.setHeld p bs).held = Function.update s.held p bs := rfl
@[simp] theorem setHeld_log : (s.setHeld p bs).log = s.log := rfl

end Fields

/-- What a process holds when another buffer has been given to `p`. -/
theorem mem_setHeld_cons {s : IoSt P D} {p q : P} {n m : ℕ} {i j : Buf}
    (h : (m, j) ∈ (s.setHeld p ((n, i) :: s.held p)).held q) :
    (m = n ∧ j = i) ∨ (m, j) ∈ s.held q := by
  by_cases hq : q = p
  · subst hq
    simpa using h
  · right
    simpa [hq] using h

omit [DecidableEq P] in
/-- The first loop of `bget`. -/
def cached (s : IoSt P D) (n : ℕ) : Option Buf :=
  (List.finRange NBLOCK).find? fun i => (s.blocks i).blockno = n

omit [DecidableEq P] in
/-- The second loop of `bget`. -/
def victim (s : IoSt P D) : Option Buf :=
  (List.finRange NBLOCK).find? fun i => (s.blocks i).refcnt = 0 ∧ (s.blocks i).dirty = false

/-- `bget(n)`: the buffer and its new contents. -/
def bget (s : IoSt P D) (n : ℕ) : Option (Buf × Block P D) :=
  match s.cached n with
  | some i => some (i, { s.blocks i with refcnt := ((s.blocks i).refcnt + 1) % 65536 })
  | none => s.victim.map fun i =>
      (i, { s.blocks i with blockno := n, valid := false, dirty := false, refcnt := 1 })

/-- `sendreq(b)`, which waits until the drive is ready; the other `none` is its panic. -/
def sendreq (s : IoSt P D) (p : P) (i : Buf) : Option (IoSt P D) :=
  let b := { s.blocks i with blockno := (s.blocks i).blockno % 2 ^ 28 }
  if s.disk.isSome ∨ NSECTOR ≤ (s.blocks i).blockno then none
  else some { s.setBlock i b with
    disk := some ⟨p, i, b.blockno, if b.dirty then some b.data else none⟩ }

/-- The next statement of `p` between `acquire(&b->lock)` and `release(&b->lock)`. -/
def ioNext (s : IoSt P D) (p : P) (op : Op) (i : Buf) (st : Stage) : Option (IoSt P D) :=
  let b := s.blocks i
  match st with
  | .acq a => (acquireStep p (.lock i) a b.lock s.tab).map fun (a', lock, tab) =>
      { (s.setBlock i { b with lock }).goto p (.io op i (a'.elim .start .acq)) with tab }
  | .start =>
      match op with
      | .read _ => some (s.goto p (.io op i (if b.valid then .rel .free else .rw)))
      | .write =>
          if holding b.lock p then
            some ((s.setBlock i { b with dirty := true }).goto p (.io op i .rw))
          else none  -- panic("bwrite")
  | .rw =>
      if holding b.lock p then some (s.goto p (.io op i .todo))
      else none  -- panic("iderw: block not locked")
  | .todo =>
      if b.ready then none  -- panic("iderw: nothing to do")
      else some (s.goto p (.io op i (.ideAcq .test)))
  | .ideAcq a => (acquireStep p .idelock a s.idelock s.tab).map fun (a', idelock, tab) =>
      { s.goto p (.io op i (a'.elim .send .ideAcq)) with idelock, tab }
  | .send => (s.sendreq p i).map fun s => s.goto p (.io op i .loop)
  | .loop => some (s.goto p (.io op i (if b.ready then .ideRel .free else .sleep)))
  | .sleep => some { s.goto p (.io op i .wait) with tab := s.tab.sleep p (.blk i) }
  | .wait => if s.tab.wchan p = none then some (s.goto p (.io op i .loop)) else none
  | .ideRel r =>
      let (r', idelock, tab) := releaseStep .idelock r s.idelock s.tab
      some { s.goto p (.io op i (r'.elim (.rel .free) .ideRel)) with idelock, tab }
  | .rel r =>
      let (r', lock, tab) := releaseStep (.lock i) r b.lock s.tab
      let s := { s.setBlock i { b with lock } with tab }
      match r', op with
      | some r', _ => some (s.goto p (.io op i (.rel r')))
      | none, .read n => some ((s.setHeld p ((n, i) :: s.held p)).goto p .idle)
      | none, .write => some (s.goto p .idle)

/-- The next statement of `p`. -/
def next (p : P) (call : Bio D) (s : IoSt P D) : Option (IoSt P D) :=
  match s.pc p, call with
  | .idle, .bread n => some (s.goto p (.bget n))
  | .idle, .brelse n i =>
      if (n, i) ∈ s.held p then
        let b := s.blocks i
        some ((s.setBlock i { b with refcnt := (b.refcnt + 65535) % 65536 }).setHeld p
          ((s.held p).erase (n, i)))
      else none
  | .idle, .fill n i d =>
      if (n, i) ∈ s.held p then some (s.setBlock i { s.blocks i with data := d }) else none
  | .idle, .bwrite n i =>
      if (n, i) ∈ s.held p then some (s.goto p (.io .write i (.acq .test))) else none
  | .bget n, .go => (s.bget n).map fun (i, b) => (s.setBlock i b).goto p (.test n i)
  | .test n i, .go =>
      if (s.blocks i).refcnt > 1 then some ((s.setHeld p ((n, i) :: s.held p)).goto p .idle)
      else some (s.goto p (.io (.read n) i (.acq .test)))
  | .io op i st, .go => s.ioNext p op i st
  | _, _ => none

/-- What `insl` reads from the drive: the sector, or what the last write left in its
buffer. -/
def insl (s : IoSt P D) (r : Req P D) : D := r.data.getD (s.sectors r.blockno)

/-- `idelock.procp->wchan`; a null `procp` is taken for a null channel. -/
def intrChan (s : IoSt P D) : Option IoChan := s.idelock.procp.bind s.tab.wchan

/-- The drive finishes its request and `ideintr` runs.  When the channel is not a buffer
the stores of the handler fall outside this state. -/
def ideintr (s : IoSt P D) : Option (IoSt P D) :=
  s.disk.map fun r =>
    let s := { s with
      disk := none
      sectors := r.data.elim s.sectors fun d => Function.update s.sectors r.blockno d
      log := (r, s.intrChan) :: s.log }
    match s.intrChan with
    | some (.blk i) =>
        let b := s.blocks i
        { s.setBlock i { b with
            data := if b.dirty then b.data else s.insl r, valid := true, dirty := false } with
          tab := s.tab.wakeup (some (.blk i)) }
    | chan => { s with tab := s.tab.wakeup chan }

end IoSt

/-- The processor, with the interrupts of the drive. -/
def ioUni (P D : Type) [DecidableEq P] : Uni P (Bio D) (IoSt P D) where
  next := IoSt.next
  runnable s _ q := s.tab.stat q = .RUN
  intr := IoSt.ideintr

end Mixv6.Fs
