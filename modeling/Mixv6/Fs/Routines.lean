import Mixv6.Fs.Layout
import Mixv6.Fs.Table
import Mixv6.Lib.Thread

/-!
# The routines of the file system, statement by statement

`readi`, `writei`, `iget`, `irelse`, `dirlookup` and `namei` of `fs/inode.c` as threads over
the buffer cache.  A call of `bread` is the statements of `bread`; the calls of `bget` and
`brelse`, the copies from and to a buffer, and the loops over the inode table are one
statement each.

Who calls `readi` or `writei` has the lock of the inode, without which they return at once.
The routines of a device do not use the buffer cache.

## Main definitions

* `Code` — a routine over the shared states `σ`.
* `readi`, `writei`, `iget`, `namei` — the routines.
* `FsSt`, `FsSt.next`, `fsUni` — processes that run routines.
-/

namespace Mixv6.Fs.Routine

open Mixv6.Lib Mixv6.Kernel
open Cache (Sector SECTSIZE Loop Devsw NDEV Bytes moveOut moveIn toInt)
open Mixv6.Syscall (Inode InodeId T_DEV NADDR FNAMESIZ NDIRENT first strcmp)

/-! ## Calls of the buffer cache -/

/-- What a routine calls, or does to a buffer. -/
inductive FsCall
  | bget (n : ℕ)
  | bread (n : ℕ)
  /-- `brelse(b)` of a buffer for block `n`. -/
  | brelse (n : ℕ) (b : Buf)
  /-- Read `b->data`. -/
  | load (b : Buf)
  /-- Write to `b->data`. -/
  | store (n : ℕ) (b : Buf) (f : Sector → Sector)

/-- What a call returns. -/
def FsCall.Reply : FsCall → Type
  | bget _ | bread _ => Buf
  | load _ => Sector
  | brelse .. | store .. => Unit

/-- A routine. -/
abbrev Code (σ α : Type) := Thread σ FsCall FsCall.Reply α

section Calls
variable {σ : Type}

def bget (n : ℕ) : Code σ Buf := .call (.bget n) .ret

def bread (n : ℕ) : Code σ Buf := .call (.bread n) .ret

def brelse (n : ℕ) (b : Buf) : Code σ Unit := .call (.brelse n b) .ret

def load (b : Buf) : Code σ Sector := .call (.load b) .ret

def store (n : ℕ) (b : Buf) (f : Sector → Sector) : Code σ Unit := .call (.store n b f) .ret

end Calls

/-! ## `readi` and `writei` -/

section Transfer
variable {σ : Type} (inode : σ → InodeId → Inode) (devsw : ℕ → Devsw) (ip : InodeId)

/-- The loop of `readi`. -/
def readTurns (size : ℕ) (l : Loop) (dst : Bytes) : Code σ Bytes :=
  if l.cnt < size then do
    let s ← Thread.look
    let n := (inode s ip).dinode.addr (l.offset / SECTSIZE)
    let bp ← bread n
    let data ← load bp
    brelse n bp
    readTurns size (l.next size) (moveOut data (l.offset % SECTSIZE) dst l.cnt (l.m size))
  else pure dst
termination_by size - l.cnt
decreasing_by
  have hpos := Loop.m_pos ‹l.cnt < size›
  simp only [Loop.next]
  omega

/-- `readi`, with the bytes at `dst` afterwards. -/
def readi (dst : Bytes) (offset size : ℕ) : Code σ (ℤ × Bytes) := do
  let s ← Thread.look
  if (inode s ip).dinode.type = T_DEV then
    if NDEV ≤ (inode s ip).devno then pure (-1, dst)
    else match (devsw (inode s ip).devno).read with
      | none => pure (-1, dst)
      | some read => pure (read dst size)
  else
    let s ← Thread.look
    if (inode s ip).dinode.size < offset ∨ (offset + size) % 2 ^ 32 < offset ∨
        NADDR ≤ offset / SECTSIZE then pure (-1, dst)
    else
      let s ← Thread.look
      let size ← if (inode s ip).dinode.size < offset + size then do
          let s ← Thread.look
          pure ((2 ^ 32 + (inode s ip).dinode.size - offset) % 2 ^ 32)
        else pure size
      let dst ← readTurns inode ip size ⟨0, offset⟩ dst
      pure (toInt size, dst)

/-- The loop of `writei`. -/
def writeTurns (src : Bytes) (size : ℕ) (l : Loop) : Code σ Unit :=
  if l.cnt < size then do
    let m := l.m size
    let s ← Thread.look
    let n := (inode s ip).dinode.addr (l.offset / SECTSIZE)
    let bp ← if m = SECTSIZE then bget n else bread n
    store n bp fun data => moveIn src l.cnt data (l.offset % SECTSIZE) m
    brelse n bp
    writeTurns src size (l.next size)
  else pure ()
termination_by size - l.cnt
decreasing_by
  have hpos := Loop.m_pos ‹l.cnt < size›
  simp only [Loop.next]
  omega

/-- `writei`. -/
def writei (src : Bytes) (offset size : ℕ) : Code σ ℤ := do
  let s ← Thread.look
  if (inode s ip).dinode.type = T_DEV then
    if NDEV ≤ (inode s ip).devno then pure (-1)
    else match (devsw (inode s ip).devno).write with
      | none => pure (-1)
      | some write => pure (write src size)
  else
    let s ← Thread.look
    if Cache.Rejected (inode s ip) offset size then pure (-1)
    else
      writeTurns inode ip src size ⟨0, offset⟩
      pure (toInt size)

end Transfer

/-! ## The inode table -/

/-- `inode`. -/
abbrev Table := InodeId → Inode

/-- The entry that the first loop of `iget` finds. -/
def Table.found (t : Table) (inum : ℕ) : Option InodeId := first fun i => (t i).valid && (t i).num == inum

/-- The entry that the second loop of `iget` takes. -/
def Table.free (t : Table) : Option InodeId := first fun i => ¬ (t i).valid

/-- The two loops of `iget`. -/
def Table.iget (t : Table) (inum : ℕ) : Table :=
  match t.found inum with
  | some i => Function.update t i { t i with refcnt := ((t i).refcnt + 1) % 2 ^ 16 }
  | none =>
      match t.free with
      | none => t
      | some i => Function.update t i
          { t i with valid := true, num := inum, refcnt := 1, devno := 0 }

/-- `iget`; `none` when the table is full. -/
def iget (inum : ℕ) : Code Table (Option InodeId) :=
  .atom (fun t => some (t.iget inum)) fun t =>
    match t.found inum, t.free with
    | some i, _ => pure (some i)
    | none, none => pure none
    | none, some i => do
        let b ← bread inum
        let data ← load b
        Thread.change fun t =>
          Function.update t i { t i with dinode := copyDinode (t i).dinode data }
        brelse inum b
        pure (some i)

/-- `irelse`, of a pointer that is not null. -/
def irelse (ip : InodeId) : Code Table Unit := Thread.change fun t =>
  Function.update t ip (if 1 < (t ip).refcnt then { t ip with refcnt := (t ip).refcnt - 1 }
    else { t ip with valid := false })

/-- `getrootdir`. -/
def getrootdir (rootdir : ℕ) : Code Table InodeId := do
  match ← iget rootdir with
  | none => .stop
  | some ip => pure ip

/-- `dirlookup` of a name in the directory in a buffer, from an entry on. -/
def dirlookup (b : Buf) (fname : List UInt8) : List ℕ → Code Table (Option InodeId)
  | [] => pure none
  | i :: is => do
      let d ← load b
      if strcmp fname (entryAt (bytes d) 0 i).2 FNAMESIZ then
        let d ← load b
        iget (entryAt (bytes d) 0 i).1
      else dirlookup b fname is

/-- `namei`, of a path or a null pointer. -/
def namei (rootdir : ℕ) : Option (List UInt8) → Code Table (Option InodeId)
  | none => pure none
  | some path => do
      let ip ← getrootdir rootdir
      if path.headD 0 = 0x2F then pure (some ip)
      else
        let t ← Thread.look
        let n := (t ip).dinode.addr 0
        let b ← bread n
        irelse ip
        let ip ← dirlookup b path (List.range NDIRENT)
        brelse n b
        pure ip

/-! ## Processes that run routines -/

/-- The references of a process, the last one first. -/
abbrev Held := List (ℕ × Buf)

/-- Where a process stands. -/
inductive FsPc (σ : Type)
  /-- Before a statement of a routine, or outside. -/
  | run (t : Code σ Unit)
  /-- In `bread(n)`. -/
  | read (n : ℕ) (k : Buf → Code σ Unit)

/-- The buffer cache, what the routines share, and the processes. -/
structure FsSt (P σ : Type) where
  io : IoSt P Sector
  sh : σ
  pc : P → FsPc σ

/-- What a process does next: the routine goes on, or a process outside calls one. -/
inductive FsEvent (C : Type)
  | go
  | call (c : C)

namespace FsSt
variable {P σ C : Type}

/-- Nobody runs a routine. -/
def start (io : IoSt P Sector) (sh : σ) : FsSt P σ := ⟨io, sh, fun _ => .run (.ret ())⟩

variable [DecidableEq P]

def goto (s : FsSt P σ) (p : P) (pc : FsPc σ) : FsSt P σ :=
  { s with pc := Function.update s.pc p pc }

/-- A call of a routine, or a statement on a buffer. -/
def serve (s : FsSt P σ) (p : P) : (c : FsCall) → (c.Reply → Code σ Unit) → Option (FsSt P σ)
  | .bget n, k => (s.io.take p n).bind fun io => (io.held p).head?.map fun b =>
      { s.goto p (.run (k b.2)) with io }
  | .bread n, k => (s.io.next p (.bread n)).map fun io => { s.goto p (.read n k) with io }
  | .brelse n b, k => (s.io.next p (.brelse n b)).map fun io => { s.goto p (.run (k ())) with io }
  | .load b, k => some (s.goto p (.run (k (s.io.blocks b).data)))
  | .store n b f, k => (s.io.next p (.fill n b (f (s.io.blocks b).data))).map fun io =>
      { s.goto p (.run (k ())) with io }

/-- The next statement of `p`; `routine c` is the code of a call. -/
def next (routine : P → C → Code σ Unit) (p : P) (e : FsEvent C) (s : FsSt P σ) :
    Option (FsSt P σ) :=
  match s.pc p, e with
  | .run (.ret _), .call c => some (s.goto p (.run (routine p c)))
  | .run (.atom f k), .go => (f s.sh).map fun sh => { s.goto p (.run (k s.sh)) with sh }
  | .run (.call c k), .go => s.serve p c k
  | .read _ k, .go =>
      if s.io.pc p = .idle then
        -- `bread` has returned the buffer that was added last.
        (s.io.held p).head?.map fun b => s.goto p (.run (k b.2))
      else (s.io.next p .go).map fun io => { s with io }
  | _, _ => none

end FsSt

/-- The processor, with the interrupts of the drive.  Any process may be given the processor;
one that sleeps does not move. -/
def fsUni {P σ C : Type} [DecidableEq P] (routine : P → C → Code σ Unit) :
    Uni P (FsEvent C) (FsSt P σ) where
  next := FsSt.next routine
  runnable _ _ _ := true
  intr s := s.io.ideintr.map fun io => { s with io }

/-! ## What one statement does -/

section Moves
variable {P σ C : Type} [DecidableEq P]

/-- The effect of one statement of process `p`. -/
inductive FsMove (routine : P → C → Code σ Unit) (p : P) (s : FsSt P σ) : FsSt P σ → Prop
  | start (c : C) : s.pc p = .run (.ret ()) → FsMove routine p s (s.goto p (.run (routine p c)))
  | atom (f : σ → Option σ) (k : σ → Code σ Unit) (sh : σ) : s.pc p = .run (.atom f k) →
      f s.sh = some sh → FsMove routine p s { s.goto p (.run (k s.sh)) with sh }
  | bget (n : ℕ) (k : Buf → Code σ Unit) (io : IoSt P Sector) (b : ℕ × Buf) (bs : Held) :
      s.pc p = .run (.call (.bget n) k) → s.io.take p n = some io → io.held p = b :: bs →
      FsMove routine p s { s.goto p (.run (k b.2)) with io }
  | bread (n : ℕ) (k : Buf → Code σ Unit) (io : IoSt P Sector) :
      s.pc p = .run (.call (.bread n) k) → s.io.next p (.bread n) = some io →
      FsMove routine p s { s.goto p (.read n k) with io }
  | brelse (n : ℕ) (b : Buf) (k : Unit → Code σ Unit) (io : IoSt P Sector) :
      s.pc p = .run (.call (.brelse n b) k) → s.io.next p (.brelse n b) = some io →
      FsMove routine p s { s.goto p (.run (k ())) with io }
  | load (b : Buf) (k : Sector → Code σ Unit) : s.pc p = .run (.call (.load b) k) →
      FsMove routine p s (s.goto p (.run (k (s.io.blocks b).data)))
  | store (n : ℕ) (b : Buf) (f : Sector → Sector) (k : Unit → Code σ Unit) (io : IoSt P Sector) :
      s.pc p = .run (.call (.store n b f) k) →
      s.io.next p (.fill n b (f (s.io.blocks b).data)) = some io →
      FsMove routine p s { s.goto p (.run (k ())) with io }
  | go (n : ℕ) (k : Buf → Code σ Unit) (io : IoSt P Sector) : s.pc p = .read n k →
      s.io.pc p ≠ .idle → s.io.next p .go = some io → FsMove routine p s { s with io }
  | done (n : ℕ) (k : Buf → Code σ Unit) (b : ℕ × Buf) (bs : Held) :
      s.pc p = .read n k → s.io.pc p = .idle → s.io.held p = b :: bs →
      FsMove routine p s (s.goto p (.run (k b.2)))

variable {routine : P → C → Code σ Unit} {p : P} {e : FsEvent C} {s t : FsSt P σ}

theorem serve_cases {c : FsCall} {k : c.Reply → Code σ Unit} (hpc : s.pc p = .run (.call c k))
    (h : s.serve p c k = some t) : FsMove routine p s t := by
  cases c with
  | bget n =>
      obtain ⟨io, hio, h⟩ := Option.bind_eq_some_iff.mp h
      obtain ⟨b, hb, rfl⟩ := Option.map_eq_some_iff.mp h
      obtain ⟨bs, hbs⟩ := List.head?_eq_some_iff.mp hb
      exact .bget n k io b bs hpc hio hbs
  | bread n =>
      obtain ⟨io, hio, rfl⟩ := Option.map_eq_some_iff.mp h
      exact .bread n k io hpc hio
  | brelse n b =>
      obtain ⟨io, hio, rfl⟩ := Option.map_eq_some_iff.mp h
      exact .brelse n b k io hpc hio
  | load b => exact Option.some.inj h ▸ .load b k hpc
  | store n b f =>
      obtain ⟨io, hio, rfl⟩ := Option.map_eq_some_iff.mp h
      exact .store n b f k io hpc hio

/-- **Every statement** has one of the effects of `FsMove`. -/
theorem next_cases (h : FsSt.next routine p e s = some t) : FsMove routine p s t := by
  unfold FsSt.next at h
  split at h
  next c hpc => exact Option.some.inj h ▸ .start c hpc
  next f k hpc =>
    obtain ⟨sh, hsh, rfl⟩ := Option.map_eq_some_iff.mp h
    exact .atom f k sh hpc hsh
  next c k hpc => exact serve_cases hpc h
  next n k hpc =>
    split at h
    next hidle =>
      obtain ⟨b, hb, rfl⟩ := Option.map_eq_some_iff.mp h
      obtain ⟨bs, hbs⟩ := List.head?_eq_some_iff.mp hb
      exact .done n k b bs hpc hidle hbs
    next hidle =>
      obtain ⟨io, hio, rfl⟩ := Option.map_eq_some_iff.mp h
      exact .go n k io hpc hidle hio
  next => cases h

/-- A statement moves no other process. -/
theorem FsMove.other (h : FsMove routine p s t) {q : P} (hq : q ≠ p) :
    t.pc q = s.pc q ∧ t.io.pc q = s.io.pc q ∧ t.io.held q = s.io.held q := by
  cases h with
  | start c hpc | load b k hpc | done n k b bs hpc _ _ | atom f k sh hpc _ =>
      simp [FsSt.goto, hq]
  | bget n k io b bs hpc ht _ =>
      obtain ⟨-, i, c, -, rfl⟩ := take_cases ht
      simp [FsSt.goto, hq]
  | bread n k io hpc hio | brelse n b k io hpc hio | store n b f k io hpc hio
  | go n k io hpc _ hio =>
      have hother := (Fs.next_cases hio).other hq
      simp [FsSt.goto, hq, hother]

/-- What happens on the processor: a statement, an interrupt, or a switch. -/
theorem fsUni_cases {a b : Cpu P (FsSt P σ)} {e : CpuEvent P (FsEvent C)}
    (h : (fsUni routine).machine.step a e = some b) :
    FsMove routine a.cur a.st b.st ∨
      (∃ io, a.st.io.ideintr = some io ∧ b.st = { a.st with io }) ∨ b.st = a.st := by
  rcases Uni.step_cases h with ⟨c, rfl, hnext⟩ | ⟨rfl, hintr⟩ | hsame
  · exact .inl (next_cases (s := a.st) hnext)
  · obtain ⟨io, hio, heq⟩ := Option.map_eq_some_iff.mp hintr
    exact .inr (.inl ⟨io, hio, heq.symm⟩)
  · exact .inr (.inr hsame)

/-- An invariant of the processes needs to be checked for statements and interrupts, in a run whose
states all allow a step. -/
theorem fsUni_path_invariant {I A : FsSt P σ → Prop} {a b : Cpu P (FsSt P σ)}
    (h : (fsUni routine).machine.Path (fun a _ => A a.st) a b) (h0 : I a.st)
    (hmove : ∀ p s t, I s → A s → FsMove routine p s t → I t)
    (hintr : ∀ s io, I s → s.io.ideintr = some io → I { s with io }) : I b.st := by
  apply h.invariant (I := fun a => I a.st) h0
  intro a e b hI hok hstep
  rcases fsUni_cases hstep with hm | ⟨io, hio, heq⟩ | hsame
  · exact hmove _ _ _ hI hok hm
  · rw [heq]
    exact hintr _ _ hI hio
  · rw [hsame]
    exact hI

theorem fsUni_invariant {I : FsSt P σ → Prop} {a b : Cpu P (FsSt P σ)}
    (h : (fsUni routine).machine.Reaches a b) (h0 : I a.st)
    (hmove : ∀ p s t, I s → FsMove routine p s t → I t)
    (hintr : ∀ s io, I s → s.io.ideintr = some io → I { s with io }) : I b.st :=
  fsUni_path_invariant (A := fun _ => True) h h0 (fun p s t hI _ hm => hmove p s t hI hm) hintr

end Moves
end Mixv6.Fs.Routine
