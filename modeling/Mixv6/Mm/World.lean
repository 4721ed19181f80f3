import Mixv6.Lib.Machine
import Mixv6.Mm.Copy

/-!
# All address spaces together

The processes and address spaces of the whole system, and the calls that their callers make:
`uinit`, `sys_fork`, `sys_execv`, `pfree`.  Between two calls the processes run, which
changes their own pages and the kernel's data.

An address space is known by its number in the order of their making, so that two address
spaces with the same directory are not one by definition.  Numbers are no part of the
kernel; neither is `fresh`, which says that nothing has happened since `setupkvm`.

## Main definitions

* `World`, `Op`, `World.exec` — the system and one call.
* `Allowed` — the calls as their callers make them.
* `Role`, `HasRole` — what the memory says a page is used for.
-/

namespace Mixv6.Mm

open Mixv6.Lib

/-! ## The system -/

/-- The part of `palloc` that concerns the memory: a kernel stack, or 0. -/
def palloc : Kern ℕ := do
  let kstack ← kalloc
  if kstack = 0 then
    return 0
  memset kstack 0 PAGESIZE
  return kstack

/-- The part of `pfree` that concerns the memory. -/
def pfree (L : Layout) (pgdir kstack : ℕ) : Kern Unit := do
  if pgdir ≠ 0 then freevm L pgdir
  if kstack ≠ 0 then kfree L kstack

/-- An address space: its directory and the end of its image. -/
structure Image where
  pgdir : ℕ
  top : ℕ
  fresh : Bool

/-- A process: its kernel stack and its address space. -/
structure Proc where
  kstack : ℕ
  space : Option ℕ

/-- The memory, the address spaces and the processes; `next` is the number of the next
address space. -/
structure World where
  phys : Phys
  space : ℕ → Option Image
  proc : ℕ → Option Proc
  next : ℕ

/-- What happens next. -/
inductive Op
  | palloc (i : ℕ)
  | pfree (i : ℕ)
  | setupkvm
  | inituvm (s start size : ℕ)
  | allocuvm (s new : ℕ)
  | deallocuvm (s new : ℕ)
  | ustack (s : ℕ)
  | copyuvm (s : ℕ)
  | freevm (s : ℕ)
  /-- `p->pgdir = pgdir`. -/
  | setpgdir (i s : ℕ)
  /-- Processes run, until the memory is `m`. -/
  | run (m : Mem)

namespace World

/-- Call a routine, and then note its result. -/
def call {α : Type} (w : World) (c : Kern α) (f : α → World → World) : Except Panic World := do
  let (r, σ) ← c w.phys
  return f r { w with phys := σ }

/-- Note what has become of address space `s`. -/
def note (w : World) (s : ℕ) (im : Option Image) : World :=
  { w with space := Function.update w.space s im }

/-- Note a new address space, unless there is none. -/
def add (w : World) (pgdir top : ℕ) (fresh : Bool) : World :=
  { w.note w.next (if pgdir = 0 then none else some ⟨pgdir, top, fresh⟩) with next := w.next + 1 }

@[simp] theorem note_phys (w : World) (s : ℕ) (im : Option Image) : (w.note s im).phys = w.phys := rfl

@[simp] theorem note_space_self (w : World) (s : ℕ) (im : Option Image) :
    (w.note s im).space s = im := Function.update_self ..

theorem note_space_of_ne (w : World) {s t : ℕ} (im : Option Image) (h : t ≠ s) :
    (w.note s im).space t = w.space t := Function.update_of_ne h ..

@[simp] theorem add_phys (w : World) (pgdir top : ℕ) (fresh : Bool) :
    (w.add pgdir top fresh).phys = w.phys := rfl

@[simp] theorem add_next (w : World) (pgdir top : ℕ) (fresh : Bool) :
    (w.add pgdir top fresh).next = w.next + 1 := rfl

theorem add_space_self (w : World) (pgdir top : ℕ) (fresh : Bool) :
    (w.add pgdir top fresh).space w.next =
      if pgdir = 0 then none else some ⟨pgdir, top, fresh⟩ := Function.update_self ..

theorem add_space_of_ne (w : World) {t : ℕ} (pgdir top : ℕ) (fresh : Bool) (h : t ≠ w.next) :
    (w.add pgdir top fresh).space t = w.space t := Function.update_of_ne h ..

/-- The directory that a process holds, or 0. -/
def pgdir (w : World) (p : Proc) : ℕ := (p.space.bind w.space).elim 0 Image.pgdir

/-- A call on address space `s`. -/
def on (w : World) (s : ℕ) (f : Image → Except Panic World) : Except Panic World :=
  match w.space s with
  | none => .ok w
  | some im => f im

def exec (L : Layout) (w : World) : Op → Except Panic World
  | .palloc i => w.call palloc fun r w =>
      if r = 0 then w else { w with proc := Function.update w.proc i (some ⟨r, none⟩) }
  | .pfree i =>
      match w.proc i with
      | none => .ok w
      | some p => w.call (pfree L (w.pgdir p) p.kstack) fun _ w =>
          { w with
            proc := Function.update w.proc i none
            space := fun s => if p.space = some s then none else w.space s }
  | .setupkvm => w.call (setupkvm L) fun r w => w.add r KERNEND true
  | .inituvm s start size => w.on s fun im =>
      w.call (inituvm im.pgdir start size) fun _ w =>
        w.note s (some ⟨im.pgdir, KERNEND + size, false⟩)
  | .allocuvm s new => w.on s fun im =>
      w.call (allocuvm L im.pgdir im.top new) fun r w =>
        w.note s (some ⟨im.pgdir, if r = 0 then im.top else r, false⟩)
  | .deallocuvm s new => w.on s fun im =>
      w.call (deallocuvm L im.pgdir im.top new) fun r w => w.note s (some ⟨im.pgdir, r, false⟩)
  | .ustack s => w.on s fun im =>
      w.call (ustack L im.pgdir im.top) fun r w =>
        w.note s (some ⟨im.pgdir, if r = 0 then im.top else r, false⟩)
  | .copyuvm s => w.on s fun im =>
      w.call (copyuvm L im.pgdir (im.top - KERNEND)) fun r w => w.add r im.top false
  | .freevm s => w.on s fun im => w.call (freevm L im.pgdir) fun _ w => w.note s none
  | .setpgdir i s =>
      match w.proc i with
      | none => .ok w
      | some p => .ok { w with proc := Function.update w.proc i (some { p with space := some s }) }
  | .run m => .ok { w with phys := { w.phys with mem := m } }

/-! ## Roles -/

/-- The page at position `n` of the list that begins at `head`. -/
def freeNode (m : Mem) (head : ℕ) : ℕ → ℕ
  | 0 => head
  | n + 1 => freeNode m (m.load32 head) n

/-- Entry `i` of directory `d`. -/
def pdeAt (σ : Phys) (d i : ℕ) : ℕ := σ.mem.load32 (d + 4 * i)

/-- The entry of page `v` in the page table that directory `d` has for it. -/
def pteAt (σ : Phys) (d v : ℕ) : ℕ :=
  σ.mem.load32 (PTE_ADDR (pdeAt σ d (v / 1024)) + 4 * (v % 1024))

/-- What a page is used for. -/
inductive Role
  /-- The node at position `n` of the free list. -/
  | node (n : ℕ)
  /-- The kernel stack of process `i`. -/
  | kstack (i : ℕ)
  /-- The page directory of address space `s`. -/
  | dir (s : ℕ)
  /-- The page table behind entry `i` of the directory of address space `s`. -/
  | table (s i : ℕ)
  /-- The user page that address space `s` has at page number `v`. -/
  | user (s v : ℕ)

/-- The memory, the process table and the directories say that page `p` has a role. -/
def HasRole (w : World) (p : ℕ) : Role → Prop
  | .node n => p = freeNode w.phys.mem w.phys.coremap n ∧
      ∀ k ≤ n, freeNode w.phys.mem w.phys.coremap k ≠ 0
  | .kstack i => ∃ q, w.proc i = some q ∧ p = q.kstack
  | .dir s => ∃ im, w.space s = some im ∧ p = im.pgdir
  | .table s i => ∃ im, w.space s = some im ∧ i < 1024 ∧ present (pdeAt w.phys im.pgdir i) ∧
      p = PTE_ADDR (pdeAt w.phys im.pgdir i)
  | .user s v => ∃ im, w.space s = some im ∧ 0x40000 ≤ v ∧ v < 0x100000 ∧
      present (pdeAt w.phys im.pgdir (v / 1024)) ∧ present (pteAt w.phys im.pgdir v) ∧
      p = PTE_ADDR (pteAt w.phys im.pgdir v)

/-- No process holds address space `s`. -/
def Loose (w : World) (s : ℕ) : Prop := ∀ i p, w.proc i = some p → p.space ≠ some s

/-- The calls as their callers make them.  A process slot is used once at a time; `inituvm`
follows `setupkvm`, with a program that fits a page; a directory is freed by the process that holds it or by whoever holds it
instead of a process; running processes write to their pages and to the kernel's data. -/
def Allowed (L : Layout) (w : World) : Op → Prop
  | .palloc i => w.proc i = none
  | .inituvm s _ size => (∃ im, w.space s = some im ∧ im.fresh) ∧ 0 < size ∧ size ≤ PAGESIZE
  | .deallocuvm _ new => KERNEND ≤ new
  | .freevm s => w.Loose s
  | .setpgdir i s => w.Loose s ∧ (w.space s).isSome ∧ (w.proc i).isSome
  | .run m => ∀ x, IsPage L (page x) → (∀ i, ¬ w.HasRole (page x) (.kstack i)) →
      (∀ s v, ¬ w.HasRole (page x) (.user s v)) → m x = w.phys.mem x
  | _ => True

end World

namespace Vm
variable {L : Layout} {s i v : ℕ} {σ : Phys} {g : Ghost}

/-- Entry `i` of the directory. -/
theorem pdeAt (h : Vm L s σ g) (hi : i < 1024) :
    World.pdeAt σ g.sp.dir i = (g.sp.tab i).elim 0 (· + 7) := h.space.pde i hi

/-- An entry of the directory that is present. -/
theorem pdeAt_present (h : Vm L s σ g) (hi : i < 1024) (hp : present (World.pdeAt σ g.sp.dir i)) :
    g.sp.tab i = some (PTE_ADDR (World.pdeAt σ g.sp.dir i)) := by
  rw [h.pdeAt hi] at hp ⊢
  rcases ht : g.sp.tab i with _ | t
  · simp [ht, present] at hp
  · have hta := (h.tab_page ht).1
    simp only [Option.elim_some, PTE_ADDR, Option.some.injEq]
    omega

/-- An entry of the directory with a page table. -/
theorem present_pdeAt (h : Vm L s σ g) (hi : i < 1024) :
    present (World.pdeAt σ g.sp.dir i) = (g.sp.tab i).isSome := by
  rw [h.pdeAt hi]
  rcases ht : g.sp.tab i with _ | t
  · rfl
  · have hta := (h.tab_page ht).1
    have hodd : (t + 7) % 2 = 1 := by omega
    simp [present, hodd]

/-- The entry of a page whose page table is present. -/
theorem pteAt (h : Vm L s σ g) (hv : v < 0x100000)
    (hp : present (World.pdeAt σ g.sp.dir (v / 1024))) : World.pteAt σ g.sp.dir v = g.sp.pte v := by
  have ht := h.pdeAt_present (by omega) hp
  have hload := h.space.pte _ _ ht (v % 1024) (by omega)
  rwa [show 1024 * (v / 1024) + v % 1024 = v by omega] at hload

end Vm

/-- The system as a machine. -/
def vmMachine (L : Layout) : Machine World Op where
  step w op := (w.exec L op).toOption

/-- The system after `kinit`, on a machine with memory `m`. -/
def boot (L : Layout) (m : Mem) : Except Panic World := do
  let (_, σ) ← kinit L ⟨m, 0, []⟩
  return ⟨σ, fun _ => none, fun _ => none, 0⟩

end Mixv6.Mm
