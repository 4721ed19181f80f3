import Mixv6.Lib.Mem
import Mixv6.Lib.Wp
import Mixv6.Mm.Map

/-!
# The page allocator

`kernel/mm/kalloc.c`.  The free pages form a linked list through their first words.
Virtual addresses of the kernel half are physical addresses, so the kernel's own loads
and stores go to the memory directly.

The functions of this module and of `Mixv6.Mm.Vm` run to the end without another process
in between; `kalloc` and `kfree` disable interrupts around the list, which is left out.

## Main definitions

* `Phys`, `Panic`, `Kern` — the memory and the allocator, and programs on them.
* `kinit`, `kalloc`, `kfree` — the allocator.
-/

namespace Mixv6.Mm

open Mixv6.Lib

/-- The physical memory and the head of the free list.  `handed` records what no code
reads: the pages that `kalloc` has handed out, the last one first. -/
structure Phys where
  mem : Mem
  coremap : ℕ
  handed : List ℕ

/-- Why the kernel stops: the panics of the memory management, and `hang` for a loop that
never ends. -/
inductive Panic
  /-- `panic("kfree")`. -/
  | kfree
  /-- `panic("walkpgdir")`. -/
  | walkpgdir
  /-- `panic("mappages")`, for a null page directory. -/
  | mappagesDir
  /-- `panic("mappages")`, for a page that is mapped already. -/
  | mappages
  /-- `panic("loaduvm: addr must be page aligned")`. -/
  | loaduvmAddr
  /-- `panic("loaduvm: pde should exist")`. -/
  | loaduvmPde
  /-- `panic("loaduvm: pte should exist")`. -/
  | loaduvmPte
  /-- `panic("copyuvm: pte should exist")`. -/
  | copyuvmPte
  /-- `panic("page not present")`. -/
  | copyuvmPage
  /-- `panic("deallocuvm")`. -/
  | deallocuvm
  /-- `panic("copyout")`. -/
  | copyout
  /-- `panic("freevm: no pgdir")`. -/
  | freevm
  | hang
  deriving DecidableEq, Repr

/-- A kernel routine. -/
abbrev Kern (α : Type) := Prog Phys Panic α

/-- More turns than a loop over the pages of a 32-bit address space can take. -/
def loopFuel : ℕ := 2 ^ 20 + 1

/-- Read a word. -/
def load (a : ℕ) : Kern ℕ := do return (← get).mem.load32 a

/-- Write a word. -/
def store (a v : ℕ) : Kern Unit := modify fun s => { s with mem := s.mem.store32 a v }

def memset (a : ℕ) (c : UInt8) (n : ℕ) : Kern Unit :=
  modify fun s => { s with mem := s.mem.fill a c n }

/-- `memmove(src, dst, count)`: the source comes first. -/
def memmove (src dst n : ℕ) : Kern Unit :=
  modify fun s => { s with mem := s.mem.movsb src dst n }

/-- `kalloc`; 0 when no page is free. -/
def kalloc : Kern ℕ := do
  let s ← get
  let r := s.coremap
  if r ≠ 0 then
    set { s with coremap := s.mem.load32 r, handed := r :: s.handed }
  return r

/-- `kfree`. -/
def kfree (L : Layout) (addr : ℕ) : Kern Unit := do
  if addr % PAGESIZE ≠ 0 ∨ addr < L.kernel_end ∨ MEMSIZE ≤ addr then throw .kfree
  memset addr 0 PAGESIZE
  let s ← get
  store addr s.coremap
  modify fun s => { s with coremap := addr }

/-- `kinit`. -/
def kinit (L : Layout) : Kern Unit :=
  iterate .hang (fun p => do
    if p < MEMSIZE then
      kfree L p
      return .inl (p + PAGESIZE)
    else return .inr ()) loopFuel (PGROUNDUP L.kernel_end)

end Mixv6.Mm
