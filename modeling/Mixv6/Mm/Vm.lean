import Mixv6.Mm.Kalloc

/-!
# Address spaces

The page tables of `kernel/mm/vm.c`: walking and extending them, and building, copying,
shrinking and freeing an address space.  Pointers into page tables are addresses, and
null pointers are 0, as in the source; `printf` is left out.

## Main definitions

* `walkpgdir`, `mappages` — page tables.
* `setupkvm`, `inituvm`, `allocuvm`, `deallocuvm`, `ustack`, `copyuvm`, `freevm` — the
  life of an address space.
* `loaduvm`, `copyout` — what is put into it.
-/

namespace Mixv6.Mm

open Mixv6.Lib

/-- `walkpgdir`: the address of the entry for `va`, or 0. -/
def walkpgdir (pgdir va : ℕ) (isalloc : Bool) : Kern ℕ := do
  if pgdir = 0 then throw .walkpgdir
  let pde := pgdir + 4 * PDX va
  let e ← load pde
  if present e then
    return PTE_ADDR e + 4 * PTX va
  if ¬ isalloc then
    return 0
  let pte ← kalloc
  if pte = 0 then
    return 0
  memset pte 0 PAGESIZE
  store pde (pte ||| PTE_P ||| PTE_W ||| PTE_U)
  return pte + 4 * PTX va

/-- `mappages`; -1 when a page table cannot be allocated. -/
def mappages (pgdir va size pa flags : ℕ) : Kern Int := do
  if pgdir = 0 then throw .mappagesDir
  let last := PGROUNDDOWN ((va + size + (2 ^ 32 - 1)) % 2 ^ 32)
  iterate .hang (fun (a, pa) => do
    if a ≤ last then
      let pte ← walkpgdir pgdir a true
      if pte = 0 then
        return .inr (-1)
      if present (← load pte) then throw .mappages
      store pte (pa ||| flags ||| PTE_P)
      return .inl ((a + PAGESIZE) % 2 ^ 32, (pa + PAGESIZE) % 2 ^ 32)
    else return .inr 0) loopFuel (PGROUNDDOWN va, pa)

/-- `deallocuvm`. -/
def deallocuvm (L : Layout) (pgdir old new : ℕ) : Kern ℕ := do
  if old ≤ new then
    return old
  iterate .hang (fun va => do
    if va < old then
      let pte ← walkpgdir pgdir va false
      if pte = 0 then
        -- No page table: go on with the next directory entry.
        let va := (PGADDR (PDX va + 1) 0 0 + (2 ^ 32 - PAGESIZE)) % 2 ^ 32
        return .inl ((va + PAGESIZE) % 2 ^ 32)
      let e ← load pte
      if present e then
        let pa := PTE_ADDR e
        if pa = 0 then throw .deallocuvm
        kfree L pa
        store pte 0
      return .inl ((va + PAGESIZE) % 2 ^ 32)
    else return .inr new) loopFuel (PGROUNDUP new)

/-- `freevm`. -/
def freevm (L : Layout) (pgdir : ℕ) : Kern Unit := do
  if pgdir = 0 then throw .freevm
  let _ ← deallocuvm L pgdir USEREND KERNEND
  iterate .hang (fun i => do
    if i < NPDENT then
      let e ← load (pgdir + 4 * i)
      if present e then kfree L (PTE_ADDR e)
      return .inl (i + 1)
    else return .inr ()) loopFuel 256
  kfree L pgdir

/-- `kmap`, as `kvminit` fills it in: start, end and flags of each range. -/
def kmap (L : Layout) : List (ℕ × ℕ × ℕ) :=
  [(0, EXTMEM, PTE_W), (EXTMEM, L.rodata_end, 0), (L.rodata_end, MEMSIZE, PTE_W)]

/-- The loop of `setupkvm` over `kmap`; false when `mappages` fails. -/
def mapKernel (pgdir : ℕ) : List (ℕ × ℕ × ℕ) → Kern Bool
  | [] => return true
  | (start, stop, flags) :: ks => do
      if (← mappages pgdir start ((stop + (2 ^ 32 - start)) % 2 ^ 32) start flags) < 0 then
        return false
      mapKernel pgdir ks

/-- `setupkvm`; 0 when out of memory. -/
def setupkvm (L : Layout) : Kern ℕ := do
  let pgdir ← kalloc
  if pgdir = 0 then
    return 0
  memset pgdir 0 PAGESIZE
  if ← mapKernel pgdir (kmap L) then
    return pgdir
  freevm L pgdir
  return 0

/-- `inituvm`, which checks neither `kalloc` nor `mappages`. -/
def inituvm (pgdir start size : ℕ) : Kern Unit := do
  let pa ← kalloc
  memset pa 0 PAGESIZE
  let _ ← mappages pgdir KERNEND PAGESIZE pa (PTE_W ||| PTE_U)
  memmove start pa size

/-- `allocuvm`; 0 when out of memory. -/
def allocuvm (L : Layout) (pgdir old new : ℕ) : Kern ℕ := do
  if USEREND ≤ new then
    return 0
  if new < old then
    return old
  iterate .hang (fun va => do
    if va < new then
      let pa ← kalloc
      if pa = 0 then
        let _ ← deallocuvm L pgdir new old
        return .inr 0
      memset pa 0 PAGESIZE
      if (← mappages pgdir va PAGESIZE pa (PTE_W ||| PTE_U)) < 0 then
        let _ ← deallocuvm L pgdir new old
        kfree L pa
        return .inr 0
      return .inl ((va + PAGESIZE) % 2 ^ 32)
    else return .inr new) loopFuel (PGROUNDUP old)

/-- `ustack`: a guard page and a stack page above `start`; 0 when out of memory. -/
def ustack (L : Layout) (pgdir start : ℕ) : Kern ℕ := do
  let va := PGROUNDUP start
  if (← allocuvm L pgdir va ((va + 2 * PAGESIZE) % 2 ^ 32)) = 0 then
    return 0
  let pte ← walkpgdir pgdir va false
  store pte (clearUser (← load pte))
  return (va + 2 * PAGESIZE) % 2 ^ 32

/-- `copyuvm`; 0 when out of memory. -/
def copyuvm (L : Layout) (pgdir size : ℕ) : Kern ℕ := do
  let new ← setupkvm L
  if new = 0 then
    return 0
  iterate .hang (fun va => do
    if va < (KERNEND + size) % 2 ^ 32 then
      let pte ← walkpgdir pgdir va false
      if pte = 0 then throw .copyuvmPte
      let e ← load pte
      if ¬ present e then throw .copyuvmPage
      let mem ← kalloc
      if mem = 0 then
        freevm L new
        return .inr 0
      memmove (PTE_ADDR e) mem PAGESIZE
      if (← mappages new va PAGESIZE mem (PTE_FLAGS e)) < 0 then
        kfree L mem
        freevm L new
        return .inr 0
      return .inl ((va + PAGESIZE) % 2 ^ 32)
    else return .inr new) loopFuel KERNEND

/-- A file as `readi` reads it: at most `n` bytes from an offset on, or -1. -/
structure File where
  readi : ℕ → ℕ → Option (List UInt8)
  length_le : ∀ {offset n : ℕ} {bs : List UInt8}, readi offset n = some bs → bs.length ≤ n

/-- `loaduvm`; -1 when the file ends too early. -/
def loaduvm (pgdir va : ℕ) (ip : File) (offset size : ℕ) : Kern Int := do
  if va % PAGESIZE ≠ 0 then throw .loaduvmAddr
  iterate .hang (fun i => do
    if i < size then
      let pte ← walkpgdir pgdir ((va + i) % 2 ^ 32) false
      if pte = 0 then throw .loaduvmPde
      let pa := PTE_ADDR (← load pte)
      if pa = 0 then throw .loaduvmPte
      let n := if size - i < PAGESIZE then size - i else PAGESIZE
      match ip.readi ((offset + i) % 2 ^ 32) n with
      | none => return .inr (-1)
      | some bs =>
          modify fun s => { s with mem := s.mem.write pa bs }
          if bs.length ≠ n then return .inr (-1)
          return .inl ((i + PAGESIZE) % 2 ^ 32)
    else return .inr 0) loopFuel 0

/-- `copyout`: the bytes of the calling process from `src` on, or zeros when `src` is null,
go to another address space. -/
def copyout (pgdir va : ℕ) (src : Option (ℕ → UInt8)) (len : ℕ) : Kern Unit :=
  iterate .hang (fun (va, done, len) => do
    if 0 < len then
      let pte ← walkpgdir pgdir va false
      if pte = 0 then throw .copyout
      let e ← load pte
      if ¬ present e then throw .copyout
      let offset := va - PGROUNDDOWN va
      let n := if len < PAGESIZE - offset then len else PAGESIZE - offset
      let pa := PTE_ADDR e
      match src with
      | some src => modify fun s =>
          { s with mem := s.mem.write (pa + offset) ((List.range n).map fun k => src (done + k)) }
      | none => memset (pa + offset) 0 n
      return .inl ((va + n) % 2 ^ 32, done + n, len - n)
    else return .inr ()) loopFuel (va, 0, len)

/-! ## The turns of `copyout` -/

/-- The pages that a range touches. -/
def turns (va len : ℕ) : ℕ := if len = 0 then 0 else (va + len - 1) / 4096 - va / 4096 + 1

section Turns
variable {va len n : ℕ}

theorem turns_lt_loopFuel (hend : va + len ≤ 2 ^ 32) : turns va len < loopFuel := by
  simp only [turns, loopFuel]
  split <;> omega

/-- A turn ends at the end of the range or of the page. -/
theorem chunk_eq : (if len < PAGESIZE - va % 4096 then len else PAGESIZE - va % 4096) =
    min len (4096 - va % 4096) := by
  have hps : PAGESIZE = 4096 := rfl
  split <;> omega

/-- The next turn begins in the next page. -/
theorem turns_lt (hlen : 0 < len) (hn : min len (4096 - va % 4096) = n) :
    turns (va + n) (len - n) < turns va len := by
  simp only [turns]
  rw [if_neg (Nat.ne_of_gt hlen)]
  split
  next => omega
  next hrest =>
    have hpage : (va + n) / 4096 = va / 4096 + 1 := by omega
    have hlast : va + n + (len - n) - 1 = va + len - 1 := by omega
    rw [hpage, hlast]
    omega

theorem turns_mod_lt (hlen : 0 < len) (hend : va + len ≤ 2 ^ 32)
    (hn : min len (4096 - va % 4096) = n) :
    turns ((va + n) % 2 ^ 32) (len - n) < turns va len := by
  have hlt := turns_lt hlen hn
  by_cases hrest : len - n = 0
  · rw [turns, if_pos hrest] at hlt ⊢
    exact hlt
  · rwa [Nat.mod_eq_of_lt (by omega)]

end Turns

end Mixv6.Mm
