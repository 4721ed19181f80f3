import Mathlib.Algebra.Ring.Nat

/-!
# The memory map

The constants of `mm/map.h` and the page arithmetic of `kernel/mm/vm.h`, on 32-bit
words as natural numbers below `2 ^ 32`.  Masks that keep or clear whole low-order or
high-order fields are written as division and remainder.

## Main definitions

* `KERNEND`, `USEREND`, `MEMSIZE`, `PAGESIZE` — the memory map.
* `PGROUNDUP`, `PDX`, `PTX`, `PTE_ADDR` — page arithmetic.
* `Layout` — what the linker script says about the kernel image.
-/

namespace Mixv6.Mm

/-- CGA memory. -/
def CGAADDR : ℕ := 0xB8000
/-- `[0, EXTMEM)` is I/O space. -/
def EXTMEM : ℕ := 0x100000
/-- The end of the kernel half of every address space. -/
def KERNEND : ℕ := 0x40000000
/-- The end of user space. -/
def USEREND : ℕ := 0xFFC00000
/-- The size of the physical memory. -/
def MEMSIZE : ℕ := 0x20000000
def PAGESIZE : ℕ := 0x1000
/-- The number of entries of a page directory. -/
def NPDENT : ℕ := 1024

def PTE_P : ℕ := 0x001
def PTE_W : ℕ := 0x002
def PTE_U : ℕ := 0x004

/-- `((sz) + PAGESIZE - 1) & ~(PAGESIZE - 1)`. -/
def PGROUNDUP (sz : ℕ) : ℕ := (sz + (PAGESIZE - 1)) % 2 ^ 32 / PAGESIZE * PAGESIZE

/-- `(a) & ~(PAGESIZE - 1)`. -/
def PGROUNDDOWN (a : ℕ) : ℕ := a / PAGESIZE * PAGESIZE

/-- `(va >> 22) & 0x3FF`. -/
def PDX (va : ℕ) : ℕ := va / 2 ^ 22 % 1024

/-- `(va >> 12) & 0x3FF`. -/
def PTX (va : ℕ) : ℕ := va / 2 ^ 12 % 1024

/-- `(d) << 22 | (t) << 12 | (o)`. -/
def PGADDR (d t o : ℕ) : ℕ := (d <<< 22 ||| t <<< 12 ||| o) % 2 ^ 32

/-- `(pte) & ~0xFFF`. -/
def PTE_ADDR (pte : ℕ) : ℕ := pte / 0x1000 * 0x1000

/-- `(pte) & 0xFFF`. -/
def PTE_FLAGS (pte : ℕ) : ℕ := pte % 0x1000

/-- `pte & PTE_P`. -/
def present (pte : ℕ) : Bool := pte % 2 = 1

/-- `pte & ~PTE_U`. -/
def clearUser (pte : ℕ) : ℕ := if pte / 4 % 2 = 1 then pte - 4 else pte

/-- The symbols that `kernel.ls` provides: both are page boundaries, and the image of the
kernel lies between `EXTMEM` and the end of the memory. -/
structure Layout where
  rodata_end : ℕ
  kernel_end : ℕ
  rodata_aligned : rodata_end % PAGESIZE = 0
  kernel_aligned : kernel_end % PAGESIZE = 0
  ext_le : EXTMEM ≤ rodata_end
  rodata_le : rodata_end ≤ kernel_end
  kernel_le : kernel_end ≤ MEMSIZE

/-- Flags in the low bits of a page address. -/
theorem or_flags {pa flags : ℕ} (hpa : pa % 4096 = 0) (hflags : flags < 4096) :
    pa ||| flags = pa + flags := by
  have h := Nat.two_pow_add_eq_or_of_lt (i := 12) (b := flags) (by omega) (pa / 4096)
  rw [show 2 ^ 12 * (pa / 4096) = pa by omega] at h
  exact h.symm

/-- The entry that `mappages` stores. -/
theorem pte_eq {pa flags : ℕ} (hpa : pa % 4096 = 0) (hflags : flags < 4096) :
    pa ||| flags ||| PTE_P = pa + (flags ||| 1) := by
  rw [Nat.or_assoc]
  exact or_flags hpa (Nat.or_lt_two_pow (n := 12) (by omega) (by decide))

theorem present_pte {pa flags : ℕ} (hpa : pa % 4096 = 0) : present (pa + (flags ||| 1)) := by
  have h : (flags ||| 1) % 2 = 1 := by
    rw [Nat.or_mod_two_eq_one]
    exact .inr rfl
  simp only [present, decide_eq_true_eq]
  omega

theorem PTE_ADDR_pte {pa flags : ℕ} (hpa : pa % 4096 = 0) (hflags : flags < 4096) :
    PTE_ADDR (pa + (flags ||| 1)) = pa := by
  have h : flags ||| 1 < 2 ^ 12 := Nat.or_lt_two_pow (by omega) (by decide)
  simp only [PTE_ADDR]
  omega

theorem pte_lt {pa flags : ℕ} (hpa : pa % 4096 = 0) (hlt : pa < 2 ^ 32) (hflags : flags < 4096) :
    pa + (flags ||| 1) < 2 ^ 32 := by
  have h : flags ||| 1 < 2 ^ 12 := Nat.or_lt_two_pow (by omega) (by decide)
  omega

theorem PTE_ADDR_mod (e : ℕ) : PTE_ADDR e % 4096 = 0 := Nat.mul_mod_left ..

/-- A directory entry has the address of a page table and three flags. -/
theorem present_table {t : ℕ} (ht : t % 4096 = 0) : present (t + 7) := by
  simp only [present, decide_eq_true_eq]
  omega

theorem PTE_ADDR_table {t : ℕ} (ht : t % 4096 = 0) : PTE_ADDR (t + 7) = t := by
  simp only [PTE_ADDR]
  omega

/-! ## Page numbers -/

section PageNumbers
variable {a v n : ℕ}

theorem PDX_eq (ha : a < 2 ^ 32) : PDX a = a / 2 ^ 22 := by
  simp only [PDX]
  omega

theorem PDX_div (ha : a < 2 ^ 32) : PDX a = a / 4096 / 1024 := by
  simp only [PDX]
  omega

theorem PDX_page (hv : v < 0x100000) : PDX (4096 * v) = v / 1024 := by
  simp only [PDX]
  omega

theorem PTX_page : PTX (4096 * v) = v % 1024 := by
  simp only [PTX]
  omega

theorem PGROUNDUP_eq (ha : a ≤ USEREND) : PGROUNDUP a = 4096 * ((a + 4095) / 4096) := by
  simp only [USEREND] at ha
  simp only [PGROUNDUP, PAGESIZE]
  omega

theorem PGROUNDUP_kernel_end (L : Layout) : PGROUNDUP L.kernel_end = L.kernel_end := by
  have halign := L.kernel_aligned
  have hle := L.kernel_le
  simp only [PAGESIZE] at halign
  simp only [MEMSIZE] at hle
  simp only [PGROUNDUP, PAGESIZE]
  omega

/-- The next address in a loop over pages. -/
theorem add_PAGESIZE (ha : a + 4096 < 2 ^ 32) : (a + PAGESIZE) % 2 ^ 32 = a + 4096 :=
  Nat.mod_eq_of_lt ha

theorem page_add_PAGESIZE (hv : v < 0xFFFFF) : (4096 * v + PAGESIZE) % 2 ^ 32 = 4096 * (v + 1) := by
  rw [add_PAGESIZE (by omega)]
  omega

theorem PGROUNDDOWN_page : PGROUNDDOWN (4096 * v) = 4096 * v := by
  simp only [PGROUNDDOWN, PAGESIZE]
  omega

/-- The last page of a range, with the wrap of `va + size - 1`. -/
theorem PGROUNDDOWN_last (hpos : 0 < v + n) (hle : v + n ≤ 0x100000) :
    PGROUNDDOWN ((4096 * v + 4096 * n + (2 ^ 32 - 1)) % 2 ^ 32) = 4096 * (v + n - 1) := by
  simp only [PGROUNDDOWN, PAGESIZE]
  omega

theorem sub_PGROUNDDOWN : a - PGROUNDDOWN a = a % 4096 := by
  simp only [PGROUNDDOWN, PAGESIZE]
  omega

end PageNumbers

end Mixv6.Mm
