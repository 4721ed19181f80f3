import Mixv6.Lib.Mem
import Mathlib.Data.List.Induction

/-!
# The boot loader

`bootmain` of `boot/bootmain.c`: it reads the super block and the first sectors of the kernel
file, and then the segments of the program headers that it finds there.  Its variables are
locals; the headers and the super block are in the memory that it loads the segments into.

For each header the loader reads whole sectors, from the sector of the first byte on and to
a place that is rounded down by as much.  How many sectors, it computes from `filesz` alone,
and passes on as a byte.  The rest of the segment it clears from `paddr + 4 * filesz` on,
since `paddr` is a pointer to words there.

## Main definitions

* `bootmain`, `readseg`, `memclr` — the loader.
* `Transfer`, `Proghdr.transfers` — what the loader moves for a header.
* `last` — the last transfer that covers an address.
* `Apart`, `bootmain_eq` — the loader makes the transfers, if they leave alone what it reads.
* `Tidy`, `loaded_of_tidy` — program headers whose segments are in memory then.
-/

namespace Mixv6.Boot

open Mixv6.Lib

def SECTSIZE : ℕ := 512

/-- Scratch space for the first sectors of the file. -/
def ELF : ℕ := 0x8000

def SUPERADDR : ℕ := 0x10000

def SUPERBLOCK : ℕ := 1

/-- The end of the loader, which is a sector at `0x7C00`; its stack is below it. -/
def LOADEREND : ℕ := 0x7E00

/-- `"\x7FELF"`. -/
def ELF_MAGIC : ℕ := 0x464C457F

/-- The fields of `struct proghdr` that are used. -/
structure Proghdr where
  off : ℕ
  paddr : ℕ
  filesz : ℕ
  memsz : ℕ
  deriving DecidableEq

/-- `sizeof(struct proghdr)`. -/
def Proghdr.size : ℕ := 32

/-- The header at an address. -/
def Proghdr.load (m : Mem) (a : ℕ) : Proghdr :=
  ⟨m.load32 (a + 4), m.load32 (a + 12), m.load32 (a + 16), m.load32 (a + 20)⟩

/-- `sysfs->kernel`. -/
def kernel (m : Mem) : ℕ := m.load32 (SUPERADDR + 12)

/-- How far an address is behind another one, on 32 bits. -/
def behind (x a : ℕ) : ℕ := (x + (2 ^ 32 - a)) % 2 ^ 32

/-- `readseg`: sectors from `offset` on; `count` is a byte. -/
def readseg (disk : Mem) (addr count offset : ℕ) (m : Mem) : Mem := fun x =>
  if behind x addr < SECTSIZE * (count % 2 ^ 8) then disk (SECTSIZE * offset + behind x addr) else m x

/-- `memclr`. -/
def memclr (addr count : ℕ) (m : Mem) : Mem := fun x => if behind x addr < count then 0 else m x

/-- The body of the loop over the program headers. -/
def loadSegment (disk : Mem) (ph : ℕ) (m : Mem) : Mem :=
  let h := Proghdr.load m ph
  let pa := (h.paddr + (2 ^ 32 - h.off % SECTSIZE)) % 2 ^ 32
  let count := (h.filesz + SECTSIZE - 1) % 2 ^ 32 / SECTSIZE
  let offset := (h.off / SECTSIZE + kernel m) % 2 ^ 32
  let m := readseg disk pa count offset m
  -- The fields are read again.
  let h := Proghdr.load m ph
  if h.filesz < h.memsz then
    memclr ((h.paddr + 4 * h.filesz) % 2 ^ 32) (h.memsz - h.filesz) m
  else m

/-- The loop, with `n` headers left until `eph`. -/
def loadSegments (disk : Mem) : ℕ → ℕ → Mem → Mem
  | 0, _, m => m
  | n + 1, ph, m => loadSegments disk n (ph + Proghdr.size) (loadSegment disk ph m)

/-- `bootmain` up to the call of the kernel; `none` if there is no ELF file. -/
def bootmain (disk m : Mem) : Option Mem :=
  let m := readseg disk SUPERADDR 1 SUPERBLOCK m
  let m := readseg disk ELF 8 (kernel m) m
  if m.load32 ELF ≠ ELF_MAGIC then none
  else some (loadSegments disk (m.load16 (ELF + 44)) (ELF + m.load32 (ELF + 28)) m)

/-! ## The file -/

/-- The sector of the kernel file, in the super block on the disk. -/
def start (disk : Mem) : ℕ := disk.load32 (SECTSIZE * SUPERBLOCK + 12)

/-- The kernel file. -/
def file (disk : Mem) : Mem := fun k => disk (SECTSIZE * start disk + k)

def phoff (disk : Mem) : ℕ := (file disk).load32 28

def phnum (disk : Mem) : ℕ := (file disk).load16 44

/-- The program headers of the file. -/
def headers (disk : Mem) : List Proghdr :=
  (List.range (phnum disk)).map fun i => .load (file disk) (phoff disk + Proghdr.size * i)

/-- The kernel is an ELF file with its headers in the first 8 sectors, and the bytes of its
segments are on the disk. -/
structure Image (disk : Mem) : Prop where
  magic : (file disk).load32 0 = ELF_MAGIC
  fit : phoff disk + Proghdr.size * phnum disk ≤ 8 * SECTSIZE
  stored : ∀ h ∈ headers disk, start disk + h.off / SECTSIZE < 2 ^ 32

/-- The segments are in memory: the bytes of the file, and zeros behind them. -/
def Loaded (disk m : Mem) : Prop :=
  ∀ h ∈ headers disk,
    (∀ k < h.filesz, m ((h.paddr + k) % 2 ^ 32) = file disk (h.off + k)) ∧
      ∀ k, h.filesz ≤ k → k < h.memsz → m ((h.paddr + k) % 2 ^ 32) = 0

/-! ## Transfers -/

/-- What is moved at once: `len` bytes to `dst`, from an offset in the file or zeros. -/
structure Transfer where
  dst : ℕ
  len : ℕ
  src : Option ℕ
  deriving DecidableEq

namespace Transfer

/-- The transfer writes an address. -/
def Covers (t : Transfer) (x : ℕ) : Prop := behind x t.dst < t.len

instance decidableCovers (t : Transfer) (x : ℕ) : Decidable (t.Covers x) :=
  inferInstanceAs (Decidable (_ < _))

/-- The place in the file of the byte that a transfer brings to an address; none for a zero. -/
def place (t : Transfer) (x : ℕ) : Option ℕ := t.src.map (· + behind x t.dst)

/-- The byte that a transfer brings to an address. -/
def byte (f : Mem) (t : Transfer) (x : ℕ) : UInt8 := (t.place x).elim 0 f

def apply (f m : Mem) (t : Transfer) : Mem := fun x => if t.Covers x then t.byte f x else m x

end Transfer

/-- The transfers for a header. -/
def Proghdr.transfers (h : Proghdr) : List Transfer :=
  ⟨(h.paddr + (2 ^ 32 - h.off % SECTSIZE)) % 2 ^ 32,
    SECTSIZE * ((h.filesz + SECTSIZE - 1) % 2 ^ 32 / SECTSIZE % 2 ^ 8),
    some (SECTSIZE * (h.off / SECTSIZE))⟩ ::
  if h.filesz < h.memsz then [⟨(h.paddr + 4 * h.filesz) % 2 ^ 32, h.memsz - h.filesz, none⟩] else []

/-- All transfers, in their order. -/
def transfers (disk : Mem) : List Transfer := (headers disk).flatMap Proghdr.transfers

/-- The last transfer that covers an address. -/
def last (ts : List Transfer) (x : ℕ) : Option Transfer := ts.reverse.find? fun t => t.Covers x

/-- What the loader reads in the loop: its own code and its stack, the program headers, and
`sysfs->kernel`. -/
def Reads (disk : Mem) (x : ℕ) : Prop :=
  x < LOADEREND ∨ ELF + phoff disk ≤ x ∧ x < ELF + phoff disk + Proghdr.size * phnum disk ∨
    SUPERADDR + 12 ≤ x ∧ x < SUPERADDR + 16

/-- No transfer covers what the loader reads. -/
def Apart (disk : Mem) : Prop := ∀ t ∈ transfers disk, ∀ x, Reads disk x → ¬ t.Covers x

/-- The memory when the loop starts: the super block and the first sectors of the file. -/
def early (disk m : Mem) : Mem :=
  readseg disk ELF 8 (start disk) (readseg disk SUPERADDR 1 SUPERBLOCK m)

/-- What an address gets: the byte of the last transfer over it, or it keeps what it had. -/
def brought (disk m : Mem) (x : ℕ) : UInt8 :=
  match last (transfers disk) x with
  | none => early disk m x
  | some t => t.byte (file disk) x

variable {disk f m m' : Mem} {a k n x : ℕ} {ts : List Transfer}

/-! ## The last transfer -/

theorem last_concat (ts : List Transfer) (t : Transfer) (x : ℕ) :
    last (ts ++ [t]) x = if t.Covers x then some t else last ts x := by
  rw [last, List.reverse_append]
  by_cases h : t.Covers x <;> simp [h, last]

theorem last_append (ts us : List Transfer) (x : ℕ) :
    last (ts ++ us) x = (last us x).or (last ts x) := by
  simp [last, List.find?_append]

theorem last_eq_none (h : ∀ t ∈ ts, ¬ t.Covers x) : last ts x = none := by
  rw [last, List.find?_eq_none]
  intro t ht
  simpa using h t (List.mem_reverse.mp ht)

/-- It is one of the transfers. -/
theorem mem_of_last {t : Transfer} (h : last ts x = some t) : t ∈ ts ∧ t.Covers x :=
  ⟨List.mem_reverse.mp (List.mem_of_find?_eq_some h), by simpa using List.find?_some h⟩

/-- **The last transfer** over an address decides its byte. -/
theorem foldl_apply (f m : Mem) (ts : List Transfer) (x : ℕ) :
    ts.foldl (Transfer.apply f) m x =
      match last ts x with
      | none => m x
      | some t => t.byte f x := by
  induction ts using List.reverseRecOn with
  | nil => rfl
  | append_singleton ts t ih =>
      rw [List.foldl_append, last_concat]
      by_cases h : t.Covers x
      · simp [Transfer.apply, h]
      · simpa [Transfer.apply, h] using ih

/-- An address that no transfer covers keeps its byte. -/
theorem foldl_apply_of_not_covers (h : ∀ t ∈ ts, ¬ t.Covers x) :
    ts.foldl (Transfer.apply f) m x = m x := by
  rw [foldl_apply, last_eq_none h]

/-! ## The start -/

theorem behind_add (ha : a ≤ 2 ^ 32) (hk : k < 2 ^ 32) : behind (a + k) a = k := by
  simp only [behind]
  omega

theorem readseg_of_lt {count offset : ℕ} (ha : a ≤ 2 ^ 32) (hk : k < SECTSIZE * (count % 2 ^ 8)) :
    readseg disk a count offset m (a + k) = disk (SECTSIZE * offset + k) := by
  have hlt : k < 2 ^ 32 := by
    simp only [SECTSIZE] at hk
    omega
  rw [readseg, behind_add ha hlt, if_pos hk]

/-- The first sectors of the file. -/
theorem early_elf (hk : k < 8 * SECTSIZE) : early disk m (ELF + k) = file disk k := by
  rw [early, readseg_of_lt (by decide)]
  · rfl
  · simp only [SECTSIZE] at hk ⊢
    omega

/-- The super block. -/
theorem early_super (hk : k < SECTSIZE) :
    early disk m (SUPERADDR + k) = disk (SECTSIZE * SUPERBLOCK + k) := by
  have hbehind : ¬ behind (SUPERADDR + k) ELF < SECTSIZE * (8 % 2 ^ 8) := by
    simp only [SECTSIZE] at hk
    simp only [behind, SUPERADDR, ELF, SECTSIZE]
    omega
  rw [early, readseg, if_neg hbehind, readseg_of_lt (by decide)]
  simp only [SECTSIZE] at hk ⊢
  omega

/-- `sysfs->kernel`, once the super block has been read. -/
theorem kernel_eq (h : ∀ k < SECTSIZE, m (SUPERADDR + k) = disk (SECTSIZE * SUPERBLOCK + k)) :
    kernel m = start disk := by
  have hbyte : ∀ i < 4, m (SUPERADDR + 12 + i) = disk (SECTSIZE * SUPERBLOCK + 12 + i) := by
    intro i hi
    rw [Nat.add_assoc, Nat.add_assoc]
    exact h _ (by simp only [SECTSIZE]; omega)
  have h0 := hbyte 0 (by omega)
  simp only [Nat.add_zero] at h0
  simp only [kernel, start, Mem.load32, h0, hbyte 1 (by omega), hbyte 2 (by omega),
    hbyte 3 (by omega)]

/-- Words of the file in the scratch space. -/
theorem load32_early (hk : k + 4 ≤ 8 * SECTSIZE) :
    (early disk m).load32 (ELF + k) = (file disk).load32 k := by
  simp only [Mem.load32, Nat.add_assoc]
  rw [early_elf (by omega), early_elf (by omega), early_elf (by omega), early_elf (by omega)]

theorem load16_early (hk : k + 2 ≤ 8 * SECTSIZE) :
    (early disk m).load16 (ELF + k) = (file disk).load16 k := by
  simp only [Mem.load16, Nat.add_assoc]
  rw [early_elf (by omega), early_elf (by omega)]

/-! ## The loop -/

/-- A header depends on its bytes. -/
theorem Proghdr.load_congr (h : ∀ j < Proghdr.size, m' (a + j) = m (a + j)) :
    Proghdr.load m' a = Proghdr.load m a := by
  simp only [Proghdr.size] at h
  have hword : ∀ i, i + 4 ≤ 32 → m'.load32 (a + i) = m.load32 (a + i) := by
    intro i hi
    refine Mem.load32_congr fun k hk => ?_
    rw [Nat.add_assoc]
    exact h (i + k) (by omega)
  simp only [Proghdr.load, hword 4 (by omega), hword 12 (by omega), hword 16 (by omega),
    hword 20 (by omega)]

theorem kernel_congr (h : ∀ j < 4, m' (SUPERADDR + 12 + j) = m (SUPERADDR + 12 + j)) :
    kernel m' = kernel m := Mem.load32_congr h

/-- The sectors of a header are a transfer. -/
theorem readseg_eq {h : Proghdr} (hstored : start disk + h.off / SECTSIZE < 2 ^ 32) (m : Mem) :
    readseg disk ((h.paddr + (2 ^ 32 - h.off % SECTSIZE)) % 2 ^ 32)
        ((h.filesz + SECTSIZE - 1) % 2 ^ 32 / SECTSIZE) ((h.off / SECTSIZE + start disk) % 2 ^ 32) m =
      Transfer.apply (file disk) m
        ⟨(h.paddr + (2 ^ 32 - h.off % SECTSIZE)) % 2 ^ 32,
          SECTSIZE * ((h.filesz + SECTSIZE - 1) % 2 ^ 32 / SECTSIZE % 2 ^ 8),
          some (SECTSIZE * (h.off / SECTSIZE))⟩ := by
  funext x
  have hsector : (h.off / SECTSIZE + start disk) % 2 ^ 32 = start disk + h.off / SECTSIZE := by
    rw [Nat.add_comm, Nat.mod_eq_of_lt hstored]
  simp only [readseg, Transfer.apply, Transfer.Covers, Transfer.byte, Transfer.place, Option.map_some,
    Option.elim_some, file, hsector, Nat.mul_add, Nat.add_assoc]
  rfl

/-- One header, if its transfers leave it and the super block alone. -/
theorem loadSegment_eq {ph : ℕ} {h : Proghdr} (hload : Proghdr.load m ph = h)
    (hkernel : kernel m = start disk) (hstored : start disk + h.off / SECTSIZE < 2 ^ 32)
    (hkeep : ∀ t ∈ h.transfers, ∀ j < Proghdr.size, ¬ t.Covers (ph + j)) :
    loadSegment disk ph m = h.transfers.foldl (Transfer.apply (file disk)) m := by
  obtain ⟨t, ht⟩ : ∃ t : Transfer, t = ⟨(h.paddr + (2 ^ 32 - h.off % SECTSIZE)) % 2 ^ 32,
      SECTSIZE * ((h.filesz + SECTSIZE - 1) % 2 ^ 32 / SECTSIZE % 2 ^ 8),
      some (SECTSIZE * (h.off / SECTSIZE))⟩ := ⟨_, rfl⟩
  have hmem : t ∈ h.transfers := by
    rw [ht]
    exact List.mem_cons_self
  have hagain : Proghdr.load (Transfer.apply (file disk) m t) ph = h := by
    rw [← hload]
    exact Proghdr.load_congr fun j hj => if_neg (hkeep t hmem j hj)
  simp only [loadSegment, hload, hkernel, readseg_eq hstored, ← ht, hagain]
  rw [Proghdr.transfers, ← ht, List.foldl_cons]
  split
  next => rfl
  next => rfl

/-- What the loop reads stays as it is. -/
structure Kept (disk : Mem) (ph : ℕ) (hs : List Proghdr) (m : Mem) : Prop where
  header : ∀ j (hj : j < hs.length), Proghdr.load m (ph + Proghdr.size * j) = hs[j]
  kernel : kernel m = start disk

/-- **The loop** makes the transfers of the headers, one after another. -/
theorem loadSegments_eq {hs : List Proghdr} {ph : ℕ} (hkept : Kept disk ph hs m)
    (hstored : ∀ h ∈ hs, start disk + h.off / SECTSIZE < 2 ^ 32)
    (hheaders : ∀ t ∈ hs.flatMap Proghdr.transfers, ∀ j < Proghdr.size * hs.length, ¬ t.Covers (ph + j))
    (hsuper : ∀ t ∈ hs.flatMap Proghdr.transfers, ∀ j < 4, ¬ t.Covers (SUPERADDR + 12 + j)) :
    loadSegments disk hs.length ph m =
      (hs.flatMap Proghdr.transfers).foldl (Transfer.apply (file disk)) m := by
  induction hs generalizing ph m with
  | nil => rfl
  | cons h hs ih =>
      have hsize : Proghdr.size * (h :: hs).length = Proghdr.size + Proghdr.size * hs.length := by
        rw [List.length_cons, Nat.mul_succ, Nat.add_comm]
      rw [hsize] at hheaders
      have hfirst : ∀ t ∈ h.transfers, t ∈ (h :: hs).flatMap Proghdr.transfers :=
        fun t ht => List.mem_flatMap.mpr ⟨h, List.mem_cons_self, ht⟩
      have hrest : ∀ t ∈ hs.flatMap Proghdr.transfers, t ∈ (h :: hs).flatMap Proghdr.transfers := by
        intro t ht
        obtain ⟨g, hg, ht⟩ := List.mem_flatMap.mp ht
        exact List.mem_flatMap.mpr ⟨g, List.mem_cons_of_mem h hg, ht⟩
      have hload : Proghdr.load m ph = h := hkept.header 0 (Nat.succ_pos _)
      have hone : loadSegment disk ph m = h.transfers.foldl (Transfer.apply (file disk)) m :=
        loadSegment_eq hload hkept.kernel (hstored h List.mem_cons_self)
          fun t ht j hj => hheaders t (hfirst t ht) j (by omega)
      have hnext : Kept disk (ph + Proghdr.size) hs (loadSegment disk ph m) := by
        rw [hone]
        refine ⟨?_, ?_⟩
        · intro j hj
          have hold := hkept.header (j + 1) (Nat.succ_lt_succ hj)
          rw [List.getElem_cons_succ] at hold
          have haddr : ph + Proghdr.size + Proghdr.size * j = ph + Proghdr.size * (j + 1) := by
            rw [Nat.mul_succ]; omega
          rw [← hold, haddr]
          refine Proghdr.load_congr fun i hi => foldl_apply_of_not_covers fun t ht => ?_
          rw [Nat.add_assoc]
          have hle : Proghdr.size * (j + 1) ≤ Proghdr.size * hs.length := Nat.mul_le_mul_left _ hj
          exact hheaders t (hfirst t ht) _ (by omega)
        · rw [← hkept.kernel]
          exact kernel_congr fun i hi => foldl_apply_of_not_covers fun t ht => hsuper t (hfirst t ht) i hi
      have htail := ih hnext (fun g hg => hstored g (List.mem_cons_of_mem h hg))
        (fun t ht j hj => by
          rw [Nat.add_assoc]
          exact hheaders t (hrest t ht) (Proghdr.size + j) (by omega))
        (fun t ht => hsuper t (hrest t ht))
      rw [List.length_cons, loadSegments, htail, hone, List.flatMap_cons, List.foldl_append]

/-! ## The loader -/

/-- The headers are in the scratch space when the loop starts. -/
theorem kept_early (hfit : phoff disk + Proghdr.size * phnum disk ≤ 8 * SECTSIZE) (m : Mem) :
    Kept disk (ELF + phoff disk) (headers disk) (early disk m) := by
  refine ⟨?_, kernel_eq fun k hk => early_super hk⟩
  intro j hj
  have hlen : j < phnum disk := by simpa [headers] using hj
  have hle : Proghdr.size * (j + 1) ≤ Proghdr.size * phnum disk := Nat.mul_le_mul_left _ hlen
  rw [Nat.mul_succ] at hle
  simp only [headers, List.getElem_map, List.getElem_range]
  simp only [Proghdr.size] at hle hfit ⊢
  simp only [Proghdr.load, Nat.add_assoc]
  rw [load32_early (by omega), load32_early (by omega), load32_early (by omega),
    load32_early (by omega)]

/-- **`bootmain`** makes the transfers of the headers, if they leave alone what it reads. -/
theorem bootmain_eq (himage : Image disk) (hapart : Apart disk) (m : Mem) :
    ∃ m', bootmain disk m = some m' ∧ ∀ x, m' x = brought disk m x := by
  have hearly : readseg disk ELF 8 (kernel (readseg disk SUPERADDR 1 SUPERBLOCK m))
      (readseg disk SUPERADDR 1 SUPERBLOCK m) = early disk m := by
    have hkernel : kernel (readseg disk SUPERADDR 1 SUPERBLOCK m) = start disk :=
      kernel_eq fun k hk => readseg_of_lt (by decide) (by simp only [SECTSIZE] at hk ⊢; omega)
    rw [hkernel, early]
  have hmagic : (early disk m).load32 ELF = ELF_MAGIC := by
    rw [← himage.magic, ← load32_early (by decide), Nat.add_zero]
  have hoff : (early disk m).load32 (ELF + 28) = phoff disk := load32_early (by decide)
  have hnum : (early disk m).load16 (ELF + 44) = phnum disk := load16_early (by decide)
  have hlen : (headers disk).length = phnum disk := by simp [headers]
  have hloop := loadSegments_eq (kept_early himage.fit m) himage.stored
    (fun t ht j hj => hapart t ht _ (.inr (.inl ⟨by omega, by rw [hlen] at hj; omega⟩)))
    (fun t ht j hj => hapart t ht _ (.inr (.inr ⟨by omega, by omega⟩)))
  rw [hlen] at hloop
  refine ⟨_, ?_, foldl_apply (file disk) (early disk m) (transfers disk)⟩
  simp only [bootmain, hearly, hmagic, hoff, hnum, hloop]
  rfl

/-! ## Kernels that are loaded -/

/-- The place in the file of byte `k` of a segment; none for the zeros behind its bytes. -/
def Proghdr.place (h : Proghdr) (k : ℕ) : Option ℕ := if k < h.filesz then some (h.off + k) else none

/-- Headers whose sectors reach the last byte, that have either bytes in the file or zeros, and
that are not written over by later ones, but with the same bytes of the file. -/
structure Tidy (hs : List Proghdr) : Prop where
  whole : ∀ h ∈ hs, h.off % SECTSIZE + h.filesz ≤
    SECTSIZE * ((h.filesz + SECTSIZE - 1) % 2 ^ 32 / SECTSIZE % 2 ^ 8)
  zeros : ∀ h ∈ hs, h.memsz ≤ h.filesz ∨ h.filesz = 0
  apart : hs.Pairwise fun h g => ∀ t ∈ g.transfers, ∀ k < max h.filesz h.memsz,
    t.Covers ((h.paddr + k) % 2 ^ 32) → t.place ((h.paddr + k) % 2 ^ 32) = h.place k

/-- The words of a header. -/
theorem lt_of_mem_headers {h : Proghdr} (hh : h ∈ headers disk) :
    h.filesz < 2 ^ 32 ∧ h.memsz < 2 ^ 32 := by
  obtain ⟨i, -, rfl⟩ := List.mem_map.mp hh
  exact ⟨Mem.load32_lt _ _, Mem.load32_lt _ _⟩

namespace Tidy
variable {hs : List Proghdr} {h : Proghdr}

/-- The sectors of a header bring the bytes of its segment. -/
theorem last_bytes (htidy : Tidy hs) (hh : h ∈ hs) (hfilesz : h.filesz < 2 ^ 32)
    (hk : k < h.filesz) : ∃ t, last h.transfers ((h.paddr + k) % 2 ^ 32) = some t ∧
      t.place ((h.paddr + k) % 2 ^ 32) = h.place k := by
  have hwhole := htidy.whole h hh
  have hsize : SECTSIZE = 512 := rfl
  rw [hsize] at hwhole
  have hnoclear : ¬ h.filesz < h.memsz := by
    rcases htidy.zeros h hh with hle | hzero <;> omega
  have hbehind : behind ((h.paddr + k) % 2 ^ 32)
      ((h.paddr + (2 ^ 32 - h.off % SECTSIZE)) % 2 ^ 32) = h.off % SECTSIZE + k := by
    rw [hsize]
    simp only [behind]
    omega
  rw [Proghdr.transfers, if_neg hnoclear, ← List.nil_append [_], last_concat, if_pos]
  · refine ⟨_, rfl, ?_⟩
    simp only [Transfer.place, Option.map_some, hbehind, Proghdr.place, if_pos hk]
    rw [← Nat.add_assoc, Nat.div_add_mod]
  · simp only [Transfer.Covers, hbehind]
    simp only [hsize]
    omega

/-- The zeros of a header are those of its segment. -/
theorem last_zeros (htidy : Tidy hs) (hh : h ∈ hs) (hmemsz : h.memsz < 2 ^ 32)
    (hge : h.filesz ≤ k) (hk : k < h.memsz) : ∃ t, last h.transfers ((h.paddr + k) % 2 ^ 32) = some t ∧
      t.place ((h.paddr + k) % 2 ^ 32) = h.place k := by
  have hzero : h.filesz = 0 := by
    rcases htidy.zeros h hh with hle | hzero <;> omega
  have hbehind : behind ((h.paddr + k) % 2 ^ 32) ((h.paddr + 4 * h.filesz) % 2 ^ 32) = k := by
    rw [hzero]
    simp only [behind]
    omega
  have hclear : h.filesz < h.memsz := by omega
  rw [Proghdr.transfers, if_pos hclear, ← List.singleton_append, last_concat, if_pos]
  · refine ⟨_, rfl, ?_⟩
    rw [Proghdr.place, if_neg (by omega)]
    rfl
  · simp only [Transfer.Covers, hbehind]
    omega

/-- The last transfer over a byte of a segment brings what belongs there, whichever header it is for. -/
theorem last_place (htidy : Tidy hs) (hh : h ∈ hs) (hk : k < max h.filesz h.memsz)
    (hown : ∃ t, last h.transfers ((h.paddr + k) % 2 ^ 32) = some t ∧
      t.place ((h.paddr + k) % 2 ^ 32) = h.place k) :
    ∃ t, last (hs.flatMap Proghdr.transfers) ((h.paddr + k) % 2 ^ 32) = some t ∧
      t.place ((h.paddr + k) % 2 ^ 32) = h.place k := by
  obtain ⟨t, ht, hplace⟩ := hown
  obtain ⟨pre, post, rfl⟩ := List.append_of_mem hh
  rw [List.flatMap_append, List.flatMap_cons, last_append, last_append, ht]
  rcases hlast : last (post.flatMap Proghdr.transfers) ((h.paddr + k) % 2 ^ 32) with _ | u
  · exact ⟨t, rfl, hplace⟩
  · obtain ⟨hu, hcovers⟩ := mem_of_last hlast
    obtain ⟨g, hg, hu⟩ := List.mem_flatMap.mp hu
    have hpair := (List.pairwise_append.mp htidy.apart).2.1
    exact ⟨u, rfl, (List.pairwise_cons.mp hpair).1 g hg u hu k hk hcovers⟩

end Tidy

/-- **Tidy headers.**  The segments of a kernel are in memory, whatever is in its file and in memory, if
its headers are tidy and the transfers leave alone what the loader reads. -/
theorem loaded_of_tidy (himage : Image disk) (hapart : Apart disk) (htidy : Tidy (headers disk)) (m : Mem) :
    ∃ m', bootmain disk m = some m' ∧ Loaded disk m' := by
  obtain ⟨m', hm', hbrought⟩ := bootmain_eq himage hapart m
  have hbyte : ∀ h ∈ headers disk, ∀ k < max h.filesz h.memsz,
      m' ((h.paddr + k) % 2 ^ 32) = (h.place k).elim 0 (file disk) := by
    intro h hh k hk
    obtain ⟨hfilesz, hmemsz⟩ := lt_of_mem_headers hh
    have hown : ∃ t, last h.transfers ((h.paddr + k) % 2 ^ 32) = some t ∧
        t.place ((h.paddr + k) % 2 ^ 32) = h.place k := by
      by_cases hfile : k < h.filesz
      · exact htidy.last_bytes hh hfilesz hfile
      · exact htidy.last_zeros hh hmemsz (by omega) (by omega)
    obtain ⟨t, hlast, hplace⟩ := htidy.last_place hh hk hown
    rw [hbrought, brought, transfers, hlast]
    simp only [Transfer.byte, hplace]
  refine ⟨m', hm', fun h hh => ⟨fun k hk => ?_, fun k hge hk => ?_⟩⟩
  · rw [hbyte h hh k (by omega), Proghdr.place, if_pos hk, Option.elim_some]
  · rw [hbyte h hh k (by omega), Proghdr.place, if_neg (by omega), Option.elim_none]

/-- Transfers to above the super block leave alone what the loader reads. -/
theorem apart_of_high (himage : Image disk)
    (hhigh : ∀ t ∈ transfers disk, SUPERADDR + 16 ≤ t.dst ∧ t.dst + t.len ≤ 2 ^ 32) : Apart disk := by
  intro t ht x hx
  obtain ⟨hlow, hend⟩ := hhigh t ht
  have hfit := himage.fit
  simp only [Reads, LOADEREND, ELF, SUPERADDR, SECTSIZE] at hx hlow hfit
  simp only [Transfer.Covers, behind]
  omega

/-! ## Two kernels -/

/-- A program header in memory. -/
def Proghdr.store (m : Mem) (a : ℕ) (h : Proghdr) : Mem :=
  (((m.store32 (a + 4) h.off).store32 (a + 12) h.paddr).store32 (a + 16) h.filesz).store32 (a + 20) h.memsz

/-- A disk with a kernel from sector 2 on, given by its program headers; the other bytes are 1. -/
def sample (hs : List Proghdr) : Mem :=
  let m : Mem := fun _ => 1
  let m := m.store32 (SECTSIZE + 12) 2
  let m := (m.store32 1024 ELF_MAGIC).store32 (1024 + 28) 52
  let m := m.store16 (1024 + 44) hs.length
  hs.zipIdx.foldl (fun m p => p.1.store m (1024 + 52 + Proghdr.size * p.2)) m

/-- The code of a kernel, its data, which go on in the code's last sector, and its zeros. -/
def kernelHeaders : List Proghdr :=
  [⟨4096, 0x100000, 700, 700⟩, ⟨4796, 0x1002BC, 1324, 1324⟩, ⟨0, 0x200000, 0, 4096⟩]

/-- The sectors of the data bring the end of the code again. -/
theorem loaded_of_tidy_sample : ∃ m', bootmain (sample kernelHeaders) (fun _ => 0) = some m' ∧
    Loaded (sample kernelHeaders) m' := by
  have hh : headers (sample kernelHeaders) = kernelHeaders := by decide
  have himage : Image (sample kernelHeaders) := ⟨by decide, by decide, by rw [hh]; decide⟩
  have hapart : Apart (sample kernelHeaders) := by
    apply apart_of_high himage
    rw [transfers, hh]
    decide
  refine loaded_of_tidy himage hapart ?_ _
  rw [hh]
  refine ⟨by decide, by decide, ?_⟩
  have hdata : Proghdr.transfers ⟨4796, 0x1002BC, 1324, 1324⟩ = [⟨0x100200, 1536, some 4608⟩] := by decide
  have hzeros : Proghdr.transfers ⟨0, 0x200000, 0, 4096⟩ =
      [⟨0x200000, 0, some 0⟩, ⟨0x200000, 4096, none⟩] := by decide
  refine .cons ?_ (.cons ?_ (List.pairwise_singleton _ _))
  · intro g hg t ht k hk hcovers
    replace hk : k < 700 := hk
    simp only [List.mem_cons, List.not_mem_nil, or_false] at hg
    rcases hg with rfl | rfl
    · rw [hdata, List.mem_singleton] at ht
      subst ht
      have hplace : 4608 + ((0x100000 + k) % 2 ^ 32 + (2 ^ 32 - 0x100200)) % 2 ^ 32 = 4096 + k := by
        simp only [Transfer.Covers, behind] at hcovers
        omega
      simp only [Transfer.place, behind, Proghdr.place, Option.map_some, hplace]
      rw [if_pos hk]
    · rw [hzeros] at ht
      simp only [List.mem_cons, List.not_mem_nil, or_false] at ht
      rcases ht with rfl | rfl <;> (simp only [Transfer.Covers, behind] at hcovers; omega)
  · intro g hg t ht k hk hcovers
    replace hk : k < 1324 := hk
    rw [List.mem_singleton.mp hg, hzeros] at ht
    simp only [List.mem_cons, List.not_mem_nil, or_false] at ht
    rcases ht with rfl | rfl <;> (simp only [Transfer.Covers, behind] at hcovers; omega)

/-- A segment of one sector that starts inside a sector: its second part is not read. -/
theorem not_loaded_sample :
    Image (sample [⟨5000, 0x100000, 512, 512⟩]) ∧
      ¬ ∃ m', bootmain (sample [⟨5000, 0x100000, 512, 512⟩]) (fun _ => 0) = some m' ∧
        Loaded (sample [⟨5000, 0x100000, 512, 512⟩]) m' := by
  have hh : headers (sample [⟨5000, 0x100000, 512, 512⟩]) = [⟨5000, 0x100000, 512, 512⟩] := by decide
  have himage : Image (sample [⟨5000, 0x100000, 512, 512⟩]) :=
    ⟨by decide, by decide, by rw [hh]; decide⟩
  have hapart : Apart (sample [⟨5000, 0x100000, 512, 512⟩]) := by
    apply apart_of_high himage
    rw [transfers, hh]
    decide
  apply And.intro himage
  rintro ⟨m', hm', hloaded⟩
  obtain ⟨m'', hm'', hbrought⟩ := bootmain_eq himage hapart fun _ => 0
  obtain rfl : m' = m'' := Option.some.inj (hm'.symm.trans hm'')
  rw [Loaded, hh] at hloaded
  have hbyte := (hloaded _ List.mem_cons_self).1 200 (by decide)
  rw [hbrought] at hbyte
  exact absurd hbyte (by decide)

end Mixv6.Boot
