import Mixv6.Fs.Room

/-!
# What the image accounts for

The sectors behind the boot block and the superblock belong to a file, or are free.  `balloc`
is asked for 512 sectors for the directory, which uses one of them; nothing names the other 511.

## Main definitions

* `usedInodes`, `usedSectors` — the inodes and the sectors that are in use.
* `Accounts` — the sectors in use and the free sectors are all sectors, and none twice.
* `Image.count_inodes`, `Image.count_sectors` — how often each of them is there.
* `not_accounts` — the image never accounts for all sectors.
-/

namespace Mixv6.Fs.Mkfs

open Mixv6.Lib
open Mixv6.Syscall (NDIRENT)

variable {m : Mem} {kernel : List UInt8} {dir : ℕ} {files : Args}

/-! ## The sectors in use -/

/-- The sector of the root directory. -/
def rootsector (m : Mem) : ℕ := (dinodeAt m (512 * m.load32 (512 + 8))).addr 0

/-- The inodes in use: the root directory, and those that are in it. -/
def usedInodes (m : Mem) : List ℕ :=
  m.load32 (512 + 8) ::
    ((List.range' 0 NDIRENT).map fun i => (entryAt m (512 * rootsector m) i).1).filter (· ≠ 0)

/-- The sectors of an inode. -/
def sectorsAt (m : Mem) (ino : ℕ) : List ℕ :=
  (List.range' 0 (((dinodeAt m (512 * ino)).size + 511) / 512)).map (dinodeAt m (512 * ino)).addr

/-- The sectors in use: those of the kernel and of the inodes. -/
def usedSectors (m : Mem) (kernel : List UInt8) : List ℕ :=
  List.range' (m.load32 (512 + 12)) (blocks kernel) ++ (usedInodes m).flatMap (sectorsAt m)

/-- Each inode and each sector is in use, or it is in the lists of the free ones, and it is
there once. -/
structure Accounts (m : Mem) (kernel : List UInt8) : Prop where
  inodes : ∃ free, Chain m (m.load32 (512 + 20)) free ∧
    ∀ i, 2 ≤ i → i < NINODES → (usedInodes m ++ free).count i = 1
  sectors : ∃ free, Chain m (m.load32 (512 + 16)) free ∧
    ∀ b, NINODES ≤ b → b < NBLOCKS → (usedSectors m kernel ++ free).count b = 1

/-! ## The sectors in use in the image -/

/-- Ranges that follow each other. -/
theorem flatMap_range' {α : Type} {g : ℕ → List ℕ} {size : α → ℕ} {l : List α} {k a : ℕ}
    (hg : ∀ i x, l[i]? = some x → g (k + i) = List.range' (a + ((l.take i).map size).sum) (size x)) :
    (List.range' k l.length).flatMap g = List.range' a (l.map size).sum := by
  induction l generalizing k a with
  | nil => rfl
  | cons x l ih =>
      have hfirst := hg 0 x rfl
      simp only [Nat.add_zero, List.take_zero, List.map_nil, List.sum_nil] at hfirst
      have hrest := ih (k := k + 1) (a := a + size x) fun i y hy => by
        have hnext := hg (i + 1) y hy
        simp only [List.take_succ_cons, List.map_cons, List.sum_cons] at hnext
        rwa [show k + 1 + i = k + (i + 1) by omega, Nat.add_assoc]
      rw [List.length_cons, List.range'_succ, List.flatMap_cons, hfirst, hrest, List.map_cons,
        List.sum_cons, List.range'_append_1]

namespace Stored

variable (h : Stored m kernel dir files)
include h

theorem rootsector_eq : rootsector m = dir := by
  rw [rootsector, h.rootdir]
  exact h.dirno

/-- The entries of the files, and the entries behind them. -/
theorem usedInodes_eq (hlen : files.length ≤ NDIRENT) : usedInodes m = List.range' 2 (1 + files.length) := by
  have hd : NDIRENT = 16 := rfl
  have hentry : ∀ i, (entryAt m (512 * dir) i).1 = m.load32 (512 * dir + 32 * i) := fun i => rfl
  have hfiles : ((List.range' 0 files.length).map fun i => (entryAt m (512 * dir) i).1).filter
      (· ≠ 0) = List.range' 3 files.length := by
    have hmap : ((List.range' 0 files.length).map fun i => (entryAt m (512 * dir) i).1) =
        List.range' 3 files.length := by
      rw [List.range'_eq_map_range, List.range'_eq_map_range, List.map_map]
      apply List.map_congr_left
      intro i hi
      have hlt := List.mem_range.mp hi
      have hf : files[i]? = some files[i] := List.getElem?_eq_getElem hlt
      simp only [Function.comp_apply, Nat.zero_add, (h.file i _ hf).entry]
    rw [hmap, List.filter_eq_self]
    intro i hi
    rw [List.mem_range'_1] at hi
    simpa using (by omega : i ≠ 0)
  have hrest : ((List.range' files.length (NDIRENT - files.length)).map fun i =>
      (entryAt m (512 * dir) i).1).filter (· ≠ 0) = [] := by
    rw [List.filter_eq_nil_iff]
    intro e he
    obtain ⟨i, hi, rfl⟩ := List.mem_map.mp he
    rw [List.mem_range'_1] at hi
    have hbyte : ∀ k < 4, m (512 * dir + 32 * i + k) = 0 := fun k hk => h.rest _ (by omega) (by omega)
    have h0 := hbyte 0 (by omega)
    simp only [Nat.add_zero] at h0
    simp [hentry, Mem.load32, h0, hbyte 1 (by omega), hbyte 2 (by omega), hbyte 3 (by omega)]
  have hsplit : List.range' 0 NDIRENT =
      List.range' 0 files.length ++ List.range' files.length (NDIRENT - files.length) := by
    rw [show List.range' files.length (NDIRENT - files.length) =
      List.range' (0 + files.length) (NDIRENT - files.length) by rw [Nat.zero_add],
      List.range'_append_1, show files.length + (NDIRENT - files.length) = NDIRENT by omega]
  rw [usedInodes, h.rootsector_eq, h.rootdir, hsplit, List.map_append, List.filter_append, hfiles, hrest,
    List.append_nil, Nat.add_comm, List.range'_succ]

/-- The sectors in use follow each other, but for those that are kept for the directory. -/
theorem usedSectors_eq (hlen : files.length ≤ NDIRENT) :
    usedSectors m kernel = List.range' NINODES (blocks kernel + 1) ++
      List.range' (dir + 512) (files.map fun f => blocks f.2).sum := by
  have hroot : sectorsAt m 2 = [dir] := by
    have hsize : (dinodeAt m (512 * 2)).size = 512 := by rw [h.header]
    rw [sectorsAt, hsize]
    exact congrArg (· :: []) h.dirno
  have hfiles : (List.range' 3 files.length).flatMap (sectorsAt m) =
      List.range' (dir + 512) (files.map fun f => blocks f.2).sum := by
    apply flatMap_range'
    intro i f hf
    have hfile := h.file i f hf
    have hsize : (dinodeAt m (512 * (3 + i))).size = f.2.length := by rw [hfile.header]
    rw [sectorsAt, hsize, List.range'_eq_map_range (s := dir + 512 + _), List.range'_eq_map_range,
      List.map_map]
    apply List.map_congr_left
    intro j hj
    rw [Function.comp_apply, Nat.zero_add]
    exact hfile.addr j (List.mem_range.mp hj)
  rw [usedSectors, h.kernelno, h.usedInodes_eq hlen, Nat.add_comm 1, List.range'_succ, List.flatMap_cons,
    hroot, hfiles, List.range'_concat, ← h.base.symm]
  simp

end Stored

/-! ## The count -/

/-- Each inode is in use or free. -/
theorem Image.count_inodes (h : Image m kernel dir files) (hlen : files.length ≤ NDIRENT) :
    ∃ free, Chain m (m.load32 (512 + 20)) free ∧
      ∀ i, 2 ≤ i → i < NINODES → (usedInodes m ++ free).count i = 1 := by
  have hd : NDIRENT = 16 := rfl
  have hn : NINODES = 2048 := rfl
  refine ⟨List.range' (3 + files.length) (NINODES - (3 + files.length)), ?_, fun i hle hlt => ?_⟩
  · rw [h.inodeblock]
    exact h.inodes.chain (by omega) 0 (show 3 + files.length < NINODES by omega)
  · rw [h.usedInodes_eq hlen, List.count_append, List.count_range_1', List.count_range_1']
    split <;> split <;> omega

/-- **The sectors** that the image does not account for are the 511 behind the directory. -/
theorem Image.count_sectors (h : Image m kernel dir files) (hlen : files.length ≤ NDIRENT)
    (hplace : place dir files < NBLOCKS) {free : List ℕ} (hfree : Chain m (m.load32 (512 + 16)) free)
    {b : ℕ} (hle : NINODES ≤ b) (hlt : b < NBLOCKS) :
    (usedSectors m kernel ++ free).count b = if dir < b ∧ b < dir + 512 then 0 else 1 := by
  have hbase := h.base
  have hsum : place dir files = dir + 512 + (files.map fun f => blocks f.2).sum := rfl
  have hchain := h.sectors.chain (by omega) 0 hplace
  rw [show listSector (place dir files) 0 = m.load32 (512 + 16) from h.freeblock.symm] at hchain
  rw [hfree.unique hchain, h.usedSectors_eq hlen, List.count_append, List.count_append, List.count_range_1',
    List.count_range_1', List.count_range_1']
  split <;> split <;> split <;> split <;> omega

theorem Image.not_accounts (h : Image m kernel dir files) (hlen : files.length ≤ NDIRENT)
    (hplace : place dir files < NBLOCKS) : ¬ Accounts m kernel := by
  rintro ⟨-, free, hfree, hcount⟩
  have hbase : dir = NINODES + blocks kernel := h.base
  have hsum : place dir files = dir + 512 + (files.map fun f => blocks f.2).sum := rfl
  have hone := hcount (dir + 1) (by omega) (by omega)
  rw [h.count_sectors hlen hplace hfree (by omega) (by omega), if_pos (by omega)] at hone
  cases hone

/-- **The image** of a kernel and files for which there is room leaves sectors out. -/
theorem image_not_accounts {fs : Files} {boot kernel : List UInt8} {files : Args}
    (hboot : fs.bootblock = some boot) (hkernel : fs.kernel = some kernel)
    (hopens : Opens fs files) (hlen : files.length ≤ NDIRENT) (hfits : Fits kernel files) :
    ¬ ∃ m, image fs (files.map Prod.fst) = .ok m ∧ Accounts m kernel := by
  rintro ⟨m, hm, haccounts⟩
  have hsize := hfits.blocks_lt
  have hroom := (image_iff hboot hkernel hopens hlen hsize).mp ⟨m, hm⟩
  exact (image_of_run hboot hkernel hopens hlen hsize hm).not_accounts hlen (by omega) haccounts

theorem image_not_accounts_sample :
    ¬ ∃ m, image sample (sampleArgs.map Prod.fst) = .ok m ∧ Accounts m [0x7f] :=
  image_not_accounts rfl rfl opens_sample (by decide) (by decide)

/-- The sector behind the directory is neither in use nor free. -/
theorem exists_not_accounts :
    ∃ m, image sample (sampleArgs.map Prod.fst) = .ok m ∧ ¬ Accounts m [0x7f] := by
  have hlen : sampleArgs.length ≤ NDIRENT := by decide
  have hkernel : sample.kernel = some [0x7f] := rfl
  obtain ⟨m, hm⟩ := (image_iff rfl hkernel opens_sample hlen (by decide)).mpr (by decide)
  have himage := image_of_run rfl hkernel opens_sample hlen (by decide) hm
  exact ⟨m, hm, himage.not_accounts hlen (by decide)⟩

end Mixv6.Fs.Mkfs
