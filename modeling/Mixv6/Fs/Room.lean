import Mixv6.Fs.Image

/-!
# When there is an image

The directory and the free list are given 512 sectors each: the size of a sector is passed
where the number of sectors is meant.  The program runs out of `used_block` when the kernel,
the files and these 1024 sectors do not fit on the disk.

## Main definitions

* `Keeps` — parts of the program that allocate nothing.
* `Near` — the sectors that have been given away, or all of them.
* `image_iff` — the program writes an image if and only if there is room.
* `Fits` — the input is not larger than the disk.
-/

namespace Mixv6.Fs.Mkfs

open Mixv6.Lib
open Mixv6.Syscall (NDIRENT)

variable {s : Disk} {ino sum : ℕ}

/-- If the part ends then it has allocated nothing. -/
def Keeps (c : Mk Unit) : Prop :=
  ∀ s, wp (fun _ => True) c (fun _ t => t.used_block = s.used_block) s

section Keeps
variable {c d : Mk Unit}

theorem Keeps.bind (hc : Keeps c) (hd : Keeps d) : Keeps (do c; d) := by
  intro s
  apply wp_seq (hc s)
  intro _ t ht
  rw [← ht]
  exact hd t

/-- What follows has the same allocations. -/
theorem Keeps.seq (hc : Keeps c) {β : Type} {f : Mk β} {Q : β → Disk → Prop}
    (hf : ∀ bin, wp (fun _ => True) f Q ⟨bin, s.used_block⟩) :
    wp (fun _ => True) (do c; f) Q s := by
  apply wp_seq (hc s)
  rintro _ ⟨bin, used⟩ rfl
  exact hf bin

theorem keeps_poke (a : ℤ) (n : ℕ) (f : ℕ → Mem → Mem) : Keeps (poke a n f) := by
  intro s
  simp only [poke, wp_bind, wp_ite, wp_throw, wp_modify]
  split
  next => trivial
  next => trivial

theorem keeps_putInt (a v : ℤ) : Keeps (putInt a v) := keeps_poke _ _ _

theorem keeps_fread (a n : ℤ) (data : List UInt8) : Keeps (fread a n data) := by
  unfold fread
  exact keeps_poke _ _ _

theorem keeps_setInode (a type size : ℤ) : Keeps (setInode a type size) := by
  unfold setInode
  apply Keeps.bind (keeps_poke _ _ _)
  apply Keeps.bind (keeps_poke _ _ _)
  apply Keeps.bind (keeps_poke _ _ _)
  apply Keeps.bind (keeps_poke _ _ _)
  exact Keeps.bind (keeps_poke _ _ _) (keeps_poke _ _ _)

theorem keeps_each {body : ℕ → Mk Unit} (h : ∀ j, Keeps (body j)) (l : List ℕ) :
    Keeps (each body l) := by
  induction l with
  | nil => exact fun s => wp_pure.mpr rfl
  | cons j l ih => exact (h j).bind ih

theorem keeps_freeTurns (is : List ℤ) (cnt : ℕ) (block : ℤ) : Keeps (freeTurns is cnt block) := by
  induction is generalizing cnt block with
  | nil => exact fun s => wp_pure.mpr rfl
  | cons i is ih =>
      apply (keeps_putInt _ _).bind
      split
      next => exact ih _ _
      next => exact ih _ _

end Keeps

/-- The inodes before `ino` have been given away, and of the sectors either all or those before
`sum`. -/
def Near (used : ℕ → Bool) (ino sum : ℕ) : Prop :=
  ∃ next, Taken used ino next ∧ (next = NBLOCKS ∨ next = sum)

theorem Near.ialloc (h : Near s.used_block ino sum) (hlt : ino < NINODES) :
    wp (fun _ => True) ialloc (fun _ t => Near t.used_block (ino + 1) sum) s := by
  obtain ⟨next, htaken, hnext⟩ := h
  exact wp_ialloc htaken hlt fun used htaken' => ⟨next, htaken', hnext⟩

theorem Near.balloc (h : Near s.used_block ino sum) (n : ℕ) :
    wp (fun _ => True) (balloc n) (fun _ t => Near t.used_block ino (sum + n)) s := by
  obtain ⟨next, htaken, hnext⟩ := h
  apply wp_balloc htaken
  · intro hlt hle used htaken'
    exact ⟨next + n, htaken', by omega⟩
  · exact fun _ => trivial
  · rintro rfl
    exact ⟨NBLOCKS, htaken, .inl rfl⟩

theorem Near.addFile {fs : Files} {dir : ℤ} {i : ℕ} {arg data : List UInt8}
    (h : Near s.used_block ino sum) (hlt : ino < NINODES) (hfile : fs.file arg = some data)
    (hsize : blocks data ≤ 124) :
    wp (fun _ => True) (addFile fs dir i arg)
      (fun _ t => Near t.used_block (ino + 1) (sum + blocks data)) s := by
  unfold Mkfs.addFile
  apply wp_seq (h.ialloc hlt)
  intro r s₁ h₁
  apply (keeps_putInt _ _).seq
  intro bin₂
  simp only [wp_bind, wp_ite, wp_throw]
  split
  next => trivial
  next =>
    apply wp_mono (keeps_poke _ _ _ _)
    rintro - ⟨bin₃, used₃⟩ rfl
    simp only [hfile, sectorsOf_eq (show blocks data < 2 ^ 31 by omega), wp_ite]
    rw [if_neg (by omega)]
    apply wp_seq (h₁.balloc (s := ⟨bin₃, s₁.used_block⟩) (blocks data))
    intro b s₄ h₄
    apply (keeps_setInode _ _ _).seq
    intro bin₅
    apply (keeps_each (fun j => keeps_putInt _ _) _).seq
    intro bin₆
    apply wp_mono (keeps_fread _ _ _ _)
    rintro - t ht
    rw [ht]
    exact h₄

/-- What follows an error is not done. -/
theorem fails_seq {α β : Type} {c : Mk α} {f : α → Mk β} {Q : β → Disk → Prop}
    (h : wp (fun _ => True) c (fun _ _ => False) s) : wp (fun _ => True) (c >>= f) Q s :=
  wp_seq h fun _ _ hfalse => False.elim hfalse

/-- No inode is left. -/
theorem wp_ialloc_full {E : Stop → Prop} {Q : ℤ → Disk → Prop} (h : Near s.used_block NINODES sum)
    (hQ : Q (-1) s) : wp E ialloc Q s := by
  obtain ⟨next, htaken, -⟩ := h
  have hfind : ((List.range' 2 (NINODES - 2)).find? fun i => !s.used_block i) = none := by
    rw [List.find?_range'_eq_none]
    intro i hi hlt
    have hused : s.used_block i = true := by
      rw [htaken.used]
      omega
    simp [hused]
  simpa only [ialloc, wp_bind, wp_get, hfind, wp_pure] using hQ

/-- The inode before the first sector is not in the image. -/
theorem setInode_fails (type size : ℤ) :
    wp (fun _ => True) (setInode (-1 * 512) type size) (fun _ _ => False) s := by
  simp only [setInode, putShort, poke, wp_bind, wp_ite, wp_throw]
  rw [if_pos (by decide)]
  trivial

theorem Near.addFile_fails {fs : Files} {dir : ℤ} {i : ℕ} {arg data : List UInt8}
    (h : Near s.used_block NINODES sum) (hfile : fs.file arg = some data)
    (hsize : blocks data ≤ 124) :
    wp (fun _ => True) (Mkfs.addFile fs dir i arg) (fun _ _ => False) s := by
  unfold Mkfs.addFile
  rw [wp_bind]
  apply wp_ialloc_full h
  apply (keeps_putInt _ _).seq
  intro bin₂
  simp only [wp_bind, wp_ite, wp_throw]
  split
  next => trivial
  next =>
    apply wp_mono (keeps_poke _ _ _ _)
    rintro - ⟨bin₃, used₃⟩ rfl
    simp only [hfile, sectorsOf_eq (show blocks data < 2 ^ 31 by omega), wp_ite]
    rw [if_neg (by omega)]
    apply wp_seq (h.balloc (s := ⟨bin₃, s.used_block⟩) (blocks data))
    intro b s₄ h₄
    exact fails_seq (setInode_fails _ _)

/-- The loop comes to its end only while there are inodes. -/
theorem Near.addFiles {fs : Files} {dir : ℤ} {i : ℕ} {files : Args}
    (h : Near s.used_block ino sum) (hopens : Opens fs files) :
    wp (fun _ => True) (addFiles fs dir i (files.map Prod.fst)) (fun _ t =>
      ino + files.length ≤ NINODES ∧
      Near t.used_block (ino + files.length) (sum + (files.map fun f => blocks f.2).sum)) s := by
  induction files generalizing s ino sum i with
  | nil =>
      have hle : ino ≤ NINODES := by
        obtain ⟨next, htaken, -⟩ := h
        exact htaken.ino.2
      exact wp_pure.mpr ⟨hle, h⟩
  | cons f files ih =>
      obtain ⟨hfile, -, hsize⟩ := hopens f (List.mem_cons_self ..)
      have hopens' : Opens fs files := fun f' hf' => hopens f' (List.mem_cons_of_mem _ hf')
      simp only [List.map_cons, Mkfs.addFiles]
      rcases Nat.lt_or_ge ino NINODES with hlt | hge
      · apply wp_seq (h.addFile hlt hfile hsize)
        intro _ t ht
        apply wp_mono (ih ht hopens')
        intro _ u hu
        simpa [Nat.add_assoc, Nat.add_comm 1] using hu
      · have hino : ino = NINODES := by
          obtain ⟨next, htaken, -⟩ := h
          exact le_antisymm htaken.ino.2 hge
        subst hino
        exact fails_seq (h.addFile_fails hfile hsize)

/-- A list that begins in front of the first sector. -/
theorem freeList_fails (stop : ℕ) :
    wp (fun _ => True) (freeList (-1) stop) (fun _ _ => False) s := by
  have hrange : (List.range ((stop : ℤ) - -1).toNat).map (fun k : ℕ => (-1 : ℤ) + k) =
      -1 :: (List.range' 1 stop).map fun k : ℕ => (-1 : ℤ) + k := by
    rw [show ((stop : ℤ) - -1).toNat = stop + 1 by omega, List.range_eq_range', List.range'_succ]
    rfl
  rw [freeList, hrange]
  simp [freeTurns, putInt, poke, DISKSIZE]

/-- **Without room** the program ends with an error. -/
theorem main_fails {fs : Files} {boot kernel : List UInt8} {files : Args}
    (hboot : fs.bootblock = some boot) (hkernel : fs.kernel = some kernel)
    (hopens : Opens fs files) (hsize : blocks kernel < 2 ^ 31)
    (hfull : NINODES ≤ 3 + files.length ∨
      NBLOCKS < place (NINODES + blocks kernel) files + 512) :
    wp (fun _ => True) (main fs (files.map Prod.fst)) (fun _ _ => False) .zero := by
  have hn : NINODES = 2048 := rfl
  simp only [main, hboot, hkernel]
  apply wp_seq wp_addBoot
  rintro - s₁ ⟨htaken₁, -⟩
  have h₁ : Near s₁.used_block 2 NINODES := ⟨NINODES, htaken₁, .inr rfl⟩
  have h₂ : wp (fun _ => True) (addKernel kernel)
      (fun _ t => Near t.used_block 2 (NINODES + blocks kernel)) s₁ := by
    simp only [addKernel, sectorsOf_eq hsize]
    apply wp_seq (h₁.balloc (blocks kernel))
    intro b s₂ h₂
    apply (keeps_putInt _ _).seq
    intro bin₃
    apply wp_mono (keeps_fread _ _ _ _)
    rintro - t ht
    rw [ht]
    exact h₂
  apply wp_seq h₂
  rintro - s₂ h₂
  have h₃ : wp (fun _ => True) addRootdir
      (fun _ t => Near t.used_block 3 (NINODES + blocks kernel + 512)) s₂ := by
    unfold addRootdir
    apply wp_seq (h₂.ialloc (by omega))
    intro r s₃ h₃
    apply (keeps_putInt _ _).seq
    intro bin₄
    apply (keeps_setInode _ _ _).seq
    intro bin₅
    apply wp_seq (h₃.balloc (s := ⟨bin₅, s₃.used_block⟩) 512)
    intro b s₆ h₆
    apply (keeps_putInt _ _).seq
    exact fun bin₇ => wp_pure.mpr h₆
  apply wp_seq h₃
  rintro dir s₃ h₃
  apply wp_seq (h₃.addFiles hopens)
  rintro - s₄ ⟨hle, h₄⟩
  rcases Nat.lt_or_ge (3 + files.length) NINODES with hlt | hge
  · apply wp_seq (h₄.ialloc hlt)
    rintro freeino s₅ ⟨next, htaken, hnext⟩
    apply (keeps_putInt _ _).seq
    intro bin₆
    apply (keeps_freeTurns _ _ _).seq
    intro bin₇
    rw [wp_bind]
    have hplace : NINODES + blocks kernel + 512 + (files.map fun f => blocks f.2).sum =
        place (NINODES + blocks kernel) files := rfl
    apply wp_balloc (s := ⟨bin₇, s₅.used_block⟩) (n := 512) htaken
    · intro hlt hle
      omega
    · exact fun _ => trivial
    · -- The allocator returns -1, and the first entry of the list is in front of the image.
      intro hend
      apply (keeps_putInt _ _).seq
      intro bin₈
      exact fails_seq (freeList_fails _)
  · -- So it is with the inodes.
    rw [le_antisymm hle hge] at h₄
    rw [wp_bind]
    apply wp_ialloc_full h₄
    apply (keeps_putInt _ _).seq
    intro bin₆
    exact fails_seq (freeList_fails _)

/-- The directory has room for fewer files than there are inodes. -/
theorem lt_of_le_NDIRENT {n : ℕ} (h : n ≤ NDIRENT) : 3 + n < NINODES := by
  have hd : NDIRENT = 16 := rfl
  have hn : NINODES = 2048 := rfl
  omega

/-- **The program writes an image** if and only if the kernel, the files and 1024 sectors fit. -/
theorem image_iff {fs : Files} {boot kernel : List UInt8} {files : Args}
    (hboot : fs.bootblock = some boot) (hkernel : fs.kernel = some kernel)
    (hopens : Opens fs files) (hlen : files.length ≤ NDIRENT) (hsize : blocks kernel < 2 ^ 31) :
    (∃ m, image fs (files.map Prod.fst) = .ok m) ↔
      place (NINODES + blocks kernel) files + 512 ≤ NBLOCKS := by
  constructor
  · rintro ⟨m, hm⟩
    by_contra hfull
    have hfails := main_fails hboot hkernel hopens hsize (.inr (by omega))
    rcases hrun : main fs (files.map Prod.fst) .zero with e | ⟨r, t⟩
    · simp [image, hrun, Except.map] at hm
    · exact wp_ok hfails hrun
  · intro hfit
    obtain ⟨r, t, hrun, -⟩ := wp_total.mp (wp_main hboot hkernel hopens (lt_of_le_NDIRENT hlen) hfit)
    exact ⟨t.bin, by simp [image, hrun, Except.map]⟩

/-- What is in the image. -/
theorem image_of_run {fs : Files} {boot kernel : List UInt8} {files : Args} {m : Mem}
    (hboot : fs.bootblock = some boot) (hkernel : fs.kernel = some kernel)
    (hopens : Opens fs files) (hlen : files.length ≤ NDIRENT) (hsize : blocks kernel < 2 ^ 31)
    (hm : image fs (files.map Prod.fst) = .ok m) :
    Image m kernel (NINODES + blocks kernel) files := by
  have hfit := (image_iff hboot hkernel hopens hlen hsize).mp ⟨m, hm⟩
  obtain ⟨r, t, hrun, himage, -⟩ :=
    wp_total.mp (wp_main hboot hkernel hopens (lt_of_le_NDIRENT hlen) hfit)
  obtain rfl : t.bin = m := by simpa [image, hrun, Except.map] using hm
  exact himage

/-- The kernel, a sector for the directory, and the files are not larger than the disk. -/
def Fits (kernel : List UInt8) (files : Args) : Prop :=
  NINODES + blocks kernel + 1 + (files.map fun f => blocks f.2).sum ≤ NBLOCKS

instance decidableFits (kernel : List UInt8) (files : Args) : Decidable (Fits kernel files) :=
  inferInstanceAs (Decidable (_ ≤ _))

theorem Fits.blocks_lt {kernel : List UInt8} {files : Args} (h : Fits kernel files) :
    blocks kernel < 2 ^ 31 := by
  simp only [Fits, NINODES, NBLOCKS] at h
  omega

/-- A kernel of one byte, and files of one byte. -/
def sample : Files := ⟨some [], some [0x7f], fun _ => some [0x41]⟩

/-- The argument `build/_a`. -/
def sampleArgs : Args := [([0x62, 0x75, 0x69, 0x6c, 0x64, 0x2f, 0x5f, 0x61], [0x41])]

theorem opens_sample : Opens sample sampleArgs := by
  intro f hf
  obtain rfl := List.mem_singleton.mp hf
  exact ⟨rfl, by decide, by decide⟩

end Mixv6.Fs.Mkfs
