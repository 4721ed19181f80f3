import Mixv6.Fs.Accounts

/-!
# The runs of sectors that are given away

`balloc` looks for one free sector, and takes those behind it without a look at them or at the
end of `used_block`; it cannot refuse a request.  `main` adds as many entries to the directory as
there are arguments.

## Main definitions

* `given` — the sectors that `balloc` has returned to `main`.
* `Allocated`, `Safe` — what the program should do for every input.
* `HasRoom`, `safe_iff` — where it does.
-/

namespace Mixv6.Fs.Mkfs

open Mixv6.Lib
open Cache (toInt)
open Mixv6.Syscall (NDIRENT)

variable {s : Disk} {m : Mem} {fs : Files} {boot kernel : List UInt8} {files : Args} {dir : ℕ}

/-- The first sector of the file at an index of the directory. -/
def firstOf (m : Mem) (i : ℕ) : ℕ :=
  (dinodeAt m (512 * (entryAt m (512 * rootsector m) i).1)).addr 0

/-- What `balloc` has returned, as `main` keeps it in the image, and what it was asked for. -/
def runs (m : Mem) (kernel : List UInt8) (files : Args) : List (ℕ × ℕ) :=
  (m.load32 (512 + 12), (sectorsOf kernel.length).toNat) :: (rootsector m, 512) ::
    (files.zipIdx.map (fun x => (firstOf m x.2, blocks x.1.2)) ++ [(m.load32 (512 + 16), 512)])

/-- The sectors of the runs. -/
def given (m : Mem) (kernel : List UInt8) (files : Args) : List ℕ :=
  (runs m kernel files).flatMap fun r => List.range' r.1 r.2

/-- **What is promised** when the program is done: the sectors that were given away are sectors
of data, none was given away twice, all of them are marked, and behind the directory's first
sector, which has the 16 entries, there is none. -/
structure Allocated (d : Disk) (kernel : List UInt8) (files : Args) : Prop where
  inside : ∀ b ∈ given d.bin kernel files, NINODES ≤ b ∧ b < NBLOCKS
  once : (given d.bin kernel files).Nodup
  marked : ∀ b ∈ given d.bin kernel files, d.used_block b = true
  entries : ∀ x, 512 * (rootsector d.bin + 1) ≤ x → x < 512 * (rootsector d.bin + 512) →
    d.bin x = 0

/-- **The program** keeps inside of its arrays, and keeps the promise when it is done. -/
def Safe (fs : Files) (kernel : List UInt8) (files : Args) : Prop :=
  wp (· ≠ .bounds) (main fs (files.map Prod.fst)) (fun _ d => Allocated d kernel files) .zero

/-- The directory has an entry for every file, and the kernel, the files and 1024 sectors fit. -/
def HasRoom (kernel : List UInt8) (files : Args) : Prop :=
  files.length ≤ NDIRENT ∧ 0 ≤ sectorsOf kernel.length ∧
    place (NINODES + (sectorsOf kernel.length).toNat) files + 512 ≤ NBLOCKS

instance decidableHasRoom (kernel : List UInt8) (files : Args) : Decidable (HasRoom kernel files) :=
  inferInstanceAs (Decidable (_ ∧ _))

/-! ## The only error -/

/-- The part ends with no other error than a store outside of an array. -/
def Bounded {α : Type} (c : Mk α) : Prop := ∀ s, wp (· = .bounds) c (fun _ _ => True) s

namespace Bounded
variable {α β : Type} {c : Mk α} {f : α → Mk β}

theorem bind (hc : Bounded c) (hf : ∀ a, Bounded (f a)) : Bounded (c >>= f) := by
  intro s
  apply wp_seq (hc s)
  intro a t _
  exact hf a t

theorem pure (a : α) : Bounded (Pure.pure a : Mk α) := fun _ => wp_pure.mpr trivial

theorem poke (a : ℤ) (n : ℕ) (g : ℕ → Mem → Mem) : Bounded (poke a n g) := by
  intro s
  simp only [Mkfs.poke, wp_bind, wp_ite, wp_throw, wp_modify]
  split
  next => trivial
  next => trivial

theorem mark (i : ℕ) : Bounded (mark i) := by
  intro s
  simp only [Mkfs.mark, wp_bind, wp_ite, wp_throw, wp_modify]
  split
  next => trivial
  next => trivial

theorem each {body : ℕ → Mk Unit} (h : ∀ j, Bounded (body j)) (l : List ℕ) :
    Bounded (each body l) := by
  induction l with
  | nil => exact pure ()
  | cons j l ih => exact (h j).bind fun _ => ih

theorem ialloc : Bounded ialloc := by
  intro s
  simp only [Mkfs.ialloc, wp_bind, wp_get]
  split
  next i _ => exact (mark i).bind (fun _ => pure _) s
  next => exact pure _ s

theorem balloc (n : ℤ) : Bounded (balloc n) := by
  intro s
  simp only [Mkfs.balloc, wp_bind, wp_get]
  split
  next i _ => exact (each (fun _ => mark _) _).bind (fun _ => pure _) s
  next => exact pure _ s

theorem fread (a n : ℤ) (data : List UInt8) : Bounded (fread a n data) := by
  unfold Mkfs.fread
  exact poke _ _ _

theorem setInode (a type size : ℤ) : Bounded (setInode a type size) := by
  unfold Mkfs.setInode
  apply bind (poke _ _ _)
  intro _
  apply bind (poke _ _ _)
  intro _
  apply bind (poke _ _ _)
  intro _
  apply bind (poke _ _ _)
  intro _
  exact bind (poke _ _ _) fun _ => poke _ _ _

theorem addBoot (boot : List UInt8) : Bounded (addBoot boot) :=
  (fread _ _ _).bind fun _ => mark _

theorem addKernel (kernel : List UInt8) : Bounded (addKernel kernel) :=
  (balloc _).bind fun _ => (poke _ _ _).bind fun _ => fread _ _ _

theorem addRootdir : Bounded addRootdir := by
  apply ialloc.bind
  intro _
  apply bind (poke _ _ _)
  intro _
  apply (setInode _ _ _).bind
  intro _
  apply (balloc _).bind
  intro _
  exact bind (poke _ _ _) fun _ => pure _

theorem addFile {dir : ℤ} {i : ℕ} {arg data : List UInt8} (hfile : fs.file arg = some data)
    (hsize : blocks data ≤ 124) : Bounded (addFile fs dir i arg) := by
  unfold Mkfs.addFile
  apply ialloc.bind
  intro _
  apply bind (poke _ _ _)
  rintro - s
  simp only [wp_bind, wp_ite, wp_throw]
  split
  next => trivial
  next =>
    apply wp_mono (poke _ _ _ _)
    intro _ s₂ _
    simp only [hfile, sectorsOf_eq (show blocks data < 2 ^ 31 by omega), wp_ite, wp_bind]
    rw [if_neg (by omega)]
    apply wp_mono (balloc _ _)
    intro _ s₃ _
    apply wp_mono (setInode _ _ _ _)
    intro _ s₄ _
    apply wp_mono (each (fun _ => poke _ _ _) _ _)
    exact fun _ s₅ _ => fread _ _ _ s₅

theorem addFiles {dir : ℤ} {i : ℕ} (hopens : Opens fs files) :
    Bounded (addFiles fs dir i (files.map Prod.fst)) := by
  induction files generalizing i with
  | nil => exact pure ()
  | cons f files ih =>
      obtain ⟨hfile, -, hsize⟩ := hopens f (List.mem_cons_self ..)
      apply (addFile hfile hsize).bind
      intro _
      exact ih fun f' hf' => hopens f' (List.mem_cons_of_mem _ hf')

theorem freeTurns (is : List ℤ) (cnt : ℕ) (block : ℤ) : Bounded (freeTurns is cnt block) := by
  induction is generalizing cnt block with
  | nil => exact pure ()
  | cons i is ih =>
      apply bind (poke _ _ _)
      intro _
      split
      next => exact ih _ _
      next => exact ih _ _

theorem main (hboot : fs.bootblock = some boot) (hkernel : fs.kernel = some kernel)
    (hopens : Opens fs files) : Bounded (main fs (files.map Prod.fst)) := by
  simp only [Mkfs.main, hboot, hkernel]
  apply (addBoot _).bind
  intro _
  apply (addKernel _).bind
  intro _
  apply addRootdir.bind
  intro _
  apply (addFiles hopens).bind
  intro _
  apply ialloc.bind
  intro _
  apply bind (poke _ _ _)
  intro _
  apply (freeTurns _ _ _).bind
  intro _
  apply (balloc _).bind
  intro _
  apply bind (poke _ _ _)
  intro _
  apply (freeTurns _ _ _).bind
  intro _
  exact bind (poke _ _ _) fun _ => poke _ _ _

end Bounded

/-- A run that does not come to its end has stored outside of an array. -/
theorem not_safe_of_fails (hboot : fs.bootblock = some boot) (hkernel : fs.kernel = some kernel)
    (hopens : Opens fs files)
    (hfails : wp (fun _ => True) (main fs (files.map Prod.fst)) (fun _ _ => False) .zero) :
    ¬ Safe fs kernel files := by
  intro hsafe
  have hbounded := Bounded.main hboot hkernel hopens .zero
  rcases hrun : main fs (files.map Prod.fst) .zero with e | ⟨r, t⟩
  · simp only [Safe, wp, hrun] at hsafe hbounded
    exact hsafe hbounded
  · exact wp_ok hfails hrun

/-! ## The kernel -/

/-- What the program reads of the kernel: its number of sectors is an `int`. -/
def loaded (kernel : List UInt8) : List UInt8 :=
  kernel.take (512 * (sectorsOf kernel.length).toNat)

theorem blocks_loaded (h : 0 ≤ sectorsOf kernel.length) :
    blocks (loaded kernel) = (sectorsOf kernel.length).toNat := by
  simp only [sectorsOf, toInt] at h
  simp only [blocks, loaded, sectorsOf, toInt, List.length_take]
  split
  next hlt => omega
  next hge => rw [if_neg hge] at h; omega

theorem blocks_loaded_lt (kernel : List UInt8) (h : 0 ≤ sectorsOf kernel.length) :
    blocks (loaded kernel) < 2 ^ 31 := by
  rw [blocks_loaded h]
  simp only [sectorsOf, toInt]
  split <;> omega

theorem addKernel_loaded (h : 0 ≤ sectorsOf kernel.length) :
    addKernel (loaded kernel) = addKernel kernel := by
  have hsectors : sectorsOf (loaded kernel).length = sectorsOf kernel.length := by
    rw [sectorsOf_eq (blocks_loaded_lt kernel h), blocks_loaded h, Int.toNat_of_nonneg h]
  have hlt := blocks_loaded_lt kernel h
  rw [blocks_loaded h] at hlt
  have hmod : sectorsOf kernel.length % 2 ^ 64 = sectorsOf kernel.length := by omega
  have hread : ∀ a : ℤ, fread a (sectorsOf kernel.length) (loaded kernel) =
      fread a (sectorsOf kernel.length) kernel := by
    intro a
    rw [fread, fread, hmod, loaded, List.take_take, min_self]
  simp only [addKernel, hsectors, hread]

theorem addFiles_congr (fs fs' : Files) (h : fs'.file = fs.file) (dir : ℤ) (i : ℕ)
    (argv : List (List UInt8)) : addFiles fs' dir i argv = addFiles fs dir i argv := by
  induction argv generalizing i with
  | nil => rfl
  | cons arg argv ih => simp only [addFiles, addFile, h, ih]

/-- The files, with the part of the kernel that the program reads. -/
def cut (fs : Files) (kernel : List UInt8) : Files := { fs with kernel := some (loaded kernel) }

theorem main_cut (hkernel : fs.kernel = some kernel) (h : 0 ≤ sectorsOf kernel.length)
    (argv : List (List UInt8)) : main (cut fs kernel) argv = main fs argv := by
  have hfiles := addFiles_congr fs (cut fs kernel) rfl
  simp only [cut] at hfiles
  simp only [main, cut, hkernel, addKernel_loaded h, hfiles]

/-- A number of sectors that is negative, as an `int`, is a large one for `fread`. -/
theorem addKernel_fails (h : sectorsOf kernel.length < 0) :
    wp (fun _ => True) (addKernel kernel) (fun _ _ => False) s := by
  have hlength : ∃ n, (kernel.take (512 * (sectorsOf kernel.length % 2 ^ 64).toNat)).length = n ∧
      2 * DISKSIZE ≤ n := by
    refine ⟨_, rfl, ?_⟩
    simp only [sectorsOf, toInt] at h
    simp only [sectorsOf, toInt, List.length_take, DISKSIZE]
    split
    next hlt => rw [if_pos hlt] at h; omega
    next hge => omega
  obtain ⟨n, hn, hle⟩ := hlength
  unfold addKernel
  apply wp_seq (wp_trivial fun _ => trivial)
  intro block t _
  apply (keeps_putInt _ _).seq
  intro bin
  simp only [DISKSIZE] at hle
  simp only [fread, putBytes, poke, hn, wp_bind, wp_ite, wp_throw, DISKSIZE]
  rw [if_pos ⟨by omega, by omega⟩]
  trivial

/-! ## The sectors that are given away -/

/-- The files follow each other; an empty one has no sectors. -/
theorem flatMap_zipIdx {first : ℕ → ℕ} {a k : ℕ}
    (h : ∀ i f, files[i]? = some f → blocks f.2 ≠ 0 →
      first (k + i) = a + ((files.take i).map fun f => blocks f.2).sum) :
    (files.zipIdx k).flatMap (fun x => List.range' (first x.2) (blocks x.1.2)) =
      List.range' a (files.map fun f => blocks f.2).sum := by
  induction files generalizing a k with
  | nil => rfl
  | cons f files ih =>
      have hfirst : List.range' (first k) (blocks f.2) = List.range' a (blocks f.2) := by
        by_cases hzero : blocks f.2 = 0
        · rw [hzero, List.range'_zero, List.range'_zero]
        · have hk := h 0 f rfl hzero
          rw [Nat.add_zero, List.take_zero, List.map_nil, List.sum_nil, Nat.add_zero] at hk
          rw [hk]
      have hrest := ih (k := k + 1) (a := a + blocks f.2) fun i g hg hne => by
        have hnext := h (i + 1) g hg hne
        rw [List.take_succ_cons, List.map_cons, List.sum_cons] at hnext
        rw [Nat.add_right_comm k 1 i, Nat.add_assoc k i 1, hnext, Nat.add_assoc]
      rw [List.zipIdx_cons, List.flatMap_cons, hrest, hfirst, List.map_cons, List.sum_cons,
        List.range'_append_1]

/-- **The sectors that are given away** follow each other. -/
theorem Image.given_eq (h : Image m kernel dir files) (hsize : blocks kernel < 2 ^ 31) :
    given m kernel files = List.range' NINODES (place dir files + 512 - NINODES) := by
  have hsectors : (sectorsOf kernel.length).toNat = blocks kernel := by
    rw [sectorsOf_eq hsize, Int.toNat_natCast]
  have hfirst : ∀ i f, files[i]? = some f → blocks f.2 ≠ 0 →
      firstOf m (0 + i) = dir + 512 + ((files.take i).map fun f => blocks f.2).sum := by
    intro i f hf hne
    have hfile := h.file i f hf
    have haddr := hfile.addr 0 (Nat.pos_of_ne_zero hne)
    rw [Nat.zero_add, firstOf, h.rootsector_eq, hfile.entry]
    exact haddr
  have hend : place dir files = dir + 512 + (files.map fun f => blocks f.2).sum := rfl
  rw [given, runs, List.flatMap_cons, List.flatMap_cons, List.flatMap_append, List.flatMap_singleton,
    List.flatMap_map, flatMap_zipIdx hfirst, h.kernelno, h.rootsector_eq, h.freeblock, hsectors, hend,
    List.range'_append_1, List.range'_append_1, h.base, List.range'_append_1]
  exact congrArg (List.range' NINODES · 1) (by omega)

/-- **With room** the promise is kept. -/
theorem Image.allocated {d : Disk} (h : Image d.bin kernel dir files)
    (hsize : blocks kernel < 2 ^ 31) (hlen : files.length ≤ NDIRENT)
    (htaken : Taken d.used_block (4 + files.length) (place dir files + 512)) :
    Allocated d kernel files := by
  have hnext := htaken.next.2
  have hgiven : ∀ b ∈ given d.bin kernel files, NINODES ≤ b ∧ b < place dir files + 512 := by
    intro b hb
    rw [h.given_eq hsize, List.mem_range'_1] at hb
    omega
  constructor
  case inside =>
    intro b hb
    have hbounds := hgiven b hb
    omega
  case once =>
    rw [h.given_eq hsize]
    exact List.nodup_range'
  case marked =>
    intro b hb
    rw [htaken.used]
    exact .inr (.inr (hgiven b hb))
  case entries =>
    intro x hx hx'
    have hd : NDIRENT = 16 := rfl
    rw [h.rootsector_eq] at hx hx'
    exact h.rest x (by omega) hx'

/-- The seventeenth entry is behind the directory. -/
theorem Image.not_allocated {d : Disk} (h : Image d.bin kernel dir files)
    (hlen : NDIRENT < files.length) : ¬ Allocated d kernel files := by
  intro hallocated
  have hentry := (h.file NDIRENT _ (List.getElem?_eq_getElem hlen)).entry
  have hino : d.bin.load32 (512 * dir + 32 * NDIRENT) = 3 + NDIRENT := (Prod.ext_iff.mp hentry).1
  have hzero : ∀ k < 4, d.bin (512 * dir + 32 * NDIRENT + k) = 0 := by
    intro k hk
    have hd : NDIRENT = 16 := rfl
    apply hallocated.entries
    · rw [h.rootsector_eq]
      omega
    · rw [h.rootsector_eq]
      omega
  have hload : d.bin.load32 (512 * dir + 32 * NDIRENT) = 0 := by
    have h0 := hzero 0 (by omega)
    rw [Nat.add_zero] at h0
    simp [Mem.load32, h0, hzero 1 (by omega), hzero 2 (by omega), hzero 3 (by omega)]
  rw [hload] at hino
  cases hino

/-! ## Where the program keeps its promise -/

theorem given_loaded (h : 0 ≤ sectorsOf kernel.length) :
    given m (loaded kernel) files = given m kernel files := by
  rw [given, given, runs, runs, sectorsOf_eq (blocks_loaded_lt kernel h), blocks_loaded h,
    Int.toNat_natCast]

theorem allocated_loaded {d : Disk} (h : 0 ≤ sectorsOf kernel.length) :
    Allocated d (loaded kernel) files ↔ Allocated d kernel files := by
  constructor
  · rintro ⟨hinside, honce, hmarked, hentries⟩
    rw [given_loaded h] at hinside honce hmarked
    exact ⟨hinside, honce, hmarked, hentries⟩
  · rintro ⟨hinside, honce, hmarked, hentries⟩
    rw [← given_loaded h] at hinside honce hmarked
    exact ⟨hinside, honce, hmarked, hentries⟩

/-- **The image**, where the program comes to its end. -/
theorem wp_main_loaded {E : Stop → Prop} (hboot : fs.bootblock = some boot)
    (hkernel : fs.kernel = some kernel) (hopens : Opens fs files)
    (hsectors : 0 ≤ sectorsOf kernel.length) (hlen : 3 + files.length < NINODES)
    (hfit : place (NINODES + (sectorsOf kernel.length).toNat) files + 512 ≤ NBLOCKS) :
    wp E (main fs (files.map Prod.fst)) (fun _ d => Allocated d kernel files ↔
      files.length ≤ NDIRENT) .zero := by
  have hsize := blocks_loaded_lt kernel hsectors
  rw [← blocks_loaded hsectors] at hfit
  rw [← main_cut hkernel hsectors]
  have hboot' : (cut fs kernel).bootblock = some boot := hboot
  have hopens' : Opens (cut fs kernel) files := hopens
  apply wp_mono (wp_main hboot' rfl hopens' hlen hfit)
  rintro - d ⟨himage, htaken⟩
  rw [← allocated_loaded hsectors]
  constructor
  · intro hallocated
    by_contra hmany
    exact himage.not_allocated (not_le.mp hmany) hallocated
  · intro hfew
    exact himage.allocated hsize hfew htaken

/-- **Without room** the program stores outside of an array, or does not keep its promise. -/
theorem not_safe (hboot : fs.bootblock = some boot) (hkernel : fs.kernel = some kernel)
    (hopens : Opens fs files) (hroom : ¬ HasRoom kernel files) : ¬ Safe fs kernel files := by
  rcases lt_or_ge (sectorsOf kernel.length) 0 with hneg | hsectors
  · apply not_safe_of_fails hboot hkernel hopens
    simp only [main, hboot, hkernel]
    apply wp_seq wp_addBoot
    intro _ t _
    exact fails_seq (addKernel_fails hneg)
  · by_cases hfull : NINODES ≤ 3 + files.length ∨
        NBLOCKS < place (NINODES + (sectorsOf kernel.length).toNat) files + 512
    · apply not_safe_of_fails hboot hkernel hopens
      rw [← blocks_loaded hsectors] at hfull
      rw [← main_cut hkernel hsectors]
      have hboot' : (cut fs kernel).bootblock = some boot := hboot
      have hopens' : Opens (cut fs kernel) files := hopens
      exact main_fails hboot' rfl hopens' (blocks_loaded_lt kernel hsectors) hfull
    · rw [not_or, not_le, not_lt] at hfull
      intro hsafe
      have hmain := wp_main_loaded hboot hkernel hopens hsectors hfull.1 hfull.2
        (E := fun _ => False)
      obtain ⟨r, d, hrun, hiff⟩ := wp_total.mp hmain
      have hallocated := wp_ok (Q := fun _ d => Allocated d kernel files) hsafe hrun
      exact hroom ⟨hiff.mp hallocated, hsectors, hfull.2⟩

/-- **The sectors are given away as promised** if and only if there is room. -/
theorem safe_iff (hboot : fs.bootblock = some boot) (hkernel : fs.kernel = some kernel)
    (hopens : Opens fs files) : Safe fs kernel files ↔ HasRoom kernel files := by
  constructor
  · intro hsafe
    by_contra hroom
    exact not_safe hboot hkernel hopens hroom hsafe
  · rintro ⟨hlen, hsectors, hfit⟩
    apply wp_mono (wp_main_loaded hboot hkernel hopens hsectors (lt_of_le_NDIRENT hlen) hfit)
    exact fun _ d hiff => hiff.mpr hlen

/-- A kernel of one byte, and one file of one byte. -/
theorem safe_sample : Safe sample [0x7f] sampleArgs :=
  (safe_iff rfl rfl opens_sample).mpr (by decide)

/-- The files `sample`, with another kernel. -/
def withKernel (kernel : List UInt8) : Files := { sample with kernel := some kernel }

/-- A kernel of 5121 sectors leaves no room for the 1024 sectors that are asked for; neither
does a directory for the entries of 17 files. -/
theorem not_safe_large :
    ¬ Safe (withKernel (List.replicate (512 * 5121) 0)) (List.replicate (512 * 5121) 0) [] ∧
      ¬ Safe sample [0x7f] (List.replicate 17 sampleArgs).flatten := by
  constructor
  · have hboot : (withKernel (List.replicate (512 * 5121) 0)).bootblock = some [] := rfl
    apply not_safe hboot rfl (fun f hf => absurd hf List.not_mem_nil)
    rintro ⟨-, -, hfit⟩
    rw [List.length_replicate] at hfit
    exact absurd hfit (by decide)
  · have hboot : sample.bootblock = some [] := rfl
    apply not_safe hboot rfl
    · intro f hf
      obtain ⟨l, hl, hf⟩ := List.mem_flatten.mp hf
      rw [List.eq_of_mem_replicate hl] at hf
      exact opens_sample f hf
    · exact fun h => absurd h.1 (by decide)

end Mixv6.Fs.Mkfs
