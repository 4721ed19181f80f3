import Mixv6.Fs.FreeList

/-!
# What the image holds

The allocators give away the inodes and the sectors in order, so that each part of `main`
stores to sectors of its own.

## Main definitions

* `Taken` — what the allocators have given away.
* `FileAt`, `Written` — the files that have been added, and the part of the image that is
  still zero.
* `Image` — what is in the image when `main` is done.
-/

namespace Mixv6.Fs.Mkfs

open Mixv6.Lib
open Cache (toInt T_FILE)
open Mixv6.Syscall (FNAMESIZ Dinode)

variable {E : Stop → Prop} {s : Disk} {ino next : ℕ} {m m' : Mem}

/-! ## The allocators -/

/-- The inodes before `ino` and the sectors before `next` have been given away. -/
structure Taken (used : ℕ → Bool) (ino next : ℕ) : Prop where
  used : ∀ b, used b = true ↔ b = 0 ∨ (2 ≤ b ∧ b < ino) ∨ (NINODES ≤ b ∧ b < next)
  ino : 2 ≤ ino ∧ ino ≤ NINODES
  next : NINODES ≤ next ∧ next ≤ NBLOCKS

/-- The first sector that is not in use. -/
theorem find_unused {used : ℕ → Bool} {start n i : ℕ} (hi : used i = false) (hle : start ≤ i)
    (hlt : i < start + n) (hbefore : ∀ j, start ≤ j → j < i → used j = true) :
    ((List.range' start n).find? fun i => !used i) = some i := by
  rw [List.find?_range'_eq_some]
  refine ⟨by simp [hi], ?_, fun j hj hji => by simp [hbefore j hj hji]⟩
  rw [List.mem_range'_1]
  exact ⟨hle, hlt⟩

theorem wp_mark {i : ℕ} {Q : Unit → Disk → Prop} (hlt : i < NBLOCKS)
    (hQ : Q () { s with used_block := Function.update s.used_block i true }) :
    wp E (mark i) Q s := by
  simp only [mark, wp_bind, wp_ite, wp_throw, wp_modify]
  rw [if_neg (by omega)]
  exact hQ

/-- The inodes are given away in order. -/
theorem wp_ialloc (h : Taken s.used_block ino next) (hlt : ino < NINODES) {Q : ℤ → Disk → Prop}
    (hQ : ∀ used, Taken used (ino + 1) next → Q ino ⟨s.bin, used⟩) : wp E ialloc Q s := by
  have hino := h.ino
  have hnext := h.next
  have hfind : ((List.range' 2 (NINODES - 2)).find? fun i => !s.used_block i) = some ino := by
    apply find_unused
    · rw [Bool.eq_false_iff, ne_eq, h.used]
      omega
    · exact hino.1
    · omega
    · intro j hj hji
      rw [h.used]
      omega
  simp only [ialloc, wp_bind, wp_get, hfind]
  apply wp_mark (by simp only [NINODES, NBLOCKS] at hlt ⊢; omega)
  rw [wp_pure]
  apply hQ
  refine ⟨fun b => ?_, by omega, hnext⟩
  by_cases hb : b = ino
  · subst hb
    simp only [Function.update_self, true_iff]
    omega
  · rw [Function.update_of_ne hb, h.used]
    omega

/-- The sectors are given away in order, until the loop runs out of `used_block`. -/
theorem wp_balloc (h : Taken s.used_block ino next) {n : ℕ} {Q : ℤ → Disk → Prop}
    (hfit : next < NBLOCKS → next + n ≤ NBLOCKS → ∀ used, Taken used ino (next + n) →
      Q next ⟨s.bin, used⟩)
    (hover : NBLOCKS < next + n → E .bounds) (hnone : next = NBLOCKS → Q (-1) s) :
    wp E (balloc n) Q s := by
  have hnext := h.next
  have hino := h.ino
  rcases Nat.lt_or_ge next NBLOCKS with hlt | hge
  · have hfind : ((List.range' NINODES (NBLOCKS - NINODES)).find? fun i => !s.used_block i) =
        some next := by
      apply find_unused
      · rw [Bool.eq_false_iff, ne_eq, h.used]
        simp only [NINODES] at hino hnext ⊢
        omega
      · exact hnext.1
      · omega
      · intro j hj hji
        rw [h.used]
        omega
    simp only [balloc, wp_bind, wp_get, hfind, Int.toNat_natCast]
    apply wp_each_range fun j t => t.bin = s.bin ∧ next + j ≤ NBLOCKS ∧
      Taken t.used_block ino (next + j)
    · rintro j t - hjn ⟨hbin, hle, htaken⟩
      rcases Nat.lt_or_ge (next + j) NBLOCKS with hj | hj
      · apply wp_mark hj
        refine ⟨hbin, hj, fun b => ?_, hino, by omega, hj⟩
        by_cases hb : b = next + j
        · subst hb
          simp only [Function.update_self, true_iff]
          omega
        · simp only [Function.update_of_ne hb, htaken.used]
          omega
      · simp only [mark, wp_bind, wp_ite, wp_throw, wp_modify]
        rw [if_pos hj]
        exact hover (by omega)
    · exact ⟨rfl, hnext.2, h⟩
    · rintro ⟨bin, used⟩ ⟨rfl, hle, htaken⟩
      rw [Nat.zero_add] at hle htaken
      exact wp_pure.mpr (hfit hlt hle _ htaken)
  · have hfind : ((List.range' NINODES (NBLOCKS - NINODES)).find? fun i => !s.used_block i) =
        none := by
      rw [List.find?_range'_eq_none]
      intro i hi hlt
      have hused : s.used_block i = true := by
        rw [h.used]
        omega
      simp [hused]
    simp only [balloc, wp_bind, wp_get, hfind, wp_pure]
    exact hnone (by omega)

/-! ## Inodes -/

/-- The fields of an inode but for its addresses. -/
def Header (m : Mem) (a type size : ℕ) : Prop :=
  dinodeAt m a = ⟨type, 0, 0, 0x755, 1, size, (dinodeAt m a).addr⟩

theorem Header.congr {a type size : ℕ} (h : Header m a type size)
    (hsame : ∀ x, a ≤ x → x < a + 16 → m' x = m x) : Header m' a type size := by
  simp only [Header, dinodeAt, Dinode.mk.injEq, and_true] at h ⊢
  obtain ⟨h1, h2, h3, h4, h5, h6⟩ := h
  refine ⟨?_, ?_, ?_, ?_, ?_, ?_⟩
  · rw [Mem.load16_congr fun k hk => hsame _ (by omega) (by omega), h1]
  · rw [Mem.load16_congr fun k hk => hsame _ (by omega) (by omega), h2]
  · rw [Mem.load16_congr fun k hk => hsame _ (by omega) (by omega), h3]
  · rw [Mem.load16_congr fun k hk => hsame _ (by omega) (by omega), h4]
  · rw [Mem.load32_congr fun k hk => hsame _ (by omega) (by omega), h5]
  · rw [Mem.load32_congr fun k hk => hsame _ (by omega) (by omega), h6]

theorem wp_putShort {a v : ℤ} {k n : ℕ} {Q : Unit → Disk → Prop} (ha : a = k) (hv : v = n)
    (hn : n < 2 ^ 16) (hle : k + 2 ≤ DISKSIZE) (hQ : Q () { s with bin := s.bin.store16 k n }) :
    wp E (putShort a v) Q s := by
  apply wp_poke ha hle
  have hval : (v % 2 ^ 16).toNat = n := by omega
  rwa [hval]

/-- The stores to an inode change its header only. -/
theorem wp_setInode {a : ℤ} {k type size : ℕ} (ha : a = k) (htype : type < 2 ^ 16)
    (hsize : size < 2 ^ 32) (hle : k + 16 ≤ DISKSIZE) :
    wp E (setInode a type size) (fun _ t => t.used_block = s.used_block ∧
      Header t.bin k type size ∧ ∀ x, x < k ∨ k + 16 ≤ x → t.bin x = s.bin x) s := by
  subst ha
  simp only [setInode, wp_bind]
  apply wp_putShort (n := type) rfl rfl htype (by omega)
  apply wp_putShort (k := k + 2) (n := 0) (by simp) rfl (by decide) (by omega)
  apply wp_putShort (k := k + 4) (n := 0) (by simp) rfl (by decide) (by omega)
  apply wp_putShort (k := k + 6) (n := 0x755) (by simp) rfl (by decide) (by omega)
  apply wp_putInt (k := k + 8) (n := 1) (by simp) rfl (by decide) (by omega)
  apply wp_putInt (k := k + 12) (n := size) (by simp) rfl hsize (by omega)
  refine ⟨rfl, ?_, fun x hx => ?_⟩
  · simp only [Header, dinodeAt, Dinode.mk.injEq, and_true]
    have h2 : (0x755 : ℕ) < 2 ^ 16 := by decide
    have h3 : (1 : ℕ) < 2 ^ 32 := by decide
    simp (disch := omega) only [Mem.load16_store32_of_ne, Mem.load16_store16_of_ne,
      Mem.load16_store16, Mem.load32_store32_of_ne, Mem.load32_store32, and_self]
  · simp (disch := omega) only [Mem.store32_of_ne, Mem.store16_of_ne]

/-! ## Files -/

/-- The number of sectors of a file. -/
def blocks (data : List UInt8) : ℕ := (data.length + 511) / 512

/-- The file of an argument: its entry in the directory at sector `dir`, its inode, and its
data from sector `b` on. -/
structure FileAt (m : Mem) (dir i b : ℕ) (arg data : List UInt8) : Prop where
  entry : entryAt m (512 * dir) i = (3 + i, strncpy (arg.drop 7) FNAMESIZ)
  header : Header m (512 * (3 + i)) T_FILE data.length
  addr : ∀ j < blocks data, m.load32 (512 * (3 + i) + 16 + 4 * j) = b + j
  data : ∀ k, (hk : k < data.length) → m (512 * b + k) = data[k]

theorem entryAt_congr {a i : ℕ} (hsame : ∀ x, a + 32 * i ≤ x → x < a + 32 * (i + 1) → m' x = m x) :
    entryAt m' a i = entryAt m a i := by
  have hsize : FNAMESIZ = 28 := rfl
  simp only [entryAt, Prod.mk.injEq]
  constructor
  · exact Mem.load32_congr fun k hk => hsame _ (by omega) (by omega)
  · exact Mem.read_congr fun k hk => hsame _ (by omega) (by omega)

/-- A file stays while nothing stores to its sectors and its entry. -/
theorem FileAt.congr {dir i b : ℕ} {arg data : List UInt8} (h : FileAt m dir i b arg data)
    (hn : blocks data ≤ 124)
    (hentry : ∀ x, 512 * dir + 32 * i ≤ x → x < 512 * dir + 32 * (i + 1) → m' x = m x)
    (hino : ∀ x, 512 * (3 + i) ≤ x → x < 512 * (4 + i) → m' x = m x)
    (hdata : ∀ x, 512 * b ≤ x → x < 512 * (b + blocks data) → m' x = m x) :
    FileAt m' dir i b arg data where
  entry := (entryAt_congr hentry).trans h.entry
  header := h.header.congr fun x hx hx' => hino x hx (by omega)
  addr j hj := by
    rw [← h.addr j hj]
    exact Mem.load32_congr fun k hk => hino _ (by omega) (by omega)
  data k hk := by
    rw [← h.data k hk]
    apply hdata
    · omega
    · simp only [blocks]
      omega

/-- The sectors of a file that is not too large. -/
theorem sectorsOf_eq {data : List UInt8} (h : blocks data < 2 ^ 31) :
    sectorsOf data.length = blocks data := by
  simp only [sectorsOf, blocks, toInt] at h ⊢
  rw [Nat.mod_eq_of_lt (by omega), if_pos h]

/-- `fread` of all sectors of a file. -/
theorem wp_fread {a n : ℤ} {k : ℕ} {data : List UInt8} (ha : a = k) (hn : n = blocks data)
    (hlt : blocks data < 2 ^ 31) (hle : k + data.length ≤ DISKSIZE) {Q : Unit → Disk → Prop}
    (hQ : Q () { s with bin := s.bin.write k data }) : wp E (fread a n data) Q s := by
  have htake : data.take (512 * (n % 2 ^ 64).toNat) = data := by
    apply List.take_of_length_le
    simp only [blocks] at hn hlt
    omega
  rw [fread, htake]
  exact wp_poke ha hle hQ

/-- What the loop over the sectors of a file stores. -/
theorem wp_addrs {a b : ℤ} {k next n : ℕ} (ha : a = k) (hb : b = next) (hnext : next + n < 2 ^ 32)
    (hle : k + 4 * n ≤ DISKSIZE) :
    wp E (each (fun j : ℕ => putInt (a + 4 * j) (b + j)) (List.range' 0 n))
      (fun _ t => t.used_block = s.used_block ∧ (∀ j < n, t.bin.load32 (k + 4 * j) = next + j) ∧
        ∀ x, x < k ∨ k + 4 * n ≤ x → t.bin x = s.bin x) s := by
  subst ha hb
  apply wp_each_range fun i t => t.used_block = s.used_block ∧
    (∀ j < i, t.bin.load32 (k + 4 * j) = next + j) ∧
      ∀ x, x < k ∨ k + 4 * n ≤ x → t.bin x = s.bin x
  · rintro i t - hi ⟨hused, haddr, hframe⟩
    apply wp_putInt (k := k + 4 * i) (n := next + i) (by simp) (by simp) (by omega) (by omega)
    refine ⟨hused, fun j hj => ?_, fun x hx => ?_⟩
    · by_cases hji : j = i
      · subst hji
        exact Mem.load32_store32 (by omega)
      · simp (disch := omega) only [Mem.load32_store32_of_ne]
        exact haddr j (by omega)
    · simp (disch := omega) only [Mem.store32_of_ne]
      exact hframe x hx
  · exact ⟨rfl, fun j hj => absurd hj (Nat.not_lt_zero j), fun _ _ => rfl⟩
  · rintro t ⟨hused, haddr, hframe⟩
    exact ⟨hused, fun j hj => haddr j (by omega), hframe⟩

theorem strncpy_length (name : List UInt8) (n : ℕ) : (strncpy name n).length = n := by
  simp only [strncpy, List.length_append, List.length_take, List.length_replicate]
  omega

/-- **A file** is added: an entry, an inode, and the sectors of its data. -/
theorem wp_addFile {fs : Files} {dir i : ℕ} {arg data : List UInt8}
    (htaken : Taken s.used_block (3 + i) next) (hi : 3 + i < NINODES) (hdir : NINODES ≤ dir)
    (hnext : dir + 512 ≤ next) (harg : 7 ≤ arg.length) (hfile : fs.file arg = some data)
    (hsize : blocks data ≤ 124) (hfit : next + blocks data < NBLOCKS) :
    wp E (addFile fs dir i arg) (fun _ t =>
      Taken t.used_block (4 + i) (next + blocks data) ∧ FileAt t.bin dir i next arg data ∧
      ∀ x, (x < 512 * dir + 32 * i ∨ 512 * dir + 32 * (i + 1) ≤ x) →
        (x < 512 * (3 + i) ∨ 512 * (4 + i) ≤ x) →
        (x < 512 * next ∨ 512 * (next + blocks data) ≤ x) → t.bin x = s.bin x) s := by
  have hlen : data.length ≤ 512 * blocks data := by
    simp only [blocks]
    omega
  simp only [NINODES, NBLOCKS] at hi hdir hfit
  simp only [addFile, wp_bind]
  apply wp_ialloc htaken (by simp only [NINODES]; omega)
  intro used₁ htaken₁
  apply wp_putInt (k := 512 * dir + 32 * i) (n := 3 + i) (by omega) rfl (by omega)
    (by simp only [DISKSIZE]; omega)
  simp only [wp_ite, wp_bind]
  rw [if_neg (by omega)]
  apply wp_poke (k := 512 * dir + 32 * i + 4) (by omega)
    (by rw [strncpy_length]; simp only [FNAMESIZ, DISKSIZE]; omega)
  simp only [hfile, sectorsOf_eq (show blocks data < 2 ^ 31 by omega), wp_bind, wp_ite]
  rw [if_neg (by omega)]
  apply wp_balloc htaken₁
  · intro _ _ used₂ htaken₂
    apply wp_mono (wp_setInode (k := 512 * (3 + i))
      (by omega) (by decide) (by omega) (by simp only [DISKSIZE]; omega))
    rintro - ⟨bin₃, used₃⟩ ⟨rfl, hheader, hframe₃⟩
    simp only [Int.toNat_natCast]
    apply wp_mono (wp_addrs (k := 512 * (3 + i) + 16) (by omega) rfl
      (by omega) (by simp only [DISKSIZE]; omega))
    rintro - ⟨bin₄, used₄⟩ ⟨rfl, haddr, hframe₄⟩
    simp only at hheader hframe₃ haddr hframe₄
    apply wp_fread (k := 512 * next) (by omega) rfl (by omega)
      (by simp only [DISKSIZE]; omega)
    have hname := strncpy_length (arg.drop 7) FNAMESIZ
    have hfname : FNAMESIZ = 28 := rfl
    -- The last stores have left the entry alone.
    have hold : ∀ x, 512 * (4 + i) ≤ x → x < 512 * next →
        bin₄.write (512 * next) data x = ((s.bin.store32 (512 * dir + 32 * i) (3 + i)).write
          (512 * dir + 32 * i + 4) (strncpy (arg.drop 7) FNAMESIZ)) x := by
      intro x hx hx'
      rw [Mem.write_of_ne (by omega), hframe₄ x (by omega), hframe₃ x (by omega)]
    refine ⟨?_, ⟨?_, ?_, fun j hj => ?_, fun k hk => ?_⟩, fun x hentry hino hdata => ?_⟩
    · rwa [show 3 + i + 1 = 4 + i by omega] at htaken₂
    · rw [entryAt_congr (m := (s.bin.store32 (512 * dir + 32 * i) (3 + i)).write
        (512 * dir + 32 * i + 4) (strncpy (arg.drop 7) FNAMESIZ)) fun x hx hx' =>
          hold x (by omega) (by omega)]
      simp only [entryAt, Prod.mk.injEq]
      constructor
      · rw [Mem.load32_congr fun k hk => Mem.write_of_ne (by omega), Mem.load32_store32 (by omega)]
      · have hread := Mem.read_write (m := s.bin.store32 (512 * dir + 32 * i) (3 + i))
          (a := 512 * dir + 32 * i + 4) (strncpy (arg.drop 7) FNAMESIZ)
        rwa [hname] at hread
    · apply hheader.congr
      intro x hx hx'
      simp only
      rw [Mem.write_of_ne (by omega), hframe₄ x (by omega)]
    · rw [Mem.load32_congr fun k hk => Mem.write_of_ne (by omega)]
      exact haddr j hj
    · exact Mem.write_of_mem hk
    · simp only
      rw [Mem.write_of_ne (by omega), hframe₄ x (by omega), hframe₃ x (by omega),
        Mem.write_of_ne (by omega), Mem.store32_of_ne (by omega)]
  · intro hover
    simp only [NBLOCKS] at hover
    omega
  · intro hfull
    simp only [NBLOCKS] at hfull
    omega

/-! ## The loop over the arguments -/

/-- Arguments with the data of their files. -/
abbrev Args := List (List UInt8 × List UInt8)

/-- The sector behind the files, in an image with the directory at sector `dir`, for which
512 sectors are given away. -/
def place (dir : ℕ) (files : Args) : ℕ := dir + 512 + (files.map fun f => blocks f.2).sum

theorem place_append {dir : ℕ} {files : Args} {f : List UInt8 × List UInt8} :
    place dir (files ++ [f]) = place dir files + blocks f.2 := by
  simp [place, Nat.add_assoc]

/-- A file lies before the sector behind all files. -/
theorem place_take_le {dir i : ℕ} {files : Args} {f : List UInt8 × List UInt8}
    (hf : files[i]? = some f) : place dir (files.take i) + blocks f.2 ≤ place dir files := by
  have hsplit : files = files.take i ++ f :: files.drop (i + 1) := by
    rw [List.getElem?_eq_some_iff] at hf
    obtain ⟨hlt, rfl⟩ := hf
    rw [List.cons_getElem_drop_succ, List.take_append_drop]
  have hsum := congrArg (fun l : Args => (l.map fun f => blocks f.2).sum) hsplit
  simp only [List.map_append, List.map_cons, List.sum_append, List.sum_cons] at hsum
  simp only [place]
  omega

theorem le_place_take {dir i : ℕ} {files : Args} : dir + 512 ≤ place dir (files.take i) := by
  simp only [place]
  omega

/-- The kernel, the directory at sector `dir` and some files are in the image; the other
entries of the directory are zero. -/
structure Stored (m : Mem) (kernel : List UInt8) (dir : ℕ) (files : Args) : Prop where
  base : dir = NINODES + blocks kernel
  kernelno : m.load32 (512 + 12) = NINODES
  copy : ∀ k, (hk : k < kernel.length) → m (512 * NINODES + k) = kernel[k]
  rootdir : m.load32 (512 + 8) = 2
  header : Header m (512 * 2) T_DIR 512
  dirno : m.load32 (512 * 2 + 16) = dir
  file : ∀ i f, files[i]? = some f → FileAt m dir i (place dir (files.take i)) f.1 f.2
  rest : ∀ x, 512 * dir + 32 * files.length ≤ x → x < 512 * (dir + 512) → m x = 0

/-- More files, and other stores outside of what is in the image. -/
theorem Stored.extend {kernel : List UInt8} {dir : ℕ} {files more : Args}
    (h : Stored m kernel dir files) (hsize : ∀ f ∈ files, blocks f.2 ≤ 124)
    (hlen : 3 + files.length ≤ NINODES)
    (hfile : ∀ i f, more[i]? = some f → FileAt m' dir (files.length + i)
      (place dir (files ++ more.take i)) f.1 f.2)
    (hsuper : ∀ x, 512 + 8 ≤ x → x < 512 + 16 → m' x = m x)
    (hlow : ∀ x, 512 * 2 ≤ x → x < 512 * (3 + files.length) → m' x = m x)
    (hkernel : ∀ x, 512 * NINODES ≤ x → x < 512 * dir + 32 * files.length → m' x = m x)
    (hdata : ∀ x, 512 * (dir + 512) ≤ x → x < 512 * place dir files → m' x = m x)
    (hrest : ∀ x, 512 * dir + 32 * (files ++ more).length ≤ x → x < 512 * (dir + 512) →
      m' x = m x) :
    Stored m' kernel dir (files ++ more) := by
  have hbase : dir = 2048 + blocks kernel := h.base
  have hle : kernel.length ≤ 512 * blocks kernel := by
    simp only [blocks]
    omega
  simp only [NINODES] at hlen
  simp only [NINODES] at hkernel
  have hlength : (files ++ more).length = files.length + more.length := List.length_append
  constructor
  case base => exact h.base
  case kernelno =>
    exact (Mem.load32_congr fun k hk => hsuper _ (by omega) (by omega)).trans h.kernelno
  case copy =>
    intro k hk
    rw [← h.copy k hk]
    apply hkernel <;> simp only [NINODES] <;> omega
  case rootdir =>
    exact (Mem.load32_congr fun k hk => hsuper _ (by omega) (by omega)).trans h.rootdir
  case header => exact h.header.congr fun x hx hx' => hlow x hx (by omega)
  case dirno => exact (Mem.load32_congr fun k hk => hlow _ (by omega) (by omega)).trans h.dirno
  case file =>
    intro i f hf
    rcases Nat.lt_or_ge i files.length with hi | hi
    · rw [List.getElem?_append_left hi] at hf
      rw [List.take_append_of_le_length hi.le]
      have hend : place dir (files.take i) + blocks f.2 ≤ place dir files := place_take_le hf
      have hstart : dir + 512 ≤ place dir (files.take i) := le_place_take
      apply (h.file i f hf).congr (hsize f (List.mem_of_getElem? hf))
      · exact fun x hx hx' => hkernel x (by omega) (by omega)
      · exact fun x hx hx' => hlow x (by omega) (by omega)
      · exact fun x hx hx' => hdata x (by omega) (by omega)
    · rw [List.getElem?_append_right hi] at hf
      have hnew := hfile (i - files.length) f hf
      rwa [show files.length + (i - files.length) = i by omega,
        show files ++ more.take (i - files.length) = (files ++ more).take i by
          rw [List.take_append, List.take_of_length_le hi]] at hnew
  case rest =>
    intro x hx hx'
    rw [hrest x hx hx']
    exact h.rest x (by omega) hx'

/-- What is in the image stays while nothing stores to it. -/
theorem Stored.congr {kernel : List UInt8} {dir : ℕ} {files : Args}
    (h : Stored m kernel dir files) (hsize : ∀ f ∈ files, blocks f.2 ≤ 124)
    (hlen : 3 + files.length ≤ NINODES)
    (hsuper : ∀ x, 512 + 8 ≤ x → x < 512 + 16 → m' x = m x)
    (hlow : ∀ x, 512 * 2 ≤ x → x < 512 * (3 + files.length) → m' x = m x)
    (hhigh : ∀ x, 512 * NINODES ≤ x → x < 512 * place dir files → m' x = m x) :
    Stored m' kernel dir files := by
  have hbase := h.base
  have hplace : dir + 512 ≤ place dir files := by
    simp only [place]
    omega
  rw [← List.append_nil files]
  apply h.extend hsize hlen
  case hfile =>
    intro i f hf
    simp at hf
  case hsuper => exact hsuper
  case hlow => exact hlow
  case hkernel =>
    intro x hx hx'
    simp only [NINODES] at hlen
    exact hhigh x hx (by omega)
  case hdata =>
    intro x hx hx'
    exact hhigh x (by omega) hx'
  case hrest =>
    intro x hx hx'
    exact hhigh x (by omega) (by omega)

/-- Behind the files the image is still zero. -/
structure Written (m : Mem) (kernel : List UInt8) (dir : ℕ) (files : Args) : Prop extends
    Stored m kernel dir files where
  inodes : ∀ x, 512 * (3 + files.length) ≤ x → x < 512 * NINODES → m x = 0
  sectors : ∀ x, 512 * place dir files ≤ x → m x = 0

/-- The files can be opened, and are not too large. -/
def Opens (fs : Files) (files : Args) : Prop :=
  ∀ f ∈ files, fs.file f.1 = some f.2 ∧ 7 ≤ f.1.length ∧ blocks f.2 ≤ 124

/-- **The loop** adds all files. -/
theorem wp_addFiles {fs : Files} {kernel : List UInt8} {dir : ℕ} {done files : Args}
    (h : Written s.bin kernel dir done)
    (htaken : Taken s.used_block (3 + done.length) (place dir done))
    (hopens : Opens fs (done ++ files)) (hlen : 3 + (done ++ files).length ≤ NINODES)
    (hfit : place dir (done ++ files) < NBLOCKS) :
    wp E (addFiles fs dir done.length (files.map Prod.fst)) (fun _ t =>
      Written t.bin kernel dir (done ++ files) ∧
      Taken t.used_block (3 + (done ++ files).length) (place dir (done ++ files))) s := by
  induction files generalizing done s with
  | nil =>
      rw [List.append_nil]
      exact wp_pure.mpr ⟨h, htaken⟩
  | cons f files ih =>
      have happend : done ++ f :: files = done ++ [f] ++ files := by simp
      obtain ⟨hfile, harg, hsize⟩ := hopens f (by simp)
      have hfits : place dir done + blocks f.2 ≤ place dir (done ++ f :: files) := by
        rw [happend, ← place_append]
        simp [place]
      have hplace : dir + 512 ≤ place dir done := by
        simp only [place]
        omega
      have hbase : dir = 2048 + blocks kernel := h.base
      simp only [List.length_append, List.length_cons, NINODES] at hlen
      simp only [List.map_cons, addFiles]
      apply wp_seq (wp_addFile htaken (by simp only [NINODES]; omega)
        (by simp only [NINODES]; omega) (by omega) harg hfile hsize (by omega))
      rintro - t ⟨htaken', hfileAt, hframe⟩
      have hwritten : Written t.bin kernel dir (done ++ [f]) := by
        constructor
        case toStored =>
          apply h.extend (fun f' hf' => (hopens f' (by simp [hf'])).2.2)
            (by simp only [NINODES]; omega)
          case hfile =>
            intro i f' hf'
            obtain ⟨hi, -⟩ := List.getElem?_eq_some_iff.mp hf'
            obtain rfl : i = 0 := by simpa using hi
            obtain rfl : f = f' := by simpa using hf'
            simpa using hfileAt
          case hsuper | hlow | hdata =>
            intro x hx hx'
            exact hframe x (by omega) (by omega) (by omega)
          case hkernel =>
            intro x hx hx'
            simp only [NINODES] at hx
            exact hframe x (by omega) (by omega) (by omega)
          case hrest =>
            intro x hx hx'
            simp only [List.length_append, List.length_singleton] at hx
            exact hframe x (by omega) (by omega) (by omega)
        case inodes =>
          intro x hx hx'
          simp only [List.length_append, List.length_singleton, NINODES] at hx hx'
          rw [hframe x (by omega) (by omega) (by omega)]
          exact h.inodes x (by omega) hx'
        case sectors =>
          intro x hx
          rw [place_append] at hx
          rw [hframe x (by omega) (by omega) (by omega)]
          exact h.sectors x (by omega)
      rw [happend] at hopens hfit ⊢
      have hrest := ih hwritten
        (by
          rw [place_append, List.length_append, List.length_singleton,
            show 3 + (done.length + 1) = 4 + done.length by omega]
          exact htaken')
        hopens (by
          simp only [List.length_append, List.length_singleton, NINODES]
          omega) hfit
      rwa [List.length_append, List.length_singleton] at hrest

/-! ## The rest of `main` -/

/-- The boot block. -/
theorem wp_addBoot {boot : List UInt8} :
    wp E (addBoot boot) (fun _ t => Taken t.used_block 2 NINODES ∧
      ∀ x, 512 ≤ x → t.bin x = 0) .zero := by
  have htake : (boot.take (512 * ((1 : ℤ) % 2 ^ 64).toNat)).length ≤ 512 :=
    List.length_take_le _ _
  simp only [addBoot, fread, wp_bind]
  apply wp_poke (k := 0) rfl (by simp only [DISKSIZE]; omega)
  apply wp_mark (by decide)
  refine ⟨⟨fun b => ?_, by decide, by decide⟩, fun x hx => ?_⟩
  · by_cases hb : b = 0
    · simp [hb]
    · simp only [Function.update_of_ne hb, Disk.zero, hb, NINODES]
      simp only [Bool.false_eq_true, false_or, false_iff]
      omega
  · simp only
    rw [Mem.write_of_ne (by omega)]
    rfl

/-- The kernel. -/
theorem wp_addKernel {kernel : List UInt8} (htaken : Taken s.used_block 2 NINODES)
    (hzero : ∀ x, 512 ≤ x → s.bin x = 0) (hfit : NINODES + blocks kernel ≤ NBLOCKS) :
    wp E (addKernel kernel) (fun _ t => Taken t.used_block 2 (NINODES + blocks kernel) ∧
      t.bin.load32 (512 + 12) = NINODES ∧
      (∀ k, (hk : k < kernel.length) → t.bin (512 * NINODES + k) = kernel[k]) ∧
      ∀ x, 512 ≤ x → (x < 512 + 12 ∨ 512 + 16 ≤ x) →
        (x < 512 * NINODES ∨ 512 * (NINODES + blocks kernel) ≤ x) → t.bin x = 0) s := by
  have hlen : kernel.length ≤ 512 * blocks kernel := by
    simp only [blocks]
    omega
  have hn : NINODES = 2048 := rfl
  simp only [NBLOCKS] at hfit
  simp only [addKernel, sectorsOf_eq (show blocks kernel < 2 ^ 31 by omega), wp_bind]
  apply wp_balloc htaken
  case hfit =>
    intro _ _ used htaken'
    apply wp_putInt (k := 512 + 12) (n := NINODES) rfl rfl (by decide) (by decide)
    apply wp_fread (k := 512 * NINODES) (by omega) rfl (by omega) (by simp only [DISKSIZE]; omega)
    refine ⟨htaken', ?_, fun k hk => Mem.write_of_mem hk, fun x hx hsuper hdata => ?_⟩
    · simp only
      rw [Mem.load32_congr fun k hk => Mem.write_of_ne (by omega), Mem.load32_store32 (by decide)]
    · simp only
      rw [Mem.write_of_ne (by omega), Mem.store32_of_ne (by omega)]
      exact hzero x hx
  case hover =>
    intro hover
    simp only [NBLOCKS] at hover
    omega
  case hnone =>
    intro hfull
    cases hfull

/-- The directory. -/
theorem wp_addRootdir {kernel : List UInt8} {dir : ℕ} (hdir : dir = NINODES + blocks kernel)
    (htaken : Taken s.used_block 2 dir) (hkernelno : s.bin.load32 (512 + 12) = NINODES)
    (hcopy : ∀ k, (hk : k < kernel.length) → s.bin (512 * NINODES + k) = kernel[k])
    (hzero : ∀ x, 512 ≤ x → (x < 512 + 12 ∨ 512 + 16 ≤ x) →
      (x < 512 * NINODES ∨ 512 * dir ≤ x) → s.bin x = 0) (hfit : dir + 512 ≤ NBLOCKS) :
    wp E addRootdir (fun r t => r = dir ∧ Written t.bin kernel dir [] ∧
      Taken t.used_block 3 (place dir [])) s := by
  have hlen : kernel.length ≤ 512 * blocks kernel := by
    simp only [blocks]
    omega
  have hn : NINODES = 2048 := rfl
  have hb : NBLOCKS = 8192 := rfl
  simp only [addRootdir, wp_bind]
  apply wp_ialloc htaken (by decide)
  intro used htaken₁
  apply wp_putInt (k := 512 + 8) (n := 2) rfl rfl (by decide) (by decide)
  apply wp_mono (wp_setInode (k := 512 * 2) rfl (by decide)
    (by decide) (by decide))
  rintro - ⟨bin₂, used₂⟩ ⟨rfl, hheader, hframe⟩
  simp only at hheader hframe
  apply wp_balloc (n := 512) htaken₁
  case hover =>
    intro hover
    omega
  case hnone =>
    intro hfull
    omega
  case hfit =>
    intro _ _ used₃ htaken₃
    apply wp_putInt (k := 512 * 2 + 16) (n := dir) rfl rfl (by omega) (by decide)
    rw [wp_pure]
    -- The stores to the superblock and to the inode of the directory.
    have hother : ∀ x, 512 ≤ x → (x < 512 + 8 ∨ 512 + 12 ≤ x) →
        (x < 512 * 2 ∨ 512 * 2 + 20 ≤ x) → bin₂.store32 (512 * 2 + 16) dir x = s.bin x := by
      intro x hx hsuper hino
      rw [Mem.store32_of_ne (by omega), hframe x (by omega), Mem.store32_of_ne (by omega)]
    have hzero' : ∀ x, 512 + 16 ≤ x → (x < 512 * NINODES ∨ 512 * dir ≤ x) →
        (x < 512 * 2 ∨ 512 * 2 + 20 ≤ x) → bin₂.store32 (512 * 2 + 16) dir x = 0 := by
      intro x hx hdata hino
      rw [hother x (by omega) (by omega) hino]
      exact hzero x (by omega) (by omega) hdata
    refine ⟨rfl, ?_, by simpa [place] using htaken₃⟩
    constructor
    case toStored =>
      constructor
      case base => exact hdir
      case kernelno =>
        rw [← hkernelno]
        exact Mem.load32_congr fun k hk => hother _ (by omega) (by omega) (by omega)
      case copy =>
        intro k hk
        rw [← hcopy k hk]
        exact hother _ (by omega) (by omega) (by omega)
      case rootdir =>
        simp (disch := omega) only [Mem.load32_store32_of_ne]
        rw [Mem.load32_congr fun k hk => hframe _ (by omega)]
        exact Mem.load32_store32 (by decide)
      case header =>
        apply hheader.congr
        intro x hx hx'
        exact Mem.store32_of_ne (by omega)
      case dirno => exact Mem.load32_store32 (by omega)
      case file =>
        intro i f hf
        simp at hf
      case rest => exact fun x hx hx' => hzero' x (by omega) (by omega) (by omega)
    case inodes =>
      intro x hx hx'
      simp only [List.length_nil] at hx
      exact hzero' x (by omega) (by omega) (by omega)
    case sectors =>
      intro x hx
      simp only [place, List.map_nil, List.sum_nil] at hx
      exact hzero' x (by omega) (by omega) (by omega)

/-- **The image**: what has been stored, and the lists of the free inodes and sectors. -/
structure Image (m : Mem) (kernel : List UInt8) (dir : ℕ) (files : Args) : Prop extends
    Stored m kernel dir files where
  inodeblock : m.load32 (512 + 20) = 3 + files.length
  freeblock : m.load32 (512 + 16) = place dir files
  inodes : Linked (3 + files.length) NINODES m
  sectors : Linked (place dir files) NBLOCKS m

/-- The lists are made behind the files. -/
theorem Written.image {kernel : List UInt8} {dir : ℕ} {files : Args} {m₁ m₂ : Mem}
    (h : Written m kernel dir files) (hopens : ∀ f ∈ files, blocks f.2 ≤ 124)
    (hlen : 3 + files.length < NINODES) (hplace : place dir files < NBLOCKS)
    (hinodes : Listed (3 + files.length) NINODES (m.store32 (512 + 20) (3 + files.length)) m₁)
    (hsectors : Listed (place dir files) NBLOCKS (m₁.store32 (512 + 16) (place dir files)) m₂) :
    Image ((m₂.store32 (512 + 4) 127).store32 512 127) kernel dir files := by
  have hbase := h.base
  have hn : NINODES = 2048 := rfl
  have hb : NBLOCKS = 8192 := rfl
  have hdir : dir + 512 ≤ place dir files := by
    simp only [place]
    omega
  -- The loops store to free inodes and free sectors.
  have hlow : ∀ x, x < 512 * (3 + files.length) ∨ 512 * NINODES ≤ x →
      m₁ x = m.store32 (512 + 20) (3 + files.length) x := by
    intro x hx
    apply hinodes.other
    intro q c hc hlt
    have hle := le_listSector (f := 3 + files.length) (q := q)
    have hge : listSector (3 + files.length) q < NINODES := by
      simp only [listSector]
      split <;> omega
    simp only [slotOf]
    omega
  have hhigh : ∀ x, x < 512 * place dir files → m₂ x = m₁.store32 (512 + 16) (place dir files) x := by
    intro x hx
    apply hsectors.other
    intro q c hc hlt
    have hle := le_listSector (f := place dir files) (q := q)
    simp only [slotOf]
    omega
  have hsame : ∀ x, x < 512 * (3 + files.length) ∨ 512 * NINODES ≤ x → x < 512 * place dir files →
      x < 512 ∨ 512 + 24 ≤ x ∨ (512 + 8 ≤ x ∧ x < 512 + 16) →
      (m₂.store32 (512 + 4) 127).store32 512 127 x = m x := by
    intro x hx hx' hsuper
    rw [Mem.store32_of_ne (by omega), Mem.store32_of_ne (by omega), hhigh x hx',
      Mem.store32_of_ne (by omega), hlow x hx, Mem.store32_of_ne (by omega)]
  constructor
  case toStored =>
    apply h.toStored.congr hopens hlen.le
    · exact fun x hx hx' => hsame x (by omega) (by omega) (by omega)
    · exact fun x hx hx' => hsame x (by omega) (by omega) (by omega)
    · exact fun x hx hx' => hsame x (by omega) (by omega) (by omega)
  case inodeblock =>
    simp (disch := omega) only [Mem.load32_store32_of_ne]
    rw [Mem.load32_congr fun k hk => hhigh _ (by omega)]
    simp (disch := omega) only [Mem.load32_store32_of_ne]
    rw [Mem.load32_congr fun k hk => hlow _ (by omega), Mem.load32_store32 (by omega)]
  case freeblock =>
    simp (disch := omega) only [Mem.load32_store32_of_ne]
    rw [Mem.load32_congr fun k hk => hhigh _ (by omega), Mem.load32_store32 (by omega)]
  case inodes =>
    have hlinked := hinodes.linked (by omega) fun x hx hx' => by
      rw [Mem.store32_of_ne (by omega)]
      exact h.inodes x hx hx'
    apply hlinked.congr
    intro x hx hx'
    rw [Mem.store32_of_ne (by omega), Mem.store32_of_ne (by omega), hhigh x (by omega),
      Mem.store32_of_ne (by omega)]
  case sectors =>
    have hlinked := hsectors.linked (by omega) fun x hx hx' => by
      rw [Mem.store32_of_ne (by omega), hlow x (by omega), Mem.store32_of_ne (by omega)]
      exact h.sectors x hx
    apply hlinked.congr
    intro x hx hx'
    rw [Mem.store32_of_ne (by omega), Mem.store32_of_ne (by omega)]

/-- **The program**, when it has room for all that it gives away. -/
theorem wp_main {fs : Files} {boot kernel : List UInt8} {files : Args}
    (hboot : fs.bootblock = some boot) (hkernel : fs.kernel = some kernel)
    (hopens : Opens fs files) (hlen : 3 + files.length < NINODES)
    (hfit : place (NINODES + blocks kernel) files + 512 ≤ NBLOCKS) :
    wp E (main fs (files.map Prod.fst))
      (fun _ t => Image t.bin kernel (NINODES + blocks kernel) files ∧
        Taken t.used_block (4 + files.length)
          (place (NINODES + blocks kernel) files + 512)) .zero := by
  obtain ⟨dir, hdir⟩ : ∃ dir, dir = NINODES + blocks kernel := ⟨_, rfl⟩
  rw [← hdir] at hfit ⊢
  have hn : NINODES = 2048 := rfl
  have hb : NBLOCKS = 8192 := rfl
  have hplace : dir + 512 ≤ place dir files := by
    simp only [place]
    omega
  simp only [main, hboot, hkernel]
  apply wp_seq wp_addBoot
  rintro - s₁ ⟨htaken₁, hzero₁⟩
  apply wp_seq (wp_addKernel htaken₁ hzero₁ (by omega))
  rintro - s₂ ⟨htaken₂, hkernelno, hcopy, hzero₂⟩
  rw [← hdir] at htaken₂ hzero₂
  apply wp_seq (wp_addRootdir hdir htaken₂ hkernelno hcopy hzero₂ (by omega))
  rintro - s₃ ⟨rfl, hwritten₃, htaken₃⟩
  apply wp_seq (wp_addFiles hwritten₃ htaken₃ hopens hlen.le
    (by simp only [List.nil_append]; omega))
  rintro - s₄ ⟨hwritten, htaken⟩
  simp only [List.nil_append] at hwritten htaken
  rw [wp_bind]
  apply wp_ialloc htaken (by omega)
  intro used₅ htaken₅
  rw [wp_bind]
  apply wp_putInt (k := 512 + 20) (n := 3 + files.length) rfl rfl (by omega) (by decide)
  apply wp_seq (wp_freeList (by omega) (by omega) (by simp only [DISKSIZE]; omega))
  rintro - ⟨m₁, used₆⟩ ⟨rfl, hinodes⟩
  rw [wp_bind]
  apply wp_balloc (n := 512) htaken₅
  case hover =>
    intro hover
    omega
  case hnone =>
    intro hfull
    omega
  case hfit =>
    intro _ _ used₇ htaken₇
    rw [wp_bind]
    apply wp_putInt (k := 512 + 16) (n := place dir files) rfl rfl (by omega) (by decide)
    apply wp_seq (wp_freeList (by omega) (by omega) (by simp only [DISKSIZE]; omega))
    rintro - ⟨m₂, used₈⟩ ⟨rfl, hsectors⟩
    rw [wp_bind]
    apply wp_putInt (k := 512 + 4) (n := 127) rfl rfl (by decide) (by decide)
    apply wp_putInt (k := 512) (n := 127) rfl rfl (by decide) (by decide)
    refine ⟨hwritten.image (fun f hf => (hopens f hf).2.2) hlen (by omega) hinodes hsectors, ?_⟩
    rwa [show 3 + files.length + 1 = 4 + files.length by omega] at htaken₇

end Mixv6.Fs.Mkfs
