import Mixv6.Fs.Slice
import Mixv6.Syscall.Arguments

/-!
# The image of a program

The new address space before the stack is put into it, against the bytes of the file: the
segments lie over zeros in the order of their headers, and all of their pages are open to the user.

`readi` reads the bytes of a file through the buffers.  Where the buffers have got what is on the
disk, it does so at any time, whatever has been read before.

## Main definitions

* `cachedFile`, `cachedFile_holds` — a file behind the buffers.
* `Shows`, `execv_image` — the image, and that `sys_execv` builds it.
-/

namespace Mixv6.Syscall.User

open Mixv6.Lib Mixv6.Kernel
open Mixv6.Mm (KERNEND USEREND PAGESIZE PGROUNDUP present loopFuel Phys Ghost Tag Vm Heap)
open Mixv6.Fs.Cache (Devsw Bytes SECTSIZE view byteAt)

/-! ## Files behind the buffers -/

/-- A file, as `readi` finds it in a state of the buffers. -/
def cachedFile (devsw : ℕ → Devsw) (w : Fs.Cache.State) (ip : Inode) : Mm.File where
  readi offset n :=
    match Fs.Cache.readi devsw ip (fun _ => 0) offset n w with
    | .error _ => none
    | .ok ((r, dst), _) => if r < 0 then none else some (((List.range r.toNat).map dst).take n)
  length_le := by
    intro offset n bs h
    split at h
    next => cases h
    next =>
      split at h
      next => cases h
      next =>
        obtain rfl := Option.some.inj h
        exact List.length_take_le ..

/-- The buffers have got what is on the disk, and nobody holds one. -/
structure Clean (w : Fs.Cache.State) : Prop where
  quiet : Fs.Cache.Quiet w
  saved : ∀ n, view w n = w.sectors n

section Files
variable {devsw : ℕ → Devsw} {w w' : Fs.Cache.State} {ip : Inode} {offset n : ℕ}

/-- A call of `readi` leaves the buffers like this, with the same sectors. -/
theorem wp_readi_clean (h : Clean w) (dst : Bytes) :
    wp (fun _ => True) (Fs.Cache.readi devsw ip dst offset n)
      (fun _ t => Clean t ∧ t.sectors = w.sectors) w := by
  have hloop : ∀ size a, wp (fun _ => True) (iterate .loop (Fs.Cache.readTurn ip size) (size + 1) a)
      (fun _ t => Clean t ∧ t.sectors = w.sectors) w := by
    intro size a
    apply wp_iterate_partial trivial (fun _ t => Clean t ∧ t.sectors = w.sectors)
    · rintro ⟨l, dst⟩ t ⟨ht, hsectors⟩
      apply Fs.Cache.wp_readTurn ht.quiet
      · exact fun _ => ⟨ht, hsectors⟩
      · exact fun _ _ => trivial
      · intro _ hb
        have hfine : Fs.Cache.Fine t (ip.dinode.addr (l.offset / SECTSIZE)) := by
          intro _ hvalid
          rw [← ht.quiet.view_of_valid hvalid, ht.saved]
        refine ⟨⟨ht.quiet.access (fun _ => hb) _, fun m => ?_⟩, hsectors⟩
        rw [Fs.Cache.view_readTurn ht.quiet hfine hb, ht.saved]
        rfl
    · exact ⟨h, rfl⟩
  simp only [Fs.Cache.readi, wp_ite, wp_bind, wp_pure]
  split
  next =>
    split
    next => exact ⟨h, trivial⟩
    next =>
      split
      next => exact wp_pure.mpr ⟨h, rfl⟩
      next => exact wp_pure.mpr ⟨h, rfl⟩
  next =>
    split
    next => exact ⟨h, trivial⟩
    next =>
      apply wp_mono (hloop _ _)
      exact fun _ _ ht => ht

/-- **`readi`** of such a file. -/
theorem cachedFile_readi (h : Clean w) (htype : ip.dinode.type ≠ T_DEV)
    (haddr : ∀ k < ip.dinode.size, ip.dinode.addr (k / SECTSIZE) < Fs.NSECTOR) (hn : n < 2 ^ 31)
    (hoffset : offset ≤ ip.dinode.size) (hlt : offset < NADDR * SECTSIZE) :
    (cachedFile devsw w ip).readi offset n =
      some ((List.range (min n (ip.dinode.size - offset))).map fun k => byteAt w ip (offset + k)) := by
  obtain ⟨dst, t, hrun, hdst⟩ : ∃ dst' t, Fs.Cache.readi devsw ip (fun _ => 0) offset n w = _ ∧ _ :=
    Fs.Cache.readi_inside h.quiet htype haddr hn hoffset hlt
  have hblocks : ∀ b ∈ Fs.Cache.blocksOf ip offset (min n (ip.dinode.size - offset)), b < Fs.NSECTOR := by
    intro b hb
    obtain ⟨k, hk, rfl⟩ := Fs.Cache.mem_blocksOf hb
    exact haddr _ (by omega)
  simp only [cachedFile, hrun]
  rw [if_neg (by omega), Int.toNat_natCast, List.take_of_length_le (by simp)]
  congr 1
  apply List.map_congr_left
  intro k hk
  have hk' := List.mem_range.mp hk
  rw [hdst k, if_pos hk', Fs.Cache.breads_eq h.quiet h.saved hblocks, Fs.Cache.slice_map hk', byteAt,
    h.saved]

/-- `readi` of a file does not return more than an `int` has room for. -/
theorem wp_readi_lt (htype : ip.dinode.type ≠ T_DEV) (hn : n < 2 ^ 32) (dst : Bytes) :
    wp (fun _ => True) (Fs.Cache.readi devsw ip dst offset n) (fun r _ => r.1 < 2 ^ 31) w := by
  simp only [Fs.Cache.readi, if_neg htype, wp_ite, wp_bind, wp_pure]
  split
  next => decide
  next =>
    apply wp_mono (wp_trivial fun _ => trivial)
    intro dst _ _
    simp only [Fs.Cache.toInt]
    split <;> split <;> omega

/-- **What `readi` delivers** are the bytes of the file. -/
theorem cachedFile_holds (h : Clean w) (htype : ip.dinode.type ≠ T_DEV)
    (haddr : ∀ k < ip.dinode.size, ip.dinode.addr (k / SECTSIZE) < Fs.NSECTOR) :
    (cachedFile devsw w ip).Holds (byteAt w ip) := by
  intro offset n bs hoffset hn hread hlen
  have hsize : NADDR * SECTSIZE = 63488 := rfl
  by_cases hrejected : ip.dinode.size < offset ∨ NADDR * SECTSIZE ≤ offset
  · -- Nothing is read there.
    have hnone : Fs.Cache.readi devsw ip (fun _ => 0) offset n w = .ok ((-1, fun _ => 0), w) := by
      rcases hrejected with hbehind | hlast
      · exact Fs.Cache.readi_outside htype hbehind
      · apply Fs.Cache.readi_beyond htype
        rwa [Nat.le_div_iff_mul_le (by decide)]
    simp [cachedFile, hnone] at hread
  · rw [not_or, Nat.not_lt, Nat.not_le] at hrejected
    have hint : n < 2 ^ 31 := by
      by_contra hbig
      rcases hrun : Fs.Cache.readi devsw ip (fun _ => 0) offset n w with e | ⟨⟨r, dst⟩, t⟩
      · simp [cachedFile, hrun] at hread
      · have hlt := wp_ok (wp_readi_lt htype hn _) hrun
        simp only [cachedFile, hrun] at hread
        split at hread
        next => cases hread
        next =>
          have hlen' := congrArg List.length (Option.some.inj hread)
          rw [List.length_take, List.length_map, List.length_range] at hlen'
          omega
    rw [cachedFile_readi h htype haddr hint hrejected.1 hrejected.2] at hread
    obtain rfl := Option.some.inj hread
    rw [List.length_map, List.length_range] at hlen
    refine ⟨by omega, fun k hk => ?_⟩
    simp [hlen, hk]

/-- A file that begins with these bytes. -/
theorem cachedFile_begins (h : Clean w) (htype : ip.dinode.type ≠ T_DEV)
    (haddr : ∀ k < ip.dinode.size, ip.dinode.addr (k / SECTSIZE) < Fs.NSECTOR) {bs : List UInt8}
    (hlen : bs.length ≤ ip.dinode.size) (hlast : bs.length < NADDR * SECTSIZE)
    (hbytes : ∀ k < bs.length, byteAt w ip k = bs.getD k 0) : Begins (cachedFile devsw w ip) bs := by
  intro offset n hn
  have hsize : NADDR * SECTSIZE = 63488 := rfl
  rw [cachedFile_readi h htype haddr (by omega) (by omega) (by omega), min_eq_left (by omega),
    Option.some.injEq]
  apply List.ext_getElem
  · simp only [List.length_map, List.length_range, List.length_take, List.length_drop]
    omega
  · intro k hk _
    rw [List.length_map, List.length_range] at hk
    simp [hbytes (offset + k) (by omega), List.getElem?_eq_getElem (show offset + k < bs.length by omega)]

/-- It does not matter what has been read before. -/
theorem cachedFile_of_read {ip' : Inode} {dst : Bytes} {offset' n' : ℕ} {r : ℤ × Bytes} (h : Clean w)
    (hread : Fs.Cache.readi devsw ip' dst offset' n' w = .ok (r, w')) (htype : ip.dinode.type ≠ T_DEV)
    (haddr : ∀ k < ip.dinode.size, ip.dinode.addr (k / SECTSIZE) < Fs.NSECTOR) (hn : n < 2 ^ 31) :
    (cachedFile devsw w' ip).readi offset n = (cachedFile devsw w ip).readi offset n := by
  obtain ⟨h', hsectors⟩ := wp_ok (wp_readi_clean h dst) hread
  have hbyte : byteAt w' ip = byteAt w ip := by
    funext k
    rw [byteAt, byteAt, h.saved, h'.saved, hsectors]
  by_cases hoffset : offset ≤ ip.dinode.size
  · by_cases hlt : offset < NADDR * SECTSIZE
    · rw [cachedFile_readi h htype haddr hn hoffset hlt, cachedFile_readi h' htype haddr hn hoffset hlt,
        hbyte]
    · have hlast : NADDR ≤ offset / SECTSIZE := by
        rwa [Nat.le_div_iff_mul_le (by decide), ← Nat.not_lt]
      simp [cachedFile, Fs.Cache.readi_beyond htype hlast]
  · simp [cachedFile, Fs.Cache.readi_outside htype (Nat.not_le.mp hoffset)]

end Files

/-! ## The image -/

/-- The user half of the new address space is the image of the file, whose bytes are `c`, and the
user has got its pages for writing. -/
structure Shows (f : Mm.File) (elf : Elfhdr) (c : ℕ → UInt8) (x : Program) (σ : Phys) : Prop where
  segments : ∀ j < elf.phnum, ∃ ph, elf.phdr f j = some ph ∧
    (ph.type = ELF_PROG_LOAD → ph.filesz ≤ ph.memsz ∧ ph.vaddr + ph.memsz ≤ x.va)
  high : x.va < USEREND
  inside : ∀ a, KERNEND ≤ a → a < PGROUNDUP x.va → ∃ e, Mm.entryOf σ x.pgdir a = some e ∧
    present e ∧ Mm.isWritable e ∧ Mm.isUser e ∧
    σ.mem (Mm.PTE_ADDR e + a % PAGESIZE) = elf.image f c elf.phnum a
  outside : ∀ a, PGROUNDUP x.va ≤ a → a < 2 ^ 32 → Mm.translate σ x.pgdir a = none

/-- The segments of the file lie at or above `KERNEND`. -/
def AtUserFile (f : Mm.File) : Prop :=
  ∀ bs, readHeader f 0 Elfhdr.size = some bs → (Elfhdr.ofBytes bs).AtUser f

variable {env : Env} {s t : State} {n : ℕ} {ip : InodeId} {F : List ℕ} {own : ℕ → Tag} {x : Program}
  {elf : Elfhdr} {f : Mm.File} {L : Mm.Layout} {σ σ' : Phys} {g : Ghost}

/-- The address space at the end of the loop. -/
theorem Segmented.shows (h : Segmented L n σ own f elf elf.phnum x.va σ' g) (hdir : g.sp.dir = x.pgdir)
    {c : ℕ → UInt8} (hc : f.Holds c) : Shows f elf c x σ' := by
  have hhigh := h.laid.high
  have hround : PGROUNDUP x.va = 4096 * ((x.va + 4095) / 4096) := Mm.PGROUNDUP_eq hhigh.le
  simp only [USEREND] at hhigh
  have hlow := h.laid.low
  simp only [KERNEND] at hlow
  refine ⟨fun j hj => ?_, h.laid.high, fun a ha hlt => ?_, fun a ha hlt => ?_⟩
  · obtain ⟨ph, hph, -⟩ := h.headers j hj
    exact ⟨ph, hph, h.ends j hj ph hph⟩
  · simp only [KERNEND] at ha
    have hpage : present (g.sp.pte (a / 4096)) := (h.laid.filled _ (by omega)).mpr (by omega)
    have hflags := h.laid.flags _ (by omega) hpage
    simp only [Mm.PTE_FLAGS] at hflags
    refine ⟨g.sp.pte (a / 4096), ?_, hpage, ?_, ?_, h.laid.byte c hc a ⟨by omega, hpage⟩⟩
    · rw [← hdir, h.laid.vm.entryOf (by omega)]
      obtain ⟨t, ht⟩ := h.laid.vm.tab_of_present hpage
      rw [show a / 2 ^ 22 = a / 4096 / 1024 by omega, ht]
      rfl
    · simp only [Mm.isWritable, decide_eq_true_eq]
      omega
    · simp only [Mm.isUser, decide_eq_true_eq]
      omega
  · have habsent : ¬ present (g.sp.pte (a / 4096)) := by
      rw [h.laid.filled _ (by omega)]
      omega
    rw [← hdir, h.laid.vm.translate hlt, if_neg habsent]

/-! ## A program on a disk -/

/-- A disk with the program in the sectors from 2048 on. -/
def programDisk : Fs.Cache.State := .boot fun n j => twoPageProgram.getD (SECTSIZE * (n - 2048) + j) 0

theorem clean_programDisk : Clean programDisk where
  quiet := .boot _
  saved _ := Fs.Cache.view_of_invalid fun _ _ => rfl

/-- The inode of the program. -/
def programInode (refcnt : ℕ) : Inode :=
  ⟨0, refcnt, true, 0, ⟨Fs.Cache.T_FILE, 0, 0, 0, 1, 5084, fun k => 2048 + k⟩⟩

/-- The kernel that reads it. -/
def programEnv : Env := { emptyEnv with file := cachedFile Fs.Cache.noDev programDisk }

/-- Its only inode. -/
def programTables : Syscall.State := { console with inode := fun _ => programInode 1 }

/-- The program, as `readi` finds it when the file has been looked up. -/
def programFile : Mm.File := cachedFile Fs.Cache.noDev programDisk (programInode 2)

theorem programInode_addr (k : ℕ) (hk : k < (programInode 2).dinode.size) :
    (programInode 2).dinode.addr (k / SECTSIZE) < Fs.NSECTOR := by
  simp only [programInode, SECTSIZE, Fs.NSECTOR] at hk ⊢
  omega

theorem program_begins : Begins programFile twoPageProgram := by
  have hlen : twoPageProgram.length = 5084 := by
    rw [twoPageProgram, length_oneSegment, length_twoPages]
  apply cachedFile_begins clean_programDisk (by decide) programInode_addr
  · exact hlen.le
  · rw [hlen]
    decide
  · intro k _
    rw [byteAt, clean_programDisk.saved]
    change twoPageProgram.getD (SECTSIZE * (2048 + k / SECTSIZE - 2048) + k % SECTSIZE) 0 = _
    rw [Nat.add_sub_cancel_left, Nat.div_add_mod]

/-! ## The result -/

/-- **`sys_execv` loads what the file says.**  Where the loop has come to its end, and so in every
call that succeeds, the new address space before the stack is set up is the image of the file. -/
theorem execv_image (h : Heap env.L s.phys F own) (hat : AtUserFile (s.fileOf env ip)) :
    (∀ x t, loadSegments env ip s = .ok (some x, t) →
      ∃ bs, readHeader (s.fileOf env ip) 0 Elfhdr.size = some bs ∧
        ∀ c, (s.fileOf env ip).Holds c → Shows (s.fileOf env ip) (.ofBytes bs) c x t.phys) ∧
    ∀ s₀ argv u, find env s₀ = .ok ((argv, some ip), s) → sys_execv env s₀ = .ok (0, u) →
      ∃ x t, loadSegments env ip s = .ok (some x, t) ∧
        (addStack env ip x >>= fun r => r.elim (pure (-1)) (runProgram env argv)) t = .ok (0, u) := by
  constructor
  · intro x t hrun
    obtain ⟨n, -, hnew⟩ := h.exists_fresh 0
    obtain ⟨-, -, -, hsome⟩ := wp_ok (wp_loadSegments (E := fun _ => False) h hnew fun bs hbs =>
      (hat bs hbs).safe) hrun
    obtain ⟨g, bs, hbs, hdir, hsegments⟩ := hsome x rfl
    exact ⟨bs, hbs, fun c hc => hsegments.shows hdir hc⟩
  · intro s₀ argv u hfind hexec
    rw [sys_execv_of_find hfind, loadProgram_eq, bind_assoc, run_bind] at hexec
    rcases hload : loadSegments env ip s with e | ⟨r, t⟩
    · rw [hload] at hexec
      cases hexec
    · rw [hload, ok_bind] at hexec
      cases r with
      | none => cases hexec
      | some x => exact ⟨x, t, rfl, hexec⟩

/-- The program is executed without arguments. -/
theorem execv_image_program : ∃ s₀ s x t u, find programEnv s₀ = .ok ((0, some 0), s) ∧
    sys_execv programEnv s₀ = .ok (0, u) ∧ loadSegments programEnv 0 s = .ok (some x, t) ∧
    Shows programFile (.ofBytes (twoPageProgram.take 52)) (byteAt programDisk (programInode 2)) x t.phys := by
  obtain ⟨σ, g, hvm, -, -, hroom, -⟩ := Mm.exists_vm_small
  obtain ⟨n, hne, hnew⟩ := hvm.heap.exists_fresh 0
  have halign : ∀ p, g.own p ≠ .out → p % 4096 = 0 := fun p hp => (hvm.heap.pages p hp).1
  obtain ⟨tables, hroot, hinode⟩ : ∃ tables, getrootdir programEnv.contents programTables = .ok (0, tables) ∧
    tables.inode 0 = programInode 2 := ⟨_, rfl, rfl⟩
  have hfind : find programEnv { execvCall σ g.sp.dir 0 with tables := programTables } = _ :=
    find_execvCall (by decide) hroot
  generalize hs : { execvCall σ g.sp.dir 0 with tables } = s at hfind
  have hphys : s.phys = σ := by
    rw [← hs]
    rfl
  have hheap : Heap programEnv.L s.phys g.free g.own := hphys ▸ hvm.heap
  have hfile : s.fileOf programEnv 0 = programFile := by
    rw [← hs, State.fileOf, programFile, ← hinode]
    rfl
  have hbegins : Begins (s.fileOf programEnv 0) twoPageProgram := hfile ▸ program_begins
  have hend : KERNEND + ((List.range 5000).map UInt8.ofNat).length < 2 ^ 32 := by
    rw [length_twoPages]
    decide
  -- The program is loaded and gets its stack.
  obtain ⟨y, w, hload⟩ : ∃ y w, loadProgram programEnv 0 s = .ok (some y, w) :=
    wp_loadProgram_oneSegment hheap (by omega) hbegins (by rw [length_twoPages]; decide)
      (by rw [length_twoPages]; decide)
  obtain ⟨hw, -, hsome⟩ := wp_ok (wp_loadProgram_loaded (E := fun _ => False) hheap hnew
    (safeFile_oneSegment hbegins hend)) hload
  obtain ⟨-, g', hl⟩ := hsome y rfl
  have hrun : wp (fun _ => False) (runProgram programEnv 0 y) _ w :=
    hl.wp_runProgram (.inl ⟨rfl, rfl⟩) (Nat.zero_le _) (fun i hi => absurd hi (Nat.not_lt_zero i)) (by decide)
      (hphys ▸ hvm.space) (by rw [hw, ← hs]; rfl) hne halign
  obtain ⟨_, u, hcall, rfl, -⟩ := wp_total.mp hrun
  have hexec : sys_execv programEnv { execvCall σ g.sp.dir 0 with tables := programTables } = .ok (0, u) := by
    rw [sys_execv_of_find hfind, run_bind, hload, ok_bind]
    exact hcall
  have hat : AtUserFile (s.fileOf programEnv 0) := by
    intro bs hbs
    obtain rfl := Option.some.inj (hbegins.header.symm.trans hbs)
    exact atUser_oneSegment hbegins hend
  obtain ⟨hshows, hsucceeds⟩ := execv_image hheap hat
  obtain ⟨x, t, hsegments, -⟩ := hsucceeds _ 0 u hfind hexec
  obtain ⟨bs, hbs, himage⟩ := hshows x t hsegments
  obtain rfl := Option.some.inj (hbegins.header.symm.trans hbs)
  rw [hfile] at himage
  exact ⟨_, s, x, t, u, hfind, hexec, hsegments, himage _
    (cachedFile_holds clean_programDisk (by decide) programInode_addr)⟩

end Mixv6.Syscall.User
