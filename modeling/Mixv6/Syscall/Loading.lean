import Mixv6.Mm.Isolation
import Mixv6.Syscall.Confined
import Mixv6.Syscall.Segments

/-!
# Loading a program

`sys_execv` up to the end of its loop over the program headers, for a file with any bytes.

`find` changes the tables only.  `loadSegments` does not check that a segment lies at or above
`KERNEND`.  The new address space has the kernel mapped below that, so that a segment there is
written over the kernel; all other files stay in the pages that the call was handed.

## Main definitions

* `find`, `loadSegments`, `addStack`, `runProgram`, `sys_execv_eq` — the parts of the call.
* `Quiet` — routines that change the tables only.
* `SafeFile`, `Contained`, `contained_of_safe` — what a program file may come to.
* `oneSegment`, `overwrites_kernel` — files with one segment, and one that is written over the kernel.
-/

namespace Mixv6.Syscall.User

open Mixv6.Lib Mixv6.Kernel
open Mixv6.Mm (KERNEND USEREND PAGESIZE present loopFuel Phys Ghost Tag Space Vm Frame Heap page)

variable {α β : Type} {env : Env} {s t : State} {a n p : ℕ} {ip : InodeId}

/-! ## The parts of the call -/

/-- The arguments of `sys_execv`, and the inode of the file. -/
def find (env : Env) : Kern (ℕ × Option InodeId) := do
  let path ← argptr 0
  let argv ← argptr 1
  return (argv, ← namei env path)

/-- From the lock of the inode to the end of the loop. -/
def loadSegments (env : Env) (ip : InodeId) : Kern (Option Program) := do
  acquire ip
  let f := env.file ((← get).tables.inode ip)
  match readHeader f 0 Elfhdr.size with
  | none => bad env 0 ip
  | some bs =>
      let elf := Elfhdr.ofBytes bs
      if elf.magic ≠ ELF_MAGIC then
        return ← bad env 0 ip
      let pgdir ← onPhys (Mm.setupkvm env.L)
      if pgdir = 0 then
        return ← bad env 0 ip
      match ← onPhys (iterate .hang (segmentTurn env.L pgdir f elf) loopFuel (0, KERNEND)) with
      | none => bad env pgdir ip
      | some va => return some ⟨pgdir, va, elf.entry⟩

/-- The user stack. -/
def addStack (env : Env) (ip : InodeId) (x : Program) : Kern (Option Program) := do
  release
  let va ← onPhys (Mm.ustack env.L x.pgdir x.va)
  if va = 0 then
    return ← bad env x.pgdir ip
  return some { x with va }

/-- The arguments, and the switch to the new address space. -/
def runProgram (env : Env) (argv : ℕ) (x : Program) : Kern ℤ := do
  let a ← if argv ≠ 0 then iterate .hang (argvTurn x.pgdir argv) (NARGV + 2) ⟨0, x.va, []⟩
    else pure ⟨0, x.va, []⟩
  finish env x a
  return 0

/-- The exit `bad` gives none. -/
theorem bad_bind {pgdir : ℕ} (k : Option Program → Kern β) :
    bad env pgdir ip >>= k = (bad env pgdir ip >>= fun _ => k none) := by
  simp only [bad]
  split
  next =>
    simp only [bind_assoc]
    refine bind_congr fun _ => bind_congr fun s => ?_
    split <;> simp only [bind_assoc, pure_bind]
  next =>
    simp only [bind_assoc]
    refine bind_congr fun s => ?_
    split <;> simp only [bind_assoc, pure_bind]

theorem loadProgram_eq : loadProgram env ip =
    (loadSegments env ip >>= fun r => r.elim (pure none) (addStack env ip)) := by
  have hbad : ∀ pgdir, bad env pgdir ip =
      (bad env pgdir ip >>= fun r => r.elim (pure none) (addStack env ip)) := by
    intro pgdir
    conv_lhs => rw [← bind_pure (bad env pgdir ip), bad_bind]
    rw [bad_bind fun r : Option Program => r.elim (pure none) (addStack env ip)]
    rfl
  simp only [loadProgram, loadSegments, bind_assoc]
  refine bind_congr fun _ => bind_congr fun s => ?_
  rcases readHeader (env.file (s.tables.inode ip)) 0 Elfhdr.size with _ | bs
  · exact hbad 0
  · by_cases hmagic : (Elfhdr.ofBytes bs).magic ≠ ELF_MAGIC
    · simp only [if_pos hmagic]
      exact hbad 0
    · simp only [if_neg hmagic, bind_assoc]
      refine bind_congr fun pgdir => ?_
      by_cases hdir : pgdir = 0
      · simp only [if_pos hdir]
        exact hbad 0
      · simp only [if_neg hdir, bind_assoc]
        refine bind_congr fun va => ?_
        cases va with
        | none => exact hbad pgdir
        | some va => simp only [pure_bind, Option.elim_some, addStack]

/-- **`sys_execv`** in three parts. -/
theorem sys_execv_eq : sys_execv env = (find env >>= fun a => a.2.elim (pure (-1)) fun ip =>
    loadProgram env ip >>= fun r => r.elim (pure (-1)) (runProgram env a.1)) := by
  simp only [sys_execv, find, findProgram, bind_assoc, pure_bind]
  refine bind_congr fun path => bind_congr fun argv => bind_congr fun ip => ?_
  cases ip with
  | none => simp only [pure_bind, Option.elim_none]
  | some ip =>
      simp only [Option.elim_some]
      refine bind_congr fun x => ?_
      cases x <;> rfl

/-! ## Routines that leave the memory alone -/

/-- Any way to stop. -/
def Any (_ : Stop) : Prop := True

/-- A routine that changes tables only. -/
def Quiet (c : Kern α) : Prop := ∀ s, wp Any c (fun _ t => ∃ tables, t = { s with tables }) s

theorem quiet_pure (a : α) : Quiet (pure a : Kern α) := fun s => wp_pure.mpr ⟨s.tables, rfl⟩

theorem quiet_throw (e : Stop) : Quiet (throw e : Kern α) := fun _ => wp_throw.mpr trivial

theorem quiet_get : Quiet (get : Kern State) := fun s => wp_get.mpr ⟨s.tables, rfl⟩

theorem Quiet.bind {c : Kern α} {f : α → Kern β} (hc : Quiet c) (hf : ∀ a, Quiet (f a)) :
    Quiet (c >>= f) := by
  intro s
  apply wp_seq (hc s)
  rintro a _ ⟨tables, rfl⟩
  exact wp_mono (hf a _) fun _ _ hu => hu

theorem Quiet.ite {q : Prop} [Decidable q] {c d : Kern α} (hc : Quiet c) (hd : Quiet d) :
    Quiet (if q then c else d) := by
  split
  · exact hc
  · exact hd

theorem quiet_onTables (c : Syscall.Kern α) : Quiet (onTables c) := by
  intro s
  rw [onTables, wp_zoom]
  refine wp_mono (wp_trivial fun _ => trivial) ?_
  intro _ tables _
  exact ⟨tables, rfl⟩

/-- The kernel loads a byte of the caller. -/
theorem wp_getByte_any {Q : UInt8 → State → Prop} (h : s.Present a → Q (s.byte a) s) :
    wp Any (getByte a) Q s := by
  simp only [getByte, wp_bind, wp_get, wp_ite, wp_throw, wp_pure]
  by_cases hp : s.Present a
  · simpa [hp] using h hp
  · simp [hp, Any]

theorem quiet_getByte (a : ℕ) : Quiet (getByte a) := fun s => wp_getByte_any fun _ => ⟨s.tables, rfl⟩

theorem quiet_strcmp (q : List UInt8) (limit : ℕ) : Quiet (strcmp p q limit) := by
  induction limit generalizing p q with
  | zero => exact (quiet_getByte p).bind fun _ => quiet_pure _
  | succ limit ih =>
      apply (quiet_getByte p).bind
      intro c
      exact .ite (quiet_pure _) (.ite (quiet_pure _) (ih _))

theorem quiet_dirlookup (c : Contents) (fname : ℕ) (d : Directory) :
    Quiet (dirlookup c fname d) := by
  induction d with
  | nil => exact quiet_pure none
  | cons entry d ih =>
      apply (quiet_strcmp _ _).bind
      intro same
      exact .ite (quiet_onTables _) ih

theorem quiet_namei (env : Env) (path : ℕ) : Quiet (namei env path) := by
  apply Quiet.ite (quiet_pure none)
  apply (quiet_onTables _).bind
  intro ip
  apply (quiet_getByte path).bind
  intro c
  apply Quiet.ite (quiet_pure _)
  apply quiet_get.bind
  intro s
  apply Quiet.ite (quiet_throw _)
  apply (quiet_onTables _).bind
  intro _
  exact quiet_dirlookup _ _ _

theorem quiet_getWord (a : ℕ) : Quiet (getWord a) := by
  apply (quiet_getByte a).bind
  intro _
  apply (quiet_getByte (a + 1)).bind
  intro _
  apply (quiet_getByte (a + 2)).bind
  intro _
  apply (quiet_getByte (a + 3)).bind
  intro _
  exact quiet_pure _

theorem quiet_argptr (argc : ℕ) : Quiet (argptr argc) := by
  have hargint : Quiet (argint argc) :=
    quiet_get.bind fun _ => (quiet_getWord _).bind fun _ => quiet_pure _
  exact hargint.bind fun _ => quiet_pure _

/-- The arguments and the path are read, nothing more. -/
theorem quiet_find (env : Env) : Quiet (find env) := by
  apply (quiet_argptr 0).bind
  intro path
  apply (quiet_argptr 1).bind
  intro argv
  exact (quiet_namei env path).bind fun _ => quiet_pure _

/-! ## Containment -/

/-- The bytes that have changed lie in pages that `kalloc` has returned since, from the free
list `F`. -/
def Handed (F : List ℕ) (σ σ' : Phys) : Prop :=
  ∃ new, σ'.handed = new ++ σ.handed ∧ (∀ p ∈ new, p ∈ F) ∧ ∀ x, page x ∉ new → σ'.mem x = σ.mem x

/-- What the header check and the loop promise when they end: they stay in their own pages and
leave the caller alone, and where they reject the file, the lock is free and the call returns -1. -/
structure Contained (env : Env) (F : List ℕ) (ip : InodeId) (s : State) (r : Option Program)
    (t : State) : Prop where
  pages : Handed F s.phys t.phys
  caller : t = { s with phys := t.phys, lock := t.lock }
  rejected : r = none → t.lock = none ∧ ∀ s₀ argv, find env s₀ = .ok ((argv, some ip), s) →
    sys_execv env s₀ = .ok (-1, t) ∧ s = { s₀ with tables := s.tables }

variable {F : List ℕ} {own own' : ℕ → Tag} {σ σ' : Phys} {E : Stop → Prop}

/-- What a new address space does stays in its own pages. -/
theorem Handed.of_frame (h : Heap env.L σ F own) (hnew : ∀ q, ¬ (own q).of n)
    (hf : Frame n σ own σ' own') : Handed F σ σ' := by
  obtain ⟨new, hf⟩ := hf
  refine ⟨new, hf.handed, fun p hp => ?_, fun x hx => hf.mem x hx (hnew _)⟩
  exact (h.free p).mpr ((hf.fresh p hp).resolve_right (hnew p))

/-- The exit `bad` before there is a directory. -/
theorem wp_bad_zero (hlock : s.lock = some ip) {Q : Option Program → State → Prop}
    (hQ : Q none { s with lock := none }) : wp E (bad env 0 ip) Q s := by
  simpa [bad, release, hlock] using hQ

/-- The allocator is in order, and what has changed belongs to address space `n`. -/
def Settled (L : Mm.Layout) (n : ℕ) (σ : Phys) (own : ℕ → Tag) (σ' : Phys) : Prop :=
  ∃ F own', Heap L σ' F own' ∧ Frame n σ own σ' own'

/-- The exit `bad` frees the new address space. -/
theorem wp_bad_left {dir : ℕ} (hlock : s.lock = some ip) (h : Left env.L n σ own dir s.phys) :
    wp E (bad env dir ip) (fun r t => r = none ∧ t = { s with phys := t.phys, lock := none } ∧
      Settled env.L n σ own t.phys) s := by
  obtain ⟨g, rfl, hvm, hf⟩ := h
  simp only [bad, release, onPhys, hvm.dir_ne, ne_eq, not_false_eq_true, if_true, wp_bind, wp_zoom, wp_get,
    wp_ite, wp_modify, wp_pure]
  refine wp_mono (Mm.wp_freevm hvm) ?_
  rintro _ σ₁ ⟨F', own', ht⟩
  simp only [hlock, if_true]
  exact ⟨trivial, trivial, F', own', ht.heap, hf.trans ht.frame⟩

/-- The file that is loaded. -/
def State.fileOf (env : Env) (s : State) (ip : InodeId) : Mm.File := env.file (s.tables.inode ip)

/-- The program header table of the file is safe. -/
def SafeFile (f : Mm.File) : Prop :=
  ∀ bs, readHeader f 0 Elfhdr.size = some bs → (Elfhdr.ofBytes bs).Safe f

/-- Where the stack of a program ends: two pages above its highest segment. -/
def stackTop (f : Mm.File) : ℕ :=
  match readHeader f 0 Elfhdr.size with
  | none => 0
  | some bs =>
      let elf := Elfhdr.ofBytes bs
      4096 * ((elf.top f elf.phnum + 4095) / 4096) + 8192

/-- The segments of the file are in the new address space `g`. -/
def SegmentsIn (L : Mm.Layout) (f : Mm.File) (n : ℕ) (σ : Phys) (own : ℕ → Tag) (x : Program)
    (σ' : Phys) (g : Ghost) : Prop :=
  ∃ bs, readHeader f 0 Elfhdr.size = some bs ∧ g.sp.dir = x.pgdir ∧
    Segmented L n σ own f (Elfhdr.ofBytes bs) (Elfhdr.ofBytes bs).phnum x.va σ' g

/-- **The header check and the loop**, for a safe file, with what is left in the allocator. -/
theorem wp_loadSegments_settled (h : Heap env.L s.phys F own) (hnew : ∀ q, ¬ (own q).of n)
    (hsafe : SafeFile (s.fileOf env ip)) :
    wp E (loadSegments env ip) (fun r t => t = { s with phys := t.phys, lock := t.lock } ∧
      Settled env.L n s.phys own t.phys ∧ (r = none → t.lock = none) ∧
      ∀ x, r = some x → ∃ g, SegmentsIn env.L (s.fileOf env ip) n s.phys own x t.phys g) s := by
  simp only [State.fileOf] at *
  simp only [loadSegments, acquire, wp_bind, wp_modify, wp_get]
  rcases hhead : readHeader (env.file (s.tables.inode ip)) 0 Elfhdr.size with _ | bs
  · apply wp_bad_zero rfl
    exact ⟨rfl, ⟨F, own, h, .refl ..⟩, fun _ => rfl, by simp⟩
  · simp only [wp_ite, wp_bind]
    split
    next =>
      apply wp_bad_zero rfl
      exact ⟨rfl, ⟨F, own, h, .refl ..⟩, fun _ => rfl, by simp⟩
    next =>
    simp only [onPhys, wp_zoom]
    refine wp_mono (Mm.wp_setupkvm h hnew) ?_
    rintro dir σ₁ (⟨hne, g, rfl, hmade⟩ | ⟨rfl, -, F', own', hun⟩)
    · simp only [if_neg hne]
      have hloop := wp_segments (E := fun e => E (.mm e)) (.made hmade (env.file (s.tables.inode ip))) rfl
        (hsafe bs hhead) (half_lt bs 44)
      refine wp_mono hloop ?_
      rintro (_ | va) σ₂ hend
      · refine wp_mono (wp_bad_left rfl hend) ?_
        rintro r t ⟨rfl, ht, hsettled⟩
        exact ⟨by rw [ht], hsettled, fun _ => by rw [ht], by simp⟩
      · obtain ⟨g₂, hdir, hseg⟩ := hend
        rw [wp_pure]
        refine ⟨rfl, ⟨_, _, hseg.laid.vm.heap, hseg.laid.frame⟩, by simp, ?_⟩
        rintro x ⟨⟩
        exact ⟨g₂, bs, hhead, hdir, hseg⟩
    · simp only [if_true]
      apply wp_bad_zero rfl
      exact ⟨rfl, ⟨F', own', hun.heap, hun.frame⟩, fun _ => rfl, by simp⟩

/-- **The header check and the loop**, for a safe file. -/
theorem wp_loadSegments (h : Heap env.L s.phys F own) (hnew : ∀ q, ¬ (own q).of n)
    (hsafe : SafeFile (s.fileOf env ip)) :
    wp E (loadSegments env ip) (fun r t => t = { s with phys := t.phys, lock := t.lock } ∧
      (∃ own', Frame n s.phys own t.phys own') ∧ (r = none → t.lock = none) ∧
      ∀ x, r = some x → ∃ g, SegmentsIn env.L (s.fileOf env ip) n s.phys own x t.phys g) s := by
  refine wp_mono (wp_loadSegments_settled h hnew hsafe) ?_
  rintro r t ⟨ht, ⟨_, own', -, hf⟩, hrest⟩
  exact ⟨ht, ⟨own', hf⟩, hrest⟩

theorem run_bind (c : Kern α) (k : α → Kern β) : (c >>= k) s = (c s >>= fun a => k a.1 a.2) := rfl

theorem ok_bind {ε : Type} (a : α) (k : α → Except ε β) : (Except.ok a >>= k) = k a := rfl

/-- The run of `sys_execv` after the path has been found. -/
theorem sys_execv_of_find {s₀ : State} {argv : ℕ} (hfind : find env s₀ = .ok ((argv, some ip), s)) :
    sys_execv env s₀ = (loadProgram env ip >>= fun r => r.elim (pure (-1)) (runProgram env argv)) s := by
  rw [sys_execv_eq, run_bind, hfind, ok_bind]
  rfl

/-- A file that is rejected. -/
theorem sys_execv_rejected {s₀ : State} {argv : ℕ} (hfind : find env s₀ = .ok ((argv, some ip), s))
    (hload : loadSegments env ip s = .ok (none, t)) : sys_execv env s₀ = .ok (-1, t) := by
  rw [sys_execv_of_find hfind, loadProgram_eq, bind_assoc, run_bind, hload, ok_bind]
  rfl

/-! ## Files with one segment -/

/-- A file that is a list of bytes. -/
def listFile (bs : List UInt8) : Mm.File where
  readi offset n := if bs.length < offset then none else some ((bs.drop offset).take n)
  length_le := by
    intro offset n cs h
    split at h
    next => cases h
    next =>
      obtain rfl := Option.some.inj h
      exact List.length_take_le ..

/-- An ELF header for one program header, the program header for some bytes at `vaddr`, and the bytes. -/
def oneSegment (vaddr : ℕ) (bs : List UInt8) : List UInt8 :=
  bytesOf ([ELF_MAGIC, 0, 0, 0, 0, 0, KERNEND, 52, 0, 0, 0, 1, 0] ++
    [ELF_PROG_LOAD, 84, vaddr, 0, bs.length, bs.length, 0, 0]) ++ bs

/-- One byte. -/
def oneByte (vaddr : ℕ) : List UInt8 := oneSegment vaddr [0x90]

/-- A kernel whose files are all `f`. -/
def fileEnv (f : Mm.File) : Env := { emptyEnv with file := fun _ => f }

/-- A state of it in which the caller has only got its memory. -/
def freshState (σ : Phys) : State := { oneUserPage 0 with phys := σ }

/-- The file begins with these bytes. -/
def Begins (f : Mm.File) (bs : List UInt8) : Prop :=
  ∀ offset n, offset + n ≤ bs.length → f.readi offset n = some ((bs.drop offset).take n)

theorem listFile_begins (bs : List UInt8) : Begins (listFile bs) bs := by
  intro offset n hn
  exact if_neg (by omega)

section
variable {L : Mm.Layout} {g : Ghost} {σ₁ : Phys} {f : Mm.File} {v b : ℕ} {bs : List UInt8} {Q : Phys → Prop}

theorem length_oneSegment (v : ℕ) (bs : List UInt8) : (oneSegment v bs).length = 84 + bs.length := by
  simp [oneSegment, bytesOf]
  omega

namespace Begins

theorem header (hf : Begins f (oneSegment v bs)) :
    readHeader f 0 Elfhdr.size = some ((oneSegment v bs).take 52) := by
  have hlen := length_oneSegment v bs
  rw [readHeader, hf 0 Elfhdr.size (by simp only [Elfhdr.size]; omega)]
  rfl

theorem phdr (hf : Begins f (oneSegment v bs)) :
    readHeader f 52 Proghdr.size = some (((oneSegment v bs).drop 52).take 32) := by
  have hlen := length_oneSegment v bs
  rw [readHeader, hf 52 Proghdr.size (by simp only [Proghdr.size]; omega)]
  rfl

/-- The bytes of the segment. -/
theorem bytes (hf : Begins f (oneSegment v bs)) {i n : ℕ} (hn : i + n ≤ bs.length) :
    f.readi (84 + i) n = some ((bs.drop i).take n) := by
  have hlen := length_oneSegment v bs
  have hhead : (bytesOf ([ELF_MAGIC, 0, 0, 0, 0, 0, KERNEND, 52, 0, 0, 0, 1, 0] ++
      [ELF_PROG_LOAD, 84, v, 0, bs.length, bs.length, 0, 0])).length = 84 := rfl
  rw [hf (84 + i) n (by omega), oneSegment, List.drop_append, hhead, List.drop_eq_nil_of_le (by omega),
    List.nil_append, Nat.add_sub_cancel_left]

end Begins

theorem oneSegment_elf (v : ℕ) (bs : List UInt8) :
    Elfhdr.ofBytes ((oneSegment v bs).take 52) = ⟨ELF_MAGIC, KERNEND, 52, 1⟩ := by
  have hhead : (oneSegment v bs).take 52 =
      bytesOf [ELF_MAGIC, 0, 0, 0, 0, 0, KERNEND, 52, 0, 0, 0, 1, 0] := rfl
  rw [hhead]
  rfl

theorem oneSegment_ph (hv : v + bs.length < 2 ^ 32) :
    Proghdr.ofBytes (((oneSegment v bs).drop 52).take 32) = ⟨ELF_PROG_LOAD, 84, v, bs.length, bs.length⟩ := by
  have hhead : ((oneSegment v bs).drop 52).take 32 =
      bytesOf [ELF_PROG_LOAD, 84, v, 0, bs.length, bs.length, 0, 0] := rfl
  have hword : ∀ w < 2 ^ 32, word (bytesOf [w]) 0 = w := by
    intro w hw
    simp [bytesOf, word, half]
    omega
  have hvaddr := hword v (by omega)
  have hsize := hword bs.length (by omega)
  simp only [Proghdr.ofBytes, hhead, Proghdr.mk.injEq]
  exact ⟨rfl, rfl, hvaddr, hsize, hsize⟩

/-- The loop, when `allocuvm` and `loaduvm` succeed for the segment. -/
theorem wp_segments_oneSegment {E : Mm.Panic → Prop} {dir : ℕ} (hf : Begins f (oneSegment v bs))
    (hv : v + bs.length < 2 ^ 32) (haligned : v % PAGESIZE = 0)
    (hload : wp E (Mm.allocuvm L dir KERNEND (v + bs.length)) (fun va σ₂ => va = b ∧ b ≠ 0 ∧
      wp E (Mm.loaduvm dir v f 84 bs.length) (fun r σ₃ => r = 0 ∧ Q σ₃) σ₂) σ₁) :
    wp E (iterate .hang (segmentTurn L dir f (.ofBytes ((oneSegment v bs).take 52))) loopFuel (0, KERNEND))
      (fun r σ₂ => r = some b ∧ Q σ₂) σ₁ := by
  rw [oneSegment_elf]
  apply wp_iterate (fun a σ' => a = (0, KERNEND) ∧ σ' = σ₁ ∨ a = (1, b) ∧ Q σ') (fun a => 1 - a.1)
  · rintro _ σ' (⟨rfl, rfl⟩ | ⟨rfl, hdone⟩)
    · have hoff : (52 + Proghdr.size * 0) % 2 ^ 32 = 52 := rfl
      have hend : (v + bs.length) % 2 ^ 32 = v + bs.length := Nat.mod_eq_of_lt hv
      simp only [segmentTurn, hoff, hf.phdr, oneSegment_ph hv, hend, haligned, lt_irrefl,
        zero_lt_one, ne_eq, not_true_eq_false, ↓reduceIte, Nat.not_lt.mpr (Nat.le_add_right v _), wp_bind,
        wp_ite]
      apply wp_mono hload
      rintro _ σ₂ ⟨rfl, hne, hread⟩
      rw [if_neg hne]
      apply wp_mono hread
      rintro _ σ₃ ⟨rfl, hdone⟩
      rw [if_neg (lt_irrefl _), Nat.sub_self]
      apply wp_copyout_empty
      rw [wp_pure]
      exact ⟨.inr ⟨rfl, hdone⟩, Nat.zero_lt_one⟩
    · simpa [segmentTurn] using hdone
  · exact .inl ⟨rfl, rfl⟩
  · decide

/-- The whole call, where there is memory for the page tables. -/
theorem wp_loadSegments_oneSegment (h : Heap env.L s.phys F own) (hlen : 1025 < F.length)
    (hf : Begins (s.fileOf env ip) (oneSegment v bs)) (hv : v + bs.length < 2 ^ 32)
    (haligned : v % PAGESIZE = 0)
    (hload : ∀ n σ₁ g, Mm.Made env.L n s.phys F own σ₁ g →
      wp (fun e => E (.mm e)) (Mm.allocuvm env.L g.sp.dir KERNEND (v + bs.length)) (fun va σ₂ =>
        va = b ∧ b ≠ 0 ∧ wp (fun e => E (.mm e)) (Mm.loaduvm g.sp.dir v (s.fileOf env ip) 84 bs.length)
          (fun r σ₃ => r = 0 ∧ Q σ₃) σ₂) σ₁) :
    wp E (loadSegments env ip) (fun r t => (∃ x, r = some x ∧ x.va = b) ∧ Q t.phys) s := by
  have hmagic : (Elfhdr.ofBytes ((oneSegment v bs).take 52)).magic = ELF_MAGIC := by rw [oneSegment_elf]
  obtain ⟨n, -, hnew⟩ := h.exists_fresh 0
  have hheader := hf.header
  simp only [State.fileOf] at hheader hf hload
  simp only [loadSegments, acquire, wp_bind, wp_modify, wp_get, hheader, hmagic, ne_eq,
    not_true_eq_false, ↓reduceIte, onPhys, wp_zoom]
  refine wp_mono (Mm.wp_setupkvm h hnew) ?_
  rintro dir σ₁ (⟨hne, g, rfl, hmade⟩ | ⟨-, hfew, -⟩)
  · simp only [hne, ↓reduceIte, wp_bind, wp_zoom]
    refine wp_mono (wp_segments_oneSegment hf hv haligned (hload n σ₁ g hmade)) ?_
    rintro _ σ₂ ⟨rfl, hdone⟩
    exact wp_pure.mpr ⟨⟨_, rfl, rfl⟩, hdone⟩
  · simp only [Mm.kvmPages] at hfew
    omega

/-- Below `KERNEND`, the byte goes to the page that the kernel has at its address. -/
theorem wp_loaduvm_kernel {E : Mm.Panic → Prop} (hm : Mm.Made L n σ F own σ₁ g)
    (hf : Begins f (oneByte 0x101000)) :
    wp E (Mm.loaduvm g.sp.dir 0x101000 f 84 1) (fun r σ₂ => r = 0 ∧ σ₂.mem 0x101000 = 0x90) σ₁ := by
  have hentry := hm.vm.entry_ne_zero (hm.kern 0x101 (by decide))
  have haddr : Mm.PTE_ADDR (g.sp.pte 0x101) = 0x101000 := by
    rw [hm.flags 0x101 (by decide), Mm.kernFlags]
    split <;> decide
  have haligned : 0x101000 % PAGESIZE = 0 := rfl
  have hn : (if 1 < PAGESIZE then 1 else PAGESIZE) = 1 := rfl
  have hva : (0x101000 + 0) % 2 ^ 32 = 4096 * 0x101 := rfl
  simp only [Mm.loaduvm, haligned, ne_eq, not_true_eq_false, ↓reduceIte]
  apply wp_iterate (fun i σ' => i = 0 ∧ σ' = σ₁ ∨ i = 4096 ∧ σ'.mem 0x101000 = 0x90) (fun i => 1 - i)
  · rintro _ σ' (⟨rfl, rfl⟩ | ⟨rfl, hbyte⟩)
    · simp only [zero_lt_one, ↓reduceIte, hva]
      apply wp_bind.mpr (Mm.wp_walk hm.vm (by decide) _)
      simp only [hentry, Mm.load, wp_bind, wp_get, bind_pure_comp, bind_map_left, ↓reduceIte,
        hm.vm.load_entry hentry, haddr, Nat.sub_zero, hn]
      have hbyte : f.readi 84 1 = some [0x90] := hf.bytes (i := 0) (le_refl 1)
      simp [hbyte, wp_modify, Mem.write, PAGESIZE]
    · simpa using hbyte
  · exact .inl ⟨rfl, rfl⟩
  · decide

end

/-- The memory after `kinit`, with zeros below the pages that are handed out. -/
theorem exists_kernelZero : ∃ σ F own, Heap Mm.smallLayout σ F own ∧ F.length = 4096 ∧
    σ.mem 0x101000 = 0 := by
  obtain ⟨w, F, -, hI, -, hlen⟩ := Mm.exists_bootSpaces Mm.smallLayout fun _ => 0
  refine ⟨{ w.phys with mem := fun x => if x < 0x1F000000 then 0 else w.phys.mem x }, F, _,
    hI.heap.congr rfl ?_, hlen, rfl⟩
  intro p hp x hx
  have hpage := hI.heap.pages p (by rw [(hI.heap.free p).mp hp]; simp)
  have hlow : 0x1F000000 ≤ p := hpage.2.1
  simp only [page] at hx
  exact if_neg (by omega)

/-- A segment at `KERNEND`. -/
theorem atUser_oneSegment {f : Mm.File} {bs : List UInt8} (hf : Begins f (oneSegment KERNEND bs))
    (hlen : KERNEND + bs.length < 2 ^ 32) : (Elfhdr.ofBytes ((oneSegment KERNEND bs).take 52)).AtUser f := by
  rw [oneSegment_elf]
  intro j hj ph hph _
  obtain rfl : j = 0 := Nat.lt_one_iff.mp hj
  have hoff : (52 + Proghdr.size * 0) % 2 ^ 32 = 52 := rfl
  simp only [Elfhdr.phdr, hoff, hf.phdr, oneSegment_ph hlen, Option.map_some, Option.some.injEq] at hph
  rw [← hph]

theorem safeFile_oneSegment {f : Mm.File} {bs : List UInt8} (hf : Begins f (oneSegment KERNEND bs))
    (hlen : KERNEND + bs.length < 2 ^ 32) : SafeFile f := by
  intro hd hhd
  obtain rfl := Option.some.inj (hf.header.symm.trans hhd)
  exact (atUser_oneSegment hf hlen).safe

end Mixv6.Syscall.User
