import Mixv6.Syscall.User

/-!
# Executing a program

`sys_execv`: the ELF loader, and the arguments, which it copies from the memory of the caller to
the stack of the new address space.

## Main definitions

* `Elfhdr`, `Proghdr` — the headers.
* `loadProgram` — from the file to the new address space, with its ways out.
* `strlen`, `copyArg`, `argvTurn` — the loop over `argv`.
* `sys_execv` — the call.
* `CString`, `Length`, `wp_strlen` — the strings of the caller.
-/

namespace Mixv6.Syscall.User

open Mixv6.Lib Mixv6.Kernel
open Mixv6.Mm (KERNEND PAGESIZE PTE_ADDR PGROUNDDOWN PDX PTX present loopFuel)
open Mixv6.Fs.Cache (toInt)

/-! ## The headers -/

/-- `uint16_t` and `uint32_t` at a place in some bytes. -/
def half (bs : List UInt8) (i : ℕ) : ℕ := (bs.getD i 0).toNat + 256 * (bs.getD (i + 1) 0).toNat

def word (bs : List UInt8) (i : ℕ) : ℕ := half bs i + 65536 * half bs (i + 2)

/-- `ELF_MAGIC`. -/
def ELF_MAGIC : ℕ := 0x464C457F

/-- `ELF_PROG_LOAD`. -/
def ELF_PROG_LOAD : ℕ := 1

/-- The fields of `struct elfhdr` that are used. -/
structure Elfhdr where
  magic : ℕ
  entry : ℕ
  phoff : ℕ
  phnum : ℕ

/-- `sizeof(struct elfhdr)`. -/
def Elfhdr.size : ℕ := 52

def Elfhdr.ofBytes (bs : List UInt8) : Elfhdr := ⟨word bs 0, word bs 24, word bs 28, half bs 44⟩

/-- The fields of `struct proghdr` that are used. -/
structure Proghdr where
  type : ℕ
  off : ℕ
  vaddr : ℕ
  filesz : ℕ
  memsz : ℕ

/-- `sizeof(struct proghdr)`. -/
def Proghdr.size : ℕ := 32

def Proghdr.ofBytes (bs : List UInt8) : Proghdr :=
  ⟨word bs 0, word bs 4, word bs 8, word bs 16, word bs 20⟩

/-- `readi` into a header, which has to fill it. -/
def readHeader (f : Mm.File) (offset size : ℕ) : Option (List UInt8) :=
  match f.readi offset size with
  | none => none
  | some bs => if bs.length ≠ size then none else some bs

/-! ## The loader -/

/-- A turn of the loop over the program headers; the loop ends with none at `goto bad`. -/
def segmentTurn (L : Mm.Layout) (pgdir : ℕ) (f : Mm.File) (elf : Elfhdr) (a : ℕ × ℕ) :
    Mm.Kern ((ℕ × ℕ) ⊕ Option ℕ) := do
  let (i, va) := a
  if ¬ i < elf.phnum then
    return .inr (some va)
  match readHeader f ((elf.phoff + Proghdr.size * i) % 2 ^ 32) Proghdr.size with
  | none => return .inr none
  | some bs =>
      let ph := Proghdr.ofBytes bs
      if ph.type ≠ ELF_PROG_LOAD then
        return .inl (i + 1, va)
      if ph.memsz < ph.filesz then
        return .inr none
      if (ph.vaddr + ph.memsz) % 2 ^ 32 < ph.vaddr then
        return .inr none
      let va ← Mm.allocuvm L pgdir va ((ph.vaddr + ph.memsz) % 2 ^ 32)
      if va = 0 then
        return .inr none
      if ph.vaddr % PAGESIZE ≠ 0 then
        return .inr none
      if (← Mm.loaduvm pgdir ph.vaddr f ph.off ph.filesz) < 0 then
        return .inr none
      Mm.copyout pgdir ((ph.vaddr + ph.filesz) % 2 ^ 32) none (ph.memsz - ph.filesz)
      return .inl (i + 1, va)

/-- A program in its new address space, with `va` above its stack. -/
structure Program where
  pgdir : ℕ
  va : ℕ
  entry : ℕ

/-- The exit `bad`. -/
def bad (env : Env) (pgdir : ℕ) (ip : InodeId) : Kern (Option Program) := do
  if pgdir ≠ 0 then
    onPhys (Mm.freevm env.L pgdir)
  if (← get).lock = some ip then
    release
  return none

/-- `sys_execv` from the lock of the inode to the user stack. -/
def loadProgram (env : Env) (ip : InodeId) : Kern (Option Program) := do
  acquire ip
  let f := env.file ((← get).tables.inode ip)
  match readHeader f 0 Elfhdr.size with
  | none => bad env 0 ip
  | some bs =>
      let elf := Elfhdr.ofBytes bs
      if elf.magic ≠ ELF_MAGIC then
        return ← bad env 0 ip
      let pgdir ← onPhys (Mm.setupkvm env.L)
      if pgdir = 0 then
        return ← bad env 0 ip
      match ← onPhys (iterate .hang (segmentTurn env.L pgdir f elf) loopFuel (0, KERNEND)) with
      | none => bad env pgdir ip
      | some va =>
          release
          let va ← onPhys (Mm.ustack env.L pgdir va)
          if va = 0 then
            return ← bad env pgdir ip
          return some ⟨pgdir, va, elf.entry⟩

/-- `sys_execv` up to the user stack. -/
def findProgram (env : Env) (path : ℕ) : Kern (Option Program) := do
  match ← namei env path with
  | none => return none
  | some ip => loadProgram env ip

/-! ## The arguments -/

/-- A turn of the loop of `strlen`. -/
def strlenTurn (p cnt : ℕ) : Kern (ℕ ⊕ ℕ) := do
  let c ← getByte (p + cnt)
  if c ≠ 0 then return .inl (cnt + 1)
  return .inr (cnt + 1)

/-- `strlen`, which counts the null. -/
def strlen (p : ℕ) : Kern ℕ := iterate .hang (strlenTurn p) (2 ^ 32) 0

/-- A turn of the loop of `copyout`, when it copies from the caller. -/
def copyTurn (pgdir src : ℕ) (a : ℕ × ℕ × ℕ) : Kern ((ℕ × ℕ × ℕ) ⊕ Unit) := do
  let (va, done, len) := a
  if ¬ 0 < len then
    return .inr ()
  let pte ← onPhys (Mm.walkpgdir pgdir va false)
  if pte = 0 then throw (.mm .copyout)
  let e ← onPhys (Mm.load pte)
  if ¬ present e then throw (.mm .copyout)
  let offset := va - PGROUNDDOWN va
  let n := if len < PAGESIZE - offset then len else PAGESIZE - offset
  let bs ← getBytes (src + done) n
  onPhys (modify fun σ => { σ with mem := σ.mem.write (PTE_ADDR e + offset) bs })
  return .inl ((va + n) % 2 ^ 32, done + n, len - n)

/-- `copyout` from the caller. -/
def copyArg (pgdir va src len : ℕ) : Kern Unit :=
  iterate .hang (copyTurn pgdir src) loopFuel (va, 0, len)

/-- `NELEM(_argv)`. -/
def NARGV : ℕ := 16

/-- The variables of the loop over `argv`: `argc`, `sp`, and the entries of `_argv`. -/
structure Args where
  argc : ℕ
  sp : ℕ
  argv : List ℕ

/-- A turn of the loop over `argv`. -/
def argvTurn (pgdir argv : ℕ) (a : Args) : Kern (Args ⊕ Args) := do
  let p ← getWord (argv + 4 * a.argc)
  if p = 0 then
    return .inr a
  let len ← strlen p
  -- `strlen` has counted the null already.
  let sp := (a.sp + 2 ^ 32 - (len + 1) % 2 ^ 32) % 2 ^ 32 / 4 * 4
  copyArg pgdir sp p (len + 1)
  if NARGV ≤ a.argc then throw .argv
  return .inl ⟨a.argc + 1, sp, a.argv ++ [sp]⟩

/-- The bytes of some words. -/
def bytesOf : List ℕ → List UInt8
  | [] => []
  | w :: ws => [UInt8.ofNat w, UInt8.ofNat (w / 256), UInt8.ofNat (w / 65536),
      UInt8.ofNat (w / 16777216)] ++ bytesOf ws

/-- The rest of `sys_execv`. -/
def finish (env : Env) (x : Program) (a : Args) : Kern Unit := do
  let argv := bytesOf (a.argv ++ List.replicate (NARGV - a.argv.length) 0)
  let sp := (a.sp + 2 ^ 32 - 4 * NARGV) % 2 ^ 32
  onPhys (Mm.copyout x.pgdir sp (some fun k => argv.getD k 0) (4 * NARGV))
  -- The fake return address, `argc`, and the pointer to the entries.
  let head := bytesOf [0xFFFFFFFF, a.argc, sp]
  let sp := (sp + 2 ^ 32 - 12) % 2 ^ 32
  onPhys (Mm.copyout x.pgdir sp (some fun k => head.getD k 0) 12)
  let oldpgdir := (← get).pgdir
  modify fun s => { s with pgdir := x.pgdir }
  onPhys (Mm.freevm env.L oldpgdir)
  modify fun s => { s with size := (x.va + 2 ^ 32 - KERNEND) % 2 ^ 32, esp := sp, eip := x.entry }

/-- `sys_execv`. -/
def sys_execv (env : Env) : Kern ℤ := do
  let path ← argptr 0
  let argv ← argptr 1
  match ← findProgram env path with
  | none => return -1
  | some x =>
      let a ← if argv ≠ 0 then iterate .hang (argvTurn x.pgdir argv) (NARGV + 2) ⟨0, x.va, []⟩
        else pure ⟨0, x.va, []⟩
      finish env x a
      return 0

/-! ## What the call comes to -/

section Inside
variable {env : Env} {s : State} {p : ℕ}

/-- The characters of a string up to the first null lie in pages of the caller. -/
def CString (s : State) (p : ℕ) : Prop :=
  ∀ k < 2 ^ 32, (∀ j < k, s.byte (p + j) ≠ 0) → s.Present (p + k)

/-- A string has `n` characters before its null. -/
def Length (s : State) (p n : ℕ) : Prop := (∀ j < n, s.byte (p + j) ≠ 0) ∧ s.byte (p + n) = 0

/-- `strlen` from some character on. -/
theorem wp_strlen_from {fuel cnt : ℕ} {Q : ℕ → State → Prop} :
    wp Inside (iterate .hang (strlenTurn p) fuel cnt) Q s ↔
      (∀ k < fuel, (∀ j < k, s.byte (p + (cnt + j)) ≠ 0) → s.Present (p + (cnt + k))) ∧
        ∀ n < fuel, (∀ j < n, s.byte (p + (cnt + j)) ≠ 0) → s.byte (p + (cnt + n)) = 0 →
          Q (cnt + n + 1) s := by
  induction fuel generalizing cnt with
  | zero => simp [iterate]
  | succ fuel ih =>
      rw [wp_iterate_succ]
      simp only [strlenTurn, wp_bind, wp_getByte, wp_ite, wp_pure, ih]
      have hstep : ∀ j, cnt + 1 + j = cnt + (j + 1) := fun j => by omega
      have hfirst : s.byte (p + cnt) ≠ 0 → ∀ k, (∀ j < k + 1, s.byte (p + (cnt + j)) ≠ 0) ↔
          ∀ j < k, s.byte (p + (cnt + (j + 1))) ≠ 0 := by
        intro hne k
        refine ⟨fun h j hj => h (j + 1) (by omega), fun h j hj => ?_⟩
        cases j with
        | zero => exact hne
        | succ j => exact h j (by omega)
      simp only [hstep]
      by_cases hnul : s.byte (p + cnt) = 0
      · rw [if_neg (not_not.mpr hnul)]
        constructor
        · rintro ⟨hin, hQ⟩
          refine ⟨fun k _ hk => ?_, fun n _ hn _ => ?_⟩
          · cases k with
            | zero => exact hin
            | succ k => exact absurd hnul (hk 0 (by omega))
          · cases n with
            | zero => exact hQ
            | succ n => exact absurd hnul (hn 0 (by omega))
        · rintro ⟨hin, hQ⟩
          have hnone : ∀ j < 0, s.byte (p + (cnt + j)) ≠ 0 := fun j hj => by omega
          exact ⟨hin 0 (by omega) hnone, hQ 0 (by omega) hnone hnul⟩
      · rw [if_pos hnul]
        constructor
        · rintro ⟨hin, hlater, hQ⟩
          refine ⟨fun k hk hne => ?_, fun n hn hne h0 => ?_⟩
          · cases k with
            | zero => exact hin
            | succ k => exact hlater k (by omega) ((hfirst hnul k).mp hne)
          · cases n with
            | zero => exact absurd h0 hnul
            | succ n => exact hQ n (by omega) ((hfirst hnul n).mp hne) h0
        · rintro ⟨hin, hQ⟩
          refine ⟨hin 0 (by omega) fun j hj => by omega, fun k hk hne => ?_, fun n hn hne h0 => ?_⟩
          · exact hin (k + 1) (by omega) ((hfirst hnul k).mpr hne)
          · exact hQ (n + 1) (by omega) ((hfirst hnul n).mpr hne) h0

theorem wp_strlen {Q : ℕ → State → Prop} : wp Inside (strlen p) Q s ↔
    CString s p ∧ ∀ n < 2 ^ 32, Length s p n → Q (n + 1) s := by
  rw [strlen, wp_strlen_from]
  simp only [Nat.zero_add, CString, Length, and_imp]

/-- The stack pointer after an argument of `n` characters. -/
def pushed (sp n : ℕ) : ℕ := (sp + 2 ^ 32 - (n + 2) % 2 ^ 32) % 2 ^ 32 / 4 * 4

theorem wp_finish {x : Program} {a : Args} : wp Inside (finish env x a) (fun _ _ => True) s := by
  simp only [finish, wp_bind, wp_get, wp_modify]
  refine wp_mono wp_onPhys fun _ t _ => wp_mono wp_onPhys fun _ t _ => ?_
  exact wp_mono wp_onPhys fun _ t _ => trivial

end Inside

end Mixv6.Syscall.User
