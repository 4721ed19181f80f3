import Mixv6.Kernel.Resume

/-!
# Context switches

`swtch` as the code of `swtch.S`: what it leaves on the stack of the process that calls it, and what it
takes from the stack of the other one.

## Main definitions

* `Context`, `context` — `struct context`, and the one at an address.
* `swtch` — the code.
* `run_swtch`, `Switched` — what it does.
-/

namespace Mixv6.Kernel.Trap

open Mixv6.Lib

/-- `struct context`. -/
@[ext]
structure Context where
  edi : BitVec 32
  esi : BitVec 32
  ebx : BitVec 32
  ebp : BitVec 32
  eip : BitVec 32

/-- `sizeof(struct context)`. -/
def CONTEXT : ℕ := 20

/-- The `struct context` at an address. -/
def context (m : Mem) (a : ℕ) : Context where
  edi := BitVec.ofNat 32 (m.load32 a)
  esi := BitVec.ofNat 32 (m.load32 (a + 4))
  ebx := BitVec.ofNat 32 (m.load32 (a + 8))
  ebp := BitVec.ofNat 32 (m.load32 (a + 12))
  eip := BitVec.ofNat 32 (m.load32 (a + 16))

/-- `swtch`. -/
def swtch : List Instr :=
  [.movlStack 4 .eax, .movlStack 8 .edx,
    .pushReg .ebp, .pushReg .ebx, .pushReg .esi, .pushReg .edi,
    .storeEsp .eax, .loadEsp .edx,
    .popReg .edi, .popReg .esi, .popReg .ebx, .popReg .ebp, .ret]

/-- What a call may not change: the registers of the caller, and where it goes on. -/
def St.caller (s : St) : Context :=
  ⟨s.regs.edi, s.regs.esi, s.regs.ebx, s.regs.ebp, word s.mem s.regs.esp⟩

/-- What a function that has been called may rely on. -/
def Regs.context (r : Regs) : Context := ⟨r.edi, r.esi, r.ebx, r.ebp, r.eip⟩

/-- The registers of a caller that goes on. -/
def Regs.goOn (r : Regs) (k : Context) (esp : BitVec 32) : Regs :=
  { r with edi := k.edi, esi := k.esi, ebx := k.ebx, ebp := k.ebp, eip := k.eip, esp }

variable {m m' : Mem} {a : ℕ} {s : St} {old new ts : BitVec 32}

theorem context_congr (h : ∀ x, a ≤ x → x < a + CONTEXT → m' x = m x) : context m' a = context m a := by
  simp only [CONTEXT] at h
  have h32 : ∀ {k}, k ≤ 16 → m'.load32 (a + k) = m.load32 (a + k) := fun hk =>
    Mem.load32_congr fun j hj => h _ (by omega) (by omega)
  have hedi : m'.load32 a = m.load32 a := h32 (k := 0) (by omega)
  simp only [context, hedi, h32 (k := 4) (by omega), h32 (k := 8) (by omega), h32 (k := 12) (by omega),
    h32 (k := 16) (by omega)]

/-- The memory after `swtch` has left its context. -/
def St.parked (s : St) (old : BitVec 32) : Mem :=
  (pushes s.mem s.regs.esp.toNat
    [.word s.regs.ebp, .word s.regs.ebx, .word s.regs.esi, .word s.regs.edi]).store32 old.toNat
    (s.regs.esp.toNat - 16)

theorem word_offset {x : BitVec 32} {k : ℕ} (hk : x.toNat + k < 2 ^ 32) :
    word m (x + BitVec.ofNat 32 k) = BitVec.ofNat 32 (m.load32 (x.toNat + k)) := by
  rw [word, toNat_add hk]

/-- The half of `swtch` on the other stack. -/
theorem run_pops (hend : s.regs.edx.toNat + CONTEXT < 2 ^ 32) :
    run ts s [.loadEsp .edx, .popReg .edi, .popReg .esi, .popReg .ebx, .popReg .ebp, .ret] =
      ⟨s.regs.goOn (context s.mem s.regs.edx.toNat) (s.regs.edx + BitVec.ofNat 32 CONTEXT), s.mem⟩ := by
  simp only [CONTEXT] at hend
  have hw : ∀ {k : ℕ}, k ≤ 16 → word s.mem (s.regs.edx + BitVec.ofNat 32 k) =
      BitVec.ofNat 32 (s.mem.load32 (s.regs.edx.toNat + k)) := fun hk => word_offset (by omega)
  have hedi : word s.mem s.regs.edx = BitVec.ofNat 32 (s.mem.load32 s.regs.edx.toNat) := rfl
  simp only [run, exec, List.foldl_cons, List.foldl_nil, Regs.get, Regs.set, Regs.goOn, context,
    BitVec.add_assoc, BitVec.reduceAdd, BitVec.ofNat_eq_ofNat, hedi, hw (k := 4) (by decide),
    hw (k := 8) (by decide), hw (k := 12) (by decide), hw (k := 16) (by decide), CONTEXT]

/-- **`swtch`.** -/
theorem run_swtch (hold : word s.mem (s.regs.esp + 4) = old) (hnew : word s.mem (s.regs.esp + 8) = new)
    (hroom : 16 ≤ s.regs.esp.toNat) (hend : new.toNat + CONTEXT < 2 ^ 32) : run ts s swtch =
      ⟨{ s.regs with eax := old, edx := new }.goOn (context (s.parked old) new.toNat)
        (new + BitVec.ofNat 32 CONTEXT), s.parked old⟩ := by
  let s₀ : St := ⟨{ s.regs with eax := old, edx := new }, s.mem⟩
  let row : List Cell := [.word s.regs.ebp, .word s.regs.ebx, .word s.regs.esi, .word s.regs.edi]
  have hsplit : run ts s swtch = run ts (run ts (row.foldl St.push ⟨{ s.regs with
      eax := word s.mem (s.regs.esp + 4), edx := word s.mem (s.regs.esp + 8) }, s.mem⟩) [.storeEsp .eax])
      [.loadEsp .edx, .popReg .edi, .popReg .esi, .popReg .ebx, .popReg .ebp, .ret] := rfl
  have hpush : row.foldl St.push s₀ = _ := foldl_push row hroom
  have hsp : (s.regs.esp - BitVec.ofNat 32 16).toNat = s.regs.esp.toNat - 16 := toNat_sub hroom
  have hstore : run ts (row.foldl St.push s₀) [.storeEsp .eax] =
      ⟨{ s₀.regs with esp := s.regs.esp - BitVec.ofNat 32 16 }, s.parked old⟩ := by
    rw [hpush, St.parked, ← hsp]
    rfl
  rw [hsplit, hold, hnew]
  have hpops : run ts ⟨{ s₀.regs with esp := s.regs.esp - BitVec.ofNat 32 16 }, s.parked old⟩ _ = _ :=
    run_pops hend
  rw [hstore, hpops]
  rfl

/-! ## What it leaves -/

theorem parked_of_ne {x : ℕ} (hroom : 16 ≤ s.regs.esp.toNat)
    (hx : x < s.regs.esp.toNat - 16 ∨ s.regs.esp.toNat ≤ x)
    (hcell : x < old.toNat ∨ old.toNat + 4 ≤ x) : s.parked old x = s.mem x := by
  rw [St.parked, Mem.store32_of_ne hcell]
  exact pushes_of_ne hroom hx

theorem load32_parked : (s.parked old).load32 old.toNat = s.regs.esp.toNat - 16 := by
  have hlt := s.regs.esp.isLt
  exact Mem.load32_store32 (by omega)

/-- The caller lies in the context. -/
theorem context_parked (hroom : 16 ≤ s.regs.esp.toNat)
    (hcell : old.toNat + 4 ≤ s.regs.esp.toNat - 16 ∨ s.regs.esp.toNat + 4 ≤ old.toNat) :
    context (s.parked old) (s.regs.esp.toNat - 16) = s.caller := by
  let row : List Cell := [.word s.regs.ebp, .word s.regs.ebx, .word s.regs.esi, .word s.regs.edi]
  let sp := s.regs.esp.toNat - 16
  have hrow : Stacked (pushes s.mem s.regs.esp.toNat row) s.regs.esp.toNat row := stacked_pushes hroom
  have hsum : sp + 16 = s.regs.esp.toNat := Nat.sub_add_cancel hroom
  have hlaid : Laid (pushes s.mem s.regs.esp.toNat row) sp row.reverse := by
    apply laid_reverse.mpr
    rw [← hsum] at hrow ⊢
    exact hrow
  obtain ⟨edi, esi, ebx, ebp, -⟩ := hlaid
  have h32 : ∀ {k}, k ≤ 16 → (s.parked old).load32 (sp + k) =
      (pushes s.mem s.regs.esp.toNat row).load32 (sp + k) := by
    intro k hk
    apply Mem.load32_congr
    intro j hj
    exact Mem.store32_of_ne (by omega)
  have heip : (s.parked old).load32 (sp + 16) = s.mem.load32 s.regs.esp.toNat := by
    rw [h32 (by decide), hsum]
    apply Mem.load32_congr
    intro j hj
    exact pushes_of_ne hroom (.inr (by omega))
  have hfirst : (s.parked old).load32 sp = (pushes s.mem s.regs.esp.toNat row).load32 sp :=
    h32 (k := 0) (by decide)
  ext1
  · exact ofNat_eq (hfirst.trans edi)
  · exact ofNat_eq ((h32 (by decide)).trans esi)
  · exact ofNat_eq ((h32 (by decide)).trans ebx)
  · exact ofNat_eq ((h32 (by decide)).trans ebp)
  · exact congrArg (BitVec.ofNat 32) heip

end Mixv6.Kernel.Trap
