import Mixv6.Lib.Push
import Mathlib.Logic.Function.Basic

/-!
# Traps

The way into the kernel and back: what the processor does for an interrupt, `vectors.S`,
`trapasm.S` and the descriptor tables.  The code is a list of instructions, and a trap leaves the
registers of the interrupted code in a `struct trapframe` on the kernel stack, from which `trapret`
takes them.

A push of a segment register writes the lower half of its word; the frame has padding there.

## Main definitions

* `Segdesc`, `seginit`, `Gatedesc`, `idtinit` — the descriptor tables.
* `Regs`, `St` — the processor and the memory.
* `enter`, `interrupt`, `int` — what the processor does.
* `vector`, `alltraps`, `trapret` — the code.
* `frame`, `entry` — the trap frame, and the way in.
* `Framed`, `trapret_frame` — `struct trapframe`, and the way back.
-/

namespace Mixv6.Kernel.Trap

open Mixv6.Lib

/-! ## Descriptor tables -/

def SEG_KCODE : BitVec 16 := 0x08
def SEG_KDATA : BitVec 16 := 0x10
def SEG_UCODE : BitVec 16 := 0x18
def SEG_UDATA : BitVec 16 := 0x20
def DPL_USER : BitVec 2 := 3
def STA_X : BitVec 4 := 0x8
def STA_W : BitVec 4 := 0x2
def STA_R : BitVec 4 := 0x2
def STS_T32A : BitVec 4 := 0x9
def STS_IG32 : BitVec 4 := 0xE
def STS_TG32 : BitVec 4 := 0xF

/-- `struct segdesc`. -/
structure Segdesc where
  lim_15_0 : BitVec 16
  base_15_0 : BitVec 16
  base_23_16 : BitVec 8
  type : BitVec 4
  s : BitVec 1
  dpl : BitVec 2
  p : BitVec 1
  lim_19_16 : BitVec 4
  avl : BitVec 1
  rsv1 : BitVec 1
  db : BitVec 1
  g : BitVec 1
  base_31_24 : BitVec 8
  deriving DecidableEq

/-- `SEG`. -/
def SEG (type : BitVec 4) (base lim : BitVec 32) (dpl : BitVec 2) : Segdesc :=
  ⟨lim.extractLsb' 12 16, base.extractLsb' 0 16, base.extractLsb' 16 8, type, 1, dpl, 1,
    lim.extractLsb' 28 4, 0, 0, 1, 1, base.extractLsb' 24 8⟩

/-- `SEG16`. -/
def SEG16 (type : BitVec 4) (base lim : BitVec 32) (dpl : BitVec 2) : Segdesc :=
  ⟨lim.extractLsb' 0 16, base.extractLsb' 0 16, base.extractLsb' 16 8, type, 1, dpl, 1,
    lim.extractLsb' 16 4, 0, 0, 1, 0, base.extractLsb' 24 8⟩

/-- The descriptor that is all zero. -/
def Segdesc.null : Segdesc := ⟨0, 0, 0, 0, 0, 0, 0, 0, 0, 0, 0, 0, 0⟩

/-- `gdt`, after `seginit` and `switchuvm`; `ts` is the address of the task state. -/
def gdt (ts : BitVec 32) : List Segdesc :=
  [.null, SEG (STA_X ||| STA_R) 0 0xffffffff 0, SEG STA_W 0 0xffffffff 0,
    SEG (STA_X ||| STA_R) 0 0xffffffff DPL_USER, SEG STA_W 0 0xffffffff DPL_USER,
    { SEG16 STS_T32A ts (104 - 1) 0 with s := 0 }]

/-- The descriptor of a selector. -/
def descriptor (ts : BitVec 32) (sel : BitVec 16) : Segdesc := (gdt ts).getD (sel.toNat / 8) .null

/-- `struct gatedesc`. -/
structure Gatedesc where
  off_15_0 : BitVec 16
  cs : BitVec 16
  args : BitVec 5
  rsv1 : BitVec 3
  type : BitVec 4
  s : BitVec 1
  dpl : BitVec 2
  p : BitVec 1
  off_31_16 : BitVec 16
  deriving DecidableEq

/-- `SETGATE`. -/
def SETGATE (istrap : Bool) (sel : BitVec 16) (off : BitVec 32) (d : BitVec 2) : Gatedesc where
  off_15_0 := off.extractLsb' 0 16
  cs := sel
  args := 0
  rsv1 := 0
  type := if istrap then STS_TG32 else STS_IG32
  s := 0
  dpl := d
  p := 1
  off_31_16 := off.extractLsb' 16 16

/-- The address of the handler, as the processor puts it together. -/
def Gatedesc.offset (gate : Gatedesc) : BitVec 32 := gate.off_31_16 ++ gate.off_15_0

def T_DBLFLT : BitVec 8 := 8
def T_TSS : BitVec 8 := 10
def T_GPFLT : BitVec 8 := 13
def T_PGFLT : BitVec 8 := 14
def T_ALIGN : BitVec 8 := 17
def T_SYSCALL : BitVec 8 := 64

/-- `idt`, after `idtinit`; `vectors` are the addresses of the code in `vectors.S`. -/
def idtinit (vectors : BitVec 8 → BitVec 32) : BitVec 8 → Gatedesc :=
  Function.update (fun i => SETGATE false SEG_KCODE (vectors i) 0) T_SYSCALL
    (SETGATE true SEG_KCODE (vectors T_SYSCALL) DPL_USER)

/-! ## The processor -/

/-- The registers. -/
structure Regs where
  eax : BitVec 32
  ecx : BitVec 32
  edx : BitVec 32
  ebx : BitVec 32
  esp : BitVec 32
  ebp : BitVec 32
  esi : BitVec 32
  edi : BitVec 32
  eip : BitVec 32
  eflags : BitVec 32
  cs : BitVec 16
  ds : BitVec 16
  es : BitVec 16
  fs : BitVec 16
  gs : BitVec 16
  ss : BitVec 16
  deriving DecidableEq

/-- The privilege level in a selector. -/
def rpl (sel : BitVec 16) : BitVec 2 := sel.extractLsb' 0 2

/-- The current privilege level. -/
def Regs.cpl (r : Regs) : BitVec 2 := rpl r.cs

/-- The processor and the memory. -/
structure St where
  regs : Regs
  mem : Mem

/-- What the processor reads in its tables: where the kernel stack of the process begins, in the task
state at `ts`, and the code in `vectors.S`. -/
structure Tables where
  ts : BitVec 32
  esp0 : BitVec 32
  vectors : BitVec 8 → BitVec 32

/-- `ts.ss0`. -/
def ss0 : BitVec 16 := SEG_KDATA

/-- Push a word, or the lower half of one. -/
def St.push (s : St) (c : Cell) : St where
  regs := { s.regs with esp := s.regs.esp - 4 }
  mem := c.put s.mem (s.regs.esp - 4).toNat

/-- The flags `TF`, `NT`, `RF` and `VM`, which no handler starts with. -/
def FL_HANDLER : BitVec 32 := 0x34100
def FL_IF : BitVec 32 := 0x200

/-- The flags that a handler starts with. -/
def Gatedesc.flags (gate : Gatedesc) (eflags : BitVec 32) : BitVec 32 :=
  if gate.type = STS_IG32 then eflags &&& ~~~(FL_HANDLER ||| FL_IF) else eflags &&& ~~~FL_HANDLER

/-- Through a gate: the stack is the one of the inner level, if the level changes. -/
def enter (t : Tables) (gate : Gatedesc) (err : Option (BitVec 32)) (s : St) : St :=
  let old := s.regs
  let s :=
    if (descriptor t.ts gate.cs).dpl < old.cpl then
      ((St.mk { old with esp := t.esp0, ss := ss0 } s.mem).push (.half old.ss)).push (.word old.esp)
    else s
  let s := ((s.push (.word old.eflags)).push (.half old.cs)).push (.word old.eip)
  let s := match err with
    | none => s
    | some e => s.push (.word e)
  { s with regs := { s.regs with eflags := gate.flags old.eflags, cs := gate.cs, eip := gate.offset } }

/-- The exceptions with an error code. -/
def hasError (n : BitVec 8) : Bool :=
  n = T_DBLFLT ∨ (T_TSS ≤ n ∧ n ≤ T_PGFLT) ∨ n = T_ALIGN

/-- An interrupt or an exception. -/
def interrupt (t : Tables) (n : BitVec 8) (err : BitVec 32) (s : St) : St :=
  enter t (idtinit t.vectors n) (if hasError n then some err else none) s

/-- The instruction `int n`, which has two bytes.  A gate that the program may not use gives an
exception of the program. -/
def int (t : Tables) (n : BitVec 8) (s : St) : BitVec 8 × St :=
  if (idtinit t.vectors n).dpl < s.regs.cpl then
    (T_GPFLT, interrupt t T_GPFLT (n.setWidth 32 * 8 + 2) s)
  else (n, enter t (idtinit t.vectors n) none { s with regs := { s.regs with eip := s.regs.eip + 2 } })

/-! ## The code -/

inductive SegReg
  | ds
  | es
  | fs
  | gs

/-- The registers in the code of `swtch`. -/
inductive Reg
  | eax
  | edx
  | ebx
  | ebp
  | esi
  | edi

/-- The instructions of `vectors.S`, `trapasm.S` and `swtch.S`. -/
inductive Instr
  | pushl (v : BitVec 32)
  | pushSeg (r : SegReg)
  | popSeg (r : SegReg)
  | pushal
  | popal
  | movwAx (v : BitVec 16)
  | movwSeg (r : SegReg)
  | pushEsp
  | addEsp (n : BitVec 32)
  | iret
  /-- `movl n(%esp), r`. -/
  | movlStack (n : BitVec 32) (r : Reg)
  | pushReg (r : Reg)
  | popReg (r : Reg)
  /-- `movl %esp, (r)`. -/
  | storeEsp (r : Reg)
  /-- `movl r, %esp`. -/
  | loadEsp (r : Reg)
  | ret

def Regs.seg (r : Regs) : SegReg → BitVec 16
  | .ds => r.ds
  | .es => r.es
  | .fs => r.fs
  | .gs => r.gs

def Regs.setSeg (r : Regs) (v : BitVec 16) : SegReg → Regs
  | .ds => { r with ds := v }
  | .es => { r with es := v }
  | .fs => { r with fs := v }
  | .gs => { r with gs := v }

def Regs.get (r : Regs) : Reg → BitVec 32
  | .eax => r.eax
  | .edx => r.edx
  | .ebx => r.ebx
  | .ebp => r.ebp
  | .esi => r.esi
  | .edi => r.edi

def Regs.set (r : Regs) (v : BitVec 32) : Reg → Regs
  | .eax => { r with eax := v }
  | .edx => { r with edx := v }
  | .ebx => { r with ebx := v }
  | .ebp => { r with ebp := v }
  | .esi => { r with esi := v }
  | .edi => { r with edi := v }

/-- The word at an address. -/
def word (m : Mem) (a : BitVec 32) : BitVec 32 := BitVec.ofNat 32 (m.load32 a.toNat)

/-- The lower half of the word at an address. -/
def half (m : Mem) (a : BitVec 32) : BitVec 16 := BitVec.ofNat 16 (m.load16 a.toNat)

/-- On the way to an outer level, a segment register with a segment of an inner one becomes null. -/
def outer (ts : BitVec 32) (cpl : BitVec 2) (sel : BitVec 16) : BitVec 16 :=
  if (descriptor ts sel).dpl < cpl then 0 else sel

/-- `iret`. -/
def iret (ts : BitVec 32) (s : St) : Regs :=
  let r := s.regs
  let cs := half s.mem (r.esp + 4)
  let r' := { r with eip := word s.mem r.esp, cs, eflags := word s.mem (r.esp + 8), esp := r.esp + 12 }
  if r.cpl < rpl cs then
    { r' with
      esp := word s.mem (r.esp + 12)
      ss := half s.mem (r.esp + 16)
      ds := outer ts (rpl cs) r.ds
      es := outer ts (rpl cs) r.es
      fs := outer ts (rpl cs) r.fs
      gs := outer ts (rpl cs) r.gs }
  else r'

/-- What an instruction does. -/
def exec (ts : BitVec 32) (s : St) : Instr → St
  | .pushl v => s.push (.word v)
  | .pushSeg r => s.push (.half (s.regs.seg r))
  | .popSeg r =>
      { s with regs := { s.regs.setSeg (half s.mem s.regs.esp) r with esp := s.regs.esp + 4 } }
  | .pushal =>
      let r := s.regs
      ([.word r.eax, .word r.ecx, .word r.edx, .word r.ebx, .word r.esp, .word r.ebp, .word r.esi,
        .word r.edi] : List Cell).foldl St.push s
  | .popal =>
      let esp := s.regs.esp
      { s with regs := { s.regs with
        edi := word s.mem esp
        esi := word s.mem (esp + 4)
        ebp := word s.mem (esp + 8)
        ebx := word s.mem (esp + 16)
        edx := word s.mem (esp + 20)
        ecx := word s.mem (esp + 24)
        eax := word s.mem (esp + 28)
        esp := esp + 32 } }
  | .movwAx v => { s with regs := { s.regs with eax := s.regs.eax.extractLsb' 16 16 ++ v } }
  | .movwSeg r => { s with regs := s.regs.setSeg (s.regs.eax.extractLsb' 0 16) r }
  | .pushEsp => s.push (.word s.regs.esp)
  | .addEsp n => { s with regs := { s.regs with esp := s.regs.esp + n } }
  | .iret => { s with regs := iret ts s }
  | .movlStack n r => { s with regs := s.regs.set (word s.mem (s.regs.esp + n)) r }
  | .pushReg r => s.push (.word (s.regs.get r))
  | .popReg r => { s with regs := { s.regs.set (word s.mem s.regs.esp) r with esp := s.regs.esp + 4 } }
  | .storeEsp r => { s with mem := s.mem.store32 (s.regs.get r).toNat s.regs.esp.toNat }
  | .loadEsp r => { s with regs := { s.regs with esp := s.regs.get r } }
  | .ret => { s with regs := { s.regs with eip := word s.mem s.regs.esp, esp := s.regs.esp + 4 } }

def run (ts : BitVec 32) (s : St) (code : List Instr) : St := code.foldl (exec ts) s

/-- The code of `vectors.pl` for vector `n`, which goes on with `alltraps`. -/
def vector (n : BitVec 8) : List Instr :=
  if ¬ (n = 8 ∨ (n ≥ 10 ∧ n ≤ 14) ∨ n = 17) then [.pushl 0, .pushl (n.setWidth 32)]
  else [.pushl (n.setWidth 32)]

/-- `alltraps`, up to the call of `trap`. -/
def alltraps : List Instr :=
  [.pushSeg .ds, .pushSeg .es, .pushSeg .fs, .pushSeg .gs, .pushal,
    .movwAx SEG_KDATA, .movwSeg .ds, .movwSeg .es, .pushEsp]

/-- `trapret`. -/
def trapret : List Instr :=
  [.popal, .popSeg .gs, .popSeg .fs, .popSeg .es, .popSeg .ds, .addEsp 0x8, .iret]

variable {t : Tables} {s : St} {r : Regs} {n : BitVec 8} {err : BitVec 32} {cs : List Cell} {m : Mem}
  {ts : BitVec 32}

/-! ## The way in -/

theorem toNat_sub {x : BitVec 32} {k : ℕ} (hk : k ≤ x.toNat) :
    (x - BitVec.ofNat 32 k).toNat = x.toNat - k := by
  have hx := x.isLt
  rw [BitVec.toNat_sub, BitVec.toNat_ofNat]
  omega

theorem toNat_sub_four {x : BitVec 32} (hx : 4 ≤ x.toNat) : (x - 4).toNat = x.toNat - 4 :=
  toNat_sub (k := 4) hx

/-- A row of pushes. -/
theorem foldl_push (cs : List Cell) (h : 4 * cs.length ≤ s.regs.esp.toNat) : cs.foldl St.push s =
    ⟨{ s.regs with esp := s.regs.esp - BitVec.ofNat 32 (4 * cs.length) },
      pushes s.mem s.regs.esp.toNat cs⟩ := by
  induction cs generalizing s with
  | nil => simp [pushes]
  | cons c cs ih =>
      rw [List.length_cons] at h
      have hstep : (s.regs.esp - 4).toNat = s.regs.esp.toNat - 4 :=
        toNat_sub_four (by omega)
      rw [List.foldl_cons, ih (by simp only [St.push, hstep]; omega)]
      simp only [St.push, hstep, pushes, List.length_cons]
      congr 2
      rw [BitVec.sub_sub]
      congr 1
      apply BitVec.eq_of_toNat_eq
      simp
      omega

/-- Where the trap frame ends. -/
def top (t : Tables) (r : Regs) : BitVec 32 := if 0 < r.cpl then t.esp0 else r.esp

theorem extract_append (x v : BitVec 16) : (x ++ v : BitVec 32).extractLsb' 0 16 = v := by
  apply BitVec.eq_of_toNat_eq
  have hv := v.isLt
  rw [BitVec.extractLsb'_toNat, BitVec.toNat_append, ← Nat.shiftLeft_add_eq_or_of_lt hv, Nat.shiftLeft_eq]
  omega

/-- What `vectors.S` pushes. -/
def numbers (n : BitVec 8) : List Cell :=
  if hasError n then [.word (n.setWidth 32)] else [.word 0, .word (n.setWidth 32)]

theorem hasError_iff : hasError n = true ↔ n = 8 ∨ (n ≥ 10 ∧ n ≤ 14) ∨ n = 17 := by
  rw [hasError, decide_eq_true_iff]
  rfl

theorem run_vector (s : St) : run ts s (vector n) = (numbers n).foldl St.push s := by
  by_cases hn : hasError n = true
  · rw [numbers, vector, if_pos hn, if_neg (not_not.mpr (hasError_iff.mp hn))]
    rfl
  · rw [numbers, vector, if_neg hn, if_pos fun h => hn (hasError_iff.mpr h)]
    rfl

/-- What `alltraps` pushes before it changes the segments. -/
def saved (r : Regs) (oesp : BitVec 32) : List Cell :=
  [.half r.ds, .half r.es, .half r.fs, .half r.gs, .word r.eax, .word r.ecx, .word r.edx, .word r.ebx,
    .word oesp, .word r.ebp, .word r.esi, .word r.edi]

theorem run_alltraps (s : St) : run ts s alltraps =
    let s₂ := (saved s.regs (s.regs.esp - 4 - 4 - 4 - 4)).foldl St.push s
    St.push { s₂ with regs := { s₂.regs with
      eax := s.regs.eax.extractLsb' 16 16 ++ SEG_KDATA, ds := SEG_KDATA, es := SEG_KDATA } }
      (.word s₂.regs.esp) := by
  simp only [run, alltraps, saved, List.foldl_cons, List.foldl_nil, exec, Regs.seg, Regs.setSeg, St.push,
    extract_append]

/-- The code before the call of `trap`. -/
theorem run_handler (h : 4 * (numbers n).length + 52 ≤ s.regs.esp.toNat) : ∃ oesp,
    run ts s (vector n ++ alltraps) =
    let row := numbers n ++ saved s.regs oesp
    let tf := s.regs.esp - BitVec.ofNat 32 (4 * row.length)
    ⟨{ s.regs with
      esp := tf - 4, eax := s.regs.eax.extractLsb' 16 16 ++ SEG_KDATA, ds := SEG_KDATA, es := SEG_KDATA },
      pushes s.mem s.regs.esp.toNat (row ++ [.word tf])⟩ := by
  have hsaved : ∀ oesp, (saved s.regs oesp).length = 12 := fun _ => rfl
  have hstart : (numbers n).foldl St.push s = _ := foldl_push (numbers n) (by omega)
  let oesp := ((numbers n).foldl St.push s).regs.esp - 4 - 4 - 4 - 4
  have hregs : saved ((numbers n).foldl St.push s).regs oesp = saved s.regs oesp := by
    rw [hstart]
    rfl
  have heax : ((numbers n).foldl St.push s).regs.eax = s.regs.eax := by rw [hstart]
  have hlength : 4 * (numbers n ++ saved s.regs oesp).length + 4 ≤ s.regs.esp.toNat := by
    rw [List.length_append, hsaved]
    omega
  refine ⟨oesp, ?_⟩
  rw [run, List.foldl_append, ← run, ← run, run_vector, run_alltraps, heax, hregs, ← List.foldl_append,
    foldl_push _ (by omega)]
  simp only [St.push, St.mk.injEq, true_and]
  rw [pushes_concat, toNat_sub_four, toNat_sub (by omega)]
  rw [toNat_sub (by omega)]
  omega

/-- What the processor pushes. -/
def pushed (r : Regs) (n : BitVec 8) (err : BitVec 32) : List Cell :=
  (if 0 < r.cpl then [.half r.ss, .word r.esp] else []) ++
    [.word r.eflags, .half r.cs, .word r.eip] ++ if hasError n then [.word err] else []

/-- The trap frame of the interrupted registers; `oesp` is useless. -/
def frame (r : Regs) (n : BitVec 8) (err oesp : BitVec 32) : List Cell :=
  (if 0 < r.cpl then [.half r.ss, .word r.esp] else []) ++
    [.word r.eflags, .half r.cs, .word r.eip, .word (if hasError n then err else 0),
      .word (n.setWidth 32), .half r.ds, .half r.es, .half r.fs, .half r.gs, .word r.eax, .word r.ecx,
      .word r.edx, .word r.ebx, .word oesp, .word r.ebp, .word r.esi, .word r.edi]

/-- `sizeof(struct trapframe)`, without the fields that are there for a change of the level only. -/
def size (r : Regs) : ℕ := if 0 < r.cpl then 76 else 68

theorem le_size (r : Regs) : 68 ≤ size r := by
  rw [size]
  split
  next => decide
  next => rfl

theorem length_frame {oesp : BitVec 32} : 4 * (frame r n err oesp).length = size r := by
  rw [frame, size]
  split
  next => rfl
  next => rfl

theorem frame_eq {oesp : BitVec 32} :
    frame r n err oesp = pushed r n err ++ (numbers n ++ saved r oesp) := by
  cases he : hasError n with
  | false => simp [frame, pushed, numbers, saved, he]
  | true => simp [frame, pushed, numbers, saved, he]

theorem dpl_kcode : (descriptor ts SEG_KCODE).dpl = 0 := by
  simp [descriptor, gdt, SEG_KCODE, SEG]

theorem offset_SETGATE (istrap : Bool) (sel : BitVec 16) (off : BitVec 32) (d : BitVec 2) :
    (SETGATE istrap sel off d).offset = off :=
  BitVec.extractLsb'_append_extractLsb'

/-- The registers as a handler starts. -/
def Regs.entered (t : Tables) (n : BitVec 8) (r : Regs) (esp : BitVec 32) : Regs :=
  { r with
    esp
    ss := if 0 < r.cpl then ss0 else r.ss
    eflags := (idtinit t.vectors n).flags r.eflags
    cs := SEG_KCODE
    eip := t.vectors n }

theorem interrupt_eq : interrupt t n err s =
    let s₁ := (pushed s.regs n err).foldl St.push
      ⟨{ s.regs with esp := top t s.regs, ss := if 0 < s.regs.cpl then ss0 else s.regs.ss }, s.mem⟩
    ⟨s.regs.entered t n s₁.regs.esp, s₁.mem⟩ := by
  have hgate : (idtinit t.vectors n).cs = SEG_KCODE ∧ (idtinit t.vectors n).offset = t.vectors n := by
    rw [idtinit]
    by_cases hn : n = T_SYSCALL
    · rw [hn, Function.update_self]
      exact ⟨rfl, offset_SETGATE ..⟩
    · rw [Function.update_of_ne hn]
      exact ⟨rfl, offset_SETGATE ..⟩
  simp only [interrupt, enter, hgate, dpl_kcode, pushed, top, Regs.entered]
  by_cases h : 0 < s.regs.cpl
  · cases he : hasError n with
    | false =>
        simp only [if_pos h, Bool.false_eq_true, if_false, List.cons_append, List.nil_append,
          List.append_nil, List.foldl_cons, List.foldl_nil, St.push]
    | true =>
        simp only [if_pos h, if_true, List.cons_append, List.nil_append, List.foldl_cons, List.foldl_nil,
          St.push]
  · cases he : hasError n with
    | false =>
        simp only [if_neg h, Bool.false_eq_true, if_false, List.nil_append, List.append_nil,
          List.foldl_cons, List.foldl_nil, St.push]
    | true =>
        simp only [if_neg h, if_true, List.cons_append, List.nil_append, List.foldl_cons, List.foldl_nil,
          St.push]

/-- The registers as `trap` is called. -/
def Regs.called (t : Tables) (n : BitVec 8) (r : Regs) (esp : BitVec 32) : Regs :=
  { r.entered t n esp with
    eax := r.eax.extractLsb' 16 16 ++ SEG_KDATA
    ds := SEG_KDATA
    es := SEG_KDATA }

/-- **The way in.**  A trap leaves its frame below the top of the stack, and nothing else but the address
of the frame, the argument of `trap`. -/
theorem entry (hroom : 80 ≤ (top t s.regs).toNat) : ∃ oesp,
    run t.ts (interrupt t n err s) (vector n ++ alltraps) =
      let tf := top t s.regs - BitVec.ofNat 32 (size s.regs)
      ⟨s.regs.called t n (tf - 4),
        pushes s.mem (top t s.regs).toNat (frame s.regs n err oesp ++ [.word tf])⟩ := by
  let esp := top t s.regs - BitVec.ofNat 32 (4 * (pushed s.regs n err).length)
  have hsize : size s.regs ≤ 76 := by
    rw [size]
    split
    next => rfl
    next => decide
  have hlength : 4 * (pushed s.regs n err).length + 4 * (numbers n).length + 48 = size s.regs := by
    have hframe : 4 * (frame s.regs n err 0).length = size s.regs := length_frame
    rw [frame_eq, List.length_append, List.length_append] at hframe
    have hsaved : (saved s.regs 0).length = 12 := rfl
    omega
  have hpushed : (pushed s.regs n err).foldl St.push
      ⟨{ s.regs with esp := top t s.regs, ss := if 0 < s.regs.cpl then ss0 else s.regs.ss }, s.mem⟩ = _ :=
    foldl_push _ (by simp only; omega)
  have hesp : esp.toNat = (top t s.regs).toNat - 4 * (pushed s.regs n err).length := toNat_sub (by omega)
  have hhandler : ∃ oesp, run t.ts ⟨s.regs.entered t n esp, pushes s.mem (top t s.regs).toNat
      (pushed s.regs n err)⟩ (vector n ++ alltraps) = _ := run_handler (by simp only [Regs.entered]; omega)
  obtain ⟨oesp, hrun⟩ := hhandler
  refine ⟨oesp, ?_⟩
  have hrow : 4 * (numbers n ++ saved s.regs oesp).length = size s.regs - 4 * (pushed s.regs n err).length := by
    have hsaved : (saved s.regs oesp).length = 12 := rfl
    rw [List.length_append]
    omega
  have htf : esp - BitVec.ofNat 32 (4 * (numbers n ++ saved s.regs oesp).length) =
      top t s.regs - BitVec.ofNat 32 (size s.regs) := by
    apply BitVec.eq_of_toNat_eq
    rw [toNat_sub (by omega), hesp, toNat_sub (by omega)]
    omega
  have hregs : saved (s.regs.entered t n esp) oesp = saved s.regs oesp := rfl
  rw [interrupt_eq, hpushed, hrun]
  simp only [hregs]
  simp only [Regs.entered, Regs.called]
  rw [htf, hesp, ← pushes_append, ← List.append_assoc, ← frame_eq]

/-! ## The way back -/

/-- The kernel can give these registers back: a program has segments of its own only, and a handler gets
back its own stack. -/
structure Resumable (ts : BitVec 32) (a : BitVec 32) (ss : BitVec 16) (r : Regs) : Prop where
  user : 0 < r.cpl → ∀ i, outer ts r.cpl (r.seg i) = r.seg i
  kernel : ¬ 0 < r.cpl → r.esp = a ∧ r.ss = ss

theorem toNat_add {x : BitVec 32} {k : ℕ} (hk : x.toNat + k < 2 ^ 32) :
    (x + BitVec.ofNat 32 k).toNat = x.toNat + k := by
  rw [BitVec.toNat_add, BitVec.toNat_ofNat]
  omega

theorem word_add {x : BitVec 32} {k : ℕ} {v : BitVec 32} (hk : x.toNat + k < 2 ^ 32)
    (h : m.load32 (x.toNat + k) = v.toNat) : word m (x + BitVec.ofNat 32 k) = v := by
  rw [word, toNat_add hk, h, BitVec.ofNat_toNat, BitVec.setWidth_eq]

theorem half_add {x : BitVec 32} {k : ℕ} {v : BitVec 16} (hk : x.toNat + k < 2 ^ 32)
    (h : m.load16 (x.toNat + k) = v.toNat) : half m (x + BitVec.ofNat 32 k) = v := by
  rw [half, toNat_add hk, h, BitVec.ofNat_toNat, BitVec.setWidth_eq]

/-- The `struct trapframe` at `tf` holds the registers; `esp` and `ss` are there if the level has changed. -/
structure Framed (m : Mem) (tf : ℕ) (r : Regs) : Prop where
  edi : m.load32 tf = r.edi.toNat
  esi : m.load32 (tf + 4) = r.esi.toNat
  ebp : m.load32 (tf + 8) = r.ebp.toNat
  ebx : m.load32 (tf + 16) = r.ebx.toNat
  edx : m.load32 (tf + 20) = r.edx.toNat
  ecx : m.load32 (tf + 24) = r.ecx.toNat
  eax : m.load32 (tf + 28) = r.eax.toNat
  gs : m.load16 (tf + 32) = r.gs.toNat
  fs : m.load16 (tf + 36) = r.fs.toNat
  es : m.load16 (tf + 40) = r.es.toNat
  ds : m.load16 (tf + 44) = r.ds.toNat
  eip : m.load32 (tf + 56) = r.eip.toNat
  cs : m.load16 (tf + 60) = r.cs.toNat
  eflags : m.load32 (tf + 64) = r.eflags.toNat
  user : 0 < r.cpl → m.load32 (tf + 68) = r.esp.toNat ∧ m.load16 (tf + 72) = r.ss.toNat

/-- What has been pushed is a `struct trapframe`, with the number of the trap and the error. -/
theorem framed_of_stacked {tf : ℕ} {oesp : BitVec 32} (h : Stacked m (tf + size r) (frame r n err oesp)) :
    Framed m tf r ∧ m.load32 (tf + 48) = n.toNat ∧
      m.load32 (tf + 52) = (if hasError n then err else 0).toNat := by
  have hlength : 4 * (frame r n err oesp).length = size r := length_frame
  rw [← hlength, ← laid_reverse, frame] at h
  have hn : (n.setWidth 32).toNat = n.toNat := by
    have hlt := n.isLt
    rw [BitVec.toNat_setWidth]
    omega
  by_cases hu : 0 < r.cpl
  · simp only [if_pos hu, List.cons_append, List.nil_append, List.reverse_cons, List.reverse_nil, Laid,
      Nat.add_assoc, Nat.reduceAdd, Cell.At, hn, and_true] at h
    obtain ⟨edi, esi, ebp, -, ebx, edx, ecx, eax, gs, fs, es, ds, hno, herr, eip, cs, eflags, user⟩ := h
    exact ⟨⟨edi, esi, ebp, ebx, edx, ecx, eax, gs, fs, es, ds, eip, cs, eflags, fun _ => user⟩, hno, herr⟩
  · simp only [if_neg hu, List.nil_append, List.cons_append, List.reverse_cons, List.reverse_nil, Laid,
      Nat.add_assoc, Nat.reduceAdd, Cell.At, hn, and_true] at h
    obtain ⟨edi, esi, ebp, -, ebx, edx, ecx, eax, gs, fs, es, ds, hno, herr, eip, cs, eflags⟩ := h
    exact ⟨⟨edi, esi, ebp, ebx, edx, ecx, eax, gs, fs, es, ds, eip, cs, eflags, fun hcon => absurd hcon hu⟩,
      hno, herr⟩

/-- **The way back.**  From a trap frame the registers are those that were interrupted. -/
theorem trapret_frame {a : BitVec 32} (h : Framed s.mem s.regs.esp.toNat r)
    (ha : s.regs.esp.toNat + size r = a.toNat) (hcpl : s.regs.cpl = 0)
    (hr : Resumable ts a s.regs.ss r) : run ts s trapret = ⟨r, s.mem⟩ := by
  have hlt := a.isLt
  have hsize := le_size r
  have hw : ∀ {k : ℕ} {v : BitVec 32}, k ≤ 67 → s.mem.load32 (s.regs.esp.toNat + k) = v.toNat →
      word s.mem (s.regs.esp + BitVec.ofNat 32 k) = v := fun hk => word_add (by omega)
  have hh : ∀ {k : ℕ} {v : BitVec 16}, k ≤ 67 → s.mem.load16 (s.regs.esp.toNat + k) = v.toNat →
      half s.mem (s.regs.esp + BitVec.ofNat 32 k) = v := fun hk => half_add (by omega)
  have hedi : word s.mem s.regs.esp = r.edi := by
    rw [word, h.edi, BitVec.ofNat_toNat, BitVec.setWidth_eq]
  simp only [run, trapret, exec, iret, List.foldl_cons, List.foldl_nil, Regs.setSeg, St.mk.injEq, and_true,
    BitVec.add_assoc, BitVec.reduceAdd, BitVec.ofNat_eq_ofNat, hedi, hw (by decide) h.esi,
    hw (by decide) h.ebp, hw (by decide) h.ebx, hw (by decide) h.edx, hw (by decide) h.ecx,
    hw (by decide) h.eax, hh (by decide) h.gs, hh (by decide) h.fs, hh (by decide) h.es,
    hh (by decide) h.ds, hw (by decide) h.eip, hh (by decide) h.cs, hw (by decide) h.eflags]
  have hcpl' : rpl s.regs.cs = 0 := hcpl
  simp only [Regs.cpl, hcpl']
  by_cases hu : 0 < r.cpl
  · have hsize' : size r = 76 := if_pos hu
    obtain ⟨huesp, huss⟩ := h.user hu
    have hds : outer ts (rpl r.cs) r.ds = r.ds := hr.user hu .ds
    have hes : outer ts (rpl r.cs) r.es = r.es := hr.user hu .es
    have hfs : outer ts (rpl r.cs) r.fs = r.fs := hr.user hu .fs
    have hgs : outer ts (rpl r.cs) r.gs = r.gs := hr.user hu .gs
    have hlevel : 0 < rpl r.cs := hu
    rw [if_pos hlevel, word_add (by omega) huesp, half_add (by omega) huss, hds, hes, hfs, hgs]
  · have hsize' : size r = 68 := if_neg hu
    have hlevel : ¬ 0 < rpl r.cs := hu
    obtain ⟨hesp, hss⟩ := hr.kernel hu
    have hback : s.regs.esp + 68#32 = r.esp := by
      apply BitVec.eq_of_toNat_eq
      rw [toNat_add (by omega), hesp]
      omega
    rw [if_neg hlevel, hback, ← hss]

end Mixv6.Kernel.Trap
