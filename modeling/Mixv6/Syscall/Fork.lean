import Mixv6.Mm.Resize
import Mixv6.Syscall.FileRefs

/-!
# `sys_fork` with the memory

`sys_fork` on the three tables and on the memory at once: the child gets a kernel stack and an
address space, and `kalloc` may fail at any point.

## Main definitions

* `Body`, `State`, `Kern` — the process table with the fields about the memory.
* `palloc`, `pfree`, `sys_fork` — the routines.
* `Alive` — the parent and the allocator are in order.
* `Copy`, `Untouched`, `Faithful` — what `sys_fork` promises.
* `fork_faithful` — it keeps its promise.
* `alive_of_path` — processes are in order in every state that is reached.
-/

namespace Mixv6.Syscall.Fork

open Mixv6.Lib Mixv6.Kernel
open Mixv6.Mm (page_add Phys Layout Heap SpaceOk Space Tag Ghost Vm KERNEND USEREND PAGESIZE PGROUNDUP
  PTE_ADDR PTE_FLAGS page present mapping translate entryOf IsTable Copied)

/-! ## Programs -/

/-- The fields of `struct proc` about the memory. -/
structure Body where
  size : ℕ
  pgdir : ℕ
  kstack : ℕ
  tf : ℕ
  context : ℕ

/-- The tables, the memory, and the other fields of the process table. -/
structure State where
  tables : Syscall.State
  phys : Phys
  body : Slot → Body

/-- Why the kernel stops. -/
inductive Stop
  | tables (e : Syscall.Panic)
  | mm (e : Mm.Panic)

/-- A routine of the kernel. -/
abbrev Kern (α : Type) := Prog State Stop α

/-- A routine on the tables. -/
def onTables {α : Type} (c : Syscall.Kern α) : Kern α :=
  zoom State.tables (fun s tables => { s with tables }) .tables c

/-- A routine of the memory management. -/
def onPhys {α : Type} (c : Mm.Kern α) : Kern α :=
  zoom State.phys (fun s phys => { s with phys }) .mm c

/-- Stores to the fields of a process. -/
def setBody (p : Slot) (f : Body → Body) : Kern Unit :=
  modify fun s => { s with body := Function.update s.body p (f (s.body p)) }

/-- The size of a kernel stack. -/
def STACKSIZE : ℕ := 0x1000

/-- `sizeof(struct trapframe)`. -/
def TRAPFRAME : ℕ := 76

/-- `sizeof(struct context)`. -/
def CONTEXT : ℕ := 20

def FL_IF : ℕ := 0x200
def SEG_UCODE : ℕ := 0x18
def SEG_UDATA : ℕ := 0x20
def DPL_USER : ℕ := 0x3

/-! ## `kernel/proc.c` -/

/-- The first frame on a new kernel stack, at `tf`, with `trapret` above it. -/
def newFrame (m : Mem) (trapret kstack tf context : ℕ) : Mem :=
  let m := m.fill kstack 0 PAGESIZE
  let m := m.store32 (context + 16) trapret
  let m := m.store32 (tf + 64) FL_IF
  let m := m.store16 (tf + 60) (SEG_UCODE ||| DPL_USER)
  let m := m.store16 (tf + 44) (SEG_UDATA ||| DPL_USER)
  let m := m.store16 (tf + 40) (m.load16 (tf + 44))
  let m := m.store16 (tf + 72) (m.load16 (tf + 44))
  m.store32 (tf + 64) FL_IF

/-- `palloc`; `trapret` is the address of the label. -/
def palloc (maker : Option ℕ) (trapret : ℕ) : Kern (Option Slot) := do
  match freeSlot (← get).tables with
  | none => return none
  | some i =>
      -- memset(p, 0, sizeof(struct proc))
      setBody i fun _ => ⟨0, 0, 0, 0, 0⟩
      let kstack ← onPhys Mm.kalloc
      match ← onTables (Syscall.palloc maker (kstack ≠ 0)) with
      | none => return none
      | some i =>
          let tf := kstack + STACKSIZE - TRAPFRAME
          let context := tf - CONTEXT
          setBody i fun b => { b with kstack, tf, context }
          onPhys (modify fun σ => { σ with mem := newFrame σ.mem trapret kstack tf context })
          return some i

/-- `pfree`. -/
def pfree (L : Layout) (p : Slot) : Kern Unit := do
  onTables (Syscall.pfree p)
  if ((← get).body p).pgdir ≠ 0 then
    onPhys (Mm.freevm L ((← get).body p).pgdir)
    setBody p fun b => { b with pgdir := 0 }
  if ((← get).body p).kstack ≠ 0 then
    onPhys (Mm.kfree L ((← get).body p).kstack)
    setBody p fun b => { b with kstack := 0 }

/-! ## `kernel/syscall/fork.c` -/

/-- `sys_fork` of process `p`. -/
def sys_fork (L : Layout) (trapret : ℕ) (p : Slot) : Kern ℤ := do
  let me := (← get).tables.past.birth p
  match ← palloc (some me) trapret with
  | none => return -1
  | some np =>
      let b := (← get).body p
      let pgdir ← onPhys (Mm.copyuvm L b.pgdir b.size)
      setBody np fun nb => { nb with pgdir }
      if pgdir = 0 then
        pfree L np
        return -1
      setBody np fun nb => { nb with size := b.size }
      onTables (modify fun s => s.setProc np { s.proc np with pproc := some p })
      let tf := ((← get).body np).tf
      -- *np->tf = *curproc->tf
      onPhys (Mm.memmove b.tf tf TRAPFRAME)
      -- np->tf->eax = 0
      onPhys (Mm.store (tf + 28) 0)
      onTables (copyFiles p np)
      let cwd ← onTables (do idup ((← get).proc p).cwd)
      onTables (modify fun s => s.setProc np { s.proc np with cwd })
      onTables (modify fun s => { s with
        tab := { s.tab with stat := Function.update s.tab.stat np .RUN }
        past := { s.past with forks := s.past.forks + 1 } })
      return (BitVec.ofNat 32 ((← get).tables.proc np).pid).toInt

/-! ## The promise -/

/-- The allocator, and process `p` with its address space `t` and its kernel stack, are in order, and
the pages of its image are present. -/
structure Alive (L : Layout) (s : State) (p : Slot) (F : List ℕ) (own : ℕ → Tag) (t : ℕ) (sp : Space) :
    Prop where
  heap : Heap L s.phys F own
  space : SpaceOk own t sp s.phys.mem
  pgdir : sp.dir = (s.body p).pgdir
  kstack : own (s.body p).kstack = .kstack p
  tf : (s.body p).tf = (s.body p).kstack + STACKSIZE - TRAPFRAME
  size : KERNEND + (s.body p).size ≤ USEREND
  image : ∀ va, KERNEND ≤ va → va < KERNEND + (s.body p).size →
    translate s.phys (s.body p).pgdir va ≠ none

/-- Process `p` is as it was. -/
structure Same (p : Slot) (s u : State) : Prop where
  proc : u.tables.proc p = s.tables.proc p
  stat : u.tables.tab.stat p = s.tables.tab.stat p
  wchan : u.tables.tab.wchan p = s.tables.tab.wchan p
  body : u.body p = s.body p

/-- Its directory, its memory and its kernel stack with the trap frame are as they were. -/
structure SameSpace (p : Slot) (s : State) (σ : Phys) : Prop where
  entries : ∀ va < 2 ^ 32, entryOf σ (s.body p).pgdir va = entryOf s.phys (s.body p).pgdir va
  bytes : ∀ va a, KERNEND ≤ va → va < 2 ^ 32 → translate s.phys (s.body p).pgdir va = some a →
    σ.mem a = s.phys.mem a
  stack : ∀ x, page x = (s.body p).kstack → σ.mem x = s.phys.mem x

/-- Directory `d` maps a copy of the image of process `p`, in frames of its own. -/
structure CopySpace (p : Slot) (s : State) (d : ℕ) (σ : Phys) : Prop where
  inside : ∀ va, KERNEND ≤ va → va < PGROUNDUP (KERNEND + (s.body p).size) →
    ∃ e e', mapping s.phys (s.body p).pgdir va = some e ∧ mapping σ d va = some e' ∧
      PTE_FLAGS e' = PTE_FLAGS e ∧
      σ.mem (PTE_ADDR e' + va % PAGESIZE) = s.phys.mem (PTE_ADDR e + va % PAGESIZE)
  outside : ∀ va < 2 ^ 32, PGROUNDUP (KERNEND + (s.body p).size) ≤ va → mapping σ d va = none
  /-- Where the parent has nothing above its image, the user halves are the same. -/
  flags : (∀ va < 2 ^ 32, PGROUNDUP (KERNEND + (s.body p).size) ≤ va →
      mapping s.phys (s.body p).pgdir va = none) →
    ∀ va, KERNEND ≤ va → va < 2 ^ 32 →
      (mapping σ d va).map PTE_FLAGS = (mapping s.phys (s.body p).pgdir va).map PTE_FLAGS
  disjoint : ∀ va a, KERNEND ≤ va → va < 2 ^ 32 → translate σ d va = some a →
    ¬ IsTable s.phys (s.body p).pgdir (page a) ∧ page a ≠ (s.body p).kstack ∧
    ∀ va' a', KERNEND ≤ va' → va' < 2 ^ 32 → translate s.phys (s.body p).pgdir va' = some a' →
      page a ≠ page a'

/-- `sys_fork` of process `p` has made process `np`. -/
structure Copy (p np : Slot) (s u : State) : Prop where
  copy : CopySpace p s (u.body np).pgdir u.phys
  trapframe : ∀ k < TRAPFRAME, u.phys.mem ((u.body np).tf + k) =
    if 28 ≤ k ∧ k < 32 then 0 else s.phys.mem ((s.body p).tf + k)
  size : (u.body np).size = (s.body p).size
  pid : (u.tables.proc np).pid = s.tables.nextpid
  cwd : (u.tables.proc np).cwd = (s.tables.proc p).cwd
  ofile : (u.tables.proc np).ofile = (s.tables.proc p).ofile
  slot : s.tables.tab.stat np = .UNUSED ∧ u.tables.tab.stat np = .RUN
  parent : Same p s u
  space : SameSpace p s u.phys

/-- `sys_fork` has failed: the processes and the counts are as they were. -/
structure Untouched (s u : State) : Prop where
  slots : ∀ i, s.tables.tab.stat i ≠ .UNUSED → Same i s u
  unused : ∀ i, s.tables.tab.stat i = .UNUSED → u.tables.tab.stat i = .UNUSED
  files : ∀ f, (u.tables.file f).refcnt = (s.tables.file f).refcnt
  inodes : u.tables.inode = s.tables.inode

variable {L : Layout} {s u : State} {p np i : Slot} {F F' : List ℕ} {own : ℕ → Tag} {t n k trapret : ℕ}
  {sp : Space} {σ : Phys} {g : Ghost} {E : Stop → Prop}

theorem Same.refl (p : Slot) (s : State) : Same p s s := ⟨rfl, rfl, rfl, rfl⟩

/-- A panic of the file or inode table. -/
def OfTables (e : Stop) : Prop := ∃ e', e = .tables e'

/-! ## Routines -/

/-- The first frame lies in the page of the stack. -/
theorem newFrame_of_ne {m : Mem} {x : ℕ} (hk : k % 4096 = 0) (hx : page x ≠ k) :
    newFrame m trapret k (k + STACKSIZE - TRAPFRAME) (k + STACKSIZE - TRAPFRAME - CONTEXT) x = m x := by
  simp only [page] at hx
  simp only [newFrame, STACKSIZE, TRAPFRAME, CONTEXT, PAGESIZE]
  rw [Mem.store32_of_ne (by omega), Mem.store16_of_ne (by omega), Mem.store16_of_ne (by omega),
    Mem.store16_of_ne (by omega), Mem.store16_of_ne (by omega), Mem.store32_of_ne (by omega),
    Mem.store32_of_ne (by omega), Mem.fill_of_ne (by omega)]

/-- A new process begins at `trapret`. -/
theorem newFrame_entry {m : Mem} (ht : trapret < 2 ^ 32) :
    (newFrame m trapret k (k + STACKSIZE - TRAPFRAME) (k + STACKSIZE - TRAPFRAME - CONTEXT)).load32
      (k + STACKSIZE - TRAPFRAME - CONTEXT + 16) = trapret := by
  refine Eq.trans (Mem.load32_congr fun j hj => ?_) (Mem.load32_store32 (m := m.fill k 0 PAGESIZE) ht)
  simp only [newFrame, STACKSIZE, TRAPFRAME, CONTEXT]
  rw [Mem.store32_of_ne (by omega), Mem.store16_of_ne (by omega), Mem.store16_of_ne (by omega),
    Mem.store16_of_ne (by omega), Mem.store16_of_ne (by omega), Mem.store32_of_ne (by omega)]

theorem wp_palloc (h : Heap L s.phys F own) {maker : Option ℕ} {Q : Option Slot → State → Prop}
    (hfull : (∀ i, s.tables.tab.stat i ≠ .UNUSED) → Q none s)
    (hclear : F = [] → ∀ i j, s.tables.tab.stat i = .UNUSED → s.tables.tab.stat j = .UNUSED →
      Q none ⟨s.tables.cleared j, s.phys, Function.update s.body i ⟨0, 0, 0, 0, 0⟩⟩)
    (hsome : ∀ i k F' m, s.tables.tab.stat i = .UNUSED → F = k :: F' → k ≠ 0 →
      (∀ x, page x ≠ k → m x = s.phys.mem x) →
      (trapret < 2 ^ 32 → m.load32 (k + STACKSIZE - TRAPFRAME - CONTEXT + 16) = trapret) →
      Q (some i) ⟨s.tables.made i maker, { s.phys.take k with mem := m }, Function.update s.body i
        ⟨0, 0, k, k + STACKSIZE - TRAPFRAME, k + STACKSIZE - TRAPFRAME - CONTEXT⟩⟩) :
    wp E (palloc maker trapret) Q s := by
  simp only [palloc, wp_bind, wp_get]
  split
  next hnone =>
    refine wp_pure.mpr (hfull fun i hi => ?_)
    simpa [hi] using not_of_first hnone i
  next i hfree =>
    have hun := unused_of_freeSlot hfree
    simp only [setBody, onPhys, onTables, wp_bind, wp_modify, wp_zoom]
    apply h.wp_kalloc
    · intro hnil
      refine Syscall.wp_palloc (fun hnone => ?_) (fun j hj _ => ?_) fun j _ hcon => ?_
      · rw [hfree] at hnone
        cases hnone
      · exact wp_pure.mpr (hclear hnil i j hun hj)
      · simp at hcon
    · intro k F' hF hk
      have hpage := h.pages k (by rw [(h.free k).mp (by simp [hF])]; simp)
      refine Syscall.wp_palloc (fun hnone => ?_) (fun _ _ hcon => ?_) fun j hj _ => ?_
      · rw [hfree] at hnone
        cases hnone
      · simp [hk] at hcon
      · obtain rfl : i = j := Option.some.inj (hfree.symm.trans hj)
        simp only [wp_bind, wp_modify, wp_zoom, wp_pure, Function.update_self, Function.update_idem]
        apply hsome i k F' _ hun hF hk
        · exact fun x hx => newFrame_of_ne hpage.1 hx
        · exact fun ht => newFrame_entry ht

/-! ## Memory -/

/-- The trap frame of the child, at `dst`. -/
theorem trapframe_byte {m : Mem} {src dst j : ℕ} (hsrc : src + TRAPFRAME ≤ dst ∨ dst ≤ src)
    (hj : j < TRAPFRAME) : ((m.movsb src dst TRAPFRAME).store32 (dst + 28) 0) (dst + j) =
      if 28 ≤ j ∧ j < 32 then 0 else m (src + j) := by
  split
  next h =>
    have hzero := Mem.eq_zero_of_load32 (m := (m.movsb src dst TRAPFRAME).store32 (dst + 28) 0)
      (Mem.load32_store32 (by decide)) (show j - 28 < 4 by omega)
    rwa [show dst + 28 + (j - 28) = dst + j by omega] at hzero
  next h => rw [Mem.store32_of_ne (by omega), Mem.movsb_of_mem hsrc hj]

/-- The trap frame lies in the page of the stack. -/
theorem trapframe_of_ne {m : Mem} {src x : ℕ} (hk : k % 4096 = 0) (hx : page x ≠ k) :
    ((m.movsb src (k + STACKSIZE - TRAPFRAME) TRAPFRAME).store32
      (k + STACKSIZE - TRAPFRAME + 28) 0) x = m x := by
  simp only [page] at hx
  simp only [STACKSIZE, TRAPFRAME]
  rw [Mem.store32_of_ne (by omega), Mem.movsb_of_ne (by omega)]

namespace Alive

theorem vm (h : Alive L s p F own t sp) : Vm L t s.phys ⟨F, own, sp⟩ := ⟨h.heap, h.space⟩

/-- The pages of the image are there to be copied. -/
theorem copyable (h : Alive L s p F own t sp) {E : Mm.Panic → Prop} :
    Mm.Copyable E sp (KERNEND + (s.body p).size) := by
  left
  intro v hv hlt
  have hsize := h.size
  have htrans := h.image (4096 * v) (by simp only [KERNEND]; omega) hlt
  simp only [USEREND] at hsize
  rw [← h.pgdir] at htrans
  have hlt : 4096 * v < 2 ^ 32 := by omega
  have hva := h.vm.translate hlt
  by_contra hcon
  rw [Nat.mul_div_cancel_left v (by decide), if_neg hcon] at hva
  exact htrans hva

/-- The memory after `palloc` has taken page `k` for the stack of process `i`. -/
theorem stack (h : Alive L s p (k :: F) own t sp) {m : Mem}
    (hm : ∀ x, page x ≠ k → m x = s.phys.mem x) :
    Heap L { s.phys.take k with mem := m } F (Function.update own k (.kstack i)) ∧
      SpaceOk (Function.update own k (.kstack i)) t sp m := by
  have hfree : own k = .free := (h.heap.free k).mp (by simp)
  have hkF : k ∉ F := (List.nodup_cons.mp h.heap.nodup).1
  have halign := h.vm.align
  constructor
  · refine (h.heap.take (show Tag.kstack i ≠ .free by simp)).congr rfl fun q hq x hx => hm x ?_
    rintro rfl
    exact hkF (hx ▸ hq)
  · apply h.space.other halign _ (halign k (by simp [hfree])) id hm
    rw [hfree]
    exact id

/-- What the copy and the stores to the stack `k` of the child leave alone. -/
theorem kept (hfree : own k = .free) (hnew : ∀ q, ¬ (own q).of n) {m m' : Mem} {own' : ℕ → Tag}
    (hm : ∀ x, page x ≠ k → m x = s.phys.mem x)
    (hf : Mm.Frame n { s.phys.take k with mem := m } (Function.update own k (.kstack i)) σ own')
    (hm' : ∀ x, page x ≠ k → m' x = σ.mem x) :
    (∀ q, own q ≠ .free → own' q = own q) ∧ ∀ x, own (page x) ≠ .free → m' x = s.phys.mem x := by
  have hnew' : ∀ q, ¬ (Function.update own k (.kstack i) q).of n := Mm.not_of_update hnew id
  have hne : ∀ q, own q ≠ .free → q ≠ k := by
    rintro q hq rfl
    exact hq hfree
  constructor
  · intro q hq
    have hsame := Function.update_of_ne (hne q hq) (Tag.kstack i) own
    rw [hf.kept_own hnew' (hsame ▸ hq), hsame]
  · intro x hx
    have hsame := Function.update_of_ne (hne _ hx) (Tag.kstack i) own
    rw [hm' x (hne _ hx), hf.kept hnew' (hsame ▸ hx)]
    exact hm x (hne _ hx)

variable {m : Mem}

/-- The parent's half of the promise. -/
theorem sameSpace (h : Alive L s p F own t sp) (hvm : Vm L t { σ with mem := m } ⟨F', g.own, sp⟩)
    (hkept : ∀ x, own (page x) ≠ .free → m x = s.phys.mem x) :
    SameSpace p s { σ with mem := m } := by
  refine ⟨fun va hva => ?_, fun va a hlo hva ha => ?_, fun x hx => ?_⟩
  · rw [← h.pgdir, hvm.entryOf hva, h.vm.entryOf hva]
  · rw [← h.pgdir, h.vm.translate hva] at ha
    split at ha
    next hp =>
      obtain rfl := Option.some.inj ha
      have hown := h.space.user _ (by simp only [KERNEND] at hlo; omega) hp
      apply hkept
      rw [page_add (Mm.PTE_ADDR_mod _) (by omega), hown]
      simp
    next => cases ha
  · apply hkept
    rw [hx, h.kstack]
    simp

/-- The child's half. -/
theorem copySpace (h : Alive L s p F own t sp) (hvm : Vm L n { σ with mem := m } g)
    (hnew : ∀ q, ¬ (own q).of n) (hown : ∀ q, own q ≠ .free → g.own q = own q)
    (hkept : ∀ x, own (page x) ≠ .free → m x = s.phys.mem x)
    (hcopy : ∀ v, 0x40000 ≤ v → v < (KERNEND + (s.body p).size + 4095) / 4096 →
      Mm.CopyOf m (sp.pte v) (g.sp.pte v))
    (habove : ∀ v, (KERNEND + (s.body p).size + 4095) / 4096 ≤ v → ¬ present (g.sp.pte v)) :
    CopySpace p s g.sp.dir { σ with mem := m } := by
  have hsize := h.size
  have hbase : KERNEND = 0x40000000 := rfl
  have hround := Mm.PGROUNDUP_eq hsize
  simp only [USEREND] at hsize
  have hinside : ∀ va, KERNEND ≤ va → va < PGROUNDUP (KERNEND + (s.body p).size) →
      ∃ e e', mapping s.phys (s.body p).pgdir va = some e ∧
        mapping { σ with mem := m } g.sp.dir va = some e' ∧ PTE_FLAGS e' = PTE_FLAGS e ∧
        m (PTE_ADDR e' + va % PAGESIZE) = s.phys.mem (PTE_ADDR e + va % PAGESIZE) := by
    intro va hlo hhi
    rw [hround] at hhi
    have hc := hcopy (va / 4096) (by omega) (by omega)
    have hva : va < 2 ^ 32 := by omega
    have hmap := h.vm.mapping hva
    have hmap' := hvm.mapping hva
    rw [if_pos hc.old, h.pgdir] at hmap
    rw [if_pos hc.new] at hmap'
    refine ⟨_, _, hmap, hmap', hc.flags, ?_⟩
    have hown := h.space.user _ (by omega) hc.old
    have hoff : va % PAGESIZE < 4096 := Nat.mod_lt _ (by decide)
    rw [hc.bytes _ hoff]
    apply hkept
    rw [page_add (Mm.PTE_ADDR_mod _) hoff, hown]
    simp
  have houtside : ∀ va < 2 ^ 32, PGROUNDUP (KERNEND + (s.body p).size) ≤ va →
      mapping { σ with mem := m } g.sp.dir va = none := by
    intro va hva hle
    rw [hround] at hle
    rw [hvm.mapping hva, if_neg (habove _ (by omega))]
  refine ⟨hinside, houtside, fun hnone va hlo hva => ?_, fun va a hlo hva ha => ?_⟩
  · by_cases hhi : va < PGROUNDUP (KERNEND + (s.body p).size)
    · obtain ⟨e, e', he, he', hflags, -⟩ := hinside va hlo hhi
      rw [he, he', Option.map_some, Option.map_some, hflags]
    · rw [houtside va hva (by omega), hnone va hva (by omega)]
  · rw [hvm.translate hva] at ha
    split at ha
    next hp =>
      obtain rfl := Option.some.inj ha
      have htag := hvm.space.user _ (by omega) hp
      rw [page_add (Mm.PTE_ADDR_mod _) (by omega)]
      -- Whatever the parent has was in use, and still has its owner.
      have hother : own (PTE_ADDR (g.sp.pte (va / 4096))) = .free := by
        by_contra hcon
        rw [hown _ hcon] at htag
        exact hnew _ (by rw [htag]; rfl)
      refine ⟨?_, ?_, fun va' a' hlo' hva' ha' => ?_⟩
      · rw [← h.pgdir, h.vm.isTable]
        rintro (heq | ⟨i, hi⟩)
        · rw [heq, h.space.own_dir] at hother
          cases hother
        · rw [h.space.own_tab hi] at hother
          cases hother
      · intro heq
        rw [heq, h.kstack] at hother
        cases hother
      · rw [← h.pgdir, h.vm.translate hva'] at ha'
        split at ha'
        next hp' =>
          obtain rfl := Option.some.inj ha'
          rw [page_add (Mm.PTE_ADDR_mod _) (by omega)]
          intro heq
          rw [heq, h.space.user _ (by omega) hp'] at hother
          cases hother
        next => cases ha'
    next => cases ha

/-- After the copy, stores to the stack `k` of the child disturb neither half. -/
theorem copied (h : Alive L s p (k :: F) own t sp) (hnew : ∀ q, ¬ (own q).of n) {m m' : Mem}
    (hm : ∀ x, page x ≠ k → m x = s.phys.mem x)
    (hc : Copied L n t ((KERNEND + (s.body p).size + 4095) / 4096) sp
      { s.phys.take k with mem := m } (Function.update own k (.kstack i)) σ g)
    (hm' : ∀ x, page x ≠ k → m' x = σ.mem x) :
    SameSpace p s { σ with mem := m' } ∧ CopySpace p s g.sp.dir { σ with mem := m' } := by
  have hfree : own k = .free := (h.heap.free k).mp (by simp)
  obtain ⟨hown, hkept⟩ := kept hfree hnew hm hc.frame hm'
  have hstack : g.own k = .kstack i := by
    obtain ⟨new, hf⟩ := hc.frame
    rw [hf.others k (by simp) (by simp [Tag.of]), Function.update_self]
  have hother : ∀ x tag, g.own (page x) = tag → (∀ j, tag ≠ .kstack j) → m' x = σ.mem x := by
    rintro x _ rfl htag
    apply hm'
    rintro rfl
    exact htag i hstack
  have hvm : Vm L n { σ with mem := m' } g := by
    apply hc.vm.scribble
    rintro x (hx | hx | ⟨j, hx⟩) <;> exact hother x _ hx (by simp)
  have hparent : Vm L t { σ with mem := m' } ⟨g.free, g.own, sp⟩ := by
    apply hc.parent.scribble
    rintro x (hx | hx | ⟨j, hx⟩) <;> exact hother x _ hx (by simp)
  refine ⟨h.sameSpace hparent hkept, h.copySpace hvm hnew hown hkept (fun v hv hlt => ?_) hc.above⟩
  have hcopy := hc.below v hv hlt
  apply hcopy.congr
  rintro x (hx | hx)
  · exact hother x _ (hx ▸ hc.old.user v hv hcopy.old) (by simp)
  · exact hother x _ (hx ▸ hc.vm.space.user v hv hcopy.new) (by simp)

/-- The trap frame of the parent is still there to be copied. -/
theorem trapframe (h : Alive L s p (k :: F) own t sp) (hnew : ∀ q, ¬ (own q).of n) {m : Mem}
    (hm : ∀ x, page x ≠ k → m x = s.phys.mem x)
    (hf : Mm.Frame n { s.phys.take k with mem := m } (Function.update own k (.kstack i)) σ g.own) {j : ℕ}
    (hj : j < TRAPFRAME) : ((σ.mem.movsb (s.body p).tf (k + STACKSIZE - TRAPFRAME) TRAPFRAME).store32
        (k + STACKSIZE - TRAPFRAME + 28) 0) (k + STACKSIZE - TRAPFRAME + j) =
      if 28 ≤ j ∧ j < 32 then 0 else s.phys.mem ((s.body p).tf + j) := by
  have hfree : own k = .free := (h.heap.free k).mp (by simp)
  have hka := (h.heap.pages k (by simp [hfree])).1
  have hpa := (h.heap.pages _ (by rw [h.kstack]; simp)).1
  have hne : (s.body p).kstack ≠ k := by
    intro heq
    rw [← heq, h.kstack] at hfree
    cases hfree
  have hpage : page ((s.body p).tf + j) = (s.body p).kstack := by
    rw [h.tf]
    simp only [page, STACKSIZE, TRAPFRAME] at hj ⊢
    omega
  have hkept := (kept hfree hnew hm hf fun _ _ => rfl).2 ((s.body p).tf + j) (by rw [hpage, h.kstack]; simp)
  rw [trapframe_byte _ hj, hkept]
  rw [h.tf]
  simp only [STACKSIZE, TRAPFRAME]
  omega

/-- The child will still begin at `trapret`. -/
theorem entry (h : Alive L s p (k :: F) own t sp) (hnew : ∀ q, ¬ (own q).of n) {m : Mem}
    (hf : Mm.Frame n { s.phys.take k with mem := m } (Function.update own k (.kstack i)) σ g.own)
    (hentry : m.load32 (k + STACKSIZE - TRAPFRAME - CONTEXT + 16) = trapret) :
    ((σ.mem.movsb (s.body p).tf (k + STACKSIZE - TRAPFRAME) TRAPFRAME).store32
      (k + STACKSIZE - TRAPFRAME + 28) 0).load32 (k + STACKSIZE - TRAPFRAME - CONTEXT + 16) = trapret := by
  have hnew' : ∀ q, ¬ (Function.update own k (.kstack i) q).of n := Mm.not_of_update hnew id
  have hka := (h.heap.pages k (by simp [(h.heap.free k).mp])).1
  rw [← hentry]
  apply Mem.load32_congr
  intro j hj
  simp only [STACKSIZE, TRAPFRAME, CONTEXT]
  rw [Mem.store32_of_ne (by omega), Mem.movsb_of_ne (by omega)]
  apply hf.kept hnew'
  have hpage : page (k + 0x1000 - 76 - 20 + 16 + j) = k := by
    simp only [page]
    omega
  rw [hpage, Function.update_self]
  simp

end Alive

/-! ## Failure -/

/-- `pfree` of a process without an address space. -/
theorem wp_pfree (hdir : (s.body p).pgdir = 0) (hk : Mm.IsPage L (s.body p).kstack)
    {Q : Unit → State → Prop}
    (hE : ∀ f, (s.tables.file f).refcnt < refs (s.tables.proc p).ofile f → E (.tables .ffree2))
    (hQ : (∀ f, refs (s.tables.proc p).ofile f ≤ (s.tables.file f).refcnt) →
      Q () ⟨s.tables.freed p, s.phys.give (s.body p).kstack,
        Function.update s.body p { s.body p with pgdir := 0, kstack := 0 }⟩) : wp E (pfree L p) Q s := by
  have hpos := hk.pos
  have hne : (s.body p).kstack ≠ 0 := by omega
  simp only [pfree, onTables, onPhys, setBody, wp_bind, wp_zoom]
  refine Syscall.wp_pfree hE fun henough => ?_
  simp only [wp_get, wp_ite, wp_bind, wp_zoom, wp_modify, wp_pure, hdir, ne_eq, not_true_eq_false,
    if_false, hne, not_false_eq_true, if_true]
  exact Heap.wp_kfree hk (hQ henough)

/-- `palloc` has cleared a slot. -/
theorem Untouched.cleared (hi : s.tables.tab.stat i = .UNUSED) (hj : s.tables.tab.stat np = .UNUSED)
    {σ : Phys} {b : Body} : Untouched s ⟨s.tables.cleared np, σ, Function.update s.body i b⟩ := by
  refine ⟨fun q hq => ?_, fun q hq => hq, fun f => rfl, rfl⟩
  have hqi : q ≠ i := by
    rintro rfl
    exact hq hi
  have hqj : q ≠ np := by
    rintro rfl
    exact hq hj
  constructor <;> simp [State.cleared, hqi, hqj]

/-- `pfree` has undone what `palloc` did. -/
theorem Untouched.freed (hcount : ∀ f, (s.tables.file f).refcnt < 2 ^ 32)
    (hnp : s.tables.tab.stat np = .UNUSED) {maker : Option ℕ} {σ : Phys} {body : Slot → Body}
    (hbody : ∀ q, q ≠ np → body q = s.body q)
    (henough : ∀ f, refs stdio f ≤ ((s.tables.file f).raise (refs stdio f)).refcnt) :
    Untouched s ⟨(s.tables.made np maker).freed np, σ, body⟩ := by
  refine ⟨fun q hq => ?_, fun q hq => ?_, fun f => ?_, ?_⟩
  · have hqn : q ≠ np := by
      rintro rfl
      exact hq hnp
    constructor <;> simp [State.freed, State.made, hqn, hbody]
  · by_cases hqn : q = np
    · subst hqn
      simp [State.freed]
    · simpa [State.freed, State.made, hqn] using hq
  · have hraise := File.raise_refcnt (s.tables.file f) (n := refs stdio f) (hcount f)
    have hle := henough f
    have hlt := hcount f
    simp only [State.freed, State.made, Function.update_self, File.lower_refcnt]
    omega
  · simp [State.freed, State.made, dropped]

/-! ## Success -/

/-- The end of `sys_fork`, on the tables. -/
theorem wp_copyTables {t : Syscall.State} (hne : p ≠ np) {E : Syscall.Panic → Prop}
    (hfdup : ∀ f n, n < refs (t.proc p).ofile f → ((t.file f).raise n).refcnt = 0 → E .fdup)
    (hidup : (t.proc p).cwd = none → E .idup) {Q : Option InodeId → Syscall.State → Prop}
    (hQ : ∀ t', t'.proc p = t.proc p → t'.tab = t.tab → (t'.proc np).pid = (t.proc np).pid →
      (t'.proc np).ofile = overlay (t.proc p).ofile (t.proc np).ofile [] → Q (t.proc p).cwd t') :
    wp E (copyFiles p np) (fun _ t => wp E (idup (t.proc p).cwd) Q t) t := by
  refine wp_copyFiles hne hfdup ?_
  have hcwd : ((t.copied p np (refs (t.proc p).ofile) []).proc p).cwd = (t.proc p).cwd := by
    simp [State.copied, hne]
  rw [hcwd]
  rcases hip : (t.proc p).cwd with _ | ip
  · exact wp_throw.mpr (hidup hip)
  · simp only [idup, wp_bind, wp_get, wp_set, wp_pure]
    rw [← hip]
    apply hQ
    · simp [State.copied, hne]
    · simp [State.copied]
    · simp [State.copied]
    · simp [State.copied]

/-! ## `sys_fork` -/

/-- There is no slot for a child, or the free pages `F` are too few for its kernel stack and a copy of
the image: `palloc` or `copyuvm` fails. -/
def Lacks (s : State) (p : Slot) (F : List ℕ) : Prop :=
  (∀ i, s.tables.tab.stat i ≠ .UNUSED) ∨ F.length < 1 + Mm.copyPages (s.body p).size

/-- Where `sys_fork` of process `p` ends when it has made process `np`, with page `k` for the kernel
stack and the directory `d`. -/
structure Ended (s : State) (p np : Slot) (k d : ℕ) (σ : Phys) (u : State) : Prop where
  phys : u.phys = { σ with
    mem := (σ.mem.movsb (s.body p).tf (k + STACKSIZE - TRAPFRAME) TRAPFRAME).store32
      (k + STACKSIZE - TRAPFRAME + 28) 0 }
  child : u.body np =
    ⟨(s.body p).size, d, k, k + STACKSIZE - TRAPFRAME, k + STACKSIZE - TRAPFRAME - CONTEXT⟩
  bodies : ∀ q, q ≠ np → u.body q = s.body q
  stat : u.tables.tab.stat = Function.update s.tables.tab.stat np .RUN
  wchan : ∀ q, q ≠ np → u.tables.tab.wchan q = s.tables.tab.wchan q
  proc : u.tables.proc p = s.tables.proc p
  pid : (u.tables.proc np).pid = s.tables.nextpid
  cwd : (u.tables.proc np).cwd = (s.tables.proc p).cwd
  ofile : (u.tables.proc np).ofile = overlay (s.tables.proc p).ofile stdio []

/-- **Every way** through `sys_fork`, by the point at which it fails. -/
theorem wp_fork_points (h : Alive L s p F own t sp) (hp : s.tables.tab.stat p ≠ .UNUSED)
    (hnew : ∀ q, ¬ (own q).of n) (htn : t ≠ n) {Q : ℤ → State → Prop}
    (hffree2 : ∀ f, ((s.tables.file f).raise (refs stdio f)).refcnt < refs stdio f → E (.tables .ffree2))
    (hfdup : ∀ f n, n < refs (s.tables.proc p).ofile f →
      (((s.tables.file f).raise (refs stdio f)).raise n).refcnt = 0 → E (.tables .fdup))
    (hidup : (s.tables.proc p).cwd = none → E (.tables .idup))
    (hfull : (∀ i, s.tables.tab.stat i ≠ .UNUSED) → Q (-1) s)
    (hclear : F = [] → ∀ i j, s.tables.tab.stat i = .UNUSED → s.tables.tab.stat j = .UNUSED →
      Q (-1) ⟨s.tables.cleared j, s.phys, Function.update s.body i ⟨0, 0, 0, 0, 0⟩⟩)
    (hfail : ∀ np k F' m σ F₁ own₁, s.tables.tab.stat np = .UNUSED → F = k :: F' →
      F'.length < Mm.copyPages (s.body p).size → (∀ x, page x ≠ k → m x = s.phys.mem x) →
      Mm.Unmade L n { s.phys.take k with mem := m } F' (Function.update own k (.kstack np)) σ F₁ own₁ →
      (∀ f, refs stdio f ≤ ((s.tables.file f).raise (refs stdio f)).refcnt) →
      ∀ b, Q (-1) ⟨(s.tables.made np (some (s.tables.past.birth p))).freed np, σ.give k,
        Function.update s.body np b⟩)
    (hok : ∀ np k F' m σ g r u, s.tables.tab.stat np = .UNUSED → F = k :: F' →
      Mm.copyPages (s.body p).size ≤ F'.length → (∀ x, page x ≠ k → m x = s.phys.mem x) →
      (trapret < 2 ^ 32 → m.load32 (k + STACKSIZE - TRAPFRAME - CONTEXT + 16) = trapret) →
      Copied L n t ((KERNEND + (s.body p).size + 4095) / 4096) sp { s.phys.take k with mem := m }
        (Function.update own k (.kstack np)) σ g →
      Ended s p np k g.sp.dir σ u → r = (BitVec.ofNat 32 (u.tables.proc np).pid).toInt → Q r u) :
    wp E (sys_fork L trapret p) Q s := by
  simp only [sys_fork, wp_bind, wp_get]
  apply wp_palloc h.heap
  · exact fun hall => wp_pure.mpr (hfull hall)
  · exact fun hnil i j hi hj => wp_pure.mpr (hclear hnil i j hi hj)
  · intro np k F' m hnp hF hk hm hentry
    have hpage := h.heap.pages k (by rw [(h.heap.free k).mp (by simp [hF])]; simp)
    have hne : p ≠ np := by
      rintro rfl
      exact hp hnp
    obtain ⟨hheap, hspace⟩ := (hF ▸ h).stack (i := np) hm
    have hnew' : ∀ q, ¬ (Function.update own k (.kstack np) q).of n := Mm.not_of_update hnew id
    simp only [onPhys, onTables, setBody, wp_bind, wp_get, wp_zoom, wp_modify, Function.update_of_ne hne]
    have hcopy := Mm.wp_copyuvm (E := fun e => E (.mm e)) hheap hspace hnew' htn h.size h.copyable
    rw [h.pgdir] at hcopy
    refine wp_mono hcopy ?_
    rintro r σ (⟨hr, hroom, g, rfl, hc⟩ | ⟨rfl, hfew, F₁, own₁, hun⟩)
    · simp only [if_neg hr, wp_bind, wp_get, wp_zoom, wp_modify, Mm.memmove, Mm.store, Function.update_self,
        Function.update_idem]
      generalize hs₁ : (s.tables.made np (some (s.tables.past.birth p))).setProc np
        { (s.tables.made np (some (s.tables.past.birth p))).proc np with pproc := some p } = s₁
      obtain ⟨hproc₁, hpid₁, hofile₁, htab₁, hfile₁⟩ : s₁.proc p = s.tables.proc p ∧
          (s₁.proc np).pid = s.tables.nextpid ∧ (s₁.proc np).ofile = stdio ∧
          s₁.tab = (s.tables.made np (some (s.tables.past.birth p))).tab ∧
          ∀ f, s₁.file f = (s.tables.file f).raise (refs stdio f) := by
        subst hs₁
        simp [State.made, hne]
      apply wp_copyTables hne
      · intro f n hn hzero
        rw [hproc₁] at hn
        rw [hfile₁] at hzero
        exact hfdup f n hn hzero
      · rw [hproc₁]
        exact hidup
      · intro t' hproc htab hpid hofile
        rw [wp_pure]
        apply hok np k F' m σ g _ _ hnp hF hroom hm hentry hc
        · constructor
          case phys => rfl
          case child => simp
          case bodies =>
            intro q hq
            simp [hq]
          case stat => simp [htab, htab₁, State.made]
          case wchan =>
            intro q hq
            simp [htab, htab₁, State.made, hq]
          case proc => simp [hne, hproc, hproc₁]
          case pid => simp [hpid, hpid₁]
          case cwd => simp [hproc₁]
          case ofile => simp [hofile, hproc₁, hofile₁]
        · rfl
    · simp only [if_true, wp_bind, Function.update_self, Function.update_idem, wp_pure]
      apply wp_pfree
      · simp
      · simpa using hpage
      · simpa [State.made] using hffree2
      · intro henough
        simp only [Function.update_self, Function.update_idem]
        exact hfail np k F' m σ F₁ own₁ hnp hF hfew hm hun (by simpa [State.made] using henough) _

/-! ## What is promised -/

/-- `sys_fork` lacks a slot or memory and has failed, or it has made a copy. -/
def Faithful (s : State) (p : Slot) (F : List ℕ) (r : ℤ) (u : State) : Prop :=
  (Lacks s p F ∧ r = -1 ∧ Untouched s u) ∨
  ¬ Lacks s p F ∧ ∃ np, r = (BitVec.ofNat 32 (u.tables.proc np).pid).toInt ∧ Copy p np s u

/-- Process `np` will begin at `trapret`, with the trap frame at the end of its kernel stack. -/
structure Begins (L : Layout) (trapret : ℕ) (np : Slot) (u : State) : Prop where
  page : Mm.IsPage L (u.body np).kstack
  tf : (u.body np).tf = (u.body np).kstack + STACKSIZE - TRAPFRAME
  context : (u.body np).context = (u.body np).tf - CONTEXT
  entry : trapret < 2 ^ 32 → u.phys.mem.load32 ((u.body np).context + 16) = trapret

/-- `sys_fork` has failed, or it has made a copy that will begin. -/
def Forked (L : Layout) (trapret : ℕ) (s : State) (p : Slot) (F : List ℕ) (r : ℤ) (u : State) : Prop :=
  (Lacks s p F ∧ r = -1 ∧ Untouched s u) ∨
  ¬ Lacks s p F ∧ ∃ np, r = (BitVec.ofNat 32 (u.tables.proc np).pid).toInt ∧ Copy p np s u ∧
    Begins L trapret np u

/-- No file count is about to wrap around, and process `p` has a directory. -/
structure Steady (s : State) (p : Slot) : Prop where
  bounded : Bounded s.tables
  room : Room s.tables p true
  cwd : (s.tables.proc p).cwd ≠ none

/-- Then no panic of `ffree` is reached. -/
theorem Steady.ffree2 (h : Steady s p) (f : FileId) :
    ¬ ((s.tables.file f).raise (refs stdio f)).refcnt < refs stdio f := by
  have hroom := h.room f
  have hraise := File.raise_refcnt (s.tables.file f) (n := bootRefs f) (by omega)
  rw [refs_stdio_eq, hraise]
  simp only [if_true] at hroom
  omega

/-- Nor is one of `fdup`. -/
theorem Steady.fdup (h : Steady s p) (hbooks : Books s.tables) (hp : s.tables.tab.stat p ≠ .UNUSED)
    {f : FileId} {j : ℕ} (hj : j < refs (s.tables.proc p).ofile f) :
    (((s.tables.file f).raise (refs stdio f)).raise j).refcnt ≠ 0 := by
  have hroom := h.room f
  have hexact := hbooks.refcnt_eq h.bounded f
  have hle := refs_le_holders hp f
  have hraise := File.raise_refcnt (s.tables.file f) (n := bootRefs f) (by omega)
  have hraise' := File.raise_refcnt ((s.tables.file f).raise (bootRefs f)) (n := j)
    (hraise.trans_lt (Nat.mod_lt _ (by decide)))
  rw [refs_stdio_eq, hraise', hraise]
  simp only [if_true] at hroom
  omega

/-- So it is before the first fork. -/
theorem steady_of_books (hbooks : Books s.tables) (hforks : s.tables.past.forks = 0)
    (hcwd : (s.tables.proc p).cwd ≠ none) : Steady s p := by
  have hboot : ∀ f, bootRefs f ≤ 1 := by
    intro f
    rw [bootRefs]
    split <;> omega
  have hbounded : Bounded s.tables := by
    intro f
    have hle := holders_le s.tables f
    have hf := hboot f
    rw [hforks]
    omega
  refine ⟨hbounded, fun f => ?_, hcwd⟩
  have hexact := hbooks.refcnt_eq hbounded f
  have hle := holders_le s.tables f
  have hrefs := refs_le (s.tables.proc p).ofile f
  have hf := hboot f
  have hfiles : NOFILE = 32 := rfl
  rw [Fintype.card_fin] at hrefs
  rw [hforks] at hexact
  simp only [if_true]
  omega

/-- Every way through `sys_fork`, whatever is on the free list. -/
theorem wp_forked (h : Alive L s p F own t sp) (hbooks : Books s.tables)
    (hp : s.tables.tab.stat p = .RUN) :
    wp (fun e => OfTables e ∧ ¬ Steady s p) (sys_fork L trapret p) (Forked L trapret s p F) s := by
  have hused : s.tables.tab.stat p ≠ .UNUSED := by
    rw [hp]
    simp
  have hcount : ∀ f, (s.tables.file f).refcnt < 2 ^ 32 := by
    intro f
    rw [hbooks.2 f]
    exact Nat.mod_lt _ (by decide)
  obtain ⟨n, htn, hnew⟩ := h.heap.exists_fresh t
  apply wp_fork_points h hused hnew htn
  · exact fun f hlt => ⟨⟨_, rfl⟩, fun hsteady => hsteady.ffree2 f hlt⟩
  · exact fun f j hj hzero => ⟨⟨_, rfl⟩, fun hsteady => hsteady.fdup hbooks hused hj hzero⟩
  · exact fun hnone => ⟨⟨_, rfl⟩, fun hsteady => hsteady.cwd hnone⟩
  · exact fun hall => .inl ⟨.inl hall, rfl, fun i _ => .refl i s, fun _ hi => hi, fun _ => rfl, rfl⟩
  · rintro rfl i np hi hnp
    exact .inl ⟨.inr (by simp only [List.length_nil]; omega), rfl, .cleared hi hnp⟩
  · rintro np k F' m σ F₁ own₁ hnp rfl hfew hm hun henough b
    refine .inl ⟨.inr (by simp only [List.length_cons]; omega), rfl, .freed hcount hnp ?_ henough⟩
    intro q hq
    simp [hq]
  · rintro np k F' m σ g r u hnp rfl hroom hm hentry hc hended hr
    have hpage := h.heap.pages k (by rw [(h.heap.free k).mp (by simp)]; simp)
    have hne : p ≠ np := by
      rintro rfl
      exact hused hnp
    have hlacks : ¬ Lacks s p (k :: F') := by
      rintro (hall | hfew)
      · exact hall np hnp
      · simp only [List.length_cons] at hfew
        omega
    obtain ⟨hsame, hchild⟩ := h.copied hnew hm hc fun x hx => trapframe_of_ne hpage.1 hx
    have hstd := hbooks.1.std p (hbooks.1.ne_zero hp) hused
    have hbody := hended.child
    refine .inr ⟨hlacks, np, hr, ⟨?_, fun j hj => ?_, ?_, hended.pid, hended.cwd, ?_, ⟨hnp, ?_⟩,
      ⟨hended.proc, ?_, hended.wchan p hne, hended.bodies p hne⟩, ?_⟩, ?_, ?_, ?_, fun ht => ?_⟩
    · rw [hbody, hended.phys]
      exact hchild
    · rw [hbody, hended.phys]
      exact h.trapframe hnew hm hc.frame hj
    · rw [hbody]
    · rw [hended.ofile, overlay_stdio (by simp [hstd]) (by simp [hstd])]
    · simp [hended.stat]
    · simp [hended.stat, hne]
    · rw [hended.phys]
      exact hsame
    · rw [hbody]
      exact hpage
    · rw [hbody]
    · rw [hbody]
    · rw [hbody, hended.phys]
      exact h.entry hnew hc.frame (hentry ht)

theorem wp_sys_fork (h : Alive L s p F own t sp) (hbooks : Books s.tables)
    (hp : s.tables.tab.stat p = .RUN) :
    wp (fun e => OfTables e ∧ ¬ Steady s p) (sys_fork L trapret p) (Faithful s p F) s := by
  refine wp_mono (wp_forked h hbooks hp) fun r u hforked => ?_
  rcases hforked with hfailed | ⟨hlacks, np, hr, hcopy, -⟩
  · exact .inl hfailed
  · exact .inr ⟨hlacks, np, hr, hcopy⟩

/-- A process with all pages of its image is `Alive`, whatever calls have been made since
`kinit`. -/
theorem alive_of_path {m : Mem} {w₀ w : Mm.World} {q : Mm.Proc} {im : Mm.Image}
    (h0 : Mm.boot L m = .ok w₀) (h : (Mm.vmMachine L).Path (Mm.World.Allowed L) w₀ w)
    (hphys : s.phys = w.phys) (hq : w.proc p = some q) (him : w.space t = some im)
    (hkstack : (s.body p).kstack = q.kstack)
    (hpgdir : (s.body p).pgdir = im.pgdir) (htop : KERNEND + (s.body p).size = im.top)
    (htf : (s.body p).tf = q.kstack + STACKSIZE - TRAPFRAME)
    (himage : ∀ va, KERNEND ≤ va → va < im.top → translate w.phys im.pgdir va ≠ none) :
    ∃ F own sp, Alive L s p F own t sp := by
  obtain ⟨F, own, sp, hI⟩ := Mm.owned_of_path h0 h
  have hok := hI.image t im him
  refine ⟨F, own, sp t, ?_, ?_, ?_, ?_, ?_, ?_, ?_⟩
  · rw [hphys]
    exact hI.heap
  · rw [hphys]
    exact hok.space
  · rw [hok.dir, hpgdir]
  · rw [hkstack]
    exact hI.kstack p q hq
  · rw [htf, hkstack]
  · rw [htop]
    exact le_of_lt hok.high
  · rw [htop, hphys, hpgdir]
    exact himage

/-- **`sys_fork` copies faithfully, or does nothing.**  Whatever is free when a process with all
pages of its image calls it, the memory management does not panic, and no table does while the
process is `Steady`.  With a slot and enough memory, it returns the number of a process with a copy
of the image in frames of its own and with the trap frame, the files and the directory of the
parent, which has not changed; without, it returns -1, and no slot in use and no count has changed. -/
theorem fork_faithful (h : Alive L s p F own t sp) (hbooks : Books s.tables)
    (hp : s.tables.tab.stat p = .RUN) :
    (∀ e, sys_fork L trapret p s = .error e → OfTables e ∧ ¬ Steady s p) ∧
      ∀ r u, sys_fork L trapret p s = .ok (r, u) → Faithful s p F r u := by
  have hwp : wp (fun e => OfTables e ∧ ¬ Steady s p) (sys_fork L trapret p) (Faithful s p F) s :=
    wp_sys_fork h hbooks hp
  constructor
  · intro e he
    have hpanic := wp_error hwp he
    exact hpanic
  · intro r u hok
    exact wp_ok hwp hok

/-- Stores to its kernel stack and to its image leave a process in order. -/
theorem Alive.stores (h : Alive L s p F own t sp) {m : Mem}
    (hm : ∀ x, page x ≠ (s.body p).kstack → (∀ v, own (page x) ≠ .user t v) → m x = s.phys.mem x) :
    Alive L ⟨s.tables, { s.phys with mem := m }, s.body⟩ p F own t sp := by
  have hne : ∀ x tag, own (page x) = tag → (∀ q, tag ≠ .kstack q) → (∀ v, tag ≠ .user t v) →
      m x = s.phys.mem x := by
    rintro x _ rfl htag huser
    exact hm x (fun heq => htag p (heq ▸ h.kstack)) huser
  have hvm : Vm L t { s.phys with mem := m } ⟨F, own, sp⟩ := by
    apply h.vm.scribble
    rintro x (hx | hx | ⟨j, hx⟩) <;> exact hne x _ hx (by simp) (by simp)
  refine ⟨hvm.heap, hvm.space, h.pgdir, h.kstack, h.tf, h.size, fun va hlo hhi => ?_⟩
  have himage := h.image va hlo hhi
  have hva : va < 2 ^ 32 := by
    have hsize := h.size
    simp only [KERNEND, USEREND] at hsize hhi
    omega
  rw [← h.pgdir, h.vm.translate hva] at himage
  simp only
  rw [← h.pgdir, hvm.translate hva]
  exact himage

/-- The first process on the small machine, with an image of `size` bytes 7. -/
theorem exists_alive (tables : Syscall.State) (size : ℕ) (hsize : KERNEND + size < USEREND)
    (hroom : 1 + Mm.copyPages size ≤ 4096) : ∃ (s : State) (F : List ℕ) (own : ℕ → Tag) (sp : Space),
      s.tables = tables ∧ Alive Mm.smallLayout s 1 F own 0 sp ∧ (s.body 1).size = size ∧
        F.length + Mm.copyPages size + 1 = 4096 ∧ ∀ va, KERNEND ≤ va → va < KERNEND + size →
          ∃ a, translate s.phys (s.body 1).pgdir va = some a ∧ s.phys.mem a = 7 := by
  obtain ⟨w₀, F, -, hI, hnext, hlen⟩ := Mm.exists_bootSpaces Mm.smallLayout fun _ => 0
  have hnew := (hI.next 0 (by omega)).2
  replace hlen : F.length = 4096 := hlen
  cases F with
  | nil => cases hlen
  | cons k F =>
    rw [List.length_cons] at hlen
    have hheap := hI.heap.take (show Tag.kstack 1 ≠ .free by simp)
    have hnew' : ∀ q, ¬ (Function.update (Heap.upTo Mm.smallLayout Mm.MEMSIZE) k (.kstack 1) q).of 0 :=
      Mm.not_of_update hnew id
    obtain ⟨_, -, σ, g, -, -, rfl, -, hvm, hframe, hcount, hin⟩ :=
      hheap.exists_image hnew' size hsize (by omega)
    have htranslate : ∀ σ', Vm Mm.smallLayout 0 σ' ⟨g.free, g.own, g.sp⟩ → ∀ va, KERNEND ≤ va →
        va < KERNEND + size →
          translate σ' g.sp.dir va = some (PTE_ADDR (g.sp.pte (va / 4096)) + va % 4096) ∧
            g.own (PTE_ADDR (g.sp.pte (va / 4096))) = .user 0 (va / 4096) := by
      intro σ' hvm va hlo hhi
      have hva : va < 2 ^ 32 := by
        simp only [KERNEND, USEREND] at hsize hhi
        omega
      have hv : 0x40000 ≤ va / 4096 := by
        simp only [KERNEND] at hlo
        omega
      have hp := (hin (va / 4096) hv (by omega)).1
      rw [hvm.translate hva, if_pos hp]
      exact ⟨rfl, hvm.space.user _ hv hp⟩
    have hkstack : g.own k = .kstack 1 :=
      (hframe.kept_own hnew' (by simp)).trans (Function.update_self ..)
    let s : State := ⟨tables, σ, fun _ => ⟨size, g.sp.dir, k, k + STACKSIZE - TRAPFRAME, 0⟩⟩
    have halive : Alive Mm.smallLayout s 1 g.free g.own 0 g.sp := by
      refine ⟨hvm.heap, hvm.space, rfl, hkstack, rfl, le_of_lt hsize, fun va hlo hhi => ?_⟩
      rw [(htranslate σ hvm va hlo hhi).1]
      simp
    classical
    let m : Mem := fun x => if ∃ v, g.own (page x) = .user 0 v then 7 else σ.mem x
    have hstores : Alive Mm.smallLayout ⟨tables, { σ with mem := m }, s.body⟩ 1 g.free g.own 0 g.sp := by
      refine halive.stores fun x _ huser => if_neg ?_
      rintro ⟨v, hv⟩
      exact huser v hv
    refine ⟨⟨tables, { σ with mem := m }, s.body⟩, g.free, g.own, g.sp, rfl, hstores, rfl, by omega,
      fun va hlo hhi => ?_⟩
    obtain ⟨htrans, hown⟩ := htranslate _ hstores.vm va hlo hhi
    refine ⟨_, htrans, if_pos ⟨va / 4096, ?_⟩⟩
    rw [page_add (Mm.PTE_ADDR_mod _) (Nat.mod_lt _ (by decide))]
    exact hown

/-- Two forks of the first process: a copy of two pages, and no memory for a copy of nine megabytes. -/
theorem fork_faithful_boot : (∃ s r u np, s.tables.tab.stat 1 = .RUN ∧ (s.body 1).size = 5000 ∧
      (∀ va, KERNEND ≤ va → va < KERNEND + 5000 → ∃ a, translate s.phys (s.body 1).pgdir va = some a ∧
        s.phys.mem a = 7) ∧
      sys_fork Mm.smallLayout 0x1000 1 s = .ok (r, u) ∧
      r = (BitVec.ofNat 32 (u.tables.proc np).pid).toInt ∧ Copy 1 np s u) ∧
    ∃ s u, s.tables.tab.stat 1 = .RUN ∧ (s.body 1).size = 0x900000 ∧
      sys_fork Mm.smallLayout 0x1000 1 s = .ok (-1, u) ∧ Untouched s u := by
  obtain ⟨t₀, t, h0, hpath, hrun, hcwd, hforks, hun⟩ := exists_boot_run emptyDisk (fun _ _ => False) []
    (fun t => t.tab.stat 1 = .RUN ∧ (t.proc 1).cwd ≠ none ∧ t.past.forks = 0 ∧ t.tab.stat 2 = .UNUSED)
    (by decide +kernel)
  have hbooks := books_of_path h0 hpath
  constructor
  · obtain ⟨s, F, own, sp, rfl, halive, hsize, hlen, hbytes⟩ := exists_alive t 5000 (by decide) (by decide)
    have hlacks : ¬ Lacks s 1 F := by
      rintro (hall | hfew)
      · exact hall 2 hun
      · simp only [hsize, show Mm.copyPages 5000 = 132 from rfl] at hfew hlen
        omega
    obtain ⟨herror, hok⟩ := fork_faithful halive hbooks hrun
    rcases hcall : sys_fork Mm.smallLayout 0x1000 1 s with e | ⟨r, u⟩
    · exact absurd (steady_of_books hbooks hforks hcwd) (herror e hcall).2
    · rcases hok r u hcall with ⟨hcon, -⟩ | ⟨-, np, hr, hcopy⟩
      · exact absurd hcon hlacks
      · exact ⟨s, r, u, np, hrun, hsize, hbytes, hcall, hr, hcopy⟩
  · obtain ⟨s, F, own, sp, rfl, halive, hsize, hlen, -⟩ := exists_alive t 0x900000 (by decide) (by decide)
    have hlacks : Lacks s 1 F := by
      right
      simp only [hsize, show Mm.copyPages 0x900000 = 2436 from rfl] at hlen ⊢
      omega
    obtain ⟨herror, hok⟩ := fork_faithful halive hbooks hrun
    rcases hcall : sys_fork Mm.smallLayout 0x1000 1 s with e | ⟨r, u⟩
    · exact absurd (steady_of_books hbooks hforks hcwd) (herror e hcall).2
    · rcases hok r u hcall with ⟨-, rfl, huntouched⟩ | ⟨hcon, -⟩
      · exact ⟨s, u, hrun, hsize, hcall, huntouched⟩
      · exact absurd hlacks hcon

end Mixv6.Syscall.Fork
