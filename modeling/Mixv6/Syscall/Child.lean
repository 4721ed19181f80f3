import Mixv6.Kernel.Syscall
import Mixv6.Syscall.Fork

/-!
# `fork` returns twice

The process that calls `sys_fork` and the one that it makes go on in the same program, and with the
same registers but `eax`: the first one when it returns from its trap, the other one when somebody calls
`swtch` for it.

## Main definitions

* `Twice` — what the two go on with.
* `fork_returns_twice` — they do.
-/

namespace Mixv6.Syscall.Fork

open Mixv6.Lib Mixv6.Kernel
open Mixv6.Mm (Layout Space Tag KERNEND USEREND PAGESIZE page)
open Mixv6.Kernel.Trap (Regs St Framed Processor Procs First Fine Chosen procMachine UserRegs decode decode_copy result_user)

variable {L : Layout} {s u : State} {p np : Slot} {F : List ℕ} {own : ℕ → Tag} {t trapret : ℕ}
  {sp : Space} {m m' : Mem} {tf tf' : ℕ} {ts v : BitVec 32} {c : Regs}

/-! ## Trap frames -/

/-- `trapret` gives a program its registers. -/
theorem run_trapret {st : St} (hc : decode st.mem tf = c) (hesp : st.regs.esp.toNat = tf)
    (hcpl : st.regs.cpl = 0) (hbound : tf + TRAPFRAME < 2 ^ 32) (huser : UserRegs ts c) :
    Trap.run ts st Trap.trapret = ⟨c, st.mem⟩ := by
  have hframe : Framed st.mem st.regs.esp.toNat c := by
    rw [hesp, ← hc]
    exact Trap.framed_decode
  have hsize : Trap.size c = TRAPFRAME := if_pos huser.user
  have htop : st.regs.esp.toNat + Trap.size c = (BitVec.ofNat 32 (tf + TRAPFRAME)).toNat := by
    rw [hesp, hsize, BitVec.toNat_ofNat, Nat.mod_eq_of_lt hbound]
  refine Trap.trapret_frame hframe htop hcpl ⟨fun _ i => ?_, fun hcon => absurd huser.user hcon⟩
  rw [huser.cpl]
  exact huser.segs i

theorem Copy.decode_eq (h : Copy p np s u) (hu : 0 < (decode s.phys.mem (s.body p).tf).cpl) :
    decode u.phys.mem (u.body np).tf = { decode s.phys.mem (s.body p).tf with eax := 0 } := by
  apply decode_copy
  · have hzero : ∀ j < 4, u.phys.mem ((u.body np).tf + 28 + j) = 0 := by
      intro j hj
      rw [Nat.add_assoc, h.trapframe _ (by simp only [TRAPFRAME]; omega), if_pos (by omega)]
    have h0 := hzero 0 (by decide)
    simp only [Nat.add_zero] at h0
    simp only [Mem.load32, h0, hzero 1 (by decide), hzero 2 (by decide), hzero 3 (by decide)]
    rfl
  · intro j hj hne
    rw [h.trapframe j hj, if_neg hne]
  · exact hu

/-! ## The two returns -/

/-- Process `p`, which was interrupted with the registers `c`, gets them back with the result `r`.
Process `np` gets them with 0, whatever the others do until somebody calls `swtch` for it. -/
structure Twice (ts : BitVec 32) (c : Regs) (trapret : ℕ) (p np : Slot) (r : ℤ) (u : State) : Prop where
  parent : ∀ st : St, st.regs.cpl = 0 → st.regs.esp.toNat = (u.body p).tf →
    (∀ j < TRAPFRAME, st.mem ((u.body p).tf + j) =
      u.phys.mem.store32 ((u.body p).tf + 28) (BitVec.ofInt 32 r).toNat ((u.body p).tf + j)) →
    Trap.run ts st Trap.trapret = ⟨{ c with eax := BitVec.ofInt 32 r }, st.mem⟩
  child : ∀ K w, Chosen K np (u.body np).kstack (u.body np).context u.phys.mem w →
    w.procp = np ∧ w.st.regs.eip = BitVec.ofNat 32 trapret ∧
    ∃ x, Fine K w (.own np .start) ∧ (procMachine K).step w (.own np .start) = some x ∧
      x.procp = np ∧ x.st.regs = { c with eax := 0 } ∧ x.work np = []
  chosen : ∃ K w, Chosen K np (u.body np).kstack (u.body np).context u.phys.mem w

/-- The trap frame of the parent after `syscall`. -/
theorem Copy.decode_parent {st : St} {r : ℤ} (h : Alive L s p F own t sp) (hcopy : Copy p np s u)
    (hmem : ∀ j < TRAPFRAME, st.mem ((s.body p).tf + j) =
      u.phys.mem.store32 ((s.body p).tf + 28) (BitVec.ofInt 32 r).toNat ((s.body p).tf + j))
    (hu : 0 < (decode s.phys.mem (s.body p).tf).cpl) : decode st.mem (s.body p).tf =
      { decode s.phys.mem (s.body p).tf with eax := BitVec.ofInt 32 r } := by
  have hpage := h.heap.pages (s.body p).kstack (by rw [h.kstack]; simp)
  have hframe : TRAPFRAME = 76 := rfl
  apply decode_copy
  · refine Eq.trans (Mem.load32_congr fun j hj => ?_)
      (Mem.load32_store32 (m := u.phys.mem) (BitVec.isLt _))
    rw [Nat.add_assoc]
    exact hmem _ (by omega)
  · intro j hj hne
    rw [hmem j hj, Mem.store32_of_ne (by omega)]
    apply hcopy.space.stack
    have htf := h.tf
    have halign := hpage.1
    simp only [page, STACKSIZE] at htf ⊢
    omega
  · exact hu

theorem Begins.twice (hbegins : Begins L trapret np u) (htrapret : trapret < 2 ^ 32) {K : Processor Slot}
    {w : Procs Slot} (hdecode : decode u.phys.mem (u.body np).tf = c)
    (hw : Chosen K np (u.body np).kstack (u.body np).context u.phys.mem w) :
    w.procp = np ∧ w.st.regs.eip = BitVec.ofNat 32 trapret ∧
      ∃ x, Fine K w (.own np .start) ∧ (procMachine K).step w (.own np .start) = some x ∧
        x.procp = np ∧ x.st.regs = c ∧ x.work np = [] := by
  obtain ⟨s₀, a, b, v, fs, es, st, q, h₀, hs, hfork, hmem, hmade, hv, hswtch, hw⟩ := hw
  have hgood := (Trap.refines_work np).invariant h₀.good hs.path
  have hstack : Trap.STACKSIZE = STACKSIZE := rfl
  obtain ⟨hprocp, hcontext, x, hfine, hx, hprocpx, hregs, hwork⟩ :=
    hgood.begins hfork hmade hv hswtch hw
  have hframes : (u.body np).tf + 76 = (u.body np).kstack + STACKSIZE := by
    rw [hbegins.tf]
    simp only [STACKSIZE, TRAPFRAME]
    omega
  have hlow : (u.body np).context + 20 = (u.body np).tf := by
    rw [hbegins.context]
    simp only [STACKSIZE, CONTEXT] at hframes ⊢
    omega
  have hcontext' : w.st.regs.context = Trap.context st.mem (u.body np).context := by
    rw [hbegins.context, hbegins.tf]
    exact hcontext
  have hregs' : x.st.regs = decode st.mem (u.body np).tf := by
    rw [hbegins.tf]
    exact hregs
  have hentry : st.mem.load32 ((u.body np).context + 16) = trapret :=
    (Mem.load32_congr fun j hj => hmem _ (by omega) (by omega)).trans (hbegins.entry htrapret)
  have heip : w.st.regs.eip = BitVec.ofNat 32 (st.mem.load32 ((u.body np).context + 16)) :=
    congrArg Trap.Context.eip hcontext'
  have hsame : decode st.mem (u.body np).tf = decode u.phys.mem (u.body np).tf := by
    have hsize := Trap.size_le (decode u.phys.mem (u.body np).tf)
    exact Trap.decode_congr fun y hy hlt => hmem y (by omega) (by omega)
  rw [hentry] at heip
  rw [hsame, hdecode] at hregs'
  exact ⟨hprocp, heip, x, hfine, hx, hprocpx, hregs', hwork⟩

/-- A machine with the process table at 0. -/
def machineAt (ts : BitVec 32) : Processor Slot where
  ts := ts
  vectors _ := 0
  context p := 4 * p.val
  apart p q hne := by
    have hval : p.val ≠ q.val := fun heq => hne (Fin.ext heq)
    omega
  bound p := by
    have hlt := p.isLt
    have hslots : NPROC = 64 := rfl
    omega

/-- Process `p` runs alone, with the kernel stack `k`. -/
def alone (c : Regs) (p : Slot) (k : ℕ) : Procs Slot where
  st := ⟨c, fun _ => 0⟩
  procp := p
  kstack _ := k
  frames _ := []
  parked _ := none

/-- The child can be chosen. -/
theorem Begins.exists_chosen (hbegins : Begins L trapret np u) (hne : p ≠ np) (hc : UserRegs ts c)
    (huser : UserRegs ts (decode u.phys.mem (u.body np).tf)) :
    ∃ K w, Chosen K np (u.body np).kstack (u.body np).context u.phys.mem w := by
  have hstack : Trap.STACKSIZE = 4096 := rfl
  have hcells : ∀ q, (machineAt ts).context q + 4 ≤ 4096 := by
    intro q
    have hlt := q.isLt
    have hslots : NPROC = 64 := rfl
    simp only [machineAt]
    omega
  have hpos := hbegins.page.pos
  have hlow : (u.body np).kstack ≤ (u.body np).context := by
    rw [hbegins.context, hbegins.tf]
    simp only [STACKSIZE, TRAPFRAME, CONTEXT]
    omega
  have hpage := hbegins.page
  simp only [Mm.IsPage, Mm.MEMSIZE] at hpage
  -- the page below the child's stack, or the one above
  obtain ⟨k, hk, hbelow, hbeside⟩ : ∃ k, k + 4096 < 2 ^ 32 ∧ 4096 ≤ k ∧
      ((u.body np).kstack + 4096 ≤ k ∨ k + 4096 ≤ (u.body np).kstack) := by
    by_cases hfirst : (u.body np).kstack = 4096
    · exact ⟨8192, by decide, by decide, .inl (by omega)⟩
    · exact ⟨4096, by decide, by decide, .inr (by omega)⟩
  have hfirst : First (machineAt ts) (alone c p k) :=
    ⟨hc, fun _ => rfl, fun _ => rfl, .inr ((hcells p).trans hbelow), hk⟩
  rw [hbegins.tf] at huser
  obtain ⟨w, hw⟩ := hfirst.chosen hlow huser hne.symm (by omega) hbeside
    (.inr ((hcells p).trans (by omega))) (.inr ((hcells np).trans hbelow))
    (.inr ((hcells np).trans (by omega)))
  exact ⟨machineAt ts, w, hw⟩

/-- **`fork` returns twice.**  The parent goes on with the number of the child, and the child with 0; the
other registers of both are those of the parent's call. -/
theorem fork_returns_twice (h : Alive L s p F own t sp) (hbooks : Books s.tables)
    (hp : s.tables.tab.stat p = .RUN) (htrapret : trapret < 2 ^ 32)
    (hc : decode s.phys.mem (s.body p).tf = c) (huser : UserRegs ts c) :
    ∀ r u, sys_fork L trapret p s = .ok (r, u) → (Lacks s p F ∧ r = -1 ∧ Untouched s u) ∨
      ¬ Lacks s p F ∧ ∃ np, s.tables.tab.stat np = .UNUSED ∧
        r = (BitVec.ofNat 32 (u.tables.proc np).pid).toInt ∧ Twice ts c trapret p np r u := by
  intro r u hok
  have hforked : Forked L trapret s p F r u := wp_ok (wp_forked h hbooks hp) hok
  rcases hforked with hfailed | ⟨hlacks, np, hr, hcopy, hbegins⟩
  · exact .inl hfailed
  subst hc
  have huser' : UserRegs ts (decode u.phys.mem (u.body np).tf) := by
    rw [hcopy.decode_eq huser.user]
    exact (result_user huser)
  refine .inr ⟨hlacks, np, hcopy.slot.1, hr, fun st hcpl hesp hmem => ?_, fun K w hw => ?_, ?_⟩
  · rw [hcopy.parent.body] at hesp hmem
    have hpage := h.heap.pages (s.body p).kstack (by rw [h.kstack]; simp)
    have hbound : (s.body p).tf + TRAPFRAME < 2 ^ 32 := by
      have htf := h.tf
      simp only [Mm.IsPage, Mm.MEMSIZE, STACKSIZE, TRAPFRAME] at hpage htf ⊢
      omega
    exact run_trapret (hcopy.decode_parent h hmem huser.user) hesp hcpl hbound (result_user huser)
  · exact hbegins.twice htrapret (hcopy.decode_eq huser.user) hw
  · have hne : p ≠ np := by
      rintro rfl
      rw [hcopy.slot.1] at hp
      cases hp
    exact hbegins.exists_chosen hne huser huser'

/-! ## A fork -/

/-- The first process of the small machine has called `int 64` with the registers `c`. -/
theorem exists_called (tables : Syscall.State) (huser : UserRegs ts c) :
    ∃ (s : State) (F : List ℕ) (own : ℕ → Tag) (sp : Space), s.tables = tables ∧
      Alive Mm.smallLayout s 1 F own 0 sp ∧ (s.body 1).size = 5000 ∧ F.length + 133 = 4096 ∧
      decode s.phys.mem (s.body 1).tf = c := by
  obtain ⟨s, F, own, sp, rfl, halive, hsize, hlen, -⟩ := exists_alive tables 5000 (by decide) (by decide)
  have hpage := halive.heap.pages (s.body 1).kstack (by rw [halive.kstack]; simp)
  have htf := halive.tf
  simp only [Mm.IsPage, Mm.MEMSIZE] at hpage
  simp only [STACKSIZE, TRAPFRAME] at htf
  -- The processor finds the end of the kernel stack in the task state.
  let tables : Trap.Tables := ⟨ts, BitVec.ofNat 32 ((s.body 1).kstack + 4096), fun _ => 0⟩
  let program : Trap.Running := ⟨⟨c, s.phys.mem⟩, []⟩
  have htop : (Trap.top tables c).toNat = (s.body 1).kstack + 4096 := by
    rw [Trap.top, if_pos huser.user, BitVec.toNat_ofNat, Nat.mod_eq_of_lt (by omega)]
  have hentered : ∃ tf, Trap.Entered tables program 64
      (program.enter tables 64 (Trap.interrupt tables 64 0 program.st)) tf :=
    Trap.entered (htop ▸ by omega)
  obtain ⟨tf, hcall⟩ := hentered
  generalize program.enter tables 64 (Trap.interrupt tables 64 0 program.st) = v at hcall
  have hdecode := hcall.decode_eq (.of_user rfl huser)
  have hend : tf + Trap.size c = (Trap.top tables c).toNat := hcall.top
  have hframe : tf = (s.body 1).tf := by
    rw [Trap.size, if_pos huser.user, htop] at hend
    omega
  rw [hframe] at hdecode
  refine ⟨⟨s.tables, { s.phys with mem := v.st.mem }, s.body⟩, F, own, sp, rfl, halive.stores fun x hx _ => ?_,
    hsize, hlen, hdecode⟩
  have hrange : x < (Trap.top tables c).toNat - 80 ∨ (Trap.top tables c).toNat ≤ x := by
    rw [htop]
    simp only [page] at hx
    omega
  exact hcall.stack x hrange

/-- The registers of a program. -/
def forkRegs : Regs := Trap.program.st.regs

/-- A fork on the small machine, by a program with a number in every register. -/
theorem fork_returns_twice_boot : ∃ s r u np, s.tables.tab.stat 1 = .RUN ∧ (s.body 1).size = 5000 ∧
    decode s.phys.mem (s.body 1).tf = forkRegs ∧
    sys_fork Mm.smallLayout 0x1000 1 s = .ok (r, u) ∧ s.tables.tab.stat np = .UNUSED ∧
    r = (BitVec.ofNat 32 (u.tables.proc np).pid).toInt ∧ Twice Trap.tables.ts forkRegs 0x1000 1 np r u := by
  obtain ⟨t₀, t, h0, hpath, hrun, hcwd, hforks, hun⟩ := exists_boot_run emptyDisk (fun _ _ => False) []
    (fun t => t.tab.stat 1 = .RUN ∧ (t.proc 1).cwd ≠ none ∧ t.past.forks = 0 ∧ t.tab.stat 2 = .UNUSED)
    (by decide +kernel)
  have hbooks := books_of_path h0 hpath
  have huser : UserRegs Trap.tables.ts forkRegs := Trap.program_user
  obtain ⟨s, F, own, sp, rfl, halive, hsize, hlen, hdecode⟩ := exists_called t huser
  have hlacks : ¬ Lacks s 1 F := by
    rintro (hall | hfew)
    · exact hall 2 hun
    · simp only [hsize, show Mm.copyPages 5000 = 132 from rfl] at hfew
      omega
  rcases hcall : sys_fork Mm.smallLayout 0x1000 1 s with e | ⟨r, u⟩
  · have hsteady := (wp_error (wp_forked halive hbooks hrun) hcall).2
    exact absurd (steady_of_books hbooks hforks hcwd) hsteady
  · rcases fork_returns_twice halive hbooks hrun (by decide) hdecode huser r u hcall with ⟨hcon, -⟩ | ⟨-, np, h⟩
    · exact absurd hcon hlacks
    · exact ⟨s, r, u, np, hrun, hsize, hdecode, hcall, h⟩

end Mixv6.Syscall.Fork
