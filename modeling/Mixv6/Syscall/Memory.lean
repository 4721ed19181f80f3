import Mixv6.Lib.Refine
import Mixv6.Syscall.Arguments
import Mixv6.Syscall.Fork

/-!
# The memory of the processes

All processes with their address spaces, in any run of `sys_fork`, `sys_execv`, `pfree` and the
stores of the programs.  To each of them its memory is its own: the machine refines one of private
cells, where a fork copies a cell, `execv` and the stores change the cell of their process, and
`pfree` drops one.  The size that is recorded is that of the memory, so that a fork finds every page
that it copies.

## Main definitions

* `Op`, `exec`, `Allowed` — what happens.
* `Image`, `view` — what a process has in memory.
* `Living`, `Order` — the invariant.
* `Means`, `refines` — the refinement.
-/

namespace Mixv6.Syscall.Fork

open Mixv6.Lib Mixv6.Kernel
open Mixv6.Mm (page_add Phys Layout Heap SpaceOk Space Tag Ghost Vm KERNEND USEREND PAGESIZE PTE_ADDR page
  present translate entryOf isUser IsPage Frame Undisturbed peek)
open Mixv6.Syscall.User (Env SafeFile Given Fits Decodes find)

/-! ## The machine -/

/-- Process `p` has an address space. -/
def Has (s : State) (p : Slot) : Prop := s.tables.tab.stat p ≠ .UNUSED ∧ (s.body p).pgdir ≠ 0

instance decidableHas (s : State) (p : Slot) : Decidable (Has s p) :=
  inferInstanceAs (Decidable (_ ∧ _))

/-- The byte at an address of the user half. -/
def user (σ : Phys) (d a : ℕ) : Option UInt8 :=
  if KERNEND ≤ a ∧ a < 2 ^ 32 then peek σ d a else none

/-- The state of a call of process `p`. -/
def caller (s : State) (p : Slot) : User.State where
  mem a := (user s.phys (s.body p).pgdir a).getD 0
  user v := (entryOf s.phys (s.body p).pgdir (4096 * v)).any fun e => present e && isUser e
  tables := s.tables
  phys := s.phys
  esp := s.phys.mem.load32 ((s.body p).tf + 68)
  eip := s.phys.mem.load32 ((s.body p).tf + 56)
  pgdir := (s.body p).pgdir
  size := (s.body p).size
  lock := none
  stored := []
  screen := []

/-- The state after it. -/
def returned (s : State) (p : Slot) (u : User.State) : State where
  tables := u.tables
  phys := { u.phys with
    mem := (u.phys.mem.store32 ((s.body p).tf + 68) u.esp).store32 ((s.body p).tf + 56) u.eip }
  body := Function.update s.body p { s.body p with pgdir := u.pgdir, size := u.size }

/-- What happens. -/
inductive Op
  /-- `sys_fork` of process `p`, which returns `r`. -/
  | fork (p : Slot) (r : ℤ)
  /-- `sys_execv` of process `p` with an array of the strings `args`, which returns `r`. -/
  | execv (p : Slot) (env : Env) (args : List (List UInt8)) (r : ℤ)
  | pfree (p : Slot)
  /-- A store to an address of process `p`, by its program or by a call that it has made. -/
  | store (p : Slot) (a : ℕ) (b : UInt8)
  /-- What the other calls do to the tables. -/
  | tables (t : Syscall.State)
  /-- What the kernel stores to its own memory. -/
  | kernel (m : Mem)

/-- A step; there is none where the kernel stops. -/
def exec (L : Layout) (trapret : ℕ) (s : State) : Op → Option State
  | .fork p r => (sys_fork L trapret p s).toOption.bind fun x => if x.1 = r then some x.2 else none
  | .execv p env _ r => (User.sys_execv { env with L, proc := p } (caller s p)).toOption.bind fun x =>
      if x.1 = r then some (returned s p x.2) else none
  | .pfree p => (pfree L p s).toOption.map Prod.snd
  | .store p a b => (translate s.phys (s.body p).pgdir a).map fun x =>
      { s with phys := { s.phys with mem := Function.update s.phys.mem x b } }
  | .tables t => some { s with tables := t }
  | .kernel m => some { s with phys := { s.phys with mem := m } }

/-- What the processes do.  The number of a child is not the -1 of a failure.  The files of `execv`
are linked as `usr/user.ls` says, and their arguments fit; the other calls make no slot used or
unused, and what the kernel stores goes neither to the memory of a process nor to a free page. -/
def Allowed (L : Layout) (s : State) : Op → Prop
  | .fork p _ => Has s p ∧ (BitVec.ofNat 32 s.tables.nextpid).toInt ≠ -1
  | .execv p env args _ => Has s p ∧ ∀ argv o w,
      find { env with L, proc := p } (caller s p) = .ok ((argv, o), w) →
        (∀ ip ∈ o, SafeFile (w.fileOf { env with L, proc := p } ip)) ∧
          Given (caller s p) argv args ∧ Fits (caller s p) argv args
  | .pfree p => Has s p
  | .store p a _ => Has s p ∧ KERNEND ≤ a ∧ a < 2 ^ 32
  | .tables t => ∀ p, t.tab.stat p = .UNUSED ↔ s.tables.tab.stat p = .UNUSED
  | .kernel m => ∀ x, m x ≠ s.phys.mem x →
      ¬ IsPage L (page x) ∨ ∃ p, Has s p ∧ page x = (s.body p).kstack

def machine (L : Layout) (trapret : ℕ) : Machine State Op where
  step := exec L trapret

/-! ## Private memories -/

/-- What a process has: its memory, where it is mapped, and the size that is recorded. -/
structure Image where
  size : ℕ
  byte : ℕ → Option UInt8

def Image.store (a : ℕ) (b : UInt8) (im : Image) : Image :=
  { im with byte := Function.update im.byte a (some b) }

/-- What the processes have. -/
def view (s : State) (p : Slot) : Option Image :=
  if Has s p then some ⟨(s.body p).size, user s.phys (s.body p).pgdir⟩ else none

/-- What the steps mean to the memories.  The result tells whether `fork` and `execv` have failed; the
program finds its arguments on the last page. -/
def Means : Op → CellOp Slot Image → Prop
  | .fork p r, d => if r = -1 then d = .rest else ∃ np, d = .copy p np
  | .execv p _ args r, d => r = -1 ∧ d = .rest ∨ r = 0 ∧ ∃ im esp, d = .change p (fun _ => im) ∧
      Decodes im.byte (KERNEND + im.size - PAGESIZE) (KERNEND + im.size) esp args
  | .pfree p, d => d = .drop p
  | .store p a b, d => d = .change p (Image.store a b)
  | .tables _, d => d = .rest
  | .kernel _, d => d = .rest

/-! ## The invariant -/

/-- The pages of process `p` with address space `k`. -/
def Mine (k : ℕ) (p : Slot) (tag : Tag) : Prop := tag.of k ∨ tag = .kstack p

/-- Process `p` has its kernel stack, and the address space `k` with all pages of its image, and no
others. -/
structure Living (own : ℕ → Tag) (k : ℕ) (sp : Space) (s : State) (p : Slot) : Prop where
  space : SpaceOk own k sp s.phys.mem
  pgdir : sp.dir = (s.body p).pgdir
  kstack : own (s.body p).kstack = .kstack p
  tf : (s.body p).tf = (s.body p).kstack + STACKSIZE - TRAPFRAME
  size : KERNEND + (s.body p).size ≤ USEREND
  filled : sp.Filled (KERNEND + (s.body p).size)

/-- Process `p` keeps its kernel stack and its address space `k`, with the bytes of the latter. -/
def Spared (k : ℕ) (s : State) (p : Slot) (own own' : ℕ → Tag) (m : Mem) : Prop :=
  own' (s.body p).kstack = .kstack p ∧ Undisturbed (Tag.of k) own s.phys.mem own' m

/-- The allocator and all processes are in order. -/
structure Order (L : Layout) (s : State) (F : List ℕ) (own : ℕ → Tag) (key : Slot → ℕ) (sp : Slot → Space) :
    Prop where
  heap : Heap L s.phys F own
  living : ∀ p, Has s p → Living own (key p) (sp p) s p
  inj : ∀ p q, Has s p → Has s q → key p = key q → p = q

variable {L : Layout} {s t u : State} {p q np : Slot} {F F' : List ℕ} {own own' : ℕ → Tag} {k n a trapret : ℕ}
  {sp sp' : Space} {σ σ' : Phys} {m m' : Mem} {key : Slot → ℕ} {sps : Slot → Space} {tag : Tag}

namespace Living

/-- The bytes of the user half. -/
theorem user_eq (h : Living own k sp s p) (hheap : Heap L s.phys F own) : user s.phys (s.body p).pgdir a =
    if KERNEND ≤ a ∧ a < 2 ^ 32 ∧ present (sp.pte (a / 4096)) then some (sp.byte s.phys.mem a) else none := by
  have hvm : Vm L k s.phys ⟨F, own, sp⟩ := ⟨hheap, h.space⟩
  rw [user, ← h.pgdir]
  by_cases ha : KERNEND ≤ a ∧ a < 2 ^ 32
  · rw [if_pos ha, hvm.peek ha.2]
    simp only [ha.1, ha.2, true_and]
  · rw [if_neg ha, if_neg fun hcon => ha ⟨hcon.1, hcon.2.1⟩]

/-- The pages of a process are spared, with what is on its kernel stack. -/
theorem spared (h : Living own k sp s p) (hu : Undisturbed (Mine k p) own s.phys.mem own' m) :
    Spared k s p own own' m := by
  refine ⟨?_, hu.mono fun _ => .inl⟩
  rw [hu.owner _ (.inl (.inr h.kstack)), h.kstack]

/-- A process that has been spared. -/
theorem undisturbed (h : Living own k sp s p) (hheap : Heap L s.phys F own) (hheap' : Heap L t.phys F' own')
    (hu : Spared k s p own own' t.phys.mem) (hbody : t.body p = s.body p) :
    Living own' k sp t p ∧ user t.phys (t.body p).pgdir = user s.phys (s.body p).pgdir := by
  have halign : ∀ p, own p ≠ .out → p % 4096 = 0 := fun p hp => (hheap.pages p hp).1
  obtain ⟨hstack, hspace⟩ := hu
  have hliving : Living own' k sp t p :=
    ⟨h.space.undisturbed hspace halign, hbody ▸ h.pgdir, hbody ▸ hstack, hbody ▸ h.tf, hbody ▸ h.size,
      hbody ▸ h.filled⟩
  refine ⟨hliving, funext fun a => ?_⟩
  rw [hliving.user_eq hheap', h.user_eq hheap]
  by_cases hcon : KERNEND ≤ a ∧ a < 2 ^ 32 ∧ present (sp.pte (a / 4096))
  · rw [if_pos hcon, if_pos hcon, h.space.byte_undisturbed hspace hcon.1 hcon.2.2]
  · rw [if_neg hcon, if_neg hcon]

end Living

namespace Order

theorem align (h : Order L s F own key sps) : ∀ p, own p ≠ .out → p % 4096 = 0 :=
  fun p hp => (h.heap.pages p hp).1

/-- An address space without pages is none of those that there are. -/
theorem key_ne (h : Order L s F own key sps) (hnew : ∀ q, ¬ (own q).of n) (hp : Has s p) : key p ≠ n := by
  rintro rfl
  have hdir := (h.living p hp).space.own_dir
  exact hnew _ (by rw [hdir]; rfl)

/-- All processes have been spared. -/
theorem same (h : Order L s F own key sps) (hheap : Heap L t.phys F' own')
    (hhas : ∀ q, Has t q ↔ Has s q)
    (hu : ∀ q, Has s q → t.body q = s.body q ∧ Spared (key q) s q own own' t.phys.mem) :
    Order L t F' own' key sps ∧ view t = view s := by
  have hliving : ∀ q, Has s q → Living own' (key q) (sps q) t q ∧
      user t.phys (t.body q).pgdir = user s.phys (s.body q).pgdir := fun q hq =>
    (h.living q hq).undisturbed h.heap hheap (hu q hq).2 (hu q hq).1
  refine ⟨⟨hheap, fun q hq => (hliving q ((hhas q).mp hq)).1, fun p q hp hq =>
    h.inj p q ((hhas p).mp hp) ((hhas q).mp hq)⟩, funext fun q => ?_⟩
  by_cases hq : Has s q
  · rw [view, view, if_pos ((hhas q).mpr hq), if_pos hq, (hliving q hq).2, (hu q hq).1]
  · rw [view, view, if_neg fun hcon => hq ((hhas q).mp hcon), if_neg hq]

/-- All processes but `p`, which is in order as well, have been spared. -/
theorem next (h : Order L s F own key sps) (hheap : Heap L t.phys F' own')
    (hhas : ∀ q, q ≠ p → (Has t q ↔ Has s q))
    (hu : ∀ q, q ≠ p → Has s q → t.body q = s.body q ∧ Spared (key q) s q own own' t.phys.mem)
    (hp : Has t p → Living own' k sp t p ∧ ∀ q, q ≠ p → Has s q → key q ≠ k) :
    Order L t F' own' (Function.update key p k) (Function.update sps p sp) ∧
      view t = Function.update (view s) p (view t p) := by
  have hliving : ∀ q, q ≠ p → Has s q → Living own' (key q) (sps q) t q ∧
      user t.phys (t.body q).pgdir = user s.phys (s.body q).pgdir := fun q hne hq =>
    (h.living q hq).undisturbed h.heap hheap (hu q hne hq).2 (hu q hne hq).1
  refine ⟨⟨hheap, fun q hq => ?_, fun i j hi hj hkey => ?_⟩, funext fun q => ?_⟩
  · by_cases hqp : q = p
    · subst hqp
      rw [Function.update_self, Function.update_self]
      exact (hp hq).1
    · rw [Function.update_of_ne hqp, Function.update_of_ne hqp]
      exact (hliving q hqp ((hhas q hqp).mp hq)).1
  · by_cases hip : i = p
    · subst hip
      by_contra hji
      have hne : j ≠ i := fun heq => hji heq.symm
      rw [Function.update_self, Function.update_of_ne hne] at hkey
      exact (hp hi).2 j hne ((hhas j hne).mp hj) hkey.symm
    · rw [Function.update_of_ne hip] at hkey
      by_cases hjp : j = p
      · subst hjp
        rw [Function.update_self] at hkey
        exact absurd hkey ((hp hj).2 i hip ((hhas i hip).mp hi))
      · rw [Function.update_of_ne hjp] at hkey
        exact h.inj i j ((hhas i hip).mp hi) ((hhas j hjp).mp hj) hkey
  · by_cases hqp : q = p
    · subst hqp
      rw [Function.update_self]
    · rw [Function.update_of_ne hqp]
      by_cases hq : Has s q
      · rw [view, view, if_pos ((hhas q hqp).mpr hq), if_pos hq, (hliving q hqp hq).2, (hu q hqp hq).1]
      · rw [view, view, if_neg fun hcon => hq ((hhas q hqp).mp hcon), if_neg hq]

end Order

/-! ## `sys_fork` -/

theorem Order.alive (h : Order L s F own key sps) (hp : Has s p) : Alive L s p F own (key p) (sps p) := by
  have hl := h.living p hp
  have hsize := hl.size
  have hvm : Vm L (key p) s.phys ⟨F, own, sps p⟩ := ⟨h.heap, hl.space⟩
  refine ⟨h.heap, hl.space, hl.pgdir, hl.kstack, hl.tf, hsize, fun va hlo hhi => ?_⟩
  simp only [KERNEND, USEREND] at hlo hhi hsize
  have hpresent : present ((sps p).pte (va / 4096)) := by
    apply (hl.filled (va / 4096) (by omega)).mpr
    simp only [KERNEND]
    omega
  have hva : va < 2 ^ 32 := by omega
  rw [← hl.pgdir, hvm.translate hva, if_pos hpresent]
  simp

/-- The pages of a process are neither free nor of an address space without pages, nor those of the stack
of another process. -/
theorem Mine.ne {key : ℕ} (h : Mine key q tag) : tag ≠ .free ∧ (∀ n, key ≠ n → ¬ tag.of n) ∧
    ∀ i : Slot, q ≠ i → tag ≠ .kstack i := by
  rcases h with h | rfl
  · cases tag <;> simp_all [Tag.of]
  · refine ⟨by simp, fun n _ => by simp [Tag.of], fun i hne heq => hne ?_⟩
    rw [Tag.kstack.injEq] at heq
    exact Fin.ext heq

theorem not_mine_kstack (hne : q ≠ np) : ¬ Mine k q (.kstack np) := fun h => h.ne.2.2 np hne rfl

theorem not_mine_free : ¬ Mine k q .free := fun h => h.ne.1 rfl

/-- Page `pg` has become the stack of process `np`, and address space `n` has been at work. -/
theorem undisturbed_stack {pg : ℕ} (hfree : own pg = .free) (hm : ∀ x, page x ≠ pg → m x = s.phys.mem x)
    (hf : Frame n { s.phys.take pg with mem := m } (Function.update own pg (.kstack np)) σ own')
    (hkn : k ≠ n) (hne : q ≠ np) : Undisturbed (Mine k q) own s.phys.mem own' σ.mem := by
  have htake : Undisturbed (Mine k q) own s.phys.mem (Function.update own pg (.kstack np)) m :=
    .retag (hfree ▸ not_mine_free) (not_mine_kstack hne) hm
  exact htake.trans (.of_frame hf fun tag htag => ⟨htag.ne.1, htag.ne.2.1 n hkn⟩)

/-- What is stored to the stack of a process does not disturb the others. -/
theorem vm_stack {pg : ℕ} {g : Ghost} (h : Vm L n σ g) (hown : g.own pg = .kstack np)
    (hm : ∀ x, page x ≠ pg → m x = σ.mem x) : Vm L n { σ with mem := m } g := by
  apply h.scribble
  rintro x hx
  apply hm
  rintro rfl
  rw [hown] at hx
  simp at hx

/-- The child of process `p`. -/
theorem Order.child {pg : ℕ} {g : Ghost} (h : Order L s (pg :: F) own key sps) (hp : Has s p)
    (hnp : ¬ Has s np) (hnew : ∀ q, ¬ (own q).of n) (hm : ∀ x, page x ≠ pg → m x = s.phys.mem x)
    (hc : Mm.Copied L n (key p) ((KERNEND + (s.body p).size + 4095) / 4096) (sps p)
      { s.phys.take pg with mem := m } (Function.update own pg (.kstack np)) σ g)
    (hm' : ∀ x, page x ≠ pg → m' x = σ.mem x) (hphys : t.phys = { σ with mem := m' })
    (hstat : t.tables.tab.stat np ≠ .UNUSED)
    (hothers : ∀ q, q ≠ np → t.tables.tab.stat q = s.tables.tab.stat q ∧ t.body q = s.body q)
    (hbody : (t.body np).size = (s.body p).size ∧ (t.body np).pgdir = g.sp.dir ∧ (t.body np).kstack = pg ∧
      (t.body np).tf = pg + STACKSIZE - TRAPFRAME) :
    Order L t g.free g.own (Function.update key np n) (Function.update sps np g.sp) ∧
      view t = Function.update (view s) np (view s p) := by
  have hlp := h.living p hp
  have hsize := hlp.size
  have hfree : own pg = .free := (h.heap.free pg).mp (by simp)
  have hne : p ≠ np := by
    rintro rfl
    exact hnp hp
  have hstack : g.own pg = .kstack np := by
    obtain ⟨new, hf⟩ := hc.frame
    rw [hf.others pg (by simp) (by simp [Tag.of]), Function.update_self]
  have hvm : Vm L n t.phys g := hphys ▸ vm_stack hc.vm hstack hm'
  have hmem : t.phys.mem = m' := by rw [hphys]
  have hhas : Has t np := ⟨hstat, by rw [hbody.2.1]; exact hvm.dir_ne⟩
  have hliving : Living g.own n g.sp t np := by
    refine ⟨hvm.space, hbody.2.1.symm, hbody.2.2.1 ▸ hstack, by rw [hbody.2.2.1, hbody.2.2.2], ?_, ?_⟩
    · rw [hbody.1]
      exact hsize
    · intro v hv
      rw [hbody.1]
      simp only [KERNEND] at hc ⊢
      constructor
      · intro hpresent
        by_contra hcon
        exact hc.above v (by omega) hpresent
      · intro hlt
        exact (hc.below v hv (by omega)).new
  have hu : ∀ q, q ≠ np → Has s q → Undisturbed (Mine (key q) q) own s.phys.mem g.own t.phys.mem := by
    intro q hqn hq
    refine (undisturbed_stack hfree hm hc.frame (h.key_ne hnew hq) hqn).trans (.write fun x hx => ?_)
    rw [hmem]
    apply hm'
    rintro rfl
    exact not_mine_kstack hqn (hstack ▸ hx)
  have hiff : ∀ q, q ≠ np → (Has t q ↔ Has s q) := by
    intro q hqn
    rw [Has, Has, (hothers q hqn).1, (hothers q hqn).2]
  obtain ⟨hnext, hview⟩ := h.next (p := np) hvm.heap hiff
    (fun q hqn hq => ⟨(hothers q hqn).2, (h.living q hq).spared (hu q hqn hq)⟩)
    fun _ => ⟨hliving, fun q _ hq => h.key_ne hnew hq⟩
  refine ⟨hnext, hview.trans (congrArg _ ?_)⟩
  rw [view, view, if_pos hhas, if_pos hp, hbody.1]
  congr 2
  funext a
  have hua := hliving.user_eq (a := a) hvm.heap
  rw [hua, hlp.user_eq h.heap]
  have hpresent : KERNEND ≤ a → (present (g.sp.pte (a / 4096)) ↔ present ((sps p).pte (a / 4096))) := by
    intro hlo
    simp only [KERNEND] at hlo
    rw [hliving.filled _ (by omega), hlp.filled _ (by omega), hbody.1]
  by_cases ha : KERNEND ≤ a ∧ a < 2 ^ 32 ∧ present (g.sp.pte (a / 4096))
  · have hold := (hpresent ha.1).mp ha.2.2
    rw [if_pos ha, if_pos ⟨ha.1, ha.2.1, hold⟩]
    have hlt := (hlp.filled (a / 4096) (by have hlo := ha.1; simp only [KERNEND] at hlo; omega)).mp hold
    have hcopy := hc.below (a / 4096) (by have hlo := ha.1; simp only [KERNEND] at hlo; omega) (by omega)
    have hchild : g.sp.byte t.phys.mem a = g.sp.byte σ.mem a := by
      apply hc.vm.space.byte_undisturbed (.write fun x hx => ?_) ha.1 ha.2.2
      rw [hmem]
      apply hm'
      rintro rfl
      rw [hstack] at hx
      exact hx
    have hparent : (sps p).byte σ.mem a = (sps p).byte s.phys.mem a :=
      hlp.space.byte_undisturbed ((undisturbed_stack hfree hm hc.frame (h.key_ne hnew hp) hne).mono
        fun _ => .inl) ha.1 hold
    rw [hchild, ← hparent]
    exact congrArg some (hcopy.bytes _ (Nat.mod_lt _ (by decide)))
  · rw [if_neg ha, if_neg fun hcon => ha ⟨hcon.1, hcon.2.1, (hpresent hcon.1).mpr hcon.2.2⟩]

/-- **`sys_fork`** copies the memory of its caller to a process that has none, whose number it returns,
or it does nothing. -/
theorem Order.wp_fork (h : Order L s F own key sps) (hp : Has s p) :
    wp OfTables (sys_fork L trapret p) (fun r u => ∃ F' own' key' sps', Order L u F' own' key' sps' ∧
      (r = -1 ∧ view u = view s ∨ r = (BitVec.ofNat 32 s.tables.nextpid).toInt ∧
        ∃ np, view s np = none ∧ view u = Function.update (view s) np (view s p))) s := by
  obtain ⟨n, htn, hnew⟩ := h.heap.exists_fresh (key p)
  apply wp_fork_points (h.alive hp) hp.1 hnew htn
  · exact fun _ _ => ⟨_, rfl⟩
  · exact fun _ _ _ _ => ⟨_, rfl⟩
  · exact fun _ => ⟨_, rfl⟩
  · exact fun _ => ⟨F, own, key, sps, h, .inl ⟨rfl, rfl⟩⟩
  · intro _ i j hi _
    have hhas : ∀ q,
        Has ⟨s.tables.cleared j, s.phys, Function.update s.body i ⟨0, 0, 0, 0, 0⟩⟩ q ↔ Has s q := by
      intro q
      by_cases hqi : q = i
      · subst hqi
        simp [Has, hi]
      · simp [Has, State.cleared, hqi]
    have hbody : ∀ q, Has s q → Function.update s.body i ⟨0, 0, 0, 0, 0⟩ q = s.body q := by
      intro q hq
      apply Function.update_of_ne
      rintro rfl
      exact hq.1 hi
    obtain ⟨hnext, hview⟩ := h.same
      (t := ⟨s.tables.cleared j, s.phys, Function.update s.body i ⟨0, 0, 0, 0, 0⟩⟩)
      h.heap hhas fun q hq => ⟨hbody q hq, (h.living q hq).spared (.refl ..)⟩
    exact ⟨F, own, key, sps, hnext, .inl ⟨rfl, hview⟩⟩
  · rintro np pg F₀ m σ F₁ own₁ hnp rfl - hm hun - b
    have hfree : own pg = .free := (h.heap.free pg).mp (by simp)
    have hpage := h.heap.pages pg (by simp [hfree])
    have hother : ∀ q, Has s q → q ≠ np := by
      rintro q hq rfl
      exact hq.1 hnp
    have hstack : own₁ pg = .kstack np := by
      obtain ⟨new, hf⟩ := hun.frame
      rw [hf.others pg (by simp) (by simp [Tag.of]), Function.update_self]
    have hfreed := hun.heap.give (p := pg) (by simp [hstack]) hpage
    refine ⟨pg :: F₁, Function.update own₁ pg .free, key, sps, ?_⟩
    refine (h.same hfreed ?_ ?_).imp_right fun hview => .inl ⟨rfl, hview⟩
    · intro q
      by_cases hq : q = np
      · subst hq
        simp [Has, hnp, State.freed]
      · simp [Has, hq, State.freed, State.made]
    · intro q hq
      have hqn := hother q hq
      refine ⟨by simp [hqn], (h.living q hq).spared ?_⟩
      refine (undisturbed_stack hfree hm hun.frame (h.key_ne hnew hq) hqn).trans ?_
      exact .retag (hstack ▸ not_mine_kstack hqn) not_mine_free fun x hx => Mm.give_mem hpage.1 hx
  · rintro np pg F₀ m σ g r u hnp rfl - hm - hc hended rfl
    have hpage := h.heap.pages pg (by simp [(h.heap.free pg).mp])
    have hnot : ¬ Has s np := fun hcon => hcon.1 hnp
    have hbody := hended.child
    refine ⟨g.free, g.own, Function.update key np n, Function.update sps np g.sp, ?_⟩
    refine (h.child hp hnot hnew hm hc (fun x hx => trapframe_of_ne hpage.1 hx) hended.phys ?_ ?_ ?_).imp_right
      fun hview => .inr ⟨by rw [hended.pid], np, by rw [view, if_neg hnot], hview⟩
    · simp [hended.stat]
    · intro q hq
      exact ⟨by simp [hended.stat, hq], hended.bodies q hq⟩
    · simp [hbody]

/-! ## `pfree` -/

/-- Process `p` has gone. -/
theorem Order.gone (h : Order L s F own key sps) (hp : Has s p)
    (ht : Mm.Torn L (key p) s.phys ⟨F, own, sps p⟩ σ F' own') (htab : t.tables = s.tables.freed p)
    (hphys : t.phys = σ.give (s.body p).kstack) (hbody : ∀ q, q ≠ p → t.body q = s.body q) :
    Order L t ((s.body p).kstack :: F') (Function.update own' (s.body p).kstack .free)
        (Function.update key p (key p)) (Function.update sps p (sps p)) ∧
      view t = Function.update (view s) p none := by
  have hstack := (h.living p hp).kstack
  have hpage := h.heap.pages (s.body p).kstack (by simp [hstack])
  have hstack' : own' (s.body p).kstack = .kstack p := by
    obtain ⟨new, hf⟩ := ht.frame
    exact (hf.others _ (by simp [hstack]) (by simp [hstack, Tag.of])).trans hstack
  have hheap : Heap L t.phys ((s.body p).kstack :: F') (Function.update own' (s.body p).kstack .free) :=
    hphys ▸ ht.heap.give (by simp [hstack']) hpage
  have hgone : ¬ Has t p := by
    intro hcon
    apply hcon.1
    simp [htab, State.freed]
  have hhas : ∀ q, q ≠ p → (Has t q ↔ Has s q) := by
    intro q hq
    simp [Has, htab, State.freed, hq, hbody q hq]
  have hu : ∀ q, q ≠ p → Has s q → t.body q = s.body q ∧ Spared (key q) s q own
      (Function.update own' (s.body p).kstack .free) t.phys.mem := by
    intro q hq hhas
    have hkey : key q ≠ key p := fun heq => hq (h.inj q p hhas hp heq)
    have hframe : Undisturbed (Mine (key q) q) own s.phys.mem own' σ.mem :=
      .of_frame ht.frame fun tag htag => ⟨htag.ne.1, htag.ne.2.1 _ hkey⟩
    refine ⟨hbody q hq, (h.living q hhas).spared (hframe.trans
      (.retag (hstack' ▸ not_mine_kstack hq) not_mine_free fun x hx => ?_))⟩
    rw [hphys, Mm.give_mem hpage.1 hx]
  obtain ⟨hnext, hview⟩ := h.next (p := p) hheap hhas hu fun hcon => absurd hcon hgone
  refine ⟨hnext, hview.trans ?_⟩
  rw [view, if_neg hgone]

/-- **`pfree`** drops the memory of the process, and touches no other. -/
theorem Order.wp_pfree (h : Order L s F own key sps) (hp : Has s p) :
    wp OfTables (pfree L p) (fun _ u => ∃ F' own' key' sps', Order L u F' own' key' sps' ∧
      view u = Function.update (view s) p none) s := by
  have hl := h.living p hp
  have hpage := h.heap.pages (s.body p).kstack (by simp [hl.kstack])
  have hpos := hpage.pos
  have hne : (s.body p).kstack ≠ 0 := by omega
  have hvm : Vm L (key p) s.phys ⟨F, own, sps p⟩ := ⟨h.heap, hl.space⟩
  have hfreevm : wp (fun e => OfTables (.mm e)) (Mm.freevm L (s.body p).pgdir) _ s.phys :=
    hl.pgdir ▸ Mm.wp_freevm hvm
  simp only [pfree, onTables, onPhys, setBody, wp_bind, wp_zoom]
  refine Syscall.wp_pfree (fun _ _ => ⟨_, rfl⟩) fun _ => ?_
  simp only [wp_get, wp_ite, wp_bind, wp_zoom, wp_modify, hp.2, ne_eq, not_false_eq_true, if_true]
  refine wp_mono hfreevm ?_
  rintro _ σ ⟨F₁, own₁, ht⟩
  simp only [Function.update_self, Function.update_idem, hne, not_false_eq_true, if_true]
  apply Heap.wp_kfree hpage
  refine ⟨_, _, _, _, h.gone hp ht rfl rfl fun q hq => ?_⟩
  simp [hq]

/-! ## Stores -/

/-- A store to an address of process `p` changes this byte of its memory. -/
theorem Order.store (h : Order L s F own key sps) (hp : Has s p) {x : ℕ} {b : UInt8} (hlo : KERNEND ≤ a)
    (ha : a < 2 ^ 32) (hx : translate s.phys (s.body p).pgdir a = some x)
    (ht : t = { s with phys := { s.phys with mem := Function.update s.phys.mem x b } }) :
    Order L t F own (Function.update key p (key p)) (Function.update sps p (sps p)) ∧
      view t = Function.update (view s) p ((view s p).map (Image.store a b)) := by
  have hl := h.living p hp
  have hvm : Vm L (key p) s.phys ⟨F, own, sps p⟩ := ⟨h.heap, hl.space⟩
  have hv : 0x40000 ≤ a / 4096 := by
    simp only [KERNEND] at hlo
    omega
  rw [← hl.pgdir, hvm.translate ha, Option.ite_none_right_eq_some, Option.some.injEq] at hx
  obtain ⟨hpresent, hx⟩ := hx
  have hframe := hvm.user_page hv hpresent
  have hown := hl.space.user _ hv hpresent
  have hpage : page x = PTE_ADDR ((sps p).pte (a / 4096)) := by
    rw [← hx, page_add hframe.1 (Nat.mod_lt _ (by decide))]
  have hmem : ∀ y, page y ≠ PTE_ADDR ((sps p).pte (a / 4096)) →
      Function.update s.phys.mem x b y = s.phys.mem y := by
    intro y hy
    apply Function.update_of_ne
    rintro rfl
    exact hy hpage
  obtain ⟨hvm', -⟩ := hvm.writePage hv hpresent hmem
  have hphys : t.phys = { s.phys with mem := Function.update s.phys.mem x b } := by rw [ht]
  have hbody : t.body = s.body := by rw [ht]
  have hiff : ∀ q, Has t q ↔ Has s q := by
    intro q
    rw [ht]
    exact Iff.rfl
  have hliving : Living own (key p) (sps p) t p :=
    ⟨hphys ▸ hvm'.space, hbody ▸ hl.pgdir, hbody ▸ hl.kstack, hbody ▸ hl.tf, hbody ▸ hl.size,
      hbody ▸ hl.filled⟩
  have hheap : Heap L t.phys F own := hphys ▸ hvm'.heap
  have hu : ∀ q, q ≠ p → Has s q → t.body q = s.body q ∧ Spared (key q) s q own own t.phys.mem := by
    intro q hq hhas
    have hkey : key q ≠ key p := fun heq => hq (h.inj q p hhas hp heq)
    refine ⟨congrFun hbody q, (h.living q hhas).spared (.write fun y hy => ?_)⟩
    rw [hphys]
    apply hmem
    intro heq
    rw [heq, hown] at hy
    exact hy.ne.2.1 _ hkey rfl
  obtain ⟨hnext, hview⟩ := h.next (p := p) hheap (fun q _ => hiff q) hu
    fun _ => ⟨hliving, fun q hq hhas heq => hq (h.inj q p hhas hp heq)⟩
  refine ⟨hnext, hview.trans (congrArg _ ?_)⟩
  rw [view, view, if_pos ((hiff p).mpr hp), if_pos hp, Option.map_some, hbody]
  simp only [Image.store]
  congr 2
  funext y
  have huser := hliving.user_eq (a := y) hheap
  rw [hbody] at huser
  rw [huser]
  have hbyte : KERNEND ≤ y → present ((sps p).pte (y / 4096)) → (sps p).byte t.phys.mem y =
      if y = a then b else (sps p).byte s.phys.mem y := by
    intro hlow hp'
    simp only [KERNEND] at hlow
    have hstore := hvm.byte_write (o := a % 4096) (n := 1) (m := Function.update s.phys.mem x b)
      (f := fun _ => b) hv hpresent (by omega) (fun k hk => ?_) (fun z hz => ?_)
      ⟨show 0x40000 ≤ y / 4096 by omega, hp'⟩
    · rw [hphys]
      refine hstore.trans (if_congr ?_ rfl rfl)
      omega
    · obtain rfl : k = 0 := by omega
      rw [Nat.add_zero, hx, Function.update_self]
    · apply Function.update_of_ne
      omega
  by_cases hcon : KERNEND ≤ y ∧ y < 2 ^ 32 ∧ present ((sps p).pte (y / 4096))
  · rw [if_pos hcon, hbyte hcon.1 hcon.2.2]
    by_cases hy : y = a
    · rw [if_pos hy, hy, Function.update_self]
    · rw [if_neg hy, Function.update_of_ne hy, hl.user_eq h.heap, if_pos hcon]
  · have hy : y ≠ a := by
      rintro rfl
      exact hcon ⟨hlo, ha, hpresent⟩
    rw [if_neg hcon, Function.update_of_ne hy, hl.user_eq h.heap, if_neg hcon]

/-- The other calls. -/
theorem Order.tables (h : Order L s F own key sps) {ts : Syscall.State}
    (hts : ∀ p, ts.tab.stat p = .UNUSED ↔ s.tables.tab.stat p = .UNUSED) :
    Order L { s with tables := ts } F own key sps ∧ view { s with tables := ts } = view s :=
  h.same h.heap (fun q => and_congr_left fun _ => not_congr (hts q)) fun q hq =>
    ⟨rfl, (h.living q hq).spared (.refl ..)⟩

/-- What the kernel stores to its own memory and to the kernel stacks. -/
theorem Order.kernel (h : Order L s F own key sps) (hm : ∀ x, m x ≠ s.phys.mem x →
      ¬ IsPage L (page x) ∨ ∃ p, Has s p ∧ page x = (s.body p).kstack)
    (ht : t = { s with phys := { s.phys with mem := m } }) :
    Order L t F own key sps ∧ view t = view s := by
  have hsame : ∀ x, own (page x) ≠ .out → (∀ i, own (page x) ≠ .kstack i) → m x = s.phys.mem x := by
    intro x hout hstack
    by_contra hne
    rcases hm x hne with hpage | ⟨p, hp, hx⟩
    · exact hpage (h.heap.pages _ hout)
    · rw [hx] at hstack
      exact hstack p (h.living p hp).kstack
  subst ht
  apply h.same
  · refine h.heap.congr rfl fun q hq x hx => hsame x ?_ ?_ <;> simp [hx, (h.heap.free q).mp hq]
  · exact fun q => Iff.rfl
  · refine fun q hq => ⟨rfl, (h.living q hq).kstack, .write fun x hx => hsame x ?_ ?_⟩
    · intro hout
      rw [hout] at hx
      exact hx
    · intro i hstack
      rw [hstack] at hx
      exact hx

/-! ## `sys_execv` -/

section Find
variable {α β : Type} {w : User.State}

/-- A routine that leaves the states of the processes alone. -/
def LeavesTab (c : User.Kern α) : Prop := ∀ w, wp User.Any c (fun _ w' => w'.tables.tab = w.tables.tab) w

theorem leavesTab_pure (a : α) : LeavesTab (pure a : User.Kern α) := fun _ => wp_pure.mpr rfl

theorem LeavesTab.bind {c : User.Kern α} {f : α → User.Kern β} (hc : LeavesTab c)
    (hf : ∀ a, LeavesTab (f a)) :
    LeavesTab (c >>= f) := by
  intro w
  apply wp_seq (hc w)
  intro a w' hw'
  refine wp_mono (hf a w') fun _ w'' hw'' => hw''.trans hw'

theorem LeavesTab.ite {P : Prop} [Decidable P] {c d : User.Kern α} (hc : LeavesTab c) (hd : LeavesTab d) :
    LeavesTab (if P then c else d) := by
  split
  · exact hc
  · exact hd

theorem leavesTab_getByte (a : ℕ) : LeavesTab (User.getByte a) := fun _ => User.wp_getByte_any fun _ => rfl

theorem leavesTab_iget (c : Contents) (inum : ℕ) : LeavesTab (User.onTables (iget c inum)) := by
  intro w
  simp only [User.onTables, wp_zoom, iget, wp_bind, wp_get]
  split
  · simp only [wp_bind, wp_set, wp_pure]
    rfl
  · split
    · exact wp_pure.mpr rfl
    · simp only [wp_bind, wp_set, wp_pure]
      rfl

theorem leavesTab_getrootdir (c : Contents) : LeavesTab (User.onTables (getrootdir c)) := by
  intro w
  have higet := leavesTab_iget c c.rootdir w
  simp only [User.onTables, wp_zoom] at higet
  simp only [User.onTables, wp_zoom, getrootdir, wp_bind]
  refine wp_mono higet ?_
  rintro (_ | ip) ts hts
  · exact wp_throw.mpr trivial
  · exact wp_pure.mpr hts

theorem leavesTab_strcmp (x : ℕ) (y : List UInt8) (limit : ℕ) : LeavesTab (User.strcmp x y limit) := by
  induction limit generalizing x y with
  | zero => exact (leavesTab_getByte x).bind fun _ => leavesTab_pure _
  | succ limit ih =>
      apply (leavesTab_getByte x).bind
      intro c
      exact .ite (leavesTab_pure _) (.ite (leavesTab_pure _) (ih _ _))

theorem leavesTab_dirlookup (c : Contents) (fname : ℕ) (d : Directory) :
    LeavesTab (User.dirlookup c fname d) := by
  induction d with
  | nil => exact leavesTab_pure none
  | cons entry d ih =>
      apply (leavesTab_strcmp _ _ _).bind
      intro same
      exact .ite (leavesTab_iget _ _) ih

theorem leavesTab_namei (env : Env) (path : ℕ) : LeavesTab (User.namei env path) := by
  apply LeavesTab.ite (leavesTab_pure none)
  apply (leavesTab_getrootdir _).bind
  intro ip
  apply (leavesTab_getByte path).bind
  intro c
  apply LeavesTab.ite (leavesTab_pure _)
  have hget : LeavesTab (get : User.Kern User.State) := fun w => wp_get.mpr rfl
  apply hget.bind
  intro w
  have hthrow : LeavesTab (throw .bread : User.Kern PUnit) := fun _ => wp_throw.mpr trivial
  have hirelse : LeavesTab (User.onTables (irelse (some ip))) := by
    intro w
    rw [User.onTables, wp_zoom]
    exact wp_irelse rfl
  exact .ite (hthrow.bind fun _ => hirelse.bind fun _ => leavesTab_dirlookup _ _ _)
    (hirelse.bind fun _ => leavesTab_dirlookup _ _ _)

/-- The lookup of the path makes no slot used or unused. -/
theorem find_tab {env : Env} {r : ℕ × Option InodeId} {w' : User.State} (hfind : find env w = .ok (r, w')) :
    w'.tables.tab = w.tables.tab := by
  have hrun : wp User.Any (find env) (fun _ w' => w'.tables.tab = w.tables.tab) w := by
    rw [find, wp_bind]
    apply User.wp_argptr_any
    rw [wp_bind]
    apply User.wp_argptr_any
    apply wp_seq (leavesTab_namei env _ w)
    intro _ w' hw'
    exact wp_pure.mpr hw'
  have hend := wp_ok hrun hfind
  exact hend

end Find

section Execv
variable {env : Env} {w u : User.State} {x : User.Program} {g : Ghost} {argv : ℕ} {args : List (List UInt8)}
  {σ₁ : Phys}

/-- The trap frame lies on the kernel stack. -/
theorem returned_mem (h : Order L s F own key sps) (hp : Has s p) {y : ℕ} (hy : page y ≠ (s.body p).kstack) :
    (returned s p u).phys.mem y = u.phys.mem y := by
  have hl := h.living p hp
  have hpage := (h.heap.pages (s.body p).kstack (by simp [hl.kstack])).1
  have htf := hl.tf
  simp only [page, STACKSIZE, TRAPFRAME] at hy htf
  simp only [returned]
  rw [Mem.store32_of_ne (by omega), Mem.store32_of_ne (by omega)]

theorem returned_heap (h : Order L s F own key sps) (hp : Has s p) (hheap : Heap L u.phys F' own')
    (hstack : own' (s.body p).kstack = .kstack p) : Heap L (returned s p u).phys F' own' := by
  refine hheap.congr rfl fun q hq y hy => returned_mem h hp ?_
  rintro heq
  rw [← heq, hy, (hheap.free q).mp hq] at hstack
  cases hstack

/-- The call has failed. -/
theorem Order.declined (h : Order L s F own key sps) (hp : Has s p) (hnew : ∀ q, ¬ (own q).of n)
    (hu : u = { caller s p with tables := u.tables, phys := u.phys, lock := u.lock })
    (htab : u.tables.tab = s.tables.tab) (hsettled : User.Settled L n s.phys own u.phys) :
    ∃ F' own', Order L (returned s p u) F' own' key sps ∧ view (returned s p u) = view s := by
  obtain ⟨F', own', hheap, hframe⟩ := hsettled
  have hstack : own' (s.body p).kstack = .kstack p := by
    obtain ⟨new, hf⟩ := hframe
    have hown := (h.living p hp).kstack
    rw [hf.others _ (by simp [hown]) (by simp [hown, Tag.of]), hown]
  have hbody : (returned s p u).body = s.body := by
    have hpgdir : u.pgdir = (s.body p).pgdir := by rw [hu]; rfl
    have hsize : u.size = (s.body p).size := by rw [hu]; rfl
    simp only [returned, hpgdir, hsize]
    exact Function.update_eq_self p s.body
  refine ⟨F', own', h.same (returned_heap h hp hheap hstack) (fun q => ?_) fun q hq => ⟨congrFun hbody q, ?_⟩⟩
  · rw [Has, Has, hbody]
    simp only [returned, htab]
  · have hkey := h.key_ne hnew hq
    have hspace : Undisturbed (Tag.of (key q)) own s.phys.mem own' u.phys.mem :=
      .of_frame hframe fun tag htag =>
        ⟨(Mine.ne (q := q) (.inl htag)).1, (Mine.ne (q := q) (.inl htag)).2.1 n hkey⟩
    refine ⟨?_, hspace.trans (.write fun y hy => returned_mem h hp ?_)⟩
    · obtain ⟨new, hf⟩ := hframe
      have hown := (h.living q hq).kstack
      rw [hf.others _ (by simp [hown]) (by simp [hown, Tag.of]), hown]
    · intro heq
      rw [heq, hstack] at hy
      exact hy

/-- The call has started its program. -/
theorem Order.started (h : Order L s F own key sps) (hp : Has s p) (hnew : ∀ q, ¬ (own q).of n)
    (hL : env.L = L) (hne : key p ≠ n) (hl : User.Loaded L n s.phys own x w.phys g)
    (hst : User.Started env n (key p) (sps p) w g x argv args σ₁ F' own' u)
    (htab : w.tables.tab = s.tables.tab) (hgiven : Given w argv args) (hfits : Fits w argv args) :
    Order L (returned s p u) F' own' (Function.update key p n) (Function.update sps p g.sp) ∧
      ∃ im, view (returned s p u) = Function.update (view s) p (some im) ∧
        Decodes im.byte (KERNEND + im.size - PAGESIZE) (KERNEND + im.size) u.esp args := by
  subst hL
  have hlp := h.living p hp
  have hlow := hl.low
  have hhigh := hl.high
  have hframe : Frame n s.phys own σ₁ g.own := hl.frame.trans hst.kept.frame
  have hvm := hst.vm_end hne
  have hstack : own' (s.body p).kstack = .kstack p := by
    have hown : g.own (s.body p).kstack = .kstack p := by
      obtain ⟨new, hf⟩ := hframe
      rw [hf.others _ (by simp [hlp.kstack]) (by simp [hlp.kstack, Tag.of]), hlp.kstack]
    obtain ⟨new, hf⟩ := hst.torn.frame
    exact (hf.others _ (by simp [hown]) (by simp [hown, Tag.of])).trans hown
  have hvm' : Vm env.L n (returned s p u).phys ⟨F', own', g.sp⟩ :=
    vm_stack (g := ⟨F', own', g.sp⟩) hvm hstack fun y hy => returned_mem h hp hy
  have hsize : (returned s p u).body p = { s.body p with pgdir := x.pgdir, size := x.va - KERNEND } := by
    simp only [returned, Function.update_self]
    rw [hst.state]
    rfl
  have hbody : ∀ q, q ≠ p → (returned s p u).body q = s.body q := fun q hq => Function.update_of_ne hq _ _
  have htabs : (returned s p u).tables.tab = s.tables.tab := by
    simp only [returned]
    rw [hst.state]
    exact htab
  have hdir : g.sp.dir ≠ 0 := hvm.dir_ne
  have hhas : Has (returned s p u) p := by
    refine ⟨by rw [htabs]; exact hp.1, ?_⟩
    rw [hsize, ← hl.dir]
    exact hdir
  have hsum : KERNEND + (x.va - KERNEND) = x.va := by omega
  have hliving : Living own' n g.sp (returned s p u) p := by
    refine ⟨hvm'.space, ?_, ?_, ?_, ?_, ?_⟩
    · rw [hsize, hl.dir]
    · rw [hsize]
      exact hstack
    · rw [hsize]
      exact hlp.tf
    · rw [hsize, hsum]
      exact Nat.le_of_lt hhigh
    · rw [hsize, hsum]
      exact hl.filled
  have hu : ∀ q, q ≠ p → Has s q → (returned s p u).body q = s.body q ∧
      Spared (key q) s q own own' (returned s p u).phys.mem := by
    intro q hq hhas
    have hkey : key q ≠ key p := fun heq => hq (h.inj q p hhas hp heq)
    refine ⟨hbody q hq, (h.living q hhas).spared ?_⟩
    have hload : Undisturbed (Mine (key q) q) own s.phys.mem g.own σ₁.mem :=
      .of_frame hframe fun tag htag => ⟨htag.ne.1, htag.ne.2.1 _ (h.key_ne hnew hhas)⟩
    have htorn : Undisturbed (Mine (key q) q) g.own σ₁.mem own' u.phys.mem :=
      .of_frame hst.torn.frame fun tag htag => ⟨htag.ne.1, htag.ne.2.1 _ hkey⟩
    refine (hload.trans htorn).trans (.write fun y hy => returned_mem h hp ?_)
    intro heq
    rw [heq, hstack] at hy
    exact not_mine_kstack hq hy
  have hiff : ∀ q, q ≠ p → (Has (returned s p u) q ↔ Has s q) := by
    intro q hq
    rw [Has, Has, hbody q hq, htabs]
  obtain ⟨hnext, hview⟩ := h.next (p := p) hvm'.heap hiff hu fun _ =>
    ⟨hliving, fun q _ hq => h.key_ne hnew hq⟩
  have hsome : view (returned s p u) p = some ⟨x.va - KERNEND, user (returned s p u).phys x.pgdir⟩ := by
    rw [view, if_pos hhas, hsize]
  rw [hsome] at hview
  refine ⟨hnext, _, hview, ?_⟩
  simp only [hsum]
  have hread : ∀ y, x.va - 4096 ≤ y → y < x.va →
      user (returned s p u).phys x.pgdir y = some (g.sp.byte σ₁.mem y) := by
    intro y hy hlt
    have hhas' := hl.has hy hlt
    have huser := hliving.user_eq (a := y) hvm'.heap
    rw [hsize] at huser
    have hin : KERNEND ≤ y ∧ y < 2 ^ 32 := by
      simp only [KERNEND, USEREND] at hlow hhigh ⊢
      omega
    rw [huser, if_pos ⟨hin.1, hin.2, hhas'.2⟩, ← hst.byte_end hne hhas']
    have hown := hvm.space.user _ hhas'.1 hhas'.2
    have hpage := page_add (hvm.user_page hhas'.1 hhas'.2).1 (Nat.mod_lt y (by decide : 0 < 4096))
    refine congrArg some (returned_mem h hp ?_)
    rw [hpage]
    intro heq
    rw [heq] at hown
    cases hstack.symm.trans hown
  have hesp : u.esp = x.va - User.room args - 76 := by
    rw [hst.state]
    rfl
  rw [hesp]
  exact (hst.built _ hread).decodes hgiven hfits (by simp only [KERNEND, PAGESIZE] at hlow ⊢; omega)

/-- **`sys_execv`** of a file that is safe, with arguments that fit, gives its caller another memory and
returns 0, or it does nothing and returns -1. -/
theorem Order.execv {r : ℤ} (h : Order L s F own key sps) (hp : Has s p) (hL : env.L = L)
    (hok : ∀ argv o w, find env (caller s p) = .ok ((argv, o), w) →
      (∀ ip ∈ o, SafeFile (w.fileOf env ip)) ∧ Given (caller s p) argv args ∧ Fits (caller s p) argv args)
    (hrun : User.sys_execv env (caller s p) = .ok (r, u)) :
    ∃ F' own' key' sps', Order L (returned s p u) F' own' key' sps' ∧
      (r = -1 ∧ view (returned s p u) = view s ∨
        r = 0 ∧ ∃ im, view (returned s p u) = Function.update (view s) p (some im) ∧
          Decodes im.byte (KERNEND + im.size - PAGESIZE) (KERNEND + im.size) u.esp args) := by
  subst hL
  have hlp := h.living p hp
  obtain ⟨n, hne, hnew⟩ := h.heap.exists_fresh (key p)
  rcases hfind : find env (caller s p) with e | ⟨⟨argv, o⟩, w⟩
  · rw [User.sys_execv_eq, User.run_bind, hfind] at hrun
    cases hrun
  · obtain ⟨hsafe, hgiven, hfits⟩ := hok argv o w hfind
    have htab := find_tab hfind
    obtain ⟨-, tables, rfl⟩ := User.find_argv hfind
    have hload : wp (fun _ => False) (User.load env o) _ { caller s p with tables } :=
      User.wp_load h.heap hnew hsafe
    obtain ⟨y, w₁, hloaded, hw₁, hsettled, hsome⟩ := wp_total.mp hload
    rw [User.sys_execv_of_load hfind, User.run_bind, hloaded, User.ok_bind] at hrun
    have htab₁ : w₁.tables.tab = s.tables.tab := by
      rw [hw₁]
      exact htab
    cases y with
    | none =>
        cases hrun
        obtain ⟨F', own', hnext, hview⟩ := h.declined hp hnew (u := w₁) (by rw [hw₁]) htab₁ hsettled
        exact ⟨F', own', key, sps, hnext, .inl ⟨rfl, hview⟩⟩
    | some x =>
        obtain ⟨g, hl⟩ := hsome x rfl
        have hgiven₁ : Given w₁ argv args := by
          rw [hw₁]
          exact hgiven.caller
        have hfits₁ : Fits w₁ argv args := by
          rw [hw₁]
          exact (User.fits_caller (s := caller s p)).mpr hfits
        have hfew : args.length ≤ User.NARGV := by
          have hfew := hfits.few
          omega
        have hdir : (sps p).dir = w₁.pgdir := by
          rw [hw₁]
          exact hlp.pgdir
        have hrest : wp (fun _ => False) (User.runProgram env argv x) _ w₁ :=
          hl.wp_runProgram hgiven₁ hfew hfits₁.behind hfits₁.room hlp.space hdir hne h.align
        obtain ⟨rfl, σ₁, F', own', hst⟩ := wp_ok hrest hrun
        obtain ⟨hnext, hview⟩ := h.started hp hnew rfl hne hl hst htab₁ hgiven₁ hfits₁
        exact ⟨F', own', _, _, hnext, .inr ⟨rfl, hview⟩⟩

end Execv

/-! ## The refinement -/

/-- The processes are in order. -/
def InOrder (L : Layout) (s : State) : Prop := ∃ F own key sps, Order L s F own key sps

theorem view_of_has (hp : Has s p) : view s p = some ⟨(s.body p).size, user s.phys (s.body p).pgdir⟩ :=
  if_pos hp

theorem toOption_eq_some {ε α : Type} {x : Except ε α} {a : α} : x.toOption = some a ↔ x = .ok a := by
  cases x <;> simp [Except.toOption]

/-- **One step** keeps the processes in order, and is one of the private memories. -/
theorem refines (L : Layout) (trapret : ℕ) :
    (machine L trapret).Refines (Allowed L) (InOrder L) (cells Slot Image) Means view := by
  rintro s e t ⟨F, own, key, sps, h⟩ hok hstep
  cases e with
  | fork p r =>
      obtain ⟨hp, hpid⟩ := hok
      obtain ⟨⟨r', u⟩, hrun, hr⟩ := Option.bind_eq_some_iff.mp hstep
      simp only [Option.ite_none_right_eq_some, Option.some.injEq] at hr
      obtain ⟨rfl, rfl⟩ := hr
      have hwp : wp OfTables (sys_fork L trapret p) _ s := h.wp_fork hp
      obtain ⟨F', own', key', sps', hnext, hview⟩ := wp_ok hwp (toOption_eq_some.mp hrun)
      refine ⟨⟨F', own', key', sps', hnext⟩, ?_⟩
      rcases hview with ⟨rfl, hview⟩ | ⟨rfl, np, hnone, hview⟩
      · refine ⟨.rest, ?_, congrArg some hview.symm⟩
        rw [Means, if_pos rfl]
      · refine ⟨.copy p np, ?_, ?_⟩
        · rw [Means, if_neg hpid]
          exact ⟨np, rfl⟩
        · rw [view_of_has hp] at hview
          simp [cells, view_of_has hp, hnone, hview]
  | execv p env args r =>
      obtain ⟨⟨r', u⟩, hrun, hr⟩ := Option.bind_eq_some_iff.mp hstep
      simp only [Option.ite_none_right_eq_some, Option.some.injEq] at hr
      obtain ⟨rfl, rfl⟩ := hr
      obtain ⟨F', own', key', sps', hnext, hview⟩ := h.execv hok.1 rfl hok.2 (toOption_eq_some.mp hrun)
      refine ⟨⟨F', own', key', sps', hnext⟩, ?_⟩
      rcases hview with ⟨rfl, hview⟩ | ⟨rfl, im, hview, hargs⟩
      · exact ⟨.rest, .inl ⟨rfl, rfl⟩, congrArg some hview.symm⟩
      · refine ⟨.change p fun _ => im, .inr ⟨rfl, im, u.esp, rfl, hargs⟩, ?_⟩
        simp [cells, view_of_has hok.1, hview]
  | pfree p =>
      obtain ⟨⟨r, u⟩, hrun, rfl⟩ := Option.map_eq_some_iff.mp hstep
      obtain ⟨F', own', key', sps', hnext, hview⟩ := wp_ok (h.wp_pfree hok) (toOption_eq_some.mp hrun)
      refine ⟨⟨F', own', key', sps', hnext⟩, .drop p, rfl, ?_⟩
      simp [cells, view_of_has hok, hview]
  | store p a b =>
      obtain ⟨x, hx, rfl⟩ := Option.map_eq_some_iff.mp hstep
      obtain ⟨hp, hlo, ha⟩ := hok
      obtain ⟨hnext, hview⟩ := h.store (b := b) hp hlo ha hx rfl
      refine ⟨⟨F, own, _, _, hnext⟩, .change p (Image.store a b), rfl, ?_⟩
      rw [hview]
      simp [cells, view_of_has hp]
  | tables ts =>
      obtain rfl := Option.some.inj hstep
      obtain ⟨hnext, hview⟩ := h.tables hok
      exact ⟨⟨F, own, key, sps, hnext⟩, .rest, rfl, congrArg some hview.symm⟩
  | kernel m =>
      obtain rfl := Option.some.inj hstep
      obtain ⟨hnext, hview⟩ := h.kernel hok rfl
      exact ⟨⟨F, own, key, sps, hnext⟩, .rest, rfl, congrArg some hview.symm⟩

end Mixv6.Syscall.Fork
