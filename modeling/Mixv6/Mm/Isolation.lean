import Mixv6.Mm.Exclusive
import Mixv6.Mm.Kept

/-!
# The kernel half and the user half

Any number of address spaces, and any sequence of the routines of `kernel/mm/vm.c` on user
ranges, whoever calls them and whether they succeed or fail.  What the processor finds in a
directory is always the same below `KERNEND`, and what a user program can reach lies
between `KERNEND` and `USEREND`, in pages of its own.

## Main definitions

* `Spaces`, `SpaceOp`, `Spaces.exec` — the address spaces and one call.
* `entryOf`, `translate` — what the processor finds in a directory.
* `Isolated` — the invariant.
* `isolation` — the theorem.
-/

namespace Mixv6.Mm

open Mixv6.Lib

/-! ## The system -/

/-- The memory and the directory of each address space; `next` is the number of the next
address space. -/
structure Spaces where
  phys : Phys
  dir : ℕ → Option ℕ
  next : ℕ

/-- A call. -/
inductive SpaceOp
  | setupkvm
  | allocuvm (s old new : ℕ)
  | deallocuvm (s old new : ℕ)
  | ustack (s start : ℕ)
  | copyuvm (s size : ℕ)
  | copyout (s va : ℕ) (src : Option (ℕ → UInt8)) (len : ℕ)
  | loaduvm (s va : ℕ) (ip : File) (offset size : ℕ)

namespace Spaces

/-- Call a routine that works on one address space. -/
def call {α : Type} (w : Spaces) (c : Kern α) : Except Panic Spaces := do
  let (_, σ) ← c w.phys
  return { w with phys := σ }

/-- Call a routine that returns a new directory, or 0. -/
def make (w : Spaces) (c : Kern ℕ) : Except Panic Spaces := do
  let (r, σ) ← c w.phys
  return ⟨σ, Function.update w.dir w.next (if r = 0 then none else some r), w.next + 1⟩

/-- A call on address space `s`, if there is one. -/
def on (w : Spaces) (s : ℕ) (f : ℕ → Except Panic Spaces) : Except Panic Spaces :=
  (w.dir s).elim (.ok w) f

def exec (L : Layout) (w : Spaces) : SpaceOp → Except Panic Spaces
  | .setupkvm => w.make (setupkvm L)
  | .allocuvm s old new => w.on s fun d => w.call (allocuvm L d old new)
  | .deallocuvm s old new => w.on s fun d => w.call (deallocuvm L d old new)
  | .ustack s start => w.on s fun d => w.call (ustack L d start)
  | .copyuvm s size => w.on s fun d => w.make (copyuvm L d size)
  | .copyout s va src len => w.on s fun d => w.call (copyout d va src len)
  | .loaduvm s va ip offset size => w.on s fun d => w.call (loaduvm d va ip offset size)

end Spaces

/-- A call on a user range, at or above `KERNEND`. -/
def SpaceOp.OnUser : SpaceOp → Prop
  | .setupkvm => True
  | .allocuvm _ old _ => KERNEND ≤ old
  | .deallocuvm _ old new => KERNEND ≤ new ∧ old ≤ USEREND
  | .ustack _ start => KERNEND ≤ start ∧ start ≤ USEREND
  | .copyuvm _ _ => True
  | .copyout _ va _ len => KERNEND ≤ va ∧ va + len ≤ USEREND
  | .loaduvm _ va _ _ size => KERNEND ≤ va ∧ va + size ≤ USEREND

/-- The address spaces as a machine. -/
def spaceMachine (L : Layout) : Machine Spaces SpaceOp where
  step w op := (w.exec L op).toOption

/-- The memory after `kinit`, with no address space. -/
def bootSpaces (L : Layout) (m : Mem) : Except Panic Spaces := do
  let (_, σ) ← kinit L ⟨m, 0, []⟩
  return ⟨σ, fun _ => none, 0⟩

/-! ## What the processor finds -/

/-- `pte & PTE_U`. -/
def isUser (pte : ℕ) : Bool := pte / 4 % 2 = 1

/-- `pte & PTE_W`. -/
def isWritable (pte : ℕ) : Bool := pte / 2 % 2 = 1

/-- The entry for an address, if it has a page table. -/
def entryOf (σ : Phys) (d va : ℕ) : Option ℕ :=
  if present (World.pdeAt σ d (PDX va)) then some (World.pteAt σ d (va / PAGESIZE)) else none

/-- The physical address. -/
def translate (σ : Phys) (d va : ℕ) : Option ℕ :=
  (entryOf σ d va).bind fun e => if present e then some (PTE_ADDR e + va % PAGESIZE) else none

/-- A free page, or one that serves as a directory or a page table. -/
def Spaces.InUse (w : Spaces) (p : ℕ) : Prop :=
  (∃ n, p = World.freeNode w.phys.mem w.phys.coremap n ∧
    ∀ k ≤ n, World.freeNode w.phys.mem w.phys.coremap k ≠ 0) ∨
  (∃ s, w.dir s = some p) ∨
  ∃ s d i, w.dir s = some d ∧ i < 1024 ∧ present (World.pdeAt w.phys d i) ∧
    p = PTE_ADDR (World.pdeAt w.phys d i)

variable {L : Layout} {w w₀ : Spaces} {F F' : List ℕ} {own own' : ℕ → Tag} {sp : ℕ → Space}
  {s t d va p : ℕ} {σ σ' : Phys} {g : Ghost} {E : Panic → Prop}

namespace Vm

/-- The processor finds the entries of the address space. -/
theorem entryOf (h : Vm L s σ g) (hva : va < 2 ^ 32) :
    Mm.entryOf σ g.sp.dir va = (g.sp.tab (va / 2 ^ 22)).map fun _ => g.sp.pte (va / 4096) := by
  have hpdx : PDX va = va / 2 ^ 22 := PDX_eq hva
  have hdir : va / 4096 / 1024 = va / 2 ^ 22 := by omega
  have hp := h.present_pdeAt (show va / 2 ^ 22 < 1024 by omega)
  simp only [Mm.entryOf, hpdx, PAGESIZE]
  rw [hp]
  rcases ht : g.sp.tab (va / 2 ^ 22) with _ | t
  · rfl
  · have hpres : present (World.pdeAt σ g.sp.dir (va / 4096 / 1024)) := by
      rw [hdir, hp, ht]
      rfl
    rw [h.pteAt (by omega) hpres]
    rfl

/-- Only the pages that are present are translated. -/
theorem translate (h : Vm L s σ g) (hva : va < 2 ^ 32) : Mm.translate σ g.sp.dir va =
    if present (g.sp.pte (va / 4096)) then some (PTE_ADDR (g.sp.pte (va / 4096)) + va % 4096)
    else none := by
  rw [Mm.translate, h.entryOf hva]
  rcases ht : g.sp.tab (va / 2 ^ 22) with _ | t
  · have hzero := h.space.absent (va / 4096) (by rwa [show va / 4096 / 1024 = va / 2 ^ 22 by omega])
    simp [hzero, present]
  · rfl

end Vm

/-! ## The invariant -/

/-- Address space `s` has directory `d` and is in order. -/
structure Proper (L : Layout) (own : ℕ → Tag) (m : Mem) (s d : ℕ) (sp : Space) : Prop where
  ok : SpaceOk own s sp m
  dir : sp.dir = d
  based : Based L sp

/-- The free list is `F`, the owners are `own`, and the address spaces are `sp`. -/
structure Isolated (L : Layout) (w : Spaces) (F : List ℕ) (own : ℕ → Tag) (sp : ℕ → Space) :
    Prop where
  heap : Heap L w.phys F own
  proper : ∀ s d, w.dir s = some d → Proper L own w.phys.mem s d (sp s)
  next : ∀ s, w.next ≤ s → w.dir s = none ∧ ∀ p, ¬ (own p).of s
  handed : ∀ s p, (own p).of s → p ∈ w.phys.handed

namespace Isolated

theorem align (hI : Isolated L w F own sp) : ∀ p, own p ≠ .out → p % 4096 = 0 :=
  fun p hp => (hI.heap.pages p hp).1

theorem vm (hI : Isolated L w F own sp) (hd : w.dir s = some d) : Vm L s w.phys ⟨F, own, sp s⟩ :=
  ⟨hI.heap, (hI.proper s d hd).ok⟩

theorem lt_next (hI : Isolated L w F own sp) (hd : w.dir s = some d) : s < w.next := by
  by_contra hcon
  have hnone := (hI.next s (by omega)).1
  rw [hd] at hnone
  cases hnone

/-- What address space `s` does, the others do not notice. -/
theorem others (hI : Isolated L w F own sp) (hf : Frame s w.phys own σ' own') (hts : t ≠ s)
    (hd : w.dir t = some d) : Proper L own' σ'.mem t d (sp t) := by
  obtain ⟨h1, h2, h3⟩ := hI.proper t d hd
  exact ⟨h1.frame hf hts hI.align, h2, h3⟩

/-- The pages that address spaces have were handed out by `kalloc`. -/
theorem handed_frame (hI : Isolated L w F own sp) (hf : Frame s w.phys own σ' own') :
    ∀ t p, (own' p).of t → p ∈ σ'.handed := by
  intro t p hp
  obtain ⟨new, hf⟩ := hf
  rw [hf.handed, List.mem_append]
  by_cases hts : t = s
  · subst hts
    rcases hf.gained p hp with hold | hnew
    · exact .inr (hI.handed t p hold)
    · exact .inl hnew
  · exact .inr (hI.handed t p (Frame.of_other ⟨new, hf⟩ hts hp))

/-- A call on address space `s`. -/
theorem touch (hI : Isolated L w F own sp) (hd : w.dir s = some d) {g' : Ghost}
    (hvm : Vm L s σ' g') (hk : Kept s w.phys ⟨F, own, sp s⟩ σ' g') :
    Isolated L { w with phys := σ' } g'.free g'.own (Function.update sp s g'.sp) := by
  have hlt := hI.lt_next hd
  have hproper := hI.proper s d hd
  refine ⟨hvm.heap, ?_, ?_, hI.handed_frame hk.frame⟩
  · intro t d' ht
    by_cases hts : t = s
    · subst hts
      obtain rfl := Option.some.inj (hd.symm.trans ht)
      rw [Function.update_self]
      exact ⟨hvm.space, hk.grow.dir.trans hproper.dir, hk.based hproper.based⟩
    · rw [Function.update_of_ne hts]
      exact hI.others hk.frame hts ht
  · intro t ht
    obtain ⟨h1, h2⟩ := hI.next t ht
    exact ⟨h1, fun p hp => h2 p (hk.frame.of_other (by have : w.next ≤ t := ht; omega) hp)⟩

/-- A new address space, or none. -/
theorem add (hI : Isolated L w F own sp) {r : ℕ} {sp' : Space} (hheap : Heap L σ' F' own')
    (hf : Frame w.next w.phys own σ' own') (hr : r ≠ 0 → Proper L own' σ'.mem w.next r sp') :
    Isolated L ⟨σ', Function.update w.dir w.next (if r = 0 then none else some r), w.next + 1⟩ F'
      own' (Function.update sp w.next sp') := by
  refine ⟨hheap, ?_, ?_, hI.handed_frame hf⟩
  · intro t d' ht
    by_cases hts : t = w.next
    · subst hts
      simp only [Function.update_self] at ht ⊢
      split at ht
      next => cases ht
      next hne => exact Option.some.inj ht ▸ hr hne
    · simp only [Function.update_of_ne hts] at ht ⊢
      exact hI.others hf hts ht
  · intro t ht
    replace ht : w.next + 1 ≤ t := ht
    obtain ⟨h1, h2⟩ := hI.next t (by omega)
    have hts : t ≠ w.next := by omega
    refine ⟨?_, fun p hp => h2 p (hf.of_other hts hp)⟩
    simp only [Function.update_of_ne hts]
    exact h1

end Isolated

/-- A call ends with the invariant, or in a panic. -/
def Ends (L : Layout) : Except Panic Spaces → Prop
  | .ok w => ∃ F own sp, Isolated L w F own sp
  | .error e => Panics e

theorem ends_call {α : Type} {c : Kern α} {Q : α → Phys → Prop} (h : wp Panics c Q w.phys)
    (hQ : ∀ r σ, Q r σ → ∃ F own sp, Isolated L { w with phys := σ } F own sp) :
    Ends L (w.call c) := by
  rcases wp_iff.mp h with ⟨r, σ, hc, hr⟩ | ⟨e, hc, he⟩
  · have hcall : w.call c = .ok { w with phys := σ } := by
      simp only [Spaces.call, hc]
      rfl
    rw [hcall]
    exact hQ r σ hr
  · have hcall : w.call c = .error e := by
      simp only [Spaces.call, hc]
      rfl
    rw [hcall]
    exact he

theorem ends_make {c : Kern ℕ} {Q : ℕ → Phys → Prop} (h : wp Panics c Q w.phys)
    (hQ : ∀ r σ, Q r σ → ∃ F own sp, Isolated L
      ⟨σ, Function.update w.dir w.next (if r = 0 then none else some r), w.next + 1⟩ F own sp) :
    Ends L (w.make c) := by
  rcases wp_iff.mp h with ⟨r, σ, hc, hr⟩ | ⟨e, hc, he⟩
  · have hmake : w.make c =
        .ok ⟨σ, Function.update w.dir w.next (if r = 0 then none else some r), w.next + 1⟩ := by
      simp only [Spaces.make, hc]
      rfl
    rw [hmake]
    exact hQ r σ hr
  · have hmake : w.make c = .error e := by
      simp only [Spaces.make, hc]
      rfl
    rw [hmake]
    exact he

theorem ends_on (hI : Isolated L w F own sp) {f : ℕ → Except Panic Spaces}
    (hf : ∀ d, w.dir s = some d → Ends L (f d)) : Ends L (w.on s f) := by
  unfold Spaces.on
  rcases hd : w.dir s with _ | d
  · exact ⟨F, own, sp, hI⟩
  · exact hf d hd

attribute [irreducible] Ends

namespace Isolated

theorem setupkvm (hI : Isolated L w F own sp) : Ends L (w.exec L .setupkvm) := by
  refine ends_make (wp_setupkvm hI.heap (hI.next w.next (le_refl _)).2) ?_
  rintro r σ (⟨_, g', rfl, hmade⟩ | ⟨rfl, -, F', own', hun⟩)
  · exact ⟨_, _, _, hI.add hmade.vm.heap hmade.frame fun _ => ⟨hmade.vm.space, rfl, hmade.based⟩⟩
  · exact ⟨_, _, _, hI.add hun.heap hun.frame
      (show _ → Proper L _ _ _ _ (sp 0) from fun h => absurd rfl h)⟩

theorem allocuvm (hI : Isolated L w F own sp) {old new : ℕ}
    (hop : (SpaceOp.allocuvm s old new).OnUser) : Ends L (w.exec L (.allocuvm s old new)) := by
  refine ends_on hI fun d hd => ?_
  have hvm : wp Panics (Mm.allocuvm L (sp s).dir old new) _ w.phys :=
    wp_allocuvm_kept (hI.vm hd) hop
  rw [(hI.proper s d hd).dir] at hvm
  refine ends_call hvm ?_
  rintro r σ ⟨g', h', hk, -⟩
  exact ⟨_, _, _, hI.touch hd h' hk⟩

theorem deallocuvm (hI : Isolated L w F own sp) {old new : ℕ}
    (hop : (SpaceOp.deallocuvm s old new).OnUser) :
    Ends L (w.exec L (.deallocuvm s old new)) := by
  refine ends_on hI fun d hd => ?_
  obtain ⟨hnew, hold⟩ := hop
  have hvm := hI.vm hd
  rcases Nat.lt_or_ge new old with hlt | hge
  · have hwp := wp_deallocuvm (E := Panics) hvm hnew hlt hold
    rw [(hI.proper s d hd).dir] at hwp
    refine ends_call hwp ?_
    rintro r σ ⟨-, g', h', hf⟩
    simp only [KERNEND] at hnew
    simp only [USEREND] at hold
    exact ⟨_, _, _, hI.touch hd h' (.of_freed hf (by omega) (by omega))⟩
  · have hwp : wp Panics (Mm.deallocuvm L d old new) (fun _ σ => σ = w.phys) w.phys := by
      simp only [Mm.deallocuvm, hge, ↓reduceIte, wp_pure]
    refine ends_call hwp ?_
    rintro r σ rfl
    exact ⟨_, _, _, hI⟩

theorem ustack (hI : Isolated L w F own sp) {start : ℕ} (hop : (SpaceOp.ustack s start).OnUser) :
    Ends L (w.exec L (.ustack s start)) := by
  refine ends_on hI fun d hd => ?_
  have hwp := wp_ustack_kept (hI.vm hd) hop.1 hop.2
  rw [(hI.proper s d hd).dir] at hwp
  refine ends_call hwp ?_
  rintro r σ ⟨g', h', hk⟩
  exact ⟨_, _, _, hI.touch hd h' hk⟩

theorem copyuvm (hI : Isolated L w F own sp) {size : ℕ} : Ends L (w.exec L (.copyuvm s size)) := by
  refine ends_on hI fun d hd => ?_
  obtain ⟨hok, hdir, hb⟩ := hI.proper s d hd
  have hlt := hI.lt_next hd
  have hwp := wp_copyuvm_based hI.heap hok hb (hI.next w.next (le_refl _)).2 (by omega) size
  rw [hdir] at hwp
  refine ends_make hwp ?_
  rintro r σ (⟨_, g', rfl, h', hf, hb'⟩ | ⟨rfl, F', own', hheap, hf⟩)
  · exact ⟨_, _, _, hI.add h'.heap hf fun _ => ⟨h'.space, rfl, hb'⟩⟩
  · exact ⟨_, _, _, hI.add hheap hf
      (show _ → Proper L _ _ _ _ (sp 0) from fun h => absurd rfl h)⟩

theorem copyout (hI : Isolated L w F own sp) {src : Option (ℕ → UInt8)} {len : ℕ}
    (hop : (SpaceOp.copyout s va src len).OnUser) : Ends L (w.exec L (.copyout s va src len)) := by
  refine ends_on hI fun d hd => ?_
  have hwp : wp Panics (Mm.copyout (sp s).dir va src len) _ w.phys :=
    wp_copyout_kept (hI.vm hd) hop.1 hop.2
  rw [(hI.proper s d hd).dir] at hwp
  refine ends_call hwp ?_
  rintro r σ ⟨h', hk⟩
  exact ⟨_, _, _, hI.touch hd h' hk⟩

theorem loaduvm (hI : Isolated L w F own sp) {ip : File} {offset size : ℕ}
    (hop : (SpaceOp.loaduvm s va ip offset size).OnUser) :
    Ends L (w.exec L (.loaduvm s va ip offset size)) := by
  refine ends_on hI fun d hd => ?_
  obtain ⟨-, hdir, hb⟩ := hI.proper s d hd
  have hwp : wp Panics (Mm.loaduvm (sp s).dir va ip offset size) _ w.phys :=
    wp_loaduvm_kept (hI.vm hd) hb hop.1 hop.2
  rw [hdir] at hwp
  refine ends_call hwp ?_
  rintro r σ ⟨h', hk⟩
  exact ⟨_, _, _, hI.touch hd h' hk⟩

/-- **Every call** keeps the invariant. -/
theorem exec (hI : Isolated L w F own sp) {op : SpaceOp} (hop : op.OnUser) :
    Ends L (w.exec L op) := by
  cases op with
  | setupkvm => exact hI.setupkvm
  | allocuvm s old new => exact hI.allocuvm hop
  | deallocuvm s old new => exact hI.deallocuvm hop
  | ustack s start => exact hI.ustack hop
  | copyuvm s size => exact hI.copyuvm
  | copyout s va src len => exact hI.copyout hop
  | loaduvm s va ip offset size => exact hI.loaduvm hop

end Isolated

/-! ## What the invariant says -/

namespace Isolated

/-- An entry of a directory that is present. -/
theorem pdeAt_present (hI : Isolated L w F own sp) (hd : w.dir s = some d) {i : ℕ} (hi : i < 1024)
    (hp : present (World.pdeAt w.phys d i)) :
    (sp s).tab i = some (PTE_ADDR (World.pdeAt w.phys d i)) := by
  obtain ⟨-, rfl, -⟩ := hI.proper s d hd
  exact (hI.vm hd).pdeAt_present hi hp

/-- The processor finds the entries of the address space. -/
theorem entryOf_eq (hI : Isolated L w F own sp) (hd : w.dir s = some d) (hva : va < 2 ^ 32) {e : ℕ} :
    entryOf w.phys d va = some e ↔
      (sp s).tab (va / 2 ^ 22) ≠ none ∧ e = (sp s).pte (va / 4096) := by
  obtain ⟨-, rfl, -⟩ := hI.proper s d hd
  rw [(hI.vm hd).entryOf hva]
  rcases (sp s).tab (va / 2 ^ 22) with _ | t
  · simp
  · simp [eq_comm]

/-- A page that is mapped has a page table. -/
theorem entryOf_present (hI : Isolated L w F own sp) (hd : w.dir s = some d) (hva : va < 2 ^ 32)
    (hp : present ((sp s).pte (va / 4096))) :
    entryOf w.phys d va = some ((sp s).pte (va / 4096)) := by
  refine (hI.entryOf_eq hd hva).mpr ⟨?_, rfl⟩
  intro hnone
  have habsent := (hI.proper s d hd).ok.absent (va / 4096)
  rw [show va / 4096 / 1024 = va / 2 ^ 22 by omega] at habsent
  rw [habsent hnone] at hp
  simp [present] at hp

/-- The kernel half maps the memory to itself. -/
theorem kernel (hI : Isolated L w F own sp) (hd : w.dir s = some d) (hva : va < MEMSIZE) :
    translate w.phys d va = some va ∧ ∃ e, entryOf w.phys d va = some e ∧ isUser e = false ∧
      (¬ (EXTMEM ≤ va ∧ va < L.rodata_end) → isWritable e) := by
  simp only [MEMSIZE] at hva
  have hpte := (hI.proper s d hd).based.kern (va / 4096) (by omega)
  have halign : 4096 * (va / 4096) % 4096 = 0 := by omega
  have hflags : kernFlags L (va / 4096) = 0 ∨ kernFlags L (va / 4096) = 2 := by
    unfold kernFlags
    split
    · exact .inl rfl
    · exact .inr rfl
  have hp : present ((sp s).pte (va / 4096)) := by
    rw [hpte]
    exact present_pte halign
  have hentry := hI.entryOf_present hd (by omega) hp
  refine ⟨?_, _, hentry, ?_, ?_⟩
  · have haddr : PTE_ADDR ((sp s).pte (va / 4096)) = 4096 * (va / 4096) := by
      rw [hpte]
      exact PTE_ADDR_pte halign (by omega)
    rw [translate, hentry, Option.bind_some, if_pos hp, haddr, Option.some.injEq]
    simp only [PAGESIZE]
    omega
  · rw [hpte]
    simp only [isUser, decide_eq_false_iff_not]
    rcases hflags with hf | hf <;> rw [hf]
    · rw [show 0 ||| 1 = 1 from rfl]
      omega
    · rw [show 2 ||| 1 = 3 from rfl]
      omega
  · intro hout
    have hw : kernFlags L (va / 4096) = 2 := by
      have hra := L.rodata_aligned
      have hext : EXTMEM = 0x100000 := rfl
      simp only [PAGESIZE] at hra
      rw [kernFlags, if_neg (by omega)]
      rfl
    rw [hpte, hw, show 2 ||| 1 = 3 from rfl]
    simp only [isWritable, decide_eq_true_eq]
    omega

/-- Nothing is mapped between the memory and the user half. -/
theorem hole (hI : Isolated L w F own sp) (hd : w.dir s = some d) (hlo : MEMSIZE ≤ va)
    (hhi : va < KERNEND) : translate w.phys d va = none := by
  simp only [MEMSIZE] at hlo
  simp only [KERNEND] at hhi
  have hzero := (hI.proper s d hd).based.hole (va / 4096) (by omega) (by omega)
  rw [translate, Option.bind_eq_none_iff]
  intro e he
  obtain ⟨-, rfl⟩ := (hI.entryOf_eq hd (by omega)).mp he
  rw [hzero]
  rfl

/-- An entry with `PTE_U` is present and belongs to the user half. -/
theorem isUser_range (hI : Isolated L w F own sp) (hd : w.dir s = some d) {v : ℕ}
    (hu : isUser ((sp s).pte v)) : 0x40000 ≤ v ∧ v < 0xFFC00 ∧ present ((sp s).pte v) := by
  have hb := (hI.proper s d hd).based
  have hne : (sp s).pte v ≠ 0 := by
    intro hzero
    rw [hzero] at hu
    cases hu
  refine ⟨?_, ?_, (hb.clean v).resolve_left hne⟩
  · by_contra hlt
    by_cases hv : v < 0x20000
    · -- The kernel's entries lack `PTE_U`.
      have hva : 4096 * v < MEMSIZE := by
        simp only [MEMSIZE]
        omega
      obtain ⟨-, e, he, hclear, -⟩ := hI.kernel hd hva
      obtain ⟨-, rfl⟩ := (hI.entryOf_eq hd (by omega)).mp he
      rw [show 4096 * v / 4096 = v by omega, hu] at hclear
      cases hclear
    · exact hne (hb.hole v (by omega) (by omega))
  · by_contra hge
    exact hne (hb.high v (by omega))

/-- A user page has no other use. -/
theorem not_inUse (hI : Isolated L w F own sp) {v : ℕ} (hown : own p = .user s v) :
    ¬ w.InUse p := by
  rintro (⟨n, rfl, hn⟩ | ⟨t, ht⟩ | ⟨t, d, i, ht, hi, hp, rfl⟩)
  · have hfree := (hI.heap.free _).mp (List.mem_of_getElem? (hI.heap.chain.freeNode hn))
    rw [hown] at hfree
    cases hfree
  · obtain ⟨hok, hdir, -⟩ := hI.proper t p ht
    have hdirown := hok.own_dir
    rw [hdir, hown] at hdirown
    cases hdirown
  · have htab := (hI.proper t d ht).ok.own_tab (hI.pdeAt_present ht hi hp)
    rw [hown] at htab
    cases htab

end Isolated

/-! ## Runs -/

/-- `kinit` ends with the invariant. -/
theorem exists_bootSpaces (L : Layout) (m : Mem) : ∃ w F, bootSpaces L m = .ok w ∧
    Isolated L w F (Heap.upTo L MEMSIZE) (fun _ => .empty 0) ∧ w.next = 0 ∧
    F.length = (MEMSIZE - L.kernel_end) / 4096 := by
  obtain ⟨_, σ, hkinit, F, hheap, hlen, hhanded, -⟩ :=
    wp_total.mp (@Heap.wp_kinit L ⟨m, 0, []⟩ _ rfl)
  refine ⟨⟨σ, fun _ => none, 0⟩, F, ?_, ⟨hheap, ?_, ?_, ?_⟩, rfl, hlen⟩
  · simp only [bootSpaces, hkinit]
    rfl
  · intro s d hd
    cases hd
  · exact fun s _ => ⟨rfl, fun p => Heap.not_of_upTo p s⟩
  · exact fun s p hp => absurd hp (Heap.not_of_upTo p s)

namespace Spaces
variable {d r s old new : ℕ} {σ : Phys}

theorem exec_setupkvm (hmake : Mm.setupkvm L w.phys = .ok (d, σ)) (hd : d ≠ 0) :
    w.exec L .setupkvm = .ok ⟨σ, Function.update w.dir w.next (some d), w.next + 1⟩ := by
  simp only [exec, make, hmake, bind, Except.bind, if_neg hd, pure, Except.pure]

theorem exec_allocuvm (hd : w.dir s = some d) (hrun : Mm.allocuvm L d old new w.phys = .ok (r, σ)) :
    w.exec L (.allocuvm s old new) = .ok { w with phys := σ } := by
  simp only [exec, on, hd, Option.elim_some, call, hrun, bind, Except.bind, pure, Except.pure]

end Spaces

/-- A call that ends is a step. -/
theorem space_step {op : SpaceOp} {w' : Spaces}
    (h : (spaceMachine L).Path (fun _ op => op.OnUser) w₀ w) (hop : op.OnUser)
    (he : w.exec L op = .ok w') : (spaceMachine L).Path (fun _ op => op.OnUser) w₀ w' :=
  h.snoc op hop (by simp [spaceMachine, he, Except.toOption])

/-- Every state that is reached from `kinit` by calls on user ranges. -/
theorem isolated_of_path {m : Mem} (h0 : bootSpaces L m = .ok w₀)
    (h : (spaceMachine L).Path (fun _ op => op.OnUser) w₀ w) :
    ∃ F own sp, Isolated L w F own sp := by
  refine h.invariant (I := fun w => ∃ F own sp, Isolated L w F own sp) ?_
    fun w op w' hI hop hstep => ?_
  · obtain ⟨w₁, F, h1, hI, -⟩ := exists_bootSpaces L m
    obtain rfl : w₁ = w₀ := by simpa using h1.symm.trans h0
    exact ⟨F, _, _, hI⟩
  · obtain ⟨F, own, sp, hI⟩ := hI
    have hends := hI.exec hop
    simp only [spaceMachine] at hstep
    rcases hexec : w.exec L op with e | w₁
    · simp [hexec, Except.toOption] at hstep
    · obtain rfl : w₁ = w' := by simpa [hexec, Except.toOption] using hstep
      rw [hexec] at hends
      unfold Ends at hends
      exact hends

/-- **Isolation.**  In every state reached from `kinit` by calls on user ranges, in every
directory: below `MEMSIZE` an address is translated to itself, by an entry without `PTE_U`
that allows writing outside `[EXTMEM, rodata_end)`; between `MEMSIZE` and `KERNEND` nothing
is mapped; and an entry with `PTE_U` belongs to an address between `KERNEND` and `USEREND`
and maps a page from `kalloc` that has no other use, in this address space or another.
Every call ends. -/
theorem isolation {m : Mem} (h0 : bootSpaces L m = .ok w₀)
    (h : (spaceMachine L).Path (fun _ op => op.OnUser) w₀ w) :
    (∀ s d, w.dir s = some d →
      (∀ va < MEMSIZE, translate w.phys d va = some va ∧
        ∃ e, entryOf w.phys d va = some e ∧ isUser e = false ∧
          (¬ (EXTMEM ≤ va ∧ va < L.rodata_end) → isWritable e)) ∧
      (∀ va, MEMSIZE ≤ va → va < KERNEND → translate w.phys d va = none) ∧
      ∀ va < 2 ^ 32, ∀ e, entryOf w.phys d va = some e → isUser e →
        (KERNEND ≤ va ∧ va < USEREND) ∧ present e ∧ IsPage L (PTE_ADDR e) ∧
        PTE_ADDR e ∈ w.phys.handed ∧ ¬ w.InUse (PTE_ADDR e) ∧
        ∀ s' d' va' e', w.dir s' = some d' → KERNEND ≤ va' → va' < 2 ^ 32 →
          entryOf w.phys d' va' = some e' → present e' → PTE_ADDR e' = PTE_ADDR e →
          s' = s ∧ va' / PAGESIZE = va / PAGESIZE) ∧
    ∀ op : SpaceOp, op.OnUser → w.exec L op ≠ .error .hang := by
  obtain ⟨F, own, sp, hI⟩ := isolated_of_path h0 h
  refine ⟨?_, ?_⟩
  · intro s d hd
    refine ⟨fun va => hI.kernel hd, fun va => hI.hole hd, ?_⟩
    intro va hva e he hu
    obtain ⟨-, rfl⟩ := (hI.entryOf_eq hd hva).mp he
    obtain ⟨hlo, hhi, hp⟩ := hI.isUser_range hd hu
    have hown := (hI.proper s d hd).ok.user (va / 4096) hlo hp
    refine ⟨?_, hp, (hI.vm hd).user_page hlo hp, hI.handed s _ (by rw [hown]; rfl),
      hI.not_inUse hown, ?_⟩
    · simp only [KERNEND, USEREND]
      omega
    · intro s' d' va' e' hd' hlo' hva' he' hp' hsame
      obtain ⟨-, rfl⟩ := (hI.entryOf_eq hd' hva').mp he'
      simp only [KERNEND] at hlo'
      have hown' := (hI.proper s' d' hd').ok.user (va' / 4096) (by omega) hp'
      rw [hsame, hown, Tag.user.injEq] at hown'
      exact ⟨hown'.1.symm, hown'.2.symm⟩
  · intro op hop hhang
    have hends := hI.exec hop
    rw [hhang] at hends
    unfold Ends at hends
    exact hends rfl

/-- An address space with one user page on the small machine: the kernel half is as always, and the
user reaches its page, which nobody else uses. -/
theorem isolation_small : ∃ w₀ w₁ w₂ d e, bootSpaces smallLayout (fun _ => 0) = .ok w₀ ∧
    w₀.exec smallLayout .setupkvm = .ok w₁ ∧
    w₁.exec smallLayout (.allocuvm 0 KERNEND (KERNEND + 1)) = .ok w₂ ∧ w₂.dir 0 = some d ∧
    (∀ va < MEMSIZE, translate w₂.phys d va = some va) ∧
    entryOf w₂.phys d (KERNEND + 1) = some e ∧ isUser e ∧ IsPage smallLayout (PTE_ADDR e) ∧
    PTE_ADDR e ∈ w₂.phys.handed ∧ ¬ w₂.InUse (PTE_ADDR e) := by
  obtain ⟨w₀, F, h0, hI, hnext, hlen⟩ := exists_bootSpaces smallLayout fun _ => 0
  replace hlen : F.length = 4096 := hlen
  obtain ⟨_, σ₁, σ₂, g, hmake, hne, rfl, hgrow, hvm, hp, hflags⟩ :=
    hI.heap.exists_onePage (hI.next 0 (by omega)).2 (hlen ▸ by decide)
  have h1 := Spaces.exec_setupkvm hmake hne
  rw [hnext] at h1
  have hd : (⟨σ₁, Function.update w₀.dir 0 (some g.sp.dir), 0 + 1⟩ : Spaces).dir 0 = some g.sp.dir := by
    simp
  have h2 := Spaces.exec_allocuvm hd hgrow
  have hop₁ : SpaceOp.OnUser .setupkvm := trivial
  have hop₂ : SpaceOp.OnUser (.allocuvm 0 KERNEND (KERNEND + 1)) := le_refl _
  obtain ⟨hspace, -⟩ := isolation h0 (space_step (space_step .refl hop₁ h1) hop₂ h2)
  obtain ⟨hkern, -, huser⟩ := hspace 0 g.sp.dir hd
  obtain ⟨t, ht⟩ := hvm.tab_of_present hp
  have hentry : entryOf σ₂ g.sp.dir (KERNEND + 1) = some (g.sp.pte 0x40000) := by
    rw [hvm.entryOf (by decide), show (KERNEND + 1) / 2 ^ 22 = 0x40000 / 1024 from rfl, ht]
    rfl
  have hu : isUser (g.sp.pte 0x40000) := by
    simp only [PTE_FLAGS] at hflags
    simp only [isUser, decide_eq_true_eq]
    omega
  obtain ⟨-, -, hpage, hhanded, hfree, -⟩ := huser (KERNEND + 1) (by decide) _ hentry hu
  exact ⟨w₀, _, _, _, _, h0, h1, h2, hd, fun va hva => (hkern va hva).1, hentry, hu, hpage, hhanded, hfree⟩

end Mixv6.Mm
