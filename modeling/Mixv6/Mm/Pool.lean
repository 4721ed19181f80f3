import Mixv6.Mm.Exclusive

/-!
# The pool of pages

The allocator by itself, with whoever holds pages: they call `kalloc` and `kfree`, and store to
the pages they hold whatever they like.  The links of the free list lie in the pages that nobody
holds, so such a store cannot come to them.

## Main definitions

* `Pool`, `Use`, `poolMachine` — the memory, who holds what, and what can happen.
* `Pool.Inv` — each page is either on the free list or held.
* `Serves`, `pool_serves` — what the allocator does in every state that is reached.
-/

namespace Mixv6.Mm

open Mixv6.Lib

/-- The memory, and the pages that `kalloc` has returned and `kfree` has not taken back. -/
structure Pool where
  phys : Phys
  held : List ℕ

/-- What a holder does. -/
inductive Use
  | kalloc
  | kfree (p : ℕ)
  /-- A store of a byte. -/
  | write (x : ℕ) (b : UInt8)

/-- The page that `kfree` is called for is held, and so is the page that is stored to. -/
def Pool.Allowed (u : Pool) : Use → Prop
  | .kalloc => True
  | .kfree p => p ∈ u.held
  | .write x _ => page x ∈ u.held

def Pool.exec (L : Layout) (u : Pool) : Use → Except Panic Pool
  | .kalloc => do
      let (r, σ) ← kalloc u.phys
      return ⟨σ, if r = 0 then u.held else r :: u.held⟩
  | .kfree p => do
      let (_, σ) ← kfree L p u.phys
      return ⟨σ, u.held.erase p⟩
  | .write x b => return { u with phys := { u.phys with mem := Function.update u.phys.mem x b } }

/-- The allocator and its users as a machine. -/
def poolMachine (L : Layout) : Machine Pool Use where
  step u use := (u.exec L use).toOption

/-- After `kinit` nobody holds a page. -/
def bootPool (L : Layout) (m : Mem) : Except Panic Pool := do
  let (_, σ) ← kinit L ⟨m, 0, []⟩
  return ⟨σ, []⟩

/-- A page of `[PGROUNDUP(kernel_end), MEMSIZE)`. -/
def Managed (L : Layout) (p : ℕ) : Prop :=
  p % PAGESIZE = 0 ∧ PGROUNDUP L.kernel_end ≤ p ∧ p < MEMSIZE

/-- **What the allocator does** in a state: the free list ends, and has every page that nobody
holds, once; `kalloc` returns 0 only when all pages are held, and otherwise a page that nobody
holds, zero behind the first four bytes; and `kfree` takes back every page that is held. -/
structure Serves (L : Layout) (u : Pool) : Prop where
  list : ∃ F, Chain u.phys.mem u.phys.coremap F ∧ F.Nodup ∧ ∀ p, p ∈ F ↔ Managed L p ∧ p ∉ u.held
  kalloc : ∃ r σ, kalloc u.phys = .ok (r, σ) ∧
    (r = 0 ∧ (∀ p, Managed L p → p ∈ u.held) ∨
      Managed L r ∧ r ∉ u.held ∧ ∀ k, 4 ≤ k → k < PAGESIZE → σ.mem (r + k) = 0)
  kfree : ∀ p ∈ u.held, ∃ σ, kfree L p u.phys = .ok ((), σ)

variable {L : Layout} {u u₀ : Pool} {F : List ℕ} {own : ℕ → Tag} {m : Mem}

theorem managed_iff {p : ℕ} : Managed L p ↔ IsPage L p := by
  rw [Managed, PGROUNDUP_kernel_end]
  rfl

/-! ## The calls -/

/-- `kalloc` when nothing is free. -/
theorem Heap.kalloc_nil {σ : Phys} (h : Heap L σ [] own) : kalloc σ = .ok (0, σ) := by
  obtain ⟨r, t, hrun, rfl, rfl⟩ := wp_total.mp (h.wp_kalloc (Q := fun r t => r = 0 ∧ t = σ)
    (fun _ => ⟨rfl, rfl⟩) (fun p F' hF => by cases hF))
  exact hrun

/-- `kalloc` takes the first free page. -/
theorem Heap.kalloc_cons {σ : Phys} {p : ℕ} (h : Heap L σ (p :: F) own) :
    kalloc σ = .ok (p, σ.take p) := by
  obtain ⟨r, t, hrun, rfl, rfl⟩ := wp_total.mp (h.wp_kalloc
    (Q := fun r t => r = p ∧ t = σ.take p) (fun hF => by cases hF) (fun q F' hF _ => by
      obtain ⟨rfl, -⟩ := List.cons.inj hF
      exact ⟨rfl, rfl⟩))
  exact hrun

theorem IsPage.kfree {σ : Phys} {p : ℕ} (hp : IsPage L p) :
    Mm.kfree L p σ = .ok ((), σ.give p) := by
  obtain ⟨_, t, hrun, rfl⟩ := wp_total.mp (Heap.wp_kfree hp (Q := fun _ t => t = σ.give p) rfl)
  exact hrun

theorem Heap.exec_kalloc {p : ℕ} (h : Heap L u.phys (p :: F) own) :
    u.exec L .kalloc = .ok ⟨u.phys.take p, p :: u.held⟩ := by
  have hne : p ≠ 0 := h.chain.2.1
  simp only [Pool.exec, h.kalloc_cons, bind, Except.bind, if_neg hne]
  rfl

theorem Heap.exec_kalloc_nil (h : Heap L u.phys [] own) : u.exec L .kalloc = .ok u := by
  simp only [Pool.exec, h.kalloc_nil]
  rfl

theorem IsPage.exec_kfree {p : ℕ} (hp : IsPage L p) :
    u.exec L (.kfree p) = .ok ⟨u.phys.give p, u.held.erase p⟩ := by
  simp only [Pool.exec, hp.kfree]
  rfl

/-! ## The invariant -/

/-- **The invariant**: a page is either free or held, and the free pages are zero. -/
structure Pool.Inv (L : Layout) (u : Pool) (F : List ℕ) (own : ℕ → Tag) : Prop where
  heap : Heap L u.phys F own
  zero : Zeroed u.phys F
  nodup : u.held.Nodup
  page : ∀ p, IsPage L p ↔ p ∈ F ∨ p ∈ u.held
  held : ∀ p ∈ u.held, p ∉ F

namespace Pool.Inv

theorem own_ne (h : u.Inv L F own) {p : ℕ} (hp : p ∈ u.held) : own p ≠ .free :=
  fun hfree => h.held p hp ((h.heap.free p).mpr hfree)

theorem isPage_of_mem (h : u.Inv L F own) {p : ℕ} (hp : p ∈ F) : IsPage L p := (h.page p).mpr (.inl hp)

theorem isPage_of_held (h : u.Inv L F own) {p : ℕ} (hp : p ∈ u.held) : IsPage L p :=
  (h.page p).mpr (.inr hp)

/-- A page that `kalloc` returns is held. -/
theorem take {p : ℕ} (h : u.Inv L (p :: F) own) :
    Inv L ⟨u.phys.take p, p :: u.held⟩ F (Function.update own p .out) where
  heap := h.heap.take (by simp)
  zero q hq := h.zero q (List.mem_cons_of_mem p hq)
  nodup := List.nodup_cons.mpr ⟨fun hp => h.held p hp (List.mem_cons_self ..), h.nodup⟩
  page q := by
    rw [h.page q, List.mem_cons, List.mem_cons]
    tauto
  held q hq hF := by
    rcases List.mem_cons.mp hq with rfl | hq
    · exact (List.nodup_cons.mp h.heap.nodup).1 hF
    · exact h.held q hq (List.mem_cons_of_mem p hF)

/-- A page that `kfree` takes back is free. -/
theorem give (h : u.Inv L F own) {p : ℕ} (hp : p ∈ u.held) :
    Inv L ⟨u.phys.give p, u.held.erase p⟩ (p :: F) (Function.update own p .free) where
  heap := h.heap.give (h.own_ne hp) (h.isPage_of_held hp)
  zero := by
    apply h.zero.give (h.isPage_of_held hp).1
    intro q hq
    refine ⟨(h.isPage_of_mem hq).1, ?_⟩
    rintro rfl
    exact h.held q hp hq
  nodup := h.nodup.erase p
  page q := by
    rw [h.page q, List.mem_cons, h.nodup.mem_erase_iff]
    by_cases hq : q = p
    · subst hq
      simp [hp]
    · simp [hq]
  held q hq hF := by
    obtain ⟨hne, hq⟩ := h.nodup.mem_erase_iff.mp hq
    rcases List.mem_cons.mp hF with rfl | hF
    · exact hne rfl
    · exact h.held q hq hF

/-- A store to a page that is held. -/
theorem write (h : u.Inv L F own) {x : ℕ} (b : UInt8) (hx : Mm.page x ∈ u.held) :
    Inv L { u with phys := { u.phys with mem := Function.update u.phys.mem x b } } F own where
  heap := by
    have hmem : ∀ p ∈ F, ∀ y, Mm.page y = p → Function.update u.phys.mem x b y = u.phys.mem y := by
      rintro p hp y rfl
      have hne : y ≠ x := by
        rintro rfl
        exact h.held _ hx hp
      exact Function.update_of_ne hne ..
    exact h.heap.congr rfl hmem
  zero p hp k hk hlt := by
    have hne : p + k ≠ x := by
      rintro rfl
      rw [page_add (h.isPage_of_mem hp).1 hlt] at hx
      exact h.held p hx hp
    rw [← h.zero p hp k hk hlt]
    exact Function.update_of_ne hne ..
  nodup := h.nodup
  page := h.page
  held := h.held

/-- **A step** ends, and keeps the invariant. -/
theorem exec (h : u.Inv L F own) {use : Use} (hallowed : u.Allowed use) :
    ∃ u' F' own', u.exec L use = .ok u' ∧ u'.Inv L F' own' := by
  cases use with
  | kalloc =>
      cases F with
      | nil => exact ⟨u, [], own, h.heap.exec_kalloc_nil, h⟩
      | cons p F => exact ⟨_, F, _, h.heap.exec_kalloc, h.take⟩
  | kfree p =>
      exact ⟨_, p :: F, _, (h.isPage_of_held hallowed).exec_kfree, h.give hallowed⟩
  | write x b => exact ⟨_, F, own, rfl, h.write b hallowed⟩

/-- What the invariant is for. -/
theorem serves (h : u.Inv L F own) : Serves L u where
  list := by
    refine ⟨F, h.heap.chain, h.heap.nodup, fun p => ?_⟩
    rw [managed_iff, h.page p]
    constructor
    · intro hp
      exact ⟨.inl hp, fun hheld => h.held p hheld hp⟩
    · rintro ⟨hp | hp, hheld⟩
      · exact hp
      · exact absurd hp hheld
  kalloc := by
    cases F with
    | nil =>
        refine ⟨0, u.phys, h.heap.kalloc_nil, .inl ⟨rfl, fun p hp => ?_⟩⟩
        rcases (h.page p).mp (managed_iff.mp hp) with hF | hheld
        · cases hF
        · exact hheld
    | cons p F =>
        have hp : p ∈ p :: F := List.mem_cons_self ..
        refine ⟨p, u.phys.take p, h.heap.kalloc_cons,
          .inr ⟨managed_iff.mpr (h.isPage_of_mem hp), ?_, ?_⟩⟩
        · exact fun hheld => h.held p hheld hp
        · exact h.zero p hp
  kfree p hp := ⟨_, (h.isPage_of_held hp).kfree⟩

end Pool.Inv

/-! ## Runs -/

/-- `kinit` ends, with every page on the free list. -/
theorem exists_bootPool (L : Layout) (m : Mem) : ∃ u F, bootPool L m = .ok u ∧
    u.Inv L F (Heap.upTo L MEMSIZE) ∧ F.length = (MEMSIZE - L.kernel_end) / 4096 := by
  obtain ⟨_, σ, hkinit, F, hheap, hlength, -, hzero⟩ :=
    wp_total.mp (@Heap.wp_kinit L ⟨m, 0, []⟩ _ rfl)
  refine ⟨⟨σ, []⟩, F, ?_, ⟨hheap, hzero, List.nodup_nil, fun p => ?_, by simp⟩, hlength⟩
  · simp only [bootPool, hkinit]
    rfl
  · rw [hheap.free p, Heap.upTo]
    constructor
    · intro hp
      exact .inl (if_pos hp)
    · rintro (hp | hp)
      · by_contra hpage
        unfold IsPage at hpage
        rw [if_neg hpage] at hp
        cases hp
      · cases hp

/-- The invariant holds in every state that is reached. -/
theorem inv_of_path (h₀ : bootPool L m = .ok u₀) (h : (poolMachine L).Path Pool.Allowed u₀ u) :
    ∃ F own, u.Inv L F own := by
  apply h.invariant (I := fun u => ∃ F own, u.Inv L F own)
  · obtain ⟨u₁, F, h₁, hinv, -⟩ := exists_bootPool L m
    obtain rfl : u₁ = u₀ := by simpa using h₁.symm.trans h₀
    exact ⟨F, _, hinv⟩
  · rintro u use u' ⟨F, own, hinv⟩ hallowed hstep
    obtain ⟨u₁, F', own', hexec, hinv'⟩ := hinv.exec hallowed
    obtain rfl : u₁ = u' := by simpa [poolMachine, hexec, Except.toOption] using hstep
    exact ⟨F', own', hinv'⟩

/-- **The allocator**, in every state reached from `kinit` by calls of `kalloc`, calls of `kfree`
for pages that are held, and stores to pages that are held. -/
theorem pool_serves (h₀ : bootPool L m = .ok u₀) (h : (poolMachine L).Path Pool.Allowed u₀ u) :
    Serves L u := by
  obtain ⟨F, own, hinv⟩ := inv_of_path h₀ h
  exact hinv.serves

/-- On the small machine: a page is taken, written and given back. -/
theorem pool_serves_small : ∃ u₀ p u, bootPool smallLayout (fun _ => 0) = .ok u₀ ∧
    (poolMachine smallLayout).Path Pool.Allowed u₀ u ∧ Managed smallLayout p ∧
    u.phys.coremap = p ∧ Serves smallLayout u := by
  obtain ⟨u₀, F, h₀, hinv, hlength⟩ := exists_bootPool smallLayout fun _ => 0
  cases F with
  | nil => exact absurd hlength (by decide)
  | cons p F =>
      have hp := hinv.isPage_of_mem (List.mem_cons_self ..)
      have hheld : p ∈ p :: u₀.held := List.mem_cons_self ..
      have hpage : page (p + 5) ∈ p :: u₀.held := by
        rw [page_add hp.1 (by decide)]
        exact hheld
      have h₁ : (poolMachine smallLayout).Path Pool.Allowed u₀ ⟨u₀.phys.take p, p :: u₀.held⟩ :=
        .snoc .kalloc .refl trivial (congrArg Except.toOption hinv.heap.exec_kalloc)
      have h₂ := h₁.snoc (Use.write (p + 5) 7) hpage rfl
      have h₃ := h₂.snoc (Use.kfree p) hheld
        (congrArg Except.toOption hp.exec_kfree)
      exact ⟨u₀, p, _, h₀, h₃, managed_iff.mpr hp, rfl, pool_serves h₀ h₃⟩

end Mixv6.Mm
