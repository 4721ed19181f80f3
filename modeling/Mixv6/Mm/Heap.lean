import Mixv6.Mm.Kalloc
import Mathlib.Data.List.Nodup

/-!
# Who owns a page

Each page that `kinit` puts under the control of the allocator has one owner: the free
list, a process, or a place in an address space.  The owner is recorded in a function, so
that a page with two roles cannot be written down; the invariant ties this record to the
memory.

## Main definitions

* `Tag` — the owner of a page.
* `Heap` — the free list in memory is what the record says.
* `Heap.wp_kalloc`, `Heap.wp_kfree` — the allocator moves a page from one owner to another.
-/

namespace Mixv6.Mm

open Mixv6.Lib

/-- The owner of a page. -/
inductive Tag
  /-- Not under the control of the allocator. -/
  | out
  | free
  /-- The kernel stack of process `i`. -/
  | kstack (i : ℕ)
  /-- The page directory of address space `s`. -/
  | dir (s : ℕ)
  /-- The page table of entry `i` of its directory. -/
  | table (s i : ℕ)
  /-- The user page at page number `v`. -/
  | user (s v : ℕ)
  deriving DecidableEq

/-- The page belongs to address space `s`. -/
def Tag.of (s : ℕ) : Tag → Prop
  | .dir s' | .table s' _ | .user s' _ => s' = s
  | _ => False

/-- A page that changes hands, but not to the address space. -/
theorem not_of_update {own : ℕ → Tag} {tag : Tag} {s p : ℕ} (hown : ∀ q, ¬ (own q).of s)
    (htag : ¬ tag.of s) (q : ℕ) : ¬ (Function.update own p tag q).of s := by
  by_cases hq : q = p
  · subst hq
    rwa [Function.update_self]
  · rw [Function.update_of_ne hq]
    exact hown q

/-- The page that an address lies in. -/
def page (a : ℕ) : ℕ := a / 4096 * 4096

/-- A page between the end of the kernel and the end of the memory. -/
def IsPage (L : Layout) (p : ℕ) : Prop := p % 4096 = 0 ∧ L.kernel_end ≤ p ∧ p < MEMSIZE

/-- The linked list from `head` on, through the first words of the pages `F`. -/
def Chain (m : Mem) : ℕ → List ℕ → Prop
  | head, [] => head = 0
  | head, p :: F => head = p ∧ p ≠ 0 ∧ Chain m (m.load32 p) F

/-- The allocator's part of the memory: `F` is the free list, `own` the record of owners. -/
structure Heap (L : Layout) (σ : Phys) (F : List ℕ) (own : ℕ → Tag) : Prop where
  chain : Chain σ.mem σ.coremap F
  nodup : F.Nodup
  free : ∀ p, p ∈ F ↔ own p = .free
  pages : ∀ p, own p ≠ .out → IsPage L p

theorem Chain.congr {m m' : Mem} {F : List ℕ} {head : ℕ} (h : Chain m head F)
    (hm : ∀ p ∈ F, m'.load32 p = m.load32 p) : Chain m' head F := by
  induction F generalizing head with
  | nil => exact h
  | cons p F ih =>
      obtain ⟨rfl, hne, hF⟩ := h
      refine ⟨rfl, hne, ?_⟩
      rw [hm head (by simp)]
      exact ih hF fun q hq => hm q (by simp [hq])

theorem page_eq {a : ℕ} (h : a % 4096 = 0) : page a = a := by
  simp only [page]
  omega

theorem page_add {p k : ℕ} (h : p % 4096 = 0) (hk : k < 4096) : page (p + k) = p := by
  simp only [page]
  omega

/-- A copy to a page changes no other page. -/
theorem movsb_inside {m : Mem} {src p n x : ℕ} (hp : p % 4096 = 0) (hn : n ≤ 4096)
    (hx : page x ≠ p) : m.movsb src p n x = m x := by
  simp only [page] at hx
  exact Mem.movsb_of_ne (by omega)

/-- Words of a page that no byte changes in. -/
theorem load32_page {m m' : Mem} {p a : ℕ} (h : ∀ x, page x = p → m' x = m x) (ha : page a = p)
    (halign : a % 4 = 0) : m'.load32 a = m.load32 a := by
  refine Mem.load32_congr fun k hk => h _ ?_
  rw [← ha]
  simp only [page]
  omega

namespace IsPage
variable {L : Layout} {p : ℕ}

theorem pos (h : IsPage L p) : 1048576 ≤ p := by
  have hk := h.2.1
  have h1 := L.ext_le
  have h2 := L.rodata_le
  simp only [EXTMEM] at h1
  omega

theorem lt (h : IsPage L p) : p < 536870912 := h.2.2

end IsPage

/-- The state after `kalloc` has returned `p`. -/
def Phys.take (σ : Phys) (p : ℕ) : Phys :=
  { σ with coremap := σ.mem.load32 p, handed := p :: σ.handed }

/-- The state after `kfree(p)`. -/
def Phys.give (σ : Phys) (p : ℕ) : Phys :=
  { σ with mem := (σ.mem.fill p 0 4096).store32 p σ.coremap, coremap := p }

theorem give_mem {σ : Phys} {p x : ℕ} (hp : p % 4096 = 0) (hx : page x ≠ p) :
    (σ.give p).mem x = σ.mem x := by
  simp only [page] at hx
  simp only [Phys.give]
  rw [Mem.store32_of_ne (by omega), Mem.fill_of_ne (by omega)]

/-- The free pages are zero behind their links. -/
def Zeroed (σ : Phys) (F : List ℕ) : Prop := ∀ p ∈ F, ∀ k, 4 ≤ k → k < 4096 → σ.mem (p + k) = 0

/-- A page is zero when `kfree` has taken it back. -/
theorem Zeroed.give {σ : Phys} {F : List ℕ} {p : ℕ} (h : Zeroed σ F) (hp : p % 4096 = 0)
    (hF : ∀ q ∈ F, q % 4096 = 0 ∧ q ≠ p) : Zeroed (σ.give p) (p :: F) := by
  intro q hq k hk hlt
  rcases List.mem_cons.mp hq with rfl | hq
  · simp only [Phys.give]
    rw [Mem.store32_of_ne (by omega), Mem.fill_of_mem (by omega)]
  · obtain ⟨halign, hne⟩ := hF q hq
    rw [give_mem hp (by rwa [page_add halign hlt])]
    exact h q hq k hk hlt

namespace Heap
variable {L : Layout} {σ σ' : Phys} {F : List ℕ} {own : ℕ → Tag} {p : ℕ} {E : Panic → Prop}

/-- Stores outside the free pages do not disturb the allocator. -/
theorem congr (h : Heap L σ F own) (hcore : σ'.coremap = σ.coremap)
    (hmem : ∀ p ∈ F, ∀ x, page x = p → σ'.mem x = σ.mem x) : Heap L σ' F own where
  chain := by
    rw [hcore]
    refine h.chain.congr fun p hp => ?_
    have hpage := h.pages p (by rw [(h.free p).mp hp]; simp)
    exact load32_page (hmem p hp) (page_eq hpage.1) (by have := hpage.1; omega)
  nodup := h.nodup
  free := h.free
  pages := h.pages

/-- **`kalloc`** returns 0 when nothing is free, and the first free page otherwise. -/
theorem wp_kalloc (h : Heap L σ F own) {Q : ℕ → Phys → Prop} (hnil : F = [] → Q 0 σ)
    (hcons : ∀ p F', F = p :: F' → p ≠ 0 → Q p (σ.take p)) : wp E kalloc Q σ := by
  cases F with
  | nil =>
      have hcore : σ.coremap = 0 := h.chain
      simpa [kalloc, hcore] using hnil rfl
  | cons p F =>
      obtain ⟨hcore, hne, -⟩ := h.chain
      simpa [kalloc, hcore, hne, Phys.take] using hcons p F rfl hne

/-- The page that `kalloc` returns belongs to whoever asked for it. -/
theorem take (h : Heap L σ (p :: F) own) {tag : Tag} (htag : tag ≠ .free) :
    Heap L (σ.take p) F (Function.update own p tag) where
  chain := by
    have := h.chain.2.2
    simpa [Phys.take] using this
  nodup := h.nodup.of_cons
  free q := by
    by_cases hq : q = p
    · subst hq
      simpa [htag] using (List.nodup_cons.mp h.nodup).1
    · rw [Function.update_of_ne hq, ← h.free q]
      simp [hq]
  pages q hq := by
    by_cases hqp : q = p
    · subst hqp
      exact h.pages q (by rw [(h.free q).mp (by simp)]; simp)
    · exact h.pages q (by simpa [hqp] using hq)

/-- **`kfree`** of a page with an owner. -/
theorem wp_kfree (hpage : IsPage L p) {Q : Unit → Phys → Prop} (hQ : Q () (σ.give p)) :
    wp E (kfree L p) Q σ := by
  obtain ⟨h1, h2, h3⟩ := hpage
  simpa [kfree, memset, store, PAGESIZE, h1, Nat.not_lt.mpr h2, Nat.not_le.mpr h3, Phys.give] using hQ

/-- The page is free afterwards, and its owner has lost it. -/
theorem give (h : Heap L σ F own) (hp : own p ≠ .free) (hpage : IsPage L p) :
    Heap L (σ.give p) (p :: F) (Function.update own p .free) where
  chain := by
    have hcore := h.chain
    have hpos := hpage.pos
    refine ⟨rfl, by omega, ?_⟩
    have hnext : (σ.give p).mem.load32 p = σ.coremap := by
      have hlt : σ.coremap < 2 ^ 32 := by
        cases F with
        | nil => rw [show σ.coremap = 0 from hcore]; decide
        | cons q F =>
            rw [hcore.1]
            have := (h.pages q (by rw [(h.free q).mp (by simp)]; simp)).lt
            omega
      exact Mem.load32_store32 hlt
    rw [hnext]
    refine hcore.congr fun q hq => ?_
    have hqp : q ≠ p := by rintro rfl; exact hp ((h.free q).mp hq)
    have hqpage := h.pages q (by rw [(h.free q).mp hq]; simp)
    refine load32_page (p := q) (fun x hx => give_mem hpage.1 ?_) (page_eq hqpage.1)
      (by have := hqpage.1; omega)
    rw [hx]; exact hqp
  nodup := by
    refine List.nodup_cons.mpr ⟨fun hmem => hp ((h.free p).mp hmem), h.nodup⟩
  free q := by
    by_cases hq : q = p
    · subst hq; simp
    · simp [hq, h.free]
  pages q hq := by
    by_cases hqp : q = p
    · exact hqp ▸ hpage
    · exact h.pages q (by simpa [hqp] using hq)

/-- The pages below `a` have been freed, and nothing else. -/
def upTo (L : Layout) (a p : ℕ) : Tag :=
  if p % 4096 = 0 ∧ L.kernel_end ≤ p ∧ p < a then .free else .out

/-- No page belongs to an address space. -/
theorem not_of_upTo {a : ℕ} (p s : ℕ) : ¬ (upTo L a p).of s := by
  unfold upTo
  split
  next => exact id
  next => exact id

theorem upTo_give {a : ℕ} (ha : a % 4096 = 0) (hle : L.kernel_end ≤ a) :
    Function.update (upTo L a) a .free = upTo L (a + 4096) := by
  funext p
  by_cases hp : p = a
  · subst hp
    rw [Function.update_self, upTo, if_pos ⟨ha, hle, by omega⟩]
  · rw [Function.update_of_ne hp, upTo, upTo]
    refine if_congr ?_ rfl rfl
    omega

/-- **`kinit`** frees the pages between the end of the kernel and the end of the memory. -/
theorem wp_kinit (h0 : σ.coremap = 0) :
    wp E (kinit L) (fun _ σ' => ∃ F, Heap L σ' F (upTo L MEMSIZE) ∧
      F.length = (MEMSIZE - L.kernel_end) / 4096 ∧ σ'.handed = σ.handed ∧ Zeroed σ' F) σ := by
  have halign := L.kernel_aligned
  have hend := L.kernel_le
  simp only [PAGESIZE] at halign
  simp only [MEMSIZE] at hend
  simp only [kinit, PGROUNDUP_kernel_end]
  refine wp_iterate (fun a σ' => ∃ F, a % 4096 = 0 ∧ L.kernel_end ≤ a ∧ a ≤ 0x20000000 ∧
    Heap L σ' F (upTo L a) ∧ F.length = (a - L.kernel_end) / 4096 ∧ σ'.handed = σ.handed ∧
    Zeroed σ' F)
    (fun a => 2 ^ 20 - a / 4096) ?_
    ⟨[], halign, Nat.le_refl _, hend, ⟨h0, List.nodup_nil, fun p => ?_, fun p hp => ?_⟩, by simp, rfl,
      by simp [Zeroed]⟩
    (by simp only [loopFuel]; omega)
  · rintro a σ' ⟨F, ha, hle, hlt, h, hlen, hhanded, hzero⟩
    rw [wp_ite]
    split
    next hcond =>
      have hout : upTo L a a = .out := if_neg (by omega)
      rw [wp_bind]
      refine Heap.wp_kfree ⟨ha, hle, hcond⟩ ?_
      have hgive := h.give (p := a) (by rw [hout]; simp) ⟨ha, hle, hcond⟩
      rw [upTo_give ha hle] at hgive
      simp only [MEMSIZE] at hcond
      rw [wp_pure]
      simp only [PAGESIZE]
      refine ⟨⟨a :: F, by omega, by omega, by omega, hgive, ?_, hhanded, hzero.give ha ?_⟩,
        by omega⟩
      · rw [List.length_cons, hlen]
        omega
      · intro q hq
        have hfree := (h.free q).mp hq
        refine ⟨(h.pages q (by rw [hfree]; simp)).1, ?_⟩
        rintro rfl
        rw [hout] at hfree
        cases hfree
    next hcond =>
      simp only [MEMSIZE] at hcond
      obtain rfl : a = 0x20000000 := by omega
      exact wp_pure.mpr ⟨F, h, hlen, hhanded, hzero⟩
  · simp only [upTo, List.not_mem_nil, false_iff]
    rw [if_neg (by omega)]
    simp
  · simp only [upTo] at hp
    rw [if_neg (by omega)] at hp
    exact absurd rfl hp

end Heap
end Mixv6.Mm
