import Mixv6.Mm.Dealloc
import Mathlib.Data.Finset.Lattice.Fold

/-!
# A new address space

`setupkvm` takes a page for the directory and maps the kernel into it; when it runs out of
memory it tears down what it has built so far.

## Main definitions

* `KernelTo`, `wp_mapKernel` — the kernel half of a new address space.
* `kvmPages`, `Made`, `Unmade`, `wp_setupkvm` — what `setupkvm` leaves behind.
-/

namespace Mixv6.Mm

open Mixv6.Lib

variable {L : Layout} {s hi lo n p : ℕ} {σ σ' : Phys} {g g' : Ghost} {F : List ℕ} {own : ℕ → Tag}
  {E : Panic → Prop}

/-! ## The directory -/

/-- An address space with an empty directory. -/
def Space.empty (p : ℕ) : Space := ⟨p, fun _ => none, fun _ => 0⟩

/-- The state after `setupkvm` has cleared its directory. -/
def Phys.newDir (σ : Phys) (p : ℕ) : Phys := { σ.take p with mem := σ.mem.fill p 0 4096 }

theorem Heap.newDir (h : Heap L σ (p :: F) own) (hnew : ∀ q, ¬ (own q).of s) :
    Vm L s (σ.newDir p) ⟨F, Function.update own p (.dir s), Space.empty p⟩ ∧
      Frame s σ own (σ.newDir p) (Function.update own p (.dir s)) := by
  have hfree : own p = .free := (h.free p).mp (by simp)
  have hpage : IsPage L p := h.pages p (by simp [hfree])
  have hpa := hpage.1
  have hmem : ∀ x, page x ≠ p → (σ.newDir p).mem x = (σ.take p).mem x := by
    intro x hx
    simp only [page] at hx
    exact Mem.fill_of_ne (by omega)
  have hpF : p ∉ F := (List.nodup_cons.mp h.nodup).1
  refine ⟨⟨?_, ?_⟩, ?_⟩
  · refine (h.take (show Tag.dir s ≠ .free by simp)).congr rfl fun q hq x hx => hmem x ?_
    rintro rfl
    exact hpF (hx ▸ hq)
  · refine ⟨fun i hi => ?_, ?_, fun _ _ => rfl, fun q => ?_, fun i q => ?_, ?_, ?_, ?_⟩
    · exact Mem.load32_fill_zero (by simp only [Space.empty]; omega)
    · intro i t ht
      cases ht
    · by_cases hq : q = p
      · subst hq; simp [Space.empty]
      · simp only [Function.update_of_ne hq, Space.empty, hq, iff_false]
        intro hd
        exact hnew q (by rw [hd]; rfl)
    · by_cases hq : q = p
      · subst hq; simp [Space.empty]
      · simp only [Function.update_of_ne hq, Space.empty, reduceCtorEq, iff_false]
        intro hd
        exact hnew q (by rw [hd]; rfl)
    · intro i t ht
      cases ht
    · exact fun v _ hp => by simp [Space.empty, present] at hp
    · exact fun v _ hp => by simp [Space.empty, present] at hp
  · exact (Frame.take hfree (show (Tag.dir s).of s from rfl)).trans (.write (p := p) (by simp [Tag.of]) hmem)

/-! ## The kernel half -/

/-- The flags that `kvminit` has for kernel page `v`. -/
def kernFlags (L : Layout) (v : ℕ) : ℕ :=
  if EXTMEM ≤ 4096 * v ∧ 4096 * v < L.rodata_end then 0 else PTE_W

/-- The pages up to `hi` are mapped, and nothing else. -/
structure KernelTo (L : Layout) (s hi : ℕ) (σ : Phys) (g : Ghost) (σ' : Phys) (g' : Ghost) : Prop where
  frame : Frame s σ g.own σ' g'.own
  grow : Grow g.sp g'.sp
  low : ∀ v < hi, present (g'.sp.pte v)
  flags : ∀ v < hi, g'.sp.pte v = 4096 * v + (kernFlags L v ||| 1)
  high : ∀ v, hi ≤ v → g'.sp.pte v = 0
  tab : ∀ i, hi ≤ 1024 * i → g'.sp.tab i = none
  count : g'.free.length + g'.sp.tables = g.free.length + g.sp.tables

/-- The next pages of the kernel are mapped. -/
theorem KernelTo.mapped {k flags : ℕ} {σ₁ : Phys} {g₁ : Ghost} (hk : KernelTo L s lo σ g σ' g')
    (hm : Mapped s lo k (4096 * lo) flags σ' g' σ₁ g₁)
    (hflags : ∀ v, lo ≤ v → v < lo + k → flags = kernFlags L v) :
    KernelTo L s (lo + k) σ g σ₁ g₁ := by
  refine ⟨hk.frame.trans hm.frame, hk.grow.trans hm.grow, fun v hv => ?_, fun v hv => ?_,
    fun v hv => ?_, fun i hi => ?_, hm.count.trans hk.count⟩
  · rw [hm.pte]
    split
    · rw [show 4096 * lo + 4096 * (v - lo) = 4096 * v by omega]
      exact present_pte (by omega)
    · exact hk.low v (by omega)
  · rw [hm.pte]
    split
    next hin =>
      rw [show 4096 * lo + 4096 * (v - lo) = 4096 * v by omega, hflags v hin.1 hin.2]
    · exact hk.flags v (by omega)
  · rw [hm.pte, if_neg (by omega)]
    exact hk.high v (by omega)
  · rw [hm.others i fun v h1 h2 => by omega]
    exact hk.tab i (by omega)

/-- Ranges that follow each other from page `lo` to page `hi`, with the flags of the kernel. -/
def Consecutive (L : Layout) : ℕ → List (ℕ × ℕ × ℕ) → ℕ → Prop
  | lo, [], hi => lo = hi
  | lo, (start, stop, flags) :: ks, hi => ∃ m, start = 4096 * lo ∧ stop = 4096 * m ∧ lo ≤ m ∧
      0 < m ∧ m ≤ 0x20000 ∧ (∀ v, lo ≤ v → v < m → flags = kernFlags L v) ∧ flags < 4096 ∧
      Consecutive L m ks hi

theorem consecutive_kmap (L : Layout) : Consecutive L 0 (kmap L) 0x20000 := by
  have h1 := L.rodata_aligned
  have h2 := L.ext_le
  have h3 := L.rodata_le
  have h4 := L.kernel_le
  simp only [PAGESIZE] at h1
  simp only [EXTMEM] at h2
  simp only [MEMSIZE] at h4
  have hext : EXTMEM = 0x100000 := rfl
  refine ⟨256, rfl, rfl, by omega, by omega, by omega, fun v _ hv => ?_, by decide, ?_⟩
  · rw [kernFlags, if_neg (by omega)]
  refine ⟨L.rodata_end / 4096, rfl, by omega, by omega, by omega, by omega, fun v hlo hv => ?_,
    by decide, ?_⟩
  · rw [kernFlags, if_pos (by omega)]
  refine ⟨0x20000, by omega, rfl, by omega, by omega, by omega, fun v hlo _ => ?_, by decide, rfl⟩
  rw [kernFlags, if_neg (by omega)]

/-- The loop of `setupkvm`. -/
theorem wp_mapKernel {ks : List (ℕ × ℕ × ℕ)} (hks : Consecutive L lo ks 0x20000) (h : Vm L s σ' g')
    (hk : KernelTo L s lo σ g σ' g') :
    wp E (mapKernel g'.sp.dir ks) (fun b σ₁ => ∃ g₁ hi, Vm L s σ₁ g₁ ∧ KernelTo L s hi σ g σ₁ g₁ ∧
      lo ≤ hi ∧ (b = true ∧ hi = 0x20000 ∨
        b = false ∧ hi < 0x20000 ∧ g₁.free = [] ∧ g₁.sp.tab (hi / 1024) = none)) σ' := by
  induction ks generalizing lo σ' g' with
  | nil =>
      obtain rfl : lo = 0x20000 := hks
      exact wp_pure.mpr ⟨g', _, h, hk, le_refl _, .inl ⟨rfl, rfl⟩⟩
  | cons range ks ih =>
      obtain ⟨start, stop, flags⟩ := range
      obtain ⟨m, rfl, rfl, hlm, hm0, hm, hsame, hflags, hks⟩ := hks
      have hsize : (4096 * m + (2 ^ 32 - 4096 * lo)) % 2 ^ 32 = 4096 * (m - lo) := by omega
      simp only [mapKernel, hsize]
      refine wp_seq (wp_mappages h (by omega) (by omega) (by omega) (by omega) hflags ?_ ?_) ?_
      · intro v h1 h2
        rw [hk.high v h1]
        simp [present]
      · intro k hkm
        have hpa : (4096 * lo + 4096 * k) % 4096 = 0 := by omega
        refine ⟨pte_lt hpa (by omega) hflags, fun hv => by omega, fun _ _ => ?_⟩
        rw [PTE_ADDR_pte hpa hflags]
        omega
      · rintro r σ₁ ⟨g₁, k, h₁, hm₁, hr⟩
        rcases hr with ⟨rfl, rfl⟩ | ⟨rfl, hkn, hnil, hnone⟩
        · have hk₁ := hk.mapped hm₁ fun v h1 h2 => hsame v h1 (by omega)
          rw [show lo + (m - lo) = m by omega] at hk₁
          rw [if_neg (by decide), ← hm₁.grow.dir]
          refine wp_mono (ih hks h₁ hk₁) ?_
          rintro b σ₂ ⟨g₂, hi, h₂, hk₂, hle, hb⟩
          exact ⟨g₂, hi, h₂, hk₂, by omega, hb⟩
        · rw [if_pos (by decide), wp_pure]
          exact ⟨g₁, lo + k, h₁, hk.mapped hm₁ fun v h1 h2 => hsame v h1 (by omega), by omega,
            .inr ⟨rfl, by omega, hnil, hnone⟩⟩

/-! ## `setupkvm` -/

/-- How many pages the kernel half takes: the directory and 128 page tables. -/
def kvmPages : ℕ := 129

/-- All page tables of the kernel half are there. -/
theorem KernelTo.tables_eq (hk : KernelTo L s 0x20000 σ g σ' g') (h' : Vm L s σ' g') :
    g'.sp.tables = 128 := by
  have htables : (Finset.range 1024).filter (fun i => g'.sp.tab i ≠ none) = Finset.range 128 := by
    ext i
    simp only [Finset.mem_filter, Finset.mem_range]
    constructor
    · rintro ⟨-, hsome⟩
      by_contra hcon
      exact hsome (hk.tab i (by omega))
    · intro hi
      refine ⟨by omega, fun hnone => ?_⟩
      have hp := hk.low (1024 * i) (by omega)
      rw [h'.space.absent (1024 * i) (by rwa [Nat.mul_div_cancel_left i (by decide)])] at hp
      simp [present] at hp
  rw [Space.tables, htables, Finset.card_range]

/-- Some of them are missing. -/
theorem KernelTo.tables_lt (hk : KernelTo L s hi σ g σ' g') (hhi : hi < 0x20000)
    (hnone : g'.sp.tab (hi / 1024) = none) : g'.sp.tables < 128 := by
  have hsub : (Finset.range 1024).filter (fun i => g'.sp.tab i ≠ none) ⊆ Finset.range (hi / 1024) := by
    intro i hi'
    obtain ⟨-, hsome⟩ := Finset.mem_filter.mp hi'
    have hlt : 1024 * i < hi := by
      by_contra hcon
      exact hsome (hk.tab i (by omega))
    have hne : i ≠ hi / 1024 := by
      rintro rfl
      exact hsome hnone
    exact Finset.mem_range.mpr (by omega)
  have hcard := Finset.card_le_card hsub
  rw [Finset.card_range] at hcard
  rw [Space.tables]
  omega

/-- The address space that `setupkvm` returns: the kernel half and nothing else. -/
structure Made (L : Layout) (s : ℕ) (σ : Phys) (F : List ℕ) (own : ℕ → Tag) (σ' : Phys)
    (g' : Ghost) : Prop where
  vm : Vm L s σ' g'
  frame : Frame s σ own σ' g'.own
  kern : ∀ v < 0x20000, present (g'.sp.pte v)
  flags : ∀ v < 0x20000, g'.sp.pte v = 4096 * v + (kernFlags L v ||| 1)
  user : ∀ v, 0x20000 ≤ v → g'.sp.pte v = 0
  tab : ∀ i, 128 ≤ i → g'.sp.tab i = none
  count : g'.free.length + kvmPages = F.length

/-- What is left of an address space that could not be built for want of memory.  The page
table of directory entry 0 is lost, unless not even that could be had. -/
structure Unmade (L : Layout) (s : ℕ) (σ : Phys) (F : List ℕ) (own : ℕ → Tag) (σ' : Phys)
    (F' : List ℕ) (own' : ℕ → Tag) : Prop where
  heap : Heap L σ' F' own'
  frame : Frame s σ own σ' own'
  restored : F.length ≤ 1 → own' = own
  lost : 2 ≤ F.length → ∃ p, own p = .free ∧ own' p = .table s 0

/-- The address space that a page belongs to. -/
def Tag.space : Tag → ℕ
  | .dir s | .table s _ | .user s _ => s
  | _ => 0

theorem Tag.space_of {tag : Tag} (h : tag.of s) : tag.space = s := by
  cases tag <;> simp_all [Tag.space, Tag.of]

/-- No page belongs to an address space that comes after all others. -/
theorem Heap.exists_fresh (h : Heap L σ F own) (t : ℕ) : ∃ s, t ≠ s ∧ ∀ q, ¬ (own q).of s := by
  refine ⟨t + (Finset.range MEMSIZE).sup (fun q => (own q).space) + 1, by omega, fun q hq => ?_⟩
  have hout : own q ≠ .out := by
    intro hout
    rw [hout] at hq
    exact hq
  have hmem : q ∈ Finset.range MEMSIZE := Finset.mem_range.mpr (h.pages q hout).2.2
  have hle : (own q).space ≤ (Finset.range MEMSIZE).sup fun q => (own q).space :=
    Finset.le_sup (f := fun q => (own q).space) hmem
  have hspace := Tag.space_of hq
  omega

/-- A page that an address space without pages has got was free before. -/
theorem Frame.free_of {own' : ℕ → Tag} (hf : Frame s σ own σ' own') (hnew : ∀ q, ¬ (own q).of s)
    (hp : (own' p).of s) : own p = .free := by
  obtain ⟨new, hf⟩ := hf
  rcases hf.gained p hp with hs | hmem
  · exact absurd hs (hnew p)
  · exact (hf.fresh p hmem).resolve_right (hnew p)

/-- The page table of directory entry 0 does not come back. -/
theorem Torn.lost {own' : ℕ → Tag} {F' : List ℕ} {σ₁ σ₂ : Phys} {g₁ : Ghost} {t : ℕ}
    (hnew : ∀ q, ¬ (own q).of s) (h₁ : Vm L s σ₁ g₁) (hframe : Frame s σ own σ₁ g₁.own)
    (htab : g₁.sp.tab 0 = some t) (ht : Torn L s σ₁ g₁ σ₂ F' own') :
    ∃ p, own p = .free ∧ own' p = .table s 0 := by
  have hown := h₁.space.own_tab htab
  have hkept : own' t = .table s 0 := by
    rw [ht.kept t (h₁.space.tab_ne_dir htab) (fun i hi htab' => ?_) fun v hv _ hp hvt => ?_, hown]
    · have := h₁.space.tab_inj htab htab'
      omega
    · have := h₁.space.user v hv hp
      rw [hvt, hown] at this
      cases this
  exact ⟨t, (hframe.trans ht.frame).free_of hnew (by rw [hkept]; rfl), hkept⟩

/-- A mapped page has a page table. -/
theorem Vm.tab_of_present {v : ℕ} (h : Vm L s σ g) (hp : present (g.sp.pte v)) :
    ∃ t, g.sp.tab (v / 1024) = some t := by
  obtain ⟨t, ht, -⟩ := h.entry_table (h.entry_ne_zero hp)
  exact ⟨t, ht⟩

/-- The kernel half could not be completed. -/
theorem Torn.unmade {own' : ℕ → Tag} {F' : List ℕ} {σ₁ σ₂ : Phys} {g₁ : Ghost}
    (h : Heap L σ (p :: F) own) (hnew : ∀ q, ¬ (own q).of s) (h₁ : Vm L s σ₁ g₁)
    (hk : KernelTo L s hi (σ.newDir p) ⟨F, Function.update own p (.dir s), .empty p⟩ σ₁ g₁)
    (hhi : hi < 0x20000) (hnil : g₁.free = []) (hnone : g₁.sp.tab (hi / 1024) = none)
    (ht : Torn L s σ₁ g₁ σ₂ F' own') :
    (p :: F).length < kvmPages ∧ Unmade L s σ (p :: F) own σ₂ F' own' := by
  have hframe := (h.newDir hnew).2.trans hk.frame
  have hcount := hk.count
  have hempty : (Space.empty p).tables = 0 := by simp [Space.tables, Space.empty]
  have htables := hk.tables_lt hhi hnone
  simp only [hnil, List.length_nil, hempty] at hcount
  refine ⟨by simp only [List.length_cons, kvmPages]; omega, ht.heap, hframe.trans ht.frame, fun hlen => ?_,
    fun hlen => ?_⟩
  · -- Nothing but the directory was there to take.
    obtain rfl : F = [] := by
      simp only [List.length_cons] at hlen
      exact List.length_eq_zero_iff.mp (by omega)
    funext q
    by_cases hq : q = p
    · rw [hq, (h.free p).mp (by simp), ← ht.dir, hk.grow.dir]
      rfl
    · have hqfree : own q ≠ .free := fun hfree => hq (by simpa using (h.free q).mpr hfree)
      obtain ⟨new, hf⟩ := hframe.trans ht.frame
      exact hf.others q hqfree (hnew q)
  · simp only [List.length_cons] at hlen
    -- The first entry has been made, so its page table has been taken.
    have hpos : hi ≠ 0 := by
      rintro rfl
      have hall : ∀ i, g₁.sp.tab i = none := fun i => hk.tab i (by omega)
      have hzero : g₁.sp.tables = 0 := by simp [Space.tables, hall]
      omega
    obtain ⟨t, htab⟩ := h₁.tab_of_present (hk.low 0 (by omega))
    exact ht.lost hnew h₁ hframe htab

/-- **`setupkvm`** builds the kernel half of a new address space, or returns 0. -/
theorem wp_setupkvm (h : Heap L σ F own) (hnew : ∀ q, ¬ (own q).of s) :
    wp E (setupkvm L) (fun r σ' =>
      (r ≠ 0 ∧ ∃ g', r = g'.sp.dir ∧ Made L s σ F own σ' g') ∨
      (r = 0 ∧ F.length < kvmPages ∧ ∃ F' own', Unmade L s σ F own σ' F' own')) σ := by
  refine wp_bind.mpr (h.wp_kalloc (fun hnil => ?_) fun p F' hF hp => ?_)
  · subst hnil
    rw [if_pos rfl, wp_pure]
    exact .inr ⟨rfl, by decide, [], own, h, .refl .., fun _ => rfl, fun hlen => by simp at hlen⟩
  · subst hF
    obtain ⟨h₁, hf₁⟩ := h.newDir hnew
    have hk₁ : KernelTo L s 0 (σ.newDir p) ⟨F', Function.update own p (.dir s), .empty p⟩
        (σ.newDir p) ⟨F', Function.update own p (.dir s), .empty p⟩ :=
      ⟨.refl .., .refl _, fun v hv => by omega, fun v hv => by omega, fun _ _ => rfl, fun _ _ => rfl,
        rfl⟩
    have hempty : (Space.empty p).tables = 0 := by simp [Space.tables, Space.empty]
    simp only [if_neg hp, memset, wp_bind, wp_modify]
    refine wp_mono (wp_mapKernel (consecutive_kmap L) h₁ hk₁) ?_
    rintro b σ₂ ⟨g₂, hi, h₂, hk₂, -, hb⟩
    have hdir : g₂.sp.dir = p := hk₂.grow.dir
    have hcount := hk₂.count
    simp only [hempty] at hcount
    rcases hb with ⟨rfl, rfl⟩ | ⟨rfl, hhi, hnil, hnone⟩
    · rw [if_pos rfl, wp_pure]
      refine .inl ⟨hp, g₂, hdir.symm, h₂, hf₁.trans hk₂.frame, hk₂.low, hk₂.flags, hk₂.high,
        fun i hi => hk₂.tab i (by omega), ?_⟩
      have htables := hk₂.tables_eq h₂
      simp only [List.length_cons, kvmPages]
      omega
    · refine wp_bind.mpr ?_
      rw [← hdir]
      refine wp_mono (wp_freevm h₂) ?_
      rintro _ σ₃ ⟨F₃, own₃, ht⟩
      obtain ⟨hfew, hun⟩ := ht.unmade h hnew h₂ hk₂ hhi hnil hnone
      rw [wp_pure]
      exact .inr ⟨rfl, hdir ▸ hfew, F₃, own₃, hdir ▸ hun⟩

end Mixv6.Mm
