import Mixv6.Mm.Stack

/-!
# Copying an address space

`copyuvm` builds a second address space beside the first one.  The frame of what it does to
the new space keeps the old one as it was.

## Main definitions

* `Copied` — the pages that have been copied so far.
* `copyPages`, `wp_copyuvm` — the loop, with its three ways out.
-/

namespace Mixv6.Mm

open Mixv6.Lib

variable {L : Layout} {s t k : ℕ} {σ σ' : Phys} {g g' : Ghost} {F : List ℕ} {own : ℕ → Tag}
  {sp : Space} {E : Panic → Prop}

/-- The page behind entry `e'` is a copy of the one behind entry `e`. -/
structure CopyOf (m : Mem) (e e' : ℕ) : Prop where
  old : present e
  new : present e'
  flags : PTE_FLAGS e' = PTE_FLAGS e
  bytes : ∀ o < 4096, m (PTE_ADDR e' + o) = m (PTE_ADDR e + o)

/-- Neither page is stored to. -/
theorem CopyOf.congr {m m' : Mem} {e e' : ℕ} (h : CopyOf m e e')
    (hm : ∀ x, page x = PTE_ADDR e ∨ page x = PTE_ADDR e' → m' x = m x) : CopyOf m' e e' := by
  refine ⟨h.old, h.new, h.flags, fun o ho => ?_⟩
  have hpage : ∀ e, page (PTE_ADDR e + o) = PTE_ADDR e := by
    intro e
    exact page_add (PTE_ADDR_mod e) ho
  rw [hm _ (.inr (hpage e')), hm _ (.inl (hpage e)), h.bytes o ho]

/-- The new address space `s`, with pages below `k` only, beside `sp`. -/
structure Copied (L : Layout) (s t k : ℕ) (sp : Space) (σ : Phys) (own : ℕ → Tag) (σ' : Phys)
    (g' : Ghost) : Prop where
  vm : Vm L s σ' g'
  old : SpaceOk g'.own t sp σ'.mem
  frame : Frame s σ own σ' g'.own
  first : ∃ p, g'.sp.tab 0 = some p
  above : ∀ v, k ≤ v → ¬ present (g'.sp.pte v)
  below : ∀ v, 0x40000 ≤ v → v < k → CopyOf σ'.mem (sp.pte v) (g'.sp.pte v)

/-- The flags of an entry that is present. -/
theorem flags_or_one {e : ℕ} (hp : present e) : PTE_FLAGS e ||| 1 = PTE_FLAGS e := by
  simp only [present, decide_eq_true_eq] at hp
  have hodd : PTE_FLAGS e % 2 = 1 := by
    simp only [PTE_FLAGS]
    omega
  apply Nat.eq_of_testBit_eq
  intro i
  rw [Nat.testBit_or]
  cases i with
  | zero => simp [Nat.testBit_zero, hodd]
  | succ i => simp [Nat.testBit_succ]

/-- `mappages` for one address space keeps the pages of another. -/
theorem Mapped.old_page {n pa flags x w : ℕ} (hm : Mapped s k n pa flags σ g σ' g') (hst : t ≠ s)
    (hx : g.own (page x) = .user t w) : σ'.mem x = σ.mem x := by
  obtain ⟨new, hf⟩ := hm.frame
  apply hf.mem
  · intro hnew
    rcases hf.fresh _ hnew with hfree | hof
    · rw [hx] at hfree
      cases hfree
    · rw [hx] at hof
      exact hst hof
  · rw [hx]
    exact hst

namespace Copied

/-- The old address space with the allocator. -/
theorem parent (hc : Copied L s t k sp σ own σ' g') : Vm L t σ' ⟨g'.free, g'.own, sp⟩ :=
  ⟨hc.vm.heap, hc.old⟩

/-- A page for the copy. -/
theorem take (hc : Copied L s t k sp σ own σ' g') (hst : t ≠ s) {p : ℕ} {F : List ℕ}
    (hF : g'.free = p :: F) {m : Mem} (hm : ∀ x, page x ≠ p → m x = σ'.mem x) :
    Copied L s t k sp σ own { σ'.take p with mem := m }
      ⟨F, Function.update g'.own p (.user s k), g'.sp⟩ := by
  obtain ⟨h₁, hf⟩ := hc.vm.takeUser hF k hm
  refine ⟨h₁, hc.old.frame hf hst hc.vm.align, hc.frame.trans hf, hc.first, hc.above, fun v hv hlt => ?_⟩
  have hcopy := hc.below v hv hlt
  have hfree : g'.own p = .free := (hc.vm.heap.free p).mp (by simp [hF])
  apply hcopy.congr
  intro x hx
  apply hm
  rintro rfl
  rcases hx with hx | hx
  · have hown := hc.old.user v hv hcopy.old
    rw [← hx, hfree] at hown
    cases hown
  · have hown := hc.vm.space.user v hv hcopy.new
    rw [← hx, hfree] at hown
    cases hown

/-- The page has been mapped, or nothing has been. -/
theorem mapped (hc : Copied L s t k sp σ own σ' g') (hst : t ≠ s) {n pa flags : ℕ} {σ₁ : Phys}
    {g₁ : Ghost} (h₁ : Vm L s σ₁ g₁) (hm : Mapped s k n pa flags σ' g' σ₁ g₁)
    (hnew : ∀ v, k ≤ v → v < k + n → CopyOf σ₁.mem (sp.pte v) (g₁.sp.pte v)) :
    Copied L s t (k + n) sp σ own σ₁ g₁ := by
  obtain ⟨p, hp⟩ := hc.first
  refine ⟨h₁, hc.old.frame hm.frame hst hc.vm.align, hc.frame.trans hm.frame,
    ⟨p, hm.grow.tab 0 p hp⟩, fun v hv => ?_, fun v hv hlt => ?_⟩
  · rw [hm.pte, if_neg (by omega)]
    exact hc.above v (by omega)
  · by_cases hvk : v < k
    · have hcopy := hc.below v hv hvk
      rw [hm.pte, if_neg (by omega)]
      apply hcopy.congr
      rintro x (hx | hx)
      · exact hm.old_page hst (hx ▸ hc.old.user v hv hcopy.old)
      · exact hm.user x v (hx ▸ hc.vm.space.user v hv hcopy.new)
    · exact hnew v (by omega) hlt

/-- The page has been filled, and mapped. -/
theorem copied (hc : Copied L s t k sp σ own σ' g') (hst : t ≠ s) {p : ℕ} {F : List ℕ}
    (hF : g'.free = p :: F) (hp : present (sp.pte k)) (hk : 0x40000 ≤ k) {σ₁ : Phys} {g₁ : Ghost}
    (hm : Mapped s k 1 p (PTE_FLAGS (sp.pte k))
      { σ'.take p with mem := σ'.mem.movsb (PTE_ADDR (sp.pte k)) p 4096 }
      ⟨F, Function.update g'.own p (.user s k), g'.sp⟩ σ₁ g₁) :
    CopyOf σ₁.mem (sp.pte k) (g₁.sp.pte k) := by
  have hfree : g'.own p = .free := (hc.vm.heap.free p).mp (by simp [hF])
  have hpa := (hc.vm.heap.pages p (by simp [hfree])).1
  have hown := hc.old.user k hk hp
  have hqa := (hc.vm.heap.pages _ (by rw [hown]; simp)).1
  have hne : PTE_ADDR (sp.pte k) ≠ p := by
    intro heq
    rw [heq, hfree] at hown
    cases hown
  have hflags : PTE_FLAGS (sp.pte k) < 4096 := Nat.mod_lt _ (by decide)
  have hpte : g₁.sp.pte k = p + PTE_FLAGS (sp.pte k) := by
    rw [hm.pte, if_pos (by omega), Nat.sub_self, flags_or_one hp]
    omega
  have haddr : PTE_ADDR (g₁.sp.pte k) = p := by
    rw [hpte]
    simp only [PTE_ADDR]
    omega
  refine ⟨hp, ?_, ?_, fun o ho => ?_⟩
  · rw [hpte, ← flags_or_one hp]
    exact present_pte hpa
  · rw [hpte]
    simp only [PTE_FLAGS] at hflags ⊢
    omega
  · have hnew := hm.user (p + o) k (by simp [page_add hpa ho])
    have hold := hm.old_page (x := PTE_ADDR (sp.pte k) + o) (w := k) hst (by simp [page_add hqa ho, hne, hown])
    rw [haddr, hnew, hold]
    simp only
    rw [Mem.movsb_of_mem (by omega) ho, Mem.movsb_of_ne (by omega)]

/-- The page has gone back. -/
theorem give (hc : Copied L s t k sp σ own σ' g') {p : ℕ} (hown : g'.own p = .user s k) :
    ∃ g₁, g₁.sp = g'.sp ∧ Vm L s (σ'.give p) g₁ ∧ Frame s σ own (σ'.give p) g₁.own := by
  obtain ⟨h₁, hf⟩ := hc.vm.giveUser hown fun _ hp => absurd hp (hc.above k (le_refl _))
  exact ⟨⟨p :: g'.free, Function.update g'.own p .free, g'.sp⟩, rfl, h₁, hc.frame.trans hf⟩

end Copied

/-- The end of a copy that failed: `freevm`. -/
theorem wp_uncopy (h : Vm L s σ' g') (hnew : ∀ q, ¬ (own q).of s) (hlen : 2 ≤ F.length)
    (hframe : Frame s σ own σ' g'.own) {p : ℕ} (hp : g'.sp.tab 0 = some p) :
    wp E (freevm L g'.sp.dir) (fun _ σ₁ => ∃ F' own', Unmade L s σ F own σ₁ F' own') σ' := by
  refine wp_mono (wp_freevm h) ?_
  rintro _ σ₁ ⟨F', own', ht⟩
  exact ⟨F', own', ht.heap, hframe.trans ht.frame, fun h => by omega,
    fun _ => ht.lost hnew h hframe hp⟩

/-- The pages of the old address space that are to be copied are mapped, or the panics of
`copyuvm` are admitted. -/
def Copyable (E : Panic → Prop) (sp : Space) (top : ℕ) : Prop :=
  (∀ v, 0x40000 ≤ v → 4096 * v < top → present (sp.pte v)) ∨ E .copyuvmPte ∧ E .copyuvmPage

/-- How many pages the user half of an address space takes for `n` pages from `KERNEND` on: the pages
and their page tables. -/
def uvmPages (n : ℕ) : ℕ := n + (n + 1023) / 1024

/-- How many pages `copyuvm` takes for an image of `size` bytes. -/
def copyPages (size : ℕ) : ℕ := kvmPages + uvmPages ((size + 4095) / 4096)

/-- The page tables of a new address space are all missing. -/
theorem Made.demand (hm : Made L s σ F own σ' g') (n : ℕ) :
    g'.sp.demand 0x40000 (0x40000 + n) = uvmPages n := by
  have hmissing : g'.sp.missing 0x40000 (0x40000 + n) = Finset.Ico 256 (256 + (n + 1023) / 1024) := by
    ext i
    rw [Space.mem_missing, Finset.mem_Ico]
    constructor
    · rintro ⟨⟨v, ⟨h1, h2⟩, rfl⟩, -⟩
      omega
    · rintro ⟨h1, h2⟩
      exact ⟨⟨1024 * i, ⟨by omega, by omega⟩, by omega⟩, hm.tab i (by omega)⟩
  rw [Space.demand, hmissing, Nat.card_Ico, uvmPages]
  omega

/-- **`copyuvm`** makes a new address space, or returns 0 because memory has run out. -/
theorem wp_copyuvm (h : Heap L σ F own) (hsp : SpaceOk own t sp σ.mem)
    (hnew : ∀ q, ¬ (own q).of s) (hst : t ≠ s) {size : ℕ} (hsize : KERNEND + size ≤ USEREND)
    (hcopy : Copyable E sp (KERNEND + size)) :
    wp E (copyuvm L sp.dir size) (fun r σ' =>
      (r ≠ 0 ∧ copyPages size ≤ F.length ∧ ∃ g', r = g'.sp.dir ∧
        Copied L s t ((KERNEND + size + 4095) / 4096) sp σ own σ' g') ∨
      (r = 0 ∧ F.length < copyPages size ∧ ∃ F' own', Unmade L s σ F own σ' F' own')) σ := by
  simp only [KERNEND, USEREND] at hsize
  have hpages : (KERNEND + size + 4095) / 4096 = 0x40000 + (size + 4095) / 4096 := by
    simp only [KERNEND]
    omega
  refine wp_seq (wp_setupkvm h hnew) ?_
  rintro new σ₁ (⟨hne, g₁, rfl, hmade⟩ | ⟨rfl, hfew, hun⟩)
  · rw [if_neg hne]
    have hcount := hmade.count
    have hdemand := hmade.demand ((size + 4095) / 4096)
    rw [← hpages] at hdemand
    have hfirst := hmade.vm.tab_of_present (hmade.kern 0 (by decide))
    obtain ⟨q, hq⟩ : ∃ q, g₁.sp.tab 0 = some q := hfirst
    have hlen : 2 ≤ F.length := by
      rw [← hcount]
      simp only [kvmPages]
      omega
    have hold : SpaceOk g₁.own t sp σ₁.mem := hsp.frame hmade.frame hst fun p hp => (h.pages p hp).1
    have htop : (KERNEND + size) % 2 ^ 32 = KERNEND + size := by
      simp only [KERNEND]
      omega
    have hbase : 0x40000000 ≤ KERNEND + size := by
      simp only [KERNEND]
      omega
    have hend : KERNEND + size ≤ 0xFFC00000 := hsize
    have hshort : g₁.free.length < g₁.sp.demand 0x40000 ((KERNEND + size + 4095) / 4096) →
        F.length < copyPages size := by
      simp only [copyPages]
      omega
    have hdone : g₁.sp.demand 0x40000 ((KERNEND + size + 4095) / 4096) ≤ g₁.free.length →
        copyPages size ≤ F.length := by
      simp only [copyPages]
      omega
    clear hpages hdemand
    simp only [htop]
    generalize KERNEND + size = top at *
    refine wp_iterate (fun va σ' => ∃ g' k, 0x40000 ≤ k ∧ k ≤ (top + 4095) / 4096 ∧
      va = 4096 * k ∧ g'.sp.dir = g₁.sp.dir ∧ Drawn 0x40000 k g₁ g' ∧ Copied L s t k sp σ own σ' g')
      (fun va => 2 ^ 20 - va / 4096) ?_
      ⟨g₁, 0x40000, le_refl _, by omega, rfl, rfl, .refl .., hmade.vm, hold, hmade.frame, ⟨q, hq⟩, ?_,
        fun v h1 h2 => by omega⟩ (by simp only [loopFuel]; omega)
    · rintro _ σ' ⟨g', k, hk, hkle, rfl, hdir, hd, hc⟩
      simp only [wp_ite]
      by_cases hcond : 4096 * k < top
      · rw [if_pos hcond]
        refine wp_bind.mpr (wp_walk (v := k) hc.parent (by omega) ?_)
        rcases Nat.eq_zero_or_pos (sp.entry k) with hentry | hentry
        · -- No page table in the old address space.
          rw [if_pos hentry, wp_bind, wp_throw]
          refine hcopy.elim (fun hall => ?_) fun hE => hE.1
          exact absurd hentry (hc.parent.entry_ne_zero (hall k hk hcond))
        · have hload := hc.parent.load_entry hentry.ne'
          simp only [hentry.ne', load, wp_bind, wp_map, wp_get, wp_ite, bind_pure_comp,
            bind_map_left, ↓reduceIte, hload]
          split
          next hp =>
            rw [wp_throw]
            exact hcopy.elim (fun hall => absurd (hall k hk hcond) hp) fun hE => hE.2
          next hp' =>
          rw [not_not] at hp'
          rw [← hdir]
          refine hc.vm.heap.wp_kalloc (fun hnil => ?_) fun p F' hF hp => ?_
          · obtain ⟨q', hq'⟩ := hc.first
            have hfew := hshort (hd.short hk (by omega) (by omega) hnil)
            rw [if_pos rfl]
            exact wp_mono (wp_uncopy hc.vm hnew hlen hc.frame hq') fun _ _ hun =>
              .inr ⟨trivial, hfew, hun⟩
          · have hpage := hc.vm.heap.pages p (by rw [(hc.vm.heap.free p).mp (by simp [hF])]; simp)
            have hpa := hpage.1
            have hmem : ∀ x, page x ≠ p →
                σ'.mem.movsb (PTE_ADDR (sp.pte k)) p 4096 x = σ'.mem x :=
              fun x => movsb_inside hpa (le_refl _)
            have hc₁ := hc.take hst hF hmem
            have hflags : PTE_FLAGS (sp.pte k) < 4096 := Nat.mod_lt _ (by decide)
            have hmap := wp_mapPage (E := E) (v := k) (p := p) hc₁.vm hk (by omega) (by simp)
              hflags (hc.above k (le_refl _))
            rw [if_neg hp, memmove, wp_modify]
            refine wp_mono hmap ?_
            rintro r σ₂ ⟨g₂, n, h₂, hm, ⟨rfl, rfl⟩ | ⟨rfl, rfl, hnil, hnone⟩⟩
            · have hnext := page_add_PAGESIZE (show k < 0xFFFFF by omega)
              rw [if_neg (by decide), wp_pure, hnext]
              have hcopied := hc.copied hst hF hp' hk hm
              refine ⟨⟨g₂, k + 1, by omega, by omega, rfl, hm.grow.dir, hd.step hF hm h₂ hcopied.new hk,
                hc₁.mapped hst h₂ hm fun v h1 h2 => ?_⟩, by omega⟩
              obtain rfl : v = k := by omega
              exact hcopied
            · have hc₂ := hc₁.mapped hst h₂ hm fun v h1 h2 => by omega
              have hown : g₂.own p = .user s k := by
                rw [hm.own p (by simp)]
                simp
              obtain ⟨g₃, hsp₃, h₃, hf₃⟩ := hc₂.give hown
              obtain ⟨q', hq'⟩ := hc₂.first
              have hfew := hshort (hd.short_table hk (by omega) (by omega) hF hm hnil hnone)
              rw [if_pos (by decide)]
              refine Heap.wp_kfree hpage ?_
              rw [← hm.grow.dir, ← hsp₃]
              exact wp_mono (wp_uncopy h₃ hnew hlen hf₃ (hsp₃ ▸ hq')) fun _ _ hun =>
                .inr ⟨trivial, hfew, hun⟩
      · rw [if_neg hcond, wp_pure]
        obtain rfl : k = (top + 4095) / 4096 := by omega
        have hlength := hd.length_eq (by omega)
        exact .inl ⟨hne, hdone (by omega), g', hdir.symm, hc⟩
    · intro v hv
      rw [hmade.user v (by omega)]
      simp [present]
  · rw [if_pos rfl, wp_pure]
    exact .inr ⟨rfl, by simp only [copyPages]; omega, hun⟩

end Mixv6.Mm
