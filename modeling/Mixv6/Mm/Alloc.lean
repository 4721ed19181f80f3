import Mixv6.Mm.Setup
import Mathlib.Data.Finset.Image
import Mathlib.Order.Interval.Finset.Nat

/-!
# More user pages

`allocuvm` gives an address space zeroed pages from its top on; when it runs out of memory
it takes the new ones away again.

## Main definitions

* `Vm.takeUser`, `wp_mapPage`, `Vm.giveUser` — one page comes, is mapped, and goes.
* `Space.demand`, `Drawn` — the pages that a range takes from the free list.
* `Grown`, `Shrunk`, `wp_allocuvm` — the loop, when it ends and when it fails.
-/

namespace Mixv6.Mm

open Mixv6.Lib

variable {L : Layout} {s v lo hi k p flags : ℕ} {σ σ' : Phys} {g g' : Ghost} {F : List ℕ}
  {E : Panic → Prop}

/-! ## One page -/

/-- A page that `kalloc` gives to an address space, with whatever is written into it. -/
theorem Vm.takeUser (h : Vm L s σ g) (hF : g.free = p :: F) (v : ℕ) {m : Mem}
    (hm : ∀ x, page x ≠ p → m x = σ.mem x) :
    Vm L s { σ.take p with mem := m } ⟨F, Function.update g.own p (.user s v), g.sp⟩ ∧
      Frame s σ g.own { σ.take p with mem := m } (Function.update g.own p (.user s v)) := by
  have hfree : g.own p = .free := (h.heap.free p).mp (by simp [hF])
  obtain ⟨hdir, htab, hun⟩ := h.space.not_free hfree
  have hpF : p ∉ F := (List.nodup_cons.mp (hF ▸ h.heap.nodup)).1
  refine ⟨⟨?_, ?_⟩, ?_⟩
  · refine ((hF ▸ h.heap).take (show Tag.user s v ≠ Tag.free by simp)).congr rfl fun q hq x hx => hm x ?_
    rintro rfl
    exact hpF (hx ▸ hq)
  · refine (h.space.retag hdir htab hun
      (show Tag.user s v ≠ .dir s ∧ _ by simp)).congr (fun x hx => hm x ?_) ?_
    · rintro rfl
      simp at hx
    · intro q hq
      by_cases hqp : q = p
      · exact hqp ▸ (h.heap.pages p (by rw [hfree]; simp)).1
      · exact h.align q (by simpa [hqp] using hq)
  · exact (Frame.take hfree (show (Tag.user s v).of s from rfl)).trans (.write (p := p) (by simp [Tag.of]) hm)

/-- A page of an address space that is not mapped goes back. -/
theorem Vm.giveUser (h : Vm L s σ g) (hown : g.own p = .user s v)
    (hun : 0x40000 ≤ v → present (g.sp.pte v) → PTE_ADDR (g.sp.pte v) ≠ p) :
    Vm L s (σ.give p) ⟨p :: g.free, Function.update g.own p .free, g.sp⟩ ∧
      Frame s σ g.own (σ.give p) (Function.update g.own p .free) := by
  have hpage : IsPage L p := h.heap.pages p (by simp [hown])
  refine ⟨⟨h.heap.give (by simp [hown]) hpage, ?_⟩, .give (by rw [hown]; rfl) hpage.1⟩
  refine (h.space.retag ?_ ?_ ?_ (show Tag.free ≠ .dir s ∧ _ by simp)).congr
    (fun x hx => give_mem hpage.1 ?_) ?_
  · rintro rfl
    rw [h.space.own_dir] at hown
    cases hown
  · intro i hi
    have := h.space.own_tab hi
    rw [hown] at this
    cases this
  · intro w hw hp hwp
    have := h.space.user w hw hp
    rw [hwp, hown] at this
    cases this
    exact hun hw hp hwp
  · rintro rfl
    simp at hx
  · intro q hq
    by_cases hqp : q = p
    · exact hqp ▸ hpage.1
    · exact h.align q (by simpa [hqp] using hq)

/-- `mappages` with a single user page. -/
theorem wp_mapPage (h : Vm L s σ g) (hv : 0x40000 ≤ v) (hlt : v < 0xFFFFF)
    (hown : g.own p = .user s v) (hflags : flags < 4096) (habsent : ¬ present (g.sp.pte v)) :
    wp E (mappages g.sp.dir (4096 * v) PAGESIZE p flags)
      (fun r σ' => ∃ g' k, Vm L s σ' g' ∧ Mapped s v k p flags σ g σ' g' ∧
        (r = 0 ∧ k = 1 ∨ r = -1 ∧ k = 0 ∧ g'.free = [] ∧ g'.sp.tab (v / 1024) = none)) σ := by
  have hpage : IsPage L p := h.heap.pages p (by simp [hown])
  have hpa := hpage.1
  have hplt := hpage.lt
  refine wp_mono (wp_mappages (n := 1) h (by omega) (by omega) hpa (by omega) hflags ?_ ?_) ?_
  · intro w h1 h2
    rw [show w = v by omega]
    exact habsent
  · intro k hk
    obtain rfl : k = 0 := by omega
    refine ⟨pte_lt hpa (by omega) hflags, fun _ _ => ?_, fun hv' => by omega⟩
    rw [Nat.mul_zero, Nat.add_zero, Nat.add_zero, PTE_ADDR_pte hpa hflags, hown]
  · rintro r σ' ⟨g', k, h', hm, hr⟩
    refine ⟨g', k, h', hm, ?_⟩
    rcases hr with hr | ⟨hr, hk, hnil, hnone⟩
    · exact .inl hr
    · obtain rfl : k = 0 := by omega
      exact .inr ⟨hr, rfl, hnil, hnone⟩

/-! ## The loop -/

/-- The state after `allocuvm` has cleared its new page. -/
def Phys.newPage (σ : Phys) (p : ℕ) : Phys := { σ.take p with mem := σ.mem.fill p 0 4096 }

theorem newPage_mem {x : ℕ} (hp : p % 4096 = 0) (hx : page x ≠ p) :
    (σ.newPage p).mem x = σ.mem x := by
  simp only [page] at hx
  exact Mem.fill_of_ne (by omega)

theorem newPage_zero {x : ℕ} (hx : page x = p) : (σ.newPage p).mem x = 0 := by
  simp only [page] at hx
  exact Mem.fill_of_mem (by omega)

/-- The directory entries of the pages from `lo` up to `hi` that have no page table. -/
def Space.missing (sp : Space) (lo hi : ℕ) : Finset ℕ :=
  ((Finset.Ico lo hi).image (· / 1024)).filter fun i => sp.tab i = none

/-- How many pages it takes to map the pages from `lo` up to `hi`, with their page tables. -/
def Space.demand (sp : Space) (lo hi : ℕ) : ℕ := hi - lo + (sp.missing lo hi).card

theorem Space.mem_missing {sp : Space} {i : ℕ} :
    i ∈ sp.missing lo hi ↔ (∃ v, (lo ≤ v ∧ v < hi) ∧ v / 1024 = i) ∧ sp.tab i = none := by
  simp [missing]

theorem Space.demand_le (sp : Space) (lo hi : ℕ) : sp.demand lo hi ≤ 2 * (hi - lo) := by
  have hfilter : (sp.missing lo hi).card ≤ ((Finset.Ico lo hi).image (· / 1024)).card :=
    Finset.card_filter_le ..
  have himage : ((Finset.Ico lo hi).image (· / 1024)).card ≤ (Finset.Ico lo hi).card :=
    Finset.card_image_le
  rw [Nat.card_Ico] at himage
  simp only [demand]
  omega

/-- The pages from `lo` up to `k`, and their page tables, have been taken from the free list. -/
structure Drawn (lo k : ℕ) (g g' : Ghost) : Prop where
  tab : ∀ i t, g.sp.tab i = some t → g'.sp.tab i = some t
  others : ∀ i, (∀ v, lo ≤ v → v < k → v / 1024 ≠ i) → g'.sp.tab i = g.sp.tab i
  covered : ∀ v, lo ≤ v → v < k → g'.sp.tab (v / 1024) ≠ none
  count : g'.free.length + g'.sp.tables + (k - lo) = g.free.length + g.sp.tables

namespace Drawn

theorem refl (lo : ℕ) (g : Ghost) : Drawn lo lo g g where
  tab _ _ ht := ht
  others _ _ := rfl
  covered v h1 h2 := by omega
  count := by omega

/-- The next page has been mapped. -/
theorem step (hd : Drawn lo k g g') (hF : g'.free = p :: F) {own₁ : ℕ → Tag} {σ₁ : Phys} {g₁ : Ghost}
    (hm : Mapped s k 1 p flags σ ⟨F, own₁, g'.sp⟩ σ₁ g₁) (h₁ : Vm L s σ₁ g₁)
    (hp : present (g₁.sp.pte k)) (hk : lo ≤ k) : Drawn lo (k + 1) g g₁ where
  tab i t ht := hm.grow.tab i t (hd.tab i t ht)
  others i hi := by
    rw [hm.others i fun v h1 h2 => hi v (by omega) (by omega)]
    exact hd.others i fun v h1 h2 => hi v h1 (by omega)
  covered v h1 h2 := by
    by_cases hv : v = k
    · subst hv
      intro hnone
      rw [h₁.space.absent v hnone] at hp
      simp [present] at hp
    · obtain ⟨t, ht⟩ := Option.ne_none_iff_exists'.mp (hd.covered v h1 (by omega))
      rw [hm.grow.tab _ t ht]
      simp
  count := by
    have hcount := hm.count
    have hcount' := hd.count
    simp only [hF, List.length_cons] at hcount hcount'
    omega

/-- The page tables that are new are those that were missing. -/
theorem tables_eq (hd : Drawn lo k g g') (hk : k ≤ 2 ^ 20) :
    g'.sp.tables = g.sp.tables + (g.sp.missing lo k).card := by
  have hunion : (Finset.range 1024).filter (fun i => g'.sp.tab i ≠ none) =
      (Finset.range 1024).filter (fun i => g.sp.tab i ≠ none) ∪ g.sp.missing lo k := by
    ext i
    simp only [Finset.mem_union, Finset.mem_filter, Finset.mem_range, Space.mem_missing]
    constructor
    · rintro ⟨hi, hsome⟩
      by_cases hnone : g.sp.tab i = none
      · refine .inr ⟨?_, hnone⟩
        by_contra hcon
        rw [hd.others i fun v h1 h2 hvi => hcon ⟨v, ⟨h1, h2⟩, hvi⟩] at hsome
        exact hsome hnone
      · exact .inl ⟨hi, hnone⟩
    · rintro (⟨hi, hsome⟩ | ⟨⟨v, ⟨h1, h2⟩, rfl⟩, -⟩)
      · obtain ⟨t, ht⟩ := Option.ne_none_iff_exists'.mp hsome
        rw [hd.tab i t ht]
        exact ⟨hi, by simp⟩
      · exact ⟨by omega, hd.covered v h1 h2⟩
  have hdisjoint : Disjoint ((Finset.range 1024).filter fun i => g.sp.tab i ≠ none)
      (g.sp.missing lo k) := by
    rw [Finset.disjoint_left]
    intro i hi hmissing
    exact (Finset.mem_filter.mp hi).2 (Space.mem_missing.mp hmissing).2
  rw [Space.tables, hunion, Finset.card_union_of_disjoint hdisjoint, Space.tables]

theorem length_eq (hd : Drawn lo k g g') (hk : k ≤ 2 ^ 20) :
    g'.free.length + g.sp.demand lo k = g.free.length := by
  have hcount := hd.count
  have htables := hd.tables_eq hk
  simp only [Space.demand]
  omega

/-- Nothing is free for the next page. -/
theorem short (hd : Drawn lo k g g') (hk : lo ≤ k) (hkhi : k < hi) (hhi : hi ≤ 2 ^ 20)
    (hnil : g'.free = []) : g.free.length < g.sp.demand lo hi := by
  have hlength := hd.length_eq (by omega)
  have hsub : g.sp.missing lo k ⊆ g.sp.missing lo hi := by
    intro i hi'
    obtain ⟨⟨v, ⟨h1, h2⟩, hvi⟩, hnone⟩ := Space.mem_missing.mp hi'
    exact Space.mem_missing.mpr ⟨⟨v, ⟨h1, by omega⟩, hvi⟩, hnone⟩
  have hcard := Finset.card_le_card hsub
  simp only [Space.demand, hnil, List.length_nil] at hlength ⊢
  omega

/-- The last free page has been taken for the next page, and there is none for its page table. -/
theorem short_table (hd : Drawn lo k g g') (hk : lo ≤ k) (hkhi : k < hi) (hhi : hi ≤ 2 ^ 20)
    (hF : g'.free = p :: F) {own₁ : ℕ → Tag} {σ₁ : Phys} {g₁ : Ghost}
    (hm : Mapped s k 0 p flags σ ⟨F, own₁, g'.sp⟩ σ₁ g₁) (hnil : g₁.free = [])
    (hnone : g₁.sp.tab (k / 1024) = none) : g.free.length < g.sp.demand lo hi := by
  have htab : g₁.sp.tab = g'.sp.tab := funext fun i => hm.others i fun v h1 h2 => by omega
  have hlast : F.length = 0 := by
    have hcount := hm.count
    simp only [Space.tables, htab, hnil, List.length_nil] at hcount
    omega
  rw [htab] at hnone
  have hold : g.sp.tab (k / 1024) = none := by
    rcases ht : g.sp.tab (k / 1024) with _ | t
    · rfl
    · rw [hd.tab _ t ht] at hnone
      cases hnone
  have hnew : k / 1024 ∉ g.sp.missing lo k := by
    intro hmissing
    obtain ⟨⟨v, ⟨h1, h2⟩, hvk⟩, -⟩ := Space.mem_missing.mp hmissing
    exact hd.covered v h1 h2 (hvk ▸ hnone)
  have hsub : insert (k / 1024) (g.sp.missing lo k) ⊆ g.sp.missing lo hi := by
    intro i hi'
    rcases Finset.mem_insert.mp hi' with rfl | hi'
    · exact Space.mem_missing.mpr ⟨⟨k, ⟨hk, hkhi⟩, rfl⟩, hold⟩
    · obtain ⟨⟨v, ⟨h1, h2⟩, hvi⟩, hnone'⟩ := Space.mem_missing.mp hi'
      exact Space.mem_missing.mpr ⟨⟨v, ⟨h1, by omega⟩, hvi⟩, hnone'⟩
  have hcard := Finset.card_le_card hsub
  have hlength := hd.length_eq (by omega)
  rw [Finset.card_insert_of_notMem hnew] at hcard
  simp only [Space.demand, hF, List.length_cons] at hlength ⊢
  omega

end Drawn

/-- The pages from `lo` up to `k` are new, zeroed and mapped for the user. -/
structure Grown (s lo k : ℕ) (σ : Phys) (g : Ghost) (σ' : Phys) (g' : Ghost) : Prop where
  frame : Frame s σ g.own σ' g'.own
  grow : Grow g.sp g'.sp
  inside : ∀ v, lo ≤ v → v < k → present (g'.sp.pte v) ∧ PTE_FLAGS (g'.sp.pte v) = 7
  outside : ∀ v, v < lo ∨ k ≤ v → g'.sp.pte v = g.sp.pte v
  others : ∀ i, (∀ v, lo ≤ v → v < k → v / 1024 ≠ i) → g'.sp.tab i = g.sp.tab i
  own : ∀ p, g.own p ≠ .free → g'.own p = g.own p
  zero : ∀ v, lo ≤ v → v < k → ∀ x, page x = PTE_ADDR (g'.sp.pte v) → σ'.mem x = 0
  user : ∀ x w, g.own (page x) = .user s w → σ'.mem x = σ.mem x
  count : g'.free.length + g'.sp.tables + (k - lo) = g.free.length + g.sp.tables
  fresh : ∀ v, lo ≤ v → v < k → g.own (PTE_ADDR (g'.sp.pte v)) = .free
  used : ∀ p, g.own p = .free → g'.own p = .free ∨ (∃ i, g'.own p = .table s i) ∨
    ∃ v, lo ≤ v ∧ v < k ∧ PTE_ADDR (g'.sp.pte v) = p
  idle : ∀ x, g'.own (page x) = .free → σ'.mem x = σ.mem x

/-- No page from `lo` up to `hi` is mapped any more, and what was mapped stays. -/
structure Undone (s lo hi : ℕ) (σ : Phys) (g : Ghost) (σ' : Phys) (g' : Ghost) : Prop where
  frame : Frame s σ g.own σ' g'.own
  grow : Grow g.sp g'.sp
  inside : ∀ v, lo ≤ v → v < hi → ¬ present (g'.sp.pte v)
  outside : ∀ v, v < lo ∨ hi ≤ v → g'.sp.pte v = g.sp.pte v
  cleared : ∀ v, lo ≤ v → v < hi → g'.sp.pte v = 0 ∨ g'.sp.pte v = g.sp.pte v
  own : ∀ p, g.own p ≠ .free → g'.own p = g.own p
  user : ∀ x w, g.own (page x) = .user s w → σ'.mem x = σ.mem x

/-- Memory has run out.  The pages that were free are free again, but for new page tables. -/
structure Shrunk (s lo hi : ℕ) (σ : Phys) (g : Ghost) (σ' : Phys) (g' : Ghost) : Prop
    extends Undone s lo hi σ g σ' g' where
  short : g.free.length < g.sp.demand lo hi
  back : ∀ p, g.own p = .free → g'.own p = .free ∨ ∃ i, g'.own p = .table s i

namespace Grown

theorem refl (s lo : ℕ) (σ : Phys) (g : Ghost) : Grown s lo lo σ g σ g where
  frame := .refl ..
  grow := .refl _
  inside v h1 h2 := by omega
  outside _ _ := rfl
  others _ _ := rfl
  own _ _ := rfl
  zero v h1 h2 := by omega
  user _ _ _ := rfl
  count := by omega
  fresh v h1 h2 := by omega
  used _ := .inl
  idle _ _ := rfl

/-- The next page has been mapped. -/
theorem step (hg : Grown s lo k σ g σ' g') (h : Vm L s σ' g') (hF : g'.free = p :: F)
    {σ₁ : Phys} {g₁ : Ghost}
    (hm : Mapped s k 1 p 6 (σ'.newPage p) ⟨F, Function.update g'.own p (.user s k), g'.sp⟩ σ₁ g₁)
    (hlo : 0x40000 ≤ lo) (hk : lo ≤ k) :
    Grown s lo (k + 1) σ g σ₁ g₁ := by
  have hfree : g'.own p = .free := (h.heap.free p).mp (by simp [hF])
  have hpage : IsPage L p := h.heap.pages p (by simp [hfree])
  have hpa := hpage.1
  have hframe := (h.takeUser hF k (m := (σ'.newPage p).mem) fun x => newPage_mem hpa).2
  have hold : ∀ v, v ≠ k → g₁.sp.pte v = g'.sp.pte v := by
    intro v hv
    rw [hm.pte, if_neg (by omega)]
  have hnew : g₁.sp.pte k = p + 7 := by
    rw [hm.pte, if_pos (by omega)]
    simp only [Nat.sub_self]
    rfl
  have hentry : present (p + 7) ∧ PTE_ADDR (p + 7) = p ∧ PTE_FLAGS (p + 7) = 7 := by
    simp only [present, PTE_ADDR, PTE_FLAGS, decide_eq_true_eq]
    omega
  refine ⟨(hg.frame.trans hframe).trans hm.frame, hg.grow.trans hm.grow, fun v h1 h2 => ?_,
    fun v hv => ?_, fun i hi => ?_, fun q hq => ?_, fun v h1 h2 x hx => ?_, fun x w hx => ?_, ?_,
    fun v h1 h2 => ?_, fun q hq => ?_, fun x hx => ?_⟩
  · by_cases hv : v = k
    · rw [hv, hnew]
      exact ⟨hentry.1, hentry.2.2⟩
    · rw [hold v hv]
      exact hg.inside v h1 (by omega)
  · rw [hold v (by omega), hg.outside v (by omega)]
  · rw [hm.others i fun v h1 h2 => hi v (by omega) (by omega)]
    exact hg.others i fun v h1 h2 => hi v h1 (by omega)
  · have hq' := hg.own q hq
    have hqp : q ≠ p := by
      rintro rfl
      rw [← hq', hfree] at hq
      exact hq rfl
    have := hm.own q (by simp only [Function.update_of_ne hqp]; rw [hq']; exact hq)
    simpa only [Function.update_of_ne hqp, hq'] using this
  · by_cases hv : v = k
    · rw [hv, hnew, hentry.2.1] at hx
      rw [hm.user x k (by simp [hx]), newPage_zero hx]
    · rw [hold v hv] at hx
      have hown := h.space.user v (by omega) (hg.inside v h1 (by omega)).1
      rw [← hx] at hown
      have hxp : page x ≠ p := by
        intro hxp
        rw [hxp, hfree] at hown
        cases hown
      rw [hm.user x v (by simp [hxp, hown]), newPage_mem hpa hxp, hg.zero v h1 (by omega) x hx]
  · have hx' := hg.own _ (by rw [hx]; simp)
    have hxp : page x ≠ p := by
      intro hxp
      rw [hx, hxp, hfree] at hx'
      cases hx'
    rw [hm.user x w (by simp [hxp, hx', hx]), newPage_mem hpa hxp, hg.user x w hx]
  · have hcount := hm.count
    have hcount' := hg.count
    simp only [hF, List.length_cons] at hcount hcount'
    omega
  · by_cases hv : v = k
    · rw [hv, hnew, hentry.2.1]
      by_contra hcon
      rw [hg.own p hcon] at hfree
      exact hcon hfree
    · rw [hold v hv]
      exact hg.fresh v h1 (by omega)
  · by_cases hqp : q = p
    · exact .inr (.inr ⟨k, hk, by omega, by rw [hnew, hentry.2.1, hqp]⟩)
    · rcases hg.used q hq with hq' | ⟨i, hi⟩ | ⟨v, h1, h2, hv⟩
      · exact (hm.used q (by simpa [hqp] using hq')).imp_right .inl
      · refine .inr (.inl ⟨i, ?_⟩)
        rw [hm.own q (by simp [hqp, hi])]
        simpa [hqp] using hi
      · exact .inr (.inr ⟨v, h1, by omega, by rw [hold v (by omega), hv]⟩)
  · have hx' : Function.update g'.own p (.user s k) (page x) = .free := by
      by_contra hcon
      exact hcon ((hm.own _ hcon).symm.trans hx)
    have hxp : page x ≠ p := by
      rintro hxp
      simp [hxp] at hx'
    rw [hm.idle x hx, newPage_mem hpa hxp, hg.idle x (by simpa [hxp] using hx')]

/-- It has been taken from the free list. -/
theorem drawn (hg : Grown s lo k σ g σ' g') (h' : Vm L s σ' g') : Drawn lo k g g' where
  tab := hg.grow.tab
  others := hg.others
  covered v hv hvk := by
    intro hnone
    have hp := (hg.inside v hv hvk).1
    rw [h'.space.absent v hnone] at hp
    simp [present] at hp
  count := hg.count

end Grown

/-- `deallocuvm` takes the new pages away again. -/
theorem Freed.undone {σ₁ σ₂ : Phys} {g₁ g₂ : Ghost} (hf : Freed s lo hi σ₁ g₁ σ₂ g₂)
    (hframe : Frame s σ g.own σ₁ g₁.own) (hgrow : Grow g.sp g₁.sp)
    (hout : ∀ v, v < lo ∨ hi ≤ v → g₁.sp.pte v = g.sp.pte v)
    (hin : ∀ v, lo ≤ v → v < hi → present (g₁.sp.pte v) ∧ g.own (PTE_ADDR (g₁.sp.pte v)) = .free ∨
      ¬ present (g₁.sp.pte v) ∧ g₁.sp.pte v = g.sp.pte v)
    (hown : ∀ p, g.own p ≠ .free → g₁.own p = g.own p)
    (huser : ∀ x w, g.own (page x) = .user s w → σ₁.mem x = σ.mem x) :
    Undone s lo hi σ g σ₂ g₂ := by
  have hkept : ∀ p, g.own p ≠ .free → g₂.own p = g.own p := by
    intro p hp
    rw [hf.kept p fun v h1 h2 hpres hvp => ?_, hown p hp]
    rcases hin v h1 h2 with ⟨-, hfree⟩ | ⟨hno, -⟩
    · exact hp (hvp ▸ hfree)
    · exact hno hpres
  refine ⟨hframe.trans hf.frame, hgrow.trans hf.grow, fun v h1 h2 => ?_, fun v hv => ?_,
    fun v h1 h2 => ?_, hkept, fun x w hx => ?_⟩
  · rw [hf.pte]
    by_cases hp : present (g₁.sp.pte v)
    · rw [if_pos ⟨h1, h2, hp⟩]
      simp [present]
    · rw [if_neg fun hcon => hp hcon.2.2]
      exact hp
  · rw [hf.pte, if_neg (by omega)]
    exact hout v hv
  · rw [hf.pte]
    rcases hin v h1 h2 with ⟨hp, -⟩ | ⟨hno, hsame⟩
    · exact .inl (if_pos ⟨h1, h2, hp⟩)
    · exact .inr ((if_neg fun hcon => hno hcon.2.2).trans hsame)
  · have hne : g.own (page x) ≠ .free := by
      rw [hx]
      simp
    rw [hf.user x w ((hown _ hne).trans hx) ((hkept _ hne).trans hx), huser x w hx]

/-- A page that `deallocuvm` finds free, in use as a page table, or mapped in its range. -/
theorem Freed.back {σ₁ σ₂ : Phys} {g₁ g₂ : Ghost} (hf : Freed s lo hi σ₁ g₁ σ₂ g₂)
    (hused : g₁.own p = .free ∨ (∃ i, g₁.own p = .table s i) ∨
      ∃ v, lo ≤ v ∧ v < hi ∧ present (g₁.sp.pte v) ∧ PTE_ADDR (g₁.sp.pte v) = p) :
    g₂.own p = .free ∨ ∃ i, g₂.own p = .table s i := by
  by_cases hmapped : ∃ v, lo ≤ v ∧ v < hi ∧ present (g₁.sp.pte v) ∧ PTE_ADDR (g₁.sp.pte v) = p
  · obtain ⟨v, h1, h2, hp, rfl⟩ := hmapped
    exact .inl (hf.gone v h1 h2 hp)
  · rw [hf.kept p fun v h1 h2 hp hvp => hmapped ⟨v, h1, h2, hp, hvp⟩]
    rcases hused with hfree | htable | hcon
    · exact .inl hfree
    · exact .inr htable
    · exact absurd hcon hmapped

/-- The new pages, and the others of a range that was not mapped. -/
theorem Grown.inside_or (hg : Grown s lo k σ g σ' g')
    (habsent : ∀ v, lo ≤ v → v < hi → ¬ present (g.sp.pte v)) (v : ℕ) (h1 : lo ≤ v) (h2 : v < hi) :
    present (g'.sp.pte v) ∧ g.own (PTE_ADDR (g'.sp.pte v)) = .free ∨
      ¬ present (g'.sp.pte v) ∧ g'.sp.pte v = g.sp.pte v := by
  rcases Nat.lt_or_ge v k with hlt | hge
  · exact .inl ⟨(hg.inside v h1 hlt).1, hg.fresh v h1 hlt⟩
  · have hsame := hg.outside v (.inr hge)
    exact .inr ⟨hsame ▸ habsent v h1 h2, hsame⟩

/-- There is no page table for the next page: after `deallocuvm` the page itself goes back. -/
theorem Grown.abort (hg : Grown s lo k σ g σ' g') (h : Vm L s σ' g') (hF : g'.free = p :: F)
    {σ₁ σ₂ : Phys} {g₁ g₂ : Ghost} (h₁ : Vm L s σ₁ g₁)
    (hm : Mapped s k 0 p 6 (σ'.newPage p) ⟨F, Function.update g'.own p (.user s k), g'.sp⟩ σ₁ g₁)
    (hnil : g₁.free = []) (hnone : g₁.sp.tab (k / 1024) = none) (h₂ : Vm L s σ₂ g₂)
    (hf : Freed s lo hi σ₁ g₁ σ₂ g₂) (habsent : ∀ v, lo ≤ v → v < hi → ¬ present (g.sp.pte v))
    (hlo : 0x40000 ≤ lo) (hk : lo ≤ k) (hkhi : k < hi) (hhi : hi ≤ 2 ^ 20) :
    ∃ g₃, Vm L s (σ₂.give p) g₃ ∧ Shrunk s lo hi σ g (σ₂.give p) g₃ := by
  have hpa := (h.heap.pages p (by rw [(h.heap.free p).mp (by simp [hF])]; simp)).1
  have hframe := (h.takeUser hF k (m := (σ'.newPage p).mem) fun x => newPage_mem hpa).2
  have hpte : ∀ v, g₁.sp.pte v = g'.sp.pte v := by
    intro v
    rw [hm.pte, if_neg (by omega)]
  have hown₁ : g₁.own p = .user s k := by
    rw [hm.own p (by simp)]
    simp
  have hown₂ : g₂.own p = .user s k := by
    rw [hf.kept p fun v h1 h2 hp hvp => ?_, hown₁]
    have := h₁.space.user v (by omega) hp
    rw [hvp, hown₁] at this
    cases this
    rw [hpte, hg.outside k (.inr le_rfl)] at hp
    exact habsent k hk hkhi hp
  have hpfree : g.own p = .free := by
    by_contra hcon
    have hold := hg.own p hcon
    rw [(h.heap.free p).mp (by simp [hF])] at hold
    exact hcon hold.symm
  have hne : ∀ q, g.own q ≠ .free → q ≠ p := by
    rintro q hq rfl
    exact hq hpfree
  have hown : ∀ q, g.own q ≠ .free → g₁.own q = g.own q := by
    intro q hq
    have hold := hg.own q hq
    rw [hm.own q (by simpa [hne q hq, hold] using hq)]
    simpa [hne q hq] using hold
  have hs : Undone s lo hi σ g σ₂ g₂ := by
    refine hf.undone ((hg.frame.trans hframe).trans hm.frame) (hg.grow.trans hm.grow)
      (fun v hv => by rw [hpte]; exact hg.outside v (by omega)) (fun v h1 h2 => ?_) hown
      fun x w hx => ?_
    · rw [hpte]
      exact hg.inside_or habsent v h1 h2
    · have hq : g.own (page x) ≠ .free := by
        rw [hx]
        simp
      have hxp := hne _ hq
      have hx' : g'.own (page x) = .user s w := (hg.own _ hq).trans hx
      rw [hm.user x w (by simpa [hxp] using hx'), newPage_mem hpa hxp, hg.user x w hx]
  have hshort := (hg.drawn h).short_table hk hkhi hhi hF hm hnil hnone
  obtain ⟨h₃, hf₃⟩ := h₂.giveUser hown₂ fun _ hp => absurd hp (hs.inside k hk hkhi)
  refine ⟨_, h₃, ⟨hs.frame.trans hf₃, hs.grow, hs.inside, hs.outside, hs.cleared, fun q hq => ?_,
    fun x w hx => ?_⟩, hshort, fun q hq => ?_⟩
  · simp only [Function.update_of_ne (hne q hq)]
    exact hs.own q hq
  · have hxp := hne (page x) (by rw [hx]; simp)
    rw [give_mem hpa hxp, hs.user x w hx]
  · by_cases hqp : q = p
    · exact .inl (by simp [hqp])
    · simp only [Function.update_of_ne hqp]
      apply hf.back
      rcases hg.used q hq with hfree | ⟨i, hi⟩ | ⟨v, h1, h2, hv⟩
      · exact (hm.used q (by simpa [hqp] using hfree)).imp_right .inl
      · refine .inr (.inl ⟨i, ?_⟩)
        rw [hm.own q (by simp [hqp, hi])]
        simpa [hqp] using hi
      · exact .inr (.inr ⟨v, h1, by omega, by rw [hpte]; exact (hg.inside v h1 h2).1, by rw [hpte, hv]⟩)

/-- What `allocuvm` does with a range above the pages that are mapped. -/
inductive Allocated (L : Layout) (s old new : ℕ) (σ : Phys) (g : Ghost) (r : ℕ) (σ' : Phys) : Prop
  /-- The range does not lie in user space. -/
  | high (hnew : USEREND ≤ new) (hr : r = 0) (hσ : σ' = σ)
  /-- There is nothing to do. -/
  | low (hnew : new < old) (hlt : new < USEREND) (hr : r = old) (hσ : σ' = σ)
  | done (hnew : old ≤ new) (hlt : new < USEREND) (hr : r = new) (g' : Ghost) (vm : Vm L s σ' g')
      (grown : Grown s ((old + 4095) / 4096) ((new + 4095) / 4096) σ g σ' g')
  | failed (hnew : old ≤ new) (hlt : new < USEREND) (hr : r = 0) (g' : Ghost) (vm : Vm L s σ' g')
      (shrunk : Shrunk s ((old + 4095) / 4096) ((new + 4095) / 4096) σ g σ' g')

/-- **`allocuvm`** above the pages that are mapped. -/
theorem wp_allocuvm (h : Vm L s σ g) {old new : ℕ} (hold : KERNEND ≤ old)
    (habsent : ∀ v, (old + 4095) / 4096 ≤ v → v < (new + 4095) / 4096 →
      ¬ present (g.sp.pte v)) :
    wp E (allocuvm L g.sp.dir old new) (Allocated L s old new σ g) σ := by
  by_cases hhigh : USEREND ≤ new
  · simp only [allocuvm, hhigh, ↓reduceIte, wp_pure]
    exact .high hhigh rfl rfl
  rw [Nat.not_le] at hhigh
  by_cases hlow : new < old
  · simp only [allocuvm, Nat.not_le.mpr hhigh, hlow, ↓reduceIte, wp_pure]
    exact .low hlow hhigh rfl rfl
  rw [Nat.not_lt] at hlow
  have hhigh' := hhigh
  have hold' := hold
  simp only [USEREND] at hhigh'
  simp only [KERNEND] at hold'
  have hfirst : PGROUNDUP old = 4096 * ((old + 4095) / 4096) := PGROUNDUP_eq (by omega)
  simp only [allocuvm, Nat.not_le.mpr hhigh, Nat.not_lt.mpr hlow, hfirst, ↓reduceIte]
  have hdone := fun r σ' => @Allocated.done L s old new σ g r σ' hlow hhigh
  have hfailed := fun r σ' => @Allocated.failed L s old new σ g r σ' hlow hhigh
  generalize hlo : (old + 4095) / 4096 = lo at *
  generalize hhi : (new + 4095) / 4096 = hi at *
  refine wp_iterate (fun va σ' => ∃ g' k, lo ≤ k ∧ k ≤ hi ∧ va = 4096 * k ∧ Vm L s σ' g' ∧
    Grown s lo k σ g σ' g') (fun va => 2 ^ 20 - va / 4096) ?_
    ⟨g, lo, le_refl _, by omega, rfl, h, .refl ..⟩ (by simp only [loopFuel]; omega)
  rintro _ σ' ⟨g', k, hk, hkhi, rfl, h', hg⟩
  simp only [wp_ite]
  by_cases hcond : 4096 * k < new
  · rw [if_pos hcond]
    have hnone : ¬ present (g'.sp.pte k) := by
      rw [hg.outside k (by omega)]
      exact habsent k (by omega) (by omega)
    refine wp_bind.mpr (h'.heap.wp_kalloc (fun hnil => ?_) fun p F hF hp => ?_)
    · rw [if_pos rfl, ← hg.grow.dir]
      refine wp_seq (wp_deallocuvm h' hold (by omega) (by omega)) ?_
      rintro _ σ₁ ⟨-, g₁, h₁, hf⟩
      rw [hlo, hhi] at hf
      rw [wp_pure]
      refine hfailed 0 σ₁ rfl g₁ h₁ ⟨hf.undone hg.frame hg.grow (fun v hv => hg.outside v (by omega))
        (hg.inside_or habsent) hg.own hg.user, ?_, fun q hq => hf.back ?_⟩
      · exact (hg.drawn h').short hk (by omega) (by omega) hnil
      · refine (hg.used q hq).imp_right (Or.imp_right ?_)
        rintro ⟨v, h1, h2, hv⟩
        exact ⟨v, h1, by omega, (hg.inside v h1 h2).1, hv⟩
    · have hpa := (h'.heap.pages p (by rw [(h'.heap.free p).mp (by simp [hF])]; simp)).1
      have h₁ : Vm L s (σ'.newPage p) ⟨F, Function.update g'.own p (.user s k), g'.sp⟩ :=
        (h'.takeUser hF k fun x => newPage_mem hpa).1
      have hmap := wp_mapPage (E := E) (v := k) (p := p) h₁ (by omega) (by omega) (by simp)
        (show 6 < 4096 by decide) hnone
      simp only [if_neg hp, memset, wp_bind, wp_modify]
      rw [← hg.grow.dir]
      refine wp_mono hmap ?_
      rintro r σ₂ ⟨g₂, n, h₂, hm, ⟨rfl, rfl⟩ | ⟨rfl, rfl, hnil, hnone'⟩⟩
      · have hnext := page_add_PAGESIZE (show k < 0xFFFFF by omega)
        rw [if_neg (by decide), wp_pure, hnext]
        exact ⟨⟨g₂, k + 1, by omega, by omega, rfl, h₂, hg.step h' hF hm (by omega) hk⟩, by omega⟩
      · rw [if_pos (by decide), wp_bind, ← hm.grow.dir]
        refine wp_mono (wp_deallocuvm h₂ hold (by omega) (by omega)) ?_
        rintro _ σ₃ ⟨-, g₃, h₃, hf⟩
        rw [hlo, hhi] at hf
        have hpage : IsPage L p := h₂.heap.pages p (by rw [hm.own p] <;> simp)
        obtain ⟨g₄, h₄, hs⟩ := hg.abort h' hF h₂ hm hnil hnone' h₃ hf habsent (by omega) hk
          (by omega) (by omega)
        refine wp_bind.mpr (Heap.wp_kfree hpage ?_)
        exact wp_pure.mpr (hfailed 0 _ rfl g₄ h₄ hs)
  · rw [if_neg hcond]
    obtain rfl : k = hi := by omega
    exact wp_pure.mpr (hdone new σ' rfl g' h' hg)

/-- `allocuvm` where the free list has the pages and the page tables of the range. -/
theorem wp_allocuvm_room (h : Vm L s σ g) {old new : ℕ} (hold : KERNEND ≤ old) (hle : old ≤ new)
    (hlt : new < USEREND)
    (habsent : ∀ v, (old + 4095) / 4096 ≤ v → v < (new + 4095) / 4096 → ¬ present (g.sp.pte v))
    (hroom : g.sp.demand ((old + 4095) / 4096) ((new + 4095) / 4096) ≤ g.free.length) :
    wp E (allocuvm L g.sp.dir old new) (fun r σ' => r = new ∧ ∃ g', Vm L s σ' g' ∧
      Grown s ((old + 4095) / 4096) ((new + 4095) / 4096) σ g σ' g') σ := by
  apply wp_mono (wp_allocuvm h hold habsent)
  rintro r σ' (⟨hhigh, -, -⟩ | ⟨hlow, -, -, -⟩ | ⟨-, -, rfl, g', h', hg⟩ | ⟨-, -, -, g', -, hs⟩)
  · omega
  · omega
  · exact ⟨rfl, g', h', hg⟩
  · exact absurd hs.short (by omega)

end Mixv6.Mm
