import Mixv6.Mm.Mappages

/-!
# Giving pages back

`deallocuvm` frees the pages of a range and `freevm` a whole address space.

## Main definitions

* `Freed`, `wp_deallocuvm` — a range of pages.
* `Torn`, `wp_freevm` — an address space.
-/

namespace Mixv6.Mm

open Mixv6.Lib

variable {L : Layout} {s v lo hi k : ℕ} {σ σ' : Phys} {g g' : Ghost} {E : Panic → Prop}

/-- The memory pages behind the pages from `lo` up to `hi` that are mapped, in order. -/
def Space.frames (sp : Space) (lo hi : ℕ) : List ℕ :=
  (List.range' lo (hi - lo)).filterMap fun v =>
    if present (sp.pte v) then some (PTE_ADDR (sp.pte v)) else none

theorem Space.frames_self (sp : Space) (lo : ℕ) : sp.frames lo lo = [] := by
  simp [Space.frames]

/-- A range in two parts. -/
theorem Space.frames_append (sp : Space) (hlo : lo ≤ k) (hk : k ≤ hi) :
    sp.frames lo hi = sp.frames lo k ++ sp.frames k hi := by
  have hsplit : List.range' lo (k - lo) 1 ++ List.range' (lo + 1 * (k - lo)) (hi - k) 1 =
      List.range' lo (k - lo + (hi - k)) 1 := List.range'_append
  rw [show k - lo + (hi - k) = hi - lo by omega, show lo + 1 * (k - lo) = k by omega] at hsplit
  rw [Space.frames, ← hsplit, List.filterMap_append]
  rfl

theorem Space.frames_absent {sp : Space} (habsent : ∀ v, lo ≤ v → v < hi → ¬ present (sp.pte v)) :
    sp.frames lo hi = [] := by
  rw [Space.frames, List.filterMap_eq_nil_iff]
  intro v hv
  rw [List.mem_range'_1] at hv
  exact if_neg (habsent v hv.1 (by omega))

theorem Space.frames_one {sp : Space} (hp : present (sp.pte k)) :
    sp.frames k (k + 1) = [PTE_ADDR (sp.pte k)] := by
  simp [Space.frames, hp]

/-- The pages mapped from `lo` up to `hi` have been freed. -/
structure Freed (s lo hi : ℕ) (σ : Phys) (g : Ghost) (σ' : Phys) (g' : Ghost) : Prop where
  frame : Frame s σ g.own σ' g'.own
  dir : g'.sp.dir = g.sp.dir
  tab : g'.sp.tab = g.sp.tab
  pte : ∀ v, g'.sp.pte v = if lo ≤ v ∧ v < hi ∧ present (g.sp.pte v) then 0 else g.sp.pte v
  gone : ∀ v, lo ≤ v → v < hi → present (g.sp.pte v) → g'.own (PTE_ADDR (g.sp.pte v)) = .free
  kept : ∀ p, (∀ v, lo ≤ v → v < hi → present (g.sp.pte v) → PTE_ADDR (g.sp.pte v) ≠ p) →
    g'.own p = g.own p
  user : ∀ x w, g.own (page x) = .user s w → g'.own (page x) = .user s w → σ'.mem x = σ.mem x
  free : g'.free = (g.sp.frames lo hi).reverse ++ g.free

/-- The state after `deallocuvm` has freed page `p` and cleared the entry at `a`. -/
def Phys.drop (σ : Phys) (p a : ℕ) : Phys :=
  { σ.give p with mem := (σ.give p).mem.store32 a 0 }

namespace Vm

theorem user_page (h : Vm L s σ g) (hv : 0x40000 ≤ v) (hp : present (g.sp.pte v)) :
    IsPage L (PTE_ADDR (g.sp.pte v)) :=
  h.heap.pages _ (by rw [h.space.user v hv hp]; simp)

theorem entry_ne_zero (h : Vm L s σ g) (hp : present (g.sp.pte v)) : g.sp.entry v ≠ 0 := by
  intro h0
  rw [h.space.absent v (h.entry_eq_zero.mp h0)] at hp
  simp [present] at hp

/-- The entry lies in a page table. -/
theorem entry_table (h : Vm L s σ g) (hne : g.sp.entry v ≠ 0) :
    ∃ t, g.sp.tab (v / 1024) = some t ∧ g.sp.entry v = t + 4 * (v % 1024) := by
  rcases ht : g.sp.tab (v / 1024) with _ | t
  · exact absurd (h.entry_eq_zero.mpr ht) hne
  · exact ⟨t, rfl, by simp [Space.entry, ht]⟩

/-- One user page goes. -/
theorem drop (h : Vm L s σ g) (hv : 0x40000 ≤ v) (hp : present (g.sp.pte v)) :
    Vm L s (σ.drop (PTE_ADDR (g.sp.pte v)) (g.sp.entry v))
        ⟨PTE_ADDR (g.sp.pte v) :: g.free, Function.update g.own (PTE_ADDR (g.sp.pte v)) .free,
          { g.sp with pte := Function.update g.sp.pte v 0 }⟩ ∧
      Frame s σ g.own (σ.drop (PTE_ADDR (g.sp.pte v)) (g.sp.entry v))
        (Function.update g.own (PTE_ADDR (g.sp.pte v)) .free) ∧
      ∀ x w, g.own (page x) = .user s w → page x ≠ PTE_ADDR (g.sp.pte v) →
        (σ.drop (PTE_ADDR (g.sp.pte v)) (g.sp.entry v)).mem x = σ.mem x := by
  have hown := h.space.user v hv hp
  have hpage := h.user_page hv hp
  obtain ⟨t, ht, hentry⟩ := h.entry_table (h.entry_ne_zero hp)
  have htown := h.space.own_tab ht
  have hta := (h.tab_page ht).1
  generalize hq : PTE_ADDR (g.sp.pte v) = q at *
  have htq : t ≠ q := by
    rintro rfl
    rw [htown] at hown
    cases hown
  have hmem : ∀ x, page x ≠ t → (σ.drop q (g.sp.entry v)).mem x = (σ.give q).mem x := by
    intro x hx
    simp only [page] at hx
    rw [hentry]
    exact Mem.store32_of_ne (by omega)
  have htown' : Function.update g.own q .free t = .table s (v / 1024) := by
    rw [Function.update_of_ne htq, htown]
  refine ⟨⟨?_, ?_⟩, ?_, fun x w hx hxq => ?_⟩
  · refine (h.heap.give (by rw [hown]; simp) hpage).congr rfl fun p hpF x hx => hmem x ?_
    rintro rfl
    have hfree := ((h.heap.give (by rw [hown]; simp) hpage).free p).mp hpF
    rw [← hx, htown'] at hfree
    cases hfree
  · -- Clear the entry, take the page away, and then compare the memories.
    have h₁ := h.space.setPte h.align ht (e := 0)
      ⟨by decide, by simp [present], by simp [present]⟩
    have h₂ := h₁.retag (p := q) ?_ ?_ ?_ (show Tag.free ≠ .dir s ∧ _ by simp)
    · refine h₂.congr (fun x hx => ?_) ?_
      · have hxq : page x ≠ q := by
          rintro rfl
          simp at hx
        rw [← hentry]
        simp only [Phys.drop]
        by_cases hxe : g.sp.entry v ≤ x ∧ x < g.sp.entry v + 4
        · have hx' : x = g.sp.entry v ∨ x = g.sp.entry v + 1 ∨ x = g.sp.entry v + 2 ∨
              x = g.sp.entry v + 3 := by omega
          rcases hx' with rfl | rfl | rfl | rfl <;> simp [Mem.store32]
        · rw [Mem.store32_of_ne (by omega), Mem.store32_of_ne (by omega), give_mem hpage.1 hxq]
      · intro p hpo
        by_cases hpq : p = q
        · exact hpq ▸ hpage.1
        · exact h.align p (by simpa [hpq] using hpo)
    · rintro rfl
      rw [h.space.own_dir] at hown
      cases hown
    · intro i hi
      have := h.space.own_tab hi
      rw [hown] at this
      cases this
    · intro w hw hpw hwq
      by_cases hwv : w = v
      · subst hwv
        simp [present] at hpw
      · simp only [Function.update_of_ne hwv] at hpw hwq
        have := h.space.user w hw hpw
        rw [hwq, hown] at this
        cases this
        exact hwv rfl
  · refine (Frame.give (by rw [hown]; rfl) hpage.1).trans ?_
    exact Frame.write (p := t) (by rw [htown']; rfl) hmem
  · rw [hmem x, give_mem hpage.1 hxq]
    rintro rfl
    rw [htown] at hx
    cases hx

end Vm

namespace Freed

theorem grow (hf : Freed s lo hi σ g σ' g') : Grow g.sp g'.sp :=
  ⟨hf.dir, fun i t ht => by rw [hf.tab]; exact ht⟩

theorem refl (s lo : ℕ) (σ : Phys) (g : Ghost) : Freed s lo lo σ g σ g where
  frame := .refl ..
  dir := rfl
  tab := rfl
  pte v := by rw [if_neg (by omega)]
  gone v h1 h2 := by omega
  kept _ _ := rfl
  user _ _ _ _ := rfl
  free := by rw [Space.frames_self]; rfl

/-- Nothing is mapped in the next pages. -/
theorem skip (hf : Freed s lo k σ g σ' g') (hlo : lo ≤ k) (hk : k ≤ hi)
    (habsent : ∀ v, k ≤ v → v < hi → ¬ present (g'.sp.pte v)) : Freed s lo hi σ g σ' g' := by
  have hold : ∀ v, k ≤ v → v < hi → ¬ present (g.sp.pte v) := by
    intro v h1 h2 hp
    have := habsent v h1 h2
    rw [hf.pte, if_neg (by omega)] at this
    exact this hp
  refine ⟨hf.frame, hf.dir, hf.tab, fun v => ?_, fun v h1 h2 hp => ?_, fun p hp => ?_, hf.user, ?_⟩
  · rw [hf.pte]
    by_cases hv : k ≤ v ∧ v < hi
    · have := hold v hv.1 hv.2
      simp [this]
    · have : (lo ≤ v ∧ v < k ∧ present (g.sp.pte v)) ↔ lo ≤ v ∧ v < hi ∧ present (g.sp.pte v) := by
        constructor
        · exact fun ⟨h1, h2, h3⟩ => ⟨h1, by omega, h3⟩
        · exact fun ⟨h1, h2, h3⟩ => ⟨h1, by omega, h3⟩
      simp only [this]
  · by_cases hv : v < k
    · exact hf.gone v h1 hv hp
    · exact absurd hp (hold v (by omega) h2)
  · exact hf.kept p fun v h1 h2 hpv => hp v h1 (by omega) hpv
  · rw [Space.frames_append _ hlo hk, Space.frames_absent hold, List.append_nil]
    exact hf.free

/-- The next page is freed. -/
theorem drop (hf : Freed s lo k σ g σ' g') (hlo : 0x40000 ≤ lo) (hk : lo ≤ k)
    (h : Vm L s σ' g') (hp : present (g'.sp.pte k)) :
    ∃ g₁, Vm L s (σ'.drop (PTE_ADDR (g'.sp.pte k)) (g'.sp.entry k)) g₁ ∧
      Freed s lo (k + 1) σ g (σ'.drop (PTE_ADDR (g'.sp.pte k)) (g'.sp.entry k)) g₁ := by
  obtain ⟨h₁, hf₁, huser⟩ := h.drop (by omega) hp
  have hsame : g'.sp.pte k = g.sp.pte k := by rw [hf.pte, if_neg (by omega)]
  refine ⟨_, h₁, hf.frame.trans hf₁, hf.dir, hf.tab, fun v => ?_, fun v h1 h2 hpv => ?_,
    fun p hpv => ?_, fun x w hx hx' => ?_, ?_⟩
  · by_cases hv : v = k
    · subst hv
      rw [if_pos ⟨hk, by omega, hsame ▸ hp⟩]
      simp
    · simp only [Function.update_of_ne hv, hf.pte]
      have : (lo ≤ v ∧ v < k ∧ present (g.sp.pte v)) ↔
          lo ≤ v ∧ v < k + 1 ∧ present (g.sp.pte v) := by
        constructor
        · exact fun ⟨h1, h2, h3⟩ => ⟨h1, by omega, h3⟩
        · exact fun ⟨h1, h2, h3⟩ => ⟨h1, by omega, h3⟩
      simp only [this]
  · by_cases hv : v = k
    · subst hv
      simp [hsame]
    · by_cases hpq : PTE_ADDR (g.sp.pte v) = PTE_ADDR (g'.sp.pte k)
      · simp [hpq]
      · simp only [Function.update_of_ne hpq]
        exact hf.gone v h1 (by omega) hpv
  · have hpk := hpv k hk (by omega) (hsame ▸ hp)
    rw [← hsame] at hpk
    simp only [Function.update_of_ne (Ne.symm hpk)]
    exact hf.kept p fun v h1 h2 hpv' => hpv v h1 (by omega) hpv'
  · have hxq : page x ≠ PTE_ADDR (g'.sp.pte k) := by
      intro hxq
      simp [hxq] at hx'
    simp only [Function.update_of_ne hxq] at hx'
    rw [huser x w hx' hxq, hf.user x w hx hx']
  · rw [Space.frames_append _ hk (Nat.le_succ k), Space.frames_one (hsame ▸ hp), List.reverse_append,
      List.reverse_singleton, List.append_assoc, ← hf.free, hsame]
    rfl

end Freed

theorem PGADDR_dir {d : ℕ} (h : d < 1024) : PGADDR d 0 0 = d * 2 ^ 22 := by
  simp only [PGADDR, Nat.shiftLeft_eq, Nat.zero_mul, Nat.or_zero]
  omega

/-- **`deallocuvm`** frees the user pages of a range. -/
theorem wp_deallocuvm (h : Vm L s σ g) {old new : ℕ} (hnew : KERNEND ≤ new) (hlt : new < old)
    (hold : old ≤ USEREND) :
    wp E (deallocuvm L g.sp.dir old new)
      (fun r σ' => r = new ∧ ∃ g', Vm L s σ' g' ∧
        Freed s ((new + 4095) / 4096) ((old + 4095) / 4096) σ g σ' g') σ := by
  have hfirst : PGROUNDUP new = 4096 * ((new + 4095) / 4096) := PGROUNDUP_eq (by omega)
  simp only [KERNEND] at hnew
  simp only [USEREND] at hold
  simp only [deallocuvm, Nat.not_le.mpr hlt, hfirst, ↓reduceIte]
  generalize hlo : (new + 4095) / 4096 = lo
  generalize hhi : (old + 4095) / 4096 = hi
  refine wp_iterate (fun va σ' => ∃ g' v, lo ≤ v ∧ v ≤ 0xFFC00 ∧ va = 4096 * v ∧
      Vm L s σ' g' ∧ Freed s lo (min v hi) σ g σ' g') (fun va => 2 ^ 20 - va / 4096) ?_
    ⟨g, lo, le_refl _, by omega, rfl, h, ?_⟩ (by simp only [loopFuel]; omega)
  · rintro _ σ' ⟨g', v, hv, hvle, rfl, h', hf⟩
    simp only [wp_ite]
    by_cases hcond : 4096 * v < old
    · rw [if_pos hcond, ← hf.dir]
      rw [min_eq_left (by omega)] at hf
      refine wp_bind.mpr (wp_walk h' (by omega) ?_)
      have hnext := page_add_PAGESIZE (show v < 0xFFFFF by omega)
      simp only [wp_ite, wp_bind, wp_pure]
      split
      next hzero =>
        have hnone := h'.entry_eq_zero.mp hzero
        have hskip : ((PGADDR (PDX (4096 * v) + 1) 0 0 + (2 ^ 32 - PAGESIZE)) % 2 ^ 32 + PAGESIZE) %
            2 ^ 32 = 4096 * (1024 * (v / 1024 + 1)) := by
          rw [PDX_page (by omega), PGADDR_dir (by omega)]
          simp only [PAGESIZE]
          omega
        rw [hskip]
        refine ⟨⟨g', _, by omega, by omega, rfl, h', hf.skip (by omega) (by omega) fun w h1 h2 => ?_⟩, by omega⟩
        rw [h'.space.absent w (by rw [show w / 1024 = v / 1024 by omega]; exact hnone)]
        simp [present]
      next hentry =>
        have hload := h'.load_entry hentry
        simp only [load, wp_map, wp_get, bind_pure_comp, hload]
        split
        next hp =>
          have hpage := h'.user_page (v := v) (by omega) hp
          have hpos := hpage.pos
          have hne : PTE_ADDR (g'.sp.pte v) ≠ 0 := by omega
          simp only [hne, ↓reduceIte]
          refine Heap.wp_kfree hpage ?_
          simp only [store, wp_modify]
          rw [hnext]
          obtain ⟨g₁, h₁, hf₁⟩ := hf.drop (by omega) hv h' hp
          refine ⟨⟨g₁, v + 1, by omega, by omega, rfl, h₁, ?_⟩, by omega⟩
          rw [min_eq_left (by omega)]
          exact hf₁
        next hp =>
          rw [hnext]
          refine ⟨⟨g', v + 1, by omega, by omega, rfl, h', hf.skip (by omega) (by omega) fun w h1 h2 => ?_⟩,
            by omega⟩
          rw [show w = v by omega]
          exact hp
    · rw [min_eq_right (by omega)] at hf
      rw [if_neg hcond, wp_pure]
      exact ⟨rfl, g', h', hf⟩
  · rw [min_eq_left (by omega)]
    exact .refl ..

/-! ## A whole address space -/

/-- The page tables of the directory entries from 256 up to `k` have been freed. -/
structure Untabled (L : Layout) (s k : ℕ) (σ : Phys) (g : Ghost) (σ' : Phys) (F : List ℕ)
    (own : ℕ → Tag) : Prop where
  heap : Heap L σ' F own
  frame : Frame s σ g.own σ' own
  dir : ∀ x, page x = g.sp.dir → σ'.mem x = σ.mem x
  gone : ∀ i t, 256 ≤ i → i < k → g.sp.tab i = some t → own t = .free
  kept : ∀ p, (∀ i, 256 ≤ i → i < k → g.sp.tab i ≠ some p) → own p = g.own p

namespace Untabled
variable {F : List ℕ} {own : ℕ → Tag}

theorem refl (h : Vm L s σ g) : Untabled L s 256 σ g σ g.free g.own where
  heap := h.heap
  frame := .refl ..
  dir _ _ := rfl
  gone i t h1 h2 := by omega
  kept _ _ := rfl

/-- The entry in the directory is still there. -/
theorem load_dir (hu : Untabled L s k σ g σ' F own) (h : Vm L s σ g) (hk : k < 1024) :
    σ'.mem.load32 (g.sp.dir + 4 * k) = (g.sp.tab k).elim 0 (· + 7) := by
  have hda := h.dir_page.1
  rw [← h.space.pde k hk]
  exact load32_page hu.dir (page_add hda (by omega)) (by omega)

/-- No page table behind the next entry. -/
theorem skip (hu : Untabled L s k σ g σ' F own) (hnone : g.sp.tab k = none) :
    Untabled L s (k + 1) σ g σ' F own := by
  refine ⟨hu.heap, hu.frame, hu.dir, fun i t h1 h2 ht => ?_, fun p hp => ?_⟩
  · have hik : i ≠ k := by rintro rfl; rw [hnone] at ht; cases ht
    exact hu.gone i t h1 (by omega) ht
  · exact hu.kept p fun i h1 h2 => hp i h1 (by omega)

/-- The page table behind the next entry is freed. -/
theorem give (hu : Untabled L s k σ g σ' F own) (h : Vm L s σ g) (hk : 256 ≤ k) {t : ℕ}
    (ht : g.sp.tab k = some t) :
    Untabled L s (k + 1) σ g (σ'.give t) (t :: F) (Function.update own t .free) := by
  have hpage := h.tab_page ht
  have hold : own t = .table s k := by
    rw [hu.kept t fun i _ h2 hi => ?_, h.space.own_tab ht]
    have := h.space.tab_inj hi ht
    omega
  refine ⟨hu.heap.give (by rw [hold]; simp) hpage, hu.frame.trans (.give (by rw [hold]; rfl) hpage.1),
    fun x hx => ?_, fun i u h1 h2 hi => ?_, fun p hp => ?_⟩
  · rw [give_mem hpage.1 (by rw [hx]; exact (h.space.tab_ne_dir ht).symm), hu.dir x hx]
  · by_cases hut : u = t
    · simp [hut]
    · have hik : i ≠ k := by rintro rfl; exact hut (Option.some.inj (hi.symm.trans ht))
      simp only [Function.update_of_ne hut]
      exact hu.gone i u h1 (by omega) hi
  · have hpt : p ≠ t := by rintro rfl; exact hp k hk (by omega) ht
    simp only [Function.update_of_ne hpt]
    exact hu.kept p fun i h1 h2 => hp i h1 (by omega)

end Untabled

/-- The loop of `freevm` over the directory. -/
theorem wp_freeTables (h : Vm L s σ g) :
    wp E (iterate .hang (fun i => do
      if i < NPDENT then
        let e ← load (g.sp.dir + 4 * i)
        if present e then kfree L (PTE_ADDR e)
        return .inl (i + 1)
      else return .inr ()) loopFuel 256 : Kern Unit)
      (fun _ σ' => ∃ F own, Untabled L s 1024 σ g σ' F own) σ := by
  refine wp_iterate (fun i σ' => ∃ F own, 256 ≤ i ∧ i ≤ 1024 ∧ Untabled L s i σ g σ' F own)
    (fun i => 1024 - i) ?_ ⟨_, _, by omega, by omega, .refl h⟩ (by simp only [loopFuel]; omega)
  rintro i σ' ⟨F, own, hi, hle, hu⟩
  simp only [NPDENT, wp_ite, wp_pure]
  split
  next hlt =>
    have hload := hu.load_dir h hlt
    simp only [load, wp_map, wp_get, bind_pure_comp, wp_bind, hload]
    rcases ht : g.sp.tab i with _ | t
    · have habsent : present 0 = false := rfl
      simp only [Option.elim_none, habsent, Bool.false_eq_true, ↓reduceIte, wp_pure]
      exact ⟨⟨F, own, by omega, by omega, hu.skip ht⟩, by omega⟩
    · have hpage := h.tab_page ht
      have hta := hpage.1
      have hodd : present (t + 7) := present_table hta
      have haddr : PTE_ADDR (t + 7) = t := PTE_ADDR_table hta
      simp only [Option.elim_some, hodd, haddr, ↓reduceIte, wp_map]
      refine Heap.wp_kfree hpage ⟨⟨_, _, by omega, by omega, hu.give h hi ht⟩, by omega⟩
  next hge =>
    obtain rfl : i = 1024 := by omega
    exact ⟨F, own, hu⟩

/-- What `freevm` frees: the mapped user pages, the page tables of the user half and the
directory.  The page tables of the kernel half keep their owner. -/
structure Torn (L : Layout) (s : ℕ) (σ : Phys) (g : Ghost) (σ' : Phys) (F : List ℕ)
    (own : ℕ → Tag) : Prop where
  heap : Heap L σ' F own
  frame : Frame s σ g.own σ' own
  user : ∀ v, 0x40000 ≤ v → v < 0xFFC00 → present (g.sp.pte v) →
    own (PTE_ADDR (g.sp.pte v)) = .free
  table : ∀ i t, 256 ≤ i → g.sp.tab i = some t → own t = .free
  dir : own g.sp.dir = .free
  kept : ∀ p, p ≠ g.sp.dir → (∀ i, 256 ≤ i → g.sp.tab i ≠ some p) →
    (∀ v, 0x40000 ≤ v → v < 0xFFC00 → present (g.sp.pte v) → PTE_ADDR (g.sp.pte v) ≠ p) →
    own p = g.own p

/-- The directory goes last. -/
theorem Untabled.torn {F : List ℕ} {own : ℕ → Tag} {σ₁ : Phys} {g₁ : Ghost} (h : Vm L s σ g)
    (h₁ : Vm L s σ₁ g₁) (hf : Freed s 0x40000 0xFFC00 σ g σ₁ g₁)
    (hu : Untabled L s 1024 σ₁ g₁ σ' F own) :
    Torn L s σ g (σ'.give g.sp.dir) (g.sp.dir :: F) (Function.update own g.sp.dir .free) := by
  have hdir : own g.sp.dir = .dir s := by
    rw [hu.kept _ fun i _ _ hi => ?_, ← hf.dir, h₁.space.own_dir]
    rw [← hf.dir] at hi
    exact h₁.space.tab_ne_dir hi rfl
  have hpage := h.dir_page
  refine ⟨hu.heap.give (by rw [hdir]; simp) hpage,
    (hf.frame.trans hu.frame).trans (.give (by rw [hdir]; rfl) hpage.1), fun v h1 h2 hp => ?_,
    fun i t h1 hi => ?_, by simp, fun p h1 h2 h3 => ?_⟩
  · by_cases hpd : PTE_ADDR (g.sp.pte v) = g.sp.dir
    · simp [hpd]
    · have hfree := hf.gone v h1 h2 hp
      simp only [Function.update_of_ne hpd]
      rw [hu.kept _ fun i _ _ hi => ?_, hfree]
      rw [h₁.space.own_tab hi] at hfree
      cases hfree
  · by_cases htd : t = g.sp.dir
    · simp [htd]
    · simp only [Function.update_of_ne htd]
      rw [← hf.tab] at hi
      exact hu.gone i t h1 (h₁.space.tab_lt i t hi) hi
  · simp only [Function.update_of_ne h1]
    rw [hu.kept p fun i hi _ => by rw [hf.tab]; exact h2 i hi, hf.kept p h3]

/-- **`freevm`** tears an address space down. -/
theorem wp_freevm (h : Vm L s σ g) :
    wp E (freevm L g.sp.dir) (fun _ σ' => ∃ F own, Torn L s σ g σ' F own) σ := by
  have hne := h.dir_ne
  simp only [freevm, hne, ↓reduceIte]
  refine wp_seq (wp_deallocuvm h (le_refl _) (by decide) (le_refl _)) ?_
  rintro _ σ₁ ⟨-, g₁, h₁, hf⟩
  rw [← hf.dir]
  refine wp_seq (wp_freeTables h₁) ?_
  rintro _ σ₂ ⟨F, own, hu⟩
  refine Heap.wp_kfree h₁.dir_page ?_
  rw [hf.dir]
  exact ⟨_, _, hu.torn h h₁ hf⟩

end Mixv6.Mm
