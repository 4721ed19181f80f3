import Mixv6.Mm.Alloc

/-!
# The first page and the stack

`inituvm` makes the page of the first program, `ustack` a guard page and a stack page.

## Main definitions

* `Initialised`, `wp_inituvm` — the first page, or no page.
* `Stacked`, `wp_ustack` — the two pages above the image.
-/

namespace Mixv6.Mm

open Mixv6.Lib

variable {L : Layout} {s v lo hi k p flags : ℕ} {σ σ' : Phys} {g g' : Ghost} {F : List ℕ}
  {E : Panic → Prop}

/-! ## `ustack` -/

/-- A guard page at `lo` that the user cannot touch, and a zeroed stack page above it. -/
structure Stacked (s lo : ℕ) (σ : Phys) (g : Ghost) (σ' : Phys) (g' : Ghost) : Prop where
  frame : Frame s σ g.own σ' g'.own
  grow : Grow g.sp g'.sp
  guard : present (g'.sp.pte lo) ∧ PTE_FLAGS (g'.sp.pte lo) = 3
  stack : present (g'.sp.pte (lo + 1)) ∧ PTE_FLAGS (g'.sp.pte (lo + 1)) = 7
  outside : ∀ v, v < lo ∨ lo + 2 ≤ v → g'.sp.pte v = g.sp.pte v
  own : ∀ p, g.own p ≠ .free → g'.own p = g.own p
  zero : ∀ x, page x = PTE_ADDR (g'.sp.pte (lo + 1)) → σ'.mem x = 0
  user : ∀ x w, g.own (page x) = .user s w → σ'.mem x = σ.mem x

/-- What `ustack` does above the pages that are mapped. -/
inductive UStacked (L : Layout) (s lo : ℕ) (σ : Phys) (g : Ghost) (r : ℕ) (σ' : Phys) : Prop
  /-- There is no room in user space. -/
  | high (hlo : 0xFFC00 ≤ lo + 2) (hr : r = 0) (hσ : σ' = σ)
  | done (hlo : lo + 2 < 0xFFC00) (hr : r = 4096 * lo + 8192) (g' : Ghost) (vm : Vm L s σ' g')
      (stacked : Stacked s lo σ g σ' g')
  | failed (hr : r = 0) (g' : Ghost) (vm : Vm L s σ' g') (shrunk : Shrunk s lo (lo + 2) σ g σ' g')

/-- Without `PTE_U`, the entry of a page still stands for the page. -/
theorem clearUser_eq {e : ℕ} (h : PTE_FLAGS e = 7) : clearUser e = e - 4 ∧ PTE_ADDR (e - 4) = PTE_ADDR e ∧
    PTE_FLAGS (e - 4) = 3 ∧ present (e - 4) ∧ present e := by
  simp only [PTE_FLAGS] at h
  simp only [clearUser, PTE_ADDR, PTE_FLAGS, present, decide_eq_true_eq]
  rw [if_pos (by omega)]
  omega

/-- The stack after the guard page has been closed to the user. -/
theorem Grown.stacked (hg : Grown s lo (lo + 2) σ g σ' g') (h : Vm L s σ' g') (hlo : 0x40000 ≤ lo) :
    ∃ g₁, Vm L s { σ' with mem := σ'.mem.store32 (g'.sp.entry lo) (clearUser (g'.sp.pte lo)) } g₁ ∧
      Stacked s lo σ g
        { σ' with mem := σ'.mem.store32 (g'.sp.entry lo) (clearUser (g'.sp.pte lo)) } g₁ := by
  obtain ⟨hp, hflags⟩ := hg.inside lo (by omega) (by omega)
  obtain ⟨hclear, haddr, hflags', hp', -⟩ := clearUser_eq hflags
  have hentry := h.entry_ne_zero hp
  have hlt : g'.sp.pte lo < 2 ^ 32 := by
    rw [← h.load_entry hentry]
    exact Mem.load32_lt ..
  have hallowed : SpaceOk.Allowed g'.own s lo (g'.sp.pte lo - 4) :=
    ⟨by omega, fun _ _ => by rw [haddr]; exact h.space.user lo hlo hp, fun hv => by omega⟩
  rw [hclear]
  obtain ⟨h₁, hf⟩ := h.setPte hentry hallowed
  obtain ⟨t, ht, hte⟩ := h.entry_table hentry
  have hta := (h.tab_page ht).1
  have hmem : ∀ x w, g'.own (page x) = .user s w →
      σ'.mem.store32 (g'.sp.entry lo) (g'.sp.pte lo - 4) x = σ'.mem x := by
    intro x w hx
    have hxt : page x ≠ t := by
      rintro rfl
      rw [h.space.own_tab ht] at hx
      cases hx
    simp only [page] at hxt
    rw [hte]
    exact Mem.store32_of_ne (by omega)
  have hstack := hg.inside (lo + 1) (by omega) (by omega)
  refine ⟨_, h₁, hg.frame.trans hf, ⟨hg.grow.dir, hg.grow.tab⟩, by simp [hp', hflags'],
    by simpa using hstack, fun v hv => ?_, hg.own, fun x hx => ?_, fun x w hx => ?_⟩
  · have hne : v ≠ lo := by omega
    simpa [hne] using hg.outside v hv
  · replace hx : page x = PTE_ADDR (g'.sp.pte (lo + 1)) := by simpa using hx
    refine (hmem x (lo + 1) ?_).trans (hg.zero (lo + 1) (by omega) (by omega) x hx)
    rw [hx]
    exact h.space.user _ (by omega) hstack.1
  · exact (hmem x w (by rw [hg.own _ (by simp [hx]), hx])).trans (hg.user x w hx)

/-- **`ustack`** above the pages that are mapped. -/
theorem wp_ustack (h : Vm L s σ g) {start : ℕ} (hstart : KERNEND ≤ start) (hlt : start < USEREND)
    (habsent : ∀ v, (start + 4095) / 4096 ≤ v → ¬ present (g.sp.pte v)) :
    wp E (ustack L g.sp.dir start) (UStacked L s ((start + 4095) / 4096) σ g) σ := by
  have hva : PGROUNDUP start = 4096 * ((start + 4095) / 4096) := PGROUNDUP_eq hlt.le
  simp only [KERNEND] at hstart
  simp only [USEREND] at hlt
  simp only [ustack, hva]
  generalize hlo : (start + 4095) / 4096 = lo at *
  generalize htop : (4096 * lo + 2 * PAGESIZE) % 2 ^ 32 = top
  replace htop : top = 4096 * lo + 8192 := by
    simp only [PAGESIZE] at htop
    omega
  have hrange : ∀ v, (4096 * lo + 4095) / 4096 ≤ v → v < (top + 4095) / 4096 →
      ¬ present (g.sp.pte v) := fun v h1 _ => habsent v (by omega)
  refine wp_seq (wp_allocuvm h (by simp only [KERNEND]; omega) hrange) ?_
  rintro r σ' (⟨hnew, rfl, rfl⟩ | ⟨hnew, _, _, _⟩ | ⟨_, hnew, rfl, g', h', hg⟩ | ⟨_, _, rfl, g', h', hs⟩)
  · simp only [USEREND] at hnew
    rw [if_pos rfl, wp_pure]
    exact .high (by omega) rfl rfl
  · omega
  · simp only [USEREND] at hnew
    rw [if_neg (by omega), ← hg.grow.dir]
    rw [show (4096 * lo + 4095) / 4096 = lo by omega, show (r + 4095) / 4096 = lo + 2 by omega] at hg
    have hentry := h'.entry_ne_zero (hg.inside lo (by omega) (by omega)).1
    refine wp_bind.mpr (wp_walk h' (by omega) ?_)
    simp only [load, store, wp_bind, wp_map, wp_get, wp_modify, bind_pure_comp,
      h'.load_entry hentry]
    obtain ⟨g₁, h₁, hst⟩ := hg.stacked h' (by omega)
    exact .done (by omega) htop g₁ h₁ hst
  · rw [if_pos rfl, wp_pure]
    refine .failed rfl g' h' ?_
    rwa [show (4096 * lo + 4095) / 4096 = lo by omega,
      show (top + 4095) / 4096 = lo + 2 by omega] at hs

/-! ## `inituvm` -/

/-- Stores outside the page tables and the free pages. -/
theorem Vm.scribble (h : Vm L s σ g) {m : Mem}
    (hm : ∀ x, g.own (page x) = .free ∨ g.own (page x) = .dir s ∨
      (∃ i, g.own (page x) = .table s i) → m x = σ.mem x) : Vm L s { σ with mem := m } g where
  heap := h.heap.congr rfl fun p hp x hx => hm x (.inl (by rw [hx]; exact (h.heap.free p).mp hp))
  space := h.space.congr (fun x hx => hm x (.inr hx.symm)) h.align

/-- Nothing is free and the page table is missing: `mappages` fails at once. -/
theorem wp_mappages_full (h : Vm L s σ g) (hnil : g.free = []) (hv : v < 0x100000)
    (hnone : g.sp.tab (v / 1024) = none) {pa : ℕ} :
    wp E (mappages g.sp.dir (4096 * v) PAGESIZE pa flags)
      (fun _ σ' => σ' = σ) σ := by
  have hne := h.dir_ne
  have hlast : PGROUNDDOWN ((4096 * v + PAGESIZE + (2 ^ 32 - 1)) % 2 ^ 32) = 4096 * v :=
    PGROUNDDOWN_last (n := 1) (Nat.succ_pos v) (by omega)
  simp only [mappages, hne, PGROUNDDOWN_page, hlast, ↓reduceIte]
  refine wp_iterate (fun a σ' => a = (4096 * v, pa) ∧ σ' = σ) (fun _ => 0) ?_ ⟨rfl, rfl⟩
    (by simp only [loopFuel]; omega)
  rintro _ _ ⟨rfl, rfl⟩
  simp only [le_refl, ↓reduceIte]
  refine wp_seq (wp_walk_alloc h hv) ?_
  rintro r σ' ⟨g', h', hw⟩
  have hr := hw.stuck hnil hnone
  rw [if_pos hr, wp_pure]
  exact (hw.failed hr).2.1

/-- What `inituvm` leaves behind. -/
inductive Initialised (L : Layout) (s : ℕ) (σ : Phys) (g : Ghost) (σ' : Phys) : Prop
  /-- Nothing was free, and address 0 has been written to. -/
  | full (hnil : g.free = []) (hcore : σ'.coremap = σ.coremap)
      (hm : ∀ x, page x ≠ 0 → σ'.mem x = σ.mem x)
  | done (g' : Ghost) (vm : Vm L s σ' g') (frame : Frame s σ g.own σ' g'.own)
      (grow : Grow g.sp g'.sp) (pte : ∀ v, v ≠ 0x40000 → g'.sp.pte v = g.sp.pte v)

/-- **`inituvm`** on a new address space. -/
theorem wp_inituvm (h : Vm L s σ g) {start size : ℕ} (hsize : size ≤ PAGESIZE)
    (hpte : ¬ present (g.sp.pte 0x40000)) (htab : g.sp.tab 256 = none) :
    wp E (inituvm g.sp.dir start size) (fun _ => Initialised L s σ g) σ := by
  simp only [PAGESIZE] at hsize
  have hva : KERNEND = 4096 * 0x40000 := rfl
  have hzero : ∀ m : Mem, ∀ x, page x ≠ 0 → (m.fill 0 0 4096) x = m x := by
    intro m x hx
    simp only [page] at hx
    exact Mem.fill_of_ne (by omega)
  refine wp_bind.mpr (h.heap.wp_kalloc (fun hnil => ?_) fun p F hF hp => ?_)
  · have h₁ : Vm L s { σ with mem := σ.mem.fill 0 0 4096 } g := by
      refine h.scribble fun x hx => hzero _ x ?_
      have hpage := h.heap.pages (page x) (by rcases hx with hx | hx | ⟨i, hx⟩ <;> simp [hx])
      have := hpage.pos
      omega
    rw [memset, wp_bind, wp_modify, hva]
    refine wp_seq (wp_mappages_full h₁ hnil (by decide) htab) ?_
    rintro r _ rfl
    rw [memmove, wp_modify]
    refine .full hnil rfl fun x hx => ?_
    simp only [page] at hx
    simp only
    rw [Mem.movsb_of_ne (by omega), hzero _ x (by simp only [page]; omega)]
  · have hpage := h.heap.pages p (by rw [(h.heap.free p).mp (by simp [hF])]; simp)
    obtain ⟨h₁, hf₁⟩ := h.takeUser hF 0x40000 (m := (σ.newPage p).mem) fun x => newPage_mem hpage.1
    have hmap := wp_mapPage (E := E) (v := 0x40000) (p := p) h₁ (by decide) (by decide)
      (by simp) (show 6 < 4096 by decide) hpte
    rw [memset, wp_bind, wp_modify, hva]
    refine wp_seq hmap ?_
    rintro r σ' ⟨g', k, h', hm, hr⟩
    have hown : g'.own p = .user s 0x40000 := by
      rw [hm.own p (by simp)]
      simp
    have hmem : ∀ x, page x ≠ p → σ'.mem.movsb start p size x = σ'.mem x :=
      fun x => movsb_inside hpage.1 (by omega)
    rw [memmove, wp_modify]
    refine .done g' (h'.scribble fun x hx => hmem x ?_)
      ((hf₁.trans hm.frame).trans (.write (by rw [hown]; rfl) hmem)) hm.grow fun v hv => ?_
    · rintro rfl
      simp [hown] at hx
    · have hk : k ≤ 1 := by rcases hr with hr | hr <;> omega
      rw [hm.pte, if_neg (by omega)]

end Mixv6.Mm
