import Mixv6.Mm.Space

/-!
# Mapping a range of pages

The loop of `mappages` enters one page after the other, from the bottom of the range up.
When it fails it has entered some of them, the next one has no page table, and nothing is free.

## Main definitions

* `Entered`, `Mapped` — what `mappages` has done after `k` pages.
* `wp_enter`, `wp_mappages` — the loop as a whole.
-/

namespace Mixv6.Mm

open Mixv6.Lib

variable {L : Layout} {s v₀ n k pa flags : ℕ} {e : ℕ → ℕ} {σ σ' : Phys} {g g' : Ghost}
  {E : Panic → Prop}

/-- The pages from `v₀` on have been entered, `k` of them, with the entries `e`. -/
structure Entered (s v₀ k : ℕ) (e : ℕ → ℕ) (σ : Phys) (g : Ghost) (σ' : Phys) (g' : Ghost) :
    Prop where
  frame : Frame s σ g.own σ' g'.own
  grow : Grow g.sp g'.sp
  pte : ∀ v, g'.sp.pte v = if v₀ ≤ v ∧ v < v₀ + k then e (v - v₀) else g.sp.pte v
  others : ∀ i, (∀ v, v₀ ≤ v → v < v₀ + k → v / 1024 ≠ i) → g'.sp.tab i = g.sp.tab i
  own : ∀ p, g.own p ≠ .free → g'.own p = g.own p
  count : g'.free.length + g'.sp.tables = g.free.length + g.sp.tables
  user : ∀ x w, g.own (page x) = .user s w → σ'.mem x = σ.mem x
  used : ∀ p, g.own p = .free → g'.own p = .free ∨ ∃ i, g'.own p = .table s i
  idle : ∀ x, g'.own (page x) = .free → σ'.mem x = σ.mem x

/-- The pages from `v₀` on have been entered, `k` of them, with the frames from `pa` on. -/
structure Mapped (s v₀ k pa flags : ℕ) (σ : Phys) (g : Ghost) (σ' : Phys) (g' : Ghost) :
    Prop where
  frame : Frame s σ g.own σ' g'.own
  grow : Grow g.sp g'.sp
  pte : ∀ v, g'.sp.pte v =
    if v₀ ≤ v ∧ v < v₀ + k then pa + 4096 * (v - v₀) + (flags ||| 1) else g.sp.pte v
  others : ∀ i, (∀ v, v₀ ≤ v → v < v₀ + k → v / 1024 ≠ i) → g'.sp.tab i = g.sp.tab i
  own : ∀ p, g.own p ≠ .free → g'.own p = g.own p
  count : g'.free.length + g'.sp.tables = g.free.length + g.sp.tables
  user : ∀ x w, g.own (page x) = .user s w → σ'.mem x = σ.mem x
  used : ∀ p, g.own p = .free → g'.own p = .free ∨ ∃ i, g'.own p = .table s i
  idle : ∀ x, g'.own (page x) = .free → σ'.mem x = σ.mem x

namespace Entered

theorem refl (s v₀ : ℕ) (e : ℕ → ℕ) (σ : Phys) (g : Ghost) : Entered s v₀ 0 e σ g σ g where
  frame := .refl ..
  grow := .refl _
  pte v := by rw [if_neg (by omega)]
  others _ _ := rfl
  own _ _ := rfl
  count := rfl
  user _ _ _ := rfl
  used _ := .inl
  idle _ _ := rfl

/-- One more page: its entry is found or made, and stored. -/
theorem step (hm : Entered s v₀ k e σ g σ' g') {r : ℕ} {σ₁ : Phys}
    {g₁ : Ghost} (hw : Walked s (v₀ + k) σ' g' r σ₁ g₁) (h₁ : PageTables L s σ₁ g₁)
    (hne : g₁.sp.entry (v₀ + k) ≠ 0) (he : e k < 2 ^ 32) :
    ∃ g₂, PageTables L s { σ₁ with mem := σ₁.mem.store32 (g₁.sp.entry (v₀ + k)) (e k) } g₂ ∧
      Entered s v₀ (k + 1) e σ g { σ₁ with
        mem := σ₁.mem.store32 (g₁.sp.entry (v₀ + k)) (e k) } g₂ := by
  obtain ⟨h₂, hf₂⟩ := h₁.setPte hne he
  -- The store is to a page table.
  have hstore : ∀ x, (∀ i, g₁.own (page x) ≠ .table s i) →
      σ₁.mem.store32 (g₁.sp.entry (v₀ + k)) (e k) x = σ₁.mem x := by
    intro x hx
    rcases ht : g₁.sp.tab ((v₀ + k) / 1024) with _ | t
    · exact absurd (h₁.entry_eq_zero.mpr ht) hne
    have hta := (h₁.tab_page ht).1
    have hpage : page x ≠ t := by
      rintro rfl
      exact hx _ (h₁.tables.own_tab ht)
    have hentry : g₁.sp.entry (v₀ + k) = t + 4 * ((v₀ + k) % 1024) := by simp [Space.entry, ht]
    simp only [page] at hpage
    rw [hentry]
    exact Mem.store32_of_ne (by omega)
  refine ⟨_, h₂, (hm.frame.trans hw.frame).trans hf₂, hm.grow.trans ⟨hw.grow.dir, hw.grow.tab⟩,
    fun v => ?_, fun i hi => ?_, fun p hp => ?_, hw.count.trans hm.count, fun x w hx => ?_,
    fun p hp => ?_, fun x hx => ?_⟩
  · by_cases hv : v = v₀ + k
    · subst hv
      rw [if_pos (by omega)]
      simp
    · simp only [Function.update_of_ne hv, hw.pte, hm.pte]
      have : (v₀ ≤ v ∧ v < v₀ + k) ↔ v₀ ≤ v ∧ v < v₀ + (k + 1) := by omega
      simp only [this]
  · rw [← hm.others i fun v h1 h2 => hi v h1 (by omega)]
    exact hw.others i (hi (v₀ + k) (by omega) (by omega)).symm
  · have hp' := hm.own p hp
    rw [hw.own p (by rw [hp']; exact hp), hp']
  · have hx' := hm.own _ (by rw [hx]; simp)
    have hx₁ : g₁.own (page x) = .user s w := by
      rw [hw.own _ (by rw [hx', hx]; simp), hx', hx]
    rw [← hm.user x w hx, ← hw.user x w (hx'.trans hx)]
    apply hstore
    intro i hi
    rw [hx₁] at hi
    cases hi
  · rcases hm.used p hp with hfree | ⟨i, hi⟩
    · exact hw.used p hfree
    · exact .inr ⟨i, by rw [hw.own p (by rw [hi]; simp), hi]⟩
  · replace hx : g₁.own (page x) = .free := hx
    have hold : g'.own (page x) = .free := by
      by_contra hcon
      exact hcon ((hw.own _ hcon).symm.trans hx)
    rw [← hm.idle x hold, ← hw.idle x hx]
    apply hstore
    intro i hi
    rw [hx] at hi
    cases hi

/-- The entries may stand for their pages, so it is an address space still. -/
theorem vm (hm : Entered s v₀ k e σ g σ' g') (h : Vm L s σ g) (h' : PageTables L s σ' g')
    (he : ∀ j < k, SpaceOk.Allowed g.own s (v₀ + j) (e j)) : Vm L s σ' g' := by
  have hallowed : ∀ v, v₀ ≤ v → v < v₀ + k → SpaceOk.Allowed g.own s v (e (v - v₀)) := by
    intro v hle hlt
    have hj := he (v - v₀) (by omega)
    rwa [show v₀ + (v - v₀) = v by omega] at hj
  have hold : ∀ v, 0x40000 ≤ v → present (g'.sp.pte v) → g.own (PTE_ADDR (g'.sp.pte v)) = .user s v := by
    intro v hv hp
    rw [hm.pte] at hp ⊢
    split at hp
    next hin =>
      rw [if_pos hin]
      exact (hallowed v hin.1 hin.2).2.1 hv hp
    next hout =>
      rw [if_neg hout]
      exact h.space.user v hv hp
  refine ⟨h'.heap, h'.tables.spaceOk ?_ ?_⟩
  · intro v hv hp
    have hown := hold v hv hp
    rw [hm.own _ (by rw [hown]; simp), hown]
  · intro v hv hp
    rw [hm.pte] at hp ⊢
    split at hp
    next hin =>
      rw [if_pos hin]
      exact (hallowed v hin.1 hin.2).2.2 hv hp
    next hout =>
      rw [if_neg hout]
      exact h.space.kern v hv hp

/-- The frames of the pages, when their addresses do not go round. -/
theorem mapped (hm : Entered s v₀ k (fun j => (pa + 4096 * j) % 2 ^ 32 + (flags ||| 1)) σ g σ' g')
    (hlt : pa + 4096 * k < 2 ^ 32) : Mapped s v₀ k pa flags σ g σ' g' where
  frame := hm.frame
  grow := hm.grow
  pte v := by
    rw [hm.pte]
    split
    next hin => rw [Nat.mod_eq_of_lt (by omega)]
    next => rfl
  others := hm.others
  own := hm.own
  count := hm.count
  user := hm.user
  used := hm.used
  idle := hm.idle

end Entered

/-- **The loop** enters the whole range, or runs out of memory on the way. -/
theorem wp_enter {va size : ℕ} (h : PageTables L s σ g) (hrange : v₀ + n ≤ 0xFFFFF)
    (hpos : 0 < v₀ + n) (hva : PGROUNDDOWN va = 4096 * v₀)
    (hlast : PGROUNDDOWN ((va + size + (2 ^ 32 - 1)) % 2 ^ 32) = 4096 * (v₀ + n - 1))
    (hpa : pa % 4096 = 0) (hlt : pa < 2 ^ 32) (hflags : flags < 4096)
    (habsent : ∀ v, v₀ ≤ v → v < v₀ + n → ¬ present (g.sp.pte v)) :
    wp E (mappages g.sp.dir va size pa flags)
      (fun r σ' => ∃ g' k, PageTables L s σ' g' ∧
        Entered s v₀ k (fun j => (pa + 4096 * j) % 2 ^ 32 + (flags ||| 1)) σ g σ' g' ∧
        (r = 0 ∧ k = n ∨
          r = -1 ∧ k < n ∧ g'.free = [] ∧ g'.sp.tab ((v₀ + k) / 1024) = none)) σ := by
  have hne := h.dir_ne
  simp only [mappages, hne, hlast, hva, ↓reduceIte]
  refine wp_iterate (fun a σ' => ∃ g' k, k ≤ n ∧ a = (4096 * (v₀ + k), (pa + 4096 * k) % 2 ^ 32) ∧
      PageTables L s σ' g' ∧
      Entered s v₀ k (fun j => (pa + 4096 * j) % 2 ^ 32 + (flags ||| 1)) σ g σ' g')
    (fun a => 2 ^ 20 - a.1 / 4096) ?_
    ⟨g, 0, by omega, by rw [Nat.mul_zero, Nat.add_zero, Nat.add_zero, Nat.mod_eq_of_lt hlt], h,
      .refl ..⟩ (by simp only [loopFuel]; omega)
  rintro _ σ' ⟨g', k, hk, rfl, h', hm⟩
  simp only [wp_ite]
  by_cases hkn : k = n
  · subst hkn
    rw [if_neg (by omega), wp_pure]
    exact ⟨g', k, h', hm, .inl ⟨rfl, rfl⟩⟩
  · rw [if_pos (by omega), ← hm.grow.dir]
    refine wp_seq (h'.wp_walk_alloc (v := v₀ + k) (by omega)) ?_
    rintro r σ₁ ⟨g₁, h₁, hw⟩
    simp only [wp_ite, wp_pure]
    split
    next hr =>
      have hnone := h₁.entry_eq_zero.mp (hw.entry.symm.trans hr)
      obtain ⟨rfl, rfl, hnil⟩ := hw.failed hr
      exact ⟨g₁, k, h₁, hm, .inr ⟨trivial, by omega, hnil, hnone⟩⟩
    next hr =>
      have hentry : g₁.sp.entry (v₀ + k) ≠ 0 := hw.entry ▸ hr
      have hpte : g₁.sp.pte (v₀ + k) = g.sp.pte (v₀ + k) := by
        rw [hw.pte, hm.pte, if_neg (by omega)]
      have hload : σ₁.mem.load32 r = g.sp.pte (v₀ + k) := by
        rw [hw.entry, h₁.load_entry hentry, hpte]
      have hfree := habsent (v₀ + k) (by omega) (by omega)
      have ha := page_add_PAGESIZE (show v₀ + k < 0xFFFFF by omega)
      rw [Nat.add_assoc v₀] at ha
      have hb : ((pa + 4096 * k) % 2 ^ 32 + PAGESIZE) % 2 ^ 32 = (pa + 4096 * (k + 1)) % 2 ^ 32 := by
        simp only [PAGESIZE]
        omega
      simp only [load, store, wp_bind, wp_map, wp_get, wp_ite, wp_modify, hload, hfree,
        bind_pure_comp, Bool.false_eq_true, ↓reduceIte]
      have halign : (pa + 4096 * k) % 2 ^ 32 % 4096 = 0 := by omega
      rw [pte_eq halign hflags, hw.entry, ha, hb]
      obtain ⟨g₂, h₂, hm₂⟩ := hm.step hw h₁ hentry (pte_lt halign (by omega) hflags)
      exact ⟨⟨g₂, k + 1, by omega, rfl, h₂, hm₂⟩, by omega⟩

/-- **`mappages`** maps the whole range, or runs out of memory on the way. -/
theorem wp_mappages (h : Vm L s σ g) (hrange : v₀ + n ≤ 0xFFFFF) (hpos : 0 < v₀ + n)
    (hpa : pa % 4096 = 0) (hlt : pa + 4096 * n < 2 ^ 32) (hflags : flags < 4096)
    (habsent : ∀ v, v₀ ≤ v → v < v₀ + n → ¬ present (g.sp.pte v))
    (he : ∀ k < n, SpaceOk.Allowed g.own s (v₀ + k) (pa + 4096 * k + (flags ||| 1))) :
    wp E (mappages g.sp.dir (4096 * v₀) (4096 * n) pa flags)
      (fun r σ' => ∃ g' k, Vm L s σ' g' ∧ Mapped s v₀ k pa flags σ g σ' g' ∧
        (r = 0 ∧ k = n ∨
          r = -1 ∧ k < n ∧ g'.free = [] ∧ g'.sp.tab ((v₀ + k) / 1024) = none)) σ := by
  have hlast := PGROUNDDOWN_last hpos (show v₀ + n ≤ 0x100000 by omega)
  apply wp_mono (wp_enter h.tables hrange hpos PGROUNDDOWN_page hlast hpa (by omega) hflags habsent)
  rintro r σ' ⟨g', k, h', hm, hr⟩
  have hk : k ≤ n := by omega
  refine ⟨g', k, hm.vm h h' fun j hj => ?_, hm.mapped (by omega), hr⟩
  rw [Nat.mod_eq_of_lt (by omega)]
  exact he j (by omega)

end Mixv6.Mm
