import Mixv6.Mm.Heap
import Mixv6.Mm.Vm
import Mathlib.Data.Finset.Card
import Mathlib.Data.Finset.Range

/-!
# An address space in memory

`Space` is an address space without its representation: which page table each directory
entry has, and which entry each page number has.  `TablesOk` says that the two levels of
tables in memory represent it, in pages that the record of owners assigns to it, and `SpaceOk`
that the entries are those of an address space.

`Frame` says what a routine that works on one address space leaves alone: it touches no
page but those of its own space and those that `kalloc` gives it.

## Main definitions

* `Space`, `TablesOk`, `SpaceOk` — an address space and its representation.
* `PageTables`, `Vm` — the allocator and one address space.
* `Frame`, `Grow` — what a routine keeps.
* `wp_walk`, `wp_walk_alloc`, `setPte` — the three primitive operations.
-/

namespace Mixv6.Mm

open Mixv6.Lib

/-- The address of the page directory, the page table of each directory entry, and the
entry of each page number. -/
structure Space where
  dir : ℕ
  tab : ℕ → Option ℕ
  pte : ℕ → ℕ

/-- How many page tables there are. -/
def Space.tables (sp : Space) : ℕ := ((Finset.range 1024).filter fun i => sp.tab i ≠ none).card

/-- The address of the entry for page `v`, or 0. -/
def Space.entry (sp : Space) (v : ℕ) : ℕ :=
  (sp.tab (v / 1024)).elim 0 fun t => t + 4 * (v % 1024)

theorem Space.tables_le (sp : Space) : sp.tables ≤ 1024 := by
  have := Finset.card_filter_le (Finset.range 1024) fun i => sp.tab i ≠ none
  rwa [Finset.card_range] at this

/-- One more page table. -/
theorem Space.tables_setTab {sp : Space} {i p : ℕ} (hi : i < 1024) (hnone : sp.tab i = none) :
    Space.tables { sp with tab := Function.update sp.tab i (some p) } = sp.tables + 1 := by
  have h : (Finset.range 1024).filter (fun j => Function.update sp.tab i (some p) j ≠ none) =
      insert i ((Finset.range 1024).filter fun j => sp.tab j ≠ none) := by
    ext j
    by_cases hj : j = i
    · subst hj; simp [hi]
    · simp [hj]
  simp only [Space.tables]
  rw [h, Finset.card_insert_of_notMem (by simp [hnone])]

/-- The memory represents `sp` in the pages of address space `s`, whatever its entries say. -/
structure TablesOk (own : ℕ → Tag) (s : ℕ) (sp : Space) (m : Mem) : Prop where
  pde : ∀ i < 1024, m.load32 (sp.dir + 4 * i) = (sp.tab i).elim 0 (· + 7)
  pte : ∀ i t, sp.tab i = some t → ∀ j < 1024, m.load32 (t + 4 * j) = sp.pte (1024 * i + j)
  absent : ∀ v, sp.tab (v / 1024) = none → sp.pte v = 0
  dir : ∀ p, own p = .dir s ↔ p = sp.dir
  tab : ∀ i p, own p = .table s i ↔ sp.tab i = some p
  tab_lt : ∀ i t, sp.tab i = some t → i < 1024

/-- The memory represents `sp` in the pages of address space `s`.  Kernel pages are mapped
to themselves, user pages belong to the page number they are mapped at. -/
structure SpaceOk (own : ℕ → Tag) (s : ℕ) (sp : Space) (m : Mem) : Prop where
  pde : ∀ i < 1024, m.load32 (sp.dir + 4 * i) = (sp.tab i).elim 0 (· + 7)
  pte : ∀ i t, sp.tab i = some t → ∀ j < 1024, m.load32 (t + 4 * j) = sp.pte (1024 * i + j)
  absent : ∀ v, sp.tab (v / 1024) = none → sp.pte v = 0
  dir : ∀ p, own p = .dir s ↔ p = sp.dir
  tab : ∀ i p, own p = .table s i ↔ sp.tab i = some p
  tab_lt : ∀ i t, sp.tab i = some t → i < 1024
  user : ∀ v, 0x40000 ≤ v → present (sp.pte v) → own (PTE_ADDR (sp.pte v)) = .user s v
  kern : ∀ v < 0x40000, present (sp.pte v) → PTE_ADDR (sp.pte v) = 4096 * v ∧ v < 0x20000

/-- The bookkeeping of the allocator and of one address space. -/
structure Ghost where
  free : List ℕ
  own : ℕ → Tag
  sp : Space

/-- The allocator and the page tables of address space `s` are in order. -/
structure PageTables (L : Layout) (s : ℕ) (σ : Phys) (g : Ghost) : Prop where
  heap : Heap L σ g.free g.own
  tables : TablesOk g.own s g.sp σ.mem

/-- The allocator and address space `s` are in order. -/
structure Vm (L : Layout) (s : ℕ) (σ : Phys) (g : Ghost) : Prop where
  heap : Heap L σ g.free g.own
  space : SpaceOk g.own s g.sp σ.mem

/-! ## What a routine leaves alone -/

/-- The routine was handed the pages `new` and has written to these and to pages of
address space `s` only; pages change hands only between `s` and the free list. -/
structure FrameBy (s : ℕ) (new : List ℕ) (σ : Phys) (own : ℕ → Tag) (σ' : Phys)
    (own' : ℕ → Tag) : Prop where
  handed : σ'.handed = new ++ σ.handed
  fresh : ∀ p ∈ new, own p = .free ∨ (own p).of s
  mem : ∀ x, page x ∉ new → ¬ (own (page x)).of s → σ'.mem x = σ.mem x
  others : ∀ p, own p ≠ .free → ¬ (own p).of s → own' p = own p
  gained : ∀ p, (own' p).of s → (own p).of s ∨ p ∈ new
  freed : ∀ p, own' p = .free → own p = .free ∨ (own p).of s
  inside : ∀ p, own p = .free ∨ (own p).of s → own' p = .free ∨ (own' p).of s

/-- What a routine on address space `s` keeps. -/
def Frame (s : ℕ) (σ : Phys) (own : ℕ → Tag) (σ' : Phys) (own' : ℕ → Tag) : Prop :=
  ∃ new, FrameBy s new σ own σ' own'

/-- The space keeps its directory and its page tables. -/
structure Grow (sp sp' : Space) : Prop where
  dir : sp'.dir = sp.dir
  tab : ∀ i t, sp.tab i = some t → sp'.tab i = some t

theorem Grow.refl (sp : Space) : Grow sp sp := ⟨rfl, fun _ _ h => h⟩

theorem Grow.trans {a b c : Space} (h : Grow a b) (h' : Grow b c) : Grow a c :=
  ⟨h'.dir.trans h.dir, fun i t ht => h'.tab i t (h.tab i t ht)⟩

namespace Frame
variable {s : ℕ} {σ σ' σ'' : Phys} {own own' own'' : ℕ → Tag}

theorem refl (s : ℕ) (σ : Phys) (own : ℕ → Tag) : Frame s σ own σ own := by
  exact ⟨[], rfl, by simp, fun _ _ _ => rfl, fun _ _ _ => rfl, fun _ h => .inl h,
    fun _ h => .inl h, fun _ h => h⟩

theorem trans (h : Frame s σ own σ' own') (h' : Frame s σ' own' σ'' own'') :
    Frame s σ own σ'' own'' := by
  obtain ⟨new, h⟩ := h
  obtain ⟨new', h'⟩ := h'
  -- A page that is not free and not of `s` stays so.
  have hkeep : ∀ p, own p ≠ .free → ¬ (own p).of s → own' p ≠ .free ∧ ¬ (own' p).of s := by
    intro p h1 h2
    rw [h.others p h1 h2]
    exact ⟨h1, h2⟩
  refine ⟨new' ++ new, ?_, ?_, ?_, ?_, ?_, ?_, ?_⟩
  · rw [h'.handed, h.handed, List.append_assoc]
  · intro p hp
    rcases List.mem_append.mp hp with hp | hp
    · by_contra hcon
      rw [not_or] at hcon
      obtain ⟨h1, h2⟩ := hkeep p hcon.1 hcon.2
      rcases h'.fresh p hp with hf | hs
      · exact h1 hf
      · exact h2 hs
    · exact h.fresh p hp
  · intro x hx hs
    rw [List.mem_append, not_or] at hx
    rw [h'.mem x hx.1 ?_, h.mem x hx.2 hs]
    intro hs'
    rcases h.gained _ hs' with hold | hnew
    · exact hs hold
    · exact hx.2 hnew
  · intro p h1 h2
    obtain ⟨h1', h2'⟩ := hkeep p h1 h2
    rw [h'.others p h1' h2', h.others p h1 h2]
  · intro p hp
    rcases h'.gained p hp with hp | hp
    · rcases h.gained p hp with hp | hp
      · exact .inl hp
      · exact .inr (by simp [hp])
    · exact .inr (by simp [hp])
  · intro p hp
    by_contra hcon
    rw [not_or] at hcon
    obtain ⟨h1, h2⟩ := hkeep p hcon.1 hcon.2
    rcases h'.freed p hp with hf | hs
    · exact h1 hf
    · exact h2 hs
  · exact fun p hp => h'.inside p (h.inside p hp)

/-- A page that is neither free nor of `s` keeps its bytes. -/
theorem outside (h : Frame s σ own σ' own') {x : ℕ} (hfree : own (page x) ≠ .free)
    (hof : ¬ (own (page x)).of s) : σ'.mem x = σ.mem x := by
  obtain ⟨new, h⟩ := h
  apply h.mem x _ hof
  intro hnew
  exact (h.fresh _ hnew).elim hfree hof

/-- Stores into a page of the address space. -/
theorem write {p : ℕ} {m : Mem} (hp : (own p).of s) (hm : ∀ x, page x ≠ p → m x = σ.mem x) :
    Frame s σ own { σ with mem := m } own := by
  refine ⟨[], rfl, by simp, fun x _ hx => hm x ?_, fun _ _ _ => rfl, fun _ h => .inl h,
    fun _ h => .inl h, fun _ h => h⟩
  rintro rfl
  exact hx hp

/-- `kalloc` gives the address space a page. -/
theorem take {p : ℕ} {tag : Tag} (hp : own p = .free) (htag : tag.of s) :
    Frame s σ own (σ.take p) (Function.update own p tag) := by
  refine ⟨[p], rfl, by simp [hp], fun x _ _ => rfl, ?_, ?_, ?_, ?_⟩
  · intro q hq _
    have hqp : q ≠ p := by rintro rfl; exact hq hp
    simp [hqp]
  · intro q hq
    by_cases hqp : q = p
    · exact .inr (by simp [hqp])
    · exact .inl (by simpa [hqp] using hq)
  · intro q hq
    by_cases hqp : q = p
    · exact .inl (hqp ▸ hp)
    · exact .inl (by simpa [hqp] using hq)
  · intro q hq
    by_cases hqp : q = p
    · subst hqp; exact .inr (by simpa using htag)
    · simpa [hqp] using hq

/-- `kfree` takes a page from the address space. -/
theorem give {p : ℕ} (hp : (own p).of s) (halign : p % 4096 = 0) :
    Frame s σ own (σ.give p) (Function.update own p .free) := by
  refine ⟨[], rfl, by simp, fun x _ hx => give_mem halign ?_, ?_, ?_, ?_, ?_⟩
  · rintro rfl; exact hx hp
  · intro q _ hq
    have hqp : q ≠ p := by rintro rfl; exact hq hp
    simp [hqp]
  · intro q hq
    by_cases hqp : q = p
    · subst hqp; simp [Tag.of] at hq
    · exact .inl (by simpa [hqp] using hq)
  · intro q hq
    by_cases hqp : q = p
    · exact .inr (hqp ▸ hp)
    · exact .inl (by simpa [hqp] using hq)
  · intro q hq
    by_cases hqp : q = p
    · exact .inl (by simp [hqp])
    · simpa [hqp] using hq

end Frame

/-! ## The representation -/

namespace TablesOk
variable {own : ℕ → Tag} {s : ℕ} {sp : Space} {m m' : Mem} {v e t p : ℕ}

theorem own_dir (h : TablesOk own s sp m) : own sp.dir = .dir s := (h.dir _).mpr rfl

theorem own_tab (h : TablesOk own s sp m) {i : ℕ} (ht : sp.tab i = some t) : own t = .table s i :=
  (h.tab i t).mpr ht

/-- Two entries of a directory have different page tables. -/
theorem tab_inj (h : TablesOk own s sp m) {i j : ℕ} (hi : sp.tab i = some t)
    (hj : sp.tab j = some t) : i = j := by
  have := (h.own_tab hi).symm.trans (h.own_tab hj)
  cases this
  rfl

theorem tab_ne_dir (h : TablesOk own s sp m) {i : ℕ} (ht : sp.tab i = some t) : t ≠ sp.dir := by
  rintro rfl
  have := (h.own_tab ht).symm.trans h.own_dir
  cases this

/-- The directory and the tables are read only through these words. -/
theorem congr (h : TablesOk own s sp m)
    (hm : ∀ x, (∃ i, own (page x) = .table s i) ∨ own (page x) = .dir s → m' x = m x)
    (halign : ∀ p, own p ≠ .out → p % 4096 = 0) : TablesOk own s sp m' where
  pde i hi := by
    rw [← h.pde i hi]
    have hd := h.own_dir
    have ha := halign sp.dir (by rw [hd]; simp)
    refine load32_page (p := sp.dir) (fun x hx => hm x (.inr (hx ▸ hd))) ?_ (by omega)
    exact page_add ha (by omega)
  pte i t ht j hj := by
    rw [← h.pte i t ht j hj]
    have hd := h.own_tab ht
    have ha := halign t (by rw [hd]; simp)
    refine load32_page (p := t) (fun x hx => hm x (.inl ⟨i, hx ▸ hd⟩)) ?_ (by omega)
    exact page_add ha (by omega)
  absent := h.absent
  dir := h.dir
  tab := h.tab
  tab_lt := h.tab_lt

/-- A page that is no table changes its owner. -/
theorem retag (h : TablesOk own s sp m) {tag : Tag} (hdir : p ≠ sp.dir)
    (htab : ∀ i, sp.tab i ≠ some p) (htag : tag ≠ .dir s ∧ ∀ i, tag ≠ .table s i) :
    TablesOk (Function.update own p tag) s sp m where
  pde := h.pde
  pte := h.pte
  absent := h.absent
  dir q := by
    by_cases hq : q = p
    · subst hq; simp [htag.1, hdir]
    · simp [hq, h.dir]
  tab i q := by
    by_cases hq : q = p
    · subst hq; simp [htag.2 i, htab i]
    · simp [hq, h.tab]
  tab_lt := h.tab_lt

/-- A page of another owner is no table. -/
theorem ne_table (h : TablesOk own s sp m) (hp : own p = .free ∨ own p = .out) :
    p ≠ sp.dir ∧ ∀ i, sp.tab i ≠ some p := by
  constructor
  · rintro rfl
    rw [h.own_dir] at hp
    simp at hp
  · intro i hi
    rw [h.own_tab hi] at hp
    simp at hp

/-- A store to an entry. -/
theorem setPte (h : TablesOk own s sp m) (halign : ∀ p, own p ≠ .out → p % 4096 = 0)
    (ht : sp.tab (v / 1024) = some t) (he : e < 2 ^ 32) :
    TablesOk own s { sp with pte := Function.update sp.pte v e }
      (m.store32 (t + 4 * (v % 1024)) e) where
  pde i hi := by
    rw [← h.pde i hi]
    have ha := halign sp.dir (by rw [h.own_dir]; simp)
    have hb := halign t (by rw [h.own_tab ht]; simp)
    have hne := h.tab_ne_dir ht
    refine Mem.load32_store32_of_ne ?_
    simp only
    omega
  pte i t' ht' j hj := by
    have hb := halign t (by rw [h.own_tab ht]; simp)
    have hb' := halign t' (by rw [h.own_tab ht']; simp)
    by_cases hv : 1024 * i + j = v
    · obtain rfl : i = v / 1024 := by omega
      obtain rfl : t = t' := Option.some.inj (ht.symm.trans ht')
      obtain rfl : j = v % 1024 := by omega
      simp only [hv, Function.update_self]
      exact Mem.load32_store32 he
    · simp only [Function.update_of_ne hv]
      rw [← h.pte i t' ht' j hj]
      by_cases htt : t' = t
      · subst htt
        have hi := h.tab_inj ht' ht
        exact Mem.load32_store32_of_ne (by omega)
      · exact Mem.load32_store32_of_ne (by omega)
  absent w hw := by
    have hwv : w ≠ v := by rintro rfl; rw [ht] at hw; cases hw
    simpa [hwv] using h.absent w hw
  dir := h.dir
  tab := h.tab
  tab_lt := h.tab_lt

/-- A fresh page table for an entry that had none. -/
theorem setTab (h : TablesOk own s sp m) (halign : ∀ p, own p ≠ .out → p % 4096 = 0) {i : ℕ}
    (hi : i < 1024) (hnone : sp.tab i = none) (hp : own p = .free) (hlt : p + 7 < 2 ^ 32) :
    TablesOk (Function.update own p (.table s i)) s
      { sp with tab := Function.update sp.tab i (some p) }
      ((m.fill p 0 4096).store32 (sp.dir + 4 * i) (p + 7)) := by
  obtain ⟨hdir, htab⟩ := h.ne_table (.inl hp)
  have ha := halign sp.dir (by rw [h.own_dir]; simp)
  have hpa := halign p (by rw [hp]; simp)
  have hother : ∀ a, a % 4 = 0 → page a ≠ p → (a ≠ sp.dir + 4 * i) →
      ((m.fill p 0 4096).store32 (sp.dir + 4 * i) (p + 7)).load32 a = m.load32 a := by
    intro a ha4 hpage hne
    simp only [page] at hpage
    rw [Mem.load32_store32_of_ne (by omega)]
    exact Mem.load32_congr fun k hk => Mem.fill_of_ne (by omega)
  refine ⟨?_, ?_, ?_, ?_, ?_, ?_⟩
  · intro j hj
    by_cases hji : j = i
    · subst hji
      simp only [Function.update_self, Option.elim_some]
      exact Mem.load32_store32 hlt
    · simp only [Function.update_of_ne hji]
      rw [← h.pde j hj]
      exact hother _ (by omega) (by rw [page_add ha (by omega)]; exact hdir.symm) (by omega)
  · intro j t ht k hk
    by_cases hji : j = i
    · subst hji
      obtain rfl : p = t := by simpa using ht
      have hz : sp.pte (1024 * j + k) = 0 := h.absent _ (by
        rw [show (1024 * j + k) / 1024 = j by omega]; exact hnone)
      rw [hz, Mem.load32_store32_of_ne (by omega)]
      exact Mem.load32_fill_zero (by omega)
    · replace ht : sp.tab j = some t := by simpa [hji] using ht
      have hta := halign t (by rw [h.own_tab ht]; simp)
      have htp : t ≠ p := by rintro rfl; exact htab j ht
      have htd := h.tab_ne_dir ht
      rw [← h.pte j t ht k hk]
      exact hother _ (by omega) (by rw [page_add hta (by omega)]; exact htp) (by omega)
  · intro v hv
    by_cases hvi : v / 1024 = i
    · subst hvi; simp at hv
    · exact h.absent v (by simpa [hvi] using hv)
  · intro q
    by_cases hq : q = p
    · subst hq; simp [hdir]
    · simp [hq, h.dir]
  · intro j q
    by_cases hq : q = p
    · subst hq
      by_cases hji : j = i
      · subst hji; simp
      · have hij : ¬ i = j := fun h => hji h.symm
        simp [hji, hij, htab j]
    · by_cases hji : j = i
      · subst hji
        have hpq : ¬ p = q := fun h => hq h.symm
        simp [hq, hpq, h.tab, hnone]
      · simp [hq, hji, h.tab]
  · intro j t ht
    by_cases hji : j = i
    · exact hji ▸ hi
    · exact h.tab_lt j t (by simpa [hji] using ht)

/-- The entries are those of an address space. -/
theorem spaceOk (h : TablesOk own s sp m)
    (huser : ∀ v, 0x40000 ≤ v → present (sp.pte v) → own (PTE_ADDR (sp.pte v)) = .user s v)
    (hkern : ∀ v < 0x40000, present (sp.pte v) → PTE_ADDR (sp.pte v) = 4096 * v ∧ v < 0x20000) :
    SpaceOk own s sp m :=
  ⟨h.pde, h.pte, h.absent, h.dir, h.tab, h.tab_lt, huser, hkern⟩

end TablesOk

namespace SpaceOk
variable {L : Layout} {own own' : ℕ → Tag} {s : ℕ} {sp : Space} {m m' : Mem} {v e t p : ℕ}

theorem tables (h : SpaceOk own s sp m) : TablesOk own s sp m :=
  ⟨h.pde, h.pte, h.absent, h.dir, h.tab, h.tab_lt⟩

theorem own_dir (h : SpaceOk own s sp m) : own sp.dir = .dir s := h.tables.own_dir

theorem own_tab (h : SpaceOk own s sp m) {i : ℕ} (ht : sp.tab i = some t) : own t = .table s i :=
  h.tables.own_tab ht

theorem tab_inj (h : SpaceOk own s sp m) {i j : ℕ} (hi : sp.tab i = some t)
    (hj : sp.tab j = some t) : i = j := h.tables.tab_inj hi hj

theorem tab_ne_dir (h : SpaceOk own s sp m) {i : ℕ} (ht : sp.tab i = some t) : t ≠ sp.dir :=
  h.tables.tab_ne_dir ht

theorem congr (h : SpaceOk own s sp m)
    (hm : ∀ x, (∃ i, own (page x) = .table s i) ∨ own (page x) = .dir s → m' x = m x)
    (halign : ∀ p, own p ≠ .out → p % 4096 = 0) : SpaceOk own s sp m' :=
  (h.tables.congr hm halign).spaceOk h.user h.kern

/-- What another address space does. -/
theorem frame {s' : ℕ} {σ σ' : Phys} (h : SpaceOk own s sp σ.mem) (hf : Frame s' σ own σ' own')
    (hne : s ≠ s') (halign : ∀ p, own p ≠ .out → p % 4096 = 0) : SpaceOk own' s sp σ'.mem := by
  obtain ⟨new, hf⟩ := hf
  have hnot : ∀ tag : Tag, tag.of s → tag ≠ .free ∧ ¬ tag.of s' := by
    rintro (_ | _ | _ | _ | _ | _) hof <;> simp_all [Tag.of]
  -- The pages of `s` have the same owner before and after.
  have hsame : ∀ p tag, tag.of s → (own' p = tag ↔ own p = tag) := by
    intro p tag htag
    obtain ⟨h1, h2⟩ := hnot tag htag
    constructor
    · rintro rfl
      by_contra hcon
      by_cases hp : own p = .free ∨ (own p).of s'
      · rcases hf.inside p hp with hfree | hs
        · exact h1 hfree
        · exact h2 hs
      · rw [not_or] at hp
        exact hcon (hf.others p hp.1 hp.2).symm
    · rintro rfl
      exact hf.others p h1 h2
  have hmem : SpaceOk own s sp σ'.mem := by
    refine h.congr (fun x hx => hf.mem x ?_ ?_) halign
    · intro hnew
      have hof : (own (page x)).of s := by rcases hx with ⟨i, hx⟩ | hx <;> simp [hx, Tag.of]
      rcases hf.fresh _ hnew with hfree | hs
      · exact (hnot _ hof).1 hfree
      · exact (hnot _ hof).2 hs
    · have hof : (own (page x)).of s := by rcases hx with ⟨i, hx⟩ | hx <;> simp [hx, Tag.of]
      exact (hnot _ hof).2
  exact ⟨hmem.pde, hmem.pte, hmem.absent,
    fun p => (hsame p (.dir s) rfl).trans (h.dir p),
    fun i p => (hsame p (.table s i) rfl).trans (h.tab i p), h.tab_lt,
    fun v hv hp => (hsame _ (.user s v) rfl).mpr (h.user v hv hp), h.kern⟩

/-- A page that is neither a table nor mapped changes its owner. -/
theorem retag (h : SpaceOk own s sp m) {tag : Tag} (hdir : p ≠ sp.dir)
    (htab : ∀ i, sp.tab i ≠ some p)
    (hun : ∀ v, 0x40000 ≤ v → present (sp.pte v) → PTE_ADDR (sp.pte v) ≠ p)
    (htag : tag ≠ .dir s ∧ ∀ i, tag ≠ .table s i) :
    SpaceOk (Function.update own p tag) s sp m := by
  apply (h.tables.retag hdir htab htag).spaceOk _ h.kern
  intro v hv hp
  rw [Function.update_of_ne (hun v hv hp)]
  exact h.user v hv hp

/-- A free page is neither a table nor mapped. -/
theorem not_free (h : SpaceOk own s sp m) (hp : own p = .free) :
    p ≠ sp.dir ∧ (∀ i, sp.tab i ≠ some p) ∧
      ∀ v, 0x40000 ≤ v → present (sp.pte v) → PTE_ADDR (sp.pte v) ≠ p := by
  obtain ⟨hdir, htab⟩ := h.tables.ne_table (.inl hp)
  refine ⟨hdir, htab, ?_⟩
  rintro v hv hpres rfl
  rw [h.user v hv hpres] at hp
  cases hp

/-- An entry that may stand for page `v`. -/
def Allowed (own : ℕ → Tag) (s v e : ℕ) : Prop :=
  e < 2 ^ 32 ∧ (0x40000 ≤ v → present e → own (PTE_ADDR e) = .user s v) ∧
    (v < 0x40000 → present e → PTE_ADDR e = 4096 * v ∧ v < 0x20000)

/-- Page `v` has another entry. -/
theorem update (h : SpaceOk own s sp m)
    (h' : TablesOk own s { sp with pte := Function.update sp.pte v e } m')
    (he : Allowed own s v e) :
    SpaceOk own s { sp with pte := Function.update sp.pte v e } m' := by
  apply h'.spaceOk
  · intro w hw hp
    by_cases hwv : w = v
    · subst hwv
      simp only [Function.update_self] at hp ⊢
      exact he.2.1 hw hp
    · simp only [Function.update_of_ne hwv] at hp ⊢
      exact h.user w hw hp
  · intro w hw hp
    by_cases hwv : w = v
    · subst hwv
      simp only [Function.update_self] at hp ⊢
      exact he.2.2 hw hp
    · simp only [Function.update_of_ne hwv] at hp ⊢
      exact h.kern w hw hp

/-- A store to an entry. -/
theorem setPte (h : SpaceOk own s sp m) (halign : ∀ p, own p ≠ .out → p % 4096 = 0)
    (ht : sp.tab (v / 1024) = some t) (he : Allowed own s v e) :
    SpaceOk own s { sp with pte := Function.update sp.pte v e }
      (m.store32 (t + 4 * (v % 1024)) e) :=
  h.update (h.tables.setPte halign ht he.1) he

end SpaceOk

namespace PageTables
variable {L : Layout} {s : ℕ} {σ : Phys} {g : Ghost} {v : ℕ}

theorem align (h : PageTables L s σ g) : ∀ p, g.own p ≠ .out → p % 4096 = 0 :=
  fun p hp => (h.heap.pages p hp).1

theorem dir_page (h : PageTables L s σ g) : IsPage L g.sp.dir :=
  h.heap.pages _ (by rw [h.tables.own_dir]; simp)

theorem tab_page (h : PageTables L s σ g) {i t : ℕ} (ht : g.sp.tab i = some t) : IsPage L t :=
  h.heap.pages _ (by rw [h.tables.own_tab ht]; simp)

theorem dir_ne (h : PageTables L s σ g) : g.sp.dir ≠ 0 := by
  have := h.dir_page.pos
  omega

/-- The entry of a page is never at address 0. -/
theorem entry_eq_zero (h : PageTables L s σ g) : g.sp.entry v = 0 ↔ g.sp.tab (v / 1024) = none := by
  rcases ht : g.sp.tab (v / 1024) with _ | t
  · simp [Space.entry, ht]
  · have := (h.tab_page ht).pos
    simp [Space.entry, ht]
    omega

/-- The word at the entry of a page. -/
theorem load_entry (h : PageTables L s σ g) (hne : g.sp.entry v ≠ 0) :
    σ.mem.load32 (g.sp.entry v) = g.sp.pte v := by
  rcases ht : g.sp.tab (v / 1024) with _ | t
  · exact absurd (h.entry_eq_zero.mpr ht) hne
  · have := h.tables.pte _ t ht (v % 1024) (by omega)
    rw [show 1024 * (v / 1024) + v % 1024 = v by omega] at this
    simpa [Space.entry, ht] using this

/-- A store to the entry of a page. -/
theorem setPte (h : PageTables L s σ g) (hne : g.sp.entry v ≠ 0) {e : ℕ}
    (he : e < 2 ^ 32) :
    PageTables L s { σ with mem := σ.mem.store32 (g.sp.entry v) e }
        { g with sp := { g.sp with pte := Function.update g.sp.pte v e } } ∧
      Frame s σ g.own { σ with mem := σ.mem.store32 (g.sp.entry v) e } g.own := by
  rcases ht : g.sp.tab (v / 1024) with _ | t
  · exact absurd (h.entry_eq_zero.mpr ht) hne
  have hta := (h.tab_page ht).1
  have hentry : g.sp.entry v = t + 4 * (v % 1024) := by simp [Space.entry, ht]
  have hmem : ∀ x, page x ≠ t → σ.mem.store32 (g.sp.entry v) e x = σ.mem x := by
    intro x hx
    simp only [page] at hx
    rw [hentry]
    exact Mem.store32_of_ne (by omega)
  refine ⟨⟨?_, ?_⟩, ?_⟩
  · refine h.heap.congr rfl fun p hp x hx => hmem x ?_
    rintro rfl
    have := (h.heap.free p).mp hp
    rw [← hx, h.tables.own_tab ht] at this
    cases this
  · rw [hentry]
    exact h.tables.setPte h.align ht he
  · exact Frame.write (by rw [h.tables.own_tab ht]; rfl) hmem

end PageTables

namespace Vm
variable {L : Layout} {s : ℕ} {σ : Phys} {g : Ghost} {v : ℕ}

theorem tables (h : Vm L s σ g) : PageTables L s σ g := ⟨h.heap, h.space.tables⟩

theorem align (h : Vm L s σ g) : ∀ p, g.own p ≠ .out → p % 4096 = 0 := h.tables.align

theorem dir_page (h : Vm L s σ g) : IsPage L g.sp.dir := h.tables.dir_page

theorem tab_page (h : Vm L s σ g) {i t : ℕ} (ht : g.sp.tab i = some t) : IsPage L t :=
  h.tables.tab_page ht

theorem dir_ne (h : Vm L s σ g) : g.sp.dir ≠ 0 := h.tables.dir_ne

theorem entry_eq_zero (h : Vm L s σ g) : g.sp.entry v = 0 ↔ g.sp.tab (v / 1024) = none :=
  h.tables.entry_eq_zero

theorem load_entry (h : Vm L s σ g) (hne : g.sp.entry v ≠ 0) :
    σ.mem.load32 (g.sp.entry v) = g.sp.pte v := h.tables.load_entry hne

/-- A store to the entry of a page. -/
theorem setPte (h : Vm L s σ g) (hne : g.sp.entry v ≠ 0) {e : ℕ}
    (he : SpaceOk.Allowed g.own s v e) :
    Vm L s { σ with mem := σ.mem.store32 (g.sp.entry v) e }
        { g with sp := { g.sp with pte := Function.update g.sp.pte v e } } ∧
      Frame s σ g.own { σ with mem := σ.mem.store32 (g.sp.entry v) e } g.own := by
  obtain ⟨h', hf⟩ := h.tables.setPte hne he.1
  exact ⟨⟨h'.heap, h.space.update h'.tables he⟩, hf⟩

end Vm

variable {L : Layout} {s : ℕ} {σ : Phys} {g : Ghost} {v : ℕ} {E : Panic → Prop}

/-- `walkpgdir` needs the page number only. -/
theorem walkpgdir_page (pgdir va : ℕ) (isalloc : Bool) :
    walkpgdir pgdir va isalloc = walkpgdir pgdir (4096 * (va / 4096)) isalloc := by
  have hpdx : PDX va = PDX (4096 * (va / 4096)) := by
    simp only [PDX]
    omega
  have hptx : PTX va = PTX (4096 * (va / 4096)) := by
    simp only [PTX]
    omega
  simp only [walkpgdir, hpdx, hptx]

/-- `walkpgdir` without allocation finds the entry of a page. -/
theorem PageTables.wp_walk (h : PageTables L s σ g) (hv : v < 0x100000) {Q : ℕ → Phys → Prop}
    (hQ : Q (g.sp.entry v) σ) : wp E (walkpgdir g.sp.dir (4096 * v) false) Q σ := by
  have hne := h.dir_ne
  have hpde := h.tables.pde (v / 1024) (by omega)
  rcases ht : g.sp.tab (v / 1024) with _ | t
  · rw [ht] at hpde
    simpa [walkpgdir, hne, load, PDX_page hv, hpde, present, Space.entry, ht] using hQ
  · rw [ht] at hpde
    have hta := (h.tab_page ht).1
    have hodd : (t + 7) % 2 = 1 := by omega
    have haddr : PTE_ADDR (t + 7) = t := PTE_ADDR_table hta
    simpa [walkpgdir, hne, load, PDX_page hv, PTX_page, hpde, present, hodd, haddr, Space.entry,
      ht] using hQ

theorem wp_walk (h : Vm L s σ g) (hv : v < 0x100000) {Q : ℕ → Phys → Prop}
    (hQ : Q (g.sp.entry v) σ) : wp E (walkpgdir g.sp.dir (4096 * v) false) Q σ :=
  h.tables.wp_walk hv hQ

/-- What `walkpgdir` with allocation does: it finds the entry, or makes a page table for it,
or fails because nothing is free. -/
structure Walked (s v : ℕ) (σ : Phys) (g : Ghost) (r : ℕ) (σ' : Phys) (g' : Ghost) : Prop where
  entry : r = g'.sp.entry v
  frame : Frame s σ g.own σ' g'.own
  grow : Grow g.sp g'.sp
  pte : g'.sp.pte = g.sp.pte
  others : ∀ i, i ≠ v / 1024 → g'.sp.tab i = g.sp.tab i
  own : ∀ p, g.own p ≠ .free → g'.own p = g.own p
  failed : r = 0 → g' = g ∧ σ' = σ ∧ g.free = []
  stuck : g.free = [] → g.sp.tab (v / 1024) = none → r = 0
  count : g'.free.length + g'.sp.tables = g.free.length + g.sp.tables
  user : ∀ x w, g.own (page x) = .user s w → σ'.mem x = σ.mem x
  used : ∀ p, g.own p = .free → g'.own p = .free ∨ ∃ i, g'.own p = .table s i
  idle : ∀ x, g'.own (page x) = .free → σ'.mem x = σ.mem x

/-- The state after `walkpgdir` has made page `p` the page table of directory entry `i`. -/
def Phys.newTable (σ : Phys) (dir i p : ℕ) : Phys :=
  { σ.take p with mem := (σ.mem.fill p 0 4096).store32 (dir + 4 * i) (p + 7) }

/-- The page table that `walkpgdir` makes. -/
theorem PageTables.newTable (h : PageTables L s σ g) (hv : v < 0x100000) (ht : g.sp.tab (v / 1024) = none)
    {p : ℕ} {F : List ℕ} (hF : g.free = p :: F) :
    ∃ g', PageTables L s (σ.newTable g.sp.dir (v / 1024) p) g' ∧
      Walked s v σ g (p + 4 * (v % 1024)) (σ.newTable g.sp.dir (v / 1024) p) g' := by
  have hown : g.own p = .free := (h.heap.free p).mp (by simp [hF])
  have hpage : IsPage L p := h.heap.pages p (by simp [hown])
  have hpos := hpage.pos
  have hlt := hpage.lt
  obtain ⟨hdir, htab⟩ := h.tables.ne_table (.inl hown)
  have hda := h.dir_page.1
  have hheap := (hF ▸ h.heap).take (show Tag.table s (v / 1024) ≠ Tag.free by simp)
  have hmem : ∀ x, page x ≠ p → page x ≠ g.sp.dir →
      (σ.newTable g.sp.dir (v / 1024) p).mem x = (σ.take p).mem x := by
    intro x hp hd
    have hpa := hpage.1
    simp only [page] at hp hd
    simp only [Phys.newTable, Phys.take]
    rw [Mem.store32_of_ne (by omega), Mem.fill_of_ne (by omega)]
  have hpF : p ∉ F := (List.nodup_cons.mp (hF ▸ h.heap.nodup)).1
  refine ⟨⟨F, Function.update g.own p (.table s (v / 1024)),
    { g.sp with tab := Function.update g.sp.tab (v / 1024) (some p) }⟩, ⟨?_, ?_⟩, ?_⟩
  · refine hheap.congr rfl fun q hq x hx => hmem x ?_ ?_
    · rintro rfl
      exact hpF (hx ▸ hq)
    · rintro hd
      have hfree := (h.heap.free q).mp (by simp [hF, hq])
      rw [← hx, hd, h.tables.own_dir] at hfree
      cases hfree
  · exact h.tables.setTab h.align (by omega) ht hown (by omega)
  · refine ⟨by simp [Space.entry], ?_, ⟨rfl, ?_⟩, rfl, fun i hi => by simp [hi], ?_, by omega,
      by simp [hF], ?_, fun x w hx => hmem x ?_ ?_, fun q hq => ?_, fun x hx => hmem x ?_ ?_⟩
    · refine (Frame.take hown (show (Tag.table s (v / 1024)).of s from rfl)).trans ?_
      refine ⟨[], rfl, by simp, fun x _ hx => hmem x ?_ ?_, fun _ _ _ => rfl, fun _ h => .inl h,
        fun _ h => .inl h, fun _ h => h⟩
      · rintro rfl
        exact hx (by simp [Tag.of])
      · intro hd
        refine hx ?_
        rw [hd, Function.update_of_ne hdir.symm, h.tables.own_dir]
        rfl
    · intro i t hit
      have hi : i ≠ v / 1024 := by rintro rfl; rw [ht] at hit; cases hit
      simpa [hi] using hit
    · intro q hq
      have hqp : q ≠ p := by rintro rfl; exact hq hown
      simp [hqp]
    · have htables := Space.tables_setTab (p := p) (by omega) ht
      simp only [hF, List.length_cons]
      omega
    · rintro rfl
      rw [hown] at hx
      cases hx
    · intro hd
      rw [hd, h.tables.own_dir] at hx
      cases hx
    · by_cases hqp : q = p
      · exact .inr ⟨v / 1024, by simp [hqp]⟩
      · exact .inl (by simp [hqp, hq])
    · rintro rfl
      simp at hx
    · intro hd
      have hown' := (Function.update_of_ne hdir.symm _ g.own).symm.trans (hd ▸ hx)
      rw [h.tables.own_dir] at hown'
      cases hown'

/-- **`walkpgdir`** with allocation. -/
theorem PageTables.wp_walk_alloc (h : PageTables L s σ g) (hv : v < 0x100000) :
    wp E (walkpgdir g.sp.dir (4096 * v) true)
      (fun r σ' => ∃ g', PageTables L s σ' g' ∧ Walked s v σ g r σ' g') σ := by
  have hne := h.dir_ne
  have hpde := h.tables.pde (v / 1024) (by omega)
  rcases ht : g.sp.tab (v / 1024) with _ | t
  · rw [ht] at hpde
    simp only [walkpgdir, load, store, memset, hne, PDX_page hv, PTX_page, Option.elim_none] at hpde ⊢
    simp only [↓reduceIte, bind_pure_comp, present, decide_eq_true_eq, not_true_eq_false,
      bind_map_left, wp_bind, wp_ite, wp_pure, wp_map, wp_modify, wp_get, hpde, Nat.zero_mod,
      Nat.zero_ne_one]
    refine h.heap.wp_kalloc (fun hnil => ?_) fun p F' hF hp => ?_
    · simp only [if_true]
      refine ⟨g, h, by simp [Space.entry, ht], .refl .., .refl _, rfl, fun _ _ => rfl,
        fun _ _ => rfl, fun _ => ⟨rfl, rfl, hnil⟩, fun _ _ => rfl, rfl, fun _ _ _ => rfl,
        fun _ => .inl, fun _ _ => rfl⟩
    · simp only [if_neg hp]
      have hpte : p ||| PTE_P ||| PTE_W ||| PTE_U = p + 7 := by
        rw [Nat.or_assoc, Nat.or_assoc]
        exact or_flags (h.heap.pages p (by rw [(h.heap.free p).mp (by simp [hF])]; simp)).1
          (by decide)
      rw [hpte]
      exact h.newTable hv ht hF
  · rw [ht] at hpde
    have hta := (h.tab_page ht).1
    have hodd : (t + 7) % 2 = 1 := by omega
    have haddr : PTE_ADDR (t + 7) = t := PTE_ADDR_table hta
    have hpos := (h.tab_page ht).pos
    suffices ∃ g', PageTables L s σ g' ∧ Walked s v σ g (t + 4 * (v % 1024)) σ g' by
      simpa [walkpgdir, hne, load, PDX_page hv, PTX_page, hpde, present, hodd, haddr] using this
    refine ⟨g, h, by simp [Space.entry, ht], .refl .., .refl _, rfl, fun _ _ => rfl, fun _ _ => rfl,
      by omega, fun _ hnone => by simp [ht] at hnone, rfl, fun _ _ _ => rfl, fun _ => .inl,
      fun _ _ => rfl⟩

/-- A new page table says nothing. -/
theorem Vm.walked (h : Vm L s σ g) {r : ℕ} {σ' : Phys} {g' : Ghost} (h' : PageTables L s σ' g')
    (hw : Walked s v σ g r σ' g') : Vm L s σ' g' := by
  refine ⟨h'.heap, h'.tables.spaceOk ?_ ?_⟩
  · intro w hle hp
    rw [hw.pte] at hp ⊢
    have hown := h.space.user w hle hp
    rw [hw.own _ (by rw [hown]; simp), hown]
  · rw [hw.pte]
    exact h.space.kern

theorem wp_walk_alloc (h : Vm L s σ g) (hv : v < 0x100000) :
    wp E (walkpgdir g.sp.dir (4096 * v) true)
      (fun r σ' => ∃ g', Vm L s σ' g' ∧ Walked s v σ g r σ' g') σ := by
  apply wp_mono (h.tables.wp_walk_alloc hv)
  rintro r σ' ⟨g', h', hw⟩
  exact ⟨g', h.walked h' hw, hw⟩

end Mixv6.Mm
