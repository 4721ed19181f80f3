import Mixv6.Mm.Isolation

/-!
# Growing and shrinking

What `allocuvm` and `deallocuvm` do to an address space, in terms of what the processor finds in
its directory and of the list of free pages.

`deallocuvm` goes on at the next directory entry where there is no page table.  It finds every
page of its range, and ends.  `allocuvm` maps its whole range, or gives back what it has taken,
but for page tables, which stay in the directory without an entry.

## Main definitions

* `mapping`, `frames`, `IsTable` — what is in a directory.
* `skip`, `Deallocated`, `deallocuvm_frees` — shrinking.
* `demand`, `Extended`, `Restored`, `allocuvm_atomic` — growing.
-/

namespace Mixv6.Mm

open Mixv6.Lib

/-- The entry that translates an address. -/
def mapping (σ : Phys) (d va : ℕ) : Option ℕ := (entryOf σ d va).filter fun e => present e

/-- The memory pages behind the page numbers from `lo` up to `hi` that are mapped, in order. -/
def frames (σ : Phys) (d lo hi : ℕ) : List ℕ :=
  (List.range' lo (hi - lo)).filterMap fun v => translate σ d (PAGESIZE * v)

/-- The page of the directory, or of one of its page tables. -/
def IsTable (σ : Phys) (d p : ℕ) : Prop :=
  p = d ∨ ∃ i < 1024, present (World.pdeAt σ d i) ∧ PTE_ADDR (World.pdeAt σ d i) = p

variable {L : Layout} {s d va lo hi old new p : ℕ} {σ σ' : Phys} {g g' : Ghost} {E : Panic → Prop}

namespace Vm

theorem mapping (h : Vm L s σ g) (hva : va < 2 ^ 32) : Mm.mapping σ g.sp.dir va =
    if present (g.sp.pte (va / 4096)) then some (g.sp.pte (va / 4096)) else none := by
  rw [Mm.mapping, h.entryOf hva]
  rcases ht : g.sp.tab (va / 2 ^ 22) with _ | t
  · have hzero := h.space.absent (va / 4096) (by rwa [show va / 4096 / 1024 = va / 2 ^ 22 by omega])
    simp [hzero, present]
  · simp [Option.filter]

theorem frames (h : Vm L s σ g) (hhi : hi ≤ 0x100000) :
    Mm.frames σ g.sp.dir lo hi = g.sp.frames lo hi := by
  apply List.filterMap_congr
  intro v hv
  rw [List.mem_range'_1] at hv
  rw [h.translate (by simp only [PAGESIZE]; omega), show PAGESIZE * v / 4096 = v by simp [PAGESIZE],
    show PAGESIZE * v % 4096 = 0 by simp [PAGESIZE], Nat.add_zero]

/-- A page that belongs to the address space, but not to a user page. -/
theorem isTable (h : Vm L s σ g) : IsTable σ g.sp.dir p ↔ p = g.sp.dir ∨ ∃ i, g.sp.tab i = some p := by
  constructor
  · rintro (rfl | ⟨i, hi, hp, rfl⟩)
    · exact .inl rfl
    · exact .inr ⟨i, h.pdeAt_present hi hp⟩
  · rintro (rfl | ⟨i, ht⟩)
    · exact .inl rfl
    · have hi := h.space.tab_lt i p ht
      have hp : present (World.pdeAt σ g.sp.dir i) := by
        rw [h.present_pdeAt hi, ht]
        rfl
      have hsame := h.pdeAt_present hi hp
      exact .inr ⟨i, hi, hp, (Option.some.inj (ht.symm.trans hsame)).symm⟩

/-- A byte that is in no free page, directory or page table. -/
theorem byte_frame (h : Vm L s σ g) (hf : Frame s σ g.own σ' g'.own)
    (huser : ∀ x w, g.own (page x) = .user s w → σ'.mem x = σ.mem x) {x : ℕ}
    (hfree : page x ∉ g.free) (htable : ¬ IsTable σ g.sp.dir (page x)) : σ'.mem x = σ.mem x := by
  rw [h.heap.free] at hfree
  rw [h.isTable, not_or, not_exists] at htable
  by_cases hs : (g.own (page x)).of s
  · cases htag : g.own (page x) with
    | dir t =>
        rw [htag] at hs
        obtain rfl : t = s := hs
        exact absurd ((h.space.dir _).mp htag) htable.1
    | table t i =>
        rw [htag] at hs
        obtain rfl : t = s := hs
        exact absurd ((h.space.tab i _).mp htag) (htable.2 i)
    | user t w =>
        rw [htag] at hs
        obtain rfl : t = s := hs
        exact huser x w htag
    | out => rw [htag] at hs; exact hs.elim
    | free => rw [htag] at hs; exact hs.elim
    | kstack i => rw [htag] at hs; exact hs.elim
  · exact hf.outside hfree hs

end Vm

namespace Frame
variable {own own' : ℕ → Tag}

/-- A page that was in use by others keeps its owner. -/
theorem kept_own (hf : Frame s σ own σ' own') (hnew : ∀ q, ¬ (own q).of s) (hp : own p ≠ .free) :
    own' p = own p := by
  obtain ⟨new, hf⟩ := hf
  exact hf.others p hp (hnew p)

/-- Its bytes stay. -/
theorem kept (hf : Frame s σ own σ' own') (hnew : ∀ q, ¬ (own q).of s) {x : ℕ}
    (hx : own (page x) ≠ .free) : σ'.mem x = σ.mem x :=
  hf.outside hx (hnew _)

end Frame

/-! ## Shrinking -/

/-- What `deallocuvm` assigns to `va` when there is no page table. -/
def skip (va : ℕ) : ℕ := (PGADDR (PDX va + 1) 0 0 + (2 ^ 32 - PAGESIZE)) % 2 ^ 32

/-- `deallocuvm` goes on behind `skip va`: it does not go back, it does not wrap, and it leaves out
no page that is present. -/
structure Skips (σ : Phys) (d va : ℕ) : Prop where
  forward : va ≤ skip va
  bound : skip va + PAGESIZE ≤ USEREND
  absent : ∀ a, va ≤ a → a < skip va + PAGESIZE → translate σ d a = none

/-- No page of the range is present; its pages have come to the free list `F`, each once; and the
other entries are as they were. -/
structure Deallocated (d old new : ℕ) (F : List ℕ) (σ σ' : Phys) : Prop where
  absent : ∀ va, PGROUNDUP new ≤ va → va < PGROUNDUP old → translate σ' d va = none
  outside : ∀ va < 2 ^ 32, va < PGROUNDUP new ∨ PGROUNDUP old ≤ va → entryOf σ' d va = entryOf σ d va
  freed : Chain σ'.mem σ'.coremap
    ((frames σ d (PGROUNDUP new / PAGESIZE) (PGROUNDUP old / PAGESIZE)).reverse ++ F)
  once : ((frames σ d (PGROUNDUP new / PAGESIZE) (PGROUNDUP old / PAGESIZE)).reverse ++ F).Nodup

theorem Vm.skips (h : Vm L s σ g) (halign : va % PAGESIZE = 0) (hva : va < USEREND)
    (hnone : ¬ present (World.pdeAt σ g.sp.dir (PDX va))) : Skips σ g.sp.dir va := by
  simp only [USEREND] at hva
  simp only [PAGESIZE] at halign
  have hpdx : PDX va = va / 2 ^ 22 := PDX_eq (by omega)
  have hskip : skip va + PAGESIZE = (va / 2 ^ 22 + 1) * 2 ^ 22 := by
    rw [skip, hpdx, PGADDR_dir (by omega)]
    simp only [PAGESIZE]
    omega
  have htab : g.sp.tab (va / 2 ^ 22) = none := by
    rw [hpdx, h.present_pdeAt (by omega)] at hnone
    simpa using hnone
  refine ⟨?_, ?_, fun a h1 h2 => ?_⟩
  · simp only [PAGESIZE] at hskip
    omega
  · simp only [hskip, USEREND]
    omega
  · rw [hskip] at h2
    have hzero := h.space.absent (a / 4096) (by rwa [show a / 4096 / 1024 = va / 2 ^ 22 by omega])
    rw [h.translate (by omega), hzero]
    rfl

/-- What has been freed, as the processor sees it. -/
theorem Freed.deallocated (h : Vm L s σ g) (h' : Vm L s σ' g') (hnew : new ≤ USEREND)
    (hold : old ≤ USEREND) (hf : Freed s ((new + 4095) / 4096) ((old + 4095) / 4096) σ g σ' g') :
    Deallocated g.sp.dir old new g.free σ σ' := by
  have hend : USEREND = 0xFFC00000 := rfl
  have hframes : frames σ g.sp.dir (PGROUNDUP new / PAGESIZE) (PGROUNDUP old / PAGESIZE) =
      g.sp.frames ((new + 4095) / 4096) ((old + 4095) / 4096) := by
    rw [PGROUNDUP_eq hnew, PGROUNDUP_eq hold, PAGESIZE, Nat.mul_div_cancel_left _ (by decide),
      Nat.mul_div_cancel_left _ (by decide), h.frames (by omega)]
  constructor
  · intro va h1 h2
    rw [PGROUNDUP_eq hnew] at h1
    rw [PGROUNDUP_eq hold] at h2
    have hno : ¬ present (g'.sp.pte (va / 4096)) := by
      rw [hf.pte]
      by_cases hp : present (g.sp.pte (va / 4096))
      · rw [if_pos ⟨by omega, by omega, hp⟩]
        simp [present]
      · rwa [if_neg fun hcon => hp hcon.2.2]
    rw [← hf.dir, h'.translate (by omega), if_neg hno]
  · intro va hva hout
    rw [PGROUNDUP_eq hnew, PGROUNDUP_eq hold] at hout
    rw [h.entryOf hva, ← hf.dir, h'.entryOf hva, hf.tab, hf.pte, if_neg (by omega)]
  · rw [hframes, ← hf.free]
    exact h'.heap.chain
  · rw [hframes, ← hf.free]
    exact h'.heap.nodup

/-- A new address space on the small machine, where many pages are free. -/
theorem exists_vm_small : ∃ σ g, Vm smallLayout 0 σ g ∧ (∀ v, 0x20000 ≤ v → ¬ present (g.sp.pte v)) ∧
    (∀ i, 128 ≤ i → g.sp.tab i = none) ∧ 3000 ≤ g.free.length ∧ g.free.length ≤ 4096 := by
  obtain ⟨w₀, F, h0, hI, hnext, hlen⟩ := exists_bootSpaces smallLayout fun _ => 0
  have hnew := (hI.next 0 (by omega)).2
  obtain ⟨r, σ, hrun, hr⟩ := wp_total.mp (wp_setupkvm hI.heap hnew)
  have hF : F.length = 4096 := hlen
  rcases hr with ⟨-, g, -, hmade⟩ | ⟨-, hfew, -⟩
  · have hcount := hmade.count
    simp only [kvmPages] at hcount
    refine ⟨σ, g, hmade.vm, fun v hv => ?_, hmade.tab, by omega, by omega⟩
    rw [hmade.user v hv]
    simp [present]
  · simp only [kvmPages] at hfew
    omega

/-- **`deallocuvm`** ends, in every directory, with whatever page tables and pages are missing: each
page of the range that was mapped has been freed once, and no other has.  Where it skips a
directory entry it skips no page. -/
theorem deallocuvm_frees (h : Vm L s σ g) (hnew : KERNEND ≤ new) (hlt : new < old)
    (hold : old ≤ USEREND) :
    (∃ σ', deallocuvm L g.sp.dir old new σ = .ok (new, σ') ∧
      Deallocated g.sp.dir old new g.free σ σ') ∧
    ∀ va, va % PAGESIZE = 0 → KERNEND ≤ va → va < USEREND →
      ¬ present (World.pdeAt σ g.sp.dir (PDX va)) → Skips σ g.sp.dir va := by
  constructor
  · obtain ⟨r, σ', hrun, rfl, g', h', hf⟩ := wp_total.mp (wp_deallocuvm h hnew hlt hold)
    exact ⟨σ', hrun, hf.deallocated h h' (by omega) hold⟩
  · intro va halign _ hva hnone
    exact h.skips halign hva hnone

/-- Two pages 8 MB apart, with no page table for the 4 MB in the middle: both are freed. -/
theorem deallocuvm_frees_small : ∃ σ d F σ' p q, p ≠ q ∧ translate σ d KERNEND = some p ∧
    translate σ d (KERNEND + 0x800000) = some q ∧
    ¬ present (World.pdeAt σ d (PDX (KERNEND + 0x400000))) ∧
    deallocuvm smallLayout d (KERNEND + 0x800001) KERNEND σ = .ok (KERNEND, σ') ∧
    Deallocated d (KERNEND + 0x800001) KERNEND F σ σ' ∧ Skips σ d (KERNEND + 0x400000) := by
  obtain ⟨σ₀, g₀, h₀, hnone, htab, hroom, -⟩ := exists_vm_small
  have hbase : KERNEND = 0x40000000 := rfl
  have hend : USEREND = 0xFFC00000 := rfl
  -- The first page.
  obtain ⟨_, σ₁, -, -, g₁, h₁, hg₁⟩ := wp_total.mp (wp_allocuvm_room h₀ (le_refl _)
    (Nat.le_succ KERNEND) (by decide) (fun v hv _ => hnone v (le_trans (by decide) hv))
    ((g₀.sp.demand_le ..).trans (le_trans (by decide) hroom)))
  replace hg₁ : Grown 0 0x40000 0x40001 σ₀ g₀ σ₁ g₁ := hg₁
  have hroom₁ : 2 ≤ g₁.free.length := by
    have hlength := (hg₁.drawn h₁).length_eq (by omega)
    have hdemand := g₀.sp.demand_le 0x40000 0x40001
    omega
  -- The second one, behind a directory entry without a page table.
  obtain ⟨_, σ, -, -, g, h, hg⟩ := wp_total.mp (wp_allocuvm_room h₁
    (show KERNEND ≤ KERNEND + 0x800000 by decide)
    (show KERNEND + 0x800000 ≤ KERNEND + 0x800001 by decide) (by decide)
    (fun v hv _ => by rw [hg₁.outside v (.inr (le_trans (by decide) hv))]
                      exact hnone v (le_trans (by decide) hv))
    ((g₁.sp.demand_le ..).trans (le_trans (by decide) hroom₁)))
  replace hg : Grown 0 0x40800 0x40801 σ₁ g₁ σ g := hg
  have hfirst : present (g.sp.pte 0x40000) := by
    rw [hg.outside _ (by omega)]
    exact (hg₁.inside _ (by omega) (by omega)).1
  have hsecond : present (g.sp.pte 0x40800) := (hg.inside _ (by omega) (by omega)).1
  have hmissing : ¬ present (World.pdeAt σ g.sp.dir (PDX (KERNEND + 0x400000))) := by
    rw [show PDX (KERNEND + 0x400000) = 257 from rfl, h.present_pdeAt (by omega),
      hg.others 257 (fun v h1 h2 => by omega), hg₁.others 257 (fun v h1 h2 => by omega),
      htab 257 (by omega)]
    simp
  obtain ⟨⟨σ', hrun, hfreed⟩, hskips⟩ := deallocuvm_frees h (le_refl KERNEND)
    (show KERNEND < KERNEND + 0x800001 by decide) (by decide)
  refine ⟨σ, g.sp.dir, g.free, σ', PTE_ADDR (g.sp.pte 0x40000), PTE_ADDR (g.sp.pte 0x40800), ?_, ?_, ?_,
    hmissing, hrun, hfreed, hskips _ (by decide) (by decide) (by decide) hmissing⟩
  · intro heq
    have huser := h.space.user _ (by omega) hfirst
    rw [heq, h.space.user _ (by omega) hsecond] at huser
    cases huser
  · rw [h.translate (by decide), show KERNEND / 4096 = 0x40000 from rfl, if_pos hfirst,
      show KERNEND % 4096 = 0 from rfl, Nat.add_zero]
  · rw [h.translate (by decide), show (KERNEND + 0x800000) / 4096 = 0x40800 from rfl, if_pos hsecond,
      show (KERNEND + 0x800000) % 4096 = 0 from rfl, Nat.add_zero]

/-! ## Growing -/

/-- How many free pages `allocuvm` needs for the page numbers from `lo` up to `hi`: one for each of
them, and one for each of their directory entries that has no page table. -/
def demand (σ : Phys) (d lo hi : ℕ) : ℕ :=
  hi - lo + (((Finset.Ico lo hi).image (· / 1024)).filter fun i => ¬ present (World.pdeAt σ d i)).card

theorem Vm.demand (h : Vm L s σ g) (hhi : hi ≤ 0x100000) :
    Mm.demand σ g.sp.dir lo hi = g.sp.demand lo hi := by
  rw [Mm.demand, Space.demand, Space.missing]
  congr 2
  apply Finset.filter_congr
  intro i hi'
  obtain ⟨v, hv, rfl⟩ := Finset.mem_image.mp hi'
  rw [Finset.mem_Ico] at hv
  rw [h.present_pdeAt (by omega)]
  simp

/-- `allocuvm` has returned `new`.  The pages of the range are there, for the user to read and to
write, with zeros in pages from the free list `F`; `F'` is left of it. -/
structure Extended (d old new : ℕ) (F F' : List ℕ) (σ σ' : Phys) : Prop where
  inside : ∀ va, PGROUNDUP old ≤ va → va < PGROUNDUP new → ∃ e, mapping σ' d va = some e ∧
    PTE_FLAGS e = PTE_P ||| PTE_W ||| PTE_U ∧ PTE_ADDR e ∈ F ∧ PTE_ADDR e ∉ F' ∧
    ∀ x, page x = PTE_ADDR e → σ'.mem x = 0
  distinct : ∀ va va' e e', PGROUNDUP old ≤ va → va < PGROUNDUP new → PGROUNDUP old ≤ va' →
    va' < PGROUNDUP new → mapping σ' d va = some e → mapping σ' d va' = some e' →
    PTE_ADDR e = PTE_ADDR e' → va / PAGESIZE = va' / PAGESIZE
  outside : ∀ va < 2 ^ 32, va < PGROUNDUP old ∨ PGROUNDUP new ≤ va →
    mapping σ' d va = mapping σ d va ∧ ∀ e, entryOf σ d va = some e → entryOf σ' d va = some e
  bytes : ∀ x, page x ∉ F ∨ page x ∈ F' → ¬ IsTable σ d (page x) → σ'.mem x = σ.mem x
  chain : Chain σ'.mem σ'.coremap F'
  once : F'.Nodup
  sub : ∀ p ∈ F', p ∈ F

/-- `allocuvm` has failed.  Every address is translated as before, and of the free pages `F` those
of `F'` are free, while the others are new page tables with zeros. -/
structure Restored (d : ℕ) (F F' : List ℕ) (σ σ' : Phys) : Prop where
  same : ∀ va < 2 ^ 32, mapping σ' d va = mapping σ d va
  bytes : ∀ x, page x ∉ F → ¬ IsTable σ d (page x) → σ'.mem x = σ.mem x
  chain : Chain σ'.mem σ'.coremap F'
  once : F'.Nodup
  sub : ∀ p ∈ F', p ∈ F
  back : ∀ p ∈ F, p ∈ F' ∨ p ∉ F' ∧ ∃ i < 1024, ¬ present (World.pdeAt σ d i) ∧
    World.pdeAt σ' d i = p ||| PTE_P ||| PTE_W ||| PTE_U ∧ ∀ x, page x = p → σ'.mem x = 0

/-- The free list after `allocuvm` is a part of the one before. -/
theorem Vm.free_sub (h : Vm L s σ g) (h' : Vm L s σ' g')
    (hown : ∀ p, g.own p ≠ .free → g'.own p = g.own p) : ∀ p ∈ g'.free, p ∈ g.free := by
  intro p hp
  rw [h'.heap.free] at hp
  rw [h.heap.free]
  by_contra hcon
  exact hcon ((hown p hcon).symm.trans hp)

theorem Grown.extended (h : Vm L s σ g) (h' : Vm L s σ' g') (hold : KERNEND ≤ old)
    (hle : old ≤ USEREND) (hnew : new ≤ USEREND)
    (hg : Grown s ((old + 4095) / 4096) ((new + 4095) / 4096) σ g σ' g') :
    Extended g.sp.dir old new g.free g'.free σ σ' := by
  have hend : USEREND = 0xFFC00000 := rfl
  have hbase : KERNEND = 0x40000000 := rfl
  have hsub := h.free_sub h' hg.own
  have hinside : ∀ va, PGROUNDUP old ≤ va → va < PGROUNDUP new →
      mapping σ' g.sp.dir va = some (g'.sp.pte (va / 4096)) ∧ (old + 4095) / 4096 ≤ va / 4096 ∧
        va / 4096 < (new + 4095) / 4096 := by
    intro va h1 h2
    rw [PGROUNDUP_eq hle] at h1
    rw [PGROUNDUP_eq hnew] at h2
    have hin := hg.inside (va / 4096) (by omega) (by omega)
    rw [← hg.grow.dir, h'.mapping (by omega), if_pos hin.1]
    exact ⟨rfl, by omega, by omega⟩
  constructor
  · intro va h1 h2
    obtain ⟨hmap, h3, h4⟩ := hinside va h1 h2
    refine ⟨_, hmap, (hg.inside _ h3 h4).2, (h.heap.free _).mpr (hg.fresh _ h3 h4), ?_,
      hg.zero _ h3 h4⟩
    rw [h'.heap.free, h'.space.user _ (by omega) (hg.inside _ h3 h4).1]
    simp
  · intro va va' e e' h1 h2 h1' h2' hmap hmap' heq
    obtain ⟨hva, h3, h4⟩ := hinside va h1 h2
    obtain ⟨hva', h3', h4'⟩ := hinside va' h1' h2'
    cases hva.symm.trans hmap
    cases hva'.symm.trans hmap'
    have huser := h'.space.user _ (by omega) (hg.inside _ h3 h4).1
    have huser' := h'.space.user _ (by omega) (hg.inside _ h3' h4').1
    rw [heq, huser', Tag.user.injEq] at huser
    exact huser.2.symm
  · intro va hva hout
    rw [PGROUNDUP_eq hle, PGROUNDUP_eq hnew] at hout
    have hpte := hg.outside (va / 4096) (by omega)
    rw [← hg.grow.dir, h'.mapping hva, hpte, hg.grow.dir, h.mapping hva]
    refine ⟨rfl, fun e he => ?_⟩
    rw [h.entryOf hva] at he
    rw [← hg.grow.dir, h'.entryOf hva, hpte]
    rcases ht : g.sp.tab (va / 2 ^ 22) with _ | t
    · rw [ht] at he
      cases he
    · rw [ht] at he
      rw [hg.grow.tab _ t ht]
      exact he
  · rintro x (hx | hx) htable
    · exact h.byte_frame hg.frame hg.user hx htable
    · exact hg.idle x ((h'.heap.free _).mp hx)
  · exact h'.heap.chain
  · exact h'.heap.nodup
  · exact hsub

theorem Shrunk.restored (h : Vm L s σ g) (h' : Vm L s σ' g')
    (habsent : ∀ v, lo ≤ v → v < hi → ¬ present (g.sp.pte v)) (hs : Shrunk s lo hi σ g σ' g') :
    Restored g.sp.dir g.free g'.free σ σ' := by
  constructor
  · intro va hva
    rw [← hs.grow.dir, h'.mapping hva, hs.grow.dir, h.mapping hva]
    by_cases hin : lo ≤ va / 4096 ∧ va / 4096 < hi
    · rw [if_neg (hs.inside _ hin.1 hin.2), if_neg (habsent _ hin.1 hin.2)]
    · rw [hs.outside _ (by omega)]
  · intro x hx htable
    exact h.byte_frame hs.frame hs.user hx htable
  · exact h'.heap.chain
  · exact h'.heap.nodup
  · exact h.free_sub h' hs.own
  · intro p hp
    rw [h'.heap.free]
    rcases hs.back p ((h.heap.free p).mp hp) with hfree | ⟨i, htag⟩
    · exact .inl hfree
    · have htab := (h'.space.tab i p).mp htag
      have hlt := h'.space.tab_lt i p htab
      have hpa := (h'.tab_page htab).1
      have hnone : g.sp.tab i = none := by
        rcases ht : g.sp.tab i with _ | t
        · rfl
        · obtain rfl : p = t := by simpa [hs.grow.tab i t ht] using htab.symm
          have hown := h.space.own_tab ht
          rw [(h.heap.free _).mp hp] at hown
          cases hown
      refine .inr ⟨by rw [htag]; simp, i, hlt, ?_, ?_, fun x hx => ?_⟩
      · rw [h.present_pdeAt hlt, hnone]
        simp
      · rw [← hs.grow.dir, h'.pdeAt hlt, htab, Nat.or_assoc, Nat.or_assoc]
        exact (or_flags hpa (by decide)).symm
      · -- The entries of the new table are all zero.
        have hzero : ∀ j < 1024, g'.sp.pte (1024 * i + j) = 0 := by
          intro j hj
          have hold := h.space.absent (1024 * i + j) (by rwa [show (1024 * i + j) / 1024 = i by omega])
          by_cases hin : lo ≤ 1024 * i + j ∧ 1024 * i + j < hi
          · exact (hs.cleared _ hin.1 hin.2).elim id fun hsame => hsame.trans hold
          · rw [hs.outside _ (by omega), hold]
        have hword := h'.space.pte i p htab ((x - p) / 4) (by simp only [page] at hx; omega)
        rw [hzero _ (by simp only [page] at hx; omega)] at hword
        have hbyte := Mem.eq_zero_of_load32 hword (show (x - p) % 4 < 4 by omega)
        rwa [show p + 4 * ((x - p) / 4) + (x - p) % 4 = x by simp only [page] at hx; omega] at hbyte

/-- **`allocuvm`** grows the address space as a whole when the free list has the pages and the page
tables for it.  When it has too few `kalloc` fails on the way, and every address is translated as it
was. -/
theorem allocuvm_atomic (h : Vm L s σ g) (hold : KERNEND ≤ old)
    (habsent : ∀ va, PGROUNDUP old ≤ va → va < new → translate σ g.sp.dir va = none) :
    (USEREND ≤ new → allocuvm L g.sp.dir old new σ = .ok (0, σ)) ∧
    (new < USEREND → new < old → allocuvm L g.sp.dir old new σ = .ok (old, σ)) ∧
    (new < USEREND → old ≤ new →
      (demand σ g.sp.dir (PGROUNDUP old / PAGESIZE) (PGROUNDUP new / PAGESIZE) ≤ g.free.length →
        ∃ F' σ', allocuvm L g.sp.dir old new σ = .ok (new, σ') ∧
          Extended g.sp.dir old new g.free F' σ σ') ∧
      (g.free.length < demand σ g.sp.dir (PGROUNDUP old / PAGESIZE) (PGROUNDUP new / PAGESIZE) →
        ∃ F' σ', allocuvm L g.sp.dir old new σ = .ok (0, σ') ∧
          Restored g.sp.dir g.free F' σ σ')) := by
  refine ⟨fun hhigh => ?_, fun hlt hlow => ?_, fun hlt hle => ?_⟩
  · simp only [allocuvm, hhigh, ↓reduceIte]
    rfl
  · simp only [allocuvm, Nat.not_le.mpr hlt, hlow, ↓reduceIte]
    rfl
  · have hend : USEREND = 0xFFC00000 := rfl
    have hno : ∀ v, (old + 4095) / 4096 ≤ v → v < (new + 4095) / 4096 → ¬ present (g.sp.pte v) := by
      intro v h1 h2 hp
      have hnone := habsent (4096 * v) (by rw [PGROUNDUP_eq (by omega)]; omega) (by omega)
      rw [h.translate (by omega), Nat.mul_div_cancel_left _ (by decide), if_pos hp] at hnone
      cases hnone
    rw [PGROUNDUP_eq (by omega), PGROUNDUP_eq (by omega), PAGESIZE,
      Nat.mul_div_cancel_left _ (by decide), Nat.mul_div_cancel_left _ (by decide),
      h.demand (by omega)]
    obtain ⟨r, σ', hrun, hres⟩ := wp_total.mp (wp_allocuvm h hold hno)
    rcases hres with ⟨hhigh, -, -⟩ | ⟨hlow, -, -, -⟩ | ⟨-, -, rfl, g', h', hg⟩ | ⟨-, -, rfl, g', h', hs⟩
    · omega
    · omega
    · have hlength := (hg.drawn h').length_eq (by omega)
      exact ⟨fun _ => ⟨g'.free, σ', hrun, hg.extended h h' hold (by omega) hlt.le⟩, fun _ => by omega⟩
    · have hshort := hs.short
      exact ⟨fun _ => by omega, fun _ => ⟨g'.free, σ', hrun, hs.restored h h' hno⟩⟩

/-- A new address space gets 1025 pages, for which it takes two page tables, but not all of user
space. -/
theorem allocuvm_atomic_small : ∃ σ d F F' F'' σ' σ'',
    allocuvm smallLayout d KERNEND (KERNEND + 0x400001) σ = .ok (KERNEND + 0x400001, σ') ∧
      Extended d KERNEND (KERNEND + 0x400001) F F' σ σ' ∧
    allocuvm smallLayout d KERNEND (USEREND - 1) σ = .ok (0, σ'') ∧ Restored d F F'' σ σ'' := by
  obtain ⟨σ, g, h, hnone, -, hroom, hfew⟩ := exists_vm_small
  have hbase : KERNEND = 0x40000000 := rfl
  have hend : USEREND = 0xFFC00000 := rfl
  have habsent : ∀ new ≤ USEREND, ∀ va, PGROUNDUP KERNEND ≤ va → va < new →
      translate σ g.sp.dir va = none := by
    intro new hnew va h1 h2
    have hpage : 0x20000 ≤ va / 4096 := by
      rw [PGROUNDUP_eq (by decide), hbase] at h1
      omega
    rw [h.translate (by omega), if_neg (hnone _ hpage)]
  have hsmall : demand σ g.sp.dir (PGROUNDUP KERNEND / PAGESIZE)
      (PGROUNDUP (KERNEND + 0x400001) / PAGESIZE) ≤ g.free.length := by
    rw [h.demand (by decide)]
    refine (g.sp.demand_le ..).trans (le_trans ?_ hroom)
    decide
  have hlarge : g.free.length <
      demand σ g.sp.dir (PGROUNDUP KERNEND / PAGESIZE) (PGROUNDUP (USEREND - 1) / PAGESIZE) := by
    have hpages : 4096 < PGROUNDUP (USEREND - 1) / PAGESIZE - PGROUNDUP KERNEND / PAGESIZE := by decide
    simp only [demand]
    omega
  obtain ⟨F', σ', hrun, hextended⟩ := ((allocuvm_atomic h (le_refl _)
    (habsent (KERNEND + 0x400001) (by omega))).2.2 (by omega) (by omega)).1 hsmall
  obtain ⟨F'', σ'', hrun', hrestored⟩ := ((allocuvm_atomic h (le_refl _)
    (habsent (USEREND - 1) (by omega))).2.2 (by omega) (by omega)).2 hlarge
  exact ⟨σ, g.sp.dir, g.free, F', F'', σ', σ'', hrun, hextended, hrun', hrestored⟩

end Mixv6.Mm
