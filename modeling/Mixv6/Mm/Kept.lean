import Mixv6.Mm.Copy

/-!
# The routines on any user range

What the routines of `kernel/mm/vm.c` do to one address space when they are called with any
range of user addresses, mapped or not: they may panic on a range that does not suit them,
but they end, they change no entry of the kernel half, and an entry of the user half stands
for a page of its own or is 0.

## Main definitions

* `Based` — the kernel half as `kvminit` wants it, and the user half in order.
* `Kept` — what a routine on one address space keeps.
* `wp_allocuvm_kept`, `wp_ustack_kept`, `wp_copyuvm_based`, `wp_copyout_kept`,
  `wp_loaduvm_kept` — the routines.
-/

namespace Mixv6.Mm

open Mixv6.Lib

variable {L : Layout} {s t v p flags : ℕ} {σ σ' σ'' : Phys} {g g' g'' : Ghost} {F : List ℕ}
  {own : ℕ → Tag} {sp : Space}

/-- Any panic, but not a loop that never ends. -/
def Panics (e : Panic) : Prop := e ≠ .hang

/-- The kernel half maps the memory to itself with the flags of the kernel, nothing lies
between the kernel half and `USEREND` but user entries, and an entry that is not present
is 0. -/
structure Based (L : Layout) (sp : Space) : Prop where
  kern : ∀ v < 0x20000, sp.pte v = 4096 * v + (kernFlags L v ||| 1)
  hole : ∀ v, 0x20000 ≤ v → v < 0x40000 → sp.pte v = 0
  high : ∀ v, 0xFFC00 ≤ v → sp.pte v = 0
  clean : ∀ v, sp.pte v = 0 ∨ present (sp.pte v)

/-- What a routine on address space `s` keeps: it changes user entries only. -/
structure Kept (s : ℕ) (σ : Phys) (g : Ghost) (σ' : Phys) (g' : Ghost) : Prop where
  frame : Frame s σ g.own σ' g'.own
  grow : Grow g.sp g'.sp
  pte : ∀ v, g'.sp.pte v = g.sp.pte v ∨
    0x40000 ≤ v ∧ v < 0xFFC00 ∧ (g'.sp.pte v = 0 ∨ present (g'.sp.pte v))

namespace Kept

theorem refl (s : ℕ) (σ : Phys) (g : Ghost) : Kept s σ g σ g :=
  ⟨.refl .., .refl _, fun _ => .inl rfl⟩

theorem trans (h : Kept s σ g σ' g') (h' : Kept s σ' g' σ'' g'') : Kept s σ g σ'' g'' := by
  refine ⟨h.frame.trans h'.frame, h.grow.trans h'.grow, ?_⟩
  intro v
  rcases h'.pte v with hsame | hnew
  · rw [hsame]
    exact h.pte v
  · exact .inr hnew

/-- The address space stays in order. -/
theorem based (h : Kept s σ g σ' g') (hb : Based L g.sp) : Based L g'.sp where
  kern v hv := by
    rcases h.pte v with hsame | ⟨hlow, -⟩
    · rw [hsame]
      exact hb.kern v hv
    · omega
  hole v h1 h2 := by
    rcases h.pte v with hsame | ⟨hlow, -⟩
    · rw [hsame]
      exact hb.hole v h1 h2
    · omega
  high v hv := by
    rcases h.pte v with hsame | ⟨-, hhigh, -⟩
    · rw [hsame]
      exact hb.high v hv
    · omega
  clean v := by
    rcases h.pte v with hsame | ⟨-, -, hnew⟩
    · rw [hsame]
      exact hb.clean v
    · exact hnew

end Kept

theorem Kept.of_freed {lo hi : ℕ} (hf : Freed s lo hi σ g σ' g') (hlo : 0x40000 ≤ lo)
    (hhi : hi ≤ 0xFFC00) : Kept s σ g σ' g' := by
  refine ⟨hf.frame, hf.grow, ?_⟩
  intro v
  rw [hf.pte]
  split
  next hin => exact .inr ⟨by omega, by omega, .inl rfl⟩
  · exact .inl rfl

theorem Made.based {own : ℕ → Tag} (hm : Made L s σ F own σ' g') : Based L g'.sp where
  kern := hm.flags
  hole v h1 _ := hm.user v h1
  high v hv := hm.user v (by omega)
  clean v := by
    rcases Nat.lt_or_ge v 0x20000 with hlt | hge
    · exact .inr (hm.kern v hlt)
    · exact .inl (hm.user v hge)

/-! ## One page -/

/-- `mappages` on a user page that is mapped already. -/
theorem wp_mappages_present (h : Vm L s σ g) (hlt : v < 0xFFC00) (hp : present (g.sp.pte v))
    {Q : Int → Phys → Prop} : wp Panics (mappages g.sp.dir (4096 * v) PAGESIZE p flags) Q σ := by
  have hne := h.dir_ne
  have hlast : PGROUNDDOWN ((4096 * v + PAGESIZE + (2 ^ 32 - 1)) % 2 ^ 32) = 4096 * v :=
    PGROUNDDOWN_last (n := 1) (Nat.succ_pos v) (by omega)
  simp only [mappages, hne, PGROUNDDOWN_page, hlast, ↓reduceIte]
  refine wp_iterate (fun a σ' => a = (4096 * v, p) ∧ σ' = σ) (fun _ => 0) ?_ ⟨rfl, rfl⟩
    (by simp only [loopFuel]; omega)
  rintro _ _ ⟨rfl, rfl⟩
  simp only [le_refl, ↓reduceIte]
  refine wp_seq (wp_walk_alloc h (by omega)) ?_
  rintro r σ' ⟨g', h', hw⟩
  have hentry : g'.sp.entry v ≠ 0 := by
    apply h'.entry_ne_zero
    rwa [hw.pte]
  have hload := h'.load_entry hentry
  rw [hw.entry, if_neg hentry]
  simp only [load, wp_bind, wp_map, wp_get, bind_pure_comp, bind_map_left, hload, hw.pte, hp,
    ↓reduceIte, wp_throw]
  simp [Panics]

/-- `mappages` with a new page for any user page. -/
theorem wp_mapUser (h : Vm L s σ g) (hv : 0x40000 ≤ v) (hlt : v < 0xFFC00)
    (hown : g.own p = .user s v) (hflags : flags < 4096) :
    wp Panics (mappages g.sp.dir (4096 * v) PAGESIZE p flags)
      (fun r σ' => ∃ g', Vm L s σ' g' ∧ Kept s σ g σ' g' ∧ g'.own p = .user s v ∧
        (∀ w, present (g.sp.pte w) → present (g'.sp.pte w)) ∧
        (r = 0 ∧ present (g'.sp.pte v) ∨ r = -1 ∧ ¬ present (g'.sp.pte v))) σ := by
  by_cases hp : present (g.sp.pte v)
  · exact wp_mappages_present h hlt hp
  · have hpa := (h.heap.pages p (by simp [hown])).1
    refine wp_mono (wp_mapPage h hv (by omega) hown hflags hp) ?_
    rintro r σ' ⟨g', k, h', hm, hr⟩
    have hk : k ≤ 1 := by rcases hr with hr | hr <;> omega
    refine ⟨g', h', ⟨hm.frame, hm.grow, ?_⟩, ?_, ?_, ?_⟩
    · intro w
      rw [hm.pte]
      split
      next hin =>
        obtain rfl : w = v := by omega
        exact .inr ⟨hv, hlt, .inr (present_pte (by omega))⟩
      · exact .inl rfl
    · rw [hm.own p (by rw [hown]; simp), hown]
    · intro w hw
      rw [hm.pte]
      split
      · exact present_pte (by omega)
      · exact hw
    · rcases hr with ⟨rfl, rfl⟩ | ⟨rfl, rfl, -⟩
      · refine .inl ⟨rfl, ?_⟩
        rw [hm.pte, if_pos (by omega)]
        exact present_pte (by omega)
      · refine .inr ⟨rfl, ?_⟩
        rwa [hm.pte, if_neg (by omega)]

/-- A page that could not be mapped goes back. -/
theorem Vm.giveUnmapped (h : Vm L s σ g) (hown : g.own p = .user s v)
    (hun : ¬ present (g.sp.pte v)) :
    ∃ g', Vm L s (σ.give p) g' ∧ Kept s σ g (σ.give p) g' ∧ g'.sp = g.sp := by
  obtain ⟨h₁, hf₁⟩ := h.giveUser hown fun _ hp => absurd hp hun
  exact ⟨_, h₁, ⟨hf₁, .refl _, fun _ => .inl rfl⟩, rfl⟩

/-- A new page. -/
theorem Vm.takeKept (h : Vm L s σ g) (hF : g.free = p :: F) (v : ℕ) {m : Mem}
    (hm : ∀ x, page x ≠ p → m x = σ.mem x) :
    ∃ g', Vm L s { σ.take p with mem := m } g' ∧ Kept s σ g { σ.take p with mem := m } g' ∧
      g'.own p = .user s v ∧ g'.sp = g.sp ∧ IsPage L p := by
  obtain ⟨h₁, hf₁⟩ := h.takeUser hF v hm
  refine ⟨_, h₁, ⟨hf₁, .refl _, fun _ => .inl rfl⟩, by simp, rfl, ?_⟩
  exact h.heap.pages p (by rw [(h.heap.free p).mp (by simp [hF])]; simp)

/-! ## `allocuvm` and `ustack` -/

/-- **`allocuvm`** on any user range. -/
theorem wp_allocuvm_kept (h : Vm L s σ g) {old new : ℕ} (hold : KERNEND ≤ old) :
    wp Panics (allocuvm L g.sp.dir old new) (fun r σ' => ∃ g', Vm L s σ' g' ∧ Kept s σ g σ' g' ∧
      (r ≠ 0 → new < USEREND ∧ ∀ v, (old + 4095) / 4096 ≤ v → v < (new + 4095) / 4096 →
        present (g'.sp.pte v))) σ := by
  by_cases hhigh : USEREND ≤ new
  · simp only [allocuvm, hhigh, ↓reduceIte, wp_pure]
    exact ⟨g, h, .refl .., fun hr => absurd rfl hr⟩
  rw [Nat.not_le] at hhigh
  by_cases hlow : new < old
  · simp only [allocuvm, Nat.not_le.mpr hhigh, hlow, ↓reduceIte, wp_pure]
    exact ⟨g, h, .refl .., fun _ => ⟨hhigh, fun v h1 h2 => by omega⟩⟩
  rw [Nat.not_lt] at hlow
  have hhigh' := hhigh
  have hold' := hold
  simp only [USEREND] at hhigh'
  simp only [KERNEND] at hold'
  have hfirst : PGROUNDUP old = 4096 * ((old + 4095) / 4096) := PGROUNDUP_eq (by omega)
  simp only [allocuvm, Nat.not_le.mpr hhigh, Nat.not_lt.mpr hlow, hfirst, ↓reduceIte]
  generalize hlo : (old + 4095) / 4096 = lo at *
  refine wp_iterate (fun va σ' => ∃ g' k, lo ≤ k ∧ k ≤ (new + 4095) / 4096 ∧ va = 4096 * k ∧
    Vm L s σ' g' ∧ Kept s σ g σ' g' ∧ ∀ v, lo ≤ v → v < k → present (g'.sp.pte v))
    (fun va => 2 ^ 20 - va / 4096) ?_
    ⟨g, lo, le_refl _, by omega, rfl, h, .refl .., fun v h1 h2 => by omega⟩
    (by simp only [loopFuel]; omega)
  rintro _ σ' ⟨g', k, hk, hkhi, rfl, h', hkept, hpres⟩
  simp only [wp_ite]
  by_cases hcond : 4096 * k < new
  · rw [if_pos hcond]
    refine wp_bind.mpr (h'.heap.wp_kalloc (fun hnil => ?_) fun p F hF hp => ?_)
    · -- Nothing is free: the whole range is unmapped.
      rw [if_pos rfl, ← hkept.grow.dir]
      refine wp_seq (wp_deallocuvm h' hold (by omega) (by omega)) ?_
      rintro _ σ₁ ⟨-, g₁, h₁, hf⟩
      rw [wp_pure]
      exact ⟨g₁, h₁, hkept.trans (.of_freed hf (by omega) (by omega)), fun hr => absurd rfl hr⟩
    · have hpa := (h'.heap.pages p (by rw [(h'.heap.free p).mp (by simp [hF])]; simp)).1
      obtain ⟨g₁, h₁, hkept₁, hown, hsp, hpage⟩ :=
        h'.takeKept hF k (m := (σ'.newPage p).mem) fun x => newPage_mem hpa
      simp only [if_neg hp, memset, wp_bind, wp_modify]
      rw [← hkept.grow.dir, ← hsp]
      refine wp_mono (wp_mapUser h₁ (by omega) (by omega) hown (show 6 < 4096 by decide)) ?_
      rintro r σ₂ ⟨g₂, h₂, hkept₂, hown₂, hkeep, ⟨rfl, hv⟩ | ⟨rfl, hnone⟩⟩
      · have hnext := page_add_PAGESIZE (show k < 0xFFFFF by omega)
        rw [if_neg (by decide), wp_pure, hnext]
        refine ⟨⟨g₂, k + 1, by omega, by omega, rfl, h₂, (hkept.trans hkept₁).trans hkept₂, ?_⟩,
          by omega⟩
        intro w h1 h2
        rcases Nat.lt_or_ge w k with hlt | hge
        · apply hkeep
          rw [hsp]
          exact hpres w h1 hlt
        · obtain rfl : w = k := by omega
          exact hv
      · rw [if_pos (by decide), wp_bind, ← hkept₂.grow.dir]
        refine wp_mono (wp_deallocuvm h₂ hold (by omega) (by omega)) ?_
        rintro _ σ₃ ⟨-, g₃, h₃, hf⟩
        -- The page has not been mapped, so it is not among those that `deallocuvm` has freed.
        have hown₃ : g₃.own p = .user s k := by
          rw [hf.kept p, hown₂]
          intro w h1 _ hw hwp
          have := h₂.space.user w (by omega) hw
          rw [hwp, hown₂] at this
          cases this
          exact hnone hw
        have hnone₃ : ¬ present (g₃.sp.pte k) := by
          rw [hf.pte, if_neg fun hcon => hnone hcon.2.2]
          exact hnone
        obtain ⟨g₄, h₄, hkept₄, -⟩ := h₃.giveUnmapped hown₃ hnone₃
        refine wp_bind.mpr (Heap.wp_kfree hpage (wp_pure.mpr ⟨g₄, h₄, ?_, fun hr => absurd rfl hr⟩))
        exact (((hkept.trans hkept₁).trans hkept₂).trans
          (.of_freed hf (by omega) (by omega))).trans hkept₄
  · rw [if_neg hcond, wp_pure]
    refine ⟨g', h', hkept, fun _ => ⟨hhigh, ?_⟩⟩
    intro v h1 h2
    exact hpres v h1 (by omega)

/-- Without `PTE_U`, the entry of a page still stands for the page. -/
theorem clearUser_cases (e : ℕ) : PTE_ADDR (clearUser e) = PTE_ADDR e ∧
    present (clearUser e) = present e ∧ clearUser e ≤ e := by
  simp only [clearUser, PTE_ADDR, present]
  split
  next hu => exact ⟨by omega, by congr 1; simp only [eq_iff_iff]; omega, by omega⟩
  · exact ⟨rfl, rfl, le_refl _⟩

/-- **`ustack`** on any user range. -/
theorem wp_ustack_kept (h : Vm L s σ g) {start : ℕ} (hstart : KERNEND ≤ start)
    (hend : start ≤ USEREND) :
    wp Panics (ustack L g.sp.dir start) (fun _ σ' => ∃ g', Vm L s σ' g' ∧ Kept s σ g σ' g') σ := by
  have hva : PGROUNDUP start = 4096 * ((start + 4095) / 4096) := PGROUNDUP_eq hend
  simp only [KERNEND] at hstart
  simp only [USEREND] at hend
  simp only [ustack, hva]
  generalize hlo : (start + 4095) / 4096 = lo at *
  have hnew : (4096 * lo + 2 * PAGESIZE) % 2 ^ 32 = 4096 * lo + 8192 := by
    simp only [PAGESIZE]
    omega
  rw [hnew]
  refine wp_seq (wp_allocuvm_kept h (by simp only [KERNEND]; omega)) ?_
  rintro r σ' ⟨g', h', hkept, hpres⟩
  simp only [wp_ite]
  split
  · rw [wp_pure]
    exact ⟨g', h', hkept⟩
  next hr =>
    obtain ⟨hlt, hpres⟩ := hpres hr
    simp only [USEREND] at hlt
    have hp := hpres lo (by omega) (by omega)
    have hentry := h'.entry_ne_zero hp
    have hload := h'.load_entry hentry
    obtain ⟨haddr, hstill, hle⟩ := clearUser_cases (g'.sp.pte lo)
    rw [← hkept.grow.dir]
    refine wp_bind.mpr (wp_walk h' (by omega) ?_)
    simp only [load, store, wp_bind, wp_map, wp_get, bind_pure_comp, bind_map_left, wp_modify,
      hload]
    have hword : g'.sp.pte lo < 2 ^ 32 := by
      rw [← hload]
      exact Mem.load32_lt ..
    obtain ⟨h₁, hf₁⟩ := h'.setPte (v := lo) (e := clearUser (g'.sp.pte lo)) hentry
      ⟨by omega, fun hv _ => by rw [haddr]; exact h'.space.user lo hv hp, fun hv => by omega⟩
    refine ⟨_, h₁, hkept.trans ⟨hf₁, ⟨rfl, fun _ _ ht => ht⟩, ?_⟩⟩
    intro w
    simp only
    by_cases hw : w = lo
    · subst hw
      refine .inr ⟨by omega, by omega, .inr ?_⟩
      rw [Function.update_self, hstill]
      exact hp
    · exact .inl (Function.update_of_ne hw ..)

/-! ## `copyuvm` -/

/-- **`copyuvm`** of any size makes a new address space, or returns 0. -/
theorem wp_copyuvm_based (h : Heap L σ F own) (hsp : SpaceOk own t sp σ.mem)
    (hb : Based L sp) (hnew : ∀ q, ¬ (own q).of s) (hst : t ≠ s) (size : ℕ) :
    wp Panics (copyuvm L sp.dir size) (fun r σ' =>
      (r ≠ 0 ∧ ∃ g', r = g'.sp.dir ∧ Vm L s σ' g' ∧ Frame s σ own σ' g'.own ∧ Based L g'.sp) ∨
      (r = 0 ∧ ∃ F' own', Heap L σ' F' own' ∧ Frame s σ own σ' own')) σ := by
  have halign : ∀ p, own p ≠ .out → p % 4096 = 0 := fun p hp => (h.pages p hp).1
  refine wp_seq (wp_setupkvm h hnew) ?_
  rintro new σ₁ (⟨hne, g₁, rfl, hmade⟩ | ⟨rfl, -, F', own', hun⟩)
  · rw [if_neg hne]
    have hstop : (KERNEND + size) % 2 ^ 32 < 2 ^ 32 := Nat.mod_lt _ (by decide)
    generalize (KERNEND + size) % 2 ^ 32 = stop at *
    refine wp_iterate (fun va σ' => ∃ g' k, 0x40000 ≤ k ∧ k ≤ 0xFFC00 ∧ va = 4096 * k ∧
      Vm L s σ' g' ∧ g'.sp.dir = g₁.sp.dir ∧ Frame s σ own σ' g'.own ∧ Based L g'.sp)
      (fun va => 2 ^ 20 - va / 4096) ?_
      ⟨g₁, 0x40000, le_refl _, by omega, rfl, hmade.vm, rfl, hmade.frame, hmade.based⟩
      (by simp only [loopFuel]; omega)
    rintro _ σ' ⟨g', k, hk, hkle, rfl, h', hdir, hframe, hb'⟩
    -- The old address space is not touched.
    have hold : Vm L t σ' ⟨g'.free, g'.own, sp⟩ := ⟨h'.heap, hsp.frame hframe hst halign⟩
    have hfail : ∀ {σ₂ : Phys} {g₂ : Ghost}, Vm L s σ₂ g₂ → Frame s σ own σ₂ g₂.own →
        g₂.sp.dir = g₁.sp.dir → wp Panics (freevm L g₁.sp.dir) (fun _ σ₃ =>
          ∃ F' own', Heap L σ₃ F' own' ∧ Frame s σ own σ₃ own') σ₂ := by
      intro σ₂ g₂ h₂ hframe₂ hdir₂
      rw [← hdir₂]
      refine wp_mono (wp_freevm h₂) ?_
      rintro _ σ₃ ⟨F', own', ht⟩
      exact ⟨F', own', ht.heap, hframe₂.trans ht.frame⟩
    simp only [wp_ite]
    by_cases hcond : 4096 * k < stop
    · rw [if_pos hcond]
      refine wp_bind.mpr (wp_walk (v := k) hold (by omega) ?_)
      rcases Nat.eq_zero_or_pos (sp.entry k) with hentry | hentry
      · rw [if_pos hentry, wp_bind, wp_throw]
        simp [Panics]
      · have hload := hold.load_entry hentry.ne'
        simp only [hentry.ne', load, wp_bind, wp_map, wp_get, wp_ite, bind_pure_comp,
          bind_map_left, ↓reduceIte, hload]
        split
        next =>
          rw [wp_throw]
          simp [Panics]
        next hp =>
        rw [not_not] at hp
        have hlt : k < 0xFFC00 := by
          by_contra hcon
          rw [hb.high k (by omega)] at hp
          simp [present] at hp
        refine h'.heap.wp_kalloc (fun _ => ?_) fun p F' hF hp => ?_
        · rw [if_pos rfl]
          exact wp_mono (hfail h' hframe hdir) fun _ _ hend => .inr ⟨trivial, hend⟩
        · have hpa := (h'.heap.pages p (by rw [(h'.heap.free p).mp (by simp [hF])]; simp)).1
          have hmem : ∀ x, page x ≠ p →
              σ'.mem.movsb (PTE_ADDR (sp.pte k)) p 4096 x = σ'.mem x :=
            fun x => movsb_inside hpa (le_refl _)
          obtain ⟨g₂, h₂, hkept₂, hown₂, hsp₂, hpage⟩ := h'.takeKept hF k hmem
          rw [if_neg hp, memmove, wp_modify]
          have hdir₂ : g₂.sp.dir = g₁.sp.dir := hsp₂ ▸ hdir
          have hmap := wp_mapUser h₂ hk hlt hown₂ (Nat.mod_lt (sp.pte k) (show 0 < 4096 by decide))
          rw [hdir₂] at hmap
          refine wp_mono hmap ?_
          rintro r σ₃ ⟨g₃, h₃, hkept₃, hown₃, -, ⟨rfl, -⟩ | ⟨rfl, hnone⟩⟩
          · have hnext := page_add_PAGESIZE (show k < 0xFFFFF by omega)
            rw [if_neg (by decide), wp_pure, hnext]
            exact ⟨⟨g₃, k + 1, by omega, by omega, rfl, h₃, hkept₃.grow.dir.trans hdir₂,
              (hframe.trans hkept₂.frame).trans hkept₃.frame,
              hkept₃.based (hkept₂.based hb')⟩, by omega⟩
          · obtain ⟨g₄, h₄, hkept₄, hsp₄⟩ := h₃.giveUnmapped hown₃ hnone
            have hframe₄ := ((hframe.trans hkept₂.frame).trans hkept₃.frame).trans hkept₄.frame
            rw [if_pos (by decide)]
            refine Heap.wp_kfree hpage ?_
            refine wp_mono (hfail h₄ hframe₄ ?_) fun _ _ hend => .inr ⟨trivial, hend⟩
            rw [hsp₄, hkept₃.grow.dir, hdir₂]
    · rw [if_neg hcond, wp_pure]
      exact .inl ⟨hne, g', hdir.symm, h', hframe, hb'⟩
  · rw [if_pos rfl, wp_pure]
    exact .inr ⟨rfl, F', own', hun.heap, hun.frame⟩

/-! ## `copyout` and `loaduvm` -/

/-- Stores into a user page that is mapped. -/
theorem Vm.writePage (h : Vm L s σ g) (hv : 0x40000 ≤ v) (hp : present (g.sp.pte v)) {m : Mem}
    (hm : ∀ x, page x ≠ PTE_ADDR (g.sp.pte v) → m x = σ.mem x) :
    Vm L s { σ with mem := m } g ∧ Kept s σ g { σ with mem := m } g := by
  have hown := h.space.user v hv hp
  refine ⟨h.scribble fun x hx => hm x ?_, ⟨.write (by rw [hown]; rfl) hm, .refl _,
    fun _ => .inl rfl⟩⟩
  intro hpage
  rw [hpage, hown] at hx
  simp at hx

/-- Bytes that are written inside a page. -/
theorem write_inside {m : Mem} {a x : ℕ} {bs : List UInt8} (ha : p % 4096 = 0)
    (hlo : p ≤ a) (hhi : a + bs.length ≤ p + 4096) (hx : page x ≠ p) : m.write a bs x = m x := by
  simp only [page] at hx
  exact Mem.write_of_ne (by omega)

/-- **`copyout`** to any user range. -/
theorem wp_copyout_kept (h : Vm L s σ g) {va len : ℕ} {src : Option (ℕ → UInt8)}
    (hva : KERNEND ≤ va) (hend : va + len ≤ USEREND) :
    wp Panics (copyout g.sp.dir va src len)
      (fun _ σ' => Vm L s σ' g ∧ Kept s σ g σ' g) σ := by
  simp only [KERNEND] at hva
  simp only [USEREND] at hend
  refine wp_iterate (fun a σ' => 0x40000000 ≤ a.1 ∧ a.1 + a.2.2 ≤ 0xFFC00000 ∧
    Vm L s σ' g ∧ Kept s σ g σ' g)
    (fun a => turns a.1 a.2.2) ?_ ⟨hva, hend, h, .refl ..⟩ (turns_lt_loopFuel (hend.trans (by decide)))
  rintro ⟨va, done, len⟩ σ' ⟨hlo, hhi, h', hkept⟩
  simp only at hlo hhi
  simp only [wp_ite]
  by_cases hlen : 0 < len
  · rw [if_pos hlen, walkpgdir_page]
    refine wp_bind.mpr (wp_walk h' (by omega) ?_)
    rcases Nat.eq_zero_or_pos (g.sp.entry (va / 4096)) with hentry | hentry
    · rw [if_pos hentry, wp_bind, wp_throw]
      simp [Panics]
    · have hload := h'.load_entry hentry.ne'
      simp only [hentry.ne', load, wp_bind, wp_get, wp_ite, bind_pure_comp, bind_map_left,
        ↓reduceIte, hload]
      split
      next =>
        rw [wp_throw]
        simp [Panics]
      next hp =>
      rw [not_not] at hp
      have hpa := (h'.user_page (by omega) hp).1
      rw [sub_PGROUNDDOWN, chunk_eq]
      generalize hmin : min len (4096 - va % 4096) = n at *
      have hnext : (va + n) % 2 ^ 32 = va + n := by omega
      have hstep : ∀ m : Mem, (∀ x, page x ≠ PTE_ADDR (g.sp.pte (va / 4096)) → m x = σ'.mem x) →
          (0x40000000 ≤ va + n ∧ va + n + (len - n) ≤ 0xFFC00000 ∧
            Vm L s { σ' with mem := m } g ∧ Kept s σ g { σ' with mem := m } g) ∧
          turns (va + n) (len - n) < turns va len := by
        intro m hm
        obtain ⟨h₁, hkept₁⟩ := h'.writePage (by omega) hp hm
        exact ⟨⟨by omega, by omega, h₁, hkept.trans hkept₁⟩, turns_lt hlen hmin⟩
      rw [hnext]
      cases src with
      | some src =>
          simp only [wp_map, wp_modify]
          refine hstep _ fun x hx => write_inside hpa (Nat.le_add_right ..) ?_ hx
          rw [List.length_map, List.length_range]
          omega
      | none =>
          simp only [memset, wp_map, wp_modify]
          refine hstep _ fun x hx => Mem.fill_of_ne ?_
          simp only [page] at hx
          omega
  · rw [if_neg hlen, wp_pure]
    exact ⟨h', hkept⟩

/-- **`loaduvm`** into any user range. -/
theorem wp_loaduvm_kept (h : Vm L s σ g) (hb : Based L g.sp) {va offset size : ℕ} {ip : File}
    (hva : KERNEND ≤ va) (hend : va + size ≤ USEREND) :
    wp Panics (loaduvm g.sp.dir va ip offset size)
      (fun _ σ' => Vm L s σ' g ∧ Kept s σ g σ' g) σ := by
  simp only [KERNEND] at hva
  simp only [USEREND] at hend
  by_cases haligned : va % PAGESIZE ≠ 0
  · rw [loaduvm, if_pos haligned, wp_bind, wp_throw]
    simp [Panics]
  rw [loaduvm, if_neg haligned]
  rw [not_not] at haligned
  simp only [PAGESIZE] at haligned
  refine wp_iterate (fun i σ' => i % 4096 = 0 ∧ i ≤ 0xC0000000 ∧ Vm L s σ' g ∧ Kept s σ g σ' g)
    (fun i => 2 ^ 20 - i / 4096) ?_ ⟨rfl, by omega, h, .refl ..⟩ (by simp only [loopFuel]; omega)
  rintro i σ' ⟨hi, hle, h', hkept⟩
  by_cases hlt : i < size
  · rw [if_pos hlt]
    obtain ⟨v, hv⟩ : ∃ v, va + i = 4096 * v := ⟨(va + i) / 4096, by omega⟩
    rw [show (va + i) % 2 ^ 32 = 4096 * v by omega]
    refine wp_bind.mpr (wp_walk h' (by omega) ?_)
    rcases Nat.eq_zero_or_pos (g.sp.entry v) with hentry | hentry
    · rw [if_pos hentry, wp_bind, wp_throw]
      simp [Panics]
    · have hload := h'.load_entry hentry.ne'
      simp only [hentry.ne', load, wp_bind, wp_get, wp_ite, bind_pure_comp, bind_map_left,
        ↓reduceIte, hload]
      split
      next =>
        rw [wp_throw]
        simp [Panics]
      next hpa =>
      -- The entry is not 0, so it is present.
      have hp : present (g.sp.pte v) := by
        rcases hb.clean v with hzero | hp
        · rw [hzero] at hpa
          exact absurd rfl hpa
        · exact hp
      have halign := (h'.user_page (by omega) hp).1
      generalize hn : (if size - i < PAGESIZE then size - i else PAGESIZE) = n
      have hn' : n ≤ 4096 := by
        have hps : PAGESIZE = 4096 := rfl
        rw [← hn]
        split <;> omega
      split
      next =>
        rw [wp_pure]
        exact ⟨h', hkept⟩
      next bs hbs =>
        have hlen := ip.length_le hbs
        obtain ⟨h₁, hkept₁⟩ := h'.writePage (m := σ'.mem.write (PTE_ADDR (g.sp.pte v)) bs)
          (by omega) hp fun x hx => write_inside halign (le_refl _) (by omega) hx
        have hnext := add_PAGESIZE (show i + 4096 < 2 ^ 32 by omega)
        simp only [wp_bind, wp_modify, wp_ite, wp_pure, hnext]
        split
        next => exact ⟨h₁, hkept.trans hkept₁⟩
        next => exact ⟨⟨by omega, by omega, h₁, hkept.trans hkept₁⟩, by omega⟩
  · rw [if_neg hlt, wp_pure]
    exact ⟨h', hkept⟩

end Mixv6.Mm
