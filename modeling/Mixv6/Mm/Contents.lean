import Mixv6.Mm.Kept

/-!
# The bytes of an address space

What `allocuvm`, `copyout` and `loaduvm` do to the bytes that an address space has in its user
pages, where the pages of the range are mapped.  Two user pages never share a page of the
memory, so a store at one address is seen at no other.

## Main definitions

* `Space.Filled` — the user half has the pages up to some address.
* `Space.byte` — the byte at an address.
* `File.Holds` — `readi` delivers the bytes of a file.
* `Vm.byte_write` — stores into one page.
* `wp_copyout`, `wp_loaduvm` — the routines.
-/

namespace Mixv6.Mm

open Mixv6.Lib

variable {L : Layout} {s v a va len lo hi : ℕ} {σ σ' : Phys} {g g' : Ghost} {sp : Space}
  {E : Panic → Prop}

/-- The user half has the pages that begin below `top`, and no others. -/
def Space.Filled (sp : Space) (top : ℕ) : Prop :=
  ∀ v, 0x40000 ≤ v → (present (sp.pte v) ↔ 4096 * v < top)

/-- The address is in a user page that is mapped. -/
def Space.Has (sp : Space) (a : ℕ) : Prop := 0x40000 ≤ a / 4096 ∧ present (sp.pte (a / 4096))

/-- The byte at an address. -/
def Space.byte (sp : Space) (m : Mem) (a : ℕ) : UInt8 := m (PTE_ADDR (sp.pte (a / 4096)) + a % 4096)

/-- Where `readi` fills the buffer, it does so with the bytes `c` of the file. -/
def File.Holds (f : File) (c : ℕ → UInt8) : Prop :=
  ∀ {offset n : ℕ} {bs : List UInt8}, offset < 2 ^ 32 → n < 2 ^ 32 → f.readi offset n = some bs →
    bs.length = n → offset + n < 2 ^ 32 ∧ ∀ k < n, bs.getD k 0 = c (offset + k)

/-! ## Stores into one page -/

/-- Two user pages are two pages of the memory. -/
theorem Vm.user_inj (h : Vm L s σ g) {w : ℕ} (hv : 0x40000 ≤ v) (hp : present (g.sp.pte v))
    (hw : 0x40000 ≤ w) (hp' : present (g.sp.pte w))
    (heq : PTE_ADDR (g.sp.pte w) = PTE_ADDR (g.sp.pte v)) : w = v := by
  have hown := h.space.user v hv hp
  have hown' := h.space.user w hw hp'
  rw [heq, hown, Tag.user.injEq] at hown'
  exact hown'.2.symm

/-- Stores of `n` bytes at `o` in user page `v`. -/
theorem Vm.byte_write (h : Vm L s σ g) (hv : 0x40000 ≤ v) (hp : present (g.sp.pte v)) {o n : ℕ}
    (hfit : o + n ≤ 4096) {m : Mem} {f : ℕ → UInt8}
    (hin : ∀ k < n, m (PTE_ADDR (g.sp.pte v) + o + k) = f k)
    (hout : ∀ x, x < PTE_ADDR (g.sp.pte v) + o ∨ PTE_ADDR (g.sp.pte v) + o + n ≤ x → m x = σ.mem x)
    (ha : g.sp.Has a) : g.sp.byte m a =
      if 4096 * v + o ≤ a ∧ a < 4096 * v + o + n then f (a - (4096 * v + o)) else g.sp.byte σ.mem a := by
  have hpa := (h.user_page hv hp).1
  have hpb := (h.user_page ha.1 ha.2).1
  simp only [Space.byte]
  by_cases hav : a / 4096 = v
  · rw [hav]
    split
    next hrange =>
      rw [← hin _ (by omega : a - (4096 * v + o) < n), Nat.add_assoc,
        show o + (a - (4096 * v + o)) = a % 4096 by omega]
    next hrange => exact hout _ (by omega)
  · have hne : PTE_ADDR (g.sp.pte (a / 4096)) ≠ PTE_ADDR (g.sp.pte v) := by
      intro heq
      exact hav (h.user_inj hv hp ha.1 ha.2 heq)
    rw [if_neg (by omega)]
    exact hout _ (by omega)

/-! ## `allocuvm` -/

/-- The old pages keep their bytes. -/
theorem Grown.byte_old (hg : Grown s lo hi σ g σ' g') (h : Vm L s σ g) (ha : g.sp.Has a)
    (hlo : a / 4096 < lo) : g'.sp.byte σ'.mem a = g.sp.byte σ.mem a := by
  have hpa := (h.user_page ha.1 ha.2).1
  simp only [Space.byte]
  rw [hg.outside _ (.inl hlo)]
  apply hg.user _ (a / 4096)
  rw [page_add hpa (by omega)]
  exact h.space.user _ ha.1 ha.2

/-- The new pages are zero. -/
theorem Grown.byte_new (hg : Grown s lo hi σ g σ' g') (h' : Vm L s σ' g') (hlo : 0x40000 ≤ lo)
    (h1 : lo ≤ a / 4096) (h2 : a / 4096 < hi) : g'.sp.byte σ'.mem a = 0 := by
  have hpa := (h'.user_page (by omega) (hg.inside _ h1 h2).1).1
  apply hg.zero _ h1 h2
  exact page_add hpa (by omega)

/-- New pages between `KERNEND` and `USEREND`. -/
theorem Grown.kept (hg : Grown s lo hi σ g σ' g') (hlo : 0x40000 ≤ lo) (hhi : hi ≤ 0xFFC00) :
    Kept s σ g σ' g' := by
  refine ⟨hg.frame, hg.grow, ?_⟩
  intro v
  by_cases hv : lo ≤ v ∧ v < hi
  · exact .inr ⟨by omega, by omega, .inr (hg.inside v hv.1 hv.2).1⟩
  · exact .inl (hg.outside v (by omega))

theorem Grown.filled {old new : ℕ}
    (hg : Grown s ((old + 4095) / 4096) ((new + 4095) / 4096) σ g σ' g') (hf : g.sp.Filled old)
    (hle : old ≤ new) : g'.sp.Filled new := by
  intro v hv
  by_cases hin : (old + 4095) / 4096 ≤ v ∧ v < (new + 4095) / 4096
  · exact iff_of_true (hg.inside v hin.1 hin.2).1 (by omega)
  · rw [hg.outside v (by omega), hf v hv]
    omega

theorem Stacked.filled {start : ℕ} (hst : Stacked s ((start + 4095) / 4096) σ g σ' g')
    (hf : g.sp.Filled start) : g'.sp.Filled (4096 * ((start + 4095) / 4096) + 8192) := by
  intro v hv
  by_cases hguard : v = (start + 4095) / 4096
  · subst hguard
    exact iff_of_true hst.guard.1 (by omega)
  · by_cases hstack : v = (start + 4095) / 4096 + 1
    · subst hstack
      exact iff_of_true hst.stack.1 (by omega)
    · rw [hst.outside v (by omega), hf v hv]
      omega

theorem Made.filled {F : List ℕ} {own : ℕ → Tag} (hm : Made L s σ F own σ' g') :
    g'.sp.Filled KERNEND := by
  intro v hv
  rw [hm.user v (by omega)]
  refine iff_of_false (by simp [present]) ?_
  simp only [KERNEND]
  omega

/-! ## Stores into a range -/

/-- The first `n` bytes of the range at `va` are now those of `val`. -/
structure Written (L : Layout) (s va : ℕ) (val : ℕ → UInt8) (n : ℕ) (σ : Phys) (g : Ghost)
    (σ' : Phys) : Prop where
  vm : Vm L s σ' g
  kept : Kept s σ g σ' g
  byte : ∀ a, g.sp.Has a → g.sp.byte σ'.mem a =
    if va ≤ a ∧ a < va + n then val (a - va) else g.sp.byte σ.mem a

namespace Written

theorem refl (h : Vm L s σ g) (val : ℕ → UInt8) : Written L s va val 0 σ g σ :=
  ⟨h, .refl .., fun a _ => (if_neg (by omega)).symm⟩

/-- Only the bytes that have been written count. -/
theorem congr {val val' : ℕ → UInt8} {n : ℕ} (hw : Written L s va val n σ g σ')
    (hval : ∀ k < n, val' k = val k) : Written L s va val' n σ g σ' := by
  refine ⟨hw.vm, hw.kept, ?_⟩
  intro a ha
  rw [hw.byte a ha]
  split
  next hin => rw [hval _ (by omega)]
  next => rfl

/-- The next `n` bytes lie in one page. -/
theorem step {val : ℕ → UInt8} {k n : ℕ} (hw : Written L s va val k σ g σ')
    (hv : 0x40000 ≤ (va + k) / 4096) (hp : present (g.sp.pte ((va + k) / 4096)))
    (hfit : (va + k) % 4096 + n ≤ 4096) {m : Mem}
    (hin : ∀ j < n, m (PTE_ADDR (g.sp.pte ((va + k) / 4096)) + (va + k) % 4096 + j) = val (k + j))
    (hout : ∀ x, x < PTE_ADDR (g.sp.pte ((va + k) / 4096)) + (va + k) % 4096 ∨
      PTE_ADDR (g.sp.pte ((va + k) / 4096)) + (va + k) % 4096 + n ≤ x → m x = σ'.mem x) :
    Written L s va val (k + n) σ g { σ' with mem := m } := by
  have hpa := (hw.vm.user_page hv hp).1
  obtain ⟨h₁, hkept₁⟩ := hw.vm.writePage (m := m) hv hp fun x hx => hout x (by
    simp only [page] at hx
    omega)
  refine ⟨h₁, hw.kept.trans hkept₁, ?_⟩
  intro a ha
  rw [hw.vm.byte_write hv hp hfit hin hout ha, hw.byte a ha]
  have hstart : 4096 * ((va + k) / 4096) + (va + k) % 4096 = va + k := by omega
  rw [hstart]
  by_cases hnew : va + k ≤ a ∧ a < va + k + n
  · rw [if_pos hnew, if_pos (by omega), show k + (a - (va + k)) = a - va by omega]
  · rw [if_neg hnew]
    exact if_congr (by omega) rfl rfl

end Written

/-! ## `copyout` -/

/-- The byte that `copyout` writes: one from `src`, or zero. -/
def outByte (src : Option (ℕ → UInt8)) (k : ℕ) : UInt8 := src.elim 0 fun src => src k

/-- **`copyout`** to pages that are mapped. -/
theorem wp_copyout (h : Vm L s σ g) {src : Option (ℕ → UInt8)} (hva : KERNEND ≤ va)
    (hend : va + len ≤ USEREND)
    (hp : ∀ v, va / 4096 ≤ v → 4096 * v < va + len → present (g.sp.pte v)) :
    wp E (copyout g.sp.dir va src len) (fun _ => Written L s va (outByte src) len σ g) σ := by
  simp only [KERNEND] at hva
  simp only [USEREND] at hend
  -- `done` bytes have been written.
  refine wp_iterate (fun b σ' => b.1 = va + b.2.1 ∧ b.2.1 + b.2.2 = len ∧
    Written L s va (outByte src) b.2.1 σ g σ')
    (fun b => turns b.1 b.2.2) ?_
    ⟨rfl, Nat.zero_add _, .refl h _⟩ (turns_lt_loopFuel (hend.trans (by decide)))
  rintro ⟨at', done, rest⟩ σ' ⟨hat, hlen, hw⟩
  simp only at hat hlen hw
  subst hat
  simp only [wp_ite]
  by_cases hrest : 0 < rest
  · rw [if_pos hrest]
    have hpage := hp ((va + done) / 4096) (by omega) (by omega)
    have hentry := hw.vm.entry_ne_zero hpage
    rw [walkpgdir_page]
    apply wp_bind.mpr (wp_walk hw.vm (by omega) _)
    simp only [hentry, load, wp_bind, wp_get, wp_ite, bind_pure_comp, bind_map_left, ↓reduceIte,
      hw.vm.load_entry hentry, hpage, not_true_eq_false]
    rw [sub_PGROUNDDOWN, chunk_eq]
    generalize hmin : min rest (4096 - (va + done) % 4096) = n at *
    have hless := turns_lt hrest hmin
    rw [Nat.add_assoc] at hless
    rw [show (va + done + n) % 2 ^ 32 = va + (done + n) by omega]
    cases src with
    | some src =>
        simp only [wp_map, wp_modify]
        refine ⟨⟨trivial, by omega, hw.step (by omega) hpage (by omega) ?_ ?_⟩, hless⟩
        · intro k hk
          rw [Mem.write_of_mem (by simpa using hk)]
          simp [outByte]
        · intro x hx
          apply Mem.write_of_ne
          rwa [List.length_map, List.length_range]
    | none =>
        simp only [memset, wp_map, wp_modify]
        refine ⟨⟨trivial, by omega, hw.step (by omega) hpage (by omega) ?_ ?_⟩, hless⟩
        · intro k hk
          exact Mem.fill_of_mem (by omega)
        · intro x hx
          exact Mem.fill_of_ne hx
  · rw [if_neg hrest, wp_pure]
    obtain rfl : done = len := by omega
    exact hw

/-! ## `loaduvm` -/

/-- The first `n` bytes that `loaduvm` writes at `va` are those of the file from `offset` on. -/
def LoadedTo (L : Layout) (s va : ℕ) (ip : File) (offset n : ℕ) (σ : Phys) (g : Ghost) (σ' : Phys) :
    Prop :=
  ∃ val, Written L s va val n σ g σ' ∧
    ∀ c, ip.Holds c → ∀ k < n, val k = c (offset + k)

/-- The file ends before a block that `loaduvm` reads. -/
def File.Short (ip : File) (offset size : ℕ) : Prop :=
  ∃ i < size, ∀ bs, ip.readi ((offset + i) % 2 ^ 32) (min (size - i) 4096) = some bs →
    bs.length ≠ min (size - i) 4096

/-- **`loaduvm`** into pages that are mapped. -/
theorem wp_loaduvm (h : Vm L s σ g) {ip : File} {offset size : ℕ} (haligned : va % 4096 = 0)
    (hva : KERNEND ≤ va) (hend : va + size ≤ USEREND) (hoffset : offset < 2 ^ 32)
    (hp : ∀ v, va / 4096 ≤ v → 4096 * v < va + size → present (g.sp.pte v)) :
    wp E (loaduvm g.sp.dir va ip offset size) (fun r σ' =>
      r = 0 ∧ LoadedTo L s va ip offset size σ g σ' ∨
      r = -1 ∧ ip.Short offset size ∧ Vm L s σ' g ∧ Kept s σ g σ' g) σ := by
  simp only [KERNEND] at hva
  simp only [USEREND] at hend
  have haligned' : va % PAGESIZE = 0 := haligned
  simp only [loaduvm, haligned', ne_eq, not_true_eq_false, ↓reduceIte]
  -- All blocks before the last one fill their pages, so the offsets have not wrapped.
  refine wp_iterate (fun i σ' => i % 4096 = 0 ∧ i ≤ 0xC0000000 ∧ (i < size → ∀ c, ip.Holds c →
      offset + i < 2 ^ 32) ∧ LoadedTo L s va ip offset (min i size) σ g σ')
    (fun i => 2 ^ 20 - i / 4096) ?_
    ⟨rfl, by omega, fun _ _ _ => hoffset, fun _ => 0, .refl h _, fun _ _ k hk => by omega⟩
    (by simp only [loopFuel]; omega)
  rintro i σ' ⟨hi, hle, hwrap, val, hw, hval⟩
  by_cases hlt : i < size
  · rw [if_pos hlt]
    rw [min_eq_left hlt.le] at hw hval
    obtain ⟨v, hv⟩ : ∃ v, va + i = 4096 * v := ⟨(va + i) / 4096, by omega⟩
    have hpage := hp v (by omega) (by omega)
    have hentry := hw.vm.entry_ne_zero hpage
    have hpa := hw.vm.user_page (by omega) hpage
    have hne : PTE_ADDR (g.sp.pte v) ≠ 0 := by
      have := hpa.pos
      omega
    rw [show (va + i) % 2 ^ 32 = 4096 * v by omega]
    apply wp_bind.mpr (wp_walk hw.vm (by omega) _)
    simp only [hentry, load, wp_bind, wp_get, wp_ite, bind_pure_comp, bind_map_left, ↓reduceIte,
      hw.vm.load_entry hentry, hne]
    generalize hn : (if size - i < PAGESIZE then size - i else PAGESIZE) = n
    replace hn : n = min (size - i) 4096 := by
      have hps : PAGESIZE = 4096 := rfl
      rw [← hn]
      split <;> omega
    split
    next hnone =>
      rw [wp_pure]
      refine .inr ⟨rfl, ⟨i, hlt, fun bs hbs => ?_⟩, hw.vm, hw.kept⟩
      rw [← hn, hnone] at hbs
      cases hbs
    next bs hbs =>
      have hlen := ip.length_le hbs
      -- The bytes before this block, and those of the block.
      have hold : Written L s va (fun k => if k < i then val k else bs.getD (k - i) 0) i σ g σ' :=
        hw.congr fun k hk => if_pos hk
      have hplace : (va + i) / 4096 = v ∧ (va + i) % 4096 = 0 := by omega
      have hnew := hold.step (m := σ'.mem.write (PTE_ADDR (g.sp.pte v)) bs) (n := bs.length)
        (by omega) (by rwa [hplace.1]) (by omega) ?_ ?_
      · simp only [wp_bind, wp_modify, wp_ite, wp_pure]
        split
        next hshort =>
          refine .inr ⟨trivial, ⟨i, hlt, fun bs' hbs' => ?_⟩, hnew.vm, hnew.kept⟩
          rw [← hn, hbs] at hbs'
          rwa [← hn, ← Option.some.inj hbs']
        next hfull =>
          rw [not_not] at hfull
          have hnext := add_PAGESIZE (show i + 4096 < 2 ^ 32 by omega)
          rw [hnext]
          have hread : ∀ c, ip.Holds c → offset + i + n < 2 ^ 32 ∧
              ∀ k < n, bs.getD k 0 = c (offset + i + k) := by
            intro c hc
            have hoff := hwrap hlt c hc
            rw [Nat.mod_eq_of_lt hoff] at hbs
            exact hc hoff (by omega) hbs hfull
          have hmin : min (i + 4096) size = i + bs.length := by omega
          refine ⟨⟨by omega, by omega, ?_, _, hmin ▸ hnew, ?_⟩, by omega⟩
          · intro hmore c hc
            have hfit := (hread c hc).1
            have hfull : n = 4096 := by omega
            rwa [hfull, Nat.add_assoc] at hfit
          · intro c hc k hk
            rw [hmin] at hk
            rcases Nat.lt_or_ge k i with hold' | hnew'
            · rw [if_pos hold']
              exact hval c hc k hold'
            · rw [if_neg (Nat.not_lt.mpr hnew'), (hread c hc).2 _ (by omega),
                show offset + i + (k - i) = offset + k by omega]
      · intro j hj
        rw [hplace.1, hplace.2, Nat.add_zero, Mem.write_of_mem hj, if_neg (by omega),
          Nat.add_sub_cancel_left]
        simp [hj]
      · intro x hx
        rw [hplace.1, hplace.2, Nat.add_zero] at hx
        exact Mem.write_of_ne hx
  · rw [min_eq_right (Nat.not_lt.mp hlt)] at hw hval
    rw [if_neg hlt, wp_pure]
    exact .inl ⟨rfl, val, hw, hval⟩

end Mixv6.Mm
