import Mixv6.Mm.Resize

/-!
# The range that `copyout` writes

`copyout` to a range of any directory whose pages are present, wherever the range begins and ends.
The bytes of the buffer are read as the pages are written, so the buffer has to lie elsewhere.

## Main definitions

* `copyLoop`, `copyoutFrom` — the loop, and `copyout` with a buffer in the memory.
* `Destination` — the range can be written.
* `CopiedOut`, `copyout_writes` — what has been written.
* `copyoutFrom_eq` — the bytes of the buffer may as well be read before the call.
-/

namespace Mixv6.Mm

open Mixv6.Lib

/-- The loop of `copyout`; `move a done n` puts the next `n` bytes at `a`. -/
def copyLoop (pgdir va : ℕ) (move : ℕ → ℕ → ℕ → Kern Unit) (len : ℕ) : Kern Unit :=
  iterate .hang (fun (va, done, len) => do
    if 0 < len then
      let pte ← walkpgdir pgdir va false
      if pte = 0 then throw .copyout
      let e ← load pte
      if ¬ present e then throw .copyout
      let offset := va - PGROUNDDOWN va
      let n := if len < PAGESIZE - offset then len else PAGESIZE - offset
      move (PTE_ADDR e + offset) done n
      return .inl ((va + n) % 2 ^ 32, done + n, len - n)
    else return .inr ()) loopFuel (va, 0, len)

/-- `copyout` from a buffer in the memory: `src k` is the place of its byte `k`. -/
def copyoutFrom (pgdir va : ℕ) (src : Option (ℕ → ℕ)) (len : ℕ) : Kern Unit :=
  copyLoop pgdir va (fun a done n => match src with
    | some src => modify fun s =>
        { s with mem := s.mem.write a ((List.range n).map fun k => s.mem (src (done + k))) }
    | none => memset a 0 n) len

/-- The pages of the range are present, two of them have two frames, and the frames hold no page
table. -/
structure Destination (σ : Phys) (d va len : ℕ) : Prop where
  dir : d ≠ 0
  aligned : d % PAGESIZE = 0
  tables : ∀ i < 1024, present (World.pdeAt σ d i) → PTE_ADDR (World.pdeAt σ d i) ≠ 0
  start : va < 2 ^ 32
  bound : va + len ≤ 2 ^ 32
  present : ∀ k < len, ∃ p, translate σ d (va + k) = some p
  distinct : ∀ j k p q, j < len → k < len → translate σ d (va + j) = some p →
    translate σ d (va + k) = some q → (va + j) / PAGESIZE ≠ (va + k) / PAGESIZE → page p ≠ page q
  apart : ∀ k p, k < len → translate σ d (va + k) = some p → ¬ IsTable σ d (page p)

/-- The first `n` bytes of the range are those of `val`, and no other byte has changed. -/
structure CopiedOut (d va : ℕ) (val : ℕ → UInt8) (n : ℕ) (σ σ' : Phys) : Prop where
  byte : ∀ k p, k < n → translate σ d (va + k) = some p → σ'.mem p = val k
  other : ∀ p, (∀ k < n, translate σ d (va + k) ≠ some p) → σ'.mem p = σ.mem p
  coremap : σ'.coremap = σ.coremap
  handed : σ'.handed = σ.handed

variable {σ σ' : Phys} {d va len n k : ℕ} {val : ℕ → UInt8} {E : Panic → Prop}

/-- An address that is translated has a page table, with an entry that is present. -/
theorem translate_eq_some {p : ℕ} (hva : va < 2 ^ 32) : translate σ d va = some p ↔
    present (World.pdeAt σ d (va / 4096 / 1024)) ∧ present (World.pteAt σ d (va / 4096)) ∧
      p = PTE_ADDR (World.pteAt σ d (va / 4096)) + va % 4096 := by
  have hpdx := PDX_div hva
  simp only [translate, entryOf, hpdx, PAGESIZE]
  split
  next hpde =>
    simp only [Option.bind_some, hpde, true_and]
    split
    next hpte => simp [hpte, eq_comm]
    next hpte => simp [hpte]
  next hpde => simp [hpde]

namespace Destination

/-- The bytes of a page lie one after another. -/
theorem translate_add (h : Destination σ d va len) {p j : ℕ} (hk : k + j < len)
    (hpage : (va + k) % 4096 + j < 4096) (hp : translate σ d (va + k) = some p) :
    translate σ d (va + (k + j)) = some (p + j) := by
  have hbound := h.bound
  rw [translate_eq_some (by omega)] at hp ⊢
  obtain ⟨hpde, hpte, rfl⟩ := hp
  rw [show (va + (k + j)) / 4096 = (va + k) / 4096 by omega]
  exact ⟨hpde, hpte, by omega⟩

/-- Two bytes of the range have two places. -/
theorem inj (h : Destination σ d va len) {j p : ℕ} (hj : j < len) (hk : k < len)
    (hpj : translate σ d (va + j) = some p) (hpk : translate σ d (va + k) = some p) : j = k := by
  have hbound := h.bound
  by_cases hpage : (va + j) / PAGESIZE = (va + k) / PAGESIZE
  · simp only [PAGESIZE] at hpage
    rw [translate_eq_some (by omega)] at hpj hpk
    obtain ⟨-, -, hj'⟩ := hpj
    obtain ⟨-, -, hk'⟩ := hpk
    rw [hj', hpage] at hk'
    omega
  · exact absurd rfl (h.distinct j k p p hj hk hpj hpk hpage)

/-- The directory and the page tables stay as they are. -/
theorem table_mem (h : Destination σ d va len) (hc : CopiedOut d va val n σ σ') (hn : n ≤ len) {x : ℕ}
    (hx : IsTable σ d (page x)) : σ'.mem x = σ.mem x := by
  apply hc.other
  intro k hk hp
  exact h.apart k x (by omega) hp hx

theorem pdeAt (h : Destination σ d va len) (hc : CopiedOut d va val n σ σ') (hn : n ≤ len) {i : ℕ}
    (hi : i < 1024) : World.pdeAt σ' d i = World.pdeAt σ d i := by
  have halign := h.aligned
  simp only [PAGESIZE] at halign
  refine load32_page (p := d) (fun x hx => h.table_mem hc hn (hx ▸ .inl rfl)) ?_ (by omega)
  exact page_add halign (by omega)

theorem pteAt (h : Destination σ d va len) (hc : CopiedOut d va val n σ σ') (hn : n ≤ len) {v : ℕ}
    (hv : v < 0x100000) (hp : Mm.present (World.pdeAt σ d (v / 1024))) :
    World.pteAt σ' d v = World.pteAt σ d v := by
  rw [World.pteAt, World.pteAt, h.pdeAt hc hn (by omega)]
  have halign := PTE_ADDR_mod (World.pdeAt σ d (v / 1024))
  refine load32_page (p := PTE_ADDR (World.pdeAt σ d (v / 1024))) (fun x hx => ?_) ?_ (by omega)
  · exact h.table_mem hc hn (hx ▸ .inr ⟨v / 1024, by omega, hp, rfl⟩)
  · exact page_add halign (by omega)

/-- No entry of a page table changes. -/
theorem entryOf (h : Destination σ d va len) (hc : CopiedOut d va val n σ σ') (hn : n ≤ len) {a : ℕ}
    (ha : a < 2 ^ 32) : Mm.entryOf σ' d a = Mm.entryOf σ d a := by
  have hpdx := PDX_div ha
  simp only [Mm.entryOf, hpdx, PAGESIZE, h.pdeAt hc hn (show a / 4096 / 1024 < 1024 by omega)]
  split
  next hp => rw [h.pteAt hc hn (by omega) hp]
  next => rfl

end Destination

/-- Nothing has been written. -/
theorem CopiedOut.refl (σ : Phys) (d va : ℕ) (val : ℕ → UInt8) : CopiedOut d va val 0 σ σ :=
  ⟨fun k _ hk => absurd hk (Nat.not_lt_zero k), fun _ _ => rfl, rfl, rfl⟩

/-- The next bytes, in one page. -/
theorem CopiedOut.step (hc : CopiedOut d va val k σ σ') (h : Destination σ d va len) {p : ℕ} {m : Mem}
    (hn : k + n ≤ len) (hpage : (va + k) % 4096 + n ≤ 4096)
    (hp : translate σ d (va + k) = some p) (hin : ∀ j < n, m (p + j) = val (k + j))
    (hout : ∀ x, x < p ∨ p + n ≤ x → m x = σ'.mem x) :
    CopiedOut d va val (k + n) σ { σ' with mem := m } := by
  have hplace : ∀ j < n, translate σ d (va + (k + j)) = some (p + j) := fun j hj =>
    h.translate_add (by omega) (by omega) hp
  refine ⟨fun j q hj hq => ?_, fun x hx => ?_, hc.coremap, hc.handed⟩
  · rcases Nat.lt_or_ge j k with hold | hnew
    · simp only
      rw [hout, hc.byte j q hold hq]
      by_contra hcon
      have hsame := h.inj (show j < len by omega) (show k + (q - p) < len by omega) hq
        (by rw [hplace _ (by omega), show p + (q - p) = q by omega])
      omega
    · have hq' := hplace (j - k) (by omega)
      rw [show k + (j - k) = j by omega, hq] at hq'
      cases hq'
      simp only
      rw [hin _ (by omega), show k + (j - k) = j by omega]
  · simp only
    rw [hout, hc.other x fun j hj => hx j (by omega)]
    by_contra hcon
    have hxp := hplace (x - p) (by omega)
    rw [show p + (x - p) = x by omega] at hxp
    exact hx _ (by omega) hxp

/-- `walkpgdir` where there is a page table. -/
theorem wp_walk_present {a : ℕ} {Q : ℕ → Phys → Prop} (hd : d ≠ 0)
    (hp : present (World.pdeAt σ d (PDX a))) :
    wp E (walkpgdir d a false) Q σ ↔ Q (PTE_ADDR (World.pdeAt σ d (PDX a)) + 4 * PTX a) σ := by
  have hp' : present (σ.mem.load32 (d + 4 * PDX a)) := hp
  simp [walkpgdir, hd, load, hp', World.pdeAt]

/-- **The loop** of `copyout` writes the range, when `move` writes the bytes of `val`. -/
theorem wp_copyLoop (h : Destination σ d va len) {move : ℕ → ℕ → ℕ → Kern Unit}
    (hmove : ∀ σ' a done n, CopiedOut d va val done σ σ' → done + n ≤ len →
      wp E (move a done n) (fun _ t => ∃ m, t = { σ' with mem := m } ∧
        (∀ j < n, m (a + j) = val (done + j)) ∧ ∀ x, x < a ∨ a + n ≤ x → m x = σ'.mem x) σ') :
    wp E (copyLoop d va move len) (fun _ σ' => CopiedOut d va val len σ σ') σ := by
  have hbound := h.bound
  refine wp_iterate (fun b σ' => b.1 = (va + b.2.1) % 2 ^ 32 ∧ b.2.1 + b.2.2 = len ∧
    CopiedOut d va val b.2.1 σ σ')
    (fun b => turns b.1 b.2.2) ?_
    ⟨(Nat.mod_eq_of_lt h.start).symm, Nat.zero_add _, .refl ..⟩ (turns_lt_loopFuel hbound)
  rintro ⟨at', done, rest⟩ σ' ⟨hat, hlen, hc⟩
  simp only at hat hlen hc
  simp only [wp_ite]
  split
  next hrest =>
    obtain rfl : at' = va + done := by omega
    obtain ⟨p, hp⟩ := h.present done (by omega)
    obtain ⟨hpde, hpte, hplace⟩ := (translate_eq_some (by omega)).mp hp
    have hpdx := PDX_div (show va + done < 2 ^ 32 by omega)
    have hptx : PTX (va + done) = (va + done) / 4096 % 1024 := rfl
    have hpde' := h.pdeAt hc (by omega) (show (va + done) / 4096 / 1024 < 1024 by omega)
    have hpte' := h.pteAt hc (by omega) (show (va + done) / 4096 < 0x100000 by omega) hpde
    have htable := h.tables _ (by omega) hpde
    have hload : σ'.mem.load32 (PTE_ADDR (World.pdeAt σ d ((va + done) / 4096 / 1024)) +
        4 * ((va + done) / 4096 % 1024)) = World.pteAt σ d ((va + done) / 4096) := by
      rw [← hpte', World.pteAt, hpde']
    rw [wp_bind, wp_walk_present h.dir (by rw [hpdx, hpde']; exact hpde), hpdx, hptx, hpde']
    have hentry : PTE_ADDR (World.pdeAt σ d ((va + done) / 4096 / 1024)) +
        4 * ((va + done) / 4096 % 1024) ≠ 0 := by omega
    simp only [hentry, load, wp_bind, wp_get, wp_ite, bind_pure_comp, bind_map_left, ↓reduceIte,
      hload, hpte, not_true_eq_false, sub_PGROUNDDOWN, chunk_eq, ← hplace]
    generalize hmin : min rest (4096 - (va + done) % 4096) = n at *
    have hless := turns_mod_lt hrest (by omega) hmin
    rw [wp_map]
    apply wp_mono (hmove σ' p done n hc (by omega))
    rintro _ _ ⟨m, rfl, hin, hout⟩
    simp only
    exact ⟨⟨by rw [Nat.add_assoc], by omega, hc.step h (by omega) (by omega) hp hin hout⟩, hless⟩
  next hrest =>
    rw [wp_pure]
    obtain rfl : done = len := by omega
    exact hc

/-- The byte that `copyoutFrom` writes. -/
def fromByte (σ : Phys) (src : Option (ℕ → ℕ)) (k : ℕ) : UInt8 := src.elim 0 fun src => σ.mem (src k)

/-- The buffer is disjoint from the places that are written. -/
def Disjoint (σ : Phys) (d va len : ℕ) (src : Option (ℕ → ℕ)) : Prop :=
  ∀ f ∈ src, ∀ k < len, ∀ j < len, translate σ d (va + j) ≠ some (f k)

theorem wp_copyoutFrom (h : Destination σ d va len) {src : Option (ℕ → ℕ)}
    (hsrc : Disjoint σ d va len src) :
    wp E (copyoutFrom d va src len) (fun _ σ' => CopiedOut d va (fromByte σ src) len σ σ') σ := by
  apply wp_copyLoop h
  intro σ' a done n hc hle
  cases src with
  | some f =>
      rw [wp_modify]
      refine ⟨_, rfl, fun j hj => ?_, fun x hx => ?_⟩
      · rw [Mem.write_of_mem (by simpa using hj)]
        simp only [List.getElem_map, List.getElem_range]
        exact hc.other _ fun k hk => hsrc f rfl _ (by omega) k (by omega)
      · apply Mem.write_of_ne
        rwa [List.length_map, List.length_range]
  | none =>
      rw [memset, wp_modify]
      exact ⟨_, rfl, fun j hj => Mem.fill_of_mem (by omega), fun x hx => Mem.fill_of_ne hx⟩

/-- **`copyout`** to a range whose pages are present ends.  Then the range reads as the buffer, or as
zeros; and no other byte of the memory and no entry of a page table has changed. -/
theorem copyout_writes (h : Destination σ d va len) {src : Option (ℕ → ℕ)}
    (hsrc : Disjoint σ d va len src) :
    ∃ σ', copyoutFrom d va src len σ = .ok ((), σ') ∧
      (∀ k < len, ∃ p, translate σ' d (va + k) = some p ∧ σ'.mem p = fromByte σ src k) ∧
      (∀ p, (∀ k < len, translate σ d (va + k) ≠ some p) → σ'.mem p = σ.mem p) ∧
      (∀ a < 2 ^ 32, entryOf σ' d a = entryOf σ d a) ∧
      σ'.coremap = σ.coremap ∧ σ'.handed = σ.handed := by
  have hbound := h.bound
  obtain ⟨_, σ', hrun, hc⟩ := wp_total.mp (wp_copyoutFrom h hsrc)
  refine ⟨σ', hrun, fun k hk => ?_, hc.other, fun a ha => h.entryOf hc (le_refl _) ha, hc.coremap,
    hc.handed⟩
  obtain ⟨p, hp⟩ := h.present k hk
  refine ⟨p, ?_, hc.byte k p hk hp⟩
  rw [translate, h.entryOf hc (le_refl _) (by omega)]
  exact hp

/-- A directory with one page table and two pages, whose frames are not in order, and four bytes at
`0x4000`. -/
def twoPages : Phys :=
  ⟨(((Mem.store32 (fun _ => 0) 0x4000 0x04030201).store32 0x1400 0x2007).store32 0x2000 0x5007).store32
    0x2004 0x3007, 0, []⟩

theorem pdeAt_twoPages {i : ℕ} (hi : i < 1024) :
    World.pdeAt twoPages 0x1000 i = if i = 256 then 0x2007 else 0 := by
  simp only [World.pdeAt, twoPages]
  rw [Mem.load32_store32_of_ne (by omega), Mem.load32_store32_of_ne (by omega)]
  split
  next h256 =>
    subst h256
    exact Mem.load32_store32 (by decide)
  next hne =>
    rw [Mem.load32_store32_of_ne (by omega), Mem.load32_store32_of_ne (by omega)]
    rfl

theorem translate_twoPages {k : ℕ} (hk : k < 4) : translate twoPages 0x1000 (KERNEND + 4094 + k) =
    some (if k < 2 then 0x5FFE + k else 0x2FFE + k) := by
  have hpde : World.pdeAt twoPages 0x1000 256 = 0x2007 := pdeAt_twoPages (by decide)
  have hlow : World.pteAt twoPages 0x1000 0x40000 = 0x5007 := by
    simp only [World.pteAt, Nat.reduceDiv, twoPages]
    rw [Mem.load32_store32_of_ne (by decide)]
    exact Mem.load32_store32 (by decide)
  have hhigh : World.pteAt twoPages 0x1000 0x40001 = 0x3007 := by
    simp only [World.pteAt, Nat.reduceDiv, hpde]
    exact Mem.load32_store32 (by decide)
  rw [translate_eq_some (by simp only [KERNEND]; omega)]
  have hdir : (KERNEND + 4094 + k) / 4096 / 1024 = 256 := by simp only [KERNEND]; omega
  rw [hdir, hpde]
  split
  next hk' =>
    rw [show (KERNEND + 4094 + k) / 4096 = 0x40000 by simp only [KERNEND]; omega, hlow]
    exact ⟨by decide, by decide, by simp only [PTE_ADDR, KERNEND]; omega⟩
  next hk' =>
    rw [show (KERNEND + 4094 + k) / 4096 = 0x40001 by simp only [KERNEND]; omega, hhigh]
    exact ⟨by decide, by decide, by simp only [PTE_ADDR, KERNEND]; omega⟩

theorem destination_twoPages : Destination twoPages 0x1000 (KERNEND + 4094) 4 := by
  have hp := @translate_twoPages
  have htab : ∀ i < 1024, present (World.pdeAt twoPages 0x1000 i) →
      PTE_ADDR (World.pdeAt twoPages 0x1000 i) = 0x2000 := by
    intro i hi hpde
    rw [pdeAt_twoPages hi] at hpde ⊢
    split
    next => rfl
    next hne => simp [hne, present] at hpde
  have hpage : ∀ k p, k < 4 → translate twoPages 0x1000 (KERNEND + 4094 + k) = some p →
      page p = if k < 2 then 0x5000 else 0x3000 := by
    intro k p hk hpk
    rw [hp hk] at hpk
    cases hpk
    simp only [page]
    split <;> omega
  constructor
  · decide
  · decide
  · intro i hi hpde
    rw [htab i hi hpde]
    decide
  · decide
  · decide
  · exact fun k hk => ⟨_, hp hk⟩
  · intro j k p q hj hk hpj hpk hne heq
    rw [hpage j p hj hpj, hpage k q hk hpk] at heq
    simp only [KERNEND, PAGESIZE] at hne
    split at heq <;> split at heq <;> omega
  · rintro k p hk hpk (heq | ⟨i, hi, hpde, heq⟩)
    · rw [hpage k p hk hpk] at heq
      split at heq <;> omega
    · rw [hpage k p hk hpk, htab i hi hpde] at heq
      split at heq <;> omega

/-- Four bytes, two on each side of a page border. -/
theorem copyout_writes_twoPages : ∃ σ',
    copyoutFrom 0x1000 (KERNEND + 4094) (some fun k => 0x4000 + k) 4 twoPages = .ok ((), σ') ∧
      ∀ k < 4, ∃ p, translate σ' 0x1000 (KERNEND + 4094 + k) = some p ∧ (σ'.mem p).toNat = k + 1 := by
  have hsrc : Disjoint twoPages 0x1000 (KERNEND + 4094) 4 (some fun k => 0x4000 + k) := by
    rintro f hf k hk j hj hcon
    rw [translate_twoPages hj] at hcon
    cases hf
    simp only [Option.some.injEq] at hcon
    split at hcon <;> omega
  have hfrom : ∀ k < 4, (fromByte twoPages (some fun k => 0x4000 + k) k).toNat = k + 1 := by decide
  obtain ⟨σ', hrun, hbytes, -⟩ := copyout_writes destination_twoPages hsrc
  refine ⟨σ', hrun, fun k hk => ?_⟩
  obtain ⟨p, hp, hbyte⟩ := hbytes k hk
  exact ⟨p, hp, hbyte ▸ hfrom k hk⟩

/-! ## Bytes that are read before the call -/

theorem copyout_eq (pgdir va : ℕ) (src : Option (ℕ → UInt8)) (len : ℕ) :
    copyout pgdir va src len = copyLoop pgdir va (fun a done n => match src with
      | some src => modify fun s =>
          { s with mem := s.mem.write a ((List.range n).map fun k => src (done + k)) }
      | none => memset a 0 n) len := by
  cases src <;> rfl

theorem wp_copyout_bytes (h : Destination σ d va len) (src : ℕ → UInt8) :
    wp E (copyout d va (some src) len) (fun _ σ' => CopiedOut d va src len σ σ') σ := by
  rw [copyout_eq]
  apply wp_copyLoop h
  intro σ' a done n _ _
  rw [wp_modify]
  refine ⟨_, rfl, fun j hj => ?_, fun x hx => ?_⟩
  · rw [Mem.write_of_mem (by simpa using hj)]
    simp
  · apply Mem.write_of_ne
    rwa [List.length_map, List.length_range]

/-- There is one memory with these bytes. -/
theorem CopiedOut.unique {σ₁ σ₂ : Phys} (h₁ : CopiedOut d va val n σ σ₁)
    (h₂ : CopiedOut d va val n σ σ₂) : σ₁ = σ₂ := by
  have hmem : σ₁.mem = σ₂.mem := by
    funext x
    by_cases hx : ∃ k < n, translate σ d (va + k) = some x
    · obtain ⟨k, hk, hx⟩ := hx
      rw [h₁.byte k x hk hx, h₂.byte k x hk hx]
    · have hno : ∀ k < n, translate σ d (va + k) ≠ some x := fun k hk hcon => hx ⟨k, hk, hcon⟩
      rw [h₁.other x hno, h₂.other x hno]
  cases σ₁
  cases σ₂
  have hcoremap := h₁.coremap.trans h₂.coremap.symm
  have hhanded := h₁.handed.trans h₂.handed.symm
  simp only at hmem hcoremap hhanded
  rw [hmem, hcoremap, hhanded]

/-- A buffer that lies elsewhere may be read before the call. -/
theorem copyoutFrom_eq (h : Destination σ d va len) {src : ℕ → ℕ}
    (hsrc : Disjoint σ d va len (some src)) :
    copyoutFrom d va (some src) len σ = copyout d va (some fun k => σ.mem (src k)) len σ := by
  obtain ⟨_, σ₁, hrun₁, h₁⟩ := wp_total.mp (wp_copyoutFrom h hsrc)
  obtain ⟨_, σ₂, hrun₂, h₂⟩ := wp_total.mp (wp_copyout_bytes h fun k => σ.mem (src k))
  rw [hrun₁, hrun₂, CopiedOut.unique h₁ h₂]

end Mixv6.Mm
