import Mixv6.Mm.Owners

/-!
# Exclusive ownership of physical pages

In every state of the system a page has at most one role, so `kalloc` cannot return a page
that is in use, and none of the panics that a shared page would lead to can happen.
-/

namespace Mixv6.Mm

open Mixv6.Lib

variable {L : Layout} {w w₀ : World}

/-- A page with a role is under the control of the allocator. -/
theorem Owned.isPage (h : Owned L w) {p : ℕ} {r : World.Role} (hr : w.HasRole p r) : IsPage L p := by
  obtain ⟨F, own, sp, hI⟩ := h
  refine hI.heap.pages p ?_
  rw [hI.own_of_role hr]
  cases r <;> simp [World.Role.tag]

/-- Two processes hold different address spaces. -/
theorem Owned.once (h : Owned L w) {i j s : ℕ} {q q' : Proc} (hi : w.proc i = some q)
    (hj : w.proc j = some q') (hs : q.space = some s) (hs' : q'.space = some s) : i = j := by
  obtain ⟨F, own, sp, hI⟩ := h
  exact hI.once i j q q' s hi hj hs hs'

/-- The page that `kalloc` returns next is the first one of the free list. -/
theorem hasRole_coremap (w : World) (h : w.phys.coremap ≠ 0) :
    w.HasRole w.phys.coremap (.node 0) := by
  refine ⟨rfl, fun k hk => ?_⟩
  obtain rfl : k = 0 := by omega
  exact h

/-- **Exclusive ownership.**  In every state reached from `kinit` by calls as their callers
make them: a page has at most one role, and only pages between the end of the kernel and the
end of the memory have one; the page that `kalloc` returns next has no role but that of the
first free page; two processes share no user page; and no call stops in a panic of `kfree`,
`mappages` or `deallocuvm`, or fails to end. -/
theorem exclusive_ownership {m : Mem} (h0 : boot L m = .ok w₀)
    (h : (vmMachine L).Path (World.Allowed L) w₀ w) :
    (∀ p r r', w.HasRole p r → w.HasRole p r' → r = r' ∧ IsPage L p) ∧
      (w.phys.coremap ≠ 0 → ∀ r, w.HasRole w.phys.coremap r → r = .node 0) ∧
      (∀ i j q q' s s' p v v', w.proc i = some q → w.proc j = some q' → q.space = some s →
        q'.space = some s' → w.HasRole p (.user s v) → w.HasRole p (.user s' v') → i = j) ∧
      ∀ op, w.Allowed L op → ∀ e, w.exec L op = .error e → e = .copyuvmPte ∨ e = .copyuvmPage := by
  have hO := owned_of_path h0 h
  have hunique : ∀ p r r', w.HasRole p r → w.HasRole p r' → r = r' := by
    obtain ⟨F, own, sp, hI⟩ := hO
    exact fun p r r' => hI.role_unique
  refine ⟨fun p r r' hr hr' => ⟨hunique p r r' hr hr', hO.isPage hr⟩, fun hne r hr => ?_,
    fun i j q q' s s' p v v' hi hj hs hs' hr hr' => ?_, fun op hop e he => ?_⟩
  · exact hunique _ _ _ hr (hasRole_coremap w hne)
  · cases hunique _ _ _ hr hr'
    exact hO.once hi hj hs hs'
  · have hout := hO.exec hop
    rw [he] at hout
    exact outcome_error.mp hout

/-- A kernel with 4096 pages between its end and the end of the memory. -/
def smallLayout : Layout where
  rodata_end := 0x101000
  kernel_end := 0x1F000000
  rodata_aligned := rfl
  kernel_aligned := rfl
  ext_le := by decide
  rodata_le := by decide
  kernel_le := by decide

/-- A call that ends is a step. -/
theorem vm_step {op : Op} {w' : World} (h : (vmMachine L).Path (World.Allowed L) w₀ w)
    (hop : w.Allowed L op) (he : w.exec L op = .ok w') :
    (vmMachine L).Path (World.Allowed L) w₀ w' :=
  h.snoc op hop (by simp [vmMachine, he, Except.toOption])

section
variable {F : List ℕ} {own : ℕ → Tag} {σ : Phys} {s : ℕ}

/-- Where enough pages are free, `setupkvm` and `allocuvm` give an address space with `size` bytes. -/
theorem Heap.exists_image (h : Heap L σ F own) (hnew : ∀ q, ¬ (own q).of s) (size : ℕ)
    (hsize : KERNEND + size < USEREND) (hroom : copyPages size ≤ F.length) :
    ∃ d σ₁ σ₂ g, setupkvm L σ = .ok (d, σ₁) ∧ d ≠ 0 ∧ d = g.sp.dir ∧
      allocuvm L d KERNEND (KERNEND + size) σ₁ = .ok (KERNEND + size, σ₂) ∧ Vm L s σ₂ g ∧
      Frame s σ own σ₂ g.own ∧ g.free.length + copyPages size = F.length ∧
      ∀ v, 0x40000 ≤ v → 4096 * v < KERNEND + size → present (g.sp.pte v) ∧ PTE_FLAGS (g.sp.pte v) = 7 := by
  have hlo : (KERNEND + 4095) / 4096 = 0x40000 := rfl
  have hhi : (KERNEND + size + 4095) / 4096 = 0x40000 + (size + 4095) / 4096 := by
    simp only [KERNEND]
    omega
  obtain ⟨d, σ₁, hmake, hr⟩ := wp_total.mp (wp_setupkvm h hnew)
  rcases hr with ⟨hne, g₁, rfl, hmade⟩ | ⟨-, hfew, -⟩
  · have hcount := hmade.count
    have hdemand := hmade.demand ((size + 4095) / 4096)
    simp only [copyPages] at hroom ⊢
    have habsent : ∀ v, 0x40000 ≤ v → ¬ present (g₁.sp.pte v) := by
      intro v hv
      simp [hmade.user v (by omega), present]
    obtain ⟨_, σ₂, hrun, rfl, g, hvm, hg⟩ := wp_total.mp (wp_allocuvm_room hmade.vm (le_refl _)
      (Nat.le_add_right KERNEND size) hsize (fun v hv _ => habsent v hv) (by rw [hlo, hhi]; omega))
    rw [hlo, hhi] at hg
    have hlength := (hg.drawn hvm).length_eq (by simp only [KERNEND, USEREND] at hsize; omega)
    refine ⟨_, σ₁, σ₂, g, hmake, hne, hg.grow.dir.symm, hrun, hvm, hmade.frame.trans hg.frame, by omega,
      fun v hv hlt => hg.inside v hv ?_⟩
    simp only [KERNEND] at hlt
    omega
  · simp only [copyPages] at hroom
    omega

/-- Where many pages are free, `setupkvm` and `allocuvm` give an address space with one user page. -/
theorem Heap.exists_onePage (h : Heap L σ F own) (hnew : ∀ q, ¬ (own q).of s)
    (hroom : kvmPages + 2 ≤ F.length) :
    ∃ d σ₁ σ₂ g, setupkvm L σ = .ok (d, σ₁) ∧ d ≠ 0 ∧ d = g.sp.dir ∧
      allocuvm L d KERNEND (KERNEND + 1) σ₁ = .ok (KERNEND + 1, σ₂) ∧ Vm L s σ₂ g ∧
      present (g.sp.pte 0x40000) ∧ PTE_FLAGS (g.sp.pte 0x40000) = 7 := by
  obtain ⟨d, σ₁, σ₂, g, hmake, hne, hd, hrun, hvm, -, -, hin⟩ := h.exists_image hnew 1 (by decide) hroom
  exact ⟨d, σ₁, σ₂, g, hmake, hne, hd, hrun, hvm, hin 0x40000 (le_refl _) (by decide)⟩

end

namespace World
variable {d r s new : ℕ} {σ : Phys} {im : Image}

theorem exec_setupkvm (hmake : Mm.setupkvm L w.phys = .ok (d, σ)) (hd : d ≠ 0) :
    ∃ w', w.exec L .setupkvm = .ok w' ∧ w'.phys = σ ∧ w'.space w.next = some ⟨d, KERNEND, true⟩ := by
  refine ⟨{ w with phys := σ }.add d KERNEND true, ?_, rfl, ?_⟩
  · rw [exec, call, hmake]
    rfl
  · exact (add_space_self { w with phys := σ } d KERNEND true).trans (if_neg hd)

theorem exec_allocuvm (him : w.space s = some im)
    (hrun : Mm.allocuvm L im.pgdir im.top new w.phys = .ok (r, σ)) (hr : r ≠ 0) :
    ∃ w', w.exec L (.allocuvm s new) = .ok w' ∧ w'.phys = σ ∧ w'.space s = some ⟨im.pgdir, r, false⟩ := by
  refine ⟨{ w with phys := σ }.note s (some ⟨im.pgdir, r, false⟩), ?_, rfl, note_space_self ..⟩
  simp only [exec, on, him, call, hrun, bind, Except.bind, if_neg hr, pure, Except.pure]

end World

/-- A process, an address space and its first user page on the small machine. -/
theorem exclusive_ownership_small : ∃ w₀ w₁ w₂ w₃ p, boot smallLayout (fun _ => 0) = .ok w₀ ∧
    w₀.exec smallLayout (.palloc 0) = .ok w₁ ∧ w₁.exec smallLayout .setupkvm = .ok w₂ ∧
    w₂.exec smallLayout (.allocuvm 0 (KERNEND + 1)) = .ok w₃ ∧ w₃.HasRole p (.user 0 0x40000) ∧
    IsPage smallLayout p ∧ ∀ r, w₃.HasRole p r → r = .user 0 0x40000 := by
  obtain ⟨w₀, F, h0, hI, -, hproc, hnext, -, hlen⟩ := exists_boot smallLayout fun _ => 0
  replace hlen : F.length = 4096 := hlen
  obtain ⟨w₁, h1, ⟨F₁, own₁, sp₁, hI₁, hlen₁⟩, -, hnext₁⟩ := (hI.palloc_room (hproc 0)).ok
  rw [hnext] at hnext₁
  obtain ⟨d, σ₁, σ₂, g, hmake, hne, rfl, hgrow, hvm, hp, -⟩ :=
    hI₁.heap.exists_onePage (hI₁.next 0 (by omega)).2 (by simp only [kvmPages]; omega)
  obtain ⟨w₂, h2, rfl, him₂⟩ := World.exec_setupkvm hmake hne
  rw [hnext₁] at him₂
  obtain ⟨w₃, h3, rfl, him₃⟩ := World.exec_allocuvm him₂ hgrow (Nat.succ_ne_zero KERNEND)
  have hop₁ : w₀.Allowed smallLayout (.palloc 0) := hproc 0
  have hop₂ : w₁.Allowed smallLayout .setupkvm := trivial
  have hop₃ : w₂.Allowed smallLayout (.allocuvm 0 (KERNEND + 1)) := trivial
  have hpath := vm_step (vm_step (vm_step .refl hop₁ h1) hop₂ h2) hop₃ h3
  obtain ⟨t, ht⟩ := hvm.tab_of_present hp
  have hpde : present (World.pdeAt w₃.phys g.sp.dir 256) := by
    rw [hvm.present_pdeAt (by decide), ht]
    rfl
  have hpte : World.pteAt w₃.phys g.sp.dir 0x40000 = g.sp.pte 0x40000 := hvm.pteAt (by decide) hpde
  have hrole : w₃.HasRole (PTE_ADDR (g.sp.pte 0x40000)) (.user 0 0x40000) := by
    refine ⟨_, him₃, le_refl _, by decide, ?_, ?_, ?_⟩
    · exact hpde
    · rw [hpte]
      exact hp
    · rw [hpte]
  have hunique := fun r => (exclusive_ownership h0 hpath).1 _ _ r hrole
  exact ⟨w₀, w₁, w₂, w₃, _, h0, h1, h2, h3, hrole, (hunique _ hrole).2, fun r hr => (hunique r hr).1.symm⟩

end Mixv6.Mm
