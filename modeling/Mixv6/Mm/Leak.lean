import Mixv6.Mm.Exclusive

/-!
# Pages that do not come back

`freevm` frees the page tables from directory entry 256 on, but the kernel half of an address
space has page tables as well: those of the entries from 0 on, which `setupkvm` makes.  They
are lost with every address space that is torn down, whole or half built.

## Main definitions

* `World.IsFree`, `World.PartOf` — free pages, and the pages of an address space.
* `teardown_restores_iff` — when the pages come back.
-/

namespace Mixv6.Mm

open Mixv6.Lib

namespace World

/-- The page is on the free list. -/
def IsFree (w : World) (p : ℕ) : Prop := ∃ n, w.HasRole p (.node n)

/-- The page is the directory, a page table or a user page of address space `s`. -/
def PartOf (w : World) (s p : ℕ) : Prop := ∃ r, w.HasRole p r ∧ r.tag.of s

/-- At most one page is free. -/
def AlmostFull (w : World) : Prop := ∀ p q, w.IsFree p → w.IsFree q → p = q

/-- The same pages are free. -/
def SameFree (w w' : World) : Prop := ∀ p, w'.IsFree p ↔ w.IsFree p

end World

variable {L : Layout} {w w' w₀ : World} {F F' : List ℕ} {own own' : ℕ → Tag} {sp : ℕ → Space}
  {s p : ℕ} {im : Image}

/-- The pages of the list are its nodes. -/
theorem Chain.freeNode_of_lt {m : Mem} {head n : ℕ} (h : Chain m head F) (hn : n < F.length) :
    World.freeNode m head n = F[n] ∧ ∀ k ≤ n, World.freeNode m head k ≠ 0 := by
  induction F generalizing head n with
  | nil => simp at hn
  | cons p F ih =>
      obtain ⟨rfl, hne, hF⟩ := h
      cases n with
      | zero =>
          refine ⟨rfl, fun k hk => ?_⟩
          obtain rfl : k = 0 := by omega
          exact hne
      | succ n =>
          obtain ⟨h1, h2⟩ := ih hF (Nat.lt_of_succ_lt_succ hn)
          refine ⟨h1, fun k hk => ?_⟩
          cases k with
          | zero => exact hne
          | succ k => exact h2 k (by omega)

/-- A page is free when the record of owners says so. -/
theorem Heap.isFree_iff (h : Heap L w.phys F own) : w.IsFree p ↔ own p = .free := by
  rw [← h.free p]
  constructor
  · rintro ⟨n, rfl, hn⟩
    exact List.mem_of_getElem? (h.chain.freeNode hn)
  · intro hp
    obtain ⟨n, hlt, rfl⟩ := List.mem_iff_getElem.mp hp
    obtain ⟨h1, h2⟩ := h.chain.freeNode_of_lt hlt
    exact ⟨n, h1.symm, h2⟩

/-- At most one page is free when the free list has at most one page. -/
theorem Heap.almostFull_iff (h : Heap L w.phys F own) : w.AlmostFull ↔ F.length ≤ 1 := by
  have hmem : ∀ p, w.IsFree p ↔ p ∈ F := fun p => by rw [h.isFree_iff, h.free]
  simp only [World.AlmostFull, hmem]
  constructor
  · intro hall
    match F, h.nodup, hall with
    | [], _, _ => simp
    | [_], _, _ => simp
    | a :: b :: F, hnd, hall =>
        have hab := hall a b (by simp) (by simp)
        subst hab
        simp at hnd
  · intro hlen p q hp hq
    match F, hlen, hp, hq with
    | [a], _, hp, hq => rw [List.mem_singleton.mp hp, List.mem_singleton.mp hq]

/-- The pages that a failed attempt leaves behind. -/
theorem Unmade.sameFree_iff {σ' : Phys} (h : Heap L w.phys F own)
    (hun : Unmade L s w.phys F own σ' F' own') (hσ : w'.phys = σ') :
    w.SameFree w' ↔ w.AlmostFull := by
  have hheap' : Heap L w'.phys F' own' := by
    rw [hσ]
    exact hun.heap
  rw [h.almostFull_iff]
  simp only [World.SameFree, hheap'.isFree_iff, h.isFree_iff]
  constructor
  · intro hall
    by_contra hlen
    obtain ⟨p, hp, hp'⟩ := hun.lost (by omega)
    have := (hall p).mpr hp
    rw [hp'] at this
    cases this
  · intro hlen p
    rw [hun.restored hlen]

namespace OwnedBy

/-- Every address space has a page table behind entry 0 of its directory. -/
theorem exists_table (hI : OwnedBy L w F own sp) (him : w.space s = some im) :
    ∃ t, w.HasRole t (.table s 0) := by
  obtain ⟨t, ht⟩ := (hI.image s im him).first
  have hta := ((hI.vm him).tab_page ht).1
  have hpde := hI.pdeAt him (i := 0) (by decide)
  rw [ht, Option.elim_some] at hpde
  refine ⟨t, im, him, by decide, ?_, ?_⟩
  · rw [hpde]
    exact present_table hta
  · rw [hpde]
    exact (PTE_ADDR_table hta).symm

/-- A page table of the kernel half is not freed with its address space. -/
theorem table_not_freed (hI : OwnedBy L w F own sp) (him : w.space s = some im) {i t : ℕ}
    (hi : i < 256) (ht : w.HasRole t (.table s i)) {σ' : Phys}
    (htorn : Torn L s w.phys ⟨F, own, sp s⟩ σ' F' own') : own' t = .table s i := by
  have hown : own t = .table s i := hI.own_of_role ht
  have hsp := (hI.image s im him).space
  have htab : (sp s).tab i = some t := (hsp.tab i t).mp hown
  refine (htorn.kept t (hsp.tab_ne_dir htab) (fun j hj hjt => ?_) fun v hv _ hp hvt => ?_).trans hown
  · have := hsp.tab_inj htab hjt
    omega
  · have huser : own t = .user s v := hvt ▸ hsp.user v hv hp
    rw [hown] at huser
    cases huser

/-- What `freevm` of an address space has done to the record of owners. -/
theorem freevm_torn (hI : OwnedBy L w F own sp) (him : w.space s = some im)
    (he : w.exec L (.freevm s) = .ok w') :
    ∃ F' own', Torn L s w.phys ⟨F, own, sp s⟩ w'.phys F' own' := by
  have hout : Outcome (fun _ => False)
      (fun w' => ∃ F' own', Torn L s w.phys ⟨F, own, sp s⟩ w'.phys F' own')
      (w.exec L (.freevm s)) := by
    simp only [World.exec, World.on, him]
    rw [← (hI.image s im him).dir]
    exact outcome_call (wp_freevm (hI.vm him)) fun _ _ h => h
  rw [he] at hout
  exact outcome_ok.mp hout

/-- With enough free pages `setupkvm` makes an address space. -/
theorem exists_setupkvm (hI : OwnedBy L w F own sp) (hlen : kvmPages ≤ F.length) :
    ∃ w' im, w.exec L .setupkvm = .ok w' ∧ w'.space w.next = some im ∧ w'.proc = w.proc := by
  have hout : Outcome (fun _ => False)
      (fun w' => ∃ im, w'.space w.next = some im ∧ w'.proc = w.proc) (w.exec L .setupkvm) := by
    simp only [World.exec]
    refine outcome_call (wp_setupkvm hI.heap (hI.next w.next (le_refl _)).2) ?_
    rintro r σ (⟨hne, -⟩ | ⟨-, hfew, -⟩)
    · refine ⟨⟨r, KERNEND, true⟩, ?_, rfl⟩
      rw [World.add_space_self { w with phys := σ }, if_neg hne]
    · omega
  obtain ⟨w', he, im, him, hproc⟩ := hout.ok
  exact ⟨w', im, he, him, hproc⟩

/-- An address space that nobody holds can be freed. -/
theorem exists_freevm (hI : OwnedBy L w F own sp) (hloose : w.Loose s) :
    ∃ w', w.exec L (.freevm s) = .ok w' := by
  obtain ⟨w', he, -⟩ := (hI.freevm hloose).ok
  exact ⟨w', he⟩

end OwnedBy

/-- An address space is built and torn down on the small machine. -/
theorem exists_lifetime : ∃ w₀ w₁ w₂ im, boot smallLayout (fun _ => 0) = .ok w₀ ∧
    w₀.exec smallLayout .setupkvm = .ok w₁ ∧ w₁.space 0 = some im ∧
    w₁.exec smallLayout (.freevm 0) = .ok w₂ := by
  obtain ⟨w₀, F, h0, hI, -, hproc, hnext, -, hlen⟩ := exists_boot smallLayout fun _ => 0
  obtain ⟨w₁, im, h1, him, hproc₁⟩ := hI.exists_setupkvm (by rw [hlen]; decide)
  obtain ⟨w₁', h1', F₁, own₁, sp₁, hI₁⟩ := hI.setupkvm.ok
  obtain rfl : w₁' = w₁ := by simpa using h1'.symm.trans h1
  obtain ⟨w₂, h2⟩ := hI₁.exists_freevm (s := 0) fun i p hp => by simp [hproc₁, hproc] at hp
  exact ⟨w₀, w₁', w₂, im, h0, h1, hnext ▸ him, h2⟩

/-- **Teardown.**  In every state of the system: the pages of an address space never all come
back when it is torn down, and a fork whose child is torn down never leaves the same pages
free; a `setupkvm` or `copyuvm` that returns 0 leaves the same pages free exactly when at
most one page was free. -/
theorem teardown_restores_iff {m : Mem} (h0 : boot L m = .ok w₀)
    (h : (vmMachine L).Path (World.Allowed L) w₀ w) :
    (∀ s im w', w.space s = some im → w.exec L (.freevm s) = .ok w' →
        ¬ ∀ p, w.PartOf s p → w'.IsFree p) ∧
      (∀ w', w.exec L .setupkvm = .ok w' → w'.space w.next = none →
        (w.SameFree w' ↔ w.AlmostFull)) ∧
      (∀ s im w', w.space s = some im → w.exec L (.copyuvm s) = .ok w' →
        w'.space w.next = none → (w.SameFree w' ↔ w.AlmostFull)) ∧
      ∀ s im im' w' w'', w.space s = some im → w.exec L (.copyuvm s) = .ok w' →
        w'.space w.next = some im' → w'.exec L (.freevm w.next) = .ok w'' → ¬ w.SameFree w'' := by
  obtain ⟨F, own, sp, hI⟩ := owned_of_path h0 h
  have hadded : ∀ {op w'}, Outcome Halts (Added L w F own) (w.exec L op) →
      w.exec L op = .ok w' → Added L w F own w' := by
    intro op w' hout he
    rw [he] at hout
    exact outcome_ok.mp hout
  refine ⟨fun s im w' him he hall => ?_, fun w' he hnone => ?_, fun s im w' him he hnone => ?_,
    fun s im im' w' w'' him he him' he' hsame => ?_⟩
  · obtain ⟨t, ht⟩ := hI.exists_table him
    obtain ⟨F', own', htorn⟩ := hI.freevm_torn him he
    have hfree := htorn.heap.isFree_iff.mp (hall t ⟨_, ht, rfl⟩)
    rw [hI.table_not_freed him (by decide) ht htorn] at hfree
    cases hfree
  · obtain ⟨F', own', sp', -, -, hun⟩ := hadded hI.setupkvm_added he
    exact (hun hnone).sameFree_iff hI.heap rfl
  · obtain ⟨F', own', sp', -, -, hun⟩ := hadded (hI.copyuvm_added him) he
    exact (hun hnone).sameFree_iff hI.heap rfl
  · obtain ⟨F', own', sp', hI', hf, -⟩ := hadded (hI.copyuvm_added him) he
    obtain ⟨t, ht⟩ := hI'.exists_table him'
    obtain ⟨F'', own'', htorn⟩ := hI'.freevm_torn him' he'
    -- The first page table of the child was free, and is not free again.
    have hold : own t = .free :=
      hf.free_of (hI.next w.next (le_refl _)).2 (by rw [hI'.own_of_role ht]; rfl)
    have hfree := htorn.heap.isFree_iff.mp ((hsame t).mpr (hI.heap.isFree_iff.mpr hold))
    rw [hI'.table_not_freed him' (by decide) ht htorn] at hfree
    cases hfree

theorem teardown_restores_iff_small : ∃ w₀ w₁ w₂ im, boot smallLayout (fun _ => 0) = .ok w₀ ∧
    w₀.exec smallLayout .setupkvm = .ok w₁ ∧ w₁.space 0 = some im ∧
    w₁.exec smallLayout (.freevm 0) = .ok w₂ ∧ ¬ ∀ p, w₁.PartOf 0 p → w₂.IsFree p := by
  obtain ⟨w₀, w₁, w₂, im, h0, h1, him, h2⟩ := exists_lifetime
  have hop : w₀.Allowed smallLayout .setupkvm := trivial
  have hpath := vm_step .refl hop h1
  exact ⟨w₀, w₁, w₂, im, h0, h1, him, h2, (teardown_restores_iff h0 hpath).1 0 im w₂ him h2⟩

/-- A page table of the kernel half is lost with the first address space. -/
theorem not_teardown_restores : ∃ w₀ w₁ w₂ t, boot smallLayout (fun _ => 0) = .ok w₀ ∧
    w₀.exec smallLayout .setupkvm = .ok w₁ ∧ w₁.exec smallLayout (.freevm 0) = .ok w₂ ∧
    w₁.HasRole t (.table 0 0) ∧ ¬ w₂.IsFree t := by
  obtain ⟨w₀, w₁, w₂, im, h0, h1, him, h2⟩ := exists_lifetime
  have hop : w₀.Allowed smallLayout .setupkvm := trivial
  obtain ⟨F, own, sp, hI⟩ := owned_of_path h0 (vm_step .refl hop h1)
  obtain ⟨t, ht⟩ := hI.exists_table him
  obtain ⟨F', own', htorn⟩ := hI.freevm_torn him h2
  refine ⟨w₀, w₁, w₂, t, h0, h1, h2, ht, fun hfree => ?_⟩
  rw [htorn.heap.isFree_iff, hI.table_not_freed him (by decide) ht htorn] at hfree
  cases hfree

end Mixv6.Mm
