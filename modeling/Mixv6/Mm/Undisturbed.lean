import Mixv6.Mm.Contents
import Mixv6.Mm.Resize

/-!
# What others do not touch

A routine works on one address space, takes pages and gives them back.  The pages of all other
owners stay with them, with their bytes; `Undisturbed P` says so of the owners that satisfy `P`, so
that the steps of several routines add up.

## Main definitions

* `Undisturbed` — the owners and the bytes are the same.
* `SpaceOk.undisturbed` — so is the address space.
* `peek`, `Vm.peek` — what the processor finds at an address.
-/

namespace Mixv6.Mm

open Mixv6.Lib

/-- The pages of the owners with `P` are the same, and so are their bytes. -/
structure Undisturbed (P : Tag → Prop) (own : ℕ → Tag) (m : Mem) (own' : ℕ → Tag) (m' : Mem) : Prop where
  owner : ∀ p, P (own p) ∨ P (own' p) → own' p = own p
  mem : ∀ x, P (own (page x)) → m' x = m x

variable {L : Layout} {P : Tag → Prop} {own own' own'' : ℕ → Tag} {m m' m'' : Mem} {σ σ' : Phys}
  {F F' : List ℕ} {s n p a : ℕ} {tag : Tag} {sp : Space}

namespace Undisturbed

theorem refl (P : Tag → Prop) (own : ℕ → Tag) (m : Mem) : Undisturbed P own m own m :=
  ⟨fun _ _ => rfl, fun _ _ => rfl⟩

theorem trans (h : Undisturbed P own m own' m') (h' : Undisturbed P own' m' own'' m'') :
    Undisturbed P own m own'' m'' := by
  constructor
  · rintro p (hp | hp)
    · have hmid := h.owner p (.inl hp)
      rw [h'.owner p (.inl (hmid ▸ hp)), hmid]
    · have hmid := h'.owner p (.inr hp)
      rw [hmid, h.owner p (.inr (hmid ▸ hp))]
  · intro x hx
    have hmid := h.owner _ (.inl hx)
    rw [h'.mem x (hmid ▸ hx), h.mem x hx]

theorem mono {Q : Tag → Prop} (h : Undisturbed P own m own' m') (hQ : ∀ tag, Q tag → P tag) :
    Undisturbed Q own m own' m' :=
  ⟨fun p hp => h.owner p (hp.imp (hQ _) (hQ _)), fun x hx => h.mem x (hQ _ hx)⟩

/-- Stores to pages of other owners. -/
theorem write (hm : ∀ x, P (own (page x)) → m' x = m x) : Undisturbed P own m own m' :=
  ⟨fun _ _ => rfl, hm⟩

/-- A page goes from one owner to another. -/
theorem retag (hp : ¬ P (own p)) (htag : ¬ P tag) (hm : ∀ x, page x ≠ p → m' x = m x) :
    Undisturbed P own m (Function.update own p tag) m' := by
  constructor
  · intro q hq
    apply Function.update_of_ne
    rintro rfl
    rw [Function.update_self] at hq
    exact hq.elim hp htag
  · intro x hx
    apply hm
    rintro rfl
    exact hp hx

/-- A routine on another address space. -/
theorem of_frame (hf : Frame n σ own σ' own') (hP : ∀ tag, P tag → tag ≠ .free ∧ ¬ tag.of n) :
    Undisturbed P own σ.mem own' σ'.mem := by
  constructor
  · rintro p (hp | hp)
    · obtain ⟨new, hf⟩ := hf
      exact hf.others p (hP _ hp).1 (hP _ hp).2
    · obtain ⟨new, hf⟩ := hf
      by_cases hold : own p = .free ∨ (own p).of n
      · rcases hf.inside p hold with hfree | hof
        · exact absurd hfree (hP _ hp).1
        · exact absurd hof (hP _ hp).2
      · rw [not_or] at hold
        exact hf.others p hold.1 hold.2
  · exact fun x hx => hf.outside (hP _ hx).1 (hP _ hx).2

end Undisturbed

/-- The address space is the same. -/
theorem SpaceOk.undisturbed (h : SpaceOk own s sp m) (hu : Undisturbed (Tag.of s) own m own' m')
    (halign : ∀ p, own p ≠ .out → p % 4096 = 0) : SpaceOk own' s sp m' := by
  have hsame : ∀ p tag, tag.of s → (own' p = tag ↔ own p = tag) := by
    intro p tag htag
    constructor
    · rintro rfl
      exact (hu.owner p (.inr htag)).symm
    · rintro rfl
      exact hu.owner p (.inl htag)
  have hmem : SpaceOk own s sp m' := by
    refine h.congr (fun x hx => hu.mem x ?_) halign
    rcases hx with ⟨i, hx⟩ | hx <;> rw [hx] <;> rfl
  exact ⟨hmem.pde, hmem.pte, hmem.absent,
    fun p => (hsame p (.dir s) rfl).trans (h.dir p),
    fun i p => (hsame p (.table s i) rfl).trans (h.tab i p), h.tab_lt,
    fun v hv hp => (hsame _ (.user s v) rfl).mpr (h.user v hv hp), h.kern⟩

/-- The byte that the processor finds at an address with directory `d`. -/
def peek (σ : Phys) (d a : ℕ) : Option UInt8 := (translate σ d a).map σ.mem

theorem Vm.peek {g : Ghost} (h : Vm L s σ g) (ha : a < 2 ^ 32) : Mm.peek σ g.sp.dir a =
    if present (g.sp.pte (a / 4096)) then some (g.sp.byte σ.mem a) else none := by
  rw [Mm.peek, h.translate ha]
  split <;> rfl

/-- The bytes of an address space that nobody has disturbed. -/
theorem SpaceOk.byte_undisturbed (h : SpaceOk own s sp m) (hu : Undisturbed (Tag.of s) own m own' m')
    (ha : KERNEND ≤ a) (hp : present (sp.pte (a / 4096))) : sp.byte m' a = sp.byte m a := by
  have hown := h.user _ (by simp only [KERNEND] at ha; omega) hp
  have hpage : page (PTE_ADDR (sp.pte (a / 4096)) + a % 4096) = PTE_ADDR (sp.pte (a / 4096)) :=
    page_add (PTE_ADDR_mod _) (Nat.mod_lt _ (by decide))
  apply hu.mem
  rw [hpage, hown]
  rfl

end Mixv6.Mm
