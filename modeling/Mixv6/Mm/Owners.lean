import Mixv6.Mm.World

/-!
# Every page has one owner

The record of owners, the free list and the address spaces of the whole system agree with
the memory in every state that is reached from `kinit`.  An owner is a value of a function,
so a page cannot have two.

## Main definitions

* `ImageOk`, `OwnedBy`, `Owned` — the invariant.
* `Owned.exec` — every call keeps it, and does not panic.
-/

namespace Mixv6.Mm

open Mixv6.Lib

/-- Address space `s` is as its image says. -/
structure ImageOk (own : ℕ → Tag) (s : ℕ) (im : Image) (sp : Space) (m : Mem) : Prop where
  space : SpaceOk own s sp m
  dir : sp.dir = im.pgdir
  low : 0x40000000 ≤ im.top
  high : im.top < 0xFFC00000
  below : ∀ v, 0x40000 ≤ v → present (sp.pte v) → v < (im.top + 4095) / 4096
  fresh : im.fresh → im.top = 0x40000000 ∧ sp.tab 256 = none
  first : ∃ t, sp.tab 0 = some t

/-- An address space after a call. -/
theorem ImageOk.used {own own' : ℕ → Tag} {s top : ℕ} {im : Image} {sp sp' : Space} {m m' : Mem}
    (h : ImageOk own s im sp m) (space : SpaceOk own' s sp' m') (grow : Grow sp sp')
    (low : 0x40000000 ≤ top) (high : top < 0xFFC00000)
    (below : ∀ v, 0x40000 ≤ v → present (sp'.pte v) → v < (top + 4095) / 4096) :
    ImageOk own' s ⟨sp.dir, top, false⟩ sp' m' := by
  obtain ⟨t, ht⟩ := h.first
  exact ⟨space, grow.dir, low, high, below, by simp, t, grow.tab 0 t ht⟩

/-- The free list is `F`, the owners are `own`, and the address spaces are `sp`. -/
structure OwnedBy (L : Layout) (w : World) (F : List ℕ) (own : ℕ → Tag) (sp : ℕ → Space) :
    Prop where
  heap : Heap L w.phys F own
  image : ∀ s im, w.space s = some im → ImageOk own s im (sp s) w.phys.mem
  kstack : ∀ i q, w.proc i = some q → own q.kstack = .kstack i
  next : ∀ s, w.next ≤ s → w.space s = none ∧ ∀ p, ¬ (own p).of s
  held : ∀ i q s, w.proc i = some q → q.space = some s → (w.space s).isSome
  once : ∀ i j q q' s, w.proc i = some q → w.proc j = some q' → q.space = some s →
    q'.space = some s → i = j

/-- Every page has one owner. -/
def Owned (L : Layout) (w : World) : Prop := ∃ F own sp, OwnedBy L w F own sp

variable {L : Layout} {w : World} {F F' : List ℕ} {own own' : ℕ → Tag} {sp : ℕ → Space}
  {σ σ' : Phys} {s t p i : ℕ} {im im' : Image}

/-! ## What the others notice -/

/-- The pages of another address space. -/
theorem Frame.of_other (hf : Frame s σ own σ' own') (hts : t ≠ s) (hp : (own' p).of t) :
    (own p).of t := by
  obtain ⟨new, hf⟩ := hf
  by_cases hold : own p = .free ∨ (own p).of s
  · rcases hf.inside p hold with hfree | hs
    · rw [hfree] at hp
      cases hp
    · cases h : own' p <;> simp_all [Tag.of]
  · rw [not_or] at hold
    rwa [hf.others p hold.1 hold.2] at hp

/-- A page of a process changes hands. -/
theorem SpaceOk.other {sp : Space} {m m' : Mem} {tag : Tag} (h : SpaceOk own s sp m)
    (halign : ∀ p, own p ≠ .out → p % 4096 = 0) (hp : ¬ (own p).of s) (hpa : p % 4096 = 0)
    (htag : ¬ tag.of s) (hm : ∀ x, page x ≠ p → m' x = m x) :
    SpaceOk (Function.update own p tag) s sp m' := by
  refine SpaceOk.congr (show SpaceOk (Function.update own p tag) s sp m from
    h.retag ?_ ?_ ?_ ⟨?_, ?_⟩) (fun x hx => hm x ?_) ?_
  · rintro rfl
    exact hp (by rw [h.own_dir]; rfl)
  · rintro i hi
    exact hp (by rw [h.own_tab hi]; rfl)
  · rintro v hv hpres rfl
    exact hp (by rw [h.user v hv hpres]; rfl)
  · rintro rfl
    exact htag rfl
  · rintro i rfl
    exact htag rfl
  · rintro rfl
    simp only [Function.update_self] at hx
    rcases hx with ⟨i, rfl⟩ | rfl <;> exact htag rfl
  · intro q hq
    by_cases hqp : q = p
    · exact hqp ▸ hpa
    · exact halign q (by simpa [hqp] using hq)

namespace OwnedBy

theorem align (hI : OwnedBy L w F own sp) : ∀ p, own p ≠ .out → p % 4096 = 0 :=
  fun p hp => (hI.heap.pages p hp).1

theorem vm (hI : OwnedBy L w F own sp) (him : w.space s = some im) :
    Vm L s w.phys ⟨F, own, sp s⟩ :=
  ⟨hI.heap, (hI.image s im him).space⟩

theorem lt_next (hI : OwnedBy L w F own sp) (him : w.space s = some im) : s < w.next := by
  by_contra hcon
  have := (hI.next s (by omega)).1
  rw [him] at this
  cases this

/-- What address space `s` does, the other address spaces and the processes do not notice. -/
theorem others (hI : OwnedBy L w F own sp) (hf : Frame s w.phys own σ' own') (ht : t ≠ s)
    (him : w.space t = some im) : ImageOk own' t im (sp t) σ'.mem := by
  obtain ⟨h1, h2, h3, h4, h5, h6, h7⟩ := hI.image t im him
  exact ⟨h1.frame hf ht hI.align, h2, h3, h4, h5, h6, h7⟩

theorem kstack_frame (hI : OwnedBy L w F own sp) (hf : Frame s w.phys own σ' own') {q : Proc}
    (hq : w.proc i = some q) : own' q.kstack = .kstack i := by
  have hold := hI.kstack i q hq
  obtain ⟨new, hf⟩ := hf
  rw [hf.others _ (by rw [hold]; simp) (by rw [hold]; exact id), hold]

/-- The numbers that are still to be given stay free. -/
theorem next_note (hI : OwnedBy L w F own sp) (hf : Frame s w.phys own σ' own') (hlt : s < w.next)
    {o : Option Image} (ht : w.next ≤ t) :
    (World.note { w with phys := σ' } s o).space t = none ∧ ∀ p, ¬ (own' p).of t := by
  obtain ⟨h1, h2⟩ := hI.next t ht
  have hts : t ≠ s := by omega
  rw [World.note_space_of_ne _ _ hts]
  exact ⟨h1, fun p hp => h2 p (hf.of_other hts hp)⟩

/-- A call on address space `s`. -/
theorem touch (hI : OwnedBy L w F own sp) (him : w.space s = some im) {sp' : Space}
    (hheap : Heap L σ' F' own') (hf : Frame s w.phys own σ' own')
    (him' : ImageOk own' s im' sp' σ'.mem) :
    OwnedBy L (World.note { w with phys := σ' } s (some im')) F' own' (Function.update sp s sp') := by
  have hlt := hI.lt_next him
  refine ⟨hheap, fun t imt ht => ?_, fun i q hq => hI.kstack_frame hf hq,
    fun t ht => hI.next_note hf hlt ht, fun i q t hq hqt => ?_, hI.once⟩
  · by_cases hts : t = s
    · subst hts
      obtain rfl : im' = imt := by simpa using ht
      simpa using him'
    · rw [World.note_space_of_ne _ _ hts] at ht
      rw [Function.update_of_ne hts]
      exact hI.others hf hts ht
  · by_cases hts : t = s
    · subst hts; simp
    · rw [World.note_space_of_ne _ _ hts]
      exact hI.held i q t hq hqt

/-- The end of address space `s`. -/
theorem remove (hI : OwnedBy L w F own sp) (hloose : w.Loose s) (hlt : s < w.next)
    (hheap : Heap L σ' F' own') (hf : Frame s w.phys own σ' own') :
    OwnedBy L (World.note { w with phys := σ' } s none) F' own' sp := by
  refine ⟨hheap, fun t imt ht => ?_, fun i q hq => hI.kstack_frame hf hq,
    fun t ht => hI.next_note hf hlt ht, fun i q t hq hqt => ?_, hI.once⟩
  · have hts : t ≠ s := by
      rintro rfl
      simp at ht
    rw [World.note_space_of_ne _ _ hts] at ht
    exact hI.others hf hts ht
  · have hts : t ≠ s := by rintro rfl; exact hloose i q hq hqt
    rw [World.note_space_of_ne _ _ hts]
    exact hI.held i q t hq hqt

/-- A new address space, or none. -/
theorem add (hI : OwnedBy L w F own sp) {sp' : Space} {pgdir top : ℕ} {fresh : Bool}
    (hheap : Heap L σ' F' own') (hf : Frame w.next w.phys own σ' own')
    (him' : pgdir ≠ 0 → ImageOk own' w.next ⟨pgdir, top, fresh⟩ sp' σ'.mem) :
    OwnedBy L (World.add { w with phys := σ' } pgdir top fresh) F' own'
      (Function.update sp w.next sp') := by
  refine ⟨hheap, fun t imt ht => ?_, fun i q hq => hI.kstack_frame hf hq, fun t ht => ?_,
    fun i q t hq hqt => ?_, hI.once⟩
  · by_cases hts : t = w.next
    · subst hts
      rw [World.add_space_self { w with phys := σ' }] at ht
      split at ht
      next => cases ht
      next hne =>
        obtain rfl := Option.some.inj ht
        simpa using him' hne
    · rw [World.add_space_of_ne { w with phys := σ' } _ _ _ hts] at ht
      rw [Function.update_of_ne hts]
      exact hI.others hf hts ht
  · simp only [World.add_next] at ht
    obtain ⟨h1, h2⟩ := hI.next t (by omega)
    refine ⟨?_, fun p hp => h2 p (hf.of_other (by omega) hp)⟩
    rw [World.add_space_of_ne { w with phys := σ' } _ _ _ (by simp only; omega)]
    exact h1
  · have hsome := hI.held i q t hq hqt
    have hts : t ≠ w.next := by
      rintro rfl
      rw [(hI.next _ (le_refl _)).1] at hsome
      cases hsome
    rw [World.add_space_of_ne { w with phys := σ' } _ _ _ hts]
    exact hsome

/-- Stores outside the page tables and the free pages. -/
theorem scribble (hI : OwnedBy L w F own sp) (hcore : σ'.coremap = w.phys.coremap)
    (hm : ∀ x, own (page x) = .free ∨ (∃ s, own (page x) = .dir s) ∨
      (∃ s i, own (page x) = .table s i) → σ'.mem x = w.phys.mem x) :
    OwnedBy L { w with phys := σ' } F own sp := by
  refine ⟨?_, fun s im him => ?_, hI.kstack, hI.next, hI.held, hI.once⟩
  · exact hI.heap.congr hcore fun p hp x hx => hm x (.inl (by rw [hx]; exact (hI.heap.free p).mp hp))
  · obtain ⟨h1, h2, h3, h4, h5, h6, h7⟩ := hI.image s im him
    refine ⟨h1.congr (fun x hx => hm x ?_) hI.align, h2, h3, h4, h5, h6, h7⟩
    rcases hx with ⟨i, hx⟩ | hx
    · exact .inr (.inr ⟨s, i, hx⟩)
    · exact .inr (.inl ⟨s, hx⟩)

/-! ## Processes -/

/-- A page that belongs to no address space changes hands between the free list and a
process. -/
theorem swap (hI : OwnedBy L w F own sp) {tag : Tag} (hp : ∀ s, ¬ (own p).of s)
    (hpa : p % 4096 = 0) (htag : ∀ s, ¬ tag.of s) (hm : ∀ x, page x ≠ p → σ'.mem x = w.phys.mem x)
    (him : w.space s = some im) : ImageOk (Function.update own p tag) s im (sp s) σ'.mem := by
  obtain ⟨h1, h2, h3, h4, h5, h6, h7⟩ := hI.image s im him
  exact ⟨h1.other hI.align (hp s) hpa (htag s) hm, h2, h3, h4, h5, h6, h7⟩

theorem swap_next (hI : OwnedBy L w F own sp) {tag : Tag} (htag : ∀ s, ¬ tag.of s)
    (hs : w.next ≤ s) (q : ℕ) : ¬ (Function.update own p tag q).of s :=
  not_of_update (hI.next s hs).2 (htag s) q

/-- A new process. -/
theorem newProc (hI : OwnedBy L w (p :: F) own sp) (hi : w.proc i = none)
    (hcore : σ'.coremap = (w.phys.take p).coremap)
    (hm : ∀ x, page x ≠ p → σ'.mem x = w.phys.mem x) :
    OwnedBy L { w with phys := σ', proc := Function.update w.proc i (some ⟨p, none⟩) } F
      (Function.update own p (.kstack i)) sp := by
  have hfree : own p = .free := (hI.heap.free p).mp (by simp)
  have hpa := hI.align p (by simp [hfree])
  have hpF : p ∉ F := (List.nodup_cons.mp hI.heap.nodup).1
  refine ⟨?_, fun s im him => ?_, fun j q hq => ?_, fun s hs => ⟨(hI.next s hs).1, fun q => ?_⟩,
    fun j q s hq hqs => ?_, fun j k q q' s hq hq' hqs hqs' => ?_⟩
  · refine (hI.heap.take (show Tag.kstack i ≠ .free by simp)).congr hcore fun q hq x hx => hm x ?_
    rintro rfl
    exact hpF (hx ▸ hq)
  · exact hI.swap (by simp [hfree, Tag.of]) hpa (by simp [Tag.of]) hm him
  · by_cases hji : j = i
    · subst hji
      obtain rfl : (⟨p, none⟩ : Proc) = q := by simpa using hq
      simp
    · simp only [Function.update_of_ne hji] at hq
      have hold := hI.kstack j q hq
      have hqp : q.kstack ≠ p := by
        rintro hqp
        rw [hqp, hfree] at hold
        cases hold
      rw [Function.update_of_ne hqp, hold]
  · exact hI.swap_next (by simp [Tag.of]) hs q
  · by_cases hji : j = i
    · subst hji
      obtain rfl : (⟨p, none⟩ : Proc) = q := by simpa using hq
      cases hqs
    · exact hI.held j q s (by simpa [hji] using hq) hqs
  · have hji : j ≠ i := by
      rintro rfl
      obtain rfl : (⟨p, none⟩ : Proc) = q := by simpa using hq
      cases hqs
    have hki : k ≠ i := by
      rintro rfl
      obtain rfl : (⟨p, none⟩ : Proc) = q' := by simpa using hq'
      cases hqs'
    exact hI.once j k q q' s (by simpa [hji] using hq) (by simpa [hki] using hq') hqs hqs'

/-- The end of a process, without an address space. -/
theorem endProc (hI : OwnedBy L w F own sp) {q : Proc} (hq : w.proc i = some q) :
    OwnedBy L { w with phys := w.phys.give q.kstack, proc := Function.update w.proc i none }
      (q.kstack :: F) (Function.update own q.kstack .free) sp := by
  have hold := hI.kstack i q hq
  have hpage := hI.heap.pages q.kstack (by simp [hold])
  have hsub : ∀ j q', Function.update w.proc i none j = some q' → j ≠ i ∧ w.proc j = some q' := by
    intro j q' hj
    have hji : j ≠ i := by
      rintro rfl
      simp at hj
    exact ⟨hji, by simpa [hji] using hj⟩
  refine ⟨hI.heap.give (by simp [hold]) hpage, fun s im him => ?_, fun j q' hq' => ?_,
    fun s hs => ⟨(hI.next s hs).1, fun p => ?_⟩, fun j q' s hq' => ?_,
    fun j k q₁ q₂ s h1 h2 => ?_⟩
  · exact hI.swap (by simp [hold, Tag.of]) hpage.1 (by simp [Tag.of])
      (fun x hx => give_mem hpage.1 hx) him
  · obtain ⟨hji, hj⟩ := hsub j q' hq'
    have hother := hI.kstack j q' hj
    have hne : q'.kstack ≠ q.kstack := by
      intro hqq
      rw [hqq, hold] at hother
      cases hother
      exact hji rfl
    rw [Function.update_of_ne hne, hother]
  · exact hI.swap_next (by simp [Tag.of]) hs p
  · exact hI.held j q' s (hsub j q' hq').2
  · exact hI.once j k q₁ q₂ s (hsub j q₁ h1).2 (hsub k q₂ h2).2

/-- A process gives up the address space it holds, or takes one that nobody holds. -/
theorem setSpace (hI : OwnedBy L w F own sp) {q : Proc} (hq : w.proc i = some q) {o : Option ℕ}
    (ho : ∀ s, o = some s → w.Loose s ∧ (w.space s).isSome) :
    OwnedBy L { w with proc := Function.update w.proc i (some { q with space := o }) } F own sp := by
  refine ⟨hI.heap, hI.image, fun j q' hq' => ?_, hI.next, fun j q' s hq' hqs => ?_,
    fun j k q₁ q₂ s h1 h2 hs1 hs2 => ?_⟩
  · by_cases hji : j = i
    · subst hji
      obtain rfl : { q with space := o } = q' := by simpa using hq'
      exact hI.kstack j q hq
    · exact hI.kstack j q' (by simpa [hji] using hq')
  · by_cases hji : j = i
    · subst hji
      obtain rfl : { q with space := o } = q' := by simpa using hq'
      exact (ho s hqs).2
    · exact hI.held j q' s (by simpa [hji] using hq') hqs
  · by_cases hji : j = i
    · by_cases hki : k = i
      · rw [hji, hki]
      · obtain rfl : { q with space := o } = q₁ := by simpa [hji] using h1
        exact absurd hs2 ((ho s hs1).1 k q₂ (by simpa [hki] using h2))
    · by_cases hki : k = i
      · obtain rfl : { q with space := o } = q₂ := by simpa [hki] using h2
        exact absurd hs1 ((ho s hs2).1 j q₁ (by simpa [hji] using h1))
      · exact hI.once j k q₁ q₂ s (by simpa [hji] using h1) (by simpa [hki] using h2) hs1 hs2

end OwnedBy

/-! ## The calls -/

/-- Nothing is mapped above the old top when `allocuvm` has failed. -/
theorem Shrunk.below {g g' : Ghost} {lo hi : ℕ} (hs : Shrunk s lo hi σ g σ' g')
    (hbelow : ∀ v, 0x40000 ≤ v → present (g.sp.pte v) → v < lo) :
    ∀ v, 0x40000 ≤ v → present (g'.sp.pte v) → v < lo := by
  intro v hv hp
  by_contra hcon
  by_cases hvh : v < hi
  · exact hs.inside v (by omega) hvh hp
  · rw [hs.outside v (by omega)] at hp
    exact hcon (hbelow v hv hp)

/-- A call ends in a state with `P`, or in a panic that `E` admits. -/
def Outcome (E : Panic → Prop) (P : World → Prop) : Except Panic World → Prop
  | .ok w => P w
  | .error e => E e

variable {E : Panic → Prop} {P : World → Prop}

theorem outcome_ok : Outcome E P (.ok w) ↔ P w := Iff.rfl

theorem outcome_error {e : Panic} : Outcome E P (.error e) ↔ E e := Iff.rfl

theorem Outcome.mono {Q : World → Prop} {x : Except Panic World} (h : Outcome E P x)
    (himp : ∀ w, P w → Q w) : Outcome E Q x := by
  cases x with
  | ok w => exact himp w h
  | error e => exact h

/-- A call that does not stop in a panic. -/
theorem Outcome.ok {x : Except Panic World} (h : Outcome (fun _ => False) P x) :
    ∃ w, x = .ok w ∧ P w := by
  cases x with
  | ok w => exact ⟨w, rfl, h⟩
  | error e => exact h.elim

theorem outcome_call {α : Type} {c : Kern α} {f : α → World → World} {Q : α → Phys → Prop}
    (h : wp E c Q w.phys) (hf : ∀ r σ, Q r σ → P (f r { w with phys := σ })) :
    Outcome E P (w.call c f) := by
  rcases wp_iff.mp h with ⟨r, σ, hc, hQ⟩ | ⟨e, hc, he⟩
  · have hcall : w.call c f = .ok (f r { w with phys := σ }) := by
      simp only [World.call, hc]
      rfl
    rw [hcall]
    exact hf r σ hQ
  · have hcall : w.call c f = .error e := by
      simp only [World.call, hc]
      rfl
    rw [hcall]
    exact he

theorem outcome_on {f : Image → Except Panic World} (hw : P w)
    (hf : ∀ im, w.space s = some im → Outcome E P (f im)) : Outcome E P (w.on s f) := by
  unfold World.on
  split
  next => exact hw
  next im him => exact hf im him

attribute [irreducible] Outcome

/-- A process that forks may turn out to have pages missing, if there was no memory for its
first page; then `copyuvm` stops. -/
def Halts (e : Panic) : Prop := e = .copyuvmPte ∨ e = .copyuvmPage

/-- What a call has done that makes a new address space or fails to. -/
def Added (L : Layout) (w : World) (F : List ℕ) (own : ℕ → Tag) (w' : World) : Prop :=
  ∃ F' own' sp', OwnedBy L w' F' own' sp' ∧ Frame w.next w.phys own w'.phys own' ∧
    (w'.space w.next = none → Unmade L w.next w.phys F own w'.phys F' own')

namespace OwnedBy

theorem palloc_room (hI : OwnedBy L w F own sp) (hi : w.proc i = none) :
    Outcome E (fun w' => (∃ F' own' sp', OwnedBy L w' F' own' sp' ∧ F.length ≤ F'.length + 1) ∧
      w'.space = w.space ∧ w'.next = w.next) (w.exec L (.palloc i)) := by
  have hwp : wp E Mm.palloc (fun r σ => r = 0 ∧ σ = w.phys ∨ ∃ F', F = r :: F' ∧ r ≠ 0 ∧
      σ = { w.phys.take r with mem := w.phys.mem.fill r 0 4096 }) w.phys := by
    refine wp_bind.mpr (hI.heap.wp_kalloc (fun _ => ?_) fun p F' hF hp => ?_)
    · rw [if_pos rfl, wp_pure]
      exact .inl ⟨rfl, rfl⟩
    · rw [if_neg hp, memset, wp_bind, wp_modify, wp_pure]
      exact .inr ⟨F', hF, hp, rfl⟩
  simp only [World.exec]
  refine outcome_call hwp ?_
  rintro r σ (⟨rfl, rfl⟩ | ⟨F', rfl, hr, rfl⟩)
  · exact ⟨⟨F, own, sp, hI, Nat.le_succ _⟩, rfl, rfl⟩
  · rw [if_neg hr]
    have hpa := hI.align r (by rw [(hI.heap.free r).mp (by simp)]; simp)
    refine ⟨⟨_, _, _, hI.newProc hi rfl fun x hx => ?_, le_refl _⟩, rfl, rfl⟩
    simp only [page] at hx
    exact Mem.fill_of_ne (by omega)

theorem palloc (hI : OwnedBy L w F own sp) (hi : w.proc i = none) :
    Outcome E (Owned L) (w.exec L (.palloc i)) :=
  (hI.palloc_room hi).mono fun _ ⟨⟨F', own', sp', h, _⟩, _, _⟩ => ⟨F', own', sp', h⟩

theorem setupkvm_added (hI : OwnedBy L w F own sp) :
    Outcome E (Added L w F own) (w.exec L .setupkvm) := by
  simp only [World.exec]
  refine outcome_call (wp_setupkvm hI.heap (hI.next w.next (le_refl _)).2) ?_
  rintro r σ (⟨hne, g', rfl, hmade⟩ | ⟨rfl, -, F', own', hun⟩)
  · refine ⟨_, _, _, hI.add hmade.vm.heap hmade.frame fun _ => ⟨hmade.vm.space, rfl, le_refl _,
      by simp only [KERNEND]; omega, fun v hv hp => ?_, fun _ => ⟨rfl, hmade.tab 256 (by omega)⟩,
      hmade.vm.tab_of_present (v := 0) (hmade.kern 0 (by decide))⟩, hmade.frame, fun hnone => ?_⟩
    · rw [hmade.user v (by omega)] at hp
      simp [present] at hp
    · rw [World.add_space_self { w with phys := σ }, if_neg hne] at hnone
      cases hnone
  · exact ⟨_, _, _, hI.add hun.heap hun.frame
      (show _ → ImageOk _ _ _ (sp 0) _ from fun h => absurd rfl h), hun.frame, fun _ => hun⟩

theorem setupkvm (hI : OwnedBy L w F own sp) : Outcome E (Owned L) (w.exec L .setupkvm) :=
  hI.setupkvm_added.mono fun _ ⟨F', own', sp', h, _⟩ => ⟨F', own', sp', h⟩

theorem inituvm (hI : OwnedBy L w F own sp) {start size : ℕ}
    (hop : w.Allowed L (.inituvm s start size)) :
    Outcome E (Owned L) (w.exec L (.inituvm s start size)) := by
  refine outcome_on ⟨F, own, sp, hI⟩ fun im him => ?_
  obtain ⟨⟨im', him', hfresh⟩, hpos, hsize⟩ := hop
  obtain rfl : im' = im := Option.some.inj (him'.symm.trans him)
  have hi := hI.image s im' him
  obtain ⟨htop, htab⟩ := hi.fresh hfresh
  have hnone : ¬ present ((sp s).pte 0x40000) := by
    intro hp
    have := hi.below _ (le_refl _) hp
    omega
  rw [← hi.dir]
  refine outcome_call (wp_inituvm (hI.vm him) hsize hnone htab) ?_
  rintro _ σ (⟨hnil, hcore, hm⟩ | ⟨g', h', hf, hgrow, hpte⟩)
  · have hs : OwnedBy L { w with phys := σ } F own sp := by
      refine hI.scribble hcore fun x hx => hm x ?_
      have hpage := hI.heap.pages (page x) (by rcases hx with hx | ⟨_, hx⟩ | ⟨_, _, hx⟩ <;> simp [hx])
      have := hpage.pos
      omega
    refine ⟨F, own, _, hs.touch him hs.heap (.refl ..) (show ImageOk own s _ (sp s) _ from ?_)⟩
    refine hi.used (hs.image s im' him).space (.refl _) ?_ ?_ fun v hv hp => ?_
    · simp only [KERNEND]
      omega
    · simp only [KERNEND, PAGESIZE] at *
      omega
    · have := hi.below v hv hp
      omega
  · refine ⟨_, _, _, hI.touch him h'.heap hf (hi.used h'.space hgrow ?_ ?_ fun v hv hp => ?_)⟩
    · simp only [KERNEND]
      omega
    · simp only [KERNEND, PAGESIZE] at *
      omega
    · simp only [KERNEND]
      by_cases hv' : v = 0x40000
      · omega
      · rw [hpte v hv'] at hp
        have := hi.below v hv hp
        omega

theorem allocuvm (hI : OwnedBy L w F own sp) {new : ℕ} :
    Outcome E (Owned L) (w.exec L (.allocuvm s new)) := by
  refine outcome_on ⟨F, own, sp, hI⟩ fun im him => ?_
  have hi := hI.image s im him
  have hlow := hi.low
  have hhigh := hi.high
  rw [← hi.dir]
  refine outcome_call (wp_allocuvm (hI.vm him) hi.low fun v h1 _ hp => ?_) ?_
  · have := hi.below v (by omega) hp
    omega
  rintro r σ (⟨_, rfl, rfl⟩ | ⟨_, _, rfl, rfl⟩ | ⟨hnew, hlt, rfl, g', h', hg⟩ |
    ⟨_, _, rfl, g', h', hs⟩)
  · exact ⟨_, _, _, hI.touch him hI.heap (.refl ..) (hi.used hi.space (.refl _) hlow hhigh hi.below)⟩
  · rw [if_neg (by omega)]
    exact ⟨_, _, _, hI.touch him hI.heap (.refl ..) (hi.used hi.space (.refl _) hlow hhigh hi.below)⟩
  · rw [if_neg (by omega)]
    refine ⟨_, _, _, hI.touch him h'.heap hg.frame (hi.used h'.space hg.grow (by omega) hlt
      fun v hv hp => ?_)⟩
    by_contra hcon
    rw [hg.outside v (by omega)] at hp
    have := hi.below v hv hp
    omega
  · exact ⟨_, _, _, hI.touch him h'.heap hs.frame (hi.used h'.space hs.grow hlow hhigh
      (hs.below hi.below))⟩

theorem deallocuvm (hI : OwnedBy L w F own sp) {new : ℕ} (hnew : KERNEND ≤ new) :
    Outcome E (Owned L) (w.exec L (.deallocuvm s new)) := by
  refine outcome_on ⟨F, own, sp, hI⟩ fun im him => ?_
  have hi := hI.image s im him
  have hlow := hi.low
  have hhigh := hi.high
  rw [← hi.dir]
  by_cases hlt : new < im.top
  · refine outcome_call (wp_deallocuvm (hI.vm him) hnew hlt hhigh.le) ?_
    rintro r σ ⟨rfl, g', h', hf⟩
    refine ⟨_, _, _, hI.touch him h'.heap hf.frame (hi.used h'.space hf.grow hnew (by omega)
      fun v hv hp => ?_)⟩
    rw [hf.pte] at hp
    split at hp
    next => simp [present] at hp
    next hcond =>
      have := hi.below v hv hp
      by_contra hcon
      exact hcond ⟨by omega, this, hp⟩
  · have hwp : wp E (Mm.deallocuvm L (sp s).dir im.top new)
        (fun r σ => r = im.top ∧ σ = w.phys) w.phys := by
      simp only [Mm.deallocuvm, Nat.not_lt.mp hlt, ↓reduceIte, wp_pure]
      exact ⟨trivial, trivial⟩
    refine outcome_call hwp ?_
    rintro r σ ⟨rfl, rfl⟩
    exact ⟨_, _, _, hI.touch him hI.heap (.refl ..) (hi.used hi.space (.refl _) hlow hhigh hi.below)⟩

theorem ustack (hI : OwnedBy L w F own sp) : Outcome E (Owned L) (w.exec L (.ustack s)) := by
  refine outcome_on ⟨F, own, sp, hI⟩ fun im him => ?_
  have hi := hI.image s im him
  have hlow := hi.low
  have hhigh := hi.high
  have habove : ∀ v, (im.top + 4095) / 4096 ≤ v → ¬ present ((sp s).pte v) := by
    intro v h1 hp
    have := hi.below v (by omega) hp
    omega
  rw [← hi.dir]
  refine outcome_call (wp_ustack (hI.vm him) hlow hhigh habove) ?_
  rintro r σ (⟨_, rfl, rfl⟩ | ⟨hlo, hr, g', h', hst⟩ | ⟨rfl, g', h', hs⟩)
  · exact ⟨_, _, _, hI.touch him hI.heap (.refl ..) (hi.used hi.space (.refl _) hlow hhigh hi.below)⟩
  · rw [if_neg (by omega)]
    refine ⟨_, _, _, hI.touch him h'.heap hst.frame (hi.used h'.space hst.grow (by omega)
      (by omega) fun v hv hp => ?_)⟩
    by_contra hcon
    rw [hst.outside v (by omega)] at hp
    have := hi.below v hv hp
    omega
  · exact ⟨_, _, _, hI.touch him h'.heap hs.frame (hi.used h'.space hs.grow hlow hhigh
      (hs.below hi.below))⟩

theorem freevm (hI : OwnedBy L w F own sp) (hloose : w.Loose s) :
    Outcome E (Owned L) (w.exec L (.freevm s)) := by
  refine outcome_on ⟨F, own, sp, hI⟩ fun im him => ?_
  have hi := hI.image s im him
  rw [← hi.dir]
  refine outcome_call (wp_freevm (hI.vm him)) ?_
  rintro _ σ ⟨F', own', ht⟩
  exact ⟨_, _, _, hI.remove hloose (hI.lt_next him) ht.heap ht.frame⟩

theorem pfree (hI : OwnedBy L w F own sp) : Outcome E (Owned L) (w.exec L (.pfree i)) := by
  simp only [World.exec]
  split
  next => exact outcome_ok.mpr ⟨F, own, sp, hI⟩
  next q hq =>
    have hstack := hI.heap.pages q.kstack (by simp [hI.kstack i q hq])
    have hne : q.kstack ≠ 0 := by
      have := hstack.pos
      omega
    rcases hs : q.space with _ | s
    · have hwp : wp E (Mm.pfree L (w.pgdir q) q.kstack) (fun _ σ => σ = w.phys.give q.kstack)
          w.phys := by
        simp only [Mm.pfree, World.pgdir, hs, Option.bind_none, Option.elim_none, hne, ne_eq,
          not_true_eq_false, not_false_eq_true, ↓reduceIte]
        exact Heap.wp_kfree hstack rfl
      refine outcome_call hwp ?_
      rintro _ σ rfl
      simp only [reduceCtorEq, ↓reduceIte]
      exact ⟨_, _, _, hI.endProc hq⟩
    · obtain ⟨im, him⟩ := Option.isSome_iff_exists.mp (hI.held i q s hq hs)
      have hvm := hI.vm him
      have hdir : w.pgdir q = (sp s).dir := by
        simp [World.pgdir, hs, him, (hI.image s im him).dir]
      have hdne : (sp s).dir ≠ 0 := hvm.dir_ne
      have hwp : wp E (Mm.pfree L (w.pgdir q) q.kstack) (fun _ σ => ∃ σ₁ F₁ own₁,
          Torn L s w.phys ⟨F, own, sp s⟩ σ₁ F₁ own₁ ∧ σ = σ₁.give q.kstack) w.phys := by
        simp only [Mm.pfree, hdir, hdne, hne, ne_eq, not_false_eq_true, ↓reduceIte]
        refine wp_seq (wp_freevm hvm) ?_
        rintro _ σ₁ ⟨F₁, own₁, ht⟩
        exact Heap.wp_kfree hstack ⟨σ₁, F₁, own₁, ht, rfl⟩
      refine outcome_call hwp ?_
      rintro _ _ ⟨σ₁, F₁, own₁, ht, rfl⟩
      -- First the process gives its address space up, then this is freed, then the process.
      have h₁ := hI.setSpace hq (o := none) (by simp)
      have h₂ := h₁.remove (s := s) (fun j p hj hp => ?_) (hI.lt_next him) ht.heap ht.frame
      · have h₃ := h₂.endProc (i := i) (q := { q with space := none }) (by simp [World.note])
        have hspace : (fun t => if some s = some t then none else w.space t) =
            Function.update w.space s none := by
          funext t
          by_cases hts : t = s
          · simp [hts]
          · simp [hts, Ne.symm hts]
        refine ⟨q.kstack :: F₁, Function.update own₁ q.kstack .free, sp, ?_⟩
        simp only [hspace]
        simpa [World.note] using h₃
      · by_cases hji : j = i
        · subst hji
          obtain rfl : { q with space := none } = p := by simpa using hj
          cases hp
        · exact hji (hI.once j i p q s (by simpa [hji] using hj) hq hp hs)

theorem setpgdir (hI : OwnedBy L w F own sp) (hop : w.Allowed L (.setpgdir i s)) :
    Outcome E (Owned L) (w.exec L (.setpgdir i s)) := by
  simp only [World.exec]
  split
  next => exact outcome_ok.mpr ⟨F, own, sp, hI⟩
  next q hq =>
    refine outcome_ok.mpr ⟨F, own, sp, hI.setSpace hq fun t ht => ?_⟩
    obtain rfl := Option.some.inj ht
    exact ⟨hop.1, hop.2.1⟩

theorem copyuvm_added (hI : OwnedBy L w F own sp) (him : w.space s = some im) :
    Outcome Halts (Added L w F own) (w.exec L (.copyuvm s)) := by
  simp only [World.exec, World.on, him]
  have hi := hI.image s im him
  have hlow := hi.low
  have hhigh := hi.high
  have htop : KERNEND + (im.top - KERNEND) = im.top := by
    simp only [KERNEND]
    omega
  rw [← hi.dir]
  refine outcome_call (wp_copyuvm hI.heap hi.space (hI.next w.next (le_refl _)).2 ?_ ?_
    (.inr ⟨.inl rfl, .inr rfl⟩)) ?_
  · have := hI.lt_next him
    omega
  · rw [htop]
    exact hhigh.le
  · rw [htop]
    rintro r σ (⟨hne, -, g', rfl, hc⟩ | ⟨rfl, -, F', own', hun⟩)
    · refine ⟨_, _, _, hI.add hc.vm.heap hc.frame fun _ => ⟨hc.vm.space, rfl, hlow, hhigh,
        fun v hv hp => ?_, by simp, hc.first⟩, hc.frame, fun hnone => ?_⟩
      · by_contra hcon
        simp only at hcon
        exact hc.above v (by omega) hp
      · rw [World.add_space_self { w with phys := σ }, if_neg hne] at hnone
        cases hnone
    · exact ⟨_, _, _, hI.add hun.heap hun.frame
        (show _ → ImageOk _ _ _ (sp 0) _ from fun h => absurd rfl h), hun.frame, fun _ => hun⟩

theorem copyuvm (hI : OwnedBy L w F own sp) :
    Outcome Halts (Owned L) (w.exec L (.copyuvm s)) := by
  rcases him : w.space s with _ | im
  · simp only [World.exec, World.on, him]
    exact outcome_ok.mpr ⟨F, own, sp, hI⟩
  · exact (hI.copyuvm_added him).mono fun _ ⟨F', own', sp', h, _⟩ => ⟨F', own', sp', h⟩

end OwnedBy

/-! ## Roles and owners -/

/-- The owner that a role stands for. -/
def World.Role.tag : World.Role → Tag
  | .node _ => .free
  | .kstack i => .kstack i
  | .dir s => .dir s
  | .table s i => .table s i
  | .user s v => .user s v

/-- The free list, position by position. -/
theorem Chain.freeNode {m : Mem} {head n : ℕ} (h : Chain m head F)
    (hn : ∀ k ≤ n, World.freeNode m head k ≠ 0) : F[n]? = some (World.freeNode m head n) := by
  induction F generalizing head n with
  | nil => exact absurd h (hn 0 (by omega))
  | cons p F ih =>
      obtain ⟨rfl, -, hF⟩ := h
      cases n with
      | zero => rfl
      | succ n => exact ih hF fun k hk => hn (k + 1) (by omega)

namespace OwnedBy

/-- Entry `i` of the directory of an address space. -/
theorem pdeAt (hI : OwnedBy L w F own sp) (him : w.space s = some im) (hi : i < 1024) :
    World.pdeAt w.phys im.pgdir i = ((sp s).tab i).elim 0 (· + 7) := by
  rw [← (hI.image s im him).dir]
  exact (hI.vm him).pdeAt hi

/-- An entry of the directory that is present. -/
theorem pdeAt_present (hI : OwnedBy L w F own sp) (him : w.space s = some im) (hi : i < 1024)
    (hp : present (World.pdeAt w.phys im.pgdir i)) :
    (sp s).tab i = some (PTE_ADDR (World.pdeAt w.phys im.pgdir i)) := by
  rw [← (hI.image s im him).dir] at hp ⊢
  exact (hI.vm him).pdeAt_present hi hp

/-- The entry of a page whose page table is present. -/
theorem pteAt (hI : OwnedBy L w F own sp) (him : w.space s = some im) {v : ℕ} (hv : v < 0x100000)
    (hp : present (World.pdeAt w.phys im.pgdir (v / 1024))) :
    World.pteAt w.phys im.pgdir v = (sp s).pte v := by
  rw [← (hI.image s im him).dir] at hp ⊢
  exact (hI.vm him).pteAt hv hp

/-- A page with a role belongs to the owner that the role stands for. -/
theorem own_of_role (hI : OwnedBy L w F own sp) {r : World.Role} (h : w.HasRole p r) :
    own p = r.tag := by
  cases r with
  | node n =>
      obtain ⟨rfl, hn⟩ := h
      exact (hI.heap.free _).mp (List.mem_of_getElem? (hI.heap.chain.freeNode hn))
  | kstack i =>
      obtain ⟨q, hq, rfl⟩ := h
      exact hI.kstack i q hq
  | dir s =>
      obtain ⟨im, him, rfl⟩ := h
      have hi := hI.image s im him
      rw [← hi.dir]
      exact hi.space.own_dir
  | table s i =>
      obtain ⟨im, him, hi, hp, rfl⟩ := h
      exact (hI.image s im him).space.own_tab (hI.pdeAt_present him hi hp)
  | user s v =>
      obtain ⟨im, him, hv, hlt, hp, hp', rfl⟩ := h
      rw [hI.pteAt him hlt hp] at hp' ⊢
      exact (hI.image s im him).space.user v hv hp'

/-- A page has at most one role. -/
theorem role_unique (hI : OwnedBy L w F own sp) {r r' : World.Role} (h : w.HasRole p r)
    (h' : w.HasRole p r') : r = r' := by
  have heq : r.tag = r'.tag := (hI.own_of_role h).symm.trans (hI.own_of_role h')
  cases r <;> cases r' <;> simp only [World.Role.tag, reduceCtorEq, Tag.kstack.injEq,
    Tag.dir.injEq, Tag.table.injEq, Tag.user.injEq] at heq
  case node.node n n' =>
    -- The same page at two positions of the list.
    obtain ⟨hn, hlist⟩ := h
    obtain ⟨hn', hlist'⟩ := h'
    have h1 := hI.heap.chain.freeNode hlist
    have h2 := hI.heap.chain.freeNode hlist'
    rw [← hn] at h1
    rw [← hn'] at h2
    have hlt := (List.getElem?_eq_some_iff.mp h1).1
    rw [(List.getElem?_inj hlt hI.heap.nodup).mp (h1.trans h2.symm)]
  case kstack.kstack => rw [heq]
  case dir.dir => rw [heq]
  case table.table => rw [heq.1, heq.2]
  case user.user => rw [heq.1, heq.2]

theorem run (hI : OwnedBy L w F own sp) {m : Mem} (hop : w.Allowed L (.run m)) :
    Owned L { w with phys := { w.phys with mem := m } } := by
  refine ⟨F, own, sp, hI.scribble rfl fun x hx => hop x (hI.heap.pages _ ?_) (fun i hr => ?_)
    fun s v hr => ?_⟩
  · rcases hx with hx | ⟨s, hx⟩ | ⟨s, i, hx⟩ <;> simp [hx]
  · have := hI.own_of_role hr
    rcases hx with hx | ⟨s, hx⟩ | ⟨s, i, hx⟩ <;> simp [hx, World.Role.tag] at this
  · have := hI.own_of_role hr
    rcases hx with hx | ⟨s, hx⟩ | ⟨s, i, hx⟩ <;> simp [hx, World.Role.tag] at this

end OwnedBy

/-! ## Runs -/

/-- **Every call** keeps the record of owners, and stops in no other way than `Halts`. -/
theorem Owned.exec (h : Owned L w) {op : Op} (hop : w.Allowed L op) :
    Outcome Halts (Owned L) (w.exec L op) := by
  obtain ⟨F, own, sp, hI⟩ := h
  cases op with
  | palloc i => exact hI.palloc hop
  | pfree i => exact hI.pfree
  | setupkvm => exact hI.setupkvm
  | inituvm s start size => exact hI.inituvm hop
  | allocuvm s new => exact hI.allocuvm
  | deallocuvm s new => exact hI.deallocuvm hop
  | ustack s => exact hI.ustack
  | copyuvm s => exact hI.copyuvm
  | freevm s => exact hI.freevm hop
  | setpgdir i s => exact hI.setpgdir hop
  | run m => exact outcome_ok.mpr (hI.run hop)

/-- `kinit` ends, and every page it has freed is on the free list. -/
theorem exists_boot (L : Layout) (m : Mem) : ∃ w F, boot L m = .ok w ∧
    OwnedBy L w F (Heap.upTo L MEMSIZE) (fun _ => .empty 0) ∧ (∀ s, w.space s = none) ∧
    (∀ i, w.proc i = none) ∧ w.next = 0 ∧ w.phys.handed = [] ∧
    F.length = (MEMSIZE - L.kernel_end) / 4096 := by
  obtain ⟨_, σ, hkinit, F, hheap, hlen, hhanded, -⟩ :=
    wp_total.mp (@Heap.wp_kinit L ⟨m, 0, []⟩ _ rfl)
  refine ⟨⟨σ, fun _ => none, fun _ => none, 0⟩, F, ?_, ⟨hheap, by simp, by simp, ?_, by simp, by simp⟩,
    fun _ => rfl, fun _ => rfl, rfl, hhanded, hlen⟩
  · simp only [boot, hkinit]
    rfl
  · exact fun s _ => ⟨rfl, fun p => Heap.not_of_upTo p s⟩

/-- Every state that is reached from `kinit` by calls as their callers make them. -/
theorem owned_of_path {m : Mem} {w₀ : World} (h0 : boot L m = .ok w₀)
    (h : (vmMachine L).Path (World.Allowed L) w₀ w) : Owned L w := by
  refine h.invariant ?_ fun w op w' hI hop hstep => ?_
  · obtain ⟨w₁, F, h1, hI, -⟩ := exists_boot L m
    obtain rfl : w₁ = w₀ := by simpa using h1.symm.trans h0
    exact ⟨F, _, _, hI⟩
  · have hout := hI.exec hop
    simp only [vmMachine] at hstep
    rcases hexec : w.exec L op with e | w₁
    · simp [hexec, Except.toOption] at hstep
    · obtain rfl : w₁ = w' := by simpa [hexec, Except.toOption] using hstep
      rw [hexec] at hout
      exact outcome_ok.mp hout

end Mixv6.Mm
