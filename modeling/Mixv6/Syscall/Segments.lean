import Mixv6.Mm.Contents
import Mixv6.Syscall.Execv

/-!
# The segments of a program

The loop of `sys_execv` over the program headers, for a file whose segments lie at or above
`KERNEND`.  No turn of it panics, whatever else is in the headers; the pages of the new address
space reach from `KERNEND` to the end of the highest segment, without a hole; and their bytes are
those of the segments, laid over each other in the order of the headers.

## Main definitions

* `Elfhdr.AtUser`, `Elfhdr.Safe` — where the segments lie.
* `Proghdr.apply`, `Elfhdr.image` — one segment, and all of them.
* `Elfhdr.top` — where they end.
* `Laid` — an address space with some image.
* `wp_segments` — the loop.
-/

namespace Mixv6.Syscall.User

open Mixv6.Lib
open Mixv6.Mm (KERNEND USEREND PAGESIZE present loopFuel Phys Ghost Tag Space Vm Frame)

/-! ## What the file says -/

/-- Program header `j`, unless the file ends before it does. -/
def Elfhdr.phdr (elf : Elfhdr) (f : Mm.File) (j : ℕ) : Option Proghdr :=
  (readHeader f ((elf.phoff + Proghdr.size * j) % 2 ^ 32) Proghdr.size).map Proghdr.ofBytes

/-- The segments to be loaded lie at or above `KERNEND`. -/
def Elfhdr.AtUser (elf : Elfhdr) (f : Mm.File) : Prop :=
  ∀ j < elf.phnum, ∀ ph, elf.phdr f j = some ph → ph.type = ELF_PROG_LOAD → KERNEND ≤ ph.vaddr

/-- A segment passes the tests of the loop. -/
def Proghdr.Passes (ph : Proghdr) : Prop :=
  ph.filesz ≤ ph.memsz ∧ ph.vaddr + ph.memsz < USEREND ∧ ph.vaddr % PAGESIZE = 0

/-- The segments that the loop comes to, and that pass its tests, lie there unless they are empty. -/
def Elfhdr.Safe (elf : Elfhdr) (f : Mm.File) : Prop :=
  ∀ j < elf.phnum, (∀ i < j, ∃ ph, elf.phdr f i = some ph ∧ (ph.type = ELF_PROG_LOAD → ph.Passes)) →
    ∀ ph, elf.phdr f j = some ph → ph.type = ELF_PROG_LOAD → ph.Passes → 0 < ph.memsz → KERNEND ≤ ph.vaddr

/-- A segment over an image: the bytes `c` of the file, and zeros behind them. -/
def Proghdr.apply (ph : Proghdr) (c img : ℕ → UInt8) : ℕ → UInt8 := fun a =>
  if ph.vaddr ≤ a ∧ a < ph.vaddr + ph.filesz then c (ph.off + (a - ph.vaddr))
  else if ph.vaddr + ph.filesz ≤ a ∧ a < ph.vaddr + ph.memsz then 0
  else img a

/-- The segments of the first `n` program headers over zeros, in this order. -/
def Elfhdr.image (elf : Elfhdr) (f : Mm.File) (c : ℕ → UInt8) : ℕ → ℕ → UInt8
  | 0 => fun _ => 0
  | n + 1 =>
      match elf.phdr f n with
      | none => elf.image f c n
      | some ph =>
          if ph.type = ELF_PROG_LOAD then ph.apply c (elf.image f c n) else elf.image f c n

/-- The end of the highest of the first `n` segments. -/
def Elfhdr.top (elf : Elfhdr) (f : Mm.File) : ℕ → ℕ
  | 0 => KERNEND
  | n + 1 =>
      match elf.phdr f n with
      | none => elf.top f n
      | some ph =>
          if ph.type = ELF_PROG_LOAD then max (elf.top f n) (ph.vaddr + ph.memsz) else elf.top f n

theorem half_lt (bs : List UInt8) (i : ℕ) : half bs i < 2 ^ 16 := by
  have h0 := (bs.getD i 0).toNat_lt
  have h1 := (bs.getD (i + 1) 0).toNat_lt
  simp only [half]
  omega

theorem word_lt (bs : List UInt8) (i : ℕ) : word bs i < 2 ^ 32 := by
  have h0 := half_lt bs i
  have h1 := half_lt bs (i + 2)
  simp only [word]
  omega

variable {elf : Elfhdr} {f : Mm.File} {ph : Proghdr} {c : ℕ → UInt8} {a n j : ℕ}

/-- The fields of a program header are words. -/
theorem Elfhdr.phdr_lt (h : elf.phdr f j = some ph) : ph.off < 2 ^ 32 ∧ ph.vaddr < 2 ^ 32 ∧
    ph.filesz < 2 ^ 32 ∧ ph.memsz < 2 ^ 32 := by
  obtain ⟨bs, -, rfl⟩ := Option.map_eq_some_iff.mp h
  exact ⟨word_lt .., word_lt .., word_lt .., word_lt ..⟩

/-- Outside of the segments there are zeros. -/
theorem Elfhdr.image_zero (h : ∀ j < n, ∀ ph, elf.phdr f j = some ph → ph.type = ELF_PROG_LOAD →
    ph.filesz ≤ ph.memsz ∧ ph.vaddr + ph.memsz ≤ a) : elf.image f c n a = 0 := by
  induction n with
  | zero => rfl
  | succ n ih =>
      have hbelow := ih fun j hj => h j (by omega)
      rcases hph : elf.phdr f n with _ | ph
      · simpa only [Elfhdr.image, hph] using hbelow
      · by_cases hload : ph.type = ELF_PROG_LOAD
        · obtain ⟨hsizes, hend⟩ := h n (by omega) ph hph hload
          simp only [Elfhdr.image, hph, if_pos hload]
          rw [Proghdr.apply, if_neg (by omega), if_neg (by omega)]
          exact hbelow
        · simpa only [Elfhdr.image, hph, if_neg hload] using hbelow

theorem Elfhdr.AtUser.safe (h : elf.AtUser f) : elf.Safe f :=
  fun j hj _ ph hph hload _ _ => h j hj ph hph hload

/-- An empty segment. -/
theorem Proghdr.apply_empty (hmem : ph.memsz = 0) (hfile : ph.filesz = 0) (img : ℕ → UInt8) :
    ph.apply c img = img := by
  funext a
  rw [Proghdr.apply, if_neg (by omega), if_neg (by omega)]

/-! ## The address space during the loop -/

/-- Address space `s` has the pages from `KERNEND` up to `va`, all of them open to the user; where
the file has the bytes `c`, theirs are `img c`. -/
structure Laid (L : Mm.Layout) (s : ℕ) (σ : Phys) (own : ℕ → Tag) (f : Mm.File)
    (img : (ℕ → UInt8) → ℕ → UInt8) (va : ℕ) (σ' : Phys) (g : Ghost) : Prop where
  vm : Vm L s σ' g
  frame : Frame s σ own σ' g.own
  based : Mm.Based L g.sp
  low : KERNEND ≤ va
  high : va < USEREND
  filled : g.sp.Filled va
  flags : ∀ v, 0x40000 ≤ v → present (g.sp.pte v) → Mm.PTE_FLAGS (g.sp.pte v) = 7
  byte : ∀ c, f.Holds c → ∀ a, g.sp.Has a → g.sp.byte σ'.mem a = img c a

variable {L : Mm.Layout} {s va new : ℕ} {σ σ₁ σ₂ : Phys} {g g₁ : Ghost} {own : ℕ → Tag}
  {img img' : (ℕ → UInt8) → ℕ → UInt8} {E : Mm.Panic → Prop}

namespace Laid

/-- Nothing is loaded yet. -/
theorem made {F : List ℕ} (hm : Mm.Made L s σ F own σ₁ g) (f : Mm.File) :
    Laid L s σ own f (fun _ _ => 0) KERNEND σ₁ g where
  vm := hm.vm
  frame := hm.frame
  based := hm.based
  low := le_refl _
  high := by decide
  filled := hm.filled
  flags v hv hp := by
    have hlt := (hm.filled v hv).mp hp
    simp only [KERNEND] at hlt
    omega
  byte c _ a ha := by
    have hlt := (hm.filled _ ha.1).mp ha.2
    have hlow := ha.1
    simp only [KERNEND] at hlt
    omega

/-- More pages. -/
theorem grow (hl : Laid L s σ own f img va σ₁ g) (hnew : va ≤ new) (hlt : new < USEREND)
    (hzero : ∀ c, f.Holds c → ∀ a, va ≤ a → img c a = 0) (h' : Vm L s σ₂ g₁)
    (hg : Mm.Grown s ((va + 4095) / 4096) ((new + 4095) / 4096) σ₁ g σ₂ g₁) :
    Laid L s σ own f img new σ₂ g₁ := by
  have hlow := hl.low
  simp only [KERNEND] at hlow
  have hlt' := hlt
  simp only [USEREND] at hlt'
  have hkept := hg.kept (by omega) (by omega)
  refine ⟨h', hl.frame.trans hg.frame, hkept.based hl.based, by simp only [KERNEND]; omega, hlt,
    hg.filled hl.filled hnew, ?_, ?_⟩
  · intro v hv hp
    by_cases hin : (va + 4095) / 4096 ≤ v ∧ v < (new + 4095) / 4096
    · exact (hg.inside v hin.1 hin.2).2
    · rw [hg.outside v (by omega)] at hp ⊢
      exact hl.flags v hv hp
  · intro c hc a ha
    have hin := ((hg.filled hl.filled hnew) _ ha.1).mp ha.2
    by_cases hold : a / 4096 < (va + 4095) / 4096
    · have ha' : g.sp.Has a := ⟨ha.1, by rw [← hg.outside _ (.inl hold)]; exact ha.2⟩
      rw [hg.byte_old hl.vm ha' hold]
      exact hl.byte c hc a ha'
    · rw [hg.byte_new h' (by omega) (by omega) (by omega), hzero c hc a (by omega)]

/-- Other bytes. -/
theorem write (hl : Laid L s σ own f img va σ₁ g) {at' m : ℕ} {val : ℕ → UInt8}
    (hw : Mm.Written L s at' val m σ₁ g σ₂)
    (himg : ∀ c, f.Holds c → ∀ a, img' c a =
      if at' ≤ a ∧ a < at' + m then val (a - at') else img c a) :
    Laid L s σ own f img' va σ₂ g where
  vm := hw.vm
  frame := hl.frame.trans hw.kept.frame
  based := hl.based
  low := hl.low
  high := hl.high
  filled := hl.filled
  flags := hl.flags
  byte c hc a ha := by
    rw [hw.byte a ha, himg c hc a, hl.byte c hc a ha]

end Laid

/-! ## The loop -/

/-- The first `i` program headers have been followed. -/
structure Segmented (L : Mm.Layout) (s : ℕ) (σ : Phys) (own : ℕ → Tag) (f : Mm.File) (elf : Elfhdr)
    (i va : ℕ) (σ' : Phys) (g : Ghost) : Prop where
  laid : Laid L s σ own f (fun c => elf.image f c i) va σ' g
  top : va = elf.top f i
  headers : ∀ j < i, ∃ ph, elf.phdr f j = some ph ∧ (ph.type = ELF_PROG_LOAD → ph.Passes)
  ends : ∀ j < i, ∀ ph, elf.phdr f j = some ph → ph.type = ELF_PROG_LOAD →
    ph.filesz ≤ ph.memsz ∧ ph.vaddr + ph.memsz ≤ va

/-- What is left when the loop goes to `bad`. -/
def Left (L : Mm.Layout) (s : ℕ) (σ : Phys) (own : ℕ → Tag) (dir : ℕ) (σ' : Phys) : Prop :=
  ∃ g, g.sp.dir = dir ∧ Vm L s σ' g ∧ Frame s σ own σ' g.own

/-- `allocuvm` for a segment that ends at `new`. -/
theorem Laid.wp_allocuvm (hl : Laid L s σ own f img va σ₁ g)
    (hzero : ∀ c, f.Holds c → ∀ a, va ≤ a → img c a = 0) :
    wp E (Mm.allocuvm L g.sp.dir va new) (fun r σ₂ =>
      r = 0 ∧ Left L s σ own g.sp.dir σ₂ ∨
      r ≠ 0 ∧ r = max va new ∧ ∃ g₁, g₁.sp.dir = g.sp.dir ∧ Laid L s σ own f img r σ₂ g₁) σ₁ := by
  have hlow := hl.low
  have hbase : 0 < KERNEND := by decide
  refine wp_mono (Mm.wp_allocuvm hl.vm hlow ?_) ?_
  · intro v h1 h2
    simp only [KERNEND] at hlow
    rw [hl.filled v (by omega)]
    omega
  · rintro r σ₂ (⟨_, rfl, rfl⟩ | ⟨hnew, _, rfl, rfl⟩ | ⟨hnew, hlt, rfl, g₁, h₁, hg⟩ |
      ⟨_, _, rfl, g₁, h₁, hs⟩)
    · exact .inl ⟨rfl, g, rfl, hl.vm, hl.frame⟩
    · exact .inr ⟨by omega, (max_eq_left hnew.le).symm, g, rfl, hl⟩
    · exact .inr ⟨by omega, (max_eq_right hnew).symm, g₁, hg.grow.dir, hl.grow hnew hlt hzero h₁ hg⟩
    · exact .inl ⟨rfl, g₁, hs.grow.dir, h₁, hl.frame.trans hs.frame⟩

/-- `loaduvm` and `copyout` for a segment, one after the other. -/
theorem Laid.applied (hl : Laid L s σ own f img va σ₁ g) {val : ℕ → UInt8}
    (hw : Mm.Written L s ph.vaddr val ph.filesz σ₁ g σ₂)
    (hval : ∀ c, f.Holds c → ∀ k < ph.filesz, val k = c (ph.off + k)) {σ₃ : Phys}
    (hz : Mm.Written L s (ph.vaddr + ph.filesz) (Mm.outByte none) (ph.memsz - ph.filesz) σ₂ g σ₃)
    (hsizes : ph.filesz ≤ ph.memsz) :
    Laid L s σ own f (fun c => ph.apply c (img c)) va σ₃ g := by
  have hloaded : Laid L s σ own f (fun c a => if ph.vaddr ≤ a ∧ a < ph.vaddr + ph.filesz
      then c (ph.off + (a - ph.vaddr)) else img c a) va σ₂ g := by
    apply hl.write hw
    intro c hc a
    split
    next hin => rw [hval c hc _ (by omega)]
    next => rfl
  apply hloaded.write hz
  intro c _ a
  have hend : ph.vaddr + ph.filesz + (ph.memsz - ph.filesz) = ph.vaddr + ph.memsz := by omega
  rw [hend, Proghdr.apply]
  by_cases hfile : ph.vaddr ≤ a ∧ a < ph.vaddr + ph.filesz
  · rw [if_pos hfile, if_neg (by omega), if_pos hfile]
  · rw [if_neg hfile, if_neg hfile]
    rfl

/-- Nothing is read for an empty segment, wherever it lies. -/
theorem wp_loaduvm_empty {dir off : ℕ} (halign : va % PAGESIZE = 0) {Q : Int → Phys → Prop} (hQ : Q 0 σ) :
    wp E (Mm.loaduvm dir va f off 0) Q σ := by
  simp only [Mm.loaduvm, halign, ne_eq, not_true_eq_false, if_false]
  apply wp_iterate (fun i σ' => i = 0 ∧ σ' = σ) (fun _ => 0)
  · rintro _ _ ⟨rfl, rfl⟩
    simpa using hQ
  · exact ⟨rfl, rfl⟩
  · simp only [loopFuel]
    omega

/-- And nothing is filled. -/
theorem wp_copyout_empty {dir : ℕ} {src : Option (ℕ → UInt8)} {Q : Unit → Phys → Prop} (hQ : Q () σ) :
    wp E (Mm.copyout dir va src 0) Q σ := by
  rw [Mm.copyout]
  apply wp_iterate (fun a σ' => a = (va, 0, 0) ∧ σ' = σ) (fun _ => 0)
  · rintro _ _ ⟨rfl, rfl⟩
    simpa using hQ
  · exact ⟨rfl, rfl⟩
  · simp only [loopFuel]
    omega

namespace Segmented
variable {i : ℕ}

/-- The image is zero above the segments. -/
theorem zero (h : Segmented L s σ own f elf i va σ₁ g) {c : ℕ → UInt8} (ha : va ≤ a) :
    elf.image f c i a = 0 := by
  apply Elfhdr.image_zero
  intro j hj ph hph hload
  obtain ⟨hsizes, hend⟩ := h.ends j hj ph hph hload
  exact ⟨hsizes, by omega⟩

/-- A header of another type. -/
theorem skip (h : Segmented L s σ own f elf i va σ₁ g) (hph : elf.phdr f i = some ph)
    (hload : ph.type ≠ ELF_PROG_LOAD) : Segmented L s σ own f elf (i + 1) va σ₁ g where
  laid := by
    have himage : (fun c => elf.image f c (i + 1)) = fun c => elf.image f c i := by
      funext c
      simp only [Elfhdr.image, hph, if_neg hload]
    rw [himage]
    exact h.laid
  top := by simpa only [Elfhdr.top, hph, if_neg hload] using h.top
  headers j hj := by
    by_cases hji : j = i
    · exact ⟨ph, hji ▸ hph, fun hload' => absurd hload' hload⟩
    · exact h.headers j (by omega)
  ends j hj ph' hph' hload' := by
    by_cases hji : j = i
    · rw [hji, hph] at hph'
      cases hph'
      exact absurd hload' hload
    · exact h.ends j (by omega) ph' hph' hload'

/-- A segment has been loaded. -/
theorem load (h : Segmented L s σ own f elf i va σ₁ g) (hph : elf.phdr f i = some ph)
    (hload : ph.type = ELF_PROG_LOAD) (hpass : ph.Passes)
    (hnew : new = max va (ph.vaddr + ph.memsz))
    (hl : Laid L s σ own f (fun c => ph.apply c (elf.image f c i)) new σ₂ g₁) :
    Segmented L s σ own f elf (i + 1) new σ₂ g₁ where
  laid := by
    have himage : (fun c => elf.image f c (i + 1)) = fun c => ph.apply c (elf.image f c i) := by
      funext c
      simp only [Elfhdr.image, hph, if_pos hload]
    rw [himage]
    exact hl
  top := by simp only [hnew, h.top, Elfhdr.top, hph, if_pos hload]
  headers j hj := by
    by_cases hji : j = i
    · exact ⟨ph, hji ▸ hph, fun _ => hpass⟩
    · exact h.headers j (by omega)
  ends j hj ph' hph' hload' := by
    by_cases hji : j = i
    · rw [hji, hph] at hph'
      cases hph'
      exact ⟨hpass.1, hnew ▸ le_max_right ..⟩
    · obtain ⟨h1, h2⟩ := h.ends j (by omega) ph' hph' hload'
      exact ⟨h1, by omega⟩

end Segmented

/-- What the loop ends with. -/
def LoopEnds (L : Mm.Layout) (s : ℕ) (σ : Phys) (own : ℕ → Tag) (f : Mm.File) (elf : Elfhdr)
    (dir : ℕ) (r : Option ℕ) (σ' : Phys) : Prop :=
  match r with
  | none => Left L s σ own dir σ'
  | some va => ∃ g, g.sp.dir = dir ∧ Segmented L s σ own f elf elf.phnum va σ' g

/-- A turn of the loop. -/
theorem Segmented.wp_turn {i dir : ℕ} (h : Segmented L s σ own f elf i va σ₁ g) (hdir : g.sp.dir = dir)
    (hsafe : elf.Safe f) (hi : i ≤ elf.phnum) :
    wp E (segmentTurn L dir f elf (i, va)) (fun r σ₂ => match r with
      | .inl (i', va') => i < elf.phnum ∧ i' = i + 1 ∧
          ∃ g₂, g₂.sp.dir = dir ∧ Segmented L s σ own f elf i' va' σ₂ g₂
      | .inr r => LoopEnds L s σ own f elf dir r σ₂) σ₁ := by
  have hleft : LoopEnds L s σ own f elf dir none σ₁ := ⟨g, hdir, h.laid.vm, h.laid.frame⟩
  simp only [segmentTurn, wp_ite, wp_pure]
  split
  next hdone =>
    obtain rfl : i = elf.phnum := by omega
    exact ⟨g, hdir, h⟩
  next hmore =>
  rw [not_not] at hmore
  split
  next => exact wp_pure.mpr hleft
  next bs hbs =>
  have hph : elf.phdr f i = some (Proghdr.ofBytes bs) := by simp only [Elfhdr.phdr, hbs, Option.map_some]
  generalize Proghdr.ofBytes bs = ph at *
  obtain ⟨hoff, hvaddr, hfilesz, hmemsz⟩ := Elfhdr.phdr_lt hph
  simp only [wp_ite, wp_pure]
  split
  next hskip => exact ⟨hmore, trivial, g, hdir, h.skip hph hskip⟩
  next hload =>
  rw [not_not] at hload
  split
  next => exact hleft
  next hsizes =>
  rw [Nat.not_lt] at hsizes
  split
  next => exact hleft
  next hwrap =>
  have hend : (ph.vaddr + ph.memsz) % 2 ^ 32 = ph.vaddr + ph.memsz := by omega
  rw [hend]
  have hgrow : wp E (Mm.allocuvm L g.sp.dir va (ph.vaddr + ph.memsz)) _ σ₁ :=
    h.laid.wp_allocuvm fun c _ a ha => h.zero ha
  rw [hdir] at hgrow
  apply wp_seq hgrow
  rintro va' σ₂ (⟨rfl, hout⟩ | ⟨hne, hnew, g₂, hdir₂, hl⟩)
  · simp only [if_true, wp_pure]
    exact hout
  · simp only [hne, ↓reduceIte, wp_ite, wp_pure]
    split
    next => exact ⟨g₂, hdir₂, hl.vm, hl.frame⟩
    next haligned =>
    rw [not_not] at haligned
    have hhigh := hl.high
    have hpass : ph.Passes := ⟨hsizes, by omega, haligned⟩
    by_cases hempty : ph.memsz = 0
    · have hnone : ph.filesz = 0 := by omega
      simp only [hempty, hnone]
      apply wp_bind.mpr
      apply wp_loaduvm_empty haligned
      simp only [lt_irrefl, ↓reduceIte]
      apply wp_bind.mpr
      apply wp_copyout_empty
      rw [wp_pure]
      have himage : (fun c => ph.apply c (elf.image f c i)) = fun c => elf.image f c i :=
        funext fun c => Proghdr.apply_empty hempty hnone _
      exact ⟨hmore, rfl, g₂, hdir₂, h.load hph hload hpass hnew (himage ▸ hl)⟩
    have hlow := hsafe i hmore h.headers ph hph hload hpass (by omega)
    have hpages : ∀ v, ph.vaddr / 4096 ≤ v → 4096 * v < va' → present (g₂.sp.pte v) := by
      intro v h1 h2
      simp only [KERNEND] at hlow
      exact (hl.filled v (by omega)).mpr h2
    have hloaduvm : wp E (Mm.loaduvm g₂.sp.dir ph.vaddr f ph.off ph.filesz) _ σ₂ :=
      Mm.wp_loaduvm hl.vm haligned hlow (by omega) hoff fun v h1 h2 => hpages v h1 (by omega)
    rw [hdir₂] at hloaduvm
    apply wp_seq hloaduvm
    rintro r σ₃ (⟨rfl, val, hw, hval⟩ | ⟨rfl, -, hvm, hkept⟩)
    · have hzeros : wp E (Mm.copyout g₂.sp.dir (ph.vaddr + ph.filesz) none
          (ph.memsz - ph.filesz)) _ σ₃ :=
        Mm.wp_copyout hw.vm (by omega) (by omega) fun v h1 h2 => hpages v (by omega) (by omega)
      rw [hdir₂] at hzeros
      have hstart : (ph.vaddr + ph.filesz) % 2 ^ 32 = ph.vaddr + ph.filesz := by omega
      simp only [lt_irrefl, ↓reduceIte, hstart]
      apply wp_seq hzeros
      intro _ σ₄ hz
      rw [wp_pure]
      exact ⟨hmore, rfl, g₂, hdir₂, h.load hph hload hpass hnew (hl.applied hw hval hz hsizes)⟩
    · rw [if_pos (by decide), wp_pure]
      exact ⟨g₂, hdir₂, hvm, hl.frame.trans hkept.frame⟩

/-- **The loop over the program headers.** -/
theorem wp_segments {dir : ℕ} (hl : Laid L s σ own f (fun _ _ => 0) KERNEND σ₁ g)
    (hdir : g.sp.dir = dir) (hsafe : elf.Safe f) (hnum : elf.phnum < 2 ^ 16) :
    wp E (iterate .hang (segmentTurn L dir f elf) loopFuel (0, KERNEND))
      (LoopEnds L s σ own f elf dir) σ₁ := by
  apply wp_iterate (fun a σ' => a.1 ≤ elf.phnum ∧
    ∃ g', g'.sp.dir = dir ∧ Segmented L s σ own f elf a.1 a.2 σ' g') (fun a => elf.phnum - a.1)
  · rintro ⟨i, va⟩ σ' ⟨hi, g', hdir', h⟩
    refine wp_mono (h.wp_turn hdir' hsafe hi) ?_
    rintro (⟨i', va'⟩ | r) σ'' hr
    · obtain ⟨hlt, rfl, g'', hdir'', h'⟩ := hr
      exact ⟨⟨hlt, g'', hdir'', h'⟩, by simp only; omega⟩
    · exact hr
  · exact ⟨Nat.zero_le _, g, hdir, hl, rfl, fun j hj => absurd hj (Nat.not_lt_zero j),
      fun j hj => absurd hj (Nat.not_lt_zero j)⟩
  · simp only [loopFuel]
    omega

end Mixv6.Syscall.User
