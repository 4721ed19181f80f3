import Mixv6.Fs.Request

/-!
# What `bread` returns

A buffer that `bread(n)` has returned is for sector `n`, is valid and has the sector's
data, as long as its holder keeps it and nobody writes.  The exception is the early
return of `bread`, which takes a reference count above one for a sign that the buffer
has been read; the read may still be in flight, or not even have been started.

## Main definitions

* `ReadsValid` — the buffers that `bread` has returned.
* `SafeRead`, `reads_valid` — they are valid in every run in which `bread` returns early
  with valid buffers only.
-/

namespace Mixv6.Fs

open Mixv6.Lib Mixv6.Kernel

variable {P D : Type}

/-- Every buffer that a `bread(n)` has returned, and that has not been given back, holds
the data of sector `n`. -/
def ReadsValid (s : IoSt P D) : Prop :=
  ∀ p n i, (n, i) ∈ s.held p →
    (s.blocks i).blockno = n ∧ (s.blocks i).valid ∧ (s.blocks i).data = s.sectors n

/-- Nobody writes: the processes call `bread` and `brelse` only. -/
def Bio.reading : Bio D → Bool
  | .fill .. | .bwrite .. => false
  | _ => true

/-- The early return of `bread` by a process at `pc` returns a valid buffer. -/
def EarlyValid (s : IoSt P D) : IoPc → Prop
  | .test _ i => (s.blocks i).refcnt > 1 → (s.blocks i).valid = true
  | _ => True

instance (s : IoSt P D) : ∀ pc, Decidable (EarlyValid s pc)
  | .test .. => inferInstanceAs (Decidable (_ → _))
  | .idle | .bget _ | .io .. => .isTrue trivial

/-- Nobody writes, `bread` returns early with valid buffers only, no reference count
overflows, `idelock` works and the drive interrupts only a sleeping requester. -/
def SafeRead (s : Cpu P (IoSt P D)) : CpuEvent P (Bio D) → Prop
  | .exec call => call.reading ∧ EarlyValid s.st (s.st.pc s.cur) ∧
      SafeRef s.st (s.st.pc s.cur) ∧ SafeIde s.st s.cur (s.st.pc s.cur)
  | .switch _ => True
  | .intr => SafeIntr s.st

instance [DecidableEq P] (s : Cpu P (IoSt P D)) :
    ∀ e : CpuEvent P (Bio D), Decidable (SafeRead s e)
  | .exec _ => inferInstanceAs (Decidable (_ ∧ _ ∧ _ ∧ _))
  | .switch _ => .isTrue trivial
  | .intr => inferInstanceAs (Decidable (∀ r ∈ s.st.disk, _))

/-- `bread` past the point where its buffer is valid. -/
def Stage.done : Stage → Bool
  | .ideRel _ | .rel _ => true
  | _ => false

/-- What holds of the buffers while nobody writes. -/
structure ReadInv (s : IoSt P D) : Prop where
  clean : ∀ i, (s.blocks i).dirty = false
  tests : ∀ p n i, s.pc p = .test n i → (s.blocks i).blockno = n
  reads : ∀ p op i st, s.pc p = .io op i st → op = .read (s.blocks i).blockno
  /-- At most one process is between `acquire` and `release` of a buffer. -/
  region : ∀ p q op op' i st st', s.pc p = .io op i st → s.pc q = .io op' i st' → p = q
  done : ∀ p op i st, s.pc p = .io op i st → st.done → (s.blocks i).valid = true
  held : ∀ p n i, (n, i) ∈ s.held p → (s.blocks i).blockno = n ∧ (s.blocks i).valid = true
  data : ∀ i, (s.blocks i).valid = true → (s.blocks i).data = s.sectors (s.blocks i).blockno
  request : ∀ r ∈ s.disk, r.data = none ∧ r.blockno = (s.blocks r.buf).blockno

theorem ReadInv.readsValid {s : IoSt P D} (h : ReadInv s) : ReadsValid s := by
  intro p n i hi
  obtain ⟨hn, hv⟩ := h.held p n i hi
  exact ⟨hn, hv, hn ▸ h.data i hv⟩

section Contents
variable {p : P} {s s' : IoSt P D}

/-- Without a second process in the region of a buffer its lock is never overtaken. -/
theorem safeBlk_of_region (hlocks : LockPhases s) (hinv : ReadInv s) :
    SafeBlk s p (s.pc p) := by
  -- A locked lock would have an owner in the region.
  have hfree : ∀ op i st, s.pc p = .io op i st → st.blk = .out → (s.blocks i).lock.locked = 0 := by
    intro op i st hpc hst
    by_contra hlocked
    obtain ⟨q, hq⟩ := (hlocks.blk i).owned hlocked
    rcases hqpc : s.pc q with _ | n | ⟨n, j⟩ | ⟨op', j, st'⟩
    case io =>
      by_cases hji : j = i
      · subst hji
        obtain rfl := hinv.region p q op op' j st st' hpc hqpc
        simp [hpc, IoPc.blkPhase, hst] at hq
      · simp [hqpc, IoPc.blkPhase, hji] at hq
    all_goals simp [hqpc, IoPc.blkPhase] at hq
  rcases hpc : s.pc p with _ | n | ⟨n, i⟩ | ⟨op, i, st⟩
  case io =>
    cases st with
    | acq a => rintro rfl; exact hfree op i _ hpc rfl
    | rel r => rintro rfl; exact .inl (hfree op i _ hpc rfl)
    | _ => trivial
  all_goals trivial

variable [DecidableEq P]

/-- What a statement does to the contents of a buffer: nothing, or `bget` takes it for
another sector. -/
theorem contents_move (hinv : ReadInv s) (h : IoMove p s s') (hidle : s.pc p ≠ .idle) (i : Buf) :
    ((s'.blocks i).blockno = (s.blocks i).blockno ∧ (s'.blocks i).valid = (s.blocks i).valid ∧
        (s'.blocks i).dirty = (s.blocks i).dirty ∧ (s'.blocks i).data = (s.blocks i).data) ∨
      (s.blocks i).refcnt = 0 ∧ (s'.blocks i).valid = false ∧ (s'.blocks i).dirty = false := by
  have hsame : ∀ j (b : Block P D), b.blockno = (s.blocks j).blockno →
      b.valid = (s.blocks j).valid → b.dirty = (s.blocks j).dirty →
      b.data = (s.blocks j).data → (Function.update s.blocks j b i).blockno = (s.blocks i).blockno ∧
        (Function.update s.blocks j b i).valid = (s.blocks i).valid ∧
        (Function.update s.blocks j b i).dirty = (s.blocks i).dirty ∧
        (Function.update s.blocks j b i).data = (s.blocks i).data :=
    fun j b h1 h2 h3 h4 => ⟨update_same Block.blockno h1 i, update_same Block.valid h2 i,
      update_same Block.dirty h3 i, update_same Block.data h4 i⟩
  cases h with
  | bread n hpc | bwrite n j hpc _ | brelse n j hpc _ | fill n j d hpc _ => exact absurd hpc hidle
  | miss n j hpc hz hd =>
      by_cases hij : i = j
      · subst hij; exact .inr ⟨hz, by simp⟩
      · exact .inl (by simp [hij])
  | setDirty j hpc => cases hinv.reads p _ j _ hpc
  | send op j t hpc ht =>
      simp only [IoSt.sendreq, Option.ite_none_left_eq_some, Option.some.injEq, not_or,
        Nat.not_le] at ht
      obtain ⟨⟨-, hlt⟩, rfl⟩ := ht
      refine .inl (hsame j _ (Nat.mod_eq_of_lt (Nat.lt_trans hlt (by decide))) rfl rfl rfl)
  | hit n j _ _ _ | acq op' j _ _ _ _ _ _ | rel op' j _ _ _ _ _ _ | readDone n j _ _ _ _ _
  | writeDone j _ _ _ _ _ => exact .inl (hsame j _ rfl rfl rfl rfl)
  | _ => exact .inl ⟨rfl, rfl, rfl, rfl⟩

/-- A process between `acquire` and `release` was there before, or has found itself to be
the only one with a reference. -/
theorem io_of_move (h : IoMove p s s') (hidle : s.pc p ≠ .idle) {op : Op} {i : Buf} {st' : Stage}
    (hpc' : s'.pc p = .io op i st') : (∃ st, s.pc p = .io op i st) ∨
      ∃ n, s.pc p = .test n i ∧ op = .read n ∧ (s.blocks i).refcnt ≤ 1 := by
  cases h with
  | bread n hpc | bwrite n j hpc _ | brelse n j hpc _ | fill n j d hpc _ => exact absurd hpc hidle
  | enter n j hpc hle =>
      obtain ⟨rfl, rfl, -⟩ : Op.read n = op ∧ j = i ∧ _ := by simpa using hpc'
      exact .inr ⟨n, hpc, rfl, hle⟩
  | walk op' j st₁ st₂ hpc _ | acq op' j _ _ _ _ hpc _ | ideAcq op' j _ _ _ _ hpc _
  | send op' j _ hpc _ | sleep op' j hpc | ideRel op' j _ _ _ _ hpc _ | rel op' j _ _ _ _ hpc _ =>
      obtain ⟨rfl, rfl, -⟩ : op' = op ∧ j = i ∧ _ := by simpa using hpc'
      exact .inl ⟨_, hpc⟩
  | setDirty j hpc =>
      obtain ⟨rfl, rfl, -⟩ : Op.write = op ∧ j = i ∧ _ := by simpa using hpc'
      exact .inl ⟨_, hpc⟩
  | hit n j hpc _ _ | miss n j hpc _ _ | early n j hpc _ | readDone n j _ _ _ hpc _
  | writeDone j _ _ _ hpc _ => simp at hpc'

/-- A process past the read was there before, or has just seen that the buffer is valid. -/
theorem done_of_move (h : IoMove p s s') (hidle : s.pc p ≠ .idle) {op : Op} {i : Buf} {st' : Stage}
    (hpc' : s'.pc p = .io op i st') (hst' : st'.done) :
    (s.blocks i).valid = true ∨ ∃ st, s.pc p = .io op i st ∧ st.done := by
  cases h with
  | bread n hpc | bwrite n j hpc _ | brelse n j hpc _ | fill n j d hpc _ => exact absurd hpc hidle
  | walk op' j st₁ st₂ hpc hw =>
      obtain ⟨rfl, rfl, rfl⟩ : op' = op ∧ j = i ∧ st₂ = st' := by simpa using hpc'
      cases hw with
      | valid n hv => exact .inl hv
      | done _ hr =>
          simp only [Block.ready, Bool.and_eq_true] at hr
          exact .inl hr.1
      | _ => cases hst'
  | ideRel op' j _ _ _ _ hpc _ | rel op' j _ _ _ _ hpc _ =>
      obtain ⟨rfl, rfl, -⟩ : op' = op ∧ j = i ∧ _ := by simpa using hpc'
      exact .inr ⟨_, hpc, rfl⟩
  | acq op' j _ a' _ _ hpc _ | ideAcq op' j _ a' _ _ hpc _ =>
      cases a' <;> simp at hpc' <;> obtain ⟨-, -, rfl⟩ := hpc' <;> cases hst'
  | enter n j hpc _ | send op' j _ hpc _ | sleep op' j hpc | setDirty j hpc =>
      simp at hpc'
      obtain ⟨-, -, rfl⟩ := hpc'
      cases hst'
  | hit n j hpc _ _ | miss n j hpc _ _ | early n j hpc _ | readDone n j _ _ _ hpc _
  | writeDone j _ _ _ hpc _ => simp at hpc'

/-- A buffer that a process holds it held before, or `bread` has just returned it. -/
theorem held_of_move (h : IoMove p s s') (hidle : s.pc p ≠ .idle) {n : ℕ} {i : Buf}
    (hn : (n, i) ∈ s'.held p) : (n, i) ∈ s.held p ∨
      (s.pc p = .test n i ∧ (s.blocks i).refcnt > 1) ∨
      ∃ st, s.pc p = .io (.read n) i st ∧ st.done := by
  cases h with
  | brelse m j hpc _ => exact absurd hpc hidle
  | early m j hpc hgt =>
      rcases IoSt.mem_setHeld_cons hn with ⟨rfl, rfl⟩ | hold
      · exact .inr (.inl ⟨hpc, hgt⟩)
      · exact .inl hold
  | readDone m j r lock tab hpc hr =>
      rcases IoSt.mem_setHeld_cons hn with ⟨rfl, rfl⟩ | hold
      · exact .inr (.inr ⟨_, hpc, rfl⟩)
      · exact .inl hold
  | send op j t hpc ht =>
      simp only [IoSt.sendreq, Option.ite_none_left_eq_some, Option.some.injEq] at ht
      obtain ⟨-, rfl⟩ := ht
      exact .inl hn
  | _ => exact .inl hn

/-- A process at the test of `bread` has just come from `bget`. -/
theorem test_of_move (h : IoMove p s s') {n : ℕ} {i : Buf} (hpc' : s'.pc p = .test n i) :
    (s'.blocks i).blockno = n := by
  cases h with
  | hit m j hpc _ hn =>
      obtain ⟨rfl, rfl⟩ : m = n ∧ j = i := by simpa using hpc'
      simpa using hn
  | miss m j hpc _ _ =>
      obtain ⟨rfl, rfl⟩ : m = n ∧ j = i := by simpa using hpc'
      simp
  | _ => simp_all

/-- While nobody writes, `sendreq` sends a read command for the block of its buffer. -/
theorem request_of_send (hinv : ReadInv s) (h : IoMove p s s') {op : Op} {i : Buf}
    (hpc : s.pc p = .io op i .send) {r : Req P D} (hr : s'.disk = some r) :
    r.data = none ∧ r.blockno = (s'.blocks r.buf).blockno := by
  cases h with
  | send op' j t hpc₁ ht =>
      simp only [IoSt.sendreq, Option.ite_none_left_eq_some, Option.some.injEq] at ht
      obtain ⟨-, rfl⟩ := ht
      obtain rfl := Option.some.inj hr
      simp [hinv.clean]
  | fill n j d hpc₁ _ => rw [hpc] at hpc₁; cases hpc₁
  | walk op' j st₁ st₂ hpc₁ hw => rw [hpc] at hpc₁; cases hpc₁; cases hw
  | _ => simp_all

end Contents

/-! ## The invariant -/

section Inv
variable [DecidableEq P] [Fintype P] {p : P} {s s' : IoSt P D}

/-- **Every statement** of a process inside `bread` keeps the buffers that are referred to
valid. -/
theorem ReadInv.move (href : RefInv s) (hreqs : Requests s) (hinv : ReadInv s)
    (hearly : EarlyValid s (s.pc p))
    (h : IoMove p s s') (hidle : s.pc p ≠ .idle) : ReadInv s' := by
  have hkeep : ∀ i, 0 < (s.blocks i).refcnt → (s'.blocks i).blockno = (s.blocks i).blockno ∧
      (s'.blocks i).valid = (s.blocks i).valid := by
    intro i hi
    rcases contents_move hinv h hidle i with ⟨h1, h2, -⟩ | ⟨h0, -⟩
    · exact ⟨h1, h2⟩
    · omega
  have hio : ∀ q op i st, s.pc q = .io op i st → 0 < (s.blocks i).refcnt := fun q op i st hq =>
    Nat.lt_of_lt_of_le (href.refs_pos_of_io hq) (href.refs_le q i)
  have htest : ∀ q n i, s.pc q = .test n i → 0 < s.refs q i := fun q n i hq => by
    simp [IoSt.refs, hq, IoPc.ref]
  have hback : ∀ q op i st, s'.pc q = .io op i st →
      0 < s.refs q i ∧ ((∃ st, s.pc q = .io op i st) ∨ (s.blocks i).refcnt ≤ 1) := by
    intro q op i st hq
    by_cases hqp : q = p
    · subst hqp
      rcases io_of_move h hidle hq with ⟨st₁, hpc⟩ | ⟨n, hpc, -, hle⟩
      · exact ⟨href.refs_pos_of_io hpc, .inl ⟨st₁, hpc⟩⟩
      · exact ⟨htest q n i hpc, .inr hle⟩
    · have hpc := (h.other hqp).1 ▸ hq
      exact ⟨href.refs_pos_of_io hpc, .inl ⟨st, hpc⟩⟩
  have hsectors := h.sectors
  refine ⟨?_, ?_, ?_, ?_, ?_, ?_, ?_, ?_⟩
  · intro i
    rcases contents_move hinv h hidle i with ⟨-, -, h3, -⟩ | ⟨-, -, h3⟩
    · rw [h3]; exact hinv.clean i
    · exact h3
  · intro q n i hq
    by_cases hqp : q = p
    · subst hqp; exact test_of_move h hq
    · have hpc := (h.other hqp).1 ▸ hq
      rw [(hkeep i (Nat.lt_of_lt_of_le (htest q n i hpc) (href.refs_le q i))).1]
      exact hinv.tests q n i hpc
  · intro q op i st hq
    by_cases hqp : q = p
    · subst hqp
      rcases io_of_move h hidle hq with ⟨st₁, hpc⟩ | ⟨n, hpc, rfl, -⟩
      · rw [(hkeep i (hio q op i st₁ hpc)).1]
        exact hinv.reads q op i st₁ hpc
      · rw [(hkeep i (Nat.lt_of_lt_of_le (htest q n i hpc) (href.refs_le q i))).1,
          hinv.tests q n i hpc]
    · have hpc := (h.other hqp).1 ▸ hq
      rw [(hkeep i (hio q op i st hpc)).1]
      exact hinv.reads q op i st hpc
  · intro q₁ q₂ op₁ op₂ i st₁ st₂ h₁ h₂
    by_contra hne
    -- Who enters has seen that there is no other reference.
    have htwo := href.refs_add_le hne i
    have hpos₁ := (hback q₁ op₁ i st₁ h₁).1
    have hpos₂ := (hback q₂ op₂ i st₂ h₂).1
    rcases (hback q₁ op₁ i st₁ h₁).2 with ⟨st₁', hpc₁⟩ | hle
    · rcases (hback q₂ op₂ i st₂ h₂).2 with ⟨st₂', hpc₂⟩ | hle
      · exact hne (hinv.region q₁ q₂ op₁ op₂ i st₁' st₂' hpc₁ hpc₂)
      · omega
    · omega
  · intro q op i st hq hst
    by_cases hqp : q = p
    · subst hqp
      rcases done_of_move h hidle hq hst with hv | ⟨st₁, hpc, hst₁⟩
      · rw [(hkeep i (Nat.lt_of_lt_of_le (hback q op i st hq).1 (href.refs_le q i))).2]
        exact hv
      · rw [(hkeep i (hio q op i st₁ hpc)).2]
        exact hinv.done q op i st₁ hpc hst₁
    · have hpc := (h.other hqp).1 ▸ hq
      rw [(hkeep i (hio q op i st hpc)).2]
      exact hinv.done q op i st hpc hst
  · intro q n i hn
    by_cases hqp : q = p
    · subst hqp
      rcases held_of_move h hidle hn with hold | ⟨hpc, hgt⟩ | ⟨st, hpc, hst⟩
      · obtain ⟨h1, h2⟩ := hkeep i (Nat.lt_of_lt_of_le (refs_pos_of_held hold) (href.refs_le q i))
        rw [h1, h2]
        exact hinv.held q n i hold
      · obtain ⟨h1, h2⟩ := hkeep i (by omega)
        rw [hpc] at hearly
        rw [h1, h2]
        exact ⟨hinv.tests q n i hpc, hearly hgt⟩
      · obtain ⟨h1, h2⟩ := hkeep i (hio q _ i st hpc)
        rw [h1, h2]
        exact ⟨(Op.read.inj (hinv.reads q _ i st hpc)).symm, hinv.done q _ i st hpc hst⟩
    · have hold := (h.other hqp).2 ▸ hn
      obtain ⟨h1, h2⟩ := hkeep i (Nat.lt_of_lt_of_le (refs_pos_of_held hold) (href.refs_le q i))
      rw [h1, h2]
      exact hinv.held q n i hold
  · intro i hv
    rcases contents_move hinv h hidle i with ⟨h1, h2, -, h4⟩ | ⟨-, h2, -⟩
    · rw [h1, h4, hsectors]
      exact hinv.data i (h2 ▸ hv)
    · rw [h2] at hv; cases hv
  · intro r hr
    rcases disk_move h with hsame | ⟨-, op, i, r', hpc, -, hr', -, rfl⟩
    · have hold := hsame ▸ hr
      obtain ⟨-, op, st, hpc, -⟩ := hreqs.request r hold
      rw [(hkeep r.buf (hio _ op _ st hpc)).1]
      exact hinv.request r hold
    · obtain rfl : r' = r := Option.some.inj (hr'.symm.trans hr)
      exact request_of_send hinv h hpc hr'

omit [Fintype P] in
/-- A call of `bread` or `brelse` changes no buffer but a reference count. -/
theorem ReadInv.call (hinv : ReadInv s) (hidle : s.pc p = .idle) {call : Bio D}
    (hread : call.reading) (h : IoSt.next p call s = some s') : ReadInv s' := by
  simp only [IoSt.next, hidle] at h
  cases call with
  | go => cases h
  | fill n i d => cases hread
  | bwrite n i => cases hread
  | bread n =>
      obtain rfl := Option.some.inj h
      have hpc : ∀ q k, (s.goto p (.bget n)).pc q = k → k ≠ .bget n → s.pc q = k := by
        intro q k hq hk
        by_cases hqp : q = p
        · subst hqp; exact absurd (by simpa using hq.symm) hk
        · simpa [hqp] using hq
      refine ⟨hinv.clean, ?_, ?_, ?_, ?_, hinv.held, hinv.data, hinv.request⟩
      · exact fun q m i hq => hinv.tests q m i (hpc q _ hq (by simp))
      · exact fun q op i st hq => hinv.reads q op i st (hpc q _ hq (by simp))
      · exact fun q r op op' i st st' hq hr =>
          hinv.region q r op op' i st st' (hpc q _ hq (by simp)) (hpc r _ hr (by simp))
      · exact fun q op i st hq => hinv.done q op i st (hpc q _ hq (by simp))
  | brelse n j =>
      simp only [Option.ite_none_right_eq_some, Option.some.injEq] at h
      obtain ⟨hmem, rfl⟩ := h
      have hsame : ∀ {β : Type} (g : Block P D → β),
          (∀ b : Block P D, ∀ k, g { b with refcnt := k } = g b) → ∀ i k,
          g (Function.update s.blocks j { s.blocks j with refcnt := k } i) = g (s.blocks i) :=
        fun g hg i k => update_same g (hg _ _) i
      have hheld : ∀ q m i, (m, i) ∈ Function.update s.held p ((s.held p).erase (n, j)) q →
          (m, i) ∈ s.held q := by
        intro q m i hq
        by_cases hqp : q = p
        · subst hqp; exact List.mem_of_mem_erase (by simpa using hq)
        · simpa [hqp] using hq
      refine ⟨?_, ?_, ?_, hinv.region, ?_, ?_, ?_, ?_⟩
      · exact fun i => (hsame Block.dirty (fun _ _ => rfl) i _).trans (hinv.clean i)
      · exact fun q m i hq =>
          (hsame Block.blockno (fun _ _ => rfl) i _).trans (hinv.tests q m i hq)
      · exact fun q op i st hq => (hinv.reads q op i st hq).trans
          (congrArg Op.read (hsame Block.blockno (fun _ _ => rfl) i _).symm)
      · exact fun q op i st hq hst =>
          (hsame Block.valid (fun _ _ => rfl) i _).trans (hinv.done q op i st hq hst)
      · intro q m i hq
        obtain ⟨h1, h2⟩ := hinv.held q m i (hheld q m i hq)
        exact ⟨(hsame Block.blockno (fun _ _ => rfl) i _).trans h1,
          (hsame Block.valid (fun _ _ => rfl) i _).trans h2⟩
      · intro i hv
        have hv := (hsame Block.valid (fun _ _ => rfl) i _).symm.trans hv
        exact (hsame Block.data (fun _ _ => rfl) i _).trans ((hinv.data i hv).trans
          (congrArg s.sectors (hsame Block.blockno (fun _ _ => rfl) i _).symm))
      · intro r hr
        obtain ⟨h1, h2⟩ := hinv.request r hr
        exact ⟨h1, h2.trans (hsame Block.blockno (fun _ _ => rfl) _ _).symm⟩

omit [DecidableEq P] [Fintype P] in
/-- **A completion** makes the buffer of the request valid. -/
theorem ReadInv.completion (hinv : ReadInv s) {r : Req P D} (h : Completion r s s') :
    ReadInv s' := by
  obtain ⟨hnone, hno⟩ := hinv.request r h.outstanding
  have hsectors : s'.sectors = s.sectors := by rw [h.sectors, hnone]; rfl
  have hblockno : ∀ i, (s'.blocks i).blockno = (s.blocks i).blockno := fun i => (h.same i).2.2
  have hvalid : ∀ i, (s.blocks i).valid = true → (s'.blocks i).valid = true := by
    intro i hv
    by_cases hi : i = r.buf
    · subst hi; rw [h.block]
    · rwa [h.other i hi]
  refine ⟨?_, ?_, ?_, ?_, ?_, ?_, ?_, ?_⟩
  · intro i
    by_cases hi : i = r.buf
    · subst hi; rw [h.block]
    · rw [h.other i hi]; exact hinv.clean i
  · exact fun q n i hq => (hblockno i).trans (hinv.tests q n i (h.pc ▸ hq))
  · intro q op i st hq
    rw [hblockno i]
    exact hinv.reads q op i st (h.pc ▸ hq)
  · exact fun q q' op op' i st st' hq hq' =>
      hinv.region q q' op op' i st st' (h.pc ▸ hq) (h.pc ▸ hq')
  · exact fun q op i st hq hst => hvalid i (hinv.done q op i st (h.pc ▸ hq) hst)
  · intro q n i hn
    obtain ⟨h1, h2⟩ := hinv.held q n i (h.held ▸ hn)
    exact ⟨(hblockno i).trans h1, hvalid i h2⟩
  · intro i hv
    rw [hblockno i, hsectors]
    by_cases hi : i = r.buf
    · subst hi
      rw [h.block]
      simp [hinv.clean, hnone, hsectors, hno]
    · rw [h.other i hi] at hv ⊢
      exact hinv.data i hv
  · intro r' hr'
    rw [h.disk] at hr'; cases hr'

end Inv

/-! ## Runs -/

section Runs
variable [DecidableEq P] [Fintype P]

omit [DecidableEq P] [Fintype P] in
theorem ReadInv.init (stat : P → ProcStat) (zero : D) (sectors : ℕ → D) :
    ReadInv (.init stat zero sectors) := by
  constructor <;> simp [IoSt.init]

/-- A statement that meets the conditions keeps the invariant. -/
theorem ReadInv.next {st st' : IoSt P D} {q : P} {call : Bio D} (hinv : ReadInv st) (hio : IoInv st)
    (hok : SafeRead ⟨q, st⟩ (.exec call)) (hnext : IoSt.next q call st = some st') :
    IoInv st' ∧ ReadInv st' := by
  obtain ⟨hread, hearly, href, hide⟩ := hok
  refine ⟨hio.next href (safeBlk_of_region hio.locks hinv) hide hnext, ?_⟩
  by_cases hidle : st.pc q = .idle
  · exact hinv.call hidle hread hnext
  · exact hinv.move hio.refs hio.reqs.requests hearly (next_cases hnext) hidle

omit [DecidableEq P] in
/-- So does an interrupt. -/
theorem ReadInv.intr {st st' : IoSt P D} (hinv : ReadInv st) (hio : IoInv st) (hok : SafeIntr st)
    (hintr : st.ideintr = some st') : IoInv st' ∧ ReadInv st' := by
  obtain ⟨r, hc⟩ := ideintr_cases hio hok hintr
  exact ⟨hio.intr hok hintr, hinv.completion hc⟩

/-- **Reads.**  In every run in which nobody writes and `bread` returns early with valid
buffers only, every buffer that a `bread(n)` has returned has the data of sector `n`. -/
theorem reads_valid (stat : P → ProcStat) (zero : D) (sectors : ℕ → D) (p : P)
    {s : Cpu P (IoSt P D)}
    (h : (ioUni P D).machine.Path SafeRead ⟨p, .init stat zero sectors⟩ s) :
    ReadsValid s.st := by
  have hinv := Uni.invariant (I := fun st => IoInv st ∧ ReadInv st) h
    ⟨IoInv.init stat zero sectors, ReadInv.init stat zero sectors⟩ ?_ ?_
  · exact hinv.2.readsValid
  · exact fun q call st st' hI hok hnext => hI.2.next hI.1 hok hnext
  · exact fun q st st' hI hok hintr => hI.2.intr hI.1 hok hintr

end Runs

/-! ### Two processes read block 5 -/

/-- Process 0 reads block 5 to the end; then process 1 finds it in the cache. -/
def readTwice : List (CpuEvent (Fin 2) (Bio ℕ)) :=
  readCommand ++ [.exec .go, .exec .go, .intr] ++ List.replicate 8 (.exec .go) ++
    [.switch 1, .exec (.bread 5), .exec .go, .exec .go]

theorem reads_valid_readTwice :
    ∃ s, (ioUni (Fin 2) ℕ).machine.Path SafeRead ⟨0, .init (fun _ => .RUN) 0 id⟩ s ∧
      (s.st.held 0 = [(5, 0)] ∧ s.st.held 1 = [(5, 0)]) ∧ ReadsValid s.st := by
  obtain ⟨s, h, hheld⟩ := (ioUni (Fin 2) ℕ).machine.exists_path_of_run SafeRead
    ⟨0, .init (fun _ => .RUN) 0 id⟩ readTwice
    (fun s => s.st.held 0 = [(5, 0)] ∧ s.st.held 1 = [(5, 0)]) (by decide +kernel)
  exact ⟨s, h, hheld, reads_valid (fun _ => .RUN) 0 id 0 h⟩

/-- Process 1 asks for block 5 while the read by process 0 is in flight. -/
def readInFlight : List (CpuEvent (Fin 2) (Bio ℕ)) :=
  readCommand ++ [.exec .go, .exec .go, .switch 1, .exec (.bread 5), .exec .go, .exec .go]

/-- Its `bread` returns a buffer that is not valid. -/
theorem not_reads_valid :
    ∃ s, (ioUni (Fin 2) ℕ).machine.Reaches ⟨0, .init (fun _ => .RUN) 0 id⟩ s ∧
      (5, 0) ∈ s.st.held 1 ∧ (s.st.blocks 0).valid = false ∧ ¬ ReadsValid s.st := by
  obtain ⟨s, h, hheld, hvalid⟩ := (ioUni (Fin 2) ℕ).machine.exists_path_of_run (fun _ _ => True)
    ⟨0, .init (fun _ => .RUN) 0 id⟩ readInFlight
    (fun s => (5, 0) ∈ s.st.held 1 ∧ (s.st.blocks 0).valid = false) (by decide +kernel)
  refine ⟨s, h, hheld, hvalid, fun hok => ?_⟩
  have hv := (hok 1 5 0 hheld).2.1
  rw [hvalid] at hv
  cases hv

end Mixv6.Fs
