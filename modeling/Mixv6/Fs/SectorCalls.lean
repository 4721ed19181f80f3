import Mixv6.Fs.Sectors

/-!
# Calls of the buffer cache

While nobody is between `acquire` and `release` of a buffer the cache is quiet: the disk is the
array, and no buffer is marked.  Every call starts in a quiet state, and what it returns
follows from the invariant.

## Main definitions

* `Quiet` — what holds while no call works on a buffer.
* `Got` — what `bget` does to the buffers.
* `ArrInv.next` — every statement keeps the invariant.
* `ArrInv.returned`, `ArrInv.noPanic` — what the calls return, and that `iderw` does not panic.
-/

namespace Mixv6.Fs

open Mixv6.Lib Mixv6.Kernel

/-! ## Calls -/

section Calls
variable {P D : Type} {p q : P} {s t : ArrSt P D} {io : IoSt P D} {n : ℕ} {i j : Buf}

/-- Nobody is between `acquire(&b->lock)` and `release(&b->lock)`. -/
def Outside (s : IoSt P D) : Prop := ∀ p op i st, s.pc p ≠ .io op i st

theorem Outside.of_idle {s : IoSt P D} (h : ∀ q, s.pc q = .idle) : Outside s := by
  intro p op i st hp
  rw [h] at hp
  cases hp

theorem Outside.of_alone {s : IoSt P D} (h : Alone s p) (hp : ∀ op i st, s.pc p ≠ .io op i st) :
    Outside s := by
  intro q op i st hq
  by_cases hqp : q = p
  · exact hp op i st (hqp ▸ hq)
  · rw [h q hqp] at hq
    cases hq

theorem Outside.not_written {s : IoSt P D} (h : Outside s) : ¬ Written s i :=
  fun ⟨p, st, hp⟩ => h p .write i st hp

variable [Fintype P]

/-- What holds while nobody is between the two. -/
structure Quiet (s : ArrSt P D) : Prop where
  sectors : s.io.sectors = s.arr
  clean : ∀ i, (s.io.blocks i).dirty = false
  data : ∀ i, (s.io.blocks i).valid = true → s.pending i = false →
    (s.io.blocks i).data = s.arr (s.io.blocks i).blockno
  held : ∀ p n i, (n, i) ∈ s.io.held p → (s.io.blocks i).blockno = n ∧
    ((s.io.blocks i).valid = true ∨ s.pending i = true)
  pending : ∀ i, s.pending i = true → 0 < (s.io.blocks i).refcnt
  disk : s.io.disk = none

theorem ArrInv.quiet (h : ArrInv s) (hout : Outside s.io) : Quiet s where
  sectors := by
    funext n
    apply (h.saved n).resolve_right
    rintro ⟨j, hj, -⟩
    exact hout.not_written hj
  clean i := by
    by_contra hdirty
    rw [Bool.not_eq_false] at hdirty
    exact hout.not_written (h.clean i hdirty)
  data := h.data
  held p n i hi := by
    obtain ⟨hno, hvalid | hpend | hw⟩ := h.held p n i hi
    · exact ⟨hno, .inl hvalid⟩
    · exact ⟨hno, .inr hpend⟩
    · exact absurd hw hout.not_written
  pending := h.pending
  disk := by
    rcases hr : s.io.disk with _ | r
    · rfl
    · obtain ⟨-, op, st, hpc, -⟩ := h.io.reqs.request r hr
      exact absurd hpc (hout _ op _ st)

theorem Quiet.arrInv (h : Quiet s) (hio : IoInv s.io) (hfound : Found s.io)
    (halone : Alone s.io p) (hbusy : Busy s (s.io.pc p)) : ArrInv s where
  io := hio
  found := hfound
  one := halone.one
  busy := halone.busy hbusy
  saved n := .inl (congrFun h.sectors n)
  clean i hi := by
    rw [h.clean i] at hi
    cases hi
  data := h.data
  held p n i hi := (h.held p n i hi).imp_right fun hstate => hstate.imp_right .inl
  pending := h.pending
  request r hr := by
    rw [h.disk] at hr
    cases hr

/-- A statement that changes no contents of a buffer with references, unless the buffer is to
be written. -/
theorem Quiet.step (h : Quiet s) (href : RefInv s.io) (harr : t.arr = s.arr)
    (hsectors : t.io.sectors = s.io.sectors) (hdisk : t.io.disk = s.io.disk)
    (hclean : ∀ j, (t.io.blocks j).dirty = true → (s.io.blocks j).dirty = true)
    (hpending : ∀ j, s.pending j = true → t.pending j = true)
    (hrefcnt : ∀ j, t.pending j = true → 0 < (t.io.blocks j).refcnt)
    (hkeep : ∀ j, 0 < (s.io.blocks j).refcnt ∨ (t.io.blocks j).valid = true →
      (t.io.blocks j).blockno = (s.io.blocks j).blockno ∧
        (t.io.blocks j).valid = (s.io.blocks j).valid ∧
        (t.pending j = false → (t.io.blocks j).data = (s.io.blocks j).data))
    (hheld : ∀ q n j, (n, j) ∈ t.io.held q → (n, j) ∈ s.io.held q ∨
      (t.io.blocks j).blockno = n ∧ ((t.io.blocks j).valid = true ∨ t.pending j = true)) :
    Quiet t where
  sectors := by rw [hsectors, harr, h.sectors]
  clean j := by
    by_contra hdirty
    rw [Bool.not_eq_false] at hdirty
    have hj := hclean j hdirty
    rw [h.clean j] at hj
    cases hj
  data j hvalid hpend := by
    obtain ⟨hno, hval, hdata⟩ := hkeep j (.inr hvalid)
    have hold : s.pending j = false := by
      by_contra hne
      rw [Bool.not_eq_false] at hne
      rw [hpending j hne] at hpend
      cases hpend
    rw [hdata hpend, hno, harr]
    exact h.data j (hval ▸ hvalid) hold
  held q n j hj := by
    rcases hheld q n j hj with hold | hnew
    · obtain ⟨hno, hstate⟩ := h.held q n j hold
      obtain ⟨hno', hval', -⟩ := hkeep j
        (.inl (Nat.lt_of_lt_of_le (refs_pos_of_held hold) (href.refs_le q j)))
      rw [hno', hval']
      exact ⟨hno, hstate.imp_right (hpending j)⟩
    · exact hnew
  pending := hrefcnt
  disk := by rw [hdisk, h.disk]

/-- While no `bread` is in progress the references are those that are held. -/
theorem RefInv.refcnt_le {s : IoSt P D} (h : RefInv s) (hnone : ∀ q, (s.pc q).ref = none) (i : Buf) :
    (s.blocks i).refcnt ≤ ∑ q, (s.held q).length := by
  rw [h.refcnt i]
  apply Finset.sum_le_sum
  intro q _
  simp only [IoSt.refs, hnone q, reduceCtorEq, if_false, Nat.add_zero]
  exact List.count_le_length.trans_eq (List.length_map ..)

/-- What `bget` does to the buffers. -/
structure Got (s : IoSt P D) (n : ℕ) (i : Buf) (b : Block P D) : Prop where
  keep : ∀ j, 0 < (s.blocks j).refcnt ∨ (Function.update s.blocks i b j).valid = true →
    (Function.update s.blocks i b j).blockno = (s.blocks j).blockno ∧
      (Function.update s.blocks i b j).valid = (s.blocks j).valid ∧
      (Function.update s.blocks i b j).data = (s.blocks j).data
  clean : ∀ j, (Function.update s.blocks i b j).dirty = true → (s.blocks j).dirty = true
  refcnt : ∀ j, 0 < (s.blocks j).refcnt → 0 < (Function.update s.blocks i b j).refcnt
  blockno : b.blockno = n
  pos : 0 < b.refcnt
  shared : b.refcnt > 1 → 0 < (s.blocks i).refcnt

omit [Fintype P] in
theorem got_of_bget {s : IoSt P D} {b : Block P D} (hb : s.bget n = some (i, b))
    (hsafe : ∀ i ∈ s.cached n, (s.blocks i).refcnt + 1 < 65536) : Got s n i b := by
  rcases bget_cases hb with ⟨hc, hn, rfl⟩ | ⟨-, hz, hd, rfl⟩
  · have hcount := Nat.mod_eq_of_lt (hsafe i hc)
    refine ⟨fun j _ => ?_, fun j hj => ?_, fun j hj => ?_, hn, ?_, fun hgt => ?_⟩
    · by_cases hj : j = i
      · subst hj
        simp
      · simp [hj]
    · exact (update_same Block.dirty (by rfl) j).symm.trans hj
    · by_cases hji : j = i
      · subst hji
        simp [hcount]
      · simpa [hji] using hj
    · simp only [hcount]
      omega
    · simp only [hcount] at hgt
      omega
  · refine ⟨fun j hj => ?_, fun j hj => ?_, fun j hj => ?_, rfl, Nat.one_pos, fun hgt => ?_⟩
    · have hji : j ≠ i := by
        rintro rfl
        simp [hz] at hj
      simp [hji]
    · by_cases hji : j = i
      · subst hji
        simp at hj
      · simpa [hji] using hj
    · have hji : j ≠ i := by
        rintro rfl
        omega
      simpa [hji] using hj
    · exact absurd hgt (Nat.lt_irrefl 1)

variable [DecidableEq P]

namespace ArrInv

/-- `bget` in a `bread` that is in progress. -/
theorem bget_next (h : ArrInv s) (hpc : s.io.pc p = .bget n)
    (hnext : s.io.next p .go = some io) : ArrInv { s with io } := by
  have halone := h.alone (p := p) (by simp [hpc])
  have hbusy := h.busy p
  rw [hpc] at hbusy
  obtain ⟨hpend, hlen⟩ := hbusy
  have hnone : ∀ q, (s.io.pc q).ref = none := by
    intro q
    by_cases hq : q = p
    · rw [hq, hpc]
      rfl
    · rw [halone q hq]
      rfl
  have hlt : ∀ j, (s.io.blocks j).refcnt + 1 < 65536 := fun j => by
    have hle := h.io.refs.refcnt_le hnone j
    simp only [NBLOCK] at hlen
    omega
  have hout : Outside s.io := .of_alone halone (by simp [hpc])
  obtain ⟨hio, hfound⟩ := h.next_of_alone halone (by rw [hpc]; exact fun j _ => hlt j) hnext
  have halone' := halone.move (next_cases hnext)
  simp only [IoSt.next, hpc, Option.map_eq_some_iff] at hnext
  obtain ⟨⟨i, b⟩, hb, rfl⟩ := hnext
  have hgot := got_of_bget hb fun j _ => hlt j
  have hquiet := h.quiet hout
  -- Who has the buffer already has it valid: it is not to be written.
  have hvalid : b.refcnt > 1 → b.valid = true := by
    intro hgt
    have hpos := hgot.shared hgt
    have hkeep := hgot.keep i (.inl hpos)
    simp only [Function.update_self] at hkeep
    obtain ⟨q, hq⟩ : ∃ q, 0 < s.io.refs q i := by
      by_contra hne
      have hzero : ∀ q, s.io.refs q i = 0 := fun q => by
        by_contra hq
        exact hne ⟨q, Nat.pos_of_ne_zero hq⟩
      rw [h.io.refs.refcnt i] at hpos
      simp [hzero] at hpos
    simp only [IoSt.refs, hnone q, reduceCtorEq, if_false, Nat.add_zero, List.count_pos_iff,
      List.mem_map] at hq
    obtain ⟨⟨m, j⟩, hm, rfl⟩ := hq
    rw [hkeep.2.1]
    apply (hquiet.held q m _ hm).2.resolve_right
    intro hp
    exact hpend _ hp (hkeep.1.symm.trans hgot.blockno)
  have hnext : Quiet ⟨(s.io.setBlock i b).goto p (.test n i), s.arr, s.pending⟩ :=
    hquiet.step h.io.refs rfl rfl rfl hgot.clean (fun _ hj => hj)
      (fun j hj => hgot.refcnt j (h.pending j hj))
      (fun j hj => (hgot.keep j hj).imp_right fun hkeep => hkeep.imp_right fun hdata _ => hdata)
      fun q m j hj => .inl hj
  apply hnext.arrInv hio hfound halone'
  · simp only [IoSt.goto_pc, Function.update_self]
    refine ⟨?_, fun j hj => ?_, fun hgt => ?_⟩
    · simpa using hgot.blockno
    · have hno := (hgot.keep j (.inl (h.pending j hj))).1
      simp only [IoSt.goto_blocks, IoSt.setBlock_blocks, hno]
      exact hpend j hj
    · simp only [IoSt.goto_blocks, IoSt.setBlock_blocks, Function.update_self] at hgt ⊢
      exact hvalid hgt

/-- `bread` after `bget`. -/
theorem test_next (h : ArrInv s) (hpc : s.io.pc p = .test n i)
    (hnext : s.io.next p .go = some io) : ArrInv { s with io } := by
  have halone := h.alone (p := p) (by simp [hpc])
  have hbusy := h.busy p
  rw [hpc] at hbusy
  obtain ⟨hno, hpend, hvalid⟩ := hbusy
  have hout : Outside s.io := .of_alone halone (by simp [hpc])
  obtain ⟨hio, hfound⟩ := h.next_of_alone halone (by rw [hpc]; trivial) hnext
  have halone' := halone.move (next_cases hnext)
  have hkeep : ∀ {io : IoSt P D}, io.blocks = s.io.blocks → io.sectors = s.io.sectors →
      io.disk = s.io.disk → (∀ q m j, (m, j) ∈ io.held q → (m, j) ∈ s.io.held q ∨
        (s.io.blocks j).blockno = m ∧ (s.io.blocks j).valid = true) → Quiet { s with io } := by
    intro io hblocks hsectors hdisk hheld
    apply Quiet.step (t := { s with io }) (h.quiet hout) h.io.refs rfl hsectors hdisk <;>
      simp only [hblocks]
    · exact fun _ hj => hj
    · exact fun _ hj => hj
    · exact h.pending
    · simp
    · exact fun q m j hj => (hheld q m j hj).imp_right fun hnew => hnew.imp_right .inl
  simp only [IoSt.next, hpc] at hnext
  split at hnext
  next hgt =>
    obtain rfl := Option.some.inj hnext
    have hquiet : Quiet { s with io := (s.io.setHeld p ((n, i) :: s.io.held p)).goto p .idle } := by
      refine hkeep rfl rfl rfl fun q m j hj => ?_
      rcases IoSt.mem_setHeld_cons hj with ⟨rfl, rfl⟩ | hold
      · exact .inr ⟨hno, hvalid hgt⟩
      · exact .inl hold
    apply hquiet.arrInv hio hfound halone'
    simp only [IoSt.goto_pc, Function.update_self]
    trivial
  next =>
    obtain rfl := Option.some.inj hnext
    have hquiet : Quiet { s with io := s.io.goto p (.io (.read n) i (.acq .test)) } :=
      hkeep rfl rfl rfl fun q m j hj => .inl hj
    apply hquiet.arrInv hio hfound halone'
    · simp only [IoSt.goto_pc, Function.update_self]
      exact ⟨hno, hpend, fun hst => (by cases hst), fun hst => by cases hst⟩

/-- **A statement** of a call in progress. -/
theorem go (h : ArrInv s) (hnext : s.io.next p .go = some io) : ArrInv { s with io } := by
  cases hpc : s.io.pc p with
  | idle => simp [IoSt.next, hpc] at hnext
  | bget n => exact h.bget_next hpc hnext
  | test n i => exact h.test_next hpc hnext
  | io op i st => exact h.io_next hpc hnext

end ArrInv

/-! ### Calls -/

omit [Fintype P] [DecidableEq P] in
theorem alone_of_idle {s : IoSt P D} (h : ∀ q, s.pc q = .idle) (p : P) : Alone s p :=
  fun q _ => h q

/-- A `bget` of its own breaks none of the invariants of the cache. -/
theorem IoInv.take {s t : IoSt P D} (h : IoInv s) (hidle : ∀ q, s.pc q = .idle)
    (hsafe : ∀ i ∈ s.cached n, (s.blocks i).refcnt + 1 < 65536) (ht : s.take p n = some t) :
    IoInv t := by
  have href := h.refs.take hsafe ht
  obtain ⟨-, i, b, hb, rfl⟩ := take_cases ht
  have hlock : ∀ j, (Function.update s.blocks i b j).lock = (s.blocks j).lock := by
    intro j
    apply update_same Block.lock
    rcases bget_cases hb with ⟨-, -, rfl⟩ | ⟨-, -, -, rfl⟩ <;> rfl
  refine ⟨href, ⟨fun j => ?_, h.locks.ide⟩, ⟨h.reqs.asleep, fun r hr => ?_, fun q op j st hq => ?_,
    fun q op j st hq => ?_, h.reqs.acted⟩⟩
  · simp only [IoSt.setHeld_blocks, IoSt.setBlock_blocks, hlock]
    exact h.locks.blk j
  · obtain ⟨-, op, st, hpc, -⟩ := h.reqs.request r hr
    rw [hidle] at hpc
    cases hpc
  · have hpc : s.pc q = .io op j st := hq
    rw [hidle] at hpc
    cases hpc
  · have hpc : s.pc q = .io op j st := hq
    rw [hidle] at hpc
    cases hpc

namespace ArrInv

theorem next_of_idle (h : ArrInv s) (hidle : ∀ q, s.io.pc q = .idle) {call : Bio D}
    (hnext : s.io.next p call = some io) : IoInv io ∧ Found io := by
  apply h.next_of_alone (alone_of_idle hidle p) _ hnext
  rw [hidle]
  trivial

/-- The call of `bread`. -/
theorem bread (h : ArrInv s) (hidle : ∀ q, s.io.pc q = .idle)
    (hlen : ∑ q, (s.io.held q).length < NBLOCK) (hpend : NoPending s n)
    (hnext : s.io.next p (.bread n) = some io) : ArrInv { s with io } := by
  obtain ⟨hio, hfound⟩ := h.next_of_idle hidle hnext
  have halone := (alone_of_idle hidle p).move (next_cases hnext)
  obtain ⟨-, rfl⟩ := bread_cases hnext
  have hquiet : Quiet { s with io := s.io.goto p (.bget n) } := by
    obtain ⟨h1, h2, h3, h4, h5, h6⟩ := h.quiet (.of_idle hidle)
    exact ⟨h1, h2, h3, h4, h5, h6⟩
  apply hquiet.arrInv hio hfound halone
  simp only [IoSt.goto_pc, Function.update_self]
  exact ⟨hpend, hlen⟩

/-- `bget`, of a block that is then overwritten. -/
theorem bget (h : ArrInv s) (hidle : ∀ q, s.io.pc q = .idle)
    (hlen : ∑ q, (s.io.held q).length < NBLOCK) (hnext : s.next p (.bget n) = some t) :
    ArrInv t := by
  simp only [ArrSt.next, Option.bind_eq_some_iff, Option.map_eq_some_iff] at hnext
  obtain ⟨⟨i, b⟩, hb, io, htake, rfl⟩ := hnext
  have hlt : ∀ j, (s.io.blocks j).refcnt + 1 < 65536 := fun j => by
    have hle := h.io.refs.refcnt_le (fun q => by rw [hidle]; rfl) j
    simp only [NBLOCK] at hlen
    omega
  have hio := h.io.take hidle (fun j _ => hlt j) htake
  have hfound := h.found.take htake
  obtain ⟨-, i', b', hb', rfl⟩ := take_cases htake
  obtain ⟨rfl, rfl⟩ : i = i' ∧ b = b' := by simpa [hb] using hb'
  have hgot := got_of_bget hb fun j _ => hlt j
  have hquiet : Quiet ⟨(s.io.setBlock i b).setHeld p ((n, i) :: s.io.held p), s.arr,
      Function.update s.pending i true⟩ := by
    refine (h.quiet (.of_idle hidle)).step h.io.refs rfl rfl rfl hgot.clean ?_ ?_ ?_ ?_
    · intro j hj
      by_cases hji : j = i
      · simp [hji]
      · simpa [hji] using hj
    · intro j hj
      by_cases hji : j = i
      · subst hji
        simpa using hgot.pos
      · exact hgot.refcnt j (h.pending j (by simpa [hji] using hj))
    · exact fun j hj => (hgot.keep j hj).imp_right fun hkeep => hkeep.imp_right fun hdata _ => hdata
    · intro q m j hj
      rcases IoSt.mem_setHeld_cons hj with ⟨rfl, rfl⟩ | hold
      · right
        simpa using hgot.blockno
      · exact .inl hold
  apply hquiet.arrInv (p := p) hio hfound
  · exact fun q _ => hidle q
  · rw [show ((s.io.setBlock i b).setHeld p ((n, i) :: s.io.held p)).pc p = .idle from hidle p]
    trivial

/-- A store to the data of a buffer. -/
theorem fill (h : ArrInv s) (hidle : ∀ q, s.io.pc q = .idle) {d : D}
    (hnext : s.io.next p (.fill n i d) = some io) :
    ArrInv { s with io, pending := Function.update s.pending i true } := by
  obtain ⟨hio, hfound⟩ := h.next_of_idle hidle hnext
  simp only [IoSt.next, hidle, Option.ite_none_right_eq_some, Option.some.injEq] at hnext
  obtain ⟨hmem, rfl⟩ := hnext
  have hquiet : Quiet ⟨s.io.setBlock i { s.io.blocks i with data := d }, s.arr,
      Function.update s.pending i true⟩ := by
    refine (h.quiet (.of_idle hidle)).step h.io.refs rfl rfl rfl ?_ ?_ ?_ ?_ ?_
    · exact fun j hj => (update_same Block.dirty (by rfl) j).symm.trans hj
    · intro j hj
      by_cases hji : j = i
      · simp [hji]
      · simpa [hji] using hj
    · intro j hj
      simp only [IoSt.setBlock_blocks, update_same Block.refcnt (show
        ({ s.io.blocks i with data := d } : Block P D).refcnt = (s.io.blocks i).refcnt from rfl)]
      by_cases hji : j = i
      · subst hji
        exact h.refcnt_of_held hmem
      · exact h.pending j (by simpa [hji] using hj)
    · intro j _
      by_cases hji : j = i
      · subst hji
        simp
      · simp [hji]
    · exact fun q m j hj => .inl hj
  exact hquiet.arrInv (p := p) hio hfound (fun q _ => hidle q)
    (by rw [IoSt.setBlock_pc, hidle]; trivial)

/-- `brelse`. -/
theorem brelse (h : ArrInv s) (hidle : ∀ q, s.io.pc q = .idle) (hpend : s.pending i = false)
    (hnext : s.io.next p (.brelse n i) = some io) : ArrInv { s with io } := by
  obtain ⟨hio, hfound⟩ := h.next_of_idle hidle hnext
  simp only [IoSt.next, hidle, Option.ite_none_right_eq_some, Option.some.injEq] at hnext
  obtain ⟨hmem, rfl⟩ := hnext
  have hquiet : Quiet ⟨(s.io.setBlock i { s.io.blocks i with
      refcnt := ((s.io.blocks i).refcnt + 65535) % 65536 }).setHeld p ((s.io.held p).erase (n, i)),
      s.arr, s.pending⟩ := by
    refine (h.quiet (.of_idle hidle)).step h.io.refs rfl rfl rfl ?_ ?_ ?_ ?_ ?_
    · exact fun j hj => (update_same Block.dirty (by rfl) j).symm.trans hj
    · exact fun _ hj => hj
    · intro j hj
      have hji : j ≠ i := by
        rintro rfl
        rw [hpend] at hj
        cases hj
      simpa [hji] using h.pending j hj
    · intro j _
      by_cases hji : j = i
      · subst hji
        simp
      · simp [hji]
    · intro q m j hj
      by_cases hq : q = p
      · subst hq
        exact .inl (List.mem_of_mem_erase (by simpa using hj))
      · exact .inl (by simpa [hq] using hj)
  exact hquiet.arrInv (p := p) hio hfound (fun q _ => hidle q)
    (by rw [IoSt.setHeld_pc, IoSt.setBlock_pc, hidle]; trivial)

/-- The call of `bwrite`: from now on the array has what the buffer has. -/
theorem bwrite (h : ArrInv s) (hidle : ∀ q, s.io.pc q = .idle)
    (hnext : s.io.next p (.bwrite n i) = some io) :
    ArrInv ⟨io, Function.update s.arr n (s.io.blocks i).data, Function.update s.pending i false⟩ := by
  obtain ⟨hio, hfound⟩ := h.next_of_idle hidle hnext
  have halone := (alone_of_idle hidle p).move (next_cases hnext)
  simp only [IoSt.next, hidle, Option.ite_none_right_eq_some, Option.some.injEq] at hnext
  obtain ⟨hmem, rfl⟩ := hnext
  obtain ⟨hsectors, hclean, hdata, hheld, hpending, hdisk⟩ := h.quiet (.of_idle hidle)
  have hno : (s.io.blocks i).blockno = n := (hheld p n i hmem).1
  have hwritten : Written (s.io.goto p (.io .write i (.acq .test))) i := ⟨p, .acq .test, by simp⟩
  have hpend : ∀ j, Function.update s.pending i false j = true → s.pending j = true ∧ j ≠ i := by
    intro j hj
    by_cases hji : j = i
    · subst hji
      simp at hj
    · exact ⟨by simpa [hji] using hj, hji⟩
  refine ⟨hio, hfound, halone.one, halone.busy ?_, fun m => ?_, fun j hj => ?_,
    fun j hj hp => ?_, fun q m j hj => ?_, fun j hj => ?_, fun r hr => ?_⟩
  · simp only [IoSt.goto_pc, Function.update_self]
    refine ⟨by simp, ?_, fun _ => hclean i, fun hst => (by cases hst), fun hst => (by cases hst),
      fun hst => (by cases hst)⟩
    simp [hno]
  · by_cases hm : m = n
    · exact .inr ⟨i, hwritten, hno.trans hm.symm⟩
    · left
      simp only [Function.update_of_ne hm]
      exact congrFun hsectors m
  · have hj' : (s.io.blocks j).dirty = true := hj
    rw [hclean] at hj'
    cases hj'
  · by_cases hji : j = i
    · subst hji
      simp [hno]
    · -- Another buffer for the block would be the one that is found.
      have hne : (s.io.blocks j).blockno ≠ n := by
        intro hjn
        have hcj := h.found.of_valid hj
        rw [hjn, ← hno, h.found.cached (h.refcnt_of_held hmem)] at hcj
        exact hji (Option.some.inj hcj).symm
      simp only [IoSt.goto_blocks, Function.update_of_ne hne]
      exact hdata j hj (by simpa [hji] using hp)
  · obtain ⟨hjm, hstate⟩ := hheld q m j hj
    refine ⟨hjm, ?_⟩
    by_cases hji : j = i
    · subst hji
      exact .inr (.inr hwritten)
    · exact hstate.imp_right fun hp => .inl (by simpa [hji] using hp)
  · exact hpending j (hpend j hj).1
  · have hr' : s.io.disk = some r := hr
    rw [hdisk] at hr'
    cases hr'

/-- **Every statement** keeps the invariant. -/
theorem next (h : ArrInv s) {call : ArrCall D} (hok : Allowed s call)
    (hnext : s.next p call = some t) : ArrInv t := by
  cases call with
  | go =>
      obtain ⟨io, hio, rfl⟩ := Option.map_eq_some_iff.mp hnext
      exact h.go hio
  | bread n =>
      obtain ⟨io, hio, rfl⟩ := Option.map_eq_some_iff.mp hnext
      exact h.bread hok.1 hok.2.2.1 hok.2.2.2 hio
  | bget n => exact h.bget hok.1 hok.2.2.1 hnext
  | fill n i d =>
      obtain ⟨io, hio, rfl⟩ := Option.map_eq_some_iff.mp hnext
      exact h.fill hok hio
  | bwrite n i =>
      obtain ⟨io, hio, rfl⟩ := Option.map_eq_some_iff.mp hnext
      exact h.bwrite hok hio
  | brelse n i =>
      obtain ⟨io, hio, rfl⟩ := Option.map_eq_some_iff.mp hnext
      exact h.brelse hok.1 hok.2 hio

end ArrInv

/-- The last statement of a call. -/
theorem ArrInv.returned (h : ArrInv s) {call : ArrCall D} (hnext : s.next p call = some t) :
    Returned p s t := by
  have hgo : s.io.pc p ≠ .idle → ∃ io, s.io.next p .go = some io ∧ t = { s with io } := by
    intro hp
    cases call with
    | go =>
        obtain ⟨io, hio, rfl⟩ := Option.map_eq_some_iff.mp hnext
        exact ⟨io, hio, rfl⟩
    | bget n =>
        simp only [ArrSt.next, Option.bind_eq_some_iff, Option.map_eq_some_iff] at hnext
        obtain ⟨-, -, io, htake, rfl⟩ := hnext
        exact absurd (take_cases htake).1 hp
    | bread | fill | bwrite | brelse =>
        obtain ⟨io, hio, rfl⟩ := Option.map_eq_some_iff.mp hnext
        cases hpc : s.io.pc p with
        | idle => exact absurd hpc hp
        | bget | test | io => simp [IoSt.next, hpc] at hio
  constructor
  · intro n hreads hidle
    obtain ⟨io, hio, rfl⟩ := hgo (by rintro hp; simp [hp, IoPc.reads] at hreads)
    have hmove := next_cases hio
    have hbusy := h.busy p
    -- What `bread` returns is valid, and not to be written.
    have hread : ∀ {i}, (s.io.blocks i).blockno = n → NoPending s n →
        (s.io.blocks i).valid = true → (s.io.blocks i).data = s.arr n := by
      intro i hno hpend hvalid
      rw [← hno]
      apply h.data i hvalid
      by_contra hp
      rw [Bool.not_eq_false] at hp
      exact hpend i hp hno
    cases hmove with
    | early m i hpc hgt =>
        rw [hpc] at hreads hbusy
        obtain rfl : m = n := Option.some.inj hreads
        obtain ⟨hno, hpend, hvalid⟩ := hbusy
        exact ⟨i, by simp, hno, hread hno hpend (hvalid hgt)⟩
    | readDone m i r lock tab hpc hr =>
        rw [hpc] at hreads hbusy
        obtain rfl : m = n := Option.some.inj hreads
        obtain ⟨hno, hpend, hvalid, -⟩ := hbusy
        refine ⟨i, by simp, ?_, ?_⟩
        · simpa using hno
        · simpa using hread hno hpend (hvalid rfl)
    | writeDone i r lock tab hpc _ =>
        rw [hpc] at hreads
        cases hreads
    | brelse m i hpc _ | fill m i d hpc _ =>
        rw [hpc] at hreads
        cases hreads
    | _ => simp at hidle
  · intro i st hpc hidle
    obtain ⟨io, hio, rfl⟩ := hgo (by simp [hpc])
    have hmove := next_cases hio
    have hbusy := h.busy p
    rw [hpc] at hbusy
    cases hmove with
    | writeDone j r lock tab hpc₁ hr =>
        rw [hpc] at hpc₁
        cases hpc₁
        obtain ⟨-, hdata, -, -, -, hsync⟩ := hbusy
        obtain ⟨hvalid, hdirty, hsector⟩ := hsync rfl
        simp only [IoSt.goto_blocks, IoSt.setBlock_blocks, Function.update_self]
        exact ⟨hsector.trans hdata.symm, hvalid, hdirty⟩
    | early _ _ hpc₁ _ | readDone _ _ _ _ _ hpc₁ _ | brelse _ _ hpc₁ _ | fill _ _ _ hpc₁ _ =>
        rw [hpc] at hpc₁
        cases hpc₁
    | _ => simp at hidle

omit [DecidableEq P] in
theorem ArrInv.noPanic (h : ArrInv s) : NoPanic s := by
  intro p op i
  refine ⟨fun hpc => ?_, fun hpc => ?_⟩
  · apply (h.io.locks.blk i).holding_of_phase
    simp [hpc, IoPc.blkPhase, Stage.blk]
  · have hbusy := h.busy p
    rw [hpc] at hbusy
    cases op with
    | read n => simp [Block.ready, hbusy.2.2.2 rfl]
    | write =>
        obtain ⟨-, -, -, hmarked, -⟩ := hbusy
        simp [Block.ready, hmarked rfl]

end Calls

end Mixv6.Fs
