import Mixv6.Fs.Alone
import Mixv6.Fs.Table

/-!
# The buffer cache as an array of sectors

Processes take turns to call `bread`, `bget`, `bwrite` and `brelse`, and to store to the data
of the buffers they hold.  To them the cache and the disk are one array: a `bread` returns
what was last passed to `bwrite`, however often the buffers have been evicted and reloaded.
A buffer that has been stored to, or that comes from `bget` alone, must be passed to `bwrite`
before anything else is done with its block.

## Main definitions

* `ArrSt` — the cache over the array, and the buffers that have been stored to.
* `SafeArr` — one process at a time, and no other use of a block that is to be written.
* `Returned`, `NoPanic` — what `bread` and `bwrite` have done when they return.
* `ArrInv` — what holds in every state, kept by a call in progress and by the drive.
-/

namespace Mixv6.Fs

open Mixv6.Lib Mixv6.Kernel

/-- The cache and the disk.  `arr` is the array: the data last passed to `bwrite` for each
block.  `pending` are the buffers that are to be passed to `bwrite`. -/
structure ArrSt (P D : Type) where
  io : IoSt P D
  arr : ℕ → D
  pending : Buf → Bool

/-- What a process does next. -/
inductive ArrCall (D : Type)
  /-- Nothing: the call in progress goes on. -/
  | go
  | bread (n : ℕ)
  /-- `bget(n)`, of a block that is then overwritten. -/
  | bget (n : ℕ)
  /-- Store to the data of a buffer. -/
  | fill (n : ℕ) (i : Buf) (d : D)
  | bwrite (n : ℕ) (i : Buf)
  | brelse (n : ℕ) (i : Buf)

namespace ArrSt
variable {P D : Type}

/-- The buffers are zeroed, and the array is the disk. -/
def init (stat : P → ProcStat) (zero : D) (sectors : ℕ → D) : ArrSt P D :=
  ⟨.init stat zero sectors, sectors, fun _ => false⟩

variable [DecidableEq P]

/-- The next statement of `p`. -/
def next (p : P) (call : ArrCall D) (s : ArrSt P D) : Option (ArrSt P D) :=
  match call with
  | .go => (s.io.next p .go).map fun io => { s with io }
  | .bread n => (s.io.next p (.bread n)).map fun io => { s with io }
  | .bget n => (s.io.bget n).bind fun (i, _) => (s.io.take p n).map fun io =>
      { s with io, pending := Function.update s.pending i true }
  | .fill n i d => (s.io.next p (.fill n i d)).map fun io =>
      { s with io, pending := Function.update s.pending i true }
  | .bwrite n i => (s.io.next p (.bwrite n i)).map fun io =>
      { io
        arr := Function.update s.arr n (s.io.blocks i).data
        pending := Function.update s.pending i false }
  | .brelse n i => (s.io.next p (.brelse n i)).map fun io => { s with io }

end ArrSt

/-- The processor, with the interrupts of the drive. -/
def arrUni (P D : Type) [DecidableEq P] : Uni P (ArrCall D) (ArrSt P D) where
  next := ArrSt.next
  runnable _ _ _ := true
  intr s := s.io.ideintr.map fun io => { s with io }

/-- No buffer for block `n` is to be written. -/
def NoPending {P D : Type} (s : ArrSt P D) (n : ℕ) : Prop :=
  ∀ i, s.pending i = true → (s.io.blocks i).blockno ≠ n

/-- A call comes when no other call is in progress.  Fewer than 256 references are held when
one more is taken, and a block with a buffer that is to be written is neither read nor given
back. -/
def Allowed {P D : Type} [Fintype P] (s : ArrSt P D) : ArrCall D → Prop
  | .go => True
  | .bread n | .bget n => (∀ q, s.io.pc q = .idle) ∧ n < NSECTOR ∧
      ∑ q, (s.io.held q).length < NBLOCK ∧ NoPending s n
  | .fill .. | .bwrite .. => ∀ q, s.io.pc q = .idle
  | .brelse _ i => (∀ q, s.io.pc q = .idle) ∧ s.pending i = false

/-- The calls are safe, and the drive interrupts only a sleeping requester. -/
def SafeArr {P D : Type} [Fintype P] (s : Cpu P (ArrSt P D)) : CpuEvent P (ArrCall D) → Prop
  | .exec call => Allowed s.st call
  | .switch _ => True
  | .intr => SafeIntr s.st.io

/-- What `bread` and `bwrite` have done when they return to process `p`: the last statement
has taken `s` to `t`. -/
structure Returned {P D : Type} (p : P) (s t : ArrSt P D) : Prop where
  bread : ∀ n, (s.io.pc p).reads = some n → t.io.pc p = .idle →
    ∃ i, t.io.held p = (n, i) :: s.io.held p ∧ (t.io.blocks i).blockno = n ∧
      (t.io.blocks i).data = t.arr n
  bwrite : ∀ i st, s.io.pc p = .io .write i st → t.io.pc p = .idle →
    t.io.sectors (t.io.blocks i).blockno = (t.io.blocks i).data ∧
      (t.io.blocks i).valid = true ∧ (t.io.blocks i).dirty = false

/-- A process at one of the two tests of `iderw` passes it. -/
def NoPanic {P D : Type} (s : ArrSt P D) : Prop :=
  ∀ p op i, (s.io.pc p = .io op i .rw → holding (s.io.blocks i).lock p) ∧
    (s.io.pc p = .io op i .todo → (s.io.blocks i).ready = false)

/-! ## The invariant -/

section Inv
variable {P D : Type}

/-- A process writes buffer `i`. -/
def Written (s : IoSt P D) (i : Buf) : Prop := ∃ p st, s.pc p = .io .write i st

/-- The buffer has what the array has, and so does the disk. -/
structure Synced (s : ArrSt P D) (i : Buf) : Prop where
  valid : (s.io.blocks i).valid = true
  dirty : (s.io.blocks i).dirty = false
  sector : s.io.sectors (s.io.blocks i).blockno = s.arr (s.io.blocks i).blockno

/-- `bwrite` before it marks the buffer. -/
def Stage.unmarked : Stage → Bool
  | .acq _ | .start => true
  | _ => false

/-- Between the mark and the command to the drive. -/
def Stage.marked : Stage → Bool
  | .rw | .todo | .ideAcq _ | .send => true
  | _ => false

/-- At the tests of `iderw`. -/
def Stage.testing : Stage → Bool
  | .rw | .todo => true
  | _ => false

/-- What a process in a call of the cache knows of its buffer. -/
def Busy [Fintype P] (s : ArrSt P D) : IoPc → Prop
  | .idle => True
  | .bget n => NoPending s n ∧ ∑ q, (s.io.held q).length < NBLOCK
  | .test n i => (s.io.blocks i).blockno = n ∧ NoPending s n ∧
      ((s.io.blocks i).refcnt > 1 → (s.io.blocks i).valid = true)
  | .io (.read n) i st => (s.io.blocks i).blockno = n ∧ NoPending s n ∧
      (st.done → (s.io.blocks i).valid = true) ∧ (st.testing → (s.io.blocks i).valid = false)
  | .io .write i st => s.pending i = false ∧
      (s.io.blocks i).data = s.arr (s.io.blocks i).blockno ∧
      (st.unmarked → (s.io.blocks i).dirty = false) ∧ (st.marked → (s.io.blocks i).dirty = true) ∧
      (st.requesting → (s.io.blocks i).dirty = true ∨ Synced s i) ∧ (st.done → Synced s i)

/-- What holds in every state. -/
structure ArrInv [Fintype P] (s : ArrSt P D) : Prop where
  io : IoInv s.io
  found : Found s.io
  /-- One process at a time. -/
  one : ∀ p q, s.io.pc p ≠ .idle → s.io.pc q ≠ .idle → p = q
  busy : ∀ p, Busy s (s.io.pc p)
  saved : ∀ n, s.io.sectors n = s.arr n ∨ ∃ i, Written s.io i ∧ (s.io.blocks i).blockno = n
  clean : ∀ i, (s.io.blocks i).dirty = true → Written s.io i
  data : ∀ i, (s.io.blocks i).valid = true → s.pending i = false →
    (s.io.blocks i).data = s.arr (s.io.blocks i).blockno
  held : ∀ p n i, (n, i) ∈ s.io.held p → (s.io.blocks i).blockno = n ∧
    ((s.io.blocks i).valid = true ∨ s.pending i = true ∨ Written s.io i)
  pending : ∀ i, s.pending i = true → 0 < (s.io.blocks i).refcnt
  request : ∀ r ∈ s.io.disk, r.blockno = (s.io.blocks r.buf).blockno ∧
    r.data = if (s.io.blocks r.buf).dirty then some (s.io.blocks r.buf).data else none

theorem ArrInv.init [Fintype P] (stat : P → ProcStat) (zero : D) (sectors : ℕ → D) :
    ArrInv (.init stat zero sectors) where
  io := .init stat zero sectors
  found := .init stat zero sectors
  one p q hp := absurd rfl hp
  busy _ := trivial
  saved _ := .inl rfl
  clean i hi := by cases hi
  data i hi := by cases hi
  held p n i hi := by cases hi
  pending i hi := by cases hi
  request r hr := by cases hr

end Inv

/-! ## Statements of a call in progress -/

section Go
variable {P D : Type} {p q : P} {s : ArrSt P D} {io io' : IoSt P D} {i j : Buf}

/-- Only the lock of a buffer changes. -/
def Kept (b b' : Block P D) : Prop := b' = { b with lock := b'.lock }

theorem Found.of_valid (h : Found io) (hi : (io.blocks i).valid = true) :
    io.cached (io.blocks i).blockno = some i := by
  apply (h i).resolve_left
  intro hp
  rw [hp.2.1] at hi
  cases hi

/-- A call changes no buffer but its lock, unless it is at the mark of `bwrite`. -/
theorem kept_of_move [DecidableEq P] (h : IoMove p io io') {op : Op} {st : Stage}
    (hpc : io.pc p = .io op i st) (hst : op = .write → st ≠ .start) (j : Buf) :
    Kept (io.blocks j) (io'.blocks j) := by
  have hlock : ∀ k (l : Lock P),
      Kept (io.blocks j) (Function.update io.blocks k { io.blocks k with lock := l } j) := by
    intro k l
    by_cases hj : j = k
    · subst hj
      simp [Kept]
    · simp [Kept, hj]
  cases h with
  | walk | ideAcq | sleep | ideRel => rfl
  | acq _ k _ _ l _ _ _ | rel _ k _ _ l _ _ _ | readDone _ k _ l _ _ _ | writeDone k _ l _ _ _ =>
      exact hlock k l
  | send op' k t hpc' ht =>
      simp only [IoSt.sendreq, Option.ite_none_left_eq_some, Option.some.injEq, not_or,
        Nat.not_le] at ht
      obtain ⟨⟨-, hlt⟩, rfl⟩ := ht
      have hno : (io.blocks k).blockno % 2 ^ 28 = (io.blocks k).blockno :=
        Nat.mod_eq_of_lt (Nat.lt_trans hlt (by decide))
      simp only [hno]
      exact hlock k _
  | setDirty k hpc' =>
      rw [hpc] at hpc'
      cases hpc'
      exact absurd rfl (hst rfl)
  | bread _ hpc' | bwrite _ _ hpc' _ | brelse _ _ hpc' _ | fill _ _ _ hpc' _ | hit _ _ hpc' _ _
  | miss _ _ hpc' _ _ | early _ _ hpc' _ | enter _ _ hpc' _ =>
      rw [hpc] at hpc'
      cases hpc'

/-- What a process knows of its buffer, after a statement that changes locks only. -/
theorem Busy.congr [Fintype P] {pc : IoPc} (h : Busy s pc) (hpc : ∀ n, pc ≠ .bget n)
    (hkept : ∀ j, Kept (s.io.blocks j) (io.blocks j))
    (hsectors : io.sectors = s.io.sectors) : Busy { s with io } pc := by
  have hsync : ∀ j, Synced s j → Synced { s with io } j := by
    rintro j ⟨hv, hd, hs⟩
    constructor <;> simp only [hsectors] <;> rw [hkept j] <;> assumption
  have hno : ∀ n, NoPending s n → NoPending { s with io } n := by
    intro n hn j hj
    rw [show (io.blocks j).blockno = (s.io.blocks j).blockno by rw [hkept j]]
    exact hn j hj
  cases pc with
  | idle => trivial
  | bget n => exact absurd rfl (hpc n)
  | test n i =>
      simp only [Busy]
      rw [hkept i]
      exact ⟨h.1, hno n h.2.1, h.2.2⟩
  | io op i st =>
      cases op with
      | read n =>
          simp only [Busy]
          rw [hkept i]
          exact ⟨h.1, hno n h.2.1, h.2.2⟩
      | write =>
          obtain ⟨h1, h2, h3, h4, h5, h6⟩ := h
          refine ⟨h1, ?_, ?_, ?_, fun hst => ?_, fun hst => hsync i (h6 hst)⟩
          · simp only
            rw [hkept i]
            exact h2
          · simp only
            rw [hkept i]
            exact h3
          · simp only
            rw [hkept i]
            exact h4
          · simp only
            exact (h5 hst).imp (fun hd => by rw [hkept i]; exact hd) (hsync i)

/-- The others stay outside. -/
theorem Alone.move [DecidableEq P] {io io' : IoSt P D} (h : Alone io p) (hmove : IoMove p io io') :
    Alone io' p :=
  fun q hq => (hmove.other hq).1.trans (h q hq)

theorem Alone.one {io : IoSt P D} (h : Alone io p) (q r : P) (hq : io.pc q ≠ .idle)
    (hr : io.pc r ≠ .idle) : q = r := by
  have hp : ∀ u, io.pc u ≠ .idle → u = p := fun u hu => by
    by_contra hne
    exact hu (h u hne)
  rw [hp q hq, hp r hr]

variable [Fintype P]

theorem Alone.busy (h : Alone s.io p) (hp : Busy s (s.io.pc p)) (q : P) : Busy s (s.io.pc q) := by
  by_cases hqp : q = p
  · subst hqp
    exact hp
  · rw [h q hqp]
    trivial

namespace ArrInv

theorem alone (h : ArrInv s) (hp : s.io.pc p ≠ .idle) : Alone s.io p := by
  intro q hq
  by_contra hne
  exact hq (h.one q p hne hp)

theorem refcnt_of_held (h : ArrInv s) {n : ℕ} (hi : (n, i) ∈ s.io.held p) :
    0 < (s.io.blocks i).refcnt :=
  Nat.lt_of_lt_of_le (refs_pos_of_held hi) (h.io.refs.refs_le p i)

variable [DecidableEq P]

/-- A statement that changes locks only. -/
theorem kept (h : ArrInv s) (hp : s.io.pc p ≠ .idle) (hmove : IoMove p s.io io) (hio : IoInv io)
    (hfound : Found io) (hkept : ∀ j, Kept (s.io.blocks j) (io.blocks j))
    (hheld : ∀ n i, (n, i) ∈ io.held p → (n, i) ∈ s.io.held p ∨
      (s.io.blocks i).blockno = n ∧ (s.io.blocks i).valid = true)
    (hbusy : Busy { s with io } (io.pc p))
    (hwrite : ∀ j st, s.io.pc p = .io .write j st →
      (∃ st', io.pc p = .io .write j st') ∨ Synced s j)
    (hreq : ∀ r ∈ io.disk, r ∈ s.io.disk ∨ r.blockno = (s.io.blocks r.buf).blockno ∧
      r.data = if (s.io.blocks r.buf).dirty then some (s.io.blocks r.buf).data else none) :
    ArrInv { s with io } := by
  have halone := (h.alone hp).move hmove
  have hwritten : ∀ j, Written s.io j → Written io j ∨ Synced s j := by
    rintro j ⟨q, st, hq⟩
    obtain rfl : q = p := h.one q p (by rw [hq]; simp) hp
    exact (hwrite j st hq).imp_left fun ⟨st', hq'⟩ => ⟨q, st', hq'⟩
  have hblock : ∀ j, (io.blocks j).blockno = (s.io.blocks j).blockno ∧
      (io.blocks j).valid = (s.io.blocks j).valid ∧ (io.blocks j).dirty = (s.io.blocks j).dirty ∧
      (io.blocks j).refcnt = (s.io.blocks j).refcnt ∧ (io.blocks j).data = (s.io.blocks j).data :=
    fun j => by rw [hkept j]; exact ⟨rfl, rfl, rfl, rfl, rfl⟩
  refine ⟨hio, hfound, halone.one, halone.busy (s := { s with io }) hbusy, fun n => ?_,
    fun j hj => ?_, fun j hj hpend => ?_, fun q n j hj => ?_, fun j hj => ?_, fun r hr => ?_⟩
  · simp only [hmove.sectors]
    rcases h.saved n with hsame | ⟨j, hj, hno⟩
    · exact .inl hsame
    · rcases hwritten j hj with hj' | hsync
      · exact .inr ⟨j, hj', (hblock j).1.trans hno⟩
      · exact .inl (hno ▸ hsync.sector)
  · rw [(hblock j).2.2.1] at hj
    apply (hwritten j (h.clean j hj)).resolve_right
    intro hsync
    rw [hsync.dirty] at hj
    cases hj
  · simp only [(hblock j).1, (hblock j).2.1, (hblock j).2.2.2.2] at hj ⊢
    exact h.data j hj hpend
  · have hold : (n, j) ∈ s.io.held q ∨
        (s.io.blocks j).blockno = n ∧ (s.io.blocks j).valid = true := by
      by_cases hqp : q = p
      · subst hqp
        exact hheld n j hj
      · exact .inl ((hmove.other hqp).2 ▸ hj)
    simp only [(hblock j).1, (hblock j).2.1]
    rcases hold with hold | ⟨hno, hvalid⟩
    · obtain ⟨hno, hstate⟩ := h.held q n j hold
      refine ⟨hno, ?_⟩
      rcases hstate with hvalid | hpend | hw
      · exact .inl hvalid
      · exact .inr (.inl hpend)
      · rcases hwritten j hw with hw' | hsync
        · exact .inr (.inr hw')
        · exact .inl hsync.valid
    · exact ⟨hno, .inl hvalid⟩
  · rw [(hblock j).2.2.2.1]
    exact h.pending j hj
  · simp only [(hblock r.buf).1, (hblock r.buf).2.2.1, (hblock r.buf).2.2.2.2]
    exact (hreq r hr).elim (h.request r) id

end ArrInv
end Go

section Stages
variable {P D : Type} [Fintype P] {p q : P} {s : ArrSt P D} {io io' : IoSt P D} {i j : Buf}

namespace Busy

/-- A stage of the same kind asks for nothing new. -/
theorem stage {op : Op} {st st' : Stage} (h : Busy s (.io op i st)) (ht : st'.testing → st.testing)
    (hu : st'.unmarked → st.unmarked) (hm : st'.marked → st.marked)
    (hr : st'.requesting → st.requesting) (hd : st'.done → st.done) : Busy s (.io op i st') := by
  cases op with
  | read n => exact ⟨h.1, h.2.1, fun hst => h.2.2.1 (hd hst), fun hst => h.2.2.2 (ht hst)⟩
  | write =>
      obtain ⟨h1, h2, h3, h4, h5, h6⟩ := h
      exact ⟨h1, h2, fun hst => h3 (hu hst), fun hst => h4 (hm hst), fun hst => h5 (hr hst),
        fun hst => h6 (hd hst)⟩

/-- A statement that only moves the process on. -/
theorem walk {op : Op} {st st' : Stage} {wchan : Option IoChan} (h : Busy s (.io op i st))
    (hw : Walk (s.io.blocks i) wchan op st st') : Busy s (.io op i st') := by
  cases hw with
  | valid n hv => exact ⟨h.1, h.2.1, fun _ => hv, fun hst => by cases hst⟩
  | invalid n hv => exact ⟨h.1, h.2.1, fun hst => by (cases hst), fun _ => hv⟩
  | rw _ | todo _ _ | again _ _ | woken _ _ =>
      apply h.stage <;> intro hst <;> first | rfl | cases hst
  | done _ hready =>
      simp only [Block.ready, Bool.and_eq_true, Bool.not_eq_true'] at hready
      cases op with
      | read n => exact ⟨h.1, h.2.1, fun _ => hready.1, fun hst => by cases hst⟩
      | write =>
          obtain ⟨h1, h2, h3, h4, h5, h6⟩ := h
          refine ⟨h1, h2, fun hst => (by cases hst), fun hst => (by cases hst),
            fun hst => (by cases hst), fun _ => (h5 rfl).resolve_left ?_⟩
          rw [hready.2]
          exact Bool.false_ne_true

end Busy

namespace ArrInv
variable [DecidableEq P]

/-- The mark of `bwrite`. -/
theorem mark (h : ArrInv s) (hpc : s.io.pc p = .io .write i .start)
    (hio : IoInv ((s.io.setBlock i { s.io.blocks i with dirty := true }).goto p (.io .write i .rw)))
    (hfound : Found ((s.io.setBlock i { s.io.blocks i with dirty := true }).goto p
      (.io .write i .rw))) :
    ArrInv ⟨(s.io.setBlock i { s.io.blocks i with dirty := true }).goto p (.io .write i .rw),
      s.arr, s.pending⟩ := by
  have hp : s.io.pc p ≠ .idle := by simp [hpc]
  have hbusy := h.busy p
  rw [hpc] at hbusy
  obtain ⟨hpend, hdata, -⟩ := hbusy
  have hdisk : s.io.disk = none := by
    rcases hr : s.io.disk with _ | r
    · rfl
    · -- The requester would be `p`, which is not in the loop of `iderw`.
      obtain ⟨-, op, st, hpc', hst⟩ := h.io.reqs.request r hr
      obtain rfl := h.one r.proc p (by simp [hpc']) hp
      rw [hpc] at hpc'
      cases hpc'
      cases hst
  have halone : Alone ((s.io.setBlock i { s.io.blocks i with dirty := true }).goto p
      (.io .write i .rw)) p := fun q hq => by
    rw [IoSt.goto_pc, Function.update_of_ne hq]
    exact h.alone hp q hq
  have hwritten : ∀ j, Written s.io j →
      Written ((s.io.setBlock i { s.io.blocks i with dirty := true }).goto p (.io .write i .rw)) j := by
    rintro j ⟨q, st, hq⟩
    obtain rfl := h.one q p (by simp [hq]) hp
    rw [hpc] at hq
    cases hq
    exact ⟨q, .rw, by simp⟩
  have hsame : ∀ j, (Function.update s.io.blocks i { s.io.blocks i with dirty := true } j) =
      { s.io.blocks j with dirty := if j = i then true else (s.io.blocks j).dirty } := by
    intro j
    by_cases hj : j = i
    · subst hj
      simp
    · simp [hj]
  refine ⟨hio, hfound, halone.one, halone.busy ?_, fun n => ?_, fun j hj => ?_,
    fun j hj hpend' => ?_, fun q n j hj => ?_, fun j hj => ?_, fun r hr => ?_⟩
  · simp only [IoSt.goto_pc, IoSt.setBlock_pc, Function.update_self]
    refine ⟨hpend, ?_, fun hst => (by cases hst), fun _ => ?_, fun hst => (by cases hst),
      fun hst => (by cases hst)⟩
    · simpa using hdata
    · simp
  · apply (h.saved n).imp_right
    rintro ⟨j, hj, hno⟩
    exact ⟨j, hwritten j hj, by simpa [hsame] using hno⟩
  · apply hwritten
    by_cases hji : j = i
    · subst hji
      exact ⟨p, .start, hpc⟩
    · exact h.clean j (by simpa [hji] using hj)
  · simp only [IoSt.goto_blocks, IoSt.setBlock_blocks, hsame] at hj ⊢
    exact h.data j hj hpend'
  · obtain ⟨hno, hstate⟩ := h.held q n j hj
    simp only [IoSt.goto_blocks, IoSt.setBlock_blocks, hsame]
    exact ⟨hno, hstate.imp_right fun hstate => hstate.imp_right (hwritten j)⟩
  · simp only [IoSt.goto_blocks, IoSt.setBlock_blocks, hsame]
    exact h.pending j hj
  · have hnone : s.io.disk = some r := hr
    rw [hdisk] at hnone
    cases hnone

/-- The invariants of the buffers and of the search, when nobody else is in a call. -/
theorem next_of_alone (h : ArrInv s) (halone : Alone s.io p) (href : SafeRef s.io (s.io.pc p))
    {call : Bio D} (hnext : s.io.next p call = some io) : IoInv io ∧ Found io :=
  ⟨h.io.next href (halone.safeBlk h.io.locks) (halone.safeIde h.io.locks) hnext,
    h.found.next h.io.refs hnext⟩

/-- **A statement** between `acquire(&b->lock)` and `release(&b->lock)`. -/
theorem io_next (h : ArrInv s) {op : Op} {st : Stage} (hpc : s.io.pc p = .io op i st)
    (hnext : s.io.next p .go = some io) : ArrInv { s with io } := by
  have hp : s.io.pc p ≠ .idle := by simp [hpc]
  have hmove := next_cases hnext
  have halone := h.alone hp
  obtain ⟨hio, hfound⟩ := h.next_of_alone halone (by rw [hpc]; trivial) hnext
  have hbusy := h.busy p
  rw [hpc] at hbusy
  by_cases hmark : op = .write ∧ st = .start
  · obtain ⟨rfl, rfl⟩ := hmark
    simp only [IoSt.next, hpc, IoSt.ioNext, Option.ite_none_right_eq_some,
      Option.some.injEq] at hnext
    obtain ⟨-, rfl⟩ := hnext
    exact h.mark hpc hio hfound
  have hkept := kept_of_move hmove hpc fun hop hst => hmark ⟨hop, hst⟩
  -- The process goes on with its buffer.
  have hstays : ∀ st', io.pc p = .io op i st' → Busy s (.io op i st') →
      io.held p = s.io.held p → (∀ r ∈ io.disk, r ∈ s.io.disk ∨
        r.blockno = (s.io.blocks r.buf).blockno ∧
        r.data = if (s.io.blocks r.buf).dirty then some (s.io.blocks r.buf).data else none) →
      ArrInv { s with io } := by
    intro st' hpc' hbusy' hheld hreq
    apply h.kept hp hmove hio hfound hkept
    · exact fun n j hj => .inl (hheld ▸ hj)
    · rw [hpc']
      exact hbusy'.congr (by simp) hkept hmove.sectors
    · intro j st₁ hj
      rw [hpc] at hj
      cases hj
      exact .inl ⟨st', hpc'⟩
    · exact hreq
  cases hmove with
  | walk op' j st₁ st₂ hpc₁ hw =>
      rw [hpc] at hpc₁
      cases hpc₁
      exact hstays st₂ (by simp) (hbusy.walk hw) rfl fun r hr => .inl hr
  | setDirty j hpc₁ =>
      rw [hpc] at hpc₁
      cases hpc₁
      exact absurd ⟨rfl, rfl⟩ hmark
  | acq op' j a a' lock tab hpc₁ ha =>
      rw [hpc] at hpc₁
      cases hpc₁
      refine hstays _ (by simp; rfl) (hbusy.stage ?_ ?_ ?_ ?_ ?_) rfl fun r hr => .inl hr
      all_goals cases a' <;> simp [Stage.testing, Stage.unmarked, Stage.marked, Stage.requesting, Stage.done]
  | ideAcq op' j a a' idelock tab hpc₁ ha =>
      rw [hpc] at hpc₁
      cases hpc₁
      refine hstays _ (by simp; rfl) (hbusy.stage ?_ ?_ ?_ ?_ ?_) rfl fun r hr => .inl hr
      all_goals cases a' <;> simp [Stage.testing, Stage.unmarked, Stage.marked, Stage.requesting, Stage.done]
  | sleep op' j hpc₁ =>
      rw [hpc] at hpc₁
      cases hpc₁
      refine hstays .wait (by simp) (hbusy.stage ?_ ?_ ?_ ?_ ?_) rfl fun r hr => .inl hr
      all_goals simp [Stage.testing, Stage.unmarked, Stage.marked, Stage.requesting, Stage.done]
  | ideRel op' j r r' idelock tab hpc₁ hr =>
      rw [hpc] at hpc₁
      cases hpc₁
      refine hstays _ (by simp; rfl) (hbusy.stage ?_ ?_ ?_ ?_ ?_) rfl fun r hr => .inl hr
      all_goals cases r' <;> simp [Stage.testing, Stage.unmarked, Stage.marked, Stage.requesting, Stage.done]
  | rel op' j r r' lock tab hpc₁ hr =>
      rw [hpc] at hpc₁
      cases hpc₁
      refine hstays (.rel r') (by simp) (hbusy.stage ?_ ?_ ?_ ?_ ?_) rfl fun r hr => .inl hr
      all_goals simp [Stage.testing, Stage.unmarked, Stage.marked, Stage.requesting, Stage.done]
  | send op' j t hpc₁ ht =>
      rw [hpc] at hpc₁
      cases hpc₁
      simp only [IoSt.sendreq, Option.ite_none_left_eq_some, Option.some.injEq, not_or,
        Nat.not_le] at ht
      obtain ⟨⟨-, hlt⟩, rfl⟩ := ht
      have hno : (s.io.blocks i).blockno % 2 ^ 28 = (s.io.blocks i).blockno :=
        Nat.mod_eq_of_lt (Nat.lt_trans hlt (by decide))
      refine hstays .loop (by simp) ?_ rfl ?_
      · cases op with
        | read n => exact ⟨hbusy.1, hbusy.2.1, fun hst => (by cases hst), fun hst => by cases hst⟩
        | write =>
            obtain ⟨h1, h2, -, h4, -, -⟩ := hbusy
            exact ⟨h1, h2, fun hst => (by cases hst), fun hst => (by cases hst),
              fun _ => .inl (h4 rfl), fun hst => by cases hst⟩
      · intro r hr
        obtain rfl := Option.some.inj hr
        exact .inr ⟨hno, rfl⟩
  | readDone n j r lock tab hpc₁ hr =>
      rw [hpc] at hpc₁
      cases hpc₁
      apply h.kept hp (.readDone n i r lock tab hpc hr) hio hfound hkept
      · intro m j hj
        rcases IoSt.mem_setHeld_cons hj with ⟨rfl, rfl⟩ | hold
        · exact .inr ⟨hbusy.1, hbusy.2.2.1 rfl⟩
        · exact .inl hold
      · simp only [IoSt.goto_pc, Function.update_self]
        trivial
      · intro j st₁ hj
        rw [hpc] at hj
        cases hj
      · exact fun r hr => .inl hr
  | writeDone j r lock tab hpc₁ hr =>
      rw [hpc] at hpc₁
      cases hpc₁
      apply h.kept hp (.writeDone i r lock tab hpc hr) hio hfound hkept
      · exact fun m j hj => .inl hj
      · simp only [IoSt.goto_pc, Function.update_self]
        trivial
      · intro j st₁ hj
        rw [hpc] at hj
        cases hj
        obtain ⟨-, -, -, -, -, h6⟩ := hbusy
        exact .inr (h6 rfl)
      · exact fun r hr => .inl hr
  | bread _ hpc₁ | bwrite _ _ hpc₁ _ | brelse _ _ hpc₁ _ | fill _ _ _ hpc₁ _ | hit _ _ hpc₁ _ _
  | miss _ _ hpc₁ _ _ | early _ _ hpc₁ _ | enter _ _ hpc₁ _ =>
      rw [hpc] at hpc₁
      cases hpc₁

end ArrInv
end Stages

/-! ## Interrupts -/

section Intr
variable {P D : Type} [Fintype P] {s : ArrSt P D} {io : IoSt P D}

/-- **A completion** makes the buffer of the request agree with the array. -/
theorem ArrInv.intr (h : ArrInv s) (hsafe : SafeIntr s.io) (hintr : s.io.ideintr = some io) :
    ArrInv { s with io } := by
  have hio := h.io.intr hsafe hintr
  have hfound : Found io := by
    apply h.found.intr (fun p i hw => ?_) hintr
    obtain ⟨op, hpc⟩ := h.io.reqs.asleep p i hw
    exact Nat.lt_of_lt_of_le (h.io.refs.refs_pos_of_io hpc) (h.io.refs.refs_le p i)
  obtain ⟨r, hc⟩ := ideintr_cases h.io hsafe hintr
  obtain ⟨⟨op, hpc⟩, -⟩ := hc.requester h.io hsafe
  have hready := (h.io.reqs.request r hc.outstanding).1
  obtain ⟨hrno, hrdata⟩ := h.request r hc.outstanding
  have hbusy := h.busy r.proc
  rw [hpc] at hbusy
  have honly : ∀ j, Written s.io j → op = .write ∧ j = r.buf := by
    rintro j ⟨q, st, hq⟩
    obtain rfl := h.one q r.proc (by simp [hq]) (by simp [hpc])
    rw [hpc] at hq
    cases hq
    exact ⟨rfl, rfl⟩
  -- The drive has stored to the sector of the buffer only.
  have hsectors : ∀ n, n ≠ (s.io.blocks r.buf).blockno → io.sectors n = s.io.sectors n := by
    intro n hn
    rw [hc.sectors]
    cases r.data with
    | none => rfl
    | some d => exact Function.update_of_ne (hrno ▸ hn) ..
  have hbuf : io.sectors (s.io.blocks r.buf).blockno = s.arr (s.io.blocks r.buf).blockno ∧
      (io.blocks r.buf).data = s.arr (s.io.blocks r.buf).blockno := by
    cases op with
    | read n =>
        have hclean : (s.io.blocks r.buf).dirty = false := by
          by_contra hdirty
          rw [Bool.not_eq_false] at hdirty
          cases (honly _ (h.clean _ hdirty)).1
        have hsame : s.io.sectors (s.io.blocks r.buf).blockno =
            s.arr (s.io.blocks r.buf).blockno := by
          apply (h.saved _).resolve_right
          rintro ⟨j, hj, -⟩
          cases (honly j hj).1
        rw [hclean] at hrdata
        have hkeep : io.sectors = s.io.sectors := by
          rw [hc.sectors, hrdata]
          rfl
        rw [hc.block, hrdata, hclean, hrno, hkeep]
        exact ⟨hsame, hsame⟩
    | write =>
        obtain ⟨-, hdata, -, -, hreq, -⟩ := hbusy
        have hdirty : (s.io.blocks r.buf).dirty = true := by
          apply (hreq rfl).resolve_right
          intro hsync
          simp [Block.ready, hsync.valid, hsync.dirty] at hready
        rw [hdirty] at hrdata
        rw [hc.block, hc.sectors, hrdata, hdirty, ← hdata, hrno]
        simp
  have hsync : Synced { s with io } r.buf := by
    refine ⟨?_, ?_, ?_⟩
    · simp only [hc.block]
    · simp only [hc.block]
    · simp only [(hc.same r.buf).2.2]
      exact hbuf.1
  have hno := fun j => (hc.same j).2.2
  have hwritten : ∀ j, Written s.io j → Written io j := by
    rintro j ⟨q, st, hq⟩
    exact ⟨q, st, hc.pc ▸ hq⟩
  have halone : Alone io r.proc := fun q hq => by
    rw [hc.pc]
    exact h.alone (by simp [hpc]) q hq
  refine ⟨hio, hfound, halone.one, halone.busy (s := { s with io }) ?_, fun n => ?_,
    fun j hj => ?_, fun j hj hpend => ?_, fun q n j hj => ?_, fun j hj => ?_, fun r' hr' => ?_⟩
  · simp only [hc.pc, hpc]
    cases op with
    | read n =>
        refine ⟨(hno _).trans hbusy.1, fun j hj => ?_, fun hst => (by cases hst),
          fun hst => by cases hst⟩
        simp only [hno]
        exact hbusy.2.1 j hj
    | write =>
        refine ⟨hbusy.1, ?_, fun hst => (by cases hst), fun hst => (by cases hst),
          fun _ => .inr hsync, fun hst => by cases hst⟩
        simp only [hno]
        exact hbuf.2
  · by_cases hn : n = (s.io.blocks r.buf).blockno
    · subst hn
      exact .inl hbuf.1
    · simp only [hsectors n hn]
      apply (h.saved n).imp_right
      rintro ⟨j, hj, hjn⟩
      exact ⟨j, hwritten j hj, (hno j).trans hjn⟩
  · by_cases hj' : j = r.buf
    · subst hj'
      rw [hc.block] at hj
      cases hj
    · rw [hc.other j hj'] at hj
      exact hwritten j (h.clean j hj)
  · simp only [hno]
    by_cases hj' : j = r.buf
    · subst hj'
      exact hbuf.2
    · simp only [hc.other j hj'] at hj ⊢
      exact h.data j hj hpend
  · obtain ⟨hjn, hstate⟩ := h.held q n j (hc.held ▸ hj)
    refine ⟨(hno j).trans hjn, ?_⟩
    by_cases hj' : j = r.buf
    · subst hj'
      exact .inl hsync.valid
    · simp only [hc.other j hj']
      exact hstate.imp_right fun hstate => hstate.imp_right (hwritten j)
  · rw [(hc.same j).1]
    exact h.pending j hj
  · have hsome : io.disk = some r' := hr'
    rw [hc.disk] at hsome
    cases hsome

end Intr

end Mixv6.Fs
