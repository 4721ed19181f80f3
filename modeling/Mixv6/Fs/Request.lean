import Mixv6.Fs.BioMove

/-!
# Disk requests and their completions

`ideintr` finds the buffer through `idelock.procp->wchan`, which points to the buffer
only while the requester is asleep in `sleep(b)`.  The drive may interrupt before that.

## Main definitions

* `CompletionsMatch` — interrupts act on the buffer of the request, and nobody sleeps on
  a buffer without a request outstanding for it.
* `SafeIo`, `completions_match` — it holds in every run in which the drive interrupts
  only a requester that is asleep and the locks work.
-/

namespace Mixv6.Fs

open Mixv6.Lib Mixv6.Kernel

variable {P D : Type}

/-- Every interrupt so far acted on the buffer of the request that was outstanding, and
whoever sleeps on a buffer has a request outstanding for it. -/
structure CompletionsMatch (s : IoSt P D) : Prop where
  acted : ∀ e ∈ s.log, e.2 = some (.blk e.1.buf)
  asleep : ∀ p i, s.tab.wchan p = some (.blk i) → ∃ r, s.disk = some r ∧ r.proc = p ∧ r.buf = i

/-- The drive interrupts only while the requester sleeps on its buffer. -/
def SafeIntr (s : IoSt P D) : Prop :=
  ∀ r ∈ s.disk, s.tab.wchan r.proc = some (.blk r.buf)

/-- No reference count overflows, no process overtakes another one in the middle of
`acquire` or `release`, and the drive interrupts only a sleeping requester. -/
def SafeIo (s : Cpu P (IoSt P D)) : CpuEvent P (Bio D) → Prop
  | .exec _ => SafeRef s.st (s.st.pc s.cur) ∧ SafeBlk s.st s.cur (s.st.pc s.cur) ∧
      SafeIde s.st s.cur (s.st.pc s.cur)
  | .switch _ => True
  | .intr => SafeIntr s.st

instance [DecidableEq P] (s : Cpu P (IoSt P D)) : ∀ e : CpuEvent P (Bio D), Decidable (SafeIo s e)
  | .exec _ => inferInstanceAs (Decidable (_ ∧ _ ∧ _))
  | .switch _ => .isTrue trivial
  | .intr => inferInstanceAs (Decidable (∀ r ∈ s.st.disk, _))

/-! ## What the statements do to the drive, the flags and the sleepers -/

/-- `iderw` past its tests and before `sendreq`. -/
def Stage.unready : Stage → Bool
  | .ideAcq _ | .send => true
  | _ => false

theorem Stage.blk_of_requesting {st : Stage} (h : st.requesting) : st.blk = .holding := by
  cases st <;> first | rfl | cases h

theorem Stage.ide_of_requesting {st : Stage} (h : st.requesting) : st.ide = .holding := by
  cases st <;> first | rfl | cases h

theorem Stage.blk_of_unready {st : Stage} (h : st.unready) : st.blk = .holding := by
  cases st <;> first | rfl | cases h

/-- `p` has a request for buffer `i` outstanding. -/
def IoSt.Pending (s : IoSt P D) (p : P) (i : Buf) : Prop :=
  ∃ r, s.disk = some r ∧ r.proc = p ∧ r.buf = i

variable [DecidableEq P] {p q : P} {s s' : IoSt P D}

theorem wchan_of_acquireStep {a : Acq} {a' : Option Acq} {c d : IoChan} {l l' : Lock P}
    {t t' : ProcTab P IoChan} (h : acquireStep p c a l t = some (a', l', t')) (hd : d ≠ c)
    (hq : t'.wchan q = some d) : t.wchan q = some d := by
  rcases tab_of_acquireStep h with rfl | rfl
  · exact hq
  · rw [ProcTab.wchan_sleep] at hq
    split at hq
    · exact absurd (Option.some.inj hq).symm hd
    · exact hq

omit [DecidableEq P] in
theorem wchan_of_releaseStep {r : Rel} {r' : Option Rel} {c d : IoChan} {l l' : Lock P}
    {t t' : ProcTab P IoChan} (h : releaseStep c r l t = (r', l', t'))
    (hq : t'.wchan q = some d) : t.wchan q = some d := by
  rcases tab_of_releaseStep h with rfl | rfl
  · exact hq
  · exact ProcTab.wchan_of_wakeup hq

/-- Only `sleep(b)` puts a process to sleep on a buffer. -/
theorem wchan_move (h : IoMove p s s') {i : Buf} (hq : s'.tab.wchan q = some (.blk i)) :
    s.tab.wchan q = some (.blk i) ∨
      q = p ∧ ∃ op, s.pc p = .io op i .sleep ∧ s'.pc p = .io op i .wait := by
  cases h with
  | acq op j a a' lock tab hpc ha => exact .inl (wchan_of_acquireStep ha (by simp) hq)
  | ideAcq op j a a' idelock tab hpc ha => exact .inl (wchan_of_acquireStep ha (by simp) hq)
  | ideRel op j r r' idelock tab hpc hr => exact .inl (wchan_of_releaseStep hr hq)
  | rel op j r r' lock tab hpc hr | readDone n j r lock tab hpc hr
  | writeDone j r lock tab hpc hr => exact .inl (wchan_of_releaseStep hr hq)
  | send op j s' hpc ht =>
      simp only [IoSt.sendreq, Option.ite_none_left_eq_some, Option.some.injEq] at ht
      obtain ⟨-, rfl⟩ := ht
      exact .inl hq
  | sleep op j hpc =>
      simp only [ProcTab.wchan_sleep] at hq
      split at hq
      next hqp =>
        obtain rfl : j = i := by simpa using hq
        exact .inr ⟨hqp, op, hpc, by simp⟩
      next => exact .inl hq
  | _ => exact .inl hq

/-- A process that sleeps on a buffer is not moving. -/
theorem wait_of_move (h : IoMove p s s') {op : Op} {i : Buf} (hpc : s.pc p = .io op i .wait) :
    s.tab.wchan p = none := by
  cases h with
  | walk op' j st st' hpc' hw =>
      obtain ⟨rfl, rfl, rfl⟩ : op = op' ∧ i = j ∧ Stage.wait = st := by simpa [hpc] using hpc'
      cases hw with
      | woken _ h => exact h
  | _ => simp_all

/-- Who sleeps on a buffer is in the loop of `iderw`. -/
theorem asleep_move (hasleep : ∀ p i, s.tab.wchan p = some (.blk i) → ∃ op, s.pc p = .io op i .wait)
    (h : IoMove p s s') (q : P) (i : Buf) (hq : s'.tab.wchan q = some (.blk i)) :
    ∃ op, s'.pc q = .io op i .wait := by
  rcases wchan_move h hq with hold | ⟨rfl, op, -, hpc'⟩
  · obtain ⟨op, hpc⟩ := hasleep q i hold
    by_cases hqp : q = p
    · subst hqp
      rw [wait_of_move h hpc] at hold; cases hold
    · exact ⟨op, (h.other hqp).1 ▸ hpc⟩
  · exact ⟨op, hpc'⟩

/-- Only `sendreq` gives the drive a command. -/
theorem disk_move (h : IoMove p s s') :
    s'.disk = s.disk ∨
      s.disk = none ∧ ∃ op i r, s.pc p = .io op i .send ∧ s'.pc p = .io op i .loop ∧
        s'.disk = some r ∧ r.proc = p ∧ r.buf = i := by
  cases h with
  | send op i s' hpc ht =>
      simp only [IoSt.sendreq, Option.ite_none_left_eq_some, Option.some.injEq, not_or,
        Option.not_isSome_iff_eq_none] at ht
      obtain ⟨⟨hnone, -⟩, rfl⟩ := ht
      exact .inr ⟨hnone, op, i, _, hpc, by simp, rfl, rfl, rfl⟩
  | _ => exact .inl rfl

/-- Nobody changes the block number or the flags of a buffer while somebody else has its
lock and a reference to it. -/
theorem flags_move [Fintype P] (href : RefInv s) (hlocks : LockPhases s) (h : IoMove p s s')
    (hqp : q ≠ p) {op : Op} {i : Buf} {st : Stage} (hq : s.pc q = .io op i st)
    (hst : st.blk = .holding) : (s'.blocks i).blockno = (s.blocks i).blockno ∧
      (s'.blocks i).valid = (s.blocks i).valid ∧ (s'.blocks i).dirty = (s.blocks i).dirty := by
  -- The other process would have the lock too.
  have hlock : ∀ op' st', s.pc p = .io op' i st' → st'.blk = .holding → False := by
    intro op' st' hp hst'
    refine hqp ((hlocks.blk i).unique q p ?_ ?_) <;> simp [hq, hp, IoPc.blkPhase, hst, hst']
  have hpos : 0 < (s.blocks i).refcnt :=
    Nat.lt_of_lt_of_le (href.refs_pos_of_io hq) (href.refs_le q i)
  have hsame : ∀ j (b : Block P D), (b.blockno = (s.blocks j).blockno ∧
      b.valid = (s.blocks j).valid ∧ b.dirty = (s.blocks j).dirty) →
      (Function.update s.blocks j b i).blockno = (s.blocks i).blockno ∧
        (Function.update s.blocks j b i).valid = (s.blocks i).valid ∧
        (Function.update s.blocks j b i).dirty = (s.blocks i).dirty := by
    rintro j b ⟨h1, h2, h3⟩
    exact ⟨update_same Block.blockno h1 i, update_same Block.valid h2 i,
      update_same Block.dirty h3 i⟩
  cases h with
  | miss n j hpc hz hd =>
      have hij : i ≠ j := by rintro rfl; omega
      simp [hij]
  | setDirty j hpc =>
      have hij : i ≠ j := by rintro rfl; exact hlock _ _ hpc rfl
      simp [hij]
  | send op' j t hpc ht =>
      have hij : i ≠ j := by rintro rfl; exact hlock _ _ hpc rfl
      simp only [IoSt.sendreq, Option.ite_none_left_eq_some, Option.some.injEq] at ht
      obtain ⟨-, rfl⟩ := ht
      simp [hij]
  | brelse n j _ _ | fill n j d _ _ | hit n j _ _ _ | acq op' j _ _ _ _ _ _
  | rel op' j _ _ _ _ _ _ | readDone n j _ _ _ _ _ | writeDone j _ _ _ _ _ =>
      exact hsame j _ ⟨rfl, rfl, rfl⟩
  | _ => exact ⟨rfl, rfl, rfl⟩

/-! ## The invariant -/

/-- The outstanding request belongs to a process in the loop of `iderw`, and a process in
that loop has a request outstanding or has had it served. -/
structure ReqInv (s : IoSt P D) : Prop where
  asleep : ∀ p i, s.tab.wchan p = some (.blk i) → ∃ op, s.pc p = .io op i .wait
  request : ∀ r, s.disk = some r → (s.blocks r.buf).ready = false ∧
    ∃ op st, s.pc r.proc = .io op r.buf st ∧ st.requesting
  unready : ∀ p op i st, s.pc p = .io op i st → st.unready → (s.blocks i).ready = false
  served : ∀ p op i st, s.pc p = .io op i st → st.requesting → s.Pending p i ∨
    (s.blocks i).ready ∧ st ≠ .sleep ∧ s.tab.wchan p ≠ some (.blk i)
  acted : ∀ e ∈ s.log, e.2 = some (.blk e.1.buf)

/-- All that holds of the buffers, the locks and the drive. -/
structure IoInv [Fintype P] (s : IoSt P D) : Prop where
  refs : RefInv s
  locks : LockPhases s
  reqs : ReqInv s

omit [DecidableEq P] in
theorem ReqInv.completionsMatch (h : ReqInv s) : CompletionsMatch s where
  acted := h.acted
  asleep p i hp := by
    obtain ⟨op, hpc⟩ := h.asleep p i hp
    rcases h.served p op i _ hpc rfl with hpend | ⟨-, -, hne⟩
    · exact hpend
    · exact absurd hp hne

/-- A process that moves within the loop of `iderw`, or into it. -/
theorem requesting_move (h : IoMove p s s') {op : Op} {i : Buf} {st' : Stage}
    (hpc' : s'.pc p = .io op i st') (hst' : st'.requesting) :
    (s.pc p = .io op i .send ∧ st' = .loop ∧ s'.Pending p i) ∨
      (s'.disk = s.disk ∧ s'.blocks = s.blocks ∧ ∃ st, s.pc p = .io op i st ∧ st.requesting ∧
        ((st = .loop ∧ (s.blocks i).ready = false ∧ st' = .sleep) ∨ (st = .sleep ∧ st' = .wait) ∨
          st = .wait ∧ st' = .loop ∧ s'.tab.wchan p = none)) := by
  cases h with
  | send op' j t hpc ht =>
      simp only [IoSt.sendreq, Option.ite_none_left_eq_some, Option.some.injEq] at ht
      obtain ⟨-, rfl⟩ := ht
      obtain ⟨rfl, rfl, rfl⟩ : op' = op ∧ j = i ∧ Stage.loop = st' := by simpa using hpc'
      exact .inl ⟨hpc, rfl, _, rfl, rfl, rfl⟩
  | walk op' j st₁ st₂ hpc hw =>
      obtain ⟨rfl, rfl, rfl⟩ : op' = op ∧ j = i ∧ st₂ = st' := by simpa using hpc'
      refine .inr ⟨rfl, rfl, st₁, hpc, ?_⟩
      cases hw with
      | again _ hr => exact ⟨rfl, .inl ⟨rfl, hr, rfl⟩⟩
      | woken _ hw => exact ⟨rfl, .inr (.inr ⟨rfl, rfl, hw⟩)⟩
      | _ => cases hst'
  | sleep op' j hpc =>
      obtain ⟨rfl, rfl, rfl⟩ : op' = op ∧ j = i ∧ Stage.wait = st' := by simpa using hpc'
      exact .inr ⟨rfl, rfl, .sleep, hpc, rfl, .inr (.inl ⟨rfl, rfl⟩)⟩
  | acq op' j a a' lock tab hpc ha =>
      cases a' <;> simp at hpc' <;> obtain ⟨-, -, rfl⟩ := hpc' <;> cases hst'
  | ideAcq op' j a a' idelock tab hpc ha =>
      cases a' <;> simp at hpc' <;> obtain ⟨-, -, rfl⟩ := hpc' <;> cases hst'
  | ideRel op' j r r' idelock tab hpc hr =>
      cases r' <;> simp at hpc' <;> obtain ⟨-, -, rfl⟩ := hpc' <;> cases hst'
  | rel op' j r r' lock tab hpc hr =>
      simp at hpc'
      obtain ⟨-, -, rfl⟩ := hpc'
      cases hst'
  | fill n j d hpc _ => simp [hpc] at hpc'
  | brelse n j hpc _ => simp [hpc] at hpc'
  | bwrite n j hpc _ | enter n j hpc _ | setDirty j hpc =>
      simp at hpc'
      obtain ⟨-, -, rfl⟩ := hpc'
      cases hst'
  | bread n hpc | hit n j hpc _ _ | miss n j hpc _ _ | early n j hpc _
  | readDone n j _ _ _ hpc _ | writeDone j _ _ _ hpc _ => simp at hpc'

/-- A process that moves towards `sendreq`. -/
theorem unready_move (h : IoMove p s s') {op : Op} {i : Buf} {st' : Stage}
    (hpc' : s'.pc p = .io op i st') (hst' : st'.unready) :
    s'.blocks = s.blocks ∧ ((s.blocks i).ready = false ∨
      ∃ st, s.pc p = .io op i st ∧ st.unready) := by
  cases h with
  | walk op' j st₁ st₂ hpc hw =>
      obtain ⟨rfl, rfl, rfl⟩ : op' = op ∧ j = i ∧ st₂ = st' := by simpa using hpc'
      refine ⟨rfl, .inl ?_⟩
      cases hw with
      | todo _ hr => exact hr
      | _ => cases hst'
  | ideAcq op' j a a' idelock tab hpc ha =>
      obtain ⟨rfl, rfl, -⟩ : op' = op ∧ j = i ∧ _ := by simpa using hpc'
      exact ⟨rfl, .inr ⟨_, hpc, rfl⟩⟩
  | send op' j t hpc ht =>
      obtain ⟨-, -, rfl⟩ : op' = op ∧ j = i ∧ Stage.loop = st' := by simpa using hpc'
      cases hst'
  | sleep op' j hpc =>
      obtain ⟨-, -, rfl⟩ : op' = op ∧ j = i ∧ Stage.wait = st' := by simpa using hpc'
      cases hst'
  | acq op' j a a' lock tab hpc ha =>
      cases a' <;> simp at hpc' <;> obtain ⟨-, -, rfl⟩ := hpc' <;> cases hst'
  | ideRel op' j r r' idelock tab hpc hr =>
      cases r' <;> simp at hpc' <;> obtain ⟨-, -, rfl⟩ := hpc' <;> cases hst'
  | rel op' j r r' lock tab hpc hr | bwrite n j hpc _ | enter n j hpc _ | setDirty j hpc =>
      simp at hpc'
      obtain ⟨-, -, rfl⟩ := hpc'
      cases hst'
  | fill n j d hpc _ | brelse n j hpc _ => simp [hpc] at hpc'
  | bread n hpc | hit n j hpc _ _ | miss n j hpc _ _ | early n j hpc _
  | readDone n j _ _ _ hpc _ | writeDone j _ _ _ hpc _ => simp at hpc'

omit [DecidableEq P] in
theorem ready_eq {b b' : Block P D} (h : b'.blockno = b.blockno ∧ b'.valid = b.valid ∧
    b'.dirty = b.dirty) : b'.ready = b.ready := by
  simp only [Block.ready, h.2.1, h.2.2]

/-- A process with an outstanding request stays in the loop of `iderw`. -/
theorem requesting_stays (h : IoMove p s s') {op : Op} {i : Buf} {st : Stage}
    (hpc : s.pc p = .io op i st) (hst : st.requesting) (hr : (s.blocks i).ready = false) :
    s'.blocks = s.blocks ∧ s'.disk = s.disk ∧ ∃ st', s'.pc p = .io op i st' ∧ st'.requesting := by
  cases h with
  | walk op' j st₁ st₂ hpc₁ hw =>
      obtain ⟨rfl, rfl, rfl⟩ : op = op' ∧ i = j ∧ st = st₁ := by simpa [hpc] using hpc₁
      refine ⟨rfl, rfl, st₂, by simp, ?_⟩
      cases hw with
      | again _ _ | woken _ _ => rfl
      | done _ hready => rw [hr] at hready; cases hready
      | _ => cases hst
  | sleep op' j hpc₁ =>
      obtain ⟨rfl, rfl, -⟩ : op = op' ∧ i = j ∧ _ := by simpa [hpc] using hpc₁
      exact ⟨rfl, rfl, .wait, by simp, rfl⟩
  | setDirty j hpc₁ | acq _ j _ _ _ _ hpc₁ _ | ideAcq _ j _ _ _ _ hpc₁ _ | send _ j _ hpc₁ _
  | ideRel _ j _ _ _ _ hpc₁ _ | rel _ j _ _ _ _ hpc₁ _ | readDone _ j _ _ _ hpc₁ _
  | writeDone j _ _ _ hpc₁ _ =>
      rw [hpc] at hpc₁
      cases hpc₁
      cases hst
  | bread _ hpc₁ | bwrite _ _ hpc₁ _ | brelse _ _ hpc₁ _ | fill _ _ _ hpc₁ _ | hit _ _ hpc₁ _ _
  | miss _ _ hpc₁ _ _ | early _ _ hpc₁ _ | enter _ _ hpc₁ _ => rw [hpc] at hpc₁; cases hpc₁

/-- What holds of requests even when an interrupt comes too early: the requester is in the
loop of `iderw`, and its buffer is not ready. -/
structure Requests (s : IoSt P D) : Prop where
  asleep : ∀ p i, s.tab.wchan p = some (.blk i) → ∃ op, s.pc p = .io op i .wait
  request : ∀ r, s.disk = some r → (s.blocks r.buf).ready = false ∧
    ∃ op st, s.pc r.proc = .io op r.buf st ∧ st.requesting
  unready : ∀ p op i st, s.pc p = .io op i st → st.unready → (s.blocks i).ready = false

omit [DecidableEq P] in
theorem ReqInv.requests (h : ReqInv s) : Requests s := ⟨h.asleep, h.request, h.unready⟩

/-- **Every statement** keeps requests and their processes together. -/
theorem Requests.move [Fintype P] (hreqs : Requests s) (href : RefInv s) (hlocks : LockPhases s)
    (h : IoMove p s s') : Requests s' where
  asleep q i hq := asleep_move hreqs.asleep h q i hq
  request r hr := by
    rcases disk_move h with hsame | ⟨-, op, i, r', hpc, hpc', hr', rfl, rfl⟩
    · obtain ⟨hready, op, st, hpc, hst⟩ := hreqs.request r (hsame ▸ hr)
      by_cases hqp : r.proc = p
      · subst hqp
        obtain ⟨hblocks, -, hpc'⟩ := requesting_stays h hpc hst hready
        exact ⟨hblocks ▸ hready, op, hpc'⟩
      · have hflags := flags_move href hlocks h hqp hpc (Stage.blk_of_requesting hst)
        exact ⟨(ready_eq hflags).trans hready, op, st, (h.other hqp).1 ▸ hpc, hst⟩
    · obtain rfl : r' = r := Option.some.inj (hr'.symm.trans hr)
      refine ⟨?_, op, .loop, hpc', rfl⟩
      have hready := hreqs.unready _ _ _ _ hpc rfl
      cases h with
      | send op' j t hpc₁ ht =>
          obtain ⟨rfl, rfl⟩ : op = op' ∧ r'.buf = j := by simpa [hpc] using hpc₁
          simp only [IoSt.sendreq, Option.ite_none_left_eq_some, Option.some.injEq] at ht
          obtain ⟨-, rfl⟩ := ht
          simpa [Block.ready] using hready
      | _ => simp_all
  unready q op i st hq hst := by
    by_cases hqp : q = p
    · subst hqp
      obtain ⟨hblocks, hr | ⟨st₁, hpc, hst₁⟩⟩ := unready_move h hq hst
      · rw [hblocks]; exact hr
      · rw [hblocks]; exact hreqs.unready _ _ _ _ hpc hst₁
    · have hpc : s.pc q = .io op i st := (h.other hqp).1 ▸ hq
      have hflags := flags_move href hlocks h hqp hpc (Stage.blk_of_unready hst)
      exact (ready_eq hflags).trans (hreqs.unready q op i st hpc hst)

theorem ReqInv.move [Fintype P] (hinv : IoInv s) (h : IoMove p s s') : ReqInv s' where
  asleep := (hinv.reqs.requests.move hinv.refs hinv.locks h).asleep
  request := (hinv.reqs.requests.move hinv.refs hinv.locks h).request
  unready := (hinv.reqs.requests.move hinv.refs hinv.locks h).unready
  served q op i st hq hst := by
    by_cases hqp : q = p
    · subst hqp
      rcases requesting_move h hq hst with ⟨-, -, hpend⟩ | ⟨hdisk, hblocks, st₁, hpc, hst₁, hcase⟩
      · exact .inl hpend
      · simp only [IoSt.Pending, hdisk, hblocks]
        rcases hinv.reqs.served q op i st₁ hpc hst₁ with hpend | ⟨hr, hne, -⟩
        · exact .inl hpend
        · rcases hcase with ⟨-, hnr, -⟩ | ⟨rfl, -⟩ | ⟨-, rfl, hw⟩
          · rw [hr] at hnr; cases hnr
          · exact absurd rfl hne
          · exact .inr ⟨hr, by simp, by simp [hw]⟩
    · have hpc : s.pc q = .io op i st := (h.other hqp).1 ▸ hq
      have hflags := flags_move hinv.refs hinv.locks h hqp hpc (Stage.blk_of_requesting hst)
      rcases hinv.reqs.served q op i st hpc hst with ⟨r, hr, hrp, hrb⟩ | ⟨hr, hne, hw⟩
      · rcases disk_move h with hsame | ⟨hnone, -⟩
        · exact .inl ⟨r, hsame.trans hr, hrp, hrb⟩
        · rw [hnone] at hr; cases hr
      · refine .inr ⟨(ready_eq hflags).trans hr, hne, fun hw' => ?_⟩
        rcases wchan_move h hw' with hold | ⟨rfl, -⟩
        · exact hw hold
        · exact hqp rfl
  acted := by
    have hlog : s'.log = s.log := by
      cases h with
      | send op i t hpc ht =>
          simp only [IoSt.sendreq, Option.ite_none_left_eq_some, Option.some.injEq] at ht
          obtain ⟨-, rfl⟩ := ht
          rfl
      | _ => rfl
    rw [hlog]
    exact hinv.reqs.acted

/-! ## Interrupts -/

/-- The effect of an interrupt that finds the buffer of the request. -/
structure Completion (r : Req P D) (s s' : IoSt P D) : Prop where
  outstanding : s.disk = some r
  disk : s'.disk = none
  pc : s'.pc = s.pc
  held : s'.held = s.held
  idelock : s'.idelock = s.idelock
  tab : s'.tab = s.tab.wakeup (some (.blk r.buf))
  log : s'.log = (r, some (.blk r.buf)) :: s.log
  sectors : s'.sectors = r.data.elim s.sectors fun d => Function.update s.sectors r.blockno d
  other : ∀ j, j ≠ r.buf → s'.blocks j = s.blocks j
  block : s'.blocks r.buf = { s.blocks r.buf with
    data := if (s.blocks r.buf).dirty then (s.blocks r.buf).data
      else r.data.getD (s'.sectors r.blockno)
    valid := true, dirty := false }

section Intr
variable [Fintype P]

omit [DecidableEq P] in
/-- The handler finds the buffer of the request when the requester sleeps on it. -/
theorem intrChan_eq (hinv : IoInv s) (hsafe : SafeIntr s) {r : Req P D} (hr : s.disk = some r) :
    s.intrChan = some (.blk r.buf) := by
  obtain ⟨-, op, st, hpc, hst⟩ := hinv.reqs.request r hr
  have howner := hinv.locks.ide.owner r.proc
    (by simp [hpc, IoPc.idePhase, Stage.ide_of_requesting hst])
  simp [IoSt.intrChan, howner, hsafe r hr]

omit [DecidableEq P] [Fintype P] in
/-- An interrupt that finds the buffer of the request. -/
theorem completion_of_chan {r : Req P D} (hr : s.disk = some r)
    (hchan : s.intrChan = some (.blk r.buf)) (h : s.ideintr = some s') : Completion r s s' := by
  simp only [IoSt.ideintr, hr, Option.map_some, Option.some.injEq] at h
  subst h
  simp only [IoSt.intrChan] at hchan
  constructor
  case outstanding => exact hr
  all_goals simp only [IoSt.intrChan, hchan, IoSt.setBlock, IoSt.insl]
  case other => exact fun j hj => Function.update_of_ne hj ..
  case block => exact Function.update_self ..

omit [DecidableEq P] in
theorem ideintr_cases (hinv : IoInv s) (hsafe : SafeIntr s) (h : s.ideintr = some s') :
    ∃ r, Completion r s s' := by
  obtain ⟨r, hr, -⟩ := Option.map_eq_some_iff.mp h
  exact ⟨r, completion_of_chan hr (intrChan_eq hinv hsafe hr) h⟩

omit [DecidableEq P] [Fintype P] in
/-- An interrupt that finds a buffer finds that of the request: its requester is the process
that has `idelock`, and it is the one that sleeps. -/
theorem Requests.chan (h : Requests s) (hlocks : LockPhases s) {r : Req P D} (hr : s.disk = some r)
    {i : Buf} (hchan : s.intrChan = some (.blk i)) : i = r.buf ∧ ∃ op, s.pc r.proc = .io op i .wait := by
  obtain ⟨q, hq, hw⟩ := Option.bind_eq_some_iff.mp hchan
  obtain ⟨op, hpc⟩ := h.asleep q i hw
  obtain ⟨-, op', st, hpc', hst⟩ := h.request r hr
  obtain rfl : q = r.proc := by
    refine hlocks.ide.unique q r.proc ?_ ?_
    · simp [hpc, IoPc.idePhase, Stage.ide]
    · simp [hpc', IoPc.idePhase, Stage.ide_of_requesting hst]
  rw [hpc] at hpc'
  cases hpc'
  exact ⟨rfl, op, hpc⟩

omit [DecidableEq P] [Fintype P] in
/-- **Any interrupt** keeps requests and their processes together. -/
theorem Requests.intr (h : Requests s) (hlocks : LockPhases s) (hintr : s.ideintr = some s') :
    Requests s' := by
  have hi := ideintr_interrupt hintr
  obtain ⟨r, hr, -⟩ := Option.map_eq_some_iff.mp hintr
  refine ⟨fun q i hq => ?_, fun r' hr' => ?_, fun q op i st hq hst => ?_⟩
  · rw [hi.pc]
    exact h.asleep q i (hi.wchan q _ hq)
  · rw [hi.disk] at hr'
    cases hr'
  · rw [hi.pc] at hq
    have hne : s.intrChan ≠ some (.blk i) := by
      -- Both processes would have the lock of the buffer.
      intro hchan
      obtain ⟨-, op', hwait⟩ := h.chan hlocks hr hchan
      have hqr : q = r.proc := by
        refine (hlocks.blk i).unique q r.proc ?_ ?_
        · simp [hq, IoPc.blkPhase, Stage.blk_of_unready hst]
        · simp [hwait, IoPc.blkPhase, Stage.blk]
      rw [hqr, hwait] at hq
      cases hq
      cases hst
    rw [hi.same i hne]
    exact h.unready q op i st hq hst

namespace Completion
variable {r : Req P D}

omit [DecidableEq P] [Fintype P] in
/-- A completion changes the data and the flags of one buffer only. -/
theorem same (h : Completion r s s') (j : Buf) :
    (s'.blocks j).refcnt = (s.blocks j).refcnt ∧ (s'.blocks j).lock = (s.blocks j).lock ∧
      (s'.blocks j).blockno = (s.blocks j).blockno := by
  by_cases hj : j = r.buf
  · subst hj; rw [h.block]; exact ⟨rfl, rfl, rfl⟩
  · rw [h.other j hj]; exact ⟨rfl, rfl, rfl⟩

omit [DecidableEq P] in
/-- The requester is asleep, and it is the only process in the loop of `iderw`. -/
theorem requester (h : Completion r s s') (hinv : IoInv s) (hsafe : SafeIntr s) :
    (∃ op, s.pc r.proc = .io op r.buf .wait) ∧
      ∀ q op i st, s.pc q = .io op i st → st.requesting → q = r.proc := by
  obtain ⟨op, hwait⟩ := hinv.reqs.asleep _ _ (hsafe r h.outstanding)
  refine ⟨⟨op, hwait⟩, fun q op' i st hq hst => hinv.locks.ide.unique q r.proc ?_ ?_⟩
  · simp [hq, IoPc.idePhase, Stage.ide_of_requesting hst]
  · simp [hwait, IoPc.idePhase, Stage.ide]

omit [DecidableEq P] in
theorem reqInv (h : Completion r s s') (hinv : IoInv s) (hsafe : SafeIntr s)
    (hintr : s.ideintr = some s') : ReqInv s' := by
  obtain ⟨⟨op₀, hwait⟩, honly⟩ := h.requester hinv hsafe
  obtain ⟨hasleep, hrequest, hunready⟩ := hinv.reqs.requests.intr hinv.locks hintr
  refine ⟨hasleep, hrequest, hunready, fun q op i st hq hst => ?_, fun e he => ?_⟩
  · rw [h.pc] at hq
    obtain rfl := honly q op i st hq hst
    obtain ⟨rfl, rfl, rfl⟩ : op₀ = op ∧ r.buf = i ∧ Stage.wait = st := by simpa [hwait] using hq
    refine .inr ⟨by simp [h.block, Block.ready], by simp, ?_⟩
    rw [h.tab]
    exact ProcTab.wchan_wakeup_ne
  · rw [h.log] at he
    rcases List.mem_cons.mp he with rfl | he
    · rfl
    · exact hinv.reqs.acted e he

end Completion
end Intr

/-! ## Runs -/

section Runs
variable [Fintype P]

omit [DecidableEq P] in
theorem IoInv.init (stat : P → ProcStat) (zero : D) (sectors : ℕ → D) :
    IoInv (.init stat zero sectors) where
  refs := by constructor <;> simp [IoSt.init, IoSt.refs, IoPc.ref]
  locks := ⟨fun _ => LockInv.init, LockInv.init⟩
  reqs := by constructor <;> simp [IoSt.init]

/-- **Every statement** keeps the invariant. -/
theorem IoInv.next {call : Bio D} (hinv : IoInv s) (href : SafeRef s (s.pc p))
    (hblk : SafeBlk s p (s.pc p)) (hide : SafeIde s p (s.pc p)) (h : IoSt.next p call s = some s') : IoInv s' :=
  have hm := next_cases h
  ⟨hinv.refs.move href hm, ⟨blk_move hinv.locks hblk hm, ide_move hinv.locks hide hm⟩,
    ReqInv.move hinv hm⟩

omit [DecidableEq P] in
theorem IoInv.intr (hinv : IoInv s) (hsafe : SafeIntr s) (h : s.ideintr = some s') : IoInv s' := by
  obtain ⟨r, hc⟩ := ideintr_cases hinv hsafe h
  have hi := ideintr_interrupt h
  exact ⟨hi.refInv hinv.refs, hi.lockPhases hinv.locks, hc.reqInv hinv hsafe h⟩

/-- **Disk completions.**  In every run in which the drive interrupts only a requester that
sleeps on its buffer and nobody overtakes another process in a lock, each interrupt acts on
the buffer of the outstanding request and no requester sleeps on after it. -/
theorem completions_match (stat : P → ProcStat) (zero : D) (sectors : ℕ → D) (p : P)
    {s : Cpu P (IoSt P D)}
    (h : (ioUni P D).machine.Path SafeIo ⟨p, .init stat zero sectors⟩ s) :
    CompletionsMatch s.st := by
  have hinv := Uni.invariant (I := IoInv) h (IoInv.init stat zero sectors)
    (fun _ _ _ _ hI hok hnext => hI.next hok.1 hok.2.1 hok.2.2 hnext)
    (fun _ _ _ hI hok hintr => hI.intr hok hintr)
  exact hinv.reqs.completionsMatch

end Runs

/-! ### Process 0 reads block 5; slot 1 of the process table is not in use -/

/-- Only slot 0 is in use. -/
def oneProc (p : Fin 2) : ProcStat := if p = 0 then .RUN else .UNUSED

/-- The statements of `bread(5)` up to the command to the drive. -/
def readCommand : List (CpuEvent (Fin 2) (Bio ℕ)) :=
  .exec (.bread 5) :: List.replicate 12 (.exec .go)

theorem completions_match_read :
    ∃ s, (ioUni (Fin 2) ℕ).machine.Path SafeIo ⟨0, .init oneProc 0 id⟩ s ∧
      s.st.log.length = 1 ∧ CompletionsMatch s.st := by
  -- The process tests the flags and sleeps; then the drive is done.
  obtain ⟨s, h, hlog⟩ := (ioUni (Fin 2) ℕ).machine.exists_path_of_run SafeIo
    ⟨0, .init oneProc 0 id⟩ (readCommand ++ [.exec .go, .exec .go, .intr])
    (fun s => s.st.log.length = 1) (by decide +kernel)
  exact ⟨s, h, hlog, completions_match oneProc 0 id 0 h⟩

/-- The drive is done before the process has tested the flags. -/
def earlyIntr : List (CpuEvent (Fin 2) (Bio ℕ)) := readCommand ++ [.intr, .exec .go, .exec .go]

/-- The interrupt uses a null channel and makes the unused slot runnable; the requester
then sleeps on its buffer with no request outstanding. -/
theorem not_completions_match :
    ∃ s, (ioUni (Fin 2) ℕ).machine.Reaches ⟨0, .init oneProc 0 id⟩ s ∧
      s.st.log.map Prod.snd = [none] ∧ s.st.tab.stat 1 = .RUN ∧
      s.st.tab.wchan 0 = some (.blk 0) ∧ ¬ CompletionsMatch s.st := by
  obtain ⟨s, h, hlog, hstat, hw, hdisk⟩ := (ioUni (Fin 2) ℕ).machine.exists_path_of_run
    (fun _ _ => True) ⟨0, .init oneProc 0 id⟩ earlyIntr
    (fun s => s.st.log.map Prod.snd = [none] ∧ s.st.tab.stat 1 = .RUN ∧
      s.st.tab.wchan 0 = some (.blk 0) ∧ s.st.disk.isNone) (by decide +kernel)
  refine ⟨s, h, hlog, hstat, hw, fun hok => ?_⟩
  obtain ⟨r, hr, -⟩ := hok.asleep 0 0 hw
  rw [hr] at hdisk
  cases hdisk

end Mixv6.Fs
