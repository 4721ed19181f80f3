import Mixv6.Fs.SectorCalls

/-!
# Progress of the buffer cache

A call of a process that nobody disturbs goes on: it finds its locks free, `bget` finds a
buffer, the drive accepts the command, and the only wait is the one for the drive.  What is left
of it gets less with each statement.

## Main definitions

* `Live` — the blocks are sectors of the disk, and nobody sleeps but for the drive.
* `IoSt.left` — what is left of a call; each statement and the interrupt leave less.
* `GoesOn`, `Ends` — the call in progress goes on, and ends.
* `array_refined` — the cache refines the array.
-/

namespace Mixv6.Fs

open Mixv6.Lib Mixv6.Kernel

/-! ## Progress -/

section Live
variable {P D : Type} {p q : P} {io io' : IoSt P D} {n : ℕ} {i : Buf}

/-- The stages of a process that finds its locks free. -/
def Stage.awake : Stage → Bool
  | .acq .sleep | .acq .wait | .ideAcq .sleep | .ideAcq .wait => false
  | _ => true

/-- The blocks are sectors of the disk, and nobody sleeps but for the drive. -/
structure Live (s : IoSt P D) : Prop where
  reads : ∀ p n, (s.pc p).reads = some n → n < NSECTOR
  held : ∀ p n i, (n, i) ∈ s.held p → n < NSECTOR
  awake : ∀ p op i st, s.pc p = .io op i st → st.awake
  wait : ∀ p op i, s.pc p = .io op i .wait →
    s.tab.wchan p = none ∨ s.tab.wchan p = some (.blk i)

theorem Live.init (stat : P → ProcStat) (zero : D) (sectors : ℕ → D) :
    Live (.init stat zero sectors) where
  reads p n hn := by cases hn
  held p n i hi := by cases hi
  awake p op i st hp := by cases hp
  wait p op i hp := by cases hp

theorem Live.intr (h : Live io) (hintr : io.ideintr = some io') : Live io' := by
  have hi := ideintr_interrupt hintr
  refine ⟨fun p n hn => h.reads p n (hi.pc ▸ hn), fun p n i hn => h.held p n i (hi.held ▸ hn),
    fun p op i st hp => h.awake p op i st (hi.pc ▸ hp), fun p op i hp => ?_⟩
  rcases hw : io'.tab.wchan p with _ | c
  · exact .inl rfl
  · have hold := hi.wchan p c hw
    rcases h.wait p op i (hi.pc ▸ hp) with hnone | hblk
    · rw [hnone] at hold
      cases hold
    · rw [hblk] at hold
      exact .inr hold.symm

variable [DecidableEq P]

/-- The block that a process reads, it read before, or it has just called `bread`. -/
theorem reads_of_move (h : IoMove p io io') (hn : (io'.pc p).reads = some n) :
    io.pc p = .idle ∨ (io.pc p).reads = some n := by
  cases h with
  | bread _ hpc | bwrite _ _ hpc _ | brelse _ _ hpc _ | fill _ _ _ hpc _ => exact .inl hpc
  | send op j t hpc ht =>
      right
      rw [hpc]
      cases op with
      | read m => simpa [IoPc.reads] using hn
      | write => simp [IoPc.reads] at hn
  | early _ _ _ _ | readDone _ _ _ _ _ _ _ | writeDone _ _ _ _ _ _ | setDirty _ _ =>
      simp [IoPc.reads] at hn
  | hit m j hpc _ _ | miss m j hpc _ _ | enter m j hpc _ =>
      right
      rw [hpc]
      simpa [IoPc.reads] using hn
  | walk op j _ _ hpc _ | acq op j _ _ _ _ hpc _ | ideAcq op j _ _ _ _ hpc _ | sleep op j hpc
  | ideRel op j _ _ _ _ hpc _ | rel op j _ _ _ _ hpc _ =>
      right
      rw [hpc]
      cases op with
      | read m => simpa [IoPc.reads] using hn
      | write => simp [IoPc.reads] at hn

/-- A buffer that a process holds it held before, or it was for the block that it read. -/
theorem held_or_reads (h : IoMove p io io') (hn : (n, i) ∈ io'.held p) :
    (n, i) ∈ io.held p ∨ (io.pc p).reads = some n := by
  by_cases hidle : io.pc p = .idle
  · left
    cases h with
    | brelse m j _ _ => exact List.mem_of_mem_erase (by simpa using hn)
    | early m j hpc _ | readDone m j _ _ _ hpc _ =>
        rw [hidle] at hpc
        cases hpc
    | send op j t hpc ht =>
        rw [hidle] at hpc
        cases hpc
    | _ => exact hn
  · rcases held_of_move h hidle hn with hold | ⟨hpc, -⟩ | ⟨st, hpc, -⟩
    · exact .inl hold
    · exact .inr (by rw [hpc]; rfl)
    · exact .inr (by rw [hpc]; rfl)

/-- A process that is alone finds the locks free. -/
theorem awake_of_move (hlocks : LockPhases io) (halone : Alone io p)
    (hawake : ∀ op i st, io.pc p = .io op i st → st.awake) (h : IoMove p io io') {op : Op}
    {st : Stage} (hpc' : io'.pc p = .io op i st) : st.awake := by
  have hacq : ∀ {C : Type} [DecidableEq C] {c : C} {a : Acq} {a' : Option Acq} {l l' : Lock P}
      {t t' : ProcTab P C}, (a.phase = .out → l.locked = 0) → a ≠ .sleep → a ≠ .wait →
      acquireStep p c a l t = some (a', l', t') → a' ≠ some .sleep ∧ a' ≠ some .wait := by
    intro C _ c a a' l l' t t' hfree hs hw ha
    cases a with
    | sleep => exact absurd rfl hs
    | wait => exact absurd rfl hw
    | test =>
        simp only [acquireStep, hfree rfl, ne_eq, not_true_eq_false, if_false, Option.some.injEq,
          Prod.mk.injEq] at ha
        simp [← ha.1]
    | set | own =>
        simp only [acquireStep, Option.some.injEq, Prod.mk.injEq] at ha
        simp [← ha.1]
  have hblk := fun i => halone.free (hlocks.blk i) rfl
  have hide := halone.free hlocks.ide rfl
  cases h with
  | acq op' j a a' lock tab hpc ha =>
      have hst := hawake _ _ _ hpc
      have hfree := hblk j
      rw [hpc] at hfree
      simp only [IoPc.blkPhase, if_true, Stage.blk] at hfree
      obtain ⟨hs, hw⟩ := hacq hfree (by rintro rfl; cases hst) (by rintro rfl; cases hst) ha
      obtain ⟨-, -, rfl⟩ : op' = op ∧ j = i ∧ a'.elim .start .acq = st := by simpa using hpc'
      cases a' with
      | none => rfl
      | some a' => cases a' <;> first | rfl | exact absurd rfl hs | exact absurd rfl hw
  | ideAcq op' j a a' lock tab hpc ha =>
      have hst := hawake _ _ _ hpc
      rw [hpc] at hide
      obtain ⟨hs, hw⟩ := hacq hide (by rintro rfl; cases hst) (by rintro rfl; cases hst) ha
      obtain ⟨-, -, rfl⟩ : op' = op ∧ j = i ∧ a'.elim .send .ideAcq = st := by simpa using hpc'
      cases a' with
      | none => rfl
      | some a' => cases a' <;> first | rfl | exact absurd rfl hs | exact absurd rfl hw
  | walk op' j _ st₂ hpc hw =>
      obtain ⟨-, -, rfl⟩ : op' = op ∧ j = i ∧ st₂ = st := by simpa using hpc'
      cases hw <;> rfl
  | ideRel op' j _ r' _ _ hpc _ =>
      obtain ⟨-, -, rfl⟩ : op' = op ∧ j = i ∧ r'.elim (.rel .free) .ideRel = st := by
        simpa using hpc'
      cases r' <;> rfl
  | bwrite m j hpc _ | enter m j hpc _ | setDirty j hpc | send op' j _ hpc _ | sleep op' j hpc
  | rel op' j _ _ _ _ hpc _ =>
      simp only [IoSt.goto_pc, Function.update_self, IoPc.io.injEq] at hpc'
      obtain ⟨-, -, rfl⟩ := hpc'
      rfl
  | brelse m j hpc _ | fill m j d hpc _ =>
      rw [show io.pc p = .io op i st from hpc'] at hpc
      cases hpc
  | bread | hit | miss | early | readDone | writeDone => simp at hpc'

/-- A process that goes to sleep on its buffer. -/
theorem sleeps_of_move (h : IoMove p io io') {op : Op} (hpc : io.pc p = .io op i .sleep) :
    io'.tab.wchan p = some (.blk i) := by
  cases h with
  | sleep op' j hpc₁ =>
      rw [hpc] at hpc₁
      cases hpc₁
      simp
  | walk op' j st st' hpc₁ hw =>
      rw [hpc] at hpc₁
      cases hpc₁
      cases hw
  | bread _ hpc₁ | bwrite _ _ hpc₁ _ | brelse _ _ hpc₁ _ | fill _ _ _ hpc₁ _ | hit _ _ hpc₁ _ _
  | miss _ _ hpc₁ _ _ | early _ _ hpc₁ _ | enter _ _ hpc₁ _ | setDirty _ hpc₁
  | acq _ _ _ _ _ _ hpc₁ _ | ideAcq _ _ _ _ _ _ hpc₁ _ | send _ _ _ hpc₁ _
  | ideRel _ _ _ _ _ _ hpc₁ _ | rel _ _ _ _ _ _ hpc₁ _ | readDone _ _ _ _ _ hpc₁ _
  | writeDone _ _ _ _ hpc₁ _ =>
      rw [hpc] at hpc₁
      cases hpc₁

/-- **Every statement** of a process that is alone. -/
theorem Live.move (h : Live io) (hlocks : LockPhases io) (halone : Alone io p)
    (hmove : IoMove p io io')
    (hbread : ∀ n, io.pc p = .idle → (io'.pc p).reads = some n → n < NSECTOR) : Live io' where
  reads q n hn := by
    by_cases hq : q = p
    · subst hq
      rcases reads_of_move hmove hn with hidle | hold
      · exact hbread n hidle hn
      · exact h.reads q n hold
    · exact h.reads q n ((hmove.other hq).1 ▸ hn)
  held q n i hn := by
    by_cases hq : q = p
    · subst hq
      rcases held_or_reads hmove hn with hold | hreads
      · exact h.held q n i hold
      · exact h.reads q n hreads
    · exact h.held q n i ((hmove.other hq).2 ▸ hn)
  awake q op i st hpc := by
    by_cases hq : q = p
    · subst hq
      exact awake_of_move hlocks halone (h.awake q) hmove hpc
    · exact h.awake q op i st ((hmove.other hq).1 ▸ hpc)
  wait q op i hpc := by
    by_cases hq : q = p
    · subst hq
      rcases requesting_move hmove hpc rfl with ⟨-, hst, -⟩ | ⟨-, -, st, hold, -, hcase⟩
      · cases hst
      · rcases hcase with ⟨-, -, hst⟩ | ⟨rfl, -⟩ | ⟨-, hst, -⟩
        · cases hst
        · exact .inr (sleeps_of_move hmove hold)
        · cases hst
    · rw [halone.move hmove q hq] at hpc
      cases hpc

end Live

/-! ## What is left of a call -/

/-- The statements of `acquire` that are left. -/
def acqLeft : Acq → ℕ
  | .test => 3
  | .set => 2
  | .own => 1
  | .sleep | .wait => 0

/-- The statements of `release` that are left. -/
def relLeft : Rel → ℕ
  | .free => 3
  | .clear => 2
  | .wake => 1

/-- The statements that are left of a call that finds its locks free, and the interrupt. -/
def Stage.left (ready asleep : Bool) : Stage → ℕ
  | .rel r => relLeft r
  | .ideRel r => 3 + relLeft r
  | .loop => if ready then 7 else 11
  | .wait => if asleep then 9 else if ready then 8 else 12
  | .sleep => 10
  | .send => 12
  | .ideAcq a => 12 + acqLeft a
  | .todo => 16
  | .rw => 17
  | .start => 18
  | .acq a => 18 + acqLeft a

/-- The statements and interrupts that are left of the call of `p`. -/
def IoSt.left {P D : Type} (s : IoSt P D) (p : P) : ℕ :=
  match s.pc p with
  | .idle => 0
  | .bget _ => 23
  | .test _ _ => 22
  | .io _ i st => st.left (s.blocks i).ready (s.tab.wchan p).isSome

section Left
variable {P D : Type} {p : P} {io io' : IoSt P D}

theorem IoSt.left_io (op : Op) (i : Buf) (st : Stage) (h : io.pc p = .io op i st) :
    io.left p = st.left (io.blocks i).ready (io.tab.wchan p).isSome := by
  rw [IoSt.left, h]

theorem IoSt.left_idle (h : io.pc p = .idle) : io.left p = 0 := by
  rw [IoSt.left, h]

/-- A process that does not sleep for a lock has at most 23 statements left. -/
theorem IoSt.left_le (io : IoSt P D) (p : P) : io.left p ≤ 23 := by
  unfold IoSt.left
  split
  · omega
  · omega
  · omega
  · next st _ =>
      cases st with
      | acq a | ideAcq a => cases a <;> simp [Stage.left, acqLeft]
      | ideRel r | rel r => cases r <;> simp [Stage.left, relLeft]
      | wait | loop => simp only [Stage.left]; split_ifs <;> omega
      | _ => simp [Stage.left]

/-- A call in progress has a statement left. -/
theorem IoSt.left_pos (hawake : ∀ op i st, io.pc p = .io op i st → st.awake)
    (hp : io.pc p ≠ .idle) : 0 < io.left p := by
  cases hpc : io.pc p with
  | idle => exact absurd hpc hp
  | bget n | test n i => simp [IoSt.left, hpc]
  | io op i st =>
      have hst := hawake op i st hpc
      rw [IoSt.left_io op i st hpc]
      cases st with
      | acq a | ideAcq a => simp [Stage.left]
      | ideRel r => simp [Stage.left]
      | rel r => cases r <;> simp [Stage.left, relLeft]
      | wait | loop => simp only [Stage.left]; split_ifs <;> omega
      | _ => simp [Stage.left]

/-- A statement of `release`. -/
theorem relLeft_step {C : Type} [DecidableEq C] {c : C} {r : Rel} {r' : Option Rel} {l l' : Lock P}
    {t t' : ProcTab P C} (h : releaseStep c r l t = (r', l', t')) : r'.elim 0 relLeft < relLeft r := by
  cases r <;>
  · simp only [releaseStep, Prod.mk.injEq] at h
    obtain ⟨rfl, -⟩ := h
    decide

/-- **The interrupt** that the call sleeps for. -/
theorem IoSt.left_intr [Fintype P] (hinv : IoInv io) (hsafe : SafeIntr io) (halone : Alone io p)
    (hintr : io.ideintr = some io') : io'.left p < io.left p := by
  obtain ⟨r, hc⟩ := ideintr_cases hinv hsafe hintr
  obtain ⟨⟨op, hpc⟩, -⟩ := hc.requester hinv hsafe
  obtain rfl : r.proc = p := by
    by_contra hne
    rw [halone _ hne] at hpc
    cases hpc
  have hwake : io'.tab.wchan r.proc = none := by
    rw [hc.tab, ProcTab.wchan_wakeup, if_pos (hsafe r hc.outstanding)]
  have hready : (io'.blocks r.buf).ready = true := by
    rw [hc.block]
    rfl
  rw [IoSt.left_io op r.buf .wait hpc, IoSt.left_io op r.buf .wait (hc.pc ▸ hpc), hwake, hready,
    hsafe r hc.outstanding]
  simp [Stage.left]

variable [DecidableEq P]

/-- A statement of `acquire` on the way to the lock. -/
theorem acqLeft_step {C : Type} {c : C} {a : Acq} {a' : Option Acq} {l l' : Lock P} {t t' : ProcTab P C}
    (h : acquireStep p c a l t = some (a', l', t')) (ha : a ≠ .sleep ∧ a ≠ .wait)
    (ha' : a' ≠ some .sleep ∧ a' ≠ some .wait) : a'.elim 0 acqLeft < acqLeft a := by
  cases a with
  | sleep => exact absurd rfl ha.1
  | wait => exact absurd rfl ha.2
  | test =>
      simp only [acquireStep, Option.some.injEq, Prod.mk.injEq] at h
      obtain ⟨rfl, -⟩ := h
      split_ifs at ha' ⊢ with hfree
      · exact absurd rfl ha'.1
      · decide
  | set | own =>
      simp only [acquireStep, Option.some.injEq, Prod.mk.injEq] at h
      obtain ⟨rfl, -⟩ := h
      decide

/-- **Every statement** of a call that finds its locks free leaves one less. -/
theorem IoSt.left_move (h : IoMove p io io') (hp : io.pc p ≠ .idle)
    (hawake : ∀ op i st, io.pc p = .io op i st → st.awake)
    (hawake' : ∀ op i st, io'.pc p = .io op i st → st.awake) : io'.left p < io.left p := by
  have hacq : ∀ {a : Acq}, Stage.awake (.acq a) → a ≠ .sleep ∧ a ≠ .wait := by
    intro a ha
    constructor <;> rintro rfl <;> cases ha
  have hide : ∀ {a : Acq}, Stage.awake (.ideAcq a) → a ≠ .sleep ∧ a ≠ .wait := by
    intro a ha
    constructor <;> rintro rfl <;> cases ha
  cases h with
  | bread _ hpc | bwrite _ _ hpc _ | brelse _ _ hpc _ | fill _ _ _ hpc _ => exact absurd hpc hp
  | hit m j hpc _ _ | miss m j hpc _ _ => simp [IoSt.left, hpc]
  | early m j hpc _ => simp [IoSt.left, hpc]
  | enter m j hpc _ => simp [IoSt.left, hpc, Stage.left, acqLeft]
  | walk op j st st' hpc hw =>
      rw [IoSt.left_io op j st hpc, IoSt.left_io op j st' (by simp)]
      cases hw with
      | valid | invalid | rw | todo => simp [Stage.left, acqLeft, relLeft]
      | done _ hready => simp [Stage.left, relLeft, hready]
      | again _ hready => simp [Stage.left, hready]
      | woken _ hwchan =>
          cases hready : (io.blocks j).ready <;> simp [Stage.left, hwchan, hready]
  | setDirty j hpc =>
      rw [IoSt.left_io .write j .start hpc, IoSt.left_io .write j .rw (by simp)]
      simp [Stage.left]
  | acq op j a a' lock tab hpc ha =>
      have hnext : a' ≠ some .sleep ∧ a' ≠ some .wait := by
        cases a' with
        | none => simp
        | some a' => simpa using hacq (hawake' op j (.acq a') (by simp))
      have hless := acqLeft_step ha (hacq (hawake _ _ _ hpc)) hnext
      rw [IoSt.left_io op j (.acq a) hpc, IoSt.left_io op j (a'.elim .start .acq) (by simp)]
      cases a' <;> simpa [Stage.left] using hless
  | ideAcq op j a a' lock tab hpc ha =>
      have hnext : a' ≠ some .sleep ∧ a' ≠ some .wait := by
        cases a' with
        | none => simp
        | some a' => simpa using hide (hawake' op j (.ideAcq a') (by simp))
      have hless := acqLeft_step ha (hide (hawake _ _ _ hpc)) hnext
      rw [IoSt.left_io op j (.ideAcq a) hpc, IoSt.left_io op j (a'.elim .send .ideAcq) (by simp)]
      cases a' <;> simpa [Stage.left] using hless
  | send op j t hpc ht =>
      rw [IoSt.left_io op j .send hpc, IoSt.left_io op j .loop (by simp)]
      simp only [Stage.left]
      split_ifs <;> omega
  | sleep op j hpc =>
      rw [IoSt.left_io op j .sleep hpc, IoSt.left_io op j .wait (by simp)]
      simp [Stage.left]
  | ideRel op j r r' idelock tab hpc hr =>
      have hless := relLeft_step hr
      rw [IoSt.left_io op j (.ideRel r) hpc, IoSt.left_io op j (r'.elim (.rel .free) .ideRel) (by simp)]
      cases r' <;> simp [Stage.left, relLeft] at hless ⊢ <;> omega
  | rel op j r r' lock tab hpc hr =>
      have hless := relLeft_step hr
      rw [IoSt.left_io op j (.rel r) hpc, IoSt.left_io op j (.rel r') (by simp)]
      simpa [Stage.left] using hless
  | readDone m j r lock tab hpc hr | writeDone j r lock tab hpc hr =>
      rw [IoSt.left_idle (by simp)]
      exact IoSt.left_pos hawake hp

end Left

/-! ## The refinement -/

/-- A call in progress goes on: its process has a next statement, or sleeps until the drive is
done. -/
def GoesOn {P D : Type} [DecidableEq P] (s : ArrSt P D) : Prop :=
  ∀ p, s.io.pc p ≠ .idle →
    (s.io.next p .go).isSome ∨ s.io.disk.isSome ∧ SafeIntr s.io

/-- The call of `p` ends after `n` statements and interrupts at the latest: until then it goes on,
and whatever happens next, one less is left. -/
def Ends {P D : Type} [DecidableEq P] [Fintype P] (p : P) : ℕ → ArrSt P D → Prop
  | 0, s => s.io.pc p = .idle
  | n + 1, s => s.io.pc p = .idle ∨ GoesOn s ∧
      (∀ q call t, Allowed s call → s.next q call = some t → Ends p n t) ∧
      ∀ io, SafeIntr s.io → s.io.ideintr = some io → Ends p n { s with io }

section Runs
variable {P D : Type} [DecidableEq P] [Fintype P] {p : P} {s t : ArrSt P D} {n : ℕ} {i : Buf}

omit [DecidableEq P] in
/-- With fewer references than buffers there is one to take. -/
theorem RefInv.exists_zero {s : IoSt P D} (h : RefInv s) (hnone : ∀ q, (s.pc q).ref = none)
    (hlen : ∑ q, (s.held q).length < NBLOCK) : ∃ i, (s.blocks i).refcnt = 0 := by
  by_contra hne
  have hsum : ∑ i, (s.blocks i).refcnt = ∑ q, (s.held q).length := by
    simp only [h.refcnt]
    rw [Finset.sum_comm]
    apply Finset.sum_congr rfl
    intro q _
    rw [sum_refs_buf, hnone q]
    simp
  have hpos : ∀ i ∈ Finset.univ, 1 ≤ (s.blocks i).refcnt := by
    intro i _
    exact Nat.pos_of_ne_zero (not_exists.mp hne i)
  have hcard := Finset.sum_le_sum hpos
  rw [hsum, ← Finset.card_eq_sum_ones, Finset.card_univ,
    show Fintype.card Buf = NBLOCK from Fintype.card_fin NBLOCK] at hcard
  exact Nat.lt_irrefl _ (Nat.lt_of_lt_of_le hlen hcard)

omit [DecidableEq P] in
/-- `bget` finds a buffer. -/
theorem ArrInv.exists_bget (h : ArrInv s) (hout : Outside s.io) (hnone : ∀ q, (s.io.pc q).ref = none)
    (hlen : ∑ q, (s.io.held q).length < NBLOCK) : (s.io.bget n).isSome := by
  unfold IoSt.bget
  rcases hc : s.io.cached n with _ | i
  · obtain ⟨i, hi⟩ := h.io.refs.exists_zero hnone hlen
    have hv : (s.io.victim).isSome := by
      rw [IoSt.victim, List.find?_isSome]
      exact ⟨i, List.mem_finRange i, by simp [hi, (h.quiet hout).clean i]⟩
    simpa using hv
  · rfl

omit [DecidableEq P] in
/-- The command to the drive is accepted: the drive is idle, and the block is on the disk. -/
theorem ArrInv.exists_sendreq (h : ArrInv s) (hlive : Live s.io) {op : Op}
    (hpc : s.io.pc p = .io op i .send) : (s.io.sendreq p i).isSome := by
  have hno : (s.io.blocks i).blockno < NSECTOR := by
    cases op with
    | read n =>
        have hbusy := h.busy p
        rw [hpc] at hbusy
        rw [hbusy.1]
        exact hlive.reads p n (by rw [hpc]; rfl)
    | write =>
        obtain ⟨n, hn⟩ := h.io.refs.writes p i _ hpc
        rw [(h.held p n i hn).1]
        exact hlive.held p n i hn
  have hdisk : s.io.disk = none := by
    rcases hr : s.io.disk with _ | r
    · rfl
    · obtain ⟨-, op', st, hpc', hst⟩ := h.io.reqs.request r hr
      obtain rfl := h.one r.proc p (by simp [hpc']) (by simp [hpc])
      rw [hpc] at hpc'
      cases hpc'
      cases hst
  simp [IoSt.sendreq, hdisk, hno]

/-- **Progress.**  No call meets a panic, and none waits for anything but the drive. -/
theorem ArrInv.goesOn (h : ArrInv s) (hlive : Live s.io) : GoesOn s := by
  intro p hp
  have halone := h.alone hp
  cases hpc : s.io.pc p with
  | idle => exact absurd hpc hp
  | bget n =>
      left
      have hbusy := h.busy p
      rw [hpc] at hbusy
      have hnone : ∀ q, (s.io.pc q).ref = none := by
        intro q
        by_cases hq : q = p
        · rw [hq, hpc]
          rfl
        · rw [halone q hq]
          rfl
      have hsome := h.exists_bget (n := n) (.of_alone halone (by simp [hpc])) hnone hbusy.2
      simpa [IoSt.next, hpc] using hsome
  | test n i =>
      left
      simp only [IoSt.next, hpc]
      split <;> rfl
  | io op i st =>
      have hawake := hlive.awake p op i st hpc
      have hholds : st.blk = .holding → holding (s.io.blocks i).lock p := by
        intro hst
        apply (h.io.locks.blk i).holding_of_phase
        simp [hpc, IoPc.blkPhase, hst]
      simp only [IoSt.next, hpc]
      cases st with
      | acq a | ideAcq a =>
          left
          cases a with
          | sleep | wait => cases hawake
          | test | set | own => rfl
      | start =>
          left
          cases op with
          | read n => rfl
          | write => simp [IoSt.ioNext, hholds rfl]
      | rw =>
          left
          simp [IoSt.ioNext, (h.noPanic p op i).1 hpc]
      | todo =>
          left
          simp [IoSt.ioNext, (h.noPanic p op i).2 hpc]
      | send =>
          left
          simpa [IoSt.ioNext] using h.exists_sendreq hlive hpc
      | loop | sleep | ideRel r => exact .inl rfl
      | wait =>
          rcases hlive.wait p op i hpc with hnone | hblk
          · left
            simp [IoSt.ioNext, hnone]
          · right
            rcases h.io.reqs.served p op i _ hpc rfl with ⟨r, hr, hproc, hbuf⟩ | ⟨-, -, hne⟩
            · refine ⟨by simp [hr], fun r' hr' => ?_⟩
              obtain rfl : r = r' := Option.some.inj (hr.symm.trans hr')
              rw [hproc, hbuf]
              exact hblk
            · exact absurd hblk hne
      | rel r =>
          left
          cases r with
          | free | clear => rfl
          | wake => cases op <;> rfl

/-- **Every statement** keeps the processes going. -/
theorem ArrInv.live (h : ArrInv s) (hlive : Live s.io) {call : ArrCall D} (hok : Allowed s call)
    (hnext : s.next p call = some t) : Live t.io := by
  have hkeep : ∀ {io : IoSt P D}, Alone s.io p → IoMove p s.io io →
      (∀ n, s.io.pc p = .idle → (io.pc p).reads = some n → n < NSECTOR) → Live io :=
    fun halone hmove hbread => hlive.move h.io.locks halone hmove hbread
  cases call with
  | go =>
      obtain ⟨io, hio, rfl⟩ := Option.map_eq_some_iff.mp hnext
      have hp : s.io.pc p ≠ .idle := by
        intro hpc
        simp [IoSt.next, hpc] at hio
      exact hkeep (h.alone hp) (next_cases hio) fun n hidle => absurd hidle hp
  | bread n =>
      obtain ⟨io, hio, rfl⟩ := Option.map_eq_some_iff.mp hnext
      apply hkeep (alone_of_idle hok.1 p) (next_cases hio)
      intro m _ hm
      obtain ⟨-, rfl⟩ := bread_cases hio
      obtain rfl : n = m := by simpa [IoPc.reads] using hm
      exact hok.2.1
  | bget n =>
      simp only [ArrSt.next, Option.bind_eq_some_iff, Option.map_eq_some_iff] at hnext
      obtain ⟨-, -, io, htake, rfl⟩ := hnext
      obtain ⟨-, i, b, -, rfl⟩ := take_cases htake
      refine ⟨hlive.reads, fun q m j hj => ?_, hlive.awake, hlive.wait⟩
      rcases IoSt.mem_setHeld_cons hj with ⟨rfl, rfl⟩ | hold
      · exact hok.2.1
      · exact hlive.held q m j hold
  | fill n i d =>
      obtain ⟨io, hio, rfl⟩ := Option.map_eq_some_iff.mp hnext
      apply hkeep (alone_of_idle hok p) (next_cases hio)
      intro m hidle hm
      simp only [IoSt.next, hidle, Option.ite_none_right_eq_some, Option.some.injEq] at hio
      rw [← hio.2, IoSt.setBlock_pc, hidle] at hm
      cases hm
  | bwrite n i =>
      obtain ⟨io, hio, rfl⟩ := Option.map_eq_some_iff.mp hnext
      apply hkeep (alone_of_idle hok p) (next_cases hio)
      intro m hidle hm
      simp only [IoSt.next, hidle, Option.ite_none_right_eq_some, Option.some.injEq] at hio
      rw [← hio.2, IoSt.goto_pc, Function.update_self] at hm
      cases hm
  | brelse n i =>
      obtain ⟨io, hio, rfl⟩ := Option.map_eq_some_iff.mp hnext
      apply hkeep (alone_of_idle hok.1 p) (next_cases hio)
      intro m hidle hm
      simp only [IoSt.next, hidle, Option.ite_none_right_eq_some, Option.some.injEq] at hio
      rw [← hio.2, IoSt.setHeld_pc, IoSt.setBlock_pc, hidle] at hm
      cases hm

/-- While a call is in progress its process executes the statements. -/
theorem ArrInv.left_next (h : ArrInv s) (hlive : Live s.io) (hp : s.io.pc p ≠ .idle) {q : P}
    {call : ArrCall D} (hok : Allowed s call) (hnext : s.next q call = some t) :
    t.io.left p < s.io.left p := by
  cases call with
  | go =>
      have hlive' := h.live hlive hok hnext
      obtain ⟨io, hio, rfl⟩ := Option.map_eq_some_iff.mp hnext
      have hq : s.io.pc q ≠ .idle := by
        intro hpc
        simp [IoSt.next, hpc] at hio
      obtain rfl := h.one q p hq hp
      exact IoSt.left_move (next_cases hio) hp (hlive.awake q) (hlive'.awake q)
  | bread n | bget n | brelse n i => exact absurd (hok.1 p) hp
  | fill n i d | bwrite n i => exact absurd (hok p) hp

/-- **Every call ends.** -/
theorem ArrInv.ends (h : ArrInv s) (hlive : Live s.io) (hn : s.io.left p ≤ n) : Ends p n s := by
  induction n generalizing s with
  | zero =>
      by_contra hp
      exact absurd (IoSt.left_pos (hlive.awake p) hp) (by omega)
  | succ n ih =>
      by_cases hp : s.io.pc p = .idle
      · exact .inl hp
      · refine .inr ⟨h.goesOn hlive, fun q call t hok hnext => ?_, fun io hsafe hintr => ?_⟩
        · have hless := h.left_next hlive hp hok hnext
          exact ih (h.next hok hnext) (h.live hlive hok hnext) (by omega)
        · have hless := IoSt.left_intr h.io hsafe (h.alone hp) hintr
          exact ih (h.intr hsafe hintr) (hlive.intr hintr) (by simp only; omega)

/-- **The cache is an array of sectors.**  In every run of safe calls, on any number of
blocks, no call panics or gets stuck, each one ends after 23 statements and interrupts at the
latest, each `bread` returns the data last passed to `bwrite`, and after each `bwrite` the disk
has the data. -/
theorem array_refined (stat : P → ProcStat) (zero : D) (sectors : ℕ → D) (p : P)
    {s : Cpu P (ArrSt P D)}
    (h : (arrUni P D).machine.Path SafeArr ⟨p, .init stat zero sectors⟩ s) :
    NoPanic s.st ∧ GoesOn s.st ∧ (∀ q, Ends q 23 s.st) ∧ ∀ call t,
      (arrUni P D).machine.step s (.exec call) = some t → Returned s.cur s.st t.st := by
  have hinv := Uni.invariant (I := fun st => ArrInv st ∧ Live st.io) h
    ⟨.init stat zero sectors, .init stat zero sectors⟩ ?_ ?_
  · obtain ⟨harr, hlive⟩ := hinv
    refine ⟨harr.noPanic, harr.goesOn hlive, fun q => harr.ends hlive (IoSt.left_le _ q),
      fun call t hstep => ?_⟩
    obtain ⟨st, hst, rfl⟩ := Option.map_eq_some_iff.mp hstep
    exact harr.returned hst
  · exact fun q call st st' hI hok hnext => ⟨hI.1.next hok hnext, hI.1.live hI.2 hok hnext⟩
  · intro q st st' hI hok hintr
    obtain ⟨io, hio, rfl⟩ := Option.map_eq_some_iff.mp hintr
    exact ⟨hI.1.intr hok hio, hI.2.intr hio⟩

/-! ### A block is written and read back -/

instance decidableNoPending (s : ArrSt P D) (n : ℕ) : Decidable (NoPending s n) :=
  inferInstanceAs (Decidable (∀ _, _ → _))

instance decidableAllowed (s : ArrSt P D) : ∀ call, Decidable (Allowed s call)
  | .go => .isTrue trivial
  | .bread n | .bget n => inferInstanceAs (Decidable ((∀ _, _) ∧ _ ∧ _ ∧ NoPending s n))
  | .fill .. | .bwrite .. => inferInstanceAs (Decidable (∀ _, _))
  | .brelse .. => inferInstanceAs (Decidable ((∀ _, _) ∧ _))

instance decidableSafeArr (s : Cpu P (ArrSt P D)) :
    ∀ e : CpuEvent P (ArrCall D), Decidable (SafeArr s e)
  | .exec call => decidableAllowed s.st call
  | .switch _ => .isTrue trivial
  | .intr => inferInstanceAs (Decidable (∀ r ∈ s.st.io.disk, _))

end Runs

/-- Process 0 overwrites block 5, and process 1 reads it up to the last statement. -/
def writeThenRead : List (CpuEvent (Fin 2) (ArrCall ℕ)) :=
  [.exec (.bget 5), .exec (.fill 5 0 7), .exec (.bwrite 5 0)] ++
    List.replicate 12 (.exec .go) ++ [.intr] ++ List.replicate 8 (.exec .go) ++
    [.exec (.brelse 5 0), .switch 1, .exec (.bread 5)] ++ List.replicate 8 (.exec .go)

/-- With the next statement `bread` returns what has been written. -/
theorem array_refined_writeThenRead :
    ∃ s t, (arrUni (Fin 2) ℕ).machine.Path SafeArr ⟨0, .init (fun _ => .RUN) 0 id⟩ s ∧
      (arrUni (Fin 2) ℕ).machine.step s (.exec .go) = some t ∧
      (∃ i, t.st.io.held 1 = [(5, i)] ∧ (t.st.io.blocks i).data = 7) ∧
      NoPanic s.st ∧ GoesOn s.st ∧ (∀ q, Ends q 23 s.st) := by
  obtain ⟨s, h, ⟨hcur, hpc, hheld⟩, htest⟩ := (arrUni (Fin 2) ℕ).machine.exists_path_of_run SafeArr
    ⟨0, .init (fun _ => .RUN) 0 id⟩ writeThenRead
    (fun s => (s.cur = 1 ∧ (s.st.io.pc 1).reads = some 5 ∧ s.st.io.held 1 = []) ∧
      ((arrUni (Fin 2) ℕ).machine.step s (.exec .go)).any fun t => t.st.io.pc 1 = .idle ∧ t.st.arr 5 = 7)
    (by decide +kernel)
  obtain ⟨t, hstep, hidle, harr⟩ : ∃ t, (arrUni (Fin 2) ℕ).machine.step s (.exec .go) = some t ∧
      t.st.io.pc 1 = .idle ∧ t.st.arr 5 = 7 := by
    simpa [Option.any_eq_true] using htest
  obtain ⟨hpanic, hgoes, hends, hret⟩ := array_refined (fun _ => .RUN) 0 id 0 h
  have hreturned := hret _ t hstep
  rw [hcur] at hreturned
  obtain ⟨i, hi, -, hdata⟩ := hreturned.bread 5 hpc hidle
  exact ⟨s, t, h, hstep, ⟨i, hheld ▸ hi, hdata.trans harr⟩, hpanic, hgoes, hends⟩

end Mixv6.Fs
