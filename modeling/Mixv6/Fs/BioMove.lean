import Mixv6.Fs.Bio
import Mathlib.Algebra.BigOperators.Group.Finset.Basic
import Mathlib.Algebra.Order.BigOperators.Group.Finset
import Mathlib.Data.Fintype.BigOperators

/-!
# What one statement of the buffer cache does

`IoMove` lists the statements by their effect, so that each invariant is checked against
these and not against the program text.  The first two invariants are about single words
of a buffer: the reference count counts the references, and each lock records its owner.

## Main definitions

* `IoMove`, `next_cases` — the effects of the statements, and that these are all.
* `RefInv` — the reference counts.
* `LockPhases` — the lock discipline of the buffer locks and of `idelock`.
-/

namespace Mixv6.Fs

open Mixv6.Lib Mixv6.Kernel

/-- How far the process is with the lock of its buffer. -/
def Stage.blk : Stage → Phase
  | .acq a => a.phase
  | .rel r => r.phase
  | _ => .holding

/-- How far the process is with `idelock`. -/
def Stage.ide : Stage → Phase
  | .ideAcq a => a.phase
  | .send | .loop | .sleep | .wait => .holding
  | .ideRel r => r.phase
  | _ => .out

/-- Between the command to the drive and the return of the loop of `iderw`. -/
def Stage.requesting : Stage → Bool
  | .loop | .sleep | .wait => true
  | _ => false

namespace IoPc

/-- The phase of a process with respect to the lock of buffer `i`. -/
def blkPhase (i : Buf) : IoPc → Phase
  | .io _ j st => if j = i then st.blk else .out
  | _ => .out

/-- The phase of a process with respect to `idelock`. -/
def idePhase : IoPc → Phase
  | .io _ _ st => st.ide
  | _ => .out

/-- The reference that `bget` has taken for a `bread` that has not returned. -/
def ref : IoPc → Option Buf
  | .test _ i | .io (.read _) i _ => some i
  | _ => none

/-- The block that a process reads. -/
def reads : IoPc → Option ℕ
  | .bget n | .test n _ | .io (.read n) _ _ => some n
  | .idle | .io .write _ _ => none

end IoPc

section Moves
variable {P D : Type} [DecidableEq P]

/-- The statements that only move a process on: its next stage, as a test of the buffer
and of the process's channel decides it. -/
inductive Walk (b : Block P D) (wchan : Option IoChan) : Op → Stage → Stage → Prop
  | valid (n : ℕ) : b.valid = true → Walk b wchan (.read n) .start (.rel .free)
  | invalid (n : ℕ) : b.valid = false → Walk b wchan (.read n) .start .rw
  | rw (op : Op) : Walk b wchan op .rw .todo
  | todo (op : Op) : b.ready = false → Walk b wchan op .todo (.ideAcq .test)
  | done (op : Op) : b.ready = true → Walk b wchan op .loop (.ideRel .free)
  | again (op : Op) : b.ready = false → Walk b wchan op .loop .sleep
  | woken (op : Op) : wchan = none → Walk b wchan op .wait .loop

/-- The effect of one statement of process `p`. -/
inductive IoMove (p : P) (s : IoSt P D) : IoSt P D → Prop
  | bread (n : ℕ) : s.pc p = .idle → IoMove p s (s.goto p (.bget n))
  | bwrite (n : ℕ) (i : Buf) : s.pc p = .idle → (n, i) ∈ s.held p →
      IoMove p s (s.goto p (.io .write i (.acq .test)))
  | brelse (n : ℕ) (i : Buf) : s.pc p = .idle → (n, i) ∈ s.held p →
      IoMove p s ((s.setBlock i { s.blocks i with
        refcnt := ((s.blocks i).refcnt + 65535) % 65536 }).setHeld p ((s.held p).erase (n, i)))
  | fill (n : ℕ) (i : Buf) (d : D) : s.pc p = .idle → (n, i) ∈ s.held p →
      IoMove p s (s.setBlock i { s.blocks i with data := d })
  | hit (n : ℕ) (i : Buf) : s.pc p = .bget n → s.cached n = some i → (s.blocks i).blockno = n →
      IoMove p s ((s.setBlock i { s.blocks i with
        refcnt := ((s.blocks i).refcnt + 1) % 65536 }).goto p (.test n i))
  | miss (n : ℕ) (i : Buf) : s.pc p = .bget n → (s.blocks i).refcnt = 0 →
      (s.blocks i).dirty = false →
      IoMove p s ((s.setBlock i { s.blocks i with
        blockno := n, valid := false, dirty := false, refcnt := 1 }).goto p (.test n i))
  | early (n : ℕ) (i : Buf) : s.pc p = .test n i → (s.blocks i).refcnt > 1 →
      IoMove p s ((s.setHeld p ((n, i) :: s.held p)).goto p .idle)
  | enter (n : ℕ) (i : Buf) : s.pc p = .test n i → (s.blocks i).refcnt ≤ 1 →
      IoMove p s (s.goto p (.io (.read n) i (.acq .test)))
  | walk (op : Op) (i : Buf) (st st' : Stage) : s.pc p = .io op i st →
      Walk (s.blocks i) (s.tab.wchan p) op st st' → IoMove p s (s.goto p (.io op i st'))
  | setDirty (i : Buf) : s.pc p = .io .write i .start →
      IoMove p s ((s.setBlock i { s.blocks i with dirty := true }).goto p (.io .write i .rw))
  | acq (op : Op) (i : Buf) (a : Acq) (a' : Option Acq) (lock : Lock P) (tab : ProcTab P IoChan) :
      s.pc p = .io op i (.acq a) →
      acquireStep p (.lock i) a (s.blocks i).lock s.tab = some (a', lock, tab) →
      IoMove p s { (s.setBlock i { s.blocks i with lock }).goto p
        (.io op i (a'.elim .start .acq)) with tab }
  | ideAcq (op : Op) (i : Buf) (a : Acq) (a' : Option Acq) (idelock : Lock P)
      (tab : ProcTab P IoChan) : s.pc p = .io op i (.ideAcq a) →
      acquireStep p .idelock a s.idelock s.tab = some (a', idelock, tab) →
      IoMove p s { s.goto p (.io op i (a'.elim .send .ideAcq)) with idelock, tab }
  | send (op : Op) (i : Buf) (s' : IoSt P D) : s.pc p = .io op i .send →
      s.sendreq p i = some s' → IoMove p s (s'.goto p (.io op i .loop))
  | sleep (op : Op) (i : Buf) : s.pc p = .io op i .sleep →
      IoMove p s { s.goto p (.io op i .wait) with tab := s.tab.sleep p (.blk i) }
  | ideRel (op : Op) (i : Buf) (r : Rel) (r' : Option Rel) (idelock : Lock P)
      (tab : ProcTab P IoChan) : s.pc p = .io op i (.ideRel r) →
      releaseStep .idelock r s.idelock s.tab = (r', idelock, tab) →
      IoMove p s { s.goto p (.io op i (r'.elim (.rel .free) .ideRel)) with idelock, tab }
  | rel (op : Op) (i : Buf) (r r' : Rel) (lock : Lock P) (tab : ProcTab P IoChan) :
      s.pc p = .io op i (.rel r) →
      releaseStep (.lock i) r (s.blocks i).lock s.tab = (some r', lock, tab) →
      IoMove p s ({ s.setBlock i { s.blocks i with lock } with tab }.goto p (.io op i (.rel r')))
  | readDone (n : ℕ) (i : Buf) (r : Rel) (lock : Lock P) (tab : ProcTab P IoChan) :
      s.pc p = .io (.read n) i (.rel r) →
      releaseStep (.lock i) r (s.blocks i).lock s.tab = (none, lock, tab) →
      IoMove p s (({ s.setBlock i { s.blocks i with lock } with tab }.setHeld p
        ((n, i) :: s.held p)).goto p .idle)
  | writeDone (i : Buf) (r : Rel) (lock : Lock P) (tab : ProcTab P IoChan) :
      s.pc p = .io .write i (.rel r) →
      releaseStep (.lock i) r (s.blocks i).lock s.tab = (none, lock, tab) →
      IoMove p s ({ s.setBlock i { s.blocks i with lock } with tab }.goto p .idle)

variable {p : P} {call : Bio D} {s s' : IoSt P D}

omit [DecidableEq P] in
/-- `bget` finds the block, or evicts one that nobody refers to. -/
theorem bget_cases {n : ℕ} {i : Buf} {b : Block P D} (h : s.bget n = some (i, b)) :
    s.cached n = some i ∧ (s.blocks i).blockno = n ∧
        b = { s.blocks i with refcnt := ((s.blocks i).refcnt + 1) % 65536 } ∨
      s.cached n = none ∧ (s.blocks i).refcnt = 0 ∧ (s.blocks i).dirty = false ∧
        b = { s.blocks i with blockno := n, valid := false, dirty := false, refcnt := 1 } := by
  unfold IoSt.bget at h
  rcases hc : s.cached n with _ | j
  · simp only [hc, Option.map_eq_some_iff, Prod.mk.injEq] at h
    obtain ⟨j, hv, rfl, rfl⟩ := h
    have := List.find?_some hv
    simp only [decide_eq_true_eq] at this
    exact .inr ⟨rfl, this.1, this.2, rfl⟩
  · simp only [hc, Option.some.injEq, Prod.mk.injEq] at h
    obtain ⟨rfl, rfl⟩ := h
    exact .inl ⟨rfl, by simpa using List.find?_some hc, rfl⟩

/-- A statement between `acquire(&b->lock)` and `release(&b->lock)`. -/
theorem ioNext_cases {op : Op} {i : Buf} {st : Stage} (hpc : s.pc p = .io op i st)
    (h : s.ioNext p op i st = some s') : IoMove p s s' := by
  cases st with
  | acq a =>
      obtain ⟨⟨a', lock, tab⟩, ha, rfl⟩ := Option.map_eq_some_iff.mp h
      exact .acq op i a a' lock tab hpc ha
  | start =>
      cases op with
      | read n =>
          obtain rfl := Option.some.inj h
          cases hv : (s.blocks i).valid with
          | true => exact .walk _ i _ _ hpc (.valid n hv)
          | false => exact .walk _ i _ _ hpc (.invalid n hv)
      | write =>
          simp only [IoSt.ioNext, Option.ite_none_right_eq_some, Option.some.injEq] at h
          exact h.2 ▸ .setDirty i hpc
  | rw =>
      simp only [IoSt.ioNext, Option.ite_none_right_eq_some, Option.some.injEq] at h
      exact h.2 ▸ .walk op i _ _ hpc (.rw op)
  | todo =>
      simp only [IoSt.ioNext, Option.ite_none_left_eq_some, Option.some.injEq,
        Bool.not_eq_true] at h
      exact h.2 ▸ .walk op i _ _ hpc (.todo op h.1)
  | ideAcq a =>
      obtain ⟨⟨a', idelock, tab⟩, ha, rfl⟩ := Option.map_eq_some_iff.mp h
      exact .ideAcq op i a a' idelock tab hpc ha
  | send =>
      obtain ⟨t, ht, rfl⟩ := Option.map_eq_some_iff.mp h
      exact .send op i t hpc ht
  | loop =>
      obtain rfl := Option.some.inj h
      cases hr : (s.blocks i).ready with
      | true => exact .walk op i _ _ hpc (.done op hr)
      | false => exact .walk op i _ _ hpc (.again op hr)
  | sleep => exact Option.some.inj h ▸ .sleep op i hpc
  | wait =>
      simp only [IoSt.ioNext, Option.ite_none_right_eq_some, Option.some.injEq] at h
      exact h.2 ▸ .walk op i _ _ hpc (.woken op h.1)
  | ideRel r => exact Option.some.inj h ▸ .ideRel op i r _ _ _ hpc rfl
  | rel r =>
      rcases hr : releaseStep (.lock i) r (s.blocks i).lock s.tab with ⟨_ | r', lock, tab⟩
      · cases op with
        | read n =>
            simp only [IoSt.ioNext, hr, Option.some.injEq] at h
            exact h ▸ .readDone n i r lock tab hpc hr
        | write =>
            simp only [IoSt.ioNext, hr, Option.some.injEq] at h
            exact h ▸ .writeDone i r lock tab hpc hr
      · simp only [IoSt.ioNext, hr, Option.some.injEq] at h
        exact h ▸ .rel op i r r' lock tab hpc hr

/-- **Every statement** has one of the effects of `IoMove`. -/
theorem next_cases (h : IoSt.next p call s = some s') : IoMove p s s' := by
  unfold IoSt.next at h
  split at h
  next n hpc => exact Option.some.inj h ▸ .bread n hpc
  next n i hpc =>
    simp only [Option.ite_none_right_eq_some, Option.some.injEq] at h
    exact h.2 ▸ .brelse n i hpc h.1
  next n i d hpc =>
    simp only [Option.ite_none_right_eq_some, Option.some.injEq] at h
    exact h.2 ▸ .fill n i d hpc h.1
  next n i hpc =>
    simp only [Option.ite_none_right_eq_some, Option.some.injEq] at h
    exact h.2 ▸ .bwrite n i hpc h.1
  next n hpc =>
    obtain ⟨⟨i, b⟩, hb, rfl⟩ := Option.map_eq_some_iff.mp h
    rcases bget_cases hb with ⟨hc, hn, rfl⟩ | ⟨-, hz, hd, rfl⟩
    · exact .hit n i hpc hc hn
    · exact .miss n i hpc hz hd
  next n i hpc =>
    split at h
    next hgt => exact Option.some.inj h ▸ .early n i hpc hgt
    next hle => exact Option.some.inj h ▸ .enter n i hpc (Nat.le_of_not_gt hle)
  next op i st hpc => exact ioNext_cases hpc h
  next => cases h

/-- A statement moves no other process and changes no other process's buffers. -/
theorem IoMove.other (h : IoMove p s s') {q : P} (hq : q ≠ p) :
    s'.pc q = s.pc q ∧ s'.held q = s.held q := by
  cases h with
  | send op i t hpc ht =>
      simp only [IoSt.sendreq, Option.ite_none_left_eq_some, Option.some.injEq] at ht
      obtain ⟨-, rfl⟩ := ht
      simp [hq]
  | _ => simp [hq]

/-- No statement stores to the disk. -/
theorem IoMove.sectors (h : IoMove p s s') : s'.sectors = s.sectors := by
  cases h with
  | send op i t hpc ht =>
      simp only [IoSt.sendreq, Option.ite_none_left_eq_some, Option.some.injEq] at ht
      obtain ⟨-, rfl⟩ := ht
      rfl
  | _ => rfl

/-- A call of `bread` by a process that is outside. -/
theorem bread_cases {n : ℕ} (h : IoSt.next p (.bread n) s = some s') :
    s.pc p = .idle ∧ s' = s.goto p (.bget n) := by
  cases hpc : s.pc p with
  | idle => simpa [IoSt.next, hpc, eq_comm] using h
  | bget _ | test _ _ | io _ _ _ => simp [IoSt.next, hpc] at h

/-- A process in `bread(n)` stays there, until it has one more buffer. -/
theorem reads_move {n : ℕ} (h : IoMove p s s') (hreads : (s.pc p).reads = some n) :
    (s'.pc p).reads = some n ∧ s'.held p = s.held p ∨
      s'.pc p = .idle ∧ ∃ b, s'.held p = (n, b) :: s.held p := by
  cases h with
  | bread m hpc | bwrite m b hpc _ | brelse m b hpc _ | fill m b d hpc _ | setDirty b hpc
  | writeDone b _ _ _ hpc _ =>
      rw [hpc] at hreads
      cases hreads
  | hit m b hpc _ _ | miss m b hpc _ _ | enter m b hpc _ =>
      rw [hpc] at hreads
      exact .inl ⟨by simpa [IoPc.reads] using hreads, by simp⟩
  | early m b hpc _ | readDone m b _ _ _ hpc _ =>
      rw [hpc] at hreads
      obtain rfl : m = n := Option.some.inj hreads
      exact .inr ⟨by simp, b, by simp⟩
  | send op b t hpc ht =>
      rw [hpc] at hreads
      simp only [IoSt.sendreq, Option.ite_none_left_eq_some, Option.some.injEq] at ht
      obtain ⟨-, rfl⟩ := ht
      cases op with
      | read m => exact .inl ⟨by simpa [IoPc.reads] using hreads, by simp⟩
      | write => cases hreads
  | walk op b _ _ hpc _ | acq op b _ _ _ _ hpc _ | ideAcq op b _ _ _ _ hpc _
  | sleep op b hpc | ideRel op b _ _ _ _ hpc _ | rel op b _ _ _ _ hpc _ =>
      rw [hpc] at hreads
      cases op with
      | read m => exact .inl ⟨by simpa [IoPc.reads] using hreads, by simp⟩
      | write => cases hreads

/-- What an interrupt leaves alone, whatever channel it finds. -/
structure Interrupt (s s' : IoSt P D) : Prop where
  pc : s'.pc = s.pc
  held : s'.held = s.held
  idelock : s'.idelock = s.idelock
  disk : s'.disk = none
  block : ∀ i, (s'.blocks i).refcnt = (s.blocks i).refcnt ∧
    (s'.blocks i).lock = (s.blocks i).lock ∧ (s'.blocks i).blockno = (s.blocks i).blockno
  clean : ∀ i, (s.blocks i).dirty = false → (s'.blocks i).dirty = false
  wchan : ∀ q c, s'.tab.wchan q = some c → s.tab.wchan q = some c
  same : ∀ i, s.intrChan ≠ some (.blk i) → s'.blocks i = s.blocks i

omit [DecidableEq P] in
theorem ideintr_interrupt (h : s.ideintr = some s') : Interrupt s s' := by
  obtain ⟨r, -, rfl⟩ := Option.map_eq_some_iff.mp h
  simp only
  split
  next i hchan =>
    constructor <;> try rfl
    · intro j
      refine ⟨?_, ?_, ?_⟩ <;> by_cases hj : j = i <;> simp [hj]
    · intro j hclean
      by_cases hj : j = i <;> simp [hj, hclean]
    · exact fun q c hq => ProcTab.wchan_of_wakeup hq
    · intro j hne
      have hj : j ≠ i := by
        rintro rfl
        exact hne hchan
      simp [hj]
  next =>
    constructor <;> try rfl
    · exact fun _ => ⟨rfl, rfl, rfl⟩
    · exact fun _ hclean => hclean
    · exact fun q c hq => ProcTab.wchan_of_wakeup hq
    · exact fun _ _ => rfl

end Moves

/-! ## Reference counts -/

section Refs
variable {P D : Type} [DecidableEq P] [Fintype P]

/-- The references that `p` has on buffer `i`: those it holds, and the one that a
`bread` in progress is about to return. -/
def IoSt.refs (s : IoSt P D) (p : P) (i : Buf) : ℕ :=
  ((s.held p).map Prod.snd).count i + if (s.pc p).ref = some i then 1 else 0

/-- The reference counts are exact, and who writes a buffer has a reference to it. -/
structure RefInv (s : IoSt P D) : Prop where
  refcnt : ∀ i, (s.blocks i).refcnt = ∑ p, s.refs p i
  bound : ∀ i, (s.blocks i).refcnt < 65536
  writes : ∀ p i st, s.pc p = .io .write i st → ∃ n, (n, i) ∈ s.held p

/-- The increment of `bget` by a process at `pc` does not overflow the 16-bit count. -/
def SafeRef (s : IoSt P D) : IoPc → Prop
  | .bget n => ∀ i ∈ s.cached n, (s.blocks i).refcnt + 1 < 65536
  | _ => True

instance (s : IoSt P D) : ∀ pc, Decidable (SafeRef s pc)
  | .bget n => inferInstanceAs (Decidable (∀ i ∈ s.cached n, _))
  | .idle | .test .. | .io .. => .isTrue trivial

variable {p : P} {s s' : IoSt P D}

omit [DecidableEq P] in
/-- Two sums that differ at one process. -/
theorem sum_add_of_other {f g : P → ℕ} (h : ∀ q, q ≠ p → f q = g q) :
    ∑ q, f q + g p = ∑ q, g q + f p := by
  classical
  have hother : ∑ q ∈ Finset.univ.erase p, f q = ∑ q ∈ Finset.univ.erase p, g q :=
    Finset.sum_congr rfl fun q hq => h q (Finset.ne_of_mem_erase hq)
  have hf := Finset.add_sum_erase Finset.univ f (Finset.mem_univ p)
  have hg := Finset.add_sum_erase Finset.univ g (Finset.mem_univ p)
  omega

/-- Only the references of the process that moves change the total. -/
theorem sum_refs (h : IoMove p s s') (i : Buf) :
    ∑ q, s'.refs q i + s.refs p i = ∑ q, s.refs q i + s'.refs p i := by
  refine sum_add_of_other (f := fun q => s'.refs q i) (g := fun q => s.refs q i) fun q hq => ?_
  obtain ⟨hpc, hheld⟩ := h.other hq
  simp only [IoSt.refs, hpc, hheld]

omit [DecidableEq P] in
/-- Nobody has more references than are counted. -/
theorem RefInv.refs_le (hinv : RefInv s) (p : P) (i : Buf) :
    s.refs p i ≤ (s.blocks i).refcnt := by
  rw [hinv.refcnt i]
  exact Finset.single_le_sum (f := fun q => s.refs q i) (fun _ _ => Nat.zero_le _)
    (Finset.mem_univ p)

/-- Two processes have no more references together than are counted. -/
theorem RefInv.refs_add_le (hinv : RefInv s) {p q : P} (hpq : p ≠ q) (i : Buf) :
    s.refs p i + s.refs q i ≤ (s.blocks i).refcnt := by
  rw [hinv.refcnt i, ← Finset.add_sum_erase Finset.univ (fun q => s.refs q i) (Finset.mem_univ p)]
  exact Nat.add_le_add_left (Finset.single_le_sum (f := fun q => s.refs q i)
    (fun _ _ => Nat.zero_le _) (Finset.mem_erase.mpr ⟨hpq.symm, Finset.mem_univ q⟩)) _

omit [DecidableEq P] [Fintype P] in
/-- Giving back a buffer takes one reference away. -/
theorem count_erase {l : List (ℕ × Buf)} {n : ℕ} {j : Buf} (h : (n, j) ∈ l) (i : Buf) :
    ((l.erase (n, j)).map Prod.snd).count i + (if j = i then 1 else 0) =
      (l.map Prod.snd).count i := by
  have hperm := (List.perm_cons_erase h).map Prod.snd
  rw [hperm.count_eq i, List.map_cons, List.count_cons]
  simp

omit [DecidableEq P] [Fintype P] in
/-- A component that the new contents of a buffer share with the old ones. -/
theorem update_same {β : Type} (g : Block P D → β) {blocks : Buf → Block P D} {j : Buf}
    {b : Block P D} (h : g b = g (blocks j)) (i : Buf) :
    g (Function.update blocks j b i) = g (blocks i) := by
  by_cases hij : i = j
  · subst hij; simpa using h
  · rw [Function.update_of_ne hij]

omit [Fintype P] in
/-- A buffer with a reference keeps its block. -/
theorem IoMove.blockno (h : IoMove p s s') {i : Buf} (hi : 0 < (s.blocks i).refcnt) :
    (s'.blocks i).blockno = (s.blocks i).blockno := by
  cases h with
  | miss n j _ hz _ =>
      have hij : i ≠ j := by rintro rfl; omega
      simp [hij]
  | send op j t _ ht =>
      simp only [IoSt.sendreq, Option.ite_none_left_eq_some, Option.some.injEq, not_or,
        Nat.not_le] at ht
      obtain ⟨⟨-, hlt⟩, rfl⟩ := ht
      exact update_same Block.blockno (Nat.mod_eq_of_lt (Nat.lt_trans hlt (by decide))) i
  | brelse | fill | hit | setDirty | acq | rel | readDone | writeDone =>
      exact update_same Block.blockno (by rfl) i
  | _ => rfl

omit [Fintype P] in
/-- Only `bwrite` marks a buffer for writing. -/
theorem IoMove.clean (h : IoMove p s s') (hwrite : ∀ i st, s.pc p ≠ .io .write i st) {i : Buf}
    (hi : (s.blocks i).dirty = false) : (s'.blocks i).dirty = false := by
  cases h with
  | setDirty j hpc => exact absurd hpc (hwrite j _)
  | miss n j _ _ _ =>
      by_cases hij : i = j
      · subst hij
        simp
      · simp [hij, hi]
  | send op j t _ ht =>
      simp only [IoSt.sendreq, Option.ite_none_left_eq_some, Option.some.injEq] at ht
      obtain ⟨-, rfl⟩ := ht
      exact (update_same Block.dirty (by rfl) i).trans hi
  | brelse | fill | hit | acq | rel | readDone | writeDone =>
      exact (update_same Block.dirty (by rfl) i).trans hi
  | _ => exact hi

/-- The count of a buffer changes with the references of the process that moves. -/
theorem refcnt_move (hinv : RefInv s) (hsafe : SafeRef s (s.pc p)) (h : IoMove p s s') (i : Buf) :
    (s'.blocks i).refcnt + s.refs p i = (s.blocks i).refcnt + s'.refs p i ∧
      (s'.blocks i).refcnt < 65536 := by
  have hb := hinv.bound i
  -- A statement that leaves both the count and the references of `p` alone.
  have hsame : (s'.blocks i).refcnt = (s.blocks i).refcnt → s'.refs p i = s.refs p i →
      (s'.blocks i).refcnt + s.refs p i = (s.blocks i).refcnt + s'.refs p i ∧
        (s'.blocks i).refcnt < 65536 := by
    intro hc hr
    rw [hc, hr]
    exact ⟨rfl, hb⟩
  cases h with
  | bread n hpc => exact hsame rfl (by simp [IoSt.refs, hpc, IoPc.ref])
  | bwrite n j hpc _ => exact hsame rfl (by simp [IoSt.refs, hpc, IoPc.ref])
  | brelse n j hpc hmem =>
      have hcount := count_erase hmem i
      by_cases hij : i = j
      · subst hij
        have hle := hinv.refs_le p i
        simp [IoSt.refs, hpc, IoPc.ref] at hcount hle ⊢
        omega
      · have hji : ¬ j = i := fun h => hij h.symm
        simp [hji] at hcount
        simp [IoSt.refs, hpc, IoPc.ref, hij, hb, hcount]
  | fill n j d hpc _ => exact hsame (update_same Block.refcnt (by rfl) i) rfl
  | hit n j hpc hc hn =>
      rw [hpc] at hsafe
      have hlt := hsafe j hc
      by_cases hij : i = j
      · subst hij
        simp [IoSt.refs, hpc, IoPc.ref, Nat.mod_eq_of_lt hlt]
        omega
      · have hji : ¬ j = i := fun h => hij h.symm
        simp [IoSt.refs, hpc, IoPc.ref, hij, hji, hb]
  | miss n j hpc hz hd =>
      by_cases hij : i = j
      · subst hij
        simp [IoSt.refs, hpc, IoPc.ref, hz]
        omega
      · have hji : ¬ j = i := fun h => hij h.symm
        simp [IoSt.refs, hpc, IoPc.ref, hij, hji, hb]
  | early n j hpc hgt => exact hsame rfl (by simp [IoSt.refs, hpc, IoPc.ref, List.count_cons])
  | enter n j hpc hle => exact hsame rfl (by simp [IoSt.refs, hpc, IoPc.ref])
  | walk op j st st' hpc hw => exact hsame rfl (by cases op <;> simp [IoSt.refs, hpc, IoPc.ref])
  | setDirty j hpc =>
      exact hsame (update_same Block.refcnt (by rfl) i) (by simp [IoSt.refs, hpc, IoPc.ref])
  | acq op j a a' lock tab hpc ha =>
      exact hsame (update_same Block.refcnt (by rfl) i)
        (by cases op <;> simp [IoSt.refs, hpc, IoPc.ref])
  | ideAcq op j a a' idelock tab hpc ha =>
      exact hsame rfl (by cases op <;> simp [IoSt.refs, hpc, IoPc.ref])
  | send op j s' hpc ht =>
      simp only [IoSt.sendreq, Option.ite_none_left_eq_some, Option.some.injEq] at ht
      obtain ⟨-, rfl⟩ := ht
      exact hsame (update_same Block.refcnt (by rfl) i)
        (by cases op <;> simp [IoSt.refs, hpc, IoPc.ref])
  | sleep op j hpc => exact hsame rfl (by cases op <;> simp [IoSt.refs, hpc, IoPc.ref])
  | ideRel op j r r' idelock tab hpc hr =>
      exact hsame rfl (by cases op <;> simp [IoSt.refs, hpc, IoPc.ref])
  | rel op j r r' lock tab hpc hr =>
      exact hsame (update_same Block.refcnt (by rfl) i)
        (by cases op <;> simp [IoSt.refs, hpc, IoPc.ref])
  | readDone n j r lock tab hpc hr =>
      exact hsame (update_same Block.refcnt (by rfl) i)
        (by simp [IoSt.refs, hpc, IoPc.ref, List.count_cons])
  | writeDone j r lock tab hpc hr =>
      exact hsame (update_same Block.refcnt (by rfl) i) (by simp [IoSt.refs, hpc, IoPc.ref])

/-- **Every statement** keeps the reference counts exact. -/
theorem RefInv.move (hinv : RefInv s) (hsafe : SafeRef s (s.pc p)) (h : IoMove p s s') : RefInv s' where
  refcnt i := by
    have hsum := sum_refs h i
    have hcnt := (refcnt_move hinv hsafe h i).1
    have hold := hinv.refcnt i
    omega
  bound i := (refcnt_move hinv hsafe h i).2
  writes q i st hq := by
    by_cases hqp : q = p
    · subst hqp
      have hw := hinv.writes q
      cases h with
      | bwrite n j hpc hmem =>
          obtain ⟨rfl, -⟩ : j = i ∧ Stage.acq .test = st := by simpa using hq
          exact ⟨n, by simpa using hmem⟩
      | send op j t hpc ht =>
          simp only [IoSt.sendreq, Option.ite_none_left_eq_some, Option.some.injEq] at ht
          obtain ⟨-, rfl⟩ := ht
          obtain ⟨rfl, rfl, -⟩ : op = .write ∧ j = i ∧ _ := by simpa using hq
          exact hw _ _ hpc
      | fill n j d hpc _ => exact hw i st hq
      | setDirty j hpc =>
          obtain ⟨rfl, -⟩ : j = i ∧ _ := by simpa using hq
          exact hw _ _ hpc
      | walk op j st₁ st₂ hpc _ | acq op j _ _ _ _ hpc _ | ideAcq op j _ _ _ _ hpc _
      | sleep op j hpc | ideRel op j _ _ _ _ hpc _ | rel op j _ _ _ _ hpc _ =>
          obtain ⟨rfl, rfl, -⟩ : op = .write ∧ j = i ∧ _ := by simpa using hq
          exact hw _ _ hpc
      | bread n hpc | brelse n j hpc _ | hit n j hpc _ _ | miss n j hpc _ _ | early n j hpc _
      | enter n j hpc _ | readDone n j _ _ _ hpc _ | writeDone j _ _ _ hpc _ => simp_all
    · obtain ⟨hpc, hheld⟩ := h.other hqp
      rw [hheld]
      exact hinv.writes q i st (hpc ▸ hq)

omit [DecidableEq P] in
/-- A process that reads or writes a buffer has a reference to it. -/
theorem RefInv.refs_pos_of_io (hinv : RefInv s) {op : Op} {i : Buf} {st : Stage}
    (hpc : s.pc p = .io op i st) : 0 < s.refs p i := by
  cases op with
  | read n => simp [IoSt.refs, hpc, IoPc.ref]
  | write =>
      obtain ⟨n, hn⟩ := hinv.writes p i st hpc
      have hmem : i ∈ (s.held p).map Prod.snd := List.mem_map.mpr ⟨_, hn, rfl⟩
      have := List.count_pos_iff.mpr hmem
      simp only [IoSt.refs]
      omega

omit [DecidableEq P] [Fintype P] in
/-- A process that holds a buffer has a reference to it. -/
theorem refs_pos_of_held {n : ℕ} {i : Buf} (h : (n, i) ∈ s.held p) : 0 < s.refs p i := by
  have hmem : i ∈ (s.held p).map Prod.snd := List.mem_map.mpr ⟨_, h, rfl⟩
  have := List.count_pos_iff.mpr hmem
  simp only [IoSt.refs]
  omega

omit [DecidableEq P] [Fintype P] in
/-- All references of a process. -/
theorem sum_refs_buf (s : IoSt P D) (p : P) :
    ∑ i, s.refs p i = (s.held p).length + if (s.pc p).ref.isSome then 1 else 0 := by
  have hcount := Multiset.sum_count_eq_card (s := Finset.univ)
    (m := (((s.held p).map Prod.snd : List Buf) : Multiset Buf)) fun a _ => Finset.mem_univ a
  simp only [Multiset.coe_count, Multiset.coe_card, List.length_map] at hcount
  simp only [IoSt.refs, Finset.sum_add_distrib, hcount]
  rcases (s.pc p).ref with _ | i <;> simp

omit [DecidableEq P] in
/-- An interrupt leaves the references alone. -/
theorem Interrupt.refInv (h : Interrupt s s') (hinv : RefInv s) : RefInv s' where
  refcnt i := by
    rw [(h.block i).1, hinv.refcnt i]
    simp only [IoSt.refs, h.pc, h.held]
  bound i := (h.block i).1 ▸ hinv.bound i
  writes q i st hq := h.held ▸ hinv.writes q i st (h.pc ▸ hq)

end Refs

/-! ## The locks -/

section Locks
variable {P D : Type} [DecidableEq P]

/-- The locks record who is past `acquire` and not yet into `release`. -/
structure LockPhases (s : IoSt P D) : Prop where
  blk : ∀ i, LockInv (s.blocks i).lock (IoPc.blkPhase i ∘ s.pc)
  ide : LockInv s.idelock (IoPc.idePhase ∘ s.pc)

/-- Process `p`, at `pc`, does not overtake another one in the middle of `acquire` or
`release` of a buffer lock. -/
def SafeBlk (s : IoSt P D) (p : P) : IoPc → Prop
  | .io _ i (.acq a) => SafeAcquire (s.blocks i).lock a
  | .io _ i (.rel r) => SafeRelease p (s.blocks i).lock r
  | _ => True

/-- Process `p`, at `pc`, does not overtake another one in the middle of `acquire` or
`release` of `idelock`. -/
def SafeIde (s : IoSt P D) (p : P) : IoPc → Prop
  | .io _ _ (.ideAcq a) => SafeAcquire s.idelock a
  | .io _ _ (.ideRel r) => SafeRelease p s.idelock r
  | _ => True

instance (s : IoSt P D) (p : P) : ∀ pc, Decidable (SafeBlk s p pc)
  | .io _ _ (.acq _) | .io _ _ (.rel _) => inferInstanceAs (Decidable (_ → _))
  | .idle | .bget _ | .test .. | .io _ _ .start | .io _ _ .rw | .io _ _ .todo
  | .io _ _ (.ideAcq _) | .io _ _ .send | .io _ _ .loop | .io _ _ .sleep | .io _ _ .wait
  | .io _ _ (.ideRel _) => .isTrue trivial

instance (s : IoSt P D) (p : P) : ∀ pc, Decidable (SafeIde s p pc)
  | .io _ _ (.ideAcq _) | .io _ _ (.ideRel _) => inferInstanceAs (Decidable (_ → _))
  | .idle | .bget _ | .test .. | .io _ _ .start | .io _ _ .rw | .io _ _ .todo
  | .io _ _ (.acq _) | .io _ _ .send | .io _ _ .loop | .io _ _ .sleep | .io _ _ .wait
  | .io _ _ (.rel _) => .isTrue trivial

variable {p : P} {s s' : IoSt P D}

/-- A process moves without a change of its phase. -/
theorem lockInv_goto {l : Lock P} {phase : IoPc → Phase} {k : IoPc}
    (h : LockInv l (phase ∘ s.pc)) (hk : phase k = phase (s.pc p)) :
    LockInv l (phase ∘ Function.update s.pc p k) := by
  rwa [Function.comp_update, hk, ← Function.comp_apply (f := phase), Function.update_eq_self]

/-- The lock of a buffer after a statement that does not touch it. -/
theorem blk_goto {blocks : Buf → Block P D} {k : IoPc} {i : Buf}
    (h : LockInv (s.blocks i).lock (IoPc.blkPhase i ∘ s.pc))
    (hlock : (blocks i).lock = (s.blocks i).lock) (hk : k.blkPhase i = (s.pc p).blkPhase i) :
    LockInv (blocks i).lock (IoPc.blkPhase i ∘ Function.update s.pc p k) := by
  rw [hlock]
  exact lockInv_goto h hk

/-- The lock of a buffer after a statement of `acquire` or `release` on it. -/
theorem blk_update {op : Op} {i j : Buf} {st : Stage} {b : Block P D} {k : IoPc}
    (h : LockInv (s.blocks i).lock (IoPc.blkPhase i ∘ s.pc)) (hpc : s.pc p = .io op j st)
    (hother : i ≠ j → k.blkPhase i = .out)
    (hstep : i = j → LockInv b.lock
      (Function.update (IoPc.blkPhase i ∘ s.pc) p (k.blkPhase i))) :
    LockInv (Function.update s.blocks j b i).lock
      (IoPc.blkPhase i ∘ Function.update s.pc p k) := by
  by_cases hij : i = j
  · subst hij
    rw [Function.update_self, Function.comp_update]
    exact hstep rfl
  · have hji : ¬ j = i := fun h => hij h.symm
    refine blk_goto h (by rw [Function.update_of_ne hij]) ?_
    rw [hother hij, hpc]
    simp [IoPc.blkPhase, hji]

/-- **The buffer locks** keep their discipline. -/
theorem blk_move (hinv : LockPhases s) (hsafe : SafeBlk s p (s.pc p)) (h : IoMove p s s') (i : Buf) :
    LockInv (s'.blocks i).lock (IoPc.blkPhase i ∘ s'.pc) := by
  have hi := hinv.blk i
  have hphase : ∀ op j st, s.pc p = .io op j st → i = j → (IoPc.blkPhase i ∘ s.pc) p = st.blk := by
    rintro op j st hpc rfl
    simp [hpc, IoPc.blkPhase]
  cases h with
  | bread n hpc => exact blk_goto (s := s) hi rfl (by simp [hpc, IoPc.blkPhase])
  | bwrite n j hpc _ => exact blk_goto (s := s) hi rfl (by simp [hpc, IoPc.blkPhase, Stage.blk, Acq.phase])
  | brelse n j hpc hmem | fill n j d hpc _ =>
      refine (congrArg (LockInv · (IoPc.blkPhase i ∘ s.pc)) ?_).mpr hi
      exact update_same Block.lock (by rfl) i
  | hit n j hpc _ _ | miss n j hpc _ _ =>
      exact blk_goto (s := s) hi (update_same Block.lock (by rfl) i) (by simp [hpc, IoPc.blkPhase])
  | early n j hpc hgt => exact blk_goto (s := s) hi rfl (by simp [hpc, IoPc.blkPhase])
  | enter n j hpc hle => exact blk_goto (s := s) hi rfl (by simp [hpc, IoPc.blkPhase, Stage.blk, Acq.phase])
  | walk op j st st' hpc hw =>
      exact blk_goto (s := s) hi rfl (by cases hw <;> simp [hpc, IoPc.blkPhase, Stage.blk, Rel.phase])
  | setDirty j hpc =>
      exact blk_goto (s := s) hi (update_same Block.lock (by rfl) i)
        (by simp [hpc, IoPc.blkPhase, Stage.blk])
  | acq op j a a' lock tab hpc ha =>
      refine blk_update hi hpc (fun hij => by simp [IoPc.blkPhase, Ne.symm hij]) ?_
      rintro rfl
      have hnext := hi.acquireStep (hphase _ _ _ hpc rfl) (by simpa [SafeBlk, hpc] using hsafe) ha
      cases a' <;> simpa [IoPc.blkPhase, Stage.blk] using hnext
  | ideAcq op j a a' idelock tab hpc ha =>
      exact blk_goto (s := s) hi rfl (by cases a' <;> simp [hpc, IoPc.blkPhase, Stage.blk])
  | send op j s' hpc ht =>
      simp only [IoSt.sendreq, Option.ite_none_left_eq_some, Option.some.injEq] at ht
      obtain ⟨-, rfl⟩ := ht
      exact blk_goto (s := s) hi (update_same Block.lock (by rfl) i)
        (by simp [hpc, IoPc.blkPhase, Stage.blk])
  | sleep op j hpc => exact blk_goto (s := s) hi rfl (by simp [hpc, IoPc.blkPhase, Stage.blk])
  | ideRel op j r r' idelock tab hpc hr =>
      exact blk_goto (s := s) hi rfl (by cases r' <;> simp [hpc, IoPc.blkPhase, Stage.blk, Rel.phase])
  | rel op j r r' lock tab hpc hr =>
      refine blk_update hi hpc (fun hij => by simp [IoPc.blkPhase, Ne.symm hij]) ?_
      rintro rfl
      have hnext := hi.releaseStep (hphase _ _ _ hpc rfl) (by simpa [SafeBlk, hpc] using hsafe) hr
      simpa [IoPc.blkPhase, Stage.blk] using hnext
  | readDone n j r lock tab hpc hr | writeDone j r lock tab hpc hr =>
      refine blk_update hi hpc (fun _ => rfl) ?_
      rintro rfl
      have hnext := hi.releaseStep (hphase _ _ _ hpc rfl) (by simpa [SafeBlk, hpc] using hsafe) hr
      simpa [IoPc.blkPhase, Stage.blk] using hnext

/-- **`idelock`** keeps its discipline. -/
theorem ide_move (hinv : LockPhases s) (hsafe : SafeIde s p (s.pc p)) (h : IoMove p s s') :
    LockInv s'.idelock (IoPc.idePhase ∘ s'.pc) := by
  have hi := hinv.ide
  have hphase : ∀ op j st, s.pc p = .io op j st → (IoPc.idePhase ∘ s.pc) p = st.ide := by
    intro op j st hpc
    simp [hpc, IoPc.idePhase]
  cases h with
  | bread n hpc | hit n j hpc _ _ | miss n j hpc _ _ | early n j hpc _ =>
      exact lockInv_goto (s := s) hi (by simp [hpc, IoPc.idePhase])
  | bwrite n j hpc _ | enter n j hpc _ | setDirty j hpc =>
      exact lockInv_goto (s := s) hi (by simp [hpc, IoPc.idePhase, Stage.ide])
  | brelse n j hpc hmem | fill n j d hpc _ => exact hi
  | walk op j st st' hpc hw =>
      refine lockInv_goto (s := s) hi ?_
      cases hw <;> simp [hpc, IoPc.idePhase, Stage.ide, Rel.phase, Acq.phase]
  | acq op j a a' lock tab hpc ha =>
      exact lockInv_goto (s := s) hi (by cases a' <;> simp [hpc, IoPc.idePhase, Stage.ide])
  | ideAcq op j a a' idelock tab hpc ha =>
      have hnext := hi.acquireStep (hphase _ _ _ hpc) (by simpa [SafeIde, hpc] using hsafe) ha
      simp only [IoSt.goto_pc, Function.comp_update]
      cases a' <;> exact hnext
  | send op j s' hpc ht =>
      simp only [IoSt.sendreq, Option.ite_none_left_eq_some, Option.some.injEq] at ht
      obtain ⟨-, rfl⟩ := ht
      exact lockInv_goto (s := s) hi (by simp [hpc, IoPc.idePhase, Stage.ide])
  | sleep op j hpc => exact lockInv_goto (s := s) hi (by simp [hpc, IoPc.idePhase, Stage.ide])
  | ideRel op j r r' idelock tab hpc hr =>
      have hnext := hi.releaseStep (hphase _ _ _ hpc) (by simpa [SafeIde, hpc] using hsafe) hr
      simp only [IoSt.goto_pc, Function.comp_update]
      cases r' <;> exact hnext
  | rel op j r r' lock tab hpc hr | readDone n j r lock tab hpc hr
  | writeDone j r lock tab hpc hr =>
      exact lockInv_goto (s := s) hi (by simp [hpc, IoPc.idePhase, Stage.ide])

omit [DecidableEq P] in
theorem Interrupt.lockPhases (h : Interrupt s s') (hinv : LockPhases s) : LockPhases s' where
  blk i := by rw [(h.block i).2.1, h.pc]; exact hinv.blk i
  ide := by rw [h.idelock, h.pc]; exact hinv.ide

end Locks
end Mixv6.Fs
