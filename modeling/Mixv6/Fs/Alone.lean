import Mixv6.Fs.Bread

/-!
# One process at a time

While one process at a time uses the cache nobody overtakes anybody in a lock, and `bread`
never returns early: the reference that it has just taken is the only one.  What it returns
is then right even if the drive interrupts too early, since a process that has missed its
completion does not return at all.

## Main definitions

* `Alone`, `Sole` — no other process is in a routine of the cache, or holds a buffer.
* `ReadIo` — what holds while nobody writes, whatever the drive does.
* `Calm` — nobody uses the cache.
-/

namespace Mixv6.Fs

open Mixv6.Lib Mixv6.Kernel

variable {P D : Type}

/-- No process but `p` is in a routine of the cache. -/
def Alone (s : IoSt P D) (p : P) : Prop := ∀ q, q ≠ p → s.pc q = .idle

/-- No process but `p` uses the cache. -/
structure Sole (s : IoSt P D) (p : P) : Prop where
  pc : Alone s p
  held : ∀ q, q ≠ p → s.held q = []

/-- What holds while nobody writes. -/
structure ReadIo [Fintype P] (s : IoSt P D) : Prop where
  refs : RefInv s
  locks : LockPhases s
  reqs : Requests s
  reads : ReadInv s

section Sole
variable {p : P} {s s' : IoSt P D}

/-- A lock is free if the one process is out of it. -/
theorem Alone.free (h : Alone s p) {phase : IoPc → Phase} {l : Lock P}
    (hl : LockInv l (phase ∘ s.pc)) (hidle : phase .idle = .out) (hp : phase (s.pc p) = .out) :
    l.locked = 0 := by
  apply hl.locked_eq_zero
  intro q
  by_cases hq : q = p
  · subst hq
    exact hp
  · rw [Function.comp_apply, h q hq, hidle]

/-- Nobody overtakes a process that is alone in `idelock`. -/
theorem Alone.safeIde [DecidableEq P] (h : Alone s p) (hlocks : LockPhases s) :
    SafeIde s p (s.pc p) := by
  have hfree := h.free hlocks.ide rfl
  cases hpc : s.pc p with
  | io op i st =>
      rw [hpc] at hfree
      cases st with
      | ideAcq a => rintro rfl; exact hfree rfl
      | ideRel r => rintro rfl; exact .inl (hfree rfl)
      | _ => trivial
  | _ => trivial

/-- Nobody overtakes a process that is alone in the lock of a buffer. -/
theorem Alone.safeBlk [DecidableEq P] (h : Alone s p) (hlocks : LockPhases s) :
    SafeBlk s p (s.pc p) := by
  have hfree := fun i => h.free (hlocks.blk i) rfl
  cases hpc : s.pc p with
  | io op i st =>
      have hi := hfree i
      simp only [hpc, IoPc.blkPhase, if_true] at hi
      cases st with
      | acq a => rintro rfl; exact hi rfl
      | rel r => rintro rfl; exact .inl (hi rfl)
      | _ => trivial
  | _ => trivial

variable [Fintype P]

/-- The counts are the references of the one process. -/
theorem Sole.refcnt (h : Sole s p) (href : RefInv s) (i : Buf) :
    (s.blocks i).refcnt = s.refs p i := by
  rw [href.refcnt i]
  apply Finset.sum_eq_single p
  · intro q _ hq
    simp [IoSt.refs, h.pc q hq, h.held q hq, IoPc.ref]
  · exact fun hp => absurd (Finset.mem_univ p) hp

/-- A process that holds no buffer has one reference at most. -/
theorem Sole.refcnt_le (h : Sole s p) (href : RefInv s) (hheld : s.held p = []) (i : Buf) :
    (s.blocks i).refcnt ≤ 1 := by
  rw [h.refcnt href i]
  simp only [IoSt.refs, hheld, List.map_nil, List.count_nil]
  split <;> omega

theorem Sole.safeRef (h : Sole s p) (href : RefInv s) (hheld : s.held p = []) (pc : IoPc) :
    SafeRef s pc := by
  cases pc with
  | bget n =>
      intro i _
      have hle := h.refcnt_le href hheld i
      omega
  | _ => trivial

/-- Its `bread` does not return early. -/
theorem Sole.earlyValid (h : Sole s p) (href : RefInv s) (hheld : s.held p = []) (pc : IoPc) :
    EarlyValid s pc := by
  cases pc with
  | test n i =>
      intro hgt
      have hle := h.refcnt_le href hheld i
      omega
  | _ => trivial

end Sole

namespace ReadIo
variable [Fintype P] {p : P} {s s' : IoSt P D}

theorem init (stat : P → ProcStat) (zero : D) (sectors : ℕ → D) : ReadIo (.init stat zero sectors) :=
  have hio := IoInv.init stat zero sectors
  ⟨hio.refs, hio.locks, hio.reqs.requests, .init stat zero sectors⟩

/-- **Every statement** of a process that is alone. -/
theorem next [DecidableEq P] (h : ReadIo s) (hsole : Sole s p) (hheld : s.pc p ≠ .idle → s.held p = [])
    {call : Bio D} (hread : call.reading) (hnext : s.next p call = some s') : ReadIo s' := by
  have hmove := next_cases hnext
  have hlocks : LockPhases s' :=
    ⟨blk_move h.locks (hsole.pc.safeBlk h.locks) hmove, ide_move h.locks (hsole.pc.safeIde h.locks) hmove⟩
  have hreqs := h.reqs.move h.refs h.locks hmove
  by_cases hidle : s.pc p = .idle
  · have hsafe : SafeRef s (s.pc p) := by rw [hidle]; trivial
    exact ⟨h.refs.move hsafe hmove, hlocks, hreqs, h.reads.call hidle hread hnext⟩
  · exact ⟨h.refs.move (hsole.safeRef h.refs (hheld hidle) _) hmove, hlocks, hreqs,
      h.reads.move h.refs h.reqs (hsole.earlyValid h.refs (hheld hidle) _) hmove hidle⟩

/-- While nobody writes an interrupt leaves the disk alone. -/
theorem sectors_of_intr (h : ReadIo s) (hintr : s.ideintr = some s') : s'.sectors = s.sectors := by
  obtain ⟨r, hr, rfl⟩ := Option.map_eq_some_iff.mp hintr
  have hnone := (h.reads.request r hr).1
  simp only
  split <;> simp [hnone]

/-- **Any interrupt**, also one that comes too early. -/
theorem intr (h : ReadIo s) (hintr : s.ideintr = some s') : ReadIo s' := by
  have hi := ideintr_interrupt hintr
  obtain ⟨r, hr, -⟩ := Option.map_eq_some_iff.mp hintr
  refine ⟨hi.refInv h.refs, hi.lockPhases h.locks, h.reqs.intr h.locks hintr, ?_⟩
  by_cases hchan : ∃ i, s.intrChan = some (.blk i)
  · obtain ⟨i, hi⟩ := hchan
    obtain ⟨rfl, -⟩ := h.reqs.chan h.locks hr hi
    exact h.reads.completion (completion_of_chan hr hi hintr)
  · -- The interrupt acts on no buffer.
    have hblocks : s'.blocks = s.blocks := by
      funext i
      exact hi.same i fun hne => hchan ⟨i, hne⟩
    obtain ⟨h1, h2, h3, h4, h5, h6, h7, -⟩ := h.reads
    constructor <;> simp only [hblocks, hi.pc, hi.held, h.sectors_of_intr hintr, hi.disk] <;>
      try assumption
    exact fun r hr => by cases hr

end ReadIo

/-- Nobody uses the cache, and nobody has written to it. -/
structure Calm [Fintype P] (s : IoSt P D) : Prop where
  io : ReadIo s
  pc : ∀ p, s.pc p = .idle
  held : ∀ p, s.held p = []

theorem Calm.init [Fintype P] (stat : P → ProcStat) (zero : D) (sectors : ℕ → D) :
    Calm (.init stat zero sectors) := ⟨.init stat zero sectors, fun _ => rfl, fun _ => rfl⟩

end Mixv6.Fs
