import Mixv6.Fs.Request
import Mixv6.Syscall.Tables

/-!
# The buffers of a block

The table starts with 256 buffers that all claim block 0, and `bget` looks at block
numbers only: not at the flags, and not at the reference counts.  A buffer that somebody
refers to, or that has been read, is nevertheless the only one `bget` ever finds for its
block.  The others that claim the block come after it and are as they were at the start.

`bget` without the rest of `bread` is here too, for the callers that overwrite the data.

## Main definitions

* `IoSt.take` — `bget(n)` as a call of its own.
* `Found` — the invariant.
* `Found.next`, `Found.take`, `Found.intr` — nothing breaks it.
-/

namespace Mixv6.Fs

open Mixv6.Lib Mixv6.Kernel
open Mixv6.Syscall (first of_first not_of_first lt_of_first first_eq_some)

variable {P D : Type}

/-- A buffer that has not been used since the start. -/
def Block.Pristine (b : Block P D) : Prop := b.blockno = 0 ∧ b.valid = false ∧ b.refcnt = 0

/-- `bget` finds every buffer that has been used. -/
def Found (s : IoSt P D) : Prop :=
  ∀ i, (s.blocks i).Pristine ∨ s.cached (s.blocks i).blockno = some i

section Search
variable {s t : IoSt P D} {n : ℕ} {i j : Buf}

theorem blockno_ne_of_cached (h : s.cached n = none) (i : Buf) : (s.blocks i).blockno ≠ n := by
  simpa using not_of_first h i

/-- The search depends on the block numbers. -/
theorem cached_congr (h : ∀ i, (t.blocks i).blockno = (s.blocks i).blockno) (n : ℕ) :
    t.cached n = s.cached n := by
  simp only [IoSt.cached, h]

/-- A buffer with a reference is the one that is found. -/
theorem Found.cached (h : Found s) (hi : 0 < (s.blocks i).refcnt) :
    s.cached (s.blocks i).blockno = some i :=
  (h i).resolve_left fun hp => by rw [hp.2.2] at hi; exact absurd hi (Nat.lt_irrefl 0)

/-- **No two buffers** with references are for the same block. -/
theorem Found.unique (h : Found s) (hi : 0 < (s.blocks i).refcnt) (hj : 0 < (s.blocks j).refcnt)
    (hij : (s.blocks i).blockno = (s.blocks j).blockno) : i = j := by
  have hci := h.cached hi
  have hcj := h.cached hj
  rw [hij, hcj] at hci
  exact (Option.some.inj hci).symm

theorem Found.init (stat : P → ProcStat) (zero : D) (sectors : ℕ → D) :
    Found (.init stat zero sectors) := fun _ => .inl ⟨rfl, rfl, rfl⟩

/-- A statement that changes no block number, makes no unused buffer valid and takes no
reference to one. -/
theorem Found.congr (h : Found s) (hno : ∀ i, (t.blocks i).blockno = (s.blocks i).blockno)
    (hp : ∀ i, (s.blocks i).Pristine → s.cached (s.blocks i).blockno ≠ some i →
      (t.blocks i).Pristine) : Found t := by
  intro i
  rw [cached_congr hno, hno i]
  by_cases hc : s.cached (s.blocks i).blockno = some i
  · exact .inr hc
  · exact .inl (hp i ((h i).resolve_right hc) hc)

/-- A buffer gets another block that no buffer claims. -/
theorem Found.recycle (h : Found s) (hnone : s.cached n = none) {b : Block P D}
    (hb : b.blockno = n) : Found (s.setBlock i b) := by
  have hother : ∀ j, j ≠ i → (s.setBlock i b).blocks j = s.blocks j :=
    fun j hj => Function.update_of_ne hj ..
  intro j
  by_cases hj : j = i
  · -- The new claim is the only one.
    right
    subst hj
    rw [IoSt.setBlock_blocks, Function.update_self, hb]
    apply first_eq_some
    · simp [hb]
    · intro k hk
      have hne : k ≠ j := ne_of_lt hk
      rw [hother k hne]
      simpa using blockno_ne_of_cached hnone k
  · rw [hother j hj]
    apply (h j).imp_right
    intro hc
    apply first_eq_some
    · simp [hother j hj]
    · intro k hk
      by_cases hki : k = i
      · subst hki
        simpa [hb] using (blockno_ne_of_cached hnone j).symm
      · rw [hother k hki]
        exact lt_of_first hc hk

end Search

/-- `bget(n)` by a process that does not go on to read the block. -/
def IoSt.take [DecidableEq P] (s : IoSt P D) (p : P) (n : ℕ) : Option (IoSt P D) :=
  if s.pc p = .idle then
    (s.bget n).map fun (i, b) => (s.setBlock i b).setHeld p ((n, i) :: s.held p)
  else none

section Bget
variable {p : P} {s t : IoSt P D} {n : ℕ} {i : Buf}

/-- `bget` finds the block, or takes a buffer for a block that no buffer claims. -/
theorem bget_found (h : Found s) {b : Block P D} (hb : s.bget n = some (i, b)) :
    Found (s.setBlock i b) ∧ ((s.setBlock i b).blocks i).blockno = n := by
  rcases bget_cases hb with ⟨hc, hn, rfl⟩ | ⟨hnone, -, -, rfl⟩
  · constructor
    · apply h.congr
      · intro j
        exact update_same Block.blockno (by rfl) j
      · intro j hp hne
        by_cases hj : j = i
        · subst hj
          exact absurd (by rw [hn]; exact hc) hne
        · simpa [hj] using hp
    · simpa using hn
  · exact ⟨h.recycle hnone rfl, by simp⟩

/-- Who uses a buffer has a reference to it, so that `bget` finds it. -/
theorem Found.update (h : Found s) (hi : 0 < (s.blocks i).refcnt) {b : Block P D}
    (hb : b.blockno = (s.blocks i).blockno) : Found (s.setBlock i b) := by
  apply h.congr
  · intro j
    exact update_same Block.blockno hb j
  · intro j hp hne
    by_cases hj : j = i
    · subst hj
      exact absurd (h.cached hi) hne
    · simpa [hj] using hp

end Bget

section Steps
variable [DecidableEq P] {p : P} {s t : IoSt P D} {n : ℕ}

/-- `bget` by a process that is outside: the buffer, and one more reference. -/
theorem take_cases (ht : s.take p n = some t) : s.pc p = .idle ∧ ∃ i b, s.bget n = some (i, b) ∧
    t = (s.setBlock i b).setHeld p ((n, i) :: s.held p) := by
  simp only [IoSt.take, Option.ite_none_right_eq_some, Option.map_eq_some_iff] at ht
  obtain ⟨hidle, ⟨i, b⟩, hb, rfl⟩ := ht
  exact ⟨hidle, i, b, hb, rfl⟩

theorem Found.take (h : Found s) (ht : s.take p n = some t) : Found t := by
  obtain ⟨-, i, b, hb, rfl⟩ := take_cases ht
  exact (bget_found h hb).1

/-- `bget` alone keeps the reference counts exact. -/
theorem RefInv.take [Fintype P] (h : RefInv s)
    (hsafe : ∀ i ∈ s.cached n, (s.blocks i).refcnt + 1 < 65536) (ht : s.take p n = some t) :
    RefInv t := by
  obtain ⟨hidle, i, b, hb, rfl⟩ := take_cases ht
  have hcount : b.refcnt = (s.blocks i).refcnt + 1 ∧ b.refcnt < 65536 := by
    rcases bget_cases hb with ⟨hc, -, rfl⟩ | ⟨-, hz, -, rfl⟩
    · have hlt := hsafe i hc
      simp [Nat.mod_eq_of_lt hlt, hlt]
    · simp [hz]
  -- The process has one more reference to `i`.
  have hrefs : ∀ q j, ((s.setBlock i b).setHeld p ((n, i) :: s.held p)).refs q j =
      s.refs q j + if q = p ∧ j = i then 1 else 0 := by
    intro q j
    by_cases hq : q = p
    · subst hq
      by_cases hj : j = i
      · subst hj
        simp [IoSt.refs, hidle, IoPc.ref]
      · simp [IoSt.refs, hidle, IoPc.ref, hj, Ne.symm hj]
    · rw [if_neg fun h => hq h.1]
      simp only [IoSt.refs, IoSt.setHeld_held, Function.update_of_ne hq]
      rfl
  refine ⟨fun j => ?_, fun j => ?_, fun q j st hq => ?_⟩
  · simp only [hrefs, Finset.sum_add_distrib, ← h.refcnt j]
    by_cases hj : j = i
    · subst hj
      simp [hcount.1]
    · simp [hj]
  · by_cases hj : j = i
    · subst hj
      simpa using hcount.2
    · simpa [hj] using h.bound j
  · obtain ⟨m, hm⟩ := h.writes q j st hq
    have hqp : q ≠ p := by
      rintro rfl
      have hw : s.pc q = .io .write j st := hq
      rw [hidle] at hw
      cases hw
    exact ⟨m, by simpa [hqp] using hm⟩

/-- **Every statement** leaves `bget` able to find the buffers. -/
theorem Found.next [Fintype P] (h : Found s) (href : RefInv s) {call : Bio D}
    (hnext : IoSt.next p call s = some t) : Found t := by
  have hio : ∀ {op i st}, s.pc p = .io op i st → 0 < (s.blocks i).refcnt :=
    fun hpc => Nat.lt_of_lt_of_le (href.refs_pos_of_io hpc) (href.refs_le p _)
  have hheld : ∀ {n i}, (n, i) ∈ s.held p → 0 < (s.blocks i).refcnt :=
    fun hi => Nat.lt_of_lt_of_le (refs_pos_of_held hi) (href.refs_le p _)
  have hmove := next_cases hnext
  by_cases hget : ∃ n, s.pc p = .bget n
  · obtain ⟨n, hpc⟩ := hget
    simp only [IoSt.next, hpc] at hnext
    cases call <;> simp only [reduceCtorEq, Option.map_eq_some_iff] at hnext
    obtain ⟨⟨i, b⟩, hb, rfl⟩ := hnext
    exact (bget_found h hb).1
  cases hmove with
  | hit n i hpc _ _ | miss n i hpc _ _ => exact absurd ⟨n, hpc⟩ hget
  | brelse n i _ hmem | fill n i d _ hmem => exact h.update (hheld hmem) rfl
  | setDirty i hpc | acq op i a a' lock tab hpc _ | rel op i r r' lock tab hpc _
  | readDone n i r lock tab hpc _ | writeDone i r lock tab hpc _ => exact h.update (hio hpc) rfl
  | send op i t hpc ht =>
      simp only [IoSt.sendreq, Option.ite_none_left_eq_some, Option.some.injEq, not_or,
        Nat.not_le] at ht
      obtain ⟨⟨-, hlt⟩, rfl⟩ := ht
      exact h.update (hio hpc) (Nat.mod_eq_of_lt (Nat.lt_trans hlt (by decide)))
  | _ => exact h

omit [DecidableEq P] in
/-- So does an interrupt: a buffer that a process sleeps on has a reference. -/
theorem Found.intr (h : Found s)
    (hasleep : ∀ p i, s.tab.wchan p = some (.blk i) → 0 < (s.blocks i).refcnt)
    (hintr : s.ideintr = some t) : Found t := by
  obtain ⟨r, -, rfl⟩ := Option.map_eq_some_iff.mp hintr
  simp only
  split
  next i hchan =>
    obtain ⟨q, -, hq⟩ := Option.bind_eq_some_iff.mp hchan
    exact h.update (hasleep q i hq) rfl
  next => exact h

end Steps
end Mixv6.Fs
