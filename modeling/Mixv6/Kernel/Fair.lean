import Mixv6.Kernel.Sched
import Mixv6.Lib.Mirror

/-!
# Which processes `sched` picks

The loop of `sched` is meant to go round the process table.  It goes on after it has found a
runnable slot, and the index at which it found it becomes the base of the rest of the loop.

From a base `user.sched` the loop stops at the indices `i` for which `user.sched + i` is a
runnable slot, and `i` is the new base; so the bases walk along a line of mirrors, one for
each runnable slot, and one execution of the loop is one lap of the walk.  Every such walk
ends up repeating its laps, and from then on every execution picks the same slot.

## Main definitions

* `schedAfter`, `picked` — `user.sched` and the slot picked, execution after execution.
* `RoundRobin` — every runnable slot has its turn.
-/

namespace Mixv6.Kernel

variable {stat : Slot → ProcStat} {want : ProcStat}

/-- `user.sched` after `n` executions of the loop, no process changing its state. -/
def schedAfter (stat : Slot → ProcStat) (sched : ℕ) : ℕ → ℕ
  | 0 => sched
  | n + 1 => (scanProcs stat .RUN (schedAfter stat sched n)).2

/-- The slot that execution `n` of the loop picks. -/
def picked (stat : Slot → ProcStat) (sched n : ℕ) : Option Slot :=
  (scanProcs stat .RUN (schedAfter stat sched n)).1

/-- Every execution of the loop picks a runnable slot, and of any `NPROC` executions in a
row every runnable slot has one. -/
def RoundRobin (stat : Slot → ProcStat) (sched : ℕ) : Prop :=
  (∀ n, ∃ p, picked stat sched n = some p ∧ stat p = .RUN) ∧
    ∀ n p, stat p = .RUN → ∃ k < NPROC, picked stat sched (n + k) = some p

/-! ## One execution of the loop -/

/-- The loop of `sched` up to index `i`. -/
def scanned (stat : Slot → ProcStat) (want : ProcStat) (sched i : ℕ) : Option Slot × ℕ :=
  (List.range i).foldl (scanProc stat want) (none, sched)

theorem scanned_succ (sched i : ℕ) :
    scanned stat want sched (i + 1) = scanProc stat want (scanned stat want sched i) i := by
  simp [scanned, List.range_succ]

/-- The slot at position `e` of the table, which repeats after `NPROC`, is in state `want`. -/
def Wanted (stat : Slot → ProcStat) (want : ProcStat) (e : ℤ) : Prop :=
  stat (Fin.ofNat NPROC (e % NPROC).toNat) = want

theorem wanted_period (e : ℤ) : Wanted stat want (e + 2 * 32) ↔ Wanted stat want e := by
  simp only [Wanted, NPROC, Nat.cast_ofNat]
  rw [show (e + 2 * 32) % 64 = e % 64 by omega]

theorem wanted_cast (sched i : ℕ) :
    Wanted stat want (sched + i) ↔ stat (schedSlot sched i) = want := by
  have h : Fin.ofNat NPROC ((sched + i : ℤ) % NPROC).toNat = schedSlot sched i := by
    apply Fin.ext
    change ((sched + i : ℤ) % (64 : ℕ)).toNat % 64 = (sched + i) % 64
    omega
  rw [Wanted, h]

theorem exists_wanted {p : Slot} (hp : stat p = want) : ∃ e, Wanted stat want e := by
  refine ⟨(p : ℕ), ?_⟩
  rw [← add_zero ((p : ℕ) : ℤ)]
  exact_mod_cast (@wanted_cast stat want p 0).mpr (by simpa [schedSlot] using hp)

/-- The first index at which the loop finds a slot. -/
def FirstHit (stat : Slot → ProcStat) (want : ProcStat) (sched f : ℕ) : Prop :=
  Wanted stat want (sched + f) ∧ ∀ j < f, ¬ Wanted stat want (sched + j)

/-- The loop at index `i`: nothing found yet, or the base is on the walk from the first index
at which a slot has been found, and the next one is not before `i`. -/
theorem scanned_cases {T : ℤ → ℤ} (M : Lib.Mirrors (Wanted stat want) 32 T) (sched i : ℕ) :
    (scanned stat want sched i = (none, sched) ∧ ∀ j < i, ¬ Wanted stat want (sched + j)) ∨
      ∃ p f n, ∃ b : ℕ, scanned stat want sched i = (some p, b) ∧ stat p = want ∧
        FirstHit stat want sched f ∧ f < i ∧ (b : ℤ) = T^[n] f ∧ b < i ∧ (i : ℤ) ≤ T b := by
  induction i with
  | zero => exact .inl ⟨rfl, fun j hj => absurd hj (Nat.not_lt_zero j)⟩
  | succ i ih =>
      rw [scanned_succ]
      rcases ih with ⟨hscan, hnone⟩ | ⟨p, f, n, b, hscan, hp, hf, hfi, hb, hbi, hi⟩
      · by_cases hhit : stat (schedSlot sched i) = want
        · right
          have hlt := M.lt i
          refine ⟨schedSlot sched i, i, 0, i, ?_, hhit, ⟨(wanted_cast _ _).mpr hhit, hnone⟩,
            Nat.lt_succ_self i, rfl, Nat.lt_succ_self i, by push_cast; omega⟩
          simp [scanProc, hscan, hhit]
        · left
          refine ⟨by simp [scanProc, hscan, hhit], ?_⟩
          intro j hj
          rcases Nat.lt_succ_iff_lt_or_eq.mp hj with hj | rfl
          · exact hnone j hj
          · rwa [wanted_cast]
      · right
        by_cases hhit : stat (schedSlot b i) = want
        · -- The loop is at the next stop of the walk.
          have hT : T b = i := by
            have := M.least b _ ((wanted_cast _ _).mpr hhit) (by omega)
            omega
          have hlt := M.lt i
          refine ⟨schedSlot b i, f, n + 1, i, ?_, hhit, hf, by omega, ?_, Nat.lt_succ_self i,
            by push_cast; omega⟩
          · simp [scanProc, hscan, hhit]
          · rw [Function.iterate_succ_apply', ← hb, hT]
        · refine ⟨p, f, n, b, by simp [scanProc, hscan, hhit], hp, hf, by omega, hb, by omega, ?_⟩
          by_contra hcon
          apply hhit
          rw [← wanted_cast]
          have hT : T b = i := by omega
          have := M.mirror b
          rwa [hT] at this

/-- Where some slot is in the state that the loop looks for, the loop finds one. -/
theorem scanProcs_walk {T : ℤ → ℤ} (M : Lib.Mirrors (Wanted stat want) 32 T)
    {q : Slot} (hq : stat q = want) (sched : ℕ) :
    ∃ p f n, ∃ b : ℕ, scanProcs stat want sched = (some p, b) ∧ stat p = want ∧
      FirstHit stat want sched f ∧ f < 64 ∧ (b : ℤ) = T^[n] f ∧ b < 64 ∧ 64 ≤ T b := by
  rcases scanned_cases M sched NPROC with ⟨-, hnone⟩ | hwalk
  · exfalso
    have hlt : (q : ℕ) < 64 := q.isLt
    refine hnone ((q + (64 - sched % 64)) % 64) (Nat.mod_lt _ (by decide)) ((wanted_cast _ _).mpr ?_)
    have hslot : schedSlot sched ((q + (64 - sched % 64)) % 64) = q := by
      apply Fin.ext
      change (sched + (q + (64 - sched % 64)) % 64) % 64 = q
      omega
    rwa [hslot]
  · exact hwalk

/-- Where the base of an execution was left by another one, the execution is one lap. -/
theorem scanProcs_lap {T : ℤ → ℤ} (M : Lib.Mirrors (Wanted stat want) 32 T)
    {q : Slot} (hq : stat q = want) {c : ℕ} (hc : c < 64) (hT : 64 ≤ T c) :
    ∃ p n, ∃ b : ℕ, scanProcs stat want c = (some p, b) ∧ stat p = want ∧
      (b : ℤ) + 64 = T^[n + 1] c ∧ b < 64 ∧ 64 ≤ T b := by
  obtain ⟨p, f, n, b, hscan, hp, ⟨hfirst, hbefore⟩, hf, hb, hb64, hTb⟩ := scanProcs_walk M hq c
  have hTc : T c = f + 64 := by
    apply le_antisymm
    · have := M.least c _ ((wanted_period _).mpr hfirst) (by omega)
      omega
    · by_contra hcon
      refine hbefore (T c - 64).toNat (by omega) ?_
      rw [← wanted_period, show (c : ℤ) + (T c - 64).toNat + 2 * 32 = c + T c by omega]
      exact M.mirror c
  refine ⟨p, n, b, hscan, hp, ?_, hb64, hTb⟩
  have := M.iterate_add_mul n 2 f
  rw [Function.iterate_succ_apply, hTc, hb]
  norm_num at this
  exact this.symm

/-! ## Execution after execution -/

/-- After the first execution, the base is where the walk is about to enter its next lap. -/
theorem schedAfter_succ {T : ℤ → ℤ} (M : Lib.Mirrors (Wanted stat .RUN) 32 T)
    {q : Slot} (hq : stat q = .RUN) (sched n : ℕ) :
    schedAfter stat sched (n + 1) < 64 ∧ 64 ≤ T (schedAfter stat sched (n + 1)) := by
  obtain ⟨p, f, k, b, hscan, -, -, -, -, hb, hT⟩ :=
    scanProcs_walk M hq (schedAfter stat sched n)
  rw [schedAfter, hscan]
  exact ⟨hb, hT⟩

/-- The executions after the first walk on, lap after lap. -/
theorem schedAfter_walk {T : ℤ → ℤ} (M : Lib.Mirrors (Wanted stat .RUN) 32 T)
    {q : Slot} (hq : stat q = .RUN) (sched n : ℕ) :
    ∃ m, n ≤ m ∧ (schedAfter stat sched (n + 1) : ℤ) + 64 * n =
      T^[m] (schedAfter stat sched 1) := by
  induction n with
  | zero => exact ⟨0, le_rfl, by simp⟩
  | succ n ih =>
      obtain ⟨m, hm, hwalk⟩ := ih
      obtain ⟨hlt, hT⟩ := schedAfter_succ M hq sched n
      obtain ⟨p, k, b, hscan, -, hb, -, -⟩ := scanProcs_lap M hq hlt hT
      refine ⟨k + 1 + m, by omega, ?_⟩
      have hadd := M.iterate_add_mul (k + 1) (2 * n) (schedAfter stat sched (n + 1))
      have hshift : ((2 * n : ℕ) : ℤ) * 32 = 64 * n := by push_cast; ring
      rw [hshift] at hadd
      rw [Function.iterate_add_apply, ← hwalk, hadd, ← hb, schedAfter, hscan]
      push_cast
      ring

/-- A lap that ends where it began is the lap of one execution. -/
theorem scanProcs_fixed {T : ℤ → ℤ} (M : Lib.Mirrors (Wanted stat want) 32 T)
    {q : Slot} (hq : stat q = want) {c : ℕ} (hc : c < 64) (hT : 64 ≤ T c) {d : ℕ}
    (hlap : T^[d] c = c + 64) : (scanProcs stat want c).2 = c := by
  obtain ⟨p, n, b, hscan, -, hb, hb64, hTb⟩ := scanProcs_lap M hq hc hT
  have hstep : ∀ x : ℕ, T (x + 64) = T x + 64 := by
    intro x
    have := M.iterate_add_mul 1 2 x
    norm_num at this
    exact this
  have hmono : ∀ {i j : ℕ}, i ≤ j → T^[i] c ≤ T^[j] c := by
    intro i j hij
    obtain ⟨k, rfl⟩ : ∃ k, j = k + i := ⟨j - i, by omega⟩
    rw [Function.iterate_add_apply]
    rcases Nat.eq_zero_or_pos k with rfl | hk
    · exact le_rfl
    · exact (M.lt_iterate hk _).le
  rw [hscan]
  rcases lt_trichotomy (n + 1) d with hlt | heq | hgt
  · have h := hmono (show n + 1 + 1 ≤ d from hlt)
    rw [Function.iterate_succ_apply', ← hb, hstep, hlap] at h
    omega
  · rw [heq, hlap] at hb
    simp only
    omega
  · have h := hmono (show d + 1 ≤ n + 1 from hgt)
    rw [Function.iterate_succ_apply', hlap, ← hb, hstep] at h
    omega

/-- **Starvation.**  From some execution on, the loop picks the same slot for ever. -/
theorem eventually_picks_same {q : Slot} (hq : stat q = .RUN) (sched : ℕ) :
    ∃ N p, ∀ n, picked stat sched (N + n) = some p := by
  obtain ⟨T, M⟩ := Lib.exists_mirrors (by decide) (@wanted_period stat .RUN)
    (exists_wanted hq)
  obtain ⟨a, d, -, hlap⟩ := M.eventually_lap (schedAfter stat sched 1)
  obtain ⟨m, hm, hwalk⟩ := schedAfter_walk M hq sched a
  obtain ⟨hlt, hT⟩ := schedAfter_succ M hq sched a
  have hfix : (scanProcs stat .RUN (schedAfter stat sched (a + 1))).2 =
      schedAfter stat sched (a + 1) := by
    apply scanProcs_fixed (d := d) M hq hlt hT
    have h := hlap m hm
    have hadd := M.iterate_add_mul d (2 * a) (schedAfter stat sched (a + 1))
    have hshift : ((2 * a : ℕ) : ℤ) * 32 = 64 * a := by push_cast; ring
    rw [hshift] at hadd
    rw [← hwalk, hadd] at h
    omega
  have hsame : ∀ n, schedAfter stat sched (a + 1 + n) = schedAfter stat sched (a + 1) := by
    intro n
    induction n with
    | zero => rfl
    | succ n ih => rw [← Nat.add_assoc, schedAfter, ih, hfix]
  obtain ⟨p, _, _, b, hscan, -⟩ := scanProcs_walk M hq (schedAfter stat sched (a + 1))
  refine ⟨a + 1, p, ?_⟩
  intro n
  rw [picked, hsame, hscan]

/-- The loop goes round exactly where there is a single runnable slot to go round. -/
theorem round_robin_iff (stat : Slot → ProcStat) (sched : ℕ) :
    RoundRobin stat sched ↔ ∃ p, ∀ q, stat q = .RUN ↔ q = p := by
  constructor
  · rintro ⟨hpick, hturn⟩
    obtain ⟨q, -, hq⟩ := hpick 0
    obtain ⟨N, p, hsame⟩ := eventually_picks_same hq sched
    have hone : ∀ q, stat q = .RUN → q = p := by
      intro q hq
      obtain ⟨k, -, hk⟩ := hturn N q hq
      rw [hsame] at hk
      exact (Option.some.inj hk).symm
    refine ⟨p, fun q' => ⟨hone q', ?_⟩⟩
    rintro rfl
    exact hone q hq ▸ hq
  · rintro ⟨p, hp⟩
    obtain ⟨T, M⟩ := Lib.exists_mirrors (by decide) (@wanted_period stat .RUN)
      (exists_wanted ((hp p).mpr rfl))
    have hpick : ∀ n, picked stat sched n = some p := by
      intro n
      obtain ⟨q, _, _, _, hscan, hq, -⟩ := scanProcs_walk M ((hp p).mpr rfl) (schedAfter stat sched n)
      rw [picked, hscan, (hp q).mp hq]
    refine ⟨fun n => ⟨p, hpick n, (hp p).mpr rfl⟩, ?_⟩
    intro n q hq
    exact ⟨0, by decide, by rw [hpick, (hp q).mp hq]⟩

/-- Slots 0 and 1 are runnable. -/
def twoRunning (p : Slot) : ProcStat := if p = 0 ∨ p = 1 then .RUN else .UNUSED

/-- Of two runnable slots the loop picks the first one for ever. -/
theorem not_round_robin : twoRunning 1 = .RUN ∧
    (∀ n, picked twoRunning 63 n = some 0) ∧ ¬ RoundRobin twoRunning 63 := by
  have hscan : scanProcs twoRunning .RUN 63 = (some 0, 63) := by decide +kernel
  have hsched : ∀ n, schedAfter twoRunning 63 n = 63 := by
    intro n
    induction n with
    | zero => rfl
    | succ n ih => rw [schedAfter, ih, hscan]
  have hpick : ∀ n, picked twoRunning 63 n = some 0 := by
    intro n
    rw [picked, hsched, hscan]
  refine ⟨by decide, hpick, ?_⟩
  rintro ⟨-, hturn⟩
  obtain ⟨k, -, hk⟩ := hturn 0 1 (by decide)
  rw [hpick] at hk
  exact absurd hk (by decide)

end Mixv6.Kernel
