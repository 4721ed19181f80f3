import Mixv6.Kernel.Sleep
import Mathlib.Data.Fin.Basic
import Mathlib.Data.List.Basic

/-!
# The selection loops of `sched`

`sched` of `kernel/proc.c` scans the process table for a runnable process.  The loop
does not stop at the first one, and it rewrites `user.sched` while it uses it as the
base of its index; both are kept here.

## Main definitions

* `scanProcs` — one scan of the table.
* `pick` — what `sched` decides: stay, switch to another process, or panic.
-/

namespace Mixv6.Kernel

/-- The size of the process table. -/
def NPROC : ℕ := 64

instance : NeZero NPROC := ⟨by decide⟩

/-- A slot of the process table. -/
abbrev Slot := Fin NPROC

/-- The slot `proc[(user.sched + i) % NPROC]`. -/
def schedSlot (sched i : ℕ) : Slot := Fin.ofNat NPROC (sched + i)

/-- The body of the loop of `sched` at index `i`, on `newproc` and `user.sched`. -/
def scanProc (stat : Slot → ProcStat) (want : ProcStat) (acc : Option Slot × ℕ) (i : ℕ) :
    Option Slot × ℕ :=
  if stat (schedSlot acc.2 i) = want then (some (schedSlot acc.2 i), i) else acc

/-- The loop of `sched` over the process table: the last slot found in state `want`,
and `user.sched`, which the loop moves while it uses it. -/
def scanProcs (stat : Slot → ProcStat) (want : ProcStat) (sched : ℕ) : Option Slot × ℕ :=
  (List.range NPROC).foldl (scanProc stat want) (none, sched)

/-- What `sched` decides to do. -/
inductive Pick
  /-- Return to the caller. -/
  | stay
  /-- Switch to another process. -/
  | switch (newproc : Slot)
  /-- `panic("no proc.")`. -/
  | panic
  deriving DecidableEq, Repr

/-- The decision of `sched`, with the new `user.sched`. -/
def pick (stat : Slot → ProcStat) (procp : Slot) (sched : ℕ) : Pick × ℕ :=
  match scanProcs stat .RUN sched with
  | (some newproc, sched) =>
      if newproc = procp then (.stay, sched) else (.switch newproc, sched)
  | (none, sched) =>
      if stat procp ≠ .ZOMB then (.stay, sched)
      else match scanProcs stat .SLEEP sched with
        | (some newproc, sched) => (.switch newproc, sched)
        | (none, sched) => (.panic, sched)

/-- A slot found by the loop is in the state it looks for. -/
theorem stat_of_scanProcs {stat : Slot → ProcStat} {want : ProcStat} {sched sched' : ℕ}
    {p : Slot} (h : scanProcs stat want sched = (some p, sched')) : stat p = want := by
  have key : ∀ (l : List ℕ) (acc : Option Slot × ℕ), (∀ q, acc.1 = some q → stat q = want) →
      ∀ q, (l.foldl (scanProc stat want) acc).1 = some q → stat q = want := by
    intro l
    induction l with
    | nil => exact fun acc hacc => hacc
    | cons i l ih =>
        intro acc hacc
        apply ih
        intro q hq
        by_cases hi : stat (schedSlot acc.2 i) = want
        · simp only [scanProc, hi, if_true, Option.some.injEq] at hq
          rw [← hq]; exact hi
        · simp only [scanProc, hi, if_false] at hq
          exact hacc q hq
  exact key (List.range NPROC) (none, sched) (by simp) p (congrArg Prod.fst h)

/-- A loop that has found nothing has left no slot in the state it looks for. -/
theorem not_wanted_of_scanProcs {stat : Slot → ProcStat} {want : ProcStat} {sched sched' : ℕ}
    (h : scanProcs stat want sched = (none, sched')) (p : Slot) : stat p ≠ want := by
  have found : ∀ (l : List ℕ) (acc : Option Slot × ℕ), acc.1 ≠ none →
      (l.foldl (scanProc stat want) acc).1 ≠ none := by
    intro l
    induction l with
    | nil => exact fun acc hacc => hacc
    | cons i l ih =>
        intro acc hacc
        apply ih
        unfold scanProc
        split
        · exact Option.some_ne_none _
        · exact hacc
  have key : ∀ l : List ℕ, (l.foldl (scanProc stat want) (none, sched)).1 = none →
      ∀ i ∈ l, stat (schedSlot sched i) ≠ want := by
    intro l
    induction l with
    | nil => exact fun _ i hi => absurd hi List.not_mem_nil
    | cons i l ih =>
        intro hnone
        rw [List.foldl_cons] at hnone
        by_cases hi : stat (schedSlot sched i) = want
        · rw [scanProc, if_pos hi] at hnone
          exact absurd hnone (found l _ (Option.some_ne_none _))
        · rw [scanProc, if_neg hi] at hnone
          exact List.forall_mem_cons.mpr ⟨hi, ih hnone⟩
  have hslot : schedSlot sched ((p + (64 - sched % 64)) % 64) = p := by
    apply Fin.ext
    have hlt : (p : ℕ) < 64 := p.isLt
    change (sched + (p + (64 - sched % 64)) % 64) % 64 = p
    omega
  rw [← hslot]
  exact key (List.range NPROC) (congrArg Prod.fst h) _
    (List.mem_range.mpr (Nat.mod_lt _ (by decide)))

/-- What `sched` decides: a process that is not a zombie may stay; the slot switched to
is runnable, or asleep if the caller is a zombie and nobody is runnable. -/
theorem pick_cases {stat : Slot → ProcStat} {procp : Slot} {sched : ℕ} :
    ((pick stat procp sched).1 = .stay ∧ stat procp ≠ .ZOMB) ∨
      (∃ p, (pick stat procp sched).1 = .switch p ∧
        (stat p = .RUN ∨ (stat p = .SLEEP ∧ stat procp = .ZOMB ∧ ∀ q, stat q ≠ .RUN))) ∨
      (pick stat procp sched).1 = .panic := by
  unfold pick
  rcases hscan : scanProcs stat .RUN sched with ⟨_ | p, sc⟩
  · by_cases hz : stat procp = .ZOMB
    · right
      rcases hslp : scanProcs stat .SLEEP sc with ⟨_ | p, sc'⟩
      · right; simp [hz, hslp]
      · left
        exact ⟨p, by simp [hz, hslp], .inr ⟨stat_of_scanProcs hslp, hz, not_wanted_of_scanProcs hscan⟩⟩
    · left
      exact ⟨by simp [hz], hz⟩
  · have hp := stat_of_scanProcs hscan
    by_cases heq : p = procp
    · left
      subst heq
      exact ⟨by simp, by rw [hp]; decide⟩
    · right; left
      exact ⟨p, by simp [heq], .inl hp⟩

/-- `sched` never switches to the process that calls it. -/
theorem pick_ne {stat : Slot → ProcStat} {procp p : Slot} {sched sched' : ℕ}
    (h : pick stat procp sched = (.switch p, sched')) : p ≠ procp := by
  unfold pick at h
  rcases hscan : scanProcs stat .RUN sched with ⟨_ | q, sc⟩
  · rw [hscan] at h
    by_cases hz : stat procp = .ZOMB
    · rcases hslp : scanProcs stat .SLEEP sc with ⟨_ | q, sc'⟩
      · simp [hz, hslp] at h
      · obtain ⟨rfl, -⟩ : q = p ∧ sc' = sched' := by simpa [hz, hslp] using h
        rintro rfl
        rw [stat_of_scanProcs hslp] at hz
        cases hz
    · simp [hz] at h
  · rw [hscan] at h
    by_cases hq : q = procp
    · simp [hq] at h
    · obtain ⟨rfl, -⟩ : q = p ∧ sc = sched' := by simpa [hq] using h
      exact hq

end Mixv6.Kernel
