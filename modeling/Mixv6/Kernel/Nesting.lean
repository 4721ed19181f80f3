import Mixv6.Kernel.Cli
import Mathlib.Order.Lattice

/-!
# Sequences of `pushcli` and `popcli`

`Nest` is what the two functions are for: sections that may be nested, with a number that has no
bound.  A `popcli` outside of every section must panic.

`user.ncli` is unsigned and has 16 bits.  The test for a negative number is never true, so only
the flag of the processor tells that a `popcli` has no partner.  With 65536 open sections
`ncli` is zero again, and the next `pushcli` forgets that interrupts were enabled.

## Main definitions

* `Nest` — the open sections.
* `Nested` — the functions do what the open sections ask for, after every call of a sequence.
* `Sound`, `nested_iff` — the sequences for which that is so.
-/

namespace Mixv6.Kernel

/-- A call. -/
inductive CliCall where
  | push
  | pop
  deriving DecidableEq, Repr

/-- The call, from a state of the counters. -/
def Cli.step (c : Cli) : CliCall → Option Cli
  | .push => some c.pushcli
  | .pop => c.popcli

/-- A sequence of calls, up to a panic. -/
def Cli.run (c : Cli) : List CliCall → Option Cli
  | [] => some c
  | call :: calls => (c.step call).bind fun c => c.run calls

/-- How many sections are open, and how many were open at most since there was none. -/
structure Nest where
  depth : ℕ
  peak : ℕ
  deriving DecidableEq, Repr

namespace Nest

/-- No section is open. -/
def closed : Nest := ⟨0, 0⟩

/-- A call opens a section, or closes one; `none` is the panic. -/
def step (n : Nest) : CliCall → Option Nest
  | .push => some ⟨n.depth + 1, max n.peak (n.depth + 1)⟩
  | .pop =>
      if n.depth = 0 then none else some ⟨n.depth - 1, if n.depth = 1 then 0 else n.peak⟩

/-- A sequence of calls, up to a panic. -/
def run (n : Nest) : List CliCall → Option Nest
  | [] => some n
  | call :: calls => (n.step call).bind fun n => n.run calls

/-- The flag, where it is `intf` outside of every section. -/
def flag (intf : Bool) (n : Nest) : Bool := if n.depth = 0 then intf else false

/-- With interrupts enabled, the section that is closed last has at most 65536 sections in it;
with interrupts disabled, there is a section to close. -/
def Allows (intf : Bool) (n : Nest) : CliCall → Prop
  | .push => True
  | .pop => if intf then n.depth = 1 → n.peak ≤ 65536 else n.depth ≠ 0

/-- Every call of the sequence is allowed where it is made. -/
def Sound (intf : Bool) : Nest → List CliCall → Prop
  | _, [] => True
  | n, call :: calls => n.Allows intf call ∧ ∀ n', n.step call = some n' → Sound intf n' calls

end Nest

/-- **After every call** both have panicked, or the flag is what the open sections ask for. -/
def Nested (intf : Bool) (c : Cli) (n : Nest) (calls : List CliCall) : Prop :=
  ∀ pre, pre <+: calls → Option.Rel (fun c n => c.intf = n.flag intf) (c.run pre) (n.run pre)

variable {intf : Bool} {c : Cli} {n : Nest} {call : CliCall} {calls : List CliCall}

/-- **The counters** of open sections. -/
structure Tracks (intf : Bool) (c : Cli) (n : Nest) : Prop where
  flag : c.intf = n.flag intf
  ncli : c.ncli = n.depth % 65536
  intena : n.depth ≠ 0 → c.intena = if intf = true ∧ n.peak ≤ 65536 then FL_IF else 0
  le_peak : n.depth ≤ n.peak
  peak : n.depth = 0 → n.peak = 0

namespace Tracks

theorem closed (intf : Bool) (intena : ℕ) : Tracks intf ⟨intf, 0, intena⟩ Nest.closed where
  flag := rfl
  ncli := rfl
  intena h := absurd rfl h
  le_peak := le_rfl
  peak _ := rfl

theorem off (h : Tracks intf c n) (hdepth : n.depth ≠ 0) : c.intf = false := by
  rw [h.flag, Nest.flag, if_neg hdepth]

/-- `pushcli`: it finds `ncli` zero outside of every section, and with 65536 sections. -/
theorem push (h : Tracks intf c n) :
    Tracks intf c.pushcli ⟨n.depth + 1, max n.peak (n.depth + 1)⟩ where
  flag := rfl
  ncli := by
    have hncli := h.ncli
    simp only [Cli.pushcli]
    omega
  intena := by
    intro _
    have hncli := h.ncli
    have hpeak := h.le_peak
    simp only [Cli.pushcli]
    by_cases hzero : c.ncli = 0
    · rw [if_pos hzero, Cli.leflags, h.flag, Nest.flag]
      by_cases hdepth : n.depth = 0
      · simp [hdepth, h.peak hdepth]
      · -- The flag is off already.
        have hdeep : ¬ n.depth + 1 ≤ 65536 := by omega
        simp [hdepth, hdeep]
    · have hdepth : n.depth ≠ 0 := by omega
      have hmax : max n.peak (n.depth + 1) ≤ 65536 ↔ n.peak ≤ 65536 := by omega
      rw [if_neg hzero, h.intena hdepth]
      exact if_congr (and_congr_right fun _ => hmax.symm) rfl rfl
  le_peak := le_max_right _ _
  peak h := absurd h (Nat.succ_ne_zero _)

/-- What is left of the counters after `popcli` inside of a section. -/
theorem popcli_eq (h : Tracks intf c n) (hdepth : n.depth ≠ 0) :
    c.popcli = some (if n.depth = 1 ∧ intf = true ∧ n.peak ≤ 65536 then ⟨true, 0, 0⟩
      else ⟨false, (n.depth - 1) % 65536, c.intena⟩) := by
  have hncli := h.ncli
  have hintena := h.intena hdepth
  have hpeak := h.le_peak
  have hmod : (c.ncli + 65535) % 65536 = (n.depth - 1) % 65536 := by omega
  have hFL : FL_IF ≠ 0 := by decide
  simp only [Cli.popcli, h.off hdepth, hmod, Bool.false_eq_true, if_false]
  by_cases hin : intf = true ∧ n.peak ≤ 65536
  · rw [if_pos hin] at hintena
    by_cases hone : n.depth = 1
    · simp [hone, hin, hintena, hFL]
    · have hne : (n.depth - 1) % 65536 ≠ 0 := by omega
      simp [hone, hne]
  · rw [if_neg hin] at hintena
    rw [if_neg (by rw [hintena]; exact fun h => h.2 rfl), if_neg fun h => hin h.2]

/-- `popcli` inside of a section. -/
theorem pop (h : Tracks intf c n) (hdepth : n.depth ≠ 0) (hallows : n.Allows intf .pop) :
    ∃ c', c.popcli = some c' ∧
      Tracks intf c' ⟨n.depth - 1, if n.depth = 1 then 0 else n.peak⟩ := by
  have hpeak := h.le_peak
  refine ⟨_, h.popcli_eq hdepth, ?_⟩
  by_cases hone : n.depth = 1
  · have hin : intf = true → n.peak ≤ 65536 := by
      intro hintf
      simp only [Nest.Allows, hintf, if_true] at hallows
      exact hallows hone
    cases intf with
    | true =>
        rw [if_pos ⟨hone, rfl, hin rfl⟩, hone]
        exact closed true 0
    | false =>
        rw [if_neg (fun h => Bool.false_ne_true h.2.1), hone]
        exact closed false c.intena
  · rw [if_neg fun h => hone h.1, if_neg hone]
    exact
      { flag := by
          have hflag : n.depth - 1 ≠ 0 := by omega
          simp [Nest.flag, hflag]
        ncli := rfl
        intena := fun _ => h.intena hdepth
        le_peak := by simp only; omega
        peak := fun hzero => by simp only at hzero; omega }

/-- **An allowed call** keeps the counters. -/
theorem step (h : Tracks intf c n) (hallows : n.Allows intf call) :
    Option.Rel (Tracks intf) (c.step call) (n.step call) := by
  cases call with
  | push => exact .some h.push
  | pop =>
      by_cases hdepth : n.depth = 0
      · -- Interrupts are enabled, and `popcli` finds it out.
        cases intf with
        | true =>
            have hintf : c.intf = true := by rw [h.flag, Nest.flag, if_pos hdepth]
            simp only [Cli.step, Cli.popcli, Nest.step, hintf, hdepth, if_true]
            exact .none
        | false => exact absurd hdepth hallows
      · obtain ⟨c', hpop, htracks⟩ := h.pop hdepth hallows
        rw [Cli.step, hpop, Nest.step, if_neg hdepth]
        exact .some htracks

/-- **Any other call** goes wrong. -/
theorem not_step (h : Tracks intf c n) (hallows : ¬ n.Allows intf call) :
    ¬ Option.Rel (fun c n => c.intf = n.flag intf) (c.step call) (n.step call) := by
  cases call with
  | push => exact absurd trivial hallows
  | pop =>
      cases intf with
      | true =>
          -- The last section is closed, and `intena` is lost.
          simp only [Nest.Allows, if_true, not_forall, not_le] at hallows
          obtain ⟨hone, hpeak⟩ := hallows
          have hdepth : n.depth ≠ 0 := by omega
          rw [Cli.step, h.popcli_eq hdepth, if_neg fun h => absurd h.2.2 (not_le.mpr hpeak),
            Nest.step, if_neg hdepth]
          intro hrel
          cases hrel with
          | some hflag => simp [Nest.flag, hone] at hflag
      | false =>
          -- There is no section, and the counter goes round.
          have hdepth : n.depth = 0 := by simpa [Nest.Allows] using hallows
          have hintf : c.intf = false := by rw [h.flag, Nest.flag, if_pos hdepth]
          have hncli := h.ncli
          rw [hdepth] at hncli
          simp only [Cli.step, Cli.popcli, Nest.step, hintf, hdepth, hncli]
          intro hrel
          cases hrel

end Tracks

/-! ## Sequences -/

/-- The first call, and the calls after it. -/
theorem nested_cons : Nested intf c n (call :: calls) ↔ c.intf = n.flag intf ∧
    Option.Rel (fun c n => Nested intf c n calls) (c.step call) (n.step call) := by
  constructor
  · intro h
    have hnil := h [] List.nil_prefix
    have hcons : ∀ pre, pre <+: calls → Option.Rel (fun c n => c.intf = n.flag intf)
        ((c.step call).bind fun c => c.run pre) ((n.step call).bind fun n => n.run pre) :=
      fun pre hpre => h (call :: pre) ((List.prefix_cons_inj call).mpr hpre)
    refine ⟨?_, ?_⟩
    · cases hnil with
      | some hflag => exact hflag
    · have hstep := hcons [] List.nil_prefix
      cases hc : c.step call with
      | none =>
          cases hn : n.step call with
          | none => exact .none
          | some n' =>
              rw [hc, hn] at hstep
              cases hstep
      | some c' =>
          cases hn : n.step call with
          | none =>
              rw [hc, hn] at hstep
              cases hstep
          | some n' =>
              apply Option.Rel.some
              intro pre hpre
              have hpre := hcons pre hpre
              rw [hc, hn] at hpre
              exact hpre
  · rintro ⟨hflag, hrel⟩ pre hpre
    rcases List.prefix_cons_iff.mp hpre with rfl | ⟨pre, rfl, hpre'⟩
    · exact .some hflag
    · rw [Cli.run, Nest.run]
      generalize c.step call = o, n.step call = o' at hrel
      cases hrel with
      | none => exact .none
      | some h => exact h pre hpre'

theorem Tracks.nested_iff_sound (h : Tracks intf c n) :
    Nested intf c n calls ↔ n.Sound intf calls := by
  induction calls generalizing c n with
  | nil =>
      refine iff_of_true ?_ trivial
      intro pre hpre
      rw [List.prefix_nil.mp hpre]
      exact .some h.flag
  | cons call calls ih =>
      rw [nested_cons, Nest.Sound]
      constructor
      · rintro ⟨_, hrel⟩
        have hallows : n.Allows intf call := by
          by_contra hallows
          apply h.not_step hallows
          generalize c.step call = o, n.step call = o' at hrel
          cases hrel with
          | none => exact .none
          | some hnested =>
              apply Option.Rel.some
              cases hnested [] List.nil_prefix with
              | some hflag => exact hflag
        refine ⟨hallows, ?_⟩
        intro n' hn'
        have htracks := h.step hallows
        rw [hn'] at hrel htracks
        generalize c.step call = o at hrel htracks
        cases hrel with
        | some hnested =>
            cases htracks with
            | some htracks => exact (ih htracks).mp hnested
      · rintro ⟨hallows, hsound⟩
        refine ⟨h.flag, ?_⟩
        have htracks := h.step hallows
        generalize hc : c.step call = o, hn : n.step call = o' at htracks
        cases htracks with
        | none => exact .none
        | some htracks => exact .some ((ih htracks).mpr (hsound _ hn))

/-- **The functions do what the open sections ask for** if and only if every call of the sequence
is sound.  `ncli` is zero at the beginning; `intena` may have any value. -/
theorem nested_iff (intf : Bool) (intena : ℕ) (calls : List CliCall) :
    Nested intf ⟨intf, 0, intena⟩ Nest.closed calls ↔ Nest.closed.Sound intf calls :=
  (Tracks.closed intf intena).nested_iff_sound

/-- With interrupts disabled, `popcli` outside of every section leaves 65535 in `ncli`. -/
theorem not_nested_pop : (Cli.idle false).popcli = some ⟨false, 65535, 0⟩ ∧
    Nest.closed.step .pop = none ∧ ¬ Nested false (Cli.idle false) Nest.closed [.pop] := by
  refine ⟨by decide, by decide, ?_⟩
  intro h
  have hpop := h [.pop] (List.prefix_refl _)
  cases hpop

namespace Nest

/-- Sections are opened. -/
theorem sound_push (k : ℕ) (hpeak : n.depth ≤ n.peak) :
    n.Sound intf (List.replicate k .push ++ calls) ↔
      Sound intf ⟨n.depth + k, max n.peak (n.depth + k)⟩ calls := by
  induction k generalizing n with
  | zero => rw [List.replicate_zero, List.nil_append, Nat.add_zero, max_eq_left hpeak]
  | succ k ih =>
      have hstep : n.step .push = some ⟨n.depth + 1, max n.peak (n.depth + 1)⟩ := rfl
      have hmax : max (max n.peak (n.depth + 1)) (n.depth + 1 + k) =
          max n.peak (n.depth + (k + 1)) := by omega
      rw [List.replicate_succ, List.cons_append, Sound, hstep]
      simp only [Allows, true_and, Option.some.injEq, forall_eq']
      rw [ih (le_max_right _ _), hmax, Nat.add_right_comm, Nat.add_assoc]

/-- All of them are closed. -/
theorem sound_pop (k peak : ℕ) :
    Sound true ⟨k + 1, peak⟩ (List.replicate (k + 1) .pop) ↔ peak ≤ 65536 := by
  induction k with
  | zero => simp [Sound, Allows, step]
  | succ k ih =>
      rw [List.replicate_succ, Sound]
      simp [Allows, step, ih]

end Nest

/-- **The depth of sections** with interrupts enabled before them. -/
theorem nested_depth_iff (k : ℕ) :
    Nested true (Cli.idle true) Nest.closed (List.replicate k .push ++ List.replicate k .pop) ↔
      k ≤ 65536 := by
  rw [Cli.idle, nested_iff, Nest.sound_push k le_rfl]
  cases k with
  | zero => simp [Nest.Sound]
  | succ k =>
      rw [show Nest.closed.depth + (k + 1) = k + 1 from Nat.zero_add _, Nest.sound_pop]
      simp [Nest.closed]

end Mixv6.Kernel
