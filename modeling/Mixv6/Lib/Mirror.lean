import Mathlib.Algebra.Ring.Int.Defs
import Mathlib.Algebra.Order.Group.Unbundled.Int
import Mathlib.Data.Int.LeastGreatest
import Mathlib.Logic.Function.Iterate
import Mathlib.Tactic.Linarith
import Mathlib.Tactic.Ring

/-!
# Walks along a line of mirrors

Mirrors stand on the integer line, periodically.  A walker crosses the next mirror on its
right and comes to stand as far behind it as it stood in front of it.  Mirrors may stand on
half integers, so `E` holds of twice their positions; the walker goes from `x` to the `T x`
for which `x + T x` is the first such number above `2 * x`.

The walk from a point and the walk from that point two half periods further always meet, so
every walk settles into laps of one period (`eventually_lap`).

The proof takes two walks that never meet, and a pair of their points at the least possible
distance.  No mirror stands between the two, for it would bring them closer; so they are
reflected together, and a chain of such pairs, one for each shift of the walk, fits between
two mirrors.  The chain can be made longer than the period.

## Main definitions

* `Mirrors` — the mirrors and the walk.
* `Joins` — two walks meet.
* `Chain` — equally spaced points of consecutive shifts of a walk.
-/

namespace Mixv6.Lib

/-- `E` holds of the doubled positions of the mirrors, which repeat after `P`; `T` is the
walk across them. -/
structure Mirrors (E : ℤ → Prop) (P : ℤ) (T : ℤ → ℤ) : Prop where
  pos : 0 < P
  period : ∀ e, E (e + 2 * P) ↔ E e
  mirror : ∀ x, E (x + T x)
  lt : ∀ x, x < T x
  least : ∀ x e, E e → 2 * x < e → x + T x ≤ e

/-- The walks from `x` and from `y` meet. -/
def Joins (T : ℤ → ℤ) (x y : ℤ) : Prop := ∃ a b, T^[a] x = T^[b] y

namespace Joins
variable {T : ℤ → ℤ} {x y z : ℤ}

theorem refl (x : ℤ) : Joins T x x := ⟨0, 0, rfl⟩

theorem symm (h : Joins T x y) : Joins T y x := by
  obtain ⟨a, b, hab⟩ := h
  exact ⟨b, a, hab.symm⟩

theorem trans (h : Joins T x y) (h' : Joins T y z) : Joins T x z := by
  obtain ⟨a, b, hab⟩ := h
  obtain ⟨c, d, hcd⟩ := h'
  refine ⟨c + a, b + d, ?_⟩
  rw [Function.iterate_add_apply, hab, ← Function.iterate_add_apply, Nat.add_comm c b,
    Function.iterate_add_apply, hcd, ← Function.iterate_add_apply]

theorem apply (h : Joins T x y) : Joins T (T x) y :=
  trans ⟨0, 1, rfl⟩ h

end Joins

/-- Where there is a mirror, there is a walk. -/
theorem exists_mirrors {E : ℤ → Prop} {P : ℤ} (hP : 0 < P) (hperiod : ∀ e, E (e + 2 * P) ↔ E e)
    (hE : ∃ e, E e) : ∃ T, Mirrors E P T := by
  have hnext : ∀ x : ℤ, ∃ e, (E e ∧ 2 * x < e) ∧ ∀ e', E e' ∧ 2 * x < e' → e ≤ e' := by
    intro x
    refine Int.exists_least_of_bdd ⟨2 * x, fun e he => he.2.le⟩ ?_
    obtain ⟨e, he⟩ := hE
    have hmany : ∀ k : ℕ, E (e + k * (2 * P)) := by
      intro k
      induction k with
      | zero => simpa using he
      | succ k ih =>
          rw [← hperiod] at ih
          rwa [show e + ((k + 1 : ℕ) : ℤ) * (2 * P) = e + k * (2 * P) + 2 * P by push_cast; ring]
    refine ⟨_, hmany (2 * x - e + 1).toNat, ?_⟩
    have h1 : ((2 * x - e + 1).toNat : ℤ) * 1 ≤ (2 * x - e + 1).toNat * (2 * P) :=
      mul_le_mul_of_nonneg_left (by omega) (by omega)
    omega
  choose next hmem hleast using hnext
  refine ⟨fun x => next x - x, hP, hperiod, ?_, ?_, ?_⟩
  · intro x
    rw [add_sub_cancel]
    exact (hmem x).1
  · intro x
    have := (hmem x).2
    omega
  · intro x e he hlt
    have := hleast x e ⟨he, hlt⟩
    omega

namespace Mirrors
variable {E : ℤ → Prop} {P : ℤ} {T : ℤ → ℤ} (M : Mirrors E P T)
include M

/-- The walk does not see a shift by half a period of the doubled positions. -/
theorem apply_add (x : ℤ) : T (x + P) = T x + P := by
  have hle : x + P + T (x + P) ≤ x + T x + 2 * P := by
    apply M.least
    · exact (M.period _).mpr (M.mirror x)
    · have := M.lt x
      omega
  have hge : x + T x ≤ x + P + T (x + P) - 2 * P := by
    apply M.least
    · rw [← M.period]
      have := M.mirror (x + P)
      rwa [Int.sub_add_cancel]
    · have := M.lt (x + P)
      omega
  omega

theorem iterate_add (n : ℕ) (x : ℤ) : T^[n] (x + P) = T^[n] x + P := by
  induction n with
  | zero => rfl
  | succ n ih =>
      rw [Function.iterate_succ_apply', ih, M.apply_add, Function.iterate_succ_apply']

theorem iterate_add_mul (n k : ℕ) (x : ℤ) : T^[n] (x + k * P) = T^[n] x + k * P := by
  induction k with
  | zero => simp
  | succ k ih =>
      rw [show x + ((k + 1 : ℕ) : ℤ) * P = x + k * P + P by push_cast; ring, M.iterate_add, ih]
      push_cast
      ring

theorem lt_iterate {n : ℕ} (hn : 0 < n) (x : ℤ) : x < T^[n] x := by
  induction n with
  | zero => omega
  | succ n ih =>
      rw [Function.iterate_succ_apply']
      have := M.lt (T^[n] x)
      rcases Nat.eq_zero_or_pos n with rfl | hn
      · exact this
      · have := ih hn
        omega

theorem joins_add {x y : ℤ} : Joins T (x + P) (y + P) ↔ Joins T x y := by
  simp only [Joins, M.iterate_add, add_left_inj]

theorem le_add (x : ℤ) : T x ≤ x + 2 * P := by
  have h := M.lt x
  have hP := M.pos
  have hprev : E (x + T x - 2 * P) := by
    rw [← M.period, sub_add_cancel]
    exact M.mirror x
  by_contra hcon
  have := M.least x _ hprev (by omega)
  omega

/-- The next mirror is where it is found to be. -/
theorem apply_eq {x e : ℤ} (he : E e) (hlt : 2 * x < e)
    (hleast : ∀ e', E e' → 2 * x < e' → e ≤ e') : T x = e - x := by
  have h1 := M.least x e he hlt
  have h2 := hleast _ (M.mirror x) (by have := M.lt x; omega)
  omega

end Mirrors

/-! ## Chains of points -/

/-- `z` is on a walk that meets the walk from `x + k * P`. -/
def Class (T : ℤ → ℤ) (P x : ℤ) (k : ℕ) (z : ℤ) : Prop := Joins T z (x + k * P)

/-- Points at distance `d`, one on each of the first shifts of the walk from `x`. -/
def Chain (T : ℤ → ℤ) (P x z d : ℤ) (K : ℕ) : Prop :=
  ∀ i : ℕ, i ≤ K → Class T P x i (z + d * i)

/-- The walk from `x` never meets its shift by `2 * P`, and `D` is the least distance
between points of consecutive shifts. -/
structure Apart (E : ℤ → Prop) (P : ℤ) (T : ℤ → ℤ) (x D : ℤ) : Prop where
  walk : Mirrors E P T
  apart : ¬ Joins T x (x + 2 * P)
  pos : 0 < D
  least : ∀ k u v, Class T P x k u → Class T P x (k + 1) v → D ≤ |u - v|

section Classes
variable {E : ℤ → Prop} {P x : ℤ} {T : ℤ → ℤ} (M : Mirrors E P T)

theorem Class.apply {k : ℕ} {z : ℤ} (h : Class T P x k z) : Class T P x k (T z) := Joins.apply h

/-- A chain is reflected as a whole. -/
theorem Chain.reflect {z d : ℤ} {K : ℕ} (h : Chain T P x z d K)
    {e : ℤ}
    (hnext : ∀ i : ℕ, i ≤ K → 2 * (z + d * i) ≤ e ∧
      (2 * (z + d * i) < e → T (z + d * i) = e - (z + d * i))) :
    Chain T P x (e - z) (-d) K := by
  intro i hi
  obtain ⟨hle, happly⟩ := hnext i hi
  have hpoint : e - z + -d * i = e - (z + d * i) := by ring
  rw [hpoint]
  rcases hle.lt_or_eq with hlt | heq
  · rw [← happly hlt]
    exact (h i hi).apply
  · rw [show e - (z + d * i) = z + d * i by omega]
    exact h i hi

include M

theorem class_add {k : ℕ} {z : ℤ} : Class T P x (k + 1) (z + P) ↔ Class T P x k z := by
  rw [Class, Class, ← M.joins_add (y := x + k * P)]
  push_cast
  rw [show x + ((k : ℤ) + 1) * P = x + k * P + P by ring]

theorem class_of_shift {j k : ℕ} {z : ℤ} (h : Class T P x k z) (h' : Class T P x (k + j) z) :
    Joins T x (x + j * P) := by
  have key : Joins T (x + k * P) (x + (k + j : ℕ) * P) := h.symm.trans h'
  clear h h'
  induction k with
  | zero => simpa using key
  | succ k ih =>
      apply ih
      rw [← M.joins_add]
      push_cast at key ⊢
      rwa [show x + (k : ℤ) * P + P = x + (k + 1) * P by ring,
        show x + ((k : ℤ) + j) * P + P = x + (k + 1 + j) * P by ring]

/-- Walks that never meet keep a least distance. -/
theorem exists_apart (h : ¬ Joins T x (x + 2 * P)) :
    ∃ D, Apart E P T x D ∧ ∃ z d, |d| = D ∧ Chain T P x z d 1 := by
  classical
  have hex : ∃ n : ℕ, ∃ u v, Class T P x 0 u ∧ Class T P x 1 v ∧ |u - v| = n :=
    ⟨(x - (x + P)).natAbs, x, x + P, by simpa [Class] using Joins.refl x,
      by simpa [Class] using Joins.refl (x + P), (Int.natCast_natAbs _).symm⟩
  obtain ⟨u, v, hu, hv, huv⟩ := Nat.find_spec hex
  have hmin : ∀ k u v, Class T P x k u → Class T P x (k + 1) v → (Nat.find hex : ℤ) ≤ |u - v| := by
    intro k
    induction k with
    | zero =>
        intro u v hu hv
        have := Nat.find_min' hex ⟨u, v, hu, hv, (Int.natCast_natAbs _).symm⟩
        rw [← Int.natCast_natAbs]
        exact_mod_cast this
    | succ k ih =>
        intro u v hu hv
        rw [← sub_add_cancel u P, class_add M] at hu
        rw [← sub_add_cancel v P, class_add M] at hv
        have := ih _ _ hu hv
        rwa [sub_sub_sub_cancel_right] at this
  have hone : ¬ Joins T x (x + P) := by
    intro hj
    have h' : Joins T (x + P) (x + P + P) := M.joins_add.mpr hj
    apply h
    rw [show x + 2 * P = x + P + P by ring]
    exact hj.trans h'
  refine ⟨Nat.find hex, ⟨M, h, ?_, hmin⟩, u, v - u, ?_, ?_⟩
  · rw [Int.natCast_pos]
    by_contra hzero
    have huv' : u = v := by
      have h0 : Nat.find hex = 0 := by omega
      rw [h0] at huv
      have := abs_eq_zero.mp huv
      omega
    subst huv'
    apply hone
    simpa using class_of_shift M (j := 1) (k := 0) hu (by simpa using hv)
  · rw [abs_sub_comm, huv]
  · intro i hi
    obtain rfl | rfl : i = 0 ∨ i = 1 := by omega
    · simpa using hu
    · simpa using hv

end Classes

namespace Apart
variable {E : ℤ → Prop} {P x D : ℤ} {T : ℤ → ℤ} (A : Apart E P T x D)
include A

theorem not_both {k : ℕ} {z : ℤ} (h : Class T P x k z) : ¬ Class T P x (k + 2) z := by
  intro h'
  apply A.apart
  simpa using class_of_shift A.walk h h'

/-- No mirror stands between two points at the least distance. -/
theorem two_mul_le {k : ℕ} {lo hi e : ℤ}
    (h : Class T P x k lo ∧ Class T P x (k + 1) hi ∨ Class T P x (k + 1) lo ∧ Class T P x k hi)
    (hd : hi - lo = D) (he : E e) (hlt : 2 * lo < e) : 2 * hi ≤ e := by
  -- Otherwise the walk from `lo` comes closer to `hi` than `lo` is.
  have h1 := A.walk.least lo e he hlt
  have h2 := A.walk.lt lo
  by_contra hcon
  have hclose : |T lo - hi| < D := abs_lt.mpr ⟨by omega, by omega⟩
  rcases h with ⟨hlo, hhi⟩ | ⟨hlo, hhi⟩
  · have := A.least k _ _ hlo.apply hhi
    omega
  · have := A.least k _ _ hhi hlo.apply
    rw [abs_sub_comm] at this
    omega

/-- A point between two others of a chain is not at a mirror. -/
theorem not_mirror {k : ℕ} {w d : ℤ} (hd : |d| = D) (hu : Class T P x k (w - d))
    (hw : Class T P x (k + 1) w) (hv : Class T P x (k + 2) (w + d)) : ¬ E (2 * w) := by
  intro he
  have hpos := A.pos
  rcases abs_choice d with habs | habs
  · have hT : T (w - d) = w + d := by
      rw [A.walk.apply_eq he (by omega) fun e' he' hlt =>
        A.two_mul_le (.inl ⟨hu, hw⟩) (by omega) he' hlt]
      ring
    exact A.not_both (hT ▸ hu.apply) hv
  · have hT : T (w + d) = w - d := by
      rw [A.walk.apply_eq he (by omega) fun e' he' hlt =>
        A.two_mul_le (.inr ⟨hv, hw⟩) (by omega) he' hlt]
      ring
    exact A.not_both hu (hT ▸ hv.apply)

/-- No mirror stands between the ends of a chain. -/
theorem gap {z d : ℤ} (hd : |d| = D) {K : ℕ} (h : Chain T P x z d K) {e : ℤ} (he : E e) :
    ¬ (2 * z < e ∧ e < 2 * (z + d * K)) ∧ ¬ (2 * (z + d * K) < e ∧ e < 2 * z) := by
  have hpos := A.pos
  induction K with
  | zero => constructor <;> (push_cast; omega)
  | succ K ih =>
      obtain ⟨ih1, ih2⟩ := ih fun i hi => h i (by omega)
      have hw : Class T P x K (z + d * K) := h K (by omega)
      have hw' : Class T P x (K + 1) (z + d * K + d) := by
        have := h (K + 1) le_rfl
        push_cast at this
        rwa [mul_add, mul_one, ← add_assoc] at this
      have hmid : 0 < K → ¬ E (2 * (z + d * K)) := by
        intro hK
        obtain ⟨k, rfl⟩ : ∃ k, K = k + 1 := ⟨K - 1, by omega⟩
        refine A.not_mirror hd ?_ hw hw'
        have := h k (by omega)
        rwa [show z + d * ((k + 1 : ℕ) : ℤ) - d = z + d * k by push_cast; ring]
      have hz : K = 0 → z + d * K = z := by rintro rfl; simp
      push_cast
      rw [show z + d * ((K : ℤ) + 1) = z + d * K + d by ring]
      generalize hwdef : z + d * (K : ℤ) = w at *
      constructor
      · rintro ⟨h1, h2⟩
        rcases lt_trichotomy e (2 * w) with hlt | heq | hgt
        · exact ih1 ⟨h1, hlt⟩
        · refine hmid ?_ (heq ▸ he)
          by_contra hK
          have := hz (by omega)
          omega
        · have := A.two_mul_le (.inl ⟨hw, hw'⟩) (by rcases abs_choice d with h | h <;> omega) he hgt
          omega
      · rintro ⟨h1, h2⟩
        rcases lt_trichotomy e (2 * w) with hlt | heq | hgt
        · have := A.two_mul_le (.inr ⟨hw', hw⟩) (by rcases abs_choice d with h | h <;> omega) he h1
          omega
        · refine hmid ?_ (heq ▸ he)
          by_contra hK
          have := hz (by omega)
          omega
        · exact ih2 ⟨hgt, h2⟩

/-- Every point of a chain has the same next mirror, at or behind the last point. -/
theorem next_mirror {z d : ℤ} (hd : |d| = D) {K : ℕ} (h : Chain T P x z d K) :
    ∃ e, E e ∧ ∀ i : ℕ, i ≤ K → 2 * (z + d * i) ≤ e ∧
      (2 * (z + d * i) < e → T (z + d * i) = e - (z + d * i)) := by
  have hpos := A.pos
  -- The first mirror behind the point that stands furthest to the left.
  obtain ⟨lo, hi, hgap, hends, hbetween⟩ : ∃ lo hi, (∀ e, E e → 2 * lo < e → 2 * hi ≤ e) ∧
      (lo ≤ hi) ∧ ∀ i : ℕ, i ≤ K → lo ≤ z + d * i ∧ z + d * i ≤ hi := by
    rcases abs_choice d with habs | habs
    · refine ⟨z, z + d * K, ?_, ?_, ?_⟩
      · intro e he hlt
        have := (A.gap hd h he).1
        omega
      · have : 0 ≤ d * K := mul_nonneg (by omega) (by omega)
        omega
      · intro i hi
        have h1 : 0 ≤ d * i := mul_nonneg (by omega) (by omega)
        have h2 : d * i ≤ d * K := mul_le_mul_of_nonneg_left (by omega) (by omega)
        omega
    · refine ⟨z + d * K, z, ?_, ?_, ?_⟩
      · intro e he hlt
        have := (A.gap hd h he).2
        omega
      · have : d * K ≤ 0 := mul_nonpos_of_nonpos_of_nonneg (by omega) (by omega)
        omega
      · intro i hi
        have h1 : d * i ≤ 0 := mul_nonpos_of_nonpos_of_nonneg (by omega) (by omega)
        have h2 : d * K ≤ d * i := mul_le_mul_of_nonpos_left (by omega) (by omega)
        omega
  have hlo := A.walk.lt lo
  have hhi := hgap _ (A.walk.mirror lo) (by omega)
  refine ⟨lo + T lo, A.walk.mirror lo, ?_⟩
  intro i hi
  obtain ⟨h1, h2⟩ := hbetween i hi
  refine ⟨by omega, ?_⟩
  intro hlt
  apply A.walk.apply_eq (A.walk.mirror lo) hlt
  intro e' he' hlt'
  exact A.walk.least lo e' he' (by omega)

/-- Point `i` of a chain takes a step, and the others with it. -/
theorem chain_apply {z d : ℤ} (hd : |d| = D) {K : ℕ} (hK : 0 < K) (h : Chain T P x z d K)
    {i : ℕ} (hi : i ≤ K) :
    ∃ z' d', |d'| = D ∧ Chain T P x z' d' K ∧ z' + d' * i = T (z + d * i) := by
  have hpos := A.pos
  obtain ⟨e, he, hnext⟩ := A.next_mirror hd h
  have h' := h.reflect hnext
  have hd' : |(-d)| = D := by rw [abs_neg, hd]
  obtain ⟨hle, happly⟩ := hnext i hi
  rcases hle.lt_or_eq with hlt | heq
  · refine ⟨e - z, -d, hd', h', ?_⟩
    rw [happly hlt]
    ring
  · -- The point is at the mirror: the others pass it, and it crosses the next one.
    obtain ⟨e₂, he₂, hnext₂⟩ := A.next_mirror hd' h'
    obtain ⟨j, hj, hne⟩ : ∃ j : ℕ, j ≤ K ∧ (d * j = d * i + d ∨ d * j = d * i - d) := by
      rcases Nat.lt_or_ge i K with hlt | hge
      · exact ⟨i + 1, hlt, .inl (by push_cast; ring)⟩
      · refine ⟨i - 1, by omega, .inr ?_⟩
        rw [Nat.cast_sub (by omega)]
        push_cast
        ring
    have hleft := (hnext j hj).1
    have hright := (hnext₂ j hj).1
    rw [show e - z + -d * j = e - (z + d * j) by ring] at hright
    have hne0 : d ≠ 0 := by
      rintro rfl
      simp at hd
      omega
    obtain ⟨-, happly₂⟩ := hnext₂ i hi
    rw [show e - z + -d * i = z + d * i by rw [neg_mul]; omega] at happly₂
    refine ⟨e₂ - (e - z), d, hd, ?_, ?_⟩
    · have := h'.reflect hnext₂
      rwa [neg_neg] at this
    · rw [happly₂ (by omega)]
      omega

theorem chain_iterate {z d : ℤ} (hd : |d| = D) {K : ℕ} (hK : 0 < K) (h : Chain T P x z d K)
    {i : ℕ} (hi : i ≤ K) (n : ℕ) :
    ∃ z' d', |d'| = D ∧ Chain T P x z' d' K ∧ z' + d' * i = T^[n] (z + d * i) := by
  induction n with
  | zero => exact ⟨z, d, hd, h, rfl⟩
  | succ n ih =>
      obtain ⟨z', d', hd', h', hpoint⟩ := ih
      rw [Function.iterate_succ_apply', ← hpoint]
      exact A.chain_apply hd' hK h' hi

/-- A chain meets its own shift, and the two are one longer chain. -/
theorem chain_succ {z d : ℤ} (hd : |d| = D) {K : ℕ} (hK : 0 < K) (h : Chain T P x z d K) :
    ∃ z' d', |d'| = D ∧ Chain T P x z' d' (K + 1) := by
  have hfirst : Class T P x 1 (z + d) := by simpa using h 1 hK
  have hshift : Class T P x 1 (z + P) := by
    rw [class_add A.walk]
    simpa using h 0 (by omega)
  obtain ⟨a, b, hab⟩ := hfirst.trans hshift.symm
  obtain ⟨z₁, d₁, hd₁, h₁, hp₁⟩ := A.chain_iterate hd hK h hK a
  obtain ⟨z₂, d₂, hd₂, h₂, hp₂⟩ := A.chain_iterate hd hK h (Nat.zero_le K) b
  simp only [Nat.cast_one, Nat.cast_zero, mul_one, mul_zero, add_zero] at hp₁ hp₂
  rw [A.walk.iterate_add, ← hp₂, ← hp₁] at hab
  have hlast : ∀ i : ℕ, i ≤ K → Class T P x (i + 1) (z₁ + d₁ + d₂ * i) := by
    intro i hi
    rw [hab, add_right_comm, class_add A.walk]
    exact h₂ i hi
  have hsame : d₂ = d₁ := by
    rcases abs_eq_abs.mp (hd₂.trans hd₁.symm) with heq | hneg
    · exact heq
    · exfalso
      have h0 : Class T P x 0 z₁ := by simpa using h₁ 0 (by omega)
      have h2 := hlast 1 hK
      rw [hneg, show z₁ + d₁ + -d₁ * (1 : ℕ) = z₁ by push_cast; ring] at h2
      exact A.not_both h0 h2
  refine ⟨z₁, d₁, hd₁, ?_⟩
  intro i hi
  rcases Nat.lt_or_ge K i with hlt | hle
  · obtain rfl : i = K + 1 := by omega
    have := hlast K le_rfl
    rwa [hsame, add_assoc, show d₁ + d₁ * (K : ℤ) = d₁ * ((K + 1 : ℕ) : ℤ) by push_cast; ring] at this
  · exact h₁ i hle

/-- A chain is no longer than the distance between two mirrors. -/
theorem chain_le {z d : ℤ} (hd : |d| = D) {K : ℕ} (h : Chain T P x z d K) : D * K ≤ P := by
  have hP := A.walk.pos
  have hpos := A.pos
  rcases abs_choice d with habs | habs
  · have h1 := A.walk.le_add z
    have h2 := A.walk.lt z
    have h3 := (A.gap hd h (A.walk.mirror z)).1
    by_contra hcon
    rw [show d = D by omega] at h3
    exact h3 ⟨by omega, by omega⟩
  · have h1 := A.walk.le_add (z + d * K)
    have h2 := A.walk.lt (z + d * K)
    have h3 := (A.gap hd h (A.walk.mirror (z + d * K))).2
    rw [show d = -D by omega] at h1 h2 h3
    rw [neg_mul] at h1 h2 h3
    by_contra hcon
    exact h3 ⟨by omega, by omega⟩

theorem exists_chain {z d : ℤ} (hd : |d| = D) (h : Chain T P x z d 1) (K : ℕ) :
    ∃ z d, |d| = D ∧ Chain T P x z d (K + 1) := by
  induction K with
  | zero => exact ⟨z, d, hd, h⟩
  | succ K ih =>
      obtain ⟨z, d, hd, h⟩ := ih
      exact A.chain_succ hd (by omega) h

end Apart

/-! ## Laps -/

namespace Mirrors
variable {E : ℤ → Prop} {P : ℤ} {T : ℤ → ℤ} (M : Mirrors E P T)
include M

/-- The walk from a point meets the walk from the same point one period further. -/
theorem joins_period (x : ℤ) : Joins T x (x + 2 * P) := by
  by_contra hcon
  obtain ⟨D, A, z, d, hd, hchain⟩ := exists_apart M hcon
  obtain ⟨z', d', hd', h⟩ := A.exists_chain hd hchain P.toNat
  have hle := A.chain_le hd' h
  have hpos := A.pos
  have hP : P < ((P.toNat + 1 : ℕ) : ℤ) := by
    have := Int.self_le_toNat P
    push_cast
    omega
  have : 1 * ((P.toNat + 1 : ℕ) : ℤ) ≤ D * ((P.toNat + 1 : ℕ) : ℤ) :=
    mul_le_mul_of_nonneg_right (by omega) (by omega)
  omega

/-- **Laps.**  From some step on, the walk repeats itself one period further. -/
theorem eventually_lap (x : ℤ) :
    ∃ a n, 0 < n ∧ ∀ m, a ≤ m → T^[n] (T^[m] x) = T^[m] x + 2 * P := by
  obtain ⟨a, b, hab⟩ := M.joins_period x
  have hadd : ∀ (m : ℕ) (y : ℤ), T^[m] (y + 2 * P) = T^[m] y + 2 * P := by
    intro m y
    exact_mod_cast M.iterate_add_mul m 2 y
  rw [hadd] at hab
  have hP := M.pos
  have hlt : b < a := by
    by_contra hle
    obtain ⟨k, rfl⟩ : ∃ k, b = k + a := ⟨b - a, by omega⟩
    rw [Function.iterate_add_apply] at hab
    rcases Nat.eq_zero_or_pos k with rfl | hk
    · rw [Function.iterate_zero_apply] at hab
      omega
    · have := M.lt_iterate hk (T^[a] x)
      omega
  refine ⟨b, a - b, by omega, ?_⟩
  intro m hm
  obtain ⟨k, rfl⟩ : ∃ k, m = k + b := ⟨m - b, by omega⟩
  rw [← Function.iterate_add_apply, show a - b + (k + b) = k + a by omega,
    Function.iterate_add_apply T k a, hab, hadd, ← Function.iterate_add_apply]

end Mirrors
end Mixv6.Lib
