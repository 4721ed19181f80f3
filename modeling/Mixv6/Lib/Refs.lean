import Mathlib.Algebra.BigOperators.Group.Finset.Basic
import Mathlib.Algebra.Order.BigOperators.Group.Finset
import Mathlib.Data.Fintype.BigOperators

/-!
# References and their number

Places hold references to objects, at most one each.  `refs` counts the places that hold a
reference to one object; `rowRefs` counts over several rows of places.  A reference count
that is kept beside the places is right if it changes with every store as these numbers do.

## Main definitions

* `refs`, `refs_update` — the places of one row, and a store to one of them.
* `restrict` — a part of a row, for a loop over its places.
* `rowRefs`, `rowRefs_update` — several rows, and a store to one of them.
-/

namespace Mixv6.Lib

variable {κ μ ι : Type} [Fintype κ] [Fintype μ] [DecidableEq κ] [DecidableEq ι]

/-- One if the reference is to `i`. -/
def hit (o : Option ι) (i : ι) : ℕ := if o = some i then 1 else 0

@[simp] theorem hit_none (i : ι) : hit none i = 0 := rfl

@[simp] theorem hit_self (i : ι) : hit (some i) i = 1 := if_pos rfl

theorem hit_of_ne {i j : ι} (h : j ≠ i) : hit (some j) i = 0 :=
  if_neg fun heq => h (Option.some.inj heq)

theorem hit_le (o : Option ι) (i : ι) : hit o i ≤ 1 := by
  unfold hit
  split <;> omega

/-- The number of places that refer to `i`. -/
def refs (h : κ → Option ι) (i : ι) : ℕ := ∑ k, hit (h k) i

/-- A sum in which one summand is replaced. -/
theorem sum_update (f : κ → ℕ) (k : κ) (n : ℕ) :
    (∑ j, Function.update f k n j) + f k = (∑ j, f j) + n := by
  have hrest : ∑ j ∈ Finset.univ.erase k, Function.update f k n j = ∑ j ∈ Finset.univ.erase k, f j :=
    Finset.sum_congr rfl fun j hj => Function.update_of_ne (Finset.ne_of_mem_erase hj) ..
  rw [← Finset.add_sum_erase Finset.univ _ (Finset.mem_univ k), hrest, Function.update_self,
    ← Finset.add_sum_erase Finset.univ f (Finset.mem_univ k)]
  omega

omit [DecidableEq κ] in
@[simp] theorem refs_none (i : ι) : refs (fun _ : κ => none) i = 0 := by simp [refs]

/-- **A store to one place.** -/
theorem refs_update (h : κ → Option ι) (k : κ) (o : Option ι) (i : ι) :
    refs (Function.update h k o) i + hit (h k) i = refs h i + hit o i := by
  have hcomp : ∀ j, hit (Function.update h k o j) i =
      Function.update (fun j => hit (h j) i) k (hit o i) j := by
    intro j
    by_cases hj : j = k
    · subst hj; simp
    · simp [hj]
  simp only [refs, hcomp]
  exact sum_update (fun j => hit (h j) i) k (hit o i)

omit [DecidableEq κ] in
theorem refs_le (h : κ → Option ι) (i : ι) : refs h i ≤ Fintype.card κ := by
  have hle := Finset.sum_le_card_nsmul Finset.univ (fun k => hit (h k) i) 1 fun k _ => hit_le ..
  simpa [refs] using hle

omit [DecidableEq κ] in
theorem refs_pos {h : κ → Option ι} {i : ι} : 0 < refs h i ↔ ∃ k, h k = some i := by
  simp only [refs, Finset.sum_pos_iff, Finset.mem_univ, true_and, hit]
  refine exists_congr fun k => ?_
  split <;> simp_all

omit [DecidableEq κ] in
theorem refs_eq_zero {h : κ → Option ι} {i : ι} : refs h i = 0 ↔ ∀ k, h k ≠ some i := by
  rw [← Nat.not_lt.trans Nat.le_zero, refs_pos, not_exists]

/-- The places of a list, and no others. -/
def restrict (h : κ → Option ι) (ks : List κ) (k : κ) : Option ι := if k ∈ ks then h k else none

omit [Fintype κ] [DecidableEq ι] in
@[simp] theorem restrict_nil (h : κ → Option ι) : restrict h [] = fun _ => none := rfl

omit [Fintype κ] [DecidableEq ι] in
theorem restrict_of_forall {h : κ → Option ι} {ks : List κ} (hall : ∀ k, k ∈ ks) :
    restrict h ks = h := funext fun k => if_pos (hall k)

omit [Fintype κ] [DecidableEq ι] in
@[simp] theorem restrict_cons_self (h : κ → Option ι) (k : κ) (ks : List κ) :
    restrict h (k :: ks) k = h k := by simp [restrict]

omit [Fintype κ] [DecidableEq ι] in
/-- The first place of the list is done with. -/
theorem update_restrict_cons (h : κ → Option ι) {k : κ} {ks : List κ} (hk : k ∉ ks) :
    Function.update (restrict h (k :: ks)) k none = restrict h ks := by
  funext j
  by_cases hj : j = k
  · subst hj; simp [restrict, hk]
  · simp [restrict, hj]

omit [Fintype κ] [DecidableEq ι] in
theorem restrict_cons_none {h : κ → Option ι} {k : κ} (ks : List κ) (hk : h k = none) :
    restrict h (k :: ks) = restrict h ks := by
  funext j
  by_cases hj : j = k
  · subst hj; simp [restrict, hk]
  · simp [restrict, hj]

/-- One more place. -/
theorem refs_restrict_cons (h : κ → Option ι) {k : κ} {ks : List κ} (hk : k ∉ ks) (i : ι) :
    refs (restrict h (k :: ks)) i = refs (restrict h ks) i + hit (h k) i := by
  have hstore : restrict h (k :: ks) = Function.update (restrict h ks) k (h k) := by
    funext j
    by_cases hj : j = k
    · subst hj; simp [restrict]
    · simp [restrict, hj]
  have hnone : restrict h ks k = none := if_neg hk
  have hcount := refs_update (restrict h ks) k (h k) i
  rw [hnone, hit_none] at hcount
  rw [hstore]
  exact hcount

/-- The number of places in all rows that refer to `i`. -/
def rowRefs (rows : κ → μ → Option ι) (i : ι) : ℕ := ∑ k, refs (rows k) i

omit [DecidableEq κ] in
theorem refs_le_rowRefs (rows : κ → μ → Option ι) (k : κ) (i : ι) :
    refs (rows k) i ≤ rowRefs rows i :=
  Finset.single_le_sum (fun j _ => Nat.zero_le (refs (rows j) i)) (Finset.mem_univ k)

omit [DecidableEq κ] in
theorem rowRefs_eq_zero {rows : κ → μ → Option ι} {i : ι} :
    rowRefs rows i = 0 ↔ ∀ k j, rows k j ≠ some i := by
  simp only [rowRefs, Finset.sum_eq_zero_iff, Finset.mem_univ, true_imp_iff, refs_eq_zero]

/-- **A store to one row.** -/
theorem rowRefs_update (rows : κ → μ → Option ι) (k : κ) (row : μ → Option ι) (i : ι) :
    rowRefs (Function.update rows k row) i + refs (rows k) i = rowRefs rows i + refs row i := by
  have hcomp : ∀ j, refs (Function.update rows k row j) i =
      Function.update (fun j => refs (rows j) i) k (refs row i) j := by
    intro j
    by_cases hj : j = k
    · subst hj; simp
    · simp [hj]
  simp only [rowRefs, hcomp]
  exact sum_update (fun j => refs (rows j) i) k (refs row i)

end Mixv6.Lib
