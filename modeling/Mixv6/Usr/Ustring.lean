import Mixv6.Fs.Lookup

/-!
# Strings in the user library

`strcmp` of `usr/lib/ustring.c` against the one of the kernel in `lib/string.c`.  The loops are
the same.  The kernel looks at the second string again when the first one has come to its end; the
library does not, and says that a string is equal to those that it begins.

## Main definitions

* `strcmp`, `strcmp_iff_begins` — the routine, and what it decides.
* `SameStrcmp`, `sameStrcmp_iff` — where both agree.
-/

namespace Mixv6.Usr

open Mixv6.Fs.Mkfs (cstr)

/-- `strcmp`; a list is a string up to its terminator. -/
def strcmp : List UInt8 → List UInt8 → ℤ → Bool
  | [], _, _ => true
  | c :: p, q, limit =>
      if c ≠ 0 ∧ 0 < limit then
        if c ≠ q.headD 0 then false else strcmp p q.tail (limit - 1)
      else true

/-- The characters of a string up to the limit. -/
def cut (s : List UInt8) (limit : ℕ) : List UInt8 := (cstr s).take limit

theorem cut_nil (limit : ℕ) : cut [] limit = [] := List.take_nil

theorem cut_zero_cons (s : List UInt8) (limit : ℕ) : cut (0 :: s) limit = [] := List.take_nil

theorem cut_cons {c : UInt8} (hc : c ≠ 0) (s : List UInt8) (limit : ℕ) :
    cut (c :: s) (limit + 1) = c :: cut s limit := by
  simp [cut, cstr, hc]

variable {p q : List UInt8} {limit : ℕ}

/-- **The library** looks at the characters of the first string only. -/
theorem strcmp_iff_begins (p q : List UInt8) (limit : ℕ) :
    strcmp p q limit = true ↔ cut p limit <+: cut q limit := by
  induction p generalizing q limit with
  | nil =>
      rw [cut_nil]
      exact iff_of_true rfl List.nil_prefix
  | cons c p ih =>
      rw [strcmp]
      by_cases hc : c = 0
      · -- The first string has come to its end.
        rw [if_neg fun h => h.1 hc, hc, cut_zero_cons]
        exact iff_of_true rfl List.nil_prefix
      · cases limit with
        | zero =>
            rw [if_neg fun h => absurd h.2 (lt_irrefl _)]
            exact iff_of_true rfl List.nil_prefix
        | succ limit =>
            have hlimit : ((limit + 1 : ℕ) : ℤ) - 1 = limit := by omega
            rw [if_pos ⟨hc, by omega⟩, hlimit, cut_cons hc]
            cases q with
            | nil =>
                rw [if_pos (show c ≠ List.headD [] 0 from hc), cut_nil]
                exact iff_of_false Bool.false_ne_true fun h => List.cons_ne_nil _ _ (List.prefix_nil.mp h)
            | cons d q =>
                by_cases heq : c = d
                · subst heq
                  rw [if_neg (show ¬ c ≠ (c :: q).headD 0 from not_not.mpr rfl), cut_cons hc,
                    List.prefix_cons_inj]
                  exact ih q limit
                · rw [if_pos (show c ≠ (d :: q).headD 0 from heq)]
                  refine iff_of_false Bool.false_ne_true fun h => ?_
                  by_cases hd : d = 0
                  · rw [hd, cut_zero_cons] at h
                    exact List.cons_ne_nil _ _ (List.prefix_nil.mp h)
                  · rw [cut_cons hd, List.cons_prefix_cons] at h
                    exact heq h.1

/-- **What both functions promise** for two strings and a limit. -/
structure SameStrcmp (p q : List UInt8) (limit : ℕ) : Prop where
  same : strcmp p q limit = Syscall.strcmp p q limit
  equal : strcmp p q limit = true ↔ cut p limit = cut q limit
  symm : strcmp p q limit = strcmp q p limit

/-- **The two functions agree**, and are symmetric, if and only if neither of the strings, cut at
the limit, is a beginning of the other. -/
theorem sameStrcmp_iff : SameStrcmp p q limit ↔
    (cut p limit <+: cut q limit ∨ cut q limit <+: cut p limit → cut p limit = cut q limit) := by
  constructor
  · rintro h (hpq | hqp)
    · exact h.equal.mp ((strcmp_iff_begins p q limit).mpr hpq)
    · apply h.equal.mp
      rw [h.symm]
      exact (strcmp_iff_begins q p limit).mpr hqp
  · intro h
    have hequal : strcmp p q limit = true ↔ cut p limit = cut q limit := by
      rw [strcmp_iff_begins]
      exact ⟨fun hpq => h (.inl hpq), fun heq => heq ▸ List.prefix_refl _⟩
    have hequal' : strcmp q p limit = true ↔ cut p limit = cut q limit := by
      rw [strcmp_iff_begins]
      exact ⟨fun hqp => h (.inr hqp), fun heq => heq ▸ List.prefix_refl _⟩
    refine ⟨?_, hequal, ?_⟩
    · rw [Bool.eq_iff_iff, hequal, Fs.Serial.strcmp_iff]
      rfl
    · rw [Bool.eq_iff_iff, hequal, hequal']

/-- The library says that `a` is equal to `ab`, but not that `ab` is equal to `a`. -/
theorem not_sameStrcmp : strcmp [0x61] [0x61, 0x62] 14 = true ∧ strcmp [0x61, 0x62] [0x61] 14 = false ∧
    Syscall.strcmp [0x61] [0x61, 0x62] 14 = false ∧ ¬ SameStrcmp [0x61] [0x61, 0x62] 14 := by
  refine ⟨by decide, by decide, by decide, fun h => ?_⟩
  exact absurd h.symm (by decide)

end Mixv6.Usr
