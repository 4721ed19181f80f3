import Mixv6.Fs.Mkfs

/-!
# The free lists of a new disk

A list sector has 128 entries, and its last entry is the next list sector.  The program takes
the first free sector for the first list, and enters all free sectors from this one on.

## Main definitions

* `Chain` — the sectors in the lists that start at a sector.
* `Listed`, `wp_freeList` — what the loop stores.
* `Linked.chain` — the chain that it makes.
-/

namespace Mixv6.Fs.Mkfs

open Mixv6.Lib

/-! ## Lists on the disk -/

/-- The entries of a list sector. -/
def entries (m : Mem) (b : ℕ) : List ℕ := (List.range' 0 128).map fun c => m.load32 (512 * b + 4 * c)

/-- The last entry, which names the next list sector; 0 is none. -/
def link (m : Mem) (b : ℕ) : ℕ := m.load32 (512 * b + 4 * 127)

/-- Who follows the lists from sector `b` on comes to an end, with these free sectors. -/
inductive Chain (m : Mem) : ℕ → List ℕ → Prop
  | last {b : ℕ} : link m b = 0 → Chain m b ((entries m b).filter (· ≠ 0))
  | next {b : ℕ} {l : List ℕ} : link m b ≠ 0 → Chain m (link m b) l →
      Chain m b ((entries m b).filter (· ≠ 0) ++ l)

/-- There is one way to follow the lists. -/
theorem Chain.unique {m : Mem} {b : ℕ} {l l' : List ℕ} (h : Chain m b l) (h' : Chain m b l') :
    l = l' := by
  induction h generalizing l' with
  | last hlast =>
      cases h' with
      | last => rfl
      | next hnext _ => exact absurd hlast hnext
  | next hnext _ ih =>
      cases h' with
      | last hlast => exact absurd hlast hnext
      | next _ hrest => rw [ih hrest]

/-! ## The loop -/

section Rules
variable {E : Stop → Prop} {s : Disk} {Q : Unit → Disk → Prop}

theorem wp_poke {a : ℤ} {k n : ℕ} {f : ℕ → Mem → Mem} (ha : a = k) (hle : k + n ≤ DISKSIZE)
    (hQ : Q () { s with bin := f k s.bin }) : wp E (poke a n f) Q s := by
  subst ha
  simp only [poke, wp_bind, wp_ite, wp_throw, wp_modify, Int.toNat_natCast]
  rw [if_neg (by omega)]
  exact hQ

theorem wp_putInt {a v : ℤ} {k n : ℕ} (ha : a = k) (hv : v = n) (hn : n < 2 ^ 32)
    (hle : k + 4 ≤ DISKSIZE) (hQ : Q () { s with bin := s.bin.store32 k n }) :
    wp E (putInt a v) Q s := by
  apply wp_poke ha hle
  have hval : (v % 2 ^ 32).toNat = n := by omega
  rwa [hval]

end Rules

/-- The list sector at place `q` of the lists that start at `f`. -/
def listSector (f q : ℕ) : ℕ := if q = 0 then f else f + 128 * q - 1

/-- The place of the entry `f + 128 * q + c`. -/
def slotOf (f q c : ℕ) : ℕ := 512 * listSector f q + 4 * c

/-- From `m` to `m'` the sectors from `f` on, and before `stop`, have been entered. -/
structure Listed (f stop : ℕ) (m m' : Mem) : Prop where
  word : ∀ q c, c < 128 → f + 128 * q + c < stop → m'.load32 (slotOf f q c) = f + 128 * q + c
  other : ∀ x, (∀ q c, c < 128 → f + 128 * q + c < stop →
    x < slotOf f q c ∨ slotOf f q c + 4 ≤ x) → m' x = m x

section Loop
variable {E : Stop → Prop} {s : Disk} {f stop k q c : ℕ} {m m' : Mem}

theorem Listed.refl (m : Mem) : Listed f f m m where
  word q c _ hlt := by omega
  other _ _ := rfl

/-- Different entries are at different places. -/
theorem slotOf_disjoint {q' c' : ℕ} (hf : 0 < f) (hc : c < 128) (hc' : c' < 128)
    (hne : 128 * q + c ≠ 128 * q' + c') :
    slotOf f q c + 4 ≤ slotOf f q' c' ∨ slotOf f q' c' + 4 ≤ slotOf f q c := by
  simp only [slotOf, listSector]
  split <;> split <;> omega

/-- One more sector is entered. -/
theorem Listed.snoc (h : Listed f (f + k) m m') (hf : 0 < f) (hk : f + k < 2 ^ 32) :
    Listed f (f + k + 1) m (m'.store32 (slotOf f (k / 128) (k % 128)) (f + k)) where
  word q c hc hlt := by
    by_cases hkc : 128 * q + c = k
    · have hq : k / 128 = q := by omega
      have hr : k % 128 = c := by omega
      rw [hq, hr, Mem.load32_store32 hk]
      omega
    · rw [Mem.load32_store32_of_ne, h.word q c hc (by omega)]
      exact slotOf_disjoint hf hc (Nat.mod_lt _ (by decide)) (by omega)
  other x hx := by
    rw [Mem.store32_of_ne, h.other x fun q c hc hlt => hx q c hc (by omega)]
    exact hx _ _ (Nat.mod_lt _ (by decide)) (by omega)

theorem wp_freeTurns (n : ℕ) (hf : 0 < f) (hle : 512 * (f + k + n) ≤ DISKSIZE)
    (h : Listed f (f + k) m s.bin) :
    wp E (freeTurns ((List.range' k n).map fun j : ℕ => (f : ℤ) + j) (k % 128)
        ((listSector f (k / 128) : ℤ) * 512))
      (fun _ t => t.used_block = s.used_block ∧ Listed f (f + k + n) m t.bin) s := by
  induction n generalizing k s with
  | zero => exact wp_pure.mpr ⟨rfl, h⟩
  | succ n ih =>
      simp only [List.range'_succ, List.map_cons, freeTurns, wp_bind]
      have hsector : listSector f (k / 128) ≤ f + k := by
        simp only [listSector]
        split <;> omega
      simp only [DISKSIZE] at hle
      apply wp_putInt (k := slotOf f (k / 128) (k % 128)) (n := f + k)
      · simp only [slotOf]
        omega
      · simp
      · omega
      · simp only [slotOf, DISKSIZE]
        omega
      · have hnext := h.snoc hf (by omega)
        have hrest := ih (s := ⟨s.bin.store32 (slotOf f (k / 128) (k % 128)) (f + k), s.used_block⟩)
          (k := k + 1) (by simp only [DISKSIZE]; omega) hnext
        rw [show f + (k + 1) + n = f + k + (n + 1) by omega] at hrest
        split
        next hlast =>
          -- The sector that is entered last is the next list sector.
          rw [show (k + 1) % 128 = 0 by omega,
            show listSector f ((k + 1) / 128) = f + k by simp only [listSector]; split <;> omega]
            at hrest
          simpa only [Nat.cast_add] using hrest
        next hmore =>
          rw [show (k + 1) % 128 = k % 128 + 1 by omega, show (k + 1) / 128 = k / 128 by omega]
            at hrest
          exact hrest

/-- **The loop** enters all sectors from `f` on. -/
theorem wp_freeList (hf : 0 < f) (hlt : f ≤ stop) (hle : 512 * stop ≤ DISKSIZE) :
    wp E (freeList f stop)
      (fun _ t => t.used_block = s.used_block ∧ Listed f stop s.bin t.bin) s := by
  have h := wp_freeTurns (E := E) (s := s) (k := 0) (stop - f) hf
    (by rw [show f + 0 + (stop - f) = stop by omega]; exact hle) (.refl s.bin)
  rw [show f + 0 + (stop - f) = stop by omega] at h
  have hn : ((stop : ℤ) - (f : ℤ)).toNat = stop - f := by omega
  rw [freeList, hn, List.range_eq_range']
  exact h

end Loop

/-! ## The chain -/

section Follow
variable {f stop : ℕ} {m m' : Mem}

/-- The entries of the sectors from `a` on, and the zeros behind them. -/
theorem filter_entries {a n : ℕ} (ha : 0 < a) :
    ((List.range' a n).map fun i => if i < stop then i else 0).filter (· ≠ 0) =
      List.range' a (min n (stop - a)) := by
  induction n generalizing a with
  | zero => simp
  | succ n ih =>
      rw [List.range'_succ, List.map_cons, List.filter_cons, ih (by omega)]
      by_cases hlt : a < stop
      · rw [if_pos hlt, if_pos (by simpa using (by omega : a ≠ 0)),
          show min (n + 1) (stop - a) = min n (stop - (a + 1)) + 1 by omega, List.range'_succ]
      · rw [if_neg hlt, if_neg (by simp), show min (n + 1) (stop - a) = 0 by omega,
          show min n (stop - (a + 1)) = 0 by omega]
        rfl

/-- The sectors of a list, and those of the lists behind it. -/
theorem range'_split {n q : ℕ} (h : n ≤ stop - (f + n * q)) :
    List.range' (f + n * q) (min n (stop - (f + n * q))) ++
      List.range' (f + n * (q + 1)) (stop - (f + n * (q + 1))) =
      List.range' (f + n * q) (stop - (f + n * q)) := by
  have hstart : f + n * (q + 1) = f + n * q + n := by
    rw [Nat.mul_succ]
    omega
  rw [Nat.min_eq_left h, hstart, List.range'_append_1]
  congr 1
  omega

/-- The entries of the list sectors: the sectors from `f` on and before `stop`, and zeros. -/
def Linked (f stop : ℕ) (m : Mem) : Prop :=
  ∀ q c, c < 128 → listSector f q < stop →
    m.load32 (slotOf f q c) = if f + 128 * q + c < stop then f + 128 * q + c else 0

theorem le_listSector {q : ℕ} : f ≤ listSector f q := by
  simp only [listSector]
  split <;> omega

/-- The lists stay while nothing stores to the free sectors. -/
theorem Linked.congr (h : Linked f stop m)
    (hsame : ∀ x, 512 * f ≤ x → x < 512 * stop → m' x = m x) : Linked f stop m' := by
  intro q c hc hq
  rw [← h q c hc hq]
  have hle := le_listSector (f := f) (q := q)
  apply Mem.load32_congr
  intro k hk
  apply hsame <;> simp only [slotOf] <;> omega

/-- The loop has stored to sectors that were zero. -/
theorem Listed.linked (h : Listed f stop m m') (hf : 0 < f)
    (hzero : ∀ x, 512 * f ≤ x → x < 512 * stop → m x = 0) : Linked f stop m' := by
  intro q c hc hq
  split
  next hlt => exact h.word q c hc hlt
  next hge =>
    have hle := le_listSector (f := f) (q := q)
    have hbyte : ∀ k < 4, m' (slotOf f q c + k) = 0 := by
      intro k hk
      rw [h.other]
      · apply hzero <;> simp only [slotOf] <;> omega
      · intro q' c' hc' hlt'
        have hdisj : slotOf f q c + 4 ≤ slotOf f q' c' ∨ slotOf f q' c' + 4 ≤ slotOf f q c :=
          slotOf_disjoint hf hc hc' (by omega)
        simp only [slotOf] at hdisj ⊢
        omega
    have h0 := hbyte 0 (by omega)
    simp only [Nat.add_zero] at h0
    simp [Mem.load32, h0, hbyte 1 (by omega), hbyte 2 (by omega), hbyte 3 (by omega)]

/-- **The chain** has each sector once. -/
theorem Linked.chain (h : Linked f stop m) (hf : 0 < f) (q : ℕ) (hq : listSector f q < stop) :
    Chain m (listSector f q) (List.range' (f + 128 * q) (stop - (f + 128 * q))) := by
  induction hn : stop - (f + 128 * q) using Nat.strong_induction_on generalizing q with
  | _ n ih =>
  subst hn
  have hentries : (entries m (listSector f q)).filter (· ≠ 0) =
      List.range' (f + 128 * q) (min 128 (stop - (f + 128 * q))) := by
    rw [← filter_entries (by omega), entries]
    congr 1
    rw [show f + 128 * q = f + 128 * q + 0 by rfl, List.range'_eq_map_range,
      List.range'_eq_map_range]
    simp only [List.map_map]
    apply List.map_congr_left
    intro c hc
    simp only [Function.comp_apply, Nat.zero_add, Nat.add_zero]
    exact h q c (List.mem_range.mp hc) hq
  have hlink : link m (listSector f q) =
      if f + 128 * q + 127 < stop then f + 128 * q + 127 else 0 := h q 127 (by decide) hq
  by_cases hlast : f + 128 * q + 127 < stop
  · -- The last entry is there, and leads on.
    rw [if_pos hlast] at hlink
    have hnext : listSector f (q + 1) = f + 128 * q + 127 := by
      simp only [listSector]
      split <;> omega
    have hrest := ih _ (by omega) (q + 1) (by omega) rfl
    rw [hnext, ← hlink] at hrest
    have hchain := Chain.next (by rw [hlink]; omega) hrest
    rwa [hentries, range'_split (by omega)] at hchain
  · rw [if_neg hlast] at hlink
    have hchain := Chain.last hlink
    rwa [hentries, show min 128 (stop - (f + 128 * q)) = stop - (f + 128 * q) by omega] at hchain

end Follow
end Mixv6.Fs.Mkfs
