import Mixv6.Fs.Mkfs
import Mixv6.Fs.Serial

/-!
# Looking up a path

`namei` and `dirlookup` of `fs/inode.c`, over any contents of the root directory.

`dirlookup` compares names only.  An entry that is not in use has the inode number 0, and
its name is whatever is there: where that is the path, `dirlookup` takes the entry for a
file, and returns the inode with the number 0.

## Main definitions

* `strcmp_iff` — strings are compared up to the limit.
* `matching`, `lookup` — the first entry with the name, and the first one in use.
* `wp_namei` — what `namei` returns, and what it leaves in the tables.
* `lookup_exact_iff` — `namei` finds the entry in use if and only if no other one comes first, and
  its inode has a number that is a sector.
-/

namespace Mixv6.Fs.Serial

open Mixv6.Lib Mixv6.Kernel Routine
open Mkfs (cstr)
open Cache (Sector SECTSIZE)
open Mixv6.Syscall (Inode InodeId FNAMESIZ NDIRENT strcmp)

/-! ## Names -/

theorem cstr_of_zero {s : List UInt8} (h : s.headD 0 = 0) : cstr s = [] := by
  cases s with
  | nil => rfl
  | cons c s =>
      obtain rfl : c = 0 := h
      rfl

theorem cstr_of_ne {s : List UInt8} (h : s.headD 0 ≠ 0) : cstr s = s.headD 0 :: cstr s.tail := by
  cases s with
  | nil => exact absurd rfl h
  | cons c s =>
      have hc : c ≠ 0 := h
      simp [cstr, hc]

/-- **Strings** are compared up to the limit, or up to the end of both. -/
theorem strcmp_iff (p q : List UInt8) (n : ℕ) :
    strcmp p q n = true ↔ (cstr p).take n = (cstr q).take n := by
  induction n generalizing p q with
  | zero => simp [strcmp]
  | succ n ih =>
      rw [strcmp]
      by_cases hp : p.headD 0 = 0
      · rw [if_pos hp, cstr_of_zero hp, decide_eq_true_iff, List.take_nil]
        by_cases hq : q.headD 0 = 0
        · exact iff_of_true hq (by rw [cstr_of_zero hq, List.take_nil])
        · exact iff_of_false hq (by rw [cstr_of_ne hq]; exact List.cons_ne_nil _ _ |>.symm)
      · rw [if_neg hp, cstr_of_ne hp, List.take_succ_cons]
        by_cases hpq : p.headD 0 = q.headD 0
        · have hq : cstr q = p.headD 0 :: cstr q.tail := by
            rw [hpq]
            exact cstr_of_ne fun hq => hp (hpq.trans hq)
          rw [if_neg (not_not.mpr hpq), ih, hq, List.take_succ_cons, List.cons_inj_right]
        · rw [if_pos hpq]
          refine iff_of_false Bool.false_ne_true fun heq => hpq ?_
          by_cases hq : q.headD 0 = 0
          · rw [cstr_of_zero hq, List.take_nil] at heq
            cases heq
          · rw [cstr_of_ne hq, List.take_succ_cons] at heq
            exact (List.cons.inj heq).1

/-! ## Entries -/

/-- The inode number of an entry. -/
def ino (m : Mem) (dir i : ℕ) : ℕ := (entryAt m (512 * dir) i).1

/-- The entry has the name of the path; both are cut. -/
def Named (m : Mem) (dir : ℕ) (path : List UInt8) (i : ℕ) : Prop :=
  (cstr path).take FNAMESIZ = (cstr (entryAt m (512 * dir) i).2).take FNAMESIZ

instance decidableNamed (m : Mem) (dir : ℕ) (path : List UInt8) (i : ℕ) :
    Decidable (Named m dir path i) := inferInstanceAs (Decidable (_ = _))

/-- The first entry with the name. -/
def matching (m : Mem) (dir : ℕ) (path : List UInt8) : Option ℕ :=
  (List.range NDIRENT).find? fun i => Named m dir path i

/-- The first entry in use with the name. -/
def lookup (m : Mem) (dir : ℕ) (path : List UInt8) : Option ℕ :=
  (List.range NDIRENT).find? fun i => ino m dir i ≠ 0 ∧ Named m dir path i

section Lookup
variable {E : Halt → Prop} {m : Mem} {table t t' : Table} {cache : Cache.State} {dir i n root : ℕ}
  {k ip : InodeId} {path : List UInt8}

/-- An entry of the directory in a buffer. -/
theorem entryAt_onDisk (hi : i < NDIRENT) :
    entryAt (bytes (onDisk m dir)) 0 i = entryAt m (512 * dir) i := by
  simp only [NDIRENT] at hi
  have hsect : SECTSIZE = 512 := rfl
  have hsize : FNAMESIZ = 28 := rfl
  simp only [entryAt, Nat.zero_add, Prod.mk.injEq]
  constructor
  · rw [load32_onDisk (by omega), hsect]
  · simp only [Mem.read]
    apply List.map_congr_left
    intro k hk
    rw [List.mem_range] at hk
    rw [bytes_onDisk (by omega), hsect]
    congr 1
    omega

/-- The loop comes to the first entry with the name, and calls `iget`. -/
theorem wp_dirlookup {b : Buf} {Q : Option InodeId → World → Prop}
    (h : Clean (onDisk m) [(dir, b)] cache) {l : List ℕ} (hl : ∀ i ∈ l, i < NDIRENT)
    (hnone : (l.find? fun i => Named m dir path i) = none → Q none ⟨table, cache⟩)
    (hsome : ∀ i, (l.find? fun i => Named m dir path i) = some i →
      wp E (run (iget (ino m dir i))) Q ⟨table, cache⟩) :
    wp E (run (dirlookup b path l)) Q ⟨table, cache⟩ := by
  induction l with
  | nil => exact wp_run_pure.mpr (hnone rfl)
  | cons j l ih =>
      have hj := hl j (List.mem_cons_self ..)
      rw [dirlookup, wp_run_bind]
      apply wp_run_load h
      rw [wp_run_ite, entryAt_onDisk hj]
      split
      next heq =>
        have hnamed : Named m dir path j := (strcmp_iff _ _ _).mp heq
        rw [wp_run_bind]
        apply wp_run_load h
        rw [entryAt_onDisk hj]
        exact hsome j (by simp [hnamed])
      next hne =>
        have hnamed : ¬ Named m dir path j := fun hnamed => hne ((strcmp_iff _ _ _).mpr hnamed)
        exact ih (fun i hi => hl i (List.mem_cons_of_mem _ hi))
          (fun hi => hnone (by simpa [hnamed] using hi)) fun i hi => hsome i (by simpa [hnamed] using hi)

/-! ## References -/

/-- The references to an entry of the table. -/
def refs (t : Table) (i : InodeId) : ℕ := if (t i).valid then (t i).refcnt else 0

/-- Entries in use have references, and one more of them can be counted. -/
def Counted (t : Table) : Prop := ∀ i, (t i).valid = true → 1 ≤ (t i).refcnt ∧ (t i).refcnt < 2 ^ 16 - 1

/-- `iget` takes a reference. -/
theorem Taken.refs (h : Taken m n ip t t') (hcounted : Counted t) (k : InodeId) :
    refs t' k = refs t k + if k = ip then 1 else 0 := by
  by_cases hk : k = ip
  · subst hk
    rcases h.count with ⟨hvalid, hcnt⟩ | ⟨hfree, hone⟩
    · have hlt := (hcounted k hvalid).2
      simp only [Serial.refs, h.valid, hvalid, if_true, hcnt]
      omega
    · simp [Serial.refs, h.valid, hfree, hone]
  · simp [Serial.refs, h.others k hk, hk]

/-- `irelse`. -/
def Table.irelse (t : Table) (ip : InodeId) : Table :=
  Function.update t ip (if 1 < (t ip).refcnt then { t ip with refcnt := (t ip).refcnt - 1 }
    else { t ip with valid := false })

/-- `irelse` after `iget` leaves the references as they were. -/
theorem Taken.refs_irelse (h : Taken m n ip t t') (hcounted : Counted t) (k : InodeId) :
    Serial.refs (Table.irelse t' ip) k = Serial.refs t k := by
  have hrefs := h.refs hcounted k
  by_cases hk : k = ip
  · subst hk
    simp only [Serial.refs, h.valid, if_true] at hrefs
    simp only [Serial.refs, Table.irelse, Function.update_self]
    split
    next hmany => simp only [h.valid, if_true]; omega
    next hone => simp only [Bool.false_eq_true, if_false]; omega
  · simpa [Serial.refs, Table.irelse, hk] using hrefs

theorem Taken.counted_irelse (h : Taken m n ip t t') (hcounted : Counted t) :
    Counted (Table.irelse t' ip) := by
  intro k hk
  have hrefs := h.refs_irelse hcounted k
  by_cases hkip : k = ip
  · subst hkip
    simp only [Table.irelse, Function.update_self] at hk ⊢
    split at hk
    next hmany =>
      rw [if_pos hmany]
      rcases h.count with ⟨hvalid, hcnt⟩ | ⟨-, hone⟩
      · have hlt := (hcounted k hvalid).2
        simp only
        omega
      · omega
    next => cases hk
  · simp only [Table.irelse, Function.update_of_ne hkip] at hk ⊢
    rw [h.others k hkip] at hk ⊢
    exact hcounted k hk

/-! ## `namei` -/

/-- The table after a reference has been taken and given back, against the one before. -/
structure Back (m : Mem) (t t' : Table) : Prop where
  agrees : Agrees m t'
  room : ∃ i, (t' i).valid = false
  numbered : Numbered t → Numbered t'
  refs : Counted t → Counted t' ∧ ∀ k, Serial.refs t' k = Serial.refs t k

theorem Numbered.irelse (h : Numbered t) : Numbered (Table.irelse t ip) := by
  intro k hk
  by_cases hkip : k = ip
  · subst hkip
    simp only [Table.irelse, Function.update_self] at hk ⊢
    split at hk
    next hmany =>
      rw [if_pos hmany]
      exact h k hk
    next => cases hk
  · simp only [Table.irelse, Function.update_of_ne hkip] at hk ⊢
    exact h k hk

theorem Taken.back (h : Taken m n ip t t') (hn : n < NSECTOR) (hroom : ∃ j, (t j).valid = false) :
    Back m t (Table.irelse t' ip) :=
  ⟨(h.got hroom).irelse.1, (h.got hroom).irelse.2, fun hnums => (h.numbered hn hnums).irelse,
    fun hcounted => ⟨h.counted_irelse hcounted, h.refs_irelse hcounted⟩⟩

/-- `namei` comes to the first entry with the name, with the root inode given back. -/
theorem wp_namei_follow {Q : Option InodeId → World → Prop} (hagrees : Agrees m table)
    (hroom : ∃ i, (table i).valid = false) (h : Clean (onDisk m) [] cache) (hroot : root < NSECTOR)
    (hdir : (dinodeAt m (512 * root)).addr 0 = dir) (hlt : dir < NSECTOR) (hpath : path.headD 0 ≠ 0x2F)
    (hnone : matching m dir path = none → ∀ mid cache', Back m table mid → Clean (onDisk m) [] cache' →
      Q none ⟨mid, cache'⟩)
    (hsome : ∀ i, matching m dir path = some i → ∀ mid cache' b, Back m table mid →
      Clean (onDisk m) [(dir, b)] cache' →
      wp E (run (iget (ino m dir i))) (fun r u => wp E (run (brelse dir b)) (fun _ u' => Q r u') u)
        ⟨mid, cache'⟩) :
    wp E (run (namei root (some path))) Q ⟨table, cache⟩ := by
  simp only [namei, getrootdir, wp_run_bind]
  apply wp_mono (wp_iget_taken hagrees hroom h hroot (by decide) ⟨0, by simp⟩)
  rintro _ ⟨table₁, cache₁⟩ ⟨ip, rfl, htaken, hclean₁⟩
  have haddr : (table₁ ip).dinode.addr 0 = dir := by
    rw [htaken.same.addr 0 (by decide)]
    exact hdir
  have hback := htaken.back hroot hroom
  simp only [wp_run_pure, if_neg hpath, wp_run_bind, wp_run_look, haddr]
  apply wp_mono (wp_run_bread hclean₁ hlt (by decide) ⟨0, by simp⟩)
  rintro b ⟨_, cache₂⟩ ⟨rfl, hclean₂⟩
  rw [irelse, wp_run_change]
  apply wp_dirlookup hclean₂ (fun i hi => List.mem_range.mp hi)
  · intro hm
    apply wp_mono (wp_run_brelse hclean₂ (by decide))
    rintro _ ⟨_, cache₃⟩ ⟨rfl, hclean₃⟩
    exact hnone hm _ _ hback hclean₃
  · exact fun i hm => hsome i hm _ _ b hback hclean₂

/-- **`namei`** comes to the first entry with the name. -/
theorem wp_namei (hagrees : Agrees m table) (hroom : ∃ i, (table i).valid = false)
    (h : Clean (onDisk m) [] cache) (hroot : root < NSECTOR)
    (hdir : (dinodeAt m (512 * root)).addr 0 = dir) (hlt : dir < NSECTOR)
    (hpath : path.headD 0 ≠ 0x2F)
    (hino : ∀ i, matching m dir path = some i → ino m dir i < NSECTOR) :
    wp E (run (namei root (some path))) (fun r u => Clean (onDisk m) [] u.cache ∧
      ∃ mid, Back m table mid ∧ match matching m dir path with
        | none => r = none ∧ u.table = mid
        | some i => ∃ ip, r = some ip ∧ Taken m (ino m dir i) ip mid u.table) ⟨table, cache⟩ := by
  apply wp_namei_follow hagrees hroom h hroot hdir hlt hpath
  · intro hm mid cache' hback hclean
    rw [hm]
    exact ⟨hclean, mid, hback, rfl, rfl⟩
  · intro i hm mid cache' b hback hclean
    have hfree : ∃ i, ∀ x ∈ [(dir, b)], x.2 ≠ i := by
      -- `namei` holds one buffer.
      by_cases hb : b = 0
      · exact ⟨1, by rw [hb]; simp [NBLOCK]⟩
      · exact ⟨0, by simpa using hb⟩
    apply wp_mono (wp_iget_taken hback.agrees hback.room hclean (hino i hm) (by simp) hfree)
    rintro r ⟨table₁, cache₁⟩ ⟨ip, rfl, htaken, hclean₁⟩
    apply wp_mono (wp_run_brelse hclean₁ (by decide))
    rintro _ ⟨_, cache₂⟩ ⟨rfl, hclean₂⟩
    rw [hm]
    exact ⟨hclean₂, mid, hback, ip, rfl, htaken⟩

/-- `namei` does not end when the number in the entry is that of no sector. -/
theorem wp_namei_high {Q : Option InodeId → World → Prop} (hagrees : Agrees m table)
    (hnums : Numbered table) (hroom : ∃ i, (table i).valid = false) (h : Clean (onDisk m) [] cache)
    (hroot : root < NSECTOR) (hdir : (dinodeAt m (512 * root)).addr 0 = dir) (hlt : dir < NSECTOR)
    (hpath : path.headD 0 ≠ 0x2F) (hm : matching m dir path = some i) (hino : NSECTOR ≤ ino m dir i)
    (hE : ∀ e, E e) : wp E (run (namei root (some path))) Q ⟨table, cache⟩ := by
  apply wp_namei_follow hagrees hroom h hroot hdir hlt hpath
  · intro hnone
    rw [hm] at hnone
    cases hnone
  · intro j hj mid cache' b hback hclean
    obtain rfl : i = j := Option.some.inj (hm.symm.trans hj)
    exact wp_iget_high (hback.numbered hnums) hback.room hclean hino hE

/-- **What a lookup promises**: the inode of the first entry in use with the name, or none; a
reference to the inode that is returned, and to nothing else. -/
structure Exact (m : Mem) (dir : ℕ) (path : List UInt8) (table : Table) (r : Option InodeId)
    (u : World) : Prop where
  result : match lookup m dir path with
    | none => r = none
    | some i => ∃ ip, r = some ip ∧ (u.table ip).valid = true ∧ (u.table ip).num = ino m dir i ∧
        Same (u.table ip).dinode m (SECTSIZE * ino m dir i)
  refs : ∀ k, refs u.table k = refs table k + if r = some k then 1 else 0
  buffers : Clean (onDisk m) [] u.cache

/-- An entry in use that is the first with the name. -/
theorem lookup_of_matching (h : matching m dir path = some i) (hi : ino m dir i ≠ 0) :
    lookup m dir path = some i := by
  obtain ⟨hnamed, hmem, hfirst⟩ := List.find?_range_eq_some.mp h
  refine List.find?_range_eq_some.mpr ⟨?_, hmem, fun j hj => ?_⟩
  · simpa [hi] using hnamed
  · have hother := hfirst j hj
    simp only [Bool.not_eq_true', decide_eq_false_iff_not] at hother ⊢
    exact fun hboth => hother hboth.2

theorem lookup_of_not_matching (h : matching m dir path = none) : lookup m dir path = none := by
  simp only [matching, lookup, List.find?_eq_none] at h ⊢
  intro j hj
  simp only [decide_eq_true_iff] at h ⊢
  exact fun hboth => h j hj hboth.2

/-- An entry that a lookup finds is in use. -/
theorem ino_of_lookup (h : lookup m dir path = some i) : ino m dir i ≠ 0 := by
  have hfound := List.find?_some h
  simp only [decide_eq_true_iff] at hfound
  exact hfound.1

/-- With numbers of sectors in the entries with the name, the first of them has to be in use. -/
theorem exact_iff_of_sector (hagrees : Agrees m table) (hcounted : Counted table)
    (hroom : ∃ i, (table i).valid = false) (h : Clean (onDisk m) [] cache) (hroot : root < NSECTOR)
    (hdir : (dinodeAt m (512 * root)).addr 0 = dir) (hlt : dir < NSECTOR)
    (hpath : path.headD 0 ≠ 0x2F)
    (hino : ∀ i, matching m dir path = some i → ino m dir i < NSECTOR) :
    (∃ r u, run (namei root (some path)) ⟨table, cache⟩ = .ok (r, u) ∧ Exact m dir path table r u) ↔
      ∀ i, matching m dir path = some i → ino m dir i ≠ 0 := by
  obtain ⟨r, u, hrun, hclean, mid, hback, hfound⟩ :=
    wp_total.mp (wp_namei hagrees hroom h hroot hdir hlt hpath hino)
  obtain ⟨hcounted', hrefs⟩ := hback.refs hcounted
  have hiff : Exact m dir path table r u ↔ ∀ i, matching m dir path = some i → ino m dir i ≠ 0 := by
    rcases hm : matching m dir path with _ | i
    · rw [hm] at hfound
      obtain ⟨rfl, rfl⟩ := hfound
      refine iff_of_true ⟨?_, ?_, hclean⟩ fun i hi => by cases hi
      · rw [lookup_of_not_matching hm]
      · simpa using hrefs
    · rw [hm] at hfound
      obtain ⟨ip, rfl, htaken⟩ := hfound
      constructor
      · rintro hexact j hj hzero
        obtain rfl : i = j := Option.some.inj hj
        have hresult := hexact.result
        rcases hl : lookup m dir path with _ | j
        · rw [hl] at hresult
          cases hresult
        · rw [hl] at hresult
          obtain ⟨ip', hip, -, hnum, -⟩ := hresult
          obtain rfl : ip = ip' := Option.some.inj hip
          rw [htaken.num, hzero] at hnum
          exact ino_of_lookup hl hnum.symm
      · intro hused
        refine ⟨?_, fun k => ?_, hclean⟩
        · rw [lookup_of_matching hm (hused i rfl)]
          exact ⟨ip, rfl, htaken.valid, htaken.num, htaken.same⟩
        · rw [htaken.refs hcounted', hrefs]
          simp [eq_comm]
  rw [← hiff]
  constructor
  · rintro ⟨r', u', hrun', hexact⟩
    rw [hrun] at hrun'
    cases hrun'
    exact hexact
  · intro hexact
    exact ⟨r, u, hrun, hexact⟩

end Lookup

/-! ## A directory with one file -/

/-- A disk with the root inode in sector 3, and the directory in sector 5: the file `a` has the
inode 7, and the other entries are not in use. -/
def sample : Mem := ((Mem.store32 (fun _ => 0) (512 * 3 + 16) 5).store32 (512 * 5) 7).store32 (512 * 5 + 4) 97

/-- The kernel has just started. -/
def fresh : World := ⟨fun _ => ⟨0, 0, false, 0, ⟨0, 0, 0, 0, 0, 0, fun _ => 0⟩⟩, .boot (onDisk sample)⟩

theorem ino_sample (path : List UInt8) (i : ℕ) (hi : matching sample 5 path = some i) :
    ino sample 5 i < NSECTOR := by
  have hall : ∀ i < NDIRENT, ino sample 5 i < NSECTOR := by decide +kernel
  obtain ⟨-, hmem, -⟩ := List.find?_range_eq_some.mp hi
  exact hall i (List.mem_range.mp hmem)

end Mixv6.Fs.Serial
