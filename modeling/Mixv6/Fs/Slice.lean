import Mixv6.Fs.Extent

/-!
# The slice that is read

`readi` of `fs/inode.c` against the blocks of the file, one after another, from any offset.

An offset at the end of the file is accepted, and nothing is read there.  `readi` rejects an
offset behind the table of addresses as well; the end of a file that uses the whole table is
such an offset.

## Main definitions

* `breads` — the data that `bread` returns for the blocks of a list, in turn.
* `blocksOf` — the blocks of a range of the file.
* `slice` — a byte of the range in these data.
* `Slice`, `slice_iff` — `readi` returns the slice, unless the offset is the end of the largest
  file.
-/

namespace Mixv6.Fs.Cache

open Mixv6.Lib
open Mixv6.Syscall (Inode T_DEV NADDR)

/-- What `bread` finds in each block, when the blocks are read one after another. -/
def breads (s : State) : List ℕ → List Sector
  | [] => []
  | n :: ns => view s n :: breads (s.access n true (view s n)) ns

/-- The blocks of a range of the file. -/
def blocksOf (ip : Inode) (offset size : ℕ) : List ℕ :=
  if size = 0 then []
  else (List.range ((offset + size - 1) / SECTSIZE - offset / SECTSIZE + 1)).map fun j =>
    ip.dinode.addr (offset / SECTSIZE + j)

/-- A byte of a range, in the data of its blocks. -/
def slice (datas : List Sector) (offset k : ℕ) : UInt8 :=
  datas.getD ((offset + k) / SECTSIZE - offset / SECTSIZE) (fun _ => 0) (Fin.ofNat SECTSIZE (offset + k))

variable {s t : State} {ip : Inode} {offset size k : ℕ} {l : Loop} {dst : Bytes} {E : Panic → Prop}
  {devsw : ℕ → Devsw}

/-- When every block reads as the disk has it, these are the sectors of the disk. -/
theorem breads_eq (h : Quiet s) (hsaved : ∀ n, view s n = s.sectors n) {ns : List ℕ}
    (hns : ∀ n ∈ ns, n < NSECTOR) : breads s ns = ns.map s.sectors := by
  induction ns generalizing s with
  | nil => rfl
  | cons n ns ih =>
      have hn := hns n List.mem_cons_self
      have hfine : Fine s n := by
        intro _ hvalid
        rw [← h.view_of_valid hvalid, hsaved]
      have hrest : ∀ m, view (s.access n true (view s n)) m = s.sectors m := by
        intro m
        rw [view_readTurn h hfine hn, hsaved]
      rw [breads, ih (h.access (fun _ => hn) _) hrest fun m hm => hns m (List.mem_cons_of_mem _ hm),
        hsaved]
      rfl

/-- The first block of a range, and the others. -/
theorem blocksOf_cons (ip : Inode) {m : ℕ} (hsize : 0 < size) (hm : m = min size (SECTSIZE - offset % SECTSIZE)) :
    blocksOf ip offset size =
      ip.dinode.addr (offset / SECTSIZE) :: blocksOf ip (offset + m) (size - m) := by
  have hsect : SECTSIZE = 512 := rfl
  rw [hsect] at hm
  simp only [blocksOf, hsect, if_neg hsize.ne']
  rw [List.range_succ_eq_map, List.map_cons, List.map_map, Nat.add_zero]
  congr 1
  by_cases hlast : size - m = 0
  · rw [if_pos hlast]
    have hone : (offset + size - 1) / 512 - offset / 512 = 0 := by omega
    rw [hone]
    rfl
  · rw [if_neg hlast]
    have hnext : (offset + m) / 512 = offset / 512 + 1 := by omega
    have hcount : (offset + m + (size - m) - 1) / 512 - (offset / 512 + 1) + 1 =
        (offset + size - 1) / 512 - offset / 512 := by omega
    rw [hnext, hcount]
    apply List.map_congr_left
    intro j _
    simp only [Function.comp]
    congr 1
    omega

/-- Each block has a byte of the range. -/
theorem mem_blocksOf {b : ℕ} (hb : b ∈ blocksOf ip offset size) :
    ∃ k < size, b = ip.dinode.addr ((offset + k) / SECTSIZE) := by
  have hsect : SECTSIZE = 512 := rfl
  rw [blocksOf] at hb
  split at hb
  next => cases hb
  next hsize =>
    obtain ⟨j, hj, rfl⟩ := List.mem_map.mp hb
    rw [List.mem_range, hsect] at hj
    rw [hsect]
    -- The first byte of the block, or of the range.
    refine ⟨(offset / 512 + j) * 512 - offset, by omega, congrArg ip.dinode.addr ?_⟩
    omega

/-- A byte of the first block. -/
theorem slice_head {data : Sector} {datas : List Sector} (hk : (offset + k) / SECTSIZE = offset / SECTSIZE) :
    slice (data :: datas) offset k = data (Fin.ofNat SECTSIZE (offset + k)) := by
  rw [slice, hk, Nat.sub_self]
  rfl

/-- A byte of another block. -/
theorem slice_tail {data : Sector} {datas : List Sector} {m : ℕ} (hmk : m ≤ k)
    (hm : (offset + m) / SECTSIZE = offset / SECTSIZE + 1) :
    slice (data :: datas) offset k = slice datas (offset + m) (k - m) := by
  have hsum : offset + m + (k - m) = offset + k := by omega
  have hle : (offset + m) / SECTSIZE ≤ (offset + k) / SECTSIZE := Nat.div_le_div_right (by omega)
  rw [slice, slice, hsum, hm,
    show (offset + k) / SECTSIZE - offset / SECTSIZE =
      (offset + k) / SECTSIZE - (offset / SECTSIZE + 1) + 1 by omega]
  rfl

/-- A byte of a range, when the data of block `n` are `f n`. -/
theorem slice_map {f : ℕ → Sector} (hk : k < size) :
    slice ((blocksOf ip offset size).map f) offset k =
      f (ip.dinode.addr ((offset + k) / SECTSIZE)) (Fin.ofNat SECTSIZE (offset + k)) := by
  have hsect : SECTSIZE = 512 := rfl
  have hindex : (offset + k) / SECTSIZE - offset / SECTSIZE <
      (offset + size - 1) / SECTSIZE - offset / SECTSIZE + 1 := by
    rw [hsect]
    omega
  have hblock : offset / SECTSIZE + ((offset + k) / SECTSIZE - offset / SECTSIZE) =
      (offset + k) / SECTSIZE := by
    rw [hsect]
    omega
  rw [slice, blocksOf, if_neg (by omega), List.getD_eq_getElem?_getD, List.getElem?_map, List.getElem?_map,
    List.getElem?_range hindex, Option.map_some, Option.map_some, Option.getD_some, hblock]

/-- **The loop** moves the slice, and nothing else. -/
theorem wp_readLoop_slice {fuel : ℕ} (h : Quiet s)
    (haddr : ∀ k < size - l.cnt, ip.dinode.addr ((l.offset + k) / SECTSIZE) < NSECTOR)
    (hfuel : size - l.cnt < fuel) :
    wp E (iterate .loop (readTurn ip size) fuel (l, dst)) (fun r t => Quiet t ∧
      ∀ k, r k = if l.cnt ≤ k ∧ k < size then
        slice (breads s (blocksOf ip l.offset (size - l.cnt))) l.offset (k - l.cnt) else dst k) s := by
  induction fuel generalizing l dst s with
  | zero => omega
  | succ fuel ih =>
      rw [wp_iterate_succ]
      refine wp_readTurn h (fun hge => ⟨h, fun k => ?_⟩) (fun hlt hbig => ?_) fun hlt hn => ?_
      · rw [if_neg (by omega)]
      · have hfirst := haddr 0 (by omega)
        rw [Nat.add_zero] at hfirst
        omega
      · have hsect : SECTSIZE = 512 := rfl
        have hpos := Loop.m_pos hlt
        have hm : l.m size = min (size - l.cnt) (SECTSIZE - l.offset % SECTSIZE) := rfl
        have hcons := blocksOf_cons ip (show 0 < size - l.cnt by omega) hm
        have hrest : size - l.cnt - l.m size = size - (l.next size).cnt := by
          simp only [Loop.next]
          omega
        apply wp_mono (ih (l := l.next size) (h.access (fun _ => hn) _) (fun k hk => ?_) (by omega))
        · rintro r t ⟨hquiet, hread⟩
          refine ⟨hquiet, fun k => ?_⟩
          rw [hread k, hcons, hrest, breads]
          have hcnt : (l.next size).cnt = l.cnt + l.m size := rfl
          have hoff : (l.next size).offset = l.offset + l.m size := rfl
          rw [hsect] at hm
          simp only [moveOut]
          rcases Nat.lt_or_ge k (l.next size).cnt with hfirst | hlater
          · rw [if_neg (show ¬ ((l.next size).cnt ≤ k ∧ k < size) by omega)]
            by_cases hin : l.cnt ≤ k
            · rw [if_pos (show l.cnt ≤ k ∧ k < l.cnt + l.m size from ⟨hin, hfirst⟩),
                if_pos (show l.cnt ≤ k ∧ k < size by omega), slice_head (by rw [hsect]; omega)]
              congr 1
              apply Fin.ext
              simp only [Fin.val_ofNat, hsect]
              omega
            · rw [if_neg (show ¬ (l.cnt ≤ k ∧ k < l.cnt + l.m size) by omega),
                if_neg (show ¬ (l.cnt ≤ k ∧ k < size) by omega)]
          · rw [if_neg (show ¬ (l.cnt ≤ k ∧ k < l.cnt + l.m size) by omega)]
            by_cases hin : k < size
            · rw [if_pos (show (l.next size).cnt ≤ k ∧ k < size from ⟨hlater, hin⟩),
                if_pos (show l.cnt ≤ k ∧ k < size by omega),
                slice_tail (show l.m size ≤ k - l.cnt by omega) (by rw [hsect]; omega), Nat.sub_sub,
                hcnt, hoff]
            · rw [if_neg (show ¬ ((l.next size).cnt ≤ k ∧ k < size) by omega),
                if_neg (show ¬ (l.cnt ≤ k ∧ k < size) by omega)]
        · have hk' := haddr (l.m size + k) (by omega)
          rwa [← Nat.add_assoc] at hk'

/-! ## One call -/

/-- **What `readi` promises** for a file: up to the end of the file the slice, and nothing behind
it; -1 behind the end.  It looks at the addresses of the table only. -/
structure Slice (devsw : ℕ → Devsw) (ip : Inode) (dst : Bytes) (offset size : ℕ) (s : State) : Prop where
  inside : offset ≤ ip.dinode.size → ∃ dst' t,
    readi devsw ip dst offset size s =
      .ok (((min size (ip.dinode.size - offset) : ℕ), dst'), t) ∧
    ∀ k, dst' k = if k < min size (ip.dinode.size - offset) then
      slice (breads s (blocksOf ip offset (min size (ip.dinode.size - offset)))) offset k else dst k
  outside : ip.dinode.size < offset → readi devsw ip dst offset size s = .ok ((-1, dst), s)
  indices : ∀ addr, (∀ k < NADDR, addr k = ip.dinode.addr k) →
    readi devsw { ip with dinode := { ip.dinode with addr } } dst offset size s =
      readi devsw ip dst offset size s

/-- The turns of the loop come to the addresses up to the end of the range. -/
theorem readLoop_congr {ip' : Inode} {fuel : ℕ}
    (haddr : ∀ k < size - l.cnt, ip'.dinode.addr ((l.offset + k) / SECTSIZE) =
      ip.dinode.addr ((l.offset + k) / SECTSIZE)) :
    iterate .loop (readTurn ip' size) fuel (l, dst) = iterate .loop (readTurn ip size) fuel (l, dst) := by
  induction fuel generalizing l dst with
  | zero => rfl
  | succ fuel ih =>
      rw [iterate, iterate]
      by_cases hlt : l.cnt < size
      · have hfirst := haddr 0 (by omega)
        rw [Nat.add_zero] at hfirst
        have hrest : ∀ dst, iterate .loop (readTurn ip' size) fuel (l.next size, dst) =
            iterate .loop (readTurn ip size) fuel (l.next size, dst) := by
          intro dst
          apply ih
          intro k hk
          have hnext : (l.next size).cnt = l.cnt + l.m size := rfl
          have hoff : (l.next size).offset = l.offset + l.m size := rfl
          have hk' := haddr (l.m size + k) (by omega)
          rwa [hoff, Nat.add_assoc]
        simp only [readTurn, hlt, not_true_eq_false, if_false, hfirst, bind_assoc, pure_bind, hrest]
      · simp only [readTurn, hlt, not_false_eq_true, if_true, pure_bind]

/-- An inode with other addresses behind the table is read in the same way. -/
theorem readi_congr {addr : ℕ → ℕ} (hip : ip.dinode.size ≤ NADDR * SECTSIZE)
    (haddr : ∀ k < NADDR, addr k = ip.dinode.addr k) :
    readi devsw { ip with dinode := { ip.dinode with addr } } dst offset size =
      readi devsw ip dst offset size := by
  have hsect : SECTSIZE = 512 := rfl
  have hnaddr : NADDR = 124 := rfl
  have hloop : ¬ (ip.dinode.size < offset ∨ (offset + size) % 2 ^ 32 < offset ∨ NADDR ≤ offset / SECTSIZE) →
      ∀ n, n ≤ ip.dinode.size - offset →
      iterate .loop (readTurn { ip with dinode := { ip.dinode with addr } } n) (n + 1) (⟨0, offset⟩, dst) =
        iterate .loop (readTurn ip n) (n + 1) (⟨0, offset⟩, dst) := by
    intro hacc n hn
    apply readLoop_congr
    intro k hk
    apply haddr
    simp only [hsect, hnaddr] at hk hip hacc ⊢
    omega
  unfold readi
  simp only
  split
  next => rfl
  next =>
    split
    next => rfl
    next hacc =>
      split
      next hbig => rw [hloop hacc _ le_rfl]
      next hsmall => rw [hloop hacc _ (by omega)]

/-- `readi` inside the file, but for the end of the largest one. -/
theorem readi_inside (h : Quiet s) (htype : ip.dinode.type ≠ T_DEV)
    (haddr : ∀ k < ip.dinode.size, ip.dinode.addr (k / SECTSIZE) < NSECTOR) (hsize : size < 2 ^ 31)
    (hoffset : offset ≤ ip.dinode.size) (hlt : offset < NADDR * SECTSIZE) :
    ∃ dst' t, readi devsw ip dst offset size s =
        .ok (((min size (ip.dinode.size - offset) : ℕ), dst'), t) ∧
      ∀ k, dst' k = if k < min size (ip.dinode.size - offset) then
        slice (breads s (blocksOf ip offset (min size (ip.dinode.size - offset)))) offset k else dst k := by
  have hacc : ¬ (ip.dinode.size < offset ∨ (offset + size) % 2 ^ 32 < offset ∨
      NADDR ≤ offset / SECTSIZE) := by
    simp only [SECTSIZE, NADDR] at hlt ⊢
    omega
  have hn : (if ip.dinode.size < offset + size then ip.dinode.size - offset else size) =
      min size (ip.dinode.size - offset) := by
    split <;> omega
  have hint : toInt (min size (ip.dinode.size - offset)) = (min size (ip.dinode.size - offset) : ℕ) :=
    if_pos (by omega)
  have hloop : wp (fun _ => False) (iterate .loop (readTurn ip (min size (ip.dinode.size - offset)))
      (min size (ip.dinode.size - offset) + 1) (⟨0, offset⟩, dst)) _ s :=
    wp_readLoop_slice h (fun k hk => haddr _ (by simp only at hk ⊢; omega)) (by simp only; omega)
  have hrun : wp (fun _ => False) (readi devsw ip dst offset size) (fun r _ =>
      r.1 = (min size (ip.dinode.size - offset) : ℕ) ∧ ∀ k, r.2 k =
        if k < min size (ip.dinode.size - offset) then
          slice (breads s (blocksOf ip offset (min size (ip.dinode.size - offset)))) offset k
        else dst k) s := by
    simp only [readi, wp_bind, wp_pure, if_neg htype, if_neg hacc, hn]
    apply wp_mono hloop
    rintro r t ⟨-, hread⟩
    refine ⟨hint, fun k => ?_⟩
    simpa using hread k
  obtain ⟨⟨r, dst'⟩, t, hok, hr, hread⟩ := wp_total.mp hrun
  cases hr
  exact ⟨dst', t, hok, hread⟩

/-- `readi` behind the end of the file. -/
theorem readi_outside (htype : ip.dinode.type ≠ T_DEV) (hoffset : ip.dinode.size < offset) :
    readi devsw ip dst offset size s = .ok ((-1, dst), s) := by
  unfold readi
  rw [if_neg htype, if_pos (.inl hoffset)]
  rfl

/-- `readi` behind the table of addresses. -/
theorem readi_beyond (htype : ip.dinode.type ≠ T_DEV) (hlast : NADDR ≤ offset / SECTSIZE) :
    readi devsw ip dst offset size s = .ok ((-1, dst), s) := by
  unfold readi
  rw [if_neg htype, if_pos (.inr (.inr hlast))]
  rfl

/-- `readi` at the end of the largest file. -/
theorem readi_full (htype : ip.dinode.type ≠ T_DEV) :
    readi devsw ip dst (NADDR * SECTSIZE) size s = .ok ((-1, dst), s) := by
  apply readi_beyond htype
  decide

/-- **The slice.**  For every file that is not longer than its table of addresses, with valid
blocks, and for every range: `readi` returns the slice if and only if the offset is not the end
of the largest file. -/
theorem slice_iff (h : Quiet s) (htype : ip.dinode.type ≠ T_DEV)
    (hip : ip.dinode.size ≤ NADDR * SECTSIZE)
    (haddr : ∀ k < ip.dinode.size, ip.dinode.addr (k / SECTSIZE) < NSECTOR) (hsize : size < 2 ^ 31) :
    Slice devsw ip dst offset size s ↔
      ¬ (ip.dinode.size = NADDR * SECTSIZE ∧ offset = NADDR * SECTSIZE) := by
  constructor
  · rintro hslice ⟨hfull, rfl⟩
    obtain ⟨dst', t, hok, -⟩ := hslice.inside hfull.ge
    rw [readi_full htype] at hok
    have hneg := congrArg (fun r => r.toOption.map (·.1.1)) hok
    simp only [Except.toOption, Option.map_some, Option.some.injEq] at hneg
    omega
  · intro hnot
    constructor
    · intro hoffset
      exact readi_inside h htype haddr hsize hoffset (by omega)
    · exact readi_outside htype
    · intro addr hsame
      rw [readi_congr hip hsame]

/-! ## The largest file -/

/-- A file that uses the whole table of addresses. -/
def largest : Inode := ⟨5, 1, true, 0, ⟨T_FILE, 0, 0, 0, 1, 63488, fun k => if k < 124 then 2048 + k else 0⟩⟩

/-- A file of two sectors. -/
def twoSectors : Inode :=
  ⟨6, 1, true, 0, ⟨T_FILE, 0, 0, 0, 1, 1024, fun k => if k < 2 then 2048 + k else 0⟩⟩

/-- A disk on which no two bytes in a row are the same. -/
def numbered : State := .boot fun n i => UInt8.ofNat (n + i)

/-- Four bytes, two on each side of the end of a block; the byte behind them is left alone. -/
theorem slice_iff_acrossBlocks : ∃ dst t,
    readi noDev twoSectors (fun _ => 7) 510 4 numbered = .ok ((4, dst), t) ∧
    (List.range 5).map dst = [254, 255, 1, 2, 7] := by
  have haddr : ∀ k < twoSectors.dinode.size, twoSectors.dinode.addr (k / SECTSIZE) < NSECTOR := by
    intro k _
    have hsector : NSECTOR = 8192 := rfl
    simp only [twoSectors]
    split
    next hk => omega
    next => decide
  have hslice : Slice noDev twoSectors (fun _ => 7) 510 4 numbered :=
    (slice_iff (Quiet.boot _) (by decide) (by decide) haddr (by decide)).mpr (by decide)
  obtain ⟨dst, t, hrun, hbytes⟩ := hslice.inside (by decide)
  have hsize : min 4 (twoSectors.dinode.size - 510) = 4 := by decide
  rw [hsize] at hrun hbytes
  refine ⟨dst, t, hrun, ?_⟩
  rw [funext hbytes]
  decide +kernel

/-- The end of the largest file is its last offset, and `readi` returns -1 there. -/
theorem not_slice : Quiet blank ∧ largest.dinode.type = T_FILE ∧
    largest.dinode.size ≤ NADDR * SECTSIZE ∧
    (∀ k < largest.dinode.size, largest.dinode.addr (k / SECTSIZE) < NSECTOR) ∧
    63488 ≤ largest.dinode.size ∧
    readi noDev largest (fun _ => 0) 63488 1 blank = .ok ((-1, fun _ => 0), blank) ∧
    ¬ Slice noDev largest (fun _ => 0) 63488 1 blank := by
  have hlast : readi noDev largest (fun _ => 0) 63488 1 blank = .ok ((-1, fun _ => 0), blank) :=
    readi_full (by decide)
  refine ⟨Quiet.boot _, rfl, by decide, fun k _ => ?_, by decide, hlast, fun hslice => ?_⟩
  · simp only [largest]
    split
    next hk =>
      have hsector : NSECTOR = 8192 := rfl
      omega
    next => decide
  · obtain ⟨dst', t, hok, -⟩ := hslice.inside (by decide)
    rw [hlast] at hok
    have hneg := congrArg (fun r => r.toOption.map (·.1.1)) hok
    simp only [Except.toOption, Option.map_some, Option.some.injEq] at hneg
    omega

end Mixv6.Fs.Cache
