import Mixv6.Fs.Store

/-!
# The blocks that `writei` changes

`writei` accepts a range that starts inside the file and ends anywhere in its table of
addresses.  Past the last block of the file the table holds zeros, so the bytes go to block 0;
and the size of the file stays what it was.

## Main definitions

* `MkfsFile` — an inode as `mkfs` writes it.
* `OwnBlocks`, `Contained` — what `writei` should do.
* `contained_iff` — it does, if and only if the range is not accepted or ends inside the file.
-/

namespace Mixv6.Fs.Cache

open Mixv6.Lib
open Mixv6.Syscall (Inode T_DEV NADDR)

variable {s t : State} {E : Panic → Prop} {ip : Inode} {offset size : ℕ} {src : Bytes}
  {devsw : ℕ → Devsw}

/-- The number of blocks of a file. -/
def nblocks (ip : Inode) : ℕ := (ip.dinode.size + SECTSIZE - 1) / SECTSIZE

/-- `main` of `mkfs` gives a file the blocks it needs, from the data blocks. -/
structure MkfsFile (ip : Inode) : Prop where
  type : ip.dinode.type = T_FILE
  blocks : nblocks ip ≤ NADDR
  allocated : ∀ k < nblocks ip, 2048 ≤ ip.dinode.addr k ∧ ip.dinode.addr k < NSECTOR
  unused : ∀ k < NADDR, nblocks ip ≤ k → ip.dinode.addr k = 0

/-- The buffers that are not as they were belong to blocks of the file, and the disk is as it
was. -/
structure OwnBlocks (ip : Inode) (s t : State) : Prop where
  buffers : ∀ i, t.blocks i ≠ s.blocks i → ∃ k < nblocks ip, (t.blocks i).blockno = ip.dinode.addr k
  sectors : t.sectors = s.sectors

/-- `writei` returns -1 and has changed nothing, or it has changed only blocks of the file, and
the bytes it says it has written are in the file.  It does not store to the inode, so the size
of the file is that of before. -/
def Contained (devsw : ℕ → Devsw) (ip : Inode) (src : Bytes) (offset size : ℕ) (s : State) : Prop :=
  ∃ r t, writei devsw ip src offset size s = .ok (r, t) ∧
    (r = -1 ∧ t = s ∨ 0 ≤ r ∧ OwnBlocks ip s t ∧ offset + r ≤ ip.dinode.size)

/-- The loop of `writei` changes the buffers of the blocks of its range. -/
theorem wp_writeLoop_blocks (h : Quiet s)
    (hE : ∀ k < size, NSECTOR ≤ (place ip (offset + k)).1 → E .blockno) :
    wp E (iterate .loop (writeTurn ip src size) (size + 1) ⟨0, offset⟩)
      (fun _ t => Quiet t ∧ t.sectors = s.sectors ∧ ∀ i, t.blocks i ≠ s.blocks i →
        ∃ k < size, (t.blocks i).blockno = (place ip (offset + k)).1) s := by
  refine wp_iterate (fun l t => l.cnt ≤ size ∧ l.offset = offset + l.cnt ∧ Quiet t ∧
    t.sectors = s.sectors ∧ ∀ i, t.blocks i ≠ s.blocks i →
      ∃ k < size, (t.blocks i).blockno = (place ip (offset + k)).1) (fun l => size - l.cnt)
    ?_ ⟨Nat.zero_le _, rfl, h, rfl, fun i hi => absurd rfl hi⟩ (by simp)
  rintro l t ⟨hle, hoff, hquiet, hsectors, hblocks⟩
  refine wp_writeTurn hquiet (fun _ => ⟨hquiet, hsectors, hblocks⟩)
    (fun hlt _ hbig => hE l.cnt hlt (by rwa [hoff] at hbig)) fun hlt hn => ?_
  have hpos := Loop.m_pos hlt
  have hm := (Loop.m_le hlt).1
  have hvalid : writtenValid t ip size l → ip.dinode.addr (l.offset / SECTSIZE) < NSECTOR := by
    intro hvalid
    by_cases hwhole : l.m size = SECTSIZE
    · rw [writtenValid, if_pos hwhole] at hvalid
      exact hquiet.sector_of_hit hvalid
    · exact hn hwhole
  simp only [Loop.next]
  refine ⟨⟨hm, by omega, hquiet.access hvalid _, hsectors, fun i hi => ?_⟩, by omega⟩
  by_cases his : i = slot t (ip.dinode.addr (l.offset / SECTSIZE))
  · subst his
    refine ⟨l.cnt, hlt, ?_⟩
    simp [State.access, place, hoff]
  · rw [access_blocks his] at hi ⊢
    exact hblocks i hi

/-- Every block of the table has a sector. -/
theorem MkfsFile.sector (h : MkfsFile ip) {k : ℕ} (hk : k < NADDR) : ip.dinode.addr k < NSECTOR := by
  rcases Nat.lt_or_ge k (nblocks ip) with hlt | hge
  · exact (h.allocated k hlt).2
  · rw [h.unused k hk hge]
    decide

/-- **One call.** -/
theorem Quiet.contained (h : Quiet s) (hip : MkfsFile ip) :
    Contained devsw ip src offset size s ↔
      Rejected ip offset size ∨ offset + size ≤ ip.dinode.size := by
  have hdev : ip.dinode.type ≠ T_DEV := by
    rw [hip.type]
    decide
  by_cases hrej : Rejected ip offset size
  · refine ⟨fun _ => .inl hrej, fun _ => ⟨-1, s, ?_, .inl ⟨rfl, rfl⟩⟩⟩
    have hrun : wp (fun _ => False) (writei devsw ip src offset size) (fun r t => r = -1 ∧ t = s) s := by
      simp only [writei, wp_pure, if_neg hdev, if_pos hrej]
      exact ⟨trivial, trivial⟩
    obtain ⟨r, t, hok, rfl, rfl⟩ := wp_total.mp hrun
    exact hok
  · have hrun : wp (fun _ => False) (writei devsw ip src offset size) (fun r t => r = toInt size ∧
        t.sectors = s.sectors ∧ ∀ i, t.blocks i ≠ s.blocks i →
          ∃ k < size, (t.blocks i).blockno = (place ip (offset + k)).1) s := by
      simp only [writei, wp_bind, wp_pure, if_neg hdev, if_neg hrej]
      refine wp_mono (wp_writeLoop_blocks h fun k hk hbig => ?_) fun _ t ht => ⟨trivial, ht.2⟩
      have hsector := hip.sector (k := (offset + k) / SECTSIZE) (by
        have hle := le_of_accepted hrej
        simp only [NADDR, SECTSIZE]
        omega)
      rw [place] at hbig
      omega
    obtain ⟨r, t, hok, hr, hsectors, hblocks⟩ := wp_total.mp hrun
    rw [toInt_of_accepted hrej] at hr
    constructor
    · rintro ⟨r', t', hok', hres⟩
      rw [hok] at hok'
      cases hok'
      rcases hres with ⟨hneg, -⟩ | ⟨-, -, hin⟩
      · omega
      · exact .inr (by omega)
    · rintro (hacc | hin)
      · exact absurd hacc hrej
      · refine ⟨r, t, hok, .inr ⟨by omega, ⟨fun i hi => ?_, hsectors⟩, by omega⟩⟩
        obtain ⟨k, hk, hblockno⟩ := hblocks i hi
        refine ⟨(offset + k) / SECTSIZE, ?_, hblockno⟩
        simp only [nblocks, SECTSIZE]
        omega

/-! ## Runs -/

/-- The loop of `readi` leaves a quiet cache. -/
theorem wp_readLoop_quiet (h : Quiet s) (hE : E .blockno) {dst : Bytes} :
    wp E (iterate .loop (readTurn ip size) (size + 1) (⟨0, offset⟩, dst)) (fun _ t => Quiet t) s := by
  refine wp_iterate (fun _ t => Quiet t) (fun a => size - a.1.cnt) ?_ h (by simp)
  rintro ⟨l, d⟩ t hquiet
  refine wp_readTurn hquiet (fun _ => hquiet) (fun _ _ => hE) fun hlt hn => ?_
  have hpos := Loop.m_pos hlt
  simp only [Loop.next]
  exact ⟨hquiet.access (fun _ => hn) _, by omega⟩

/-- Every call leaves a quiet cache. -/
theorem Quiet.run (h : Quiet s) (e : Io) : wp (fun _ => True) (e.run devsw) (fun _ t => Quiet t) s := by
  cases e with
  | look n =>
      refine wp_bind.mpr (wp_bread h (fun _ => trivial) fun hn => wp_bind.mpr (wp_brelse ?_))
      exact wp_pure.mpr (h.access (fun _ => hn) _)
  | read ip dst offset size =>
      rw [Io.run, wp_map]
      simp only [readi, wp_ite, wp_bind, wp_pure]
      split
      next =>
        split
        next => exact h
        next => split <;> exact wp_pure.mpr h
      next =>
        split
        next => exact h
        next => exact wp_readLoop_quiet h trivial
  | write ip src offset size =>
      simp only [Io.run, writei, wp_ite, wp_bind, wp_pure]
      split
      next =>
        split
        next => exact h
        next => split <;> exact wp_pure.mpr h
      next =>
        split
        next => exact h
        next => exact wp_mono (wp_writeLoop_blocks h fun _ _ _ => trivial) fun _ t ht => ht.1

theorem quiet_of_reaches {sectors : ℕ → Sector} (h : (ioMachine devsw).Reaches (.boot sectors) s) :
    Quiet s :=
  h.invariant (Quiet.boot sectors) fun _ e _ ht _ hstep => post_of_step (ht.run e) hstep

/-- `mkfs` could have written the small file. -/
theorem mkfsFile_oneSector : MkfsFile oneSector := by
  have hone : nblocks oneSector = 1 := by decide
  refine ⟨rfl, by decide, fun k hk => ?_, fun k _ hk => ?_⟩
  · obtain rfl : k = 0 := by omega
    decide
  · exact if_neg (by omega)

end Mixv6.Fs.Cache
