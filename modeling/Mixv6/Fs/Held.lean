import Mixv6.Fs.Routines

/-!
# The references of a process

A process that runs `readi`, `writei`, `iget` or `namei` has at most two references to
buffers: `namei` holds the block of the directory while `iget` reads an inode.  With fewer
than 64 processes most of the 256 buffers are free at any time, so that `bget` always finds
one.

## Main definitions

* `refSpec` — what a call does to the references of its process.
* `FsCmd`, `FsCmd.code` — the calls of the processes.
* `CacheOk` — the buffers, as the processes should find them.
* `cache_ok` — so they do in every run.
-/

namespace Mixv6.Fs.Routine

open Mixv6.Lib Mixv6.Kernel
open Cache (Sector SECTSIZE Loop Devsw Bytes)
open Mixv6.Syscall (Inode InodeId NDIRENT first of_first not_of_first)

/-- What a statement does to the references; a call that takes one needs that there are fewer
than two. -/
def refSpec (σ : Type) : Spec σ FsCall FsCall.Reply Held where
  atom _ Q bs := ∀ s, Q s bs
  call
    | .bget n, Q, bs | .bread n, Q, bs => bs.length < 2 ∧ ∀ b : Buf, Q b ((n, b) :: bs)
    | .brelse n b, Q, bs => (n, b) ∈ bs ∧ Q () (bs.erase (n, b))
    | .load _, Q, bs => ∀ d : Sector, Q d bs
    | .store n b _, Q, bs => (n, b) ∈ bs ∧ Q () bs
  atom_mono himp h s := himp s _ (h s)
  call_mono {c Q Q' bs} himp h := by
    cases c with
    | bget n | bread n => exact ⟨h.1, fun b => himp b _ (h.2 b)⟩
    | brelse n b | store n b f => exact ⟨h.1, himp () _ h.2⟩
    | load b => exact fun d => himp d _ (h d)

section Rules
variable {σ : Type} {bs : Held} {n : ℕ} {b : Buf}

@[simp] theorem refs_bget {Q : Buf → Held → Prop} : (bget n : Code σ Buf).wp (refSpec σ) Q bs ↔
    bs.length < 2 ∧ ∀ b, Q b ((n, b) :: bs) := Iff.rfl

@[simp] theorem refs_bread {Q : Buf → Held → Prop} : (bread n : Code σ Buf).wp (refSpec σ) Q bs ↔
    bs.length < 2 ∧ ∀ b, Q b ((n, b) :: bs) := Iff.rfl

@[simp] theorem refs_brelse {Q : Unit → Held → Prop} :
    (brelse n b : Code σ Unit).wp (refSpec σ) Q bs ↔ (n, b) ∈ bs ∧ Q () (bs.erase (n, b)) := Iff.rfl

@[simp] theorem refs_load {Q : Sector → Held → Prop} :
    (load b : Code σ Sector).wp (refSpec σ) Q bs ↔ ∀ d, Q d bs := Iff.rfl

@[simp] theorem refs_store {Q : Unit → Held → Prop} {f : Sector → Sector} :
    (store n b f : Code σ Unit).wp (refSpec σ) Q bs ↔ (n, b) ∈ bs ∧ Q () bs := Iff.rfl

@[simp] theorem refs_atom {Q : σ → Held → Prop} {f : σ → Option σ} :
    (refSpec σ).atom f Q bs ↔ ∀ s, Q s bs := Iff.rfl

end Rules

/-! ## The routines give back what they take -/

section Routines
variable {σ : Type} {inode : σ → InodeId → Inode} {devsw : ℕ → Devsw} {ip : InodeId} {bs : Held}

theorem refs_readTurns (hroom : bs.length < 2) (size : ℕ) (l : Loop) (dst : Bytes) :
    (readTurns inode ip size l dst).wp (refSpec σ) (fun _ bs' => bs' = bs) bs := by
  fun_induction readTurns inode ip size l dst with
  | case1 l dst hlt ih =>
      have hread : σ → bs.length < 2 := fun _ => hroom
      simpa [ih] using hread
  | case2 l dst hge => rfl

theorem refs_readi (hroom : bs.length < 2) (dst : Bytes) (offset size : ℕ) :
    (readi inode devsw ip dst offset size).wp (refSpec σ) (fun _ bs' => bs' = bs) bs := by
  simp only [readi, Thread.wp_bind, Thread.wp_look, refs_atom]
  intro s
  split
  · split
    · rfl
    · split <;> rfl
  · simp only [Thread.wp_bind, Thread.wp_look, refs_atom]
    intro s
    split
    · rfl
    · simp only [Thread.wp_bind, Thread.wp_look, refs_atom, Thread.wp_ite, Thread.wp_pure]
      intro s
      split
      · exact fun s => refs_readTurns hroom _ _ dst
      · exact refs_readTurns hroom _ _ dst

theorem refs_writeTurns (hroom : bs.length < 2) (src : Bytes) (size : ℕ) (l : Loop) :
    (writeTurns inode ip src size l).wp (refSpec σ) (fun _ bs' => bs' = bs) bs := by
  fun_induction writeTurns inode ip src size l with
  | case1 l hlt m ih =>
      simp only [Thread.wp_bind, Thread.wp_look, refs_atom, Thread.wp_ite]
      intro s
      split <;> simp [hroom, ih]
  | case2 l hge => rfl

theorem refs_writei (hroom : bs.length < 2) (src : Bytes) (offset size : ℕ) :
    (writei inode devsw ip src offset size).wp (refSpec σ) (fun _ bs' => bs' = bs) bs := by
  simp only [writei, Thread.wp_bind, Thread.wp_look, refs_atom]
  intro s
  split
  · split
    · rfl
    · split <;> rfl
  · simp only [Thread.wp_bind, Thread.wp_look, refs_atom]
    intro s
    split
    · rfl
    · exact Thread.wp_bind.mpr (refs_writeTurns hroom src size _)

theorem refs_iget (hroom : bs.length < 2) (inum : ℕ) :
    (iget inum).wp (refSpec Table) (fun _ bs' => bs' = bs) bs := by
  intro t
  simp only
  split
  · rfl
  · rfl
  · simp [hroom]

theorem refs_getrootdir (hroom : bs.length < 2) (rootdir : ℕ) :
    (getrootdir rootdir).wp (refSpec Table) (fun _ bs' => bs' = bs) bs := by
  refine Thread.wp_seq (refs_iget hroom rootdir) fun ip bs' hbs => ?_
  cases ip with
  | none => trivial
  | some ip => exact hbs

theorem refs_dirlookup (hroom : bs.length < 2) (b : Buf) (fname : List UInt8) (is : List ℕ) :
    (dirlookup b fname is).wp (refSpec Table) (fun _ bs' => bs' = bs) bs := by
  induction is with
  | nil => rfl
  | cons i is ih =>
      simp only [dirlookup, Thread.wp_bind, refs_load, Thread.wp_ite]
      intro d
      split
      · exact fun d => refs_iget hroom _
      · exact ih

/-- `namei` calls `iget` while it holds a block. -/
theorem refs_namei (rootdir : ℕ) (path : Option (List UInt8)) :
    (namei rootdir path).wp (refSpec Table) (fun _ bs => bs = []) [] := by
  cases path with
  | none => rfl
  | some path =>
      refine Thread.wp_seq (refs_getrootdir (by decide) rootdir) fun ip bs hbs => ?_
      subst hbs
      simp only [Thread.wp_ite]
      split
      · rfl
      · simp only [Thread.wp_bind, Thread.wp_look, refs_atom, refs_bread, irelse, Thread.wp_change]
        refine fun t => ⟨by decide, fun b _ => ?_⟩
        refine Thread.wp_mono (refs_dirlookup (by simp) b path _) fun ip bs hbs => ?_
        simp [hbs]

end Routines

/-! ## The cache while nobody writes to the disk -/

/-- The counts are exact, `bget` finds the buffers, and no buffer is marked for writing. -/
structure CacheInv {P : Type} [Fintype P] (io : IoSt P Sector) : Prop where
  refs : RefInv io
  found : Found io
  clean : ∀ i, (io.blocks i).dirty = false
  asleep : ∀ p i, io.tab.wchan p = some (.blk i) → ∃ op, io.pc p = .io op i .wait

/-- Process `p` is not in `bwrite`. -/
def NoWrite {P : Type} (io : IoSt P Sector) (p : P) : Prop := ∀ i st, io.pc p ≠ .io .write i st

section Cache
variable {P : Type} [Fintype P] {io io' : IoSt P Sector} {p : P} {n : ℕ}

namespace CacheInv

theorem init (stat : P → ProcStat) (zero : Sector) (sectors : ℕ → Sector) :
    CacheInv (.init stat zero sectors : IoSt P Sector) where
  refs := by constructor <;> simp [IoSt.init, IoSt.refs, IoPc.ref]
  found := .init stat zero sectors
  clean _ := rfl
  asleep p i h := by cases h

/-- Who sleeps on a buffer has a reference to it. -/
theorem refcnt_pos (h : CacheInv io) {i : Buf} (hp : io.tab.wchan p = some (.blk i)) :
    0 < (io.blocks i).refcnt := by
  obtain ⟨op, hpc⟩ := h.asleep p i hp
  exact Nat.lt_of_lt_of_le (h.refs.refs_pos_of_io hpc) (h.refs.refs_le p i)

theorem intr (h : CacheInv io) (hintr : io.ideintr = some io') : CacheInv io' := by
  have hi := ideintr_interrupt hintr
  refine ⟨hi.refInv h.refs, h.found.intr (fun p i hp => h.refcnt_pos hp) hintr,
    fun i => hi.clean i (h.clean i), fun q i hq => ?_⟩
  rw [hi.pc]
  exact h.asleep q i (hi.wchan q _ hq)

variable [DecidableEq P]

theorem next (h : CacheInv io) {call : Bio Sector} (hsafe : SafeRef io (io.pc p))
    (hwrite : NoWrite io p) (hnext : io.next p call = some io') : CacheInv io' :=
  have hmove := Fs.next_cases hnext
  ⟨h.refs.move hsafe hmove, h.found.next h.refs hnext, fun i => hmove.clean hwrite (h.clean i),
    asleep_move h.asleep hmove⟩

theorem take (h : CacheInv io) (hsafe : ∀ i ∈ io.cached n, (io.blocks i).refcnt + 1 < 65536)
    (ht : io.take p n = some io') : CacheInv io' := by
  refine ⟨h.refs.take hsafe ht, h.found.take ht, fun j => ?_, ?_⟩
  · obtain ⟨-, i, b, hb, rfl⟩ := take_cases ht
    by_cases hj : j = i
    · subst hj
      have hclean := h.clean j
      rcases bget_cases hb with ⟨-, -, rfl⟩ | ⟨-, -, -, rfl⟩ <;> simp [hclean]
    · simpa [hj] using h.clean j
  · obtain ⟨-, i, b, -, rfl⟩ := take_cases ht
    exact h.asleep

end CacheInv

omit [Fintype P] in
/-- `bget` leaves the block numbers of buffers with references alone. -/
theorem blockno_of_take [DecidableEq P] (ht : io.take p n = some io') {i : Buf}
    (hi : 0 < (io.blocks i).refcnt) : (io'.blocks i).blockno = (io.blocks i).blockno := by
  obtain ⟨-, j, b, hb, rfl⟩ := take_cases ht
  rcases bget_cases hb with ⟨-, -, rfl⟩ | ⟨-, hz, -, rfl⟩
  · exact update_same Block.blockno (by rfl) i
  · have hij : i ≠ j := by rintro rfl; omega
    simp [hij]

end Cache

/-! ## Runs -/

/-- A thread that gives back all references. -/
def Gives {σ : Type} (t : Code σ Unit) (bs : Held) : Prop :=
  t.wp (refSpec σ) (fun _ bs => bs = []) bs

/-- The references of process `p` are as the rest of its routine expects. -/
def Expected {P σ : Type} (s : FsSt P σ) (p : P) : FsPc σ → Prop
  | .run t => s.io.pc p = .idle ∧ (s.io.held p).length ≤ 2 ∧ Gives t (s.io.held p)
  | .read n k => ∃ bs : Held, bs.length < 2 ∧ (∀ b, Gives (k b) ((n, b) :: bs)) ∧
      ((s.io.pc p).reads = some n ∧ s.io.held p = bs ∨
        s.io.pc p = .idle ∧ ∃ b, s.io.held p = (n, b) :: bs)

/-- What holds of the cache and the processes. -/
structure HeldInv {P σ : Type} [Fintype P] (s : FsSt P σ) : Prop where
  cache : CacheInv s.io
  expected : ∀ p, Expected s p (s.pc p)

section Inv
variable {P σ C : Type} [Fintype P] {s t : FsSt P σ} {p q : P} {routine : P → C → Code σ Unit}

omit [Fintype P] in
/-- What a process expects depends on itself only. -/
theorem Expected.congr {pc : FsPc σ} (h : Expected s p pc) (hpc : t.io.pc p = s.io.pc p)
    (hheld : t.io.held p = s.io.held p) : Expected t p pc := by
  cases pc with
  | run c => rwa [Expected, hpc, hheld]
  | read n k => rwa [Expected, hpc, hheld]

namespace HeldInv

theorem noWrite (h : HeldInv s) (p : P) : NoWrite s.io p := by
  intro i st hpc
  have hp := h.expected p
  cases hs : s.pc p with
  | run t =>
      rw [hs] at hp
      rw [hp.1] at hpc
      cases hpc
  | read n k =>
      rw [hs] at hp
      obtain ⟨bs, -, -, ⟨hreads, -⟩ | ⟨hidle, -⟩⟩ := hp
      · rw [hpc] at hreads
        cases hreads
      · rw [hidle] at hpc
        cases hpc

/-- No process has more than two references. -/
theorem few (h : HeldInv s) (p : P) : ∑ i, s.io.refs p i ≤ 2 := by
  rw [sum_refs_buf]
  have hp := h.expected p
  cases hs : s.pc p with
  | run t =>
      rw [hs] at hp
      simp [hp.1, IoPc.ref, hp.2.1]
  | read n k =>
      rw [hs] at hp
      obtain ⟨bs, hroom, -, ⟨-, hheld⟩ | ⟨hidle, b, hheld⟩⟩ := hp
      · rw [hheld]
        split <;> omega
      · simp [hidle, IoPc.ref, hheld]
        omega

/-- All references together. -/
theorem total (h : HeldInv s) : ∑ i, (s.io.blocks i).refcnt ≤ 2 * Fintype.card P := by
  calc ∑ i, (s.io.blocks i).refcnt = ∑ i, ∑ p, s.io.refs p i :=
        Finset.sum_congr rfl fun i _ => h.cache.refs.refcnt i
    _ = ∑ p, ∑ i, s.io.refs p i := Finset.sum_comm
    _ ≤ ∑ _p : P, 2 := Finset.sum_le_sum fun p _ => h.few p
    _ = 2 * Fintype.card P := by
        rw [Finset.sum_const_nat fun _ _ => rfl, Finset.card_univ, Nat.mul_comm]

theorem refcnt_le (h : HeldInv s) (i : Buf) : (s.io.blocks i).refcnt ≤ 2 * Fintype.card P :=
  (Finset.single_le_sum (f := fun i => (s.io.blocks i).refcnt) (fun _ _ => Nat.zero_le _)
    (Finset.mem_univ i)).trans h.total

/-- A free buffer is left. -/
theorem room (h : HeldInv s) (hcard : Fintype.card P ≤ NPROC - 1) (n : ℕ) : s.io.bget n ≠ none := by
  intro hnone
  unfold IoSt.bget at hnone
  split at hnone
  next => cases hnone
  next =>
    rw [Option.map_eq_none_iff] at hnone
    have hbusy : ∀ i, 1 ≤ (s.io.blocks i).refcnt := by
      intro i
      have hi := not_of_first hnone i
      simp only [h.cache.clean i, and_true, decide_eq_false_iff_not] at hi
      omega
    have hsum := Finset.sum_le_sum fun i (_ : i ∈ Finset.univ) => hbusy i
    have htotal := h.total
    rw [← Fintype.card_eq_sum_ones, Fintype.card_fin] at hsum
    simp only [NPROC] at hcard
    simp only [NBLOCK] at hsum htotal
    omega

/-- No reference count comes near its limit. -/
theorem refcnt_lt (h : HeldInv s) (hcard : Fintype.card P ≤ NPROC - 1) (i : Buf) :
    (s.io.blocks i).refcnt + 1 < 65536 := by
  have hle := h.refcnt_le i
  simp only [NPROC] at hcard
  omega

theorem safeRef (h : HeldInv s) (hcard : Fintype.card P ≤ NPROC - 1) (pc : IoPc) :
    SafeRef s.io pc := by
  cases pc with
  | bget n => exact fun i _ => h.refcnt_lt hcard i
  | _ => trivial

variable [DecidableEq P]

/-- **Every statement** keeps the cache in order, and the references as they are expected. -/
theorem move (h : HeldInv s) (hcard : Fintype.card P ≤ NPROC - 1)
    (hcode : ∀ p c, Gives (routine p c) []) (hmove : FsMove routine p s t) : HeldInv t := by
  have hio : ∀ {call io}, s.io.next p call = some io → CacheInv io := fun hnext =>
    h.cache.next (h.safeRef hcard _) (h.noWrite p) hnext
  -- The other processes stay where they are.
  suffices hp : CacheInv t.io ∧ Expected t p (t.pc p) by
    refine ⟨hp.1, fun q => ?_⟩
    by_cases hq : q = p
    · subst hq
      exact hp.2
    · obtain ⟨hpc, hiopc, hheld⟩ := hmove.other hq
      rw [hpc]
      exact (h.expected q).congr hiopc hheld
  have hp := h.expected p
  cases hmove with
  | start c hpc =>
      rw [hpc] at hp
      obtain ⟨hidle, -, hnil⟩ := hp
      refine ⟨h.cache, ?_⟩
      simp only [FsSt.goto, Function.update_self, Expected, hidle, true_and]
      rw [show s.io.held p = [] from hnil]
      exact ⟨by decide, hcode p c⟩
  | atom f k sh hpc _ =>
      rw [hpc] at hp
      obtain ⟨hidle, hlen, hgives⟩ := hp
      refine ⟨h.cache, ?_⟩
      simp only [FsSt.goto, Function.update_self]
      exact ⟨hidle, hlen, hgives s.sh⟩
  | load b k hpc =>
      rw [hpc] at hp
      obtain ⟨hidle, hlen, hgives⟩ := hp
      refine ⟨h.cache, ?_⟩
      simp only [FsSt.goto, Function.update_self]
      exact ⟨hidle, hlen, hgives _⟩
  | bget n k io b bs hpc ht hheld =>
      rw [hpc] at hp
      obtain ⟨-, -, hroom, hgives⟩ := hp
      refine ⟨h.cache.take (fun i _ => h.refcnt_lt hcard i) ht, ?_⟩
      obtain ⟨hidle, i, c, -, rfl⟩ := take_cases ht
      obtain ⟨rfl, rfl⟩ : (n, i) = b ∧ s.io.held p = bs := by simpa using hheld
      simp only [FsSt.goto, Function.update_self, Expected, IoSt.setHeld_held, List.length_cons]
      exact ⟨hidle, hroom, hgives i⟩
  | bread n k io hpc hnext =>
      rw [hpc] at hp
      obtain ⟨-, -, hroom, hgives⟩ := hp
      refine ⟨hio hnext, ?_⟩
      obtain ⟨-, rfl⟩ := bread_cases hnext
      simp only [FsSt.goto, Function.update_self]
      exact ⟨_, hroom, hgives, .inl ⟨by simp [IoPc.reads], rfl⟩⟩
  | brelse n b k io hpc hnext =>
      rw [hpc] at hp
      obtain ⟨hidle, hlen, hmem, hgives⟩ := hp
      refine ⟨hio hnext, ?_⟩
      simp only [IoSt.next, hidle, hmem, if_true, Option.some.injEq] at hnext
      subst hnext
      simp only [FsSt.goto, Function.update_self, Expected, IoSt.setHeld_held, IoSt.setHeld_pc,
        IoSt.setBlock_pc]
      exact ⟨hidle, (List.length_erase_le).trans hlen, hgives⟩
  | store n b f k io hpc hnext =>
      rw [hpc] at hp
      obtain ⟨hidle, hlen, hmem, hgives⟩ := hp
      refine ⟨hio hnext, ?_⟩
      simp only [IoSt.next, hidle, hmem, if_true, Option.some.injEq] at hnext
      subst hnext
      simp only [FsSt.goto, Function.update_self]
      exact ⟨hidle, hlen, hgives⟩
  | go n k io hpc hidle hnext =>
      rw [hpc] at hp
      obtain ⟨bs, hroom, hgives, hstage⟩ := hp
      obtain ⟨hreads, hheld⟩ := hstage.resolve_right fun h => hidle h.1
      refine ⟨hio hnext, ?_⟩
      simp only [hpc]
      refine ⟨bs, hroom, hgives, ?_⟩
      rcases reads_move (Fs.next_cases hnext) hreads with ⟨hr, hb⟩ | ⟨hi, b, hb⟩
      · exact .inl ⟨hr, hb.trans hheld⟩
      · exact .inr ⟨hi, b, by rw [hb, hheld]⟩
  | done n k b bs hpc hidle hheld =>
      rw [hpc] at hp
      obtain ⟨bs', hroom, hgives, hstage⟩ := hp
      refine ⟨h.cache, ?_⟩
      rcases hstage with ⟨hreads, -⟩ | ⟨-, c, hc⟩
      · rw [hidle] at hreads
        cases hreads
      · obtain ⟨rfl, rfl⟩ : b = (n, c) ∧ bs = bs' := by simpa [hheld] using hc
        simp only [FsSt.goto, Function.update_self, Expected, hheld, List.length_cons]
        exact ⟨hidle, hroom, hgives c⟩

omit [DecidableEq P] in
theorem intr (h : HeldInv s) {io : IoSt P Sector} (hintr : s.io.ideintr = some io) :
    HeldInv { s with io } := by
  have hi := ideintr_interrupt hintr
  exact ⟨h.cache.intr hintr, fun q =>
    (h.expected q).congr (congrFun hi.pc q) (congrFun hi.held q)⟩

end HeldInv

omit [Fintype P] in
/-- A statement leaves the block numbers of buffers with references alone. -/
theorem FsMove.blockno [DecidableEq P] (h : FsMove routine p s t) {i : Buf}
    (hi : 0 < (s.io.blocks i).refcnt) : (t.io.blocks i).blockno = (s.io.blocks i).blockno := by
  cases h with
  | start | load | done | atom => rfl
  | bget n k io b bs hpc ht _ => exact blockno_of_take ht hi
  | bread n k io hpc hio | brelse n b k io hpc hio | store n b f k io hpc hio
  | go n k io hpc _ hio => exact (Fs.next_cases hio).blockno hi

end Inv

/-- What the processes call. -/
inductive FsCmd
  | readi (ip : InodeId) (dst : Bytes) (offset size : ℕ)
  | writei (ip : InodeId) (src : Bytes) (offset size : ℕ)
  | iget (inum : ℕ)
  | irelse (ip : InodeId)
  | namei (path : Option (List UInt8))

/-- The code of a call. -/
def FsCmd.code (devsw : ℕ → Devsw) (rootdir : ℕ) : FsCmd → Code Table Unit
  | .readi ip dst offset size => do let _ ← Routine.readi id devsw ip dst offset size
  | .writei ip src offset size => do let _ ← Routine.writei id devsw ip src offset size
  | .iget inum => do let _ ← Routine.iget inum
  | .irelse ip => Routine.irelse ip
  | .namei path => do let _ ← Routine.namei rootdir path

theorem FsCmd.gives (devsw : ℕ → Devsw) (rootdir : ℕ) (c : FsCmd) : Gives (c.code devsw rootdir) [] := by
  have hroom : ([] : Held).length < 2 := by decide
  cases c with
  | readi ip dst offset size => exact Thread.wp_bind.mpr (refs_readi hroom dst offset size)
  | writei ip src offset size => exact Thread.wp_bind.mpr (refs_writei hroom src offset size)
  | iget inum => exact Thread.wp_bind.mpr (refs_iget hroom inum)
  | irelse ip => exact fun _ => rfl
  | namei path => exact Thread.wp_bind.mpr (refs_namei rootdir path)

/-- The buffers as the processes should find them. -/
structure CacheOk {P σ : Type} [Fintype P] (s : FsSt P σ) : Prop where
  /-- The counts are the references of the processes. -/
  refcnt : ∀ i, (s.io.blocks i).refcnt = ∑ p, s.io.refs p i
  /-- No two buffers with references are for the same block. -/
  unique : ∀ i j, 0 < (s.io.blocks i).refcnt → 0 < (s.io.blocks j).refcnt →
    (s.io.blocks i).blockno = (s.io.blocks j).blockno → i = j
  /-- Nobody has more than two references. -/
  few : ∀ p, ∑ i, s.io.refs p i ≤ 2
  /-- `bget` does not run out of buffers. -/
  room : ∀ n, s.io.bget n ≠ none

section Runs
variable {P : Type} [DecidableEq P] [Fintype P]

/-- The processes, with the routines they call. -/
def cacheUni (P : Type) [DecidableEq P] (devsw : ℕ → Devsw) (rootdir : ℕ) :
    Uni P (FsEvent FsCmd) (FsSt P Table) := fsUni fun _ c => c.code devsw rootdir

/-- **The buffer cache** in every run of fewer than `NPROC` processes: its counts are exact,
buffers with references are for different blocks and keep them, and some buffer is free. -/
theorem cache_ok (hcard : Fintype.card P ≤ NPROC - 1) (devsw : ℕ → Devsw) (rootdir : ℕ)
    (stat : P → ProcStat) (zero : Sector) (sectors : ℕ → Sector) (table : Table) (p : P)
    {s : Cpu P (FsSt P Table)} (h : (cacheUni P devsw rootdir).machine.Reaches
      ⟨p, .start (.init stat zero sectors) table⟩ s) :
    CacheOk s.st ∧ ∀ e t, (cacheUni P devsw rootdir).machine.step s e = some t →
      ∀ i, 0 < (s.st.io.blocks i).refcnt →
        (t.st.io.blocks i).blockno = (s.st.io.blocks i).blockno := by
  have hinv : HeldInv s.st := by
    refine fsUni_invariant h ?_ (fun q st st' hI hmove => ?_) fun st io hI hintr => hI.intr hintr
    · exact ⟨.init stat zero sectors, fun q => ⟨rfl, by simp [FsSt.start, IoSt.init], rfl⟩⟩
    · exact hI.move hcard (fun _ c => c.gives devsw rootdir) hmove
  refine ⟨⟨hinv.cache.refs.refcnt, fun i j => hinv.cache.found.unique, hinv.few,
    hinv.room hcard⟩, fun e t hstep i hi => ?_⟩
  rcases fsUni_cases hstep with hmove | ⟨io, hio, heq⟩ | hsame
  · exact hmove.blockno hi
  · rw [heq]
    exact ((ideintr_interrupt hio).block i).2.2
  · rw [hsame]

end Runs

/-! ### Process 0 looks up a name that is not there -/

/-- An empty inode table. -/
def noInodes : Table := fun _ => ⟨0, 0, false, 0, ⟨0, 0, 0, 0, 0, 0, fun _ => 0⟩⟩

/-- A call of `bread` that reads the disk. -/
def readBlock : List (CpuEvent (Fin 2) (FsEvent FsCmd)) :=
  List.replicate 15 (.exec .go) ++ [.intr] ++ List.replicate 9 (.exec .go)

/-- The root directory is inode 2, the disk is zeroed, and so the name "" is that of inode 0:
`namei` holds block 0 while `iget` reads it. -/
def nameiCommand : List (CpuEvent (Fin 2) (FsEvent FsCmd)) :=
  [.exec (.call (.namei (some []))), .exec .go] ++ readBlock ++ List.replicate 4 (.exec .go) ++
    readBlock ++ List.replicate 7 (.exec .go)

theorem cache_ok_namei : ∃ s : Cpu (Fin 2) (FsSt (Fin 2) Table),
    (cacheUni (Fin 2) (fun _ => ⟨none, none⟩) 2).machine.Reaches
      ⟨0, .start (.init (fun _ => .RUN) (fun _ => 0) fun _ _ => 0) noInodes⟩ s ∧
      (s.st.io.held 0 = [(0, 1), (0, 1)] ∧ (s.st.io.blocks 1).refcnt = 2) ∧ CacheOk s.st := by
  obtain ⟨s, h, hheld⟩ := (cacheUni (Fin 2) (fun _ => ⟨none, none⟩) 2).machine.exists_path_of_run
    (fun _ _ => True) ⟨0, .start (.init (fun _ => .RUN) (fun _ => 0) fun _ _ => 0) noInodes⟩
    nameiCommand (fun s => s.st.io.held 0 = [(0, 1), (0, 1)] ∧ (s.st.io.blocks 1).refcnt = 2)
    (by decide +kernel)
  exact ⟨s, h, hheld, (cache_ok (by decide) _ 2 _ _ _ _ 0 h).1⟩

end Mixv6.Fs.Routine
