import Mixv6.Fs.Routines
import Mixv6.Fs.Store

/-!
# Routines of one process

As long as nobody else uses the buffer cache and the inode table, a routine runs to its end
without another process in between, and `bread` returns a buffer with the data of its block.

## Main definitions

* `World`, `run` — the routines on an inode table and a cache.
* `Clean` — a cache that holds what is on the disk.
* `wp_bread`, `wp_brelse` — the buffers of one process.
* `wp_iget_taken`, `wp_readi` — what it gets from the disk.
-/

namespace Mixv6.Fs.Serial

open Mixv6.Lib Mixv6.Kernel Routine
open Cache (Sector SECTSIZE Loop Devsw Bytes moveOut moveIn toInt cached victim)
open Mixv6.Syscall (Inode InodeId Dinode T_DEV NADDR first of_first not_of_first)

/-- The inode table and the buffer cache. -/
structure World where
  table : Table
  cache : Cache.State

/-- Why a routine does not come to its end. -/
inductive Halt
  | cache (e : Cache.Panic)
  /-- A statement that blocks, or `panic("no rootdir")`. -/
  | stuck
  deriving DecidableEq, Repr

/-- A call on the cache. -/
def onCache {α : Type} (c : Cache.Kern α) : Prog World Halt α :=
  zoom World.cache (fun w cache => { w with cache }) .cache c

/-- What a routine calls. -/
def serve : (c : FsCall) → Prog World Halt c.Reply
  | .bget n => onCache (Cache.bget n)
  | .bread n => onCache (Cache.bread n)
  | .brelse _ b => onCache (Cache.brelse b)
  | .load b => onCache do return ((← get).blocks b).data
  | .store _ b f => onCache (modify fun s =>
      s.setBlock b { s.blocks b with data := f (s.blocks b).data })

/-- A routine from its first statement to its last. -/
def run {α : Type} : Code Table α → Prog World Halt α
  | .ret a => pure a
  | .stop => throw .stuck
  | .atom f k => do
      let w ← get
      match f w.table with
      | none => throw .stuck
      | some table =>
          set { w with table }
          run (k w.table)
  | .call c k => do
      let r ← serve c
      run (k r)

section Rules
variable {α β : Type} {E : Halt → Prop} {w : World} {t : Code Table α} {g : α → Code Table β}

/-- A sequence: the rest runs in the state the first part ends in. -/
@[simp] theorem wp_run_bind {Q : β → World → Prop} :
    wp E (run (t >>= g)) Q w ↔ wp E (run t) (fun a u => wp E (run (g a)) Q u) w := by
  change wp E (run (t.bind g)) Q w ↔ _
  induction t generalizing w with
  | ret a => rw [Thread.bind, run, wp_pure]
  | stop => rw [Thread.bind, run, run, wp_throw, wp_throw]
  | atom f k ih =>
      simp only [Thread.bind, run, wp_bind, wp_get]
      rcases f w.table with _ | table
      · rw [wp_throw, wp_throw]
      · simp only [wp_bind, wp_set, ih]
  | call c k ih => simp only [Thread.bind, run, wp_bind, ih]

@[simp] theorem wp_run_pure {Q : α → World → Prop} {a : α} :
    wp E (run (pure a)) Q w ↔ Q a w := wp_pure

@[simp] theorem wp_run_ite {Q : α → World → Prop} {p : Prop} [Decidable p] {u : Code Table α} :
    wp E (run (if p then t else u)) Q w ↔ if p then wp E (run t) Q w else wp E (run u) Q w := by
  split <;> rfl

@[simp] theorem wp_run_look {Q : Table → World → Prop} :
    wp E (run Thread.look) Q w ↔ Q w.table w := by
  simp [Thread.look, run]

@[simp] theorem wp_run_change {Q : Unit → World → Prop} {f : Table → Table} :
    wp E (run (Thread.change f)) Q w ↔ Q () { w with table := f w.table } := by
  simp [Thread.change, run]

end Rules
/-! ## Buffers -/

/-- Buffers with the references `held`, that hold what is on the disk. -/
structure Clean (disk : ℕ → Sector) (held : List (ℕ × Buf)) (s : Cache.State) : Prop where
  sectors : s.sectors = disk
  refcnt : ∀ i, (s.blocks i).refcnt = held.countP fun x => x.2 = i
  held : ∀ x ∈ held, (s.blocks x.2).valid ∧ (s.blocks x.2).blockno = x.1
  clean : ∀ i, (s.blocks i).dirty = false
  saved : ∀ i, (s.blocks i).valid →
    (s.blocks i).blockno < NSECTOR ∧ (s.blocks i).data = disk (s.blocks i).blockno

section Buffers
variable {disk : ℕ → Sector} {held : List (ℕ × Buf)} {s : Cache.State} {n : ℕ} {i : Buf}

/-- A kernel that starts has read nothing yet. -/
theorem Clean.boot (disk : ℕ → Sector) : Clean disk [] (.boot disk) :=
  ⟨rfl, fun _ => rfl, fun _ hx => absurd hx (List.not_mem_nil), fun _ => rfl,
    fun _ hvalid => by simp [Cache.State.boot] at hvalid⟩

/-- The buffer that is held has the data of its block. -/
theorem Clean.data (h : Clean disk ((n, i) :: held) s) : (s.blocks i).data = disk n := by
  obtain ⟨hvalid, hno⟩ := h.held (n, i) (List.mem_cons_self ..)
  rw [(h.saved i hvalid).2, hno]

/-- A buffer is taken, and filled. -/
theorem Clean.take (h : Clean disk held s) (hn : n < NSECTOR) (hsame : ∀ x ∈ held, x.2 = i → x.1 = n) :
    Clean disk ((n, i) :: held)
      (s.setBlock i ⟨n, true, false, (s.blocks i).refcnt + 1, disk n⟩) where
  sectors := h.sectors
  refcnt j := by
    by_cases hj : j = i
    · subst hj
      simp [h.refcnt]
    · simp [hj, Ne.symm hj, h.refcnt]
  held x hx := by
    by_cases hxi : x.2 = i
    · have hno : x.1 = n := by
        rcases List.mem_cons.mp hx with hx | hx
        · rw [hx]
        · exact hsame x hx hxi
      simp [hxi, hno]
    · rcases List.mem_cons.mp hx with hx | hx
      · exact absurd (congrArg Prod.snd hx) hxi
      · simpa [hxi] using h.held x hx
  clean j := by
    by_cases hj : j = i
    · simp [hj]
    · simpa [hj] using h.clean j
  saved j := by
    by_cases hj : j = i
    · subst hj
      simpa using hn
    · simpa [hj] using h.saved j

/-- The buffer that was taken last is given back. -/
theorem Clean.release (h : Clean disk ((n, i) :: held) s) :
    Clean disk held (s.setBlock i { s.blocks i with refcnt := (s.blocks i).refcnt - 1 }) where
  sectors := h.sectors
  refcnt j := by
    have hj := h.refcnt j
    by_cases hji : j = i
    · subst hji
      simp only [List.countP_cons, decide_true, if_true] at hj
      simp [hj]
    · simpa [hji, Ne.symm hji] using hj
  held x hx := by
    have hx' := h.held x (List.mem_cons_of_mem _ hx)
    by_cases hxi : x.2 = i
    · simpa [hxi] using hx'
    · simpa [hxi] using hx'
  clean j := by
    have hj := h.clean j
    by_cases hji : j = i
    · subst hji
      simpa using hj
    · simpa [hji] using hj
  saved j := by
    have hj := h.saved j
    by_cases hji : j = i
    · subst hji
      simpa using hj
    · simpa [hji] using hj

variable {E : Cache.Panic → Prop}

/-- **`bread`** returns a buffer with the data of the block. -/
theorem Clean.wp_bread (h : Clean disk held s) (hn : n < NSECTOR) (hlen : held.length < 2 ^ 16 - 1)
    (hfree : ∃ i, ∀ x ∈ held, x.2 ≠ i) :
    wp E (Cache.bread n) (fun i t => Clean disk ((n, i) :: held) t) s := by
  have hcount : ∀ i, (s.blocks i).refcnt < 2 ^ 16 - 1 := fun i => by
    have hle : held.countP (fun x => x.2 = i) ≤ held.length := List.countP_le_length
    rw [h.refcnt i]
    omega
  have hunheld : ∀ i, (s.blocks i).refcnt = 0 → ∀ x ∈ held, x.2 ≠ i := by
    intro i hi x hx hxi
    rw [h.refcnt i, List.countP_eq_zero] at hi
    exact hi x hx (by simpa using hxi)
  simp only [Cache.bread, Cache.bget, wp_bind, wp_get]
  rcases hc : cached s n with _ | i
  · rcases hv : victim s with _ | i
    · -- There is a buffer that nobody holds.
      obtain ⟨i, hi⟩ := hfree
      have hno := not_of_first hv i
      have hzero : held.countP (fun x => x.2 = i) = 0 := by
        rw [List.countP_eq_zero]
        simpa using hi
      simp [h.clean i, h.refcnt i, hzero] at hno
    · have hi := of_first hv
      simp only [decide_eq_true_eq] at hi
      have htake := h.take (i := i) hn fun x hx hxi => absurd hxi (hunheld i hi.1 x hx)
      rw [hi.1] at htake
      simp only [wp_bind, wp_set, wp_pure, wp_get, wp_ite, Cache.State.setBlock_blocks,
        Function.update_self, Cache.iderw, wp_throw]
      simp [hn.not_ge, h.sectors]
      exact htake
  · have hi := Cache.blockno_of_cached hc
    have hlt := hcount i
    have htake := h.take (i := i) hn fun x hx hxi => by
      rw [← (h.held x hx).2, hxi, hi]
    have hval : ((s.blocks i).refcnt + 1) % 2 ^ 16 = (s.blocks i).refcnt + 1 :=
      Nat.mod_eq_of_lt (by omega)
    have hdone : (s.blocks i).valid = true → Clean disk ((n, i) :: held)
        (s.setBlock i { s.blocks i with refcnt := (s.blocks i).refcnt + 1 }) := by
      intro hvalid
      have hdata := (h.saved i hvalid).2
      have hdirty := h.clean i
      rw [hi] at hdata
      rw [← hvalid, ← hdirty, ← hdata] at htake
      simpa only [hi] using htake
    simp only [wp_bind, wp_set, wp_pure, wp_get, wp_ite, Cache.State.setBlock_blocks,
      Function.update_self, hval]
    split
    next hheld =>
      -- Another reference is there, so the buffer is valid.
      apply hdone
      have hpos : 0 < held.countP fun x => x.2 = i := by
        rw [← h.refcnt i]
        omega
      obtain ⟨x, hx, hxi⟩ := List.countP_pos_iff.mp hpos
      have hvalid := (h.held x hx).1
      rwa [of_decide_eq_true hxi] at hvalid
    next =>
      split
      next hinvalid =>
        simp only [Cache.iderw, wp_bind, wp_get, wp_ite, wp_throw, wp_set,
          Cache.State.setBlock_blocks, Function.update_self, h.clean i, hi]
        simpa [hinvalid, hn.not_ge, h.sectors] using htake
      next hvalid => exact hdone (by simpa using hvalid)

/-- A block that the drive does not have is in no buffer, and `sendreq` stops in a panic. -/
theorem Clean.wp_bread_high (h : Clean disk held s) (hn : NSECTOR ≤ n) (hE : ∀ e, E e) :
    wp E (Cache.bread n) (fun _ _ => False) s := by
  simp only [Cache.bread, Cache.bget, wp_bind, wp_get]
  rcases hc : cached s n with _ | i
  · rcases hv : victim s with _ | i
    · exact wp_throw.mpr (hE _)
    · simp only [wp_bind, wp_set, wp_pure, wp_get, wp_ite, Cache.State.setBlock_blocks,
        Function.update_self, Cache.iderw, wp_throw]
      simp [hn, hE]
  · have hi := Cache.blockno_of_cached hc
    have hinvalid : (s.blocks i).valid = false := by
      by_contra hvalid
      have hlt := (h.saved i (by simpa using hvalid)).1
      omega
    have hunheld : (s.blocks i).refcnt = 0 := by
      rw [h.refcnt i, List.countP_eq_zero]
      intro x hx hxi
      have hvalid := (h.held x hx).1
      rw [of_decide_eq_true hxi, hinvalid] at hvalid
      cases hvalid
    simp only [wp_bind, wp_set, wp_pure, wp_get, wp_ite, Cache.State.setBlock_blocks,
      Function.update_self, Cache.iderw, wp_throw, hunheld, hinvalid, hi]
    simp [hn, hE]

/-- **`brelse`** gives it back. -/
theorem Clean.wp_brelse (h : Clean disk ((n, i) :: held) s) (hlen : held.length < 2 ^ 16 - 1) :
    wp E (Cache.brelse i) (fun _ t => Clean disk held t) s := by
  have hcount : (s.blocks i).refcnt = held.countP (fun x => x.2 = i) + 1 := by
    rw [h.refcnt i]
    simp
  have hle : held.countP (fun x => x.2 = i) ≤ held.length := List.countP_le_length
  have hval : ((s.blocks i).refcnt + 2 ^ 16 - 1) % 2 ^ 16 = (s.blocks i).refcnt - 1 := by omega
  rw [Cache.brelse, wp_modify, hval]
  exact h.release

end Buffers

/-! ## Calls of a routine -/

section Calls
variable {E : Halt → Prop} {disk : ℕ → Sector} {held : List (ℕ × Buf)}
  {table : Table} {cache : Cache.State} {n : ℕ} {i : Buf}

theorem run_bread : run (bread n) = onCache (Cache.bread n) := bind_pure _

theorem run_brelse : run (brelse n i) = onCache (Cache.brelse i) := bind_pure _

theorem run_load : run (load i) = onCache do return ((← get).blocks i).data := bind_pure _

theorem wp_run_bread (h : Clean disk held cache) (hn : n < NSECTOR)
    (hlen : held.length < 2 ^ 16 - 1) (hfree : ∃ i, ∀ x ∈ held, x.2 ≠ i) :
    wp E (run (bread n)) (fun i u => u.table = table ∧ Clean disk ((n, i) :: held) u.cache) ⟨table, cache⟩ := by
  rw [run_bread, onCache, wp_zoom]
  apply wp_mono (h.wp_bread hn hlen hfree)
  intro i s hs
  exact ⟨rfl, hs⟩

theorem wp_run_bread_high {Q : Buf → World → Prop} (h : Clean disk held cache) (hn : NSECTOR ≤ n)
    (hE : ∀ e, E e) : wp E (run (bread n)) Q ⟨table, cache⟩ := by
  rw [run_bread, onCache, wp_zoom]
  exact wp_mono (h.wp_bread_high hn fun e => hE _) fun _ _ => False.elim

theorem wp_run_brelse (h : Clean disk ((n, i) :: held) cache) (hlen : held.length < 2 ^ 16 - 1) :
    wp E (run (brelse n i)) (fun _ u => u.table = table ∧ Clean disk held u.cache) ⟨table, cache⟩ := by
  rw [run_brelse, onCache, wp_zoom]
  apply wp_mono (h.wp_brelse hlen)
  intro _ s hs
  exact ⟨rfl, hs⟩

theorem wp_run_load (h : Clean disk ((n, i) :: held) cache) {Q : Sector → World → Prop}
    (hQ : Q (disk n) ⟨table, cache⟩) : wp E (run (load i)) Q ⟨table, cache⟩ := by
  rw [run_load, onCache, wp_zoom]
  simpa only [wp_bind, wp_get, wp_pure, h.data] using hQ

end Calls

/-! ## `iget` -/

/-- The inode as it is on the disk. -/
structure Same (d : Dinode) (m : Mem) (a : ℕ) : Prop where
  header : d = { dinodeAt m a with addr := d.addr }
  addr : ∀ k < NADDR, d.addr k = (dinodeAt m a).addr k

/-- The sectors of an image. -/
def onDisk (m : Mem) (n : ℕ) : Sector := fun j => m (SECTSIZE * n + j)

/-- The inodes in the table are those of the image. -/
def Agrees (m : Mem) (t : Table) : Prop :=
  ∀ i, (t i).valid → Same (t i).dinode m (SECTSIZE * (t i).num)

section Iget
variable {m : Mem} {t : Table} {n : ℕ} {i : InodeId} {E : Halt → Prop}
  {held : List (ℕ × Buf)}

theorem bytes_onDisk {a : ℕ} (ha : a < SECTSIZE) :
    bytes (onDisk m n) a = m (SECTSIZE * n + a) := by
  simp only [bytes, onDisk, Fin.val_ofNat, Nat.mod_eq_of_lt ha]

/-- A word of a sector. -/
theorem load32_onDisk {a : ℕ} (ha : a + 4 ≤ SECTSIZE) :
    (bytes (onDisk m n)).load32 a = m.load32 (SECTSIZE * n + a) := by
  rw [← Mem.load32_shift]
  exact Mem.load32_congr fun k hk => bytes_onDisk (by omega)

theorem load16_onDisk {a : ℕ} (ha : a + 2 ≤ SECTSIZE) :
    (bytes (onDisk m n)).load16 a = m.load16 (SECTSIZE * n + a) := by
  rw [← Mem.load16_shift]
  exact Mem.load16_congr fun k hk => bytes_onDisk (by omega)

/-- A copy of the sector. -/
theorem same_copyDinode (d : Dinode) : Same (copyDinode d (onDisk m n)) m (SECTSIZE * n) := by
  have hsect : SECTSIZE = 512 := rfl
  constructor
  · simp only [copyDinode, dinodeAt, Nat.zero_add, Dinode.mk.injEq, and_true]
    refine ⟨?_, ?_, ?_, ?_, ?_, ?_⟩
    · exact load16_onDisk (by omega)
    · exact load16_onDisk (by omega)
    · exact load16_onDisk (by omega)
    · exact load16_onDisk (by omega)
    · exact load32_onDisk (by omega)
    · exact load32_onDisk (by omega)
  · intro k hk
    simp only [NADDR] at hk
    simp only [copyDinode, dinodeAt, NADDR, if_pos hk, Nat.zero_add, Nat.add_assoc]
    exact load32_onDisk (by omega)

/-- What `iget` has found: the inode of the image, in an entry that is shared, or that another
`irelse` gives back. -/
structure Got (m : Mem) (n : ℕ) (i : InodeId) (t : Table) : Prop where
  agrees : Agrees m t
  same : Same (t i).dinode m (SECTSIZE * n)
  room : (t i).refcnt = 1 ∨ ∃ j, j ≠ i ∧ (t j).valid = false

/-- The table after `iget` has returned an entry, against the one before. -/
structure Taken (m : Mem) (n : ℕ) (i : InodeId) (t t' : Table) : Prop where
  agrees : Agrees m t'
  same : Same (t' i).dinode m (SECTSIZE * n)
  valid : (t' i).valid = true
  num : (t' i).num = n
  others : ∀ k, k ≠ i → t' k = t k
  count : (t i).valid = true ∧ (t' i).refcnt = ((t i).refcnt + 1) % 2 ^ 16 ∨
    (t i).valid = false ∧ (t' i).refcnt = 1

/-- The inodes in the table have numbers of sectors. -/
def Numbered (t : Table) : Prop := ∀ i, (t i).valid = true → (t i).num < NSECTOR

theorem Taken.numbered {t' : Table} (h : Taken m n i t t') (hn : n < NSECTOR) (ht : Numbered t) :
    Numbered t' := by
  intro k hk
  by_cases hki : k = i
  · rw [hki, h.num]
    exact hn
  · rw [h.others k hki] at hk ⊢
    exact ht k hk

/-- `iget` does not end for a number that is that of no sector. -/
theorem wp_iget_high {table : Table} {cache : Cache.State} {Q : Option InodeId → World → Prop}
    (hnums : Numbered table) (hroom : ∃ i, (table i).valid = false) (h : Clean (onDisk m) held cache)
    (hn : NSECTOR ≤ n) (hE : ∀ e, E e) : wp E (run (iget n)) Q ⟨table, cache⟩ := by
  obtain ⟨j, hj⟩ := hroom
  simp only [iget, run, wp_bind, wp_get, wp_set]
  rcases hfound : table.found n with _ | i
  · rcases hnone : table.free with _ | i
    · have hno := not_of_first hnone j
      simp [hj] at hno
    · simp only [Table.iget, hfound, hnone, wp_run_bind]
      exact wp_run_bread_high h hn hE
  · have hi := of_first hfound
    simp only [Bool.and_eq_true, beq_iff_eq] at hi
    have hlt := hnums i hi.1
    omega

/-- **`iget`** finds the inode, or reads it. -/
theorem wp_iget_taken {table : Table} {cache : Cache.State} (hagrees : Agrees m table)
    (hroom : ∃ i, (table i).valid = false)
    (h : Clean (onDisk m) held cache) (hn : n < NSECTOR) (hlen : held.length < 2 ^ 16 - 1)
    (hfree : ∃ i, ∀ x ∈ held, x.2 ≠ i) :
    wp E (run (iget n)) (fun r u => ∃ i, r = some i ∧ Taken m n i table u.table ∧
      Clean (onDisk m) held u.cache) ⟨table, cache⟩ := by
  obtain ⟨j, hj⟩ := hroom
  simp only [iget, run, wp_bind, wp_get, wp_set]
  rcases hfound : table.found n with _ | i
  · rcases hnone : table.free with _ | i
    · have hno := not_of_first hnone j
      simp [hj] at hno
    · have hi : (table i).valid = false := by simpa using of_first hnone
      simp only [Table.iget, hfound, hnone, wp_run_bind]
      apply wp_mono (wp_run_bread h hn hlen hfree)
      rintro b ⟨table₁, cache₁⟩ ⟨rfl, hclean⟩
      apply wp_run_load hclean
      rw [wp_run_change]
      apply wp_mono (wp_run_brelse hclean hlen)
      rintro _ ⟨table₂, cache₂⟩ ⟨rfl, hclean'⟩
      rw [wp_run_pure]
      refine ⟨i, rfl, ⟨fun k hk => ?_, ?_, ?_, ?_, fun k hki => ?_, .inr ⟨hi, ?_⟩⟩, hclean'⟩
      · by_cases hki : k = i
        · subst hki
          simp only [Function.update_self]
          exact same_copyDinode _
        · simp only [Function.update_of_ne hki] at hk ⊢
          exact hagrees k hk
      · simp only [Function.update_self]
        exact same_copyDinode _
      · simp
      · simp
      · simp [hki]
      · simp
  · have hi := of_first hfound
    simp only [Bool.and_eq_true, beq_iff_eq] at hi
    simp only [Table.iget, hfound, wp_run_pure]
    refine ⟨i, rfl, ⟨fun k hk => ?_, ?_, ?_, ?_, fun k hki => ?_, .inl ⟨hi.1, ?_⟩⟩, h⟩
    · by_cases hki : k = i
      · subst hki
        simp only [Function.update_self]
        exact hagrees k hi.1
      · simp only [Function.update_of_ne hki] at hk ⊢
        exact hagrees k hk
    · simp only [Function.update_self]
      rw [← hi.2]
      exact hagrees i hi.1
    · simpa using hi.1
    · simpa using hi.2
    · simp [hki]
    · simp

/-- An entry that is free before leaves room for the `irelse`. -/
theorem Taken.got {t' : Table} (h : Taken m n i t t') (hroom : ∃ j, (t j).valid = false) :
    Got m n i t' := by
  obtain ⟨j, hj⟩ := hroom
  refine ⟨h.agrees, h.same, ?_⟩
  rcases h.count with ⟨hvalid, -⟩ | ⟨-, hone⟩
  · have hji : j ≠ i := by
      rintro rfl
      rw [hj] at hvalid
      exact Bool.false_ne_true hvalid
    exact .inr ⟨j, hji, by rw [h.others j hji, hj]⟩
  · exact .inl hone

/-- `irelse` of an inode that `iget` has just returned leaves a free entry. -/
theorem Got.irelse (h : Got m n i t) :
    Agrees m (Function.update t i (if 1 < (t i).refcnt then { t i with refcnt := (t i).refcnt - 1 }
      else { t i with valid := false })) ∧
    ∃ j, (Function.update t i (if 1 < (t i).refcnt then { t i with refcnt := (t i).refcnt - 1 }
      else { t i with valid := false }) j).valid = false := by
  constructor
  · intro k hk
    by_cases hki : k = i
    · subst hki
      rw [Function.update_self] at hk ⊢
      split at hk
      next hshared =>
        rw [if_pos hshared]
        exact h.agrees k hk
      next => cases hk
    · rw [Function.update_of_ne hki] at hk ⊢
      exact h.agrees k hk
  · rcases h.room with hone | ⟨j, hji, hj⟩
    · refine ⟨i, ?_⟩
      rw [Function.update_self, if_neg (by omega)]
    · refine ⟨j, ?_⟩
      rw [Function.update_of_ne hji]
      exact hj

end Iget

/-! ## `readi` -/

section Read
variable {E : Halt → Prop} {table : Table} {cache : Cache.State} {disk : ℕ → Sector} {ip : InodeId} {devsw : ℕ → Devsw}

/-- A byte of a file on the disk. -/
def fileByte (disk : ℕ → Sector) (d : Dinode) (k : ℕ) : UInt8 :=
  disk (d.addr (k / SECTSIZE)) (Fin.ofNat SECTSIZE k)

theorem wp_readTurns {size : ℕ} {l : Loop} {dst : Bytes} (h : Clean disk [] cache)
    (haddr : ∀ k < size, (table ip).dinode.addr (k / SECTSIZE) < NSECTOR) (hoff : l.offset = l.cnt)
    (hread : ∀ k < l.cnt, dst k = fileByte disk (table ip).dinode k) (hle : l.cnt ≤ size) :
    wp E (run (readTurns id ip size l dst)) (fun r u => u.table = table ∧ Clean disk [] u.cache ∧
      ∀ k < size, r k = fileByte disk (table ip).dinode k) ⟨table, cache⟩ := by
  induction hn : size - l.cnt using Nat.strong_induction_on generalizing l dst cache with
  | _ n ih =>
  subst hn
  rw [readTurns]
  split
  next hlt =>
    have hpos := Loop.m_pos hlt
    obtain ⟨hm, hblock⟩ := Loop.m_le hlt
    simp only [wp_run_bind, wp_run_look, id]
    apply wp_mono (wp_run_bread h (by rw [hoff]; exact haddr _ hlt) (by decide) ⟨0, by simp⟩)
    rintro b ⟨_, cache₁⟩ ⟨rfl, hclean⟩
    apply wp_run_load hclean
    apply wp_mono (wp_run_brelse hclean (by decide))
    rintro _ ⟨_, cache₂⟩ ⟨rfl, hclean'⟩
    apply ih (size - (l.next size).cnt) _ hclean'
    · simp only [Loop.next, hoff]
    · intro k hk
      simp only [Loop.next] at hk
      simp only [moveOut]
      split
      next hin =>
        have hsect : SECTSIZE = 512 := rfl
        rw [hsect] at hblock
        have hdiv : k / 512 = l.offset / 512 := by omega
        have hmod : (l.offset % 512 + (k - l.cnt)) % 512 = k % 512 := by omega
        simp only [fileByte, hsect, hdiv]
        exact congrArg _ (Fin.ext hmod)
      next hout => exact hread k (by omega)
    · exact hm
    · rfl
    · simp only [Loop.next]
      omega
  next hge =>
    rw [wp_run_pure]
    exact ⟨rfl, h, fun k hk => hread k (by omega)⟩

/-- **`readi`** of a whole file. -/
theorem wp_readi {dst : Bytes} (h : Clean disk [] cache)
    (htype : (table ip).dinode.type ≠ T_DEV)
    (hsize : (table ip).dinode.size < 2 ^ 31)
    (haddr : ∀ k < (table ip).dinode.size, (table ip).dinode.addr (k / SECTSIZE) < NSECTOR) :
    wp E (run (readi id devsw ip dst 0 (table ip).dinode.size)) (fun r u => u.table = table ∧
      Clean disk [] u.cache ∧ r.1 = (table ip).dinode.size ∧
      ∀ k < (table ip).dinode.size, r.2 k = fileByte disk (table ip).dinode k) ⟨table, cache⟩ := by
  have hacc : ¬ ((table ip).dinode.size < 0 ∨
      (0 + (table ip).dinode.size) % 2 ^ 32 < 0 ∨ NADDR ≤ 0 / SECTSIZE) := by
    simp [NADDR]
  simp only [readi, wp_run_bind, wp_run_look, id, wp_run_ite, if_neg htype, if_neg hacc]
  rw [if_neg (by omega), wp_run_pure]
  apply wp_mono (wp_readTurns h haddr rfl (fun k hk => absurd hk (Nat.not_lt_zero k)) (Nat.zero_le _))
  rintro r u ⟨htable, hclean, hread⟩
  rw [wp_run_pure]
  exact ⟨htable, hclean, by rw [toInt, if_pos hsize], hread⟩

end Read
end Mixv6.Fs.Serial
