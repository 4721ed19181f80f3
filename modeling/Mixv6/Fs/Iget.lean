import Mixv6.Fs.Bread
import Mixv6.Syscall.Tables

/-!
# The inode table

`ialloc`, `iget`, `irelse` and `idup` of `fs/inode.c`, called by any number of processes over
the buffer cache and the disk.  The loops over the table run with interrupts off and are one
statement each, and so is the copy of the 512 bytes of an inode; between taking an entry and
filling it `iget` runs `bread`, statement by statement.

## Main definitions

* `IgetSt`, `IgetSt.next` — the table, and the statements of the processes.
* `IgetOk` — what a reference that `iget` has returned should stand for.
* `SafeIget` — the statements that find no entry that has not been read.
* `iget_loaded` — in a run of such statements, references stand for what they should.
-/

namespace Mixv6.Fs

open Mixv6.Lib Mixv6.Kernel
open Mixv6.Syscall (Inode Dinode InodeId first of_first not_of_first)

/-- Where a process stands in `iget`, after it has taken entry `i` for inode number `n`. -/
inductive IgetPc
  /-- Outside. -/
  | idle
  /-- Before `bread(n)`. -/
  | bread (n : ℕ) (i : InodeId)
  /-- In `bread(n)`, or before the copy of what it has returned. -/
  | copy (n : ℕ) (i : InodeId)
  /-- Before `brelse(b)` and the return. -/
  | brelse (n : ℕ) (i : InodeId) (b : Buf)
  deriving DecidableEq, Repr

/-- The number and the entry. -/
def IgetPc.taken : IgetPc → Option (ℕ × InodeId)
  | .idle => none
  | .bread n i | .copy n i | .brelse n i _ => some (n, i)

/-- The entry whose contents have not been read. -/
def IgetPc.unread : IgetPc → Option InodeId
  | .bread _ i | .copy _ i => some i
  | .idle | .brelse .. => none

/-- A reference that `iget` has returned for a number, or `ialloc` for none. -/
structure Ref where
  num : Option ℕ
  ip : InodeId
  deriving DecidableEq, Repr

/-- What a process does next. -/
inductive IgetCall
  /-- Nothing: the call in progress goes on. -/
  | go
  | bread (n : ℕ)
  | brelse (n : ℕ) (b : Buf)
  | ialloc
  | iget (n : ℕ)
  /-- `idup` of a reference. -/
  | idup (r : Ref)
  /-- `irelse` of a reference. -/
  | irelse (r : Ref)

/-- The table over the buffers and the disk.  `refs`, `busy` and `device` record what no code
reads: the references that have been returned and not been given back, the entries that an
`iget` has taken and not yet returned, and the entries that `ialloc` has made. -/
structure IgetSt (P : Type) where
  io : IoSt P Dinode
  inode : InodeId → Inode
  pc : P → IgetPc
  refs : List Ref
  busy : InodeId → Bool
  device : InodeId → Bool

namespace IgetSt
variable {P : Type}

/-- The table is zeroed. -/
def init (stat : P → ProcStat) (zero : Dinode) (sectors : ℕ → Dinode) : IgetSt P where
  io := .init stat zero sectors
  inode _ := ⟨0, 0, false, 0, zero⟩
  pc _ := .idle
  refs := []
  busy _ := false
  device _ := false

def setInode (s : IgetSt P) (i : InodeId) (x : Inode) : IgetSt P :=
  { s with inode := Function.update s.inode i x }

/-- The entry that the first loop of `iget` finds. -/
def found (s : IgetSt P) (n : ℕ) : Option InodeId :=
  first fun i => (s.inode i).valid && (s.inode i).num == n

/-- The entry that `ialloc`, and the second loop of `iget`, take. -/
def free (s : IgetSt P) : Option InodeId := first fun i => ¬ (s.inode i).valid

/-- `ialloc`. -/
def ialloc (s : IgetSt P) : IgetSt P :=
  match s.free with
  | none => s
  | some i =>
      { s.setInode i { s.inode i with valid := true, refcnt := 1 } with
        refs := ⟨none, i⟩ :: s.refs
        device := Function.update s.device i true }

/-- Another reference to an entry: `refcnt++`. -/
def share (s : IgetSt P) (r : Ref) : IgetSt P :=
  { s.setInode r.ip { s.inode r.ip with refcnt := ((s.inode r.ip).refcnt + 1) % 2 ^ 16 } with
    refs := r :: s.refs }

/-- `irelse`. -/
def irelse (s : IgetSt P) (r : Ref) : IgetSt P :=
  let x := s.inode r.ip
  { s.setInode r.ip (if 1 < x.refcnt then { x with refcnt := x.refcnt - 1 }
      else { x with valid := false }) with
    refs := s.refs.erase r }

variable [DecidableEq P]

/-- The two loops of `iget`. -/
def iget (s : IgetSt P) (p : P) (n : ℕ) : IgetSt P :=
  match s.found n with
  | some i => s.share ⟨some n, i⟩
  | none =>
      match s.free with
      | none => s
      | some i =>
          { s.setInode i { s.inode i with valid := true, num := n, refcnt := 1, devno := 0 } with
            pc := Function.update s.pc p (.bread n i)
            busy := Function.update s.busy i true
            device := Function.update s.device i false }

/-- The next statement of `p`. -/
def next (p : P) (call : IgetCall) (s : IgetSt P) : Option (IgetSt P) :=
  match s.pc p with
  | .idle =>
      match call with
      | .go => (s.io.next p .go).map fun io => { s with io }
      | .bread n => (s.io.next p (.bread n)).map fun io => { s with io }
      | .brelse n b => (s.io.next p (.brelse n b)).map fun io => { s with io }
      | .ialloc => if s.io.pc p = .idle then some s.ialloc else none
      | .iget n => if s.io.pc p = .idle then some (s.iget p n) else none
      | .idup r => if s.io.pc p = .idle ∧ r ∈ s.refs then some (s.share r) else none
      | .irelse r => if s.io.pc p = .idle ∧ r ∈ s.refs then some (s.irelse r) else none
  | .bread n i => (s.io.next p (.bread n)).map fun io =>
      { s with io, pc := Function.update s.pc p (.copy n i) }
  | .copy n i =>
      if s.io.pc p = .idle then
        -- `bread` has returned the buffer that was added last.
        (s.io.held p).head?.map fun b =>
          { s.setInode i { s.inode i with dinode := (s.io.blocks b.2).data } with
            pc := Function.update s.pc p (.brelse n i b.2) }
      else (s.io.next p .go).map fun io => { s with io }
  | .brelse n i b => (s.io.next p (.brelse n b)).map fun io =>
      { s with
        io
        pc := Function.update s.pc p .idle
        refs := ⟨some n, i⟩ :: s.refs
        busy := Function.update s.busy i false }

omit [DecidableEq P] in
@[simp] theorem ialloc_io (s : IgetSt P) : s.ialloc.io = s.io := by
  unfold ialloc
  split <;> rfl

@[simp] theorem iget_io (s : IgetSt P) (p : P) (n : ℕ) : (s.iget p n).io = s.io := by
  unfold iget
  split
  · rfl
  · split <;> rfl

end IgetSt

/-- The processor, with the interrupts of the drive. -/
def igetUni (P : Type) [DecidableEq P] : Uni P IgetCall (IgetSt P) where
  next := IgetSt.next
  runnable s _ q := s.io.tab.stat q = .RUN
  intr s := s.io.ideintr.map fun io => { s with io }

/-- What a reference that `iget(n)` has returned should stand for: a valid entry for inode `n`,
with the contents of sector `n`, and the only one. -/
structure Loaded {P : Type} (s : IgetSt P) (n : ℕ) (i : InodeId) : Prop where
  valid : (s.inode i).valid
  num : (s.inode i).num = n
  device : s.device i = false
  dinode : (s.inode i).dinode = s.io.sectors n
  only : ∀ j, (s.inode j).valid → s.device j = false → (s.inode j).num = n → j = i

/-- Every reference stands for what it should. -/
def IgetOk {P : Type} (s : IgetSt P) : Prop := ∀ n i, ⟨some n, i⟩ ∈ s.refs → Loaded s n i

/-- A process has taken the entry and not yet copied its contents. -/
def Unread {P : Type} (s : IgetSt P) (i : InodeId) : Prop := ∃ p, (s.pc p).unread = some i

/-- What a statement of `p` needs, at `pc`: `iget` finds an entry only if `iget` has made it and
its contents have been read, no count overflows, and the `bread` of the processes meets the
conditions of `SafeRead`. -/
def SafeCall {P : Type} [DecidableEq P] (s : IgetSt P) (p : P) : IgetPc → IgetCall → Prop
  | .idle, .go => SafeRead ⟨p, s.io⟩ (.exec .go)
  | .idle, .bread n => SafeRead ⟨p, s.io⟩ (.exec (.bread n))
  | .idle, .brelse n b => SafeRead ⟨p, s.io⟩ (.exec (.brelse n b))
  | .idle, .iget n => ∀ i, s.found n = some i →
      s.device i = false ∧ ¬ Unread s i ∧ (s.inode i).refcnt + 1 < 2 ^ 16
  | .idle, .idup r => (s.inode r.ip).refcnt + 1 < 2 ^ 16
  | .idle, .ialloc | .idle, .irelse _ => True
  | .bread n _, _ => SafeRead ⟨p, s.io⟩ (.exec (.bread n))
  | .copy _ _, _ => s.io.pc p ≠ .idle → SafeRead ⟨p, s.io⟩ (.exec .go)
  | .brelse n _ b, _ => SafeRead ⟨p, s.io⟩ (.exec (.brelse n b))

/-- Every statement meets its condition, and the drive interrupts only a sleeping requester. -/
def SafeIget {P : Type} [DecidableEq P] (s : Cpu P (IgetSt P)) : CpuEvent P IgetCall → Prop
  | .exec call => SafeCall s.st s.cur (s.st.pc s.cur) call
  | .switch _ => True
  | .intr => SafeIntr s.st.io

section Decidable
variable {P : Type} [DecidableEq P] [Fintype P]

instance decidableUnread (s : IgetSt P) (i : InodeId) : Decidable (Unread s i) :=
  inferInstanceAs (Decidable (∃ _, _ = _))

instance decidableSafeCall (s : IgetSt P) (p : P) :
    ∀ pc call, Decidable (SafeCall s p pc call)
  | .idle, .go => inferInstanceAs (Decidable (SafeRead ⟨p, s.io⟩ (.exec .go)))
  | .idle, .bread n | .bread n _, _ =>
      inferInstanceAs (Decidable (SafeRead ⟨p, s.io⟩ (.exec (.bread n))))
  | .idle, .brelse n b | .brelse n _ b, _ =>
      inferInstanceAs (Decidable (SafeRead ⟨p, s.io⟩ (.exec (.brelse n b))))
  | .idle, .iget _ => inferInstanceAs (Decidable (∀ _, _ → _ ∧ _ ∧ _))
  | .idle, .idup _ => inferInstanceAs (Decidable (_ < _))
  | .idle, .ialloc | .idle, .irelse _ => .isTrue trivial
  | .copy .., _ => inferInstanceAs (Decidable (_ → SafeRead ⟨p, s.io⟩ (.exec .go)))

instance decidableSafeIget (s : Cpu P (IgetSt P)) :
    ∀ e : CpuEvent P IgetCall, Decidable (SafeIget s e)
  | .exec _ => inferInstanceAs (Decidable (SafeCall ..))
  | .switch _ => .isTrue trivial
  | .intr => inferInstanceAs (Decidable (∀ r ∈ s.st.io.disk, _))

end Decidable

/-! ## The invariant -/

section Inv
variable {P : Type} {s t : IgetSt P} {p q : P} {n : ℕ} {i j : InodeId} {r : Ref}

/-- The count of a valid entry. -/
def liveCount (x : Inode) : ℕ := if x.valid then x.refcnt else 0

/-- The references to an entry that have been returned. -/
def refsTo (s : IgetSt P) (i : InodeId) : ℕ := s.refs.countP fun r => r.ip = i

/-- Process `p` is in `bread(n)`, or has just returned from it. -/
def Reading (n : ℕ) (p : P) (io : IoSt P Dinode) : Prop :=
  (io.pc p).reads = some n ∨ io.pc p = .idle ∧ ∃ b bs, io.held p = (n, b) :: bs

/-- The table counts its references, who has taken an entry is alone, and an entry that is not
being read has the contents of its sector. -/
structure IgetInv (s : IgetSt P) : Prop where
  count : ∀ i, liveCount (s.inode i) = refsTo s i + if s.busy i then 1 else 0
  bound : ∀ i, (s.inode i).valid → 0 < (s.inode i).refcnt ∧ (s.inode i).refcnt < 2 ^ 16
  taken : ∀ p x, (s.pc p).taken = some x →
    s.busy x.2 ∧ (s.inode x.2).num = x.1 ∧ s.device x.2 = false
  one : ∀ p q x y, (s.pc p).taken = some x → (s.pc q).taken = some y → x.2 = y.2 → p = q
  loaded : ∀ i, (s.inode i).valid → s.device i = false → ¬ Unread s i →
    (s.inode i).dinode = s.io.sectors (s.inode i).num
  refs : ∀ n i, ⟨some n, i⟩ ∈ s.refs →
    (s.inode i).num = n ∧ s.device i = false ∧ ¬ Unread s i
  unique : ∀ i j, (s.inode i).valid → (s.inode j).valid → s.device i = false →
    s.device j = false → (s.inode i).num = (s.inode j).num → i = j
  reads : ∀ p n i, s.pc p = .copy n i → Reading n p s.io

namespace IgetInv

/-- An entry with a reference is valid. -/
theorem valid_of_ref (h : IgetInv s) (hr : r ∈ s.refs) : (s.inode r.ip).valid := by
  by_contra hvalid
  have hcount := h.count r.ip
  have hpos : 0 < refsTo s r.ip := List.countP_pos_iff.mpr ⟨r, hr, by simp⟩
  rw [liveCount, if_neg hvalid] at hcount
  omega

/-- An entry that is not valid has no reference, and nobody has taken it. -/
theorem of_invalid (h : IgetInv s) (hvalid : (s.inode i).valid = false) :
    refsTo s i = 0 ∧ s.busy i = false := by
  have hcount := h.count i
  rw [liveCount, if_neg (by simp [hvalid])] at hcount
  refine ⟨by omega, ?_⟩
  by_contra hbusy
  rw [Bool.not_eq_false] at hbusy
  rw [if_pos hbusy] at hcount
  omega

theorem ok (h : IgetInv s) : IgetOk s := by
  intro n i hr
  obtain ⟨rfl, hdevice, hread⟩ := h.refs n i hr
  have hvalid := h.valid_of_ref hr
  exact ⟨hvalid, rfl, hdevice, h.loaded i hvalid hdevice hread,
    fun j hj hdev hnum => h.unique j i hj hvalid hdev hdevice hnum⟩

theorem unread_taken (hi : (s.pc p).unread = some i) : ∃ n, (s.pc p).taken = some (n, i) := by
  cases hpc : s.pc p <;> simp_all [IgetPc.unread, IgetPc.taken]

/-! ## Statements -/

/-- The buffers and the disk move. -/
theorem io (h : IgetInv s) {io : IoSt P Dinode} (hsectors : io.sectors = s.io.sectors)
    (hreads : ∀ p n i, s.pc p = .copy n i → Reading n p s.io → Reading n p io) :
    IgetInv { s with io } := by
  refine ⟨h.count, h.bound, h.taken, h.one, fun i hv hd hu => ?_, h.refs, h.unique,
    fun p n i hpc => hreads p n i hpc (h.reads p n i hpc)⟩
  rw [hsectors]
  exact h.loaded i hv hd hu

/-- The table changes at one entry, which is not being read. -/
theorem entry (h : IgetInv s) {x : Inode} {refs : List Ref} {d : InodeId → Bool}
    (hcount : liveCount x = refs.countP (fun r => r.ip = i) + if s.busy i then 1 else 0)
    (hother : ∀ j, j ≠ i → refs.countP (fun r => r.ip = j) = refsTo s j)
    (hbound : x.valid → 0 < x.refcnt ∧ x.refcnt < 2 ^ 16) (hnum : x.num = (s.inode i).num)
    (hdev : ∀ j, j ≠ i → d j = s.device j)
    (htaken : s.busy i → s.device i = false → d i = false)
    (hvalid : x.valid → d i = false → (s.inode i).valid ∧ s.device i = false ∧
      x.dinode = (s.inode i).dinode)
    (hrefs : ∀ n j, ⟨some n, j⟩ ∈ refs → j ≠ i → ⟨some n, j⟩ ∈ s.refs)
    (hself : ∀ n, ⟨some n, i⟩ ∈ refs → (s.inode i).num = n ∧ d i = false ∧ ¬ Unread s i) :
    IgetInv { s.setInode i x with refs, device := d } := by
  have hset : ∀ j, j ≠ i → (s.setInode i x).inode j = s.inode j := fun j hj =>
    Function.update_of_ne hj ..
  have hsame : (s.setInode i x).inode i = x := Function.update_self ..
  refine ⟨fun j => ?_, fun j hj => ?_, fun p y hy => ?_, h.one, fun j hv hd hu => ?_,
    fun n j hr => ?_, fun j k hj hk hdj hdk heq => ?_, h.reads⟩
  · by_cases hji : j = i
    · subst hji
      rw [hsame]
      exact hcount
    · simp only [hset j hji, refsTo, hother j hji]
      exact h.count j
  · by_cases hji : j = i
    · subst hji
      simp only [hsame] at hj ⊢
      exact hbound hj
    · simp only [hset j hji] at hj ⊢
      exact h.bound j hj
  · obtain ⟨hbusy, hn, hd⟩ := h.taken p y hy
    by_cases hyi : y.2 = i
    · subst hyi
      simp only [hsame]
      exact ⟨hbusy, hnum.trans hn, htaken hbusy hd⟩
    · simp only [hset y.2 hyi, hdev y.2 hyi]
      exact ⟨hbusy, hn, hd⟩
  · by_cases hji : j = i
    · subst hji
      simp only [hsame] at hv hd ⊢
      obtain ⟨hv', hd', hdin⟩ := hvalid hv hd
      rw [hdin, hnum]
      exact h.loaded j hv' hd' hu
    · simp only [hset j hji, hdev j hji] at hv hd ⊢
      exact h.loaded j hv hd hu
  · by_cases hji : j = i
    · subst hji
      obtain ⟨hn, hd, hu⟩ := hself n hr
      simp only [hsame]
      exact ⟨hnum.trans hn, hd, hu⟩
    · obtain ⟨hn, hd, hu⟩ := h.refs n j (hrefs n j hr hji)
      simp only [hset j hji, hdev j hji]
      exact ⟨hn, hd, hu⟩
  · -- Validity and numbers of entries that are not devices are as before.
    have hback : ∀ k, ((s.setInode i x).inode k).valid → d k = false →
        (s.inode k).valid ∧ s.device k = false ∧
          ((s.setInode i x).inode k).num = (s.inode k).num := by
      intro m hm hdm
      by_cases hmi : m = i
      · subst hmi
        simp only [hsame] at hm ⊢
        obtain ⟨hv', hd', -⟩ := hvalid hm hdm
        exact ⟨hv', hd', hnum⟩
      · simp only [hset m hmi, hdev m hmi] at hm hdm ⊢
        exact ⟨hm, hdm, trivial⟩
    obtain ⟨hvj, hdj', hnj⟩ := hback j hj hdj
    obtain ⟨hvk, hdk', hnk⟩ := hback k hk hdk
    exact h.unique j k hvj hvk hdj' hdk' (by rw [← hnj, ← hnk]; exact heq)

/-- `ialloc`. -/
theorem ialloc (h : IgetInv s) : IgetInv s.ialloc := by
  unfold IgetSt.ialloc
  split
  next => exact h
  next i hfree =>
    have hinvalid : (s.inode i).valid = false := by simpa using of_first hfree
    obtain ⟨hzero, hbusy⟩ := h.of_invalid hinvalid
    have hnone : ∀ r ∈ s.refs, r.ip ≠ i := by
      rintro r hr rfl
      have hvalid := h.valid_of_ref hr
      rw [hinvalid] at hvalid
      cases hvalid
    refine h.entry (x := { s.inode i with valid := true, refcnt := 1 }) ?_ (fun j hj => ?_)
      (fun _ => ⟨Nat.one_pos, (by decide : 1 < 2 ^ 16)⟩) rfl (fun j hj => Function.update_of_ne hj ..)
      (fun hb => ?_) (fun _ hd => ?_) (fun n j hr _ => ?_) fun n hr => ?_
    · simp only [refsTo] at hzero
      simp [liveCount, hzero, hbusy]
    · simp [refsTo, Ne.symm hj]
    · rw [hbusy] at hb
      cases hb
    · simp at hd
    · simpa using hr
    · have hmem : (⟨some n, i⟩ : Ref) ∈ s.refs := by simpa using hr
      exact absurd rfl (hnone _ hmem)

/-- Another reference to an entry. -/
theorem share (h : IgetInv s) (hvalid : (s.inode r.ip).valid)
    (hroom : (s.inode r.ip).refcnt + 1 < 2 ^ 16)
    (hr : ∀ n, r.num = some n → (s.inode r.ip).num = n ∧ s.device r.ip = false ∧ ¬ Unread s r.ip) :
    IgetInv (s.share r) := by
  have hmod := Nat.mod_eq_of_lt hroom
  refine h.entry (x := { s.inode r.ip with refcnt := ((s.inode r.ip).refcnt + 1) % 2 ^ 16 })
    (d := s.device) ?_ (fun j hj => ?_) (fun _ => ?_) rfl (fun _ _ => rfl) (fun _ hd => hd)
    (fun hv hd => ⟨hv, hd, rfl⟩) (fun n j hmem hj => ?_) fun n hmem => ?_
  · have hcount := h.count r.ip
    simp only [refsTo, liveCount, hvalid, if_true] at hcount
    simp only [liveCount, hvalid, if_true, hcount, List.countP_cons, decide_true]
    omega
  · simp [refsTo, Ne.symm hj]
  · rw [hmod]
    exact ⟨Nat.succ_pos _, hroom⟩
  · rcases List.mem_cons.mp hmem with heq | hold
    · rw [← heq] at hj
      exact absurd rfl hj
    · exact hold
  · rcases List.mem_cons.mp hmem with heq | hold
    · exact hr n (by rw [← heq])
    · exact h.refs n r.ip hold

/-- `irelse` of a reference that has been returned. -/
theorem irelse (h : IgetInv s) (hr : r ∈ s.refs) : IgetInv (s.irelse r) := by
  have hvalid := h.valid_of_ref hr
  obtain ⟨hpos, hlt⟩ := h.bound r.ip hvalid
  have hcount := h.count r.ip
  simp only [liveCount, hvalid, if_true] at hcount
  have herase : ∀ j, (s.refs.erase r).countP (fun r' => r'.ip = j) +
      (if r.ip = j then 1 else 0) = refsTo s j := by
    intro j
    have hperm := (List.perm_cons_erase hr).countP_eq fun r' => decide (r'.ip = j)
    rw [refsTo, hperm, List.countP_cons]
    simp
  have hself := herase r.ip
  rw [if_pos rfl] at hself
  refine h.entry (x := if 1 < (s.inode r.ip).refcnt then
      { s.inode r.ip with refcnt := (s.inode r.ip).refcnt - 1 }
      else { s.inode r.ip with valid := false }) (d := s.device) ?_ (fun j hj => ?_)
    (fun _ => ?_) ?_ (fun _ _ => rfl) (fun _ hd => hd) (fun hv hd => ⟨hvalid, hd, ?_⟩)
    (fun n j hmem _ => List.mem_of_mem_erase hmem) fun n hmem =>
      h.refs n r.ip (List.mem_of_mem_erase hmem)
  · split
    next hmany =>
      simp only [liveCount, hvalid, if_true]
      omega
    next hlast =>
      simp only [liveCount, Bool.false_eq_true, if_false]
      omega
  · have hj' := herase j
    rwa [if_neg (Ne.symm hj)] at hj'
  · split
    next => simp only; omega
    next => simp only; omega
  · split <;> rfl
  · split <;> rfl

variable [DecidableEq P]

/-- `iget` takes a free entry for a number that it has not found. -/
theorem miss (h : IgetInv s) (hidle : s.pc p = .idle)
    (hnone : ∀ j, (s.inode j).valid → (s.inode j).num ≠ n) (hinvalid : (s.inode i).valid = false) :
    IgetInv { s.setInode i { s.inode i with valid := true, num := n, refcnt := 1, devno := 0 } with
      pc := Function.update s.pc p (.bread n i)
      busy := Function.update s.busy i true
      device := Function.update s.device i false } := by
  obtain ⟨hzero, hbusy⟩ := h.of_invalid hinvalid
  have hfree : ∀ q x, (s.pc q).taken = some x → x.2 ≠ i := by
    rintro q x hx rfl
    rw [(h.taken q x hx).1] at hbusy
    cases hbusy
  have hnoref : ∀ r ∈ s.refs, r.ip ≠ i := by
    rintro r hr rfl
    have hvalid := h.valid_of_ref hr
    rw [hinvalid] at hvalid
    cases hvalid
  have hunread : ∀ j, j ≠ i → ∀ q, (Function.update s.pc p (.bread n i) q).unread = some j ↔
      (s.pc q).unread = some j := by
    intro j hj q
    by_cases hq : q = p
    · subst hq
      simp [hidle, IgetPc.unread, Ne.symm hj]
    · simp [hq]
  refine ⟨fun j => ?_, fun j hj => ?_, fun q x hx => ?_, fun q q' x y hx hy heq => ?_,
    fun j hv hd hu => ?_, fun m j hr => ?_, fun j k hj hk hdj hdk heq => ?_, fun q m j hq => ?_⟩
  · by_cases hji : j = i
    · subst hji
      simp only [refsTo] at hzero
      simp [liveCount, refsTo, IgetSt.setInode, hzero]
    · simpa [IgetSt.setInode, refsTo, hji] using h.count j
  · by_cases hji : j = i
    · subst hji
      simp [IgetSt.setInode]
    · simp only [IgetSt.setInode, Function.update_of_ne hji] at hj ⊢
      exact h.bound j hj
  · by_cases hq : q = p
    · subst hq
      simp only [Function.update_self, IgetPc.taken, Option.some.injEq] at hx
      subst hx
      simp [IgetSt.setInode]
    · simp only [Function.update_of_ne hq] at hx
      have hxi := hfree q x hx
      simpa [IgetSt.setInode, hxi] using h.taken q x hx
  · by_cases hq : q = p
    · by_cases hq' : q' = p
      · rw [hq, hq']
      · subst hq
        simp only [Function.update_self, IgetPc.taken, Option.some.injEq] at hx
        simp only [Function.update_of_ne hq'] at hy
        subst hx
        exact absurd heq.symm (hfree q' y hy)
    · simp only [Function.update_of_ne hq] at hx
      by_cases hq' : q' = p
      · subst hq'
        simp only [Function.update_self, IgetPc.taken, Option.some.injEq] at hy
        subst hy
        exact absurd heq (hfree q x hx)
      · simp only [Function.update_of_ne hq'] at hy
        exact h.one q q' x y hx hy heq
  · by_cases hji : j = i
    · subst hji
      exact absurd ⟨p, by simp [IgetPc.unread]⟩ hu
    · simp only [IgetSt.setInode, Function.update_of_ne hji] at hv hd ⊢
      refine h.loaded j hv hd fun ⟨q, hq⟩ => hu ⟨q, (hunread j hji q).mpr hq⟩
  · have hji : j ≠ i := hnoref _ hr
    obtain ⟨hn, hd, hu⟩ := h.refs m j hr
    simp only [IgetSt.setInode, Function.update_of_ne hji]
    exact ⟨hn, hd, fun ⟨q, hq⟩ => hu ⟨q, (hunread j hji q).mp hq⟩⟩
  · by_cases hji : j = i
    · by_cases hki : k = i
      · rw [hji, hki]
      · subst hji
        simp only [IgetSt.setInode, Function.update_self, Function.update_of_ne hki] at hk heq
        exact absurd heq.symm (hnone k hk)
    · by_cases hki : k = i
      · subst hki
        simp only [IgetSt.setInode, Function.update_self, Function.update_of_ne hji] at hj heq
        exact absurd heq (hnone j hj)
      · simp only [IgetSt.setInode, Function.update_of_ne hji, Function.update_of_ne hki]
          at hj hk hdj hdk heq
        exact h.unique j k hj hk hdj hdk heq
  · by_cases hqp : q = p
    · subst hqp
      simp at hq
    · simp only [Function.update_of_ne hqp] at hq
      exact h.reads q m j hq

/-- The contents are copied. -/
theorem copy (h : IgetInv s) (hpc : s.pc p = .copy n i) {b : Buf} {d : Dinode}
    (hd : d = s.io.sectors n) :
    IgetInv { s.setInode i { s.inode i with dinode := d } with
      pc := Function.update s.pc p (.brelse n i b) } := by
  have htaken : (s.pc p).taken = some (n, i) := by rw [hpc]; rfl
  obtain ⟨-, hnum, -⟩ := h.taken p _ htaken
  have htaken' : ∀ q, (Function.update s.pc p (.brelse n i b) q).taken = (s.pc q).taken := by
    intro q
    by_cases hq : q = p
    · subst hq; simp [hpc, IgetPc.taken]
    · simp [hq]
  have hunread : ∀ j, Unread s j → j ≠ i → ∃ q, (Function.update s.pc p (.brelse n i b) q).unread =
      some j := by
    rintro j ⟨q, hq⟩ hj
    have hqp : q ≠ p := by
      rintro rfl
      rw [hpc] at hq
      exact hj (Option.some.inj hq).symm
    exact ⟨q, by simpa [hqp] using hq⟩
  have hback : ∀ j, (∃ q, (Function.update s.pc p (.brelse n i b) q).unread = some j) → Unread s j := by
    rintro j ⟨q, hq⟩
    by_cases hqp : q = p
    · subst hqp; simp [IgetPc.unread] at hq
    · exact ⟨q, by simpa [hqp] using hq⟩
  have hfields : ∀ m, ((s.setInode i { s.inode i with dinode := d }).inode m).valid =
      (s.inode m).valid ∧
      ((s.setInode i { s.inode i with dinode := d }).inode m).num = (s.inode m).num ∧
      ((s.setInode i { s.inode i with dinode := d }).inode m).refcnt = (s.inode m).refcnt := by
    intro m
    by_cases hmi : m = i
    · subst hmi; simp [IgetSt.setInode]
    · simp [IgetSt.setInode, hmi]
  refine ⟨fun j => ?_, fun j hj => ?_, fun q x hx => ?_, fun q q' x y hx hy heq => ?_,
    fun j hv hdev hu => ?_, fun m j hr => ?_, fun j k hj hk hdj hdk heq => ?_, fun q m j hq => ?_⟩
  · obtain ⟨hv, -, hr⟩ := hfields j
    simp only [liveCount, hv, hr]
    exact h.count j
  · obtain ⟨hv, -, hr⟩ := hfields j
    simp only [hv, hr] at hj ⊢
    exact h.bound j hj
  · rw [htaken'] at hx
    simp only [(hfields x.2).2.1]
    exact h.taken q x hx
  · rw [htaken'] at hx hy
    exact h.one q q' x y hx hy heq
  · by_cases hji : j = i
    · subst hji
      simp [IgetSt.setInode, hd, hnum]
    · simp only [IgetSt.setInode, Function.update_of_ne hji] at hv ⊢
      exact h.loaded j hv hdev fun hu' => hu (hunread j hu' hji)
  · obtain ⟨hn, hdev, hu⟩ := h.refs m j hr
    simp only [(hfields j).2.1]
    exact ⟨hn, hdev, fun hu' => hu (hback j hu')⟩
  · simp only [(hfields j).1, (hfields k).1, (hfields j).2.1, (hfields k).2.1] at hj hk heq
    exact h.unique j k hj hk hdj hdk heq
  · by_cases hqp : q = p
    · subst hqp
      simp at hq
    · simp only [Function.update_of_ne hqp] at hq
      exact h.reads q m j hq

/-- `iget` returns the entry that it has taken. -/
theorem ret (h : IgetInv s) {b : Buf} (hpc : s.pc p = .brelse n i b) :
    IgetInv { s with
      pc := Function.update s.pc p .idle
      refs := ⟨some n, i⟩ :: s.refs
      busy := Function.update s.busy i false } := by
  have htaken : (s.pc p).taken = some (n, i) := by rw [hpc]; rfl
  obtain ⟨hbusy, hnum, hdevice⟩ := h.taken p _ htaken
  have hother : ∀ q x, (Function.update s.pc p .idle q).taken = some x →
      (s.pc q).taken = some x ∧ x.2 ≠ i := by
    intro q x hx
    by_cases hq : q = p
    · subst hq; simp [IgetPc.taken] at hx
    · simp only [Function.update_of_ne hq] at hx
      exact ⟨hx, fun heq => hq (h.one q p x _ hx htaken heq)⟩
  have hunread : ∀ j, (∃ q, (Function.update s.pc p .idle q).unread = some j) ↔ Unread s j := by
    intro j
    refine exists_congr fun q => ?_
    by_cases hqp : q = p
    · subst hqp; simp [hpc, IgetPc.unread]
    · simp [hqp]
  have hread : ¬ Unread s i := by
    rintro ⟨q, hq⟩
    obtain ⟨m, hm⟩ := unread_taken hq
    obtain rfl := h.one q p _ _ hm htaken rfl
    rw [hpc] at hq
    cases hq
  refine ⟨fun j => ?_, h.bound, fun q x hx => ?_, fun q q' x y hx hy heq => ?_,
    fun j hv hdev hu => ?_, fun m j hr => ?_, h.unique, fun q m j hq => ?_⟩
  · by_cases hji : j = i
    · subst hji
      have hcount := h.count j
      rw [if_pos hbusy] at hcount
      simpa [refsTo] using hcount
    · simpa [refsTo, hji, Ne.symm hji] using h.count j
  · obtain ⟨hold, hxi⟩ := hother q x hx
    simpa [hxi] using h.taken q x hold
  · exact h.one q q' x y (hother q x hx).1 (hother q' y hy).1 heq
  · exact h.loaded j hv hdev fun hu' => hu ((hunread j).mpr hu')
  · rcases List.mem_cons.mp hr with heq | hold
    · obtain ⟨rfl, rfl⟩ : m = n ∧ j = i := by simpa using heq
      exact ⟨hnum, hdevice, fun hu => hread ((hunread j).mp hu)⟩
    · obtain ⟨hn, hdev, hu⟩ := h.refs m j hold
      exact ⟨hn, hdev, fun hu' => hu ((hunread j).mp hu')⟩
  · by_cases hqp : q = p
    · subst hqp; simp at hq
    · simp only [Function.update_of_ne hqp] at hq
      exact h.reads q m j hq

/-- A process starts to read the contents of the entry that it has taken. -/
theorem start (h : IgetInv s) (hpc : s.pc p = .bread n i) {io : IoSt P Dinode}
    (hsectors : io.sectors = s.io.sectors) (hp : Reading n p io)
    (hreads : ∀ q, q ≠ p → ∀ m, Reading m q s.io → Reading m q io) :
    IgetInv { s with io, pc := Function.update s.pc p (.copy n i) } := by
  have htaken : ∀ q, (Function.update s.pc p (.copy n i) q).taken = (s.pc q).taken := by
    intro q
    by_cases hq : q = p
    · subst hq; simp [hpc, IgetPc.taken]
    · simp [hq]
  have hunread : ∀ j, (∃ q, (Function.update s.pc p (.copy n i) q).unread = some j) ↔ Unread s j := by
    intro j
    refine exists_congr fun q => ?_
    by_cases hqp : q = p
    · subst hqp; simp [hpc, IgetPc.unread]
    · simp [hqp]
  refine ⟨h.count, h.bound, fun q x hx => ?_, fun q q' x y hx hy heq => ?_,
    fun j hv hdev hu => ?_, fun m j hr => ?_, h.unique, fun q m j hq => ?_⟩
  · rw [htaken] at hx
    exact h.taken q x hx
  · rw [htaken] at hx hy
    exact h.one q q' x y hx hy heq
  · rw [hsectors]
    exact h.loaded j hv hdev fun hu' => hu ((hunread j).mpr hu')
  · obtain ⟨hn, hdev, hu⟩ := h.refs m j hr
    exact ⟨hn, hdev, fun hu' => hu ((hunread j).mp hu')⟩
  · by_cases hqp : q = p
    · subst hqp
      simp only [Function.update_self, IgetPc.copy.injEq] at hq
      rw [← hq.1]
      exact hp
    · simp only [Function.update_of_ne hqp] at hq
      exact hreads q hqp m (h.reads q m j hq)

/-- `iget` finds an entry whose contents have been read, or takes a free one. -/
theorem iget (h : IgetInv s) (hidle : s.pc p = .idle)
    (hsafe : ∀ i, s.found n = some i →
      s.device i = false ∧ ¬ Unread s i ∧ (s.inode i).refcnt + 1 < 2 ^ 16) :
    IgetInv (s.iget p n) := by
  unfold IgetSt.iget
  split
  next i hfound =>
    obtain ⟨hdevice, hread, hroom⟩ := hsafe i hfound
    have hentry : (s.inode i).valid ∧ (s.inode i).num = n := by simpa using of_first hfound
    refine h.share hentry.1 hroom fun m hm => ?_
    obtain rfl := Option.some.inj hm
    exact ⟨hentry.2, hdevice, hread⟩
  next hnone =>
    split
    next => exact h
    next i hfree =>
      refine h.miss hidle (fun j hj hnum => ?_) (by simpa using of_first hfree)
      have hother := not_of_first hnone j
      simp [hj, hnum] at hother

end IgetInv

/-! ## The cache -/

variable [DecidableEq P] {io io' : IoSt P Dinode}

/-- A process in `bread(n)` stays there, until it has the buffer. -/
theorem Reading.go (h : Reading n p io) (hmove : IoMove p io io') (hidle : io.pc p ≠ .idle) :
    Reading n p io' := by
  rcases reads_move hmove (h.resolve_right fun h => hidle h.1) with ⟨hreads, -⟩ | ⟨hpc, b, hheld⟩
  · exact .inl hreads
  · exact .inr ⟨hpc, b, _, hheld⟩

/-- The other processes stay where they are. -/
theorem Reading.other (h : Reading n q io) (hmove : IoMove p io io') (hq : q ≠ p) :
    Reading n q io' := by
  obtain ⟨hpc, hheld⟩ := hmove.other hq
  rw [Reading, hpc, hheld]
  exact h

/-! ## Runs -/

/-- **Every statement** that is safe keeps the invariant. -/
theorem IgetInv.next [Fintype P] (h : IgetInv s) (hio : IoInv s.io) (hread : ReadInv s.io)
    {call : IgetCall} (hsafe : SafeIget ⟨p, s⟩ (.exec call)) (hnext : IgetSt.next p call s = some t) :
    IgetInv t ∧ IoInv t.io ∧ ReadInv t.io := by
  -- A statement of the cache by a process that is outside of `iget`.
  have hcache : ∀ {c : Bio Dinode} {io' : IoSt P Dinode}, s.pc p = .idle →
      SafeRead ⟨p, s.io⟩ (.exec c) → s.io.next p c = some io' →
      IgetInv { s with io := io' } ∧ IoInv io' ∧ ReadInv io' := by
    intro c io' hidle hok hc
    have hmove := next_cases hc
    refine ⟨h.io hmove.sectors fun q m j hq hr => hr.other hmove ?_, hread.next hio hok hc⟩
    rintro rfl
    rw [hidle] at hq
    cases hq
  unfold IgetSt.next at hnext
  cases hpc : s.pc p with
  | idle =>
      simp only [hpc] at hnext
      simp only [SafeIget, SafeCall, hpc] at hsafe
      cases call with
      | go =>
          obtain ⟨io', hc, rfl⟩ := Option.map_eq_some_iff.mp hnext
          exact hcache hpc hsafe hc
      | bread m =>
          obtain ⟨io', hc, rfl⟩ := Option.map_eq_some_iff.mp hnext
          exact hcache hpc hsafe hc
      | brelse m b =>
          obtain ⟨io', hc, rfl⟩ := Option.map_eq_some_iff.mp hnext
          exact hcache hpc hsafe hc
      | ialloc =>
          simp only [Option.ite_none_right_eq_some, Option.some.injEq] at hnext
          obtain ⟨-, rfl⟩ := hnext
          rw [IgetSt.ialloc_io]
          exact ⟨h.ialloc, hio, hread⟩
      | iget m =>
          simp only [Option.ite_none_right_eq_some, Option.some.injEq] at hnext
          obtain ⟨-, rfl⟩ := hnext
          rw [IgetSt.iget_io]
          exact ⟨h.iget hpc hsafe, hio, hread⟩
      | idup r =>
          simp only [Option.ite_none_right_eq_some, Option.some.injEq] at hnext
          obtain ⟨⟨-, hr⟩, rfl⟩ := hnext
          refine ⟨h.share (h.valid_of_ref hr) hsafe fun n hn => ?_, hio, hread⟩
          apply h.refs
          rwa [← hn]
      | irelse r =>
          simp only [Option.ite_none_right_eq_some, Option.some.injEq] at hnext
          obtain ⟨⟨-, hr⟩, rfl⟩ := hnext
          exact ⟨h.irelse hr, hio, hread⟩
  | bread m i =>
      simp only [hpc] at hnext
      simp only [SafeIget, SafeCall, hpc] at hsafe
      obtain ⟨io', hc, rfl⟩ := Option.map_eq_some_iff.mp hnext
      have hmove := next_cases hc
      have hreading : Reading m p io' := by
        obtain ⟨-, rfl⟩ := bread_cases hc
        exact .inl (by simp [IoPc.reads])
      exact ⟨h.start hpc hmove.sectors hreading fun q hq k hk => hk.other hmove hq,
        hread.next hio hsafe hc⟩
  | copy m i =>
      simp only [hpc] at hnext
      simp only [SafeIget, SafeCall, hpc] at hsafe
      by_cases hidle : s.io.pc p = .idle
      · rw [if_pos hidle] at hnext
        obtain ⟨b, hb, rfl⟩ := Option.map_eq_some_iff.mp hnext
        refine ⟨h.copy hpc ?_, hio, hread⟩
        rcases h.reads p m i hpc with hreads | ⟨-, k, bs, hheld⟩
        · rw [hidle] at hreads
          cases hreads
        · obtain rfl : (m, k) = b := by simpa [hheld] using hb
          exact (hread.readsValid p m k (by simp [hheld])).2.2
      · rw [if_neg hidle] at hnext
        obtain ⟨io', hc, rfl⟩ := Option.map_eq_some_iff.mp hnext
        have hmove := next_cases hc
        refine ⟨h.io hmove.sectors fun q k j hq hk => ?_, hread.next hio (hsafe hidle) hc⟩
        by_cases hqp : q = p
        · subst hqp
          exact hk.go hmove hidle
        · exact hk.other hmove hqp
  | brelse m i b =>
      simp only [hpc] at hnext
      simp only [SafeIget, SafeCall, hpc] at hsafe
      obtain ⟨io', hc, rfl⟩ := Option.map_eq_some_iff.mp hnext
      have hmove := next_cases hc
      have hmoved : IgetInv { s with io := io' } := by
        refine h.io hmove.sectors fun q k j hq hk => hk.other hmove ?_
        rintro rfl
        rw [hpc] at hq
        cases hq
      exact ⟨hmoved.ret hpc, hread.next hio hsafe hc⟩

omit [DecidableEq P] in
/-- So does an interrupt. -/
theorem IgetInv.intr [Fintype P] (h : IgetInv s) (hio : IoInv s.io) (hread : ReadInv s.io)
    (hsafe : SafeIntr s.io) {io : IoSt P Dinode} (hintr : s.io.ideintr = some io) :
    IgetInv { s with io } := by
  obtain ⟨r, hc⟩ := ideintr_cases hio hsafe hintr
  have hsectors : io.sectors = s.io.sectors := by
    rw [hc.sectors, (hread.request r hc.outstanding).1]
    rfl
  refine h.io hsectors fun q k j _ hk => ?_
  rwa [Reading, hc.pc, hc.held]

omit [DecidableEq P] in
theorem IgetInv.init (stat : P → ProcStat) (zero : Dinode) (sectors : ℕ → Dinode) :
    IgetInv (.init stat zero sectors) := by
  constructor <;> simp [IgetSt.init, liveCount, refsTo, IgetPc.taken]

/-- **The inode table.**  In every run in which `iget` finds only entries that it has made
itself and whose contents have been read, every reference that an `iget(n)` has returned stands
for a valid entry with the contents of sector `n`, and no other entry stands for inode `n`. -/
theorem iget_loaded [Fintype P] (stat : P → ProcStat) (zero : Dinode) (sectors : ℕ → Dinode) (p : P)
    {s : Cpu P (IgetSt P)}
    (h : (igetUni P).machine.Path SafeIget ⟨p, .init stat zero sectors⟩ s) :
    IgetOk s.st := by
  have hinv := Uni.invariant (I := fun st => IgetInv st ∧ IoInv st.io ∧ ReadInv st.io) h
    ⟨.init stat zero sectors, .init stat zero sectors, .init stat zero sectors⟩ ?_ ?_
  · exact hinv.1.ok
  · exact fun q call st st' hI hok hnext => hI.1.next hI.2.1 hI.2.2 hok hnext
  · rintro q st st' ⟨hI, hio, hread⟩ hok hintr
    obtain ⟨io, hi, rfl⟩ := Option.map_eq_some_iff.mp hintr
    exact ⟨hI.intr hio hread hok hi, hread.intr hio hok hi⟩

end Inv

/-! ### Two processes look up inode 5 -/

/-- The inode that sector `n` holds. -/
def sized (n : ℕ) : Dinode := ⟨0, 0, 0, 0, 0, n, fun _ => 0⟩

/-- Process 0 calls `iget(5)`, which reads sector 5; then process 1 finds the entry. -/
def lookTwice : List (CpuEvent (Fin 2) IgetCall) :=
  .exec (.iget 5) :: List.replicate 15 (.exec .go) ++ [.intr] ++ List.replicate 10 (.exec .go) ++
    [.switch 1, .exec (.iget 5)]

theorem iget_loaded_lookTwice :
    ∃ s, (igetUni (Fin 2)).machine.Path SafeIget ⟨0, .init (fun _ => .RUN) (sized 0) sized⟩ s ∧
      s.st.refs = [⟨some 5, 0⟩, ⟨some 5, 0⟩] ∧ IgetOk s.st := by
  obtain ⟨s, h, hrefs⟩ := (igetUni (Fin 2)).machine.exists_path_of_run SafeIget
    ⟨0, .init (fun _ => .RUN) (sized 0) sized⟩ lookTwice
    (fun s => s.st.refs = [⟨some 5, 0⟩, ⟨some 5, 0⟩]) (by decide +kernel)
  exact ⟨s, h, hrefs, iget_loaded (fun _ => .RUN) (sized 0) sized 0 h⟩

/-- Process 1 looks up inode 5 while process 0 sleeps in the read of sector 5. -/
def lookEarly : List (CpuEvent (Fin 2) IgetCall) :=
  .exec (.iget 5) :: List.replicate 15 (.exec .go) ++ [.switch 1, .exec (.iget 5)]

/-- Its `iget` returns an entry that nobody has read; and `iget(0)` returns the entry of a
device. -/
theorem not_iget_loaded :
    (∃ s, (igetUni (Fin 2)).machine.Reaches ⟨0, .init (fun _ => .RUN) (sized 0) sized⟩ s ∧
      ⟨some 5, 0⟩ ∈ s.st.refs ∧ (s.st.inode 0).dinode.size = 0 ∧ ¬ IgetOk s.st) ∧
    ∃ s, (igetUni (Fin 2)).machine.Reaches ⟨0, .init (fun _ => .RUN) (sized 0) sized⟩ s ∧
      ⟨some 0, 0⟩ ∈ s.st.refs ∧ s.st.device 0 = true ∧ ¬ IgetOk s.st := by
  constructor
  · obtain ⟨s, h, hrefs, hsize, hsectors⟩ := (igetUni (Fin 2)).machine.exists_path_of_run
      (fun _ _ => True) ⟨0, .init (fun _ => .RUN) (sized 0) sized⟩ lookEarly
      (fun s => ⟨some 5, 0⟩ ∈ s.st.refs ∧ (s.st.inode 0).dinode.size = 0 ∧
        (s.st.io.sectors 5).size = 5) (by decide +kernel)
    refine ⟨s, h, hrefs, hsize, fun hok => ?_⟩
    have hdinode := (hok 5 0 hrefs).dinode
    rw [hdinode, hsectors] at hsize
    cases hsize
  · obtain ⟨s, h, hrefs, hdevice⟩ := (igetUni (Fin 2)).machine.exists_path_of_run
      (fun _ _ => True) ⟨0, .init (fun _ => .RUN) (sized 0) sized⟩ [.exec .ialloc, .exec (.iget 0)]
      (fun s => ⟨some 0, 0⟩ ∈ s.st.refs ∧ s.st.device 0 = true) (by decide +kernel)
    refine ⟨s, h, hrefs, hdevice, fun hok => ?_⟩
    have hnot := (hok 0 0 hrefs).device
    rw [hdevice] at hnot
    cases hnot

end Mixv6.Fs
