import Mixv6.Fs.Alone
import Mixv6.Fs.Routines
import Mixv6.Fs.Store

/-!
# Processes that share a file

`sys_read` and the copy of the descriptors in `sys_fork`, over `readi` and the buffer
cache.  A fork gives the child the `struct file`s of its parent, and with them the offsets.
Acquiring and releasing the lock of an inode are one statement each here.

The calls of a file have an order, that in which they take the lock, and they return in any
order.  What a call has delivered is what it returns: its result, and the caller's buffer.

## Main definitions

* `Files` — what the processes share.
* `sys_read`, `sys_fork`, `fileUni` — the system calls, and the processes.
* `Delivered` — the calls of a file have delivered its bytes, one after another.
* `fileSpec` — what a process knows, and what it leaves to the others.
* `Reading`, `Counted`, `Returning` — a call with the lock, and until it returns.
* `delivered_once` — the bytes come in the order of the lock, and each of them once.
-/

namespace Mixv6.Fs.Routine

open Mixv6.Lib Mixv6.Kernel
open Cache (Sector SECTSIZE Loop Devsw Bytes moveOut toInt place_of_turn)
open Mixv6.Syscall (File FileId Fd NOFILE Inode InodeId T_DEV NADDR STDIN STDOUT)

/-- What a call of `sys_read` returns: its result, and the buffer of the caller. -/
abbrev Result := ℤ × Option Bytes

/-- The bytes that it delivers. -/
def delivered (x : Result) : List UInt8 := x.2.elim [] fun dst => (List.range x.1.toNat).map dst

/-- The process table, the file table and the inode table.  `calls` and `turn` record what no
code reads: the calls of `sys_read` for a file in the order in which they have taken the lock,
with what they have returned, and the place of the call that a process is in. -/
structure Files (P : Type) where
  stat : P → ProcStat
  ofile : P → Fd → Option FileId
  file : FileId → File
  inode : InodeId → Inode
  lock : InodeId → Option P
  calls : FileId → List (Option Result)
  turn : P → Option (FileId × ℕ)

namespace Files
variable {P : Type}

/-- `argfd`. -/
def argfd (s : Files P) (p : P) (fd : ℤ) : Option FileId :=
  if fd < 0 ∨ NOFILE ≤ fd then none else s.ofile p (Fin.ofNat NOFILE fd.toNat)

def setFile (s : Files P) (f : FileId) (x : File) : Files P :=
  { s with file := Function.update s.file f x }

/-- `fget`. -/
def fget (s : Files P) (f : FileId) : Files P :=
  s.setFile f { s.file f with refcnt := ((s.file f).refcnt + 1) % 2 ^ 32 }

/-- `fdup`; the `none` is its panic. -/
def fdup (s : Files P) (f : FileId) : Option (Files P) :=
  if (s.file f).refcnt < 1 then none
  else some (s.setFile f { s.file f with refcnt := ((s.file f).refcnt + 1) % 2 ^ 32 })

variable [DecidableEq P]

/-- `p->ofile[fd] = f`. -/
def setOfile (s : Files P) (p : P) (fd : Fd) (f : FileId) : Files P :=
  { s with ofile := Function.update s.ofile p (Function.update (s.ofile p) fd (some f)) }

/-- A call of `p` for file `f` takes the lock of its inode. -/
def took (s : Files P) (p : P) (ip : InodeId) (f : FileId) : Files P :=
  { s with
    lock := Function.update s.lock ip (some p)
    calls := Function.update s.calls f (s.calls f ++ [none])
    turn := Function.update s.turn p (some (f, (s.calls f).length)) }

/-- The call of `p` has returned. -/
def returned (s : Files P) (p : P) (x : Result) : Files P :=
  match s.turn p with
  | none => s
  | some (f, n) => { s with
      calls := Function.update s.calls f ((s.calls f).set n (some x))
      turn := Function.update s.turn p none }

end Files

/-! ## The system calls -/

section Calls
variable {P : Type} [DecidableEq P]

/-- `acquire(&ip->lock)`, by a call for file `f`. -/
def acquire (p : P) (ip : InodeId) (f : FileId) : Code (Files P) Unit := Thread.await fun s =>
  if s.lock ip = none then some (s.took p ip f) else none

/-- `release(&ip->lock)`. -/
def release (ip : InodeId) : Code (Files P) Unit := Thread.change fun s =>
  { s with lock := Function.update s.lock ip none }

/-- `sys_read`. -/
def sys_read (devsw : ℕ → Devsw) (p : P) (fd : ℤ) (dst : Option Bytes) (size : ℤ) :
    Code (Files P) Result := do
  let s ← Thread.look
  match s.argfd p fd, dst with
  | some f, some dst =>
      if size < 0 then pure (-1, some dst)
      else
        let s ← Thread.look
        match (s.file f).inode with
        | none => .stop
        | some ip =>
            acquire p ip f
            let s ← Thread.look
            let (r, dst) ← readi Files.inode devsw ip dst (s.file f).offset size.toNat
            if 0 < r then
              Thread.change fun s =>
                s.setFile f { s.file f with offset := ((s.file f).offset + r.toNat) % 2 ^ 32 }
            release ip
            pure (r, some dst)
  | _, dst => pure (-1, dst)

/-- `palloc`, of slot `np`. -/
def palloc (np : P) : Code (Files P) Unit := do
  Thread.await fun s =>
    if s.stat np = .UNUSED then
      -- memset(p, 0, sizeof(struct proc))
      some { s with
        stat := Function.update s.stat np .SET
        ofile := Function.update s.ofile np fun _ => none }
    else none
  Thread.change fun s => s.fget STDIN
  Thread.change fun s => s.setOfile np 0 STDIN
  Thread.change fun s => s.fget STDOUT
  Thread.change fun s => s.setOfile np 1 STDOUT

/-- The loop of `sys_fork` over the descriptors. -/
def copyFiles (p np : P) : List Fd → Code (Files P) Unit
  | [] => pure ()
  | fd :: fds => do
      let s ← Thread.look
      match s.ofile p fd with
      | none => copyFiles p np fds
      | some f =>
          Thread.await fun s => s.fdup f
          Thread.change fun s => s.setOfile np fd f
          copyFiles p np fds

/-- `sys_fork`, with the slot that `palloc` takes.  The memory of the child and its directory
are left out. -/
def sys_fork (p np : P) : Code (Files P) Unit := do
  palloc np
  copyFiles p np (List.finRange NOFILE)
  Thread.change fun s => { s with stat := Function.update s.stat np .RUN }

/-- A system call. -/
inductive FileCmd (P : Type)
  | read (fd : ℤ) (dst : Option Bytes) (size : ℤ)
  | fork (np : P)

/-- The code of a call, by a process that can run. -/
def FileCmd.code (devsw : ℕ → Devsw) (p : P) (c : FileCmd P) : Code (Files P) Unit := do
  Thread.await fun s => if s.stat p = .RUN then some s else none
  match c with
  | .read fd dst size => do
      let x ← sys_read devsw p fd dst size
      Thread.change fun s => s.returned p x
  | .fork np => sys_fork p np

/-- The processes. -/
def fileUni (P : Type) [DecidableEq P] (devsw : ℕ → Devsw) :
    Uni P (FsEvent (FileCmd P)) (FsSt P (Files P)) := fsUni (FileCmd.code devsw)

end Calls

/-- No regular file but that of inode `ip` is being read: whoever reads has the lock. -/
def Quiet {P : Type} (ip : InodeId) (s : Files P) : Prop :=
  ∀ i, s.lock i ≠ none → i = ip ∨ (s.inode i).dinode.type = T_DEV

instance decidableQuiet {P : Type} (ip : InodeId) (s : Files P) : Decidable (Quiet ip s) :=
  inferInstanceAs (Decidable (∀ _, _ → _))

/-! ## What the calls deliver -/

/-- The calls, in the order of the lock, have delivered the first `n` bytes one after another:
a call that has returned delivered what it returned, and the others what `chunks` says. -/
structure Delivered (byte : ℕ → UInt8) (n : ℕ) (calls : List (Option Result))
    (chunks : List (List UInt8)) : Prop where
  returned : ∀ (i : ℕ) (x : Result), calls[i]? = some (some x) → chunks[i]? = some (delivered x)
  length : chunks.length ≤ calls.length
  flatten : chunks.flatten = (List.range n).map byte

namespace Delivered
variable {byte : ℕ → UInt8} {n i : ℕ} {calls : List (Option Result)} {chunks : List (List UInt8)}
  {c : List UInt8} {x : Result}

/-- Another call takes the lock. -/
theorem took (h : Delivered byte n calls chunks) : Delivered byte n (calls ++ [none]) chunks where
  returned i x hx := by
    rw [List.getElem?_append] at hx
    split at hx
    next => exact h.returned i x hx
    next =>
      have hmem := List.mem_of_getElem? hx
      simp at hmem
  length := by
    have hle := h.length
    rw [List.length_append]
    omega
  flatten := h.flatten

/-- The next call delivers its bytes. -/
theorem snoc (h : Delivered byte n calls chunks) (hlt : chunks.length < calls.length)
    (hc : c = (List.range c.length).map fun k => byte (n + k)) :
    Delivered byte (n + c.length) calls (chunks ++ [c]) where
  returned i x hx := by
    have hold := h.returned i x hx
    obtain ⟨hi, -⟩ := List.getElem?_eq_some_iff.mp hold
    rw [List.getElem?_append_left hi, hold]
  length := by
    rw [List.length_append, List.length_singleton]
    omega
  flatten := by
    rw [List.flatten_append, h.flatten, List.flatten_singleton, List.range_add, List.map_append,
      List.map_map]
    exact congrArg _ hc

/-- A call returns what it has delivered. -/
theorem set (h : Delivered byte n calls chunks) (hx : chunks[i]? = some (delivered x)) :
    Delivered byte n (calls.set i (some x)) chunks where
  returned j y hy := by
    by_cases hj : i = j
    · subst hj
      obtain ⟨hlt, hy⟩ := List.getElem?_eq_some_iff.mp hy
      rw [List.getElem_set_self] at hy
      rw [hx, Option.some.inj hy]
    · rw [List.getElem?_set_ne hj] at hy
      exact h.returned j y hy
  length := by
    rw [List.length_set]
    exact h.length
  flatten := h.flatten

/-- When all calls have returned, what they returned are the bytes. -/
theorem of_returned (h : Delivered byte n calls chunks) (hall : ∀ c ∈ calls, c ≠ none) :
    calls.flatMap (fun c => c.elim [] delivered) = (List.range n).map byte := by
  have hchunks : chunks = calls.map fun c => c.elim [] delivered := by
    apply List.ext_getElem?
    intro i
    rw [List.getElem?_map]
    rcases hc : calls[i]? with _ | c
    · have hle := List.getElem?_eq_none_iff.mp hc
      exact List.getElem?_eq_none (Nat.le_trans h.length hle)
    · obtain ⟨x, rfl⟩ := Option.ne_none_iff_exists'.mp (hall c (List.mem_of_getElem? hc))
      exact h.returned i x hc
  rw [List.flatMap_def, ← hchunks, h.flatten]

end Delivered

/-! ## What a process knows -/

/-- What does not change: the inode of the files, the inode table, the disk, and for each file
its inode and the offset it starts from. -/
structure Setting where
  ip : InodeId
  inode : InodeId → Inode
  sectors : ℕ → Sector
  home : FileId → Option InodeId
  start : FileId → ℕ

/-- The size of the inode. -/
def Setting.size (w : Setting) : ℕ := (w.inode w.ip).dinode.size

/-- Byte `k` of an inode. -/
def fileByte (x : Inode) (sectors : ℕ → Sector) (k : ℕ) : UInt8 :=
  sectors (x.dinode.addr (k / SECTSIZE)) (Fin.ofNat SECTSIZE k)

/-- Byte `k` of the inode. -/
def Setting.byte (w : Setting) (k : ℕ) : UInt8 := fileByte (w.inode w.ip) w.sectors k

/-- The shared state, and for each file what its calls have delivered. -/
abbrev Shared (P : Type) := Files P × (FileId → List (List UInt8))

/-- The shared state at any time; only a call with the lock has delivered nothing yet. -/
structure FilesOk {P : Type} (w : Setting) (s : Shared P) : Prop where
  inode : s.1.inode = w.inode
  home : ∀ f, (s.1.file f).inode = w.home f
  le : ∀ f, w.home f = some w.ip → w.start f ≤ (s.1.file f).offset
  size : ∀ f, w.home f = some w.ip → w.start f ≤ w.size → (s.1.file f).offset ≤ w.size
  delivered : ∀ f, w.home f = some w.ip → Delivered (fun k => w.byte (w.start f + k))
    ((s.1.file f).offset - w.start f) (s.1.calls f) (s.2 f)
  free : s.1.lock w.ip = none → ∀ f, w.home f = some w.ip → (s.2 f).length = (s.1.calls f).length

/-- What the other processes may do while `p` does not move: they leave its locks and its turn,
and while it has the lock of the inode also the offsets, and they take no new turns. -/
structure Rely {P : Type} (w : Setting) (p : P) (s t : Shared P) : Prop where
  ok : FilesOk w t
  locks : ∀ i, s.1.lock i = some p → t.1.lock i = some p
  mine : s.1.lock w.ip = some p → ∀ f, w.home f = some w.ip →
    (t.1.file f).offset = (s.1.file f).offset ∧ (t.1.calls f).length = (s.1.calls f).length ∧ t.2 f = s.2 f
  other : s.1.lock w.ip ≠ some p → t.1.lock w.ip ≠ some p
  turn : t.1.turn p = s.1.turn p
  more : ∀ f, s.2 f <+: t.2 f

/-- What `p` owes the others with each statement; it holds a buffer only with the lock. -/
structure Guarantee {P : Type} (w : Setting) (p : P) (bs : Held) (s t : Shared P) : Prop where
  ok : FilesOk w t
  rely : ∀ q, q ≠ p → Rely w q s t
  held : t.1.lock w.ip = some p ∨ bs = []

section Rely
variable {P : Type} {w : Setting} {p : P} {s t u : Shared P} {bs : Held}

theorem Rely.refl (h : FilesOk w s) : Rely w p s s :=
  ⟨h, fun _ hl => hl, fun _ _ _ => ⟨rfl, rfl, rfl⟩, fun hl => hl, rfl, fun _ => List.prefix_refl _⟩

theorem Rely.trans (h : Rely w p s t) (h' : Rely w p t u) : Rely w p s u := by
  refine ⟨h'.ok, fun i hl => h'.locks i (h.locks i hl), fun hl f hf => ?_,
    fun hl => h'.other (h.other hl), h'.turn.trans h.turn, fun f => (h.more f).trans (h'.more f)⟩
  obtain ⟨hoff, hcalls, hmore⟩ := h.mine hl f hf
  obtain ⟨hoff', hcalls', hmore'⟩ := h'.mine (h.locks _ hl) f hf
  exact ⟨hoff'.trans hoff, hcalls'.trans hcalls, hmore'.trans hmore⟩

theorem Guarantee.refl (h : FilesOk w s) (hheld : s.1.lock w.ip = some p ∨ bs = []) :
    Guarantee w p bs s s := ⟨h, fun _ _ => .refl h, hheld⟩

end Rely

/-- What process `p` knows: the shared state, as far as it is left alone, and its buffers.  It
calls `bread` with the lock of the inode only, and finds the contents of the disk. -/
def fileSpec {P : Type} (w : Setting) (p : P) :
    Spec (Files P) FsCall FsCall.Reply (Shared P × Held) where
  atom f Q x := ∀ s, Rely w p x.1 s → Quiet w.ip s.1 → ∀ t, f s.1 = some t →
    ∃ g, Guarantee w p x.2 s (t, g) ∧ Q s.1 ((t, g), x.2)
  call
    | .bread n, Q, x => x.1.1.lock w.ip = some p ∧ x.2 = [] ∧ ∀ b : Buf, Q b (x.1, [(n, b)])
    | .load b, Q, x => ∃ n, x.2 = [(n, b)] ∧ Q (w.sectors n) x
    | .brelse n b, Q, x => x.2 = [(n, b)] ∧ Q () (x.1, [])
    | .bget _, _, _ | .store .., _, _ => False
  atom_mono himp h s hs hquiet t ht := (h s hs hquiet t ht).imp fun g hg => ⟨hg.1, himp s.1 _ hg.2⟩
  call_mono {c Q Q' x} himp h := by
    cases c with
    | bread n => exact ⟨h.1, h.2.1, fun b => himp b _ (h.2.2 b)⟩
    | load b => exact ⟨h.choose, h.choose_spec.1, himp _ _ h.choose_spec.2⟩
    | brelse n b => exact ⟨h.1, himp () _ h.2⟩
    | bget n | store n b f => exact h

theorem fileSpec_stable {P : Type} (w : Setting) (p : P) :
    (fileSpec w p).Stable fun x y => Rely w p x.1 y.1 ∧ y.2 = x.2 where
  atom {f Q x y} _ hxy h s hs := by
    rw [hxy.2]
    exact h s (hxy.1.trans hs)
  call {c Q x y} hQ hxy h := by
    obtain ⟨hrely, hheld⟩ := hxy
    cases c with
    | bread n =>
        obtain ⟨hl, hnil, hb⟩ := h
        exact ⟨hrely.locks _ hl, hheld.trans hnil,
          fun b => hQ b (x.1, [(n, b)]) (y.1, [(n, b)]) ⟨hrely, rfl⟩ (hb b)⟩
    | load b =>
        obtain ⟨n, hn, hq⟩ := h
        exact ⟨n, hheld.trans hn, hQ _ _ _ ⟨hrely, hheld⟩ hq⟩
    | brelse n b => exact ⟨hheld.trans h.1, hQ () (x.1, []) (y.1, []) ⟨hrely, rfl⟩ h.2⟩
    | bget n | store n b f => exact h

/-! ## The reads -/

section Reads
variable {P : Type} {w : Setting} {p : P} {s : Shared P} {bs : Held} {devsw : ℕ → Devsw}

@[simp] theorem file_bread {n : ℕ} {Q : Buf → Shared P × Held → Prop} {x : Shared P × Held} :
    (bread n : Code (Files P) Buf).wp (fileSpec w p) Q x ↔
      x.1.1.lock w.ip = some p ∧ x.2 = [] ∧ ∀ b, Q b (x.1, [(n, b)]) := Iff.rfl

@[simp] theorem file_load {b : Buf} {Q : Sector → Shared P × Held → Prop} {x : Shared P × Held} :
    (load b : Code (Files P) Sector).wp (fileSpec w p) Q x ↔
      ∃ n, x.2 = [(n, b)] ∧ Q (w.sectors n) x := Iff.rfl

@[simp] theorem file_brelse {n : ℕ} {b : Buf} {Q : Unit → Shared P × Held → Prop}
    {x : Shared P × Held} : (brelse n b : Code (Files P) Unit).wp (fileSpec w p) Q x ↔
      x.2 = [(n, b)] ∧ Q () (x.1, []) := Iff.rfl

/-- A look at the shared state. -/
theorem file_look {Q : Files P → Shared P × Held → Prop} (hbs : bs ≠ [] → s.1.lock w.ip = some p)
    (h : ∀ t, Rely w p s t → Quiet w.ip t.1 → Q t.1 (t, bs)) : (fileSpec w p).atom some Q (s, bs) := by
  intro t hrely hquiet u hu
  obtain rfl := Option.some.inj hu
  refine ⟨t.2, .refl hrely.ok ?_, h t hrely hquiet⟩
  by_cases hnil : bs = []
  · exact .inr hnil
  · exact .inl (hrely.locks _ (hbs hnil))

/-- A statement by a process that does not hold a buffer. -/
theorem file_atom {Q : Files P → Shared P × Held → Prop} {f : Files P → Option (Files P)}
    (h : ∀ t, Rely w p s t → Quiet w.ip t.1 → ∀ u, f t.1 = some u → ∃ g,
      FilesOk w (u, g) ∧ (∀ q, q ≠ p → Rely w q t (u, g)) ∧ Q t.1 ((u, g), [])) :
    (fileSpec w p).atom f Q (s, []) := by
  intro t hrely hquiet u hu
  obtain ⟨g, hok, hother, hQ⟩ := h t hrely hquiet u hu
  exact ⟨g, ⟨hok, hother, .inr rfl⟩, hQ⟩

/-- The loop of `readi` delivers the bytes of the inode. -/
theorem file_readTurns {offset size : ℕ} (l : Loop) (dst : Bytes) (hlock : s.1.lock w.ip = some p)
    (hoff : l.offset = offset + l.cnt) (hok : FilesOk w s)
    (hdst : ∀ k < l.cnt, k < size → dst k = w.byte (offset + k)) :
    (readTurns Files.inode w.ip size l dst).wp (fileSpec w p)
      (fun dst y => y.2 = [] ∧ Rely w p s y.1 ∧ ∀ k < size, dst k = w.byte (offset + k)) (s, []) := by
  fun_induction readTurns Files.inode w.ip size l dst generalizing s with
  | case1 l dst hlt ih =>
      simp only [Thread.wp_bind, Thread.wp_look, file_bread, file_load, file_brelse]
      refine file_look (fun hne => absurd rfl hne) fun t ht _ => ?_
      have hlt' := ht.locks _ hlock
      refine ⟨hlt', rfl, fun b => ⟨_, rfl, trivial, ?_⟩⟩
      refine Thread.wp_mono (ih _ hlt' ?_ ht.ok fun k hk hks => ?_) fun dst y hy =>
        ⟨hy.1, ht.trans hy.2.1, hy.2.2⟩
      · simp only [Loop.next]
        omega
      · -- The bytes of this turn are those of one block.
        simp only [Loop.next] at hk
        simp only [moveOut, ht.ok.inode]
        split
        next hin =>
          obtain ⟨hdiv, hmod⟩ := place_of_turn hoff (Cache.Loop.m_le hlt).2 hin.1 hin.2
          rw [Setting.byte, fileByte, hdiv, ← hmod]
          congr 1
          apply Fin.ext
          simp
        next hout => exact hdst k (by omega) hks
  | case2 l dst hge => exact ⟨rfl, .refl hok, fun k hk => hdst k (by omega) hk⟩

/-- What `readi` has delivered. -/
def Chunk (w : Setting) (offset : ℕ) (x : ℤ × Bytes) : Prop :=
  0 < x.1 → offset + x.1.toNat ≤ w.size ∧ ∀ k < x.1.toNat, x.2 k = w.byte (offset + k)

theorem toInt_pos {n : ℕ} (hn : n < 2 ^ 32) (h : 0 < toInt n) : (toInt n).toNat = n := by
  simp only [toInt] at h ⊢
  split at h
  next hlt => rw [if_pos hlt, Int.toNat_natCast]
  next => omega

/-- `readi` by the process that has the lock. -/
theorem file_readi {offset size : ℕ} (dst : Bytes) (hlock : s.1.lock w.ip = some p)
    (htype : (w.inode w.ip).dinode.type ≠ T_DEV) (hsize : w.size < 2 ^ 32) :
    (readi Files.inode devsw w.ip dst offset size).wp (fileSpec w p)
      (fun x y => y.2 = [] ∧ Rely w p s y.1 ∧ Chunk w offset x) (s, []) := by
  have hno : ∀ {t : Shared P}, ([] : Held) ≠ [] → t.1.lock w.ip = some p := fun h => absurd rfl h
  have hfail : ∀ t, Rely w p s t → ([] : Held) = [] ∧ Rely w p s t ∧ Chunk w offset (-1, dst) :=
    fun t ht => ⟨rfl, ht, fun h => by cases h⟩
  -- The loop, once the size is settled.
  have hloop : ∀ n t, Rely w p s t → offset + n ≤ w.size →
      (readTurns Files.inode w.ip n ⟨0, offset⟩ dst).wp (fileSpec w p)
        (fun dst y => y.2 = [] ∧ Rely w p s y.1 ∧ Chunk w offset (toInt n, dst)) (t, []) := by
    intro n t ht hn
    refine Thread.wp_mono (file_readTurns ⟨0, offset⟩ dst (ht.locks _ hlock) rfl ht.ok
      fun k hk => absurd hk (Nat.not_lt_zero k)) fun dst y hy => ⟨hy.1, ht.trans hy.2.1, fun hpos => ?_⟩
    rw [toInt_pos (by omega) hpos]
    exact ⟨hn, hy.2.2⟩
  simp only [readi, Thread.wp_bind, Thread.wp_look]
  refine file_look hno fun t₁ h₁ _ => ?_
  simp only [h₁.ok.inode, htype, if_false, Thread.wp_bind, Thread.wp_look]
  refine file_look hno fun t₂ h₂ _ => ?_
  simp only [h₂.ok.inode]
  split
  next => exact hfail t₂ (h₁.trans h₂)
  next hacc =>
    have hle : offset ≤ w.size := by
      simp only [not_or, Nat.not_lt] at hacc
      exact hacc.1
    simp only [Thread.wp_bind, Thread.wp_look]
    refine file_look hno fun t₃ h₃ _ => ?_
    have hrely := (h₁.trans h₂).trans h₃
    simp only [h₃.ok.inode]
    split
    next hclip =>
      simp only [Thread.wp_bind, Thread.wp_look, Thread.wp_pure]
      refine file_look hno fun t₄ h₄ _ => ?_
      have hn : (2 ^ 32 + (w.inode w.ip).dinode.size - offset) % 2 ^ 32 = w.size - offset := by
        have heq : (w.inode w.ip).dinode.size = w.size := rfl
        omega
      rw [h₄.ok.inode, hn]
      exact hloop _ t₄ (hrely.trans h₄) (by omega)
    next hwhole =>
      simp only [Thread.wp_bind, Thread.wp_pure]
      apply hloop size t₃ hrely
      simp only [Setting.size]
      omega

/-- `readi` of a device. -/
theorem file_readi_dev {ip : InodeId} {offset size : ℕ} (dst : Bytes)
    (htype : (w.inode ip).dinode.type = T_DEV) :
    (readi Files.inode devsw ip dst offset size).wp (fileSpec w p)
      (fun _ y => y.2 = [] ∧ Rely w p s y.1) (s, []) := by
  simp only [readi, Thread.wp_bind, Thread.wp_look]
  refine file_look (fun h => absurd rfl h) fun t ht _ => ?_
  simp only [ht.ok.inode, htype, if_true]
  split
  · exact ⟨rfl, ht⟩
  · split <;> exact ⟨rfl, ht⟩

end Reads

/-! ## The system calls -/

/-- A process between two system calls. -/
structure Out {P : Type} (w : Setting) (p : P) (x : Shared P × Held) : Prop where
  held : x.2 = []
  lock : x.1.1.lock w.ip ≠ some p
  turn : x.1.1.turn p = none

/-- Process `p` has the lock for its call for file `f`, the `n`th, which has not moved the offset
yet; all other calls have. -/
structure Reading {P : Type} (w : Setting) (p : P) (f : FileId) (n : ℕ) (s : Shared P) : Prop where
  lock : s.1.lock w.ip = some p
  turn : s.1.turn p = some (f, n)
  chunks : (s.2 f).length = n
  calls : (s.1.calls f).length = n + 1
  others : ∀ g, w.home g = some w.ip → g ≠ f → (s.2 g).length = (s.1.calls g).length

/-- It has, by the bytes of `c`. -/
structure Counted {P : Type} (w : Setting) (p : P) (f : FileId) (n : ℕ) (c : List UInt8)
    (s : Shared P) : Prop where
  lock : s.1.lock w.ip = some p
  turn : s.1.turn p = some (f, n)
  chunk : (s.2 f)[n]? = some c
  lengths : ∀ g, w.home g = some w.ip → (s.2 g).length = (s.1.calls g).length

/-- Process `p` has given up the lock and is about to return `x`. -/
structure Returning {P : Type} (w : Setting) (p : P) (x : Result) (s : Shared P) : Prop where
  lock : s.1.lock w.ip ≠ some p
  chunk : ∀ f n, s.1.turn p = some (f, n) → w.home f = some w.ip → (s.2 f)[n]? = some (delivered x)

/-- The offset of a file moves by the bytes of `c`, which its next call has delivered. -/
def Shared.count {P : Type} (s : Shared P) (f : FileId) (c : List UInt8) : Shared P :=
  (s.1.setFile f { s.1.file f with offset := (s.1.file f).offset + c.length },
    Function.update s.2 f (s.2 f ++ [c]))

section Turns
variable {P : Type} {w : Setting} {p : P} {s t : Shared P} {f : FileId} {n : ℕ} {c : List UInt8}
  {x : Result} {i : InodeId}

theorem Out.rely (h : Out w p (s, [])) (hr : Rely w p s t) : Out w p (t, []) :=
  ⟨rfl, hr.other h.lock, hr.turn.trans h.turn⟩

theorem Out.returning (h : Out w p (s, [])) (x : Result) : Returning w p x s := by
  refine ⟨h.lock, fun f n hturn => ?_⟩
  rw [h.turn] at hturn
  cases hturn

theorem Reading.rely (h : Reading w p f n s) (hf : w.home f = some w.ip) (hr : Rely w p s t) :
    Reading w p f n t := by
  obtain ⟨-, hcalls, hmore⟩ := hr.mine h.lock f hf
  refine ⟨hr.locks _ h.lock, hr.turn.trans h.turn, ?_, hcalls.trans h.calls, fun g hg hne => ?_⟩
  · rw [hmore]
    exact h.chunks
  · obtain ⟨-, hcalls, hmore⟩ := hr.mine h.lock g hg
    rw [hmore, hcalls]
    exact h.others g hg hne

theorem Counted.rely (h : Counted w p f n c s) (hf : w.home f = some w.ip) (hr : Rely w p s t) :
    Counted w p f n c t := by
  refine ⟨hr.locks _ h.lock, hr.turn.trans h.turn, ?_, fun g hg => ?_⟩
  · rw [(hr.mine h.lock f hf).2.2]
    exact h.chunk
  · obtain ⟨-, hcalls, hmore⟩ := hr.mine h.lock g hg
    rw [hmore, hcalls]
    exact h.lengths g hg

theorem Returning.rely (h : Returning w p x s) (hr : Rely w p s t) : Returning w p x t := by
  refine ⟨hr.other h.lock, fun f n hturn hf => ?_⟩
  obtain ⟨l, hl⟩ := hr.more f
  have hold := h.chunk f n (hr.turn ▸ hturn) hf
  obtain ⟨hlt, -⟩ := List.getElem?_eq_some_iff.mp hold
  rw [← hl, List.getElem?_append_left hlt, hold]

namespace FilesOk

/-- A change that concerns no lock, call or inode, and no offset on the inode. -/
theorem congr (h : FilesOk w s) {t : Files P} (hinode : t.inode = s.1.inode)
    (hfile : ∀ f, (t.file f).inode = (s.1.file f).inode ∧
      (w.home f = some w.ip → (t.file f).offset = (s.1.file f).offset))
    (hcalls : t.calls = s.1.calls) (hturn : t.turn = s.1.turn) (hlock : t.lock = s.1.lock) :
    FilesOk w (t, s.2) ∧ ∀ q, Rely w q s (t, s.2) := by
  have hok : FilesOk w (t, s.2) := by
    refine ⟨hinode.trans h.inode, fun f => (hfile f).1.trans (h.home f), fun f hf => ?_,
      fun f hf => ?_, fun f hf => ?_, fun hfree f hf => ?_⟩
    · simp only [(hfile f).2 hf]
      exact h.le f hf
    · simp only [(hfile f).2 hf]
      exact h.size f hf
    · simp only [(hfile f).2 hf, hcalls]
      exact h.delivered f hf
    · simp only [hcalls]
      exact h.free (hlock ▸ hfree) f hf
  refine ⟨hok, fun q => ⟨hok, fun i hl => ?_, fun _ f hf => ⟨(hfile f).2 hf, ?_, rfl⟩, fun hl => ?_, ?_,
    fun _ => List.prefix_refl _⟩⟩
  · simp only [hlock]
    exact hl
  · simp only [hcalls]
  · simp only [hlock]
    exact hl
  · simp only [hturn]

/-- A file that is not on the inode changes, or the references to one. -/
theorem setFile (h : FilesOk w s) {y : File} (hinode : y.inode = (s.1.file f).inode)
    (hoffset : w.home f = some w.ip → y.offset = (s.1.file f).offset) :
    FilesOk w (s.1.setFile f y, s.2) ∧ ∀ q, Rely w q s (s.1.setFile f y, s.2) := by
  refine h.congr (t := s.1.setFile f y) rfl (fun g => ?_) rfl rfl rfl
  by_cases hg : g = f
  · subst hg
    simpa [Files.setFile] using ⟨hinode, hoffset⟩
  · simp [Files.setFile, hg]

/-- A call gives up the lock of its file, after it has been counted. -/
theorem release (h : FilesOk w s) (hlock : s.1.lock i = some p)
    (hlengths : i = w.ip → ∀ g, w.home g = some w.ip → (s.2 g).length = (s.1.calls g).length) :
    FilesOk w ({ s.1 with lock := Function.update s.1.lock i none }, s.2) ∧
      ∀ q, q ≠ p → Rely w q s ({ s.1 with lock := Function.update s.1.lock i none }, s.2) := by
  have hok : FilesOk w ({ s.1 with lock := Function.update s.1.lock i none }, s.2) := by
    refine ⟨h.inode, h.home, h.le, h.size, h.delivered, fun hnone g hg => ?_⟩
    by_cases hi : i = w.ip
    · exact hlengths hi g hg
    · simp only [Function.update_of_ne (Ne.symm hi)] at hnone
      exact h.free hnone g hg
  refine ⟨hok, fun q hq => ⟨hok, fun j hj => ?_, fun _ _ _ => ⟨rfl, rfl, rfl⟩, fun hl => ?_, rfl,
    fun _ => List.prefix_refl _⟩⟩
  · have hne : j ≠ i := by
      rintro rfl
      rw [hlock] at hj
      exact hq (Option.some.inj hj).symm
    simpa [hne] using hj
  · by_cases hi : w.ip = i
    · simp [hi]
    · simpa [hi] using hl

/-- A call moves the offset of its file, by what it has delivered. -/
theorem count (h : FilesOk w s) (hf : w.home f = some w.ip) (hr : Reading w p f n s)
    (hle : c ≠ [] → (s.1.file f).offset + c.length ≤ w.size)
    (hc : c = (List.range c.length).map fun k => w.byte ((s.1.file f).offset + k)) :
    FilesOk w (s.count f c) ∧ (∀ q, q ≠ p → Rely w q s (s.count f c)) ∧
      Counted w p f n c (s.count f c) := by
  have hstart := h.le f hf
  have hok : FilesOk w (s.count f c) := by
    refine ⟨h.inode, fun g => ?_, fun g hg => ?_, fun g hg hsize => ?_, fun g hg => ?_, fun hnone => ?_⟩
    · by_cases hgf : g = f
      · subst hgf
        simpa [Shared.count, Files.setFile] using h.home g
      · simpa [Shared.count, Files.setFile, hgf] using h.home g
    · by_cases hgf : g = f
      · subst hgf
        simp only [Shared.count, Files.setFile, Function.update_self]
        omega
      · simpa [Shared.count, Files.setFile, hgf] using h.le g hg
    · by_cases hgf : g = f
      · subst hgf
        simp only [Shared.count, Files.setFile, Function.update_self]
        by_cases hnil : c = []
        · subst hnil
          exact h.size g hg hsize
        · exact hle hnil
      · simpa [Shared.count, Files.setFile, hgf] using h.size g hg hsize
    · by_cases hgf : g = f
      · subst hgf
        have hlen : (s.1.file g).offset + c.length - w.start g =
            (s.1.file g).offset - w.start g + c.length := by omega
        simp only [Shared.count, Files.setFile, Function.update_self, hlen]
        apply (h.delivered g hg).snoc
        · rw [hr.chunks, hr.calls]
          omega
        · refine hc.trans (List.map_congr_left fun k _ => ?_)
          congr 1
          omega
      · simpa [Shared.count, Files.setFile, hgf] using h.delivered g hg
    · have hlock : s.1.lock w.ip = none := hnone
      rw [hr.lock] at hlock
      cases hlock
  refine ⟨hok, fun q hq => ⟨hok, fun _ hl => hl, fun hl => ?_, fun hl => hl, rfl, fun g => ?_⟩,
    hr.lock, hr.turn, ?_, fun g hg => ?_⟩
  · rw [hr.lock] at hl
    exact absurd (Option.some.inj hl).symm hq
  · by_cases hgf : g = f
    · subst hgf
      simp [Shared.count]
    · simp [Shared.count, hgf]
  · simp [Shared.count, ← hr.chunks]
  · by_cases hgf : g = f
    · subst hgf
      simp [Shared.count, Files.setFile, hr.chunks, hr.calls]
    · simpa [Shared.count, Files.setFile, hgf] using hr.others g hg hgf

variable [DecidableEq P]

/-- A call takes the lock of its file. -/
theorem took (h : FilesOk w s) (hfree : s.1.lock i = none) (hf : w.home f = some i) (p : P) :
    FilesOk w (s.1.took p i f, s.2) ∧
      ∀ q, q ≠ p →
        Rely w q s (s.1.took p i f, s.2) := by
  have hok : FilesOk w
      (s.1.took p i f, s.2) := by
    refine ⟨h.inode, h.home, h.le, h.size, fun g hg => ?_, fun hnone g hg => ?_⟩
    · by_cases hgf : g = f
      · subst hgf
        simpa [Files.took] using (h.delivered g hg).took
      · simpa [Files.took, hgf] using h.delivered g hg
    · have hi : w.ip ≠ i := by
        rintro rfl
        simp [Files.took] at hnone
      have hgf : g ≠ f := by
        rintro rfl
        exact hi (Option.some.inj (hg.symm.trans hf))
      simp only [Files.took, Function.update_of_ne hi] at hnone
      simpa [Files.took, hgf] using h.free hnone g hg
  refine ⟨hok, fun q hq => ⟨hok, fun j hj => ?_, fun hl g hg => ⟨rfl, ?_, rfl⟩, fun hl => ?_, ?_,
    fun _ => List.prefix_refl _⟩⟩
  · have hne : j ≠ i := by
      rintro rfl
      rw [hfree] at hj
      cases hj
    simpa [Files.took, hne] using hj
  · have hgf : g ≠ f := by
      rintro rfl
      obtain rfl : i = w.ip := Option.some.inj (hf.symm.trans hg)
      rw [hfree] at hl
      cases hl
    simp [Files.took, hgf]
  · by_cases hi : w.ip = i
    · simpa [Files.took, hi] using Ne.symm hq
    · simpa [Files.took, hi] using hl
  · simp [Files.took, hq]

/-- A call returns what it has delivered. -/
theorem returned (h : FilesOk w s) (hr : Returning w p x s) :
    FilesOk w (s.1.returned p x, s.2) ∧ (∀ q, q ≠ p → Rely w q s (s.1.returned p x, s.2)) ∧
      Out w p ((s.1.returned p x, s.2), []) := by
  rcases hturn : s.1.turn p with _ | ⟨f, n⟩
  · have hsame : s.1.returned p x = s.1 := by simp [Files.returned, hturn]
    rw [hsame]
    exact ⟨h, fun q _ => .refl h, rfl, hr.lock, hturn⟩
  · have hstep : s.1.returned p x = { s.1 with
        calls := Function.update s.1.calls f ((s.1.calls f).set n (some x))
        turn := Function.update s.1.turn p none } := by simp [Files.returned, hturn]
    have hlen : ∀ g, ((s.1.returned p x).calls g).length = (s.1.calls g).length := by
      intro g
      by_cases hgf : g = f
      · subst hgf
        simp [hstep]
      · simp [hstep, hgf]
    have hok : FilesOk w (s.1.returned p x, s.2) := by
      refine ⟨?_, ?_, ?_, ?_, fun g hg => ?_, fun hnone g hg => ?_⟩
      · simpa [hstep] using h.inode
      · simpa [hstep] using h.home
      · simpa [hstep] using h.le
      · simpa [hstep] using h.size
      · by_cases hgf : g = f
        · subst hgf
          simpa [hstep] using (h.delivered g hg).set (hr.chunk g n hturn hg)
        · simpa [hstep, hgf] using h.delivered g hg
      · simp only [hlen]
        apply h.free _ g hg
        simpa [hstep] using hnone
    refine ⟨hok, fun q hq => ⟨hok, fun i hl => ?_, fun _ g _ => ⟨?_, hlen g, rfl⟩, fun hl => ?_, ?_,
      fun _ => List.prefix_refl _⟩, rfl, ?_, ?_⟩
    · simpa [hstep] using hl
    · simp [hstep]
    · simpa [hstep] using hl
    · simp [hstep, hq]
    · simpa [hstep] using hr.lock
    · simp [hstep]

end FilesOk
end Turns

section Calls
variable {P : Type} {w : Setting} {p : P} {s t : Shared P} {devsw : ℕ → Devsw} {f : FileId} {n : ℕ}

/-- `release` after a call has been counted. -/
theorem file_release {r : ℤ} {dst : Bytes} (hf : w.home f = some w.ip)
    (hc : Counted w p f n (delivered (r, some dst)) s) :
    (release w.ip).wp (fileSpec w p)
      (fun _ y => y.2 = [] ∧ Returning w p (r, some dst) y.1) (s, []) := by
  refine file_atom fun t ht _ u hu => ?_
  obtain rfl := Option.some.inj hu
  have hc := hc.rely hf ht
  obtain ⟨hok, hrely⟩ := ht.ok.release hc.lock fun _ => hc.lengths
  refine ⟨t.2, hok, hrely, rfl, by simp, fun g m hturn hg => ?_⟩
  obtain ⟨rfl, rfl⟩ : f = g ∧ n = m := by simpa [hc.turn] using hturn
  exact hc.chunk

/-- A call that has read a chunk moves the offset, and gives up the lock. -/
theorem file_finish (hsize : w.size < 2 ^ 32) (hf : w.home f = some w.ip) (hr : Reading w p f n s)
    {r : ℤ} {dst : Bytes} (hchunk : Chunk w (s.1.file f).offset (r, dst)) :
    (do
      if 0 < r then
        Thread.change fun s : Files P =>
          s.setFile f { s.file f with offset := ((s.file f).offset + r.toNat) % 2 ^ 32 }
      release w.ip
      pure (r, some dst) : Code (Files P) Result).wp (fileSpec w p)
      (fun x y => y.2 = [] ∧ Returning w p x y.1) (s, []) := by
  have hlen : (delivered (r, some dst)).length = r.toNat := by simp [delivered]
  simp only [Thread.wp_ite, Thread.wp_change, Thread.wp_bind, Thread.wp_pure]
  split
  next hpos =>
    refine file_atom fun t ht _ u hu => ?_
    obtain rfl := Option.some.inj hu
    rw [← (ht.mine hr.lock f hf).1] at hchunk
    obtain ⟨hle, hdst⟩ := hchunk hpos
    have hmod : ((t.1.file f).offset + r.toNat) % 2 ^ 32 = (t.1.file f).offset + r.toNat :=
      Nat.mod_eq_of_lt (Nat.lt_of_le_of_lt hle hsize)
    obtain ⟨hok, hrely, hc⟩ := ht.ok.count (c := delivered (r, some dst)) hf (hr.rely hf ht)
      (fun _ => by rw [hlen]; exact hle) (by
        rw [hlen]
        exact List.map_congr_left fun k hk => hdst k (List.mem_range.mp hk))
    rw [Shared.count, hlen, ← hmod] at hok hrely hc
    exact ⟨_, hok, hrely, file_release hf hc⟩
  next hneg =>
    -- The call delivers nothing, and this is counted when it gives up the lock.
    refine file_atom fun t ht _ u hu => ?_
    obtain rfl := Option.some.inj hu
    have hnil : delivered (r, some dst) = [] := List.eq_nil_of_length_eq_zero (by omega)
    obtain ⟨hok, hrely, hc⟩ := ht.ok.count (c := []) hf (hr.rely hf ht) (fun hne => absurd rfl hne) rfl
    have hsame : Shared.count t f [] = (t.1, Function.update t.2 f (t.2 f ++ [[]])) := by
      simp [Shared.count, Files.setFile]
    rw [hsame] at hok hrely hc
    obtain ⟨hok', hrely'⟩ := hok.release hc.lock fun _ => hc.lengths
    refine ⟨_, hok', fun q hq => (hrely q hq).trans (hrely' q hq), rfl, by simp, fun g m hturn hg => ?_⟩
    have hturn' : t.1.turn p = some (f, n) := hc.turn
    obtain ⟨rfl, rfl⟩ : f = g ∧ n = m := by simpa [hturn'] using hturn
    rw [hnil]
    exact hc.chunk

/-- A call for a file of a device gives up the lock. -/
theorem file_finish_dev {i : InodeId} (hok : FilesOk w s) (hi : i ≠ w.ip) (hf : w.home f = some i)
    (hlock : s.1.lock i = some p) (hother : s.1.lock w.ip ≠ some p) (hturn : s.1.turn p = some (f, n))
    (r : ℤ) (dst : Bytes) :
    (do
      if 0 < r then
        Thread.change fun s : Files P =>
          s.setFile f { s.file f with offset := ((s.file f).offset + r.toNat) % 2 ^ 32 }
      release i
      pure (r, some dst) : Code (Files P) Result).wp (fileSpec w p)
      (fun x y => y.2 = [] ∧ Returning w p x y.1) (s, []) := by
  have hhome : w.home f ≠ some w.ip := by
    rw [hf]
    exact fun h => hi (Option.some.inj h)
  have hrelease : ∀ t, Rely w p s t → (release i : Code (Files P) Unit).wp (fileSpec w p)
      (fun _ y => y.2 = [] ∧ Returning w p (r, some dst) y.1) (t, []) := by
    intro t ht
    refine file_atom fun u hu _ v hv => ?_
    obtain rfl := Option.some.inj hv
    have hrely := ht.trans hu
    obtain ⟨hok, hrely'⟩ := hu.ok.release (hrely.locks i hlock) fun h => absurd h hi
    refine ⟨u.2, hok, hrely', rfl, ?_, fun g m hg hgip => ?_⟩
    · simpa [Ne.symm hi] using hrely.other hother
    · have hg : u.1.turn p = some (g, m) := hg
      obtain ⟨rfl, -⟩ : f = g ∧ n = m := by simpa [hrely.turn, hturn] using hg
      exact absurd hgip hhome
  simp only [Thread.wp_ite, Thread.wp_change, Thread.wp_bind, Thread.wp_pure]
  split
  next hpos =>
    refine file_atom fun t ht _ u hu => ?_
    obtain rfl := Option.some.inj hu
    obtain ⟨hok', hrely⟩ := ht.ok.setFile (f := f) (y :=
      { t.1.file f with offset := ((t.1.file f).offset + r.toNat) % 2 ^ 32 }) rfl fun h => absurd h hhome
    exact ⟨t.2, hok', fun q _ => hrely q, hrelease _ (ht.trans (hrely p))⟩
  next => exact hrelease s (.refl hok)

/-- A statement that concerns no lock, call, inode or offset. -/
theorem file_change {Q : Files P → Shared P × Held → Prop} {f : Files P → Option (Files P)}
    (hout : Out w p (s, []))
    (h : ∀ t, FilesOk w t → ∀ u, f t.1 = some u → FilesOk w (u, t.2) ∧ ∀ q, Rely w q t (u, t.2))
    (hQ : ∀ t u, Out w p (u, []) → Q t (u, [])) : (fileSpec w p).atom f Q (s, []) := by
  refine file_atom fun t ht _ u hu => ?_
  obtain ⟨hok, hrely⟩ := h t ht.ok u hu
  exact ⟨t.2, hok, fun q _ => hrely q, hQ t.1 _ (hout.rely (ht.trans (hrely p)))⟩

/-- The references to a file change. -/
theorem FilesOk.refcnt (h : FilesOk w s) (f : FileId) (n : ℕ) :
    FilesOk w (s.1.setFile f { s.1.file f with refcnt := n }, s.2) ∧
      ∀ q, Rely w q s (s.1.setFile f { s.1.file f with refcnt := n }, s.2) :=
  h.setFile (y := { s.1.file f with refcnt := n }) rfl fun _ => rfl

variable [DecidableEq P]

/-- **`sys_read`** returns what it has delivered. -/
theorem file_sys_read (htype : (w.inode w.ip).dinode.type ≠ T_DEV) (hsize : w.size < 2 ^ 32)
    (hout : Out w p (s, [])) (fd : ℤ) (dst : Option Bytes) (size : ℤ) :
    (sys_read devsw p fd dst size).wp (fileSpec w p)
      (fun x y => y.2 = [] ∧ Returning w p x y.1) (s, []) := by
  have hno : ∀ {t : Shared P}, ([] : Held) ≠ [] → t.1.lock w.ip = some p := fun h => absurd rfl h
  simp only [sys_read, Thread.wp_bind, Thread.wp_look]
  refine file_look hno fun t₁ h₁ _ => ?_
  have hfail : ∀ t x, Rely w p s t → ([] : Held) = [] ∧ Returning w p x t :=
    fun t x ht => ⟨rfl, (hout.rely ht).returning x⟩
  rcases hf : t₁.1.argfd p fd with _ | f
  · exact hfail t₁ _ h₁
  rcases dst with _ | dst
  · exact hfail t₁ _ h₁
  simp only [Thread.wp_ite, Thread.wp_pure, Thread.wp_bind, Thread.wp_look]
  split
  next => exact ⟨trivial, (hfail t₁ _ h₁).2⟩
  refine file_look hno fun t₂ h₂ _ => ?_
  rw [h₂.ok.home]
  rcases hhome : w.home f with _ | i
  · trivial
  have hrely₂ := h₁.trans h₂
  simp only [acquire, Thread.wp_await, Thread.wp_bind, Thread.wp_look]
  refine file_atom fun t₃ h₃ _ u hu => ?_
  simp only [Option.ite_none_right_eq_some, Option.some.injEq] at hu
  obtain ⟨hfree, rfl⟩ := hu
  obtain ⟨hok, hrely⟩ := h₃.ok.took hfree hhome p
  refine ⟨t₃.2, hok, hrely, file_look hno fun t₄ h₄ hquiet => ?_⟩
  by_cases hi : i = w.ip
  · subst hi
    have hread : Reading w p f (t₃.1.calls f).length (t₃.1.took p w.ip f, t₃.2) := by
      have hlengths := h₃.ok.free hfree
      refine ⟨by simp [Files.took], by simp [Files.took], hlengths f hhome, by simp [Files.took],
        fun g hg hne => ?_⟩
      simpa [Files.took, hne] using hlengths g hg
    have hread₄ := hread.rely hhome h₄
    refine Thread.wp_mono (file_readi dst hread₄.lock htype hsize) fun x y hy => ?_
    obtain ⟨hnil, h₅, hchunk⟩ := hy
    obtain ⟨y, bs⟩ := y
    obtain rfl : bs = [] := hnil
    rw [← (h₅.mine hread₄.lock f hhome).1] at hchunk
    exact file_finish hsize hhome (hread₄.rely hhome h₅) hchunk
  · -- The file is one of a device, since nobody else is reading.
    have hlock₄ : t₄.1.lock i = some p := h₄.locks i (by simp [Files.took])
    have hdev : (w.inode i).dinode.type = T_DEV := by
      rw [← h₄.ok.inode]
      exact (hquiet i (by simp [hlock₄])).resolve_left hi
    have hother : (t₃.1.took p i f).lock w.ip ≠ some p := by
      simpa [Files.took, Ne.symm hi] using (hrely₂.trans h₃).other hout.lock
    have hturn : (t₃.1.took p i f).turn p = some (f, (t₃.1.calls f).length) := by simp [Files.took]
    refine Thread.wp_mono (file_readi_dev dst hdev) fun x y hy => ?_
    obtain ⟨hnil, h₅⟩ := hy
    obtain ⟨y, bs⟩ := y
    obtain rfl : bs = [] := hnil
    have hrely₅ := h₄.trans h₅
    exact file_finish_dev h₅.ok hi hhome (h₅.locks i hlock₄) (hrely₅.other hother)
      (hrely₅.turn.trans hturn) x.1 x.2

/-- The descriptors of a process change. -/
theorem FilesOk.setOfile (h : FilesOk w s) (np : P) (fd : Fd) (f : FileId) :
    FilesOk w (s.1.setOfile np fd f, s.2) ∧ ∀ q, Rely w q s (s.1.setOfile np fd f, s.2) :=
  h.congr (t := s.1.setOfile np fd f) rfl (fun _ => ⟨rfl, fun _ => rfl⟩) rfl rfl rfl

/-- The child gets the files of its parent. -/
theorem file_copyFiles (np : P) (fds : List Fd) (hout : Out w p (s, [])) :
    (copyFiles p np fds).wp (fileSpec w p) (fun _ y => Out w p y) (s, []) := by
  induction fds generalizing s with
  | nil => exact hout
  | cons fd fds ih =>
      simp only [copyFiles, Thread.wp_bind, Thread.wp_look]
      refine file_look (fun h => absurd rfl h) fun t ht _ => ?_
      have hout := hout.rely ht
      rcases t.1.ofile p fd with _ | f
      · exact ih hout
      simp only [Thread.wp_bind, Thread.wp_await, Thread.wp_change]
      refine file_change hout (fun t ht u hu => ?_) fun _ u hout => ?_
      · simp only [Files.fdup, Option.ite_none_left_eq_some, Option.some.injEq] at hu
        obtain ⟨-, rfl⟩ := hu
        exact ht.refcnt f _
      · refine file_change hout (fun t ht u hu => ?_) fun _ u hout => ih hout
        obtain rfl := Option.some.inj hu
        exact ht.setOfile np fd f

/-- **`sys_fork`** leaves the offsets alone. -/
theorem file_sys_fork (np : P) (hout : Out w p (s, [])) :
    (sys_fork p np).wp (fileSpec w p) (fun _ y => Out w p y) (s, []) := by
  simp only [sys_fork, palloc, Thread.wp_bind, Thread.wp_await, Thread.wp_change]
  refine file_change hout (fun t ht u hu => ?_) fun _ u hout => ?_
  · simp only [Option.ite_none_right_eq_some, Option.some.injEq] at hu
    obtain ⟨-, rfl⟩ := hu
    exact ht.congr rfl (fun _ => ⟨rfl, fun _ => rfl⟩) rfl rfl rfl
  refine file_change hout (fun t ht u hu => ?_) fun _ u hout => ?_
  · obtain rfl := Option.some.inj hu
    exact ht.refcnt STDIN _
  refine file_change hout (fun t ht u hu => ?_) fun _ u hout => ?_
  · obtain rfl := Option.some.inj hu
    exact ht.setOfile np 0 STDIN
  refine file_change hout (fun t ht u hu => ?_) fun _ u hout => ?_
  · obtain rfl := Option.some.inj hu
    exact ht.refcnt STDOUT _
  refine file_change hout (fun t ht u hu => ?_) fun _ u hout => ?_
  · obtain rfl := Option.some.inj hu
    exact ht.setOfile np 1 STDOUT
  refine Thread.wp_mono (file_copyFiles np _ hout) fun _ y hy => ?_
  obtain ⟨y, bs⟩ := y
  obtain rfl : bs = [] := hy.held
  refine file_change hy (fun t ht u hu => ?_) fun _ u hout => hout
  obtain rfl := Option.some.inj hu
  exact ht.congr rfl (fun _ => ⟨rfl, fun _ => rfl⟩) rfl rfl rfl

/-- **Every call** keeps what the calls of a file deliver consecutive. -/
theorem file_code (htype : (w.inode w.ip).dinode.type ≠ T_DEV) (hsize : w.size < 2 ^ 32)
    (hout : Out w p (s, [])) (c : FileCmd P) :
    (c.code devsw p).wp (fileSpec w p) (fun _ y => Out w p y) (s, []) := by
  simp only [FileCmd.code, Thread.wp_bind, Thread.wp_await]
  refine file_change hout (fun t ht u hu => ?_) fun _ u hout => ?_
  · simp only [Option.ite_none_right_eq_some, Option.some.injEq] at hu
    obtain ⟨-, rfl⟩ := hu
    exact ⟨ht, fun q => .refl ht⟩
  cases c with
  | read fd dst size =>
      refine Thread.wp_bind.mpr (Thread.wp_mono (file_sys_read htype hsize hout fd dst size) ?_)
      rintro x ⟨y, bs⟩ ⟨hnil, hreturning⟩
      obtain rfl : bs = [] := hnil
      refine file_atom fun t ht _ u hu => ?_
      obtain rfl := Option.some.inj hu
      exact ⟨t.2, ht.ok.returned (hreturning.rely ht)⟩
  | fork np => exact file_sys_fork np hout

end Calls

/-! ## Runs -/

section Runs
variable {P : Type} {w : Setting} {p : P} {s t : FsSt P (Files P)} {g g' : FileId → List (List UInt8)}

/-- What process `p` knows, at `pc`, and the buffer that it has with the lock. -/
def Knows (w : Setting) (s : FsSt P (Files P)) (g : FileId → List (List UInt8)) (p : P) :
    FsPc (Files P) → Prop
  | .run t => s.io.pc p = .idle ∧ (s.sh.lock w.ip = some p ∨ s.io.held p = []) ∧
      t.wp (fileSpec w p) (fun _ y => Out w p y) ((s.sh, g), s.io.held p)
  | .read n k => s.sh.lock w.ip = some p ∧
      (∀ b, (k b).wp (fileSpec w p) (fun _ y => Out w p y) ((s.sh, g), [(n, b)])) ∧
      ((s.io.pc p).reads = some n ∧ s.io.held p = [] ∨
        s.io.pc p = .idle ∧ ∃ b, s.io.held p = [(n, b)])

/-- What holds in every state. -/
structure OffsetInv [Fintype P] (w : Setting) (s : FsSt P (Files P)) (g : FileId → List (List UInt8)) :
    Prop where
  io : ReadIo s.io
  sectors : s.io.sectors = w.sectors
  ok : FilesOk w (s.sh, g)
  knows : ∀ p, Knows w s g p (s.pc p)

/-- What a process knows the others cannot break. -/
theorem Knows.stable {pc : FsPc (Files P)} (h : Knows w s g p pc) (hrely : Rely w p (s.sh, g) (t.sh, g'))
    (hpc : t.io.pc p = s.io.pc p) (hheld : t.io.held p = s.io.held p) : Knows w t g' p pc := by
  have hout : ∀ (a : Unit) (x y : Shared P × Held), (Rely w p x.1 y.1 ∧ y.2 = x.2) → Out w p x →
      Out w p y := fun _ x y hxy hx =>
    ⟨hxy.2.trans hx.held, hxy.1.other hx.lock, hxy.1.turn.trans hx.turn⟩
  cases pc with
  | run c =>
      obtain ⟨hidle, hlock, hwp⟩ := h
      refine ⟨hpc.trans hidle, ?_, ?_⟩
      · rw [hheld]
        exact hlock.imp_left fun hl => hrely.locks _ hl
      · rw [hheld]
        exact Thread.wp_stable (x := ((s.sh, g), s.io.held p)) (fileSpec_stable w p) hout ⟨hrely, rfl⟩ hwp
  | read n k =>
      obtain ⟨hlock, hwp, hstage⟩ := h
      refine ⟨hrely.locks _ hlock, fun b => ?_, ?_⟩
      · exact Thread.wp_stable (x := ((s.sh, g), [(n, b)])) (fileSpec_stable w p) hout ⟨hrely, rfl⟩ (hwp b)
      · rwa [hpc, hheld]

variable [Fintype P]

namespace OffsetInv

/-- Who has the lock is alone. -/
theorem sole (h : OffsetInv w s g) (hlock : s.sh.lock w.ip = some p) : Sole s.io p := by
  have hout : ∀ q, q ≠ p → s.io.pc q = .idle ∧ s.io.held q = [] := by
    intro q hq
    have hne : s.sh.lock w.ip ≠ some q := by
      rw [hlock]
      exact fun heq => hq (Option.some.inj heq).symm
    have hk := h.knows q
    cases hpc : s.pc q with
    | run c =>
        rw [hpc] at hk
        exact ⟨hk.1, hk.2.1.resolve_left hne⟩
    | read n k =>
        rw [hpc] at hk
        exact absurd hk.1 hne
  exact ⟨fun q hq => (hout q hq).1, fun q hq => (hout q hq).2⟩

variable [DecidableEq P] {devsw : ℕ → Devsw}

/-- A statement of the cache leaves the shared state alone. -/
theorem cache (h : OffsetInv w s g) {call : Bio Sector} {io : IoSt P Sector} {pc : FsPc (Files P)}
    (hnext : s.io.next p call = some io) (hlock : s.sh.lock w.ip = some p) (hread : call.reading)
    (hheld : s.io.pc p ≠ .idle → s.io.held p = []) (hknows : Knows w { s.goto p pc with io } g p pc) :
    OffsetInv w { s.goto p pc with io } g := by
  have hmove := Fs.next_cases hnext
  refine ⟨h.io.next (h.sole hlock) hheld hread hnext, hmove.sectors.trans h.sectors, h.ok,
    fun q => ?_⟩
  by_cases hq : q = p
  · subst hq
    simpa [FsSt.goto] using hknows
  · obtain ⟨hpc, hheld⟩ := hmove.other hq
    simp only [FsSt.goto, Function.update_of_ne hq]
    exact (h.knows q).stable (.refl h.ok) hpc hheld

/-- So does a statement that uses neither. -/
theorem run (h : OffsetInv w s g) {c : Code (Files P) Unit} (hknows : Knows w s g p (.run c)) :
    OffsetInv w (s.goto p (.run c)) g := by
  refine ⟨h.io, h.sectors, h.ok, fun q => ?_⟩
  by_cases hq : q = p
  · subst hq
    simp only [FsSt.goto, Function.update_self]
    exact hknows
  · simp only [FsSt.goto, Function.update_of_ne hq]
    exact h.knows q

/-- **Every statement** keeps the invariant, while no other regular file is being read. -/
theorem move (h : OffsetInv w s g) (htype : (w.inode w.ip).dinode.type ≠ T_DEV)
    (hsize : w.size < 2 ^ 32) (hquiet : Quiet w.ip s.sh) (hmove : FsMove (FileCmd.code devsw) p s t) :
    ∃ g, OffsetInv w t g := by
  have hp := h.knows p
  cases hmove with
  | start c hpc =>
      rw [hpc] at hp
      obtain ⟨hidle, -, hout⟩ := hp
      have hnil : s.io.held p = [] := hout.held
      refine ⟨g, h.run ⟨hidle, .inr hnil, ?_⟩⟩
      rw [hnil]
      exact file_code htype hsize ⟨rfl, hout.lock, hout.turn⟩ c
  | atom f k sh hpc hf =>
      rw [hpc] at hp
      obtain ⟨hidle, -, hwp⟩ := hp
      obtain ⟨g', hguar, hwp⟩ := hwp (s.sh, g) (.refl h.ok) hquiet sh hf
      refine ⟨g', h.io, h.sectors, hguar.ok, fun q => ?_⟩
      by_cases hq : q = p
      · subst hq
        simp only [FsSt.goto, Function.update_self]
        exact ⟨hidle, hguar.held, hwp⟩
      · simp only [FsSt.goto, Function.update_of_ne hq]
        exact (h.knows q).stable (hguar.rely q hq) rfl rfl
  | bget n k io b bs hpc ht _ =>
      rw [hpc] at hp
      exact absurd hp.2.2 fun hf => hf
  | store n b f k io hpc hnext =>
      rw [hpc] at hp
      exact absurd hp.2.2 fun hf => hf
  | load b k hpc =>
      rw [hpc] at hp
      obtain ⟨hidle, hlock, n, hheld, hwp⟩ := hp
      have hheld : s.io.held p = [(n, b)] := hheld
      -- The buffer has the contents of the sector.
      have hdata : (s.io.blocks b).data = w.sectors n := by
        have hmem : (n, b) ∈ s.io.held p := by rw [hheld]; simp
        rw [← h.sectors]
        exact (h.io.reads.readsValid p n b hmem).2.2
      rw [hdata]
      exact ⟨g, h.run ⟨hidle, hlock, hwp⟩⟩
  | bread n k io hpc hnext =>
      rw [hpc] at hp
      obtain ⟨-, -, hlock, hnil, hwp⟩ := hp
      refine ⟨g, h.cache hnext hlock rfl (fun _ => hnil) ⟨hlock, hwp, .inl ?_⟩⟩
      obtain ⟨-, rfl⟩ := bread_cases hnext
      exact ⟨by simp [IoPc.reads], hnil⟩
  | brelse n b k io hpc hnext =>
      rw [hpc] at hp
      obtain ⟨hidle, hlock, hheld, hwp⟩ := hp
      have hheld : s.io.held p = [(n, b)] := hheld
      have hlock := hlock.resolve_right (by simp [hheld])
      refine ⟨g, h.cache hnext hlock rfl (fun hne => absurd hidle hne) ?_⟩
      simp only [IoSt.next, hidle, hheld, List.mem_singleton, if_true, Option.some.injEq] at hnext
      subst hnext
      simp only [Knows, IoSt.setHeld_pc, IoSt.setBlock_pc, IoSt.setHeld_held, Function.update_self,
        List.erase_cons_head]
      exact ⟨hidle, .inl hlock, hwp⟩
  | go n k io hpc hidle hnext =>
      rw [hpc] at hp
      obtain ⟨hlock, hwp, hstage⟩ := hp
      obtain ⟨hreads, hheld⟩ := hstage.resolve_right fun hs => hidle hs.1
      have hgoto : ({ s with io } : FsSt P (Files P)) = { s.goto p (.read n k) with io } := by
        simp only [FsSt.goto, ← hpc, Function.update_eq_self]
      rw [hgoto]
      refine ⟨g, h.cache hnext hlock rfl (fun _ => hheld) ⟨hlock, hwp, ?_⟩⟩
      rcases reads_move (Fs.next_cases hnext) hreads with ⟨hr, hb⟩ | ⟨hi, b, hb⟩
      · exact .inl ⟨hr, hb.trans hheld⟩
      · exact .inr ⟨hi, b, by rw [hb, hheld]⟩
  | done n k b bs hpc hidle hheld =>
      rw [hpc] at hp
      obtain ⟨hlock, hwp, hstage⟩ := hp
      rcases hstage with ⟨hreads, -⟩ | ⟨-, c, hc⟩
      · rw [hidle] at hreads
        cases hreads
      · obtain ⟨rfl, rfl⟩ : b = (n, c) ∧ bs = [] := by simpa [hheld] using hc
        refine ⟨g, h.run ⟨hidle, .inl hlock, ?_⟩⟩
        rw [hheld]
        exact hwp c

omit [DecidableEq P] in
theorem intr (h : OffsetInv w s g) {io : IoSt P Sector} (hintr : s.io.ideintr = some io) :
    OffsetInv w { s with io } g := by
  have hi := ideintr_interrupt hintr
  refine ⟨h.io.intr hintr, (h.io.sectors_of_intr hintr).trans h.sectors, h.ok, fun q => ?_⟩
  exact (h.knows q).stable (.refl h.ok) (congrFun hi.pc q) (congrFun hi.held q)

end OffsetInv

/-- **Shared offsets.**  Processes read a file through `struct file`s on its inode, and devices; no
other regular file is being read meanwhile.  Whatever the processes read, and whenever the drive
interrupts, the calls for a `struct file` that starts at offset 0 have delivered the bytes of the
file up to its offset, one after another in the order in which they took the lock; when all of
them have returned, their results and buffers are these bytes. -/
theorem delivered_once [DecidableEq P] (devsw : ℕ → Devsw) {io : IoSt P Sector} (hcalm : Calm io)
    {sh : Files P} {ip : InodeId} (hfree : sh.lock ip = none) (hcalls : ∀ f, sh.calls f = [])
    (hturn : ∀ q, sh.turn q = none) (htype : (sh.inode ip).dinode.type ≠ T_DEV)
    (hsize : (sh.inode ip).dinode.size < 2 ^ 32) (p : P) {s : Cpu P (FsSt P (Files P))}
    (h : (fileUni P devsw).machine.Path (fun s _ => Quiet ip s.st.sh) ⟨p, .start io sh⟩ s)
    {f : FileId} (hf : (sh.file f).inode = some ip) (hstart : (sh.file f).offset = 0) :
    (∃ chunks, Delivered (fileByte (sh.inode ip) io.sectors) (s.st.sh.file f).offset (s.st.sh.calls f)
      chunks) ∧
      (s.st.sh.file f).offset ≤ (sh.inode ip).dinode.size ∧
      ((∀ c ∈ s.st.sh.calls f, c ≠ none) →
        (s.st.sh.calls f).flatMap (fun c => c.elim [] delivered) =
          (List.range (s.st.sh.file f).offset).map (fileByte (sh.inode ip) io.sectors)) := by
  let w : Setting := ⟨ip, sh.inode, io.sectors, fun f => (sh.file f).inode, fun f => (sh.file f).offset⟩
  have hnil : ∀ q, Out w q ((sh, fun _ => []), []) := fun q => ⟨rfl, by simp [w, hfree], hturn q⟩
  have hinit : OffsetInv w (.start io sh) fun _ => [] := by
    refine ⟨hcalm.io, rfl, ⟨rfl, fun _ => rfl, fun _ _ => Nat.le_refl _, fun _ _ hle => hle, fun f _ => ?_,
      fun _ f _ => ?_⟩, fun q => ⟨hcalm.pc q, .inr (hcalm.held q), ?_⟩⟩
    · refine ⟨fun i x hx => ?_, by simp, by simp [FsSt.start, w]⟩
      simp [FsSt.start, hcalls] at hx
    · simp [FsSt.start, hcalls]
    · rw [show (FsSt.start io sh).io.held q = [] from hcalm.held q]
      exact hnil q
  have hinv : ∃ g, OffsetInv w s.st g := by
    refine fsUni_path_invariant (I := fun s => ∃ g, OffsetInv w s g) (A := fun s => Quiet ip s.sh) h
      ⟨_, hinit⟩ (fun q st st' hI hquiet hmove => ?_) fun st io' hI hintr => ?_
    · obtain ⟨g, hg⟩ := hI
      exact hg.move htype hsize hquiet hmove
    · obtain ⟨g, hg⟩ := hI
      exact ⟨g, hg.intr hintr⟩
  obtain ⟨g, hg⟩ := hinv
  have hdel := hg.ok.delivered f hf
  have hzero : w.start f = 0 := hstart
  simp only [hzero, Nat.sub_zero, Nat.zero_add] at hdel
  refine ⟨⟨g f, hdel⟩, hg.ok.size f hf ?_, hdel.of_returned⟩
  rw [hzero]
  exact Nat.zero_le _

end Runs

/-! ### A process and its child read three bytes -/

/-- Process 0 has the console, file 2, which is open on an inode of three bytes in block 7, and a
file on another inode. -/
def threeBytes : Files (Fin 2) where
  stat p := if p = 0 then .RUN else .UNUSED
  ofile p fd := if p ≠ 0 ∨ 5 ≤ fd.val then none else if fd = 4 then some 3 else if fd = 3 then some 2
    else some (Fin.ofNat 64 fd.val)
  file f := ⟨1, some (if f = 2 then 0 else if f = 3 then 1 else 63), 0⟩
  inode i := ⟨5, 1, true, 0, ⟨if i = 63 then T_DEV else Cache.T_FILE, 0, 0, 0, 1, 3, fun _ => 7⟩⟩
  lock _ := none
  calls _ := []
  turn _ := none

/-- Process 0 forks process 1, and reads two bytes.  Before it returns, process 1 reads the rest and
returns. -/
def forkRead : List (CpuEvent (Fin 2) (FsEvent (FileCmd (Fin 2)))) :=
  .exec (.call (.fork 1)) :: List.replicate 49 (.exec .go) ++
    .exec (.call (.read 3 (some fun _ => 0) 2)) :: List.replicate 24 (.exec .go) ++
    .intr :: List.replicate 13 (.exec .go) ++
    .switch 1 :: .exec (.call (.read 3 (some fun _ => 0) 2)) :: List.replicate 26 (.exec .go) ++
    [.switch 0, .exec .go]

theorem delivered_once_forkRead : ∃ s : Cpu (Fin 2) (FsSt (Fin 2) (Files (Fin 2))),
    (fileUni (Fin 2) fun _ => ⟨none, none⟩).machine.Path (fun s _ => Quiet 0 s.st.sh)
      ⟨0, .start (.init (fun _ => .RUN) (fun _ => 0) fun n i => UInt8.ofNat (n + i)) threeBytes⟩ s ∧
      (s.st.sh.calls 2).map (·.map delivered) = [some [7, 8], some [9]] ∧
      (s.st.sh.file 2).offset ≤ 3 ∧ (s.st.sh.calls 2).flatMap (fun c => c.elim [] delivered) =
        (List.range (s.st.sh.file 2).offset).map
          (fileByte (threeBytes.inode 0) fun n i => UInt8.ofNat (n + i)) := by
  obtain ⟨s, h, hcalls⟩ := (fileUni (Fin 2) fun _ => ⟨none, none⟩).machine.exists_path_of_run
    (fun s _ => Quiet 0 s.st.sh)
    ⟨0, .start (.init (fun _ => .RUN) (fun _ => 0) fun n i => UInt8.ofNat (n + i)) threeBytes⟩
    forkRead (fun s => (s.st.sh.calls 2).map (·.map delivered) = [some [7, 8], some [9]])
    (by decide +kernel)
  obtain ⟨-, hle, hreturned⟩ := delivered_once _ (Calm.init _ _ _) rfl (fun _ => rfl) (fun _ => rfl)
    (by decide) (by decide) 0 h (f := 2) rfl rfl
  refine ⟨s, h, hcalls, hle, hreturned fun c hc => ?_⟩
  rintro rfl
  have hmem := List.mem_map_of_mem (f := Option.map delivered) hc
  rw [hcalls] at hmem
  simp at hmem

end Mixv6.Fs.Routine
