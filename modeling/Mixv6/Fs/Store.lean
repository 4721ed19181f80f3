import Mixv6.Fs.Inode
import Mixv6.Lib.Machine

/-!
# Files as bytes

A disk with its buffer cache stands for a store of sectors: what a reader of each block finds.
`readi` reads from this store and `writei` writes to it, as long as no buffer is taken from a
block whose new data are not on the disk, and as long as `writei` writes a whole sector to a
buffer that is valid.

## Main definitions

* `Fine`, `Io.Safe` — the accesses, and the calls, that lose no data.
* `Wrote` — what `writei` does to the store.
* `ReadAfterWrite` — a file keeps what is written to it.
* `read_after_write` — it does, in every run of such calls.
-/

namespace Mixv6.Fs.Cache

open Mixv6.Lib
open Mixv6.Syscall (Inode T_DEV NADDR)

variable {s t u : State} {n : ℕ} {E : Panic → Prop} {ip : Inode} {offset size : ℕ} {l : Loop}
  {src dst : Bytes} {devsw : ℕ → Devsw}

/-- `T_FILE`. -/
def T_FILE : ℕ := 2

/-- The block and the place in it of a byte of a file. -/
def place (ip : Inode) (k : ℕ) : ℕ × ℕ := (ip.dinode.addr (k / SECTSIZE), k % SECTSIZE)

/-- A byte of a file. -/
def byteAt (s : State) (ip : Inode) (k : ℕ) : UInt8 :=
  view s (ip.dinode.addr (k / SECTSIZE)) (Fin.ofNat SECTSIZE k)

/-- No block is there twice. -/
def Distinct (ip : Inode) : Prop :=
  ∀ a b, a * SECTSIZE < ip.dinode.size → b * SECTSIZE < ip.dinode.size →
    ip.dinode.addr a = ip.dinode.addr b → a = b

/-- `bget` finds the block, or takes a buffer whose data are on the disk. -/
def Fine (s : State) (n : ℕ) : Prop := cached s n = none → Saved s (slot s n)

/-- A turn of `readi` loses no data. -/
def ReadOk (ip : Inode) (size : ℕ) (a : Loop × Bytes) (s : State) : Prop :=
  a.1.cnt < size → Fine s (ip.dinode.addr (a.1.offset / SECTSIZE))

/-- A turn of `writei` loses no data: a whole sector goes to a buffer that is found and valid. -/
def WriteOk (ip : Inode) (size : ℕ) (l : Loop) (s : State) : Prop :=
  l.cnt < size → if l.m size = SECTSIZE then hit s (ip.dinode.addr (l.offset / SECTSIZE)) = true
    else Fine s (ip.dinode.addr (l.offset / SECTSIZE))

instance decidableFine (s : State) (n : ℕ) : Decidable (Fine s n) :=
  inferInstanceAs (Decidable (_ → _))

instance decidableReadOk (ip : Inode) (size : ℕ) (a : Loop × Bytes) (s : State) :
    Decidable (ReadOk ip size a s) := inferInstanceAs (Decidable (_ → _))

instance decidableWriteOk (ip : Inode) (size : ℕ) (l : Loop) (s : State) :
    Decidable (WriteOk ip size l s) :=
  inferInstanceAs (Decidable (l.cnt < size → if l.m size = SECTSIZE then
    hit s (ip.dinode.addr (l.offset / SECTSIZE)) = true
    else Fine s (ip.dinode.addr (l.offset / SECTSIZE))))

/-! ## Turns -/

theorem Fine.view_access (h : Quiet s) (hfine : Fine s n) {valid : Bool} {data : Sector}
    (hvalid : valid = true) (hn : n < NSECTOR) (m : ℕ) :
    view (s.access n valid data) m = if m = n then data else view s m := by
  subst hvalid
  split
  next heq =>
    subst heq
    exact view_access_self h hn data
  next hne => exact view_access_of_ne h (fun _ => hn) hne hfine

/-- A turn of `readi` leaves the store alone. -/
theorem view_readTurn (h : Quiet s) (hfine : Fine s n) (hn : n < NSECTOR) :
    view (s.access n true (view s n)) = view s := by
  funext m
  rw [hfine.view_access h rfl hn]
  split
  next heq => rw [heq]
  next => rfl

/-- A turn of `writei` writes to the store. -/
theorem view_writeTurn (h : Quiet s) (hlt : l.cnt < size) (hok : WriteOk ip size l s)
    (hn : l.m size ≠ SECTSIZE → ip.dinode.addr (l.offset / SECTSIZE) < NSECTOR) :
    Quiet (s.access (ip.dinode.addr (l.offset / SECTSIZE)) (writtenValid s ip size l)
      (written s ip src size l)) ∧ ip.dinode.addr (l.offset / SECTSIZE) < NSECTOR ∧
    ∀ m, view (s.access (ip.dinode.addr (l.offset / SECTSIZE)) (writtenValid s ip size l)
      (written s ip src size l)) m =
      if m = ip.dinode.addr (l.offset / SECTSIZE) then
        moveIn src l.cnt (view s m) (l.offset % SECTSIZE) (l.m size)
      else view s m := by
  have hturn := hok hlt
  by_cases hwhole : l.m size = SECTSIZE
  · rw [if_pos hwhole] at hturn
    have hsector := h.sector_of_hit hturn
    have hvalid : writtenValid s ip size l = true := by rwa [writtenValid, if_pos hwhole]
    have hfine : Fine s (ip.dinode.addr (l.offset / SECTSIZE)) := by
      intro hmiss
      rw [(hit_eq_true hturn).2] at hmiss
      cases hmiss
    -- The whole sector is replaced, whatever was in the buffer.
    have hall : ∀ data data', moveIn src l.cnt data (l.offset % SECTSIZE) (l.m size) =
        moveIn src l.cnt data' (l.offset % SECTSIZE) (l.m size) := by
      intro data data'
      have hle := (Loop.m_le hlt).2
      funext j
      have hj := j.isLt
      simp only [moveIn]
      rw [if_pos (by omega), if_pos (by omega)]
    refine ⟨h.access (fun _ => hsector) _, hsector, fun m => ?_⟩
    rw [hfine.view_access h hvalid hsector, written, hall _ (view s m)]
  · rw [if_neg hwhole] at hturn
    have hvalid : writtenValid s ip size l = true := by rw [writtenValid, if_neg hwhole]
    refine ⟨h.access (fun _ => hn hwhole) _, hn hwhole, fun m => ?_⟩
    rw [hturn.view_access h hvalid (hn hwhole), written, if_neg hwhole]
    split
    next heq => rw [heq]
    next => rfl

/-! ## `readi` -/

/-- The loop of `readi` reads the bytes of the store. -/
theorem wp_readLoop (h : Quiet s) (hE : ∀ k < size, NSECTOR ≤ (place ip (offset + k)).1 → E .blockno)
    (hturns : Turns (ReadOk ip size) (readTurn ip size) (size + 1) (⟨0, offset⟩, dst) s) :
    wp E (iterate .loop (readTurn ip size) (size + 1) (⟨0, offset⟩, dst))
      (fun r t => Quiet t ∧ view t = view s ∧ ∀ k < size, r k = byteAt s ip (offset + k)) s := by
  refine wp_iterate_of_turns (fun a t => a.1.cnt ≤ size ∧ a.1.offset = offset + a.1.cnt ∧ Quiet t ∧
    view t = view s ∧ ∀ k < a.1.cnt, a.2 k = byteAt s ip (offset + k)) (fun a => size - a.1.cnt)
    ?_ ⟨Nat.zero_le _, rfl, h, rfl, fun k hk => absurd hk (Nat.not_lt_zero k)⟩ (by simp) hturns
  rintro ⟨l, d⟩ t ⟨hle, hoff, hquiet, hview, hread⟩ hok
  simp only at hle hoff hread
  refine wp_readTurn hquiet (fun hge => ⟨hquiet, hview, fun k hk => hread k (by omega)⟩)
    (fun hlt hbig => hE l.cnt hlt (by rwa [hoff] at hbig)) fun hlt hn => ?_
  have hpos := Loop.m_pos hlt
  obtain ⟨hm, hblock⟩ := Loop.m_le hlt
  simp only [Loop.next]
  refine ⟨⟨hm, by omega, hquiet.access (fun _ => hn) _, ?_, fun k hk => ?_⟩, by omega⟩
  · rw [view_readTurn hquiet (hok hlt) hn, hview]
  · simp only [moveOut]
    split
    next hin =>
      have hsect : SECTSIZE = 512 := rfl
      rw [hsect] at hblock
      have hdiv : (offset + k) / 512 = l.offset / 512 := by omega
      have hmod : (l.offset % 512 + (k - l.cnt)) % 512 = (offset + k) % 512 := by omega
      simp only [byteAt, hsect, hdiv, hview]
      exact congrArg _ (Fin.ext hmod)
    next hout => exact hread k (by omega)

/-! ## `writei` -/

/-- The store from `s` to `t`, when the first `cnt` bytes of `src` have been written to a file
from `offset` on. -/
structure Wrote (ip : Inode) (src : Bytes) (offset cnt : ℕ) (s t : State) : Prop where
  quiet : Quiet t
  frame : ∀ n (j : Fin SECTSIZE), (∀ k < cnt, place ip (offset + k) ≠ (n, j.val)) →
    view t n j = view s n j
  bytes : Distinct ip → offset + cnt ≤ ip.dinode.size → ∀ k < cnt, byteAt t ip (offset + k) = src k
  sector : ∀ k < cnt, (place ip (offset + k)).1 < NSECTOR

theorem Wrote.refl (h : Quiet s) : Wrote ip src offset 0 s s :=
  ⟨h, fun _ _ _ => rfl, fun _ _ k hk => absurd hk (Nat.not_lt_zero k),
    fun k hk => absurd hk (Nat.not_lt_zero k)⟩

/-- The bytes of a turn are in one block. -/
theorem place_of_turn {k m : ℕ} (hoff : l.offset = offset + l.cnt)
    (hblock : l.offset % SECTSIZE + m ≤ SECTSIZE) (hge : l.cnt ≤ k) (hlt : k < l.cnt + m) :
    (offset + k) / SECTSIZE = l.offset / SECTSIZE ∧
      (offset + k) % SECTSIZE = l.offset % SECTSIZE + (k - l.cnt) := by
  simp only [SECTSIZE] at hblock ⊢
  omega

/-- Two bytes of one block. -/
theorem mod_lt_of_div_eq {a b : ℕ} (h : a / SECTSIZE = b / SECTSIZE) (hlt : a < b) :
    a % SECTSIZE < b % SECTSIZE := by
  simp only [SECTSIZE] at h ⊢
  omega

/-- One more turn. -/
theorem Wrote.next {m : ℕ} (h : Wrote ip src offset l.cnt s t) (hpos : 0 < m)
    (hoff : l.offset = offset + l.cnt)
    (hblock : l.offset % SECTSIZE + m ≤ SECTSIZE) (hquiet : Quiet u)
    (hsector : ip.dinode.addr (l.offset / SECTSIZE) < NSECTOR)
    (hview : ∀ n, view u n = if n = ip.dinode.addr (l.offset / SECTSIZE) then
      moveIn src l.cnt (view t n) (l.offset % SECTSIZE) m else view t n) :
    Wrote ip src offset (l.cnt + m) s u := by
  refine ⟨hquiet, fun n j hout => ?_, fun hdistinct hsize k hk => ?_, fun k hk => ?_⟩
  · rw [← h.frame n j fun k hk => hout k (by omega), hview]
    split
    next hn =>
      simp only [moveIn]
      rw [if_neg]
      rintro ⟨hle, hlt⟩
      obtain ⟨hdiv, hmod⟩ := place_of_turn (k := l.cnt + (j - l.offset % SECTSIZE)) hoff hblock
        (by omega) (by omega)
      refine hout (l.cnt + (j - l.offset % SECTSIZE)) (by omega) ?_
      rw [place, hdiv, hmod, hn]
      exact congrArg _ (by omega)
    next => rfl
  · rcases Nat.lt_or_ge k l.cnt with hlt | hge
    · -- A byte of an earlier turn stays.
      rw [← h.bytes hdistinct (by omega) k hlt, byteAt, hview, byteAt]
      split
      next heq =>
        have hlast : (l.offset / SECTSIZE) * SECTSIZE ≤ l.offset := Nat.div_mul_le_self ..
        have hfirst : ((offset + k) / SECTSIZE) * SECTSIZE ≤ offset + k := Nat.div_mul_le_self ..
        have hsame := hdistinct _ _ (by omega) (by omega) heq
        have hmod := mod_lt_of_div_eq hsame (by omega)
        simp only [moveIn, Fin.val_ofNat]
        rw [if_neg (by omega)]
      next => rfl
    · obtain ⟨hdiv, hmod⟩ := place_of_turn hoff hblock hge hk
      rw [byteAt, hview, hdiv, if_pos rfl]
      simp only [moveIn, Fin.val_ofNat, hmod]
      rw [if_pos (by omega)]
      exact congrArg src (by omega)
  · rcases Nat.lt_or_ge k l.cnt with hlt | hge
    · exact h.sector k hlt
    · obtain ⟨hdiv, -⟩ := place_of_turn hoff hblock hge hk
      rwa [place, hdiv]

/-- **The loop of `writei`** writes the bytes of `src` to the store. -/
theorem wp_writeLoop (h : Quiet s) (hE : E .blockno)
    (hturns : Turns (WriteOk ip size) (writeTurn ip src size) (size + 1) ⟨0, offset⟩ s) :
    wp E (iterate .loop (writeTurn ip src size) (size + 1) ⟨0, offset⟩)
      (fun _ t => Wrote ip src offset size s t) s := by
  refine wp_iterate_of_turns (fun l t => l.cnt ≤ size ∧ l.offset = offset + l.cnt ∧
    Wrote ip src offset l.cnt s t) (fun l => size - l.cnt)
    ?_ ⟨Nat.zero_le _, rfl, .refl h⟩ (by simp) hturns
  rintro l t ⟨hle, hoff, hwrote⟩ hok
  refine wp_writeTurn hwrote.quiet (fun hge => ?_) (fun _ _ _ => hE) fun hlt hn => ?_
  · have hdone : l.cnt = size := by omega
    rwa [hdone] at hwrote
  · have hpos := Loop.m_pos hlt
    obtain ⟨hm, hblock⟩ := Loop.m_le hlt
    obtain ⟨hquiet, hsector, hview⟩ := view_writeTurn hwrote.quiet hlt hok hn
    simp only [Loop.next]
    exact ⟨⟨hm, by omega, hwrote.next hpos hoff hblock hquiet hsector hview⟩, by omega⟩

/-! ## Calls -/

/-- A call of `readi` or `writei`, or the `bread` and `brelse` of `iget` and `namei`. -/
inductive Io
  | look (n : ℕ)
  | read (ip : Inode) (dst : Bytes) (offset size : ℕ)
  | write (ip : Inode) (src : Bytes) (offset size : ℕ)

/-- The call. -/
def Io.run (devsw : ℕ → Devsw) : Io → Kern ℤ
  | .look n => do
      let b ← bread n
      brelse b
      return 0
  | .read ip dst offset size => Prod.fst <$> readi devsw ip dst offset size
  | .write ip src offset size => writei devsw ip src offset size

/-- One process uses the cache. -/
def ioMachine (devsw : ℕ → Devsw) : Machine State Io where
  step s e := (e.run devsw s).toOption.map Prod.snd

/-- What holds after a call holds after a step. -/
theorem post_of_step {e : Io} {P : State → Prop} (h : wp E (e.run devsw) (fun _ t => P t) s)
    (hstep : (ioMachine devsw).step s e = some t) : P t := by
  simp only [ioMachine, Option.map_eq_some_iff] at hstep
  obtain ⟨⟨r, u⟩, hrun, rfl⟩ := hstep
  rcases hcall : e.run devsw s with err | v
  · simp [hcall, Except.toOption] at hrun
  · have hv : v = (r, u) := by simpa [hcall, Except.toOption] using hrun
    subst hv
    have hdone := wp_ok h hcall
    exact hdone

/-- What `readi` takes from the file. -/
def readSize (ip : Inode) (offset size : ℕ) : ℕ :=
  if ip.dinode.size < offset + size then ip.dinode.size - offset else size

/-- `readi` looks at the offset. -/
def ReadRejected (ip : Inode) (offset size : ℕ) : Prop :=
  ip.dinode.size < offset ∨ (offset + size) % 2 ^ 32 < offset ∨ NADDR ≤ offset / SECTSIZE

instance decidableReadRejected (ip : Inode) (offset size : ℕ) :
    Decidable (ReadRejected ip offset size) := inferInstanceAs (Decidable (_ ∨ _))

/-- The calls that lose no data: before each access to the cache, the block is found there, or
the buffer that is taken for it has its data on the disk; and a whole sector is written to a
buffer that is found and valid. -/
def Io.Safe (s : State) : Io → Prop
  | .look n => Fine s n
  | .read ip dst offset size => ip.dinode.type ≠ T_DEV → ¬ ReadRejected ip offset size →
      Turns (ReadOk ip (readSize ip offset size)) (readTurn ip (readSize ip offset size))
        (readSize ip offset size + 1) (⟨0, offset⟩, dst) s
  | .write ip src offset size => ip.dinode.type ≠ T_DEV → ¬ Rejected ip offset size →
      Turns (WriteOk ip size) (writeTurn ip src size) (size + 1) ⟨0, offset⟩ s

/-- The call does not write to these bytes of the file. -/
def Io.Spares (ip : Inode) (offset size : ℕ) : Io → Prop
  | .look _ => True
  | .read .. => True
  | .write ip' _ offset' size' => ip'.dinode.type ≠ T_DEV →
      ∀ k < size, ∀ k' < size', place ip' (offset' + k') ≠ place ip (offset + k)

instance decidableSafe (s : State) : ∀ e : Io, Decidable (e.Safe s)
  | .look _ => inferInstanceAs (Decidable (Fine _ _))
  | .read .. => inferInstanceAs (Decidable (_ → _ → _))
  | .write .. => inferInstanceAs (Decidable (_ → _ → _))

instance decidableSpares (ip : Inode) (offset size : ℕ) :
    ∀ e : Io, Decidable (e.Spares ip offset size)
  | .look _ => .isTrue trivial
  | .read .. => .isTrue trivial
  | .write .. => inferInstanceAs (Decidable (_ → _))

/-- In a file with distinct blocks, a write to other bytes is a write to other places. -/
theorem Io.spares_of_disjoint {offset' size' : ℕ} (hdistinct : Distinct ip)
    (hsize : offset + size ≤ ip.dinode.size) (hsize' : offset' + size' ≤ ip.dinode.size)
    (hdisj : offset' + size' ≤ offset ∨ offset + size ≤ offset') :
    (Io.write ip src offset' size').Spares ip offset size := by
  intro _ k hk k' hk' heq
  obtain ⟨haddr, hmod⟩ := Prod.mk.inj heq
  have hfirst : ((offset' + k') / SECTSIZE) * SECTSIZE ≤ offset' + k' := Nat.div_mul_le_self ..
  have hlast : ((offset + k) / SECTSIZE) * SECTSIZE ≤ offset + k := Nat.div_mul_le_self ..
  have hdiv := hdistinct _ _ (by omega) (by omega) haddr
  have h := Nat.div_add_mod (offset + k) SECTSIZE
  have h' := Nat.div_add_mod (offset' + k') SECTSIZE
  rw [hdiv, hmod] at h'
  omega

/-- `readi` reads from the store. -/
theorem wp_readi (h : Quiet s) (hsafe : (Io.read ip dst offset size).Safe s)
    (hE : ∀ k < readSize ip offset size, NSECTOR ≤ (place ip (offset + k)).1 → E .blockno) :
    wp E (readi devsw ip dst offset size) (fun r t => Quiet t ∧ view t = view s ∧
      (ip.dinode.type ≠ T_DEV → ReadRejected ip offset size → r = (-1, dst)) ∧
      (ip.dinode.type ≠ T_DEV → ¬ ReadRejected ip offset size →
        r.1 = toInt (readSize ip offset size) ∧
          ∀ k < readSize ip offset size, r.2 k = byteAt s ip (offset + k))) s := by
  simp only [readi, wp_ite, wp_bind, wp_pure]
  split
  next hdev =>
    split
    next => exact ⟨h, trivial, fun hne => absurd hdev hne, fun hne => absurd hdev hne⟩
    next =>
      split
      next => exact wp_pure.mpr ⟨h, rfl, fun hne => absurd hdev hne, fun hne => absurd hdev hne⟩
      next => exact wp_pure.mpr ⟨h, rfl, fun hne => absurd hdev hne, fun hne => absurd hdev hne⟩
  next hfile =>
    split
    next hrej => exact ⟨h, trivial, fun _ _ => trivial, fun _ hacc => absurd hrej hacc⟩
    next hacc =>
      refine wp_mono (wp_readLoop h hE (hsafe hfile hacc)) ?_
      rintro r t ⟨hquiet, hview, hread⟩
      exact ⟨hquiet, hview, fun _ hrej => absurd hrej hacc, fun _ _ => ⟨rfl, hread⟩⟩

/-- `writei` writes to the store. -/
theorem wp_writei (h : Quiet s) (hE : E .blockno) (hsafe : (Io.write ip src offset size).Safe s) :
    wp E (writei devsw ip src offset size) (fun r t => Quiet t ∧
      ((ip.dinode.type = T_DEV ∨ Rejected ip offset size ∧ r = -1) ∧ view t = view s ∨
        ip.dinode.type ≠ T_DEV ∧ ¬ Rejected ip offset size ∧ r = toInt size ∧
          Wrote ip src offset size s t)) s := by
  simp only [writei, wp_ite, wp_bind, wp_pure]
  split
  next hdev =>
    split
    next => exact ⟨h, .inl ⟨.inl hdev, trivial⟩⟩
    next =>
      split
      next => exact wp_pure.mpr ⟨h, .inl ⟨.inl hdev, rfl⟩⟩
      next => exact wp_pure.mpr ⟨h, .inl ⟨.inl hdev, rfl⟩⟩
  next hfile =>
    split
    next hrej => exact ⟨h, .inl ⟨.inr ⟨hrej, trivial⟩, trivial⟩⟩
    next hacc =>
      refine wp_mono (wp_writeLoop h hE (hsafe hfile hacc)) fun _ t ht => ?_
      exact ⟨ht.quiet, .inr ⟨hfile, hacc, trivial, ht⟩⟩

/-- **A call** leaves the bytes alone that it spares. -/
theorem Io.spares {e : Io} (h : Quiet s) (hsafe : e.Safe s) (hstep : (ioMachine devsw).step s e = some t) :
    Quiet t ∧ ∀ ip offset size, e.Spares ip offset size → ∀ k < size,
      byteAt t ip (offset + k) = byteAt s ip (offset + k) := by
  have hpost : wp (fun _ => True) (e.run devsw) (fun _ t => Quiet t ∧ ∀ ip offset size,
      e.Spares ip offset size → ∀ k < size, byteAt t ip (offset + k) = byteAt s ip (offset + k)) s := by
    cases e with
    | look n =>
        refine wp_bind.mpr (wp_bread h (fun _ => trivial) fun hn => wp_bind.mpr (wp_brelse ?_))
        refine wp_pure.mpr ⟨h.access (fun _ => hn) _, fun ip offset size _ k _ => ?_⟩
        rw [byteAt, view_readTurn h hsafe hn, byteAt]
    | read ip dst offset size =>
        rw [Io.run, wp_map]
        refine wp_mono (wp_readi h hsafe fun _ _ _ => trivial) ?_
        rintro r u ⟨hquiet, hview, -⟩
        refine ⟨hquiet, fun ip' offset' size' _ k _ => ?_⟩
        rw [byteAt, hview, byteAt]
    | write ip src offset size =>
        refine wp_mono (wp_writei h trivial hsafe) ?_
        rintro r u ⟨hquiet, hcase⟩
        refine ⟨hquiet, fun ip' offset' size' hspares k hk => ?_⟩
        rcases hcase with ⟨-, hview⟩ | ⟨hfile, -, -, hwrote⟩
        · rw [byteAt, hview, byteAt]
        · refine hwrote.frame _ _ fun k' hk' => ?_
          exact hspares hfile k hk k' hk'
  exact post_of_step hpost hstep

/-- A file keeps what is written to it: `readi` returns the bytes of a `writei`, after any
calls that write elsewhere, and it returns the same bytes before and after such calls. -/
structure ReadAfterWrite (devsw : ℕ → Devsw) (ip : Inode) (s : State) : Prop where
  reads : ∀ offset size src t u dst, offset + size ≤ ip.dinode.size →
    (Io.write ip src offset size).Safe s →
    writei devsw ip src offset size s = .ok ((size : ℤ), t) →
    (ioMachine devsw).Path (fun s e => e.Safe s ∧ e.Spares ip offset size) t u →
    (Io.read ip dst offset size).Safe u →
    ∃ dst' v, readi devsw ip dst offset size u = .ok (((size : ℤ), dst'), v) ∧
      ∀ k < size, dst' k = src k
  keeps : ∀ offset size u dst r r' v v', offset + size ≤ ip.dinode.size →
    (ioMachine devsw).Path (fun s e => e.Safe s ∧ e.Spares ip offset size) s u →
    (Io.read ip dst offset size).Safe s → (Io.read ip dst offset size).Safe u →
    readi devsw ip dst offset size s = .ok (r, v) →
    readi devsw ip dst offset size u = .ok (r', v') → r.1 = r'.1 ∧ ∀ k < size, r.2 k = r'.2 k

/-- Calls that spare the bytes leave them alone. -/
theorem bytes_of_path (h : Quiet s)
    (hpath : (ioMachine devsw).Path (fun s e => e.Safe s ∧ e.Spares ip offset size) s t) :
    Quiet t ∧ ∀ k < size, byteAt t ip (offset + k) = byteAt s ip (offset + k) := by
  refine hpath.invariant (I := fun t => Quiet t ∧ ∀ k < size,
    byteAt t ip (offset + k) = byteAt s ip (offset + k)) ⟨h, fun _ _ => rfl⟩ ?_
  rintro t e u ⟨hquiet, hbytes⟩ ⟨hsafe, hspares⟩ hstep
  obtain ⟨hquiet', hsame⟩ := Io.spares hquiet hsafe hstep
  exact ⟨hquiet', fun k hk => (hsame ip offset size hspares k hk).trans (hbytes k hk)⟩

/-- The bytes of the file are read in full. -/
theorem readSize_of_le (h : offset + size ≤ ip.dinode.size) : readSize ip offset size = size :=
  if_neg (by omega)

/-- An accepted range is in the table of addresses. -/
theorem le_of_accepted (h : ¬ Rejected ip offset size) : offset + size ≤ 63488 := by
  have hbound : NADDR * SECTSIZE = 63488 := rfl
  by_contra hgt
  exact h (.inr (.inr (.inr (by omega))))

theorem toInt_of_accepted (h : ¬ Rejected ip offset size) : toInt size = size := by
  have hle := le_of_accepted h
  rw [toInt, if_pos (by omega)]

theorem Quiet.readAfterWrite (h : Quiet s) (htype : ip.dinode.type = T_FILE)
    (hdistinct : Distinct ip) : ReadAfterWrite devsw ip s := by
  have hdev : ip.dinode.type ≠ T_DEV := by
    rw [htype]
    decide
  constructor
  · intro offset size src t u dst hsize hsafe hwrite hpath hread
    obtain ⟨hquiet, hcase⟩ := wp_ok (wp_writei (E := fun _ => True) h trivial hsafe) hwrite
    rcases hcase with ⟨hno, -⟩ | ⟨-, hacc, -, hwrote⟩
    · rcases hno with hno | ⟨-, hneg⟩
      · exact absurd hno hdev
      · omega
    obtain ⟨hquiet', hbytes⟩ := bytes_of_path hquiet hpath
    have hfull := readSize_of_le hsize
    have hreadacc : ¬ ReadRejected ip offset size := by
      rintro (hoff | hwrap | hlast)
      · omega
      · exact hacc (.inr (.inl hwrap))
      · exact hacc (.inr (.inr (.inl hlast)))
    have hinside : ∀ k < readSize ip offset size, (place ip (offset + k)).1 < NSECTOR := fun k hk =>
      hwrote.sector k (hfull ▸ hk)
    obtain ⟨r, v, hrun, -, -, -, hr⟩ := wp_total.mp (wp_readi hquiet' hread fun k hk hbig =>
      absurd hbig (Nat.not_le.mpr (hinside k hk)))
    obtain ⟨hcount, hbyte⟩ := hr hdev hreadacc
    rw [hfull] at hcount hbyte
    refine ⟨r.2, v, ?_, fun k hk => ?_⟩
    · rw [hrun, ← toInt_of_accepted hacc, ← hcount]
    · rw [hbyte k hk, hbytes k hk, hwrote.bytes hdistinct hsize k hk]
  · intro offset size u dst r r' v v' hsize hpath hread hread' hrun hrun'
    obtain ⟨hquiet', hbytes⟩ := bytes_of_path h hpath
    have hfull := readSize_of_le hsize
    obtain ⟨-, -, hno, hr⟩ := wp_ok (wp_readi (E := fun _ => True) h hread fun _ _ _ => trivial) hrun
    obtain ⟨-, -, hno', hr'⟩ :=
      wp_ok (wp_readi (E := fun _ => True) hquiet' hread' fun _ _ _ => trivial) hrun'
    by_cases hrej : ReadRejected ip offset size
    · rw [hno hdev hrej, hno' hdev hrej]
      exact ⟨rfl, fun _ _ => rfl⟩
    · obtain ⟨hcount, hbyte⟩ := hr hdev hrej
      obtain ⟨hcount', hbyte'⟩ := hr' hdev hrej
      rw [hfull] at hbyte hbyte'
      exact ⟨hcount.trans hcount'.symm, fun k hk => by rw [hbyte k hk, hbyte' k hk, hbytes k hk]⟩

/-- A file of one sector. -/
def oneSector : Inode := ⟨5, 1, true, 0, ⟨T_FILE, 0, 0, 0, 1, 512, fun k => if k = 0 then 2048 else 0⟩⟩

theorem distinct_oneSector : Distinct oneSector := by
  intro a b ha hb _
  have hsize : oneSector.dinode.size = 512 := rfl
  rw [hsize] at ha hb
  simp only [SECTSIZE] at ha hb
  omega

/-- No device. -/
def noDev (_ : ℕ) : Devsw := ⟨none, none⟩

/-- A kernel that starts with a blank disk. -/
def blank : State := .boot fun _ _ => 0

/-- The bytes 1, 2, 3 and so on. -/
def digits : Bytes := fun k => UInt8.ofNat (k + 1)

/-- A read, and a write of the two bytes before the ten that are written first. -/
def between : List Io := [.read oneSector digits 0 4, .write oneSector (fun _ => 99) 498 2]

end Mixv6.Fs.Cache
