import Mixv6.Fs.Bio
import Mixv6.Lib.Wp
import Mixv6.Syscall.Tables
import Mathlib.Data.Fintype.Basic

/-!
# The buffer cache of one process

`fs/bio.c` and `iderw` of `dev/ide.c`, as long as one process uses them at a time: nobody
else holds a lock, so the locks are left out, and the drive is done when `iderw` wakes up.
Nothing calls `bwrite`.

## Main definitions

* `Buffer`, `State` — the buffers and the sectors of the disk.
* `bget`, `iderw`, `bread`, `brelse` — the routines.
* `Quiet` — the state between two system calls.
* `view` — what a reader of a block finds.
-/

namespace Mixv6.Fs.Cache

open Mixv6.Lib
open Mixv6.Syscall (first of_first not_of_first lt_of_first first_eq_some)

/-- The size of a sector. -/
def SECTSIZE : ℕ := 512

instance neZeroSECTSIZE : NeZero SECTSIZE := ⟨by decide⟩

/-- The bytes of a sector. -/
abbrev Sector := Fin SECTSIZE → UInt8

/-- `struct block`, without its lock, and with the two bits of `flags` apart. -/
structure Buffer where
  blockno : ℕ
  valid : Bool
  dirty : Bool
  refcnt : ℕ
  data : Sector

/-- The buffers and the disk. -/
structure State where
  blocks : Buf → Buffer
  sectors : ℕ → Sector

/-- Why the kernel stops. -/
inductive Panic
  /-- `panic("bget: no buffers")`. -/
  | noBuffers
  /-- `panic("incorrect blockno")`. -/
  | blockno
  /-- `panic("iderw: nothing to do")`. -/
  | nothing
  /-- A loop has used up its turns. -/
  | loop
  deriving DecidableEq, Repr

/-- A routine of the kernel. -/
abbrev Kern (α : Type) := Prog State Panic α

namespace State

def setBlock (s : State) (i : Buf) (b : Buffer) : State :=
  { s with blocks := Function.update s.blocks i b }

section Fields
variable (s : State) (i : Buf) (b : Buffer)

@[simp] theorem setBlock_blocks : (s.setBlock i b).blocks = Function.update s.blocks i b := rfl
@[simp] theorem setBlock_sectors : (s.setBlock i b).sectors = s.sectors := rfl

@[simp] theorem setBlock_setBlock (b' : Buffer) :
    (s.setBlock i b).setBlock i b' = s.setBlock i b' := by
  simp [setBlock]

end Fields

/-- The buffers are zeroed. -/
def boot (sectors : ℕ → Sector) : State := ⟨fun _ => ⟨0, false, false, 0, fun _ => 0⟩, sectors⟩

end State

variable {s t : State} {i j : Buf} {n m : ℕ} {E : Panic → Prop}

/-! ## `fs/bio.c` and `dev/ide.c` -/

/-- The buffer that `bget` finds. -/
def cached (s : State) (n : ℕ) : Option Buf := first fun i => (s.blocks i).blockno = n

/-- The buffer that `bget` takes for a block that is not cached. -/
def victim (s : State) : Option Buf := first fun i => (s.blocks i).refcnt = 0 ∧ ¬ (s.blocks i).dirty

/-- `bget`. -/
def bget (blockno : ℕ) : Kern Buf := do
  let s ← get
  match cached s blockno with
  | some i =>
      set (s.setBlock i { s.blocks i with refcnt := ((s.blocks i).refcnt + 1) % 2 ^ 16 })
      return i
  | none =>
      match victim s with
      | none => throw .noBuffers
      | some i =>
          set (s.setBlock i
            { s.blocks i with blockno := blockno, valid := false, dirty := false, refcnt := 1 })
          return i

/-- `iderw`, with `sendreq` and the `ideintr` that it sleeps for. -/
def iderw (i : Buf) : Kern Unit := do
  let s ← get
  let b := s.blocks i
  if b.valid ∧ ¬ b.dirty then throw .nothing
  if NSECTOR ≤ b.blockno then throw .blockno
  if b.dirty then
    set { s.setBlock i { b with valid := true, dirty := false } with
      sectors := Function.update s.sectors b.blockno b.data }
  else
    set (s.setBlock i { b with data := s.sectors b.blockno, valid := true })

/-- `bread`. -/
def bread (blockno : ℕ) : Kern Buf := do
  let i ← bget blockno
  if 1 < ((← get).blocks i).refcnt then
    return i
  if ¬ ((← get).blocks i).valid then
    iderw i
  return i

/-- `brelse`. -/
def brelse (i : Buf) : Kern Unit := modify fun s =>
  s.setBlock i { s.blocks i with refcnt := ((s.blocks i).refcnt + 2 ^ 16 - 1) % 2 ^ 16 }

/-! ## Between two system calls -/

/-- What a reader of block `n` finds: a valid buffer, or the disk. -/
def view (s : State) (n : ℕ) : Sector :=
  match cached s n with
  | none => s.sectors n
  | some i => if (s.blocks i).valid then (s.blocks i).data else s.sectors n

/-- Nobody holds a buffer, no buffer is marked for writing, and `bget` finds each valid
buffer, which has a sector. -/
structure Quiet (s : State) : Prop where
  rest : ∀ i, (s.blocks i).refcnt = 0 ∧ (s.blocks i).dirty = false
  found : ∀ i, (s.blocks i).valid → cached s (s.blocks i).blockno = some i
  sector : ∀ i, (s.blocks i).valid → (s.blocks i).blockno < NSECTOR

/-- The buffer that `bget` returns. -/
def slot (s : State) (n : ℕ) : Buf := ((cached s n).or (victim s)).getD 0

/-- The data of a buffer are on the disk. -/
def Saved (s : State) (i : Buf) : Prop :=
  (s.blocks i).valid → (s.blocks i).data = s.sectors (s.blocks i).blockno

instance decidableSaved (s : State) (i : Buf) : Decidable (Saved s i) :=
  inferInstanceAs (Decidable (_ → _))

/-! ## The buffers that are found -/

theorem blockno_of_cached (h : cached s n = some i) : (s.blocks i).blockno = n := by
  simpa using of_first h

namespace Quiet

/-- There is always a buffer to take. -/
theorem exists_victim (h : Quiet s) : ∃ i, victim s = some i := by
  rcases hv : victim s with _ | i
  · have hno := not_of_first hv 0
    simp [h.rest 0] at hno
  · exact ⟨i, rfl⟩

theorem slot_cases (h : Quiet s) (n : ℕ) : cached s n = some (slot s n) ∨
    cached s n = none ∧ victim s = some (slot s n) := by
  rcases hc : cached s n with _ | i
  · obtain ⟨i, hi⟩ := h.exists_victim
    exact .inr ⟨rfl, by simp [slot, hc, hi]⟩
  · exact .inl (by simp [slot, hc])

/-- The one valid buffer of a block. -/
theorem view_of_valid (h : Quiet s) (hvalid : (s.blocks i).valid) :
    view s (s.blocks i).blockno = (s.blocks i).data := by
  simp only [view, h.found i hvalid, hvalid, if_true]

end Quiet

/-- A block without a valid buffer is read from the disk. -/
theorem view_of_invalid (h : ∀ i, (s.blocks i).blockno = n → (s.blocks i).valid = false) :
    view s n = s.sectors n := by
  unfold view
  split
  next => rfl
  next i hi => simp [h i (blockno_of_cached hi)]

/-! ## One access -/

/-- The buffer of a block is replaced, and is at rest again. -/
def State.access (s : State) (n : ℕ) (valid : Bool) (data : Sector) : State :=
  s.setBlock (slot s n) ⟨n, valid, false, 0, data⟩

/-- The buffers that an access changes are those of its block. -/
theorem access_blocks {valid : Bool} {data : Sector} (h : i ≠ slot s n) :
    (s.access n valid data).blocks i = s.blocks i := by
  simp [State.access, h]

/-- An access finds the same buffers for other blocks. -/
theorem cached_access (h : Quiet s) {valid : Bool} {data : Sector} (hj : j ≠ slot s n)
    (hcached : cached s (s.blocks j).blockno = some j) (hvalid : (s.blocks j).valid) :
    cached (s.access n valid data) (s.blocks j).blockno = some j := by
  have hne : (s.blocks j).blockno ≠ n := by
    rintro rfl
    rcases h.slot_cases (s.blocks j).blockno with hc | ⟨hc, -⟩
    · rw [h.found j hvalid] at hc
      exact hj (Option.some.inj hc)
    · rw [h.found j hvalid] at hc
      cases hc
  refine first_eq_some (by simp [access_blocks hj]) fun k hk => ?_
  by_cases hks : k = slot s n
  · subst hks
    simpa [State.access] using Ne.symm hne
  · have hlt := lt_of_first hcached hk
    simpa [access_blocks hks] using hlt

theorem Quiet.access (h : Quiet s) {valid : Bool} (hn : valid → n < NSECTOR) (data : Sector) :
    Quiet (s.access n valid data) := by
  refine ⟨?_, ?_, ?_⟩
  · intro i
    by_cases hi : i = slot s n
    · subst hi; simp [State.access]
    · rw [access_blocks hi]
      exact h.rest i
  · intro i hvalid
    by_cases hi : i = slot s n
    · subst hi
      have hblockno : ((s.access n valid data).blocks (slot s n)).blockno = n := by
        simp [State.access]
      rw [hblockno]
      refine first_eq_some (by simp [hblockno]) fun k hk => ?_
      have hks : k ≠ slot s n := by
        rintro rfl
        exact lt_irrefl _ hk
      rw [access_blocks hks]
      rcases h.slot_cases n with hc | ⟨hc, -⟩
      · exact lt_of_first hc hk
      · exact not_of_first hc k
    · rw [access_blocks hi] at hvalid ⊢
      exact cached_access h hi (h.found i hvalid) hvalid
  · intro i hvalid
    by_cases hi : i = slot s n
    · subst hi
      simp only [State.access, State.setBlock_blocks, Function.update_self] at hvalid ⊢
      exact hn hvalid
    · rw [access_blocks hi] at hvalid ⊢
      exact h.sector i hvalid

theorem view_access_self (h : Quiet s) (hn : n < NSECTOR) (data : Sector) :
    view (s.access n true data) n = data := by
  have hquiet : Quiet (s.access n true data) := h.access (fun _ => hn) data
  have hview := hquiet.view_of_valid (i := slot s n) (by simp [State.access])
  simpa [State.access] using hview

/-- **Other blocks** read as before, unless the access has taken a buffer whose data are not
on the disk. -/
theorem view_access_of_ne (h : Quiet s) {valid : Bool} {data : Sector} (hn : valid → n < NSECTOR)
    (hm : m ≠ n) (hsaved : cached s n = none → Saved s (slot s n)) :
    view (s.access n valid data) m = view s m := by
  have hquiet := h.access hn data
  by_cases hex : ∃ j, j ≠ slot s n ∧ (s.blocks j).blockno = m ∧ (s.blocks j).valid
  · obtain ⟨j, hj, rfl, hvalid⟩ := hex
    have hnew := hquiet.view_of_valid (i := j) (by rwa [access_blocks hj])
    rw [access_blocks hj] at hnew
    rw [hnew, h.view_of_valid hvalid]
  · simp only [not_exists, not_and, Bool.not_eq_true] at hex
    have hnew : view (s.access n valid data) m = s.sectors m := by
      refine view_of_invalid fun j hj => ?_
      by_cases hjs : j = slot s n
      · subst hjs
        simp [State.access] at hj
        exact absurd hj.symm hm
      · rw [access_blocks hjs] at hj ⊢
        exact hex j hjs hj
    rw [hnew]
    by_cases hold : (s.blocks (slot s n)).blockno = m ∧ (s.blocks (slot s n)).valid
    · obtain ⟨rfl, hvalid⟩ := hold
      have hmiss : cached s n = none := by
        rcases h.slot_cases n with hc | ⟨hc, -⟩
        · exact absurd (blockno_of_cached hc) hm
        · exact hc
      rw [h.view_of_valid hvalid, hsaved hmiss hvalid]
    · refine (view_of_invalid fun j hj => ?_).symm
      by_cases hjs : j = slot s n
      · subst hjs
        simpa [hj] using hold
      · exact hex j hjs hj

/-! ## The routines -/

/-- The buffer that `bget` returns is valid if it was found, and valid. -/
def hit (s : State) (n : ℕ) : Bool := (cached s n).isSome && (s.blocks (slot s n)).valid

theorem hit_eq_true (h : hit s n = true) :
    (s.blocks (slot s n)).valid ∧ cached s n = some (slot s n) := by
  simp only [hit, Bool.and_eq_true, Option.isSome_iff_exists] at h
  obtain ⟨⟨i, hi⟩, hvalid⟩ := h
  exact ⟨hvalid, by simp [slot, hi]⟩

/-- A block that is found, and valid, has a sector. -/
theorem Quiet.sector_of_hit (h : Quiet s) (hhit : hit s n = true) : n < NSECTOR := by
  obtain ⟨hvalid, hfound⟩ := hit_eq_true hhit
  rw [← blockno_of_cached hfound]
  exact h.sector _ hvalid

theorem wp_bget (h : Quiet s) {Q : Buf → State → Prop}
    (hQ : Q (slot s n) (s.setBlock (slot s n) ⟨n, hit s n, false, 1, (s.blocks (slot s n)).data⟩)) :
    wp E (bget n) Q s := by
  simp only [bget, wp_bind, wp_get]
  obtain ⟨hrefcnt, hdirty⟩ := h.rest (slot s n)
  rcases h.slot_cases n with hc | ⟨hc, hv⟩
  · have hblockno := blockno_of_cached hc
    simp only [hc, wp_bind, wp_set, wp_pure]
    have hbuffer : { s.blocks (slot s n) with refcnt := ((s.blocks (slot s n)).refcnt + 1) % 2 ^ 16 } =
        ⟨n, hit s n, false, 1, (s.blocks (slot s n)).data⟩ := by
      simp [hit, hc, hblockno, hrefcnt, hdirty]
    rw [hbuffer]
    exact hQ
  · simp only [hc, hv, wp_bind, wp_set, wp_pure]
    have hmiss : hit s n = false := by simp [hit, hc]
    rwa [hmiss] at hQ

/-- **`bread`** loads the block unless it is there. -/
theorem wp_bread (h : Quiet s) {Q : Buf → State → Prop} (hE : NSECTOR ≤ n → E .blockno)
    (hQ : n < NSECTOR → Q (slot s n) (s.setBlock (slot s n) ⟨n, true, false, 1, view s n⟩)) :
    wp E (bread n) Q s := by
  refine wp_bind.mpr (wp_bget h ?_)
  simp only [wp_bind, wp_get, State.setBlock_blocks, Function.update_self, wp_ite, wp_pure]
  rw [if_neg (by omega)]
  rcases hhit : hit s n with _ | _
  · -- The data come from the disk.
    have hview : view s n = s.sectors n := by
      refine view_of_invalid fun j hj => ?_
      by_contra hvalid
      rw [Bool.not_eq_false] at hvalid
      have hfound := h.found j hvalid
      rw [hj] at hfound
      have hslot : slot s n = j := by simp [slot, hfound]
      simp [hit, hfound, hslot, hvalid] at hhit
    simp only [Bool.false_eq_true, not_false_eq_true, if_true, iderw, wp_bind, wp_get,
      State.setBlock_blocks, Function.update_self, false_and, if_false, wp_ite, wp_throw, wp_set]
    split
    next hbig => exact hE hbig
    next hsmall => simpa [hview] using hQ (by omega)
  · obtain ⟨hvalid, hfound⟩ := hit_eq_true hhit
    have hview := h.view_of_valid hvalid
    rw [blockno_of_cached hfound] at hview
    rw [if_neg (by simp)]
    simpa [hview, hhit] using hQ (h.sector_of_hit hhit)

/-- `brelse` of a buffer that one process holds. -/
theorem wp_brelse {valid : Bool} {data : Sector} {Q : Unit → State → Prop}
    (hQ : Q () (s.access n valid data)) :
    wp E (brelse (slot s n)) Q (s.setBlock (slot s n) ⟨n, valid, false, 1, data⟩) := by
  have hfree : (1 + 2 ^ 16 - 1) % 2 ^ 16 = 0 := by decide
  rw [brelse, wp_modify]
  simp only [State.setBlock, Function.update_self, Function.update_idem, hfree]
  exact hQ

/-- The cache of a kernel that starts is quiet. -/
theorem Quiet.boot (sectors : ℕ → Sector) : Quiet (.boot sectors) :=
  ⟨fun _ => ⟨rfl, rfl⟩, fun i hvalid => by simp [State.boot] at hvalid,
    fun i hvalid => by simp [State.boot] at hvalid⟩

end Mixv6.Fs.Cache
