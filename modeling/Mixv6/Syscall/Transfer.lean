import Mixv6.Fs.Store
import Mixv6.Syscall.User

/-!
# Reading, writing and opening files for the caller

`sys_read`, `sys_write` and `sys_open` with `readi`, `writei` and the console, on the memory of
the caller, and for each of them the addresses that it comes to.

## Main definitions

* `readi`, `writei`, `consoleread`, `consolewrite` — the transfers.
* `sys_read`, `sys_write`, `sys_open` — the calls.
* `ReadInside`, `WriteInside`, `OpenInside` — what the calls come to is in pages of the caller.
-/

namespace Mixv6.Syscall.User

open Mixv6.Lib Mixv6.Kernel
open Mixv6.Fs.Cache (Sector SECTSIZE toInt Loop ReadRejected Rejected readSize decidableRejected)

/-! ## The console -/

/-- `consoleread`, after `sleep`. -/
def consoleread (env : Env) (dst size : ℕ) : Kern ℤ := do
  let n := min size env.index
  putBytes dst ((List.range n).map env.buf)
  putByte (dst + n) 0
  return n

/-- `consolewrite`. -/
def consolewrite (src size : ℕ) : Kern ℤ := do
  let bs ← getBytes src size
  modify fun s => { s with screen := s.screen ++ bs }
  return size

/-! ## `fs/inode.c` -/

/-- A turn of the loop of `readi`. -/
def readTurn (env : Env) (ip : Inode) (dst size : ℕ) (l : Loop) : Kern (Loop ⊕ Unit) := do
  if ¬ l.cnt < size then
    return .inr ()
  match env.block (ip.dinode.addr (l.offset / SECTSIZE)) with
  | none => throw .bread
  | some data =>
      putBytes (dst + l.cnt) ((List.range (l.m size)).map fun k =>
        data (Fin.ofNat SECTSIZE (l.offset % SECTSIZE + k)))
      return .inl (l.next size)

/-- `readi`.  The console is the only device with routines. -/
def readi (env : Env) (ip : InodeId) (dst offset size : ℕ) : Kern ℤ := do
  let s ← get
  if s.lock ≠ some ip then
    return -1
  let node := s.tables.inode ip
  if node.dinode.type = T_DEV then
    if node.devno = DEV_CONSOLE then
      consoleread env dst size
    else return -1
  else if ReadRejected node offset size then
    return -1
  else
    let size := readSize node offset size
    iterate .hang (readTurn env node dst size) (size + 1) ⟨0, offset⟩
    return toInt size

/-- A turn of the loop of `writei`. -/
def writeTurn (env : Env) (ip : Inode) (src size : ℕ) (l : Loop) : Kern (Loop ⊕ Unit) := do
  if ¬ l.cnt < size then
    return .inr ()
  let n := ip.dinode.addr (l.offset / SECTSIZE)
  let m := l.m size
  -- `bget` for a whole sector, `bread` for a part of one.
  if m ≠ SECTSIZE ∧ env.block n = none then throw .bread
  let bs ← getBytes (src + l.cnt) m
  modify fun s => { s with stored := (n, l.offset % SECTSIZE, bs) :: s.stored }
  return .inl (l.next size)

/-- `writei`. -/
def writei (env : Env) (ip : InodeId) (src offset size : ℕ) : Kern ℤ := do
  let s ← get
  if s.lock ≠ some ip then
    return -1
  let node := s.tables.inode ip
  if node.dinode.type = T_DEV then
    if node.devno = DEV_CONSOLE then
      consolewrite src size
    else return -1
  else if Rejected node offset size then
    return -1
  else
    iterate .hang (writeTurn env node src size) (size + 1) ⟨0, offset⟩
    return toInt size

/-! ## The calls -/

/-- `sys_read` and `sys_write`, which differ in the routine between `acquire` and `release`. -/
def sys_rw (env : Env) (transfer : InodeId → ℕ → ℕ → ℕ → Kern ℤ) : Kern ℤ := do
  let f ← argfd env 0
  let buf ← argptr 1
  let size ← argint 2
  match f with
  | none => return -1
  | some f =>
      if buf = 0 ∨ size < 0 then
        return -1
      let file := (← get).tables.file f
      match file.inode with
      | none => throw .inode
      | some ip =>
          acquire ip
          let r ← transfer ip buf file.offset size.toNat
          if 0 < r then
            onTables (modify fun t =>
              t.setFile f { t.file f with offset := ((t.file f).offset + r.toNat) % 2 ^ 32 })
          release
          return r

/-- `sys_read`. -/
def sys_read (env : Env) : Kern ℤ := sys_rw env (readi env)

/-- `sys_write`. -/
def sys_write (env : Env) : Kern ℤ := sys_rw env (writei env)

/-- `sys_open`. -/
def sys_open (env : Env) : Kern ℤ := do
  let path ← argptr 0
  match ← namei env path with
  | none => return -1
  | some ip =>
      match ← onTables falloc with
      | none => return -1
      | some f =>
          match ← onTables (fdalloc env.proc f) with
          | none =>
              onTables (ffree (some f))
              return -1
          | some fd =>
              onTables (modify fun t => t.setFile f { t.file f with inode := some ip, offset := 0 })
              return fd

/-! ## What the loops come to -/

section Loops
variable {need : Loop → Prop} {size k : ℕ} {l : Loop}

/-- The loop comes to byte `k`: all the turns up to there have what they need. -/
def Comes (need : Loop → Prop) (size : ℕ) (l : Loop) (k : ℕ) : Prop :=
  ∀ i, ((Loop.next · size)^[i] l).cnt ≤ k → need ((Loop.next · size)^[i] l)

theorem cnt_le_iterate (i : ℕ) : l.cnt ≤ ((Loop.next · size)^[i] l).cnt := by
  induction i generalizing l with
  | zero => exact le_refl _
  | succ i ih =>
      rw [Function.iterate_succ_apply]
      exact le_trans (Nat.le_add_right ..) (ih (l := l.next size))

/-- Turns that come after byte `k` need nothing. -/
theorem comes_of_lt (h : k < l.cnt) : Comes need size l k := fun i hi =>
  absurd (le_trans (cnt_le_iterate i) hi) (Nat.not_le.mpr h)

theorem comes_iff (h : l.cnt ≤ k) :
    Comes need size l k ↔ need l ∧ Comes need size (l.next size) k := by
  constructor
  · intro hc
    exact ⟨hc 0 h, fun i hi => hc (i + 1) hi⟩
  · rintro ⟨h0, hc⟩ i hi
    cases i with
    | zero => exact h0
    | succ i => exact hc i hi

/-- The bytes that a loop comes to lie in pages of the caller. -/
def FileInside (need : Loop → Prop) (s : State) (base offset size : ℕ) : Prop :=
  ∀ k < size, Comes need size ⟨0, offset⟩ k → s.Present (base + k)

variable {turn : Loop → Kern (Loop ⊕ Unit)} {base : ℕ}

/-- The loops of `readi` and `writei`, from some turn on.  Each turn accesses `m` bytes. -/
theorem wp_loop
    (hdone : ∀ l s, size ≤ l.cnt → wp Inside (turn l) (fun r _ => r = .inr ()) s)
    (hgo : ∀ l s (Q : Loop ⊕ Unit → State → Prop) (R : Prop), l.cnt < size →
      (∀ mem stored, Q (.inl (l.next size)) { s with mem, stored } ↔ R) →
      (wp Inside (turn l) Q s ↔ (need l → s.Range (base + l.cnt) (l.m size) ∧ R)))
    {fuel : ℕ} {s : State} (hfuel : size - l.cnt < fuel) :
    wp Inside (iterate .hang turn fuel l) (fun _ _ => True) s ↔
      ∀ k, l.cnt ≤ k → k < size → Comes need size l k → s.Present (base + k) := by
  induction fuel generalizing l s with
  | zero => omega
  | succ fuel ih =>
      rw [wp_iterate_succ]
      by_cases hlt : l.cnt < size
      · have hpos := Loop.m_pos hlt
        have hle := (Loop.m_le hlt).1
        have hnext : (l.next size).cnt = l.cnt + l.m size := rfl
        have hrest : ∀ mem stored, wp Inside (iterate .hang turn fuel (l.next size)) (fun _ _ => True)
            { s with mem, stored } ↔ ∀ k, (l.next size).cnt ≤ k → k < size →
              Comes need size (l.next size) k → s.Present (base + k) :=
          fun mem stored => ih (by omega)
        rw [hgo l s _ _ hlt hrest]
        constructor
        · intro h k hk hsize hcomes
          obtain ⟨hneed, hrest⟩ := (comes_iff hk).mp hcomes
          obtain ⟨hrange, hlater⟩ := h hneed
          by_cases hturn : k < l.cnt + l.m size
          · have hin := hrange (k - l.cnt) (by omega)
            rwa [Nat.add_assoc, Nat.add_sub_cancel' hk] at hin
          · exact hlater k (by omega) hsize hrest
        · intro h hneed
          refine ⟨fun j hj => ?_, fun k hk hsize hrest => ?_⟩
          · rw [Nat.add_assoc]
            refine h (l.cnt + j) (by omega) (by omega) ((comes_iff (by omega)).mpr ⟨hneed, ?_⟩)
            exact comes_of_lt (by omega)
          · exact h k (by omega) hsize ((comes_iff (by omega)).mpr ⟨hneed, hrest⟩)
      · refine iff_of_true (wp_mono (hdone l s (by omega)) ?_) fun k hk hsize => by omega
        rintro _ t rfl
        trivial

/-- **The loops of `readi` and `writei`.** -/
theorem wp_fileLoop
    (hdone : ∀ l s, size ≤ l.cnt → wp Inside (turn l) (fun r _ => r = .inr ()) s)
    (hgo : ∀ l s (Q : Loop ⊕ Unit → State → Prop) (R : Prop), l.cnt < size →
      (∀ mem stored, Q (.inl (l.next size)) { s with mem, stored } ↔ R) →
      (wp Inside (turn l) Q s ↔ (need l → s.Range (base + l.cnt) (l.m size) ∧ R)))
    {offset : ℕ} {s : State} :
    wp Inside (iterate .hang turn (size + 1) ⟨0, offset⟩) (fun _ _ => True) s ↔
      FileInside need s base offset size := by
  have hfuel : size - (⟨0, offset⟩ : Loop).cnt < size + 1 := Nat.lt_succ_self _
  rw [wp_loop hdone hgo hfuel]
  exact forall_congr' fun k => forall_prop_of_true (Nat.zero_le k)

end Loops

/-! ## What the calls come to -/

section Calls
variable {env : Env} {s : State}

/-- A turn of `readi` calls `bread`. -/
def readNeeds (env : Env) (ip : Inode) (l : Loop) : Prop :=
  env.block (ip.dinode.addr (l.offset / SECTSIZE)) ≠ none

/-- A turn of `writei` calls `bread` for a part of a sector. -/
def writeNeeds (env : Env) (ip : Inode) (size : ℕ) (l : Loop) : Prop :=
  l.m size ≠ SECTSIZE → env.block (ip.dinode.addr (l.offset / SECTSIZE)) ≠ none

/-- The bytes that `readi` stores, with the null that `consoleread` appends, lie in pages of the
caller. -/
def ReadInside (env : Env) (s : State) (ip : Inode) (dst offset size : ℕ) : Prop :=
  if ip.dinode.type = T_DEV then
    ip.devno = DEV_CONSOLE → s.Range dst (min size env.index + 1)
  else ¬ ReadRejected ip offset size →
    FileInside (readNeeds env ip) s dst offset (readSize ip offset size)

/-- The bytes that `writei` loads lie in pages of the caller. -/
def WriteInside (env : Env) (s : State) (ip : Inode) (src offset size : ℕ) : Prop :=
  if ip.dinode.type = T_DEV then
    ip.devno = DEV_CONSOLE → s.Range src size
  else ¬ Rejected ip offset size → FileInside (writeNeeds env ip size) s src offset size

theorem range_add {a n : ℕ} : s.Range a (n + 1) ↔ s.Range a n ∧ s.Present (a + n) := by
  constructor
  · exact fun h => ⟨fun k hk => h k (by omega), h n (by omega)⟩
  · rintro ⟨h, hn⟩ k hk
    by_cases hkn : k = n
    · rw [hkn]
      exact hn
    · exact h k (by omega)

theorem wp_consoleread {dst size : ℕ} : wp Inside (consoleread env dst size) (fun _ _ => True) s ↔
    s.Range dst (min size env.index + 1) := by
  simp only [consoleread, wp_bind, wp_pure]
  rw [wp_putBytes (R := s.Present (dst + min size env.index)) fun mem => ?_, range_add]
  · simp
  · rw [wp_putByte]
    exact and_iff_left trivial

theorem wp_consolewrite {src size : ℕ} : wp Inside (consolewrite src size) (fun _ _ => True) s ↔
    s.Range src size := by
  simp only [consolewrite, wp_bind, wp_getBytes, wp_modify, wp_pure, and_true]

theorem wp_readTurn {ip : Inode} {dst size : ℕ} {l : Loop} {Q : Loop ⊕ Unit → State → Prop}
    {R : Prop} (hlt : l.cnt < size)
    (hQ : ∀ mem stored, Q (.inl (l.next size)) { s with mem, stored } ↔ R) :
    wp Inside (readTurn env ip dst size l) Q s ↔
      (readNeeds env ip l → s.Range (dst + l.cnt) (l.m size) ∧ R) := by
  simp only [readTurn, not_true_eq_false, hlt, if_false, readNeeds]
  cases hblock : env.block (ip.dinode.addr (l.offset / SECTSIZE)) with
  | none => simp
  | some data =>
      simp only [wp_bind, wp_pure]
      rw [wp_putBytes fun mem => hQ mem s.stored]
      simp

theorem wp_writeTurn {ip : Inode} {src size : ℕ} {l : Loop} {Q : Loop ⊕ Unit → State → Prop}
    {R : Prop} (hlt : l.cnt < size)
    (hQ : ∀ mem stored, Q (.inl (l.next size)) { s with mem, stored } ↔ R) :
    wp Inside (writeTurn env ip src size l) Q s ↔
      (writeNeeds env ip size l → s.Range (src + l.cnt) (l.m size) ∧ R) := by
  simp only [writeTurn, wp_bind, wp_ite, wp_pure, not_true_eq_false, hlt, if_false, wp_getBytes,
    wp_modify, writeNeeds]
  by_cases hpanic : l.m size ≠ SECTSIZE ∧ env.block (ip.dinode.addr (l.offset / SECTSIZE)) = none
  · rw [if_pos hpanic, wp_throw]
    exact iff_of_true inside_bread fun h => absurd hpanic.2 (h hpanic.1)
  · rw [if_neg hpanic]
    have hneed : l.m size ≠ SECTSIZE → env.block (ip.dinode.addr (l.offset / SECTSIZE)) ≠ none :=
      fun hpart hnone => hpanic ⟨hpart, hnone⟩
    rw [forall_prop_of_true hneed]
    exact and_congr_right fun _ => hQ s.mem _

theorem wp_readi {ip : InodeId} {dst offset size : ℕ} (hlock : s.lock = some ip) :
    wp Inside (readi env ip dst offset size) (fun _ _ => True) s ↔
      ReadInside env s (s.tables.inode ip) dst offset size := by
  simp only [readi, wp_bind, wp_get, wp_ite, wp_pure, hlock, ne_eq, not_true_eq_false, if_false,
    ReadInside, wp_consoleread]
  by_cases hdev : (s.tables.inode ip).dinode.type = T_DEV
  · simp [hdev]
  · rw [if_neg hdev, if_neg hdev]
    by_cases hrej : ReadRejected (s.tables.inode ip) offset size
    · rw [if_pos hrej]
      exact iff_of_true trivial fun h => absurd hrej h
    · rw [if_neg hrej, forall_prop_of_true hrej]
      exact wp_fileLoop (fun l s hge => by simp [readTurn, Nat.not_lt.mpr hge]) fun l s Q R hlt hQ =>
        wp_readTurn hlt hQ

theorem wp_writei {ip : InodeId} {src offset size : ℕ} (hlock : s.lock = some ip) :
    wp Inside (writei env ip src offset size) (fun _ _ => True) s ↔
      WriteInside env s (s.tables.inode ip) src offset size := by
  simp only [writei, wp_bind, wp_get, wp_ite, wp_pure, hlock, ne_eq, not_true_eq_false, if_false,
    WriteInside, wp_consolewrite]
  by_cases hdev : (s.tables.inode ip).dinode.type = T_DEV
  · simp [hdev]
  · rw [if_neg hdev, if_neg hdev]
    by_cases hrej : Rejected (s.tables.inode ip) offset size
    · rw [if_pos hrej]
      exact iff_of_true trivial fun h => absurd hrej h
    · rw [if_neg hrej, forall_prop_of_true hrej]
      exact wp_fileLoop (fun l s hge => by simp [writeTurn, Nat.not_lt.mpr hge]) fun l s Q R hlt hQ =>
        wp_writeTurn hlt hQ

/-- The arguments of `sys_read` and `sys_write`, and what the transfer comes to, lie in pages of
the caller. -/
def RwInside (env : Env) (s : State) (inside : Inode → ℕ → ℕ → ℕ → Prop) : Prop :=
  s.Arg 0 ∧ s.Arg 1 ∧ s.Arg 2 ∧ ∀ f ip,
    Syscall.argfd s.tables env.proc (toInt (s.arg 0)) = some f → (s.tables.file f).inode = some ip →
    ptr (toInt (s.arg 1)) ≠ 0 → 0 ≤ toInt (s.arg 2) →
    inside (s.tables.inode ip) (ptr (toInt (s.arg 1))) (s.tables.file f).offset (toInt (s.arg 2)).toNat

/-- **`sys_read` and `sys_write`.** -/
theorem wp_sys_rw {transfer : InodeId → ℕ → ℕ → ℕ → Kern ℤ} {inside : Inode → ℕ → ℕ → ℕ → Prop}
    (htransfer : ∀ ip buf offset size, wp Inside (transfer ip buf offset size) (fun _ _ => True)
      { s with lock := some ip } ↔ inside (s.tables.inode ip) buf offset size) :
    wp Inside (sys_rw env transfer) (fun r _ => s.Refused 1 → r = -1) s ↔ RwInside env s inside := by
  simp only [sys_rw, wp_bind, wp_argfd, wp_argptr, wp_argint, RwInside]
  refine and_congr_right fun _ => and_congr_right fun _ => and_congr_right fun _ => ?_
  cases hf : Syscall.argfd s.tables env.proc (toInt (s.arg 0)) with
  | none => simp
  | some f =>
      simp only [wp_ite, wp_pure, wp_bind, wp_get]
      by_cases hrej : ptr (toInt (s.arg 1)) = 0 ∨ toInt (s.arg 2) < 0
      · rw [if_pos hrej]
        refine iff_of_true (fun _ => trivial) fun f ip _ _ hptr hsize => ?_
        rcases hrej with hnull | hneg
        · exact absurd hnull hptr
        · omega
      · rw [if_neg hrej]
        rw [not_or, Int.not_lt] at hrej
        have hacc : ∀ r : ℤ, s.Refused 1 → r = -1 := fun r href => absurd href.2 hrej.1
        cases hip : (s.tables.file f).inode with
        | none =>
            refine iff_of_true (wp_throw.mpr inside_inode) fun f' ip hf' hip' => ?_
            obtain rfl := Option.some.inj hf'
            rw [hip] at hip'
            cases hip'
        | some ip =>
            simp only [wp_bind, acquire, wp_modify]
            rw [wp_of_forall, htransfer]
            · refine ⟨fun h f' ip' hf' hip' _ _ => ?_, fun h => h f ip rfl hip hrej.1 hrej.2⟩
              obtain rfl := Option.some.inj hf'
              rw [hip] at hip'
              obtain rfl := Option.some.inj hip'
              exact h
            · intro r t
              simp only [release, wp_ite, wp_bind, wp_modify, wp_pure]
              split
              next => exact (wp_of_forall fun _ _ => hacc r).mpr wp_onTables
              next => exact hacc r

/-- The argument of `sys_open` and what `namei` comes to lie in pages of the caller. -/
def OpenInside (env : Env) (s : State) : Prop := s.Arg 0 ∧ PathInside env s (ptr (toInt (s.arg 0)))

/-- **`sys_open`.** -/
theorem wp_sys_open :
    wp Inside (sys_open env) (fun r _ => s.Refused 0 → r = -1) s ↔ OpenInside env s := by
  simp only [sys_open, wp_bind, wp_argptr, OpenInside]
  refine and_congr_right fun _ => ?_
  rw [wp_split, wp_namei, and_iff_left_iff_imp]
  rintro - ip t hrun
  cases ip with
  | none => simp
  | some ip =>
      have hacc : ∀ r : ℤ, s.Refused 0 → r = -1 := by
        rintro r ⟨-, href⟩
        rw [href] at hrun
        cases hrun
      refine (wp_of_forall fun r _ => hacc r).mpr (wp_seq wp_onTables fun f t _ => ?_)
      cases f with
      | none => exact wp_pure.mpr trivial
      | some f =>
          refine wp_seq wp_onTables fun fd t _ => ?_
          cases fd with
          | none => exact wp_seq wp_onTables fun _ _ _ => wp_pure.mpr trivial
          | some fd => exact wp_seq wp_onTables fun _ _ _ => wp_pure.mpr trivial

end Calls

end Mixv6.Syscall.User
