import Mixv6.Mm.Vm
import Mixv6.Syscall.Effects
import Mixv6.Fs.Inode

/-!
# The memory of the caller

The kernel fetches the arguments of a system call from the stack of the caller, and follows the
pointers among them, with plain loads and stores.  A run of this model ends with `outside` where
the kernel dereferences for its caller an address that is in no present user page; the kernel
itself does not test this, and what it does from there on is not modelled.

The memory of the caller is a memory of its own here: nothing that a call does to other pages
changes it.

## Main definitions

* `State`, `Stop`, `Kern` — the caller, the tables and the memory, and programs on them.
* `getByte`, `putByte`, `getWord` — the accesses.
* `argint`, `argptr`, `argfd` — `kernel/syscall/arg.c`.
* `strcmp`, `namei` — the routines that read a path.
* `Inside` — no access is outside of the pages of the caller.
-/

namespace Mixv6.Syscall.User

open Mixv6.Lib Mixv6.Kernel
open Mixv6.Mm (KERNEND PAGESIZE)
open Mixv6.Fs.Cache (Sector SECTSIZE toInt)

/-! ## Programs -/

/-- What a call finds outside of the state. -/
structure Env where
  L : Mm.Layout
  /-- The caller. -/
  proc : Slot
  contents : Contents
  /-- What `bread` finds in a block; `none` where it panics. -/
  block : ℕ → Option Sector
  /-- A file, as the loader reads it. -/
  file : Inode → Mm.File
  /-- `input.buf` and `input.index` of the console, when `consoleread` wakes up. -/
  buf : ℕ → UInt8
  index : ℕ

/-- The state during a call.  `mem` and `user` are the address space that the call is made in:
its bytes, and the numbers of the pages that are present and of the user.  `stored` and `screen`
record the bytes that `writei` has moved to the buffers, with block and place, and those that have
been written to the console. -/
structure State where
  mem : Mem
  user : ℕ → Bool
  tables : Syscall.State
  phys : Mm.Phys
  /-- `tf->esp` and `tf->eip`. -/
  esp : ℕ
  eip : ℕ
  /-- `procp->pgdir` and `procp->size`. -/
  pgdir : ℕ
  size : ℕ
  /-- The inode whose lock the caller holds. -/
  lock : Option InodeId
  stored : List (ℕ × ℕ × List UInt8)
  screen : List UInt8

/-- Why a run ends. -/
inductive Stop
  /-- The kernel dereferences for its caller an address that is in no page of the caller. -/
  | outside (a : ℕ)
  /-- A panic of the memory management. -/
  | mm (e : Mm.Panic)
  /-- A panic of the file or inode table. -/
  | tables (e : Syscall.Panic)
  /-- A panic in `bread`. -/
  | bread
  /-- A file without an inode. -/
  | inode
  /-- A store behind the end of `_argv`. -/
  | argv
  | hang

/-- A routine of the kernel. -/
abbrev Kern (α : Type) := Prog State Stop α

/-- A routine on the tables. -/
def onTables {α : Type} (c : Syscall.Kern α) : Kern α :=
  zoom State.tables (fun s tables => { s with tables }) .tables c

/-- A routine of the memory management. -/
def onPhys {α : Type} (c : Mm.Kern α) : Kern α :=
  zoom State.phys (fun s phys => { s with phys }) .mm c

/-- What `argptr` makes of an argument: the pointer, or null. -/
def ptr (n : ℤ) : ℕ := if (KERNEND : ℤ) < n then n.toNat else 0

namespace State

/-- The address is in a present page of the user. -/
def Present (s : State) (a : ℕ) : Prop := s.user (a % 2 ^ 32 / PAGESIZE)

instance decidablePresent (s : State) (a : ℕ) : Decidable (s.Present a) :=
  inferInstanceAs (Decidable (_ = _))

/-- So are `n` addresses from `a` on. -/
def Range (s : State) (a n : ℕ) : Prop := ∀ k < n, s.Present (a + k)

instance decidableRange (s : State) (a n : ℕ) : Decidable (s.Range a n) :=
  inferInstanceAs (Decidable (∀ k < n, _))

def byte (s : State) (a : ℕ) : UInt8 := s.mem (a % 2 ^ 32)

def word (s : State) (a : ℕ) : ℕ :=
  (s.byte a).toNat + 256 * (s.byte (a + 1)).toNat + 65536 * (s.byte (a + 2)).toNat +
    16777216 * (s.byte (a + 3)).toNat

/-- The word of an argument, and the addresses that it lies at. -/
def arg (s : State) (argc : ℕ) : ℕ := s.word (s.esp + 4 * (argc + 1))

def Arg (s : State) (argc : ℕ) : Prop := s.Range (s.esp + 4 * (argc + 1)) 4

instance decidableArg (s : State) (argc : ℕ) : Decidable (s.Arg argc) :=
  inferInstanceAs (Decidable (s.Range ..))

/-- `argptr` refuses a pointer that is not null. -/
def Refused (s : State) (argc : ℕ) : Prop := s.arg argc ≠ 0 ∧ ptr (toInt (s.arg argc)) = 0

def setByte (s : State) (a : ℕ) (b : UInt8) : State :=
  { s with mem := Function.update s.mem (a % 2 ^ 32) b }

end State

/-! ## Accesses -/

/-- The kernel loads a byte of the caller. -/
def getByte (a : ℕ) : Kern UInt8 := do
  let s ← get
  if ¬ s.Present a then throw (.outside (a % 2 ^ 32))
  return s.byte a

/-- The kernel stores a byte to the caller. -/
def putByte (a : ℕ) (b : UInt8) : Kern Unit := do
  let s ← get
  if ¬ s.Present a then throw (.outside (a % 2 ^ 32))
  set (s.setByte a b)

/-- The kernel loads a word. -/
def getWord (a : ℕ) : Kern ℕ := do
  let b₀ ← getByte a
  let b₁ ← getByte (a + 1)
  let b₂ ← getByte (a + 2)
  let b₃ ← getByte (a + 3)
  return b₀.toNat + 256 * b₁.toNat + 65536 * b₂.toNat + 16777216 * b₃.toNat

/-- `memmove` from the caller. -/
def getBytes (a : ℕ) : ℕ → Kern (List UInt8)
  | 0 => return []
  | n + 1 => do
      let b ← getByte a
      return b :: (← getBytes (a + 1) n)

/-- `memmove` to the caller. -/
def putBytes (a : ℕ) : List UInt8 → Kern Unit
  | [] => return
  | b :: bs => do
      putByte a b
      putBytes (a + 1) bs

/-! ## `kernel/syscall/arg.c` -/

/-- `argint`. -/
def argint (argc : ℕ) : Kern ℤ := do
  return toInt (← getWord ((← get).esp + 4 * (argc + 1)))

/-- `argptr`; a null pointer is 0. -/
def argptr (argc : ℕ) : Kern ℕ := do
  return ptr (← argint argc)

/-- `argfd`. -/
def argfd (env : Env) (argc : ℕ) : Kern (Option FileId) := do
  let fd ← argint argc
  return Syscall.argfd (← get).tables env.proc fd

/-! ## Paths -/

/-- `strcmp` of a string of the caller with one of the kernel, which is a list up to its
terminator. -/
def strcmp (p : ℕ) (q : List UInt8) : ℕ → Kern Bool
  | 0 => do
      -- The test of `*p` comes before the one of `limit`.
      let _ ← getByte p
      return true
  | limit + 1 => do
      let c ← getByte p
      if c = 0 then return q.headD 0 = 0
      if c ≠ q.headD 0 then return false
      strcmp (p + 1) q.tail limit

/-- The loop of `dirlookup`. -/
def dirlookup (c : Contents) (fname : ℕ) : Directory → Kern (Option InodeId)
  | [] => return none
  | (ino, name) :: d => do
      if ← strcmp fname name FNAMESIZ then
        onTables (iget c ino)
      else dirlookup c fname d

/-- `namei`. -/
def namei (env : Env) (path : ℕ) : Kern (Option InodeId) := do
  if path = 0 then
    return none
  let ip ← onTables (getrootdir env.contents)
  if (← getByte path) = 0x2F then
    return some ip
  let b := ((← get).tables.inode ip).dinode.addr 0
  if env.block b = none then throw .bread
  onTables (irelse (some ip))
  dirlookup env.contents path ((env.contents.directory b).take NDIRENT)

/-! ## The lock of an inode -/

/-- `acquire(&ip->lock)`. -/
def acquire (ip : InodeId) : Kern Unit := modify fun s => { s with lock := some ip }

/-- `release(&ip->lock)`. -/
def release : Kern Unit := modify fun s => { s with lock := none }

/-! ## What stays inside -/

/-- The run has not ended with an access outside of the pages of the caller. -/
def Inside (e : Stop) : Prop := ∀ a, e ≠ .outside a

section Rules
variable {α : Type} {s t : State} {a n : ℕ}

@[simp] theorem inside_mm (e : Mm.Panic) : Inside (.mm e) := fun _ => by simp
@[simp] theorem inside_tables (e : Syscall.Panic) : Inside (.tables e) := fun _ => by simp
@[simp] theorem inside_bread : Inside .bread := fun _ => by simp
@[simp] theorem inside_inode : Inside .inode := fun _ => by simp
@[simp] theorem inside_argv : Inside .argv := fun _ => by simp
@[simp] theorem inside_hang : Inside .hang := fun _ => by simp

/-- The tables are not memory of the caller. -/
theorem wp_onTables {c : Syscall.Kern α} : wp Inside (onTables c) (fun _ _ => True) s := by
  rw [onTables, wp_zoom]
  exact wp_trivial fun e => by simp

theorem wp_onPhys {c : Mm.Kern α} : wp Inside (onPhys c) (fun _ _ => True) s := by
  rw [onPhys, wp_zoom]
  exact wp_trivial fun e => by simp

theorem wp_getByte {Q : UInt8 → State → Prop} :
    wp Inside (getByte a) Q s ↔ s.Present a ∧ Q (s.byte a) s := by
  simp only [getByte, wp_bind, wp_get, wp_ite, wp_throw, wp_pure]
  by_cases h : s.Present a
  · simp [h]
  · simp [h, Inside]

theorem wp_putByte {b : UInt8} {Q : Unit → State → Prop} :
    wp Inside (putByte a b) Q s ↔ s.Present a ∧ Q () (s.setByte a b) := by
  simp only [putByte, wp_bind, wp_get, wp_ite, wp_throw, wp_set]
  by_cases h : s.Present a
  · simp [h]
  · simp [h, Inside]

theorem range_succ : s.Range a (n + 1) ↔ s.Present a ∧ s.Range (a + 1) n := by
  constructor
  · intro h
    refine ⟨h 0 (by omega), fun k hk => ?_⟩
    rw [Nat.add_right_comm, Nat.add_assoc]
    exact h (k + 1) (by omega)
  · rintro ⟨h0, h⟩ k hk
    cases k with
    | zero => exact h0
    | succ k =>
        rw [Nat.add_comm k 1, ← Nat.add_assoc]
        exact h k (by omega)

theorem range_zero : s.Range a 0 := fun _ hk => absurd hk (Nat.not_lt_zero _)

theorem wp_getWord {Q : ℕ → State → Prop} :
    wp Inside (getWord a) Q s ↔ s.Range a 4 ∧ Q (s.word a) s := by
  simp only [getWord, wp_bind, wp_getByte, wp_pure, range_succ, range_zero, State.word]
  simp [Nat.add_assoc, and_assoc]

theorem wp_getBytes {Q : List UInt8 → State → Prop} : wp Inside (getBytes a n) Q s ↔
    s.Range a n ∧ Q ((List.range n).map fun k => s.byte (a + k)) s := by
  induction n generalizing a Q with
  | zero => simp [getBytes, range_zero]
  | succ n ih =>
      simp only [getBytes, wp_bind, wp_getByte, wp_pure, ih, range_succ, and_assoc,
        List.range_succ_eq_map, List.map_cons, List.map_map]
      simp [Function.comp_def, Nat.add_right_comm, Nat.add_assoc]

/-- Stores to the caller change its memory only. -/
theorem wp_putBytes {bs : List UInt8} {Q : Unit → State → Prop} {R : Prop}
    (hQ : ∀ mem, Q () { s with mem } ↔ R) :
    wp Inside (putBytes a bs) Q s ↔ s.Range a bs.length ∧ R := by
  induction bs generalizing a s with
  | nil => simpa [putBytes, range_zero] using hQ s.mem
  | cons b bs ih =>
      rw [putBytes, wp_bind, wp_putByte, List.length_cons, range_succ, and_assoc]
      exact and_congr_right fun _ => ih (s := s.setByte a b) fun mem => hQ mem

theorem wp_argint {argc : ℕ} {Q : ℤ → State → Prop} :
    wp Inside (argint argc) Q s ↔ s.Arg argc ∧ Q (toInt (s.arg argc)) s := by
  simp only [argint, wp_bind, wp_get, wp_getWord, wp_pure]
  rfl

theorem wp_argptr {argc : ℕ} {Q : ℕ → State → Prop} :
    wp Inside (argptr argc) Q s ↔ s.Arg argc ∧ Q (ptr (toInt (s.arg argc))) s := by
  simp only [argptr, wp_bind, wp_argint, wp_pure]

theorem wp_argfd {env : Env} {argc : ℕ} {Q : Option FileId → State → Prop} :
    wp Inside (argfd env argc) Q s ↔ s.Arg argc ∧
      Q (Syscall.argfd s.tables env.proc (toInt (s.arg argc))) s := by
  simp only [argfd, wp_bind, wp_argint, wp_get, wp_pure]

/-! ## Paths -/

/-- `strcmp` compares the first `k` characters, which are the same, and comes to the next one. -/
def Compared (s : State) (p : ℕ) (q : List UInt8) (limit k : ℕ) : Prop :=
  k ≤ limit ∧ ∀ j < k, s.byte (p + j) ≠ 0 ∧ s.byte (p + j) = q.getD j 0

/-- What `strcmp` returns. -/
def State.strcmp (s : State) (p : ℕ) (q : List UInt8) : ℕ → Bool
  | 0 => true
  | limit + 1 =>
      if s.byte p = 0 then q.headD 0 = 0
      else if s.byte p ≠ q.headD 0 then false
      else s.strcmp (p + 1) q.tail limit

theorem compared_zero {p : ℕ} {q : List UInt8} {limit : ℕ} : Compared s p q limit 0 :=
  ⟨Nat.zero_le _, fun _ hj => absurd hj (Nat.not_lt_zero _)⟩

theorem compared_succ {p : ℕ} {q : List UInt8} {limit k : ℕ} :
    Compared s p q (limit + 1) (k + 1) ↔
      s.byte p ≠ 0 ∧ s.byte p = q.headD 0 ∧ Compared s (p + 1) q.tail limit k := by
  have hget : ∀ j, q.tail.getD j 0 = q.getD (j + 1) 0 := by
    intro j
    cases q <;> simp
  have hhead : q.getD 0 0 = q.headD 0 := by cases q <;> rfl
  constructor
  · rintro ⟨hk, h⟩
    have h0 := h 0 (by omega)
    refine ⟨h0.1, hhead ▸ h0.2, by omega, fun j hj => ?_⟩
    rw [hget, Nat.add_right_comm, Nat.add_assoc]
    exact h (j + 1) (by omega)
  · rintro ⟨h0, h0', hk, h⟩
    refine ⟨by omega, fun j hj => ?_⟩
    cases j with
    | zero => exact ⟨h0, hhead ▸ h0'⟩
    | succ j =>
        rw [← hget, Nat.add_comm j 1, ← Nat.add_assoc]
        exact h j (by omega)

theorem wp_strcmp {p : ℕ} {q : List UInt8} {limit : ℕ} {Q : Bool → State → Prop} :
    wp Inside (strcmp p q limit) Q s ↔
      (∀ k, Compared s p q limit k → s.Present (p + k)) ∧ Q (s.strcmp p q limit) s := by
  induction limit generalizing p q with
  | zero =>
      simp only [strcmp, wp_bind, wp_getByte, wp_pure, State.strcmp]
      refine and_congr_left fun _ => ⟨fun h k hk => ?_, fun h => h 0 compared_zero⟩
      obtain rfl : k = 0 := Nat.le_zero.mp hk.1
      exact h
  | succ limit ih =>
      have hfirst : (∀ k, Compared s p q (limit + 1) k → s.Present (p + k)) ↔ s.Present p ∧
          (s.byte p ≠ 0 → s.byte p = q.headD 0 →
            ∀ k, Compared s (p + 1) q.tail limit k → s.Present (p + 1 + k)) := by
        constructor
        · intro h
          refine ⟨h 0 compared_zero, fun h0 h0' k hk => ?_⟩
          rw [Nat.add_assoc, Nat.add_comm 1 k]
          exact h (k + 1) (compared_succ.mpr ⟨h0, h0', hk⟩)
        · rintro ⟨h0, h⟩ k hk
          cases k with
          | zero => exact h0
          | succ k =>
              obtain ⟨hne, heq, hk⟩ := compared_succ.mp hk
              rw [Nat.add_comm k 1, ← Nat.add_assoc]
              exact h hne heq k hk
      simp only [strcmp, State.strcmp, wp_bind, wp_getByte, wp_ite, wp_pure, ih, hfirst]
      by_cases hnul : s.byte p = 0
      · simp [hnul]
      · by_cases heq : s.byte p = q.headD 0
        · have hne : ¬ s.byte p ≠ q.headD 0 := fun hne => hne heq
          rw [if_neg hnul, if_neg hnul, if_neg hne, if_neg hne, and_assoc]
          exact and_congr_right fun _ => and_congr_left fun _ => ⟨fun h _ _ => h, fun h => h hnul heq⟩
        · rw [if_neg hnul, if_neg hnul, if_pos heq, if_pos heq, and_assoc]
          exact and_congr_right fun _ => ⟨fun h => ⟨fun _ h' => absurd h' heq, h⟩, fun h => h.2⟩

/-- `dirlookup` comes to the entries up to the first one with the name, and compares. -/
def Looked (s : State) (fname : ℕ) (d : Directory) (k : ℕ) : Prop :=
  ∃ (i : ℕ) (e : ℕ × List UInt8), d[i]? = some e ∧
    (∀ j < i, ∀ e' : ℕ × List UInt8, d[j]? = some e' → s.strcmp fname e'.2 FNAMESIZ = false) ∧
    Compared s fname e.2 FNAMESIZ k

theorem looked_cons {fname : ℕ} {e : ℕ × List UInt8} {d : Directory} {k : ℕ} :
    Looked s fname (e :: d) k ↔ Compared s fname e.2 FNAMESIZ k ∨
      s.strcmp fname e.2 FNAMESIZ = false ∧ Looked s fname d k := by
  constructor
  · rintro ⟨i, e', he', hbefore, hk⟩
    cases i with
    | zero =>
        obtain rfl : e = e' := by simpa using he'
        exact .inl hk
    | succ i =>
        refine .inr ⟨hbefore 0 (by omega) e (by simp), i, e', by simpa using he', ?_, hk⟩
        exact fun j hj e'' he'' => hbefore (j + 1) (by omega) e'' (by simpa using he'')
  · rintro (hk | ⟨hfirst, i, e', he', hbefore, hk⟩)
    · exact ⟨0, e, by simp, fun j hj => absurd hj (Nat.not_lt_zero _), hk⟩
    · refine ⟨i + 1, e', by simpa using he', fun j hj e'' he'' => ?_, hk⟩
      cases j with
      | zero =>
          obtain rfl : e = e'' := by simpa using he''
          exact hfirst
      | succ j => exact hbefore j (by omega) e'' (by simpa using he'')

theorem wp_dirlookup {c : Contents} {fname : ℕ} {d : Directory} :
    wp Inside (dirlookup c fname d) (fun _ _ => True) s ↔
      ∀ k, Looked s fname d k → s.Present (fname + k) := by
  induction d with
  | nil => simp [dirlookup, Looked]
  | cons e d ih =>
      simp only [dirlookup, wp_bind, wp_strcmp, wp_ite, looked_cons, ih]
      by_cases hfound : s.strcmp fname e.2 FNAMESIZ
      · simp [hfound, wp_onTables]
      · simp only [Bool.not_eq_true] at hfound
        simp [hfound, or_imp, forall_and]

/-- The path is null, or the addresses that `namei` comes to are in pages of the caller: the first
character, and where it is no slash, those that are compared with the names in the root
directory. -/
def PathInside (env : Env) (s : State) (path : ℕ) : Prop :=
  path ≠ 0 → ∀ ip tables, getrootdir env.contents s.tables = .ok (ip, tables) →
    s.Present path ∧ (s.byte path ≠ 0x2F →
      env.block ((tables.inode ip).dinode.addr 0) ≠ none → ∀ k,
        Looked s path ((env.contents.directory ((tables.inode ip).dinode.addr 0)).take NDIRENT) k →
          s.Present (path + k))

theorem strcmp_congr (h : t.mem = s.mem) (p : ℕ) (q : List UInt8) (limit : ℕ) :
    t.strcmp p q limit = s.strcmp p q limit := by
  induction limit generalizing p q with
  | zero => rfl
  | succ limit ih =>
      have hbyte : t.byte p = s.byte p := by rw [State.byte, h, State.byte]
      rw [State.strcmp, State.strcmp, hbyte, ih]

theorem looked_congr (h : t.mem = s.mem) {fname : ℕ} {d : Directory} {k : ℕ} :
    Looked t fname d k ↔ Looked s fname d k := by
  simp only [Looked, Compared, strcmp_congr h, State.byte, h]

theorem wp_namei {env : Env} {path : ℕ} :
    wp Inside (namei env path) (fun _ _ => True) s ↔ PathInside env s path := by
  rw [namei, wp_ite, PathInside]
  by_cases hnull : path = 0
  · simp [hnull]
  rw [if_neg hnull, wp_bind, onTables, wp_zoom, wp_split]
  have hpanic : wp (fun e => Inside (.tables e)) (getrootdir env.contents) (fun _ _ => True)
      s.tables := wp_trivial fun e => by simp
  simp only [hpanic, true_and, ne_eq, hnull, not_false_eq_true, true_implies]
  refine forall_congr' fun ip => forall_congr' fun tables => imp_congr_right fun _ => ?_
  simp only [wp_bind, wp_getByte, wp_ite, wp_pure, wp_get]
  refine and_congr_right fun _ => ?_
  change (if s.byte path = 0x2F then True else _) ↔ _
  by_cases hslash : s.byte path = 0x2F
  · simp [hslash]
  by_cases hblock : env.block ((tables.inode ip).dinode.addr 0) = none
  · rw [if_neg hslash, if_pos hblock, wp_throw]
    exact iff_of_true inside_bread fun _ h => absurd hblock h
  have htotal : wp (fun _ => False) (irelse (some ip)) (fun _ _ => True) tables := wp_irelse trivial
  obtain ⟨r, tables', hrun, -⟩ := wp_total.mp htotal
  have hpanic' : wp (fun e => Inside (.tables e)) (irelse (some ip)) (fun _ _ => True) tables :=
    wp_trivial fun e => by simp
  rw [if_neg hslash, if_neg hblock, onTables, wp_zoom, wp_split]
  simp only [hpanic', true_and, hrun, wp_dirlookup]
  constructor
  · intro h _ _ k hk
    have hlook := h r tables' rfl k
    rw [looked_congr rfl] at hlook
    exact hlook hk
  · intro h r' t' heq k hk
    rw [looked_congr rfl] at hk
    exact h hslash hblock k hk

end Rules
end Mixv6.Syscall.User
