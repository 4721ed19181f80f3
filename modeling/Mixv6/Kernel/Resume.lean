import Mixv6.Kernel.Trap
import Mixv6.Lib.Suspend

/-!
# Traps inside traps

The kernel stack of a process, in any run of the process and of the kernel on its behalf: traps
come at any point, also inside `trap`, and every one leaves a frame.  The frames on the stack are the
registers that are waiting, so that each `trapret` goes on with the code that its own trap has
interrupted.

## Main definitions

* `decode` — the registers in a trap frame.
* `Running`, `Event`, `trapMachine`, `Allowed` — the processor with the calls of `trap` in progress.
* `Inv`, `refines_works` — the frames are the work that is suspended.
* `resumes` — code that was interrupted goes on as it was.
-/

namespace Mixv6.Kernel.Trap

open Mixv6.Lib

/-! ## Frames -/

/-- The registers in the `struct trapframe` at `tf`; the kernel goes on with the stack above it. -/
def decode (m : Mem) (tf : ℕ) : Regs where
  edi := BitVec.ofNat 32 (m.load32 tf)
  esi := BitVec.ofNat 32 (m.load32 (tf + 4))
  ebp := BitVec.ofNat 32 (m.load32 (tf + 8))
  ebx := BitVec.ofNat 32 (m.load32 (tf + 16))
  edx := BitVec.ofNat 32 (m.load32 (tf + 20))
  ecx := BitVec.ofNat 32 (m.load32 (tf + 24))
  eax := BitVec.ofNat 32 (m.load32 (tf + 28))
  gs := BitVec.ofNat 16 (m.load16 (tf + 32))
  fs := BitVec.ofNat 16 (m.load16 (tf + 36))
  es := BitVec.ofNat 16 (m.load16 (tf + 40))
  ds := BitVec.ofNat 16 (m.load16 (tf + 44))
  eip := BitVec.ofNat 32 (m.load32 (tf + 56))
  cs := BitVec.ofNat 16 (m.load16 (tf + 60))
  eflags := BitVec.ofNat 32 (m.load32 (tf + 64))
  esp := if 0 < rpl (BitVec.ofNat 16 (m.load16 (tf + 60))) then BitVec.ofNat 32 (m.load32 (tf + 68))
    else BitVec.ofNat 32 (tf + 68)
  ss := if 0 < rpl (BitVec.ofNat 16 (m.load16 (tf + 60))) then BitVec.ofNat 16 (m.load16 (tf + 72)) else ss0

variable {t : Tables} {m m' : Mem} {tf : ℕ} {r : Regs} {n : BitVec 8} {err : BitVec 32} {ts : BitVec 32}

theorem toNat_load32 (a : ℕ) : (BitVec.ofNat 32 (m.load32 a)).toNat = m.load32 a := by
  have hlt := m.load32_lt a
  rw [BitVec.toNat_ofNat, Nat.mod_eq_of_lt hlt]

theorem toNat_load16 (a : ℕ) : (BitVec.ofNat 16 (m.load16 a)).toNat = m.load16 a := by
  have h0 := (m a).toNat_lt
  have h1 := (m (a + 1)).toNat_lt
  rw [BitVec.toNat_ofNat, Mem.load16]
  omega

theorem framed_decode : Framed m tf (decode m tf) := by
  refine ⟨(toNat_load32 _).symm, (toNat_load32 _).symm, (toNat_load32 _).symm, (toNat_load32 _).symm,
    (toNat_load32 _).symm, (toNat_load32 _).symm, (toNat_load32 _).symm, (toNat_load16 _).symm,
    (toNat_load16 _).symm, (toNat_load16 _).symm, (toNat_load16 _).symm, (toNat_load32 _).symm,
    (toNat_load16 _).symm, (toNat_load32 _).symm, fun hu => ?_⟩
  have hlevel : 0 < rpl (BitVec.ofNat 16 (m.load16 (tf + 60))) := hu
  simp only [decode, if_pos hlevel]
  exact ⟨(toNat_load32 _).symm, (toNat_load16 _).symm⟩

theorem ofNat_eq {w k : ℕ} {v : BitVec w} (h : k = v.toNat) : BitVec.ofNat w k = v := by
  rw [h, BitVec.ofNat_toNat, BitVec.setWidth_eq]

/-- A trap frame holds one set of registers. -/
theorem Framed.decode_eq (h : Framed m tf r) (hk : ¬ 0 < r.cpl → tf + 68 = r.esp.toNat ∧ r.ss = ss0) :
    decode m tf = r := by
  have hlevel : rpl r.cs = r.cpl := rfl
  simp only [decode, ofNat_eq h.edi, ofNat_eq h.esi, ofNat_eq h.ebp, ofNat_eq h.ebx, ofNat_eq h.edx,
    ofNat_eq h.ecx, ofNat_eq h.eax, ofNat_eq h.gs, ofNat_eq h.fs, ofNat_eq h.es, ofNat_eq h.ds,
    ofNat_eq h.eip, ofNat_eq h.cs, ofNat_eq h.eflags, hlevel]
  by_cases hu : 0 < r.cpl
  · obtain ⟨hesp, hss⟩ := h.user hu
    rw [if_pos hu, if_pos hu, ofNat_eq hesp, ofNat_eq hss]
  · obtain ⟨hesp, hss⟩ := hk hu
    rw [if_neg hu, if_neg hu, ofNat_eq hesp, ← hss]

/-- A frame depends on its bytes. -/
theorem decode_congr (h : ∀ x, tf ≤ x → x < tf + size (decode m tf) → m' x = m x) :
    decode m' tf = decode m tf := by
  have hsize := le_size (decode m tf)
  have h32 : ∀ {k}, k + 4 ≤ size (decode m tf) → m'.load32 (tf + k) = m.load32 (tf + k) := fun hk =>
    Mem.load32_congr fun j hj => h _ (by omega) (by omega)
  have h16 : ∀ {k}, k + 2 ≤ size (decode m tf) → m'.load16 (tf + k) = m.load16 (tf + k) := fun hk =>
    Mem.load16_congr fun j hj => h _ (by omega) (by omega)
  have hedi : m'.load32 tf = m.load32 tf := h32 (k := 0) (by omega)
  have hcs : m'.load16 (tf + 60) = m.load16 (tf + 60) := h16 (by omega)
  have huser : 0 < rpl (BitVec.ofNat 16 (m.load16 (tf + 60))) →
      m'.load32 (tf + 68) = m.load32 (tf + 68) ∧ m'.load16 (tf + 72) = m.load16 (tf + 72) := by
    intro hu
    have hlarge : size (decode m tf) = 76 := if_pos hu
    exact ⟨h32 (by omega), h16 (by omega)⟩
  simp only [decode, hedi, hcs, h32 (k := 4) (by omega), h32 (k := 8) (by omega),
    h32 (k := 16) (by omega), h32 (k := 20) (by omega), h32 (k := 24) (by omega),
    h32 (k := 28) (by omega), h16 (k := 32) (by omega), h16 (k := 36) (by omega),
    h16 (k := 40) (by omega), h16 (k := 44) (by omega), h32 (k := 56) (by omega),
    h32 (k := 64) (by omega)]
  by_cases hu : 0 < rpl (BitVec.ofNat 16 (m.load16 (tf + 60)))
  · rw [(huser hu).1, (huser hu).2]
  · simp only [if_neg hu]

/-! ## The kernel stack -/

/-- A program is running. -/
structure UserRegs (ts : BitVec 32) (r : Regs) : Prop where
  cpl : r.cpl = 3
  segs : ∀ i, outer ts 3 (r.seg i) = r.seg i

/-- The kernel is running. -/
structure KernelRegs (r : Regs) : Prop where
  cpl : r.cpl = 0
  ss : r.ss = ss0

/-- The processor and the memory, with the arguments of the calls of `trap` that are in progress, the
innermost first. -/
structure Running where
  st : St
  frames : List ℕ

/-- What happens. -/
inductive Event
  /-- The program goes on, or the kernel. -/
  | run (st : St)
  /-- An interrupt or an exception. -/
  | trap (n : BitVec 8) (err : BitVec 32)
  /-- The program executes `int`. -/
  | int (n : BitVec 8)
  /-- The kernel stores to the frame of its caller. -/
  | edit (m : Mem)
  /-- `trap` returns. -/
  | ret
  /-- `swtch` returns to `trapret`, as it does for a new process. -/
  | start

/-- A trap, up to the call of `trap`. -/
def Running.enter (t : Tables) (s : Running) (n : BitVec 8) (st : St) : Running where
  st := Trap.run t.ts st (vector n ++ alltraps)
  frames := ((Trap.run t.ts st (vector n ++ alltraps)).regs.esp.toNat + 4) :: s.frames

def trapMachine (t : Tables) : Machine Running Event where
  step
    | s, .run st => some { s with st }
    | s, .trap n err => some (s.enter t n (interrupt t n err s.st))
    | s, .int n => some (s.enter t (Trap.int t n s.st).1 (Trap.int t n s.st).2)
    | s, .edit m => some { s with st := { s.st with mem := m } }
    | ⟨st, _ :: frames⟩, .ret => some ⟨Trap.run t.ts st (.addEsp 4 :: trapret), frames⟩
    | ⟨st, _ :: frames⟩, .start => some ⟨Trap.run t.ts st trapret, frames⟩
    | ⟨_, []⟩, _ => none

/-- What the program and the kernel do.  Nothing stores to a frame but what goes to the frame of the
program; the stack does not run empty. -/
def Allowed (t : Tables) (s : Running) : Event → Prop
  | .run st =>
      (s.frames = [] → UserRegs t.ts st.regs) ∧
      (∀ tf ∈ s.frames.head?, KernelRegs st.regs ∧ st.regs.esp.toNat ≤ tf) ∧
      ∀ tf ∈ s.frames, ∀ x, tf ≤ x → x < tf + size (decode s.st.mem tf) → st.mem x = s.st.mem x
  | .trap .. => 80 ≤ (top t s.st.regs).toNat
  | .int _ => s.frames = [] ∧ 80 ≤ (top t s.st.regs).toNat
  | .edit m => ∃ tf, s.frames = [tf] ∧ UserRegs t.ts (decode m tf)
  | .ret => ∀ tf ∈ s.frames.head?, s.st.regs.esp.toNat + 4 = tf
  | .start => ∀ tf ∈ s.frames.head?, s.st.regs.esp.toNat = tf

/-- The frames lie one above the other, and the last one is that of the program. -/
def Pending (t : Tables) (m : Mem) : List ℕ → Prop
  | [] => True
  | [tf] => UserRegs t.ts (decode m tf) ∧ tf + 76 = t.esp0.toNat
  | tf :: tf' :: frames => KernelRegs (decode m tf) ∧ tf + 68 ≤ tf' ∧ Pending t m (tf' :: frames)

structure Inv (t : Tables) (s : Running) : Prop where
  user : s.frames = [] → UserRegs t.ts s.st.regs
  kernel : ∀ tf ∈ s.frames.head?, KernelRegs s.st.regs ∧ s.st.regs.esp.toNat ≤ tf
  pending : Pending t s.st.mem s.frames

/-- The registers that are waiting. -/
def suspended (s : Running) : List Regs := s.frames.map (decode s.st.mem)

variable {s u v w : Running} {e : Event} {es : List Event} {frames : List ℕ} {c : Regs}

theorem Pending.congr (h : Pending t m frames) (hm : ∀ tf ∈ frames, decode m' tf = decode m tf) :
    Pending t m' frames := by
  induction frames with
  | nil => trivial
  | cons tf frames ih =>
      have hhead := hm tf List.mem_cons_self
      cases frames with
      | nil =>
          obtain ⟨huser, htop⟩ := h
          exact ⟨hhead ▸ huser, htop⟩
      | cons tf' frames =>
          obtain ⟨hkernel, hle, hpending⟩ := h
          exact ⟨hhead ▸ hkernel, hle, ih hpending fun tf htf => hm tf (List.mem_cons_of_mem _ htf)⟩

/-- The innermost frame is the lowest one. -/
theorem Pending.le (h : Pending t m (tf :: frames)) : ∀ tf' ∈ frames, tf + 68 ≤ tf' := by
  induction frames generalizing tf with
  | nil => simp
  | cons tf' frames ih =>
      obtain ⟨-, hle, hpending⟩ := h
      intro tf'' htf''
      rcases List.mem_cons.mp htf'' with rfl | htf''
      · exact hle
      · have hlater := ih hpending tf'' htf''
        omega

theorem Pending.head_le (h : Pending t m frames) (htf : tf ∈ frames.head?) : ∀ tf' ∈ frames, tf ≤ tf' := by
  intro tf' htf'
  cases frames with
  | nil => cases htf
  | cons tf'' frames =>
      obtain rfl := Option.some.inj htf
      rcases List.mem_cons.mp htf' with rfl | htf'
      · exact le_rfl
      · have hle := h.le tf' htf'
        omega

theorem KernelRegs.not_user (h : KernelRegs r) : ¬ 0 < r.cpl := by
  rw [h.cpl]
  decide

theorem UserRegs.user (h : UserRegs ts r) : 0 < r.cpl := by
  rw [h.cpl]
  decide

/-- The handler of a trap. -/
theorem kernel_called {esp : BitVec 32} (h : 0 < r.cpl ∨ r.ss = ss0) : KernelRegs (r.called t n esp) := by
  have hcpl : rpl SEG_KCODE = 0 := by decide
  refine ⟨hcpl, ?_⟩
  simp only [Regs.called, Regs.entered]
  split
  next => rfl
  next hu => exact h.resolve_left hu

/-- The frames that there are lie above a new one. -/
theorem Inv.above (h : Inv t s) (htf : tf ∈ s.frames) : (top t s.st.regs).toNat ≤ tf := by
  obtain ⟨st, frames⟩ := s
  cases frames with
  | nil => cases htf
  | cons tf' frames =>
      obtain ⟨hkernel, hle⟩ := h.kernel tf' rfl
      have htop : top t st.regs = st.regs.esp := if_neg hkernel.not_user
      simp only at hle
      rw [htop]
      rcases List.mem_cons.mp htf with rfl | htf
      · exact hle
      · have habove := Pending.le h.pending tf htf
        omega

/-- A call of `trap`, for trap `n` of the registers `r`. -/
structure Entered (t : Tables) (s : Running) (n : BitVec 8) (u : Running) (tf : ℕ) : Prop where
  frames : u.frames = tf :: s.frames
  regs : ∃ esp, u.st.regs = s.st.regs.called t n esp
  esp : u.st.regs.esp.toNat + 4 = tf
  top : tf + size s.st.regs = (top t s.st.regs).toNat
  framed : Framed u.st.mem tf s.st.regs
  trapno : u.st.mem.load32 (tf + 48) = n.toNat
  stack : ∀ x, x < (Trap.top t s.st.regs).toNat - 80 ∨ (Trap.top t s.st.regs).toNat ≤ x →
    u.st.mem x = s.st.mem x

theorem size_le (r : Regs) : size r ≤ 76 := by
  rw [size]
  split
  next => rfl
  next => decide

theorem entered (hroom : 80 ≤ (top t s.st.regs).toNat) :
    ∃ tf, Entered t s n (s.enter t n (interrupt t n err s.st)) tf := by
  have hentry : ∃ oesp, Trap.run t.ts (interrupt t n err s.st) (vector n ++ alltraps) = _ := entry hroom
  obtain ⟨oesp, hrun⟩ := hentry
  have hsize := size_le s.st.regs
  have hlow := le_size s.st.regs
  let tf := top t s.st.regs - BitVec.ofNat 32 (size s.st.regs)
  have htf : tf.toNat = (top t s.st.regs).toNat - size s.st.regs := toNat_sub (by omega)
  have hfour : (tf - 4).toNat + 4 = tf.toNat := by
    rw [toNat_sub_four (by omega)]
    omega
  have hlength : 4 * (frame s.st.regs n err oesp).length = size s.st.regs := length_frame
  have hroom' : 4 * (frame s.st.regs n err oesp ++ [Cell.word tf]).length ≤ (top t s.st.regs).toNat := by
    rw [List.length_append, List.length_singleton]
    omega
  have hstacked : Stacked
      (pushes s.st.mem (top t s.st.regs).toNat (frame s.st.regs n err oesp ++ [Cell.word tf]))
      (tf.toNat + size s.st.regs) (frame s.st.regs n err oesp) := by
    rw [htf, Nat.sub_add_cancel (by omega)]
    exact (stacked_append.mp (stacked_pushes hroom')).1
  obtain ⟨hframed, hno, -⟩ := framed_of_stacked hstacked
  refine ⟨tf.toNat, ?_, ⟨tf - 4, ?_⟩, ?_, ?_, ?_, ?_, ?_⟩
  · simp only [Running.enter, hrun]
    exact congrArg (· :: s.frames) hfour
  · simp only [Running.enter, hrun]
    rfl
  · simp only [Running.enter, hrun]
    exact hfour
  · omega
  · simp only [Running.enter, hrun]
    exact hframed
  · simp only [Running.enter, hrun]
    exact hno
  · simp only [Running.enter, hrun]
    intro x hx
    apply pushes_of_ne hroom'
    rw [List.length_append, List.length_singleton]
    omega

/-- A program is running, or the kernel. -/
theorem Inv.mode (h : Inv t s) : UserRegs t.ts s.st.regs ∧ s.frames = [] ∨
    ∃ tf ∈ s.frames.head?, KernelRegs s.st.regs ∧ s.st.regs.esp.toNat ≤ tf := by
  cases hs : s.frames with
  | nil => exact .inl ⟨h.user hs, rfl⟩
  | cons tf frames => exact .inr ⟨tf, rfl, h.kernel tf (by rw [hs]; rfl)⟩

/-- The interrupted registers are those that the new frame holds. -/
theorem Entered.decode_eq (h : Entered t s n u tf) (hI : Inv t s) : decode u.st.mem tf = s.st.regs := by
  apply h.framed.decode_eq
  intro hu
  have htop : Trap.top t s.st.regs = s.st.regs.esp := if_neg hu
  have hsize : size s.st.regs = 68 := if_neg hu
  have hsum := h.top
  rw [htop, hsize] at hsum
  rcases hI.mode with ⟨huser, -⟩ | ⟨tf', -, hkernel, -⟩
  · exact absurd huser.user hu
  · exact ⟨hsum, hkernel.ss⟩

/-- **A trap** suspends what runs. -/
theorem Entered.inv (h : Entered t s n u tf) (hI : Inv t s) :
    Inv t u ∧ suspended u = s.st.regs :: suspended s := by
  have hdecode := h.decode_eq hI
  have hkept : ∀ tf' ∈ s.frames, decode u.st.mem tf' = decode s.st.mem tf' := by
    intro tf' htf'
    have habove := hI.above htf'
    exact decode_congr fun x hx _ => h.stack x (.inr (by omega))
  have hpending : Pending t u.st.mem s.frames := hI.pending.congr hkept
  have hcalled : 0 < s.st.regs.cpl ∨ s.st.regs.ss = ss0 := by
    rcases hI.mode with ⟨huser, -⟩ | ⟨tf', -, hkernel, -⟩
    · exact .inl huser.user
    · exact .inr hkernel.ss
  constructor
  · refine ⟨fun hnil => ?_, fun tf' htf' => ?_, ?_⟩
    · rw [h.frames] at hnil
      cases hnil
    · rw [h.frames, List.head?_cons, Option.mem_some_iff] at htf'
      obtain ⟨esp, hregs⟩ := h.regs
      refine ⟨hregs ▸ kernel_called hcalled, ?_⟩
      have hesp := h.esp
      omega
    · have hsum := h.top
      have habove := fun tf' (htf' : tf' ∈ s.frames) => hI.above htf'
      rw [h.frames]
      cases hs : s.frames with
      | nil =>
          have huser := hI.user hs
          have htop : Trap.top t s.st.regs = t.esp0 := if_pos huser.user
          have hsize : size s.st.regs = 76 := if_pos huser.user
          rw [htop, hsize] at hsum
          exact ⟨hdecode ▸ huser, hsum⟩
      | cons tf' frames =>
          rw [hs] at hpending habove
          have hkernel := (hI.kernel tf' (by rw [hs]; rfl)).1
          have hsize : size s.st.regs = 68 := if_neg hkernel.not_user
          have hle := habove tf' List.mem_cons_self
          exact ⟨hdecode ▸ hkernel, by omega, hpending⟩
  · rw [suspended, h.frames, List.map_cons, hdecode, suspended, List.map_congr_left hkept]

/-! ## `int` -/

theorem dpl_gate (n : BitVec 8) : (idtinit t.vectors n).dpl = if n = T_SYSCALL then DPL_USER else 0 := by
  rw [idtinit]
  by_cases hn : n = T_SYSCALL
  · rw [if_pos hn, hn, Function.update_self]
    rfl
  · rw [if_neg hn, Function.update_of_ne hn]
    rfl

/-- **The gates.**  A program gets through the gate for system calls, behind its instruction; any other
number is a general protection fault of the instruction. -/
theorem int_user {s : St} (h : s.regs.cpl = 3) : Trap.int t n s =
    if n = T_SYSCALL then
      (T_SYSCALL, interrupt t T_SYSCALL 0 { s with regs := { s.regs with eip := s.regs.eip + 2 } })
    else (T_GPFLT, interrupt t T_GPFLT (n.setWidth 32 * 8 + 2) s) := by
  rw [Trap.int, dpl_gate, h]
  by_cases hn : n = T_SYSCALL
  · rw [if_pos hn, if_pos hn, if_neg (by decide), hn]
    rfl
  · rw [if_neg hn, if_neg hn, if_pos (by decide)]

/-! ## `trapret` -/

/-- The frames end where the stack begins. -/
theorem Pending.end_le (h : Pending t m frames) :
    ∀ tf ∈ frames, tf + size (decode m tf) ≤ t.esp0.toNat := by
  induction frames with
  | nil => simp
  | cons tf frames ih =>
      intro tf' htf'
      cases frames with
      | nil =>
          obtain ⟨huser, htop⟩ := h
          obtain rfl := List.mem_singleton.mp htf'
          have hsize : size (decode m tf') = 76 := if_pos huser.user
          rw [hsize, htop]
      | cons tf'' frames =>
          obtain ⟨hkernel, hle, hpending⟩ := h
          have hlater := ih hpending tf'' List.mem_cons_self
          rcases List.mem_cons.mp htf' with rfl | htf'
          · have hsize : size (decode m tf') = 68 := if_neg hkernel.not_user
            omega
          · exact ih hpending tf' htf'

/-- The innermost frame is that of the program, or that of the kernel with the stack above it. -/
theorem Pending.innermost (h : Pending t m (tf :: frames)) :
    UserRegs t.ts (decode m tf) ∧ frames = [] ∨
      KernelRegs (decode m tf) ∧ (decode m tf).esp.toNat = tf + 68 ∧ ∃ tf' ∈ frames.head?, tf + 68 ≤ tf' := by
  cases frames with
  | nil => exact .inl ⟨h.1, rfl⟩
  | cons tf' frames =>
      obtain ⟨hkernel, hle, hpending⟩ := h
      have hlt := (hpending.end_le tf' List.mem_cons_self).trans_lt t.esp0.isLt
      have hesp : (decode m tf).esp = BitVec.ofNat 32 (tf + 68) := if_neg hkernel.not_user
      refine .inr ⟨hkernel, ?_, tf', rfl, hle⟩
      rw [hesp, BitVec.toNat_ofNat, Nat.mod_eq_of_lt (by omega)]

theorem Pending.tail (h : Pending t m (tf :: frames)) : Pending t m frames := by
  cases frames with
  | nil => trivial
  | cons tf' frames => exact h.2.2

/-- A frame ends below the end of the memory. -/
theorem Pending.size_lt (h : Pending t m (tf :: frames)) : tf + size (decode m tf) < 2 ^ 32 :=
  (h.end_le tf List.mem_cons_self).trans_lt t.esp0.isLt

/-- The registers of the innermost frame can be given back. -/
theorem Pending.resumable (h : Pending t m (tf :: frames)) :
    Resumable t.ts (BitVec.ofNat 32 (tf + size (decode m tf))) ss0 (decode m tf) := by
  have hlt := h.size_lt
  rcases h.innermost with ⟨huser, -⟩ | ⟨hkernel, hesp, -⟩
  · refine ⟨fun _ i => ?_, fun hu => absurd huser.user hu⟩
    rw [huser.cpl]
    exact huser.segs i
  · have hsize : size (decode m tf) = 68 := if_neg hkernel.not_user
    refine ⟨fun hu => absurd hu hkernel.not_user, fun _ => ⟨?_, hkernel.ss⟩⟩
    apply BitVec.eq_of_toNat_eq
    rw [hesp, BitVec.toNat_ofNat, Nat.mod_eq_of_lt hlt, hsize]

theorem run_cons {s : St} {i : Instr} {code : List Instr} :
    Trap.run ts s (i :: code) = Trap.run ts (exec ts s i) code :=
  rfl

/-- **`trapret`** goes on with the innermost frame. -/
theorem Inv.trapret {st : St} (h : Inv t ⟨st, tf :: frames⟩) (hcpl : st.regs.cpl = 0) (hss : st.regs.ss = ss0)
    (hesp : st.regs.esp.toNat = tf) : Trap.run t.ts st trapret = ⟨decode st.mem tf, st.mem⟩ ∧
      Inv t ⟨⟨decode st.mem tf, st.mem⟩, frames⟩ := by
  have hpending : Pending t st.mem (tf :: frames) := h.pending
  have hlt := hpending.size_lt
  have hresumable := hpending.resumable
  constructor
  · apply trapret_frame (a := BitVec.ofNat 32 (tf + size (decode st.mem tf)))
    · rw [hesp]
      exact framed_decode
    · rw [hesp, BitVec.toNat_ofNat, Nat.mod_eq_of_lt hlt]
    · exact hcpl
    · rw [hss]
      exact hresumable
  · rcases hpending.innermost with ⟨huser, rfl⟩ | ⟨hregs, hsp, tf', htf', hle⟩
    · exact ⟨fun _ => huser, fun tf' htf' => absurd htf' (Option.not_mem_none tf'), trivial⟩
    · refine ⟨fun (hnil : frames = []) => ?_, fun tf'' htf'' => ?_, hpending.tail⟩
      · rw [hnil] at htf'
        cases htf'
      · obtain rfl := Option.mem_unique htf' htf''
        refine ⟨hregs, ?_⟩
        rw [hsp]
        omega

/-- The return of `trap`. -/
theorem Inv.ret {st : St} (h : Inv t ⟨st, tf :: frames⟩) (hesp : st.regs.esp.toNat + 4 = tf) :
    Trap.run t.ts st (.addEsp 4 :: Trap.trapret) = ⟨decode st.mem tf, st.mem⟩ ∧
      Inv t ⟨⟨decode st.mem tf, st.mem⟩, frames⟩ := by
  have hkernel : KernelRegs st.regs := (h.kernel tf rfl).1
  have hpending : Pending t st.mem (tf :: frames) := h.pending
  have hlt := hpending.size_lt
  let st' : St := ⟨{ st.regs with esp := st.regs.esp + 4 }, st.mem⟩
  have hadd : st'.regs.esp.toNat = tf := by
    rw [← hesp]
    exact toNat_add (k := 4) (by omega)
  have h' : Inv t ⟨st', tf :: frames⟩ := by
    refine ⟨fun hnil => ?_, fun tf' htf' => ?_, hpending⟩
    · cases hnil
    · obtain rfl := Option.some.inj htf'
      exact ⟨⟨hkernel.cpl, hkernel.ss⟩, hadd.le⟩
  obtain ⟨hrun, hinv⟩ := h'.trapret hkernel.cpl hkernel.ss hadd
  constructor
  · rw [run_cons, exec]
    exact hrun
  · exact hinv

/-! ## Runs -/

/-- What an event does to the work that is suspended. -/
def Means : Event → WorkOp Regs → Prop
  | .run _, .rest => True
  | .trap .., .suspend _ => True
  | .int _, .suspend _ => True
  | .edit _, .edit _ => True
  | .ret, .resume => True
  | .start, .resume => True
  | _, _ => False

/-- What an interrupt suspends, or `int`. -/
def Event.suspended (r : Regs) : Event → Option Regs
  | .trap .. => some r
  | .int n => some (if n = T_SYSCALL then { r with eip := r.eip + 2 } else r)
  | _ => none

/-- A trap, or `int`, calls `trap` with a frame of the registers `c`. -/
theorem Inv.entered (h : Inv t s) (hok : Allowed t s e) (hstep : (trapMachine t).step s e = some u)
    (hc : e.suspended s.st.regs = some c) : Inv t ⟨⟨c, s.st.mem⟩, s.frames⟩ ∧ top t c = top t s.st.regs ∧
      ∃ n tf, Entered t ⟨⟨c, s.st.mem⟩, s.frames⟩ n u tf := by
  obtain ⟨st, frames⟩ := s
  cases e with
  | run | edit | ret | start => cases hc
  | trap n err =>
      obtain rfl := Option.some.inj hstep
      obtain rfl := Option.some.inj hc
      exact ⟨h, rfl, n, Trap.entered hok⟩
  | int n =>
      obtain rfl := Option.some.inj hstep
      obtain rfl := Option.some.inj hc
      obtain ⟨hnil, hroom⟩ := hok
      obtain rfl : frames = [] := hnil
      have huser := h.user rfl
      rw [int_user huser.cpl]
      by_cases hn : n = T_SYSCALL
      · simp only [if_pos hn]
        let s : Running := ⟨{ st with regs := { st.regs with eip := st.regs.eip + 2 } }, []⟩
        have hinv : Inv t s :=
          ⟨fun _ => ⟨huser.cpl, huser.segs⟩, fun tf htf => absurd htf (Option.not_mem_none tf), trivial⟩
        have hroom' : 80 ≤ (top t s.st.regs).toNat := hroom
        exact ⟨hinv, rfl, T_SYSCALL, Trap.entered (s := s) hroom'⟩
      · simp only [if_neg hn]
        exact ⟨h, trivial, T_GPFLT, Trap.entered hroom⟩

/-- What is interrupted waits. -/
theorem Inv.next (h : Inv t s) (hok : Allowed t s e) (hstep : (trapMachine t).step s e = some u)
    (hc : e.suspended s.st.regs = some c) : Inv t u ∧ suspended u = c :: suspended s := by
  obtain ⟨hI, -, n, tf, hentered⟩ := h.entered hok hstep hc
  exact hentered.inv hI

/-- The innermost frame goes on. -/
structure Resumed (t : Tables) (s u : Running) : Prop where
  inv : Inv t u
  regs : suspended s = u.st.regs :: suspended u
  mem : u.st.mem = s.st.mem
  esp : u.frames ≠ [] → s.st.regs.esp.toNat ≤ u.st.regs.esp.toNat

theorem Inv.resumed {st : St} (h : Inv t ⟨st, tf :: frames⟩)
    (hI : Inv t ⟨⟨decode st.mem tf, st.mem⟩, frames⟩) :
    Resumed t ⟨st, tf :: frames⟩ ⟨⟨decode st.mem tf, st.mem⟩, frames⟩ := by
  refine ⟨hI, rfl, rfl, fun (hne : frames ≠ []) => ?_⟩
  obtain ⟨-, hle⟩ := h.kernel tf rfl
  have hpending : Pending t st.mem (tf :: frames) := h.pending
  rcases hpending.innermost with ⟨-, hnil⟩ | ⟨-, hesp, -⟩
  · exact absurd hnil hne
  · simp only at hle ⊢
    omega

theorem Inv.resume (h : Inv t s) (he : e = .ret ∨ e = .start) (hok : Allowed t s e)
    (hstep : (trapMachine t).step s e = some u) : Resumed t s u := by
  obtain ⟨st, frames⟩ := s
  cases frames with
  | nil => rcases he with rfl | rfl <;> cases hstep
  | cons tf frames =>
      rcases he with rfl | rfl
      · obtain rfl := Option.some.inj hstep
        obtain ⟨hrun, hinv⟩ := h.ret (hok tf rfl)
        rw [hrun]
        exact h.resumed hinv
      · obtain rfl := Option.some.inj hstep
        obtain ⟨hkernel, -⟩ := h.kernel tf rfl
        obtain ⟨hrun, hinv⟩ := h.trapret hkernel.cpl hkernel.ss (hok tf rfl)
        rw [hrun]
        exact h.resumed hinv

/-- **The frames on the stack are the work that is suspended.** -/
theorem refines_works : (trapMachine t).Refines (Allowed t) (Inv t) (works Regs) Means suspended := by
  intro s e u h hok hstep
  cases e with
  | run st =>
      obtain rfl := Option.some.inj hstep
      obtain ⟨huser, hkernel, hframes⟩ := hok
      have hkept : ∀ tf ∈ s.frames, decode st.mem tf = decode s.st.mem tf := fun tf htf =>
        decode_congr (hframes tf htf)
      refine ⟨⟨huser, hkernel, h.pending.congr hkept⟩, .rest, trivial, ?_⟩
      rw [suspended, suspended, List.map_congr_left hkept]
      rfl
  | trap n err =>
      obtain ⟨hinv, hsuspended⟩ := h.next hok hstep rfl
      rw [hsuspended]
      exact ⟨hinv, .suspend s.st.regs, trivial, rfl⟩
  | int n =>
      obtain ⟨hinv, hsuspended⟩ := h.next hok hstep rfl
      rw [hsuspended]
      exact ⟨hinv, .suspend _, trivial, rfl⟩
  | edit m =>
      obtain rfl := Option.some.inj hstep
      obtain ⟨st, frames⟩ := s
      obtain ⟨tf, hframes, huser⟩ := hok
      obtain rfl : frames = [tf] := hframes
      obtain ⟨-, htop⟩ := h.pending
      refine ⟨⟨fun hnil => ?_, h.kernel, huser, htop⟩, .edit (decode m tf), trivial, rfl⟩
      cases hnil
  | ret =>
      have hresumed := h.resume (.inl rfl) hok hstep
      rw [hresumed.regs]
      exact ⟨hresumed.inv, .resume, trivial, rfl⟩
  | start =>
      have hresumed := h.resume (.inr rfl) hok hstep
      rw [hresumed.regs]
      exact ⟨hresumed.inv, .resume, trivial, rfl⟩

/-- A step that leaves alone the first `n` calls of `trap`. -/
def Within (n : ℕ) (s : Running) : Event → Prop
  | .edit _ => n < s.frames.length
  | .ret => n < s.frames.length
  | .start => n < s.frames.length
  | _ => True

theorem Within.spares {d : WorkOp Regs} {l : List Regs} (h : Within l.length s e) (hd : Means e d) :
    Spares l (suspended s) d := by
  have hne : l.length < s.frames.length → suspended s ≠ l := by
    rintro hlt rfl
    rw [suspended, List.length_map] at hlt
    exact lt_irrefl _ hlt
  cases d with
  | rest | suspend | begin => trivial
  | edit a =>
      cases e with
      | edit m => exact hne h
      | run | trap | int | ret | start => cases hd
  | resume =>
      cases e with
      | ret => exact hne h
      | start => exact hne h
      | run | trap | int | edit => cases hd
  | drop => cases e <;> cases hd

theorem Inv.of_user (hnil : s.frames = []) (huser : UserRegs t.ts s.st.regs) : Inv t s := by
  refine ⟨fun _ => huser, fun tf htf => ?_, ?_⟩
  · rw [hnil] at htf
    cases htf
  · rw [hnil]
    trivial

/-- **Code that is interrupted goes on as it was.**  From a program that runs, whatever traps there are, and
inside which others, the return from one of them gives back every register. -/
theorem resumes {s₀ : Running} {fs : List Event} (h₀ : s₀.frames = []) (huser : UserRegs t.ts s₀.st.regs)
    (hs : (trapMachine t).Trace (Allowed t) s₀ fs s) (hok : Allowed t s e)
    (hu : (trapMachine t).step s e = some u) (hc : e.suspended s.st.regs = some c)
    (hv : (trapMachine t).Trace (fun s' e' => Allowed t s' e' ∧ Within (s.frames.length + 1) s' e') u es v)
    (hdepth : v.frames.length = s.frames.length + 1) (hret : Allowed t v .ret)
    (hw : (trapMachine t).step v .ret = some w) : w.st.regs = c ∧ suspended w = suspended s := by
  have hI := refines_works.invariant (.of_user h₀ huser) hs.path
  obtain ⟨hIu, hsuspended⟩ := hI.next hok hu hc
  have hlength : (c :: suspended s).length = s.frames.length + 1 := by
    rw [List.length_cons, suspended, List.length_map]
  have hrun : Inv t v ∧ ∃ ds, List.Forall₂ Means es ds ∧
      (works Regs).Trace (Spares (c :: suspended s)) (suspended u) ds (suspended v) := by
    apply refines_works.trace_of hIu hv
    intro s' e' d _ _ hwithin hd
    rw [← hlength] at hwithin
    exact hwithin.spares hd
  obtain ⟨hIv, ds, -, htrace⟩ := hrun
  have hsuffix := works_spared htrace (by rw [hsuspended])
  have hwaits := hsuffix.eq_of_length (by rw [hlength, suspended, List.length_map, hdepth])
  rw [(hIv.resume (.inl rfl) hret hw).regs, List.cons.injEq] at hwaits
  exact ⟨hwaits.1.symm, hwaits.2.symm⟩

theorem Entered.allowed_ret (h : Entered t s n u tf) : Allowed t u .ret := by
  intro tf' htf'
  rw [h.frames] at htf'
  obtain rfl := Option.some.inj htf'
  exact h.esp

/-- A handler that returns at once. -/
theorem Entered.ret (h : Entered t s n u tf) (hI : Inv t s) :
    ∃ v, (trapMachine t).step u .ret = some v ∧ v.st.regs = s.st.regs ∧ v.frames = s.frames := by
  obtain ⟨hinv, -⟩ := h.inv hI
  have hdecode := h.decode_eq hI
  have hesp := h.esp
  have hframes := h.frames
  obtain ⟨st, frames⟩ := u
  obtain rfl : frames = tf :: s.frames := hframes
  obtain ⟨hrun, -⟩ := hinv.ret hesp
  refine ⟨⟨Trap.run t.ts st (.addEsp 4 :: Trap.trapret), s.frames⟩, rfl, ?_, rfl⟩
  rw [hrun]
  exact hdecode

/-! ## An interrupt inside an interrupt -/

def tables : Tables := ⟨0x1000, 0x3000, fun n => 0x100 + n.setWidth 32 * 16⟩

def program : Running where
  st := ⟨⟨1, 2, 3, 4, 0x80001000, 6, 7, 8, 0x80000010, 0x202, SEG_UCODE ||| 3, SEG_UDATA ||| 3,
    SEG_UDATA ||| 3, 0, 0, SEG_UDATA ||| 3⟩, fun _ => 0⟩
  frames := []

theorem program_user : UserRegs tables.ts program.st.regs := by
  refine ⟨by decide, fun i => ?_⟩
  cases i with
  | ds | es | fs | gs => decide

theorem resumes_nested : ∃ u₁ u₂ v w, (trapMachine tables).step program (.trap 32 0) = some u₁ ∧
    (trapMachine tables).step u₁ (.trap 33 0) = some u₂ ∧ (trapMachine tables).step u₂ .ret = some v ∧
    (trapMachine tables).step v .ret = some w ∧ w.st.regs = program.st.regs ∧ suspended w = [] := by
  have hI : Inv tables program := .of_user rfl program_user
  have hroom : 80 ≤ (top tables program.st.regs).toNat := by decide
  have hfirst : ∃ tf, Entered tables program 32
      (program.enter tables 32 (interrupt tables 32 0 program.st)) tf := entered hroom
  obtain ⟨tf₁, h₁⟩ := hfirst
  generalize hu₁ : program.enter tables 32 (interrupt tables 32 0 program.st) = u₁ at h₁
  have hstep₁ : (trapMachine tables).step program (.trap 32 0) = some u₁ := by
    rw [← hu₁]
    rfl
  obtain ⟨hI₁, -⟩ := h₁.inv hI
  have hkernel := (hI₁.kernel tf₁ (by rw [h₁.frames]; rfl)).1
  have htop : top tables u₁.st.regs = u₁.st.regs.esp := if_neg hkernel.not_user
  have hroom₁ : 80 ≤ (top tables u₁.st.regs).toNat := by
    have hsum := h₁.top
    have hsize := size_le program.st.regs
    have hesp := h₁.esp
    have hstart : (top tables program.st.regs).toNat = 0x3000 := by decide
    rw [htop]
    omega
  have hsecond : ∃ tf, Entered tables u₁ 33 (u₁.enter tables 33 (interrupt tables 33 0 u₁.st)) tf :=
    entered hroom₁
  obtain ⟨tf₂, h₂⟩ := hsecond
  generalize hu₂ : u₁.enter tables 33 (interrupt tables 33 0 u₁.st) = u₂ at h₂
  have hstep₂ : (trapMachine tables).step u₁ (.trap 33 0) = some u₂ := by
    rw [← hu₂]
    rfl
  obtain ⟨v, hv, hregs, hframes⟩ := h₂.ret hI₁
  have hret₂ : Allowed tables u₂ .ret := h₂.allowed_ret
  have hret₁ : Allowed tables v .ret := by
    intro tf htf
    rw [hframes, h₁.frames] at htf
    obtain rfl := Option.some.inj htf
    rw [hregs, h₁.esp]
  have hdepth : v.frames.length = program.frames.length + 1 := by
    rw [hframes, h₁.frames]
    rfl
  have hwithin : Within (program.frames.length + 1) u₂ .ret := by
    rw [Within, h₂.frames, h₁.frames]
    exact Nat.lt_succ_self 1
  have hw : ∃ w, (trapMachine tables).step v .ret = some w := by
    obtain ⟨st, frames⟩ := v
    cases frames with
    | nil => cases hdepth
    | cons tf frames => exact ⟨_, rfl⟩
  obtain ⟨w, hw⟩ := hw
  exact ⟨u₁, u₂, v, w, hstep₁, hstep₂, hv, hw,
    resumes (e := .trap 32 0) rfl program_user .nil hroom hstep₁ rfl
      ((Machine.Trace.nil.snoc (.trap 33 0) ⟨hroom₁, trivial⟩ hstep₂).snoc .ret ⟨hret₂, hwithin⟩ hv)
      hdepth hret₁ hw⟩

end Mixv6.Kernel.Trap
