import Mixv6.Kernel.Returns

/-!
# System calls

A program calls the kernel by `int $T_SYSCALL`, with the number of the call in `eax`.  `trap` finds the
number in the frame of the program, and stores the result there.

## Main definitions

* `Call`, `syscalls` — the calls and their numbers.
* `syscall` — which one is made.
* `InsideOf` — what happens in a call, with what it stores to the frame of the program.
* `syscall_returns` — the program goes on with the result, and with what its frame holds.
-/

namespace Mixv6.Kernel.Trap

open Mixv6.Lib

/-! ## Numbers -/

/-- The system calls. -/
inductive Call
  | sys_exit | sys_fork | sys_read | sys_write | sys_open | sys_close | sys_wait | sys_creat | sys_link
  | sys_unlink | sys_execv | sys_kill | sys_reboot
  deriving DecidableEq, Repr

/-- The number that the stub in `usys.S` loads. -/
def SYS : Call → BitVec 32
  | .sys_exit => 0x01
  | .sys_fork => 0x02
  | .sys_read => 0x03
  | .sys_write => 0x04
  | .sys_open => 0x05
  | .sys_close => 0x06
  | .sys_wait => 0x07
  | .sys_creat => 0x08
  | .sys_link => 0x09
  | .sys_unlink => 0x0A
  | .sys_execv => 0x0B
  | .sys_kill => 0x25
  | .sys_reboot => 0x58

/-- The table `syscalls`, with null where there is no call. -/
def syscalls : List (Option Call) :=
  [none, some .sys_exit, some .sys_fork, some .sys_read, some .sys_write, some .sys_open,
    some .sys_close, some .sys_wait, some .sys_creat, some .sys_link, some .sys_unlink, some .sys_execv] ++
    List.replicate 25 none ++ [some .sys_kill] ++ List.replicate 50 none ++ [some .sys_reboot]

/-- The call that `syscall` makes; none means that it returns -1. -/
def syscall (num : BitVec 32) : Option Call :=
  if 0 < num ∧ num.toNat < syscalls.length then syscalls.getD num.toNat none else none

/-- The stubs and the table agree. -/
theorem syscall_eq_some {num : BitVec 32} {c : Call} : syscall num = some c ↔ num = SYS c := by
  have htable : ∀ n < 89, (syscalls.getD n none).all fun c => (SYS c).toNat == n := by decide
  constructor
  · intro h
    simp only [syscall] at h
    split at h
    next hnum =>
      have hentry := htable num.toNat hnum.2
      rw [h] at hentry
      exact (BitVec.eq_of_toNat_eq (beq_iff_eq.mp hentry)).symm
    next => cases h
  · rintro rfl
    cases c <;> rfl

variable {ι : Type} {K : Processor ι} {s u v w x y : Procs ι} {p : ι} {m : Mem} {r : Regs}

/-! ## The frame of the program -/

/-- A copy of the frame of a program, with another result. -/
theorem decode_copy {m' : Mem} {tf tf' : ℕ} {v : BitVec 32} (heax : m'.load32 (tf' + 28) = v.toNat)
    (hm : ∀ j < 76, ¬ (28 ≤ j ∧ j < 32) → m' (tf' + j) = m (tf + j))
    (hu : 0 < (decode m tf).cpl) : decode m' tf' = { decode m tf with eax := v } := by
  have h32 : ∀ {k}, (k + 4 ≤ 28 ∨ 32 ≤ k) → k + 4 ≤ 76 → m'.load32 (tf' + k) = m.load32 (tf + k) := by
    intro k hk hle
    rw [← Mem.load32_shift, ← Mem.load32_shift (m := m)]
    exact Mem.load32_congr fun j hj => hm _ (by omega) (by omega)
  have h16 : ∀ {k}, 32 ≤ k → k + 2 ≤ 76 → m'.load16 (tf' + k) = m.load16 (tf + k) := by
    intro k hk hle
    rw [← Mem.load16_shift, ← Mem.load16_shift (m := m)]
    exact Mem.load16_congr fun j hj => hm _ (by omega) (by omega)
  have hframe : Framed m tf (decode m tf) := framed_decode
  have hcopy : Framed m' tf' { decode m tf with eax := v } := by
    constructor
    · exact (h32 (k := 0) (by decide) (by decide)).trans hframe.edi
    · exact (h32 (by decide) (by decide)).trans hframe.esi
    · exact (h32 (by decide) (by decide)).trans hframe.ebp
    · exact (h32 (by decide) (by decide)).trans hframe.ebx
    · exact (h32 (by decide) (by decide)).trans hframe.edx
    · exact (h32 (by decide) (by decide)).trans hframe.ecx
    · exact heax
    · exact (h16 (by decide) (by decide)).trans hframe.gs
    · exact (h16 (by decide) (by decide)).trans hframe.fs
    · exact (h16 (by decide) (by decide)).trans hframe.es
    · exact (h16 (by decide) (by decide)).trans hframe.ds
    · exact (h32 (by decide) (by decide)).trans hframe.eip
    · exact (h16 (by decide) (by decide)).trans hframe.cs
    · exact (h32 (by decide) (by decide)).trans hframe.eflags
    · intro _
      obtain ⟨hesp, hss⟩ := hframe.user hu
      exact ⟨(h32 (by decide) (by decide)).trans hesp, (h16 (by decide) (by decide)).trans hss⟩
  exact hcopy.decode_eq fun hcon => absurd hu hcon

theorem result_user {ts v : BitVec 32} (h : UserRegs ts r) : UserRegs ts { r with eax := v } := by
  refine ⟨h.cpl, fun i => ?_⟩
  have hseg := h.segs i
  cases i <;> exact hseg

/-- The frame `user.procp->tf`. -/
def Procs.tf (s : Procs ι) : ℕ := s.kstack s.procp + STACKSIZE - TRAPFRAME

/-- What `trap` makes of the memory when the result of `syscall` is `v`. -/
def Procs.result (s : Procs ι) (v : BitVec 32) : Mem := s.st.mem.store32 (s.tf + 28) v.toNat

theorem decode_result {a : BitVec 32} (hu : 0 < (decode s.st.mem s.tf).cpl) :
    decode (s.result a) s.tf = { decode s.st.mem s.tf with eax := a } := by
  apply decode_copy
  · exact Mem.load32_store32 a.isLt
  · exact fun j hj hne => Mem.store32_of_ne (by omega)
  · exact hu

/-- `sys_execv` stores `tf->esp` and `tf->eip`. -/
def Procs.started (s : Procs ι) (esp eip : BitVec 32) : Mem :=
  (s.st.mem.store32 (s.tf + 68) esp.toNat).store32 (s.tf + 56) eip.toNat

theorem decode_started {esp eip : BitVec 32} (hu : 0 < (decode s.st.mem s.tf).cpl) :
    decode (s.started esp eip) s.tf = { decode s.st.mem s.tf with esp, eip } := by
  have hesp : (s.started esp eip).load32 (s.tf + 68) = esp.toNat := by
    rw [Procs.started, Mem.load32_store32_of_ne (by omega), Mem.load32_store32 esp.isLt]
  have heip : (s.started esp eip).load32 (s.tf + 56) = eip.toNat := Mem.load32_store32 eip.isLt
  have h32 : ∀ {a}, a + 4 ≤ 56 ∨ a = 64 → (s.started esp eip).load32 (s.tf + a) = s.st.mem.load32 (s.tf + a) :=
    fun ha => (Mem.load32_store32_of_ne (by omega)).trans (Mem.load32_store32_of_ne (by omega))
  have h16 : ∀ {a}, a + 2 ≤ 56 ∨ a = 60 ∨ a = 72 →
      (s.started esp eip).load16 (s.tf + a) = s.st.mem.load16 (s.tf + a) :=
    fun ha => (Mem.load16_store32_of_ne (by omega)).trans (Mem.load16_store32_of_ne (by omega))
  have hedi : (s.started esp eip).load32 s.tf = s.st.mem.load32 s.tf := h32 (a := 0) (by decide)
  have hcpl : 0 < rpl (BitVec.ofNat 16 (s.st.mem.load16 (s.tf + 60))) := hu
  simp only [decode, hedi, h32 (a := 4) (by decide), h32 (a := 8) (by decide), h32 (a := 16) (by decide),
    h32 (a := 20) (by decide), h32 (a := 24) (by decide), h32 (a := 28) (by decide),
    h32 (a := 64) (by decide), h16 (a := 32) (by decide), h16 (a := 36) (by decide),
    h16 (a := 40) (by decide), h16 (a := 44) (by decide), h16 (a := 60) (by decide),
    h16 (a := 72) (by decide), hesp, heip, if_pos hcpl, BitVec.ofNat_toNat, BitVec.setWidth_eq]

/-- The call of `trap` for a system call, with the frame of the program. -/
structure Trapped (s u : Procs ι) : Prop where
  procp : u.procp = s.procp
  frames : u.frames u.procp = [u.tf]
  trapno : u.st.mem.load32 (u.tf + 48) = T_SYSCALL.toNat
  eax : u.st.mem.load32 (u.tf + 28) = s.st.regs.eax.toNat
  /-- `memmove(tf, user.procp->tf, sizeof(struct trapframe))`. -/
  copy : ∀ tf ∈ (u.frames u.procp).head?, u.st.mem.movsb tf u.tf TRAPFRAME = u.st.mem

theorem movsb_self (a n : ℕ) : m.movsb a a n = m := by
  funext x
  by_cases hx : a ≤ x ∧ x < a + n
  · have hbyte : m.movsb a a n (a + (x - a)) = m (a + (x - a)) :=
      Mem.movsb_of_mem (.inr (Nat.le_refl a)) (by omega)
    rwa [Nat.add_sub_cancel' hx.1] at hbyte
  · exact Mem.movsb_of_ne (by omega)

/-- The stubs get their own calls. -/
theorem Trapped.syscall_eq {c : Call} (ht : Trapped s u) :
    syscall (BitVec.ofNat 32 (u.st.mem.load32 (u.tf + 28))) = some c ↔ s.st.regs.eax = SYS c := by
  rw [syscall_eq_some, ofNat_eq ht.eax]

/-- A step inside the first call of `trap` of process `p`; what it stores to the frame of the program
keeps `P`. -/
def InsideOf (P : Regs → Prop) (p : ι) (s : Procs ι) : ProcEvent ι → Prop
  | .own q (.edit m) => q = p → P (decode m s.tf)
  | e => WithinOf p 1 s e

theorem InsideOf.within {P : Regs → Prop} {e : ProcEvent ι} (h : InsideOf P p s e)
    (hne : ∀ m, e ≠ .own p (.edit m)) : WithinOf p 1 s e := by
  cases e with
  | own q e =>
      cases e with
      | edit m =>
          rintro rfl
          exact absurd rfl (hne m)
      | run | trap | int | ret | start => exact h
  | swtch | fork | free => exact h

/-- The program waits below, and its frame keeps `P`. -/
def Below (P : Regs → Prop) (l : List Work) : Prop := ∃ l' r, l = l' ++ [.frame r] ∧ P r

theorem Good.frame_user (h : Good K s) (hframes : s.frames s.procp = [s.tf]) :
    UserRegs K.ts (decode s.st.mem s.tf) := by
  have hpending : Pending (K.tables (s.kstack s.procp)) s.st.mem (s.frames s.procp) := h.running.pending
  rw [hframes] at hpending
  exact hpending.1

variable [DecidableEq ι] {es es' fs : List (ProcEvent ι)}

theorem exists_own {e : Event} (hu : (procMachine K).step s (.own p e) = some u) :
    ∃ x, (trapMachine (K.tables (s.kstack s.procp))).step s.running e = some x ∧
      { s with st := x.st, frames := Function.update s.frames s.procp x.frames } = u :=
  Option.map_eq_some_iff.mp hu

theorem Good.trapped (h : Good K s) (hok : Fine K s (.own p (.int T_SYSCALL)))
    (hu : (procMachine K).step s (.own p (.int T_SYSCALL)) = some u) : Trapped s u := by
  obtain ⟨x, hx, rfl⟩ := exists_own hu
  obtain ⟨rfl, ⟨hnil, hroom⟩, -⟩ := hok
  have huser := h.running.user hnil
  have hbound := h.bound s.procp (.inl rfl)
  let t := K.tables (s.kstack s.procp)
  let c : Running := ⟨{ s.st with regs := { s.st.regs with eip := s.st.regs.eip + 2 } }, []⟩
  have hroom' : 80 ≤ (top t c.st.regs).toNat := hroom
  have hentered : ∃ tf, Entered t c T_SYSCALL (c.enter t T_SYSCALL (interrupt t T_SYSCALL 0 c.st)) tf :=
    entered hroom'
  have hint : Trap.int t T_SYSCALL s.running.st = (T_SYSCALL, interrupt t T_SYSCALL 0 c.st) :=
    (int_user huser.cpl).trans (if_pos rfl)
  obtain ⟨tf, he⟩ := hentered
  have hsize : size c.st.regs = 76 := if_pos huser.user
  have htop : (top t c.st.regs).toNat = s.kstack s.procp + STACKSIZE := by
    have hesp0 : top t c.st.regs = t.esp0 := if_pos huser.user
    rw [hesp0]
    exact esp0_tables hbound
  have htf : tf = s.kstack s.procp + STACKSIZE - TRAPFRAME := by
    have hsum := he.top
    rw [hsize, htop] at hsum
    simp only [TRAPFRAME]
    omega
  have hx' : x = c.enter t T_SYSCALL (interrupt t T_SYSCALL 0 c.st) := by
    rw [← Option.some.inj hx, hint]
    simp only [Running.enter, hnil]
    rfl
  subst hx' htf
  have hframes : (c.enter t T_SYSCALL (interrupt t T_SYSCALL 0 c.st)).frames = _ := he.frames
  refine ⟨rfl, ?_, he.trapno, he.framed.eax, fun tf htf => ?_⟩
  · exact (Function.update_self ..).trans hframes
  · simp only [Function.update_self, hframes] at htf
    obtain rfl := Option.some.inj htf
    exact movsb_self ..

/-- What is stored to the frame of the program. -/
theorem Good.edited (h : Good K v) (hok : Fine K v (.own p (.edit m)))
    (hw : (procMachine K).step v (.own p (.edit m)) = some w) :
    Good K w ∧ v.work p = [.frame (decode v.st.mem v.tf)] ∧ w.work p = [.frame (decode m v.tf)] ∧
      UserRegs K.ts (decode v.st.mem v.tf) ∧ p = v.procp := by
  obtain ⟨x, hx, hxw⟩ := exists_own hw
  obtain ⟨hgood, -⟩ := h.own_step hok hx
  rw [hxw] at hgood
  obtain ⟨rfl, ⟨tf, hframes, -⟩, -⟩ := hok
  have hpending : Pending (K.tables (v.kstack v.procp)) v.st.mem (v.frames v.procp) := h.running.pending
  have hframes' : v.frames v.procp = [tf] := hframes
  rw [hframes'] at hpending
  obtain ⟨huser, hend⟩ := hpending
  rw [esp0_tables (h.bound v.procp (.inl rfl))] at hend
  have htf : v.tf = tf := by
    rw [Procs.tf, ← hend]
    exact Nat.add_sub_cancel ..
  obtain rfl := Option.some.inj hx
  have hprocp : w.procp = v.procp := by rw [← hxw]
  have hmem : w.st.mem = m := by rw [← hxw]
  have hframesw : w.frames v.procp = [tf] := by
    rw [← hxw]
    simp only [Function.update_self]
    exact hframes
  have hwork : v.work v.procp = [.frame (decode v.st.mem tf)] := by
    rw [h.work_procp, suspended, Procs.running, hframes', List.map_map, List.map_singleton]
    rfl
  have hworkw : w.work v.procp = [.frame (decode m tf)] := by
    rw [← hprocp, hgood.work_procp, suspended, Procs.running, hprocp, hframesw, hmem, List.map_map,
      List.map_singleton]
    rfl
  rw [htf]
  exact ⟨hgood, hwork, hworkw, huser, rfl⟩

theorem Good.inside_step {P : Regs → Prop} {e : ProcEvent ι} (h : Good K s) (hok : Fine K s e)
    (hin : InsideOf P p s e) (hu : (procMachine K).step s e = some u) (hb : Below P (s.work p)) :
    Good K u ∧ Below P (u.work p) := by
  obtain ⟨hgood, d, hd, hwork⟩ := refines_work p s e u h hok hu
  refine ⟨hgood, ?_⟩
  by_cases hedit : ∃ m, e = .own p (.edit m)
  · obtain ⟨m, rfl⟩ := hedit
    obtain ⟨-, -, hworku, -⟩ := h.edited hok hu
    rw [hworku]
    exact ⟨[], _, rfl, hin rfl⟩
  · obtain ⟨l', r, hl, hP⟩ := hb
    have hwithin : WithinOf p [Work.frame r].length s e := hin.within fun m hm => hedit ⟨m, hm⟩
    have hspares : Spares [.frame r] (s.work p) d := WithinOf.spares h hok hwithin hd
    obtain ⟨l'', hl''⟩ := works_step hwork hspares ⟨l', hl.symm⟩
    exact ⟨l'', r, hl''.symm, hP⟩

theorem Good.inside {P : Regs → Prop} (h : Good K s) (hb : Below P (s.work p))
    (ht : (procMachine K).Trace (fun s' e' => Fine K s' e' ∧ InsideOf P p s' e') s es u) :
    Good K u ∧ Below P (u.work p) := by
  induction ht with
  | nil => exact ⟨h, hb⟩
  | snoc e _ hok hstep ih =>
      obtain ⟨hgood, hbelow⟩ := ih
      exact hgood.inside_step hok.1 hok.2 hstep hbelow

/-- **A system call returns.**  `trap` finds the number of the call in the frame of the program.  Whatever
the processes do until the result is stored there, and after that until `trap` returns, the program goes
on with the result in `eax`, and otherwise with what its frame holds.  What the call stores there is all
that changes it: a property `P` of the registers behind the instruction is kept if the stores keep it. -/
theorem syscall_returns {P : Regs → Prop} {s₀ : Procs ι} {a : BitVec 32} (h₀ : First K s₀)
    (hs : (procMachine K).Trace (Fine K) s₀ fs s) (hok : Fine K s (.own p (.int T_SYSCALL)))
    (hu : (procMachine K).step s (.own p (.int T_SYSCALL)) = some u)
    (hP : P { s.st.regs with eip := s.st.regs.eip + 2 })
    (hv : (procMachine K).Trace (fun s' e' => Fine K s' e' ∧ InsideOf P p s' e') u es v)
    (hresult : Fine K v (.own p (.edit (v.result a))))
    (hw : (procMachine K).step v (.own p (.edit (v.result a))) = some w)
    (hx : (procMachine K).Trace (fun s' e' => Fine K s' e' ∧ WithinOf p 1 s' e') w es' x)
    (hdepth : (x.frames p).length = 1) (hret : Fine K x (.own p .ret))
    (hy : (procMachine K).step x (.own p .ret) = some y) :
    Trapped s u ∧
      (∀ c, syscall (BitVec.ofNat 32 (u.st.mem.load32 (u.tf + 28))) = some c ↔ s.st.regs.eax = SYS c) ∧
      P (decode v.st.mem v.tf) ∧ y.procp = p ∧ y.st.regs = { decode v.st.mem v.tf with eax := a } ∧
      y.work p = [] := by
  have hgood := (refines_work p).invariant h₀.good hs.path
  obtain ⟨hgoodu, hwork⟩ := hgood.interrupted hok hu rfl
  have hnil : s.work p = [] := by
    obtain ⟨rfl, ⟨hframes, -⟩, -⟩ := hok
    rw [hgood.work_procp, suspended, hframes]
    rfl
  rw [hnil, if_pos rfl] at hwork
  obtain ⟨hgoodv, l, r, hl, hPr⟩ := hgoodu.inside (P := P) ⟨[], _, hwork, hP⟩ hv
  obtain ⟨hgoodw, hworkv, hworkw, huser, rfl⟩ := hgoodv.edited hresult hw
  -- The frame of the program is the only one.
  have hframe : r = decode v.st.mem v.tf := by
    rw [hworkv] at hl
    cases l with
    | nil => exact (Work.frame.inj (List.singleton_inj.mp hl)).symm
    | cons => simp at hl
  rw [decode_result huser.user] at hworkw
  obtain ⟨hgoodx, hworkx⟩ := hgoodw.within hworkw hx hret.1 hdepth
  obtain ⟨-, hprocp, hresumed⟩ := hgoodx.returned (.inl rfl) hret hy
  rw [hworkx, List.cons.injEq, Work.frame.injEq] at hresumed
  have htrapped := hgood.trapped hok hu
  exact ⟨htrapped, fun c => htrapped.syscall_eq, hframe ▸ hPr, hprocp, hresumed.1.symm, hresumed.2.symm⟩

/-! ## A system call -/

/-- A system call that makes the process `q`, waits for it, and goes on with another program, as
`sys_execv` does. -/
structure Answer (K : Processor ι) (s : Procs ι) (q : ι) (k : ℕ) (a esp eip : BitVec 32) extends
    Switched K s (.int T_SYSCALL) q k fun u => u.making K q k where
  (other back edited answered leaving returned : Procs ι)
  (st' st'' : St)
  call' : Steps K swtched (.own q (.run st')) other
  swtch' : Steps K other (.swtch q s.procp) back
  edit : Steps K back (.own s.procp (.edit (back.started esp eip))) edited
  result : Steps K edited (.own s.procp (.edit (edited.result a))) answered
  run : Steps K answered (.own s.procp (.run st'')) leaving
  depth : (leaving.frames s.procp).length = 1
  ret : Steps K leaving (.own s.procp .ret) returned

/-- What is stored to the frame of the program leaves it a program. -/
theorem Good.store_frame (h : Good K s) (hframes : s.frames s.procp = [s.tf])
    (hm : ∀ x, x < s.kstack s.procp ∨ s.kstack s.procp + STACKSIZE ≤ x → m x = s.st.mem x)
    (huser : UserRegs K.ts (decode m s.tf)) : ∃ u, Steps K s (.own s.procp (.edit m)) u ∧ Good K u ∧
      u.procp = s.procp ∧ u.kstack = s.kstack ∧ u.frames s.procp = [s.tf] ∧ u.st.mem = m := by
  have hfine : Fine K s (.own s.procp (.edit m)) := ⟨rfl, ⟨s.tf, hframes, huser⟩, h.spared_stack hm⟩
  have hstep : ∃ u, (procMachine K).step s (.own s.procp (.edit m)) = some u ∧ u.procp = s.procp ∧
      u.kstack = s.kstack ∧ u.frames s.procp = s.frames s.procp ∧ u.st.mem = m :=
    ⟨_, rfl, rfl, rfl, Function.update_self .., rfl⟩
  obtain ⟨u, hu, hprocp, hkstack, hframesu, hmem⟩ := hstep
  exact ⟨u, ⟨hfine, hu⟩, Steps.good h ⟨hfine, hu⟩, hprocp, hkstack, hframesu.trans hframes, hmem⟩

theorem First.answer {k : ℕ} {q : ι} (h : First K s) (a esp eip : BitVec 32) (hq : q ≠ s.procp)
    (hk : k + STACKSIZE < 2 ^ 32) (hstacks : Beside k (s.kstack s.procp) STACKSIZE)
    (hcell : Beside k (K.context s.procp) 4) (hcell' : Beside (s.kstack s.procp) (K.context q) 4)
    (hown : Beside k (K.context q) 4) : Nonempty (Answer K s q k a esp eip) := by
  have hstack : STACKSIZE = 4096 := rfl
  have hframe : TRAPFRAME = 76 := rfl
  obtain ⟨x⟩ := h.switched (e := .int T_SYSCALL) rfl (fun u => makes_making hk hown) hq hk hstacks hcell
    hcell' hown
  obtain ⟨st', u₁, u₂, hcall', hswtch', hgood₂, hprocp₂, hkstack₂, hframes₂⟩ := x.back hq
  have htf₂ : u₂.tf = s.kstack s.procp + STACKSIZE - TRAPFRAME := by rw [Procs.tf, hkstack₂]
  rw [← htf₂] at hframes₂
  have huser₂ := hgood₂.frame_user hframes₂
  have hstarted : UserRegs K.ts (decode (u₂.started esp eip) u₂.tf) := by
    rw [decode_started huser₂.user]
    refine ⟨huser₂.cpl, fun i => ?_⟩
    have hseg := huser₂.segs i
    cases i <;> exact hseg
  obtain ⟨u₃, hedit, hgood₃, hprocp₃, hkstack₃, hframes₃, -⟩ := hgood₂.store_frame hframes₂ (fun y hy => by
    rw [hkstack₂] at hy
    rw [Procs.started, Mem.store32_of_ne (by omega), Mem.store32_of_ne (by omega)]) hstarted
  have htf₃ : u₃.tf = u₂.tf := by rw [Procs.tf, hkstack₃, hprocp₃, Procs.tf]
  rw [← hprocp₃, ← htf₃] at hframes₃
  have huser₃ := hgood₃.frame_user hframes₃
  have hresult : UserRegs K.ts (decode (u₃.result a) u₃.tf) := by
    rw [decode_result huser₃.user]
    exact result_user huser₃
  obtain ⟨u₄, hanswer, hgood₄, hprocp₄, hkstack₄, hframes₄, -⟩ := hgood₃.store_frame hframes₃ (fun y hy => by
    rw [hkstack₃, hprocp₃, hkstack₂] at hy
    exact Mem.store32_of_ne (by omega)) hresult
  rw [← hprocp₄] at hframes₄
  have hlow : u₄.kstack u₄.procp + 4 ≤ u₃.tf := by
    rw [hkstack₄, hprocp₄, hkstack₃, hprocp₃, hkstack₂, htf₃, htf₂]
    omega
  obtain ⟨st'', u₅, hrun, hframes₅, u₆, hret⟩ := hgood₄.leave hframes₄ hlow
  rw [hprocp₄, hprocp₃, hprocp₂] at hrun hframes₅ hret
  rw [hprocp₃, hprocp₂] at hanswer
  rw [hprocp₂] at hedit
  exact ⟨⟨x, u₁, u₂, u₃, u₄, u₅, u₆, st', st'', hcall', hswtch', hedit, hanswer, hrun, by rw [hframes₅]; rfl,
    hret⟩⟩

/-- A program that calls `execv`. -/
def execvProcess : Procs (Fin 2) :=
  { firstProcess with st := ⟨{ program.st.regs with eax := SYS .sys_execv }, fun _ => 0⟩ }

theorem execvProcess_first : First processor execvProcess := by
  refine ⟨?_, fun _ => rfl, fun _ => rfl, .inr (by decide), by decide⟩
  exact result_user program_user

/-- The frame before and after the stores. -/
theorem Answer.stored {q : ι} {k : ℕ} {a esp eip : BitVec 32} (x : Answer K s q k a esp eip) (h : First K s)
    (hq : q ≠ s.procp) :
    decode x.back.st.mem x.back.tf = { s.st.regs with eip := s.st.regs.eip + 2 } ∧
      decode (x.back.started esp eip) x.back.tf = { s.st.regs with esp, eip } ∧
      decode x.edited.st.mem x.edited.tf = { s.st.regs with esp, eip } := by
  obtain ⟨hgood₁, hwork₁⟩ := h.good.interrupted x.trap.1 x.trap.2 rfl
  have hnil : s.work s.procp = [] := by
    rw [h.good.work_procp, suspended, Procs.running, h.frames]
    rfl
  rw [hnil, if_pos rfl] at hwork₁
  have hback : (procMachine K).Trace (fun s' e' => Fine K s' e' ∧ WithinOf s.procp 1 s' e') x.trapped _ x.back :=
    ((((Machine.Trace.nil.snoc _ ⟨x.fork.1, trivial⟩ x.fork.2).snoc _
      ⟨x.call.1, fun _ => trivial⟩ x.call.2).snoc _ ⟨x.swtch.1, trivial⟩ x.swtch.2).snoc _
      ⟨x.call'.1, fun heq => absurd heq hq⟩ x.call'.2).snoc _ ⟨x.swtch'.1, trivial⟩ x.swtch'.2
  have hgood₂ := ((refines_work s.procp).invariant hgood₁
    (hback.mono fun _ _ hok => hok.1).path : Good K x.back)
  obtain ⟨hgood₃, hwork₂, hwork₃, huser, hprocp⟩ := hgood₂.edited x.edit.1 x.edit.2
  obtain ⟨-, hwork₃', -⟩ := hgood₃.edited x.result.1 x.result.2
  have hone : (x.back.frames s.procp).length = 1 := by
    rw [← hgood₂.length_work hprocp, hwork₂]
    rfl
  obtain ⟨-, hwork₂'⟩ := hgood₁.within hwork₁ hback hprocp hone
  have hold : decode x.back.st.mem x.back.tf = { s.st.regs with eip := s.st.regs.eip + 2 } := by
    rw [hwork₂] at hwork₂'
    exact Work.frame.inj (List.singleton_inj.mp hwork₂')
  have hnew : decode (x.back.started esp eip) x.back.tf = { s.st.regs with esp, eip } := by
    rw [decode_started huser.user, hold]
  rw [hwork₃] at hwork₃'
  exact ⟨hold, hnew, (Work.frame.inj (List.singleton_inj.mp hwork₃')).symm.trans hnew⟩

theorem syscall_returns_answer : ∃ x : Answer processor execvProcess 1 0x20000 0 0x40000fb0 0x40000000,
    Trapped execvProcess x.trapped ∧
      syscall (BitVec.ofNat 32 (x.trapped.st.mem.load32 (x.trapped.tf + 28))) = some .sys_execv ∧
      x.returned.procp = 0 ∧ x.returned.st.regs =
        { program.st.regs with eax := 0, esp := 0x40000fb0, eip := 0x40000000 } ∧
      x.returned.work 0 = [] := by
  have hq : (1 : Fin 2) ≠ 0 := by decide
  obtain ⟨x⟩ := execvProcess_first.answer (k := 0x20000) 0 0x40000fb0 0x40000000 hq (by decide) (.inr (by decide))
    (.inr (by decide)) (.inr (by decide)) (.inr (by decide))
  obtain ⟨-, hstarted, hedited⟩ := x.stored execvProcess_first hq
  let c := execvProcess.st.regs
  have hinside : (procMachine processor).Trace (fun s e => Fine processor s e ∧ InsideOf (fun r =>
      r = { c with eip := c.eip + 2 } ∨ r = { c with esp := 0x40000fb0, eip := 0x40000000 }) 0 s e)
      x.trapped _ x.edited :=
    (((((Machine.Trace.nil.snoc _ ⟨x.fork.1, trivial⟩ x.fork.2).snoc _
      ⟨x.call.1, fun _ => trivial⟩ x.call.2).snoc _ ⟨x.swtch.1, trivial⟩ x.swtch.2).snoc _
      ⟨x.call'.1, fun heq => absurd heq hq⟩ x.call'.2).snoc _ ⟨x.swtch'.1, trivial⟩ x.swtch'.2).snoc _
      ⟨x.edit.1, fun _ => .inr hstarted⟩ x.edit.2
  obtain ⟨htrapped, hcall, -, hprocp, hregs, hwork⟩ :=
    syscall_returns execvProcess_first .nil x.trap.1 x.trap.2 (.inl rfl) hinside x.result.1 x.result.2
      (Machine.Trace.nil.snoc _ ⟨x.run.1, fun _ => trivial⟩ x.run.2) x.depth x.ret.1 x.ret.2
  rw [hedited] at hregs
  exact ⟨x, htrapped, (hcall .sys_execv).mpr rfl, hprocp, hregs, hwork⟩

end Mixv6.Kernel.Trap
