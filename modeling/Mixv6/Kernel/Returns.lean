import Mixv6.Kernel.Work

/-!
# Processes go on as they were

The others leave the kernel stack of a process alone, so that the process goes on with it as if nobody
else were there.

## Main definitions

* `Switched`, `Exchange` — runs of two processes.
* `Chosen` — a process has been made, and chosen.
* `resumes_process` — the return from a trap gives back every register.
* `swtch_returns` — a call of `swtch` returns.
* `starts` — a new process begins.
-/

namespace Mixv6.Kernel.Trap

open Mixv6.Lib

variable {ι : Type} {K : Processor ι} {s u v w : Procs ι} {p q : ι} {m : Mem} {c k : ℕ}

/-! ## Two processes -/

/-- The kernel goes on, and stores to its own stack below the frames. -/
theorem Good.fine_run {st : St} {tf : ℕ} {sp : BitVec 32} (h : Good K s)
    (htf : tf ∈ (s.frames s.procp).head?) (hregs : st.regs = { s.st.regs with esp := sp })
    (hsp : s.kstack s.procp ≤ sp.toNat) (hle : sp.toNat ≤ tf)
    (hm : ∀ x, x < s.kstack s.procp ∨ tf ≤ x → st.mem x = s.st.mem x) :
    Fine K s (.own s.procp (.run st)) := by
  obtain ⟨hkernel, -⟩ := h.running.kernel tf htf
  have hpending : Pending (K.tables (s.kstack s.procp)) s.st.mem (s.frames s.procp) := h.running.pending
  have hend := hpending.end_le tf (List.mem_of_mem_head? htf)
  have hsize := le_size (decode s.st.mem tf)
  rw [esp0_tables (h.bound s.procp (.inl rfl))] at hend
  have hesp : st.regs.esp = sp := by rw [hregs]
  refine ⟨rfl, ⟨fun hnil => ?_, fun tf' htf' => ⟨⟨?_, ?_⟩, ?_⟩, fun tf' htf' x hx hlt => ?_⟩, ?_,
    fun _ => ?_⟩
  · simp only [Procs.running] at hnil
    rw [hnil] at htf
    cases htf
  · rw [hregs]
    exact hkernel.cpl
  · rw [hregs]
    exact hkernel.ss
  · obtain rfl := Option.mem_unique htf htf'
    rw [hesp]
    exact hle
  · exact hm x (.inr ((hpending.head_le htf tf' htf').trans hx))
  · apply h.spared_stack
    intro x hx
    apply hm
    omega
  · rw [hesp]
    exact hsp

/-- The kernel is about to call `swtch` for process `q`. -/
def Procs.calling (K : Processor ι) (s : Procs ι) (q : ι) (sp : ℕ) : St where
  regs := { s.st.regs with esp := BitVec.ofNat 32 sp }
  mem := (s.st.mem.store32 (sp + 4) (K.context s.procp)).store32 (sp + 8) (s.st.mem.load32 (K.context q))

/-- A program that begins, with the kernel stack `k`. -/
def Procs.making (K : Processor ι) (s : Procs ι) (q : ι) (k : ℕ) : St where
  regs := s.st.regs
  mem := ((s.st.mem.fill k 0 STACKSIZE).store16 (k + STACKSIZE - TRAPFRAME + 60) 0x1b).store32 (K.context q)
    (k + STACKSIZE - TRAPFRAME - CONTEXT)

theorem making_of_ne {x : ℕ} (hx : x < k ∨ k + STACKSIZE ≤ x)
    (hcell : x < K.context q ∨ K.context q + 4 ≤ x) : (s.making K q k).mem x = s.st.mem x := by
  have hsize : STACKSIZE = 4096 := rfl
  have hframe : TRAPFRAME = 76 := rfl
  simp only [Procs.making]
  rw [Mem.store32_of_ne hcell, Mem.store16_of_ne (by omega), Mem.fill_of_ne (by omega)]

/-- The frame of a program, with its own segments or none. -/
theorem decode_user {ts : BitVec 32} {tf : ℕ} (hcs : m.load16 (tf + 60) = 0x1b)
    (hds : m.load16 (tf + 44) = 0 ∨ m.load16 (tf + 44) = 0x23)
    (hes : m.load16 (tf + 40) = 0 ∨ m.load16 (tf + 40) = 0x23)
    (hfs : m.load16 (tf + 36) = 0 ∨ m.load16 (tf + 36) = 0x23)
    (hgs : m.load16 (tf + 32) = 0 ∨ m.load16 (tf + 32) = 0x23) : UserRegs ts (decode m tf) := by
  have hnull : outer ts 3 0 = 0 := by
    rw [outer]
    split
    next => rfl
    next => rfl
  have hdata : outer ts 3 0x23 = 0x23 := by simp [outer, descriptor, gdt, SEG, DPL_USER]
  have hseg : ∀ {k}, m.load16 (tf + k) = 0 ∨ m.load16 (tf + k) = 0x23 →
      outer ts 3 (BitVec.ofNat 16 (m.load16 (tf + k))) = BitVec.ofNat 16 (m.load16 (tf + k)) := by
    rintro k (hk | hk)
    · rw [hk]
      exact hnull
    · rw [hk]
      exact hdata
  constructor
  · simp only [Regs.cpl, decode, hcs]
    decide
  · intro i
    cases i with
    | ds => exact hseg hds
    | es => exact hseg hes
    | fs => exact hseg hfs
    | gs => exact hseg hgs

/-- The frame of a program that begins. -/
theorem making_user (hown : Beside k (K.context q) 4) :
    UserRegs K.ts (decode (s.making K q k).mem (k + STACKSIZE - TRAPFRAME)) := by
  have hsize : STACKSIZE = 4096 := rfl
  have hframe : TRAPFRAME = 76 := rfl
  simp only [Beside] at hown
  have hzero : ∀ {a}, 16 ≤ a → a + 2 ≤ 60 →
      (s.making K q k).mem.load16 (k + STACKSIZE - TRAPFRAME + a) = 0 := by
    intro a _ _
    rw [Procs.making, Mem.load16_store32_of_ne (by omega), Mem.load16_store16_of_ne (by omega),
      Mem.load16_fill_zero (by omega)]
  apply decode_user
  · rw [Procs.making, Mem.load16_store32_of_ne (by omega), Mem.load16_store16 (by decide)]
  · exact .inl (hzero (by decide) (by decide))
  · exact .inl (hzero (by decide) (by decide))
  · exact .inl (hzero (by decide) (by decide))
  · exact .inl (hzero (by decide) (by decide))

/-- What is stored to make a process: to its kernel stack, and to its field `context`. -/
structure Makes (K : Processor ι) (q : ι) (k : ℕ) (s st : St) : Prop where
  regs : st.regs = s.regs
  mem : ∀ x, x < k ∨ k + STACKSIZE ≤ x → x < K.context q ∨ K.context q + 4 ≤ x → st.mem x = s.mem x
  cell : st.mem.load32 (K.context q) = k + STACKSIZE - TRAPFRAME - CONTEXT
  user : UserRegs K.ts (decode st.mem (k + STACKSIZE - TRAPFRAME))

theorem makes_making (hk : k + STACKSIZE < 2 ^ 32) (hown : Beside k (K.context q) 4) :
    Makes K q k s.st (s.making K q k) := by
  refine ⟨rfl, fun x => making_of_ne, ?_, making_user hown⟩
  exact Mem.load32_store32 (by simp only [TRAPFRAME, CONTEXT]; omega)

theorem Makes.fine {st : St} {tf : ℕ} (hst : Makes K q k s.st st) (h : Good K s)
    (htf : tf ∈ (s.frames s.procp).head?) (hq : ¬ s.Live q) (hk : k + STACKSIZE < 2 ^ 32)
    (hbeside : ∀ p, s.Live p → Beside k (s.kstack p) STACKSIZE ∧ Beside k (K.context p) 4 ∧
      Beside (s.kstack p) (K.context q) 4) (hown : Beside k (K.context q) 4) :
    Fine K s (.fork q k st) := by
  have hpending : Pending (K.tables (s.kstack s.procp)) s.st.mem (s.frames s.procp) := h.running.pending
  obtain ⟨hkernel, hesp⟩ := h.running.kernel tf htf
  have hlow : s.kstack s.procp ≤ s.st.regs.esp.toNat := by
    apply h.low
    intro hnil
    rw [hnil] at htf
    cases htf
  rw [← hst.regs] at hlow
  refine ⟨hq, hk, hbeside, hown, hst.cell, hst.user, ⟨fun hnil => ?_, fun tf' htf' => ?_, ?_⟩, ?_,
    fun _ => hlow⟩
  · simp only [Procs.running] at hnil
    rw [hnil] at htf
    cases htf
  · obtain rfl := Option.mem_unique htf htf'
    rw [hst.regs]
    exact ⟨hkernel, hesp⟩
  · intro tf' htf' x hx hlt
    have hend := hpending.end_le tf' htf'
    rw [esp0_tables (h.bound s.procp (.inl rfl))] at hend
    have hlt' : x < tf' + size (decode s.st.mem tf') := hlt
    obtain ⟨hstacks, -, hcell⟩ := hbeside s.procp (.inl rfl)
    have hle : tf ≤ tf' := hpending.head_le htf tf' htf'
    have hesp' : s.st.regs.esp.toNat ≤ tf := hesp
    rw [hst.regs] at hlow
    simp only [Beside] at hstacks hcell
    apply hst.mem
    · omega
    · omega
  · intro p c x hp hx
    have hlive := Procs.live_of_parked hp
    obtain ⟨hstacks, hcell, hcell'⟩ := hbeside p hlive
    have hlow := (h.parked p c hp).low
    have hne : p ≠ q := by
      rintro rfl
      exact hq hlive
    have hapart := K.apart p q hne
    simp only [Beside, Reserved] at hstacks hcell hcell' hx
    apply hst.mem
    · omega
    · omega

variable [DecidableEq ι] {e : ProcEvent ι} {es fs : List (ProcEvent ι)}

/-- An event that may happen. -/
def Steps (K : Processor ι) (s : Procs ι) (e : ProcEvent ι) (u : Procs ι) : Prop :=
  Fine K s e ∧ (procMachine K).step s e = some u

theorem Good.calling {tf sp c : ℕ} (h : Good K s) (htf : tf ∈ (s.frames s.procp).head?)
    (hq : s.parked q = some c) (hsp : s.kstack s.procp + 16 ≤ sp) (hle : sp + 12 ≤ tf) :
    ∃ u, Steps K s (.own s.procp (.run (s.calling K q sp))) u ∧ Fine K u (.swtch s.procp q) ∧
      u = { s with st := s.calling K q sp } := by
  have hpending : Pending (K.tables (s.kstack s.procp)) s.st.mem (s.frames s.procp) := h.running.pending
  have hend := hpending.end_le tf (List.mem_of_mem_head? htf)
  have hsize := le_size (decode s.st.mem tf)
  have hbound := h.bound s.procp (.inl rfl)
  rw [esp0_tables hbound] at hend
  have hsp' : (BitVec.ofNat 32 sp).toNat = sp := by
    rw [BitVec.toNat_ofNat, Nat.mod_eq_of_lt (by omega)]
  have hcell := h.cells s.procp q (.inl rfl) (.inr ⟨c, hq⟩)
  simp only [Beside] at hcell
  have hother : ∀ x, x < sp + 4 ∨ sp + 12 ≤ x → (s.calling K q sp).mem x = s.st.mem x := by
    intro x hx
    exact (Mem.store32_of_ne (by omega)).trans (Mem.store32_of_ne (by omega))
  have hfine : Fine K s (.own s.procp (.run (s.calling K q sp))) := by
    have hregs : (s.calling K q sp).regs = { s.st.regs with esp := BitVec.ofNat 32 sp } := rfl
    apply h.fine_run htf hregs
    · omega
    · omega
    · exact fun x hx => hother x (by omega)
  have hframes : Function.update s.frames s.procp s.running.frames = s.frames := Function.update_eq_self ..
  have hstep : (procMachine K).step s (.own s.procp (.run (s.calling K q sp))) =
      some { s with
        st := s.calling K q sp
        frames := Function.update s.frames s.procp s.running.frames } := rfl
  rw [hframes] at hstep
  refine ⟨_, ⟨hfine, hstep⟩, ⟨rfl, ⟨c, hq⟩, ⟨tf, htf, ?_⟩, ?_, ?_, ?_⟩, rfl⟩
  · simp only [Procs.calling, hsp']
    exact hle
  · simp only [Procs.calling, hsp']
    exact hsp
  · have hK := K.bound s.procp
    simp only [Procs.calling, hsp']
    rw [Mem.load32_store32_of_ne (.inl (by omega)), Mem.load32_store32 (by omega)]
  · have hsame : (s.calling K q sp).mem.load32 (K.context q) = s.st.mem.load32 (K.context q) :=
      Mem.load32_congr fun k hk => hother _ (by omega)
    simp only [hsame]
    simp only [Procs.calling, hsp']
    exact Mem.load32_store32 (Mem.load32_lt ..)

/-- A trap of the first program, or its `int`. -/
theorem First.enter {r : Regs} {e : Event} (h : First K s) (he : e.suspended s.st.regs = some r) : ∃ u tf,
    Steps K s (.own s.procp e) u ∧ Good K u ∧ u.procp = s.procp ∧ u.kstack = s.kstack ∧
      u.parked = s.parked ∧ u.frames s.procp = [tf] ∧ tf + TRAPFRAME = s.kstack s.procp + STACKSIZE := by
  have hgood := h.good
  have htop : top (K.tables (s.kstack s.procp)) s.st.regs = (K.tables (s.kstack s.procp)).esp0 :=
    if_pos h.user.user
  have hesp0 : (K.tables (s.kstack s.procp)).esp0.toNat = s.kstack s.procp + STACKSIZE := esp0_tables h.bound
  have hstack : STACKSIZE = 4096 := rfl
  have hframe : TRAPFRAME = 76 := rfl
  have hframes : s.frames s.procp = [] := h.frames s.procp
  have hroom : s.kstack s.procp + 80 ≤ (top (K.tables (s.kstack s.procp)) s.running.st.regs).toNat := by
    have htop' : top (K.tables (s.kstack s.procp)) s.running.st.regs = _ := htop
    rw [htop', hesp0]
    omega
  have hroom' : 80 ≤ (top (K.tables (s.kstack s.procp)) s.running.st.regs).toNat := by omega
  have hfine : Fine K s (.own s.procp e) := by
    cases e with
    | trap => exact ⟨rfl, hroom', hroom⟩
    | int => exact ⟨rfl, ⟨hframes, hroom'⟩, hroom⟩
    | run | edit | ret | start => cases he
  have hstep : ∃ x, (trapMachine (K.tables (s.kstack s.procp))).step s.running e = some x := by
    cases e with
    | trap | int => exact ⟨_, rfl⟩
    | run | edit | ret | start => cases he
  obtain ⟨x, hx⟩ := hstep
  obtain ⟨hinv, htop', n, tf, hentered⟩ := hgood.running.entered hfine.2.1 hx he
  have hsize : size r = 76 := if_pos (hinv.user hframes).user
  obtain ⟨hgoodu, -⟩ := hgood.own_step hfine hx
  have hu : (procMachine K).step s (.own s.procp e) =
      some { s with st := x.st, frames := Function.update s.frames s.procp x.frames } := by
    simp only [procMachine, hx, Option.map_some]
  refine ⟨_, tf, ⟨hfine, hu⟩, hgoodu, rfl, rfl, rfl, ?_, ?_⟩
  · simp only [Function.update_self]
    exact hentered.frames.trans (congrArg (tf :: ·) hframes)
  · have hsum : tf + size r = (top (K.tables (s.kstack s.procp)) r).toNat := hentered.top
    have htop'' : top (K.tables (s.kstack s.procp)) r = _ := htop'
    rw [htop'', show top (K.tables (s.kstack s.procp)) s.running.st.regs = _ from htop, hesp0, hsize] at hsum
    omega

theorem Steps.good (h : Good K s) (hs : Steps K s e u) : Good K u :=
  (refines_work s.procp _ _ _ h hs.1 hs.2).1

/-- The kernel calls `swtch`. -/
theorem Good.yield {tf sp : ℕ} (h : Good K s) (htf : tf ∈ (s.frames s.procp).head?)
    (hq : s.parked q = some c) (hsp : s.kstack s.procp + 16 ≤ sp) (hle : sp + 12 ≤ tf) : ∃ st u v,
    Steps K s (.own s.procp (.run st)) u ∧ Steps K u (.swtch s.procp q) v ∧ Good K v ∧ v.procp = q ∧
      v.kstack = s.kstack ∧ v.frames = s.frames ∧ ∃ c, v.parked s.procp = some c := by
  obtain ⟨u, hrun, hswtch, hu⟩ := h.calling htf hq hsp hle
  have hkstack : u.kstack = s.kstack := by rw [hu]
  have hframes : u.frames = s.frames := by rw [hu]
  have hstep : ∃ v, (procMachine K).step u (.swtch s.procp q) = some v ∧ v.kstack = u.kstack ∧
      v.frames = u.frames ∧ ∃ c, v.parked s.procp = some c :=
    ⟨_, rfl, rfl, rfl, _, Function.update_self ..⟩
  obtain ⟨v, hv, hkstackv, hframesv, hparkedv⟩ := hstep
  obtain ⟨hgood, hprocp, -⟩ := (hrun.good h).swtch_work hswtch hv
  exact ⟨_, u, v, hrun, ⟨hswtch, hv⟩, hgood, hprocp, hkstackv.trans hkstack, hframesv.trans hframes,
    hparkedv⟩

/-- The kernel makes a process. -/
theorem Good.spawn {st : St} (h : Good K s) (hok : Fine K s (.fork q k st)) : ∃ u,
    Steps K s (.fork q k st) u ∧ Good K u ∧ u.procp = s.procp ∧
      u.kstack = Function.update s.kstack q k ∧
      u.frames = Function.update s.frames q [k + STACKSIZE - TRAPFRAME] ∧ ∃ c, u.parked q = some c := by
  have hstep : ∃ u, (procMachine K).step s (.fork q k st) = some u ∧ u.procp = s.procp ∧
      u.kstack = Function.update s.kstack q k ∧
      u.frames = Function.update s.frames q [k + STACKSIZE - TRAPFRAME] ∧ ∃ c, u.parked q = some c :=
    ⟨_, rfl, rfl, rfl, rfl, _, Function.update_self ..⟩
  obtain ⟨u, hu, hfacts⟩ := hstep
  exact ⟨u, ⟨hok, hu⟩, Steps.good h ⟨hok, hu⟩, hfacts⟩

/-- The kernel is about to return from `trap`. -/
theorem Good.leave {tf : ℕ} (h : Good K s) (hframes : s.frames s.procp = [tf])
    (hle : s.kstack s.procp + 4 ≤ tf) : ∃ st u, Steps K s (.own s.procp (.run st)) u ∧
      u.frames s.procp = [tf] ∧ ∃ w, Steps K u (.own s.procp .ret) w := by
  have hhead : tf ∈ (s.frames s.procp).head? := by
    rw [hframes]
    rfl
  have hpending : Pending (K.tables (s.kstack s.procp)) s.st.mem (s.frames s.procp) := h.running.pending
  have hend := (hpending.end_le tf (List.mem_of_mem_head? hhead)).trans_lt (K.tables _).esp0.isLt
  have hesp : (BitVec.ofNat 32 (tf - 4)).toNat = tf - 4 := by
    rw [BitVec.toNat_ofNat, Nat.mod_eq_of_lt (by omega)]
  let st : St := ⟨{ s.st.regs with esp := BitVec.ofNat 32 (tf - 4) }, s.st.mem⟩
  have hregs : st.regs = { s.st.regs with esp := BitVec.ofNat 32 (tf - 4) } := rfl
  have hfine : Fine K s (.own s.procp (.run st)) :=
    h.fine_run hhead hregs (by omega) (by omega) fun _ _ => rfl
  have hstep : ∃ u, (procMachine K).step s (.own s.procp (.run st)) = some u ∧ u.procp = s.procp ∧
      u.st = st ∧ u.frames s.procp = s.frames s.procp := ⟨_, rfl, rfl, rfl, Function.update_self ..⟩
  obtain ⟨u, hu, hprocp, hst, hframesu⟩ := hstep
  rw [hframes] at hframesu
  have hw : ∃ w, (procMachine K).step u (.own s.procp .ret) = some w := by
    have hrunning : u.running = ⟨st, [tf]⟩ := by rw [Procs.running, hst, hprocp, hframesu]
    simp only [procMachine, hrunning]
    exact ⟨_, rfl⟩
  obtain ⟨w, hw⟩ := hw
  refine ⟨st, u, ⟨hfine, hu⟩, hframesu, w, ⟨hprocp.symm, fun tf' htf' => ?_, trivial⟩, hw⟩
  have hhead' : tf' ∈ (u.frames u.procp).head? := htf'
  rw [hprocp, hframesu] at hhead'
  obtain rfl := Option.some.inj hhead'
  have hesp' : u.running.st.regs.esp.toNat = tf - 4 := by
    rw [Procs.running, hst]
    exact hesp
  omega

/-- A program comes to the kernel by `e`; the kernel makes the process `q` as `f` says, and calls `swtch`
for it. -/
structure Switched (K : Processor ι) (s : Procs ι) (e : Event) (q : ι) (k : ℕ) (f : Procs ι → St) where
  (trapped made calling swtched : Procs ι)
  st : St
  trap : Steps K s (.own s.procp e) trapped
  fork : Steps K trapped (.fork q k (f trapped)) made
  call : Steps K made (.own s.procp (.run st)) calling
  swtch : Steps K calling (.swtch s.procp q) swtched
  good : Good K swtched
  procp : swtched.procp = q
  kstack : swtched.kstack = Function.update s.kstack q k
  frames : swtched.frames q = [k + STACKSIZE - TRAPFRAME]
  waits : swtched.frames s.procp = [s.kstack s.procp + STACKSIZE - TRAPFRAME]
  parked : ∃ c, swtched.parked s.procp = some c

theorem First.switched {f : Procs ι → St} {e : Event} {r : Regs} (h : First K s)
    (he : e.suspended s.st.regs = some r) (hf : ∀ u, Makes K q k u.st (f u))
    (hq : q ≠ s.procp) (hk : k + STACKSIZE < 2 ^ 32) (hstacks : Beside k (s.kstack s.procp) STACKSIZE)
    (hcell : Beside k (K.context s.procp) 4) (hcell' : Beside (s.kstack s.procp) (K.context q) 4)
    (hown : Beside k (K.context q) 4) : Nonempty (Switched K s e q k f) := by
  have hstack : STACKSIZE = 4096 := rfl
  have hframe : TRAPFRAME = 76 := rfl
  obtain ⟨u₁, tf, htrap, hgood₁, hprocp₁, hkstack₁, hparked₁, hframes₁, htf⟩ := h.enter he
  have hhead₁ : tf ∈ (u₁.frames u₁.procp).head? := by
    rw [hprocp₁, hframes₁]
    rfl
  have hlive : ∀ p, u₁.Live p → p = s.procp := by
    rintro p (hp | ⟨c, hp⟩)
    · exact hp.trans hprocp₁
    · rw [hparked₁, h.parked p] at hp
      cases hp
  have hfork : Fine K u₁ (.fork q k (f u₁)) := by
    refine (hf u₁).fine hgood₁ hhead₁ (fun hcon => hq (hlive q hcon)) hk (fun p hp => ?_) hown
    rw [hlive p hp, hkstack₁]
    exact ⟨hstacks, hcell, hcell'⟩
  obtain ⟨u₂, hmade, hgood₂, hprocp₂, hkstack₂, hframes₂, c, hparked₂⟩ := hgood₁.spawn hfork
  rw [hprocp₁] at hprocp₂
  have hframesp : u₂.frames s.procp = [tf] := by
    rw [hframes₂, Function.update_of_ne hq.symm, hframes₁]
  have hkstackp : u₂.kstack s.procp = s.kstack s.procp := by
    rw [hkstack₂, Function.update_of_ne hq.symm, hkstack₁]
  have hhead₂ : tf ∈ (u₂.frames u₂.procp).head? := by
    rw [hprocp₂, hframesp]
    rfl
  have hroom₂ : u₂.kstack u₂.procp + 16 ≤ s.kstack s.procp + 1000 := by
    rw [hprocp₂, hkstackp]
    omega
  obtain ⟨st, u₃, u₄, hcall, hswtch, hgood₄, hprocp₄, hkstack₄, hframes₄, hparked₄⟩ :=
    hgood₂.yield hhead₂ hparked₂ hroom₂ (by omega)
  rw [hprocp₂] at hcall hswtch hparked₄
  refine ⟨⟨u₁, u₂, u₃, u₄, st, htrap, hmade, hcall, hswtch, hgood₄, hprocp₄, ?_, ?_, ?_, hparked₄⟩⟩
  · rw [hkstack₄, hkstack₂, hkstack₁]
  · rw [hframes₄, hframes₂, Function.update_self]
  · rw [hframes₄, hframesp, List.cons.injEq]
    exact ⟨by omega, rfl⟩

/-- The other one calls `swtch` for the first one. -/
theorem Switched.back {f : Procs ι → St} {e : Event} (x : Switched K s e q k f) (hq : q ≠ s.procp) :
    ∃ st u v, Steps K x.swtched (.own q (.run st)) u ∧ Steps K u (.swtch q s.procp) v ∧ Good K v ∧
      v.procp = s.procp ∧ v.kstack v.procp = s.kstack s.procp ∧
      v.frames v.procp = [s.kstack s.procp + STACKSIZE - TRAPFRAME] := by
  have hstack : STACKSIZE = 4096 := rfl
  have hframe : TRAPFRAME = 76 := rfl
  obtain ⟨c, hparked⟩ := x.parked
  have hhead : k + STACKSIZE - TRAPFRAME ∈ (x.swtched.frames x.swtched.procp).head? := by
    rw [x.procp, x.frames]
    rfl
  have hroom : x.swtched.kstack x.swtched.procp + 16 ≤ k + 1000 := by
    rw [x.procp, x.kstack, Function.update_self]
    omega
  obtain ⟨st, u, v, hcall, hswtch, hgood, hprocp, hkstack, hframes, -⟩ :=
    x.good.yield hhead hparked hroom (by omega)
  rw [x.procp] at hcall hswtch
  refine ⟨st, u, v, hcall, hswtch, hgood, hprocp, ?_, ?_⟩
  · rw [hprocp, hkstack, x.kstack, Function.update_of_ne hq.symm]
  · rw [hprocp, hframes, x.waits]

/-- The first process is interrupted.  The other one calls `swtch` for it, and it returns. -/
structure Exchange (K : Processor ι) (s : Procs ι) (q : ι) (k : ℕ) extends
    Switched K s (.trap 32 0) q k fun u => u.making K q k where
  (other back returning returned : Procs ι)
  (st' st'' : St)
  call' : Steps K swtched (.own q (.run st')) other
  swtch' : Steps K other (.swtch q s.procp) back
  run : Steps K back (.own s.procp (.run st'')) returning
  depth : (returning.frames s.procp).length = 1
  ret : Steps K returning (.own s.procp .ret) returned

theorem First.exchange (h : First K s) (hq : q ≠ s.procp) (hk : k + STACKSIZE < 2 ^ 32)
    (hstacks : Beside k (s.kstack s.procp) STACKSIZE) (hcell : Beside k (K.context s.procp) 4)
    (hcell' : Beside (s.kstack s.procp) (K.context q) 4) (hown : Beside k (K.context q) 4) :
    Nonempty (Exchange K s q k) := by
  have hstack : STACKSIZE = 4096 := rfl
  have hframe : TRAPFRAME = 76 := rfl
  obtain ⟨x⟩ := h.switched (e := .trap 32 0) rfl (fun u => makes_making hk hown) hq hk hstacks hcell hcell'
    hown
  obtain ⟨st', u₅, u₆, hcall', hswtch', hgood₆, hprocp₆, hkstack₆, hframes₆⟩ := x.back hq
  have hlow : u₆.kstack u₆.procp + 4 ≤ s.kstack s.procp + STACKSIZE - TRAPFRAME := by
    rw [hkstack₆]
    omega
  obtain ⟨st'', u₇, hrun, hframes₇, u₈, hret⟩ := hgood₆.leave hframes₆ hlow
  rw [hprocp₆] at hrun hframes₇ hret
  exact ⟨⟨x, u₅, u₆, u₇, u₈, st', st'', hcall', hswtch', hrun, by rw [hframes₇]; rfl, hret⟩⟩

/-- A machine with a process table of two. -/
def processor : Processor (Fin 2) where
  ts := tables.ts
  vectors := tables.vectors
  context p := 0x2000 + 4 * p.val
  apart p q hne := by
    have hval : p.val ≠ q.val := fun heq => hne (Fin.ext heq)
    omega
  bound p := by
    have hlt := p.isLt
    omega

def firstProcess : Procs (Fin 2) where
  st := program.st
  procp := 0
  kstack _ := 0x10000
  frames _ := []
  parked _ := none

theorem firstProcess_first : First processor firstProcess :=
  ⟨program_user, fun _ => rfl, fun _ => rfl, .inr (by decide), by decide⟩

theorem firstProcess_exchange : Nonempty (Exchange processor firstProcess 1 0x20000) :=
  firstProcess_first.exchange (by decide) (by decide) (.inr (by decide)) (.inr (by decide))
    (.inr (by decide)) (.inr (by decide))

theorem Exchange.within {n : ℕ} (x : Exchange K s q k) (hq : q ≠ s.procp) :
    (procMachine K).Trace (fun s' e' => Fine K s' e' ∧ WithinOf s.procp n s' e') x.trapped
      ([] ++ [.fork q k (x.trapped.making K q k)] ++ [.own s.procp (.run x.st)] ++ [.swtch s.procp q] ++
        [.own q (.run x.st')] ++ [.swtch q s.procp] ++ [.own s.procp (.run x.st'')]) x.returning :=
  (((((Machine.Trace.nil.snoc _ ⟨x.fork.1, trivial⟩ x.fork.2).snoc _
    ⟨x.call.1, fun _ => trivial⟩ x.call.2).snoc _ ⟨x.swtch.1, trivial⟩ x.swtch.2).snoc _
    ⟨x.call'.1, fun heq => absurd heq hq⟩ x.call'.2).snoc _ ⟨x.swtch'.1, trivial⟩ x.swtch'.2).snoc _
    ⟨x.run.1, fun _ => trivial⟩ x.run.2

/-! ## Work goes on -/

/-- **No process loses its registers.**  A trap interrupts a program, or the kernel, and whatever the
processes do until the return from it, every register is given back. -/
theorem resumes_process {s₀ : Procs ι} {e : Event} {r : Regs} (h₀ : First K s₀)
    (hs : (procMachine K).Trace (Fine K) s₀ fs s) (hok : Fine K s (.own p e))
    (hu : (procMachine K).step s (.own p e) = some u) (hc : e.suspended s.st.regs = some r)
    (hv : (procMachine K).Trace (fun s' e' => Fine K s' e' ∧ WithinOf p ((s.frames p).length + 1) s' e')
      u es v)
    (hdepth : (v.frames p).length = (s.frames p).length + 1) (hret : Fine K v (.own p .ret))
    (hw : (procMachine K).step v (.own p .ret) = some w) :
    w.procp = p ∧ w.st.regs = r ∧ w.work p = s.work p := by
  have hgood := (refines_work p).invariant h₀.good hs.path
  obtain ⟨hgoodu, hwork⟩ := hgood.interrupted hok hu hc
  rw [← hgood.length_work hok.1] at hv hdepth
  obtain ⟨hgoodv, hworkv⟩ := hgoodu.within hwork hv hret.1 hdepth
  obtain ⟨-, hprocp, hresumed⟩ := hgoodv.returned (.inl rfl) hret hw
  rw [hworkv, List.cons.injEq, Work.frame.injEq] at hresumed
  exact ⟨hprocp, hresumed.1.symm, hresumed.2.symm⟩

theorem resumes_process_exchange : ∃ x : Exchange processor firstProcess 1 0x20000,
    x.returned.procp = 0 ∧ x.returned.st.regs = program.st.regs ∧ x.returned.work 0 = [] := by
  obtain ⟨x⟩ := firstProcess_exchange
  exact ⟨x, resumes_process (e := .trap 32 0) firstProcess_first .nil x.trap.1 x.trap.2 rfl
    (x.within (by decide)) x.depth x.ret.1 x.ret.2⟩

/-- **A call of `swtch` returns.**  Whatever the others do until somebody calls `swtch` for this process, it
goes on behind its own call, with its registers, its stack pointer and its work. -/
theorem swtch_returns {s₀ : Procs ι} {q' : ι} (h₀ : First K s₀)
    (hs : (procMachine K).Trace (Fine K) s₀ fs s) (hok : Fine K s (.swtch p q))
    (hu : (procMachine K).step s (.swtch p q) = some u)
    (hv : (procMachine K).Trace (fun s' e' => Fine K s' e' ∧ Away p e') u es v)
    (hok' : Fine K v (.swtch q' p)) (hw : (procMachine K).step v (.swtch q' p) = some w) :
    w.procp = p ∧ w.st.regs.context = s.st.caller ∧ w.st.regs.esp.toNat = s.st.regs.esp.toNat + 4 ∧
      w.work p = s.work p := by
  have hgood := (refines_work p).invariant h₀.good hs.path
  obtain ⟨hgoodu, -, hwork, -⟩ := hgood.swtch_work hok hu
  have hparked : ∃ c, u.parked p = some c := by
    obtain rfl := Option.some.inj hu
    exact ⟨_, Function.update_self ..⟩
  obtain ⟨c, hc⟩ := hparked
  obtain ⟨hgoodv, hwaits⟩ := hgoodu.waits hc hv
  obtain ⟨-, hprocp, -, hresumed, -⟩ := hgoodv.swtch_work hok' hw
  rw [hwaits.work, hwork, List.cons.injEq, Work.context.injEq] at hresumed
  exact ⟨hprocp, hresumed.1.1.symm, hresumed.1.2.symm, hresumed.2.symm⟩

theorem swtch_returns_exchange : ∃ x : Exchange processor firstProcess 1 0x20000,
    x.back.procp = 0 ∧ x.back.st.regs.context = x.calling.st.caller ∧
      x.back.st.regs.esp.toNat = x.calling.st.regs.esp.toNat + 4 ∧ x.back.work 0 = x.calling.work 0 := by
  obtain ⟨x⟩ := firstProcess_exchange
  have hbefore : (procMachine processor).Trace (Fine processor) firstProcess _ x.calling :=
    ((Machine.Trace.nil.snoc _ x.trap.1 x.trap.2).snoc _ x.fork.1 x.fork.2).snoc _ x.call.1 x.call.2
  exact ⟨x, swtch_returns firstProcess_first hbefore x.swtch.1 x.swtch.2
    (Machine.Trace.nil.snoc _ ⟨x.call'.1, trivial⟩ x.call'.2) x.swtch'.1 x.swtch'.2⟩

/-- In a run of the processes `q` has been made with the kernel stack `k`, where the memory is `m` from
`context` to the end, and then somebody has called `swtch` for it. -/
def Chosen (K : Processor ι) (q : ι) (k context : ℕ) (m : Mem) (w : Procs ι) : Prop :=
  ∃ (s₀ s u v : Procs ι) (fs es : List (ProcEvent ι)) (st : St) (q' : ι), First K s₀ ∧
    (procMachine K).Trace (Fine K) s₀ fs s ∧ Fine K s (.fork q k st) ∧
    (∀ x, context ≤ x → x < k + STACKSIZE → st.mem x = m x) ∧
    (procMachine K).step s (.fork q k st) = some u ∧
    (procMachine K).Trace (fun s' e' => Fine K s' e' ∧ Away q e') u es v ∧
    Fine K v (.swtch q' q) ∧ (procMachine K).step v (.swtch q' q) = some w

/-- A process can be made with any stack on which the frame is that of a program. -/
theorem First.made (h : First K s) (huser : UserRegs K.ts (decode m (k + STACKSIZE - TRAPFRAME)))
    (hq : q ≠ s.procp) (hk : k + STACKSIZE < 2 ^ 32) (hstacks : Beside k (s.kstack s.procp) STACKSIZE)
    (hcell : Beside k (K.context s.procp) 4) (hcell' : Beside (s.kstack s.procp) (K.context q) 4)
    (hown : Beside k (K.context q) 4) : ∃ f : Procs ι → St,
      (∀ u x, k ≤ x → x < k + STACKSIZE → (f u).mem x = m x) ∧
        Nonempty (Switched K s (.trap 32 0) q k f) := by
  have hstack : STACKSIZE = 4096 := rfl
  have hframe : TRAPFRAME = 76 := rfl
  let f (u : Procs ι) : St := ⟨u.st.regs, Mem.store32 (fun x => if k ≤ x ∧ x < k + STACKSIZE then m x
    else u.st.mem x) (K.context q) (k + STACKSIZE - TRAPFRAME - CONTEXT)⟩
  have hinside : ∀ u x, k ≤ x → x < k + STACKSIZE → (f u).mem x = m x := by
    intro u x hx hlt
    simp only [Beside] at hown
    simp only [f]
    rw [Mem.store32_of_ne (by omega), if_pos ⟨hx, hlt⟩]
  have hf : ∀ u, Makes K q k u.st (f u) := by
    refine fun u => ⟨rfl, fun x hx hx' => ?_, ?_, ?_⟩
    · simp only [f]
      rw [Mem.store32_of_ne hx', if_neg (by omega)]
    · exact Mem.load32_store32 (by omega)
    · have hsize := size_le (decode m (k + STACKSIZE - TRAPFRAME))
      rwa [decode_congr (m := m) fun x hx hlt => hinside u x (by omega) (by omega)]
  exact ⟨f, hinside, h.switched rfl hf hq hk hstacks hcell hcell' hown⟩

/-- There is such a run. -/
theorem First.chosen {context : ℕ} (h : First K s) (hlow : k ≤ context)
    (huser : UserRegs K.ts (decode m (k + STACKSIZE - TRAPFRAME)))
    (hq : q ≠ s.procp) (hk : k + STACKSIZE < 2 ^ 32) (hstacks : Beside k (s.kstack s.procp) STACKSIZE)
    (hcell : Beside k (K.context s.procp) 4) (hcell' : Beside (s.kstack s.procp) (K.context q) 4)
    (hown : Beside k (K.context q) 4) : ∃ w, Chosen K q k context m w := by
  obtain ⟨f, hinside, ⟨x⟩⟩ := h.made huser hq hk hstacks hcell hcell' hown
  exact ⟨x.swtched, s, x.trapped, x.made, x.calling, _, _, f x.trapped, s.procp, h,
    .snoc _ .nil x.trap.1 x.trap.2, x.fork.1, fun y hy hlt => hinside _ y (hlow.trans hy) hlt, x.fork.2,
    .snoc _ .nil ⟨x.call.1, trivial⟩ x.call.2, x.swtch.1, x.swtch.2⟩

/-- A process that has been made begins as its first frames say, whatever the others do until then. -/
theorem Good.begins {st : St} {q' : ι} (h : Good K s) (hok : Fine K s (.fork q k st))
    (hu : (procMachine K).step s (.fork q k st) = some u)
    (hv : (procMachine K).Trace (fun s' e' => Fine K s' e' ∧ Away q e') u es v)
    (hok' : Fine K v (.swtch q' q)) (hw : (procMachine K).step v (.swtch q' q) = some w) :
    w.procp = q ∧ w.st.regs.context = context st.mem (k + STACKSIZE - TRAPFRAME - CONTEXT) ∧
      ∃ x, Fine K w (.own q .start) ∧ (procMachine K).step w (.own q .start) = some x ∧ x.procp = q ∧
        x.st.regs = decode st.mem (k + STACKSIZE - TRAPFRAME) ∧ x.work q = [] := by
  have hbound : k + STACKSIZE < 2 ^ 32 := hok.2.1
  obtain ⟨hgoodu, -, -⟩ := h.fork hok hu
  obtain rfl := Option.some.inj hu
  obtain ⟨hgoodv, hwaits⟩ := hgoodu.waits (Function.update_self ..) hv
  obtain ⟨hgoodw, hprocp, -, hresumed, -⟩ := hgoodv.swtch_work hok' hw
  have hframes : w.frames q = [k + STACKSIZE - TRAPFRAME] := by
    obtain rfl := Option.some.inj hw
    exact hwaits.frames.trans (Function.update_self ..)
  rw [hwaits.work, Procs.work] at hresumed
  simp only [Function.update_self, work, Option.map_some, Option.toList_some, List.map_cons, List.map_nil,
    List.cons_append, List.nil_append, List.cons.injEq, Work.context.injEq] at hresumed
  obtain ⟨⟨hcontext, hesp⟩, hwork⟩ := hresumed
  have htf : w.st.regs.esp.toNat = k + STACKSIZE - TRAPFRAME := by
    rw [← hesp]
    simp only [STACKSIZE, TRAPFRAME, CONTEXT]
    omega
  have hfine : Fine K w (.own q .start) := by
    refine ⟨hprocp.symm, fun tf htf' => ?_, trivial⟩
    simp only [Procs.running, hprocp, hframes] at htf'
    obtain rfl := Option.some.inj htf'
    exact htf
  have hstep : ∃ x, (procMachine K).step w (.own q .start) = some x := by
    have hrunning : w.running = ⟨w.st, [k + STACKSIZE - TRAPFRAME]⟩ := by
      rw [Procs.running, hprocp, hframes]
    simp only [procMachine, hrunning]
    exact ⟨_, rfl⟩
  obtain ⟨x, hx⟩ := hstep
  obtain ⟨-, hprocpx, hlast⟩ := hgoodw.returned (.inr rfl) hfine hx
  rw [← hwork, List.cons.injEq, Work.frame.injEq] at hlast
  exact ⟨hprocp, hcontext.symm, x, hfine, hx, hprocpx, hlast.1.symm, hlast.2.symm⟩

/-- **A new process begins.**  Whatever the others do until somebody calls `swtch` for it, it goes on at
its context, and `trapret` starts the program in its trap frame. -/
theorem starts {s₀ : Procs ι} {st : St} {q' : ι} (h₀ : First K s₀)
    (hs : (procMachine K).Trace (Fine K) s₀ fs s) (hok : Fine K s (.fork q k st))
    (hu : (procMachine K).step s (.fork q k st) = some u)
    (hv : (procMachine K).Trace (fun s' e' => Fine K s' e' ∧ Away q e') u es v)
    (hok' : Fine K v (.swtch q' q)) (hw : (procMachine K).step v (.swtch q' q) = some w) :
    w.procp = q ∧ w.st.regs.context = context st.mem (k + STACKSIZE - TRAPFRAME - CONTEXT) ∧
      ∃ x, Fine K w (.own q .start) ∧ (procMachine K).step w (.own q .start) = some x ∧ x.procp = q ∧
        x.st.regs = decode st.mem (k + STACKSIZE - TRAPFRAME) ∧ x.work q = [] :=
  ((refines_work q).invariant h₀.good hs.path).begins hok hu hv hok' hw

/-- The first frames of a process at 0x20000. -/
theorem exists_frames : ∃ m : Mem, decode m 0x20fb4 = program.st.regs ∧
    context m 0x20fa0 = ⟨1, 2, 3, 4, 0x100a0⟩ := by
  let t : Tables := ⟨tables.ts, 0x21000, tables.vectors⟩
  have hentered : ∃ tf, Entered t program 64 (program.enter t 64 (interrupt t 64 0 program.st)) tf :=
    entered (by decide)
  obtain ⟨tf, hcall⟩ := hentered
  have hdecode := hcall.decode_eq (.of_user rfl program_user)
  have hsum : tf + 76 = 0x21000 := hcall.top
  obtain rfl : tf = 0x20fb4 := by omega
  generalize (program.enter t 64 (interrupt t 64 0 program.st)).st.mem = m at hdecode
  let m₁ := (m.store32 0x20fa0 1).store32 0x20fa4 2
  let m₂ := (m₁.store32 0x20fa8 3).store32 0x20fac 4
  refine ⟨m₂.store32 0x20fb0 0x100a0, ?_, ?_⟩
  · rw [← hdecode]
    apply decode_congr
    intro x hx hlt
    have hlow : ∀ {m' : Mem} {a v}, a + 4 ≤ 0x20fb4 → m'.store32 a v x = m' x := fun ha =>
      Mem.store32_of_ne (by omega)
    exact (hlow (by decide)).trans ((hlow (by decide)).trans ((hlow (by decide)).trans
      ((hlow (by decide)).trans (hlow (by decide)))))
  · have hedi : (m₂.store32 0x20fb0 0x100a0).load32 0x20fa0 = 1 := by
      rw [Mem.load32_store32_of_ne (by decide), Mem.load32_store32_of_ne (by decide),
        Mem.load32_store32_of_ne (by decide), Mem.load32_store32_of_ne (by decide),
        Mem.load32_store32 (by decide)]
    have hesi : (m₂.store32 0x20fb0 0x100a0).load32 0x20fa4 = 2 := by
      rw [Mem.load32_store32_of_ne (by decide), Mem.load32_store32_of_ne (by decide),
        Mem.load32_store32_of_ne (by decide), Mem.load32_store32 (by decide)]
    have hebx : (m₂.store32 0x20fb0 0x100a0).load32 0x20fa8 = 3 := by
      rw [Mem.load32_store32_of_ne (by decide), Mem.load32_store32_of_ne (by decide),
        Mem.load32_store32 (by decide)]
    have hebp : (m₂.store32 0x20fb0 0x100a0).load32 0x20fac = 4 := by
      rw [Mem.load32_store32_of_ne (by decide), Mem.load32_store32 (by decide)]
    have heip : (m₂.store32 0x20fb0 0x100a0).load32 0x20fb0 = 0x100a0 := Mem.load32_store32 (by decide)
    simp only [context, hedi, hesi, hebx, hebp, heip]
    rfl

/-- A process that begins with a number in every register. -/
theorem starts_switched : ∃ (f : Procs (Fin 2) → St)
    (x : Switched processor firstProcess (.trap 32 0) 1 0x20000 f), x.swtched.procp = 1 ∧
    x.swtched.st.regs.context = ⟨1, 2, 3, 4, 0x100a0⟩ ∧
    ∃ y, Fine processor x.swtched (.own 1 .start) ∧
      (procMachine processor).step x.swtched (.own 1 .start) = some y ∧ y.procp = 1 ∧
      y.st.regs = program.st.regs ∧ y.work 1 = [] := by
  obtain ⟨m, hdecode, hcontext⟩ := exists_frames
  have huser : UserRegs processor.ts (decode m (0x20000 + STACKSIZE - TRAPFRAME)) := hdecode ▸ program_user
  obtain ⟨f, hinside, ⟨x⟩⟩ := firstProcess_first.made huser (q := 1) (by decide) (by decide)
    (.inr (by decide)) (.inr (by decide)) (.inr (by decide)) (.inr (by decide))
  obtain ⟨hprocp, hbegun, y, hfine, hy, hprocpy, hregs, hwork⟩ :=
    starts firstProcess_first (Machine.Trace.nil.snoc _ x.trap.1 x.trap.2) x.fork.1 x.fork.2
      (Machine.Trace.nil.snoc _ ⟨x.call.1, trivial⟩ x.call.2) x.swtch.1 x.swtch.2
  have hstack : 0x20000 + STACKSIZE - TRAPFRAME = 0x20fb4 := rfl
  have hsame : ∀ y, 0x20fa0 ≤ y → y < 0x21000 → (f x.trapped).mem y = m y := fun y h1 h2 =>
    hinside _ y (by omega) h2
  refine ⟨f, x, hprocp, ?_, y, hfine, hy, hprocpy, ?_, hwork⟩
  · rw [hbegun, hstack, ← hcontext]
    exact context_congr fun y h1 h2 => hsame y h1 (by simp only [CONTEXT] at h2; omega)
  · rw [hregs, hstack, ← hdecode]
    have hsize := size_le (decode m 0x20fb4)
    exact decode_congr fun y h1 h2 => hsame y (by omega) (by omega)

end Mixv6.Kernel.Trap
