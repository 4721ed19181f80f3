import Mixv6.Kernel.Context

/-!
# All processes

Every process has a kernel stack of its own.  One of them runs, and comes to `trap` and back; the
others wait inside `swtch`, or have not begun, below the frames of the traps that they are in.  What a
process leaves on its stack it finds there again, whatever the others do in between.

## Main definitions

* `Processor`, `Procs`, `ProcEvent`, `procMachine`, `Allowed` — the processes.
* `Work`, `Procs.work` — what a process has to go on with.
* `Good` — the stacks are in order.
* `Good.own_step`, `Good.add`, `Good.remove`, `Good.swtch` — and stay so.
-/

namespace Mixv6.Kernel.Trap

open Mixv6.Lib

/-- The size of a kernel stack. -/
def STACKSIZE : ℕ := 0x1000

/-- `sizeof(struct trapframe)`. -/
def TRAPFRAME : ℕ := 76

/-- What is the same for all processes: the task state, the code in `vectors.S`, and the addresses of
the fields `context` of the process table. -/
structure Processor (ι : Type) where
  ts : BitVec 32
  vectors : BitVec 8 → BitVec 32
  context : ι → ℕ
  apart : ∀ p q, p ≠ q → context p + 4 ≤ context q ∨ context q + 4 ≤ context p
  bound : ∀ p, context p + 4 ≤ 2 ^ 32

/-- The tables after `switchuvm`, for a process with the kernel stack `k`. -/
def Processor.tables {ι : Type} (K : Processor ι) (k : ℕ) : Tables :=
  ⟨K.ts, BitVec.ofNat 32 (k + STACKSIZE), K.vectors⟩

/-- The processor, and of every process its kernel stack, the frames on it, and where it waits, if it
does. -/
structure Procs (ι : Type) where
  st : St
  procp : ι
  kstack : ι → ℕ
  frames : ι → List ℕ
  parked : ι → Option ℕ

/-- What happens. -/
inductive ProcEvent (ι : Type)
  /-- The process that runs goes on. -/
  | own (p : ι) (e : Event)
  /-- It calls `swtch`. -/
  | swtch (p q : ι)
  /-- It makes another one, with the kernel stack `k`. -/
  | fork (q : ι) (k : ℕ) (st : St)
  /-- Another one is freed. -/
  | free (q : ι)

variable {ι : Type} {K : Processor ι} {s t u v w : Procs ι} {p q : ι} {m m' : Mem} {c k : ℕ}
  {frames : List ℕ}

/-- The process that runs. -/
def Procs.running (s : Procs ι) : Running := ⟨s.st, s.frames s.procp⟩

def procMachine [DecidableEq ι] (K : Processor ι) : Machine (Procs ι) (ProcEvent ι) where
  step s
    | .own _ e =>
        ((trapMachine (K.tables (s.kstack s.procp))).step s.running e).map fun r =>
          { s with st := r.st, frames := Function.update s.frames s.procp r.frames }
    | .swtch p q => some { s with
        st := run K.ts s.st swtch
        procp := q
        parked := Function.update (Function.update s.parked q none) p (some (s.st.regs.esp.toNat - 16)) }
    | .fork q k st => some { s with
        st
        kstack := Function.update s.kstack q k
        frames := Function.update s.frames q [k + STACKSIZE - TRAPFRAME]
        parked := Function.update s.parked q (some (k + STACKSIZE - TRAPFRAME - CONTEXT)) }
    | .free q => some { s with
        frames := Function.update s.frames q []
        parked := Function.update s.parked q none }

/-- There is a process. -/
def Procs.Live (s : Procs ι) (p : ι) : Prop := p = s.procp ∨ ∃ c, s.parked p = some c

/-- The part of the memory that process `p` will read when it goes on. -/
def Reserved (K : Processor ι) (p : ι) (k c x : ℕ) : Prop :=
  c ≤ x ∧ x < k + STACKSIZE ∨ K.context p ≤ x ∧ x < K.context p + 4

/-- Nothing is stored to where the others wait. -/
def Procs.Spared (K : Processor ι) (s : Procs ι) (m : Mem) : Prop :=
  ∀ p c x, s.parked p = some c → Reserved K p (s.kstack p) c x → m x = s.st.mem x

/-- The kernel stack at `k` is beside this one, or this field. -/
def Beside (k a n : ℕ) : Prop := k + STACKSIZE ≤ a ∨ a + n ≤ k

/-- What the processes do.  The stack does not overflow. -/
def Fine (K : Processor ι) (s : Procs ι) : ProcEvent ι → Prop
  | .own p e => p = s.procp ∧ Allowed (K.tables (s.kstack s.procp)) s.running e ∧
      match e with
      | .run st => s.Spared K st.mem ∧ (s.frames s.procp ≠ [] → s.kstack s.procp ≤ st.regs.esp.toNat)
      | .edit m => s.Spared K m
      | .trap .. => s.kstack s.procp + 80 ≤ (top (K.tables (s.kstack s.procp)) s.st.regs).toNat
      | .int _ => s.kstack s.procp + 80 ≤ (top (K.tables (s.kstack s.procp)) s.st.regs).toNat
      | _ => True
  | .swtch p q => p = s.procp ∧ (∃ c, s.parked q = some c) ∧
      (∃ tf ∈ (s.frames p).head?, s.st.regs.esp.toNat + 12 ≤ tf) ∧ s.kstack p + 16 ≤ s.st.regs.esp.toNat ∧
      s.st.mem.load32 (s.st.regs.esp.toNat + 4) = K.context p ∧
      s.st.mem.load32 (s.st.regs.esp.toNat + 8) = s.st.mem.load32 (K.context q)
  | .fork q k st => ¬ s.Live q ∧ k + STACKSIZE < 2 ^ 32 ∧
      (∀ p, s.Live p → Beside k (s.kstack p) STACKSIZE ∧ Beside k (K.context p) 4 ∧
        Beside (s.kstack p) (K.context q) 4) ∧ Beside k (K.context q) 4 ∧
      st.mem.load32 (K.context q) = k + STACKSIZE - TRAPFRAME - CONTEXT ∧
      UserRegs K.ts (decode st.mem (k + STACKSIZE - TRAPFRAME)) ∧
      Allowed (K.tables (s.kstack s.procp)) s.running (.run st) ∧ s.Spared K st.mem ∧
      (s.frames s.procp ≠ [] → s.kstack s.procp ≤ st.regs.esp.toNat)
  | .free q => q ≠ s.procp

/-- What a process can go on with. -/
inductive Work
  /-- Interrupted code. -/
  | frame (r : Regs)
  /-- The caller of `swtch`, with its stack. -/
  | context (k : Context) (esp : ℕ)

def work (m : Mem) (c : Option ℕ) (frames : List ℕ) : List Work :=
  (c.map fun c => Work.context (context m c) (c + CONTEXT)).toList ++
    frames.map fun tf => .frame (decode m tf)

/-- What process `p` will go on with. -/
def Procs.work (s : Procs ι) (p : ι) : List Work := Trap.work s.st.mem (s.parked p) (s.frames p)

/-- A process waits at `c`, on the kernel stack `k`. -/
structure Parked (K : Processor ι) (p : ι) (k : ℕ) (frames : List ℕ) (m : Mem) (c : ℕ) : Prop where
  ne : frames ≠ []
  low : k ≤ c
  below : ∀ tf ∈ frames.head?, c + CONTEXT ≤ tf
  cell : m.load32 (K.context p) = c
  pending : Pending (K.tables k) m frames

/-- The stacks are in order. -/
structure Good (K : Processor ι) (s : Procs ι) : Prop where
  running : Inv (K.tables (s.kstack s.procp)) s.running
  low : s.frames s.procp ≠ [] → s.kstack s.procp ≤ s.st.regs.esp.toNat
  procp : s.parked s.procp = none
  dead : ∀ p, ¬ s.Live p → s.frames p = []
  parked : ∀ p c, s.parked p = some c → Parked K p (s.kstack p) (s.frames p) s.st.mem c
  disjoint : ∀ p q, s.Live p → s.Live q → p ≠ q → Beside (s.kstack p) (s.kstack q) STACKSIZE
  cells : ∀ p q, s.Live p → s.Live q → Beside (s.kstack p) (K.context q) 4
  bound : ∀ p, s.Live p → s.kstack p + STACKSIZE < 2 ^ 32

/-! ## Processes that wait -/

@[simp]
theorem esp0_tables (h : k + STACKSIZE < 2 ^ 32) : (K.tables k).esp0.toNat = k + STACKSIZE := by
  rw [Processor.tables, BitVec.toNat_ofNat, Nat.mod_eq_of_lt h]

/-- The frames of a process that waits are in the part that is reserved. -/
theorem Parked.frame (h : Parked K p k frames m c) (hk : k + STACKSIZE < 2 ^ 32) {tf : ℕ}
    (htf : tf ∈ frames) : c + CONTEXT ≤ tf ∧ tf + size (decode m tf) ≤ k + STACKSIZE := by
  have hend := h.pending.end_le tf htf
  rw [esp0_tables hk] at hend
  obtain ⟨tf', htf'⟩ := Option.isSome_iff_exists.mp (List.isSome_head?.mpr h.ne)
  exact ⟨(h.below tf' htf').trans (h.pending.head_le htf' tf htf), hend⟩

/-- A process goes on waiting while its part of the memory stays as it is. -/
theorem Parked.congr (h : Parked K p k frames m c) (hk : k + STACKSIZE < 2 ^ 32)
    (hm : ∀ x, Reserved K p k c x → m' x = m x) :
    Parked K p k frames m' c ∧ work m' (some c) frames = work m (some c) frames := by
  have hdecode : ∀ tf ∈ frames, decode m' tf = decode m tf := by
    intro tf htf
    obtain ⟨hlow, hend⟩ := h.frame hk htf
    exact decode_congr fun x hx hlt => hm x (.inl ⟨by omega, by omega⟩)
  have hcontext : context m' c = context m c := by
    obtain ⟨tf, htf⟩ := List.exists_mem_of_ne_nil _ h.ne
    obtain ⟨hlow, hend⟩ := h.frame hk htf
    have hsize := le_size (decode m tf)
    exact context_congr fun x hx hlt => hm x (.inl ⟨hx, by omega⟩)
  constructor
  · refine ⟨h.ne, h.low, h.below, ?_, h.pending.congr hdecode⟩
    rw [← h.cell]
    exact Mem.load32_congr fun j hj => hm _ (.inr ⟨by omega, by omega⟩)
  · simp only [work, Option.map_some, hcontext]
    rw [List.map_congr_left fun tf htf => by rw [hdecode tf htf]]

theorem Procs.live_of_parked (h : s.parked p = some c) : s.Live p := .inr ⟨c, h⟩

/-- A call of `swtch`, for a process that waits at `c`. -/
structure Calls (K : Processor ι) (s : Procs ι) (q : ι) (c : ℕ) : Prop where
  other : s.parked q = some c
  below : ∃ tf ∈ (s.frames s.procp).head?, s.st.regs.esp.toNat + 12 ≤ tf
  room : s.kstack s.procp + 16 ≤ s.st.regs.esp.toNat
  old : s.st.mem.load32 (s.st.regs.esp.toNat + 4) = K.context s.procp
  new : s.st.mem.load32 (s.st.regs.esp.toNat + 8) = c

/-- The memory after a call of `swtch`. -/
def Procs.left (K : Processor ι) (s : Procs ι) : Mem :=
  s.st.parked (BitVec.ofNat 32 (K.context s.procp))

theorem toNat_cell : (BitVec.ofNat 32 (K.context p)).toNat = K.context p := by
  have hbound := K.bound p
  rw [BitVec.toNat_ofNat, Nat.mod_eq_of_lt (by omega)]

/-- What `swtch` does not store to. -/
theorem Calls.left_of_ne (hc : Calls K s q c) {x : ℕ}
    (hstack : x < s.st.regs.esp.toNat - 16 ∨ s.st.regs.esp.toNat ≤ x)
    (hcell : x < K.context s.procp ∨ K.context s.procp + 4 ≤ x) : s.left K x = s.st.mem x := by
  have hroom := hc.room
  apply parked_of_ne (by omega) hstack
  rw [toNat_cell]
  exact hcell

namespace Good

/-- A process that waits has another stack. -/
theorem ne_procp (h : Good K s) (hp : s.parked p = some c) : p ≠ s.procp := by
  rintro rfl
  rw [h.procp] at hp
  cases hp

/-- The others go on waiting. -/
theorem waiting (h : Good K s) (hm : s.Spared K m) (hp : s.parked p = some c) :
    Parked K p (s.kstack p) (s.frames p) m c ∧ Trap.work m (some c) (s.frames p) = s.work p := by
  obtain ⟨hparked, hwork⟩ := (h.parked p c hp).congr (h.bound p (.inr ⟨c, hp⟩)) fun x hx => hm p c x hp hx
  exact ⟨hparked, by rw [hwork, Procs.work, hp]⟩

/-- The work of the others stays. -/
theorem work_eq (h : Good K s) (hm : s.Spared K m) (hp : p ≠ s.procp) :
    Trap.work m (s.parked p) (s.frames p) = s.work p := by
  cases hc : s.parked p with
  | none =>
      have hdead : ¬ s.Live p := by
        rintro (rfl | ⟨c, hc'⟩)
        · exact hp rfl
        · rw [hc] at hc'
          cases hc'
      rw [Procs.work, hc, h.dead p hdead]
      rfl
  | some c => exact (h.waiting hm hc).2

/-- Stores to the stack of the process that runs spare the others. -/
theorem spared_stack (h : Good K s)
    (hm : ∀ x, x < s.kstack s.procp ∨ s.kstack s.procp + STACKSIZE ≤ x → m x = s.st.mem x) :
    s.Spared K m := by
  intro p c x hp hx
  have hlive := Procs.live_of_parked hp
  have hdisjoint := h.disjoint s.procp p (.inl rfl) hlive (h.ne_procp hp).symm
  have hcell := h.cells s.procp p (.inl rfl) hlive
  have hlow := (h.parked p c hp).low
  apply hm
  rcases hx with ⟨hc, hlt⟩ | ⟨hlow', hlt⟩
  · rcases hdisjoint with hle | hle
    · exact .inr (by omega)
    · exact .inl (by omega)
  · rcases hcell with hle | hle
    · exact .inr (by omega)
    · exact .inl (by omega)

/-! ## Steps of one process -/

variable {r : Running} {e : Event}

/-- The stack of the process that runs, as a trap finds it. -/
theorem top_le (h : Good K s) :
    (top (K.tables (s.kstack s.procp)) s.st.regs).toNat ≤ s.kstack s.procp + STACKSIZE := by
  have hbound := h.bound s.procp (.inl rfl)
  have hI := h.running
  rcases hI.mode with ⟨huser, -⟩ | ⟨tf, htf, hkernel, hle⟩
  · have htop : top (K.tables (s.kstack s.procp)) s.st.regs = (K.tables (s.kstack s.procp)).esp0 :=
      if_pos huser.user
    rw [htop, esp0_tables hbound]
  · have htop : top (K.tables (s.kstack s.procp)) s.st.regs = s.st.regs.esp := if_neg hkernel.not_user
    have hend := hI.pending.end_le tf (List.mem_of_mem_head? htf)
    rw [esp0_tables hbound] at hend
    have hle' : s.st.regs.esp.toNat ≤ tf := hle
    rw [htop]
    omega

theorem esp_lt (h : Good K s) (hc : Calls K s q c) :
    s.st.regs.esp.toNat + 12 < s.kstack s.procp + STACKSIZE := by
  obtain ⟨tf, htf, hle⟩ := hc.below
  have hpending : Pending _ s.st.mem (s.frames s.procp) := h.running.pending
  have hend := hpending.end_le tf (List.mem_of_mem_head? htf)
  have hsize := le_size (decode s.st.mem tf)
  rw [esp0_tables (h.bound s.procp (.inl rfl))] at hend
  omega

theorem spared_left (h : Good K s) (hc : Calls K s q c) : s.Spared K (s.left K) := by
  intro p c' x hp hx
  have hlive := Procs.live_of_parked hp
  have hne := h.ne_procp hp
  have hroom := hc.room
  have hesp := h.esp_lt hc
  have hlow := (h.parked p c' hp).low
  have hdisjoint := h.disjoint s.procp p (.inl rfl) hlive hne.symm
  have hcell := h.cells s.procp p (.inl rfl) hlive
  have hcell' := h.cells p s.procp hlive (.inl rfl)
  have hapart := K.apart p s.procp hne
  simp only [Beside, Reserved] at hdisjoint hcell hcell' hx
  apply hc.left_of_ne
  · omega
  · omega

/-- A process that waits ends its context below the end of the memory. -/
theorem context_lt (h : Good K s) (hp : s.parked p = some c) : c + CONTEXT < s.kstack p + STACKSIZE := by
  have hparked := h.parked p c hp
  obtain ⟨tf, htf⟩ := List.exists_mem_of_ne_nil _ hparked.ne
  obtain ⟨hle, hend⟩ := hparked.frame (h.bound p (.inr ⟨c, hp⟩)) htf
  have hsize := le_size (decode s.st.mem tf)
  omega

/-- **`swtch`** goes on with the process that waits. -/
theorem run_swtch (h : Good K s) (hc : Calls K s q c) : ∃ r : Regs,
    r.cs = s.st.regs.cs ∧ r.ss = s.st.regs.ss ∧
    run K.ts s.st swtch = ⟨r.goOn (context s.st.mem c) (BitVec.ofNat 32 (c + CONTEXT)), s.left K⟩ := by
  have hlive := Procs.live_of_parked hc.other
  have hlt := h.context_lt hc.other
  have hbound := h.bound q hlive
  have hesp := h.esp_lt hc
  have hstack := h.bound s.procp (.inl rfl)
  have hroom := hc.room
  have hold : word s.st.mem (s.st.regs.esp + 4) = BitVec.ofNat 32 (K.context s.procp) := by
    rw [← hc.old]
    exact word_offset (k := 4) (by omega)
  have hnew : word s.st.mem (s.st.regs.esp + 8) = BitVec.ofNat 32 c := by
    rw [← hc.new]
    exact word_offset (k := 8) (by omega)
  have hc' : (BitVec.ofNat 32 c).toNat = c := by
    rw [BitVec.toNat_ofNat, Nat.mod_eq_of_lt (by omega)]
  have hcontext : context (s.left K) c = context s.st.mem c := by
    apply context_congr
    intro x hx hlt'
    exact h.spared_left hc q c x hc.other (.inl ⟨hx, by omega⟩)
  have hrun : run K.ts s.st Trap.swtch = _ := Trap.run_swtch hold hnew (by omega) (by rw [hc']; omega)
  let r := { s.st.regs with eax := BitVec.ofNat 32 (K.context s.procp), edx := BitVec.ofNat 32 c }
  refine ⟨r, rfl, rfl, ?_⟩
  rw [hrun, hc', ← BitVec.ofNat_add]
  exact congrArg (fun k => St.mk (Regs.goOn _ k _) _) hcontext

/-- The caller waits. -/
theorem caller (h : Good K s) (hc : Calls K s q c) :
    Parked K s.procp (s.kstack s.procp) (s.frames s.procp) (s.left K) (s.st.regs.esp.toNat - 16) ∧
      Trap.work (s.left K) (some (s.st.regs.esp.toNat - 16)) (s.frames s.procp) =
        .context s.st.caller (s.st.regs.esp.toNat + 4) :: s.work s.procp := by
  obtain ⟨tf, htf, hle⟩ := hc.below
  have hroom := hc.room
  have hesp := h.esp_lt hc
  have hbound := h.bound s.procp (.inl rfl)
  have hcell := h.cells s.procp s.procp (.inl rfl) (.inl rfl)
  have hpending : Pending (K.tables (s.kstack s.procp)) s.st.mem (s.frames s.procp) := h.running.pending
  have hframe : ∀ tf ∈ s.frames s.procp, s.st.regs.esp.toNat + 12 ≤ tf ∧
      tf + size (decode s.st.mem tf) ≤ s.kstack s.procp + STACKSIZE := by
    intro tf' htf'
    have hend := hpending.end_le tf' htf'
    rw [esp0_tables hbound] at hend
    exact ⟨hle.trans (hpending.head_le htf tf' htf'), hend⟩
  have hdecode : ∀ tf ∈ s.frames s.procp, decode (s.left K) tf = decode s.st.mem tf := by
    intro tf' htf'
    obtain ⟨hlow, hend⟩ := hframe tf' htf'
    apply decode_congr
    intro x hx hlt
    simp only [Beside] at hcell
    apply hc.left_of_ne
    · omega
    · omega
  constructor
  · refine ⟨List.ne_nil_of_mem (List.mem_of_mem_head? htf), by omega, fun tf' htf' => ?_, ?_, ?_⟩
    · obtain ⟨hlow, -⟩ := hframe tf' (List.mem_of_mem_head? htf')
      simp only [CONTEXT]
      omega
    · have hstored : (s.left K).load32 (BitVec.ofNat 32 (K.context s.procp)).toNat = _ := load32_parked
      rwa [toNat_cell] at hstored
    · exact hpending.congr hdecode
  · have hcontext : context (s.left K) (s.st.regs.esp.toNat - 16) = s.st.caller := by
      apply context_parked (by omega)
      rw [toNat_cell]
      simp only [Beside] at hcell
      omega
    have hsum : s.st.regs.esp.toNat - 16 + CONTEXT = s.st.regs.esp.toNat + 4 := by
      simp only [CONTEXT]
      omega
    simp only [Trap.work, Option.map_some, Procs.work, h.procp, hcontext, hsum]
    rw [List.map_congr_left fun tf htf => by rw [hdecode tf htf]]
    rfl

/-- A trap stores to the stack only. -/
theorem entered_step {regs : Regs} (h : Good K s)
    (hallowed : Allowed (K.tables (s.kstack s.procp)) s.running e)
    (hr : (trapMachine (K.tables (s.kstack s.procp))).step s.running e = some r)
    (hc : e.suspended s.st.regs = some regs)
    (hroom : s.kstack s.procp + 80 ≤ (top (K.tables (s.kstack s.procp)) s.st.regs).toNat) :
    (r.frames ≠ [] → s.kstack s.procp ≤ r.st.regs.esp.toNat) ∧ s.Spared K r.st.mem := by
  obtain ⟨-, htop, n, tf, hentered⟩ := h.running.entered hallowed hr hc
  have hle := h.top_le
  have hstack := hentered.stack
  have hsum := hentered.top
  have hesp := hentered.esp
  have hsize := size_le regs
  have htop' : top (K.tables (s.kstack s.procp)) regs = top (K.tables (s.kstack s.procp)) s.st.regs := htop
  simp only [htop'] at hstack hsum
  constructor
  · intro _
    omega
  · apply h.spared_stack
    intro x hx
    exact hstack x (by omega)

/-- A return stores nothing. -/
theorem resumed_step (h : Good K s) (he : e = .ret ∨ e = .start)
    (hallowed : Allowed (K.tables (s.kstack s.procp)) s.running e)
    (hr : (trapMachine (K.tables (s.kstack s.procp))).step s.running e = some r) :
    (r.frames ≠ [] → s.kstack s.procp ≤ r.st.regs.esp.toNat) ∧ s.Spared K r.st.mem := by
  have hresumed := h.running.resume he hallowed hr
  have hmem : r.st.mem = s.st.mem := hresumed.mem
  refine ⟨fun hne => ?_, fun _ _ x _ _ => congrFun hmem x⟩
  have hle : s.st.regs.esp.toNat ≤ r.st.regs.esp.toNat := hresumed.esp hne
  have hlow : s.frames s.procp ≠ [] := by
    intro hnil
    have hregs : suspended s.running = r.st.regs :: suspended r := hresumed.regs
    rw [suspended, Procs.running, hnil] at hregs
    cases hregs
  exact (h.low hlow).trans hle

variable [DecidableEq ι]

/-- A step of the process that runs. -/
theorem own (h : Good K s) (hI : Inv (K.tables (s.kstack s.procp)) r)
    (hlow : r.frames ≠ [] → s.kstack s.procp ≤ r.st.regs.esp.toNat) (hm : s.Spared K r.st.mem) :
    Good K { s with st := r.st, frames := Function.update s.frames s.procp r.frames } := by
  have hne : ∀ p c, s.parked p = some c → Function.update s.frames s.procp r.frames p = s.frames p :=
    fun p c hp => Function.update_of_ne (h.ne_procp hp) _ _
  constructor
  · simp only [Procs.running, Function.update_self]
    exact hI
  · simp only [Function.update_self]
    exact hlow
  · exact h.procp
  · intro p hp
    have hother : p ≠ s.procp := fun heq => hp (.inl heq)
    simp only [Function.update_of_ne hother]
    exact h.dead p hp
  · intro p c hp
    simp only [hne p c hp]
    exact (h.waiting hm hp).1
  · exact h.disjoint
  · exact h.cells
  · exact h.bound

theorem own_step (h : Good K s) (hok : Fine K s (.own p e))
    (hr : (trapMachine (K.tables (s.kstack s.procp))).step s.running e = some r) :
    Good K { s with st := r.st, frames := Function.update s.frames s.procp r.frames } ∧
      s.Spared K r.st.mem := by
  obtain ⟨-, hallowed, hextra⟩ := hok
  obtain ⟨hI, -⟩ := refines_works _ _ _ h.running hallowed hr
  have hboth : (r.frames ≠ [] → s.kstack s.procp ≤ r.st.regs.esp.toNat) ∧ s.Spared K r.st.mem := by
    cases e with
    | run st =>
        obtain rfl := Option.some.inj hr
        exact ⟨hextra.2, hextra.1⟩
    | trap n err => exact h.entered_step hallowed hr rfl hextra
    | int n => exact h.entered_step hallowed hr rfl hextra
    | edit m =>
        obtain rfl := Option.some.inj hr
        exact ⟨h.low, hextra⟩
    | ret => exact h.resumed_step (.inl rfl) hallowed hr
    | start => exact h.resumed_step (.inr rfl) hallowed hr
  exact ⟨h.own hI hboth.1 hboth.2, hboth.2⟩

/-! ## New processes, and old ones -/

/-- A new process. -/
theorem add (h : Good K s) (hq : ¬ s.Live q) (hk : k + STACKSIZE < 2 ^ 32)
    (hbeside : ∀ p, s.Live p → Beside k (s.kstack p) STACKSIZE ∧ Beside k (K.context p) 4 ∧
      Beside (s.kstack p) (K.context q) 4)
    (hown : Beside k (K.context q) 4) (hparked : Parked K q k frames s.st.mem c) :
    Good K { s with
      kstack := Function.update s.kstack q k
      frames := Function.update s.frames q frames
      parked := Function.update s.parked q (some c) } := by
  have hne : ∀ p, s.Live p → p ≠ q := by
    rintro p hp rfl
    exact hq hp
  have hprocp := hne s.procp (.inl rfl)
  have hlive : ∀ p, Procs.Live { s with
      kstack := Function.update s.kstack q k
      frames := Function.update s.frames q frames
      parked := Function.update s.parked q (some c) } p → p = q ∨ s.Live p := by
    rintro p (hp | ⟨c', hp⟩)
    · exact .inr (.inl hp)
    · by_cases heq : p = q
      · exact .inl heq
      · simp only [Function.update_of_ne heq] at hp
        exact .inr (.inr ⟨c', hp⟩)
  constructor
  · simp only [Procs.running, Function.update_of_ne hprocp]
    exact h.running
  · simp only [Function.update_of_ne hprocp]
    exact h.low
  · simp only [Function.update_of_ne hprocp]
    exact h.procp
  · intro p hp
    have heq : p ≠ q := by
      rintro rfl
      exact hp (.inr ⟨c, Function.update_self ..⟩)
    simp only [Function.update_of_ne heq]
    apply h.dead
    rintro (hp' | ⟨c', hp'⟩)
    · exact hp (.inl hp')
    · exact hp (.inr ⟨c', (Function.update_of_ne heq _ _).trans hp'⟩)
  · intro p c' hp
    by_cases heq : p = q
    · subst heq
      simp only [Function.update_self, Option.some.injEq] at hp ⊢
      exact hp ▸ hparked
    · simp only [Function.update_of_ne heq] at hp ⊢
      exact h.parked p c' hp
  · intro p p' hp hp' hdiff
    rcases hlive p hp with rfl | hlp
    · rcases hlive p' hp' with rfl | hlp'
      · exact absurd rfl hdiff
      · simp only [Function.update_self, Function.update_of_ne (hne p' hlp')]
        exact (hbeside p' hlp').1
    · rcases hlive p' hp' with rfl | hlp'
      · simp only [Function.update_self, Function.update_of_ne (hne p hlp)]
        exact (hbeside p hlp).1.symm
      · simp only [Function.update_of_ne (hne p hlp), Function.update_of_ne (hne p' hlp')]
        exact h.disjoint p p' hlp hlp' hdiff
  · intro p p' hp hp'
    rcases hlive p hp with rfl | hlp
    · simp only [Function.update_self]
      rcases hlive p' hp' with rfl | hlp'
      · exact hown
      · exact (hbeside p' hlp').2.1
    · simp only [Function.update_of_ne (hne p hlp)]
      rcases hlive p' hp' with rfl | hlp'
      · exact (hbeside p hlp).2.2
      · exact h.cells p p' hlp hlp'
  · intro p hp
    rcases hlive p hp with rfl | hlp
    · simp only [Function.update_self]
      exact hk
    · simp only [Function.update_of_ne (hne p hlp)]
      exact h.bound p hlp

/-- A process that is freed. -/
theorem remove (h : Good K s) (hq : q ≠ s.procp) : Good K { s with
    frames := Function.update s.frames q []
    parked := Function.update s.parked q none } := by
  have hlive : ∀ p, Procs.Live { s with
      frames := Function.update s.frames q []
      parked := Function.update s.parked q none } p → p ≠ q ∧ s.Live p := by
    rintro p (hp | ⟨c, hp⟩)
    · exact ⟨fun heq => hq (heq.symm.trans hp), .inl hp⟩
    · by_cases heq : p = q
      · subst heq
        simp only [Function.update_self] at hp
        cases hp
      · simp only [Function.update_of_ne heq] at hp
        exact ⟨heq, .inr ⟨c, hp⟩⟩
  constructor
  · simp only [Procs.running, Function.update_of_ne hq.symm]
    exact h.running
  · simp only [Function.update_of_ne hq.symm]
    exact h.low
  · simp only [Function.update_of_ne hq.symm]
    exact h.procp
  · intro p hp
    by_cases heq : p = q
    · subst heq
      exact Function.update_self ..
    · simp only [Function.update_of_ne heq]
      apply h.dead
      rintro (hp' | ⟨c, hp'⟩)
      · exact hp (.inl hp')
      · exact hp (.inr ⟨c, (Function.update_of_ne heq _ _).trans hp'⟩)
  · intro p c hp
    by_cases heq : p = q
    · subst heq
      simp only [Function.update_self] at hp
      cases hp
    · simp only [Function.update_of_ne heq] at hp ⊢
      exact h.parked p c hp
  · exact fun p p' hp hp' => h.disjoint p p' (hlive p hp).2 (hlive p' hp').2
  · exact fun p p' hp hp' => h.cells p p' (hlive p hp).2 (hlive p' hp').2
  · exact fun p hp => h.bound p (hlive p hp).2

/-! ## Calls of `swtch` -/

/-- The state after a call of `swtch`. -/
theorem swtch (h : Good K s) (hc : Calls K s q c) : Good K { s with
    st := run K.ts s.st swtch
    procp := q
    parked := Function.update (Function.update s.parked q none) s.procp
      (some (s.st.regs.esp.toNat - 16)) } := by
  obtain ⟨r, hcs, hss, hrun⟩ := h.run_swtch hc
  have hne := h.ne_procp hc.other
  have hlive := Procs.live_of_parked hc.other
  have hspared := h.spared_left hc
  obtain ⟨hparked, -⟩ := h.waiting hspared hc.other
  have hlt := h.context_lt hc.other
  have hbound := h.bound q hlive
  obtain ⟨tf₀, htf₀, -⟩ := hc.below
  obtain ⟨hkernel, -⟩ := h.running.kernel tf₀ htf₀
  have hesp : (BitVec.ofNat 32 (c + CONTEXT)).toNat = c + CONTEXT := by
    rw [BitVec.toNat_ofNat, Nat.mod_eq_of_lt (by omega)]
  have hlives : ∀ p, Procs.Live { s with
      st := run K.ts s.st Trap.swtch
      procp := q
      parked := Function.update (Function.update s.parked q none) s.procp
        (some (s.st.regs.esp.toNat - 16)) } p → s.Live p := by
    rintro p (rfl | ⟨c', hp⟩)
    · exact hlive
    · by_cases hp₁ : p = s.procp
      · exact .inl hp₁
      · by_cases hp₂ : p = q
        · exact hp₂ ▸ hlive
        · simp only [Function.update_of_ne hp₁, Function.update_of_ne hp₂] at hp
          exact .inr ⟨c', hp⟩
  rw [hrun] at hlives ⊢
  constructor
  · refine ⟨fun hnil => absurd hnil hparked.ne, fun tf htf => ⟨⟨?_, ?_⟩, ?_⟩, hparked.pending⟩
    · have hcpl : rpl s.st.regs.cs = 0 := hkernel.cpl
      rw [← hcs] at hcpl
      exact hcpl
    · exact hss.trans hkernel.ss
    · have hbelow := hparked.below tf htf
      exact hesp.trans_le hbelow
  · intro _
    have hlow := hparked.low
    simp only [Regs.goOn, hesp]
    omega
  · simp only [Function.update_of_ne hne, Function.update_self]
  · intro p hp
    apply h.dead
    rintro (rfl | ⟨c', hp'⟩)
    · exact hp (.inr ⟨_, Function.update_self ..⟩)
    · by_cases hp₂ : p = q
      · exact hp (.inl hp₂)
      · have hp₁ := h.ne_procp hp'
        refine hp (.inr ⟨c', ?_⟩)
        simp only [Function.update_of_ne hp₁, Function.update_of_ne hp₂]
        exact hp'
  · intro p c' hp
    by_cases hp₁ : p = s.procp
    · subst hp₁
      simp only [Function.update_self, Option.some.injEq] at hp
      exact hp ▸ (h.caller hc).1
    · by_cases hp₂ : p = q
      · subst hp₂
        simp only [Function.update_of_ne hp₁, Function.update_self] at hp
        cases hp
      · simp only [Function.update_of_ne hp₁, Function.update_of_ne hp₂] at hp
        exact (h.waiting hspared hp).1
  · exact fun p p' hp hp' => h.disjoint p p' (hlives p hp) (hlives p' hp')
  · exact fun p p' hp hp' => h.cells p p' (hlives p hp) (hlives p' hp')
  · exact fun p hp => h.bound p (hlives p hp)

end Good

/-- The first program runs, and there is no other process. -/
structure First (K : Processor ι) (s : Procs ι) : Prop where
  user : UserRegs K.ts s.st.regs
  frames : ∀ p, s.frames p = []
  parked : ∀ p, s.parked p = none
  cell : Beside (s.kstack s.procp) (K.context s.procp) 4
  bound : s.kstack s.procp + STACKSIZE < 2 ^ 32

theorem First.good (h : First K s) : Good K s := by
  have hlive : ∀ p, s.Live p → p = s.procp := by
    rintro p (hp | ⟨c, hp⟩)
    · exact hp
    · rw [h.parked p] at hp
      cases hp
  constructor
  · exact .of_user (h.frames s.procp) h.user
  · exact fun hne => absurd (h.frames s.procp) hne
  · exact h.parked s.procp
  · exact fun p _ => h.frames p
  · intro p c hp
    rw [h.parked p] at hp
    cases hp
  · exact fun p q hp hq hne => absurd ((hlive p hp).trans (hlive q hq).symm) hne
  · intro p q hp hq
    rw [hlive p hp, hlive q hq]
    exact h.cell
  · intro p hp
    rw [hlive p hp]
    exact h.bound

end Mixv6.Kernel.Trap
