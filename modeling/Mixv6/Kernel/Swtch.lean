import Mixv6.Kernel.Cli
import Mixv6.Kernel.Sched
import Mixv6.Lib.Machine

/-!
# The context switch

`sched` stores the next process in `user.procp` inside a `cli` section, but `swtch`
exchanges the stacks only after `popcli` has ended that section.  This module follows
the two apart: `user.procp`, the process whose kernel stack the processor is running
on, and the stack pointer saved in the context of every other process.

The kernel stack of a process is the list of calls in progress on it, innermost first.
A saved context is a stack pointer: a stack, and how many frames lie on it there.
The `cli` section of `sched` is one step, then `swtch` stores the old stack pointer,
then it loads the new one.  A timer interrupt may come at every step that finds
interrupts enabled.

## Main definitions

* `SwSt`, `swMachine` — the processor, the stacks and the saved contexts.
* `SwitchOk` — every switch leaves the stack of the process it saves.
* `switch_ok` — it holds in every run without a switch inside a switch.
-/

namespace Mixv6.Kernel

open Mixv6.Lib

/-- A call in progress on a kernel stack. -/
inductive Frame
  /-- The process itself, in user mode or in a system call. -/
  | code
  /-- The loop `while (user.procp->wchan) sched();` of `sleep`. -/
  | sleep
  /-- `sys_exit` before its call of `sched`. -/
  | exiting
  /-- `sys_exit` after its call of `sched`, at `panic("zombie exit")`. -/
  | exit
  /-- `trap` after its call of `sched` for the timer, about to return by `iret`. -/
  | timer
  /-- `trapret` on the handmade stack of a new process. -/
  | trapret
  /-- `sched` past its `popcli`, at `swtch(&old->context, new->context)`. -/
  | swtch (old new : Slot)
  /-- `swtch` past the store of the old stack pointer. -/
  | load (new : Slot)
  deriving DecidableEq, Repr

/-- The frame belongs to a switch that is not finished. -/
def Frame.switching : Frame → Bool
  | .swtch .. | .load _ => true
  | _ => false

/-- The processor, the process table and the kernel stacks.  `left` records what no
code reads: the frames a process had on its own stack when it last gave up the
processor. -/
structure SwSt where
  tab : ProcTab Slot ℕ
  /-- `user.procp`. -/
  procp : Slot
  /-- `user.sched`. -/
  sched : ℕ
  cli : Cli
  /-- The process on whose kernel stack the processor is running. -/
  live : Slot
  stack : Slot → List Frame
  context : Slot → Slot × ℕ
  left : Slot → List Frame

namespace SwSt

/-- Process `p` is running its own code; every other process is new, with the stack
that `palloc` makes. -/
def init (tab : ProcTab Slot ℕ) (p : Slot) : SwSt where
  tab := tab
  procp := p
  sched := 0
  cli := .idle true
  live := p
  stack q := if q = p then [.code] else [.trapret]
  context q := (q, 1)
  left _ := [.trapret]

/-- Replace the calls in progress on the live stack. -/
def setFrames (s : SwSt) (frames : List Frame) : SwSt :=
  { s with stack := Function.update s.stack s.live frames }

/-- The frames found on the stack that a saved context points to. -/
def resume (s : SwSt) (context : Slot × ℕ) : List Frame :=
  (s.stack context.1).drop ((s.stack context.1).length - context.2)

/-- The `cli` section of `sched`, called from the innermost of the frames `caller`.
`switchuvm` has a section of its own inside. -/
def callSched (s : SwSt) (caller : List Frame) : Option SwSt :=
  match pick s.tab.stat s.procp s.sched with
  | (.stay, sched) =>
      s.cli.pushcli.popcli.map fun cli => { s.setFrames caller with sched, cli }
  | (.switch newproc, sched) =>
      (s.cli.pushcli.pushcli.popcli.bind Cli.popcli).map fun cli =>
        { s.setFrames (.swtch s.procp newproc :: caller) with sched, cli, procp := newproc }
  | (.panic, _) => none

/-- What can happen next on the processor. -/
inductive Event
  /-- The innermost call on the live stack goes on. -/
  | exec
  /-- The process calls `sleep(wchan)`. -/
  | sleep (wchan : ℕ)
  /-- The process calls `sys_exit`. -/
  | exit
  /-- `wakeup(wchan)`, by the running process or by a device interrupt. -/
  | wakeup (wchan : ℕ)
  /-- A timer interrupt of the kind that calls `sched`. -/
  | tick

/-- The innermost call on the live stack goes on. -/
def exec (s : SwSt) : Option SwSt :=
  match s.stack s.live with
  | .code :: _ => some { s with cli.intf := true }  -- a system call returns by `iret`
  | .sleep :: rest =>
      if s.tab.wchan s.procp = none then some (s.setFrames rest)
      else s.callSched (.sleep :: rest)
  | .exiting :: rest => s.callSched (.exit :: rest)
  | .timer :: rest => some { s.setFrames rest with cli.intf := true }
  | .trapret :: rest => some { s.setFrames (.code :: rest) with cli.intf := true }
  | .swtch old newproc :: rest =>
      some { s.setFrames (.load newproc :: rest) with
        context := Function.update s.context old (s.live, rest.length)
        left := Function.update s.left s.live rest }
  | .load newproc :: rest =>
      let s := s.setFrames rest
      let frames := s.resume (s.context newproc)
      some ({ s with live := (s.context newproc).1 }.setFrames frames)
  | _ => none

/-- One step of the processor. -/
def step (s : SwSt) : Event → Option SwSt
  | .exec => s.exec
  | .sleep wchan =>
      match s.stack s.live with
      | .code :: rest =>
          some { s.setFrames (.sleep :: .code :: rest) with tab := s.tab.sleep s.procp wchan }
      | _ => none
  | .exit =>
      match s.stack s.live with
      | .code :: rest =>
          some { s.setFrames (.exiting :: .code :: rest) with
            tab.stat := Function.update s.tab.stat s.procp .ZOMB }
      | _ => none
  | .wakeup wchan => some { s with tab := s.tab.wakeup (some wchan) }
  | .tick =>
      -- The interrupt gate clears the flag; `iret` sets it again.
      if s.cli.intf then
        { s with cli.intf := false }.callSched (.timer :: s.stack s.live)
      else none

end SwSt

/-- The processor as a machine. -/
def swMachine : Machine SwSt SwSt.Event := ⟨SwSt.step⟩

/-- Every switch leaves the kernel stack of the process whose context it saves, and the
context of every process that is not executing is a pointer into its own kernel stack,
where it finds the frames it left there. -/
structure SwitchOk (s : SwSt) : Prop where
  leaves_old : ∀ old newproc rest, s.stack s.live = .swtch old newproc :: rest → s.live = old
  context_own : ∀ p, p ≠ s.live → (s.context p).1 = p
  resumes : ∀ p, p ≠ s.live → s.resume (s.context p) = s.left p

/-- A timer tick that lands inside an unfinished switch finds nothing to switch to. -/
def SafeTick (s : SwSt) : SwSt.Event → Prop
  | .tick =>
      (s.stack s.live).head?.any Frame.switching →
        (pick s.tab.stat s.procp s.sched).1 = .stay
  | _ => True

instance : ∀ s e, Decidable (SafeTick s e)
  | _, .tick => inferInstanceAs (Decidable (_ → _))
  | _, .exec | _, .sleep _ | _, .exit | _, .wakeup _ => .isTrue trivial

/-! ## The invariant -/

/-- No switch is in progress among the frames. -/
def Quiet (frames : List Frame) : Prop := ∀ f ∈ frames, f.switching = false

/-- The process is off the processor and its context is where it left its stack. -/
structure Settled (s : SwSt) (p : Slot) : Prop where
  context : s.context p = (p, (s.stack p).length)
  left : s.left p = s.stack p
  quiet : Quiet (s.stack p)

/-- The live stack `frames` is inside the switch that leaves it, which is the only one. -/
inductive Switching (s : SwSt) : List Frame → Prop
  /-- `user.procp` is the new process, nothing is saved yet. -/
  | swtch (rest : List Frame) : Quiet rest → s.procp ≠ s.live →
      Switching s (.swtch s.live s.procp :: rest)
  /-- The old process is saved. -/
  | load (rest : List Frame) : Quiet rest → s.procp ≠ s.live →
      s.context s.live = (s.live, rest.length) → s.left s.live = rest →
      Switching s (.load s.procp :: rest)

/-- The three ways the live stack can look. -/
inductive LiveStack (s : SwSt) : Prop
  /-- No switch is in progress and the running process is `user.procp`. -/
  | steady : s.procp = s.live → Quiet (s.stack s.live) → LiveStack s
  /-- A switch is in progress. -/
  | switching : Switching s (s.stack s.live) → LiveStack s
  /-- A tick inside a switch found nothing to do and is about to return. -/
  | interrupted (frames : List Frame) : s.stack s.live = .timer :: frames →
      s.cli.intf = false → Switching s frames → LiveStack s

/-- What the processor is doing, and that all other processes are at rest. -/
structure SwInv (s : SwSt) : Prop where
  idle : s.cli = .idle s.cli.intf
  settled : ∀ p, p ≠ s.live → Settled s p
  live : LiveStack s

/-- A switch in progress is a matter of these four fields. -/
theorem Switching.congr {s s' : SwSt} {frames : List Frame} (h : Switching s frames)
    (hlive : s'.live = s.live) (hprocp : s'.procp = s.procp)
    (hcontext : s'.context = s.context) (hleft : s'.left = s.left) : Switching s' frames := by
  cases h with
  | swtch rest hq hne =>
      rw [← hlive, ← hprocp] at hne ⊢
      exact .swtch rest hq hne
  | load rest hq hne hctx hl =>
      rw [← hlive, ← hprocp] at hne
      rw [← hprocp]
      exact .load rest hq hne (by rw [hlive, hcontext, hctx]) (by rw [hlive, hleft, hl])

namespace SwInv
variable {s s' : SwSt}

theorem init (tab : ProcTab Slot ℕ) (p : Slot) : SwInv (.init tab p) where
  idle := rfl
  settled q hq := by
    have hq : q ≠ p := hq
    refine ⟨?_, ?_, ?_⟩ <;> simp [SwSt.init, hq, Quiet, Frame.switching]
  live := .steady rfl (by simp [SwSt.init, Quiet, Frame.switching])

/-- The invariant gives the property. -/
theorem switchOk (h : SwInv s) : SwitchOk s where
  leaves_old old newproc rest hst := by
    have hmem : ∀ frames, s.stack s.live = frames → Frame.swtch old newproc ∈ frames :=
      fun frames hf => by rw [← hf, hst]; simp
    cases h.live with
    | steady _ hq => exact absurd (hq _ (hmem _ rfl)) (by simp [Frame.switching])
    | switching hsw =>
        rw [hst] at hsw
        cases hsw
        rfl
    | interrupted frames hf _ _ => rw [hst] at hf; cases hf
  context_own p hp := by rw [(h.settled p hp).context]
  resumes p hp := by simp [SwSt.resume, (h.settled p hp).context, (h.settled p hp).left]

/-- A step that only moves along the live stack keeps every other process settled. -/
theorem settled_of_eq (h : SwInv s) (hlive : s'.live = s.live)
    (hstack : ∀ p, p ≠ s.live → s'.stack p = s.stack p)
    (hcontext : ∀ p, p ≠ s.live → s'.context p = s.context p)
    (hleft : ∀ p, p ≠ s.live → s'.left p = s.left p) : ∀ p, p ≠ s'.live → Settled s' p := by
  intro p hp
  rw [hlive] at hp
  have hs := h.settled p hp
  exact ⟨by rw [hcontext p hp, hstack p hp, hs.context], by rw [hleft p hp, hstack p hp, hs.left],
    by rw [hstack p hp]; exact hs.quiet⟩

/-- A step that rearranges the frames of a live stack without a switch in it. -/
theorem steady_step (h : SwInv s) (hp : s.procp = s.live) {frames : List Frame}
    (hq : Quiet frames) (tab : ProcTab Slot ℕ) (intf : Bool) (sched : ℕ) :
    SwInv { s.setFrames frames with tab, cli := .idle intf, sched } where
  idle := rfl
  settled := h.settled_of_eq rfl (fun p hne => Function.update_of_ne hne ..)
    (fun _ _ => rfl) (fun _ _ => rfl)
  live := .steady hp (by simpa [SwSt.setFrames] using hq)

/-- **The `cli` section of `sched`** starts a switch or returns to its caller. -/
theorem callSched (h : SwInv s) (hp : s.procp = s.live) {caller : List Frame}
    (hq : Quiet caller) (intf : Bool)
    (hstep : SwSt.callSched { s with cli := .idle intf } caller = some s') : SwInv s' := by
  unfold SwSt.callSched at hstep
  have hinner : (Cli.idle intf).pushcli.pushcli.popcli = some (Cli.idle intf).pushcli :=
    Cli.popcli_pushcli_inner rfl (by simp [Cli.pushcli, Cli.idle]) (by simp [Cli.pushcli, Cli.idle])
  rcases hpick : pick s.tab.stat s.procp s.sched with ⟨_ | newproc | _, sched⟩
  · simp only [hpick, Cli.popcli_pushcli_idle, Option.map_some, Option.some.injEq] at hstep
    subst hstep
    exact h.steady_step hp hq s.tab intf sched
  · simp only [hpick, hinner, Option.bind_some, Cli.popcli_pushcli_idle, Option.map_some,
      Option.some.injEq] at hstep
    subst hstep
    refine ⟨rfl, ?_, .switching ?_⟩
    · exact h.settled_of_eq rfl (fun p hne => Function.update_of_ne hne ..)
        (fun _ _ => rfl) (fun _ _ => rfl)
    · have hne : newproc ≠ s.live := hp ▸ pick_ne hpick
      simp only [SwSt.setFrames, Function.update_self, hp]
      exact .swtch caller hq hne
  · simp [hpick] at hstep

/-- The first half of `swtch` saves the stack pointer of the old process. -/
theorem save (h : SwInv s) {old newproc : Slot} {rest : List Frame}
    (hst : s.stack s.live = .swtch old newproc :: rest) (hsw : Switching s (s.stack s.live)) :
    SwInv { s.setFrames (.load newproc :: rest) with
      context := Function.update s.context old (s.live, rest.length)
      left := Function.update s.left s.live rest } := by
  rw [hst] at hsw
  cases hsw with
  | swtch _ hq hne =>
      refine ⟨h.idle, ?_, .switching ?_⟩
      · exact h.settled_of_eq rfl (fun p hp => Function.update_of_ne hp ..)
          (fun p hp => Function.update_of_ne hp ..) (fun p hp => Function.update_of_ne hp ..)
      · simp only [SwSt.setFrames, Function.update_self]
        exact .load rest hq hne (by simp) (by simp)

/-- The second half of `swtch` continues the new process where it left off. -/
theorem load (h : SwInv s) {newproc : Slot} {rest : List Frame}
    (hst : s.stack s.live = .load newproc :: rest) (hsw : Switching s (s.stack s.live)) :
    SwInv ({ s.setFrames rest with live := (s.context newproc).1 }.setFrames
      ((s.setFrames rest).resume (s.context newproc))) := by
  rw [hst] at hsw
  cases hsw with
  | load _ hq hne hctx hleft =>
      have hnew := h.settled s.procp hne
      have hframes : (s.setFrames rest).resume (s.context s.procp) = s.stack s.procp := by
        simp [SwSt.resume, SwSt.setFrames, hnew.context, Function.update_of_ne hne]
      rw [hframes, hnew.context]
      have hstack : ∀ p, p ≠ s.live → Function.update (Function.update s.stack s.live rest)
          s.procp (s.stack s.procp) p = s.stack p := by
        intro p hp
        by_cases hpn : p = s.procp
        · subst hpn; simp
        · rw [Function.update_of_ne hpn, Function.update_of_ne hp]
      refine ⟨h.idle, ?_, .steady rfl ?_⟩
      · intro p hp
        by_cases hpl : p = s.live
        · -- The process that has just been left.
          subst hpl
          constructor <;> simp [SwSt.setFrames, Function.update_of_ne hne.symm, hctx, hleft, hq]
        · have hs := h.settled p hpl
          constructor <;> simp [SwSt.setFrames, hstack p hpl, hs.context, hs.left, hs.quiet]
      · simpa [SwSt.setFrames] using hnew.quiet

theorem quiet_cons {f : Frame} {rest : List Frame} (hf : f.switching = false)
    (h : Quiet rest) : Quiet (f :: rest) := by
  intro g hg
  rcases List.mem_cons.mp hg with rfl | hg
  · exact hf
  · exact h g hg

/-- `wakeup` changes nothing a switch depends on. -/
theorem retab (h : SwInv s) (tab : ProcTab Slot ℕ) : SwInv { s with tab } where
  idle := h.idle
  settled p hp := ⟨(h.settled p hp).context, (h.settled p hp).left, (h.settled p hp).quiet⟩
  live := by
    cases h.live with
    | steady hp hq => exact .steady hp hq
    | switching hsw => exact .switching (hsw.congr rfl rfl rfl rfl)
    | interrupted frames hst hif hsw =>
        exact .interrupted frames hst hif (hsw.congr rfl rfl rfl rfl)

/-- Outside a switch the innermost call goes on. -/
theorem exec_steady (h : SwInv s) (hp : s.procp = s.live) (hq : Quiet (s.stack s.live))
    (hstep : s.exec = some s') : SwInv s' := by
  have hsched : ∀ caller, Quiet caller → s.callSched caller = some s' → SwInv s' := by
    intro caller hcaller hstep
    refine h.callSched hp hcaller s.cli.intf ?_
    rwa [← h.idle]
  have hset : ∀ (frames : List Frame) (intf : Bool), Quiet frames →
      SwInv { s.setFrames frames with cli.intf := intf } := by
    intro frames intf hframes
    have := h.steady_step hp hframes s.tab intf s.sched
    rwa [show Cli.idle intf = { s.cli with intf } by rw [h.idle]; rfl] at this
  unfold SwSt.exec at hstep
  rcases hst : s.stack s.live with _ | ⟨f, rest⟩
  · simp [hst] at hstep
  have hrest : Quiet rest := fun g hg => hq g (by rw [hst]; exact List.mem_cons_of_mem f hg)
  have hf : f.switching = false := hq f (by rw [hst]; simp)
  cases f with
  | code =>
      simp only [hst, Option.some.injEq] at hstep
      have hself : s.setFrames (s.stack s.live) = s := by simp [SwSt.setFrames]
      have := hset _ true hq
      rw [hself] at this
      exact hstep ▸ this
  | sleep =>
      simp only [hst] at hstep
      split at hstep
      · obtain rfl : s.setFrames rest = s' := by simpa using hstep
        exact hset rest s.cli.intf hrest
      · exact hsched _ (quiet_cons rfl hrest) hstep
  | exiting =>
      simp only [hst] at hstep
      exact hsched _ (quiet_cons rfl hrest) hstep
  | exit => simp [hst] at hstep
  | timer =>
      simp only [hst, Option.some.injEq] at hstep
      exact hstep ▸ hset rest true hrest
  | trapret =>
      simp only [hst, Option.some.injEq] at hstep
      exact hstep ▸ hset _ true (quiet_cons rfl hrest)
  | swtch => cases hf
  | load => cases hf

/-- Inside a switch the switch goes on. -/
theorem exec_switching (h : SwInv s) (hsw : Switching s (s.stack s.live))
    (hstep : s.exec = some s') : SwInv s' := by
  unfold SwSt.exec at hstep
  rcases hst : s.stack s.live with _ | ⟨f, rest⟩
  · simp [hst] at hstep
  cases f with
  | swtch old newproc =>
      simp only [hst, Option.some.injEq] at hstep
      exact hstep ▸ h.save hst hsw
  | load newproc =>
      simp only [hst, Option.some.injEq] at hstep
      exact hstep ▸ h.load hst hsw
  | _ => rw [hst] at hsw; cases hsw

/-- The tick inside a switch returns to it. -/
theorem exec_interrupted (h : SwInv s) {frames : List Frame}
    (hst : s.stack s.live = .timer :: frames) (hsw : Switching s frames)
    (hstep : s.exec = some s') : SwInv s' := by
  unfold SwSt.exec at hstep
  simp only [hst, Option.some.injEq] at hstep
  subst hstep
  refine ⟨congrArg (fun c : Cli => { c with intf := true }) h.idle, ?_, .switching ?_⟩
  · exact h.settled_of_eq rfl (fun p hne => Function.update_of_ne hne ..)
      (fun _ _ => rfl) (fun _ _ => rfl)
  · have hcongr : Switching { s.setFrames frames with cli.intf := true } frames :=
      hsw.congr rfl rfl rfl rfl
    simpa [SwSt.setFrames] using hcongr

/-- A tick inside a switch that finds nothing to switch to. -/
theorem tick_switching (h : SwInv s) (hsw : Switching s (s.stack s.live))
    (hstay : (pick s.tab.stat s.procp s.sched).1 = .stay)
    (hstep : SwSt.callSched { s with cli := .idle false } (.timer :: s.stack s.live) = some s') :
    SwInv s' := by
  rcases hpick : pick s.tab.stat s.procp s.sched with ⟨d, sched⟩
  obtain rfl : d = .stay := by rw [hpick] at hstay; exact hstay
  simp only [SwSt.callSched, hpick, Cli.popcli_pushcli_idle, Option.map_some,
    Option.some.injEq] at hstep
  subst hstep
  refine ⟨rfl, ?_, .interrupted (s.stack s.live) (by simp [SwSt.setFrames]) rfl ?_⟩
  · exact h.settled_of_eq rfl (fun p hne => Function.update_of_ne hne ..)
      (fun _ _ => rfl) (fun _ _ => rfl)
  · exact hsw.congr rfl rfl rfl rfl

/-- The innermost frame of a stack inside a switch is a frame of that switch. -/
theorem switching_head {frames : List Frame} (hsw : Switching s frames) :
    frames.head?.any Frame.switching := by
  cases hsw <;> rfl

/-- A call of a blocking routine is made by the process itself, outside any switch. -/
theorem steady_of_code (h : SwInv s) {rest : List Frame}
    (hst : s.stack s.live = .code :: rest) : s.procp = s.live ∧ Quiet (s.stack s.live) := by
  cases h.live with
  | steady hp hq => exact ⟨hp, hq⟩
  | switching hsw => rw [hst] at hsw; cases hsw
  | interrupted frames hf _ _ => rw [hst] at hf; cases hf

/-- **One step** of the processor. -/
theorem step {e : SwSt.Event} (h : SwInv s) (hok : SafeTick s e) (hstep : s.step e = some s') :
    SwInv s' := by
  have hcode : ∀ (f : Frame) (rest : List Frame) (tab : ProcTab Slot ℕ), f.switching = false →
      s.stack s.live = .code :: rest → SwInv { s.setFrames (f :: .code :: rest) with tab } := by
    intro f rest tab hf hst
    obtain ⟨hp, hq⟩ := h.steady_of_code hst
    have := h.steady_step hp (quiet_cons hf (hst ▸ hq)) tab s.cli.intf s.sched
    rwa [← h.idle] at this
  cases e with
  | exec =>
      cases h.live with
      | steady hp hq => exact h.exec_steady hp hq hstep
      | switching hsw => exact h.exec_switching hsw hstep
      | interrupted frames hst _ hsw => exact h.exec_interrupted hst hsw hstep
  | sleep wchan =>
      simp only [SwSt.step] at hstep
      split at hstep
      next rest hst => exact Option.some.inj hstep ▸ hcode .sleep rest _ rfl hst
      next => cases hstep
  | exit =>
      simp only [SwSt.step] at hstep
      split at hstep
      next rest hst => exact Option.some.inj hstep ▸ hcode .exiting rest _ rfl hst
      next => cases hstep
  | wakeup wchan => exact Option.some.inj hstep ▸ h.retab _
  | tick =>
      simp only [SwSt.step, Option.ite_none_right_eq_some] at hstep
      obtain ⟨hif, hstep⟩ := hstep
      rw [show { s.cli with intf := false } = Cli.idle false by rw [h.idle]; rfl] at hstep
      cases h.live with
      | steady hp hq => exact h.callSched hp (quiet_cons rfl hq) false hstep
      | switching hsw => exact h.tick_switching hsw (hok (switching_head hsw)) hstep
      | interrupted _ _ hf _ => rw [hf] at hif; cases hif

end SwInv

/-! ## Runs -/

/-- **Switches.**  In every run whose timer ticks do not find another process to switch
to while a switch is unfinished, each switch leaves the stack of the process it saves
and every other process will resume where it left off. -/
theorem switch_ok (tab : ProcTab Slot ℕ) (p : Slot) {s : SwSt}
    (h : swMachine.Path SafeTick (.init tab p) s) : SwitchOk s :=
  (h.invariant (SwInv.init tab p) fun _ _ _ hinv hok hstep => hinv.step hok hstep).switchOk

/-! ### Processes 1, 2 and 3 -/

/-- Three runnable processes. -/
def threeRunnable : ProcTab Slot ℕ where
  stat q := if q = 1 ∨ q = 2 ∨ q = 3 then .RUN else .UNUSED
  wchan _ := none

/-- The running process sleeps and is switched away from. -/
def sleepAway (wchan : ℕ) : List SwSt.Event := [.sleep wchan, .exec, .exec, .exec]

theorem switch_ok_sleepAway :
    ∃ s, swMachine.Path SafeTick (.init threeRunnable 1) s ∧ s.live = 2 ∧ SwitchOk s := by
  obtain ⟨s, h, hlive⟩ := swMachine.exists_path_of_run SafeTick (.init threeRunnable 1)
    (sleepAway 1) (fun s => s.live = 2) (by decide +kernel)
  exact ⟨s, h, hlive, switch_ok threeRunnable 1 h⟩

/-- Process 1 sleeps again after 1, 2 and 3 have taken turns; `sched` has made 3 the
running process when a tick makes it 2. -/
def tickInSwitch : List SwSt.Event :=
  sleepAway 1 ++ [.exec] ++ sleepAway 2 ++ [.exec, .wakeup 1, .wakeup 2] ++ sleepAway 3 ++
    [.exec, .exec, .wakeup 3, .sleep 1, .exec, .tick]

/-- The nested `sched` saves the stack of process 1 as the context of process 3. -/
theorem not_switch_ok :
    ∃ s, swMachine.Reaches (.init threeRunnable 1) s ∧ s.live = 1 ∧
      (s.stack 1).head? = some (.swtch 3 2) ∧ ¬ SwitchOk s := by
  obtain ⟨s, h, hlive, hhead⟩ := swMachine.exists_path_of_run (fun _ _ => True)
    (.init threeRunnable 1) tickInSwitch
    (fun s => s.live = 1 ∧ (s.stack 1).head? = some (.swtch 3 2)) (by decide +kernel)
  refine ⟨s, h, hlive, hhead, fun hok => ?_⟩
  obtain ⟨rest, hst⟩ := List.head?_eq_some_iff.mp hhead
  have := hok.leaves_old 3 2 rest (by rw [hlive, hst])
  exact absurd (hlive.symm.trans this) (by decide)

end Mixv6.Kernel
