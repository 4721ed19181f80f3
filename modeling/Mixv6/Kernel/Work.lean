import Mixv6.Kernel.Processes

/-!
# The work of a process

The kernel stack of a process is the work that it has suspended, the last one first: the code that its
traps have interrupted, and its call of `swtch`.

## Main definitions

* `MeansTo` — what an event does to the work of a process.
* `refines_work` — the work of a process, in every run of all of them.
* `Good.waits` — a process that waits keeps its work.
-/

namespace Mixv6.Kernel.Trap

open Mixv6.Lib

variable {ι : Type} {K : Processor ι} {s t u : Procs ι} {p q : ι} {c k : ℕ}

/-! ## Runs -/

/-- What an event does to the work of process `p`. -/
def MeansTo (p : ι) : ProcEvent ι → WorkOp Work → Prop
  | .own q e, d => q = p ∧ (∃ d', Means e d' ∧ d = d'.map .frame) ∨ q ≠ p ∧ d = .rest
  | .swtch q q', d => q = p ∧ (∃ k esp, d = .suspend (.context k esp)) ∨ q' = p ∧ d = .resume ∨
      q ≠ p ∧ q' ≠ p ∧ d = .rest
  | .fork q _ _, d => q = p ∧ (∃ l, d = .begin l) ∨ q ≠ p ∧ d = .rest
  | .free q, d => q = p ∧ d = .drop ∨ q ≠ p ∧ d = .rest

theorem Good.work_procp (h : Good K s) : s.work s.procp = (suspended s.running).map .frame := by
  rw [Procs.work, h.procp, suspended, List.map_map]
  rfl

theorem Good.length_work (h : Good K s) (hp : p = s.procp) :
    (s.work p).length = (s.frames p).length := by
  rw [hp, h.work_procp, List.length_map, suspended, List.length_map]
  rfl

theorem Fine.calls {c : ℕ} (h : Good K s) (hok : Fine K s (.swtch p q)) (hc : s.parked q = some c) :
    Calls K s q c := by
  obtain ⟨rfl, -, hbelow, hroom, hold, hnew⟩ := hok
  rw [(h.parked q c hc).cell] at hnew
  exact ⟨hc, hbelow, hroom, hold, hnew⟩

/-- A process that is not there has no work. -/
theorem Good.work_dead (h : Good K s) (hp : ¬ s.Live p) : s.work p = [] := by
  have hnone : s.parked p = none := by
    cases hc : s.parked p with
    | none => rfl
    | some c => exact absurd (Procs.live_of_parked hc) hp
  rw [Procs.work, hnone, h.dead p hp]
  rfl

theorem work_of_parked (hc : s.parked p = some c) : ∃ k esp l, s.work p = .context k esp :: l := by
  rw [Procs.work, hc]
  exact ⟨_, _, _, rfl⟩

/-- A step that leaves alone the first `n` calls of `trap` of process `p`. -/
def WithinOf (p : ι) (n : ℕ) (s : Procs ι) : ProcEvent ι → Prop
  | .own q e => q = p → Within n s.running e
  | .free q => q ≠ p
  | _ => True

/-- A step that does not go on with process `p`. -/
def Away (p : ι) : ProcEvent ι → Prop
  | .swtch _ q => q ≠ p
  | .free q => q ≠ p
  | _ => True

theorem WithinOf.spares {r : Regs} {l : List Work} {d : WorkOp Work} {e : ProcEvent ι} (h : Good K s)
    (hok : Fine K s e) (hw : WithinOf p (Work.frame r :: l).length s e) (hd : MeansTo p e d) :
    Spares (.frame r :: l) (s.work p) d := by
  cases e with
  | own q e =>
      rcases hd with ⟨rfl, d', hd', rfl⟩ | ⟨-, rfl⟩
      · obtain ⟨rfl, -⟩ := hok
        have hlength : (s.work s.procp).length = s.running.frames.length := by
          rw [h.work_procp, List.length_map, suspended, List.length_map]
        have hne : (Work.frame r :: l).length < s.running.frames.length →
            s.work s.procp ≠ .frame r :: l := by
          intro hlt heq
          rw [← hlength, heq] at hlt
          exact lt_irrefl _ hlt
        have hwithin := hw rfl
        cases d' with
        | rest | suspend | begin => trivial
        | edit a =>
            cases e with
            | edit m => exact hne hwithin
            | run | trap | int | ret | start => cases hd'
        | resume =>
            cases e with
            | ret => exact hne hwithin
            | start => exact hne hwithin
            | run | trap | int | edit => cases hd'
        | drop => cases e <;> cases hd'
      · trivial
  | swtch q q' =>
      rcases hd with ⟨-, k, esp, rfl⟩ | ⟨rfl, rfl⟩ | ⟨-, -, rfl⟩
      · trivial
      · obtain ⟨c, hc⟩ := hok.2.1
        obtain ⟨k, esp, l', hwork⟩ := work_of_parked hc
        rw [hwork]
        intro heq
        cases heq
      · trivial
  | fork q k st =>
      rcases hd with ⟨-, l', rfl⟩ | ⟨-, rfl⟩
      · trivial
      · trivial
  | free q =>
      rcases hd with ⟨rfl, -⟩ | ⟨-, rfl⟩
      · exact absurd rfl hw
      · trivial

variable [DecidableEq ι] {e : ProcEvent ι} {es fs : List (ProcEvent ι)}

/-- The work after a step of the process that runs. -/
theorem Good.own_work {r : Running} {e : Event} (h : Good K s) (hok : Fine K s (.own p e))
    (hr : (trapMachine (K.tables (s.kstack s.procp))).step s.running e = some r)
    (hu : u = { s with st := r.st, frames := Function.update s.frames s.procp r.frames }) :
    (∃ d, Means e d ∧ (works Work).step (s.work p) (d.map .frame) = some (u.work p)) ∧
      ∀ q, q ≠ p → u.work q = s.work q := by
  obtain ⟨hgood, hspared⟩ := h.own_step hok hr
  obtain ⟨rfl, hallowed, -⟩ := hok
  obtain ⟨-, d, hd, hstep⟩ := Trap.refines_works _ _ _ h.running hallowed hr
  have hrunning : u.running = r := by
    rw [hu, Procs.running]
    simp only [Function.update_self]
  have hprocp : u.procp = s.procp := by rw [hu]
  rw [← hu] at hgood
  constructor
  · refine ⟨d, hd, ?_⟩
    have hwork := hgood.work_procp
    rw [hrunning, hprocp] at hwork
    rw [h.work_procp, hwork]
    exact works_map _ hstep
  · intro q hq
    rw [← h.work_eq hspared hq, Procs.work, hu]
    simp only [Function.update_of_ne hq]

theorem Good.fork {st : St} (h : Good K s) (hok : Fine K s (.fork q k st))
    (hu : (procMachine K).step s (.fork q k st) = some u) :
    Good K u ∧ s.work q = [] ∧ ∀ p, p ≠ q → u.work p = s.work p := by
  obtain ⟨hq, hk, hbeside, hown, hcell, huser, hallowed, hspared, hlow⟩ := hok
  obtain rfl := Option.some.inj hu
  let s₁ : Procs ι := { s with st, frames := Function.update s.frames s.procp s.running.frames }
  have hfine : Fine K s (.own s.procp (.run st)) := ⟨rfl, hallowed, hspared, hlow⟩
  obtain ⟨h₁, -⟩ := h.own_step hfine rfl
  obtain ⟨⟨d, hd, hstep⟩, hothers⟩ := h.own_work (u := s₁) hfine rfl rfl
  have hframes : Function.update s.frames s.procp s.running.frames = s.frames := Function.update_eq_self ..
  have hsame : ∀ p, s₁.work p = s.work p := by
    intro p
    by_cases hp : p = s.procp
    · subst hp
      cases d with
      | rest => exact (Option.some.inj hstep).symm
      | suspend | edit | resume | begin | drop => cases hd
    · exact hothers p hp
  have hparked : Parked K q k [k + STACKSIZE - TRAPFRAME] st.mem (k + STACKSIZE - TRAPFRAME - CONTEXT) := by
    refine ⟨by simp, ?_, fun tf htf => ?_, hcell, huser, ?_⟩
    · simp only [STACKSIZE, TRAPFRAME, CONTEXT]
      omega
    · obtain rfl := Option.some.inj htf
      simp only [STACKSIZE, TRAPFRAME, CONTEXT]
      omega
    · rw [esp0_tables hk]
      simp only [STACKSIZE, TRAPFRAME]
      omega
  refine ⟨?_, h.work_dead hq, fun p hp => ?_⟩
  · have hadd := h₁.add hq hk hbeside hown hparked
    simp only [hframes] at hadd
    exact hadd
  · rw [← hsame p, Procs.work, Procs.work]
    simp only [Function.update_of_ne hp, hframes, s₁]

/-- The work of the others, and of those that `swtch` changes from and to. -/
theorem Good.swtch_work (h : Good K s) (hok : Fine K s (.swtch p q))
    (hu : (procMachine K).step s (.swtch p q) = some u) : Good K u ∧ u.procp = q ∧
      u.work p = .context s.st.caller (s.st.regs.esp.toNat + 4) :: s.work p ∧
      s.work q = .context u.st.regs.context u.st.regs.esp.toNat :: u.work q ∧
      ∀ r, r ≠ p → r ≠ q → u.work r = s.work r := by
  obtain ⟨c, hc⟩ := hok.2.1
  have hcalls := hok.calls h hc
  obtain ⟨rfl, -⟩ := hok
  obtain rfl := Option.some.inj hu
  obtain ⟨r, -, -, hrun⟩ := h.run_swtch hcalls
  have hne := h.ne_procp hc
  have hlt := h.context_lt hc
  have hbound := h.bound q (.inr ⟨c, hc⟩)
  have hspared := h.spared_left hcalls
  obtain ⟨-, hcaller⟩ := h.caller hcalls
  obtain ⟨-, hwaiting⟩ := h.waiting hspared hc
  refine ⟨h.swtch hcalls, rfl, ?_, ?_, fun r hr hr' => ?_⟩
  · rw [← hcaller, Procs.work]
    simp only [Function.update_self, hrun]
  · have hesp : (BitVec.ofNat 32 (c + CONTEXT)).toNat = c + CONTEXT := by
      rw [BitVec.toNat_ofNat, Nat.mod_eq_of_lt (by omega)]
    have hbefore : s.work q =
        .context (context s.st.mem c) (c + CONTEXT) :: Trap.work s.st.mem none (s.frames q) := by
      rw [Procs.work, hc]
      rfl
    have hafter : Trap.work (s.left K) (some c) (s.frames q) =
        .context (context (s.left K) c) (c + CONTEXT) :: Trap.work (s.left K) none (s.frames q) := rfl
    rw [hafter, hbefore, List.cons.injEq] at hwaiting
    rw [hbefore, ← hwaiting.2]
    simp only [Procs.work, hrun, Function.update_of_ne hne, Function.update_self, Regs.goOn, Regs.context,
      hesp]
  · rw [← h.work_eq hspared hr, Procs.work]
    simp only [Function.update_of_ne hr, Function.update_of_ne hr', hrun]

/-- **The kernel stack of a process is its work.** -/
theorem refines_work (p : ι) : (procMachine K).Refines (Fine K) (Good K) (works Work) (MeansTo p)
    (fun s => s.work p) := by
  intro s e u h hok hstep
  beta_reduce
  have hrest : u.work p = s.work p → (works Work).step (s.work p) .rest = some (u.work p) := by
    intro heq
    rw [heq]
    rfl
  cases e with
  | own q e =>
      obtain ⟨r, hr, hu⟩ := Option.map_eq_some_iff.mp hstep
      obtain ⟨⟨d, hd, hworks⟩, hothers⟩ := h.own_work hok hr hu.symm
      obtain ⟨hgood, -⟩ := h.own_step hok hr
      rw [hu] at hgood
      refine ⟨hgood, ?_⟩
      by_cases hp : p = q
      · subst hp
        exact ⟨_, .inl ⟨rfl, d, hd, rfl⟩, hworks⟩
      · exact ⟨.rest, .inr ⟨fun heq => hp heq.symm, rfl⟩, hrest (hothers p hp)⟩
  | swtch q q' =>
      obtain ⟨hgood, -, hcaller, hother, hothers⟩ := h.swtch_work hok hstep
      refine ⟨hgood, ?_⟩
      by_cases hp : p = q
      · subst hp
        rw [hcaller]
        exact ⟨_, .inl ⟨rfl, _, _, rfl⟩, rfl⟩
      · by_cases hp' : p = q'
        · subst hp'
          rw [hother]
          exact ⟨.resume, .inr (.inl ⟨rfl, rfl⟩), rfl⟩
        · exact ⟨.rest, .inr (.inr ⟨fun heq => hp heq.symm, fun heq => hp' heq.symm, rfl⟩),
            hrest (hothers p hp hp')⟩
  | fork q k st =>
      obtain ⟨hgood, hnil, hothers⟩ := h.fork hok hstep
      refine ⟨hgood, ?_⟩
      by_cases hp : p = q
      · subst hp
        rw [hnil]
        exact ⟨.begin (u.work p), .inl ⟨rfl, _, rfl⟩, rfl⟩
      · exact ⟨.rest, .inr ⟨fun heq => hp heq.symm, rfl⟩, hrest (hothers p hp)⟩
  | free q =>
      obtain rfl := Option.some.inj hstep
      refine ⟨h.remove hok, ?_⟩
      by_cases hp : p = q
      · subst hp
        refine ⟨.drop, .inl ⟨rfl, rfl⟩, ?_⟩
        simp only [Procs.work, Function.update_self]
        rfl
      · refine ⟨.rest, .inr ⟨fun heq => hp heq.symm, rfl⟩, hrest ?_⟩
        simp only [Procs.work, Function.update_of_ne hp]

/-- A process goes on waiting. -/
structure Waits (p : ι) (s u : Procs ι) : Prop where
  parked : u.parked p = s.parked p
  frames : u.frames p = s.frames p
  work : u.work p = s.work p

theorem Away.waits (h : Good K s) (hok : Fine K s e) (ha : Away p e)
    (hu : (procMachine K).step s e = some u) (hp : s.parked p = some c) : Waits p s u := by
  have hne := h.ne_procp hp
  obtain ⟨-, d, hd, hwork⟩ := refines_work p s e u h hok hu
  have hrest : d = .rest → u.work p = s.work p := by
    rintro rfl
    exact (Option.some.inj hwork).symm
  cases e with
  | own q e =>
      obtain ⟨r, -, rfl⟩ := Option.map_eq_some_iff.mp hu
      obtain ⟨rfl, -⟩ := hok
      refine ⟨rfl, Function.update_of_ne hne .., hrest ?_⟩
      rcases hd with ⟨heq, -⟩ | ⟨-, hd⟩
      · exact absurd heq.symm hne
      · exact hd
  | swtch q q' =>
      obtain rfl := Option.some.inj hu
      obtain ⟨rfl, -⟩ := hok
      have hne' : p ≠ q' := fun heq => ha heq.symm
      refine ⟨?_, rfl, hrest ?_⟩
      · simp only [Function.update_of_ne hne, Function.update_of_ne hne']
      · rcases hd with ⟨heq, -⟩ | ⟨heq, -⟩ | ⟨-, -, hd⟩
        · exact absurd heq.symm hne
        · exact absurd heq.symm hne'
        · exact hd
  | fork q k st =>
      obtain rfl := Option.some.inj hu
      have hne' : p ≠ q := by
        rintro rfl
        exact hok.1 (Procs.live_of_parked hp)
      refine ⟨Function.update_of_ne hne' .., Function.update_of_ne hne' .., hrest ?_⟩
      rcases hd with ⟨heq, -⟩ | ⟨-, hd⟩
      · exact absurd heq.symm hne'
      · exact hd
  | free q =>
      obtain rfl := Option.some.inj hu
      have hne' : p ≠ q := fun heq => ha heq.symm
      refine ⟨Function.update_of_ne hne' .., Function.update_of_ne hne' .., hrest ?_⟩
      rcases hd with ⟨heq, -⟩ | ⟨-, hd⟩
      · exact absurd heq.symm hne'
      · exact hd

/-- It waits until somebody goes on with it. -/
theorem Good.waits (h : Good K s) (hp : s.parked p = some c)
    (ht : (procMachine K).Trace (fun s' e' => Fine K s' e' ∧ Away p e') s es t) :
    Good K t ∧ Waits p s t := by
  induction ht with
  | nil => exact ⟨h, rfl, rfl, rfl⟩
  | snoc e _ hok hstep ih =>
      obtain ⟨hgood, hwaits⟩ := ih
      have hnext := hok.2.waits hgood hok.1 hstep (hwaits.parked.trans hp)
      exact ⟨(refines_work p _ _ _ hgood hok.1 hstep).1, hnext.parked.trans hwaits.parked,
        hnext.frames.trans hwaits.frames, hnext.work.trans hwaits.work⟩

/-- What has been interrupted waits while nobody goes on with it. -/
theorem Good.within {r : Regs} {l : List Work} (h : Good K s) (hwork : s.work p = .frame r :: l)
    (ht : (procMachine K).Trace (fun s' e' => Fine K s' e' ∧ WithinOf p (l.length + 1) s' e') s es t)
    (hp : p = t.procp) (hdepth : (t.frames p).length = l.length + 1) :
    Good K t ∧ t.work p = .frame r :: l := by
  have hrun : Good K t ∧ ∃ ds, List.Forall₂ (MeansTo p) es ds ∧
      (works Work).Trace (Spares (.frame r :: l)) (s.work p) ds (t.work p) :=
    (refines_work p).trace_of h ht fun s' e' d hs' hok' hwithin hd => hwithin.spares hs' hok' hd
  obtain ⟨hgood, ds, -, htrace⟩ := hrun
  have hsuffix := works_spared htrace (by rw [hwork])
  refine ⟨hgood, (hsuffix.eq_of_length ?_).symm⟩
  rw [hgood.length_work hp, hdepth, List.length_cons]

/-- The process that runs comes to `trap`. -/
theorem Good.interrupted {e : Event} {r : Regs} (h : Good K s) (hok : Fine K s (.own p e))
    (hu : (procMachine K).step s (.own p e) = some u) (hc : e.suspended s.st.regs = some r) :
    Good K u ∧ u.work p = .frame r :: s.work p := by
  obtain ⟨x, hx, hux⟩ := Option.map_eq_some_iff.mp hu
  obtain ⟨hgood, -⟩ := h.own_step hok hx
  rw [hux] at hgood
  obtain ⟨rfl, hallowed, -⟩ := hok
  obtain ⟨-, hsuspended⟩ := h.running.next hallowed hx hc
  have hrunning : u.running = x := by
    rw [← hux, Procs.running]
    simp only [Function.update_self]
  have hprocp : u.procp = s.procp := by rw [← hux]
  have hwork := hgood.work_procp
  rw [hrunning, hprocp, hsuspended] at hwork
  rw [hwork, h.work_procp]
  exact ⟨hgood, rfl⟩

/-- It returns from `trap`, or begins. -/
theorem Good.returned {e : Event} (h : Good K s) (he : e = .ret ∨ e = .start) (hok : Fine K s (.own p e))
    (hu : (procMachine K).step s (.own p e) = some u) :
    Good K u ∧ u.procp = p ∧ s.work p = .frame u.st.regs :: u.work p := by
  obtain ⟨x, hx, hux⟩ := Option.map_eq_some_iff.mp hu
  obtain ⟨hgood, -⟩ := h.own_step hok hx
  rw [hux] at hgood
  obtain ⟨rfl, hallowed, -⟩ := hok
  have hresumed := h.running.resume he hallowed hx
  have hrunning : u.running = x := by
    rw [← hux, Procs.running]
    simp only [Function.update_self]
  have hprocp : u.procp = s.procp := by rw [← hux]
  have hregs : u.st.regs = x.st.regs := by rw [← hux]
  have hwork := hgood.work_procp
  rw [hrunning, hprocp] at hwork
  refine ⟨hgood, hprocp, ?_⟩
  rw [hwork, h.work_procp, hresumed.regs, hregs]
  rfl

end Mixv6.Kernel.Trap
