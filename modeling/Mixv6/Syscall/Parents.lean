import Mixv6.Syscall.FileRefs

/-!
# Parents and children

A process knows its parent by the slot that the parent had when it forked.  Nobody changes
this when the parent goes, so the slot may hold a stranger later: `sys_exit` then wakes the
stranger, and the stranger's `collect_zombies` frees a process that it did not fork.

## Main definitions

* `OwnChildren` — what a call should do: free and wake relatives only.
* `Kin` — the invariant.
* `Fresh` — the forks that do not take the slot of somebody's parent.
* `own_children` — in a run of such forks, every call frees and wakes relatives only.
-/

namespace Mixv6.Syscall

open Mixv6.Lib Mixv6.Kernel

variable {s t : State} {p np q : Slot} {E : Panic → Prop}

/-- A call of process `p` from `s` to `t`: every slot that it frees after `sys_wait` holds a
process that `p` has forked, and every process that it wakes as it exits is the one that has
forked `p`. -/
structure OwnChildren (s : State) (p : Slot) (c : Call) (t : State) : Prop where
  reaps : c = .waitReturn → ∀ i, s.tab.stat i ≠ .UNUSED → t.tab.stat i = .UNUSED →
    s.past.maker i = some (s.past.birth p)
  wakes : c = .exit → ∀ q, s.tab.stat q = .SLEEP → t.tab.stat q = .RUN →
    s.past.maker p = some (s.past.birth q)

/-- The parent of a process in use is the process that has forked it, unless its slot is not
in use.  Processes sleep on their own slots. -/
structure Kin (s : State) : Prop where
  parent : ∀ j i, s.tab.stat j ≠ .UNUSED → (s.proc j).pproc = some i → s.tab.stat i ≠ .UNUSED →
    s.past.maker j = some (s.past.birth i)
  own : ∀ q i, s.tab.wchan q = some i → i = q

/-- `sys_fork` takes a slot that no process in use has as its parent. -/
def Fresh (s : State) : Call → Prop
  | .fork true true => ∀ i, freeSlot s = some i → ∀ j, s.tab.stat j ≠ .UNUSED →
      (s.proc j).pproc ≠ some i
  | _ => True

namespace Kin

/-- No process in use appears, and no parent changes. -/
theorem mono (h : Kin s) (hused : ∀ q, t.tab.stat q ≠ .UNUSED → s.tab.stat q ≠ .UNUSED)
    (hproc : ∀ q, t.tab.stat q ≠ .UNUSED → (t.proc q).pproc = (s.proc q).pproc)
    (hwchan : ∀ q i, t.tab.wchan q = some i → s.tab.wchan q = some i ∨ i = q)
    (hpast : ∀ q, t.tab.stat q ≠ .UNUSED →
      t.past.maker q = s.past.maker q ∧ t.past.birth q = s.past.birth q) : Kin t := by
  constructor
  · intro j i hj hparent hi
    rw [(hpast j hj).1, (hpast i hi).2]
    rw [hproc j hj] at hparent
    exact h.parent j i (hused j hj) hparent (hused i hi)
  · intro q i hq
    rcases hwchan q i hq with hold | hself
    · exact h.own q i hold
    · exact hself

/-- A call that leaves the states of the processes and their parents alone. -/
theorem congr (h : Kin s) (htab : t.tab = s.tab) (hpast : t.past = s.past)
    (hproc : ∀ q, (t.proc q).pproc = (s.proc q).pproc) : Kin t := by
  apply h.mono
  · intro q hq
    rwa [htab] at hq
  · exact fun q _ => hproc q
  · intro q i hq
    rw [htab] at hq
    exact .inl hq
  · intro q _
    rw [hpast]
    exact ⟨rfl, rfl⟩

theorem inodes (h : Kin s) (hi : InodesOnly s t) : Kin t := by
  obtain ⟨table, rfl⟩ := hi
  exact h.congr rfl rfl fun _ => rfl

theorem setOfile (h : Kin s) (ofile : Fd → Option FileId) :
    Kin (s.setProc p { s.proc p with ofile := ofile }) := by
  refine h.congr rfl rfl fun q => ?_
  by_cases hq : q = p
  · subst hq; simp
  · simp [hq]

theorem setFile (h : Kin s) (f : FileId) (x : File) : Kin (s.setFile f x) :=
  h.congr rfl rfl fun _ => rfl

/-! ## The calls -/

theorem sys_rw (h : Kin s) {fd size r : ℤ} {buf : Bool} :
    wp E (sys_rw p fd buf size r) (fun _ t => Kin t) s := by
  simp only [Syscall.sys_rw, wp_bind, wp_get]
  split
  next => exact wp_pure.mpr h
  next f _ =>
    simp only [wp_ite, wp_pure, wp_bind, wp_set]
    split
    next => exact h
    next =>
      split
      next => exact h.setFile f _
      next => exact h

theorem sys_open (h : Kin s) (hroot : E .rootdir) (hffree : E .ffree2) {c : Contents}
    {path : Option (List UInt8)} : wp E (sys_open p c path) (fun _ t => Kin t) s := by
  refine wp_seq (wp_namei_only hroot) fun r t ht => ?_
  have hkin := h.inodes ht
  cases r with
  | none => exact wp_pure.mpr hkin
  | some ip =>
      refine wp_bind.mpr (wp_falloc (fun _ => wp_pure.mpr hkin) fun f _ => ?_)
      have hfile := hkin.setFile f { t.file f with refcnt := 1 }
      refine wp_bind.mpr (wp_fdalloc (fun _ => ?_) fun fd _ => ?_)
      · exact wp_bind.mpr (wp_ffree (fun _ => hffree) fun _ => wp_pure.mpr (hfile.setFile f _))
      · simp only [wp_bind, wp_modify, wp_pure]
        exact (hfile.setOfile _).setFile f _

theorem sys_close (h : Kin s) (h1 : E .ffree1) (h2 : E .ffree2) {fd : ℤ} :
    wp E (sys_close p fd) (fun _ t => Kin t) s := by
  simp only [Syscall.sys_close, wp_ite, wp_bind, wp_pure, wp_get]
  split
  next => exact h
  next =>
    rcases (s.proc p).ofile (Fin.ofNat NOFILE fd.toNat) with _ | f
    · exact wp_throw.mpr h1
    · refine wp_ffree (fun _ => h2) fun _ => ?_
      rw [wp_modify]
      exact (h.setFile f _).setOfile _

theorem sys_execv (h : Kin s) (hroot : E .rootdir) {c : Contents} {path : Option (List UInt8)}
    {load : Bool} : wp E (sys_execv c path load) (fun _ t => Kin t) s := by
  refine wp_seq (wp_namei_only hroot) fun r t ht => ?_
  cases r with
  | none => exact wp_pure.mpr (h.inodes ht)
  | some ip => exact wp_pure.mpr (h.inodes ht)

theorem sys_wait (h : Kin s) (hp : s.tab.stat p = .RUN) :
    wp E (sys_wait p) (fun _ t => Kin t) s := by
  simp only [Syscall.sys_wait, sleep, wp_bind, wp_modify, wp_pure]
  apply h.mono
  · intro q hq
    by_cases hqp : q = p
    · subst hqp; simp [hp]
    · simpa [ProcTab.sleep, hqp] using hq
  · exact fun _ _ => rfl
  · intro q i hq
    by_cases hqp : q = p
    · subst hqp
      exact .inr (by simpa [ProcTab.sleep, eq_comm] using hq)
    · exact .inl (by simpa [ProcTab.sleep, hqp] using hq)
  · exact fun _ _ => ⟨rfl, rfl⟩

/-- `sys_exit` wakes the process in the slot of the parent, if it sleeps. -/
theorem sys_exit (h : Kin s) (hs : Sane s) (hp : s.tab.stat p = .RUN) :
    wp E (sys_exit p) (fun _ t => Kin t ∧ ∀ q, s.tab.stat q = .SLEEP → t.tab.stat q = .RUN →
      s.past.maker p = some (s.past.birth q)) s := by
  simp only [Syscall.sys_exit, wp_bind, wp_modify, wp_get]
  split
  next =>
    rw [wp_pure]
    constructor
    · refine h.mono (fun q hq => ?_) (fun _ _ => rfl) (fun q i hq => .inl hq) fun _ _ => ⟨rfl, rfl⟩
      by_cases hqp : q = p
      · subst hqp; simp [hp]
      · simpa [hqp] using hq
    · intro q hsleep hrun
      have hne : q ≠ p := by
        rintro rfl
        rw [hp] at hsleep
        cases hsleep
      simp [hne, hsleep] at hrun
  next parent hparent =>
    simp only [wakeup, wp_bind, wp_modify, wp_pure]
    constructor
    · refine h.mono (fun q hq => ?_) (fun _ _ => rfl) (fun q i hq => .inl ?_) fun _ _ => ⟨rfl, rfl⟩
      · simp only [ProcTab.wakeup] at hq
        split at hq
        next hchan => simp [hs.sleeps hchan]
        next =>
          by_cases hqp : q = p
          · subst hqp; simp [hp]
          · simpa [hqp] using hq
      · simp only [ProcTab.wakeup] at hq
        split at hq
        next => cases hq
        next => exact hq
    · intro q hsleep hrun
      have hne : q ≠ p := by
        rintro rfl
        rw [hp] at hsleep
        cases hsleep
      have hchan : s.tab.wchan q = some parent := by
        by_contra hno
        simp [ProcTab.wakeup, hno, hne, hsleep] at hrun
      obtain rfl := h.own q parent hchan
      exact h.parent p parent (by rw [hp]; simp) hparent (by rw [hsleep]; simp)

/-- A slot is freed. -/
theorem freed (h : Kin s) : Kin (s.freed p) := by
  refine h.mono (fun q hq => ?_) (fun q _ => ?_) (fun q i hq => .inl hq) fun _ _ => ⟨rfl, rfl⟩
  · by_cases hqp : q = p
    · subst hqp; simp [State.freed] at hq
    · simpa [State.freed, hqp] using hq
  · by_cases hqp : q = p
    · subst hqp; simp [State.freed]
    · simp [State.freed, hqp]

/-- What holds inside the loop of `collect_zombies`. -/
structure Reaping (s : State) (p : Slot) (t : State) : Prop where
  kin : Kin t
  past : t.past = s.past
  run : t.tab.stat p = .RUN
  reaped : ∀ i, s.tab.stat i ≠ .UNUSED → t.tab.stat i = .UNUSED →
    s.past.maker i = some (s.past.birth p)

/-- A zombie that names `p` as its parent is freed. -/
theorem Reaping.freed {i : Slot} (h : Reaping s p t) (hparent : (t.proc i).pproc = some p)
    (hzomb : t.tab.stat i = .ZOMB) : Reaping s p (t.freed i) := by
  have hmaker : s.past.maker i = some (s.past.birth p) := by
    rw [← h.past]
    exact h.kin.parent i p (by rw [hzomb]; simp) hparent (by rw [h.run]; simp)
  have hne : p ≠ i := by
    rintro rfl
    rw [h.run] at hzomb
    cases hzomb
  have hpast : (t.freed i).past = s.past := by simp only [State.freed, h.past]
  refine ⟨h.kin.freed, hpast, ?_, fun j hused hun => ?_⟩
  · simpa [State.freed, hne] using h.run
  · by_cases hj : j = i
    · subst hj; exact hmaker
    · exact h.reaped j hused (by simpa [State.freed, hj] using hun)

/-- `collect_zombies` frees processes that `p` has forked. -/
theorem collect_zombies (h : Kin s) (hp : s.tab.stat p = .RUN) (hE : E .ffree2) :
    wp E (collect_zombies p) (fun _ t => Reaping s p t) s := by
  refine wp_each (fun _ t => Reaping s p t) (fun i _ t ht => ?_)
    ⟨h, rfl, hp, fun i hused hun => absurd hun hused⟩ fun t ht => ht
  simp only [wp_bind, wp_get, wp_ite, wp_pure]
  split
  next hcond => exact wp_pfree (fun _ _ => hE) fun _ => ht.freed hcond.1 hcond.2
  next => exact ht

theorem sys_wait_return (h : Kin s) (hp : s.tab.stat p = .RUN) (hE : E .ffree2) :
    wp E (sys_wait_return p) (fun _ t => Kin t ∧ ∀ i, s.tab.stat i ≠ .UNUSED →
      t.tab.stat i = .UNUSED → s.past.maker i = some (s.past.birth p)) s := by
  refine wp_seq (h.collect_zombies hp hE) fun _ t ht => ?_
  simp only [wp_bind, wp_modify, wp_pure]
  exact ⟨ht.kin.congr rfl rfl fun _ => rfl, ht.reaped⟩

/-- A slot that is not in use is cleared. -/
theorem cleared (h : Kin s) (hun : s.tab.stat np = .UNUSED) : Kin (s.cleared np) := by
  refine h.mono (fun q hq => hq) (fun q hq => ?_) (fun q i hq => ?_) fun _ _ => ⟨rfl, rfl⟩
  · by_cases hqp : q = np
    · subst hqp; exact absurd hun hq
    · simp [State.cleared, hqp]
  · by_cases hqp : q = np
    · subst hqp; simp [State.cleared] at hq
    · exact .inl (by simpa [State.cleared, hqp] using hq)

/-- The new process of a failing `sys_fork` leaves no trace. -/
theorem made_freed (h : Kin s) (maker : Option ℕ) : Kin ((s.made np maker).freed np) := by
  have hne : ∀ q, ((s.made np maker).freed np).tab.stat q ≠ .UNUSED → q ≠ np := by
    rintro q hq rfl
    simp [State.freed] at hq
  refine h.mono (fun q hq => ?_) (fun q hq => ?_) (fun q i hq => ?_) fun q hq => ?_
  · have hqp := hne q hq
    simpa [State.freed, State.made, hqp] using hq
  · have hqp := hne q hq
    simp [State.freed, State.made, hqp]
  · by_cases hqp : q = np
    · subst hqp; simp [State.freed, State.made] at hq
    · exact .inl (by simpa [State.freed, State.made, hqp] using hq)
  · have hqp := hne q hq
    simp [State.freed, State.made, hqp]

/-- The new process of `sys_fork` has its parent, and is nobody's. -/
theorem forked (h : Kin s) (hp : s.tab.stat p = .RUN) (hun : s.tab.stat np = .UNUSED)
    (hfresh : ∀ j, s.tab.stat j ≠ .UNUSED → (s.proc j).pproc ≠ some np) (ip : InodeId) :
    Kin (s.forked p np ip) := by
  have hne : p ≠ np := by
    rintro rfl
    rw [hp] at hun
    cases hun
  constructor
  · intro j i hj hparent hi
    by_cases hjn : j = np
    · subst hjn
      obtain rfl : p = i := by simpa [State.forked] using hparent
      simp [State.forked, hne]
    · have hused : s.tab.stat j ≠ .UNUSED := by simpa [State.forked, hjn] using hj
      have hold : (s.proc j).pproc = some i := by simpa [State.forked, hjn] using hparent
      have hin : i ≠ np := by
        rintro rfl
        exact hfresh j hused hold
      have hiused : s.tab.stat i ≠ .UNUSED := by simpa [State.forked, hin] using hi
      simpa [State.forked, hjn, hin] using h.parent j i hused hold hiused
  · intro q i hq
    by_cases hqn : q = np
    · subst hqn; simp [State.forked] at hq
    · exact h.own q i (by simpa [State.forked, hqn] using hq)

theorem sys_fork (h : Kin s) (hp : s.tab.stat p = .RUN) (hE : ∀ e, E e) {kstack space : Bool}
    (hfresh : Fresh s (.fork kstack space)) :
    wp E (sys_fork p kstack space) (fun _ t => Kin t) s := by
  refine wp_fork (by rw [hp]; simp) h (fun np hun => h.cleared hun) (fun np _ _ _ => ?_)
    (fun _ _ _ _ _ _ => hE _) (fun _ => hE _) fun np ip hfree hk hspace _ => ?_
  · exact wp_pfree (fun _ _ => hE _) fun _ => h.made_freed _
  · subst hk hspace
    exact h.forked hp (unused_of_freeSlot hfree) (hfresh np hfree) ip

/-- **Every call** but a fork into the slot of somebody's parent keeps the relations. -/
theorem run (h : Kin s) (hs : Sane s) {c : Call} (hready : Ready s p c) (hfresh : Fresh s c) :
    wp (fun _ => True) (c.run p) (fun _ t => Kin t) s := by
  have hp := Ready.run hready
  cases c with
  | read fd buf size r => exact h.sys_rw
  | write fd buf size r => exact h.sys_rw
  | «open» c path => exact h.sys_open trivial trivial
  | close fd => exact h.sys_close trivial trivial
  | fork kstack space => exact h.sys_fork hp (fun _ => trivial) hfresh
  | execv c path load => exact h.sys_execv trivial
  | exit => exact wp_mono (h.sys_exit hs hp) fun _ t ht => ht.1
  | wait => exact h.sys_wait hp
  | waitReturn => exact wp_mono (h.sys_wait_return hp trivial) fun _ t ht => ht.1

/-- **A call** frees and wakes relatives only. -/
theorem ownChildren (h : Kin s) (hs : Sane s) {e : Slot × Call}
    (hstep : callMachine.step s e = some t) : OwnChildren s e.1 e.2 t := by
  have hp := Ready.run (call_step hstep).1
  constructor
  · intro hwait
    obtain ⟨p, c⟩ := e
    subst hwait
    obtain ⟨-, ht⟩ := post_of_step hstep (h.sys_wait_return (E := fun _ => True) hp trivial)
    exact ht.2
  · intro hexit
    obtain ⟨p, c⟩ := e
    subst hexit
    obtain ⟨-, ht⟩ := post_of_step hstep (h.sys_exit (E := fun _ => True) hs hp)
    exact ht.2

end Kin

/-! ## Runs -/

/-- The first process has no parent. -/
theorem kin_boot {c : Contents} (h : boot c = .ok s) : Kin s := by
  have hwp : wp (fun _ => True) (do fsinit; uinit c : Kern Unit)
      (fun _ t => ∀ q, (t.proc q).pproc = none ∧ t.tab.wchan q = none) .zero := by
    refine wp_seq wp_fsinit ?_
    rintro _ t ⟨hproc, htab, -, -⟩
    have ht : ∀ q, (t.proc q).pproc = none ∧ t.tab.wchan q = none := by
      intro q
      rw [hproc, htab]
      exact ⟨rfl, rfl⟩
    simp only [uinit, wp_bind, wp_modify]
    refine wp_palloc (fun _ => wp_throw.mpr trivial) (fun _ _ _ => wp_throw.mpr trivial) fun np _ _ => ?_
    refine wp_seq (wp_getrootdir_only trivial) ?_
    rintro ip _ ⟨table, rfl⟩
    rw [wp_modify]
    intro q
    by_cases hq : q = np
    · subst hq; simp [State.made]
    · simp [State.made, hq, ht q]
  have hnone := post_of_boot h hwp
  constructor
  · intro j i _ hparent
    rw [(hnone j).1] at hparent
    cases hparent
  · intro q i hq
    rw [(hnone q).2] at hq
    cases hq

/-- **Parents and children.**  After any run in which `sys_fork` never takes a slot that a
process in use has as its parent, every call frees and wakes relatives only. -/
theorem own_children {c : Contents} {s₀ : State} (h0 : boot c = .ok s₀)
    (h : callMachine.Path (fun s e => Fresh s e.2) s₀ s) {e : Slot × Call}
    (hstep : callMachine.step s e = some t) : OwnChildren s e.1 e.2 t := by
  have hbooks := books_of_path h0 h
  have hkin : Kin s ∧ Books s := by
    refine h.invariant (I := fun s => Kin s ∧ Books s) ⟨kin_boot h0, (books_boot h0).1⟩ ?_
    rintro s e t ⟨hs, hb⟩ hfresh hstep
    have hready := (call_step hstep).1
    obtain ⟨-, ht⟩ := post_of_step hstep (hs.run hb.1 hready hfresh)
    obtain ⟨-, hb', -⟩ := post_of_step (E := fun _ => True) hstep
      (hb.run hready trivial trivial (fun _ => trivial) fun _ => ⟨trivial, trivial⟩)
    exact ⟨ht, hb'⟩
  exact hkin.1.ownChildren hbooks.1 hstep

/-- A child exits and its parent, which waits for it, frees its slot. -/
theorem own_children_wait : ∃ s₀ s t, boot emptyDisk = .ok s₀ ∧
    callMachine.Path (fun s e => Fresh s e.2) s₀ s ∧
    callMachine.step s (1, .waitReturn) = some t ∧ s.tab.stat 2 ≠ .UNUSED ∧
    t.tab.stat 2 = .UNUSED ∧ OwnChildren s 1 .waitReturn t := by
  have hrun := exists_boot_run emptyDisk (fun s _ => ∀ j, (s.proc j).pproc ≠ freeSlot s)
    [(1, .fork true true), (1, .wait), (2, .exit)]
    (fun s => s.tab.stat 2 ≠ .UNUSED ∧ (callMachine.step s (1, .waitReturn)).any fun t =>
      decide (t.tab.stat 2 = .UNUSED)) (by decide +kernel)
  obtain ⟨s₀, s, h0, hpath, hused, hany⟩ := hrun
  obtain ⟨t, hstep, hun⟩ := (Option.any_eq_true ..).mp hany
  have hfresh : callMachine.Path (fun s e => Fresh s e.2) s₀ s := by
    refine hpath.mono fun s e hnone => ?_
    unfold Fresh
    split
    next => exact fun i hi j _ => hi ▸ hnone j
    next => trivial
  exact ⟨s₀, s, t, h0, hfresh, hstep, hused, of_decide_eq_true hun, own_children h0 hfresh hstep⟩

/-- The first process forks a child, the child forks a grandchild and exits, its slot goes to
a second child of the first process, and this one frees the grandchild's slot. -/
theorem not_own_children : ∃ s₀ s t, boot emptyDisk = .ok s₀ ∧
    callMachine.Path (fun _ _ => True) s₀ s ∧
    callMachine.step s (2, .waitReturn) = some t ∧ ¬ OwnChildren s 2 .waitReturn t := by
  have hrun := exists_boot_run emptyDisk (fun _ _ => True)
    [(1, .fork true true), (2, .fork true true), (1, .wait), (2, .exit), (1, .waitReturn),
      (1, .fork true true), (2, .wait), (3, .exit)]
    (fun s => s.tab.stat 3 ≠ .UNUSED ∧ s.past.maker 3 ≠ some (s.past.birth 2) ∧
      (callMachine.step s (2, .waitReturn)).any fun t => decide (t.tab.stat 3 = .UNUSED))
    (by decide +kernel)
  obtain ⟨s₀, s, h0, hpath, hused, hstranger, hany⟩ := hrun
  obtain ⟨t, hstep, hun⟩ := (Option.any_eq_true ..).mp hany
  exact ⟨s₀, s, t, h0, hpath, hstep, fun hown =>
    hstranger (hown.reaps rfl 3 hused (of_decide_eq_true hun))⟩

end Mixv6.Syscall
