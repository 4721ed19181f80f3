import Mixv6.Syscall.Effects

/-!
# References to files

A reference count of the file table and the descriptors that refer to the entry move
together, but for one thing: `palloc` gives a new process its first two descriptors, and
`sys_fork` overwrites them with those of the parent without giving the references back.

## Main definitions

* `holders`, `Exact` — the descriptors that refer to an entry, and what its count should be.
* `Sane`, `Balanced` — the invariant.
* `exact_iff` — the counts are right if and only if no reference has been lost.
-/

namespace Mixv6.Syscall

open Mixv6.Lib Mixv6.Kernel

variable {s t : State} {p np q : Slot} {f : FileId} {E : Panic → Prop} {lost : ℕ}

/-! ## Descriptors -/

/-- The descriptors in a slot of the process table. -/
def row (s : State) (p : Slot) : Fd → Option FileId :=
  if s.tab.stat p = .UNUSED then fun _ => none else (s.proc p).ofile

/-- The number of pairs of a slot in use and a descriptor of it that refer to a file. -/
def holders (s : State) (f : FileId) : ℕ := rowRefs (row s) f

/-- The boot references, of `STDIN` and `STDOUT`. -/
def bootRefs (f : FileId) : ℕ := if f = STDIN ∨ f = STDOUT then 1 else 0

/-- Every reference count is what it should be. -/
def Exact (s : State) : Prop := ∀ f, (s.file f).refcnt = holders s f + bootRefs f

theorem row_used (h : s.tab.stat p ≠ .UNUSED) : row s p = (s.proc p).ofile := if_neg h

theorem row_unused (h : s.tab.stat p = .UNUSED) : row s p = fun _ => none := if_pos h

/-- The descriptors of one slot change. -/
theorem holders_update {r : Fd → Option FileId} (hrow : row t = Function.update (row s) p r)
    (f : FileId) : holders t f + refs (row s p) f = holders s f + refs r f := by
  rw [holders, hrow]
  exact rowRefs_update ..

theorem holders_le (s : State) (f : FileId) : holders s f ≤ 2048 := by
  have hle := Finset.sum_le_card_nsmul Finset.univ (fun p => refs (row s p) f) 32 fun p _ => by
    have h := refs_le (row s p) f
    rw [Fintype.card_fin] at h
    exact h
  rw [Finset.card_univ, Fintype.card_fin] at hle
  exact hle.trans (le_of_eq rfl)

/-- The references that `palloc` takes are those of the boot files. -/
theorem refs_stdio_eq (f : FileId) : refs stdio f = bootRefs f := by
  have hne : STDIN ≠ STDOUT := by decide
  rw [refs_stdio, bootRefs]
  by_cases hin : f = STDIN
  · subst hin
    simp [hit_of_ne hne.symm]
  · by_cases hout : f = STDOUT
    · subst hout
      simp [hit_of_ne hne]
    · simp [hit_of_ne (Ne.symm hin), hit_of_ne (Ne.symm hout), hin, hout]

/-! ## The invariant -/

/-- Slot 0 is not a process, only a sleeping process waits for a wakeup, and every process
has the boot files as its first two descriptors. -/
structure Sane (s : State) : Prop where
  awake : ∀ p, s.tab.stat p ≠ .SLEEP → s.tab.wchan p = none
  dummy : s.tab.stat 0 = .ZOMB ∧ (s.proc 0).pproc = none
  std : ∀ p, p ≠ 0 → s.tab.stat p ≠ .UNUSED →
    (s.proc p).ofile 0 = some STDIN ∧ (s.proc p).ofile 1 = some STDOUT

/-- Every count is that of the descriptors, of the boot references and of the references
that have been lost, in 32 bits. -/
def Balanced (lost : ℕ) (s : State) : Prop :=
  ∀ f, (s.file f).refcnt = (holders s f + (1 + lost) * bootRefs f) % 2 ^ 32

/-- Both, where each fork that has succeeded has lost the references. -/
def Books (s : State) : Prop := Sane s ∧ Balanced s.past.forks s

theorem Sane.ne_zero (h : Sane s) (hp : s.tab.stat p = .RUN) : p ≠ 0 := by
  rintro rfl
  rw [h.dummy.1] at hp
  cases hp

/-- No count has wrapped around. -/
def Bounded (s : State) : Prop := ∀ f, holders s f + (1 + s.past.forks) * bootRefs f < 2 ^ 32

/-- What every call but a successful `sys_fork` keeps. -/
structure Keeps (s t : State) : Prop where
  books : Books t
  forks : t.past.forks = s.past.forks
  bounded : Bounded s → Bounded t

theorem Keeps.refl (h : Books s) : Keeps s s := ⟨h, rfl, id⟩

theorem Keeps.trans {u : State} (h : Keeps s t) (h' : Keeps t u) : Keeps s u :=
  ⟨h'.books, h'.forks.trans h.forks, fun hb => h'.bounded (h.bounded hb)⟩

/-- Where no count has wrapped around, a count is what it counts. -/
theorem Books.refcnt_eq (h : Books s) (hb : Bounded s) (f : FileId) :
    (s.file f).refcnt = holders s f + (1 + s.past.forks) * bootRefs f :=
  (h.2 f).trans (Nat.mod_eq_of_lt (hb f))

/-- A process with a channel sleeps, so a wakeup resurrects nobody. -/
theorem Sane.sleeps (h : Sane s) {c : Slot} (hq : s.tab.wchan q = some c) : s.tab.stat q = .SLEEP := by
  by_contra hne
  rw [h.awake q hne] at hq
  cases hq

/-- A step that changes neither descriptors nor counts. -/
theorem Books.congr (h : Books s) (hfile : ∀ f, (t.file f).refcnt = (s.file f).refcnt)
    (hproc : ∀ p, (t.proc p).ofile = (s.proc p).ofile ∧ (t.proc p).pproc = (s.proc p).pproc)
    (htab : t.tab = s.tab) (hpast : t.past = s.past) : Keeps s t := by
  obtain ⟨⟨h1, h2, h3⟩, hb⟩ := h
  have hrow : row t = row s := by
    funext p
    simp only [row, htab, (hproc p).1]
  have hholders : ∀ f, holders t f = holders s f := by
    intro f
    rw [holders, hrow, holders]
  refine ⟨⟨⟨?_, ?_, fun p => ?_⟩, fun f => ?_⟩, by rw [hpast], fun hbound f => ?_⟩
  · rwa [htab]
  · rwa [htab, (hproc 0).2]
  · rw [htab, (hproc p).1]
    exact h3 p
  · rw [hfile, hpast, hholders]
    exact hb f
  · rw [hpast, hholders]
    exact hbound f

theorem Books.inodes (h : Books s) (hi : InodesOnly s t) : Keeps s t := by
  obtain ⟨table, rfl⟩ := hi
  exact h.congr (fun _ => rfl) (fun _ => ⟨rfl, rfl⟩) rfl rfl

theorem row_setProc (hused : s.tab.stat p ≠ .UNUSED) (x : Proc) (file : FileId → File) :
    row { s.setProc p x with file := file } = Function.update (row s) p x.ofile := by
  funext q
  by_cases hq : q = p
  · subst hq
    simp [row, hused]
  · simp [row, hq]

/-- One descriptor of a running process changes. -/
theorem Books.setOfile (h : Books s) (hp : s.tab.stat p = .RUN) {fd : Fd} {o : Option FileId}
    {file : FileId → File} (h0 : fd ≠ 0) (h1 : fd ≠ 1)
    (hfile : ∀ f h, h + hit ((s.proc p).ofile fd) f = holders s f + hit o f →
      (s.file f).refcnt = (holders s f + (1 + s.past.forks) * bootRefs f) % 2 ^ 32 →
      (file f).refcnt = (h + (1 + s.past.forks) * bootRefs f) % 2 ^ 32)
    (hbound : Bounded s → ∀ f, o = some f → bootRefs f = 0)
    (ht : t = { s.setProc p
      { s.proc p with ofile := Function.update (s.proc p).ofile fd o } with file := file }) :
    Keeps s t := by
  obtain ⟨hs, hb⟩ := h
  have hused : s.tab.stat p ≠ .UNUSED := by rw [hp]; simp
  have hp0 := hs.ne_zero hp
  have hcount : ∀ f, holders t f + hit ((s.proc p).ofile fd) f = holders s f + hit o f := by
    intro f
    have hrow : row t = Function.update (row s) p (Function.update (s.proc p).ofile fd o) := by
      rw [ht]
      exact row_setProc hused _ file
    have hrows := holders_update hrow f
    have hupdate := refs_update (s.proc p).ofile fd o f
    rw [row_used hused] at hrows
    omega
  have hforks : t.past.forks = s.past.forks := by rw [ht]; rfl
  refine ⟨⟨⟨?_, ?_, ?_⟩, fun f => ?_⟩, hforks, fun hbs f => ?_⟩
  · rw [ht]
    exact hs.awake
  · rw [ht]
    refine ⟨hs.dummy.1, ?_⟩
    simpa [Ne.symm hp0] using hs.dummy.2
  · intro q hq hstat
    rw [ht] at hstat ⊢
    by_cases hqp : q = p
    · subst hqp
      simpa [Ne.symm h0, Ne.symm h1] using hs.std q hq hused
    · simpa [hqp] using hs.std q hq hstat
  · have hrefcnt := hfile f _ (hcount f) (hb f)
    rw [hforks, ht]
    rwa [ht] at hrefcnt
  · have hf := hcount f
    have hold := hbs f
    rw [hforks]
    by_cases ho : o = some f
    · have hle := holders_le t f
      rw [hbound hbs f ho]
      omega
    · rw [hit, hit, if_neg ho] at hf
      omega

/-! ## The calls -/

/-- `sys_read` and `sys_write`. -/
theorem Books.sys_rw (h : Books s) {fd size r : ℤ} {buf : Bool} :
    wp E (sys_rw p fd buf size r) (fun _ t => Keeps s t) s := by
  simp only [Syscall.sys_rw, wp_bind, wp_get]
  split
  next => exact wp_pure.mpr (.refl h)
  next f _ =>
    simp only [wp_ite, wp_pure, wp_bind, wp_set]
    split
    next => exact .refl h
    next =>
      split
      next =>
        refine h.congr (fun i => ?_) (fun _ => ⟨rfl, rfl⟩) rfl rfl
        by_cases hi : i = f
        · subst hi; simp
        · simp [hi]
      next => exact .refl h

/-- `sys_open`. -/
theorem Books.sys_open (h : Books s) (hp : s.tab.stat p = .RUN) (hE : E .rootdir) {c : Contents}
    {path : Option (List UInt8)} : wp E (sys_open p c path) (fun _ t => Keeps s t) s := by
  refine wp_seq (wp_namei_only hE) fun r t ht => ?_
  have hkeep := h.inodes ht
  cases r with
  | none => exact wp_pure.mpr hkeep
  | some ip =>
      have hpt : t.tab.stat p = .RUN := by
        obtain ⟨table, rfl⟩ := ht
        exact hp
      have hbooks := hkeep.books
      have hp0 := hbooks.1.ne_zero hpt
      have hstd := hbooks.1.std p hp0 (by rw [hpt]; simp)
      refine wp_bind.mpr (wp_falloc (fun _ => wp_pure.mpr hkeep) fun f hfree => ?_)
      refine wp_bind.mpr (wp_fdalloc (fun _ => ?_) fun fd hfd => ?_)
      · -- No descriptor is left: the entry goes back.
        refine wp_bind.mpr (wp_ffree (fun h0 => by simp at h0) fun _ => wp_pure.mpr ?_)
        refine hkeep.trans (hbooks.congr (fun i => ?_) (fun _ => ⟨rfl, rfl⟩) rfl rfl)
        by_cases hi : i = f
        · subst hi; simp [hfree]
        · simp [hi]
      · simp only [State.setFile_proc] at hfd
        simp only [wp_bind, wp_modify, wp_pure]
        refine hkeep.trans (hbooks.setOfile hpt (o := some f) (show fd ≠ 0 from ?_) ?_ ?_ ?_ rfl)
        · rintro rfl
          rw [hstd.1] at hfd
          cases hfd
        · rintro rfl
          rw [hstd.2] at hfd
          cases hfd
        · intro i n hn hold
          rw [hfd, hit_none] at hn
          by_cases hi : i = f
          · subst hi
            rw [hit_self] at hn
            rw [hfree] at hold
            simp
            omega
          · rw [hit_of_ne (Ne.symm hi)] at hn
            simp [hi, hold]
            omega
        · intro hbound i hi
          obtain rfl := Option.some.inj hi
          have hcount := hbooks.refcnt_eq hbound f
          rw [hfree] at hcount
          by_contra hne
          have : 0 < (1 + t.past.forks) * bootRefs f := Nat.mul_pos (by omega) (by omega)
          omega

/-- The descriptors that `sys_close` takes are not the first two. -/
theorem closable {fd : ℤ} (h : ¬ (fd < 2 ∨ (NOFILE : ℤ) ≤ fd)) :
    Fin.ofNat NOFILE fd.toNat ≠ 0 ∧ Fin.ofNat NOFILE fd.toNat ≠ 1 := by
  have hn : NOFILE = 32 := rfl
  have hval : (Fin.ofNat NOFILE fd.toNat).val = fd.toNat := by
    rw [Fin.val_ofNat]
    exact Nat.mod_eq_of_lt (by omega)
  refine ⟨?_, ?_⟩
  · intro heq
    rw [heq] at hval
    have : (0 : Fd).val = 0 := rfl
    omega
  · intro heq
    rw [heq] at hval
    have : (1 : Fd).val = 1 := rfl
    omega

/-- A descriptor of a running process counts. -/
theorem refs_le_holders (hused : s.tab.stat p ≠ .UNUSED) (f : FileId) :
    refs (s.proc p).ofile f ≤ holders s f := by
  rw [← row_used hused]
  exact refs_le_rowRefs (row s) p f

/-- An open file has a count, as long as no count has wrapped around. -/
theorem Books.refcnt_pos (h : Books s) (hb : Bounded s) (hused : s.tab.stat p ≠ .UNUSED) {fd : Fd}
    (hfd : (s.proc p).ofile fd = some f) : 0 < (s.file f).refcnt := by
  have hpos : 0 < refs (s.proc p).ofile f := refs_pos.mpr ⟨fd, hfd⟩
  have hle := refs_le_holders hused f
  rw [h.refcnt_eq hb]
  omega

/-- `sys_close`. -/
theorem Books.sys_close (h : Books s) (hp : s.tab.stat p = .RUN) {fd : ℤ}
    (hE : ¬ (fd < 2 ∨ (NOFILE : ℤ) ≤ fd) → (s.proc p).ofile (Fin.ofNat NOFILE fd.toNat) = none →
      E .ffree1) (hE' : ¬ Bounded s → E .ffree2) :
    wp E (sys_close p fd) (fun _ t => Keeps s t) s := by
  have hused : s.tab.stat p ≠ .UNUSED := by rw [hp]; simp
  simp only [Syscall.sys_close, wp_ite, wp_bind, wp_pure, wp_get]
  split
  next => exact .refl h
  next hrange =>
    obtain ⟨h0, h1⟩ := closable hrange
    rcases hf : (s.proc p).ofile (Fin.ofNat NOFILE fd.toNat) with _ | f
    · exact wp_throw.mpr (hE hrange hf)
    · refine wp_ffree (fun hzero => hE' fun hb => ?_) fun hpos => ?_
      · have := h.refcnt_pos hb hused hf
        omega
      · rw [wp_modify]
        refine h.setOfile hp h0 h1 (o := none) (fun i n hn hold => ?_) (fun _ _ hno => by cases hno) rfl
        rw [hf, hit_none] at hn
        by_cases hi : i = f
        · subst hi
          rw [hit_self] at hn
          simp
          omega
        · rw [hit_of_ne (Ne.symm hi)] at hn
          simp [hi, hold]
          omega

/-- The states and channels of the processes change. -/
theorem Books.retab (h : Books s) {tab : ProcTab Slot Slot} {waits : Slot → Bool}
    (hused : ∀ q, tab.stat q = .UNUSED ↔ s.tab.stat q = .UNUSED)
    (hawake : ∀ q, tab.stat q ≠ .SLEEP → tab.wchan q = none) (hdummy : tab.stat 0 = .ZOMB) :
    Keeps s { s with tab := tab, waits := waits } := by
  obtain ⟨hs, hb⟩ := h
  have hrow : row { s with tab := tab, waits := waits } = row s := by
    funext q
    simp only [row, hused]
  have hholders : ∀ f, holders { s with tab := tab, waits := waits } f = holders s f := by
    intro f
    rw [holders, hrow, holders]
  refine ⟨⟨⟨hawake, ⟨hdummy, hs.dummy.2⟩, fun q hq hstat => ?_⟩, fun f => ?_⟩, rfl, fun hbs f => ?_⟩
  · exact hs.std q hq fun hun => hstat ((hused q).mpr hun)
  · rw [hholders]
    exact hb f
  · rw [hholders]
    exact hbs f

/-- `sys_exit`. -/
theorem Books.sys_exit (h : Books s) (hp : s.tab.stat p = .RUN) :
    wp E (sys_exit p) (fun _ t => Keeps s t) s := by
  have hp0 := h.1.ne_zero hp
  have hawake := h.1.awake
  simp only [Syscall.sys_exit, wp_bind, wp_modify, wp_get]
  split
  next =>
    rw [wp_pure]
    refine h.retab (fun q => ?_) (fun q hq => ?_) ?_
    · by_cases hqp : q = p
      · subst hqp; simp [hp]
      · simp [hqp]
    · by_cases hqp : q = p
      · subst hqp; exact hawake q (by rw [hp]; simp)
      · exact hawake q (by simpa [hqp] using hq)
    · simp [Ne.symm hp0, h.1.dummy.1]
  next parent _ =>
    simp only [wakeup, wp_bind, wp_modify, wp_pure]
    refine h.retab (fun q => ?_) (fun q hq => ?_) ?_
    · simp only [ProcTab.wakeup]
      split
      next hq => simp [h.1.sleeps hq]
      next =>
        by_cases hqp : q = p
        · subst hqp; simp [hp]
        · simp [hqp]
    · simp only [ProcTab.wakeup] at hq ⊢
      split
      next => rfl
      next hne =>
        rw [if_neg hne] at hq
        by_cases hqp : q = p
        · subst hqp; exact hawake q (by rw [hp]; simp)
        · exact hawake q (by simpa [hqp] using hq)
    · have hnone := hawake 0 (by rw [h.1.dummy.1]; simp)
      simp [ProcTab.wakeup, hnone, Ne.symm hp0, h.1.dummy.1]

/-- The first part of `sys_wait`. -/
theorem Books.sys_wait (h : Books s) (hp : s.tab.stat p = .RUN) :
    wp E (sys_wait p) (fun _ t => Keeps s t) s := by
  have hp0 := h.1.ne_zero hp
  simp only [Syscall.sys_wait, sleep, wp_bind, wp_modify, wp_pure]
  refine h.retab (fun q => ?_) (fun q hq => ?_) ?_
  · by_cases hqp : q = p
    · subst hqp; simp [ProcTab.sleep, hp]
    · simp [ProcTab.sleep, hqp]
  · by_cases hqp : q = p
    · subst hqp; simp [ProcTab.sleep] at hq
    · simp only [ProcTab.sleep, Function.update_of_ne hqp] at hq ⊢
      exact h.1.awake q hq
  · simp [ProcTab.sleep, Ne.symm hp0, h.1.dummy.1]

/-- `sys_execv`. -/
theorem Books.sys_execv (h : Books s) (hE : E .rootdir) {c : Contents} {path : Option (List UInt8)}
    {load : Bool} : wp E (sys_execv c path load) (fun _ t => Keeps s t) s := by
  refine wp_seq (wp_namei_only hE) fun r t ht => ?_
  cases r with
  | none => exact wp_pure.mpr (h.inodes ht)
  | some ip => exact wp_pure.mpr (h.inodes ht)

/-- `pfree` of a slot that is not 0, whose process does not sleep. -/
theorem Books.pfree (h : Books s) (hp : p ≠ 0) (hused : s.tab.stat p ≠ .UNUSED)
    (hawake : s.tab.stat p ≠ .SLEEP) (hE : ¬ Bounded s → E .ffree2) :
    wp E (pfree p) (fun _ t => Keeps s t ∧ t = s.freed p) s := by
  obtain ⟨hs, hb⟩ := h
  refine wp_pfree (fun f hlt => hE fun hbs => ?_) fun henough => ⟨?_, rfl⟩
  · have hcount := (show Books s from ⟨hs, hb⟩).refcnt_eq hbs f
    have hle := refs_le_holders hused f
    omega
  have hrow : row (s.freed p) = Function.update (row s) p fun _ => none := by
    funext q
    by_cases hq : q = p
    · subst hq; simp [row, State.freed]
    · simp [row, State.freed, hq]
  have hcount : ∀ f, holders (s.freed p) f + refs (s.proc p).ofile f = holders s f := by
    intro f
    have hrows := holders_update hrow f
    rw [row_used hused, refs_none, Nat.add_zero] at hrows
    exact hrows
  refine ⟨⟨⟨?_, ⟨?_, ?_⟩, ?_⟩, fun f => ?_⟩, rfl, fun hbs f => ?_⟩
  · intro q hq
    by_cases hqp : q = p
    · subst hqp; exact hs.awake q hawake
    · exact hs.awake q (by simpa [State.freed, hqp] using hq)
  · simpa [State.freed, Ne.symm hp] using hs.dummy.1
  · simpa [State.freed, Ne.symm hp] using hs.dummy.2
  · intro q hq hstat
    by_cases hqp : q = p
    · subst hqp; simp [State.freed] at hstat
    · simpa [State.freed, hqp] using hs.std q hq (by simpa [State.freed, hqp] using hstat)
  · have hf := hcount f
    have hold := hb f
    have hle := henough f
    have hforks : (s.freed p).past.forks = s.past.forks := rfl
    have hrefcnt : ((s.freed p).file f).refcnt = (s.file f).refcnt - refs (s.proc p).ofile f := rfl
    rw [hforks, hrefcnt]
    omega
  · have hf := hcount f
    have hold := hbs f
    have hforks : (s.freed p).past.forks = s.past.forks := rfl
    rw [hforks]
    omega

/-- `collect_zombies`. -/
theorem Books.collect_zombies (h : Books s) (hE : ¬ Bounded s → E .ffree2) :
    wp E (collect_zombies p) (fun _ t => Keeps s t) s := by
  refine wp_each (fun _ t => Keeps s t) (fun i _ t hkeep => ?_) (.refl h) fun t hkeep => hkeep
  simp only [wp_bind, wp_get, wp_ite, wp_pure]
  split
  next hcond =>
    obtain ⟨hpproc, hzomb⟩ := hcond
    have hi : i ≠ 0 := by
      rintro rfl
      rw [hkeep.books.1.dummy.2] at hpproc
      cases hpproc
    have hbound : ¬ Bounded t → E .ffree2 := fun ht => hE fun hs => ht (hkeep.bounded hs)
    refine wp_mono (hkeep.books.pfree hi (by rw [hzomb]; simp) (by rw [hzomb]; simp) hbound) ?_
    rintro _ u ⟨hu, -⟩
    exact hkeep.trans hu
  next => exact hkeep

/-- The second part of `sys_wait`. -/
theorem Books.sys_wait_return (h : Books s) (hE : ¬ Bounded s → E .ffree2) :
    wp E (sys_wait_return p) (fun _ t => Keeps s t) s := by
  refine wp_seq (h.collect_zombies hE) fun _ t hkeep => ?_
  simp only [wp_bind, wp_modify, wp_pure]
  exact hkeep.trans (hkeep.books.congr (fun _ => rfl) (fun _ => ⟨rfl, rfl⟩) rfl rfl)

/-! ## `sys_fork` -/

/-- No count that `sys_fork` of process `p` raises would wrap around. -/
def Room (s : State) (p : Slot) (space : Bool) : Prop :=
  ∀ f, (s.file f).refcnt + bootRefs f + (if space then refs (s.proc p).ofile f else 0) < 2 ^ 32

/-- A new process. -/
theorem Books.made (h : Books s) (hun : s.tab.stat np = .UNUSED) (maker : Option ℕ) :
    Books (s.made np maker) ∧
      ∀ f, holders (s.made np maker) f = holders s f + bootRefs f := by
  obtain ⟨hs, hb⟩ := h
  have hne : np ≠ 0 := by
    rintro rfl
    rw [hs.dummy.1] at hun
    cases hun
  have hrow : row (s.made np maker) = Function.update (row s) np stdio := by
    funext q
    by_cases hq : q = np
    · subst hq; simp [row, State.made]
    · simp [row, State.made, hq]
  have hcount : ∀ f, holders (s.made np maker) f = holders s f + bootRefs f := by
    intro f
    have hrows := holders_update hrow f
    rw [row_unused hun, refs_none, refs_stdio_eq, Nat.add_zero] at hrows
    exact hrows
  refine ⟨⟨⟨?_, ⟨?_, ?_⟩, ?_⟩, fun f => ?_⟩, hcount⟩
  · intro q hq
    by_cases hqp : q = np
    · subst hqp; simp [State.made]
    · simpa [State.made, hqp] using hs.awake q (by simpa [State.made, hqp] using hq)
  · simpa [State.made, Ne.symm hne] using hs.dummy.1
  · simpa [State.made, Ne.symm hne] using hs.dummy.2
  · intro q hq hstat
    by_cases hqp : q = np
    · subst hqp; simp [State.made]
    · simpa [State.made, hqp] using hs.std q hq (by simpa [State.made, hqp] using hstat)
  · have hold := hb f
    have hlt : (s.file f).refcnt < 2 ^ 32 := hold.trans_lt (Nat.mod_lt _ (by decide))
    have hraise := File.raise_refcnt (s.file f) (n := refs stdio f) hlt
    rw [refs_stdio_eq] at hraise
    have hfile : (s.made np maker).file f = (s.file f).raise (bootRefs f) := by
      simp only [State.made, refs_stdio_eq]
    have hforks : (s.made np maker).past.forks = s.past.forks := rfl
    rw [hfile, hraise, hcount, hforks]
    omega

/-- A slot that is not in use is cleared. -/
theorem Books.cleared (h : Books s) (hun : s.tab.stat np = .UNUSED) : Keeps s (s.cleared np) := by
  obtain ⟨hs, hb⟩ := h
  have hne : np ≠ 0 := by
    rintro rfl
    rw [hs.dummy.1] at hun
    cases hun
  have hrow : row (s.cleared np) = row s := by
    funext q
    by_cases hq : q = np
    · subst hq; simp [row, State.cleared, hun]
    · simp [row, State.cleared, hq]
  have hholders : ∀ f, holders (s.cleared np) f = holders s f := by
    intro f
    rw [holders, hrow, holders]
  refine ⟨⟨⟨?_, ⟨hs.dummy.1, ?_⟩, ?_⟩, fun f => ?_⟩, rfl, fun hbs f => ?_⟩
  · intro q hq
    by_cases hqp : q = np
    · subst hqp; simp [State.cleared]
    · simpa [State.cleared, hqp] using hs.awake q hq
  · simpa [State.cleared, Ne.symm hne] using hs.dummy.2
  · intro q hq hstat
    by_cases hqp : q = np
    · subst hqp; exact absurd hun hstat
    · simpa [State.cleared, hqp] using hs.std q hq hstat
  · rw [hholders]
    exact hb f
  · rw [hholders]
    exact hbs f

/-- The references that are lost, when there is one more copy. -/
theorem forked_boot (s : State) (p np : Slot) (ip : InodeId) (f : FileId) :
    (1 + (s.forked p np ip).past.forks) * bootRefs f =
      (1 + s.past.forks) * bootRefs f + bootRefs f := by
  have hforks : (s.forked p np ip).past.forks = s.past.forks + 1 := rfl
  rw [hforks, ← Nat.add_assoc, Nat.add_mul, Nat.one_mul]

/-- A process that has become the copy of another. -/
theorem Books.forked (h : Books s) (hp : s.tab.stat p = .RUN) (hun : s.tab.stat np = .UNUSED)
    (ip : InodeId) : Books (s.forked p np ip) ∧
      ∀ f, holders (s.forked p np ip) f = holders s f + refs (s.proc p).ofile f := by
  obtain ⟨hs, hb⟩ := h
  have hne : np ≠ 0 := by
    rintro rfl
    rw [hs.dummy.1] at hun
    cases hun
  have hstd := hs.std p (hs.ne_zero hp) (by rw [hp]; simp)
  have hofile : overlay (s.proc p).ofile stdio [] = (s.proc p).ofile :=
    overlay_stdio (by rw [hstd.1]; simp) (by rw [hstd.2]; simp)
  have hrow : row (s.forked p np ip) = Function.update (row s) np (s.proc p).ofile := by
    funext q
    by_cases hq : q = np
    · subst hq; simp [row, State.forked, hofile]
    · simp [row, State.forked, hq]
  have hcount : ∀ f, holders (s.forked p np ip) f = holders s f + refs (s.proc p).ofile f := by
    intro f
    have hrows := holders_update hrow f
    rw [row_unused hun, refs_none, Nat.add_zero] at hrows
    exact hrows
  refine ⟨⟨⟨?_, ⟨?_, ?_⟩, ?_⟩, fun f => ?_⟩, hcount⟩
  · intro q hq
    by_cases hqp : q = np
    · subst hqp; simp [State.forked]
    · simpa [State.forked, hqp] using hs.awake q (by simpa [State.forked, hqp] using hq)
  · simpa [State.forked, Ne.symm hne] using hs.dummy.1
  · simpa [State.forked, Ne.symm hne] using hs.dummy.2
  · intro q hq hstat
    by_cases hqp : q = np
    · subst hqp; simpa [State.forked, hofile] using hstd
    · simpa [State.forked, hqp] using hs.std q hq (by simpa [State.forked, hqp] using hstat)
  · have hold := hb f
    have hlt : (s.file f).refcnt < 2 ^ 32 := hold.trans_lt (Nat.mod_lt _ (by decide))
    have hraise := File.raise_refcnt (s.file f) (n := bootRefs f) hlt
    have hraise' := File.raise_refcnt ((s.file f).raise (bootRefs f))
      (n := refs (s.proc p).ofile f) (hraise.trans_lt (Nat.mod_lt _ (by decide)))
    have hfile : (s.forked p np ip).file f =
        ((s.file f).raise (bootRefs f)).raise (refs (s.proc p).ofile f) := by
      simp only [State.forked, refs_stdio_eq]
    rw [hfile, hraise', hraise, hcount, forked_boot]
    omega

/-- **`sys_fork`** loses a reference to each boot file when it succeeds. -/
theorem Books.sys_fork (h : Books s) (hp : s.tab.stat p = .RUN) {kstack space : Bool}
    (hidup : E .idup) (hE : ¬ (Bounded s ∧ (kstack → Room s p space)) → E .ffree2 ∧ E .fdup) :
    wp E (sys_fork p kstack space) (fun _ t => Books t ∧
      (Bounded s → (kstack → Room s p space) → Bounded t)) s := by
  have hused : s.tab.stat p ≠ .UNUSED := by rw [hp]; simp
  have hlt : ∀ f, (s.file f).refcnt < 2 ^ 32 := fun f =>
    (h.2 f).trans_lt (Nat.mod_lt _ (by decide))
  refine wp_fork hused ⟨h, fun hb _ => hb⟩ (fun np hun => ?_) (fun np hun hk hspace => ?_)
    (fun f n hk hspace hn hzero => ?_) (fun _ => hidup) fun np ip hfree hk hspace hip => ?_
  · have hkeep := h.cleared hun
    exact ⟨hkeep.books, fun hb _ => hkeep.bounded hb⟩
  · -- There is no memory for the address space: the new process goes again.
    obtain ⟨hmade, hcount⟩ := h.made hun (some (s.past.birth p))
    have hnp : np ≠ 0 := by
      rintro rfl
      rw [h.1.dummy.1] at hun
      cases hun
    have hbound : Bounded s → Room s p space → Bounded (s.made np (some (s.past.birth p))) := by
      intro hb hroom f
      have hexact := h.refcnt_eq hb f
      have hr := hroom f
      have hforks : (s.made np (some (s.past.birth p))).past.forks = s.past.forks := rfl
      rw [hcount, hforks]
      omega
    refine wp_mono (hmade.pfree hnp (by simp [State.made]) (by simp [State.made]) fun hnb =>
      (hE fun hcon => hnb (hbound hcon.1 (hcon.2 hk))).1) ?_
    rintro _ t ⟨hkeep, -⟩
    exact ⟨hkeep.books, fun hb hroom => hkeep.bounded (hbound hb (hroom hk))⟩
  · refine (hE fun hcon => ?_).2
    have hroom := hcon.2 hk f
    have hexact := h.refcnt_eq hcon.1 f
    have hle := refs_le_holders hused f
    have hraise := File.raise_refcnt (s.file f) (n := bootRefs f) (hlt f)
    have hraise' := File.raise_refcnt ((s.file f).raise (bootRefs f)) (n := n)
      (hraise.trans_lt (Nat.mod_lt _ (by decide)))
    rw [refs_stdio_eq, hraise', hraise] at hzero
    simp only [hspace, if_true] at hroom
    omega
  · obtain ⟨hbooks, hcount⟩ := h.forked hp (unused_of_freeSlot hfree) ip
    refine ⟨hbooks, fun hb hroom f => ?_⟩
    have hr := hroom hk f
    have hexact := h.refcnt_eq hb f
    rw [hcount, forked_boot]
    simp only [hspace, if_true] at hr
    omega

/-! ## Runs -/

/-- `sys_fork` is called only where no count would wrap around, and `sys_close` with the
number of an open file, or with one that it rejects. -/
def Careful (s : State) (p : Slot) : Call → Prop
  | .fork kstack space => kstack → Room s p space
  | .close fd => (fd < 2 ∨ (NOFILE : ℤ) ≤ fd) ∨ (s.proc p).ofile (Fin.ofNat NOFILE fd.toNat) ≠ none
  | _ => True

instance decidableRoom (s : State) (p : Slot) (space : Bool) : Decidable (Room s p space) :=
  inferInstanceAs (Decidable (∀ _, _))

instance decidableCareful (s : State) (p : Slot) : ∀ c, Decidable (Careful s p c)
  | .fork .. => inferInstanceAs (Decidable (_ → _))
  | .close _ => inferInstanceAs (Decidable (_ ∨ _))
  | .read .. => .isTrue trivial
  | .write .. => .isTrue trivial
  | .open .. => .isTrue trivial
  | .execv .. => .isTrue trivial
  | .exit => .isTrue trivial
  | .wait => .isTrue trivial
  | .waitReturn => .isTrue trivial

theorem Ready.run {c : Call} (h : Ready s p c) : s.tab.stat p = .RUN := by
  cases c <;> simp only [Ready, Bool.and_eq_true, decide_eq_true_eq] at h <;> exact h.1

/-- **Every call** keeps the books. -/
theorem Books.run (h : Books s) {c : Call} (hready : Ready s p c) (hroot : E .rootdir)
    (hidup : E .idup) (hclose : ¬ Careful s p c → E .ffree1)
    (hwrap : ¬ (Bounded s ∧ Careful s p c) → E .ffree2 ∧ E .fdup) :
    wp E (c.run p) (fun _ t => Books t ∧ (Bounded s → Careful s p c → Bounded t)) s := by
  have hp := Ready.run hready
  have hkeep : ∀ {α : Type} {k : Kern α}, wp E k (fun _ t => Keeps s t) s →
      wp E k (fun _ t => Books t ∧ (Bounded s → Careful s p c → Bounded t)) s :=
    fun hk => wp_mono hk fun _ t ht => ⟨ht.books, fun hb _ => ht.bounded hb⟩
  cases c with
  | read fd buf size r => exact hkeep h.sys_rw
  | write fd buf size r => exact hkeep h.sys_rw
  | «open» c path => exact hkeep (h.sys_open hp hroot)
  | close fd =>
      refine hkeep (h.sys_close hp (fun hrange hnone => hclose fun hcon => ?_) fun hb =>
        (hwrap fun hcon => hb hcon.1).1)
      exact hcon.elim hrange fun hne => hne hnone
  | fork kstack space => exact h.sys_fork hp hidup hwrap
  | execv c path load => exact hkeep (h.sys_execv hroot)
  | exit => exact hkeep (h.sys_exit hp)
  | wait => exact hkeep (h.sys_wait hp)
  | waitReturn => exact hkeep (h.sys_wait_return fun hb => (hwrap fun hcon => hb hcon.1).1)

/-- `fsinit` counts the boot references. -/
theorem wp_fsinit : wp (fun _ => True) fsinit
    (fun _ t => t.proc = State.zero.proc ∧ t.tab = State.zero.tab ∧ t.past = State.zero.past ∧
      ∀ f, (t.file f).refcnt = bootRefs f) .zero := by
  have hconsole : ∀ (f : FileId) (s : State), wp (fun _ => True) (fsinit.console f)
      (fun _ t => t.proc = s.proc ∧ t.tab = s.tab ∧ t.past = s.past ∧
        ∀ i, (t.file i).refcnt = if i = f then 1 else (s.file i).refcnt) s := by
    intro f s
    refine wp_bind.mpr (wp_ialloc (wp_throw.mpr trivial) fun ip _ => ?_)
    simp only [wp_bind, wp_modify]
    refine ⟨rfl, rfl, rfl, fun i => ?_⟩
    by_cases hi : i = f
    · subst hi; simp
    · simp [hi]
  refine wp_seq (hconsole STDIN .zero) ?_
  rintro _ t ⟨hproc, htab, hpast, hfile⟩
  refine wp_mono (hconsole STDOUT t) ?_
  rintro _ u ⟨hproc', htab', hpast', hfile'⟩
  refine ⟨hproc'.trans hproc, htab'.trans htab, hpast'.trans hpast, fun f => ?_⟩
  rw [hfile', hfile, bootRefs]
  by_cases hin : f = STDIN
  · subst hin; simp
  · by_cases hout : f = STDOUT
    · subst hout; simp
    · simp [hin, hout, State.zero]

/-- A postcondition of the start. -/
theorem post_of_boot {c : Contents} {Q : State → Prop} (h : boot c = .ok s)
    (hwp : wp E (do fsinit; uinit c : Kern Unit) (fun _ t => Q t) .zero) : Q s := by
  rcases wp_iff.mp hwp with ⟨_, t, hrun, ht⟩ | ⟨e, hrun, -⟩
  · simp only [boot, hrun] at h
    obtain rfl : t = s := by simpa [bind, Except.bind, pure, Except.pure] using h
    exact ht
  · simp only [boot, hrun] at h
    cases h

/-- The first process. -/
theorem books_boot {c : Contents} (h : boot c = .ok s) :
    Books s ∧ s.past.forks = 0 ∧ Bounded s := by
  have hwp : wp (fun _ => True) (do fsinit; uinit c : Kern Unit)
      (fun _ t => Books t ∧ t.past.forks = 0 ∧ Bounded t) .zero := by
    refine wp_seq wp_fsinit ?_
    rintro _ t ⟨hproc, htab, hpast, hfile⟩
    simp only [uinit, wp_bind, wp_modify]
    generalize hu : ({ t with tab := { t.tab with stat := Function.update t.tab.stat 0 .ZOMB } } : State)
      = u
    have hrow : ∀ q, row u q = fun _ => none := by
      intro q
      subst hu
      simp only [row, hproc, htab]
      split
      · rfl
      · rfl
    have hholders : ∀ f, holders u f = 0 := by
      intro f
      simp only [holders, rowRefs, hrow, refs_none, Finset.sum_const_zero]
    have hforks : u.past.forks = 0 := by
      subst hu
      simp only [hpast]
      rfl
    have hbooks : Books u := by
      refine ⟨⟨fun q _ => ?_, ⟨?_, ?_⟩, fun q hq hstat => ?_⟩, fun f => ?_⟩
      · subst hu
        simp only [htab]
        rfl
      · subst hu
        simp
      · subst hu
        simp only [hproc]
        rfl
      · subst hu
        simp [hq, htab, State.zero] at hstat
      · have hle : bootRefs f ≤ 1 := by
          unfold bootRefs
          split <;> omega
        have hcount : (u.file f).refcnt = bootRefs f := by
          subst hu
          exact hfile f
        rw [hcount, hholders, hforks]
        omega
    refine wp_palloc (fun _ => wp_throw.mpr trivial) (fun _ _ _ => wp_throw.mpr trivial) fun np hfree _ => ?_
    have hun := unused_of_freeSlot hfree
    obtain ⟨hmade, hcount⟩ := hbooks.made hun none
    have hnp : np ≠ 0 := by
      rintro rfl
      rw [hbooks.1.dummy.1] at hun
      cases hun
    refine wp_seq (wp_getrootdir_only trivial) fun ip v hv => ?_
    have hv' := hmade.inodes hv
    have hset : v.tab.stat np = .SET := by
      obtain ⟨table, rfl⟩ := hv
      simp [State.made]
    have hcwd : Keeps v (v.setProc np { v.proc np with cwd := some ip }) := by
      refine hv'.books.congr (fun _ => rfl) (fun q => ?_) rfl rfl
      by_cases hq : q = np
      · subst hq; simp
      · simp [hq]
    have hstart : Keeps (v.setProc np { v.proc np with cwd := some ip }) { v.setProc np { v.proc np with cwd := some ip } with
        tab := { v.tab with stat := Function.update v.tab.stat np .RUN }, waits := v.waits } := by
      refine hcwd.books.retab (fun q => ?_) (fun q hq => ?_) ?_
      · by_cases hq : q = np
        · subst hq; simp [hset]
        · simp [hq]
      · by_cases hqp : q = np
        · subst hqp; exact hv'.books.1.awake q (by rw [hset]; simp)
        · exact hv'.books.1.awake q (by simpa [hqp] using hq)
      · simpa [Ne.symm hnp] using hv'.books.1.dummy.1
    have hall := (hv'.trans hcwd).trans hstart
    rw [wp_modify]
    refine ⟨hall.books, hall.forks.trans hforks, hall.bounded fun f => ?_⟩
    have hle : bootRefs f ≤ 1 := by
      unfold bootRefs
      split <;> omega
    have hmf : (u.made np none).past.forks = 0 := hforks
    rw [hcount, hholders, hmf]
    omega
  exact post_of_boot h hwp

/-- A step of the machine is a call that ends. -/
theorem call_step {e : Slot × Call} (h : callMachine.step s e = some t) :
    Ready s e.1 e.2 ∧ ∃ r, e.2.run e.1 s = .ok (r, t) := by
  simp only [callMachine, Option.ite_none_right_eq_some, Option.map_eq_some_iff] at h
  obtain ⟨hready, ⟨r, u⟩, hrun, rfl⟩ := h
  refine ⟨hready, r, ?_⟩
  rcases hcall : e.2.run e.1 s with err | v
  · simp [hcall, Except.toOption] at hrun
  · simpa [hcall, Except.toOption] using hrun

/-- The postcondition of a call holds after a step. -/
theorem post_of_step {e : Slot × Call} {Q : ℤ → State → Prop} (h : callMachine.step s e = some t)
    (hwp : wp E (e.2.run e.1) Q s) : ∃ r, Q r t := by
  obtain ⟨-, r, hrun⟩ := call_step h
  rcases wp_iff.mp hwp with ⟨r', u, hrun', hQ⟩ | ⟨err, hrun', -⟩
  · rw [hrun] at hrun'
    cases hrun'
    exact ⟨r, hQ⟩
  · rw [hrun] at hrun'
    cases hrun'

/-- Every state that is reached from the start of the first process. -/
theorem books_of_path {c : Contents} {s₀ : State} {ok : State → Slot × Call → Prop}
    (h0 : boot c = .ok s₀) (h : callMachine.Path ok s₀ s) : Books s := by
  refine h.invariant (books_boot h0).1 fun s e t hs _ hstep => ?_
  obtain ⟨-, ht⟩ := post_of_step (E := fun _ => True) hstep
    (hs.run (call_step hstep).1 trivial trivial (fun _ => trivial) fun _ => ⟨trivial, trivial⟩)
  exact ht.1

/-- The counts are right if the lost references add up to none. -/
theorem Books.exact (h : Books s) : Exact s ↔ s.past.forks % 2 ^ 32 = 0 := by
  have hcount : ∀ f, (s.file f).refcnt = holders s f + bootRefs f ↔
      bootRefs f = 0 ∨ s.past.forks % 2 ^ 32 = 0 := by
    intro f
    have hle := holders_le s f
    have hb := h.2 f
    by_cases hboot : f = STDIN ∨ f = STDOUT
    · have hone : bootRefs f = 1 := if_pos hboot
      rw [hb, hone]
      omega
    · have hzero : bootRefs f = 0 := if_neg hboot
      rw [hb, hzero]
      omega
  refine ⟨fun hexact => ?_, fun hforks f => (hcount f).mpr (.inr hforks)⟩
  exact ((hcount STDIN).mp (hexact STDIN)).resolve_left (by decide)

/-- **File reference counts.**  In every state reached from `fsinit` and `uinit` by any calls
of any processes, every count is the number of descriptors that refer to the entry, plus the
boot reference, if and only if the number of forks that have succeeded is a multiple of
`2 ^ 32`.  Where the counts are right, `falloc` takes exactly the entries that no descriptor
refers to. -/
theorem exact_iff {c : Contents} {s₀ : State} (h0 : boot c = .ok s₀)
    (h : callMachine.Path (fun _ _ => True) s₀ s) :
    (Exact s ↔ s.past.forks % 2 ^ 32 = 0) ∧
      (Exact s → ∀ f, (s.file f).refcnt = 0 ↔ bootRefs f = 0 ∧
        ∀ p fd, s.tab.stat p ≠ .UNUSED → (s.proc p).ofile fd ≠ some f) := by
  have hbooks := books_of_path h0 h
  refine ⟨hbooks.exact, fun hexact f => ?_⟩
  rw [hexact f]
  constructor
  · intro hzero
    refine ⟨by omega, fun p fd hused hfd => ?_⟩
    have hpos : 0 < refs (s.proc p).ofile f := refs_pos.mpr ⟨fd, hfd⟩
    have hle := refs_le_holders hused f
    omega
  · rintro ⟨hboot, hnone⟩
    have hzero : holders s f = 0 := by
      refine rowRefs_eq_zero.mpr fun p fd => ?_
      by_cases hused : s.tab.stat p = .UNUSED
      · simp [row_unused hused]
      · rw [row_used hused]
        exact hnone p fd hused
    omega

/-- A disk with an empty root directory. -/
def emptyDisk : Contents := ⟨2, fun _ => ⟨0, 0, 0, 0, 0, 0, fun _ => 0⟩, fun _ => []⟩

/-- Calls that can be taken in full from the start of the first process. -/
theorem exists_boot_run (c : Contents) (ok : State → Slot × Call → Prop)
    [∀ s e, Decidable (ok s e)] (es : List (Slot × Call)) (test : State → Prop) [DecidablePred test]
    (h : ((boot c).toOption.bind fun s₀ => callMachine.run ok s₀ es).any (fun s => decide (test s))
      = true) :
    ∃ s₀ s, boot c = .ok s₀ ∧ callMachine.Path ok s₀ s ∧ test s := by
  rcases hboot : boot c with e | s₀
  · rw [hboot] at h
    cases h
  · rw [hboot] at h
    obtain ⟨s, hpath, htest⟩ := Machine.exists_path_of_run callMachine ok s₀ es test h
    exact ⟨s₀, s, rfl, hpath, htest⟩

/-- One fork. -/
theorem exact_iff_fork : ∃ s₀ s, boot emptyDisk = .ok s₀ ∧
    callMachine.Path (fun _ _ => True) s₀ s ∧ s.past.forks = 1 ∧
    (Exact s ↔ s.past.forks % 2 ^ 32 = 0) := by
  obtain ⟨s₀, s, h0, hpath, hforks⟩ := exists_boot_run emptyDisk (fun _ _ => True)
    [(1, .fork true true)] (fun s => s.past.forks = 1) (by decide +kernel)
  exact ⟨s₀, s, h0, hpath, hforks, (exact_iff h0 hpath).1⟩

/-- After one fork the counts of the boot files are too high. -/
theorem not_exact : ∃ s₀ s, boot emptyDisk = .ok s₀ ∧
    callMachine.Path (fun _ _ => True) s₀ s ∧ ¬ Exact s := by
  obtain ⟨s₀, s, h0, hpath, hforks⟩ := exists_boot_run emptyDisk (fun _ _ => True)
    [(1, .fork true true)] (fun s => s.past.forks = 1) (by decide +kernel)
  refine ⟨s₀, s, h0, hpath, fun hexact => ?_⟩
  have hzero := (books_of_path h0 hpath).exact.mp hexact
  omega

/-! ## Descriptor arguments -/

/-- Descriptor `fd` of process `p` after `sys_close`. -/
def State.closed (s : State) (p : Slot) (fd : Fd) (f : FileId) : State :=
  (s.setFile f ((s.file f).lower 1)).setProc p
    { s.proc p with ofile := Function.update (s.proc p).ofile fd none }

/-- What the calls should do with the number `fd`: if no file is open there they return -1
and change nothing; otherwise `sys_close` clears the descriptor and drops one reference. -/
structure Descriptor (s : State) (p : Slot) (fd : ℤ) : Prop where
  read : argfd s p fd = none → ∀ buf size r, (Call.read fd buf size r).run p s = .ok (-1, s)
  write : argfd s p fd = none → ∀ buf size r, (Call.write fd buf size r).run p s = .ok (-1, s)
  close : argfd s p fd = none → (Call.close fd).run p s = .ok (-1, s)
  clear : ∀ f, argfd s p fd = some f → 2 ≤ fd → 0 < (s.file f).refcnt ∧
    (Call.close fd).run p s = .ok (0, s.closed p (Fin.ofNat NOFILE fd.toNat) f)

/-- A call that ends without a panic. -/
theorem run_eq_of_wp {α : Type} {k : Kern α} {r : α} (h : wp (fun _ => False) k (fun a u => a = r ∧ u = t) s) :
    k s = .ok (r, t) := by
  obtain ⟨_, _, hrun, rfl, rfl⟩ := wp_total.mp h
  exact hrun

theorem argfd_in_range {fd : ℤ} (h : ¬ (fd < 2 ∨ (NOFILE : ℤ) ≤ fd)) :
    argfd s p fd = (s.proc p).ofile (Fin.ofNat NOFILE fd.toNat) :=
  if_neg (by omega)

/-- `sys_close` does not look whether the descriptor is open. -/
theorem sys_close_error {fd : ℤ} (hrange : ¬ (fd < 2 ∨ (NOFILE : ℤ) ≤ fd))
    (hnone : (s.proc p).ofile (Fin.ofNat NOFILE fd.toNat) = none) :
    sys_close p fd s = .error .ffree1 := by
  have hpanic : wp (fun e => e = .ffree1) (sys_close p fd) (fun _ _ => False) s := by
    simp only [sys_close, hrange, if_false, wp_bind, wp_pure, wp_get, hnone]
    exact wp_throw.mpr rfl
  rcases wp_iff.mp hpanic with ⟨_, _, _, hfalse⟩ | ⟨e, he, rfl⟩
  · exact hfalse.elim
  · exact he

/-- A number is treated as it should be, unless it is that of a descriptor that `sys_close`
takes and that is not open. -/
theorem Books.argfd_iff (h : Books s) (hb : Bounded s) (hp : s.tab.stat p = .RUN) {fd : ℤ} :
    Descriptor s p fd ↔ Careful s p (.close fd) := by
  have hrw : argfd s p fd = none → ∀ buf size r,
      Syscall.sys_rw p fd buf size r s = .ok (-1, s) := by
    intro hnone buf size r
    apply run_eq_of_wp
    simp only [Syscall.sys_rw, wp_bind, wp_get, hnone, wp_pure]
    exact ⟨trivial, trivial⟩
  constructor
  · intro hdesc
    by_contra hcareful
    simp only [Careful, not_or, ne_eq, not_not] at hcareful
    have hrange : ¬ (fd < 2 ∨ (NOFILE : ℤ) ≤ fd) := by
      rw [not_or]
      exact hcareful.1
    have hclose := hdesc.close (by rw [argfd_in_range hrange]; exact hcareful.2)
    simp only [Call.run, sys_close_error hrange hcareful.2] at hclose
    cases hclose
  · intro hcareful
    refine ⟨hrw, hrw, fun hnone => ?_, fun f hf hfd => ?_⟩
    · apply run_eq_of_wp
      have hrange : fd < 2 ∨ (NOFILE : ℤ) ≤ fd := by
        by_contra hin
        rw [argfd_in_range hin] at hnone
        exact hcareful.elim hin fun hne => hne hnone
      simp only [Call.run, Syscall.sys_close, hrange, if_true, wp_pure]
      exact ⟨trivial, trivial⟩
    · have hrange : ¬ (fd < 2 ∨ (NOFILE : ℤ) ≤ fd) := by
        rintro (hlt | hge)
        · omega
        · rw [argfd, if_pos (.inr hge)] at hf
          cases hf
      rw [argfd_in_range hrange] at hf
      have hpos := h.refcnt_pos hb (by rw [hp]; simp) hf
      refine ⟨hpos, ?_⟩
      apply run_eq_of_wp
      simp only [Call.run, Syscall.sys_close, hrange, if_false, wp_bind, wp_pure, wp_get, hf]
      refine wp_ffree (fun hzero => by omega) fun _ => ?_
      rw [wp_modify]
      exact ⟨trivial, rfl⟩

/-- Counts do not wrap around in a run of careful calls. -/
theorem bounded_of_path {c : Contents} {s₀ : State} (h0 : boot c = .ok s₀)
    (h : callMachine.Path (fun s e => Careful s e.1 e.2) s₀ s) : Books s ∧ Bounded s := by
  refine h.invariant (I := fun s => Books s ∧ Bounded s) ⟨(books_boot h0).1, (books_boot h0).2.2⟩ ?_
  rintro s e t ⟨hs, hb⟩ hcareful hstep
  obtain ⟨-, ht⟩ := post_of_step (E := fun _ => True) hstep
    (hs.run (call_step hstep).1 trivial trivial (fun _ => trivial) fun _ => ⟨trivial, trivial⟩)
  exact ⟨ht.1, ht.2 hb hcareful⟩

/-- **Descriptor arguments.**  In every state reached by careful calls, and for every process
that is able to run: a number is treated as it should be if and only if `sys_close` may be
called with it, and no careful call reaches a panic of `ffree` or `fdup`. -/
theorem descriptor_iff {c : Contents} {s₀ : State} (h0 : boot c = .ok s₀)
    (h : callMachine.Path (fun s e => Careful s e.1 e.2) s₀ s) (hp : s.tab.stat p = .RUN) :
    (∀ fd, Descriptor s p fd ↔ Careful s p (.close fd)) ∧
      ∀ c, Ready s p c → Careful s p c → ∀ e, c.run p s = .error e →
        e ≠ .ffree1 ∧ e ≠ .ffree2 ∧ e ≠ .fdup := by
  obtain ⟨hbooks, hbound⟩ := bounded_of_path h0 h
  refine ⟨fun fd => hbooks.argfd_iff hbound hp, fun c hready hcareful e he => ?_⟩
  have hwp := hbooks.run (E := fun e => e ≠ .ffree1 ∧ e ≠ .ffree2 ∧ e ≠ .fdup) hready (by simp)
    (by simp) (fun hno => absurd hcareful hno) fun hno => absurd ⟨hbound, hcareful⟩ hno
  rcases wp_iff.mp hwp with ⟨_, _, hok, -⟩ | ⟨e', hrun, he'⟩
  · rw [he] at hok
    cases hok
  · rw [he] at hrun
    cases hrun
    exact he'

/-- The first process opens the root directory, forks and closes its descriptor again. -/
def openForkClose : List (Slot × Call) :=
  [(1, .open emptyDisk (some [0x2F])), (1, .fork true true), (1, .close 2)]

/-- The child still has the descriptor, and the parent must not close it a second time. -/
theorem descriptor_iff_openForkClose : ∃ s₀ s, boot emptyDisk = .ok s₀ ∧
    callMachine.Path (fun s e => Careful s e.1 e.2) s₀ s ∧
    argfd s 1 2 = none ∧ argfd s 2 2 = some 2 ∧ Descriptor s 2 2 ∧ ¬ Descriptor s 1 2 := by
  obtain ⟨s₀, s, h0, hpath, hparent, hchild, hnone, hsome, hcareful, hcareless⟩ :=
    exists_boot_run emptyDisk (fun s e => Careful s e.1 e.2) openForkClose
      (fun s => s.tab.stat 1 = .RUN ∧ s.tab.stat 2 = .RUN ∧ argfd s 1 2 = none ∧
        argfd s 2 2 = some 2 ∧ Careful s 2 (.close 2) ∧ ¬ Careful s 1 (.close 2)) (by decide +kernel)
  refine ⟨s₀, s, h0, hpath, hnone, hsome, ?_, ?_⟩
  · exact ((descriptor_iff h0 hpath hchild).1 2).mpr hcareful
  · exact fun hdesc => hcareless (((descriptor_iff h0 hpath hparent).1 2).mp hdesc)

/-- `sys_close(5)` by a process without such a file is a panic. -/
theorem close_panics : ∃ s₀, boot emptyDisk = .ok s₀ ∧ Ready s₀ 1 (.close 5) ∧
    argfd s₀ 1 5 = none ∧ (Call.close 5).run 1 s₀ = .error .ffree1 := by
  have hboot := exists_boot_run emptyDisk (fun _ _ => False) []
    (fun s => Ready s 1 (.close 5) ∧ argfd s 1 5 = none) (by decide +kernel)
  obtain ⟨s₀, s, h0, hpath, hready, hnone⟩ := hboot
  obtain rfl : s₀ = s := by
    cases hpath with
    | refl => rfl
    | snoc e _ hfalse _ => exact hfalse.elim
  refine ⟨s₀, h0, hready, hnone, ?_⟩
  have hrange : ¬ ((5 : ℤ) < 2 ∨ (NOFILE : ℤ) ≤ 5) := by decide
  rw [argfd_in_range hrange] at hnone
  exact sys_close_error hrange hnone

end Mixv6.Syscall
