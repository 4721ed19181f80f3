import Mixv6.Lib.Refs
import Mixv6.Syscall.Calls

/-!
# What the routines do to the tables

One lemma for each routine: the state it ends in, as a function of the state it starts in,
and when it panics.

## Main definitions

* `File.raise`, `File.lower` — a reference count after several stores.
* `State.made`, `State.freed`, `State.copied` — the state after `palloc`, after `pfree` and
  after the loop of `sys_fork`.
-/

namespace Mixv6.Syscall

open Mixv6.Lib Mixv6.Kernel

variable {s t : State} {p np : Slot} {i f : FileId} {E : Panic → Prop} {n : ℕ}

/-! ## Counts -/

/-- An entry whose count has been raised `n` times. -/
def File.raise (f : File) : ℕ → File
  | 0 => f
  | n + 1 => { f.raise n with refcnt := ((f.raise n).refcnt + 1) % 2 ^ 32 }

/-- An entry whose count has been lowered `n` times. -/
def File.lower (f : File) (n : ℕ) : File := { f with refcnt := f.refcnt - n }

namespace File
variable (x : File)

@[simp] theorem raise_zero : x.raise 0 = x := rfl

@[simp] theorem lower_zero : x.lower 0 = x := rfl

@[simp] theorem raise_inode : (x.raise n).inode = x.inode := by
  induction n with
  | zero => rfl
  | succ n ih => exact ih

@[simp] theorem lower_inode : (x.lower n).inode = x.inode := rfl

@[simp] theorem lower_refcnt : (x.lower n).refcnt = x.refcnt - n := rfl

theorem raise_refcnt (h : x.refcnt < 2 ^ 32) : (x.raise n).refcnt = (x.refcnt + n) % 2 ^ 32 := by
  induction n with
  | zero => exact (Nat.mod_eq_of_lt h).symm
  | succ n ih =>
      simp only [raise, ih]
      omega

/-- One more reference, to entry `i`. -/
theorem raise_hit (file : FileId → File) {g : FileId → File} {n : FileId → ℕ} (hg : ∀ f, g f = (file f).raise (n f))
    (i : FileId) : Function.update g i { g i with refcnt := ((g i).refcnt + 1) % 2 ^ 32 } =
      fun f => (file f).raise (n f + hit (some i) f) := by
  funext f
  by_cases hf : f = i
  · subst hf
    simp [raise, hg]
  · simp [hf, hg, hit_of_ne (Ne.symm hf)]

/-- One reference less, to entry `i`. -/
theorem lower_hit (file : FileId → File) {g : FileId → File} {n : FileId → ℕ} (hg : ∀ f, g f = (file f).lower (n f))
    (i : FileId) : Function.update g i ((g i).lower 1) =
      fun f => (file f).lower (n f + hit (some i) f) := by
  funext f
  by_cases hf : f = i
  · subst hf
    simp [lower, hg, Nat.sub_sub]
  · simp [hf, hg, hit_of_ne (Ne.symm hf)]

end File

/-! ## Single entries -/

theorem wp_falloc {Q : Option FileId → State → Prop} (hnone : (∀ i, (s.file i).refcnt ≠ 0) → Q none s)
    (hsome : ∀ i, (s.file i).refcnt = 0 → Q (some i) (s.setFile i { s.file i with refcnt := 1 })) :
    wp E falloc Q s := by
  simp only [falloc, wp_bind, wp_get]
  split
  next hfirst =>
    refine wp_pure.mpr (hnone fun i h => ?_)
    simpa [h] using not_of_first hfirst i
  next i hfirst =>
    simp only [wp_bind, wp_set, wp_pure]
    exact hsome i (by simpa using of_first hfirst)

theorem wp_ffree {Q : Unit → State → Prop} (hE : (s.file f).refcnt = 0 → E .ffree2)
    (hQ : 0 < (s.file f).refcnt → Q () (s.setFile f ((s.file f).lower 1))) :
    wp E (ffree (some f)) Q s := by
  simp only [ffree, wp_bind, wp_get, wp_ite, wp_throw, wp_set]
  split
  next h => exact hE (by omega)
  next h => exact hQ (by omega)

theorem wp_fdup {Q : FileId → State → Prop} (hE : (s.file f).refcnt = 0 → E .fdup)
    (hQ : Q f (s.setFile f ((s.file f).raise 1))) : wp E (fdup f) Q s := by
  simp only [fdup, wp_bind, wp_get, wp_ite, wp_throw, wp_pure, wp_set]
  split
  next h => exact hE (by omega)
  next h => exact hQ

theorem wp_fdalloc {Q : Option Fd → State → Prop}
    (hnone : (∀ fd, (s.proc p).ofile fd ≠ none) → Q none s)
    (hsome : ∀ fd, (s.proc p).ofile fd = none → Q (some fd) (s.setProc p
      { s.proc p with ofile := Function.update (s.proc p).ofile fd (some f) })) :
    wp E (fdalloc p f) Q s := by
  simp only [fdalloc, wp_bind, wp_get]
  split
  next hfirst =>
    refine wp_pure.mpr (hnone fun fd h => ?_)
    simpa [h] using not_of_first hfirst fd
  next fd hfirst =>
    simp only [wp_bind, wp_set, wp_pure]
    exact hsome fd (by simpa using of_first hfirst)

/-! ## `palloc` -/

/-- The descriptors that `palloc` gives a process. -/
def stdio : Fd → Option FileId :=
  Function.update (Function.update (fun _ => none) 0 (some STDIN)) 1 (some STDOUT)

@[simp] theorem stdio_zero : stdio 0 = some STDIN := by decide

@[simp] theorem stdio_one : stdio 1 = some STDOUT := by decide

/-- Slot `i` has been cleared. -/
def State.cleared (s : State) (i : Slot) : State :=
  { s.setProc i .zero with tab := { s.tab with wchan := Function.update s.tab.wchan i none } }

/-- `palloc` has made a process in slot `i`. -/
def State.made (s : State) (i : Slot) (maker : Option ℕ) : State where
  file f := (s.file f).raise (refs stdio f)
  inode := s.inode
  proc := Function.update s.proc i ⟨s.nextpid, none, none, stdio⟩
  tab := ⟨Function.update s.tab.stat i .SET, Function.update s.tab.wchan i none⟩
  nextpid := (s.nextpid + 1) % 2 ^ 32
  waits := Function.update s.waits i false
  past := { s.past with
    made := s.past.made + 1
    birth := Function.update s.past.birth i s.past.made
    maker := Function.update s.past.maker i maker }

/-- The slot that `palloc` takes. -/
def freeSlot (s : State) : Option Slot := first fun i => s.tab.stat i = .UNUSED

theorem unused_of_freeSlot {i : Slot} (h : freeSlot s = some i) : s.tab.stat i = .UNUSED := by
  simpa using of_first h

theorem refs_stdio (f : FileId) : refs stdio f = hit (some STDIN) f + hit (some STDOUT) f := by
  have h1 := refs_update (Function.update (fun _ : Fd => none) 0 (some STDIN)) 1 (some STDOUT) f
  have h0 := refs_update (fun _ : Fd => (none : Option FileId)) 0 (some STDIN) f
  have hne : (1 : Fd) ≠ 0 := by decide
  rw [Function.update_of_ne hne, hit_none] at h1
  rw [hit_none, refs_none] at h0
  rw [stdio]
  omega

theorem wp_palloc {maker : Option ℕ} {kstack : Bool} {Q : Option Slot → State → Prop}
    (hfull : freeSlot s = none → Q none s)
    (hclear : ∀ i, s.tab.stat i = .UNUSED → kstack = false → Q none (s.cleared i))
    (hsome : ∀ i, freeSlot s = some i → kstack = true → Q (some i) (s.made i maker)) :
    wp E (palloc maker kstack) Q s := by
  simp only [palloc, wp_bind, wp_get]
  split
  next hfirst => exact wp_pure.mpr (hfull hfirst)
  next i hfirst =>
    simp only [wp_bind, wp_set, wp_ite, wp_pure]
    split
    next hk => exact hclear i (unused_of_freeSlot hfirst) (by simpa using hk)
    next hk =>
      rw [not_not] at hk
      simp only [fget, palloc.setOfile, wp_bind, wp_get, wp_set, wp_pure, wp_modify]
      have hin := File.raise_hit s.file (n := fun _ => 0) (fun _ => rfl) STDIN
      have hout := File.raise_hit s.file (fun f => congrFun hin f) STDOUT
      have hfile : (fun f => (s.file f).raise (0 + hit (some STDIN) f + hit (some STDOUT) f)) =
          fun f => (s.file f).raise (refs stdio f) := by
        funext f
        rw [refs_stdio, Nat.zero_add]
      convert hsome i hfirst hk using 1
      simp only [State.made, State.setFile, State.setProc, State.mk.injEq, Function.update_self,
        Function.update_idem, true_and, and_true]
      exact ⟨hout.trans hfile, rfl⟩

/-! ## `pfree` -/

/-- The inode after `irelse`. -/
def Inode.drop (x : Inode) : Inode :=
  if 1 < x.refcnt then { x with refcnt := x.refcnt - 1 } else { x with valid := false }

/-- The table after `irelse`, unless the pointer is null. -/
def dropped (inode : InodeId → Inode) : Option InodeId → InodeId → Inode
  | none => inode
  | some ip => Function.update inode ip (inode ip).drop

theorem wp_irelse {ip : InodeId} {Q : Unit → State → Prop}
    (hQ : Q () { s with inode := dropped s.inode (some ip) }) : wp E (irelse (some ip)) Q s := by
  simp only [irelse, wp_bind, wp_get, wp_ite, wp_set]
  simp only [dropped, Inode.drop] at hQ
  split
  next h => rwa [if_pos h] at hQ
  next h => rwa [if_neg h] at hQ

/-- `pfree` has freed slot `p`. -/
def State.freed (s : State) (p : Slot) : State :=
  { s with
    file := fun f => (s.file f).lower (refs (s.proc p).ofile f)
    inode := dropped s.inode (s.proc p).cwd
    proc := Function.update s.proc p { s.proc p with ofile := fun _ => none, cwd := none }
    tab := { s.tab with stat := Function.update s.tab.stat p .UNUSED } }

/-- The state inside the loop of `pfree`, with the descriptors `fds` still to come. -/
def State.freeing (s : State) (p : Slot) (n : FileId → ℕ) (fds : List Fd) : State :=
  { s with
    file := fun f => (s.file f).lower (n f)
    proc := Function.update s.proc p { s.proc p with ofile := restrict (s.proc p).ofile fds } }

/-- **`pfree`** panics only if the descriptors of the process outnumber the references to one
of its files. -/
theorem wp_pfree {Q : Unit → State → Prop}
    (hE : ∀ f, (s.file f).refcnt < refs (s.proc p).ofile f → E .ffree2)
    (hQ : (∀ f, refs (s.proc p).ofile f ≤ (s.file f).refcnt) → Q () (s.freed p)) :
    wp E (pfree p) Q s := by
  have hall : restrict (s.proc p).ofile (List.finRange NOFILE) = (s.proc p).ofile :=
    restrict_of_forall List.mem_finRange
  refine wp_bind.mpr (wp_each (fun fds t => fds.Nodup ∧ ∃ n : FileId → ℕ,
    (∀ f, n f + refs (restrict (s.proc p).ofile fds) f = refs (s.proc p).ofile f) ∧
    (∀ f, n f ≤ (s.file f).refcnt) ∧ t = s.freeing p n fds) ?_ ?_ ?_)
  · rintro fd fds _ ⟨hnodup, n, hn, hle, rfl⟩
    have hfd := (List.nodup_cons.mp hnodup).1
    have htail := (List.nodup_cons.mp hnodup).2
    have hofile : ((s.freeing p n (fd :: fds)).proc p).ofile fd = (s.proc p).ofile fd := by
      simp [State.freeing]
    simp only [wp_bind, wp_get, hofile, wp_ite]
    rcases hf : (s.proc p).ofile fd with _ | f
    · rw [if_neg (by simp), wp_pure]
      refine ⟨htail, n, ?_, hle, ?_⟩
      · rwa [restrict_cons_none fds hf] at hn
      · simp only [State.freeing, restrict_cons_none fds hf]
    · rw [if_pos (by simp)]
      have hcons := hn f
      rw [refs_restrict_cons _ hfd, hf, hit_self] at hcons
      refine wp_ffree (fun h0 => hE f ?_) fun hpos => ?_
      · simp only [State.freeing, File.lower_refcnt] at h0
        omega
      · simp only [State.freeing, File.lower_refcnt] at hpos
        rw [wp_modify]
        refine ⟨htail, fun i => n i + hit (some f) i, fun i => ?_, fun i => ?_, ?_⟩
        · have hni := hn i
          rw [refs_restrict_cons _ hfd, hf] at hni
          simp only
          omega
        · by_cases hi : i = f
          · subst hi
            simp only [hit_self]
            omega
          · simp only [hit_of_ne (Ne.symm hi)]
            exact hle i
        · have hlower := File.lower_hit s.file (n := n) (fun _ => rfl) f
          simp only [State.freeing, State.setFile, State.setProc, Function.update_self,
            Function.update_idem, hlower, update_restrict_cons _ hfd]
  · refine ⟨List.nodup_finRange _, fun _ => 0, fun f => ?_, fun f => Nat.zero_le _, ?_⟩
    · rw [hall, Nat.zero_add]
    · simp [State.freeing, hall]
  · rintro _ ⟨-, n, hn, hle, rfl⟩
    have hn' : n = refs (s.proc p).ofile := by
      funext f
      simpa using hn f
    subst hn'
    have hdone := hQ hle
    have hcwd : ((s.freeing p (refs (s.proc p).ofile) []).proc p).cwd = (s.proc p).cwd := by
      simp [State.freeing]
    simp only [wp_bind, wp_get, hcwd, wp_ite, wp_modify]
    rcases hip : (s.proc p).cwd with _ | ip
    · rw [if_neg (by simp)]
      simpa [State.freed, State.freeing, dropped, hip] using hdone
    · rw [if_pos (by simp)]
      refine wp_irelse ?_
      simpa [State.freed, State.freeing, dropped, hip, State.setProc] using hdone

/-! ## The loop of `sys_fork` -/

/-- The descriptors of `base`, replaced by those of `h` outside the list. -/
def overlay (h base : Fd → Option FileId) (fds : List Fd) (fd : Fd) : Option FileId :=
  if fd ∈ fds then base fd else (h fd).or (base fd)

/-- The loop of `sys_fork` has given `np` the files of `p`. -/
def State.copied (s : State) (p np : Slot) (n : FileId → ℕ) (fds : List Fd) : State :=
  { s with
    file := fun f => (s.file f).raise (n f)
    proc := Function.update s.proc np
      { s.proc np with ofile := overlay (s.proc p).ofile (s.proc np).ofile fds } }

theorem overlay_cons_none {h base : Fd → Option FileId} {fd : Fd} (fds : List Fd) (hfd : h fd = none) :
    overlay h base (fd :: fds) = overlay h base fds := by
  funext j
  by_cases hj : j = fd
  · subst hj; simp [overlay, hfd]
  · simp [overlay, hj]

theorem update_overlay_cons {h base : Fd → Option FileId} {fd : Fd} {fds : List Fd} (hfd : fd ∉ fds)
    (hf : h fd = some f) :
    Function.update (overlay h base (fd :: fds)) fd (some f) = overlay h base fds := by
  funext j
  by_cases hj : j = fd
  · subst hj; simp [overlay, hfd, hf]
  · simp [overlay, hj]

/-- **The loop of `sys_fork`** panics only if the count of a file becomes 0. -/
theorem wp_copyFiles (hne : p ≠ np) {Q : Unit → State → Prop}
    (hE : ∀ f n, n < refs (s.proc p).ofile f → ((s.file f).raise n).refcnt = 0 → E .fdup)
    (hQ : Q () (s.copied p np (refs (s.proc p).ofile) [])) : wp E (copyFiles p np) Q s := by
  have hall : restrict (s.proc p).ofile (List.finRange NOFILE) = (s.proc p).ofile :=
    restrict_of_forall List.mem_finRange
  refine wp_each (fun fds t => fds.Nodup ∧ ∃ n : FileId → ℕ,
    (∀ f, n f + refs (restrict (s.proc p).ofile fds) f = refs (s.proc p).ofile f) ∧
    t = s.copied p np n fds) ?_ ?_ ?_
  · rintro fd fds _ ⟨hnodup, n, hn, rfl⟩
    have hfd := (List.nodup_cons.mp hnodup).1
    have htail := (List.nodup_cons.mp hnodup).2
    have hofile : ((s.copied p np n (fd :: fds)).proc p).ofile fd = (s.proc p).ofile fd := by
      simp [State.copied, hne]
    simp only [wp_bind, wp_get, hofile]
    rcases hf : (s.proc p).ofile fd with _ | f
    · rw [wp_pure]
      refine ⟨htail, n, ?_, ?_⟩
      · rwa [restrict_cons_none fds hf] at hn
      · simp only [State.copied, overlay_cons_none fds hf]
    · have hcons := hn f
      rw [refs_restrict_cons _ hfd, hf, hit_self] at hcons
      rw [wp_bind]
      refine wp_fdup (fun h0 => hE f (n f) (by omega) h0) ?_
      rw [wp_modify]
      refine ⟨htail, fun i => n i + hit (some f) i, fun i => ?_, ?_⟩
      · have hni := hn i
        rw [refs_restrict_cons _ hfd, hf] at hni
        simp only
        omega
      · have hraise := File.raise_hit s.file (n := n) (fun _ => rfl) f
        simp only [State.copied, State.setFile, State.setProc, Function.update_self,
          Function.update_idem, update_overlay_cons hfd hf]
        congr 1
  · refine ⟨List.nodup_finRange _, fun _ => 0, fun f => ?_, ?_⟩
    · rw [hall, Nat.zero_add]
    · have hbase : overlay (s.proc p).ofile (s.proc np).ofile (List.finRange NOFILE) =
          (s.proc np).ofile := funext fun fd => if_pos (List.mem_finRange fd)
      simp [State.copied, hbase]
  · rintro _ ⟨-, n, hn, rfl⟩
    have hn' : n = refs (s.proc p).ofile := by
      funext f
      simpa using hn f
    subst hn'
    exact hQ

/-! ## The inode table -/

/-- The inode after `iget` or `idup` has found it. -/
def Inode.dup (x : Inode) : Inode := { x with refcnt := (x.refcnt + 1) % 2 ^ 16 }

/-- An entry that `iget` takes for inode number `inum`. -/
def Inode.fresh (c : Contents) (inum : ℕ) : Inode := ⟨inum, 1, true, 0, c.dinode inum⟩

theorem wp_iget {c : Contents} {inum : ℕ} {Q : Option InodeId → State → Prop} (hfull : Q none s)
    (hhit : ∀ i, (s.inode i).valid → (s.inode i).num = inum →
      Q (some i) (s.setInode i (s.inode i).dup))
    (hnew : ∀ i, (s.inode i).valid = false → Q (some i) (s.setInode i (.fresh c inum))) :
    wp E (iget c inum) Q s := by
  simp only [iget, wp_bind, wp_get]
  split
  next i hfirst =>
    have htest := of_first hfirst
    simp only [Bool.and_eq_true, beq_iff_eq] at htest
    simp only [wp_bind, wp_set, wp_pure]
    exact hhit i htest.1 htest.2
  next hfirst =>
    split
    next => exact wp_pure.mpr hfull
    next i hfirst' =>
      have htest := of_first hfirst'
      simp only [Bool.not_eq_true, decide_eq_true_eq] at htest
      simp only [wp_bind, wp_set, wp_pure]
      exact hnew i htest

theorem wp_ialloc {Q : Option InodeId → State → Prop} (hfull : Q none s)
    (hnew : ∀ i, (s.inode i).valid = false →
      Q (some i) (s.setInode i { s.inode i with valid := true, refcnt := 1 })) :
    wp E ialloc Q s := by
  simp only [ialloc, wp_bind, wp_get]
  split
  next => exact wp_pure.mpr hfull
  next i hfirst =>
    have htest := of_first hfirst
    simp only [Bool.not_eq_true, decide_eq_true_eq] at htest
    simp only [wp_bind, wp_set, wp_pure]
    exact hnew i htest

/-- The routine changes the inode table only. -/
def InodesOnly (s t : State) : Prop := ∃ table, t = { s with inode := table }

theorem InodesOnly.trans {u : State} (h : InodesOnly s t) (h' : InodesOnly t u) : InodesOnly s u := by
  obtain ⟨table, rfl⟩ := h
  obtain ⟨table', rfl⟩ := h'
  exact ⟨table', rfl⟩

theorem wp_iget_only {c : Contents} {inum : ℕ} :
    wp E (iget c inum) (fun _ t => InodesOnly s t) s :=
  wp_iget ⟨s.inode, rfl⟩ (fun _ _ _ => ⟨_, rfl⟩) fun _ _ => ⟨_, rfl⟩

theorem wp_getrootdir_only {c : Contents} (hE : E .rootdir) :
    wp E (getrootdir c) (fun _ t => InodesOnly s t) s := by
  refine wp_seq wp_iget_only fun r t ht => ?_
  cases r with
  | none => exact wp_throw.mpr hE
  | some ip => exact wp_pure.mpr ht

/-- `namei` changes the inode table only. -/
theorem wp_namei_only {c : Contents} {path : Option (List UInt8)} (hE : E .rootdir) :
    wp E (namei c path) (fun _ t => InodesOnly s t) s := by
  cases path with
  | none => exact wp_pure.mpr ⟨s.inode, rfl⟩
  | some path =>
      refine wp_seq (wp_getrootdir_only hE) fun ip t ht => ?_
      simp only [wp_ite, wp_pure, wp_bind, wp_get]
      split
      next => exact ht
      next =>
        refine wp_irelse ?_
        unfold dirlookup
        split
        next => exact wp_pure.mpr (ht.trans ⟨_, rfl⟩)
        next => exact wp_mono wp_iget_only fun _ u hu => (ht.trans ⟨_, rfl⟩).trans hu

/-! ## `sys_fork` -/

/-- `sys_fork` of process `p`, whose current directory is `ip`, has made process `np`. -/
def State.forked (s : State) (p np : Slot) (ip : InodeId) : State where
  file f := ((s.file f).raise (refs stdio f)).raise (refs (s.proc p).ofile f)
  inode := Function.update s.inode ip (s.inode ip).dup
  proc := Function.update s.proc np
    ⟨s.nextpid, some p, some ip, overlay (s.proc p).ofile stdio []⟩
  tab := ⟨Function.update s.tab.stat np .RUN, Function.update s.tab.wchan np none⟩
  nextpid := (s.nextpid + 1) % 2 ^ 32
  waits := Function.update s.waits np false
  past :=
    { made := s.past.made + 1
      birth := Function.update s.past.birth np s.past.made
      maker := Function.update s.past.maker np (some (s.past.birth p))
      forks := s.past.forks + 1 }

/-- Where the parent has the first two descriptors, the child has those of the parent. -/
theorem overlay_stdio {h : Fd → Option FileId} (h0 : h 0 ≠ none) (h1 : h 1 ≠ none) :
    overlay h stdio [] = h := by
  funext fd
  rcases hfd : h fd with _ | f
  · have hne0 : fd ≠ 0 := by
      rintro rfl
      exact h0 hfd
    have hne1 : fd ≠ 1 := by
      rintro rfl
      exact h1 hfd
    simp [overlay, stdio, hfd, hne0, hne1]
  · simp [overlay, hfd]

/-- **`sys_fork`**, by the point at which it fails. -/
theorem wp_fork (hp : s.tab.stat p ≠ .UNUSED) {kstack space : Bool} {Q : ℤ → State → Prop}
    (hfull : Q (-1) s) (hclear : ∀ np, s.tab.stat np = .UNUSED → Q (-1) (s.cleared np))
    (hfail : ∀ np, s.tab.stat np = .UNUSED → kstack = true → space = false →
      wp E (pfree np) (fun _ t => Q (-1) t) (s.made np (some (s.past.birth p))))
    (hfdup : ∀ f n, kstack = true → space = true → n < refs (s.proc p).ofile f →
      (((s.file f).raise (refs stdio f)).raise n).refcnt = 0 → E .fdup)
    (hidup : (s.proc p).cwd = none → E .idup)
    (hok : ∀ np ip, freeSlot s = some np → kstack = true → space = true →
      (s.proc p).cwd = some ip → Q s.nextpid (s.forked p np ip)) :
    wp E (sys_fork p kstack space) Q s := by
  simp only [sys_fork, wp_bind, wp_get]
  refine wp_palloc (fun _ => wp_pure.mpr hfull) (fun np hun _ => wp_pure.mpr (hclear np hun)) fun np hfree hk => ?_
  have hun := unused_of_freeSlot hfree
  have hne : p ≠ np := by
    rintro rfl
    exact hp hun
  simp only [wp_ite, wp_bind]
  cases space with
  | false =>
      rw [if_pos (by simp)]
      exact wp_mono (hfail np hun hk rfl) fun _ t ht => wp_pure.mpr ht
  | true =>
      rw [if_neg (by simp), wp_modify]
      generalize hs₁ : (s.made np (some (s.past.birth p))).setProc np
        { (s.made np (some (s.past.birth p))).proc np with pproc := some p } = s₁
      have hproc : s₁.proc p = s.proc p := by
        subst hs₁
        simp [State.made, hne]
      refine wp_copyFiles hne (fun f n hn hzero => ?_) ?_
      · have hfile : s₁.file f = (s.file f).raise (refs stdio f) := by
          subst hs₁
          simp only [State.setProc_file, State.made]
        rw [hproc] at hn
        rw [hfile] at hzero
        exact hfdup f n hk rfl hn hzero
      · have hcwd : ((s₁.copied p np (refs (s₁.proc p).ofile) []).proc p).cwd = (s.proc p).cwd := by
          simp [State.copied, hne, hproc]
        simp only [wp_get]
        rw [hcwd]
        rcases hip : (s.proc p).cwd with _ | ip
        · exact wp_throw.mpr (hidup hip)
        · simp only [idup, wp_bind, wp_get, wp_set, wp_pure, wp_modify]
          have hfinal := hok np ip hfree hk rfl hip
          convert hfinal using 1
          · subst hs₁
            simp [State.made, State.copied]
          · subst hs₁
            simp [State.made, State.copied, State.forked, State.setProc, State.setInode, Inode.dup,
              hne]

end Mixv6.Syscall
