import Mixv6.Syscall.FileRefs

/-!
# References to inodes

An entry of the inode table is held by the processes whose current directory it is, and by
the open files.  The table counts these holders, as long as nobody who has called `namei`
forgets what it returned, and no file entry is freed with its inode in it.

## Main definitions

* `inodeHolders`, `InodesExact` — the holders of an entry, and what the table should say.
* `Thrifty` — the calls that forget no reference.
* `inodes_exact` — the table is right after any run of such calls.
-/

namespace Mixv6.Syscall

open Mixv6.Lib Mixv6.Kernel

variable {s t : State} {p np q : Slot} {f : FileId} {i ip : InodeId} {E : Panic → Prop}

/-! ## Holders -/

/-- The current directory of a slot in use. -/
def cwdOf (s : State) (p : Slot) : Option InodeId :=
  if s.tab.stat p = .UNUSED then none else (s.proc p).cwd

/-- The inode of a file entry in use. -/
def inodeOf (x : File) : Option InodeId := if x.refcnt = 0 then none else x.inode

theorem inodeOf_free {x : File} (h : x.refcnt = 0) : inodeOf x = none := if_pos h

theorem inodeOf_used {x : File} (h : x.refcnt ≠ 0) : inodeOf x = x.inode := if_neg h

/-- The number of processes and of files that hold an inode. -/
def inodeHolders (s : State) (i : InodeId) : ℕ :=
  refs (cwdOf s) i + refs (fun f => inodeOf (s.file f)) i

/-- Every valid entry counts its holders, and an entry without holders is not valid. -/
def InodesExact (s : State) : Prop :=
  ∀ i, ((s.inode i).valid → (s.inode i).refcnt = inodeHolders s i) ∧
    (inodeHolders s i = 0 → (s.inode i).valid = false)

/-- The count of a valid entry. -/
def Inode.count (x : Inode) : ℕ := if x.valid then x.refcnt else 0

theorem inodeHolders_le (s : State) (i : InodeId) : inodeHolders s i ≤ 128 := by
  have hcwd := refs_le (cwdOf s) i
  have hfile := refs_le (fun f => inodeOf (s.file f)) i
  rw [Fintype.card_fin] at hcwd hfile
  have hproc : NPROC = 64 := rfl
  have hnfile : NFILE = 64 := rfl
  simp only [inodeHolders]
  omega

/-- One file entry changes. -/
theorem inodeHolders_setFile {x : File} (hcwd : ∀ p, cwdOf t p = cwdOf s p)
    (hfile : t.file = Function.update s.file f x) (i : InodeId) :
    inodeHolders t i + hit (inodeOf (s.file f)) i = inodeHolders s i + hit (inodeOf x) i := by
  have hplaces : (fun j => inodeOf (t.file j)) =
      Function.update (fun j => inodeOf (s.file j)) f (inodeOf x) := by
    funext j
    by_cases hj : j = f
    · subst hj; simp [hfile]
    · simp [hfile, hj]
  have hupdate := refs_update (fun j => inodeOf (s.file j)) f (inodeOf x) i
  have hc : cwdOf t = cwdOf s := funext hcwd
  rw [← hplaces] at hupdate
  simp only [inodeHolders, hc]
  omega

/-- A free file entry is taken for an inode. -/
theorem inodeHolders_newFile {x : File} (hfree : (s.file f).refcnt = 0) (hx : x.refcnt = 1)
    (hip : x.inode = some ip) (hcwd : ∀ p, cwdOf t p = cwdOf s p)
    (hfile : t.file = Function.update s.file f x) (i : InodeId) :
    inodeHolders t i = inodeHolders s i + hit (some ip) i := by
  have hset := inodeHolders_setFile hcwd hfile i
  rwa [inodeOf_free hfree, inodeOf_used (by omega), hip, hit_none, Nat.add_zero] at hset

/-- One current directory changes. -/
theorem inodeHolders_setCwd {o : Option InodeId} (hcwd : cwdOf t = Function.update (cwdOf s) p o)
    (hfile : ∀ f, inodeOf (t.file f) = inodeOf (s.file f)) (i : InodeId) :
    inodeHolders t i + hit (cwdOf s p) i = inodeHolders s i + hit o i := by
  have hupdate := refs_update (cwdOf s) p o i
  have hf : (fun f => inodeOf (t.file f)) = fun f => inodeOf (s.file f) := funext hfile
  rw [← hcwd] at hupdate
  simp only [inodeHolders, hf]
  omega

/-! ## The inode table -/

/-- A valid entry has a count, and no count is close to the 16 bits. -/
def Healthy (inode : InodeId → Inode) : Prop :=
  ∀ i, ((inode i).valid → 0 < (inode i).refcnt) ∧ (inode i).count ≤ 1000

/-- The routine changes the inode table only: it takes one more reference to `r`. -/
def Takes (s : State) (r : Option InodeId) (t : State) : Prop :=
  ∃ table, t = { s with inode := table } ∧ (∀ i, (table i).valid → 0 < (table i).refcnt) ∧
    ∀ i, (table i).count = (s.inode i).count + hit r i

theorem Takes.none (h : Healthy s.inode) : Takes s none s :=
  ⟨s.inode, rfl, fun i => (h i).1, fun _ => rfl⟩

/-- A reference to one entry is taken. -/
theorem Takes.set (h : Healthy s.inode) {x : Inode} (hlive : x.valid → 0 < x.refcnt)
    (hcount : x.count = (s.inode i).count + 1) : Takes s (some i) (s.setInode i x) := by
  refine ⟨_, rfl, fun j hj => ?_, fun j => ?_⟩
  · by_cases hji : j = i
    · subst hji
      simp only [Function.update_self] at hj ⊢
      exact hlive hj
    · simp only [Function.update_of_ne hji] at hj ⊢
      exact (h j).1 hj
  · by_cases hji : j = i
    · subst hji
      simpa using hcount
    · simp [hji, hit_of_ne (Ne.symm hji)]

theorem Inode.dup_count {x : Inode} (hvalid : x.valid) (hsmall : x.count ≤ 2000) :
    x.dup.count = x.count + 1 ∧ 0 < x.dup.refcnt := by
  simp only [Inode.count, Inode.dup, hvalid, if_true] at hsmall ⊢
  omega

theorem wp_iget_takes (h : Healthy s.inode) {c : Contents} {inum : ℕ} :
    wp E (iget c inum) (fun r t => Takes s r t) s := by
  refine wp_iget (.none h) (fun i hvalid _ => ?_) fun i hvalid => ?_
  · have hle := (h i).2
    obtain ⟨hcount, hpos⟩ := Inode.dup_count hvalid (by omega)
    exact .set h (fun _ => hpos) hcount
  · refine .set h (fun _ => Nat.one_pos) ?_
    simp [Inode.count, Inode.fresh, hvalid]

theorem wp_getrootdir_takes (h : Healthy s.inode) (hE : E .rootdir) {c : Contents} :
    wp E (getrootdir c) (fun ip t => Takes s (some ip) t) s := by
  refine wp_seq (wp_iget_takes h) fun r t ht => ?_
  cases r with
  | none => exact wp_throw.mpr hE
  | some ip => exact wp_pure.mpr ht

/-- A reference that has been taken is given back. -/
theorem Inode.drop_count {x : Inode} (hlive : x.valid → 0 < x.refcnt) (hpos : 0 < x.count) :
    x.drop.count + 1 = x.count ∧ (x.drop.valid → 0 < x.drop.refcnt) := by
  have hvalid : x.valid := by
    by_contra hno
    simp [Inode.count, hno] at hpos
  have hx := hlive hvalid
  simp only [Inode.count, Inode.drop] at hpos ⊢
  split
  next h =>
    simp only [hvalid]
    omega
  next h =>
    simp only [Bool.false_eq_true, if_false, false_imp_iff, and_true]
    omega

/-- What `irelse` gives back. -/
theorem dropped_count {table : InodeId → Inode} (hlive : ∀ i, (table i).valid → 0 < (table i).refcnt)
    {o : Option InodeId} (hpos : ∀ i, o = some i → 0 < (table i).count) :
    (∀ i, (dropped table o i).count + hit o i = (table i).count) ∧
      ∀ i, (dropped table o i).valid → 0 < (dropped table o i).refcnt := by
  cases o with
  | none => exact ⟨fun _ => rfl, hlive⟩
  | some ip =>
      obtain ⟨hcount, hlive'⟩ := Inode.drop_count (hlive ip) (hpos ip rfl)
      refine ⟨fun i => ?_, fun i hi => ?_⟩
      · by_cases hip : i = ip
        · subst hip
          simpa [dropped] using hcount
        · simp [dropped, hip, hit_of_ne (Ne.symm hip)]
      · by_cases hip : i = ip
        · subst hip
          simp only [dropped, Function.update_self] at hi ⊢
          exact hlive' hi
        · simp only [dropped, Function.update_of_ne hip] at hi ⊢
          exact hlive i hi

/-- **`namei`** takes a reference to the inode that it returns. -/
theorem wp_namei_takes (h : Healthy s.inode) (hE : E .rootdir) {c : Contents}
    {path : Option (List UInt8)} : wp E (namei c path) (fun r t => Takes s r t) s := by
  cases path with
  | none => exact wp_pure.mpr (.none h)
  | some path =>
      refine wp_seq (wp_getrootdir_takes h hE) fun ip t ht => ?_
      simp only [wp_ite, wp_pure, wp_bind, wp_get]
      split
      next => exact ht
      next =>
        obtain ⟨table, rfl, hlive, hcount⟩ := ht
        refine wp_irelse ?_
        have hpos : ∀ i, some ip = some i → 0 < (table i).count := by
          rintro i ⟨⟩
          rw [hcount, hit_self]
          omega
        obtain ⟨hdrop, hlive'⟩ := dropped_count hlive hpos
        have hsame : ∀ i, (dropped table (some ip) i).count = (s.inode i).count := by
          intro i
          have h1 := hdrop i
          have h2 := hcount i
          omega
        have hhealthy : Healthy (dropped table (some ip)) := by
          intro i
          refine ⟨hlive' i, ?_⟩
          rw [hsame]
          exact (h i).2
        unfold dirlookup
        split
        next => exact wp_pure.mpr ⟨_, rfl, hlive', fun i => by rw [hsame]; rfl⟩
        next =>
          refine wp_mono (wp_iget_takes (s := { s with inode := dropped table (some ip) })
            hhealthy) ?_
          rintro r _ ⟨table', rfl, hlive'', hcount''⟩
          exact ⟨table', rfl, hlive'', fun i => by rw [hcount'', hsame]⟩

/-! ## The invariant -/

/-- The table counts the holders. -/
def Inodes (s : State) : Prop :=
  ∀ i, (s.inode i).count = inodeHolders s i ∧ ((s.inode i).valid → 0 < (s.inode i).refcnt)

namespace Inodes

theorem healthy (h : Inodes s) : Healthy s.inode := by
  intro i
  have hle := inodeHolders_le s i
  refine ⟨(h i).2, ?_⟩
  rw [(h i).1]
  omega

theorem exact (h : Inodes s) : InodesExact s := by
  intro i
  obtain ⟨hcount, hlive⟩ := h i
  refine ⟨fun hvalid => ?_, fun hzero => ?_⟩
  · rwa [Inode.count, if_pos hvalid] at hcount
  · by_contra hvalid
    rw [Bool.not_eq_false] at hvalid
    have hpos := hlive hvalid
    rw [Inode.count, if_pos hvalid] at hcount
    omega

/-- An entry that is held is valid. -/
theorem count_pos (h : Inodes s) (hused : s.tab.stat p ≠ .UNUSED) (hcwd : (s.proc p).cwd = some i) :
    0 < (s.inode i).count := by
  have hpos : 0 < refs (cwdOf s) i := refs_pos.mpr ⟨p, by rw [cwdOf, if_neg hused, hcwd]⟩
  rw [(h i).1, inodeHolders]
  omega

/-- A step that changes neither the holders nor the table. -/
theorem congr (h : Inodes s) (hcwd : ∀ p, cwdOf t p = cwdOf s p)
    (hfile : ∀ f, inodeOf (t.file f) = inodeOf (s.file f)) (hinode : t.inode = s.inode) :
    Inodes t := by
  intro i
  have hc : cwdOf t = cwdOf s := funext hcwd
  have hf : (fun f => inodeOf (t.file f)) = fun f => inodeOf (s.file f) := funext hfile
  rw [hinode, inodeHolders, hc, hf]
  exact h i

end Inodes

/-! ## The calls -/

/-- The references that the zombies among the children of `p` hold. -/
def zombieRefs (s : State) (p : Slot) (f : FileId) : ℕ :=
  rowRefs (fun q => if (s.proc q).pproc = some p ∧ s.tab.stat q = .ZOMB then (s.proc q).ofile
    else fun _ => none) f

/-- `namei` finds an inode. -/
def Resolves (s : State) (c : Contents) (path : Option (List UInt8)) : Prop :=
  ∃ ip t, namei c path s = .ok (some ip, t)

/-- The calls that forget no reference: `sys_execv` does not find its file; `sys_open` finds
room when it finds its file; no reference count of the file table goes back to 0, and none
wraps around. -/
def Thrifty (s : State) (p : Slot) : Call → Prop
  | .open c path => Resolves s c path → (∃ f, (s.file f).refcnt = 0) ∧ ∃ fd, (s.proc p).ofile fd = none
  | .execv c path _ => ¬ Resolves s c path
  | .close fd => ∀ f, argfd s p fd = some f → 2 ≤ fd → (s.file f).refcnt ≠ 1
  | .waitReturn => ∀ f, 0 < zombieRefs s p f → zombieRefs s p f < (s.file f).refcnt
  | .fork kstack space => kstack → Room s p space
  | _ => True

namespace Inodes

theorem sys_rw (h : Inodes s) {fd size r : ℤ} {buf : Bool} :
    wp E (sys_rw p fd buf size r) (fun _ t => Inodes t) s := by
  simp only [Syscall.sys_rw, wp_bind, wp_get]
  split
  next => exact wp_pure.mpr h
  next f _ =>
    simp only [wp_ite, wp_pure, wp_bind, wp_set]
    split
    next => exact h
    next =>
      split
      next =>
        refine h.congr (fun _ => rfl) (fun i => ?_) rfl
        by_cases hi : i = f
        · subst hi; simp [inodeOf]
        · simp [hi]
      next => exact h

/-- A reference has been taken, and one more holder has appeared. -/
theorem takes (h : Inodes s) (ht : Takes s (some ip) t) {u : State} (hinode : u.inode = t.inode)
    (hholders : ∀ i, inodeHolders u i = inodeHolders s i + hit (some ip) i) : Inodes u := by
  obtain ⟨table, rfl, hlive, hcount⟩ := ht
  intro i
  rw [hinode, hholders]
  refine ⟨?_, hlive i⟩
  rw [hcount, (h i).1]

/-- A reference has been taken for a current directory. -/
theorem enter (h : Inodes s) (ht : Takes s (some ip) t) {u : State} (hnone : cwdOf s p = none)
    (hcwd : cwdOf u = Function.update (cwdOf s) p (some ip))
    (hfile : ∀ f, inodeOf (u.file f) = inodeOf (s.file f)) (hinode : u.inode = t.inode) :
    Inodes u := by
  refine h.takes ht hinode fun i => ?_
  have hset := inodeHolders_setCwd hcwd hfile i
  rwa [hnone, hit_none, Nat.add_zero] at hset

theorem takes_none (h : Inodes s) (ht : Takes s none t) : Inodes t := by
  obtain ⟨table, rfl, hlive, hcount⟩ := ht
  intro i
  refine ⟨?_, hlive i⟩
  have hi := hcount i
  rw [hit_none, (h i).1, Nat.add_zero] at hi
  exact hi

/-- `sys_open`. -/
theorem sys_open (h : Inodes s) (hE : E .rootdir) {c : Contents} {path : Option (List UInt8)}
    (hthrifty : Thrifty s p (.open c path)) :
    wp E (sys_open p c path) (fun _ t => Inodes t) s := by
  refine wp_seq (wp_run (wp_namei_takes h.healthy hE)) ?_
  rintro r t ⟨ht, hrun⟩
  cases r with
  | none => exact wp_pure.mpr (h.takes_none ht)
  | some ip =>
      obtain ⟨⟨f₀, hf₀⟩, fd₀, hfd₀⟩ := hthrifty ⟨ip, t, hrun⟩
      have hsame : t.file = s.file ∧ t.proc = s.proc ∧ t.tab = s.tab := by
        obtain ⟨table, rfl, -⟩ := ht
        exact ⟨rfl, rfl, rfl⟩
      obtain ⟨hfile, hproc, htab⟩ := hsame
      refine wp_bind.mpr (wp_falloc (fun hfull => absurd hf₀ ?_) fun f hfree => ?_)
      · rw [← hfile]
        exact hfull f₀
      refine wp_bind.mpr (wp_fdalloc (fun hfull => absurd hfd₀ ?_) fun fd _ => ?_)
      · have hne := hfull fd₀
        rwa [State.setFile_proc, hproc] at hne
      simp only [wp_bind, wp_modify, wp_pure]
      rw [hfile] at hfree
      refine h.takes ht rfl (inodeHolders_newFile hfree (x := ⟨1, some ip, 0⟩) rfl rfl
        (fun q => ?_) ?_)
      · by_cases hq : q = p
        · subst hq; simp [cwdOf, hproc, htab]
        · simp [cwdOf, hproc, htab, hq]
      · simp [hfile]

/-- `sys_execv`. -/
theorem sys_execv (h : Inodes s) (hE : E .rootdir) {c : Contents} {path : Option (List UInt8)}
    {load : Bool} (hthrifty : Thrifty s p (.execv c path load)) :
    wp E (sys_execv c path load) (fun _ t => Inodes t) s := by
  refine wp_seq (wp_run (wp_namei_takes h.healthy hE)) ?_
  rintro r t ⟨ht, hrun⟩
  cases r with
  | none => exact wp_pure.mpr (h.takes_none ht)
  | some ip => exact absurd ⟨ip, t, hrun⟩ hthrifty

/-- `sys_close`. -/
theorem sys_close (h : Inodes s) (hE : E .ffree1) (hE' : E .ffree2) {fd : ℤ}
    (hthrifty : Thrifty s p (.close fd)) : wp E (sys_close p fd) (fun _ t => Inodes t) s := by
  simp only [Syscall.sys_close, wp_ite, wp_bind, wp_pure, wp_get]
  split
  next => exact h
  next hrange =>
    rcases hf : (s.proc p).ofile (Fin.ofNat NOFILE fd.toNat) with _ | f
    · exact wp_throw.mpr hE
    · refine wp_ffree (fun _ => hE') fun hpos => ?_
      rw [wp_modify]
      have hne := hthrifty f (by rw [argfd_in_range hrange, hf]) (by omega)
      refine h.congr (fun q => ?_) (fun i => ?_) rfl
      · by_cases hq : q = p
        · subst hq; simp [cwdOf]
        · simp [cwdOf, hq]
      · by_cases hi : i = f
        · subst hi
          simp only [State.setProc_file, State.setFile_file, Function.update_self]
          rw [inodeOf_used (by rw [File.lower_refcnt]; omega), inodeOf_used (by omega),
            File.lower_inode]
        · simp [hi]

/-- The states and channels of the processes change. -/
theorem retab (h : Inodes s) {tab : ProcTab Slot Slot} {waits : Slot → Bool}
    (hused : ∀ q, tab.stat q = .UNUSED ↔ s.tab.stat q = .UNUSED) :
    Inodes { s with tab := tab, waits := waits } := by
  refine h.congr (fun q => ?_) (fun _ => rfl) rfl
  simp only [cwdOf, hused]

/-- `pfree` of a process that leaves every file with a reference. -/
theorem pfree (h : Inodes s) (hused : s.tab.stat p ≠ .UNUSED) (hE : E .ffree2)
    (hkeep : ∀ f, 0 < refs (s.proc p).ofile f → refs (s.proc p).ofile f < (s.file f).refcnt) :
    wp E (pfree p) (fun _ t => Inodes t ∧ t = s.freed p) s := by
  refine wp_pfree (fun _ _ => hE) fun _ => ⟨?_, rfl⟩
  obtain ⟨hdrop, hlive⟩ := dropped_count (fun i => (h i).2)
    (o := (s.proc p).cwd) fun i hi => h.count_pos hused hi
  have hcwd : cwdOf (s.freed p) = Function.update (cwdOf s) p none := by
    funext q
    by_cases hq : q = p
    · subst hq; simp [cwdOf, State.freed]
    · simp [cwdOf, State.freed, hq]
  have hfile : ∀ f, inodeOf ((s.freed p).file f) = inodeOf (s.file f) := by
    intro f
    have hf := hkeep f
    have hrefcnt : ((s.freed p).file f) = (s.file f).lower (refs (s.proc p).ofile f) := rfl
    rw [hrefcnt]
    by_cases hzero : (s.file f).refcnt = 0
    · rw [inodeOf_free hzero, inodeOf_free (by rw [File.lower_refcnt]; omega)]
    · rw [inodeOf_used hzero, inodeOf_used (by rw [File.lower_refcnt]; omega), File.lower_inode]
  intro i
  refine ⟨?_, hlive i⟩
  have hd := hdrop i
  have hc := inodeHolders_setCwd hcwd hfile i
  rw [cwdOf, if_neg hused, hit_none] at hc
  have hi := (h i).1
  have hinode : (s.freed p).inode = dropped s.inode (s.proc p).cwd := rfl
  rw [hinode]
  omega

/-- `collect_zombies`: the references of the zombies go, and others to the same files stay. -/
theorem collect_zombies (h : Inodes s) (hE : E .ffree2)
    (hkeep : ∀ f, 0 < zombieRefs s p f → zombieRefs s p f < (s.file f).refcnt) :
    wp E (collect_zombies p) (fun _ t => Inodes t) s := by
  refine wp_each (fun _ t => Inodes t ∧
    ∀ f, 0 < zombieRefs t p f → zombieRefs t p f < (t.file f).refcnt) (fun q _ t ht => ?_)
    ⟨h, hkeep⟩ fun t ht => ht.1
  obtain ⟨ht, hkeep⟩ := ht
  simp only [wp_bind, wp_get, wp_ite, wp_pure]
  split
  next hcond =>
    have hused : t.tab.stat q ≠ .UNUSED := by rw [hcond.2]; simp
    -- The zombie's references are among those that are counted.
    have hle : ∀ f, refs (t.proc q).ofile f ≤ zombieRefs t p f := by
      intro f
      have hrow := refs_le_rowRefs (fun r => if (t.proc r).pproc = some p ∧ t.tab.stat r = .ZOMB then
        (t.proc r).ofile else fun _ => none) q f
      simp only [if_pos hcond] at hrow
      exact hrow
    have hfew : ∀ f, 0 < refs (t.proc q).ofile f → refs (t.proc q).ofile f < (t.file f).refcnt := by
      intro f hpos
      have h1 := hle f
      have h2 := hkeep f (by omega)
      omega
    refine wp_mono (ht.pfree hused hE hfew) ?_
    rintro _ _ ⟨hu, rfl⟩
    refine ⟨hu, fun f hpos => ?_⟩
    have hrows : (fun r => if ((t.freed q).proc r).pproc = some p ∧
        (t.freed q).tab.stat r = .ZOMB then ((t.freed q).proc r).ofile else fun _ => none) =
        Function.update (fun r => if (t.proc r).pproc = some p ∧ t.tab.stat r = .ZOMB then
          (t.proc r).ofile else fun _ => none) q fun _ => none := by
      funext r
      by_cases hr : r = q
      · subst hr; simp [State.freed]
      · simp [State.freed, hr]
    have hsum := rowRefs_update (fun r => if (t.proc r).pproc = some p ∧ t.tab.stat r = .ZOMB then
      (t.proc r).ofile else fun _ => none) q (fun _ => none) f
    rw [← hrows] at hsum
    simp only [if_pos hcond, refs_none] at hsum
    have hrefcnt : ((t.freed q).file f).refcnt = (t.file f).refcnt - refs (t.proc q).ofile f := rfl
    have hold := hkeep f
    simp only [zombieRefs] at hpos hold ⊢
    rw [hrefcnt]
    omega
  next => exact ⟨ht, hkeep⟩

/-- The second part of `sys_wait`. -/
theorem sys_wait_return (h : Inodes s) (hE : E .ffree2) (hthrifty : Thrifty s p .waitReturn) :
    wp E (sys_wait_return p) (fun _ t => Inodes t) s := by
  refine wp_seq (h.collect_zombies hE hthrifty) fun _ t ht => ?_
  simp only [wp_bind, wp_modify, wp_pure]
  exact ht.congr (fun _ => rfl) (fun _ => rfl) rfl

/-- `sys_exit`. -/
theorem sys_exit (h : Inodes s) (hs : Sane s) (hp : s.tab.stat p = .RUN) :
    wp E (sys_exit p) (fun _ t => Inodes t) s := by
  simp only [Syscall.sys_exit, wp_bind, wp_modify, wp_get]
  split
  next =>
    rw [wp_pure]
    refine h.retab fun q => ?_
    by_cases hqp : q = p
    · subst hqp; simp [hp]
    · simp [hqp]
  next parent _ =>
    simp only [wakeup, wp_bind, wp_modify, wp_pure]
    refine h.retab fun q => ?_
    simp only [ProcTab.wakeup]
    split
    next hq => simp [hs.sleeps hq]
    next =>
      by_cases hqp : q = p
      · subst hqp; simp [hp]
      · simp [hqp]

/-- The first part of `sys_wait`. -/
theorem sys_wait (h : Inodes s) (hp : s.tab.stat p = .RUN) :
    wp E (sys_wait p) (fun _ t => Inodes t) s := by
  simp only [Syscall.sys_wait, sleep, wp_bind, wp_modify, wp_pure]
  refine h.retab fun q => ?_
  by_cases hqp : q = p
  · subst hqp; simp [ProcTab.sleep, hp]
  · simp [ProcTab.sleep, hqp]

end Inodes

/-! ## `sys_fork` -/

/-- An entry in use stays in use when its count is raised without a wrap. -/
theorem inodeOf_raise {x : File} {n : ℕ} (hlt : x.refcnt + n < 2 ^ 32) (hpos : 0 < n → 0 < x.refcnt) :
    inodeOf (x.raise n) = inodeOf x := by
  have hraise := File.raise_refcnt x (n := n) (by omega)
  by_cases hzero : x.refcnt = 0
  · rw [inodeOf_free hzero, inodeOf_free (by rw [hraise]; omega)]
  · rw [inodeOf_used hzero, inodeOf_used (by rw [hraise]; omega), File.raise_inode]

/-- A boot file is in use. -/
theorem Books.boot_pos (hb : Books s) (hbound : Bounded s) (h : 0 < bootRefs f) :
    0 < (s.file f).refcnt := by
  have hpos : 0 < (1 + s.past.forks) * bootRefs f := Nat.mul_pos (by omega) h
  rw [hb.refcnt_eq hbound]
  omega

namespace Inodes

theorem cleared (h : Inodes s) (hun : s.tab.stat np = .UNUSED) : Inodes (s.cleared np) := by
  refine h.congr (fun q => ?_) (fun _ => rfl) rfl
  by_cases hq : q = np
  · subst hq; simp [cwdOf, State.cleared, hun]
  · simp [cwdOf, State.cleared, hq]

/-- A new process holds no inode yet. -/
theorem made (h : Inodes s) (hun : s.tab.stat np = .UNUSED)
    (hroom : ∀ f, (s.file f).refcnt + bootRefs f < 2 ^ 32)
    (hpos : ∀ f, 0 < bootRefs f → 0 < (s.file f).refcnt) (maker : Option ℕ) :
    Inodes (s.made np maker) := by
  have hcwd : ∀ q, cwdOf (s.made np maker) q = cwdOf s q := by
    intro q
    by_cases hq : q = np
    · subst hq; simp [cwdOf, State.made, hun]
    · simp [cwdOf, State.made, hq]
  have hfile : ∀ f, inodeOf ((s.made np maker).file f) = inodeOf (s.file f) := by
    intro f
    have hraise : (s.made np maker).file f = (s.file f).raise (bootRefs f) := by
      simp only [State.made, refs_stdio_eq]
    rw [hraise]
    exact inodeOf_raise (hroom f) (hpos f)
  have hinode : (s.made np maker).inode = s.inode := by simp only [State.made]
  exact h.congr hcwd hfile hinode

/-- **`sys_fork`** gives the child a reference to the current directory. -/
theorem sys_fork (h : Inodes s) (hb : Books s) (hbound : Bounded s) (hp : s.tab.stat p = .RUN)
    (hidup : E .idup) (hffree : E .ffree2) (hfdup : E .fdup) {kstack space : Bool}
    (hthrifty : Thrifty s p (.fork kstack space)) :
    wp E (sys_fork p kstack space) (fun _ t => Inodes t) s := by
  have hused : s.tab.stat p ≠ .UNUSED := by rw [hp]; simp
  refine wp_fork hused h (fun np hun => h.cleared hun) (fun np hun hk hspace => ?_)
    (fun _ _ _ _ _ _ => hfdup) (fun _ => hidup) fun np ip hfree hk hspace hip => ?_
  · have hroom : ∀ f, (s.file f).refcnt + bootRefs f < 2 ^ 32 := by
      intro f
      have hf := hthrifty hk f
      omega
    have hmade := h.made hun hroom (fun f => hb.boot_pos hbound) (some (s.past.birth p))
    refine wp_mono (hmade.pfree (by simp [State.made]) hffree fun f hpos => ?_) fun _ t ht => ht.1
    have hproc : ((s.made np (some (s.past.birth p))).proc np).ofile = stdio := by
      simp [State.made]
    have hfile : (s.made np (some (s.past.birth p))).file f = (s.file f).raise (bootRefs f) := by
      simp only [State.made, refs_stdio_eq]
    have hf := hroom f
    rw [hproc, refs_stdio_eq] at hpos ⊢
    have hcount := hb.boot_pos hbound hpos
    rw [hfile, File.raise_refcnt _ (by omega), Nat.mod_eq_of_lt hf]
    omega
  · have hcwd : cwdOf (s.forked p np ip) = Function.update (cwdOf s) np (some ip) := by
      funext q
      by_cases hq : q = np
      · subst hq; simp [cwdOf, State.forked]
      · simp [cwdOf, State.forked, hq]
    have hfile : ∀ f, inodeOf ((s.forked p np ip).file f) = inodeOf (s.file f) := by
      intro f
      have hf := hthrifty hk f
      simp only [hspace, if_true] at hf
      have hpos : 0 < bootRefs f + refs (s.proc p).ofile f → 0 < (s.file f).refcnt := by
        intro hpos
        have hle := refs_le_holders hused f
        rcases Nat.eq_zero_or_pos (bootRefs f) with hzero | hboot
        · rw [hb.refcnt_eq hbound]
          omega
        · exact hb.boot_pos hbound hboot
      have hraise := File.raise_refcnt (s.file f) (n := bootRefs f) (by omega)
      rw [Nat.mod_eq_of_lt (by omega)] at hraise
      have hforked : (s.forked p np ip).file f =
          ((s.file f).raise (bootRefs f)).raise (refs (s.proc p).ofile f) := by
        simp only [State.forked, refs_stdio_eq]
      rw [hforked, inodeOf_raise (by rw [hraise]; omega) (fun hn => by rw [hraise]; omega),
        inodeOf_raise (by omega) fun hn => hpos (by omega)]
    have hcount := h.count_pos hused hip
    have hvalid : (s.inode ip).valid := by
      by_contra hno
      simp [Inode.count, hno] at hcount
    have hsmall := (h.healthy ip).2
    obtain ⟨hdup, hpos⟩ := Inode.dup_count hvalid (by omega)
    exact h.enter (t := s.setInode ip (s.inode ip).dup) (.set h.healthy (fun _ => hpos) hdup)
      (if_pos (unused_of_freeSlot hfree)) hcwd hfile rfl

end Inodes

/-! ## Runs -/

/-- **Every thrifty call** keeps the count of the inodes. -/
theorem Inodes.run (h : Inodes s) (hb : Books s) (hbound : Bounded s) {c : Call}
    (hready : Ready s p c) (hthrifty : Thrifty s p c) :
    wp (fun _ => True) (c.run p) (fun _ t => Inodes t) s := by
  have hp := Ready.run hready
  cases c with
  | read fd buf size r => exact h.sys_rw
  | write fd buf size r => exact h.sys_rw
  | «open» c path => exact h.sys_open trivial hthrifty
  | close fd => exact h.sys_close trivial trivial hthrifty
  | fork kstack space => exact h.sys_fork hb hbound hp trivial trivial trivial hthrifty
  | execv c path load => exact h.sys_execv trivial hthrifty
  | exit => exact h.sys_exit hb.1 hp
  | wait => exact h.sys_wait hp
  | waitReturn => exact h.sys_wait_return trivial hthrifty

/-- A thrifty call that ends is a careful one. -/
theorem Thrifty.careful {e : Slot × Call} (h : Thrifty s e.1 e.2)
    (hstep : callMachine.step s e = some t) : Careful s e.1 e.2 := by
  obtain ⟨-, r, hrun⟩ := call_step hstep
  obtain ⟨p, c⟩ := e
  cases c with
  | fork kstack space => exact h
  | close fd =>
      by_contra hcon
      simp only [Careful, not_or, ne_eq, not_not] at hcon
      simp only [Call.run, sys_close_error (not_or.mpr hcon.1) hcon.2] at hrun
      cases hrun
  | _ => trivial

/-- The console takes an entry of each table. -/
theorem Inodes.console (h : Inodes s) (hfree : (s.file f).refcnt = 0) :
    wp (fun _ => True) (fsinit.console f)
      (fun _ t => Inodes t ∧ ∀ i, i ≠ f → t.file i = s.file i) s := by
  refine wp_bind.mpr (wp_ialloc (wp_throw.mpr trivial) fun ip hvalid => ?_)
  simp only [wp_bind, wp_modify, State.setInode_inode, Function.update_self]
  refine ⟨?_, fun i hi => by simp [hi]⟩
  generalize hx : ({ s.inode ip with valid := true, refcnt := 1, devno := DEV_CONSOLE, dinode := {
    (s.inode ip).dinode with type := T_DEV } } : Inode) = x
  have hcount : x.count = (s.inode ip).count + 1 := by
    subst hx
    simp [Inode.count, hvalid]
  have hpos : 0 < x.refcnt := by
    subst hx
    exact Nat.one_pos
  refine h.takes (.set h.healthy (fun _ => hpos) hcount) ?_ (inodeHolders_newFile hfree
    (x := ⟨1, some ip, (s.file f).offset⟩) rfl rfl (fun _ => rfl) ?_)
  · subst hx
    simp
  · simp

/-- Both consoles. -/
theorem inodes_fsinit : wp (fun _ => True) fsinit (fun _ t => Inodes t) .zero := by
  have hzero : Inodes .zero := by
    intro i
    have hcwd : cwdOf .zero = fun _ => none := rfl
    have hfile : (fun f => inodeOf (State.zero.file f)) = fun _ => none := rfl
    have hholders : inodeHolders .zero i = 0 := by
      simp only [inodeHolders, hcwd, hfile, refs_none]
    rw [hholders]
    simp [Inode.count, State.zero]
  refine wp_seq (hzero.console rfl) ?_
  rintro _ t ⟨ht, hfile⟩
  have hfree : (t.file STDOUT).refcnt = 0 := by
    rw [hfile STDOUT (by decide)]
    rfl
  exact wp_mono (ht.console hfree) fun _ u hu => hu.1

/-- The first process holds the root directory. -/
theorem Inodes.uinit (h : Inodes s) (hproc : s.proc = State.zero.proc)
    (hfile : ∀ f, (s.file f).refcnt = bootRefs f) {c : Contents} :
    wp (fun _ => True) (uinit c) (fun _ t => Inodes t) s := by
  simp only [Syscall.uinit, wp_bind, wp_modify]
  generalize hu : ({ s with tab := { s.tab with stat := Function.update s.tab.stat 0 .ZOMB } } : State)
    = u
  have hinodes : Inodes u := by
    subst hu
    refine h.congr (fun q => ?_) (fun _ => rfl) rfl
    by_cases hq : q = 0
    · subst hq
      simp [cwdOf, hproc, State.zero, Proc.zero]
    · simp [cwdOf, hq]
  have hcount : ∀ f, (u.file f).refcnt = bootRefs f := by
    subst hu
    exact hfile
  have hle : ∀ f, bootRefs f ≤ 1 := by
    intro f
    unfold bootRefs
    split <;> omega
  refine wp_palloc (fun _ => wp_throw.mpr trivial) (fun _ _ _ => wp_throw.mpr trivial) fun np hfree _ => ?_
  have hmade := hinodes.made (unused_of_freeSlot hfree) (fun f => by rw [hcount]; have := hle f; omega)
    (fun f hpos => by rw [hcount]; exact hpos) none
  have hnone : cwdOf (u.made np none) np = none := by simp [cwdOf, State.made]
  generalize u.made np none = v at hmade hnone
  refine wp_seq (wp_getrootdir_takes hmade.healthy trivial) fun ip w hw => ?_
  rw [wp_modify]
  refine hmade.enter hw hnone (funext fun q => ?_) (fun f => ?_) rfl
  · obtain ⟨table, rfl, -⟩ := hw
    by_cases hq : q = np
    · subst hq; simp [cwdOf]
    · simp [cwdOf, hq]
  · obtain ⟨table, rfl, -⟩ := hw
    rfl

/-- The start. -/
theorem inodes_boot {c : Contents} (h : boot c = .ok s) : Inodes s := by
  have hwp : wp (fun _ => True) (do fsinit; uinit c : Kern Unit) (fun _ t => Inodes t) .zero := by
    refine wp_seq (wp_and wp_fsinit inodes_fsinit) ?_
    rintro _ t ⟨⟨hproc, -, -, hfile⟩, ht⟩
    exact ht.uinit hproc hfile
  exact post_of_boot h hwp

/-- **Inode reference counts.**  In every state reached from `fsinit` and `uinit` by thrifty
calls of any processes, every valid entry counts the processes and the files that hold it,
and an entry that nobody holds is not valid. -/
theorem inodes_exact {c : Contents} {s₀ : State} (h0 : boot c = .ok s₀)
    (h : callMachine.Path (fun s e => Thrifty s e.1 e.2) s₀ s) : InodesExact s := by
  have hboot := books_boot h0
  have hinv : Inodes s ∧ Books s ∧ Bounded s := by
    refine h.invariant (I := fun s => Inodes s ∧ Books s ∧ Bounded s)
      ⟨inodes_boot h0, hboot.1, hboot.2.2⟩ ?_
    rintro s e t ⟨hs, hb, hbound⟩ hthrifty hstep
    have hready := (call_step hstep).1
    obtain ⟨-, ht⟩ := post_of_step hstep (hs.run hb hbound hready hthrifty)
    obtain ⟨-, hb', hbound'⟩ := post_of_step (E := fun _ => True) hstep
      (hb.run hready trivial trivial (fun _ => trivial) fun _ => ⟨trivial, trivial⟩)
    exact ⟨ht, hb', hbound' hbound (hthrifty.careful hstep)⟩
  exact hinv.1.exact

/-- The process opens the root directory. -/
theorem inodes_exact_open : ∃ s₀ s, boot emptyDisk = .ok s₀ ∧
    callMachine.Path (fun s e => Thrifty s e.1 e.2) s₀ s ∧ (s.inode 2).refcnt = 2 ∧
    InodesExact s := by
  obtain ⟨s₀, s, h0, hpath, hcount⟩ := exists_boot_run emptyDisk
    (fun s e => (s.file 2).refcnt = 0 ∧ (s.proc e.1).ofile 2 = none ∧ (e.2 matches .open _ _))
    [(1, .open emptyDisk (some [0x2F]))] (fun s => (s.inode 2).refcnt = 2) (by decide +kernel)
  have hthrifty : callMachine.Path (fun s e => Thrifty s e.1 e.2) s₀ s := by
    refine hpath.mono ?_
    rintro s ⟨p, c⟩ ⟨hfile, hfd, hopen⟩
    cases c with
    | «open» c path => exact fun _ => ⟨⟨2, hfile⟩, 2, hfd⟩
    | _ => cases hopen
  exact ⟨s₀, s, h0, hthrifty, hcount, inodes_exact h0 hthrifty⟩

/-- After `sys_execv` of the root directory, which fails, its inode counts a reference that
nobody holds. -/
theorem not_inodes_exact : ∃ s₀ s, boot emptyDisk = .ok s₀ ∧
    callMachine.Path (fun _ _ => True) s₀ s ∧ ¬ InodesExact s := by
  obtain ⟨s₀, s, h0, hpath, hvalid, hcount, hholders⟩ := exists_boot_run emptyDisk
    (fun _ _ => True) [(1, .execv emptyDisk (some [0x2F]) false)]
    (fun s => (s.inode 2).valid ∧ (s.inode 2).refcnt = 2 ∧ inodeHolders s 2 = 1)
    (by decide +kernel)
  refine ⟨s₀, s, h0, hpath, fun hexact => ?_⟩
  have heq := (hexact 2).1 hvalid
  omega

end Mixv6.Syscall
