import Mixv6.Syscall.Memory

/-!
# Private memories

`uinit` makes the first process, and from then on the memory of each process is its own, in all
runs: what it has is what it has made of it.

## Main definitions

* `uinit`, `main`, `boot` — the first process.
* `private_memory` — the memories in all runs.
* `image_size` — the size that is recorded, and what a fork can panic for.
-/

namespace Mixv6.Syscall.Fork

open Mixv6.Lib Mixv6.Kernel
open Mixv6.Mm (page_add Phys Layout Heap SpaceOk Space Tag Ghost Vm KERNEND USEREND PAGESIZE MEMSIZE PTE_ADDR
  page present translate IsPage Frame Undisturbed)
open Mixv6.Syscall.User (Env)

/-! ## The first process -/

/-- `initcode`. -/
def initcode : List UInt8 :=
  [0x6a, 0x00, 0x68, 0x19, 0x00, 0x00, 0x40, 0x6a, 0x00, 0xb8, 0x0B, 0x00, 0x00, 0x00, 0xcd, 0x40,
    0xb8, 0x01, 0x00, 0x00, 0x00, 0xcd, 0x40, 0xeb, 0xf7, 0x73, 0x68, 0x65, 0x6c, 0x6c, 0x00, 0x00]

/-- `uinit`, up to `switchuvm`; `initcode` lies at `start`. -/
def uinit (L : Layout) (trapret : ℕ) (c : Contents) (start : ℕ) : Kern Unit := do
  let size := initcode.length
  onTables (modify fun s =>
    { s with tab := { s.tab with stat := Function.update s.tab.stat 0 .ZOMB } })
  match ← palloc none trapret with
  | none => throw (.tables .uinit)
  | some p =>
      let pgdir ← onPhys (Mm.setupkvm L)
      setBody p fun b => { b with pgdir }
      -- `panic("uinit: setupkvm")`
      if pgdir = 0 then throw (.tables .uinit)
      onPhys (Mm.inituvm pgdir start size)
      setBody p fun b => { b with size }
      let tf := ((← get).body p).tf
      onPhys (Mm.store (tf + 68) (KERNEND + PAGESIZE))
      onPhys (Mm.store (tf + 56) KERNEND)
      let ip ← onTables (getrootdir c)
      onTables (modify fun s => { s.setProc p { s.proc p with cwd := some ip } with
        tab := { s.tab with stat := Function.update s.tab.stat p .RUN } })

/-- `main`, with what it does to the memory and to the tables. -/
def main (L : Layout) (trapret : ℕ) (c : Contents) (start : ℕ) : Kern Unit := do
  onPhys (Mm.kinit L)
  onTables fsinit
  uinit L trapret c start

/-- The state in which the first process starts. -/
def boot (L : Layout) (trapret : ℕ) (c : Contents) (m : Mem) (start : ℕ) : Except Stop State := do
  let ((), s) ← main L trapret c start ⟨.zero, ⟨m, 0, []⟩, fun _ => ⟨0, 0, 0, 0, 0⟩⟩
  return s

variable {L : Layout} {s t u : State} {p q np : Slot} {F F' : List ℕ} {own own' : ℕ → Tag} {k n a trapret : ℕ}
  {sp sp' : Space} {σ σ' : Phys} {m m' : Mem} {key : Slot → ℕ} {sps : Slot → Space} {g g' : Ghost}
  {E : Mm.Panic → Prop}

/-- **`inituvm`** where there is memory: the first page is there, and no other. -/
theorem wp_inituvm_page (h : Vm L n σ g) {start size : ℕ} (hsize : size ≤ PAGESIZE)
    (hpte : ∀ v, 0x40000 ≤ v → ¬ present (g.sp.pte v)) (hroom : 1025 < g.free.length) :
    wp E (Mm.inituvm g.sp.dir start size) (fun _ σ' => ∃ g', Vm L n σ' g' ∧ Frame n σ g.own σ' g'.own ∧
      g'.sp.dir = g.sp.dir ∧ g.free.length ≤ g'.free.length + 1025 ∧
      ∀ v, 0x40000 ≤ v → (present (g'.sp.pte v) ↔ v = 0x40000)) σ := by
  simp only [PAGESIZE] at hsize
  have hva : KERNEND = 4096 * 0x40000 := rfl
  refine wp_bind.mpr (h.heap.wp_kalloc (fun hnil => ?_) fun pg F hF hpg => ?_)
  · simp [hnil] at hroom
  have hpage := h.heap.pages pg (by rw [(h.heap.free pg).mp (by simp [hF])]; simp)
  obtain ⟨h₁, hf₁⟩ := h.takeUser hF 0x40000 (m := (σ.newPage pg).mem) fun x => Mm.newPage_mem hpage.1
  have hmap := Mm.wp_mapPage (E := E) (v := 0x40000) (p := pg) h₁ (by decide) (by decide) (by simp)
    (show 6 < 4096 by decide) (hpte _ (le_refl _))
  rw [Mm.memset, wp_bind, wp_modify, hva]
  refine wp_seq hmap ?_
  rintro r σ' ⟨g', k, h', hm, hr⟩
  have hown : g'.own pg = .user n 0x40000 := by
    rw [hm.own pg (by simp)]
    simp
  have hmem : ∀ x, page x ≠ pg → σ'.mem.movsb start pg size x = σ'.mem x := fun x =>
    Mm.movsb_inside hpage.1 (by omega)
  rw [Mm.memmove, wp_modify]
  -- There is memory for all page tables.
  have hcount := hm.count
  have htables := g'.sp.tables_le
  rw [hF, List.length_cons] at hroom
  simp only at hcount
  have hk : k = 1 := by
    rcases hr with ⟨-, hk⟩ | ⟨-, -, hnil, -⟩
    · exact hk
    · simp only [hnil, List.length_nil] at hcount
      omega
  have hlength : g.free.length ≤ g'.free.length + 1025 := by
    rw [hF, List.length_cons]
    omega
  refine ⟨g', h'.scribble fun x hx => hmem x ?_,
    (hf₁.trans hm.frame).trans (.write (by rw [hown]; rfl) hmem), hm.grow.dir, hlength, fun v hv => ?_⟩
  · rintro rfl
    simp [hown] at hx
  · have hpa := hpage.1
    rw [hm.pte]
    split
    next hin => exact iff_of_true (Mm.present_pte (by omega)) (by omega)
    next hout => exact iff_of_false (hpte v hv) (by omega)

/-- A process with one page, and no others. -/
theorem order_first {g : Ghost} (hvm : Vm L n t.phys g) (hstack : g.own (t.body p).kstack = .kstack p)
    (honly : ∀ q, Has t q → q = p) (hdir : g.sp.dir = (t.body p).pgdir)
    (htf : (t.body p).tf = (t.body p).kstack + STACKSIZE - TRAPFRAME)
    (hsize : (t.body p).size = initcode.length)
    (hpresent : ∀ v, 0x40000 ≤ v → (present (g.sp.pte v) ↔ v = 0x40000)) :
    Order L t g.free g.own (fun _ => n) fun _ => g.sp := by
  refine ⟨hvm.heap, fun q hq => ?_, fun i j hi hj _ => (honly i hi).trans (honly j hj).symm⟩
  obtain rfl := honly q hq
  simp only [initcode, List.length_cons, List.length_nil] at hsize
  refine ⟨hvm.space, hdir, hstack, htf, ?_, fun v hv => ?_⟩
  · simp only [KERNEND, USEREND]
    omega
  · rw [hpresent v hv]
    simp only [KERNEND]
    omega

/-- **`palloc`** where there is memory. -/
theorem wp_palloc_page (h : Heap L s.phys (k :: F) own) {E : Stop → Prop} {maker : Option ℕ}
    {Q : Option Slot → State → Prop} (hfull : freeSlot s.tables = none → Q none s)
    (hsome : ∀ i m, freeSlot s.tables = some i → (∀ x, page x ≠ k → m x = s.phys.mem x) →
      Q (some i) ⟨s.tables.made i maker, { s.phys.take k with mem := m }, Function.update s.body i
        ⟨0, 0, k, k + STACKSIZE - TRAPFRAME, k + STACKSIZE - TRAPFRAME - CONTEXT⟩⟩) :
    wp E (palloc maker trapret) Q s := by
  have hpage := h.pages k (by simp [(h.free k).mp])
  simp only [palloc, wp_bind, wp_get]
  split
  next hfree => exact wp_pure.mpr (hfull hfree)
  next i hfree =>
    simp only [setBody, onPhys, onTables, wp_bind, wp_modify, wp_zoom]
    refine h.wp_kalloc (fun hnil => absurd hnil (List.cons_ne_nil k F)) fun k' F' hF hk => ?_
    obtain ⟨rfl, rfl⟩ := List.cons.inj hF
    refine Syscall.wp_palloc (fun hnone => ?_) (fun _ _ hcon => ?_) fun j hj _ => ?_
    · rw [hfree] at hnone
      cases hnone
    · simp [hk] at hcon
    · obtain rfl : i = j := Option.some.inj (hfree.symm.trans hj)
      simp only [wp_bind, wp_modify, wp_zoom, wp_pure, Function.update_self, Function.update_idem]
      apply hsome i _ hfree
      exact fun x hx => newFrame_of_ne hpage.1 hx

/-- `palloc` on the tables. -/
theorem palloc_tables {ts : Syscall.State} {maker : Option ℕ} {i : Slot} (hfree : freeSlot ts = some i) :
    Syscall.palloc maker true ts = .ok (some i, ts.made i maker) := by
  apply run_eq_of_wp
  refine Syscall.wp_palloc (fun hnone => ?_) (fun _ _ hcon => ?_) fun j hj _ => ?_
  · rw [hfree] at hnone
    cases hnone
  · cases hcon
  · obtain rfl : i = j := Option.some.inj (hfree.symm.trans hj)
    exact ⟨rfl, rfl⟩

/-- What the start makes: one process, which is in order, and the tables `R`. -/
def Starts (L : Layout) (n : ℕ) (R : Syscall.State → Prop) (t : State) : Prop :=
  ∃ F own key sps p, Order L t F own key sps ∧ n ≤ F.length + 1155 ∧ R t.tables ∧ Has t p ∧
    t.tables.tab.stat p = .RUN ∧ (t.body p).size = initcode.length

/-- **`uinit`** makes a process with one page, and does to the tables what it does where there is
memory. -/
theorem wp_uinit (h : Heap L s.phys F own) (hnew : ∀ q, ¬ (own q).of n) (hroom : 2052 < F.length)
    (hbody : ∀ p, (s.body p).pgdir = 0) {E : Stop → Prop} {c : Contents} {start : ℕ}
    {R : Syscall.State → Prop}
    (htables : wp (fun e => E (.tables e)) (Syscall.uinit c) (fun _ ts => R ts) s.tables) :
    wp E (uinit L trapret c start) (fun _ t => Starts L F.length R t) s := by
  cases F with
  | nil => simp at hroom
  | cons pg F₀ =>
      rw [List.length_cons] at hroom ⊢
      simp only [Syscall.uinit, wp_bind, wp_modify] at htables
      simp only [uinit, onTables, wp_bind, wp_zoom, wp_modify]
      revert htables
      generalize ({ s.tables with tab := { s.tables.tab with
        stat := Function.update s.tables.tab.stat 0 .ZOMB } } : Syscall.State) = tables
      intro htables
      have hheap : Heap L (⟨tables, s.phys, s.body⟩ : State).phys (pg :: F₀) own := h
      apply wp_palloc_page hheap
      · intro hnone
        have hpalloc : Syscall.palloc none true tables = .ok (none, tables) := by
          apply run_eq_of_wp
          refine Syscall.wp_palloc (fun _ => ⟨rfl, rfl⟩) (fun _ _ hcon => ?_) fun j hj _ => ?_
          · cases hcon
          · rw [hnone] at hj
            cases hj
        have hstop := wp_ok htables hpalloc
        simp only [wp_throw] at hstop
        exact wp_throw.mpr hstop
      · intro np m hnp hm
        have hfree : own pg = .free := (h.free pg).mp (by simp)
        have hpage := (h.pages pg (by simp [hfree])).1
        have htaken : Heap L { s.phys.take pg with mem := m } F₀ (Function.update own pg (.kstack np)) := by
          refine (h.take (show Tag.kstack np ≠ .free by simp)).congr rfl fun q hq x hx => hm x ?_
          rintro rfl
          exact (List.nodup_cons.mp h.nodup).1 (hx ▸ hq)
        have hnew' : ∀ q, ¬ (Function.update own pg (.kstack np) q).of n := Mm.not_of_update hnew id
        simp only [onPhys, setBody, wp_bind, wp_zoom, wp_modify]
        have hsetup := Mm.wp_setupkvm (E := fun e => E (.mm e)) htaken hnew'
        refine wp_mono hsetup ?_
        rintro r σ (⟨hr, g, rfl, hmade⟩ | ⟨-, hfew, -⟩)
        · have hcount := hmade.count
          simp only [Mm.kvmPages] at hcount
          have hnone : ∀ v, 0x40000 ≤ v → ¬ present (g.sp.pte v) := by
            intro v hv
            rw [hmade.user v (by omega)]
            exact Bool.false_ne_true
          simp only [if_neg hr, wp_bind, wp_zoom, wp_modify, Function.update_self, Function.update_idem]
          have hsize : initcode.length ≤ PAGESIZE := by decide
          have hinit : wp (fun e => E (.mm e)) (Mm.inituvm g.sp.dir start initcode.length) _ σ :=
            wp_inituvm_page hmade.vm hsize hnone (by omega)
          refine wp_mono hinit ?_
          rintro - σ' ⟨g', hvm, hframe, hdir, hlength, hpresent⟩
          have hstack : g'.own pg = .kstack np := by
            obtain ⟨new, hf⟩ := hmade.frame.trans hframe
            rw [hf.others pg (by simp) (by simp [Tag.of]), Function.update_self]
          simp only [wp_get, wp_modify, Mm.store, Function.update_self]
          have hroot := wp_ok htables (palloc_tables hnp)
          simp only [wp_bind, wp_modify] at hroot
          refine wp_mono (wp_run hroot) ?_
          rintro ip v ⟨hR, hrun⟩
          have honly : wp (fun _ => True) (getrootdir c) _ (tables.made np none) := wp_getrootdir_only trivial
          obtain ⟨table, rfl⟩ := wp_ok honly hrun
          refine ⟨g'.free, g'.own, fun _ => n, fun _ => g'.sp, np, ?_, by omega, hR, by simp [Has, hr],
            by simp, by simp⟩
          refine order_first (p := np) (vm_stack hvm hstack fun x hx => ?_) ?_ ?_ ?_ ?_ ?_ hpresent
          · simp only [page, STACKSIZE, TRAPFRAME] at hx ⊢
            rw [Mem.store32_of_ne (by omega), Mem.store32_of_ne (by omega)]
          · simpa using hstack
          · intro q hq
            by_contra hne
            exact hq.2 (by simp [hne, hbody])
          · simpa using hdir
          · simp
          · simp
        · simp only [Mm.kvmPages] at hfew
          omega

/-- **`main`** gets to its first process, where the kernel leaves sixteen megabytes free. -/
theorem wp_main {c : Contents} {start : ℕ} {E : Stop → Prop} {R : Syscall.State → Prop}
    (hroom : L.kernel_end + 0x1000000 ≤ MEMSIZE)
    (htables : wp (fun e => E (.tables e)) (do fsinit; Syscall.uinit c : Syscall.Kern Unit)
      (fun _ ts => R ts) .zero) :
    wp E (main L trapret c start) (fun _ t => Starts L 4096 R t) ⟨.zero, ⟨m, 0, []⟩, fun _ => ⟨0, 0, 0, 0, 0⟩⟩ := by
  simp only [main, onPhys, wp_bind, wp_zoom]
  refine wp_mono (Mm.Heap.wp_kinit rfl) ?_
  rintro - σ ⟨F, hheap, hlength, -⟩
  simp only [onTables, wp_zoom]
  rw [wp_bind] at htables
  refine wp_mono htables fun _ tables huinit => ?_
  simp only [MEMSIZE] at hroom hlength
  have hstart : wp E (uinit L trapret c start) _ ⟨tables, σ, fun _ => ⟨0, 0, 0, 0, 0⟩⟩ :=
    wp_uinit hheap (fun q => Mm.Heap.not_of_upTo q 0) (by omega) (fun _ => rfl) huinit
  refine wp_mono hstart ?_
  rintro - t ⟨F', own, key, sps, p, horder, hlen, hrest⟩
  exact ⟨F', own, key, sps, p, horder, by omega, hrest⟩

theorem boot_eq_ok {c : Contents} {start : ℕ} : boot L trapret c m start = .ok s ↔
    main L trapret c start ⟨.zero, ⟨m, 0, []⟩, fun _ => ⟨0, 0, 0, 0, 0⟩⟩ = .ok ((), s) := by
  rw [boot]
  generalize main L trapret c start ⟨.zero, ⟨m, 0, []⟩, fun _ => ⟨0, 0, 0, 0, 0⟩⟩ = r
  rcases r with e | ⟨⟨⟩, t⟩
  · simp [bind, Except.bind]
  · simp [bind, Except.bind, pure, Except.pure]

/-- When the kernel has started the processes are in order, and the tables are those of the first
process. -/
theorem starts_boot {c : Contents} {start : ℕ} (hroom : L.kernel_end + 0x1000000 ≤ MEMSIZE)
    (h : boot L trapret c m start = .ok s) : Starts L 4096 (fun ts => Syscall.boot c = .ok ts) s := by
  have htables : wp (fun _ => True) (do fsinit; Syscall.uinit c : Syscall.Kern Unit)
      (fun _ ts => Syscall.boot c = .ok ts) .zero := by
    refine wp_mono (wp_run (wp_trivial fun _ => trivial)) ?_
    rintro ⟨⟩ ts ⟨-, hrun⟩
    simp only [Syscall.boot, hrun]
    rfl
  have hwp : wp (fun _ => True) (main L trapret c start) _ ⟨.zero, ⟨m, 0, []⟩, fun _ => ⟨0, 0, 0, 0, 0⟩⟩ :=
    wp_main hroom htables
  have hend := wp_ok hwp (boot_eq_ok.mp h)
  exact hend

theorem inOrder_boot {c : Contents} {start : ℕ} (hroom : L.kernel_end + 0x1000000 ≤ MEMSIZE)
    (h : boot L trapret c m start = .ok s) : InOrder L s := by
  obtain ⟨F, own, key, sps, -, horder, -⟩ := starts_boot hroom h
  exact ⟨F, own, key, sps, horder⟩

/-- The kernel starts where it does on the tables. -/
theorem exists_boot {c : Contents} {ts : Syscall.State} (h : Syscall.boot c = .ok ts) :
    ∃ s, boot Mm.smallLayout 0 c (fun _ => 0) 0 = .ok s ∧ Starts Mm.smallLayout 4096 (· = ts) s := by
  have htables : wp (fun _ => False) (do fsinit; Syscall.uinit c : Syscall.Kern Unit)
      (fun _ u => u = ts) .zero := by
    simp only [Syscall.boot] at h
    rcases hrun : (do fsinit; Syscall.uinit c : Syscall.Kern Unit) .zero with e | ⟨⟨⟩, t⟩
    · rw [hrun] at h
      cases h
    · rw [hrun] at h
      obtain rfl : t = ts := by simpa [bind, Except.bind, pure, Except.pure] using h
      exact wp_iff.mpr (.inl ⟨(), t, hrun, rfl⟩)
  have hwp : wp (fun _ => False) (main Mm.smallLayout 0 c 0) _
      ⟨.zero, ⟨fun _ => 0, 0, []⟩, fun _ => ⟨0, 0, 0, 0, 0⟩⟩ := wp_main (by decide) htables
  obtain ⟨_, s, hrun, hstarts⟩ := wp_total.mp hwp
  exact ⟨s, boot_eq_ok.mpr hrun, hstarts⟩

/-! ## Runs -/

/-- Process `p` does it to its own memory. -/
def Op.Of (p : Slot) : Op → Prop
  | .execv q .. => q = p
  | .pfree q => q = p
  | .store q .. => q = p
  | _ => False

/-- What other processes do is no change of the cell. -/
theorem Means.not_of {e : Op} {d : CellOp Slot Image} (h : Means e d) (he : ¬ e.Of p) : ¬ d.Of p := by
  cases e with
  | fork q r =>
      simp only [Means] at h
      split at h
      · obtain rfl := h
        exact id
      · obtain ⟨np, rfl⟩ := h
        exact id
  | execv q env args r =>
      rcases h with ⟨-, rfl⟩ | ⟨-, im, esp, rfl, -⟩
      · exact id
      · exact he
  | pfree q =>
      obtain rfl := h
      exact he
  | store q a b =>
      obtain rfl := h
      exact he
  | tables =>
      obtain rfl := h
      exact id
  | kernel =>
      obtain rfl := h
      exact id

/-- **Private memories.**  From every state that is reached on, the run is one of private cells: the
child of a `fork` starts with a copy of its parent, `execv` and stores change the memory of their
process, and `pfree` drops it.  The memory of a process stays as it is while it does none of these
itself. -/
theorem private_memory {c : Contents} {start : ℕ} {s₀ : State} {es : List Op}
    (hroom : L.kernel_end + 0x1000000 ≤ MEMSIZE) (hboot : boot L trapret c m start = .ok s₀)
    (hs : (machine L trapret).Path (Allowed L) s₀ s) (h : (machine L trapret).Trace (Allowed L) s es t) :
    (∃ ds, List.Forall₂ Means es ds ∧ (cells Slot Image).Trace (fun _ _ => True) (view s) ds (view t)) ∧
    ∀ p im, view s p = some im → (∀ e ∈ es, ¬ e.Of p) → view t p = some im := by
  have horder := (refines L trapret).invariant (inOrder_boot hroom hboot) hs
  obtain ⟨-, ds, hds, htrace⟩ := (refines L trapret).trace horder h
  refine ⟨⟨ds, hds, htrace⟩, fun p im him hes => cells_frame htrace him fun d hd => ?_⟩
  obtain ⟨e, he, hmeans⟩ := Machine.exists_means hds hd
  exact hmeans.not_of (hes e he)

/-- The tables of the first process. -/
theorem exists_first : ∃ ts, Syscall.boot User.emptyEnv.contents = .ok ts ∧ (ts.proc 1).cwd ≠ none ∧
    ts.nextpid = 1 ∧ ts.tab.stat 2 = .UNUSED ∧ ∀ p, ts.tab.stat p = .RUN → p = 1 := by
  have htest : (Syscall.boot User.emptyEnv.contents).toOption.any (fun ts => decide ((ts.proc 1).cwd ≠ none ∧
      ts.nextpid = 1 ∧ ts.tab.stat 2 = .UNUSED ∧ ∀ p, ts.tab.stat p = .RUN → p = 1)) = true := by
    decide +kernel
  rcases hboot : Syscall.boot User.emptyEnv.contents with e | ts
  · rw [hboot] at htest
    cases htest
  · rw [hboot] at htest
    exact ⟨ts, rfl, of_decide_eq_true htest⟩

/-- The first process forks. -/
theorem exists_fork : ∃ s r np u im c, boot Mm.smallLayout 0 User.emptyEnv.contents (fun _ => 0) 0 = .ok s ∧
    (machine Mm.smallLayout 0).Trace (Allowed Mm.smallLayout) s [.fork 1 r] u ∧ r ≠ -1 ∧ np ≠ 1 ∧
    view s 1 = some im ∧ im.size = initcode.length ∧ im.byte KERNEND = some c ∧ view u np = some im := by
  obtain ⟨ts, hts, hcwd, hpid, hun, honly⟩ := exists_first
  obtain ⟨hbooks, hforks, -⟩ := books_boot hts
  obtain ⟨s, hboot, F, own, key, sps, p, horder, hlen, rfl, hp, hrun, hsize⟩ := exists_boot hts
  obtain rfl := honly p hrun
  have halive := horder.alive hp
  have hlacks : ¬ Lacks s 1 F := by
    rintro (hall | hfew)
    · exact hall 2 hun
    · simp only [hsize, show Mm.copyPages initcode.length = 131 from rfl] at hfew
      omega
  have hforked : wp _ (sys_fork Mm.smallLayout 0 1) _ s := wp_forked halive hbooks hrun
  have hcell : wp _ (sys_fork Mm.smallLayout 0 1) _ s := horder.wp_fork hp
  rcases hcall : sys_fork Mm.smallLayout 0 1 s with e | ⟨r, u⟩
  · have hpanic := wp_error hforked hcall
    exact absurd (steady_of_books hbooks hforks hcwd) hpanic.2
  · have hend := wp_ok hforked hcall
    obtain ⟨F', own', key', sps', -, hview⟩ := wp_ok hcell hcall
    rcases hend with ⟨hcon, -⟩ | ⟨-, np, hr, hcopy, -⟩
    · exact absurd hcon hlacks
    · have hone : r = 1 := by
        rw [hr, hcopy.pid, hpid]
        rfl
      rcases hview with ⟨rfl, -⟩ | ⟨-, np, hnone, hview⟩
      · cases hone
      · have himage := halive.image KERNEND (le_refl _) (by rw [hsize]; decide)
        obtain ⟨x, hx⟩ := Option.ne_none_iff_exists'.mp himage
        have hok : Allowed Mm.smallLayout s (.fork 1 r) := ⟨hp, by rw [hpid]; decide⟩
        have hstep : (machine Mm.smallLayout 0).step s (.fork 1 r) = some u := by
          simp [machine, exec, hcall, Except.toOption]
        have hne : np ≠ 1 := by
          rintro rfl
          rw [view_of_has hp] at hnone
          cases hnone
        have hbyte : user s.phys (s.body 1).pgdir KERNEND = some (s.phys.mem x) := by
          rw [user, if_pos (by decide), Mm.peek, hx, Option.map_some]
        refine ⟨s, r, np, u, _, _, hboot, Machine.Trace.nil.snoc _ hok hstep, by rw [hone]; decide, hne,
          view_of_has hp, hsize, hbyte, ?_⟩
        rw [hview, Function.update_self]
        exact view_of_has hp

/-- The first process forks, and its child stores a byte. -/
theorem private_memory_store : ∃ s r np u t im b,
    boot Mm.smallLayout 0 User.emptyEnv.contents (fun _ => 0) 0 = .ok s ∧ view s 1 = some im ∧
    (machine Mm.smallLayout 0).Trace (Allowed Mm.smallLayout) s [.fork 1 r] u ∧ r ≠ -1 ∧
    (machine Mm.smallLayout 0).Trace (Allowed Mm.smallLayout) u [.store np KERNEND b] t ∧ np ≠ 1 ∧
    im.byte KERNEND ≠ some b ∧ view t 1 = some im ∧ view t np = some (im.store KERNEND b) := by
  have hroom : Mm.smallLayout.kernel_end + 0x1000000 ≤ MEMSIZE := by decide
  obtain ⟨s, r, np, u, im, c, hboot, hfork, hr, hne, him, -, hbyte, hchild⟩ := exists_fork
  have hhas : Has u np := by
    by_contra hcon
    rw [view, if_neg hcon] at hchild
    cases hchild
  have hin : user u.phys (u.body np).pgdir KERNEND = some c := by
    rw [view_of_has hhas] at hchild
    obtain rfl := Option.some.inj hchild
    exact hbyte
  rw [user, if_pos (by decide), Mm.peek] at hin
  obtain ⟨x, hx, -⟩ := Option.map_eq_some_iff.mp hin
  have hok : Allowed Mm.smallLayout u (.store np KERNEND (c + 1)) := ⟨hhas, le_refl _, by decide⟩
  have hstep : ∃ t, (machine Mm.smallLayout 0).step u (.store np KERNEND (c + 1)) = some t := by
    simp only [machine, exec, hx]
    exact ⟨_, rfl⟩
  obtain ⟨t, hstep⟩ := hstep
  have hstore := Machine.Trace.nil.snoc _ hok hstep
  obtain ⟨⟨ds, hds, hrun⟩, hkept⟩ := private_memory hroom hboot hfork.path hstore
  -- The parent has its memory, from before the fork on.
  have hparent : view t 1 = some im := by
    obtain ⟨-, hsame⟩ := private_memory hroom hboot .refl hfork
    refine hkept 1 im (hsame 1 im him fun e he => ?_) fun e he => ?_
    · obtain rfl := List.mem_singleton.mp he
      exact id
    · obtain rfl := List.mem_singleton.mp he
      exact hne
  cases hds with
  | cons hd hnil =>
      cases hnil
      obtain rfl := hd
      have hcell := hrun.step_eq
      simp only [cells, hchild, Option.map_some, Option.some.injEq] at hcell
      refine ⟨s, r, np, u, t, im, c + 1, hboot, him, hfork, hr, hstore, hne, ?_, hparent, ?_⟩
      · rw [hbyte]
        simp
      · rw [← hcell, Function.update_self]

/-- **The size of an image.**  In every state that is reached, a process has the pages that
`[KERNEND, KERNEND + size)` meets, and no others above `KERNEND`; `sys_fork` finds all of them, and
stops for want of file or inode entries only. -/
theorem image_size {c : Contents} {start : ℕ} {s₀ : State} (hroom : L.kernel_end + 0x1000000 ≤ MEMSIZE)
    (hboot : boot L trapret c m start = .ok s₀) (h : (machine L trapret).Path (Allowed L) s₀ t) :
    ∀ p, Has t p → KERNEND + (t.body p).size ≤ USEREND ∧
      (∀ a, KERNEND ≤ a → a < 2 ^ 32 → (translate t.phys (t.body p).pgdir a ≠ none ↔
        a < Mm.PGROUNDUP (KERNEND + (t.body p).size))) ∧
      ∀ e, sys_fork L trapret p t ≠ .error (.mm e) := by
  obtain ⟨F, own, key, sps, horder⟩ := (refines L trapret).invariant (inOrder_boot hroom hboot) h
  intro p hp
  have hl := horder.living p hp
  have hvm : Vm L (key p) t.phys ⟨F, own, sps p⟩ := ⟨horder.heap, hl.space⟩
  refine ⟨hl.size, fun a hlo ha => ?_, fun e he => ?_⟩
  · have hfilled := hl.filled (a / 4096) (by simp only [KERNEND] at hlo; omega)
    rw [Mm.PGROUNDUP_eq hl.size, ← hl.pgdir, hvm.translate ha, ne_eq, ite_eq_right_iff, not_forall]
    simp only [reduceCtorEq, not_false_eq_true, exists_prop, and_true]
    rw [hfilled]
    omega
  · have hfork : wp OfTables (sys_fork L trapret p) _ t := horder.wp_fork hp
    rcases wp_iff.mp hfork with ⟨r, u, hrun, -⟩ | ⟨e', hrun, e'', rfl⟩
    · rw [hrun] at he
      cases he
    · rw [hrun] at he
      cases he

/-- The image of a child of the first process is one page. -/
theorem image_size_fork : ∃ s r np u, boot Mm.smallLayout 0 User.emptyEnv.contents (fun _ => 0) 0 = .ok s ∧
    (machine Mm.smallLayout 0).Trace (Allowed Mm.smallLayout) s [.fork 1 r] u ∧ np ≠ 1 ∧ Has u np ∧
    translate u.phys (u.body np).pgdir (KERNEND + 4095) ≠ none ∧
    translate u.phys (u.body np).pgdir (KERNEND + 4096) = none ∧
    ∀ e, sys_fork Mm.smallLayout 0 np u ≠ .error (.mm e) := by
  have hroom : Mm.smallLayout.kernel_end + 0x1000000 ≤ MEMSIZE := by decide
  obtain ⟨s, r, np, u, im, c, hboot, hfork, -, hne, -, hsize, -, hchild⟩ := exists_fork
  have hhas : Has u np := by
    by_contra hcon
    rw [view, if_neg hcon] at hchild
    cases hchild
  rw [view_of_has hhas] at hchild
  obtain rfl := Option.some.inj hchild
  obtain ⟨-, hmapped, hpanic⟩ := image_size hroom hboot hfork.path np hhas
  rw [show (u.body np).size = initcode.length from hsize] at hmapped
  refine ⟨s, r, np, u, hboot, hfork, hne, hhas, ?_, ?_, hpanic⟩
  · exact (hmapped _ (by decide) (by decide)).mpr (by decide)
  · by_contra hcon
    exact absurd ((hmapped _ (by decide) (by decide)).mp hcon) (by decide)

end Mixv6.Syscall.Fork
