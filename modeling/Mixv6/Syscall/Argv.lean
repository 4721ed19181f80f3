import Mathlib.Combinatorics.Pigeonhole
import Mixv6.Syscall.Arguments

/-!
# What a call comes to in the memory of its caller

`sys_execv` follows the pointers of `argv`: it loads each entry, each string up to the null, and,
because `strlen` counts the null already, the byte behind the null.  This module says which entries it
comes to, for a caller whose pages are pages of the memory, and with it when a call with pointers among
its arguments stays in the memory of its caller.

## Main definitions

* `ComesTo`, `EntryInside` — the entries that the loop comes to, and what it loads for one.
* `wp_loop_iff` — the loop stays in the memory of the caller if and only if they lie there.
* `Caller` — the allocator and the address space of the caller are in order.
* `InUser`, `confined_iff` — the calls.
-/

namespace Mixv6.Syscall.User

open Mixv6.Lib Mixv6.Kernel
open Mixv6.Mm (KERNEND USEREND MEMSIZE PAGESIZE PTE_ADDR present loopFuel Phys Ghost Tag Space SpaceOk Vm Heap
  IsPage)
open Mixv6.Fs.Cache (toInt)

variable {env : Env} {s w : State} {n t p argv i sp va : ℕ} {E : Stop → Prop}

/-! ## The entries -/

/-- The loop comes to entry `i` with the stack pointer `sp`: there have been strings up to there, and all
of them have found room between `KERNEND` and the end `va` of the stack. -/
inductive ComesTo (s : State) (argv va : ℕ) : ℕ → ℕ → Prop
  | start : ComesTo s argv va 0 va
  | next {i sp n : ℕ} : ComesTo s argv va i sp → i < NARGV → s.word (argv + 4 * i) ≠ 0 → n < 2 ^ 32 →
      Length s (s.word (argv + 4 * i)) n → KERNEND ≤ pushed sp n → ComesTo s argv va (i + 1) (pushed sp n)

/-- What the loop loads for an entry: the pointer, the string with its null, and, if there is room for a
copy, the byte behind the null. -/
def EntryInside (s : State) (argv i sp : ℕ) : Prop :=
  s.Range (argv + 4 * i) 4 ∧ (s.word (argv + 4 * i) ≠ 0 → CString s (s.word (argv + 4 * i)) ∧
    ∀ n < 2 ^ 32, Length s (s.word (argv + 4 * i)) n → KERNEND ≤ pushed sp n →
      s.Present (s.word (argv + 4 * i) + n + 1))

/-- The entries depend on the memory of the caller only. -/
theorem ComesTo.congr {s' : State} (h : ComesTo s argv va i sp) (hmem : s'.mem = s.mem) :
    ComesTo s' argv va i sp := by
  have hbyte : ∀ a, s'.byte a = s.byte a := fun a => congrFun hmem _
  induction h with
  | start => exact .start
  | next _ hi hne hn hlen hroom ih =>
      have hword : ∀ a, s'.word a = s.word a := fun a => by simp only [State.word, hbyte]
      refine ih.next hi (by rwa [hword]) hn ?_ hroom
      simpa only [Length, hword, hbyte] using hlen

/-! ## The length of a string -/

section Short
variable {L : Mm.Layout} {σ : Phys} {F : List ℕ} {own : ℕ → Tag} {sp : Space}

/-- No more pages are mapped than there are in the memory. -/
theorem mapped_le (h : Heap L σ F own) (hsp : SpaceOk own t sp σ.mem) {v : ℕ → ℕ}
    (hinj : ∀ i < n, ∀ j < n, v i = v j → i = j)
    (hmapped : ∀ i < n, 0x40000 ≤ v i ∧ present (sp.pte (v i))) : n ≤ 0x1FF00 := by
  have howner : ∀ i < n, own (PTE_ADDR (sp.pte (v i))) = .user t (v i) := fun i hi =>
    hsp.user _ (hmapped i hi).1 (hmapped i hi).2
  have hpage : ∀ i < n, IsPage L (PTE_ADDR (sp.pte (v i))) := by
    intro i hi
    apply h.pages
    rw [howner i hi]
    simp
  have hlow := L.ext_le
  have hkernel := L.rodata_le
  by_contra hmore
  -- Two of the numbers have the same page.
  obtain ⟨i, hi, j, hj, hne, hsame⟩ := Finset.exists_ne_map_eq_of_card_lt_of_maps_to
    (s := Finset.range n) (t := Finset.Ico 0x100 0x20000) (f := fun i => PTE_ADDR (sp.pte (v i)) / 4096)
    (by simp; omega) (by
      intro i hi
      obtain ⟨halign, hge, hlt⟩ := hpage i (Finset.mem_range.mp hi)
      simp only [Mm.EXTMEM, MEMSIZE] at hlow hlt
      simp only [Finset.coe_Ico, Set.mem_Ico]
      omega)
  rw [Finset.mem_range] at hi hj
  have hpages : PTE_ADDR (sp.pte (v i)) = PTE_ADDR (sp.pte (v j)) := by
    have h1 := (hpage i hi).1
    have h2 := (hpage j hj).1
    omega
  have howners := (howner i hi).symm.trans ((congrArg own hpages).trans (howner j hj))
  simp only [Tag.user.injEq, true_and] at howners
  exact hne (hinj i hi j hj howners)

/-- A string in pages of the caller is shorter than the memory. -/
theorem CString.lt (h : Heap L σ F own) (hsp : SpaceOk own t sp σ.mem)
    (huser : ∀ v, s.user v → 0x40000 ≤ v ∧ present (sp.pte v)) (hstr : CString s p) (hn : n < 2 ^ 32)
    (hlen : Length s p n) : n < 0x1FF00000 := by
  by_contra hlong
  have hpages : (0x1FF01 : ℕ) ≤ 0x1FF00 := by
    apply mapped_le h hsp (v := fun i => (p + 4096 * i) % 2 ^ 32 / 4096)
    · intro i hi j hj hij
      omega
    · intro i hi
      exact huser _ (hstr (4096 * i) (by omega) fun j hj => hlen.1 j (by omega))
  omega

end Short

/-! ## A copy -/

section Copy
variable {L : Mm.Layout} {g : Ghost} {src len : ℕ} {R : Unit → State → Prop}

/-- A copy to pages that are mapped comes to all of its bytes. -/
theorem wp_copyArg_inside (h : Vm L n s.phys g) (hva : KERNEND ≤ va) (hend : va + len ≤ USEREND)
    (hp : ∀ v, va / 4096 ≤ v → 4096 * v < va + len → present (g.sp.pte v))
    (hcopy : wp Inside (copyArg g.sp.dir va src len) R s) :
    s.Range src len ∧ ∃ σ, Vm L n σ g ∧ R () { s with phys := σ } := by
  have hrun : wp (fun e => ∃ b, e = .outside b) (copyArg g.sp.dir va src len) _ s :=
    wp_copyArg h hva hend hp (.inr fun b => ⟨b, rfl⟩)
  rcases wp_iff.mp hrun with ⟨_, _, hok, σ, rfl, hw⟩ | ⟨_, herr, b, rfl⟩
  · exact ⟨(wp_ok wp_copyArg_any hok).2, σ, hw.vm, wp_ok hcopy hok⟩
  · have hout := wp_error hcopy herr
    exact absurd rfl (hout b)

/-- A copy to an address between the memory and the user part panics before it comes to a byte. -/
theorem wp_copyArg_gap (h : Vm L n s.phys g) (hlow : MEMSIZE ≤ va) (hva : va < KERNEND) (hlen : 0 < len) :
    wp Inside (copyArg g.sp.dir va src len) R s := by
  simp only [MEMSIZE, KERNEND] at hlow hva
  have habsent : ¬ present (g.sp.pte (va / 4096)) := by
    intro hp
    have hkern := (h.space.kern _ (by omega) hp).2
    omega
  obtain ⟨fuel, hfuel⟩ : ∃ fuel, loopFuel = fuel + 1 := ⟨_, rfl⟩
  rw [copyArg, hfuel, wp_iterate_succ]
  simp only [copyTurn, onPhys, hlen, not_true_eq_false, if_false, wp_bind, wp_zoom]
  rw [Mm.walkpgdir_page]
  apply Mm.wp_walk h (by omega)
  simp only [Mm.load, wp_ite, wp_throw, wp_bind, wp_zoom, wp_get, wp_pure]
  split
  next => exact inside_mm _
  next hne =>
    rw [h.load_entry hne, if_pos habsent]
    exact inside_mm _

end Copy

/-! ## The loop -/

section Loop
variable {own : ℕ → Tag} {x : Program} {g : Ghost} {L : Mm.Layout} {σ σ₀ : Phys} {l : List ℕ}
  {R : Args ⊕ Args → State → Prop}

/-- The stack pointer is between `KERNEND` and the end of the stack. -/
structure Placed (va sp : ℕ) : Prop where
  low : KERNEND ≤ sp
  high : sp ≤ va
  top : va < USEREND

theorem Placed.pushed_lt (h : Placed va sp) {m : ℕ} (hm : m < 0x1FF00000) :
    MEMSIZE ≤ pushed sp m ∧ pushed sp m + (m + 2) ≤ sp := by
  have hlow := h.low
  have hhigh := h.high
  have htop := h.top
  simp only [KERNEND, USEREND] at hlow htop
  simp only [pushed, MEMSIZE]
  omega

/-- What a turn that stays in the memory of the caller has loaded, and where it goes on. -/
theorem Loaded.argvTurn_inside (hl : Loaded L n σ₀ own x w.phys g) (hvm : Vm L n σ g)
    (hshort : ∀ p m, CString w p → m < 2 ^ 32 → Length w p m → m < 0x1FF00000)
    (hsp : Placed x.va sp) (hturn : wp Inside (argvTurn x.pgdir argv ⟨i, sp, l⟩) R { w with phys := σ }) :
    EntryInside w argv i sp ∧ ∀ m < 2 ^ 32, w.word (argv + 4 * i) ≠ 0 →
      Length w (w.word (argv + 4 * i)) m → KERNEND ≤ pushed sp m → i < NARGV →
      ∃ σ' l', Vm L n σ' g ∧ R (.inl ⟨i + 1, pushed sp m, l'⟩) { w with phys := σ' } := by
  simp only [argvTurn, wp_bind, wp_getWord, wp_ite, wp_pure] at hturn
  obtain ⟨hentry, hturn⟩ := hturn
  have hword : State.word { w with phys := σ } (argv + 4 * i) = w.word (argv + 4 * i) := rfl
  rw [hword] at hturn
  by_cases hend : w.word (argv + 4 * i) = 0
  · exact ⟨⟨hentry, fun hne => absurd hend hne⟩, fun m _ hne => absurd hend hne⟩
  rw [if_neg hend, wp_strlen] at hturn
  obtain ⟨hstr, hcopy⟩ := hturn
  replace hstr : CString w (w.word (argv + 4 * i)) := hstr
  have hloaded : ∀ m < 2 ^ 32, Length w (w.word (argv + 4 * i)) m → KERNEND ≤ pushed sp m →
      w.Range (w.word (argv + 4 * i)) (m + 1 + 1) ∧ ∃ σ', Vm L n σ' g ∧ (i < NARGV →
        ∃ l', R (.inl ⟨i + 1, pushed sp m, l'⟩) { w with phys := σ' }) := by
    intro m hm hlen hroom
    obtain ⟨hlow, hfit⟩ := hsp.pushed_lt (hshort _ m hstr hm hlen)
    have hcopy' := hcopy m hm hlen
    rw [← hl.dir] at hcopy'
    have hhigh := hsp.high
    have htop := hsp.top
    obtain ⟨hrange, σ', hvm', hrest⟩ := wp_copyArg_inside hvm hroom (by omega)
      (fun v h1 h2 => (hl.filled v (by simp only [KERNEND] at hroom; omega)).mpr (by omega)) hcopy'
    refine ⟨hrange, σ', hvm', fun hi => ⟨l ++ [pushed sp m], ?_⟩⟩
    rw [if_neg (by omega)] at hrest
    exact hrest
  refine ⟨⟨hentry, fun _ => ⟨hstr, fun m hm hlen hroom => ?_⟩⟩, fun m hm _ hlen hroom hi => ?_⟩
  · exact (hloaded m hm hlen hroom).1 (m + 1) (by omega)
  · obtain ⟨-, σ', hvm', hnext⟩ := hloaded m hm hlen hroom
    obtain ⟨l', hR⟩ := hnext hi
    exact ⟨σ', l', hvm', hR⟩

/-- A turn whose entry lies there. -/
theorem Loaded.wp_argvTurn (hl : Loaded L n σ₀ own x w.phys g) (hvm : Vm L n σ g)
    (hshort : ∀ p m, CString w p → m < 2 ^ 32 → Length w p m → m < 0x1FF00000)
    (hsp : Placed x.va sp) (hentry : EntryInside w argv i sp)
    (hdone : ∀ a, R (.inr a) { w with phys := σ })
    (hnext : ∀ m < 2 ^ 32, w.word (argv + 4 * i) ≠ 0 → Length w (w.word (argv + 4 * i)) m →
      KERNEND ≤ pushed sp m → i < NARGV → ∀ σ' l', Vm L n σ' g →
      R (.inl ⟨i + 1, pushed sp m, l'⟩) { w with phys := σ' }) :
    wp Inside (argvTurn x.pgdir argv ⟨i, sp, l⟩) R { w with phys := σ } := by
  obtain ⟨hrange, hstring⟩ := hentry
  simp only [argvTurn, wp_bind, wp_getWord, wp_ite, wp_pure]
  have hword : State.word { w with phys := σ } (argv + 4 * i) = w.word (argv + 4 * i) := rfl
  rw [hword]
  refine ⟨hrange, ?_⟩
  by_cases hend : w.word (argv + 4 * i) = 0
  · rw [if_pos hend]
    exact hdone _
  obtain ⟨hstr, hbehind⟩ := hstring hend
  rw [if_neg hend, wp_strlen]
  refine ⟨hstr, fun m hm hlen => ?_⟩
  obtain ⟨hlow, hfit⟩ := hsp.pushed_lt (hshort _ m hstr hm hlen)
  have hpushed : (sp + 2 ^ 32 - (m + 1 + 1) % 2 ^ 32) % 2 ^ 32 / 4 * 4 = pushed sp m := rfl
  rw [← hl.dir, hpushed]
  by_cases hroom : KERNEND ≤ pushed sp m
  · have hhigh := hsp.high
    have htop := hsp.top
    have hbytes : State.Range { w with phys := σ } (w.word (argv + 4 * i)) (m + 1 + 1) := by
      intro k hk
      by_cases hlast : k = m + 1
      · subst hlast
        exact hbehind m hm hlen hroom
      · exact hstr k (by omega) fun j hj => hlen.1 j (by omega)
    have hcopy : wp Inside (copyArg g.sp.dir (pushed sp m) (w.word (argv + 4 * i)) (m + 1 + 1)) _
        { w with phys := σ } :=
      wp_copyArg hvm hroom (by omega)
        (fun v h1 h2 => (hl.filled v (by simp only [KERNEND] at hroom; omega)).mpr (by omega)) (.inl hbytes)
    refine wp_mono hcopy ?_
    rintro _ _ ⟨σ', rfl, hw⟩
    split
    next => exact wp_throw.mpr inside_argv
    next hi => exact hnext m hm hend hlen hroom (by omega) σ' _ hw.vm
  · exact wp_copyArg_gap hvm hlow (by omega) (by omega)

/-- The loop has come to the entry in a state that differs from `w` in the new address space only. -/
theorem Loaded.comesTo (hl : Loaded L n σ₀ own x w.phys g)
    (hshort : ∀ p m, CString w p → m < 2 ^ 32 → Length w p m → m < 0x1FF00000)
    (hrun : wp Inside (iterate .hang (argvTurn x.pgdir argv) (NARGV + 2) ⟨0, x.va, []⟩) (fun _ _ => True) w)
    (hc : ComesTo w argv x.va i sp) : i ≤ NARGV ∧ Placed x.va sp ∧ ∃ σ l, Vm L n σ g ∧
      wp Inside (iterate .hang (argvTurn x.pgdir argv) (NARGV + 2 - i) ⟨i, sp, l⟩) (fun _ _ => True)
        { w with phys := σ } := by
  induction hc with
  | start =>
      have hlow : KERNEND ≤ x.va := le_trans (Nat.le_add_right ..) hl.low
      exact ⟨Nat.zero_le _, ⟨hlow, le_refl _, hl.high⟩, w.phys, [], hl.vm, hrun⟩
  | @next i sp m hc hi hne hm hlen hroom ih =>
      obtain ⟨-, hsp, σ, l, hvm, hfrom⟩ := ih
      rw [show NARGV + 2 - i = NARGV + 2 - (i + 1) + 1 by omega, wp_iterate_succ] at hfrom
      obtain ⟨⟨-, hstring⟩, hnext⟩ := hl.argvTurn_inside hvm hshort hsp hfrom
      obtain ⟨σ', l', hvm', hrest⟩ := hnext m hm hne hlen hroom hi
      obtain ⟨-, hfit⟩ := hsp.pushed_lt (hshort _ m (hstring hne).1 hm hlen)
      have hhigh := hsp.high
      exact ⟨hi, ⟨hroom, by omega, hsp.top⟩, σ', l', hvm', hrest⟩

/-- **The loop over `argv`** stays in the memory of the caller if and only if the entries that it comes to
lie there. -/
theorem Loaded.wp_loop_iff (hl : Loaded L n σ₀ own x w.phys g)
    (hshort : ∀ p m, CString w p → m < 2 ^ 32 → Length w p m → m < 0x1FF00000) :
    wp Inside (iterate .hang (argvTurn x.pgdir argv) (NARGV + 2) ⟨0, x.va, []⟩) (fun _ _ => True) w ↔
      ∀ i sp, ComesTo w argv x.va i sp → EntryInside w argv i sp := by
  constructor
  · intro hrun i sp hc
    obtain ⟨hi, hsp, σ, l, hvm, hfrom⟩ := hl.comesTo hshort hrun hc
    rw [show NARGV + 2 - i = NARGV + 1 - i + 1 by omega, wp_iterate_succ] at hfrom
    exact (hl.argvTurn_inside hvm hshort hsp hfrom).1
  · intro hinside
    have hfrom : ∀ fuel i sp σ l, ComesTo w argv x.va i sp → Placed x.va sp → Vm L n σ g →
        wp Inside (iterate .hang (argvTurn x.pgdir argv) fuel ⟨i, sp, l⟩) (fun _ _ => True)
          { w with phys := σ } := by
      intro fuel
      induction fuel with
      | zero => exact fun _ _ _ _ _ _ _ => wp_throw.mpr inside_hang
      | succ fuel ih =>
          intro i sp σ l hc hsp hvm
          have hentry := hinside i sp hc
          rw [wp_iterate_succ]
          refine hl.wp_argvTurn hvm hshort hsp hentry (fun _ => trivial) ?_
          intro m hm hne hlen hroom hi σ' l' hvm'
          obtain ⟨-, hfit⟩ := hsp.pushed_lt (hshort _ m (hentry.2 hne).1 hm hlen)
          have hhigh := hsp.high
          exact ih _ _ σ' l' (hc.next hi hne hm hlen hroom) ⟨hroom, by omega, hsp.top⟩ hvm'
    have hlow : KERNEND ≤ x.va := le_trans (Nat.le_add_right ..) hl.low
    exact hfrom _ 0 x.va w.phys [] .start ⟨hlow, le_refl _, hl.high⟩ hl.vm

/-- The arguments of a program that is loaded, where `refused` says that a pointer to them has been
refused: the program is run without arguments then. -/
theorem Loaded.wp_runProgram_iff {old : Space} {refused : Prop} (hl : Loaded env.L n σ₀ own x w.phys g)
    (hshort : ∀ p m, CString w p → m < 2 ^ 32 → Length w p m → m < 0x1FF00000)
    (hold : SpaceOk own t old σ₀.mem) (hdir : old.dir = w.pgdir) (hne : t ≠ n)
    (halign : ∀ p, own p ≠ .out → p % 4096 = 0) (href : refused → argv = 0) :
    wp Inside (runProgram env argv x) (fun r _ => refused → r = -1) w ↔
      ¬ refused ∧ (argv ≠ 0 → ∀ i sp, ComesTo w argv x.va i sp → EntryInside w argv i sp) := by
  have hfinish : ∀ a u, wp Inside (do finish env x a; return (0 : ℤ)) (fun _ _ => True) u :=
    fun a u => wp_seq wp_finish fun _ _ _ => wp_pure.mpr trivial
  by_cases hargv : argv = 0
  · subst hargv
    rw [and_iff_left fun hsome => absurd rfl hsome]
    constructor
    · intro hminus hrefused
      -- The run ends, with 0.
      have hend : wp (fun _ => False) (runProgram env 0 x) _ w :=
        hl.wp_runProgram (.inl ⟨rfl, rfl⟩) (Nat.zero_le _) (fun i hi => absurd hi (Nat.not_lt_zero i))
          (by decide) hold hdir hne halign
      obtain ⟨r, u, hrun, rfl, -⟩ := wp_total.mp hend
      have hr := wp_ok hminus hrun hrefused
      omega
    · intro hnot
      rw [runProgram, if_neg (by decide)]
      exact wp_mono (hfinish _ _) fun r u _ hrefused => absurd hrefused hnot
  · have hnot : ¬ refused := fun hrefused => hargv (href hrefused)
    rw [and_iff_right hnot, forall_prop_of_true hargv, ← hl.wp_loop_iff hshort, runProgram, if_pos hargv,
      wp_of_forall fun r u hrefused => absurd hrefused hnot, wp_bind, wp_of_forall fun a u => hfinish a u]

end Loop

/-! ## The calls -/

/-- The memory of the kernel, when `sys_execv` is called: the allocator and the address space of the
caller are in order, the pages of the caller are pages of this address space, and the file that the path
leads to is one that stays in its own pages when it is loaded. -/
structure Caller (env : Env) (s : State) : Prop where
  space : ∃ F own t old, Heap env.L s.phys F own ∧ SpaceOk own t old s.phys.mem ∧ old.dir = s.pgdir ∧
    ∀ v, s.user v → 0x40000 ≤ v ∧ present (old.pte v)
  safe : ∀ argv ip u, find env s = .ok ((argv, some ip), u) → SafeFile (u.fileOf env ip)

/-- The arguments of `sys_execv`, and what it comes to, lie in pages of the caller; and where the program
is loaded, `argptr` has not refused the address of `argv`. -/
def ExecvInside (env : Env) (s : State) : Prop :=
  s.Arg 0 ∧ s.Arg 1 ∧ PathInside env s (ptr (toInt (s.arg 0))) ∧
    ∀ argv ip u, find env s = .ok ((argv, some ip), u) → (∃ x v, loadProgram env ip u = .ok (some x, v)) →
      ¬ s.Refused 1 ∧ (argv ≠ 0 → ∀ i sp, ComesTo s argv (stackTop (u.fileOf env ip)) i sp →
        EntryInside s argv i sp)

/-- The first part of `sys_execv`. -/
theorem wp_find : wp Inside (find env) (fun _ _ => True) s ↔
    s.Arg 0 ∧ s.Arg 1 ∧ PathInside env s (ptr (toInt (s.arg 0))) := by
  simp only [find, wp_bind, wp_argptr, wp_pure, wp_namei]

/-- A path that is refused is not found. -/
theorem find_refused {o : Option InodeId} {u : State} (href : s.Refused 0)
    (hfind : find env s = .ok ((argv, o), u)) : o = none := by
  have hrun : wp Any (find env) (fun r _ => r.2 = none) s := by
    rw [find, wp_bind]
    apply wp_argptr_any
    rw [wp_bind]
    apply wp_argptr_any
    rw [href.2, namei, if_pos rfl, wp_bind, wp_pure]
    exact wp_pure.mpr rfl
  have hnone := wp_ok hrun hfind
  exact hnone

/-- **`sys_execv`.** -/
theorem wp_sys_execv (h : Caller env s) : wp Inside (sys_execv env)
    (fun r _ => (s.Refused 0 → r = -1) ∧ (s.Refused 1 → r = -1)) s ↔ ExecvInside env s := by
  obtain ⟨⟨F, own, t, old, hheap, hold, hdir, huser⟩, hsafe⟩ := h
  obtain ⟨n, hne, hnew⟩ := hheap.exists_fresh t
  have halign : ∀ p, own p ≠ .out → p % 4096 = 0 := fun p hp => (hheap.pages p hp).1
  rw [sys_execv_eq, wp_bind, wp_split, wp_find, ExecvInside, and_assoc, and_assoc]
  refine and_congr_right fun _ => and_congr_right fun _ => and_congr_right fun _ => ?_
  -- The program that is loaded, and its arguments.
  have hargs : ∀ argv ip u x v, find env s = .ok ((argv, some ip), u) →
      loadProgram env ip u = .ok (some x, v) →
      (wp Inside (runProgram env argv x) (fun r _ => s.Refused 1 → r = -1) v ↔ ¬ s.Refused 1 ∧
        (argv ≠ 0 → ∀ i sp, ComesTo s argv (stackTop (u.fileOf env ip)) i sp →
          EntryInside s argv i sp)) := by
    intro argv ip u x v hfind hload
    obtain ⟨rfl, tables, rfl⟩ := find_argv hfind
    have hloaded : wp (fun _ => False) (loadProgram env ip) _ { s with tables } :=
      wp_loadProgram_loaded hheap hnew (hsafe _ ip _ hfind)
    obtain ⟨hv, -, hsome⟩ := wp_ok hloaded hload
    obtain ⟨htop, g, hl⟩ := hsome x rfl
    rw [← htop]
    generalize v.phys = φ, v.lock = κ at hv
    subst hv
    rw [hl.wp_runProgram_iff (fun p m hstr hm hlen => CString.lt hheap hold huser hstr hm hlen) hold hdir hne
      halign fun href => href.2]
    refine and_congr_right fun _ => imp_congr_right fun _ => forall_congr' fun i => forall_congr' fun sp => ?_
    constructor
    · exact fun hinside hc => hinside (hc.congr rfl)
    · exact fun hinside hc => hinside (hc.congr rfl)
  constructor
  · rintro hcall argv ip u hfind ⟨x, v, hload⟩
    have hrun := (wp_bind_ok hload).mp (hcall (argv, some ip) u hfind)
    exact (hargs argv ip u x v hfind hload).mp (wp_mono hrun fun r _ hr => hr.2)
  · rintro hinside ⟨argv, _ | ip⟩ u hfind
    · exact wp_pure.mpr ⟨fun _ => rfl, fun _ => rfl⟩
    · obtain ⟨-, tables, rfl⟩ := find_argv hfind
      have hloaded : wp (fun _ => False) (loadProgram env ip) _ { s with tables } :=
        wp_loadProgram_loaded hheap hnew (hsafe _ ip _ hfind)
      obtain ⟨r, v, hload, -⟩ := wp_total.mp hloaded
      refine (wp_bind_ok hload).mpr ?_
      cases r with
      | none => exact wp_pure.mpr ⟨fun _ => rfl, fun _ => rfl⟩
      | some x =>
          refine wp_mono ((hargs argv ip _ x v hfind hload).mpr (hinside argv ip _ hfind ⟨x, v, hload⟩)) ?_
          exact fun r _ hr => ⟨fun href => absurd (find_refused href hfind) (by simp), hr⟩

variable {c : UserCall}

/-- What the call comes to lies in present pages of its caller. -/
def InUser (env : Env) (s : State) : UserCall → Prop
  | .read => RwInside env s (ReadInside env s)
  | .write => RwInside env s (WriteInside env s)
  | .open => OpenInside env s
  | .execv => ExecvInside env s

/-- A string ends at its null. -/
theorem StringAt.null {str : List UInt8} (h : StringAt s p str) : s.byte (p + str.length) = 0 := by
  rw [(h.byte _ (le_refl _)).2, List.getD_eq_getElem?_getD, List.getElem?_eq_none (le_refl _), Option.getD_none]

theorem StringAt.length_eq {str : List UInt8} (h : StringAt s p str) (hn : Length s p n) :
    n = str.length := by
  rcases Nat.lt_trichotomy n str.length with hlt | heq | hgt
  · exact absurd ((h.byte n hlt.le).2.symm.trans hn.2) (h.nonzero n hlt)
  · exact heq
  · exact absurd h.null (hn.1 _ hgt)

theorem ArgvAt.comesTo_le {args : List (List UInt8)} (h : ArgvAt s argv args) (hc : ComesTo s argv va i sp) :
    i ≤ args.length := by
  induction hc with
  | start => exact Nat.zero_le _
  | next _ _ hne _ _ _ ih =>
      refine lt_of_le_of_ne ih ?_
      rintro rfl
      exact hne h.null

/-- An array whose strings are followed by present bytes. -/
theorem ArgvAt.entryInside {args : List (List UInt8)} (h : ArgvAt s argv args)
    (hbehind : ∀ i < args.length, s.Present (s.word (argv + 4 * i) + (args.getD i []).length + 1))
    (hc : ComesTo s argv va i sp) : EntryInside s argv i sp := by
  have hle := h.comesTo_le hc
  refine ⟨h.inside i hle, fun hne => ?_⟩
  have hlt : i < args.length := by
    refine lt_of_le_of_ne hle ?_
    rintro rfl
    exact hne h.null
  obtain ⟨-, hstring⟩ := h.string i hlt
  refine ⟨fun k _ hk => ?_, fun n _ hn _ => ?_⟩
  · have hk' : k ≤ (args.getD i []).length := by
      by_contra hmore
      exact hk _ (by omega) hstring.null
    exact (hstring.byte k hk').1
  · rw [hstring.length_eq hn]
    exact hbehind i hlt

theorem execvCall_caller {σ : Phys} {g : Ghost} {argv : ℕ} (hvm : Vm Mm.smallLayout 0 σ g)
    (huser : present (g.sp.pte 0x40000)) : Caller twoPageEnv (execvCall σ g.sp.dir argv) where
  space := by
    refine ⟨g.free, g.own, 0, g.sp, hvm.heap, hvm.space, rfl, fun v hv => ?_⟩
    obtain rfl : v = 0x40000 := by simpa [execvCall, oneUserPage] using hv
    exact ⟨le_refl _, huser⟩
  safe _ _ _ _ := safeFile_oneSegment (listFile_begins _) (by rw [length_twoPages]; decide)

end Mixv6.Syscall.User
