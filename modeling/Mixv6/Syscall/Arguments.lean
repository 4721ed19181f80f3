import Mixv6.Mm.Undisturbed
import Mixv6.Syscall.Loading

/-!
# The arguments of a program

`sys_execv` copies the strings of `argv` to the stack page of the new address space, from its end
downwards, and puts the entries of `_argv`, `argc` and the fake return address below them.  Nothing
bounds the strings: `strlen` counts the null, so that each copy is one byte longer than it has to
be; a seventeenth string has no entry in `_argv`, and a sixteenth one no null entry behind it.

## Main definitions

* `StringAt`, `ArgvAt` — the array of the caller.
* `Decodes` — what the program finds on its stack.
* `Delivers` — `sys_execv` passes the array on, or returns -1.
* `room`, `Fits`, `execv_args_iff` — the arrays that it passes on.
-/

namespace Mixv6.Syscall.User

open Mixv6.Lib Mixv6.Kernel
open Mixv6.Mm (KERNEND USEREND PAGESIZE present loopFuel Phys Ghost Tag Space SpaceOk Vm Frame Heap page peek)
open Mixv6.Fs.Cache (toInt)

variable {env : Env} {s t u : State} {a n p : ℕ} {ip : InodeId} {E : Stop → Prop}

/-! ## Accesses -/

/-- The accesses end where the addresses are present, and also where they may stop. -/
theorem wp_getByte_of {Q : UInt8 → State → Prop} (hE : s.Present a ∨ ∀ b, E (.outside b))
    (hQ : s.Present a → Q (s.byte a) s) : wp E (getByte a) Q s := by
  simp only [getByte, wp_bind, wp_get, wp_ite, wp_throw, wp_pure]
  by_cases hp : s.Present a
  · simpa [hp] using hQ hp
  · simpa [hp] using hE.resolve_left hp _

theorem wp_getWord_of {Q : ℕ → State → Prop} (hE : s.Range a 4 ∨ ∀ b, E (.outside b))
    (hQ : s.Range a 4 → Q (s.word a) s) : wp E (getWord a) Q s := by
  have hbyte : ∀ k < 4, s.Present (a + k) ∨ ∀ b, E (.outside b) := fun k hk => hE.imp_left fun h => h k hk
  rw [getWord, wp_bind]
  apply wp_getByte_of (hbyte 0 (by omega))
  intro h0
  rw [wp_bind]
  apply wp_getByte_of (hbyte 1 (by omega))
  intro h1
  rw [wp_bind]
  apply wp_getByte_of (hbyte 2 (by omega))
  intro h2
  rw [wp_bind]
  apply wp_getByte_of (hbyte 3 (by omega))
  intro h3
  exact wp_pure.mpr (hQ (range_succ.mpr ⟨h0, range_succ.mpr ⟨h1, range_succ.mpr ⟨h2, range_succ.mpr
    ⟨h3, range_zero⟩⟩⟩⟩))

theorem wp_getBytes_of {Q : List UInt8 → State → Prop} (hE : s.Range a n ∨ ∀ b, E (.outside b))
    (hQ : s.Range a n → Q ((List.range n).map fun k => s.byte (a + k)) s) :
    wp E (getBytes a n) Q s := by
  induction n generalizing a Q with
  | zero => exact wp_pure.mpr (hQ range_zero)
  | succ n ih =>
      rw [getBytes, wp_bind]
      apply wp_getByte_of (hE.imp_left fun h => (range_succ.mp h).1)
      intro h0
      rw [wp_bind]
      apply ih (hE.imp_left fun h => (range_succ.mp h).2)
      intro h
      have hbytes : s.byte a :: (List.range n).map (fun k => s.byte (a + 1 + k)) =
          (List.range (n + 1)).map fun k => s.byte (a + k) := by
        simp [List.range_succ_eq_map, Function.comp_def, Nat.add_right_comm, Nat.add_assoc]
      rw [wp_pure, hbytes]
      exact hQ (range_succ.mpr ⟨h0, h⟩)

theorem range_append {m : ℕ} (h : s.Range a m) (h' : s.Range (a + m) n) : s.Range a (m + n) := by
  intro k hk
  by_cases hm : k < m
  · exact h k hm
  · have hk' := h' (k - m) (by omega)
    rwa [show a + m + (k - m) = a + k by omega] at hk'

theorem wp_argptr_any {argc : ℕ} {Q : ℕ → State → Prop} (hQ : Q (ptr (toInt (s.arg argc))) s) :
    wp Any (argptr argc) Q s := by
  simp only [argptr, argint, wp_bind, wp_get]
  apply wp_getWord_of (.inr fun _ => trivial)
  intro _
  exact wp_pure.mpr (wp_pure.mpr hQ)

/-- What the caller has passed, when the path has been looked up. -/
theorem find_argv {argv : ℕ} {o : Option InodeId} (hfind : find env s = .ok ((argv, o), t)) :
    argv = ptr (toInt (s.arg 1)) ∧ ∃ tables, t = { s with tables } := by
  have hrun : wp Any (find env) (fun (r : ℕ × Option InodeId) t => r.1 = ptr (toInt (s.arg 1)) ∧
      ∃ tables, t = { s with tables }) s := by
    rw [find, wp_bind]
    apply wp_argptr_any
    rw [wp_bind]
    apply wp_argptr_any
    apply wp_seq (quiet_namei env _ s)
    rintro _ _ ht
    exact wp_pure.mpr ⟨rfl, ht⟩
  have hend := wp_ok hrun hfind
  exact hend

/-! ## Strings -/

/-- `p` points to the string `str` of the caller. -/
structure StringAt (s : State) (p : ℕ) (str : List UInt8) : Prop where
  nonzero : ∀ k < str.length, str.getD k 0 ≠ 0
  byte : ∀ k ≤ str.length, s.Present (p + k) ∧ s.byte (p + k) = str.getD k 0

/-- `argv` is a null-terminated array of the strings `args` of the caller. -/
structure ArgvAt (s : State) (argv : ℕ) (args : List (List UInt8)) : Prop where
  inside : ∀ i ≤ args.length, s.Range (argv + 4 * i) 4
  string : ∀ i < args.length, s.word (argv + 4 * i) ≠ 0 ∧
    StringAt s (s.word (argv + 4 * i)) (args.getD i [])
  null : s.word (argv + 4 * args.length) = 0

/-- The caller gives an array, or a null pointer for an empty one. -/
def Given (s : State) (argv : ℕ) (args : List (List UInt8)) : Prop :=
  argv = 0 ∧ args = [] ∨ argv ≠ 0 ∧ ArgvAt s argv args

theorem Given.string {argv i : ℕ} {args : List (List UInt8)} (h : Given s argv args)
    (hi : i < args.length) : StringAt s (s.word (argv + 4 * i)) (args.getD i []) := by
  rcases h with ⟨-, rfl⟩ | ⟨-, h⟩
  · exact absurd hi (Nat.not_lt_zero i)
  · exact (h.string i hi).2

/-- Addresses wrap, so that there is no longer string. -/
theorem StringAt.length_lt {str : List UInt8} (h : StringAt s p str) : str.length < 2 ^ 32 := by
  by_contra hlen
  have hend := (h.byte str.length (le_refl _)).2
  have hwrap := (h.byte (str.length - 2 ^ 32) (by omega)).2
  have hsame : (p + (str.length - 2 ^ 32)) % 2 ^ 32 = (p + str.length) % 2 ^ 32 := by omega
  apply h.nonzero (str.length - 2 ^ 32) (by omega)
  rw [← hwrap, State.byte, hsame, ← State.byte, hend]
  simp

/-- **`strlen`**, which counts the null. -/
theorem StringAt.wp_strlen {str : List UInt8} (h : StringAt s p str) {σ : Phys} {Q : ℕ → State → Prop}
    (hQ : Q (str.length + 1) { s with phys := σ }) : wp E (strlen p) Q { s with phys := σ } := by
  have hlen := h.length_lt
  rw [strlen]
  generalize 2 ^ 32 = fuel at hlen ⊢
  apply wp_iterate (fun cnt t => t = { s with phys := σ } ∧ cnt ≤ str.length) (fun cnt => str.length - cnt)
  · rintro cnt _ ⟨rfl, hcnt⟩
    have hp : State.Present { s with phys := σ } (p + cnt) := (h.byte cnt hcnt).1
    have hbyte : State.byte { s with phys := σ } (p + cnt) = str.getD cnt 0 := (h.byte cnt hcnt).2
    rw [strlenTurn, wp_bind]
    apply wp_getByte_of (.inl hp)
    intro _
    rw [hbyte, wp_ite]
    by_cases hend : cnt = str.length
    · simpa [hend] using hQ
    · rw [if_pos (h.nonzero cnt (by omega)), wp_pure]
      exact ⟨⟨rfl, by omega⟩, by omega⟩
  · exact ⟨rfl, Nat.zero_le _⟩
  · omega

/-! ## Copies from the caller -/

/-- A copy that ends has come to all of its bytes. -/
theorem wp_copyArg_any {dir va src len : ℕ} : wp Any (copyArg dir va src len)
    (fun _ u => u = { s with phys := u.phys } ∧ s.Range src len) s := by
  apply wp_iterate_partial (by trivial) (fun a u => u = { s with phys := u.phys } ∧
    a.2.1 + a.2.2 = len ∧ s.Range src a.2.1)
  · rintro ⟨at', done, rest⟩ u ⟨hu, hlen, hrange⟩
    generalize u.phys = σ at hu
    subst hu
    simp only at hlen hrange
    simp only [copyTurn, onPhys, wp_ite, wp_bind, wp_zoom, wp_throw, wp_pure]
    split
    next hrest =>
      obtain rfl : done = len := by omega
      exact ⟨trivial, hrange⟩
    next hrest =>
      refine wp_mono (wp_trivial fun _ => trivial) ?_
      intro pte σ₁ _
      split
      next => trivial
      next =>
        refine wp_mono (wp_trivial fun _ => trivial) ?_
        intro e σ₂ _
        split
        next => trivial
        next =>
          generalize hn : (if rest < PAGESIZE - (at' - Mm.PGROUNDDOWN at') then rest
            else PAGESIZE - (at' - Mm.PGROUNDDOWN at')) = n
          have hle : n ≤ rest := by
            rw [← hn]
            split <;> omega
          apply wp_getBytes_of (.inr fun _ => trivial)
          intro hbytes
          rw [wp_modify]
          exact ⟨rfl, by omega, range_append hrange hbytes⟩
  · exact ⟨rfl, Nat.zero_add _, range_zero⟩

/-- **A copy to pages that are mapped**, from pages of the caller; elsewhere the run stops. -/
theorem wp_copyArg {L : Mm.Layout} {g : Ghost} {va src len : ℕ} (h : Vm L n s.phys g) (hva : KERNEND ≤ va)
    (hend : va + len ≤ USEREND) (hp : ∀ v, va / 4096 ≤ v → 4096 * v < va + len → present (g.sp.pte v))
    (hsrc : s.Range src len ∨ ∀ b, E (.outside b)) :
    wp E (copyArg g.sp.dir va src len) (fun _ u => ∃ σ, u = { s with phys := σ } ∧
      Mm.Written L n va (fun k => s.byte (src + k)) len s.phys g σ) s := by
  have hout : wp (fun _ => False) (Mm.copyout g.sp.dir va (some fun k => s.byte (src + k)) len) _ s.phys :=
    Mm.wp_copyout h hva hend hp
  refine wp_iterate_follow (fun σ => { s with phys := σ }) (copyTurn g.sp.dir src)
    (fun a => a.2.1 + a.2.2 = len) False.elim ?_ (Nat.zero_add len) hout
  rintro ⟨at', done, rest⟩ σ R hlen hturn
  simp only at hlen
  simp only [wp_ite, wp_bind, wp_throw, wp_pure] at hturn
  simp only [copyTurn, onPhys, wp_ite, wp_bind, wp_zoom, wp_throw, wp_pure]
  by_cases hrest : 0 < rest
  · rw [if_pos hrest] at hturn
    rw [if_neg (not_not.mpr hrest)]
    refine wp_mono (wp_of_total hturn) ?_
    intro pte σ₁ hpte
    split at hpte
    next => exact hpte.elim
    next hne =>
    rw [if_neg hne]
    refine wp_mono (wp_of_total hpte) ?_
    intro e σ₂ he
    split at he
    next => exact he.elim
    next hpresent =>
    rw [if_neg hpresent]
    generalize hn : (if rest < PAGESIZE - (at' - Mm.PGROUNDDOWN at') then rest
      else PAGESIZE - (at' - Mm.PGROUNDDOWN at')) = m at he ⊢
    have hle : m ≤ rest := by
      rw [← hn]
      split <;> omega
    have hin : State.Range { s with phys := σ₂ } (src + done) m ∨ ∀ b, E (.outside b) := by
      refine hsrc.imp_left fun hsrc k hk => ?_
      rw [Nat.add_assoc]
      exact hsrc (done + k) (by omega)
    apply wp_getBytes_of hin
    intro _
    simp only [wp_modify] at he ⊢
    have hbytes : ∀ k, State.byte { s with phys := σ₂ } (src + done + k) = s.byte (src + (done + k)) :=
      fun k => congrArg s.byte (Nat.add_assoc src done k)
    simp only [hbytes]
    refine ⟨_, rfl, he, ?_⟩
    rintro a' ⟨⟩
    simp only
    omega
  · rw [if_neg hrest] at hturn
    rw [if_pos hrest]
    exact ⟨σ, rfl, hturn, by simp⟩

/-! ## The stack pointer -/

/-- What a string takes on the stack: it is copied with two bytes more, and aligned. -/
def slot (str : List UInt8) : ℕ := (str.length + 5) / 4 * 4

def room (args : List (List UInt8)) : ℕ := (args.map slot).sum

/-- The stack pointer below some strings, wherever it gets to. -/
def spAfter (sp : ℕ) : List (List UInt8) → ℕ
  | [] => sp
  | str :: args => spAfter (pushed sp str.length) args

section Room
variable {args : List (List UInt8)} {sp i : ℕ}

theorem take_succ (hi : i < args.length) : args.take (i + 1) = args.take i ++ [args.getD i []] := by
  rw [List.take_add_one, List.getElem?_eq_getElem hi]
  simp [hi]

theorem room_take_succ (hi : i < args.length) :
    room (args.take (i + 1)) = room (args.take i) + slot (args.getD i []) := by
  simp [room, take_succ hi]

theorem room_take_le (args : List (List UInt8)) (i : ℕ) : room (args.take i) ≤ room args :=
  ((List.take_sublist i args).map slot).sum_le_sum fun _ _ => Nat.zero_le _

theorem room_mod (args : List (List UInt8)) : room args % 4 = 0 := by
  induction args with
  | nil => simp [room]
  | cons str args ih =>
      have hcons : room (str :: args) = slot str + room args := by simp [room]
      rw [hcons, slot]
      omega

theorem room_take_mono (args : List (List UInt8)) {j : ℕ} (hij : i ≤ j) : room (args.take i) ≤ room (args.take j) := by
  have hle := room_take_le (args.take j) i
  rwa [List.take_take, min_eq_left hij] at hle

theorem spAfter_append (str : List UInt8) :
    spAfter sp (args ++ [str]) = pushed (spAfter sp args) str.length := by
  induction args generalizing sp with
  | nil => rfl
  | cons str' args ih => exact ih

theorem spAfter_take_succ (hi : i < args.length) :
    spAfter sp (args.take (i + 1)) = pushed (spAfter sp (args.take i)) (args.getD i []).length := by
  rw [take_succ hi, spAfter_append]

theorem pushed_eq (str : List UInt8) (halign : sp % 4 = 0) (hlt : sp < 2 ^ 32) (hroom : slot str ≤ sp) :
    pushed sp str.length = sp - slot str := by
  simp only [slot] at hroom ⊢
  have hlen : (str.length + 2) % 2 ^ 32 = str.length + 2 := Nat.mod_eq_of_lt (by omega)
  have hback : sp + 2 ^ 32 - (str.length + 2) = sp - (str.length + 2) + 2 ^ 32 := by omega
  rw [pushed, hlen, hback, Nat.add_mod_right, Nat.mod_eq_of_lt (by omega)]
  omega

/-- Where there is room, nothing wraps. -/
theorem spAfter_eq (args : List (List UInt8)) {sp : ℕ} (halign : sp % 4 = 0) (hlt : sp < 2 ^ 32) (hroom : room args ≤ sp) :
    spAfter sp args = sp - room args := by
  induction args generalizing sp with
  | nil => simp [spAfter, room]
  | cons str args ih =>
      have hcons : room (str :: args) = slot str + room args := by simp [room]
      have hpushed := pushed_eq str halign hlt (by omega)
      have hmod : (sp - slot str) % 4 = 0 := by
        simp only [slot] at hcons ⊢
        omega
      have hnext := ih hmod (by omega) (by omega)
      rw [spAfter, hpushed, hnext, hcons]
      omega

/-- Strings of a page each. -/
theorem room_le (h : ∀ str ∈ args, str.length < PAGESIZE) : room args ≤ 4104 * args.length := by
  induction args with
  | nil => simp [room]
  | cons str args ih =>
      have hcons : room (str :: args) = slot str + room args := by simp [room]
      have hrest := ih fun str' hstr' => h str' (List.mem_cons_of_mem _ hstr')
      have hlen := h str List.mem_cons_self
      simp only [PAGESIZE] at hlen
      rw [hcons, List.length_cons, slot]
      omega

end Room

/-! ## The loop over `argv` -/

section Loop
variable {w : State} {argv va dir : ℕ} {args : List (List UInt8)} {a : Args}

/-- The first strings have been copied, to somewhere. -/
structure Passed (w : State) (argv va : ℕ) (args : List (List UInt8)) (a : Args) (u : State) : Prop where
  state : ∃ σ, u = { w with phys := σ }
  le : a.argc ≤ args.length
  few : a.argc ≤ NARGV
  sp : a.sp = spAfter va (args.take a.argc)
  behind : ∀ i < a.argc, w.Present (w.word (argv + 4 * i) + (args.getD i []).length + 1)

/-- A loop that ends has copied all of them. -/
theorem ArgvAt.wp_loop_any (h : ArgvAt w argv args) :
    wp Any (iterate .hang (argvTurn dir argv) (NARGV + 2) ⟨0, va, []⟩)
      (fun a u => Passed w argv va args a u ∧ a.argc = args.length) w := by
  apply wp_iterate_partial (by trivial) (Passed w argv va args)
  · rintro a _ ⟨⟨σ, rfl⟩, hle, hfew, hsp, hbehind⟩
    have hentry : State.Range { w with phys := σ } (argv + 4 * a.argc) 4 := h.inside a.argc hle
    simp only [argvTurn, wp_bind]
    apply wp_getWord_of (.inl hentry)
    intro _
    have hword : State.word { w with phys := σ } (argv + 4 * a.argc) = w.word (argv + 4 * a.argc) := rfl
    rw [hword, wp_ite]
    split
    next hnull =>
      rw [wp_pure]
      refine ⟨⟨⟨σ, rfl⟩, hle, hfew, hsp, hbehind⟩, ?_⟩
      by_contra hne
      exact (h.string a.argc (by omega)).1 hnull
    next hsome =>
      have hlt : a.argc < args.length := by
        by_contra hcon
        obtain heq : a.argc = args.length := by omega
        exact hsome (heq ▸ h.null)
      obtain ⟨-, hstring⟩ := h.string a.argc hlt
      rw [wp_bind]
      apply hstring.wp_strlen
      rw [wp_bind]
      refine wp_mono wp_copyArg_any ?_
      rintro _ u ⟨hu, hrange⟩
      simp only [wp_ite, wp_bind, wp_throw, wp_pure]
      split
      next => trivial
      next hmore =>
        refine ⟨⟨_, hu⟩, hlt, by simp only; omega, ?_, ?_⟩
        · simp only [spAfter_take_succ hlt, ← hsp, pushed]
        · intro i hi
          simp only at hi
          by_cases hlast : i = a.argc
          · subst hlast
            exact hrange ((args.getD a.argc []).length + 1) (Nat.lt_succ_self _)
          · exact hbehind i (by omega)
  · exact ⟨⟨w.phys, rfl⟩, Nat.zero_le _, Nat.zero_le _, rfl, fun i hi => absurd hi (Nat.not_lt_zero i)⟩

end Loop

/-! ## The program with its stack -/

/-- Program `x` is in the new address space `g`, with an empty stack page below `x.va`. -/
structure Loaded (L : Mm.Layout) (n : ℕ) (σ : Phys) (own : ℕ → Tag) (x : Program) (σ' : Phys) (g : Ghost) :
    Prop where
  vm : Vm L n σ' g
  dir : g.sp.dir = x.pgdir
  frame : Frame n σ own σ' g.own
  aligned : x.va % 4096 = 0
  low : KERNEND + 8192 ≤ x.va
  high : x.va < USEREND
  filled : g.sp.Filled x.va
  zero : ∀ a, x.va - 4096 ≤ a → a < x.va → g.sp.byte σ'.mem a = 0

section Load
variable {F : List ℕ} {own : ℕ → Tag} {x : Program} {f : Mm.File} {g : Ghost} {L : Mm.Layout}
  {σ σ' : Phys}

/-- The exit `bad` when the lock is free already. -/
theorem wp_bad_unlocked {dir : ℕ} (hlock : s.lock = none) (h : Left env.L n σ own dir s.phys) :
    wp E (bad env dir ip) (fun r t => r = none ∧ t = { s with phys := t.phys } ∧
      Settled env.L n σ own t.phys) s := by
  obtain ⟨g, rfl, hvm, hf⟩ := h
  simp only [bad, release, onPhys, hvm.dir_ne, ne_eq, not_false_eq_true, if_true, wp_bind, wp_zoom, wp_get,
    wp_ite, wp_modify, wp_pure]
  refine wp_mono (Mm.wp_freevm hvm) ?_
  rintro _ σ₁ ⟨F', own', ht⟩
  rw [if_neg (by simp [hlock])]
  exact ⟨trivial, trivial, F', own', ht.heap, hf.trans ht.frame⟩

/-- The stack page of `ustack`. -/
theorem SegmentsIn.loaded (h : SegmentsIn L f n σ own x σ' g) {σ₂ : Phys} {g₂ : Ghost}
    (hvm : Vm L n σ₂ g₂) (hst : Mm.Stacked n ((x.va + 4095) / 4096) σ' g σ₂ g₂)
    (hroom : (x.va + 4095) / 4096 + 2 < 0xFFC00) :
    Loaded L n σ own { x with va := 4096 * ((x.va + 4095) / 4096) + 8192 } σ₂ g₂ := by
  obtain ⟨bs, -, hdir, hseg⟩ := h
  have hlow := hseg.laid.low
  simp only [KERNEND] at hlow
  refine ⟨hvm, hst.grow.dir.trans hdir, hseg.laid.frame.trans hst.frame, by simp only; omega, ?_, ?_,
    hst.filled hseg.laid.filled, ?_⟩
  · simp only [KERNEND]
    omega
  · simp only [USEREND]
    omega
  · intro a ha hlt
    simp only at ha hlt
    have hpage : a / 4096 = (x.va + 4095) / 4096 + 1 := by omega
    apply hst.zero
    rw [hpage]
    have hpa := (hvm.user_page (by omega) hst.stack.1).1
    exact Mm.page_add hpa (Nat.mod_lt _ (by decide))

/-- **The loader**, with the stack. -/
theorem wp_loadProgram_loaded (h : Heap env.L s.phys F own) (hnew : ∀ q, ¬ (own q).of n)
    (hsafe : SafeFile (s.fileOf env ip)) :
    wp E (loadProgram env ip) (fun r u => u = { s with phys := u.phys, lock := u.lock } ∧
      Settled env.L n s.phys own u.phys ∧
      ∀ x, r = some x → x.va = stackTop (s.fileOf env ip) ∧ ∃ g, Loaded env.L n s.phys own x u.phys g) s := by
  rw [loadProgram_eq]
  refine wp_seq (wp_loadSegments_settled h hnew hsafe) ?_
  rintro (_ | x) t ⟨ht, hsettled, -, hsome⟩
  · exact wp_pure.mpr ⟨ht, hsettled, by simp⟩
  obtain ⟨g, hin⟩ := hsome x rfl
  have ⟨bs, hhead, hdir, hseg⟩ := hin
  have habsent : ∀ v, (x.va + 4095) / 4096 ≤ v → ¬ present (g.sp.pte v) := by
    intro v hv
    have hlow := hseg.laid.low
    simp only [KERNEND] at hlow
    rw [hseg.laid.filled v (by omega)]
    omega
  have hfail : ∀ σ, Left env.L n s.phys own x.pgdir σ → wp E (bad env x.pgdir ip) (fun r u =>
      u = { s with phys := u.phys, lock := u.lock } ∧ Settled env.L n s.phys own u.phys ∧
      ∀ x, r = some x → x.va = stackTop (s.fileOf env ip) ∧
        ∃ g, Loaded env.L n s.phys own x u.phys g) { t with lock := none, phys := σ } := by
    intro σ hleft
    refine wp_mono (wp_bad_unlocked rfl hleft) ?_
    rintro _ u ⟨rfl, hu, hsettled⟩
    exact ⟨by rw [hu, ht], hsettled, by simp⟩
  have hustack : wp (fun e => E (.mm e)) (Mm.ustack env.L g.sp.dir x.va) _ t.phys :=
    Mm.wp_ustack hseg.laid.vm hseg.laid.low hseg.laid.high habsent
  rw [hdir] at hustack
  simp only [Option.elim_some, addStack, release, onPhys, wp_bind, wp_modify, wp_zoom]
  refine wp_mono hustack ?_
  rintro _ σ (⟨-, rfl, rfl⟩ | ⟨hroom, rfl, g₂, hvm, hst⟩ | ⟨rfl, g₂, hvm, hshrunk⟩)
  · rw [if_pos rfl]
    exact hfail _ ⟨g, hdir, hseg.laid.vm, hseg.laid.frame⟩
  · rw [if_neg (by omega), wp_pure]
    have hloaded := hin.loaded hvm hst hroom
    refine ⟨by rw [ht], ⟨_, _, hvm.heap, hloaded.frame⟩, ?_⟩
    rintro y ⟨⟩
    refine ⟨?_, g₂, hloaded⟩
    simp only [stackTop, hhead, hseg.top]
  · rw [if_pos rfl]
    exact hfail _ ⟨g₂, hshrunk.grow.dir.trans hdir, hvm, hseg.laid.frame.trans hshrunk.frame⟩

/-- The memory says what the free list is. -/
theorem chain_unique {m : Mem} {F F' : List ℕ} {head : ℕ} (h : Mm.Chain m head F) (h' : Mm.Chain m head F') :
    F = F' := by
  induction F generalizing head F' with
  | nil =>
      cases F' with
      | nil => rfl
      | cons q F' => exact absurd (h'.1.symm.trans h) h'.2.1
  | cons p F ih =>
      obtain ⟨rfl, hne, hF⟩ := h
      cases F' with
      | nil => exact absurd h' hne
      | cons q F' =>
          obtain ⟨rfl, -, hF'⟩ := h'
          rw [ih hF hF']

/-- **A program of one segment** is loaded, where there are pages for it. -/
theorem wp_loadProgram_oneSegment {bs : List UInt8} (h : Heap env.L s.phys F own) (hroom : 2500 ≤ F.length)
    (hf : Begins (s.fileOf env ip) (oneSegment KERNEND bs)) (hpos : 0 < bs.length)
    (hlen : bs.length ≤ 0x100000) : ∃ x t, loadProgram env ip s = .ok (some x, t) := by
  obtain ⟨n, -, hnew⟩ := h.exists_fresh 0
  have hbase : KERNEND = 0x40000000 := rfl
  have hsafe := safeFile_oneSegment hf (by omega)
  have hload : wp (fun _ => False) (loadSegments env ip) (fun r t =>
      (∃ x, r = some x ∧ x.va = KERNEND + bs.length) ∧ ∃ F' own', Heap env.L t.phys F' own' ∧ 16 ≤ F'.length) s := by
    apply wp_loadSegments_oneSegment (b := KERNEND + bs.length)
      (Q := fun σ => ∃ F' own', Heap env.L σ F' own' ∧ 16 ≤ F'.length) h (by omega) hf (by omega) (by decide)
    intro n σ₁ g hmade
    have hcount := hmade.count
    simp only [Mm.kvmPages] at hcount
    have hdemand := g.sp.demand_le ((KERNEND + 4095) / 4096) ((KERNEND + bs.length + 4095) / 4096)
    have hend : KERNEND + bs.length < USEREND := by
      simp only [USEREND]
      omega
    have hlo : (KERNEND + 4095) / 4096 = 0x40000 := rfl
    have hhi : (KERNEND + bs.length + 4095) / 4096 ≤ 0x40100 := by
      rw [hbase]
      omega
    have hfit : g.sp.demand ((KERNEND + 4095) / 4096) ((KERNEND + bs.length + 4095) / 4096) ≤
        g.free.length := by
      rw [hlo] at hdemand ⊢
      omega
    have habsent : ∀ v, (KERNEND + 4095) / 4096 ≤ v → v < (KERNEND + bs.length + 4095) / 4096 →
        ¬ present (g.sp.pte v) := by
      intro v h1 _
      rw [hbase] at h1
      simp [hmade.user v (by omega), present]
    have hgrow : wp (fun _ => False) (Mm.allocuvm env.L g.sp.dir KERNEND (KERNEND + bs.length)) _ σ₁ :=
      Mm.wp_allocuvm_room hmade.vm (le_refl KERNEND) (Nat.le_add_right _ _) hend habsent hfit
    refine wp_mono hgrow ?_
    rintro _ σ₂ ⟨rfl, g₂, hvm, hgrown⟩
    refine ⟨rfl, by omega, ?_⟩
    have hfree := (hgrown.drawn hvm).length_eq (by omega)
    rw [hlo] at hdemand hfree hgrown
    have hread : wp (fun _ => False) (Mm.loaduvm g₂.sp.dir KERNEND (s.fileOf env ip) 84 bs.length) _ σ₂ :=
      Mm.wp_loaduvm hvm (by decide) (le_refl _) hend.le (by decide) fun v h1 h2 =>
        (hgrown.inside v (by rw [hbase] at h1; omega) (by rw [hbase] at h2 ⊢; omega)).1
    rw [← hgrown.grow.dir]
    apply wp_mono hread
    rintro r σ₃ (⟨rfl, val, hw, -⟩ | ⟨-, ⟨i, hi, hshort⟩, -, -⟩)
    · exact ⟨rfl, _, _, hw.vm.heap, by omega⟩
    · -- The file does not end before the segment does.
      have hbytes := hf.bytes (show i + min (bs.length - i) 4096 ≤ bs.length by omega)
      rw [Nat.mod_eq_of_lt (by omega)] at hshort
      refine absurd ?_ (hshort _ hbytes)
      simp
  obtain ⟨_, t, hrun, ⟨x, rfl, hva⟩, F', own', hheap, hroom'⟩ := wp_total.mp hload
  obtain ⟨ht, -, -, hsome⟩ := wp_ok (wp_loadSegments_settled (E := fun _ => False) h hnew hsafe) hrun
  obtain ⟨g, hin⟩ := hsome x rfl
  obtain ⟨_, _, hdir, hseg⟩ := hin
  have hvm := hseg.laid.vm
  obtain rfl := chain_unique hvm.heap.chain hheap.chain
  have hustack : wp (fun _ => False) (Mm.ustack env.L g.sp.dir x.va) _ t.phys :=
    Mm.wp_ustack hvm hseg.laid.low hseg.laid.high fun v hv => by
      rw [hseg.laid.filled v (by omega)]
      omega
  have hstack : wp (fun _ => False) (addStack env ip x) (fun r _ => ∃ y, r = some y) t := by
    rw [hdir] at hustack
    simp only [addStack, release, onPhys, wp_bind, wp_modify, wp_zoom]
    refine wp_mono hustack ?_
    rintro _ σ (⟨hhigh, -, -⟩ | ⟨hlow, rfl, -⟩ | ⟨-, _, -, hshrunk⟩)
    · omega
    · rw [if_neg (by omega), wp_pure]
      exact ⟨_, rfl⟩
    · have hshort := hshrunk.short
      have hdemand := g.sp.demand_le ((x.va + 4095) / 4096) ((x.va + 4095) / 4096 + 2)
      omega
  obtain ⟨_, u, hend, y, rfl⟩ := wp_total.mp hstack
  refine ⟨y, u, ?_⟩
  rw [loadProgram_eq, run_bind, hrun, ok_bind]
  exact hend

end Load

/-! ## The strings on the stack page -/

/-- Where string `i` lies below `va`. -/
def place (va : ℕ) (args : List (List UInt8)) (i : ℕ) : ℕ := va - room (args.take (i + 1))

/-- The first strings lie on the stack page, with what the caller has behind them and zeros up to the
next word; the page below them is empty. -/
structure Pushed (L : Mm.Layout) (n : ℕ) (w : State) (g : Ghost) (x : Program) (argv : ℕ)
    (args : List (List UInt8)) (a : Args) (σ : Phys) : Prop where
  vm : Vm L n σ g
  kept : Mm.Kept n w.phys g σ g
  le : a.argc ≤ args.length
  sp : a.sp = x.va - room (args.take a.argc)
  entries : a.argv = (List.range a.argc).map (place x.va args)
  byte : ∀ i < a.argc, ∀ j < slot (args.getD i []), g.sp.byte σ.mem (place x.va args i + j) =
    if j < (args.getD i []).length + 2 then w.byte (w.word (argv + 4 * i) + j) else 0
  zero : ∀ y, x.va - 4096 ≤ y → y < a.sp → g.sp.byte σ.mem y = 0

section Push
variable {F : List ℕ} {own : ℕ → Tag} {x : Program} {g : Ghost} {L : Mm.Layout} {σ σ' σ₀ : Phys} {w : State}
  {argv : ℕ} {args : List (List UInt8)} {a : Args}

/-- An address on the stack page. -/
theorem Loaded.has (hl : Loaded L n σ own x σ' g) {y : ℕ} (hy : x.va - 4096 ≤ y) (hlt : y < x.va) :
    g.sp.Has y := by
  have hlow := hl.low
  simp only [KERNEND] at hlow
  exact ⟨by omega, (hl.filled _ (by omega)).mpr (by omega)⟩

/-- The next string. -/
theorem Pushed.step (hp : Pushed L n w g x argv args a σ) (hl : Loaded L n σ₀ own x w.phys g)
    (hlt : a.argc < args.length) (hroom : room args ≤ PAGESIZE)
    (hw : Mm.Written L n (place x.va args a.argc) (fun k => w.byte (w.word (argv + 4 * a.argc) + k))
      ((args.getD a.argc []).length + 2) σ g σ') :
    Pushed L n w g x argv args
      ⟨a.argc + 1, place x.va args a.argc, a.argv ++ [place x.va args a.argc]⟩ σ' := by
  have hlow := hl.low
  have hsp := hp.sp
  have hnext := room_take_succ hlt
  have hall := room_take_le args (a.argc + 1)
  have hslot : slot (args.getD a.argc []) = ((args.getD a.argc []).length + 5) / 4 * 4 := rfl
  simp only [KERNEND, PAGESIZE] at hlow hroom
  have hplace : place x.va args a.argc = x.va - room (args.take (a.argc + 1)) := rfl
  refine ⟨hw.vm, hp.kept.trans hw.kept, hlt, rfl, ?_, ?_, ?_⟩
  · rw [hp.entries, List.range_succ, List.map_append]
    rfl
  · intro i hi j hj
    simp only at hi
    have hmono := room_take_mono args (show i + 1 ≤ a.argc + 1 by omega)
    have hi' : i < args.length := by omega
    have hbelow := room_take_succ hi'
    have hplace' : place x.va args i = x.va - room (args.take (i + 1)) := rfl
    rw [hw.byte _ (hl.has (by omega) (by omega))]
    by_cases hlast : i = a.argc
    · subst hlast
      by_cases hcopied : j < (args.getD a.argc []).length + 2
      · rw [if_pos ⟨by omega, by omega⟩, if_pos hcopied, Nat.add_sub_cancel_left]
      · rw [if_neg (by omega), if_neg hcopied]
        exact hp.zero _ (by omega) (by omega)
    · have hold := room_take_mono args (show i + 1 ≤ a.argc by omega)
      rw [if_neg (by omega)]
      exact hp.byte i (by omega) j hj
  · intro y hy hlt'
    simp only at hlt'
    rw [hw.byte _ (hl.has hy (by omega)), if_neg (by omega)]
    exact hp.zero y hy (by omega)

/-- **The loop over `argv`**, where the strings find room. -/
theorem ArgvAt.wp_loop (h : ArgvAt w argv args) (hl : Loaded L n σ₀ own x w.phys g)
    (hfew : args.length ≤ NARGV)
    (hbehind : ∀ i < args.length, w.Present (w.word (argv + 4 * i) + (args.getD i []).length + 1))
    (hroom : room args ≤ PAGESIZE) :
    wp E (iterate .hang (argvTurn x.pgdir argv) (NARGV + 2) ⟨0, x.va, []⟩) (fun a u =>
      ∃ σ, u = { w with phys := σ } ∧ Pushed L n w g x argv args a σ ∧ a.argc = args.length) w := by
  apply wp_iterate (fun a u => ∃ σ, u = { w with phys := σ } ∧ Pushed L n w g x argv args a σ)
    (fun a => args.length - a.argc)
  · rintro a _ ⟨σ, rfl, hp⟩
    have hentry : State.Range { w with phys := σ } (argv + 4 * a.argc) 4 := h.inside a.argc hp.le
    simp only [argvTurn, wp_bind]
    apply wp_getWord_of (.inl hentry)
    intro _
    have hword : State.word { w with phys := σ } (argv + 4 * a.argc) = w.word (argv + 4 * a.argc) := rfl
    rw [hword, wp_ite]
    split
    next hnull =>
      rw [wp_pure]
      refine ⟨σ, rfl, hp, ?_⟩
      by_contra hne
      have hle := hp.le
      exact (h.string a.argc (by omega)).1 hnull
    next hsome =>
      have hlt : a.argc < args.length := by
        have hle := hp.le
        by_contra hcon
        obtain heq : a.argc = args.length := by omega
        exact hsome (heq ▸ h.null)
      obtain ⟨-, hstring⟩ := h.string a.argc hlt
      rw [wp_bind]
      apply hstring.wp_strlen
      have hlow := hl.low
      have hhigh := hl.high
      have halign := hl.aligned
      have hsp := hp.sp
      have hnext := room_take_succ hlt
      have hall := room_take_le args (a.argc + 1)
      have hslot : slot (args.getD a.argc []) = ((args.getD a.argc []).length + 5) / 4 * 4 := rfl
      simp only [KERNEND, USEREND, PAGESIZE] at hlow hhigh hroom
      have hfour : room (args.take a.argc) % 4 = 0 := room_mod _
      have hpushed : (a.sp + 2 ^ 32 - ((args.getD a.argc []).length + 1 + 1) % 2 ^ 32) % 2 ^ 32 / 4 * 4 =
          place x.va args a.argc := by
        rw [place, hnext, Nat.sub_add_eq, ← hsp]
        exact pushed_eq _ (by omega) (by omega) (by omega)
      have hplace : place x.va args a.argc = x.va - room (args.take (a.argc + 1)) := rfl
      have hrange : State.Range { w with phys := σ } (w.word (argv + 4 * a.argc))
          ((args.getD a.argc []).length + 1 + 1) := by
        intro k hk
        by_cases hlast : k = (args.getD a.argc []).length + 1
        · subst hlast
          exact hbehind a.argc hlt
        · exact (hstring.byte k (by omega)).1
      have hcopy : wp E (copyArg g.sp.dir (place x.va args a.argc) (w.word (argv + 4 * a.argc))
          ((args.getD a.argc []).length + 1 + 1)) _ { w with phys := σ } :=
        wp_copyArg hp.vm (by simp only [KERNEND]; omega) (by simp only [USEREND]; omega)
          (fun v h1 h2 => (hl.filled v (by omega)).mpr (by omega)) (.inl hrange)
      rw [hl.dir] at hcopy
      rw [wp_bind, hpushed]
      refine wp_mono hcopy ?_
      rintro _ _ ⟨σ', rfl, hw⟩
      simp only [wp_ite, wp_bind, wp_throw, wp_pure]
      rw [if_neg (by omega)]
      exact ⟨⟨σ', rfl, hp.step hl hlt hroom hw⟩, by omega⟩
  · refine ⟨w.phys, rfl, hl.vm, .refl .., Nat.zero_le _, rfl, rfl, fun i hi => absurd hi (Nat.not_lt_zero i), ?_⟩
    intro y hy hlt
    exact hl.zero y hy hlt
  · simp only [NARGV] at hfew ⊢
    omega

end Push

/-! ## Words on the stack page -/

/-- The bytes of one word among others. -/
theorem bytesOf_getD (ws : List ℕ) (i : ℕ) {k : ℕ} (hk : k < 4) :
    (bytesOf ws).getD (4 * i + k) 0 = (bytesOf [ws.getD i 0]).getD k 0 := by
  have hcases : k = 0 ∨ k = 1 ∨ k = 2 ∨ k = 3 := by omega
  induction ws generalizing i with
  | nil => rcases hcases with rfl | rfl | rfl | rfl <;> simp [bytesOf]
  | cons w ws ih =>
      have hcons : bytesOf (w :: ws) = UInt8.ofNat w :: UInt8.ofNat (w / 256) :: UInt8.ofNat (w / 65536) ::
          UInt8.ofNat (w / 16777216) :: bytesOf ws := rfl
      cases i with
      | zero => rcases hcases with rfl | rfl | rfl | rfl <;> rfl
      | succ i =>
          have hskip : 4 * (i + 1) + k = 4 * i + k + 1 + 1 + 1 + 1 := by omega
          rw [hcons, hskip]
          simp only [List.getD_cons_succ]
          exact ih i

/-- A word in what `read` finds at the addresses. -/
def WordAt (read : ℕ → Option UInt8) (a v : ℕ) : Prop :=
  v < 2 ^ 32 ∧ ∀ k < 4, read (a + k) = some ((bytesOf [v]).getD k 0)

theorem WordAt.unique {read : ℕ → Option UInt8} {v v' : ℕ} (h : WordAt read a v) (h' : WordAt read a v') :
    v = v' := by
  have hbyte : ∀ k < 4, (bytesOf [v]).getD k 0 = (bytesOf [v']).getD k 0 := fun k hk =>
    Option.some.inj ((h.2 k hk).symm.trans (h'.2 k hk))
  have h0 := congrArg UInt8.toNat (hbyte 0 (by omega))
  have h1 := congrArg UInt8.toNat (hbyte 1 (by omega))
  have h2 := congrArg UInt8.toNat (hbyte 2 (by omega))
  have h3 := congrArg UInt8.toNat (hbyte 3 (by omega))
  simp [bytesOf] at h0 h1 h2 h3
  have hlt := h.1
  have hlt' := h'.1
  omega

theorem wordAt_of_bytes {read : ℕ → Option UInt8} {base len i : ℕ} {ws : List ℕ}
    (h : ∀ k < len, read (base + k) = some ((bytesOf ws).getD k 0)) (hi : 4 * i + 4 ≤ len)
    (hv : ws.getD i 0 < 2 ^ 32) : WordAt read (base + 4 * i) (ws.getD i 0) := by
  refine ⟨hv, fun k hk => ?_⟩
  rw [Nat.add_assoc, h (4 * i + k) (by omega), bytesOf_getD ws i hk]

/-- The whole stack: the fake return address, `argc`, the pointer to the table, the table, and the
strings, each with what the caller has behind it and zeros up to the next word. -/
structure Built (w : State) (va argv : ℕ) (args : List (List UInt8)) (read : ℕ → Option UInt8) :
    Prop where
  ret : WordAt read (va - room args - 76) 0xFFFFFFFF
  argc : WordAt read (va - room args - 76 + 4) args.length
  table : WordAt read (va - room args - 76 + 8) (va - room args - 64)
  entry : ∀ i < args.length, WordAt read (va - room args - 64 + 4 * i) (place va args i)
  null : ∀ i, args.length ≤ i → i < NARGV → WordAt read (va - room args - 64 + 4 * i) 0
  byte : ∀ i < args.length, ∀ j < slot (args.getD i []), read (place va args i + j) = some
    (if j < (args.getD i []).length + 2 then w.byte (w.word (argv + 4 * i) + j) else 0)

section Finish
variable {F : List ℕ} {own : ℕ → Tag} {x : Program} {g : Ghost} {L : Mm.Layout} {σ σ₀ σ₁ σ₂ : Phys}
  {w : State} {argv : ℕ} {args : List (List UInt8)} {a : Args}

/-- The table and the head below the strings. -/
theorem Pushed.built (hp : Pushed L n w g x argv args a σ) (hl : Loaded L n σ₀ own x w.phys g)
    (hargc : a.argc = args.length) (hfew : args.length ≤ NARGV) (hroom : room args + 76 ≤ PAGESIZE)
    (hw₁ : Mm.Written L n (x.va - room args - 64) (fun k =>
      (bytesOf (a.argv ++ List.replicate (NARGV - a.argv.length) 0)).getD k 0) 64 σ g σ₁)
    (hw₂ : Mm.Written L n (x.va - room args - 76) (fun k =>
      (bytesOf [0xFFFFFFFF, a.argc, x.va - room args - 64]).getD k 0) 12 σ₁ g σ₂)
    {read : ℕ → Option UInt8}
    (hread : ∀ y, x.va - 4096 ≤ y → y < x.va → read y = some (g.sp.byte σ₂.mem y)) :
    Built w x.va argv args read := by
  have hlow := hl.low
  have hhigh := hl.high
  simp only [KERNEND, USEREND, PAGESIZE, NARGV] at hlow hhigh hroom hfew
  have hlen : a.argv.length = args.length := by rw [hp.entries, List.length_map, List.length_range, hargc]
  have hhead : ∀ k < 12, read (x.va - room args - 76 + k) =
      some ((bytesOf [0xFFFFFFFF, a.argc, x.va - room args - 64]).getD k 0) := by
    intro k hk
    rw [hread _ (by omega) (by omega), hw₂.byte _ (hl.has (by omega) (by omega)),
      if_pos ⟨by omega, by omega⟩, Nat.add_sub_cancel_left]
  have htable : ∀ k < 64, read (x.va - room args - 64 + k) =
      some ((bytesOf (a.argv ++ List.replicate (NARGV - a.argv.length) 0)).getD k 0) := by
    intro k hk
    rw [hread _ (by omega) (by omega), hw₂.byte _ (hl.has (by omega) (by omega)), if_neg (by omega),
      hw₁.byte _ (hl.has (by omega) (by omega)), if_pos ⟨by omega, by omega⟩, Nat.add_sub_cancel_left]
  have hargc' := wordAt_of_bytes (i := 1) hhead (by omega) (show a.argc < 2 ^ 32 by omega)
  refine ⟨wordAt_of_bytes (i := 0) hhead (by omega) (show 0xFFFFFFFF < 2 ^ 32 by decide), hargc ▸ hargc',
    wordAt_of_bytes (i := 2) hhead (by omega) (show x.va - room args - 64 < 2 ^ 32 by omega), ?_, ?_, ?_⟩
  · intro i hi
    have hentry : (a.argv ++ List.replicate (NARGV - a.argv.length) 0).getD i 0 = place x.va args i := by
      rw [List.getD_eq_getElem?_getD, List.getElem?_append_left (by omega), hp.entries, hargc]
      simp [hi]
    have hword := wordAt_of_bytes (i := i) htable (by omega) (by rw [hentry, place]; omega)
    rwa [hentry] at hword
  · intro i hge hlt
    have hentry : (a.argv ++ List.replicate (NARGV - a.argv.length) 0).getD i 0 = 0 := by
      rw [List.getD_eq_getElem?_getD, List.getElem?_append_right (by omega), List.getElem?_replicate]
      split <;> rfl
    simp only [NARGV] at hlt
    have hword := wordAt_of_bytes (i := i) htable (by omega) (by rw [hentry]; decide)
    rwa [hentry] at hword
  · intro i hi j hj
    have hbelow := room_take_succ hi
    have hall := room_take_le args (i + 1)
    have hplace : place x.va args i = x.va - room (args.take (i + 1)) := rfl
    rw [hread _ (by omega) (by omega), hw₂.byte _ (hl.has (by omega) (by omega)), if_neg (by omega),
      hw₁.byte _ (hl.has (by omega) (by omega)), if_neg (by omega), hp.byte i (by omega) j hj]

/-- The state in which the program starts. -/
def startState (w : State) (x : Program) (args : List (List UInt8)) (σ : Phys) : State :=
  { w with
    phys := σ, pgdir := x.pgdir, size := x.va - KERNEND, esp := x.va - room args - 76, eip := x.entry }

/-- The program has got its stack in memory `σ₁`, and then the old address space `old` has been torn
down. -/
structure Started (env : Env) (n t : ℕ) (old : Space) (w : State) (g : Ghost) (x : Program) (argv : ℕ)
    (args : List (List UInt8)) (σ₁ : Phys) (F : List ℕ) (own : ℕ → Tag) (u : State) : Prop where
  state : u = startState w x args u.phys
  vm : Vm env.L n σ₁ g
  kept : Mm.Kept n w.phys g σ₁ g
  torn : Mm.Torn env.L t σ₁ ⟨g.free, g.own, old⟩ u.phys F own
  built : ∀ read : ℕ → Option UInt8,
    (∀ y, x.va - 4096 ≤ y → y < x.va → read y = some (g.sp.byte σ₁.mem y)) →
    Built w x.va argv args read

/-- **The end of the call**, where the table and the head find room below the strings. -/
theorem Pushed.wp_finish {t : ℕ} {old : Space} (hp : Pushed env.L n w g x argv args a σ)
    (hl : Loaded env.L n σ₀ own x w.phys g) (hargc : a.argc = args.length)
    (hfew : args.length ≤ NARGV) (hroom : room args + 76 ≤ PAGESIZE) (hold : SpaceOk own t old σ₀.mem)
    (hdir : old.dir = w.pgdir) (hne : t ≠ n) (halign : ∀ p, own p ≠ .out → p % 4096 = 0) :
    wp E (finish env x a) (fun _ u => ∃ σ₁ F own', Started env n t old w g x argv args σ₁ F own' u)
      { w with phys := σ } := by
  have hlow := hl.low
  have hhigh := hl.high
  have hsp := hp.sp
  rw [hargc, List.take_length] at hsp
  simp only [KERNEND, USEREND, PAGESIZE] at hlow hhigh hroom
  have hmapped : ∀ v, 0x40000 ≤ v → 4096 * v < x.va → present (g.sp.pte v) := fun v hv hlt =>
    (hl.filled v hv).mpr hlt
  have htable : (a.sp + 2 ^ 32 - 4 * NARGV) % 2 ^ 32 = x.va - room args - 64 := by
    simp only [NARGV]
    omega
  have hhead : (x.va - room args - 64 + 2 ^ 32 - 12) % 2 ^ 32 = x.va - room args - 76 := by omega
  have hsize : (x.va + 2 ^ 32 - KERNEND) % 2 ^ 32 = x.va - KERNEND := by
    simp only [KERNEND]
    omega
  simp only [finish, onPhys, wp_bind, wp_zoom, wp_get, wp_modify, htable, hhead, hsize]
  have hout₁ : wp (fun e => E (.mm e)) (Mm.copyout g.sp.dir (x.va - room args - 64) (some fun k =>
      (bytesOf (a.argv ++ List.replicate (NARGV - a.argv.length) 0)).getD k 0) (4 * NARGV)) _ σ :=
    Mm.wp_copyout hp.vm (by simp only [KERNEND]; omega) (by simp only [USEREND, NARGV]; omega)
      fun v h1 h2 => hmapped v (by omega) (by simp only [NARGV] at h2; omega)
  rw [← hl.dir]
  refine wp_mono hout₁ ?_
  intro _ σ₁ hw₁
  have hout₂ : wp (fun e => E (.mm e)) (Mm.copyout g.sp.dir (x.va - room args - 76) (some fun k =>
      (bytesOf [0xFFFFFFFF, a.argc, x.va - room args - 64]).getD k 0) 12) _ σ₁ :=
    Mm.wp_copyout hw₁.vm (by simp only [KERNEND]; omega) (by simp only [USEREND]; omega)
      fun v h1 h2 => hmapped v (by omega) (by omega)
  refine wp_mono hout₂ ?_
  intro _ σ₂ hw₂
  have hkept := (hp.kept.trans hw₁.kept).trans hw₂.kept
  have hvm : Vm env.L t σ₂ ⟨g.free, g.own, old⟩ :=
    ⟨hw₂.vm.heap, hold.frame (hl.frame.trans hkept.frame) hne halign⟩
  rw [← hdir]
  refine wp_mono (Mm.wp_freevm hvm) ?_
  rintro _ σ₃ ⟨F, own', htorn⟩
  exact ⟨σ₂, F, own', by simp only [startState, hl.dir], hw₂.vm, hkept, htorn, fun read hread =>
    hp.built hl hargc hfew (by simpa only [PAGESIZE] using hroom) hw₁ hw₂ hread⟩

end Finish

/-! ## What the program finds -/

/-- From `esp` on, the addresses between `lo` and `hi` hold the arguments of `main`. -/
structure Decodes (read : ℕ → Option UInt8) (lo hi esp : ℕ) (args : List (List UInt8)) : Prop where
  head : lo ≤ esp ∧ esp + 12 ≤ hi
  ret : WordAt read esp 0xFFFFFFFF
  argc : WordAt read (esp + 4) args.length
  argv : ∃ table, WordAt read (esp + 8) table ∧ lo ≤ table ∧ table + 4 * (args.length + 1) ≤ hi ∧
    WordAt read (table + 4 * args.length) 0 ∧
    ∀ i < args.length, ∃ p, WordAt read (table + 4 * i) p ∧ lo ≤ p ∧
      p + (args.getD i []).length + 1 ≤ hi ∧
      ∀ k ≤ (args.getD i []).length, read (p + k) = some ((args.getD i []).getD k 0)

/-- The strings find room, each of them with the byte behind it, and the table has a null entry: there
are less than 16 of them, or the last one is empty and has another null behind it. -/
structure Fits (s : State) (argv : ℕ) (args : List (List UInt8)) : Prop where
  room : room args + 76 ≤ PAGESIZE
  behind : ∀ i < args.length, s.Present (s.word (argv + 4 * i) + (args.getD i []).length + 1)
  few : args.length < NARGV ∨ args.length = NARGV ∧ args.getD 15 [] = [] ∧
    s.byte (s.word (argv + 4 * 15) + 1) = 0

section Decode
variable {w : State} {va argv : ℕ} {args : List (List UInt8)} {read : ℕ → Option UInt8}

theorem StringAt.byte_le {str : List UInt8} (h : StringAt s p str) {k : ℕ} (hk : k ≤ str.length) :
    s.byte (p + k) = str.getD k 0 := (h.byte k hk).2

/-- The strings of the caller, on the stack. -/
theorem Built.string (hb : Built w va argv args read) (hargs : Given w argv args) {i : ℕ}
    (hi : i < args.length) {k : ℕ} (hk : k ≤ (args.getD i []).length) :
    read (place va args i + k) = some ((args.getD i []).getD k 0) := by
  have hslot : slot (args.getD i []) = ((args.getD i []).length + 5) / 4 * 4 := rfl
  rw [hb.byte i hi k (by omega), if_pos (by omega), (hargs.string hi).byte_le hk]

theorem Built.decodes (hb : Built w va argv args read) (hargs : Given w argv args)
    (hfits : Fits w argv args) (hva : PAGESIZE ≤ va) :
    Decodes read (va - PAGESIZE) va (va - room args - 76) args := by
  have hroom := hfits.room
  simp only [PAGESIZE] at hroom hva ⊢
  have hfew : args.length ≤ 16 := by
    have hfew := hfits.few
    simp only [NARGV] at hfew
    omega
  refine ⟨⟨by omega, by omega⟩, hb.ret, hb.argc, va - room args - 64, hb.table, by omega, ?_, ?_, ?_⟩
  · rcases hfits.few with hless | ⟨hlast, hempty, -⟩
    · simp only [NARGV] at hless
      omega
    · -- The last string is the null entry.
      simp only [NARGV] at hlast
      have htake := room_take_succ (i := 15) (show 15 < args.length by omega)
      have hall := room_take_le args (15 + 1)
      rw [hempty] at htake
      simp only [slot, List.length_nil] at htake
      omega
  · rcases hfits.few with hless | ⟨hlast, hempty, hnul⟩
    · exact hb.null args.length (le_refl _) hless
    · simp only [NARGV] at hlast
      have hplace : va - room args - 64 + 4 * args.length = place va args 15 := by
        have htake : args.take 16 = args := by rw [List.take_of_length_le (by omega)]
        rw [place, htake, hlast]
        omega
      have hbyte := hb.byte 15 (by omega)
      rw [hempty] at hbyte
      have hlt : 15 < args.length := by omega
      have hfirst := (hargs.string hlt).byte_le (Nat.zero_le _)
      rw [hempty] at hfirst
      refine ⟨by decide, fun k hk => ?_⟩
      have hzero : (bytesOf [0]).getD k 0 = 0 := by
        rcases (by omega : k = 0 ∨ k = 1 ∨ k = 2 ∨ k = 3) with rfl | rfl | rfl | rfl <;> rfl
      rw [hplace, hbyte k (by simpa [slot] using hk), hzero]
      rcases (by omega : k = 0 ∨ k = 1 ∨ 2 ≤ k) with rfl | rfl | hk2
      · simpa using hfirst
      · simpa using hnul
      · rw [List.length_nil, if_neg (by omega)]
  · intro i hi
    have hbelow := room_take_succ hi
    have hall := room_take_le args (i + 1)
    have hslot : slot (args.getD i []) = ((args.getD i []).length + 5) / 4 * 4 := rfl
    refine ⟨place va args i, hb.entry i hi, ?_, ?_, fun k hk => hb.string hargs hi hk⟩
    · simp only [place]
      omega
    · simp only [place]
      omega

/-- The null entry behind sixteen strings. -/
theorem Built.last (hb : Built w va argv args read) (hargs : Given w argv args) {lo esp : ℕ}
    (hd : Decodes read lo va esp args) (hesp : esp = va - room args - 76) (hlen : args.length = NARGV)
    (hroom : room args + 76 ≤ va) :
    args.getD 15 [] = [] ∧ w.byte (w.word (argv + 4 * 15) + 1) = 0 := by
  simp only [NARGV] at hlen
  obtain ⟨table, htable, -, -, hnull, -⟩ := hd.argv
  subst hesp
  obtain rfl := htable.unique hb.table
  have htake : args.take 16 = args := by rw [List.take_of_length_le (by omega)]
  have hplace : va - room args - 64 + 4 * args.length = place va args 15 := by
    rw [place, htake, hlen]
    omega
  rw [hplace] at hnull
  have hlt : 15 < args.length := by omega
  have hslot : slot (args.getD 15 []) = ((args.getD 15 []).length + 5) / 4 * 4 := rfl
  have hempty : args.getD 15 [] = [] := by
    by_contra hne
    have hpos := List.length_pos_of_ne_nil hne
    have hfirst := (hb.string hargs hlt (Nat.zero_le _)).symm.trans (hnull.2 0 (by omega))
    exact (hargs.string hlt).nonzero 0 hpos (Option.some.inj hfirst)
  refine ⟨hempty, ?_⟩
  have hbyte := hb.byte 15 hlt 1 (by omega)
  rw [if_pos (by omega)] at hbyte
  exact Option.some.inj (hbyte.symm.trans (hnull.2 1 (by omega)))

end Decode

/-! ## The call -/

section Run
variable {F F' : List ℕ} {own own' : ℕ → Tag} {x : Program} {g : Ghost} {σ₀ σ₁ : Phys}
  {w : State} {argv t : ℕ} {args : List (List UInt8)} {old : Space} {o : Option InodeId}

/-- **The rest of the call**, where the strings find room. -/
theorem Loaded.wp_runProgram (hl : Loaded env.L n σ₀ own x w.phys g)
    (hargs : Given w argv args) (hfew : args.length ≤ NARGV)
    (hbehind : ∀ i < args.length, w.Present (w.word (argv + 4 * i) + (args.getD i []).length + 1))
    (hroom : room args + 76 ≤ PAGESIZE) (hold : SpaceOk own t old σ₀.mem) (hdir : old.dir = w.pgdir)
    (hne : t ≠ n) (halign : ∀ p, own p ≠ .out → p % 4096 = 0) :
    wp E (runProgram env argv x) (fun r u => r = 0 ∧
      ∃ σ₁ F own', Started env n t old w g x argv args σ₁ F own' u) w := by
  have hend : ∀ a σ, Pushed env.L n w g x argv args a σ → a.argc = args.length →
      wp E (do finish env x a; return (0 : ℤ)) (fun r u => r = 0 ∧
        ∃ σ₁ F own', Started env n t old w g x argv args σ₁ F own' u) { w with phys := σ } := by
    intro a σ hp hargc
    apply wp_seq (hp.wp_finish hl hargc hfew hroom hold hdir hne halign)
    intro _ u hu
    exact wp_pure.mpr ⟨rfl, hu⟩
  rcases hargs with ⟨rfl, rfl⟩ | ⟨hsome, hargs⟩
  · rw [runProgram, if_neg (by decide)]
    refine hend _ w.phys ⟨hl.vm, .refl .., le_refl _, rfl, rfl, fun i hi => absurd hi (Nat.not_lt_zero i), ?_⟩ rfl
    intro y hy hlt
    exact hl.zero y hy hlt
  · rw [runProgram, if_pos hsome, wp_bind]
    refine wp_mono (hargs.wp_loop hl hfew hbehind (by omega)) ?_
    rintro a _ ⟨σ, rfl, hp, hargc⟩
    exact hend a σ hp hargc

namespace Started

/-- The new address space, when the old one is gone. -/
theorem vm_end (h : Started env n t old w g x argv args σ₁ F own u) (hne : t ≠ n) :
    Vm env.L n u.phys ⟨F, own, g.sp⟩ :=
  ⟨h.torn.heap, h.vm.space.frame h.torn.frame hne.symm h.vm.align⟩

/-- Its bytes. -/
theorem byte_end (h : Started env n t old w g x argv args σ₁ F own u) (hne : t ≠ n) {y : ℕ}
    (hy : g.sp.Has y) : g.sp.byte u.phys.mem y = g.sp.byte σ₁.mem y := by
  have hown := h.vm.space.user _ hy.1 hy.2
  have hpage := Mm.page_add (h.vm.user_page hy.1 hy.2).1 (Nat.mod_lt y (by decide : 0 < 4096))
  apply h.torn.frame.outside
  · rw [hpage, hown]
    simp
  · rw [hpage, hown]
    exact fun hsame => hne hsame.symm

theorem peek_end (h : Started env n t old w g x argv args σ₁ F own u)
    (hl : Loaded env.L n σ₀ own' x w.phys g) (hne : t ≠ n) {y : ℕ} (hy : x.va - 4096 ≤ y)
    (hlt : y < x.va) : peek u.phys u.pgdir y = some (g.sp.byte σ₁.mem y) := by
  have hhas := hl.has hy hlt
  have hhigh := hl.high
  simp only [USEREND] at hhigh
  have hpgdir : u.pgdir = g.sp.dir := by rw [h.state, hl.dir]; rfl
  rw [hpgdir, (h.vm_end hne).peek (by omega), if_pos hhas.2, ← h.byte_end hne hhas]

/-- What belongs to others has not changed. -/
theorem mem_end (h : Started env n t old w g x argv args σ₁ F own u)
    (hl : Loaded env.L n σ₀ own' x w.phys g) (hnew : ∀ q, ¬ (own' q).of n) {y : ℕ}
    (hfree : own' (page y) ≠ .free) (hof : ¬ (own' (page y)).of t) : u.phys.mem y = σ₀.mem y := by
  have hframe : Frame n σ₀ own' σ₁ g.own := hl.frame.trans h.kept.frame
  have hsame := hframe.kept_own hnew hfree
  rw [h.torn.frame.outside (by rwa [hsame]) (by rwa [hsame]), hframe.kept hnew hfree]

end Started

/-- `sys_execv` returns -1 and leaves its caller alone. -/
structure Declined (F : List ℕ) (s u : State) : Prop where
  caller : u = { s with phys := u.phys, lock := u.lock }
  pages : Handed F s.phys u.phys

/-- The caller goes on with program `x` and its arguments.  No page has changed but those that were free
and those of the old address space `t`. -/
structure Passes (own : ℕ → Tag) (t : ℕ) (s : State) (x : Program) (args : List (List UInt8)) (u : State) :
    Prop where
  pgdir : u.pgdir = x.pgdir
  entry : u.eip = x.entry
  stack : Decodes (peek u.phys u.pgdir) (x.va - PAGESIZE) x.va u.esp args
  kept : ∀ y, own (page y) ≠ .free → ¬ (own (page y)).of t → u.phys.mem y = s.phys.mem y

/-- The file, when it has been looked up. -/
def load (env : Env) (o : Option InodeId) : Kern (Option Program) := o.elim (pure none) (loadProgram env)

/-- The call that is `s` after the path has been looked up passes its array on, or fails. -/
def Delivers (env : Env) (F : List ℕ) (own : ℕ → Tag) (t : ℕ) (args : List (List UInt8)) (s₀ s : State)
    (o : Option InodeId) : Prop :=
  ∃ r u, sys_execv env s₀ = .ok (r, u) ∧ (r = -1 ∧ Declined F s u ∨
    r = 0 ∧ ∃ x w, load env o s = .ok (some x, w) ∧ Passes own t s x args u)

/-- The call after the path has been looked up. -/
theorem sys_execv_of_load {s₀ : State} (hfind : find env s₀ = .ok ((argv, o), s)) :
    sys_execv env s₀ = (load env o >>= fun r => r.elim (pure (-1)) (runProgram env argv)) s := by
  rw [sys_execv_eq, run_bind, hfind, ok_bind]
  cases o <;> rfl

theorem wp_load (h : Heap env.L s.phys F own) (hnew : ∀ q, ¬ (own q).of n)
    (hsafe : ∀ ip ∈ o, SafeFile (s.fileOf env ip)) :
    wp E (load env o) (fun r u => u = { s with phys := u.phys, lock := u.lock } ∧
      Settled env.L n s.phys own u.phys ∧
      ∀ x, r = some x → ∃ g, Loaded env.L n s.phys own x u.phys g) s := by
  cases o with
  | none => exact wp_pure.mpr ⟨rfl, ⟨F, own, h, .refl ..⟩, by simp⟩
  | some ip =>
      refine wp_mono (wp_loadProgram_loaded h hnew (hsafe ip rfl)) ?_
      rintro r u ⟨hu, hsettled, hsome⟩
      exact ⟨hu, hsettled, fun x hx => (hsome x hx).2⟩

/-- A call that ends leaves the stack pointer below all that it has been lowered by. -/
theorem wp_finish_any {a : Args} : wp Any (finish env x a) (fun _ u =>
    u.esp = ((a.sp + 2 ^ 32 - 4 * NARGV) % 2 ^ 32 + 2 ^ 32 - 12) % 2 ^ 32) s := by
  simp only [finish, onPhys, wp_bind, wp_zoom, wp_get, wp_modify]
  refine wp_mono (wp_trivial fun _ => trivial) fun _ _ _ => ?_
  refine wp_mono (wp_trivial fun _ => trivial) fun _ _ _ => ?_
  exact wp_mono (wp_trivial fun _ => trivial) fun _ _ _ => trivial

/-- What a call that ends has come to. -/
theorem ArgvAt.wp_runProgram_any (hargs : ArgvAt w argv args) (hsome : argv ≠ 0) :
    wp Any (runProgram env argv x) (fun _ u => args.length ≤ NARGV ∧
      (∀ i < args.length, w.Present (w.word (argv + 4 * i) + (args.getD i []).length + 1)) ∧
      u.esp = ((spAfter x.va args + 2 ^ 32 - 4 * NARGV) % 2 ^ 32 + 2 ^ 32 - 12) % 2 ^ 32) w := by
  rw [runProgram, if_pos hsome]
  apply wp_seq hargs.wp_loop_any
  rintro a u' ⟨hp, hargc⟩
  apply wp_seq wp_finish_any
  intro _ u hesp
  have hsp := hp.sp
  rw [hargc, List.take_length] at hsp
  exact wp_pure.mpr ⟨hargc ▸ hp.few, fun i hi => hp.behind i (hargc ▸ hi), by rw [hesp, hsp]⟩

theorem wp_runProgram_zero : wp Any (runProgram env argv x) (fun r _ => r = 0) s := by
  have hend : ∀ a u, wp Any (do finish env x a; return (0 : ℤ)) (fun r _ => r = 0) u := fun a u =>
    wp_seq (wp_trivial fun _ => trivial) fun _ _ _ => wp_pure.mpr rfl
  rw [runProgram]
  split
  · exact wp_seq (wp_trivial fun _ => trivial) fun a u _ => hend a u
  · exact hend _ s

theorem Decodes.length_lt {read : ℕ → Option UInt8} {lo hi esp : ℕ} (hd : Decodes read lo hi esp args)
    {str : List UInt8} (hstr : str ∈ args) : lo + str.length < hi := by
  obtain ⟨i, hi, rfl⟩ := List.mem_iff_getElem.mp hstr
  obtain ⟨table, -, -, -, -, hstring⟩ := hd.argv
  obtain ⟨p, -, hlo, hend, -⟩ := hstring i hi
  have hget : args.getD i [] = args[i] := by simp [hi]
  rw [hget] at hend
  omega

/-- Where the strings are found on the stack page, nothing has wrapped. -/
theorem room_of_decodes {read : ℕ → Option UInt8} {va esp : ℕ}
    (hd : Decodes read (va - PAGESIZE) va esp args) (hfew : args.length ≤ NARGV) (halign : va % 4 = 0)
    (hlow : KERNEND + 8192 ≤ va) (hhigh : va < USEREND)
    (hesp : esp = ((spAfter va args + 2 ^ 32 - 4 * NARGV) % 2 ^ 32 + 2 ^ 32 - 12) % 2 ^ 32) :
    esp = va - room args - 76 ∧ room args + 76 ≤ PAGESIZE := by
  have hshort : ∀ str ∈ args, str.length < PAGESIZE := fun str hstr => by
    have hlen := hd.length_lt hstr
    simp only [PAGESIZE] at hlen ⊢
    omega
  have hroom := room_le hshort
  obtain ⟨hlo, -⟩ := hd.head
  simp only [KERNEND, USEREND, PAGESIZE, NARGV] at hlow hhigh hfew hlo hesp ⊢
  have hsp := spAfter_eq args halign (by omega) (by omega)
  omega

end Run

/-! ## The arrays that are passed on -/

section Deliver
variable {F : List ℕ} {own : ℕ → Tag} {x : Program} {g : Ghost} {w s₀ : State} {argv t n : ℕ}
  {args : List (List UInt8)} {old : Space} {o : Option InodeId} {σ : Phys} {v : ℕ} {r : ℤ}

theorem arg_lt (s : State) (i : ℕ) : s.arg i < 2 ^ 32 := by
  have hlt : ∀ b : UInt8, b.toNat < 256 := UInt8.toNat_lt
  have h0 := hlt (s.byte (s.esp + 4 * (i + 1)))
  have h1 := hlt (s.byte (s.esp + 4 * (i + 1) + 1))
  have h2 := hlt (s.byte (s.esp + 4 * (i + 1) + 2))
  have h3 := hlt (s.byte (s.esp + 4 * (i + 1) + 3))
  simp only [State.arg, State.word]
  omega

theorem ptr_eq (hv : v < 2 ^ 32) (h : ptr (toInt v) ≠ 0) : ptr (toInt v) = v := by
  unfold ptr at h ⊢
  split at h
  next hlt =>
    rw [if_pos hlt]
    simp only [toInt, KERNEND] at hlt ⊢
    split at hlt <;> split <;> omega
  next => exact absurd rfl h

/-- The array, as `argptr` has passed its address on. -/
theorem Given.of_ptr (h : Given s₀ v args) (hv : v < 2 ^ 32)
    (hnull : args = [] ∨ ptr (toInt v) ≠ 0) : Given s₀ (ptr (toInt v)) args := by
  by_cases hz : ptr (toInt v) = 0
  · exact .inl ⟨hz, hnull.resolve_right fun hne => hne hz⟩
  · rw [ptr_eq hv hz]
    refine .inr ⟨fun hzero => hz ?_, ?_⟩
    · rw [ptr_eq hv hz, hzero]
    · rcases h with ⟨rfl, -⟩ | ⟨-, h⟩
      · exact absurd rfl hz
      · exact h

/-- The array is in the memory of the caller, which the loader leaves alone. -/
theorem Given.caller (h : Given s argv args) {tables : Syscall.State} {phys : Phys} {lock : Option InodeId} :
    Given { s with tables, phys, lock } argv args := by
  rcases h with h | ⟨hne, h⟩
  · exact .inl h
  · refine .inr ⟨hne, h.inside, fun i hi => ?_, h.null⟩
    obtain ⟨hentry, hstring⟩ := h.string i hi
    exact ⟨hentry, hstring.nonzero, hstring.byte⟩

theorem fits_caller {tables : Syscall.State} {phys : Phys} {lock : Option InodeId} :
    Fits { s with tables, phys, lock } argv args ↔ Fits s argv args :=
  ⟨fun h => ⟨h.room, h.behind, h.few⟩, fun h => ⟨h.room, h.behind, h.few⟩⟩

/-- The program has its arguments where there is room for them. -/
theorem Loaded.wp_passes (hl : Loaded env.L n σ own x w.phys g) (hargs : Given w argv args)
    (hfits : Fits w argv args) (hold : SpaceOk own t old σ.mem) (hdir : old.dir = w.pgdir) (hne : t ≠ n)
    (hnew : ∀ q, ¬ (own q).of n) (halign : ∀ p, own p ≠ .out → p % 4096 = 0) :
    wp E (runProgram env argv x) (fun r u => r = 0 ∧ u.pgdir = x.pgdir ∧ u.eip = x.entry ∧
      Decodes (peek u.phys u.pgdir) (x.va - PAGESIZE) x.va u.esp args ∧
      ∀ y, own (page y) ≠ .free → ¬ (own (page y)).of t → u.phys.mem y = σ.mem y) w := by
  have hfew : args.length ≤ NARGV := by
    have hfew := hfits.few
    omega
  have hlow := hl.low
  refine wp_mono (hl.wp_runProgram hargs hfew hfits.behind hfits.room hold hdir hne halign) ?_
  rintro r u ⟨rfl, σ₁, F', own', hst⟩
  have hesp : u.esp = x.va - room args - 76 := by rw [hst.state]; rfl
  have hbuilt := hst.built (peek u.phys u.pgdir) fun y hy hlt => hst.peek_end hl hne hy hlt
  refine ⟨rfl, by rw [hst.state]; rfl, by rw [hst.state]; rfl, ?_, fun y hfree hof =>
    hst.mem_end hl hnew hfree hof⟩
  rw [hesp]
  exact hbuilt.decodes hargs hfits (by simp only [KERNEND, PAGESIZE] at hlow ⊢; omega)

/-- Where the program finds its arguments, there is room for them. -/
theorem Loaded.fits (hl : Loaded env.L n σ own x w.phys g) (hargs : Given w v args) (hv : v < 2 ^ 32)
    (hold : SpaceOk own t old σ.mem) (hdir : old.dir = w.pgdir) (hne : t ≠ n)
    (halign : ∀ p, own p ≠ .out → p % 4096 = 0)
    (hrun : runProgram env (ptr (toInt v)) x w = .ok (r, u))
    (hd : Decodes (peek u.phys u.pgdir) (x.va - PAGESIZE) x.va u.esp args) :
    Fits w v args ∧ (args = [] ∨ ptr (toInt v) ≠ 0) := by
  have hlow := hl.low
  have hhigh := hl.high
  -- What is on the stack, when `strs` have been pushed.
  have hstart : ∀ strs, Given w (ptr (toInt v)) strs → strs.length ≤ NARGV →
      (∀ i < strs.length, w.Present (w.word (ptr (toInt v) + 4 * i) + (strs.getD i []).length + 1)) →
      room strs + 76 ≤ PAGESIZE → Built w x.va (ptr (toInt v)) strs (peek u.phys u.pgdir) ∧
        u.esp = x.va - room strs - 76 := by
    intro strs hgiven hfew hbehind hroom
    have hwp : wp (fun _ => False) (runProgram env (ptr (toInt v)) x) _ w :=
      hl.wp_runProgram hgiven hfew hbehind hroom hold hdir hne halign
    obtain ⟨-, σ₁, F', own', hst⟩ := wp_ok hwp hrun
    exact ⟨hst.built _ fun y hy hlt => hst.peek_end hl hne hy hlt, by rw [hst.state]; rfl⟩
  by_cases hz : ptr (toInt v) = 0
  · -- A null pointer passes no string on.
    obtain ⟨hbuilt, hesp⟩ := hstart [] (.inl ⟨hz, rfl⟩) (Nat.zero_le _)
      (fun i hi => absurd hi (Nat.not_lt_zero i)) (by decide)
    have hargc := hd.argc
    rw [hesp] at hargc
    obtain rfl : args = [] := List.length_eq_zero_iff.mp (hargc.unique hbuilt.argc)
    exact ⟨⟨by decide, fun i hi => absurd hi (Nat.not_lt_zero i), .inl (by decide)⟩, .inl rfl⟩
  · have hptr := ptr_eq hv hz
    have hgiven := hargs.of_ptr hv (.inr hz)
    have hat : ArgvAt w (ptr (toInt v)) args := (hgiven.resolve_left fun h => hz h.1).2
    obtain ⟨hfew, hbehind, hesp⟩ := wp_ok (hat.wp_runProgram_any hz) hrun
    have haligned := hl.aligned
    obtain ⟨hesp, hroom⟩ := room_of_decodes hd hfew (by omega) hlow hhigh hesp
    obtain ⟨hbuilt, -⟩ := hstart args hgiven hfew hbehind hroom
    rw [hptr] at hbuilt hgiven hbehind
    refine ⟨⟨hroom, hbehind, ?_⟩, .inr hz⟩
    rcases Nat.lt_or_ge args.length NARGV with hless | hge
    · exact .inl hless
    · have hlen := Nat.le_antisymm hfew hge
      refine .inr ⟨hlen, hbuilt.last hgiven hd hesp hlen ?_⟩
      simp only [KERNEND, PAGESIZE] at hlow hroom
      omega

/-- **The arguments of a program.**  A call of `sys_execv` returns -1 and has changed nothing, or the
new program finds the arguments of the array as those of `main`: this is so for every array, where the
file is not loaded, and else for those, and only those, that fit on the stack page, leave `_argv` a null
entry, and have an address that `argptr` passes on. -/
theorem execv_args_iff (h : Heap env.L s.phys F own) (hold : SpaceOk own t old s.phys.mem)
    (hdir : old.dir = s.pgdir) (hfind : find env s₀ = .ok ((argv, o), s))
    (hsafe : ∀ ip ∈ o, SafeFile (s.fileOf env ip)) (hargs : Given s₀ (s₀.arg 1) args) :
    Delivers env F own t args s₀ s o ↔ ∀ x w, load env o s = .ok (some x, w) →
      Fits s₀ (s₀.arg 1) args ∧ (args = [] ∨ ptr (toInt (s₀.arg 1)) ≠ 0) := by
  obtain ⟨n, hne, hnew⟩ := h.exists_fresh t
  obtain ⟨rfl, tables, rfl⟩ := find_argv hfind
  have harg := arg_lt s₀ 1
  have halign : ∀ p, own p ≠ .out → p % 4096 = 0 := fun p hp => (h.pages p hp).1
  have hload : wp (fun _ => False) (load env o) _ { s₀ with tables } := wp_load h hnew hsafe
  have hexec : sys_execv env s₀ = _ := sys_execv_of_load hfind
  rw [run_bind] at hexec
  constructor
  · rintro ⟨r, u, hrun, hresult⟩ x w hok
    rw [hexec, hok, ok_bind] at hrun
    obtain ⟨hw, -, hsome⟩ := wp_ok hload hok
    obtain ⟨g, hl⟩ := hsome x rfl
    obtain rfl := wp_ok wp_runProgram_zero hrun
    obtain ⟨-, x', w', hok', hp⟩ := hresult.resolve_left fun h => absurd h.1 (by decide)
    rw [hok] at hok'
    cases hok'
    have hgiven : Given w (s₀.arg 1) args := by
      rw [hw]
      exact hargs.caller
    have hpgdir : old.dir = w.pgdir := by rw [hw, hdir]
    obtain ⟨hfits, hnull⟩ := hl.fits hgiven harg hold hpgdir hne halign hrun hp.stack
    rw [hw] at hfits
    exact ⟨fits_caller.mp hfits, hnull⟩
  · intro hfits
    obtain ⟨r, w, hok, hw, ⟨F', own', -, hframe⟩, hsome⟩ := wp_total.mp hload
    rw [hok, ok_bind] at hexec
    cases r with
    | none => exact ⟨-1, w, hexec, .inl ⟨rfl, hw, .of_frame h hnew hframe⟩⟩
    | some x =>
        obtain ⟨g, hl⟩ := hsome x rfl
        obtain ⟨hroom, hnull⟩ := hfits x w hok
        have hgiven : Given w (ptr (toInt (s₀.arg 1))) args := by
          rw [hw]
          exact (hargs.of_ptr harg hnull).caller
        have hfits' : Fits w (ptr (toInt (s₀.arg 1))) args := by
          rw [hw, fits_caller]
          rcases hnull with rfl | hz
          · exact ⟨hroom.room, fun i hi => absurd hi (Nat.not_lt_zero i), .inl (by decide)⟩
          · rw [ptr_eq harg hz]
            exact fits_caller.mpr hroom
        have hpgdir : old.dir = w.pgdir := by rw [hw, hdir]
        have hpass : wp (fun _ => False) (runProgram env (ptr (toInt (s₀.arg 1))) x) _ w :=
          hl.wp_passes hgiven hfits' hold hpgdir hne hnew halign
        obtain ⟨r, u, hrun, rfl, hp, he, hd, hkept⟩ := wp_total.mp hpass
        exact ⟨0, u, hexec.trans hrun, .inr ⟨rfl, x, w, hok, hp, he, hd, hkept⟩⟩

end Deliver

theorem WordAt.word {s : State} {a v : ℕ} (h : WordAt (fun a => some (s.byte a)) a v) : s.word a = v := by
  have hbyte : ∀ k < 4, s.byte (a + k) = (bytesOf [v]).getD k 0 := fun k hk => Option.some.inj (h.2 k hk)
  have h0 := hbyte 0 (by omega)
  have h1 := hbyte 1 (by omega)
  have h2 := hbyte 2 (by omega)
  have h3 := hbyte 3 (by omega)
  have hlt := h.1
  rw [Nat.add_zero] at h0
  rw [State.word, h0, h1, h2, h3]
  simp [bytesOf]
  omega

theorem length_bytesOf (ws : List ℕ) : (bytesOf ws).length = 4 * ws.length := by
  induction ws with
  | nil => rfl
  | cons w ws ih => simp [bytesOf, ih]; omega

/-- What has been written to the memory of the caller. -/
theorem byte_written {s : State} {m : Mem} {base k : ℕ} {bs : List UInt8} (hmem : s.mem = Mem.write m base bs)
    (hend : base + bs.length ≤ 2 ^ 32) (hk : k < bs.length) : s.byte (base + k) = bs.getD k 0 := by
  rw [State.byte, hmem, Nat.mod_eq_of_lt (by omega), Mem.write_of_mem hk]
  simp [hk]

theorem word_written {s : State} {m : Mem} {base i : ℕ} {ws : List ℕ}
    (hmem : s.mem = Mem.write m base (bytesOf ws)) (hend : base + 4 * ws.length ≤ 2 ^ 32) (hi : i < ws.length)
    (hv : ws.getD i 0 < 2 ^ 32) : s.word (base + 4 * i) = ws.getD i 0 := by
  have hlen := length_bytesOf ws
  apply WordAt.word
  have hbytes : ∀ k < 4 * ws.length, some (s.byte (base + k)) = some ((bytesOf ws).getD k 0) := by
    intro k hk
    rw [byte_written hmem (by omega) (by omega)]
  exact wordAt_of_bytes hbytes (by omega) hv

/-- A program whose segment fills more than a page. -/
def twoPageProgram : List UInt8 := oneSegment KERNEND ((List.range 5000).map UInt8.ofNat)

theorem length_twoPages : ((List.range 5000).map UInt8.ofNat).length = 5000 := by
  rw [List.length_map, List.length_range]

/-- The kernel that has it as a file. -/
def twoPageEnv : Env := fileEnv (listFile twoPageProgram)

/-- The words of the caller: the return address, the path, `argv`, the array, "/", "a", "bc" and "". -/
def callWords (argv : ℕ) : List ℕ :=
  [0, 0x4000001C, argv, 0x40000020, 0x40000024, 0x40000028, 0, 0x2F, 0x61, 0x6362, 0]

/-- The call `execv("/", argv)`, with the array `{"a", "bc", "", 0}` at `0x4000000C`. -/
def execvCall (σ : Phys) (dir argv : ℕ) : State :=
  { oneUserPage 0x40000000 with
    mem := Mem.write (fun _ => 0) 0x40000000 (bytesOf (callWords argv))
    phys := σ
    pgdir := dir }

section Call
variable {σ : Phys} {dir argv : ℕ}

theorem execvCall_word {i : ℕ} (hi : i < 11) (hargv : argv < 2 ^ 32) :
    (execvCall σ dir argv).word (0x40000000 + 4 * i) = (callWords argv).getD i 0 := by
  have hsmall : ∀ v ∈ callWords argv, v < 2 ^ 32 := by
    simp only [callWords, List.mem_cons, List.not_mem_nil, or_false]
    omega
  have hlen : (callWords argv).length = 11 := rfl
  refine word_written rfl (by rw [hlen]; decide) hi (hsmall _ ?_)
  rw [List.getD_eq_getElem?_getD, List.getElem?_eq_getElem (by omega), Option.getD_some]
  exact List.getElem_mem _

theorem execvCall_range {a n : ℕ} (ha : 0x40000000 ≤ a) (hend : a + n ≤ 0x40001000) :
    (execvCall σ dir argv).Range a n := by
  intro k hk
  simp only [State.Present, execvCall, oneUserPage, PAGESIZE, beq_iff_eq]
  omega

theorem execvCall_string {i : ℕ} {str : List UInt8} (hi : i + str.length < 44)
    (hnonzero : ∀ k < str.length, str.getD k 0 ≠ 0)
    (hbytes : ∀ k < str.length + 1, (bytesOf (callWords argv)).getD (i + k) 0 = str.getD k 0) :
    StringAt (execvCall σ dir argv) (0x40000000 + i) str := by
  refine ⟨hnonzero, fun k hk => ⟨?_, ?_⟩⟩
  · exact execvCall_range (by omega) (show 0x40000000 + i + (k + 1) ≤ 0x40001000 by omega) k (by omega)
  · have hbyte : (execvCall σ dir argv).byte (0x40000000 + (i + k)) = _ :=
      byte_written rfl (show 0x40000000 + 44 ≤ 2 ^ 32 by decide) (show i + k < 44 by omega)
    rw [Nat.add_assoc, hbyte]
    exact hbytes k (by omega)

/-- The path is "/", which is the first inode, whatever else is in the tables. -/
theorem find_execvCall {tables tables' : Syscall.State} (hargv : argv < 2 ^ 32)
    (hroot : getrootdir env.contents tables = .ok (0, tables')) :
    find env { execvCall σ dir argv with tables } =
      .ok ((ptr (toInt argv), some 0), { execvCall σ dir argv with tables := tables' }) := by
  have hpath : (execvCall σ dir argv).arg 0 = 0x4000001C := execvCall_word (i := 1) (by decide) hargv
  have harg : (execvCall σ dir argv).arg 1 = argv := execvCall_word (i := 2) (by decide) hargv
  have hrange : ∀ i < 2, State.Range { execvCall σ dir argv with tables }
      ((execvCall σ dir argv).esp + 4 * (i + 1)) 4 := by
    intro i hi
    have hesp : (execvCall σ dir argv).esp = 0x40000000 := rfl
    have hin : (execvCall σ dir argv).Range ((execvCall σ dir argv).esp + 4 * (i + 1)) 4 :=
      execvCall_range (by omega) (by omega)
    exact hin
  have hpresent : (execvCall σ dir argv).Present 0x4000001C :=
    execvCall_range (le_refl _) (by decide) 0x1C (show 0x1C < 0x1000 by decide)
  have hptr : ptr (toInt 0x4000001C) = 0x4000001C := by decide
  have hwp : wp (fun _ => False) (find env) (fun r s => r.2 = some 0 ∧
      s = { execvCall σ dir argv with tables := tables' }) { execvCall σ dir argv with tables } := by
    simp only [find, argptr, argint, namei, onTables, wp_bind, wp_get, wp_pure]
    apply wp_getWord_of (.inl (hrange 0 (by decide)))
    intro _
    apply wp_getWord_of (.inl (hrange 1 (by decide)))
    intro _
    have hword : State.word { execvCall σ dir argv with tables }
      ((execvCall σ dir argv).esp + 4 * (0 + 1)) = 0x4000001C := hpath
    rw [hword, hptr, if_neg (by decide)]
    rw [wp_bind, wp_zoom]
    refine wp_iff.mpr (.inl ⟨0, tables', hroot, ?_⟩)
    rw [wp_bind]
    have hin : State.Present { execvCall σ dir argv with tables := tables' } 0x4000001C := hpresent
    have hbyte : State.byte { execvCall σ dir argv with tables := tables' } 0x4000001C = 0x2F := rfl
    apply wp_getByte_of (.inl hin)
    intro _
    rw [hbyte, if_pos rfl, wp_pure]
    exact ⟨rfl, rfl⟩
  obtain ⟨⟨argv', o⟩, s, hrun, rfl, rfl⟩ := wp_total.mp hwp
  obtain ⟨rfl, -⟩ := find_argv hrun
  have harg' : State.arg { execvCall σ dir argv with tables } 1 = argv := harg
  rw [harg'] at hrun
  exact hrun

theorem find_twoPage (hargv : argv < 2 ^ 32) : ∃ s, find twoPageEnv (execvCall σ dir argv) =
    .ok ((ptr (toInt argv), some 0), s) := by
  obtain ⟨tables', hroot⟩ : ∃ tables', getrootdir twoPageEnv.contents console = .ok (0, tables') := ⟨_, rfl⟩
  exact ⟨_, find_execvCall hargv hroot⟩

/-- The strings of the array. -/
def callStrings : List (List UInt8) := [[0x61], [0x62, 0x63], []]

theorem execvCall_argv (hargv : argv < 2 ^ 32) :
    ArgvAt (execvCall σ dir argv) 0x4000000C callStrings := by
  have hentry : ∀ i < 4, (execvCall σ dir argv).word (0x4000000C + 4 * i) = (callWords argv).getD (3 + i) 0 := by
    intro i hi
    rw [show 0x4000000C + 4 * i = 0x40000000 + 4 * (3 + i) by omega]
    exact execvCall_word (by omega) hargv
  refine ⟨fun i hi => ?_, fun i hi => ?_, hentry 3 (by decide)⟩
  · have hi' : i ≤ 3 := hi
    exact execvCall_range (by omega) (by omega)
  · have hi' : i < 3 := hi
    rw [hentry i (by omega)]
    rcases (by omega : i = 0 ∨ i = 1 ∨ i = 2) with rfl | rfl | rfl
    · refine ⟨show 0x40000020 ≠ 0 by decide, execvCall_string (i := 0x20) (by decide) (by decide) ?_⟩
      intro k hk
      have hk' : k < 2 := hk
      rcases (by omega : k = 0 ∨ k = 1) with rfl | rfl <;> rfl
    · refine ⟨show 0x40000024 ≠ 0 by decide, execvCall_string (i := 0x24) (by decide) (by decide) ?_⟩
      intro k hk
      have hk' : k < 3 := hk
      rcases (by omega : k = 0 ∨ k = 1 ∨ k = 2) with rfl | rfl | rfl <;> rfl
    · refine ⟨show 0x40000028 ≠ 0 by decide, execvCall_string (i := 0x28) (by decide) (by decide) ?_⟩
      intro k hk
      have hk' : k < 1 := hk
      obtain rfl : k = 0 := by omega
      rfl

theorem execvCall_fits (hargv : argv < 2 ^ 32) : Fits (execvCall σ dir argv) 0x4000000C callStrings := by
  refine ⟨by decide, fun i hi => ?_, .inl (by decide)⟩
  have hi' : i < 3 := hi
  have hword : (execvCall σ dir argv).word (0x4000000C + 4 * i) = (callWords argv).getD (3 + i) 0 := by
    rw [show 0x4000000C + 4 * i = 0x40000000 + 4 * (3 + i) by omega]
    exact execvCall_word (by omega) hargv
  rw [hword]
  rcases (by omega : i = 0 ∨ i = 1 ∨ i = 2) with rfl | rfl | rfl
  · exact execvCall_range (le_refl 0x40000000) (by decide) 0x22 (by decide : 0x22 < 0x1000)
  · exact execvCall_range (le_refl 0x40000000) (by decide) 0x27 (by decide : 0x27 < 0x1000)
  · exact execvCall_range (le_refl 0x40000000) (by decide) 0x29 (by decide : 0x29 < 0x1000)

/-- The program is loaded. -/
theorem execvCall_loads {g : Ghost} (hvm : Vm Mm.smallLayout 0 σ g) (hroom : 2500 ≤ g.free.length)
    (hfind : find twoPageEnv (execvCall σ dir argv) = .ok ((ptr (toInt argv), some 0), s)) :
    ∃ x t, loadProgram twoPageEnv 0 s = .ok (some x, t) := by
  obtain ⟨-, tables, rfl⟩ := find_argv hfind
  refine wp_loadProgram_oneSegment hvm.heap hroom (listFile_begins _) ?_ ?_
  · rw [length_twoPages]
    decide
  · rw [length_twoPages]
    decide

end Call

/-- The program starts, and finds its three arguments. -/
theorem execv_args_iff_threeArguments : ∃ σ dir F own t old s x u, Heap Mm.smallLayout s.phys F own ∧
    SpaceOk own t old s.phys.mem ∧ find twoPageEnv (execvCall σ dir 0x4000000C) =
      .ok ((0x4000000C, some 0), s) ∧
    sys_execv twoPageEnv (execvCall σ dir 0x4000000C) = .ok (0, u) ∧ Passes own t s x callStrings u := by
  obtain ⟨σ, g, hvm, -, -, hroom, -⟩ := Mm.exists_vm_small
  obtain ⟨s, hfind⟩ : ∃ s, find twoPageEnv (execvCall σ g.sp.dir 0x4000000C) =
    .ok ((0x4000000C, some 0), s) := find_twoPage (by decide)
  obtain ⟨x, w, hload⟩ := execvCall_loads hvm (by omega) hfind
  have harg : (execvCall σ g.sp.dir 0x4000000C).arg 1 = 0x4000000C :=
    execvCall_word (i := 2) (by decide) (by decide)
  have hargs : Given (execvCall σ g.sp.dir 0x4000000C) ((execvCall σ g.sp.dir 0x4000000C).arg 1)
      callStrings := by
    rw [harg]
    exact .inr ⟨by decide, execvCall_argv (by decide)⟩
  have hsafe : ∀ ip ∈ some 0, SafeFile (s.fileOf twoPageEnv ip) := fun _ _ =>
    safeFile_oneSegment (listFile_begins _) (by rw [length_twoPages]; decide)
  obtain ⟨-, tables, hs⟩ := find_argv hfind
  have hphys : s.phys = σ := by
    rw [hs]
    rfl
  have hheap : Heap twoPageEnv.L s.phys g.free g.own := hphys ▸ hvm.heap
  have hspace : SpaceOk g.own 0 g.sp s.phys.mem := hphys ▸ hvm.space
  have hdir : g.sp.dir = s.pgdir := by
    rw [hs]
    rfl
  obtain ⟨r, u, hrun, hend⟩ := (execv_args_iff hheap hspace hdir hfind hsafe hargs).mpr fun _ _ _ => by
    rw [harg]
    exact ⟨execvCall_fits (by decide), .inr (by decide)⟩
  -- The program has been loaded, so that the call does not fail.
  have hcall : runProgram twoPageEnv (ptr (toInt 0x4000000C)) x w = .ok (r, u) := by
    have hload' : load twoPageEnv (some 0) s = .ok (some x, w) := hload
    rw [← hrun, sys_execv_of_load hfind, run_bind, hload', ok_bind]
    rfl
  obtain rfl := wp_ok wp_runProgram_zero hcall
  obtain ⟨-, x', w', -, hpasses⟩ := hend.resolve_left fun h => absurd h.1 (by decide)
  exact ⟨σ, g.sp.dir, g.free, g.own, 0, g.sp, s, x', u, hheap, hspace, hfind, hrun, hpasses⟩

end Mixv6.Syscall.User
