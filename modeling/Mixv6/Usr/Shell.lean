import Mixv6.Dev.Printf
import Mathlib.Logic.Function.Basic

/-!
# Command lines of the shell

`argparse` of `usr/shell.c`.  It copies the line to `buf`, with NULs for the spaces, and makes
every space the end of one argument and the beginning of the next one.

The array of the arguments has 16 entries, and `execv` expects a null pointer behind the last
argument.  `argparse` does not count the spaces.

## Main definitions

* `Parse`, `argparse` — the routine, and what it works on.
* `args` — the arguments that `execv` finds.
* `Splits`, `splits_iff` — where the line is split as it should be.
-/

namespace Mixv6.Usr.Shell

open Mixv6.Dev (cstr)

/-- `sizeof(buf)`. -/
def NBUF : ℕ := 1024

/-- The number of entries of `argv`. -/
def NARGV : ℕ := 16

def space : UInt8 := 0x20

/-- `buf`, `argv` and `argc`; pointers into `buf` are indices.  The last two fields are not in the
source: no store has come to these indices of `buf` and `argv`, or to larger ones.  What a store
beyond `NBUF` or `NARGV` would destroy is left out. -/
structure Parse where
  buf : ℕ → UInt8
  argv : ℕ → Option ℕ
  argc : ℕ
  bufTop : ℕ
  argvTop : ℕ

namespace Parse

/-- `memset(buf, 0, sizeof(buf))`; `main` has zeroed `argv`. -/
def start : Parse := ⟨fun _ => 0, fun _ => none, 0, NBUF, 0⟩

/-- `buf[i] = c`. -/
def setBuf (u : Parse) (i : ℕ) (c : UInt8) : Parse :=
  { u with buf := Function.update u.buf i c, bufTop := max u.bufTop (i + 1) }

/-- `argv[argc++] = &buf[p]`. -/
def push (u : Parse) (p : ℕ) : Parse :=
  { u with
    argv := Function.update u.argv u.argc (some p)
    argc := u.argc + 1
    argvTop := max u.argvTop (u.argc + 1) }

/-- The string at a pointer. -/
def str (u : Parse) (p : ℕ) : List UInt8 :=
  cstr ((List.range (NBUF - p)).map fun k => u.buf (p + k))

/-- The arguments. -/
def args (u : Parse) : List (List UInt8) :=
  (List.range u.argc).map fun k => (u.argv k).elim [] u.str

end Parse

/-- The loop of `argparse`, from index `i` on. -/
def argparseLoop : List UInt8 → ℕ → Parse → Parse
  | [], _, u => u
  | c :: input, i, u =>
      if c = 0 then u
      else if c = space then argparseLoop input (i + 1) ((u.setBuf i 0).push (i + 1))
      else argparseLoop input (i + 1) (u.setBuf i c)

/-- `argparse`. -/
def argparse (input : List UInt8) : Parse := argparseLoop input 0 (Parse.start.push 0)

variable {input line : List UInt8} {i k : ℕ} {u : Parse}

/-! ## The loop -/

/-- The loop ends at the terminator. -/
theorem argparseLoop_cstr : argparseLoop (cstr input) i u = argparseLoop input i u := by
  induction input generalizing i u with
  | nil => rfl
  | cons c input ih =>
      by_cases hc : c = 0
      · simp [cstr, argparseLoop, hc]
      · have hcons : cstr (c :: input) = c :: cstr input := by simp [cstr, hc]
        rw [hcons, argparseLoop, argparseLoop, ih, ih]

/-- Where the arguments after the first one begin. -/
def starts : List UInt8 → List ℕ
  | [] => []
  | c :: line => if c = space then 1 :: (starts line).map (· + 1) else (starts line).map (· + 1)

/-- What is put into `buf` for a character. -/
def blank (c : UInt8) : UInt8 := if c = space then 0 else c

/-- `buf` after the line was copied to index `i`. -/
structure Copied (text : List UInt8) (i : ℕ) (buf buf' : ℕ → UInt8) : Prop where
  written : ∀ k c, text[k]? = some c → buf' (i + k) = blank c
  kept : ∀ k, k < i ∨ i + text.length ≤ k → buf' k = buf k

theorem Copied.cons {buf buf' : ℕ → UInt8} {c : UInt8}
    (h : Copied line (i + 1) (Function.update buf i (blank c)) buf') :
    Copied (c :: line) i buf buf' where
  written := by
    intro k d hd
    cases k with
    | zero =>
        obtain rfl : c = d := by simpa using hd
        rw [Nat.add_zero, h.kept i (.inl (Nat.lt_succ_self i)), Function.update_self]
    | succ k =>
        have hwritten := h.written k d (by simpa using hd)
        rwa [Nat.add_right_comm] at hwritten
  kept := by
    intro k hk
    rw [List.length_cons] at hk
    rw [h.kept k (by omega), Function.update_of_ne (by omega)]

/-- **The loop** copies the line, and appends the pointers. -/
structure Parsed (line : List UInt8) (i : ℕ) (u v : Parse) : Prop where
  buf : Copied line i u.buf v.buf
  argc : v.argc = u.argc + line.count space
  argv : (List.range v.argc).map v.argv =
    (List.range u.argc).map u.argv ++ (starts line).map fun p => some (i + p)
  rest : ∀ k, v.argc ≤ k → v.argv k = u.argv k
  bufTop : v.bufTop ≤ max u.bufTop (i + line.length)
  argvTop : u.argvTop = u.argc → v.argvTop = v.argc

namespace Parsed

theorem nil : Parsed [] i u u where
  buf := ⟨by simp, fun _ _ => rfl⟩
  argc := rfl
  argv := by simp [starts]
  rest _ _ := rfl
  bufTop := le_max_left _ _
  argvTop h := h

/-- The places where arguments begin, from the next character on. -/
theorem starts_succ (line : List UInt8) (i : ℕ) :
    ((starts line).map (· + 1)).map (fun p => some (i + p)) =
      (starts line).map fun p => some (i + 1 + p) := by
  rw [List.map_map]
  apply List.map_congr_left
  intro p _
  exact congrArg some (by rw [Nat.add_assoc, Nat.add_comm 1])

/-- A character that is no space. -/
theorem char {c : UInt8} {v : Parse} (hc : c ≠ space)
    (h : Parsed line (i + 1) (u.setBuf i c) v) : Parsed (c :: line) i u v where
  buf := by
    have hblank : blank c = c := if_neg hc
    apply Copied.cons
    rw [hblank]
    exact h.buf
  argc := by
    rw [List.count_cons_of_ne hc]
    exact h.argc
  argv := by
    rw [starts, if_neg hc, starts_succ]
    exact h.argv
  rest := h.rest
  bufTop := by
    have hbufTop := h.bufTop
    simp only [Parse.setBuf, List.length_cons] at hbufTop ⊢
    omega
  argvTop := h.argvTop

/-- A space ends an argument, and begins the next one. -/
theorem space {v : Parse} (h : Parsed line (i + 1) ((u.setBuf i 0).push (i + 1)) v) :
    Parsed (space :: line) i u v where
  buf := h.buf.cons
  argc := by
    have hargc : v.argc = u.argc + 1 + line.count Shell.space := h.argc
    rw [List.count_cons_self, hargc]
    omega
  argv := by
    have hpush : (List.range (u.argc + 1)).map (Function.update u.argv u.argc (some (i + 1))) =
        (List.range u.argc).map u.argv ++ [some (i + 1)] := by
      rw [List.range_succ, List.map_append, List.map_singleton, Function.update_self]
      congr 1
      apply List.map_congr_left
      intro k hk
      exact Function.update_of_ne (List.mem_range.mp hk).ne ..
    rw [starts, if_pos rfl, List.map_cons, starts_succ, ← List.singleton_append,
      ← List.append_assoc, ← hpush]
    exact h.argv
  rest := by
    intro k hk
    have hargc : v.argc = u.argc + 1 + line.count Shell.space := h.argc
    have hne : k ≠ u.argc := by omega
    rw [h.rest k hk]
    exact Function.update_of_ne hne ..
  bufTop := by
    have hbufTop := h.bufTop
    simp only [Parse.setBuf, Parse.push, List.length_cons] at hbufTop ⊢
    omega
  argvTop := by
    intro htop
    apply h.argvTop
    simp only [Parse.push, Parse.setBuf, htop]
    omega

end Parsed

/-- **The loop**, on a line without terminator. -/
theorem parsed (hline : (0 : UInt8) ∉ line) : Parsed line i u (argparseLoop line i u) := by
  induction line generalizing i u with
  | nil => exact .nil
  | cons c line ih =>
      rw [List.mem_cons, not_or] at hline
      rw [argparseLoop, if_neg (Ne.symm hline.1)]
      split
      next hc =>
        subst hc
        exact (ih hline.2).space
      next hc => exact (ih hline.2).char hc

/-! ## The arguments -/

/-- The arguments are the parts between the spaces. -/
theorem parts_eq_splitOn (line : List UInt8) :
    ((0 :: starts line).map fun p => (line.drop p).takeWhile (· ≠ space)) = line.splitOn space := by
  induction line with
  | nil => rfl
  | cons c line ih =>
      rw [List.splitOn_cons_eq_if_modifyHead, ← ih, starts]
      by_cases hc : c = space
      · simp [hc, Function.comp_def]
      · simp [hc, Function.comp_def]

/-- A part of the line, with NULs for the spaces, up to the first NUL. -/
theorem cstr_blank (hline : (0 : UInt8) ∉ line) (n : ℕ) :
    cstr (line.map blank ++ List.replicate n 0) = line.takeWhile (· ≠ space) := by
  induction line with
  | nil => cases n <;> rfl
  | cons c line ih =>
      rw [List.mem_cons, not_or] at hline
      have hih := ih hline.2
      by_cases hc : c = space
      · simp [cstr, blank, hc]
      · have hzero : c ≠ 0 := Ne.symm hline.1
        simpa [cstr, blank, hc, hzero] using hih

/-- `buf` from an index on, after `argparse`. -/
theorem Copied.drop {buf : ℕ → UInt8} (h : Copied line 0 (fun _ => 0) buf)
    (hlength : line.length ≤ NBUF) {p : ℕ} (hp : p ≤ line.length) :
    (List.range (NBUF - p)).map (fun k => buf (p + k)) =
      (line.drop p).map blank ++ List.replicate (NBUF - line.length) 0 := by
  apply List.ext_getElem
  · simp
    omega
  · intro k hk hk'
    rw [List.getElem_map, List.getElem_range]
    by_cases hin : p + k < line.length
    · have hwritten := h.written (p + k) _ (List.getElem?_eq_getElem hin)
      rw [List.getElem_append_left (by simp; omega), List.getElem_map, List.getElem_drop,
        ← hwritten, Nat.zero_add]
    · rw [List.getElem_append_right (by simp; omega), List.getElem_replicate]
      exact h.kept (p + k) (.inr (by omega))

theorem starts_le (line : List UInt8) : ∀ p ∈ starts line, p ≤ line.length := by
  induction line with
  | nil => exact fun _ h => absurd h List.not_mem_nil
  | cons c line ih =>
      have hmap : ∀ p ∈ (starts line).map (· + 1), p ≤ (c :: line).length := by
        intro p hp
        obtain ⟨q, hq, rfl⟩ := List.mem_map.mp hp
        exact Nat.succ_le_succ (ih q hq)
      intro p hp
      rw [starts] at hp
      split at hp
      · rcases List.mem_cons.mp hp with rfl | hp
        · exact Nat.succ_le_succ (Nat.zero_le _)
        · exact hmap p hp
      · exact hmap p hp

theorem zero_notMem_cstr (input : List UInt8) : (0 : UInt8) ∉ cstr input := by
  induction input with
  | nil => exact List.not_mem_nil
  | cons c input ih =>
      by_cases hc : c = 0
      · simp [cstr, hc]
      · have hcons : cstr (c :: input) = c :: cstr input := by simp [cstr, hc]
        rw [hcons, List.mem_cons, not_or]
        exact ⟨Ne.symm hc, ih⟩

theorem argparse_parsed (input : List UInt8) :
    Parsed (cstr input) 0 (Parse.start.push 0) (argparse input) := by
  rw [argparse, ← argparseLoop_cstr]
  exact parsed (zero_notMem_cstr input)

theorem argparse_argc (input : List UInt8) :
    (argparse input).argc = (cstr input).count space + 1 := by
  rw [(argparse_parsed input).argc, Nat.add_comm]
  rfl

/-- **The arguments** are the parts of the line between the spaces. -/
theorem args_eq_splitOn (h : (cstr input).length ≤ NBUF) :
    (argparse input).args = (cstr input).splitOn space := by
  have hargv : (List.range (argparse input).argc).map (argparse input).argv =
      (0 :: starts (cstr input)).map some := by
    simpa [Parse.push, Parse.start] using (argparse_parsed input).argv
  calc (argparse input).args
      = ((List.range (argparse input).argc).map (argparse input).argv).map
          fun p => p.elim [] (argparse input).str := by
        rw [List.map_map]
        rfl
    _ = (0 :: starts (cstr input)).map (argparse input).str := by
        rw [hargv, List.map_map]
        rfl
    _ = (0 :: starts (cstr input)).map
          fun p => ((cstr input).drop p).takeWhile (· ≠ space) := by
        apply List.map_congr_left
        intro p hp
        have hle : p ≤ (cstr input).length := by
          rcases List.mem_cons.mp hp with rfl | hp
          · exact Nat.zero_le _
          · exact starts_le _ p hp
        rw [Parse.str, (argparse_parsed input).buf.drop h hle]
        exact cstr_blank (fun hzero => zero_notMem_cstr input (List.mem_of_mem_drop hzero)) _
    _ = (cstr input).splitOn space := parts_eq_splitOn _

/-! ## Lines with few spaces -/

/-- **What `main` needs of the arguments** of a line. -/
structure Splits (input : List UInt8) : Prop where
  buf : (argparse input).bufTop ≤ NBUF
  argv : (argparse input).argvTop ≤ NARGV
  argc : (argparse input).argc ≤ 15
  null : (argparse input).argv (argparse input).argc = none
  join : [space].intercalate (argparse input).args = cstr input

/-- **A line in `cmd` is split as it should be** if and only if it has at most 14 spaces. -/
theorem splits_iff (h : (cstr input).length ≤ 127) :
    Splits input ↔ (cstr input).count space ≤ 14 := by
  have hargc := argparse_argc input
  constructor
  · intro hsplits
    have h15 := hsplits.argc
    omega
  · intro hcount
    have hparsed := argparse_parsed input
    have htop : (argparse input).argvTop = (argparse input).argc := hparsed.argvTop rfl
    have h16 : NARGV = 16 := rfl
    exact
      { buf := by
          have hbuf := hparsed.bufTop
          have h1024 : NBUF = 1024 := rfl
          have hstart : (Parse.start.push 0).bufTop = NBUF := rfl
          omega
        argv := by omega
        argc := by omega
        null := by
          rw [hparsed.rest _ le_rfl]
          exact Function.update_of_ne (by rw [hargc]; exact Nat.succ_ne_zero _) ..
        join := by rw [args_eq_splitOn (h.trans (by decide)), List.intercalate_splitOn] }

/-- `ls  a` has two spaces. -/
theorem splits_ls : Splits [0x6c, 0x73, space, space, 0x61, 0] :=
  (splits_iff (by decide)).mpr (by decide)

theorem argparse_spaces (n : ℕ) : (argparse (List.replicate n space)).argc = n + 1 := by
  have hspaces : cstr (List.replicate n space) = List.replicate n space := by
    rw [cstr, List.takeWhile_replicate, if_pos (by decide)]
  rw [argparse_argc, hspaces, List.count_replicate_self]

/-- Fifteen spaces fill the array up to its last entry, and a line of spaces goes beyond it. -/
theorem not_splits_spaces : (argparse (List.replicate 15 space)).argc = NARGV ∧
    (argparse (List.replicate 127 space)).argvTop = 128 ∧
    ¬ Splits (List.replicate 15 space) ∧ ¬ Splits (List.replicate 127 space) := by
  have hargc : (argparse (List.replicate 15 space)).argc = NARGV := argparse_spaces 15
  have htop : (argparse (List.replicate 127 space)).argvTop = 128 :=
    ((argparse_parsed _).argvTop rfl).trans (argparse_spaces 127)
  refine ⟨hargc, htop, fun h => ?_, fun h => ?_⟩
  · have h15 := h.argc
    rw [hargc] at h15
    exact absurd h15 (by decide)
  · have h16 := h.argv
    rw [htop] at h16
    exact absurd h16 (by decide)

end Mixv6.Usr.Shell
