import Mixv6.Dev.Printf
import Mathlib.Logic.Function.Basic

/-!
# Formatted printing in the user library

`printf`, `printn`, `put` and `bflush` of `usr/lib/uprf.c`.  The text goes through a
buffer, which is written when it is full and at the end of `printf`.

`printf` empties the buffer when it is entered, also when it calls itself for an unknown
conversion, and it does not write the buffer after that call.  The text that is in the
buffer at that moment is lost.

## Main definitions

* `Out` — the buffer, and what has been passed to `write`.
* `printf`, `printn`, `put`, `bflush` — the routines.
* `Filled` — the text so far has been written, or is in the buffer.
* `agree_iff` — both `printf`s print the same text if and only if no text is lost.
-/

namespace Mixv6.Usr

open Mixv6.Dev (ascii percent unknown digit Base decimal hexadecimal octal numeral cstr conversion
  spell meaning ofChar ofWord toWord shown)

def BUFSIZE : ℕ := 512

/-- `struct input`.  The last two fields are not in the source: the byte ranges that have been
passed to `write`, and the largest value that the index has had. -/
structure Out where
  buf : ℕ → UInt8
  index : ℕ
  written : List (List UInt8)
  high : ℕ

namespace Out

/-- The characters in the buffer. -/
def kept (u : Out) : List UInt8 := (List.range u.index).map u.buf

/-- The text that has been written. -/
def sent (u : Out) : List UInt8 := u.written.flatten

/-- `bflush`. -/
def bflush (u : Out) : Out := { u with written := u.written ++ [u.kept] }

/-- `input.buf[input.index] = c; input.index++;` -/
def store (u : Out) (c : ℤ) : Out :=
  { u with
    buf := Function.update u.buf u.index (UInt8.ofNat (c % 256).toNat)
    index := u.index + 1
    high := max u.high (u.index + 1) }

/-- `put`. -/
def put (u : Out) (c : ℤ) : Out :=
  if (u.store c).index = BUFSIZE then { (u.store c).bflush with index := 0 } else u.store c

end Out

/-- `printn`. -/
def printn (base : Base) (n : ℕ) (u : Out) : Out :=
  let u := if n / base = 0 then u else printn base (n / base) u
  u.put (ofChar (digit (n % base)))
termination_by n
decreasing_by
  have hpos : 0 < n := by
    rcases Nat.eq_zero_or_pos n with rfl | h
    · simp at *
    · exact h
  exact Nat.div_lt_self hpos base.2

/-- `while ((c = *s++)) put(c);` -/
def putString : List UInt8 → Out → Out
  | [], u => u
  | c :: s, u => if c = 0 then u else putString s (u.put (ofChar c))

/-- The loop of `printf`.  `call` is `printf` itself. -/
def printfLoop (call : List UInt8 → (ℕ → UInt32) → Out → Option Out)
    (str : UInt32 → List UInt8) : List UInt8 → (ℕ → UInt32) → Out → Option Out
  | [], _, u => some u.bflush
  | c :: fmt, argv, u =>
      if c = 0 then some u.bflush
      else if c ≠ percent then printfLoop call str fmt argv (u.put (ofChar c))
      else match fmt with
        | [] => call unknown (fun _ => toWord 0) u
        | c :: fmt =>
            let rest := fun k => argv (k + 1)
            if c = 'd'.toUInt8 then
              printfLoop call str fmt rest (printn decimal (argv 0).toNat u)
            else if c = 'x'.toUInt8 ∨ c = 'p'.toUInt8 then
              let u := (u.put (ofChar '0'.toUInt8)).put (ofChar 'x'.toUInt8)
              printfLoop call str fmt rest (printn hexadecimal (argv 0).toNat u)
            else if c = 'o'.toUInt8 then
              let u := (u.put (ofChar '0'.toUInt8)).put (ofChar 'o'.toUInt8)
              printfLoop call str fmt rest (printn octal (argv 0).toNat u)
            else if c = 'c'.toUInt8 then printfLoop call str fmt rest (u.put (ofWord (argv 0)))
            else if c = 's'.toUInt8 then
              let s := if argv 0 = 0 then ascii "(null)" else str (argv 0)
              printfLoop call str fmt rest (putString s u)
            else call unknown (fun _ => toWord (ofChar c)) u

/-- `printf`, with a bound on the depth of its calls. -/
def printf (str : UInt32 → List UInt8) :
    ℕ → List UInt8 → (ℕ → UInt32) → Out → Option Out
  | 0 => fun _ _ _ => none
  | depth + 1 => fun fmt argv u => printfLoop (printf str depth) str fmt argv { u with index := 0 }

variable {str : UInt32 → List UInt8} {call : List UInt8 → (ℕ → UInt32) → Out → Option Out}
  {fmt : List UInt8} {argv : ℕ → UInt32} {u : Out} {base text : List UInt8}

/-! ## The buffer -/

/-- Since the text `base`, `text` has been put: it is written or in the buffer, which was empty. -/
structure Filled (base text : List UInt8) (u : Out) : Prop where
  all : u.sent ++ u.kept = base ++ text
  index : u.index = text.length % BUFSIZE
  high : u.high ≤ BUFSIZE

theorem kept_store (u : Out) (c : ℤ) :
    (u.store c).kept = u.kept ++ [UInt8.ofNat (c % 256).toNat] := by
  have hkeep : ∀ k ∈ List.range u.index, (u.store c).buf k = u.buf k := fun k hk =>
    Function.update_of_ne (Nat.ne_of_lt (List.mem_range.mp hk)) _ _
  have hindex : (u.store c).index = u.index + 1 := rfl
  rw [Out.kept, hindex, List.range_succ, List.map_append, List.map_congr_left hkeep]
  simp [Out.store, Out.kept]

/-- One character. -/
theorem Filled.put (h : Filled base text u) (c : ℤ) : Filled base (text ++ shown [c]) (u.put c) := by
  have hsize : BUFSIZE = 512 := rfl
  have hindex := h.index
  have hlt : u.index < BUFSIZE := by
    rw [hindex]
    exact Nat.mod_lt _ (by decide)
  have hstore : (u.store c).index = u.index + 1 := rfl
  have hhigh : (u.store c).high ≤ BUFSIZE := Nat.max_le.mpr ⟨h.high, hlt⟩
  have hall : (u.store c).sent ++ (u.store c).kept = base ++ (text ++ shown [c]) := by
    rw [kept_store, ← List.append_assoc, ← List.append_assoc, ← h.all]
    rfl
  unfold Out.put
  by_cases hfull : (u.store c).index = BUFSIZE
  · rw [if_pos hfull]
    refine ⟨?_, ?_, hhigh⟩
    · have hsent : Out.sent { (u.store c).bflush with index := 0 } =
          (u.store c).sent ++ (u.store c).kept := by simp [Out.sent, Out.bflush]
      rw [hsent, hall]
      simp [Out.kept]
    · simp only [List.length_append, shown, List.length_map, List.length_cons, List.length_nil]
      rw [hsize] at hindex hfull ⊢
      omega
  · rw [if_neg hfull]
    refine ⟨hall, ?_, hhigh⟩
    simp only [List.length_append, shown, List.length_map, List.length_cons, List.length_nil]
    rw [hsize] at hindex hlt hfull ⊢
    omega

/-- **`printn`** puts the canonical numeral. -/
theorem Filled.printn (h : Filled base text u) (b : Base) (n : ℕ) :
    Filled base (text ++ numeral b n) (printn b n u) := by
  induction n using Nat.strongRecOn generalizing text u with
  | _ n ih =>
      have hlast := Dev.numeral_eq b n
      rw [hlast, Usr.printn, ← Dev.shown_ofChar, ← List.append_assoc]
      by_cases hdiv : n / b = 0
      · simp only [if_pos hdiv, List.append_nil]
        exact h.put _
      · have hpos : 0 < n := Nat.pos_of_ne_zero fun hn => hdiv (by simp [hn])
        simp only [if_neg hdiv]
        exact (ih _ (Nat.div_lt_self hpos b.2) h).put _

theorem Filled.putString (h : Filled base text u) (s : List UInt8) :
    Filled base (text ++ cstr s) (putString s u) := by
  induction s generalizing text u with
  | nil => simpa [Usr.putString, cstr] using h
  | cons c s ih =>
      by_cases hc : c = 0
      · simpa [Usr.putString, cstr, hc] using h
      · have hcstr : cstr (c :: s) = [c] ++ cstr s := by simp [cstr, hc]
        have hput := ih (h.put (ofChar c))
        rw [Dev.shown_ofChar, List.append_assoc, ← hcstr] at hput
        rw [Usr.putString, if_neg hc]
        exact hput

/-- `put` of two characters. -/
theorem Filled.put_put (h : Filled base text u) (c d : UInt8) :
    Filled base (text ++ [c, d]) ((u.put (ofChar c)).put (ofChar d)) := by
  have hput := (h.put (ofChar c)).put (ofChar d)
  rw [Dev.shown_ofChar, Dev.shown_ofChar, List.append_assoc] at hput
  exact hput

/-! ## The loop -/

/-- A conversion puts its text. -/
theorem printfLoop_conversion
    (call : List UInt8 → (ℕ → UInt32) → Out → Option Out) {c : UInt8} {piece : List UInt8}
    (hpiece : conversion str c (argv 0) = some piece) (fmt : List UInt8) (h : Filled base text u) :
    ∃ u', printfLoop call str (percent :: c :: fmt) argv u =
        printfLoop call str fmt (fun k => argv (k + 1)) u' ∧ Filled base (text ++ piece) u' := by
  rw [printfLoop, if_neg (by decide), if_neg (by decide)]
  simp only
  unfold conversion at hpiece
  split_ifs at hpiece ⊢ with hd hx ho hc hs hnull
  all_goals obtain rfl := Option.some.inj hpiece
  · exact ⟨_, rfl, h.printn _ _⟩
  · refine ⟨_, rfl, ?_⟩
    have hput := (h.put_put '0'.toUInt8 'x'.toUInt8).printn hexadecimal (argv 0).toNat
    rwa [List.append_assoc] at hput
  · refine ⟨_, rfl, ?_⟩
    have hput := (h.put_put '0'.toUInt8 'o'.toUInt8).printn octal (argv 0).toNat
    rwa [List.append_assoc] at hput
  · refine ⟨_, rfl, ?_⟩
    have hput := h.put (ofWord (argv 0))
    rwa [Dev.shown_ofWord] at hput
  · have hput := h.putString (ascii "(null)")
    rw [show cstr (ascii "(null)") = ascii "(null)" by decide] at hput
    exact ⟨_, rfl, hput⟩
  · exact ⟨_, rfl, h.putString _⟩

/-- An unknown conversion ends the loop. -/
theorem printfLoop_unknown {c : UInt8} (h : conversion str c (argv 0) = none) :
    printfLoop call str (percent :: c :: fmt) argv u =
      call unknown (fun _ => toWord (ofChar c)) u := by
  rw [printfLoop, if_neg (by decide), if_neg (by decide)]
  simp only
  unfold conversion at h
  split_ifs at h ⊢
  rfl

/-- **The loop** puts the text of the format, and then writes the buffer or calls `printf`. -/
theorem printfLoop_spell (call : List UInt8 → (ℕ → UInt32) → Out → Option Out) (fmt : List UInt8)
    (argv : ℕ → UInt32) (h : Filled base text u) :
    ∃ u', Filled base (text ++ (spell str fmt argv).1) u' ∧
      printfLoop call str fmt argv u = match (spell str fmt argv).2 with
        | none => some u'.bflush
        | some c => call unknown (fun _ => toWord (ofChar c)) u' := by
  fun_induction spell str fmt argv generalizing u text with
  | case1 => exact ⟨u, by simpa using h, rfl⟩
  | case2 => exact ⟨u, by simpa using h, by unfold printfLoop; rfl⟩
  | case3 c fmt argv h0 hc rest bad hspell ih =>
      obtain ⟨u', hfilled, hloop⟩ := ih (h.put (ofChar c))
      rw [hspell] at hfilled hloop
      refine ⟨u', ?_, ?_⟩
      · rwa [Dev.shown_ofChar, List.append_assoc] at hfilled
      · rw [← hloop]
        conv_lhs => unfold printfLoop
        rw [if_neg h0, if_pos hc]
  | case4 c argv h0 hc =>
      obtain rfl : c = percent := not_not.mp hc
      exact ⟨u, by simpa using h, by simp [printfLoop, percent, ofChar]⟩
  | case5 c argv h0 hc d fmt hbad =>
      obtain rfl : c = percent := not_not.mp hc
      exact ⟨u, by simpa using h, printfLoop_unknown hbad⟩
  | case6 c argv h0 hc d fmt piece hpiece rest bad hspell ih =>
      obtain rfl : c = percent := not_not.mp hc
      obtain ⟨mid, hgo, hmid⟩ := printfLoop_conversion call hpiece fmt h
      obtain ⟨u', hfilled, hloop⟩ := ih hmid
      rw [hspell] at hfilled hloop
      refine ⟨u', ?_, ?_⟩
      · rwa [List.append_assoc] at hfilled
      · rw [hgo, hloop]

/-! ## `printf` -/

theorem Filled.sent_bflush (h : Filled base text u) : u.bflush.sent = base ++ text := by
  rw [← h.all]
  simp [Out.sent, Out.bflush]

/-- The buffer is empty when `printf` is entered, whatever is in it. -/
theorem filled_nil (hhigh : u.high ≤ BUFSIZE) : Filled u.sent [] { u with index := 0 } :=
  ⟨by simp [Out.sent, Out.kept], rfl, hhigh⟩

/-- `printf` writes the text of a format without unknown conversions. -/
theorem printf_of_known (depth : ℕ) (hhigh : u.high ≤ BUFSIZE)
    (hknown : (spell str fmt argv).2 = none) :
    ∃ u', printf str (depth + 1) fmt argv u = some u' ∧ u'.high ≤ BUFSIZE ∧
      u'.sent = u.sent ++ (spell str fmt argv).1 := by
  obtain ⟨u', hfilled, hloop⟩ :=
    printfLoop_spell (printf str depth) fmt argv (filled_nil hhigh)
  rw [hknown] at hloop
  exact ⟨u'.bflush, hloop, hfilled.high, hfilled.sent_bflush⟩

/-- An unknown conversion: what is in the buffer is not written. -/
theorem printf_of_unknown (depth : ℕ) (hhigh : u.high ≤ BUFSIZE) {c : UInt8}
    (hbad : (spell str fmt argv).2 = some c) :
    ∃ u' mid, printf str (depth + 2) fmt argv u = some u' ∧ u'.high ≤ BUFSIZE ∧
      Filled u.sent (spell str fmt argv).1 mid ∧
      u'.sent = mid.sent ++ (ascii "Unknown format " ++ [c]) := by
  obtain ⟨mid, hfilled, hloop⟩ :=
    printfLoop_spell (printf str (depth + 1)) fmt argv (filled_nil hhigh)
  rw [hbad] at hloop
  have hmessage := Dev.spell_unknown str fun _ => toWord (ofChar c)
  obtain ⟨u', hrun, hhigh', hsent⟩ := printf_of_known depth hfilled.high (congrArg Prod.snd hmessage)
  rw [hmessage, Dev.toUInt8_toWord_ofChar] at hsent
  exact ⟨u', mid, hloop.trans hrun, hhigh', hfilled, hsent⟩

/-! ## Both formatters -/

/-- The library writes what the kernel gives to `putchar`, which is what the format says, and the
index stays in the buffer.  `buf` and `index` are left from an earlier call. -/
def Agree (str : UInt32 → List UInt8) (depth : ℕ) (fmt : List UInt8) (argv : ℕ → UInt32)
    (buf : ℕ → UInt8) (index : ℕ) : Prop :=
  ∃ out u, Dev.printf str depth fmt argv [] = some out ∧
    printf str depth fmt argv ⟨buf, index, [], 0⟩ = some u ∧
    u.written.flatten = shown out ∧ shown out = meaning str fmt argv ∧ u.high ≤ BUFSIZE

/-- The format has no unknown conversion, or its text up to there fills the buffer a number of
times. -/
def Whole (str : UInt32 → List UInt8) (fmt : List UInt8) (argv : ℕ → UInt32) : Prop :=
  (spell str fmt argv).2 ≠ none → BUFSIZE ∣ (spell str fmt argv).1.length

/-- Nothing is in the buffer exactly if the text fills it a number of times. -/
theorem Filled.sent_eq_iff (h : Filled base text u) : u.sent = base ++ text ↔ BUFSIZE ∣ text.length := by
  rw [Nat.dvd_iff_mod_eq_zero, ← h.index, ← h.all]
  constructor
  · intro heq
    have hlen := congrArg List.length heq
    simp only [List.length_append, Out.kept, List.length_map, List.length_range] at hlen
    omega
  · intro hzero
    simp [Out.kept, hzero]

/-- **The formatters** agree if and only if nothing is in the buffer when `printf` calls itself.
A depth of two calls is enough for both. -/
theorem agree_iff (str : UInt32 → List UInt8) (depth : ℕ) (fmt : List UInt8) (argv : ℕ → UInt32)
    (buf : ℕ → UInt8) (index : ℕ) :
    Agree str (depth + 2) fmt argv buf index ↔ Whole str fmt argv := by
  obtain ⟨out, hout, hshown⟩ := Dev.printf_shown str depth fmt argv []
  rw [show shown [] = [] from rfl, List.nil_append] at hshown
  have hhigh : Out.high ⟨buf, index, [], 0⟩ ≤ BUFSIZE := Nat.zero_le _
  rcases hbad : (spell str fmt argv).2 with _ | c
  · -- The whole text is written.
    obtain ⟨u, hrun, hhigh', hsent⟩ := printf_of_known (depth + 1) hhigh hbad
    have hmeaning : meaning str fmt argv = (spell str fmt argv).1 := by simp [meaning, hbad]
    refine iff_of_true ⟨out, u, hout, hrun, ?_, hshown, hhigh'⟩ fun h => absurd hbad h
    rw [hshown, hmeaning]
    simpa [Out.sent] using hsent
  · obtain ⟨u, mid, hrun, hhigh', hfilled, hsent⟩ := printf_of_unknown depth hhigh hbad
    have hmeaning : meaning str fmt argv =
        (spell str fmt argv).1 ++ (ascii "Unknown format " ++ [c]) := by simp [meaning, hbad]
    have hiff := hfilled.sent_eq_iff
    rw [show Out.sent ⟨buf, index, [], 0⟩ = [] from rfl, List.nil_append] at hiff
    have hwhole : Whole str fmt argv ↔ BUFSIZE ∣ (spell str fmt argv).1.length := by
      simp [Whole, hbad]
    rw [hwhole, ← hiff]
    constructor
    · rintro ⟨out', u', hout', hrun', htext, -, -⟩
      obtain rfl : out = out' := Option.some.inj (hout.symm.trans hout')
      obtain rfl : u = u' := Option.some.inj (hrun.symm.trans hrun')
      rw [← Out.sent, hsent, hshown, hmeaning] at htext
      exact List.append_cancel_right htext
    · intro heq
      refine ⟨out, u, hout, hrun, ?_, hshown, hhigh'⟩
      rw [← Out.sent, hsent, heq, hshown, hmeaning]

/-- `printf("a%q")`: the kernel prints the `a`, the library does not. -/
theorem not_agree : ¬ Agree (fun _ => []) 2 (ascii "a%q") (fun _ => 0) (fun _ => 0) 0 := by
  rintro ⟨out, u, hout, hu, htext, -, -⟩
  have hkernel : (Dev.printf (fun _ => []) 2 (ascii "a%q") (fun _ => 0) []).map shown =
      some (ascii "aUnknown format q") := by decide +kernel
  have huser : (printf (fun _ => []) 2 (ascii "a%q") (fun _ => 0) ⟨fun _ => 0, 0, [], 0⟩).map Out.sent =
      some (ascii "Unknown format q") := by decide +kernel
  rw [hout, Option.map_some, Option.some.injEq] at hkernel
  rw [hu, Option.map_some, Option.some.injEq, Out.sent, htext, hkernel] at huser
  exact absurd huser (by decide)

end Mixv6.Usr
