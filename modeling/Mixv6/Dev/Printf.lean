import Mathlib.Data.Nat.Digits.Defs

/-!
# Formatted printing in the kernel

`printf` and `printn` of `dev/console.c`, as far as the calls of `putchar` that they make,
and what a format says: `spell` knows nothing of buffers and calls.

A `char` is signed, so a character above 127 reaches `putchar` as a negative `int`;
`putchar` shows the low byte of what it is given, and so does `shown`.

## Main definitions

* `spell` — the text of a format, and the conversion it stops at, if there is one.
* `printf`, `printn` — the routines.
* `printf_shown` — the kernel prints what the format says.
-/

namespace Mixv6.Dev

/-- The bytes of a text. -/
def ascii (s : String) : List UInt8 := s.toList.map Char.toUInt8

/-- `'%'`. -/
def percent : UInt8 := 37

/-- `"Unknown format %c"`. -/
def unknown : List UInt8 := ascii "Unknown format %c"

/-- `digits[d]`. -/
def digit (d : ℕ) : UInt8 := (ascii "0123456789ABCDEF").getD d 0

/-- A base that `printn` is called with. -/
abbrev Base := { base : ℕ // 1 < base }

/-- The base of `%d`. -/
def decimal : Base := ⟨10, by decide⟩

/-- The base of `%x` and `%p`. -/
def hexadecimal : Base := ⟨16, by decide⟩

/-- The base of `%o`. -/
def octal : Base := ⟨8, by decide⟩

/-! ## What a format says -/

/-- The canonical numeral: the digits of the number, the highest one first. -/
def numeral (base : Base) (n : ℕ) : List UInt8 :=
  if n = 0 then [digit 0] else ((Nat.digits base n).reverse).map digit

/-- A string up to its NUL. -/
def cstr (s : List UInt8) : List UInt8 := s.takeWhile (· ≠ 0)

/-- The text of a conversion; `none` if it is unknown.  `str` gives the strings in memory. -/
def conversion (str : UInt32 → List UInt8) (c : UInt8) (arg : UInt32) : Option (List UInt8) :=
  if c = 'd'.toUInt8 then some (numeral decimal arg.toNat)
  else if c = 'x'.toUInt8 ∨ c = 'p'.toUInt8 then
    some (ascii "0x" ++ numeral hexadecimal arg.toNat)
  else if c = 'o'.toUInt8 then some (ascii "0o" ++ numeral octal arg.toNat)
  else if c = 'c'.toUInt8 then some [arg.toUInt8]
  else if c = 's'.toUInt8 then some (if arg = 0 then ascii "(null)" else cstr (str arg))
  else none

/-- The text of a format up to its end, or up to an unknown conversion, which is given by its
character; a format that ends in `'%'` has the unknown conversion NUL. -/
def spell (str : UInt32 → List UInt8) :
    List UInt8 → (ℕ → UInt32) → List UInt8 × Option UInt8
  | [], _ => ([], none)
  | c :: fmt, argv =>
      if c = 0 then ([], none)
      else if c ≠ percent then
        let (text, bad) := spell str fmt argv
        (c :: text, bad)
      else match fmt with
        | [] => ([], some 0)
        | c :: fmt => match conversion str c (argv 0) with
          | none => ([], some c)
          | some piece =>
              let (text, bad) := spell str fmt fun k => argv (k + 1)
              (piece ++ text, bad)

/-- What a format says: its text, and a message if there is an unknown conversion. -/
def meaning (str : UInt32 → List UInt8) (fmt : List UInt8) (argv : ℕ → UInt32) : List UInt8 :=
  (spell str fmt argv).1 ++
    match (spell str fmt argv).2 with
    | none => []
    | some c => ascii "Unknown format " ++ [c]

/-- A part of a format without conversions is text. -/
theorem spell_plain (str : UInt32 → List UInt8) {pre : List UInt8}
    (hpre : ∀ c ∈ pre, c ≠ 0 ∧ c ≠ percent) (fmt : List UInt8) (argv : ℕ → UInt32) :
    spell str (pre ++ fmt) argv = (pre ++ (spell str fmt argv).1, (spell str fmt argv).2) := by
  induction pre with
  | nil => rfl
  | cons c pre ih =>
      have hc := hpre c List.mem_cons_self
      rw [List.cons_append]
      conv_lhs => unfold spell
      rw [if_neg hc.1, if_pos hc.2, ih fun d hd => hpre d (List.mem_cons_of_mem c hd)]
      rfl

/-- The message has no unknown conversion itself. -/
theorem spell_unknown (str : UInt32 → List UInt8) (argv : ℕ → UInt32) :
    spell str unknown argv = (ascii "Unknown format " ++ [(argv 0).toUInt8], none) := by
  have hsplit : unknown = ascii "Unknown format " ++ [percent, 'c'.toUInt8] := by decide
  rw [hsplit, spell_plain str (by decide +kernel)]
  rfl

/-! ## `printf` and `printn` -/

/-- The `int` of a `char`. -/
def ofChar (c : UInt8) : ℤ := if c.toNat < 128 then c.toNat else c.toNat - 256

/-- The `int` of a `uint32_t`. -/
def ofWord (n : UInt32) : ℤ := if n.toNat < 2 ^ 31 then n.toNat else n.toNat - 2 ^ 32

/-- The `uint32_t` of an `int`. -/
def toWord (c : ℤ) : UInt32 := UInt32.ofNat (c % 2 ^ 32).toNat

/-- `printn`. -/
def printn (base : Base) (n : ℕ) (out : List ℤ) : List ℤ :=
  let out := if n / base = 0 then out else printn base (n / base) out
  out ++ [ofChar (digit (n % base))]
termination_by n
decreasing_by
  have hpos : 0 < n := by
    rcases Nat.eq_zero_or_pos n with rfl | h
    · simp at *
    · exact h
  exact Nat.div_lt_self hpos base.2

/-- `while ((c = *s++)) putchar(c);` -/
def putString : List UInt8 → List ℤ → List ℤ
  | [], out => out
  | c :: s, out => if c = 0 then out else putString s (out ++ [ofChar c])

/-- The loop of `printf`.  `call` is `printf` itself. -/
def printfLoop (call : List UInt8 → (ℕ → UInt32) → List ℤ → Option (List ℤ))
    (str : UInt32 → List UInt8) : List UInt8 → (ℕ → UInt32) → List ℤ → Option (List ℤ)
  | [], _, out => some out
  | c :: fmt, argv, out =>
      if c = 0 then some out
      else if c ≠ percent then printfLoop call str fmt argv (out ++ [ofChar c])
      else match fmt with
        | [] => call unknown (fun _ => toWord 0) out
        | c :: fmt =>
            let rest := fun k => argv (k + 1)
            if c = 'd'.toUInt8 then
              printfLoop call str fmt rest (printn decimal (argv 0).toNat out)
            else if c = 'x'.toUInt8 ∨ c = 'p'.toUInt8 then
              (call (ascii "0x") argv out).bind fun out =>
                printfLoop call str fmt rest (printn hexadecimal (argv 0).toNat out)
            else if c = 'o'.toUInt8 then
              (call (ascii "0o") argv out).bind fun out =>
                printfLoop call str fmt rest (printn octal (argv 0).toNat out)
            else if c = 'c'.toUInt8 then
              printfLoop call str fmt rest (out ++ [ofWord (argv 0)])
            else if c = 's'.toUInt8 then
              if argv 0 = 0 then
                (call (ascii "(null)") argv out).bind fun out => printfLoop call str fmt rest out
              else printfLoop call str fmt rest (putString (str (argv 0)) out)
            else call unknown (fun _ => toWord (ofChar c)) out

/-- `printf`, with a bound on the depth of its calls: the characters given to `putchar` so far,
and those that it adds. -/
def printf (str : UInt32 → List UInt8) :
    ℕ → List UInt8 → (ℕ → UInt32) → List ℤ → Option (List ℤ)
  | 0 => fun _ _ _ => none
  | depth + 1 => printfLoop (printf str depth) str

/-- What `putchar` shows: the low byte. -/
def shown (out : List ℤ) : List UInt8 := out.map fun c => UInt8.ofNat (c % 256).toNat

variable {str : UInt32 → List UInt8} {call : List UInt8 → (ℕ → UInt32) → List ℤ → Option (List ℤ)}
  {fmt : List UInt8} {argv : ℕ → UInt32} {out : List ℤ}

/-! ## Characters and numbers -/

theorem shown_append (out out' : List ℤ) : shown (out ++ out') = shown out ++ shown out' :=
  List.map_append

@[simp] theorem shown_ofChar (c : UInt8) : shown [ofChar c] = [c] := by
  have hlt := c.toNat_lt
  have hlow : (ofChar c % 256).toNat = c.toNat := by
    unfold ofChar
    split <;> omega
  simp [shown, hlow]

@[simp] theorem shown_ofWord (n : UInt32) : shown [ofWord n] = [n.toUInt8] := by
  have hlow : (ofWord n % 256).toNat = n.toNat % 256 := by
    unfold ofWord
    split <;> omega
  simp only [shown, List.map_cons, List.map_nil, hlow]
  congr 1
  apply UInt8.toNat_inj.mp
  simp

theorem shown_map_ofChar (text : List UInt8) : shown (text.map ofChar) = text := by
  induction text with
  | nil => rfl
  | cons c text ih =>
      have hcons : shown ((c :: text).map ofChar) = shown [ofChar c] ++ shown (text.map ofChar) := rfl
      rw [hcons, ih, shown_ofChar]
      rfl

/-- The last digit of a numeral. -/
theorem numeral_eq (base : Base) (n : ℕ) :
    numeral base n = (if n / base = 0 then [] else numeral base (n / base)) ++ [digit (n % base)] := by
  have hbase := base.2
  by_cases hn : n = 0
  · simp [numeral, hn]
  have hdigits : Nat.digits base n = n % base :: Nat.digits base (n / base) :=
    Nat.digits_eq_cons_digits_div hbase hn
  rw [numeral, if_neg hn, hdigits, List.reverse_cons, List.map_append]
  by_cases hdiv : n / base = 0
  · simp [hdiv]
  · simp [hdiv, numeral]

/-- **`printn`** prints the canonical numeral. -/
theorem printn_shown (base : Base) (n : ℕ) (out : List ℤ) :
    shown (printn base n out) = shown out ++ numeral base n := by
  induction n using Nat.strongRecOn generalizing out with
  | _ n ih =>
      rw [printn, shown_append, numeral_eq]
      by_cases hdiv : n / base = 0
      · simp [hdiv]
      · have hpos : 0 < n := Nat.pos_of_ne_zero fun h => hdiv (by simp [h])
        rw [if_neg hdiv, if_neg hdiv, ih _ (Nat.div_lt_self hpos base.2)]
        simp

theorem putString_shown (s : List UInt8) (out : List ℤ) :
    shown (putString s out) = shown out ++ cstr s := by
  induction s generalizing out with
  | nil => simp [putString, cstr]
  | cons c s ih =>
      by_cases hc : c = 0
      · simp [putString, cstr, hc]
      · have hcstr : cstr (c :: s) = c :: cstr s := by simp [cstr, hc]
        rw [putString, if_neg hc, ih, hcstr, shown_append, shown_ofChar, List.append_assoc]
        rfl

/-! ## The loop -/

/-- A part of a format without conversions is printed as it is. -/
theorem printfLoop_plain {pre : List UInt8} (hpre : ∀ c ∈ pre, c ≠ 0 ∧ c ≠ percent) :
    printfLoop call str (pre ++ fmt) argv out =
      printfLoop call str fmt argv (out ++ pre.map ofChar) := by
  induction pre generalizing out with
  | nil => simp
  | cons c pre ih =>
      have hc := hpre c List.mem_cons_self
      rw [List.cons_append]
      conv_lhs => unfold printfLoop
      rw [if_neg hc.1, if_pos hc.2, ih fun d hd => hpre d (List.mem_cons_of_mem c hd)]
      simp

/-- The calls of `printf` by itself that print a text. -/
def CallsPlain (call : List UInt8 → (ℕ → UInt32) → List ℤ → Option (List ℤ)) : Prop :=
  ∀ t ∈ ["0x", "0o", "(null)"], ∀ argv out, call (ascii t) argv out = some (out ++ (ascii t).map ofChar)

/-- A conversion prints its text. -/
theorem printfLoop_conversion (hcall : CallsPlain call) {c : UInt8} {piece : List UInt8}
    (h : conversion str c (argv 0) = some piece) (fmt : List UInt8) (out : List ℤ) :
    ∃ out', printfLoop call str (percent :: c :: fmt) argv out =
        printfLoop call str fmt (fun k => argv (k + 1)) out' ∧
      shown out' = shown out ++ piece := by
  rw [printfLoop, if_neg (by decide), if_neg (by decide)]
  simp only
  unfold conversion at h
  split_ifs at h ⊢ with hd hx ho hc hs hnull
  all_goals obtain rfl := Option.some.inj h
  · exact ⟨_, rfl, printn_shown _ _ _⟩
  · rw [hcall "0x" (by simp)]
    refine ⟨_, rfl, ?_⟩
    rw [printn_shown, shown_append, shown_map_ofChar, List.append_assoc]
  · rw [hcall "0o" (by simp)]
    refine ⟨_, rfl, ?_⟩
    rw [printn_shown, shown_append, shown_map_ofChar, List.append_assoc]
  · exact ⟨_, rfl, by rw [shown_append, shown_ofWord]⟩
  · rw [hcall "(null)" (by simp)]
    exact ⟨_, rfl, by rw [shown_append, shown_map_ofChar]⟩
  · exact ⟨_, rfl, putString_shown _ _⟩

/-- An unknown conversion ends the loop. -/
theorem printfLoop_unknown {c : UInt8} (h : conversion str c (argv 0) = none) :
    printfLoop call str (percent :: c :: fmt) argv out =
      call unknown (fun _ => toWord (ofChar c)) out := by
  rw [printfLoop, if_neg (by decide), if_neg (by decide)]
  simp only
  unfold conversion at h
  split_ifs at h ⊢
  rfl

/-- **The loop** prints the text of the format, and calls `printf` for an unknown conversion. -/
theorem printfLoop_spell (hcall : CallsPlain call) (fmt : List UInt8) (argv : ℕ → UInt32)
    (out : List ℤ) :
    ∃ out', shown out' = shown out ++ (spell str fmt argv).1 ∧
      printfLoop call str fmt argv out = match (spell str fmt argv).2 with
        | none => some out'
        | some c => call unknown (fun _ => toWord (ofChar c)) out' := by
  fun_induction spell str fmt argv generalizing out with
  | case1 => exact ⟨out, by simp, rfl⟩
  | case2 => exact ⟨out, by simp, by unfold printfLoop; rfl⟩
  | case3 c fmt argv h0 hc text bad hspell ih =>
      obtain ⟨out', hshown, hloop⟩ := ih (out ++ [ofChar c])
      rw [hspell] at hshown hloop
      refine ⟨out', ?_, ?_⟩
      · rw [hshown, shown_append, shown_ofChar, List.append_assoc]
        rfl
      · rw [← hloop]
        conv_lhs => unfold printfLoop
        rw [if_neg h0, if_pos hc]
  | case4 c argv h0 hc =>
      obtain rfl : c = percent := not_not.mp hc
      exact ⟨out, by simp, by simp [printfLoop, percent, ofChar]⟩
  | case5 c argv h0 hc d fmt hbad =>
      obtain rfl : c = percent := not_not.mp hc
      exact ⟨out, by simp, printfLoop_unknown hbad⟩
  | case6 c argv h0 hc d fmt piece hpiece text bad hspell ih =>
      obtain rfl : c = percent := not_not.mp hc
      obtain ⟨mid, hgo, hmid⟩ := printfLoop_conversion hcall hpiece fmt out
      obtain ⟨out', hshown, hloop⟩ := ih mid
      rw [hspell] at hshown hloop
      refine ⟨out', ?_, ?_⟩
      · rw [hshown, hmid, List.append_assoc]
      · rw [hgo, hloop]

/-! ## `printf` -/

/-- The texts that `printf` prints by calling itself. -/
theorem callsPlain_printf (str : UInt32 → List UInt8) (depth : ℕ) :
    CallsPlain (printf str (depth + 1)) := by
  intro t ht argv out
  have hplain : ∀ c ∈ ascii t, c ≠ 0 ∧ c ≠ percent := by
    simp only [List.mem_cons, List.not_mem_nil, or_false] at ht
    rcases ht with rfl | rfl | rfl <;> decide +kernel
  have hloop : printfLoop (printf str depth) str (ascii t ++ []) argv out = _ := printfLoop_plain hplain
  rw [List.append_nil] at hloop
  exact hloop

theorem toUInt8_toWord_ofChar (c : UInt8) : (toWord (ofChar c)).toUInt8 = c := by
  have hlt := c.toNat_lt
  apply UInt8.toNat_inj.mp
  simp only [toWord, ofChar, UInt32.toNat_toUInt8, UInt32.toNat_ofNat']
  split <;> omega

/-- The message about an unknown conversion. -/
theorem printf_unknown (str : UInt32 → List UInt8) (depth : ℕ) (c : UInt8) (out : List ℤ) :
    ∃ out', printf str (depth + 1) unknown (fun _ => toWord (ofChar c)) out = some out' ∧
      shown out' = shown out ++ (ascii "Unknown format " ++ [c]) := by
  have hsplit : unknown = ascii "Unknown format " ++ [percent, 'c'.toUInt8] := by decide
  refine ⟨out ++ (ascii "Unknown format ").map ofChar ++ [ofWord (toWord (ofChar c))], ?_, ?_⟩
  · rw [printf, hsplit, printfLoop_plain (by decide +kernel)]
    rfl
  · rw [shown_append, shown_append, shown_map_ofChar, shown_ofWord, toUInt8_toWord_ofChar,
      List.append_assoc]

/-- **The kernel** prints what the format says; `printf` calls itself, and is not called by that. -/
theorem printf_shown (str : UInt32 → List UInt8) (depth : ℕ) (fmt : List UInt8)
    (argv : ℕ → UInt32) (out : List ℤ) :
    ∃ out', printf str (depth + 2) fmt argv out = some out' ∧
      shown out' = shown out ++ meaning str fmt argv := by
  obtain ⟨mid, hmid, hloop⟩ := printfLoop_spell (callsPlain_printf str depth) fmt argv out
  rw [printf, hloop]
  unfold meaning
  rcases (spell str fmt argv).2 with _ | c
  · exact ⟨mid, rfl, by rw [hmid, List.append_nil]⟩
  · obtain ⟨out', hout, hshown⟩ := printf_unknown str depth c mid
    exact ⟨out', hout, by rw [hshown, hmid, List.append_assoc]⟩

end Mixv6.Dev
