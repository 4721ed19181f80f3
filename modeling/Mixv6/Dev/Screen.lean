import Mixv6.Dev.Console
import Mixv6.Lib.Mem
import Mixv6.Mm.Map
import Mathlib.Algebra.Ring.Int.Defs

/-!
# The screen

`putchar` of `dev/console.c` with the cells it writes.  The cells are half words of the
CGA memory: a character in the low byte and its colours in the high byte.

What the screen is for is a `Terminal`: an unbounded tape of rows on which characters are
written, and a window of 24 rows that follows the position.  The screen shows the window:
the scroll copies the rows of the window one up, and clears what is below them.

## Main definitions

* `Screen`, `Screen.putchar`, `consoleinit` — the CGA memory and the cursor.
* `Terminal`, `Terminal.put` — the tape.
* `Screen.Shown` — the screen shows the tape from the top of the window on.
* `puts_window` — a sequence of `putchar` calls does not panic, and shows the window.
-/

namespace Mixv6.Dev

open Mixv6.Lib Mixv6.Mm

/-! ## The cells -/

/-- `' ' | 0x0A00`. -/
def SPACE : ℕ := 0x0A20

/-- The CGA memory as a part of the memory, and the cursor.  `stores` is not in the source:
the ranges that `putchar` has written, each with its address and its length. -/
structure Screen where
  mem : Mem
  cursor : ℤ
  stores : List (ℕ × ℕ)

namespace Screen

/-- `screen + i`, with `sizeof(screen[0]) = 2`. -/
def addr (i : ℤ) : ℕ := ((CGAADDR + 2 * i) % 2 ^ 32).toNat

/-- `screen[i] = v`. -/
def set (s : Screen) (i : ℤ) (v : ℕ) : Screen :=
  { s with mem := s.mem.store16 (addr i) v, stores := s.stores ++ [(addr i, 2)] }

/-- `memmove`. -/
def memmove (s : Screen) (src dst count : ℕ) : Screen :=
  { s with mem := s.mem.movsb src dst count, stores := s.stores ++ [(dst, count)] }

/-- `memset`. -/
def memset (s : Screen) (a : ℕ) (data : UInt8) (count : ℕ) : Screen :=
  { s with mem := s.mem.fill a data count, stores := s.stores ++ [(a, count)] }

/-- The `switch` of `putchar`; `0x0A00 | (0xFF & c)` is a sum. -/
def type (s : Screen) (c : ℤ) : Screen :=
  if c = newline.toNat then
    { s with cursor := s.cursor + (SCREEN_X - s.cursor.tmod SCREEN_X) }
  else if c = backspace.toNat then
    let s := if 0 < s.cursor then { s with cursor := s.cursor - 1 } else s
    s.set s.cursor 0
  else { s.set s.cursor (0x0A00 + (c % 256).toNat) with cursor := s.cursor + 1 }

/-- Scroll up. -/
def scroll (s : Screen) : Screen :=
  let s := s.memmove (addr SCREEN_X) (addr 0) (2 * (SCREEN_Y - 2) * SCREEN_X)
  let s := { s with cursor := s.cursor - SCREEN_X }
  s.memset (addr s.cursor) 0
    ((2 * ((SCREEN_Y - 1) * SCREEN_X - s.cursor) % 2 ^ 32).toNat)

/-- `putchar`; `none` is `panic("cursor under/overflow")`. -/
def putchar (s : Screen) (c : ℤ) : Option Screen :=
  let s := s.type c
  if s.cursor < 0 ∨ SCREEN_Y * SCREEN_X < s.cursor then none
  else
    let s := if (SCREEN_Y : ℤ) - 1 ≤ s.cursor.tdiv SCREEN_X then s.scroll else s
    some (s.set s.cursor SPACE)

/-- One `putchar` after another. -/
def puts (s : Screen) : List ℤ → Option Screen
  | [] => some s
  | c :: cs => (s.putchar c).bind fun s => s.puts cs

/-- Cell `i`. -/
def cell (s : Screen) (i : ℕ) : ℕ := s.mem.load16 (CGAADDR + 2 * i)

end Screen

/-- What `consoleinit` leaves; it clears a whole page from `CGAADDR` on. -/
def consoleinit (m : Mem) : Screen := ⟨m.fill CGAADDR 0 PAGESIZE, 0, []⟩

/-! ## The tape -/

/-- A tape of characters in rows of `SCREEN_X`, the position, and the first row of the
window. -/
structure Terminal where
  tape : ℕ → UInt8
  pos : ℕ
  top : ℕ

namespace Terminal

/-- An empty tape. -/
def blank : Terminal := ⟨fun _ => 32, 0, 0⟩

/-- A newline moves to the next row, a backspace one cell back in the window, which it
blanks, and any other character is written. -/
def type (t : Terminal) (c : ℤ) : Terminal :=
  if c = newline.toNat then { t with pos := (t.pos / SCREEN_X + 1) * SCREEN_X }
  else if c = backspace.toNat then
    let pos := if SCREEN_X * t.top < t.pos then t.pos - 1 else t.pos
    { t with tape := Function.update t.tape pos 32, pos }
  else
    { t with tape := Function.update t.tape t.pos (UInt8.ofNat (c % 256).toNat), pos := t.pos + 1 }

/-- The window moves down a row when the position has reached the row below it. -/
def scroll (t : Terminal) : Terminal :=
  if t.pos / SCREEN_X = t.top + (SCREEN_Y - 1) then { t with top := t.top + 1 } else t

/-- One character. -/
def put (t : Terminal) (c : ℤ) : Terminal := (t.type c).scroll

end Terminal

/-! ## What the screen shows -/

namespace Screen

/-- An empty cell looks like a space. -/
def look (v : ℕ) : ℕ := if v = 0 then SPACE else v

/-- The cells of the screen, of which there are `SCREEN_Y * SCREEN_X`. -/
def InScreen (r : ℕ × ℕ) : Prop :=
  CGAADDR ≤ r.1 ∧ r.1 + r.2 ≤ CGAADDR + 2 * (SCREEN_Y * SCREEN_X)

/-- All cells show the tape from the top of the window on, in green, and the tape is blank
from the position on.  Between the `switch` and the scroll the cursor can be on the row below
the window. -/
structure Shown (s : Screen) (t : Terminal) : Prop where
  top_le : SCREEN_X * t.top ≤ t.pos
  pos_le : t.pos ≤ SCREEN_X * t.top + SCREEN
  cursor : s.cursor = t.pos - SCREEN_X * t.top
  ahead : ∀ j, t.pos ≤ j → t.tape j = 32
  cells : ∀ i < SCREEN_Y * SCREEN_X, look (s.cell i) = 0x0A00 + (t.tape (SCREEN_X * t.top + i)).toNat
  stores : ∀ r ∈ s.stores, InScreen r

variable {s : Screen} {t : Terminal}

theorem addr_natCast {i : ℕ} (hi : i < SCREEN_Y * SCREEN_X) : addr i = CGAADDR + 2 * i := by
  simp only [SCREEN_Y, SCREEN_X, addr, CGAADDR] at hi ⊢
  omega

/-- A store changes its cell only. -/
theorem cell_set {i v : ℕ} (hi : i < SCREEN_Y * SCREEN_X) (hv : v < 2 ^ 16) (j : ℕ) :
    (s.set i v).cell j = if j = i then v else s.cell j := by
  simp only [cell, set, addr_natCast hi]
  split
  next h => rw [h, Mem.load16_store16 hv]
  next h => exact Mem.load16_store16_of_ne (by omega)

theorem stores_set {i v : ℕ} (hi : i < SCREEN_Y * SCREEN_X) (h : ∀ r ∈ s.stores, InScreen r) :
    ∀ r ∈ (s.set i v).stores, InScreen r := by
  intro r hr
  rcases List.mem_append.mp hr with hr | hr
  · exact h r hr
  · rw [List.mem_singleton.mp hr, addr_natCast hi]
    simp only [InScreen]
    omega

/-- The character that is stored. -/
theorem toNat_ofNat_emod (c : ℤ) : (UInt8.ofNat (c % 256).toNat).toNat = (c % 256).toNat := by
  simp
  omega

/-! ## One character -/

theorem look_char (c : ℤ) : look (0x0A00 + (c % 256).toNat) = 0x0A00 + (c % 256).toNat :=
  if_neg (by omega)

/-- A character that is stored at the position. -/
theorem Shown.write (h : Shown s t) {pos v : ℕ} {x : UInt8} (htop : SCREEN_X * t.top ≤ pos)
    (hpos : pos < SCREEN_X * t.top + SCREEN) (hv : v < 2 ^ 16) (hlook : look v = 0x0A00 + x.toNat)
    (i : ℕ) (hi : i < SCREEN_Y * SCREEN_X) :
    look ((s.set (pos - SCREEN_X * t.top : ℕ) v).cell i) =
      0x0A00 + (Function.update t.tape pos x (SCREEN_X * t.top + i)).toNat := by
  have hin : pos - SCREEN_X * t.top < SCREEN_Y * SCREEN_X := by
    simp only [SCREEN, SCREEN_X, SCREEN_Y] at htop hpos ⊢
    omega
  rw [cell_set hin hv]
  split
  next heq => rw [hlook, show SCREEN_X * t.top + i = pos by omega, Function.update_self]
  next hne =>
    rw [Function.update_of_ne (by omega)]
    exact h.cells i hi

/-- A cell in the window is on the screen. -/
theorem lt_of_lt_SCREEN {i : ℕ} (h : i < SCREEN) : i < SCREEN_Y * SCREEN_X := by
  simp only [SCREEN, SCREEN_X, SCREEN_Y] at h ⊢
  omega

/-- The `switch` of `putchar`, from a position in the window. -/
theorem Shown.type (h : Shown s t) (hpos : t.pos < SCREEN_X * t.top + SCREEN) (c : ℤ) :
    Shown (s.type c) (t.type c) := by
  have htop := h.top_le
  have hcur := h.cursor
  unfold Screen.type Terminal.type
  by_cases hnl : c = newline.toNat
  · rw [if_pos hnl, if_pos hnl]
    have hmod : s.cursor.tmod SCREEN_X = s.cursor % SCREEN_X := by
      apply Int.tmod_eq_emod_of_nonneg
      omega
    simp only [SCREEN, SCREEN_X, SCREEN_Y] at htop hpos hcur hmod ⊢
    refine ⟨?_, ?_, ?_, ?_, h.cells, h.stores⟩
    · simp only [SCREEN_X]; omega
    · simp only [SCREEN, SCREEN_X, SCREEN_Y]; omega
    · simp only [SCREEN_X, hmod]; omega
    · intro j hj
      exact h.ahead j (by simp only at hj; omega)
  rw [if_neg hnl, if_neg hnl]
  by_cases hbs : c = backspace.toNat
  · rw [if_pos hbs, if_pos hbs]
    obtain ⟨pos, hdef⟩ : ∃ pos, pos = if SCREEN_X * t.top < t.pos then t.pos - 1 else t.pos :=
      ⟨_, rfl⟩
    have hback : SCREEN_X * t.top ≤ pos ∧ pos ≤ t.pos ∧ t.pos ≤ pos + 1 := by
      split at hdef <;> omega
    have hpos' : (if 0 < s.cursor then { s with cursor := s.cursor - 1 } else s) =
        { s with cursor := (pos - SCREEN_X * t.top : ℕ) } := by
      split at hdef
      next hlt => rw [if_pos (by omega)]; congr 1; omega
      next hge =>
        have hsame : ((pos - SCREEN_X * t.top : ℕ) : ℤ) = s.cursor := by omega
        rw [if_neg (by omega), hsame]
    simp only [hpos', ← hdef]
    have hold : Shown { s with cursor := (t.pos - SCREEN_X * t.top : ℤ) } t :=
      ⟨h.top_le, h.pos_le, rfl, h.ahead, h.cells, h.stores⟩
    refine ⟨hback.1, ?_, ?_, ?_, ?_, ?_⟩
    · simp only; omega
    · simp only [set]; omega
    · intro j hj
      by_cases hjp : j = pos
      · simp [hjp]
      · simp only at hj
        simp only [Function.update_of_ne hjp]
        exact h.ahead j (by omega)
    · exact hold.write (v := 0) hback.1 (by omega) (by decide) (by decide)
    · exact stores_set (lt_of_lt_SCREEN (by omega)) h.stores
  · rw [if_neg hbs, if_neg hbs, hcur,
      show ((t.pos : ℤ) - SCREEN_X * t.top) = (t.pos - SCREEN_X * t.top : ℕ) by omega]
    refine ⟨by simp only; omega, by simp only; omega, ?_, ?_, ?_, ?_⟩
    · simp only; omega
    · intro j hj
      simp only at hj
      simp only [Function.update_of_ne (show j ≠ t.pos by omega)]
      exact h.ahead j (by omega)
    · refine h.write htop hpos (by omega) ?_
      rw [toNat_ofNat_emod]
      exact look_char c
    · exact stores_set (v := 0x0A00 + (c % 256).toNat) (lt_of_lt_SCREEN (by omega)) h.stores

/-! ## The scroll -/

/-- The scroll moves the cells one row up and clears a row. -/
theorem cell_scroll (hcur : s.cursor = (SCREEN : ℕ)) (i : ℕ) :
    s.scroll.cell i = if i < SCREEN - SCREEN_X then s.cell (i + SCREEN_X)
      else if i < SCREEN then 0 else s.cell i := by
  have hend : s.cursor - SCREEN_X = (SCREEN - SCREEN_X : ℕ) := by
    rw [hcur]
    decide
  have hcount : (2 * ((SCREEN_Y - 1) * SCREEN_X - ((SCREEN - SCREEN_X : ℕ) : ℤ)) % 2 ^ 32).toNat =
      160 := by decide
  have hsrc : addr (SCREEN_X : ℕ) = CGAADDR + 160 := by decide
  have hdst : addr 0 = CGAADDR := by decide
  have haddr : addr (SCREEN - SCREEN_X : ℕ) = CGAADDR + 3680 := by decide
  simp only [Screen.scroll, memmove, memset, hend, hcount, hsrc, hdst, haddr, cell]
  have hrows : 2 * (SCREEN_Y - 2) * SCREEN_X = 3680 := by decide
  have hwindow : SCREEN = 1920 := by decide
  have hwidth : SCREEN_X = 80 := rfl
  rw [hrows, hwindow, hwidth]
  by_cases hlt : i < 1920 - 80
  · rw [if_pos hlt, Mem.load16_fill_of_ne (by omega), Mem.load16_movsb (by omega) (by omega)]
    congr 1
    omega
  rw [if_neg hlt]
  by_cases hrow : i < 1920
  · rw [if_pos hrow]
    exact Mem.load16_fill_zero (by omega)
  · rw [if_neg hrow, Mem.load16_fill_of_ne (by omega), Mem.load16_movsb_of_ne (by omega)]

/-- The scroll writes the rows of the window. -/
theorem stores_scroll (hcur : s.cursor = (SCREEN : ℕ)) (h : ∀ r ∈ s.stores, InScreen r) :
    ∀ r ∈ s.scroll.stores, InScreen r := by
  have hend : s.cursor - SCREEN_X = (SCREEN - SCREEN_X : ℕ) := by
    rw [hcur]
    decide
  intro r hr
  simp only [Screen.scroll, memmove, memset, hend, List.append_assoc, List.mem_append,
    List.cons_append, List.nil_append, List.mem_cons, List.not_mem_nil, or_false] at hr
  rcases hr with hr | rfl | rfl
  · exact h r hr
  · exact show InScreen _ from ⟨by decide, by decide⟩
  · exact show InScreen _ from ⟨by decide, by decide⟩

/-- The scroll, from the row below the window. -/
theorem Shown.scroll (h : Shown s t) (hpos : t.pos = SCREEN_X * t.top + SCREEN) :
    Shown s.scroll { t with top := t.top + 1 } := by
  have hcur : s.cursor = (SCREEN : ℕ) := by rw [h.cursor]; omega
  have hrow : SCREEN_X * (t.top + 1) = SCREEN_X * t.top + SCREEN_X := Nat.mul_succ _ _
  have hsize : SCREEN_X ≤ SCREEN := by decide
  have hscreen : SCREEN_Y * SCREEN_X = SCREEN + SCREEN_X := by decide
  refine ⟨?_, ?_, ?_, h.ahead, ?_, stores_scroll hcur h.stores⟩
  · simp only; omega
  · simp only; omega
  · have hcursor : s.scroll.cursor = s.cursor - SCREEN_X := by
      simp only [Screen.scroll, memset, memmove]
    rw [hcursor, hcur]
    simp only
    omega
  · intro i hi
    rw [cell_scroll hcur]
    split
    next hlt =>
      rw [h.cells _ (by omega),
        show SCREEN_X * t.top + (i + SCREEN_X) = SCREEN_X * (t.top + 1) + i by omega]
    next hge =>
      -- Below the window the tape is blank.
      have hblank : t.tape (SCREEN_X * (t.top + 1) + i) = 32 := h.ahead _ (by omega)
      rw [hblank]
      split
      next hlt => decide
      next hge => rw [h.cells i hi, h.ahead _ (by omega)]

/-! ## One call -/

/-- The space under the cursor. -/
theorem Shown.set (h : Shown s t) (hpos : t.pos < SCREEN_X * t.top + SCREEN) :
    Shown (s.set s.cursor SPACE) t := by
  have htop := h.top_le
  have hcur : s.cursor = (t.pos - SCREEN_X * t.top : ℕ) := by rw [h.cursor]; omega
  have hin := lt_of_lt_SCREEN (show t.pos - SCREEN_X * t.top < SCREEN by omega)
  refine ⟨htop, h.pos_le, h.cursor, h.ahead, ?_, ?_⟩
  · intro i hi
    rw [hcur, cell_set hin (by decide)]
    split
    next heq => rw [h.ahead _ (by omega)]; decide
    next hne => exact h.cells i hi
  · rw [hcur]
    exact stores_set hin h.stores

/-- **One `putchar`** from a cursor in the window leaves the cursor in the window. -/
theorem Shown.putchar (h : Shown s t) (hpos : t.pos < SCREEN_X * t.top + SCREEN) (c : ℤ) :
    ∃ s', s.putchar c = some s' ∧ Shown s' (t.put c) ∧
      (t.put c).pos < SCREEN_X * (t.put c).top + SCREEN := by
  have htype := h.type hpos c
  obtain ⟨u, hu⟩ : ∃ u, u = t.type c := ⟨_, rfl⟩
  obtain ⟨r, hr⟩ : ∃ r, r = s.type c := ⟨_, rfl⟩
  rw [← hu, ← hr] at htype
  have htop := htype.top_le
  have hle := htype.pos_le
  have hcur : r.cursor = (u.pos - SCREEN_X * u.top : ℕ) := by rw [htype.cursor]; omega
  have hdiv : r.cursor.tdiv SCREEN_X = ((u.pos - SCREEN_X * u.top) / SCREEN_X : ℕ) := by
    rw [hcur]
    exact Int.ofNat_tdiv _ _
  have hbounds : ¬ (r.cursor < 0 ∨ (SCREEN_Y * SCREEN_X : ℤ) < r.cursor) := by
    rw [hcur]
    simp only [SCREEN, SCREEN_X, SCREEN_Y] at hle htop ⊢
    omega
  simp only [Screen.putchar, Terminal.put, ← hu, ← hr, if_neg hbounds, hdiv, Terminal.scroll]
  by_cases hlast : u.pos = SCREEN_X * u.top + SCREEN
  · have hbottom : u.pos / SCREEN_X = u.top + (SCREEN_Y - 1) := by
      simp only [SCREEN, SCREEN_X, SCREEN_Y] at hlast ⊢
      omega
    have hscroll := htype.scroll hlast
    rw [if_pos hbottom, if_pos (by rw [hlast, Nat.add_sub_cancel_left]; decide)]
    have hnext : u.pos < SCREEN_X * (u.top + 1) + SCREEN := by
      simp only [SCREEN, SCREEN_X, SCREEN_Y] at hlast ⊢
      omega
    exact ⟨_, rfl, hscroll.set hnext, hnext⟩
  · have hbottom : u.pos / SCREEN_X ≠ u.top + (SCREEN_Y - 1) := by
      simp only [SCREEN, SCREEN_X, SCREEN_Y] at hlast hle htop ⊢
      omega
    have hrows : ¬ (SCREEN_Y : ℤ) - 1 ≤ ((u.pos - SCREEN_X * u.top) / SCREEN_X : ℕ) := by
      simp only [SCREEN, SCREEN_X, SCREEN_Y] at hlast hle htop ⊢
      omega
    rw [if_neg hbottom, if_neg hrows]
    exact ⟨_, rfl, htype.set (by omega), by omega⟩

theorem Shown.init (m : Mem) : Shown (consoleinit m) .blank := by
  refine ⟨le_rfl, Nat.zero_le _, rfl, fun _ _ => rfl, ?_, ?_⟩
  · intro i hi
    have hzero : (consoleinit m).cell i = 0 := by
      refine Mem.load16_fill_zero ?_
      simp only [SCREEN_Y, SCREEN_X, PAGESIZE] at hi ⊢
      omega
    rw [hzero]
    rfl
  · intro r hr
    cases hr

/-- Any number of calls. -/
theorem Shown.puts (h : Shown s t) (hpos : t.pos < SCREEN_X * t.top + SCREEN) (cs : List ℤ) :
    ∃ s', s.puts cs = some s' ∧ Shown s' (cs.foldl Terminal.put t) ∧
      (cs.foldl Terminal.put t).pos < SCREEN_X * (cs.foldl Terminal.put t).top + SCREEN := by
  induction cs generalizing s t with
  | nil => exact ⟨s, rfl, h, hpos⟩
  | cons c cs ih =>
      obtain ⟨u, hu, hshown, hlt⟩ := h.putchar hpos c
      obtain ⟨s', hs', hrest⟩ := ih hshown hlt
      apply Exists.intro s'
      rw [Screen.puts, hu]
      exact ⟨hs', hrest⟩

/-! ## The cursor alone -/

theorem type_cursor {n : ℕ} (h : s.cursor = n) (c : UInt8) :
    (s.type c.toNat).cursor =
      (if c = newline then n + (SCREEN_X - n % SCREEN_X)
        else if c = backspace then (if 0 < n then n - 1 else n) else n + 1 : ℕ) := by
  have hnl : ((c.toNat : ℤ) = newline.toNat) = (c = newline) := by
    rw [Int.ofNat_inj, UInt8.toNat_inj]
  have hbs : ((c.toNat : ℤ) = backspace.toNat) = (c = backspace) := by
    rw [Int.ofNat_inj, UInt8.toNat_inj]
  have hmod : (n : ℤ).tmod SCREEN_X = (n % SCREEN_X : ℕ) := Int.ofNat_tmod _ _
  have hlt : n % SCREEN_X < SCREEN_X := Nat.mod_lt _ (by decide)
  simp only [Screen.type, hnl, hbs]
  split_ifs <;> simp only [set, h, hmod] <;> omega

/-- The cursor moves as in the console without cells. -/
theorem putchar_cursor {n : ℕ} (h : s.cursor = n) (c : UInt8) :
    (s.putchar c.toNat).map cursor = (Dev.putchar n c).map Nat.cast := by
  obtain ⟨r, hr⟩ : ∃ r, r = s.type c.toNat := ⟨_, rfl⟩
  have hcur := type_cursor h c
  rw [← hr] at hcur
  simp only [Screen.putchar, Dev.putchar, ← hr]
  generalize (if c = newline then n + (SCREEN_X - n % SCREEN_X)
    else if c = backspace then (if 0 < n then n - 1 else n) else n + 1) = k at hcur ⊢
  have hdiv : r.cursor.tdiv SCREEN_X = (k / SCREEN_X : ℕ) := by
    rw [hcur]
    exact Int.ofNat_tdiv _ _
  have hy : ((SCREEN_Y : ℤ) - 1) = (SCREEN_Y - 1 : ℕ) := by decide
  have hxy : ((SCREEN_Y : ℤ) * SCREEN_X) = (SCREEN_Y * SCREEN_X : ℕ) := by decide
  have hpanic : r.cursor < 0 ∨ ((SCREEN_Y * SCREEN_X : ℕ) : ℤ) < r.cursor ↔
      SCREEN_Y * SCREEN_X < k := by omega
  have hrow : ((SCREEN_Y - 1 : ℕ) : ℤ) ≤ (k / SCREEN_X : ℕ) ↔ SCREEN_Y - 1 ≤ k / SCREEN_X :=
    Int.ofNat_le
  simp only [hdiv, hy, hxy, hpanic, hrow]
  by_cases hout : SCREEN_Y * SCREEN_X < k
  · rw [if_pos hout, if_pos hout]
    rfl
  rw [if_neg hout, if_neg hout]
  by_cases hlast : SCREEN_Y - 1 ≤ k / SCREEN_X
  · have hge : SCREEN_X ≤ k := by
      simp only [SCREEN_X, SCREEN_Y] at hlast ⊢
      omega
    rw [if_pos hlast, if_pos hlast]
    simp only [Option.map_some, set, scroll, memset, memmove, hcur]
    congr 1
    omega
  · rw [if_neg hlast, if_neg hlast]
    simp only [Option.map_some, set, hcur]

/-! ## Runs -/

/-- What the screen promises for a terminal: the cursor stays in the window, the calls have
written cells of the screen only, the cells from the cursor on are blank, and those before it
are the window of the terminal. -/
structure Window (s : Screen) (t : Terminal) : Prop where
  cursor : 0 ≤ s.cursor ∧ s.cursor < (SCREEN_Y - 1) * SCREEN_X
  stores : ∀ r ∈ s.stores, InScreen r
  blank : ∀ i : ℕ, s.cursor ≤ i → i < SCREEN_Y * SCREEN_X → look (s.cell i) = SPACE
  window : ∀ i : ℕ, i < s.cursor → look (s.cell i) = 0x0A00 + (t.tape (SCREEN_X * t.top + i)).toNat
  pos : s.cursor = t.pos - SCREEN_X * t.top

theorem Shown.window (h : Shown s t) (hpos : t.pos < SCREEN_X * t.top + SCREEN) : Window s t := by
  have htop := h.top_le
  have hcur := h.cursor
  have hscreen : ((SCREEN_Y : ℤ) - 1) * SCREEN_X = SCREEN := by decide
  refine ⟨⟨by omega, by omega⟩, h.stores, ?_, ?_, hcur⟩
  · intro i hi hlt
    rw [h.cells i hlt, h.ahead _ (by omega)]
    rfl
  · intro i hi
    exact h.cells i (lt_of_lt_SCREEN (by omega))

/-- **The screen.**  A sequence of `putchar` calls after `consoleinit` does not panic, and
leaves the window of the terminal on the screen. -/
theorem puts_window (m : Mem) (cs : List ℤ) :
    ∃ s, (consoleinit m).puts cs = some s ∧ Window s (cs.foldl Terminal.put .blank) := by
  obtain ⟨s, hs, hshown, hpos⟩ := (Shown.init m).puts (by decide) cs
  exact ⟨s, hs, hshown.window hpos⟩

end Screen
end Mixv6.Dev
