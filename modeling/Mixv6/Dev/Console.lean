import Mixv6.Kernel.Sleep
import Mixv6.Lib.Machine
import Mathlib.Data.List.Basic

/-!
# The console

`dev/console.c`: keys arrive through `consoleintr`, processes read them through
`consoleread`.  The keyboard interrupt runs to its end, and so does the copying
section of `consoleread`; between the statements of a process anything can happen.

`consoleintr` has one guard for all keys, `index >= INPUT_BUF - 1`, and none for a
backspace at the start of the buffer.  A full buffer therefore drops the newline that
would empty it, and a backspace on an empty line moves the index to the other end of
its range.

## Main definitions

* `consoleintr`, `ConSt.next` — the interrupt and the statements of `consoleread`.
* `Responsive` — the index is in range and a sleeping reader can be woken.
* `Deafening` — the steps after which the console stops to react.
* `responsive_iff` — a run is responsive throughout if and only if it has no such step.
-/

namespace Mixv6.Dev

open Mixv6.Lib Mixv6.Kernel

/-- Console width. -/
def SCREEN_X : ℕ := 80

/-- Console height. -/
def SCREEN_Y : ℕ := 25

def INPUT_BUF : ℕ := 128

/-- `'\n'`. -/
def newline : UInt8 := 10

/-- `'\b'`. -/
def backspace : UInt8 := 8

/-- `struct input`.  `buf` is the memory from the start of the array on, of which the
array is the first `INPUT_BUF` bytes; the source checks no index of its own. -/
structure Input where
  buf : ℕ → UInt8
  index : ℕ

namespace Input

/-- `input.buf[input.index] = c; input.index++;` -/
def put (i : Input) (c : UInt8) : Input where
  buf := Function.update i.buf i.index c
  index := (i.index + 1) % 2 ^ 32

/-- `input.index--;` on an unsigned index. -/
def erase (i : Input) : Input := { i with index := (2 ^ 32 - 1 + i.index) % 2 ^ 32 }

/-- What the loop of `consoleread` copies.  `min` compares unsigned, the loop signed. -/
def copied (i : Input) (size : ℕ) : List UInt8 :=
  let n := min size i.index
  if n < 2 ^ 31 then (List.range n).map i.buf else []

/-- The buffer up to the index. -/
def text (i : Input) : List UInt8 := (List.range i.index).map i.buf

end Input

/-- `putchar`: where the cursor goes; `none` is the panic.  The cursor is never
negative, so the other half of the source's test is left out. -/
def putchar (cursor : ℕ) (c : UInt8) : Option ℕ :=
  let cursor :=
    if c = newline then cursor + (SCREEN_X - cursor % SCREEN_X)
    else if c = backspace then (if 0 < cursor then cursor - 1 else cursor)
    else cursor + 1
  if SCREEN_Y * SCREEN_X < cursor then none
  else if SCREEN_Y - 1 ≤ cursor / SCREEN_X then some (cursor - SCREEN_X)
  else some cursor

/-- The lines above the last one: where the cursor stays. -/
def SCREEN : ℕ := (SCREEN_Y - 1) * SCREEN_X

/-- Scrolling keeps the cursor on the screen, so `putchar` does not panic. -/
theorem putchar_lt {cursor : ℕ} (h : cursor < SCREEN) (c : UInt8) :
    ∃ cursor', putchar cursor c = some cursor' ∧ cursor' < SCREEN := by
  simp only [SCREEN, SCREEN_X, SCREEN_Y] at h ⊢
  simp only [putchar, SCREEN_X, SCREEN_Y]
  split_ifs <;> first | exact ⟨_, rfl, by omega⟩ | omega

/-- What a process can sleep on here. -/
inductive ConChan
  | input
  deriving DecidableEq, Repr

/-- Where a process stands in `consoleread`, with its argument `size`. -/
inductive ReadPc
  | user
  /-- Before the `cli` section of `sleep(&input)`. -/
  | sleep (size : ℕ)
  /-- In the loop of `sleep`. -/
  | loop (size : ℕ)
  /-- Before the section that copies the buffer. -/
  | copy (size : ℕ)
  deriving DecidableEq, Repr

/-- The console and the processes that read it.  The last three fields are not in the
source: the keys that have arrived, the indices `consoleintr` has stored to, and what
each process has been given. -/
structure ConSt (P : Type) where
  input : Input
  cursor : ℕ
  tab : ProcTab P ConChan
  pc : P → ReadPc
  keys : List UInt8
  stores : List ℕ
  got : P → List (List UInt8)

/-- What can happen next. -/
inductive ConEvent (P : Type)
  /-- The keyboard interrupt, with the character `getc` returns. -/
  | key (c : UInt8)
  /-- A process executes its next statement; `size` is for a new call. -/
  | exec (p : P) (size : ℕ)
  /-- Somebody prints a character. -/
  | print (c : UInt8)

section Model
variable {P : Type}

/-- `consoleintr`, with the character `getc` returns. -/
def consoleintr (s : ConSt P) (c : UInt8) : Option (ConSt P) :=
  if INPUT_BUF - 1 ≤ s.input.index ∨ c = 0 then some s
  else
    let s :=
      if c = newline then { s with tab := s.tab.wakeup (some .input) }
      else if c = backspace then { s with input := s.input.erase }
      else { s with input := s.input.put c, stores := s.stores ++ [s.input.index] }
    (putchar s.cursor c).map fun cursor => { s with cursor }

namespace ConSt

/-- The process has not called `consoleread` and nothing has been typed. -/
def init : ConSt P where
  input := ⟨fun _ => 0, 0⟩
  cursor := 0
  tab := ⟨fun _ => .RUN, fun _ => none⟩
  pc _ := .user
  keys := []
  stores := []
  got _ := []

/-- The process sleeps on the input channel. -/
def Asleep (s : ConSt P) (p : P) : Prop := s.tab.wchan p = some .input

instance decidableAsleep (s : ConSt P) (p : P) : Decidable (s.Asleep p) :=
  inferInstanceAs (Decidable (_ = _))

variable [DecidableEq P]

def goto (s : ConSt P) (p : P) (pc : ReadPc) : ConSt P :=
  { s with pc := Function.update s.pc p pc }

/-- The next statement of process `p`. -/
def next (s : ConSt P) (p : P) (size : ℕ) : ConSt P :=
  match s.pc p with
  | .user => s.goto p (.sleep size)
  | .sleep size => { s.goto p (.loop size) with tab := s.tab.sleep p .input }
  | .loop size => if (s.tab.wchan p).isSome then s else s.goto p (.copy size)
  | .copy size =>
      { s.goto p .user with
        got := Function.update s.got p (s.got p ++ [s.input.copied size])
        input.index := 0 }

end ConSt

/-- Keys, readers and printing in any order. -/
def conMachine (P : Type) [DecidableEq P] : Machine (ConSt P) (ConEvent P) where
  step s
    | .key c => (consoleintr s c).map fun t => { t with keys := t.keys ++ [c] }
    | .exec p size => some (s.next p size)
    | .print c => (putchar s.cursor c).map fun cursor => { s with cursor }

/-- **The console reacts.**  The index and all stores are in range; while a process
sleeps on the input channel a newline wakes it, and a backspace takes back a character
if there is one. -/
structure Responsive (s : ConSt P) : Prop where
  index_lt : s.input.index < INPUT_BUF
  stores_lt : ∀ i ∈ s.stores, i < INPUT_BUF
  wakes : ∀ p, s.Asleep p →
    ∃ t, consoleintr s newline = some t ∧ t.tab.wchan p = none ∧ t.tab.stat p = .RUN
  edits : ∀ p, s.Asleep p → 0 < s.input.index →
    ∃ t, consoleintr s backspace = some t ∧ t.input.index + 1 = s.input.index

/-- The steps that make the console deaf: a backspace on an empty buffer, the key that
fills the buffer under a sleeping reader, and going to sleep on a full buffer. -/
def Deafening (s : ConSt P) : ConEvent P → Prop
  | .key c =>
      (c = backspace ∧ s.input.index = 0) ∨
        (c ≠ 0 ∧ c ≠ newline ∧ c ≠ backspace ∧ s.input.index = INPUT_BUF - 2 ∧ ∃ p, s.Asleep p)
  | .exec p _ => (∃ size, s.pc p = .sleep size) ∧ s.input.index = INPUT_BUF - 1
  | .print _ => False

/-! ## One key -/

/-- What an interrupt does: nothing on a full buffer, else what the key says. -/
theorem consoleintr_cases {s t : ConSt P} {c : UInt8} (hs : s.cursor < SCREEN)
    (h : consoleintr s c = some t) :
    (t = s ∧ (INPUT_BUF - 1 ≤ s.input.index ∨ c = 0)) ∨
      (s.input.index < INPUT_BUF - 1 ∧ c ≠ 0 ∧ ∃ cursor < SCREEN,
        (c = newline ∧ t = { s with tab := s.tab.wakeup (some .input), cursor }) ∨
        (c = backspace ∧ t = { s with input := s.input.erase, cursor }) ∨
        (c ≠ newline ∧ c ≠ backspace ∧
          t = { s with
            input := s.input.put c
            stores := s.stores ++ [s.input.index]
            cursor })) := by
  unfold consoleintr at h
  split at h
  case isTrue hfull => exact .inl ⟨(Option.some.inj h).symm, hfull⟩
  case isFalse hroom =>
    rw [not_or, Nat.not_le] at hroom
    right
    apply And.intro hroom.1
    apply And.intro hroom.2
    obtain ⟨cursor, hput, hlt⟩ := putchar_lt hs c
    apply Exists.intro cursor
    apply And.intro hlt
    by_cases hnl : c = newline
    · left
      simp only [hnl, if_true] at h hput ⊢
      rw [hput] at h
      exact ⟨trivial, (Option.some.inj h).symm⟩
    · right
      by_cases hbs : c = backspace
      · left
        simp only [hbs, if_true] at h hput ⊢
        rw [if_neg (by decide), hput] at h
        exact ⟨trivial, (Option.some.inj h).symm⟩
      · right
        simp only [hnl, hbs, if_false] at h
        rw [hput] at h
        exact ⟨hnl, hbs, (Option.some.inj h).symm⟩

/-- The interrupt handler returns. -/
theorem exists_consoleintr {s : ConSt P} (hs : s.cursor < SCREEN) (c : UInt8) :
    ∃ t, consoleintr s c = some t := by
  unfold consoleintr
  split
  · exact ⟨s, rfl⟩
  · obtain ⟨cursor, hput, -⟩ := putchar_lt hs c
    split_ifs <;> simp only [hput, Option.map_some, Option.some.injEq, exists_eq']

theorem erase_index {i : Input} (h0 : 0 < i.index) (hlt : i.index < INPUT_BUF) :
    i.erase.index + 1 = i.index := by
  simp only [INPUT_BUF] at hlt
  simp only [Input.erase]
  omega

theorem erase_index_zero {i : Input} (h : i.index = 0) : i.erase.index = 2 ^ 32 - 1 := by
  simp [Input.erase, h]

theorem put_index {i : Input} {c : UInt8} (hlt : i.index < INPUT_BUF) :
    (i.put c).index = i.index + 1 := by
  simp only [INPUT_BUF] at hlt
  simp only [Input.put]
  omega

theorem put_buf (i : Input) (c : UInt8) : (i.put c).buf = Function.update i.buf i.index c := rfl

@[simp] theorem erase_buf (i : Input) : i.erase.buf = i.buf := rfl

/-! ## The invariant -/

/-- What keeps the console responsive: a sleeping reader has a buffer with room left. -/
structure ConInv (s : ConSt P) : Prop where
  cursor_lt : s.cursor < SCREEN
  index_lt : s.input.index < INPUT_BUF
  stores_lt : ∀ i ∈ s.stores, i < INPUT_BUF
  room : ∀ p, s.Asleep p → s.input.index < INPUT_BUF - 1

theorem ConInv.init : ConInv (ConSt.init : ConSt P) where
  cursor_lt := show 0 < SCREEN by decide
  index_lt := show 0 < INPUT_BUF by decide
  stores_lt i hi := by cases hi
  room p hp := by cases hp

theorem ConInv.responsive {s : ConSt P} (I : ConInv s) : Responsive s where
  index_lt := I.index_lt
  stores_lt := I.stores_lt
  wakes p hp := by
    have hroom := I.room p hp
    obtain ⟨t, ht⟩ := exists_consoleintr I.cursor_lt newline
    apply Exists.intro t
    apply And.intro ht
    rcases consoleintr_cases I.cursor_lt ht with ⟨-, hfull | h0⟩ | ⟨-, -, cursor, -, h⟩
    · omega
    · exact absurd h0 (by decide)
    · rcases h with ⟨-, rfl⟩ | ⟨h, -⟩ | ⟨h, -⟩
      · simp [ProcTab.wakeup, show s.tab.wchan p = some .input from hp]
      · exact absurd h (by decide)
      · exact absurd rfl h
  edits p hp h0 := by
    have hroom := I.room p hp
    obtain ⟨t, ht⟩ := exists_consoleintr I.cursor_lt backspace
    apply Exists.intro t
    apply And.intro ht
    rcases consoleintr_cases I.cursor_lt ht with ⟨-, hfull | h0⟩ | ⟨-, -, cursor, -, h⟩
    · omega
    · exact absurd h0 (by decide)
    · rcases h with ⟨h, -⟩ | ⟨-, rfl⟩ | ⟨-, h, -⟩
      · exact absurd h (by decide)
      · exact erase_index h0 I.index_lt
      · exact absurd rfl h

/-- On a full buffer no key wakes anybody. -/
theorem Responsive.room {s : ConSt P} (R : Responsive s) (p : P) (hp : s.Asleep p) :
    s.input.index < INPUT_BUF - 1 := by
  by_contra hfull
  obtain ⟨t, ht, hw, -⟩ := R.wakes p hp
  have hs : consoleintr s newline = some s := if_pos (.inl (Nat.not_lt.mp hfull))
  obtain rfl : s = t := Option.some.inj (hs.symm.trans ht)
  rw [ConSt.Asleep, hw] at hp
  cases hp

/-- A key that is not deafening keeps the invariant. -/
theorem ConInv.key {s t : ConSt P} (I : ConInv s) {c : UInt8} (hd : ¬ Deafening s (.key c))
    (h : consoleintr s c = some t) : ConInv t := by
  rw [Deafening, not_or] at hd
  rcases consoleintr_cases I.cursor_lt h with ⟨rfl, -⟩ | ⟨hroom, hc, cursor, hcur, h⟩
  · exact I
  rcases h with ⟨rfl, rfl⟩ | ⟨rfl, rfl⟩ | ⟨hnl, hbs, rfl⟩
  · exact ⟨hcur, I.index_lt, I.stores_lt, fun p _ => hroom⟩
  · have h0 : 0 < s.input.index := Nat.pos_of_ne_zero fun h0 => hd.1 ⟨rfl, h0⟩
    have herase := erase_index h0 I.index_lt
    exact ⟨hcur, by simp only; omega, I.stores_lt, fun p _ => by simp only; omega⟩
  · have hput := put_index (c := c) I.index_lt
    refine ⟨hcur, by simp only; omega, ?_, ?_⟩
    · intro i hi
      rcases List.mem_append.mp hi with hi | hi
      · exact I.stores_lt i hi
      · rw [List.mem_singleton.mp hi]; exact I.index_lt
    · intro p hp
      have hne : s.input.index ≠ INPUT_BUF - 2 :=
        fun heq => hd.2 ⟨hc, hnl, hbs, heq, p, hp⟩
      simp only
      omega

section Runs
variable [DecidableEq P] {s t : ConSt P}

/-- A statement of `consoleread` that is not deafening keeps the invariant. -/
theorem ConInv.next (I : ConInv s) {p : P} {size : ℕ} (hd : ¬ Deafening s (.exec p size)) :
    ConInv (s.next p size) := by
  unfold ConSt.next
  split
  case h_1 => exact ⟨I.cursor_lt, I.index_lt, I.stores_lt, I.room⟩
  case h_2 size' hpc =>
      have hroom : s.input.index < INPUT_BUF - 1 := by
        have hne : s.input.index ≠ INPUT_BUF - 1 := fun heq => hd ⟨⟨size', hpc⟩, heq⟩
        have := I.index_lt
        omega
      exact ⟨I.cursor_lt, I.index_lt, I.stores_lt, fun q _ => hroom⟩
  case h_3 =>
      split
      · exact I
      · exact ⟨I.cursor_lt, I.index_lt, I.stores_lt, I.room⟩
  case h_4 =>
      exact ⟨I.cursor_lt, show 0 < INPUT_BUF by decide, I.stores_lt,
        fun q _ => show 0 < INPUT_BUF - 1 by decide⟩

theorem ConInv.step (I : ConInv s) {e : ConEvent P} (hd : ¬ Deafening s e)
    (h : (conMachine P).step s e = some t) : ConInv t := by
  cases e with
  | key c =>
      obtain ⟨u, hu, rfl⟩ := Option.map_eq_some_iff.mp h
      have J := I.key hd hu
      exact ⟨J.cursor_lt, J.index_lt, J.stores_lt, J.room⟩
  | exec p size =>
      rw [← Option.some.inj h]
      exact I.next hd
  | print c =>
      obtain ⟨cursor, hput, rfl⟩ := Option.map_eq_some_iff.mp h
      obtain ⟨cursor', hput', hlt⟩ := putchar_lt I.cursor_lt c
      obtain rfl : cursor' = cursor := Option.some.inj (hput'.symm.trans hput)
      exact ⟨hlt, I.index_lt, I.stores_lt, I.room⟩

/-- After a deafening step the console is not responsive. -/
theorem ConInv.not_deafening (I : ConInv s) {e : ConEvent P}
    (h : (conMachine P).step s e = some t) (R : Responsive t) : ¬ Deafening s e := by
  cases e with
  | key c =>
      obtain ⟨u, hu, rfl⟩ := Option.map_eq_some_iff.mp h
      rintro (⟨rfl, h0⟩ | ⟨hc, hnl, hbs, h126, p, hp⟩)
      · have hidx := R.index_lt
        rcases consoleintr_cases I.cursor_lt hu with ⟨-, hfull | h⟩ | ⟨-, -, cursor, -, h⟩
        · rw [h0] at hfull; exact absurd hfull (by decide)
        · exact absurd h (by decide)
        rcases h with ⟨h, -⟩ | ⟨-, rfl⟩ | ⟨-, h, -⟩
        · exact absurd h (by decide)
        · simp only [erase_index_zero h0] at hidx
          exact absurd hidx (by decide)
        · exact absurd rfl h
      · rcases consoleintr_cases I.cursor_lt hu with ⟨-, hfull | h⟩ | ⟨-, -, cursor, -, h⟩
        · rw [h126] at hfull; exact absurd hfull (by decide)
        · exact absurd h hc
        rcases h with ⟨h, -⟩ | ⟨h, -⟩ | ⟨-, -, rfl⟩
        · exact absurd h hnl
        · exact absurd h hbs
        · have hroom := R.room p hp
          simp only [put_index I.index_lt, h126] at hroom
          exact absurd hroom (by decide)
  | exec p size =>
      rintro ⟨⟨size', hpc⟩, h127⟩
      rw [← Option.some.inj h] at R
      have hroom := R.room p (by simp [ConSt.next, hpc, ConSt.Asleep])
      simp only [ConSt.next, hpc, ConSt.goto] at hroom
      omega
  | print c => exact id

/-- **The console.**  A run of keys, readers and printing is responsive in every state it
reaches if and only if none of its steps is deafening. -/
theorem responsive_iff (t : ConSt P) :
    (conMachine P).Path (fun s e => ∀ u, (conMachine P).step s e = some u → Responsive u)
        .init t ↔
      (conMachine P).Path (fun s e => ¬ Deafening s e) .init t := by
  apply Machine.path_iff (I := ConInv) ConInv.init
  intro s e u I hu
  constructor
  · intro hR
    have hd := I.not_deafening hu (hR u hu)
    exact ⟨hd, I.step hd hu⟩
  · intro hd
    refine ⟨fun v hv => ?_, I.step hd hu⟩
    obtain rfl : u = v := Option.some.inj (hu.symm.trans hv)
    exact (I.step hd hu).responsive

end Runs

/-- Two runs that end badly: a backspace on the empty buffer, and a reader that sleeps
while 127 characters are typed.  After the second no key has any effect. -/
theorem not_responsive :
    (∃ t : ConSt Unit, (conMachine Unit).Reaches .init t ∧ ¬ t.input.index < INPUT_BUF) ∧
      ∃ t : ConSt Unit, (conMachine Unit).Reaches .init t ∧ t.Asleep () ∧
        ∀ c, consoleintr t c = some t := by
  constructor
  · exact (conMachine Unit).exists_path_of_run _ .init [.key backspace] _ (by decide +kernel)
  · obtain ⟨t, ht, hp, hfull⟩ := (conMachine Unit).exists_path_of_run (fun _ _ => True) .init
      (.exec () 1 :: .exec () 1 :: List.replicate 127 (.key 97))
      (fun t => t.Asleep () ∧ INPUT_BUF - 1 ≤ t.input.index) (by decide +kernel)
    exact ⟨t, ht, hp, fun c => if_pos (.inl hfull)⟩

end Model
end Mixv6.Dev
