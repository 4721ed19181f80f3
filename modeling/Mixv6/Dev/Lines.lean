import Mixv6.Dev.Console

/-!
# Lines

What the console is for: somebody types lines, and a process that calls `consoleread`
again and again is given one line at a time.  `Typed` says what the lines are; it knows
nothing of buffers and processes.

`consoleread` goes to sleep before it looks at the buffer, and the newline is not
stored.  A line that is complete before the reader sleeps is therefore not delivered
until another newline comes, and keys that arrive between a newline and the copy get
into the line.

## Main definitions

* `Typed`, `typed` — the completed lines and the one being edited.
* `Fits` — what the keyboard and the reader do: lines fit, backspaces stay in the line,
  one process reads with a buffer that is large enough.
* `Prompt` — newlines come while the reader sleeps, and nothing is typed before it copies.
* `delivered_of_prompt` — then the reader is given exactly the lines, in order.
-/

namespace Mixv6.Dev

open Mixv6.Lib Mixv6.Kernel

/-! ## What is typed -/

/-- The completed lines and the one being edited. -/
structure Typed where
  lines : List (List UInt8)
  line : List UInt8
  deriving DecidableEq, Repr

/-- One key: a newline completes the line, a backspace takes a character back. -/
def Typed.key (t : Typed) (c : UInt8) : Typed :=
  if c = 0 then t
  else if c = newline then ⟨t.lines ++ [t.line], []⟩
  else if c = backspace then { t with line := t.line.dropLast }
  else { t with line := t.line ++ [c] }

def typed (keys : List UInt8) : Typed := keys.foldl Typed.key ⟨[], []⟩

@[simp] theorem typed_nil : typed [] = ⟨[], []⟩ := rfl

@[simp] theorem typed_append (keys : List UInt8) (c : UInt8) :
    typed (keys ++ [c]) = (typed keys).key c := by
  simp [typed]

@[simp] theorem Typed.key_zero (t : Typed) : t.key 0 = t := rfl

@[simp] theorem Typed.key_newline (t : Typed) : t.key newline = ⟨t.lines ++ [t.line], []⟩ := rfl

@[simp] theorem Typed.key_backspace (t : Typed) :
    t.key backspace = { t with line := t.line.dropLast } := rfl

theorem Typed.key_char {c : UInt8} (h0 : c ≠ 0) (hnl : c ≠ newline) (hbs : c ≠ backspace)
    (t : Typed) : t.key c = { t with line := t.line ++ [c] } := by
  simp [Typed.key, h0, hnl, hbs]

/-! ## The buffer as text -/

theorem Input.length_text (i : Input) : i.text.length = i.index := by simp [Input.text]

theorem Input.text_put {i : Input} {c : UInt8} (hlt : i.index < INPUT_BUF) :
    (i.put c).text = i.text ++ [c] := by
  have hkeep : ∀ k ∈ List.range i.index, (i.put c).buf k = i.buf k := by
    intro k hk
    rw [put_buf, Function.update_of_ne (Nat.ne_of_lt (List.mem_range.mp hk))]
  rw [Input.text, put_index hlt, List.range_succ, List.map_append, List.map_congr_left hkeep]
  simp [Input.text, put_buf]

theorem Input.text_erase {i : Input} (h0 : 0 < i.index) (hlt : i.index < INPUT_BUF) :
    i.erase.text = i.text.dropLast := by
  obtain ⟨n, hn⟩ : ∃ n, i.erase.index = n := ⟨_, rfl⟩
  have h := erase_index h0 hlt
  rw [hn] at h
  rw [Input.text, Input.text, ← h, hn, List.range_succ, List.map_append]
  simp

theorem Input.copied_eq {i : Input} {size : ℕ} (hlt : i.index < INPUT_BUF)
    (hsize : INPUT_BUF ≤ size) : i.copied size = i.text := by
  simp only [INPUT_BUF] at hlt hsize
  have hmin : min size i.index = i.index := Nat.min_eq_right (by omega)
  simp only [Input.copied, hmin, Input.text]
  exact if_pos (by omega)

/-! ## Delivery -/

section Lines
variable {P : Type} {r : P} {s t : ConSt P}

/-- `r` is the only process that reads, and it has a buffer for any line; a line fits
into the input buffer and backspaces do not go beyond its start. -/
def Fits (r : P) (s : ConSt P) : ConEvent P → Prop
  | .key c =>
      (c = backspace → (typed s.keys).line ≠ []) ∧
        (c ≠ 0 → c ≠ newline → c ≠ backspace → (typed s.keys).line.length < INPUT_BUF - 1)
  | .exec p size => p = r ∧ INPUT_BUF ≤ size
  | .print _ => True

instance decidableFits [DecidableEq P] (r : P) (s : ConSt P) (e : ConEvent P) : Decidable (Fits r s e) :=
  match e with
  | .key _ => inferInstanceAs (Decidable (_ ∧ _))
  | .exec _ _ => inferInstanceAs (Decidable (_ ∧ _))
  | .print _ => inferInstanceAs (Decidable True)

/-- The process is about to copy the buffer. -/
def ReadPc.copies : ReadPc → Bool
  | .copy _ => true
  | _ => false

/-- A newline comes while the reader sleeps, no character comes that fills the buffer,
and the reader copies a line before the next one has begun. -/
def Prompt (r : P) (s : ConSt P) : ConEvent P → Prop
  | .key c =>
      (c = newline → s.Asleep r) ∧
        (c ≠ 0 → c ≠ newline → c ≠ backspace → s.input.index < INPUT_BUF - 2)
  | .exec _ _ => (s.pc r).copies → (typed s.keys).line = []
  | .print _ => True

instance decidablePrompt (r : P) (s : ConSt P) (e : ConEvent P) : Decidable (Prompt r s e) :=
  match e with
  | .key _ => inferInstanceAs (Decidable (_ ∧ _))
  | .exec _ _ => inferInstanceAs (Decidable (_ → _))
  | .print _ => inferInstanceAs (Decidable True)

/-- **Line delivery.**  The reader has been given lines that were completed, in order and
each as it was typed, and while it sleeps there is no other. -/
structure Delivered (r : P) (s : ConSt P) : Prop where
  got_prefix : s.got r <+: (typed s.keys).lines
  unread : s.Asleep r → s.got r = (typed s.keys).lines

/-- A newline has woken the reader, and it has not copied the line. -/
def Woken (r : P) (s : ConSt P) : Prop :=
  ∃ size, s.pc r = .copy size ∨ (s.pc r = .loop size ∧ s.tab.wchan r = none)

/-- The buffer holds what has been typed and not delivered: the line being edited,
after a completed one if the reader has been woken. -/
structure LineInv (r : P) (s : ConSt P) : Prop where
  cursor_lt : s.cursor < SCREEN
  index_lt : s.input.index < INPUT_BUF - 1
  size_le : ∀ size, s.pc r = .sleep size ∨ s.pc r = .loop size ∨ s.pc r = .copy size →
    INPUT_BUF ≤ size
  asleep : s.Asleep r → ∃ size, s.pc r = .loop size
  edited : ¬ Woken r s → s.got r = (typed s.keys).lines ∧ s.input.text = (typed s.keys).line
  ready : Woken r s → ∃ line, (typed s.keys).lines = s.got r ++ [line] ∧
    s.input.text = line ++ (typed s.keys).line

theorem LineInv.not_woken (I : LineInv r s) (h : s.Asleep r) : ¬ Woken r s := by
  obtain ⟨size, hpc⟩ := I.asleep h
  rintro ⟨size', hcopy | ⟨-, hw⟩⟩
  · rw [hpc] at hcopy; cases hcopy
  · rw [ConSt.Asleep, hw] at h; cases h

theorem LineInv.init (r : P) : LineInv r .init where
  cursor_lt := show 0 < SCREEN by decide
  index_lt := show 0 < INPUT_BUF - 1 by decide
  size_le size h := by rcases h with h | h | h <;> cases h
  asleep h := by cases h
  edited _ := ⟨rfl, rfl⟩
  ready h := by obtain ⟨size, h | ⟨h, -⟩⟩ := h <;> cases h

theorem LineInv.delivered (I : LineInv r s) : Delivered r s where
  got_prefix := by
    by_cases hw : Woken r s
    · obtain ⟨line, hlines, -⟩ := I.ready hw
      rw [hlines]
      exact List.prefix_append _ _
    · have hgot := (I.edited hw).1
      exact hgot ▸ List.prefix_rfl
  unread h := (I.edited (I.not_woken h)).1

/-- A key that changes only the buffer and the line being edited. -/
theorem LineInv.edit (I : LineInv r s) {input : Input} {cursor : ℕ} {keys : List UInt8}
    {stores : List ℕ} {f : List UInt8 → List UInt8} (hcur : cursor < SCREEN)
    (hidx : input.index < INPUT_BUF - 1) (hlines : (typed keys).lines = (typed s.keys).lines)
    (hline : (typed keys).line = f (typed s.keys).line) (htext : input.text = f s.input.text)
    (happ : ∀ l, f (l ++ (typed s.keys).line) = l ++ f (typed s.keys).line) :
    LineInv r { s with input, cursor, keys, stores } where
  cursor_lt := hcur
  index_lt := hidx
  size_le := I.size_le
  asleep := I.asleep
  edited hw := by
    obtain ⟨hgot, hbuf⟩ := I.edited hw
    exact ⟨hgot.trans hlines.symm, by rw [htext, hbuf, hline]⟩
  ready hw := by
    obtain ⟨l, hgot, hbuf⟩ := I.ready hw
    exact ⟨l, hlines.trans hgot, by rw [htext, hbuf, hline, happ]⟩

theorem LineInv.key (I : LineInv r s) {c : UInt8} (hf : Fits r s (.key c))
    (hp : Prompt r s (.key c)) (h : consoleintr s c = some t) :
    LineInv r { t with keys := t.keys ++ [c] } := by
  have hidx := I.index_lt
  have hbuf : s.input.index < INPUT_BUF := Nat.lt_of_lt_of_le hidx (Nat.sub_le _ _)
  rcases consoleintr_cases I.cursor_lt h with ⟨rfl, hfull | rfl⟩ | ⟨-, hc, cursor, hcur, h⟩
  · omega
  · refine I.edit (f := id) I.cursor_lt I.index_lt ?_ ?_ rfl fun _ => rfl <;> simp
  rcases h with ⟨rfl, rfl⟩ | ⟨rfl, rfl⟩ | ⟨hnl, hbs, rfl⟩
  · -- The reader sleeps: the newline wakes it and the whole buffer becomes the line.
    have hsleep := hp.1 rfl
    obtain ⟨hgot, htext⟩ := I.edited (I.not_woken hsleep)
    obtain ⟨size, hpc⟩ := I.asleep hsleep
    refine ⟨hcur, hidx, I.size_le, ?_, ?_, ?_⟩
    · intro ha
      exact absurd ha ProcTab.wchan_wakeup_ne
    · intro hw
      exact absurd ⟨size, .inr ⟨hpc, by simp [ProcTab.wakeup, show s.tab.wchan r = _ from hsleep]⟩⟩ hw
    · intro _
      exact ⟨(typed s.keys).line, by simp [hgot], by simp [htext]⟩
  · have hne := hf.1 rfl
    have hpos : 0 < s.input.index := by
      rw [← Input.length_text]
      by_cases hw : Woken r s
      · obtain ⟨l, -, htext⟩ := I.ready hw
        rw [htext, List.length_append]
        have := List.length_pos_of_ne_nil hne
        omega
      · rw [(I.edited hw).2]
        exact List.length_pos_of_ne_nil hne
    refine I.edit (f := List.dropLast) hcur ?_ (by simp) (by simp) (Input.text_erase hpos hbuf) ?_
    · have := erase_index hpos hbuf
      simp only
      omega
    · intro l
      exact List.dropLast_append_of_ne_nil hne
  · refine I.edit (f := (· ++ [c])) hcur ?_ ?_ ?_ (Input.text_put hbuf) ?_
    · have := hp.2 hc hnl hbs
      simp only [put_index hbuf]
      omega
    · simp [Typed.key_char hc hnl hbs]
    · simp [Typed.key_char hc hnl hbs]
    · intro l
      simp

theorem LineInv.next [DecidableEq P] (I : LineInv r s) {size : ℕ}
    (hf : Fits r s (.exec r size)) (hp : Prompt r s (.exec r size)) :
    LineInv r (s.next r size) := by
  unfold ConSt.next
  split
  case h_1 hpc =>
      have hw : ¬ Woken r s := by rintro ⟨_, h | ⟨h, -⟩⟩ <;> rw [hpc] at h <;> cases h
      refine ⟨I.cursor_lt, I.index_lt, ?_, ?_, fun _ => I.edited hw, ?_⟩
      · intro size' h
        obtain rfl : size = size' := by simpa [ConSt.goto] using h
        exact hf.2
      · intro ha
        obtain ⟨size', h⟩ := I.asleep ha
        rw [hpc] at h; cases h
      · rintro ⟨size', h⟩
        simp [ConSt.goto] at h
  case h_2 size' hpc =>
      have hw : ¬ Woken r s := by rintro ⟨_, h | ⟨h, -⟩⟩ <;> rw [hpc] at h <;> cases h
      refine ⟨I.cursor_lt, I.index_lt, ?_, ?_, fun _ => I.edited hw, ?_⟩
      · intro size'' h
        obtain rfl : size' = size'' := by simpa [ConSt.goto] using h
        exact I.size_le size' (.inl hpc)
      · intro _
        exact ⟨size', by simp [ConSt.goto]⟩
      · rintro ⟨size'', h⟩
        simp [ConSt.goto] at h
  case h_3 size' hpc =>
      split
      · exact I
      · rename_i hnone
        have hwchan : s.tab.wchan r = none := by simpa using hnone
        have hw : Woken r s := ⟨size', .inr ⟨hpc, hwchan⟩⟩
        refine ⟨I.cursor_lt, I.index_lt, ?_, ?_, ?_, fun _ => I.ready hw⟩
        · intro size'' h
          obtain rfl : size' = size'' := by simpa [ConSt.goto] using h
          exact I.size_le size' (.inr (.inl hpc))
        · intro ha
          rw [ConSt.Asleep] at ha
          exact absurd (hwchan.symm.trans ha) (by simp)
        · intro h
          exact absurd ⟨size', .inl (by simp [ConSt.goto])⟩ h
  case h_4 size' hpc =>
      -- The copy: the buffer is the line that woke the reader.
      obtain ⟨line, hlines, htext⟩ := I.ready ⟨size', .inl hpc⟩
      have hempty : (typed s.keys).line = [] := hp (by rw [hpc]; rfl)
      have hcopied : s.input.copied size' = line := by
        rw [Input.copied_eq (Nat.lt_of_lt_of_le I.index_lt (Nat.sub_le _ _))
          (I.size_le size' (.inr (.inr hpc))), htext, hempty, List.append_nil]
      refine ⟨I.cursor_lt, show 0 < INPUT_BUF - 1 by decide, ?_, ?_, ?_, ?_⟩
      · intro size'' h
        simp [ConSt.goto] at h
      · intro ha
        obtain ⟨size'', h⟩ := I.asleep ha
        rw [hpc] at h; cases h
      · intro _
        exact ⟨by simp [hcopied, ConSt.goto, hlines], by simp [Input.text, ConSt.goto, hempty]⟩
      · rintro ⟨size'', h⟩
        simp [ConSt.goto] at h

theorem LineInv.step [DecidableEq P] (I : LineInv r s) {e : ConEvent P} (hf : Fits r s e)
    (hp : Prompt r s e) (h : (conMachine P).step s e = some t) : LineInv r t := by
  cases e with
  | key c =>
      obtain ⟨u, hu, rfl⟩ := Option.map_eq_some_iff.mp h
      exact I.key hf hp hu
  | exec p size =>
      obtain rfl : p = r := hf.1
      rw [← Option.some.inj h]
      exact I.next hf hp
  | print c =>
      obtain ⟨cursor, hput, rfl⟩ := Option.map_eq_some_iff.mp h
      obtain ⟨cursor', hput', hlt⟩ := putchar_lt I.cursor_lt c
      obtain rfl : cursor' = cursor := Option.some.inj (hput'.symm.trans hput)
      exact ⟨hlt, I.index_lt, I.size_le, I.asleep, I.edited, I.ready⟩

/-- **Line delivery.**  In a run in which every newline comes while the reader sleeps and
the reader copies a line before the next one has begun, the reader is given the lines
that have been typed. -/
theorem delivered_of_prompt [DecidableEq P]
    (h : (conMachine P).Path (fun s e => Fits r s e ∧ Prompt r s e) .init t) :
    Delivered r t := by
  suffices key : LineInv r t from key.delivered
  exact h.invariant (LineInv.init r) fun s e s' I hok hs => I.step hok.1 hok.2 hs

/-- `"a"` is typed and read, and `"b"` after it. -/
theorem delivered_a_b : ∃ t : ConSt Unit, Delivered () t ∧ t.got () = [[97], [98]] := by
  obtain ⟨t, ht, hgot⟩ := (conMachine Unit).exists_path_of_run
    (fun s e => Fits () s e ∧ Prompt () s e) .init
    [.exec () 128, .exec () 128, .key 97, .key newline, .exec () 128, .exec () 128,
      .exec () 128, .exec () 128, .key 98, .key newline, .exec () 128, .exec () 128]
    (fun t => t.got () = [[97], [98]]) (by decide +kernel)
  exact ⟨t, delivered_of_prompt ht, hgot⟩

/-- Two runs that go wrong: `"a"` is complete before the reader sleeps and it sleeps
nevertheless; `"a"` is complete, but a `'b'` arrives before the copy. -/
theorem not_delivered :
    (∃ t : ConSt Unit, (conMachine Unit).Path (Fits ()) .init t ∧ ¬ Delivered () t ∧
        t.Asleep () ∧ t.got () = [] ∧ (typed t.keys).lines = [[97]]) ∧
      ∃ t : ConSt Unit, (conMachine Unit).Path (Fits ()) .init t ∧ ¬ Delivered () t ∧
        t.got () = [[97, 98]] ∧ (typed t.keys).lines = [[97]] := by
  constructor
  · obtain ⟨t, ht, hp, hgot, hlines⟩ := (conMachine Unit).exists_path_of_run (Fits ()) .init
      [.key 97, .key newline, .exec () 128, .exec () 128]
      (fun t => t.Asleep () ∧ t.got () = [] ∧ (typed t.keys).lines = [[97]]) (by decide +kernel)
    refine ⟨t, ht, fun D => ?_, hp, hgot, hlines⟩
    have hunread := D.unread hp
    rw [hgot, hlines] at hunread
    cases hunread
  · obtain ⟨t, ht, hgot, hlines⟩ := (conMachine Unit).exists_path_of_run (Fits ()) .init
      [.exec () 128, .exec () 128, .key 97, .key newline, .key 98, .exec () 128, .exec () 128]
      (fun t => t.got () = [[97, 98]] ∧ (typed t.keys).lines = [[97]]) (by decide +kernel)
    refine ⟨t, ht, fun D => ?_, hgot, hlines⟩
    have hprefix := D.got_prefix
    rw [hgot, hlines] at hprefix
    exact absurd hprefix (by decide)

end Lines
end Mixv6.Dev
