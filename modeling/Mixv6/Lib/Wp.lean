import Mathlib.Algebra.Ring.Nat

/-!
# Weakest preconditions of programs that may fail

Programs are functions of a state that return a result and a new state, or stop with an
error.  `wp E c Q s` says that `c`, started in `s`, ends in a result and a state that satisfy
`Q`, or stops with an error that `E` admits.  Where `E` is arbitrary, `c` does not stop with
an error.

A `while` loop is an iteration with a bound on the number of turns; running into the
bound is an error of its own, so that a `wp` of a loop says that the loop ends.

## Main definitions

* `Prog`, `wp` — programs and their weakest preconditions.
* `wp_bind`, `wp_mono` — the rules for sequences.
* `zoom`, `wp_zoom` — programs on a part of the state.
* `iterate`, `wp_iterate`, `wp_iterate_partial` — loops, with an invariant, and a measure where
  they have to end.
* `wp_iterate_follow` — loops that follow a loop on a part of the state.
* `Turns`, `wp_iterate_of_turns` — loops whose turns all start in a state of some kind.
* `each`, `wp_each`, `wp_each_range` — loops over a list, and over a range.
-/

namespace Mixv6.Lib

variable {σ ε α β : Type} {E : ε → Prop}

/-- A program over the states `σ` that may stop with an error in `ε`. -/
abbrev Prog (σ ε α : Type) := StateT σ (Except ε) α

/-- If the program ends then `Q` holds, and if it stops with an error then `E` does. -/
def wp (E : ε → Prop) (c : Prog σ ε α) (Q : α → σ → Prop) (s : σ) : Prop :=
  match c s with
  | .ok (r, t) => Q r t
  | .error e => E e

theorem wp_iff {c : Prog σ ε α} {Q : α → σ → Prop} {s : σ} :
    wp E c Q s ↔ (∃ r t, c s = .ok (r, t) ∧ Q r t) ∨ ∃ e, c s = .error e ∧ E e := by
  unfold wp
  rcases c s with e | ⟨r, t⟩
  · simp
  · constructor
    · exact fun hQ => .inl ⟨r, t, rfl, hQ⟩
    · rintro (⟨_, _, ⟨⟩, hQ⟩ | ⟨e, ⟨⟩, -⟩)
      exact hQ

/-- The program ends. -/
theorem wp_total {c : Prog σ ε α} {Q : α → σ → Prop} {s : σ} :
    wp (fun _ => False) c Q s ↔ ∃ r t, c s = .ok (r, t) ∧ Q r t := by
  simp [wp_iff]

theorem wp_of_total {c : Prog σ ε α} {Q : α → σ → Prop} {s : σ} (h : wp (fun _ => False) c Q s) :
    wp E c Q s :=
  wp_iff.mpr (.inl (wp_total.mp h))

/-- What holds after a run that has ended. -/
theorem wp_ok {c : Prog σ ε α} {Q : α → σ → Prop} {s t : σ} {r : α} (h : wp E c Q s)
    (hc : c s = .ok (r, t)) : Q r t := by
  rcases wp_iff.mp h with ⟨_, _, hok, hQ⟩ | ⟨_, herr, -⟩
  · rw [hc] at hok
    cases hok
    exact hQ
  · rw [hc] at herr
    cases herr

/-- What holds of an error. -/
theorem wp_error {c : Prog σ ε α} {Q : α → σ → Prop} {s : σ} {e : ε} (h : wp E c Q s)
    (hc : c s = .error e) : E e := by
  rcases wp_iff.mp h with ⟨_, _, hok, -⟩ | ⟨_, herr, hE⟩
  · rw [hc] at hok
    cases hok
  · rw [hc] at herr
    cases herr
    exact hE

/-- A run can be evaluated, together with a test on its result. -/
theorem exists_run (c : Prog σ ε α) (s : σ) (test : α → σ → Prop) [∀ r t, Decidable (test r t)]
    (h : (c s).toOption.any (fun x => decide (test x.1 x.2)) = true) :
    ∃ r t, c s = .ok (r, t) ∧ test r t := by
  rcases hc : c s with e | ⟨r, t⟩
  · rw [hc] at h
    cases h
  · rw [hc] at h
    exact ⟨r, t, rfl, of_decide_eq_true h⟩

/-- A postcondition can be weakened. -/
theorem wp_mono {c : Prog σ ε α} {Q R : α → σ → Prop} {s : σ} (h : wp E c Q s)
    (himp : ∀ r t, Q r t → R r t) : wp E c R s := by
  unfold wp at h ⊢
  split at h
  next => exact himp _ _ h
  next => exact h

/-- Two postconditions. -/
theorem wp_and {c : Prog σ ε α} {Q R : α → σ → Prop} {s : σ} (hQ : wp E c Q s) (hR : wp E c R s) :
    wp E c (fun r t => Q r t ∧ R r t) s := by
  rcases hc : c s with e | ⟨r, t⟩
  · simpa only [wp, hc] using hQ
  · simp only [wp, hc] at hQ hR ⊢
    exact ⟨hQ, hR⟩

variable {Q : β → σ → Prop} {s : σ}

@[simp] theorem wp_pure {R : α → σ → Prop} {a : α} :
    wp E (pure a : Prog σ ε α) R s ↔ R a s := Iff.rfl

@[simp] theorem wp_throw {R : α → σ → Prop} {e : ε} :
    wp E (throw e : Prog σ ε α) R s ↔ E e := Iff.rfl

@[simp] theorem wp_get {R : σ → σ → Prop} : wp E (get : Prog σ ε σ) R s ↔ R s s := Iff.rfl

@[simp] theorem wp_set {R : PUnit → σ → Prop} {t : σ} :
    wp E (set t : Prog σ ε PUnit) R s ↔ R ⟨⟩ t := Iff.rfl

@[simp] theorem wp_modify {R : PUnit → σ → Prop} {f : σ → σ} :
    wp E (modify f : Prog σ ε PUnit) R s ↔ R ⟨⟩ (f s) := Iff.rfl

/-- A sequence: the rest runs in the state the first part ends in. -/
@[simp] theorem wp_bind {c : Prog σ ε α} {f : α → Prog σ ε β} :
    wp E (c >>= f) Q s ↔ wp E c (fun a t => wp E (f a) Q t) s := by
  have h : (c >>= f) s = (c s >>= fun x => f x.1 x.2) := rfl
  unfold wp
  rw [h]
  cases c s <;> rfl

@[simp] theorem wp_map {c : Prog σ ε α} {f : α → β} :
    wp E (f <$> c) Q s ↔ wp E c (fun a t => Q (f a) t) s := by
  have h : (f <$> c) s = (c s >>= fun x => pure (f x.1, x.2)) := rfl
  unfold wp
  rw [h]
  cases c s <;> rfl

@[simp] theorem wp_ite {p : Prop} [Decidable p] {c d : Prog σ ε β} :
    wp E (if p then c else d) Q s ↔ if p then wp E c Q s else wp E d Q s := by
  split <;> rfl

/-- Use what is known about the first part of a sequence. -/
theorem wp_seq {c : Prog σ ε α} {f : α → Prog σ ε β} {R : α → σ → Prop} (h : wp E c R s)
    (himp : ∀ a t, R a t → wp E (f a) Q t) : wp E (c >>= f) Q s :=
  wp_bind.mpr (wp_mono h himp)

/-- A program that works on a part of the state.  `put` is the state with a new part. -/
def zoom {τ δ : Type} (part : σ → τ) (put : σ → τ → σ) (err : δ → ε) (c : Prog τ δ α) : Prog σ ε α :=
  fun s => match c (part s) with
    | .ok (a, t) => .ok (a, put s t)
    | .error e => .error (err e)

theorem wp_zoom {τ δ : Type} {part : σ → τ} {put : σ → τ → σ} {err : δ → ε} {c : Prog τ δ α}
    {R : α → σ → Prop} : wp E (zoom part put err c) R s ↔
      wp (fun e => E (err e)) c (fun a t => R a (put s t)) (part s) := by
  unfold wp zoom
  cases c (part s) <;> rfl

/-- A program that stops with no error but those that are admitted. -/
theorem wp_trivial {c : Prog σ ε β} (h : ∀ e, E e) : wp E c (fun _ _ => True) s := by
  unfold wp
  split
  next => trivial
  next e _ => exact h e

/-- The errors and the results apart. -/
theorem wp_split {c : Prog σ ε β} : wp E c Q s ↔
    wp E c (fun _ _ => True) s ∧ ∀ r t, c s = .ok (r, t) → Q r t := by
  unfold wp
  rcases c s with e | ⟨r, t⟩ <;> simp

/-- The second part of a program whose first part has ended. -/
theorem wp_bind_ok {c : Prog σ ε α} {k : α → Prog σ ε β} {a : α} {t : σ} (hc : c s = .ok (a, t)) :
    wp E (c >>= k) Q s ↔ wp E (k a) Q t := by
  rw [wp_bind]
  constructor
  · intro h
    have hrest := wp_ok h hc
    exact hrest
  · exact fun h => wp_iff.mpr (.inl ⟨a, t, hc, h⟩)

/-- A postcondition that always holds. -/
theorem wp_of_forall {c : Prog σ ε β} (hQ : ∀ r t, Q r t) :
    wp E c Q s ↔ wp E c (fun _ _ => True) s := by
  rw [wp_split, and_iff_left fun r t _ => hQ r t]

/- Only the rules above look inside `wp`; nothing else may run a program by unfolding it. -/
attribute [irreducible] wp

/-- The postcondition may speak of the run itself. -/
theorem wp_run {c : Prog σ ε β} (h : wp E c Q s) : wp E c (fun r t => Q r t ∧ c s = .ok (r, t)) s := by
  rcases wp_iff.mp h with ⟨r, t, hc, hQ⟩ | ⟨e, hc, he⟩
  · exact wp_iff.mpr (.inl ⟨r, t, hc, hQ, hc⟩)
  · exact wp_iff.mpr (.inr ⟨e, hc, he⟩)

/-! ## Loops -/

/-- A loop of at most `fuel` turns.  A turn goes on with new loop variables (`inl`) or
ends the loop with a result (`inr`). -/
def iterate (outOfFuel : ε) (body : α → Prog σ ε (α ⊕ β)) : ℕ → α → Prog σ ε β
  | 0, _ => throw outOfFuel
  | fuel + 1, a => do
      match ← body a with
      | .inl a => iterate outOfFuel body fuel a
      | .inr b => pure b

/-- **Loops.**  A loop whose turns keep an invariant and bring a measure down ends, as
long as the measure is below the bound on its turns. -/
theorem wp_iterate {err : ε} {body : α → Prog σ ε (α ⊕ β)} (I : α → σ → Prop) (measure : α → ℕ)
    (hbody : ∀ a s, I a s → wp E (body a) (fun r t => match r with
      | .inl a' => I a' t ∧ measure a' < measure a
      | .inr b => Q b t) s)
    {fuel : ℕ} {a : α} (hI : I a s) (hfuel : measure a < fuel) :
    wp E (iterate err body fuel a) Q s := by
  induction fuel generalizing a s with
  | zero => omega
  | succ fuel ih =>
      refine wp_seq (hbody a s hI) fun r t hr => ?_
      cases r with
      | inl a' => exact ih hr.1 (by omega)
      | inr b => exact wp_pure.mpr hr

/-- **Loops that may run out of turns.** -/
theorem wp_iterate_partial {err : ε} {body : α → Prog σ ε (α ⊕ β)} (herr : E err)
    (I : α → σ → Prop)
    (hbody : ∀ a s, I a s → wp E (body a) (fun r t => match r with
      | .inl a' => I a' t
      | .inr b => Q b t) s)
    {fuel : ℕ} {a : α} (hI : I a s) : wp E (iterate err body fuel a) Q s := by
  induction fuel generalizing a s with
  | zero => exact wp_throw.mpr herr
  | succ fuel ih =>
      apply wp_seq (hbody a s hI)
      intro r t hr
      cases r with
      | inl a' => exact ih hr
      | inr b => exact wp_pure.mpr hr

/-- **Loops that follow a loop on a part of the state.**  `put` is the state with that part. -/
theorem wp_iterate_follow {τ δ : Type} {D : δ → Prop} (put : τ → σ) {err : ε} {err' : δ}
    (body : α → Prog σ ε (α ⊕ β)) {body' : α → Prog τ δ (α ⊕ β)} (I : α → Prop)
    (herr : D err' → E err)
    (hbody : ∀ a t R, I a → wp D (body' a) R t →
      wp E (body a) (fun r u => ∃ t', u = put t' ∧ R r t' ∧ ∀ a', r = .inl a' → I a') (put t))
    {fuel : ℕ} {a : α} {t : τ} {R : β → τ → Prop} (hI : I a)
    (h : wp D (iterate err' body' fuel a) R t) :
    wp E (iterate err body fuel a) (fun b u => ∃ t', u = put t' ∧ R b t') (put t) := by
  induction fuel generalizing a t with
  | zero => exact wp_throw.mpr (herr (wp_throw.mp h))
  | succ fuel ih =>
      rw [iterate, wp_bind] at h
      apply wp_seq (hbody a t _ hI h)
      rintro r _ ⟨t', rfl, hr, hnext⟩
      cases r with
      | inl a' => exact ih (hnext a' rfl) hr
      | inr b => exact wp_pure.mpr ⟨t', rfl, wp_pure.mp hr⟩

/-- Every turn of a loop starts in loop variables and a state that `ok` admits. -/
def Turns (ok : α → σ → Prop) (body : α → Prog σ ε (α ⊕ β)) : ℕ → α → σ → Prop
  | 0, _, _ => True
  | fuel + 1, a, s => ok a s ∧ match body a s with
      | .ok (.inl a', t) => Turns ok body fuel a' t
      | _ => True

instance decidableTurns (ok : α → σ → Prop) [∀ a s, Decidable (ok a s)]
    (body : α → Prog σ ε (α ⊕ β)) : ∀ fuel a s, Decidable (Turns ok body fuel a s)
  | 0, _, _ => .isTrue trivial
  | fuel + 1, a, s =>
      have : Decidable (match body a s with
          | .ok (.inl a', t) => Turns ok body fuel a' t
          | _ => True) := by
        split
        next a' t _ => exact decidableTurns ok body fuel a' t
        next => exact .isTrue trivial
      inferInstanceAs (Decidable (_ ∧ _))

/-- **Loops whose turns all start well.** -/
theorem wp_iterate_of_turns {err : ε} {ok : α → σ → Prop} {body : α → Prog σ ε (α ⊕ β)}
    (I : α → σ → Prop) (measure : α → ℕ)
    (hbody : ∀ a s, I a s → ok a s → wp E (body a) (fun r t => match r with
      | .inl a' => I a' t ∧ measure a' < measure a
      | .inr b => Q b t) s)
    {fuel : ℕ} {a : α} (hI : I a s) (hfuel : measure a < fuel) (hturns : Turns ok body fuel a s) :
    wp E (iterate err body fuel a) Q s := by
  induction fuel generalizing a s with
  | zero => omega
  | succ fuel ih =>
      obtain ⟨hok, hrest⟩ := hturns
      refine wp_seq (wp_run (hbody a s hI hok)) fun r t hr => ?_
      obtain ⟨hr, hrun⟩ := hr
      cases r with
      | inl a' =>
          rw [hrun] at hrest
          exact ih hr.1 (by omega) hrest
      | inr b => exact wp_pure.mpr hr

/-- The first turn of a loop. -/
theorem wp_iterate_succ {err : ε} {body : α → Prog σ ε (α ⊕ β)} {fuel : ℕ} {a : α} :
    wp E (iterate err body (fuel + 1) a) Q s ↔ wp E (body a) (fun r t => match r with
      | .inl a' => wp E (iterate err body fuel a') Q t
      | .inr b => Q b t) s := by
  rw [iterate, wp_bind]
  refine iff_of_eq (congrArg (fun R => wp E (body a) R s) ?_)
  funext r t
  cases r with
  | inl a' => rfl
  | inr b => exact propext wp_pure

/-- A loop over a list. -/
def each (body : α → Prog σ ε Unit) : List α → Prog σ ε Unit
  | [] => pure ()
  | a :: as => do
      body a
      each body as

/-- **Loops over a list**, with an invariant that names the elements still to come. -/
theorem wp_each {body : α → Prog σ ε Unit} (I : List α → σ → Prop)
    (hbody : ∀ a as s, I (a :: as) s → wp E (body a) (fun _ t => I as t) s)
    {as : List α} {Q : Unit → σ → Prop} (hI : I as s) (hQ : ∀ t, I [] t → Q () t) :
    wp E (each body as) Q s := by
  induction as generalizing s with
  | nil => exact wp_pure.mpr (hQ s hI)
  | cons a as ih => exact wp_seq (hbody a as s hI) fun _ t ht => ih ht

/-- **Loops over a range**, with an invariant that names the next number. -/
theorem wp_each_range {body : ℕ → Prog σ ε Unit} (I : ℕ → σ → Prop) {start n : ℕ}
    (hbody : ∀ j s, start ≤ j → j < start + n → I j s → wp E (body j) (fun _ t => I (j + 1) t) s)
    {Q : Unit → σ → Prop} (hI : I start s) (hQ : ∀ t, I (start + n) t → Q () t) :
    wp E (each body (List.range' start n)) Q s := by
  induction n generalizing start s with
  | zero => exact wp_pure.mpr (hQ s hI)
  | succ n ih =>
      rw [List.range'_succ]
      apply wp_seq (hbody start s (by omega) (by omega) hI)
      intro _ t ht
      apply ih (fun j u hle hlt => hbody j u (by omega) (by omega)) ht
      intro u hu
      exact hQ u (by rwa [show start + (n + 1) = start + 1 + n by omega])

end Mixv6.Lib
