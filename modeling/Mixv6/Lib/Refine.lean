import Mixv6.Lib.Machine
import Mathlib.Data.List.Forall2

/-!
# Refinement

A machine refines another one under a map of its states: every step that is allowed is a step of
the other one, and its event stands for the event of that step.  A run is then a run of the other
machine, event by event.

The other machine is often this one: a family of private cells, each of them owned.  A cell is
changed by its owner, copied to a cell that is free, or dropped; nobody else gets to it.

## Main definitions

* `Machine.Trace` — a run with its events.
* `Machine.Refines`, `Refines.trace` — runs go over, with their events.
* `cells`, `cells_frame` — private cells.
-/

namespace Mixv6.Lib

namespace Machine
variable {σ τ ε δ : Type} {M : Machine σ ε} {A : Machine τ δ} {ok : σ → ε → Prop} {s t u : σ}
  {es fs : List ε}

/-- The run of some events, every one of them in a state that allows it. -/
inductive Trace (M : Machine σ ε) (ok : σ → ε → Prop) (s : σ) : List ε → σ → Prop
  | nil : Trace M ok s [] s
  | snoc {es : List ε} {t u : σ} (e : ε) : Trace M ok s es t → ok t e → M.step t e = some u →
      Trace M ok s (es ++ [e]) u

theorem Trace.path (h : M.Trace ok s es t) : M.Path ok s t := by
  induction h with
  | nil => exact .refl
  | snoc e _ hok hstep ih => exact ih.snoc e hok hstep

/-- The run of one event is a step. -/
theorem Trace.step_eq {e : ε} (h : M.Trace ok s [e] t) : M.step s e = some t := by
  have hnil : ∀ {es : List ε} {u : σ}, M.Trace ok s es u → es = [] → u = s := by
    intro es u hu hes
    cases hu with
    | nil => rfl
    | snoc => simp at hes
  generalize hes : [e] = es at h
  cases h with
  | nil => cases hes
  | @snoc es u _ e' hs hok hstep =>
      obtain ⟨rfl, heq⟩ | ⟨-, hcon⟩ := List.append_eq_singleton_iff.mp hes.symm
      · obtain rfl := List.singleton_inj.mp heq
        rwa [hnil hs rfl] at hstep
      · cases hcon

/-- `M` refines `A` under `f`, from states with the invariant `I` on; `Means e d` says that the
event `e` may stand for `d`. -/
def Refines (M : Machine σ ε) (ok : σ → ε → Prop) (I : σ → Prop) (A : Machine τ δ)
    (Means : ε → δ → Prop) (f : σ → τ) : Prop :=
  ∀ s e t, I s → ok s e → M.step s e = some t → I t ∧ ∃ d, Means e d ∧ A.step (f s) d = some (f t)

variable {I : σ → Prop} {Means : ε → δ → Prop} {f : σ → τ}

/-- **Runs go over**, with what is known of their events. -/
theorem Refines.trace_of {ok' : σ → ε → Prop} {okA : τ → δ → Prop} (h : Refines M ok I A Means f) (hI : I s)
    (ht : M.Trace (fun s e => ok s e ∧ ok' s e) s es t)
    (hok' : ∀ s e d, I s → ok s e → ok' s e → Means e d → okA (f s) d) :
    I t ∧ ∃ ds, List.Forall₂ Means es ds ∧ A.Trace okA (f s) ds (f t) := by
  induction ht with
  | nil => exact ⟨hI, [], .nil, .nil⟩
  | snoc e _ hok hstep ih =>
      obtain ⟨hI', ds, hds, htrace⟩ := ih
      obtain ⟨hI'', d, hd, hstep'⟩ := h _ e _ hI' hok.1 hstep
      exact ⟨hI'', ds ++ [d], List.rel_append hds (.cons hd .nil),
        htrace.snoc d (hok' _ e d hI' hok.1 hok.2 hd) hstep'⟩

theorem Trace.mono {ok' : σ → ε → Prop} (h : M.Trace ok s es t) (himp : ∀ s e, ok s e → ok' s e) :
    M.Trace ok' s es t := by
  induction h with
  | nil => exact .nil
  | snoc e _ hok hstep ih => exact ih.snoc e (himp _ e hok) hstep

/-- **Runs go over.** -/
theorem Refines.trace (h : Refines M ok I A Means f) (hI : I s) (ht : M.Trace ok s es t) :
    I t ∧ ∃ ds, List.Forall₂ Means es ds ∧ A.Trace (fun _ _ => True) (f s) ds (f t) :=
  h.trace_of hI (ht.mono fun _ _ hok => ⟨hok, trivial⟩) fun _ _ _ _ _ _ _ => trivial

/-- Every event of the other run is the meaning of one of this run. -/
theorem exists_means {ds : List δ} {d : δ} (h : List.Forall₂ Means es ds) (hd : d ∈ ds) :
    ∃ e ∈ es, Means e d := by
  induction h with
  | nil => cases hd
  | cons hhead _ ih =>
      rcases List.mem_cons.mp hd with rfl | hd
      · exact ⟨_, List.mem_cons_self, hhead⟩
      · obtain ⟨e, he, hmeans⟩ := ih hd
        exact ⟨e, List.mem_cons_of_mem _ he, hmeans⟩

/-- The invariant holds along the runs. -/
theorem Refines.invariant (h : Refines M ok I A Means f) (hI : I s) (ht : M.Path ok s t) : I t :=
  ht.invariant hI fun s e t hs hok hstep => (h s e t hs hok hstep).1

end Machine

/-! ## Private cells -/

/-- What happens to the cells. -/
inductive CellOp (ι α : Type)
  /-- The owner of cell `i` changes it. -/
  | change (i : ι) (f : α → α)
  /-- Cell `j`, which is free, becomes a copy of cell `i`. -/
  | copy (i j : ι)
  /-- Cell `i` becomes free. -/
  | drop (i : ι)
  | rest

variable {ι α : Type} [DecidableEq ι]

/-- The owner of cell `i` changes it, or gives it up. -/
def CellOp.Of (i : ι) : CellOp ι α → Prop
  | .change j _ => j = i
  | .drop j => j = i
  | _ => False

/-- Private cells; the free ones have no content. -/
def cells (ι α : Type) [DecidableEq ι] : Machine (ι → Option α) (CellOp ι α) where
  step s
    | .change i f => (s i).map fun a => Function.update s i (some (f a))
    | .copy i j => (s i).bind fun a => if s j = none then some (Function.update s j (some a)) else none
    | .drop i => (s i).map fun _ => Function.update s i none
    | .rest => some s

variable {s t : ι → Option α} {d : CellOp ι α} {ds : List (CellOp ι α)} {i : ι} {a : α}

/-- Nobody but the owner gets to a cell. -/
theorem cells_step (h : (cells ι α).step s d = some t) (hi : s i = some a) (hd : ¬ d.Of i) :
    t i = some a := by
  cases d with
  | change j f =>
      obtain ⟨b, -, rfl⟩ := Option.map_eq_some_iff.mp h
      have hne : i ≠ j := fun heq => hd heq.symm
      rw [Function.update_of_ne hne, hi]
  | copy j k =>
      obtain ⟨b, -, hk⟩ := Option.bind_eq_some_iff.mp h
      simp only [Option.ite_none_right_eq_some, Option.some.injEq] at hk
      obtain ⟨hnone, rfl⟩ := hk
      have hne : i ≠ k := by
        rintro rfl
        rw [hnone] at hi
        cases hi
      rw [Function.update_of_ne hne, hi]
  | drop j =>
      obtain ⟨b, -, rfl⟩ := Option.map_eq_some_iff.mp h
      have hne : i ≠ j := fun heq => hd heq.symm
      rw [Function.update_of_ne hne, hi]
  | rest =>
      obtain rfl := Option.some.inj h
      exact hi

/-- **Privacy.**  A cell stays as it is while its owner does nothing. -/
theorem cells_frame (h : (cells ι α).Trace (fun _ _ => True) s ds t) (hi : s i = some a)
    (hds : ∀ d ∈ ds, ¬ d.Of i) : t i = some a := by
  induction h with
  | nil => exact hi
  | snoc d _ _ hstep ih =>
      have hbefore := ih fun d' hd' => hds d' (List.mem_append_left _ hd')
      exact cells_step hstep hbefore (hds d (List.mem_append_right _ List.mem_cons_self))

end Mixv6.Lib
