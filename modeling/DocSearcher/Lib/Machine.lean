/-
Systems that take labelled steps.

A system is a step relation `step s i t`: from state `s`, by the step with label `i`,
to state `t`.  A run is a list of labels taken in turn.  With several parties the
label says whose step it was, so a list of labels is an interleaving and a statement
about every run is one about every interleaving.

Two rules cover what a development proves of runs.  A property of the state and of the
labels so far that each step keeps holds at the end of a run, which is how steps are
counted and logs compared (`Run.history`).  And a system whose steps another can match,
one by one, has only runs the other has too (`Simulation.run`).

Which step comes next is often not for the system to say but for a scheduler, a network
or a user.  Whoever it is, is an `Environment`: it may remember what has happened and
look at the state, and it decides what may happen next.  What holds of every run of the
system holds in every environment; what needs a step to be taken needs an environment
that lets it be taken.
-/
import Mathlib.Data.List.Basic

namespace Lib

variable {σ τ ι : Type}

/-- From the first state to the last by steps with these labels. -/
inductive Run (step : σ → ι → σ → Prop) : σ → List ι → σ → Prop
  | nil (s : σ) : Run step s [] s
  | cons {s t u : σ} {i : ι} {labels : List ι} (head : step s i t) (tail : Run step t labels u) :
      Run step s (i :: labels) u

namespace Run

variable {step : σ → ι → σ → Prop} {s t u : σ} {labels more : List ι}

theorem append (h : Run step s labels t) (h' : Run step t more u) :
    Run step s (labels ++ more) u := by
  induction h with
  | nil s => exact h'
  | cons head _ ih => exact Run.cons head (ih h')

/-- A run can be cut anywhere. -/
theorem split (h : Run step s (labels ++ more) u) :
    ∃ t, Run step s labels t ∧ Run step t more u := by
  induction labels generalizing s with
  | nil => exact ⟨s, Run.nil s, h⟩
  | cons i labels ih =>
      cases h with
      | cons head tail =>
          obtain ⟨t, hfirst, hrest⟩ := ih tail
          exact ⟨t, Run.cons head hfirst, hrest⟩

/--
**A property of the state and the labels so far that every step keeps holds at the end
of every run.**
-/
theorem history {P : List ι → σ → Prop}
    (hstep : ∀ past s i t, step s i t → P past s → P (past ++ [i]) t)
    (h : Run step s labels t) : ∀ {past : List ι}, P past s → P (past ++ labels) t := by
  induction h with
  | nil s =>
      intro past hs
      rw [List.append_nil]
      exact hs
  | cons head _ ih =>
      intro past hs
      rw [← List.singleton_append, ← List.append_assoc]
      exact ih (hstep _ _ _ _ head hs)

end Run

/-- Related states stay related when the second system takes the steps of the first. -/
def Simulation (step : σ → ι → σ → Prop) (spec : τ → ι → τ → Prop) (R : σ → τ → Prop) : Prop :=
  ∀ s a i t, R s a → step s i t → ∃ b, spec a i b ∧ R t b

/-- **What can be simulated step by step can be simulated over whole runs.** -/
theorem Simulation.run {step : σ → ι → σ → Prop} {spec : τ → ι → τ → Prop} {R : σ → τ → Prop}
    (h : Simulation step spec R) {s t : σ} {labels : List ι} (hrun : Run step s labels t) :
    ∀ {a : τ}, R s a → ∃ b, Run spec a labels b ∧ R t b := by
  induction hrun with
  | nil s =>
      intro a hR
      exact ⟨a, Run.nil a, hR⟩
  | cons head _ ih =>
      intro a hR
      obtain ⟨b, hspec, hRb⟩ := h _ _ _ _ hR head
      obtain ⟨c, hrest, hRc⟩ := ih hRb
      exact ⟨c, Run.cons hspec hrest, hRc⟩

/-! ### An environment -/

/-- Whoever decides which step is taken next. -/
structure Environment (σ ι : Type) where
  State : Type
  start : State
  next : State → σ → ι → State → Prop

namespace Environment

variable (env : Environment σ ι) (step : σ → ι → σ → Prop)

/-- The steps of a system in an environment, which is a part of the state. -/
def Steps (s : env.State × σ) (i : ι) (t : env.State × σ) : Prop :=
  env.next s.1 s.2 i t.1 ∧ step s.2 i t.2

/-- Whatever happens can happen next. -/
def RefusesNothing : Prop := ∀ e s i, ∃ e', env.next e s i e'

variable {env step}

/-- What the system does in an environment, it can do. -/
theorem run_system {s t : env.State × σ} {labels : List ι} (h : Run (env.Steps step) s labels t) :
    Run step s.2 labels t.2 := by
  induction h with
  | nil s => exact Run.nil s.2
  | cons head _ ih => exact Run.cons head.2 ih

/-- What the system can do, it can do in an environment that refuses nothing. -/
theorem RefusesNothing.run (henv : env.RefusesNothing) {s t : σ} {labels : List ι}
    (h : Run step s labels t) : ∀ e, ∃ e', Run (env.Steps step) (e, s) labels (e', t) := by
  induction h with
  | nil s =>
      intro e
      exact ⟨e, Run.nil (e, s)⟩
  | @cons s _ _ i _ head _ ih =>
      intro e
      obtain ⟨e', hnext⟩ := henv e s i
      obtain ⟨e'', htail⟩ := ih e'
      exact ⟨e'', Run.cons ⟨hnext, head⟩ htail⟩

/-- The environment that lets anything happen. -/
def free (σ ι : Type) : Environment σ ι := ⟨Unit, (), fun _ _ _ _ => True⟩

theorem free_refusesNothing : (free σ ι).RefusesNothing := fun _ _ _ => ⟨(), trivial⟩

end Environment

/-! ### Picking the steps of one kind out of a log -/

theorem filterMap_concat_none {β : Type} (f : ι → Option β) (past : List ι) {i : ι}
    (h : f i = none) : (past ++ [i]).filterMap f = past.filterMap f := by
  rw [List.filterMap_append, List.filterMap_cons_none h]
  exact List.append_nil _

theorem filterMap_concat_some {β : Type} (f : ι → Option β) (past : List ι) {i : ι} {b : β}
    (h : f i = some b) : (past ++ [i]).filterMap f = past.filterMap f ++ [b] := by
  rw [List.filterMap_append, List.filterMap_cons_some h]
  rfl

/-! ### Parties kept in a list -/

/-- A step of one party is not seen by a function its change does not touch. -/
theorem map_set_of_eq {α β : Type} {f : α → β} {parties : List α} {k : Nat} {old new : α}
    (hk : parties[k]? = some old) (h : f new = f old) :
    (parties.set k new).map f = parties.map f := by
  refine List.ext_getElem? fun j => ?_
  rw [List.map_set, List.getElem?_set, List.getElem?_map]
  by_cases hj : k = j
  · subst hj
    rw [if_pos rfl, List.length_map, if_pos (List.getElem?_eq_some_iff.mp hk).1, hk, h]
    rfl
  · rw [if_neg hj]

end Lib
