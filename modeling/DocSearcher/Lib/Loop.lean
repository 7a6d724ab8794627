/-
Loops that may throw.

A loop over a list whose body may throw ends in one of two ways: every iteration
returned, and it is the plain loop, or it threw at the first element where the body did,
after the elements before that one had been gone through.
-/
import Mathlib.Data.List.Basic

namespace Lib

variable {α σ ε : Type} {f : σ → α → Except ε σ} {l : List α}

/-- A loop whose body returns is the loop without exceptions. -/
theorem foldlM_ok {g : σ → α → σ} (h : ∀ x ∈ l, ∀ s, f s x = .ok (g s x)) (s : σ) :
    l.foldlM f s = .ok (l.foldl g s) := by
  induction l generalizing s with
  | nil => rfl
  | cons x rest ih =>
      rw [List.foldlM_cons, h x List.mem_cons_self, List.foldl_cons]
      exact ih (fun y hy => h y (List.mem_cons_of_mem x hy)) (g s x)

/-- A loop that returns has been through every element. -/
theorem exists_ok_of_foldlM_eq_ok {s t : σ} (h : l.foldlM f s = .ok t) :
    ∀ x ∈ l, ∃ s' t', f s' x = .ok t' := by
  induction l generalizing s with
  | nil => simp
  | cons y rest ih =>
      rw [List.foldlM_cons] at h
      cases hy : f s y with
      | error e =>
          rw [hy] at h
          exact absurd h (by simp [bind, Except.bind])
      | ok s' =>
          rw [hy] at h
          exact List.forall_mem_cons.mpr ⟨⟨s, s', hy⟩, ih h⟩

/-- **A loop throws what its body threw first.** -/
theorem foldlM_eq_error_iff {s : σ} {e : ε} :
    l.foldlM f s = .error e ↔
      ∃ before x after t, l = before ++ x :: after ∧ before.foldlM f s = .ok t ∧
        f t x = .error e := by
  induction l generalizing s with
  | nil => simp [pure, Except.pure]
  | cons y rest ih =>
      rw [List.foldlM_cons]
      cases hy : f s y with
      | error e' =>
          show Except.error e' = Except.error e ↔ _
          refine ⟨fun heq => ⟨[], y, rest, s, rfl, rfl, hy.trans heq⟩, ?_⟩
          rintro ⟨before, x, after, t, hl, hbefore, hx⟩
          cases before with
          | nil =>
              obtain ⟨rfl, -⟩ := List.cons.inj hl
              obtain rfl : s = t := Except.ok.inj hbefore
              exact hy.symm.trans hx
          | cons z before =>
              obtain ⟨rfl, -⟩ := List.cons.inj hl
              rw [List.foldlM_cons, hy] at hbefore
              exact absurd hbefore (by simp [bind, Except.bind])
      | ok s' =>
          show rest.foldlM f s' = Except.error e ↔ _
          rw [ih]
          refine ⟨?_, ?_⟩
          · rintro ⟨before, x, after, t, rfl, hbefore, hx⟩
            refine ⟨y :: before, x, after, t, rfl, ?_, hx⟩
            rw [List.foldlM_cons, hy]
            exact hbefore
          · rintro ⟨before, x, after, t, hl, hbefore, hx⟩
            cases before with
            | nil =>
                obtain ⟨rfl, -⟩ := List.cons.inj hl
                obtain rfl : s = t := Except.ok.inj hbefore
                rw [hy] at hx
                simp at hx
            | cons z before =>
                obtain ⟨rfl, hrest⟩ := List.cons.inj hl
                rw [List.foldlM_cons, hy] at hbefore
                exact ⟨before, x, after, t, hrest, hbefore, hx⟩

end Lib
