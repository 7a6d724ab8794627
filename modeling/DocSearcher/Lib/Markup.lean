/-
Text with bracketed tags.

Given an opening and a closing delimiter, any list at all can be read as text with
tags in it: a tag runs from an opening delimiter to the next closing one, further
opening delimiters inside it mean nothing, and neither does a closing delimiter in
the text.  The last tag may be left open.  `Markup` is that grammar, its pieces
carrying what they must not contain.  Every list is the rendering of exactly one
`Markup` (`existsUnique_render`), so a scanner can be specified by what it makes of
the grammar and nothing is said about well-formed input.
-/
import DocSearcher.Lib.Lines

namespace Lib

variable {α : Type}

/-- A text with tags, delimited by `o` and `c`. -/
inductive Markup (o c : α) : Type
  /-- Text to the end. -/
  | text (t : List α) (ht : o ∉ t)
  /-- Text, and a tag that is never closed. -/
  | unclosed (t g : List α) (ht : o ∉ t) (hg : c ∉ g)
  /-- Text, a tag, and what follows the tag. -/
  | tag (t g : List α) (ht : o ∉ t) (hg : c ∉ g) (rest : Markup o c)

namespace Markup

variable {o c : α}

/-- The list itself. -/
def render : Markup o c → List α
  | text t _ => t
  | unclosed t g _ _ => t ++ o :: g
  | tag t g _ _ rest => t ++ o :: (g ++ c :: rest.render)

/-- The text outside the tags. -/
def outside : Markup o c → List α
  | text t _ => t
  | unclosed t _ _ _ => t
  | tag t _ _ _ rest => t ++ rest.outside

theorem notMem_outside (m : Markup o c) : o ∉ m.outside := by
  induction m with
  | text t ht => exact ht
  | unclosed t g ht hg => exact ht
  | tag t g ht hg rest ih =>
      intro hmem
      rcases List.mem_append.mp hmem with hmem | hmem
      · exact ht hmem
      · exact ih hmem

/-! ### Every list is one markup -/

theorem exists_render (s : List α) : ∃ m : Markup o c, m.render = s := by
  induction hn : s.length using Nat.strong_induction_on generalizing s with
  | _ n ih =>
      rcases cut_line o s with ho | ⟨t, after, ht, rfl⟩
      · exact ⟨text s ho, rfl⟩
      · rcases cut_line c after with hc | ⟨g, rest, hg, rfl⟩
        · exact ⟨unclosed t after ht hc, rfl⟩
        · obtain ⟨m, hm⟩ := ih rest.length
            (by simp only [List.length_append, List.length_cons] at hn; omega) rest rfl
          exact ⟨tag t g ht hg m, by simp only [render, hm]⟩

/-- The first `d` is in one place. -/
private theorem cut_inj {d : α} {s s' r r' : List α} (hs : d ∉ s) (hs' : d ∉ s')
    (h : s ++ d :: r = s' ++ d :: r') : s = s' ∧ r = r' := by
  induction s generalizing s' with
  | nil =>
      cases s' with
      | nil => exact ⟨rfl, (List.cons.inj h).2⟩
      | cons x s' => exact absurd (List.cons.inj h).1 (List.ne_of_not_mem_cons hs')
  | cons x s ih =>
      cases s' with
      | nil => exact absurd (List.cons.inj h).1.symm (List.ne_of_not_mem_cons hs)
      | cons x' s' =>
          obtain ⟨rfl, htail⟩ := List.cons.inj h
          obtain ⟨rfl, hr⟩ :=
            ih (List.not_mem_of_not_mem_cons hs) (List.not_mem_of_not_mem_cons hs') htail
          exact ⟨rfl, hr⟩

private theorem ne_append_cons {d : α} {s before after : List α} (hs : d ∉ s) :
    s ≠ before ++ d :: after := by
  intro h
  apply hs
  rw [h]
  simp

theorem render_injective {m m' : Markup o c} (h : m.render = m'.render) : m = m' := by
  induction m generalizing m' with
  | text t ht =>
      cases m' with
      | text t' ht' => simp only [show t = t' from h]
      | unclosed t' g' ht' hg' => exact absurd h (ne_append_cons ht)
      | tag t' g' ht' hg' rest' => exact absurd h (ne_append_cons ht)
  | unclosed t g ht hg =>
      cases m' with
      | text t' ht' => exact absurd h.symm (ne_append_cons ht')
      | unclosed t' g' ht' hg' =>
          obtain ⟨rfl, rfl⟩ := cut_inj ht ht' h
          rfl
      | tag t' g' ht' hg' rest' =>
          -- an unclosed tag has no closing delimiter
          exact absurd (cut_inj ht ht' h).2 (ne_append_cons hg)
  | tag t g ht hg rest ih =>
      cases m' with
      | text t' ht' => exact absurd h.symm (ne_append_cons ht')
      | unclosed t' g' ht' hg' =>
          exact absurd (cut_inj ht ht' h).2.symm (ne_append_cons hg')
      | tag t' g' ht' hg' rest' =>
          obtain ⟨rfl, hrest⟩ := cut_inj ht ht' h
          obtain ⟨rfl, hafter⟩ := cut_inj hg hg' hrest
          rw [ih hafter]

/-- **Every list is the rendering of exactly one markup.** -/
theorem existsUnique_render (s : List α) : ∃! m : Markup o c, m.render = s := by
  obtain ⟨m, hm⟩ := exists_render (o := o) (c := c) s
  refine ⟨m, hm, fun m' hm' => ?_⟩
  exact render_injective (hm'.trans hm.symm)

end Markup

end Lib
