/-
First-occurrence search in a list.

`find s pat pos` scans from offset `pos` and stops at the first place where `pat`
starts, which is what a string library's forward search computes.  The scan is a
recursion over suffixes carrying an offset; everything above it wants the
declarative reading instead, where an occurrence is a way of cutting the text as
`before ++ pat ++ after`.  `find_eq_some_iff` and `find_eq_none_iff` are that
reading, and nothing outside this file unfolds the scan.
-/
import Mathlib.Data.List.Infix

namespace Lib

variable {α : Type} [DecidableEq α]

/-- The first offset where `pat` starts, the list at hand beginning at offset `i`. -/
def findFrom (pat : List α) : List α → Nat → Option Nat
  | [], i => if pat.isPrefixOf [] then some i else none
  | c :: cs, i => if pat.isPrefixOf (c :: cs) then some i else findFrom pat cs (i + 1)

/-- The first occurrence of `pat` in `s` that starts at or after `pos`. -/
def find (s pat : List α) (pos : Nat) : Option Nat :=
  if pos ≤ s.length then findFrom pat (s.drop pos) pos else none

omit [DecidableEq α] in
/-- `pat` stands in `s` with exactly `i` elements before it. -/
def OccursAt (pat s : List α) (i : Nat) : Prop :=
  ∃ before after, s = before ++ pat ++ after ∧ before.length = i

omit [DecidableEq α] in
theorem occursAt_iff_prefix_drop {pat s : List α} {i : Nat} (hi : i ≤ s.length) :
    OccursAt pat s i ↔ pat <+: s.drop i := by
  refine ⟨fun h => ?_, fun h => ?_⟩
  · obtain ⟨before, after, rfl, rfl⟩ := h
    exact ⟨after, by simp⟩
  · obtain ⟨after, hafter⟩ := h
    refine ⟨s.take i, after, ?_, List.length_take_of_le hi⟩
    rw [List.append_assoc, hafter, List.take_append_drop]

omit [DecidableEq α] in
theorem OccursAt.add_length_le {pat s : List α} {i : Nat} (h : OccursAt pat s i) :
    i + pat.length ≤ s.length := by
  obtain ⟨before, after, rfl, rfl⟩ := h
  simp only [List.length_append]
  omega

omit [DecidableEq α] in
theorem OccursAt.getElem? {pat s : List α} {i k : Nat} (h : OccursAt pat s i)
    (hk : k < pat.length) : s[i + k]? = pat[k]? := by
  obtain ⟨before, after, rfl, rfl⟩ := h
  rw [List.append_assoc, List.getElem?_append_right (Nat.le_add_right _ _),
    Nat.add_sub_cancel_left, List.getElem?_append_left hk]

omit [DecidableEq α] in
/-- Where two patterns overlap, the later one starts inside the earlier one. -/
theorem OccursAt.overlap {pat pat' s : List α} {i j : Nat} (h : OccursAt pat s i)
    (h' : OccursAt pat' s j) (hne : pat' ≠ []) (hij : i ≤ j) (hj : j < i + pat.length) :
    pat[j - i]? = pat'[0]? := by
  have hfirst : s[i + (j - i)]? = pat[j - i]? := h.getElem? (by omega)
  have hsecond : s[j + 0]? = pat'[0]? := h'.getElem? (List.length_pos_of_ne_nil hne)
  rw [← hfirst, ← hsecond, show i + (j - i) = j + 0 by omega]

omit [DecidableEq α] in
theorem occursAt_drop {pat s : List α} {k i : Nat} (h : OccursAt pat s (k + i)) :
    OccursAt pat (s.drop k) i := by
  obtain ⟨before, after, rfl, hlen⟩ := h
  refine ⟨before.drop k, after, ?_, by rw [List.length_drop]; omega⟩
  rw [List.append_assoc, List.append_assoc, List.drop_append_of_le_length (by omega)]

omit [DecidableEq α] in
/-- An element the pattern does not end in neither makes nor breaks an occurrence. -/
theorem occursAt_concat_iff {pat s : List α} {c : α} {i : Nat} (hne : pat ≠ [])
    (hlast : pat.getLast? ≠ some c) : OccursAt pat (s ++ [c]) i ↔ OccursAt pat s i := by
  refine ⟨fun h => ?_, fun h => ?_⟩
  · obtain ⟨before, after, heq, hlen⟩ := h
    rcases List.eq_nil_or_concat after with rfl | ⟨init, x, rfl⟩
    · -- the pattern would end the text, but the text ends in `c`
      exfalso
      apply hlast
      rw [← List.getLast?_append_of_ne_nil before hne, ← List.append_nil (before ++ pat), ← heq]
      simp
    · rw [List.concat_eq_append, ← List.append_assoc] at heq
      exact ⟨before, init, (List.append_inj' heq rfl).1, hlen⟩
  · obtain ⟨before, after, rfl, hlen⟩ := h
    exact ⟨before, after ++ [c], by simp, hlen⟩

omit [DecidableEq α] in
/-- An occurrence within the first `n` elements depends on nothing beyond them. -/
theorem OccursAt.of_take_eq {pat s t : List α} {n i : Nat} (hocc : OccursAt pat s i)
    (h : s.take n = t.take n) (hn : i + pat.length ≤ n) : OccursAt pat t i := by
  obtain ⟨before, after, rfl, hlen⟩ := hocc
  have hpre : before ++ pat <+: t := by
    refine List.IsPrefix.trans ?_ (List.take_prefix n t)
    rw [← h]
    exact (List.prefix_take_iff).mpr ⟨List.prefix_append _ _, by
      rw [List.length_append]
      omega⟩
  obtain ⟨rest, hrest⟩ := hpre
  exact ⟨before, rest, hrest.symm, hlen⟩

omit [DecidableEq α] in
theorem infix_iff_occursAt {pat s : List α} : pat <:+: s ↔ ∃ i, OccursAt pat s i := by
  refine ⟨fun h => ?_, fun h => ?_⟩
  · obtain ⟨before, after, heq⟩ := h
    exact ⟨before.length, before, after, heq.symm, rfl⟩
  · obtain ⟨_, before, after, heq, -⟩ := h
    exact ⟨before, after, heq.symm⟩

omit [DecidableEq α] in
/-- What occurs in a text with `n` copies of `c` after it: something of the text, or an end of it
running on into the copies. -/
theorem infix_append_replicate_iff {pat s : List α} {c : α} {n : Nat} :
    pat <:+: s ++ List.replicate n c ↔
      pat <:+: s ∨ ∃ u k, k ≤ n ∧ pat = u ++ List.replicate k c ∧ u <:+ s := by
  refine ⟨fun h => ?_, fun h => ?_⟩
  · obtain ⟨before, after, heq⟩ := h
    rcases List.append_eq_append_iff.mp heq with ⟨rest, hs, -⟩ | ⟨run, hrun, hcopies⟩
    · exact Or.inl ⟨before, rest, hs.symm⟩
    · -- the part that runs over consists of copies
      obtain ⟨hlen, hrep, -⟩ := List.append_eq_replicate_iff.mp hcopies.symm
      refine Or.inr ?_
      rcases List.append_eq_append_iff.mp hrun with ⟨u, hs, hpat⟩ | ⟨gap, -, hgap⟩
      · refine ⟨u, run.length, by omega, ?_, ⟨before, hs.symm⟩⟩
        rw [← hrep]
        exact hpat
      · have hpat : pat = List.replicate pat.length c :=
          (List.append_eq_replicate_iff.mp (hgap.symm.trans hrep)).2.2
        refine ⟨[], pat.length, ?_, hpat, List.nil_suffix⟩
        have := congrArg List.length hgap
        rw [List.length_append] at this
        omega
  · rcases h with h | ⟨u, k, hk, rfl, before, rfl⟩
    · exact h.trans (List.prefix_append s _).isInfix
    · refine ⟨before, List.replicate (n - k) c, ?_⟩
      rw [← List.append_assoc, List.append_assoc _ (List.replicate k c), List.replicate_append_replicate,
        Nat.add_sub_cancel' hk]

/-! ### What the scan finds

The offset is only a label the scan carries along, so the two statements are about
suffixes `s.drop k`: the scan succeeds at the least `k` whose suffix starts with
the pattern.
-/

private theorem findFrom_eq_some {pat : List α} :
    ∀ {s : List α} {i j : Nat}, findFrom pat s i = some j ↔
      ∃ k, k ≤ s.length ∧ j = i + k ∧ pat <+: s.drop k ∧
        ∀ k' < k, ¬ pat <+: s.drop k' := by
  intro s
  induction s with
  | nil =>
      intro i j
      simp only [findFrom, List.isPrefixOf_iff_prefix]
      refine ⟨fun h => ?_, fun h => ?_⟩
      · split at h
        · rename_i hp
          exact ⟨0, by simp, by simpa using h.symm, by simpa using hp, by simp⟩
        · simp at h
      · obtain ⟨k, hk, rfl, hp, -⟩ := h
        have hk0 : k = 0 := by simpa using hk
        subst hk0
        rw [if_pos (by simpa using hp)]
        simp
  | cons c cs ih =>
      intro i j
      simp only [findFrom, List.isPrefixOf_iff_prefix]
      by_cases hp : pat <+: c :: cs
      · rw [if_pos hp]
        refine ⟨fun h => ?_, fun h => ?_⟩
        · exact ⟨0, by simp, by simpa using h.symm, by simpa using hp, by simp⟩
        · obtain ⟨k, -, rfl, -, hmin⟩ := h
          -- a later offset cannot be the least one, the pattern starts here already
          rcases Nat.eq_zero_or_pos k with rfl | hpos
          · simp
          · exact absurd (by simpa using hp) (hmin 0 hpos)
      · rw [if_neg hp, ih]
        refine ⟨fun h => ?_, fun h => ?_⟩
        · obtain ⟨k, hk, rfl, hpre, hmin⟩ := h
          refine ⟨k + 1, by simpa using hk, by omega, by simpa using hpre, ?_⟩
          intro k' hk'
          cases k' with
          | zero => simpa using hp
          | succ k' => simpa using hmin k' (by omega)
        · obtain ⟨k, hk, rfl, hpre, hmin⟩ := h
          cases k with
          | zero => exact absurd (by simpa using hpre) hp
          | succ k =>
              refine ⟨k, by simpa using hk, by omega, by simpa using hpre, ?_⟩
              intro k' hk'
              simpa using hmin (k' + 1) (by omega)

private theorem findFrom_eq_none {pat : List α} :
    ∀ {s : List α} {i : Nat}, findFrom pat s i = none ↔
      ∀ k ≤ s.length, ¬ pat <+: s.drop k := by
  intro s
  induction s with
  | nil =>
      intro i
      simp only [findFrom, List.isPrefixOf_iff_prefix]
      refine ⟨fun h => ?_, fun h => ?_⟩
      · intro k _ hp
        rw [if_pos (by simpa using hp)] at h
        simp at h
      · rw [if_neg (by simpa using h 0 (by simp))]
  | cons c cs ih =>
      intro i
      simp only [findFrom, List.isPrefixOf_iff_prefix]
      by_cases hp : pat <+: c :: cs
      · rw [if_pos hp]
        simp only [reduceCtorEq, false_iff, not_forall, not_not]
        exact ⟨0, by simp, by simpa using hp⟩
      · rw [if_neg hp, ih]
        refine ⟨fun h => ?_, fun h => ?_⟩
        · intro k hk
          cases k with
          | zero => simpa using hp
          | succ k => simpa using h k (by simpa using hk)
        · intro k hk
          simpa using h (k + 1) (by simpa using hk)

/-- **The search returns the least occurrence at or after `pos`.** -/
theorem find_eq_some_iff {s pat : List α} {pos i : Nat} :
    find s pat pos = some i ↔
      pos ≤ i ∧ OccursAt pat s i ∧ ∀ j, pos ≤ j → OccursAt pat s j → i ≤ j := by
  unfold find
  refine ⟨fun h => ?_, fun h => ?_⟩
  · split at h
    · rename_i hpos
      obtain ⟨k, hk, rfl, hpre, hmin⟩ := findFrom_eq_some.mp h
      rw [List.length_drop] at hk
      rw [List.drop_drop] at hpre
      refine ⟨by omega, (occursAt_iff_prefix_drop (by omega)).mpr hpre, ?_⟩
      intro j hj hocc
      by_contra hlt
      have hjlen := hocc.add_length_le
      refine hmin (j - pos) (by omega) ?_
      rw [List.drop_drop, show pos + (j - pos) = j by omega]
      exact (occursAt_iff_prefix_drop (by omega)).mp hocc
    · simp at h
  · obtain ⟨hpos, hocc, hmin⟩ := h
    have hlen := hocc.add_length_le
    rw [if_pos (by omega)]
    refine findFrom_eq_some.mpr ⟨i - pos, by rw [List.length_drop]; omega, by omega, ?_, ?_⟩
    · rw [List.drop_drop, show pos + (i - pos) = i by omega]
      exact (occursAt_iff_prefix_drop (by omega)).mp hocc
    · intro k hk hpre
      rw [List.drop_drop] at hpre
      have := hmin (pos + k) (by omega) ((occursAt_iff_prefix_drop (by omega)).mpr hpre)
      omega

/-- **The search fails exactly when there is no occurrence at or after `pos`.** -/
theorem find_eq_none_iff {s pat : List α} {pos : Nat} :
    find s pat pos = none ↔ ∀ j, pos ≤ j → ¬ OccursAt pat s j := by
  unfold find
  refine ⟨fun h => ?_, fun h => ?_⟩
  · intro j hj hocc
    have hlen := hocc.add_length_le
    rw [if_pos (by omega)] at h
    refine findFrom_eq_none.mp h (j - pos) (by rw [List.length_drop]; omega) ?_
    rw [List.drop_drop, show pos + (j - pos) = j by omega]
    exact (occursAt_iff_prefix_drop (by omega)).mp hocc
  · split
    · rename_i hpos
      refine findFrom_eq_none.mpr ?_
      intro k hk hpre
      rw [List.length_drop] at hk
      rw [List.drop_drop] at hpre
      exact h (pos + k) (by omega) ((occursAt_iff_prefix_drop (by omega)).mpr hpre)
    · rfl

theorem find_zero_eq_none_iff {s pat : List α} : find s pat 0 = none ↔ ¬ pat <:+: s := by
  rw [find_eq_none_iff, infix_iff_occursAt, not_exists]
  exact ⟨fun h j => h j (Nat.zero_le j), fun h j _ => h j⟩

end Lib
