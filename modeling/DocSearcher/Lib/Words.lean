/-
Reading a stream word by word.

`stream >> word` skips separators, takes what comes up to the next separator, and
leaves that separator in the stream.  When the stream ends first the word has been
read, but the stream is no longer good, and a reader that tests the stream before it
uses the word never uses that one.  What such a reader sees is `closedWords`: the
pieces between separators that are not empty, without the last piece.
-/
import Mathlib.Data.List.Basic

namespace Lib

variable {α : Type} (sep : α → Bool)

/-- The word read, and what is left of the stream unless its end was met. -/
def extract (input : List α) : List α × Option (List α) :=
  let input := input.dropWhile sep
  let rest := input.dropWhile fun c => !sep c
  (input.takeWhile fun c => !sep c, if rest.isEmpty then none else some rest)

/-- The words that have a separator after them. -/
def closedWords (input : List α) : List (List α) :=
  (input.splitOnP sep).dropLast.filter fun word => !word.isEmpty

variable {sep}

theorem closedWords_open {word : List α} (h : ∀ c ∈ word, sep c = false) :
    closedWords sep word = [] := by
  unfold closedWords
  rw [List.splitOnP_eq_singleton h]
  rfl

theorem closedWords_append_cons {word : List α} {c : α} (h : ∀ c ∈ word, sep c = false)
    (hc : sep c = true) (rest : List α) :
    closedWords sep (word ++ c :: rest)
      = if word.isEmpty then closedWords sep rest else word :: closedWords sep rest := by
  have hpieces := List.splitOnP_append_cons_of_forall_mem h c hc rest
  unfold closedWords
  rw [hpieces, List.dropLast_cons_of_ne_nil (List.splitOnP_ne_nil sep rest), List.filter_cons]
  cases word.isEmpty with
  | true => rfl
  | false => rfl

theorem closedWords_cons {c : α} (hc : sep c = true) (rest : List α) :
    closedWords sep (c :: rest) = closedWords sep rest := by
  have hnil : ∀ c ∈ ([] : List α), sep c = false := by simp
  exact closedWords_append_cons hnil hc rest

theorem closedWords_dropWhile (input : List α) :
    closedWords sep (input.dropWhile sep) = closedWords sep input := by
  induction input with
  | nil => rfl
  | cons c rest ih =>
      by_cases hc : sep c = true
      · rw [List.dropWhile_cons_of_pos hc, ih, closedWords_cons hc]
      · rw [List.dropWhile_cons_of_neg hc]

/-- Where a `dropWhile` stops. -/
private theorem head_dropWhile {p : α → Bool} {input rest : List α} {c : α}
    (h : input.dropWhile p = c :: rest) : p c = false := by
  have hhead := List.head?_dropWhile_not p input
  rw [h] at hhead
  exact hhead

/--
**One extraction.**  Either the end of the stream was met, and no word of it is closed,
or the word read is the first closed one and the others are those of what is left.
-/
theorem extract_cases (input : List α) :
    ((extract sep input).2 = none ∧ closedWords sep input = []) ∨
    ∃ rest, (extract sep input).2 = some rest ∧ rest.length < input.length ∧
      closedWords sep input = (extract sep input).1 :: closedWords sep rest := by
  have hword : ∀ c ∈ (input.dropWhile sep).takeWhile (fun c => !sep c), sep c = false := by
    intro c hc
    have hall := List.all_takeWhile (p := fun c => !sep c) (l := input.dropWhile sep)
    simpa using List.all_eq_true.mp hall c hc
  have hsplit := List.takeWhile_append_dropWhile (p := fun c => !sep c) (l := input.dropWhile sep)
  have hle : (input.dropWhile sep).length ≤ input.length := (List.dropWhile_sublist sep).length_le
  unfold extract
  dsimp only
  generalize hw : (input.dropWhile sep).takeWhile (fun c => !sep c) = word at hword hsplit
  cases hrest : (input.dropWhile sep).dropWhile fun c => !sep c with
  | nil =>
      refine Or.inl ⟨rfl, ?_⟩
      rw [hrest, List.append_nil] at hsplit
      rw [← closedWords_dropWhile, ← hsplit]
      exact closedWords_open hword
  | cons c rest =>
      have hc : sep c = true := by simpa using head_dropWhile hrest
      rw [hrest] at hsplit
      -- the skipping stopped at a letter, so the word is not empty
      have hne : word ≠ [] := by
        intro hnil
        rw [hnil, List.nil_append] at hsplit
        have hstop := head_dropWhile hsplit.symm
        rw [hc] at hstop
        simp at hstop
      refine Or.inr ⟨c :: rest, rfl, ?_, ?_⟩
      · rw [← hsplit, List.length_append] at hle
        have hpos := List.length_pos_of_ne_nil hne
        omega
      · rw [← closedWords_dropWhile, ← hsplit, closedWords_append_cons hword hc,
          if_neg (by simpa using hne), closedWords_cons hc]

theorem extract_length_lt {input word rest : List α} (h : extract sep input = (word, some rest)) :
    rest.length < input.length := by
  rcases @extract_cases _ sep input with ⟨hnone, -⟩ | ⟨rest', hsome, hlt, -⟩
  · rw [h] at hnone
    simp at hnone
  · rw [h, Option.some.injEq] at hsome
    rw [hsome]
    exact hlt

end Lib
