/-
Reading a text line by line, and cutting a line into fields.

`getline` takes one line off a stream: everything up to the next terminator, or up
to the end when there is none, failing only on an exhausted stream.  A read loop
is `whileGetline`.  The two facts the rest of a development wants are that the loop
is a left fold over `lines` (`whileGetline_eq_foldl`), so that loop invariants
become list inductions, and how `lines` behaves under the operations that build a
file: appending, mapping, deleting lines.

All of these are proved by `line_induction`, which follows the shape a text really
has: nothing, one last unterminated line, or a terminated line and more text.
-/
import Mathlib.Data.List.Basic
import Mathlib.Data.List.Infix

namespace Lib

variable {α : Type} [DecidableEq α] (nl : α)

/-- One line off the stream: the line without its terminator, and what is left. -/
def getline : List α → Option (List α × List α)
  | [] => none
  | c :: cs =>
      if c = nl then some ([], cs)
      else
        match getline cs with
        | none => some ([c], [])
        | some (line, rest) => some (c :: line, rest)

/-- The lines of a text, terminators removed. -/
def lines : List α → List (List α)
  | [] => []
  | c :: cs =>
      if c = nl then [] :: lines cs
      else
        match lines cs with
        | [] => [[c]]
        | line :: rest => (c :: line) :: rest

/-- The lines of a text, each still carrying its terminator if it has one. -/
def chunks : List α → List (List α)
  | [] => []
  | c :: cs =>
      if c = nl then [nl] :: chunks cs
      else
        match chunks cs with
        | [] => [[c]]
        | chunk :: rest => (c :: chunk) :: rest

/-- A chunk without its terminator. -/
def chomp (chunk : List α) : List α :=
  if chunk.getLast? = some nl then chunk.dropLast else chunk

/-- The text with every line failing `p` deleted, terminator and all. -/
def keepLines (p : List α → Bool) (s : List α) : List α :=
  ((chunks nl s).filter fun chunk => p (chomp nl chunk)).flatten

/-- The text with its last line terminated. -/
def terminate (s : List α) : List α :=
  if s = [] ∨ s.getLast? = some nl then s else s ++ [nl]

/-! ### The shape of a text -/

omit [DecidableEq α] in
/-- Where an element can stand in a text that ends in `c`. -/
theorem concat_eq_append_cons_iff {s before after : List α} {x c : α} :
    s ++ [c] = before ++ x :: after ↔
      (after = [] ∧ s = before ∧ c = x) ∨ ∃ init, after = init ++ [c] ∧ s = before ++ x :: init := by
  refine ⟨fun h => ?_, fun h => ?_⟩
  · rcases List.eq_nil_or_concat after with rfl | ⟨init, y, rfl⟩
    · obtain ⟨hs, hx⟩ := List.append_inj' h rfl
      exact Or.inl ⟨rfl, hs, by simpa using hx⟩
    · rw [List.concat_eq_append, ← List.cons_append, ← List.append_assoc] at h
      obtain ⟨hs, hy⟩ := List.append_inj' h rfl
      have hc : c = y := by simpa using hy
      exact Or.inr ⟨init, by rw [hc, List.concat_eq_append], hs⟩
  · rcases h with ⟨rfl, rfl, rfl⟩ | ⟨init, rfl, rfl⟩
    · rfl
    · simp

omit [DecidableEq α] in
theorem cut_line (s : List α) :
    nl ∉ s ∨ ∃ line rest, nl ∉ line ∧ s = line ++ nl :: rest := by
  by_cases h : nl ∈ s
  · obtain ⟨line, rest, hs, hnl⟩ := List.eq_append_cons_of_mem h
    exact Or.inr ⟨line, rest, hnl, hs⟩
  · exact Or.inl h

omit [DecidableEq α] in
/-- A text is empty, or one unterminated line, or a terminated line and a text. -/
@[elab_as_elim]
theorem line_induction {motive : List α → Prop} (nil : motive [])
    (last : ∀ line, nl ∉ line → line ≠ [] → motive line)
    (cons : ∀ line rest, nl ∉ line → motive rest → motive (line ++ nl :: rest))
    (s : List α) : motive s := by
  induction hn : s.length using Nat.strong_induction_on generalizing s with
  | _ n ih =>
      rcases cut_line nl s with hnl | ⟨line, rest, hnl, rfl⟩
      · by_cases hs : s = []
        · rw [hs]; exact nil
        · exact last s hnl hs
      · refine cons line rest hnl (ih rest.length ?_ rest rfl)
        simp only [List.length_append, List.length_cons] at hn
        omega

/-! ### One line at a time

Each of `getline`, `lines` and `chunks` gets one equation per case of the
induction; nothing below unfolds them again.
-/

variable {nl}

theorem getline_last {line : List α} (h : nl ∉ line) (hne : line ≠ []) :
    getline nl line = some (line, []) := by
  induction line with
  | nil => exact absurd rfl hne
  | cons c cs ih =>
      obtain ⟨hc, hcs⟩ := not_or.mp (List.mem_cons.not.mp h)
      simp only [getline, if_neg (Ne.symm hc)]
      by_cases hnil : cs = []
      · subst hnil; rfl
      · rw [ih hcs hnil]

theorem getline_cons {line : List α} (rest : List α) (h : nl ∉ line) :
    getline nl (line ++ nl :: rest) = some (line, rest) := by
  induction line with
  | nil => simp [getline]
  | cons c cs ih =>
      obtain ⟨hc, hcs⟩ := not_or.mp (List.mem_cons.not.mp h)
      simp only [List.cons_append, getline, if_neg (Ne.symm hc)]
      rw [ih hcs]

theorem getline_length_lt {s line rest : List α} (h : getline nl s = some (line, rest)) :
    rest.length < s.length := by
  induction s using line_induction nl with
  | nil => simp [getline] at h
  | last l hl hne =>
      rw [getline_last hl hne] at h
      simp only [Option.some.injEq, Prod.mk.injEq] at h
      rw [← h.2]
      exact List.length_pos_iff.mpr hne
  | cons l r hl _ =>
      rw [getline_cons r hl] at h
      simp only [Option.some.injEq, Prod.mk.injEq] at h
      rw [← h.2, List.length_append, List.length_cons]
      omega

@[simp] theorem lines_nil : lines nl ([] : List α) = [] := rfl

theorem lines_last {line : List α} (h : nl ∉ line) (hne : line ≠ []) :
    lines nl line = [line] := by
  induction line with
  | nil => exact absurd rfl hne
  | cons c cs ih =>
      obtain ⟨hc, hcs⟩ := not_or.mp (List.mem_cons.not.mp h)
      simp only [lines, if_neg (Ne.symm hc)]
      by_cases hnil : cs = []
      · subst hnil; rfl
      · rw [ih hcs hnil]

theorem lines_cons {line : List α} (rest : List α) (h : nl ∉ line) :
    lines nl (line ++ nl :: rest) = line :: lines nl rest := by
  induction line with
  | nil => simp [lines]
  | cons c cs ih =>
      obtain ⟨hc, hcs⟩ := not_or.mp (List.mem_cons.not.mp h)
      simp only [List.cons_append, lines, if_neg (Ne.symm hc)]
      rw [ih hcs]

@[simp] theorem chunks_nil : chunks nl ([] : List α) = [] := rfl

theorem chunks_last {line : List α} (h : nl ∉ line) (hne : line ≠ []) :
    chunks nl line = [line] := by
  induction line with
  | nil => exact absurd rfl hne
  | cons c cs ih =>
      obtain ⟨hc, hcs⟩ := not_or.mp (List.mem_cons.not.mp h)
      simp only [chunks, if_neg (Ne.symm hc)]
      by_cases hnil : cs = []
      · subst hnil; rfl
      · rw [ih hcs hnil]

theorem chunks_cons {line : List α} (rest : List α) (h : nl ∉ line) :
    chunks nl (line ++ nl :: rest) = (line ++ [nl]) :: chunks nl rest := by
  induction line with
  | nil => simp [chunks]
  | cons c cs ih =>
      obtain ⟨hc, hcs⟩ := not_or.mp (List.mem_cons.not.mp h)
      simp only [List.cons_append, chunks, if_neg (Ne.symm hc)]
      rw [ih hcs]

/-! ### The read loop -/

variable {σ : Type}

/-- `while (getline(file, line)) body`, the loop state passed explicitly. -/
def whileGetline (nl : α) (body : σ → List α → σ) (st : σ) (file : List α) : σ :=
  match h : getline nl file with
  | none => st
  | some (line, rest) =>
      have : rest.length < file.length := getline_length_lt h
      whileGetline nl body (body st line) rest
termination_by file.length

private theorem whileGetline_step {nl : α} (body : σ → List α → σ) (st : σ) {file line rest : List α}
    (h : getline nl file = some (line, rest)) :
    whileGetline nl body st file = whileGetline nl body (body st line) rest := by
  rw [whileGetline]
  split
  · rename_i hnone
    rw [hnone] at h
    exact absurd h (by simp)
  · rename_i l r hsome
    rw [hsome] at h
    simp only [Option.some.injEq, Prod.mk.injEq] at h
    obtain ⟨rfl, rfl⟩ := h
    rfl

private theorem whileGetline_nil (nl : α) (body : σ → List α → σ) (st : σ) :
    whileGetline nl body st [] = st := by
  rw [whileGetline]
  split
  · rfl
  · rename_i hsome
    simp [getline] at hsome

/-- **A read loop is a left fold over the lines of the file.** -/
theorem whileGetline_eq_foldl (nl : α) (body : σ → List α → σ) (file : List α) :
    ∀ st, whileGetline nl body st file = (lines nl file).foldl body st := by
  induction file using line_induction nl with
  | nil => intro st; simp [whileGetline_nil]
  | last line h hne =>
      intro st
      rw [whileGetline_step body st (getline_last h hne), whileGetline_nil, lines_last h hne]
      rfl
  | cons line rest h ih =>
      intro st
      rw [whileGetline_step body st (getline_cons rest h), ih, lines_cons rest h,
        List.foldl_cons]

/-! ### Lines of texts built in other ways -/

theorem not_mem_of_mem_lines {s line : List α} (h : line ∈ lines nl s) : nl ∉ line := by
  induction s using line_induction nl with
  | nil => simp at h
  | last l hl hne =>
      rw [lines_last hl hne, List.mem_singleton] at h
      rw [h]; exact hl
  | cons l rest hl ih =>
      rw [lines_cons rest hl] at h
      rcases List.mem_cons.mp h with rfl | h'
      · exact hl
      · exact ih h'

/-- The text is empty or its last line is terminated. -/
def Terminated (nl : α) (s : List α) : Prop := s = [] ∨ ∃ t, s = t ++ [nl]

omit [DecidableEq α] in
private theorem terminated_tail {line rest : List α}
    (h : Terminated nl (line ++ nl :: rest)) : Terminated nl rest := by
  rcases h with h | ⟨t, ht⟩
  · simp at h
  · rcases concat_eq_append_cons_iff.mp ht.symm with ⟨hnil, -, -⟩ | ⟨init, hinit, -⟩
    · exact Or.inl hnil
    · exact Or.inr ⟨init, hinit⟩

/-- Appending to a terminated text appends the lines. -/
theorem lines_append {s : List α} (t : List α) (hs : Terminated nl s) :
    lines nl (s ++ t) = lines nl s ++ lines nl t := by
  induction s using line_induction nl with
  | nil => simp
  | last line h hne =>
      rcases hs with hs | ⟨u, hu⟩
      · exact absurd hs hne
      · exact absurd (by rw [hu]; simp) h
  | cons line rest h ih =>
      rw [List.append_assoc, List.cons_append, lines_cons _ h, lines_cons _ h,
        ih (terminated_tail hs), List.cons_append]

/-- Writing terminator-free lines out and reading them back. -/
theorem lines_flatMap_terminated {ls : List (List α)} (h : ∀ line ∈ ls, nl ∉ line) :
    lines nl (ls.flatMap fun line => line ++ [nl]) = ls := by
  induction ls with
  | nil => rfl
  | cons line rest ih =>
      have hline : nl ∉ line := h line (by simp)
      rw [List.flatMap_cons, List.append_assoc, List.singleton_append, lines_cons _ hline,
        ih fun l hl => h l (by simp [hl])]

omit [DecidableEq α] in
private theorem getLast?_ne_of_not_mem {line : List α} (h : nl ∉ line) :
    line.getLast? ≠ some nl :=
  fun hc => h (List.mem_of_getLast? hc)

private theorem terminate_cons (line rest : List α) :
    terminate nl (line ++ nl :: rest) = line ++ nl :: terminate nl rest := by
  unfold terminate
  cases rest with
  | nil => simp
  | cons c cs =>
      have hlast : (line ++ nl :: c :: cs).getLast? = (c :: cs).getLast? := by
        rw [List.getLast?_append_of_ne_nil _ (by simp), List.getLast?_cons_cons]
      by_cases h : (c :: cs).getLast? = some nl
      · rw [if_pos (Or.inr (hlast.trans h)), if_pos (Or.inr h)]
      · rw [if_neg (by simp [hlast, h]), if_neg (by simp [h]), List.append_assoc,
          List.cons_append]

/-- **Reading a text line by line and writing each line out terminated.** -/
theorem flatMap_lines (s : List α) :
    ((lines nl s).flatMap fun line => line ++ [nl]) = terminate nl s := by
  induction s using line_induction nl with
  | nil => simp [terminate]
  | last line h hne =>
      have hlast := getLast?_ne_of_not_mem h
      rw [lines_last h hne, List.flatMap_singleton, terminate, if_neg (by simp [hne, hlast])]
  | cons line rest h ih =>
      rw [lines_cons rest h, List.flatMap_cons, ih, terminate_cons, List.append_assoc,
        List.singleton_append]

theorem terminate_eq_or (s : List α) : terminate nl s = s ∨ terminate nl s = s ++ [nl] := by
  unfold terminate
  split
  · exact Or.inl rfl
  · exact Or.inr rfl

/-- A map that neither makes nor destroys terminators acts line by line. -/
theorem lines_map {f : α → α} (hf : ∀ c, f c = nl ↔ c = nl) (s : List α) :
    lines nl (s.map f) = (lines nl s).map (List.map f) := by
  have hmem : ∀ line : List α, nl ∉ line → nl ∉ line.map f := by
    intro line h hc
    obtain ⟨c, hc, hfc⟩ := List.mem_map.mp hc
    rw [(hf c).mp hfc] at hc
    exact h hc
  induction s using line_induction nl with
  | nil => rfl
  | last line h hne =>
      rw [lines_last h hne, lines_last (hmem line h) (by simpa using hne)]
      rfl
  | cons line rest h ih =>
      rw [List.map_append, List.map_cons, (hf nl).mpr rfl, lines_cons _ (hmem line h),
        lines_cons _ h, ih, List.map_cons]

/-! ### Deleting lines -/

private theorem chomp_terminated (line : List α) : chomp nl (line ++ [nl]) = line := by
  simp [chomp]

private theorem chomp_of_not_mem {line : List α} (h : nl ∉ line) : chomp nl line = line := by
  rw [chomp, if_neg (getLast?_ne_of_not_mem h)]

/-- **Deleting lines from a text deletes exactly those lines.** -/
theorem lines_keepLines (p : List α → Bool) (s : List α) :
    lines nl (keepLines nl p s) = (lines nl s).filter p := by
  induction s using line_induction nl with
  | nil => rfl
  | last line h hne =>
      rw [keepLines, chunks_last h hne, lines_last h hne, List.filter_singleton,
        List.filter_singleton, chomp_of_not_mem h]
      cases p line with
      | true => simpa using lines_last h hne
      | false => rfl
  | cons line rest h ih =>
      rw [keepLines, chunks_cons rest h, lines_cons rest h, List.filter_cons, List.filter_cons,
        chomp_terminated]
      cases p line with
      | true =>
          rw [if_pos rfl, if_pos rfl, List.flatten_cons, List.append_assoc,
            List.singleton_append, lines_cons _ h]
          exact congrArg _ ih
      | false =>
          rw [if_neg Bool.false_ne_true, if_neg Bool.false_ne_true]
          exact ih

/-! ### Fields of a line -/

/-- No piece of a split contains the separator. -/
theorem not_mem_of_mem_splitOn {x : α} {s piece : List α} (h : piece ∈ s.splitOn x) :
    x ∉ piece := by
  induction s generalizing piece with
  | nil =>
      rw [List.splitOn_nil, List.mem_singleton] at h
      simp [h]
  | cons c cs ih =>
      rw [List.splitOn_cons_eq_if_modifyHead] at h
      obtain ⟨first, rest, hsplit⟩ := List.exists_cons_of_ne_nil (List.splitOn_ne_nil x cs)
      rw [hsplit] at h ih
      split at h
      · rcases List.mem_cons.mp h with rfl | h'
        · simp
        · exact ih h'
      · rename_i hc
        rcases List.mem_cons.mp h with rfl | h'
        · have hcx : x ≠ c := fun e => hc (by simp [e])
          simpa [hcx] using ih (by simp)
        · exact ih (by simp [h'])

theorem length_splitOn (x : α) (s : List α) : (s.splitOn x).length = s.count x + 1 := by
  induction s with
  | nil => rfl
  | cons c cs ih =>
      rw [List.splitOn_cons_eq_if_modifyHead, List.count_cons]
      split
      · rw [List.length_cons, ih]
      · rw [List.length_modifyHead, ih]

/-- **A line has fields `a`, `b` and `c` exactly when it is those, joined.** -/
theorem splitOn_eq_three_iff {x : α} {s a b c : List α} :
    s.splitOn x = [a, b, c] ↔
      s = a ++ x :: (b ++ x :: c) ∧ x ∉ a ∧ x ∉ b ∧ x ∉ c := by
  refine ⟨fun h => ?_, fun h => ?_⟩
  · have hjoin : [x].intercalate (s.splitOn x) = s := List.intercalate_splitOn x
    rw [h] at hjoin
    refine ⟨by simpa [List.intercalate] using hjoin.symm, ?_, ?_, ?_⟩ <;>
      exact not_mem_of_mem_splitOn (s := s) (by rw [h]; simp)
  · obtain ⟨rfl, ha, hb, hc⟩ := h
    rw [List.splitOn_append_cons_self_of_not_mem ha, List.splitOn_append_cons_self_of_not_mem hb,
      List.splitOn_eq_singleton hc]

/-- A map that neither makes nor destroys separators acts field by field. -/
theorem splitOn_map {x : α} {f : α → α} (hf : ∀ c, f c = x ↔ c = x) (s : List α) :
    (s.map f).splitOn x = (s.splitOn x).map (List.map f) := by
  induction s with
  | nil => rfl
  | cons c cs ih =>
      obtain ⟨first, rest, hsplit⟩ := List.exists_cons_of_ne_nil (List.splitOn_ne_nil x cs)
      rw [List.map_cons, List.splitOn_cons_eq_if_modifyHead, List.splitOn_cons_eq_if_modifyHead,
        ih, hsplit]
      by_cases hc : c = x
      · rw [if_pos (by simp [hc, hf]), if_pos (by simp [hc])]
        rfl
      · rw [if_neg (by simpa [hf] using hc), if_neg (by simpa using hc)]
        rfl

end Lib
