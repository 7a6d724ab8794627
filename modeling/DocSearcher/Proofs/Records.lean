/-
One record, one line.

A record is three fields with the byte 3 between them.  Reading a line as a record
succeeds exactly when the line has two such bytes, and then joining the fields
again gives back the line; so `decode` and joining are inverse to each other on the
documents whose fields carry no 3.
-/
import DocSearcher.Corpus
import DocSearcher.Proofs.Util

namespace DocSearcher.Corpus

/-- The document as a line, without its newline. -/
def joined (doc : Parser.DocInfo) : Str :=
  doc.title ++ [fieldSep] ++ doc.url ++ [fieldSep] ++ doc.content

/-- The byte occurs in none of the three fields. -/
def Free (b : UInt8) (doc : Parser.DocInfo) : Prop :=
  b ∉ doc.title ∧ b ∉ doc.url ∧ b ∉ doc.content

/-- **A line holds a document exactly when it is the document's fields, joined.** -/
theorem decode_eq_some_iff {line : Str} {doc : Parser.DocInfo} :
    decode line = some doc ↔ line = joined doc ∧ Free fieldSep doc := by
  have hthree := @Lib.splitOn_eq_three_iff _ _ fieldSep line doc.title doc.url doc.content
  have hjoin : joined doc
      = doc.title ++ fieldSep :: (doc.url ++ fieldSep :: doc.content) := by
    simp [joined]
  unfold Free
  rw [hjoin, ← hthree]
  unfold decode
  refine ⟨fun h => ?_, fun h => ?_⟩
  · split at h
    · rename_i title url content hsplit
      rw [Option.some.injEq] at h
      rw [← h]
      exact hsplit
    · simp at h
  · rw [h]

theorem isSome_decode_iff {line : Str} : (decode line).isSome ↔ line.count fieldSep = 2 := by
  have hlen := Lib.length_splitOn fieldSep line
  unfold decode
  split
  · rename_i title url content hsplit
    rw [hsplit] at hlen
    simp only [List.length_cons, List.length_nil] at hlen
    simp only [Option.isSome_some, true_iff]
    omega
  · rename_i hsplit
    refine ⟨fun h => by simp at h, fun h => ?_⟩
    -- a list of three pieces would have matched the other branch
    rw [h] at hlen
    obtain ⟨a, b, c, habc⟩ := List.length_eq_three.mp hlen
    exact absurd habc (hsplit a b c)

theorem decode_eq_none_of_count {line : Str} (h : line.count fieldSep ≠ 2) :
    decode line = none := by
  cases hd : decode line with
  | none => rfl
  | some doc => exact absurd (isSome_decode_iff.mp (by rw [hd]; rfl)) h

/-- Joining the documents of some lines gives back the well-formed lines. -/
theorem map_joined_filterMap_decode (lines : List Str) :
    (lines.filterMap decode).map joined = lines.filter fun line => line.count fieldSep = 2 := by
  induction lines with
  | nil => rfl
  | cons line rest ih =>
      rw [List.filterMap_cons, List.filter_cons]
      cases hd : decode line with
      | none =>
          have hcount : ¬ line.count fieldSep = 2 := by
            rw [← isSome_decode_iff, hd]
            simp
          rw [if_neg (by simpa using hcount)]
          exact ih
      | some doc =>
          have hcount : line.count fieldSep = 2 := isSome_decode_iff.mp (by rw [hd]; rfl)
          rw [if_pos (by simpa using hcount), List.map_cons, ih,
            (decode_eq_some_iff.mp hd).1]

/-- Malformed lines hold no documents. -/
theorem filterMap_decode_filter (lines : List Str) :
    (lines.filter fun line => line.count fieldSep = 2).filterMap decode
      = lines.filterMap decode := by
  rw [List.filterMap_filter]
  refine List.filterMap_congr fun line _ => ?_
  by_cases h : line.count fieldSep = 2
  · rw [if_pos (by simpa using h)]
  · rw [if_neg (by simpa using h), decode_eq_none_of_count h]

end DocSearcher.Corpus
