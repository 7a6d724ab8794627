/-
A segmenter, a map order and a sort.

The model leaves these three open, and the theorems ask little of them.  Here is one
of each that can be run.  `wordsAndSpaces` is what the real segmenter does on plain
words with single spaces between them, and it has the two properties that some of
the theorems assume: its tokens are pieces of the text, and folding the case of the
text folds the case of the tokens.
-/
import DocSearcher.Searcher
import DocSearcher.Parser
import DocSearcher.Proofs.Util
import Mathlib.Data.List.Lex

namespace DocSearcher

/-- Put a byte in front of some tokens: into the first one, unless one of the two is a space. -/
def addByte (c : UInt8) : List Str → List Str
  | [] => [[c]]
  | token :: rest =>
      if c = Parser.space ∨ token.head? = some Parser.space then [c] :: token :: rest
      else (c :: token) :: rest

/-- The words of a text and the spaces between them. -/
def wordsAndSpaces : Str → List Str
  | [] => []
  | c :: cs => addByte c (wordsAndSpaces cs)

/-- By the bytes of the keys, at every call. -/
def byteOrder : Int → Lib.Enumeration Str WordCnt :=
  fun _ => Lib.Enumeration.byRank (List.map UInt8.toNat)
    (List.map_injective_iff.mpr fun _ _ => UInt8.toNat_inj.mp)

def insertionSort : Lib.SortRoutine heavier := Lib.SortRoutine.insertion Weight.weight

/-! ### The tokens are the text, cut up -/

private theorem flatten_addByte (c : UInt8) (tokens : List Str) :
    (addByte c tokens).flatten = c :: tokens.flatten := by
  cases tokens with
  | nil => rfl
  | cons token rest =>
      by_cases h : c = Parser.space ∨ token.head? = some Parser.space
      · rw [addByte, if_pos h]
        rfl
      · rw [addByte, if_neg h]
        rfl

theorem flatten_wordsAndSpaces (text : Str) : (wordsAndSpaces text).flatten = text := by
  induction text with
  | nil => rfl
  | cons c cs ih =>
      unfold wordsAndSpaces
      rw [flatten_addByte, ih]

theorem piece_of_wordsAndSpaces (text : Str) : ∀ token ∈ wordsAndSpaces text, token <:+: text := by
  intro token htoken
  have hpiece : token <:+: (wordsAndSpaces text).flatten := List.infix_of_mem_flatten htoken
  rw [flatten_wordsAndSpaces] at hpiece
  exact hpiece

/-! ### Folding case goes through -/

private theorem addByte_toLower (c : UInt8) (tokens : List Str) :
    addByte (toLowerByte c) (tokens.map toLower) = (addByte c tokens).map toLower := by
  have hspace : ∀ b, toLowerByte b = Parser.space ↔ b = Parser.space :=
    toLowerByte_eq_iff (by decide) (by decide)
  cases tokens with
  | nil => rfl
  | cons token rest =>
      have hhead : (toLower token).head? = some Parser.space ↔
          token.head? = some Parser.space := by
        cases token with
        | nil => simp [toLower]
        | cons b bs => simp [toLower, hspace]
      have hsame : toLowerByte c = Parser.space ∨ (toLower token).head? = some Parser.space ↔
          c = Parser.space ∨ token.head? = some Parser.space := or_congr (hspace c) hhead
      by_cases h : c = Parser.space ∨ token.head? = some Parser.space
      · rw [List.map_cons, addByte, addByte, if_pos h, if_pos (hsame.mpr h)]
        rfl
      · rw [List.map_cons, addByte, addByte, if_neg h, if_neg (mt hsame.mp h)]
        rfl

theorem wordsAndSpaces_toLower (text : Str) :
    wordsAndSpaces (toLower text) = (wordsAndSpaces text).map toLower := by
  induction text with
  | nil => rfl
  | cons c cs ih =>
      show addByte (toLowerByte c) (wordsAndSpaces (toLower cs)) = _
      rw [ih, addByte_toLower]
      rfl

theorem wordsAndSpaces_congr (x y : Str) (h : toLower x = toLower y) :
    (wordsAndSpaces x).map toLower = (wordsAndSpaces y).map toLower := by
  rw [← wordsAndSpaces_toLower, h, wordsAndSpaces_toLower]

end DocSearcher
