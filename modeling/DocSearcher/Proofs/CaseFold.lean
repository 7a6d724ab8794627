/-
Case does not matter to matching and ranking.

Lower-casing a whole file moves neither its lines nor its fields, so the documents
of the lower-cased file are the lower-cased documents.  If the segmenter sees the
same words, up to case, in texts that are the same up to case, then a document and
its lower-cased copy have the same postings.  So two files that differ in case only
are both indexed like their common lower-cased file.
-/
import DocSearcher.Proofs.Instances
import DocSearcher.Proofs.Search

namespace DocSearcher

open Corpus

namespace Corpus

/-- The document with every field lower-cased. -/
def lowered (doc : Parser.DocInfo) : Parser.DocInfo :=
  ⟨toLower doc.title, toLower doc.url, toLower doc.content⟩

/-! ### Lower-casing a file lower-cases its documents -/

theorem decode_toLower (line : Str) : decode (toLower line) = (decode line).map lowered := by
  have hsplit : (toLower line).splitOn fieldSep = (line.splitOn fieldSep).map toLower :=
    Lib.splitOn_map toLowerByte_fieldSep line
  cases hd : decode line with
  | none =>
      have hcount : (toLower line).count fieldSep = line.count fieldSep := by
        have hlen := Lib.length_splitOn fieldSep (toLower line)
        rw [hsplit, List.length_map, Lib.length_splitOn] at hlen
        omega
      refine decode_eq_none_of_count ?_
      rw [hcount, ne_eq, ← isSome_decode_iff, hd]
      simp
  | some doc =>
      unfold decode at hd ⊢
      rw [hsplit]
      split at hd
      · rename_i title url content heq
        rw [heq]
        rw [Option.some.injEq] at hd
        rw [← hd]
        rfl
      · simp at hd

theorem ofFile_toLower (file : Str) : ofFile (toLower file) = (ofFile file).map lowered := by
  unfold ofFile
  have hlines : Lib.lines newline (toLower file) = (Lib.lines newline file).map toLower :=
    Lib.lines_map toLowerByte_newline file
  rw [hlines, List.filterMap_map, List.map_filterMap]
  exact List.filterMap_congr fun line _ => decode_toLower line

/-! ### Lower-casing a document changes none of its postings -/

section

variable {cut : Str → List Str}
  (hcut : ∀ x y, toLower x = toLower y → (cut x).map toLower = (cut y).map toLower)

include hcut

theorem entry_lowered (word : Str) (docId : Nat) (doc : Parser.DocInfo) :
    entry cut word docId (lowered doc) = entry cut word docId doc := by
  have htitle : terms cut (toLower doc.title) = terms cut doc.title :=
    hcut _ _ (toLower_toLower _)
  have hcontent : terms cut (toLower doc.content) = terms cut doc.content :=
    hcut _ _ (toLower_toLower _)
  have hmentions : Mentions cut (lowered doc) word ↔ Mentions cut doc word := by
    unfold Mentions lowered
    rw [htitle, hcontent]
  have hscore : score cut (lowered doc) word = score cut doc word := by
    unfold score lowered
    rw [htitle, hcontent]
  unfold entry
  rw [hscore]
  by_cases hm : Mentions cut doc word
  · rw [if_pos hm, if_pos (hmentions.mpr hm)]
  · rw [if_neg hm, if_neg (mt hmentions.mp hm)]

/-- **Files that differ in case only have the same postings.** -/
theorem postings_ofFile_congr {file file' : Str} (h : toLower file = toLower file') (word : Str) :
    Lib.postings (entry cut word) 0 (ofFile file)
      = Lib.postings (entry cut word) 0 (ofFile file') := by
  have hlow : ∀ f, Lib.postings (entry cut word) 0 (ofFile (toLower f))
      = Lib.postings (entry cut word) 0 (ofFile f) := by
    intro f
    rw [ofFile_toLower]
    exact Lib.postings_map _ (entry_lowered hcut word) 0 _
  rw [← hlow file, h, hlow file']

theorem answer_congr {file file' query query' : Str} (hfile : toLower file = toLower file')
    (hquery : toLower query = toLower query') :
    answer cut (ofFile file) query = answer cut (ofFile file') query' := by
  have hterms : terms cut query = terms cut query' := hcut query query' hquery
  unfold answer
  rw [hterms]
  exact List.flatMap_congr fun word _ => postings_ofFile_congr hcut hfile word

end

end Corpus

namespace Searcher

/--
**Matching and ranking do not depend on case.**  Two files and two queries that are
the same up to case give the same inverted index, the same merged postings, and the
same sequence of weights, for any segmenter that respects case folding.
-/
theorem search_case_insensitive (cut : Str → List Str)
    (hcut : ∀ x y, toLower x = toLower y → (cut x).map toLower = (cut y).map toLower)
    (order order' : Int → Lib.Enumeration Str WordCnt) (sort sort' : Lib.SortRoutine heavier)
    (file file' query query' : Str) (hfile : toLower file = toLower file')
    (hquery : toLower query = toLower query') :
    let idx := (Index.build cut order Index.empty (some file)).2
    let idx' := (Index.build cut order' Index.empty (some file')).2
    idx.invertedIndex = idx'.invertedIndex ∧
      (mergeTokens idx (cut query)).Perm (mergeTokens idx' (cut query')) ∧
      (ranked cut sort idx query).map Weight.weight
        = (ranked cut sort' idx' query').map Weight.weight := by
  intro idx idx'
  have h : Index.Extends cut Index.empty (ofFile file) idx :=
    Index.build_extends cut order Index.empty file
  have h' : Index.Extends cut Index.empty (ofFile file') idx' :=
    Index.build_extends cut order' Index.empty file'
  have hmerged : mergeTokens idx (cut query) = mergeTokens idx' (cut query') := by
    rw [mergeTokens_eq h, mergeTokens_eq h', answer_congr hcut hfile hquery]
  refine ⟨Finmap.ext_lookup fun word => ?_, by rw [hmerged], ?_⟩
  · rw [h.inverted, h'.inverted]
    exact congrArg (Lib.extend _) (postings_ofFile_congr hcut hfile word)
  · refine Lib.SortRoutine.map_key_eq sort sort' ?_
    rw [hmerged]

/-- The theorem applies to a one-document file written in either case. -/
theorem search_case_insensitive_one_word :
    let file := bytes ['A', 'b'] ++ [fieldSep, fieldSep]
    let file' := bytes ['a', 'B'] ++ [fieldSep, fieldSep]
    toLower file = toLower file' ∧ toLower (bytes ['A', 'B']) = toLower (bytes ['a', 'b']) ∧
    let idx := (Index.build wordsAndSpaces byteOrder Index.empty (some file)).2
    let idx' := (Index.build wordsAndSpaces byteOrder Index.empty (some file')).2
    idx.invertedIndex = idx'.invertedIndex ∧
      (mergeTokens idx (wordsAndSpaces (bytes ['A', 'B']))).Perm
        (mergeTokens idx' (wordsAndSpaces (bytes ['a', 'b']))) ∧
      (ranked wordsAndSpaces insertionSort idx
          (bytes ['A', 'B'])).map Weight.weight
        = (ranked wordsAndSpaces insertionSort idx'
          (bytes ['a', 'b'])).map Weight.weight :=
  ⟨by decide, by decide, search_case_insensitive wordsAndSpaces
    wordsAndSpaces_congr byteOrder byteOrder
    insertionSort insertionSort
    _ _ _ _ (by decide) (by decide)⟩

end Searcher

end DocSearcher
