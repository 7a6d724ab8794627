/-
The index as a whole.

The exactness of the index is said list by list.  Here are the two things that can be
said of all lists together.  What one document has in them adds up: as many postings
as it has different words, and weights that sum to ten times the tokens of its title
and once those of its content, so that no token is lost and none is counted twice.
And the index is a canonical form of the lines it was built from: two sequences of
`Build` calls leave equal indexes exactly when they accepted the same lines in the
same order, and an index written out and read again is the same index.
-/
import DocSearcher.Proofs.Distribute
import DocSearcher.Proofs.Pipeline
import Mathlib.Algebra.BigOperators.Ring.Finset

namespace DocSearcher

open Corpus

namespace Corpus

variable (cut : Str → List Str)

/-- The words a document mentions. -/
def vocabulary (doc : Parser.DocInfo) : Finset Str :=
  (terms cut doc.title ++ terms cut doc.content).toFinset

theorem mem_vocabulary {doc : Parser.DocInfo} {word : Str} :
    word ∈ vocabulary cut doc ↔ Mentions cut doc word := by
  unfold vocabulary Mentions
  rw [List.mem_toFinset, List.mem_append]

theorem score_of_not_mentions {doc : Parser.DocInfo} {word : Str} (h : ¬ Mentions cut doc word) :
    score cut doc word = 0 := by
  obtain ⟨htitle, hcontent⟩ := not_or.mp h
  unfold score
  rw [List.count_eq_zero_of_not_mem htitle, List.count_eq_zero_of_not_mem hcontent]

/-- Over any words that include the document's own, the scores account for every token. -/
theorem sum_score {doc : Parser.DocInfo} {words : Finset Str} (h : vocabulary cut doc ⊆ words) :
    ∑ word ∈ words, score cut doc word
      = 10 * (cut doc.title).length + (cut doc.content).length := by
  have hcount : ∀ text, (∀ word ∈ terms cut text, Mentions cut doc word) →
      ∑ word ∈ words, (terms cut text).count word = (cut text).length := by
    intro text htext
    have hsum := Multiset.sum_count_eq_card (s := words) (m := (terms cut text : Multiset Str))
      fun word hword => h ((mem_vocabulary cut).mpr (htext word hword))
    have hlength : (terms cut text).length = (cut text).length := List.length_map _
    rw [Multiset.coe_card, hlength] at hsum
    rw [← hsum]
    refine Finset.sum_congr rfl fun word _ => ?_
    -- the two counts compare words by different instances
    rw [Multiset.coe_count, lawful_beq_subsingleton List.instBEq instBEqOfDecidableEq]
  unfold score
  rw [Finset.sum_add_distrib, ← Finset.mul_sum, hcount _ fun _ => Or.inl, hcount _ fun _ => Or.inr]

/-- The documents of some files are those of their well-formed lines. -/
theorem filterMap_decode_acceptedLines (files : List (Option Str)) :
    (acceptedLines files).filterMap decode = ofFiles files := by
  unfold acceptedLines ofFiles
  rw [filterMap_decode_filter, List.filterMap_flatMap]
  refine List.flatMap_congr fun file _ => ?_
  cases file with
  | none => rfl
  | some content => rfl

end Corpus

namespace Index

/-- What a document has in the list of a word. -/
def ofDoc (idx : Index) (docId : Int) (word : Str) : List Weight :=
  ((idx.getInvertedList word).getD []).filter fun p => p.docId = docId

namespace Extends

variable {cut : Str → List Str} {docs : Corpus} {idx : Index}

theorem ofDoc_eq (h : Extends cut empty docs idx) {i : Nat} {doc : Parser.DocInfo}
    (hdoc : docs[i]? = some doc) (word : Str) :
    idx.ofDoc i word = (entry cut word i doc).toList := by
  unfold ofDoc
  rw [h.getD_getInvertedList]
  exact filter_postings_docId cut hdoc word

/-- The words of a document are keys of the index. -/
theorem vocabulary_subset (h : Extends cut empty docs idx) {doc : Parser.DocInfo}
    (hdoc : doc ∈ docs) : vocabulary cut doc ⊆ idx.invertedIndex.keys := by
  intro word hword
  obtain ⟨list, hlist⟩ := h.key_iff.mpr ⟨doc, hdoc, (mem_vocabulary cut).mp hword⟩
  rw [Finmap.mem_keys]
  exact Finmap.mem_of_lookup_eq_some hlist

theorem sum_length_ofDoc (h : Extends cut empty docs idx) {i : Nat} {doc : Parser.DocInfo}
    (hdoc : docs[i]? = some doc) :
    ∑ word ∈ idx.invertedIndex.keys, (idx.ofDoc i word).length = (vocabulary cut doc).card := by
  have hone : ∀ word, (idx.ofDoc i word).length = if Mentions cut doc word then 1 else 0 := by
    intro word
    rw [h.ofDoc_eq hdoc]
    unfold entry
    by_cases hm : Mentions cut doc word
    · rw [if_pos hm, if_pos hm]
      rfl
    · rw [if_neg hm, if_neg hm]
      rfl
  simp only [hone]
  rw [← Finset.card_filter]
  refine congrArg Finset.card (Finset.ext fun word => ?_)
  rw [Finset.mem_filter, mem_vocabulary]
  refine ⟨fun hword => hword.2, fun hword => ⟨?_, hword⟩⟩
  exact h.vocabulary_subset (List.mem_of_getElem? hdoc) ((mem_vocabulary cut).mpr hword)

theorem sum_weight_ofDoc (h : Extends cut empty docs idx) {i : Nat} {doc : Parser.DocInfo}
    (hdoc : docs[i]? = some doc)
    (hbound : 10 * (cut doc.title).length + (cut doc.content).length < 2 ^ 31) :
    ∑ word ∈ idx.invertedIndex.keys, ((idx.ofDoc i word).map Weight.weight).sum
      = ((10 * (cut doc.title).length + (cut doc.content).length : Nat) : Int) := by
  have hscore : ∀ word, ((idx.ofDoc i word).map Weight.weight).sum = (score cut doc word : Int) := by
    intro word
    rw [h.ofDoc_eq hdoc]
    unfold entry
    by_cases hm : Mentions cut doc word
    · rw [if_pos hm, int32_score cut hbound]
      simp
    · rw [if_neg hm, score_of_not_mentions cut hm]
      rfl
  simp only [hscore]
  rw [← Nat.cast_sum, sum_score cut (h.vocabulary_subset (List.mem_of_getElem? hdoc))]

end Extends

variable (cut : Str → List Str) (order : Int → Lib.Enumeration Str WordCnt)

/--
**Nothing a document says is lost in the index or counted twice.**  Over all lists
together a document has one posting for each of its different words, and its weights
sum to ten times the tokens of its title plus those of its content, if that sum fits
an `int`.
-/
theorem weights_conserved (files : List (Option Str)) (i : Nat) (doc : DocInfo)
    (hdoc : (run cut order files).forwardIndex[i]? = some doc) :
    ∑ word ∈ (run cut order files).invertedIndex.keys, ((run cut order files).ofDoc i word).length
      = (terms cut doc.title ++ terms cut doc.content).toFinset.card ∧
    (10 * (cut doc.title).length + (cut doc.content).length < 2 ^ 31 →
      ∑ word ∈ (run cut order files).invertedIndex.keys,
          (((run cut order files).ofDoc i word).map Weight.weight).sum
        = ((10 * (cut doc.title).length + (cut doc.content).length : Nat) : Int)) := by
  have h := run_extends cut order files
  rw [h.getElem?_forwardIndex] at hdoc
  obtain ⟨plainDoc, hplain, rfl⟩ := Option.map_eq_some_iff.mp hdoc
  exact ⟨h.sum_length_ofDoc hplain, h.sum_weight_ofDoc hplain⟩

/-- The accounts of the one page's record: two words, eleven and one. -/
theorem weights_conserved_docA :
    ∑ word ∈ (run wordsAndSpaces byteOrder [some (joined HttpServer.docA)]).invertedIndex.keys,
        (((run wordsAndSpaces byteOrder [some (joined HttpServer.docA)]).ofDoc 0 word).map
          Weight.weight).sum = 12 := by
  have hdocs : ofFiles [some (joined HttpServer.docA)] = [HttpServer.docA] := by decide
  have h := run_extends wordsAndSpaces byteOrder [some (joined HttpServer.docA)]
  rw [hdocs] at h
  have hdoc : (run wordsAndSpaces byteOrder [some (joined HttpServer.docA)]).forwardIndex[0]?
      = some (numbered 0 HttpServer.docA) := by
    rw [h.getElem?_forwardIndex]
    rfl
  exact (weights_conserved wordsAndSpaces byteOrder _ 0 _ hdoc).2 (by decide)

/--
**The index is a canonical form of the accepted lines.**  Whatever order the counting
maps are met in and however the lines are spread over files, two runs leave equal
indexes exactly when they accepted the same lines in the same order.
-/
theorem run_eq_iff (order' : Int → Lib.Enumeration Str WordCnt) (files files' : List (Option Str)) :
    run cut order files = run cut order' files' ↔ acceptedLines files = acceptedLines files' := by
  have h := run_extends cut order files
  have h' := run_extends cut order' files'
  refine ⟨fun heq => ?_, fun heq => ?_⟩
  · have hforward : forward 0 (ofFiles files) = forward 0 (ofFiles files') :=
      h.forward.symm.trans ((congrArg forwardIndex heq).trans h'.forward)
    rw [acceptedLines_eq, acceptedLines_eq, forward_inj.mp hforward]
  · rw [← filterMap_decode_acceptedLines, heq, filterMap_decode_acceptedLines] at h
    exact h.unique h'

/-- A document that was read has no framing byte in a field. -/
theorem free_of_mem_ofFiles {files : List (Option Str)} :
    ∀ doc ∈ ofFiles files, Free fieldSep doc ∧ Free newline doc := by
  intro doc hdoc
  obtain ⟨file, -, hmem⟩ := List.mem_flatMap.mp hdoc
  cases file with
  | none => simp at hmem
  | some content =>
      obtain ⟨line, hline, hdecode⟩ := List.mem_filterMap.mp hmem
      obtain ⟨rfl, hfree⟩ := decode_eq_some_iff.mp hdecode
      exact ⟨hfree, newline_notMem_joined.mp (Lib.not_mem_of_mem_lines hline)⟩

/--
**Writing an index out and building from what was written gives the index back**: the
entries of `forward_index` passed through `WriteOutput`, read by `Build`.
-/
theorem run_writeOutput (order' : Int → Lib.Enumeration Str WordCnt) (files : List (Option Str)) :
    run cut order' [some (((run cut order files).forwardIndex.map plain).foldl
        (fun out doc => Parser.writeOutput doc out) [])]
      = run cut order files := by
  have h := run_extends cut order files
  have hplain : (run cut order files).forwardIndex.map plain = ofFiles files :=
    (congrArg _ h.forward).trans (map_plain_forward 0 _)
  have hread : ofFiles [some ((ofFiles files).flatMap Parser.record)] = ofFiles files :=
    (List.append_nil _).trans ((ofFile_records_eq_iff _).mpr free_of_mem_ofFiles)
  have h' := run_extends cut order' [some ((ofFiles files).flatMap Parser.record)]
  rw [hread] at h'
  rw [hplain, Parser.foldl_writeOutput, List.nil_append]
  exact h'.unique h

end Index

end DocSearcher
