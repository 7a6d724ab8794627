/-
`Search` distributes over documents.

Two runs of the preprocessor may list the same files in a different order, and then
every `doc_id` differs, and with it every posting list and everything the sort is
given.  None of it can be seen in the answer.  What a document contributes to the
answer of a query is decided by the document alone (`own`), and the answer is the
sum of the contributions; a sum does not know the order of its terms, nor which
number a document has.
-/
import DocSearcher.Proofs.Search
import Mathlib.Data.Multiset.Bind

namespace DocSearcher

open Corpus

namespace Corpus

/-! ### The lines an index is built from -/

/-- The well-formed lines of a sequence of files. -/
def acceptedLines (files : List (Option Str)) : List Str :=
  (files.flatMap fun file => (file.map (Lib.lines newline)).getD []).filter
    fun line => line.count fieldSep = 2

theorem acceptedLines_eq (files : List (Option Str)) :
    acceptedLines files = (ofFiles files).map joined := by
  unfold acceptedLines ofFiles
  rw [List.filter_flatMap, List.map_flatMap]
  refine List.flatMap_congr fun file _ => ?_
  cases file with
  | none => rfl
  | some content => exact (map_joined_filterMap_decode _).symm

/-- The line of a document that was read holds that document and nothing else. -/
theorem ofFiles_joined {files : List (Option Str)} {doc : Parser.DocInfo}
    (h : doc ∈ ofFiles files) : ofFiles [some (joined doc)] = [doc] := by
  obtain ⟨file, -, hdoc⟩ := List.mem_flatMap.mp h
  cases file with
  | none => simp at hdoc
  | some content =>
      obtain ⟨line, hline, hdecode⟩ := List.mem_filterMap.mp hdoc
      obtain ⟨rfl, hfree⟩ := decode_eq_some_iff.mp hdecode
      have hne : joined doc ≠ [] := by simp [joined]
      show ofFile (joined doc) ++ [] = [doc]
      rw [List.append_nil, ofFile, Lib.lines_last (Lib.not_mem_of_mem_lines hline) hne,
        List.filterMap_cons, hdecode]
      rfl

end Corpus

namespace Searcher

/-! ### What can be seen of a result -/

/-- A weight, a word, and the title, url and desc shown for them. -/
abbrev Hit := Int × Str × SearchResult

/-- The ranked postings, each with the result made of it. -/
def rankedResults (cut : Str → List Str) (sort : Lib.SortRoutine heavier) (index : Index)
    (query : Str) : Except Fault (List (Weight × SearchResult)) :=
  (results cut sort index query).map fun items => (ranked cut sort index query).zip items

/-- The visible part of some results, in no order. -/
def hits (items : List (Weight × SearchResult)) : Multiset Hit :=
  ↑(items.map fun item => (item.1.weight, item.1.word, item.2))

/-- What `Search` yields on an index built from one line alone. -/
def alone (cut : Str → List Str) (order : Int → Lib.Enumeration Str WordCnt)
    (sort : Lib.SortRoutine heavier) (query line : Str) : Multiset Hit :=
  match rankedResults cut sort (Index.run cut order [some line]) query with
  | .ok items => hits items
  | .error _ => 0

/-! ### Contributions -/

variable (cut : Str → List Str)

/-- The one hit of a document for a word it mentions. -/
def hitOf (doc : Parser.DocInfo) (word : Str) : Option Hit :=
  if Mentions cut doc word then
    some (int32 (score cut doc word), word, ⟨doc.title, doc.url, snippet doc.content word⟩)
  else none

/-- A document's contribution to the answer of a query. -/
def own (query : Str) (doc : Parser.DocInfo) : Multiset Hit :=
  ↑((terms cut query).filterMap (hitOf cut doc))

private theorem map_entry (docs : Corpus) {i : Nat} {doc : Parser.DocInfo}
    (hdoc : docs[i]? = some doc) (word : Str) :
    (entry cut word i doc).map (fun p => (p.weight, p.word, shown docs p)) = hitOf cut doc word := by
  unfold entry hitOf
  by_cases hm : Mentions cut doc word
  · rw [if_pos hm, if_pos hm, Option.map_some, shown_of_getElem? hdoc rfl]
  · rw [if_neg hm, if_neg hm, Option.map_none]

/-- **The answer is the sum of the documents' contributions.** -/
theorem answer_eq_sum (docs : Corpus) (query : Str) :
    (((answer cut docs query).map fun p => (p.weight, p.word, shown docs p) : List Hit) :
      Multiset Hit) = (docs.map (own cut query)).sum := by
  have hword : ∀ word, (Lib.postings (entry cut word) 0 docs).map
      (fun p => (p.weight, p.word, shown docs p)) = docs.filterMap (hitOf cut · word) := by
    intro word
    refine Lib.map_postings (entry cut word) _ _ fun i doc hdoc => ?_
    rw [Nat.zero_add]
    exact map_entry cut docs hdoc word
  unfold answer own
  rw [List.map_flatMap]
  simp only [hword, List.filterMap_eq_flatMap_toList, ← Multiset.coe_bind]
  -- word by word and document by document are the same sum
  rw [Multiset.bind_bind]
  rfl

/-- The part of the answer that comes from one document. -/
theorem filter_answer (docs : Corpus) (query : Str) {i : Nat} {doc : Parser.DocInfo}
    (hdoc : docs[i]? = some doc) :
    ((((answer cut docs query).filter fun p => p.docId = (i : Int)).map
      fun p => (p.weight, p.word, shown docs p) : List Hit) : Multiset Hit) = own cut query doc := by
  unfold answer own
  rw [List.filter_flatMap, List.map_flatMap, List.filterMap_eq_flatMap_toList]
  refine congrArg _ (List.flatMap_congr fun word _ => ?_)
  rw [filter_postings_docId cut hdoc, ← map_entry cut docs hdoc]
  cases entry cut word i doc with
  | none => rfl
  | some p => rfl

/-! ### What a run shows -/

variable {cut} {docs : Corpus} {idx : Index}

theorem rankedResults_eq (h : Index.Extends cut Index.empty docs idx)
    (sort : Lib.SortRoutine heavier) (query : Str) :
    rankedResults cut sort idx query
      = .ok ((ranked cut sort idx query).map fun p => (p, shown docs p)) := by
  unfold rankedResults
  rw [results_eq h, List.map_prod_left_eq_zip]
  rfl

theorem hits_eq_sum (h : Index.Extends cut Index.empty docs idx) (sort : Lib.SortRoutine heavier)
    (query : Str) :
    hits ((ranked cut sort idx query).map fun p => (p, shown docs p))
      = (docs.map (own cut query)).sum := by
  unfold hits
  rw [List.map_map, ← answer_eq_sum]
  exact Multiset.coe_eq_coe.mpr ((ranked_perm h sort query).map _)

theorem hits_filter (h : Index.Extends cut Index.empty docs idx) (sort : Lib.SortRoutine heavier)
    (query : Str) {i : Nat} {doc : Parser.DocInfo} (hdoc : docs[i]? = some doc) :
    hits (((ranked cut sort idx query).map fun p => (p, shown docs p)).filter
      fun item => item.1.docId = (i : Int)) = own cut query doc := by
  unfold hits
  rw [List.filter_map, List.map_map, ← filter_answer cut docs query hdoc]
  exact Multiset.coe_eq_coe.mpr (((ranked_perm h sort query).filter _).map _)

theorem alone_joined {files : List (Option Str)} {doc : Parser.DocInfo}
    (hdoc : doc ∈ ofFiles files) (order : Int → Lib.Enumeration Str WordCnt)
    (sort : Lib.SortRoutine heavier) (query : Str) :
    alone cut order sort query (joined doc) = own cut query doc := by
  have h := Index.run_extends cut order [some (joined doc)]
  rw [ofFiles_joined hdoc] at h
  unfold alone
  rw [rankedResults_eq h]
  show hits _ = _
  rw [hits_eq_sum h]
  simp

theorem hits_eq_sum_alone {files : List (Option Str)}
    (h : Index.Extends cut Index.empty (ofFiles files) idx) (sort sort' : Lib.SortRoutine heavier)
    (order : Int → Lib.Enumeration Str WordCnt) (query : Str) :
    hits ((ranked cut sort idx query).map fun p => (p, shown (ofFiles files) p))
      = ((acceptedLines files).map (alone cut order sort' query)).sum := by
  have halone : (acceptedLines files).map (alone cut order sort' query)
      = (ofFiles files).map (own cut query) := by
    rw [acceptedLines_eq, List.map_map]
    exact List.map_congr_left fun doc hdoc => alone_joined hdoc order sort' query
  rw [hits_eq_sum h, halone]

/-- The same results have the same sequence of weights. -/
theorem map_weight_of_hits {docs' : Corpus} {idx' : Index} (sort sort' : Lib.SortRoutine heavier)
    (query : Str)
    (h : hits ((ranked cut sort idx query).map fun p => (p, shown docs p))
      = hits ((ranked cut sort' idx' query).map fun p => (p, shown docs' p))) :
    (ranked cut sort idx query).map Weight.weight
      = (ranked cut sort' idx' query).map Weight.weight := by
  unfold hits at h
  have hperm := (Multiset.coe_eq_coe.mp h).map Prod.fst
  simp only [List.map_map] at hperm
  refine Lib.SortRoutine.map_key_eq sort sort' ?_
  have hranked : ((mergeTokens idx (cut query)).map Weight.weight).Perm
      ((ranked cut sort idx query).map Weight.weight) := ((sort.perm _).map _).symm
  exact hranked.trans (hperm.trans ((sort'.perm _).map _))

/--
**Search distributes over documents.**  The results of a query are the sum, over the
well-formed lines read, of the results on an index built from that line alone; the
results that come from the document at one position are those of its line alone,
whatever the other lines are; and files whose well-formed lines are the same up to
order give the same results and the same sequence of weights.
-/
theorem search_distributes (cut : Str → List Str) (order order' : Int → Lib.Enumeration Str WordCnt)
    (sort sort' : Lib.SortRoutine heavier) (files : List (Option Str)) (query : Str) :
    ∃ items, rankedResults cut sort (Index.run cut order files) query = .ok items ∧
      hits items = ((acceptedLines files).map (alone cut order' sort' query)).sum ∧
      (∀ (i : Nat) line, (acceptedLines files)[i]? = some line →
        hits (items.filter fun item => item.1.docId = (i : Int))
          = alone cut order' sort' query line) ∧
      ∀ files', (acceptedLines files').Perm (acceptedLines files) →
        ∃ items', rankedResults cut sort' (Index.run cut order' files') query = .ok items' ∧
          hits items' = hits items ∧
          items'.map (fun item => item.1.weight) = items.map fun item => item.1.weight := by
  have h := Index.run_extends cut order files
  refine ⟨_, rankedResults_eq h sort query, hits_eq_sum_alone h sort sort' order' query, ?_, ?_⟩
  · intro i line hline
    rw [acceptedLines_eq, List.getElem?_map] at hline
    obtain ⟨doc, hdoc, rfl⟩ := Option.map_eq_some_iff.mp hline
    rw [hits_filter h sort query hdoc, alone_joined (List.mem_of_getElem? hdoc)]
  · intro files' hperm
    have h' := Index.run_extends cut order' files'
    have hhits : hits ((ranked cut sort' (Index.run cut order' files') query).map
          fun p => (p, shown (ofFiles files') p))
        = hits ((ranked cut sort (Index.run cut order files) query).map
          fun p => (p, shown (ofFiles files) p)) := by
      rw [hits_eq_sum_alone h sort sort' order' query,
        hits_eq_sum_alone h' sort' sort' order' query]
      exact (hperm.map _).sum_eq
    refine ⟨_, rankedResults_eq h' sort' query, hhits, ?_⟩
    simp only [List.map_map]
    exact map_weight_of_hits sort' sort query hhits

end Searcher

end DocSearcher
