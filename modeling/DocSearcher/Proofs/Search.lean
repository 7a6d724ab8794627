/-
`Search` computes the corpus's answer.

On an index that stands for a corpus, the merged posting lists are the answer to
the query, word by word; each posting leads back to the document it came from, so
the null check `Search` leaves out is never needed; and the sort only rearranges.
How often a pair of document and word comes up is counted on the answer, where it
is once per occurrence of the word in the query.
-/
import DocSearcher.Searcher
import DocSearcher.Proofs.Build
import DocSearcher.Proofs.Desc
import Mathlib.Data.List.Forall2

namespace DocSearcher

open Corpus

namespace Index.Extends

variable {cut : Str → List Str} {docs : Corpus} {idx : Index}

/-- `GetDocInfo` finds the documents of the corpus and nothing else. -/
theorem getDocInfo_natCast (h : Extends cut empty docs idx) (i : Nat) :
    idx.getDocInfo i = (docs[i]?).map (numbered i) := by
  unfold getDocInfo
  rw [← h.getElem?_forwardIndex, Int.toNat_natCast]
  by_cases hi : i < idx.forwardIndex.length
  · rw [if_neg (by omega)]
  · rw [if_pos (by omega), List.getElem?_eq_none (by omega)]

theorem getDocInfo_of_neg (idx : Index) {d : Int} (hd : d < 0) : idx.getDocInfo d = none := by
  unfold getDocInfo
  rw [if_pos (Or.inl hd)]

theorem getD_getInvertedList (h : Extends cut empty docs idx) (word : Str) :
    (idx.getInvertedList word).getD [] = Lib.postings (entry cut word) 0 docs := by
  unfold getInvertedList
  rw [h.inverted, Lib.getD_extend]
  rfl

end Index.Extends

namespace Searcher

/-! ### Merging -/

private theorem foldl_merge (index : Index) (tokens : List Str) :
    ∀ all : List Weight, tokens.foldl (mergeStep index) all
      = all ++ tokens.flatMap fun word => (index.getInvertedList (toLower word)).getD [] := by
  induction tokens with
  | nil => intro all; simp
  | cons word rest ih =>
      intro all
      rw [List.foldl_cons, ih, List.flatMap_cons, mergeStep]
      cases index.getInvertedList (toLower word) with
      | none => simp
      | some list => simp

/-- **The merged lists are the answer to the query.** -/
theorem mergeTokens_eq {cut : Str → List Str} {docs : Corpus} {idx : Index}
    (h : Index.Extends cut Index.empty docs idx) (query : Str) :
    mergeTokens idx (cut query) = answer cut docs query := by
  unfold mergeTokens answer terms
  rw [foldl_merge, List.nil_append, List.flatMap_map]
  refine List.flatMap_congr fun word _ => ?_
  exact h.getD_getInvertedList (toLower word)

/-- The postings of the answer are those of a document and a word of the query it mentions. -/
theorem mem_answer_iff {cut : Str → List Str} {docs : Corpus} {query : Str} {p : Weight} :
    p ∈ answer cut docs query ↔
      ∃ (i : Nat) (doc : Parser.DocInfo), docs[i]? = some doc ∧ p.word ∈ terms cut query ∧
        Mentions cut doc p.word ∧ p.docId = i ∧ p.weight = int32 (score cut doc p.word) := by
  unfold answer
  rw [List.mem_flatMap]
  refine ⟨fun h => ?_, fun h => ?_⟩
  · obtain ⟨word, hword, hmem⟩ := h
    obtain ⟨i, doc, hdoc, hentry⟩ := (Lib.mem_postings _).mp hmem
    rw [Nat.zero_add] at hentry
    obtain ⟨hmentions, rfl⟩ := (entry_eq_some_iff cut).mp hentry
    exact ⟨i, doc, hdoc, hword, hmentions, rfl, rfl⟩
  · obtain ⟨i, doc, hdoc, hword, hmentions, hid, hweight⟩ := h
    refine ⟨p.word, hword, (Lib.mem_postings _).mpr ⟨i, doc, hdoc, ?_⟩⟩
    rw [Nat.zero_add, entry_eq_some_iff, ← hid, ← hweight]
    exact ⟨hmentions, rfl⟩

theorem ranked_perm {cut : Str → List Str} {docs : Corpus} {idx : Index}
    (h : Index.Extends cut Index.empty docs idx) (sort : Lib.SortRoutine heavier) (query : Str) :
    (ranked cut sort idx query).Perm (answer cut docs query) := by
  unfold ranked
  rw [← mergeTokens_eq h]
  exact sort.perm _

/-! ### How often a document and a word come up -/

private theorem countP_postings_of_ne {cut : Str → List Str} (docs : Corpus) {word word' : Str}
    (hne : word' ≠ word) (d : Int) :
    (Lib.postings (entry cut word') 0 docs).countP (fun p => p.docId = d ∧ p.word = word) = 0 := by
  rw [List.countP_eq_zero]
  intro p hp hc
  obtain ⟨i, doc, -, hentry⟩ := (Lib.mem_postings _).mp hp
  obtain ⟨-, rfl⟩ := (entry_eq_some_iff cut).mp hentry
  exact hne (of_decide_eq_true hc).2

/-- One posting per word of the query that is the word asked about. -/
theorem countP_answer {cut : Str → List Str} (docs : Corpus) (query word : Str) (d : Int) :
    (answer cut docs query).countP (fun p => p.docId = d ∧ p.word = word)
      = (terms cut query).count word *
        (Lib.postings (entry cut word) 0 docs).countP (fun p => p.docId = d ∧ p.word = word) := by
  unfold answer
  induction terms cut query with
  | nil => simp
  | cons w rest ih =>
      rw [List.flatMap_cons, List.countP_append, ih, List.count_cons]
      by_cases hw : w = word
      · subst hw
        simp [Nat.add_mul, Nat.add_comm]
      · rw [countP_postings_of_ne docs hw d]
        simp [hw]

/-- A document has one posting under a word it mentions and none under any other. -/
theorem countP_postings {cut : Str → List Str} {docs : Corpus} {i : Nat} {doc : Parser.DocInfo}
    (hdoc : docs[i]? = some doc) (word : Str) :
    (Lib.postings (entry cut word) 0 docs).countP
        (fun p => p.docId = (i : Int) ∧ p.word = word)
      = if Mentions cut doc word then 1 else 0 := by
  have hword : ∀ p ∈ Lib.postings (entry cut word) 0 docs, p.word = word := by
    intro p hp
    obtain ⟨j, d, -, hentry⟩ := (Lib.mem_postings _).mp hp
    obtain ⟨-, rfl⟩ := (entry_eq_some_iff cut).mp hentry
    rfl
  have hcount : (Lib.postings (entry cut word) 0 docs).countP
        (fun p => p.docId = (i : Int) ∧ p.word = word)
      = (Lib.postings (entry cut word) 0 docs).countP (fun p => p.docId = (i : Int)) := by
    refine List.countP_congr fun p hp => ?_
    simp [hword p hp]
  rw [hcount, List.countP_eq_length_filter, filter_postings_docId cut hdoc]
  unfold entry
  by_cases hm : Mentions cut doc word
  · rw [if_pos hm, if_pos hm]
    rfl
  · rw [if_neg hm, if_neg hm]
    rfl

/-! ### Making the results -/

/-- The result shown for a posting of the corpus's answer. -/
def shown (docs : Corpus) (p : Weight) : SearchResult :=
  match docs[p.docId.toNat]? with
  | none => ⟨[], [], []⟩
  | some doc => ⟨doc.title, doc.url, snippet doc.content p.word⟩

theorem shown_of_getElem? {docs : Corpus} {p : Weight} {i : Nat} {doc : Parser.DocInfo}
    (hdoc : docs[i]? = some doc) (hid : p.docId = i) :
    shown docs p = ⟨doc.title, doc.url, snippet doc.content p.word⟩ := by
  unfold shown
  rw [hid, Int.toNat_natCast, hdoc]

private theorem mapM_ok {α β : Type} {f : α → Except Fault β} {g : α → β} {l : List α}
    (h : ∀ x ∈ l, f x = .ok (g x)) : l.mapM f = .ok (l.map g) := by
  induction l with
  | nil => rfl
  | cons x rest ih =>
      rw [List.mapM_cons, h x (by simp), ih fun x' hx' => h x' (by simp [hx'])]
      rfl

/-- A posting of the answer leads back to its document. -/
theorem getDocInfo_of_mem_ranked {cut : Str → List Str} {docs : Corpus} {idx : Index}
    (h : Index.Extends cut Index.empty docs idx) (sort : Lib.SortRoutine heavier) {query : Str}
    {p : Weight} (hp : p ∈ ranked cut sort idx query) :
    ∃ (i : Nat) (doc : Parser.DocInfo), docs[i]? = some doc ∧ Mentions cut doc p.word ∧
      p.docId = i ∧ p.weight = int32 (score cut doc p.word) ∧
      idx.getDocInfo p.docId = some (numbered i doc) := by
  obtain ⟨i, doc, hdoc, -, hmentions, hid, hweight⟩ :=
    mem_answer_iff.mp ((ranked_perm h sort query).mem_iff.mp hp)
  refine ⟨i, doc, hdoc, hmentions, hid, hweight, ?_⟩
  rw [hid, h.getDocInfo_natCast, hdoc]
  rfl

/-- **`Search` builds its results without a fault**, one per ranked posting. -/
theorem results_eq {cut : Str → List Str} {docs : Corpus} {idx : Index}
    (h : Index.Extends cut Index.empty docs idx) (sort : Lib.SortRoutine heavier) (query : Str) :
    results cut sort idx query = .ok ((ranked cut sort idx query).map (shown docs)) := by
  unfold results
  refine mapM_ok fun p hp => ?_
  obtain ⟨i, doc, hdoc, -, hid, -, hget⟩ := getDocInfo_of_mem_ranked h sort hp
  unfold makeResult
  rw [hget, shown_of_getElem? hdoc hid]
  dsimp only
  rw [generateDesc_eq]
  rfl

/-- `Search` writes its results out. -/
theorem search_of_results {cut : Str → List Str} {sort : Lib.SortRoutine heavier} {idx : Index}
    {query : Str} {items : List SearchResult} (h : results cut sort idx query = .ok items)
    (write : List SearchResult → Str) :
    search cut sort write idx query = .ok (true, write items) := by
  unfold search
  rw [h]
  rfl

/-- How often each pair of document and word is ranked. -/
theorem countP_ranked {cut : Str → List Str} {docs : Corpus} {idx : Index}
    (h : Index.Extends cut Index.empty docs idx) (sort : Lib.SortRoutine heavier)
    (query word : Str) (d : Int) :
    (ranked cut sort idx query).countP (fun p => p.docId = d ∧ p.word = word)
      = match idx.getDocInfo d with
        | none => 0
        | some docInfo =>
            if word ∈ terms cut docInfo.title ∨ word ∈ terms cut docInfo.content then
              (terms cut query).count word
            else 0 := by
  rw [(ranked_perm h sort query).countP_eq]
  cases hget : idx.getDocInfo d with
  | none =>
      rw [List.countP_eq_zero]
      intro p hp hc
      obtain ⟨i, doc, hdoc, -, -, hid, -⟩ := mem_answer_iff.mp hp
      rw [← (of_decide_eq_true hc).1, hid, h.getDocInfo_natCast, hdoc] at hget
      simp at hget
  | some docInfo =>
      have hnonneg : 0 ≤ d := by
        by_contra hneg
        rw [Index.Extends.getDocInfo_of_neg idx (by omega)] at hget
        simp at hget
      obtain ⟨i, rfl⟩ := Int.eq_ofNat_of_zero_le hnonneg
      rw [h.getDocInfo_natCast] at hget
      obtain ⟨doc, hdoc, rfl⟩ := Option.map_eq_some_iff.mp hget
      rw [countP_answer, countP_postings hdoc]
      show _ = if Mentions cut doc word then (terms cut query).count word else 0
      by_cases hm : Mentions cut doc word
      · rw [if_pos hm, if_pos hm, Nat.mul_one]
      · rw [if_neg hm, if_neg hm, Nat.mul_zero]

/-- What a list of results owes to the query and the index it was made from. -/
structure Answers (cut : Str → List Str) (idx : Index) (query : Str) (all : List Weight)
    (items : List SearchResult) : Prop where
  /-- The items are made from the postings in turn, each from the document it names. -/
  made : List.Forall₂ (fun p item => ∃ docInfo, idx.getDocInfo p.docId = some docInfo ∧
    item.title = docInfo.title ∧ item.url = docInfo.url ∧
    generateDesc docInfo.content p.word = .ok item.desc) all items
  /-- A document and a word come up once per occurrence of the word in the query. -/
  count : ∀ (d : Int) (word : Str),
    all.countP (fun p => p.docId = d ∧ p.word = word) =
      match idx.getDocInfo d with
      | none => 0
      | some docInfo =>
          if word ∈ terms cut docInfo.title ∨ word ∈ terms cut docInfo.content then
            (terms cut query).count word
          else 0
  /-- The heaviest come first, as long as the counts fit an `int`. -/
  ordered : (∀ docInfo ∈ idx.forwardIndex,
      10 * (cut docInfo.title).length + (cut docInfo.content).length < 2 ^ 31) →
    all.Pairwise fun p q => ∀ docInfo docInfo', idx.getDocInfo p.docId = some docInfo →
      idx.getDocInfo q.docId = some docInfo' →
      10 * (terms cut docInfo'.title).count q.word + (terms cut docInfo'.content).count q.word ≤
        10 * (terms cut docInfo.title).count p.word + (terms cut docInfo.content).count p.word

/-- Below `2 ^ 31` the weight of a ranked posting is the score of its document. -/
theorem weight_of_mem_ranked {cut : Str → List Str} {docs : Corpus} {idx : Index}
    (h : Index.Extends cut Index.empty docs idx) (sort : Lib.SortRoutine heavier) {query : Str}
    (hbound : ∀ docInfo ∈ idx.forwardIndex,
      10 * (cut docInfo.title).length + (cut docInfo.content).length < 2 ^ 31)
    {p : Weight} (hp : p ∈ ranked cut sort idx query) {docInfo : DocInfo}
    (hget : idx.getDocInfo p.docId = some docInfo) :
    p.weight = ((10 * (terms cut docInfo.title).count p.word
      + (terms cut docInfo.content).count p.word : Nat) : Int) := by
  obtain ⟨i, doc, hdoc, -, -, hweight, hget'⟩ := getDocInfo_of_mem_ranked h sort hp
  rw [hget, Option.some.injEq] at hget'
  subst hget'
  have hmem : numbered i doc ∈ idx.forwardIndex := by
    refine List.mem_of_getElem? (i := i) ?_
    rw [h.getElem?_forwardIndex, hdoc]
    rfl
  rw [hweight, int32_score cut (hbound _ hmem)]
  rfl

theorem ranked_ordered {cut : Str → List Str} {docs : Corpus} {idx : Index}
    (h : Index.Extends cut Index.empty docs idx) (sort : Lib.SortRoutine heavier) {query : Str}
    (hbound : ∀ docInfo ∈ idx.forwardIndex,
      10 * (cut docInfo.title).length + (cut docInfo.content).length < 2 ^ 31) :
    (ranked cut sort idx query).Pairwise fun p q => ∀ docInfo docInfo',
      idx.getDocInfo p.docId = some docInfo → idx.getDocInfo q.docId = some docInfo' →
      10 * (terms cut docInfo'.title).count q.word + (terms cut docInfo'.content).count q.word ≤
        10 * (terms cut docInfo.title).count p.word + (terms cut docInfo.content).count p.word := by
  have hsorted := sort.ordered (mergeTokens idx (cut query))
  refine List.Pairwise.imp_of_mem ?_ hsorted
  intro p q hp hq hpq docInfo docInfo' hget hget'
  have hle : q.weight ≤ p.weight := by simpa [heavier, Lib.SortRoutine.descending] using hpq
  rw [weight_of_mem_ranked h sort hbound hp hget, weight_of_mem_ranked h sort hbound hq hget'] at hle
  exact Int.ofNat_le.mp hle

/--
**`Search` is sound and complete, and ranks by weight**, on every index that `Build`
calls can produce, for every segmenter, sort and query.
-/
theorem search_correct (cut : Str → List Str) (order : Int → Lib.Enumeration Str WordCnt)
    (sort : Lib.SortRoutine heavier) (files : List (Option Str)) (query : Str) :
    ∃ items, results cut sort (Index.run cut order files) query = .ok items ∧
      (∀ write, search cut sort write (Index.run cut order files) query
        = .ok (true, write items)) ∧
      Answers cut (Index.run cut order files) query
        (ranked cut sort (Index.run cut order files) query) items := by
  have h := Index.run_extends cut order files
  have hresults := results_eq h sort query
  refine ⟨_, hresults, search_of_results hresults, ?_, ?_, ?_⟩
  · refine List.forall₂_map_right_iff.mpr (List.forall₂_same.mpr fun p hp => ?_)
    obtain ⟨i, doc, hdoc, -, hid, -, hget⟩ := getDocInfo_of_mem_ranked h sort hp
    rw [shown_of_getElem? hdoc hid]
    exact ⟨_, hget, rfl, rfl, generateDesc_eq _ _⟩
  · intro d word
    exact countP_ranked h sort query word d
  · intro hbound
    exact ranked_ordered h sort hbound

end Searcher

end DocSearcher
