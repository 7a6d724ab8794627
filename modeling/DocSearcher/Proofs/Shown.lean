/-
Whether a snippet shows the word it was found by.

Words are looked up lower-cased, and it is the lower-cased word that `GenerateDesc`
searches for in the content, whose case is as the author wrote it.  When the word
stands in the content as it is, the window is laid around it.  When it stands there
only with capitals, the search fails, and the snippet is the head of the document;
then the word is shown only if the document is short or the head happens to have it.
-/
import DocSearcher.Proofs.Search
import DocSearcher.Proofs.RoundTrip

namespace DocSearcher.Searcher

open Corpus

/--
Up to case, the first 157 bytes of the content have the word in them, or they end
with the beginning of a word whose remaining bytes are dots, three at most.
-/
def HeadShows (content word : Str) : Prop :=
  toLower word <:+: toLower (content.take 157) ∨
    ∃ u k, k ≤ 3 ∧ word = u ++ List.replicate k dot ∧ toLower u <:+ toLower (content.take 157)

/-! ### One snippet -/

private theorem toLower_replicate_dot (k : Nat) :
    toLower (List.replicate k dot) = List.replicate k dot := by
  have hdot : toLowerByte dot = dot := by decide
  unfold toLower
  rw [List.map_replicate, hdot]

private theorem headShows_iff {content word : Str} (hlow : toLower word = word) :
    toLower word <:+: toLower (dotted content) ↔ HeadShows content word := by
  have hdots : toLower (dotted content)
      = toLower (content.take 157) ++ List.replicate 3 dot := by
    unfold dotted
    rw [toLower_append]
    exact congrArg _ (toLower_replicate_dot 3)
  unfold HeadShows
  rw [hdots, Lib.infix_append_replicate_iff]
  refine or_congr_right ⟨fun h => ?_, fun h => ?_⟩
  · obtain ⟨u, k, hk, hu, hsuffix⟩ := h
    refine ⟨u, k, hk, hlow.symm.trans hu, ?_⟩
    have hmap := hsuffix.map toLowerByte
    rwa [show (toLower (content.take 157)).map toLowerByte = toLower (content.take 157) from
      toLower_toLower _] at hmap
  · obtain ⟨u, k, hk, rfl, hsuffix⟩ := h
    exact ⟨toLower u, k, hk, by rw [toLower_append, toLower_replicate_dot], hsuffix⟩

/-- **When the snippet of a document shows a word of the document.** -/
theorem snippet_shows_iff {cut : Str → List Str} (hsub : ∀ text, ∀ token ∈ cut text, token <:+: text)
    {content word : Str} (hlen : word.length ≤ 97) (hword : word ∈ terms cut content) :
    toLower word <:+: toLower (snippet content word) ↔
      word <:+: content ∨ content.length < 160 ∨ HeadShows content word := by
  obtain ⟨token, htoken, rfl⟩ := List.mem_map.mp hword
  by_cases hocc : toLower token <:+: content
  · -- the window is laid around the word
    have hshown : toLower token <:+: snippet content (toLower token) := by
      cases hfind : Lib.find content (toLower token) 0 with
      | none => exact absurd hocc (Lib.find_zero_eq_none_iff.mp hfind)
      | some p => exact Lib.infix_iff_occursAt.mpr ⟨_, (occursAt_snippet hfind hlen).2⟩
    exact ⟨fun _ => Or.inl hocc, fun _ => hshown.map toLowerByte⟩
  · rw [or_iff_right hocc]
    by_cases hshort : content.length < 160
    · -- the whole document is shown, and the token stands in it
      have hmarked : marked content (toLower token) = false := by
        rw [marked_of_absent hocc, decide_eq_false_iff_not]
        omega
      rw [snippet_of_not_marked hmarked, windowStart_of_absent hocc, List.drop_zero]
      refine ⟨fun _ => Or.inl hshort, fun _ => ?_⟩
      rw [toLower_toLower]
      exact (hsub content token htoken).map toLowerByte
    · have hmarked : marked content (toLower token) = true := by
        rw [marked_of_absent hocc, decide_eq_true_iff]
        omega
      rw [or_iff_right hshort, snippet_of_marked hmarked, windowStart_of_absent hocc,
        List.drop_zero]
      exact headShows_iff (toLower_toLower token)

/-! ### All results of a query -/

/--
**When every result shows its word.**  After any `Build` calls, the results of a query
all show their word, up to case, exactly when for each document and each word of the
query among its words (of at most 97 bytes): the word stands in the content without
capitals, or the content is shorter than 160 bytes, or its head has the word.
-/
theorem search_shows_word_iff (cut : Str → List Str)
    (hsub : ∀ text, ∀ token ∈ cut text, token <:+: text)
    (order : Int → Lib.Enumeration Str WordCnt) (sort : Lib.SortRoutine heavier)
    (files : List (Option Str)) (query : Str) :
    ∃ items, results cut sort (Index.run cut order files) query = .ok items ∧
      (List.Forall₂ (fun p item => ∀ docInfo,
          (Index.run cut order files).getDocInfo p.docId = some docInfo →
          p.word.length ≤ 97 → p.word ∈ terms cut docInfo.content →
          toLower p.word <:+: toLower item.desc)
        (ranked cut sort (Index.run cut order files) query) items ↔
      ∀ doc ∈ ofFiles files, ∀ word ∈ terms cut query, word.length ≤ 97 →
        word ∈ terms cut doc.content →
        word <:+: doc.content ∨ doc.content.length < 160 ∨ HeadShows doc.content word) := by
  have h := Index.run_extends cut order files
  refine ⟨_, results_eq h sort query, ?_⟩
  rw [List.forall₂_map_right_iff, List.forall₂_same]
  refine ⟨fun hall doc hdoc word hword hlen hcontent => ?_, fun hall p hp docInfo hget => ?_⟩
  · obtain ⟨i, hi⟩ := List.getElem?_of_mem hdoc
    have hmem : (⟨i, int32 (score cut doc word), word⟩ : Weight)
        ∈ ranked cut sort (Index.run cut order files) query :=
      (ranked_perm h sort query).mem_iff.mpr
        (mem_answer_iff.mpr ⟨i, doc, hi, hword, Or.inr hcontent, rfl, rfl⟩)
    have hget : (Index.run cut order files).getDocInfo i = some (numbered i doc) := by
      rw [h.getDocInfo_natCast, hi]
      rfl
    have hshows := hall _ hmem _ hget hlen hcontent
    rw [shown_of_getElem? hi rfl] at hshows
    exact (snippet_shows_iff hsub hlen hcontent).mp hshows
  · intro hlen hcontent
    obtain ⟨i, doc, hdoc, hword, -, hid, -⟩ :=
      mem_answer_iff.mp ((ranked_perm h sort query).mem_iff.mp hp)
    rw [hid, h.getDocInfo_natCast, hdoc] at hget
    obtain rfl : numbered i doc = docInfo := by simpa using hget
    rw [shown_of_getElem? hdoc hid]
    exact (snippet_shows_iff hsub hlen hcontent).mpr
      (hall doc (List.mem_of_getElem? hdoc) p.word hword hlen hcontent)

/-! ### A capital hides the word -/

/-- 160 bytes `x`, and then the word with a capital. -/
def capitalised : Parser.DocInfo :=
  ⟨[], [], List.replicate 160 120 ++ Parser.space :: bytes ['B', 'o', 'o', 's', 't']⟩

/-- The index of that one document. -/
def capitalisedIndex : Index :=
  Index.run wordsAndSpaces byteOrder [some (Parser.record capitalised)]

private theorem free_capitalised {b : UInt8} (hx : b ≠ 120)
    (hword : b ∉ Parser.space :: bytes ['B', 'o', 'o', 's', 't']) : Free b capitalised := by
  refine ⟨List.not_mem_nil, List.not_mem_nil, fun hmem => ?_⟩
  rcases List.mem_append.mp hmem with hmem | hmem
  · exact hx (List.eq_of_mem_replicate hmem)
  · exact hword hmem

private theorem capitalisedIndex_extends :
    Index.Extends wordsAndSpaces Index.empty [capitalised] capitalisedIndex := by
  have hfile : ofFile ([capitalised].flatMap Parser.record) = [capitalised] := by
    rw [ofFile_records_eq_iff]
    intro doc hdoc
    obtain rfl := List.mem_singleton.mp hdoc
    exact ⟨free_capitalised (by decide) (by decide), free_capitalised (by decide) (by decide)⟩
  have hdocs : ofFiles [some (Parser.record capitalised)] = [capitalised] := by
    rw [List.flatMap_singleton] at hfile
    simpa [ofFiles] using hfile
  have h := Index.run_extends wordsAndSpaces byteOrder [some (Parser.record capitalised)]
  rw [hdocs] at h
  exact h

private theorem terms_capitalised :
    terms wordsAndSpaces capitalised.content
      = [List.replicate 160 120, [Parser.space], bytes ['b', 'o', 'o', 's', 't']] := by
  decide +kernel

private theorem answer_capitalised :
    answer wordsAndSpaces [capitalised] (bytes ['b', 'o', 'o', 's', 't'])
      = [⟨0, 1, bytes ['b', 'o', 'o', 's', 't']⟩] := by
  have hquery : terms wordsAndSpaces (bytes ['b', 'o', 'o', 's', 't'])
      = [bytes ['b', 'o', 'o', 's', 't']] := by decide
  have htitle : (terms wordsAndSpaces capitalised.title).count (bytes ['b', 'o', 'o', 's', 't']) = 0 := by
    decide
  have hscore : score wordsAndSpaces capitalised (bytes ['b', 'o', 'o', 's', 't']) = 1 := by
    have hcontent : (terms wordsAndSpaces capitalised.content).count
        (bytes ['b', 'o', 'o', 's', 't']) = 1 := by
      rw [terms_capitalised]
      decide
    unfold score
    rw [htitle, hcontent]
  have hentry : entry wordsAndSpaces (bytes ['b', 'o', 'o', 's', 't']) 0 capitalised
      = some ⟨0, 1, bytes ['b', 'o', 'o', 's', 't']⟩ := by
    refine (entry_eq_some_iff wordsAndSpaces).mpr ⟨Or.inr (by rw [terms_capitalised]; simp), ?_⟩
    rw [hscore, int32_of_lt (by decide) (by decide)]
    rfl
  unfold answer
  rw [hquery, List.flatMap_singleton, Lib.postings_cons, Lib.postings_nil, hentry]
  rfl

private theorem snippet_capitalised :
    snippet capitalised.content (bytes ['b', 'o', 'o', 's', 't'])
      = List.replicate 157 120 ++ [dot, dot, dot] := by
  have habsent : ¬ bytes ['b', 'o', 'o', 's', 't'] <:+: capitalised.content := by
    intro hin
    -- there is no small `b` in the content
    have hb : (98 : UInt8) ∈ capitalised.content := hin.subset (by decide)
    rcases List.mem_append.mp hb with hb | hb
    · exact absurd (List.eq_of_mem_replicate hb) (by decide)
    · exact absurd hb (by decide)
  have hlen : capitalised.content.length = 166 := by
    unfold capitalised
    rw [List.length_append, List.length_replicate]
    rfl
  have hmarked : marked capitalised.content (bytes ['b', 'o', 'o', 's', 't']) = true := by
    rw [marked_of_absent habsent, hlen]
    rfl
  rw [snippet_of_marked hmarked, windowStart_of_absent habsent, List.drop_zero, dotted]
  unfold capitalised
  rw [List.take_append_of_le_length (by rw [List.length_replicate]; omega),
    List.take_replicate]
  rfl

/--
The word is indexed and found, but the snippet is the head of the document, which
does not show it.
-/
theorem capitalised_word_not_shown :
    (∀ text, ∀ token ∈ wordsAndSpaces text, token <:+: text) ∧
    bytes ['b', 'o', 'o', 's', 't'] ∈ terms wordsAndSpaces capitalised.content ∧
    ranked wordsAndSpaces insertionSort capitalisedIndex
      (bytes ['b', 'o', 'o', 's', 't']) = [⟨0, 1, bytes ['b', 'o', 'o', 's', 't']⟩] ∧
    results wordsAndSpaces insertionSort capitalisedIndex
      (bytes ['b', 'o', 'o', 's', 't'])
        = .ok [⟨[], [], List.replicate 157 120 ++ [dot, dot, dot]⟩] ∧
    ¬ toLower (bytes ['b', 'o', 'o', 's', 't'])
      <:+: toLower (List.replicate 157 120 ++ [dot, dot, dot]) := by
  have h := capitalisedIndex_extends
  have hranked : ranked wordsAndSpaces insertionSort capitalisedIndex
      (bytes ['b', 'o', 'o', 's', 't']) = [⟨0, 1, bytes ['b', 'o', 'o', 's', 't']⟩] := by
    have hperm := ranked_perm h insertionSort
      (bytes ['b', 'o', 'o', 's', 't'])
    rw [answer_capitalised] at hperm
    exact List.perm_singleton.mp hperm
  refine ⟨piece_of_wordsAndSpaces, by rw [terms_capitalised]; simp, hranked, ?_, ?_⟩
  · rw [results_eq h, hranked, List.map_singleton, shown_of_getElem? (i := 0) rfl rfl,
      snippet_capitalised]
    rfl
  · intro hin
    have hb : (98 : UInt8) ∈ toLower (List.replicate 157 120 ++ [dot, dot, dot]) :=
      hin.subset (by decide)
    rw [toLower_append] at hb
    rcases List.mem_append.mp hb with hb | hb
    · rw [toLower, List.map_replicate] at hb
      exact absurd (List.eq_of_mem_replicate hb) (by decide)
    · exact absurd hb (by decide)

/-- The condition applies to that segmenter, index and query. -/
theorem search_shows_word_capitalised :
    (∀ text, ∀ token ∈ wordsAndSpaces text, token <:+: text) ∧
    ∃ items, results wordsAndSpaces insertionSort capitalisedIndex
        (bytes ['b', 'o', 'o', 's', 't']) = .ok items ∧
      (List.Forall₂ (fun p item => ∀ docInfo,
          capitalisedIndex.getDocInfo p.docId = some docInfo →
          p.word.length ≤ 97 → p.word ∈ terms wordsAndSpaces docInfo.content →
          toLower p.word <:+: toLower item.desc)
        (ranked wordsAndSpaces insertionSort capitalisedIndex
          (bytes ['b', 'o', 'o', 's', 't'])) items ↔
      ∀ doc ∈ ofFiles [some (Parser.record capitalised)],
        ∀ word ∈ terms wordsAndSpaces (bytes ['b', 'o', 'o', 's', 't']), word.length ≤ 97 →
        word ∈ terms wordsAndSpaces doc.content →
        word <:+: doc.content ∨ doc.content.length < 160 ∨ HeadShows doc.content word) :=
  ⟨piece_of_wordsAndSpaces, search_shows_word_iff wordsAndSpaces piece_of_wordsAndSpaces byteOrder
    insertionSort [some (Parser.record capitalised)]
    (bytes ['b', 'o', 'o', 's', 't'])⟩

end DocSearcher.Searcher
