/-
What `Build` guarantees.

Two readings of `Extends`.  From an empty index it is exactness: the lists of the
inverted index hold exactly the documents that have the word, once each, in order
of `doc_id`, with the weight the source comments promise as long as the counts fit
an `int`.  From an arbitrary index it is incrementality: whatever was there stays,
what is added comes from well-formed lines only, and reading two files is reading
their concatenation.
-/
import DocSearcher.Proofs.Index
import DocSearcher.Proofs.Records

namespace DocSearcher

open Corpus

/-! ### Reading the abstract lists -/

namespace Corpus

variable (cut : Str → List Str)

theorem getElem?_forward (base : Nat) (docs : Corpus) (i : Nat) :
    (forward base docs)[i]? = (docs[i]?).map (numbered (base + i)) := by
  unfold forward
  rw [List.getElem?_map, List.getElem?_zipIdx]
  cases docs[i]? with
  | none => rfl
  | some doc => rfl

/-- An entry of the forward index without its number. -/
def plain (docInfo : DocInfo) : Parser.DocInfo := ⟨docInfo.title, docInfo.url, docInfo.content⟩

theorem map_plain_forward (base : Nat) (docs : Corpus) :
    (forward base docs).map plain = docs := by
  unfold forward
  rw [List.map_map]
  exact List.zipIdx_map_fst base docs

theorem entry_eq_some_iff {word : Str} {docId : Nat} {doc : Parser.DocInfo} {p : Weight} :
    entry cut word docId doc = some p ↔
      Mentions cut doc word ∧ p = ⟨docId, int32 (score cut doc word), word⟩ := by
  unfold entry
  by_cases h : Mentions cut doc word
  · rw [if_pos h, Option.some.injEq]
    exact ⟨fun hp => ⟨h, hp.symm⟩, fun hp => hp.2.symm⟩
  · rw [if_neg h]
    exact ⟨fun hp => by simp at hp, fun hp => absurd hp.1 h⟩

theorem docId_of_entry {word : Str} (i : Nat) (doc : Parser.DocInfo) (p : Weight)
    (h : entry cut word i doc = some p) : p.docId = (i : Int) := by
  obtain ⟨-, hp⟩ := (entry_eq_some_iff cut).mp h
  rw [hp]

/-- A word has postings when some document mentions it. -/
theorem postings_ne_nil_iff {docs : Corpus} {word : Str} :
    Lib.postings (entry cut word) 0 docs ≠ [] ↔ ∃ doc ∈ docs, Mentions cut doc word := by
  refine ⟨fun hne => ?_, fun hdoc => ?_⟩
  · obtain ⟨p, hp⟩ := List.exists_mem_of_ne_nil _ hne
    obtain ⟨i, doc, hdoc, hentry⟩ := (Lib.mem_postings _).mp hp
    exact ⟨doc, List.mem_of_getElem? hdoc, ((entry_eq_some_iff cut).mp hentry).1⟩
  · obtain ⟨doc, hmem, hmentions⟩ := hdoc
    obtain ⟨i, hi⟩ := List.mem_iff_getElem?.mp hmem
    have hentry : entry cut word (0 + i) doc
        = some ⟨(0 + i : Nat), int32 (score cut doc word), word⟩ :=
      (entry_eq_some_iff cut).mpr ⟨hmentions, rfl⟩
    exact List.ne_nil_of_mem ((Lib.mem_postings _).mpr ⟨i, doc, hi, hentry⟩)

/-- The postings of one document under one word. -/
theorem filter_postings_docId {docs : Corpus} {i : Nat} {doc : Parser.DocInfo}
    (hdoc : docs[i]? = some doc) (word : Str) :
    ((Lib.postings (entry cut word) 0 docs).filter fun p => p.docId = (i : Int))
      = (entry cut word i doc).toList := by
  have hfilter : ((Lib.postings (entry cut word) 0 docs).filter
      fun p => p.docId = ((0 + i : Nat) : Int)) = (entry cut word (0 + i) doc).toList :=
    Lib.filter_postings (fun _ _ => Int.ofNat_lt.mpr) (docId_of_entry cut) hdoc
  rw [Nat.zero_add] at hfilter
  exact hfilter

/-- Below `2 ^ 31` the stored weight is the score. -/
theorem int32_score {doc : Parser.DocInfo}
    (h : 10 * (cut doc.title).length + (cut doc.content).length < 2 ^ 31) (word : Str) :
    int32 (score cut doc word) = score cut doc word := by
  have hle : ∀ text, (terms cut text).count word ≤ (cut text).length := by
    intro text
    calc (terms cut text).count word ≤ (terms cut text).length := List.count_le_length
      _ = (cut text).length := List.length_map _
  have htitle := hle doc.title
  have hcontent := hle doc.content
  refine int32_of_lt (Int.natCast_nonneg _) ?_
  unfold score
  omega

end Corpus

namespace Index

variable (cut : Str → List Str) (order : Int → Lib.Enumeration Str WordCnt)

/-! ### Exactness -/

/-- The inverted index says of the forward index exactly what is true of it. -/
structure Exact (idx : Index) : Prop where
  /-- Documents are numbered by their position. -/
  docId : ∀ (i : Nat) doc, idx.forwardIndex[i]? = some doc → doc.docId = i
  /-- A word's list has an entry for `d` exactly when document `d` has the word. -/
  posted : ∀ (word : Str) (d : Int),
    (∃ list, idx.invertedIndex.lookup word = some list ∧ ∃ p ∈ list, p.docId = d) ↔
      0 ≤ d ∧ d < idx.forwardIndex.length ∧ ∃ doc, idx.forwardIndex[d.toNat]? = some doc ∧
        (word ∈ terms cut doc.title ∨ word ∈ terms cut doc.content)
  /-- There is one such entry; it carries the word and, if the counts fit, its weight. -/
  once : ∀ (word : Str) list (i : Nat) doc, idx.invertedIndex.lookup word = some list →
    idx.forwardIndex[i]? = some doc →
    word ∈ terms cut doc.title ∨ word ∈ terms cut doc.content →
    ∃ p, (list.filter fun q => q.docId = (i : Int)) = [p] ∧ p.word = word ∧
      (10 * (cut doc.title).length + (cut doc.content).length < 2 ^ 31 →
        p.weight = 10 * (terms cut doc.title).count word + (terms cut doc.content).count word)
  /-- No list is empty, and each is in strictly increasing order of documents. -/
  increasing : ∀ (word : Str) list, idx.invertedIndex.lookup word = some list →
    list ≠ [] ∧ list.Pairwise fun p q => p.docId < q.docId

namespace Extends

variable {cut} {docs : Corpus} {idx : Index}

theorem getElem?_forwardIndex (h : Extends cut empty docs idx) (i : Nat) :
    idx.forwardIndex[i]? = (docs[i]?).map (numbered i) := by
  rw [h.forward]
  show (Corpus.forward 0 docs)[i]? = _
  rw [getElem?_forward, Nat.zero_add]

theorem lookup_eq_some_iff (h : Extends cut empty docs idx) {word : Str} {list : InvertedList} :
    idx.invertedIndex.lookup word = some list ↔
      list = Lib.postings (entry cut word) 0 docs ∧ Lib.postings (entry cut word) 0 docs ≠ [] := by
  rw [h.inverted]
  exact Lib.extend_none_eq_some_iff

/-- The keys of the index are the words of the documents. -/
theorem key_iff (h : Extends cut empty docs idx) {word : Str} :
    (∃ list, idx.invertedIndex.lookup word = some list) ↔ ∃ doc ∈ docs, Mentions cut doc word := by
  rw [← postings_ne_nil_iff]
  refine ⟨fun hlook => ?_, fun hne => ⟨_, h.lookup_eq_some_iff.mpr ⟨rfl, hne⟩⟩⟩
  obtain ⟨list, hlook⟩ := hlook
  exact (h.lookup_eq_some_iff.mp hlook).2

theorem docId_forwardIndex (h : Extends cut empty docs idx) {i : Nat} {doc : DocInfo}
    (hdoc : idx.forwardIndex[i]? = some doc) : doc.docId = i := by
  rw [h.getElem?_forwardIndex] at hdoc
  obtain ⟨d, -, rfl⟩ := Option.map_eq_some_iff.mp hdoc
  rfl

theorem posted_iff (h : Extends cut empty docs idx) (word : Str) (d : Int) :
    (∃ list, idx.invertedIndex.lookup word = some list ∧ ∃ p ∈ list, p.docId = d) ↔
      0 ≤ d ∧ d < idx.forwardIndex.length ∧ ∃ doc, idx.forwardIndex[d.toNat]? = some doc ∧
        (word ∈ terms cut doc.title ∨ word ∈ terms cut doc.content) := by
  refine ⟨fun hlist => ?_, fun hdoc => ?_⟩
  · obtain ⟨list, hlook, p, hp, rfl⟩ := hlist
    obtain ⟨rfl, -⟩ := h.lookup_eq_some_iff.mp hlook
    obtain ⟨i, doc, hdoc, hentry⟩ := (Lib.mem_postings _).mp hp
    rw [Nat.zero_add] at hentry
    have hid : p.docId = i := docId_of_entry cut i doc p hentry
    have hget : idx.forwardIndex[i]? = some (numbered i doc) := by
      rw [h.getElem?_forwardIndex, hdoc]
      rfl
    have hlt : i < idx.forwardIndex.length := (List.getElem?_eq_some_iff.mp hget).1
    refine ⟨by omega, by omega, numbered i doc, ?_, ((entry_eq_some_iff cut).mp hentry).1⟩
    rw [hid, Int.toNat_natCast]
    exact hget
  · obtain ⟨hpos, -, doc, hget, hword⟩ := hdoc
    rw [h.getElem?_forwardIndex] at hget
    obtain ⟨d', hd', rfl⟩ := Option.map_eq_some_iff.mp hget
    have hmem : (⟨(d.toNat : Int), int32 (score cut d' word), word⟩ : Weight) ∈
        Lib.postings (entry cut word) 0 docs := by
      refine (Lib.mem_postings _).mpr ⟨d.toNat, d', hd', ?_⟩
      rw [Nat.zero_add]
      exact (entry_eq_some_iff cut).mpr ⟨hword, rfl⟩
    refine ⟨_, h.lookup_eq_some_iff.mpr ⟨rfl, List.ne_nil_of_mem hmem⟩, _, hmem, ?_⟩
    exact Int.toNat_of_nonneg hpos

end Extends

/--
**The index is exact after any sequence of `Build` calls**, whatever the segmenter
returns and in whatever order the counting map is iterated.
-/
theorem run_exact (files : List (Option Str)) : Exact cut (run cut order files) := by
  have h := run_extends cut order files
  refine ⟨fun i doc hdoc => h.docId_forwardIndex hdoc, h.posted_iff, ?_, ?_⟩
  · intro word list i doc hlook hget hword
    rw [h.getElem?_forwardIndex] at hget
    obtain ⟨d, hd, rfl⟩ := Option.map_eq_some_iff.mp hget
    have hentry : entry cut word i d = some ⟨i, int32 (score cut d word), word⟩ :=
      (entry_eq_some_iff cut).mpr ⟨hword, rfl⟩
    refine ⟨⟨i, int32 (score cut d word), word⟩, ?_, rfl, ?_⟩
    · obtain ⟨rfl, -⟩ := h.lookup_eq_some_iff.mp hlook
      rw [filter_postings_docId cut hd, hentry]
      rfl
    · intro hbound
      dsimp only
      rw [int32_score cut hbound]
      simp only [score, numbered]
      omega
  · intro word list hlook
    obtain ⟨rfl, hne⟩ := h.lookup_eq_some_iff.mp hlook
    exact ⟨hne, Lib.pairwise_postings (fun _ _ => Int.ofNat_lt.mpr) (docId_of_entry cut) _ 0⟩

/-! ### Incrementality

Nothing here asks anything of the index `Build` starts from: it need not be the
result of earlier calls.
-/

theorem buildLine_of_count_ne {line : Str} (h : line.count fieldSep ≠ 2) (self : Index) :
    buildLine cut order self line = self := by
  unfold buildLine
  rw [buildForward_of_decode_none (decode_eq_none_of_count h)]

theorem map_joined_forward (base : Nat) (docs : Corpus) :
    (Corpus.forward base docs).map
        (fun doc => doc.title ++ [fieldSep] ++ doc.url ++ [fieldSep] ++ doc.content)
      = docs.map joined := by
  calc (Corpus.forward base docs).map _
      = (Corpus.forward base docs).map (joined ∘ plain) := rfl
    _ = ((Corpus.forward base docs).map plain).map joined := (List.map_map).symm
    _ = docs.map joined := by rw [map_plain_forward]

namespace Extends

variable {cut} {old idx : Index} {docs : Corpus}

/-- Every list that was there is still there, possibly longer. -/
theorem prefix_lookup (h : Extends cut old docs idx) {word : Str} {list : InvertedList}
    (hlook : old.invertedIndex.lookup word = some list) :
    ∃ list', idx.invertedIndex.lookup word = some list' ∧ list <+: list' := by
  rw [h.inverted, hlook]
  by_cases hnew : Lib.postings (entry cut word) old.forwardIndex.length docs = []
  · rw [hnew, Lib.extend_nil]
    exact ⟨list, rfl, List.prefix_refl list⟩
  · rw [Lib.extend_of_ne_nil _ hnew]
    exact ⟨_, rfl, List.prefix_append list _⟩

/-- What a list has gained belongs to the documents added. -/
theorem docId_of_added (h : Extends cut old docs idx) {word : Str} {list : InvertedList}
    (hlook : idx.invertedIndex.lookup word = some list) :
    ∃ added, list = (old.invertedIndex.lookup word).getD [] ++ added ∧
      ∀ p ∈ added, (old.forwardIndex.length : Int) ≤ p.docId := by
  refine ⟨Lib.postings (entry cut word) old.forwardIndex.length docs, ?_, ?_⟩
  · rw [← Lib.getD_extend, ← h.inverted, hlook, Option.getD_some]
  · intro p hp
    obtain ⟨i, doc, -, hentry⟩ := (Lib.mem_postings _).mp hp
    rw [docId_of_entry cut _ doc p hentry]
    omega

end Extends

/--
**`Build` is incremental.**  From any index and on any bytes it appends one entry
per line with exactly two separators, numbered by position and re-encoding to that
line; a malformed line changes nothing, so deleting the malformed lines from the
file changes nothing; posting lists only grow, by postings of the new documents;
a file that ends in a newline can be read in two parts; and a file that does not
open leaves the index alone.
-/
theorem build_incremental (order' : Int → Lib.Enumeration Str WordCnt) (self : Index)
    (file : Str) :
    (∃ added : List DocInfo,
      (build cut order self (some file)).2.forwardIndex = self.forwardIndex ++ added ∧
      added.map (fun doc => doc.title ++ [fieldSep] ++ doc.url ++ [fieldSep] ++ doc.content)
        = ((Lib.lines newline file).filter fun line => line.count fieldSep = 2) ∧
      ∀ (i : Nat) doc, added[i]? = some doc →
        doc.docId = ((self.forwardIndex.length + i : Nat) : Int)) ∧
    (∀ (s : Index) (line : Str), line.count fieldSep ≠ 2 → buildLine cut order s line = s) ∧
    build cut order self (some file) = build cut order' self
      (some (Lib.keepLines newline (fun line => line.count fieldSep = 2) file)) ∧
    (∀ (word : Str) list, self.invertedIndex.lookup word = some list →
      ∃ list', (build cut order self (some file)).2.invertedIndex.lookup word = some list' ∧
        list <+: list') ∧
    (∀ (word : Str) list',
      (build cut order self (some file)).2.invertedIndex.lookup word = some list' →
      ∃ added, list' = (self.invertedIndex.lookup word).getD [] ++ added ∧
        ∀ p ∈ added, (self.forwardIndex.length : Int) ≤ p.docId) ∧
    (∀ file' : Str, Lib.Terminated newline file →
      build cut order self (some (file ++ file')) =
        build cut order' (build cut order' self (some file)).2 (some file')) ∧
    build cut order self none = (false, self) := by
  have h := build_extends cut order self file
  refine ⟨⟨_, h.forward, ?_, ?_⟩, fun s line hline => buildLine_of_count_ne cut order hline s,
    ?_, fun word list => h.prefix_lookup, fun word list => h.docId_of_added, ?_, rfl⟩
  · rw [map_joined_forward]
    exact map_joined_filterMap_decode _
  · intro i doc hdoc
    rw [getElem?_forward] at hdoc
    obtain ⟨d, -, rfl⟩ := Option.map_eq_some_iff.mp hdoc
    rfl
  · refine Prod.ext rfl (h.unique ?_)
    have h' := build_extends cut order' self
      (Lib.keepLines newline (fun line => line.count fieldSep = 2) file)
    unfold ofFile at h' ⊢
    rw [Lib.lines_keepLines, filterMap_decode_filter] at h'
    exact h'
  · intro file' hterm
    refine Prod.ext rfl ((build_extends cut order self (file ++ file')).unique ?_)
    have h' := (build_extends cut order' self file).trans
      (build_extends cut order' (build cut order' self (some file)).2 file')
    unfold ofFile at h' ⊢
    rw [Lib.lines_append _ hterm, List.filterMap_append]
    exact h'

end Index

end DocSearcher
