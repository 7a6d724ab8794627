/-
A `Searcher` as an object.

Its user may call `Init` and `Search` in any order and any number of times, with files
that change in between.  What the object then is, is a list of documents: a call of
`Init` that opens its file adds the documents of the file, one that does not adds none,
and a call of `Search` changes nothing and answers from the documents there are.  The
index refines that, call by call, so every log of calls is one the list of documents
could have produced.

In that reading two things are plain that the code does not say.  `Init` adds and does
not replace, so a second `Init` on the same file doubles every answer.  And a query is
no more than its words: a query put together from two others has the results of both.
-/
import DocSearcher.Lib.Machine
import DocSearcher.Proofs.Distribute
import DocSearcher.Proofs.Pipeline

namespace DocSearcher.Searcher

open Corpus

variable (cut : Str → List Str) (order : Int → Lib.Enumeration Str WordCnt)
  (sort : Lib.SortRoutine heavier) (write : List SearchResult → Str)

/-- A call with what it returned; for `Init`, also the files at that time. -/
inductive Call
  | init (fs : FileSystem) (inputPath : Str) (ret : Bool)
  | search (query : Str) (reply : Except Fault (Bool × Str))

/-- The file a call reads. -/
def Call.file : Call → Option Str
  | .init fs inputPath _ => fs inputPath
  | .search _ _ => none

/-- The calls as the code makes them. -/
def Steps (index : Index) (call : Call) (index' : Index) : Prop :=
  match call with
  | .init fs inputPath ret => init cut order fs inputPath index = (ret, index')
  | .search query reply => Searcher.search cut sort write index query = reply ∧ index' = index

/-- The calls as calls on a list of documents. -/
def Spec (docs : Corpus) (call : Call) (docs' : Corpus) : Prop :=
  match call with
  | .init fs inputPath ret => ret = (fs inputPath).isSome ∧ docs' = docs ++ ofFiles [fs inputPath]
  | .search query reply => docs' = docs ∧
      ∃ hits, reply = .ok (true, write (hits.map display)) ∧ hits.Perm (found cut docs query) ∧
        ((∀ doc ∈ docs, 10 * (cut doc.title).length + (cut doc.content).length < 2 ^ 31) →
          Ranked cut hits)

theorem init_extends {docs : Corpus} {index index' : Index} {fs : FileSystem} {inputPath : Str}
    {ret : Bool} (h : Index.Extends cut Index.empty docs index)
    (hinit : init cut order fs inputPath index = (ret, index')) :
    ret = (fs inputPath).isSome ∧
      Index.Extends cut Index.empty (docs ++ ofFiles [fs inputPath]) index' := by
  unfold init at hinit
  cases hfile : fs inputPath with
  | none =>
      rw [hfile] at hinit
      obtain ⟨rfl, rfl⟩ := Prod.mk.inj hinit
      have hnone : ofFiles [none] = [] := rfl
      rw [hnone, List.append_nil]
      exact ⟨rfl, h⟩
  | some file =>
      rw [hfile] at hinit
      obtain ⟨rfl, rfl⟩ := Prod.mk.inj hinit
      have hone : ofFiles [some file] = ofFile file := List.append_nil _
      rw [hone]
      exact ⟨rfl, h.trans (Index.build_extends cut order index file)⟩

/-- **Each call on the index is the call on the documents it stands for.** -/
theorem simulation :
    Lib.Simulation (Steps cut order sort write) (Spec cut write)
      fun index docs => Index.Extends cut Index.empty docs index := by
  intro index docs call index' h hstep
  cases call with
  | init fs inputPath ret =>
      obtain ⟨hret, hindex⟩ := init_extends cut order h hstep
      exact ⟨_, ⟨hret, rfl⟩, hindex⟩
  | search query reply =>
      obtain ⟨rfl, rfl⟩ := hstep
      obtain ⟨hits, hresults, hperm, hranked⟩ := results_found cut sort h query
      exact ⟨docs, ⟨rfl, hits, search_of_results hresults write, hperm, hranked⟩, h⟩

/-- The documents after some calls are those of the files the calls read. -/
theorem docs_of_run {calls : List Call} {docs : Corpus}
    (h : Lib.Run (Spec cut write) [] calls docs) : docs = ofFiles (calls.map Call.file) := by
  have hstart : ([] : Corpus) = ofFiles (([] : List Call).map Call.file) := rfl
  refine h.history (P := fun past docs => docs = ofFiles (past.map Call.file)) ?_ hstart
  intro past docs call docs' hstep hdocs
  have happend : ofFiles ((past ++ [call]).map Call.file) = docs ++ ofFiles [call.file] := by
    rw [hdocs, List.map_append]
    exact List.flatMap_append
  rw [happend]
  cases call with
  | init fs inputPath ret => exact hstep.2
  | search query reply => exact hstep.1.trans (List.append_nil _).symm

/--
**A `Searcher` is a list of documents.**  Every log of `Init` and `Search` calls, in
any order and on any files, is a log of the list of documents that `Init` adds to and
`Search` answers from; at the end the list has the documents of all files read.
-/
theorem session_refines {calls : List Call} {index : Index}
    (h : Lib.Run (Steps cut order sort write) Index.empty calls index) :
    Lib.Run (Spec cut write) [] calls (ofFiles (calls.map Call.file)) ∧
      Index.Extends cut Index.empty (ofFiles (calls.map Call.file)) index := by
  obtain ⟨docs, hspec, hindex⟩ :=
    (simulation cut order sort write).run h (Index.Extends.refl Index.empty)
  rw [← docs_of_run cut write hspec]
  exact ⟨hspec, hindex⟩

/-- A failed `Init`, one on a file with one record, and a search that finds it. -/
def threeCalls : List Call :=
  [.init (fun _ => none) [] false, .init HttpServer.filesA [] true,
    .search (bytes ['a']) (.ok (true, bytes ['A']))]

/-- Three calls and what they make of the object, which ends up with the one document. -/
theorem session_refines_threeCalls :
    Lib.Run (Steps wordsAndSpaces byteOrder insertionSort HttpServer.writeTitles) Index.empty
        threeCalls HttpServer.indexA ∧
      Lib.Run (Spec wordsAndSpaces HttpServer.writeTitles) [] threeCalls [HttpServer.docA] := by
  have hrun : Lib.Run (Steps wordsAndSpaces byteOrder insertionSort HttpServer.writeTitles)
      Index.empty threeCalls HttpServer.indexA :=
    .cons rfl (.cons (HttpServer.init_filesA []) (.cons ⟨rfl, rfl⟩ (.nil _)))
  have hdocs : ofFiles (threeCalls.map Call.file) = [HttpServer.docA] := by decide
  exact ⟨hrun, hdocs ▸ (session_refines _ _ _ _ hrun).1⟩

/-! ### What follows for answers -/

variable {cut}

theorem sum_own_replicate (query : Str) (file : Option Str) (n : Nat) :
    ((ofFiles (List.replicate n file)).map (own cut query)).sum
      = n • ((ofFiles [file]).map (own cut query)).sum := by
  induction n with
  | zero => simp [ofFiles]
  | succ n ih =>
      have hsplit : ofFiles (List.replicate (n + 1) file)
          = ofFiles [file] ++ ofFiles (List.replicate n file) := by
        rw [List.replicate_succ, ← List.singleton_append]
        exact List.flatMap_append
      rw [hsplit, List.map_append, List.sum_append, ih, succ_nsmul']

/-- **Reading a file `n` times multiplies every answer by `n`**; weights and snippets stay. -/
theorem search_after_repeated_init (query : Str) (file : Option Str) (n : Nat) :
    ∃ once items, rankedResults cut sort (Index.run cut order [file]) query = .ok once ∧
      rankedResults cut sort (Index.run cut order (List.replicate n file)) query = .ok items ∧
      hits items = n • hits once := by
  have h := Index.run_extends cut order [file]
  have h' := Index.run_extends cut order (List.replicate n file)
  refine ⟨_, _, rankedResults_eq h sort query, rankedResults_eq h' sort query, ?_⟩
  rw [hits_eq_sum h, hits_eq_sum h', sum_own_replicate]

theorem own_add {query query₁ query₂ : Str}
    (h : (terms cut query).Perm (terms cut query₁ ++ terms cut query₂)) (doc : Parser.DocInfo) :
    own cut query doc = own cut query₁ doc + own cut query₂ doc := by
  unfold own
  rw [Multiset.coe_add, ← List.filterMap_append]
  exact Multiset.coe_eq_coe.mpr (h.filterMap _)

/--
**A query is its words.**  If the words of one query are those of two others together,
in any order, its results are the results of both.
-/
theorem search_adds_words (files : List (Option Str)) {query query₁ query₂ : Str}
    (hwords : (terms cut query).Perm (terms cut query₁ ++ terms cut query₂)) :
    ∃ items items₁ items₂,
      rankedResults cut sort (Index.run cut order files) query = .ok items ∧
      rankedResults cut sort (Index.run cut order files) query₁ = .ok items₁ ∧
      rankedResults cut sort (Index.run cut order files) query₂ = .ok items₂ ∧
      hits items = hits items₁ + hits items₂ := by
  have h := Index.run_extends cut order files
  refine ⟨_, _, _, rankedResults_eq h sort query, rankedResults_eq h sort query₁,
    rankedResults_eq h sort query₂, ?_⟩
  rw [hits_eq_sum h, hits_eq_sum h, hits_eq_sum h, ← List.sum_map_add]
  exact congrArg List.sum (List.map_congr_left fun doc _ => own_add hwords doc)

/-- A query of a word and a space finds what the space and the word find. -/
theorem search_adds_words_docA :
    ∃ items items₁ items₂,
      rankedResults wordsAndSpaces insertionSort HttpServer.indexA (bytes ['a', ' ']) = .ok items ∧
      rankedResults wordsAndSpaces insertionSort HttpServer.indexA (bytes [' ']) = .ok items₁ ∧
      rankedResults wordsAndSpaces insertionSort HttpServer.indexA (bytes ['a']) = .ok items₂ ∧
      items₁ = [(⟨0, 1, bytes [' ']⟩, display (HttpServer.docA, bytes [' ']))] ∧
      items₂ = [(⟨0, 11, bytes ['a']⟩, display (HttpServer.docA, bytes ['a']))] ∧
      hits items = hits items₁ + hits items₂ := by
  have hindex : Index.run wordsAndSpaces byteOrder [some (Parser.record HttpServer.docA)]
      = HttpServer.indexA := congrArg Prod.snd (HttpServer.init_filesA [])
  have hwords : (terms wordsAndSpaces (bytes ['a', ' '])).Perm
      (terms wordsAndSpaces (bytes [' ']) ++ terms wordsAndSpaces (bytes ['a'])) := by decide
  obtain ⟨items, items₁, items₂, hitems, hitems₁, hitems₂, hsum⟩ := search_adds_words byteOrder
    insertionSort [some (Parser.record HttpServer.docA)] hwords
  rw [hindex] at hitems hitems₁ hitems₂
  exact ⟨items, items₁, items₂, hitems, hitems₁, hitems₂, (Except.ok.inj hitems₁).symm,
    (Except.ok.inj hitems₂).symm, hsum⟩

end DocSearcher.Searcher
