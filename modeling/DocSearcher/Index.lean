/-
The forward and inverted indexes, class `Index` of `searcher/searcher.cc`.

`Build` reads a file of records line by line.  An accepted line becomes the next
entry of `forward_index`, numbered by its position, and every word of its title or
content gets one posting appended to its list in `inverted_index`.

Two things are not the program's own and are parameters.  `cut` is the word
segmenter, `jieba.CutForSearch`.  `order` is the order in which the loop of
`BuildInverted` meets the entries of its hash map; the standard leaves it open, so
it may differ from one call to the next, and since no two calls of a run are for
the same `doc_id`, indexing it by `doc_id` loses nothing.
-/
import DocSearcher.Common.Util
import DocSearcher.Lib.Buckets

namespace DocSearcher

structure DocInfo where
  docId : Int
  title : Str
  url : Str
  content : Str
  deriving Repr, DecidableEq

structure Weight where
  docId : Int
  weight : Int
  word : Str
  deriving Repr, DecidableEq

abbrev InvertedList := List Weight

/-- The local struct of `BuildInverted`, with the zeros its constructor sets. -/
structure WordCnt where
  titleCnt : Int := 0
  contentCnt : Int := 0
  deriving Repr, DecidableEq

instance : Inhabited WordCnt := ⟨{}⟩

/-- `unordered_map<string, WordCnt>`. -/
abbrev WordCntMap := Finmap fun _ : Str => WordCnt

structure Index where
  forwardIndex : List DocInfo
  invertedIndex : Finmap fun _ : Str => InvertedList
  deriving DecidableEq

namespace Index

/-- A freshly constructed `Index`. -/
def empty : Index := ⟨[], ∅⟩

/-- `GetDocInfo`; `none` is the null pointer. -/
def getDocInfo (self : Index) (docId : Int) : Option DocInfo :=
  if docId < 0 ∨ docId ≥ self.forwardIndex.length then none
  else self.forwardIndex[docId.toNat]?

/-- `GetInvertedList`; `none` is the null pointer. -/
def getInvertedList (self : Index) (key : Str) : Option InvertedList :=
  self.invertedIndex.lookup key

/-- `BuildForward`: the entry appended for the line, or the null pointer. -/
def buildForward (self : Index) (line : Str) : Option DocInfo × Index :=
  match Util.split line [fieldSep] with
  | [title, url, content] =>
      let docInfo : DocInfo := ⟨self.forwardIndex.length, title, url, content⟩
      (some docInfo, { self with forwardIndex := self.forwardIndex ++ [docInfo] })
  | _ => (none, self)

/-- `++word_cnt_map[word].title_cnt`. -/
def bumpTitle (cnt : WordCnt) : WordCnt := { cnt with titleCnt := int32 (cnt.titleCnt + 1) }

/-- `++word_cnt_map[word].content_cnt`. -/
def bumpContent (cnt : WordCnt) : WordCnt := { cnt with contentCnt := int32 (cnt.contentCnt + 1) }

/-- One counting loop: every token, lower-cased, bumps the counter under its key. -/
def countTokens (bump : WordCnt → WordCnt) (tokens : List Str) (map : WordCntMap) : WordCntMap :=
  tokens.foldl (fun map word => Lib.update map (toLower word) fun cnt => bump cnt) map

variable (cut : Str → List Str) (order : Int → Lib.Enumeration Str WordCnt)

/-- The two counting loops, title first. -/
def wordCntMap (docInfo : DocInfo) : WordCntMap :=
  countTokens bumpContent (cut docInfo.content) (countTokens bumpTitle (cut docInfo.title) ∅)

/-- The posting made of one entry of `word_cnt_map`. -/
def posting (docInfo : DocInfo) (wordPair : Σ _ : Str, WordCnt) : Weight where
  docId := docInfo.docId
  weight := int32 (int32 (10 * wordPair.2.titleCnt) + wordPair.2.contentCnt)
  word := wordPair.1

/-- `BuildInverted`. -/
def buildInverted (self : Index) (docInfo : DocInfo) : Index :=
  { self with
    invertedIndex := ((order docInfo.docId).toList (wordCntMap cut docInfo)).foldl
      (fun inverted wordPair =>
        Lib.update inverted wordPair.1 fun list => list ++ [posting docInfo wordPair])
      self.invertedIndex }

/-- The body of `Build`'s loop. -/
def buildLine (self : Index) (line : Str) : Index :=
  match buildForward self line with
  | (none, self) => self
  | (some docInfo, self) => buildInverted cut order self docInfo

/-- `Build`; `file` is `none` when the stream does not open. -/
def build (self : Index) (file : Option Str) : Bool × Index :=
  match file with
  | none => (false, self)
  | some content => (true, Lib.whileGetline newline (buildLine cut order) self content)

/-- The index after a sequence of `Build` calls on an empty one. -/
def run (files : List (Option Str)) : Index :=
  files.foldl (fun self file => (build cut order self file).2) empty

end Index

end DocSearcher
