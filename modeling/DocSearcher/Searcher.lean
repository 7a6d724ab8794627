/-
Answering a query, class `Searcher` of `searcher/searcher.cc`.

The sort and the JSON writer belong to libraries.  Of `std::sort` only its
contract is used, so it is a `SortRoutine`; the writer comes after everything
proved here and is a function of the list of results.
-/
import DocSearcher.Index
import DocSearcher.Lib.Rank

namespace DocSearcher

/-- The fields of one JSON object of the answer. -/
structure SearchResult where
  title : Str
  url : Str
  desc : Str
  deriving Repr, DecidableEq

/-- The comparator of `Search`: the heavier posting first. -/
def heavier : Weight → Weight → Bool := Lib.SortRoutine.descending Weight.weight

namespace Searcher

/-- `substr(beg, 160)` with its last three bytes turned into dots. -/
def ellipsis (content : Str) (descBeg : Nat) : Except Fault Str := do
  let desc ← substr content descBeg 160
  let desc ← setAt desc (← sizeSub desc.length 1) dot
  let desc ← setAt desc (← sizeSub desc.length 2) dot
  setAt desc (← sizeSub desc.length 3) dot

/-- `GenerateDesc`.  The sum `desc_beg + 160` cannot wrap: no string is that long. -/
def generateDesc (content word : Str) : Except Fault Str :=
  match Lib.find content word 0 with
  | none =>
      if content.length < 160 then .ok content
      else ellipsis content 0
  | some firstPos => do
      let descBeg ← (if firstPos < 60 then .ok 0 else sizeSub firstPos 60)
      if descBeg + 160 ≥ content.length then substrFrom content descBeg
      else ellipsis content descBeg

/-- One iteration of the loop of `Search` that merges posting lists. -/
def mergeStep (index : Index) (all : List Weight) (word : Str) : List Weight :=
  match index.getInvertedList (toLower word) with
  | none => all
  | some invertedList => all ++ invertedList

/-- The loop of `Search` over the query's words. -/
def mergeTokens (index : Index) (tokens : List Str) : List Weight :=
  tokens.foldl (mergeStep index) []

/-- One iteration of the loop of `Search` that builds the results. -/
def makeResult (index : Index) (weight : Weight) : Except Fault SearchResult :=
  match index.getDocInfo weight.docId with
  | none => .error .nullDeref
  | some docInfo => do
      let desc ← generateDesc docInfo.content weight.word
      return ⟨docInfo.title, docInfo.url, desc⟩

variable (cut : Str → List Str) (sort : Lib.SortRoutine heavier)

/-- `all_token_result` after the sort. -/
def ranked (index : Index) (query : Str) : List Weight :=
  sort.sort (mergeTokens index (cut query))

/-- `results` before it is serialised. -/
def results (index : Index) (query : Str) : Except Fault (List SearchResult) :=
  (ranked cut sort index query).mapM (makeResult index)

/-- `Search`: the return value and `*output`. -/
def search (write : List SearchResult → Str) (index : Index) (query : Str) :
    Except Fault (Bool × Str) := do
  let results ← results cut sort index query
  return (true, write results)

/-- `Init`. -/
def init (order : Int → Lib.Enumeration Str WordCnt) (fs : FileSystem) (inputPath : Str)
    (index : Index) : Bool × Index :=
  index.build cut order (fs inputPath)

end Searcher

end DocSearcher
