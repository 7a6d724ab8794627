/-
The two console programs, `searcher/searcher_test.cc` and `searcher/index_test.cc`.

The first reads words from standard input and prints the answer to each; the second
prints the posting list of one word.  A program is its exit status and what it writes to
standard output: what its `main` writes, and before that what `Build` does, which
complains there of a file it cannot open and of every line that is not a record.  What
`Build` writes to standard error is left out.
-/
import DocSearcher.HttpServer
import DocSearcher.Lib.Words

namespace DocSearcher

/-- `isspace` in the default C locale. -/
def isspace (c : UInt8) : Bool := c = 32 ∨ (9 ≤ c ∧ c ≤ 13)

/-- An `int` as `operator<<` writes it. -/
def decimal (z : Int) : Str := bytes (toString z).toList

namespace Index

/-! The texts `Build` and `BuildForward` complain with, with the bytes the source file has. -/

def openFailed : Str :=
  bytes ['r', 'a', 'w', '_', 'i', 'n', 'p', 'u', 't']
    ++ [0xCE, 0xC4, 0xBC, 0xFE, 0xB4, 0xF2, 0xBF, 0xAA, 0xCA, 0xA7, 0xB0, 0xDC]

def forwardFailed : Str := [0xCE, 0xC4, 0xBC, 0xFE, 0xB9, 0xB9, 0xD4, 0xEC, 0xCA, 0xA7, 0xB0, 0xDC]

def lineFailed : Str :=
  [0xB9, 0xB9, 0xD4, 0xEC, 0xD5, 0xFD, 0xC5, 0xC5, 0xCB, 0xF7, 0xD2, 0xFD, 0xCA, 0xA7, 0xB0, 0xDC]

/-- What one line makes `BuildForward`, and then the loop of `Build`, print. -/
def lineOutput (line : Str) : Str :=
  let tokes := Util.split line [fieldSep]
  if tokes.length ≠ 3 then
    forwardFailed ++ decimal tokes.length ++ [newline] ++ lineFailed ++ [newline]
  else []

/-- What `Build` writes to standard output. -/
def buildOutput (inputPath : Str) (file : Option Str) : Str :=
  match file with
  | none => inputPath ++ openFailed ++ [newline]
  | some content => Lib.whileGetline newline (fun out line => out ++ lineOutput line) [] content

end Index

namespace SearcherTest

/-- The message when `Init` fails, with the bytes the source file has. -/
def initFailed : Str :=
  bytes ['S', 'e', 'a', 'r', 'c', 'h', 'e', 'r', ' ']
    ++ [0xB3, 0xF5, 0xCA, 0xBC, 0xBB, 0xAF, 0xCA, 0xA7, 0xB0, 0xDC]

/-- `"searcher> "`. -/
def prompt : Str := bytes ['s', 'e', 'a', 'r', 'c', 'h', 'e', 'r', '>', ' ']

/-- `"goodbye"`. -/
def goodbye : Str := bytes ['g', 'o', 'o', 'd', 'b', 'y', 'e']

variable (cut : Str → List Str) (sort : Lib.SortRoutine heavier) (write : List SearchResult → Str)

/-- The loop of `main`, on the rest of the input and the output so far. -/
def loop (index : Index) (input out : Str) : Except Fault Str :=
  let out := out ++ prompt
  match h : Lib.extract isspace input with
  | (_, none) => .ok (out ++ goodbye ++ [newline])
  | (query, some rest) => do
      have : rest.length < input.length := Lib.extract_length_lt h
      let (_, results) ← Searcher.search cut sort write index query
      loop index rest (out ++ results ++ [newline])
termination_by input.length

/-- `main` of `searcher_test.cc`. -/
def main (order : Int → Lib.Enumeration Str WordCnt) (fs : FileSystem) (input : Str) :
    Except Fault (Nat × Str) :=
  let built := Index.buildOutput HttpServer.rawInputPath (fs HttpServer.rawInputPath)
  match Searcher.init cut order fs HttpServer.rawInputPath Index.empty with
  | (false, _) => .ok (1, built ++ initFailed ++ [newline])
  | (true, index) => do
      let out ← loop cut sort write index input built
      return (0, out)

end SearcherTest

namespace IndexTest

/-- The message when `Build` fails, with the bytes the source file has. -/
def buildFailed : Str := [0xCB, 0xF7, 0xD2, 0xFD, 0xB9, 0xB9, 0xBD, 0xA8, 0xCA, 0xA7, 0xB0, 0xDC]

/-- `"filesystem"`. -/
def filesystem : Str := bytes ['f', 'i', 'l', 'e', 's', 'y', 's', 't', 'e', 'm']

/-- The first line printed for a posting. -/
def postingLine (weight : Weight) : Str :=
  bytes ['d', 'o', 'c', '_', 'i', 'd', ':'] ++ decimal weight.docId
    ++ bytes ['w', 'e', 'i', 'g', 'h', 't', ':'] ++ decimal weight.weight ++ [newline]

/-- The lines printed for its document, and the line of 64 equals signs. -/
def docLines (docInfo : DocInfo) : Str :=
  bytes ['t', 'i', 't', 'l', 'e', ':'] ++ docInfo.title ++ [newline]
    ++ bytes ['u', 'r', 'l', ':'] ++ docInfo.url ++ [newline]
    ++ bytes ['c', 'o', 'n', 't', 'e', 'n', 't', ':'] ++ docInfo.content ++ [newline]
    ++ List.replicate 64 61 ++ [newline]

/-- One iteration of the loop of `main`. -/
def printPosting (index : Index) (out : Str) (weight : Weight) : Except Fault Str :=
  match index.getDocInfo weight.docId with
  | none => .error .nullDeref
  | some docInfo => .ok (out ++ postingLine weight ++ docLines docInfo)

/-- `main` of `index_test.cc`, which does not test the list for the null pointer. -/
def main (cut : Str → List Str) (order : Int → Lib.Enumeration Str WordCnt) (fs : FileSystem) :
    Except Fault (Nat × Str) :=
  let built := Index.buildOutput HttpServer.rawInputPath (fs HttpServer.rawInputPath)
  match Index.build cut order Index.empty (fs HttpServer.rawInputPath) with
  | (false, _) => .ok (1, built ++ buildFailed ++ [newline])
  | (true, index) =>
      match index.getInvertedList filesystem with
      | none => .error .nullDeref
      | some invertedList => do
          let out ← invertedList.foldlM (printPosting index) built
          return (0, out)

end IndexTest

end DocSearcher
