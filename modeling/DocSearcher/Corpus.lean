/-
What the search engine is for, said without indexes.

A corpus is a list of documents.  A document mentions a word when the word is among
the lower-cased tokens of its title or of its content, and its score for the word
counts a title occurrence ten times.  The answer to a query is, for each token of
the query, every document that mentions it.

Nothing here is translated from the source.  `Proofs/Index.lean` shows that the
index `Build` leaves behind stands for the corpus of the lines it accepted, and
`Proofs/Search.lean` that `Search` computes the answer.
-/
import DocSearcher.Parser
import DocSearcher.Index
import DocSearcher.Lib.Postings

namespace DocSearcher

/-- A corpus: documents in the order they were read. -/
abbrev Corpus := List Parser.DocInfo

namespace Corpus

/-- The document a line of `raw_input.txt` holds, if it has exactly three fields. -/
def decode (line : Str) : Option Parser.DocInfo :=
  match line.splitOn fieldSep with
  | [title, url, content] => some ⟨title, url, content⟩
  | _ => none

/-- The documents of a file. -/
def ofFile (file : Str) : Corpus := (Lib.lines newline file).filterMap decode

/-- The documents of a sequence of `Build` calls; a file that does not open has none. -/
def ofFiles (files : List (Option Str)) : Corpus :=
  files.flatMap fun file => (file.map ofFile).getD []

variable (cut : Str → List Str)

/-- The lower-cased tokens of a text. -/
def terms (text : Str) : List Str := (cut text).map toLower

/-- The document has the word in its title or in its content. -/
def Mentions (doc : Parser.DocInfo) (word : Str) : Prop :=
  word ∈ terms cut doc.title ∨ word ∈ terms cut doc.content

instance (doc : Parser.DocInfo) (word : Str) : Decidable (Mentions cut doc word) :=
  inferInstanceAs (Decidable (_ ∨ _))

/-- Ten for each occurrence in the title, one for each in the content. -/
def score (doc : Parser.DocInfo) (word : Str) : Nat :=
  10 * (terms cut doc.title).count word + (terms cut doc.content).count word

/-- The document as an entry of the forward index. -/
def numbered (docId : Nat) (doc : Parser.DocInfo) : DocInfo :=
  ⟨docId, doc.title, doc.url, doc.content⟩

/-- The posting a document has under a word. -/
def entry (word : Str) (docId : Nat) (doc : Parser.DocInfo) : Option Weight :=
  if Mentions cut doc word then some ⟨docId, int32 (score cut doc word), word⟩ else none

/-- The forward index of a corpus whose first document has number `base`. -/
def forward (base : Nat) (docs : Corpus) : List DocInfo :=
  (docs.zipIdx base).map fun x => numbered x.2 x.1

/-- The answer to a query: the postings of each of its words, in turn. -/
def answer (docs : Corpus) (query : Str) : List Weight :=
  (terms cut query).flatMap fun word => Lib.postings (entry cut word) 0 docs

end Corpus

end DocSearcher
