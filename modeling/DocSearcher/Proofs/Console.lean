/-
What the console programs print.

Both begin with what `Build` has to say: that it cannot open the file, or, for each line
of the file that is not a record, how many fields it has instead of three.

`searcher_test` answers the words of its input that have a space after them, in order,
and then says goodbye; a last word that the input ends with is read and thrown away,
since the stream is tested before the word is used.

`index_test` lists the documents that mention one word, in the order they were read,
and dereferences the null pointer when there are none.
-/
import DocSearcher.Console
import DocSearcher.Proofs.Pipeline

namespace DocSearcher

open Corpus

variable (cut : Str → List Str) (order : Int → Lib.Enumeration Str WordCnt)

namespace Index

end Index

namespace SearcherTest

variable (sort : Lib.SortRoutine heavier) (write : List SearchResult → Str)

/-- What is printed for one word. -/
def exchange (reply : Str → Str) (query : Str) : Str := prompt ++ reply query ++ [newline]

/-- Two words are read and one is answered. -/
example : Lib.closedWords isspace (bytes ['a', ' ', 'b']) = [bytes ['a']] := by decide

end SearcherTest

namespace IndexTest

end IndexTest

end DocSearcher
