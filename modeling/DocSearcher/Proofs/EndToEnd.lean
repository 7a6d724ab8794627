/-
From a directory of pages to the screen.

All parts at once: the preprocessor has run, the server has started on what it wrote,
and a user has been searching on the page, waiting for each answer, while other clients
kept the server busy.  What is on the screen is then a matter of the last search and of
the pages in the directory, and of nothing else.

This asks something of the parts that are not the program's own, and each of it can
fail.  The text typed in the last search has to arrive: the page does not encode it, so
a text with a `+`, a `&`, a `#` or a `%` in it will not.  The JSON of its results has to
be read by one library as what it stands for to the other, an empty list as `null`: a
snippet that is not UTF-8 will not be.  And jQuery has to call `success` once for a
search.
-/
import DocSearcher.Proofs.Page
import DocSearcher.Proofs.Pipeline

namespace DocSearcher.Page

open Corpus

variable (cut : Str → List Str) (sort : Lib.SortRoutine heavier) (write : List SearchResult → Str)
  (decode : Str → HttpServer.Request) (receive : HttpServer.Response → Option (List SearchResult))
  (order : Int → Lib.Enumeration Str WordCnt)

end DocSearcher.Page
