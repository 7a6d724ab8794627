/-
The web server, `http_server/http_server.cc`.

`main` builds one `Searcher`, registers a handler for `GET /searcher` and leaves the
rest to the HTTP library.  The library calls the handler for the requests it gets, and
it may have several calls under way at once, all of them on that one `Searcher`: the
program takes no lock.  So the handler is modelled twice, as the function a call
computes when nothing else runs, and as the steps a call takes, one iteration of a loop
of `Search` at a time, between which other calls may run.

The library is not the program's own, and nothing is said here about when it calls the
handler, how many threads it has for that or which of them runs next; `step` says what
the program does when it is called or let run.  Of a request there is what the two
methods the handler asks return, and of a response what the handler puts into it.
-/
import DocSearcher.Searcher

namespace DocSearcher.HttpServer

/-- `httplib::Request`, as far as the handler can tell: what its methods return. -/
structure Request where
  /-- `has_param`. -/
  hasParam : Str → Bool
  /-- `get_param_value`. -/
  getParamValue : Str → Str

/-- `httplib::Response`, as far as the handler writes it. -/
structure Response where
  body : Str
  contentType : Str
  deriving Repr, DecidableEq

/-- `"query"`. -/
def queryKey : Str := bytes ['q', 'u', 'e', 'r', 'y']

/-- The text sent when there is no query, with the bytes the source file has. -/
def missingQuery : Str := [0xC7, 0xEB, 0xC7, 0xF3, 0xB2, 0xCE, 0xCA, 0xFD, 0xB4, 0xED, 0xCE, 0xF3]

/-- `"text/plain;charset=utf-8"`. -/
def textPlain : Str :=
  bytes ['t', 'e', 'x', 't', '/', 'p', 'l', 'a', 'i', 'n', ';',
    'c', 'h', 'a', 'r', 's', 'e', 't', '=', 'u', 't', 'f', '-', '8']

/-- `"application/json;charset=utf-8"`. -/
def applicationJson : Str :=
  bytes ['a', 'p', 'p', 'l', 'i', 'c', 'a', 't', 'i', 'o', 'n', '/', 'j', 's', 'o', 'n', ';',
    'c', 'h', 'a', 'r', 's', 'e', 't', '=', 'u', 't', 'f', '-', '8']

/-- `"../data/tmp/raw_input.txt"`. -/
def rawInputPath : Str :=
  bytes ['.', '.', '/', 'd', 'a', 't', 'a', '/', 't', 'm', 'p', '/',
    'r', 'a', 'w', '_', 'i', 'n', 'p', 'u', 't', '.', 't', 'x', 't']

variable (cut : Str → List Str) (sort : Lib.SortRoutine heavier) (write : List SearchResult → Str)

/-- The handler of `GET /searcher`, run alone. -/
def handler (index : Index) (req : Request) : Except Fault Response :=
  if req.hasParam queryKey = false then .ok ⟨missingQuery, textPlain⟩
  else do
    let (_, results) ← Searcher.search cut sort write index (req.getParamValue queryKey)
    return ⟨results, applicationJson⟩

/-! ### One call of the handler -/

/-- Where a call is in the handler, with the locals of `Search` it still needs. -/
inductive Task
  /-- Before the test for the parameter. -/
  | received
  /-- In the loop over the words of the query. -/
  | merging (tokens : List Str) (all : List Weight)
  /-- In the loop over the sorted postings. -/
  | building (rest : List Weight) (results : List SearchResult)
  /-- `set_content` has been called. -/
  | replied (resp : Response)
  /-- Undefined behaviour. -/
  | crashed (fault : Fault)
  deriving DecidableEq

/-- One step of a call; one that has replied or crashed takes none. -/
def taskStep (index : Index) (req : Request) : Task → Option Task
  | .received =>
      if req.hasParam queryKey = false then some (.replied ⟨missingQuery, textPlain⟩)
      else some (.merging (cut (req.getParamValue queryKey)) [])
  | .merging [] all => some (.building (sort.sort all) [])
  | .merging (word :: tokens) all => some (.merging tokens (Searcher.mergeStep index all word))
  | .building [] results => some (.replied ⟨write results, applicationJson⟩)
  | .building (weight :: rest) results =>
      match Searcher.makeResult index weight with
      | .ok result => some (.building rest (results ++ [result]))
      | .error fault => some (.crashed fault)
  | .replied _ => none
  | .crashed _ => none

/-! ### The server -/

/-- A call of the handler: its request, and how far it has come. -/
structure Call where
  req : Request
  task : Task

/-- The `Searcher` all calls share, and the calls in the order they were made. -/
structure Server where
  index : Index
  calls : List Call

/-- What the HTTP library can do to the program. -/
inductive Event
  /-- It calls the handler. -/
  | call (req : Request)
  /-- It lets call `i` run for one step. -/
  | work (i : Nat)

def step (server : Server) : Event → Option Server
  | .call req => some { server with calls := server.calls ++ [⟨req, .received⟩] }
  | .work i => do
      let call ← server.calls[i]?
      let task ← taskStep cut sort write server.index call.req call.task
      return { server with calls := server.calls.set i { call with task } }

/-- `main` up to `listen`; `none` when it returns 1 instead. -/
def main (order : Int → Lib.Enumeration Str WordCnt) (fs : FileSystem) : Option Server :=
  match Searcher.init cut order fs rawInputPath Index.empty with
  | (false, _) => none
  | (true, index) => some ⟨index, []⟩

end DocSearcher.HttpServer
