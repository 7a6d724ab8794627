/-
The search page, the script of `wwwroot/index.html`, and the page and the server as one
system.

`search()` asks for a url with what the user typed at its end, as it was typed, and does
not wait.  When jQuery has a response, it calls `success`, which sets `infos` and
rebuilds the list of results from it.

What lies between the two programs is neither's: the browser, the network, the HTTP
library and jQuery.  Two things they compute are parameters.  `decode` is the request
the handler gets for a url the page asks for, and `receive` is what `success` gets for a
response, `none` standing for `null`.  When they act is left open, as it is for the
server: whether the handler is called for a search, and whether and how often `success`
is.  One thing only is taken for granted, that what `success` of a search is called with
was set in a call of the handler for the url of that search.
-/
import DocSearcher.HttpServer

namespace DocSearcher.Page

/-- One `div` of class `info`: the link, the paragraph and the url under it. -/
structure Info where
  title : Str
  href : Str
  desc : Str
  url : Str
  deriving Repr, DecidableEq

/-- What the element of class `content` holds. -/
inductive Content
  | results (infos : List Info)
  /-- The heading "404 Not Found". -/
  | notFound
  deriving Repr, DecidableEq

/-- The page as loaded. -/
def blank : Content := .results []

/-- `buildContent`; `none` is `null`. -/
def buildContent (infos : Option (List SearchResult)) : Content :=
  match infos with
  | none => .notFound
  | some infos => .results (infos.map fun info => ⟨info.title, info.url, info.desc, info.url⟩)

/-- The url `search` asks for. -/
def searchUrl (query : Str) : Str :=
  bytes ['s', 'e', 'a', 'r', 'c', 'h', 'e', 'r', '?', 'q', 'u', 'e', 'r', 'y', '='] ++ query

/-! ### The page and the server -/

/-- A search made on the page: the url asked for, and the calls of the handler for it. -/
structure Exchange where
  url : Str
  calls : List Nat

structure System where
  server : HttpServer.Server
  /-- The searches made on the page, in order. -/
  exchanges : List Exchange
  content : Content

inductive Event
  /-- The user searches. -/
  | search (query : Str)
  /-- The handler is called for the url of search `k`. -/
  | serve (k : Nat)
  /-- The server does something else, for this page or for another client. -/
  | server (event : HttpServer.Event)
  /-- `success` of search `k` is called with what call `i` of the handler has set. -/
  | success (k i : Nat)

variable (cut : Str → List Str) (sort : Lib.SortRoutine heavier) (write : List SearchResult → Str)
  (decode : Str → HttpServer.Request) (receive : HttpServer.Response → Option (List SearchResult))

def step (sys : System) : Event → Option System
  | .search query => some { sys with exchanges := sys.exchanges ++ [⟨searchUrl query, []⟩] }
  | .serve k => do
      let exchange ← sys.exchanges[k]?
      let server ← HttpServer.step cut sort write sys.server (.call (decode exchange.url))
      let calls := exchange.calls ++ [sys.server.calls.length]
      return { sys with server, exchanges := sys.exchanges.set k { exchange with calls } }
  | .server event => do
      let server ← HttpServer.step cut sort write sys.server event
      return { sys with server }
  | .success k i => do
      let exchange ← sys.exchanges[k]?
      if i ∈ exchange.calls then
        let call ← sys.server.calls[i]?
        match call.task with
        | .replied resp => some { sys with content := buildContent (receive resp) }
        | _ => none
      else none

end DocSearcher.Page
