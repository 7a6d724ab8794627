/-
What the page can be made to show.

The page is rebuilt by each response as it comes in, so what it shows is the answer to
one search, whole: the one whose response came last.  Which one that is is another
matter.  A user who waits for each answer sees the answer to the last search, provided
that no response comes twice.  A user who does not may be left with the answer to an
earlier one, whatever the two searches were: nothing in the page compares a response
with the search it belongs to.

The browser, the network, the HTTP library and jQuery are one `Environment`: what is
said of every run holds whatever they do, and what needs them to act says so.
-/
import DocSearcher.Page
import DocSearcher.Proofs.HttpServer

namespace DocSearcher.Page

open Corpus

variable (cut : Str → List Str) (sort : Lib.SortRoutine heavier) (write : List SearchResult → Str)
  (decode : Str → HttpServer.Request) (receive : HttpServer.Response → Option (List SearchResult))

/-- The page after the answer to a search of the index. -/
def pageFor (index : Index) (query : Str) : Except Fault Content :=
  (HttpServer.handler cut sort write index (decode (searchUrl query))).map fun resp =>
    buildContent (receive resp)

/-! ### What the system can do -/

/-- The step relation of the page and the server together. -/
def Steps (sys : System) (event : Event) (sys' : System) : Prop :=
  step cut sort write decode receive sys event = some sys'

/-- The search an event makes. -/
def Event.query : Event → Option Str
  | .search query => some query
  | _ => none

/-- The search whose `success` an event calls. -/
def Event.delivered : Event → Option Nat
  | .success k _ => some k
  | _ => none

theorem steps_serve {sys sys' : System} {k : Nat}
    (h : Steps cut sort write decode receive sys (.serve k) sys') :
    ∃ exchange, sys.exchanges[k]? = some exchange ∧
      sys' = { sys with
        server := { sys.server with
          calls := sys.server.calls ++ [⟨decode exchange.url, .received⟩] }
        exchanges := sys.exchanges.set k
          { exchange with calls := exchange.calls ++ [sys.server.calls.length] } } := by
  obtain ⟨exchange, hexchange, h⟩ := Option.bind_eq_some_iff.mp h
  exact ⟨exchange, hexchange, (Option.some.inj h).symm⟩

theorem steps_server {sys sys' : System} {event : HttpServer.Event}
    (h : Steps cut sort write decode receive sys (.server event) sys') :
    ∃ server', HttpServer.Steps cut sort write sys.server event server' ∧
      sys' = { sys with server := server' } := by
  obtain ⟨server', hserver, h⟩ := Option.bind_eq_some_iff.mp h
  exact ⟨server', hserver, (Option.some.inj h).symm⟩

theorem steps_success {sys sys' : System} {k i : Nat}
    (h : Steps cut sort write decode receive sys (.success k i) sys') :
    ∃ exchange call resp, sys.exchanges[k]? = some exchange ∧ i ∈ exchange.calls ∧
      sys.server.calls[i]? = some call ∧ call.task = .replied resp ∧
      sys' = { sys with content := buildContent (receive resp) } := by
  obtain ⟨exchange, hexchange, h⟩ := Option.bind_eq_some_iff.mp h
  by_cases hi : i ∈ exchange.calls
  · rw [if_pos hi] at h
    obtain ⟨call, hcall, h⟩ := Option.bind_eq_some_iff.mp h
    cases htask : call.task with
    | replied resp =>
        simp only [htask] at h
        exact ⟨exchange, call, resp, hexchange, hi, hcall, htask, (Option.some.inj h).symm⟩
    | received => simp [htask] at h
    | merging tokens all => simp [htask] at h
    | building rest results => simp [htask] at h
    | crashed fault => simp [htask] at h
  · rw [if_neg hi] at h
    simp at h

/-- The page is blank, or has the answer to the search delivered last. -/
def Shows (index : Index) (delivered : List Nat) (queries : List Str) (content : Content) : Prop :=
  match delivered.getLast? with
  | none => content = blank
  | some k => ∃ query, queries[k]? = some query ∧
      pageFor cut sort write decode receive index query = .ok content

theorem Shows.append {index : Index} {delivered : List Nat} {queries : List Str}
    {content : Content} (h : Shows cut sort write decode receive index delivered queries content)
    (more : List Str) :
    Shows cut sort write decode receive index delivered (queries ++ more) content := by
  unfold Shows at h ⊢
  cases hlast : delivered.getLast? with
  | none =>
      rw [hlast] at h
      exact h
  | some k =>
      rw [hlast] at h
      obtain ⟨query, hquery, hpage⟩ := h
      refine ⟨query, ?_, hpage⟩
      rw [List.getElem?_append_left (List.getElem?_eq_some_iff.mp hquery).1]
      exact hquery

/-- What holds of the system after some events. -/
structure Showing (index : Index) (past : List Event) (sys : System) : Prop where
  server : ∃ calls, HttpServer.Serving cut sort write index calls sys.server
  /-- There is one exchange for each search, in order. -/
  urls : sys.exchanges.map Exchange.url = (past.filterMap Event.query).map searchUrl
  /-- The calls made for a search have the request of its url. -/
  linked : ∀ exchange ∈ sys.exchanges, ∀ i ∈ exchange.calls,
    ∃ call, sys.server.calls[i]? = some call ∧ call.req = decode exchange.url
  /-- Only searches that have been made are answered. -/
  made : ∀ k ∈ past.filterMap Event.delivered, k < (past.filterMap Event.query).length
  content : Shows cut sort write decode receive index (past.filterMap Event.delivered)
    (past.filterMap Event.query) sys.content

namespace Showing

variable {cut sort write decode receive} {index : Index} {past : List Event} {sys sys' : System}

/-- The url of search `k` has what was typed. -/
theorem query_of_exchange (h : Showing cut sort write decode receive index past sys) {k : Nat}
    {exchange : Exchange} (hk : sys.exchanges[k]? = some exchange) :
    ∃ query, (past.filterMap Event.query)[k]? = some query ∧ exchange.url = searchUrl query := by
  have hurl : (sys.exchanges.map Exchange.url)[k]? = some exchange.url := by
    rw [List.getElem?_map, hk]
    rfl
  rw [h.urls, List.getElem?_map] at hurl
  obtain ⟨query, hquery, heq⟩ := Option.map_eq_some_iff.mp hurl
  exact ⟨query, hquery, heq.symm⟩

theorem search (h : Showing cut sort write decode receive index past sys) (query : Str) :
    Showing cut sort write decode receive index (past ++ [.search query])
      { sys with exchanges := sys.exchanges ++ [⟨searchUrl query, []⟩] } := by
  have hdelivered : (past ++ [Event.search query]).filterMap Event.delivered
      = past.filterMap Event.delivered := Lib.filterMap_concat_none _ past rfl
  have hqueries : (past ++ [Event.search query]).filterMap Event.query
      = past.filterMap Event.query ++ [query] := Lib.filterMap_concat_some _ past rfl
  refine ⟨h.server, ?_, ?_, ?_, ?_⟩
  · rw [hqueries, List.map_append, List.map_append, h.urls]
    rfl
  · intro exchange hexchange i hi
    rcases List.mem_append.mp hexchange with hold | hnew
    · exact h.linked exchange hold i hi
    · rw [List.mem_singleton.mp hnew] at hi
      simp at hi
  · intro k hk
    rw [hdelivered] at hk
    rw [hqueries, List.length_append]
    exact Nat.lt_add_right _ (h.made k hk)
  · rw [hdelivered, hqueries]
    exact h.content.append cut sort write decode receive [query]

/-- An event that neither makes a search nor answers one. -/
private theorem quiet {event : Event} (h : Showing cut sort write decode receive index past sys)
    (hquery : event.query = none) (hdelivered : event.delivered = none)
    (hserver : ∃ calls, HttpServer.Serving cut sort write index calls sys'.server)
    (hurls : sys'.exchanges.map Exchange.url = sys.exchanges.map Exchange.url)
    (hlinked : ∀ exchange ∈ sys'.exchanges, ∀ i ∈ exchange.calls,
      ∃ call, sys'.server.calls[i]? = some call ∧ call.req = decode exchange.url)
    (hcontent : sys'.content = sys.content) :
    Showing cut sort write decode receive index (past ++ [event]) sys' := by
  have hsame := Lib.filterMap_concat_none _ past hdelivered
  have hsame' := Lib.filterMap_concat_none _ past hquery
  refine ⟨hserver, ?_, hlinked, ?_, ?_⟩
  · rw [hsame', hurls]
    exact h.urls
  · rw [hsame, hsame']
    exact h.made
  · rw [hsame, hsame', hcontent]
    exact h.content

theorem serve (h : Showing cut sort write decode receive index past sys) {k : Nat}
    (hstep : Steps cut sort write decode receive sys (.serve k) sys') :
    Showing cut sort write decode receive index (past ++ [.serve k]) sys' := by
  obtain ⟨exchange, hk, rfl⟩ := steps_serve cut sort write decode receive hstep
  obtain ⟨calls, hserving⟩ := h.server
  -- calls made before are where they were
  have hold : ∀ {i : Nat} {call : HttpServer.Call}, sys.server.calls[i]? = some call →
      (sys.server.calls ++ [⟨decode exchange.url, .received⟩])[i]? = some call := by
    intro i call hcall
    rw [List.getElem?_append_left (List.getElem?_eq_some_iff.mp hcall).1]
    exact hcall
  refine h.quiet rfl rfl ⟨_, hserving.call (decode exchange.url)⟩ (Lib.map_set_of_eq hk rfl) ?_ rfl
  intro exchange' hexchange' i hi
  rcases List.mem_or_eq_of_mem_set hexchange' with hmem | rfl
  · obtain ⟨call, hcall, hreq⟩ := h.linked exchange' hmem i hi
    exact ⟨call, hold hcall, hreq⟩
  · rcases List.mem_append.mp hi with hi | hi
    · obtain ⟨call, hcall, hreq⟩ := h.linked exchange (List.mem_of_getElem? hk) i hi
      exact ⟨call, hold hcall, hreq⟩
    · rw [List.mem_singleton.mp hi]
      exact ⟨_, List.getElem?_concat_length, rfl⟩

theorem server_step (h : Showing cut sort write decode receive index past sys)
    (hok : ∀ req, ∃ resp, HttpServer.handler cut sort write index req = .ok resp)
    {event : HttpServer.Event}
    (hstep : Steps cut sort write decode receive sys (.server event) sys') :
    Showing cut sort write decode receive index (past ++ [.server event]) sys' := by
  obtain ⟨server', hserver, rfl⟩ := steps_server cut sort write decode receive hstep
  obtain ⟨calls, hserving⟩ := h.server
  have hserving' := hserving.step hok calls sys.server event server' hserver
  refine h.quiet rfl rfl ⟨_, hserving'⟩ rfl ?_ rfl
  intro exchange hexchange i hi
  obtain ⟨call, hcall, hreq⟩ := h.linked exchange hexchange i hi
  obtain ⟨call', hcall', hreq'⟩ := HttpServer.keeps_req cut sort write hserver hcall
  exact ⟨call', hcall', hreq'.trans hreq⟩

/-- What a call made for a search has replied is the answer to that search. -/
theorem page_of_reply (h : Showing cut sort write decode receive index past sys)
    {exchange : Exchange} (hexchange : exchange ∈ sys.exchanges) {query : Str}
    (hurl : exchange.url = searchUrl query) {i : Nat} (hi : i ∈ exchange.calls)
    {call : HttpServer.Call} {resp : HttpServer.Response}
    (hcall : sys.server.calls[i]? = some call) (htask : call.task = .replied resp) :
    pageFor cut sort write decode receive index query = .ok (buildContent (receive resp)) := by
  obtain ⟨call', hcall', hreq⟩ := h.linked exchange hexchange i hi
  obtain rfl : call = call' := Option.some.inj (hcall.symm.trans hcall')
  obtain ⟨calls, hserving⟩ := h.server
  have hhandler := hserving.handler_of_replied (List.mem_of_getElem? hcall) htask
  unfold pageFor
  rw [← hurl, ← hreq, hhandler]
  rfl

theorem success (h : Showing cut sort write decode receive index past sys) {k i : Nat}
    (hstep : Steps cut sort write decode receive sys (.success k i) sys') :
    Showing cut sort write decode receive index (past ++ [.success k i]) sys' := by
  obtain ⟨exchange, call, resp, hk, hi, hcall, htask, rfl⟩ :=
    steps_success cut sort write decode receive hstep
  obtain ⟨query, hquery, hurl⟩ := h.query_of_exchange hk
  have hdelivered : (past ++ [Event.success k i]).filterMap Event.delivered
      = past.filterMap Event.delivered ++ [k] := Lib.filterMap_concat_some _ past rfl
  have hqueries : (past ++ [Event.success k i]).filterMap Event.query
      = past.filterMap Event.query := Lib.filterMap_concat_none _ past rfl
  refine ⟨h.server, ?_, h.linked, ?_, ?_⟩
  · rw [hqueries]
    exact h.urls
  · rw [hdelivered, hqueries]
    intro j hj
    rcases List.mem_append.mp hj with hold | hnew
    · exact h.made j hold
    · rw [List.mem_singleton.mp hnew]
      exact (List.getElem?_eq_some_iff.mp hquery).1
  · rw [hdelivered, hqueries]
    unfold Shows
    rw [List.getLast?_concat]
    exact ⟨query, hquery, h.page_of_reply (List.mem_of_getElem? hk) hurl hi hcall htask⟩

/-- **Every step of the system keeps the invariant.** -/
theorem step (hok : ∀ req, ∃ resp, HttpServer.handler cut sort write index req = .ok resp)
    (past : List Event) (sys : System) (event : Event) (sys' : System)
    (hstep : Steps cut sort write decode receive sys event sys')
    (h : Showing cut sort write decode receive index past sys) :
    Showing cut sort write decode receive index (past ++ [event]) sys' := by
  cases event with
  | search query => exact Option.some.inj hstep ▸ h.search query
  | serve k => exact h.serve hstep
  | server event => exact h.server_step hok hstep
  | success k i => exact h.success hstep

end Showing

variable (order : Int → Lib.Enumeration Str WordCnt)

/-- The page just loaded, from a server just started. -/
def start (server : HttpServer.Server) : System := ⟨server, [], blank⟩

/--
The request for a url of the page, read as a form: the value ends at a `&` or a `#`, and
a `+` in it is a space.  Escapes are left out.
-/
def formRequest (url : Str) : HttpServer.Request :=
  HttpServer.asking (((url.drop (searchUrl []).length).takeWhile fun b => b ≠ 38 ∧ b ≠ 35).map
    fun b => if b = 43 then Parser.space else b)

/-- What is typed is not always what is searched for. -/
example : (formRequest (searchUrl (bytes ['c', '+', '+']))).getParamValue HttpServer.queryKey
    = bytes ['c', ' ', ' '] := by decide

/-- A member of a JSON object, of strings in which nothing has to be escaped. -/
def jsonMember (key value : Str) : Str := 34 :: key ++ [34, 58, 34] ++ value ++ [34]

def jsonObject (item : SearchResult) : Str :=
  123 :: jsonMember (bytes ['d', 'e', 's', 'c']) item.desc
    ++ 44 :: jsonMember (bytes ['t', 'i', 't', 'l', 'e']) item.title
    ++ 44 :: jsonMember (bytes ['u', 'r', 'l']) item.url ++ [125]

/-- The text of no results, a value to which nothing was appended. -/
def jsonNull : Str := bytes ['n', 'u', 'l', 'l'] ++ [newline]

def writeJson (items : List SearchResult) : Str :=
  if items = [] then jsonNull
  else 91 :: [44].intercalate (items.map jsonObject) ++ [93, newline]

/-- Every three strings are the members of an object, in the order of their keys. -/
def readMembers : List Str → List SearchResult
  | desc :: title :: url :: rest => ⟨title, url, desc⟩ :: readMembers rest
  | _ => []

/-- Cut at the quotes, every fourth piece is the value of a member. -/
def readJson (resp : HttpServer.Response) : Option (List SearchResult) :=
  if resp.body = jsonNull then none
  else some (readMembers
    (((resp.body.splitOn 34).zipIdx.filter fun piece => piece.2 % 4 = 3).map Prod.fst))

/-- The text typed is what the handler gets as the query. -/
def Arrives (query : Str) : Prop :=
  (decode (searchUrl query)).hasParam HttpServer.queryKey = true ∧
    (decode (searchUrl query)).getParamValue HttpServer.queryKey = query

/-- The page for a text that arrives. -/
theorem pageFor_of_results {index : Index} {query : Str} {items : List SearchResult}
    (h : Arrives decode query) (hresults : Searcher.results cut sort index query = .ok items) :
    pageFor cut sort write decode receive index query
      = .ok (buildContent (receive ⟨write items, HttpServer.applicationJson⟩)) := by
  rw [← h.2] at hresults
  unfold pageFor
  rw [HttpServer.handler_of_results cut sort write h.1 hresults]
  rfl

private theorem buildContent_eq_notFound_iff {infos : Option (List SearchResult)} :
    buildContent infos = .notFound ↔ infos = none := by
  cases infos with
  | none => exact ⟨fun _ => rfl, fun _ => rfl⟩
  | some infos => simp [buildContent]

theorem answer_eq_nil_iff {docs : Corpus} {query : Str} :
    answer cut docs query = [] ↔
      ∀ word ∈ terms cut query, ∀ doc ∈ docs, ¬ Mentions cut doc word := by
  unfold answer
  rw [List.flatMap_eq_nil_iff]
  refine forall₂_congr fun word _ => ?_
  rw [← not_iff_not, ← ne_eq, postings_ne_nil_iff]
  push Not
  rfl

/--
**"404 Not Found" is shown exactly when no document has a word of the query**, for a text
that arrives as it was typed and results that come out as `null` exactly when there are
none.
-/
theorem pageFor_notFound_iff {fs : FileSystem} {started : HttpServer.Server} {file query : Str}
    (hfile : fs HttpServer.rawInputPath = some file)
    (hmain : HttpServer.main cut order fs = some started) (harrives : Arrives decode query)
    (hnull : ∀ items, Searcher.results cut sort started.index query = .ok items →
      (receive ⟨write items, HttpServer.applicationJson⟩ = none ↔ items = [])) :
    pageFor cut sort write decode receive started.index query = .ok .notFound ↔
      ∀ word ∈ terms cut query, ∀ doc ∈ ofFile file, ¬ Mentions cut doc word := by
  obtain ⟨file', hfile', -, hindex⟩ := HttpServer.main_eq_some cut order hmain
  obtain rfl : file = file' := Option.some.inj (hfile.symm.trans hfile')
  have hresults := Searcher.results_eq hindex sort query
  rw [pageFor_of_results cut sort write decode receive harrives hresults, Except.ok.injEq,
    buildContent_eq_notFound_iff, hnull _ hresults, List.map_eq_nil_iff,
    ← List.length_eq_zero_iff, (Searcher.ranked_perm hindex sort _).length_eq,
    List.length_eq_zero_iff, answer_eq_nil_iff]

theorem arrives_a : Arrives formRequest (bytes ['a']) := ⟨by decide, by decide⟩

theorem arrives_b : Arrives formRequest (bytes ['b']) := ⟨by decide, by decide⟩

theorem results_a : Searcher.results wordsAndSpaces insertionSort HttpServer.indexA (bytes ['a'])
    = .ok [⟨bytes ['A'], Parser.linkA, bytes ['A', ' ']⟩] := rfl

theorem results_b : Searcher.results wordsAndSpaces insertionSort HttpServer.indexA (bytes ['b'])
    = .ok [] := rfl

/-- The one page has the word `a`, and not the word `b`. -/
theorem pageFor_notFound_iff_ab :
    pageFor wordsAndSpaces insertionSort writeJson formRequest readJson HttpServer.indexA
      (bytes ['a']) ≠ .ok .notFound ∧
    pageFor wordsAndSpaces insertionSort writeJson formRequest readJson HttpServer.indexA
      (bytes ['b']) = .ok .notFound := by
  have hfile : HttpServer.filesA HttpServer.rawInputPath
      = some (Parser.record HttpServer.docA) := rfl
  refine ⟨fun hpage => ?_, ?_⟩
  · have hnone := (pageFor_notFound_iff wordsAndSpaces insertionSort writeJson formRequest readJson
      byteOrder hfile HttpServer.main_filesA arrives_a ?_).mp hpage
    · rw [HttpServer.ofFile_recordA] at hnone
      exact absurd hnone (by decide)
    · intro items hitems
      obtain rfl := Except.ok.inj (results_a.symm.trans hitems)
      decide
  · refine (pageFor_notFound_iff wordsAndSpaces insertionSort writeJson formRequest readJson
      byteOrder hfile HttpServer.main_filesA arrives_b ?_).mpr ?_
    · intro items hitems
      obtain rfl := Except.ok.inj (results_b.symm.trans hitems)
      decide
    · rw [HttpServer.ofFile_recordA]
      decide

end DocSearcher.Page
