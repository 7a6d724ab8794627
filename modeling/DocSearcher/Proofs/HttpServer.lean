/-
However its calls are interleaved, every request is answered as if it were alone.

Calls of the handler share the index and nothing writes to it, so the future of a call
is decided by where it is (`finish`), and a step of any call leaves every call's future
as it was.  The future of a call that has just been made is what the handler computes on
its own; the future of a call that has replied is its reply.

Nor does a call wait for another.  How many steps it still needs is decided by where it
is too, and only its own steps lower that number, so a call that is let run often enough
replies.

Both hold whatever the HTTP library does, which is an `Environment` here.
-/
import DocSearcher.HttpServer
import DocSearcher.Lib.Machine
import DocSearcher.Proofs.RoundTrip
import DocSearcher.Proofs.Search

namespace DocSearcher.HttpServer

open Corpus

variable (cut : Str → List Str) (sort : Lib.SortRoutine heavier) (write : List SearchResult → Str)

/-! ### What a call can do -/

/-- The steps of a call, one constructor for each branch of `taskStep`. -/
inductive Moves (index : Index) (req : Request) : Task → Task → Prop
  | missing (h : req.hasParam queryKey = false) :
      Moves index req .received (.replied ⟨missingQuery, textPlain⟩)
  | cut (h : req.hasParam queryKey ≠ false) :
      Moves index req .received (.merging (cut (req.getParamValue queryKey)) [])
  | merge (word : Str) (tokens : List Str) (all : List Weight) :
      Moves index req (.merging (word :: tokens) all)
        (.merging tokens (Searcher.mergeStep index all word))
  | sort (all : List Weight) : Moves index req (.merging [] all) (.building (sort.sort all) [])
  | build {weight : Weight} {result : SearchResult} (rest : List Weight)
      (results : List SearchResult) (h : Searcher.makeResult index weight = .ok result) :
      Moves index req (.building (weight :: rest) results) (.building rest (results ++ [result]))
  | crash {weight : Weight} {fault : Fault} (rest : List Weight) (results : List SearchResult)
      (h : Searcher.makeResult index weight = .error fault) :
      Moves index req (.building (weight :: rest) results) (.crashed fault)
  | reply (results : List SearchResult) :
      Moves index req (.building [] results) (.replied ⟨write results, applicationJson⟩)

theorem moves_of_taskStep {index : Index} {req : Request} {task task' : Task}
    (h : taskStep cut sort write index req task = some task') :
    Moves cut sort write index req task task' := by
  cases task with
  | received =>
      unfold taskStep at h
      by_cases hparam : req.hasParam queryKey = false
      · rw [if_pos hparam, Option.some.injEq] at h
        exact h ▸ .missing hparam
      · rw [if_neg hparam, Option.some.injEq] at h
        exact h ▸ .cut hparam
  | merging tokens all =>
      cases tokens with
      | nil => exact Option.some.inj h ▸ .sort all
      | cons word tokens => exact Option.some.inj h ▸ .merge word tokens all
  | building rest results =>
      cases rest with
      | nil => exact Option.some.inj h ▸ .reply results
      | cons weight rest =>
          cases hresult : Searcher.makeResult index weight with
          | ok result =>
              simp only [taskStep, hresult] at h
              exact Option.some.inj h ▸ .build rest results hresult
          | error fault =>
              simp only [taskStep, hresult] at h
              exact Option.some.inj h ▸ .crash rest results hresult
  | replied resp => simp [taskStep] at h
  | crashed fault => simp [taskStep] at h

/-! ### The future of a call -/

/-- What a call will reply, should nothing disturb it. -/
def finish (index : Index) (req : Request) : Task → Except Fault Response
  | .received => handler cut sort write index req
  | .merging tokens all => do
      let items ← (sort.sort (tokens.foldl (Searcher.mergeStep index) all)).mapM
        (Searcher.makeResult index)
      return ⟨write items, applicationJson⟩
  | .building rest results => do
      let items ← rest.mapM (Searcher.makeResult index)
      return ⟨write (results ++ items), applicationJson⟩
  | .replied resp => .ok resp
  | .crashed fault => .error fault

private theorem finish_received {index : Index} {req : Request}
    (h : req.hasParam queryKey ≠ false) :
    handler cut sort write index req
      = finish cut sort write index req (.merging (cut (req.getParamValue queryKey)) []) := by
  unfold handler Searcher.search Searcher.results Searcher.ranked Searcher.mergeTokens
  rw [if_neg h]
  show _ = List.mapM (Searcher.makeResult index) (sort.sort (List.foldl _ _ _)) >>= _
  cases (sort.sort _).mapM (Searcher.makeResult index) with
  | error fault => rfl
  | ok items => rfl

private theorem finish_building_nil (index : Index) (req : Request) (results : List SearchResult) :
    finish cut sort write index req (.building [] results)
      = .ok ⟨write results, applicationJson⟩ := by
  show Except.ok (Response.mk (write (results ++ [])) applicationJson) = _
  rw [List.append_nil]

private theorem finish_building_ok {index : Index} {weight : Weight} {result : SearchResult}
    (h : Searcher.makeResult index weight = .ok result) (req : Request) (rest : List Weight)
    (results : List SearchResult) :
    finish cut sort write index req (.building (weight :: rest) results)
      = finish cut sort write index req (.building rest (results ++ [result])) := by
  unfold finish
  dsimp only
  rw [List.mapM_cons, h]
  show (List.mapM (Searcher.makeResult index) rest >>= _) >>= _ = _
  cases rest.mapM (Searcher.makeResult index) with
  | error fault => rfl
  | ok items =>
      show Except.ok (Response.mk (write (results ++ result :: items)) _) = Except.ok _
      rw [List.append_assoc, List.singleton_append]

private theorem finish_building_error {index : Index} {weight : Weight} {fault : Fault}
    (h : Searcher.makeResult index weight = .error fault) (req : Request) (rest : List Weight)
    (results : List SearchResult) :
    finish cut sort write index req (.building (weight :: rest) results) = .error fault := by
  unfold finish
  dsimp only
  rw [List.mapM_cons, h]
  rfl

/-- **A step of a call does not change what it will reply.** -/
theorem Moves.finish_eq {index : Index} {req : Request} {task task' : Task}
    (h : Moves cut sort write index req task task') :
    finish cut sort write index req task' = finish cut sort write index req task := by
  cases h with
  | missing hparam => exact (if_pos hparam).symm
  | cut hparam => exact (finish_received cut sort write hparam).symm
  | merge word tokens all => rfl
  | sort all => rfl
  | build rest results hresult => exact (finish_building_ok cut sort write hresult req _ _).symm
  | crash rest results hresult => exact (finish_building_error cut sort write hresult req _ _).symm
  | reply results => exact (finish_building_nil cut sort write index req results).symm

theorem not_crashed {index : Index} {req : Request} {task : Task}
    (hok : ∃ resp, handler cut sort write index req = .ok resp)
    (h : finish cut sort write index req task = handler cut sort write index req)
    (fault : Fault) : task ≠ .crashed fault := by
  intro hcrash
  obtain ⟨resp, hresp⟩ := hok
  rw [hcrash, hresp] at h
  simp [finish] at h

/-! ### What a call still has to do -/

/-- The steps a call has left, if it does not crash. -/
def remaining (index : Index) (req : Request) : Task → Nat
  | .received =>
      if req.hasParam queryKey = false then 1
      else (cut (req.getParamValue queryKey)).length
        + (Searcher.mergeTokens index (cut (req.getParamValue queryKey))).length + 3
  | .merging tokens all =>
      tokens.length + (tokens.foldl (Searcher.mergeStep index) all).length + 2
  | .building rest _ => rest.length + 1
  | .replied _ => 0
  | .crashed _ => 0

/-- A step that is not a crash brings the reply one step nearer. -/
theorem Moves.remaining_eq {index : Index} {req : Request} {task task' : Task}
    (h : Moves cut sort write index req task task') (hsafe : ∀ fault, task' ≠ .crashed fault) :
    remaining cut index req task' + 1 = remaining cut index req task := by
  cases h with
  | missing hparam => exact (if_pos hparam).symm
  | cut hparam => exact (if_neg hparam).symm
  | merge word tokens all =>
      simp only [remaining, List.foldl_cons, List.length_cons]
      omega
  | sort all =>
      simp only [remaining, (sort.perm all).length_eq, List.foldl_nil, List.length_nil]
      omega
  | build rest results hresult => rfl
  | crash rest results hresult => exact absurd rfl (hsafe _)
  | reply results => rfl

/-- The step relation of the server. -/
def Steps (server : Server) (event : Event) (server' : Server) : Prop :=
  step cut sort write server event = some server'

/-- The call an event lets run. -/
def Event.worked : Event → Option Nat
  | .call _ => none
  | .work i => some i

theorem steps_work {server server' : Server} {i : Nat}
    (h : Steps cut sort write server (.work i) server') :
    ∃ call task, server.calls[i]? = some call ∧
      Moves cut sort write server.index call.req call.task task ∧
      server' = { server with calls := server.calls.set i ⟨call.req, task⟩ } := by
  obtain ⟨call, hcall, h⟩ := Option.bind_eq_some_iff.mp h
  obtain ⟨task, htask, h⟩ := Option.bind_eq_some_iff.mp h
  exact ⟨call, task, hcall, moves_of_taskStep cut sort write htask, (Option.some.inj h).symm⟩

/-- A call keeps its place and its request. -/
theorem keeps_req {server server' : Server} {event : Event}
    (h : Steps cut sort write server event server') {i : Nat} {call : Call}
    (hcall : server.calls[i]? = some call) :
    ∃ call', server'.calls[i]? = some call' ∧ call'.req = call.req := by
  have hi := (List.getElem?_eq_some_iff.mp hcall).1
  cases event with
  | call req =>
      obtain rfl := Option.some.inj h
      exact ⟨call, by rw [List.getElem?_append_left hi]; exact hcall, rfl⟩
  | work j =>
      obtain ⟨mover, task, hmover, -, rfl⟩ := steps_work cut sort write h
      dsimp only
      rw [List.getElem?_set]
      by_cases hj : j = i
      · subst hj
        obtain rfl : mover = call := Option.some.inj (hmover.symm.trans hcall)
        rw [if_pos rfl, if_pos hi]
        exact ⟨_, rfl, rfl⟩
      · rw [if_neg hj]
        exact ⟨call, hcall, rfl⟩

/-- What holds of the server after some events, all requests being answerable. -/
structure Serving (index : Index) (past : List Event) (server : Server) : Prop where
  /-- The index is the one the server was started with. -/
  shared : server.index = index
  /-- Each call is going to reply what the handler alone would. -/
  future : ∀ call ∈ server.calls,
    finish cut sort write index call.req call.task = handler cut sort write index call.req
  /-- The steps a call has taken and those it has left are as many as it had at first. -/
  steps : ∀ (i : Nat) call, server.calls[i]? = some call →
    (past.filterMap Event.worked).count i + remaining cut index call.req call.task
      = remaining cut index call.req .received
  /-- Steps are taken by calls that have been made. -/
  started : ∀ i, server.calls.length ≤ i → (past.filterMap Event.worked).count i = 0

namespace Serving

variable {cut sort write} {index : Index} {past : List Event} {server server' : Server}

theorem call (h : Serving cut sort write index past server) (req : Request) :
    Serving cut sort write index (past ++ [.call req])
      { server with calls := server.calls ++ [⟨req, .received⟩] } := by
  have hsame : (past ++ [Event.call req]).filterMap Event.worked = past.filterMap Event.worked :=
    Lib.filterMap_concat_none _ past rfl
  refine ⟨h.shared, ?_, ?_, ?_⟩
  · intro call hcall
    rcases List.mem_append.mp hcall with hold | hnew
    · exact h.future call hold
    · rw [List.mem_singleton.mp hnew]
      rfl
  · intro i call hcall
    rw [hsame]
    by_cases hi : i < server.calls.length
    · rw [List.getElem?_append_left hi] at hcall
      exact h.steps i call hcall
    · rw [List.getElem?_append_right (Nat.le_of_not_lt hi)] at hcall
      obtain rfl : (⟨req, .received⟩ : Call) = call := by
        have hmem := List.mem_of_getElem? hcall
        exact (List.mem_singleton.mp hmem).symm
      rw [h.started i (Nat.le_of_not_lt hi), Nat.zero_add]
  · intro i hi
    rw [hsame]
    rw [List.length_append] at hi
    exact h.started i (by omega)

theorem work (h : Serving cut sort write index past server)
    (hok : ∀ req, ∃ resp, handler cut sort write index req = .ok resp) {i : Nat}
    (hstep : Steps cut sort write server (.work i) server') :
    Serving cut sort write index (past ++ [.work i]) server' := by
  obtain ⟨call, task, hcall, hmoves, rfl⟩ := steps_work cut sort write hstep
  rw [h.shared] at hmoves
  have hi : i < server.calls.length := (List.getElem?_eq_some_iff.mp hcall).1
  have hfuture : finish cut sort write index call.req task
      = handler cut sort write index call.req :=
    (hmoves.finish_eq cut sort write).trans (h.future call (List.mem_of_getElem? hcall))
  have hsafe := not_crashed cut sort write (hok call.req) hfuture
  have hworked : (past ++ [Event.work i]).filterMap Event.worked
      = past.filterMap Event.worked ++ [i] := Lib.filterMap_concat_some _ past rfl
  refine ⟨h.shared, ?_, ?_, ?_⟩
  · intro call' hmem
    rcases List.mem_or_eq_of_mem_set hmem with hold | rfl
    · exact h.future call' hold
    · exact hfuture
  · intro j call' hcall'
    rw [hworked, List.count_append]
    dsimp only at hcall'
    rw [List.getElem?_set] at hcall'
    by_cases hj : i = j
    · subst hj
      rw [if_pos rfl, if_pos hi, Option.some.injEq] at hcall'
      subst hcall'
      have hbefore := h.steps i call hcall
      have hone := hmoves.remaining_eq cut sort write hsafe
      simp only [List.count_singleton_self]
      omega
    · rw [if_neg hj] at hcall'
      have hbefore := h.steps j call' hcall'
      rw [List.count_singleton, if_neg (by simpa using hj)]
      exact hbefore
  · intro j hj
    rw [List.length_set] at hj
    rw [hworked, List.count_append, h.started j hj, List.count_singleton, if_neg (by simp; omega)]

/-- **Every step of the server keeps the invariant**, whichever call it is of. -/
theorem step (hok : ∀ req, ∃ resp, handler cut sort write index req = .ok resp)
    (past : List Event) (server : Server) (event : Event) (server' : Server)
    (hstep : Steps cut sort write server event server')
    (h : Serving cut sort write index past server) :
    Serving cut sort write index (past ++ [event]) server' := by
  cases event with
  | call req => exact Option.some.inj hstep ▸ h.call req
  | work i => exact h.work hok hstep

/-- What a call has replied is the handler's reply. -/
theorem handler_of_replied (h : Serving cut sort write index past server) {call : Call}
    (hcall : call ∈ server.calls) {resp : Response} (hresp : call.task = .replied resp) :
    handler cut sort write index call.req = .ok resp := by
  rw [← h.future call hcall, hresp]
  rfl

end Serving

/-! ### From `main` on -/

variable (order : Int → Lib.Enumeration Str WordCnt)

/-- `main` listens exactly when `raw_input.txt` opens, on the index of the corpus in it. -/
theorem main_eq_some {fs : FileSystem} {server : Server}
    (h : main cut order fs = some server) :
    ∃ file, fs rawInputPath = some file ∧ server.calls = [] ∧
      Index.Extends cut Index.empty (ofFile file) server.index := by
  unfold main Searcher.init at h
  cases hfile : fs rawInputPath with
  | none =>
      rw [hfile] at h
      simp [Index.build] at h
  | some file =>
      rw [hfile] at h
      have hserver : (⟨(Index.build cut order Index.empty (some file)).2, []⟩ : Server) = server :=
        Option.some.inj h
      rw [← hserver]
      exact ⟨file, rfl, rfl, Index.build_extends cut order Index.empty file⟩

theorem handler_of_results {index : Index} {req : Request} {items : List SearchResult}
    (hparam : req.hasParam queryKey = true)
    (h : Searcher.results cut sort index (req.getParamValue queryKey) = .ok items) :
    handler cut sort write index req = .ok ⟨write items, applicationJson⟩ := by
  unfold handler
  rw [if_neg (by simp [hparam]), Searcher.search_of_results h]
  rfl

/-- On the index of a corpus the handler replies to every request. -/
theorem handler_ok {docs : Corpus} {index : Index}
    (h : Index.Extends cut Index.empty docs index) (req : Request) :
    ∃ resp, handler cut sort write index req = .ok resp := by
  by_cases hparam : req.hasParam queryKey = false
  · exact ⟨_, if_pos hparam⟩
  · exact ⟨_, handler_of_results cut sort write (by simpa using hparam)
      (Searcher.results_eq h sort _)⟩

theorem serving_of_run {fs : FileSystem} {started server : Server} {events : List Event}
    (hmain : main cut order fs = some started)
    (hrun : Lib.Run (Steps cut sort write) started events server) :
    Serving cut sort write started.index events server := by
  obtain ⟨file, -, hcalls, hindex⟩ := main_eq_some cut order hmain
  have hstart : Serving cut sort write started.index [] started := by
    refine ⟨rfl, ?_, ?_, fun i _ => rfl⟩
    · intro call hcall
      rw [hcalls] at hcall
      simp at hcall
    · intro i call hcall
      rw [hcalls] at hcall
      simp at hcall
  exact hrun.history (Serving.step (handler_ok cut sort write hindex)) hstart

/--
**Requests do not disturb one another.**  Whatever calls the HTTP library makes and
however it interleaves them, no call crashes, and what a call has replied is what the
handler computes for that request alone, on the index the server was started with.
-/
theorem replies_undisturbed (env : Lib.Environment Server Event) {fs : FileSystem}
    {started server : Server} {events : List Event} {e : env.State}
    (hmain : main cut order fs = some started)
    (hrun : Lib.Run (env.Steps (Steps cut sort write)) (env.start, started) events (e, server)) :
    ∀ call ∈ server.calls, (∀ fault, call.task ≠ .crashed fault) ∧
      ∀ resp, call.task = .replied resp →
        handler cut sort write started.index call.req = .ok resp := by
  have h := serving_of_run cut sort write order hmain (Lib.Environment.run_system hrun)
  obtain ⟨file, -, -, hindex⟩ := main_eq_some cut order hmain
  intro call hcall
  refine ⟨?_, fun resp hresp => h.handler_of_replied hcall hresp⟩
  exact not_crashed cut sort write (handler_ok cut sort write hindex call.req) (h.future call hcall)

/-! A server to try this on: `raw_input.txt` has the record of one page, with the title `A`. -/

/-- The page. -/
def docA : Parser.DocInfo := ⟨bytes ['A'], Parser.linkA, bytes ['A', ' ']⟩

/-- The index of that page, whose words are `a`, in the title and the text, and the space. -/
def indexA : Index where
  forwardIndex := [⟨0, bytes ['A'], Parser.linkA, bytes ['A', ' ']⟩]
  invertedIndex := (Finmap.singleton (bytes ['a']) [⟨0, 11, bytes ['a']⟩]).insert [Parser.space]
    [⟨0, 1, [Parser.space]⟩]

theorem entry_docA (word : Str) :
    entry wordsAndSpaces word 0 docA =
      if word = [Parser.space] then some ⟨0, 1, word⟩
      else if word = bytes ['a'] then some ⟨0, 11, word⟩ else none := by
  have htitle : terms wordsAndSpaces docA.title = [bytes ['a']] := by decide
  have hcontent : terms wordsAndSpaces docA.content = [bytes ['a'], [Parser.space]] := by decide
  by_cases hspace : word = [Parser.space]
  · rw [if_pos hspace, hspace]
    refine (entry_eq_some_iff wordsAndSpaces).mpr ⟨Or.inr (by rw [hcontent]; simp), ?_⟩
    have hscore : score wordsAndSpaces docA [Parser.space] = 1 := by decide
    rw [hscore, int32_of_lt (by decide) (by decide)]
    rfl
  · rw [if_neg hspace]
    by_cases ha : word = bytes ['a']
    · rw [if_pos ha, ha]
      refine (entry_eq_some_iff wordsAndSpaces).mpr ⟨Or.inl (by rw [htitle]; simp), ?_⟩
      have hscore : score wordsAndSpaces docA (bytes ['a']) = 11 := by decide
      rw [hscore, int32_of_lt (by decide) (by decide)]
      rfl
    · rw [if_neg ha]
      unfold entry
      refine if_neg fun hmentions => ?_
      unfold Mentions at hmentions
      rw [htitle, hcontent] at hmentions
      simp [ha, hspace] at hmentions

theorem indexA_extends : Index.Extends wordsAndSpaces Index.empty [docA] indexA := by
  refine ⟨by decide, fun word => ?_⟩
  rw [show Index.empty.forwardIndex.length = 0 from rfl, Lib.postings_cons, Lib.postings_nil,
    entry_docA]
  by_cases hspace : word = [Parser.space]
  · rw [if_pos hspace, hspace]
    exact Finmap.lookup_insert _
  · rw [if_neg hspace]
    refine (Finmap.lookup_insert_of_ne _ hspace).trans ?_
    by_cases ha : word = bytes ['a']
    · rw [if_pos ha, ha]
      exact Finmap.lookup_singleton_eq
    · rw [if_neg ha]
      exact Finmap.lookup_eq_none.mpr (by simpa using ha)

theorem ofFile_recordA : ofFile (Parser.record docA) = [docA] := by decide

/-- The files of that server. -/
def filesA : FileSystem := fun _ => some (Parser.record docA)

theorem init_filesA (inputPath : Str) :
    Searcher.init wordsAndSpaces byteOrder filesA inputPath Index.empty = (true, indexA) := by
  have h := Index.build_extends wordsAndSpaces byteOrder Index.empty (Parser.record docA)
  rw [ofFile_recordA] at h
  exact Prod.ext rfl (h.unique indexA_extends)

theorem main_filesA : main wordsAndSpaces byteOrder filesA = some ⟨indexA, []⟩ := by
  unfold main
  rw [init_filesA]

/-- A request with that query and no other parameter. -/
def asking (query : Str) : Request where
  hasParam key := key = queryKey
  getParamValue key := if key = queryKey then query else []

/-- The titles of the results. -/
def writeTitles (items : List SearchResult) : Str := items.flatMap SearchResult.title

/-- A call for `a`, which is found, and one for `b`, which is not, both half done. -/
def begun : List Event :=
  [.call (asking (bytes ['a'])), .call (asking (bytes ['b'])), .work 0, .work 1, .work 1, .work 0]

/-- The rest of their steps, in turn. -/
def ended : List Event := [.work 0, .work 1, .work 0, .work 1, .work 0]

theorem run_begun :
    Lib.Run (Steps wordsAndSpaces insertionSort writeTitles) ⟨indexA, []⟩ begun
      ⟨indexA, [⟨asking (bytes ['a']), .merging [] [⟨0, 11, bytes ['a']⟩]⟩,
        ⟨asking (bytes ['b']), .merging [] []⟩]⟩ :=
  .cons rfl (.cons rfl (.cons rfl (.cons rfl (.cons rfl (.cons rfl (.nil _))))))

theorem run_ended :
    Lib.Run (Steps wordsAndSpaces insertionSort writeTitles)
      ⟨indexA, [⟨asking (bytes ['a']), .merging [] [⟨0, 11, bytes ['a']⟩]⟩,
        ⟨asking (bytes ['b']), .merging [] []⟩]⟩ ended
      ⟨indexA, [⟨asking (bytes ['a']), .replied ⟨bytes ['A'], applicationJson⟩⟩,
        ⟨asking (bytes ['b']), .replied ⟨[], applicationJson⟩⟩]⟩ :=
  .cons rfl (.cons rfl (.cons rfl (.cons rfl (.cons rfl (.nil _)))))

/-- Each of the two has the handler's reply to its own request. -/
theorem replies_undisturbed_interleaved :
    ∃ server, Lib.Run ((Lib.Environment.free Server Event).Steps
        (Steps wordsAndSpaces insertionSort writeTitles)) ((), ⟨indexA, []⟩) (begun ++ ended)
        ((), server) ∧
      server.calls = [⟨asking (bytes ['a']), .replied ⟨bytes ['A'], applicationJson⟩⟩,
        ⟨asking (bytes ['b']), .replied ⟨[], applicationJson⟩⟩] ∧
      ∀ call ∈ server.calls, ∀ resp, call.task = .replied resp →
        handler wordsAndSpaces insertionSort writeTitles indexA call.req = .ok resp := by
  obtain ⟨e, hrun⟩ := Lib.Environment.free_refusesNothing.run (run_begun.append run_ended) ()
  refine ⟨_, hrun, rfl, fun call hcall => ?_⟩
  exact (replies_undisturbed wordsAndSpaces insertionSort writeTitles byteOrder _ main_filesA hrun
    call hcall).2

end DocSearcher.HttpServer
