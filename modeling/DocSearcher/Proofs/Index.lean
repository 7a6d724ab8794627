/-
The index stands for the corpus.

`Extends cut old docs idx` says that `idx` is `old` with the documents `docs`
added: numbered on from the end of the forward index, each with one posting
appended to the list of every word it mentions, and nothing else changed.  One
accepted line adds its document and a rejected line adds none, whatever the index
held before; `Extends` composes, so the whole of `Build` and any sequence of
`Build` calls add exactly the documents of the lines they accepted.

The order in which `BuildInverted` meets the entries of its counting map does not
appear in `Extends`, and `Extends` determines the index (`Extends.unique`), so the
order cannot be observed.  That is so because a map lists each key once: within
one call no two postings go to the same list.
-/
import DocSearcher.Corpus
import DocSearcher.Proofs.Util

namespace DocSearcher

open Corpus

namespace Index

/-! ### Counting tokens -/

private theorem bumpTitle_iterate (n : Nat) (c : Int) :
    bumpTitle^[n] ⟨0, c⟩ = ⟨int32 n, c⟩ := by
  induction n with
  | zero => simp
  | succ n ih =>
      rw [Function.iterate_succ_apply', ih]
      simp [bumpTitle]

private theorem bumpContent_iterate (n : Nat) (t : Int) :
    bumpContent^[n] ⟨t, 0⟩ = ⟨t, int32 n⟩ := by
  induction n with
  | zero => simp
  | succ n ih =>
      rw [Function.iterate_succ_apply', ih]
      simp [bumpContent]

/-- A counting loop bumps a word's counter once for every token that folds to it. -/
theorem lookup_countTokens (bump : WordCnt → WordCnt) (tokens : List Str) (map : WordCntMap)
    (word : Str) :
    (countTokens bump tokens map).lookup word =
      if word ∈ tokens.map toLower then
        some (bump^[(tokens.map toLower).count word] ((map.lookup word).getD default))
      else map.lookup word := by
  unfold countTokens
  rw [Lib.lookup_foldl_update toLower (fun _ cnt => bump cnt) word tokens map]
  have hcount : (tokens.filter fun t => toLower t = word).length
      = (tokens.map toLower).count word := by
    rw [List.count, List.countP_map, List.countP_eq_length_filter]
    congr 2
    funext t
    simp [beq_eq_decide]
  rw [List.foldl_const, hcount]
  by_cases h : word ∈ tokens.map toLower
  · rw [if_pos h, if_pos h]
  · rw [if_neg h, if_neg h]

variable (cut : Str → List Str)

/-- What the two counting loops leave under a word. -/
theorem lookup_wordCntMap (docId : Nat) (doc : Parser.DocInfo) (word : Str) :
    (wordCntMap cut (numbered docId doc)).lookup word =
      if Mentions cut doc word then
        some ⟨int32 ((terms cut doc.title).count word), int32 ((terms cut doc.content).count word)⟩
      else none := by
  unfold wordCntMap numbered
  rw [lookup_countTokens, lookup_countTokens]
  show (if word ∈ terms cut doc.content then
      some (bumpContent^[(terms cut doc.content).count word]
        (Option.getD (if word ∈ terms cut doc.title then
          some (bumpTitle^[(terms cut doc.title).count word] ⟨0, 0⟩) else none) ⟨0, 0⟩))
    else if word ∈ terms cut doc.title then
      some (bumpTitle^[(terms cut doc.title).count word] ⟨0, 0⟩) else none) = _
  rw [bumpTitle_iterate]
  by_cases hcontent : word ∈ terms cut doc.content
  · have hm : Mentions cut doc word := Or.inr hcontent
    rw [if_pos hcontent, if_pos hm]
    by_cases htitle : word ∈ terms cut doc.title
    · rw [if_pos htitle, Option.getD_some, bumpContent_iterate]
    · rw [if_neg htitle, Option.getD_none, bumpContent_iterate, List.count_eq_zero.mpr htitle]
      simp
  · rw [if_neg hcontent]
    by_cases htitle : word ∈ terms cut doc.title
    · have hm : Mentions cut doc word := Or.inl htitle
      rw [if_pos htitle, if_pos hm, List.count_eq_zero.mpr hcontent]
      simp
    · have hm : ¬ Mentions cut doc word := not_or.mpr ⟨htitle, hcontent⟩
      rw [if_neg htitle, if_neg hm]

private theorem posting_counts (docId : Nat) (doc : Parser.DocInfo) (word : Str) :
    posting (numbered docId doc) ⟨word, int32 ((terms cut doc.title).count word),
        int32 ((terms cut doc.content).count word)⟩
      = ⟨docId, int32 (score cut doc word), word⟩ := by
  unfold posting numbered score
  simp

/-! ### One call of `BuildInverted` -/

variable (order : Int → Lib.Enumeration Str WordCnt)

/-- **`BuildInverted` appends the document's posting to the list of each word it mentions.** -/
theorem lookup_buildInverted (self : Index) (docId : Nat) (doc : Parser.DocInfo) (word : Str) :
    (buildInverted cut order self (numbered docId doc)).invertedIndex.lookup word =
      Lib.extend (self.invertedIndex.lookup word) (entry cut word docId doc).toList := by
  unfold buildInverted
  show Finmap.lookup word (List.foldl _ self.invertedIndex
    ((order docId).toList (wordCntMap cut (numbered docId doc)))) = _
  rw [Lib.lookup_foldl_update Sigma.fst (fun wordPair list =>
    list ++ [posting (numbered docId doc) wordPair]) word]
  have hlook := lookup_wordCntMap cut docId doc word
  unfold entry
  by_cases h : Mentions cut doc word
  · rw [if_pos h] at hlook
    -- the enumeration meets the word once, with its two counts
    rw [if_pos ((Lib.Enumeration.mem_keys _ _).mpr (by rw [hlook]; rfl)),
      Lib.Enumeration.filter_key _ _ hlook, List.foldl_cons, List.foldl_nil, posting_counts,
      if_pos h, Option.toList_some, Lib.extend_of_ne_nil _ (by simp)]
    rfl
  · rw [if_neg h] at hlook
    rw [if_neg (fun hc => by
        have := (Lib.Enumeration.mem_keys _ _).mp hc
        rw [hlook] at this
        simp at this), if_neg h, Option.toList_none, Lib.extend_nil]

/-! ### One line -/

theorem buildForward_of_decode {line : Str} {doc : Parser.DocInfo} (h : decode line = some doc)
    (self : Index) :
    buildForward self line
      = (some (numbered self.forwardIndex.length doc),
          { self with
            forwardIndex := self.forwardIndex ++ [numbered self.forwardIndex.length doc] }) := by
  unfold decode at h
  unfold buildForward
  rw [split_fieldSep]
  split at h
  · rename_i title url content hsplit
    rw [hsplit]
    rw [Option.some.injEq] at h
    subst h
    rfl
  · simp at h

theorem buildForward_of_decode_none {line : Str} (h : decode line = none) (self : Index) :
    buildForward self line = (none, self) := by
  unfold decode at h
  unfold buildForward
  rw [split_fieldSep]
  split at h
  · simp at h
  · rename_i hsplit
    split
    · rename_i title url content heq
      exact absurd heq (hsplit title url content)
    · rfl

/-! ### Adding documents -/

/-- `idx` is `old` with `docs` added, in order. -/
structure Extends (old : Index) (docs : Corpus) (idx : Index) : Prop where
  forward : idx.forwardIndex
    = old.forwardIndex ++ Corpus.forward old.forwardIndex.length docs
  inverted : ∀ word, idx.invertedIndex.lookup word =
    Lib.extend (old.invertedIndex.lookup word)
      (Lib.postings (entry cut word) old.forwardIndex.length docs)

namespace Extends

variable {cut} {old idx idx' : Index} {docs more : Corpus}

theorem refl (old : Index) : Extends cut old [] old :=
  ⟨by simp [Corpus.forward], fun word => by simp⟩

theorem length_forward (h : Extends cut old docs idx) :
    idx.forwardIndex.length = old.forwardIndex.length + docs.length := by
  rw [h.forward, Corpus.forward]
  simp

theorem trans (h : Extends cut old docs idx) (h' : Extends cut idx more idx') :
    Extends cut old (docs ++ more) idx' := by
  have hlen := h.length_forward
  refine ⟨?_, ?_⟩
  · rw [h'.forward, hlen, h.forward, Corpus.forward, Corpus.forward, Corpus.forward,
      List.zipIdx_append, List.map_append, List.append_assoc]
  · intro word
    rw [h'.inverted, h.inverted, hlen, Lib.extend_extend, Lib.postings_append]

/-- The documents added determine the index. -/
theorem unique (h : Extends cut old docs idx) (h' : Extends cut old docs idx') : idx = idx' := by
  have hforward : idx.forwardIndex = idx'.forwardIndex := h.forward.trans h'.forward.symm
  have hinverted : idx.invertedIndex = idx'.invertedIndex :=
    Finmap.ext_lookup fun word => (h.inverted word).trans (h'.inverted word).symm
  cases idx
  cases idx'
  subst hforward
  subst hinverted
  rfl

end Extends

/-- One line adds the document it holds, if it holds one. -/
theorem buildLine_extends (self : Index) (line : Str) :
    Extends cut self (decode line).toList (buildLine cut order self line) := by
  unfold buildLine
  cases h : decode line with
  | none =>
      rw [buildForward_of_decode_none h]
      exact Extends.refl self
  | some doc =>
      rw [buildForward_of_decode h]
      refine ⟨by simp [buildInverted, Corpus.forward], ?_⟩
      intro word
      show Finmap.lookup word (buildInverted cut order _ _).invertedIndex = _
      rw [lookup_buildInverted, Option.toList_some, Lib.postings_cons, Lib.postings_nil,
        List.append_nil]

theorem foldl_buildLine_extends (lines : List Str) :
    ∀ self, Extends cut self (lines.filterMap decode) (lines.foldl (buildLine cut order) self) := by
  induction lines with
  | nil => intro self; exact Extends.refl self
  | cons line rest ih =>
      intro self
      have h := (buildLine_extends cut order self line).trans (ih (buildLine cut order self line))
      rw [List.foldl_cons, List.filterMap_cons]
      cases hd : decode line with
      | none => simpa [hd] using h
      | some doc => simpa [hd] using h

/-- **`Build` adds the documents of the file.** -/
theorem build_extends (self : Index) (file : Str) :
    Extends cut self (ofFile file) (build cut order self (some file)).2 := by
  show Extends cut self (ofFile file) (Lib.whileGetline newline (buildLine cut order) self file)
  rw [Lib.whileGetline_eq_foldl]
  exact foldl_buildLine_extends cut order _ self

private theorem foldl_build_extends (files : List (Option Str)) :
    ∀ self, Extends cut self (ofFiles files)
      (files.foldl (fun self file => (build cut order self file).2) self) := by
  induction files with
  | nil => intro self; exact Extends.refl self
  | cons file rest ih =>
      intro self
      have hfile : Extends cut self ((file.map ofFile).getD []) (build cut order self file).2 := by
        cases file with
        | none => exact Extends.refl self
        | some content => exact build_extends cut order self content
      exact hfile.trans (ih _)

/-- **After any sequence of `Build` calls the index is that of the corpus read.** -/
theorem run_extends (files : List (Option Str)) :
    Extends cut empty (ofFiles files) (run cut order files) :=
  foldl_build_extends cut order files empty

end Index

end DocSearcher
