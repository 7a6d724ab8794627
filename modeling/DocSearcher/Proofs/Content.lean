/-
What `ParseContent` makes of a page.

The scanner's state is one bit, and the bit says whether some `<` has had no `>` after
it yet (`InTag`).  The grammar of `Lib/Markup.lean` says where that changes, and so the
specification is exact: the text outside the tags, each newline turned into a space
(`parseContent_render`).  There is no malformed input to except, since every string is
the rendering of one markup.

The other fact is that a `>` puts the scanner back into the text whatever came
before it.  `ParseTitle` finds its tags by substring search and may find them where
the scanner sees no tags at all, inside a comment say; but its opening tag ends in
`>`, so both read the title from the same state, and the content of every record
holds its title again, stripped.
-/
import DocSearcher.Lib.Markup
import DocSearcher.Proofs.Parser

namespace DocSearcher.Parser

/-! ### The state

The scanner reads one byte at a time, so the facts about its state go by adding a
byte at the end of what has been scanned.
-/

/-- Some `<` has had no `>` after it: the next byte is part of a tag. -/
def InTag (scanned : Str) : Prop :=
  ∃ before tag, scanned = before ++ tagOpen :: tag ∧ tagClose ∉ tag

theorem not_inTag_nil : ¬ InTag [] := by
  intro h
  obtain ⟨before, tag, heq, -⟩ := h
  simp at heq

theorem inTag_concat_iff {scanned : Str} {c : UInt8} :
    InTag (scanned ++ [c]) ↔ c = tagOpen ∨ (InTag scanned ∧ c ≠ tagClose) := by
  refine ⟨fun h => ?_, fun h => ?_⟩
  · obtain ⟨before, tag, heq, htag⟩ := h
    rcases Lib.concat_eq_append_cons_iff.mp heq with ⟨-, -, hc⟩ | ⟨init, rfl, hscanned⟩
    · exact Or.inl hc
    · refine Or.inr ⟨⟨before, init, hscanned, fun hmem => htag (by simp [hmem])⟩, ?_⟩
      intro hclose
      apply htag
      simp [hclose]
  · rcases h with rfl | ⟨⟨before, tag, rfl, htag⟩, hc⟩
    · exact ⟨scanned, [], rfl, by simp⟩
    · refine ⟨before, tag ++ [c], by simp, ?_⟩
      intro hmem
      rcases List.mem_append.mp hmem with hmem | hmem
      · exact htag hmem
      · exact hc (List.mem_singleton.mp hmem).symm

/-- `is_content` after some bytes. -/
theorem isContent_iff (html content : Str) :
    (html.foldl contentStep (true, content)).1 = true ↔ ¬ InTag html := by
  induction html using List.reverseRecOn with
  | nil => exact ⟨fun _ => not_inTag_nil, fun _ => rfl⟩
  | append_singleton scanned c ih =>
      rw [List.foldl_append, List.foldl_cons, List.foldl_nil, inTag_concat_iff]
      generalize scanned.foldl contentStep (true, content) = st at ih ⊢
      unfold contentStep
      have hne : tagOpen ≠ tagClose := by decide
      by_cases hst : st.1 = true
      · have hout := ih.mp hst
        rw [if_pos hst]
        by_cases hc : c = tagOpen
        · simp [hc]
        · simp [hc, hout]
      · have hin : InTag scanned := not_not.mp (mt ih.mpr hst)
        rw [if_neg hst]
        by_cases hc : c = tagClose
        · simp [hc, hne.symm]
        · simp [hc, hin]

/-! ### One byte -/

/-- The byte `ParseContent` appends for a byte of text. -/
def flat (c : UInt8) : UInt8 := if c = newline then space else c

private theorem flat_ne_newline (c : UInt8) : flat c ≠ newline := by
  unfold flat
  by_cases hc : c = newline
  · rw [if_pos hc]
    decide
  · rw [if_neg hc]
    exact hc

private theorem flat_eq_iff {b c : UInt8} (hnewline : b ≠ newline) (hspace : b ≠ space) :
    flat c = b ↔ c = b := by
  unfold flat
  by_cases hc : c = newline
  · rw [if_pos hc, hc]
    exact ⟨fun h => absurd h.symm hspace, fun h => absurd h.symm hnewline⟩
  · rw [if_neg hc]

/-- A byte of text is appended. -/
theorem parseContent_concat_text {scanned : Str} {c : UInt8} (htext : ¬ InTag scanned)
    (hc : c ≠ tagOpen) (content : Str) :
    (parseContent (scanned ++ [c]) content).2 = (parseContent scanned content).2 ++ [flat c] := by
  have hst := (isContent_iff scanned content).mpr htext
  unfold parseContent
  dsimp only
  rw [List.foldl_append, List.foldl_cons, List.foldl_nil]
  generalize scanned.foldl contentStep (true, content) = st at hst ⊢
  unfold contentStep flat
  rw [if_pos hst, if_neg hc]

/-- A byte of a tag is not. -/
theorem parseContent_concat_tag {scanned : Str} {c : UInt8}
    (htag : ¬ (¬ InTag scanned ∧ c ≠ tagOpen)) (content : Str) :
    (parseContent (scanned ++ [c]) content).2 = (parseContent scanned content).2 := by
  have hst := isContent_iff scanned content
  unfold parseContent
  dsimp only
  rw [List.foldl_append, List.foldl_cons, List.foldl_nil]
  generalize scanned.foldl contentStep (true, content) = st at hst ⊢
  unfold contentStep
  by_cases htext : st.1 = true
  · have hc : c = tagOpen := by
      by_contra hc
      exact htag ⟨hst.mp htext, hc⟩
    rw [if_pos htext, if_pos hc]
  · rw [if_neg htext]
    by_cases hc : c = tagClose
    · rw [if_pos hc]
    · rw [if_neg hc]

/-- **`ParseContent` appends the bytes outside tags**, newlines turned into spaces. -/
theorem mem_parseContent {html content : Str} {b : UInt8} :
    b ∈ (parseContent html content).2 ↔
      b ∈ content ∨ ∃ before c after, html = before ++ c :: after ∧ ¬ InTag before ∧
        c ≠ tagOpen ∧ flat c = b := by
  induction html using List.reverseRecOn with
  | nil => simp [parseContent]
  | append_singleton scanned c ih =>
      -- the bytes of the longer text are those of the shorter one and the last
      have hsplit : (∃ before x after, scanned ++ [c] = before ++ x :: after ∧ ¬ InTag before ∧
            x ≠ tagOpen ∧ flat x = b) ↔
          (∃ before x after, scanned = before ++ x :: after ∧ ¬ InTag before ∧
            x ≠ tagOpen ∧ flat x = b) ∨ (¬ InTag scanned ∧ c ≠ tagOpen ∧ flat c = b) := by
        refine ⟨fun h => ?_, fun h => ?_⟩
        · obtain ⟨before, x, after, heq, hrest⟩ := h
          rcases Lib.concat_eq_append_cons_iff.mp heq with ⟨-, rfl, rfl⟩ | ⟨init, -, hscanned⟩
          · exact Or.inr hrest
          · exact Or.inl ⟨before, x, init, hscanned, hrest⟩
        · rcases h with ⟨before, x, after, rfl, hrest⟩ | hrest
          · exact ⟨before, x, after ++ [c], by simp, hrest⟩
          · exact ⟨scanned, c, [], rfl, hrest⟩
      rw [hsplit, ← or_assoc, ← ih]
      by_cases htext : ¬ InTag scanned ∧ c ≠ tagOpen
      · rw [parseContent_concat_text htext.1 htext.2, List.mem_append, List.mem_singleton]
        simp [htext, eq_comm]
      · rw [parseContent_concat_tag htext]
        refine ⟨Or.inl, fun h => h.resolve_right fun hlast => ?_⟩
        exact htext ⟨hlast.1, hlast.2.1⟩

theorem parseContent_prefix_append (t s : Str) :
    (parseContent t []).2 <+: (parseContent (t ++ s) []).2 := by
  induction s using List.reverseRecOn with
  | nil => rw [List.append_nil]
  | append_singleton s c ih =>
      rw [← List.append_assoc]
      refine ih.trans ?_
      by_cases htext : ¬ InTag (t ++ s) ∧ c ≠ tagOpen
      · rw [parseContent_concat_text htext.1 htext.2]
        exact List.prefix_append _ _
      · rw [parseContent_concat_tag htext]

/-- No newline gets through. -/
theorem newline_notMem_parseContent (html : Str) : newline ∉ (parseContent html []).2 := by
  intro hmem
  rcases mem_parseContent.mp hmem with hnil | ⟨-, c, -, -, -, -, hflat⟩
  · simp at hnil
  · exact flat_ne_newline c hflat

/-- Nor does any `<`: one met in the text starts a tag. -/
theorem tagOpen_notMem_parseContent (html : Str) : tagOpen ∉ (parseContent html []).2 := by
  intro hmem
  rcases mem_parseContent.mp hmem with hnil | ⟨-, c, -, -, -, hc, hflat⟩
  · simp at hnil
  · rw [flat_eq_iff (by decide) (by decide)] at hflat
    exact hc hflat

/-- A separator gets through unless it is in a tag. -/
theorem fieldSep_notMem_parseContent {file : Str} :
    fieldSep ∉ (parseContent (Lib.terminate newline file) []).2 ↔
      ∀ before after, file = before ++ fieldSep :: after → InTag before := by
  rw [mem_parseContent]
  refine ⟨fun h before after heq => ?_, fun h hmem => ?_⟩
  · by_contra hout
    refine h (Or.inr ?_)
    rcases @Lib.terminate_eq_or _ _ newline file with hfile | hfile
    · exact ⟨before, fieldSep, after, hfile.trans heq, hout, by decide, by decide⟩
    · refine ⟨before, fieldSep, after ++ [newline], ?_, hout, by decide, by decide⟩
      rw [hfile, heq]
      simp
  · rcases hmem with hnil | ⟨before, c, after, heq, hout, -, hflat⟩
    · simp at hnil
    · rw [flat_eq_iff (by decide) (by decide)] at hflat
      subst hflat
      rcases @Lib.terminate_eq_or _ _ newline file with hfile | hfile
      · exact hout (h before after (hfile.symm.trans heq))
      · rw [hfile] at heq
        rcases Lib.concat_eq_append_cons_iff.mp heq with ⟨-, -, hlast⟩ | ⟨init, -, hinit⟩
        · -- the byte `Read` adds is a newline
          exact absurd hlast (by decide)
        · exact hout (h before init hinit)

/-! ### The scanner on the grammar -/

private theorem foldl_contentStep_text {t : Str} (ht : tagOpen ∉ t) :
    ∀ content, t.foldl contentStep (true, content) = (true, content ++ t.map flat) := by
  induction t with
  | nil => intro content; simp
  | cons c t ih =>
      intro content
      have hc : c ≠ tagOpen := Ne.symm (List.ne_of_not_mem_cons ht)
      have hstep : contentStep (true, content) c = (true, content ++ [flat c]) := by
        unfold contentStep flat
        rw [if_pos rfl, if_neg hc]
      rw [List.foldl_cons, hstep, ih (List.not_mem_of_not_mem_cons ht), List.map_cons,
        List.append_assoc, List.singleton_append]

private theorem foldl_contentStep_tag {g : Str} (hg : tagClose ∉ g) (content : Str) :
    g.foldl contentStep (false, content) = (false, content) := by
  induction g with
  | nil => rfl
  | cons c g ih =>
      have hc : c ≠ tagClose := Ne.symm (List.ne_of_not_mem_cons hg)
      have hstep : contentStep (false, content) c = (false, content) := by
        unfold contentStep
        rw [if_neg Bool.false_ne_true, if_neg hc]
      rw [List.foldl_cons, hstep, ih (List.not_mem_of_not_mem_cons hg)]

private theorem contentStep_open (content : Str) :
    contentStep (true, content) tagOpen = (false, content) := rfl

private theorem contentStep_close (content : Str) :
    contentStep (false, content) tagClose = (true, content) := rfl

/-- **`ParseContent` appends the text outside the tags.** -/
theorem parseContent_render (m : Lib.Markup tagOpen tagClose) (content : Str) :
    parseContent m.render content = (true, content ++ m.outside.map flat) := by
  have hscan : ∀ content, (m.render.foldl contentStep (true, content)).2
      = content ++ m.outside.map flat := by
    induction m with
    | text t ht =>
        intro content
        exact congrArg Prod.snd (foldl_contentStep_text ht content)
    | unclosed t g ht hg =>
        intro content
        rw [Lib.Markup.render, List.foldl_append, foldl_contentStep_text ht, List.foldl_cons,
          contentStep_open, foldl_contentStep_tag hg]
        rfl
    | tag t g ht hg rest ih =>
        intro content
        rw [Lib.Markup.render, List.foldl_append, foldl_contentStep_text ht, List.foldl_cons,
          contentStep_open, List.foldl_append, foldl_contentStep_tag hg, List.foldl_cons,
          contentStep_close, ih, Lib.Markup.outside, List.map_append, List.append_assoc]
  unfold parseContent
  rw [hscan]

private theorem map_flat_of_notMem {s : Str} (h : newline ∉ s) : s.map flat = s := by
  refine (List.map_congr_left fun c hc => ?_).trans (List.map_id s)
  have hne : c ≠ newline := by
    intro heq
    exact h (heq ▸ hc)
  unfold flat
  rw [if_neg hne]
  rfl

/-- **`ParseContent` computes exactly the text outside tags**, on any bytes. -/
theorem parseContent_outside (html content : Str) :
    (∃! m : Lib.Markup tagOpen tagClose, m.render = html) ∧
    ∃ (m : Lib.Markup tagOpen tagClose) (out : Str), m.render = html ∧ out = m.outside.map flat ∧
      parseContent html content = (true, content ++ out) ∧
      tagOpen ∉ out ∧ newline ∉ out ∧ parseContent out [] = (true, out) := by
  refine ⟨Lib.Markup.existsUnique_render html, ?_⟩
  obtain ⟨m, rfl⟩ := Lib.Markup.exists_render (o := tagOpen) (c := tagClose) html
  have hopen : tagOpen ∉ m.outside.map flat := by
    intro hmem
    obtain ⟨c, hc, hflat⟩ := List.mem_map.mp hmem
    rw [(flat_eq_iff (by decide) (by decide)).mp hflat] at hc
    exact m.notMem_outside hc
  have hnewline : newline ∉ m.outside.map flat := by
    intro hmem
    obtain ⟨c, -, hflat⟩ := List.mem_map.mp hmem
    exact flat_ne_newline c hflat
  refine ⟨m, _, rfl, rfl, parseContent_render m content, hopen, hnewline, ?_⟩
  -- the output is a text without tags
  have hagain := parseContent_render (.text _ hopen) []
  rwa [Lib.Markup.outside, map_flat_of_notMem hnewline] at hagain

/-! ### The scanner after a closing delimiter -/

/-- What is appended does not depend on what was there. -/
theorem parseContent_append_content (html content : Str) :
    (parseContent html content).2 = content ++ (parseContent html []).2 := by
  obtain ⟨m, rfl⟩ := Lib.Markup.exists_render (o := tagOpen) (c := tagClose) html
  rw [parseContent_render, parseContent_render, List.nil_append]

/-- After a `>` the scanner is in the text, whatever came before. -/
theorem parseContent_append_close (p s : Str) :
    (parseContent (p ++ [tagClose] ++ s) []).2
      = (parseContent (p ++ [tagClose]) []).2 ++ (parseContent s []).2 := by
  have hstate : ((p ++ [tagClose]).foldl contentStep (true, [])).1 = true := by
    rw [isContent_iff, inTag_concat_iff]
    intro h
    rcases h with h | ⟨-, h⟩
    · exact absurd h (by decide)
    · exact h rfl
  have hscan : (p ++ [tagClose]).foldl contentStep (true, [])
      = (true, (parseContent (p ++ [tagClose]) []).2) := Prod.ext hstate rfl
  rw [← parseContent_append_content s]
  unfold parseContent at hscan ⊢
  rw [List.foldl_append, hscan]

/-- The title as the scanner reads it: from the `>` of its opening tag, so in the text. -/
theorem parseContent_title_infix {html t : Str} (h : TitleText html t) :
    (parseContent t []).2 <:+: (parseContent html []).2 := by
  obtain ⟨-, -, -, ⟨before, after, rfl, -⟩, -⟩ := h
  have hopen : titleOpen = titleOpen.dropLast ++ [tagClose] := by decide
  have hsplit : before ++ (titleOpen ++ t ++ titleClose) ++ after
      = before ++ titleOpen.dropLast ++ [tagClose] ++ (t ++ (titleClose ++ after)) := by
    rw [hopen]
    simp
  rw [hsplit, parseContent_append_close]
  exact (parseContent_prefix_append t _).isInfix.trans (List.suffix_append _ _).isInfix

/-- **The scanner resynchronises at every `>`**, and so a record's content holds its title. -/
theorem parseContent_resynchronises :
    (∀ p s : Str, (parseContent (p ++ [tagClose] ++ s) []).2
      = (parseContent (p ++ [tagClose]) []).2 ++ (parseContent s []).2) ∧
    (∀ html title t : Str, parseTitle html title = .ok (true, t) →
      (parseContent t []).2 <:+: (parseContent html []).2) ∧
    ∀ (fs : FileSystem) (filePath : Str) (docInfo doc : DocInfo),
      parseFile fs filePath docInfo = .ok (true, doc) →
      (parseContent doc.title []).2 <:+: doc.content := by
  refine ⟨parseContent_append_close, fun html title t h => ?_, fun fs filePath docInfo doc h => ?_⟩
  · exact parseContent_title_infix (parseTitle_eq_true_iff.mp h)
  · obtain ⟨file, -, htitle, hcontent⟩ := parseFile_true h
    rw [hcontent, parseContent_append_content (Lib.terminate newline file)]
    have hin := parseContent_title_infix (titleText_terminate.mpr htitle)
    exact hin.trans (List.suffix_append _ _).isInfix

/-- A title tag inside a tag that is not closed, around a title with a `<` in it. -/
def nestedTitle : Str :=
  bytes ['<', 'p', ' '] ++ titleOpen ++ bytes ['a', '<', 'b'] ++ titleClose

/-- Both conclusions at that page. -/
theorem parseContent_resynchronises_nestedTitle :
    (parseContent (bytes ['a', '<', 'b']) []).2 <:+: (parseContent nestedTitle []).2 ∧
    (parseContent (bytes ['a', '<', 'b']) []).2
      <:+: (parsed gInputPath nestedTitle (bytes ['a', '<', 'b'])).content := by
  have htitle : parseTitle nestedTitle [] = .ok (true, bytes ['a', '<', 'b']) := by decide
  have hfile : parseFile (fun _ => some nestedTitle) gInputPath {}
      = .ok (true, parsed gInputPath nestedTitle (bytes ['a', '<', 'b'])) :=
    parseFile_of_titleText (List.prefix_refl _) rfl (parseTitle_eq_true_iff.mp htitle)
  exact ⟨parseContent_resynchronises.2.1 _ _ _ htitle,
    parseContent_resynchronises.2.2 _ _ _ _ hfile⟩

end DocSearcher.Parser
