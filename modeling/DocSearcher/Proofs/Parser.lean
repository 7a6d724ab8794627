/-
Reading a page, and its title.

`ParseTitle` works by substring search, and the search for the closing tag starts
at the opening tag and not after it.  That is harmless because neither tag can
start inside the other, so what is found is the grammar one expects: the first
`<title>`, a text, the first `</title>` after it.

The file as `Read` returns it differs from the file on disk by at most a final
newline, on which no title depends, so what `ParseFile` accepts is said of the bytes
on disk.  The content is in `Proofs/Content.lean`.
-/
import DocSearcher.Parser

namespace DocSearcher.Parser

/-! ### Reading -/

/-- `Read` returns the file with its last line terminated. -/
theorem read_eq {fs : FileSystem} {path file : Str} (h : fs path = some file) (output : Str) :
    Util.read fs path output = (true, output ++ Lib.terminate newline file) := by
  unfold Util.read
  rw [h]
  dsimp only
  rw [Lib.whileGetline_eq_foldl, ← Lib.flatMap_lines, List.foldl_append_eq_append, List.flatMap]

/-! ### The title -/

/-- `text` stands between the first opening tag and a closing tag, and has none in it. -/
def TitleText (html text : Str) : Prop :=
  text ≠ [] ∧ ¬ titleClose <:+: text ∧
    ∃ i, Lib.OccursAt (titleOpen ++ text ++ titleClose) html i ∧
      ∀ j, Lib.OccursAt titleOpen html j → i ≤ j

/-- A closing tag that does not start before an opening tag starts after it. -/
private theorem close_after_open {html : Str} {i j : Nat} (hopen : Lib.OccursAt titleOpen html i)
    (hclose : Lib.OccursAt titleClose html j) (hij : i ≤ j) : i + titleOpen.length ≤ j := by
  by_contra hlt
  have hstart := hopen.overlap hclose (by decide) hij (by omega)
  have hsecond : j ≠ i := by
    -- both tags start with `<`, but `t` and `/` differ
    intro heq
    subst heq
    have h₁ := hopen.getElem? (k := 1) (by decide)
    have h₂ := hclose.getElem? (k := 1) (by decide)
    rw [h₁] at h₂
    exact absurd h₂ (by decide)
  have hnone : ∀ k < titleOpen.length, k ≠ 0 → titleOpen[k]? ≠ titleClose[0]? := by decide
  exact hnone (j - i) (by omega) (by omega) hstart

/-- Two closing tags do not overlap. -/
private theorem close_after_close {html : Str} {i j : Nat}
    (hfirst : Lib.OccursAt titleClose html i) (hsecond : Lib.OccursAt titleClose html j)
    (hij : i < j) : i + titleClose.length ≤ j := by
  by_contra hlt
  have hstart := hfirst.overlap hsecond (by decide) (by omega) (by omega)
  have hnone : ∀ k < titleClose.length, k ≠ 0 → titleClose[k]? ≠ titleClose[0]? := by decide
  exact hnone (j - i) (by omega) (by omega) hstart

private theorem drop_opening (before text after : Str) :
    (before ++ (titleOpen ++ text ++ titleClose) ++ after).drop (before.length + titleOpen.length)
      = text ++ (titleClose ++ after) := by
  rw [← List.length_append, List.append_assoc, List.append_assoc, List.append_assoc,
    ← List.append_assoc before, List.drop_left]

/-- The closing tag found from the opening one is the one after the text. -/
private theorem find_close {before text after : Str} (hfree : ¬ titleClose <:+: text) :
    Lib.find (before ++ (titleOpen ++ text ++ titleClose) ++ after) titleClose before.length
      = some (before.length + titleOpen.length + text.length) := by
  have hdrop := drop_opening before text after
  generalize hhtml : before ++ (titleOpen ++ text ++ titleClose) ++ after = html at hdrop ⊢
  have hopen : Lib.OccursAt titleOpen html before.length :=
    ⟨before, text ++ titleClose ++ after, by simp [← hhtml], rfl⟩
  have hclose : Lib.OccursAt titleClose html (before.length + titleOpen.length + text.length) :=
    ⟨before ++ titleOpen ++ text, after, by simp [← hhtml], by simp [Nat.add_assoc]⟩
  refine Lib.find_eq_some_iff.mpr ⟨by omega, hclose, ?_⟩
  intro j hj hocc
  by_contra hlt
  have hafter := close_after_open hopen hocc hj
  have hfits := close_after_close hocc hclose (by omega)
  -- an earlier closing tag would lie within the text
  obtain ⟨k, rfl⟩ := Nat.exists_eq_add_of_le hafter
  have hin : Lib.OccursAt titleClose (text ++ (titleClose ++ after)) k := by
    rw [← hdrop]
    exact Lib.occursAt_drop hocc
  refine hfree (Lib.infix_iff_occursAt.mpr ⟨k, hin.of_take_eq (n := text.length) ?_ (by omega)⟩)
  rw [List.take_left, List.take_length]

/-- What lies between the two tags found has no closing tag in it. -/
private theorem titleText_of_find {html : Str} {b e : Nat}
    (hb : Lib.find html titleOpen 0 = some b) (he : Lib.find html titleClose b = some e)
    (hlt : b + titleOpen.length < e) :
    TitleText html ((html.drop (b + titleOpen.length)).take (e - (b + titleOpen.length))) := by
  obtain ⟨-, ⟨before, rest, hhtml, hlen⟩, hfirst⟩ := Lib.find_eq_some_iff.mp hb
  obtain ⟨-, hclose, hleast⟩ := Lib.find_eq_some_iff.mp he
  have hdrop : html.drop (b + titleOpen.length) = rest := by
    rw [hhtml, ← hlen, ← List.length_append, List.drop_left]
  have hclose' : Lib.OccursAt titleClose (html.drop (b + titleOpen.length))
      (e - (b + titleOpen.length)) :=
    Lib.occursAt_drop (by rwa [Nat.add_sub_cancel' (Nat.le_of_lt hlt)])
  rw [hdrop] at hclose' ⊢
  obtain ⟨text, after, rfl, htext⟩ := hclose'
  rw [← htext, List.append_assoc, List.take_left]
  refine ⟨?_, ?_, b, ⟨before, after, by simp [hhtml], hlen⟩, fun j => hfirst j (Nat.zero_le j)⟩
  · intro hnil
    rw [hnil, List.length_nil] at htext
    omega
  · intro hinfix
    obtain ⟨k, u, v, rfl, hk⟩ := Lib.infix_iff_occursAt.mp hinfix
    have hearly : Lib.OccursAt titleClose html (b + titleOpen.length + k) :=
      ⟨before ++ titleOpen ++ u, v ++ titleClose ++ after, by simp [hhtml],
        by simp [hlen, hk, Nat.add_assoc]⟩
    have hle := hleast _ (by omega) hearly
    have hcloseLen : titleClose.length = 8 := by decide
    rw [List.length_append, List.length_append, hk] at htext
    omega

/-- The grammar, as the two searches see it. -/
theorem titleText_iff_find {html text : Str} :
    TitleText html text ↔ ∃ b e, Lib.find html titleOpen 0 = some b ∧
      Lib.find html titleClose b = some e ∧ b + titleOpen.length < e ∧
      text = (html.drop (b + titleOpen.length)).take (e - (b + titleOpen.length)) := by
  refine ⟨fun h => ?_, fun h => ?_⟩
  · obtain ⟨hne, hfree, i, ⟨before, after, rfl, rfl⟩, hfirst⟩ := h
    have hpos := List.length_pos_of_ne_nil hne
    have hopen : Lib.OccursAt titleOpen (before ++ (titleOpen ++ text ++ titleClose) ++ after)
        before.length := ⟨before, text ++ titleClose ++ after, by simp, rfl⟩
    refine ⟨before.length, before.length + titleOpen.length + text.length,
      Lib.find_eq_some_iff.mpr ⟨Nat.zero_le _, hopen, fun j _ => hfirst j⟩, find_close hfree,
      by omega, ?_⟩
    rw [drop_opening, Nat.add_sub_cancel_left, List.take_left]
  · obtain ⟨b, e, hb, he, hlt, rfl⟩ := h
    exact titleText_of_find hb he hlt

theorem parseTitle_of_titleText {html text : Str} (h : TitleText html text) (title : Str) :
    parseTitle html title = .ok (true, text) := by
  obtain ⟨b, e, hb, he, hlt, rfl⟩ := titleText_iff_find.mp h
  have hlen := (Lib.find_eq_some_iff.mp he).2.1.add_length_le
  unfold parseTitle
  rw [hb]
  dsimp only
  rw [he]
  dsimp only
  have hsub : sizeSub e (b + titleOpen.length) = .ok (e - (b + titleOpen.length)) :=
    if_pos (Nat.le_of_lt hlt)
  have hsubstr : ∀ n, substr html (b + titleOpen.length) n
      = .ok ((html.drop (b + titleOpen.length)).take n) := fun n => if_pos (by omega)
  rw [if_neg (by omega), hsub]
  show substr html _ _ >>= _ = _
  rw [hsubstr]
  rfl

theorem parseTitle_of_forall_not {html : Str} (h : ∀ text, ¬ TitleText html text) (title : Str) :
    parseTitle html title = .ok (false, title) := by
  unfold parseTitle
  cases hb : Lib.find html titleOpen 0 with
  | none => rfl
  | some b =>
      dsimp only
      cases he : Lib.find html titleClose b with
      | none => rfl
      | some e =>
          dsimp only
          by_cases hlt : b + titleOpen.length < e
          · exact absurd (titleText_of_find hb he hlt) (h _)
          · rw [if_pos (by omega)]

/-- **`ParseTitle` succeeds on its grammar only.** -/
theorem parseTitle_eq_true_iff {html title text : Str} :
    parseTitle html title = .ok (true, text) ↔ TitleText html text := by
  refine ⟨fun h => ?_, fun h => parseTitle_of_titleText h title⟩
  by_cases hex : ∃ t, TitleText html t
  · obtain ⟨t, ht⟩ := hex
    rw [parseTitle_of_titleText ht, Except.ok.injEq, Prod.mk.injEq] at h
    rwa [← h.2]
  · rw [parseTitle_of_forall_not (not_exists.mp hex)] at h
    simp at h

theorem titleText_iff_append {html text : Str} :
    TitleText html text ↔ text ≠ [] ∧ ¬ titleClose <:+: text ∧
      ∃ a b, html = a ++ titleOpen ++ text ++ titleClose ++ b ∧
        ∀ j, Lib.OccursAt titleOpen html j → a.length ≤ j := by
  refine and_congr_right fun _ => and_congr_right fun _ => ⟨fun h => ?_, fun h => ?_⟩
  · obtain ⟨i, ⟨a, b, hhtml, rfl⟩, hfirst⟩ := h
    exact ⟨a, b, by rw [hhtml]; simp only [List.append_assoc], hfirst⟩
  · obtain ⟨a, b, hhtml, hfirst⟩ := h
    exact ⟨a.length, ⟨a, b, by rw [hhtml]; simp only [List.append_assoc], rfl⟩, hfirst⟩

/-- **`ParseTitle` accepts exactly its grammar**, and otherwise changes nothing. -/
theorem parseTitle_grammar (html title : Str) :
    (∀ t, parseTitle html title = .ok (true, t) ↔
      t ≠ [] ∧ ¬ titleClose <:+: t ∧ ∃ a b, html = a ++ titleOpen ++ t ++ titleClose ++ b ∧
        ∀ j, Lib.OccursAt titleOpen html j → a.length ≤ j) ∧
    ((∃ t, parseTitle html title = .ok (true, t)) ∨ parseTitle html title = .ok (false, title)) ∧
    parseTitle html title ≠ .error .wrapped := by
  have htotal : (∃ t, parseTitle html title = .ok (true, t)) ∨
      parseTitle html title = .ok (false, title) := by
    by_cases hex : ∃ t, TitleText html t
    · obtain ⟨t, ht⟩ := hex
      exact Or.inl ⟨t, parseTitle_of_titleText ht title⟩
    · exact Or.inr (parseTitle_of_forall_not (not_exists.mp hex) title)
  refine ⟨fun t => parseTitle_eq_true_iff.trans titleText_iff_append, htotal, fun hwrap => ?_⟩
  rw [hwrap] at htotal
  simp at htotal

private theorem titleText_concat_newline {file text : Str} :
    TitleText (file ++ [newline]) text ↔ TitleText file text := by
  have hopen : ∀ j, Lib.OccursAt titleOpen (file ++ [newline]) j
      ↔ Lib.OccursAt titleOpen file j := fun j =>
    Lib.occursAt_concat_iff (by decide) (by decide)
  have hwhole : ∀ i, Lib.OccursAt (titleOpen ++ text ++ titleClose) (file ++ [newline]) i
      ↔ Lib.OccursAt (titleOpen ++ text ++ titleClose) file i := by
    intro i
    refine Lib.occursAt_concat_iff (by simp [titleClose, bytes]) ?_
    rw [List.getLast?_append_of_ne_nil _ (by decide)]
    decide
  unfold TitleText
  simp only [hopen, hwhole]

/-- The newline `Read` may add does not change what the title is. -/
theorem titleText_terminate {file text : Str} :
    TitleText (Lib.terminate newline file) text ↔ TitleText file text := by
  rcases @Lib.terminate_eq_or _ _ newline file with h | h
  · rw [h]
  · rw [h, titleText_concat_newline]

/-! ### One file -/

/-- The record `ParseFile` makes of an accepted file. -/
def parsed (path file title : Str) : DocInfo :=
  ⟨title, gUrlHead ++ path.drop gInputPath.length,
    (parseContent (Lib.terminate newline file) []).2⟩

/-- With a title found, only the path can still fail, and it fails by throwing. -/
theorem parseFile_of_title {fs : FileSystem} {path file title : Str}
    (hfile : fs path = some file) (htitle : TitleText file title) (docInfo : DocInfo) :
    parseFile fs path docInfo =
      if gInputPath.length ≤ path.length then
        .ok (true, ⟨title, gUrlHead ++ path.drop gInputPath.length,
          (parseContent (Lib.terminate newline file) docInfo.content).2⟩)
      else .error .outOfRange := by
  unfold parseFile
  rw [read_eq hfile, List.nil_append]
  dsimp only
  rw [parseTitle_of_titleText (titleText_terminate.mpr htitle)]
  unfold parseUrl substrFrom
  by_cases hlen : gInputPath.length ≤ path.length
  · rw [if_pos hlen, if_pos hlen]
    rfl
  · rw [if_neg hlen, if_neg hlen]
    rfl

theorem parseFile_of_titleText {fs : FileSystem} {path file title : Str}
    (hpath : gInputPath <+: path) (hfile : fs path = some file) (htitle : TitleText file title) :
    parseFile fs path {} = .ok (true, parsed path file title) :=
  (parseFile_of_title hfile htitle {}).trans (if_pos hpath.length_le)

theorem parseFile_of_closed {fs : FileSystem} {path : Str} (hfile : fs path = none)
    (docInfo : DocInfo) : parseFile fs path docInfo = .ok (false, docInfo) := by
  unfold parseFile Util.read
  rw [hfile]

theorem parseFile_of_forall_not {fs : FileSystem} {path file : Str} (hfile : fs path = some file)
    (htitle : ∀ title, ¬ TitleText file title) (docInfo : DocInfo) :
    parseFile fs path docInfo = .ok (false, docInfo) := by
  unfold parseFile
  rw [read_eq hfile, List.nil_append]
  dsimp only
  rw [parseTitle_of_forall_not fun title h => htitle title (titleText_terminate.mp h)]
  rfl

/-- **Reading loses nothing but the absence of a final newline**, and no page depends on it. -/
theorem read_final_newline (fs : FileSystem) (path s : Str) (hfile : fs path = some s) :
    (∀ o, Util.read fs path o =
      (true, if s = [] ∨ s.getLast? = some newline then o ++ s else o ++ s ++ [newline])) ∧
    ∀ fs' : FileSystem, fs' path = some (s ++ [newline]) →
      s ≠ [] → s.getLast? ≠ some newline →
      ∀ docInfo, parseFile fs path docInfo = parseFile fs' path docInfo := by
  refine ⟨fun o => ?_, fun fs' hfile' hne hlast docInfo => ?_⟩
  · rw [read_eq hfile]
    unfold Lib.terminate
    by_cases hs : s = [] ∨ s.getLast? = some newline
    · rw [if_pos hs, if_pos hs]
    · rw [if_neg hs, if_neg hs, List.append_assoc]
  · have hbare : Lib.terminate newline s = s ++ [newline] := if_neg (not_or.mpr ⟨hne, hlast⟩)
    have hfull : Lib.terminate newline (s ++ [newline]) = s ++ [newline] :=
      if_pos (Or.inr List.getLast?_concat)
    unfold parseFile
    rw [read_eq hfile, read_eq hfile', hbare, hfull]

/-- A page that is one title, with and without a newline after it. -/
theorem read_final_newline_one_title :
    Util.read (fun _ => some (titleOpen ++ bytes ['a'] ++ titleClose)) gInputPath []
      = (true, titleOpen ++ bytes ['a'] ++ titleClose ++ [newline]) ∧
    parseFile (fun _ => some (titleOpen ++ bytes ['a'] ++ titleClose)) gInputPath {}
      = parseFile (fun _ => some (titleOpen ++ bytes ['a'] ++ titleClose ++ [newline]))
          gInputPath {} := by
  obtain ⟨hread, hparse⟩ := read_final_newline
    (fun _ => some (titleOpen ++ bytes ['a'] ++ titleClose)) gInputPath _ rfl
  exact ⟨hread [], hparse _ rfl (by decide) (by decide) {}⟩

/-- What an accepted file was, for any record to start from. -/
theorem parseFile_true {fs : FileSystem} {path : Str} {docInfo doc : DocInfo}
    (h : parseFile fs path docInfo = .ok (true, doc)) :
    ∃ file, fs path = some file ∧ TitleText file doc.title ∧
      doc.content = (parseContent (Lib.terminate newline file) docInfo.content).2 := by
  cases hfile : fs path with
  | none =>
      rw [parseFile_of_closed hfile] at h
      simp at h
  | some file =>
      by_cases hex : ∃ title, TitleText file title
      · obtain ⟨title, htitle⟩ := hex
        rw [parseFile_of_title hfile htitle] at h
        by_cases hlen : gInputPath.length ≤ path.length
        · rw [if_pos hlen, Except.ok.injEq, Prod.mk.injEq] at h
          rw [← h.2]
          exact ⟨file, rfl, htitle, rfl⟩
        · rw [if_neg hlen] at h
          simp at h
      · rw [parseFile_of_forall_not hfile (not_exists.mp hex)] at h
        simp at h

/-- **`ParseFile` accepts the files that open and have a title.** -/
theorem parseFile_cases {fs : FileSystem} {path : Str} (hpath : gInputPath <+: path) :
    (∃ file title, fs path = some file ∧ TitleText file title ∧
      parseFile fs path {} = .ok (true, parsed path file title)) ∨
    ((∀ file, fs path = some file → ∀ title, ¬ TitleText file title) ∧
      parseFile fs path {} = .ok (false, {})) := by
  cases hfile : fs path with
  | none => exact Or.inr ⟨fun file h => by simp at h, parseFile_of_closed hfile {}⟩
  | some file =>
      by_cases htitle : ∃ title, TitleText file title
      · obtain ⟨title, htitle⟩ := htitle
        exact Or.inl ⟨file, title, rfl, htitle, parseFile_of_titleText hpath hfile htitle⟩
      · rw [not_exists] at htitle
        refine Or.inr ⟨fun file' h => ?_, parseFile_of_forall_not hfile htitle {}⟩
        rw [Option.some.injEq] at h
        rw [← h]
        exact htitle

end DocSearcher.Parser
