/-
From the preprocessor to the indexer.

`raw_input.txt` is written by one program and read by another, and the format has
no escapes.  Records come back as they were written exactly when no field carries
one of the two framing bytes, newline and 3.  `ParseContent` takes care of
newlines, and of separators inside tags; `ParseTitle` and `ParseUrl` copy what they
find.  So the two programs agree on a directory exactly when no title, path or
text outside a tag has a framing byte left in it.
-/
import DocSearcher.Proofs.Build
import DocSearcher.Proofs.Content
import DocSearcher.Proofs.Instances

namespace DocSearcher

open Corpus

namespace Corpus

/-! ### Records -/

theorem newline_notMem_joined {doc : Parser.DocInfo} :
    newline ∉ joined doc ↔ Free newline doc := by
  have hne : newline ≠ fieldSep := by decide
  unfold joined Free
  simp [hne]

private theorem filterMap_decode_joined {docs : Corpus} (h : ∀ doc ∈ docs, Free fieldSep doc) :
    (docs.map joined).filterMap decode = docs := by
  rw [List.filterMap_map]
  calc docs.filterMap (decode ∘ joined)
      = docs.filterMap some :=
        List.filterMap_congr fun doc hdoc => decode_eq_some_iff.mpr ⟨rfl, h doc hdoc⟩
    _ = docs := List.filterMap_some

/-- **Records read back as written exactly when no field has a framing byte.** -/
theorem ofFile_records_eq_iff (docs : Corpus) :
    ofFile (docs.flatMap Parser.record) = docs ↔
      ∀ doc ∈ docs, Free fieldSep doc ∧ Free newline doc := by
  refine ⟨fun h doc hdoc => ?_, fun h => ?_⟩
  · -- whatever is read comes from one line, which has no newline and splits at every 3
    rw [← h] at hdoc
    obtain ⟨line, hline, hdecode⟩ := List.mem_filterMap.mp hdoc
    obtain ⟨rfl, hfree⟩ := decode_eq_some_iff.mp hdecode
    exact ⟨hfree, newline_notMem_joined.mp (Lib.not_mem_of_mem_lines hline)⟩
  · have hwritten : docs.flatMap Parser.record
        = (docs.map joined).flatMap fun line => line ++ [newline] := by
      rw [List.flatMap_map]
      rfl
    have hlines : ∀ line ∈ docs.map joined, newline ∉ line := by
      intro line hline
      obtain ⟨doc, hdoc, rfl⟩ := List.mem_map.mp hline
      exact newline_notMem_joined.mpr (h doc hdoc).2
    unfold ofFile
    rw [hwritten, Lib.lines_flatMap_terminated hlines]
    exact filterMap_decode_joined fun doc hdoc => (h doc hdoc).1

theorem forward_inj {base : Nat} {docs docs' : Corpus} :
    forward base docs = forward base docs' ↔ docs = docs' := by
  refine ⟨fun h => ?_, fun h => by rw [h]⟩
  rw [← map_plain_forward base docs, h, map_plain_forward]

end Corpus

theorem Index.forwardIndex_build_empty (cut : Str → List Str)
    (order : Int → Lib.Enumeration Str WordCnt) (file : Str) :
    (build cut order empty (some file)).2.forwardIndex = forward 0 (ofFile file) :=
  (build_extends cut order empty file).forward

namespace Parser

theorem foldl_writeOutput (docs : Corpus) (out : Str) :
    docs.foldl (fun out doc => writeOutput doc out) out = out ++ docs.flatMap record := by
  unfold writeOutput
  rw [List.foldl_append_eq_append, List.flatMap]

/--
**`Build` undoes `WriteOutput`** exactly on the lists of records in which no title,
url or content has the byte 3 or a newline.
-/
theorem build_writeOutput_iff (cut : Str → List Str) (order : Int → Lib.Enumeration Str WordCnt)
    (docs : List DocInfo) :
    (Index.build cut order Index.empty
        (some (docs.foldl (fun out doc => writeOutput doc out) []))).2.forwardIndex.map
          (fun docInfo => (⟨docInfo.title, docInfo.url, docInfo.content⟩ : DocInfo)) = docs ↔
      ∀ doc ∈ docs, (fieldSep ∉ doc.title ∧ newline ∉ doc.title) ∧
        (fieldSep ∉ doc.url ∧ newline ∉ doc.url) ∧
        (fieldSep ∉ doc.content ∧ newline ∉ doc.content) := by
  rw [foldl_writeOutput, List.nil_append, Index.forwardIndex_build_empty]
  show (forward 0 (ofFile (docs.flatMap record))).map plain = docs ↔ _
  rw [map_plain_forward, ofFile_records_eq_iff]
  unfold Free
  refine forall₂_congr fun doc _ => ?_
  tauto

/-! ### The main loop -/

/-- The record of a file, if `ParseFile` accepts it. -/
def acceptedDoc (fs : FileSystem) (path : Str) : Option DocInfo :=
  match parseFile fs path {} with
  | .ok (true, docInfo) => some docInfo
  | _ => none

/-- The records of the files `ParseFile` accepts, in order. -/
def accepted (fs : FileSystem) (fileList : List Str) : Corpus :=
  fileList.filterMap (acceptedDoc fs)

private theorem mainStep_eq {fs : FileSystem} {path : Str} (hpath : gInputPath <+: path)
    (out : Str) :
    mainStep fs out path = .ok (out ++ (acceptedDoc fs path).toList.flatMap record) := by
  unfold mainStep acceptedDoc
  rcases parseFile_cases hpath with ⟨file, title, -, -, hparse⟩ | ⟨-, hparse⟩
  · rw [hparse]
    show Except.ok (writeOutput _ out) = _
    simp [writeOutput]
  · rw [hparse]
    show Except.ok out = _
    simp

private theorem foldlM_mainStep {fs : FileSystem} {fileList : List Str}
    (h : ∀ path ∈ fileList, gInputPath <+: path) :
    ∀ out, fileList.foldlM (mainStep fs) out
      = .ok (out ++ (accepted fs fileList).flatMap record) := by
  induction fileList with
  | nil => intro out; simp [accepted, pure, Except.pure]
  | cons path rest ih =>
      intro out
      rw [List.foldlM_cons, mainStep_eq (h path (by simp))]
      show rest.foldlM (mainStep fs) _ = _
      rw [ih fun path' hpath' => h path' (by simp [hpath'])]
      unfold accepted
      rw [List.filterMap_cons]
      cases acceptedDoc fs path with
      | none => simp
      | some docInfo => simp

/-- **The main loop writes the records of the accepted files**, and never faults. -/
theorem mainLoop_eq {fs : FileSystem} {fileList : List Str}
    (h : ∀ path ∈ fileList, gInputPath <+: path) :
    mainLoop fs fileList = .ok ((accepted fs fileList).flatMap record) := by
  unfold mainLoop
  rw [foldlM_mainStep h, List.nil_append]

/--
The file, should it be accepted, has no framing byte where one would survive: none
in its title, none in its path below the input directory, and no 3 outside a tag.
-/
def Framed (fs : FileSystem) (path : Str) : Prop :=
  ∀ file, fs path = some file → ∀ title, TitleText file title →
    (fieldSep ∉ title ∧ newline ∉ title) ∧
    (fieldSep ∉ path.drop gInputPath.length ∧ newline ∉ path.drop gInputPath.length) ∧
    ∀ before after, file = before ++ fieldSep :: after → InTag before

private theorem free_parsed_iff {path file title : Str} :
    Free fieldSep (parsed path file title) ∧ Free newline (parsed path file title) ↔
      (fieldSep ∉ title ∧ newline ∉ title) ∧
      (fieldSep ∉ path.drop gInputPath.length ∧ newline ∉ path.drop gInputPath.length) ∧
      ∀ before after, file = before ++ fieldSep :: after → InTag before := by
  have hhead : fieldSep ∉ gUrlHead ∧ newline ∉ gUrlHead := by decide
  have hurl : ∀ b, b ∉ gUrlHead →
      (b ∉ gUrlHead ++ path.drop gInputPath.length ↔ b ∉ path.drop gInputPath.length) := by
    intro b hb
    rw [List.mem_append, not_or]
    exact and_iff_right hb
  have hcontent := newline_notMem_parseContent (Lib.terminate newline file)
  unfold Free parsed
  dsimp only
  rw [hurl _ hhead.1, hurl _ hhead.2, fieldSep_notMem_parseContent]
  tauto

/-- The condition on one file is that its record is free of framing bytes. -/
theorem free_acceptedDoc_iff {fs : FileSystem} {path : Str} (hpath : gInputPath <+: path) :
    (∀ docInfo, acceptedDoc fs path = some docInfo →
      Free fieldSep docInfo ∧ Free newline docInfo) ↔ Framed fs path := by
  unfold acceptedDoc Framed
  rcases parseFile_cases hpath with ⟨file, title, hfile, htitle, hparse⟩ | ⟨hnone, hparse⟩
  · rw [hparse]
    refine ⟨fun h file' hfile' title' htitle' => ?_, fun h docInfo hdoc => ?_⟩
    · obtain rfl : file = file' := by simpa [hfile] using hfile'
      have hsame : title = title' := by
        have h₁ := parseTitle_of_titleText htitle []
        rw [parseTitle_of_titleText htitle' []] at h₁
        simpa using h₁.symm
      rw [← hsame]
      exact free_parsed_iff.mp (h _ rfl)
    · obtain rfl : parsed path file title = docInfo := by simpa using hdoc
      exact free_parsed_iff.mpr (h file hfile title htitle)
  · rw [hparse]
    refine ⟨fun _ file hfile title htitle => ?_, fun _ docInfo hdoc => ?_⟩
    · exact absurd htitle (hnone file hfile title)
    · simp at hdoc

/--
**The indexer sees what the preprocessor accepted** exactly when no accepted file
has a framing byte in its title, in its path below the input directory, or, for the
separator, outside its tags.
-/
theorem mainLoop_build_iff (cut : Str → List Str) (order : Int → Lib.Enumeration Str WordCnt)
    (fs : FileSystem) (fileList : List Str) (hpaths : ∀ path ∈ fileList, gInputPath <+: path) :
    ∃ out, mainLoop fs fileList = .ok out ∧
      ((Index.build cut order Index.empty (some out)).2.forwardIndex
          = forward 0 (accepted fs fileList) ↔
        ∀ path ∈ fileList, Framed fs path) := by
  refine ⟨_, mainLoop_eq hpaths, ?_⟩
  rw [Index.forwardIndex_build_empty, forward_inj, ofFile_records_eq_iff]
  unfold accepted
  refine ⟨fun h path hmem => ?_, fun h docInfo hdoc => ?_⟩
  · refine (free_acceptedDoc_iff (hpaths path hmem)).mp fun docInfo hdoc => ?_
    exact h docInfo (List.mem_filterMap.mpr ⟨path, hmem, hdoc⟩)
  · obtain ⟨path, hmem, hacc⟩ := List.mem_filterMap.mp hdoc
    exact (free_acceptedDoc_iff (hpaths path hmem)).mpr (h path hmem) docInfo hacc

/-- `a.html` in the input directory. -/
def pageA : Str := gInputPath ++ bytes ['a', '.', 'h', 't', 'm', 'l']

/-- The link made of it. -/
def linkA : Str := gUrlHead ++ bytes ['a', '.', 'h', 't', 'm', 'l']

theorem pageA_below : gInputPath <+: pageA := List.prefix_append _ _

/-- A directory with that file alone, whose title runs over two lines. -/
def twoLineTitle : FileSystem := fun path =>
  if path = pageA then
    some (titleOpen ++ bytes ['A'] ++ [newline] ++ bytes ['B'] ++ titleClose)
  else none

/-- The record of that file, as `ParseFile` makes it. -/
def twoLineDoc : DocInfo :=
  ⟨bytes ['A'] ++ [newline] ++ bytes ['B'], linkA, bytes ['A', ' ', 'B', ' ']⟩

/-- The condition applies to that directory. -/
theorem mainLoop_build_twoLineTitle :
    (∀ path ∈ [pageA], gInputPath <+: path) ∧
    ∃ out, mainLoop twoLineTitle [pageA] = .ok out ∧
      ((Index.build wordsAndSpaces byteOrder Index.empty (some out)).2.forwardIndex
          = forward 0 (accepted twoLineTitle [pageA]) ↔
        ∀ path ∈ [pageA], Framed twoLineTitle path) :=
  ⟨List.forall_mem_singleton.mpr pageA_below, mainLoop_build_iff wordsAndSpaces byteOrder
    twoLineTitle [pageA] (List.forall_mem_singleton.mpr pageA_below)⟩

private theorem parseFile_twoLineTitle :
    parseFile twoLineTitle pageA {} = .ok (true, twoLineDoc) := by
  have htitle : TitleText (titleOpen ++ bytes ['A'] ++ [newline] ++ bytes ['B'] ++ titleClose)
      (bytes ['A'] ++ [newline] ++ bytes ['B']) :=
    titleText_iff_find.mpr ⟨0, 10, by decide, by decide, by decide, by decide⟩
  rw [parseFile_of_titleText pageA_below (if_pos rfl) htitle]
  have hparsed : parsed pageA
      (titleOpen ++ bytes ['A'] ++ [newline] ++ bytes ['B'] ++ titleClose)
      (bytes ['A'] ++ [newline] ++ bytes ['B']) = twoLineDoc := by decide
  rw [hparsed]

/-- The two-line title is accepted, and only its second line reaches the index. -/
theorem two_line_title_loses_first_line :
    accepted twoLineTitle [pageA] = [twoLineDoc] ∧
    mainLoop twoLineTitle [pageA] = .ok (record twoLineDoc) ∧
    (Index.build wordsAndSpaces byteOrder Index.empty
        (some (record twoLineDoc))).2.forwardIndex
      = [⟨0, bytes ['B'], linkA, bytes ['A', ' ', 'B', ' ']⟩] ∧
    (Index.build wordsAndSpaces byteOrder Index.empty
        (some (record twoLineDoc))).2.forwardIndex ≠ forward 0 [twoLineDoc] := by
  have haccepted : accepted twoLineTitle [pageA] = [twoLineDoc] := by
    simp [accepted, acceptedDoc, parseFile_twoLineTitle]
  have hindex : (Index.build wordsAndSpaces byteOrder Index.empty
        (some (record twoLineDoc))).2.forwardIndex
      = [⟨0, bytes ['B'], linkA, bytes ['A', ' ', 'B', ' ']⟩] := by
    rw [Index.forwardIndex_build_empty]
    decide
  refine ⟨haccepted, ?_, hindex, ?_⟩
  · rw [mainLoop_eq (List.forall_mem_singleton.mpr pageA_below), haccepted, List.flatMap_singleton]
  · rw [hindex]
    decide

end Parser

end DocSearcher
