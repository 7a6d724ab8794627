/-
From a directory of pages to an answer.

The two programs meet only on disk: the preprocessor reads the input directory and
writes `raw_input.txt`, the server reads that file and nothing else.  Here they are run
one after the other.  What a query then finds can be said of the pages themselves: for
each word of the query, every listed page that has a title and mentions the word, with
the link made of its path and a snippet of its text.

A page is read back as it was parsed unless it has one of the two bytes that frame
records where it may not; what the indexer makes of it then is its own business and no
other page's.  So pages can be indexed together or one by one, and in any order.

The preprocessor can be ended by what the calls into the file system throw while the
directory is listed, and by nothing in a page.
-/
import DocSearcher.Lib.Loop
import DocSearcher.Proofs.HttpServer

namespace DocSearcher

open Corpus

namespace Parser

/-! ### Listing the directory -/

/-- The pages among the entries of a directory. -/
def pages (entries : List DirEntry) : List Str :=
  (entries.filter fun entry =>
    entry.isRegularFile = .ok true ∧ entry.extension = bytes ['.', 'h', 't', 'm', 'l']).map
      DirEntry.path

theorem pages_eq_flatMap (entries : List DirEntry) :
    pages entries = entries.flatMap fun entry => pages [entry] := by
  induction entries with
  | nil => rfl
  | cons entry rest ih =>
      rw [List.flatMap_cons, ← ih]
      unfold pages
      rw [← List.map_append, ← List.filter_append, List.singleton_append]

theorem mem_pages {entries : List DirEntry} {path : Str} (h : path ∈ pages entries) :
    ∃ entry ∈ entries, entry.path = path := by
  obtain ⟨entry, hentry, hpath⟩ := List.mem_map.mp h
  exact ⟨entry, List.mem_of_mem_filter hentry, hpath⟩

/-- `is_regular_file` returns. -/
def DirEntry.Known (entry : DirEntry) : Prop := ∃ regular, entry.isRegularFile = .ok regular

theorem DirEntry.known_or (entry : DirEntry) :
    entry.Known ∨ ∃ fault, entry.isRegularFile = .error fault := by
  unfold Known
  cases entry.isRegularFile with
  | ok regular => exact Or.inl ⟨regular, rfl⟩
  | error fault => exact Or.inr ⟨fault, rfl⟩

theorem enumStep_of_known {entry : DirEntry} (h : entry.Known) (fileList : List Str) :
    enumStep fileList entry = .ok (fileList ++ pages [entry]) := by
  obtain ⟨regular, hregular⟩ := h
  unfold enumStep pages
  rw [hregular]
  by_cases hpage : regular = true ∧ entry.extension = bytes ['.', 'h', 't', 'm', 'l']
  · rw [List.filter_cons_of_pos (by simp [hregular, hpage.1, hpage.2])]
    simp [bind, Except.bind, hpage.1, hpage.2, pure, Except.pure]
  · rw [List.filter_cons_of_neg (by simpa [hregular] using hpage)]
    cases regular with
    | false => simp [bind, Except.bind, pure, Except.pure]
    | true =>
        have hext : entry.extension ≠ bytes ['.', 'h', 't', 'm', 'l'] := fun hc => hpage ⟨rfl, hc⟩
        simp [bind, Except.bind, hext, pure, Except.pure]

theorem enumStep_of_throws {entry : DirEntry} {fault : Fault}
    (h : entry.isRegularFile = .error fault) (fileList : List Str) :
    enumStep fileList entry = .error fault := by
  unfold enumStep
  rw [h]
  rfl

theorem isRegularFile_of_enumStep {entry : DirEntry} {fault : Fault} {fileList : List Str}
    (h : enumStep fileList entry = .error fault) : entry.isRegularFile = .error fault := by
  rcases entry.known_or with hknown | ⟨fault', hfault'⟩
  · rw [enumStep_of_known hknown] at h
    simp at h
  · rw [enumStep_of_throws hfault'] at h
    rw [hfault', Except.error.inj h]

/-- The loop of `EnumFile`, when no call throws. -/
theorem foldlM_enumStep {entries : List DirEntry} (h : ∀ entry ∈ entries, entry.Known)
    (fileList : List Str) : entries.foldlM enumStep fileList = .ok (fileList ++ pages entries) := by
  rw [Lib.foldlM_ok (fun entry hentry list => enumStep_of_known (h entry hentry) list),
    List.foldl_append_eq_append, ← List.flatMap_def, ← pages_eq_flatMap]

/-- The input directory is there and can be listed. -/
structure Listed (disk : Disk) (entries : List DirEntry) : Prop where
  found : disk.pathExists gInputPath = .ok true
  walk : disk.walk gInputPath = ⟨entries, none⟩
  kinds : ∀ entry ∈ entries, entry.Known

/-- **`EnumFile` lists the pages**, in the order of the directory. -/
theorem enumFile_of_listed {disk : Disk} {entries : List DirEntry} (h : Listed disk entries) :
    enumFile disk gInputPath [] = .ok (true, pages entries) := by
  unfold enumFile
  rw [h.found, h.walk]
  show (entries.foldlM enumStep [] >>= _) = _
  rw [foldlM_enumStep h.kinds]
  rfl

/--
A walk throws: at an entry, all before it having been looked at, or when all entries
have been.
-/
def Walk.Throws (walk : Walk) (fault : Fault) : Prop :=
  (∃ before entry after, walk.entries = before ++ entry :: after ∧
    (∀ entry ∈ before, entry.Known) ∧ entry.isRegularFile = .error fault) ∨
  (∀ entry ∈ walk.entries, entry.Known) ∧ walk.thrown = some fault

/-- A call into the file system throws while the directory is listed. -/
def ListingThrows (disk : Disk) (fault : Fault) : Prop :=
  disk.pathExists gInputPath = .error fault ∨
  disk.pathExists gInputPath = .ok true ∧ (disk.walk gInputPath).Throws fault

theorem known_of_foldlM {entries : List DirEntry} {fileList list : List Str}
    (h : entries.foldlM enumStep fileList = .ok list) : ∀ entry ∈ entries, entry.Known := by
  intro entry hentry
  obtain ⟨list', list'', hstep⟩ := Lib.exists_ok_of_foldlM_eq_ok h entry hentry
  refine entry.known_or.resolve_right fun ⟨fault, hfault⟩ => ?_
  rw [enumStep_of_throws hfault] at hstep
  simp at hstep

theorem foldlM_enumStep_eq_error_iff {entries : List DirEntry} (fileList : List Str)
    {fault : Fault} : entries.foldlM enumStep fileList = .error fault ↔
      ∃ before entry after, entries = before ++ entry :: after ∧
        (∀ entry ∈ before, entry.Known) ∧ entry.isRegularFile = .error fault := by
  rw [Lib.foldlM_eq_error_iff]
  refine ⟨?_, ?_⟩
  · rintro ⟨before, entry, after, list, rfl, hbefore, hthrows⟩
    exact ⟨before, entry, after, rfl, known_of_foldlM hbefore, isRegularFile_of_enumStep hthrows⟩
  · rintro ⟨before, entry, after, rfl, hbefore, hthrows⟩
    exact ⟨before, entry, after, _, rfl, foldlM_enumStep hbefore fileList,
      enumStep_of_throws hthrows _⟩

/-- **`EnumFile` throws what the first call to throw does.** -/
theorem enumFile_of_throws {disk : Disk} {fault : Fault} (h : ListingThrows disk fault) :
    enumFile disk gInputPath [] = .error fault := by
  unfold enumFile
  rcases h with hexists | ⟨hexists, hentry | ⟨hkinds, hthrown⟩⟩
  · rw [hexists]
    rfl
  · rw [hexists]
    show ((disk.walk gInputPath).entries.foldlM enumStep [] >>= _) = _
    rw [(foldlM_enumStep_eq_error_iff []).mpr hentry]
    rfl
  · rw [hexists]
    show ((disk.walk gInputPath).entries.foldlM enumStep [] >>= _) = _
    rw [foldlM_enumStep hkinds, hthrown]
    rfl

theorem enumFile_of_missing {disk : Disk} (h : disk.pathExists gInputPath = .ok false) :
    enumFile disk gInputPath [] = .ok (false, []) := by
  unfold enumFile
  rw [h]
  rfl

theorem Listed.not_throws {disk : Disk} {entries : List DirEntry} (h : Listed disk entries)
    (fault : Fault) : ¬ ListingThrows disk fault := by
  intro hthrows
  have henum := enumFile_of_listed h
  simp [enumFile_of_throws hthrows] at henum

/-- A directory is listed in one way. -/
theorem Listed.iff_eq {disk : Disk} {entries : List DirEntry} (h : Listed disk entries)
    (entries' : List DirEntry) : Listed disk entries' ↔ entries' = entries := by
  refine ⟨fun h' => ?_, fun heq => heq ▸ h⟩
  exact (Walk.mk.inj (h'.walk.symm.trans h.walk)).1

/-- Some call throws, or the directory is not there, or it is listed. -/
theorem listing_cases (disk : Disk) :
    (∃ fault, ListingThrows disk fault) ∨ disk.pathExists gInputPath = .ok false ∨
      ∃ entries, Listed disk entries := by
  cases hexists : disk.pathExists gInputPath with
  | error fault => exact Or.inl ⟨fault, Or.inl hexists⟩
  | ok found =>
      cases found with
      | false => exact Or.inr (Or.inl rfl)
      | true =>
          cases hloop : (disk.walk gInputPath).entries.foldlM enumStep [] with
          | error fault =>
              have hentry := (foldlM_enumStep_eq_error_iff []).mp hloop
              exact Or.inl ⟨fault, Or.inr ⟨hexists, Or.inl hentry⟩⟩
          | ok list =>
              have hkinds := known_of_foldlM hloop
              cases hthrown : (disk.walk gInputPath).thrown with
              | some fault =>
                  exact Or.inl ⟨fault, Or.inr ⟨hexists, Or.inr ⟨hkinds, hthrown⟩⟩⟩
              | none =>
                  have hwalk : disk.walk gInputPath = ⟨(disk.walk gInputPath).entries, none⟩ := by
                    rw [← hthrown]
                  exact Or.inr (Or.inr ⟨_, hexists, hwalk, hkinds⟩)

/-! ### The preprocessor on a disk -/

/-- What becomes of a page is decided by its own bytes. -/
theorem acceptedDoc_congr {fs fs' : FileSystem} {path : Str} (h : fs path = fs' path) :
    acceptedDoc fs path = acceptedDoc fs' path := by
  unfold acceptedDoc parseFile Util.read
  rw [h]

/-- The directory can be listed and lies where the program looks for it, and the output opens. -/
structure Ready (disk : Disk) (entries : List DirEntry) : Prop extends Listed disk entries where
  below : ∀ entry ∈ entries, gInputPath <+: entry.path
  writable : disk.writable gOutputPath = true

theorem Ready.pages_below {disk : Disk} {entries : List DirEntry} (h : Ready disk entries) :
    ∀ path ∈ pages entries, gInputPath <+: path := by
  intro path hpath
  obtain ⟨entry, hentry, rfl⟩ := mem_pages hpath
  exact h.below entry hentry

theorem main_of_throws {disk : Disk} {fault : Fault} (h : ListingThrows disk fault) :
    main disk = .error fault := by
  unfold main
  rw [enumFile_of_throws h]
  rfl

theorem main_of_missing {disk : Disk} (h : disk.pathExists gInputPath = .ok false) :
    main disk = .ok (1, disk.files) := by
  unfold main
  rw [enumFile_of_missing h]
  rfl

/-- `main`, once the directory has been listed. -/
theorem main_of_listed {disk : Disk} {entries : List DirEntry} (h : Listed disk entries) :
    main disk = if disk.writable gOutputPath = false then .ok (1, disk.files)
      else (mainLoop (Function.update disk.files gOutputPath (some [])) (pages entries)).map
        fun out => (0, Function.update disk.files gOutputPath (some out)) := by
  unfold main
  rw [enumFile_of_listed h]
  rfl

/-- **The preprocessor writes the records of the pages it accepts**, and touches no other file. -/
theorem main_eq {disk : Disk} {entries : List DirEntry} (h : Ready disk entries) :
    main disk = .ok (0, Function.update disk.files gOutputPath
      (some ((accepted disk.files (pages entries)).flatMap record))) := by
  have hoff : ¬ gInputPath <+: gOutputPath := by decide
  -- truncating the output does not change any page
  have hsame : accepted (Function.update disk.files gOutputPath (some [])) (pages entries)
      = accepted disk.files (pages entries) := by
    refine List.filterMap_congr fun path hpath => acceptedDoc_congr ?_
    refine Function.update_of_ne ?_ _ _
    intro heq
    exact hoff (heq ▸ h.pages_below path hpath)
  rw [main_of_listed h.toListed, if_neg (by simp [h.writable]), mainLoop_eq h.pages_below, hsame]
  rfl

/-! ### When it throws

Once the directory has been listed, one thing is left that can throw.  `ParseUrl` cuts
the input directory off the path without looking whether it is there, and `substr`
throws on a path too short for that.
-/

/-- The file is accepted up to its url, and its path is shorter than the input directory's. -/
def Throws (fs : FileSystem) (path : Str) : Prop :=
  (∃ file title, fs path = some file ∧ TitleText file title) ∧ path.length < gInputPath.length

theorem parseFile_of_throws {fs : FileSystem} {path : Str} (h : Throws fs path)
    (docInfo : DocInfo) : parseFile fs path docInfo = .error .outOfRange := by
  obtain ⟨⟨file, title, hfile, htitle⟩, hlen⟩ := h
  rw [parseFile_of_title hfile htitle, if_neg (Nat.not_le.mpr hlen)]

theorem parseFile_of_not_throws {fs : FileSystem} {path : Str} (h : ¬ Throws fs path)
    (docInfo : DocInfo) : ∃ ret doc, parseFile fs path docInfo = .ok (ret, doc) := by
  cases hfile : fs path with
  | none => exact ⟨_, _, parseFile_of_closed hfile docInfo⟩
  | some file =>
      by_cases htitle : ∃ title, TitleText file title
      · obtain ⟨title, htitle⟩ := htitle
        have hlen : gInputPath.length ≤ path.length := by
          by_contra hshort
          exact h ⟨⟨file, title, hfile, htitle⟩, Nat.not_le.mp hshort⟩
        rw [parseFile_of_title hfile htitle, if_pos hlen]
        exact ⟨_, _, rfl⟩
      · exact ⟨_, _, parseFile_of_forall_not hfile (not_exists.mp htitle) docInfo⟩

theorem mainStep_of_throws {fs : FileSystem} {path : Str} (h : Throws fs path) (out : Str) :
    mainStep fs out path = .error .outOfRange := by
  unfold mainStep
  rw [parseFile_of_throws h]
  rfl

/-- An iteration that throws is one that `substr` throws in. -/
theorem throws_of_mainStep {fs : FileSystem} {path out : Str} {fault : Fault}
    (h : mainStep fs out path = .error fault) : fault = .outOfRange ∧ Throws fs path := by
  by_cases hthrows : Throws fs path
  · rw [mainStep_of_throws hthrows] at h
    exact ⟨(Except.error.inj h).symm, hthrows⟩
  · obtain ⟨ret, doc, hparse⟩ := parseFile_of_not_throws hthrows {}
    unfold mainStep at h
    rw [hparse] at h
    cases ret with
    | false => simp [bind, Except.bind, pure, Except.pure] at h
    | true => simp [bind, Except.bind, pure, Except.pure] at h

theorem mainLoop_error_iff {fs : FileSystem} {fileList : List Str} {fault : Fault} :
    mainLoop fs fileList = .error fault ↔
      fault = .outOfRange ∧ ∃ path ∈ fileList, Throws fs path := by
  have honly : ∀ {fault}, mainLoop fs fileList = .error fault →
      fault = .outOfRange ∧ ∃ path ∈ fileList, Throws fs path := by
    intro fault h
    obtain ⟨before, path, after, out, rfl, -, hstep⟩ := Lib.foldlM_eq_error_iff.mp h
    obtain ⟨hfault, hthrows⟩ := throws_of_mainStep hstep
    exact ⟨hfault, path, by simp, hthrows⟩
  refine ⟨honly, ?_⟩
  rintro ⟨rfl, path, hpath, hthrows⟩
  cases hloop : mainLoop fs fileList with
  | error fault => rw [(honly hloop).1]
  | ok out =>
      obtain ⟨out', out'', hstep⟩ := Lib.exists_ok_of_foldlM_eq_ok hloop path hpath
      rw [mainStep_of_throws hthrows] at hstep
      simp at hstep

/--
**How the preprocessor can die.**  It throws exactly what a call into the file system
throws while the directory is listed, or else `out_of_range`, and that exactly when it
gets to write at all and some listed page that opens and has a title has a path shorter
than the input directory's.
-/
theorem main_error_iff (disk : Disk) (fault : Fault) :
    main disk = .error fault ↔ ListingThrows disk fault ∨
      fault = .outOfRange ∧ ∃ entries, Listed disk entries ∧
        disk.writable gOutputPath = true ∧ ∃ path ∈ pages entries, Throws disk.files path := by
  -- the output itself is no page with a short path
  have hopened : ∀ path, Throws (Function.update disk.files gOutputPath (some [])) path ↔
      Throws disk.files path := by
    intro path
    unfold Throws
    refine and_congr_left fun hshort => ?_
    rw [Function.update_of_ne]
    intro heq
    rw [heq] at hshort
    exact absurd hshort (by decide)
  rcases listing_cases disk with ⟨fault', hthrows⟩ | hmissing | ⟨entries, hlisted⟩
  · rw [main_of_throws hthrows, Except.error.injEq]
    refine ⟨fun heq => Or.inl (heq ▸ hthrows), ?_⟩
    rintro (hthrows' | ⟨-, entries, hlisted, -⟩)
    · exact Except.error.inj ((main_of_throws hthrows).symm.trans (main_of_throws hthrows'))
    · exact absurd hthrows (hlisted.not_throws fault')
  · have henum := enumFile_of_missing hmissing
    rw [main_of_missing hmissing]
    refine ⟨fun hc => by simp at hc, ?_⟩
    rintro (hthrows | ⟨-, entries, hlisted, -⟩)
    · simp [enumFile_of_throws hthrows] at henum
    · simp [enumFile_of_listed hlisted] at henum
  · simp only [hlisted.not_throws fault, false_or, hlisted.iff_eq, exists_eq_left]
    rw [main_of_listed hlisted]
    by_cases hwritable : disk.writable gOutputPath = false
    · simp [hwritable]
    · have hloop := @mainLoop_error_iff (Function.update disk.files gOutputPath (some []))
        (pages entries) fault
      simp only [hopened] at hloop
      have htrue : disk.writable gOutputPath = true := by simpa using hwritable
      simp only [htrue, true_and, Bool.true_eq_false, if_false]
      rw [← hloop]
      cases mainLoop (Function.update disk.files gOutputPath (some [])) (pages entries) with
      | error fault' => simp [Except.map]
      | ok out => simp [Except.map]

/-! ### What a page contributes -/

/-- The documents the indexer gets out of a page's record. -/
def contribution (fs : FileSystem) (path : Str) : Corpus :=
  (acceptedDoc fs path).toList.flatMap fun docInfo => ofFile (record docInfo)

theorem ofFile_flatMap_record (docs : Corpus) :
    ofFile (docs.flatMap record) = docs.flatMap fun docInfo => ofFile (record docInfo) := by
  unfold ofFile
  induction docs with
  | nil => rfl
  | cons docInfo rest ih =>
      have hterminated : Lib.Terminated newline (record docInfo) :=
        Or.inr ⟨joined docInfo, rfl⟩
      rw [List.flatMap_cons, Lib.lines_append _ hterminated, List.filterMap_append, ih,
        List.flatMap_cons]

/-- **The records of a directory are read back page by page**: no page can spoil another's. -/
theorem ofFile_accepted (fs : FileSystem) (fileList : List Str) :
    ofFile ((accepted fs fileList).flatMap record) = fileList.flatMap (contribution fs) := by
  rw [ofFile_flatMap_record]
  unfold accepted contribution
  induction fileList with
  | nil => rfl
  | cons path rest ih =>
      rw [List.filterMap_cons, List.flatMap_cons, ← ih]
      cases acceptedDoc fs path with
      | none => simp
      | some docInfo => simp

/-- A page is read back as it was parsed when its record has no framing byte in a field. -/
theorem contribution_eq_iff {fs : FileSystem} {path : Str} (hpath : gInputPath <+: path) :
    contribution fs path = (acceptedDoc fs path).toList ↔ Framed fs path := by
  rw [← free_acceptedDoc_iff hpath]
  unfold contribution
  cases acceptedDoc fs path with
  | none => simp
  | some docInfo =>
      have h := ofFile_records_eq_iff [docInfo]
      simp only [List.flatMap_cons, List.flatMap_nil, List.append_nil, List.mem_singleton,
        forall_eq] at h
      simp only [Option.toList_some, List.flatMap_cons, List.flatMap_nil, List.append_nil,
        Option.some.injEq, forall_eq']
      exact h

/-- What an accepted page was. -/
theorem acceptedDoc_eq_some {fs : FileSystem} {path : Str} {docInfo : DocInfo}
    (hpath : gInputPath <+: path) (h : acceptedDoc fs path = some docInfo) :
    ∃ file, fs path = some file ∧ TitleText file docInfo.title ∧
      docInfo.url = gUrlHead ++ path.drop gInputPath.length ∧
      docInfo.content = (parseContent (Lib.terminate newline file) []).2 := by
  unfold acceptedDoc at h
  rcases parseFile_cases hpath with ⟨file, title, hfile, htitle, hparse⟩ | ⟨-, hparse⟩
  · rw [hparse] at h
    obtain rfl : parsed path file title = docInfo := Option.some.inj h
    exact ⟨file, hfile, htitle, rfl, rfl⟩
  · rw [hparse] at h
    simp at h

/-- The same disk with that entry alone in the directory. -/
def Disk.only (disk : Disk) (entry : DirEntry) : Disk :=
  { disk with walk := fun _ => ⟨[entry], none⟩ }

theorem Ready.only {disk : Disk} {entries : List DirEntry} (h : Ready disk entries)
    {entry : DirEntry} (hentry : entry ∈ entries) : Ready (disk.only entry) [entry] :=
  ⟨⟨h.found, rfl, List.forall_mem_singleton.mpr (h.kinds entry hentry)⟩,
    List.forall_mem_singleton.mpr (h.below entry hentry), h.writable⟩

/--
**Pages can be indexed one by one.**  Run on each entry of a directory by itself, the
preprocessor writes files that together are the one it writes for the whole directory,
and reading them in one after the other gives the index of that one, whatever is in the
pages and in whatever order the hash maps are walked.
-/
theorem main_pagewise (cut : Str → List Str) (order order' : Int → Lib.Enumeration Str WordCnt)
    {disk : Disk} {entries : List DirEntry} (h : Ready disk entries) :
    ∃ (files : FileSystem) (raws : List Str), main disk = .ok (0, files) ∧
      files gOutputPath = some raws.flatten ∧
      List.Forall₂ (fun entry raw => ∃ files', main (disk.only entry) = .ok (0, files') ∧
        files' gOutputPath = some raw) entries raws ∧
      (Index.build cut order Index.empty (some raws.flatten)).2
        = Index.run cut order' (raws.map some) := by
  have hraws : (accepted disk.files (pages entries)).flatMap record
      = (entries.map fun entry =>
          (accepted disk.files (pages [entry])).flatMap record).flatten := by
    rw [pages_eq_flatMap, ← List.flatMap_def]
    unfold accepted
    rw [List.filterMap_flatMap, List.flatMap_assoc]
  refine ⟨_, entries.map fun entry => (accepted disk.files (pages [entry])).flatMap record,
    main_eq h, ?_, ?_, ?_⟩
  · rw [Function.update_self, hraws]
  · refine List.forall₂_map_right_iff.mpr (List.forall₂_same.mpr fun entry hentry => ?_)
    exact ⟨_, main_eq (h.only hentry), Function.update_self _ _ _⟩
  · have hdocs : ofFiles ((entries.map fun entry =>
        (accepted disk.files (pages [entry])).flatMap record).map some)
        = ofFile ((accepted disk.files (pages entries)).flatMap record) := by
      unfold ofFiles
      rw [ofFile_accepted, pages_eq_flatMap, List.flatMap_assoc, List.map_map, List.flatMap_map]
      refine List.flatMap_congr fun entry _ => ?_
      exact ofFile_accepted disk.files (pages [entry])
    have hbuild := Index.build_extends cut order Index.empty
      ((accepted disk.files (pages entries)).flatMap record)
    have hrun := Index.run_extends cut order' ((entries.map fun entry =>
      (accepted disk.files (pages [entry])).flatMap record).map some)
    rw [hdocs] at hrun
    rw [← hraws]
    exact hbuild.unique hrun

/-! A disk to try this on: two pages, of which the directory lists what it is said to. -/

/-- `b.html` in the input directory. -/
def pageB : Str := gInputPath ++ bytes ['b', '.', 'h', 't', 'm', 'l']

theorem pageB_below : gInputPath <+: pageB := List.prefix_append _ _

/-- What the directory iterator says of the two. -/
def entryA : DirEntry := ⟨pageA, .ok true, bytes ['.', 'h', 't', 'm', 'l']⟩

def entryB : DirEntry := ⟨pageB, .ok true, bytes ['.', 'h', 't', 'm', 'l']⟩

def htmlA : Str := titleOpen ++ bytes ['A'] ++ titleClose

def htmlB : Str := titleOpen ++ bytes ['B', ' ', 'a'] ++ titleClose

def shelf (entries : List DirEntry) : Disk where
  files path := if path = pageA then some htmlA else if path = pageB then some htmlB else none
  pathExists _ := .ok true
  walk _ := ⟨entries, none⟩
  writable _ := true

theorem ready_shelf {entries : List DirEntry}
    (h : ∀ entry ∈ entries, entry = entryA ∨ entry = entryB) : Ready (shelf entries) entries := by
  refine ⟨⟨rfl, rfl, fun entry hentry => ?_⟩, fun entry hentry => ?_, rfl⟩
  · rcases h entry hentry with rfl | rfl
    · exact ⟨true, rfl⟩
    · exact ⟨true, rfl⟩
  · rcases h entry hentry with rfl | rfl
    · exact pageA_below
    · exact pageB_below

theorem ready_onePage : Ready (shelf [entryA]) [entryA] := ready_shelf (by simp)

theorem ready_twoPages : Ready (shelf [entryA, entryB]) [entryA, entryB] := ready_shelf (by simp)

/-- The record of the second page; that of the first is `HttpServer.docA`. -/
def docB : DocInfo :=
  ⟨bytes ['B', ' ', 'a'], gUrlHead ++ bytes ['b', '.', 'h', 't', 'm', 'l'],
    bytes ['B', ' ', 'a', ' ']⟩

theorem acceptedDoc_pageA (entries : List DirEntry) :
    acceptedDoc (shelf entries).files pageA = some HttpServer.docA := by
  have hfile : (shelf entries).files pageA = some htmlA := by simp [shelf]
  have htitle : TitleText htmlA (bytes ['A']) :=
    titleText_iff_find.mpr ⟨0, 8, by decide, by decide, by decide, by decide⟩
  have hparsed : parsed pageA htmlA (bytes ['A']) = HttpServer.docA := by decide
  unfold acceptedDoc
  rw [parseFile_of_titleText pageA_below hfile htitle, hparsed]

theorem acceptedDoc_pageB (entries : List DirEntry) :
    acceptedDoc (shelf entries).files pageB = some docB := by
  have hfile : (shelf entries).files pageB = some htmlB := by
    have hne : pageB ≠ pageA := by decide
    simp [shelf, hne]
  have htitle : TitleText htmlB (bytes ['B', ' ', 'a']) :=
    titleText_iff_find.mpr ⟨0, 10, by decide, by decide, by decide, by decide⟩
  have hparsed : parsed pageB htmlB (bytes ['B', ' ', 'a']) = docB := by decide
  unfold acceptedDoc
  rw [parseFile_of_titleText pageB_below hfile htitle, hparsed]

theorem contribution_pageA (entries : List DirEntry) :
    contribution (shelf entries).files pageA = [HttpServer.docA] := by
  unfold contribution
  rw [acceptedDoc_pageA]
  decide

theorem contribution_pageB (entries : List DirEntry) :
    contribution (shelf entries).files pageB = [docB] := by
  unfold contribution
  rw [acceptedDoc_pageB]
  decide

theorem framed_onePage : ∀ path ∈ pages [entryA], Framed (shelf [entryA]).files path := by
  intro path hpath
  obtain rfl : path = pageA := List.mem_singleton.mp hpath
  rw [← contribution_eq_iff pageA_below, contribution_pageA, acceptedDoc_pageA]
  rfl

theorem pages_twoPages : pages [entryA, entryB] = [pageA, pageB] := by decide

/-- Each of the two pages is indexed by itself, and the index is that of both. -/
theorem main_pagewise_twoPages :
    ∃ raws : List Str,
      List.Forall₂ (fun entry raw => ∃ files',
          main ((shelf [entryA, entryB]).only entry) = .ok (0, files') ∧
          files' gOutputPath = some raw) [entryA, entryB] raws ∧
      (Index.build wordsAndSpaces byteOrder Index.empty (some raws.flatten)).2
        = Index.run wordsAndSpaces byteOrder (raws.map some) ∧
      (Index.run wordsAndSpaces byteOrder (raws.map some)).forwardIndex.length = 2 := by
  obtain ⟨files, raws, hmain, hraw, heach, hindex⟩ :=
    main_pagewise wordsAndSpaces byteOrder byteOrder ready_twoPages
  refine ⟨raws, heach, hindex, ?_⟩
  have hfiles := (Prod.mk.inj (Except.ok.inj (hmain.symm.trans (main_eq ready_twoPages)))).2
  have hflat : raws.flatten
      = (accepted (shelf [entryA, entryB]).files (pages [entryA, entryB])).flatMap record := by
    rw [hfiles, Function.update_self] at hraw
    exact (Option.some.inj hraw).symm
  rw [← hindex, hflat, (Index.build_extends _ _ _ _).length_forward, ofFile_accepted,
    pages_twoPages, List.flatMap_cons, List.flatMap_singleton, contribution_pageA,
    contribution_pageB]
  rfl

/-- The link of a page leads to that page only. -/
theorem url_inj {path path' : Str} (hpath : gInputPath <+: path) (hpath' : gInputPath <+: path')
    (h : gUrlHead ++ path'.drop gInputPath.length = gUrlHead ++ path.drop gInputPath.length) :
    path' = path := by
  obtain ⟨tail, rfl⟩ := hpath
  obtain ⟨tail', rfl⟩ := hpath'
  rw [List.append_cancel_left_eq, List.drop_left, List.drop_left] at h
  rw [h]

end Parser

/-! ### What a query finds, in documents and words -/

namespace Corpus

variable (cut : Str → List Str)

/-- For each word of the query, the documents that mention it. -/
def found (docs : Corpus) (query : Str) : List (Parser.DocInfo × Str) :=
  (terms cut query).flatMap fun word =>
    docs.filterMap fun doc => if Mentions cut doc word then some (doc, word) else none

/-- The document a posting names, and the word it is under. -/
def pairOf (docs : Corpus) (p : Weight) : Parser.DocInfo × Str :=
  ((docs[p.docId.toNat]?).getD {}, p.word)

theorem pairOf_of_getElem? {docs : Corpus} {p : Weight} {i : Nat} {doc : Parser.DocInfo}
    (hdoc : docs[i]? = some doc) (hid : p.docId = i) : pairOf docs p = (doc, p.word) := by
  unfold pairOf
  rw [hid, Int.toNat_natCast, hdoc, Option.getD_some]

theorem map_pairOf_answer (docs : Corpus) (query : Str) :
    (answer cut docs query).map (pairOf docs) = found cut docs query := by
  unfold answer found
  rw [List.map_flatMap]
  refine List.flatMap_congr fun word _ => Lib.map_postings _ _ _ fun i doc hdoc => ?_
  unfold entry
  by_cases hmentions : Mentions cut doc word
  · rw [if_pos hmentions, if_pos hmentions, Option.map_some, Nat.zero_add,
      pairOf_of_getElem? hdoc rfl]
  · rw [if_neg hmentions, if_neg hmentions, Option.map_none]

/-- Reordering the documents reorders what is found. -/
theorem found_perm {docs docs' : Corpus} (h : docs.Perm docs') (query : Str) :
    (found cut docs query).Perm (found cut docs' query) := by
  unfold found
  exact List.Perm.flatMap_left _ fun word _ => h.filterMap _

theorem mem_found {docs : Corpus} {query : Str} {hit : Parser.DocInfo × Str}
    (h : hit ∈ found cut docs query) :
    hit.1 ∈ docs ∧ hit.2 ∈ terms cut query ∧ Mentions cut hit.1 hit.2 := by
  obtain ⟨word, hword, hmem⟩ := List.mem_flatMap.mp h
  obtain ⟨doc, hdoc, hhit⟩ := List.mem_filterMap.mp hmem
  by_cases hmentions : Mentions cut doc word
  · rw [if_pos hmentions, Option.some.injEq] at hhit
    rw [← hhit]
    exact ⟨hdoc, hword, hmentions⟩
  · rw [if_neg hmentions] at hhit
    simp at hhit

end Corpus

namespace Searcher

variable (cut : Str → List Str) (sort : Lib.SortRoutine heavier)

/-- The result shown for a document found by a word. -/
def display (hit : Parser.DocInfo × Str) : SearchResult :=
  ⟨hit.1.title, hit.1.url, snippet hit.1.content hit.2⟩

/-- The best hits come first. -/
def Ranked (hits : List (Parser.DocInfo × Str)) : Prop :=
  hits.Pairwise fun hit hit' => score cut hit'.1 hit'.2 ≤ score cut hit.1 hit.2

/-- **The results show what the query finds, the best first.** -/
theorem results_found {docs : Corpus} {idx : Index} (h : Index.Extends cut Index.empty docs idx)
    (query : Str) :
    ∃ hits, results cut sort idx query = .ok (hits.map display) ∧
      hits.Perm (found cut docs query) ∧
      ((∀ doc ∈ docs, 10 * (cut doc.title).length + (cut doc.content).length < 2 ^ 31) →
        Ranked cut hits) := by
  have hpairs : ∀ p ∈ ranked cut sort idx query, ∃ doc ∈ docs, pairOf docs p = (doc, p.word) ∧
      p.weight = int32 (score cut doc p.word) ∧ shown docs p = display (doc, p.word) := by
    intro p hp
    obtain ⟨i, doc, hdoc, -, hid, hweight, -⟩ := getDocInfo_of_mem_ranked h sort hp
    exact ⟨doc, List.mem_of_getElem? hdoc, pairOf_of_getElem? hdoc hid, hweight,
      shown_of_getElem? hdoc hid⟩
  refine ⟨(ranked cut sort idx query).map (pairOf docs), ?_, ?_, fun hbound => ?_⟩
  · rw [results_eq h, List.map_map]
    refine congrArg Except.ok (List.map_congr_left fun p hp => ?_)
    obtain ⟨doc, -, hpair, -, hshown⟩ := hpairs p hp
    rw [Function.comp_apply, hpair, hshown]
  · rw [← map_pairOf_answer]
    exact (ranked_perm h sort query).map _
  · refine List.pairwise_map.mpr (List.Pairwise.imp_of_mem ?_ (sort.ordered _))
    intro p q hp hq hpq
    obtain ⟨doc, hdoc, hpair, hweight, -⟩ := hpairs p hp
    obtain ⟨doc', hdoc', hpair', hweight', -⟩ := hpairs q hq
    have hle : q.weight ≤ p.weight := by
      simpa [heavier, Lib.SortRoutine.descending] using hpq
    rw [hweight, hweight', int32_score cut (hbound _ hdoc), int32_score cut (hbound _ hdoc')] at hle
    rw [hpair, hpair']
    exact Int.ofNat_le.mp hle

/-- A snippet has no bytes but those of the content and dots. -/
theorem mem_snippet {content word : Str} {b : UInt8} (h : b ∈ snippet content word) :
    b ∈ content ∨ b = dot := by
  unfold snippet dotted at h
  by_cases hmarked : marked content word = true
  · rw [if_pos hmarked] at h
    rcases List.mem_append.mp h with hbody | hdots
    · exact Or.inl (List.mem_of_mem_drop (List.mem_of_mem_take hbody))
    · exact Or.inr (by simpa using hdots)
  · rw [if_neg hmarked] at h
    exact Or.inl (List.mem_of_mem_drop h)

end Searcher

/-! ### Both programs -/

namespace HttpServer

variable (cut : Str → List Str) (sort : Lib.SortRoutine heavier) (write : List SearchResult → Str)
  (order : Int → Lib.Enumeration Str WordCnt)

/-- After the preprocessor, the server starts, on the index of the pages' contributions. -/
theorem main_after {disk : Parser.Disk} {entries : List Parser.DirEntry}
    (h : Parser.Ready disk entries) :
    ∃ files server, Parser.main disk = .ok (0, files) ∧ main cut order files = some server ∧
      Index.Extends cut Index.empty
        ((Parser.pages entries).flatMap (Parser.contribution disk.files)) server.index := by
  have hbuild := Index.build_extends cut order Index.empty
    ((Parser.accepted disk.files (Parser.pages entries)).flatMap Parser.record)
  rw [Parser.ofFile_accepted] at hbuild
  refine ⟨_, ⟨_, []⟩, Parser.main_eq h, ?_, hbuild⟩
  unfold main Searcher.init
  rw [show rawInputPath = Parser.gOutputPath from rfl, Function.update_self]
  rfl

/-- The same of whatever the two programs have come to. -/
theorem index_after {disk : Parser.Disk} {entries : List Parser.DirEntry}
    (h : Parser.Ready disk entries) {files : FileSystem} {server : Server}
    (hparser : Parser.main disk = .ok (0, files)) (hserver : main cut order files = some server) :
    Index.Extends cut Index.empty
      ((Parser.pages entries).flatMap (Parser.contribution disk.files)) server.index := by
  obtain ⟨files', server', hparser', hserver', hindex⟩ := main_after cut order h
  obtain rfl : files = files' := (Prod.mk.inj (Except.ok.inj (hparser.symm.trans hparser'))).2
  obtain rfl : server = server' := Option.some.inj (hserver.symm.trans hserver')
  exact hindex

/--
**From a directory to an answer.**  If the directory can be listed and the output
written, the preprocessor succeeds, the server then starts, and it replies to a query
with what the indexer has read of the pages that mention one of its words, once per
word, the best first.  Of a page without framing bytes in its title, path or text that
is the page as it was parsed, whatever the other pages are like.
-/
theorem pipeline_search {disk : Parser.Disk} {entries : List Parser.DirEntry}
    (h : Parser.Ready disk entries) :
    (∀ path ∈ Parser.pages entries, Parser.Framed disk.files path →
      Parser.contribution disk.files path = (Parser.acceptedDoc disk.files path).toList) ∧
    ∃ files server, Parser.main disk = .ok (0, files) ∧ main cut order files = some server ∧
      ∀ req, req.hasParam queryKey = true →
        ∃ hits, handler cut sort write server.index req
            = .ok ⟨write (hits.map Searcher.display), applicationJson⟩ ∧
          hits.Perm (found cut ((Parser.pages entries).flatMap (Parser.contribution disk.files))
            (req.getParamValue queryKey)) ∧
          ((∀ doc ∈ (Parser.pages entries).flatMap (Parser.contribution disk.files),
              10 * (cut doc.title).length + (cut doc.content).length < 2 ^ 31) →
            Searcher.Ranked cut hits) := by
  refine ⟨fun path hpath hframed =>
    (Parser.contribution_eq_iff (h.pages_below path hpath)).mpr hframed, ?_⟩
  obtain ⟨files, server, hparser, hserver, hindex⟩ := main_after cut order h
  refine ⟨files, server, hparser, hserver, fun req hparam => ?_⟩
  obtain ⟨hits, hresults, hperm, hranked⟩ :=
    Searcher.results_found cut sort hindex (req.getParamValue queryKey)
  exact ⟨hits, handler_of_results cut sort write hparam hresults, hperm, hranked⟩

theorem contribution_twoPages :
    (Parser.pages [Parser.entryA, Parser.entryB]).flatMap
      (Parser.contribution (Parser.shelf [Parser.entryA, Parser.entryB]).files)
      = [docA, Parser.docB] := by
  rw [Parser.pages_twoPages, List.flatMap_cons, List.flatMap_singleton, Parser.contribution_pageA,
    Parser.contribution_pageB]
  rfl

/-- Both pages have the word `a` and are found by it. -/
theorem pipeline_search_twoPages :
    ∃ (files : FileSystem) (server : Server) (hits : List (Parser.DocInfo × Str)),
      Parser.main (Parser.shelf [Parser.entryA, Parser.entryB]) = .ok (0, files) ∧
      main wordsAndSpaces byteOrder files = some server ∧
      handler wordsAndSpaces insertionSort writeTitles server.index (asking (bytes ['a']))
        = .ok ⟨writeTitles (hits.map Searcher.display), applicationJson⟩ ∧
      hits.Perm [(docA, bytes ['a']), (Parser.docB, bytes ['a'])] := by
  obtain ⟨-, files, server, hparser, hserver, hreply⟩ := pipeline_search wordsAndSpaces
    insertionSort writeTitles byteOrder Parser.ready_twoPages
  obtain ⟨hits, hhandler, hperm, -⟩ := hreply (asking (bytes ['a'])) rfl
  refine ⟨files, server, hits, hparser, hserver, hhandler, ?_⟩
  have hfound : found wordsAndSpaces [docA, Parser.docB] (bytes ['a'])
      = [(docA, bytes ['a']), (Parser.docB, bytes ['a'])] := by decide
  rw [contribution_twoPages] at hperm
  exact hfound ▸ hperm

/--
**Neither the order of the directory nor the rest of the disk shows.**  Two directories
with the same pages, in whatever order and among whatever else, make servers that give
the same results up to their order, whatever the order in which they walk their hash
maps and whichever sort they use.
-/
theorem pipeline_order (order' : Int → Lib.Enumeration Str WordCnt)
    (sort' : Lib.SortRoutine heavier) {disk disk' : Parser.Disk}
    {entries entries' : List Parser.DirEntry} (h : Parser.Ready disk entries)
    (h' : Parser.Ready disk' entries')
    (hpages : (Parser.pages entries).Perm (Parser.pages entries'))
    (hfiles : ∀ path ∈ Parser.pages entries, disk.files path = disk'.files path)
    {files files' : FileSystem} {server server' : Server}
    (hparser : Parser.main disk = .ok (0, files))
    (hparser' : Parser.main disk' = .ok (0, files'))
    (hserver : main cut order files = some server)
    (hserver' : main cut order' files' = some server') (query : Str) :
    ∃ items items', Searcher.results cut sort server.index query = .ok items ∧
      Searcher.results cut sort' server'.index query = .ok items' ∧ items.Perm items' := by
  obtain ⟨hits, hresults, hperm, -⟩ :=
    Searcher.results_found cut sort (index_after cut order h hparser hserver) query
  obtain ⟨hits', hresults', hperm', -⟩ :=
    Searcher.results_found cut sort' (index_after cut order' h' hparser' hserver') query
  have hdocs : ((Parser.pages entries).flatMap (Parser.contribution disk.files)).Perm
      ((Parser.pages entries').flatMap (Parser.contribution disk'.files)) := by
    have hsame : (Parser.pages entries).flatMap (Parser.contribution disk.files)
        = (Parser.pages entries).flatMap (Parser.contribution disk'.files) := by
      refine List.flatMap_congr fun path hpath => ?_
      unfold Parser.contribution
      rw [Parser.acceptedDoc_congr (hfiles path hpath)]
    rw [hsame]
    exact hpages.flatMap_right _
  have hhits := hperm.trans ((found_perm cut hdocs query).trans hperm'.symm)
  exact ⟨_, _, hresults, hresults', hhits.map _⟩

/-- The two pages listed the other way round. -/
theorem pipeline_order_swapped :
    ∃ files files' server server' items items',
      Parser.main (Parser.shelf [Parser.entryA, Parser.entryB]) = .ok (0, files) ∧
      Parser.main (Parser.shelf [Parser.entryB, Parser.entryA]) = .ok (0, files') ∧
      main wordsAndSpaces byteOrder files = some server ∧
      main wordsAndSpaces byteOrder files' = some server' ∧
      Searcher.results wordsAndSpaces insertionSort server.index (bytes ['a']) = .ok items ∧
      Searcher.results wordsAndSpaces insertionSort server'.index (bytes ['a']) = .ok items' ∧
      items.length = 2 ∧ items.Perm items' := by
  have h := Parser.ready_twoPages
  have h' : Parser.Ready (Parser.shelf [Parser.entryB, Parser.entryA])
      [Parser.entryB, Parser.entryA] := Parser.ready_shelf (by simp)
  obtain ⟨files, server, hparser, hserver, hindex⟩ := main_after wordsAndSpaces byteOrder h
  obtain ⟨files', server', hparser', hserver', -⟩ := main_after wordsAndSpaces byteOrder h'
  have hpages : (Parser.pages [Parser.entryA, Parser.entryB]).Perm
      (Parser.pages [Parser.entryB, Parser.entryA]) := List.Perm.swap _ _ _
  obtain ⟨items, items', hresults, hresults', hperm⟩ := pipeline_order wordsAndSpaces insertionSort
    byteOrder byteOrder insertionSort h h' hpages (fun path _ => rfl) hparser hparser' hserver
    hserver' (bytes ['a'])
  refine ⟨files, files', server, server', items, items', hparser, hparser', hserver, hserver',
    hresults, hresults', ?_, hperm⟩
  obtain ⟨hits, hhits, hfound, -⟩ :=
    Searcher.results_found wordsAndSpaces insertionSort hindex (bytes ['a'])
  have hlength : (found wordsAndSpaces [docA, Parser.docB] (bytes ['a'])).length = 2 := by decide
  rw [contribution_twoPages] at hfound
  rw [Except.ok.inj (hresults.symm.trans hhits), List.length_map, hfound.length_eq, hlength]

/--
**Every result leads back to its page.**  On a directory whose pages have no framing
bytes, a result carries the title of a listed page and a link that no other path has,
and its snippet has at most 160 bytes, none of them a newline or a `<`.
-/
theorem pipeline_links {disk : Parser.Disk} {entries : List Parser.DirEntry}
    (h : Parser.Ready disk entries)
    (hframed : ∀ path ∈ Parser.pages entries, Parser.Framed disk.files path)
    {files : FileSystem} {server : Server} (hparser : Parser.main disk = .ok (0, files))
    (hserver : main cut order files = some server) {query : Str} {items : List SearchResult}
    (hitems : Searcher.results cut sort server.index query = .ok items) :
    ∀ item ∈ items, ∃ path ∈ Parser.pages entries, ∃ file, disk.files path = some file ∧
      Parser.TitleText file item.title ∧
      (∀ path', Parser.gInputPath <+: path' →
        (item.url = Parser.gUrlHead ++ path'.drop Parser.gInputPath.length ↔ path' = path)) ∧
      item.desc.length ≤ 160 ∧ newline ∉ item.desc ∧ Parser.tagOpen ∉ item.desc := by
  obtain ⟨hits, hresults, hperm, -⟩ :=
    Searcher.results_found cut sort (index_after cut order h hparser hserver) query
  obtain rfl : items = hits.map Searcher.display :=
    Except.ok.inj (hitems.symm.trans hresults)
  intro item hitem
  obtain ⟨⟨doc, word⟩, hhit, rfl⟩ := List.mem_map.mp hitem
  obtain ⟨hdoc, -, -⟩ := mem_found cut (hperm.mem_iff.mp hhit)
  obtain ⟨path, hpath, hcontribution⟩ := List.mem_flatMap.mp hdoc
  have hbelow := h.pages_below path hpath
  rw [(Parser.contribution_eq_iff hbelow).mpr (hframed path hpath),
    Option.mem_toList] at hcontribution
  obtain ⟨file, hfile, htitle, hurl, hcontent⟩ := Parser.acceptedDoc_eq_some hbelow hcontribution
  have hbyte : ∀ b, b ≠ dot → b ∉ doc.content → b ∉ Searcher.snippet doc.content word := by
    intro b hdot hnot hmem
    rcases Searcher.mem_snippet hmem with hin | heq
    · exact hnot hin
    · exact hdot heq
  refine ⟨path, hpath, file, hfile, htitle, fun path' hbelow' => ⟨fun heq => ?_, fun heq => ?_⟩,
    (Searcher.snippet_bytes _ _).2.1, hbyte _ (by decide) ?_, hbyte _ (by decide) ?_⟩
  · exact Parser.url_inj hbelow hbelow' (heq.symm.trans hurl)
  · rw [heq]
    exact hurl
  · rw [hcontent]
    exact Parser.newline_notMem_parseContent _
  · rw [hcontent]
    exact Parser.tagOpen_notMem_parseContent _

/-- The one page's result. -/
theorem pipeline_links_onePage :
    ∃ files server items, Parser.main (Parser.shelf [Parser.entryA]) = .ok (0, files) ∧
      main wordsAndSpaces byteOrder files = some server ∧
      Searcher.results wordsAndSpaces insertionSort server.index (bytes ['a']) = .ok items ∧
      ∀ item ∈ items, ∃ path ∈ Parser.pages [Parser.entryA], ∃ file,
        (Parser.shelf [Parser.entryA]).files path = some file ∧
        Parser.TitleText file item.title ∧ item.desc.length ≤ 160 := by
  have hready := Parser.ready_onePage
  obtain ⟨files, server, hparser, hserver, hindex⟩ := main_after wordsAndSpaces byteOrder hready
  have hresults := Searcher.results_eq hindex insertionSort (bytes ['a'])
  refine ⟨files, server, _, hparser, hserver, hresults, fun item hitem => ?_⟩
  obtain ⟨path, hpath, file, hfile, htitle, -, hlen, -, -⟩ := pipeline_links wordsAndSpaces
    insertionSort byteOrder hready Parser.framed_onePage hparser hserver hresults item hitem
  exact ⟨path, hpath, file, hfile, htitle, hlen⟩

end HttpServer

end DocSearcher
