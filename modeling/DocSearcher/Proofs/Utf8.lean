/-
UTF-8 through the preprocessor and the server.

No function of the program knows of encodings: all of them work byte by byte.  What
keeps characters whole all the same is that every byte they look for or write, the
delimiters of tags and titles, the newline, the separator, the space, the letters that
change case, is a character by itself.  So UTF-8 pages come out of the preprocessor as
UTF-8, are split into UTF-8 fields, and give UTF-8 titles, links and keys.  The one
place that counts bytes is `GenerateDesc`, and the only text that can come out broken
is a snippet.
-/
import DocSearcher.Proofs.Encoding
import DocSearcher.Proofs.Pipeline

namespace DocSearcher

open Corpus
open Searcher (WellFormed)

theorem wellFormed_single {b : UInt8} (hb : b < 128) : WellFormed [b] :=
  Searcher.wellFormed_replicate hb 1

/-! The bytes the program looks for and writes. -/

theorem wellFormed_newline : WellFormed [newline] := wellFormed_single (by decide)

theorem wellFormed_fieldSep : WellFormed [fieldSep] := wellFormed_single (by decide)

theorem wellFormed_space : WellFormed [Parser.space] := wellFormed_single (by decide)

theorem wellFormed_tagOpen : WellFormed [Parser.tagOpen] := wellFormed_single (by decide)

theorem wellFormed_tagClose : WellFormed [Parser.tagClose] := wellFormed_single (by decide)

theorem wellFormed_bytes {s : Str} (h : s.all (· < 128) = true) : WellFormed s := by
  apply Lib.utf8_valid_of_lt
  intro b hb
  exact of_decide_eq_true (List.all_eq_true.mp h b hb)

/-- `to_lower` changes ASCII letters only, and into ASCII letters. -/
theorem wellFormed_toLower {s : Str} (h : WellFormed s) : WellFormed (toLower s) := by
  refine Lib.SyncCode.Valid.map (fun c => ?_) h
  unfold toLowerByte
  by_cases hc : 65 ≤ c ∧ c ≤ 90
  · rw [if_pos hc]
    obtain ⟨hlo, hhi⟩ := hc
    rw [UInt8.le_iff_toNat_le] at hlo hhi
    refine Or.inr ⟨wellFormed_single ?_, wellFormed_single ?_⟩
    · rw [UInt8.lt_iff_toNat_lt]
      exact Nat.lt_of_le_of_lt hhi (by decide)
    · have hsum : (c + 32).toNat = c.toNat + 32 := by
        rw [UInt8.toNat_add]
        exact Nat.mod_eq_of_lt (Nat.lt_of_le_of_lt (Nat.add_le_add_right hhi _) (by decide))
      rw [UInt8.lt_iff_toNat_lt, hsum]
      exact Nat.lt_of_le_of_lt (Nat.add_le_add_right hhi _) (by decide)
  · rw [if_neg hc]
    exact Or.inl rfl

namespace Corpus

/-- All three fields are UTF-8. -/
def Text (doc : Parser.DocInfo) : Prop :=
  WellFormed doc.title ∧ WellFormed doc.url ∧ WellFormed doc.content

/-- A record is UTF-8 exactly when its fields are. -/
theorem wellFormed_joined_iff {doc : Parser.DocInfo} : WellFormed (joined doc) ↔ Text doc := by
  have hjoined : joined doc
      = doc.title ++ fieldSep :: (doc.url ++ fieldSep :: doc.content) := by
    simp [joined]
  unfold Text
  rw [hjoined]
  exact (Lib.SyncCode.valid_append_cons_iff wellFormed_fieldSep).trans
    (and_congr_right fun _ => Lib.SyncCode.valid_append_cons_iff wellFormed_fieldSep)

theorem wellFormed_record_iff {doc : Parser.DocInfo} :
    WellFormed (Parser.record doc) ↔ Text doc := by
  have hcut : WellFormed (joined doc ++ newline :: []) ↔ WellFormed (joined doc) ∧ WellFormed [] :=
    Lib.SyncCode.valid_append_cons_iff wellFormed_newline
  rw [← wellFormed_joined_iff]
  exact hcut.trans (and_iff_left Lib.SyncCode.valid_nil)

/-- **The fields read from UTF-8 are UTF-8**, whatever the lines look like. -/
theorem text_of_mem_ofFile {file : Str} (h : WellFormed file) : ∀ doc ∈ ofFile file, Text doc := by
  intro doc hdoc
  obtain ⟨line, hline, hdecode⟩ := List.mem_filterMap.mp hdoc
  obtain ⟨rfl, -⟩ := decode_eq_some_iff.mp hdecode
  exact wellFormed_joined_iff.mp
    (Lib.SyncCode.Valid.lines wellFormed_newline h _ hline)

/-- The words a UTF-8 document mentions are UTF-8, if the segmenter cuts between characters. -/
theorem wellFormed_of_mentions {cut : Str → List Str}
    (hcut : ∀ text, WellFormed text → ∀ token ∈ cut text, WellFormed token)
    {doc : Parser.DocInfo} (hdoc : Text doc) {word : Str} (h : Mentions cut doc word) :
    WellFormed word := by
  have hterms : ∀ {text}, WellFormed text → word ∈ terms cut text → WellFormed word := by
    intro text htext hword
    obtain ⟨token, htoken, rfl⟩ := List.mem_map.mp hword
    exact wellFormed_toLower (hcut text htext token htoken)
  rcases h with hword | hword
  · exact hterms hdoc.1 hword
  · exact hterms hdoc.2.2 hword

end Corpus

/-! ### The preprocessor -/

namespace Parser

theorem wellFormed_terminate {file : Str} (h : WellFormed file) :
    WellFormed (Lib.terminate newline file) := by
  rcases @Lib.terminate_eq_or _ _ newline file with heq | heq
  · rw [heq]
    exact h
  · rw [heq]
    exact h.append wellFormed_newline

/-- The title begins after a `>` and ends before a `<`. -/
theorem wellFormed_title {file title : Str} (h : WellFormed file) (htitle : TitleText file title) :
    WellFormed title := by
  obtain ⟨-, -, before, after, rfl, -⟩ := titleText_iff_append.mp htitle
  have hsplit : before ++ titleOpen ++ title ++ titleClose ++ after
      = (before ++ titleOpen.dropLast) ++ tagClose ::
          (title ++ tagOpen :: (titleClose.tail ++ after)) := by
    simp [titleOpen, titleClose, tagOpen, tagClose, bytes]
  rw [hsplit] at h
  have hrest := ((Lib.SyncCode.valid_append_cons_iff wellFormed_tagClose).mp h).2
  exact ((Lib.SyncCode.valid_append_cons_iff wellFormed_tagOpen).mp hrest).1

theorem wellFormed_parseContent {html : Str} (h : WellFormed html) :
    WellFormed (parseContent html []).2 := by
  obtain ⟨m, rfl⟩ := Lib.Markup.exists_render (o := tagOpen) (c := tagClose) html
  have houtside := Lib.SyncCode.Valid.outside wellFormed_tagOpen wellFormed_tagClose m h
  rw [parseContent_render, List.nil_append]
  refine Lib.SyncCode.Valid.map (fun c => ?_) houtside
  unfold flat
  by_cases hc : c = newline
  · rw [if_pos hc, hc]
    exact Or.inr ⟨wellFormed_newline, wellFormed_space⟩
  · rw [if_neg hc]
    exact Or.inl rfl

/-- What comes after the input directory comes after a `/`. -/
theorem wellFormed_drop_path {path : Str} (hpath : gInputPath <+: path) (h : WellFormed path) :
    WellFormed (path.drop gInputPath.length) := by
  obtain ⟨tail, rfl⟩ := hpath
  rw [List.drop_left]
  have hsplit : gInputPath ++ tail = gInputPath.dropLast ++ 47 :: tail := by
    simp [gInputPath, bytes]
  rw [hsplit] at h
  exact ((Lib.SyncCode.valid_append_cons_iff (wellFormed_single (by decide))).mp h).2

/-- **UTF-8 pages make UTF-8 records.** -/
theorem text_acceptedDoc {fs : FileSystem} {path : Str} {docInfo : DocInfo}
    (hbelow : gInputPath <+: path) (hpath : WellFormed path)
    (hfile : ∀ file, fs path = some file → WellFormed file)
    (h : acceptedDoc fs path = some docInfo) : Text docInfo := by
  obtain ⟨file, hopen, htitle, hurl, hcontent⟩ := acceptedDoc_eq_some hbelow h
  refine ⟨wellFormed_title (hfile file hopen) htitle, ?_, ?_⟩
  · rw [hurl]
    exact (wellFormed_bytes (by decide)).append (wellFormed_drop_path hbelow hpath)
  · rw [hcontent]
    exact wellFormed_parseContent (wellFormed_terminate (hfile file hopen))

theorem wellFormed_flatMap_record {docs : Corpus} (h : ∀ doc ∈ docs, Text doc) :
    WellFormed (docs.flatMap record) := by
  induction docs with
  | nil => exact Lib.SyncCode.valid_nil
  | cons doc rest ih =>
      rw [List.flatMap_cons]
      refine (wellFormed_record_iff.mpr (h doc (by simp))).append (ih fun doc' hdoc' => ?_)
      exact h doc' (by simp [hdoc'])

/-- The pages and their paths are UTF-8. -/
def TextPages (disk : Disk) (entries : List DirEntry) : Prop :=
  ∀ path ∈ pages entries, WellFormed path ∧ ∀ file, disk.files path = some file → WellFormed file

theorem Ready.text_accepted {disk : Disk} {entries : List DirEntry} (h : Ready disk entries)
    (htext : TextPages disk entries) : ∀ doc ∈ accepted disk.files (pages entries), Text doc := by
  intro doc hdoc
  obtain ⟨path, hpath, haccepted⟩ := List.mem_filterMap.mp hdoc
  exact text_acceptedDoc (h.pages_below path hpath) (htext path hpath).1 (htext path hpath).2
    haccepted

/-- Even a record that does not read back as written is read back as UTF-8. -/
theorem Ready.text_contribution {disk : Disk} {entries : List DirEntry} (h : Ready disk entries)
    (htext : TextPages disk entries) :
    ∀ doc ∈ (pages entries).flatMap (contribution disk.files), Text doc := by
  rw [← ofFile_accepted]
  exact text_of_mem_ofFile (wellFormed_flatMap_record (h.text_accepted htext))

end Parser

namespace Searcher

/-- A result of a UTF-8 document is UTF-8 but for its snippet. -/
theorem wellFormed_display_iff {hit : Parser.DocInfo × Str} (h : Text hit.1) :
    (WellFormed (display hit).title ∧ WellFormed (display hit).url ∧
      WellFormed (display hit).desc) ↔ CutsBetween hit.1.content hit.2 := by
  obtain ⟨htitle, hurl, hcontent⟩ := h
  rw [cutsBetween_iff hcontent, ← snippet_wellFormed_iff hcontent]
  exact ⟨fun hall => hall.2.2, fun hdesc => ⟨htitle, hurl, hdesc⟩⟩

end Searcher

/-! ### Both programs -/

namespace HttpServer

variable (cut : Str → List Str) (sort : Lib.SortRoutine heavier)
  (order : Int → Lib.Enumeration Str WordCnt)

/--
**UTF-8 stays UTF-8 up to the snippets.**  If the pages and their paths are UTF-8, so
are `raw_input.txt`, the titles and links of all documents found, and, with a segmenter
that does not cut characters, the keys of the index; the snippet shown of a document
found is UTF-8 exactly when its two cuts fall between characters.
-/
theorem pipeline_utf8 {disk : Parser.Disk} {entries : List Parser.DirEntry}
    (h : Parser.Ready disk entries) (htext : Parser.TextPages disk entries) :
    ∃ files raw server, Parser.main disk = .ok (0, files) ∧
      files rawInputPath = some raw ∧ WellFormed raw ∧ main cut order files = some server ∧
      (∀ query, ∃ hits : List (Parser.DocInfo × Str),
        Searcher.results cut sort server.index query = .ok (hits.map Searcher.display) ∧
        hits.Perm (found cut ((Parser.pages entries).flatMap (Parser.contribution disk.files))
          query) ∧
        ∀ hit ∈ hits, WellFormed hit.1.title ∧ WellFormed hit.1.url ∧
          (WellFormed (Searcher.display hit).desc ↔ Searcher.CutsBetween hit.1.content hit.2)) ∧
      ((∀ text, WellFormed text → ∀ token ∈ cut text, WellFormed token) →
        ∀ word list, server.index.getInvertedList word = some list → WellFormed word) := by
  have hraw := Parser.wellFormed_flatMap_record (h.text_accepted htext)
  have hdocs := h.text_contribution htext
  obtain ⟨files, server, hparser, hserver, hindex⟩ := main_after cut order h
  have hfiles : files rawInputPath = some ((Parser.accepted disk.files
      (Parser.pages entries)).flatMap Parser.record) := by
    obtain rfl := (Prod.mk.inj (Except.ok.inj (hparser.symm.trans (Parser.main_eq h)))).2
    exact Function.update_self _ _ _
  refine ⟨files, _, server, hparser, hfiles, hraw, hserver, fun query => ?_, ?_⟩
  · obtain ⟨hits, hresults, hperm, -⟩ := Searcher.results_found cut sort hindex query
    refine ⟨hits, hresults, hperm, fun hit hhit => ?_⟩
    obtain ⟨hdoc, -, -⟩ := mem_found cut (hperm.mem_iff.mp hhit)
    have hhit := hdocs hit.1 hdoc
    refine ⟨hhit.1, hhit.2.1, ?_⟩
    rw [← Searcher.wellFormed_display_iff hhit]
    exact ⟨fun hdesc => ⟨hhit.1, hhit.2.1, hdesc⟩, fun hall => hall.2.2⟩
  · intro hcut word list hlist
    obtain ⟨doc, hdoc, hmentions⟩ := hindex.key_iff.mp ⟨list, hlist⟩
    exact wellFormed_of_mentions hcut (hdocs doc hdoc) hmentions

/-! A page to try this on, with a character of three bytes where its snippet stops. -/

def htmlCut : Str :=
  Parser.titleOpen ++ bytes ['a'] ++ Parser.titleClose
    ++ (List.replicate 155 97 ++ ([0xE4, 0xB8, 0xAD] ++ List.replicate 2 97))

def cutPage : Parser.Disk := { Parser.shelf [Parser.entryA] with files := fun _ => some htmlCut }

/-- Its record: `Searcher.straddling`, with a space for the newline at the end. -/
def docCut : Parser.DocInfo := ⟨bytes ['a'], Parser.linkA, Searcher.straddling ++ [Parser.space]⟩

theorem ready_cutPage : Parser.Ready cutPage [Parser.entryA] :=
  ⟨⟨rfl, rfl, Parser.ready_onePage.kinds⟩, Parser.ready_onePage.below, rfl⟩

theorem textPages_cutPage : Parser.TextPages cutPage [Parser.entryA] := by
  intro path hpath
  obtain rfl : path = Parser.pageA := List.mem_singleton.mp hpath
  refine ⟨wellFormed_bytes (by decide), fun file hfile => ?_⟩
  obtain rfl : htmlCut = file := Option.some.inj hfile
  have hchar : WellFormed [0xE4, 0xB8, 0xAD] := Lib.SyncCode.valid_encode (C := Lib.utf8) '中'
  have hhead : WellFormed (Parser.titleOpen ++ bytes ['a'] ++ Parser.titleClose) :=
    wellFormed_bytes (by decide)
  have htext : ∀ n, WellFormed (List.replicate n 97) := Searcher.wellFormed_replicate (by decide)
  exact hhead.append ((htext 155).append (hchar.append (htext 2)))

theorem contribution_cutPage :
    (Parser.pages [Parser.entryA]).flatMap (Parser.contribution cutPage.files) = [docCut] := by
  have hfile : cutPage.files Parser.pageA = some htmlCut := rfl
  have htitle : Parser.TitleText htmlCut (bytes ['a']) :=
    Parser.titleText_iff_append.mpr
      ⟨by decide, by decide, [], _, by unfold htmlCut; rfl, fun j _ => Nat.zero_le j⟩
  have hparsed : Parser.parsed Parser.pageA htmlCut (bytes ['a']) = docCut := by decide +kernel
  have haccepted : Parser.acceptedDoc cutPage.files Parser.pageA = some docCut := by
    unfold Parser.acceptedDoc
    rw [Parser.parseFile_of_titleText Parser.pageA_below hfile htitle, hparsed]
  show Parser.contribution cutPage.files Parser.pageA ++ [] = [docCut]
  unfold Parser.contribution
  rw [haccepted]
  decide +kernel

theorem not_cutsBetween_docCut : ¬ Searcher.CutsBetween docCut.content (bytes ['a']) := by
  intro hcuts
  have hocc : Lib.OccursAt (bytes ['a']) docCut.content 0 := by
    refine ⟨[], docCut.content.tail, ?_, rfl⟩
    decide +kernel
  obtain ⟨-, hstop⟩ := hcuts.2 0 hocc fun j _ => Nat.zero_le j
  -- the byte after the cut is the second one of the character
  have hbyte : docCut.content[157]? = some 0xB8 := by decide +kernel
  exact hstop (by decide +kernel) _ hbyte ⟨by decide, by decide⟩

theorem cutsBetween_docCut : Searcher.CutsBetween docCut.content [Parser.space] := by
  have hwell : WellFormed docCut.content := by
    have hdocs := ready_cutPage.text_contribution textPages_cutPage
    rw [contribution_cutPage] at hdocs
    exact (hdocs docCut (by simp)).2.2
  -- the space is the last byte, so the window has no dots, and it starts at an `a`
  have hstart : Searcher.windowStart docCut.content [Parser.space] = 101 := by decide +kernel
  have hmarked : Searcher.marked docCut.content [Parser.space] = false := by decide +kernel
  have hbyte : docCut.content[101]? = some 97 := by decide +kernel
  refine (Searcher.cutsBetween_iff hwell _).mpr ⟨?_, ?_⟩
  · rw [hstart]
    intro b hb htrails
    obtain rfl : 97 = b := Option.some.inj (hbyte.symm.trans hb)
    exact absurd htrails.1 (by decide)
  · rw [hmarked]
    simp

theorem found_docCut_a :
    found wordsAndSpaces [docCut] (bytes ['a']) = [(docCut, bytes ['a'])] := by decide +kernel

theorem found_docCut_space :
    found wordsAndSpaces [docCut] [Parser.space] = [(docCut, [Parser.space])] := by decide +kernel

/-- The file made of that page is UTF-8, and the snippet of the page, found by its title, is not. -/
theorem pipeline_utf8_cutPage :
    ∃ (files : FileSystem) (raw : Str) (server : Server), Parser.main cutPage = .ok (0, files) ∧
      files rawInputPath = some raw ∧ WellFormed raw ∧
      main wordsAndSpaces byteOrder files = some server ∧
      Searcher.results wordsAndSpaces insertionSort server.index (bytes ['a'])
        = .ok [Searcher.display (docCut, bytes ['a'])] ∧
      WellFormed docCut.title ∧ ¬ WellFormed (Searcher.display (docCut, bytes ['a'])).desc := by
  obtain ⟨files, raw, server, hparser, hraw, hwell, hserver, hresults, -⟩ :=
    pipeline_utf8 wordsAndSpaces insertionSort byteOrder ready_cutPage textPages_cutPage
  obtain ⟨hits, hitems, hperm, heach⟩ := hresults (bytes ['a'])
  rw [contribution_cutPage, found_docCut_a, List.perm_singleton] at hperm
  subst hperm
  obtain ⟨htitle, -, hdesc⟩ := heach _ List.mem_cons_self
  exact ⟨files, raw, server, hparser, hraw, hwell, hserver, hitems, htitle,
    mt hdesc.mp not_cutsBetween_docCut⟩

/-- The text for a missing query is not UTF-8: its first two bytes both lead. -/
theorem not_wellFormed_missingQuery : ¬ WellFormed missingQuery := by
  intro h
  obtain ⟨tail, rest, heq, -, htail, hlen, -⟩ := Lib.SyncCode.Valid.cons_inv h
  cases tail with
  | nil => exact absurd hlen (by decide)
  | cons b tail =>
      have hb : (0xEB : UInt8) = b := (List.cons.inj heq).1
      have htrails : Lib.Utf8Trails b := htail b (by simp)
      rw [← hb] at htrails
      exact absurd htrails.2 (by decide)

variable (write : List SearchResult → Str)

/--
**Which replies are the UTF-8 they are announced as.**  On UTF-8 pages, with a writer
whose output is UTF-8 exactly when the strings it is given are: those to a request with
a query none of whose snippets is cut inside a character.  The reply to a request
without a query never is.
-/
theorem reply_utf8_iff {disk : Parser.Disk} {entries : List Parser.DirEntry}
    (h : Parser.Ready disk entries) (htext : Parser.TextPages disk entries)
    (hwrite : ∀ items, WellFormed (write items) ↔ ∀ item ∈ items,
      WellFormed item.title ∧ WellFormed item.url ∧ WellFormed item.desc)
    {files : FileSystem} {server : Server} (hparser : Parser.main disk = .ok (0, files))
    (hserver : main cut order files = some server) (req : Request) :
    ∃ resp, handler cut sort write server.index req = .ok resp ∧
      (WellFormed resp.body ↔ req.hasParam queryKey = true ∧
        ∀ hit ∈ found cut ((Parser.pages entries).flatMap (Parser.contribution disk.files))
          (req.getParamValue queryKey), Searcher.CutsBetween hit.1.content hit.2) := by
  have hindex := index_after cut order h hparser hserver
  have hdocs := h.text_contribution htext
  obtain ⟨hits, hresults, hperm, -⟩ :=
    Searcher.results_found cut sort hindex (req.getParamValue queryKey)
  by_cases hparam : req.hasParam queryKey = false
  · refine ⟨_, if_pos hparam, fun hwell => absurd hwell not_wellFormed_missingQuery, ?_⟩
    intro hboth
    rw [hparam] at hboth
    simp at hboth
  · have hparam' : req.hasParam queryKey = true := by simpa using hparam
    refine ⟨_, handler_of_results cut sort write hparam' hresults, ?_⟩
    dsimp only
    rw [hwrite, List.forall_mem_map, and_iff_right hparam']
    have heach : ∀ hit ∈ hits, _ := fun hit hhit => Searcher.wellFormed_display_iff
      (hdocs hit.1 (mem_found cut (hperm.mem_iff.mp hhit)).1)
    rw [forall₂_congr heach]
    exact forall_congr' fun hit => imp_congr_left hperm.mem_iff

/-- A writer of that kind: the fields, each with a zero byte after it. -/
def writeFields (items : List SearchResult) : Str :=
  items.flatMap fun item => item.title ++ 0 :: (item.url ++ 0 :: (item.desc ++ [0]))

theorem wellFormed_writeFields_iff (items : List SearchResult) :
    WellFormed (writeFields items) ↔ ∀ item ∈ items,
      WellFormed item.title ∧ WellFormed item.url ∧ WellFormed item.desc := by
  have hzero : WellFormed [0] := wellFormed_single (by decide)
  induction items with
  | nil => simp [writeFields, Lib.SyncCode.valid_nil, WellFormed]
  | cons item rest ih =>
      have hcons : writeFields (item :: rest)
          = item.title ++ 0 :: (item.url ++ 0 :: (item.desc ++ 0 :: writeFields rest)) := by
        simp [writeFields]
      have hcut : ∀ s t : Str, WellFormed (s ++ 0 :: t) ↔ WellFormed s ∧ WellFormed t :=
        fun s t => Lib.SyncCode.valid_append_cons_iff hzero
      simp only [hcons, hcut, ih, List.forall_mem_cons, and_assoc]

/-- A request without the parameter. -/
def bare : Request := ⟨fun _ => false, fun _ => []⟩

/--
On that page: without a query, the reply is not UTF-8; nor is it for `a`, whose snippet
ends inside the character; for a space, whose snippet ends with the text, it is.
-/
theorem reply_utf8_iff_cutPage :
    ∃ (files : FileSystem) (server : Server) (resp : Request → Response),
      Parser.main cutPage = .ok (0, files) ∧ main wordsAndSpaces byteOrder files = some server ∧
      (∀ req, handler wordsAndSpaces insertionSort writeFields server.index req = .ok (resp req)) ∧
      ¬ WellFormed (resp bare).body ∧ ¬ WellFormed (resp (asking (bytes ['a']))).body ∧
      WellFormed (resp (asking [Parser.space])).body := by
  obtain ⟨files, server, hparser, hserver, -⟩ :=
    main_after wordsAndSpaces byteOrder ready_cutPage
  have hiff := reply_utf8_iff wordsAndSpaces insertionSort byteOrder writeFields ready_cutPage
    textPages_cutPage wellFormed_writeFields_iff hparser hserver
  choose resp hresp hwell using hiff
  rw [contribution_cutPage] at hwell
  refine ⟨files, server, resp, hparser, hserver, hresp, ?_, ?_, ?_⟩
  · rw [hwell]
    exact fun hboth => absurd hboth.1 (by decide)
  · rw [hwell]
    intro hboth
    refine not_cutsBetween_docCut (hboth.2 (docCut, bytes ['a']) ?_)
    exact found_docCut_a ▸ List.mem_singleton_self _
  · rw [hwell]
    refine ⟨by decide, fun hit hhit => ?_⟩
    obtain rfl : hit = (docCut, [Parser.space]) := List.mem_singleton.mp (found_docCut_space ▸ hhit)
    exact cutsBetween_docCut

end HttpServer

end DocSearcher
