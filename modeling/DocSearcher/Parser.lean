/-
The preprocessor, `parser/parser.cc`.

It walks a directory of HTML files and writes one record per file it accepts:
title, url and content with the byte 3 between them and a newline after.  Nothing
is escaped, so what each of the three scanners may leave in its field decides
whether a record survives being read back; that is `Proofs/RoundTrip.lean`.
-/
import DocSearcher.Common.Util

namespace DocSearcher.Parser

/-- `g_input_path`. -/
def gInputPath : Str :=
  bytes ['.', '.', '/', 'd', 'a', 't', 'a', '/', 'i', 'n', 'p', 'u', 't', '/']

/-- `g_output_path`. -/
def gOutputPath : Str :=
  bytes ['.', '.', '/', 'd', 'a', 't', 'a', '/', 't', 'm', 'p', '/',
    'r', 'a', 'w', '_', 'i', 'n', 'p', 'u', 't', '.', 't', 'x', 't']

/-- `g_url_head`. -/
def gUrlHead : Str :=
  bytes ['h', 't', 't', 'p', 's', ':', '/', '/', 'w', 'w', 'w', '.', 'b', 'o', 'o', 's', 't', '.',
    'o', 'r', 'g', '/', 'd', 'o', 'c', '/', 'l', 'i', 'b', 's', '/', '1', '_', '5', '3', '_', '0',
    '/', 'd', 'o', 'c', '/']

/-- `"<title>"`. -/
def titleOpen : Str := bytes ['<', 't', 'i', 't', 'l', 'e', '>']

/-- `"</title>"`. -/
def titleClose : Str := bytes ['<', '/', 't', 'i', 't', 'l', 'e', '>']

/-- `'<'`. -/
def tagOpen : UInt8 := 60

/-- `'>'`. -/
def tagClose : UInt8 := 62

/-- `' '`. -/
def space : UInt8 := 32

structure DocInfo where
  title : Str := []
  url : Str := []
  content : Str := []
  deriving Repr, DecidableEq

/-! ### Listing the input directory

The calls into the file system can throw, and nothing in the program catches what they
throw.
-/

/-- An entry the directory iterator comes to, and what `is_regular_file` makes of it. -/
structure DirEntry where
  path : Str
  isRegularFile : Except Fault Bool
  extension : Str

/-- The entries the iterator comes to, and what its constructor or `++iter` throws after them. -/
structure Walk where
  entries : List DirEntry
  thrown : Option Fault

/-- What `main` can reach on disk. -/
structure Disk where
  files : FileSystem
  /-- `fs::exists`. -/
  pathExists : Str → Except Fault Bool
  /-- `fs::recursive_directory_iterator`. -/
  walk : Str → Walk
  writable : Str → Bool

/-- One iteration of the loop of `EnumFile`. -/
def enumStep (fileList : List Str) (entry : DirEntry) : Except Fault (List Str) := do
  if (← entry.isRegularFile) = false then return fileList
  if entry.extension ≠ bytes ['.', 'h', 't', 'm', 'l'] then return fileList
  return fileList ++ [entry.path]

/-- `EnumFile`. -/
def enumFile (disk : Disk) (inputPath : Str) (fileList : List Str) :
    Except Fault (Bool × List Str) := do
  if (← disk.pathExists inputPath) = false then return (false, fileList)
  let fileList ← (disk.walk inputPath).entries.foldlM enumStep fileList
  match (disk.walk inputPath).thrown with
  | some fault => .error fault
  | none => return (true, fileList)

/-! ### One file -/

/-- `ParseTitle`.  The closing tag is searched from where the opening tag starts. -/
def parseTitle (html title : Str) : Except Fault (Bool × Str) :=
  match Lib.find html titleOpen 0 with
  | none => .ok (false, title)
  | some begin =>
      match Lib.find html titleClose begin with
      | none => .ok (false, title)
      | some stop =>
          let begin := begin + titleOpen.length
          if begin ≥ stop then .ok (false, title)
          else do
            let len ← sizeSub stop begin
            let text ← substr html begin len
            return (true, text)

/-- `ParseUrl`. -/
def parseUrl (filePath : Str) : Except Fault (Bool × Str) := do
  let urlTail ← substrFrom filePath gInputPath.length
  return (true, gUrlHead ++ urlTail)

/-- One iteration of `ParseContent`'s loop, on `is_content` and `content`. -/
def contentStep (st : Bool × Str) (c : UInt8) : Bool × Str :=
  if st.1 then
    if c = tagOpen then (false, st.2)
    else (true, st.2 ++ [if c = newline then space else c])
  else
    if c = tagClose then (true, st.2) else (false, st.2)

/-- `ParseContent`. -/
def parseContent (html content : Str) : Bool × Str :=
  (true, (html.foldl contentStep (true, content)).2)

/-- `ParseFile`. -/
def parseFile (fs : FileSystem) (filePath : Str) (docInfo : DocInfo) :
    Except Fault (Bool × DocInfo) :=
  match Util.read fs filePath [] with
  | (false, _) => .ok (false, docInfo)
  | (true, html) => do
      let (ret, title) ← parseTitle html docInfo.title
      let docInfo := { docInfo with title }
      if ret = false then return (false, docInfo)
      let (ret, url) ← parseUrl filePath
      let docInfo := { docInfo with url }
      if ret = false then return (false, docInfo)
      let (ret, content) := parseContent html docInfo.content
      let docInfo := { docInfo with content }
      return (ret, docInfo)

/-- The bytes of one record. -/
def record (docInfo : DocInfo) : Str :=
  docInfo.title ++ [fieldSep] ++ docInfo.url ++ [fieldSep] ++ docInfo.content ++ [newline]

/-- `WriteOutput`, on the bytes written so far. -/
def writeOutput (docInfo : DocInfo) (out : Str) : Str := out ++ record docInfo

/-! ### The main loop -/

/-- The body of `main`'s loop: one file parsed and, if accepted, written. -/
def mainStep (fs : FileSystem) (out : Str) (filePath : Str) : Except Fault Str := do
  let (ret, docInfo) ← parseFile fs filePath {}
  if ret = false then return out
  return writeOutput docInfo out

/-- The loop of `main` over the files `EnumFile` listed. -/
def mainLoop (fs : FileSystem) (fileList : List Str) : Except Fault Str :=
  fileList.foldlM (mainStep fs) []

/-- `main`: the exit status and the files afterwards.  Opening the output truncates it. -/
def main (disk : Disk) : Except Fault (Nat × FileSystem) := do
  let (ret, fileList) ← enumFile disk gInputPath []
  if ret = false then return (1, disk.files)
  if disk.writable gOutputPath = false then return (1, disk.files)
  let opened := Function.update disk.files gOutputPath (some [])
  let out ← mainLoop opened fileList
  return (0, Function.update disk.files gOutputPath (some out))

end DocSearcher.Parser
