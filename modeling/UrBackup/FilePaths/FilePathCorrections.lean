import UrBackup.FileList.ListItem

namespace urbackup.filepaths

open stringtools filelist

section StringTools

/-- The separator `/`. -/
def slash : UInt8 := 47

/-- `Tokenize` for one separator, behind the start `tok` of a token. An empty token
at the end is left out. -/
def tokenizeFrom (sep : UInt8) : Bytes → Bytes → List Bytes
  | tok, [] => if tok = [] then [] else [tok]
  | tok, ch :: str => if ch = sep then tok :: tokenizeFrom sep [] str else tokenizeFrom sep (tok ++ [ch]) str

def Tokenize (str : Bytes) (sep : UInt8) : List Bytes :=
  tokenizeFrom sep [] str

/-- What stands before the last separator, which is not the last byte. -/
def ExtractFilePath (fulln : Bytes) (sep : UInt8) : Bytes :=
  (fulln.reverse.tail.dropWhile (· ≠ sep)).tail.reverse

def ExtractFileName (fulln : Bytes) (sep : UInt8) : Bytes :=
  let fulln := if fulln.reverse.head? = some sep then fulln.reverse.tail else fulln.reverse
  ((fulln.takeWhile (· ≠ sep)).filter (· ≠ 0)).reverse

end StringTools

section Names

/-- `.dir_metadata` -/
def metadata_dir_fn : Bytes := [46, 100, 105, 114, 95, 109, 101, 116, 97, 100, 97, 116, 97]

def escape_metadata_fn (fn : Bytes) : Bytes :=
  if metadata_dir_fn.isPrefixOf fn then
    let num_str := fn.drop metadata_dir_fn.length
    if num_str = [] then fn ++ [48]
    else if num_str.countP isDigit ≠ num_str.length then fn
    else metadata_dir_fn ++ convert (os_atoi64 num_str + 1)
  else fn

/-- `GenerateHexMD5`, which writes hexadecimal digits. -/
structure HexMD5 where
  GenerateHexMD5 : Bytes → Bytes
  hex : ∀ s, ∀ ch ∈ GenerateHexMD5 s, isDigit ch = true ∨ (97 ≤ ch ∧ ch ≤ 102)

variable (md5 : HexMD5)

/-- `NAME_MAX - 1` -/
def nameMax : Nat := 254

/-- How many bytes the repair of a cut name removes, for the bytes before its last
one, the last one first. Because of the precedence of `==` the test for the start of
a character is one for an odd byte. -/
def rmBytes : Bytes → Nat
  | [] => 0
  | ch :: fn => if ch &&& 0x80 ≠ 0 then if ch &&& 1 ≠ 0 then 1 else rmBytes fn + 1 else 0

def insertHash (orig_fn fn : Bytes) : Bytes :=
  let hash := 45 :: (md5.GenerateHexMD5 orig_fn).take 10
  if 46 ∈ fn then
    let ext := fn.reverse.takeWhile (· ≠ 46)
    fn.take (fn.length - (ext.length + 1)) ++ hash ++ fn.drop (fn.length - (ext.length + 1))
  else fn ++ hash

/-- The name a file has on the server. -/
def fixFilename (orig_fn : Bytes) : Bytes :=
  let append_hash := orig_fn.contains slash
  let fn := orig_fn.map fun ch => if ch = slash then 95 else ch
  let name_max := if append_hash then nameMax - 11 else nameMax
  if fn.length > name_max then
    let fn := fn.take (nameMax - 11)
    insertHash md5 orig_fn (fn.take (nameMax - 11 - rmBytes fn.reverse.tail))
  else if append_hash then insertHash md5 orig_fn fn
  else fn

def FilePathCorrections := StrMap

def FilePathCorrections.add (corrections : FilePathCorrections) (path corr : Bytes) : FilePathCorrections :=
  insertParam corrections path corr

/-- The name for the path, which stays if none is stored. -/
def FilePathCorrections.get (corrections : FilePathCorrections) (path corr : Bytes) : Bytes :=
  (corrections path).getD corr

def fixFilenameForOS (fn curr_path : Bytes) (filepath_corrections : FilePathCorrections) : Bytes × FilePathCorrections :=
  let orig_fn := fn
  let fn := fixFilename md5 orig_fn
  if fn ≠ orig_fn then
    if curr_path = [] then (fn, filepath_corrections.add orig_fn fn)
    else (fn, filepath_corrections.add (curr_path ++ slash :: orig_fn) fn)
  else (fn, filepath_corrections)

end Names

section Walk

inductive ItemKind where
  | file
  | dir
  | dir_symlink
deriving DecidableEq

/-- The first byte of the client's path. -/
def ItemKind.file_type : ItemKind → UInt8
  | file => 102
  | dir => 100
  | dir_symlink => 108

/-- An item that was created below the two directories of the backup. Its `names` are
those of the directories around it and its own. -/
structure Stored where
  names : List Bytes
  kind : ItemKind
  path : Bytes
  metadata_path : Bytes

/-- An item whose metadata was requested, with the path that the client sends. -/
structure Requested where
  stored : Stored
  public_fn : Bytes

structure PathWalk where
  curr_path : Bytes
  curr_os_path : Bytes
  filepath_corrections : FilePathCorrections
  depth : Nat
  script_dir : Bool
  open_dirs : List Stored
  requested : List Requested

/-- `sym_target` -/
def symTarget : Bytes := [115, 121, 109, 95, 116, 97, 114, 103, 101, 116]

/-- `urbackup_backup_scripts` -/
def scriptsName : Bytes :=
  [117, 114, 98, 97, 99, 107, 117, 112, 95, 98, 97, 99, 107, 117, 112, 95, 115, 99, 114, 105, 112, 116, 115]

/-- The path that is requested. -/
def requestPath (curr_path fn : Bytes) : Bytes :=
  let cfn := curr_path ++ slash :: fn
  if cfn.head? = some slash then cfn.tail else cfn

namespace PathWalk

variable (w : PathWalk)

def start : PathWalk where
  curr_path := []
  curr_os_path := []
  filepath_corrections := fun _ => none
  depth := 0
  script_dir := false
  open_dirs := []
  requested := []

/-- The names of the open directories. -/
def names : List Bytes :=
  match w.open_dirs with
  | [] => []
  | d :: _ => d.names

variable (md5 : HexMD5)

def addFile (name : Bytes) : PathWalk :=
  let (osspecific_name, filepath_corrections) := fixFilenameForOS md5 name w.curr_path w.filepath_corrections
  let stored : Stored :=
    { names := w.names ++ [name]
      kind := .file
      path := w.curr_os_path ++ slash :: osspecific_name
      metadata_path := w.curr_os_path ++ slash :: escape_metadata_fn osspecific_name }
  { w with
    filepath_corrections := filepath_corrections
    requested := w.requested ++ [⟨stored, ItemKind.file.file_type :: requestPath w.curr_path name⟩] }

def openDir (name : Bytes) (is_symlink : Bool) : PathWalk :=
  let (osspecific_name, filepath_corrections) := fixFilenameForOS md5 name w.curr_path w.filepath_corrections
  let curr_path := w.curr_path ++ slash :: name
  let curr_os_path := w.curr_os_path ++ slash :: osspecific_name
  let stored : Stored :=
    if is_symlink then
      { names := w.names ++ [name]
        kind := .dir_symlink
        path := curr_os_path
        metadata_path := w.curr_os_path ++ slash :: escape_metadata_fn name }
    else
      { names := w.names ++ [name]
        kind := .dir
        path := curr_os_path
        metadata_path := curr_os_path ++ slash :: metadata_dir_fn }
  { w with
    curr_path := curr_path
    curr_os_path := curr_os_path
    filepath_corrections := filepath_corrections
    depth := w.depth + 1
    script_dir := w.script_dir || (w.depth + 1 = 1 && curr_path.drop 1 = scriptsName)
    open_dirs := stored :: w.open_dirs }

def closeDir : PathWalk :=
  match w.open_dirs with
  | [] => w
  | stored :: open_dirs =>
    let public_fn := stored.kind.file_type ::
      requestPath (ExtractFilePath w.curr_path slash) (ExtractFileName w.curr_path slash)
    { w with
      curr_path := ExtractFilePath w.curr_path slash
      curr_os_path := ExtractFilePath w.curr_os_path slash
      depth := w.depth - 1
      script_dir := w.script_dir && !(w.depth - 1 = 0 && w.curr_path.drop 1 = scriptsName)
      open_dirs := open_dirs
      requested := if w.script_dir then w.requested else w.requested ++ [⟨stored, public_fn⟩] }

/-- One entry of the file list. -/
def step (item : ListItem) : PathWalk :=
  match item with
  | .file name _ _ _ => w.addFile md5 name.bytes
  | .dir name _ _ => w.openDir md5 name.bytes (item.params symTarget).isSome
  | .up => w.closeDir

def run (items : List ListItem) : PathWalk :=
  items.foldl (fun w item => w.step md5 item) start

end PathWalk

end Walk

section Apply

structure MetadataPath where
  os_path_metadata : Bytes
  os_path : Bytes
  curr_path : Bytes

/-- The loop over the components of the client's path. -/
def pathLoop (filepath_corrections : FilePathCorrections) (kind : UInt8) : MetadataPath → List Bytes → MetadataPath
  | p, [] => p
  | p, tok :: fs_toks =>
    if tok ≠ [46] ∧ tok ≠ upName then
      let sep := if p.os_path_metadata ≠ [] then [slash] else []
      let curr_path := p.curr_path ++ slash :: tok
      let path_component := filepath_corrections.get curr_path tok
      let component_metadata :=
        if fs_toks = [] then
          escape_metadata_fn path_component ++ if kind = ItemKind.dir.file_type then slash :: metadata_dir_fn else []
        else path_component
      pathLoop filepath_corrections kind
        { os_path_metadata := p.os_path_metadata ++ sep ++ component_metadata
          os_path := p.os_path ++ sep ++ path_component
          curr_path := curr_path } fs_toks
    else pathLoop filepath_corrections kind p fs_toks

/-- The paths below the two directories of the backup that the metadata is applied
to. -/
def applyMetadataPaths (filepath_corrections : FilePathCorrections) (curr_fn : Bytes) : Bytes × Bytes :=
  let p := pathLoop filepath_corrections (curr_fn.headD 0) ⟨[], [], []⟩ (Tokenize curr_fn.tail slash)
  (slash :: p.os_path, slash :: p.os_path_metadata)

/-- The metadata is applied where the item was created. -/
def Requested.SamePaths (filepath_corrections : FilePathCorrections) (r : Requested) : Prop :=
  applyMetadataPaths filepath_corrections r.public_fn = (r.stored.path, r.stored.metadata_path)

/-- The name of an item at the top is not changed, nor is the last one of a symbolic
link to a directory where its metadata is concerned, and the name of a directory is
none that is escaped. -/
structure Stored.Fits (md5 : HexMD5) (s : Stored) : Prop where
  top : ∀ name, s.names.head? = some name → fixFilename md5 name = name
  symlink : s.kind = .dir_symlink → ∀ name, s.names.getLast? = some name →
    escape_metadata_fn (fixFilename md5 name) = escape_metadata_fn name
  dir : s.kind = .dir → ∀ name, s.names.getLast? = some name →
    escape_metadata_fn (fixFilename md5 name) = fixFilename md5 name

/-- A name that is a component of a path. -/
def IsComponent (name : Bytes) : Prop :=
  name ≠ [] ∧ slash ∉ name ∧ name ≠ [46] ∧ name ≠ upName

/-- The names of a list whose items are files and directories of the client. -/
def Components (items : List ListItem) : Prop :=
  ∀ item ∈ items, item.isEntry = true → IsComponent item.sfile.name

end Apply

end urbackup.filepaths
