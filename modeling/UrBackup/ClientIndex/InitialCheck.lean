import UrBackup.FileData.IFile
import UrBackup.FileList.FileListUtils

namespace urbackup.clientindex

open stringtools filedata
open filelist (escapeListName)

section Files

/-- A file or directory as it is listed, with what `getSHA256` says of it. -/
structure SFileAndHash where
  name : Bytes
  size : BitVec 64
  change_indicator : BitVec 64
  isdir : Bool
  issym : Bool
  isspecialf : Bool
  hash : Bytes
  output_symlink_target : Bytes
  sha256 : Bytes
  deriving DecidableEq

/-- A file, with what `getFilesProxy` lists in it where it is a directory. -/
inductive FileTree
  | node (file : SFileAndHash) (files : List FileTree)

def FileTree.file : FileTree → SFileAndHash
  | .node file _ => file

def FileTree.files : FileTree → List FileTree
  | .node _ files => files

/-- The patterns of a backup. `adding_worthless` is what `isIncluded` says besides: nothing
below the path can match. -/
structure Patterns where
  isExcluded : Bytes → Bool
  isIncluded : Bytes → Bool
  adding_worthless : Bytes → Bool

/-- The settings and flags that the walk depends on. -/
structure Settings where
  with_proper_symlinks : Bool
  with_orig_path : Bool
  follow_symlinks : Bool
  include_directory_symlinks : Bool
  dir_recurse : Bool
  include_exclude_dirs : Bool
  calculate_filehashes_on_client : Bool
  end_to_end_file_backup_verification : Bool
  sha_version : Nat
  base64_encode_dash : Bytes → Bytes

end Files

section Items

variable (cfg : Settings)

/-- The first character of the parameters stands apart. -/
def extraText (extra : Bytes) : Bytes :=
  match extra with
  | [] => []
  | _ :: extra => 35 :: extra

/-- `&sym_target=` and `&special=1` -/
def linkParams (f : SFileAndHash) : Bytes :=
  (if f.issym && cfg.with_proper_symlinks then
    [38, 115, 121, 109, 95, 116, 97, 114, 103, 101, 116, 61] ++ EscapeParamString f.output_symlink_target else []) ++
  if f.isspecialf && cfg.with_proper_symlinks then [38, 115, 112, 101, 99, 105, 97, 108, 61, 49] else []

/-- `&sha256=`, `&thash=` or `&sha512=` -/
def hashParam (f : SFileAndHash) : Bytes :=
  if cfg.calculate_filehashes_on_client && f.hash ≠ [] then
    (if cfg.sha_version = 256 then [38, 115, 104, 97, 50, 53, 54, 61]
      else if cfg.sha_version = 528 then [38, 116, 104, 97, 115, 104, 61]
      else [38, 115, 104, 97, 53, 49, 50, 61]) ++ cfg.base64_encode_dash f.hash
  else []

/-- `&sha256_verify=` -/
def verifyParam (f : SFileAndHash) : Bytes :=
  if cfg.end_to_end_file_backup_verification && !f.isspecialf then
    [38, 115, 104, 97, 50, 53, 54, 95, 118, 101, 114, 105, 102, 121, 61] ++ f.sha256
  else []

/-- `&line=` -/
def lineParam (line : Nat) : Bytes :=
  [38, 108, 105, 110, 101, 61] ++ digitBytes line

def fileText (f : SFileAndHash) (line : Nat) : Bytes :=
  [102, 34] ++ escapeListName f.name ++ [34, 32] ++ convert f.size ++ [32] ++ convert f.change_indicator ++
    extraText (hashParam cfg f ++ verifyParam cfg f ++ linkParams cfg f ++ lineParam line) ++ [10]

/-- The bytes of `writeDir`. -/
def dirText (name : Bytes) (change_identicator : BitVec 64) (extra : Bytes) : Bytes :=
  [100, 34] ++ escapeListName name ++ [34] ++
    (if cfg.with_orig_path then [32, 48, 32] ++ convert change_identicator else []) ++
      (match extra with
        | 38 :: extra => 35 :: extra
        | extra => extra) ++ [10]

/-- `u`, or `d".."` -/
def upText : Bytes :=
  if cfg.with_proper_symlinks then [117, 10] else [100, 34, 46, 46, 34, 10]

end Items

section Model

structure SRecurRet where
  has_include : Bool := false
  pos : Nat := 0
  file_id_backup : Nat := 0

/-- Where a directory on the stack stands: not begun, begun, or the first one. -/
inductive RecurState
  | enter
  | leave
  | first
  deriving DecidableEq

structure SRecurParams where
  state : RecurState := .enter
  file : FileTree
  curr_included : Bool
  orig_dir : Bytes
  named_path : Bytes
  parent_idx : Option Nat
  recur_ret : SRecurRet := {}

/-- The list, the number of its items, and the directories that are still to be done. -/
structure Index where
  outfile : IFile
  file_id : Nat
  params_stack : List SRecurParams

/-- `os_file_sep()` between a path and a name. -/
def subPath (path name : Bytes) : Bytes :=
  path ++ [47] ++ name

variable (cfg : Settings) (p : Patterns)

def skipFile (filepath namedpath : Bytes) : Bool :=
  if p.isExcluded filepath || (namedpath ≠ [] && p.isExcluded namedpath) then true
  else !p.isIncluded filepath && (namedpath = [] || !p.isIncluded namedpath)

/-- Links and special files that cannot be listed as what they are. -/
def unlistable (f : SFileAndHash) : Bool :=
  (f.issym && !cfg.with_proper_symlinks && !cfg.follow_symlinks) || (f.isspecialf && !cfg.with_proper_symlinks)

def writeItem (ix : Index) (text : Bytes) : Index :=
  { ix with outfile := ix.outfile.Write text, file_id := ix.file_id + 1 }

/-- Whether a file is listed. -/
def listsFile (orig_dir named_path : Bytes) (f : SFileAndHash) : Bool :=
  !f.isdir && !unlistable cfg f && !skipFile p (subPath orig_dir f.name) (subPath named_path f.name)

/-- The loop over the files, and whether there was one to list. -/
def checkFiles (orig_dir named_path : Bytes) (files : List FileTree) (ix : Index) : Bool × Index :=
  files.foldl (fun (has_include, ix) t =>
    if listsFile cfg p orig_dir named_path t.file then (true, writeItem ix (fileText cfg t.file (ix.file_id + 1)))
    else (has_include, ix)) (false, ix)

/-- Whether a directory is passed over whatever is in it, and whether it is included itself. -/
structure DirCheck where
  skipped : Bool
  curr_included : Bool
  worthless : Bool

def checkDir (orig_dir named_path : Bytes) (f : SFileAndHash) : DirCheck :=
  let filepath := subPath orig_dir f.name
  let namedpath := subPath named_path f.name
  if !f.isdir || unlistable cfg f ||
      (f.issym && cfg.with_proper_symlinks && !cfg.include_directory_symlinks && skipFile p filepath namedpath) then ⟨true, false, false⟩
  else if cfg.include_exclude_dirs then
    if p.isExcluded filepath || p.isExcluded namedpath then ⟨true, false, false⟩
    else ⟨false, p.isIncluded filepath || p.isIncluded namedpath, p.adding_worthless filepath && p.adding_worthless namedpath⟩
  else ⟨false, true, false⟩

/-- The loop over the directories, from the last one to the first. -/
def pushDirs (orig_dir named_path : Bytes) (parent_idx : Nat) (files : List FileTree) (has_include : Bool) (stack : List SRecurParams) :
    Bool × List SRecurParams :=
  files.foldr (fun t (has_include, stack) =>
    let c := checkDir cfg p orig_dir named_path t.file
    if c.skipped then (has_include, stack)
    else
      let stack := if c.curr_included || !c.worthless then
        stack ++ [{ file := t, curr_included := c.curr_included, orig_dir, named_path, parent_idx := some parent_idx }] else stack
      (has_include || (cfg.include_exclude_dirs && c.curr_included), stack)) (has_include, stack)

/-- What `initialCheck` does with the files of a directory. -/
def checkFilesDirs (orig_dir named_path : Bytes) (stack_idx : Nat) (files : List FileTree) (ix : Index) : Bool × Index :=
  let (has_include, ix) := checkFiles cfg p orig_dir named_path files ix
  if cfg.dir_recurse then
    let (has_include, params_stack) := pushDirs cfg p orig_dir named_path stack_idx files has_include ix.params_stack
    (has_include, { ix with params_stack })
  else (has_include, ix)

/-- The top of the stack, with its index. -/
def Index.back? (ix : Index) : Option (Nat × SRecurParams) :=
  ix.params_stack.getLast?.map fun params => (ix.params_stack.length - 1, params)

def Index.setRet (ix : Index) (idx : Nat) (f : SRecurRet → SRecurRet) : Index :=
  { ix with params_stack := ix.params_stack.modify idx fun params => { params with recur_ret := f params.recur_ret } }

/-- The entry of a directory, with the place to go back to. -/
def beginDir (ix : Index) (stack_idx : Nat) (f : SFileAndHash) : Index :=
  let ix := ix.setRet stack_idx fun ret => { ret with pos := ix.outfile.pos, file_id_backup := ix.file_id }
  let ix := writeItem ix (dirText cfg f.name f.change_indicator (linkParams cfg f ++ lineParam (ix.file_id + 1)))
  ix.setRet stack_idx fun ret => { ret with has_include := true }

def initialCheckRecur1 (ix : Index) (stack_idx : Nat) (params : SRecurParams) : Index :=
  let f := params.file.file
  let ix := beginDir cfg ix stack_idx f
  if !f.issym || !cfg.with_proper_symlinks then
    let (b_has_include, ix) := checkFilesDirs cfg p (subPath params.orig_dir f.name) (subPath params.named_path f.name) stack_idx
      params.file.files ix
    ix.setRet stack_idx fun ret => { ret with has_include := b_has_include }
  else ix

def initialCheckRecur2 (ix : Index) (params : SRecurParams) : Index :=
  let ix := writeItem ix (upText cfg)
  if !params.recur_ret.has_include then
    if !params.curr_included then
      { ix with outfile := ix.outfile.Seek params.recur_ret.pos, file_id := params.recur_ret.file_id_backup }
    else ix
  else
    match params.parent_idx with
    | some parent_idx => ix.setRet parent_idx fun ret => { ret with has_include := true }
    | none => ix

/-- The loop of the first call: one directory is begun or left at a time. -/
def step (ix : Index) : Option Index :=
  ix.back?.map fun (stack_idx, params) =>
    match params.state with
    | .enter =>
      let ix := { ix with params_stack := ix.params_stack.modify stack_idx fun params => { params with state := .leave } }
      initialCheckRecur1 cfg p ix stack_idx params
    | .leave =>
      let ix := initialCheckRecur2 cfg ix params
      { ix with params_stack := ix.params_stack.dropLast }
    | .first => { ix with params_stack := ix.params_stack.dropLast }

/-- It ends when the stack is empty. -/
def loop : Nat → Index → Option Index
  | 0, _ => none
  | fuel + 1, ix =>
    match step cfg p ix with
    | some ix => loop fuel ix
    | none => some ix

/-- What `initialCheck` does up to its loop, for a directory. -/
def startCheck (orig_dir named_path : Bytes) (usn : BitVec 64) (extra : Bytes) (files : List FileTree) (outfile : IFile) (file_id : Nat) : Index :=
  let ix := writeItem ⟨outfile, file_id, []⟩ (dirText cfg named_path usn extra)
  let (has_include, ix) := checkFiles cfg p orig_dir named_path files ix
  let ix := { ix with params_stack := [{
    state := .first, file := .node ⟨[], 0, 0, false, false, false, [], [], []⟩ [], curr_included := false, orig_dir := [], named_path := [],
    parent_idx := none }] }
  if cfg.dir_recurse then { ix with params_stack := (pushDirs cfg p orig_dir named_path 0 files has_include ix.params_stack).2 } else ix

/-- The first call of `initialCheck`, for a directory, with `fuel` rounds of the loop. -/
def initialCheck (fuel : Nat) (orig_dir named_path : Bytes) (usn : BitVec 64) (extra : Bytes) (files : List FileTree) (outfile : IFile)
    (file_id : Nat) : Option Index :=
  (loop cfg p fuel (startCheck cfg p orig_dir named_path usn extra files outfile file_id)).map fun ix => writeItem ix (upText cfg)

/-- The list as it is left: it is cut off behind the last item. -/
def Index.list (ix : Index) : Bytes :=
  ix.outfile.content.take ix.outfile.pos

end Model

end urbackup.clientindex
