import UrBackup.FileList.ListTree
import UrBackup.FilePaths.FilePathCorrections

namespace urbackup.incrbackup

open stringtools treediff filelist filepaths

/-- The settings that the walk asks for; `file_meta` is whether the client sends
metadata. -/
structure BackupSettings where
  use_snapshots : Bool
  use_directory_links : Bool
  intra_file_diffs : Bool
  file_meta : Bool

/-- What the calls for a directory come to: of `link_directory_pool` for it and for its
hashes, of `remove_directory_link`, and of those that create it. -/
structure DirCalls where
  linked : Bool
  hashes_linked : Bool
  link_removed : Bool
  created : Bool

/-- What the calls for a file come to; `has_hash` is whether it may be linked by its
hash. -/
structure FileCalls where
  created : Bool
  has_hash : Bool
  link_file : Bool
  hardlinked : Bool
  too_many_hardlinks : Bool
  r_offline : Bool

/-- By lines. -/
structure Calls where
  dir : Nat → DirCalls
  file : Nat → FileCalls

/-- What goes to `server_download`. A directory comes with the number of items queued
below it. -/
inductive Queued where
  | full (id : Nat)
  | chunked (id : Nat)
  | metadata (id : Nat)
  | directory (id folder_items : Nat)
deriving DecidableEq

/-- Why the walk ends early. Nothing may be taken from an empty stack. -/
inductive Stop where
  | c_has_error
  | empty_stack
deriving DecidableEq

/-- The variables of the walk in `doFileBackup`. The top of each stack comes first. -/
structure WalkState where
  line : Nat
  depth : Int
  indirchange : Bool
  changelevel : Int
  skip_dir_completely : Nat
  script_dir : Bool
  curr_path : Bytes
  folder_items : List Nat
  dir_diff_stack : List Bool
  dir_ids : List Nat
  dir_end_ids : List (Nat × Nat)
  queued : List Queued

/-- `changelevel` is set with `indirchange`, and not read before. -/
def WalkState.start : WalkState where
  line := 0
  depth := 0
  indirchange := false
  changelevel := 0
  skip_dir_completely := 0
  script_dir := false
  curr_path := []
  folder_items := [0]
  dir_diff_stack := []
  dir_ids := []
  dir_end_ids := []
  queued := []

/-- `special` -/
def special : Bytes := [115, 112, 101, 99, 105, 97, 108]

/-- `std::binary_search`: the first element that is not below the line. -/
def hasChange (line : Nat) (diffs : List Nat) : Bool :=
  match diffs.dropWhile fun d => decide (d < line) with
  | [] => false
  | d :: _ => !decide (line < d)

namespace WalkState

variable (cfg : BackupSettings) (r : DiffResult) (calls : Calls) (s : WalkState)

/-- What is done first with an entry while a directory is skipped. -/
def skipEntry (cf : SFile) : Except Stop WalkState :=
  if s.skip_dir_completely = 0 ∨ cf.isdir = false then .ok s
  else if cf.name = upName then
    let skip_dir_completely := s.skip_dir_completely - 1
    if 0 < skip_dir_completely then
      match s.dir_ids with
      | [] => .error .empty_stack
      | _ :: dir_ids => .ok { s with skip_dir_completely, dir_ids, curr_path := ExtractFilePath s.curr_path slash }
    else .ok { s with skip_dir_completely }
  else
    .ok { s with
      skip_dir_completely := s.skip_dir_completely + 1
      curr_path := s.curr_path ++ slash :: cf.name
      dir_ids := s.line :: s.dir_ids }

/-- The entry of a changed directory. -/
def markChange (cf : SFile) : WalkState :=
  if cf.isdir = true ∧ s.indirchange = false ∧ hasChange s.line r.diffs = true then
    { s with indirchange := true, changelevel := if cf.name = upName then s.depth - 1 else s.depth }
  else s

/-- One more item in each open directory. -/
def countItem : WalkState :=
  { s with folder_items := s.folder_items.map (· + 1) }

/-- The directory is linked to the pool as a whole, so that it is skipped, or created. -/
def makeDir (dir_diff : Bool) : Except Stop WalkState :=
  let c := calls.dir s.line
  let linkable := cfg.use_directory_links && hasChange s.line (r.large_unchanged_subtrees.getD []) && c.linked
  if linkable = true ∧ c.hashes_linked = false ∧ c.link_removed = false then .error .c_has_error
  else
    let dir_linked := linkable && c.hashes_linked
    if dir_linked = false ∧ (cfg.use_snapshots = false ∨ s.indirchange = true ∨ dir_diff = true) ∧ c.created = false then
      .error .c_has_error
    else .ok { s with skip_dir_completely := if dir_linked then 1 else s.skip_dir_completely }

def openDir (cf : SFile) : Except Stop WalkState :=
  let dir_diff := !s.indirchange && hasChange s.line r.dir_diffs
  let counted := if s.indirchange || dir_diff then s.countItem else s
  let s := { counted with dir_diff_stack := dir_diff :: s.dir_diff_stack, curr_path := s.curr_path ++ slash :: cf.name }
  (s.makeDir cfg r calls dir_diff).map fun s =>
    { s with
      folder_items := 0 :: s.folder_items
      dir_ids := s.line :: s.dir_ids
      depth := s.depth + 1
      script_dir := s.script_dir || (s.depth + 1 = 1 && s.curr_path.drop 1 = scriptsName) }

def closeDir : Except Stop WalkState :=
  match s.dir_diff_stack, s.folder_items, s.dir_ids with
  | dir_diff :: dir_diff_stack, items :: folder_items, dir_id :: dir_ids =>
    let loads := (s.indirchange || dir_diff) && cfg.file_meta && !s.script_dir
    let depth := s.depth - 1
    .ok { s with
      queued := if loads then s.queued ++ [.directory s.line items] else s.queued
      dir_end_ids := if loads then s.dir_end_ids ++ [(dir_id, s.line)] else s.dir_end_ids
      dir_diff_stack, folder_items, dir_ids, depth
      indirchange := s.indirchange && !decide (depth = s.changelevel)
      script_dir := s.script_dir && !(depth = 0 && s.curr_path.drop 1 = scriptsName)
      curr_path := ExtractFilePath s.curr_path slash }
  | _, _, _ => .error .empty_stack

/-- The contents of a file are queued. -/
def loadFile : WalkState :=
  { s.countItem with queued := s.queued ++ [if cfg.intra_file_diffs then .chunked s.line else .full s.line] }

def loadMetadata : WalkState :=
  if cfg.file_meta then { s.countItem with queued := s.queued ++ [.metadata s.line] } else s

/-- A file, by what there is of it in the last backup. -/
def addFile (extra_params : StrMap) : Except Stop WalkState :=
  let c := calls.file s.line
  let file_changed := hasChange s.line r.diffs
  let anew := s.indirchange || file_changed || !cfg.use_snapshots
  if ((extra_params symTarget).isSome || (extra_params special).isSome) && anew then
    if c.created then .ok (s.loadMetadata cfg) else .error .c_has_error
  else if s.indirchange || file_changed then
    if c.has_hash && c.link_file then .ok (s.loadMetadata cfg)
    else if !c.r_offline || hasChange s.line (r.modified_inplace_ids.getD []) then .ok (s.loadFile cfg)
    else .ok s
  else if !cfg.use_snapshots && !c.hardlinked && !c.too_many_hardlinks then
    if c.has_hash && c.link_file then .ok (s.loadMetadata cfg) else .ok (s.loadFile cfg)
  else .ok s

/-- The state in which an entry is handled, or with which it is skipped. -/
def atEntry (cf : SFile) : Except Stop WalkState :=
  (s.skipEntry cf).map fun s => if 0 < s.skip_dir_completely then s else s.markChange r cf

/-- One entry of the list. -/
def step (e : WalkEntry) : Except Stop WalkState :=
  (s.atEntry r e.data).bind fun s =>
    let handled :=
      if 0 < s.skip_dir_completely then .ok s
      else if e.data.isdir = false then s.addFile cfg r calls e.extra
      else if e.data.name = upName then s.closeDir cfg
      else s.openDir cfg r calls e.data
    handled.map fun s => { s with line := s.line + 1 }

end WalkState

/-- The walk over some entries of the list. -/
def walkEntries (cfg : BackupSettings) (r : DiffResult) (calls : Calls) (entries : List WalkEntry) : Except Stop WalkState :=
  entries.foldlM (fun s e => s.step cfg r calls e) .start

/-- `diffTrees` as `doFileBackup` calls it. -/
def treeDiffs (cfg : BackupSettings) (diff : DiffConfig) (last new : TreeNode) : DiffResult :=
  let asked (b : Bool) := if b then some [] else none
  diffTrees diff last new (asked cfg.use_snapshots) (asked cfg.use_directory_links) (some []) [] (asked cfg.intra_file_diffs)

end urbackup.incrbackup
