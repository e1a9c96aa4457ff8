import UrBackup.FilePaths.FilePathCorrections
import UrBackup.Wire.Data

namespace urbackup.userview

open stringtools filelist filepaths wire

section Permission

def ID_GRANT_ACCESS : Int8 := 0

def ID_DENY_ACCESS : Int8 := 1

/-- Every action is at least one byte long. -/
def permissionLoop (id : Int64) : Nat → CRData → Bool
  | 0, _ => false
  | fuel + 1, perm =>
    match perm.getChar with
    | (none, _) => false
    | (some action, perm) =>
      match perm.getVarInt with
      | (none, _) => false
      | (some pid, perm) =>
        if action = ID_GRANT_ACCESS ∧ (pid = 0 ∨ pid = id) then true
        else if action = ID_DENY_ACCESS ∧ (pid = 0 ∨ pid = id) then false
        else permissionLoop id fuel perm

def hasPermission (permissions : Bytes) (id : Int64) : Bool :=
  permissionLoop id (permissions.length + 1) (CRData.set permissions)

end Permission

/-- What is read of the backup below `.hashes`: the permissions in a metadata file,
which are empty where it cannot be read, and the directories. -/
structure Backup where
  md5 : HexMD5
  file_permissions : Bytes → Bytes
  directory_exists : Bytes → Bool

/-- The directory with the scripts. -/
def scriptsPath : Bytes :=
  slash :: scriptsName

namespace Backup

variable (b : Backup)

/-- A script whose output is a directory is an entry of a file in the list. -/
def treatedAsDir (curr_path : Bytes) (item : ListItem) : Bool :=
  match item with
  | .file name _ _ _ => curr_path = scriptsPath && b.directory_exists (curr_path ++ slash :: fixFilename b.md5 name.bytes)
  | _ => false

def metadata_fn (curr_path : Bytes) (item : ListItem) (isdir : Bool) : Bytes :=
  let osspecific_name := fixFilename b.md5 item.sfile.name
  if isdir && (item.params symTarget).isNone then curr_path ++ slash :: osspecific_name ++ slash :: metadata_dir_fn
  else curr_path ++ slash :: escape_metadata_fn osspecific_name

end Backup

section Roots

structure SDirStatItem where
  has_perm : Nat
  id : Nat
  nodecount : Nat
  identicalcount : Nat

structure RootSearch where
  curr_path : Bytes
  dir_permissions : List SDirStatItem
  curr_id : Nat
  identical_permission_roots : List Nat

namespace RootSearch

variable (b : Backup) (ids : List Int64) (s : RootSearch)

def start : RootSearch :=
  ⟨[], [], 0, []⟩

/-- The number of ids that have permission. -/
def countIds (permissions : Bytes) : Nat :=
  ids.countP (hasPermission permissions)

def enterDir (item : ListItem) : RootSearch :=
  let has_perm := countIds ids (b.file_permissions (b.metadata_fn s.curr_path item true))
  { s with
    curr_path := s.curr_path ++ slash :: fixFilename b.md5 item.sfile.name
    dir_permissions := ⟨has_perm, s.curr_id, 0, 0⟩ :: s.dir_permissions
    curr_id := s.curr_id + 1 }

def addFile (item : ListItem) : RootSearch :=
  let has_perm := countIds ids (b.file_permissions (b.metadata_fn s.curr_path item false))
  { s with
    dir_permissions :=
      match s.dir_permissions with
      | [] => []
      | top :: rest =>
        { top with
          nodecount := top.nodecount + 1
          identicalcount := top.identicalcount + if has_perm = top.has_perm then 1 else 0 } :: rest
    curr_id := s.curr_id + 1 }

/-- The counts of a directory that ends go to the one around it. -/
def addLast (last_dir : SDirStatItem) : List SDirStatItem → List SDirStatItem
  | [] => []
  | top :: rest =>
    { top with
      nodecount := top.nodecount + last_dir.nodecount + 1
      identicalcount := top.identicalcount + last_dir.identicalcount +
        if last_dir.has_perm = top.has_perm then 1 else 0 } :: rest

def leaveDir : RootSearch :=
  match s.dir_permissions with
  | [] => { s with curr_path := ExtractFilePath s.curr_path slash, curr_id := s.curr_id + 1 }
  | last_dir :: rest =>
    { curr_path := ExtractFilePath s.curr_path slash
      dir_permissions := addLast last_dir rest
      curr_id := s.curr_id + 1
      identical_permission_roots :=
        if last_dir.nodecount = last_dir.identicalcount then s.identical_permission_roots ++ [last_dir.id]
        else s.identical_permission_roots }

def step (item : ListItem) : RootSearch :=
  match item with
  | .up => s.leaveDir
  | .dir _ _ _ => s.enterDir b ids item
  | .file _ _ _ _ => if b.treatedAsDir s.curr_path item then s.enterDir b ids item else s.addFile b ids item

end RootSearch

/-- The roots are sorted at the end, for a binary search. -/
def findIdenticalPermissionRoots (b : Backup) (ids : List Int64) (items : List ListItem) : List Nat :=
  (items.foldl (RootSearch.step b ids) RootSearch.start).identical_permission_roots

end Roots

section View

inductive ViewKind where
  | dir
  | dir_link
  | file_link
deriving DecidableEq

/-- What is created in the view at the item with the number `id`. -/
structure ViewEntry where
  id : Nat
  kind : ViewKind
  path : Bytes

structure ViewWalk where
  curr_path : Bytes
  skip : Nat
  id : Nat
  view : List ViewEntry

namespace ViewWalk

variable (b : Backup) (ids : List Int64) (identical_permission_roots : List Nat) (w : ViewWalk)

def start : ViewWalk :=
  ⟨[], 0, 0, []⟩

/-- Some id has permission. -/
def anyId (permissions : Bytes) : Bool :=
  ids.any (hasPermission permissions)

def enterDir (item : ListItem) : ViewWalk :=
  let permissions := b.file_permissions (b.metadata_fn w.curr_path item true)
  let curr_path := w.curr_path ++ slash :: fixFilename b.md5 item.sfile.name
  if anyId ids permissions then
    if w.id ∈ identical_permission_roots then
      { curr_path := curr_path, skip := 1, id := w.id + 1, view := w.view ++ [⟨w.id, .dir_link, curr_path⟩] }
    else { curr_path := curr_path, skip := 0, id := w.id + 1, view := w.view ++ [⟨w.id, .dir, curr_path⟩] }
  else { curr_path := curr_path, skip := 1, id := w.id + 1, view := w.view }

def addFile (item : ListItem) : ViewWalk :=
  let permissions := b.file_permissions (b.metadata_fn w.curr_path item false)
  let filename := w.curr_path ++ slash :: fixFilename b.md5 item.sfile.name
  if anyId ids permissions then { w with id := w.id + 1, view := w.view ++ [⟨w.id, .file_link, filename⟩] }
  else { w with id := w.id + 1 }

/-- An entry below a directory that is linked or not shown. -/
def skipItem (item : ListItem) : ViewWalk :=
  match item with
  | .up =>
    { w with
      skip := w.skip - 1
      curr_path := if w.skip - 1 = 0 then ExtractFilePath w.curr_path slash else w.curr_path
      id := w.id + 1 }
  | .dir _ _ _ => { w with skip := w.skip + 1, id := w.id + 1 }
  | .file _ _ _ _ => { w with id := w.id + 1 }

def step (item : ListItem) : ViewWalk :=
  if w.skip > 0 then w.skipItem item
  else
    match item with
    | .up => { w with curr_path := ExtractFilePath w.curr_path slash, id := w.id + 1 }
    | .dir _ _ _ => w.enterDir b ids identical_permission_roots item
    | .file _ _ _ _ =>
      if b.treatedAsDir w.curr_path item then w.enterDir b ids identical_permission_roots item else w.addFile b ids item

end ViewWalk

def createUserView (b : Backup) (ids : List Int64) (identical_permission_roots : List Nat) (items : List ListItem) :
    List ViewEntry :=
  (items.foldl (ViewWalk.step b ids identical_permission_roots) ViewWalk.start).view

end View

section Visible

/-- A directory that is open in the file list. -/
structure OpenDir where
  line : Nat
  path : Bytes

def topPath : List OpenDir → Bytes
  | [] => []
  | d :: _ => d.path

/-- The next line and the open directories, innermost first. -/
def openedStep (md5 : HexMD5) (st : Nat × List OpenDir) : ListItem → Nat × List OpenDir
  | .file _ _ _ _ => (st.1 + 1, st.2)
  | .dir name _ _ => (st.1 + 1, ⟨st.1, topPath st.2 ++ slash :: fixFilename md5 name.bytes⟩ :: st.2)
  | .up => (st.1 + 1, st.2.tail)

def opened (md5 : HexMD5) (items : List ListItem) : List OpenDir :=
  (items.foldl (openedStep md5) (0, [])).2

variable (b : Backup) (ids : List Int64) (items : List ListItem)

/-- The lines of the directories around the item of a line. -/
def ancestors (k : Nat) : List Nat :=
  (opened b.md5 (items.take k)).map OpenDir.line

def dirPath (k : Nat) : Bytes :=
  topPath (opened b.md5 (items.take k))

/-- The line has an item, which is not the end of a directory. -/
def IsItem (k : Nat) : Prop :=
  ∃ item, items[k]? = some item ∧ item.isEntry = true

/-- The permissions of the item of a line. -/
def permissionsOf (k : Nat) : Bytes :=
  match items[k]? with
  | some (.file name size last_modified extra) =>
    let item := ListItem.file name size last_modified extra
    b.file_permissions (b.metadata_fn (dirPath b items k) item (b.treatedAsDir (dirPath b items k) item))
  | some item => b.file_permissions (b.metadata_fn (dirPath b items k) item true)
  | none => []

/-- One of the ids has permission. -/
def Permitted (k : Nat) : Prop :=
  ViewWalk.anyId ids (permissionsOf b items k) = true

/-- One of the ids has permission for the item and one for each directory around
it. -/
def Visible (k : Nat) : Prop :=
  IsItem items k ∧ Permitted b ids items k ∧ ∀ d ∈ ancestors b items k, Permitted b ids items d

/-- The item is in the view, or below a directory that is linked. -/
def Shown (view : List ViewEntry) (k : Nat) : Prop :=
  (∃ e ∈ view, e.id = k) ∨ (IsItem items k ∧ ∃ e ∈ view, e.kind = .dir_link ∧ e.id ∈ ancestors b items k)

/-- No entry of a file is treated as a directory. -/
def Plain : Prop :=
  ∀ k item, items[k]? = some item → (item.sfile.isdir = true → item.sfile.name ≠ []) ∧
    b.treatedAsDir (dirPath b items k) item = false

end Visible

end urbackup.userview
