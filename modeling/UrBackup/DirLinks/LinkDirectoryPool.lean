import UrBackup.DirTree.Interruptible
import UrBackup.DirTree.Tree
import UrBackup.FileList.StringTools

namespace urbackup.dirlinks

open stringtools dirtree interruptible interruptible.Prog

section Os

/-- The names between the separators. -/
abbrev Path := List Bytes

abbrev FS := Tree Bytes Bytes

/-- How many symbolic links the system follows in a path. -/
def maxsymlinks : Nat := 40

def os_is_symlink (fs : FS) (path : Path) : Bool :=
  (fs.readlink maxsymlinks path).isSome

def os_get_symlink_target (fs : FS) (path : Path) : Option Path :=
  fs.readlink maxsymlinks path

def os_directory_exists (fs : FS) (path : Path) : Bool :=
  (fs.resolve maxsymlinks path).isSome

/-- What the system does not refuse for some reason outside of the directories, as a full
disk. -/
structure Os where
  mkdir : Path → Bool
  rename : Path → Path → Bool
  symlink : Path → Bool
  unlink : Path → Bool

end Os

section Databases

structure JournalEntry where
  id : Nat
  linkname : Path
  linktarget : Path
  deriving DecidableEq

/-- The journal: its rows, and those that may be found instead of them after a power loss. -/
structure JournalDb where
  rows : List JournalEntry
  older : List (List JournalEntry)
  synchronous : Bool

/-- A write with `synchronous=FULL` is on the disk, and those before with it. -/
def JournalDb.commit (db : JournalDb) (rows : List JournalEntry) : JournalDb :=
  { db with rows, older := if db.synchronous then [] else db.older ++ [db.rows] }

def JournalDb.AfterPowerLoss (db : JournalDb) (rows : List JournalEntry) : Prop :=
  rows = db.rows ∨ rows ∈ db.older

structure DirectoryLinkEntry where
  clientid : Nat
  name : Bytes
  target : Path
  deriving DecidableEq

/-- The table of the links, for a client. -/
abbrev LinkDao := List DirectoryLinkEntry

namespace LinkDao

variable (links : LinkDao) (clientid : Nat)

def addDirectoryLink (name : Bytes) (target : Path) : LinkDao :=
  links ++ [⟨clientid, name, target⟩]

def removeDirectoryLink (target : Path) : LinkDao :=
  links.filter fun e => ¬ (e.clientid = clientid ∧ e.target = target)

def removeDirectoryLinkWithName (target : Path) (name : Bytes) : LinkDao :=
  links.filter fun e => ¬ (e.clientid = clientid ∧ e.target = target ∧ e.name = name)

/-- Everything below a directory. -/
def removeDirectoryLinkGlob (dir : Path) : LinkDao :=
  links.filter fun e => ¬ (e.clientid = clientid ∧ dir <+: e.target ∧ e.target ≠ dir)

def getLinksInDirectory (dir : Path) : List DirectoryLinkEntry :=
  links.filter fun e => e.clientid = clientid ∧ dir <+: e.target ∧ e.target ≠ dir

def getLinksByPoolName (pool_name : Bytes) : List DirectoryLinkEntry :=
  links.filter fun e => e.clientid = clientid ∧ e.name = pool_name

def reference_all_sublinks (target new_target : Path) : LinkDao :=
  (getLinksInDirectory links clientid target).foldl
    (fun links e => addDirectoryLink links clientid e.name (new_target ++ e.target.drop target.length)) links

/-- The links to a parent of the directory, which the directory is below of as well. -/
def reference_parents (fs : FS) (target : Path) (new_pool_name : Bytes) (depth : Nat) (remove : Bool) : LinkDao :=
  (List.range depth).foldl (fun links i =>
    let path := target.take (target.length - (i + 1))
    let sub_path := target.drop (target.length - (i + 1))
    match (os_get_symlink_target fs path).bind (·.getLast?) with
    | none => links
    | some pool_name =>
      (getLinksByPoolName links clientid pool_name).foldl (fun links e =>
        let new_link_path := e.target ++ sub_path
        if new_link_path = target then links
        else if remove then removeDirectoryLinkWithName links clientid new_link_path new_pool_name
        else addDirectoryLink links clientid new_pool_name new_link_path) links) links

end LinkDao

end Databases

section Model

/-- The three stores, and whether the data access object of the journal is there. -/
structure World where
  fs : FS
  journal : JournalDb
  links : LinkDao
  link_journal_dao : Bool

/-- A call without file system transactions, with the names that are made up in it. -/
structure Call where
  clientid : Nat
  target_dir : Path
  src_dir : Path
  pooldir : Path
  depth : Nat
  pool_names : List Bytes
  os : Os

/-- One operation on the file system, and whether it has worked. -/
def onFs (allowed : Bool) (f : FS → Option FS) : Prog World Bool :=
  step fun w => match if allowed then f w.fs else none with
    | some fs => (true, { w with fs })
    | none => (false, w)

namespace Os

variable (os : Os)

def os_create_dir (path : Path) : Prog World Bool :=
  onFs (os.mkdir path) (·.mkdir maxsymlinks path)

/-- The path is given from its end. -/
def os_create_dir_recursive : List Bytes → Prog World Bool
  | [] => pure false
  | n :: parent => do
    let b ← os.os_create_dir (parent.reverse ++ [n])
    if b then pure true
    else
      let b ← os_create_dir_recursive parent
      if b then os.os_create_dir (parent.reverse ++ [n]) else pure false

def os_rename_file (src dst : Path) : Prog World Bool :=
  onFs (os.rename src dst) (·.rename maxsymlinks src dst)

def os_link_symbolic (target lname : Path) : Prog World Bool :=
  onFs (os.symlink lname) (·.symlink maxsymlinks target lname)

end Os

def onLinks (f : FS → LinkDao → LinkDao) : Prog World Unit :=
  modify fun w => { w with links := f w.fs w.links }

def addDirectoryLinkJournalEntry (linkname linktarget : Path) : Prog World Nat :=
  step fun w =>
    let id := (w.journal.rows.map (·.id)).foldl max 0 + 1
    (id, { w with journal := w.journal.commit (w.journal.rows ++ [⟨id, linkname, linktarget⟩]) })

def removeDirectoryLinkJournalEntry (entry_id : Nat) : Prog World Unit :=
  modify fun w => { w with journal := w.journal.commit (w.journal.rows.filter (·.id ≠ entry_id)) }

namespace Call

variable (c : Call)

/-- `link_src_dir` -/
def poolPath (pool_name : Bytes) : Path :=
  c.pooldir ++ [pool_name.take 2] ++ [pool_name]

/-- The links that are taken back where the file system refuses. -/
def undoLinks (pool_name : Bytes) : Prog World Unit :=
  onLinks fun fs links =>
    let links := links.reference_parents c.clientid fs c.src_dir pool_name c.depth true
    let links := links.removeDirectoryLink c.clientid c.src_dir
    let links := links.removeDirectoryLinkGlob c.clientid c.target_dir
    links.removeDirectoryLink c.clientid c.target_dir

/-- The link at the target, at the end. -/
def linkTarget (link_src_dir : Path) : Prog World (Option Bool) := do
  let linked ← c.os.os_link_symbolic link_src_dir c.target_dir
  if linked then pure (some true)
  else
    onLinks fun _ links =>
      (links.removeDirectoryLink c.clientid c.target_dir).removeDirectoryLinkGlob c.clientid c.target_dir
    pure (some false)

/-- The source directory is a link into the pool. -/
def linkAgain (link_src_dir : Path) : Prog World (Option Bool) :=
  match link_src_dir.getLast? with
  | none => pure (some false)
  | some pool_name => do
    onLinks fun _ links =>
      (links.addDirectoryLink c.clientid pool_name c.target_dir).reference_all_sublinks c.clientid c.src_dir c.target_dir
    c.linkTarget link_src_dir

/-- The source directory is moved to its place in the pool, with an entry in the journal as
long as there is no link in its old place. -/
def moveToPool (pool_name : Bytes) : Prog World (Option Bool) := do
  let link_src_dir := c.poolPath pool_name
  onLinks fun fs links =>
    let links := links.reference_parents c.clientid fs c.src_dir pool_name c.depth false
    let links := links.addDirectoryLink c.clientid pool_name c.src_dir
    let links := links.reference_all_sublinks c.clientid c.src_dir c.target_dir
    links.addDirectoryLink c.clientid pool_name c.target_dir
  let replay_entry_id ← addDirectoryLinkJournalEntry c.src_dir link_src_dir
  let renamed ← c.os.os_rename_file c.src_dir link_src_dir
  if renamed then
    let linked ← c.os.os_link_symbolic link_src_dir c.src_dir
    if linked then
      removeDirectoryLinkJournalEntry replay_entry_id
      c.linkTarget link_src_dir
    else
      let _ ← c.os.os_rename_file link_src_dir c.src_dir
      c.undoLinks pool_name
      removeDirectoryLinkJournalEntry replay_entry_id
      pure (some false)
  else
    c.undoLinks pool_name
    removeDirectoryLinkJournalEntry replay_entry_id
    pure (some false)

/-- The pool gets the parent directory of the new place where it is missing. -/
def makeParent (parent_src_dir : Path) : Prog World Bool := do
  let exists_already ← look fun w => os_directory_exists w.fs parent_src_dir
  if exists_already then pure true else c.os.os_create_dir_recursive parent_src_dir.reverse

def toPool (pool_name : Bytes) : Prog World (Option Bool) := do
  let created ← c.makeParent (c.pooldir ++ [pool_name.take 2])
  if created then c.moveToPool pool_name else pure (some false)

/-- Nothing is returned as long as every name that is made up is taken. -/
def body : Prog World (Option Bool) := do
  let src_target ← look fun w => os_get_symlink_target w.fs c.src_dir
  match src_target with
  | some link_src_dir => c.linkAgain link_src_dir
  | none =>
    let src_exists ← look fun w => os_directory_exists w.fs c.src_dir
    if src_exists then
      let pool_name ← look fun w => c.pool_names.find? fun n => !os_directory_exists w.fs (c.poolPath n)
      match pool_name with
      | none => pure none
      | some pool_name => c.toPool pool_name
    else pure (some false)

/-- `synchronous=FULL` is set by the call that makes the data access object, and only until
that call returns. -/
def link_directory_pool : Prog World (Option Bool) := do
  let dao ← look fun w => w.link_journal_dao
  if dao then c.body
  else
    let before ← look fun w => w.journal.synchronous
    modify fun w => { w with link_journal_dao := true, journal := { w.journal with synchronous := true } }
    let ret ← c.body
    modify fun w => { w with journal := { w.journal with synchronous := before } }
    pure ret

end Call

/-- An entry of the journal, and whether its link could not be made. -/
def replayEntry (os : Os) (fs : FS) (je : JournalEntry) : Bool × FS :=
  if os_get_symlink_target fs je.linkname ≠ some je.linktarget ∧ os_directory_exists fs je.linktarget then
    let fs := ((if os.unlink je.linkname then fs.unlink maxsymlinks je.linkname else none).getD fs)
    match if os.symlink je.linkname then fs.symlink maxsymlinks je.linktarget je.linkname else none with
    | some fs => (false, fs)
    | none => (true, fs)
  else (false, fs)

/-- `journal_entries` are the rows that have been found, all of which are removed at the end. -/
def replay_directory_link_journal (os : Os) (fs : FS) (journal_entries : List JournalEntry) : Bool × FS :=
  journal_entries.foldl (fun r je =>
    let (has_error, fs) := replayEntry os r.2 je
    (r.1 || has_error, fs)) (false, fs)

end Model

end urbackup.dirlinks
