import Mathlib.Logic.Function.Basic
import UrBackup.FileList.StringTools

namespace urbackup.fileentries

open stringtools

/-- Files below this size are never linked and have no index entry. -/
def link_file_min_size : Nat := 2048

/-- The bytes of a hash that an index key holds. -/
def bytes_in_index : Nat := 16

/-- The columns of the `files` table that link its rows and find them. A null
link is 0. -/
structure FileEntry where
  shahash : Bytes
  filesize : Nat
  clientid : Nat
  next_entry : Nat
  prev_entry : Nat
  pointed_to : Bool
deriving DecidableEq

structure SIndexKey where
  hash : Bytes
  filesize : Nat
  clientid : Nat
deriving DecidableEq

/-- The key copies the first bytes of the hash only. -/
def indexKey (shahash : Bytes) (filesize clientid : Nat) : SIndexKey :=
  ⟨shahash.take bytes_in_index, filesize, clientid⟩

def FileEntry.key (r : FileEntry) : SIndexKey :=
  indexKey r.shahash r.filesize r.clientid

/-- The `files` table by row id, and the file index as its callers see it: the
buffered and the stored entries together, 0 where there is none. -/
structure Store where
  files : Nat → Option FileEntry
  index : SIndexKey → Nat

namespace Store

def empty : Store :=
  ⟨fun _ => none, fun _ => 0⟩

/-- `UPDATE files SET … WHERE id=?`. -/
def update (st : Store) (id : Nat) (f : FileEntry → FileEntry) : Store :=
  { st with files := Function.update st.files id ((st.files id).map f) }

def setNextEntry (st : Store) (next_entry id : Nat) : Store :=
  st.update id ({ · with next_entry })

def setPrevEntry (st : Store) (prev_entry id : Nat) : Store :=
  st.update id ({ · with prev_entry })

def setPointedTo (st : Store) (pointed_to : Bool) (id : Nat) : Store :=
  st.update id ({ · with pointed_to })

def delFileEntry (st : Store) (id : Nat) : Store :=
  { st with files := Function.update st.files id none }

/-- `INSERT INTO files`; the id is the one the database assigns. -/
def addFileEntry (st : Store) (id : Nat) (entry : FileEntry) : Store :=
  { st with files := Function.update st.files id (some entry) }

def put_delayed (st : Store) (key : SIndexKey) (value : Nat) : Store :=
  { st with index := Function.update st.index key value }

def del_delayed (st : Store) (key : SIndexKey) : Store :=
  st.put_delayed key 0

def addFileEntryExternal (st : Store) (id : Nat) (entry : FileEntry) : Store :=
  let st := st.addFileEntry id entry
  let st := if entry.prev_entry ≠ 0 then st.setNextEntry id entry.prev_entry else st
  if entry.next_entry ≠ 0 then st.setPrevEntry id entry.next_entry else st

end Store

/-- Where `addFileSQL` puts the new row. -/
structure Place where
  prev_entry : Nat
  next_entry : Nat
  update_fileindex : Bool

/-- The branch of `addFileSQL` for a file that seems new for the client. If
another client has it, the row that the index names for this client, if any,
becomes the predecessor. -/
def placeNewForClient (st : Store) (key : SIndexKey) (prev_entry_clientid : Nat) (update_fileindex : Bool) :
    Place :=
  let prev_entry := if prev_entry_clientid ≠ 0 then st.index key else 0
  if prev_entry = 0 then ⟨0, 0, update_fileindex⟩
  else match st.files prev_entry with
    | some fentry => ⟨prev_entry, fentry.next_entry, update_fileindex || fentry.pointed_to⟩
    | none => ⟨0, 0, update_fileindex⟩

/-- `new_for_client`: the predecessor is of another client, or there is none. -/
def newForClient (clientid prev_entry prev_entry_clientid : Nat) : Bool :=
  prev_entry_clientid ≠ clientid || prev_entry = 0

/-- The place `addFileSQL` settles on. -/
def addPlace (st : Store) (key : SIndexKey) (clientid prev_entry prev_entry_clientid next_entry : Nat)
    (update_fileindex : Bool) : Place :=
  if newForClient clientid prev_entry prev_entry_clientid then
    placeNewForClient st key prev_entry_clientid update_fileindex
  else ⟨prev_entry, next_entry, update_fileindex⟩

/-- The row that stops being the indexed one of its key: the predecessor, or
else the row the index names. -/
def clearPointedTo (st : Store) (key : SIndexKey) (prev_entry : Nat) : Store :=
  if (st.files prev_entry).any FileEntry.pointed_to then st.setPointedTo false prev_entry
  else if st.index key ≠ 0 then st.setPointedTo false (st.index key)
  else st

/-- `addFileSQL`, with the row id the database assigns. The statistics it
writes (`addIncomingFile`) are left out. -/
def addFileSQL (st : Store) (entryid : Nat) (shahash : Bytes) (filesize clientid prev_entry prev_entry_clientid
    next_entry : Nat) (update_fileindex : Bool) : Store :=
  if filesize < link_file_min_size then
    st.addFileEntryExternal entryid ⟨shahash, filesize, clientid, next_entry, prev_entry, false⟩
  else
    let key := indexKey shahash filesize clientid
    let place := addPlace st key clientid prev_entry prev_entry_clientid next_entry update_fileindex
    let st := if place.update_fileindex && place.prev_entry ≠ 0 then clearPointedTo st key place.prev_entry
      else st
    let indexed := newForClient clientid prev_entry prev_entry_clientid || place.update_fileindex
    let st := st.addFileEntryExternal entryid
      ⟨shahash, filesize, clientid, place.next_entry, place.prev_entry, indexed⟩
    if indexed then st.put_delayed key entryid else st

/-- The index part of `deleteFileSQL`. In the branch for a lone row the source
also asks that some client has the file; without any the key has no entry that
could be deleted. -/
def deleteIndex (st : Store) (key : SIndexKey) (id prev_id next_id : Nat) (pointed_to : Bool) : Store :=
  if prev_id = 0 ∧ next_id = 0 then
    let target_entryid := st.index key
    if pointed_to ∧ (target_entryid = 0 ∨ target_entryid = id) then st.del_delayed key else st
  else if pointed_to then
    if next_id ≠ 0 ∧ next_id ≠ id then (st.setPointedTo true next_id).put_delayed key next_id
    else if prev_id ≠ id then (st.setPointedTo true prev_id).put_delayed key prev_id
    else st
  else st

/-- `deleteFileSQL` with `del_entry` and without in-memory corrections. -/
def deleteFileSQL (st : Store) (pHash : Bytes) (filesize clientid id prev_id next_id : Nat) (pointed_to : Bool) :
    Store :=
  if prev_id = 0 ∧ next_id = 0 ∧ filesize < link_file_min_size then st.delFileEntry id
  else
    let st := deleteIndex st (indexKey pHash filesize clientid) id prev_id next_id pointed_to
    let st := if next_id ≠ 0 then st.setPrevEntry prev_id next_id else st
    let st := if prev_id ≠ 0 then st.setNextEntry next_id prev_id else st
    st.delFileEntry id

/-- The calls that `addFile` and `findFileAndLink` issue for files of at least
the minimum size. A linked file comes with the row it was linked to, as
`findFileHash` read it; a file that was copied comes with zeros. -/
inductive Call where
  | addCopied (entryid : Nat) (shahash : Bytes) (filesize clientid : Nat) (update_fileindex : Bool)
  | addLinked (entryid : Nat) (shahash : Bytes) (filesize clientid existing : Nat) (copied_file : Bool)
  | delete (id : Nat)

def Call.run (st : Store) : Call → Store
  | .addCopied entryid shahash filesize clientid update_fileindex =>
    addFileSQL st entryid shahash filesize clientid 0 0 0 update_fileindex
  | .addLinked entryid shahash filesize clientid existing copied_file =>
    match st.files existing with
    | some e => addFileSQL st entryid shahash filesize clientid existing e.clientid e.next_entry copied_file
    | none => st
  | .delete id =>
    match st.files id with
    | some e => deleteFileSQL st e.shahash e.filesize e.clientid id e.prev_entry e.next_entry e.pointed_to
    | none => st

theorem Call.run_addLinked {st : Store} {existing : Nat} {e : FileEntry} (he : st.files existing = some e)
    (entryid : Nat) (shahash : Bytes) (filesize clientid : Nat) (copied_file : Bool) :
    (addLinked entryid shahash filesize clientid existing copied_file).run st =
      addFileSQL st entryid shahash filesize clientid existing e.clientid e.next_entry copied_file := by
  simp only [run, he]

theorem Call.run_delete {st : Store} {id : Nat} {e : FileEntry} (he : st.files id = some e) : (delete id).run st =
    deleteFileSQL st e.shahash e.filesize e.clientid id e.prev_entry e.next_entry e.pointed_to := by
  simp only [run, he]

/-- What holds of the arguments: the database assigns an unused id other than
0, clients have ids other than 0, and `findFileHash` only returns rows with the
searched hash and size. -/
def Call.Valid (st : Store) : Call → Prop
  | .addCopied entryid _ filesize clientid _ =>
    entryid ≠ 0 ∧ st.files entryid = none ∧ link_file_min_size ≤ filesize ∧ clientid ≠ 0
  | .addLinked entryid shahash filesize clientid existing _ =>
    entryid ≠ 0 ∧ st.files entryid = none ∧ link_file_min_size ≤ filesize ∧ clientid ≠ 0 ∧
      ∃ e, st.files existing = some e ∧ e.shahash = shahash ∧ e.filesize = filesize
  | .delete id => st.files id ≠ none

/-- The stores that runs from the empty one reach, if every call meets `Cond`
in the store it finds. -/
inductive Reached (Cond : Store → Call → Prop) : Store → Prop where
  | start : Reached Cond .empty
  | step {st : Store} {call : Call} (hreach : Reached Cond st) (hvalid : call.Valid st) (hcond : Cond st call) :
      Reached Cond (call.run st)

/-- The calls can be made one after the other and all meet `Cond`. -/
def Allowed (Cond : Store → Call → Prop) : Store → List Call → Prop
  | _, [] => True
  | st, call :: calls => call.Valid st ∧ Cond st call ∧ Allowed Cond (call.run st) calls

theorem Reached.run {Cond : Store → Call → Prop} {st : Store} (h : Reached Cond st) {calls : List Call}
    (hcalls : Allowed Cond st calls) : Reached Cond (calls.foldl Call.run st) := by
  induction calls generalizing st with
  | nil => exact h
  | cons call calls ih => exact ih (.step h hcalls.1 hcalls.2.1) hcalls.2.2

end urbackup.fileentries
