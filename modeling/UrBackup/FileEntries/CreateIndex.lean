import UrBackup.FileEntries.Effects
import UrBackup.FileIndex.LMDBFileIndex
import UrBackup.Linked.Chains

namespace urbackup.fileentries

open stringtools Store

/-- The key as `memcmp` orders it. -/
def SIndexKey.bytes (key : SIndexKey) : fileindex.SIndexKey :=
  ⟨key.hash, key.filesize, key.clientid⟩

theorem SIndexKey.bytes_injective : Function.Injective SIndexKey.bytes := by
  rintro ⟨hash, filesize, clientid⟩ ⟨hash', filesize', clientid'⟩ h
  simpa [bytes] using h

/-- A key nothing was copied into. -/
def SIndexKey.zero : SIndexKey :=
  ⟨List.replicate bytes_in_index 0, 0, 0⟩

/-- A row of the `files` table with its id. -/
structure Row where
  id : Nat
  entry : FileEntry
deriving DecidableEq

/-- The variables of `create` between two rows: the new database and the index,
the greatest key the index has, and what is remembered of the row before. -/
structure CreateState where
  store : Store
  greatest : Option SIndexKey
  last : SIndexKey
  last_prev_entry : Nat
  last_id : Nat

/-- `put` with `MDB_APPEND`, which takes greater keys only. -/
def CreateState.put (s : CreateState) (key : SIndexKey) (value : Nat) : Option CreateState :=
  if ∀ k ∈ s.greatest, k.bytes < key.bytes then
    some { s with store := s.store.put_delayed key value, greatest := some key }
  else none

/-- One row in the loop of `create`, none if the index has an error. -/
def createRow (s : CreateState) (row : Row) : Option CreateState :=
  let key := row.entry.key
  if key = s.last then
    let store := if s.last_prev_entry = 0 then s.store.setPrevEntry row.id s.last_id else s.store
    let store :=
      if row.entry.next_entry = 0 ∧ (s.last_prev_entry = 0 ∨ s.last_prev_entry = row.id) then
        store.setNextEntry s.last_id row.id
      else store
    let store := if row.entry.pointed_to then store.setPointedTo false row.id else store
    some { s with store, last := key, last_id := row.id, last_prev_entry := row.entry.prev_entry }
  else
    let store := if row.entry.pointed_to then s.store else s.store.setPointedTo true row.id
    (CreateState.put { s with store } key row.id).map
      ({ · with last := key, last_id := row.id, last_prev_entry := row.entry.prev_entry })

/-- The index is empty, and `last_prev_entry` and `last_id` are not initialized. -/
def CreateState.initial (files : Nat → Option FileEntry) (last_prev_entry last_id : Nat) : CreateState :=
  ⟨⟨files, fun _ => 0⟩, none, .zero, last_prev_entry, last_id⟩

/-- `LMDBFileIndex::create`. Storage that is full or fails is left out. -/
def create (files : Nat → Option FileEntry) (last_prev_entry last_id : Nat) (rows : List Row) : Option Store :=
  (rows.foldlM createRow (.initial files last_prev_entry last_id)).map CreateState.store

/-- `UPDATE files SET next_entry=0, prev_entry=0, pointed_to=0 WHERE …`. -/
def resetPointers (files : Nat → Option FileEntry) (id : Nat) : Option FileEntry :=
  (files id).map fun r =>
    if r.shahash.length < 16 ∨ r.filesize < link_file_min_size then
      { r with next_entry := 0, prev_entry := 0, pointed_to := false }
    else r

/-- `ORDER BY shahash ASC, filesize ASC, clientid ASC, created DESC`. -/
def orderBy (created : Nat → Nat) (row : Row) : Lex (List Nat × Lex (Nat × Lex (Nat × Natᵒᵈ))) :=
  toLex (row.entry.shahash.map UInt8.toNat, toLex (row.entry.filesize, toLex (row.entry.clientid, .toDual (created row.id))))

/-- What the query `q_read` of `create_files_index_common` returns. Rows that
are equal in the order come as the database has them. -/
structure Selects (files : Nat → Option FileEntry) (created : Nat → Nat) (rows : List Row) : Prop where
  nodup : (rows.map Row.id).Nodup
  mem_iff : ∀ row, row ∈ rows ↔ files row.id = some row.entry ∧
    16 ≤ row.entry.shahash.length ∧ row.entry.filesize > link_file_min_size
  sorted : rows.Pairwise fun a b => orderBy created a ≤ orderBy created b

/-- `create_files_index_common`: the database is copied, the pointers are reset
in the old one, which is also read, and `create` writes to the copy, which
replaces the old one in the end. The old index was deleted before. -/
def create_files_index_common (q_read : (Nat → Option FileEntry) → List Row) (last_prev_entry last_id : Nat)
    (st : Store) : Option Store :=
  let files_new := st.files
  let db := resetPointers st.files
  create files_new last_prev_entry last_id (q_read db)

/-- What a row of the new table becomes when the loop is at a row. -/
def rowUpdate (s : CreateState) (row : Row) (a : Nat) (r : FileEntry) : FileEntry :=
  { r with
    next_entry :=
      if a = row.id ∧ row.entry.key = s.last ∧ row.entry.next_entry = 0 ∧
        (s.last_prev_entry = 0 ∨ s.last_prev_entry = row.id) then s.last_id else r.next_entry
    prev_entry := if a = s.last_id ∧ row.entry.key = s.last ∧ s.last_prev_entry = 0 then row.id else r.prev_entry
    pointed_to := if a = row.id then row.entry.key ≠ s.last else r.pointed_to }

/-- What the loop does with a row. -/
structure RowDone (s : CreateState) (row : Row) (s' : CreateState) : Prop where
  greater : row.entry.key ≠ s.last → ∀ k ∈ s.greatest, k.bytes < row.entry.key.bytes
  last : s'.last = row.entry.key
  last_prev_entry : s'.last_prev_entry = row.entry.prev_entry
  last_id : s'.last_id = row.id
  greatest : s'.greatest = if row.entry.key = s.last then s.greatest else some row.entry.key
  index : s'.store.index =
    if row.entry.key = s.last then s.store.index else Function.update s.store.index row.entry.key row.id
  files : ∀ a, s'.store.files a = (s.store.files a).map (rowUpdate s row a)

section UpdateIf

variable (st : Store) (c : Prop) [Decidable c] (id a : Nat)

theorem updateIf_index (f : FileEntry → FileEntry) : (if c then st.update id f else st).index = st.index := by
  split <;> rfl

theorem updateIf_files (f : FileEntry → FileEntry) :
    (if c then st.update id f else st).files a = (st.files a).map fun r => if a = id ∧ c then f r else r := by
  by_cases hc : c
  · simp [update_files, hc]
  · simp [hc]

theorem setNextIf_files (n : Nat) : (if c then st.setNextEntry n id else st).files a =
    (st.files a).map fun r => { r with next_entry := if a = id ∧ c then n else r.next_entry } := by
  rw [setNextEntry, updateIf_files]
  congr 1
  funext r
  split <;> rfl

theorem setPrevIf_files (n : Nat) : (if c then st.setPrevEntry n id else st).files a =
    (st.files a).map fun r => { r with prev_entry := if a = id ∧ c then n else r.prev_entry } := by
  rw [setPrevEntry, updateIf_files]
  congr 1
  funext r
  split <;> rfl

theorem setPointedIf_files (b : Bool) : (if c then st.setPointedTo b id else st).files a =
    (st.files a).map fun r => { r with pointed_to := if a = id ∧ c then b else r.pointed_to } := by
  rw [setPointedTo, updateIf_files]
  congr 1
  funext r
  split <;> rfl

end UpdateIf

theorem put_eq_some {s s' : CreateState} {key : SIndexKey} {value : Nat} (h : s.put key value = some s') :
    (∀ k ∈ s.greatest, k.bytes < key.bytes) ∧
      s' = { s with store := s.store.put_delayed key value, greatest := some key } := by
  unfold CreateState.put at h
  split at h
  · next hlt => exact ⟨hlt, (Option.some.inj h).symm⟩
  · cases h

theorem createRow_done {s s' : CreateState} {row : Row} (hrow : s.store.files row.id = some row.entry)
    (h : createRow s row = some s') : RowDone s row s' := by
  -- the row was read from the old database, where it has the same flag
  have hflag : ∀ a r, s.store.files a = some r → a = row.id → r.pointed_to = row.entry.pointed_to := by
    intro a r hr ha
    rw [ha, hrow] at hr
    rw [Option.some.inj hr]
  unfold createRow at h
  by_cases hkey : row.entry.key = s.last
  · simp only [hkey, if_true, Option.some.injEq] at h
    subst h
    refine ⟨fun hne => absurd hkey hne, hkey.symm, rfl, rfl, by simp [hkey], ?_, fun a => ?_⟩
    · simp only [setPointedTo, setNextEntry, setPrevEntry, updateIf_index, hkey, if_true]
    · simp only [setPointedIf_files, setNextIf_files, setPrevIf_files, Option.map_map]
      refine Option.map_congr fun r hr => ?_
      have hpointed := hflag a r hr
      simp only [Function.comp_apply, rowUpdate, hkey, true_and, ne_eq, not_true, decide_false]
      grind
  · simp only [hkey, if_false, Option.map_eq_some_iff] at h
    obtain ⟨s1, hput, rfl⟩ := h
    obtain ⟨hlt, rfl⟩ := put_eq_some hput
    have hstore : (if row.entry.pointed_to = true then s.store else s.store.setPointedTo true row.id) =
        if ¬ row.entry.pointed_to = true then s.store.setPointedTo true row.id else s.store := by
      rw [ite_not]
    refine ⟨fun _ => hlt, rfl, rfl, rfl, by simp [hkey], ?_, fun a => ?_⟩
    · simp only [hstore, put_delayed, hkey, if_false]
      rw [setPointedTo, updateIf_index]
    · simp only [hstore, put_delayed, setPointedIf_files]
      refine Option.map_congr fun r hr => ?_
      have hpointed := hflag a r hr
      simp only [rowUpdate, hkey, false_and, and_false, if_false, ne_eq, not_false_iff, decide_true]
      grind

end urbackup.fileentries
