import UrBackup.FileEntries.ServerHash
import UrBackup.Linked.Chains

namespace urbackup.fileentries

open stringtools

namespace Store

/-- The row ids in use. -/
def Cell (st : Store) (id : Nat) : Prop :=
  st.files id ≠ none

instance (st : Store) (id : Nat) : Decidable (st.Cell id) :=
  inferInstanceAs (Decidable (_ ≠ _))

/-- The links of the rows, 0 outside the table. -/
def links (st : Store) : linked.Links Nat where
  next id := ((st.files id).map FileEntry.next_entry).getD 0
  prev id := ((st.files id).map FileEntry.prev_entry).getD 0

/-- The index key of a row. -/
def keyOf (st : Store) (id : Nat) : Option SIndexKey :=
  (st.files id).map FileEntry.key

theorem links_next {st : Store} {id : Nat} {r : FileEntry} (h : st.files id = some r) :
    st.links.next id = r.next_entry := by
  simp [links, h]

theorem links_prev {st : Store} {id : Nat} {r : FileEntry} (h : st.files id = some r) :
    st.links.prev id = r.prev_entry := by
  simp [links, h]

@[simp] theorem update_index (st : Store) (id : Nat) (f : FileEntry → FileEntry) :
    (st.update id f).index = st.index := rfl

theorem update_files (st : Store) (id a : Nat) (f : FileEntry → FileEntry) :
    (st.update id f).files a = (st.files a).map fun r => if a = id then f r else r := by
  by_cases h : a = id
  · subst h
    simp [update]
  · simp [update, h]

end Store

open Store

theorem setNextEntry_files (st : Store) (n p a : Nat) :
    (if p ≠ 0 then st.setNextEntry n p else st).files a =
      (st.files a).map fun r => { r with next_entry := if p ≠ 0 ∧ a = p then n else r.next_entry } := by
  by_cases hp : p = 0
  · simp [hp]
  · rw [if_pos hp, setNextEntry, update_files]
    congr 1
    funext r
    by_cases ha : a = p <;> simp [hp, ha]

theorem setPrevEntry_files (st : Store) (n p a : Nat) :
    (if p ≠ 0 then st.setPrevEntry n p else st).files a =
      (st.files a).map fun r => { r with prev_entry := if p ≠ 0 ∧ a = p then n else r.prev_entry } := by
  by_cases hp : p = 0
  · simp [hp]
  · rw [if_pos hp, setPrevEntry, update_files]
    congr 1
    funext r
    by_cases ha : a = p <;> simp [hp, ha]

/-- The row after links to a new row `n` between `p` and `nx` were made. -/
def relink (n p nx a : Nat) (r : FileEntry) : FileEntry :=
  { r with
    next_entry := if p ≠ 0 ∧ a = p then n else r.next_entry
    prev_entry := if nx ≠ 0 ∧ a = nx then n else r.prev_entry }

theorem addFileEntryExternal_index (st : Store) (n : Nat) (entry : FileEntry) :
    (st.addFileEntryExternal n entry).index = st.index := by
  unfold addFileEntryExternal
  split <;> split <;> rfl

/-- `addFileEntryExternal` adds the row and relinks its neighbours. -/
theorem addFileEntryExternal_files {st : Store} {n : Nat} (entry : FileEntry) (hp : entry.prev_entry ≠ n)
    (hnx : entry.next_entry ≠ n) (a : Nat) :
    (st.addFileEntryExternal n entry).files a =
      if a = n then some entry else (st.files a).map (relink n entry.prev_entry entry.next_entry a) := by
  unfold addFileEntryExternal
  rw [setPrevEntry_files, setNextEntry_files]
  by_cases han : a = n
  · subst han
    simp [addFileEntry, Ne.symm hp, Ne.symm hnx]
  · simp only [addFileEntry, Function.update_of_ne han, if_neg han, Option.map_map, Function.comp_def]
    rfl

theorem clearPointedTo_index (st : Store) (key : SIndexKey) (p : Nat) :
    (clearPointedTo st key p).index = st.index := by
  unfold clearPointedTo
  split
  · rfl
  · split <;> rfl

/-- The row whose flag `clearPointedTo` takes away. -/
def clearedRow (st : Store) (key : SIndexKey) (p : Nat) : Nat :=
  if (st.files p).any FileEntry.pointed_to then p else st.index key

theorem clearPointedTo_files {st : Store} (hzero : st.files 0 = none) (key : SIndexKey) (p a : Nat) :
    (clearPointedTo st key p).files a =
      (st.files a).map fun r => { r with pointed_to := r.pointed_to && a ≠ clearedRow st key p } := by
  have hset : ∀ id, (st.setPointedTo false id).files a =
      (st.files a).map fun r => { r with pointed_to := r.pointed_to && a ≠ id } := by
    intro id
    rw [setPointedTo, update_files]
    congr 1
    funext r
    by_cases ha : a = id <;> simp [ha]
  unfold clearPointedTo clearedRow
  split
  · exact hset p
  · split
    · exact hset _
    · next hindex =>
      simp only [ne_eq, not_not] at hindex
      rw [hindex]
      cases ha : a with
      | zero => simp [hzero]
      | succ a => simp

/-- A row of the table after a new row `n` was added at a place. -/
def addUpdate (st : Store) (key : SIndexKey) (n : Nat) (place : Place) (a : Nat) (r : FileEntry) : FileEntry :=
  relink n place.prev_entry place.next_entry a { r with
    pointed_to := r.pointed_to &&
      !(place.update_fileindex && place.prev_entry ≠ 0 && a = clearedRow st key place.prev_entry) }

section AddFileSQL

variable (st : Store) (n : Nat) (shahash : Bytes) (filesize clientid prev_entry prev_entry_clientid
  next_entry : Nat) (update_fileindex : Bool) (key : SIndexKey) (place : Place) (indexed : Bool)

/-- The row goes to the place, and is indexed or not. -/
structure AddsAt : Prop where
  size_le : link_file_min_size ≤ filesize
  client_ne : clientid ≠ 0
  key_eq : indexKey shahash filesize clientid = key
  place_eq : addPlace st key clientid prev_entry prev_entry_clientid next_entry update_fileindex = place
  indexed_eq : (newForClient clientid prev_entry prev_entry_clientid || place.update_fileindex) = indexed

variable {st n shahash filesize clientid prev_entry prev_entry_clientid next_entry update_fileindex key place indexed}

/-- `addFileSQL` adds one row and updates the others in place. -/
theorem addFileSQL_files (h : AddsAt st shahash filesize clientid prev_entry prev_entry_clientid next_entry
      update_fileindex key place indexed) (hzero : st.files 0 = none) (hp : place.prev_entry ≠ n)
    (hnx : place.next_entry ≠ n) (a : Nat) :
    (addFileSQL st n shahash filesize clientid prev_entry prev_entry_clientid next_entry update_fileindex).files a =
      if a = n then some ⟨shahash, filesize, clientid, place.next_entry, place.prev_entry, indexed⟩
      else (st.files a).map (addUpdate st key n place a) := by
  obtain ⟨hsize, _, rfl, rfl, rfl⟩ := h
  have hput : ∀ (b : Bool) (st' : Store) (k : SIndexKey), (if b then st'.put_delayed k n else st').files = st'.files := by
    intro b st' k
    cases b <;> rfl
  simp only [addFileSQL, Nat.not_lt.mpr hsize, if_false, hput]
  generalize indexKey shahash filesize clientid = key at hp hnx ⊢
  generalize addPlace st key clientid prev_entry prev_entry_clientid next_entry update_fileindex = place at hp hnx ⊢
  have hclear : (if (place.update_fileindex && decide (place.prev_entry ≠ 0)) = true then
      clearPointedTo st key place.prev_entry else st).files a = (st.files a).map fun r => { r with
        pointed_to := r.pointed_to &&
          !(place.update_fileindex && place.prev_entry ≠ 0 && a = clearedRow st key place.prev_entry) } := by
    generalize (place.update_fileindex && decide (place.prev_entry ≠ 0)) = clears
    cases clears with
    | true => simpa using clearPointedTo_files hzero key place.prev_entry a
    | false => simp
  rw [addFileEntryExternal_files _ hp hnx, hclear]
  split
  · rfl
  · simp only [Option.map_map, Function.comp_def]
    rfl

theorem addFileSQL_index (h : AddsAt st shahash filesize clientid prev_entry prev_entry_clientid next_entry
      update_fileindex key place indexed) :
    (addFileSQL st n shahash filesize clientid prev_entry prev_entry_clientid next_entry update_fileindex).index =
      if indexed then Function.update st.index key n else st.index := by
  obtain ⟨hsize, _, rfl, rfl, rfl⟩ := h
  simp only [addFileSQL, Nat.not_lt.mpr hsize, if_false]
  generalize indexKey shahash filesize clientid = key
  generalize addPlace st key clientid prev_entry prev_entry_clientid next_entry update_fileindex = place
  have hclear : (if (place.update_fileindex && decide (place.prev_entry ≠ 0)) = true then
      clearPointedTo st key place.prev_entry else st).index = st.index := by
    split
    · exact clearPointedTo_index st key place.prev_entry
    · rfl
  split
  · simp only [put_delayed, addFileEntryExternal_index, hclear]
  · rw [addFileEntryExternal_index, hclear]

end AddFileSQL

/-- The neighbour that takes over the index entry of a deleted row, 0 if there
is none. -/
def heir (prev_id next_id : Nat) : Nat :=
  if next_id ≠ 0 then next_id else prev_id

/-- A row of the table after its neighbour `id` was deleted. -/
def deleteUpdate (prev_id next_id : Nat) (pointed_to : Bool) (a : Nat) (r : FileEntry) : FileEntry :=
  { r with
    next_entry := if prev_id ≠ 0 ∧ a = prev_id then next_id else r.next_entry
    prev_entry := if next_id ≠ 0 ∧ a = next_id then prev_id else r.prev_entry
    pointed_to := r.pointed_to || (pointed_to && heir prev_id next_id ≠ 0 && a = heir prev_id next_id) }

section Delete

variable {st : Store} {id prev_id next_id : Nat} {pointed_to : Bool}

theorem deleteIndex_files (key : SIndexKey) (hprev : prev_id ≠ id) (hnext : next_id ≠ id) (a : Nat) :
    (deleteIndex st key id prev_id next_id pointed_to).files a = (st.files a).map fun r => { r with
      pointed_to := r.pointed_to || (pointed_to && heir prev_id next_id ≠ 0 && a = heir prev_id next_id) } := by
  have hset : ∀ b, (st.setPointedTo true b).files a =
      (st.files a).map fun r => { r with pointed_to := r.pointed_to || decide (a = b) } := by
    intro b
    rw [setPointedTo, update_files]
    congr 1
    funext r
    by_cases ha : a = b <;> simp [ha]
  unfold deleteIndex heir
  by_cases hn : next_id = 0
  · by_cases hp : prev_id = 0
    · simp only [hn, hp, and_self, if_true, ne_eq, not_true, decide_false, Bool.and_false, Bool.false_and,
        Bool.or_false, if_false]
      split <;> simp [del_delayed, put_delayed]
    · cases pointed_to <;> simp [hn, hp, hprev, put_delayed, hset]
  · cases pointed_to <;> simp [hn, hnext, put_delayed, hset]

theorem deleteIndex_index (key : SIndexKey) (hprev : prev_id ≠ id) (hnext : next_id ≠ id) :
    (deleteIndex st key id prev_id next_id pointed_to).index =
      if pointed_to ∧ (heir prev_id next_id ≠ 0 ∨ st.index key = 0 ∨ st.index key = id) then
        Function.update st.index key (heir prev_id next_id)
      else st.index := by
  unfold deleteIndex heir
  by_cases hn : next_id = 0
  · by_cases hp : prev_id = 0
    · simp only [hn, hp, and_self, if_true, ne_eq, not_true, false_or, if_false]
      split <;> rfl
    · cases pointed_to <;> simp [hn, hp, hprev, put_delayed, setPointedTo]
  · cases pointed_to <;> simp [hn, hnext, put_delayed, setPointedTo]

/-- `deleteFileSQL` removes one row and updates its neighbours in place. -/
theorem deleteFileSQL_files (pHash : Bytes) {filesize : Nat} (clientid : Nat)
    (hsize : link_file_min_size ≤ filesize) (hprev : prev_id ≠ id) (hnext : next_id ≠ id) (a : Nat) :
    (deleteFileSQL st pHash filesize clientid id prev_id next_id pointed_to).files a =
      if a = id then none else (st.files a).map (deleteUpdate prev_id next_id pointed_to a) := by
  unfold deleteFileSQL
  rw [if_neg fun h => absurd h.2.2 (Nat.not_lt.mpr hsize)]
  by_cases ha : a = id
  · subst ha
    simp [delFileEntry]
  · rw [if_neg ha]
    simp only [delFileEntry, Function.update_of_ne ha]
    rw [setNextEntry_files, setPrevEntry_files, deleteIndex_files _ hprev hnext]
    simp only [Option.map_map, Function.comp_def]
    rfl

theorem deleteFileSQL_index (pHash : Bytes) {filesize : Nat} (clientid : Nat)
    (hsize : link_file_min_size ≤ filesize) (hprev : prev_id ≠ id) (hnext : next_id ≠ id) :
    (deleteFileSQL st pHash filesize clientid id prev_id next_id pointed_to).index =
      if pointed_to ∧ (heir prev_id next_id ≠ 0 ∨ st.index (indexKey pHash filesize clientid) = 0 ∨
          st.index (indexKey pHash filesize clientid) = id) then
        Function.update st.index (indexKey pHash filesize clientid) (heir prev_id next_id)
      else st.index := by
  unfold deleteFileSQL
  rw [if_neg fun h => absurd h.2.2 (Nat.not_lt.mpr hsize), ← deleteIndex_index _ hprev hnext]
  simp only [delFileEntry]
  split <;> split <;> rfl

end Delete

end urbackup.fileentries
