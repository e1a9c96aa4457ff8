import UrBackup.FileEntries.Lists

namespace urbackup.fileentries

open stringtools Store

section Calls

variable {st : Store} {chains : List (List Nat)}

theorem placeNewForClient_sound (h : Lists st chains) (key : SIndexKey) (prev_entry_clientid : Nat)
    (update_fileindex : Bool) : (placeNewForClient st key prev_entry_clientid update_fileindex).Sound st key := by
  unfold placeNewForClient
  by_cases hc : prev_entry_clientid = 0
  · exact Or.inl (by simp [hc])
  · simp only [ne_eq, hc, not_false_eq_true, if_true]
    split
    · exact Or.inl ⟨rfl, rfl⟩
    · next hne =>
      obtain ⟨r, hr, hkey, _⟩ := h.indexed key hne
      rw [hr]
      exact Or.inr ⟨r, hr, hkey, rfl⟩

/-- The place of a copied file's row: nowhere, whatever the table holds. -/
theorem addPlace_copied (key : SIndexKey) (clientid : Nat) (update_fileindex : Bool) :
    addPlace st key clientid 0 0 0 update_fileindex = ⟨0, 0, update_fileindex⟩ := by
  simp [addPlace, newForClient, placeNewForClient]

/-- The place of a linked file's row. -/
theorem addPlace_linked (h : Lists st chains) {existing : Nat} {e : FileEntry} (he : st.files existing = some e)
    (clientid : Nat) (copied_file : Bool) (key : SIndexKey) (hkey : indexKey e.shahash e.filesize clientid = key) :
    (addPlace st key clientid existing e.clientid e.next_entry copied_file).Sound st key ∧
      (e.clientid = clientid →
        addPlace st key clientid existing e.clientid e.next_entry copied_file = ⟨existing, e.next_entry, copied_file⟩) ∧
      (e.clientid ≠ clientid → addPlace st key clientid existing e.clientid e.next_entry copied_file =
        placeNewForClient st key e.clientid copied_file) := by
  have hne := h.row_ne_zero he
  by_cases hclient : e.clientid = clientid
  · have hplace : addPlace st key clientid existing e.clientid e.next_entry copied_file =
        ⟨existing, e.next_entry, copied_file⟩ := by
      simp [addPlace, newForClient, hclient, hne]
    refine ⟨?_, fun _ => hplace, fun hdiff => absurd hclient hdiff⟩
    rw [hplace]
    refine Or.inr ⟨e, he, ?_, rfl⟩
    rw [FileEntry.key, hclient, hkey]
  · have hplace : addPlace st key clientid existing e.clientid e.next_entry copied_file =
        placeNewForClient st key e.clientid copied_file := by
      simp [addPlace, newForClient, hclient]
    refine ⟨?_, fun heq => absurd heq hclient, fun _ => hplace⟩
    rw [hplace]
    exact placeNewForClient_sound h key e.clientid copied_file

end Calls

/-- The rows form disjoint doubly linked lists of one hash, size and client
each, and every index value is a row of its key. -/
def WellFormed (st : Store) : Prop :=
  ∃ chains, linked.Chains 0 st.links st.Cell chains ∧ linked.Uniform st.identityOf chains ∧
    ∀ k, st.index k ≠ 0 → ∃ r, st.files (st.index k) = some r ∧ r.key = k

/-- If the file was linked to another client's row, the row that the index names
for the client itself has the same hash, not only the same first bytes. -/
def HashAgrees (st : Store) : Call → Prop
  | .addLinked _ shahash filesize clientid existing _ =>
    ∀ e, st.files existing = some e → e.clientid ≠ clientid →
      ∀ r, st.files (st.index (indexKey shahash filesize clientid)) = some r → r.shahash = shahash
  | _ => True

/-- The predecessor of a linked file's row is about the same file. -/
theorem addPlace_linked_identity {st : Store} {chains : List (List Nat)} (h : Lists st chains) {shahash : Bytes}
    {filesize clientid n existing : Nat} {copied_file : Bool} {e : FileEntry} (he : st.files existing = some e)
    (hhash : e.shahash = shahash) (hfs : e.filesize = filesize)
    (hcond : HashAgrees st (.addLinked n shahash filesize clientid existing copied_file)) {place : Place}
    (hplace : addPlace st (indexKey shahash filesize clientid) clientid existing e.clientid e.next_entry
      copied_file = place) (hprev : place.prev_entry ≠ 0) :
    st.identityOf place.prev_entry = some (shahash, filesize, clientid) := by
  obtain ⟨_, hown, hother⟩ := addPlace_linked h he clientid copied_file _ (by rw [hhash, hfs])
  by_cases hclient : e.clientid = clientid
  · rw [hown hclient] at hplace
    simp [← hplace, Store.identityOf, he, FileEntry.identity, hhash, hfs, hclient]
  · rw [hother hclient] at hplace
    have hc0 := (h.proper existing e he).2
    have hindex : st.index (indexKey shahash filesize clientid) ≠ 0 := by
      intro heq
      simp [← hplace, placeNewForClient, heq] at hprev
    obtain ⟨r, hr, hkey, _⟩ := h.indexed _ hindex
    have hp : place.prev_entry = st.index (indexKey shahash filesize clientid) := by
      simp [← hplace, placeNewForClient, hc0, hindex, hr]
    -- the key fixes size and client, the condition the hash
    have hrhash := hcond e he hclient r hr
    simp only [FileEntry.key, indexKey, SIndexKey.mk.injEq] at hkey
    simp [hp, Store.identityOf, hr, FileEntry.identity, hrhash, hkey.2.1, hkey.2.2]

section Identity

variable {st : Store} {chains : List (List Nat)}

theorem Lists.uniform_add (h : Lists st chains) (hu : linked.Uniform st.identityOf chains) {n : Nat}
    {shahash : Bytes} {filesize clientid prev_entry prev_entry_clientid next_entry : Nat} {update_fileindex : Bool}
    {key : SIndexKey} {place : Place} {indexed : Bool}
    (hadd : AddsAt st shahash filesize clientid prev_entry prev_entry_clientid next_entry update_fileindex key
      place indexed) (hsound : place.Sound st key) (hnew : st.files n = none) (hn : n ≠ 0)
    (hid : place.prev_entry ≠ 0 → st.identityOf place.prev_entry = some (shahash, filesize, clientid)) (st' : Store)
    (hst' : addFileSQL st n shahash filesize clientid prev_entry prev_entry_clientid next_entry update_fileindex = st') :
    ∃ chains', Lists st' chains' ∧ linked.Uniform st'.identityOf chains' := by
  obtain ⟨chains', hext, hlists⟩ := h.add hadd hsound hnew hn st' hst'
  obtain ⟨_, hidn, hids⟩ := addFileSQL_lists h hadd hsound hnew hn st' hst'
  have hold : ∀ a ∈ chains.flatten, st'.identityOf a = st.identityOf a := by
    intro a ha
    refine hids a fun heq => ?_
    exact (h.partition.cover a).mp ha (heq ▸ hnew)
  refine ⟨chains', hlists, ?_⟩
  cases hext with
  | lone _ => exact hu.push hold
  | behind =>
    refine hu.insertAfter hold ?_
    have hcell : st.Cell place.prev_entry := (h.partition.cover _).mp (by simp)
    rw [hidn, hid fun heq => h.partition.null_free (heq ▸ hcell)]

theorem Lists.uniform_delete (h : Lists st chains) (hu : linked.Uniform st.identityOf chains) {id : Nat}
    {e : FileEntry} (he : st.files id = some e) (st' : Store)
    (hst' : deleteFileSQL st e.shahash e.filesize e.clientid id e.prev_entry e.next_entry e.pointed_to = st') :
    ∃ chains', Lists st' chains' ∧ linked.Uniform st'.identityOf chains' := by
  obtain ⟨before, pre, post, after, rfl, hlists, hids⟩ := h.delete he st' hst'
  refine ⟨_, hlists, hu.remove fun a ha => hids a fun heq => ?_⟩
  have hcell := (hlists.partition.cover a).mp ha
  apply hcell
  rw [← hst', heq]
  obtain ⟨hp, hn⟩ := h.links_ne he
  rw [deleteFileSQL_files e.shahash e.clientid (h.proper id e he).1 hp hn, if_pos rfl]

/-- Under the condition a call keeps every list about one file. -/
theorem Lists.uniform_call (h : Lists st chains) (hu : linked.Uniform st.identityOf chains) {call : Call}
    (hvalid : call.Valid st) (hcond : HashAgrees st call) :
    ∃ chains', Lists (call.run st) chains' ∧ linked.Uniform (call.run st).identityOf chains' := by
  cases call with
  | addCopied n shahash filesize clientid update_fileindex =>
    obtain ⟨hn, hnew, hsize, hc⟩ := hvalid
    have hplace := @addPlace_copied st (indexKey shahash filesize clientid) clientid update_fileindex
    refine h.uniform_add hu ⟨hsize, hc, rfl, hplace, rfl⟩ (Or.inl ⟨rfl, rfl⟩) hnew hn ?_ _ rfl
    exact fun hne => absurd rfl hne
  | addLinked n shahash filesize clientid existing copied_file =>
    obtain ⟨hn, hnew, hsize, hc, e, he, hhash, hfs⟩ := hvalid
    have hrun := Call.run_addLinked he n shahash filesize clientid copied_file
    have hsound := (addPlace_linked h he clientid copied_file _ (by rw [hhash, hfs])).1
    refine h.uniform_add hu ⟨hsize, hc, rfl, rfl, rfl⟩ hsound hnew hn ?_ _ hrun.symm
    exact addPlace_linked_identity h he hhash hfs hcond rfl
  | delete id =>
    obtain ⟨e, he⟩ := Option.ne_none_iff_exists'.mp hvalid
    exact h.uniform_delete hu he _ (Call.run_delete he).symm

end Identity

theorem Reached.lists {st : Store} (h : Reached HashAgrees st) :
    ∃ chains, Lists st chains ∧ linked.Uniform st.identityOf chains := by
  induction h with
  | start =>
    refine ⟨[], Lists.empty, ?_⟩
    intro c hc
    simp at hc
  | step _ hvalid hcond ih =>
    obtain ⟨chains, hlists, hu⟩ := ih
    exact hlists.uniform_call hu hvalid hcond

/-- The file-entry lists stay well formed along every run in which no file is
linked behind a row with another hash. -/
theorem reached_wellFormed {st : Store} (h : Reached HashAgrees st) : WellFormed st := by
  obtain ⟨chains, hlists, hu⟩ := h.lists
  refine ⟨chains, hlists.partition, hu, fun k hk => ?_⟩
  obtain ⟨r, hr, hkey, _⟩ := hlists.indexed k hk
  exact ⟨r, hr, hkey⟩

theorem reached_wellFormed_relink : WellFormed ([
    .addCopied 1 (List.replicate 64 7) 4096 1 false, .addLinked 2 (List.replicate 64 7) 4096 1 1 false,
    .addLinked 3 (List.replicate 64 7) 4096 2 2 false, .delete 1].foldl Call.run .empty) := by
  refine reached_wellFormed (Reached.start.run ⟨?_, trivial, ?_, ?_, ?_, ?_, ?_, trivial, trivial⟩)
  · exact ⟨by decide, rfl, by decide, by decide⟩
  · exact ⟨by decide, rfl, by decide, by decide, _, rfl, rfl, rfl⟩
  · intro e he hclient
    cases he
    exact absurd rfl hclient
  · exact ⟨by decide, rfl, by decide, by decide, _, rfl, rfl, rfl⟩
  · intro e _ _ r hr
    exact absurd hr (Option.eq_none_iff_forall_ne_some.mp rfl r)
  · exact Option.isSome_iff_ne_none.mp rfl

/-- Two hashes with the same first bytes: a row of one client ends up behind a
row with the other hash. -/
theorem wellFormed_prefix_collision : ¬ ∀ st, Reached (fun _ _ => True) st → WellFormed st := by
  intro hall
  let one : Bytes := List.replicate 64 0
  let two : Bytes := List.replicate 63 0 ++ [1]
  let calls : List Call :=
    [.addCopied 1 one 4096 1 false, .addCopied 2 two 4096 2 false, .addLinked 3 two 4096 1 2 false]
  have hreached : Reached (fun _ _ => True) (calls.foldl Call.run .empty) := by
    refine Reached.start.run ⟨?_, trivial, ?_, trivial, ?_, trivial, trivial⟩
    · exact ⟨by decide, rfl, by decide, by decide⟩
    · exact ⟨by decide, rfl, by decide, by decide⟩
    · exact ⟨by decide, rfl, by decide, by decide, _, rfl, rfl, rfl⟩
  obtain ⟨chains, hchains, hu, _⟩ := hall _ hreached
  have hcell : (calls.foldl Call.run .empty).Cell 1 := by decide +kernel
  have hnext : (calls.foldl Call.run .empty).links.next 1 = 3 := by decide +kernel
  have hsame := hu.next_eq hchains hcell (by rw [hnext]; decide)
  rw [hnext] at hsame
  have hdiff : (calls.foldl Call.run .empty).identityOf 3 ≠ (calls.foldl Call.run .empty).identityOf 1 := by
    decide +kernel
  exact hdiff hsame

/-- A file that a hash thread links to the row `existing` of its own client,
and the id its new row gets. -/
structure Insertion where
  shahash : Bytes
  filesize : Nat
  clientid : Nat
  existing : Nat
  entryid : Nat
  copied_file : Bool

def Insertion.identity (ins : Insertion) : Bytes × Nat × Nat :=
  (ins.shahash, ins.filesize, ins.clientid)

def Insertion.key (ins : Insertion) : SIndexKey :=
  indexKey ins.shahash ins.filesize ins.clientid

/-- Where a hash thread is between two statements, with the values it has read
so far. -/
inductive Phase where
  | start
  | found (next_entry : Nat)
  | flagRead (next_entry : Nat) (pointed_to : Bool)
  | indexRead (next_entry client_entryid : Nat)
  | cleared (next_entry : Nat)
  | added (next_entry : Nat)
  | nextSet (next_entry : Nat)
  | prevSet
  | finished

/-- The next statement of a hash thread: the read of `findFileHash`, then those
of `addFileSQL` and `addFileEntryExternal`. -/
def Insertion.step (ins : Insertion) (st : Store) : Phase → Store × Phase
  | .start => (st, .found (((st.files ins.existing).map FileEntry.next_entry).getD 0))
  | .found next_entry =>
    if ins.copied_file then (st, .flagRead next_entry ((st.files ins.existing).any FileEntry.pointed_to))
    else (st, .cleared next_entry)
  | .flagRead next_entry true => (st.setPointedTo false ins.existing, .cleared next_entry)
  | .flagRead next_entry false => (st, .indexRead next_entry (st.index ins.key))
  | .indexRead next_entry client_entryid =>
    (if client_entryid ≠ 0 then st.setPointedTo false client_entryid else st, .cleared next_entry)
  | .cleared next_entry =>
    (st.addFileEntry ins.entryid
      ⟨ins.shahash, ins.filesize, ins.clientid, next_entry, ins.existing, ins.copied_file⟩, .added next_entry)
  | .added next_entry =>
    (if ins.existing ≠ 0 then st.setNextEntry ins.entryid ins.existing else st, .nextSet next_entry)
  | .nextSet next_entry => (if next_entry ≠ 0 then st.setPrevEntry ins.entryid next_entry else st, .prevSet)
  | .prevSet => (if ins.copied_file then st.put_delayed ins.key ins.entryid else st, .finished)
  | .finished => (st, .finished)

section Threads

variable {W : Type}

/-- The shared tables and the phases of the hash threads. -/
structure Threads (W : Type) where
  store : Store
  phase : W → Phase

def Threads.begin (st : Store) : Threads W :=
  ⟨st, fun _ => .start⟩

/-- The threads link to rows of their files, and the database gives each new
row an unused id. -/
structure Prepared (st : Store) (ins : W → Insertion) : Prop where
  found : ∀ w, st.identityOf (ins w).existing = some (ins w).identity
  unused : ∀ w, st.files (ins w).entryid = none
  nonzero : ∀ w, (ins w).entryid ≠ 0
  distinct : Function.Injective fun w => (ins w).entryid

variable [DecidableEq W]

/-- One thread executes its next statement. -/
def Threads.step (ins : W → Insertion) (t : Threads W) (w : W) : Threads W :=
  let (store, phase) := (ins w).step t.store (t.phase w)
  ⟨store, Function.update t.phase w phase⟩

/-- The states that interleavings reach, if every statement meets `Cond` in the
state it finds. -/
inductive Interleaved (Cond : (W → Insertion) → Threads W → W → Prop) (ins : W → Insertion) (t : Threads W) :
    Threads W → Prop where
  | start : Interleaved Cond ins t t
  | step {t' : Threads W} (w : W) (hrun : Interleaved Cond ins t t') (hcond : Cond ins t' w) :
      Interleaved Cond ins t (t'.step ins w)

/-- The statements can be executed in this order and all meet `Cond`. -/
def Scheduled (Cond : (W → Insertion) → Threads W → W → Prop) (ins : W → Insertion) : Threads W → List W → Prop
  | _, [] => True
  | t, w :: ws => Cond ins t w ∧ Scheduled Cond ins (t.step ins w) ws

theorem Interleaved.run {Cond : (W → Insertion) → Threads W → W → Prop} {ins : W → Insertion} {t t' : Threads W}
    (h : Interleaved Cond ins t t') {ws : List W} (hws : Scheduled Cond ins t' ws) :
    Interleaved Cond ins t (ws.foldl (Threads.step ins) t') := by
  induction ws generalizing t' with
  | nil => exact h
  | cons w ws ih => exact ih (.step w h hws.1) hws.2

/-- When a thread links the existing row to its new one, the existing row still
has the successor that the thread read. -/
def Timely (ins : W → Insertion) (t : Threads W) (w : W) : Prop :=
  ∀ next_entry, t.phase w = .added next_entry → t.store.links.next (ins w).existing = next_entry

end Threads

end urbackup.fileentries
