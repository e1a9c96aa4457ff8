import UrBackup.FileEntries.HashThreads

namespace urbackup.fileentries

open stringtools Store

/-- No row of the key is in the table. -/
def Store.KeyUnused (st : Store) (key : SIndexKey) : Prop :=
  ∀ id r, st.files id = some r → r.key ≠ key

/-- The index maps exactly the keys that have rows, and the row it maps a key to
is the only flagged one of the key. -/
structure IndexComplete (st : Store) : Prop where
  mapped : ∀ k, st.index k ≠ 0 ↔ ∃ id r, st.files id = some r ∧ r.key = k
  named : ∀ k, st.index k ≠ 0 → ∃ r, st.files (st.index k) = some r ∧ r.key = k
  pointed : ∀ id r, st.files id = some r → (r.pointed_to = true ↔ st.index r.key = id)

/-- What keeps the index complete: there is one list per key, its key is
indexed, and only the indexed row is flagged. -/
structure IndexedLists (st : Store) (chains : List (List Nat)) : Prop where
  lists : Lists st chains
  distinct : (linked.labels st.keyOf chains).Nodup
  present : ∀ id r, st.files id = some r → st.index r.key ≠ 0
  flagged : ∀ id r, st.files id = some r → r.pointed_to = true → st.index r.key = id

theorem IndexedLists.empty : IndexedLists .empty [] := by
  refine ⟨.empty, ?_, ?_, ?_⟩
  · simp [linked.labels]
  · simp [Store.empty]
  · simp [Store.empty]

theorem IndexedLists.complete {st : Store} {chains : List (List Nat)} (h : IndexedLists st chains) :
    IndexComplete st := by
  refine ⟨?_, ?_, ?_⟩
  · intro k
    constructor
    · intro hk
      obtain ⟨r, hr, hkey, _⟩ := h.lists.indexed k hk
      exact ⟨_, r, hr, hkey⟩
    · rintro ⟨id, r, hr, rfl⟩
      exact h.present id r hr
  · intro k hk
    obtain ⟨r, hr, hkey, _⟩ := h.lists.indexed k hk
    exact ⟨r, hr, hkey⟩
  · intro id r hr
    refine ⟨h.flagged id r hr, fun heq => ?_⟩
    obtain ⟨r', hr', _, hpointed⟩ := h.lists.indexed r.key (h.present id r hr)
    rw [heq, hr, Option.some.injEq] at hr'
    rw [hr', hpointed]

section Add

variable {st : Store} {chains : List (List Nat)} {n : Nat} {shahash : Bytes}
  {filesize clientid prev_entry prev_entry_clientid next_entry : Nat} {update_fileindex : Bool} {key : SIndexKey}
  {place : Place} {indexed : Bool}

/-- The row that loses its flag is the indexed one. -/
theorem IndexedLists.clearedRow_eq (h : IndexedLists st chains) (hsound : place.Sound st key)
    (hprev : place.prev_entry ≠ 0) : clearedRow st key place.prev_entry = st.index key := by
  obtain ⟨hp, _⟩ | ⟨r, hr, hkey, _⟩ := hsound
  · exact absurd hp hprev
  · unfold clearedRow
    split
    · next hpointed =>
      rw [hr, Option.any_some] at hpointed
      rw [← hkey, h.flagged _ r hr hpointed]
    · rfl

/-- A new row keeps one list per key, if it comes behind a row of the key or is
its first one. -/
theorem IndexedLists.labels_extended (h : IndexedLists st chains) {chains' : List (List Nat)}
    (hext : Extended n place chains chains') {st' : Store}
    (hkeys : ∀ a ∈ chains.flatten, st'.keyOf a = st.keyOf a) (hkeyn : st'.keyOf n = some key)
    (hfirst : place.prev_entry = 0 → st.KeyUnused key) :
    (linked.labels st'.keyOf chains').Nodup := by
  have hsame := linked.labels_congr hkeys
  cases hext with
  | lone hlone =>
    have hcons : linked.labels st'.keyOf ([n] :: chains) = some (some key) :: linked.labels st.keyOf chains := by
      rw [← hsame, ← hkeyn]
      rfl
    rw [hcons, List.nodup_cons]
    refine ⟨fun hmem => ?_, h.distinct⟩
    obtain ⟨c, hc, heq⟩ := List.mem_map.mp hmem
    obtain ⟨a, ha, hakey⟩ := Option.map_eq_some_iff.mp heq
    obtain ⟨r, hr, hrkey⟩ := Option.map_eq_some_iff.mp hakey
    exact hfirst hlone a r hr hrkey
  | behind =>
    rw [linked.labels_insertAfter, hsame]
    exact h.distinct

theorem IndexedLists.add (h : IndexedLists st chains)
    (hadd : AddsAt st shahash filesize clientid prev_entry prev_entry_clientid next_entry update_fileindex key
      place indexed) (hsound : place.Sound st key) (hnew : st.files n = none) (hn : n ≠ 0)
    (hfirst : place.prev_entry = 0 → indexed = true ∧ st.KeyUnused key)
    (hbehind : place.prev_entry ≠ 0 → indexed = place.update_fileindex) (st' : Store)
    (hst' : addFileSQL st n shahash filesize clientid prev_entry prev_entry_clientid next_entry update_fileindex = st') :
    ∃ chains', IndexedLists st' chains' := by
  obtain ⟨chains', hext, hlists⟩ := h.lists.add hadd hsound hnew hn st' hst'
  obtain ⟨_, _, hids⟩ := addFileSQL_lists h.lists hadd hsound hnew hn st' hst'
  obtain ⟨hp, hnx⟩ := hsound.ne_fresh h.lists hnew hn
  have hfiles := fun a => hst' ▸ @addFileSQL_files st n _ _ _ _ _ _ _ _ _ _ hadd h.lists.files_zero hp hnx a
  have hindex := hst' ▸ @addFileSQL_index st n _ _ _ _ _ _ _ _ _ _ hadd
  have hkeyn : st'.keyOf n = some key := by
    simp only [Store.keyOf, hfiles, if_true, Option.map_some, Option.some.injEq]
    exact hadd.key_eq
  have hkeys : ∀ a ∈ chains.flatten, st'.keyOf a = st.keyOf a := fun a ha =>
    keyOf_congr (hids a fun heq => (h.lists.partition.cover a).mp ha (heq ▸ hnew))
  have hrows : ∀ a r, st'.files a = some r → (a = n ∧ r.key = key ∧ r.pointed_to = indexed) ∨
      ∃ r0, st.files a = some r0 ∧ r.key = r0.key ∧ (r.pointed_to = true → r0.pointed_to = true ∧
        (place.update_fileindex = true → place.prev_entry ≠ 0 → a ≠ st.index key)) := by
    intro a r hr
    rw [hfiles] at hr
    split at hr
    · next ha =>
      cases hr
      exact Or.inl ⟨ha, hadd.key_eq, rfl⟩
    · obtain ⟨r0, hr0, rfl⟩ := Option.map_eq_some_iff.mp hr
      refine Or.inr ⟨r0, hr0, rfl, fun hpointed => ?_⟩
      simp only [addUpdate, relink, Bool.and_eq_true, Bool.not_eq_true', Bool.and_eq_false_iff,
        decide_eq_false_iff_not] at hpointed
      refine ⟨hpointed.1, fun hu hp0 => ?_⟩
      rw [h.clearedRow_eq hsound hp0] at hpointed
      simpa [hu, hp0] using hpointed.2
  refine ⟨chains', hlists, h.labels_extended hext hkeys hkeyn (fun h0 => (hfirst h0).2), ?_, ?_⟩
  · intro a r hr
    cases hi : indexed with
    | true =>
      rw [hindex, hi, if_pos rfl]
      by_cases hk : r.key = key
      · rw [hk, Function.update_self]
        exact hn
      · rw [Function.update_of_ne hk]
        obtain ⟨_, hrkey, _⟩ | ⟨r0, hr0, hrkey, _⟩ := hrows a r hr
        · exact absurd hrkey hk
        · rw [hrkey]
          exact h.present a r0 hr0
    | false =>
      rw [hindex, hi, if_neg Bool.false_ne_true]
      obtain ⟨_, hrkey, _⟩ | ⟨r0, hr0, hrkey, _⟩ := hrows a r hr
      · obtain ⟨hp0, _⟩ | ⟨r1, hr1, hr1key, _⟩ := hsound
        · simp [hi] at hfirst
          exact absurd hp0 hfirst
        · rw [hrkey, ← hr1key]
          exact h.present _ r1 hr1
      · rw [hrkey]
        exact h.present a r0 hr0
  · intro a r hr hpointed
    obtain ⟨rfl, hrkey, hri⟩ | ⟨r0, hr0, hrkey, hflag⟩ := hrows a r hr
    · rw [hindex, ← hri, hpointed, if_pos rfl, hrkey, Function.update_self]
    · obtain ⟨hpointed0, hclear⟩ := hflag hpointed
      have heq := h.flagged a r0 hr0 hpointed0
      rw [hindex, hrkey]
      split
      · next hi =>
        -- the flag of the row that was indexed for the key is gone
        have hne : r0.key ≠ key := by
          intro hk
          by_cases hp0 : place.prev_entry = 0
          · exact (hfirst hp0).2 a r0 hr0 hk
          · exact hclear ((hbehind hp0).symm.trans hi) hp0 (by rw [← hk, heq])
        rw [Function.update_of_ne hne, heq]
      · exact heq

end Add

section Delete

variable {st : Store} {chains : List (List Nat)} {id : Nat} {e : FileEntry}

/-- A row without an heir is the only one of its key. -/
theorem IndexedLists.only_row (h : IndexedLists st chains) (he : st.files id = some e)
    (hheir : heir e.prev_entry e.next_entry = 0) {a : Nat} {r : FileEntry} (hr : st.files a = some r)
    (hkey : r.key = e.key) : a = id := by
  have hcell : st.Cell id := by simp [Store.Cell, he]
  have hcella : st.Cell a := by simp [Store.Cell, hr]
  have hnext : e.next_entry = 0 := by
    by_contra hne
    rw [heir, if_pos hne] at hheir
    exact hne hheir
  have hprev : e.prev_entry = 0 := by simpa [heir, hnext] using hheir
  obtain ⟨hpart, hu⟩ := And.intro h.lists.partition h.lists.uniform
  have hdistinct := h.distinct
  obtain ⟨before, pre, post, after, rfl⟩ := hpart.split hcell
  obtain ⟨rfl, rfl⟩ := hpart.alone (by rw [links_next he, hnext]) (by rw [links_prev he, hprev])
  by_contra hne
  obtain ⟨d, hd, had⟩ := List.mem_flatten.mp ((hpart.cover a).mpr hcella)
  have hd' : d ∈ before ++ after := by
    simp only [List.mem_append, List.mem_cons] at hd ⊢
    obtain hd | rfl | hd := hd
    · exact Or.inl hd
    · simp [hne] at had
    · exact Or.inr hd
  have hmem : id ∈ [] ++ id :: ([] : List Nat) := by simp
  exact hu.label_ne hdistinct hd' hmem had (by simp [Store.keyOf, he, hr, hkey])

theorem IndexedLists.delete (h : IndexedLists st chains) (he : st.files id = some e) (st' : Store)
    (hst' : deleteFileSQL st e.shahash e.filesize e.clientid id e.prev_entry e.next_entry e.pointed_to = st') :
    ∃ chains', IndexedLists st' chains' := by
  obtain ⟨hp, hnx⟩ := h.lists.links_ne he
  have hsize := (h.lists.proper id e he).1
  have hfiles := fun a => hst' ▸ @deleteFileSQL_files st id _ _ e.pointed_to e.shahash _ e.clientid hsize hp hnx a
  have hindex := hst' ▸ @deleteFileSQL_index st id _ _ e.pointed_to e.shahash _ e.clientid hsize hp hnx
  have hrows : ∀ a r, st'.files a = some r → a ≠ id ∧ ∃ r0, st.files a = some r0 ∧ r.key = r0.key ∧
      (r.pointed_to = true → r0.pointed_to = true ∨
        (e.pointed_to = true ∧ heir e.prev_entry e.next_entry ≠ 0 ∧ a = heir e.prev_entry e.next_entry)) := by
    intro a r hr
    rw [hfiles] at hr
    split at hr
    · cases hr
    · next ha =>
      obtain ⟨r0, hr0, rfl⟩ := Option.map_eq_some_iff.mp hr
      refine ⟨ha, r0, hr0, rfl, fun hpointed => ?_⟩
      simpa only [deleteUpdate, Bool.or_eq_true, Bool.and_eq_true, decide_eq_true_eq, and_assoc] using hpointed
  obtain ⟨before, pre, post, after, rfl, hlists, hids⟩ := h.lists.delete he st' hst'
  have hdistinct : (linked.labels st'.keyOf (before ++ linked.remainder pre post ++ after)).Nodup := by
    have hkeys : ∀ a ∈ (before ++ linked.remainder pre post ++ after).flatten, st'.keyOf a = st.keyOf a := by
      intro a ha
      refine keyOf_congr (hids a fun heq => (hlists.partition.cover a).mp ha ?_)
      rw [hfiles, if_pos heq]
    rw [linked.labels_congr hkeys]
    exact h.lists.uniform.labels_remove.nodup h.distinct
  cases hpe : e.pointed_to with
  | false =>
    rw [hpe, if_neg (by simp)] at hindex
    refine ⟨_, hlists, hdistinct, ?_, ?_⟩
    · intro a r hr
      obtain ⟨_, r0, hr0, hrkey, _⟩ := hrows a r hr
      rw [hindex, hrkey]
      exact h.present a r0 hr0
    · intro a r hr hpointed
      obtain ⟨_, r0, hr0, hrkey, hflag⟩ := hrows a r hr
      simp only [hpe, Bool.false_eq_true, false_and, or_false] at hflag
      rw [hindex, hrkey]
      exact h.flagged a r0 hr0 (hflag hpointed)
  | true =>
    have hid := h.flagged id e he hpe
    have hindex' : st'.index = Function.update st.index e.key (heir e.prev_entry e.next_entry) := by
      rw [hindex, if_pos ⟨hpe, Or.inr (Or.inr hid)⟩]
      rfl
    refine ⟨_, hlists, hdistinct, ?_, ?_⟩
    · intro a r hr
      obtain ⟨ha, r0, hr0, hrkey, _⟩ := hrows a r hr
      rw [hindex', hrkey]
      by_cases hk : r0.key = e.key
      · rw [hk, Function.update_self]
        exact fun hheir => ha (h.only_row he hheir hr0 hk)
      · rw [Function.update_of_ne hk]
        exact h.present a r0 hr0
    · intro a r hr hpointed
      obtain ⟨ha, r0, hr0, hrkey, hflag⟩ := hrows a r hr
      rw [hindex', hrkey]
      obtain hpointed0 | ⟨_, hne, rfl⟩ := hflag hpointed
      · have heq := h.flagged a r0 hr0 hpointed0
        have hk : r0.key ≠ e.key := by
          intro hk
          rw [hk, hid] at heq
          exact ha heq.symm
        rw [Function.update_of_ne hk, heq]
      · obtain ⟨_, r1, hr1, hr1key⟩ := h.lists.heir_row he hne
        rw [hr0, Option.some.injEq] at hr1
        rw [hr1, hr1key, Function.update_self]

end Delete

/-- If a file is copied, the client has no row with its index key yet. -/
def CopiedOnce (st : Store) : Call → Prop
  | .addCopied _ shahash filesize clientid _ => st.KeyUnused (indexKey shahash filesize clientid)
  | _ => True

/-- Under the condition a call keeps one indexed list per key. -/
theorem IndexedLists.call {st : Store} {chains : List (List Nat)} (h : IndexedLists st chains) {call : Call}
    (hvalid : call.Valid st) (hcond : CopiedOnce st call) : ∃ chains', IndexedLists (call.run st) chains' := by
  cases call with
  | addCopied n shahash filesize clientid update_fileindex =>
    obtain ⟨hn, hnew, hsize, hc⟩ := hvalid
    have hplace := @addPlace_copied st (indexKey shahash filesize clientid) clientid update_fileindex
    have hindexed : newForClient clientid 0 0 = true := by simp [newForClient]
    refine h.add ⟨hsize, hc, rfl, hplace, rfl⟩ (Or.inl ⟨rfl, rfl⟩) hnew hn ?_ ?_ _ rfl
    · intro _
      rw [hindexed, Bool.true_or]
      exact ⟨rfl, hcond⟩
    · exact fun hne => absurd rfl hne
  | addLinked n shahash filesize clientid existing copied_file =>
    obtain ⟨hn, hnew, hsize, hc, e, he, hhash, hfs⟩ := hvalid
    have hrun := Call.run_addLinked he n shahash filesize clientid copied_file
    obtain ⟨hsound, hown, hother⟩ := addPlace_linked h.lists he clientid copied_file _ (by rw [hhash, hfs])
    by_cases hclient : e.clientid = clientid
    · have hne := h.lists.row_ne_zero he
      have hnc : newForClient clientid existing e.clientid = false := by simp [newForClient, hclient, hne]
      refine h.add ⟨hsize, hc, rfl, hown hclient, rfl⟩ (hown hclient ▸ hsound) hnew hn ?_ ?_ _ hrun.symm
      · exact fun hzero => absurd hzero hne
      · intro _
        rw [hnc, Bool.false_or]
    · have hnc : newForClient clientid existing e.clientid = true := by simp [newForClient, hclient]
      have hc0 := (h.lists.proper existing e he).2
      refine h.add ⟨hsize, hc, rfl, hother hclient, rfl⟩ (hother hclient ▸ hsound) hnew hn ?_ ?_ _ hrun.symm
      · intro hzero
        rw [hnc, Bool.true_or]
        refine ⟨rfl, fun a r hr hkey => ?_⟩
        -- a row of the key is indexed, so the new row would come behind it
        have hindex := h.present a r hr
        rw [hkey] at hindex
        obtain ⟨r', hr', _⟩ := h.lists.indexed _ hindex
        simp [placeNewForClient, hc0, hindex, hr'] at hzero
      · intro hne
        have hindex : st.index (indexKey shahash filesize clientid) ≠ 0 := by
          intro heq
          simp [placeNewForClient, heq] at hne
        obtain ⟨r', hr', _, hpointed⟩ := h.lists.indexed _ hindex
        simp [hnc, placeNewForClient, hc0, hindex, hr', hpointed]
  | delete id =>
    obtain ⟨e, he⟩ := Option.ne_none_iff_exists'.mp hvalid
    exact h.delete he _ (Call.run_delete he).symm

theorem Reached.indexedLists {st : Store} (h : Reached CopiedOnce st) : ∃ chains, IndexedLists st chains := by
  induction h with
  | start => exact ⟨[], .empty⟩
  | step _ hvalid hcond ih =>
    obtain ⟨chains, hlists⟩ := ih
    exact hlists.call hvalid hcond

/-- The index stays complete along every run in which no file is copied that
the client has a row for. -/
theorem reached_indexComplete {st : Store} (h : Reached CopiedOnce st) : IndexComplete st := by
  obtain ⟨_, hlists⟩ := h.indexedLists
  exact hlists.complete

theorem reached_indexComplete_linked : IndexComplete ([
    .addCopied 1 (List.replicate 64 7) 4096 1 false, .addLinked 2 (List.replicate 64 7) 4096 1 1 true,
    .addLinked 3 (List.replicate 64 7) 4096 2 2 false, .delete 2].foldl Call.run .empty) := by
  refine reached_indexComplete (Reached.start.run ⟨?_, ?_, ?_, trivial, ?_, trivial, ?_, trivial, trivial⟩)
  · exact ⟨by decide, rfl, by decide, by decide⟩
  · intro id r hr
    simp [Store.empty] at hr
  · exact ⟨by decide, rfl, by decide, by decide, _, rfl, rfl, rfl⟩
  · exact ⟨by decide, rfl, by decide, by decide, _, rfl, rfl, rfl⟩
  · exact Option.isSome_iff_ne_none.mp rfl

/-- A file is copied a second time, the hard link limit being reached: two rows
of the key are flagged. -/
theorem indexComplete_copied_twice : ¬ ∀ st, Reached (fun _ _ => True) st → IndexComplete st := by
  intro hall
  let hash : Bytes := List.replicate 64 7
  let calls : List Call := [.addCopied 1 hash 4096 1 false, .addCopied 2 hash 4096 1 true]
  have hreached : Reached (fun _ _ => True) (calls.foldl Call.run .empty) := by
    refine Reached.start.run ⟨?_, trivial, ?_, trivial, trivial⟩
    · exact ⟨by decide, rfl, by decide, by decide⟩
    · exact ⟨by decide, rfl, by decide, by decide⟩
  have hfirst := ((hall _ hreached).pointed 1 _ rfl).mp rfl
  have hsecond := ((hall _ hreached).pointed 2 _ rfl).mp rfl
  exact absurd (hfirst.symm.trans hsecond) (by decide)

end urbackup.fileentries
