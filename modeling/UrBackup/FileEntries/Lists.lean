import UrBackup.FileEntries.Effects

namespace urbackup.fileentries

open stringtools Store

/-- What a row is about, apart from its links: hash, size and client. -/
def FileEntry.identity (r : FileEntry) : Bytes × Nat × Nat :=
  (r.shahash, r.filesize, r.clientid)

theorem FileEntry.key_of_identity {r r' : FileEntry} (h : r.identity = r'.identity) : r.key = r'.key := by
  simp only [FileEntry.identity, Prod.mk.injEq] at h
  simp [FileEntry.key, h]

def Store.identityOf (st : Store) (id : Nat) : Option (Bytes × Nat × Nat) :=
  (st.files id).map FileEntry.identity

theorem keyOf_congr {st st' : Store} {a b : Nat} (h : st'.identityOf a = st.identityOf b) :
    st'.keyOf a = st.keyOf b := by
  unfold Store.identityOf at h
  unfold Store.keyOf
  cases ha : st'.files a with
  | none => cases hb : st.files b <;> simp_all
  | some r =>
    cases hb : st.files b with
    | none => simp_all
    | some r' =>
      simp only [ha, hb, Option.map_some, Option.some.injEq] at h ⊢
      exact FileEntry.key_of_identity h

/-- The rows form lists of one index key each, the index names flagged rows of
its keys, and no row is small or without a client. -/
structure Lists (st : Store) (chains : List (List Nat)) : Prop where
  partition : linked.Chains 0 st.links st.Cell chains
  uniform : linked.Uniform st.keyOf chains
  indexed : ∀ k, st.index k ≠ 0 →
    ∃ r, st.files (st.index k) = some r ∧ r.key = k ∧ r.pointed_to = true
  proper : ∀ id r, st.files id = some r → link_file_min_size ≤ r.filesize ∧ r.clientid ≠ 0

theorem Lists.files_zero {st : Store} {chains : List (List Nat)} (h : Lists st chains) : st.files 0 = none :=
  not_not.mp h.partition.null_free

theorem Lists.row_ne_zero {st : Store} {chains : List (List Nat)} (h : Lists st chains) {id : Nat} {e : FileEntry}
    (he : st.files id = some e) : id ≠ 0 := by
  rintro rfl
  rw [h.files_zero] at he
  cases he

theorem Lists.empty : Lists .empty [] := by
  refine ⟨?_, ?_, ?_, ?_⟩
  · have hcells : Store.empty.Cell = fun _ => False := by
      funext a
      simp [Store.Cell, Store.empty]
    rw [hcells]
    exact .empty _
  · intro c hc
    simp at hc
  · simp [Store.empty]
  · simp [Store.empty]

/-- The place lies behind an existing row of the key, or nowhere. -/
def Place.Sound (st : Store) (key : SIndexKey) (place : Place) : Prop :=
  (place.prev_entry = 0 ∧ place.next_entry = 0) ∨
    ∃ r, st.files place.prev_entry = some r ∧ r.key = key ∧ place.next_entry = r.next_entry

/-- The lists after a row was added at a place. -/
inductive Extended (n : Nat) (place : Place) : List (List Nat) → List (List Nat) → Prop where
  | lone {chains : List (List Nat)} (hprev : place.prev_entry = 0) : Extended n place chains ([n] :: chains)
  | behind {before after : List (List Nat)} {pre post : List Nat} :
      Extended n place (before ++ (pre ++ place.prev_entry :: post) :: after)
        (before ++ (pre ++ place.prev_entry :: n :: post) :: after)

section Add

variable {st : Store} {chains : List (List Nat)} {n : Nat} {shahash : Bytes}
  {filesize clientid prev_entry prev_entry_clientid next_entry : Nat} {update_fileindex : Bool} {key : SIndexKey}
  {place : Place} {indexed : Bool}

theorem Place.Sound.ne_fresh (h : Lists st chains) (hsound : place.Sound st key) (hnew : st.files n = none)
    (hn : n ≠ 0) : place.prev_entry ≠ n ∧ place.next_entry ≠ n := by
  rcases hsound with ⟨hp, hnx⟩ | ⟨r, hr, _, hnx⟩
  · rw [hp, hnx]
    exact ⟨Ne.symm hn, Ne.symm hn⟩
  · have hp : place.prev_entry ≠ n := by
      intro heq
      rw [heq, hnew] at hr
      cases hr
    refine ⟨hp, fun heq => ?_⟩
    have hcell : st.Cell place.prev_entry := by simp [Store.Cell, hr]
    have hnext := links_next hr
    rw [← hnx] at hnext
    have := (h.partition.prev_next hcell (by rw [hnext, heq]; exact hn)).1
    rw [hnext, heq] at this
    exact this hnew

theorem clearedRow_key (h : Lists st chains) (hsound : place.Sound st key) (hprev : place.prev_entry ≠ 0)
    {r : FileEntry} (hr : st.files (clearedRow st key place.prev_entry) = some r) : r.key = key := by
  unfold clearedRow at hr
  split at hr
  · rcases hsound with ⟨hp, _⟩ | ⟨r', hr', hkey, _⟩
    · exact absurd hp hprev
    · rw [hr', Option.some.injEq] at hr
      rw [← hr, hkey]
  · have hne : st.index key ≠ 0 := by
      intro heq
      rw [heq, h.files_zero] at hr
      cases hr
    obtain ⟨r', hr', hkey, _⟩ := h.indexed key hne
    rw [hr', Option.some.injEq] at hr
    rw [← hr, hkey]

variable (h : Lists st chains)
  (hadd : AddsAt st shahash filesize clientid prev_entry prev_entry_clientid next_entry update_fileindex key
    place indexed) (hsound : place.Sound st key) (hnew : st.files n = none) (hn : n ≠ 0) (st' : Store)
  (hst' : addFileSQL st n shahash filesize clientid prev_entry prev_entry_clientid next_entry update_fileindex = st')

include h hadd hsound hnew hn hst'

/-- The table after the row was added: identities stay, and the links are those
of an insertion. -/
theorem addFileSQL_lists :
    (∃ chains', Extended n place chains chains' ∧ linked.Chains 0 st'.links st'.Cell chains') ∧
      st'.identityOf n = some (shahash, filesize, clientid) ∧
      (∀ a, a ≠ n → st'.identityOf a = st.identityOf a) := by
  obtain ⟨hp, hnx⟩ := hsound.ne_fresh h hnew hn
  have hfiles : ∀ a, st'.files a = if a = n then
      some ⟨shahash, filesize, clientid, place.next_entry, place.prev_entry, indexed⟩
      else (st.files a).map (addUpdate st key n place a) := by
    intro a
    rw [← hst', addFileSQL_files hadd h.files_zero hp hnx]
  have hcells : st'.Cell = fun a => a = n ∨ st.Cell a := by
    funext a
    by_cases ha : a = n <;> simp [Store.Cell, hfiles, ha]
  have hnext : ∀ a, a ≠ n → st'.links.next a =
      if place.prev_entry ≠ 0 ∧ a = place.prev_entry ∧ st.Cell a then n else st.links.next a := by
    intro a ha
    simp only [Store.links, hfiles, if_neg ha]
    cases hr : st.files a with
    | none => simp [Store.Cell, hr]
    | some r => simp [Store.Cell, hr, addUpdate, relink]
  have hprev : ∀ a, a ≠ n → st'.links.prev a =
      if place.next_entry ≠ 0 ∧ a = place.next_entry ∧ st.Cell a then n else st.links.prev a := by
    intro a ha
    simp only [Store.links, hfiles, if_neg ha]
    cases hr : st.files a with
    | none => simp [Store.Cell, hr]
    | some r => simp [Store.Cell, hr, addUpdate, relink]
  have hrow : st'.files n = some ⟨shahash, filesize, clientid, place.next_entry, place.prev_entry, indexed⟩ := by
    simp [hfiles]
  refine ⟨?_, by simp [Store.identityOf, hrow, FileEntry.identity], ?_⟩
  · rw [hcells]
    have hfresh : ¬ st.Cell n := by simp [Store.Cell, hnew]
    rcases hsound with ⟨hp0, hnx0⟩ | ⟨r, hr, _, hnxr⟩
    · refine ⟨[n] :: chains, .lone hp0, h.partition.push hfresh hn ?_ ?_ ?_⟩
      · rw [links_next hrow, hnx0]
      · rw [links_prev hrow, hp0]
      · intro a ha
        rw [hnext a ha, hprev a ha]
        simp [hp0, hnx0]
    · have hcell : st.Cell place.prev_entry := by simp [Store.Cell, hr]
      have hp0 : place.prev_entry ≠ 0 := fun heq => h.partition.null_free (heq ▸ hcell)
      have hlink : st.links.next place.prev_entry = place.next_entry := by rw [links_next hr, hnxr]
      obtain ⟨before, pre, post, after, rfl⟩ := h.partition.split hcell
      refine ⟨_, .behind, h.partition.insertAfter hfresh hn ?_⟩
      refine ⟨?_, ?_, ?_, ?_, ?_, ?_⟩
      · rw [hnext _ hp]
        simp [hp0, hcell]
      · rw [links_next hrow, hlink]
      · rw [links_prev hrow]
      · intro hne
        rw [hlink] at hne ⊢
        have hcellNext := (h.partition.prev_next hcell (by rwa [hlink])).1
        rw [hlink] at hcellNext
        rw [hprev _ hnx]
        simp [hne, hcellNext]
      · intro a hae han
        rw [hnext a han]
        simp [hae]
      · intro a han hanx
        rw [hlink] at hanx
        rw [hprev a han]
        simp [hanx]
  · intro a ha
    simp only [Store.identityOf, hfiles, if_neg ha, Option.map_map]
    rfl

/-- Adding a row at a sound place keeps the lists. -/
theorem Lists.add : ∃ chains', Extended n place chains chains' ∧ Lists st' chains' := by
  obtain ⟨⟨chains', hext, hchains'⟩, hidn, hids⟩ := addFileSQL_lists h hadd hsound hnew hn st' hst'
  obtain ⟨hp, hnx⟩ := hsound.ne_fresh h hnew hn
  have hfiles := fun a => hst' ▸ @addFileSQL_files st n _ _ _ _ _ _ _ _ _ _ hadd h.files_zero hp hnx a
  have hindex := hst' ▸ @addFileSQL_index st n _ _ _ _ _ _ _ _ _ _ hadd
  have hold : ∀ a ∈ chains.flatten, st'.keyOf a = st.keyOf a := by
    intro a ha
    refine keyOf_congr (hids a fun heq => ?_)
    exact (h.partition.cover a).mp ha (heq ▸ hnew)
  have hkeyn : st'.keyOf n = some key := by
    simp only [Store.keyOf, hfiles, if_true, Option.map_some, Option.some.injEq]
    exact hadd.key_eq
  refine ⟨chains', hext, hchains', ?_, ?_, ?_⟩
  · cases hext with
    | lone hprev => exact h.uniform.push hold
    | behind =>
      refine h.uniform.insertAfter hold ?_
      have hcell : st.Cell place.prev_entry := (h.partition.cover _).mp (by simp)
      rcases hsound with ⟨hp0, _⟩ | ⟨r, hr, hkey, _⟩
      · exact absurd (hp0 ▸ hcell) h.partition.null_free
      · rw [hkeyn, Store.keyOf, hr, Option.map_some, hkey]
  · intro k hk
    have hkeep : st.index k ≠ 0 → (place.update_fileindex = true → k ≠ key) →
        ∃ r, st'.files (st.index k) = some r ∧ r.key = k ∧ r.pointed_to = true := by
      intro hne hupdate
      obtain ⟨r, hr, hrkey, hrp⟩ := h.indexed k hne
      have hvn : st.index k ≠ n := by
        intro heq
        rw [heq, hnew] at hr
        cases hr
      refine ⟨addUpdate st key n place (st.index k) r, by rw [hfiles, if_neg hvn, hr, Option.map_some], hrkey, ?_⟩
      simp only [addUpdate, relink, hrp, Bool.true_and, Bool.not_eq_true', Bool.and_eq_false_iff,
        decide_eq_false_iff_not, ne_eq, not_not]
      by_cases hu : place.update_fileindex = true
      · by_cases hp0 : place.prev_entry = 0
        · exact Or.inl (Or.inr hp0)
        · refine Or.inr fun heq => hupdate hu ?_
          rw [← hrkey]
          exact clearedRow_key h hsound hp0 (heq ▸ hr)
      · exact Or.inl (Or.inl (by simpa using hu))
    cases hi : indexed with
    | true =>
      simp only [hi, if_true] at hindex
      by_cases hkk : k = key
      · subst hkk
        rw [hindex, Function.update_self]
        have hrow := hfiles n
        rw [if_pos rfl] at hrow
        exact ⟨_, hrow, hadd.key_eq, hi⟩
      · rw [hindex, Function.update_of_ne hkk] at hk ⊢
        exact hkeep hk fun _ => hkk
    | false =>
      simp only [hi, Bool.false_eq_true, if_false] at hindex
      have hu := hadd.indexed_eq
      rw [hi, Bool.or_eq_false_iff] at hu
      rw [hindex] at hk ⊢
      exact hkeep hk fun hupdate => by simp [hu.2] at hupdate
  · intro id r hr
    rw [hfiles] at hr
    split at hr
    · cases hr
      exact ⟨hadd.size_le, hadd.client_ne⟩
    · obtain ⟨r0, hr0, rfl⟩ := Option.map_eq_some_iff.mp hr
      exact h.proper id r0 hr0

end Add

section Delete

variable {st : Store} {chains : List (List Nat)} {id : Nat} {e : FileEntry}

theorem Lists.links_ne (h : Lists st chains) (he : st.files id = some e) :
    e.prev_entry ≠ id ∧ e.next_entry ≠ id := by
  have hcell : st.Cell id := by simp [Store.Cell, he]
  exact ⟨links_prev he ▸ h.partition.prev_ne hcell, links_next he ▸ h.partition.next_ne hcell⟩

/-- The neighbour that takes over is a row of the same key. -/
theorem Lists.heir_row (h : Lists st chains) (he : st.files id = some e)
    (hne : heir e.prev_entry e.next_entry ≠ 0) :
    heir e.prev_entry e.next_entry ≠ id ∧
      ∃ r, st.files (heir e.prev_entry e.next_entry) = some r ∧ r.key = e.key := by
  have hcell : st.Cell id := by simp [Store.Cell, he]
  obtain ⟨hp, hn⟩ := h.links_ne he
  obtain ⟨before, pre, post, after, rfl⟩ := h.partition.split hcell
  have hnext := h.partition.next_eq
  have hprev := h.partition.prev_eq
  rw [links_next he] at hnext
  rw [links_prev he] at hprev
  have hmem : heir e.prev_entry e.next_entry ∈ pre ++ id :: post := by
    unfold heir at hne ⊢
    split
    · next hn0 =>
      rw [hnext] at hn0 ⊢
      cases post <;> simp_all
    · next hn0 =>
      rw [if_neg hn0, hprev] at hne
      rw [hprev]
      rcases List.eq_nil_or_concat pre with rfl | ⟨ps, p, rfl⟩ <;> simp_all
  refine ⟨?_, ?_⟩
  · unfold heir
    split
    · exact hn
    · exact hp
  · have hkey := h.uniform (pre ++ id :: post) (by simp) _ hmem id (by simp)
    obtain ⟨r, hr⟩ := Option.ne_none_iff_exists'.mp (h.partition.mem_cells hmem)
    refine ⟨r, hr, ?_⟩
    simpa [Store.keyOf, hr, he] using hkey

/-- Deleting a row takes it out of its list. -/
theorem Lists.delete (h : Lists st chains) (he : st.files id = some e) (st' : Store)
    (hst' : deleteFileSQL st e.shahash e.filesize e.clientid id e.prev_entry e.next_entry e.pointed_to = st') :
    ∃ before pre post after, chains = before ++ (pre ++ id :: post) :: after ∧
      Lists st' (before ++ linked.remainder pre post ++ after) ∧
      (∀ a, a ≠ id → st'.identityOf a = st.identityOf a) := by
  have hcell : st.Cell id := by simp [Store.Cell, he]
  obtain ⟨hp, hn⟩ := h.links_ne he
  have hsize := (h.proper id e he).1
  have hfiles := fun a => hst' ▸ @deleteFileSQL_files st id _ _ e.pointed_to e.shahash _ e.clientid hsize hp hn a
  have hindex := hst' ▸ @deleteFileSQL_index st id _ _ e.pointed_to e.shahash _ e.clientid hsize hp hn
  have hids : ∀ a, a ≠ id → st'.identityOf a = st.identityOf a := by
    intro a ha
    simp only [Store.identityOf, hfiles, if_neg ha, Option.map_map]
    rfl
  have hcells : st'.Cell = fun a => a ≠ id ∧ st.Cell a := by
    funext a
    by_cases ha : a = id <;> simp [Store.Cell, hfiles, ha]
  have hun : linked.Unlinked 0 id st.links st'.links := by
    rw [← links_next he] at hn
    rw [← links_prev he] at hp
    have hother : ∀ a, a ≠ id → st'.links.next a =
          (if e.prev_entry ≠ 0 ∧ a = e.prev_entry ∧ st.Cell a then e.next_entry else st.links.next a) ∧
        st'.links.prev a =
          (if e.next_entry ≠ 0 ∧ a = e.next_entry ∧ st.Cell a then e.prev_entry else st.links.prev a) := by
      intro a ha
      simp only [Store.links, hfiles, if_neg ha]
      cases hr : st.files a with
      | none => simp [Store.Cell, hr]
      | some r => simp [Store.Cell, hr, deleteUpdate]
    refine ⟨?_, ?_, ?_, ?_⟩
    · intro hne
      rw [(hother _ hp).1, if_pos ⟨by rwa [← links_prev he], links_prev he, (h.partition.next_prev hcell hne).1⟩,
        links_next he]
    · intro hne
      rw [(hother _ hn).2, if_pos ⟨by rwa [← links_next he], links_next he, (h.partition.prev_next hcell hne).1⟩,
        links_prev he]
    · intro a ha hne
      rw [links_prev he] at hne
      rw [(hother a ha).1]
      simp [hne]
    · intro a ha hne
      rw [links_next he] at hne
      rw [(hother a ha).2]
      simp [hne]
  obtain ⟨before, pre, post, after, rfl⟩ := h.partition.split hcell
  have hpart := h.partition.remove hun
  rw [← hcells] at hpart
  refine ⟨before, pre, post, after, rfl, ⟨hpart, ?_, ?_, ?_⟩, hids⟩
  · refine h.uniform.remove fun a ha => keyOf_congr (hids a ?_)
    have := (hpart.cover a).mp ha
    rw [hcells] at this
    exact this.1
  · intro k hk
    have hkeep : st.index k ≠ 0 → st.index k ≠ id →
        ∃ r, st'.files (st.index k) = some r ∧ r.key = k ∧ r.pointed_to = true := by
      intro hne hid
      obtain ⟨r, hr, hrkey, hrp⟩ := h.indexed k hne
      exact ⟨deleteUpdate e.prev_entry e.next_entry e.pointed_to (st.index k) r,
        by rw [hfiles, if_neg hid, hr, Option.map_some], hrkey, by simp [deleteUpdate, hrp]⟩
    have hrow : st.index k = id → k = e.key ∧ e.pointed_to = true := by
      intro heq
      have hid : id ≠ 0 := fun hid => h.partition.null_free (hid ▸ hcell)
      obtain ⟨r, hr, hrkey, hrp⟩ := h.indexed k (by rw [heq]; exact hid)
      rw [heq, he, Option.some.injEq] at hr
      rw [hr]
      exact ⟨hrkey.symm, hrp⟩
    by_cases hcond : e.pointed_to = true ∧ (heir e.prev_entry e.next_entry ≠ 0 ∨
        st.index (indexKey e.shahash e.filesize e.clientid) = 0 ∨
        st.index (indexKey e.shahash e.filesize e.clientid) = id)
    · rw [if_pos hcond] at hindex
      by_cases hkk : k = indexKey e.shahash e.filesize e.clientid
      · rw [hindex, hkk, Function.update_self] at hk ⊢
        obtain ⟨hid, r, hr, hrkey⟩ := h.heir_row he hk
        refine ⟨deleteUpdate e.prev_entry e.next_entry e.pointed_to _ r,
          by rw [hfiles, if_neg hid, hr, Option.map_some], hrkey, ?_⟩
        simp [deleteUpdate, hcond.1, hk]
      · rw [hindex, Function.update_of_ne hkk] at hk ⊢
        exact hkeep hk fun heq => hkk (hrow heq).1
    · rw [if_neg hcond] at hindex
      rw [hindex] at hk ⊢
      refine hkeep hk fun heq => hcond ?_
      obtain ⟨hkey, hpointed⟩ := hrow heq
      exact ⟨hpointed, Or.inr (Or.inr (by rw [← heq, hkey]; rfl))⟩
  · intro a r hr
    rw [hfiles] at hr
    split at hr
    · cases hr
    · obtain ⟨r0, hr0, rfl⟩ := Option.map_eq_some_iff.mp hr
      exact h.proper a r0 hr0

end Delete

end urbackup.fileentries
