import UrBackup.FileIndex.ReadsOwnWrites

namespace urbackup.fileindex

open stringtools maps

namespace SIndexKey

theorem le_iff {a b : SIndexKey} : a ≤ b ↔ a.hash.map UInt8.toNat < b.hash.map UInt8.toNat ∨
    a.hash.map UInt8.toNat = b.hash.map UInt8.toNat ∧
      (a.filesize < b.filesize ∨ a.filesize = b.filesize ∧ a.clientid ≤ b.clientid) := by
  show a.order ≤ b.order ↔ _
  rw [order, order, Prod.Lex.toLex_le_toLex, Prod.Lex.toLex_le_toLex]

theorem isEqualWithoutClientid_iff {a b : SIndexKey} :
    a.isEqualWithoutClientid b = true ↔ a.hash.map UInt8.toNat = b.hash.map UInt8.toNat ∧ a.filesize = b.filesize := by
  have hinj : Function.Injective UInt8.toNat := fun _ _ h => UInt8.toNat_inj.mp h
  rw [hinj.list_map.eq_iff]
  simp [isEqualWithoutClientid]

/-- Keys of the same file are next to each other. -/
theorem isEqualWithoutClientid_between {key a b : SIndexKey} (hkey : key ≤ a) (hab : a ≤ b)
    (hb : b.isEqualWithoutClientid key = true) : a.isEqualWithoutClientid key = true := by
  rw [isEqualWithoutClientid_iff] at hb ⊢
  rw [le_iff] at hkey hab
  rw [hb.1, hb.2] at hab
  obtain hkey | ⟨hhash, hkey⟩ := hkey
  · obtain hab | ⟨hhash, _⟩ := hab
    · exact absurd (hkey.trans hab) (lt_irrefl _)
    · exact absurd hhash hkey.ne'
  · obtain hab | ⟨_, hab⟩ := hab
    · exact absurd hhash hab.ne'
    · exact ⟨hhash.symm, by omega⟩

theorem le_ofClient {key : SIndexKey} {c : Nat} : key ≤ key.ofClient c ↔ key.clientid ≤ c := by
  rw [le_iff]
  simp [ofClient]

theorem eq_ofClient {a key : SIndexKey} (h : a.isEqualWithoutClientid key = true) : a = key.ofClient a.clientid := by
  obtain ⟨hash, filesize, clientid⟩ := a
  simp only [isEqualWithoutClientid, decide_eq_true_eq] at h
  obtain ⟨rfl, rfl⟩ := h
  rfl

theorem isEqualWithoutClientid_ofClient (key : SIndexKey) (c : Nat) :
    (key.ofClient c).isEqualWithoutClientid key = true := by
  simp [isEqualWithoutClientid, ofClient]

end SIndexKey

section Caches

variable {key : SIndexKey} {cache : Cache}

theorem mem_sameFile {e : SIndexKey × Int} :
    e ∈ sameFile key cache ↔ e ∈ cache.entries ∧ key ≤ e.1 ∧ e.1.isEqualWithoutClientid key = true :=
  SortedMap.mem_takeWhile_lowerBound cache key
    (fun _ _ hkey hab hb => SIndexKey.isEqualWithoutClientid_between hkey hab.le hb) e

/-- What a cache has for each client. -/
def clientsOf (key : SIndexKey) (cache : Cache) : List (Nat × Int) :=
  (sameFile key cache).map fun e => (e.1.clientid, e.2)

theorem clientsOf_distinct : (clientsOf key cache).Pairwise fun a b => a.1 ≠ b.1 := by
  refine List.pairwise_map.mpr ?_
  have hsorted : (sameFile key cache).Pairwise fun a b => a.1 < b.1 :=
    cache.sorted.sublist ((List.takeWhile_sublist _).trans (List.dropWhile_sublist _))
  refine hsorted.imp_of_mem fun {a b} ha hb hlt heq => ?_
  rw [SIndexKey.eq_ofClient (mem_sameFile.mp ha).2.2, SIndexKey.eq_ofClient (mem_sameFile.mp hb).2.2] at hlt
  dsimp only at heq
  rw [heq] at hlt
  exact lt_irrefl _ hlt

theorem lookup_clientsOf (c : Nat) :
    SortedMap.lookup c (clientsOf key cache) = if key.clientid ≤ c then cache.find (key.ofClient c) else none := by
  refine Option.ext fun v => ?_
  rw [SortedMap.lookup_eq_some clientsOf_distinct]
  split
  · next hc =>
    rw [SortedMap.find_eq_some]
    constructor
    · intro hmem
      obtain ⟨e, he, heq⟩ := List.mem_map.mp hmem
      obtain ⟨rfl, rfl⟩ := Prod.mk.inj heq
      rw [← SIndexKey.eq_ofClient (mem_sameFile.mp he).2.2]
      exact (mem_sameFile.mp he).1
    · intro hmem
      refine List.mem_map.mpr ⟨(key.ofClient c, v), mem_sameFile.mpr ⟨hmem, ?_, ?_⟩, rfl⟩
      · exact SIndexKey.le_ofClient.mpr hc
      · exact SIndexKey.isEqualWithoutClientid_ofClient key c
  · next hc =>
    refine iff_of_false (fun hmem => hc ?_) (by simp)
    obtain ⟨e, he, heq⟩ := List.mem_map.mp hmem
    obtain ⟨_, hle, hsame⟩ := mem_sameFile.mp he
    obtain ⟨rfl, rfl⟩ := Prod.mk.inj heq
    rw [SIndexKey.eq_ofClient hsame] at hle
    exact SIndexKey.le_ofClient.mp hle

theorem find_get_from_cache_all_clients (ret : SortedMap Nat Int) (c : Nat) :
    (get_from_cache_all_clients key cache ret).find c =
      (if key.clientid ≤ c then cache.find (key.ofClient c) else none).or (ret.find c) := by
  have hfold : get_from_cache_all_clients key cache ret =
      (clientsOf key cache).foldl (fun ret e => ret.insert e.1 e.2) ret := by
    rw [get_from_cache_all_clients, clientsOf, List.foldl_map]
  rw [hfold, SortedMap.find_foldl_insert clientsOf_distinct, lookup_clientsOf]

end Caches

/-- The values that are not zero. -/
theorem find_erase_zeros (m : SortedMap Nat Int) (c : Nat) :
    ((m.entries.filter fun e => e.2 = 0).foldl (fun m e => m.erase e.1) m).find c = stored ((m.find c).getD 0) := by
  have hdistinct : (m.entries.filter fun e => e.2 = 0).Pairwise fun a b => a.1 ≠ b.1 :=
    (SortedMap.keys_distinct m.sorted).sublist List.filter_sublist
  rw [SortedMap.find_foldl_erase]
  cases hfind : m.find c with
  | none => simp [stored]
  | some value =>
    have hmem := SortedMap.find_eq_some.mp hfind
    by_cases hvalue : value = 0
    · subst hvalue
      have hzero : SortedMap.lookup c (m.entries.filter fun e => e.2 = 0) = some 0 := by
        rw [SortedMap.lookup_eq_some hdistinct]
        simpa using hmem
      simp [hzero, stored]
    · have hnone : SortedMap.lookup c (m.entries.filter fun e => e.2 = 0) = none := by
        rw [SortedMap.lookup_eq_none]
        rintro e he rfl
        obtain ⟨he, hzero⟩ := List.mem_filter.mp he
        have hother : m.find e.1 = some e.2 := SortedMap.find_eq_some.mpr he
        rw [hfind] at hother
        exact hvalue ((Option.some.inj hother).trans (by simpa using hzero))
      simp [hnone, stored, hvalue]

/-- The values of the clients are those of their keys. -/
theorem find_get_all_clients_with_cache (s later : State) (key : SIndexKey) (c : Nat) :
    (get_all_clients_with_cache s later key false).find c =
      if key.clientid ≤ c then stored (get_with_cache_exact s later (key.ofClient c)) else none := by
  unfold get_all_clients_with_cache
  dsimp only
  rw [if_neg Bool.false_ne_true, find_erase_zeros, SortedMap.find_foldl_insert (SortedMap.keys_distinct (SortedMap.sorted _))]
  show stored (((SortedMap.find _ c).or _).getD 0) = _
  rw [find_get_from_cache_all_clients, find_get_from_cache_all_clients, get_all_clients, find_get_from_cache_all_clients,
    SortedMap.find_empty]
  split
  · rw [get_with_cache_exact, get_from_caches_exact, get]
    congr 1
    cases s.active_cache_buffer.find (key.ofClient c) with
    | some value => rfl
    | none =>
      cases s.other_cache_buffer.find (key.ofClient c) with
      | some value => rfl
      | none => cases later.db.find (key.ofClient c) <;> rfl
  · rfl

/-- What the index returns after any actions on it and any steps of its writer:
for a key its last value, and for a file the last value of each client that has
one, from the client of the key on. The actions in between are after the look at
the buffers and before the one at the database. -/
theorem get_after_run {db : Cache} {before between : List Action} {s later : State} (key : SIndexKey)
    (hbefore : (State.initial db).run before = some s) (hbetween : s.run between = some later)
    (hkey : ∀ a ∈ between, ∀ c, ¬ a.Writes (key.ofClient c)) :
    get_with_cache_exact s later key = lastValue key ((db.find key).getD 0) before ∧
    ∀ c, (get_all_clients_with_cache s later key false).find c =
      if key.clientid ≤ c then stored (lastValue (key.ofClient c) ((db.find (key.ofClient c)).getD 0) before)
      else none := by
  have hexact : ∀ c, get_with_cache_exact s later (key.ofClient c) =
      lastValue (key.ofClient c) ((db.find (key.ofClient c)).getD 0) before := by
    intro c
    obtain ⟨hs, hview⟩ := run_view hbefore (consistent_initial db) (key.ofClient c)
    rw [get_later hbetween hs fun a ha => hkey a ha c, hview]
    rfl
  refine ⟨hexact key.clientid, fun c => ?_⟩
  rw [find_get_all_clients_with_cache, hexact]

theorem get_after_run_deleted :
    ∃ s later, (State.initial SortedMap.empty).run
        [.put_delayed ⟨[7], 3, 1⟩ 5, .put_delayed ⟨[7], 3, 2⟩ 6, .swap, .write, .del_delayed ⟨[7], 3, 2⟩] = some s ∧
      s.run [.write, .commit, .clear] = some later ∧
      (get_all_clients_with_cache s later ⟨[7], 3, 0⟩ false).find 1 = some 5 ∧
      (get_all_clients_with_cache s later ⟨[7], 3, 0⟩ false).find 2 = none := by
  have hrun : ∃ s later, (State.initial SortedMap.empty).run
        [.put_delayed ⟨[7], 3, 1⟩ 5, .put_delayed ⟨[7], 3, 2⟩ 6, .swap, .write, .del_delayed ⟨[7], 3, 2⟩] = some s ∧
      s.run [.write, .commit, .clear] = some later :=
    ⟨_, _, rfl, rfl⟩
  obtain ⟨s, later, hbefore, hbetween⟩ := hrun
  have hall := (get_after_run ⟨[7], 3, 0⟩ hbefore hbetween (by simp [Action.Writes])).2
  exact ⟨s, later, hbefore, hbetween, hall 1, hall 2⟩

/-- A key with a client does not get those before it. -/
theorem get_after_run_other_client :
    ¬ ∀ (db : Cache) (before : List Action) (s : State) (key : SIndexKey), (State.initial db).run before = some s →
      get_with_cache_exact s s key = lastValue key ((db.find key).getD 0) before ∧
      ∀ c, (get_all_clients_with_cache s s key false).find c =
        stored (lastValue (key.ofClient c) ((db.find (key.ofClient c)).getD 0) before) := by
  intro h
  have hall := (h SortedMap.empty [.put_delayed ⟨[7], 3, 3⟩ 5] _ ⟨[7], 3, 5⟩ rfl).2 3
  exact absurd hall (by decide)

end urbackup.fileindex
