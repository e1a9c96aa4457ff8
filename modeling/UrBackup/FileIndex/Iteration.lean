import UrBackup.FileIndex.AllClients
import Mathlib.Data.List.Pairwise
import Mathlib.Data.List.TakeWhile

namespace urbackup.fileindex

open stringtools maps

def bytes_in_index : Nat := 16

namespace SIndexKey

/-- The key without arguments. -/
def zero : SIndexKey :=
  ⟨List.replicate bytes_in_index 0, 0, 0⟩

end SIndexKey

/-- The keys of a database have the hashes of `SIndexKey`. -/
structure Index where
  db : Cache
  hash_length : ∀ e ∈ db.entries, e.1.hash.length = bytes_in_index

/-- A cursor has the entries from the one it is at on. -/
structure Iterator where
  it_cursor : List (SIndexKey × Int)
  has_error : Bool

section Iteration

def start_iteration (db : Cache) : Iterator :=
  ⟨db.lowerBound SIndexKey.zero, (db.lowerBound SIndexKey.zero).isEmpty⟩

/-- The loop of `get_next_entries_iteration`, with the cursor at `curr` and the
entries after it. At the end of the database the cursor stays where it is. -/
def nextEntries (start_key key : SIndexKey) (has_next : Bool) (ret : SortedMap Nat Int) (curr : SIndexKey × Int) :
    List (SIndexKey × Int) → SortedMap Nat Int × Bool × List (SIndexKey × Int)
  | [] => (ret, false, [curr])
  | e :: es =>
    if start_key.isEqualWithoutClientid e.1 then nextEntries start_key key has_next (ret.insert key.clientid e.2) e es
    else (ret, has_next, e :: es)

/-- The map, `has_next` and the iterator after it. A cursor that has found
nothing cannot be asked where it is. -/
def get_next_entries_iteration (it : Iterator) (has_next : Bool) : SortedMap Nat Int × Bool × Iterator :=
  match it.it_cursor with
  | [] => (SortedMap.empty, false, { it with has_error := true })
  | e :: es =>
    let next := nextEntries e.1 SIndexKey.zero has_next (SortedMap.empty.insert e.1.clientid e.2) e es
    (next.1, next.2.1, { it with it_cursor := next.2.2 })

theorem length_nextEntries {start_key key : SIndexKey} {has_next : Bool} {ret : SortedMap Nat Int}
    {curr : SIndexKey × Int} {es : List (SIndexKey × Int)}
    (h : (nextEntries start_key key has_next ret curr es).2.1 = true) :
    (nextEntries start_key key has_next ret curr es).2.2.length ≤ es.length := by
  induction es generalizing ret curr with
  | nil => simp [nextEntries] at h
  | cons e es ih =>
    rw [nextEntries] at h ⊢
    split
    · next hsame =>
      rw [if_pos hsame] at h
      exact (ih h).trans (Nat.le_succ _)
    · exact le_refl _

theorem length_get_next {it : Iterator} {has_next : Bool} (h : (get_next_entries_iteration it has_next).2.1 = true) :
    (get_next_entries_iteration it has_next).2.2.it_cursor.length < it.it_cursor.length := by
  obtain ⟨cursor, has_error⟩ := it
  cases cursor with
  | nil => simp [get_next_entries_iteration] at h
  | cons e es => exact Nat.lt_succ_of_le (length_nextEntries h)

/-- What the calls return until there is nothing next. -/
def next_entries (it : Iterator) : List (SortedMap Nat Int) :=
  let next := get_next_entries_iteration it true
  if _h : next.2.1 = true then next.1 :: next_entries next.2.2 else [next.1]
termination_by it.it_cursor.length
decreasing_by exact length_get_next _h

/-- A whole iteration; the map of an empty index stands for no file. -/
def iterate (index : Index) : List (SortedMap Nat Int) :=
  (next_entries (start_iteration index.db)).filter fun ret => !ret.entries.isEmpty

end Iteration

/-- The maps of all files, of each one once: from every client that has an entry
of the file to this entry. -/
def EachFileOnce (db : Cache) (rets : List (SortedMap Nat Int)) : Prop :=
  ∃ files : List (Bytes × Nat), files.Nodup ∧
    (∀ file, file ∈ files ↔ ∃ e ∈ db.entries, (e.1.hash, e.1.filesize) = file) ∧
    List.Forall₂ (fun file ret => ∀ c, ret.find c = db.find ⟨file.1, file.2, c⟩) files rets

/-- No file has entries of two clients. -/
def OneClient (db : Cache) : Prop :=
  db.entries.Pairwise fun a b => a.1.isEqualWithoutClientid b.1 = false

section Start

theorem not_lt_replicate_zero (n : Nat) {l : List Nat} (h : l.length = n) : ¬ l < List.replicate n 0 := by
  induction n generalizing l with
  | zero => exact List.not_lt_nil l
  | succ n ih =>
    obtain ⟨a, as, rfl⟩ := List.exists_cons_of_length_eq_add_one h
    rw [List.replicate_succ, List.cons_lt_cons_iff]
    rintro (hlt | ⟨_, hlt⟩)
    · exact absurd hlt (Nat.not_lt_zero a)
    · exact ih (Nat.succ.inj h) hlt

theorem zero_le {key : SIndexKey} (h : key.hash.length = bytes_in_index) : SIndexKey.zero ≤ key := by
  have hle : SIndexKey.zero.hash.map UInt8.toNat ≤ key.hash.map UInt8.toNat := by
    have hzero : SIndexKey.zero.hash.map UInt8.toNat = List.replicate bytes_in_index 0 := by
      rw [SIndexKey.zero, List.map_replicate]
      rfl
    rw [hzero]
    exact not_lt.mp (not_lt_replicate_zero _ (by rw [List.length_map, h]))
  rw [SIndexKey.le_iff]
  obtain hlt | heq := hle.lt_or_eq
  · exact Or.inl hlt
  · refine Or.inr ⟨heq, ?_⟩
    simp only [SIndexKey.zero]
    omega

/-- The iteration starts with all entries. -/
theorem start_cursor (index : Index) : (start_iteration index.db).it_cursor = index.db.entries := by
  show index.db.entries.dropWhile _ = _
  rw [List.dropWhile_eq_self_iff]
  intro hpos
  have hmem := List.getElem_mem hpos
  simpa using zero_le (index.hash_length _ hmem)

end Start

section Returned

variable {start_key : SIndexKey} {has_next : Bool} {ret : SortedMap Nat Int} {curr : SIndexKey × Int}
  {es : List (SIndexKey × Int)} {it : Iterator}

/-- What a call can return for a file: its only entry, or the first one of its
entries and the others as one of client zero. -/
def Returns (e : SIndexKey × Int) (es : List (SIndexKey × Int)) (ret : SortedMap Nat Int) : Prop :=
  ret = SortedMap.empty.insert e.1.clientid e.2 ∨
  (∃ d ∈ es, e.1.isEqualWithoutClientid d.1 = true) ∧ ∀ c, ret.find c ≠ none → c = e.1.clientid ∨ c = 0

theorem nextEntries_suffix (h : (nextEntries start_key SIndexKey.zero has_next ret curr es).2.1 = true) :
    (nextEntries start_key SIndexKey.zero has_next ret curr es).2.2 <:+ es := by
  induction es generalizing ret curr with
  | nil => simp [nextEntries] at h
  | cons e es ih =>
    rw [nextEntries] at h ⊢
    split
    · next hsame =>
      rw [if_pos hsame] at h
      exact (ih h).trans (List.suffix_cons e es)
    · exact List.suffix_rfl

theorem nextEntries_clients {clients : Nat → Prop} (hzero : clients 0) (hret : ∀ c, ret.find c ≠ none → clients c) (c : Nat)
    (hc : (nextEntries start_key SIndexKey.zero has_next ret curr es).1.find c ≠ none) : clients c := by
  induction es generalizing ret curr with
  | nil => exact hret c hc
  | cons e es ih =>
    rw [nextEntries] at hc
    split at hc
    · apply ih _ hc
      intro c hc
      rw [SortedMap.find_insert] at hc
      split at hc
      · next heq => exact heq ▸ hzero
      · exact hret c hc
    · exact hret c hc

theorem nextEntries_returns (e : SIndexKey × Int) (es : List (SIndexKey × Int)) :
    Returns e es (nextEntries e.1 SIndexKey.zero has_next (SortedMap.empty.insert e.1.clientid e.2) e es).1 := by
  have hclients : ∀ c, (nextEntries e.1 SIndexKey.zero has_next (SortedMap.empty.insert e.1.clientid e.2) e es).1.find c ≠ none →
      c = e.1.clientid ∨ c = 0 := by
    refine nextEntries_clients (Or.inr rfl) fun c hc => ?_
    rw [SortedMap.find_insert] at hc
    split at hc
    · next heq => exact Or.inl heq.symm
    · simp at hc
  cases es with
  | nil => exact Or.inl rfl
  | cons d es =>
    by_cases hsame : e.1.isEqualWithoutClientid d.1 = true
    · exact Or.inr ⟨⟨d, List.mem_cons_self, hsame⟩, hclients⟩
    · left
      rw [nextEntries, if_neg hsame]

theorem next_entries_nil (has_error : Bool) : next_entries ⟨[], has_error⟩ = [SortedMap.empty] := by
  rw [next_entries]
  rfl

theorem next_entries_cons (e : SIndexKey × Int) (es : List (SIndexKey × Int)) (has_error : Bool) :
    next_entries ⟨e :: es, has_error⟩ =
      (nextEntries e.1 SIndexKey.zero true (SortedMap.empty.insert e.1.clientid e.2) e es).1 ::
        if (nextEntries e.1 SIndexKey.zero true (SortedMap.empty.insert e.1.clientid e.2) e es).2.1 = true then
          next_entries ⟨(nextEntries e.1 SIndexKey.zero true (SortedMap.empty.insert e.1.clientid e.2) e es).2.2, has_error⟩
        else [] := by
  rw [next_entries]
  by_cases hnext : (get_next_entries_iteration ⟨e :: es, has_error⟩ true).2.1 = true
  · rw [dif_pos hnext]
    exact congrArg _ (if_pos hnext).symm
  · rw [dif_neg hnext]
    exact congrArg _ (if_neg hnext).symm

/-- What an iteration returns is for the entries it starts at. -/
theorem next_entries_returns {cursor : List (SIndexKey × Int)} {has_error : Bool}
    (hret : ret ∈ next_entries ⟨cursor, has_error⟩) (hempty : ret.entries.isEmpty = false) :
    ∃ e es, e :: es <:+ cursor ∧ Returns e es ret := by
  induction hlen : cursor.length using Nat.strong_induction_on generalizing cursor with
  | _ n ih =>
    cases cursor with
    | nil =>
      rw [next_entries_nil, List.mem_singleton] at hret
      rw [hret] at hempty
      simp [SortedMap.empty] at hempty
    | cons e es =>
      rw [next_entries_cons, List.mem_cons] at hret
      obtain rfl | hret := hret
      · exact ⟨e, es, List.suffix_rfl, nextEntries_returns e es⟩
      · split at hret
        · next hnext =>
          have hsuffix := nextEntries_suffix hnext
          have hlt := hsuffix.length_le
          rw [List.length_cons] at hlen
          obtain ⟨d, ds, hds, hreturns⟩ := ih _ (by omega) hret rfl
          exact ⟨d, ds, hds.trans (hsuffix.trans (List.suffix_cons e es)), hreturns⟩
        · cases hret

/-- Files of one client are returned as they are. -/
theorem next_entries_single {cursor : List (SIndexKey × Int)} (has_error : Bool) (hcursor : cursor ≠ [])
    (h : cursor.Pairwise fun a b => a.1.isEqualWithoutClientid b.1 = false) :
    next_entries ⟨cursor, has_error⟩ = cursor.map fun e => SortedMap.empty.insert e.1.clientid e.2 := by
  induction cursor with
  | nil => exact absurd rfl hcursor
  | cons e es ih =>
    obtain ⟨hhead, htail⟩ := List.pairwise_cons.mp h
    rw [next_entries_cons]
    cases es with
    | nil => rfl
    | cons d ds =>
      have hother : ¬ e.1.isEqualWithoutClientid d.1 = true := by simp [hhead d List.mem_cons_self]
      rw [nextEntries, if_neg hother, if_pos rfl, ih (List.cons_ne_nil d ds) htail]
      rfl

end Returned

section EachFile

variable {db : Cache}

theorem find_single (c c' : Nat) (v v' : Int) :
    (SortedMap.empty.insert c v).find c' = some v' ↔ c = c' ∧ v = v' := by
  rw [SortedMap.find_insert]
  split
  · next heq => simp [heq]
  · next hne => simp [hne]

theorem isEqualWithoutClientid_comm (a b : SIndexKey) : a.isEqualWithoutClientid b = b.isEqualWithoutClientid a := by
  simp only [SIndexKey.isEqualWithoutClientid, eq_comm]

instance : Std.Symm fun a b : SIndexKey × Int => a.1.isEqualWithoutClientid b.1 = false :=
  ⟨fun a b h => (isEqualWithoutClientid_comm b.1 a.1).trans h⟩

theorem find_file (hone : OneClient db) {e : SIndexKey × Int} (he : e ∈ db.entries) (c : Nat) :
    (SortedMap.empty.insert e.1.clientid e.2).find c = db.find ⟨e.1.hash, e.1.filesize, c⟩ := by
  refine Option.ext fun v => ?_
  rw [find_single, SortedMap.find_eq_some]
  constructor
  · rintro ⟨rfl, rfl⟩
    exact he
  · intro hmem
    by_cases heq : e = (⟨e.1.hash, e.1.filesize, c⟩, v)
    · exact ⟨congrArg (fun e => e.1.clientid) heq, congrArg Prod.snd heq⟩
    · have hother := hone.forall he hmem heq
      simp [SIndexKey.isEqualWithoutClientid] at hother

theorem clientid_lt {a b : SIndexKey} (hlt : a < b) (hsame : a.isEqualWithoutClientid b = true) :
    a.clientid < b.clientid := by
  have heq := SIndexKey.eq_ofClient ((isEqualWithoutClientid_comm b a).trans hsame)
  refine lt_of_not_ge fun hle => ?_
  have hba : a.ofClient b.clientid ≤ a := by
    rw [SIndexKey.le_iff]
    exact Or.inr ⟨rfl, Or.inr ⟨rfl, hle⟩⟩
  rw [← heq] at hba
  exact absurd hlt hba.not_gt

/-- The map of a file of two clients has both of them, so it is that of a file
whose further clients are not zero. -/
theorem later_client_of_eachFileOnce {index : Index} (h : EachFileOnce index.db (iterate index))
    {a b : SIndexKey × Int} (ha : a ∈ index.db.entries) (hb : b ∈ index.db.entries)
    (hsame : a.1.isEqualWithoutClientid b.1 = true) (hclient : a.1.clientid ≠ b.1.clientid) :
    ∃ e ∈ index.db.entries, ∃ d ∈ index.db.entries, e.1.isEqualWithoutClientid d.1 = true ∧ e.1.clientid < d.1.clientid ∧
      (a.1.clientid = e.1.clientid ∨ a.1.clientid = 0) ∧ (b.1.clientid = e.1.clientid ∨ b.1.clientid = 0) := by
  obtain ⟨files, _, hfiles, hmatch⟩ := h
  obtain ⟨i, hi, hfile⟩ := List.getElem_of_mem ((hfiles _).mpr ⟨a, ha, rfl⟩)
  have hi' : i < (iterate index).length := hmatch.length_eq ▸ hi
  have hfind := hmatch.get hi hi'
  simp only [List.get_eq_getElem, hfile] at hfind
  have hfinda : (iterate index)[i].find a.1.clientid ≠ none := by
    rw [hfind, SortedMap.find_eq_some.mpr ha]
    exact Option.some_ne_none _
  have hfindb : (iterate index)[i].find b.1.clientid ≠ none := by
    have heq := SIndexKey.eq_ofClient ((isEqualWithoutClientid_comm b.1 a.1).trans hsame)
    rw [SIndexKey.ofClient] at heq
    rw [hfind, ← heq, SortedMap.find_eq_some.mpr hb]
    exact Option.some_ne_none _
  have hret := List.mem_filter.mp (List.getElem_mem hi')
  obtain ⟨e, es, hsuffix, hreturns⟩ := next_entries_returns hret.1 (by simpa using hret.2)
  replace hsuffix : e :: es <:+ index.db.entries := start_cursor index ▸ hsuffix
  obtain hsingle | ⟨⟨d, hd, hsame⟩, hclients⟩ := hreturns
  · -- a single entry is of one client only
    rw [hsingle, SortedMap.find_insert] at hfinda hfindb
    simp only [SortedMap.find_empty, ne_eq, ite_eq_right_iff, reduceCtorEq, imp_false, not_not] at hfinda hfindb
    exact absurd (hfinda.symm.trans hfindb) hclient
  · have hsorted := List.pairwise_cons.mp (index.db.sorted.sublist hsuffix.sublist)
    exact ⟨e, hsuffix.subset List.mem_cons_self, d, hsuffix.subset (List.mem_cons_of_mem _ hd), hsame,
      clientid_lt (hsorted.1 d hd) hsame, hclients _ hfinda, hclients _ hfindb⟩

theorem oneClient_of_eachFileOnce {index : Index} (h : EachFileOnce index.db (iterate index)) : OneClient index.db := by
  refine index.db.sorted.imp_of_mem fun {a b} ha hb hlt => ?_
  by_contra hsame
  simp only [Bool.not_eq_false] at hsame
  obtain ⟨e, he, d, hd, hsame', hlt', hae, hbe⟩ := later_client_of_eachFileOnce h ha hb hsame (clientid_lt hlt hsame).ne
  have hab := clientid_lt hlt hsame
  obtain ⟨e', _, d', _, _, _, hee, hde⟩ := later_client_of_eachFileOnce h he hd hsame' hlt'.ne
  omega

theorem eachFileOnce_of_oneClient {index : Index} (h : OneClient index.db) : EachFileOnce index.db (iterate index) := by
  have hiterate : iterate index = index.db.entries.map fun e => SortedMap.empty.insert e.1.clientid e.2 := by
    rw [iterate]
    have hstart : start_iteration index.db = ⟨index.db.entries, (start_iteration index.db).has_error⟩ := by
      rw [← start_cursor]
    rw [hstart]
    by_cases hempty : index.db.entries = []
    · rw [hempty, next_entries_nil]
      rfl
    · rw [next_entries_single _ hempty h, List.filter_eq_self]
      intro ret hret
      obtain ⟨e, _, rfl⟩ := List.mem_map.mp hret
      rfl
  rw [hiterate]
  refine ⟨index.db.entries.map fun e => (e.1.hash, e.1.filesize), ?_, fun file => List.mem_map, ?_⟩
  · refine List.pairwise_map.mpr (h.imp fun {a b} hother heq => ?_)
    obtain ⟨hhash, hsize⟩ := Prod.mk.inj heq
    simp [SIndexKey.isEqualWithoutClientid, hhash, hsize] at hother
  · rw [List.forall₂_map_left_iff, List.forall₂_map_right_iff, List.forall₂_same]
    exact fun e he => find_file h he

/-- An iteration returns every file once with the entries of its clients if and
only if no file is of two clients. -/
theorem iterate_eachFileOnce_iff (index : Index) : EachFileOnce index.db (iterate index) ↔ OneClient index.db :=
  ⟨oneClient_of_eachFileOnce, eachFileOnce_of_oneClient⟩

def twoClients : Index :=
  ⟨(SortedMap.empty.insert ⟨List.replicate 16 7, 3, 1⟩ 5).insert ⟨List.replicate 16 7, 3, 2⟩ 6, by decide +kernel⟩

/-- The entry of the second client is returned as one of client zero. -/
theorem iterate_second_client : ¬ EachFileOnce twoClients.db (iterate twoClients) := by
  intro h
  have hone := oneClient_of_eachFileOnce h
  exact absurd hone (by unfold OneClient; decide +kernel)

end EachFile

end urbackup.fileindex
