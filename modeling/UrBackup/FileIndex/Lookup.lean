import UrBackup.FileIndex.AllClients
import Mathlib.Data.List.TakeWhile

namespace urbackup.fileindex

open stringtools maps

/-- The first of a sorted list is before all others. -/
theorem head?_pairwise {α : Type} {r : α → α → Prop} (hr : ∀ a b, r a b → ¬ r b a) {es : List α} (hes : es.Pairwise r)
    {e : α} : es.head? = some e ↔ e ∈ es ∧ ∀ d ∈ es, d = e ∨ r e d := by
  cases es with
  | nil => simp
  | cons a es =>
    obtain ⟨hhead, _⟩ := List.pairwise_cons.mp hes
    rw [List.head?_cons, Option.some.injEq]
    constructor
    · rintro rfl
      exact ⟨List.mem_cons_self, fun d hd => (List.mem_cons.mp hd).imp_right (hhead d)⟩
    · rintro ⟨hmem, hfirst⟩
      obtain heq | hlt := hfirst a List.mem_cons_self
      · exact heq
      · obtain rfl | hmem := List.mem_cons.mp hmem
        · rfl
        · exact absurd hlt (hr _ _ (hhead e hmem))

section Lookup

def get_from_cache (key : SIndexKey) (cache : Cache) : Option Int :=
  match cache.lowerBound key with
  | [] => none
  | e :: _ => if e.1.isEqualWithoutClientid key then some e.2 else none

/-- The entries before a key, from the one next to it on. -/
def entriesBefore (key : SIndexKey) (cache : Cache) : List (SIndexKey × Int) :=
  (cache.entries.takeWhile fun e => e.1 < key).reverse

def get_from_cache_prefer_client (key : SIndexKey) (cache : Cache) : Option Int :=
  match cache.lowerBound key with
  | [] => none
  | e :: _ =>
    if e.1.isEqualWithoutClientid key then some e.2
    else match entriesBefore key cache with
      | [] => none
      | d :: _ => if d.1.isEqualWithoutClientid key then some d.2 else none

/-- The key that was looked for is compared with itself. -/
def get_any_client (s : State) (orig_key : SIndexKey) : Int :=
  match s.db.lowerBound orig_key with
  | [] => 0
  | e :: _ => if !orig_key.isEqualWithoutClientid orig_key then 0 else e.2

/-- The loop of `get_prefer_client`, with the cursor at `curr` and the entries
before it. -/
def preferClient (orig_key : SIndexKey) (has_error : Bool) : Nat → SIndexKey × Int → List (SIndexKey × Int) → Int
  | 0, _, _ => 0
  | retry_prev + 1, curr, before =>
    if has_error then 0
    else if curr.1.isEqualWithoutClientid orig_key then curr.2
    else match before with
      | [] => 0
      | prev :: before => preferClient orig_key has_error retry_prev prev before

def get_prefer_client (has_error : Bool) (s : State) (orig_key : SIndexKey) : Int :=
  match s.db.lowerBound orig_key with
  | [] => 0
  | e :: _ => preferClient orig_key has_error 2 e (entriesBefore orig_key s.db)

/-- The database is looked at in a later state, like in `get_with_cache_exact`. -/
def get_with_cache (s later : State) (key : SIndexKey) : Int :=
  ((get_from_cache key s.active_cache_buffer).or (get_from_cache key s.other_cache_buffer)).getD (get_any_client later key)

def get_with_cache_prefer_client (has_error : Bool) (s later : State) (key : SIndexKey) : Int :=
  ((get_from_cache_prefer_client key s.active_cache_buffer).or
    (get_from_cache_prefer_client key s.other_cache_buffer)).getD (get_prefer_client has_error later key)

end Lookup

section Current

/-- The current entry of the client of a key, zero without one. -/
def current (s : State) (key : SIndexKey) : Int :=
  get_with_cache_exact s s key

def NoneCurrent (s : State) (key : SIndexKey) : Prop :=
  ∀ c, current s (key.ofClient c) = 0

/-- A current entry of the file is returned, zero if there is none. -/
def ReturnsCurrent (s : State) (key : SIndexKey) (ret : Int) : Prop :=
  (∃ c, current s (key.ofClient c) ≠ 0 ∧ ret = current s (key.ofClient c)) ∨ NoneCurrent s key ∧ ret = 0

/-- That of the client of the key, if it has one. -/
def ReturnsPreferred (s : State) (key : SIndexKey) (ret : Int) : Prop :=
  (current s key ≠ 0 → ret = current s key) ∧ ReturnsCurrent s key ret

end Current

section Contents

/-- The first entry from a key on. -/
structure First (key : SIndexKey) (cache : Cache) (e : SIndexKey × Int) : Prop where
  mem : e ∈ cache.entries
  le : key ≤ e.1
  first : ∀ d ∈ cache.entries, key ≤ d.1 → d = e ∨ e.1 < d.1

/-- The last entry before a key. -/
structure Last (key : SIndexKey) (cache : Cache) (e : SIndexKey × Int) : Prop where
  mem : e ∈ cache.entries
  lt : e.1 < key
  last : ∀ d ∈ cache.entries, d.1 < key → d = e ∨ d.1 < e.1

def FirstOfFile (key : SIndexKey) (cache : Cache) (e : SIndexKey × Int) : Prop :=
  First key cache e ∧ e.1.isEqualWithoutClientid key = true

/-- First from the key on, or right before it if one of another file follows. -/
def NextTo (key : SIndexKey) (cache : Cache) (e : SIndexKey × Int) : Prop :=
  FirstOfFile key cache e ∨ (Last key cache e ∧ e.1.isEqualWithoutClientid key = true) ∧
    ∃ d, First key cache d ∧ d.1.isEqualWithoutClientid key = false

/-- It is in the active buffer, or nothing of the kind is there and it is in the
other one, or in neither and it is in the database. -/
def Holds {α : Type} (s : State) (InBuffer : Cache → α → Prop) (InDb : α → Prop) (x : α) : Prop :=
  InBuffer s.active_cache_buffer x ∨ (∀ y, ¬ InBuffer s.active_cache_buffer y) ∧
    (InBuffer s.other_cache_buffer x ∨ (∀ y, ¬ InBuffer s.other_cache_buffer y) ∧ InDb x)

def Stored (s : State) (k : SIndexKey) : Int → Prop :=
  Holds s (fun cache value => (k, value) ∈ cache.entries) fun value => (k, value) ∈ s.db.entries

/-- Not a deletion. -/
def Live (s : State) (k : SIndexKey) (value : Int) : Prop :=
  value ≠ 0 ∧ Stored s k value

/-- First in a buffer among the entries of the file, in the database among all. -/
def HoldsFirst (s : State) (key : SIndexKey) : SIndexKey × Int → Prop :=
  Holds s (FirstOfFile key) (First key s.db)

def HoldsNextTo (has_error : Bool) (s : State) (key : SIndexKey) : SIndexKey × Int → Prop :=
  Holds s (NextTo key) fun e => has_error = false ∧ NextTo key s.db e

/-- How a file is missed at an entry: it is a deletion, or there is none, though a
client has the file, or it is the wrong one and no client has its id for the file. -/
inductive Misses (s : State) (key : SIndexKey) (At Wrong : SIndexKey × Int → Prop) : Prop where
  | deleted {e : SIndexKey × Int} {c : Nat} {value : Int} (hat : At e) (hzero : e.2 = 0)
      (hlive : Live s (key.ofClient c) value)
  | missing {c : Nat} {value : Int} (hat : ∀ e, ¬ At e) (hlive : Live s (key.ofClient c) value)
  | wrong {e : SIndexKey × Int} (hat : At e) (hvalue : e.2 ≠ 0) (hwrong : Wrong e)
      (hid : ∀ c, ¬ Live s (key.ofClient c) e.2)

/-- Without preference an entry of another file is the wrong one. -/
def MissesFile (s : State) (key : SIndexKey) : Prop :=
  Misses s key (HoldsFirst s key) fun e => e.1.isEqualWithoutClientid key = false

/-- Another value is stored in front of an entry. -/
def Superseded (s : State) (e : SIndexKey × Int) : Prop :=
  ∃ value, value ≠ e.2 ∧ Stored s e.1 value

/-- The client of the key has the file, with another id than the entry next to it. -/
def MissesClient (has_error : Bool) (s : State) (key : SIndexKey) : Prop :=
  ∃ e value, HoldsNextTo has_error s key e ∧ e.2 ≠ 0 ∧ e.1 ≠ key ∧ Live s key value ∧ value ≠ e.2

def MissesPreferred (has_error : Bool) (s : State) (key : SIndexKey) : Prop :=
  Misses s key (HoldsNextTo has_error s key) (Superseded s) ∨ MissesClient has_error s key

end Contents

section Deciding

/-- The entry next to a key. -/
def nextTo (key : SIndexKey) (cache : Cache) : Option (SIndexKey × Int) :=
  (sameFile key cache).head?.or
    (if (cache.lowerBound key).isEmpty then none
    else (entriesBefore key cache).head?.filter fun e => e.1.isEqualWithoutClientid key)

def deciding (s : State) (key : SIndexKey) : Option (SIndexKey × Int) :=
  ((sameFile key s.active_cache_buffer).head?.or (sameFile key s.other_cache_buffer).head?).or (s.db.lowerBound key).head?

def decidingPreferred (has_error : Bool) (s : State) (key : SIndexKey) : Option (SIndexKey × Int) :=
  ((nextTo key s.active_cache_buffer).or (nextTo key s.other_cache_buffer)).or
    (if has_error then none else nextTo key s.db)

variable {s : State} {key k : SIndexKey} {cache : Cache} {has_error : Bool} {entry : Option (SIndexKey × Int)}
  {e : SIndexKey × Int}

/-- The value of an entry that decides. -/
def valueOf (entry : Option (SIndexKey × Int)) : Int :=
  (entry.map Prod.snd).getD 0

theorem valueOf_or (entry entry' : Option (SIndexKey × Int)) :
    valueOf (entry.or entry') = (entry.map Prod.snd).getD (valueOf entry') := by
  cases entry <;> rfl

theorem sameFile_head? : (sameFile key cache).head? =
    (cache.lowerBound key).head?.filter fun e => e.1.isEqualWithoutClientid key := by
  rw [sameFile]
  cases cache.lowerBound key with
  | nil => rfl
  | cons e es =>
    rw [List.takeWhile_cons]
    split
    · next hsame => simp [Option.filter_some, hsame]
    · next hsame => simp [Option.filter_some, hsame]

theorem get_from_cache_eq : get_from_cache key cache = (sameFile key cache).head?.map Prod.snd := by
  rw [sameFile_head?, get_from_cache]
  cases cache.lowerBound key with
  | nil => rfl
  | cons e es =>
    dsimp only
    split
    · next hsame => simp [Option.filter_some, hsame]
    · next hsame => simp [Option.filter_some, hsame]

theorem get_with_cache_eq : get_with_cache s s key = valueOf (deciding s key) := by
  have hany : get_any_client s key = valueOf (s.db.lowerBound key).head? := by
    rw [get_any_client]
    cases s.db.lowerBound key with
    | nil => rfl
    | cons e es => simp [SIndexKey.isEqualWithoutClientid, valueOf]
  rw [get_with_cache, get_from_cache_eq, get_from_cache_eq, ← Option.map_or, hany, deciding, valueOf_or]

theorem get_from_cache_prefer_client_eq :
    get_from_cache_prefer_client key cache = (nextTo key cache).map Prod.snd := by
  rw [nextTo, sameFile_head?, get_from_cache_prefer_client]
  cases cache.lowerBound key with
  | nil => rfl
  | cons e es =>
    by_cases hsame : e.1.isEqualWithoutClientid key = true
    · simp [Option.filter_some, hsame]
    · cases entriesBefore key cache with
      | nil => simp [Option.filter_some, hsame]
      | cons d ds =>
        by_cases hbefore : d.1.isEqualWithoutClientid key = true
        · simp [Option.filter_some, hsame, hbefore]
        · simp [Option.filter_some, hsame, hbefore]

theorem get_prefer_client_eq : get_prefer_client has_error s key = valueOf (if has_error then none else nextTo key s.db) := by
  rw [nextTo, sameFile_head?, get_prefer_client]
  cases s.db.lowerBound key with
  | nil => cases has_error <;> rfl
  | cons e es =>
    cases has_error with
    | true => rfl
    | false =>
      by_cases hsame : e.1.isEqualWithoutClientid key = true
      · simp [Option.filter_some, preferClient, hsame, valueOf]
      · cases entriesBefore key s.db with
        | nil => simp [Option.filter_some, preferClient, hsame, valueOf]
        | cons d ds =>
          by_cases hbefore : d.1.isEqualWithoutClientid key = true
          · simp [Option.filter_some, preferClient, hsame, hbefore, valueOf]
          · cases ds <;> simp [Option.filter_some, preferClient, hsame, hbefore, valueOf]

theorem get_with_cache_prefer_client_eq :
    get_with_cache_prefer_client has_error s s key = valueOf (decidingPreferred has_error s key) := by
  rw [get_with_cache_prefer_client, get_from_cache_prefer_client_eq, get_from_cache_prefer_client_eq, ← Option.map_or,
    get_prefer_client_eq, decidingPreferred, valueOf_or]

end Deciding

section Bridge

variable {s : State} {key k : SIndexKey} {cache : Cache} {has_error : Bool} {e : SIndexKey × Int} {value : Int}

theorem lowerBound_head? : (cache.lowerBound key).head? = some e ↔ First key cache e := by
  rw [SortedMap.lowerBound, head?_pairwise (fun _ _ h => h.asymm) (cache.sorted.sublist (List.dropWhile_sublist _))]
  simp only [SortedMap.mem_dropWhile_lt cache.sorted, and_imp, and_assoc]
  exact ⟨fun h => ⟨h.1, h.2.1, h.2.2⟩, fun h => ⟨h.mem, h.le, h.first⟩⟩

theorem entriesBefore_head? : (entriesBefore key cache).head? = some e ↔ Last key cache e := by
  have hsorted : (entriesBefore key cache).Pairwise fun a b => b.1 < a.1 :=
    List.pairwise_reverse.mpr (cache.sorted.sublist (List.takeWhile_sublist _))
  have hmem : ∀ d, d ∈ entriesBefore key cache ↔ d ∈ cache.entries ∧ d.1 < key := by
    intro d
    rw [entriesBefore, List.mem_reverse, SortedMap.mem_takeWhile_sorted cache.sorted, decide_eq_true_eq]
    intro a _ b hab hb
    simpa using hab.trans (by simpa using hb)
  rw [head?_pairwise (fun _ _ h => h.asymm) hsorted]
  simp only [hmem, and_imp, and_assoc]
  exact ⟨fun h => ⟨h.1, h.2.1, h.2.2⟩, fun h => ⟨h.mem, h.lt, h.last⟩⟩

theorem firstOfFile_iff : (sameFile key cache).head? = some e ↔ FirstOfFile key cache e := by
  rw [sameFile_head?, Option.filter_eq_some_iff, lowerBound_head?, FirstOfFile]

theorem nextTo_iff : nextTo key cache = some e ↔ NextTo key cache e := by
  have hnone : (sameFile key cache).head? = none ∧ (cache.lowerBound key).isEmpty = false ↔
      ∃ d, First key cache d ∧ d.1.isEqualWithoutClientid key = false := by
    simp only [← lowerBound_head?, sameFile_head?]
    cases cache.lowerBound key with
    | nil => simp
    | cons d ds => simp [Option.filter_some]
  rw [nextTo, Option.or_eq_some_iff, firstOfFile_iff, NextTo, ← hnone, ← entriesBefore_head?]
  cases (cache.lowerBound key).isEmpty with
  | true => simp
  | false => simp [Option.filter_eq_some_iff, and_comm]

theorem holds_iff {α : Type} {InBuffer : Cache → α → Prop} {InDb : α → Prop} (inBuffer : Cache → Option α)
    (inDb : Option α) {x : α} (hbuffer : ∀ cache y, inBuffer cache = some y ↔ InBuffer cache y)
    (hdb : ∀ y, inDb = some y ↔ InDb y) :
    ((inBuffer s.active_cache_buffer).or (inBuffer s.other_cache_buffer)).or inDb = some x ↔ Holds s InBuffer InDb x := by
  rw [Option.or_eq_some_iff, Option.or_eq_some_iff, Option.or_eq_none_iff, Holds]
  simp only [← hbuffer, ← hdb, Option.eq_none_iff_forall_ne_some]
  tauto

theorem deciding_iff : deciding s key = some e ↔ HoldsFirst s key e :=
  holds_iff (fun cache => (sameFile key cache).head?) _ (fun _ _ => firstOfFile_iff) fun _ => lowerBound_head?

theorem decidingPreferred_iff : decidingPreferred has_error s key = some e ↔ HoldsNextTo has_error s key e :=
  holds_iff (nextTo key) _ (fun _ _ => nextTo_iff) fun _ => by cases has_error <;> simp [nextTo_iff]

theorem stored_iff : Stored s k value ↔
    ((s.active_cache_buffer.find k).or (s.other_cache_buffer.find k)).or (s.db.find k) = some value :=
  (holds_iff (fun cache => cache.find k) _ (fun _ _ => SortedMap.find_eq_some) fun _ => SortedMap.find_eq_some).symm

theorem live_iff : Live s k value ↔ value ≠ 0 ∧ current s k = value := by
  refine and_congr_right fun hvalue => ?_
  rw [stored_iff, current, get_with_cache_exact, get_from_caches_exact, get]
  cases (s.active_cache_buffer.find k).or (s.other_cache_buffer.find k) with
  | some _ => simp
  | none => cases s.db.find k <;> simp [hvalue.symm]

theorem noneCurrent_iff : NoneCurrent s key ↔ ∀ c value, ¬ Live s (key.ofClient c) value := by
  simp only [live_iff, NoneCurrent]
  constructor
  · rintro hnone c _ ⟨hvalue, rfl⟩
    exact hvalue (hnone c)
  · intro hnone c
    by_contra hcurrent
    exact hnone c _ ⟨hcurrent, rfl⟩

end Bridge

section Found

variable {s : State} {key k : SIndexKey} {cache : Cache} {e : SIndexKey × Int} {has_error : Bool} {value : Int}

theorem exists_firstOfFile (hmem : (k, value) ∈ cache.entries) (hle : key ≤ k)
    (hsame : k.isEqualWithoutClientid key = true) : ∃ d, FirstOfFile key cache d := by
  have hfile : (k, value) ∈ sameFile key cache := mem_sameFile.mpr ⟨hmem, hle, hsame⟩
  cases hhead : (sameFile key cache).head? with
  | none =>
    rw [List.head?_eq_none_iff.mp hhead] at hfile
    cases hfile
  | some d => exact ⟨d, firstOfFile_iff.mp hhead⟩

theorem NextTo.mem (h : NextTo key cache e) : e ∈ cache.entries ∧ e.1.isEqualWithoutClientid key = true := by
  obtain ⟨hfirst, hsame⟩ | ⟨⟨hlast, hsame⟩, _⟩ := h
  · exact ⟨hfirst.mem, hsame⟩
  · exact ⟨hlast.mem, hsame⟩

/-- Where nothing of the kind hides an entry of its key, what is held is stored. -/
theorem Holds.stored {InBuffer : Cache → SIndexKey × Int → Prop} {InDb : SIndexKey × Int → Prop}
    (h : Holds s InBuffer InDb e) (hbuffer : ∀ cache, InBuffer cache e → e ∈ cache.entries) (hdb : InDb e → e ∈ s.db.entries)
    (hhidden : ∀ (cache : Cache) value, (e.1, value) ∈ cache.entries → ∃ d, InBuffer cache d) : Stored s e.1 e.2 := by
  have hnone : ∀ cache : Cache, (∀ d, ¬ InBuffer cache d) → ∀ value, (e.1, value) ∉ cache.entries := by
    intro cache hno value hmem
    obtain ⟨d, hd⟩ := hhidden cache value hmem
    exact hno d hd
  obtain h | ⟨hactive, h | ⟨hother, h⟩⟩ := h
  · exact Or.inl (hbuffer _ h)
  · exact Or.inr ⟨hnone _ hactive, Or.inl (hbuffer _ h)⟩
  · exact Or.inr ⟨hnone _ hactive, Or.inr ⟨hnone _ hother, hdb h⟩⟩

theorem HoldsFirst.stored (h : HoldsFirst s key e) (hsame : e.1.isEqualWithoutClientid key = true) : Stored s e.1 e.2 := by
  have hle : key ≤ e.1 := by
    obtain h | ⟨_, h | ⟨_, h⟩⟩ := h
    · exact h.1.le
    · exact h.1.le
    · exact h.le
  exact Holds.stored h (fun _ h => h.1.mem) (fun h => h.mem) fun _ _ hmem => exists_firstOfFile hmem hle hsame

/-- The entry of the key itself is not superseded. -/
theorem HoldsNextTo.stored (h : HoldsNextTo has_error s key e) (hkey : e.1 = key) : Stored s e.1 e.2 := by
  refine Holds.stored h (fun _ h => h.mem.1) (fun h => h.2.mem.1) fun _ _ hmem => ?_
  obtain ⟨d, hd⟩ := exists_firstOfFile hmem hkey.ge (hkey ▸ by simp [SIndexKey.isEqualWithoutClientid])
  exact ⟨d, Or.inl hd⟩

theorem HoldsNextTo.exists_stored (h : HoldsNextTo has_error s key e) :
    e.1.isEqualWithoutClientid key = true ∧ ∃ value, Stored s e.1 value := by
  simp only [stored_iff, ← Option.isSome_iff_exists, Option.isSome_or]
  have hfind : ∀ cache, NextTo key cache e → e.1.isEqualWithoutClientid key = true ∧ cache.find e.1 = some e.2 :=
    fun _ h => ⟨h.mem.2, SortedMap.find_eq_some.mpr h.mem.1⟩
  obtain h | ⟨_, h | ⟨_, _, h⟩⟩ := h
  · simp [hfind _ h]
  · simp [hfind _ h]
  · simp [hfind _ h]

/-- With the value of an entry a current one is returned if and only if the file
is not missed there. -/
theorem returnsCurrent_iff {entry : Option (SIndexKey × Int)} {At Wrong : SIndexKey × Int → Prop}
    (hat : ∀ e, entry = some e ↔ At e)
    (hright : ∀ e, At e → e.2 ≠ 0 → ¬ Wrong e → ∃ c, Live s (key.ofClient c) e.2) :
    ReturnsCurrent s key (valueOf entry) ↔ ¬ Misses s key At Wrong := by
  constructor
  · intro hreturns hmisses
    obtain ⟨c, hcurrent, hret⟩ | ⟨hnone, hret⟩ := hreturns
    · cases hmisses with
      | deleted he hzero _ =>
        rw [(hat _).mpr he] at hret
        exact hcurrent (hret.symm.trans hzero)
      | missing he _ =>
        rw [Option.eq_none_iff_forall_ne_some.mpr fun e h => he e ((hat e).mp h)] at hret
        exact hcurrent hret.symm
      | wrong he hvalue _ hid =>
        rw [(hat _).mpr he] at hret
        exact hid c (live_iff.mpr ⟨hvalue, hret.symm⟩)
    · cases hmisses with
      | deleted _ _ hlive => exact noneCurrent_iff.mp hnone _ _ hlive
      | missing _ hlive => exact noneCurrent_iff.mp hnone _ _ hlive
      | wrong he hvalue _ _ =>
        rw [(hat _).mpr he] at hret
        exact hvalue hret
  · intro hmisses
    cases entry with
    | none =>
      have hno : ∀ e, ¬ At e := fun e he => by cases (hat e).mpr he
      exact Or.inr ⟨noneCurrent_iff.mpr fun _ _ hlive => hmisses (.missing hno hlive), rfl⟩
    | some e =>
      have he : At e := (hat e).mp rfl
      by_cases hvalue : e.2 = 0
      · exact Or.inr ⟨noneCurrent_iff.mpr fun _ _ hlive => hmisses (.deleted he hvalue hlive), hvalue⟩
      · have hlive : ∃ c, Live s (key.ofClient c) e.2 := by
          by_contra hid
          exact hmisses (.wrong he hvalue (by_contra fun hwrong => hid (hright e he hvalue hwrong)) fun c h => hid ⟨c, h⟩)
        obtain ⟨c, hlive⟩ := hlive
        obtain ⟨_, hcurrent⟩ := live_iff.mp hlive
        exact Or.inl ⟨c, hcurrent ▸ hvalue, hcurrent.symm⟩

theorem get_with_cache_iff : ReturnsCurrent s key (get_with_cache s s key) ↔ ¬ MissesFile s key := by
  rw [get_with_cache_eq]
  refine returnsCurrent_iff (fun _ => deciding_iff) fun e he hvalue hwrong => ⟨e.1.clientid, hvalue, ?_⟩
  have hsame : e.1.isEqualWithoutClientid key = true := by simpa using hwrong
  exact SIndexKey.eq_ofClient hsame ▸ he.stored hsame

theorem get_with_cache_prefer_client_iff :
    ReturnsPreferred s key (get_with_cache_prefer_client has_error s s key) ↔ ¬ MissesPreferred has_error s key := by
  have hright : ∀ e, HoldsNextTo has_error s key e → e.2 ≠ 0 → ¬ Superseded s e → ∃ c, Live s (key.ofClient c) e.2 := by
    intro e he hvalue hwrong
    obtain ⟨hsame, value, hstored⟩ := he.exists_stored
    have hv : value = e.2 := by_contra fun hne => hwrong ⟨value, hne, hstored⟩
    exact ⟨e.1.clientid, hvalue, SIndexKey.eq_ofClient hsame ▸ hv ▸ hstored⟩
  rw [get_with_cache_prefer_client_eq, ReturnsPreferred, MissesPreferred, not_or,
    ← returnsCurrent_iff (fun _ => decidingPreferred_iff) hright, and_comm]
  refine and_congr_right fun hreturns => ⟨?_, fun hmisses hcurrent => ?_⟩
  · rintro hown ⟨e, value, he, _, _, hlive, hne⟩
    obtain ⟨hvalue, hcurrent⟩ := live_iff.mp hlive
    have hret := hown (hcurrent ▸ hvalue)
    rw [decidingPreferred_iff.mpr he] at hret
    exact hne (hcurrent.symm.trans hret.symm)
  · obtain ⟨c, hc, hret⟩ | ⟨hnone, _⟩ := hreturns
    · cases hentry : decidingPreferred has_error s key with
      | none =>
        rw [hentry] at hret
        exact absurd hret.symm hc
      | some e =>
        rw [hentry] at hret
        have he : HoldsNextTo has_error s key e := decidingPreferred_iff.mp hentry
        have hvalue : e.2 ≠ 0 := fun hzero => hc (hret.symm.trans hzero)
        by_cases hkey : e.1 = key
        · have hstored := he.stored hkey
          rw [hkey] at hstored
          exact (live_iff.mp ⟨hvalue, hstored⟩).2.symm
        · by_contra hne
          exact hmisses ⟨e, _, he, hvalue, hkey, live_iff.mpr ⟨hcurrent, rfl⟩, Ne.symm hne⟩
    · exact absurd (hnone key.clientid) hcurrent

end Found

/-- Both look-ups return what they should if and only if neither misses the file
at the entries around the key. -/
theorem get_with_cache_both_iff (has_error : Bool) (s : State) (key : SIndexKey) :
    ReturnsPreferred s key (get_with_cache_prefer_client has_error s s key) ∧ ReturnsCurrent s key (get_with_cache s s key) ↔
      ¬ MissesPreferred has_error s key ∧ ¬ MissesFile s key :=
  and_congr get_with_cache_prefer_client_iff get_with_cache_iff

/-- The entry of the first client is deleted in a buffer, that of the second one
is in the database. -/
def deletedFirst : State :=
  { State.initial (SortedMap.empty.insert ⟨[7], 3, 2⟩ 6) with
    active_cache_buffer := SortedMap.empty.insert ⟨[7], 3, 1⟩ 0 }

theorem get_with_cache_deleted :
    ¬ ∀ (s : State) (key : SIndexKey), ReturnsPreferred s key (get_with_cache_prefer_client false s s key) ∧
      ReturnsCurrent s key (get_with_cache s s key) := by
  intro h
  have hret : get_with_cache deletedFirst deletedFirst ⟨[7], 3, 1⟩ = 0 := by decide
  have hcurrent : current deletedFirst ⟨[7], 3, 2⟩ = 6 := by decide
  obtain ⟨c, hne, heq⟩ | ⟨hnone, _⟩ := (h deletedFirst ⟨[7], 3, 1⟩).2
  · exact hne (heq ▸ hret)
  · exact absurd (hcurrent.symm.trans (hnone 2)) (by decide)

end urbackup.fileindex
