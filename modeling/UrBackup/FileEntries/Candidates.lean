import UrBackup.FileEntries.Effects

namespace urbackup.fileentries

open stringtools linked

/-- A row as it was read, with its id. -/
structure SFindFileEntry where
  id : Nat
  row : FileEntry

/-- The state of a search. `prev` is the row that was read last, and `client` are
the entries of `entryids` from the iterator on. -/
structure SFindState where
  state : Nat
  orig_prev : Nat
  prev : Option SFindFileEntry
  entryids : List (Nat × Nat)
  client : List (Nat × Nat)

/-- What the file index says about a hash and a size: the entries of all clients
in their order, and the one that it prefers for the client itself. -/
structure Lookups where
  entryids : List (Nat × Nat)
  prefer_client : Nat

namespace SFindState

def start : SFindState :=
  ⟨0, 0, none, [], []⟩

variable (look : Lookups) (s : SFindState)

def prevNext : Nat :=
  (s.prev.map fun e => e.row.next_entry).getD 0

def prevPrev : Nat :=
  (s.prev.map fun e => e.row.prev_entry).getD 0

/-- The entry to read, whether its row is the origin to go back from, and the
state. -/
def switch_to_all_clients : Nat × Bool × SFindState :=
  let s := { s with state := 3, entryids := look.entryids, client := look.entryids }
  match s.client with
  | [] => (0, false, s)
  | e :: _ => (e.2, true, s)

def switch_to_next_client : Nat × Bool × SFindState :=
  let s := { s with client := s.client.tail }
  match s.client with
  | [] => (0, false, s)
  | e :: _ => (e.2, false, s)

def nextEntryid : Nat × Bool × SFindState :=
  match s.state with
  | 0 => (look.prefer_client, true, { s with state := 1 })
  | 1 =>
    if s.prevNext ≠ 0 then (s.prevNext, false, s)
    else if s.orig_prev ≠ 0 then (s.orig_prev, false, { s with state := 2 })
    else s.switch_to_all_clients look
  | 2 => if s.prevPrev ≠ 0 then (s.prevPrev, false, s) else s.switch_to_all_clients look
  | 3 =>
    if s.prevNext = 0 then
      if s.orig_prev ≠ 0 then (s.orig_prev, false, { s with state := 4 }) else s.switch_to_next_client
    else (s.prevNext, false, s)
  | _ => if s.prevPrev = 0 then s.switch_to_next_client else (s.prevPrev, false, s)

end SFindState

def getFileEntry (st : Store) (entryid : Nat) : Option SFindFileEntry :=
  (st.files entryid).map fun row => ⟨entryid, row⟩

/-- A row is returned, or `none` where it does not exist. -/
def findFileHash (st : Store) (look : Lookups) (pHash : Bytes) (s : SFindState) : Option SFindFileEntry × SFindState :=
  match s.nextEntryid look with
  | (entryid, save_orig, s) =>
    if entryid = 0 then (none, s)
    else
      let s := { s with prev := getFileEntry st entryid }
      match s.prev with
      | none => (none, s)
      | some prev =>
        if prev.row.shahash.take pHash.length ≠ pHash then (none, s)
        else if save_orig then (some prev, { s with orig_prev := prev.row.prev_entry })
        else (some prev, s)

/-- The ids of the rows that repeated calls return until there is none, itself
`none` where the fuel is used up. -/
def foundRows (st : Store) (look : Lookups) (pHash : Bytes) : Nat → SFindState → Option (List Nat)
  | 0, _ => none
  | fuel + 1, s =>
    match findFileHash st look pHash s with
    | (none, _) => some []
    | (some e, s) => (foundRows st look pHash fuel s).map (e.id :: ·)

/-- The rows of a hash and a size are a doubly linked list for each client that
has some, and the index names one of them. -/
structure ClientLists (st : Store) (pHash : Bytes) (filesize : Nat) (lists : List (Nat × List Nat)) : Prop where
  clients : lists.Pairwise fun a b => a.1 < b.1
  nonempty : ∀ l ∈ lists, l.2 ≠ []
  segment : ∀ l ∈ lists, Segment st.links 0 0 l.2
  nodup : (lists.flatMap Prod.snd).Nodup
  rows : ∀ c id, (∃ ids, (c, ids) ∈ lists ∧ id ∈ ids) ↔
    ∃ row, st.files id = some row ∧ row.shahash = pHash ∧ row.filesize = filesize ∧ row.clientid = c
  indexed : ∀ l ∈ lists, st.index (indexKey pHash filesize l.1) ∈ l.2
  not_indexed : ∀ c, (∀ l ∈ lists, l.1 ≠ c) → st.index (indexKey pHash filesize c) = 0
  no_row : st.files 0 = none

/-- The look-ups name entries of the index, and the one for all clients names every
one of them. -/
structure LooksUp (st : Store) (pHash : Bytes) (filesize : Nat) (look : Lookups) : Prop where
  sorted : look.entryids.Pairwise fun a b => a.1 < b.1
  entries : ∀ c entryid, (c, entryid) ∈ look.entryids ↔ entryid ≠ 0 ∧ st.index (indexKey pHash filesize c) = entryid
  preferred : look.prefer_client ≠ 0 → ∃ c, st.index (indexKey pHash filesize c) = look.prefer_client

/-- The calls return the rows of the client itself, then those of the others, all
of them once, and then none. -/
def FindsAllOnce (st : Store) (look : Lookups) (pHash : Bytes) (clientid : Nat) (lists : List (Nat × List Nat)) : Prop :=
  ∃ fuel own other, foundRows st look pHash fuel SFindState.start = some (own ++ other) ∧
    own.Perm ((lists.filter fun l => l.1 = clientid).flatMap Prod.snd) ∧
    other.Perm ((lists.filter fun l => l.1 ≠ clientid).flatMap Prod.snd)

/-- What precedes and what follows an entry in its list. -/
def before (ids : List Nat) (entryid : Nat) : List Nat :=
  ids.takeWhile (· ≠ entryid)

def after (ids : List Nat) (entryid : Nat) : List Nat :=
  (ids.dropWhile (· ≠ entryid)).tail

/-- From the entry to the end of its list and then back from the entry. -/
def bothWays (ids : List Nat) (entryid : Nat) : List Nat :=
  entryid :: after ids entryid ++ (before ids entryid).reverse

def listOf (lists : List (Nat × List Nat)) (entryid : Nat) : List Nat :=
  ((lists.map Prod.snd).find? fun ids => decide (entryid ∈ ids)).getD []

/-- The rows that a search returns: both ways from the preferred entry and from the
first client's, and from those of the later clients one way only, which is the one
that the walk of the first client ended with. -/
def candidates (look : Lookups) (lists : List (Nat × List Nat)) : List Nat :=
  if look.prefer_client = 0 then []
  else
    bothWays (listOf lists look.prefer_client) look.prefer_client ++
    match look.entryids with
    | [] => []
    | (_, first) :: rest =>
      let ids := listOf lists first
      bothWays ids first ++
      rest.flatMap fun e =>
        e.2 :: if before ids first = [] then after (listOf lists e.2) e.2
          else (before (listOf lists e.2) e.2).reverse

theorem split_at {ids : List Nat} {entryid : Nat} (h : entryid ∈ ids) :
    ids = before ids entryid ++ entryid :: after ids entryid := by
  induction ids with
  | nil => simp at h
  | cons id ids ih =>
    by_cases heq : id = entryid
    · simp [before, after, heq]
    · have hmem : entryid ∈ ids := by simpa [Ne.symm heq] using h
      have hrest := ih hmem
      simp only [before, after] at hrest
      simpa [before, after, heq] using hrest

section Walk

variable {st : Store} {look : Lookups} {pHash : Bytes} {s s' s'' : SFindState}

/-- A row that the search accepts. -/
def Found (st : Store) (pHash : Bytes) (entryid : Nat) : Prop :=
  entryid ≠ 0 ∧ ∃ row, st.files entryid = some row ∧ row.shahash.take pHash.length = pHash

theorem prevNext_eq (st : Store) {id : Nat} (h : s.prev = getFileEntry st id) : s.prevNext = st.links.next id := by
  simp only [SFindState.prevNext, h, getFileEntry, Store.links, Option.map_map]
  rfl

theorem prevPrev_eq (st : Store) {id : Nat} (h : s.prev = getFileEntry st id) : s.prevPrev = st.links.prev id := by
  simp only [SFindState.prevPrev, h, getFileEntry, Store.links, Option.map_map]
  rfl

/-- The state once the row has been read. -/
def SFindState.read (s : SFindState) (st : Store) (entryid : Nat) (save_orig : Bool) : SFindState :=
  { s with
    prev := getFileEntry st entryid
    orig_prev := if save_orig then st.links.prev entryid else s.orig_prev }

theorem findFileHash_found {entryid : Nat} {save_orig : Bool}
    (hn : s.nextEntryid look = (entryid, save_orig, s')) (hf : Found st pHash entryid) :
    ∃ e, e.id = entryid ∧ findFileHash st look pHash s = (some e, s'.read st entryid save_orig) := by
  obtain ⟨hid, row, hrow, hhash⟩ := hf
  refine ⟨⟨entryid, row⟩, rfl, ?_⟩
  cases save_orig <;> simp [findFileHash, hn, hid, getFileEntry, hrow, hhash, SFindState.read, Store.links_prev hrow]

theorem findFileHash_end {save_orig : Bool} (hn : s.nextEntryid look = (0, save_orig, s')) :
    (findFileHash st look pHash s).1 = none := by
  simp [findFileHash, hn]

/-- The calls from one state on return rows until they reach another state. -/
def Visits (st : Store) (look : Lookups) (pHash : Bytes) (s : SFindState) (ids : List Nat) (s' : SFindState) : Prop :=
  ∀ fuel, foundRows st look pHash (fuel + ids.length) s = (foundRows st look pHash fuel s').map (ids ++ ·)

theorem Visits.refl : Visits st look pHash s [] s := by
  intro fuel
  simp

theorem Visits.trans {ids ids' : List Nat} (h : Visits st look pHash s ids s') (h' : Visits st look pHash s' ids' s'') :
    Visits st look pHash s (ids ++ ids') s'' := by
  intro fuel
  have hlen : fuel + (ids ++ ids').length = fuel + ids'.length + ids.length := by
    rw [List.length_append]
    omega
  rw [hlen, h, h', Option.map_map]
  simp [Function.comp_def]

theorem visits_found {entryid : Nat} {save_orig : Bool} (hn : s.nextEntryid look = (entryid, save_orig, s'))
    (hf : Found st pHash entryid) : Visits st look pHash s [entryid] (s'.read st entryid save_orig) := by
  obtain ⟨e, rfl, hfound⟩ := findFileHash_found hn hf
  intro fuel
  simp [foundRows, hfound]

/-- The states that follow the next links. -/
theorem visits_forwards {id : Nat} {rest : List Nat} (hstate : s.state = 1 ∨ s.state = 3)
    (hprev : s.prev = getFileEntry st id) (hnext : st.links.next id = rest.headD 0)
    (hseg : Segment st.links id 0 rest) (hf : ∀ i ∈ rest, Found st pHash i) :
    Visits st look pHash s rest { s with prev := getFileEntry st (rest.getLastD id) } := by
  induction rest generalizing id s with
  | nil =>
    rw [List.getLastD_nil, ← hprev]
    exact Visits.refl
  | cons a rest ih =>
    obtain ⟨_, hnexta, hseg⟩ := hseg
    have hfa := hf a (by simp)
    have hn : s.nextEntryid look = (a, false, s) := by
      have hp : s.prevNext = a := by rw [prevNext_eq st hprev, hnext, List.headD_cons]
      obtain h | h := hstate <;> simp [SFindState.nextEntryid, h, hp, hfa.1]
    have hrest := ih (s := s.read st a false) hstate rfl hnexta hseg (fun i hi => hf i (by simp [hi]))
    rw [List.getLastD_cons]
    exact (visits_found hn hfa).trans hrest

/-- The states that follow the previous links. -/
theorem visits_backwards {id : Nat} {ids : List Nat} (hstate : s.state = 2 ∨ s.state = 4)
    (hprev : s.prev = getFileEntry st id) (hlast : st.links.prev id = ids.getLastD 0)
    (hseg : Segment st.links 0 id ids) (hf : ∀ i ∈ ids, Found st pHash i) :
    Visits st look pHash s ids.reverse { s with prev := getFileEntry st (ids.headD id) } := by
  induction ids using List.reverseRecOn generalizing id s with
  | nil =>
    rw [List.headD_nil, ← hprev]
    exact Visits.refl
  | append_singleton ids a ih =>
    obtain ⟨hseg, hpreva, _⟩ := segment_append.mp hseg
    have hfa := hf a (by simp)
    have hn : s.nextEntryid look = (a, false, s) := by
      have hp : s.prevPrev = a := by rw [prevPrev_eq st hprev, hlast, List.getLastD_concat]
      obtain h | h := hstate <;> simp [SFindState.nextEntryid, h, hp, hfa.1]
    have hrest := ih (s := s.read st a false) hstate rfl hpreva hseg (fun i hi => hf i (by simp [hi]))
    have hhead : (ids ++ [a]).headD id = ids.headD a := by cases ids <;> rfl
    rw [hhead, List.reverse_append]
    exact (visits_found hn hfa).trans hrest

/-- The walk is over: forwards without an entry to go back to, or backwards. -/
def SFindState.AtEnd (s : SFindState) (k : Nat) : Prop :=
  (s.state = k ∧ s.orig_prev = 0 ∧ s.prevNext = 0) ∨ (s.state = k + 1 ∧ s.prevPrev = 0)

theorem nextEntryid_turn (look : Lookups) {k : Nat} (hk : k = 1 ∨ k = 3) (hstate : s.state = k) (hnext : s.prevNext = 0)
    (horig : s.orig_prev ≠ 0) : s.nextEntryid look = (s.orig_prev, false, { s with state := k + 1 }) := by
  obtain rfl | rfl := hk <;> simp [SFindState.nextEntryid, hstate, hnext, horig]

/-- From an entry whose previous one is the origin. -/
theorem visits_bothWays (look : Lookups) {entryid k : Nat} {pre post : List Nat} (hk : k = 1 ∨ k = 3) (hstate : s.state = k)
    (hprev : s.prev = getFileEntry st entryid) (horig : s.orig_prev = st.links.prev entryid)
    (hseg : Segment st.links 0 0 (pre ++ entryid :: post)) (hf : ∀ i ∈ pre ++ entryid :: post, Found st pHash i) :
    ∃ s', Visits st look pHash s (post ++ pre.reverse) s' ∧ s'.AtEnd k ∧ (s'.state = k ↔ pre = []) ∧
      s'.entryids = s.entryids ∧ s'.client = s.client := by
  obtain ⟨hsegPre, hpreve, hnexte, hsegPost⟩ := segment_append.mp hseg
  have hlastNext : st.links.next (post.getLastD entryid) = 0 := by
    obtain rfl | ⟨ps, p, rfl⟩ := List.eq_nil_or_concat post
    · exact hnexte
    · rw [List.concat_eq_append] at hsegPost ⊢
      rw [List.getLastD_concat]
      exact (segment_append.mp hsegPost).2.2.1
  have hforwards : Visits st look pHash s post _ := visits_forwards (hstate ▸ hk) hprev hnexte hsegPost
    (fun i hi => hf i (by simp [hi]))
  -- `s₁` has read the end of the list
  obtain ⟨s₁, hs₁⟩ : ∃ s₁, s₁ = { s with prev := getFileEntry st (post.getLastD entryid) } := ⟨_, rfl⟩
  have hnext₁ : s₁.prevNext = 0 := by rw [hs₁, prevNext_eq st rfl, hlastNext]
  have horig₁ : s₁.orig_prev = pre.getLastD 0 := by rw [hs₁, ← hpreve, ← horig]
  rw [← hs₁] at hforwards
  obtain rfl | ⟨ps, p, rfl⟩ := List.eq_nil_or_concat pre
  · refine ⟨s₁, by simpa using hforwards, Or.inl ⟨?_, horig₁, hnext₁⟩, ?_, ?_, ?_⟩ <;> simp [hs₁, hstate]
  · simp only [List.concat_eq_append] at *
    rw [List.getLastD_concat] at horig₁
    obtain ⟨hsegPs, hprevp, _⟩ := segment_append.mp hsegPre
    have hfp := hf p (by simp)
    have hn := nextEntryid_turn look hk (by rw [hs₁]; exact hstate) hnext₁ (by rw [horig₁]; exact hfp.1)
    rw [horig₁] at hn
    have hbackwards : Visits st look pHash (SFindState.read { s₁ with state := k + 1, orig_prev := p } st p false) _ _ :=
      visits_backwards (by obtain rfl | rfl := hk <;> simp [SFindState.read]) rfl hprevp hsegPs (fun i hi => hf i (by simp [hi]))
    have hrev : (ps ++ [p]).reverse = [p] ++ ps.reverse := by simp
    rw [hrev]
    refine ⟨_, hforwards.trans ((visits_found hn hfp).trans hbackwards), Or.inr ⟨rfl, ?_⟩, ?_, ?_, ?_⟩
    · rw [prevPrev_eq st rfl]
      cases ps with
      | nil => exact hprevp
      | cons a ps => exact hsegPs.1
    all_goals simp [SFindState.read, hs₁]

theorem nextEntryid_all_clients (h : s.AtEnd 1) : s.nextEntryid look = s.switch_to_all_clients look := by
  obtain ⟨hstate, horig, hnext⟩ | ⟨hstate, hprev⟩ := h
  · simp [SFindState.nextEntryid, hstate, hnext, horig]
  · simp [SFindState.nextEntryid, hstate, hprev]

theorem nextEntryid_next_client (h : s.AtEnd 3) : s.nextEntryid look = s.switch_to_next_client := by
  obtain ⟨hstate, horig, hnext⟩ | ⟨hstate, hprev⟩ := h
  · simp [SFindState.nextEntryid, hstate, hnext, horig]
  · simp [SFindState.nextEntryid, hstate, hprev]

/-- An entry in a list whose rows the search accepts. -/
structure Listed (st : Store) (pHash : Bytes) (ids : List Nat) (entryid : Nat) : Prop where
  mem : entryid ∈ ids
  segment : Segment st.links 0 0 ids
  found : ∀ i ∈ ids, Found st pHash i

theorem Listed.split {ids : List Nat} {entryid : Nat} (h : Listed st pHash ids entryid) :
    Segment st.links 0 0 (before ids entryid ++ entryid :: after ids entryid) ∧
      ∀ i ∈ before ids entryid ++ entryid :: after ids entryid, Found st pHash i := by
  rw [← split_at h.mem]
  exact ⟨h.segment, h.found⟩

/-- A later client is only walked in the direction of the state. -/
theorem visits_client (look : Lookups) {ids : List Nat} {entryid : Nat} (h : Listed st pHash ids entryid) (hend : s.AtEnd 3)
    (hprev : s'.prev = getFileEntry st entryid) (hstate : s'.state = s.state) (horig : s'.orig_prev = s.orig_prev) :
    ∃ s'', Visits st look pHash s' (if s.state = 3 then after ids entryid else (before ids entryid).reverse) s'' ∧
      s''.AtEnd 3 ∧ s''.state = s.state ∧ s''.client = s'.client := by
  obtain ⟨hseg, hf⟩ := h.split
  obtain ⟨hsegPre, hpreve, hnexte, hsegPost⟩ := segment_append.mp hseg
  obtain ⟨hs, ho, _⟩ | ⟨hs, _⟩ := hend
  · rw [if_pos hs]
    refine ⟨_, visits_forwards (Or.inr (hstate.trans hs)) hprev hnexte hsegPost (fun i hi => hf i (by simp [hi])),
      Or.inl ⟨hstate.trans hs, horig.trans ho, ?_⟩, hstate, rfl⟩
    rw [prevNext_eq st rfl]
    obtain hnil | ⟨ps, p, hps⟩ := List.eq_nil_or_concat (after ids entryid)
    · rw [hnil] at hnexte ⊢
      exact hnexte
    · rw [hps, List.concat_eq_append] at hsegPost ⊢
      rw [List.getLastD_concat]
      exact (segment_append.mp hsegPost).2.2.1
  · rw [if_neg (by omega)]
    refine ⟨_, visits_backwards (Or.inr (hstate.trans hs)) hprev hpreve hsegPre (fun i hi => hf i (by simp [hi])),
      Or.inr ⟨hstate.trans hs, ?_⟩, hstate, rfl⟩
    rw [prevPrev_eq st rfl]
    cases hpre : before ids entryid with
    | nil =>
      rw [hpre] at hpreve
      exact hpreve
    | cons a ps =>
      rw [hpre] at hsegPre
      exact hsegPre.1

theorem visits_clients (lists : List (Nat × List Nat)) {rest : List (Nat × Nat)} (hend : s.AtEnd 3)
    (hclient : s.client.tail = rest) (h : ∀ e ∈ rest, Listed st pHash (listOf lists e.2) e.2) :
    ∃ s', Visits st look pHash s
        (rest.flatMap fun e => e.2 :: if s.state = 3 then after (listOf lists e.2) e.2
          else (before (listOf lists e.2) e.2).reverse) s' ∧
      (findFileHash st look pHash s').1 = none := by
  induction rest generalizing s with
  | nil =>
    refine ⟨s, Visits.refl, @findFileHash_end _ _ _ _ { s with client := [] } false ?_⟩
    rw [nextEntryid_next_client hend, SFindState.switch_to_next_client, hclient]
  | cons e rest ih =>
    have he := h e (by simp)
    have hn : s.nextEntryid look = (e.2, false, { s with client := e :: rest }) := by
      rw [nextEntryid_next_client hend, SFindState.switch_to_next_client, hclient]
    have hentry := visits_found hn (he.found _ he.mem)
    have hread : (({ s with client := e :: rest } : SFindState).read st e.2 false).prev = getFileEntry st e.2 := rfl
    obtain ⟨s₁, hwalk, hend₁, hstate₁, hclient₁⟩ := visits_client look he hend hread rfl rfl
    obtain ⟨s', hrest, hnone⟩ := ih hend₁ (by rw [hclient₁]; rfl) (fun e' he' => h e' (by simp [he']))
    rw [hstate₁] at hrest
    refine ⟨s', ?_, hnone⟩
    rw [List.flatMap_cons, List.cons_append]
    exact hentry.trans (hwalk.trans hrest)

end Walk

section Lists

variable {st : Store} {look : Lookups} {pHash : Bytes} {filesize clientid : Nat} {lists : List (Nat × List Nat)}

theorem ClientLists.listed (h : ClientLists st pHash filesize lists) {c entryid : Nat} (hne : entryid ≠ 0)
    (hindex : st.index (indexKey pHash filesize c) = entryid) : Listed st pHash (listOf lists entryid) entryid := by
  obtain ⟨l, hl, rfl⟩ : ∃ l ∈ lists, l.1 = c := by
    by_contra hnot
    push Not at hnot
    exact hne (hindex.symm.trans (h.not_indexed c hnot))
  have hsome : ((lists.map Prod.snd).find? fun ids => decide (entryid ∈ ids)).isSome := by
    rw [List.find?_isSome]
    exact ⟨l.2, List.mem_map_of_mem hl, by simpa [hindex] using h.indexed l hl⟩
  obtain ⟨ids, hids⟩ := Option.isSome_iff_exists.mp hsome
  have hmem : entryid ∈ ids := by simpa using List.find?_some hids
  obtain ⟨⟨c', _⟩, hl', rfl⟩ := List.mem_map.mp (List.mem_of_find?_eq_some hids)
  rw [listOf, hids]
  refine ⟨hmem, h.segment _ hl', fun i hi => ?_⟩
  obtain ⟨row, hrow, hhash, _⟩ := (h.rows c' i).mp ⟨_, hl', hi⟩
  refine ⟨?_, row, hrow, by simp [hhash]⟩
  rintro rfl
  simp [h.no_row] at hrow

/-- From the first client on. -/
theorem visits_all_clients {s : SFindState} {c first : Nat} {rest : List (Nat × Nat)} (hend : s.AtEnd 1)
    (hentries : look.entryids = (c, first) :: rest) (hfirst : Listed st pHash (listOf lists first) first)
    (hrest : ∀ e ∈ rest, Listed st pHash (listOf lists e.2) e.2) :
    ∃ s', Visits st look pHash s
        (bothWays (listOf lists first) first ++ rest.flatMap fun e =>
          e.2 :: if before (listOf lists first) first = [] then after (listOf lists e.2) e.2
            else (before (listOf lists e.2) e.2).reverse) s' ∧
      (findFileHash st look pHash s').1 = none := by
  have hn : s.nextEntryid look =
      (first, true, { s with state := 3, entryids := (c, first) :: rest, client := (c, first) :: rest }) := by
    rw [nextEntryid_all_clients hend, SFindState.switch_to_all_clients, hentries]
  have hentry := visits_found hn (hfirst.found _ hfirst.mem)
  obtain ⟨hseg, hf⟩ := hfirst.split
  obtain ⟨s₁, hwalk, hend₁, hforwards, _, hclient⟩ := visits_bothWays look (k := 3)
    (s := SFindState.read { s with state := 3, entryids := (c, first) :: rest, client := (c, first) :: rest } st first true)
    (Or.inr rfl) rfl rfl rfl hseg hf
  obtain ⟨s', hclients, hnone⟩ := visits_clients lists hend₁ (by rw [hclient]; rfl) hrest
  simp only [hforwards] at hclients
  exact ⟨s', hentry.trans (hwalk.trans hclients), hnone⟩

/-- The calls end, and the rows that they return until then. -/
theorem visits_candidates (h : ClientLists st pHash filesize lists) (hl : LooksUp st pHash filesize look) :
    ∃ s', Visits st look pHash SFindState.start (candidates look lists) s' ∧ (findFileHash st look pHash s').1 = none := by
  have hlisted : ∀ e ∈ look.entryids, Listed st pHash (listOf lists e.2) e.2 := by
    intro e he
    obtain ⟨hne, hindex⟩ := (hl.entries e.1 e.2).mp he
    exact h.listed hne hindex
  by_cases hzero : look.prefer_client = 0
  · rw [candidates, if_pos hzero]
    refine ⟨_, Visits.refl, @findFileHash_end _ _ _ _ { SFindState.start with state := 1 } true ?_⟩
    simp [SFindState.nextEntryid, SFindState.start, hzero]
  · rw [candidates, if_neg hzero]
    obtain ⟨c, hindex⟩ := hl.preferred hzero
    have hprefer := h.listed hzero hindex
    have hentry : Visits st look pHash SFindState.start [look.prefer_client] _ :=
      @visits_found _ _ _ _ { SFindState.start with state := 1 } _ true rfl (hprefer.found _ hprefer.mem)
    obtain ⟨hseg, hf⟩ := hprefer.split
    obtain ⟨s₁, hwalk, hend₁, _, _, _⟩ := visits_bothWays look (k := 1)
      (s := SFindState.read { SFindState.start with state := 1 } st look.prefer_client true)
      (Or.inl rfl) rfl rfl rfl hseg hf
    cases hentries : look.entryids with
    | nil =>
      have hmem := (hl.entries c look.prefer_client).mpr ⟨hzero, hindex⟩
      simp [hentries] at hmem
    | cons e rest =>
      obtain ⟨c₁, first⟩ := e
      rw [hentries] at hlisted
      obtain ⟨s', hrest, hnone⟩ := visits_all_clients hend₁ hentries (hlisted (c₁, first) (by simp))
        (fun e he => hlisted e (by simp [he]))
      refine ⟨s', ?_, hnone⟩
      exact (hentry.trans hwalk).trans hrest

theorem foundRows_eq_candidates (h : ClientLists st pHash filesize lists) (hl : LooksUp st pHash filesize look) :
    ∃ n, foundRows st look pHash n SFindState.start = some (candidates look lists) := by
  obtain ⟨s', hvisits, hnone⟩ := visits_candidates h hl
  refine ⟨1 + (candidates look lists).length, ?_⟩
  rw [hvisits, foundRows]
  cases hfind : findFileHash st look pHash s' with
  | mk e s'' =>
    rw [hfind] at hnone
    obtain rfl : e = none := hnone
    simp

theorem foundRows_mono {s : SFindState} {ids : List Nat} {fuel : Nat} (h : foundRows st look pHash fuel s = some ids) (n : Nat) :
    foundRows st look pHash (fuel + n) s = some ids := by
  induction fuel generalizing s ids with
  | zero => simp [foundRows] at h
  | succ fuel ih =>
    rw [Nat.add_right_comm, foundRows]
    rw [foundRows] at h
    cases hfind : findFileHash st look pHash s with
    | mk e s' =>
      rw [hfind] at h
      cases e with
      | none => exact h
      | some e =>
        obtain ⟨rest, hrest, rfl⟩ := Option.map_eq_some_iff.mp h
        simp [ih hrest]

theorem foundRows_unique {s : SFindState} {ids ids' : List Nat} {fuel fuel' : Nat}
    (h : foundRows st look pHash fuel s = some ids) (h' : foundRows st look pHash fuel' s = some ids') : ids = ids' := by
  have hsum := foundRows_mono h fuel'
  rw [Nat.add_comm, foundRows_mono h'] at hsum
  exact (Option.some.inj hsum).symm

/-- What the calls return is then the rows of the lists. -/
theorem FindsAllOnce.perm {fuel : Nat} {ids : List Nat} (h : FindsAllOnce st look pHash clientid lists)
    (hfound : foundRows st look pHash fuel SFindState.start = some ids) : ids.Perm (lists.flatMap Prod.snd) := by
  obtain ⟨_, own, other, hrows, hown, hother⟩ := h
  rw [foundRows_unique hfound hrows]
  have hparts := (List.filter_append_perm (fun l => decide (l.1 = clientid)) lists).flatMap_right Prod.snd
  rw [List.flatMap_append] at hparts
  refine (hown.append hother).trans ?_
  simpa using hparts

/-- The preferred row is returned again with those of its client. -/
theorem not_nodup_candidates (hl : LooksUp st pHash filesize look) (hne : look.prefer_client ≠ 0) :
    ¬ (candidates look lists).Nodup := by
  obtain ⟨c, hindex⟩ := hl.preferred hne
  have hmem := (hl.entries c look.prefer_client).mpr ⟨hne, hindex⟩
  intro hnodup
  rw [candidates, if_neg hne] at hnodup
  refine (List.nodup_append.mp hnodup).2.2 look.prefer_client (by simp [bothWays]) look.prefer_client ?_ rfl
  cases hentries : look.entryids with
  | nil => simp [hentries] at hmem
  | cons e rest =>
    rw [hentries] at hmem
    obtain heq | hmem := List.mem_cons.mp hmem
    · simp [← heq, bothWays]
    · exact List.mem_append_right _ (List.mem_flatMap.mpr ⟨_, hmem, by simp⟩)

/-- A search returns each row once only where there is none. -/
theorem findFileHash_allOnce_iff (h : ClientLists st pHash filesize lists) (hl : LooksUp st pHash filesize look) :
    FindsAllOnce st look pHash clientid lists ↔ lists = [] := by
  obtain ⟨n, hfound⟩ := foundRows_eq_candidates h hl
  constructor
  · intro hall
    have hperm := hall.perm hfound
    have hzero : look.prefer_client = 0 := by
      by_contra hne
      exact not_nodup_candidates hl hne (hperm.nodup_iff.mpr h.nodup)
    rw [candidates, if_pos hzero] at hperm
    have hnil := List.nil_perm.mp hperm
    rw [List.flatMap_eq_nil_iff] at hnil
    rw [List.eq_nil_iff_forall_not_mem]
    exact fun l hmem => h.nonempty l hmem (hnil l hmem)
  · rintro rfl
    have hzero : look.prefer_client = 0 := by
      by_contra hne
      obtain ⟨c, hindex⟩ := hl.preferred hne
      exact hne (hindex.symm.trans (h.not_indexed c (by simp)))
    rw [candidates, if_pos hzero] at hfound
    exact ⟨n, [], [], hfound, by simp, by simp⟩

end Lists

/-- A row of the first client, and two of the second whose index entry is the last. -/
def twoClients : Store where
  files
    | 1 => some ⟨[7], 4096, 1, 0, 0, true⟩
    | 2 => some ⟨[7], 4096, 2, 3, 0, false⟩
    | 3 => some ⟨[7], 4096, 2, 0, 2, true⟩
    | _ => none
  index key := if key = indexKey [7] 4096 1 then 1 else if key = indexKey [7] 4096 2 then 3 else 0

theorem twoClients_lists : ClientLists twoClients [7] 4096 [(1, [1]), (2, [2, 3])] where
  clients := by decide
  nonempty := by decide
  segment := by simp [Segment, Store.links, twoClients]
  nodup := by decide
  rows c id := by
    constructor
    · rintro ⟨ids, hids, hid⟩
      simp only [List.mem_cons, Prod.mk.injEq, List.not_mem_nil, or_false] at hids
      obtain ⟨rfl, rfl⟩ | ⟨rfl, rfl⟩ := hids
      · obtain rfl := List.mem_singleton.mp hid
        exact ⟨_, rfl, rfl, rfl, rfl⟩
      · simp only [List.mem_cons, List.not_mem_nil, or_false] at hid
        obtain rfl | rfl := hid <;> exact ⟨_, rfl, rfl, rfl, rfl⟩
    · rintro ⟨row, hrow, _, _, rfl⟩
      simp only [twoClients] at hrow
      split at hrow <;> simp at hrow <;> simp [← hrow]
  indexed := by decide
  not_indexed c hc := by
    simp only [List.mem_cons, List.not_mem_nil, or_false, forall_eq_or_imp, forall_eq] at hc
    simp [twoClients, indexKey, Ne.symm hc.1, Ne.symm hc.2]
  no_row := rfl

theorem twoClients_looksUp : LooksUp twoClients [7] 4096 ⟨[(1, 1), (2, 3)], 1⟩ where
  sorted := by decide
  entries c entryid := by
    simp only [twoClients, indexKey, SIndexKey.mk.injEq, List.mem_cons, Prod.mk.injEq, List.not_mem_nil, or_false]
    split
    · grind
    · grind
  preferred _ := ⟨1, rfl⟩

theorem findFileHash_allOnce_twoClients :
    FindsAllOnce twoClients ⟨[(1, 1), (2, 3)], 1⟩ [7] 1 [(1, [1]), (2, [2, 3])] ↔ [(1, [1]), (2, [2, 3])] = [] :=
  findFileHash_allOnce_iff twoClients_lists twoClients_looksUp

/-- The first client's row is found twice and the second client's first one never. -/
theorem findFileHash_twice :
    ClientLists twoClients [7] 4096 [(1, [1]), (2, [2, 3])] ∧ LooksUp twoClients [7] 4096 ⟨[(1, 1), (2, 3)], 1⟩ ∧
    foundRows twoClients ⟨[(1, 1), (2, 3)], 1⟩ [7] 4 SFindState.start = some [1, 1, 3] ∧
    ¬ FindsAllOnce twoClients ⟨[(1, 1), (2, 3)], 1⟩ [7] 1 [(1, [1]), (2, [2, 3])] := by
  have hfound : foundRows twoClients ⟨[(1, 1), (2, 3)], 1⟩ [7] 4 SFindState.start = some [1, 1, 3] := by decide
  refine ⟨twoClients_lists, twoClients_looksUp, hfound, fun hall => ?_⟩
  exact absurd (hall.perm hfound) (by decide)

end urbackup.fileentries
