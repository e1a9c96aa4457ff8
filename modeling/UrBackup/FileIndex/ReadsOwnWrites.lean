import UrBackup.FileIndex.LMDBFileIndex

namespace urbackup.fileindex

open stringtools maps

/-- The value after a sequence of actions: that of the last put, zero after a
delete. -/
def lastValue (key : SIndexKey) (value : Int) : List Action → Int
  | [] => value
  | .put_delayed k v :: as => lastValue key (if k = key then v else value) as
  | .del_delayed k :: as => lastValue key (if k = key then 0 else value) as
  | _ :: as => lastValue key value as

/-- An action that changes a key. -/
def Action.Writes (key : SIndexKey) : Action → Prop
  | .put_delayed k _ => k = key
  | .del_delayed k => k = key
  | _ => False

section Write

/-- How a value is stored. -/
def stored (value : Int) : Option Int :=
  if value = 0 then none else some value

theorem getD_stored (value : Int) : (stored value).getD 0 = value := by
  unfold stored
  split
  · next h => exact h.symm
  · rfl

theorem find_writeEntry (txn : Cache) (entry : SIndexKey × Int) (key : SIndexKey) :
    (writeEntry txn entry).find key = if entry.1 = key then stored entry.2 else txn.find key := by
  by_cases h : entry.2 = 0
  · rw [writeEntry, if_neg (not_not.mpr h), SortedMap.find_erase, stored, if_pos h]
    congr
  · rw [writeEntry, if_pos h, SortedMap.find_insert, stored, if_neg h]
    congr

/-- The transaction after entries were written. -/
theorem find_foldl_writeEntry {es : List (SIndexKey × Int)} (hes : es.Pairwise fun a b => a.1 ≠ b.1) (db : Cache)
    (key : SIndexKey) :
    (es.foldl writeEntry db).find key = match SortedMap.lookup key es with
      | some value => stored value
      | none => db.find key := by
  induction es generalizing db with
  | nil => rfl
  | cons e es ih =>
    obtain ⟨hhead, htail⟩ := List.pairwise_cons.mp hes
    rw [List.foldl_cons, ih htail, find_writeEntry, SortedMap.lookup]
    by_cases heq : e.1 = key
    · subst heq
      rw [SortedMap.lookup_eq_none.mpr fun d hd => (hhead d hd).symm, if_pos rfl, if_pos rfl]
    · rw [if_neg heq, if_neg heq]

end Write

/-- What holds between the steps of the writer. -/
def Consistent (s : State) : Prop :=
  match s.phase with
  | .waiting => s.other_cache_buffer.entries = []
  | .writing txn rest => ∃ written, s.other_cache_buffer.entries = written ++ rest ∧ txn = written.foldl writeEntry s.db
  | .committed => ∀ key value, s.other_cache_buffer.find key = some value → (s.db.find key).getD 0 = value

theorem consistent_initial (db : Cache) : Consistent (State.initial db) := rfl

/-- At the end of a transaction all of the buffer is in it. -/
theorem commit_find {s : State} {txn : Cache} (hphase : s.phase = .writing txn []) (hs : Consistent s) (key : SIndexKey) :
    txn.find key = match s.other_cache_buffer.find key with
      | some value => stored value
      | none => s.db.find key := by
  unfold Consistent at hs
  rw [hphase] at hs
  obtain ⟨written, hentries, rfl⟩ := hs
  rw [List.append_nil] at hentries
  rw [← hentries]
  exact find_foldl_writeEntry (SortedMap.keys_distinct s.other_cache_buffer.sorted) s.db key

/-- What an action does, case by case. -/
theorem step_cases {s s' : State} {a : Action} (h : s.step a = some s') :
    (∃ key value, (a = .put_delayed key value ∨ a = .del_delayed key ∧ value = 0) ∧
      s' = { s with active_cache_buffer := s.active_cache_buffer.insert key value }) ∨
    ((∀ key, ¬ a.Writes key) ∧ s'.active_cache_buffer = s.active_cache_buffer ∧
      s'.other_cache_buffer = s.other_cache_buffer ∧ s'.db = s.db ∧ s'.phase = s.phase) ∨
    (a = .swap ∧ s.phase = .waiting ∧ s' = { s with
      active_cache_buffer := s.other_cache_buffer
      other_cache_buffer := s.active_cache_buffer
      phase := .writing s.db s.active_cache_buffer.entries }) ∨
    (∃ txn entry rest, a = .write ∧ s.phase = .writing txn (entry :: rest) ∧
      s' = { s with phase := .writing (writeEntry txn entry) rest }) ∨
    (∃ txn, a = .commit ∧ s.phase = .writing txn [] ∧ s' = { s with db := txn, phase := .committed }) ∨
    (a = .clear ∧ s.phase = .committed ∧
      s' = { s with other_cache_buffer := SortedMap.empty, do_flush := false, phase := .waiting }) := by
  have hput : ∀ key value, s.put_delayed key value = some s' →
      s' = { s with active_cache_buffer := s.active_cache_buffer.insert key value } := by
    intro key value hput
    unfold State.put_delayed at hput
    split at hput
    · cases hput
    · exact (Option.some.inj hput).symm
  cases a with
  | put_delayed key value => exact Or.inl ⟨key, value, Or.inl rfl, hput key value h⟩
  | del_delayed key => exact Or.inl ⟨key, 0, Or.inr ⟨rfl, rfl⟩, hput key 0 h⟩
  | shutdown =>
    cases h
    exact Or.inr (Or.inl ⟨fun _ => id, rfl, rfl, rfl, rfl⟩)
  | flush =>
    cases h
    exact Or.inr (Or.inl ⟨fun _ => id, rfl, rfl, rfl, rfl⟩)
  | stop_accept =>
    cases h
    exact Or.inr (Or.inl ⟨fun _ => id, rfl, rfl, rfl, rfl⟩)
  | swap =>
    simp only [State.step, State.swap] at h
    split at h
    · next hphase =>
      split at h
      · cases h
      · split at h
        · cases h
        · exact Or.inr (Or.inr (Or.inl ⟨rfl, hphase, (Option.some.inj h).symm⟩))
    · cases h
  | write =>
    simp only [State.step, State.write] at h
    split at h
    · next txn entry rest hphase =>
      exact Or.inr (Or.inr (Or.inr (Or.inl ⟨txn, entry, rest, rfl, hphase, (Option.some.inj h).symm⟩)))
    · cases h
  | commit =>
    simp only [State.step, State.commit] at h
    split at h
    · next txn hphase =>
      exact Or.inr (Or.inr (Or.inr (Or.inr (Or.inl ⟨txn, rfl, hphase, (Option.some.inj h).symm⟩))))
    · cases h
  | clear =>
    simp only [State.step, State.clear] at h
    split at h
    · next hphase => exact Or.inr (Or.inr (Or.inr (Or.inr (Or.inr ⟨rfl, hphase, (Option.some.inj h).symm⟩))))
    · cases h

theorem step_consistent {s s' : State} {a : Action} (h : s.step a = some s') (hs : Consistent s) : Consistent s' := by
  obtain ⟨key, value, _, rfl⟩ | ⟨_, _, hother, hdb, hphase⟩ | ⟨_, hphase, rfl⟩ | ⟨txn, entry, rest, _, hphase, rfl⟩ |
    ⟨txn, _, hphase, rfl⟩ | ⟨_, _, rfl⟩ := step_cases h
  · exact hs
  · unfold Consistent at hs ⊢
    rwa [hphase, hother, hdb]
  · exact ⟨[], rfl, rfl⟩
  · unfold Consistent at hs
    rw [hphase] at hs
    obtain ⟨written, hentries, rfl⟩ := hs
    exact ⟨written ++ [entry], by rw [hentries, List.append_assoc]; rfl, by rw [List.foldl_append]; rfl⟩
  · intro key value hfind
    have hcommit := commit_find hphase hs key
    rw [show s.other_cache_buffer.find key = some value from hfind] at hcommit
    show (txn.find key).getD 0 = value
    rw [hcommit]
    exact getD_stored value
  · exact rfl

section View

/-- The value a key has in a state. -/
def view (s : State) (key : SIndexKey) : Int :=
  get_with_cache_exact s s key

/-- The value a key has after an action. -/
theorem step_view {s s' : State} {a : Action} (h : s.step a = some s') (hs : Consistent s) (key : SIndexKey) :
    view s' key = lastValue key (view s key) [a] := by
  obtain ⟨k, value, ha, rfl⟩ | ⟨ha, hactive, hother, hdb, _⟩ | ⟨rfl, hphase, rfl⟩ | ⟨txn, entry, rest, rfl, _, rfl⟩ |
    ⟨txn, rfl, hphase, rfl⟩ | ⟨rfl, hphase, rfl⟩ := step_cases h
  · have hput : view { s with active_cache_buffer := s.active_cache_buffer.insert k value } key =
        if k = key then value else view s key := by
      unfold view get_with_cache_exact get_from_caches_exact
      dsimp only
      rw [SortedMap.find_insert]
      split
      · rfl
      · rfl
    obtain rfl | ⟨rfl, rfl⟩ := ha
    · exact hput
    · exact hput
  · have hview : view s' key = view s key := by
      unfold view get_with_cache_exact get_from_caches_exact get
      rw [hactive, hother, hdb]
    rw [hview]
    cases a with
    | put_delayed k v => exact absurd rfl (ha k)
    | del_delayed k => exact absurd rfl (ha k)
    | _ => rfl
  · -- the other buffer is empty while the writer waits
    unfold Consistent at hs
    rw [hphase] at hs
    have hempty : s.other_cache_buffer.find key = none := by rw [SortedMap.find, hs]; rfl
    show ((s.other_cache_buffer.find key).or (s.active_cache_buffer.find key)).getD _ =
      ((s.active_cache_buffer.find key).or (s.other_cache_buffer.find key)).getD _
    rw [hempty]
    simp [get]
  · rfl
  · have hcommit := commit_find hphase hs key
    show ((s.active_cache_buffer.find key).or (s.other_cache_buffer.find key)).getD ((txn.find key).getD 0) =
      ((s.active_cache_buffer.find key).or (s.other_cache_buffer.find key)).getD ((s.db.find key).getD 0)
    rw [hcommit]
    cases hfind : s.other_cache_buffer.find key with
    | none => rfl
    | some value => cases s.active_cache_buffer.find key <;> rfl
  · unfold Consistent at hs
    rw [hphase] at hs
    show ((s.active_cache_buffer.find key).or none).getD ((s.db.find key).getD 0) =
      ((s.active_cache_buffer.find key).or (s.other_cache_buffer.find key)).getD ((s.db.find key).getD 0)
    cases s.active_cache_buffer.find key with
    | some value => rfl
    | none =>
      cases hfind : s.other_cache_buffer.find key with
      | none => rfl
      | some value => exact hs key value hfind

theorem lastValue_cons (key : SIndexKey) (value : Int) (a : Action) (as : List Action) :
    lastValue key value (a :: as) = lastValue key (lastValue key value [a]) as := by
  cases a <;> rfl

/-- The value a key has after a run. -/
theorem run_view {s s' : State} {as : List Action} (h : s.run as = some s') (hs : Consistent s) (key : SIndexKey) :
    Consistent s' ∧ view s' key = lastValue key (view s key) as := by
  induction as generalizing s with
  | nil =>
    cases h
    exact ⟨hs, rfl⟩
  | cons a as ih =>
    obtain ⟨next, hstep, hrun⟩ := Option.bind_eq_some_iff.mp h
    obtain ⟨hs', hview⟩ := ih hrun (step_consistent hstep hs)
    refine ⟨hs', ?_⟩
    rw [hview, step_view hstep hs, ← lastValue_cons]

/-- A key that is in no buffer. -/
def Flushed (s : State) (key : SIndexKey) : Prop :=
  s.active_cache_buffer.find key = none ∧ s.other_cache_buffer.find key = none

/-- The writer does not touch such a key. -/
theorem step_flushed {s s' : State} {a : Action} (h : s.step a = some s') (hs : Consistent s) {key : SIndexKey}
    (ha : ¬ a.Writes key) (hkey : Flushed s key) : Flushed s' key ∧ s'.db.find key = s.db.find key := by
  obtain ⟨k, value, hput, rfl⟩ | ⟨_, hactive, hother, hdb, _⟩ | ⟨rfl, hphase, rfl⟩ | ⟨txn, entry, rest, rfl, _, rfl⟩ |
    ⟨txn, rfl, hphase, rfl⟩ | ⟨rfl, hphase, rfl⟩ := step_cases h
  · have hne : k ≠ key := by
      obtain rfl | ⟨rfl, rfl⟩ := hput
      · exact ha
      · exact ha
    refine ⟨⟨?_, hkey.2⟩, rfl⟩
    rw [SortedMap.find_insert, if_neg hne]
    exact hkey.1
  · refine ⟨⟨?_, ?_⟩, by rw [hdb]⟩
    · rw [hactive]
      exact hkey.1
    · rw [hother]
      exact hkey.2
  · exact ⟨⟨hkey.2, hkey.1⟩, rfl⟩
  · exact ⟨hkey, rfl⟩
  · refine ⟨hkey, ?_⟩
    have hcommit := commit_find hphase hs key
    rw [hkey.2] at hcommit
    exact hcommit
  · exact ⟨⟨hkey.1, rfl⟩, rfl⟩

theorem run_flushed {s s' : State} {as : List Action} (h : s.run as = some s') (hs : Consistent s) {key : SIndexKey}
    (has : ∀ a ∈ as, ¬ a.Writes key) (hkey : Flushed s key) : s'.db.find key = s.db.find key := by
  induction as generalizing s with
  | nil =>
    cases h
    rfl
  | cons a as ih =>
    obtain ⟨next, hstep, hrun⟩ := Option.bind_eq_some_iff.mp h
    obtain ⟨hnext, hdb⟩ := step_flushed hstep hs (has a List.mem_cons_self) hkey
    rw [ih hrun (step_consistent hstep hs) (fun b hb => has b (List.mem_cons_of_mem _ hb)) hnext, hdb]

/-- Steps between the look at the buffers and the one at the database do not
matter as long as they do not write the key. -/
theorem get_later {s later : State} {as : List Action} (h : s.run as = some later) (hs : Consistent s) {key : SIndexKey}
    (has : ∀ a ∈ as, ¬ a.Writes key) : get_with_cache_exact s later key = view s key := by
  unfold view get_with_cache_exact
  cases hcache : get_from_caches_exact s key with
  | some value => rfl
  | none =>
    have hkey : Flushed s key := Option.or_eq_none_iff.mp hcache
    rw [get, get, run_flushed h hs has hkey]

end View

end urbackup.fileindex
