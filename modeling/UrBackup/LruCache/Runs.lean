import UrBackup.LruCache.Operations

namespace urbackup.common

open recency

namespace lrucache

variable {K V : Type} [DecidableEq K]

/-- The nodes of the list and the entries of the map belong to each other, and no key
is there twice. -/
structure Bijection (c : lrucache K V) : Prop where
  nodes : (c.lru_list.map Node.id).Nodup
  entries : (c.lru_access.map Entry.id).Nodup
  keys : (c.lru_access.map Entry.key).Nodup
  once : (c.lru_list.map fun n => c.keyAt n.first).Nodup
  listed : ∀ n ∈ c.lru_list, ∃ e ∈ c.lru_access, e.id = n.first ∧ e.second = some n.id
  mapped : ∀ e ∈ c.lru_access, ∃ n ∈ c.lru_list, e.second = some n.id ∧ n.first = e.id

/-- What was last stored under the keys, after another call. A key that is evicted or
deleted has no value, and one that is renamed takes its value along. -/
def record (last : K → Option V) (evicted : Option K) : Op K V → K → Option V
  | .put key v => Function.update last key (some v)
  | .put_after _ put_key v => Function.update last put_key (some v)
  | .put_back key v => Function.update last key (some v)
  | .change_key old_key new_key =>
    match last old_key with
    | none => last
    | some v => Function.update (Function.update last old_key none) new_key (some v)
  | .get _ _ => last
  | .evict_one =>
    match evicted with
    | none => last
    | some key => Function.update last key none
  | .del key => Function.update last key none

def run (c : lrucache K V) (last : K → Option V) : List (Op K V) → Option (lrucache K V × (K → Option V))
  | [] => some (c, last)
  | op :: ops =>
    match c.step op with
    | none => none
    | some (evicted, c) => run c (record last evicted op) ops

/-- A key is not renamed to another one that is there, and a key that is there is not
put behind another one with a new value. -/
def Allowed (c : lrucache K V) : Op K V → Prop
  | .put_after key put_key v => c.has_key key → c.has_key put_key → (c.get put_key false).map Prod.fst = some (some v)
  | .change_key old_key new_key => c.has_key old_key → old_key ≠ new_key → ¬ c.has_key new_key
  | _ => True

def AllAllowed (c : lrucache K V) : List (Op K V) → Prop
  | [] => True
  | op :: ops => c.Allowed op ∧ ∀ evicted c', c.step op = some (evicted, c') → AllAllowed c' ops

section Run

variable {c : lrucache K V} {cells : List (Cell K V)}

omit [DecidableEq K] in
theorem Represents.bijection (h : Represents c cells) : c.Bijection where
  nodes := by
    rw [h.list, List.map_map]
    exact h.nodes
  entries := by
    rw [(h.access.map Entry.id).nodup_iff, List.map_map]
    exact h.entries
  keys := by
    rw [(h.access.map Entry.key).nodup_iff, List.map_map]
    exact h.keys
  once := by
    have hkeys : c.lru_list.map (fun n => c.keyAt n.first) = (cells.map Cell.key).map some := by
      rw [h.list, List.map_map, List.map_map]
      apply List.map_congr_left
      intro a ha
      exact h.keyAt_cell ha
    rw [hkeys]
    exact h.keys.map fun _ _ heq => Option.some.inj heq
  listed := by
    intro n hn
    rw [h.list] at hn
    obtain ⟨a, ha, rfl⟩ := List.mem_map.mp hn
    exact ⟨a.toEntry, h.access.mem_iff.mpr (List.mem_map_of_mem ha), rfl, rfl⟩
  mapped := by
    intro e he
    obtain ⟨a, ha, rfl⟩ := List.mem_map.mp (h.access.mem_iff.mp he)
    refine ⟨a.toNode, ?_, rfl, rfl⟩
    rw [h.list]
    exact List.mem_map_of_mem ha

theorem Represents.has_key_iff (h : Represents c cells) (key : K) : c.has_key key = true ↔ Has (contents cells) key := by
  rw [has_key, has_iff]
  obtain ⟨a, ha, hkey, hfind⟩ | ⟨hnone, hfind⟩ := h.find_cases key
  · rw [hfind]
    exact ⟨fun _ => ⟨a, ha, hkey⟩, fun _ => rfl⟩
  · rw [hfind]
    constructor
    · intro hsome
      cases hsome
    · rintro ⟨a, ha, hkey⟩
      exact absurd hkey (hnone a ha)

/-- An allowed call succeeds, and the contents are what was last stored. -/
theorem Represents.step (h : Represents c cells) {op : Op K V} (hallowed : c.Allowed op) :
    ∃ evicted c' cells', c.step op = some (evicted, c') ∧ Represents c' cells' ∧
      stored (contents cells') = record (stored (contents cells)) evicted op := by
  cases op with
  | put key v =>
    obtain ⟨c', cells', hput, h', hcontents⟩ := h.put key v
    refine ⟨none, c', cells', ?_, h', ?_⟩
    · rw [lrucache.step, hput]
      rfl
    · rw [hcontents, stored_put]
      rfl
  | put_after key put_key v =>
    have hvalue : Has (contents cells) key → Has (contents cells) put_key → stored (contents cells) put_key = some v := by
      intro hhas hhas'
      obtain ⟨c', cells', hget, -⟩ := h.get put_key false
      have hfirst := hallowed ((h.has_key_iff key).mpr hhas) ((h.has_key_iff put_key).mpr hhas')
      rw [hget] at hfirst
      exact Option.some.inj hfirst
    obtain ⟨c', cells', hput, h', hcontents⟩ := h.put_after hvalue
    refine ⟨none, c', cells', ?_, h', ?_⟩
    · rw [lrucache.step, hput]
      rfl
    · rw [hcontents, stored_putAfter h.contents_nodup]
      rfl
  | put_back key v =>
    obtain ⟨c', cells', hput, h', hcontents⟩ := h.put_back key v
    refine ⟨none, c', cells', ?_, h', ?_⟩
    · rw [lrucache.step, hput]
      rfl
    · rw [hcontents, stored_putBack h.contents_nodup]
      rfl
  | change_key old_key new_key =>
    have hnew : Has (contents cells) old_key → old_key ≠ new_key → ¬ Has (contents cells) new_key := by
      intro hhas hne hhas'
      exact hallowed ((h.has_key_iff old_key).mpr hhas) hne ((h.has_key_iff new_key).mpr hhas')
    obtain ⟨r, c', cells', hchange, h', hcontents⟩ := h.change_key hnew
    refine ⟨none, c', cells', ?_, h', ?_⟩
    · rw [lrucache.step, hchange]
      rfl
    · rw [hcontents, stored_rename]
      rfl
  | get key bring_front =>
    obtain ⟨c', cells', hget, h', hcontents⟩ := h.get key bring_front
    refine ⟨none, c', cells', ?_, h', ?_⟩
    · rw [lrucache.step, hget]
      rfl
    · rw [hcontents]
      split
      · exact stored_touch
      · rfl
  | evict_one =>
    obtain ⟨c', cells', hevict, h', hcontents⟩ := h.evict_one
    refine ⟨(contents cells).getLast?.map Prod.fst, c', cells', ?_, h', ?_⟩
    · rw [lrucache.step, hevict]
      rfl
    · rw [hcontents]
      cases hlast : (contents cells).getLast? with
      | none =>
        rw [List.getLast?_eq_none_iff.mp hlast]
        rfl
      | some e => exact stored_dropLast h.contents_nodup hlast
  | del key =>
    obtain ⟨c', cells', hdel, h', hcontents⟩ := h.del key
    refine ⟨none, c', cells', ?_, h', ?_⟩
    · rw [lrucache.step, hdel]
      rfl
    · rw [hcontents, stored_erase]
      rfl

theorem Represents.run (h : Represents c cells) {ops : List (Op K V)} (hallowed : c.AllAllowed ops) :
    ∃ c' cells', c.run (stored (contents cells)) ops = some (c', stored (contents cells')) ∧ Represents c' cells' := by
  induction ops generalizing c cells with
  | nil => exact ⟨c, cells, rfl, h⟩
  | cons op ops ih =>
    obtain ⟨hop, hops⟩ := hallowed
    obtain ⟨evicted, c₁, cells₁, hstep, h₁, hstored⟩ := h.step hop
    obtain ⟨c', cells', hrun, h'⟩ := ih h₁ (hops evicted c₁ hstep)
    refine ⟨c', cells', ?_, h'⟩
    rw [lrucache.run, hstep]
    dsimp only
    rw [← hstored]
    exact hrun

/-- After allowed calls on a new cache the list and the map belong to each other, and a
key is found with what was last stored under it. -/
theorem run_bijection {ops : List (Op K V)} (hallowed : (empty : lrucache K V).AllAllowed ops) :
    ∃ c last, (empty : lrucache K V).run (fun _ => none) ops = some (c, last) ∧ c.Bijection ∧
      ∀ key bring_front, ∃ c', c.get key bring_front = some (last key, c') := by
  obtain ⟨c, cells, hrun, h⟩ := represents_empty.run hallowed
  refine ⟨c, _, hrun, h.bijection, ?_⟩
  intro key bring_front
  obtain ⟨c', cells', hget, -⟩ := h.get key bring_front
  exact ⟨c', hget⟩

end Run

/-- Two keys, of which one is put behind the other one with the value that it has, and
renamed to a third one. -/
theorem run_bijection_renamed : ∃ c last,
    (empty : lrucache Nat Nat).run (fun _ => none) [.put 1 10, .put 2 20, .put_after 1 2 20, .change_key 2 3, .evict_one] =
      some (c, last) ∧ c.Bijection ∧ ∀ key bring_front, ∃ c', c.get key bring_front = some (last key, c') := by
  apply run_bijection
  refine ⟨trivial, ?_⟩
  rintro _ _ ⟨⟩
  refine ⟨trivial, ?_⟩
  rintro _ _ ⟨⟩
  refine ⟨fun _ _ => rfl, ?_⟩
  rintro _ _ ⟨⟩
  refine ⟨fun _ _ => by decide, ?_⟩
  rintro _ _ ⟨⟩
  exact ⟨trivial, fun _ _ _ => trivial⟩

/-- A key that is renamed to one that is there is twice in the list, and a key that is
put behind another one keeps its value. -/
theorem not_run_bijection :
    (∃ c last, (empty : lrucache Nat Nat).run (fun _ => none) [.put 1 10, .put 2 20, .change_key 1 2] = some (c, last) ∧
      ¬ c.Bijection) ∧
    ∃ c last c', (empty : lrucache Nat Nat).run (fun _ => none) [.put 1 10, .put 2 20, .put_after 1 2 30] = some (c, last) ∧
      c.get 2 false = some (some 20, c') ∧ last 2 = some 30 := by
  refine ⟨⟨_, _, rfl, fun h => ?_⟩, _, _, _, rfl, rfl, rfl⟩
  exact absurd h.once (by decide)

end lrucache

end urbackup.common
