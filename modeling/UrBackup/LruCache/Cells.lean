import UrBackup.LruCache.LruCache
import UrBackup.LruCache.Recency

namespace urbackup.common

open linked

/-- A node and the entry that belongs to it. -/
structure Cell (K V : Type) where
  node : Nat
  entry : Nat
  key : K
  value : V

namespace Cell

variable {K V : Type} (a : Cell K V)

def toNode : Node V :=
  ⟨a.node, a.entry, a.value⟩

def toEntry : Entry K :=
  ⟨a.entry, a.key, some a.node⟩

end Cell

namespace lrucache

variable {K V : Type}

/-- The list and the map have the same nodes and entries, by pairs. -/
structure Represents (c : lrucache K V) (cells : List (Cell K V)) : Prop where
  list : c.lru_list = cells.map Cell.toNode
  access : c.lru_access.Perm (cells.map Cell.toEntry)
  nodes : (cells.map Cell.node).Nodup
  entries : (cells.map Cell.entry).Nodup
  keys : (cells.map Cell.key).Nodup
  fresh : ∀ a ∈ cells, a.node < c.next_id ∧ a.entry < c.next_id

variable {c : lrucache K V} {cells : List (Cell K V)} {a : Cell K V} {key : K}

theorem represents_empty : Represents (empty : lrucache K V) [] where
  list := rfl
  access := List.Perm.refl _
  nodes := List.nodup_nil
  entries := List.nodup_nil
  keys := List.nodup_nil
  fresh := by simp

variable (h : Represents c cells)

include h

section Lookups

theorem Represents.find_cell [DecidableEq K] (ha : a ∈ cells) : c.find a.key = some a.toEntry := by
  have hnodup : (c.lru_access.map Entry.key).Nodup := by
    rw [(h.access.map Entry.key).nodup_iff, List.map_map]
    exact h.keys
  have hmem : a.toEntry ∈ c.lru_access := h.access.mem_iff.mpr (List.mem_map_of_mem ha)
  exact find?_name hnodup hmem

theorem Represents.find_none [DecidableEq K] (hkey : ∀ a ∈ cells, a.key ≠ key) : c.find key = none := by
  apply find?_name_none
  intro e he
  obtain ⟨a, ha, rfl⟩ := List.mem_map.mp (h.access.mem_iff.mp he)
  exact hkey a ha

/-- A key is in the cache with its cell, or it is not. -/
theorem Represents.find_cases [DecidableEq K] (key : K) :
    (∃ a ∈ cells, a.key = key ∧ c.find key = some a.toEntry) ∨ (∀ a ∈ cells, a.key ≠ key) ∧ c.find key = none := by
  by_cases hkey : ∃ a ∈ cells, a.key = key
  · obtain ⟨a, ha, rfl⟩ := hkey
    exact Or.inl ⟨a, ha, rfl, h.find_cell ha⟩
  · have hnone : ∀ a ∈ cells, a.key ≠ key := fun a ha heq => hkey ⟨a, ha, heq⟩
    exact Or.inr ⟨hnone, h.find_none hnone⟩

theorem Represents.keyAt_cell (ha : a ∈ cells) : c.keyAt a.entry = some a.key := by
  have hnodup : (c.lru_access.map Entry.id).Nodup := by
    rw [(h.access.map Entry.id).nodup_iff, List.map_map]
    exact h.entries
  have hmem : a.toEntry ∈ c.lru_access := h.access.mem_iff.mpr (List.mem_map_of_mem ha)
  have hfind : c.lru_access.find? (·.id = a.entry) = some a.toEntry := find?_name hnodup hmem
  rw [keyAt, hfind]
  rfl

theorem Represents.deref_cell (ha : a ∈ cells) : c.deref (some a.node) = some a.toNode := by
  have hnodup : (c.lru_list.map Node.id).Nodup := by
    rw [h.list, List.map_map]
    exact h.nodes
  have hmem : a.toNode ∈ c.lru_list := by
    rw [h.list]
    exact List.mem_map_of_mem ha
  exact find?_name hnodup hmem

theorem Represents.begin_eq : c.begin = cells.head?.map Cell.node := by
  rw [begin, h.list]
  cases cells <;> rfl

theorem Represents.node_inj {b : Cell K V} (ha : a ∈ cells) (hb : b ∈ cells) (heq : a.node = b.node) :
    a = b :=
  List.inj_on_of_nodup_map h.nodes ha hb heq

theorem Represents.key_inj {b : Cell K V} (ha : a ∈ cells) (hb : b ∈ cells) (heq : a.key = b.key) :
    a = b :=
  List.inj_on_of_nodup_map h.keys ha hb heq

theorem Represents.entry_inj {b : Cell K V} (ha : a ∈ cells) (hb : b ∈ cells) (heq : a.entry = b.entry) :
    a = b :=
  List.inj_on_of_nodup_map h.entries ha hb heq

end Lookups

section Others

/-- The other cells, by their node, their entry and their key. -/
theorem Represents.others {b : Cell K V} (ha : a ∈ cells) (hb : b ∈ cells) :
    (b.entry = a.entry ↔ b.node = a.node) ∧ (b.key = a.key ↔ b.node = a.node) := by
  constructor
  · constructor
    · intro heq
      rw [h.entry_inj hb ha heq]
    · intro heq
      rw [h.node_inj hb ha heq]
  · constructor
    · intro heq
      rw [h.key_inj hb ha heq]
    · intro heq
      rw [h.node_inj hb ha heq]

theorem Represents.filter_key [DecidableEq K] (ha : a ∈ cells) :
    cells.filter (·.key ≠ a.key) = cells.filter (·.node ≠ a.node) := by
  apply List.filter_congr
  intro b hb
  simp only [ne_eq, (h.others ha hb).2]

/-- The map without the entry of a cell. -/
theorem Represents.eraseEntry_perm (ha : a ∈ cells) :
    (c.eraseEntry a.entry).lru_access.Perm ((cells.filter (·.node ≠ a.node)).map Cell.toEntry) := by
  have hfilter : (cells.map Cell.toEntry).filter (·.id ≠ a.entry) = (cells.filter (·.node ≠ a.node)).map Cell.toEntry := by
    rw [List.filter_map]
    congr 1
    apply List.filter_congr
    intro b hb
    simp only [Function.comp, Cell.toEntry, ne_eq, (h.others ha hb).1]
  rw [← hfilter]
  exact h.access.filter _

end Others

section Changes

/-- The list is in another order. -/
theorem Represents.reorder {cells' : List (Cell K V)} (hperm : cells'.Perm cells) :
    Represents { c with lru_list := cells'.map Cell.toNode } cells' where
  list := rfl
  access := h.access.trans (hperm.map Cell.toEntry).symm
  nodes := (hperm.map Cell.node).nodup_iff.mpr h.nodes
  entries := (hperm.map Cell.entry).nodup_iff.mpr h.entries
  keys := (hperm.map Cell.key).nodup_iff.mpr h.keys
  fresh := fun a ha => h.fresh a (hperm.mem_iff.mp ha)

/-- The list after a node moved. -/
theorem Represents.splice_eq (ha : a ∈ cells) (pos : Iterator) :
    ∃ cells', moveBefore Cell.node pos a.node cells = some cells' ∧ cells'.Perm cells ∧
      c.splice pos (some a.node) = some { c with lru_list := cells'.map Cell.toNode } := by
  have hnodup : ((cells.map Cell.toNode).map Node.id).Nodup := by
    rw [List.map_map]
    exact h.nodes
  have hmove : moveBefore Node.id pos a.toNode.id (cells.map Cell.toNode) = some (if pos = some a.toNode.id then
      cells.map Cell.toNode else insertBefore Node.id pos a.toNode ((cells.map Cell.toNode).filter (·.id ≠ a.toNode.id))) :=
    moveBefore_eq hnodup (List.mem_map_of_mem ha)
  have hfilter : (cells.map Cell.toNode).filter (·.id ≠ a.node) = (cells.filter (·.node ≠ a.node)).map Cell.toNode := by
    rw [List.filter_map]
    rfl
  have hinsert : (insertBefore Cell.node pos a (cells.filter (·.node ≠ a.node))).map Cell.toNode =
      insertBefore Node.id pos a.toNode ((cells.filter (·.node ≠ a.node)).map Cell.toNode) :=
    insertBefore_map fun _ => rfl
  refine ⟨_, moveBefore_eq h.nodes ha, ?_, ?_⟩
  · split
    · exact List.Perm.refl _
    · exact insertBefore_perm.trans (filter_name h.nodes ha)
  · have hid : a.toNode.id = a.node := rfl
    rw [hid, hfilter, ← hinsert, ← apply_ite (List.map Cell.toNode)] at hmove
    rw [splice, h.list]
    simp only [Option.bind_eq_bind, Option.bind_some, hmove]
    rfl

/-- A node moves to the front. -/
theorem Represents.splice_front (ha : a ∈ cells) :
    ∃ c', c.splice c.begin (some a.node) = some c' ∧ Represents c' (a :: cells.filter (·.node ≠ a.node)) := by
  obtain ⟨cells', hmove, hperm, hsplice⟩ := h.splice_eq ha c.begin
  rw [h.begin_eq, moveBefore_head h.nodes ha, Option.some_inj] at hmove
  subst hmove
  exact ⟨_, hsplice, h.reorder hperm⟩

/-- A cell is replaced by another one. -/
def replace (a b : Cell K V) (cells : List (Cell K V)) : List (Cell K V) :=
  cells.map fun x => if x.node = a.node then b else x

theorem Represents.replace_perm (ha : a ∈ cells) (b : Cell K V) :
    (replace a b cells).Perm (b :: cells.filter (·.node ≠ a.node)) := by
  have hothers : replace a b (cells.filter (·.node ≠ a.node)) = cells.filter (·.node ≠ a.node) := by
    refine Eq.trans (List.map_congr_left ?_) (List.map_id _)
    intro x hx
    have hne : x.node ≠ a.node := by simpa using (List.mem_filter.mp hx).2
    exact if_neg hne
  have hperm : (replace a b (a :: cells.filter (·.node ≠ a.node))).Perm (replace a b cells) :=
    (filter_name h.nodes ha).map _
  have hself : replace a b (a :: cells.filter (·.node ≠ a.node)) = b :: replace a b (cells.filter (·.node ≠ a.node)) := by
    rw [replace, List.map_cons, if_pos rfl, replace]
  rw [hself, hothers] at hperm
  exact hperm.symm

/-- What has to be checked of the new cell. -/
theorem Represents.replace (ha : a ∈ cells) {b : Cell K V} {access : List (Entry K)} {next_id : Nat}
    (haccess : access.Perm (b.toEntry :: (cells.filter (·.node ≠ a.node)).map Cell.toEntry)) (hnode : b.node = a.node)
    (hentry : ∀ x ∈ cells, x.node ≠ a.node → x.entry ≠ b.entry) (hkey : ∀ x ∈ cells, x.node ≠ a.node → x.key ≠ b.key)
    (hle : c.next_id ≤ next_id) (hfresh : b.entry < next_id) :
    Represents ⟨(replace a b cells).map Cell.toNode, access, next_id⟩ (replace a b cells) := by
  have hperm := h.replace_perm ha b
  have hother : ∀ x ∈ cells.filter (·.node ≠ a.node), x ∈ cells ∧ x.node ≠ a.node := by
    intro x hx
    obtain ⟨hmem, hne⟩ := List.mem_filter.mp hx
    exact ⟨hmem, by simpa using hne⟩
  refine ⟨rfl, ?_, ?_, ?_, ?_, ?_⟩
  · exact haccess.trans (hperm.map Cell.toEntry).symm
  · rw [(hperm.map Cell.node).nodup_iff, List.map_cons, List.nodup_cons]
    refine ⟨?_, (h.nodes.sublist ((List.filter_sublist ..).map _))⟩
    rw [List.mem_map]
    rintro ⟨x, hx, heq⟩
    exact (hother x hx).2 (heq.trans hnode)
  · rw [(hperm.map Cell.entry).nodup_iff, List.map_cons, List.nodup_cons]
    refine ⟨?_, (h.entries.sublist ((List.filter_sublist ..).map _))⟩
    rw [List.mem_map]
    rintro ⟨x, hx, heq⟩
    exact hentry x (hother x hx).1 (hother x hx).2 heq
  · rw [(hperm.map Cell.key).nodup_iff, List.map_cons, List.nodup_cons]
    refine ⟨?_, (h.keys.sublist ((List.filter_sublist ..).map _))⟩
    rw [List.mem_map]
    rintro ⟨x, hx, heq⟩
    exact hkey x (hother x hx).1 (hother x hx).2 heq
  · intro x hx
    obtain rfl | hx := List.mem_cons.mp (hperm.mem_iff.mp hx)
    · exact ⟨hnode ▸ Nat.lt_of_lt_of_le (h.fresh a ha).1 hle, hfresh⟩
    · have hlt := h.fresh x (hother x hx).1
      exact ⟨Nat.lt_of_lt_of_le hlt.1 hle, Nat.lt_of_lt_of_le hlt.2 hle⟩

/-- Only the list matters. -/
theorem Represents.assign_eq {c' : lrucache K V} (hlist : c'.lru_list = c.lru_list) (ha : a ∈ cells)
    {f : Node V → Node V} {b : Cell K V} (hf : f a.toNode = b.toNode) :
    c'.assign (some a.node) f = some { c' with lru_list := (lrucache.replace a b cells).map Cell.toNode } := by
  have hderef : c'.deref (some a.node) = some a.toNode := by
    rw [deref, hlist]
    exact h.deref_cell ha
  rw [assign, hderef]
  simp only [Option.bind_eq_bind, Option.bind_some, Option.pure_def, Option.some_inj]
  congr 1
  rw [hlist, h.list, lrucache.replace, List.map_map, List.map_map]
  apply List.map_congr_left
  intro x hx
  simp only [Function.comp]
  by_cases heq : x.node = a.node
  · obtain rfl := h.node_inj hx ha heq
    rw [if_pos rfl, if_pos rfl, hf]
  · rw [if_neg heq]
    exact if_neg heq

/-- A value is assigned. -/
theorem Represents.assign_second (ha : a ∈ cells) (v : V) :
    ∃ c', c.assign (some a.node) ({ · with second := v }) = some c' ∧ Represents c' (lrucache.replace a { a with value := v } cells) := by
  refine ⟨_, h.assign_eq (b := { a with value := v }) rfl ha rfl, h.replace ha ?_ rfl ?_ ?_ (Nat.le_refl _) (h.fresh a ha).2⟩
  · exact h.access.trans ((filter_name h.nodes ha).map Cell.toEntry).symm
  · intro x hx hne heq
    exact hne (congrArg Cell.node (h.entry_inj hx ha heq))
  · intro x hx hne heq
    exact hne (congrArg Cell.node (h.key_inj hx ha heq))

/-- The node and the entry of a cell are gone. -/
theorem Represents.remove {access : List (Entry K)}
    (haccess : access.Perm ((cells.filter (·.node ≠ a.node)).map Cell.toEntry)) :
    Represents ⟨(cells.filter (·.node ≠ a.node)).map Cell.toNode, access, c.next_id⟩ (cells.filter (·.node ≠ a.node)) where
  list := rfl
  access := haccess
  nodes := h.nodes.sublist ((List.filter_sublist ..).map _)
  entries := h.entries.sublist ((List.filter_sublist ..).map _)
  keys := h.keys.sublist ((List.filter_sublist ..).map _)
  fresh := fun x hx => h.fresh x (List.mem_filter.mp hx).1

end Changes

end lrucache

end urbackup.common
