import UrBackup.LruCache.Cells

namespace urbackup.common

open linked recency

namespace lrucache

variable {K V : Type} {c : lrucache K V} {cells : List (Cell K V)} {a : Cell K V} {key : K} {v : V}

/-- The keys and values of a cache, in the order of its list. -/
def contents (cells : List (Cell K V)) : List (K × V) :=
  cells.map fun a => (a.key, a.value)

theorem Represents.contents_nodup (h : Represents c cells) : ((contents cells).map Prod.fst).Nodup := by
  rw [contents, List.map_map]
  exact h.keys

section Contents

theorem has_iff : Has (contents cells) key ↔ ∃ a ∈ cells, a.key = key := by
  rw [Has, contents, List.map_map, List.mem_map]
  rfl

variable [DecidableEq K]

section Cells

variable (h : Represents c cells) (ha : a ∈ cells)

include h ha

theorem Represents.stored_cell : stored (contents cells) a.key = some a.value := by
  rw [stored_eq_some h.contents_nodup]
  exact List.mem_map_of_mem ha

theorem Represents.contents_filter :
    contents (cells.filter (·.node ≠ a.node)) = erase a.key (contents cells) := by
  rw [← h.filter_key ha, erase, contents, contents, List.filter_map]
  rfl

theorem Represents.contents_assign (v : V) :
    contents (lrucache.replace a { a with value := v } cells) = recency.assign a.key v (contents cells) := by
  rw [contents, contents, lrucache.replace, recency.assign, List.map_map, List.map_map]
  apply List.map_congr_left
  intro b hb
  simp only [Function.comp, (h.others ha hb).2]
  by_cases heq : b.node = a.node
  · rw [if_pos heq, if_pos heq, (h.others ha hb).2.mpr heq]
  · rw [if_neg heq, if_neg heq]

/-- An insertion before a node is one before its key, also where some cells are left
out. -/
theorem Represents.contents_insertBefore {xs : List (Cell K V)}
    (hsub : ∀ x ∈ xs, x ∈ cells) (b : Cell K V) :
    contents (insertBefore Cell.node (some a.node) b xs) = insertBefore Prod.fst (some a.key) (b.key, b.value) (contents xs) := by
  have hnames : insertBefore Cell.node (some a.node) b xs = insertBefore Cell.key (some a.key) b xs := by
    apply insertBefore_congr
    intro x hx
    simp only [Option.some_inj, eq_comm (b := x.node), eq_comm (b := x.key), (h.others ha (hsub x hx)).2]
  rw [hnames]
  exact insertBefore_map fun _ => rfl

theorem Represents.contents_moveBefore {b : Cell K V} (hb : b ∈ cells)
    {cells' : List (Cell K V)} (hmove : moveBefore Cell.node (some a.node) b.node cells = some cells') :
    moveBefore Prod.fst (some a.key) b.key (contents cells) = some (contents cells') := by
  have hmem : (b.key, b.value) ∈ contents cells := List.mem_map_of_mem hb
  have hkeys : moveBefore Prod.fst (some a.key) b.key (contents cells) = some (if some a.key = some b.key then contents cells
      else insertBefore Prod.fst (some a.key) (b.key, b.value) ((contents cells).filter (·.1 ≠ b.key))) :=
    moveBefore_eq h.contents_nodup hmem
  have hfilter : (contents cells).filter (·.1 ≠ b.key) = contents (cells.filter (·.node ≠ b.node)) := (h.contents_filter hb).symm
  have hinsert := h.contents_insertBefore ha (fun x (hx : x ∈ cells.filter (·.node ≠ b.node)) => (List.mem_filter.mp hx).1) b
  rw [moveBefore_eq h.nodes hb, Option.some_inj] at hmove
  rw [hkeys, ← hmove, hfilter, ← hinsert, Option.some_inj]
  simp only [Option.some_inj, (h.others hb ha).2]
  split <;> rfl

end Cells

end Contents

/-- A new cell, before some node. -/
theorem Represents.insert (h : Represents c cells) (hkey : ∀ b ∈ cells, b.key ≠ key) (it pos : Iterator) (v : V) :
    Represents
      (setIterator
        { lru_list := insertBefore Node.id pos ⟨c.next_id + 1, c.next_id, v⟩ c.lru_list
          lru_access := ⟨c.next_id, key, it⟩ :: c.lru_access
          next_id := c.next_id + 1 + 1 }
        c.next_id (some (c.next_id + 1)))
      (insertBefore Cell.node pos ⟨c.next_id + 1, c.next_id, key, v⟩ cells) := by
  have hperm : (insertBefore Cell.node pos ⟨c.next_id + 1, c.next_id, key, v⟩ cells).Perm
      (⟨c.next_id + 1, c.next_id, key, v⟩ :: cells) := insertBefore_perm
  refine ⟨?_, ?_, ?_, ?_, ?_, ?_⟩
  · rw [setIterator, h.list]
    have hmap : (insertBefore Cell.node pos ⟨c.next_id + 1, c.next_id, key, v⟩ cells).map Cell.toNode =
        insertBefore Node.id pos ⟨c.next_id + 1, c.next_id, v⟩ (cells.map Cell.toNode) := insertBefore_map fun _ => rfl
    exact hmap.symm
  · have hothers : (c.lru_access.map fun e => if e.id = c.next_id then { e with second := some (c.next_id + 1) } else e) =
        c.lru_access := by
      refine Eq.trans (List.map_congr_left ?_) (List.map_id _)
      intro e he
      obtain ⟨b, hb, rfl⟩ := List.mem_map.mp (h.access.mem_iff.mp he)
      have hlt := (h.fresh b hb).2
      exact if_neg (Nat.ne_of_lt hlt)
    rw [setIterator, List.map_cons, if_pos rfl, hothers]
    exact (h.access.cons _).trans (hperm.map Cell.toEntry).symm
  · rw [(hperm.map Cell.node).nodup_iff, List.map_cons, List.nodup_cons, List.mem_map]
    refine ⟨?_, h.nodes⟩
    rintro ⟨b, hb, heq⟩
    have hlt := (h.fresh b hb).1
    dsimp only at heq
    omega
  · rw [(hperm.map Cell.entry).nodup_iff, List.map_cons, List.nodup_cons, List.mem_map]
    refine ⟨?_, h.entries⟩
    rintro ⟨b, hb, heq⟩
    have hlt := (h.fresh b hb).2
    dsimp only at heq
    omega
  · rw [(hperm.map Cell.key).nodup_iff, List.map_cons, List.nodup_cons, List.mem_map]
    refine ⟨?_, h.keys⟩
    rintro ⟨b, hb, heq⟩
    exact hkey b hb heq
  · intro b hb
    dsimp only [setIterator]
    obtain rfl | hb := List.mem_cons.mp (hperm.mem_iff.mp hb)
    · dsimp only
      omega
    · have hlt := h.fresh b hb
      omega

section Calls

variable [DecidableEq K]

theorem assign_others (key : K) (v : V) (l : List (K × V)) : recency.assign key v (erase key l) = erase key l := by
  refine Eq.trans (List.map_congr_left ?_) (List.map_id _)
  intro e he
  have hne : e.1 ≠ key := by simpa using (List.mem_filter.mp he).2
  exact if_neg hne

theorem assign_same {l : List (K × V)} (hnodup : (l.map Prod.fst).Nodup) (h : stored l key = some v) :
    recency.assign key v l = l := by
  refine Eq.trans (List.map_congr_left ?_) (List.map_id _)
  intro e he
  by_cases hkey : e.1 = key
  · have hvalue := (stored_eq_some hnodup).mpr (show (key, e.2) ∈ l from hkey ▸ he)
    rw [h, Option.some_inj] at hvalue
    rw [if_pos hkey, hvalue]
    rfl
  · exact if_neg hkey

theorem erase_none {l : List (K × V)} (h : ¬ Has l key) : erase key l = l :=
  filter_name_notMem h

omit [DecidableEq K] in
theorem not_has (h : ∀ a ∈ cells, a.key ≠ key) : ¬ Has (contents cells) key := by
  rw [has_iff]
  rintro ⟨a, ha, hkey⟩
  exact h a ha hkey

section Represented

variable (h : Represents c cells)

include h

theorem Represents.put (key : K) (v : V) :
    ∃ c' cells', c.put key v = some c' ∧ Represents c' cells' ∧ contents cells' = recency.put key v (contents cells) := by
  obtain ⟨a, ha, rfl, hfind⟩ | ⟨hnone, hfind⟩ := h.find_cases key
  · obtain ⟨c₁, hsplice, h₁⟩ := h.splice_front ha
    obtain ⟨c₂, hassign, h₂⟩ := h₁.assign_second (a := a) (List.mem_cons_self ..) v
    refine ⟨c₂, _, ?_, h₂, ?_⟩
    · rw [lrucache.put, hfind]
      simp only [Cell.toEntry, hsplice, Option.bind_eq_bind, Option.bind_some, hassign]
    · have hcons : contents (a :: cells.filter (·.node ≠ a.node)) = (a.key, a.value) :: erase a.key (contents cells) := by
        rw [← h.contents_filter ha]
        rfl
      have hothers := assign_others a.key v (contents cells)
      rw [h₁.contents_assign (List.mem_cons_self ..), hcons]
      rw [recency.assign] at hothers ⊢
      rw [List.map_cons, hothers, if_pos rfl]
      rfl
  · have hhead : (insertBefore Node.id (c.lru_list.head?.map Node.id) ⟨c.next_id + 1, c.next_id, v⟩ c.lru_list).head?.map Node.id =
        some (c.next_id + 1) := by
      rw [insertBefore_head]
      rfl
    refine ⟨_, _, ?_, h.insert hnone c.begin c.begin v, ?_⟩
    · rw [lrucache.put, hfind]
      simp only [insertEntry, hfind, insertNode, begin, hhead]
    · have herase : erase key (contents cells) = contents cells := erase_none (not_has hnone)
      rw [h.begin_eq, insertBefore_head]
      exact congrArg ((key, v) :: ·) herase.symm

/-- Where the other key is there already, its value has to be the one that it has. -/
theorem Represents.put_after {key put_key : K} {v : V}
    (hvalue : Has (contents cells) key → Has (contents cells) put_key → stored (contents cells) put_key = some v) :
    ∃ c' cells', c.put_after key put_key v = some c' ∧ Represents c' cells' ∧
      contents cells' = recency.putAfter key put_key v (contents cells) := by
  obtain ⟨a, ha, rfl, hfind⟩ | ⟨hnone, hfind⟩ := h.find_cases key
  · have hhas : Has (contents cells) a.key := has_iff.mpr ⟨a, ha, rfl⟩
    obtain ⟨b, hb, rfl, hfind'⟩ | ⟨hnone', hfind'⟩ := h.find_cases put_key
    · have hhas' : Has (contents cells) b.key := has_iff.mpr ⟨b, hb, rfl⟩
      obtain ⟨cells', hmove, hperm, hsplice⟩ := h.splice_eq hb (some a.node)
      refine ⟨_, cells', ?_, h.reorder hperm, ?_⟩
      · rw [lrucache.put_after, hfind]
        dsimp only
        rw [hfind']
        exact hsplice
      · have hstored : stored (contents cells') b.key = some v := by
          have hcontents : (contents cells').Perm (contents cells) := hperm.map _
          rw [stored_perm h.contents_nodup hcontents]
          exact hvalue hhas hhas'
        rw [recency.putAfter, if_pos hhas, if_pos hhas', h.contents_moveBefore ha hb hmove, Option.getD_some,
          assign_same (h.reorder hperm).contents_nodup hstored]
    · refine ⟨_, _, ?_, h.insert hnone' c.begin (some a.node) v, ?_⟩
      · rw [lrucache.put_after, hfind]
        dsimp only
        rw [hfind']
        simp only [insertEntry, hfind', insertNode, Cell.toEntry]
      · rw [h.contents_insertBefore ha (fun _ hx => hx), recency.putAfter, if_pos hhas, if_neg (not_has hnone')]
  · obtain ⟨c', cells', hput, h', hcontents⟩ := h.put put_key v
    refine ⟨c', cells', ?_, h', ?_⟩
    · rw [lrucache.put_after, hfind]
      exact hput
    · rw [hcontents, recency.putAfter, if_neg (not_has hnone)]

theorem Represents.put_back (key : K) (v : V) :
    ∃ c' cells', c.put_back key v = some c' ∧ Represents c' cells' ∧ contents cells' = recency.putBack key v (contents cells) := by
  obtain ⟨a, ha, rfl, hfind⟩ | ⟨hnone, hfind⟩ := h.find_cases key
  · obtain ⟨c', hassign, h'⟩ := h.assign_second ha v
    refine ⟨c', _, ?_, h', ?_⟩
    · rw [lrucache.put_back, hfind]
      exact hassign
    · rw [h.contents_assign ha, recency.putBack, if_pos (has_iff.mpr ⟨a, ha, rfl⟩)]
  · have hlast : (insertBefore Node.id none ⟨c.next_id + 1, c.next_id, v⟩ c.lru_list).getLast?.map Node.id = some (c.next_id + 1) := by
      rw [insertBefore_none, List.getLast?_concat]
      rfl
    refine ⟨_, _, ?_, h.insert hnone none none v, ?_⟩
    · rw [lrucache.put_back, hfind]
      simp only [insertEntry, hfind, insertNode, last, hlast]
    · rw [insertBefore_none, recency.putBack, if_neg (not_has hnone), contents, List.map_append]
      rfl

/-- The new key has to be a new one, or the old one. -/
theorem Represents.change_key {old_key new_key : K}
    (hnew : Has (contents cells) old_key → old_key ≠ new_key → ¬ Has (contents cells) new_key) :
    ∃ r c' cells', c.change_key old_key new_key = some (r, c') ∧ Represents c' cells' ∧
      contents cells' = recency.rename old_key new_key (contents cells) := by
  obtain ⟨a, ha, rfl, hfind⟩ | ⟨hnone, hfind⟩ := h.find_cases old_key
  · have hhas : Has (contents cells) a.key := has_iff.mpr ⟨a, ha, rfl⟩
    have hother : ∀ x ∈ cells, x.node ≠ a.node → x.key ≠ new_key := by
      intro x hx hne heq
      have hkey : x.key ≠ a.key := fun h' => hne ((h.others ha hx).2.mp h')
      exact hnew hhas (fun h' => hkey (heq.trans h'.symm)) (has_iff.mpr ⟨x, hx, heq⟩)
    have herase := h.eraseEntry_perm ha
    have hfind' : (c.eraseEntry a.entry).find new_key = none := by
      apply find?_name_none
      intro e he
      obtain ⟨x, hx, rfl⟩ := List.mem_map.mp (herase.mem_iff.mp he)
      obtain ⟨hmem, hne⟩ := List.mem_filter.mp hx
      exact hother x hmem (by simpa using hne)
    obtain ⟨c₁, hc₁⟩ : ∃ c₁ : lrucache K V, c₁ = ⟨c.lru_list,
      ⟨c.next_id, new_key, some a.node⟩ :: (c.eraseEntry a.entry).lru_access, c.next_id + 1⟩ := ⟨_, rfl⟩
    have hinsert : (c.eraseEntry a.entry).insertEntry new_key (some a.node) = (c.next_id, c₁) := by
      rw [insertEntry, hfind', hc₁]
      rfl
    have hassign : c₁.assign (some a.node) ({ · with first := c.next_id }) =
        some { c₁ with lru_list := (lrucache.replace a ⟨a.node, c.next_id, new_key, a.value⟩ cells).map Cell.toNode } :=
      h.assign_eq (by rw [hc₁]) ha rfl
    refine ⟨true, { c₁ with lru_list := (lrucache.replace a ⟨a.node, c.next_id, new_key, a.value⟩ cells).map Cell.toNode },
      lrucache.replace a ⟨a.node, c.next_id, new_key, a.value⟩ cells, ?_, ?_, ?_⟩
    · rw [lrucache.change_key, hfind]
      simp only [Cell.toEntry, hinsert, hassign, Option.bind_eq_bind, Option.bind_some, Option.pure_def]
    · subst hc₁
      refine h.replace ha (herase.cons _) rfl ?_ hother (Nat.le_succ _) (Nat.lt_succ_self _)
      intro x hx _
      exact Nat.ne_of_lt (h.fresh x hx).2
    · have hkept : (contents cells).filter (fun e => e.1 = a.key ∨ e.1 ≠ new_key) = contents cells := by
        rw [List.filter_eq_self]
        intro e he
        obtain ⟨x, hx, rfl⟩ := List.mem_map.mp he
        by_cases hnode : x.node = a.node
        · simp [(h.others ha hx).2.mpr hnode]
        · simp [hother x hx hnode]
      rw [recency.rename, if_pos hhas, hkept, contents, contents, lrucache.replace, List.map_map, List.map_map]
      apply List.map_congr_left
      intro x hx
      simp only [Function.comp, (h.others ha hx).2]
      by_cases hnode : x.node = a.node
      · rw [if_pos hnode, if_pos hnode, h.node_inj hx ha hnode]
      · rw [if_neg hnode, if_neg hnode]
  · refine ⟨false, c, cells, ?_, h, ?_⟩
    · rw [lrucache.change_key, hfind]
    · rw [recency.rename, if_neg (not_has hnone)]

theorem Represents.get (key : K) (bring_front : Bool) :
    ∃ c' cells', c.get key bring_front = some (stored (contents cells) key, c') ∧ Represents c' cells' ∧
      contents cells' = if bring_front then touch key (contents cells) else contents cells := by
  obtain ⟨a, ha, rfl, hfind⟩ | ⟨hnone, hfind⟩ := h.find_cases key
  · have hstored := h.stored_cell ha
    cases bring_front with
    | true =>
      obtain ⟨c', hsplice, h'⟩ := h.splice_front ha
      have hderef := h'.deref_cell (a := a) (List.mem_cons_self ..)
      refine ⟨c', _, ?_, h', ?_⟩
      · rw [lrucache.get, hfind]
        simp only [Cell.toEntry, if_true, hsplice, hderef, hstored, Option.bind_eq_bind, Option.bind_some, Option.pure_def,
          Cell.toNode]
      · rw [if_pos rfl, touch, hstored, contents, List.map_cons]
        exact congrArg ((a.key, a.value) :: ·) (h.contents_filter ha)
    | false =>
      refine ⟨c, cells, ?_, h, rfl⟩
      rw [lrucache.get, hfind]
      simp only [Cell.toEntry, Bool.false_eq_true, if_false, h.deref_cell ha, hstored, Option.bind_eq_bind, Option.bind_some,
        Option.pure_def, Cell.toNode]
  · have hstored : stored (contents cells) key = none := stored_eq_none.mpr (not_has hnone)
    refine ⟨c, cells, ?_, h, ?_⟩
    · rw [lrucache.get, hfind, hstored]
    · rw [touch, hstored]
      split <;> rfl

/-- The last key goes. -/
theorem Represents.evict_one :
    ∃ c' cells', c.evict_one = some ((contents cells).getLast?, c') ∧ Represents c' cells' ∧
      contents cells' = (contents cells).dropLast := by
  cases hlast : cells.getLast? with
  | none =>
    obtain rfl : cells = [] := List.getLast?_eq_none_iff.mp hlast
    refine ⟨c, [], ?_, h, rfl⟩
    rw [lrucache.evict_one, h.list]
    rfl
  | some a =>
    obtain ⟨init, rfl⟩ : ∃ init, cells = init ++ [a] := List.getLast?_eq_some_iff.mp hlast
    have ha : a ∈ init ++ [a] := by simp
    have hinit : (init ++ [a]).filter (·.node ≠ a.node) = init := by
      have hnodes := h.nodes
      rw [List.map_append, List.nodup_append] at hnodes
      have hnew : a.node ∉ init.map Cell.node := fun hmem => hnodes.2.2 _ hmem _ (by simp) rfl
      rw [List.filter_append, filter_name_notMem hnew]
      simp
    have hback : c.lru_list.getLast? = some a.toNode := by
      rw [h.list, List.map_append]
      exact List.getLast?_concat
    have hdrop : c.lru_list.dropLast = ((init ++ [a]).filter (·.node ≠ a.node)).map Cell.toNode := by
      rw [h.list, List.map_append, hinit]
      exact List.dropLast_concat
    refine ⟨_, _, ?_, h.remove (h.eraseEntry_perm ha), ?_⟩
    · rw [lrucache.evict_one, hback]
      simp only [Cell.toNode, h.keyAt_cell ha, h.find_cell ha, Option.bind_eq_bind, Option.bind_some, Option.pure_def, hdrop,
        Cell.toEntry, eraseEntry, contents, List.map_append, List.map_cons, List.map_nil, List.getLast?_concat]
    · rw [hinit, contents, contents, List.map_append]
      exact List.dropLast_concat.symm

theorem Represents.del (key : K) :
    ∃ c' cells', c.del key = some c' ∧ Represents c' cells' ∧ contents cells' = erase key (contents cells) := by
  obtain ⟨a, ha, rfl, hfind⟩ | ⟨hnone, hfind⟩ := h.find_cases key
  · have hfilter : c.lru_list.filter (·.id ≠ a.node) = (cells.filter (·.node ≠ a.node)).map Cell.toNode := by
      rw [h.list, List.filter_map]
      rfl
    refine ⟨_, _, ?_, h.remove (h.eraseEntry_perm ha), h.contents_filter ha⟩
    rw [lrucache.del, hfind]
    simp only [eraseNode, Cell.toEntry, h.deref_cell ha, Option.bind_eq_bind, Option.bind_some, Option.pure_def, Cell.toNode,
      hfilter]
    rfl
  · refine ⟨c, cells, ?_, h, (erase_none (not_has hnone)).symm⟩
    rw [lrucache.del, hfind]

end Represented

end Calls

end lrucache

end urbackup.common
