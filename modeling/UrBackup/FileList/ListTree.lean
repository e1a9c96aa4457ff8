import UrBackup.FileList.Agree
import UrBackup.TreeDiff.Flagged

namespace urbackup.filelist

open stringtools treediff

/-- The nodes of the items from a line and a node index on: those of the level they start
in, then those of the levels around it. -/
def levels (line idx : Nat) : List ListItem → List (List TreeNode)
  | [] => []
  | .file name size last_modified _ :: items =>
    let rest := levels (line + 1) (idx + 1) items
    (.mk idx line (cString name.bytes) (.file size last_modified) [] :: rest.headD []) :: rest.tail
  | .dir name last_modified _ :: items =>
    let rest := levels (line + 1) (idx + 1) items
    (.mk idx line (cString name.bytes) (.dir last_modified) (rest.headD []) :: rest.tail.headD []) :: rest.tail.tail
  | .up :: items => [] :: levels (line + 1) idx items

/-- The tree of a list, by lines and node indices. -/
def FileList.root (l : FileList) : TreeNode :=
  .mk 0 0 (cString rootName) .root ((levels 0 1 l.items).headD [])

/-- A node with the item it was read from, `j` lines behind the start. -/
structure NodeOf (line idx : Nat) (items : List ListItem) (j : Nat) (item : ListItem) (c : TreeNode) : Prop where
  item_eq : items[j]? = some item
  entry : item.isEntry = true
  id : c.getId = line + j
  ptr : c.ptr = idx + (items.take j).countP ListItem.isEntry
  name : c.getName = cString item.sfile.name
  data : c.getData = item.nodeData

theorem NodeOf.first (line idx : Nat) (item : ListItem) (items : List ListItem) (children : List TreeNode)
    (hentry : item.isEntry = true) :
    NodeOf line idx (item :: items) 0 item (.mk idx line (cString item.sfile.name) item.nodeData children) :=
  ⟨rfl, hentry, rfl, rfl, rfl, rfl⟩

theorem NodeOf.later {line idx n j : Nat} {items : List ListItem} {first item : ListItem} {c : TreeNode}
    (h : NodeOf (line + 1) n items j item c) (hn : n = idx + if first.isEntry = true then 1 else 0) :
    NodeOf line idx (first :: items) (j + 1) item c where
  item_eq := by simpa using h.item_eq
  entry := h.entry
  id := by rw [h.id]; omega
  ptr := by
    rw [h.ptr, hn, List.take_succ_cons, List.countP_cons]
    omega
  name := h.name
  data := h.data

theorem headD_eq {α : Type} (ls : List (List α)) : ls.headD [] = ls[0]?.getD [] := by
  cases ls <;> rfl

/-- What is above a node are the directories open at its line. -/
theorem levels_path (items : List ListItem) :
    ∀ (line idx : Nat) (stack : List Nat) (i : Nat) (above : List TreeNode) (c : TreeNode),
      PathTo ((levels line idx items)[i]?.getD []) above c → ∃ j item, NodeOf line idx items j item c ∧
        above.map TreeNode.getId ++ stack.drop i = ((items.take j).foldl openStep (line, stack)).2 := by
  induction items with
  | nil =>
    intro line idx stack i above c hpath
    rw [levels, List.getElem?_nil, Option.getD_none] at hpath
    exact absurd hpath.mem_flatten.1 (by simp)
  | cons first items ih =>
    intro line idx stack i above c hpath
    have hlater : ∀ n stack' i' above', n = idx + (if first.isEntry = true then 1 else 0) →
        openStep (line, stack) first = (line + 1, stack') →
        above'.map TreeNode.getId ++ stack'.drop i' = above.map TreeNode.getId ++ stack.drop i →
        PathTo ((levels (line + 1) n items)[i']?.getD []) above' c →
        ∃ j item, NodeOf line idx (first :: items) j item c ∧
          above.map TreeNode.getId ++ stack.drop i = (((first :: items).take j).foldl openStep (line, stack)).2 := by
      intro n stack' i' above' hn hstep hsame hpath'
      obtain ⟨j, item, hnode, hopen⟩ := ih (line + 1) n stack' i' above' c hpath'
      refine ⟨j + 1, item, hnode.later hn, ?_⟩
      rw [List.take_succ_cons, List.foldl_cons, hstep, ← hopen, hsame]
    cases first with
    | file name size last_modified extra =>
      simp only [levels, headD_eq] at hpath
      cases i with
      | zero =>
        obtain ⟨rfl, rfl⟩ | ⟨inner, hinner, rfl⟩ | hrest := pathTo_cons hpath
        · exact ⟨0, _, .first line idx (.file name size last_modified extra) items [] rfl, by simp⟩
        · exact absurd hinner.mem_flatten.1 (by simp)
        · exact hlater (idx + 1) stack 0 above rfl rfl rfl hrest
      | succ i =>
        rw [List.getElem?_cons_succ, List.getElem?_tail] at hpath
        exact hlater (idx + 1) stack (i + 1) above rfl rfl rfl hpath
    | dir name last_modified extra =>
      simp only [levels, headD_eq, List.getElem?_tail] at hpath
      cases i with
      | zero =>
        obtain ⟨rfl, rfl⟩ | ⟨inner, hinner, rfl⟩ | hrest := pathTo_cons hpath
        · exact ⟨0, _, .first line idx (.dir name last_modified extra) items _ rfl, by simp⟩
        · exact hlater (idx + 1) (line :: stack) 0 inner rfl rfl (by simp) hinner
        · exact hlater (idx + 1) (line :: stack) 1 above rfl rfl rfl hrest
      | succ i =>
        rw [List.getElem?_cons_succ, List.getElem?_tail, List.getElem?_tail] at hpath
        exact hlater (idx + 1) (line :: stack) (i + 2) above rfl rfl rfl hpath
    | up =>
      simp only [levels] at hpath
      cases i with
      | zero => exact absurd hpath.mem_flatten.1 (by simp)
      | succ i =>
        rw [List.getElem?_cons_succ] at hpath
        exact hlater idx stack.tail i above rfl rfl (by rw [List.drop_tail]) hpath

/-- The nodes are numbered in the order of the list. -/
theorem ptrs_levels (items : List ListItem) :
    ∀ line idx, (levels line idx items).flatMap ptrs = List.range' idx (items.countP ListItem.isEntry) := by
  have hsplit : ∀ ls : List (List TreeNode), ls.flatMap ptrs = ptrs (ls.headD []) ++ ls.tail.flatMap ptrs := by
    intro ls
    cases ls <;> simp
  induction items with
  | nil => exact fun _ _ => rfl
  | cons first items ih =>
    intro line idx
    cases first with
    | file name size last_modified extra =>
      rw [levels, List.flatMap_cons, ptrs_cons, List.countP_cons_of_pos rfl, List.range'_succ, ← ih (line + 1), hsplit (levels _ _ _)]
      simp
    | dir name last_modified extra =>
      rw [levels, List.flatMap_cons, ptrs_cons, List.countP_cons_of_pos rfl, List.range'_succ, ← ih (line + 1), hsplit (levels _ _ _),
        hsplit (levels _ _ _).tail]
      simp
    | up =>
      rw [levels, List.flatMap_cons, ptrs_nil, List.nil_append, ih, List.countP_cons_of_neg (by simp [ListItem.isEntry])]

/-- A nested list has no nodes outside of the levels it started in. -/
theorem levels_length (items : List ListItem) :
    ∀ line idx depth, NestedFrom depth items → (levels line idx items).length ≤ depth + 1 := by
  induction items with
  | nil => simp [levels]
  | cons first items ih =>
    intro line idx depth hnested
    cases first with
    | file name size last_modified extra =>
      have := ih (line + 1) (idx + 1) depth hnested
      simp only [levels, List.length_cons, List.length_tail]
      omega
    | dir name last_modified extra =>
      have := ih (line + 1) (idx + 1) (depth + 1) hnested
      simp only [levels, List.length_cons, List.length_tail]
      omega
    | up =>
      have := ih (line + 1) idx (depth - 1) hnested.2
      have := hnested.1
      simp only [levels, List.length_cons]
      omega

namespace FileList

variable (l : FileList)

/-- The tree has a node for each item but the `..` lines. -/
theorem ptrs_root : ptrs l.root.children = List.range' 1 (l.items.countP ListItem.isEntry) := by
  have hlen := levels_length l.items 0 1 0 (by simpa [openDirs] using l.nestedFrom l.items [] rfl)
  rw [← ptrs_levels l.items 0 1, root, TreeNode.children_mk]
  generalize levels 0 1 l.items = ls at hlen
  obtain _ | ⟨ts, _ | ⟨_, _⟩⟩ := ls
  · rfl
  · simp
  · simp at hlen

theorem addresses_root : (l.root.ptr :: ptrs l.root.children).Nodup := by
  have hzero : l.root.ptr = 0 := rfl
  rw [ptrs_root, hzero, List.nodup_cons]
  exact ⟨by simp, List.nodup_range'⟩

theorem path_root {above : List TreeNode} {c : TreeNode} (h : PathTo l.root.children above c) :
    ∃ item, l.items[c.getId]? = some item ∧ item.isEntry = true ∧ c.ptr = l.nodeIndex c.getId ∧
      c.getName = cString item.sfile.name ∧ c.getData = item.nodeData ∧
      above.map TreeNode.getId = openDirs (l.items.take c.getId) := by
  rw [root, TreeNode.children_mk, headD_eq] at h
  obtain ⟨j, item, hnode, hopen⟩ := levels_path l.items 0 1 [] 0 above c h
  obtain rfl : c.getId = j := by rw [hnode.id, Nat.zero_add]
  refine ⟨item, hnode.item_eq, hnode.entry, ?_, hnode.name, hnode.data, by simpa [openDirs] using hopen⟩
  rw [hnode.ptr, nodeIndex, Nat.add_comm]

end FileList

end urbackup.filelist
