import UrBackup.FileList.TreeRead

namespace urbackup.filelist

open stringtools treediff

theorem openDirs_line (items : List ListItem) (st : Nat × List Nat) :
    (items.foldl openStep st).1 = st.1 + items.length := by
  induction items generalizing st with
  | nil => rfl
  | cons item items ih =>
    rw [List.foldl_cons, ih]
    cases item <;> simp only [openStep, List.length_cons] <;> omega

theorem openDirs_snoc (before : List ListItem) (item : ListItem) :
    openDirs (before ++ [item]) = match item with
      | .file _ _ _ _ => openDirs before
      | .dir _ _ _ => before.length :: openDirs before
      | .up => (openDirs before).tail := by
  have hline := openDirs_line before (0, [])
  simp only [openDirs, List.foldl_append, List.foldl_cons, List.foldl_nil]
  cases item <;> simp_all [openStep]

/-- The list is nested from any line on, as deep as directories are open there. -/
theorem FileList.nestedFrom (l : FileList) (after : List ListItem) :
    ∀ before, l.items = before ++ after → NestedFrom (openDirs before).length after := by
  induction after with
  | nil => exact fun _ _ => trivial
  | cons item after ih =>
    intro before hsplit
    have hrest := ih (before ++ [item]) (by simpa using hsplit)
    rw [openDirs_snoc] at hrest
    cases item with
    | file name size last_modified extra => exact hrest
    | dir name last_modified extra => exact hrest
    | up =>
      refine ⟨List.length_pos_of_ne_nil (l.nested before after hsplit), ?_⟩
      simpa using hrest

/-- The nodes of the open directories, the root last. -/
def FileList.openNodes (l : FileList) (before : List ListItem) : List Nat :=
  (openDirs before).map l.nodeIndex ++ [0]

theorem FileList.nodeIndex_length (l : FileList) {before after : List ListItem} (h : l.items = before ++ after) :
    l.nodeIndex before.length = before.countP ListItem.isEntry + 1 := by
  simp [FileList.nodeIndex, h]

theorem FileList.head_openNodes (l : FileList) {before after : List ListItem} (h : l.items = before ++ after) :
    (l.openNodes before).head? = some (l.parentIndex before.length) := by
  simp only [FileList.openNodes, FileList.parentIndex, h, List.take_left']
  cases openDirs before <;> simp

/-- The records of the nodes are those of the items, in the order of the lines. -/
theorem records_spec (l : FileList) (after : List ListItem) :
    ∀ before, l.items = before ++ after → ∀ j item, after[j]? = some item → item.isEntry = true →
      (recordsFrom before.length (before.countP ListItem.isEntry + 1) (l.openNodes before) after)[
          (after.take j).countP ListItem.isEntry]? =
        some ⟨cString item.sfile.name, before.length + j, item.nodeData,
          some (l.parentIndex (before.length + j))⟩ := by
  induction after with
  | nil => simp
  | cons first after ih =>
    intro before hsplit j item hitem hentry
    have hsplit' : l.items = (before ++ [first]) ++ after := by simpa using hsplit
    have hidx := l.nodeIndex_length hsplit
    have hhead := l.head_openNodes hsplit
    cases j with
    | zero =>
      simp only [List.getElem?_cons_zero, Option.some.injEq] at hitem
      subst hitem
      cases first with
      | file name size last_modified extra => simp [recordsFrom, hhead, ListItem.sfile, ListItem.nodeData]
      | dir name last_modified extra => simp [recordsFrom, hhead, ListItem.sfile, ListItem.nodeData]
      | up => simp [ListItem.isEntry] at hentry
    | succ j =>
      have hrest := ih (before ++ [first]) hsplit' j item (by simpa using hitem) hentry
      simp only [FileList.openNodes, openDirs_snoc, List.length_append, List.length_cons, List.length_nil] at hrest
      cases first with
      | file name size last_modified extra =>
        simpa [recordsFrom, List.countP_cons, ListItem.isEntry, FileList.openNodes, Nat.add_assoc, Nat.add_comm,
          Nat.add_left_comm] using hrest
      | dir name last_modified extra =>
        simpa [recordsFrom, List.countP_cons, ListItem.isEntry, FileList.openNodes, hidx, Nat.add_assoc, Nat.add_comm,
          Nat.add_left_comm] using hrest
      | up =>
        have hopen := l.nested before after hsplit
        obtain ⟨d, ds, hds⟩ := List.exists_cons_of_ne_nil hopen
        simpa [recordsFrom, ListItem.isEntry, FileList.openNodes, hds, Nat.add_assoc, Nat.add_comm,
          Nat.add_left_comm] using hrest

theorem recordsFrom_length (items : List ListItem) :
    ∀ line idx stack, (recordsFrom line idx stack items).length = items.countP ListItem.isEntry := by
  induction items with
  | nil => simp [recordsFrom]
  | cons item items ih =>
    intro line idx stack
    cases item <;> simp [recordsFrom, ih, List.countP_cons, ListItem.isEntry]

/-- `readTree` succeeds on a nested list, with one node per item after the root. -/
theorem readTree_records (l : FileList) :
    ∃ nodes, readTree l.text = some nodes ∧
      nodes.map Node.record = ⟨cString rootName, 0, .root, none⟩ :: recordsFrom 0 1 [0] l.items := by
  have hcount := count_items l.items 0 0
  simp only [Nat.zero_add] at hcount
  have hpending : Pending ((l.items.map bufferBytes).sum + 5) 0 [⟨cString rootName, 0, .root, none⟩] l.items
      { phase := .type, name := [], data := [], parents := [0], lastNodes := [0], firstChild := true, idx := 1
        stringbuffer_pos := rootName.length + 1, lines := 0
        nodes := (List.replicate (l.items.countP ListItem.isEntry + 1) Node.empty).set 0
          { Node.empty with name := cString rootName } } := by
    refine ⟨l.nestedFrom l.items [] rfl, ⟨rfl, rfl, rfl, rfl, rfl⟩, ?_, rfl, ?_⟩
    · simp [List.replicate_succ, Node.record, Node.empty]
    · simp only [rootName, List.length_cons, List.length_nil]
      omega
  obtain ⟨st, hrun, hrecords, hpos, hidx⟩ := build_items l.items 0 _ _ hpending
  refine ⟨st.nodes.modify 0 ({ · with nextSibling := none }), ?_, ?_⟩
  · unfold readTree
    rw [countLoop_eq, FileList.text, hcount]
    simp only [Option.bind_eq_bind, Option.bind_some]
    rw [buildLoop_eq, hrun]
    simp [hidx, hpos]
  · rw [map_record_modify, hrecords]
    · rfl
    · exact fun _ => rfl

/-- Every position in a count is the count before some element. -/
theorem exists_of_lt_countP {α : Type} (p : α → Bool) (items : List α) :
    ∀ i, i < items.countP p → ∃ k item, items[k]? = some item ∧ p item = true ∧ i = (items.take k).countP p := by
  induction items with
  | nil => simp
  | cons item items ih =>
    intro i hi
    by_cases hp : p item = true
    · cases i with
      | zero => exact ⟨0, item, rfl, hp, by simp⟩
      | succ i =>
        obtain ⟨k, x, hk, hx, hik⟩ := ih i (by simpa [hp] using hi)
        exact ⟨k + 1, x, by simpa using hk, hx, by simp [hp, hik]⟩
    · obtain ⟨k, x, hk, hx, hik⟩ := ih i (by simpa [hp] using hi)
      exact ⟨k + 1, x, by simpa using hk, hx, by simp [hp, hik]⟩

theorem expectedEntries_getElem (items : List ListItem) :
    ∀ (consumed line k : Nat), (expectedEntries consumed line items)[k]? = items[k]?.map fun item =>
      ⟨consumed + ((items.take (k + 1)).flatMap ListItem.text).length, line + k, item.sfile, item.params⟩ := by
  induction items with
  | nil => simp [expectedEntries]
  | cons item items ih =>
    intro consumed line k
    cases k with
    | zero => simp [expectedEntries]
    | succ k =>
      simp only [expectedEntries, List.getElem?_cons_succ, ih, List.take_succ_cons, List.flatMap_cons,
        List.length_append, Nat.add_assoc, Nat.add_comm 1 k]

theorem cString_name (name : FileName) : (cString name.bytes).bytes = name.bytes := by
  apply List.takeWhile_eq_self_iff.mpr
  intro ch hch
  simp only [bne_iff_ne]
  exact fun heq => name.nul_free (heq ▸ hch)

/-- The two readers of a list agree. However the bytes are cut into buffers,
the walk completes its `k`-th entry with the last byte of the `k`-th item; and
the node that `readTree` numbers `k` carries that item's record below the node
of the directory the item stands in. There are no further nodes. -/
theorem readers_agree (l : FileList) (buffers : List Bytes) (hbuffers : buffers.flatten = l.text) :
    (walk buffers).entries.length = l.items.length ∧
      ∃ nodes, readTree l.text = some nodes ∧
        (∀ i, 0 < i → i < nodes.length →
          ∃ k item, l.items[k]? = some item ∧ item.isEntry = true ∧ i = l.nodeIndex k) ∧
        ∀ k item, l.items[k]? = some item →
          (walk buffers).entries[k]? = some ⟨l.offsetAfter k, k, item.sfile, item.params⟩ ∧
          (item.isEntry = true → ∃ node, nodes[l.nodeIndex k]? = some node ∧ node.id = k ∧
            node.name.bytes = item.sfile.name ∧ node.data = item.nodeData ∧
            node.parent = some (l.parentIndex k)) := by
  have hentries : (walk buffers).entries = expectedEntries 0 0 l.items := by
    rw [walk_eq_foldl, hbuffers, FileList.text, walk_items l.items .start rfl]
    rfl
  have hget := expectedEntries_getElem l.items 0 0
  obtain ⟨nodes, hread, hrecords⟩ := readTree_records l
  refine ⟨?_, nodes, hread, ?_, ?_⟩
  · rw [hentries]
    apply Nat.le_antisymm
    · by_contra hlt
      have := hget l.items.length
      simp at this
      omega
    · by_contra hlt
      have := hget (expectedEntries 0 0 l.items).length
      simp at this
      omega
  · intro i hpos hi
    have hlength := congrArg List.length hrecords
    simp only [List.length_map, List.length_cons, recordsFrom_length] at hlength
    obtain ⟨k, item, hk, hentry, hik⟩ := exists_of_lt_countP ListItem.isEntry l.items (i - 1) (by omega)
    refine ⟨k, item, hk, hentry, ?_⟩
    unfold FileList.nodeIndex
    omega
  · intro k item hk
    refine ⟨?_, fun hentry => ?_⟩
    · rw [hentries, hget, hk]
      simp [FileList.offsetAfter]
    · have hrecord := records_spec l l.items [] rfl k item hk hentry
      have hnode : (nodes.map Node.record)[l.nodeIndex k]? =
          some ⟨cString item.sfile.name, k, item.nodeData, some (l.parentIndex k)⟩ := by
        rw [hrecords, FileList.nodeIndex, List.getElem?_cons_succ]
        simpa [FileList.openNodes, openDirs] using hrecord
      obtain ⟨node, hget', hrec⟩ := by simpa only [List.getElem?_map, Option.map_eq_some_iff] using hnode
      obtain ⟨hname, hid, hdata, hparent⟩ := by simpa only [Node.record, NodeRecord.mk.injEq] using hrec
      refine ⟨node, hget', hid, ?_, hdata, hparent⟩
      rw [hname]
      cases item with
      | file name size last_modified extra => exact cString_name name
      | dir name last_modified extra => exact cString_name name
      | up => simp [ListItem.isEntry] at hentry

theorem nested_of_nestedFrom {items : List ListItem} {line : Nat} (stack : List Nat)
    (h : NestedFrom stack.length items) :
    ∀ before after, items = before ++ .up :: after → (before.foldl openStep (line, stack)).2 ≠ [] := by
  induction items generalizing line stack with
  | nil => simp
  | cons item items ih =>
    intro before after hsplit
    cases before with
    | nil =>
      obtain ⟨rfl, rfl⟩ := List.cons.inj hsplit
      exact List.ne_nil_of_length_pos h.1
    | cons first before =>
      obtain ⟨rfl, hrest⟩ := List.cons.inj hsplit
      rw [List.foldl_cons]
      cases item with
      | file name size last_modified extra => exact ih stack h before after hrest
      | dir name last_modified extra => exact ih (line :: stack) h before after hrest
      | up => exact ih stack.tail (by simpa using h.2) before after hrest

/-- A directory whose name needs escaping, with a parameter, and a file in it. -/
def sampleList : FileList where
  items := [
    .dir ⟨[34, 92, 10], by decide, by decide⟩ 7
      (some ⟨[⟨[107], [38, 32], by decide, by decide, by decide⟩], by decide⟩),
    .file ⟨[97], by decide, by decide⟩ 5 6 none, .up]
  nested := nested_of_nestedFrom [] ⟨Nat.one_pos, trivial⟩

theorem readers_agree_sample :
    [sampleList.text.take 5, sampleList.text.drop 5].flatten = sampleList.text ∧
      (walk [sampleList.text.take 5, sampleList.text.drop 5]).entries.length = 3 :=
  ⟨by simp, (readers_agree sampleList [sampleList.text.take 5, sampleList.text.drop 5] (by simp)).1⟩

end urbackup.filelist
