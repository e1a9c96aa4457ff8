import UrBackup.IncrBackup.IncrFileBackup

namespace urbackup.incrbackup

open stringtools treediff filelist filepaths

/-- The directories that an entry is or lies inside, by lines. -/
def dirsAt (items : List ListItem) (k : Nat) : List Nat :=
  match items[k]? with
  | some (.dir _ _ _) => k :: openDirs (items.take k)
  | _ => openDirs (items.take k)

section HasChange

/-- On a sorted vector the search finds what is in it. -/
theorem hasChange_iff {diffs : List Nat} (hsorted : diffs.Pairwise (· ≤ ·)) (line : Nat) :
    hasChange line diffs = true ↔ line ∈ diffs := by
  unfold hasChange
  induction diffs with
  | nil => simp
  | cons d diffs ih =>
    obtain ⟨hle, hrest⟩ := List.pairwise_cons.mp hsorted
    by_cases hd : d < line
    · rw [List.dropWhile_cons_of_pos (by simpa using hd), ih hrest, List.mem_cons]
      exact ⟨Or.inr, fun h => h.resolve_left (by omega)⟩
    · rw [List.dropWhile_cons_of_neg (by simpa using hd)]
      simp only [Bool.not_eq_true', decide_eq_false_iff_not, List.mem_cons]
      constructor
      · intro hnot
        exact Or.inl (by omega)
      · rintro (rfl | hmem)
        · omega
        · have := hle line hmem
          omega

end HasChange

/-- What the results of the tree comparison have to do with the list: no `..` line is
reported, and nothing below a directory that may be skipped. -/
structure Reports (items : List ListItem) (r : DiffResult) : Prop where
  diffs_sorted : r.diffs.Pairwise (· ≤ ·)
  large_sorted : (r.large_unchanged_subtrees.getD []).Pairwise (· ≤ ·)
  entry : ∀ k ∈ r.diffs, ∃ item, items[k]? = some item ∧ item.isEntry = true
  outside : ∀ k ∈ r.diffs, ∀ d ∈ openDirs (items.take k), d ∉ r.large_unchanged_subtrees.getD []

theorem treeDiffs_reports (cfg : BackupSettings) (diff : DiffConfig) (last : TreeNode) (l : FileList) :
    Reports l.items (treeDiffs cfg diff last l.root) := by
  have hlines : ∀ a ∈ flatten l.root.children, ∀ b ∈ flatten l.root.children, a.getId = b.getId → a.ptr = b.ptr := by
    intro a ha b hb hid
    obtain ⟨_, hpatha⟩ := exists_pathTo ha
    obtain ⟨_, hpathb⟩ := exists_pathTo hb
    obtain ⟨_, _, _, hptra, _⟩ := l.path_root hpatha
    obtain ⟨_, _, _, hptrb, _⟩ := l.path_root hpathb
    rw [hptra, hptrb, hid]
  have hreported : ∀ k ∈ (treeDiffs cfg diff last l.root).diffs, ∃ above c, PathTo l.root.children above c ∧ c.getId = k ∧
      ∀ ids, (treeDiffs cfg diff last l.root).large_unchanged_subtrees = some ids → ∀ a ∈ above, a.getId ∉ ids := by
    intro k hk
    refine diffTrees_reported l.addresses_root hlines (fun ids hids => ?_) rfl hk
    cases hlinks : cfg.use_directory_links <;> simp_all
  refine ⟨sortIds_sorted _, ?_, fun k hk => ?_, fun k hk d hd hlarge => ?_⟩
  · cases hlarge : (treeDiffs cfg diff last l.root).large_unchanged_subtrees with
    | none => exact List.Pairwise.nil
    | some ids =>
      obtain ⟨start, _, rfl⟩ := Option.map_eq_some_iff.mp hlarge
      exact sortIds_sorted _
  · obtain ⟨above, c, hpath, rfl, _⟩ := hreported k hk
    obtain ⟨item, hitem, hentry, _⟩ := l.path_root hpath
    exact ⟨item, hitem, hentry⟩
  · obtain ⟨above, c, hpath, rfl, hnot⟩ := hreported k hk
    obtain ⟨_, _, _, _, _, _, hopen⟩ := l.path_root hpath
    rw [← hopen] at hd
    obtain ⟨a, ha, rfl⟩ := List.mem_map.mp hd
    cases hids : (treeDiffs cfg diff last l.root).large_unchanged_subtrees with
    | none => simp [hids] at hlarge
    | some ids =>
      rw [hids, Option.getD_some] at hlarge
      exact hnot ids hids a ha hlarge

/-- The state of the walk before a line at which the directories `dirs` are open. -/
structure Aligned (r : DiffResult) (dirs : List Nat) (s : WalkState) : Prop where
  ids : s.dir_ids = dirs
  depth : s.depth = s.dir_diff_stack.length
  diffs : s.dir_diff_stack.length + (s.skip_dir_completely - 1) = dirs.length
  items : s.folder_items.length = s.dir_diff_stack.length + 1
  change : s.indirchange = true ↔ ∃ d ∈ dirs, d ∈ r.diffs
  level : s.indirchange = true → ∃ inner d outer, dirs = inner ++ d :: outer ∧ d ∈ r.diffs ∧ (∀ e ∈ outer, e ∉ r.diffs) ∧
    s.changelevel = outer.length
  skipped : 0 < s.skip_dir_completely → ∃ inner d outer, dirs = inner ++ d :: outer ∧
    inner.length + 1 = s.skip_dir_completely ∧ d ∈ r.large_unchanged_subtrees.getD [] ∧ ∀ e ∈ inner, e ∉ r.diffs

section Steps

variable {cfg : BackupSettings} {r : DiffResult} {calls : Calls} {dirs : List Nat} {s s' : WalkState}

theorem start_aligned (r : DiffResult) : Aligned r [] .start where
  ids := rfl
  depth := rfl
  diffs := rfl
  items := rfl
  change := by simp [WalkState.start]
  level := by simp [WalkState.start]
  skipped := by simp [WalkState.start]

/-- What only the walk's other variables tell apart. -/
structure SameShape (s s' : WalkState) : Prop where
  line : s'.line = s.line
  ids : s'.dir_ids = s.dir_ids
  depth : s'.depth = s.depth
  diffs : s'.dir_diff_stack = s.dir_diff_stack
  items : s'.folder_items.length = s.folder_items.length
  indirchange : s'.indirchange = s.indirchange
  changelevel : s'.changelevel = s.changelevel
  skip : s'.skip_dir_completely = s.skip_dir_completely

theorem SameShape.refl (s : WalkState) : SameShape s s :=
  ⟨rfl, rfl, rfl, rfl, rfl, rfl, rfl, rfl⟩

theorem SameShape.aligned (h : SameShape s s') (ha : Aligned r dirs s) : Aligned r dirs s' where
  ids := h.ids.trans ha.ids
  depth := by rw [h.depth, h.diffs, ha.depth]
  diffs := by rw [h.diffs, h.skip, ha.diffs]
  items := by rw [h.items, h.diffs, ha.items]
  change := by rw [h.indirchange, ha.change]
  level := by
    rw [h.indirchange, h.changelevel]
    exact ha.level
  skipped := by
    rw [h.skip]
    exact ha.skipped

theorem loadFile_shape (s : WalkState) : SameShape s (s.loadFile cfg) :=
  ⟨rfl, rfl, rfl, rfl, by simp [WalkState.loadFile, WalkState.countItem], rfl, rfl, rfl⟩

theorem loadMetadata_shape (s : WalkState) : SameShape s (s.loadMetadata cfg) := by
  unfold WalkState.loadMetadata
  split
  · exact ⟨rfl, rfl, rfl, rfl, by simp [WalkState.countItem], rfl, rfl, rfl⟩
  · exact .refl s

/-- A file changes no stack but the counters in it. -/
theorem addFile_cases (s : WalkState) (extra_params : StrMap) :
    s.addFile cfg r calls extra_params = .error .c_has_error ∨
      ∃ s', s.addFile cfg r calls extra_params = .ok s' ∧ SameShape s s' := by
  unfold WalkState.addFile
  simp only
  split_ifs
  · exact Or.inr ⟨_, rfl, loadMetadata_shape s⟩
  · exact Or.inl rfl
  · exact Or.inr ⟨_, rfl, loadMetadata_shape s⟩
  · exact Or.inr ⟨_, rfl, loadFile_shape s⟩
  · exact Or.inr ⟨_, rfl, .refl s⟩
  · exact Or.inr ⟨_, rfl, loadMetadata_shape s⟩
  · exact Or.inr ⟨_, rfl, loadFile_shape s⟩
  · exact Or.inr ⟨_, rfl, .refl s⟩

/-- The entry is a directory that is reported. -/
theorem markChange_dir (hr : r.diffs.Pairwise (· ≤ ·)) (ha : Aligned r dirs s) (hskip : s.skip_dir_completely = 0)
    {cf : SFile} (hdir : cf.isdir = true) (hname : cf.name ≠ upName) :
    ((s.markChange r cf).indirchange = true ↔ ∃ d ∈ s.line :: dirs, d ∈ r.diffs) ∧
      ((s.markChange r cf).indirchange = true → ∃ inner d outer, s.line :: dirs = inner ++ d :: outer ∧ d ∈ r.diffs ∧
        (∀ e ∈ outer, e ∉ r.diffs) ∧ (s.markChange r cf).changelevel = outer.length) := by
  have hdepth : s.depth = dirs.length := by
    have := ha.depth
    have := ha.diffs
    omega
  unfold WalkState.markChange
  split
  next hnew =>
    obtain ⟨_, hno, hchange⟩ := hnew
    have hline := (hasChange_iff hr s.line).mp hchange
    refine ⟨by simpa using Or.inl hline, fun _ => ⟨[], s.line, dirs, rfl, hline, fun e he hmem => ?_, ?_⟩⟩
    · have := ha.change.mpr ⟨e, he, hmem⟩
      simp [hno] at this
    · simpa [hname] using hdepth
  next hold =>
    cases hin : s.indirchange with
    | true =>
      obtain ⟨d, hd, hmem⟩ := ha.change.mp hin
      obtain ⟨inner, d', outer, heq, hd', houter, hlevel⟩ := ha.level hin
      refine ⟨by simpa using Or.inr ⟨d, hd, hmem⟩, fun _ => ⟨s.line :: inner, d', outer, by rw [heq]; rfl, hd', houter, hlevel⟩⟩
    | false =>
      have hline : s.line ∉ r.diffs := by
        intro hmem
        exact hold ⟨hdir, hin, (hasChange_iff hr s.line).mpr hmem⟩
      have hnone : ¬ ∃ d ∈ dirs, d ∈ r.diffs := by
        rw [← ha.change, hin]
        simp
      refine ⟨?_, by simp⟩
      simp only [Bool.false_eq_true, List.mem_cons, exists_eq_or_imp, hline, false_or, hnone]

theorem markChange_other {cf : SFile} (h : cf.isdir = false ∨ hasChange s.line r.diffs = false) : s.markChange r cf = s := by
  refine if_neg ?_
  rintro ⟨hdir, _, hchange⟩
  obtain h | h := h
  · simp [hdir] at h
  · simp [hchange] at h

/-- The fields that a mark leaves alone. -/
theorem markChange_same (cf : SFile) :
    (s.markChange r cf).line = s.line ∧ (s.markChange r cf).dir_ids = s.dir_ids ∧ (s.markChange r cf).depth = s.depth ∧
      (s.markChange r cf).dir_diff_stack = s.dir_diff_stack ∧ (s.markChange r cf).folder_items = s.folder_items ∧
      (s.markChange r cf).skip_dir_completely = s.skip_dir_completely := by
  unfold WalkState.markChange
  split <;> exact ⟨rfl, rfl, rfl, rfl, rfl, rfl⟩

theorem makeDir_cases (s : WalkState) (dir_diff : Bool) :
    s.makeDir cfg r calls dir_diff = .error .c_has_error ∨
      ∃ dir_linked : Bool, s.makeDir cfg r calls dir_diff =
          .ok { s with skip_dir_completely := if dir_linked then 1 else s.skip_dir_completely } ∧
        (dir_linked = true → hasChange s.line (r.large_unchanged_subtrees.getD []) = true) := by
  unfold WalkState.makeDir
  simp only
  split
  · exact Or.inl rfl
  · split
    · exact Or.inl rfl
    · refine Or.inr ⟨_, rfl, fun h => ?_⟩
      simp only [Bool.and_eq_true] at h
      exact h.1.1.2

/-- A directory is opened, and skipped if it is linked. -/
theorem openDir_cases (hreports : r.diffs.Pairwise (· ≤ ·)) (hlarge : (r.large_unchanged_subtrees.getD []).Pairwise (· ≤ ·))
    (ha : Aligned r dirs s) (hskip : s.skip_dir_completely = 0) {cf : SFile} (hdir : cf.isdir = true) (hname : cf.name ≠ upName) :
    (s.markChange r cf).openDir cfg r calls cf = .error .c_has_error ∨
      ∃ s', (s.markChange r cf).openDir cfg r calls cf = .ok s' ∧ s'.line = s.line ∧ Aligned r (s.line :: dirs) s' := by
  obtain ⟨hline, hids, hdepth, hdiffs, hitems, hskip'⟩ := @markChange_same r s cf
  obtain ⟨hchange, hlevel⟩ := markChange_dir hreports ha hskip hdir hname
  generalize s.markChange r cf = m at hline hids hdepth hdiffs hitems hskip' hchange hlevel
  unfold WalkState.openDir
  simp only
  generalize hdiff : (!m.indirchange && hasChange m.line r.dir_diffs) = dir_diff
  have hcount : SameShape m (if m.indirchange || dir_diff then m.countItem else m) := by
    split
    · exact ⟨rfl, rfl, rfl, rfl, by simp [WalkState.countItem], rfl, rfl, rfl⟩
    · exact .refl m
  generalize (if m.indirchange || dir_diff then m.countItem else m) = c at hcount
  obtain hfailed | ⟨dir_linked, hmade, hlinked⟩ := @makeDir_cases cfg r calls
    { c with dir_diff_stack := dir_diff :: m.dir_diff_stack, curr_path := m.curr_path ++ slash :: cf.name } dir_diff
  · rw [hfailed]
    exact Or.inl rfl
  · rw [hmade]
    refine Or.inr ⟨_, rfl, hcount.line.trans hline, ?_⟩
    have hlen := ha.diffs
    rw [hskip] at hlen
    have hzero : c.skip_dir_completely = 0 := by rw [hcount.skip, hskip', hskip]
    refine ⟨?_, ?_, ?_, ?_, ?_, ?_, ?_⟩
    · simp only [hcount.line, hline, hcount.ids, hids, ha.ids]
    · simp only [hcount.depth, hdepth, ha.depth, hdiffs, List.length_cons]
      rfl
    · simp only [hdiffs, List.length_cons, hzero]
      split <;> omega
    · simp only [List.length_cons, hcount.items, hitems, hdiffs, ha.items]
    · simpa only [hcount.indirchange] using hchange
    · simpa only [hcount.indirchange, hcount.changelevel] using hlevel
    · intro hpos
      cases dir_linked with
      | false => simp [hzero] at hpos
      | true =>
        have hmem := (hasChange_iff hlarge _).mp (hlinked rfl)
        refine ⟨[], s.line, dirs, rfl, by simp, ?_, by simp⟩
        simpa only [hcount.line, hline] using hmem

/-- The innermost directory is closed. -/
theorem closeDir_aligned {d : Nat} (ha : Aligned r (d :: dirs) s) (hskip : s.skip_dir_completely = 0) :
    ∃ s', s.closeDir cfg = .ok s' ∧ s'.line = s.line ∧ Aligned r dirs s' := by
  have hlen := ha.diffs
  have hitems := ha.items
  rw [hskip, List.length_cons] at hlen
  obtain ⟨dir_diff, dir_diff_stack, hstack⟩ := List.exists_cons_of_length_pos (show 0 < s.dir_diff_stack.length by omega)
  obtain ⟨items, folder_items, hfolders⟩ := List.exists_cons_of_length_pos (show 0 < s.folder_items.length by omega)
  have hids := ha.ids
  unfold WalkState.closeDir
  rw [hstack, hfolders, hids]
  refine ⟨_, rfl, rfl, ?_⟩
  rw [hstack, List.length_cons] at hlen hitems
  rw [hfolders, List.length_cons] at hitems
  have hdepth : s.depth - 1 = dirs.length := by
    have := ha.depth
    rw [hstack, List.length_cons] at this
    omega
  -- Whether the closed directory is the one at which the change began.
  have hclosed : s.indirchange = true → (s.depth - 1 = s.changelevel ∧ ∀ e ∈ dirs, e ∉ r.diffs) ∨
      (s.depth - 1 ≠ s.changelevel ∧ ∃ inner d' outer, dirs = inner ++ d' :: outer ∧ d' ∈ r.diffs ∧
        (∀ e ∈ outer, e ∉ r.diffs) ∧ s.changelevel = outer.length) := by
    intro hin
    obtain ⟨inner, d', outer, heq, hd', houter, hlevel⟩ := ha.level hin
    cases inner with
    | nil =>
      obtain ⟨rfl, rfl⟩ := List.cons.inj heq
      exact Or.inl ⟨by omega, houter⟩
    | cons i inner =>
      have hrest : dirs = inner ++ d' :: outer := (List.cons.inj heq).2
      refine Or.inr ⟨?_, inner, d', outer, hrest, hd', houter, hlevel⟩
      rw [hrest, List.length_append, List.length_cons] at hdepth
      omega
  refine ⟨rfl, ?_, ?_, ?_, ?_, ?_, ?_⟩
  · change s.depth - 1 = dir_diff_stack.length
    omega
  · change dir_diff_stack.length + (s.skip_dir_completely - 1) = dirs.length
    omega
  · change folder_items.length = dir_diff_stack.length + 1
    omega
  · cases hin : s.indirchange with
    | false =>
      have hnone : ¬ ∃ e ∈ d :: dirs, e ∈ r.diffs := by
        rw [← ha.change, hin]
        simp
      simp only [Bool.false_and, Bool.false_eq_true, false_iff]
      rintro ⟨e, he, hmem⟩
      exact hnone ⟨e, List.mem_cons_of_mem _ he, hmem⟩
    | true =>
      obtain ⟨hend, hnone⟩ | ⟨hend, inner, d', outer, rfl, hd', _⟩ := hclosed hin
      · simp only [hend, decide_true, Bool.not_true, Bool.and_false, Bool.false_eq_true, false_iff]
        rintro ⟨e, he, hmem⟩
        exact hnone e he hmem
      · simp only [hend, decide_false, Bool.not_false, Bool.and_true, true_iff]
        exact ⟨d', by simp, hd'⟩
  · intro hstill
    simp only [Bool.and_eq_true, Bool.not_eq_true', decide_eq_false_iff_not] at hstill
    obtain ⟨hend, _⟩ | ⟨_, hrest⟩ := hclosed hstill.1
    · exact absurd hend hstill.2
    · exact hrest
  · intro hpos
    simp [hskip] at hpos

/-- A directory below one that is skipped. -/
theorem Aligned.skipOpen (ha : Aligned r dirs s) (hskip : 0 < s.skip_dir_completely) {k : Nat} (hk : k ∉ r.diffs) {curr_path : Bytes} :
    Aligned r (k :: dirs)
      { s with skip_dir_completely := s.skip_dir_completely + 1, curr_path := curr_path, dir_ids := k :: s.dir_ids } where
  ids := by simp only [ha.ids]
  depth := ha.depth
  diffs := by
    have := ha.diffs
    simp only [List.length_cons]
    omega
  items := ha.items
  change := by simp only [ha.change, List.mem_cons, exists_eq_or_imp, hk, false_or]
  level hin := by
    obtain ⟨inner, d, outer, heq, hd, houter, hlevel⟩ := ha.level hin
    exact ⟨k :: inner, d, outer, by rw [heq]; rfl, hd, houter, hlevel⟩
  skipped _ := by
    obtain ⟨inner, d, outer, heq, hlen, hd, hinner⟩ := ha.skipped hskip
    refine ⟨k :: inner, d, outer, by rw [heq]; rfl, by simpa using hlen, hd, ?_⟩
    exact List.forall_mem_cons.mpr ⟨hk, hinner⟩

theorem Aligned.skipClose {d : Nat} (ha : Aligned r (d :: dirs) s) (hskip : 1 < s.skip_dir_completely) {curr_path : Bytes} :
    Aligned r dirs { s with skip_dir_completely := s.skip_dir_completely - 1, curr_path := curr_path, dir_ids := dirs } := by
  obtain ⟨inner, e, outer, heq, hlen, he, hinner⟩ := ha.skipped (by omega)
  cases inner with
  | nil =>
    simp only [List.length_nil] at hlen
    omega
  | cons i inner =>
    obtain ⟨rfl, hrest⟩ := List.cons.inj heq
    obtain ⟨hd, hinner⟩ := List.forall_mem_cons.mp hinner
    refine ⟨rfl, ha.depth, ?_, ha.items, ?_, fun hin => ?_, fun _ => ⟨inner, e, outer, hrest, ?_, he, hinner⟩⟩
    · have := ha.diffs
      rw [List.length_cons] at this
      change s.dir_diff_stack.length + (s.skip_dir_completely - 1 - 1) = _
      omega
    · rw [ha.change]
      simp only [List.mem_cons, exists_eq_or_imp, hd, false_or]
    · obtain ⟨inner', d', outer', heq', hd', houter, hlevel⟩ := ha.level hin
      cases inner' with
      | nil =>
        obtain ⟨rfl, _⟩ := List.cons.inj heq'
        exact absurd hd' hd
      | cons i' inner' => exact ⟨inner', d', outer', (List.cons.inj heq').2, hd', houter, hlevel⟩
    · rw [List.length_cons] at hlen
      change inner.length + 1 = s.skip_dir_completely - 1
      omega

/-- The skipped directory itself is closed as any other one. -/
theorem Aligned.skipEnd (ha : Aligned r dirs s) (hskip : s.skip_dir_completely = 1) :
    Aligned r dirs { s with skip_dir_completely := 0 } where
  ids := ha.ids
  depth := ha.depth
  diffs := by
    have := ha.diffs
    rw [hskip] at this
    simpa using this
  items := ha.items
  change := ha.change
  level := ha.level
  skipped hpos := by simp at hpos

end Steps

section Walk

variable {cfg : BackupSettings} {r : DiffResult} {calls : Calls} {items : List ListItem} {s : WalkState}

/-- What an entry comes to that is handled so. -/
theorem step_of_atEntry {e : WalkEntry} {s1 : WalkState} (hentry : s.atEntry r e.data = .ok s1)
    {handled : Except Stop WalkState}
    (hhandled : (if 0 < s1.skip_dir_completely then .ok s1
      else if e.data.isdir = false then s1.addFile cfg r calls e.extra
      else if e.data.name = upName then s1.closeDir cfg
      else s1.openDir cfg r calls e.data) = handled) :
    s.step cfg r calls e = handled.map fun s => { s with line := s.line + 1 } := by
  rw [WalkState.step, hentry, ← hhandled]
  rfl

/-- What the step for a line does with an aligned state. -/
structure StepsOn (cfg : BackupSettings) (r : DiffResult) (calls : Calls) (items : List ListItem) (k : Nat) (e : WalkEntry)
    (s : WalkState) : Prop where
  entry : ∃ s1, s.atEntry r e.data = .ok s1 ∧ (s1.indirchange = true ↔ ∃ d ∈ dirsAt items k, d ∈ r.diffs)
  next : s.step cfg r calls e = .error .c_has_error ∨
    ∃ s', s.step cfg r calls e = .ok s' ∧ s'.line = k + 1 ∧ Aligned r (openDirs (items.take (k + 1))) s'

theorem step_aligned (hreports : Reports items r) {k : Nat} {item : ListItem} (hitem : items[k]? = some item)
    (hopen : item = .up → openDirs (items.take k) ≠ []) (hline : s.line = k) (ha : Aligned r (openDirs (items.take k)) s)
    {e : WalkEntry} (hdata : e.data = item.sfile) : StepsOn cfg r calls items k e s := by
  have hk : k < items.length := (List.getElem?_eq_some_iff.mp hitem).1
  have hlen : (items.take k).length = k := by simp; omega
  have hsnoc := openDirs_snoc (items.take k) item
  have htake : items.take k ++ [item] = items.take (k + 1) := by
    rw [List.take_add_one, hitem]
    rfl
  rw [htake, hlen] at hsnoc
  have hmoved : ∀ {dirs : List Nat} {s' : WalkState}, Aligned r dirs s' → Aligned r dirs { s' with line := s'.line + 1 } :=
    fun ha => ⟨ha.ids, ha.depth, ha.diffs, ha.items, ha.change, ha.level, ha.skipped⟩
  cases item with
  | file name size last_modified extra =>
    have hisdir : e.data.isdir = false := by rw [hdata]; rfl
    have hentry : s.atEntry r e.data = .ok s := by
      rw [WalkState.atEntry, WalkState.skipEntry, if_pos (Or.inr hisdir)]
      simp only [Except.map, markChange_other (Or.inl hisdir), ite_self]
    have hdirs : dirsAt items k = openDirs (items.take k) := by rw [dirsAt, hitem]
    refine ⟨⟨s, hentry, by rw [hdirs, ha.change]⟩, ?_⟩
    rw [step_of_atEntry hentry rfl, hsnoc]
    by_cases hskip : 0 < s.skip_dir_completely
    · rw [if_pos hskip]
      exact Or.inr ⟨_, rfl, by simp [hline], hmoved ha⟩
    · rw [if_neg hskip, if_pos hisdir]
      obtain hfailed | ⟨s', hok, hshape⟩ := @addFile_cases cfg r calls s e.extra
      · exact Or.inl (by rw [hfailed]; rfl)
      · rw [hok]
        exact Or.inr ⟨_, rfl, by simp [hshape.line, hline], hmoved (hshape.aligned ha)⟩
  | dir name last_modified extra =>
    have hisdir : e.data.isdir = true := by rw [hdata]; rfl
    have hname : e.data.name ≠ upName := by
      rw [hdata]
      exact name.not_up
    have hdirs : dirsAt items k = s.line :: openDirs (items.take k) := by rw [dirsAt, hitem, hline]
    have hnext : openDirs (items.take (k + 1)) = s.line :: openDirs (items.take k) := by rw [hsnoc, hline]
    by_cases hskip : 0 < s.skip_dir_completely
    · obtain ⟨inner, d, outer, heq, _, hlarge, _⟩ := ha.skipped hskip
      have hnot : s.line ∉ r.diffs := by
        intro hmem
        rw [hline] at hmem
        exact hreports.outside k hmem d (by rw [heq]; simp) hlarge
      have haligned := @Aligned.skipOpen _ _ _ ha hskip s.line hnot (s.curr_path ++ slash :: e.data.name)
      have hentry : s.atEntry r e.data = .ok { s with
          skip_dir_completely := s.skip_dir_completely + 1
          curr_path := s.curr_path ++ slash :: e.data.name
          dir_ids := s.line :: s.dir_ids } := by
        rw [WalkState.atEntry, WalkState.skipEntry, if_neg (by simp [hisdir]; omega), if_neg hname]
        rfl
      refine ⟨⟨_, hentry, by rw [hdirs]; exact haligned.change⟩, Or.inr ?_⟩
      rw [step_of_atEntry hentry (if_pos (Nat.succ_pos _)), hnext]
      exact ⟨_, rfl, by simp [hline], hmoved haligned⟩
    · have hzero : s.skip_dir_completely = 0 := by omega
      have hentry : s.atEntry r e.data = .ok (s.markChange r e.data) := by
        rw [WalkState.atEntry, WalkState.skipEntry, if_pos (Or.inl hzero)]
        simp only [Except.map, if_neg hskip]
      have hskip' : ¬ 0 < (s.markChange r e.data).skip_dir_completely := by
        rw [(@markChange_same r s e.data).2.2.2.2.2]
        exact hskip
      refine ⟨⟨_, hentry, ?_⟩, ?_⟩
      · rw [hdirs]
        exact (markChange_dir hreports.diffs_sorted ha hzero hisdir hname).1
      · rw [step_of_atEntry hentry rfl, if_neg hskip', if_neg (by simp [hisdir]), if_neg hname, hnext]
        obtain hfailed | ⟨s', hok, hline', haligned⟩ :=
          @openDir_cases cfg r calls _ _ hreports.diffs_sorted hreports.large_sorted ha hzero _ hisdir hname
        · exact Or.inl (by rw [hfailed]; rfl)
        · rw [hok]
          exact Or.inr ⟨_, rfl, by simp [hline', hline], hmoved haligned⟩
  | up =>
    have hisdir : e.data.isdir = true := by rw [hdata]; rfl
    have hname : e.data.name = upName := by rw [hdata]; rfl
    have hdirs : dirsAt items k = openDirs (items.take k) := by rw [dirsAt, hitem]
    obtain ⟨d, dirs, heq⟩ := List.exists_cons_of_ne_nil (hopen rfl)
    rw [heq] at ha hsnoc
    have hnot : hasChange s.line r.diffs = false := by
      rw [Bool.eq_false_iff, ne_eq, hasChange_iff hreports.diffs_sorted, hline]
      intro hmem
      obtain ⟨item, hitem', hentry⟩ := hreports.entry k hmem
      obtain rfl := Option.some.inj (hitem.symm.trans hitem')
      simp [ListItem.isEntry] at hentry
    -- The directory is closed, be it the skipped one or not.
    have hclose : ∀ s1 : WalkState, s.skipEntry e.data = .ok s1 → s1.skip_dir_completely = 0 → s1.line = s.line →
        Aligned r (d :: dirs) s1 → StepsOn cfg r calls items k e s := by
      intro s1 hskipped hzero hline1 ha1
      have hmark : s1.markChange r e.data = s1 := markChange_other (Or.inr (by rw [hline1]; exact hnot))
      have hentry : s.atEntry r e.data = .ok s1 := by
        rw [WalkState.atEntry, hskipped]
        simp only [Except.map, hzero, Nat.lt_irrefl, if_false, hmark]
      obtain ⟨s', hok, hline', haligned⟩ := @closeDir_aligned cfg _ _ _ _ ha1 hzero
      refine ⟨⟨s1, hentry, by rw [hdirs, heq]; exact ha1.change⟩, Or.inr ?_⟩
      rw [step_of_atEntry hentry rfl, if_neg (by omega), if_neg (by simp [hisdir]), if_pos hname, hok, hsnoc]
      exact ⟨_, rfl, by simp [hline', hline1, hline], hmoved haligned⟩
    by_cases hzero : s.skip_dir_completely = 0
    · exact hclose s (if_pos (Or.inl hzero)) hzero rfl ha
    · by_cases hone : s.skip_dir_completely = 1
      · refine hclose { s with skip_dir_completely := 0 } ?_ rfl rfl (ha.skipEnd hone)
        rw [WalkState.skipEntry, if_neg (by simp [hisdir, hzero]), if_pos hname]
        simp [hone]
      · have hmore : 1 < s.skip_dir_completely := by omega
        have haligned := @Aligned.skipClose _ _ _ _ ha hmore (ExtractFilePath s.curr_path slash)
        have hentry : s.atEntry r e.data = .ok { s with
            skip_dir_completely := s.skip_dir_completely - 1
            curr_path := ExtractFilePath s.curr_path slash
            dir_ids := dirs } := by
          have hpos : 0 < s.skip_dir_completely - 1 := by omega
          rw [WalkState.atEntry, WalkState.skipEntry, if_neg (by simp [hisdir, hzero]), if_pos hname]
          simp only [hpos, if_true, ha.ids, Except.map]
        have hchange : s.indirchange = true ↔ ∃ e ∈ d :: dirs, e ∈ r.diffs := ha.change
        refine ⟨⟨_, hentry, by rw [hdirs, heq]; exact hchange⟩, Or.inr ?_⟩
        rw [step_of_atEntry hentry (if_pos (by simp only; omega)), hsnoc]
        exact ⟨_, rfl, by simp [hline], hmoved haligned⟩

/-- A `..` line closes a directory. -/
theorem nested_at (l : FileList) {k : Nat} {item : ListItem} (hitem : l.items[k]? = some item) (hup : item = .up) :
    openDirs (l.items.take k) ≠ [] := by
  obtain ⟨hk, hget⟩ := List.getElem?_eq_some_iff.mp hitem
  refine l.nested (l.items.take k) (l.items.drop (k + 1)) ?_
  rw [← hup, ← hget, ← List.drop_eq_getElem_cons hk, List.take_append_drop]

/-- The entries that the reader of the list hands to the walk. -/
theorem entries_getElem {l : FileList} {buffers : List Bytes} (hbuffers : buffers.flatten = l.text) {k : Nat} {item : ListItem}
    (hitem : l.items[k]? = some item) : ∃ e, (walk buffers).entries[k]? = some e ∧ e.data = item.sfile := by
  obtain ⟨_, _, _, _, hlines⟩ := readers_agree l buffers hbuffers
  exact ⟨_, (hlines k item hitem).1, rfl⟩

theorem walkEntries_succ {entries : List WalkEntry} {k : Nat} {e : WalkEntry} (he : entries[k]? = some e) :
    walkEntries cfg r calls (entries.take (k + 1)) =
      (walkEntries cfg r calls (entries.take k)).bind fun s => s.step cfg r calls e := by
  rw [walkEntries, walkEntries, List.take_add_one, he, Option.toList_some, List.foldlM_append]
  simp only [List.foldlM_cons, List.foldlM_nil, bind_pure]
  rfl

/-- Before each line the walk is aligned, unless it has ended with an error. -/
theorem walkEntries_aligned {l : FileList} (hreports : Reports l.items r) {buffers : List Bytes}
    (hbuffers : buffers.flatten = l.text) (k : Nat) (hk : k ≤ l.items.length) :
    walkEntries cfg r calls ((walk buffers).entries.take k) = .error .c_has_error ∨
      ∃ s, walkEntries cfg r calls ((walk buffers).entries.take k) = .ok s ∧ s.line = k ∧
        Aligned r (openDirs (l.items.take k)) s := by
  induction k with
  | zero => exact Or.inr ⟨.start, rfl, rfl, start_aligned r⟩
  | succ k ih =>
    have hitem := List.getElem?_eq_getElem (show k < l.items.length from hk)
    obtain ⟨e, he, hdata⟩ := entries_getElem hbuffers hitem
    rw [walkEntries_succ he]
    obtain hfailed | ⟨s, hrun, hline, haligned⟩ := ih (by omega)
    · rw [hfailed]
      exact Or.inl rfl
    · rw [hrun]
      have hopen := nested_at l hitem
      exact (@step_aligned cfg r calls _ _ hreports _ _ hitem hopen hline haligned _ hdata).next

/-- At each line whose entry is reached, `indirchange` tells whether it is or lies inside a
reported directory, and the stacks have an element for each open directory, save those
below a directory that is skipped; the counters have one more, for the list itself. No
element is missed. -/
theorem walk_aligned (cfg : BackupSettings) (diff : DiffConfig) (calls : Calls) (last : TreeNode) (l : FileList)
    {buffers : List Bytes} (hbuffers : buffers.flatten = l.text) {k : Nat} {e : WalkEntry} {s : WalkState}
    (he : (walk buffers).entries[k]? = some e)
    (hrun : walkEntries cfg (treeDiffs cfg diff last l.root) calls ((walk buffers).entries.take k) = .ok s) :
    (∃ s1, s.atEntry (treeDiffs cfg diff last l.root) e.data = .ok s1 ∧
      (s1.indirchange = true ↔ ∃ d ∈ dirsAt l.items k, d ∈ (treeDiffs cfg diff last l.root).diffs)) ∧
    s.dir_ids = openDirs (l.items.take k) ∧
    s.dir_diff_stack.length + (s.skip_dir_completely - 1) = (openDirs (l.items.take k)).length ∧
    s.folder_items.length = s.dir_diff_stack.length + 1 ∧
    s.step cfg (treeDiffs cfg diff last l.root) calls e ≠ .error .empty_stack := by
  have hreports := treeDiffs_reports cfg diff last l
  have hk : k < l.items.length := by
    rw [← (readers_agree l buffers hbuffers).1]
    exact (List.getElem?_eq_some_iff.mp he).1
  have hitem := List.getElem?_eq_getElem hk
  obtain ⟨e', he', hdata⟩ := entries_getElem hbuffers hitem
  obtain rfl := Option.some.inj (he.symm.trans he')
  obtain hfailed | ⟨s', hrun', hline, haligned⟩ := @walkEntries_aligned cfg _ calls _ hreports _ hbuffers k hk.le
  · simp [hrun] at hfailed
  · obtain rfl := Except.ok.inj (hrun.symm.trans hrun')
    obtain ⟨hentry, hnext⟩ := @step_aligned cfg _ calls _ _ hreports _ _ hitem (nested_at l hitem) hline haligned _ hdata
    refine ⟨hentry, haligned.ids, haligned.diffs, haligned.items, fun hempty => ?_⟩
    obtain hfailed | ⟨s', hok, _⟩ := hnext
    · rw [hempty] at hfailed
      simp at hfailed
    · rw [hempty] at hok
      simp at hok

end Walk

section Samples

/-- The files "a" to "j". -/
def letterFile (i : Fin 10) : ListItem :=
  .file ⟨[97 + i.val.toUInt8], by revert i; decide, by revert i; decide⟩ 5 6 none

/-- Ten files below two directories, and one behind them. -/
def largeList : FileList where
  items := .dir ⟨[107], by decide, by decide⟩ 7 none :: .dir ⟨[108], by decide, by decide⟩ 7 none ::
    ((List.finRange 10).map letterFile ++ [.up, .up, letterFile 0])
  nested := nested_of_nestedFrom [] (by simp [NestedFrom, List.finRange_succ, letterFile])

/-- All calls succeed. -/
def linkAll : Calls where
  dir _ := ⟨true, true, true, true⟩
  file _ := ⟨true, true, true, true, true, false⟩

def allSettings : BackupSettings :=
  ⟨true, true, true, true⟩

/-- The numbers of open directories and of elements of the three stacks. -/
def stackSizes (l : FileList) (k : Nat) (r : Except Stop WalkState) : Option (Nat × Nat × Nat × Nat) :=
  match r with
  | .ok s => some ((openDirs (l.items.take k)).length, s.dir_ids.length, s.dir_diff_stack.length, s.folder_items.length)
  | .error _ => none

/-- With the first entry no directory is open, but there is a counter; below the skipped
directory there is one element too few. -/
theorem walk_stackSizes :
    stackSizes largeList 0 (walkEntries allSettings (treeDiffs allSettings ⟨true, true, true⟩ largeList.root largeList.root) linkAll
      ((walk [largeList.text]).entries.take 0)) = some (0, 0, 0, 1) ∧
    stackSizes largeList 2 (walkEntries allSettings (treeDiffs allSettings ⟨true, true, true⟩ largeList.root largeList.root) linkAll
      ((walk [largeList.text]).entries.take 2)) = some (2, 2, 1, 2) := by
  constructor <;> decide +kernel

/-- A line inside the directory that is skipped, and the one behind it. -/
theorem walk_aligned_skipped : [5, 14].Forall fun k => ∃ (e : WalkEntry) (s : WalkState),
    (walk [largeList.text]).entries[k]? = some e ∧
    s.dir_ids = openDirs (largeList.items.take k) ∧
    s.dir_diff_stack.length + (s.skip_dir_completely - 1) = (openDirs (largeList.items.take k)).length ∧
    s.folder_items.length = s.dir_diff_stack.length + 1 := by
  refine List.forall_iff_forall_mem.mpr fun k hk => ?_
  have hlarge : k < largeList.items.length ∧ (walkEntries allSettings (treeDiffs allSettings ⟨true, true, true⟩ largeList.root
      largeList.root) linkAll ((walk [largeList.text]).entries.take k)).isOk = true := by
    revert k
    decide +kernel
  obtain ⟨e, he, _⟩ := @entries_getElem largeList [largeList.text] (by simp) k _ (List.getElem?_eq_getElem hlarge.1)
  cases hrun : walkEntries allSettings (treeDiffs allSettings ⟨true, true, true⟩ largeList.root largeList.root) linkAll
      ((walk [largeList.text]).entries.take k) with
  | error _ =>
    rw [hrun] at hlarge
    cases hlarge.2
  | ok s =>
    obtain ⟨_, hids, hdiffs, hitems, _⟩ := walk_aligned allSettings ⟨true, true, true⟩ linkAll largeList.root largeList
      (by simp : [largeList.text].flatten = largeList.text) he hrun
    exact ⟨e, s, he, hids, hdiffs, hitems⟩

end Samples

end urbackup.incrbackup
