import UrBackup.FileList.Agree
import UrBackup.UserView.IdenticalRoots

namespace urbackup.userview

open stringtools filelist filepaths

section Walk

variable {b : Backup} {ids : List Int64} {items : List ListItem} {roots : List Nat} {n : Nat}

/-- The walk is in a directory that is shown as one, or it skips what is below the
directory `d`, which is linked or not shown. -/
inductive Place (b : Backup) (ids : List Int64) (items : List ListItem) (roots : List Nat) (n : Nat) (w : ViewWalk) : Prop where
  | walking (hskip : w.skip = 0) (hpath : w.curr_path = dirPath b items n)
      (hopen : ∀ d ∈ ancestors b items n, Permitted b ids items d ∧ ∀ e ∈ w.view, e.id = d → e.kind ≠ .dir_link)
  | skipping (inner outer : List OpenDir) (d : OpenDir) (hstack : opened b.md5 (items.take n) = inner ++ d :: outer)
      (hskip : w.skip = inner.length + 1) (hpath : w.curr_path = d.path)
      (hinner : ∀ c ∈ inner, ∀ e ∈ w.view, e.id ≠ c.line)
      (houter : ∀ c ∈ outer, Permitted b ids items c.line ∧ ∀ e ∈ w.view, e.id = c.line → e.kind ≠ .dir_link)
      (hd : (¬ Permitted b ids items d.line ∧ ∀ e ∈ w.view, e.id ≠ d.line) ∨
        (Permitted b ids items d.line ∧ d.line ∈ roots ∧ ∃ e ∈ w.view, e.id = d.line ∧ e.kind = .dir_link))

structure Viewed (b : Backup) (ids : List Int64) (items : List ListItem) (roots : List Nat) (n : Nat) (w : ViewWalk) : Prop where
  id : w.id = n
  entries : ∀ e ∈ w.view, e.id < n ∧ ∃ item, items[e.id]? = some item ∧
    e.path = dirPath b items e.id ++ slash :: fixFilename b.md5 item.sfile.name
  shown : ∀ k < n, Shown b items w.view k ↔ Visible b ids items k
  place : Place b ids items roots n w

theorem viewed_start (b : Backup) (ids : List Int64) (items : List ListItem) (roots : List Nat) :
    Viewed b ids items roots 0 ViewWalk.start where
  id := rfl
  entries _ he := nomatch he
  shown _ hk := absurd hk (Nat.not_lt_zero _)
  place := .walking rfl rfl fun _ hd => nomatch hd

/-- What is added for line `n` does not change what is shown of earlier lines. -/
theorem shown_append {view : List ViewEntry} {e : ViewEntry} {k : Nat} (hn : e.id = n) (hk : k < n)
    (hlines : ∀ d ∈ ancestors b items k, d < k) : Shown b items (view ++ [e]) k ↔ Shown b items view k := by
  have hself : e.id ≠ k := by omega
  have hancestor : e.id ∉ ancestors b items k := by
    intro hmem
    have hlt := hlines _ hmem
    omega
  unfold Shown
  constructor
  · rintro (⟨x, hx, hxk⟩ | ⟨hitem, x, hx, hkind, hin⟩)
    · rcases List.mem_append.mp hx with hx | hx
      · exact Or.inl ⟨x, hx, hxk⟩
      · rw [List.mem_singleton.mp hx] at hxk
        exact absurd hxk hself
    · rcases List.mem_append.mp hx with hx | hx
      · exact Or.inr ⟨hitem, x, hx, hkind, hin⟩
      · rw [List.mem_singleton.mp hx] at hin
        exact absurd hin hancestor
  · rintro (⟨x, hx, hxk⟩ | ⟨hitem, x, hx, hkind, hin⟩)
    · exact Or.inl ⟨x, List.mem_append_left _ hx, hxk⟩
    · exact Or.inr ⟨hitem, x, List.mem_append_left _ hx, hkind, hin⟩

theorem ancestors_lt (hplain : Plain b items) {k : Nat} (hk : k ≤ items.length) : ∀ d ∈ ancestors b items k, d < k := by
  intro d hd
  obtain ⟨x, hx, rfl⟩ := List.mem_map.mp hd
  exact (atLine b hplain hk).lines x hx

/-- The directories that are open around an open directory are in the stack below it. -/
theorem Stacked.ancestors_mem {inner outer : List OpenDir} {d c : OpenDir} (h : Stacked b items (inner ++ d :: outer))
    (hc : c ∈ inner) : d.line ∈ ancestors b items c.line ∧ IsItem items c.line := by
  induction inner with
  | nil => cases hc
  | cons x inner ih =>
    obtain ⟨hancestors, hitem, -, -, hrest⟩ := h
    rcases List.mem_cons.mp hc with rfl | hc
    · refine ⟨?_, hitem⟩
      rw [hancestors]
      exact List.mem_map_of_mem (List.mem_append_right _ List.mem_cons_self)
    · exact ih hrest hc

variable {w : ViewWalk}

/-- The end of a directory is no item. -/
theorem shown_up (hitem : items[n]? = some .up) (h : ∀ e ∈ w.view, e.id < n) :
    Shown b items w.view n ↔ Visible b ids items n := by
  have hup : ¬ IsItem items n := by
    rintro ⟨item, hget, hentry⟩
    rw [hitem] at hget
    obtain rfl := Option.some.inj hget
    cases hentry
  constructor
  · rintro (⟨e, he, hen⟩ | ⟨hk, -⟩)
    · exact absurd hen (Nat.ne_of_lt (h e he))
    · exact absurd hk hup
  · exact fun hvisible => absurd hvisible.1 hup

/-- Nothing is created at line `n`. -/
theorem Viewed.next (h : Viewed b ids items roots n w) {w' : ViewWalk} (hid : w'.id = w.id + 1) (hview : w'.view = w.view)
    (hshown : Shown b items w.view n ↔ Visible b ids items n) (hplace : Place b ids items roots (n + 1) w') :
    Viewed b ids items roots (n + 1) w' where
  id := by rw [hid, h.id]
  entries e he := by
    rw [hview] at he
    obtain ⟨hlt, hpath⟩ := h.entries e he
    exact ⟨Nat.lt_succ_of_lt hlt, hpath⟩
  shown k hk := by
    rw [hview]
    rcases Nat.lt_succ_iff_lt_or_eq.mp hk with hk | rfl
    · exact h.shown k hk
    · exact hshown
  place := hplace

/-- An entry is created at line `n`, whose directories are all shown. -/
theorem Viewed.create (h : Viewed b ids items roots n w) (hplain : Plain b items) {item : ListItem}
    (hitem : items[n]? = some item) (hentry : item.isEntry = true) (hpermitted : Permitted b ids items n)
    (hopen : ∀ d ∈ ancestors b items n, Permitted b ids items d) (kind : ViewKind) {w' : ViewWalk} (hid : w'.id = w.id + 1)
    (hview : w'.view = w.view ++ [⟨n, kind, dirPath b items n ++ slash :: fixFilename b.md5 item.sfile.name⟩])
    (hplace : Place b ids items roots (n + 1) w') : Viewed b ids items roots (n + 1) w' where
  id := by rw [hid, h.id]
  entries e he := by
    rw [hview] at he
    rcases List.mem_append.mp he with he | he
    · obtain ⟨hlt, hpath⟩ := h.entries e he
      exact ⟨Nat.lt_succ_of_lt hlt, hpath⟩
    · rw [List.mem_singleton.mp he]
      exact ⟨Nat.lt_succ_self n, item, hitem, rfl⟩
  shown k hk := by
    rw [hview]
    have hlen : n < items.length := (List.getElem?_eq_some_iff.mp hitem).1
    rcases Nat.lt_succ_iff_lt_or_eq.mp hk with hk | rfl
    · have hlines := ancestors_lt hplain (Nat.le_of_lt (Nat.lt_trans hk hlen))
      rw [shown_append rfl hk hlines]
      exact h.shown k hk
    · constructor
      · exact fun _ => ⟨⟨item, hitem, hentry⟩, hpermitted, hopen⟩
      · exact fun _ => Or.inl ⟨_, List.mem_append_right _ List.mem_cons_self, rfl⟩
  place := hplace

/-- The entry of line `n` is none of an open directory. -/
theorem noLink_append {view : List ViewEntry} {e : ViewEntry} {d : Nat} (h : ∀ x ∈ view, x.id = d → x.kind ≠ .dir_link)
    (hd : d < e.id) : ∀ x ∈ view ++ [e], x.id = d → x.kind ≠ .dir_link := by
  intro x hx hxd
  rcases List.mem_append.mp hx with hx | hx
  · exact h x hx hxd
  · rw [List.mem_singleton.mp hx] at hxd
    omega

section Walking

variable (h : Viewed b ids items roots n w) (hplain : Plain b items)

include h hplain

section Skipping

variable (hroots : RootsSound b ids items roots) {inner outer : List OpenDir} {d : OpenDir}
  (hstack : opened b.md5 (items.take n) = inner ++ d :: outer) (hinner : ∀ c ∈ inner, ∀ e ∈ w.view, e.id ≠ c.line)
  (houter : ∀ c ∈ outer, Permitted b ids items c.line ∧ ∀ e ∈ w.view, e.id = c.line → e.kind ≠ .dir_link)
  (hd : (¬ Permitted b ids items d.line ∧ ∀ e ∈ w.view, e.id ≠ d.line) ∨
    (Permitted b ids items d.line ∧ d.line ∈ roots ∧ ∃ e ∈ w.view, e.id = d.line ∧ e.kind = .dir_link))

include hroots hstack hinner houter hd

/-- An item below a directory that is linked or not shown. -/
theorem skipped_shown (hn : n ≤ items.length) : Shown b items w.view n ↔ Visible b ids items n := by
  have hin : d.line ∈ ancestors b items n := by
    unfold ancestors
    rw [hstack]
    exact List.mem_map_of_mem (List.mem_append_right _ List.mem_cons_self)
  have hnot : ¬ ∃ e ∈ w.view, e.id = n := by
    rintro ⟨e, he, hen⟩
    have hlt := (h.entries e he).1
    omega
  rcases hd with ⟨hdenied, hnone⟩ | ⟨hpermitted, hroot, e, he, hed, hkind⟩
  · refine ⟨?_, fun hvisible => absurd (hvisible.2.2 d.line hin) hdenied⟩
    rintro (hself | ⟨-, e, he, hkind, hline⟩)
    · exact absurd hself hnot
    · obtain ⟨c, hc, hce⟩ := List.mem_map.mp hline
      rw [hstack] at hc
      rcases List.mem_append.mp hc with hc | hc
      · exact absurd hce.symm (hinner c hc e he)
      · rcases List.mem_cons.mp hc with rfl | hc
        · exact absurd hce.symm (hnone e he)
        · exact absurd hkind ((houter c hc).2 e he hce.symm)
  · have hcount := (permitted_iff d.line).mp hpermitted
    -- the ids of all items below the directory
    have hbelow : ∀ k, IsItem items k → d.line ∈ ancestors b items k → Permitted b ids items k := by
      intro k hk hdk
      rw [permitted_iff, hroots d.line hroot k hk hdk]
      exact hcount
    constructor
    · intro hshown
      have hitem : IsItem items n := by
        rcases hshown with hself | ⟨hitem, -⟩
        · exact absurd hself hnot
        · exact hitem
      refine ⟨hitem, hbelow n hitem hin, ?_⟩
      intro k hk
      obtain ⟨c, hc, rfl⟩ := List.mem_map.mp hk
      have hstacked := (atLine b hplain hn).stacked
      rw [hstack] at hc hstacked
      rcases List.mem_append.mp hc with hc | hc
      · obtain ⟨hdc, hitem'⟩ := hstacked.ancestors_mem hc
        exact hbelow c.line hitem' hdc
      · rcases List.mem_cons.mp hc with rfl | hc
        · exact hpermitted
        · exact (houter c hc).1
    · intro hvisible
      refine Or.inr ⟨hvisible.1, e, he, hkind, ?_⟩
      rw [hed]
      exact hin

theorem Viewed.skip {item : ListItem} (hitem : items[n]? = some item) (hskip : w.skip = inner.length + 1)
    (hpath : w.curr_path = d.path) :
    Viewed b ids items roots (n + 1) (w.skipItem item) := by
  have hn : n ≤ items.length := Nat.le_of_lt (List.getElem?_eq_some_iff.mp hitem).1
  have hshown := skipped_shown h hplain hroots hstack hinner houter hd hn
  cases item with
  | file name size last_modified extra =>
    refine h.next rfl rfl hshown (.skipping inner outer d ?_ hskip hpath hinner houter hd)
    rw [opened_file b hitem, hstack]
  | dir name last_modified extra =>
    refine h.next rfl rfl hshown
      (.skipping (⟨n, dirPath b items n ++ slash :: fixFilename b.md5 name.bytes⟩ :: inner) outer d ?_ ?_ hpath ?_ houter hd)
    · rw [opened_dir b hitem, hstack]
      rfl
    · change w.skip + 1 = _
      rw [hskip, List.length_cons]
    · intro c hc e he
      rcases List.mem_cons.mp hc with rfl | hc
      · exact Nat.ne_of_lt (h.entries e he).1
      · exact hinner c hc e he
  | up =>
    refine h.next rfl rfl hshown ?_
    cases inner with
    | nil =>
      have htop := topPath_tail b (atLine b hplain hn).stacked
      have hopen : opened b.md5 (items.take (n + 1)) = outer := by
        rw [opened_up b hitem, hstack]
        rfl
      rw [hstack] at htop
      refine .walking ?_ ?_ ?_
      · change w.skip - 1 = 0
        rw [hskip]
        rfl
      · change (if w.skip - 1 = 0 then ExtractFilePath w.curr_path slash else w.curr_path) = dirPath b items (n + 1)
        rw [hskip, if_pos (by simp), hpath, dirPath, hopen]
        exact htop
      · intro k hk
        unfold ancestors at hk
        rw [hopen] at hk
        obtain ⟨c, hc, rfl⟩ := List.mem_map.mp hk
        exact houter c hc
    | cons c inner =>
      refine .skipping inner outer d ?_ ?_ ?_ (fun x hx => hinner x (List.mem_cons_of_mem _ hx)) houter hd
      · rw [opened_up b hitem, hstack]
        rfl
      · change w.skip - 1 = _
        rw [hskip, List.length_cons]
        rfl
      · change (if w.skip - 1 = 0 then ExtractFilePath w.curr_path slash else w.curr_path) = d.path
        rw [hskip, List.length_cons, if_neg (by simp)]
        exact hpath

end Skipping

section Open

variable (hopen : ∀ d ∈ ancestors b items n, Permitted b ids items d ∧ ∀ e ∈ w.view, e.id = d → e.kind ≠ .dir_link)

include hopen

theorem Viewed.walk_up (hitem : items[n]? = some .up) (hskip : w.skip = 0) (hpath : w.curr_path = dirPath b items n) :
    Viewed b ids items roots (n + 1) { w with curr_path := ExtractFilePath w.curr_path slash, id := w.id + 1 } := by
  have hn : n ≤ items.length := Nat.le_of_lt (List.getElem?_eq_some_iff.mp hitem).1
  refine h.next rfl rfl (shown_up hitem fun e he => (h.entries e he).1) (.walking hskip ?_ ?_)
  · dsimp only
    rw [hpath, dirPath, dirPath, topPath_tail b (atLine b hplain hn).stacked, opened_up b hitem]
  · intro d hd
    apply hopen
    unfold ancestors at hd ⊢
    rw [opened_up b hitem] at hd
    rw [List.map_tail] at hd
    exact List.mem_of_mem_tail hd

omit hplain in
/-- A line that is not permitted is not shown. -/
theorem shown_denied (hdenied : ¬ Permitted b ids items n) : Shown b items w.view n ↔ Visible b ids items n := by
  constructor
  · rintro (⟨e, he, hen⟩ | ⟨-, e, he, hkind, hin⟩)
    · exact absurd hen (Nat.ne_of_lt (h.entries e he).1)
    · exact absurd hkind ((hopen _ hin).2 e he rfl)
  · exact fun hvisible => absurd hvisible.2.1 hdenied

theorem Viewed.walk_file {name : FileName} {size last_modified : BitVec 64} {extra : Option ExtraParams}
    (hitem : items[n]? = some (.file name size last_modified extra)) (hskip : w.skip = 0)
    (hpath : w.curr_path = dirPath b items n) :
    Viewed b ids items roots (n + 1) (w.addFile b ids (.file name size last_modified extra)) := by
  have hsame : ancestors b items (n + 1) = ancestors b items n := by
    unfold ancestors
    rw [opened_file b hitem]
  have hpath' : w.curr_path = dirPath b items (n + 1) := by
    rw [hpath, dirPath, dirPath, opened_file b hitem]
  have hlt := ancestors_lt hplain (Nat.le_of_lt (List.getElem?_eq_some_iff.mp hitem).1)
  have hpermissions : b.file_permissions (b.metadata_fn w.curr_path (.file name size last_modified extra) false) =
      permissionsOf b items n := by
    rw [hpath, permissionsOf_file hplain hitem]
  unfold ViewWalk.addFile
  rw [hpermissions]
  dsimp only
  split
  · next hpermitted =>
    refine h.create hplain hitem rfl hpermitted (fun d hd => (hopen d hd).1) .file_link rfl ?_ (.walking hskip hpath' ?_)
    · dsimp only
      rw [h.id, hpath]
    · intro d hd
      rw [hsame] at hd
      refine ⟨(hopen d hd).1, noLink_append (hopen d hd).2 ?_⟩
      rw [h.id]
      exact hlt d hd
  · next hdenied =>
    refine h.next rfl rfl (shown_denied h hopen hdenied) (.walking hskip hpath' ?_)
    rw [hsame]
    exact hopen

theorem Viewed.walk_dir {name : FileName} {last_modified : BitVec 64} {extra : Option ExtraParams}
    (hitem : items[n]? = some (.dir name last_modified extra)) (hpath : w.curr_path = dirPath b items n) :
    Viewed b ids items roots (n + 1) (w.enterDir b ids roots (.dir name last_modified extra)) := by
  have hopened := opened_dir b hitem
  have hlt := ancestors_lt hplain (Nat.le_of_lt (List.getElem?_eq_some_iff.mp hitem).1)
  have hpermissions : b.file_permissions (b.metadata_fn w.curr_path (.dir name last_modified extra) true) =
      permissionsOf b items n := by
    rw [hpath, permissionsOf_dir hitem]
  have houter : ∀ c ∈ opened b.md5 (items.take n), c.line ∈ ancestors b items n := fun c hc => List.mem_map_of_mem hc
  unfold ViewWalk.enterDir
  rw [hpermissions]
  dsimp only
  rw [h.id, hpath]
  split
  · next hpermitted =>
    split
    · next hroot =>
      refine h.create hplain hitem rfl hpermitted (fun d hd => (hopen d hd).1) .dir_link (congrArg (· + 1) h.id.symm) rfl
        (.skipping [] (opened b.md5 (items.take n)) _ hopened rfl rfl (fun _ hc => nomatch hc) ?_ (Or.inr ⟨hpermitted, hroot, ?_⟩))
      · intro c hc
        exact ⟨(hopen _ (houter c hc)).1, noLink_append (hopen _ (houter c hc)).2 (hlt _ (houter c hc))⟩
      · exact ⟨_, List.mem_append_right _ List.mem_cons_self, rfl, rfl⟩
    · refine h.create hplain hitem rfl hpermitted (fun d hd => (hopen d hd).1) .dir (congrArg (· + 1) h.id.symm) rfl
        (.walking rfl ?_ ?_)
      · dsimp only
        unfold dirPath
        rw [hopened]
        rfl
      · intro d hd
        unfold ancestors at hd
        rw [hopened, List.map_cons] at hd
        rcases List.mem_cons.mp hd with rfl | hd
        · refine ⟨hpermitted, ?_⟩
          intro e he hen
          rcases List.mem_append.mp he with he | he
          · exact absurd hen (Nat.ne_of_lt (h.entries e he).1)
          · rw [List.mem_singleton.mp he]
            exact fun hkind => nomatch hkind
        · exact ⟨(hopen d hd).1, noLink_append (hopen d hd).2 (hlt d hd)⟩
  · next hdenied =>
    refine h.next (congrArg (· + 1) h.id.symm) rfl (shown_denied h hopen hdenied)
      (.skipping [] (opened b.md5 (items.take n)) _ hopened rfl rfl (fun _ hc => nomatch hc)
        (fun c hc => hopen _ (houter c hc)) (Or.inl ⟨hdenied, ?_⟩))
    exact fun e he => Nat.ne_of_lt (h.entries e he).1

end Open

theorem Viewed.step (hroots : RootsSound b ids items roots) {item : ListItem} (hitem : items[n]? = some item) :
    Viewed b ids items roots (n + 1) (w.step b ids roots item) := by
  unfold ViewWalk.step
  rcases h.place with ⟨hskip, hpath, hopen⟩ | ⟨inner, outer, d, hstack, hskip, hpath, hinner, houter, hd⟩
  · rw [if_neg (by omega)]
    cases item with
    | file name size last_modified extra =>
      have htreated : b.treatedAsDir w.curr_path (.file name size last_modified extra) = false := by
        rw [hpath]
        exact (hplain n _ hitem).2
      dsimp only
      rw [htreated, if_neg Bool.false_ne_true]
      exact h.walk_file hplain hopen hitem hskip hpath
    | dir name last_modified extra => exact h.walk_dir hplain hopen hitem hpath
    | up => exact h.walk_up hplain hopen hitem hskip hpath
  · rw [if_pos (by omega)]
    exact h.skip hplain hroots hstack hinner houter hd hitem hskip hpath

end Walking

theorem viewed (hroots : RootsSound b ids items roots) (hplain : Plain b items) (hn : n ≤ items.length) :
    Viewed b ids items roots n ((items.take n).foldl (ViewWalk.step b ids roots) ViewWalk.start) := by
  induction n with
  | zero => exact viewed_start b ids items roots
  | succ n ih =>
    obtain ⟨item, hitem⟩ : ∃ item, items[n]? = some item := ⟨_, List.getElem?_eq_getElem hn⟩
    rw [take_next hitem, List.foldl_append, List.foldl_cons, List.foldl_nil]
    exact (ih (Nat.le_of_succ_le hn)).step hplain hroots hitem

end Walk

section Exact

variable {b : Backup} {ids : List Int64} {items : List ListItem} {roots : List Nat}

/-- The view shows the items for which one of the ids has permission, as it has for the
directories around them, and each at its path. -/
structure ShowsPermitted (b : Backup) (ids : List Int64) (items : List ListItem) (view : List ViewEntry) : Prop where
  shown : ∀ k, Shown b items view k ↔ Visible b ids items k
  paths : ∀ e ∈ view, ∃ item, items[e.id]? = some item ∧
    e.path = dirPath b items e.id ++ slash :: fixFilename b.md5 item.sfile.name

theorem createUserView_shows (hroots : RootsSound b ids items roots) (hplain : Plain b items) :
    ShowsPermitted b ids items (createUserView b ids roots items) := by
  have hviewed : Viewed b ids items roots items.length _ := viewed hroots hplain (Nat.le_refl items.length)
  rw [List.take_length] at hviewed
  refine ⟨?_, fun e he => (hviewed.entries e he).2⟩
  intro k
  rcases Nat.lt_or_ge k items.length with hk | hk
  · exact hviewed.shown k hk
  · have hnone : ¬ IsItem items k := by
      rintro ⟨item, hget, -⟩
      rw [List.getElem?_eq_none hk] at hget
      cases hget
    constructor
    · rintro (⟨e, he, hek⟩ | ⟨hitem, -⟩)
      · have hlt := (hviewed.entries e he).1
        omega
      · exact absurd hitem hnone
    · exact fun hvisible => absurd hvisible.1 hnone

/-- The view of a user shows what is permitted, as it does without the roots of
identical permissions. -/
theorem createUserView_permitted (b : Backup) (ids : List Int64) (l : FileList) (hplain : Plain b l.items) :
    ShowsPermitted b ids l.items (createUserView b ids (findIdenticalPermissionRoots b ids l.items) l.items) ∧
      ShowsPermitted b ids l.items (createUserView b ids [] l.items) :=
  ⟨createUserView_shows (findIdenticalPermissionRoots_sound hplain) hplain,
    createUserView_shows (fun _ hr => nomatch hr) hplain⟩

/-- Everyone has permission for the scripts `t` and `s`, whose metadata are in these
files. -/
def examplePermissions (fn : Bytes) : Bytes :=
  if fn ∈ [scriptsPath ++ slash :: metadata_dir_fn, scriptsPath ++ [slash, 116, slash] ++ metadata_dir_fn,
    scriptsPath ++ [slash, 116], scriptsPath ++ [slash, 115]] then [0, 0] else []

def exampleBackup (directory_exists : Bytes → Bool) : Backup :=
  ⟨exampleMD5, examplePermissions, directory_exists⟩

def exampleScripts : FileList where
  items := [.dir ⟨scriptsName, by decide, by decide⟩ 0 none, .file ⟨[116], by decide, by decide⟩ 0 0 none,
    .file ⟨[115], by decide, by decide⟩ 0 0 none, .up]
  nested := nested_of_nestedFrom [] ⟨Nat.one_pos, trivial⟩

/-- Without a directory for `t` both scripts are shown. -/
theorem createUserView_permitted_scripts : Shown (exampleBackup fun _ => false) exampleScripts.items
    (createUserView (exampleBackup fun _ => false) [1000]
      (findIdenticalPermissionRoots (exampleBackup fun _ => false) [1000] exampleScripts.items) exampleScripts.items) 2 := by
  have hplain : Plain (exampleBackup fun _ => false) exampleScripts.items := by
    intro k item hitem
    have hmem := List.mem_of_getElem? hitem
    simp only [exampleScripts, List.mem_cons, List.not_mem_nil, or_false] at hmem
    rcases hmem with rfl | rfl | rfl | rfl
    · exact ⟨fun _ => by decide, rfl⟩
    · exact ⟨fun _ => by decide, Bool.and_false _⟩
    · exact ⟨fun _ => by decide, Bool.and_false _⟩
    · exact ⟨fun _ => by decide, rfl⟩
  refine ((createUserView_permitted (exampleBackup fun _ => false) [1000] exampleScripts hplain).1.shown 2).mpr ?_
  refine ⟨⟨_, rfl, rfl⟩, ?_, ?_⟩
  · unfold Permitted
    decide +kernel
  · unfold Permitted
    decide +kernel

/-- With one, `s` is looked for in it. -/
theorem not_createUserView_permitted : ¬ ∀ (b : Backup) (ids : List Int64) (l : FileList),
    ShowsPermitted b ids l.items (createUserView b ids (findIdenticalPermissionRoots b ids l.items) l.items) := by
  intro h
  have hshows := h (exampleBackup fun path => path = scriptsPath ++ [slash, 116]) [1000] exampleScripts
  have hvisible : Visible (exampleBackup fun path => path = scriptsPath ++ [slash, 116]) [1000] exampleScripts.items 2 := by
    refine ⟨⟨_, rfl, rfl⟩, ?_, ?_⟩
    · unfold Permitted
      decide +kernel
    · unfold Permitted
      decide +kernel
  have hview : ∀ e ∈ createUserView (exampleBackup fun path => path = scriptsPath ++ [slash, 116]) [1000]
      (findIdenticalPermissionRoots (exampleBackup fun path => path = scriptsPath ++ [slash, 116]) [1000] exampleScripts.items)
      exampleScripts.items, e.id ≠ 2 ∧ e.kind ≠ .dir_link := by
    decide +kernel
  rcases (hshows.shown 2).mpr hvisible with ⟨e, he, hid⟩ | ⟨-, e, he, hkind, -⟩
  · exact (hview e he).1 hid
  · exact (hview e he).2 hkind

end Exact

end urbackup.userview
