import UrBackup.FilePaths.SamePaths
import UrBackup.UserView.UserView

namespace urbackup.userview

open stringtools filelist filepaths

section Lines

variable (b : Backup) {items : List ListItem} {n : Nat} {item : ListItem}

theorem take_next (h : items[n]? = some item) : items.take (n + 1) = items.take n ++ [item] := by
  rw [List.take_add_one, h]
  rfl

theorem openedStep_line (md5 : HexMD5) (st : Nat × List OpenDir) (item : ListItem) :
    (openedStep md5 st item).1 = st.1 + 1 := by
  cases item with
  | file name size last_modified extra => rfl
  | dir name last_modified extra => rfl
  | up => rfl

theorem opened_line (md5 : HexMD5) (items : List ListItem) (st : Nat × List OpenDir) :
    (items.foldl (openedStep md5) st).1 = st.1 + items.length := by
  induction items generalizing st with
  | nil => rfl
  | cons item items ih =>
    rw [List.foldl_cons, ih, openedStep_line, List.length_cons]
    omega

theorem opened_next (h : items[n]? = some item) :
    opened b.md5 (items.take (n + 1)) = (openedStep b.md5 (n, opened b.md5 (items.take n)) item).2 := by
  have hlen : (items.take n).length = n := by
    rw [List.length_take]
    have hlt := (List.getElem?_eq_some_iff.mp h).1
    omega
  unfold opened
  rw [take_next h, List.foldl_append, List.foldl_cons, List.foldl_nil]
  have hline := opened_line b.md5 (items.take n) (0, [])
  rw [hlen, Nat.zero_add] at hline
  rw [← Prod.eta (List.foldl (openedStep b.md5) (0, []) (items.take n)), hline]

theorem opened_file {name : FileName} {size last_modified : BitVec 64} {extra : Option ExtraParams}
    (h : items[n]? = some (.file name size last_modified extra)) :
    opened b.md5 (items.take (n + 1)) = opened b.md5 (items.take n) :=
  opened_next b h

theorem opened_dir {name : FileName} {last_modified : BitVec 64} {extra : Option ExtraParams}
    (h : items[n]? = some (.dir name last_modified extra)) :
    opened b.md5 (items.take (n + 1)) =
      ⟨n, dirPath b items n ++ slash :: fixFilename b.md5 name.bytes⟩ :: opened b.md5 (items.take n) :=
  opened_next b h

theorem opened_up (h : items[n]? = some .up) :
    opened b.md5 (items.take (n + 1)) = (opened b.md5 (items.take n)).tail :=
  opened_next b h

/-- The open directories, each with those that were open where it stands. -/
def Stacked (b : Backup) (items : List ListItem) : List OpenDir → Prop
  | [] => True
  | d :: ds => ancestors b items d.line = ds.map OpenDir.line ∧ IsItem items d.line ∧ (∀ e ∈ ds, e.line < d.line) ∧
      (∃ name, name ≠ [] ∧ slash ∉ name ∧ d.path = topPath ds ++ slash :: name) ∧ Stacked b items ds

structure AtLine (b : Backup) (items : List ListItem) (n : Nat) : Prop where
  stacked : Stacked b items (opened b.md5 (items.take n))
  lines : ∀ d ∈ opened b.md5 (items.take n), d.line < n

theorem atLine (hplain : Plain b items) (hn : n ≤ items.length) : AtLine b items n := by
  induction n with
  | zero => exact ⟨trivial, fun _ hd => nomatch hd⟩
  | succ n ih =>
    obtain ⟨hstacked, hlines⟩ := ih (Nat.le_of_succ_le hn)
    obtain ⟨item, hitem⟩ : ∃ item, items[n]? = some item := ⟨_, List.getElem?_eq_getElem hn⟩
    cases item with
    | file name size last_modified extra =>
      refine ⟨?_, ?_⟩
      · rw [opened_file b hitem]
        exact hstacked
      · rw [opened_file b hitem]
        exact fun d hd => Nat.lt_succ_of_lt (hlines d hd)
    | dir name last_modified extra =>
      refine ⟨?_, ?_⟩
      · rw [opened_dir b hitem]
        refine ⟨rfl, ⟨_, hitem, rfl⟩, hlines, ⟨fixFilename b.md5 name.bytes, ?_, notMem_fixFilename b.md5 _, rfl⟩, hstacked⟩
        exact fixFilename_ne_nil b.md5 ((hplain n _ hitem).1 rfl)
      · rw [opened_dir b hitem]
        intro d hd
        rcases List.mem_cons.mp hd with rfl | hd
        · exact Nat.lt_succ_self n
        · exact Nat.lt_succ_of_lt (hlines d hd)
    | up =>
      refine ⟨?_, ?_⟩
      · rw [opened_up b hitem]
        cases hopen : opened b.md5 (items.take n) with
        | nil => trivial
        | cons d ds =>
          rw [hopen] at hstacked
          exact hstacked.2.2.2.2
      · rw [opened_up b hitem]
        exact fun d hd => Nat.lt_succ_of_lt (hlines d (List.mem_of_mem_tail hd))

/-- The path of the directory is found again at its end. -/
theorem topPath_tail {ds : List OpenDir} (h : Stacked b items ds) : ExtractFilePath (topPath ds) slash = topPath ds.tail := by
  cases ds with
  | nil => rfl
  | cons d ds =>
    obtain ⟨-, -, -, ⟨name, hne, hslash, hpath⟩, -⟩ := h
    change ExtractFilePath d.path slash = topPath ds
    rw [hpath, ExtractFilePath_join _ hne hslash]

end Lines

section Roots

variable {b : Backup} {ids : List Int64} {items : List ListItem} {n : Nat}

/-- The number of ids that have permission for the item of a line. -/
def countAt (b : Backup) (ids : List Int64) (items : List ListItem) (k : Nat) : Nat :=
  RootSearch.countIds ids (permissionsOf b items k)

theorem permitted_iff (k : Nat) : Permitted b ids items k ↔ 0 < countAt b ids items k := by
  unfold Permitted ViewWalk.anyId countAt RootSearch.countIds
  rw [List.any_eq_true, List.countP_pos_iff]

/-- The counts of an open directory are those of the items in it, without those of the
open directory `above` in it. -/
structure StatOk (b : Backup) (ids : List Int64) (items : List ListItem) (n : Nat) (above : Option OpenDir)
    (s : SDirStatItem) (d : OpenDir) : Prop where
  id : s.id = d.line
  has_perm : s.has_perm = countAt b ids items d.line
  counts : s.identicalcount ≤ s.nodecount
  identical : s.nodecount = s.identicalcount → ∀ k < n, IsItem items k → d.line ∈ ancestors b items k →
    (∀ c ∈ above, k ≠ c.line ∧ c.line ∉ ancestors b items k) → countAt b ids items k = countAt b ids items d.line

def StatsOk (b : Backup) (ids : List Int64) (items : List ListItem) (n : Nat) :
    Option OpenDir → List SDirStatItem → List OpenDir → Prop
  | _, [], [] => True
  | above, s :: ss, d :: ds => StatOk b ids items n above s d ∧ StatsOk b ids items n (some d) ss ds
  | _, _, _ => False

/-- All items in the directory have as many permitted ids as it. -/
structure RootOk (b : Backup) (ids : List Int64) (items : List ListItem) (n r : Nat) : Prop where
  line : r < n
  closed : r ∉ (opened b.md5 (items.take n)).map OpenDir.line
  identical : ∀ k < n, IsItem items k → r ∈ ancestors b items k → countAt b ids items k = countAt b ids items r

structure Searched (b : Backup) (ids : List Int64) (items : List ListItem) (n : Nat) (s : RootSearch) : Prop where
  curr_id : s.curr_id = n
  curr_path : s.curr_path = dirPath b items n
  stats : StatsOk b ids items n none s.dir_permissions (opened b.md5 (items.take n))
  roots : ∀ r ∈ s.identical_permission_roots, RootOk b ids items n r

/-- The directories that stay open. A directory below another one is in it. -/
theorem StatsOk.next {c : OpenDir} {ss : List SDirStatItem} {ds : List OpenDir} (h : StatsOk b ids items n (some c) ss ds)
    (hc : n = c.line ∨ c.line ∈ ancestors b items n) (hds : ∀ d ∈ ds, d.line ∈ ancestors b items n) :
    StatsOk b ids items (n + 1) (some c) ss ds := by
  induction ss generalizing c ds with
  | nil =>
    cases ds with
    | nil => trivial
    | cons d ds => exact h
  | cons s ss ih =>
    cases ds with
    | nil => exact h
    | cons d ds =>
      obtain ⟨hs, hrest⟩ := h
      refine ⟨⟨hs.id, hs.has_perm, hs.counts, ?_⟩, ?_⟩
      · intro hequal k hk hitem hin habove
        rcases Nat.lt_succ_iff_lt_or_eq.mp hk with hk | rfl
        · exact hs.identical hequal k hk hitem hin habove
        · obtain ⟨hne, hnot⟩ := habove c rfl
          rcases hc with hc | hc
          · exact absurd hc hne
          · exact absurd hc hnot
      · exact ih hrest (Or.inr (hds d List.mem_cons_self)) fun e he => hds e (List.mem_cons_of_mem _ he)

/-- A directory is opened in the innermost one. -/
theorem StatsOk.push {c : OpenDir} (hc : c.line = n) {ss : List SDirStatItem} {ds : List OpenDir}
    (h : StatsOk b ids items n none ss ds) (hds : ∀ d ∈ ds, d.line ∈ ancestors b items n) :
    StatsOk b ids items (n + 1) (some c) ss ds := by
  cases ss with
  | nil =>
    cases ds with
    | nil => trivial
    | cons d ds => exact h
  | cons s ss =>
    cases ds with
    | nil => exact h
    | cons d ds =>
      obtain ⟨hs, hrest⟩ := h
      refine ⟨⟨hs.id, hs.has_perm, hs.counts, ?_⟩, ?_⟩
      · intro hequal k hk hitem hin habove
        rcases Nat.lt_succ_iff_lt_or_eq.mp hk with hk | rfl
        · exact hs.identical hequal k hk hitem hin fun _ hnone => nomatch hnone
        · exact absurd hc.symm (habove c rfl).1
      · exact hrest.next (Or.inr (hds d List.mem_cons_self)) fun e he => hds e (List.mem_cons_of_mem _ he)

/-- The innermost directory `c` is closed. -/
theorem StatsOk.pop {c : OpenDir} {last : SDirStatItem} {ss : List SDirStatItem} {ds : List OpenDir}
    (hlast : StatOk b ids items n none last c) (h : StatsOk b ids items n (some c) ss ds) (hup : ¬ IsItem items n)
    (hds : ∀ d ∈ ds, d.line ∈ ancestors b items n) :
    StatsOk b ids items (n + 1) none (RootSearch.addLast last ss) ds := by
  cases ss with
  | nil =>
    cases ds with
    | nil => trivial
    | cons d ds => exact h
  | cons top rest =>
    cases ds with
    | nil => exact h
    | cons d ds =>
      obtain ⟨htop, hrest⟩ := h
      have hcounts := htop.counts
      have hcounts' := hlast.counts
      refine ⟨⟨htop.id, htop.has_perm, ?_, ?_⟩, ?_⟩
      · dsimp only
        split
        · omega
        · omega
      · intro hequal k hk hitem hin _
        dsimp only at hequal
        have hsame : top.nodecount = top.identicalcount ∧ last.nodecount = last.identicalcount ∧
            last.has_perm = top.has_perm := by
          split at hequal
          · next heq => exact ⟨by omega, by omega, heq⟩
          · omega
        have hperm : countAt b ids items c.line = countAt b ids items d.line := by
          rw [← hlast.has_perm, ← htop.has_perm]
          exact hsame.2.2
        rcases Nat.lt_succ_iff_lt_or_eq.mp hk with hk | rfl
        · by_cases hkc : k = c.line
          · rw [hkc]
            exact hperm
          · by_cases hinc : c.line ∈ ancestors b items k
            · rw [hlast.identical hsame.2.1 k hk hitem hinc fun _ hnone => nomatch hnone]
              exact hperm
            · apply htop.identical hsame.1 k hk hitem hin
              intro x hx
              obtain rfl := Option.some.inj hx
              exact ⟨hkc, hinc⟩
        · exact absurd hitem hup
      · exact hrest.next (Or.inr (hds d List.mem_cons_self)) fun e he => hds e (List.mem_cons_of_mem _ he)

theorem RootOk.next {r : Nat} (h : RootOk b ids items n r)
    (hopen : ∀ d ∈ opened b.md5 (items.take (n + 1)), d.line = n ∨ d ∈ opened b.md5 (items.take n)) :
    RootOk b ids items (n + 1) r where
  line := Nat.lt_succ_of_lt h.line
  closed hmem := by
    obtain ⟨d, hd, hr⟩ := List.mem_map.mp hmem
    rcases hopen d hd with hn | hd
    · have hlt := h.line
      omega
    · exact h.closed (hr ▸ List.mem_map_of_mem hd)
  identical k hk hitem hin := by
    rcases Nat.lt_succ_iff_lt_or_eq.mp hk with hk | rfl
    · exact h.identical k hk hitem hin
    · exact absurd hin h.closed

theorem searched_start (b : Backup) (ids : List Int64) (items : List ListItem) : Searched b ids items 0 RootSearch.start where
  curr_id := rfl
  curr_path := rfl
  stats := trivial
  roots _ hr := nomatch hr

theorem permissionsOf_file (hplain : Plain b items) {name : FileName} {size last_modified : BitVec 64}
    {extra : Option ExtraParams} (h : items[n]? = some (.file name size last_modified extra)) :
    permissionsOf b items n =
      b.file_permissions (b.metadata_fn (dirPath b items n) (.file name size last_modified extra) false) := by
  unfold permissionsOf
  rw [h]
  dsimp only
  rw [(hplain n _ h).2]

theorem permissionsOf_dir {name : FileName} {last_modified : BitVec 64} {extra : Option ExtraParams}
    (h : items[n]? = some (.dir name last_modified extra)) :
    permissionsOf b items n = b.file_permissions (b.metadata_fn (dirPath b items n) (.dir name last_modified extra) true) := by
  unfold permissionsOf
  rw [h]

variable {s : RootSearch}

theorem Searched.file (h : Searched b ids items n s) (hplain : Plain b items) {name : FileName}
    {size last_modified : BitVec 64} {extra : Option ExtraParams}
    (hitem : items[n]? = some (.file name size last_modified extra)) :
    Searched b ids items (n + 1) (s.step b ids (.file name size last_modified extra)) := by
  have hcount : RootSearch.countIds ids (b.file_permissions (b.metadata_fn s.curr_path (.file name size last_modified extra) false)) =
      countAt b ids items n := by
    rw [h.curr_path, ← permissionsOf_file hplain hitem]
    rfl
  have hopen := opened_file b hitem
  have htreated : b.treatedAsDir s.curr_path (.file name size last_modified extra) = false := by
    rw [h.curr_path]
    exact (hplain n _ hitem).2
  unfold RootSearch.step
  dsimp only
  rw [htreated, if_neg Bool.false_ne_true]
  unfold RootSearch.addFile
  rw [hcount]
  refine ⟨congrArg (· + 1) h.curr_id, ?_, ?_, ?_⟩
  · dsimp only
    rw [h.curr_path, dirPath, dirPath, hopen]
  · have hstats := h.stats
    have hancestors : ancestors b items n = (opened b.md5 (items.take n)).map OpenDir.line := rfl
    dsimp only
    rw [hopen]
    generalize opened b.md5 (items.take n) = ds at hstats hancestors
    cases hperm : s.dir_permissions with
    | nil =>
      rw [hperm] at hstats
      cases ds with
      | nil => trivial
      | cons d ds => exact hstats
    | cons top rest =>
      rw [hperm] at hstats
      cases ds with
      | nil => exact hstats
      | cons d ds =>
        obtain ⟨htop, hrest⟩ := hstats
        have hd : d.line ∈ ancestors b items n := by
          rw [hancestors]
          exact List.mem_cons_self
        refine ⟨⟨htop.id, htop.has_perm, ?_, ?_⟩, ?_⟩
        · have hcounts := htop.counts
          dsimp only
          split
          · omega
          · omega
        · intro hequal k hk hk' hin _
          dsimp only at hequal
          have hcounts := htop.counts
          have hsame : top.nodecount = top.identicalcount ∧ countAt b ids items n = top.has_perm := by
            split at hequal
            · next heq => exact ⟨by omega, heq⟩
            · omega
          rcases Nat.lt_succ_iff_lt_or_eq.mp hk with hk | rfl
          · exact htop.identical hsame.1 k hk hk' hin fun c hc => nomatch hc
          · rw [hsame.2, htop.has_perm]
        · apply hrest.next (Or.inr hd)
          intro e he
          rw [hancestors]
          exact List.mem_map_of_mem (List.mem_cons_of_mem _ he)
  · intro r hr
    apply (h.roots r hr).next
    rw [hopen]
    exact fun d hd => Or.inr hd

theorem Searched.dir (h : Searched b ids items n s) (hplain : Plain b items) {name : FileName} {last_modified : BitVec 64}
    {extra : Option ExtraParams} (hitem : items[n]? = some (.dir name last_modified extra)) :
    Searched b ids items (n + 1) (s.step b ids (.dir name last_modified extra)) := by
  have hcount : RootSearch.countIds ids (b.file_permissions (b.metadata_fn s.curr_path (.dir name last_modified extra) true)) =
      countAt b ids items n := by
    rw [h.curr_path, ← permissionsOf_dir hitem]
    rfl
  have hopen := opened_dir b hitem
  unfold RootSearch.step RootSearch.enterDir
  dsimp only
  rw [hcount]
  refine ⟨congrArg (· + 1) h.curr_id, ?_, ?_, ?_⟩
  · dsimp only
    rw [h.curr_path]
    change _ = topPath (opened b.md5 (items.take (n + 1)))
    rw [hopen]
    rfl
  · rw [hopen]
    refine ⟨⟨h.curr_id, rfl, Nat.le_refl _, ?_⟩, ?_⟩
    · -- nothing stands in the new directory yet
      intro _ k hk hk' hin _
      obtain ⟨d, hd, hdn⟩ := List.mem_map.mp hin
      obtain ⟨x, hx, -⟩ := hk'
      have hlen : k ≤ items.length := Nat.le_of_lt (List.getElem?_eq_some_iff.mp hx).1
      have hlt := (atLine b hplain hlen).lines d hd
      change d.line = n at hdn
      omega
    · apply StatsOk.push
      · rfl
      · exact h.stats
      · exact fun d hd => List.mem_map_of_mem hd
  · intro r hr
    apply (h.roots r hr).next
    rw [hopen]
    intro d hd
    rcases List.mem_cons.mp hd with rfl | hd
    · exact Or.inl rfl
    · exact Or.inr hd

theorem Searched.up (h : Searched b ids items n s) (hline : AtLine b items n) (hitem : items[n]? = some .up) :
    Searched b ids items (n + 1) (s.step b ids .up) := by
  have hopen := opened_up b hitem
  have hup : ¬ IsItem items n := by
    rintro ⟨item, hget, hentry⟩
    rw [hitem] at hget
    obtain rfl := Option.some.inj hget
    cases hentry
  have hpath : ExtractFilePath s.curr_path slash = dirPath b items (n + 1) := by
    rw [h.curr_path, dirPath, dirPath, topPath_tail b hline.stacked, hopen]
  have hstay : ∀ d ∈ opened b.md5 (items.take (n + 1)), d.line = n ∨ d ∈ opened b.md5 (items.take n) := by
    intro d hd
    rw [hopen] at hd
    exact Or.inr (List.mem_of_mem_tail hd)
  have hstats := h.stats
  have hstacked := hline.stacked
  change Searched b ids items (n + 1) s.leaveDir
  unfold RootSearch.leaveDir
  cases hperm : s.dir_permissions with
  | nil =>
    rw [hperm] at hstats
    refine ⟨congrArg (· + 1) h.curr_id, hpath, ?_, fun r hr => (h.roots r hr).next hstay⟩
    dsimp only
    rw [hopen]
    cases hds : opened b.md5 (items.take n) with
    | nil => trivial
    | cons d ds =>
      rw [hds] at hstats
      exact hstats.elim
  | cons last rest =>
    rw [hperm] at hstats
    cases hds : opened b.md5 (items.take n) with
    | nil =>
      rw [hds] at hstats
      exact hstats.elim
    | cons d ds =>
      have hin : ∀ e ∈ ds, e.line ∈ ancestors b items n := by
        intro e he
        unfold ancestors
        rw [hds]
        exact List.mem_map_of_mem (List.mem_cons_of_mem _ he)
      rw [hds] at hstats hstacked
      obtain ⟨hlast, hrest⟩ := hstats
      refine ⟨congrArg (· + 1) h.curr_id, hpath, ?_, ?_⟩
      · rw [hopen, hds]
        exact StatsOk.pop hlast hrest hup hin
      · intro r hr
        dsimp only at hr
        have hold : r ∈ s.identical_permission_roots → RootOk b ids items (n + 1) r := fun hr => (h.roots r hr).next hstay
        split at hr
        · next hequal =>
          rcases List.mem_append.mp hr with hr | hr
          · exact hold hr
          · obtain rfl := List.mem_singleton.mp hr
            have hdn := hline.lines d (by rw [hds]; exact List.mem_cons_self)
            rw [hlast.id]
            refine ⟨Nat.lt_succ_of_lt hdn, ?_, ?_⟩
            · rw [hopen, hds, List.tail_cons]
              intro hmem
              obtain ⟨e, he, hed⟩ := List.mem_map.mp hmem
              exact absurd hed (Nat.ne_of_lt (hstacked.2.2.1 e he))
            · intro k hk hk' hin'
              rcases Nat.lt_succ_iff_lt_or_eq.mp hk with hk | rfl
              · exact hlast.identical hequal k hk hk' hin' fun _ hnone => nomatch hnone
              · exact absurd hk' hup
        · exact hold hr

theorem searched (hplain : Plain b items) (hn : n ≤ items.length) :
    Searched b ids items n ((items.take n).foldl (RootSearch.step b ids) RootSearch.start) := by
  induction n with
  | zero => exact searched_start b ids items
  | succ n ih =>
    have hsearched := ih (Nat.le_of_succ_le hn)
    obtain ⟨item, hitem⟩ : ∃ item, items[n]? = some item := ⟨_, List.getElem?_eq_getElem hn⟩
    rw [take_next hitem, List.foldl_append, List.foldl_cons, List.foldl_nil]
    cases item with
    | file name size last_modified extra => exact hsearched.file hplain hitem
    | dir name last_modified extra => exact hsearched.dir hplain hitem
    | up => exact hsearched.up (atLine b hplain (Nat.le_of_succ_le hn)) hitem

/-- The items of a directory in the list have as many permitted ids as it. -/
def RootsSound (b : Backup) (ids : List Int64) (items : List ListItem) (roots : List Nat) : Prop :=
  ∀ r ∈ roots, ∀ k, IsItem items k → r ∈ ancestors b items k → countAt b ids items k = countAt b ids items r

theorem findIdenticalPermissionRoots_sound (hplain : Plain b items) :
    RootsSound b ids items (findIdenticalPermissionRoots b ids items) := by
  have hsearched : Searched b ids items items.length _ := searched hplain (Nat.le_refl items.length)
  rw [List.take_length] at hsearched
  intro r hr k hk hin
  obtain ⟨item, hget, -⟩ := id hk
  exact (hsearched.roots r hr).identical k (List.getElem?_eq_some_iff.mp hget).1 hk hin

end Roots

end urbackup.userview
