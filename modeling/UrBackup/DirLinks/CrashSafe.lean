import UrBackup.DirLinks.LinkDirectoryPool
import UrBackup.DirTree.Tree

namespace urbackup.dirlinks

open stringtools dirtree interruptible interruptible.Prog

section Replay

variable {os : Os} {fs : FS}

theorem replay_nil : (replay_directory_link_journal os fs []).2 = fs := rfl

theorem replay_one (je : JournalEntry) : (replay_directory_link_journal os fs [je]).2 = (replayEntry os fs je).2 := rfl

/-- A directory that is still in its old place stays there. -/
theorem replayEntry_kept {je : JournalEntry}
    (hdir : ∀ i n, fs.place maxsymlinks je.linkname = some (i, n) → ∃ j, fs.entries i n = some (.dir j)) :
    (replayEntry os fs je).2 = fs := by
  have hunlink : fs.unlink maxsymlinks je.linkname = none := by
    rw [Tree.unlink]
    split
    · rfl
    · next i n hplace =>
      obtain ⟨j, hj⟩ := hdir i n hplace
      rw [hj]
  have hsymlink : fs.symlink maxsymlinks je.linktarget je.linkname = none := by
    rw [Tree.symlink, Tree.create]
    split
    · rfl
    · next i n hplace =>
      obtain ⟨j, hj⟩ := hdir i n hplace
      rw [hj]
  simp [replayEntry, hunlink, hsymlink, apply_ite Prod.snd]

theorem replayEntry_linked {je : JournalEntry} (h : fs.readlink maxsymlinks je.linkname = some je.linktarget) :
    (replayEntry os fs je).2 = fs := by
  simp [replayEntry, os_get_symlink_target, h]

/-- The link that is missing is made. -/
theorem replayEntry_moved (mv : Move fs maxsymlinks) {je : JournalEntry} (hname : je.linkname = mv.src) (htarget : je.linktarget = mv.dst)
    (hos : os.symlink je.linkname = true) : (replayEntry os mv.moved je).2 = mv.linked := by
  have hexists : os_directory_exists mv.moved je.linktarget = true := by
    rw [os_directory_exists, htarget, mv.resolve_dst mv.le_moved mv.dst_moved]
    rfl
  have hunlink : mv.moved.unlink maxsymlinks je.linkname = none := by rw [hname, mv.unlink_moved]
  have hread : os_get_symlink_target mv.moved je.linkname ≠ some je.linktarget := by
    rw [os_get_symlink_target, hname, mv.readlink_moved]
    exact nofun
  have hlink : mv.moved.symlink maxsymlinks je.linktarget je.linkname = some mv.linked := by rw [hname, htarget, mv.symlink_moved]
  simp [replayEntry, hexists, hread, hunlink, hos, hlink]

end Replay

section Safe

/-- Every path shows what it has shown before. -/
def Shows (fs₀ fs : FS) : Prop :=
  ∀ path x, Leads fs₀ root path x → Leads fs root path x

/-- So it is after a power loss as well, once the journal has been replayed. -/
def Safe (os : Os) (fs₀ : FS) (w : World) : Prop :=
  ∀ rows, w.journal.AfterPowerLoss rows → Shows fs₀ (replay_directory_link_journal os w.fs rows).2

def JournalDb.Only (db : JournalDb) (rows : List JournalEntry) : Prop :=
  db.rows = rows ∧ db.older = []

variable {os : Os} {fs₀ : FS} {w : World} {α : Type}

theorem shows_of_le {fs : FS} (h : fs₀.Le fs) : Shows fs₀ fs := fun _ _ => Leads.mono h

theorem Shows.le {fs fs' : FS} (h : Shows fs₀ fs) (hle : fs.Le fs') : Shows fs₀ fs' := fun path x hx => (h path x hx).mono hle

theorem safe_of_only {rows : List JournalEntry} (hrows : w.journal.Only rows)
    (h : Shows fs₀ (replay_directory_link_journal os w.fs rows).2) : Safe os fs₀ w := by
  rintro rows' (rfl | hmem)
  · rwa [hrows.1]
  · rw [hrows.2] at hmem
    exact (List.not_mem_nil hmem).elim

/-- Between the calls: nothing is in the journal, and every path shows what it should. -/
def Settled (fs₀ : FS) (w : World) : Prop :=
  Shows fs₀ w.fs ∧ w.journal.Only []

theorem Settled.safe (h : Settled fs₀ w) : Safe os fs₀ w :=
  safe_of_only h.2 (by rw [replay_nil]; exact h.1)

theorem commit_only {db : JournalDb} (hsync : db.synchronous = true) (rows : List JournalEntry) : (db.commit rows).Only rows := by
  simp [JournalDb.commit, JournalDb.Only, hsync]

end Safe

section Steps

variable {os : Os} {fs₀ : FS} {P : World → Prop} {C : World → Prop}

theorem holds_onFs {Q : Bool → World → Prop} {allowed : Bool} {f : FS → Option FS}
    (hdone : ∀ w fs, P w → allowed = true → f w.fs = some fs → C { w with fs } ∧ Q true { w with fs })
    (hnot : ∀ w, P w → allowed = false ∨ f w.fs = none → C w ∧ Q false w) : Holds P (onFs allowed f) Q C := by
  refine holds_step fun w hw => ?_
  cases hallowed : allowed with
  | false => exact hnot w hw (Or.inl hallowed)
  | true =>
    cases hf : f w.fs with
    | none => simpa [hf] using hnot w hw (Or.inr hf)
    | some fs => simpa [hf] using hdone w fs hw hallowed hf

theorem holds_onLinks {Q : Unit → World → Prop} {f : FS → LinkDao → LinkDao} (h : ∀ w links, P w → C { w with links } ∧ Q () { w with links }) :
    Holds P (onLinks f) Q C :=
  holds_modify fun w hw => h w _ hw

/-- A new link changes nothing of what is shown. -/
theorem os_link_symbolic_settled (os' : Os) (target lname : Path) :
    Holds (Settled fs₀) (os'.os_link_symbolic target lname) (fun _ => Settled fs₀) (Safe os fs₀) := by
  refine holds_onFs (fun w fs hw _ hfs => ?_) fun w hw _ => ⟨hw.safe, hw⟩
  have hsettled : Settled fs₀ { w with fs } := ⟨hw.1.le (le_create hfs), hw.2⟩
  exact ⟨hsettled.safe, hsettled⟩

theorem onLinks_settled (f : FS → LinkDao → LinkDao) :
    Holds (Settled fs₀) (onLinks f) (fun _ => Settled fs₀) (Safe os fs₀) :=
  holds_onLinks fun _ _ hw => ⟨Settled.safe hw, hw⟩

theorem linkTarget_settled (c : Call) (link_src_dir : Path) :
    Holds (Settled fs₀) (c.linkTarget link_src_dir) (fun _ => Settled fs₀) (Safe os fs₀) := by
  refine (os_link_symbolic_settled c.os link_src_dir c.target_dir).bind fun linked => ?_
  refine holds_ite (fun _ => holds_pure fun _ hw => hw) fun _ => ?_
  exact (onLinks_settled _).bind fun _ => holds_pure fun _ hw => hw

theorem linkAgain_settled (c : Call) (link_src_dir : Path) :
    Holds (Settled fs₀) (c.linkAgain link_src_dir) (fun _ => Settled fs₀) (Safe os fs₀) := by
  rw [Call.linkAgain]
  split
  · exact holds_pure fun _ hw => hw
  · exact (onLinks_settled _).bind fun _ => linkTarget_settled c link_src_dir

end Steps

section Moving

variable (c : Call) (pool_name : Bytes)

/-- The entry that the call makes in the journal. -/
def Call.entry (id : Nat) : JournalEntry :=
  ⟨id, c.src_dir, c.poolPath pool_name⟩

/-- The source is a directory in its place, and both places are found without it. -/
structure Ready (fs₀ fs : FS) : Prop where
  shows : Shows fs₀ fs
  src_dir : ∀ i n, fs.place maxsymlinks c.src_dir = some (i, n) → ∃ j, fs.entries i n = some (.dir j)
  src_found : ∀ i n, fs.place maxsymlinks c.src_dir = some (i, n) → (fs.put i n none).resolve maxsymlinks c.src_dir.dropLast = some i
  dst_found : ∀ i n, fs.place maxsymlinks c.src_dir = some (i, n) →
    ∃ k, (fs.put i n none).resolve maxsymlinks (c.pooldir ++ [pool_name.take 2]) = some k

/-- The source is in its place, and the journal has its entry. -/
structure Entered (fs₀ : FS) (id : Nat) (w : World) : Prop where
  shows : Shows fs₀ w.fs
  src_dir : ∀ i n, w.fs.place maxsymlinks c.src_dir = some (i, n) → ∃ j, w.fs.entries i n = some (.dir j)
  journal : w.journal.Only [c.entry pool_name id]
  synchronous : w.journal.synchronous = true

/-- The source has been moved, and the journal has its entry. -/
structure Away (fs₀ : FS) (id : Nat) (w : World) : Prop where
  moved : ∃ (fs : FS) (mv : Move fs maxsymlinks), Shows fs₀ fs ∧ mv.src = c.src_dir ∧ mv.dst = c.poolPath pool_name ∧ w.fs = mv.moved
  journal : w.journal.Only [c.entry pool_name id]
  synchronous : w.journal.synchronous = true

/-- There is a link in place of the source, and the journal still has its entry. -/
structure Linked (fs₀ : FS) (id : Nat) (w : World) : Prop where
  shows : Shows fs₀ w.fs
  link : w.fs.readlink maxsymlinks c.src_dir = some (c.poolPath pool_name)
  journal : w.journal.Only [c.entry pool_name id]
  synchronous : w.journal.synchronous = true

variable {c pool_name} {fs₀ : FS} {os : Os} {id : Nat} {w : World}

theorem Entered.safe (h : Entered c pool_name fs₀ id w) : Safe os fs₀ w := by
  refine safe_of_only h.journal ?_
  rw [replay_one, replayEntry_kept h.src_dir]
  exact h.shows

theorem Away.safe (h : Away c pool_name fs₀ id w) (hos : ∀ path, os.symlink path = true) : Safe os fs₀ w := by
  obtain ⟨fs, mv, hshows, hsrc, hdst, hfs⟩ := h.moved
  refine safe_of_only h.journal ?_
  rw [replay_one, hfs, replayEntry_moved mv hsrc.symm hdst.symm (hos _)]
  exact fun path x hx => mv.leads_linked (hshows path x hx)

theorem Linked.safe (h : Linked c pool_name fs₀ id w) : Safe os fs₀ w := by
  refine safe_of_only h.journal ?_
  rw [replay_one, replayEntry_linked h.link]
  exact h.shows

/-- The entry goes when there is nothing to replay any more. -/
theorem remove_settled {P : World → Prop} (hP : ∀ w, P w → Shows fs₀ w.fs ∧ w.journal.Only [c.entry pool_name id] ∧ w.journal.synchronous = true) :
    Holds P (removeDirectoryLinkJournalEntry id) (fun _ => Settled fs₀) (Safe os fs₀) := by
  refine holds_modify fun w hw => ?_
  obtain ⟨hshows, hjournal, hsync⟩ := hP w hw
  have hsettled : Settled fs₀ { w with journal := w.journal.commit (w.journal.rows.filter (·.id ≠ id)) } := by
    refine ⟨hshows, ?_⟩
    have hrows : w.journal.rows.filter (·.id ≠ id) = [] := by
      rw [hjournal.1]
      simp [Call.entry]
    rw [hrows]
    exact commit_only hsync []
  exact ⟨hsettled.safe, hsettled⟩

/-- The links are taken back, and then the entry. -/
theorem undo_settled : Holds (Entered c pool_name fs₀ id) (do
    c.undoLinks pool_name
    removeDirectoryLinkJournalEntry id
    pure (some false)) (fun _ => Settled fs₀) (Safe os fs₀) := by
  have hundo : Holds (Entered c pool_name fs₀ id) (c.undoLinks pool_name) (fun _ => Entered c pool_name fs₀ id) (Safe os fs₀) := by
    refine holds_onLinks fun w links hw => ?_
    have hkept : Entered c pool_name fs₀ id { w with links } := ⟨hw.shows, hw.src_dir, hw.journal, hw.synchronous⟩
    exact ⟨hkept.safe, hkept⟩
  have hremove : Holds (Entered c pool_name fs₀ id) (removeDirectoryLinkJournalEntry id) (fun _ => Settled fs₀) (Safe os fs₀) :=
    remove_settled (c := c) fun w hw => ⟨hw.shows, hw.journal, hw.synchronous⟩
  exact hundo.bind fun _ => hremove.bind fun _ => holds_pure fun _ hw => hw

theorem addEntry_entered : Holds (fun w => Ready c pool_name fs₀ w.fs ∧ w.journal.Only [] ∧ w.journal.synchronous = true)
    (addDirectoryLinkJournalEntry c.src_dir (c.poolPath pool_name))
    (fun id w => Ready c pool_name fs₀ w.fs ∧ Entered c pool_name fs₀ id w) (Safe os fs₀) := by
  refine holds_step fun w hw => ?_
  obtain ⟨hready, hjournal, hsync⟩ := hw
  have hentered : Entered c pool_name fs₀ ((w.journal.rows.map (·.id)).foldl max 0 + 1)
      { w with journal := w.journal.commit (w.journal.rows ++ [c.entry pool_name ((w.journal.rows.map (·.id)).foldl max 0 + 1)]) } := by
    refine ⟨hready.shows, hready.src_dir, ?_, hsync⟩
    rw [hjournal.1]
    exact commit_only hsync _
  exact ⟨hentered.safe, hready, hentered⟩

theorem rename_away (hos : ∀ path, os.symlink path = true) :
    Holds (fun w => Ready c pool_name fs₀ w.fs ∧ Entered c pool_name fs₀ id w) (c.os.os_rename_file c.src_dir (c.poolPath pool_name))
      (fun renamed => if renamed then Away c pool_name fs₀ id else Entered c pool_name fs₀ id) (Safe os fs₀) := by
  refine holds_onFs (fun w fs hw _ hfs => ?_) fun w hw _ => ⟨hw.2.safe, hw.2⟩
  obtain ⟨hready, hentered⟩ := hw
  obtain ⟨i, n, e, k, m, hsrc, he, hdst, hfree, rfl⟩ := rename_spec hfs
  obtain ⟨j, hj⟩ := hready.src_dir i n hsrc
  obtain rfl : .dir j = e := Option.some.inj (hj.symm.trans he)
  obtain ⟨k', hk'⟩ := hready.dst_found i n hsrc
  have hk : k' = k ∧ pool_name = m := by
    have hplace := hdst
    rw [Call.poolPath, place_concat, resolve_mono (put_none_le fun _ _ _ _ he => he) hk'] at hplace
    simpa using hplace
  obtain ⟨rfl, rfl⟩ := hk
  have hname := (eq_concat_of_place hsrc).1
  have haway : Away c pool_name fs₀ id { w with fs := (w.fs.put i n none).put k' pool_name (some (.dir j)) } := by
    refine ⟨⟨w.fs, ⟨c.src_dir.dropLast, n, c.pooldir ++ [pool_name.take 2], pool_name, i, k', j, hready.src_found i n hsrc, hj, hk', hfree⟩,
      hready.shows, hname.symm, rfl, rfl⟩, hentered.journal, hentered.synchronous⟩
  exact ⟨haway.safe hos, haway⟩

theorem link_linked (hos : ∀ path, os.symlink path = true) :
    Holds (Away c pool_name fs₀ id) (c.os.os_link_symbolic (c.poolPath pool_name) c.src_dir)
      (fun linked w => if linked then Linked c pool_name fs₀ id w else Away c pool_name fs₀ id w ∧ c.os.symlink c.src_dir = false)
      (Safe os fs₀) := by
  refine holds_onFs (fun w fs hw _ hfs => ?_) fun w hw hnot => ⟨hw.safe hos, hw, ?_⟩
  · obtain ⟨fs', mv, hshows, hsrc, hdst, hfs'⟩ := hw.moved
    rw [hfs', ← hsrc, ← hdst, mv.symlink_moved] at hfs
    obtain rfl := Option.some.inj hfs
    have hlinked : Linked c pool_name fs₀ id { w with fs := mv.linked } := by
      refine ⟨fun path x hx => mv.leads_linked (hshows path x hx), ?_, hw.journal, hw.synchronous⟩
      rw [← hsrc, ← hdst]
      exact mv.readlink_linked
    exact ⟨hlinked.safe, hlinked⟩
  · obtain ⟨fs', mv, hshows, hsrc, hdst, hfs'⟩ := hw.moved
    refine hnot.resolve_right ?_
    rw [hfs', ← hsrc, ← hdst, mv.symlink_moved]
    exact nofun

/-- Without the link the source comes back. -/
theorem rename_back_entered (hback : c.os.rename (c.poolPath pool_name) c.src_dir = true) :
    Holds (Away c pool_name fs₀ id) (c.os.os_rename_file (c.poolPath pool_name) c.src_dir) (fun _ => Entered c pool_name fs₀ id) (Safe os fs₀) := by
  refine holds_onFs (fun w fs hw _ hfs => ?_) fun w hw hnot => ?_
  · obtain ⟨fs', mv, hshows, hsrc, hdst, hfs'⟩ := hw.moved
    rw [hfs', ← hsrc, ← hdst] at hfs
    have hle := mv.rename_back hfs
    have hentered : Entered c pool_name fs₀ id { w with fs } := by
      refine ⟨hshows.le hle, fun i n hplace => ?_, hw.journal, hw.synchronous⟩
      have hplace' := mv.place_src ((put_none_le fun _ _ _ _ he => he).trans hle)
      rw [hsrc] at hplace'
      obtain ⟨rfl, rfl⟩ : mv.i = i ∧ mv.srcName = n := by simpa [hplace'] using hplace
      exact ⟨mv.j, hle _ _ _ mv.src_dir⟩
    exact ⟨hentered.safe, hentered⟩
  · obtain ⟨fs', mv, hshows, hsrc, hdst, hfs'⟩ := hw.moved
    obtain ⟨t', ht'⟩ := mv.exists_rename_back
    rw [hfs', ← hsrc, ← hdst, ht', hsrc, hdst, hback] at hnot
    simp at hnot

/-- Whatever the system refuses, the rename can be taken back if the link cannot be made. -/
def Call.Undoable (c : Call) : Prop :=
  c.os.symlink c.src_dir = true ∨ ∀ link_src_dir, c.os.rename link_src_dir c.src_dir = true

theorem moveToPool_settled (hos : ∀ path, os.symlink path = true) (hundo : c.Undoable) :
    Holds (fun w => Ready c pool_name fs₀ w.fs ∧ w.journal.Only [] ∧ w.journal.synchronous = true) (c.moveToPool pool_name)
      (fun _ => Settled fs₀) (Safe os fs₀) := by
  have hlinks (f : FS → LinkDao → LinkDao) : Holds (fun w => Ready c pool_name fs₀ w.fs ∧ w.journal.Only [] ∧ w.journal.synchronous = true)
      (onLinks f) (fun _ w => Ready c pool_name fs₀ w.fs ∧ w.journal.Only [] ∧ w.journal.synchronous = true) (Safe os fs₀) :=
    holds_onLinks fun w links hw => ⟨(Settled.safe ⟨hw.1.shows, hw.2.1⟩ : Safe os fs₀ { w with links }), hw⟩
  rw [Call.moveToPool]
  refine (hlinks _).bind fun _ => addEntry_entered.bind fun id => (rename_away hos).bind fun renamed => ?_
  cases renamed with
  | false => exact undo_settled
  | true =>
    refine (link_linked hos).bind fun linked => ?_
    cases linked with
    | true =>
      refine Holds.bind (Q := fun _ => Settled fs₀) ?_ fun _ => linkTarget_settled c _
      exact remove_settled (c := c) fun w hw => ⟨hw.shows, hw.journal, hw.synchronous⟩
    | false =>
      refine holds_of_pure fun hfail => ?_
      have hback := (hundo.resolve_left (by simp [hfail])) (c.poolPath pool_name)
      exact (rename_back_entered hback).bind fun _ => undo_settled

end Moving

section Pool

/-- The parent of the source and what there is of the pool are found without the source. -/
def Call.Apart (c : Call) (fs : FS) : Prop :=
  ∀ i n, fs.place maxsymlinks c.src_dir = some (i, n) →
    ∀ path j, path = c.src_dir.dropLast ∨ (∃ pool_name : Bytes, path <+: c.pooldir ++ [pool_name.take 2]) →
      fs.resolve maxsymlinks path = some j → (fs.put i n none).resolve maxsymlinks path = some j

/-- The source is a directory, and no link. -/
structure SrcDir (c : Call) (fs : FS) : Prop where
  apart : c.Apart fs
  no_link : os_get_symlink_target fs c.src_dir = none
  is_dir : os_directory_exists fs c.src_dir = true

variable {c : Call} {fs₀ : FS} {os : Os}

/-- Its place stays the same when there are more entries. -/
theorem SrcDir.place (h : SrcDir c fs₀) {fs : FS} (hle : fs₀.Le fs) {i : Nat} {n : Bytes}
    (hplace : fs.place maxsymlinks c.src_dir = some (i, n)) :
    fs₀.place maxsymlinks c.src_dir = some (i, n) ∧ ∃ j, fs₀.entries i n = some (.dir j) := by
  obtain ⟨hsrc, hparent⟩ := eq_concat_of_place hplace
  obtain ⟨j, hj⟩ := Option.isSome_iff_exists.mp h.is_dir
  rw [hsrc] at hj
  obtain ⟨k, e, hk, he, hfile⟩ := resolve_concat_inv hj
  obtain rfl : i = k := Option.some.inj (hparent.symm.trans (resolve_mono hle hk))
  have hplace₀ : fs₀.place maxsymlinks c.src_dir = some (i, n) := by
    rw [hsrc, place_concat, hk]
    rfl
  refine ⟨hplace₀, ?_⟩
  have hlink := h.no_link
  simp only [os_get_symlink_target, Tree.readlink, Tree.lookup, hplace₀, Option.bind_some, he] at hlink
  cases e with
  | dir j => exact ⟨j, he⟩
  | file d => exact absurd rfl (hfile d)
  | symlink target => cases hlink

/-- A path is found without the source. -/
def Found (c : Call) (fs₀ fs : FS) (path : Path) : Prop :=
  ∀ i n, fs₀.place maxsymlinks c.src_dir = some (i, n) → ∃ k, (fs.put i n none).resolve maxsymlinks path = some k

/-- The calls write to the journal with `synchronous=FULL`, and nothing is in it. -/
def Journal.Empty (w : World) : Prop :=
  w.journal.Only [] ∧ w.journal.synchronous = true

theorem safe_of_empty {w : World} (hle : fs₀.Le w.fs) (h : Journal.Empty w) : Safe os fs₀ w :=
  Settled.safe ⟨shows_of_le hle, h.1⟩

theorem found_mkdir (h : SrcDir c fs₀) {fs fs' : FS} (hle : fs₀.Le fs) {path : Path} {n : Bytes} (hparent : Found c fs₀ fs path)
    (hmkdir : fs.mkdir maxsymlinks (path ++ [n]) = some fs') : Found c fs₀ fs' (path ++ [n]) := by
  intro i m hplace
  obtain ⟨k, hk⟩ := hparent i m hplace
  obtain ⟨-, j, hj⟩ := h.place (Tree.le_refl fs₀) hplace
  refine resolve_mkdir ?_ hk hmkdir
  rw [hle _ _ _ hj]
  exact nofun

theorem os_create_dir_recursive_found (h : SrcDir c fs₀) (parent : List Bytes)
    (hpool : ∃ pool_name : Bytes, parent.reverse <+: c.pooldir ++ [pool_name.take 2]) :
    Holds (fun w => w.fs = fs₀ ∧ Journal.Empty w) (c.os.os_create_dir_recursive parent)
      (fun created w => fs₀.Le w.fs ∧ Journal.Empty w ∧ (created = true → Found c fs₀ w.fs parent.reverse)) (Safe os fs₀) := by
  induction parent with
  | nil => exact holds_pure fun w hw => ⟨hw.1 ▸ Tree.le_refl fs₀, hw.2, nofun⟩
  | cons n parent ih =>
    obtain ⟨pool_name, hstart⟩ := hpool
    rw [List.reverse_cons] at hstart ⊢
    have hparent : parent.reverse <+: c.pooldir ++ [pool_name.take 2] := (List.prefix_append _ _).trans hstart
    have hfirst : Holds (fun w => w.fs = fs₀ ∧ Journal.Empty w) (c.os.os_create_dir (parent.reverse ++ [n]))
        (fun created w => Journal.Empty w ∧ if created then fs₀.Le w.fs ∧ Found c fs₀ w.fs (parent.reverse ++ [n]) else w.fs = fs₀)
        (Safe os fs₀) := by
      refine holds_onFs (fun w fs hw _ hfs => ?_) fun w hw _ => ⟨safe_of_empty (hw.1 ▸ Tree.le_refl fs₀) hw.2, hw.2, hw.1⟩
      rw [hw.1] at hfs
      refine ⟨safe_of_empty (le_mkdir hfs) hw.2, hw.2, le_mkdir hfs, ?_⟩
      refine found_mkdir h (Tree.le_refl fs₀) (fun i m hplace => ?_) hfs
      obtain ⟨t₁, hcreate, -⟩ := Option.map_eq_some_iff.mp hfs
      obtain ⟨k, l, hk, -, -⟩ := create_spec hcreate
      have hresolve := (eq_concat_of_place hk).2
      rw [List.dropLast_concat] at hresolve
      exact ⟨k, h.apart i m hplace _ k (Or.inr ⟨pool_name, hparent⟩) hresolve⟩
    have hsecond : Holds (fun w => fs₀.Le w.fs ∧ Journal.Empty w ∧ Found c fs₀ w.fs parent.reverse) (c.os.os_create_dir (parent.reverse ++ [n]))
        (fun created w => fs₀.Le w.fs ∧ Journal.Empty w ∧ (created = true → Found c fs₀ w.fs (parent.reverse ++ [n]))) (Safe os fs₀) := by
      refine holds_onFs (fun w fs hw _ hfs => ?_) fun w hw _ => ⟨safe_of_empty hw.1 hw.2.1, hw.1, hw.2.1, nofun⟩
      have hle := hw.1.trans (le_mkdir hfs)
      exact ⟨safe_of_empty hle hw.2.1, hle, hw.2.1, fun _ => found_mkdir h hw.1 hw.2.2 hfs⟩
    refine hfirst.bind fun created => ?_
    cases created with
    | true => exact holds_pure fun w hw => ⟨hw.2.1, hw.1, fun _ => hw.2.2⟩
    | false =>
      have hmono := @Holds.mono _ _ _ (fun w => Journal.Empty w ∧ w.fs = fs₀) _ _ _ _ (ih ⟨pool_name, hparent⟩)
        (fun w hw => ⟨hw.2, hw.1⟩) fun _ _ hw => hw
      refine hmono.bind fun created => ?_
      cases created with
      | true => exact hsecond.mono (fun w hw => ⟨hw.1, hw.2.1, hw.2.2 rfl⟩) fun _ _ hw => hw
      | false => exact holds_pure fun w hw => ⟨hw.1, hw.2.1, nofun⟩

theorem makeParent_found (h : SrcDir c fs₀) (pool_name : Bytes) :
    Holds (fun w => w.fs = fs₀ ∧ Journal.Empty w) (c.makeParent (c.pooldir ++ [pool_name.take 2]))
      (fun created w => fs₀.Le w.fs ∧ Journal.Empty w ∧ (created = true → Found c fs₀ w.fs (c.pooldir ++ [pool_name.take 2]))) (Safe os fs₀) := by
  refine Holds.bind (Q := fun b w => (w.fs = fs₀ ∧ Journal.Empty w) ∧ b = os_directory_exists fs₀ (c.pooldir ++ [pool_name.take 2]))
    (holds_look fun w hw => ⟨hw, by rw [hw.1]⟩) fun exists_already => ?_
  refine holds_of_pure fun hexists => ?_
  cases exists_already with
  | true =>
    refine holds_pure fun w hw => ⟨hw.1 ▸ Tree.le_refl fs₀, hw.2, fun _ i n hplace => ?_⟩
    obtain ⟨k, hk⟩ := Option.isSome_iff_exists.mp hexists.symm
    exact ⟨k, hw.1 ▸ h.apart i n hplace _ k (Or.inr ⟨pool_name, List.prefix_rfl⟩) hk⟩
  | false =>
    have hrec := @os_create_dir_recursive_found _ _ os h (c.pooldir ++ [pool_name.take 2]).reverse
      ⟨pool_name, by rw [List.reverse_reverse]⟩
    rwa [List.reverse_reverse] at hrec

theorem toPool_settled (hos : ∀ path, os.symlink path = true) (hundo : c.Undoable) (h : SrcDir c fs₀) (pool_name : Bytes) :
    Holds (fun w => w.fs = fs₀ ∧ Journal.Empty w) (c.toPool pool_name) (fun _ => Settled fs₀) (Safe os fs₀) := by
  have hready (w : World) (hle : fs₀.Le w.fs) (hfound : Found c fs₀ w.fs (c.pooldir ++ [pool_name.take 2])) :
      Ready c pool_name fs₀ w.fs := by
    refine ⟨shows_of_le hle, fun i n hplace => ?_, fun i n hplace => ?_, fun i n hplace => hfound i n (h.place hle hplace).1⟩
    · obtain ⟨-, j, hj⟩ := h.place hle hplace
      exact ⟨j, hle _ _ _ hj⟩
    · obtain ⟨hplace₀, -⟩ := h.place hle hplace
      exact resolve_mono (put_none_mono hle) (h.apart i n hplace₀ _ i (Or.inl rfl) (eq_concat_of_place hplace₀).2)
  refine (makeParent_found h pool_name).bind fun created => ?_
  cases created with
  | true => exact (moveToPool_settled hos hundo).mono (fun w hw => ⟨hready w hw.1 (hw.2.2 rfl), hw.2.1⟩) fun _ _ hw => hw
  | false => exact holds_pure fun w hw => ⟨shows_of_le hw.1, hw.2.1.1⟩

end Pool

end urbackup.dirlinks
