import UrBackup.ImageCleanup.Removed

namespace urbackup.servercleanup

open maps

/-- The images the cleanup has to leave alone. -/
def Protected (around : Surroundings) (i : Image) : Prop :=
  i.archived = true ∨ i.complete = false ∨ around.isImageLockedFromCleanup i.id = true

section Checks

variable {db : Db}

theorem findRefs_false {wanted : Image → Bool} {find : Nat → Option Bool} {refs : List Image}
    (h : findRefs wanted find refs = some false) :
    ∀ r ∈ refs, wanted r = false ∧ find r.id = some false := by
  induction refs with
  | nil => exact fun r hr => absurd hr List.not_mem_nil
  | cons r refs ih =>
    rw [findRefs] at h
    split at h
    · cases h
    · next hwanted =>
      split at h
      · next hfind =>
        intro q hq
        rcases List.mem_cons.mp hq with rfl | hq
        · exact ⟨Bool.eq_false_of_not_eq_true hwanted, hfind⟩
        · exact ih h q hq
      · next hnot => exact absurd h hnot

/-- A search that finds nothing has looked at every image that depends on the first. -/
theorem findImageRef_false {here : Nat → Bool} {wanted : Image → Bool} {x y : Nat} (hxy : Depends db x y)
    {fuel : Nat} (h : findImageRef db here wanted fuel x = some false) :
    here y = false ∧ ∀ r ∈ db.getImageRefs y, wanted r = false := by
  induction hxy using Relation.ReflTransGen.head_induction_on generalizing fuel with
  | refl =>
    cases fuel with
    | zero => cases h
    | succ fuel =>
      rw [findImageRef] at h
      split at h
      · cases h
      · next hhere => exact ⟨Bool.eq_false_of_not_eq_true hhere, fun r hr => (findRefs_false h r hr).1⟩
  | head hstep _ ih =>
    obtain ⟨r, hr, rfl⟩ := hstep
    cases fuel with
    | zero => cases h
    | succ fuel =>
      rw [findImageRef] at h
      split at h
      · cases h
      · exact ih (findRefs_false h r hr).2

/-- The checks look at all images that depend on the candidate, and at no image
associated with one of them except whether it is archived. -/
theorem not_protected_of_isKept {around : Surroundings} {fuel x y : Nat}
    (h : isKept around fuel db x = some false) (hxy : Depends db x y) :
    around.isImageLockedFromCleanup x = false ∧ ∀ r ∈ db.getImageRefs y, ¬ Protected around r := by
  rw [isKept] at h
  split at h
  · cases h
  · next hlocked =>
    split at h
    · next huncomplete =>
      split at h
      · next hlockedRef =>
        refine ⟨Bool.eq_false_of_not_eq_true hlocked, ?_⟩
        rintro r hr (harchived | hcomplete | hlockedr)
        · have := (findImageRef_false hxy h).2 r hr
          rw [harchived] at this
          cases this
        · have := (findImageRef_false hxy huncomplete).2 r hr
          rw [hcomplete] at this
          cases this
        · have := (findImageRef_false hxy hlockedRef).2 r hr
          rw [hlockedr] at this
          cases this
      · next hnot => exact absurd h hnot
    · next hnot => exact absurd h hnot

end Checks

section Candidates

theorem mem_groupByLetter (notit : List Nat) (res : List Image) :
    ∀ e ∈ (groupByLetter notit res).entries, ∀ id ∈ e.2, ∃ i ∈ res, i.id = id := by
  suffices hfold : ∀ (done todo : List Image) (m : SortedMap (List Nat) (List Nat)),
      (∀ e ∈ m.entries, ∀ id ∈ e.2, ∃ i ∈ done ++ todo, i.id = id) →
      ∀ e ∈ (todo.foldl (fun images_ids i =>
        let letter := i.letter.map UInt8.toNat
        if notit.contains i.id then images_ids
        else images_ids.insert letter ((images_ids.find letter).getD [] ++ [i.id])) m).entries,
      ∀ id ∈ e.2, ∃ i ∈ done ++ todo, i.id = id by
    exact hfold [] res SortedMap.empty fun e he => absurd he List.not_mem_nil
  intro done todo
  induction todo generalizing done with
  | nil => exact fun m hm => hm
  | cons i todo ih =>
    intro m hm
    rw [List.foldl_cons]
    have happ : done ++ i :: todo = (done ++ [i]) ++ todo := by simp
    rw [happ] at hm ⊢
    apply ih (done ++ [i])
    dsimp only
    split
    · exact hm
    · intro e he id hid
      rcases SortedMap.mem_insertEntry he with rfl | he
      · rcases List.mem_append.mp hid with hid | hid
        · cases hfind : m.find (i.letter.map UInt8.toNat) with
          | none =>
            rw [hfind] at hid
            exact absurd hid List.not_mem_nil
          | some ids =>
            rw [hfind] at hid
            exact hm _ (SortedMap.find_eq_some.mp hfind) id hid
        · exact ⟨i, by simp, (List.mem_singleton.mp hid).symm⟩
      · exact hm e he id hid

/-- A positive count comes with an image that was counted. -/
theorem getImagesNum_mem {res : List Image} {backupid_top : Nat} {notit : List Nat}
    (h : (getImagesNum res backupid_top notit).1 ≠ 0) :
    ∃ i ∈ res, i.id = (getImagesNum res backupid_top notit).2 := by
  suffices hfold : ∀ (es : List (List Nat × List Nat)) (top : Nat × Nat),
      (∀ e ∈ es, ∀ id ∈ e.2, ∃ i ∈ res, i.id = id) → (top.1 ≠ 0 → ∃ i ∈ res, i.id = top.2) →
      let top' := es.foldl (fun top e => if e.2.length > top.1 then (e.2.length, e.2.headD top.2) else top) top
      top'.1 ≠ 0 → ∃ i ∈ res, i.id = top'.2 by
    exact hfold _ _ (mem_groupByLetter notit res) (fun h0 => absurd rfl h0) h
  intro es
  induction es with
  | nil => exact fun top _ htop => htop
  | cons e es ih =>
    intro top hes htop
    rw [List.foldl_cons]
    apply ih _ fun e' he' => hes e' (List.mem_cons_of_mem e he')
    split
    · next hlen =>
      intro _
      cases hids : e.2 with
      | nil =>
        rw [hids] at hlen
        exact absurd hlen (Nat.not_lt_zero _)
      | cons id ids =>
        exact hes e List.mem_cons_self id (by rw [hids]; exact List.mem_cons_self)
    · exact htop

theorem mem_getNumImages {db : Db} {incremental : Bool} {clientid : Nat} {i : Image}
    (h : i ∈ db.getNumImages incremental clientid) : i ∈ db.images ∧ i.complete = true ∧ i.archived = false := by
  rw [Db.getNumImages, List.mem_insertionSort, List.mem_filter] at h
  obtain ⟨hmem, hcond⟩ := h
  simp only [Bool.and_eq_true, Bool.not_eq_true'] at hcond
  exact ⟨hmem, hcond.1.1.1.2, hcond.2⟩

/-- The image a loop comes to is complete and not archived. -/
theorem getImagesNum_candidate {clientid : Nat} {l : Loop} (h : (l.getImagesNum clientid).1 ≠ 0) :
    ∃ i ∈ l.s.db.images, i.id = (l.getImagesNum clientid).2 ∧ i.complete = true ∧ i.archived = false := by
  rw [Loop.getImagesNum] at h ⊢
  cases hphase : l.phase with
  | full =>
    rw [hphase] at h
    obtain ⟨i, hi, hid⟩ := getImagesNum_mem h
    obtain ⟨hmem, hcomplete, harchived⟩ := mem_getNumImages hi
    exact ⟨i, hmem, hid, hcomplete, harchived⟩
  | incr =>
    rw [hphase] at h
    obtain ⟨i, hi, hid⟩ := getImagesNum_mem h
    obtain ⟨hmem, hcomplete, harchived⟩ := mem_getNumImages hi
    exact ⟨i, hmem, hid, hcomplete, harchived⟩

end Candidates

section Run

variable (settings : ServerSettings) (around : Surroundings) (clientid : Nat) (minspace : Int) (fuel : Nat)

/-- What the removal of `x` comes to through an associated image is not protected. -/
def AssociatedFree (db : Db) (x : Nat) : Prop :=
  ∀ y a, Depends db x y → Associated db y a → ∀ i ∈ db.images, Reaches db a i.id → ¬ Protected around i

/-- If the loop removes its candidate now, it is one whose associated images are free. -/
def TurnFits (l : Loop) : Prop :=
  l.isOver settings minspace (l.getImagesNum clientid).1 = false →
    isKept around fuel l.s.db (l.getImagesNum clientid).2 = some false →
      AssociatedFree around l.s.db (l.getImagesNum clientid).2

/-- The loop is at `l'` some turns after `l`. -/
def Comes : Loop → Loop → Prop :=
  Relation.ReflTransGen fun l l' => turn settings around clientid minspace fuel l = .again l'

/-- Every turn of the cleanup fits. -/
def RunFits (s : Cleanup) : Prop :=
  ∀ l, Comes settings around clientid minspace fuel ⟨.full, 0, [], s⟩ l →
    TurnFits settings around clientid minspace fuel l

variable {settings around clientid minspace fuel}

theorem Reaches.depends_or_associated {db : Db} {x z : Nat} (h : Reaches db x z) :
    Depends db x z ∨ ∃ y a, Depends db x y ∧ Associated db y a ∧ Reaches db a z := by
  induction h with
  | refl => exact Or.inl Relation.ReflTransGen.refl
  | tail _ hstep ih =>
    rcases ih with hdep | ⟨y, a, hdep, hassoc, hreach⟩
    · rcases hstep with hstep | hstep
      · exact Or.inl (hdep.tail hstep)
      · exact Or.inr ⟨_, _, hdep, hstep, Relation.ReflTransGen.refl⟩
    · exact Or.inr ⟨y, a, hdep, hassoc, hreach.tail hstep⟩

/-- An image that depends on a candidate the checks let through is not protected. -/
theorem not_protected_of_depends {db : Db} {c i : Image} (hc : c ∈ db.images) (hi : i ∈ db.images)
    (hcomplete : c.complete = true) (harchived : c.archived = false)
    (hkept : isKept around fuel db c.id = some false) (h : Depends db c.id i.id) : ¬ Protected around i := by
  rcases Relation.ReflTransGen.cases_tail h with heq | ⟨y, hdep, r, hr, hrid⟩
  · obtain rfl := image_eq_of_id hi hc heq
    rintro (h1 | h2 | h3)
    · rw [harchived] at h1
      cases h1
    · rw [hcomplete] at h2
      cases h2
    · rw [(not_protected_of_isKept hkept Relation.ReflTransGen.refl).1] at h3
      cases h3
  · obtain rfl := image_eq_of_id (mem_getImageRefs.mp hr).1 hi hrid
    exact (not_protected_of_isKept hkept hdep).2 r hr

/-- The removal of a candidate that fits removes no protected image. -/
theorem removeImage_unprotected {l : Loop} (del_incr_in_stack : Nat)
    (hfits : TurnFits settings around clientid minspace fuel l)
    (hover : l.isOver settings minspace (l.getImagesNum clientid).1 = false)
    (hkept : isKept around fuel l.s.db (l.getImagesNum clientid).2 = some false) :
    Removed (fun i => ¬ Protected around i) l.s.db
      (removeImage settings around false true true fuel del_incr_in_stack (l.getImagesNum clientid).2 l.s).2.db := by
  have hpos : (l.getImagesNum clientid).1 ≠ 0 := by
    intro hzero
    simp [Loop.isOver, hzero] at hover
  have hfree := hfits hover hkept
  obtain ⟨c, hc, hid, hcomplete, harchived⟩ := getImagesNum_candidate hpos
  rw [← hid] at hkept hfree ⊢
  apply (removeImage_removes true true fuel del_incr_in_stack c.id l.s).removed.mono
  intro i hi hreach
  rcases hreach.depends_or_associated with hdep | ⟨y, a, hdep, hassoc, hreach⟩
  · exact not_protected_of_depends hc hi hcomplete harchived hkept hdep
  · exact hfree y a hdep hassoc i hi hreach

theorem turn_unprotected {l : Loop} (hfits : TurnFits settings around clientid minspace fuel l) :
    Removed (fun i => ¬ Protected around i) l.s.db (turn settings around clientid minspace fuel l).s.db := by
  have hbase := removeImage_unprotected l.del_incr_in_stack hfits
  rcases hnum : l.getImagesNum clientid with ⟨image_num, backupid⟩
  rw [hnum] at hbase
  rw [turn, hnum]
  dsimp only
  split
  · cases l.phase
    · exact Removed.refl _ _
    · exact Removed.refl _ _
  · next hover =>
    cases hkept : isKept around fuel l.s.db backupid with
    | none => exact Removed.refl _ _
    | some kept =>
      cases kept with
      | true => exact Removed.refl _ _
      | false =>
        have hremoved := hbase (Bool.eq_false_of_not_eq_true hover) hkept
        dsimp only at hremoved ⊢
        split
        · next s' hout =>
          rw [hout] at hremoved
          exact hremoved
        · exact hremoved

theorem turns_unprotected (n : Nat) (l : Loop)
    (hfits : ∀ l', Comes settings around clientid minspace fuel l l' →
      TurnFits settings around clientid minspace fuel l') :
    Removed (fun i => ¬ Protected around i) l.s.db (turns settings around clientid minspace fuel n l).2.db := by
  induction n generalizing l with
  | zero => exact Removed.refl _ _
  | succ n ih =>
    have hturn := turn_unprotected (hfits l Relation.ReflTransGen.refl)
    rw [turns]
    cases hout : turn settings around clientid minspace fuel l with
    | again l' =>
      rw [hout] at hturn
      refine hturn.trans (ih l' ?_)
      intro l'' hcomes
      exact hfits l'' (Relation.ReflTransGen.head hout hcomes)
    | stop out =>
      rw [hout] at hturn
      exact hturn

theorem turn_removed {l l' : Loop} (h : turn settings around clientid minspace fuel l = .again l') :
    Removed (fun _ => True) l.s.db l'.s.db := by
  rcases hnum : l.getImagesNum clientid with ⟨image_num, backupid⟩
  have hremoves : Removes backupid l.s
      (removeImage settings around false true true fuel l.del_incr_in_stack backupid l.s) :=
    removeImage_removes true true fuel l.del_incr_in_stack backupid l.s
  have hremoved := hremoves.removed
  rw [turn, hnum] at h
  dsimp only at h
  split at h
  · split at h
    · cases h
      exact Removed.refl _ _
    · cases h
  · split at h
    · cases h
    · cases h
      exact Removed.refl _ _
    · split at h
      · next s' hout =>
        rw [hout] at hremoved
        cases h
        exact hremoved.mono fun _ _ _ => trivial
      · cases h

theorem AssociatedFree.removed {db db' : Db} {P : Image → Prop} (hremoved : Removed P db db') {x : Nat}
    (h : AssociatedFree around db x) : AssociatedFree around db' x := by
  intro y a hdep hassoc i hi hreach
  have hdep' : Depends db x y := Relation.ReflTransGen.mono (fun _ _ => hremoved.refers) x y hdep
  exact h y a hdep' (hremoved.associated hassoc) i (hremoved.images i hi) (hremoved.reaches hreach)

/-- A table where no image comes to a protected one through an association fits
whatever the run does. -/
theorem runFits_of_associatedFree {s : Cleanup} (h : ∀ x, AssociatedFree around s.db x) :
    RunFits settings around clientid minspace fuel s := by
  intro l hcomes
  have hremoved : Removed (fun _ => True) s.db l.s.db := by
    induction hcomes with
    | refl => exact Removed.refl _ _
    | tail _ hturn ih => exact ih.trans (turn_removed hturn)
  intro _ _
  exact (h _).removed hremoved

/-- Where no candidate that is removed comes to a protected image through an
associated one, a run deletes no protected image. No remaining incremental image
refers to a deleted one. -/
theorem cleanup_keeps_protected (n : Nat) (s : Cleanup)
    (hfits : RunFits settings around clientid minspace fuel s) :
    let db' := (cleanup_one_imagebackup_client settings around clientid minspace fuel n s).2.db
    (∀ i ∈ s.db.images, i ∉ db'.images → ¬ Protected around i) ∧
      ∀ r ∈ db'.images, r.incremental ≠ 0 → ∀ i ∈ s.db.images, i.id = r.incremental_ref → i ∈ db'.images := by
  have hremoved := turns_unprotected n ⟨.full, 0, [], s⟩ hfits
  exact ⟨hremoved.deleted, hremoved.kept⟩

/-- An older and a newer image of `C`, the older one saved with a system partition
image, and an archived image that is older than both. -/
def exampleDb : Db where
  images := [⟨1, 1, [67], 0, 0, true, false, 10⟩, ⟨2, 1, [67], 0, 0, true, false, 20⟩,
    ⟨3, 1, Db.SYSVOL, 0, 0, true, false, 10⟩, ⟨4, 1, [67], 0, 0, true, true, 5⟩]
  assoc_images := [(1, 3)]
  clients := [1]
  unique := by decide

theorem exampleDb_associatedFree (x : Nat) : AssociatedFree ⟨fun _ => false, fun _ => true⟩ exampleDb x := by
  intro y a _ hassoc i hi hreach
  have ha : a = 3 := by
    have hmem := mem_getAssocImageBackups.mp hassoc
    simp only [exampleDb, List.mem_singleton, Prod.mk.injEq] at hmem
    exact hmem.2
  subst ha
  have hid : i.id = 3 := by
    rcases Relation.ReflTransGen.cases_head hreach with heq | ⟨b, hb | hb, -⟩
    · exact heq.symm
    · obtain ⟨r, hr, -⟩ := hb
      have hrefs : exampleDb.getImageRefs 3 = [] := by decide
      rw [hrefs] at hr
      exact absurd hr List.not_mem_nil
    · have hnone : exampleDb.getAssocImageBackups 3 = [] := by decide
      rw [Associated, hnone] at hb
      exact absurd hb List.not_mem_nil
  have hrow : i = ⟨3, 1, Db.SYSVOL, 0, 0, true, false, 10⟩ := image_eq_of_id hi (by decide) hid
  subst hrow
  rintro (h | h | h)
  · cases h
  · cases h
  · cases h

theorem exampleDb_cleanup :
    let out := cleanup_one_imagebackup_client ⟨4, 30, 1, 1⟩ ⟨fun _ => false, fun _ => true⟩ 1 (-1) 4 2 ⟨exampleDb, 0⟩
    (out.1 = some true ∧ out.2.db.images.map Image.id = [2, 4]) ∧
      ∀ i ∈ exampleDb.images, i ∉ out.2.db.images → ¬ Protected ⟨fun _ => false, fun _ => true⟩ i :=
  ⟨by decide +kernel, (cleanup_keeps_protected 2 ⟨exampleDb, 0⟩ (runFits_of_associatedFree exampleDb_associatedFree)).1⟩

/-- The image `3` is locked. Only the images that refer to the removed one are
asked for locks, not the images associated with it. -/
theorem not_cleanup_keeps_protected :
    let around : Surroundings := ⟨fun backupid => backupid == 3, fun _ => true⟩
    let out := cleanup_one_imagebackup_client ⟨4, 30, 1, 1⟩ around 1 (-1) 4 2 ⟨exampleDb, 0⟩
    out.1 = some true ∧ ∃ i ∈ exampleDb.images, i ∉ out.2.db.images ∧ Protected around i := by
  refine ⟨by decide +kernel, ⟨3, 1, Db.SYSVOL, 0, 0, true, false, 10⟩, by decide, by decide +kernel, ?_⟩
  exact Or.inr (Or.inr rfl)

end Run

end urbackup.servercleanup
