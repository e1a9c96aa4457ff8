import UrBackup.ImageCleanup.RemoveImage

namespace urbackup.servercleanup

/-- The incremental image `ref` refers to `base`. -/
def Refers (db : Db) (base ref : Nat) : Prop :=
  ∃ i ∈ db.getImageRefs base, i.id = ref

def Associated (db : Db) (x a : Nat) : Prop :=
  a ∈ db.getAssocImageBackups x

/-- The images that are useless without `x`, itself among them. -/
def Depends (db : Db) : Nat → Nat → Prop :=
  Relation.ReflTransGen (Refers db)

/-- The images the removal of `x` may come to. -/
def Reaches (db : Db) : Nat → Nat → Prop :=
  Relation.ReflTransGen fun x y => Refers db x y ∨ Associated db x y

/-- Some images are gone, all of them of `P`, and no image refers to one of them. -/
structure Removed (P : Image → Prop) (db db' : Db) : Prop where
  images : ∀ i ∈ db'.images, i ∈ db.images
  assoc : ∀ a ∈ db'.assoc_images, a ∈ db.assoc_images
  deleted : ∀ i ∈ db.images, i ∉ db'.images → P i
  kept : ∀ r ∈ db'.images, r.incremental ≠ 0 → ∀ i ∈ db.images, i.id = r.incremental_ref → i ∈ db'.images

section Db

variable {db db' : Db}

theorem mem_getImageRefs {i : Image} {base : Nat} :
    i ∈ db.getImageRefs base ↔ i ∈ db.images ∧ i.incremental ≠ 0 ∧ i.incremental_ref = base := by
  simp [Db.getImageRefs]

theorem mem_getAssocImageBackups {x a : Nat} : a ∈ db.getAssocImageBackups x ↔ (x, a) ∈ db.assoc_images := by
  simp [Db.getAssocImageBackups]

theorem mem_removeImage {i : Image} {x : Nat} : i ∈ (db.removeImage x).images ↔ i ∈ db.images ∧ i.id ≠ x := by
  simp [Db.removeImage]

/-- Ids are unique. -/
theorem image_eq_of_id {i j : Image} (hi : i ∈ db.images) (hj : j ∈ db.images) (h : i.id = j.id) : i = j :=
  List.inj_on_of_nodup_map db.unique hi hj h

end Db

namespace Removed

variable {P Q : Image → Prop} {db db' db'' : Db}

theorem refl (P : Image → Prop) (db : Db) : Removed P db db where
  images _ hi := hi
  assoc _ ha := ha
  deleted _ hi hni := absurd hi hni
  kept _ _ _ _ hi _ := hi

section Mono

variable (h : Removed P db db')

include h

theorem mono (hPQ : ∀ i ∈ db.images, P i → Q i) : Removed Q db db' where
  images := h.images
  assoc := h.assoc
  deleted i hi hni := hPQ i hi (h.deleted i hi hni)
  kept := h.kept

theorem trans (h' : Removed P db' db'') : Removed P db db'' where
  images i hi := h.images i (h'.images i hi)
  assoc a ha := h.assoc a (h'.assoc a ha)
  deleted i hi hni := by
    by_cases hmem : i ∈ db'.images
    · exact h'.deleted i hmem hni
    · exact h.deleted i hi hmem
  kept r hr hincr i hi href := h'.kept r hr hincr i (h.kept r (h'.images r hr) hincr i hi href) href

theorem refers {x y : Nat} (hxy : Refers db' x y) : Refers db x y := by
  obtain ⟨i, hi, rfl⟩ := hxy
  obtain ⟨himg, hincr, href⟩ := mem_getImageRefs.mp hi
  exact ⟨i, mem_getImageRefs.mpr ⟨h.images i himg, hincr, href⟩, rfl⟩

theorem associated {x y : Nat} (hxy : Associated db' x y) : Associated db x y :=
  mem_getAssocImageBackups.mpr (h.assoc _ (mem_getAssocImageBackups.mp hxy))

/-- What a removal comes to later it comes to now. -/
theorem reaches {x y : Nat} (hxy : Reaches db' x y) : Reaches db x y := by
  refine Relation.ReflTransGen.mono ?_ x y hxy
  rintro a b (hab | hab)
  · exact Or.inl (h.refers hab)
  · exact Or.inr (h.associated hab)

theorem getImageRefs_eq_nil {x : Nat} (hx : db.getImageRefs x = []) :
    db'.getImageRefs x = [] := by
  apply List.eq_nil_iff_forall_not_mem.mpr
  intro i hi
  obtain ⟨himg, hincr, href⟩ := mem_getImageRefs.mp hi
  have hmem : i ∈ db.getImageRefs x := mem_getImageRefs.mpr ⟨h.images i himg, hincr, href⟩
  rw [hx] at hmem
  exact List.not_mem_nil hmem

end Mono

end Removed

section RemoveImage

variable {settings : ServerSettings} {around : Surroundings}

/-- What a call that is to remove `x` does: it removes only images `x` reaches, and
`x` itself where it answers so. -/
structure Removes (x : Nat) (s : Cleanup) (out : Outcome) : Prop where
  removed : Removed (fun i => Reaches s.db x i.id) s.db out.2.db
  gone : out.1 = some true → ∀ i ∈ out.2.db.images, i.id ≠ x

variable (settings) in
theorem removeRefs_removed {force_remove : Bool} {del_incr_in_stack : Nat} {remove : Nat → Cleanup → Outcome}
    (hremove : ∀ x s, Removes x s (remove x s)) (refs : List Image) (s : Cleanup) :
    Removed (fun i => ∃ r ∈ refs, Reaches s.db r.id i.id) s.db
      (removeRefs settings force_remove del_incr_in_stack remove refs s).2.db ∧
    ((removeRefs settings force_remove del_incr_in_stack remove refs s).1 = some true →
      ∀ r ∈ refs, r ∉ (removeRefs settings force_remove del_incr_in_stack remove refs s).2.db.images) := by
  induction refs generalizing s with
  | nil =>
    refine ⟨Removed.refl _ _, ?_⟩
    intro _ r hr
    exact absurd hr List.not_mem_nil
  | cons r refs ih =>
    rw [removeRefs]
    split
    · exact ⟨Removed.refl _ _, fun h => nomatch h⟩
    · have hr := hremove r.id s
      have hfirst : Removed (fun i => ∃ q ∈ r :: refs, Reaches s.db q.id i.id) s.db (remove r.id s).2.db :=
        hr.removed.mono fun _ _ hy => ⟨r, List.mem_cons_self, hy⟩
      split
      · next s' hout =>
        rw [hout] at hfirst hr
        obtain ⟨hrest, hgone⟩ := ih s'
        have hrest' := hrest.mono (Q := fun i => ∃ q ∈ r :: refs, Reaches s.db q.id i.id) fun _ _ ⟨q, hq, hy⟩ =>
          ⟨q, List.mem_cons_of_mem r hq, hfirst.reaches hy⟩
        refine ⟨hfirst.trans hrest', ?_⟩
        intro htrue q hq
        rcases List.mem_cons.mp hq with rfl | hq
        · intro hmem
          exact hr.gone rfl q (hrest.images q hmem) rfl
        · exact hgone htrue q hq
      · next hnot =>
        refine ⟨hfirst, ?_⟩
        intro htrue
        exact (hnot (remove r.id s).2 (Prod.ext htrue rfl)).elim

theorem removeAssociated_removed {remove : Nat → Cleanup → Outcome} (hremove : ∀ x s, Removes x s (remove x s))
    (assoc : List Nat) (s : Cleanup) :
    Removed (fun i => ∃ a ∈ assoc, Reaches s.db a i.id) s.db (removeAssociated remove assoc s).2.db := by
  induction assoc generalizing s with
  | nil => exact Removed.refl _ _
  | cons a assoc ih =>
    rw [removeAssociated]
    have hfirst : Removed (fun i => ∃ b ∈ a :: assoc, Reaches s.db b i.id) s.db (remove a s).2.db :=
      (hremove a s).removed.mono fun _ _ hy => ⟨a, List.mem_cons_self, hy⟩
    split
    · next b s' hout =>
      rw [hout] at hfirst
      apply hfirst.trans
      exact (ih s').mono fun _ _ ⟨b, hb, hy⟩ => ⟨b, List.mem_cons_of_mem a hb, hfirst.reaches hy⟩
    · exact hfirst

/-- A row without references to it can go. -/
theorem removeRow_removes {force_remove : Bool} {x : Nat} {s : Cleanup} (hrefs : s.db.getImageRefs x = []) :
    Removes x s (removeRow around force_remove x s) := by
  rw [removeRow]
  split
  · split
    · constructor
      · constructor
        · exact fun i hi => (mem_removeImage.mp hi).1
        · exact fun a ha => (List.mem_filter.mp ha).1
        · intro i hi hni
          have hid : i.id = x := by
            by_contra hne
            exact hni (mem_removeImage.mpr ⟨hi, hne⟩)
          rw [hid]
          exact Relation.ReflTransGen.refl
        · intro r hr hincr i hi href
          refine mem_removeImage.mpr ⟨hi, ?_⟩
          intro hid
          have hmem : r ∈ s.db.getImageRefs x :=
            mem_getImageRefs.mpr ⟨(mem_removeImage.mp hr).1, hincr, href.symm.trans hid⟩
          rw [hrefs] at hmem
          exact List.not_mem_nil hmem
      · exact fun _ i hi => (mem_removeImage.mp hi).2
    · exact ⟨Removed.refl _ _, fun h => nomatch h⟩
  · exact ⟨Removed.refl _ _, fun h => nomatch h⟩

/-- With the images that refer to `x` looked at first, none is left before `x` goes. -/
theorem removeImage_refs (remove_references : Bool) {del_incr_in_stack x : Nat} {s : Cleanup}
    {remove : Nat → Cleanup → Outcome} (hremove : ∀ y t, Removes y t (remove y t)) {refs : Outcome}
    (hrefs : refs = if remove_references then
        removeRefs settings false del_incr_in_stack remove (s.db.getImageRefs x) s
      else (some (false || (s.db.getImageRefs x).isEmpty), s)) :
    Removed (fun i => Reaches s.db x i.id) s.db refs.2.db ∧ (refs.1 = some true → refs.2.db.getImageRefs x = []) := by
  subst hrefs
  split
  · obtain ⟨hremoved, hgone⟩ := removeRefs_removed settings hremove (s.db.getImageRefs x) s
    refine ⟨hremoved.mono ?_, ?_⟩
    · rintro i - ⟨r, hr, hy⟩
      exact Relation.ReflTransGen.head (Or.inl ⟨r, hr, rfl⟩) hy
    · intro htrue
      apply List.eq_nil_iff_forall_not_mem.mpr
      intro i hi
      obtain ⟨himg, hincr, href⟩ := mem_getImageRefs.mp hi
      exact hgone htrue i (mem_getImageRefs.mpr ⟨hremoved.images i himg, hincr, href⟩) himg
  · refine ⟨Removed.refl _ _, ?_⟩
    intro htrue
    simpa using htrue

/-- Only a removal that is not forced is sure to leave no reference behind. -/
theorem removeImage_removes (remove_associated remove_references : Bool) (fuel del_incr_in_stack x : Nat)
    (s : Cleanup) :
    Removes x s (removeImage settings around false remove_associated remove_references fuel del_incr_in_stack x s) := by
  induction fuel generalizing del_incr_in_stack x s with
  | zero => exact ⟨Removed.refl _ _, fun h => nomatch h⟩
  | succ fuel ih =>
    rw [removeImage]
    generalize hout : (if remove_references = true then _ else _ : Outcome) = refs
    have hrefs := removeImage_refs remove_references (ih (del_incr_in_stack + 1)) hout.symm
    split
    · next s₁ =>
      obtain ⟨hremoved₁, hnil₁⟩ := hrefs
      dsimp only
      generalize hout₁ : (if remove_associated = true then _ else _ : Outcome) = assoc
      have hassoc : Removed (fun i => Reaches s.db x i.id) s₁.db assoc.2.db := by
        rw [← hout₁]
        split
        · apply (removeAssociated_removed (fun y t => ih _ y t) _ s₁).mono
          rintro i - ⟨a, ha, hay⟩
          exact Relation.ReflTransGen.head (Or.inr (hremoved₁.associated ha)) (hremoved₁.reaches hay)
        · exact Removed.refl _ _
      split
      · next b s₂ =>
        have hrow : Removes x s₂ (removeRow around false x s₂) :=
          removeRow_removes (hassoc.getImageRefs_eq_nil (hnil₁ rfl))
        refine ⟨(hremoved₁.trans hassoc).trans (hrow.removed.mono ?_), hrow.gone⟩
        intro i _ hy
        exact (hremoved₁.trans hassoc).reaches hy
      · next hnot =>
        refine ⟨hremoved₁.trans hassoc, ?_⟩
        intro htrue
        exact (hnot true assoc.2 (Prod.ext htrue rfl)).elim
    · next hnot =>
      refine ⟨hrefs.1, ?_⟩
      intro htrue
      exact (hnot refs.2 (Prod.ext htrue rfl)).elim

end RemoveImage

end urbackup.servercleanup
