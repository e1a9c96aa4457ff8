import UrBackup.FileData.Slices

namespace filedata

variable {α : Type} (z : α)

/-- A value put at an offset of a buffer. Nothing may be put outside of it. -/
def put (buf : List α) (field : Nat × List α) : Option (List α) :=
  if field.1 + field.2.length ≤ buf.length then some (overwrite z buf field.1 field.2) else none

def putAll (buf : List α) (fields : List (Nat × List α)) : Option (List α) :=
  fields.foldlM (put z) buf

/-- A part of a structure of which the parts before it are known. -/
theorem slice_part {xs ys : List α} {p n : Nat} (zs : List α) (hp : xs.length = p) (hn : ys.length = n) :
    slice (xs ++ (ys ++ zs)) p n = ys := by
  rw [slice, List.drop_left' hp, List.take_left' hn]

/-- Two fields that do not overlap. -/
def Apart (f g : Nat × List α) : Prop :=
  f.1 + f.2.length ≤ g.1 ∨ g.1 + g.2.length ≤ f.1

section PutAll

variable {buf out : List α} {fields : List (Nat × List α)}

theorem length_put {field : Nat × List α} (h : put z buf field = some out) : out.length = buf.length := by
  unfold put at h
  split at h
  · next hfits =>
    cases h
    exact length_overwrite z hfits
  · cases h

theorem putAll_cons (field : Nat × List α) (fields : List (Nat × List α)) :
    putAll z buf (field :: fields) = (put z buf field).bind fun buf => putAll z buf fields :=
  List.foldlM_cons

/-- One field outside of the buffer is enough. -/
theorem putAll_outside {field : Nat × List α} (hmem : field ∈ fields) (hout : buf.length < field.1 + field.2.length) :
    putAll z buf fields = none := by
  induction fields generalizing buf with
  | nil => exact absurd hmem List.not_mem_nil
  | cons f fields ih =>
    rw [putAll_cons]
    obtain rfl | hmem := List.mem_cons.mp hmem
    · rw [put, if_neg (by omega)]
      rfl
    · cases hput : put z buf f with
      | none => rfl
      | some next => exact ih hmem (by rwa [length_put z hput])

theorem putAll_fits (hfits : ∀ f ∈ fields, f.1 + f.2.length ≤ buf.length) :
    ∃ out, putAll z buf fields = some out ∧ out.length = buf.length := by
  induction fields generalizing buf with
  | nil => exact ⟨buf, rfl, rfl⟩
  | cons f fields ih =>
    have hf := hfits f List.mem_cons_self
    have hlen := length_overwrite z hf
    obtain ⟨out, hout, hlength⟩ := ih fun g hg => by
      rw [hlen]
      exact hfits g (List.mem_cons_of_mem _ hg)
    refine ⟨out, ?_, hlength.trans hlen⟩
    rw [putAll_cons, put, if_pos hf]
    exact hout

/-- What no field is put to stays. -/
theorem slice_putAll_apart (h : putAll z buf fields = some out) {p n : Nat} (hn : p + n ≤ buf.length)
    (hapart : ∀ f ∈ fields, p + n ≤ f.1 ∨ f.1 + f.2.length ≤ p) : slice out p n = slice buf p n := by
  induction fields generalizing buf with
  | nil =>
    cases h
    rfl
  | cons f fields ih =>
    rw [putAll_cons] at h
    obtain ⟨next, hput, hrest⟩ := Option.bind_eq_some_iff.mp h
    have hlen := length_put z hput
    rw [ih hrest (hlen ▸ hn) fun g hg => hapart g (List.mem_cons_of_mem _ hg)]
    unfold put at hput
    split at hput
    · cases hput
      exact slice_overwrite_disjoint z hn (hapart f List.mem_cons_self)
    · cases hput

/-- Each of the fields is there. -/
theorem slice_putAll (h : putAll z buf fields = some out) (hapart : fields.Pairwise Apart) {f : Nat × List α}
    (hmem : f ∈ fields) : slice out f.1 f.2.length = f.2 := by
  induction fields generalizing buf with
  | nil => exact absurd hmem List.not_mem_nil
  | cons g fields ih =>
    rw [putAll_cons] at h
    obtain ⟨next, hput, hrest⟩ := Option.bind_eq_some_iff.mp h
    obtain ⟨hhead, htail⟩ := List.pairwise_cons.mp hapart
    obtain rfl | hmem := List.mem_cons.mp hmem
    · unfold put at hput
      split at hput
      · next hfits =>
        cases hput
        rw [slice_putAll_apart z hrest (by rw [length_overwrite z hfits]; exact hfits) fun g hg => hhead g hg,
          slice_overwrite_self]
      · cases hput
    · exact ih hrest htail hmem

end PutAll

end filedata
