import Mathlib.Data.List.Basic
import Mathlib.Logic.Function.Basic

namespace dirtree

variable {Name Data : Type}

/-- What a name in a directory stands for. Directories are numbered. -/
inductive Entry (Name Data : Type)
  | dir (i : Nat)
  | file (data : Data)
  | symlink (target : List Name)
  deriving DecidableEq

/-- The directories of a file system, with the number that the next one gets. -/
structure Tree (Name Data : Type) where
  entries : Nat → Name → Option (Entry Name Data)
  next : Nat

def root : Nat := 0

namespace Tree

variable (t : Tree Name Data)

/-- The directory at the end of a path, where `links` finds the one of a path that goes on at
a symbolic link. -/
def follow (links : List Name → Option Nat) : Nat → List Name → Option Nat
  | i, [] => some i
  | i, n :: path =>
    match t.entries i n with
    | some (.dir j) => follow links j path
    | some (.symlink target) => links (target ++ path)
    | _ => none

/-- The directory that a path leads to, through a limited number of symbolic links. -/
def resolve : Nat → List Name → Option Nat
  | 0 => t.follow (fun _ => none) root
  | limit + 1 => t.follow (resolve limit) root

/-- The directory and the name in it that a path stands for. A link at its end is not
followed. -/
def place (limit : Nat) (path : List Name) : Option (Nat × Name) :=
  match path.getLast? with
  | none => none
  | some n => (t.resolve limit path.dropLast).map fun i => (i, n)

def lookup (limit : Nat) (path : List Name) : Option (Entry Name Data) :=
  (t.place limit path).bind fun p => t.entries p.1 p.2

variable [DecidableEq Name]

/-- The tree with another entry, or with none, at a place. -/
def put (i : Nat) (n : Name) (e : Option (Entry Name Data)) : Tree Name Data :=
  { t with entries := fun i' n' => if i' = i ∧ n' = n then e else t.entries i' n' }

/-- A new entry, where there is none. -/
def create (limit : Nat) (path : List Name) (e : Entry Name Data) : Option (Tree Name Data) :=
  match t.place limit path with
  | none => none
  | some (i, n) =>
    match t.entries i n with
    | none => some (t.put i n (some e))
    | some _ => none

def mkdir (limit : Nat) (path : List Name) : Option (Tree Name Data) :=
  (t.create limit path (.dir t.next)).map fun t => { t with next := t.next + 1 }

def symlink (limit : Nat) (target path : List Name) : Option (Tree Name Data) :=
  t.create limit path (.symlink target)

def readlink (limit : Nat) (path : List Name) : Option (List Name) :=
  match t.lookup limit path with
  | some (.symlink target) => some target
  | _ => none

/-- Removes what is not a directory. -/
def unlink (limit : Nat) (path : List Name) : Option (Tree Name Data) :=
  match t.place limit path with
  | none => none
  | some (i, n) =>
    match t.entries i n with
    | none | some (.dir _) => none
    | some _ => some (t.put i n none)

/-- Moves an entry to where there is none. -/
def rename (limit : Nat) (old new : List Name) : Option (Tree Name Data) :=
  match t.place limit old, t.place limit new with
  | some (i, n), some (i', n') =>
    match t.entries i n, t.entries i' n' with
    | some e, none => some ((t.put i n none).put i' n' (some e))
    | _, _ => none
  | _, _ => none

end Tree

section Leads

/-- What a path shows, however many symbolic links it goes through. -/
inductive Leads (t : Tree Name Data) : Nat → List Name → Entry Name Data → Prop
  | here (i : Nat) : Leads t i [] (.dir i)
  | file {i : Nat} {n : Name} {d : Data} (h : t.entries i n = some (.file d)) : Leads t i [n] (.file d)
  | dir {i j : Nat} {n : Name} {path : List Name} {x : Entry Name Data} (h : t.entries i n = some (.dir j)) (hpath : Leads t j path x) :
      Leads t i (n :: path) x
  | symlink {i : Nat} {n : Name} {target path : List Name} {x : Entry Name Data} (h : t.entries i n = some (.symlink target))
      (hpath : Leads t root (target ++ path) x) : Leads t i (n :: path) x

variable {t t' : Tree Name Data} {i j : Nat} {path : List Name} {x : Entry Name Data}

theorem Leads.append {path' : List Name} (h : Leads t i path (.dir j)) (h' : Leads t j path' x) : Leads t i (path ++ path') x := by
  generalize hx : Entry.dir j = y at h
  induction h with
  | here i =>
    cases hx
    exact h'
  | file h => cases hx
  | dir h _ ih => exact .dir h (ih hx)
  | symlink h _ ih =>
    refine .symlink h ?_
    have hrest := ih hx
    rwa [List.append_assoc] at hrest

theorem leads_dir {n : Name} (h : t.entries i n = some (.dir j)) : Leads t i (n :: path) x ↔ Leads t j path x := by
  constructor
  · intro hleads
    cases hleads with
    | file h' => cases h.symm.trans h'
    | dir h' hpath =>
      cases h.symm.trans h'
      exact hpath
    | symlink h' _ => cases h.symm.trans h'
  · exact .dir h

theorem not_leads {n : Name} (h : t.entries i n = none) : ¬ Leads t i (n :: path) x := by
  intro hleads
  cases hleads with
  | file h' => cases h.symm.trans h'
  | dir h' _ => cases h.symm.trans h'
  | symlink h' _ => cases h.symm.trans h'

/-- Every entry of one tree is one of the other tree. -/
def Tree.Le (t t' : Tree Name Data) : Prop :=
  ∀ i n e, t.entries i n = some e → t'.entries i n = some e

theorem Tree.le_refl (t : Tree Name Data) : t.Le t := fun _ _ _ h => h

theorem Tree.Le.trans {t'' : Tree Name Data} (h : t.Le t') (h' : t'.Le t'') : t.Le t'' :=
  fun i n e he => h' i n e (h i n e he)

theorem Leads.mono (hle : t.Le t') (h : Leads t i path x) : Leads t' i path x := by
  induction h with
  | here i => exact .here i
  | file h => exact .file (hle _ _ _ h)
  | dir h _ ih => exact .dir (hle _ _ _ h) ih
  | symlink h _ ih => exact .symlink (hle _ _ _ h) ih

/-- A directory that has been moved is shown as before where a symbolic link stands that leads
to it. -/
theorem Leads.redirect {pi : Nat} {pn : Name} {target : List Name} (hold : t.entries pi pn = some (.dir j))
    (hothers : ∀ i n e, ¬ (i = pi ∧ n = pn) → t.entries i n = some e → t'.entries i n = some e)
    (hlink : t'.entries pi pn = some (.symlink target)) (htarget : Leads t' root target (.dir j)) (h : Leads t i path x) :
    Leads t' i path x := by
  induction h with
  | here i => exact .here i
  | file h =>
    refine .file (hothers _ _ _ ?_ h)
    rintro ⟨rfl, rfl⟩
    cases hold.symm.trans h
  | @dir i k n path x h _ ih =>
    by_cases hplace : i = pi ∧ n = pn
    · obtain ⟨rfl, rfl⟩ := hplace
      obtain rfl : j = k := by
        cases hold.symm.trans h
        rfl
      exact .symlink hlink (htarget.append ih)
    · exact .dir (hothers _ _ _ hplace h) ih
  | symlink h _ ih =>
    refine .symlink (hothers _ _ _ ?_ h) ih
    rintro ⟨rfl, rfl⟩
    cases hold.symm.trans h

end Leads

section Resolve

variable {t t' : Tree Name Data} {i j limit : Nat} {n : Name} {path : List Name}

theorem follow_mono (hle : t.Le t') {links links' : List Name → Option Nat} (hlinks : ∀ path j, links path = some j → links' path = some j)
    (h : t.follow links i path = some j) : t'.follow links' i path = some j := by
  induction path generalizing i with
  | nil => exact h
  | cons n path ih =>
    rw [Tree.follow] at h ⊢
    split at h
    · next k hentry =>
      rw [hle _ _ _ hentry]
      exact ih h
    · next target hentry =>
      rw [hle _ _ _ hentry]
      exact hlinks _ _ h
    · cases h

theorem resolve_mono (hle : t.Le t') (h : t.resolve limit path = some j) : t'.resolve limit path = some j := by
  induction limit generalizing path j with
  | zero => exact follow_mono hle (fun _ _ h => h) h
  | succ limit ih => exact follow_mono hle (fun _ _ h => ih h) h

theorem follow_leads {links : List Name → Option Nat} (hlinks : ∀ path j, links path = some j → Leads t root path (.dir j))
    (h : t.follow links i path = some j) : Leads t i path (.dir j) := by
  induction path generalizing i with
  | nil =>
    obtain rfl := Option.some.inj h
    exact .here i
  | cons n path ih =>
    rw [Tree.follow] at h
    split at h
    · next k hentry => exact .dir hentry (ih h)
    · next target hentry => exact .symlink hentry (hlinks _ _ h)
    · cases h

theorem resolve_leads (h : t.resolve limit path = some j) : Leads t root path (.dir j) := by
  induction limit generalizing path j with
  | zero => exact follow_leads (fun _ _ h => by cases h) h
  | succ limit ih => exact follow_leads (fun _ _ h => ih h) h

theorem follow_concat {links : List Name → Option Nat} {k : Nat}
    (hlinks : ∀ path, links path = some j → links (path ++ [n]) = some k) (hentry : t.entries j n = some (.dir k))
    (h : t.follow links i path = some j) : t.follow links i (path ++ [n]) = some k := by
  induction path generalizing i with
  | nil =>
    obtain rfl := Option.some.inj h
    rw [List.nil_append, Tree.follow, hentry]
    rfl
  | cons m path ih =>
    rw [Tree.follow] at h
    rw [List.cons_append, Tree.follow]
    split at h
    · exact ih h
    · rw [← List.append_assoc]
      exact hlinks _ h
    · cases h

/-- One directory further. -/
theorem resolve_concat {k : Nat} (h : t.resolve limit path = some j) (hentry : t.entries j n = some (.dir k)) :
    t.resolve limit (path ++ [n]) = some k := by
  induction limit generalizing path with
  | zero => exact follow_concat (fun _ h => by cases h) hentry h
  | succ limit ih => exact follow_concat (fun _ h => ih h) hentry h

theorem follow_concat_inv {links : List Name → Option Nat}
    (hlinks : ∀ path, links (path ++ [n]) = some j → ∃ k e, links path = some k ∧ t.entries k n = some e ∧ ∀ d, e ≠ .file d)
    (h : t.follow links i (path ++ [n]) = some j) :
    ∃ k e, t.follow links i path = some k ∧ t.entries k n = some e ∧ ∀ d, e ≠ .file d := by
  induction path generalizing i with
  | nil =>
    rw [List.nil_append, Tree.follow] at h
    split at h
    · next k hentry => exact ⟨i, _, rfl, hentry, fun _ => nofun⟩
    · next target hentry => exact ⟨i, _, rfl, hentry, fun _ => nofun⟩
    · cases h
  | cons m path ih =>
    rw [List.cons_append, Tree.follow] at h
    rw [Tree.follow]
    split at h
    · exact ih h
    · rw [← List.append_assoc] at h
      exact hlinks _ h
    · cases h

/-- What the last name of the path of a directory stands for. -/
theorem resolve_concat_inv (h : t.resolve limit (path ++ [n]) = some j) :
    ∃ k e, t.resolve limit path = some k ∧ t.entries k n = some e ∧ ∀ d, e ≠ .file d := by
  induction limit generalizing path with
  | zero => exact follow_concat_inv (fun _ h => by cases h) h
  | succ limit ih => exact follow_concat_inv (fun _ h => ih h) h

theorem place_concat : t.place limit (path ++ [n]) = (t.resolve limit path).map fun i => (i, n) := by
  simp [Tree.place]

/-- The last name of a path is the one that is looked for. -/
theorem eq_concat_of_place (h : t.place limit path = some (i, n)) : path = path.dropLast ++ [n] ∧ t.resolve limit path.dropLast = some i := by
  rw [Tree.place] at h
  split at h
  · cases h
  · next m hlast =>
    obtain ⟨k, hk, heq⟩ := Option.map_eq_some_iff.mp h
    obtain ⟨rfl, rfl⟩ : k = i ∧ m = n := by simpa using heq
    exact ⟨(List.dropLast_append_getLast? m hlast).symm, hk⟩

end Resolve

section Changes

variable [DecidableEq Name] {t t' : Tree Name Data} {i limit : Nat} {n : Name} {path : List Name} {e : Entry Name Data}

@[simp] theorem entries_put (o : Option (Entry Name Data)) (i' : Nat) (n' : Name) :
    (t.put i n o).entries i' n' = if i' = i ∧ n' = n then o else t.entries i' n' := rfl

theorem le_put (hnone : t.entries i n = none) : t.Le (t.put i n (some e)) := by
  intro i' n' e' he
  rw [entries_put, if_neg]
  · exact he
  · rintro ⟨rfl, rfl⟩
    cases hnone.symm.trans he

theorem create_spec (h : t.create limit path e = some t') :
    ∃ i n, t.place limit path = some (i, n) ∧ t.entries i n = none ∧ t' = t.put i n (some e) := by
  rw [Tree.create] at h
  split at h
  · cases h
  · next i n hplace =>
    split at h
    · next hnone => exact ⟨i, n, hplace, hnone, (Option.some.inj h).symm⟩
    · cases h

/-- The tree without an entry is part of every tree that has the others. -/
theorem put_none_le (hothers : ∀ i' n' e', ¬ (i' = i ∧ n' = n) → t.entries i' n' = some e' → t'.entries i' n' = some e') :
    (t.put i n none).Le t' := by
  intro i' n' e' he
  rw [entries_put] at he
  split at he
  · cases he
  · next hne => exact hothers i' n' e' hne he

theorem put_none_mono (hle : t.Le t') : (t.put i n none).Le (t'.put i n none) := by
  intro i' n' e' he
  rw [entries_put] at he ⊢
  split at he
  · cases he
  · next hne =>
    rw [if_neg hne]
    exact hle _ _ _ he

theorem le_create (h : t.create limit path e = some t') : t.Le t' := by
  obtain ⟨i, n, -, hnone, rfl⟩ := create_spec h
  exact le_put hnone

theorem le_mkdir (h : t.mkdir limit path = some t') : t.Le t' := by
  obtain ⟨t₁, hcreate, rfl⟩ := Option.map_eq_some_iff.mp h
  have hle : t.Le t₁ := le_create hcreate
  exact hle

/-- A new directory is found without the entry if its parent is. -/
theorem resolve_mkdir {pi : Nat} {pn : Name} {j : Nat} (hsome : t.entries pi pn ≠ none)
    (hparent : (t.put pi pn none).resolve limit path = some j) (h : t.mkdir limit (path ++ [n]) = some t') :
    ∃ k, (t'.put pi pn none).resolve limit (path ++ [n]) = some k := by
  have hle := le_mkdir h
  obtain ⟨t₁, hcreate, rfl⟩ := Option.map_eq_some_iff.mp h
  obtain ⟨i, m, hplace, hnone, rfl⟩ := create_spec hcreate
  have hresolve := resolve_mono (put_none_le fun _ _ _ _ he => he) hparent
  rw [place_concat, hresolve] at hplace
  obtain ⟨rfl, rfl⟩ : j = i ∧ n = m := by simpa using hplace
  refine ⟨t.next, resolve_concat (resolve_mono (put_none_mono hle) hparent) ?_⟩
  have hne : ¬ (j = pi ∧ n = pn) := by
    rintro ⟨rfl, rfl⟩
    exact hsome hnone
  simp [Tree.put, hne]

theorem rename_spec {old new : List Name} (h : t.rename limit old new = some t') : ∃ i n e i' n', t.place limit old = some (i, n) ∧
    t.entries i n = some e ∧ t.place limit new = some (i', n') ∧ t.entries i' n' = none ∧
      t' = (t.put i n none).put i' n' (some e) := by
  rw [Tree.rename] at h
  split at h
  · next i n i' n' hold hnew =>
    split at h
    · next e he hnone => exact ⟨i, n, e, i', n', hold, he, hnew, hnone, (Option.some.inj h).symm⟩
    · cases h
  · cases h

end Changes

section Moves

variable [DecidableEq Name]

/-- A directory and a free place for it. The parents of both places are found without the
entry of the directory. -/
structure Move (t : Tree Name Data) (limit : Nat) where
  srcParent : List Name
  srcName : Name
  dstParent : List Name
  dstName : Name
  /-- the directory the source is in -/
  i : Nat
  /-- the directory of the new place -/
  k : Nat
  /-- the directory that is moved -/
  j : Nat
  src_found : (t.put i srcName none).resolve limit srcParent = some i
  src_dir : t.entries i srcName = some (.dir j)
  dst_found : (t.put i srcName none).resolve limit dstParent = some k
  dst_free : t.entries k dstName = none

namespace Move

variable {t : Tree Name Data} {limit : Nat} (mv : Move t limit)

def src : List Name := mv.srcParent ++ [mv.srcName]

def dst : List Name := mv.dstParent ++ [mv.dstName]

/-- The tree after the move. -/
def moved : Tree Name Data :=
  (t.put mv.i mv.srcName none).put mv.k mv.dstName (some (.dir mv.j))

/-- The tree with a link in the old place. -/
def linked : Tree Name Data :=
  mv.moved.put mv.i mv.srcName (some (.symlink mv.dst))

theorem places_ne : ¬ (mv.k = mv.i ∧ mv.dstName = mv.srcName) := by
  rintro ⟨hk, hn⟩
  have hfree := mv.dst_free
  rw [hk, hn, mv.src_dir] at hfree
  cases hfree

theorem le_moved : (t.put mv.i mv.srcName none).Le mv.moved := by
  refine le_put ?_
  rw [entries_put, if_neg mv.places_ne]
  exact mv.dst_free

theorem le_linked : (t.put mv.i mv.srcName none).Le mv.linked := by
  refine put_none_le fun i n e hne he => ?_
  rw [linked, entries_put, if_neg hne]
  exact mv.le_moved i n e (by rwa [entries_put, if_neg hne])

theorem src_gone : mv.moved.entries mv.i mv.srcName = none := by
  rw [moved, entries_put, if_neg (fun h => mv.places_ne ⟨h.1.symm, h.2.symm⟩), entries_put, if_pos ⟨rfl, rfl⟩]

theorem place_src {t' : Tree Name Data} (hle : (t.put mv.i mv.srcName none).Le t') : t'.place limit mv.src = some (mv.i, mv.srcName) := by
  rw [src, place_concat, resolve_mono hle mv.src_found]
  rfl

theorem place_dst {t' : Tree Name Data} (hle : (t.put mv.i mv.srcName none).Le t') : t'.place limit mv.dst = some (mv.k, mv.dstName) := by
  rw [dst, place_concat, resolve_mono hle mv.dst_found]
  rfl

theorem dst_moved : mv.moved.entries mv.k mv.dstName = some (.dir mv.j) := by
  rw [moved, entries_put, if_pos ⟨rfl, rfl⟩]

theorem resolve_dst {t' : Tree Name Data} (hle : (t.put mv.i mv.srcName none).Le t') (hdst : t'.entries mv.k mv.dstName = some (.dir mv.j)) :
    t'.resolve limit mv.dst = some mv.j :=
  resolve_concat (resolve_mono hle mv.dst_found) hdst

/-- Without the moved directory there is room for the link. -/
theorem symlink_moved : mv.moved.symlink limit mv.dst mv.src = some mv.linked := by
  simp only [Tree.symlink, Tree.create, mv.place_src mv.le_moved, mv.src_gone, linked]

theorem readlink_moved : mv.moved.readlink limit mv.src = none := by
  simp only [Tree.readlink, Tree.lookup, mv.place_src mv.le_moved, Option.bind_some, mv.src_gone]

theorem unlink_moved : mv.moved.unlink limit mv.src = none := by
  simp only [Tree.unlink, mv.place_src mv.le_moved, mv.src_gone]

theorem readlink_linked : mv.linked.readlink limit mv.src = some mv.dst := by
  have hlink : mv.linked.entries mv.i mv.srcName = some (.symlink mv.dst) := by
    rw [linked, entries_put, if_pos ⟨rfl, rfl⟩]
  simp only [Tree.readlink, Tree.lookup, mv.place_src mv.le_linked, Option.bind_some, hlink]

/-- With the link every path shows what it has shown before the move. -/
theorem leads_linked {i : Nat} {path : List Name} {x : Entry Name Data} (h : Leads t i path x) : Leads mv.linked i path x := by
  have hothers : ∀ i n e, ¬ (i = mv.i ∧ n = mv.srcName) → t.entries i n = some e → mv.linked.entries i n = some e := fun i n e hne he =>
    mv.le_linked i n e (by rwa [entries_put, if_neg hne])
  refine @Leads.redirect _ _ _ _ _ _ _ _ _ _ mv.dst mv.src_dir hothers ?_ (@resolve_leads _ _ _ _ limit _ ?_) h
  · rw [linked, entries_put, if_pos ⟨rfl, rfl⟩]
  · refine mv.resolve_dst mv.le_linked ?_
    rw [linked, entries_put, if_neg mv.places_ne]
    exact mv.dst_moved

/-- The move can be taken back. -/
theorem rename_back {t' : Tree Name Data} (h : mv.moved.rename limit mv.dst mv.src = some t') : t.Le t' := by
  obtain ⟨i, n, e, i', n', hold, he, hnew, -, rfl⟩ := rename_spec h
  obtain ⟨rfl, rfl⟩ : mv.k = i ∧ mv.dstName = n := by simpa [mv.place_dst mv.le_moved] using hold
  obtain ⟨rfl, rfl⟩ : mv.i = i' ∧ mv.srcName = n' := by simpa [mv.place_src mv.le_moved] using hnew
  obtain rfl : .dir mv.j = e := Option.some.inj (mv.dst_moved.symm.trans he)
  intro i n e he
  rw [entries_put]
  split
  · next heq =>
    obtain ⟨rfl, rfl⟩ := heq
    exact mv.src_dir.symm.trans he
  · next hne =>
    rw [entries_put, if_neg]
    · exact mv.le_moved i n e (by rwa [entries_put, if_neg hne])
    · rintro ⟨rfl, rfl⟩
      cases mv.dst_free.symm.trans he

theorem exists_rename_back : ∃ t', mv.moved.rename limit mv.dst mv.src = some t' := by
  simp only [Tree.rename, mv.place_dst mv.le_moved, mv.place_src mv.le_moved, mv.dst_moved, mv.src_gone]
  exact ⟨_, rfl⟩

end Move

end Moves

end dirtree
