import Mathlib.Data.BitVec
import Mathlib.Data.List.Basic
import Mathlib.Data.List.Sort
import Mathlib.Logic.Function.Basic

namespace urbackup.treediff

/-- The bytes of a `const char*` name up to its terminating NUL. -/
structure CString where
  bytes : List UInt8
  nul_free : 0 ∉ bytes
deriving DecidableEq

/-- `strcmp` on NUL-terminated strings; only the sign of the result is meant.
The end of a list stands for the terminator. -/
def strcmp : List UInt8 → List UInt8 → Int
  | [], [] => 0
  | [], b :: _ => -(b.toNat : Int)
  | a :: _, [] => a.toNat
  | a :: as, b :: bs => if a = b then strcmp as bs else (a.toNat : Int) - b.toNat

theorem strcmp_self (as : List UInt8) : strcmp as as = 0 := by
  induction as with
  | nil => rfl
  | cons a as ih => simpa [strcmp] using ih

private theorem toNat_ne {a b : UInt8} (h : a ≠ b) : a.toNat ≠ b.toNat :=
  fun he => h (UInt8.toNat_inj.mp he)

theorem strcmp_eq_zero {as bs : List UInt8} (ha : 0 ∉ as) (hb : 0 ∉ bs)
    (h : strcmp as bs = 0) : as = bs := by
  induction as generalizing bs with
  | nil =>
    cases bs with
    | nil => rfl
    | cons b bs =>
      have := toNat_ne (a := 0) (b := b) (fun h => hb (by simp [h]))
      simp [strcmp] at h
      simp_all
  | cons a as ih =>
    cases bs with
    | nil =>
      have := toNat_ne (a := 0) (b := a) (fun h => ha (by simp [h]))
      simp [strcmp] at h
      simp_all
    | cons b bs =>
      simp only [List.mem_cons, not_or] at ha hb
      unfold strcmp at h
      split at h
      · next heq => rw [heq, ih ha.2 hb.2 h]
      · next hne =>
        have := toNat_ne hne
        omega

theorem strcmp_trans {as bs cs : List UInt8} (ha : 0 ∉ as) (hb : 0 ∉ bs)
    (hab : strcmp as bs < 0) (hbc : strcmp bs cs < 0) : strcmp as cs < 0 := by
  induction as generalizing bs cs with
  | nil =>
    cases bs with
    | nil => simp [strcmp] at hab
    | cons b bs =>
      cases cs with
      | nil => simp only [strcmp] at hbc; omega
      | cons c cs =>
        have hb0 := toNat_ne (a := 0) (b := b) (fun h => hb (by simp [h]))
        simp only [UInt8.toNat_zero] at hb0
        simp only [strcmp] at hab hbc ⊢
        split at hbc
        · next heq => subst heq; omega
        · omega
  | cons a as ih =>
    cases bs with
    | nil => simp only [strcmp] at hab; omega
    | cons b bs =>
      cases cs with
      | nil => simp only [strcmp] at hbc; omega
      | cons c cs =>
        simp only [List.mem_cons, not_or] at ha hb
        unfold strcmp at hab hbc ⊢
        by_cases hab' : a = b
        · subst hab'
          rw [if_pos rfl] at hab
          by_cases hbc' : a = c
          · subst hbc'
            rw [if_pos rfl] at hbc ⊢
            exact ih ha.2 hb.2 hab hbc
          · rw [if_neg hbc'] at hbc ⊢
            exact hbc
        · rw [if_neg hab'] at hab
          by_cases hbc' : b = c
          · subst hbc'
            rwa [if_neg hab']
          · rw [if_neg hbc'] at hbc
            have hac : a ≠ c := by
              intro hac
              subst hac
              omega
            rw [if_neg hac]
            omega

theorem strcmp_swap (as bs : List UInt8) : strcmp as bs = -strcmp bs as := by
  induction as generalizing bs with
  | nil => cases bs <;> simp [strcmp]
  | cons a as ih =>
    cases bs with
    | nil => simp [strcmp]
    | cons b bs =>
      unfold strcmp
      by_cases h : a = b
      · subst h
        simpa using ih bs
      · rw [if_neg h, if_neg (Ne.symm h)]
        omega

/-- The `node_type` character: 0 for the root, otherwise 'f' or 'd'. -/
inductive NodeType where
  | root
  | file
  | dir
deriving DecidableEq, Repr

/-- The bytes behind `data`: file size and modification time for a file, the
modification time for a directory, a null pointer for the root. The node type
is read off the constructor, so a node cannot disagree with its data. -/
inductive NodeData where
  | root
  | file (filesize last_mod : BitVec 64)
  | dir (last_mod : BitVec 64)
deriving DecidableEq, Repr

def NodeData.getType : NodeData → NodeType
  | .root => .root
  | .file _ _ => .file
  | .dir _ => .dir

/-- A node of the `nodes` vector with its children in sibling order. `ptr` is
the node's position in the vector and stands for the `TreeNode*`; `id` is the
line of the list it was read from. The root has `ptr` 0 and shares `id` 0 with
the first line. -/
inductive TreeNode where
  | mk (ptr id : Nat) (name : CString) (data : NodeData) (children : List TreeNode)

namespace TreeNode

def ptr : TreeNode → Nat
  | mk ptr _ _ _ _ => ptr

def getId : TreeNode → Nat
  | mk _ id _ _ _ => id

def getName : TreeNode → CString
  | mk _ _ name _ _ => name

def getData : TreeNode → NodeData
  | mk _ _ _ data _ => data

def children : TreeNode → List TreeNode
  | mk _ _ _ _ children => children

def getType (t : TreeNode) : NodeType :=
  t.getData.getType

@[simp] theorem ptr_mk (p i : Nat) (n : CString) (d : NodeData) (cs : List TreeNode) :
    (mk p i n d cs).ptr = p := rfl

@[simp] theorem getId_mk (p i : Nat) (n : CString) (d : NodeData) (cs : List TreeNode) :
    (mk p i n d cs).getId = i := rfl

@[simp] theorem getData_mk (p i : Nat) (n : CString) (d : NodeData) (cs : List TreeNode) :
    (mk p i n d cs).getData = d := rfl

@[simp] theorem children_mk (p i : Nat) (n : CString) (d : NodeData) (cs : List TreeNode) :
    (mk p i n d cs).children = cs := rfl

def nameCompare (t other : TreeNode) : Int :=
  strcmp t.getName.bytes other.getName.bytes

def nameEquals (t other : TreeNode) : Bool :=
  strcmp t.getName.bytes other.getName.bytes == 0

/-- Nodes of different types never have equal data; otherwise `memcmp` compares
every byte of the type's record. -/
def dataEquals (t other : TreeNode) : Bool :=
  t.getData == other.getData

/-- The order of siblings that the merge loop of `gatherDiffs` expects: files
before directories, then by name. -/
def siblingCompare (c1 c2 : TreeNode) : Int :=
  if c1.getType = .file ∧ c2.getType = .dir then -1
  else if c1.getType = .dir ∧ c2.getType = .file then 1
  else c1.nameCompare c2

/-- Same type and same name: the two nodes occupy the same place below their
parents. -/
def SameKey (c1 c2 : TreeNode) : Prop :=
  c1.getType = c2.getType ∧ c1.getName = c2.getName

instance (c1 c2 : TreeNode) : Decidable (c1.SameKey c2) :=
  inferInstanceAs (Decidable (_ ∧ _))

theorem SameKey.symm {c1 c2 : TreeNode} (h : c1.SameKey c2) : c2.SameKey c1 :=
  ⟨h.1.symm, h.2.symm⟩

theorem SameKey.trans {c1 c2 c3 : TreeNode} (h : c1.SameKey c2) (h' : c2.SameKey c3) :
    c1.SameKey c3 :=
  ⟨h.1.trans h'.1, h.2.trans h'.2⟩

theorem nameCompare_eq_zero {c1 c2 : TreeNode} :
    c1.nameCompare c2 = 0 ↔ c1.getName = c2.getName := by
  constructor
  · intro h
    have := strcmp_eq_zero c1.getName.nul_free c2.getName.nul_free h
    cases hn : c1.getName
    cases hm : c2.getName
    simp_all
  · intro h
    simp [nameCompare, h, strcmp_self]

theorem nameEquals_iff {c1 c2 : TreeNode} :
    c1.nameEquals c2 = true ↔ c1.getName = c2.getName := by
  rw [← nameCompare_eq_zero]
  simp [nameEquals, nameCompare]

/-- A node the list reader hands out: never of the root's type. -/
def IsEntry (t : TreeNode) : Prop :=
  t.getType ≠ .root

instance (t : TreeNode) : Decidable t.IsEntry :=
  inferInstanceAs (Decidable (_ ≠ _))

theorem siblingCompare_eq_zero {c1 c2 : TreeNode} (h1 : c1.IsEntry) (h2 : c2.IsEntry) :
    c1.siblingCompare c2 = 0 ↔ c1.SameKey c2 := by
  unfold IsEntry at h1 h2
  unfold siblingCompare SameKey
  rw [← nameCompare_eq_zero]
  cases ht1 : c1.getType <;> cases ht2 : c2.getType <;> simp_all

/-- The strict sibling order. -/
def Precedes (c1 c2 : TreeNode) : Prop :=
  c1.siblingCompare c2 < 0

instance (c1 c2 : TreeNode) : Decidable (c1.Precedes c2) :=
  inferInstanceAs (Decidable (_ < _))

theorem Precedes.trans {c1 c2 c3 : TreeNode} (h1 : c1.IsEntry) (h2 : c2.IsEntry) (h3 : c3.IsEntry)
    (h : c1.Precedes c2) (h' : c2.Precedes c3) : c1.Precedes c3 := by
  have hn := @strcmp_trans _ _ c3.getName.bytes c1.getName.nul_free c2.getName.nul_free
  unfold IsEntry at h1 h2 h3
  unfold Precedes siblingCompare nameCompare at *
  cases ht1 : c1.getType <;> cases ht2 : c2.getType <;> cases ht3 : c3.getType <;> simp_all

theorem siblingCompare_swap {c1 c2 : TreeNode} (h1 : c1.IsEntry) (h2 : c2.IsEntry) :
    c1.siblingCompare c2 = -c2.siblingCompare c1 := by
  have hn := strcmp_swap c1.getName.bytes c2.getName.bytes
  unfold IsEntry at h1 h2
  unfold siblingCompare nameCompare
  cases ht1 : c1.getType <;> cases ht2 : c2.getType <;> simp_all

end TreeNode

/-- The two flags callers pass through `diffTrees`, and whether the server was
compiled for Windows (`_WIN32`). -/
structure DiffConfig where
  has_symbit : Bool
  is_windows : Bool
  win32 : Bool
deriving Repr

/-- What `gatherDiffs` writes: the `mapped_node` pointers of both trees, the
`subtree_changed` flags of the new tree, and the result vectors. A vector the
caller did not ask for (a null pointer) is `none`. -/
structure DiffState where
  mapped1 : Nat → Option Nat
  mapped2 : Nat → Option Nat
  changed : Nat → Bool
  diffs : List Nat
  modified_inplace_ids : Option (List Nat)
  dir_diffs : List Nat
  deleted_inplace_ids : Option (List Nat)

/-- `push_back` through a pointer that may be null. -/
def pushBack (ids : Option (List Nat)) (id : Nat) : Option (List Nat) :=
  ids.map (· ++ [id])

def changeIndicator (n : TreeNode) : BitVec 64 :=
  match n.getData with
  | .dir last_mod => last_mod
  | .file _ last_mod => last_mod
  | .root => 0

def isSymlink (cfg : DiffConfig) (n : TreeNode) : Bool :=
  let change_indicator := changeIndicator n
  if cfg.has_symbit then
    change_indicator &&& 0x4000000000000000#64 != 0
  else if cfg.is_windows then
    (change_indicator &&& 0x8000000000000000#64 == 0 || n.getType == .dir)
      && change_indicator &&& 0x7000000000000000#64 != 0
  else
    change_indicator &&& 0x8000000000000000#64 != 0

/-- Sets the flag on a node and its ancestors, stopping at the first one that
already carries it. The list is the chain of parent pointers, innermost first. -/
def subtreeChangedParent : List Nat → (Nat → Bool) → Nat → Bool
  | [], changed => changed
  | p :: parents, changed =>
    if changed p then changed
    else subtreeChangedParent parents (Function.update changed p true)

def DiffState.subtreeChanged (st : DiffState) (parents : List Nat) : DiffState :=
  { st with changed := subtreeChangedParent parents st.changed }

/-- The search over the unsorted root level: the sibling chain from the first
unmapped old child with the type and name of `c2`. -/
def findUnmapped (mapped1 : Nat → Option Nat) (c2 : TreeNode) : List TreeNode → Option (List TreeNode)
  | [] => none
  | sn :: rest =>
    if c2.getType = sn.getType ∧ c2.nameEquals sn ∧ mapped1 sn.ptr = none then some (sn :: rest)
    else findUnmapped mapped1 c2 rest

/-- The iterations of the loop in `gatherDiffs` that keep `c2` in place: the
old cursor `c1`, given as the rest of its sibling chain, moves past every child
that compares below `c2`. Returns the final `cmp`, the cursor and the state. -/
def advance (depth : Nat) (siblings : List TreeNode) (parents : List Nat) (c2 : TreeNode) :
    List TreeNode → DiffState → Int × List TreeNode × DiffState
  | [], st =>
    match (if depth = 0 then findUnmapped st.mapped1 c2 siblings else none) with
    | some sn => (0, sn, st)
    | none => (1, [], st)
  | c1 :: rest, st =>
    let cmp := c1.siblingCompare c2
    match (if cmp ≠ 0 ∧ depth = 0 then findUnmapped st.mapped1 c2 siblings else none) with
    | some sn => (0, sn, st)
    | none =>
      if cmp < 0 then advance depth siblings parents c2 rest (st.subtreeChanged parents)
      else (cmp, c1 :: rest, st)

/-- Both nodes are files with different data. -/
def DiffState.modifiedFile (st : DiffState) (cfg : DiffConfig) (parents : List Nat) (c1 c2 : TreeNode) :
    DiffState :=
  let st := if c1.getType = c2.getType then
      { st with modified_inplace_ids := pushBack st.modified_inplace_ids c2.getId } else st
  let st := if c1.getType = c2.getType ∧ isSymlink cfg c1 = isSymlink cfg c2 then
      { st with deleted_inplace_ids := pushBack st.deleted_inplace_ids c1.getId } else st
  { st with diffs := st.diffs ++ [c2.getId] }.subtreeChanged parents

/-- A new node without counterpart. -/
def DiffState.inserted (st : DiffState) (parents : List Nat) (c2 : TreeNode) : DiffState :=
  { st with diffs := st.diffs ++ [c2.getId] }.subtreeChanged parents

def DiffState.setMapped (st : DiffState) (c1 c2 : TreeNode) : DiffState :=
  { st with
    mapped2 := Function.update st.mapped2 c2.ptr (some c1.ptr)
    mapped1 := Function.update st.mapped1 c1.ptr (some c2.ptr) }

/-- A directory whose own record changed: reported, and its parents flagged. -/
def DiffState.dirDiff (st : DiffState) (parents : List Nat) (c2 : TreeNode) : DiffState :=
  { st with dir_diffs := st.dir_diffs ++ [c2.getId] }.subtreeChanged parents

/-- Below a symbolic link relative targets would break, so its parents count as
changed everywhere but on Windows. -/
def DiffState.symlinkGuard (st : DiffState) (cfg : DiffConfig) (parents : List Nat) (c2 : TreeNode) :
    DiffState :=
  if !cfg.win32 && isSymlink cfg c2 then st.subtreeChanged parents else st

mutual

/-- `parents` are the ancestors of `t2`. -/
def gatherDiffs (cfg : DiffConfig) (t1 : TreeNode) :
    TreeNode → Nat → List Nat → DiffState → DiffState
  | .mk ptr _ _ _ cs, depth, parents, st =>
    gatherDiffsLoop cfg t1.children depth (ptr :: parents) cs t1.children st

/-- The loop over the new children `c2`, with the old cursor as a sibling chain. -/
def gatherDiffsLoop (cfg : DiffConfig) (siblings : List TreeNode) (depth : Nat) (parents : List Nat) :
    List TreeNode → List TreeNode → DiffState → DiffState
  | [], _, st => st
  | c2 :: c2s, c1s, st =>
    match advance depth siblings parents c2 c1s st with
    | (_, [], st) => gatherDiffsLoop cfg siblings depth parents c2s [] (st.inserted parents c2)
    | (cmp, c1 :: rest, st) =>
      if cmp = 0 then
        let equal_dir := c1.getType == .dir && c2.getType == .dir
        let data_equals := c1.dataEquals c2
        let st := if equal_dir && !data_equals then st.dirDiff parents c2 else st
        let st :=
          if equal_dir || data_equals then
            (gatherDiffs cfg c1 c2 (depth + 1) parents st).setMapped c1 c2
          else st.modifiedFile cfg parents c1 c2
        gatherDiffsLoop cfg siblings depth parents c2s rest (st.symlinkGuard cfg parents c2)
      else
        gatherDiffsLoop cfg siblings depth parents c2s (c1 :: rest) (st.inserted parents c2)

end

mutual

def gatherDeletes (mapped1 : Nat → Option Nat) : TreeNode → List Nat → List Nat
  | .mk _ _ _ _ cs, deleted_ids => gatherDeletesLoop mapped1 cs deleted_ids

def gatherDeletesLoop (mapped1 : Nat → Option Nat) : List TreeNode → List Nat → List Nat
  | [], deleted_ids => deleted_ids
  | c1 :: c1s, deleted_ids =>
    let deleted_ids := if mapped1 c1.ptr = none then deleted_ids ++ [c1.getId] else deleted_ids
    gatherDeletesLoop mapped1 c1s (gatherDeletes mapped1 c1 deleted_ids)

end

mutual

/-- Counts a subtree, giving up as soon as `limit` is exceeded. -/
def getTreesize (limit : Nat) : TreeNode → Nat
  | .mk _ _ _ _ cs => getTreesizeLoop limit cs 1

def getTreesizeLoop (limit : Nat) : List TreeNode → Nat → Nat
  | [], treesize => treesize
  | c :: cs, treesize =>
    let treesize := treesize + getTreesize limit c
    if treesize > limit then treesize else getTreesizeLoop limit cs treesize

end

mutual

def gatherLargeUnchangedSubtrees (st : DiffState) : TreeNode → List Nat → List Nat
  | .mk _ _ _ _ cs, large => gatherLargeLoop st cs large

def gatherLargeLoop (st : DiffState) : List TreeNode → List Nat → List Nat
  | [], large => large
  | c2 :: c2s, large =>
    if !st.changed c2.ptr && (st.mapped2 c2.ptr).isSome && getTreesize 10 c2 > 10 then
      gatherLargeLoop st c2s (large ++ [c2.getId])
    else gatherLargeLoop st c2s (gatherLargeUnchangedSubtrees st c2 large)

end

/-- `std::sort` on a vector of ids. -/
def sortIds (ids : List Nat) : List Nat :=
  ids.insertionSort (· ≤ ·)

/-- Everything `diffTrees` hands back. -/
structure DiffResult where
  diffs : List Nat
  deleted_ids : Option (List Nat)
  large_unchanged_subtrees : Option (List Nat)
  modified_inplace_ids : Option (List Nat)
  dir_diffs : List Nat
  deleted_inplace_ids : Option (List Nat)

/-- The state before the first node is visited. -/
def DiffState.start (modified_inplace_ids : Option (List Nat)) (dir_diffs : List Nat)
    (deleted_inplace_ids : Option (List Nat)) : DiffState :=
  { mapped1 := fun _ => none, mapped2 := fun _ => none, changed := fun _ => false, diffs := []
    modified_inplace_ids, dir_diffs, deleted_inplace_ids }

/-- `diffTrees` on the roots of the two node vectors that `readTree` built. -/
def diffTrees (cfg : DiffConfig) (t1 t2 : TreeNode) (deleted_ids large_unchanged_subtrees
    modified_inplace_ids : Option (List Nat)) (dir_diffs : List Nat)
    (deleted_inplace_ids : Option (List Nat)) : DiffResult :=
  let st := gatherDiffs cfg t1 t2 0 []
    (DiffState.start modified_inplace_ids dir_diffs deleted_inplace_ids)
  { diffs := sortIds st.diffs
    deleted_ids := deleted_ids.map fun ids => sortIds (gatherDeletes st.mapped1 t1 ids)
    large_unchanged_subtrees :=
      large_unchanged_subtrees.map fun ids => sortIds (gatherLargeUnchangedSubtrees st t2 ids)
    modified_inplace_ids := st.modified_inplace_ids.map sortIds
    dir_diffs := sortIds st.dir_diffs
    deleted_inplace_ids := st.deleted_inplace_ids.map sortIds }

end urbackup.treediff
