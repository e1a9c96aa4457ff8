import Mathlib.Data.List.Lex
import Mathlib.Data.List.Sort
import Mathlib.Logic.Relation
import Mathlib.Order.Defs.LinearOrder
import UrBackup.FileList.StringTools
import UrBackup.Maps.SortedMap

namespace urbackup.servercleanup

open stringtools maps

/-- A row of `backup_images`. A full image has `incremental` zero, whatever its
`incremental_ref`. -/
structure Image where
  id : Nat
  clientid : Nat
  letter : Bytes
  incremental : Nat
  incremental_ref : Nat
  complete : Bool
  archived : Bool
  backuptime : Nat
deriving DecidableEq

/-- The tables the cleanup reads. A row of `assoc_images` is the image and the
system partition image saved with it. -/
structure Db where
  images : List Image
  assoc_images : List (Nat × Nat)
  clients : List Nat
  unique : (images.map Image.id).Nodup

namespace Db

variable (db : Db)

def getImage (backupid : Nat) : Option Image :=
  db.images.find? fun i => i.id == backupid

def getImageRefs (incremental_ref : Nat) : List Image :=
  db.images.filter fun i => i.incremental != 0 && i.incremental_ref == incremental_ref

def getAssocImageBackups (img_id : Nat) : List Nat :=
  (db.assoc_images.filter fun a => a.1 == img_id).map Prod.snd

def getImageArchived (backupid : Nat) : Bool :=
  match db.getImage backupid with
  | some i => i.archived
  | none => false

def SYSVOL : Bytes :=
  [83, 89, 83, 86, 79, 76]

def ESP : Bytes :=
  [69, 83, 80]

/-- The volume images of a client that the cleanup counts, oldest first. -/
def getNumImages (incremental : Bool) (clientid : Nat) : List Image :=
  (db.images.filter fun i => i.clientid == clientid && (i.incremental != 0) == incremental && i.complete &&
    i.letter != SYSVOL && i.letter != ESP && !i.archived).insertionSort fun i j => i.backuptime ≤ j.backuptime

def getFullNumImages (clientid : Nat) : List Image :=
  db.getNumImages false clientid

def getIncrNumImages (clientid : Nat) : List Image :=
  db.getNumImages true clientid

def getIncrNumImagesForBackup (backupid : Nat) : Nat :=
  match db.getImage backupid with
  | some b => db.images.countP fun i =>
      i.clientid == b.clientid && i.incremental != 0 && i.complete && i.letter == b.letter && !i.archived
  | none => 0

/-- Whether the path and the client name of an image are found. -/
def hasImageAndClient (backupid : Nat) : Bool :=
  match db.getImage backupid with
  | some i => db.clients.contains i.clientid
  | none => false

/-- The foreign keys of `assoc_images` are declared with `ON DELETE CASCADE`. -/
def removeImage (id : Nat) : Db where
  images := db.images.filter fun i => i.id != id
  assoc_images := db.assoc_images.filter fun a => a.1 != id && a.2 != id
  clients := db.clients
  unique := db.unique.sublist (List.filter_sublist.map Image.id)

end Db

/-- The images without `notit` grouped by letter. The letters are in the order of
their bytes. -/
def groupByLetter (notit : List Nat) (res : List Image) : SortedMap (List Nat) (List Nat) :=
  res.foldl (fun images_ids i =>
    let letter := i.letter.map UInt8.toNat
    if notit.contains i.id then images_ids
    else images_ids.insert letter ((images_ids.find letter).getD [] ++ [i.id])) SortedMap.empty

/-- The size of the largest group and its oldest image. Of groups of one size the
first letter counts. -/
def getImagesNum (res : List Image) (backupid_top : Nat) (notit : List Nat) : Nat × Nat :=
  (groupByLetter notit res).entries.foldl (fun top e =>
    if e.2.length > top.1 then (e.2.length, e.2.headD top.2) else top) (0, backupid_top)

def getImagesFullNum (db : Db) (clientid backupid_top : Nat) (notit : List Nat) : Nat × Nat :=
  getImagesNum (db.getFullNumImages clientid) backupid_top notit

def getImagesIncrNum (db : Db) (clientid backupid_top : Nat) (notit : List Nat) : Nat × Nat :=
  getImagesNum (db.getIncrNumImages clientid) backupid_top notit

section Find

/-- The images that refer to one are looked through until one is wanted, or one
is found among those that refer to it in turn. -/
def findRefs (wanted : Image → Bool) (find : Nat → Option Bool) : List Image → Option Bool
  | [] => some false
  | r :: refs =>
    if wanted r then some true
    else match find r.id with
      | some false => findRefs wanted find refs
      | out => out

/-- `none` where the recursion does not end. -/
def findImageRef (db : Db) (here : Nat → Bool) (wanted : Image → Bool) : Nat → Nat → Option Bool
  | 0, _ => none
  | fuel + 1, backupid =>
    if here backupid then some true
    else findRefs wanted (findImageRef db here wanted fuel) (db.getImageRefs backupid)

def findUncompleteImageRef (db : Db) : Nat → Nat → Option Bool :=
  findImageRef db (fun _ => false) fun r => !r.complete

def findLockedImageRef (isImageLockedFromCleanup : Nat → Bool) (db : Db) : Nat → Nat → Option Bool :=
  findImageRef db (fun _ => false) fun r => isImageLockedFromCleanup r.id

/-- The only one of the three that looks at the associated images. -/
def findArchivedImageRef (db : Db) : Nat → Nat → Option Bool :=
  findImageRef db (fun backupid => (db.getAssocImageBackups backupid).any db.getImageArchived) fun r => r.archived

end Find

structure ServerSettings where
  min_image_incr : Int
  max_image_incr : Int
  min_image_full : Int
  max_image_full : Int

/-- What a run of the cleanup meets: the images locked from it, and how the
deletions of image files end, the first of them first. -/
structure Surroundings where
  isImageLockedFromCleanup : Nat → Bool
  deleteImage : Nat → Bool

/-- The tables, and how many image files the run has tried to delete. -/
structure Cleanup where
  db : Db
  deletions : Nat

def max_removable_incr_images (settings : ServerSettings) (db : Db) (backupid del_in_stack : Nat) : Int :=
  let incr_image_num : Int := (db.getIncrNumImagesForBackup backupid - del_in_stack : Nat)
  if settings.min_image_incr < incr_image_num then incr_image_num - settings.min_image_incr
  else 0

section Remove

variable (settings : ServerSettings) (around : Surroundings)

/-- A call that does not return answers `none`, with the tables as they are when
it goes on. -/
abbrev Outcome := Option Bool × Cleanup

def removeRefs (force_remove : Bool) (del_incr_in_stack : Nat) (remove : Nat → Cleanup → Outcome) :
    List Image → Cleanup → Outcome
  | [], s => (some true, s)
  | r :: refs, s =>
    if !force_remove && max_removable_incr_images settings s.db r.id del_incr_in_stack ≤ 0 then (some false, s)
    else match remove r.id s with
      | (some true, s) => removeRefs force_remove del_incr_in_stack remove refs s
      | out => out

/-- Whether an associated image could be removed is not looked at. -/
def removeAssociated (remove : Nat → Cleanup → Outcome) : List Nat → Cleanup → Outcome
  | [], s => (some true, s)
  | a :: assoc, s =>
    match remove a s with
    | (some _, s) => removeAssociated remove assoc s
    | out => out

def removeRow (force_remove : Bool) (backupid : Nat) (s : Cleanup) : Outcome :=
  if s.db.hasImageAndClient backupid then
    if around.deleteImage s.deletions || force_remove then
      (some true, { db := s.db.removeImage backupid, deletions := s.deletions + 1 })
    else (some false, { s with deletions := s.deletions + 1 })
  else (some false, s)

def removeImage (force_remove remove_associated remove_references : Bool) : Nat → Nat → Nat → Cleanup → Outcome
  | 0, _, _, s => (none, s)
  | fuel + 1, del_incr_in_stack, backupid, s =>
    let refs :=
      if remove_references then
        removeRefs settings force_remove del_incr_in_stack
          (removeImage force_remove remove_associated remove_references fuel (del_incr_in_stack + 1))
          (s.db.getImageRefs backupid) s
      else (some (force_remove || (s.db.getImageRefs backupid).isEmpty), s)
    match refs with
    | (some true, s) =>
      let assoc :=
        if remove_associated then
          removeAssociated (removeImage force_remove remove_associated remove_references fuel del_incr_in_stack)
            (s.db.getAssocImageBackups backupid) s
        else (some true, s)
      match assoc with
      | (some _, s) => removeRow around force_remove backupid s
      | out => out
    | out => out

/-- The checks made on a candidate before its removal. -/
def isKept (fuel : Nat) (db : Db) (backupid : Nat) : Option Bool :=
  if around.isImageLockedFromCleanup backupid then some true
  else match findUncompleteImageRef db fuel backupid with
    | some false =>
      match findLockedImageRef around.isImageLockedFromCleanup db fuel backupid with
      | some false => findArchivedImageRef db fuel backupid
      | out => out
    | out => out

inductive Phase where
  | full
  | incr
deriving DecidableEq

/-- Where the cleanup of a client is: in the loop over the full images or in the
one over the incremental images that follows it, with the image last found and
the images the loop has given up. -/
structure Loop where
  phase : Phase
  backupid : Nat
  notit : List Nat
  s : Cleanup

inductive Turn where
  | again (l : Loop)
  | stop (out : Outcome)

/-- The tables after a turn. -/
def Turn.s : Turn → Cleanup
  | .again l => l.s
  | .stop out => out.2

variable (clientid : Nat) (minspace : Int)

namespace Loop

variable (l : Loop)

def getImagesNum : Nat × Nat :=
  match l.phase with
  | .full => getImagesFullNum l.s.db clientid l.backupid l.notit
  | .incr => getImagesIncrNum l.s.db clientid l.backupid l.notit

def limit : Int :=
  match l.phase with
  | .full => if minspace ≠ -1 then settings.min_image_full else settings.max_image_full
  | .incr => if minspace ≠ -1 then settings.min_image_incr else settings.max_image_incr

def del_incr_in_stack : Nat :=
  match l.phase with
  | .full => 0
  | .incr => 1

def isOver (image_num : Nat) : Bool :=
  (image_num : Int) ≤ l.limit settings minspace ∨ image_num = 0

end Loop

def turn (fuel : Nat) (l : Loop) : Turn :=
  let (image_num, backupid) := l.getImagesNum clientid
  if l.isOver settings minspace image_num then
    match l.phase with
    | .full => .again ⟨.incr, backupid, [], l.s⟩
    | .incr => .stop (some false, l.s)
  else
    match isKept around fuel l.s.db backupid with
    | none => .stop (none, l.s)
    | some true => .again ⟨l.phase, backupid, l.notit ++ [backupid], l.s⟩
    | some false =>
      match removeImage settings around false true true fuel l.del_incr_in_stack backupid l.s with
      | (some false, s) => .again ⟨l.phase, backupid, l.notit ++ [backupid], s⟩
      | out => .stop out

def turns (fuel : Nat) : Nat → Loop → Outcome
  | 0, l => (none, l.s)
  | n + 1, l =>
    match turn settings around clientid minspace fuel l with
    | .again l => turns fuel n l
    | .stop out => out

/-- `fuel` bounds the depth of each recursion, `n` the turns of the loops. -/
def cleanup_one_imagebackup_client (fuel n : Nat) (s : Cleanup) : Outcome :=
  turns settings around clientid minspace fuel n ⟨.full, 0, [], s⟩

end Remove

end urbackup.servercleanup
