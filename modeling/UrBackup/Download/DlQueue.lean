import Mathlib.Data.List.Basic
import UrBackup.Download.MaxFileId

namespace urbackup.serverdownload

open filebackup

inductive EFileClient where
  | Full
  | Chunked
deriving DecidableEq

inductive EQueueAction where
  | Fileclient
  | Quit
  | StopShadowcopy
  | StartShadowcopy
  | Skip
deriving DecidableEq

/-- How `preparePatchDownloadFiles` ends: with the files of the last backup, with no
such file, so that the whole file is to be loaded, or with an error. -/
inductive Prepared where
  | prepared
  | full_dl
  | prepare_error
deriving DecidableEq

/-- An entry of the queue. The entries are numbered by `seq` in the order in which
they were queued. -/
structure SQueueItem where
  seq : Nat
  id : Nat
  fn : String
  curr_path : String
  fileclient : EFileClient
  queued : Bool
  action : EQueueAction
  patch_dl_files : Option Prepared
  is_script : Bool
  metadata_only : Bool
  folder_items : Nat
  script_end : Bool
  script_random : Nat
  switched : Bool
deriving DecidableEq

namespace SQueueItem

variable (it : SQueueItem)

def isFull : Bool :=
  it.action = .Fileclient && it.fileclient = .Full

def isChunked : Bool :=
  it.action = .Fileclient && it.fileclient = .Chunked

/-- A full item that was requested from the client. -/
def isFullQueued : Bool :=
  it.isFull && it.queued

def isFullUnqueued : Bool :=
  it.isFull && !it.queued

def isQuitStop : Bool :=
  it.action = .Quit || it.action = .StopShadowcopy

/-- The download is made a full one. -/
def switch : SQueueItem :=
  { it with fileclient := .Full, switched := true }

end SQueueItem

def queue_items_full : Nat := 1

def queue_items_chunked : Nat := 4

/-- What the operations on the queue change besides it. -/
structure DlCounts where
  queue_size : Nat
  max_file_id : MaxFileId
deriving DecidableEq

namespace DlCounts

variable (c : DlCounts)

def postpone (needs_postpone : Bool) (id : Nat) : DlCounts :=
  if needs_postpone then { c with max_file_id := c.max_file_id.postponeDownloaded id } else c

def add (n : Nat) : DlCounts :=
  { c with queue_size := (c.queue_size + n) % 2 ^ 64 }

def sub (n : Nat) : DlCounts :=
  { c with queue_size := (c.queue_size + 2 ^ 64 - n) % 2 ^ 64 }

end DlCounts

section Insert

/-- Where an item goes, the index that is returned for it, and whether its id is
postponed. -/
structure Earliest where
  pos : Nat
  ret : Nat
  needs_postpone : Bool

/-- The search from the index `idx` on. An `earliest_other` at the end of the queue
is none. -/
def searchEarliest (id : Nat) (after_switched : Bool) :
    List SQueueItem → Nat → Option Nat → Bool → Bool → Earliest
  | [], idx, _, no_queued, needs_postpone =>
    if no_queued then ⟨0, 0, needs_postpone⟩ else ⟨idx, idx + 1, needs_postpone⟩
  | it :: rest, idx, earliest_other, no_queued, needs_postpone =>
    if it.isFull then
      if !it.queued then
        if !after_switched || !it.switched then
          match earliest_other with
          | some earlies_other_idx => ⟨earlies_other_idx, earlies_other_idx, needs_postpone⟩
          | none => ⟨idx, idx, needs_postpone⟩
        else
          searchEarliest id after_switched rest (idx + 1) (if rest = [] then none else some (idx + 1)) no_queued
            needs_postpone
      else
        searchEarliest id after_switched rest (idx + 1) none false
          (needs_postpone || (it.id ≠ npos && it.id > id))
    else
      searchEarliest id after_switched rest (idx + 1) (earliest_other.or (some idx)) no_queued
        (needs_postpone || (it.id ≠ npos && it.queued && it.id > id))

def insertAt (pos : Nat) (it : SQueueItem) (q : List SQueueItem) : List SQueueItem :=
  q.take pos ++ it :: q.drop pos

/-- The queue with the new item, and the index that is returned for it. -/
def insertFullQueueEarliest (ni : SQueueItem) (after_switched : Bool) (q : List SQueueItem) (c : DlCounts) :
    List SQueueItem × Nat × DlCounts :=
  let earliest := searchEarliest ni.id after_switched q 0 none true false
  (insertAt earliest.pos ni q, earliest.ret, c.postpone earliest.needs_postpone ni.id)

def hasFullQueuedAfter (q : List SQueueItem) : Bool :=
  q.any SQueueItem.isFullQueued

/-- The first quit or stop entry among the first `idx` ones, and the queue without
it. -/
def takeQuitStop : Nat → List SQueueItem → Option (SQueueItem × List SQueueItem)
  | 0, _ => none
  | _, [] => none
  | idx + 1, it :: q =>
    if it.isQuitStop then some (it, q)
    else
      match takeQuitStop idx q with
      | some (postpone_item, q) => some (postpone_item, it :: q)
      | none => none

/-- The quit and stop entries before the index `idx` are put right behind it. -/
def postponeQuitStop : Nat → List SQueueItem → List SQueueItem
  | 0, q => q
  | idx + 1, q =>
    match takeQuitStop (idx + 1) q with
    | none => q
    | some (postpone_item, q) => postponeQuitStop idx (insertAt (idx + 1) postpone_item q)

end Insert

section Queued

/-- An item goes behind all requested ones, with the quit and stop entries behind it. -/
def insertSwitched (ni : SQueueItem) (q : List SQueueItem) (c : DlCounts) : List SQueueItem × DlCounts :=
  let (q, idx, c) := insertFullQueueEarliest ni true q c
  (postponeQuitStop idx q, c)

def switchItem (it : SQueueItem) (q : List SQueueItem) (c : DlCounts) : List SQueueItem × DlCounts :=
  let (q, c) := insertSwitched it.switch q c
  (q, c.sub (queue_items_chunked - queue_items_full))

/-- The first full item that was not requested is marked as requested. -/
def queueFirstFull : List SQueueItem → Option SQueueItem × List SQueueItem
  | [] => (none, [])
  | it :: rest =>
    if it.isFullUnqueued then (some it, { it with queued := true } :: rest)
    else
      let (found, rest) := queueFirstFull rest
      (found, it :: rest)

/-- The loop of `getQueuedFileFull` behind the items `before`, while one chunked
item may still be prepared. -/
def queueFull (prepare : SQueueItem → Prepared) (c : DlCounts) :
    List SQueueItem → List SQueueItem → Option SQueueItem × List SQueueItem × DlCounts
  | before, [] => (none, before, c)
  | before, it :: rest =>
    if it.isChunked && !it.queued && it.patch_dl_files.isNone then
      let it := { it with patch_dl_files := some (prepare it) }
      if it.patch_dl_files = some .full_dl then
        if hasFullQueuedAfter rest then
          let (q, c) := switchItem it (before ++ rest) c
          let (found, q) := queueFirstFull q
          (found, q, c)
        else
          (some it.switch, before ++ { it.switch with queued := true } :: rest,
            c.sub (queue_items_chunked - queue_items_full))
      else
        let (found, rest) := queueFirstFull rest
        (found, before ++ it :: rest, c)
    else if it.isFullUnqueued then (some it, before ++ { it with queued := true } :: rest, c)
    else queueFull prepare c (before ++ [it]) rest

/-- The loop of `getQueuedFileChunked` behind the items `before`. The answer is the
item that was found, if any, or none where the loop is to be retried. -/
def queueChunked (prepare : SQueueItem → Prepared) :
    DlCounts → List SQueueItem → List SQueueItem → Option (Option SQueueItem) × List SQueueItem × DlCounts
  | c, before, [] => (some none, before, c)
  | c, before, it :: rest =>
    if it.isChunked && !it.queued then
      match it.patch_dl_files with
      | some .prepared => (some (some it), before ++ { it with queued := true } :: rest, c)
      | some _ => queueChunked prepare c (before ++ [it]) rest
      | none =>
        let it := { it with patch_dl_files := some (prepare it) }
        match it.patch_dl_files with
        | some .prepared => (some (some it), before ++ { it with queued := true } :: rest, c)
        | some .full_dl =>
          if hasFullQueuedAfter rest then (none, switchItem it (before ++ rest) c)
          else
            queueChunked prepare (c.sub (queue_items_chunked - queue_items_full)) (before ++ [it.switch]) rest
        | _ => queueChunked prepare c (before ++ [it]) rest
    else queueChunked prepare c (before ++ [it]) rest

/-- Every retry has one chunked item less. -/
def retryChunked (prepare : SQueueItem → Prepared) :
    Nat → List SQueueItem → DlCounts → Option SQueueItem × List SQueueItem × DlCounts
  | 0, q, c => (none, q, c)
  | fuel + 1, q, c =>
    match queueChunked prepare c [] q with
    | (some found, q, c) => (found, q, c)
    | (none, q, c) => retryChunked prepare fuel q c

end Queued

end urbackup.serverdownload
