import UrBackup.Download.DlQueue

namespace urbackup.serverdownload

open filebackup

/-- A request that was sent before its file is loaded. -/
structure QueuedFile where
  fn : String
  finish_script : Bool
deriving DecidableEq

/-- The requests in the order in which they are answered. After a request that
could not be sent the connection is made again or given up. -/
structure FileClient where
  queued : List QueuedFile
  send_failed : Bool
  assert_failed : Bool

inductive Worker where
  | idle
  | loading (curr : SQueueItem)
  | stopped

/-- What the worker does: the client commands of the shadow copies, the requests of
the worker loop, and the entries it is done with. -/
inductive Trace where
  | start_shadowcopy (it : SQueueItem)
  | stop_shadowcopy (it : SQueueItem)
  | load (it : SQueueItem)
  | done (it : SQueueItem)
deriving DecidableEq

/-- The number `seqs` is the next one of an entry. -/
structure ServerDownloadThread where
  server_token : String
  incremental_num : Nat
  dl_queue : List SQueueItem
  counts : DlCounts
  is_offline : Bool
  skipping : Bool
  fc : FileClient
  worker : Worker
  seqs : Nat
  issued : List SQueueItem
  trace : List Trace

namespace SQueueItem

def new (seq : Nat) : SQueueItem where
  seq := seq
  id := npos
  fn := ""
  curr_path := ""
  fileclient := .Full
  queued := false
  action := .Fileclient
  patch_dl_files := none
  is_script := false
  metadata_only := false
  folder_items := 0
  script_end := false
  script_random := 0
  switched := false

def cfn (it : SQueueItem) : String :=
  let cfn := it.curr_path ++ "/" ++ it.fn
  if cfn.startsWith "/" then (cfn.drop 1).toString else cfn

/-- The share a file lies in. -/
def share (it : SQueueItem) : String :=
  let share := String.ofList (it.cfn.toList.takeWhile (· ≠ '/'))
  if share = "" then it.cfn else share

end SQueueItem

namespace ServerDownloadThread

/-- What the walk over the file list asks a thread to load. -/
structure DlFile where
  id : Nat
  fn : String
  curr_path : String
  is_script : Bool
  metadata_only : Bool
  folder_items : Nat
  script_random : Nat

section Queue

variable (t : ServerDownloadThread)

def getDLPath (it : SQueueItem) : String :=
  if it.is_script then
    "SCRIPT|" ++ it.cfn ++ "|" ++ toString t.incremental_num ++ "|" ++ toString it.script_random ++ "|" ++ t.server_token
  else if t.server_token ≠ "" then t.server_token ++ "|" ++ it.cfn
  else it.cfn

/-- A new entry at the end of the queue. -/
def push_back (it : SQueueItem) : ServerDownloadThread :=
  { t with dl_queue := t.dl_queue ++ [it], seqs := t.seqs + 1, issued := t.issued ++ [it] }

def setMinDownloaded (id : Nat) : ServerDownloadThread :=
  if id ≠ 0 then { t with counts := { t.counts with max_file_id := t.counts.max_file_id.setMinDownloaded id } } else t

def addToQueueFull (f : DlFile) : ServerDownloadThread :=
  let t := (t.setMinDownloaded f.id).push_back
    { SQueueItem.new t.seqs with
      id := f.id, fn := f.fn, curr_path := f.curr_path, is_script := f.is_script, metadata_only := f.metadata_only,
      folder_items := f.folder_items, script_random := f.script_random }
  { t with counts := t.counts.add queue_items_full }

def addToQueueChunked (f : DlFile) : ServerDownloadThread :=
  let t := (t.setMinDownloaded f.id).push_back
    { SQueueItem.new t.seqs with
      id := f.id, fn := f.fn, curr_path := f.curr_path, is_script := f.is_script, script_random := f.script_random,
      fileclient := .Chunked }
  { t with counts := t.counts.add queue_items_chunked }

def addToQueueStartShadowcopy (fn : String) : ServerDownloadThread :=
  t.push_back { SQueueItem.new t.seqs with action := .StartShadowcopy, fn := fn }

def addToQueueStopShadowcopy (fn : String) : ServerDownloadThread :=
  t.push_back { SQueueItem.new t.seqs with action := .StopShadowcopy, fn := fn }

def queueStop : ServerDownloadThread :=
  t.push_back { SQueueItem.new t.seqs with action := .Quit }

def queueSkip : ServerDownloadThread :=
  let ni := { SQueueItem.new t.seqs with action := .Skip }
  { t with dl_queue := ni :: t.dl_queue, seqs := t.seqs + 1, issued := t.issued ++ [ni] }

def queueScriptEnd (todl : SQueueItem) : ServerDownloadThread :=
  let ni := { SQueueItem.new t.seqs with
    fn := todl.fn, curr_path := todl.curr_path, is_script := true, script_end := true, script_random := todl.script_random }
  let (dl_queue, _, counts) := insertFullQueueEarliest ni false t.dl_queue t.counts
  { t with dl_queue := dl_queue, counts := counts, seqs := t.seqs + 1, issued := t.issued ++ [ni] }

/-- `addToQueueFull` with `at_front_postpone_quitstop`, for the chunked item `todl`
that the worker has taken. A chunked item is no script end. -/
def requeueFull (todl : SQueueItem) : ServerDownloadThread :=
  let ni := { todl with fileclient := .Full, queued := false, patch_dl_files := none, switched := true }
  let (dl_queue, counts) := insertSwitched ni t.dl_queue t.counts
  { t with dl_queue := dl_queue, counts := counts.add queue_items_full }

def getQueuedFileFull (prepare : SQueueItem → Prepared) : Option SQueueItem × ServerDownloadThread :=
  let (found, dl_queue, counts) := queueFull prepare t.counts [] t.dl_queue
  (found, { t with dl_queue := dl_queue, counts := counts })

def getQueuedFileChunked (prepare : SQueueItem → Prepared) : Option SQueueItem × ServerDownloadThread :=
  let (found, dl_queue, counts) := retryChunked prepare (t.dl_queue.length + 1) t.dl_queue t.counts
  (found, { t with dl_queue := dl_queue, counts := counts })

def unqueueFirst (p : SQueueItem → Bool) : List SQueueItem → List SQueueItem
  | [] => []
  | it :: q => if it.queued && p it then { it with queued := false } :: q else it :: unqueueFirst p q

def unqueueFileFull (f : QueuedFile) : ServerDownloadThread :=
  let p := fun it : SQueueItem => it.isFull && it.script_end == f.finish_script && t.getDLPath it == f.fn
  { t with dl_queue := unqueueFirst p t.dl_queue }

def unqueueFileChunked (remotefn : String) : ServerDownloadThread :=
  { t with dl_queue := unqueueFirst (fun it => it.isChunked && t.getDLPath it == remotefn) t.dl_queue }

def resetQueueFull : ServerDownloadThread :=
  { t with dl_queue := t.dl_queue.map fun it => if it.isFull then { it with queued := false } else it }

def resetQueueChunked : ServerDownloadThread :=
  { t with dl_queue := t.dl_queue.map fun it => if it.isChunked then { it with queued := false } else it }

end Queue

section FileClient

variable (t : ServerDownloadThread)

def Reconnect : ServerDownloadThread :=
  { t with fc := { t.fc with queued := [], send_failed := false } }.resetQueueFull

/-- The start of `GetFile` and `FinishScript`: the request was sent before, or is
sent now. -/
def request (curr : SQueueItem) : ServerDownloadThread :=
  match t.fc.queued with
  | [] => t
  | f :: queued =>
    { t with fc := { t.fc with
        queued := queued
        assert_failed := t.fc.assert_failed || f.fn != t.getDLPath curr || f.finish_script != curr.script_end } }

/-- The requests of this `fillQueue` are taken back. -/
def unqueueAll : List QueuedFile → ServerDownloadThread → ServerDownloadThread
  | [], t => t
  | f :: queued_files, t => unqueueAll queued_files (t.unqueueFileFull f)

def sendFailed (t : ServerDownloadThread) : ServerDownloadThread :=
  { t with fc := { t.fc with send_failed := true } }

/-- A request is sent while another file is loaded. Where it cannot be sent, it is
taken back with the last `n` requests, which are of the same `fillQueue`. -/
def fillQueue (prepare : SQueueItem → Prepared) (failed : Option Nat) : ServerDownloadThread :=
  match t.getQueuedFileFull prepare with
  | (none, t) => t
  | (some it, t) =>
    let queue_fn := t.getDLPath it
    if queue_fn = "" then t
    else
      match failed with
      | none => { t with fc := { t.fc with queued := t.fc.queued ++ [⟨queue_fn, it.script_end⟩] } }
      | some n => (unqueueAll (t.fc.queued.drop (t.fc.queued.length - n) ++ [⟨queue_fn, it.script_end⟩]) t).sendFailed

def flushFailed (n : Nat) : ServerDownloadThread :=
  (unqueueAll (t.fc.queued.drop (t.fc.queued.length - n)) t).sendFailed

end FileClient

section Worker

variable (t : ServerDownloadThread)

def emit (e : Trace) : ServerDownloadThread :=
  { t with trace := t.trace ++ [e] }

def setOffline (ret : Bool) : ServerDownloadThread :=
  { t with is_offline := t.is_offline || !ret }

def load_file (curr : SQueueItem) : ServerDownloadThread :=
  { (t.request curr).emit (.load curr) with worker := .loading curr }

def load_file_patch (curr : SQueueItem) (prepare : Prepared) : ServerDownloadThread :=
  match curr.patch_dl_files.getD prepare with
  | .prepared => { t.emit (.load curr) with worker := .loading curr }
  | .full_dl => if curr.patch_dl_files = none then t.requeueFull curr else (t.emit (.done curr)).setOffline false
  | .prepare_error => (t.emit (.done curr)).setOffline false

def countTaken (curr : SQueueItem) : DlCounts :=
  if curr.isFull then t.counts.sub queue_items_full
  else if curr.isChunked then t.counts.sub queue_items_chunked
  else t.counts

/-- The worker has taken `curr` from the queue. No id is ever made active, so that
`waitBefore` does not wait. -/
def handle (curr : SQueueItem) (prepare : Prepared) (ret : Bool) : ServerDownloadThread :=
  match curr.action with
  | .Quit =>
    if t.dl_queue ≠ [] then { t with dl_queue := t.dl_queue ++ [curr] }
    else { t.emit (.done curr) with worker := .stopped }
  | .Skip => { t.emit (.done curr) with skipping := true }
  | action =>
    if t.is_offline || t.skipping then t.emit (.done curr)
    else
      match action with
      | .StartShadowcopy => (t.emit (.start_shadowcopy curr)).setOffline ret
      | .StopShadowcopy => (t.emit (.stop_shadowcopy curr)).setOffline ret
      | _ => if curr.fileclient = .Full then t.load_file curr else t.load_file_patch curr prepare

/-- The file of `curr` is loaded, or there was an error. -/
def loaded (curr : SQueueItem) (success ret : Bool) : ServerDownloadThread :=
  let t := if success && curr.is_script && !curr.script_end then t.queueScriptEnd curr else t
  { (t.emit (.done curr)).setOffline (ret || curr.script_end) with worker := .idle }

end Worker

/-- The steps of a thread, in the order in which they take the mutex: the calls of
the walk, the worker taking the front entry, and what happens while it loads a
file. -/
inductive ThreadStep where
  | addToQueueFull (f : DlFile)
  | addToQueueChunked (f : DlFile)
  | addToQueueStartShadowcopy (fn : String)
  | addToQueueStopShadowcopy (fn : String)
  | queueStop
  | queueSkip
  | take (prepare : Prepared) (ret : Bool)
  | fillQueue (prepare : SQueueItem → Prepared) (failed : Option Nat)
  | flushFailed (n : Nat)
  | Reconnect
  | getQueuedFileChunked (prepare : SQueueItem → Prepared)
  | unqueueFileChunked (remotefn : String)
  | resetQueueChunked
  | loaded (success ret : Bool)

/-- The file that a full or a chunked file client loads. -/
def loadingFull (t : ServerDownloadThread) : Option SQueueItem :=
  match t.worker with
  | .loading curr => if curr.fileclient = .Full then some curr else none
  | _ => none

def loadingChunked (t : ServerDownloadThread) : Option SQueueItem :=
  match t.worker with
  | .loading curr => if curr.fileclient = .Chunked then some curr else none
  | _ => none

def step (t : ServerDownloadThread) : ThreadStep → Option ServerDownloadThread
  | .addToQueueFull f => some (t.addToQueueFull f)
  | .addToQueueChunked f => some (t.addToQueueChunked f)
  | .addToQueueStartShadowcopy fn => some (t.addToQueueStartShadowcopy fn)
  | .addToQueueStopShadowcopy fn => some (t.addToQueueStopShadowcopy fn)
  | .queueStop => some t.queueStop
  | .queueSkip => some t.queueSkip
  | .take prepare ret =>
    match t.worker, t.dl_queue with
    | .idle, curr :: dl_queue => some ({ t with dl_queue := dl_queue, counts := t.countTaken curr }.handle curr prepare ret)
    | _, _ => none
  | .fillQueue prepare failed =>
    match t.loadingFull with
    | some curr => if !curr.is_script && !curr.script_end && !t.fc.send_failed then some (t.fillQueue prepare failed) else none
    | none => none
  | .flushFailed n =>
    match t.loadingFull with
    | some curr => if !curr.is_script && !curr.script_end && !t.fc.send_failed then some (t.flushFailed n) else none
    | none => none
  | .Reconnect => t.loadingFull.map fun _ => t.Reconnect
  | .getQueuedFileChunked prepare => t.loadingChunked.map fun _ => (t.getQueuedFileChunked prepare).2
  | .unqueueFileChunked remotefn => t.loadingChunked.map fun _ => t.unqueueFileChunked remotefn
  | .resetQueueChunked => t.loadingChunked.map fun _ => t.resetQueueChunked
  | .loaded success ret =>
    match t.worker with
    | .loading curr => if t.fc.send_failed && (success || ret) then none else some (t.loaded curr success ret)
    | _ => none

def run : List ThreadStep → ServerDownloadThread → Option ServerDownloadThread
  | [], t => some t
  | e :: es, t => (t.step e).bind (run es)

def new (server_token : String) (incremental_num : Nat) : ServerDownloadThread where
  server_token := server_token
  incremental_num := incremental_num
  dl_queue := []
  counts := ⟨0, MaxFileId.new⟩
  is_offline := false
  skipping := false
  fc := ⟨[], false, false⟩
  worker := .idle
  seqs := 0
  issued := []
  trace := []

end ServerDownloadThread

end urbackup.serverdownload
