import UrBackup.Download.Pipelined

namespace urbackup.serverdownload

open filebackup

namespace SQueueItem

/-- A file that is loaded, or only its metadata. -/
def IsFile (it : SQueueItem) : Prop :=
  it.action = .Fileclient ∧ it.script_end = false

end SQueueItem

/-- Some worker is done with the file. -/
def OverIn (trace : List Trace) (f : SQueueItem) : Prop :=
  ∃ x, Trace.done x ∈ trace ∧ x.core = f.core

/-- The client was told about the start entry. -/
def StartedIn (trace : List Trace) (b : SQueueItem) : Prop :=
  ∃ x, Trace.start_shadowcopy x ∈ trace ∧ x.core = b.core

/-- The threads share the ids, the numbers of the entries and the client. -/
structure ServerDownloadThreadGroup where
  dl_threads : List ServerDownloadThread
  max_file_id : MaxFileId
  seqs : Nat
  trace : List Trace

namespace ServerDownloadThreadGroup

/-- The calls of the walk, and the steps of the threads. The walk asks the threads one by
one for `queueSize`, while they go on. -/
inductive GroupStep where
  | addToQueueFull (queueSize : Nat → Nat) (f : ServerDownloadThread.DlFile)
  | addToQueueChunked (queueSize : Nat → Nat) (f : ServerDownloadThread.DlFile)
  | addToQueueStartShadowcopy (queueSize : Nat → Nat) (fn : String)
  | addToQueueStopShadowcopy (queueSize : Nat → Nat) (fn : String)
  | queueStop (idx : Nat)
  | queueSkip (idx : Nat)
  | take (idx : Nat) (prepare : Prepared) (ret : Bool)
  | fillQueue (idx : Nat) (prepare : SQueueItem → Prepared) (failed : Option Nat)
  | flushFailed (idx n : Nat)
  | Reconnect (idx : Nat)
  | getQueuedFileChunked (idx : Nat) (prepare : SQueueItem → Prepared)
  | unqueueFileChunked (idx : Nat) (remotefn : String)
  | resetQueueChunked (idx : Nat)
  | loaded (idx : Nat) (success ret : Bool)

variable (g : ServerDownloadThreadGroup)

/-- The first thread with the least queue, given the best one so far. -/
def minQueued (queueSize : Nat → Nat) : List ServerDownloadThread → Nat → Nat → Nat → Nat
  | [], _, ret, _ => ret
  | _ :: dl_threads, i, ret, queue_size =>
    if queueSize i < queue_size then minQueued queueSize dl_threads (i + 1) i (queueSize i)
    else minQueued queueSize dl_threads (i + 1) ret queue_size

def getMinQueued (queueSize : Nat → Nat) : Nat :=
  minQueued queueSize g.dl_threads.tail 1 0 (queueSize 0)

/-- The thread with what it shares. -/
def share (t : ServerDownloadThread) : ServerDownloadThread :=
  { t with counts := { t.counts with max_file_id := g.max_file_id }, seqs := g.seqs }

def stepThread (idx : Nat) (e : ServerDownloadThread.ThreadStep) : Option ServerDownloadThreadGroup :=
  match g.dl_threads[idx]? with
  | none => none
  | some t =>
    match (g.share t).step e with
    | none => none
    | some t' =>
      some
        { dl_threads := g.dl_threads.set idx t'
          max_file_id := t'.counts.max_file_id
          seqs := t'.seqs
          trace := g.trace ++ t'.trace.drop t.trace.length }

def step : GroupStep → Option ServerDownloadThreadGroup
  | .addToQueueFull queueSize f => g.stepThread (g.getMinQueued queueSize) (.addToQueueFull f)
  | .addToQueueChunked queueSize f => g.stepThread (g.getMinQueued queueSize) (.addToQueueChunked f)
  | .addToQueueStartShadowcopy queueSize fn => g.stepThread (g.getMinQueued queueSize) (.addToQueueStartShadowcopy fn)
  | .addToQueueStopShadowcopy queueSize fn => g.stepThread (g.getMinQueued queueSize) (.addToQueueStopShadowcopy fn)
  | .queueStop idx => g.stepThread idx .queueStop
  | .queueSkip idx => g.stepThread idx .queueSkip
  | .take idx prepare ret => g.stepThread idx (.take prepare ret)
  | .fillQueue idx prepare failed => g.stepThread idx (.fillQueue prepare failed)
  | .flushFailed idx n => g.stepThread idx (.flushFailed n)
  | .Reconnect idx => g.stepThread idx .Reconnect
  | .getQueuedFileChunked idx prepare => g.stepThread idx (.getQueuedFileChunked prepare)
  | .unqueueFileChunked idx remotefn => g.stepThread idx (.unqueueFileChunked remotefn)
  | .resetQueueChunked idx => g.stepThread idx .resetQueueChunked
  | .loaded idx success ret => g.stepThread idx (.loaded success ret)

def run : List GroupStep → ServerDownloadThreadGroup → Option ServerDownloadThreadGroup
  | [], g => some g
  | e :: es, g => (g.step e).bind (run es)

def new (server_token : String) (incremental_num n_threads : Nat) : ServerDownloadThreadGroup where
  dl_threads := List.replicate n_threads (ServerDownloadThread.new server_token incremental_num)
  max_file_id := MaxFileId.new
  seqs := 0
  trace := []

/-- A stop command is sent after all files of its share that were queued before it,
and a file is loaded after the start command of its share that was queued before
it. -/
structure Snapshotted : Prop where
  stops : ∀ before it after, g.trace = before ++ Trace.stop_shadowcopy it :: after →
    ∀ t ∈ g.dl_threads, ∀ f ∈ t.issued, f.IsFile → f.share = it.fn → f.seq < it.seq → OverIn before f
  starts : ∀ before f after, g.trace = before ++ Trace.load f :: after → f.IsFile →
    ∀ t ∈ g.dl_threads, ∀ b ∈ t.issued, b.isStart = true → b.fn = f.share → b.seq < f.seq → StartedIn before b

/-- What the entry needs of the other threads than `idx`, where it is put: a file that the
start commands of its share were sent, a stop entry that the files of its share are
done with. -/
def FitsOthers (idx : Nat) (it : SQueueItem) : Prop :=
  (it.IsFile → ∀ i t, g.dl_threads[i]? = some t → i ≠ idx → ∀ b ∈ t.issued, b.isStart = true → b.fn = it.share →
    StartedIn g.trace b) ∧
  (it.action = .StopShadowcopy → ∀ i t, g.dl_threads[i]? = some t → i ≠ idx → ∀ f ∈ t.issued, f.IsFile → f.share = it.fn →
    OverIn g.trace f)

/-- The entry that a call of the walk queues. -/
def fileItem (f : ServerDownloadThread.DlFile) : SQueueItem :=
  { SQueueItem.new g.seqs with fn := f.fn, curr_path := f.curr_path }

def stopItem (fn : String) : SQueueItem :=
  { SQueueItem.new g.seqs with action := .StopShadowcopy, fn := fn }

def Fits : GroupStep → Prop
  | .addToQueueFull queueSize f => g.FitsOthers (g.getMinQueued queueSize) (g.fileItem f)
  | .addToQueueChunked queueSize f => g.FitsOthers (g.getMinQueued queueSize) (g.fileItem f)
  | .addToQueueStopShadowcopy queueSize fn => g.FitsOthers (g.getMinQueued queueSize) (g.stopItem fn)
  | _ => True

def AllFit : List GroupStep → ServerDownloadThreadGroup → Prop
  | [], _ => True
  | e :: es, g => g.Fits e ∧ ∀ g', g.step e = some g' → AllFit es g'

end ServerDownloadThreadGroup

end urbackup.serverdownload
