import UrBackup.TreeDiff.GatherDiffs
import UrBackup.TreeDiff.Effect
import UrBackup.TreeDiff.Applied
import UrBackup.TreeDiff.Merge
import UrBackup.TreeDiff.Loop
import UrBackup.TreeDiff.Matching
import UrBackup.TreeDiff.Exact
import UrBackup.TreeDiff.Unchanged
import UrBackup.FileList.FileListUtils
import UrBackup.FileList.ListItem
import UrBackup.FileList.ListWalk
import UrBackup.FileList.ParamStrings
import UrBackup.FileList.TreeRead
import UrBackup.FileList.Agree
import UrBackup.Linked.Segment
import UrBackup.Linked.Chains
import UrBackup.FileEntries.ServerHash
import UrBackup.FileEntries.Effects
import UrBackup.FileEntries.Lists
import UrBackup.FileEntries.HashThreads
import UrBackup.FileEntries.IndexComplete
import UrBackup.FileEntries.Interleaving
import UrBackup.FileData.Slices
import UrBackup.FileData.LittleEndian
import UrBackup.ChunkHash.Adler32
import UrBackup.ChunkHash.TreeHash
import UrBackup.ChunkHash.BlockHash
import UrBackup.ChunkHash.ChunkHasher
import UrBackup.ChunkHash.ChunkHashFile
import UrBackup.ChunkHash.CopyChunks
import UrBackup.ChunkHash.DenseBlock
import UrBackup.ChunkHash.InPlace
import UrBackup.Wire.TcpStack
import UrBackup.Wire.Varint
import UrBackup.Wire.Data
import UrBackup.Wire.FileMetadata
import UrBackup.Maps.SortedMap
import UrBackup.FileIndex.LMDBFileIndex
import UrBackup.FileIndex.ReadsOwnWrites
import UrBackup.FileIndex.AllClients
import UrBackup.FileData.IFile
import UrBackup.SparseFile.SparseFile
import UrBackup.SparseFile.Offsets
import UrBackup.SparseFile.SameAsPlain
import UrBackup.WebSocket.WebSocketPipe
import UrBackup.WebSocket.Feed
import UrBackup.WebSocket.Frames
import UrBackup.WebSocket.Stream
import UrBackup.WebSocket.Carries
import UrBackup.CompressedFile.CompressedFile
import UrBackup.CompressedFile.Blocks
import UrBackup.CompressedFile.Workers
import UrBackup.CompressedFile.Cache
import UrBackup.CompressedFile.Rounds
import UrBackup.CompressedFile.Interleaved
import UrBackup.CompressedFile.ByteArray
import UrBackup.CompressedFile.Reopen
import UrBackup.Vhd.VHDFile
import UrBackup.Vhd.Space
import UrBackup.Vhd.Allocate
import UrBackup.Vhd.Regions
import UrBackup.Framing.ZeroRuns
import UrBackup.Crypto.AESGCM
import UrBackup.Crypto.Encryption
import UrBackup.Crypto.Decryption
import UrBackup.Crypto.Stream
import UrBackup.PipeFile.PipeFileBase
import UrBackup.PipeFile.RingBuffer
import UrBackup.ImageCleanup.RemoveImage
import UrBackup.ImageCleanup.Removed
import UrBackup.ImageCleanup.Protected
import UrBackup.FileData.Durable
import UrBackup.Vhdx.Bat
import UrBackup.Vhdx.VHDXFile
import UrBackup.Vhdx.Placed
import UrBackup.Vhdx.Space
import UrBackup.Vhdx.Blocks
import UrBackup.Vhdx.Flush
import UrBackup.Vhdx.Reopen
import UrBackup.Vhdx.Allocation
import UrBackup.Download.MaxFileId
import UrBackup.Download.Finished
import UrBackup.Download.DlQueue
import UrBackup.Download.ServerDownloadThread
import UrBackup.Download.QueueOrder
import UrBackup.Download.QueueKeeps
import UrBackup.Download.Pipelined
import UrBackup.Download.ServerDownloadThreadGroup
import UrBackup.Download.Shadowcopy
import UrBackup.Download.QueueSize
import UrBackup.Download.Accounting
import UrBackup.FilePaths.FilePathCorrections
import UrBackup.FilePaths.SamePaths
import UrBackup.Text.Utf8
import UrBackup.FilePaths.ValidNames
import UrBackup.UserView.UserView
import UrBackup.UserView.IdenticalRoots
import UrBackup.UserView.Exact
import UrBackup.FileMetadata.FolderItems
import UrBackup.FileMetadata.FolderTimes
import UrBackup.ImageWriter.FileBufferWriter
import UrBackup.ImageWriter.ServerVHDWriter
import UrBackup.Cbt.HashEntries
import UrBackup.Cbt.Datto
import UrBackup.Cbt.EraDump
import UrBackup.Cbt.Era
import UrBackup.Cbt.EraChunks
import UrBackup.DirTree.Interruptible
import UrBackup.DirTree.Tree
import UrBackup.DirLinks.LinkDirectoryPool
import UrBackup.DirLinks.CrashSafe
import UrBackup.DirLinks.PowerLoss
import UrBackup.ClientIndex.InitialCheck
import UrBackup.ClientIndex.Walk
import UrBackup.ClientIndex.Counted
import UrBackup.ClientIndex.ListedTree
import UrBackup.ClientIndex.Patterns
import UrBackup.Vhdx.BatLayout
import UrBackup.RetryLoop.Drain
import UrBackup.FileCleanup.FileBackups
import UrBackup.FileCleanup.MakesProgress
import UrBackup.OpenFiles.PersistentOpenFiles
import UrBackup.OpenFiles.Reloaded
import UrBackup.OpenFiles.Compacted
import UrBackup.FileData.Crc32c
import UrBackup.Vhdx.Header
import UrBackup.Vhdx.TornHeader
import UrBackup.FileData.Fields
import UrBackup.Vhdx.LogEntry
import UrBackup.Vhdx.LogRoundTrip
import UrBackup.Text.Utf16
import UrBackup.Vhdx.MetaRegion
import UrBackup.Vhdx.MetaRoundTrip
import UrBackup.Vhdx.LogSearch
import UrBackup.Vhdx.SyncRetry
import UrBackup.FileEntries.CreateIndex
import UrBackup.FileEntries.Rebuilt
import UrBackup.FileIndex.Iteration
import UrBackup.FileIndex.Lookup
import UrBackup.FileIndex.ReplayLog
import UrBackup.ChunkHash.CallSplitting
import UrBackup.ChunkHash.LostBytes
import UrBackup.ChunkHash.Splitting
import UrBackup.FileEntries.Candidates
import UrBackup.FileList.TwoPasses
import UrBackup.ChunkPatch.Terminates
import UrBackup.ChunkPatch.Delivers
import UrBackup.IncrBackup.Aligned
import UrBackup.FilePaths.MetadataNames
import UrBackup.SparseExtents.ExtentIterator
import UrBackup.CowFile.RangeNarrow
import UrBackup.CowFile.Tracked
import UrBackup.Glob.PatternLanguage
import UrBackup.FileMetadata.MetadataFile
import UrBackup.Vhd.Read
import UrBackup.Vhd.ReadSectors
import UrBackup.Vhd.ReadBlocks
import UrBackup.Vhd.ReadEnds
import UrBackup.ServerHash.CopyFile
import UrBackup.ServerHash.SparseCopy
import UrBackup.ChunkPatch.PatchesKept
import UrBackup.Vhd.Contents
import UrBackup.Text.Escape
import UrBackup.Linked.Splice
import UrBackup.LruCache.LruCache
import UrBackup.LruCache.Cells
import UrBackup.LruCache.Runs
import UrBackup.Merkle.Levels
import UrBackup.ChunkHash.LeafTree
import UrBackup.Crypto.Sha2
import UrBackup.ChunkHash.LeafRoot
import UrBackup.Vhd.Writable
import UrBackup.Vhd.WriteContents
import UrBackup.Vhd.Chain
import UrBackup.BlockHash.Absorb
import UrBackup.Crypto.Md5
import UrBackup.ChunkPatch.ChunkSendThread
import UrBackup.ChunkPatch.Receiver
import UrBackup.ChunkPatch.BlockTransfer
