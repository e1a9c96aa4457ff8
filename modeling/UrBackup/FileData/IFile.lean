import UrBackup.FileList.StringTools
import UrBackup.FileData.Slices

namespace urbackup

open stringtools filedata

/-- An open file: its contents and where the next read or write goes. -/
structure IFile where
  content : Bytes
  pos : Nat

namespace IFile

def Seek (f : IFile) (pos : Nat) : IFile :=
  { f with pos }

def Read (f : IFile) (n : Nat) : Bytes × IFile :=
  let data := slice f.content f.pos n
  (data, { f with pos := f.pos + data.length })

def Write (f : IFile) (buf : Bytes) : IFile :=
  ⟨overwrite 0 f.content f.pos buf, f.pos + buf.length⟩

/-- At its end a file is appended to. -/
theorem content_Write_end {f : IFile} (h : f.pos = f.content.length) (buf : Bytes) :
    (f.Write buf).content = f.content ++ buf := by
  have happend := overwrite_append (0 : UInt8) f.content buf []
  rw [List.append_nil, List.drop_nil, List.append_nil] at happend
  rw [Write, h]
  exact happend

/-- Zeros within the file; its size stays. -/
def PunchHole (f : IFile) (offset size : Nat) : IFile :=
  { f with content := overwrite 0 f.content offset (List.replicate (min size (f.content.length - offset)) 0) }

def Resize (f : IFile) (size : Nat) : IFile :=
  { f with content := f.content.take size ++ List.replicate (size - f.content.length) 0 }

end IFile

structure SSparseExtent where
  offset : Nat
  size : Nat

end urbackup
