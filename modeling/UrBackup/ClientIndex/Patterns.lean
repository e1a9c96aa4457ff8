import UrBackup.ClientIndex.ListedTree
import UrBackup.FilePaths.FilePathCorrections
import UrBackup.Glob.Amatch

namespace urbackup.clientindex

open stringtools
open filepaths (Tokenize)

section Glob

/-- Up to the first NUL. -/
def c_str (s : Bytes) : Bytes :=
  s.takeWhile (· ≠ 0)

/-- A pattern behind which `amatch` reads is taken to match nothing. -/
def amatches (str p : Bytes) : Bool :=
  (glob.amatch (c_str str) (c_str p)).getD false

end Glob

section Patterns

/-- The separators of a pattern are those of a path. -/
def sanitizeSeps : Bytes → Bytes
  | [] => []
  | 92 :: 92 :: p => 47 :: sanitizeSeps p
  | ch :: p => (if ch = 92 then 47 else ch) :: sanitizeSeps p

def sanitizePattern (p : Bytes) : Bytes :=
  sanitizeSeps (trim p)

/-- `depth` is -1 where a path can be of any depth. The `prefix` is cut out of itself and stays
empty. -/
structure SIndexInclude where
  spec : Bytes
  depth : Int

def countSeps : Bytes → Nat
  | [] => 0
  | 92 :: 92 :: p => countSeps p + 1
  | ch :: p => (if ch = 47 then 1 else 0) + countSeps p

/-- A `*` may stand at the end. -/
def parseIncludePattern (tok : Bytes) : SIndexInclude :=
  let spec := sanitizePattern tok
  ⟨spec, if 42 ∉ spec.dropLast then countSeps spec else -1⟩

def parseIncludePatterns (val : Bytes) : List SIndexInclude :=
  (Tokenize val 59).map parseIncludePattern

/-- The separators of a path, and one for what stands behind the last one. -/
def wpathLevel : Bytes → Nat
  | [] => 0
  | [_] => 1
  | ch :: path => (if glob.isSep ch then 1 else 0) + wpathLevel path

def isIncludedLoop (path : Bytes) : List SIndexInclude → Bool → Bool → Bool × Bool
  | [], has_pattern, adding_worthless => (!has_pattern, adding_worthless)
  | i :: include_dirs, has_pattern, adding_worthless =>
    if i.spec = [] then isIncludedLoop path include_dirs has_pattern adding_worthless
    else if amatches path i.spec then (true, adding_worthless)
    else isIncludedLoop path include_dirs true (adding_worthless && !(i.depth = -1 || wpathLevel path ≤ i.depth))

/-- Whether a path matches, and what is said in `adding_worthless`. -/
def isIncluded (include_dirs : List SIndexInclude) (path : Bytes) : Bool × Bool :=
  isIncludedLoop path include_dirs false true

def isExcluded (exclude_dirs : List Bytes) (path : Bytes) : Bool :=
  exclude_dirs.any fun spec => spec ≠ [] && amatches path spec

def indexPatterns (exclude_dirs : List Bytes) (include_dirs : List SIndexInclude) : Patterns where
  isExcluded := isExcluded exclude_dirs
  isIncluded path := (isIncluded include_dirs path).1
  adding_worthless path := (isIncluded include_dirs path).2

end Patterns

section Separators

/-- What a file or directory of this name is listed as. -/
def namedFile (isdir : Bool) (name : Bytes) : SFileAndHash :=
  ⟨name, 0, 0, isdir, false, false, [], [], []⟩

def plainSettings : Settings :=
  ⟨true, true, false, false, true, true, false, false, 528, id⟩

/-- The pattern `/v?a?b` matches the file `/v/a/b`. It has one separator, and the directory
`/v/a` that has more is passed over. -/
theorem not_listsTree_separators : ¬ListsTree plainSettings (indexPatterns [] (parseIncludePatterns [47, 118, 63, 97, 63, 98])) [47, 118] [118] 0 []
    [.node (namedFile true [97]) [.node (namedFile false [98]) []]] [] [] 0 := by
  rintro ⟨⟨fuel, ix, hcheck, -, hid⟩, -⟩
  obtain ⟨ix', hloop, rfl⟩ := Option.map_eq_some_iff.mp hcheck
  have hends : (loop plainSettings (indexPatterns [] (parseIncludePatterns [47, 118, 63, 97, 63, 98])) 2
      (startCheck plainSettings (indexPatterns [] (parseIncludePatterns [47, 118, 63, 97, 63, 98])) [47, 118] [118] 0 []
        [.node (namedFile true [97]) [.node (namedFile false [98]) []]] ⟨[], 0⟩ 0)).isSome = true := by decide +kernel
  obtain rfl := loop_unique hloop (Option.some_get hends).symm
  refine absurd hid ?_
  clear hcheck hloop hid
  revert hends
  decide +kernel

end Separators

end urbackup.clientindex
