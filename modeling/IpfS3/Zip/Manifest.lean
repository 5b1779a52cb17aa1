import IpfS3.Foundations.Decimal
import IpfS3.Foundations.Naming
import IpfS3.Kubo.Directory
import IpfS3.Zip.Extract

/-!
# The final manifest of an archive

`zip/batch.rs`: the entries that were extracted from an archive, and its failures, are turned into the
records that are kept.  For every key the last success counts.  A record has a path of its own: the key
below the target prefix where that is a valid path, and otherwise a name in a directory that no valid
path starts with; failures get names in another such directory.

The files are offered to the directory builder only when all paths are valid and none of them is in the
place of a directory (`rootError`).  A map is a list of pairs here, and a panic an error.
-/

namespace IpfS3.Zip

open Keyset Naming

def maxArchiveEntries : ℕ := 10000

structure ManifestFile where
  relativePath : Text
  objectKey : Text
  cid : Text
  size : ℤ
  deriving DecidableEq

/-- The codes of `safe_failure_code`. -/
inductive SafeFailureCode where
  | entryReadFailed
  | entryUploadFailed
  | entryFailed
  deriving DecidableEq

structure ManifestFailure where
  path : Text
  code : SafeFailureCode
  deriving DecidableEq

/-- The values of `root_error`. -/
inductive RootError where
  | invalidManifest
  | pathConflict
  deriving DecidableEq

structure FinalZipManifest where
  successful : List ManifestFile
  failed : List ManifestFailure
  rootError : Option RootError
  deriving DecidableEq

def ManifestFile.toDirectoryFile (file : ManifestFile) : Kubo.DirectoryFile :=
  ⟨file.relativePath, file.cid⟩

def FinalZipManifest.directoryFiles (manifest : FinalZipManifest) : List Kubo.DirectoryFile :=
  if manifest.rootError.isSome then [] else manifest.successful.map ManifestFile.toDirectoryFile

/-! ## Paths -/

/-- Whether some character is a control character: the codes below 32, and from 127 to 159. -/
def hasControl : Text → Bool
  | [] => false
  | byte :: rest =>
    byte < 32 || byte == 127 ||
      (byte == 0xc2 && rest.head?.any fun next => 0x80 ≤ next && next < 0xa0) || hasControl rest

def validRelativePath (path : Text) : Bool :=
  !path.isEmpty && !path.startsWith [47] && !path.contains 92 && !hasControl path &&
    (path.splitOn 47).all fun segment => !segment.isEmpty && segment != [46] && segment != [46, 46]

/-- The valid path of a key below the target prefix. -/
def relativePath (targetPrefix key : Text) : Option Text :=
  (Text.stripPrefix key targetPrefix).filter validRelativePath

def safeFailureCode (code : Text) : SafeFailureCode :=
  if code = Text.ascii "EntryReadFailed".toList then .entryReadFailed
  else if code = Text.ascii "EntryUploadFailed".toList then .entryUploadFailed
  else .entryFailed

/-- The places of the slashes in a path. -/
def slashIndices (path : Text) : List ℕ :=
  (List.range path.length).filter fun index => path[index]? == some 47

def hasFileDirectoryConflict (files : List ManifestFile) : Bool :=
  let paths := files.map ManifestFile.relativePath
  files.any fun file =>
    (slashIndices file.relativePath).any fun index => paths.contains (file.relativePath.take index)

/-! ## The manifest -/

/-- The variables of the loop over the entries. -/
structure EntryScan where
  invalidRootPath : Bool
  winners : List (Text × ℕ)

def admissible (entry : ExtractedEntry) : Bool :=
  decide (entry.key.length ≤ 1024) && !entry.cid.isEmpty && decide (entry.cid.length ≤ 4096) &&
    decide (0 ≤ entry.size)

/-- One entry of the loop; there is no result when the loop is left. -/
def scanEntry (targetPrefix : Text) (scan : EntryScan) (entry : ExtractedEntry × ℕ) :
    Option EntryScan :=
  if admissible entry.1 then
    some ⟨scan.invalidRootPath || (relativePath targetPrefix entry.1.key).isNone,
      put scan.winners entry.1.key entry.2⟩
  else none

def firstSegments (targetPrefix : Text) (winners : List (Text × ℕ)) : List Text :=
  (winners.filterMap fun winner =>
    (relativePath targetPrefix winner.1).bind fun path => (path.splitOn 47).head?).eraseDups

/-- The names that are tried for a directory. -/
def candidateName (base : Text) (n : ℕ) : Text :=
  if n = 0 then base else base ++ 45 :: decimal n

/-- The `namespace_candidates` of a base. -/
def namespaceCandidates (base : Text) (segments : List Text) : List Text :=
  (List.range (segments.length + 2)).map (candidateName base)

def syntheticPath (directory : Text) (index : ℕ) : Text := directory ++ 47 :: decimal index

def expect {α : Type} (message : String) : Option α → Except String α
  | none => .error message
  | some value => .ok value

def manifestFile (entries : List ExtractedEntry) (targetPrefix invalidNamespace : Text)
    (winner : Text × ℕ) : Except String ManifestFile :=
  match entries[winner.2]? with
  | none => .error "index out of bounds"
  | some entry =>
    .ok ⟨(relativePath targetPrefix winner.1).getD (syntheticPath invalidNamespace winner.2),
      entry.key, entry.cid, entry.size⟩

def manifestFailure (failureNamespace : Text) (failure : ExtractFailure × ℕ) : ManifestFailure :=
  ⟨syntheticPath failureNamespace failure.2, safeFailureCode failure.1.code⟩

/-- What stands in the way of a directory. -/
def rootErrorOf (invalidRootPath overLimit : Bool) (successful : List ManifestFile) :
    Option RootError :=
  if invalidRootPath || overLimit then some .invalidManifest
  else if hasFileDirectoryConflict successful then some .pathConflict
  else none

/-- The part of `final_zip_manifest` behind the loop. -/
def manifestOf (entries : List ExtractedEntry) (failures : List ExtractFailure)
    (targetPrefix : Text) (scan : EntryScan) : Except String FinalZipManifest := do
  let finalWinners := sortBy Prod.snd scan.winners
  let segments := firstSegments targetPrefix finalWinners
  let invalidNamespace ← expect "enough candidate names for all successful first segments"
    ((namespaceCandidates (Text.ascii "invalid".toList) segments).find? fun candidate =>
      !segments.contains candidate)
  let successful ← finalWinners.mapM (manifestFile entries targetPrefix invalidNamespace)
  let failureNamespace ← expect "enough candidate names for both reserved namespaces"
    ((namespaceCandidates (Text.ascii "failed".toList) segments).find? fun candidate =>
      candidate != invalidNamespace && !segments.contains candidate)
  let overLimit := decide (maxArchiveEntries < entries.length + failures.length)
  .ok ⟨successful, failures.zipIdx.map (manifestFailure failureNamespace),
    rootErrorOf scan.invalidRootPath overLimit successful⟩

def finalZipManifest (entries : List ExtractedEntry) (failures : List ExtractFailure)
    (targetPrefix : Text) : Except String FinalZipManifest :=
  match entries.zipIdx.foldlM (scanEntry targetPrefix) ⟨false, []⟩ with
  | none => .ok ⟨[], [], some .invalidManifest⟩
  | some scan => manifestOf entries failures targetPrefix scan

end IpfS3.Zip
