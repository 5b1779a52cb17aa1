import IpfS3.Foundations.Table
import IpfS3.Kubo.HamtLookup

/-!
# Building a directory from a manifest

`kubo/directory.rs` up to the root: `build` checks the paths of a manifest, collects the directories
on the way to its files, puts the files into them, and writes the directories to Kubo from the
deepest to the root.  A directory above a size is written as a tree of shards.

What the build asks of Kubo and of the CID library is the structure `KuboClient`; the calls after the
root is known (pinning and verifying it) are not part of the model.  `expect` on a value that is not
there is a panic.
-/

namespace IpfS3.Kubo

open Fallible Keyset Table

def maxDirectoryBlockBytes : ℕ := 2 * 1024 * 1024

def shardThresholdBytes : ℕ := 256 * 1024

def maxManifestBytes : ℕ := 64 * 1024 * 1024

def maxDepth : ℕ := 64

def directoryData : List UInt8 := [8, 1]

structure DirectoryFile where
  path : Text
  cid : Text
  deriving DecidableEq

structure DirectoryCandidate (Cid : Type) where
  cid : Cid
  nodeIdentity : Text
  deriving DecidableEq

/-- What a build asks of Kubo and of the CID library. -/
structure KuboClient (Cid : Type) where
  /-- `parse_cid`. -/
  parseCid : Text → Option Cid
  /-- The length of `Cid::to_bytes`. -/
  cidLength : Cid → ℕ
  /-- The length of the request body of `dag/put`. -/
  payloadLength : List (Link Cid) → List UInt8 → ℕ
  /-- `file_size`. -/
  fileSize : Cid → Except AppError ℕ
  /-- `local_node_identity`. -/
  localNodeIdentity : Except AppError Text
  /-- The call of `dag/put` and the checks on its answer. -/
  dagPut : List (Link Cid) → List UInt8 → Except AppError Cid

def call {α : Type} (result : Except AppError α) : BuildResult α :=
  result.mapError fun error => .failed (.kubo error)

/-! ## Blocks -/

def varintLen (number : ℕ) : ℕ :=
  if 128 ≤ number then 1 + varintLen (number / 128) else 1
termination_by number

def fieldLen (bytes : ℕ) : ℕ := 1 + varintLen bytes + bytes

/-- `checked_add` of 64-bit numbers. -/
def checkedAdd (a b : ℕ) : BuildResult ℕ := do
  ensure (a + b < 2 ^ 64) (.failed .blockTooLarge)
  .ok (a + b)

variable {Cid : Type}

section Put

variable (kubo : KuboClient Cid)

/-- One link of `block_size`. -/
def addLinkSize (sizes : ℕ × ℕ) (link : Link Cid) : BuildResult (ℕ × ℕ) := do
  let pbLink := fieldLen (kubo.cidLength link.cid) + fieldLen link.name.length + 1 +
    varintLen link.size
  let length ← checkedAdd sizes.1 (fieldLen pbLink)
  let cumulative ← checkedAdd sizes.2 link.size
  .ok (length, cumulative)

/-- `block_size`: the length of a block and the size of all that is below it. -/
def blockSize (links : List (Link Cid)) (data : List UInt8) : BuildResult (ℕ × ℕ) := do
  let (length, cumulative) ← links.foldlM (addLinkSize kubo) (fieldLen data.length, 0)
  let cumulative ← checkedAdd cumulative length
  .ok (length, cumulative)

def putNode (links : List (Link Cid)) (data : List UInt8) : BuildResult (Cid × ℕ) := do
  let (length, cumulative) ← blockSize kubo links data
  ensure (length ≤ maxDirectoryBlockBytes) (.failed .blockTooLarge)
  ensure (kubo.payloadLength links data ≤ maxManifestBytes) (.failed .blockTooLarge)
  let cid ← call (kubo.dagPut links data)
  .ok (cid, cumulative)

def shardLink (built : List (Cid × ℕ)) : ShardLink Cid → BuildResult (Link Cid)
  | .file link => .ok link
  | .child pfx index =>
    match built[index]? with
    | none => .error (.panicked "index out of bounds")
    | some (cid, size) => .ok ⟨pfx, cid, size⟩

/-- One shard of `put_shards`. -/
def putShard (built : List (Cid × ℕ)) (shard : Shard Cid) : BuildResult (List (Cid × ℕ)) := do
  let links ← shard.links.mapM (shardLink built)
  let node ← putNode kubo links (data shard.bitmap)
  .ok (built ++ [node])

def putShards (links : List (Link Cid)) : BuildResult (Cid × ℕ) := do
  let nodes ← shards murmur3X6464 links
  let built ← nodes.foldlM (putShard kubo) []
  match built.getLast? with
  | none => .error (.panicked "HAMT has a root")
  | some root => .ok root

/-- How a directory with sorted links is written. -/
def putDirectory (links : List (Link Cid)) : BuildResult (Cid × ℕ) := do
  let (length, _) ← blockSize kubo links directoryData
  if shardThresholdBytes < length then putShards kubo links
  else putNode kubo links directoryData

end Put

/-! ## The manifest -/

def segments (path : Text) : List Text := path.splitOn 47

def validPart (part : Text) : Bool :=
  !part.isEmpty && part != [46] && part != [46, 46] && !part.contains 92 && !part.contains 0

/-- The directories above a path, from the top. -/
def parents (parts : List Text) : List (List Text) :=
  (List.range' 1 (parts.length - 1)).map fun depth => parts.take depth

/-- What a directory counts for in the manifest. -/
def directoryBytes (path : List Text) : ℕ :=
  (path.map List.length).sum + path.length * 32 + 128

/-- What the first loop of `build` has collected. -/
structure Manifest (Cid : Type) where
  usedBytes : ℕ
  paths : List (List Text)
  directories : List (List Text × List (Link Cid))
  entries : List (List Text × Cid)

/-- `contains_key` of the directories. -/
def hasDirectory (directories : List (List Text × List (Link Cid))) (path : List Text) : Bool :=
  directories.any fun directory => directory.1 == path

def addParent (acc : ℕ × List (List Text × List (Link Cid))) (parent : List Text) :
    BuildResult (ℕ × List (List Text × List (Link Cid))) :=
  if hasDirectory acc.2 parent = true then .ok acc
  else do
    let usedBytes := acc.1 + directoryBytes parent
    ensure (usedBytes ≤ maxManifestBytes) (.failed .invalidManifest)
    ensure (acc.2.length < maxFiles) (.failed .invalidManifest)
    .ok (usedBytes, acc.2 ++ [(parent, [])])

def addEntry (kubo : KuboClient Cid) (manifest : Manifest Cid) (file : DirectoryFile) :
    BuildResult (Manifest Cid) := do
  let parts := segments file.path
  ensure (parts.length ≤ maxDepth ∧ parts.all validPart = true ∧
    Text.startsWith file.path [47] = false) (.failed .invalidManifest)
  let usedBytes := manifest.usedBytes + (file.path.length + file.cid.length)
  ensure (usedBytes ≤ maxManifestBytes) (.failed .invalidManifest)
  match kubo.parseCid file.cid with
  | none => .error (.failed .invalidManifest)
  | some cid => do
    ensure (manifest.paths.contains parts = false) (.failed .pathConflict)
    let (usedBytes, directories) ← (parents parts).foldlM addParent
      (usedBytes, manifest.directories)
    .ok ⟨usedBytes, manifest.paths ++ [parts], directories, manifest.entries ++ [(parts, cid)]⟩

/-- The first loop of `build`, with the check for files in the place of directories. -/
def readManifest (kubo : KuboClient Cid) (files : List DirectoryFile) :
    BuildResult (Manifest Cid) := do
  let manifest ← files.foldlM (addEntry kubo) ⟨0, [], [([], [])], []⟩
  ensure (manifest.paths.any (hasDirectory manifest.directories) = false) (.failed .pathConflict)
  .ok manifest

/-! ## The directories -/

/-- The links of a directory get one more; the directory is there. -/
def pushLink (directories : List (List Text × List (Link Cid))) (parent : List Text)
    (link : Link Cid) : BuildResult (List (List Text × List (Link Cid))) :=
  if hasDirectory directories parent = true then
    .ok (updateWhere (fun directory => directory.1 == parent)
      (fun directory => (directory.1, directory.2 ++ [link])) directories)
  else .error (.panicked "parent created")

section Build

variable [DecidableEq Cid] (kubo : KuboClient Cid)

/-- The known sizes of files, with the size of one more. -/
def memoSize (sizes : List (Cid × ℕ)) (cid : Cid) : BuildResult (List (Cid × ℕ)) :=
  if (sizes.lookup cid).isSome = true then .ok sizes
  else do
    let size ← call (kubo.fileSize cid)
    .ok ((cid, size) :: sizes)

def addFile (acc : List (Cid × ℕ) × List (List Text × List (Link Cid)))
    (entry : List Text × Cid) :
    BuildResult (List (Cid × ℕ) × List (List Text × List (Link Cid))) := do
  let sizes ← memoSize kubo acc.1 entry.2
  match entry.1.getLast?, sizes.lookup entry.2 with
  | some name, some size => do
    let directories ← pushLink acc.2 entry.1.dropLast ⟨name, entry.2, size⟩
    .ok (sizes, directories)
  | none, _ => .error (.panicked "validated non-empty path")
  | some _, none => .error (.panicked "no entry found for key")

/-- The order in which directories are written: the deepest first. -/
def buildOrder (directories : List (List Text × List (Link Cid))) : List (List Text) :=
  sortBy (fun path => toLex (OrderDual.toDual path.length, path)) (directories.map Prod.fst)

/-- What the last loop of `build` works on. -/
structure Pending (Cid : Type) where
  directories : List (List Text × List (Link Cid))
  root : Option (DirectoryCandidate Cid)

def writeDirectory (pending : Pending Cid) (path : List Text) : BuildResult (Pending Cid) :=
  match pending.directories.lookup path with
  | none => .error (.panicked "directory enumerated")
  | some links => do
    let directories := deleteWhere (fun directory => directory.1 == path) pending.directories
    let links := sortBy Link.name links
    match path.getLast? with
    | none => do
      let nodeIdentity ← call kubo.localNodeIdentity
      let (cid, _) ← putDirectory kubo links
      .ok ⟨directories, some ⟨cid, nodeIdentity⟩⟩
    | some name => do
      let (cid, size) ← putDirectory kubo links
      let directories ← pushLink directories path.dropLast ⟨name, cid, size⟩
      .ok ⟨directories, pending.root⟩

/-- The part of `build` between the manifest and the root. -/
def buildManifest (manifest : Manifest Cid) : BuildResult (DirectoryCandidate Cid) := do
  let (_, directories) ← manifest.entries.foldlM (addFile kubo) ([], manifest.directories)
  let pending ← (buildOrder directories).foldlM (writeDirectory kubo) ⟨directories, none⟩
  match pending.root with
  | none => .error (.panicked "nonempty manifest has root")
  | some root => .ok root

/-- `build` up to the root. -/
def build (files : List DirectoryFile) : BuildResult (Option (DirectoryCandidate Cid)) := do
  ensure (files.length ≤ maxFiles) (.failed .invalidManifest)
  if files = [] then .ok none
  else do
    let manifest ← readManifest kubo files
    let root ← buildManifest kubo manifest
    .ok (some root)

end Build

end IpfS3.Kubo
