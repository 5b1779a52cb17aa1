import IpfS3.Zip.Sanitize
import IpfS3.Zip.Transfer

/-!
# Extraction of an archive

`zip/extract.rs`: `extract_observed_with_limits` peeks at the signature, then takes the entries of the
archive one by one.  A directory is drained; a file is uploaded, and drained when the upload fails.
An entry that fails is recorded and the next one follows, unless the archive cannot be read further.

One `EntryScript` drives one round of the loop.  A round is cut at the call of `finish_entry`
(`approach`, `conclude`), which the three paths through it have in common.
-/

namespace IpfS3.Zip

open Hoare

variable {ω : Type}

/-- `ZipExtractionLimits`, as far as the extraction reads it; a deadline drops the future. -/
structure ZipExtractionLimits where
  maxDecompressedBytes : ℕ
  maxSingleEntryBytes : ℕ
  maxEntries : ℕ
  maxMetadataBytes : ℕ
  maxStagedAdds : ℕ
  deriving DecidableEq

structure ExtractedEntry where
  key : Text
  cid : Text
  size : ℤ
  deriving DecidableEq

structure ExtractFailure where
  entryName : Text
  code : Text
  message : Text
  deriving DecidableEq

structure ExtractOutcome where
  entries : List ExtractedEntry
  failures : List ExtractFailure
  deriving DecidableEq

/-- The variables of `extract_observed_with_limits`.  `records` are the records of the entries before
the current one, the last first; there is a current one once a local header has been accepted. -/
structure Extraction where
  reading : Reading
  stagedAddsLeft : ℕ
  entries : List ExtractedEntry
  failures : List ExtractFailure
  records : List EntryRecord
  opened : Bool
  deriving DecidableEq

abbrev ExtractM (ω α : Type) := EStateM (Stop ω) Extraction α

/-- The records of all entries, the last first. -/
def Extraction.ledger (s : Extraction) : List EntryRecord :=
  if s.opened = true then s.reading.record :: s.records else s.records

theorem ledger_of_opened {s : Extraction} (h : s.opened = true) :
    s.ledger = s.reading.record :: s.records := if_pos h

def enter {α : Type} (m : EntryM ω α) : ExtractM ω α :=
  zoom Extraction.reading (fun s reading => { s with reading }) m

/-! ## Errors -/

def budgetRejection (reportedMax : ℕ) : AppError :=
  .zipArchiveRejected (Text.ascii ("archive expands beyond the ".toList ++
    Nat.toDigits 10 reportedMax ++ " byte decompression limit".toList))

def entryBudgetRejection : AppError :=
  .zipArchiveRejected (Text.ascii
    "ZIP entry exceeds the single-entry decompression limit".toList)

def limitError (kind : BudgetKind) (reportedMax : ℕ) : AppError :=
  match kind with
  | .archive => budgetRejection reportedMax
  | .entry => entryBudgetRejection

def resourceBudgetRejection : AppError :=
  .zipArchiveRejected (Text.ascii "archive exceeds ZIP staged add budget".toList)

def backendStreamError (error : IoError) : Option AppError :=
  if error.kuboStream then some (.kuboRpc "Kubo response stream failed") else none

/-- The error of an archive that cannot be read. -/
def invalidArchive (error : IoError) : AppError :=
  (backendStreamError error).getD
    (.zipArchiveRejected (Text.ascii "invalid zip archive: ".toList ++ error.display.flatten))

def isCharBoundary (value : Text) (index : ℕ) : Bool :=
  index == 0 || index == value.length ||
    (decide (index < value.length) && !(128 ≤ value.getD index 0 && value.getD index 0 < 192))

def floorCharBoundary (value : Text) : ℕ → ℕ
  | 0 => 0
  | index + 1 =>
    if isCharBoundary value (index + 1) then index + 1 else floorCharBoundary value index

/-- `write_str` of the bounded message. -/
def writeBounded (message value : Text) : Text :=
  message ++ value.take (floorCharBoundary value (min value.length (512 - message.length)))

def failure (entryName : Text) (code : String) (message : List Text) : ExtractFailure :=
  ⟨entryName, Text.ascii code.toList, message.foldl writeBounded []⟩

/-! ## One entry -/

/-- The result of `next_with_entry`. -/
inductive NextEntry where
  | failed (error : IoError)
  | finished
  | entry (entry : ArchiveEntry)

/-- The script of one round: what `next_with_entry` reads and returns, what the observer replies, and
what happens while the entry is transferred, drained and finished. -/
structure EntryScript (ω : Type) where
  source : List SourceEvent
  next : NextEntry
  entryStarted : Reply ω
  transfer : TransferScript ω
  uploadFailed : Reply ω
  drain : List (CopyEvent ω)
  finish : FinishScript
  entryFailed : Reply ω
  entryFinished : Reply ω

inductive Flow where
  | next
  | finished
  deriving DecidableEq

/-- A call of `finish_entry`: the entry, the key and the object of a file that was stored, and where the
copy was suspended if the upload failed. -/
structure FinishCall where
  name : Text
  stored : Option (Text × StoredObject)
  interrupted : Option CopyPhase
  deriving DecidableEq

/-- A round up to the call of `finish_entry`, or to its end without one. -/
inductive Approach where
  | ended (flow : Flow) (interrupted : Option CopyPhase)
  | calls (call : FinishCall)
  deriving DecidableEq

def notify : Reply ω → ExtractM ω PUnit
  | .ok => pure ⟨⟩
  | .failed error => throw (.observer error)
  | .dropped => throw .dropped

def recordFailure (reply : Reply ω) (failed : ExtractFailure) : ExtractM ω PUnit := do
  notify reply
  modify fun s => { s with failures := s.failures ++ [failed] }

/-- An entry that cannot be read ends the extraction. -/
def readFailure (script : EntryScript ω) (name : Text) (error : IoError) : ExtractM ω Flow :=
  match backendStreamError error with
  | some error => throw (.archive error)
  | none => do
    recordFailure script.entryFailed (failure name "EntryReadFailed" error.display)
    pure .finished

/-- An entry that does not match its header or descriptor. -/
def mismatch (script : EntryScript ω) (name : Text) : ExtractM ω Flow := do
  recordFailure script.entryFailed
    (failure name "EntryReadFailed" [Text.ascii "ZIP CRC or size mismatch".toList])
  pure .next

section Entry

variable (crc32 : Bytes → UInt32) (limits : ZipExtractionLimits) (reportedMax : ℕ)
  (targetPrefix : Text)

def reserveAdd : ExtractM ω PUnit := do
  let s ← get
  if s.stagedAddsLeft = 0 then throw (.limit resourceBudgetRejection)
  else
    match checkedSub s.stagedAddsLeft 1 with
    | some stagedAddsLeft => set { s with stagedAddsLeft }
    | none => throw .underflow

/-- The entry cannot be read; an upload of it may have failed before. -/
def endRound (interrupted : Option CopyPhase) (script : EntryScript ω) (name : Text)
    (error : IoError) : ExtractM ω Approach := do
  let flow ← readFailure script name error
  pure (.ended flow interrupted)

/-- The rest of the payload is charged and thrown away. -/
def drainEntry (interrupted : Option CopyPhase) (script : EntryScript ω) (name : Text) :
    ExtractM ω Approach := do
  match ← enter (drainToSink script.drain) with
  | .error (.budgetExceeded kind) => throw (.limit (limitError kind reportedMax))
  | .error (.observer error) => throw (.observer error)
  | .error (.io error) => endRound interrupted script name error
  | .ok () => pure (.calls ⟨name, none, interrupted⟩)

/-- A failed upload; the copy has been dropped. -/
def drainFailedUpload (script : EntryScript ω) (name : Text) (error : List Text) :
    ExtractM ω Approach := do
  let s ← get
  recordFailure script.uploadFailed (failure name "EntryUploadFailed" error)
  drainEntry reportedMax (some s.reading.phase) script name

def extractFile (script : EntryScript ω) (name key : Text) : ExtractM ω Approach := do
  reserveAdd
  notify script.entryStarted
  match ← enter (uploadEntryToKubo script.transfer) with
  | .ok stored => pure (.calls ⟨name, some (key, stored), none⟩)
  | .error (.upload error) => drainFailedUpload reportedMax script name error
  | .error (.read error) => endRound none script name error
  | .error (.budgetExceeded kind) => throw (.limit (limitError kind reportedMax))
  | .error (.observer error) => throw (.observer error)

def supported : Compression → ℕ → Bool
  | .stored, 0 => true
  | .deflate, 8 => true
  | _, _ => false

/-- An entry whose local header has been accepted. -/
def extractOpened (script : EntryScript ω) (entry : ArchiveEntry) (header : LocalHeaderMeta) :
    ExtractM ω Approach :=
  if supported entry.compression header.compressionMethod = false then
    throw (.archive (.unsupportedZipEntry (Text.ascii
      "local-header compression method must match Stored(0) or Deflate(8)".toList)))
  else if header.compressionMethod = 0 ∧ header.usesDescriptor = true then
    throw (.archive (.unsupportedZipEntry (Text.ascii
      "Stored entry uses general-purpose bit 3 (data descriptor)".toList)))
  else
    match entry.name with
    | none =>
      throw (.archive (.invalidZipEntry (Text.ascii "entry name is not valid UTF-8".toList)))
    | some name =>
      match sanitizeEntry name targetPrefix with
      | .error error => throw (.archive error)
      | .ok .directory => drainEntry reportedMax none script name
      | .ok (.file key) => extractFile reportedMax script name key

/-- An error of `next_with_entry`. -/
def nextFailed {α : Type} (error : IoError) : ExtractM ω α := do
  let s ← get
  if s.reading.probe.limitExceeded then
    throw (.limit (.zipArchiveRejected (Text.ascii
      "archive exceeds ZIP entry or metadata budget".toList)))
  else throw (.archive (invalidArchive error))

/-- The state in which the body of an entry starts. -/
def Extraction.openEntry (s : Extraction) (entry : ArchiveEntry) (header : LocalHeaderMeta) :
    Extraction :=
  { s with
    records := s.ledger
    opened := true
    reading := { s.reading with
      probe := s.reading.probe.take.1
      compressedStart := s.reading.probe.position
      remainingBeforeEntry := s.reading.remaining
      entryRemaining := limits.maxSingleEntryBytes
      rest := entry.payload
      yielded := []
      phase := .reading
      record := .fresh entry header } }

/-- `local_headers.take()`. -/
def takeHeader (entry : ArchiveEntry) : ExtractM ω LocalHeaderMeta := do
  let s ← get
  match s.reading.probe.take.2 with
  | .error message =>
    throw (.archive (.zipArchiveRejected (Text.ascii
      ("invalid zip local header: ".toList ++ message.toList))))
  | .ok header => do
    set (s.openEntry limits entry header)
    pure header

/-- One round of the loop, up to the call of `finish_entry`. -/
def approach (script : EntryScript ω) : ExtractM ω Approach := do
  enter (modify fun s => { s with probe := s.probe.start })
  match ← enter (observeSource script.source) with
  | some error => nextFailed error
  | none =>
    match script.next with
    | .failed error => nextFailed error
    | .finished => pure (.ended .finished none)
    | .entry entry => do
      let header ← takeHeader limits entry
      extractOpened reportedMax targetPrefix script entry header

/-- `finish_entry` as the loop calls it: the size is a difference of budgets. -/
def finishCurrent (script : FinishScript) : EntryM ω (Except IoError Bool) := do
  let s ← get
  let size ← chargedLength
  finishEntry crc32 s.record.header.usesDescriptor size script

/-- A valid entry; a file that was stored is reported. -/
def reportValid (script : EntryScript ω) : Option (Text × StoredObject) → ExtractM ω Flow
  | none => pure .next
  | some (key, stored) => do
    notify script.entryFinished
    modify fun s => { s with entries := s.entries ++ [⟨key, stored.cid, stored.size⟩] }
    pure .next

/-- The call of `finish_entry`, and what follows it. -/
def conclude (script : EntryScript ω) : Approach → ExtractM ω Flow
  | .ended flow _ => pure flow
  | .calls call => do
    match ← enter (finishCurrent crc32 script.finish) with
    | .ok true => reportValid script call.stored
    | .ok false => mismatch script call.name
    | .error error => readFailure script call.name error

def extractEntry (script : EntryScript ω) : ExtractM ω Flow :=
  approach limits reportedMax targetPrefix script >>= conclude crc32 script

def extractLoop : List (EntryScript ω) → ExtractM ω ExtractOutcome
  | [] => throw .dropped
  | script :: scripts => do
    match ← extractEntry crc32 limits reportedMax targetPrefix script with
    | .next => extractLoop scripts
    | .finished => do
      let s ← get
      pure ⟨s.entries, s.failures⟩

end Entry

/-! ## The archive -/

/-- The items of the stream that the archive is read from. -/
abbrev SourceStream := List (Except IoError Bytes)

/-- Reads until a buffer is full or the stream ends. -/
def fillBuffer (length : ℕ) (buffer : Bytes) : SourceStream → Except IoError (Bytes × SourceStream)
  | [] => .ok (buffer, [])
  | .error error :: items =>
    if buffer.length = length then .ok (buffer, .error error :: items) else .error error
  | .ok chunk :: items =>
    if buffer.length + chunk.length ≤ length then fillBuffer length (buffer ++ chunk) items
    else
      let count := length - buffer.length
      .ok (buffer ++ chunk.take count, .ok (chunk.drop count) :: items)

inductive Opening where
  | rejected (error : AppError)
  | empty
  | entries
  deriving DecidableEq

/-- The check for an empty archive: a strict end record, with nothing behind it. -/
def peekSignature (stream : SourceStream) : Opening :=
  match fillBuffer 4 [] stream with
  | .error error => .rejected (invalidArchive error)
  | .ok (signature, stream) =>
    if signature = [0x50, 0x4b, 0x05, 0x06] then
      match fillBuffer 19 [] stream with
      | .error error => .rejected (invalidArchive error)
      | .ok (tail, _) =>
        if tail = List.replicate 18 0 then .empty
        else .rejected (.zipArchiveRejected (Text.ascii "invalid empty zip archive".toList))
    else .entries

/-- An entry that stands for none, before the first. -/
def ArchiveEntry.absent : ArchiveEntry := ⟨none, .other, 0, 0, 0, []⟩

def Extraction.initial (limits : ZipExtractionLimits) (targetPrefix : Text) : Extraction where
  reading :=
    { remaining := limits.maxDecompressedBytes
      entryRemaining := 0
      probe := .withBudget limits.maxEntries limits.maxMetadataBytes targetPrefix.length
      compressedStart := 0
      remainingBeforeEntry := limits.maxDecompressedBytes
      rest := []
      yielded := []
      phase := .reading
      pipe := ⟨[], false, false⟩
      record := .fresh .absent ⟨0, 0⟩ }
  stagedAddsLeft := limits.maxStagedAdds
  entries := []
  failures := []
  records := []
  opened := false

def extractObservedWithLimits (crc32 : Bytes → UInt32) (limits : ZipExtractionLimits)
    (reportedMax : ℕ) (targetPrefix : Text) (stream : SourceStream)
    (scripts : List (EntryScript ω)) : ExtractM ω ExtractOutcome :=
  match peekSignature stream with
  | .rejected error => throw (.archive error)
  | .empty => pure ⟨[], []⟩
  | .entries => extractLoop crc32 limits reportedMax targetPrefix scripts

/-- The whole extraction, with the state that it leaves. -/
def extractRun (crc32 : Bytes → UInt32) (limits : ZipExtractionLimits) (reportedMax : ℕ)
    (targetPrefix : Text) (stream : SourceStream) (scripts : List (EntryScript ω)) :
    EStateM.Result (Stop ω) Extraction ExtractOutcome :=
  extractObservedWithLimits crc32 limits reportedMax targetPrefix stream scripts
    (Extraction.initial limits targetPrefix)

end IpfS3.Zip
