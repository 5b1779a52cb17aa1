import IpfS3.AppError
import IpfS3.Foundations.Hoare
import IpfS3.Zip.LocalHeader

/-!
# The transfer of an entry

`zip/extract.rs` copies the decompressed bytes of an archive entry through a pipe to a Kubo add, or to
a sink, and charges every chunk to two budgets before it hands the chunk to the writer.  The copy and
the add are two futures that a `select!` polls in any order; each of them may finish first, and both
are dropped when the request is.  `zip/integrity.rs` then compares the entry with what was read.

The order of events is given by a script: what the ZIP library reads, what the observer replies, how
much the pipe takes, what the add does.  A script that ends is a future that is dropped at an `await`.
`EntryRecord` keeps what happened to an entry, for the statements; no decision reads it.
-/

namespace IpfS3.Zip

open Hoare

variable {ω : Type}

/-- An `io::Error`: what the extraction asks of it, and the pieces that its `Display` writes. -/
structure IoError where
  brokenPipe : Bool
  kuboStream : Bool
  display : List Text
  deriving DecidableEq

structure StoredObject where
  cid : Text
  size : ℤ
  deriving DecidableEq

inductive Compression where
  | stored
  | deflate
  | other
  deriving DecidableEq

/-- An entry as the ZIP library reports it.  The name is `none` when it is not UTF-8, and the payload
is what the library decompresses. -/
structure ArchiveEntry where
  name : Option Text
  compression : Compression
  crc32 : UInt32
  uncompressedSize : ℕ
  compressedSize : ℕ
  payload : Bytes
  deriving DecidableEq

inductive BudgetKind where
  | archive
  | entry
  deriving DecidableEq

inductive CopyFailure (ω : Type) where
  | io (error : IoError)
  | budgetExceeded (kind : BudgetKind)
  | observer (error : ω)

/-- `EntryTransferError`.  The error of an upload is given by the pieces that its `Display` writes. -/
inductive EntryTransferError (ω : Type) where
  | upload (error : List Text)
  | read (error : IoError)
  | budgetExceeded (kind : BudgetKind)
  | observer (error : ω)

inductive Reply (ω : Type) where
  | ok
  | failed (error : ω)
  | dropped

/-- `ObservedExtractionError`, and two ends that are no result: the future is dropped, or a
subtraction underflows. -/
inductive Stop (ω : Type) where
  | archive (error : AppError)
  | limit (error : AppError)
  | observer (error : ω)
  | dropped
  | underflow

/-- What happened to an entry whose local header was accepted. -/
structure EntryRecord where
  entry : ArchiveEntry
  header : LocalHeaderMeta
  /-- The chunks that were handed to `write_all`. -/
  handed : List Bytes
  /-- The bytes that the pipe or the sink took. -/
  written : Bytes
  /-- Whether a Kubo add was attempted. -/
  attempted : Bool
  /-- The bytes that the add received. -/
  received : Bytes
  /-- Whether the add saw the end of its input. -/
  ended : Bool
  /-- The object of an add that returned `Ok`. -/
  stored : Option StoredObject
  /-- The bytes of the archive that were consumed while the payload was read. -/
  consumed : ℕ
  /-- The bytes that were read after the payload. -/
  trailer : Bytes
  /-- Whether the upload, a read, the integrity check or the framing failed. -/
  failed : Bool
  deriving DecidableEq

def EntryRecord.fresh (entry : ArchiveEntry) (header : LocalHeaderMeta) : EntryRecord :=
  ⟨entry, header, [], [], false, [], false, none, 0, [], false⟩

/-- The bytes of the chunks that were handed to a writer, each counted in full. -/
def EntryRecord.handedBytes (record : EntryRecord) : ℕ := (record.handed.map List.length).sum

/-- Where `copy_with_budget` is suspended. -/
inductive CopyPhase where
  | reading
  | observing (chunk : Bytes)
  | writing (chunk : Bytes)
  deriving DecidableEq

/-- The pipe of `tokio::io::duplex`. -/
structure Pipe where
  buffered : Bytes
  readerOpen : Bool
  writerOpen : Bool
  deriving DecidableEq

/-- The size of the pipe and of the copy buffer. -/
def bufferLen : ℕ := 64 * 1024

/-- The state of an entry: the budgets, the probe, the variables of the loop body, the payload that
the ZIP library has yielded and that it has not, the copy, and the pipe. -/
structure Reading where
  remaining : ℕ
  entryRemaining : ℕ
  probe : ProbeState
  compressedStart : ℕ
  remainingBeforeEntry : ℕ
  rest : Bytes
  yielded : Bytes
  phase : CopyPhase
  pipe : Pipe
  record : EntryRecord
  deriving DecidableEq

abbrev EntryM (ω α : Type) := EStateM (Stop ω) Reading α

/-! ## The copy -/

inductive CopyEvent (ω : Type) where
  | read (source : List SourceEvent) (amount : ℕ)
  | readFailed (source : List SourceEvent) (error : IoError)
  | observed (reply : Reply ω)
  | write (amount : ℕ)

inductive Writer where
  | pipe
  | sink
  deriving DecidableEq

/-- The error of `observe_consumed`. -/
def sourceBudgetError : IoError :=
  ⟨false, false, [Text.ascii "ZIP entry or metadata budget exceeded".toList]⟩

/-- The error of a write to a pipe whose reader is gone. -/
def brokenPipeError : IoError := ⟨true, false, [Text.ascii "broken pipe".toList]⟩

/-- What the ZIP library does with its reader. -/
def observeSource (events : List SourceEvent) : EntryM ω (Option IoError) := do
  let s ← get
  let (probe, outcome) := s.probe.observeAll events
  set { s with probe }
  match outcome with
  | .ok => pure none
  | .budgetExceeded => pure (some sourceBudgetError)
  | .underflow => throw .underflow

/-- What the ZIP library reads of the archive to decompress the payload. -/
def readSource (events : List SourceEvent) : EntryM ω (Option IoError) := do
  modify fun s =>
    { s with record.consumed := s.record.consumed + (events.map SourceEvent.amount).sum }
  observeSource events

def markFailed : EntryM ω PUnit := modify fun s => { s with record.failed := true }

/-- The result of a copy, once it has one. -/
abbrev CopyProgress (ω : Type) := Option (Except (CopyFailure ω) Unit)

def failRead (error : IoError) : EntryM ω (CopyProgress ω) := do
  markFailed
  pure (some (.error (.io error)))

/-- The next bytes of the payload; there are none only at its end. -/
def yieldChunk (amount : ℕ) : EntryM ω (CopyProgress ω) := do
  let s ← get
  let length := max 1 (min amount bufferLen)
  if s.rest.isEmpty then pure (some (.ok ()))
  else do
    set { s with
      rest := s.rest.drop length
      yielded := s.yielded ++ s.rest.take length
      phase := .observing (s.rest.take length) }
    pure none

def readChunk (source : List SourceEvent) (amount : ℕ) : EntryM ω (CopyProgress ω) := do
  match ← readSource source with
  | some error => failRead error
  | none => yieldChunk amount

def chargeChunk (chunk : Bytes) : EntryM ω (CopyProgress ω) := do
  let s ← get
  if s.remaining < chunk.length then pure (some (.error (.budgetExceeded .archive)))
  else if s.entryRemaining < chunk.length then pure (some (.error (.budgetExceeded .entry)))
  else
    match checkedSub s.remaining chunk.length, checkedSub s.entryRemaining chunk.length with
    | some remaining, some entryRemaining => do
      set { s with
        remaining
        entryRemaining
        phase := .writing chunk
        record.handed := s.record.handed ++ [chunk] }
      pure none
    | _, _ => throw .underflow

/-- The state after the writer took the first bytes of a chunk. -/
def Reading.accept (s : Reading) (chunk : Bytes) (count : ℕ) (buffered : Bytes) : Reading :=
  { s with
    phase := if (chunk.drop count).isEmpty = true then .reading else .writing (chunk.drop count)
    pipe.buffered := buffered
    record.written := s.record.written ++ chunk.take count }

/-- A write to the pipe, which takes what it has room for, or to the sink, which takes all. -/
def writeChunk (writer : Writer) (chunk : Bytes) (amount : ℕ) : EntryM ω (CopyProgress ω) := do
  let s ← get
  match writer with
  | .sink => do
    set (s.accept chunk chunk.length s.pipe.buffered)
    pure none
  | .pipe =>
    if s.pipe.readerOpen then do
      let count := min amount (bufferLen - s.pipe.buffered.length)
      set (s.accept chunk count (s.pipe.buffered ++ chunk.take count))
      pure none
    else failRead brokenPipeError

/-- One step of `copy_with_budget`; an event that it does not wait for does nothing. -/
def copyStep (writer : Writer) (event : CopyEvent ω) : EntryM ω (CopyProgress ω) := do
  let s ← get
  match s.phase, event with
  | .reading, .read source amount => readChunk source amount
  | .reading, .readFailed source error => do
    let _ ← readSource source
    failRead error
  | .observing chunk, .observed .ok => chargeChunk chunk
  | .observing _, .observed (.failed error) => pure (some (.error (.observer error)))
  | .observing _, .observed .dropped => throw .dropped
  | .writing chunk, .write amount => writeChunk writer chunk amount
  | _, _ => pure none

def copyWithBudget (writer : Writer) : List (CopyEvent ω) → EntryM ω (Except (CopyFailure ω) Unit)
  | [] => throw .dropped
  | event :: events => do
    match ← copyStep writer event with
    | some result => pure result
    | none => copyWithBudget writer events

/-- The copy of what is left of the payload to the sink. -/
def drainToSink (events : List (CopyEvent ω)) : EntryM ω (Except (CopyFailure ω) Unit) := do
  modify fun s => { s with phase := .reading }
  copyWithBudget .sink events

/-! ## The upload -/

inductive UploadEvent where
  | receive (amount : ℕ)
  | hangUp
  | finished (result : Except (List Text) StoredObject)

/-- The add reads from the pipe: bytes, or the end. -/
def Reading.receive (s : Reading) (amount : ℕ) : Reading :=
  if s.pipe.readerOpen = false then s
  else if s.pipe.buffered.isEmpty && !s.pipe.writerOpen then { s with record.ended := true }
  else
    { s with
      pipe.buffered := s.pipe.buffered.drop amount
      record.received := s.record.received ++ s.pipe.buffered.take amount }

def uploadStep : UploadEvent → EntryM ω (Option (Except (List Text) StoredObject))
  | .receive amount => do
    modify fun s => s.receive amount
    pure none
  | .hangUp => do
    modify fun s => { s with pipe.readerOpen := false }
    pure none
  | .finished (.ok stored) => do
    modify fun s => { s with pipe.readerOpen := false, record.stored := some stored }
    pure (some (.ok stored))
  | .finished (.error error) => do
    modify fun s => { s with pipe.readerOpen := false, record.failed := true }
    pure (some (.error error))

def awaitUpload : List UploadEvent → EntryM ω (Except (List Text) StoredObject)
  | [] => throw .dropped
  | event :: events => do
    match ← uploadStep event with
    | some result => pure result
    | none => awaitUpload events

/-- What wakes the `select!` up. -/
inductive TransferEvent (ω : Type) where
  | copy (event : CopyEvent ω)
  | upload (event : UploadEvent)

def copyEvents : List (TransferEvent ω) → List (CopyEvent ω)
  | [] => []
  | .copy event :: events => event :: copyEvents events
  | .upload _ :: events => copyEvents events

def uploadEvents : List (TransferEvent ω) → List UploadEvent
  | [] => []
  | .copy _ :: events => uploadEvents events
  | .upload event :: events => event :: uploadEvents events

/-- The future that finishes first, with its result and the events that follow. -/
inductive Completed (ω : Type) where
  | copy (result : Except (CopyFailure ω) Unit) (events : List (TransferEvent ω))
  | upload (result : Except (List Text) StoredObject) (events : List (TransferEvent ω))

/-- The `select!` of `upload_entry_to_kubo`. -/
def race : List (TransferEvent ω) → EntryM ω (Completed ω)
  | [] => throw .dropped
  | .copy event :: events => do
    match ← copyStep .pipe event with
    | some result => pure (.copy result events)
    | none => race events
  | .upload event :: events => do
    match ← uploadStep event with
    | some result => pure (.upload result events)
    | none => race events

structure TransferScript (ω : Type) where
  events : List (TransferEvent ω)
  shutdown : Option IoError

/-- `duplex_writer.shutdown()`. -/
def shutdown (result : Option IoError) : EntryM ω (Option IoError) := do
  modify fun s =>
    { s with pipe.writerOpen := false, record.failed := s.record.failed || result.isSome }
  pure result

def Reading.startTransfer (s : Reading) : Reading :=
  { s with phase := .reading, pipe := ⟨[], true, true⟩, record.attempted := true }

/-- The result of a transfer whose copy failed. -/
def copyError : CopyFailure ω → EntryTransferError ω
  | .budgetExceeded kind => .budgetExceeded kind
  | .io error => .read error
  | .observer error => .observer error

def afterUpload (script : TransferScript ω) (events : List (TransferEvent ω)) :
    Except (List Text) StoredObject → EntryM ω (Except (EntryTransferError ω) StoredObject)
  | .error error => do
    let _ ← shutdown script.shutdown
    pure (.error (.upload error))
  | .ok stored => do
    let result ← copyWithBudget .pipe (copyEvents events)
    let closed ← shutdown script.shutdown
    match result, closed with
    | .ok (), none => pure (.ok stored)
    | .ok (), some error => pure (.error (.read error))
    | .error failure, _ => pure (.error (copyError failure))

/-- The copy has finished first and its writer is shut down. -/
def afterCopy (events : List (TransferEvent ω)) : Except (CopyFailure ω) Unit → Option IoError →
    EntryM ω (Except (EntryTransferError ω) StoredObject)
  | .error (.budgetExceeded kind), _ => pure (.error (.budgetExceeded kind))
  | .error (.observer error), _ => pure (.error (.observer error))
  | .error (.io error), _ => do
    match ← awaitUpload (uploadEvents events) with
    | .error failed => pure (.error (if error.brokenPipe then .upload failed else .read error))
    | .ok _ => pure (.error (.read error))
  | .ok (), some error => pure (.error (.read error))
  | .ok (), none => do
    match ← awaitUpload (uploadEvents events) with
    | .ok stored => pure (.ok stored)
    | .error failed => pure (.error (.upload failed))

def uploadEntryToKubo (script : TransferScript ω) :
    EntryM ω (Except (EntryTransferError ω) StoredObject) := do
  modify Reading.startTransfer
  match ← race script.events with
  | .upload result events => afterUpload script events result
  | .copy result events => do
    let closed ← shutdown script.shutdown
    afterCopy events result closed

/-! ## The end of an entry -/

/-- What the ZIP library does to finish an entry. -/
structure FinishScript where
  source : List SourceEvent
  error : Option IoError

/-- `reader.done()`. -/
def done (script : FinishScript) : EntryM ω (Option IoError) := do
  modify fun s => { s with record.trailer := readBytes script.source }
  match ← observeSource script.source with
  | some error => pure (some error)
  | none => pure script.error

def judge (valid : Bool) : EntryM ω (Except IoError Bool) := do
  modify fun s => { s with record.failed := s.record.failed || !valid }
  pure (.ok valid)

/-- The compressed length of the entry: the bytes that passed the probe. -/
def compressedLength : EntryM ω ℕ := do
  let s ← get
  match checkedSub s.probe.position s.compressedStart with
  | some compressed => pure compressed
  | none => throw .underflow

/-- The bytes that were charged for the entry. -/
def chargedLength : EntryM ω ℕ := do
  let s ← get
  match checkedSub s.remainingBeforeEntry s.remaining with
  | some size => pure size
  | none => throw .underflow

/-- The probe is armed for a descriptor when the entry has one. -/
def Reading.expectDescriptor (s : Reading) (descriptor : Bool) : Reading :=
  if descriptor = true then { s with probe := s.probe.beginDescriptor } else s

/-- `finish_entry`, with the hash that the ZIP library computes. -/
def finishEntry (crc32 : Bytes → UInt32) (descriptor : Bool) (size : ℕ) (script : FinishScript) :
    EntryM ω (Except IoError Bool) := do
  let compressed ← compressedLength
  let s ← get
  let crc := crc32 s.yielded
  let entry := s.record.entry
  let valid := descriptor ||
    (entry.crc32 == crc && entry.uncompressedSize == size && entry.compressedSize == compressed)
  modify fun s => s.expectDescriptor descriptor
  match ← done script with
  | some error => do
    markFailed
    pure (.error error)
  | none =>
    if descriptor then do
      let s ← get
      let (probe, stated) := s.probe.descriptorMatches crc compressed size
      set { s with probe }
      judge (valid && stated)
    else judge valid

end IpfS3.Zip
