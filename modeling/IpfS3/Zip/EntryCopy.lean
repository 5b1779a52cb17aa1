import IpfS3.Zip.Extract
import IpfS3.Zip.TransferRules

/-!
# The transfer of an entry

While the copy and the add run, what the add has received, what the pipe holds and what the copy has
not written yet make up what the ZIP library has yielded (`Piping`).  So a copy that reaches the end of
the payload has written all of it (`Copied.complete`), in every interleaving (`piping_race`).

What is charged is another matter.  A chunk is charged only after the observer has seen it, and a
failed upload drops the copy wherever it is suspended; `Accounted` keeps the books of what is charged,
yielded and lost.
-/

namespace IpfS3.Zip

open Hoare List

variable {ω : Type}

/-- What the copy has read and not handed to the writer. -/
def CopyPhase.unhanded : CopyPhase → Bytes
  | .observing chunk => chunk
  | _ => []

/-- What the copy has read and the writer has not taken. -/
def CopyPhase.unwritten : CopyPhase → Bytes
  | .reading => []
  | .observing chunk => chunk
  | .writing chunk => chunk

structure Tracks (entry : ArchiveEntry) (header : LocalHeaderMeta) (s : Reading) : Prop where
  entry_eq : s.record.entry = entry
  header_eq : s.record.header = header
  payload : s.yielded ++ s.rest = entry.payload
  position : s.probe.position = s.compressedStart + s.record.consumed
  unarmed : s.probe.armed = false
  charged : s.record.handedBytes + s.remaining = s.remainingBeforeEntry

/-- An entry on its way through the pipe, with nothing lost and nothing failed. -/
structure Piping (entry : ArchiveEntry) (header : LocalHeaderMeta) (stored : Option StoredObject)
    (writerOpen : Bool) (s : Reading) : Prop extends Tracks entry header s where
  copied : s.record.handed.flatten ++ s.phase.unhanded = s.yielded
  sent : s.record.written ++ s.phase.unwritten = s.yielded
  fifo : s.record.received ++ s.pipe.buffered = s.record.written
  ended : s.record.ended = true → s.pipe.writerOpen = false ∧ s.pipe.buffered = []
  writer_eq : s.pipe.writerOpen = writerOpen
  stored_eq : s.record.stored = stored
  succeeded : s.record.failed = false

/-- The copy has reached the end of the payload. -/
structure Copied (entry : ArchiveEntry) (header : LocalHeaderMeta) (stored : Option StoredObject)
    (writerOpen : Bool) (s : Reading) : Prop extends Piping entry header stored writerOpen s where
  rest_eq : s.rest = []
  phase_eq : s.phase = .reading

/-! ## What is charged -/

/-- The books of an entry of which `lost` bytes were yielded and dropped. -/
structure Accounted (lost : ℕ) (s : Reading) : Prop where
  charged : s.record.handedBytes + s.remaining = s.remainingBeforeEntry
  yielded : s.record.handedBytes + s.phase.unhanded.length + lost = s.yielded.length
  chunk_ne : ∀ chunk, s.phase = .observing chunk → chunk ≠ []

/-- The copy has reached the end of the payload. -/
structure Drained (lost : ℕ) (s : Reading) : Prop where
  charged : s.record.handedBytes + s.remaining = s.remainingBeforeEntry
  yielded : s.record.handedBytes + lost = s.yielded.length

section Accounting

variable {lost : ℕ} {s : Reading}

def AccountedPost (lost : ℕ) (result : CopyProgress ω) (s : Reading) : Prop :=
  Accounted lost s ∧ (result = some (.ok ()) → s.phase = .reading)

theorem Accounted.drained (h : Accounted lost s) (hphase : s.phase = .reading) :
    Drained lost s where
  charged := h.charged
  yielded := by
    have hyielded := h.yielded
    rw [hphase] at hyielded
    exact hyielded

theorem Accounted.restart (h : Accounted 0 s) :
    Accounted s.phase.unhanded.length { s with phase := .reading } where
  charged := h.charged
  yielded := h.yielded
  chunk_ne := fun _ heq => by cases heq

theorem Accounted.yield (h : Accounted lost s) {length : ℕ} (hphase : s.phase = .reading)
    (hrest : s.rest ≠ []) (hlength : 1 ≤ length) :
    Accounted lost (s.yield length) := by
  have hyielded := h.yielded
  rw [hphase] at hyielded
  refine ⟨h.charged, ?_, ?_⟩
  · show s.record.handedBytes + (s.rest.take _).length + lost =
      (s.yielded ++ s.rest.take _).length
    rw [List.length_append, ← hyielded]
    show _ = s.record.handedBytes + 0 + lost + _
    omega
  · intro chunk heq
    obtain rfl := CopyPhase.observing.inj heq
    intro hnil
    rcases List.take_eq_nil_iff.mp hnil with hzero | hempty
    · omega
    · exact hrest hempty

theorem Accounted.charge (h : Accounted lost s) {chunk : Bytes} (hphase : s.phase = .observing chunk)
    (hremaining : chunk.length ≤ s.remaining) :
    Accounted lost (s.charge chunk) := by
  have hcharged := h.charged
  have hyielded := h.yielded
  rw [hphase] at hyielded
  refine ⟨?_, ?_, fun _ heq => by cases heq⟩
  · show EntryRecord.handedBytes _ + (s.remaining - chunk.length) = s.remainingBeforeEntry
    rw [handedBytes_charge]
    omega
  · show EntryRecord.handedBytes _ + 0 + lost = s.yielded.length
    rw [handedBytes_charge]
    exact hyielded

theorem Accounted.accept (h : Accounted lost s) {chunk : Bytes} (hphase : s.phase = .writing chunk)
    (count : ℕ) (buffered : Bytes) : Accounted lost (s.accept chunk count buffered) := by
  have hyielded := h.yielded
  rw [hphase] at hyielded
  have hnext : (s.accept chunk count buffered).phase = .reading ∨
      ∃ rest, (s.accept chunk count buffered).phase = .writing rest := by
    unfold Reading.accept
    dsimp only
    split_ifs
    · exact Or.inl rfl
    · exact Or.inr ⟨_, rfl⟩
  refine ⟨h.charged, ?_, ?_⟩
  · rcases hnext with hnext | ⟨rest, hnext⟩
    · rw [hnext]
      exact hyielded
    · rw [hnext]
      exact hyielded
  · intro other heq
    rcases hnext with hnext | ⟨rest, hnext⟩
    · exact absurd (hnext.symm.trans heq) fun h => by cases h
    · exact absurd (hnext.symm.trans heq) fun h => by cases h

/-- A property that reads only the books. -/
def OfBooks (I : Reading → Prop) : Prop :=
  ∀ s s' : Reading, s'.phase = s.phase → s'.remaining = s.remaining →
    s'.remainingBeforeEntry = s.remainingBeforeEntry → s'.yielded = s.yielded →
    s'.record.handed = s.record.handed → I s → I s'

theorem ofBooks_accounted : OfBooks (Accounted lost) := by
  intro s s' hphase hremaining hbefore hyielded hhanded hs
  have hbytes : s'.record.handedBytes = s.record.handedBytes := by
    rw [EntryRecord.handedBytes, hhanded, EntryRecord.handedBytes]
  refine ⟨?_, ?_, ?_⟩
  · rw [hbytes, hremaining, hbefore, hs.charged]
  · rw [hbytes, hphase, hyielded, hs.yielded]
  · rw [hphase]
    exact hs.chunk_ne

theorem OfBooks.blind {I : Reading → Prop} (h : OfBooks I) : Blind I :=
  fun s _ _ _ _ _ hs => h s _ rfl rfl rfl rfl rfl hs

/-- What a transfer leaves: a file that is stored has been copied to its end. -/
def TransferPost (lost : ℕ) (result : Except (EntryTransferError ω) StoredObject) (s : Reading) :
    Prop :=
  Accounted lost s ∧ ∀ stored, result = .ok stored → s.phase = .reading

/-- **One step of the copy** keeps the books, whatever comes of it. -/
theorem Accounted.move {writer : Writer} {s' : Reading} {result : CopyProgress ω}
    (h : Accounted lost s) (hmove : CopyMove writer s result s') : Accounted lost s' := by
  have hconsume (events : List SourceEvent) : Accounted lost (s.consume events) :=
    ofBooks_accounted s _ rfl rfl rfl rfl rfl h
  cases hmove with
  | idle => exact h
  | readFailed events error => exact { h with }
  | ended events => exact hconsume events
  | yielded events length hphase hrest hlength =>
    exact (hconsume events).yield hphase hrest hlength
  | stopped failure => exact h
  | charged chunk hphase hremaining => exact h.charge hphase hremaining
  | accepted chunk count buffered hphase => exact h.accept hphase count buffered
  | refused => exact { h with }

end Accounting

/-! ## The pipe -/

section Entry

variable {entry : ArchiveEntry} {header : LocalHeaderMeta} {stored : Option StoredObject}
  {writerOpen : Bool} {s : Reading}

def CopyStepPost (entry : ArchiveEntry) (header : LocalHeaderMeta) (stored : Option StoredObject) :
    CopyProgress ω → Reading → Prop
  | none, s => Piping entry header stored true s
  | some (.ok ()), s => Copied entry header stored true s
  | some (.error _), _ => True

section

variable (h : Piping entry header stored writerOpen s)

include h

theorem Piping.consume (events : List SourceEvent) :
    Piping entry header stored writerOpen (s.consume events) := by
  unfold Reading.consume
  rw [observeAll_of_unarmed h.unarmed]
  have hposition : s.probe.position + (events.map SourceEvent.amount).sum =
      s.compressedStart + (s.record.consumed + (events.map SourceEvent.amount).sum) := by
    rw [h.position, add_assoc]
  exact { h with position := hposition }

theorem Piping.yield (hphase : s.phase = .reading)
    (length : ℕ) :
    Piping entry header stored writerOpen (s.yield length) := by
  have hcopied := h.copied
  have hsent := h.sent
  rw [hphase] at hcopied hsent
  have hhanded : s.record.handed.flatten = s.yielded := (append_nil _).symm.trans hcopied
  have hwritten : s.record.written = s.yielded := (append_nil _).symm.trans hsent
  refine { h with payload := ?_, copied := ?_, sent := ?_ }
  · show s.yielded ++ s.rest.take _ ++ s.rest.drop _ = entry.payload
    rw [append_assoc, take_append_drop, h.payload]
  · show s.record.handed.flatten ++ s.rest.take _ = s.yielded ++ s.rest.take _
    rw [hhanded]
  · show s.record.written ++ s.rest.take _ = s.yielded ++ s.rest.take _
    rw [hwritten]

theorem Piping.charge {chunk : Bytes}
    (hphase : s.phase = .observing chunk) (hremaining : chunk.length ≤ s.remaining) :
    Piping entry header stored writerOpen (s.charge chunk) := by
  have hcharged := h.charged
  have hcopied := h.copied
  have hsent := h.sent
  rw [hphase] at hcopied hsent
  refine { h with charged := ?_, copied := ?_, sent := hsent }
  · show EntryRecord.handedBytes _ + (s.remaining - chunk.length) = s.remainingBeforeEntry
    rw [handedBytes_charge]
    omega
  · show (s.record.handed ++ [chunk]).flatten ++ [] = s.yielded
    rw [flatten_append, flatten_singleton, append_nil]
    exact hcopied

end

theorem Piping.accept (h : Piping entry header stored true s) {chunk : Bytes}
    (hphase : s.phase = .writing chunk) (count : ℕ) :
    Piping entry header stored true
      (s.accept chunk count (s.pipe.buffered ++ chunk.take count)) := by
  have hcopied := h.copied
  have hsent := h.sent
  rw [hphase] at hcopied hsent
  have hphase' : (s.accept chunk count (s.pipe.buffered ++ chunk.take count)).phase.unhanded = [] ∧
      (s.accept chunk count (s.pipe.buffered ++ chunk.take count)).phase.unwritten =
        chunk.drop count := by
    unfold Reading.accept
    dsimp only
    split_ifs with hdone
    · exact ⟨rfl, (isEmpty_iff.mp hdone).symm⟩
    · exact ⟨rfl, rfl⟩
  refine { h with copied := ?_, sent := ?_, fifo := ?_, ended := ?_ }
  · rw [hphase'.1]
    exact hcopied
  · rw [hphase'.2]
    show s.record.written ++ chunk.take count ++ chunk.drop count = s.yielded
    rw [append_assoc, take_append_drop]
    exact hsent
  · show s.record.received ++ (s.pipe.buffered ++ chunk.take count) =
      s.record.written ++ chunk.take count
    rw [← append_assoc, h.fifo]
  · -- The writer is open, so the add has not seen the end.
    intro hended
    exact absurd ((h.ended hended).1.symm.trans h.writer_eq) Bool.false_ne_true

/-- **One step of the copy** loses nothing, and ends well only at the end of the payload. -/
theorem Piping.move {s' : Reading} {result : CopyProgress ω}
    (h : Piping entry header stored true s) (hmove : CopyMove .pipe s result s') :
    CopyStepPost entry header stored result s' := by
  cases hmove with
  | idle => exact h
  | readFailed events error => exact trivial
  | ended events hphase hrest =>
    exact { h.consume events with
      rest_eq := hrest
      phase_eq := hphase }
  | yielded events length hphase => exact (h.consume events).yield hphase length
  | stopped failure => exact trivial
  | charged chunk hphase hremaining => exact h.charge hphase hremaining
  | accepted chunk count buffered hphase hbuffered =>
    rw [hbuffered rfl]
    exact h.accept hphase count
  | refused => exact trivial

theorem copies_piping : Copies ω .pipe (Piping entry header stored true)
    (Copied entry header stored true) fun _ => True where
  move := by
    intro s s' result h hmove
    have hstep := h.move hmove
    rcases result with _ | failure | ⟨⟩
    · exact hstep
    · exact trivial
    · exact hstep
  drop := fun _ => trivial

theorem Piping.receive (h : Piping entry header stored writerOpen s) (amount : ℕ) :
    Piping entry header stored writerOpen (s.receive amount) := by
  unfold Reading.receive
  split_ifs with hclosed hend
  · exact h
  · rw [Bool.and_eq_true, List.isEmpty_iff, Bool.not_eq_true'] at hend
    exact { h with ended := fun _ => ⟨hend.2, hend.1⟩ }
  · refine { h with fifo := ?_, ended := fun hended => ⟨(h.ended hended).1, ?_⟩ }
    · show s.record.received ++ s.pipe.buffered.take amount ++ s.pipe.buffered.drop amount = _
      rw [append_assoc, take_append_drop]
      exact h.fifo
    · show s.pipe.buffered.drop amount = []
      rw [(h.ended hended).2, drop_nil]

theorem Copied.receive (h : Copied entry header stored writerOpen s) (amount : ℕ) :
    Copied entry header stored writerOpen (s.receive amount) := by
  refine { h.toPiping.receive amount with rest_eq := ?_, phase_eq := ?_ }
  · unfold Reading.receive
    split_ifs <;> exact h.rest_eq
  · unfold Reading.receive
    split_ifs <;> exact h.phase_eq

/-- **The add** takes from the front of the pipe. -/
theorem transfers_piping : Transfers ω (fun stored => Piping entry header stored true)
    (fun stored => Copied entry header stored true)
    (fun stored => Copied entry header stored false) fun _ => True where
  copies := fun _ => copies_piping
  racing :=
    { receive := fun amount h => h.receive amount
      hangUp := fun h => { h with }
      succeed := fun _ h => { h with stored_eq := rfl }
      fail := fun _ => trivial
      drop := fun _ => trivial }
  closed :=
    { receive := fun amount h => h.receive amount
      hangUp := fun h => { h with }
      succeed := fun _ h => { h with stored_eq := rfl }
      fail := fun _ => trivial
      drop := fun _ => trivial }
  failed := Blind.uploads fun _ _ _ _ _ _ h => h
  ended := fun _ => trivial
  close := by
    intro stored s h
    have hfailed : (s.record.failed || false) = false := by
      rw [h.succeeded]
      rfl
    exact { h with
      ended := fun hended => ⟨rfl, (h.ended hended).2⟩
      writer_eq := rfl
      succeeded := hfailed }
  closeFailed := fun _ _ => trivial

/-- What the `select!` leaves. -/
def RacePost (entry : ArchiveEntry) (header : LocalHeaderMeta) : Completed ω → Reading → Prop
  | .copy (.ok ()) _, s => Copied entry header none true s
  | .copy (.error _) _, _ => True
  | .upload (.ok object) _, s => Piping entry header (some object) true s
  | .upload (.error _) _, _ => True

/-- **Every interleaving** of the copy and the add loses nothing. -/
theorem piping_race (events : List (TransferEvent ω)) :
    Returns (Piping entry header none true) (race events) (RacePost entry header) := by
  refine (transfers_piping.race events).conseq (fun _ h => h) ?_ fun _ _ _ => trivial
  rintro (⟨failure | ⟨⟩, rest⟩ | ⟨error | object, rest⟩) s h
  · exact trivial
  · exact h
  · exact trivial
  · exact h

/-- **A transfer that returns `Ok`**: the copy has reached the end of the payload, and an add that has
seen the end of its input has received it. -/
theorem copied_uploadEntryToKubo (script : TransferScript ω) :
    Returns (fun s => Piping entry header none true s.startTransfer) (uploadEntryToKubo script)
      fun result s => ∀ stored, result = .ok stored → Copied entry header (some stored) false s := by
  refine (transfers_piping.uploadEntryToKubo script).conseq (fun _ h => h) ?_ fun _ _ _ => trivial
  rintro _ s h stored rfl
  exact h

theorem Copied.complete (h : Copied entry header stored writerOpen s) :
    s.yielded = entry.payload ∧ s.record.handedBytes = entry.payload.length ∧
      (s.record.ended = true → s.record.received = entry.payload) := by
  have hpayload := h.payload
  have hcopied := h.copied
  have hsent := h.sent
  rw [h.rest_eq, append_nil] at hpayload
  rw [h.phase_eq] at hcopied hsent
  have hhanded : s.record.handed.flatten = s.yielded := (append_nil _).symm.trans hcopied
  have hwritten : s.record.written = s.yielded := (append_nil _).symm.trans hsent
  refine ⟨hpayload, ?_, fun hended => ?_⟩
  · rw [EntryRecord.handedBytes, ← length_flatten, hhanded, hpayload]
  · have hfifo := h.fifo
    rw [(h.ended hended).2, append_nil] at hfifo
    rw [hfifo, hwritten, hpayload]

end Entry

theorem piping_openEntry (limits : ZipExtractionLimits) (s : Extraction) (entry : ArchiveEntry)
    (header : LocalHeaderMeta) :
    Piping entry header none true (s.openEntry limits entry header).reading.startTransfer where
  entry_eq := rfl
  header_eq := rfl
  payload := rfl
  position := rfl
  unarmed := rfl
  charged := Nat.zero_add _
  copied := rfl
  sent := rfl
  fifo := rfl
  ended := fun h => by cases h
  writer_eq := rfl
  stored_eq := rfl
  succeeded := rfl

theorem accounted_openEntry (limits : ZipExtractionLimits) (s : Extraction) (entry : ArchiveEntry)
    (header : LocalHeaderMeta) :
    Accounted 0 (s.openEntry limits entry header).reading.startTransfer :=
  ⟨Nat.zero_add _, rfl, fun _ heq => by cases heq⟩

/-- An entry of two bytes that has been opened, and its transfer started. -/
def twoByteTransfer : Reading :=
  ((Extraction.initial ⟨10, 10, 1, 10000, 1⟩ []).openEntry ⟨10, 10, 1, 10000, 1⟩
    ⟨some [97], .stored, 7, 2, 2, [1, 2]⟩ ⟨0, 0⟩).reading.startTransfer

/-- The add takes its turn between the two writes of the copy. -/
def twoByteEvents : List (TransferEvent Unit) :=
  [.copy (.read [.consume 2] 2), .copy (.observed .ok), .copy (.write 1), .upload (.receive 4),
    .copy (.write 1), .copy (.read [] 2)]

theorem piping_race_openEntry : ∃ rest s, race twoByteEvents twoByteTransfer =
    .ok (.copy (.ok ()) rest) s ∧ s.yielded = [1, 2] ∧ s.record.handedBytes = 2 := by
  have hpost := piping_race twoByteEvents twoByteTransfer
    (piping_openEntry ⟨10, 10, 1, 10000, 1⟩ (.initial ⟨10, 10, 1, 10000, 1⟩ []) _ ⟨0, 0⟩)
  refine ⟨_, _, rfl, ?_⟩
  exact ⟨(Copied.complete hpost).1, (Copied.complete hpost).2.1⟩

end IpfS3.Zip
