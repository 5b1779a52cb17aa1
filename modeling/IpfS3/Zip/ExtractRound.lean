import IpfS3.Zip.EntryCopy

/-!
# The call of `finish_entry`

`finish_entry` compares the size of an entry with a difference of budgets.  The copy charges a chunk
only after the observer has seen it, and a failed upload drops the copy wherever it is suspended.  A
chunk that the observer still looks at is then lost: the ZIP library has yielded it, nobody has
charged it, and the drain goes on behind it.

`Approached` is what a round leaves at the call, or at its end without one.  At the call, what was
charged is what was yielded unless the upload failed while the observer had a chunk
(`charged_eq_yielded_iff`), in every round of an extraction (`extractRounds_charged_iff`).
-/

namespace IpfS3.Zip

open Hoare List

variable {ω : Type}

/-! ## Up to the call -/

/-- An entry is open after those of `s₀`, and these failures were recorded for it. -/
structure Follows (s₀ : Extraction) (failures : List ExtractFailure) (s : Extraction) : Prop where
  opened : s.opened = true
  records_eq : s.records = s₀.ledger
  entries_eq : s.entries = s₀.entries
  failures_eq : s.failures = s₀.failures ++ failures

/-- There is no entry after those of `s₀`. -/
structure NoHeader (s₀ s : Extraction) : Prop where
  entries_eq : s.entries = s₀.entries
  failures_eq : s.failures = s₀.failures
  ledger_eq : s.ledger = s₀.ledger

/-- The bytes that were lost when the upload failed. -/
def lostBytes (interrupted : Option CopyPhase) : ℕ :=
  (interrupted.map fun phase => phase.unhanded.length).getD 0

/-- The books at a call of `finish_entry`. -/
structure Booked (interrupted : Option CopyPhase) (s : Reading) : Prop where
  drained : Drained (lostBytes interrupted) s
  chunk_ne : ∀ chunk, interrupted = some (.observing chunk) → chunk ≠ []

/-- What a round has done at the call, or at its end without one.  A failed upload is one failure, and
a failed read another. -/
inductive Approached (targetPrefix : Text) (s₀ s : Extraction) : Approach → Prop where
  | noHeader (h : NoHeader s₀ s) : Approached targetPrefix s₀ s (.ended .finished none)
  | ended {failures : List ExtractFailure} {interrupted : Option CopyPhase} (flow : Flow)
      (h : Follows s₀ failures s) (hcount : failures.length = interrupted.toList.length + 1) :
      Approached targetPrefix s₀ s (.ended flow interrupted)
  | drained {failures : List ExtractFailure} {interrupted : Option CopyPhase} (name : Text)
      (h : Follows s₀ failures s) (hcount : failures.length = interrupted.toList.length)
      (hbooked : Booked interrupted s.reading) :
      Approached targetPrefix s₀ s (.calls ⟨name, none, interrupted⟩)
  | stored {entry : ArchiveEntry} {header : LocalHeaderMeta} {name key : Text}
      (object : StoredObject) (hname : entry.name = some name)
      (hkey : sanitizeEntry name targetPrefix = .ok (.file key)) (h : Follows s₀ [] s)
      (hcopied : Copied entry header (some object) false s.reading) :
      Approached targetPrefix s₀ s (.calls ⟨name, some (key, object), none⟩)

section Round

variable (limits : ZipExtractionLimits) (reportedMax : ℕ) {targetPrefix name : Text}
  {s₀ s : Extraction} {failures : List ExtractFailure} {interrupted : Option CopyPhase}
  {P : Reading → Prop}

theorem follows_enter {α : Type} {Q : α → Reading → Prop} {m : EntryM ω α} (hm : Returns P m Q) :
    Returns (fun s => Follows s₀ failures s ∧ P s.reading) (enter m)
      fun a s => Follows s₀ failures s ∧ Q a s.reading := by
  refine Triple.zoom fun t ht => hm.conseq ?_ (fun _ _ hQ => ⟨{ ht.1 with }, hQ⟩) fun _ _ h => h
  rintro _ rfl
  exact ht.2

theorem returns_notify {P : Extraction → Prop} (reply : Reply ω) :
    Returns P (notify reply) fun _ => P := by
  cases reply with
  | ok => exact Triple.pure fun _ h => h
  | failed error => exact Triple.throws
  | dropped => exact Triple.throws

theorem returns_reserveAdd {P : Extraction → Prop}
    (hP : ∀ s stagedAddsLeft, P s → P { s with stagedAddsLeft }) :
    Returns P (reserveAdd : ExtractM ω PUnit) fun _ => P := by
  refine Triple.get_bind fun s hs => Triple.ite (fun _ => Triple.throws)
    fun _ => ?_
  cases checkedSub s.stagedAddsLeft 1 with
  | none => exact Triple.throws
  | some stagedAddsLeft => exact Triple.set (hP s stagedAddsLeft hs)

theorem follows_recordFailure (reply : Reply ω) (failed : ExtractFailure) :
    Returns (fun s => Follows s₀ failures s ∧ P s.reading) (recordFailure reply failed)
      fun _ s => Follows s₀ (failures ++ [failed]) s ∧ P s.reading := by
  refine Triple.bind (returns_notify reply) fun _ => Triple.modify fun s h =>
    ⟨{ h.1 with failures_eq := ?_ }, h.2⟩
  show s.failures ++ [failed] = _
  rw [h.1.failures_eq, append_assoc]

theorem follows_readFailure (script : EntryScript ω) (error : IoError) :
    Returns (Follows s₀ failures) (readFailure script name error)
      fun _ s => ∃ read, Follows s₀ (failures ++ [read]) s := by
  unfold readFailure
  cases backendStreamError error with
  | some error => exact Triple.throws
  | none =>
    exact Triple.bind_pure (((follows_recordFailure (P := fun _ => True) _ _).pre
      fun _ h => ⟨h, trivial⟩).post fun _ _ h => ⟨_, h.1⟩)

theorem approached_endRound (script : EntryScript ω) (error : IoError)
    (hcount : failures.length = interrupted.toList.length) :
    Returns (Follows s₀ failures) (endRound interrupted script name error)
      fun result s => Approached targetPrefix s₀ s result := by
  refine Triple.bind (follows_readFailure script error) fun flow => Triple.pure ?_
  rintro s ⟨read, h⟩
  exact .ended flow h (by rw [length_append, length_singleton, hcount])

theorem accounted_drainToSink {lost : ℕ} (events : List (CopyEvent ω)) :
    Returns (fun s => Accounted lost { s with phase := .reading }) (drainToSink events)
      fun result s => result = .ok () → Drained lost s :=
  Triple.bind (Q := fun _ => Accounted lost) (Triple.modify fun _ h => h) fun _ =>
    (copyWithBudget_of_move (fun _ _ _ h hmove => h.move hmove) events).conseq (fun _ h => h)
      (fun _ _ h heq => h.1.drained (h.2 heq)) fun _ _ _ => trivial

theorem approached_drainEntry (script : EntryScript ω)
    (hcount : failures.length = interrupted.toList.length)
    (hchunk : ∀ chunk, interrupted = some (.observing chunk) → chunk ≠ []) :
    Returns (fun s => Follows s₀ failures s ∧
        Accounted (lostBytes interrupted) { s.reading with phase := .reading })
      (drainEntry reportedMax interrupted script name)
      fun result s => Approached targetPrefix s₀ s result := by
  refine Triple.bind (follows_enter (accounted_drainToSink script.drain)) fun result => ?_
  rcases result with ⟨error | kind | error⟩ | ⟨⟩
  · exact (approached_endRound script error hcount).pre fun _ h => h.1
  · exact Triple.throws
  · exact Triple.throws
  · exact Triple.pure fun _ h => .drained name h.1 hcount ⟨h.2 rfl, hchunk⟩

theorem approached_drainFailedUpload (script : EntryScript ω) (error : List Text) :
    Returns (fun s => Follows s₀ [] s ∧ Accounted 0 s.reading)
      (drainFailedUpload reportedMax script name error)
      fun result s => Approached targetPrefix s₀ s result := by
  refine Triple.get_bind fun s hs => ?_
  have hcount : ([] ++ [failure name "EntryUploadFailed" error]).length =
      (some s.reading.phase).toList.length := rfl
  refine Triple.bind ((follows_recordFailure (P := fun reading =>
    Accounted s.reading.phase.unhanded.length { reading with phase := .reading }) _ _).pre ?_)
    fun _ => approached_drainEntry reportedMax script hcount fun chunk heq =>
      hs.2.chunk_ne chunk (Option.some.inj heq)
  rintro _ rfl
  exact ⟨hs.1, hs.2.restart⟩

theorem approached_extractFile {entry : ArchiveEntry} {header : LocalHeaderMeta} {key : Text}
    (script : EntryScript ω) (hname : entry.name = some name)
    (hkey : sanitizeEntry name targetPrefix = .ok (.file key)) :
    Returns (fun s => Follows s₀ [] s ∧ Piping entry header none true s.reading.startTransfer ∧
        Accounted 0 s.reading.startTransfer)
      (extractFile reportedMax script name key)
      fun result s => Approached targetPrefix s₀ s result := by
  have htransfer : Returns (fun s => Piping entry header none true s.startTransfer ∧
      Accounted 0 s.startTransfer) (uploadEntryToKubo script.transfer) fun result s =>
        (∀ object, result = .ok object → Copied entry header (some object) false s) ∧
          Accounted 0 s :=
    (copied_uploadEntryToKubo script.transfer).and
      ((ofBooks_accounted.blind.uploadEntryToKubo (fun _ _ _ h hmove => h.move hmove)
        script.transfer).conseq (fun _ h => h) (fun _ _ h => h.1) fun _ _ _ => trivial)
  refine Triple.bind (returns_reserveAdd fun _ _ h => ⟨{ h.1 with }, h.2⟩) fun _ =>
    Triple.bind (returns_notify _) fun _ => Triple.bind (follows_enter htransfer) fun result => ?_
  rcases result with ⟨error | error | kind | error⟩ | object
  · exact (approached_drainFailedUpload reportedMax script error).pre fun _ h => ⟨h.1, h.2.2⟩
  · exact (approached_endRound script error rfl).pre fun _ h => h.1
  · exact Triple.throws
  · exact Triple.throws
  · exact Triple.pure fun _ h => .stored object hname hkey h.1 (h.2.1 object rfl)

theorem approached_extractOpened (script : EntryScript ω) (entry : ArchiveEntry)
    (header : LocalHeaderMeta) :
    Returns (fun s => Follows s₀ [] s ∧ Piping entry header none true s.reading.startTransfer ∧
        Accounted 0 s.reading.startTransfer)
      (extractOpened reportedMax targetPrefix script entry header)
      fun result s => Approached targetPrefix s₀ s result := by
  refine Triple.ite (fun _ => Triple.throws) fun _ =>
    Triple.ite (fun _ => Triple.throws) fun _ => ?_
  rcases hname : entry.name with _ | name
  · exact Triple.throws
  · dsimp only
    rcases hkey : sanitizeEntry name targetPrefix with error | key | _
    · exact Triple.throws
    · exact approached_extractFile reportedMax script hname hkey
    · refine (approached_drainEntry reportedMax script rfl fun _ heq => by cases heq).pre
        fun s hs => ⟨hs.1, ?_⟩
      exact ⟨hs.2.2.charged, hs.2.2.yielded, fun _ heq => by cases heq⟩

theorem noHeader_enter {α : Type} {m : EntryM ω α}
    (hm : ∀ s, Returns (fun s' => s' = s) m fun _ s' => s'.record = s.record) :
    Returns (NoHeader s₀) (enter m) fun _ => NoHeader s₀ := by
  refine Triple.zoom fun t ht => (hm t.reading).post fun _ reading hrecord => ?_
  have hledger : ({ t with reading } : Extraction).ledger = t.ledger := by
    rw [Extraction.ledger, Extraction.ledger]
    dsimp only
    rw [hrecord]
  exact { ht with ledger_eq := hledger.trans ht.ledger_eq }

theorem nextFailed_throws {α : Type} {P : Extraction → Prop} {Q : α → Extraction → Prop}
    (error : IoError) : Returns P (nextFailed error : ExtractM ω α) Q :=
  Triple.get_bind fun _ _ =>
    Triple.ite (fun _ => Triple.throws) fun _ => Triple.throws

/-- **One round of the loop**, up to the call. -/
theorem approached_approach (script : EntryScript ω) (s₀ : Extraction) :
    Returns (fun s => s = s₀) (approach limits reportedMax targetPrefix script)
      fun result s => Approached targetPrefix s₀ s result := by
  refine Triple.pre (P := NoHeader s₀) ?_ fun _ heq => heq ▸ ⟨rfl, rfl, rfl⟩
  refine Triple.bind (noHeader_enter fun s => Triple.modify fun _ heq => heq ▸ rfl) fun _ =>
    Triple.bind (noHeader_enter fun s => (observeSource_spec script.source s).post
      fun _ _ h => h.1 ▸ rfl) fun failed => ?_
  cases failed with
  | some error => exact nextFailed_throws error
  | none =>
    cases script.next with
    | failed error => exact nextFailed_throws error
    | finished => exact Triple.pure fun _ h => .noHeader h
    | entry entry =>
      refine Triple.bind (Q := fun header s => Follows s₀ [] s ∧
        Piping entry header none true s.reading.startTransfer ∧
          Accounted 0 s.reading.startTransfer) ?_
        fun header => approached_extractOpened reportedMax script entry header
      refine Triple.get_bind fun s hs => ?_
      cases s.reading.probe.take.2 with
      | error message => exact Triple.throws
      | ok header =>
        refine Triple.bind_pure (Triple.set ⟨⟨rfl, hs.ledger_eq, hs.entries_eq, ?_⟩,
          piping_openEntry limits s entry header, accounted_openEntry limits s entry header⟩)
        exact hs.failures_eq.trans (append_nil _).symm

end Round

/-! ## At the call -/

theorem Copied.booked {entry : ArchiveEntry} {header : LocalHeaderMeta}
    {stored : Option StoredObject} {writerOpen : Bool} {s : Reading}
    (h : Copied entry header stored writerOpen s) : Booked none s := by
  obtain ⟨hyielded, hbytes, -⟩ := h.complete
  refine ⟨⟨h.charged, ?_⟩, fun _ heq => by cases heq⟩
  rw [hyielded, hbytes]
  rfl

theorem Approached.booked {targetPrefix : Text} {s₀ s : Extraction} {call : FinishCall}
    (h : Approached targetPrefix s₀ s (.calls call)) : Booked call.interrupted s.reading := by
  cases h with
  | drained name h hcount hbooked => exact hbooked
  | stored object hname hkey h hcopied => exact hcopied.booked

theorem lostBytes_eq_zero_iff {interrupted : Option CopyPhase}
    (h : ∀ chunk, interrupted = some (.observing chunk) → chunk ≠ []) :
    lostBytes interrupted = 0 ↔ ∀ chunk, interrupted ≠ some (.observing chunk) := by
  rcases interrupted with _ | _ | chunk | chunk
  · exact ⟨fun _ _ heq => (by cases heq), fun _ => rfl⟩
  · exact ⟨fun _ _ heq => (by cases heq), fun _ => rfl⟩
  · refine ⟨fun hlost => absurd (List.length_eq_zero_iff.mp hlost) (h chunk rfl), fun hne => ?_⟩
    exact absurd rfl (hne chunk)
  · exact ⟨fun _ _ heq => (by cases heq), fun _ => rfl⟩

theorem Booked.charged_iff {interrupted : Option CopyPhase} {s : Reading}
    (h : Booked interrupted s) :
    checkedSub s.remainingBeforeEntry s.remaining = some s.yielded.length ↔
      ∀ chunk, interrupted ≠ some (.observing chunk) := by
  have hcharged := h.drained.charged
  have hyielded := h.drained.yielded
  rw [← lostBytes_eq_zero_iff h.chunk_ne, checkedSub_of_le (by omega), Option.some.injEq]
  omega

section Run

variable (crc32 : Bytes → UInt32) (limits : ZipExtractionLimits) (reportedMax : ℕ)
  (targetPrefix : Text)

variable {limits reportedMax targetPrefix} in
theorem approached_of_approach {script : EntryScript ω} {s t : Extraction} {result : Approach}
    (h : approach limits reportedMax targetPrefix script s = .ok result t) :
    Approached targetPrefix s t result := by
  have hspec : Returns (fun s' => s' = s) (approach limits reportedMax targetPrefix script)
      fun result t => Approached targetPrefix s t result :=
    approached_approach limits reportedMax script s
  have hpost := hspec s rfl
  rw [h] at hpost
  exact hpost

/-- **The size that `finish_entry` compares.**  A round of the loop, from any state, runs up to the call
of `finish_entry` and goes on from there; at the call, the bytes that were charged for the entry are
those that the ZIP library has yielded, unless the upload failed while the observer had a chunk. -/
theorem charged_eq_yielded_iff (script : EntryScript ω) :
    extractEntry crc32 limits reportedMax targetPrefix script =
        approach limits reportedMax targetPrefix script >>= conclude crc32 script ∧
      ∀ s call t, approach limits reportedMax targetPrefix script s = .ok (.calls call) t →
        (checkedSub t.reading.remainingBeforeEntry t.reading.remaining =
            some t.reading.yielded.length ↔
          ∀ chunk, call.interrupted ≠ some (.observing chunk)) :=
  ⟨rfl, fun _ _ _ hcall => (approached_of_approach hcall).booked.charged_iff⟩

/-- The rounds of the loop: the script of each, and the state in which it starts. -/
def rounds : List (EntryScript ω) → Extraction → List (EntryScript ω × Extraction)
  | [], _ => []
  | script :: scripts, s =>
    (script, s) ::
      match extractEntry crc32 limits reportedMax targetPrefix script s with
      | .ok .next s' => rounds scripts s'
      | _ => []

def extractRounds (stream : SourceStream) (scripts : List (EntryScript ω)) :
    List (EntryScript ω × Extraction) :=
  match peekSignature stream with
  | .entries =>
    rounds crc32 limits reportedMax targetPrefix scripts (Extraction.initial limits targetPrefix)
  | _ => []

theorem extractRounds_charged_iff (stream : SourceStream) (scripts : List (EntryScript ω)) :
    (∀ round ∈ extractRounds crc32 limits reportedMax targetPrefix stream scripts,
      ∀ call t, approach limits reportedMax targetPrefix round.1 round.2 = .ok (.calls call) t →
        checkedSub t.reading.remainingBeforeEntry t.reading.remaining =
          some t.reading.yielded.length) ↔
    ∀ round ∈ extractRounds crc32 limits reportedMax targetPrefix stream scripts,
      ∀ call t, approach limits reportedMax targetPrefix round.1 round.2 = .ok (.calls call) t →
        ∀ chunk, call.interrupted ≠ some (.observing chunk) := by
  have hround {round : EntryScript ω × Extraction} {call : FinishCall} {t : Extraction}
      (hcall : approach limits reportedMax targetPrefix round.1 round.2 = .ok (.calls call) t) :=
    (approached_of_approach hcall).booked.charged_iff
  constructor
  · intro h round hmem call t hcall
    exact (hround hcall).mp (h round hmem call t hcall)
  · intro h round hmem call t hcall
    exact (hround hcall).mpr (h round hmem call t hcall)

end Run

/-- A local header of a stored file whose name has one byte. -/
def sampleHeader : Bytes := localHeaderSignature ++ replicate 22 0 ++ [1, 0, 0, 0]

@[irreducible]
def crc32Ieee (bytes : Bytes) : UInt32 :=
  let shift (crc : UInt32) (_ : ℕ) : UInt32 :=
    if crc &&& 1 = 1 then (crc >>> 1) ^^^ 0xedb88320 else crc >>> 1
  ~~~bytes.foldl (fun crc byte => (range 8).foldl shift (crc ^^^ byte.toUInt32)) 0xffffffff

/-- An archive with one file of two bytes. -/
def sampleScripts : List (EntryScript Unit) :=
  [{ source := [.read sampleHeader, .read [97]]
     next := .entry ⟨some [97], .stored, 0xb6cc4292, 2, 2, [1, 2]⟩
     entryStarted := .ok
     transfer :=
       { events := [.copy (.read [.consume 2] 2), .copy (.observed .ok), .copy (.write 1),
           .upload (.receive 4), .copy (.write 1), .copy (.read [] 2), .upload (.receive 4),
           .upload (.receive 4), .upload (.finished (.ok ⟨[98], 2⟩))]
         shutdown := none }
     uploadFailed := .ok
     drain := []
     finish := ⟨[], none⟩
     entryFailed := .ok
     entryFinished := .ok },
   { source := []
     next := .finished
     entryStarted := .ok
     transfer := ⟨[], none⟩
     uploadFailed := .ok
     drain := []
     finish := ⟨[], none⟩
     entryFailed := .ok
     entryFinished := .ok }]

/-- A file of two bytes; the upload fails when `events` have happened. -/
def failedUpload (events : List (TransferEvent Unit)) (drain : List (CopyEvent Unit)) :
    EntryScript Unit where
  source := [.read sampleHeader, .read [97]]
  next := .entry ⟨some [97], .stored, 7, 2, 2, [1, 2]⟩
  entryStarted := .ok
  transfer := ⟨events ++ [.upload (.finished (.error []))], none⟩
  uploadFailed := .ok
  drain := drain
  finish := ⟨[], none⟩
  entryFailed := .ok
  entryFinished := .ok

/-- The extraction of that archive; only the kernel evaluates it. -/
@[irreducible]
def failedUploadRun (events : List (TransferEvent Unit)) (drain : List (CopyEvent Unit)) :
    EStateM.Result (Stop Unit) Extraction ExtractOutcome :=
  extractRun (fun _ => 7) ⟨10, 10, 1, 10000, 1⟩ 10 [] [.ok sampleHeader]
    (failedUpload events drain :: sampleScripts.drop 1)

/-- The state in which its entry is finished. -/
@[irreducible]
def failedUploadCall (events : List (TransferEvent Unit)) (drain : List (CopyEvent Unit)) :
    EStateM.Result (Stop Unit) Extraction Approach :=
  approach ⟨10, 10, 1, 10000, 1⟩ 10 [] (failedUpload events drain)
    (Extraction.initial ⟨10, 10, 1, 10000, 1⟩ [])

/-- **The upload fails while the observer has the only chunk.**  Both bytes were yielded and none is
charged, and a valid entry is reported with a size mismatch. -/
theorem failedUpload_observing :
    Post (fun result t => result = .calls ⟨[97], none, some (.observing [1, 2])⟩ ∧
        t.reading.yielded = [1, 2] ∧
        checkedSub t.reading.remainingBeforeEntry t.reading.remaining = some 0)
      (fun _ _ => False) (failedUploadCall [.copy (.read [.consume 2] 2)] [.read [] 2]) ∧
    Post (fun outcome s => outcome.failures =
          [failure [97] "EntryUploadFailed" [],
            failure [97] "EntryReadFailed" [Text.ascii "ZIP CRC or size mismatch".toList]] ∧
        s.ledger.map EntryRecord.entry = [⟨some [97], .stored, 7, 2, 2, [1, 2]⟩] ∧
        s.ledger.map EntryRecord.consumed = [2])
      (fun _ _ => False) (failedUploadRun [.copy (.read [.consume 2] 2)] [.read [] 2]) := by
  decide +kernel

/-- The upload fails before the first read; the drain is charged for all. -/
theorem charged_eq_yielded_iff_early : ∃ call t,
    failedUploadCall [] [.read [.consume 2] 2, .observed .ok, .write 2, .read [] 2] =
        .ok (.calls call) t ∧ t.reading.yielded = [1, 2] ∧
      checkedSub t.reading.remainingBeforeEntry t.reading.remaining =
        some t.reading.yielded.length := by
  have hcall : Post (fun result t => result = .calls ⟨[97], none, some .reading⟩ ∧
      t.reading.yielded = [1, 2]) (fun _ _ => False)
      (failedUploadCall [] [.read [.consume 2] 2, .observed .ok, .write 2, .read [] 2]) := by
    decide +kernel
  obtain ⟨result, t, hrun, rfl, hyielded⟩ := exists_of_post hcall
  refine ⟨_, t, hrun, hyielded, ?_⟩
  rw [failedUploadCall] at hrun
  exact ((charged_eq_yielded_iff (fun _ => 7) ⟨10, 10, 1, 10000, 1⟩ 10 [] _).2 _ _ t hrun).mpr
    fun _ heq => by cases heq

end IpfS3.Zip
