import IpfS3.Zip.Transfer

/-!
# Rules for the transfer of an entry

One step of the copy does one of a few things (`CopyMove`, `copyStep_spec`).  An invariant of the
transfer is checked against these and against what the add does (`Transfers`), and then it holds over
every interleaving of the two futures (`Transfers.uploadEntryToKubo`).
-/

namespace IpfS3.Zip

open Hoare

variable {ω ε α : Type}

/-! ## One step of the copy -/

/-- The state after the ZIP library has read from the archive. -/
def Reading.consume (s : Reading) (events : List SourceEvent) : Reading :=
  { s with
    probe := (s.probe.observeAll events).1
    record.consumed := s.record.consumed + (events.map SourceEvent.amount).sum }

/-- The state after it has yielded a chunk. -/
def Reading.yield (s : Reading) (length : ℕ) : Reading :=
  { s with
    rest := s.rest.drop length
    yielded := s.yielded ++ s.rest.take length
    phase := .observing (s.rest.take length) }

def Reading.charge (s : Reading) (chunk : Bytes) : Reading :=
  { s with
    remaining := s.remaining - chunk.length
    entryRemaining := s.entryRemaining - chunk.length
    phase := .writing chunk
    record.handed := s.record.handed ++ [chunk] }

theorem handedBytes_charge (s : Reading) (chunk : Bytes) :
    (s.charge chunk).record.handedBytes = s.record.handedBytes + chunk.length := by
  simp [Reading.charge, EntryRecord.handedBytes]

inductive CopyMove (writer : Writer) (s : Reading) : CopyProgress ω → Reading → Prop where
  | idle : CopyMove writer s none s
  | readFailed (events : List SourceEvent) (error : IoError) :
      CopyMove writer s (some (.error (.io error))) { s.consume events with record.failed := true }
  | ended (events : List SourceEvent) (hphase : s.phase = .reading) (hrest : s.rest = []) :
      CopyMove writer s (some (.ok ())) (s.consume events)
  | yielded (events : List SourceEvent) (length : ℕ) (hphase : s.phase = .reading)
      (hrest : s.rest ≠ []) (hlength : 1 ≤ length) :
      CopyMove writer s none ((s.consume events).yield length)
  | stopped (failure : CopyFailure ω) : CopyMove writer s (some (.error failure)) s
  | charged (chunk : Bytes) (hphase : s.phase = .observing chunk)
      (hremaining : chunk.length ≤ s.remaining) (hentry : chunk.length ≤ s.entryRemaining) :
      CopyMove writer s none (s.charge chunk)
  | accepted (chunk : Bytes) (count : ℕ) (buffered : Bytes) (hphase : s.phase = .writing chunk)
      (hbuffered : writer = .pipe → buffered = s.pipe.buffered ++ chunk.take count) :
      CopyMove writer s none (s.accept chunk count buffered)
  | refused : CopyMove writer s (some (.error (.io brokenPipeError))) { s with record.failed := true }

section Step

variable {s : Reading} {E : Stop ω → Reading → Prop}

theorem observeSource_spec (events : List SourceEvent) (s : Reading) :
    Triple (fun s' => s' = s) (observeSource events : EntryM ω (Option IoError))
      (fun failed s' => s' = { s with probe := (s.probe.observeAll events).1 } ∧
        (failed = none → (s.probe.observeAll events).2 = .ok)) E := by
  refine Triple.get_bind ?_
  rintro s rfl
  have hne := observeAll_ne_underflow s.probe events
  dsimp only
  generalize s.probe.observeAll events = result at hne
  obtain ⟨probe, outcome⟩ := result
  refine Triple.bind (Q := fun _ s' => s' = { s with probe }) (Triple.set rfl) fun _ => ?_
  cases outcome with
  | ok => exact Triple.pure fun _ heq => ⟨heq, fun _ => rfl⟩
  | budgetExceeded => exact Triple.pure fun _ heq => ⟨heq, fun h => by cases h⟩
  | underflow => exact absurd rfl hne

theorem readSource_spec (events : List SourceEvent) (s : Reading) :
    Triple (fun s' => s' = s) (readSource events : EntryM ω (Option IoError))
      (fun _ s' => s' = s.consume events) E :=
  Triple.bind (Q := fun _ s' => s' = { s with
      record.consumed := s.record.consumed + (events.map SourceEvent.amount).sum })
    (Triple.modify fun _ heq => heq ▸ rfl)
    fun _ => (observeSource_spec events _).post fun _ _ h => h.1

theorem failRead_spec (error : IoError) (s : Reading) :
    Triple (fun s' => s' = s) (failRead error : EntryM ω (CopyProgress ω))
      (fun result s' => result = some (.error (.io error)) ∧ s' = { s with record.failed := true })
      E :=
  Triple.bind_pure (Triple.modify fun _ heq => ⟨rfl, heq ▸ rfl⟩)

theorem readFailed_spec (writer : Writer) (events : List SourceEvent) (error : IoError)
    (s : Reading) :
    Triple (fun s' => s' = s.consume events) (failRead error : EntryM ω (CopyProgress ω))
      (CopyMove writer s) E := by
  refine (failRead_spec error _).post ?_
  rintro _ _ ⟨rfl, rfl⟩
  exact .readFailed events error

theorem readChunk_spec (writer : Writer) (hphase : s.phase = .reading) (events : List SourceEvent)
    (amount : ℕ) :
    Triple (fun s' => s' = s) (readChunk events amount : EntryM ω (CopyProgress ω))
      (CopyMove writer s) E := by
  refine Triple.bind (readSource_spec events s) fun failed => ?_
  cases failed with
  | some error => exact readFailed_spec writer events error s
  | none =>
    refine Triple.get_bind ?_
    rintro _ rfl
    refine Triple.ite (fun hend => ?_) fun hrest => ?_
    · exact Triple.pure fun _ heq => heq ▸ .ended events hphase (List.isEmpty_iff.mp hend)
    · rw [List.isEmpty_iff] at hrest
      exact Triple.bind_pure (Triple.set (.yielded events _ hphase hrest (Nat.le_max_left _ _)))

theorem chargeChunk_spec (writer : Writer) {chunk : Bytes} (hphase : s.phase = .observing chunk) :
    Triple (fun s' => s' = s) (chargeChunk chunk : EntryM ω (CopyProgress ω))
      (CopyMove writer s) E := by
  refine Triple.get_bind ?_
  rintro s rfl
  refine Triple.ite (fun _ => Triple.pure fun _ heq => heq ▸ .stopped _) fun hremaining =>
    Triple.ite (fun _ => Triple.pure fun _ heq => heq ▸ .stopped _) fun hentry => ?_
  rw [not_lt] at hremaining hentry
  rw [checkedSub_of_le hremaining, checkedSub_of_le hentry]
  exact Triple.bind_pure (Triple.set (.charged chunk hphase hremaining hentry))

theorem writeChunk_spec (writer : Writer) {chunk : Bytes} (hphase : s.phase = .writing chunk)
    (amount : ℕ) :
    Triple (fun s' => s' = s) (writeChunk writer chunk amount : EntryM ω (CopyProgress ω))
      (CopyMove writer s) E := by
  refine Triple.get_bind ?_
  rintro s rfl
  cases writer with
  | sink =>
    exact Triple.bind_pure (Triple.set (.accepted chunk _ _ hphase fun h => by cases h))
  | pipe =>
    refine Triple.ite (fun _ => ?_) fun _ => ?_
    · exact Triple.bind_pure (Triple.set (.accepted chunk _ _ hphase fun _ => rfl))
    · refine (failRead_spec _ _).post ?_
      rintro _ _ ⟨rfl, rfl⟩
      exact .refused

/-- **One step of the copy** ends in no error but that of a dropped future. -/
theorem copyStep_spec (writer : Writer) (event : CopyEvent ω) (s : Reading) :
    Triple (fun s' => s' = s) (copyStep writer event) (CopyMove writer s)
      fun stop s' => stop = .dropped ∧ s' = s := by
  refine Triple.get_bind ?_
  rintro s rfl
  have hidle : Triple (fun s' => s' = s) (pure none : EntryM ω (CopyProgress ω)) (CopyMove writer s)
      fun stop s' => stop = .dropped ∧ s' = s :=
    Triple.pure fun _ heq => heq ▸ .idle
  rcases hphase : s.phase with _ | chunk | chunk
  · rcases event with ⟨events, amount⟩ | ⟨events, error⟩ | reply | amount
    · exact readChunk_spec writer hphase events amount
    · exact Triple.bind (readSource_spec events s) fun _ => readFailed_spec writer events error s
    · exact hidle
    · exact hidle
  · rcases event with ⟨events, amount⟩ | ⟨events, error⟩ | ⟨_ | error | _⟩ | amount
    · exact hidle
    · exact hidle
    · exact chargeChunk_spec writer hphase
    · exact Triple.pure fun _ heq => heq ▸ .stopped _
    · exact Triple.throw fun _ heq => ⟨rfl, heq⟩
    · exact hidle
  · rcases event with ⟨events, amount⟩ | ⟨events, error⟩ | reply | amount
    · exact hidle
    · exact hidle
    · exact hidle
    · exact writeChunk_spec writer hphase amount

end Step

/-! ## The two futures -/

/-- `D` holds of a result, and `F` after a failure. -/
def Outcome (D : α → Reading → Prop) (F : Reading → Prop) : Except ε α → Reading → Prop
  | .ok a, s => D a s
  | .error _, s => F s

/-- `I` holds while there is no result. -/
def Progress (I : Reading → Prop) (D : α → Reading → Prop) (F : Reading → Prop) :
    Option (Except ε α) → Reading → Prop
  | none, s => I s
  | some result, s => Outcome D F result s

/-- A future that is dropped leaves `F`. -/
def Dropped (F : Reading → Prop) (stop : Stop ω) (s : Reading) : Prop := stop = .dropped ∧ F s

/-- A copy keeps `I`, and has `C` at the end of the payload. -/
structure Copies (ω : Type) (writer : Writer) (I C F : Reading → Prop) : Prop where
  move : ∀ {s s'} {result : CopyProgress ω}, I s → CopyMove writer s result s' →
    Progress I (fun _ => C) F result s'
  drop : ∀ {s}, I s → F s

/-- An add keeps `I`, which may depend on the object that it has stored. -/
structure Uploads (I : Option StoredObject → Reading → Prop) (F : Reading → Prop) : Prop where
  receive : ∀ {stored s} amount, I stored s → I stored (s.receive amount)
  hangUp : ∀ {stored s}, I stored s → I stored { s with pipe.readerOpen := false }
  succeed : ∀ {stored s} object, I stored s →
    I (some object) { s with pipe.readerOpen := false, record.stored := some object }
  fail : ∀ {stored s}, I stored s → F { s with pipe.readerOpen := false, record.failed := true }
  drop : ∀ {stored s}, I stored s → F s

/-- The two futures of a transfer: `I` holds while both run, `C` when the copy has ended, and `D` when
its writer is closed. -/
structure Transfers (ω : Type) (I C D : Option StoredObject → Reading → Prop) (F : Reading → Prop) :
    Prop where
  copies : ∀ stored, Copies ω .pipe (I stored) (C stored) F
  racing : Uploads I F
  closed : Uploads D F
  failed : Uploads (fun _ => F) F
  ended : ∀ {stored s}, C stored s → F s
  close : ∀ {stored s}, C stored s →
    D stored { s with pipe.writerOpen := false, record.failed := s.record.failed || false }
  closeFailed : ∀ {s} failed, F s →
    F { s with pipe.writerOpen := false, record.failed := s.record.failed || failed }

section Futures

variable {writer : Writer} {J C₀ F : Reading → Prop} {I C D : Option StoredObject → Reading → Prop}
  {stored : Option StoredObject}

theorem Copies.step (h : Copies ω writer J C₀ F) (event : CopyEvent ω) :
    Triple J (copyStep writer event) (Progress J (fun _ => C₀) F) (Dropped F) := by
  refine Triple.of_eq fun s hs => (copyStep_spec writer event s).conseq (fun _ heq => heq)
    (fun _ _ hmove => h.move hs hmove) ?_
  rintro _ _ ⟨rfl, rfl⟩
  exact ⟨rfl, h.drop hs⟩

theorem Copies.copyWithBudget (h : Copies ω writer J C₀ F) (events : List (CopyEvent ω)) :
    Triple J (copyWithBudget writer events) (Outcome (fun _ => C₀) F) (Dropped F) := by
  induction events with
  | nil => exact Triple.throw fun _ hs => ⟨rfl, h.drop hs⟩
  | cons event events ih =>
    refine Triple.bind (h.step event) fun result => ?_
    cases result with
    | none => exact ih
    | some result => exact Triple.pure fun _ hs => hs

theorem Uploads.step (h : Uploads I F) (event : UploadEvent) {E : Stop ω → Reading → Prop} :
    Triple (I stored) (uploadStep event) (Progress (I stored) (fun object => I (some object)) F)
      E := by
  rcases event with amount | _ | error | object
  · exact Triple.bind_pure (Triple.modify fun _ hs => h.receive amount hs)
  · exact Triple.bind_pure (Triple.modify fun _ hs => h.hangUp hs)
  · exact Triple.bind_pure (Triple.modify fun _ hs => h.fail hs)
  · exact Triple.bind_pure (Triple.modify fun _ hs => h.succeed object hs)

theorem Uploads.awaitUpload (h : Uploads I F) (stored : Option StoredObject)
    (events : List UploadEvent) :
    Triple (I stored) (awaitUpload events : EntryM ω (Except (List Text) StoredObject))
      (Outcome (fun object => I (some object)) F) (Dropped F) := by
  induction events with
  | nil => exact Triple.throw fun _ hs => ⟨rfl, h.drop hs⟩
  | cons event events ih =>
    refine Triple.bind (h.step event) fun result => ?_
    cases result with
    | none => exact ih
    | some result => exact Triple.pure fun _ hs => hs

/-- What the `select!` leaves. -/
def RaceEnds (I C : Option StoredObject → Reading → Prop) (F : Reading → Prop) :
    Completed ω → Reading → Prop
  | .copy result _, s => Outcome (fun _ => C none) F result s
  | .upload result _, s => Outcome (fun object => I (some object)) F result s

section

variable (h : Transfers ω I C D F)

include h

/-- **Every interleaving** of the copy and the add. -/
theorem Transfers.race (events : List (TransferEvent ω)) :
    Triple (I none) (race events) (RaceEnds I C F) (Dropped F) := by
  induction events with
  | nil => exact Triple.throw fun _ hs => ⟨rfl, h.racing.drop hs⟩
  | cons event events ih =>
    cases event with
    | copy event =>
      refine Triple.bind ((h.copies none).step event) fun result => ?_
      cases result with
      | none => exact ih
      | some result => exact Triple.pure fun _ hs => hs
    | upload event =>
      refine Triple.bind (h.racing.step event) fun result => ?_
      cases result with
      | none => exact ih
      | some result => exact Triple.pure fun _ hs => hs

theorem Transfers.closes (result : Option IoError) :
    Triple (C stored) (shutdown result : EntryM ω (Option IoError))
      (fun closed s => F s ∧ (closed = none → D stored s)) (Dropped F) := by
  refine Triple.bind_pure (Triple.modify fun s hs => ⟨h.closeFailed _ (h.ended hs), ?_⟩)
  rintro rfl
  exact h.close hs

theorem Transfers.closesFailed (result : Option IoError) :
    Triple F (shutdown result : EntryM ω (Option IoError)) (fun _ => F) (Dropped F) :=
  Triple.bind_pure (Triple.modify fun _ hs => h.closeFailed _ hs)

theorem Transfers.afterUpload (script : TransferScript ω)
    (events : List (TransferEvent ω)) (result : Except (List Text) StoredObject) :
    Triple (Outcome (fun object => I (some object)) F result) (afterUpload script events result)
      (Outcome (fun object => D (some object)) F) (Dropped F) := by
  cases result with
  | error error => exact Triple.bind_pure (h.closesFailed _)
  | ok object =>
    refine Triple.bind ((h.copies _).copyWithBudget _) fun result => ?_
    rcases result with failure | ⟨⟩
    · exact Triple.bind_pure (h.closesFailed _)
    · refine Triple.bind (h.closes _) fun closed => ?_
      cases closed with
      | some error => exact Triple.pure fun _ hs => hs.1
      | none => exact Triple.pure fun _ hs => hs.2 rfl

theorem Transfers.afterCopy (events : List (TransferEvent ω))
    (result : Except (CopyFailure ω) Unit) (closed : Option IoError) :
    Triple (fun s => F s ∧ (result = .ok () → closed = none → D none s))
      (afterCopy events result closed) (Outcome (fun object => D (some object)) F) (Dropped F) := by
  rcases result with ⟨error | kind | error⟩ | ⟨⟩
  · refine Triple.bind ((h.failed.awaitUpload none _).pre fun _ hs => hs.1) fun result => ?_
    cases result with
    | error failed => exact Triple.pure fun _ hs => hs
    | ok object => exact Triple.pure fun _ hs => hs
  · exact Triple.pure fun _ hs => hs.1
  · exact Triple.pure fun _ hs => hs.1
  · cases closed with
    | some error => exact Triple.pure fun _ hs => hs.1
    | none =>
      refine Triple.bind ((h.closed.awaitUpload none _).pre fun _ hs => hs.2 rfl rfl) fun result => ?_
      cases result with
      | error failed => exact Triple.pure fun _ hs => hs
      | ok object => exact Triple.pure fun _ hs => hs

/-- **A transfer.** -/
theorem Transfers.uploadEntryToKubo (script : TransferScript ω) :
    Triple (fun s => I none s.startTransfer) (uploadEntryToKubo script)
      (Outcome (fun object => D (some object)) F) (Dropped F) := by
  refine Triple.bind (Q := fun _ => I none) (Triple.modify fun _ hs => hs) fun _ =>
    Triple.bind (h.race script.events) fun completed => ?_
  rcases completed with ⟨failure | ⟨⟩, events⟩ | ⟨result, events⟩
  · exact Triple.bind (h.closesFailed _) fun closed =>
      (h.afterCopy events (.error failure) closed).pre fun _ hs => ⟨hs, fun heq => by cases heq⟩
  · exact Triple.bind (h.closes _) fun closed =>
      (h.afterCopy events (.ok ()) closed).pre fun _ hs => ⟨hs.1, fun _ => hs.2⟩
  · exact h.afterUpload script events result

end

end Futures

/-! ## Invariants that do not see the add -/

/-- What the add, the pipe and a failure change is not read. -/
def Blind (I : Reading → Prop) : Prop :=
  ∀ s pipe received ended stored failed, I s →
    I { s with
      pipe := pipe
      record.received := received
      record.ended := ended
      record.stored := stored
      record.failed := failed }

section Blind

variable {writer : Writer} {I : Reading → Prop}

theorem copies_of_move
    (h : ∀ s s' (result : CopyProgress ω), I s → CopyMove writer s result s' → I s') :
    Copies ω writer I (fun s => I s ∧ s.phase = .reading) I where
  move := by
    intro s s' result hs hmove
    have hnext := h s s' result hs hmove
    rcases result with _ | failure | ⟨⟩
    · exact hnext
    · exact hnext
    · cases hmove with
      | ended events hphase => exact ⟨hnext, hphase⟩
  drop := fun hs => hs

theorem Blind.uploads (hI : Blind I) : Uploads (fun _ => I) I where
  receive := by
    intro stored s amount hs
    unfold Reading.receive
    split_ifs
    · exact hs
    · exact hI s _ _ _ _ _ hs
    · exact hI s _ _ _ _ _ hs
  hangUp := fun hs => hI _ _ _ _ _ _ hs
  succeed := fun _ hs => hI _ _ _ _ _ _ hs
  fail := fun hs => hI _ _ _ _ _ _ hs
  drop := fun hs => hs

theorem Blind.reading (hI : Blind I) : Blind fun s => I s ∧ s.phase = .reading :=
  fun s pipe received ended stored failed hs =>
    ⟨hI s pipe received ended stored failed hs.1, hs.2⟩

theorem Blind.transfers (hI : Blind I)
    (hmove : ∀ s s' (result : CopyProgress ω), I s → CopyMove .pipe s result s' → I s') :
    Transfers ω (fun _ => I) (fun _ s => I s ∧ s.phase = .reading)
      (fun _ s => I s ∧ s.phase = .reading) I where
  copies := fun _ => copies_of_move hmove
  racing := hI.uploads
  closed :=
    { hI.reading.uploads with
      fail := fun hs => hI _ _ _ _ _ _ hs.1
      drop := fun hs => hs.1 }
  failed := hI.uploads
  ended := fun hs => hs.1
  close := fun hs => hI.reading _ _ _ _ _ _ hs
  closeFailed := fun _ hs => hI _ _ _ _ _ _ hs

theorem copyWithBudget_of_move
    (h : ∀ s s' (result : CopyProgress ω), I s → CopyMove writer s result s' → I s')
    (events : List (CopyEvent ω)) :
    Triple I (copyWithBudget writer events)
      (fun result s => I s ∧ (result = .ok () → s.phase = .reading)) (Dropped I) := by
  refine ((copies_of_move h).copyWithBudget events).post fun result s hs => ?_
  rcases result with failure | ⟨⟩
  · exact ⟨hs, fun heq => by cases heq⟩
  · exact ⟨hs.1, fun _ => hs.2⟩

theorem Blind.uploadEntryToKubo (hI : Blind I)
    (hmove : ∀ s s' (result : CopyProgress ω), I s → CopyMove .pipe s result s' → I s')
    (script : TransferScript ω) :
    Triple (fun s => I s.startTransfer) (uploadEntryToKubo script)
      (fun result s => I s ∧ ∀ stored, result = .ok stored → s.phase = .reading) (Dropped I) := by
  refine ((hI.transfers hmove).uploadEntryToKubo script).post fun result s hs => ?_
  rcases result with failure | stored
  · exact ⟨hs, fun _ heq => by cases heq⟩
  · exact ⟨hs.1, fun _ _ => hs.2⟩

end Blind

end IpfS3.Zip
