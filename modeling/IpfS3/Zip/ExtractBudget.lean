import IpfS3.Zip.Extract
import IpfS3.Zip.TransferRules

/-!
# The budgets of an extraction

The budgets are shared by the upload of an entry, the drain after it, and the entries that follow.
What is left of a budget and what has been charged to it always add up (`Budgeted`, `Bounded`), a
chunk is charged in full before its first byte is written, and a future that is dropped leaves the
state as it is.  So every run stays within the limits, wherever it ends (`extract_withinLimits`).
-/

namespace IpfS3.Zip

open Hoare List

variable {ω α : Type}

/-- The bytes that are charged and not written yet. -/
def CopyPhase.pending : CopyPhase → ℕ
  | .writing chunk => chunk.length
  | _ => 0

/-- The books of an entry that started with `before` bytes left of the archive's budget. -/
structure Budgeted (limits : ZipExtractionLimits) (before entries : ℕ) (attempted : Bool)
    (s : Reading) : Prop where
  charged : s.record.handedBytes + s.remaining = before
  entry_charged : s.record.handedBytes + s.entryRemaining = limits.maxSingleEntryBytes
  written_le : s.record.written.length + s.phase.pending ≤ s.record.handedBytes
  before_eq : s.remainingBeforeEntry = before
  start_le : s.compressedStart ≤ s.probe.position
  entries_le : s.probe.entriesLeft ≤ entries
  attempted_eq : s.record.attempted = attempted

/-- The errors of a run that does not underflow. -/
def NoUnderflow (stop : Stop ω) : Prop := stop ≠ .underflow

abbrev KeepsBooks (limits : ZipExtractionLimits) (before entries : ℕ) (attempted : Bool)
    (m : EntryM ω α) : Prop :=
  Preserves (Budgeted limits before entries attempted) NoUnderflow m

section Entry

variable {limits : ZipExtractionLimits} {before entries : ℕ} {attempted : Bool} {s : Reading}

theorem noUnderflow_dropped : NoUnderflow (.dropped : Stop ω) := fun h => by cases h

theorem Budgeted.idle (h : Budgeted limits before entries attempted s) {phase : CopyPhase}
    (hphase : phase.pending = 0) :
    s.record.written.length + phase.pending ≤ s.record.handedBytes := by
  have hle := h.written_le
  omega

theorem Budgeted.observe (h : Budgeted limits before entries attempted s)
    (events : List SourceEvent) :
    Budgeted limits before entries attempted { s with probe := (s.probe.observeAll events).1 } :=
  { h with
    start_le := h.start_le.trans (observeAll_le s.probe events).2
    entries_le := (observeAll_le s.probe events).1.trans h.entries_le }

theorem budgeted_observeSource (events : List SourceEvent) :
    KeepsBooks limits before entries attempted
      (observeSource events : EntryM ω (Option IoError)) :=
  Triple.of_eq fun s hs => (observeSource_spec events s).post fun _ _ h => h.1 ▸ hs.observe events

section

variable (h : Budgeted limits before entries attempted s)

include h

theorem Budgeted.charge {chunk : Bytes}
    (hremaining : chunk.length ≤ s.remaining) (hentry : chunk.length ≤ s.entryRemaining) :
    Budgeted limits before entries attempted (s.charge chunk) := by
  have hcharged := h.charged
  have hentryCharged := h.entry_charged
  have hwritten := h.written_le
  refine { h with charged := ?_, entry_charged := ?_, written_le := ?_ }
  · show EntryRecord.handedBytes _ + (s.remaining - chunk.length) = before
    rw [handedBytes_charge]
    omega
  · show EntryRecord.handedBytes _ + (s.entryRemaining - chunk.length) = _
    rw [handedBytes_charge]
    omega
  · show s.record.written.length + chunk.length ≤ EntryRecord.handedBytes _
    rw [handedBytes_charge]
    omega

theorem Budgeted.accept {chunk : Bytes}
    (hphase : s.phase = .writing chunk) (count : ℕ) (buffered : Bytes) :
    Budgeted limits before entries attempted (s.accept chunk count buffered) := by
  have hwritten := h.written_le
  rw [hphase] at hwritten
  have hpending : (s.accept chunk count buffered).phase.pending = (chunk.drop count).length := by
    unfold Reading.accept
    dsimp only
    split_ifs with hdone
    · rw [isEmpty_iff.mp hdone]
      rfl
    · rfl
  refine { h with written_le := ?_ }
  rw [hpending]
  show (s.record.written ++ chunk.take count).length + _ ≤ s.record.handedBytes
  have hsplit := congrArg length (take_append_drop count chunk)
  rw [length_append] at hsplit ⊢
  have hchunk : (CopyPhase.writing chunk).pending = chunk.length := rfl
  omega

/-- **One step of the copy** keeps the books. -/
theorem Budgeted.move {writer : Writer} {s' : Reading} {result : CopyProgress ω} (hmove : CopyMove writer s result s') :
    Budgeted limits before entries attempted s' := by
  cases hmove with
  | idle => exact h
  | readFailed events error => exact { h.observe events with }
  | ended events => exact { h.observe events with }
  | yielded events length => exact { h.observe events with written_le := h.idle rfl }
  | stopped failure => exact h
  | charged chunk _ hremaining hentry => exact h.charge hremaining hentry
  | accepted chunk count buffered hphase => exact h.accept hphase count buffered
  | refused => exact { h with }

end

theorem budgeted_drainToSink (events : List (CopyEvent ω)) :
    KeepsBooks limits before entries attempted (drainToSink events) :=
  Triple.bind (Triple.modify fun _ h => { h with written_le := h.idle rfl }) fun _ =>
    (copyWithBudget_of_move (fun _ _ _ h hmove => h.move hmove) events).conseq (fun _ h => h)
      (fun _ _ h => h.1) fun _ _ h => ⟨h.1 ▸ noUnderflow_dropped, h.2⟩

theorem Budgeted.startTransfer (h : Budgeted limits before entries attempted s) :
    Budgeted limits before entries true s.startTransfer :=
  { h with
    written_le := h.idle rfl
    attempted_eq := rfl }

theorem budgeted_uploadEntryToKubo (script : TransferScript ω) :
    Triple (Budgeted limits before entries attempted) (uploadEntryToKubo script)
      (fun _ => Budgeted limits before entries true)
      fun e s => NoUnderflow e ∧ Budgeted limits before entries true s := by
  have hblind : Blind (Budgeted limits before entries true) := fun _ _ _ _ _ _ h => { h with }
  exact (hblind.uploadEntryToKubo (fun _ _ _ h hmove => h.move hmove) script).conseq
    (fun _ h => h.startTransfer) (fun _ _ h => h.1) fun _ _ h => ⟨h.1 ▸ noUnderflow_dropped, h.2⟩

/-! ## The end of an entry -/

theorem budgeted_done (script : FinishScript) :
    KeepsBooks limits before entries attempted (done script : EntryM ω (Option IoError)) := by
  refine Preserves.bind (Preserves.modify fun _ h => { h with }) fun _ =>
    Preserves.bind (budgeted_observeSource _) fun failed => ?_
  cases failed with
  | none => exact Preserves.pure
  | some error => exact Preserves.pure

theorem budgeted_judge (valid : Bool) :
    KeepsBooks limits before entries attempted (judge valid : EntryM ω (Except IoError Bool)) :=
  Preserves.bind (Preserves.modify fun _ h => { h with }) fun _ => Preserves.pure

theorem budgeted_compressedLength :
    KeepsBooks limits before entries attempted (compressedLength : EntryM ω ℕ) := by
  refine Triple.get_bind fun s hs => ?_
  rw [checkedSub_of_le hs.start_le]
  exact Triple.pure fun _ h => h ▸ hs

theorem budgeted_chargedLength :
    KeepsBooks limits before entries attempted (chargedLength : EntryM ω ℕ) := by
  refine Triple.get_bind fun s hs => ?_
  have hle : s.remaining ≤ s.remainingBeforeEntry := by
    rw [hs.before_eq, ← hs.charged]
    exact Nat.le_add_left _ _
  rw [checkedSub_of_le hle]
  exact Triple.pure fun _ h => h ▸ hs

theorem budgeted_finishEntry (crc32 : Bytes → UInt32) (descriptor : Bool) (size : ℕ)
    (script : FinishScript) :
    KeepsBooks limits before entries attempted
      (finishEntry crc32 descriptor size script : EntryM ω (Except IoError Bool)) := by
  refine Preserves.bind budgeted_compressedLength fun compressed => Triple.get_bind fun s hs => ?_
  have hfailed (error : IoError) : KeepsBooks limits before entries attempted
      (do markFailed; pure (.error error) : EntryM ω (Except IoError Bool)) :=
    Preserves.bind (Preserves.modify fun _ h => { h with }) fun _ => Preserves.pure
  have harmed : Budgeted limits before entries attempted (s.expectDescriptor descriptor) := by
    unfold Reading.expectDescriptor
    split_ifs
    · exact { hs with }
    · exact hs
  refine Triple.bind (Triple.modify fun _ h => h ▸ harmed) fun _ =>
    Preserves.bind (budgeted_done script) fun result => ?_
  cases result with
  | some error => exact hfailed error
  | none =>
    refine Triple.ite (fun _ => ?_) fun _ => budgeted_judge _
    exact Triple.get_bind fun s hs =>
      Triple.bind (Triple.set { hs with }) fun _ => budgeted_judge _

theorem budgeted_finishCurrent (crc32 : Bytes → UInt32) (script : FinishScript) :
    KeepsBooks limits before entries attempted
      (finishCurrent crc32 script : EntryM ω (Except IoError Bool)) := by
  refine Triple.get_bind fun s hs => ?_
  exact Triple.bind (budgeted_chargedLength.pre fun _ h => h ▸ hs) fun size =>
    budgeted_finishEntry crc32 _ size script

end Entry

/-! ## The archive -/

structure Bounded (limits : ZipExtractionLimits) (s : Extraction) : Prop where
  total : (s.ledger.map EntryRecord.handedBytes).sum + s.reading.remaining =
    limits.maxDecompressedBytes
  single : ∀ record ∈ s.ledger, record.handedBytes ≤ limits.maxSingleEntryBytes
  written : ∀ record ∈ s.ledger, record.written.length ≤ record.handedBytes
  adds : (s.ledger.filter EntryRecord.attempted).length + s.stagedAddsLeft ≤ limits.maxStagedAdds
  entries : s.ledger.length + s.reading.probe.entriesLeft ≤ limits.maxEntries

/-- The books of the archive while an entry is open; `reserved` adds are set aside for it. -/
structure Inside (limits : ZipExtractionLimits) (reserved : ℕ) (s : Extraction) : Prop where
  bounded : Bounded limits { s with stagedAddsLeft := s.stagedAddsLeft + reserved }
  opened : s.opened = true
  budgeted : Budgeted limits s.reading.remainingBeforeEntry s.reading.probe.entriesLeft
    s.reading.record.attempted s.reading

/-- What every end of the extraction leaves. -/
abbrev Ends (limits : ZipExtractionLimits) (stop : Stop ω) (s : Extraction) : Prop :=
  NoUnderflow stop ∧ Bounded limits s

section Archive

variable {limits : ZipExtractionLimits} {s : Extraction} {reserved : ℕ}

theorem Inside.done (h : Inside limits reserved s) : Bounded limits s where
  total := h.bounded.total
  single := h.bounded.single
  written := h.bounded.written
  adds := by
    have hadds := h.bounded.adds
    exact (Nat.add_le_add_left (Nat.le_add_right _ _) _).trans hadds
  entries := h.bounded.entries

theorem Inside.replace {reserved' : ℕ} {attempted : Bool} {reading : Reading}
    (h : Inside limits reserved s)
    (hreading : Budgeted limits s.reading.remainingBeforeEntry s.reading.probe.entriesLeft attempted
      reading)
    (hreserved : (if attempted = true then 1 else 0) + reserved' ≤
      (if s.reading.record.attempted = true then 1 else 0) + reserved) :
    Inside limits reserved' { s with reading } := by
  have hopened : ({ s with reading } : Extraction).opened = true := h.opened
  have hledger : s.ledger = s.reading.record :: s.records := ledger_of_opened h.opened
  have hledger' : ({ s with reading } : Extraction).ledger = reading.record :: s.records :=
    ledger_of_opened hopened
  have hcount (record : EntryRecord) : ((record :: s.records).filter EntryRecord.attempted).length =
      (if record.attempted = true then 1 else 0) +
        (s.records.filter EntryRecord.attempted).length := by
    rw [filter_cons]
    split_ifs
    · exact Nat.add_comm _ _
    · exact (Nat.zero_add _).symm
  refine ⟨⟨?_, ?_, ?_, ?_, ?_⟩, hopened, ?_⟩
  · show (map _ ({ s with reading } : Extraction).ledger).sum + reading.remaining = _
    have htotal : (s.ledger.map EntryRecord.handedBytes).sum + s.reading.remaining = _ :=
      h.bounded.total
    have hbefore := h.budgeted.charged
    have hafter := hreading.charged
    rw [hledger, map_cons, sum_cons] at htotal
    rw [hledger', map_cons, sum_cons]
    omega
  · show ∀ record ∈ ({ s with reading } : Extraction).ledger, _
    have hsingle : ∀ record ∈ s.ledger, _ := h.bounded.single
    rw [hledger, forall_mem_cons] at hsingle
    rw [hledger', forall_mem_cons]
    exact ⟨by have hentry := hreading.entry_charged; omega, hsingle.2⟩
  · show ∀ record ∈ ({ s with reading } : Extraction).ledger, _
    have hwritten : ∀ record ∈ s.ledger, _ := h.bounded.written
    rw [hledger, forall_mem_cons] at hwritten
    rw [hledger', forall_mem_cons]
    exact ⟨(Nat.le_add_right _ _).trans hreading.written_le, hwritten.2⟩
  · show (filter _ ({ s with reading } : Extraction).ledger).length +
      (s.stagedAddsLeft + reserved') ≤ _
    have hadds : (s.ledger.filter EntryRecord.attempted).length + (s.stagedAddsLeft + reserved) ≤ _ :=
      h.bounded.adds
    rw [hledger, hcount] at hadds
    rw [hledger', hcount, hreading.attempted_eq]
    omega
  · show ({ s with reading } : Extraction).ledger.length + reading.probe.entriesLeft ≤ _
    have hentries : s.ledger.length + s.reading.probe.entriesLeft ≤ _ := h.bounded.entries
    have hle := hreading.entries_le
    rw [hledger, length_cons] at hentries
    rw [hledger', length_cons]
    omega
  · exact
      { hreading with
        charged := hreading.charged.trans hreading.before_eq.symm
        before_eq := rfl
        entries_le := le_rfl
        attempted_eq := rfl }

theorem inside_enter {α : Type} {m : EntryM ω α} (attempts : Bool → Bool)
    (hm : ∀ before entries attempted, Triple (Budgeted limits before entries attempted) m
      (fun _ => Budgeted limits before entries (attempts attempted))
      fun stop s => NoUnderflow stop ∧ Budgeted limits before entries (attempts attempted) s)
    (hreserved : ∀ attempted, (if attempts attempted = true then 1 else 0) ≤
      (if attempted = true then 1 else 0) + reserved) :
    Triple (Inside limits reserved) (enter m) (fun _ => Inside limits 0) (Ends limits) := by
  refine Triple.zoom fun t ht => ?_
  have hkept {reading : Reading} (hreading : Budgeted limits t.reading.remainingBeforeEntry
      t.reading.probe.entriesLeft (attempts t.reading.record.attempted) reading) :
      Inside limits 0 { t with reading } :=
    ht.replace hreading (hreserved _)
  refine (hm t.reading.remainingBeforeEntry t.reading.probe.entriesLeft
    t.reading.record.attempted).conseq ?_ (fun _ _ hs => hkept hs)
    fun _ _ hs => ⟨hs.1, (hkept hs.2).done⟩
  rintro s rfl
  exact ht.budgeted

theorem inside_enter_of_preserves {α : Type} {m : EntryM ω α}
    (hm : ∀ before entries attempted,
      KeepsBooks limits before entries attempted m) :
    Triple (Inside limits 0) (enter m) (fun _ => Inside limits 0) (Ends limits) :=
  inside_enter id hm fun _ => le_rfl

theorem inside_throw {α : Type} {stop : Stop ω} {Q : α → Extraction → Prop}
    (hstop : NoUnderflow stop) :
    Triple (Inside limits reserved) (throw stop : ExtractM ω α) Q (Ends limits) :=
  Triple.throw fun _ h => ⟨hstop, h.done⟩

theorem inside_notify (reply : Reply ω) :
    Triple (Inside limits reserved) (notify reply) (fun _ => Inside limits reserved)
      (Ends limits) := by
  cases reply with
  | ok => exact Triple.pure fun _ h => h
  | failed error => exact inside_throw fun h => by cases h
  | dropped => exact inside_throw noUnderflow_dropped

theorem inside_recordFailure (reply : Reply ω) (failed : ExtractFailure) :
    Triple (Inside limits 0) (recordFailure reply failed) (fun _ => Inside limits 0)
      (Ends limits) :=
  Triple.bind (inside_notify reply) fun _ => Triple.modify fun _ h =>
    ⟨{ h.bounded with }, h.opened, h.budgeted⟩

theorem inside_readFailure (script : EntryScript ω) (name : Text) (error : IoError) :
    Triple (Inside limits 0) (readFailure script name error) (fun _ => Inside limits 0)
      (Ends limits) := by
  unfold readFailure
  cases backendStreamError error with
  | some error => exact inside_throw fun h => by cases h
  | none => exact Triple.bind_pure (inside_recordFailure _ _)

theorem inside_endRound (interrupted : Option CopyPhase) (script : EntryScript ω) (name : Text)
    (error : IoError) :
    Triple (Inside limits 0) (endRound interrupted script name error) (fun _ => Inside limits 0)
      (Ends limits) :=
  Triple.bind (inside_readFailure script name error) fun _ => Triple.pure fun _ h => h

variable (crc32 : Bytes → UInt32) (reportedMax : ℕ) (targetPrefix : Text)

theorem inside_drainEntry (interrupted : Option CopyPhase) (script : EntryScript ω) (name : Text) :
    Triple (Inside limits 0) (drainEntry reportedMax interrupted script name)
      (fun _ => Inside limits 0) (Ends limits) := by
  refine Triple.bind (inside_enter_of_preserves fun _ _ _ => budgeted_drainToSink _) fun result => ?_
  rcases result with ⟨error | kind | error⟩ | ⟨⟩
  · exact inside_endRound interrupted script name error
  · exact inside_throw fun h => by cases h
  · exact inside_throw fun h => by cases h
  · exact Triple.pure fun _ h => h

theorem inside_reserveAdd :
    Triple (Inside limits 0) (reserveAdd : ExtractM ω PUnit) (fun _ => Inside limits 1)
      (Ends limits) := by
  refine Triple.get_bind fun s hs => Triple.ite (fun _ => ?_) fun hleft => ?_
  · exact Triple.throw fun _ heq => ⟨fun h => (by cases h), heq ▸ hs.done⟩
  · have hle : 1 ≤ s.stagedAddsLeft := Nat.one_le_iff_ne_zero.mpr hleft
    rw [checkedSub_of_le hle]
    refine Triple.set ⟨?_, hs.opened, hs.budgeted⟩
    show Bounded limits { s with stagedAddsLeft := s.stagedAddsLeft - 1 + 1 }
    rw [Nat.sub_add_cancel hle]
    exact hs.done

theorem inside_extractFile (script : EntryScript ω) (name key : Text) :
    Triple (Inside limits 0) (extractFile reportedMax script name key)
      (fun _ => Inside limits 0) (Ends limits) := by
  refine Triple.bind inside_reserveAdd fun _ => Triple.bind (inside_notify _) fun _ => ?_
  refine Triple.bind (inside_enter (fun _ => true)
    (fun _ _ _ => budgeted_uploadEntryToKubo script.transfer) fun _ => Nat.le_add_left _ _)
    fun result => ?_
  rcases result with ⟨error | error | kind | error⟩ | stored
  · refine Triple.get_bind fun s hs => ?_
    exact Triple.bind ((inside_recordFailure _ _).pre fun _ heq => heq ▸ hs) fun _ =>
      inside_drainEntry reportedMax _ script name
  · exact inside_endRound none script name error
  · exact inside_throw fun h => by cases h
  · exact inside_throw fun h => by cases h
  · exact Triple.pure fun _ h => h

theorem inside_extractOpened (script : EntryScript ω) (entry : ArchiveEntry)
    (header : LocalHeaderMeta) :
    Triple (Inside limits 0) (extractOpened reportedMax targetPrefix script entry header)
      (fun _ => Inside limits 0) (Ends limits) := by
  refine Triple.ite (fun _ => inside_throw fun h => by cases h) fun _ =>
    Triple.ite (fun _ => inside_throw fun h => by cases h) fun _ => ?_
  cases entry.name with
  | none => exact inside_throw fun h => by cases h
  | some name =>
    dsimp only
    rcases sanitizeEntry name targetPrefix with error | key | _
    · exact inside_throw fun h => by cases h
    · exact inside_extractFile reportedMax script name key
    · exact inside_drainEntry reportedMax none script name

/-- **The call of `finish_entry`**, and what follows it. -/
theorem bounded_conclude (script : EntryScript ω) (result : Approach) :
    Triple (fun s => Bounded limits s ∧ ∀ call, result = .calls call → Inside limits 0 s)
      (conclude crc32 script result) (fun _ => Bounded limits) (Ends limits) := by
  cases result with
  | ended flow => exact Triple.pure fun _ h => h.1
  | calls call =>
    refine Triple.pre (P := Inside limits 0) ?_ fun _ h => h.2 call rfl
    refine Triple.bind (inside_enter_of_preserves fun _ _ _ => budgeted_finishCurrent crc32 _)
      fun result => ?_
    rcases result with error | _ | _
    · exact (inside_readFailure script call.name error).post fun _ _ h => h.done
    · exact Triple.bind_pure ((inside_recordFailure _ _).post fun _ _ h => h.done)
    · dsimp only
      rcases call.stored with _ | ⟨key, stored⟩
      · exact Triple.pure fun _ h => h.done
      · refine Triple.bind (inside_notify _) fun _ => Triple.bind_pure (Triple.modify fun _ h => ?_)
        exact { h.done with }

/-! ## The loop -/

/-- Between two entries, while a local header is read: a header that is complete is charged. -/
structure AtHeader (limits : ZipExtractionLimits) (s : Extraction) : Prop where
  bounded : Bounded limits s
  entries : ∀ header, s.reading.probe.take.2 = .ok header →
    s.ledger.length + s.reading.probe.entriesLeft + 1 ≤ limits.maxEntries

theorem AtHeader.openEntry (h : AtHeader limits s) (entry : ArchiveEntry)
    {header : LocalHeaderMeta} (htake : s.reading.probe.take.2 = .ok header) :
    Inside limits 0 (s.openEntry limits entry header) := by
  have hledger : (s.openEntry limits entry header).ledger = .fresh entry header :: s.ledger :=
    ledger_of_opened rfl
  refine ⟨⟨?_, ?_, ?_, ?_, ?_⟩, rfl, ?_⟩
  · show (map _ (s.openEntry limits entry header).ledger).sum + s.reading.remaining = _
    rw [hledger, map_cons, sum_cons]
    exact (congrArg (· + s.reading.remaining) (Nat.zero_add _)).trans h.bounded.total
  · show ∀ record ∈ (s.openEntry limits entry header).ledger, _
    rw [hledger, forall_mem_cons]
    exact ⟨Nat.zero_le _, h.bounded.single⟩
  · show ∀ record ∈ (s.openEntry limits entry header).ledger, _
    rw [hledger, forall_mem_cons]
    exact ⟨le_rfl, h.bounded.written⟩
  · show (filter _ (s.openEntry limits entry header).ledger).length + s.stagedAddsLeft ≤ _
    rw [hledger, filter_cons_of_neg fun h => Bool.false_ne_true h]
    exact h.bounded.adds
  · show (s.openEntry limits entry header).ledger.length + s.reading.probe.entriesLeft ≤ _
    have hentries := h.entries header htake
    rw [hledger, length_cons]
    omega
  · exact
      { charged := Nat.zero_add _
        entry_charged := Nat.zero_add _
        written_le := le_rfl
        before_eq := rfl
        start_le := le_rfl
        entries_le := le_rfl
        attempted_eq := rfl }

theorem Bounded.probe (h : Bounded limits s) {probe : ProbeState}
    (hle : probe.entriesLeft ≤ s.reading.probe.entriesLeft) :
    Bounded limits { s with reading.probe := probe } where
  total := h.total
  single := h.single
  written := h.written
  adds := h.adds
  entries := (Nat.add_le_add_left hle _).trans h.entries

theorem atHeader_observeSource (events : List SourceEvent) :
    Triple (Bounded limits)
      (do enter (modify fun s => { s with probe := s.probe.start }); enter (observeSource events) :
        ExtractM ω (Option IoError))
      (fun failed s => Bounded limits s ∧ (failed = none → AtHeader limits s)) (Ends limits) := by
  refine Triple.bind (Q := fun _ s' => ∃ s, Bounded limits s ∧
    s' = { s with reading.probe := s.reading.probe.start }) ?_ fun _ => ?_
  · exact Triple.zoom fun t ht => Triple.modify fun s hs => ⟨t, ht, by rw [hs]⟩
  · refine Triple.zoom fun t ht => ?_
    obtain ⟨s, hs, rfl⟩ := ht
    refine (observeSource_spec events _).post ?_
    rintro failed _ ⟨rfl, hfailed⟩
    have hle := (observeAll_le s.reading.probe.start events).1
    have hbounded : Bounded limits { s with
        reading.probe := (s.reading.probe.start.observeAll events).1 } := hs.probe hle
    refine ⟨hbounded, fun hnone => ⟨hbounded, fun header htake => ?_⟩⟩
    have hcharge : HeaderCharge s.reading.probe.entriesLeft
        (s.reading.probe.start.observeAll events).1 := headerCharge_observeAll (hfailed hnone)
    have hleft : (s.reading.probe.start.observeAll events).1.entriesLeft + 1 =
        s.reading.probe.entriesLeft := hcharge.entriesLeft_of_take htake
    have hentries := hs.entries
    show s.ledger.length + (s.reading.probe.start.observeAll events).1.entriesLeft + 1 ≤ _
    omega

theorem bounded_nextFailed {Q : α → Extraction → Prop} (error : IoError) :
    Triple (Bounded limits) (nextFailed error : ExtractM ω α) Q (Ends limits) := by
  refine Triple.get_bind fun s hs => Triple.ite (fun _ => ?_) fun _ => ?_
  · exact Triple.throw fun _ heq => ⟨fun h => (by cases h), heq ▸ hs⟩
  · exact Triple.throw fun _ heq => ⟨fun h => (by cases h), heq ▸ hs⟩

theorem inside_takeHeader (entry : ArchiveEntry) :
    Triple (AtHeader limits) (takeHeader limits entry : ExtractM ω LocalHeaderMeta)
      (fun _ => Inside limits 0) (Ends limits) := by
  refine Triple.get_bind fun s hs => ?_
  rcases htake : s.reading.probe.take.2 with message | header
  · exact Triple.throw fun _ heq => ⟨fun h => (by cases h), heq ▸ hs.bounded⟩
  · exact Triple.bind_pure (Triple.set (hs.openEntry entry htake))

theorem bounded_approach (script : EntryScript ω) :
    Triple (Bounded limits) (approach limits reportedMax targetPrefix script)
      (fun result s => Bounded limits s ∧ ∀ call, result = .calls call → Inside limits 0 s)
      (Ends limits) := by
  unfold approach
  rw [← bind_assoc]
  refine Triple.bind (atHeader_observeSource script.source) fun failed => ?_
  cases failed with
  | some error => exact (bounded_nextFailed error).pre fun _ h => h.1
  | none =>
    cases script.next with
    | failed error => exact (bounded_nextFailed error).pre fun _ h => h.1
    | finished => exact Triple.pure fun _ h => ⟨h.1, fun _ heq => by cases heq⟩
    | entry entry =>
      refine Triple.bind ((inside_takeHeader entry).pre fun _ h => h.2 rfl) fun header => ?_
      exact (inside_extractOpened reportedMax targetPrefix script entry header).post
        fun _ _ h => ⟨h.done, fun _ _ => h⟩

/-- **One round of the loop** keeps the books. -/
theorem bounded_extractEntry (script : EntryScript ω) :
    Preserves (Bounded limits) NoUnderflow
      (extractEntry crc32 limits reportedMax targetPrefix script) :=
  Triple.bind (bounded_approach reportedMax targetPrefix script) (bounded_conclude crc32 script)

theorem bounded_extractLoop (scripts : List (EntryScript ω)) :
    Preserves (Bounded limits) NoUnderflow
      (extractLoop crc32 limits reportedMax targetPrefix scripts) := by
  induction scripts with
  | nil => exact Preserves.throw noUnderflow_dropped
  | cons script scripts ih =>
    refine Preserves.bind (bounded_extractEntry crc32 reportedMax targetPrefix script) fun flow => ?_
    cases flow with
    | next => exact ih
    | finished => exact Triple.get_bind fun s hs => Triple.pure fun _ heq => heq ▸ hs

theorem bounded_extractObservedWithLimits (stream : SourceStream) (scripts : List (EntryScript ω)) :
    Preserves (Bounded limits) NoUnderflow
      (extractObservedWithLimits crc32 limits reportedMax targetPrefix stream scripts) := by
  unfold extractObservedWithLimits
  cases peekSignature stream with
  | rejected error => exact Preserves.throw fun h => by cases h
  | empty => exact Preserves.pure
  | entries => exact bounded_extractLoop crc32 reportedMax targetPrefix scripts

theorem bounded_initial : Bounded limits (Extraction.initial limits targetPrefix) where
  total := Nat.zero_add _
  single := fun _ h => by cases h
  written := fun _ h => by cases h
  adds := (Nat.zero_add _).le
  entries := (Nat.zero_add _).le

end Archive

/-- The limits, as bounds on what happened.  A chunk that was handed to a writer counts in full, even
if only a part of it was written: so none was written that would have crossed a limit. -/
structure WithinLimits (limits : ZipExtractionLimits) (ledger : List EntryRecord) : Prop where
  written : (ledger.map fun record => record.written.length).sum ≤ limits.maxDecompressedBytes
  entry_written : ∀ record ∈ ledger, record.written.length ≤ limits.maxSingleEntryBytes
  written_le : ∀ record ∈ ledger, record.written.length ≤ record.handedBytes
  chunks : (ledger.map EntryRecord.handedBytes).sum ≤ limits.maxDecompressedBytes
  entry_chunks : ∀ record ∈ ledger, record.handedBytes ≤ limits.maxSingleEntryBytes
  adds : (ledger.filter EntryRecord.attempted).length ≤ limits.maxStagedAdds
  headers : ledger.length ≤ limits.maxEntries

theorem Bounded.withinLimits {limits : ZipExtractionLimits} {s : Extraction} (h : Bounded limits s) :
    WithinLimits limits s.ledger := by
  have hchunks : (s.ledger.map EntryRecord.handedBytes).sum ≤ limits.maxDecompressedBytes :=
    h.total ▸ Nat.le_add_right _ _
  have hwritten := sum_le_sum h.written
  exact
    { written := hwritten.trans hchunks
      entry_written := fun record hrecord =>
        (h.written record hrecord).trans (h.single record hrecord)
      written_le := h.written
      chunks := hchunks
      entry_chunks := h.single
      adds := (Nat.le_add_right _ _).trans h.adds
      headers := (Nat.le_add_right _ _).trans h.entries }

/-- **The budgets are hard bounds.**  Whatever the archive, the limits, the order of the events, the
outcome of the uploads and the place where the run ends: what was written, the chunks that were
handed to a writer, the attempted adds and the accepted local headers stay within the limits, and no
subtraction underflows. -/
theorem extract_withinLimits (crc32 : Bytes → UInt32) (limits : ZipExtractionLimits)
    (reportedMax : ℕ) (targetPrefix : Text) (stream : SourceStream)
    (scripts : List (EntryScript ω)) :
    WithinLimits limits
        (finalState (extractRun crc32 limits reportedMax targetPrefix stream scripts)).ledger ∧
      ∀ s, extractRun crc32 limits reportedMax targetPrefix stream scripts ≠
        .error .underflow s := by
  have hrun : Preserves (Bounded limits) NoUnderflow
      (extractObservedWithLimits crc32 limits reportedMax targetPrefix stream scripts) :=
    bounded_extractObservedWithLimits crc32 reportedMax targetPrefix stream scripts
  have hinitial : Bounded limits (Extraction.initial limits targetPrefix) :=
    bounded_initial targetPrefix
  refine ⟨(hrun.finalState hinitial).withinLimits, fun s heq => ?_⟩
  exact hrun.allowed hinitial heq rfl

end IpfS3.Zip
