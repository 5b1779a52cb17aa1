import IpfS3.Zip.ExtractRound

/-!
# The integrity of an extraction

An entry is reported once its copy has reached the end of the payload, its add has returned `Ok`, and
`finish_entry` has found it valid.  An add that returns `Ok` after the clean end of its input has
received the payload (`Copied.complete`).  The size that `finish_entry` compares is a difference of
budgets, and the compressed length a difference of positions; both are what they stand for (`Stated`).

`extract_intact` assumes of the add that it returns `Ok` only after the end of its input, with the
number of received bytes as size (`HonestAdd`).
-/

namespace IpfS3.Zip

open Hoare List

variable {ω : Type}

/-- A data descriptor, with or without its signature, that states three numbers. -/
def DescriptorStates (trailer : Bytes) (crc : UInt32) (compressed size : ℕ) : Prop :=
  ∃ fields : Bytes, (trailer.take 16 = descriptorSignature ++ fields ∨ trailer.take 16 = fields) ∧
    fields.length = 12 ∧ u32At fields 0 = crc.toNat ∧ u32At fields 4 = compressed ∧
      u32At fields 8 = size

/-- What the local header, or the data descriptor when one is used, states about the entry. -/
def Stated (crc32 : Bytes → UInt32) (record : EntryRecord) : Prop :=
  if record.header.usesDescriptor = true then
    DescriptorStates record.trailer (crc32 record.entry.payload) record.consumed
      record.entry.payload.length
  else
    record.entry.crc32 = crc32 record.entry.payload ∧
      record.entry.uncompressedSize = record.entry.payload.length ∧
      record.entry.compressedSize = record.consumed

/-- An add that returns `Ok` only after the end of its input, with the received bytes as size. -/
def HonestAdd (record : EntryRecord) : Prop :=
  ∀ stored, record.stored = some stored →
    record.ended = true ∧ stored.size = record.received.length

instance instDecidableHonestAdd (record : EntryRecord) : Decidable (HonestAdd record) :=
  decidable_of_iff (∀ stored ∈ record.stored,
    record.ended = true ∧ stored.size = record.received.length) Iff.rfl

/-- A reported entry is a file of the archive whose payload is stored. -/
structure Extracted (crc32 : Bytes → UInt32) (targetPrefix : Text) (extracted : ExtractedEntry)
    (record : EntryRecord) : Prop where
  file : ∃ name, record.entry.name = some name ∧
    sanitizeEntry name targetPrefix = .ok (.file extracted.key)
  stored : record.stored = some ⟨extracted.cid, extracted.size⟩
  received : record.received = record.entry.payload
  size : extracted.size = record.entry.payload.length
  stated : Stated crc32 record
  succeeded : record.failed = false

/-! ## The end of an entry -/

variable {record : EntryRecord}

section Entry

variable {entry : ArchiveEntry} {header : LocalHeaderMeta} {stored : Option StoredObject}
  {writerOpen : Bool} {s : Reading}

/-- The record of an entry that has been transferred and judged. -/
structure Judged (crc32 : Bytes → UInt32) (entry : ArchiveEntry) (header : LocalHeaderMeta)
    (stored : StoredObject) (record : EntryRecord) : Prop where
  entry_eq : record.entry = entry
  header_eq : record.header = header
  stored_eq : record.stored = some stored
  received : record.ended = true → record.received = entry.payload
  succeeded : record.failed = false
  stated : Stated crc32 record

theorem descriptorStates_of_descriptorMatches {probe : ProbeState} {trailer : Bytes} {crc : UInt32}
    {compressed size : ℕ} (hprobe : DescriptorRead trailer probe)
    (h : (probe.descriptorMatches crc compressed size).2 = true) :
    DescriptorStates trailer crc compressed size := by
  unfold ProbeState.descriptorMatches at h
  simp only [Bool.and_eq_true, beq_iff_eq] at h
  obtain ⟨⟨⟨hlength, hcrc⟩, hcompressed⟩, hsize⟩ := h
  refine ⟨probe.descriptorFields, ?_, hlength, hcrc, hcompressed, hsize⟩
  rw [← hprobe.header_eq, ProbeState.descriptorFields]
  split_ifs with hsignature
  · exact Or.inl (prefix_iff_eq_append.mp (List.isPrefixOf_iff_prefix.mp hsignature)).symm
  · exact Or.inr rfl

theorem Copied.chargedLength (h : Copied entry header stored writerOpen s) :
    Returns (fun s' => s' = s) (chargedLength : EntryM ω ℕ)
      fun size s' => s' = s ∧ size = entry.payload.length := by
  refine Triple.get_bind fun _ heq => ?_
  subst heq
  have hcharged := h.charged
  have hbytes := h.complete.2.1
  rw [checkedSub_of_le (by omega)]
  exact Triple.pure fun _ heq => ⟨heq, by omega⟩

theorem Tracks.compressedLength (h : Tracks entry header s) :
    Returns (fun s' => s' = s) (compressedLength : EntryM ω ℕ)
      fun compressed s' => s' = s ∧ compressed = s.record.consumed := by
  refine Triple.get_bind fun _ heq => ?_
  subst heq
  have hposition := h.position
  rw [checkedSub_of_le (by omega)]
  exact Triple.pure fun _ heq => ⟨heq, by omega⟩

theorem done_spec (descriptor : Bool) (script : FinishScript) :
    Returns (fun s' => s' = s.expectDescriptor descriptor) (done script : EntryM ω (Option IoError))
      fun _ s' => s'.record = { s.record with trailer := readBytes script.source } ∧
        (descriptor = true → DescriptorRead (readBytes script.source) s'.probe) := by
  refine Triple.bind (Q := fun _ s' =>
    s'.record = { s.record with trailer := readBytes script.source } ∧
      (descriptor = true → s'.probe = s.probe.beginDescriptor)) (Triple.modify ?_) fun _ => ?_
  · rintro _ rfl
    unfold Reading.expectDescriptor
    split_ifs with hdescriptor
    · exact ⟨rfl, fun _ => rfl⟩
    · exact ⟨rfl, fun h => absurd h hdescriptor⟩
  refine Triple.bind (Q := fun _ s' =>
    s'.record = { s.record with trailer := readBytes script.source } ∧
      (descriptor = true → DescriptorRead (readBytes script.source) s'.probe)) ?_ fun failed => ?_
  · refine Triple.of_eq fun s₁ hs₁ => (observeSource_spec script.source s₁).post ?_
    rintro _ _ ⟨rfl, -⟩
    refine ⟨hs₁.1, fun hdescriptor => ?_⟩
    show DescriptorRead _ (s₁.probe.observeAll script.source).1
    rw [hs₁.2 hdescriptor]
    exact ((descriptorRead_beginDescriptor s.probe).observeAll script.source).2
  · cases failed with
    | none => exact Triple.pure fun _ h => h
    | some error => exact Triple.pure fun _ h => h

theorem judge_spec (valid : Bool) :
    Returns (fun s => s.record = record) (judge valid : EntryM ω (Except IoError Bool))
      fun result s => result = .ok true → valid = true ∧ s.record = record := by
  refine Triple.bind (Q := fun _ s => valid = true → s.record = record) (Triple.modify ?_)
    fun _ => Triple.pure fun s h heq => ?_
  · rintro s rfl rfl
    show ({ s.record with failed := s.record.failed || false } : EntryRecord) = s.record
    rw [Bool.or_false]
  · have hvalid : valid = true := Except.ok.inj heq
    exact ⟨hvalid, h hvalid⟩

/-- **An entry that is found valid** is what its header or descriptor states. -/
theorem judged_finishCurrent {object : StoredObject} (crc32 : Bytes → UInt32)
    (script : FinishScript) :
    Returns (Copied entry header (some object) false)
      (finishCurrent crc32 script : EntryM ω (Except IoError Bool))
      fun result s => result = .ok true → Judged crc32 entry header object s.record := by
  refine Triple.get_bind fun s hs => Triple.bind hs.chargedLength fun size =>
    Triple.bind (Q := fun compressed s' => s' = s ∧ size = entry.payload.length ∧
      compressed = s.record.consumed) ?_ fun compressed => Triple.get_bind ?_
  · intro s' hs'
    obtain ⟨rfl, hsize⟩ := hs'
    exact (hs.compressedLength.post fun _ _ h => ⟨h.1, hsize, h.2⟩) s' rfl
  rintro s' ⟨rfl, rfl, rfl⟩
  obtain ⟨hyielded, -, hreceived⟩ := hs.complete
  have hjudged {record : EntryRecord}
      (hrecord : record = { s'.record with trailer := readBytes script.source })
      (hstated : Stated crc32 record) : Judged crc32 entry header object record := by
    subst hrecord
    exact ⟨hs.entry_eq, hs.header_eq, hs.stored_eq, hreceived, hs.succeeded, hstated⟩
  refine Triple.bind (Q := fun _ s'' =>
    s'' = s'.expectDescriptor s'.record.header.usesDescriptor)
    (Triple.modify fun _ heq => heq ▸ rfl) fun _ => Triple.bind (done_spec _ script) fun failed => ?_
  cases failed with
  | some error =>
    exact Triple.bind (Q := fun _ _ => True) Triple.trivial fun _ => Triple.pure fun _ _ h => by
      cases h
  | none =>
    refine Triple.ite (fun hdescriptor => ?_) fun hdescriptor => ?_
    · refine Triple.get_bind fun s₁ hs₁ => ?_
      refine Triple.bind (Q := fun _ s₂ => s₂.record = s₁.record) (Triple.set rfl) fun _ => ?_
      refine (judge_spec _).post fun result s₂ h hresult => ?_
      obtain ⟨hvalid, hrecord⟩ := h hresult
      rw [Bool.and_eq_true] at hvalid
      refine hjudged (hrecord.trans hs₁.1) ?_
      have hstates := descriptorStates_of_descriptorMatches (hs₁.2 hdescriptor) hvalid.2
      rw [hrecord, hs₁.1, Stated, if_pos hdescriptor]
      show DescriptorStates (readBytes script.source) (crc32 s'.record.entry.payload)
        s'.record.consumed s'.record.entry.payload.length
      rw [hs.entry_eq, ← hyielded]
      rw [← hyielded] at hstates
      exact hstates
    · refine ((judge_spec _).pre fun _ h => h.1).post fun result s₂ h hresult => ?_
      obtain ⟨hvalid, hrecord⟩ := h hresult
      refine hjudged hrecord ?_
      rw [Bool.not_eq_true] at hdescriptor
      simp only [hdescriptor, Bool.false_or, Bool.and_eq_true, beq_iff_eq] at hvalid
      rw [hrecord, Stated, if_neg fun h => Bool.false_ne_true (hdescriptor.symm.trans h)]
      show s'.record.entry.crc32 = crc32 s'.record.entry.payload ∧
        s'.record.entry.uncompressedSize = s'.record.entry.payload.length ∧
          s'.record.entry.compressedSize = s'.record.consumed
      rw [hyielded, ← hs.entry_eq] at hvalid
      exact ⟨hvalid.1.1, hvalid.1.2, hvalid.2⟩

end Entry

/-! ## A round of the loop -/

/-- `finish_entry` has found the entry valid. -/
def foundValid : Except IoError Bool → Bool
  | .ok valid => valid
  | .error _ => false

/-- At the call or behind it: an upload failed before, and now the entry cannot be read or is found
invalid. -/
def Approach.failsAgain (crc32 : Bytes → UInt32) (script : EntryScript ω) (s : Extraction) :
    Approach → Bool
  | .ended _ interrupted => interrupted.isSome
  | .calls call => call.interrupted.isSome &&
    match (enter (finishCurrent crc32 script.finish) : ExtractM ω (Except IoError Bool)) s with
    | .ok result _ => !foundValid result
    | .error _ _ => false

/-- A round whose upload fails, and then its drain or its `finish_entry`. -/
def failsTwice (crc32 : Bytes → UInt32) (limits : ZipExtractionLimits) (reportedMax : ℕ)
    (targetPrefix : Text) (script : EntryScript ω) (s : Extraction) : Bool :=
  match approach limits reportedMax targetPrefix script s with
  | .ok result t => result.failsAgain crc32 script t
  | .error _ _ => false

/-- The end of a round that records two failures or not. -/
inductive RoundEnds (crc32 : Bytes → UInt32) (targetPrefix : Text) (s₀ : Extraction) (twice : Bool)
    (s : Extraction) : Prop where
  | noHeader (honce : twice = false) (h : NoHeader s₀ s)
  | failed {failures : List ExtractFailure} (hcount : failures.length ≤ 1 ↔ twice = false)
      (h : Follows s₀ failures s)
  | stored (honce : twice = false) (entry : ExtractedEntry)
      (hextracted : HonestAdd s.reading.record →
        Extracted crc32 targetPrefix entry s.reading.record)
      (h : Follows { s₀ with entries := s₀.entries ++ [entry] } [] s)

section Round

variable {crc32 : Bytes → UInt32} (limits : ZipExtractionLimits) (reportedMax : ℕ)
  {targetPrefix name : Text} {s₀ s : Extraction} {failures : List ExtractFailure}

theorem Judged.extracted {entry : ArchiveEntry} {header : LocalHeaderMeta} {stored : StoredObject}
    {key : Text} (h : Judged crc32 entry header stored record)
    (hname : entry.name = some name) (hkey : sanitizeEntry name targetPrefix = .ok (.file key))
    (hhonest : HonestAdd record) :
    Extracted crc32 targetPrefix ⟨key, stored.cid, stored.size⟩ record := by
  obtain ⟨hended, hsize⟩ := hhonest stored h.stored_eq
  have hreceived : record.received = record.entry.payload := by
    rw [h.received hended, h.entry_eq]
  exact
    { file := ⟨name, h.entry_eq ▸ hname, hkey⟩
      stored := h.stored_eq
      received := hreceived
      size := hreceived ▸ hsize
      stated := h.stated
      succeeded := h.succeeded }

theorem roundEnds_invalid {twice : Bool} {m : ExtractM ω Flow}
    (hm : Returns (Follows s₀ failures) m fun _ s => ∃ read, Follows s₀ (failures ++ [read]) s)
    (hcount : failures.length = 0 ↔ twice = false) :
    Returns (Follows s₀ failures) m fun _ s => RoundEnds crc32 targetPrefix s₀ twice s := by
  refine hm.post ?_
  rintro _ s ⟨read, h⟩
  refine .failed ?_ h
  rw [← hcount, length_append, length_singleton]
  omega

theorem follows_mismatch (script : EntryScript ω) :
    Returns (Follows s₀ failures) (mismatch script name)
      fun _ s => ∃ read, Follows s₀ (failures ++ [read]) s :=
  Triple.bind_pure (((follows_recordFailure (P := fun _ => True) _ _).pre
    fun _ h => ⟨h, trivial⟩).post fun _ _ h => ⟨_, h.1⟩)

/-- **An entry that is not stored** is recorded with the failures of its upload and of a read. -/
theorem roundEnds_drained {interrupted : Option CopyPhase} (script : EntryScript ω) (t : Extraction)
    (h : Follows s₀ failures t) (hcount : failures.length = interrupted.toList.length) :
    Returns (fun s => s = t) (conclude crc32 script (.calls ⟨name, none, interrupted⟩)) fun _ s =>
      RoundEnds crc32 targetPrefix s₀
        (Approach.failsAgain crc32 script t (.calls ⟨name, none, interrupted⟩)) s := by
  have hfinish : Returns (fun s => s = t) (enter (finishCurrent crc32 script.finish))
      fun result s => Follows s₀ failures s ∧
        (enter (finishCurrent crc32 script.finish) : ExtractM ω (Except IoError Bool)) t =
          .ok result s :=
    (((follows_enter (P := fun _ => True) (Q := fun _ _ => True) Triple.trivial).and
      (Triple.run t)).pre fun _ heq => ⟨⟨heq ▸ h, trivial⟩, heq⟩).post
        fun _ _ hs => ⟨hs.1.1, hs.2⟩
  have hnone : failures.length = 0 ↔ interrupted.isSome = false := by
    rw [hcount]
    cases interrupted with
    | none => exact ⟨fun _ => rfl, fun _ => rfl⟩
    | some phase => exact ⟨fun heq => (by cases heq), fun heq => (by cases heq)⟩
  have hagain {result : Except IoError Bool} {s : Extraction}
      (hrun : (enter (finishCurrent crc32 script.finish) : ExtractM ω _) t = .ok result s) :
      Approach.failsAgain crc32 script t (.calls ⟨name, none, interrupted⟩) =
        (interrupted.isSome && !foundValid result) := by
    rw [Approach.failsAgain, hrun]
  refine Triple.bind hfinish fun result => ?_
  rcases result with error | _ | _
  · refine Triple.of_eq fun s hs => ?_
    rw [hagain hs.2]
    exact (roundEnds_invalid (follows_readFailure script error)
      (hnone.trans (by rw [foundValid, Bool.not_false, Bool.and_true]))).pre
        fun _ heq => heq ▸ hs.1
  · refine Triple.of_eq fun s hs => ?_
    rw [hagain hs.2]
    exact (roundEnds_invalid (follows_mismatch script)
      (hnone.trans (by rw [foundValid, Bool.not_false, Bool.and_true]))).pre
        fun _ heq => heq ▸ hs.1
  · refine Triple.pure fun s hs => ?_
    rw [hagain hs.2]
    refine .failed ?_ hs.1
    rw [foundValid, Bool.not_true, Bool.and_false, hcount]
    refine iff_of_true ?_ rfl
    cases interrupted with
    | none => exact Nat.zero_le 1
    | some phase => exact le_rfl

/-- **A file is reported** only when it is valid. -/
theorem roundEnds_stored {entry : ArchiveEntry} {header : LocalHeaderMeta} {key : Text}
    {t : Extraction} (script : EntryScript ω) (object : StoredObject) (hname : entry.name = some name)
    (hkey : sanitizeEntry name targetPrefix = .ok (.file key)) (h : Follows s₀ [] t)
    (hcopied : Copied entry header (some object) false t.reading) :
    Returns (fun s => s = t) (conclude crc32 script (.calls ⟨name, some (key, object), none⟩))
      fun _ s => RoundEnds crc32 targetPrefix s₀ false s := by
  have hstart : Follows s₀ [] t ∧ Copied entry header (some object) false t.reading := ⟨h, hcopied⟩
  refine Triple.bind ((follows_enter (judged_finishCurrent crc32 script.finish)).pre
    fun _ heq => heq ▸ hstart) fun result => ?_
  have hnil : ([] : List ExtractFailure).length = 0 ↔ false = false := iff_of_true rfl rfl
  rcases result with error | _ | _
  · exact (roundEnds_invalid (follows_readFailure script error) hnil).pre fun _ h => h.1
  · exact (roundEnds_invalid (follows_mismatch script) hnil).pre fun _ h => h.1
  · refine Triple.bind (returns_notify _) fun _ => Triple.bind_pure (Triple.modify ?_)
    rintro s ⟨h, hjudged⟩
    exact .stored rfl _ ((hjudged rfl).extracted hname hkey)
      { h with entries_eq := congrArg (· ++ [_]) h.entries_eq }

theorem roundEnds_conclude {result : Approach} {t : Extraction} (script : EntryScript ω)
    (h : Approached targetPrefix s₀ t result) :
    Returns (fun s => s = t) (conclude crc32 script result)
      fun _ s => RoundEnds crc32 targetPrefix s₀ (result.failsAgain crc32 script t) s := by
  cases h with
  | noHeader h => exact Triple.pure fun _ heq => .noHeader rfl (heq ▸ h)
  | @ended failures interrupted flow h hcount =>
    refine Triple.pure fun _ heq => .failed ?_ (heq ▸ h)
    rw [hcount]
    cases interrupted with
    | none => exact iff_of_true le_rfl rfl
    | some phase => exact iff_of_false (Nat.not_succ_le_self 1) fun heq => by cases heq
  | drained name h hcount hbooked => exact roundEnds_drained script t h hcount
  | stored object hname hkey h hcopied =>
    exact roundEnds_stored script object hname hkey h hcopied

/-- **One round of the loop** reports nothing but what is intact, and records at most one thing about
a local header unless it fails twice. -/
theorem roundEnds_extractEntry (script : EntryScript ω) (s₀ : Extraction) :
    Returns (fun s => s = s₀) (extractEntry crc32 limits reportedMax targetPrefix script) fun _ s =>
      RoundEnds crc32 targetPrefix s₀
        (failsTwice crc32 limits reportedMax targetPrefix script s₀) s := by
  refine Triple.bind (Triple.run s₀) fun result => Triple.of_eq fun t ht => ?_
  rw [failsTwice, ht]
  exact roundEnds_conclude script (approached_of_approach ht)

variable {I : Extraction → Prop} {P : EntryScript ω × Extraction → Prop}

theorem extractLoop_rule
    (hround : ∀ script s₀ s, I s₀ → P (script, s₀) → RoundEnds crc32 targetPrefix s₀
      (failsTwice crc32 limits reportedMax targetPrefix script s₀) s → I s)
    (scripts : List (EntryScript ω)) :
    Returns (fun s => I s ∧ ∀ round ∈ rounds crc32 limits reportedMax targetPrefix scripts s,
        P round)
      (extractLoop crc32 limits reportedMax targetPrefix scripts)
      fun outcome s => I s ∧ outcome = ⟨s.entries, s.failures⟩ := by
  induction scripts with
  | nil => exact Triple.throws
  | cons script scripts ih =>
    refine Triple.of_eq fun s₀ hs₀ => ?_
    obtain ⟨hs₀, hrounds⟩ := hs₀
    rw [rounds, forall_mem_cons] at hrounds
    refine Triple.bind (((roundEnds_extractEntry limits reportedMax script s₀).and
      (Triple.run s₀)).pre fun _ heq => ⟨heq, heq⟩) fun flow => Triple.of_eq fun s hs => ?_
    have hnext : I s := hround script s₀ s hs₀ hrounds.1 hs.1
    cases flow with
    | next =>
      refine ih.pre ?_
      rintro _ rfl
      have htail := hrounds.2
      rw [hs.2] at htail
      exact ⟨hnext, htail⟩
    | finished =>
      refine Triple.get_bind fun s' hs' => Triple.pure ?_
      rintro _ rfl
      exact ⟨hs' ▸ hnext, rfl⟩

theorem of_extractRun {stream : SourceStream} {scripts : List (EntryScript ω)}
    {outcome : ExtractOutcome}
    (hround : ∀ script s₀ s, I s₀ → P (script, s₀) → RoundEnds crc32 targetPrefix s₀
      (failsTwice crc32 limits reportedMax targetPrefix script s₀) s → I s)
    (hrounds : ∀ round ∈ extractRounds crc32 limits reportedMax targetPrefix stream scripts, P round)
    (hinitial : I (Extraction.initial limits targetPrefix))
    (hrun : extractRun crc32 limits reportedMax targetPrefix stream scripts = .ok outcome s) :
    I s ∧ outcome = ⟨s.entries, s.failures⟩ := by
  rw [extractRun, extractObservedWithLimits] at hrun
  rw [extractRounds] at hrounds
  cases hopening : peekSignature stream with
  | rejected error =>
    rw [hopening] at hrun
    cases hrun
  | empty =>
    rw [hopening] at hrun
    cases hrun
    exact ⟨hinitial, rfl⟩
  | entries =>
    rw [hopening] at hrun hrounds
    have hpost := extractLoop_rule limits reportedMax hround scripts _ ⟨hinitial, hrounds⟩
    dsimp only at hrun
    rw [hrun] at hpost
    exact hpost

end Round

/-! ## The archive -/

section Archive

variable (crc32 : Bytes → UInt32) (targetPrefix : Text)

/-- The reported entries belong to records, in the order of the archive. -/
def Reported (records : List EntryRecord) (entries : List ExtractedEntry) : Prop :=
  ∃ reported, reported.Sublist records.reverse ∧
    List.Forall₂ (fun extracted record => HonestAdd record →
      Extracted crc32 targetPrefix extracted record) entries reported

def Settled (s : Extraction) : Prop := Reported crc32 targetPrefix s.ledger s.entries

/-- While an entry is open, it is not reported. -/
structure Held (s : Extraction) : Prop where
  opened : s.opened = true
  reported : Reported crc32 targetPrefix s.records s.entries

variable {crc32 targetPrefix} {s₀ s : Extraction} {records : List EntryRecord}
  {entries : List ExtractedEntry}

theorem Reported.cons (h : Reported crc32 targetPrefix records entries) (record : EntryRecord) :
    Reported crc32 targetPrefix (record :: records) entries := by
  obtain ⟨reported, hsublist, hall⟩ := h
  refine ⟨reported, ?_, hall⟩
  rw [reverse_cons]
  exact hsublist.trans (sublist_append_left _ _)

theorem Reported.append (h : Reported crc32 targetPrefix records entries)
    {extracted : ExtractedEntry}
    (hrecord : HonestAdd record → Extracted crc32 targetPrefix extracted record) :
    Reported crc32 targetPrefix (record :: records) (entries ++ [extracted]) := by
  obtain ⟨reported, hsublist, hall⟩ := h
  refine ⟨reported ++ [record], ?_, ?_⟩
  · rw [reverse_cons]
    exact hsublist.append (List.Sublist.refl _)
  · exact rel_append hall (.cons hrecord .nil)

theorem Held.settled (h : Held crc32 targetPrefix s) : Settled crc32 targetPrefix s := by
  rw [Settled, ledger_of_opened h.opened]
  exact h.reported.cons _

theorem Settled.held (h : Settled crc32 targetPrefix s₀) {failures : List ExtractFailure}
    (hs : Follows s₀ failures s) : Held crc32 targetPrefix s := by
  refine ⟨hs.opened, ?_⟩
  rw [hs.records_eq, hs.entries_eq]
  exact h

theorem Settled.round {twice : Bool} (h : Settled crc32 targetPrefix s₀)
    (hround : RoundEnds crc32 targetPrefix s₀ twice s) : Settled crc32 targetPrefix s := by
  cases hround with
  | noHeader _ hs =>
    rw [Settled, hs.ledger_eq, hs.entries_eq]
    exact h
  | failed _ hs => exact (h.held hs).settled
  | stored _ entry hextracted hs =>
    rw [Settled, ledger_of_opened hs.opened, hs.records_eq, hs.entries_eq]
    exact h.append hextracted

end Archive

/-- **Every reported extraction is intact.**  Whatever the archive, the observer and the order of the
events, if every add that returns `Ok` has seen the end of its input and counts what it received: the
entries that are returned belong to entries of the archive, in its order, and each is a file whose
payload, and nothing else, was the input of the add; its size is that of the payload, its header or
descriptor states its CRC, length and compressed length, and nothing about it failed. -/
theorem extract_intact (crc32 : Bytes → UInt32) (limits : ZipExtractionLimits) (reportedMax : ℕ)
    (targetPrefix : Text) (stream : SourceStream) (scripts : List (EntryScript ω))
    {outcome : ExtractOutcome} {s : Extraction}
    (hrun : extractRun crc32 limits reportedMax targetPrefix stream scripts = .ok outcome s)
    (hhonest : ∀ record ∈ s.ledger, HonestAdd record) :
    ∃ reported : List EntryRecord, reported.Sublist s.ledger.reverse ∧
      List.Forall₂ (Extracted crc32 targetPrefix) outcome.entries reported := by
  obtain ⟨⟨reported, hsublist, hall⟩, rfl⟩ := of_extractRun (I := Settled crc32 targetPrefix)
    (P := fun _ => True) limits reportedMax (fun _ _ _ hs _ hround => hs.round hround)
    (fun _ _ => trivial) ⟨[], nil_sublist _, .nil⟩ hrun
  refine ⟨reported, hsublist, ?_⟩
  rw [forall₂_iff_zip] at hall ⊢
  refine ⟨hall.1, fun {extracted record} hmem => hall.2 hmem (hhonest record ?_)⟩
  exact mem_reverse.mp (hsublist.subset (of_mem_zip hmem).2)

/-- The extraction of that archive; only the kernel evaluates it. -/
@[irreducible]
def sampleRun : EStateM.Result (Stop Unit) Extraction ExtractOutcome :=
  extractRun crc32Ieee ⟨10, 10, 1, 10000, 1⟩ 10 [] [.ok sampleHeader] sampleScripts

theorem sampleRun_spec : Post
    (fun outcome s => outcome.entries = [⟨[97], [98], 2⟩] ∧
      ∀ record ∈ s.ledger, HonestAdd record) (fun _ _ => False) sampleRun := by
  decide +kernel

theorem extract_intact_sampleRun :
    ∃ outcome s reported, sampleRun = .ok outcome s ∧ outcome.entries = [⟨[97], [98], 2⟩] ∧
      reported.Sublist s.ledger.reverse ∧
        List.Forall₂ (Extracted crc32Ieee []) outcome.entries reported := by
  obtain ⟨outcome, s, hrun, hentries, hhonest⟩ := exists_of_post sampleRun_spec
  have hextract := hrun
  rw [sampleRun] at hextract
  obtain ⟨reported, hsublist, hall⟩ := extract_intact crc32Ieee ⟨10, 10, 1, 10000, 1⟩ 10 []
    [.ok sampleHeader] sampleScripts hextract hhonest
  exact ⟨outcome, s, reported, hrun, hentries, hsublist, hall⟩

end IpfS3.Zip
