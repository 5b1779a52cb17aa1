import IpfS3.Zip.ExtractBudget
import IpfS3.Zip.ExtractIntegrity
import IpfS3.Zip.ManifestTree

/-!
# The records of an extraction

The configured limits allow at most as many entries as the final manifest can hold.  A round of the
loop records an entry, or a failure, or nothing; only an entry whose upload fails and which then turns
out unreadable is recorded with two failures (`RoundEnds.atMostOneRecord_iff`).  So the entry limit
bounds the manifest unless an entry fails twice (`records_le_headers`).
-/

namespace IpfS3.Zip

open Fallible Hoare List

variable {ω : Type}

/-! ## The configured limits -/

def hardMaxDecompressedBytes : ℕ := 1024 * 1024 * 1024 * 1024

def hardMaxArchiveInputBytes : ℕ := 64 * 1024 * 1024 * 1024

def hardMaxEntries : ℕ := 100000

def hardMaxMetadataBytes : ℕ := 1024 * 1024 * 1024

def hardMaxDeadlineSecs : ℕ := 7 * 24 * 60 * 60

/-- `ZipExtractionLimits` with the fields that the extraction does not read; the deadline is in
nanoseconds. -/
structure ConfiguredLimits extends ZipExtractionLimits where
  maxArchiveBytes : ℕ
  processingDeadline : Option ℕ

def ConfiguredLimits.validate (limits : ConfiguredLimits) : Except String Unit := do
  ensure (1 ≤ limits.maxArchiveBytes ∧ limits.maxArchiveBytes ≤ hardMaxArchiveInputBytes)
    "decompress_zip.max_archive_bytes is outside hard bounds"
  ensure (limits.maxDecompressedBytes ≤ hardMaxDecompressedBytes)
    "decompress_zip.max_decompressed_bytes exceeds hard bound"
  ensure (limits.maxSingleEntryBytes ≤ hardMaxDecompressedBytes)
    "decompress_zip.max_single_entry_bytes exceeds hard bound"
  ensure (1 ≤ limits.maxEntries ∧ limits.maxEntries ≤ maxArchiveEntries)
    "decompress_zip.max_entries is outside hard bounds"
  ensure (limits.maxMetadataBytes ≤ hardMaxMetadataBytes)
    "decompress_zip.max_metadata_bytes exceeds hard bound"
  ensure (1 ≤ limits.maxStagedAdds ∧ limits.maxStagedAdds ≤ hardMaxEntries)
    "decompress_zip.max_staged_adds is outside hard bounds"
  ensure (limits.processingDeadline.all (fun deadline =>
      deadline != 0 && decide (deadline ≤ hardMaxDeadlineSecs * 1000000000)) = true)
    "decompress_zip.processing_deadline_secs is outside hard bounds"

theorem ConfiguredLimits.maxEntries_le {limits : ConfiguredLimits}
    (h : limits.validate = .ok ()) : limits.maxEntries ≤ maxArchiveEntries := by
  obtain ⟨-, h⟩ := of_ensure h
  obtain ⟨-, h⟩ := of_ensure h
  obtain ⟨-, h⟩ := of_ensure h
  obtain ⟨hentries, -⟩ := of_ensure h
  exact hentries.2

/-! ## One round -/

/-- A round records at most one thing about the local header that it accepts, and nothing without one. -/
def AtMostOneRecord (s s' : Extraction) : Prop :=
  s'.entries.length + s'.failures.length ≤
    s.entries.length + s.failures.length + (s'.ledger.length - s.ledger.length)

variable {crc32 : Bytes → UInt32} {targetPrefix : Text} {s₀ s : Extraction} {twice : Bool}

theorem Follows.length_ledger {failures : List ExtractFailure} (h : Follows s₀ failures s) :
    s.ledger.length = s₀.ledger.length + 1 := by
  rw [ledger_of_opened h.opened, length_cons, h.records_eq]

/-- **One round of the loop** records two things about a local header just when it fails twice. -/
theorem RoundEnds.atMostOneRecord_iff (h : RoundEnds crc32 targetPrefix s₀ twice s) :
    AtMostOneRecord s₀ s ↔ twice = false := by
  cases h with
  | noHeader honce h =>
    refine iff_of_true ?_ honce
    rw [AtMostOneRecord, h.entries_eq, h.failures_eq]
    exact Nat.le_add_right _ _
  | failed hcount h =>
    rw [← hcount, AtMostOneRecord, h.length_ledger, h.entries_eq, h.failures_eq, length_append]
    omega
  | stored honce entry hextracted h =>
    refine iff_of_true ?_ honce
    have hheaders : s.ledger.length = s₀.ledger.length + 1 := h.length_ledger
    rw [AtMostOneRecord, hheaders, h.entries_eq, h.failures_eq, length_append, length_append,
      length_singleton, length_nil]
    show _ + 1 + (s₀.failures.length + 0) ≤ _
    omega

theorem RoundEnds.length_ledger (h : RoundEnds crc32 targetPrefix s₀ twice s) :
    s₀.ledger.length ≤ s.ledger.length ∧ s.ledger.length ≤ s₀.ledger.length + 1 := by
  cases h with
  | noHeader honce h =>
    rw [h.ledger_eq]
    exact ⟨le_rfl, Nat.le_succ _⟩
  | failed hcount h =>
    rw [h.length_ledger]
    exact ⟨Nat.le_succ _, le_rfl⟩
  | stored honce entry hextracted h =>
    have hheaders : s.ledger.length = s₀.ledger.length + 1 := h.length_ledger
    rw [hheaders]
    exact ⟨Nat.le_succ _, le_rfl⟩

/-! ## The loop -/

/-- The records are bounded by the headers. -/
def RecordsCounted (s : Extraction) : Prop :=
  s.entries.length + s.failures.length ≤ s.ledger.length

theorem RecordsCounted.next (h : RecordsCounted s₀) (hround : RoundEnds crc32 targetPrefix s₀ false s) :
    RecordsCounted s := by
  have hone : AtMostOneRecord s₀ s := hround.atMostOneRecord_iff.mpr rfl
  have hheaders := hround.length_ledger
  unfold RecordsCounted at h ⊢
  unfold AtMostOneRecord at hone
  omega

theorem exists_invalid_of_rootError {entries : List ExtractedEntry} {failures : List ExtractFailure}
    {targetPrefix : Text} {manifest : FinalZipManifest}
    (hlimit : entries.length + failures.length ≤ maxArchiveEntries)
    (h : finalZipManifest entries failures targetPrefix = .ok manifest)
    (hroot : manifest.rootError = some .invalidManifest) :
    ∃ entry ∈ entries, admissible entry = false ∨ relativePath targetPrefix entry.key = none := by
  by_contra hnone
  push Not at hnone
  obtain ⟨scan, winners, invalidNamespace, failureNamespace, other, hother, hassembled⟩ :=
    exists_assembled failures targetPrefix fun entry hentry =>
      Bool.eq_true_of_not_eq_false (hnone entry hentry).1
  obtain rfl : other = manifest := Except.ok.inj (hother.symm.trans h)
  have hvalid : scan.invalidRootPath ≠ true := by
    rw [ne_eq, hassembled.scanned.invalidRootPath]
    rintro ⟨entry, hentry, hpath⟩
    exact (hnone entry hentry).2 hpath
  rw [hassembled.rootError_eq, rootErrorOf] at hroot
  rw [Bool.eq_false_of_not_eq_true hvalid, decide_eq_false (Nat.not_lt.mpr hlimit)] at hroot
  cases hconflict : hasFileDirectoryConflict other.successful with
  | true =>
    rw [hconflict] at hroot
    cases hroot
  | false =>
    rw [hconflict] at hroot
    cases hroot

/-- **One record for an entry.**  Each round of the loop accepts at most one local header, and records
at most one entry or failure about it unless the upload fails and then the drain or `finish_entry`.  So
in an extraction under valid limits without such a round, there are at most as many records as accepted
headers, and the manifest of the outcome is never over its limit: it is invalid only for an entry that
it cannot hold. -/
theorem records_le_headers (crc32 : Bytes → UInt32) (limits : ConfiguredLimits) (reportedMax : ℕ)
    (targetPrefix : Text) (hvalid : limits.validate = .ok ()) :
    (∀ (script : EntryScript ω) s flow s',
      extractEntry crc32 limits.toZipExtractionLimits reportedMax targetPrefix script s = .ok flow s' →
        s'.ledger.length ≤ s.ledger.length + 1 ∧
        (AtMostOneRecord s s' ↔ failsTwice crc32 limits.toZipExtractionLimits reportedMax targetPrefix
          script s = false)) ∧
    ∀ (stream : SourceStream) (scripts : List (EntryScript ω)) outcome s,
      extractRun crc32 limits.toZipExtractionLimits reportedMax targetPrefix stream scripts =
        .ok outcome s →
      (∀ round ∈ extractRounds crc32 limits.toZipExtractionLimits reportedMax targetPrefix stream
        scripts, failsTwice crc32 limits.toZipExtractionLimits reportedMax targetPrefix round.1
          round.2 = false) →
      outcome.entries.length + outcome.failures.length ≤ s.ledger.length ∧
        s.ledger.length ≤ limits.maxEntries ∧
        ∀ manifest, finalZipManifest outcome.entries outcome.failures targetPrefix = .ok manifest →
          manifest.rootError = some .invalidManifest → ∃ entry ∈ outcome.entries,
            admissible entry = false ∨ relativePath targetPrefix entry.key = none := by
  constructor
  · intro script s flow s' hround
    have hspec : Returns (fun s' => s' = s) (extractEntry crc32 limits.toZipExtractionLimits
        reportedMax targetPrefix script) fun _ s' => RoundEnds crc32 targetPrefix s (failsTwice crc32
          limits.toZipExtractionLimits reportedMax targetPrefix script s) s' :=
      roundEnds_extractEntry _ reportedMax script s
    have hends := hspec s rfl
    rw [hround] at hends
    exact ⟨(RoundEnds.length_ledger hends).2, RoundEnds.atMostOneRecord_iff hends⟩
  · intro stream scripts outcome s hrun honce
    obtain ⟨hle, rfl⟩ := of_extractRun (I := RecordsCounted) limits.toZipExtractionLimits reportedMax
      (fun _ _ _ h honce hround => h.next (honce ▸ hround)) honce le_rfl hrun
    have hbounded : Bounded limits.toZipExtractionLimits s := by
      have hinitial : Bounded limits.toZipExtractionLimits
          (Extraction.initial limits.toZipExtractionLimits targetPrefix) :=
        bounded_initial targetPrefix
      have hkept := (bounded_extractObservedWithLimits crc32 reportedMax targetPrefix stream
        scripts).finalState hinitial
      rw [extractRun] at hrun
      rw [hrun] at hkept
      exact hkept
    have hheaders : s.ledger.length ≤ limits.maxEntries := hbounded.withinLimits.headers
    refine ⟨hle, hheaders, fun manifest => exists_invalid_of_rootError ?_⟩
    exact hle.trans (hheaders.trans (ConfiguredLimits.maxEntries_le hvalid))

def oneEntry : ConfiguredLimits := ⟨⟨10, 10, 1, 10000, 1⟩, 1, none⟩

/-- One entry under them, whose upload fails and whose CRC is wrong; only the kernel evaluates it. -/
@[irreducible]
def twiceFailedRun : EStateM.Result (Stop Unit) Extraction ExtractOutcome :=
  extractRun (fun _ => 8) oneEntry.toZipExtractionLimits 10 [] [.ok sampleHeader]
    (failedUpload [] [.read [.consume 2] 2, .observed .ok, .write 2, .read [] 2] ::
      sampleScripts.drop 1)

/-- **Two failures of one entry.**  One local header was accepted, and there are two records. -/
theorem twiceFailedRun_records : oneEntry.validate = .ok () ∧
    Post (fun outcome s => s.ledger.length = 1 ∧ outcome.entries = [] ∧ outcome.failures =
        [failure [97] "EntryUploadFailed" [],
          failure [97] "EntryReadFailed" [Text.ascii "ZIP CRC or size mismatch".toList]])
      (fun _ _ => False) twiceFailedRun := by
  decide +kernel

/-- One entry that is reported, in a run in which none fails twice. -/
theorem records_le_headers_sampleRun : ∃ outcome s, sampleRun = .ok outcome s ∧
    outcome.entries.length = 1 ∧ outcome.entries.length + outcome.failures.length ≤ s.ledger.length ∧
      s.ledger.length ≤ 1 := by
  have hspec : Post (fun outcome _ => outcome.entries.length = 1) (fun _ _ => False) sampleRun := by
    decide +kernel
  have honce : ∀ round ∈ extractRounds crc32Ieee oneEntry.toZipExtractionLimits 10 []
      [.ok sampleHeader] sampleScripts,
      failsTwice crc32Ieee oneEntry.toZipExtractionLimits 10 [] round.1 round.2 = false := by
    decide +kernel
  obtain ⟨outcome, s, hrun, hentries⟩ := exists_of_post hspec
  have hextract := hrun
  rw [sampleRun] at hextract
  obtain ⟨hle, hheaders, -⟩ := (records_le_headers crc32Ieee oneEntry 10 [] rfl).2
    [.ok sampleHeader] sampleScripts outcome s hextract honce
  exact ⟨outcome, s, hrun, hentries, hle, hheaders⟩

end IpfS3.Zip
