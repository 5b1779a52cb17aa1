import IpfS3.Foundations.GroupedPages
import IpfS3.Zip.Manifest

/-!
# The records of a manifest

Every key has one record, with what was stored for it last, and every failure has one.  No two records
have the same path: the names that are made up start with a segment that no valid path starts with.

The search for these segments succeeds because there is always one more candidate than there are
segments in use (`exists_find?_unused`), so that the manifest never panics (`finalZipManifest_spec`).
-/

namespace IpfS3.Zip

open Fallible Keyset Naming List

/-! ## Paths -/

def firstSegment (path : Text) : Option Text := (path.splitOn 47).head?

theorem splitOn_of_not_mem {text : Text} (h : 47 ∉ text) : text.splitOn 47 = [text] := by
  induction text with
  | nil => rfl
  | cons byte text ih =>
    rw [mem_cons, not_or] at h
    rw [splitOn, splitOnP_cons_eq_if_modifyHead, if_neg (by simpa using Ne.symm h.1)]
    have htail := ih h.2
    rw [splitOn] at htail
    rw [htail]
    rfl

theorem firstSegment_syntheticPath {directory : Text} (h : 47 ∉ directory) (index : ℕ) :
    firstSegment (syntheticPath directory index) = some directory := by
  rw [firstSegment, syntheticPath, splitOn_append_cons_self, splitOn_of_not_mem h]
  rfl

theorem syntheticPath_injective (directory : Text) :
    Function.Injective (syntheticPath directory) := by
  intro i j h
  have htail := append_cancel_left h
  exact decimal_injective (cons.inj htail).2

theorem relativePath_eq_some_iff {targetPrefix key path : Text} :
    relativePath targetPrefix key = some path ↔
      key = targetPrefix ++ path ∧ validRelativePath path = true := by
  rw [relativePath, Option.filter_eq_some_iff, Text.stripPrefix_eq_some_iff]

theorem mem_slashIndices {path : Text} {index : ℕ} :
    index ∈ slashIndices path ↔ path[index]? = some 47 := by
  rw [slashIndices, mem_filter, mem_range, beq_iff_eq]
  refine ⟨fun h => h.2, fun h => ⟨?_, h⟩⟩
  exact (List.getElem?_eq_some_iff.mp h).1

/-- **A file in the place of a directory**: its path and a slash start the path of another file. -/
theorem hasFileDirectoryConflict_iff {files : List ManifestFile} :
    hasFileDirectoryConflict files = true ↔ ∃ a ∈ files, ∃ b ∈ files,
      a.relativePath ++ [47] <+: b.relativePath := by
  unfold hasFileDirectoryConflict
  simp only [any_eq_true, contains_eq_mem, decide_eq_true_eq, mem_map,
    mem_slashIndices]
  constructor
  · rintro ⟨b, hb, index, hslash, a, ha, hpath⟩
    refine ⟨a, ha, b, hb, ?_⟩
    have htake : b.relativePath.take (index + 1) = a.relativePath ++ [47] := by
      rw [take_add_one, hslash, hpath]
      rfl
    rw [← htake]
    exact take_prefix _ _
  · rintro ⟨a, ha, b, hb, rest, hrest⟩
    have hpath : b.relativePath = a.relativePath ++ 47 :: rest := by
      rw [← hrest, append_assoc]
      rfl
    refine ⟨b, hb, a.relativePath.length, ?_, a, ha, ?_⟩
    · rw [hpath, getElem?_append_right le_rfl, Nat.sub_self]
      rfl
    · rw [hpath, take_left]

/-! ## Names -/

theorem candidateName_injective (base : Text) : Function.Injective (candidateName base) := by
  intro m n h
  unfold candidateName at h
  split_ifs at h with hm hn hn
  · rw [hm, hn]
  · exact absurd (self_eq_append_right.mp h) (cons_ne_nil _ _)
  · exact absurd (append_right_eq_self.mp h) (cons_ne_nil _ _)
  · have htail := append_cancel_left h
    exact decimal_injective (cons.inj htail).2

theorem nodup_namespaceCandidates (base : Text) (segments : List Text) :
    (namespaceCandidates base segments).Nodup :=
  nodup_range.map (candidateName_injective base)

theorem length_namespaceCandidates (base : Text) (segments : List Text) :
    (namespaceCandidates base segments).length = segments.length + 2 := by
  rw [namespaceCandidates, length_map, length_range]

theorem not_mem_of_mem_namespaceCandidates {base : Text} {segments : List Text} {candidate : Text}
    (hbase : 47 ∉ base) (h : candidate ∈ namespaceCandidates base segments) : 47 ∉ candidate := by
  obtain ⟨n, -, rfl⟩ := mem_map.mp h
  unfold candidateName
  split_ifs
  · exact hbase
  · intro hmem
    rcases mem_append.mp hmem with hmem | hmem
    · exact hbase hmem
    · rcases mem_cons.mp hmem with heq | hmem
      · exact absurd heq (by decide)
      · exact absurd (digit_of_parseDigits (parseDigits_decimal _) hmem).1 (by decide)

/-- **A directory for made-up names**: a candidate that is not a first segment, nor given away. -/
theorem exists_namespace (base : Text) (hbase : 47 ∉ base) (segments taken : List Text)
    (htaken : taken.length ≤ 1) :
    ∃ directory, (namespaceCandidates base segments).find? (fun candidate =>
        !(taken ++ segments).contains candidate) = some directory ∧
      directory ∉ taken ++ segments ∧ 47 ∉ directory := by
  have hlength : (taken ++ segments).length < (namespaceCandidates base segments).length := by
    rw [length_namespaceCandidates, length_append]
    omega
  obtain ⟨directory, hfind, hunused⟩ :=
    exists_find?_unused (nodup_namespaceCandidates base segments) hlength
  exact ⟨directory, hfind, hunused,
    not_mem_of_mem_namespaceCandidates hbase (mem_of_find?_eq_some hfind)⟩

/-! ## The loop -/

variable {entries : List ExtractedEntry} {failures : List ExtractFailure} {targetPrefix : Text}

/-- What the loop over the entries has found. -/
structure Scanned (targetPrefix : Text) (entries : List ExtractedEntry) (scan : EntryScan) :
    Prop where
  invalidRootPath : scan.invalidRootPath = true ↔
    ∃ entry ∈ entries, relativePath targetPrefix entry.key = none
  winners : LastIndices ExtractedEntry.key entries scan.winners

/-- **The loop over the entries.** -/
theorem scanned_entries (targetPrefix : Text) (h : ∀ entry ∈ entries, admissible entry = true) :
    ∃ scan, entries.zipIdx.foldlM (scanEntry targetPrefix) ⟨false, []⟩ = some scan ∧
      Scanned targetPrefix entries scan := by
  induction entries using reverseRecOn with
  | nil => exact ⟨_, rfl, by simp, lastIndices_nil⟩
  | append_singleton entries entry ih =>
    obtain ⟨scan, hscan, hinvalid, hwinners⟩ := ih fun other hother =>
      h other (mem_append_left _ hother)
    have hentry := h entry (mem_append_right _ (mem_singleton_self entry))
    have hstep : scanEntry targetPrefix scan (entry, 0 + entries.length) =
        some ⟨scan.invalidRootPath || (relativePath targetPrefix entry.key).isNone,
          put scan.winners entry.key entries.length⟩ := by
      rw [scanEntry, if_pos hentry, Nat.zero_add]
    refine ⟨⟨scan.invalidRootPath || (relativePath targetPrefix entry.key).isNone,
      put scan.winners entry.key entries.length⟩, ?_, ?_, hwinners.put entry⟩
    · rw [zipIdx_append, foldlM_append, hscan, zipIdx_singleton]
      exact (congrArg (fun result => result >>= pure) hstep).trans rfl
    · simp only [Bool.or_eq_true, hinvalid, Option.isNone_iff_eq_none, mem_append,
        mem_singleton]
      constructor
      · rintro (⟨other, hother, hnone⟩ | hnone)
        · exact ⟨other, Or.inl hother, hnone⟩
        · exact ⟨entry, Or.inr rfl, hnone⟩
      · rintro ⟨other, hother | rfl, hnone⟩
        · exact Or.inl ⟨other, hother, hnone⟩
        · exact Or.inr hnone

/-! ## The records -/

def winnerPath (targetPrefix invalidNamespace : Text) (winner : Text × ℕ) : Text :=
  (relativePath targetPrefix winner.1).getD (syntheticPath invalidNamespace winner.2)

theorem mem_firstSegments {winners : List (Text × ℕ)} {winner : Text × ℕ} {path segment : Text}
    (hwinner : winner ∈ winners) (hpath : relativePath targetPrefix winner.1 = some path)
    (hsegment : firstSegment path = some segment) : segment ∈ firstSegments targetPrefix winners := by
  rw [firstSegments, mem_eraseDups, mem_filterMap]
  refine ⟨winner, hwinner, ?_⟩
  rw [hpath]
  exact hsegment

theorem lastIndices_sortBy {winners : List (Text × ℕ)}
    (h : LastIndices ExtractedEntry.key entries winners) :
    LastIndices ExtractedEntry.key entries (sortBy Prod.snd winners) ∧
      Ascending Prod.snd (sortBy Prod.snd winners) := by
  refine ⟨⟨?_, fun k i => ?_⟩, ascending_sortBy _ h.indices_ne⟩
  · exact ((sortBy_perm Prod.snd winners).map Prod.fst).nodup_iff.mpr h.nodup
  · rw [mem_sortBy]
    exact h.mem_iff k i

abbrev AreRecords (entries : List ExtractedEntry) (targetPrefix invalidNamespace : Text)
    (winners : List (Text × ℕ)) (files : List ManifestFile) : Prop :=
  List.Forall₂ (fun winner file => ∃ entry, entries[winner.2]? = some entry ∧
    entry.key = winner.1 ∧ file = ⟨winnerPath targetPrefix invalidNamespace winner, entry.key,
      entry.cid, entry.size⟩) winners files

theorem exists_manifestFiles {winners : List (Text × ℕ)} (targetPrefix invalidNamespace : Text)
    (h : LastIndices ExtractedEntry.key entries winners) :
    ∃ files, winners.mapM (manifestFile entries targetPrefix invalidNamespace) = .ok files ∧
      AreRecords entries targetPrefix invalidNamespace winners files := by
  have hrecord : ∀ winner ∈ winners, ∃ entry, entries[winner.2]? = some entry ∧
      entry.key = winner.1 := fun winner hwinner =>
    ((h.mem_iff winner.1 winner.2).mp hwinner).here
  have hok : ∃ files, winners.mapM (manifestFile entries targetPrefix invalidNamespace) =
      .ok files := by
    refine mapM_isOk_iff.mpr fun winner hwinner => ?_
    obtain ⟨entry, hentry, -⟩ := hrecord winner hwinner
    rw [manifestFile, hentry]
    exact ⟨_, rfl⟩
  obtain ⟨files, hfiles⟩ := hok
  refine ⟨files, hfiles, ?_⟩
  refine ((forall₂_and_left _ _).mpr ⟨hrecord, mapM_eq_ok_iff.mp hfiles⟩).imp ?_
  rintro winner file ⟨⟨entry, hentry, hkey⟩, hfile⟩
  rw [manifestFile, hentry] at hfile
  exact ⟨entry, hentry, hkey, (Except.ok.inj hfile).symm⟩

theorem firstSegment_ne {winners : List (Text × ℕ)} {winner : Text × ℕ} {path directory : Text}
    (hwinner : winner ∈ winners) (hpath : relativePath targetPrefix winner.1 = some path)
    (hdirectory : directory ∉ firstSegments targetPrefix winners) :
    firstSegment path ≠ some directory :=
  fun h => hdirectory (mem_firstSegments hwinner hpath h)

theorem nodup_winnerPaths {winners : List (Text × ℕ)} {invalidNamespace : Text}
    (h : LastIndices ExtractedEntry.key entries winners)
    (hunused : invalidNamespace ∉ firstSegments targetPrefix winners)
    (hslash : 47 ∉ invalidNamespace) :
    (winners.map (winnerPath targetPrefix invalidNamespace)).Nodup := by
  have hkeys : winners.Pairwise fun w w' => w.1 ≠ w'.1 := pairwise_map.mp h.nodup
  refine pairwise_map.mpr ((hkeys.and h.indices_ne).imp_of_mem ?_)
  rintro w w' hw hw' ⟨hkey, hindex⟩ heq
  unfold winnerPath at heq
  cases hpath : relativePath targetPrefix w.1 with
  | some path =>
    cases hpath' : relativePath targetPrefix w'.1 with
    | some path' =>
      rw [hpath, hpath', Option.getD_some, Option.getD_some] at heq
      refine hkey ?_
      rw [(relativePath_eq_some_iff.mp hpath).1, (relativePath_eq_some_iff.mp hpath').1, heq]
    | none =>
      rw [hpath, hpath', Option.getD_some, Option.getD_none] at heq
      refine firstSegment_ne hw hpath hunused ?_
      rw [heq, firstSegment_syntheticPath hslash]
  | none =>
    cases hpath' : relativePath targetPrefix w'.1 with
    | some path' =>
      rw [hpath, hpath', Option.getD_some, Option.getD_none] at heq
      refine firstSegment_ne hw' hpath' hunused ?_
      rw [← heq, firstSegment_syntheticPath hslash]
    | none =>
      rw [hpath, hpath', Option.getD_none, Option.getD_none] at heq
      exact hindex (syntheticPath_injective invalidNamespace heq)

/-- A record whose path is the key below the target prefix. -/
def HasValidPath (targetPrefix : Text) (file : ManifestFile) : Prop :=
  relativePath targetPrefix file.objectKey = some file.relativePath

/-- What a manifest says about the entries and the failures of an archive. -/
structure ManifestSpec (entries : List ExtractedEntry) (failures : List ExtractFailure)
    (targetPrefix : Text) (manifest : FinalZipManifest) : Prop where
  /-- Every key has one record. -/
  unique : ∀ entry ∈ entries, ∃! file, file ∈ manifest.successful ∧ file.objectKey = entry.key
  /-- The records hold what was stored last, in the order of these last positions. -/
  last : ∃ indices : List ℕ, indices.Pairwise (· < ·) ∧ List.Forall₂ (fun index file =>
    IsLast ExtractedEntry.key entries file.objectKey index ∧ ∃ entry, entries[index]? = some entry ∧
      file.cid = entry.cid ∧ file.size = entry.size) indices manifest.successful
  /-- A key with a valid path has its record there. -/
  valid_path : ∀ file ∈ manifest.successful, ∀ path, file.objectKey = targetPrefix ++ path →
    validRelativePath path = true → file.relativePath = path
  /-- Every failure has one record. -/
  failed : manifest.failed.map ManifestFailure.code =
    failures.map fun failure => safeFailureCode failure.code
  paths_nodup : (manifest.successful.map ManifestFile.relativePath ++
    manifest.failed.map ManifestFailure.path).Nodup
  /-- The names that are made up are in two directories, in which no valid path is. -/
  namespaces : ∃ invalidNamespace failureNamespace, invalidNamespace ≠ failureNamespace ∧
    (∀ file ∈ manifest.successful, HasValidPath targetPrefix file →
      firstSegment file.relativePath ≠ some invalidNamespace ∧
        firstSegment file.relativePath ≠ some failureNamespace) ∧
    (∀ file ∈ manifest.successful, ¬HasValidPath targetPrefix file →
      firstSegment file.relativePath = some invalidNamespace) ∧
    ∀ failure ∈ manifest.failed, firstSegment failure.path = some failureNamespace
  rootError_iff : manifest.rootError = none ↔ entries.length + failures.length ≤ 10000 ∧
    (∀ entry ∈ entries, ∃ path, entry.key = targetPrefix ++ path ∧ validRelativePath path = true) ∧
    ∀ entry ∈ entries, ∀ other ∈ entries, ∀ path path', entry.key = targetPrefix ++ path →
      other.key = targetPrefix ++ path' → ¬path ++ [47] <+: path'
  directoryFiles : manifest.rootError ≠ none → manifest.directoryFiles = []

section Records

variable {winners : List (Text × ℕ)} {files : List ManifestFile} {invalidNamespace : Text}

section

variable (h : AreRecords entries targetPrefix invalidNamespace winners files)

include h

theorem winner_of_mem {file : ManifestFile} (hfile : file ∈ files) : ∃ winner ∈ winners,
      file.objectKey = winner.1 ∧
        file.relativePath = winnerPath targetPrefix invalidNamespace winner := by
  obtain ⟨winner, hwinner, entry, -, hkey, rfl⟩ := exists_of_forall₂ h hfile
  exact ⟨winner, hwinner, hkey, rfl⟩

theorem map_objectKey :
    files.map ManifestFile.objectKey = winners.map Prod.fst := by
  refine map_eq_of_forall₂ h ?_
  rintro winner file ⟨entry, -, hkey, rfl⟩
  exact hkey

theorem map_relativePath :
    files.map ManifestFile.relativePath =
      winners.map (winnerPath targetPrefix invalidNamespace) := by
  refine map_eq_of_forall₂ h ?_
  rintro winner file ⟨entry, -, -, rfl⟩
  rfl

end

theorem existsUnique_record (hwinners : LastIndices ExtractedEntry.key entries winners)
    (h : AreRecords entries targetPrefix invalidNamespace winners files) {entry : ExtractedEntry}
    (hentry : entry ∈ entries) : ∃! file, file ∈ files ∧ file.objectKey = entry.key := by
  obtain ⟨index, hindex⟩ := exists_isLast ExtractedEntry.key hentry
  have hkeys := map_objectKey h
  have hmem : entry.key ∈ files.map ManifestFile.objectKey := by
    rw [hkeys]
    exact mem_map.mpr ⟨_, (hwinners.mem_iff entry.key index).mpr hindex, rfl⟩
  obtain ⟨file, hfile, hkey⟩ := mem_map.mp hmem
  refine ⟨file, ⟨hfile, hkey⟩, fun other hother => ?_⟩
  have hnodup := hwinners.nodup
  rw [← hkeys] at hnodup
  exact inj_on_of_nodup_map hnodup hother.1 hfile (hother.2.trans hkey.symm)

theorem records_last (hwinners : LastIndices ExtractedEntry.key entries winners)
    (hsorted : Ascending Prod.snd winners)
    (h : AreRecords entries targetPrefix invalidNamespace winners files) :
    ∃ indices : List ℕ, indices.Pairwise (· < ·) ∧ List.Forall₂ (fun index file =>
      IsLast ExtractedEntry.key entries file.objectKey index ∧
        ∃ entry, entries[index]? = some entry ∧ file.cid = entry.cid ∧ file.size = entry.size)
      indices files := by
  refine ⟨winners.map Prod.snd, pairwise_map.mpr hsorted, forall₂_map_left_iff.mpr ?_⟩
  have hlast : ∀ winner ∈ winners, IsLast ExtractedEntry.key entries winner.1 winner.2 :=
    fun winner hwinner => (hwinners.mem_iff winner.1 winner.2).mp hwinner
  refine ((forall₂_and_left _ _).mpr ⟨hlast, h⟩).imp ?_
  rintro winner file ⟨hindex, entry, hentry, hkey, rfl⟩
  rw [← hkey] at hindex
  exact ⟨hindex, entry, hentry, rfl, rfl⟩

theorem record_cases (h : AreRecords entries targetPrefix invalidNamespace winners files)
    {file : ManifestFile} (hfile : file ∈ files) :
    (HasValidPath targetPrefix file ∧ ∃ winner ∈ winners,
      relativePath targetPrefix winner.1 = some file.relativePath) ∨
      (relativePath targetPrefix file.objectKey = none ∧
        ∃ index, file.relativePath = syntheticPath invalidNamespace index) := by
  obtain ⟨winner, hwinner, hkey, hpath⟩ := winner_of_mem h hfile
  unfold HasValidPath
  rw [winnerPath] at hpath
  rw [hkey]
  cases hvalid : relativePath targetPrefix winner.1 with
  | some path =>
    rw [hvalid, Option.getD_some] at hpath
    refine Or.inl ⟨by rw [hpath], winner, hwinner, ?_⟩
    rw [hvalid, hpath]
  | none =>
    rw [hvalid, Option.getD_none] at hpath
    exact Or.inr ⟨rfl, winner.2, hpath⟩

end Records

theorem map_manifestFailure (failureNamespace : Text) (failures : List ExtractFailure) :
    ((failures.zipIdx.map (manifestFailure failureNamespace)).map ManifestFailure.code =
        failures.map fun failure => safeFailureCode failure.code) ∧
      (failures.zipIdx.map (manifestFailure failureNamespace)).map ManifestFailure.path =
        (range failures.length).map (syntheticPath failureNamespace) := by
  constructor
  · rw [map_map]
    conv_rhs => rw [← zipIdx_map_fst 0 failures, map_map]
    rfl
  · rw [map_map, range_eq_range', ← zipIdx_map_snd 0 failures, map_map]
    rfl

theorem rootErrorOf_eq_none_iff {invalidRootPath overLimit : Bool} {files : List ManifestFile} :
    rootErrorOf invalidRootPath overLimit files = none ↔ overLimit = false ∧
      invalidRootPath = false ∧ ∀ a ∈ files, ∀ b ∈ files,
        ¬a.relativePath ++ [47] <+: b.relativePath := by
  have hconflict : hasFileDirectoryConflict files = false ↔ ∀ a ∈ files, ∀ b ∈ files,
      ¬a.relativePath ++ [47] <+: b.relativePath := by
    rw [Bool.eq_false_iff, ne_eq, hasFileDirectoryConflict_iff]
    push Not
    rfl
  rw [← hconflict, rootErrorOf]
  cases invalidRootPath <;> cases overLimit <;> cases hasFileDirectoryConflict files <;> simp

structure Assembled (entries : List ExtractedEntry) (failures : List ExtractFailure)
    (targetPrefix : Text) (scan : EntryScan) (winners : List (Text × ℕ))
    (invalidNamespace failureNamespace : Text) (manifest : FinalZipManifest) : Prop where
  scanned : Scanned targetPrefix entries scan
  winners_last : LastIndices ExtractedEntry.key entries winners
  winners_sorted : Ascending Prod.snd winners
  invalid_unused : invalidNamespace ∉ firstSegments targetPrefix winners
  invalid_slash : 47 ∉ invalidNamespace
  failure_unused : failureNamespace ∉ firstSegments targetPrefix winners
  failure_slash : 47 ∉ failureNamespace
  namespaces_ne : invalidNamespace ≠ failureNamespace
  records : AreRecords entries targetPrefix invalidNamespace winners manifest.successful
  failed_eq : manifest.failed = failures.zipIdx.map (manifestFailure failureNamespace)
  rootError_eq : manifest.rootError = rootErrorOf scan.invalidRootPath
    (decide (maxArchiveEntries < entries.length + failures.length)) manifest.successful

/-- **No search for a name fails.** -/
theorem exists_assembled (failures : List ExtractFailure) (targetPrefix : Text)
    (h : ∀ entry ∈ entries, admissible entry = true) :
    ∃ scan winners invalidNamespace failureNamespace manifest,
      finalZipManifest entries failures targetPrefix = .ok manifest ∧
        Assembled entries failures targetPrefix scan winners invalidNamespace failureNamespace
          manifest := by
  obtain ⟨scan, hscan, hscanned⟩ := scanned_entries targetPrefix h
  obtain ⟨hlast, hsorted⟩ := lastIndices_sortBy hscanned.winners
  set winners := sortBy Prod.snd scan.winners with hfinal
  obtain ⟨invalidNamespace, hfind, hunused, hslash⟩ := exists_namespace
    (Text.ascii "invalid".toList) (by decide) (firstSegments targetPrefix winners) []
    (Nat.zero_le 1)
  obtain ⟨failureNamespace, hfind', hunused', hslash'⟩ := exists_namespace
    (Text.ascii "failed".toList) (by decide) (firstSegments targetPrefix winners)
    [invalidNamespace] le_rfl
  rw [nil_append] at hunused hfind
  rw [singleton_append, mem_cons, not_or] at hunused'
  obtain ⟨files, hfiles, hrecords⟩ := exists_manifestFiles targetPrefix
    invalidNamespace hlast
  have hsearch : (namespaceCandidates (Text.ascii "failed".toList)
      (firstSegments targetPrefix winners)).find? (fun candidate =>
        candidate != invalidNamespace &&
          !(firstSegments targetPrefix winners).contains candidate) = some failureNamespace := by
    rw [← hfind']
    congr 1
    funext candidate
    rw [singleton_append, contains_cons, Bool.not_or]
    rfl
  refine ⟨scan, winners, invalidNamespace, failureNamespace,
    ⟨files, failures.zipIdx.map (manifestFailure failureNamespace), rootErrorOf scan.invalidRootPath
      (decide (maxArchiveEntries < entries.length + failures.length)) files⟩, ?_, hscanned, hlast, hsorted,
    hunused, hslash, hunused'.2, hslash', Ne.symm hunused'.1, hrecords, rfl, rfl⟩
  rw [finalZipManifest, hscan]
  unfold manifestOf
  dsimp only
  rw [← hfinal, hfind, expect, ok_bind, hfiles, ok_bind, hsearch, expect, ok_bind]

section Assembly

variable {scan : EntryScan} {winners : List (Text × ℕ)} {invalidNamespace failureNamespace : Text}
  {manifest : FinalZipManifest}

section

variable (h : Assembled entries failures targetPrefix scan winners invalidNamespace failureNamespace manifest)

include h

theorem Assembled.paths_nodup :
    (manifest.successful.map ManifestFile.relativePath ++
      manifest.failed.map ManifestFailure.path).Nodup := by
  rw [h.failed_eq, (map_manifestFailure failureNamespace failures).2, map_relativePath h.records,
    nodup_append]
  refine ⟨nodup_winnerPaths h.winners_last h.invalid_unused h.invalid_slash,
    nodup_range.map (syntheticPath_injective failureNamespace), ?_⟩
  -- the paths of failures are in a directory that no other record is in
  rintro path hpath path' hpath' rfl
  obtain ⟨index, -, rfl⟩ := mem_map.mp hpath'
  obtain ⟨winner, hwinner, hpath⟩ := mem_map.mp hpath
  have hsegment := firstSegment_syntheticPath h.failure_slash index
  rw [← hpath, winnerPath] at hsegment
  cases hvalid : relativePath targetPrefix winner.1 with
  | some path =>
    rw [hvalid, Option.getD_some] at hsegment
    exact firstSegment_ne hwinner hvalid h.failure_unused hsegment
  | none =>
    rw [hvalid, Option.getD_none, firstSegment_syntheticPath h.invalid_slash] at hsegment
    exact h.namespaces_ne (Option.some.inj hsegment)

theorem Assembled.firstSegments :
    (∀ file ∈ manifest.successful, HasValidPath targetPrefix file →
      firstSegment file.relativePath ≠ some invalidNamespace ∧
        firstSegment file.relativePath ≠ some failureNamespace) ∧
    (∀ file ∈ manifest.successful, ¬HasValidPath targetPrefix file →
      firstSegment file.relativePath = some invalidNamespace) ∧
    ∀ failure ∈ manifest.failed, firstSegment failure.path = some failureNamespace := by
  refine ⟨fun file hfile hvalid => ?_, fun file hfile hinvalid => ?_, fun failure hfailure => ?_⟩
  · rcases record_cases h.records hfile with ⟨-, winner, hwinner, hpath⟩ | ⟨hnone, -⟩
    · exact ⟨firstSegment_ne hwinner hpath h.invalid_unused,
        firstSegment_ne hwinner hpath h.failure_unused⟩
    · rw [HasValidPath, hnone] at hvalid
      cases hvalid
  · rcases record_cases h.records hfile with ⟨hvalid, -⟩ | ⟨-, index, hpath⟩
    · exact absurd hvalid hinvalid
    · rw [hpath, firstSegment_syntheticPath h.invalid_slash]
  · rw [h.failed_eq] at hfailure
    obtain ⟨⟨failed, index⟩, -, rfl⟩ := mem_map.mp hfailure
    exact firstSegment_syntheticPath h.failure_slash index

theorem Assembled.relativePath_eq {file : ManifestFile} {path : Text}
    (hfile : file ∈ manifest.successful) (hkey : file.objectKey = targetPrefix ++ path)
    (hvalid : validRelativePath path = true) : file.relativePath = path := by
  have hpath := relativePath_eq_some_iff.mpr ⟨hkey, hvalid⟩
  rcases record_cases h.records hfile with ⟨hrecord, -⟩ | ⟨hnone, -⟩
  · exact Option.some.inj (hrecord.symm.trans hpath)
  · rw [hnone] at hpath
    cases hpath

theorem Assembled.conflict_iff
    (hvalid : ∀ entry ∈ entries, ∃ path, entry.key = targetPrefix ++ path ∧
      validRelativePath path = true) :
    (∀ a ∈ manifest.successful, ∀ b ∈ manifest.successful,
        ¬a.relativePath ++ [47] <+: b.relativePath) ↔
      ∀ entry ∈ entries, ∀ other ∈ entries, ∀ path path', entry.key = targetPrefix ++ path →
        other.key = targetPrefix ++ path' → ¬path ++ [47] <+: path' := by
  constructor
  · intro hfiles entry hentry other hother path path' hkey hkey'
    have hfile {entry : ExtractedEntry} {path : Text} (hentry : entry ∈ entries)
        (hkey : entry.key = targetPrefix ++ path) :
        ∃ file ∈ manifest.successful, file.relativePath = path := by
      obtain ⟨file, ⟨hfile, hobject⟩, -⟩ := existsUnique_record h.winners_last h.records hentry
      obtain ⟨valid, hkey', hvalid⟩ := hvalid entry hentry
      obtain rfl : valid = path := append_cancel_left (hkey'.symm.trans hkey)
      exact ⟨file, hfile, h.relativePath_eq hfile (hobject.trans hkey) hvalid⟩
    obtain ⟨a, ha, rfl⟩ := hfile hentry hkey
    obtain ⟨b, hb, rfl⟩ := hfile hother hkey'
    exact hfiles a ha b hb
  · intro hentries a ha b hb
    have hentry {file : ManifestFile} (hfile : file ∈ manifest.successful) :
        ∃ entry ∈ entries, entry.key = targetPrefix ++ file.relativePath := by
      obtain ⟨winner, -, entry, hentry, -, rfl⟩ := exists_of_forall₂ h.records hfile
      have hmem := mem_of_getElem? hentry
      obtain ⟨path, hkey, hpath⟩ := hvalid entry hmem
      exact ⟨entry, hmem, by rw [h.relativePath_eq hfile hkey hpath, hkey]⟩
    obtain ⟨entry, hmem, hkey⟩ := hentry ha
    obtain ⟨other, hmem', hkey'⟩ := hentry hb
    exact hentries entry hmem other hmem' _ _ hkey hkey'

end

theorem Scanned.invalidRootPath_eq_false_iff (h : Scanned targetPrefix entries scan) :
    scan.invalidRootPath = false ↔ ∀ entry ∈ entries, ∃ path,
      entry.key = targetPrefix ++ path ∧ validRelativePath path = true := by
  rw [Bool.eq_false_iff, ne_eq, h.invalidRootPath]
  push Not
  refine forall₂_congr fun entry _ => ?_
  rw [Option.ne_none_iff_exists']
  exact exists_congr fun path => relativePath_eq_some_iff

end Assembly

/-- **The manifest of an archive.**  For entries that can be kept, no search for a name fails, and the
manifest has one record for every key, with what was stored for it last, and one for every failure,
under different paths. -/
theorem finalZipManifest_spec (entries : List ExtractedEntry) (failures : List ExtractFailure)
    (targetPrefix : Text) (h : ∀ entry ∈ entries, entry.key.length ≤ 1024 ∧
      1 ≤ entry.cid.length ∧ entry.cid.length ≤ 4096 ∧ 0 ≤ entry.size) :
    ∃ manifest, finalZipManifest entries failures targetPrefix = .ok manifest ∧
      ManifestSpec entries failures targetPrefix manifest := by
  have hadmissible : ∀ entry ∈ entries, admissible entry = true := by
    intro entry hentry
    obtain ⟨hkey, hcid, hlength, hsize⟩ := h entry hentry
    have hne : entry.cid ≠ [] := ne_nil_of_length_pos hcid
    simp [admissible, hkey, hlength, hsize, hne]
  obtain ⟨scan, winners, invalidNamespace, failureNamespace, manifest, hok, hassembled⟩ :=
    exists_assembled failures targetPrefix hadmissible
  refine ⟨manifest, hok, fun entry => existsUnique_record hassembled.winners_last hassembled.records,
    records_last hassembled.winners_last hassembled.winners_sorted hassembled.records,
    fun _ hfile _ => hassembled.relativePath_eq hfile, ?_, hassembled.paths_nodup,
    ⟨invalidNamespace, failureNamespace, hassembled.namespaces_ne, hassembled.firstSegments⟩, ?_,
    fun herror => ?_⟩
  · rw [hassembled.failed_eq]
    exact (map_manifestFailure failureNamespace failures).1
  · rw [hassembled.rootError_eq, rootErrorOf_eq_none_iff,
      hassembled.scanned.invalidRootPath_eq_false_iff, decide_eq_false_iff_not, not_lt]
    exact and_congr_right fun _ => and_congr_right hassembled.conflict_iff
  · rw [FinalZipManifest.directoryFiles, if_pos (Option.isSome_iff_ne_none.mpr herror)]

/-- An entry is written twice, one has a key outside of the prefix, and one failed. -/
theorem finalZipManifest_spec_sampleEntries : ∃ manifest,
    finalZipManifest [⟨[112, 47, 97], [49], 1⟩, ⟨[120], [50], 2⟩, ⟨[112, 47, 97], [51], 3⟩]
      [⟨[97], [], []⟩] [112, 47] = .ok manifest ∧
    ManifestSpec [⟨[112, 47, 97], [49], 1⟩, ⟨[120], [50], 2⟩, ⟨[112, 47, 97], [51], 3⟩]
      [⟨[97], [], []⟩] [112, 47] manifest :=
  finalZipManifest_spec _ _ _ (by decide)

end IpfS3.Zip
