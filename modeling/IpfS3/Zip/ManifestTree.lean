import IpfS3.Kubo.DirectoryBuild
import IpfS3.Zip.ManifestPaths

/-!
# The manifest and the directory builder

A manifest looks for a file in the place of a directory by cutting every path at its slashes; the
directory builder splits the paths into segments and notes the directories on the way.  On the segments
of paths, the first is the question for proper prefixes (`segments_prefix_iff`), so that the two agree
whatever the order of the files.
-/

namespace IpfS3.Zip

open Fallible Kubo PathTree List

/-! ## Segments -/

theorem mem_of_mem_segments {path part : Text} {byte : UInt8} (hpart : part ∈ segments path)
    (hbyte : byte ∈ part) : byte ∈ path ∧ byte ≠ 47 := by
  induction path generalizing part with
  | nil =>
    rw [show segments [] = [[]] from rfl, mem_singleton] at hpart
    rw [hpart] at hbyte
    cases hbyte
  | cons first path ih =>
    rw [segments, splitOn, splitOnP_cons_eq_if_modifyHead] at hpart
    split_ifs at hpart with hslash
    · rcases mem_cons.mp hpart with rfl | hpart
      · cases hbyte
      · obtain ⟨hmem, hne⟩ := ih hpart hbyte
        exact ⟨mem_cons_of_mem first hmem, hne⟩
    · obtain ⟨head, tail, hsplit⟩ := exists_cons_of_ne_nil (segments_ne_nil path)
      rw [segments, splitOn] at hsplit
      rw [hsplit, modifyHead_cons] at hpart
      have hold : ∀ other ∈ head :: tail, byte ∈ other → byte ∈ path ∧ byte ≠ 47 :=
        fun other hother => ih (by rw [segments, splitOn, hsplit]; exact hother)
      rcases mem_cons.mp hpart with rfl | hpart
      · rcases mem_cons.mp hbyte with rfl | hbyte
        · exact ⟨mem_cons_self, by simpa using hslash⟩
        · obtain ⟨hmem, hne⟩ := hold head mem_cons_self hbyte
          exact ⟨mem_cons_of_mem first hmem, hne⟩
      · obtain ⟨hmem, hne⟩ := hold part (mem_cons_of_mem head hpart) hbyte
        exact ⟨mem_cons_of_mem first hmem, hne⟩

theorem segments_injective : Function.Injective segments := by
  intro a b h
  calc a = [47].intercalate (segments a) := (intercalate_splitOn 47).symm
    _ = [47].intercalate (segments b) := by rw [h]
    _ = b := intercalate_splitOn 47

/-- **A path that goes on after a slash** is one whose segments go on. -/
theorem segments_prefix_iff {a b : Text} :
    (segments a <+: segments b ∧ segments a ≠ segments b) ↔ a ++ [47] <+: b := by
  constructor
  · rintro ⟨⟨rest, hrest⟩, hne⟩
    have hrest_ne : rest ≠ [] := by
      rintro rfl
      exact hne (by rw [← hrest, append_nil])
    -- the segments that are left belong to what follows the slash
    have hparts : segments ([47].intercalate rest) = rest := by
      refine splitOn_intercalate 47 (fun part hpart hmem => ?_) hrest_ne
      have hpart' : part ∈ segments b := hrest ▸ mem_append_right _ hpart
      exact (mem_of_mem_segments hpart' hmem).2 rfl
    have hb : b = a ++ 47 :: [47].intercalate rest := by
      refine segments_injective ?_
      rw [segments, segments, splitOn_append_cons_self]
      exact hrest.symm.trans (congrArg _ hparts.symm)
    refine ⟨[47].intercalate rest, ?_⟩
    rw [hb, append_assoc, singleton_append]
  · rintro ⟨rest, rfl⟩
    have hsplit : segments (a ++ [47] ++ rest) = segments a ++ segments rest := by
      rw [append_assoc]
      exact splitOn_append_cons_self a rest
    rw [hsplit]
    exact ⟨prefix_append _ _, fun h => segments_ne_nil rest (self_eq_append_right.mp h)⟩

/-! ## Paths of a manifest -/

theorem not_mem_of_hasControl {path : Text} (h : hasControl path = false) : 0 ∉ path := by
  induction path with
  | nil => exact not_mem_nil
  | cons byte path ih =>
    rw [hasControl, Bool.or_eq_false_iff, Bool.or_eq_false_iff, Bool.or_eq_false_iff] at h
    obtain ⟨⟨⟨hlow, -⟩, -⟩, hrest⟩ := h
    rw [mem_cons, not_or]
    refine ⟨?_, ih hrest⟩
    rintro rfl
    exact absurd hlow (by decide)

theorem validPath_of_validRelativePath {path : Text} (h : validRelativePath path = true)
    (hdepth : (segments path).length ≤ maxDepth) : ValidPath path := by
  unfold validRelativePath at h
  simp only [Bool.and_eq_true, Bool.not_eq_true', contains_eq_mem, decide_eq_false_iff_not,
    all_eq_true, bne_iff_ne, isEmpty_eq_false_iff] at h
  obtain ⟨⟨⟨⟨-, -⟩, hback⟩, hcontrol⟩, hparts⟩ := h
  have hnul := not_mem_of_hasControl hcontrol
  refine ⟨hdepth, fun hmem => ?_, fun hmem => ?_, fun hmem => ?_, fun part hpart hmem => ?_,
    fun part hpart hmem => ?_⟩
  · exact (hparts [] hmem).1.1 rfl
  · exact (hparts [46] hmem).1.2 rfl
  · exact (hparts [46, 46] hmem).2 rfl
  · exact hback (mem_of_mem_segments hpart hmem).1
  · exact hnul (mem_of_mem_segments hpart hmem).1

variable {entries : List ExtractedEntry} {failures : List ExtractFailure} {targetPrefix : Text}
  {manifest : FinalZipManifest}

theorem finalZipManifest_of_not_admissible {entry : ExtractedEntry} (hentry : entry ∈ entries)
    (h : ¬admissible entry = true) :
    finalZipManifest entries failures targetPrefix = .ok ⟨[], [], some .invalidManifest⟩ := by
  have hnone : ∀ (pairs : List (ExtractedEntry × ℕ)) (scan : EntryScan),
      (∃ index, (entry, index) ∈ pairs) → pairs.foldlM (scanEntry targetPrefix) scan = none := by
    intro pairs
    induction pairs with
    | nil => exact fun scan hmem => absurd hmem.choose_spec not_mem_nil
    | cons pair pairs ih =>
      rintro scan ⟨index, hmem⟩
      rw [foldlM_cons]
      rcases mem_cons.mp hmem with rfl | hmem
      · rw [scanEntry, if_neg h]
        rfl
      · cases scanEntry targetPrefix scan pair with
        | none => rfl
        | some scan' => exact ih scan' ⟨index, hmem⟩
  obtain ⟨index, hindex⟩ := mem_iff_getElem?.mp hentry
  have hpair : (entry, index) ∈ entries.zipIdx :=
    mk_mem_zipIdx_iff_getElem?.mpr hindex
  rw [finalZipManifest, hnone _ _ ⟨index, hpair⟩]

theorem valid_of_rootError (h : finalZipManifest entries failures targetPrefix = .ok manifest)
    (hroot : manifest.rootError ≠ some .invalidManifest) :
    (∀ file ∈ manifest.successful, validRelativePath file.relativePath = true) ∧
      (manifest.successful.map ManifestFile.relativePath).Nodup ∧
      (manifest.rootError = some .pathConflict ↔
        hasFileDirectoryConflict manifest.successful = true) := by
  have hadmissible : ∀ entry ∈ entries, admissible entry = true := by
    by_contra hnot
    push Not at hnot
    obtain ⟨entry, hentry, hnot⟩ := hnot
    rw [finalZipManifest_of_not_admissible hentry hnot] at h
    cases h
    exact hroot rfl
  obtain ⟨scan, winners, invalidNamespace, failureNamespace, other, hother, hassembled⟩ :=
    exists_assembled failures targetPrefix hadmissible
  obtain rfl : other = manifest := Except.ok.inj (hother.symm.trans h)
  have hrootError := hassembled.rootError_eq
  rw [rootErrorOf] at hrootError
  by_cases hinvalid : (scan.invalidRootPath ||
      decide (maxArchiveEntries < entries.length + failures.length)) = true
  · rw [if_pos hinvalid] at hrootError
    exact absurd hrootError hroot
  rw [if_neg hinvalid] at hrootError
  rw [Bool.or_eq_true, not_or, Bool.not_eq_true] at hinvalid
  refine ⟨fun file hfile => ?_, (nodup_append.mp hassembled.paths_nodup).1, ?_⟩
  · rcases record_cases hassembled.records hfile with ⟨-, winner, -, hpath⟩ | ⟨hnone, -⟩
    · exact (relativePath_eq_some_iff.mp hpath).2
    · -- no key is without a valid path
      obtain ⟨winner, hwinner, hkey, -⟩ := winner_of_mem hassembled.records hfile
      obtain ⟨entry, hentry, hentryKey⟩ :=
        ((hassembled.winners_last.mem_iff winner.1 winner.2).mp hwinner).here
      rw [hkey, ← hentryKey] at hnone
      have htrue := hassembled.scanned.invalidRootPath.mpr
        ⟨entry, mem_of_getElem? hentry, hnone⟩
      exact absurd (hinvalid.1.symm.trans htrue) (by decide)
  · rw [hrootError]
    cases hasFileDirectoryConflict other.successful <;> simp

theorem prefixFree_iff_of_perm {files : List DirectoryFile} {successful : List ManifestFile}
    (hperm : files.Perm (successful.map ManifestFile.toDirectoryFile))
    (hnodup : (successful.map ManifestFile.relativePath).Nodup) :
    PrefixFree (pathsOf files) ↔ hasFileDirectoryConflict successful = false := by
  have hpaths : (pathsOf files).Perm
      ((successful.map ManifestFile.relativePath).map segments) := by
    have hmap := hperm.map fun file => segments file.path
    rw [map_map] at hmap
    rw [pathsOf, map_map]
    exact hmap
  have hdistinct : (pathsOf files).Nodup :=
    hpaths.nodup_iff.mpr (hnodup.map segments_injective)
  rw [prefixFree_iff, and_iff_right hdistinct, Bool.eq_false_iff, ne_eq,
    hasFileDirectoryConflict_iff]
  constructor
  · rintro hfree ⟨a, ha, b, hb, hprefix⟩
    obtain ⟨hpre, hne⟩ := segments_prefix_iff.mpr hprefix
    have hmem : ∀ file ∈ successful, segments file.relativePath ∈ pathsOf files :=
      fun file hfile => hpaths.mem_iff.mpr
        (mem_map_of_mem (mem_map_of_mem hfile))
    exact hne (hfree _ (hmem a ha) _ (hmem b hb) hpre)
  · intro hconflict p hp q hq hpre
    by_contra hne
    have hmem : ∀ path ∈ pathsOf files, ∃ file ∈ successful, segments file.relativePath = path := by
      intro path hpath
      obtain ⟨relative, hrelative, rfl⟩ := mem_map.mp (hpaths.mem_iff.mp hpath)
      obtain ⟨file, hfile, rfl⟩ := mem_map.mp hrelative
      exact ⟨file, hfile, rfl⟩
    obtain ⟨a, ha, rfl⟩ := hmem p hp
    obtain ⟨b, hb, rfl⟩ := hmem q hq
    exact hconflict ⟨a, ha, b, hb, segments_prefix_iff.mp ⟨hpre, hne⟩⟩

variable {Cid : Type} [DecidableEq Cid]

/-- **The manifest and the directory builder agree.**  For the files of a manifest that is not invalid,
in any order and within the limits of the builder, the builder finds a path conflict exactly when the
manifest does; and without one, it accepts every path. -/
theorem rootError_iff_build (kubo : KuboClient Cid)
    (h : finalZipManifest entries failures targetPrefix = .ok manifest)
    (hroot : manifest.rootError ≠ some .invalidManifest) (hne : manifest.successful ≠ [])
    (hdepth : ∀ file ∈ manifest.successful, (segments file.relativePath).length ≤ 64)
    (hcids : ∀ file ∈ manifest.successful, (kubo.parseCid file.cid).isSome = true)
    {files : List DirectoryFile}
    (hperm : files.Perm (manifest.successful.map ManifestFile.toDirectoryFile))
    (hlimits : Kubo.WithinLimits files) :
    (manifest.rootError = some .pathConflict ↔
      build kubo files = .error (.failed .pathConflict)) ∧
    (manifest.rootError = none → ∃ scanned, readManifest kubo files = .ok scanned) := by
  obtain ⟨hvalid, hnodup, hconflict⟩ := valid_of_rootError h hroot
  have hfree := prefixFree_iff_of_perm hperm hnodup
  have hfile : ∀ file ∈ files, ∃ other ∈ manifest.successful, other.toDirectoryFile = file :=
    fun file hfile => mem_map.mp (hperm.mem_iff.mp hfile)
  have hpaths : ∀ file ∈ files, ValidPath file.path := by
    intro file hmem
    obtain ⟨other, hother, rfl⟩ := hfile file hmem
    exact validPath_of_validRelativePath (hvalid other hother) (hdepth other hother)
  have hparse : ∀ file ∈ files, (kubo.parseCid file.cid).isSome = true := by
    intro file hmem
    obtain ⟨other, hother, rfl⟩ := hfile file hmem
    exact hcids other hother
  have hfiles : files ≠ [] := by
    rintro rfl
    exact hne (map_eq_nil_iff.mp hperm.nil_eq.symm)
  constructor
  · rw [build_eq_pathConflict_iff hfiles hparse hlimits hpaths, hfree, hconflict,
      Bool.not_eq_false]
  · intro hnone
    have hquiet : hasFileDirectoryConflict manifest.successful = false := by
      rw [Bool.eq_false_iff, ne_eq, ← hconflict, hnone]
      exact fun hsome => by cases hsome
    have hread := readManifest_spec hlimits hparse
    generalize readManifest kubo files = result at hread
    cases hread with
    | scanned scanned => exact ⟨scanned, rfl⟩
    | invalid hinvalid =>
      obtain ⟨file, hmem, hinvalid⟩ := hinvalid
      exact absurd (hpaths file hmem) hinvalid
    | conflict hconflict => exact absurd (hfree.mpr hquiet) hconflict

/-- The files `x/y` and `x`, in the other order. -/
theorem rootError_iff_build_conflict :
    build sampleKubo [⟨[120], [50]⟩, ⟨[120, 47, 121], [49]⟩] = .error (.failed .pathConflict) := by
  have hmanifest : finalZipManifest [⟨[120, 47, 121], [49], 1⟩, ⟨[120], [50], 2⟩] [] [] =
      .ok ⟨[⟨[120, 47, 121], [120, 47, 121], [49], 1⟩, ⟨[120], [120], [50], 2⟩], [],
        some .pathConflict⟩ := by decide +kernel
  refine (rootError_iff_build sampleKubo hmanifest (by decide) (by decide) (by decide)
    (fun _ _ => rfl) ?_ ⟨by decide, by decide +kernel, by decide +kernel⟩).1.mp rfl
  exact List.Perm.swap _ _ []

end IpfS3.Zip
