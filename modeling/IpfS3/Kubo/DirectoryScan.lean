import IpfS3.Foundations.PathTree
import IpfS3.Kubo.Directory

/-!
# Reading a manifest

The first loop of `build` goes through the files in the order of the list, and notes the directories
on the way to each of them.  A file in the place of a directory can come before or after the files
below that directory, so this conflict is only looked for at the end.

`readManifest_spec`: within the limits on the directories and on the bytes of a manifest
(`WithinLimits`), the manifest is read exactly when every path is valid and the paths are free of
prefixes, whatever the order of the files; and then the directories are the root and the proper
prefixes of the paths (`Scanned`).
-/

namespace IpfS3.Kubo

open Fallible PathTree List

/-! ## Paths -/

structure ValidPath (path : Text) : Prop where
  length_le : (segments path).length ≤ maxDepth
  ne_nil : [] ∉ segments path
  ne_dot : [46] ∉ segments path
  ne_dot_dot : [46, 46] ∉ segments path
  not_mem_backslash : ∀ part ∈ segments path, 92 ∉ part
  not_mem_nul : ∀ part ∈ segments path, 0 ∉ part

theorem segments_ne_nil (path : Text) : segments path ≠ [] := splitOnP_ne_nil _ path

theorem nil_mem_segments_of_startsWith {path : Text} (h : Text.startsWith path [47] = true) :
    [] ∈ segments path := by
  obtain ⟨rest, rfl⟩ := Text.startsWith_iff.mp h
  rw [segments, splitOn, singleton_append, splitOnP_cons_eq_if_modifyHead,
    if_pos (beq_self_eq_true 47)]
  exact mem_cons_self

theorem all_validPart_iff {parts : List Text} : parts.all validPart = true ↔
    [] ∉ parts ∧ [46] ∉ parts ∧ [46, 46] ∉ parts ∧ (∀ part ∈ parts, 92 ∉ part) ∧
      ∀ part ∈ parts, 0 ∉ part := by
  have hpart : ∀ part, validPart part = true ↔
      part ≠ [] ∧ part ≠ [46] ∧ part ≠ [46, 46] ∧ 92 ∉ part ∧ 0 ∉ part := by
    intro part
    rw [validPart]
    simp only [Bool.and_eq_true, Bool.not_eq_true', isEmpty_eq_false_iff, bne_iff_ne, ne_eq,
      contains_eq_mem, decide_eq_false_iff_not, and_assoc]
  rw [all_eq_true]
  constructor
  · intro h
    have hall := fun part hmem => (hpart part).mp (h part hmem)
    exact ⟨fun hmem => (hall _ hmem).1 rfl, fun hmem => (hall _ hmem).2.1 rfl,
      fun hmem => (hall _ hmem).2.2.1 rfl, fun part hmem => (hall part hmem).2.2.2.1,
      fun part hmem => (hall part hmem).2.2.2.2⟩
  · rintro ⟨hnil, hdot, hdots, hback, hnul⟩ part hmem
    exact (hpart part).mpr ⟨fun heq => hnil (heq ▸ hmem), fun heq => hdot (heq ▸ hmem),
      fun heq => hdots (heq ▸ hmem), hback part hmem, hnul part hmem⟩

theorem validPath_iff {path : Text} : ValidPath path ↔
    (segments path).length ≤ maxDepth ∧ (segments path).all validPart = true ∧
      Text.startsWith path [47] = false := by
  rw [all_validPart_iff]
  constructor
  · rintro ⟨hlength, hnil, hdot, hdots, hback, hnul⟩
    refine ⟨hlength, ⟨hnil, hdot, hdots, hback, hnul⟩, ?_⟩
    rw [Bool.eq_false_iff]
    exact fun h => hnil (nil_mem_segments_of_startsWith h)
  · rintro ⟨hlength, ⟨hnil, hdot, hdots, hback, hnul⟩, -⟩
    exact ⟨hlength, hnil, hdot, hdots, hback, hnul⟩

variable {path : List Text} {files : List DirectoryFile}
  {acc : ℕ × List (List Text × List (Link Cid))} {noted : Finset (List Text)}

theorem mem_parents {parts : List Text} :
    path ∈ parents parts ↔ path ≠ [] ∧ path <+: parts ∧ path ≠ parts := by
  rw [parents, mem_map]
  constructor
  · rintro ⟨depth, hdepth, rfl⟩
    rw [mem_range'_1] at hdepth
    have hlength : (parts.take depth).length = depth := length_take_of_le (by omega)
    refine ⟨ne_nil_of_length_pos (by omega), take_prefix depth parts, fun heq => ?_⟩
    rw [heq] at hlength
    omega
  · rintro ⟨hne, hpre, hproper⟩
    have hpos := length_pos_of_ne_nil hne
    have hlt : path.length < parts.length :=
      lt_of_le_of_ne hpre.length_le fun heq => hproper (hpre.eq_of_length heq)
    refine ⟨path.length, mem_range'_1.mpr (by omega), ?_⟩
    exact (prefix_iff_eq_take.mp hpre).symm

/-! ## Directories -/

/-- The directories below the root that the files are in. -/
def properDirectories (files : List DirectoryFile) : Finset (List Text) :=
  (files.flatMap fun file => parents (segments file.path)).toFinset

/-- What a manifest counts for: its texts, and its directories. -/
def manifestBytes (files : List DirectoryFile) : ℕ :=
  (files.map fun file => file.path.length + file.cid.length).sum +
    ∑ path ∈ properDirectories files, directoryBytes path

/-- The limits on a manifest; the root counts as a directory. -/
structure WithinLimits (files : List DirectoryFile) : Prop where
  length_le : files.length ≤ maxFiles
  card_lt : (properDirectories files).card < maxFiles
  bytes_le : manifestBytes files ≤ maxManifestBytes

theorem mem_properDirectories :
    path ∈ properDirectories files ↔
      path ≠ [] ∧ ∃ file ∈ files, path <+: segments file.path ∧ path ≠ segments file.path := by
  rw [properDirectories, mem_toFinset, mem_flatMap]
  constructor
  · rintro ⟨file, hfile, hpath⟩
    obtain ⟨hne, hpre⟩ := mem_parents.mp hpath
    exact ⟨hne, file, hfile, hpre⟩
  · rintro ⟨hne, file, hfile, hpre⟩
    exact ⟨file, hfile, mem_parents.mpr ⟨hne, hpre⟩⟩

theorem properDirectories_concat (files : List DirectoryFile) (file : DirectoryFile) :
    properDirectories (files ++ [file]) =
      properDirectories files ∪ (parents (segments file.path)).toFinset := by
  rw [properDirectories, flatMap_append, toFinset_append]
  simp [properDirectories]

theorem WithinLimits.of_concat {file : DirectoryFile} (h : WithinLimits (files ++ [file])) :
    WithinLimits files := by
  obtain ⟨hlength, hcard, hbytes⟩ := h
  have hsub : properDirectories files ⊆ properDirectories (files ++ [file]) := by
    rw [properDirectories_concat]
    exact Finset.subset_union_left
  refine ⟨?_, (Finset.card_le_card hsub).trans_lt hcard, ?_⟩
  · rw [length_append] at hlength
    omega
  · have hsum := Finset.sum_le_sum_of_subset (f := directoryBytes) hsub
    rw [manifestBytes, map_append, sum_append] at hbytes
    rw [manifestBytes]
    omega

variable {Cid : Type}

/-- The directories that have been noted, and the bytes counted for them. -/
structure Noted (base : ℕ) (noted : Finset (List Text))
    (acc : ℕ × List (List Text × List (Link Cid))) : Prop where
  nodup : (acc.2.map Prod.fst).Nodup
  mem_keys : ∀ path, path ∈ acc.2.map Prod.fst ↔ path = [] ∨ path ∈ noted
  empty : ∀ directory ∈ acc.2, directory.2 = []
  root : [] ∉ noted
  used : acc.1 = base + ∑ path ∈ noted, directoryBytes path

theorem hasDirectory_iff {directories : List (List Text × List (Link Cid))} :
    hasDirectory directories path = true ↔ path ∈ directories.map Prod.fst := by
  rw [hasDirectory, any_eq_true, mem_map]
  simp only [beq_iff_eq]

theorem Noted.length_eq {base : ℕ} (h : Noted base noted acc) :
    acc.2.length = noted.card + 1 := by
  have hkeys : (acc.2.map Prod.fst).toFinset = Insert.insert [] noted := by
    ext path
    rw [mem_toFinset, h.mem_keys, Finset.mem_insert]
  rw [← Finset.card_insert_of_notMem h.root, ← hkeys, toFinset_card_of_nodup h.nodup,
    length_map]

theorem Noted.addParent {base : ℕ} (h : Noted base noted acc) (hne : path ≠ [])
    (hcard : (Insert.insert path noted).card < maxFiles)
    (hbytes : base + ∑ path ∈ Insert.insert path noted, directoryBytes path ≤ maxManifestBytes) :
    ∃ acc', Kubo.addParent acc path = .ok acc' ∧ Noted base (Insert.insert path noted) acc' := by
  rw [Kubo.addParent]
  by_cases hmem : path ∈ noted
  · have hhas : hasDirectory acc.2 path = true :=
      hasDirectory_iff.mpr ((h.mem_keys path).mpr (Or.inr hmem))
    rw [if_pos hhas, Finset.insert_eq_self.mpr hmem]
    exact ⟨acc, rfl, h⟩
  · have hkeys : path ∉ acc.2.map Prod.fst := by
      rw [h.mem_keys, not_or]
      exact ⟨hne, hmem⟩
    have hhas : ¬hasDirectory acc.2 path = true := fun hhas => hkeys (hasDirectory_iff.mp hhas)
    have hused : acc.1 + directoryBytes path =
        base + ∑ path ∈ Insert.insert path noted, directoryBytes path := by
      rw [Finset.sum_insert hmem, h.used]
      omega
    have hlength : acc.2.length < maxFiles := by
      rw [h.length_eq, ← Finset.card_insert_of_notMem hmem]
      exact hcard
    have hfits : acc.1 + directoryBytes path ≤ maxManifestBytes := hused ▸ hbytes
    rw [if_neg hhas]
    dsimp only
    rw [ensure_of hfits, ok_bind, ensure_of hlength, ok_bind]
    refine ⟨_, rfl, ?_, fun other => ?_, ?_, ?_, hused⟩
    · rw [map_append, nodup_append]
      refine ⟨h.nodup, nodup_singleton path, fun a ha b hb hab => hkeys ?_⟩
      rw [map_singleton, mem_singleton] at hb
      rwa [← show a = path from hab.trans hb]
    · rw [map_append, mem_append, h.mem_keys, map_singleton, mem_singleton,
        Finset.mem_insert, or_assoc, or_comm (a := other ∈ noted)]
    · intro directory hdirectory
      rcases mem_append.mp hdirectory with hold | hnew
      · exact h.empty directory hold
      · rw [mem_singleton.mp hnew]
    · rw [Finset.mem_insert, not_or]
      exact ⟨fun heq => hne heq.symm, h.root⟩

theorem Noted.foldlM_addParent {base : ℕ} {paths : List (List Text)} (h : Noted base noted acc)
    (hne : ∀ path ∈ paths, path ≠ []) (hcard : (noted ∪ paths.toFinset).card < maxFiles)
    (hbytes : base + ∑ path ∈ noted ∪ paths.toFinset, directoryBytes path ≤ maxManifestBytes) :
    ∃ acc', paths.foldlM Kubo.addParent acc = .ok acc' ∧
      Noted base (noted ∪ paths.toFinset) acc' := by
  induction paths generalizing noted acc with
  | nil =>
    rw [toFinset_nil, Finset.union_empty]
    exact ⟨acc, rfl, h⟩
  | cons path paths ih =>
    have hunion : noted ∪ (path :: paths).toFinset = Insert.insert path noted ∪ paths.toFinset := by
      rw [toFinset_cons, Finset.union_insert, Finset.insert_union]
    rw [hunion] at hcard hbytes ⊢
    have hsub : Insert.insert path noted ⊆ Insert.insert path noted ∪ paths.toFinset :=
      Finset.subset_union_left
    have hsum := Finset.sum_le_sum_of_subset (f := directoryBytes) hsub
    obtain ⟨acc', hacc', hnoted⟩ := h.addParent (hne path mem_cons_self)
      ((Finset.card_le_card hsub).trans_lt hcard) (by omega)
    rw [foldlM_cons, hacc', ok_bind]
    exact ih hnoted (fun other hother => hne other (mem_cons_of_mem path hother)) hcard hbytes

/-! ## The files -/

variable {kubo : KuboClient Cid}

structure Scanned (kubo : KuboClient Cid) (files : List DirectoryFile) (manifest : Manifest Cid) :
    Prop where
  paths_eq : manifest.paths = files.map fun file => segments file.path
  entries : List.Forall₂ (fun file entry => entry.1 = segments file.path ∧
    kubo.parseCid file.cid = some entry.2) files manifest.entries
  noted : Noted (files.map fun file => file.path.length + file.cid.length).sum
    (properDirectories files) (manifest.usedBytes, manifest.directories)

def pathsOf (files : List DirectoryFile) : List (List Text) :=
  files.map fun file => segments file.path

inductive ScanResult (kubo : KuboClient Cid) (files : List DirectoryFile)
    (distinct : Prop) : BuildResult (Manifest Cid) → Prop where
  | scanned (manifest : Manifest Cid) (hvalid : ∀ file ∈ files, ValidPath file.path)
      (hdistinct : distinct) (hscanned : Scanned kubo files manifest) :
      ScanResult kubo files distinct (.ok manifest)
  | invalid (hinvalid : ∃ file ∈ files, ¬ValidPath file.path) :
      ScanResult kubo files distinct (.error (.failed .invalidManifest))
  | conflict (hconflict : ¬distinct) :
      ScanResult kubo files distinct (.error (.failed .pathConflict))

theorem addEntry_spec {file : DirectoryFile} (hlimits : WithinLimits (files ++ [file]))
    (hcid : (kubo.parseCid file.cid).isSome = true) {manifest : Manifest Cid}
    (hvalid : ∀ file ∈ files, ValidPath file.path) (hdistinct : (pathsOf files).Nodup)
    (hscanned : Scanned kubo files manifest) :
    ScanResult kubo (files ++ [file]) (pathsOf (files ++ [file])).Nodup
      (addEntry kubo manifest file) := by
  obtain ⟨-, hcard, hbytes⟩ := hlimits
  rw [manifestBytes] at hbytes
  rw [properDirectories_concat] at hcard hbytes
  rw [addEntry]
  by_cases hpath : ValidPath file.path
  swap
  · rw [ensure_of_not (mt validPath_iff.mpr hpath), error_bind]
    exact .invalid ⟨file, mem_append_right _ (mem_singleton_self file), hpath⟩
  have hpaths : pathsOf (files ++ [file]) = manifest.paths ++ [segments file.path] := by
    rw [pathsOf, map_append, hscanned.paths_eq]
    rfl
  have hsum : ((files ++ [file]).map fun file => file.path.length + file.cid.length).sum =
      (files.map fun file => file.path.length + file.cid.length).sum +
        (file.path.length + file.cid.length) := by
    rw [map_append, sum_append]
    rfl
  have hsub : properDirectories files ⊆
      properDirectories files ∪ (parents (segments file.path)).toFinset := Finset.subset_union_left
  have hmono := Finset.sum_le_sum_of_subset (f := directoryBytes) hsub
  have hbase := hscanned.noted.used
  rw [hsum] at hbytes
  obtain ⟨cid, hcid⟩ := Option.isSome_iff_exists.mp hcid
  have hfits : manifest.usedBytes + (file.path.length + file.cid.length) ≤ maxManifestBytes := by
    omega
  rw [ensure_of (validPath_iff.mp hpath), ok_bind]
  dsimp only
  rw [ensure_of hfits, ok_bind, hcid]
  dsimp only
  by_cases hnew : manifest.paths.contains (segments file.path) = false
  swap
  · rw [ensure_of_not hnew, error_bind]
    refine .conflict fun hnodup => hnew ?_
    rw [hpaths, nodup_append] at hnodup
    rw [contains_eq_mem, decide_eq_false_iff_not]
    exact fun hmem => hnodup.2.2 _ hmem _ (mem_singleton_self _) rfl
  -- the bytes of the file are counted before those of its directories
  have hnoted : Noted ((files ++ [file]).map fun file => file.path.length + file.cid.length).sum
      (properDirectories files)
      (manifest.usedBytes + (file.path.length + file.cid.length), manifest.directories) := by
    obtain ⟨hnodup, hkeys, hempty, hroot, -⟩ := hscanned.noted
    refine ⟨hnodup, hkeys, hempty, hroot, ?_⟩
    dsimp only
    omega
  obtain ⟨acc, hfold, hacc⟩ := hnoted.foldlM_addParent
    (fun path hmem => (mem_parents.mp hmem).1) hcard (by rw [hsum]; exact hbytes)
  rw [ensure_of hnew, ok_bind, hfold, ok_bind]
  refine .scanned _ ?_ ?_ ⟨?_, ?_, ?_⟩
  · intro other hother
    rcases mem_append.mp hother with hold | hlast
    · exact hvalid other hold
    · rwa [mem_singleton.mp hlast]
  · rw [hpaths, nodup_append]
    rw [contains_eq_mem, decide_eq_false_iff_not] at hnew
    refine ⟨?_, nodup_singleton _, fun a ha b hb hab => hnew ?_⟩
    · rw [hscanned.paths_eq]
      exact hdistinct
    · rwa [← mem_singleton.mp hb, ← hab]
  · exact hpaths.symm
  · exact rel_append hscanned.entries (List.Forall₂.cons ⟨rfl, hcid⟩ List.Forall₂.nil)
  · rw [properDirectories_concat]
    exact hacc

theorem foldlM_addEntry_spec (hlimits : WithinLimits files)
    (hcids : ∀ file ∈ files, (kubo.parseCid file.cid).isSome = true) :
    ScanResult kubo files (pathsOf files).Nodup
      (files.foldlM (addEntry kubo) ⟨0, [], [([], [])], []⟩) := by
  induction files using reverseRecOn with
  | nil =>
    refine .scanned _ (fun file hfile => absurd hfile not_mem_nil) nodup_nil
      ⟨rfl, List.Forall₂.nil, ?_, fun path => ?_, ?_, ?_, rfl⟩
    · exact nodup_singleton []
    · simp [properDirectories]
    · intro directory hdirectory
      rw [mem_singleton.mp hdirectory]
    · simp [properDirectories]
  | append_singleton files file ih =>
    rw [foldlM_append]
    have hbefore := ih hlimits.of_concat fun other hother =>
      hcids other (mem_append_left _ hother)
    generalize files.foldlM (addEntry kubo) ⟨0, [], [([], [])], []⟩ = result at hbefore
    cases hbefore with
    | scanned manifest hvalid hdistinct hscanned =>
      have hlast := addEntry_spec hlimits
        (hcids file (mem_append_right _ (mem_singleton_self file))) hvalid hdistinct
        hscanned
      rw [ok_bind, foldlM_cons]
      generalize addEntry kubo manifest file = result at hlast
      cases hlast with
      | scanned manifest hvalid hdistinct hscanned =>
        exact .scanned manifest hvalid hdistinct hscanned
      | invalid hinvalid => exact .invalid hinvalid
      | conflict hconflict => exact .conflict hconflict
    | invalid hinvalid =>
      obtain ⟨other, hother, hinvalid⟩ := hinvalid
      exact .invalid ⟨other, mem_append_left _ hother, hinvalid⟩
    | conflict hconflict =>
      refine .conflict fun hnodup => hconflict ?_
      rw [pathsOf, map_append] at hnodup
      exact (nodup_append.mp hnodup).1

theorem Scanned.any_hasDirectory {manifest : Manifest Cid} (h : Scanned kubo files manifest) :
    manifest.paths.any (hasDirectory manifest.directories) = true ↔
      ∃ p ∈ pathsOf files, ∃ q ∈ pathsOf files, p <+: q ∧ p ≠ q := by
  rw [any_eq_true, h.paths_eq]
  refine exists_congr fun p => and_congr_right fun hp => ?_
  have hne : p ≠ [] := by
    obtain ⟨file, -, rfl⟩ := mem_map.mp hp
    exact segments_ne_nil file.path
  rw [hasDirectory_iff, h.noted.mem_keys p, mem_properDirectories, or_iff_right hne,
    and_iff_right hne, pathsOf]
  simp only [mem_map, exists_exists_and_eq_and]

/-- **Reading a manifest**: it is read exactly when its paths are valid and free of prefixes. -/
theorem readManifest_spec (hlimits : WithinLimits files)
    (hcids : ∀ file ∈ files, (kubo.parseCid file.cid).isSome = true) :
    ScanResult kubo files (PrefixFree (pathsOf files)) (readManifest kubo files) := by
  have hloop := foldlM_addEntry_spec hlimits hcids
  rw [readManifest]
  generalize files.foldlM (addEntry kubo) ⟨0, [], [([], [])], []⟩ = result at hloop
  cases hloop with
  | scanned manifest hvalid hdistinct hscanned =>
    rw [ok_bind]
    by_cases hany : manifest.paths.any (hasDirectory manifest.directories) = true
    · rw [ensure_of_not (by rw [hany]; exact Bool.true_eq_false_eq_False), error_bind]
      refine .conflict fun hfree => ?_
      obtain ⟨p, hp, q, hq, hpre, hne⟩ := hscanned.any_hasDirectory.mp hany
      exact hne ((prefixFree_iff.mp hfree).2 p hp q hq hpre)
    · rw [ensure_of (Bool.not_eq_true _ ▸ hany), ok_bind]
      refine .scanned manifest hvalid (prefixFree_iff.mpr ⟨hdistinct, ?_⟩) hscanned
      intro p hp q hq hpre
      by_contra hne
      exact hany (hscanned.any_hasDirectory.mpr ⟨p, hp, q, hq, hpre, hne⟩)
  | invalid hinvalid => exact .invalid hinvalid
  | conflict hconflict => exact .conflict fun hfree => hconflict (prefixFree_iff.mp hfree).1

end IpfS3.Kubo
