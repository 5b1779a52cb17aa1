import IpfS3.Kubo.DagLookup
import IpfS3.Kubo.DirectoryScan

/-!
# The directories of a manifest

Once a manifest has been read, its files are put into their directories, and then the directories
into those above them.  `Linked` says what the links of the directories are: the files and the
directories that have been put into them so far, each of them under its name.  `Disturbed` are the
reasons, outside of the manifest, for which a build may fail.

* `Linked.pushLink`: one more link, under a name that the directory does not have yet.
* `foldlM_addFile_spec`: the loop over the files puts every file into its directory, and a directory
  that it needs is there.
-/

namespace IpfS3.Kubo

open Fallible Keyset PathTree Table List

variable {Cid : Type}

/-! ## The links of directories -/

/-- The links of the directories are the targets in them, and have a property. -/
structure Linked (P : List Text → Link Cid → Prop)
    (directories : List (List Text × List (Link Cid))) (targets : List (List Text × Cid)) :
    Prop where
  nodup : (directories.map Prod.fst).Nodup
  names_nodup : ∀ directory ∈ directories, (directory.2.map Link.name).Nodup
  mem_iff : ∀ directory ∈ directories, ∀ name cid,
    (∃ link ∈ directory.2, link.name = name ∧ link.cid = cid) ↔
      (directory.1 ++ [name], cid) ∈ targets
  links : ∀ directory ∈ directories, ∀ link ∈ directory.2, P directory.1 link

variable {P : List Text → Link Cid → Prop} {directories : List (List Text × List (Link Cid))} {targets : List (List Text × Cid)}

theorem Linked.sublist (h : Linked P directories targets)
    {directories' : List (List Text × List (Link Cid))} (hsub : directories'.Sublist directories) :
    Linked P directories' targets :=
  ⟨h.nodup.sublist (hsub.map Prod.fst), fun d hd => h.names_nodup d (hsub.subset hd),
    fun d hd => h.mem_iff d (hsub.subset hd), fun d hd => h.links d (hsub.subset hd)⟩

theorem Linked.concat_root (h : Linked P directories targets) (cid : Cid) :
    Linked P directories (targets ++ [([], cid)]) := by
  refine ⟨h.nodup, h.names_nodup, fun d hd name target => ?_, h.links⟩
  rw [h.mem_iff d hd, mem_append, mem_singleton, Prod.mk.injEq]
  simp

/-- **One more link** is put into a directory. -/
theorem Linked.pushLink (h : Linked P directories targets) {parent : List Text} (link : Link Cid)
    (hlink : P parent link) (hparent : parent ∈ directories.map Prod.fst)
    (hnew : ∀ cid, (parent ++ [link.name], cid) ∉ targets) :
    ∃ directories', Kubo.pushLink directories parent link = .ok directories' ∧
      directories'.map Prod.fst = directories.map Prod.fst ∧
      Linked P directories' (targets ++ [(parent ++ [link.name], link.cid)]) := by
  rw [Kubo.pushLink, if_pos (hasDirectory_iff.mpr hparent)]
  have hkeys : (updateWhere (fun directory => directory.1 == parent)
      (fun directory => (directory.1, directory.2 ++ [link])) directories).map Prod.fst =
        directories.map Prod.fst := map_updateWhere fun _ _ => rfl
  refine ⟨_, rfl, hkeys, hkeys ▸ h.nodup, fun directory hmem => ?_, fun directory hmem name cid => ?_,
    fun directory hmem l hl => ?_⟩
  · obtain ⟨d, hd, rfl⟩ := mem_updateWhere.mp hmem
    split_ifs with hp
    · rw [map_append, nodup_append]
      refine ⟨h.names_nodup d hd, nodup_singleton _, fun a ha b hb hab => ?_⟩
      rw [map_singleton, mem_singleton] at hb
      obtain ⟨old, hold, hname⟩ := mem_map.mp ha
      refine hnew old.cid ?_
      rw [← beq_iff_eq.mp hp]
      exact (h.mem_iff d hd _ _).mp ⟨old, hold, hname.trans (hab.trans hb), rfl⟩
    · exact h.names_nodup d hd
  · obtain ⟨d, hd, rfl⟩ := mem_updateWhere.mp hmem
    have hold := h.mem_iff d hd name cid
    rw [mem_append, mem_singleton, Prod.mk.injEq]
    by_cases hp : (d.1 == parent) = true
    · have hparent := beq_iff_eq.mp hp
      rw [if_pos hp, ← hold, hparent]
      simp only [mem_append, mem_singleton, append_cancel_left_eq, cons.injEq,
        and_true]
      constructor
      · rintro ⟨l, hl | rfl, hname, hcid⟩
        · exact Or.inl ⟨l, hl, hname, hcid⟩
        · exact Or.inr ⟨hname.symm, hcid.symm⟩
      · rintro (⟨l, hl, hname, hcid⟩ | ⟨hname, hcid⟩)
        · exact ⟨l, Or.inl hl, hname, hcid⟩
        · exact ⟨link, Or.inr rfl, hname.symm, hcid.symm⟩
    · rw [if_neg hp, ← hold]
      refine (or_iff_left ?_).symm
      rintro ⟨heq, -⟩
      exact hp (beq_iff_eq.mpr (append_inj_left' heq rfl))
  · obtain ⟨d, hd, rfl⟩ := mem_updateWhere.mp hmem
    split_ifs at hl ⊢ with hp
    · rcases mem_append.mp hl with hold | hnew
      · exact h.links d hd l hold
      · rw [mem_singleton.mp hnew, beq_iff_eq.mp hp]
        exact hlink
    · exact h.links d hd l hl

/-! ## The files and directories of a manifest -/

/-- What is known of the files once the manifest has been read. -/
structure Files (entries : List (List Text × Cid)) : Prop where
  free : PrefixFree (entries.map Prod.fst)
  ne_nil : ∀ entry ∈ entries, entry.1 ≠ []
  name_ne : ∀ entry ∈ entries, [] ∉ entry.1
  length_le : entries.length ≤ maxFiles

/-- The root and the proper prefixes of the files. -/
def IsDirectory (entries : List (List Text × Cid)) (path : List Text) : Prop :=
  path = [] ∨ ∃ entry ∈ entries, path <+: entry.1 ∧ path ≠ entry.1

variable {entries : List (List Text × Cid)}

variable {path : List Text}

theorem Files.not_isDirectory (h : Files entries) {cid : Cid} (hmem : (path, cid) ∈ entries) :
    ¬IsDirectory entries path := by
  rintro (rfl | ⟨entry, hentry, hpre, hne⟩)
  · exact h.ne_nil _ hmem rfl
  · exact hne ((prefixFree_iff.mp h.free).2 path (mem_map_of_mem hmem) entry.1
      (mem_map_of_mem hentry) hpre)

theorem isDirectory_of_concat (name : Text) (h : ∃ entry ∈ entries, path ++ [name] <+: entry.1) :
    IsDirectory entries path := by
  obtain ⟨entry, hentry, hpre⟩ := h
  refine Or.inr ⟨entry, hentry, (prefix_append path [name]).trans hpre, fun heq => ?_⟩
  have hlength := hpre.length_le
  rw [length_append, ← heq, length_singleton] at hlength
  omega

theorem IsDirectory.exists_entry (h : IsDirectory entries path) (hne : path ≠ []) :
    ∃ entry ∈ entries, path <+: entry.1 := by
  rcases h with rfl | ⟨entry, hentry, hpre, -⟩
  · exact absurd rfl hne
  · exact ⟨entry, hentry, hpre⟩

theorem IsDirectory.dropLast (h : IsDirectory entries path) (hne : path ≠ []) :
    IsDirectory entries path.dropLast := by
  refine isDirectory_of_concat (path.getLast hne) ?_
  rw [dropLast_append_getLast]
  exact h.exists_entry hne

theorem isDirectory_dropLast_of_mem (h : Files entries) {entry : List Text × Cid}
    (hmem : entry ∈ entries) : IsDirectory entries entry.1.dropLast := by
  refine isDirectory_of_concat (entry.1.getLast (h.ne_nil entry hmem)) ⟨entry, hmem, ?_⟩
  rw [dropLast_append_getLast]

/-! ## Disturbances -/

/-- A link that a directory of the manifest can get: to a file with the size that Kubo gives for it,
or to a directory below that was written with such links. -/
inductive LinkOf (kubo : KuboClient Cid) (entries : List (List Text × Cid)) :
    List Text → Link Cid → Prop where
  | file {path : List Text} {link : Link Cid} (hentry : (path ++ [link.name], link.cid) ∈ entries)
      (hsize : kubo.fileSize link.cid = .ok link.size) : LinkOf kubo entries path link
  | directory {path : List Text} {link : Link Cid} {links : List (Link Cid)}
      (hdirectory : IsDirectory entries (path ++ [link.name])) (hgood : GoodLinks links)
      (hlinks : ∀ child ∈ links, LinkOf kubo entries (path ++ [link.name]) child)
      (hput : putDirectory kubo links = .ok (link.cid, link.size)) : LinkOf kubo entries path link

/-- What can disturb a build: Kubo fails to give the size of a file or its identity, or the writing of
a directory is disturbed. -/
inductive Disturbed (kubo : KuboClient Cid) (entries : List (List Text × Cid)) :
    BuildFailure → Prop where
  | fileSize {entry : List Text × Cid} {error : AppError} (hentry : entry ∈ entries)
      (h : kubo.fileSize entry.2 = .error error) : Disturbed kubo entries (.failed (.kubo error))
  | identity {error : AppError} (h : kubo.localNodeIdentity = .error error) :
      Disturbed kubo entries (.failed (.kubo error))
  | directory {path : List Text} {links : List (Link Cid)} {e : BuildFailure}
      (hgood : GoodLinks links) (hlinks : ∀ link ∈ links, LinkOf kubo entries path link)
      (h : Disturbs kubo links e) : Disturbed kubo entries e

theorem Disturbed.ne {kubo : KuboClient Cid} {e : BuildFailure}
    (h : Disturbed kubo entries e) : e ≠ .failed .pathConflict ∧ ∀ message, e ≠ .panicked message := by
  cases h with
  | fileSize | identity => exact ⟨by simp, fun _ => by simp⟩
  | directory _ _ h => cases h <;> exact ⟨by simp, fun _ => by simp⟩

section Loops

variable [DecidableEq Cid] {kubo : KuboClient Cid}

/-- The known sizes are those that Kubo gives. -/
def SizesKnown (kubo : KuboClient Cid) (sizes : List (Cid × ℕ)) : Prop :=
  ∀ cid size, sizes.lookup cid = some size → kubo.fileSize cid = .ok size

theorem memoSize_spec {sizes : List (Cid × ℕ)} (hsizes : SizesKnown kubo sizes)
    {entry : List Text × Cid} (hentry : entry ∈ entries) :
    Steady (Disturbed kubo entries) (memoSize kubo sizes entry.2) ∧
      ∀ sizes', memoSize kubo sizes entry.2 = .ok sizes' →
        SizesKnown kubo sizes' ∧ ∃ size, sizes'.lookup entry.2 = some size := by
  rw [memoSize]
  split_ifs with hknown
  · refine ⟨steady_ok sizes, fun sizes' h => ?_⟩
    cases h
    exact ⟨hsizes, Option.isSome_iff_exists.mp hknown⟩
  · refine ⟨(steady_call fun error => .fileSize hentry).bind fun _ _ => steady_ok _,
      fun sizes' h => ?_⟩
    obtain ⟨size, hsize, h⟩ := of_bind h
    cases h
    refine ⟨fun cid other hlookup => ?_, size, lookup_cons_self⟩
    rw [lookup_cons] at hlookup
    split at hlookup
    · rename_i heq
      rw [beq_iff_eq.mp heq, ← Option.some.inj hlookup]
      exact of_call hsize
    · exact hsizes cid other hlookup

/-- All but the rest of the files are in their directories. -/
def Filed (kubo : KuboClient Cid) (entries : List (List Text × Cid))
    (directories : List (List Text × List (Link Cid))) (rest : List (List Text × Cid))
    (acc : List (Cid × ℕ) × List (List Text × List (Link Cid))) : Prop :=
  ∃ done, entries = done ++ rest ∧ acc.2.map Prod.fst = directories.map Prod.fst ∧
    SizesKnown kubo acc.1 ∧ Linked (LinkOf kubo entries) acc.2 done

theorem Filed.step (hfiles : Files entries)
    (hkeys : ∀ path, path ∈ directories.map Prod.fst ↔ IsDirectory entries path)
    {rest : List (List Text × Cid)} {entry : List Text × Cid}
    {acc : List (Cid × ℕ) × List (List Text × List (Link Cid))}
    (h : Filed kubo entries directories (entry :: rest) acc) :
    Steady (Disturbed kubo entries) (addFile kubo acc entry) ∧
      ∀ acc', addFile kubo acc entry = .ok acc' → Filed kubo entries directories rest acc' := by
  obtain ⟨done, hdone, hacc, hsizes, hdoneLinked⟩ := h
  have hmem : entry ∈ entries := hdone ▸ mem_append_right done mem_cons_self
  have hne := hfiles.ne_nil entry hmem
  have hparent : entry.1.dropLast ∈ acc.2.map Prod.fst := by
    rw [hacc, hkeys]
    exact isDirectory_dropLast_of_mem hfiles hmem
  -- the paths of the files are distinct
  have hnew : ∀ cid, (entry.1.dropLast ++ [entry.1.getLast hne], cid) ∉ done := by
    intro cid hold
    rw [dropLast_append_getLast] at hold
    have hnodup := (prefixFree_iff.mp hfiles.free).1
    rw [hdone, map_append, nodup_append] at hnodup
    exact hnodup.2.2 _ (mem_map_of_mem hold) _
      (mem_map_of_mem mem_cons_self) rfl
  have hpush : ∀ size, kubo.fileSize entry.2 = .ok size →
      ∃ directories', pushLink acc.2 entry.1.dropLast ⟨entry.1.getLast hne, entry.2, size⟩ =
        .ok directories' ∧ directories'.map Prod.fst = acc.2.map Prod.fst ∧
          Linked (LinkOf kubo entries) directories' (done ++ [entry]) := by
    intro size hsize
    have hlink : LinkOf kubo entries entry.1.dropLast ⟨entry.1.getLast hne, entry.2, size⟩ := by
      refine .file ?_ hsize
      rw [dropLast_append_getLast]
      exact hmem
    obtain ⟨directories', hok, hkeys', hlinked'⟩ := hdoneLinked.pushLink _ hlink hparent hnew
    rw [dropLast_append_getLast] at hlinked'
    exact ⟨directories', hok, hkeys', hlinked'⟩
  obtain ⟨hsteady, hmemo⟩ := memoSize_spec hsizes hmem
  constructor
  · refine hsteady.bind fun sizes hsizes => ?_
    obtain ⟨hknown, size, hlookup⟩ := hmemo sizes hsizes
    obtain ⟨directories', hok, -⟩ := hpush size (hknown _ _ hlookup)
    rw [getLast?_eq_some_getLast hne, hlookup]
    dsimp only
    rw [hok]
    exact steady_ok _
  · intro acc' h
    obtain ⟨sizes, hsizes, h⟩ := of_bind h
    obtain ⟨hknown, size, hlookup⟩ := hmemo sizes hsizes
    obtain ⟨directories', hok, hkeys', hlinked'⟩ := hpush size (hknown _ _ hlookup)
    rw [getLast?_eq_some_getLast hne, hlookup] at h
    dsimp only at h
    rw [hok] at h
    cases h
    exact ⟨done ++ [entry], by rw [hdone, append_assoc]; rfl, hkeys'.trans hacc, hknown, hlinked'⟩

variable (kubo) in
/-- **The files are put into their directories.** -/
theorem foldlM_addFile_spec (hfiles : Files entries)
    (hkeys : ∀ path, path ∈ directories.map Prod.fst ↔ IsDirectory entries path)
    (hlinked : Linked (LinkOf kubo entries) directories []) :
    Steady (Disturbed kubo entries) (entries.foldlM (addFile kubo) ([], directories)) ∧
      ∀ acc, entries.foldlM (addFile kubo) ([], directories) = .ok acc →
        acc.2.map Prod.fst = directories.map Prod.fst ∧
          Linked (LinkOf kubo entries) acc.2 entries := by
  have hinitial : Filed kubo entries directories entries ([], directories) :=
    ⟨[], rfl, rfl, fun _ _ h => absurd h (by simp), hlinked⟩
  obtain ⟨hsteady, hdone⟩ := foldlM_rule (J := Filed kubo entries directories)
    (fun _ _ _ h => h.step hfiles hkeys) hinitial
  refine ⟨hsteady, fun acc hacc => ?_⟩
  obtain ⟨done, hall, hkeys, -, hlinked⟩ := hdone acc hacc
  rw [append_nil] at hall
  subst hall
  exact ⟨hkeys, hlinked⟩

end Loops

end IpfS3.Kubo
