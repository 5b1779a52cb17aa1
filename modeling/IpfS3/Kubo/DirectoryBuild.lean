import IpfS3.Kubo.DirectoryTree

/-!
# The tree of a manifest

The directories are written from the deepest to the root, each of them into the one above it.  The
invariant of this loop (`Writing`) has a list of the directories that are written, with their CIDs.
The links of a directory that is still pending are the files in it and the directories in it that are
written; since a directory comes after all that is below it, its links are complete when it is
written, and no later round adds to them.

`build_exact`: the build accepts exactly the manifests with valid paths that are free of prefixes, it
does not panic, and a reader of the DAG finds the files of the manifest and nothing else.
-/

namespace IpfS3.Kubo

open Fallible Keyset PathTree Table List Option

variable {Cid : Type} {entries : List (List Text × Cid)}

/-! ## The order of the directories -/

theorem buildOrder_perm (directories : List (List Text × List (Link Cid))) :
    (buildOrder directories).Perm (directories.map Prod.fst) := sortBy_perm _ _

variable {directories : List (List Text × List (Link Cid))}

/-- **Children first**: no directory is followed by one that is below it. -/
theorem pairwise_buildOrder (h : (directories.map Prod.fst).Nodup) :
    (buildOrder directories).Pairwise fun p q => q.length ≤ p.length := by
  have hkeys : (directories.map Prod.fst).Pairwise fun p q =>
      toLex (OrderDual.toDual p.length, p) ≠ toLex (OrderDual.toDual q.length, q) := by
    refine List.Pairwise.imp (fun {p q} hne heq => hne ?_) h
    exact congrArg (fun key => (ofLex key).2) heq
  refine (ascending_sortBy _ hkeys).imp fun {p q} hlt => ?_
  rcases Prod.Lex.lt_iff.mp hlt with hlength | ⟨hlength, -⟩
  · exact (OrderDual.toDual_lt_toDual.mp hlength).le
  · exact (OrderDual.toDual.injective hlength).ge

/-! ## Writing the directories -/

theorem exists_entry_of_target {written : List (List Text × Cid)}
    (hwritten : ∀ node ∈ written, IsDirectory entries node.1) {path : List Text} {name : Text}
    {cid : Cid} (h : (path ++ [name], cid) ∈ entries ++ written) :
    ∃ entry ∈ entries, path ++ [name] <+: entry.1 := by
  rcases mem_append.mp h with hentry | hnode
  · exact ⟨_, hentry, prefix_refl _⟩
  · exact (hwritten _ hnode).exists_entry (append_ne_nil_of_right_ne_nil _ (by simp))

theorem Linked.goodLinks {P : List Text → Link Cid → Prop} (hfiles : Files entries)
    {written : List (List Text × Cid)} (hwritten : ∀ node ∈ written, IsDirectory entries node.1)
    (h : Linked P directories (entries ++ written)) {directory : List Text × List (Link Cid)}
    (hmem : directory ∈ directories) : GoodLinks (sortBy Link.name directory.2) := by
  have hperm := sortBy_perm Link.name directory.2
  have hentry : ∀ link ∈ directory.2, ∃ entry ∈ entries, directory.1 ++ [link.name] <+: entry.1 :=
    fun link hlink => exists_entry_of_target hwritten
      ((h.mem_iff directory hmem link.name link.cid).mp ⟨link, hlink, rfl, rfl⟩)
  refine ⟨pairwise_sortBy Link.name directory.2,
    (hperm.map Link.name).nodup_iff.mpr (h.names_nodup directory hmem), ?_, ?_⟩
  · intro link hlink heq
    obtain ⟨entry, hmem, hpre⟩ := hentry link ((mem_sortBy Link.name).mp hlink)
    rw [heq] at hpre
    exact hfiles.name_ne entry hmem (hpre.subset (by simp))
  · -- distinct names come from distinct files
    have hsub : directory.2.map Link.name ⊆
        entries.map fun entry => entry.1.getD directory.1.length [] := by
      intro name hname
      obtain ⟨link, hlink, rfl⟩ := mem_map.mp hname
      obtain ⟨entry, hentry, rest, hrest⟩ := hentry link hlink
      refine mem_map.mpr ⟨entry, hentry, ?_⟩
      rw [← hrest]
      simp
    have hle := (subperm_of_subset (h.names_nodup directory hmem) hsub).length_le
    rw [length_map, length_map] at hle
    rw [hperm.length_eq]
    exact hle.trans hfiles.length_le

/-- A directory was written with the targets in it. -/
def PutWith (kubo : KuboClient Cid) (targets : List (List Text × Cid)) (path : List Text)
    (cid : Cid) : Prop :=
  ∃ links size, putDirectory kubo links = .ok (cid, size) ∧ GoodLinks links ∧
    ∀ name target, (∃ link ∈ links, link.name = name ∧ link.cid = target) ↔
      (path ++ [name], target) ∈ targets

theorem PutWith.concat {kubo : KuboClient Cid} {targets : List (List Text × Cid)}
    {path : List Text} {cid : Cid} (h : PutWith kubo targets path cid) {target : List Text × Cid}
    (hlength : target.1.length ≤ path.length) : PutWith kubo (targets ++ [target]) path cid := by
  obtain ⟨links, size, hput, hgood, hiff⟩ := h
  refine ⟨links, size, hput, hgood, fun name other => ?_⟩
  rw [hiff, mem_append, mem_singleton]
  refine (or_iff_left ?_).symm
  rintro rfl
  rw [length_append, length_singleton] at hlength
  omega

/-- **The invariant of the last loop**, with the directories that are written. -/
structure Writing (kubo : KuboClient Cid) (entries : List (List Text × Cid))
    (rest : List (List Text)) (written : List (List Text × Cid)) (pending : Pending Cid) : Prop where
  nodup : rest.Nodup
  sorted : rest.Pairwise fun p q => q.length ≤ p.length
  mem_keys : ∀ path, path ∈ pending.directories.map Prod.fst ↔ path ∈ rest
  rest_isDirectory : ∀ path ∈ rest, IsDirectory entries path
  linked : Linked (LinkOf kubo entries) pending.directories (entries ++ written)
  written_iff : ∀ path, (∃ cid, (path, cid) ∈ written) ↔ IsDirectory entries path ∧ path ∉ rest
  deeper : ∀ node ∈ written, ∀ path ∈ rest, path.length ≤ node.1.length
  put : ∀ node ∈ written, PutWith kubo (entries ++ written) node.1 node.2
  root : ∀ cid, ([], cid) ∈ written ↔ pending.root.map DirectoryCandidate.cid = some cid

section Loop

variable {kubo : KuboClient Cid} {rest : List (List Text)} {path : List Text}
  {written : List (List Text × Cid)} {pending : Pending Cid}

theorem Writing.isDirectory (h : Writing kubo entries rest written pending) :
    ∀ node ∈ written, IsDirectory entries node.1 :=
  fun node hnode => ((h.written_iff node.1).mp ⟨node.2, hnode⟩).1

theorem Writing.exists_links (h : Writing kubo entries (path :: rest) written pending) :
    ∃ links, pending.directories.lookup path = some links ∧
      (path, links) ∈ pending.directories := by
  have hkey := (h.mem_keys path).mpr mem_cons_self
  cases hlookup : pending.directories.lookup path with
  | none =>
    obtain ⟨directory, hmem, heq⟩ := mem_map.mp hkey
    have hne := lookup_eq_none_iff.mp hlookup directory hmem
    rw [heq] at hne
    simp at hne
  | some links =>
    obtain ⟨before, after, heq, -⟩ := lookup_eq_some_iff.mp hlookup
    exact ⟨links, rfl, heq ▸ mem_append_right before mem_cons_self⟩

section

variable (hfiles : Files entries) (h : Writing kubo entries (path :: rest) written pending)

include hfiles h

/-- **One directory is written.**  What is left to do in a round is to take the directory from the
pending ones, and to link it into the one above it or to note the root. -/
theorem Writing.step {links : List (Link Cid)} (hmem : (path, links) ∈ pending.directories)
    {cid : Cid} {size : ℕ} (hput : putDirectory kubo (sortBy Link.name links) = .ok (cid, size))
    {pending' : Pending Cid}
    (hkeys : ∀ other, other ∈ pending'.directories.map Prod.fst ↔ other ∈ rest)
    (hlinked : Linked (LinkOf kubo entries) pending'.directories
      (entries ++ (written ++ [(path, cid)])))
    (hroot : pending'.root.map DirectoryCandidate.cid =
      if path = [] then some cid else pending.root.map DirectoryCandidate.cid) :
    Writing kubo entries rest (written ++ [(path, cid)]) pending' := by
  obtain ⟨hpath, hnodup⟩ := nodup_cons.mp h.nodup
  obtain ⟨hfirst, hsorted⟩ := pairwise_cons.mp h.sorted
  refine ⟨hnodup, hsorted, hkeys, fun other hother => h.rest_isDirectory other
    (mem_cons_of_mem path hother), hlinked, fun other => ?_, ?_, ?_, fun other => ?_⟩
  · constructor
    · rintro ⟨c, hc⟩
      rcases mem_append.mp hc with hold | hnew
      · obtain ⟨hdirectory, hnot⟩ := (h.written_iff other).mp ⟨c, hold⟩
        exact ⟨hdirectory, fun hmem => hnot (mem_cons_of_mem path hmem)⟩
      · obtain ⟨rfl, rfl⟩ := Prod.mk.inj (mem_singleton.mp hnew)
        exact ⟨h.rest_isDirectory other mem_cons_self, hpath⟩
    · rintro ⟨hdirectory, hnot⟩
      by_cases heq : other = path
      · exact ⟨cid, heq ▸ mem_append_right written (mem_singleton_self _)⟩
      · obtain ⟨c, hc⟩ := (h.written_iff other).mpr
          ⟨hdirectory, fun hmem => (mem_cons.mp hmem).elim heq hnot⟩
        exact ⟨c, mem_append_left _ hc⟩
  · intro node hnode other hother
    rcases mem_append.mp hnode with hold | hnew
    · exact h.deeper node hold other (mem_cons_of_mem path hother)
    · rw [mem_singleton.mp hnew]
      exact hfirst other hother
  · intro node hnode
    rw [← append_assoc]
    rcases mem_append.mp hnode with hold | hnew
    · exact (h.put node hold).concat (h.deeper node hold path mem_cons_self)
    · rw [mem_singleton.mp hnew]
      refine PutWith.concat ⟨_, size, hput, h.linked.goodLinks hfiles h.isDirectory hmem, ?_⟩ le_rfl
      intro name target
      simp only [mem_sortBy]
      exact h.linked.mem_iff _ hmem name target
  · rw [mem_append, mem_singleton, Prod.mk.injEq, hroot]
    by_cases hnil : path = []
    · subst hnil
      have hnone : ∀ c, ([], c) ∉ written :=
        fun c hc => ((h.written_iff []).mp ⟨c, hc⟩).2 mem_cons_self
      rw [if_pos rfl, some.injEq, or_iff_right (hnone other)]
      exact ⟨fun heq => heq.2.symm, fun heq => ⟨rfl, heq.symm⟩⟩
    · rw [if_neg hnil, h.root other]
      exact or_iff_left fun heq => hnil heq.1.symm

theorem Writing.pushParent (hne : path ≠ [])
    (hlinked : Linked (LinkOf kubo entries) directories (entries ++ written))
    (hkeys : ∀ other, other ∈ directories.map Prod.fst ↔ other ∈ rest) {links : List (Link Cid)}
    (hmem : (path, links) ∈ pending.directories) {node : Cid × ℕ}
    (hput : putDirectory kubo (sortBy Link.name links) = .ok node) :
    ∃ directories', pushLink directories path.dropLast ⟨path.getLast hne, node.1, node.2⟩ =
        .ok directories' ∧ directories'.map Prod.fst = directories.map Prod.fst ∧
      Linked (LinkOf kubo entries) directories' (entries ++ (written ++ [(path, node.1)])) := by
  have hdirectory := h.rest_isDirectory path mem_cons_self
  have hlink : LinkOf kubo entries path.dropLast ⟨path.getLast hne, node.1, node.2⟩ := by
    refine .directory ?_ (h.linked.goodLinks hfiles h.isDirectory hmem) (fun child hchild => ?_) hput
    · rwa [dropLast_append_getLast]
    · rw [dropLast_append_getLast]
      exact h.linked.links _ hmem child ((mem_sortBy _).mp hchild)
  have hshorter : path.dropLast.length < path.length := by
    rw [length_dropLast]
    exact Nat.sub_one_lt (length_pos_of_ne_nil hne).ne'
  have hparent : path.dropLast ∈ directories.map Prod.fst := by
    rw [hkeys]
    by_contra hnot
    have hwritten : path.dropLast ∉ path :: rest := by
      rw [mem_cons, not_or]
      exact ⟨fun heq => hshorter.ne (congrArg length heq), hnot⟩
    obtain ⟨c, hc⟩ := (h.written_iff _).mpr ⟨hdirectory.dropLast hne, hwritten⟩
    exact absurd (h.deeper _ hc path mem_cons_self) (not_le.mpr hshorter)
  have hnew : ∀ c, (path.dropLast ++ [path.getLast hne], c) ∉ entries ++ written := by
    intro c hc
    rw [dropLast_append_getLast] at hc
    rcases mem_append.mp hc with hentry | hwritten
    · exact hfiles.not_isDirectory hentry hdirectory
    · exact ((h.written_iff path).mp ⟨c, hwritten⟩).2 mem_cons_self
  obtain ⟨directories', hok, hkeys', hlinked'⟩ :=
    hlinked.pushLink _ hlink hparent hnew
  rw [dropLast_append_getLast, append_assoc] at hlinked'
  exact ⟨directories', hok, hkeys', hlinked'⟩

/-- **One round of the last loop.** -/
theorem Writing.writeDirectory :
    Steady (Disturbed kubo entries) (Kubo.writeDirectory kubo pending path) ∧
      ∀ pending', Kubo.writeDirectory kubo pending path = .ok pending' →
        ∃ written', Writing kubo entries rest written' pending' := by
  obtain ⟨links, hlookup, hmem⟩ := h.exists_links
  obtain ⟨hpath, hnodup⟩ := nodup_cons.mp h.nodup
  have hgood := h.linked.goodLinks hfiles h.isDirectory hmem
  have hsteady : Steady (Disturbed kubo entries) (putDirectory kubo (sortBy Link.name links)) :=
    (steady_putDirectory hgood.length_le).imp fun e => .directory hgood fun link hlink =>
      h.linked.links _ hmem link ((mem_sortBy _).mp hlink)
  set directories := deleteWhere (fun directory => directory.1 == path) pending.directories
    with hdirectories
  have hlinked : Linked (LinkOf kubo entries) directories (entries ++ written) :=
    h.linked.sublist deleteWhere_sublist
  have hkeys : ∀ other, other ∈ directories.map Prod.fst ↔ other ∈ rest := by
    intro other
    constructor
    · intro hother
      obtain ⟨directory, hdirectory, rfl⟩ := mem_map.mp hother
      obtain ⟨hold, hne⟩ := mem_deleteWhere.mp hdirectory
      rcases mem_cons.mp ((h.mem_keys directory.1).mp (mem_map_of_mem hold)) with
        heq | hrest
      · rw [heq, beq_self_eq_true] at hne
        cases hne
      · exact hrest
    · intro hother
      obtain ⟨directory, hold, rfl⟩ :=
        mem_map.mp ((h.mem_keys other).mpr (mem_cons_of_mem path hother))
      refine mem_map_of_mem (mem_deleteWhere.mpr ⟨hold, ?_⟩)
      rw [beq_eq_false_iff_ne]
      exact fun heq => hpath (heq ▸ hother)
  rw [Kubo.writeDirectory, hlookup]
  rw [← hdirectories]
  by_cases hnil : path = []
  · subst hnil
    rw [getLast?_nil]
    refine ⟨(steady_call fun _ => .identity).bind fun _ _ => hsteady.bind fun _ _ => steady_ok _,
      fun pending' hok => ?_⟩
    obtain ⟨nodeIdentity, -, hok⟩ := of_bind hok
    obtain ⟨⟨cid, size⟩, hput, hok⟩ := of_bind hok
    cases hok
    refine ⟨_, h.step hfiles hmem hput hkeys ?_ (by rw [if_pos rfl]; rfl)⟩
    rw [← append_assoc]
    exact hlinked.concat_root cid
  · rw [getLast?_eq_some_getLast hnil]
    dsimp only
    constructor
    · refine hsteady.bind fun node hput => ?_
      obtain ⟨directories', hok, -⟩ := h.pushParent hfiles hnil hlinked hkeys hmem hput
      rw [hok]
      exact steady_ok _
    · intro pending' hok
      obtain ⟨⟨cid, size⟩, hput, hok⟩ := of_bind hok
      dsimp only at hok
      obtain ⟨directories', hpushed, hkeys', hlinked'⟩ :=
        h.pushParent hfiles hnil hlinked hkeys hmem hput
      rw [hpushed] at hok
      cases hok
      exact ⟨_, h.step hfiles hmem hput (by rw [hkeys']; exact hkeys) hlinked'
        (by rw [if_neg hnil])⟩

end

variable (kubo) in
/-- **The directories are written**, all of them. -/
theorem foldlM_writeDirectory_spec (hfiles : Files entries)
    (hkeys : ∀ path, path ∈ directories.map Prod.fst ↔ IsDirectory entries path)
    (hlinked : Linked (LinkOf kubo entries) directories entries) :
    Steady (Disturbed kubo entries) ((buildOrder directories).foldlM (Kubo.writeDirectory kubo) ⟨directories, none⟩) ∧
      ∀ pending, (buildOrder directories).foldlM (Kubo.writeDirectory kubo) ⟨directories, none⟩ =
        .ok pending → ∃ written, Writing kubo entries [] written pending := by
  have hperm := buildOrder_perm directories
  have hinitial : Writing kubo entries (buildOrder directories) [] ⟨directories, none⟩ := by
    refine ⟨hperm.nodup_iff.mpr hlinked.nodup, pairwise_buildOrder hlinked.nodup,
      fun path => hperm.mem_iff.symm, fun path hpath => (hkeys path).mp (hperm.mem_iff.mp hpath),
      by rwa [append_nil], fun path => ?_, ?_, ?_, fun cid => ?_⟩
    · refine iff_of_false (fun ⟨cid, hcid⟩ => absurd hcid not_mem_nil) ?_
      rintro ⟨hdirectory, hnot⟩
      exact hnot (hperm.mem_iff.mpr ((hkeys path).mpr hdirectory))
    · exact fun node hnode => absurd hnode not_mem_nil
    · exact fun node hnode => absurd hnode not_mem_nil
    · exact iff_of_false not_mem_nil (fun h => by cases h)
  exact foldlM_rule (J := fun rest pending => ∃ written, Writing kubo entries rest written pending)
    (fun rest path pending ⟨written, h⟩ => h.writeDirectory hfiles) ⟨[], hinitial⟩

/-- **The written directories hold the tree of the files.** -/
theorem Writing.holds {dag : Dag Cid} (hserves : Serves kubo dag)
    (h : Writing kubo entries [] written pending) :
    Holds (lookupName dag) (fun path cid => (path, cid) ∈ entries)
      (fun path cid => (path, cid) ∈ written) := by
  refine ⟨fun path cid hnode name target => ?_, fun path cid hentry directory hpre hne => ?_⟩
  · obtain ⟨links, size, hput, hgood, hiff⟩ := h.put _ hnode
    rw [putDirectory_spec hserves hgood hput, hiff, mem_append]
  · refine (h.written_iff directory).mpr ⟨Or.inr ⟨_, hentry, hpre, hne⟩, not_mem_nil⟩

end Loop

/-! ## The build -/

section Build

def entriesOf (kubo : KuboClient Cid) (files : List DirectoryFile) : List (List Text × Cid) :=
  files.filterMap fun file => (kubo.parseCid file.cid).map fun cid => (segments file.path, cid)

variable {kubo : KuboClient Cid} {files : List DirectoryFile} {manifest : Manifest Cid}

section

variable (h : Scanned kubo files manifest)

include h

theorem Scanned.map_fst_entries :
    manifest.entries.map Prod.fst = pathsOf files :=
  map_eq_of_forall₂ h.entries fun _ _ hentry => hentry.1

theorem Scanned.goodFiles (hvalid : ∀ file ∈ files, ValidPath file.path)
    (hfree : PrefixFree (pathsOf files)) (hlength : files.length ≤ maxFiles) :
    Files manifest.entries := by
  have hfile : ∀ entry ∈ manifest.entries, ∃ file ∈ files, entry.1 = segments file.path := by
    intro entry hentry
    obtain ⟨file, hfile, heq, -⟩ := exists_of_forall₂ h.entries hentry
    exact ⟨file, hfile, heq⟩
  refine ⟨by rwa [h.map_fst_entries], fun entry hentry => ?_, fun entry hentry => ?_, ?_⟩
  · obtain ⟨file, -, heq⟩ := hfile entry hentry
    exact heq ▸ segments_ne_nil file.path
  · obtain ⟨file, hmem, heq⟩ := hfile entry hentry
    exact heq ▸ (hvalid file hmem).ne_nil
  · exact h.entries.length_eq ▸ hlength

theorem Scanned.isDirectory_iff {path : List Text} :
    IsDirectory manifest.entries path ↔ path = [] ∨ path ∈ properDirectories files := by
  have hentries : (∃ entry ∈ manifest.entries, path <+: entry.1 ∧ path ≠ entry.1) ↔
      ∃ file ∈ files, path <+: segments file.path ∧ path ≠ segments file.path := by
    have hmap := h.map_fst_entries
    rw [pathsOf] at hmap
    have hleft : (∃ entry ∈ manifest.entries, path <+: entry.1 ∧ path ≠ entry.1) ↔
        ∃ q ∈ manifest.entries.map Prod.fst, path <+: q ∧ path ≠ q := by simp
    rw [hleft, hmap]
    simp
  rw [IsDirectory, hentries, mem_properDirectories]
  by_cases hnil : path = []
  · exact iff_of_true (Or.inl hnil) (Or.inl hnil)
  · rw [and_iff_right hnil]

theorem Scanned.mem_keys (path : List Text) :
    path ∈ manifest.directories.map Prod.fst ↔ IsDirectory manifest.entries path := by
  rw [h.isDirectory_iff]
  exact h.noted.mem_keys path

theorem Scanned.linked {P : List Text → Link Cid → Prop} : Linked P manifest.directories [] := by
  have hempty : ∀ directory ∈ manifest.directories, directory.2 = [] := h.noted.empty
  refine ⟨h.noted.nodup, fun directory hmem => ?_, fun directory hmem name cid => ?_,
    fun directory hmem link hlink => ?_⟩
  · rw [hempty directory hmem]
    exact nodup_nil
  · rw [hempty directory hmem]
    simp
  · rw [hempty directory hmem] at hlink
    cases hlink

theorem Scanned.entries_eq : manifest.entries = entriesOf kubo files := by
  obtain ⟨-, hentries, -⟩ := h
  rw [entriesOf]
  generalize manifest.entries = entries at hentries
  induction hentries with
  | nil => rfl
  | cons hentry _ ih =>
    rw [filterMap_cons_some (by rw [hentry.2]; rfl), ← ih, ← hentry.1]

end

variable [DecidableEq Cid]

/-- **From the manifest to the root.** -/
theorem buildManifest_spec (h : Scanned kubo files manifest)
    (hvalid : ∀ file ∈ files, ValidPath file.path) (hfree : PrefixFree (pathsOf files))
    (hlength : files.length ≤ maxFiles) :
    Steady (Disturbed kubo manifest.entries) (buildManifest kubo manifest) ∧ ∀ root, buildManifest kubo manifest = .ok root →
      ∃ written pending, Writing kubo manifest.entries [] written pending ∧
        ([], root.cid) ∈ written := by
  have hfiles := h.goodFiles hvalid hfree hlength
  obtain ⟨hsteady, hfiled⟩ := foldlM_addFile_spec kubo hfiles h.mem_keys h.linked
  have hwrite := fun acc hacc => by
    obtain ⟨hkeys, hlinked⟩ := hfiled acc hacc
    exact foldlM_writeDirectory_spec kubo hfiles
      (fun path => by rw [hkeys]; exact h.mem_keys path) hlinked
  have hroot : ∀ written pending, Writing kubo manifest.entries [] written pending →
      ∃ root, pending.root = some root ∧ ([], root.cid) ∈ written := by
    intro written pending hwriting
    obtain ⟨cid, hcid⟩ := (hwriting.written_iff []).mpr ⟨Or.inl rfl, not_mem_nil⟩
    obtain ⟨root, hsome, rfl⟩ := map_eq_some_iff.mp ((hwriting.root cid).mp hcid)
    exact ⟨root, hsome, hcid⟩
  constructor
  · refine hsteady.bind fun acc hacc => (hwrite acc hacc).1.bind fun pending hpending => ?_
    obtain ⟨written, hwriting⟩ := (hwrite acc hacc).2 pending hpending
    obtain ⟨root, hsome, -⟩ := hroot written pending hwriting
    rw [hsome]
    exact steady_ok root
  · intro root hok
    obtain ⟨acc, hacc, hok⟩ := of_bind hok
    obtain ⟨pending, hpending, hok⟩ := of_bind hok
    obtain ⟨written, hwriting⟩ := (hwrite acc hacc).2 pending hpending
    obtain ⟨root', hsome, hmem⟩ := hroot written pending hwriting
    rw [hsome] at hok
    cases hok
    exact ⟨written, pending, hwriting, hmem⟩

theorem Scanned.buildOrder (h : Scanned kubo files manifest)
    (hvalid : ∀ file ∈ files, ValidPath file.path) (hfree : PrefixFree (pathsOf files))
    (hlength : files.length ≤ maxFiles)
    {acc : List (Cid × ℕ) × List (List Text × List (Link Cid))}
    (hacc : manifest.entries.foldlM (addFile kubo) ([], manifest.directories) = .ok acc) :
    (∀ path, path ∈ Kubo.buildOrder acc.2 ↔ path = [] ∨ path ∈ properDirectories files) ∧
      (Kubo.buildOrder acc.2).Pairwise fun p q => ¬p <+: q := by
  have hfiles := h.goodFiles hvalid hfree hlength
  obtain ⟨hkeys, hlinked⟩ := (foldlM_addFile_spec kubo hfiles h.mem_keys h.linked).2 acc hacc
  have hperm := buildOrder_perm acc.2
  refine ⟨fun path => ?_, ?_⟩
  · rw [hperm.mem_iff, hkeys, h.mem_keys, h.isDirectory_iff]
  · have hsorted := pairwise_buildOrder hlinked.nodup
    have hnodup : (Kubo.buildOrder acc.2).Nodup := hperm.nodup_iff.mpr hlinked.nodup
    refine hsorted.imp₂ (fun p q hle hne hpre => hne ?_) hnodup
    exact hpre.eq_of_length (le_antisymm hpre.length_le hle)

theorem build_eq_bind (kubo : KuboClient Cid) {files : List DirectoryFile} (hne : files ≠ [])
    (hlimits : WithinLimits files) : build kubo files = readManifest kubo files >>= fun manifest =>
      buildManifest kubo manifest >>= fun root => .ok (some root) := by
  rw [build, ensure_of hlimits.length_le, ok_bind, if_neg hne]

/-- **How a build of valid paths free of prefixes ends**: with its root, or for a reason outside. -/
theorem Scanned.steady_build (h : Scanned kubo files manifest)
    (hvalid : ∀ file ∈ files, ValidPath file.path) (hfree : PrefixFree (pathsOf files))
    (hlength : files.length ≤ maxFiles) :
    Steady (Disturbed kubo (entriesOf kubo files))
      (buildManifest kubo manifest >>= fun root => .ok (some root)) := by
  rw [← h.entries_eq]
  exact (buildManifest_spec h hvalid hfree hlength).1.bind fun _ _ => steady_ok _

theorem build_eq_pathConflict_iff (hne : files ≠ [])
    (hcids : ∀ file ∈ files, (kubo.parseCid file.cid).isSome = true) (hlimits : WithinLimits files)
    (hvalid : ∀ file ∈ files, ValidPath file.path) :
    build kubo files = .error (.failed .pathConflict) ↔ ¬PrefixFree (pathsOf files) := by
  have hread := readManifest_spec hlimits hcids
  rw [build_eq_bind kubo hne hlimits]
  generalize readManifest kubo files = result at hread
  cases hread with
  | scanned manifest hvalid hfree hscanned =>
    have hsteady := hscanned.steady_build hvalid hfree hlimits.length_le
    exact iff_of_false (fun h => (hsteady _ h).ne.1 rfl) (not_not.mpr hfree)
  | invalid hinvalid =>
    obtain ⟨file, hfile, hinvalid⟩ := hinvalid
    exact absurd (hvalid file hfile) hinvalid
  | conflict hconflict => exact iff_of_true rfl hconflict

/-- CIDs that hold what they are the hash of. -/
inductive SampleCid where
  | raw (name : Text)
  | block (data : List UInt8)
  | link (name : Text) (target : SampleCid) (size : ℕ) (rest : SampleCid)
  deriving DecidableEq

/-- A node that keeps every block, with its links sorted. -/
def sampleKubo : KuboClient SampleCid where
  parseCid text := some (.raw text)
  cidLength _ := 36
  payloadLength _ _ := 1000
  fileSize _ := .ok 10
  localNodeIdentity := .ok [110]
  dagPut links data := .ok ((sortBy Link.name links).foldr
    (fun link rest => .link link.name link.cid link.size rest) (.block data))

end Build

end IpfS3.Kubo
