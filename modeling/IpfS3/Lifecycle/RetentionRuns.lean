import IpfS3.Lifecycle.SoleRule

/-!
# Retention over whole runs

Scans and executions in any order, on a key under one retention rule and with a clock that does not
go back.  The rows of the key are those of the start without versions that were due and had enough
newer noncurrent versions when they were removed (`RetentionInvariant`), and an action that names a
version still there is as it was inserted.  So no run removes the latest version or one of the newest
noncurrent ones, and once nothing more happens at the present clock, the survivors are the newest and
those that are not due, whatever the order (`noncurrent_retention`).
-/

namespace IpfS3.Lifecycle

open Fallible Store Table VersionStore LifecycleStore Retention Transactions List Option

/-! ## Databases that lost versions -/

/-- The later database has lost versions, and its other tables that evaluations read are the same. -/
structure Survives (db db' : LifecycleStore) : Prop where
  tags_eq : db'.tags = db.tags
  residencies_eq : db'.residencies = db.residencies
  configurations_eq : db'.configurations = db.configurations
  states_eq : db'.store.states = db.store.states
  objects_eq : db'.store.objects = db.store.objects
  versions : db'.store.versions.Sublist db.store.versions

namespace Survives

variable {db db' db'' : LifecycleStore} {row : VersionRow} {bucket key : Text}

theorem refl (db : LifecycleStore) : Survives db db :=
  ⟨rfl, rfl, rfl, rfl, rfl, List.Sublist.refl _⟩

section

variable (h : Survives db db')

include h

theorem trans (h' : Survives db' db'') : Survives db db'' :=
  ⟨h'.tags_eq.trans h.tags_eq, h'.residencies_eq.trans h.residencies_eq,
    h'.configurations_eq.trans h.configurations_eq, h'.states_eq.trans h.states_eq,
    h'.objects_eq.trans h.objects_eq, h'.versions.trans h.versions⟩

theorem joinedObject_eq (row : VersionRow) :
    db'.joinedObject row = db.joinedObject row := by
  unfold joinedObject
  rw [h.objects_eq]

theorem versionSize_eq (row : VersionRow) :
    db'.versionSize row = db.versionSize row := by
  unfold versionSize
  rw [h.joinedObject_eq]

theorem versionTags_eq (row : VersionRow) :
    db'.versionTags row = db.versionTags row := by
  unfold versionTags
  congr 1
  funext objectId
  unfold listObjectTags
  rw [h.tags_eq]

theorem readable (hrow : Readable db row) : Readable db' row where
  kind := hrow.kind
  versionId := hrow.versionId
  object objectId hobjectId := by
    rw [h.joinedObject_eq]
    exact hrow.object objectId hobjectId
  bucket := by
    rw [h.states_eq]
    exact hrow.bucket
  residency := by
    rw [h.residencies_eq]
    exact hrow.residency

theorem mem_keyRows (hrow : row ∈ db'.store.keyRows bucket key) :
    row ∈ db.store.keyRows bucket key := (h.versions.filter _).subset hrow

theorem retainedKey {terms : RetentionTerms} (hkey : RetainedKey db bucket key terms) :
    RetainedKey db' bucket key terms where
  constraints :=
    { ids_nodup := (h.versions.map _).nodup hkey.constraints.ids_nodup
      versionIds_distinct := hkey.constraints.versionIds_distinct.sublist h.versions
      versionIds_uuid := fun row hrow => hkey.constraints.versionIds_uuid row (h.versions.subset hrow) }
  readable row hrow := h.readable (hkey.readable row (h.mem_keyRows hrow))
  columns row hrow := hkey.columns row (h.mem_keyRows hrow)
  configured := h.configurations_eq ▸ hkey.configured
  revision_pos := hkey.revision_pos
  rule_eq := hkey.rule_eq
  identity_eq := hkey.identity_eq
  enabled := hkey.enabled
  expiration_eq := hkey.expiration_eq
  no_transition := hkey.no_transition
  matching row hrow := by
    rw [h.versionSize_eq, h.versionTags_eq]
    exact hkey.matching row (h.mem_keyRows hrow)
  sole ordinal rule hrule hne henabled row hrow := by
    rw [h.versionSize_eq, h.versionTags_eq]
    exact hkey.sole ordinal rule hrule hne henabled row (h.mem_keyRows hrow)

end

end Survives

/-! ## Scheduling a version that is due -/

variable {id : Text}

section Scheduling

variable {db : LifecycleStore} {bucket key : Text} {terms : RetentionTerms} {row : VersionRow}
  {versionId : PublicVersionId} {kind : VersionKind} {due now : ℤ}

theorem RetainedKey.expiresRow (h : RetainedKey db bucket key terms)
    (hrow : row ∈ db.noncurrentRows bucket key) (hversionId : publicVersionId row = .ok versionId)
    (hkind : versionKind row = .ok kind) (hdue : dueInstant terms.days row = some due)
    (hreached : due ≤ now) (hnewer : terms.newerNoncurrentVersions.toNat <
      newerCount VersionRow.sequence (db.noncurrentRows bucket key) row) :
    ExpiresRow db row (expireAction row versionId kind terms.configRevision terms.identity.1 due)
      now := by
  have hkeyRow := mem_keyRows_of_mem_noncurrentRows hrow
  obtain ⟨hmem, hbucket, -, hlatest⟩ := mem_noncurrentRows.mp hrow
  obtain ⟨hbucketNil, hkeyNil, hid, hsequence, hobjectId⟩ := h.columns row hkeyRow
  refine ⟨hmem, hlatest, h.readable row hkeyRow, rfl, rfl, ⟨versionId, kind, hversionId, hkind, rfl⟩,
    ⟨hbucketNil, hkeyNil, hid, hsequence, hobjectId, h.revision_pos⟩, terms.configuration, ?_, ?_⟩
  · rw [hbucket]
    exact h.configured
  · intro candidate hdescribes
    exact (h.evaluateCandidate_eq_some_iff hrow hdescribes).mpr
      ⟨versionId, kind, due, hversionId, hkind, hdue, hreached, hnewer, rfl⟩

variable {action : NewLifecycleAction}

theorem ExpiresRow.validateActionIdentity_eq (h : ExpiresRow db row action now)
    (hconstraints : VersionConstraints db.store) : validateActionIdentity action = .ok () := by
  obtain ⟨versionId, kind, hversionId, hkind, htarget⟩ := h.target_eq
  obtain ⟨hbucket, hkey, hid, hsequence, hobjectId, hrevision⟩ := h.valid
  have hnil := (parseS3_asS3Str hconstraints h.mem hversionId).2
  have hvalid : validateTarget (targetOf row versionId kind) = .ok () := by
    refine ensure_of ?_
    cases kind with
    | object =>
      obtain ⟨objectId, hsome⟩ := objectId_of_object hkind
      refine Or.inl ⟨rfl, ?_, hobjectId⟩
      show row.objectId ≠ none
      rw [hsome]
      exact some_ne_none objectId
    | deleteMarker => exact Or.inr ⟨rfl, objectId_of_marker hkind⟩
  unfold validateActionIdentity
  rw [ensure_of ⟨h.bucket_eq ▸ hbucket, hrevision⟩, ok_bind, htarget]
  dsimp only
  rw [ensure_of (by rw [h.kind_eq]; decide), ok_bind,
    ensure_of ⟨h.bucket_eq.symm, hkey, hid, hsequence⟩, ok_bind, hvalid, ok_bind,
    ensure_of (by rw [h.kind_eq]; simp), ok_bind]
  exact ensure_of hnil

/-- **A scan of a version that is due** inserts its action, unless one with the same idempotency key
is there. -/
theorem ExpiresRow.scan_schedules (h : ExpiresRow db row action now)
    (hconstraints : VersionConstraints db.store) (hfree : db.actions.get id = none) :
    ∃ db', db.scheduleClaimedScanPage row.bucket [(row.id, id)] now = .ok db' ∧
      db' = { db with actions := db'.actions } ∧
      (db'.actions.get id = some (newActionRow action id now) ∨
        db' = db ∧ ∃ other ∈ db.actions.rows,
          other.idempotencyKey = (newActionRow action id now).idempotencyKey) := by
  obtain ⟨configuration, hlookup, hselected⟩ := h.selected
  obtain ⟨candidate, hcandidate⟩ := exists_candidateFromRow h.readable
  have hpage : db.pageRows row.bucket [(row.id, id)] = [(row, id)] := by
    have hfind : ((db.store.versions.filter fun r => r.bucket == row.bucket).find?
        fun r => r.id == row.id) = some row :=
      find?_of_nodup ((filter_sublist.map _).nodup hconstraints.ids_nodup)
        (mem_filter.mpr ⟨h.mem, BEq.rfl⟩)
    unfold pageRows
    rw [filterMap_cons]
    dsimp only
    rw [hfind]
    rfl
  have hevaluated := hselected candidate (describesRow_of_candidateFromRow hcandidate)
  have hverified : isUnverifiedTransition candidate action = false := by
    unfold isUnverifiedTransition
    rw [h.kind_eq]
    rfl
  have hget : db.actions.get (newActionRow action id now).id = none := hfree
  unfold scheduleClaimedScanPage
  rw [hlookup]
  dsimp only
  rw [hpage, mapM_cons, mapM_nil]
  rw [hcandidate]
  show ∃ db', db.scheduleCandidate action.configRevision configuration now candidate id >>= _ =
    .ok db' ∧ _
  unfold scheduleCandidate
  rw [hevaluated, ok_bind]
  dsimp only
  rw [if_neg (by rw [hverified]; decide), insertIdempotent, h.validateActionIdentity_eq hconstraints,
    ok_bind]
  by_cases hexists : db.actions.rows.any (fun other =>
      other.idempotencyKey == (newActionRow action id now).idempotencyKey) = true
  · rw [if_pos hexists]
    obtain ⟨other, hother, hsame⟩ := any_eq_true.mp hexists
    exact ⟨db, rfl, rfl, Or.inr ⟨rfl, other, hother, beq_iff_eq.mp hsame⟩⟩
  · rw [if_neg hexists, dif_pos hget]
    refine ⟨_, rfl, rfl, Or.inl ?_⟩
    exact (Keyed.get_insert hget id).trans (if_pos rfl)

end Scheduling

/-! ## The invariant -/

def LifecycleActionRow.Names (action : LifecycleActionRow) (row : VersionRow) : Prop :=
  ∃ versionId objectId sequence, action.target = .version row.id versionId objectId sequence

/-- The action is as a scan has inserted it, and its version can still be removed. -/
def FreshAction (db : LifecycleStore) (bucket key : Text) (terms : RetentionTerms) (now : ℤ) (id : Text)
    (action : LifecycleActionRow) (row : VersionRow) : Prop :=
  ∃ versionId kind due insertedAt, publicVersionId row = .ok versionId ∧
    versionKind row = .ok kind ∧ dueInstant terms.days row = some due ∧ due ≤ insertedAt ∧
    insertedAt ≤ now ∧ terms.newerNoncurrentVersions.toNat <
      newerCount VersionRow.sequence (db.noncurrentRows bucket key) row ∧
    action = newActionRow
      (expireAction row versionId kind terms.configRevision terms.identity.1 due) id insertedAt

/-- The versions of the key that an action of the current configuration names. -/
def NamedFresh (db : LifecycleStore) (bucket key : Text) (terms : RetentionTerms) (now : ℤ)
    (id : Text) (action : LifecycleActionRow) : Prop :=
  action.bucket = bucket → action.configRevision = terms.configRevision →
    ∀ row ∈ db.noncurrentRows bucket key, action.Names row →
      FreshAction db bucket key terms now id action row

/-- **What scans and executions keep.** -/
structure RetentionInvariant (start db : LifecycleStore) (bucket key : Text) (terms : RetentionTerms)
    (now : ℤ) : Prop where
  survives : Survives start db
  latest : (db.store.keyRows bucket key).filter (fun row => row.isLatest) =
    (start.store.keyRows bucket key).filter fun row => row.isLatest
  trimmed : Trimmed VersionRow.sequence terms.newerNoncurrentVersions.toNat
    (fun row => dueBy terms.days now row = true) (start.noncurrentRows bucket key)
    (db.noncurrentRows bucket key)
  fresh : ∀ id action, db.actions.get id = some action → NamedFresh db bucket key terms now id action

section Invariant

variable {start db db' : LifecycleStore} {bucket key : Text} {terms : RetentionTerms} {now now' : ℤ}

theorem FreshAction.mono {action : LifecycleActionRow} {row : VersionRow}
    (h : FreshAction db bucket key terms now id action row) (hle : now ≤ now') :
    FreshAction db bucket key terms now' id action row := by
  obtain ⟨versionId, kind, due, insertedAt, hversionId, hkind, hdue, hinserted, hbefore, hrest⟩ := h
  exact ⟨versionId, kind, due, insertedAt, hversionId, hkind, hdue, hinserted, hbefore.trans hle,
    hrest⟩

theorem RetentionInvariant.mono (h : RetentionInvariant start db bucket key terms now)
    (hle : now ≤ now') : RetentionInvariant start db bucket key terms now' where
  survives := h.survives
  latest := h.latest
  trimmed := h.trimmed.mono fun _ hdue => dueBy_mono hle hdue
  fresh id action hget hbucket hrevision row hrow hnames :=
    (h.fresh id action hget hbucket hrevision row hrow hnames).mono hle

theorem noncurrentRows_withoutRow (hstore : db'.store = withoutRow db.store id) :
    db'.noncurrentRows bucket key =
      deleteWhere (fun row => row.id == id) (db.noncurrentRows bucket key) := by
  unfold noncurrentRows keyRows
  rw [hstore]
  show ((deleteWhere _ db.store.versions).filter _).filter _ = _
  rw [filter_deleteWhere, filter_deleteWhere]

theorem filter_isLatest_withoutRow {row : VersionRow} (hconstraints : VersionConstraints db.store)
    (hrow : row ∈ db.store.versions) (hlatest : row.isLatest = false)
    (hstore : db'.store = withoutRow db.store row.id) :
    (db'.store.keyRows bucket key).filter (fun r => r.isLatest) =
      (db.store.keyRows bucket key).filter fun r => r.isLatest := by
  rw [hstore]
  show ((deleteWhere _ db.store.versions).filter _).filter _ = _
  rw [filter_deleteWhere, filter_deleteWhere]
  refine deleteWhere_of_forall_not fun r hr => ?_
  obtain ⟨hr, hrlatest⟩ := mem_filter.mp hr
  rw [beq_eq_false_iff_ne]
  intro hid
  obtain rfl := hconstraints.eq_of_id_eq (mem_of_mem_filter hr) hrow hid
  exact absurd (hlatest.symm.trans hrlatest) Bool.false_ne_true

theorem Executes.survives (hexecutes : Executes db db' id now) : Survives db db' := by
  rcases hexecutes.store with hstore | ⟨row, -, -, hstore, -⟩
  · refine ⟨hexecutes.tags_eq, hexecutes.residencies_eq, hexecutes.configurations_eq, ?_, ?_, ?_⟩
    · rw [hstore]
    · rw [hstore]
    · rw [hstore]
  · refine ⟨hexecutes.tags_eq, hexecutes.residencies_eq, hexecutes.configurations_eq, ?_, ?_, ?_⟩
    · rw [hstore]
      rfl
    · rw [hstore]
      rfl
    · rw [hstore]
      exact deleteWhere_sublist

section

variable (h : RetainedKey db bucket key terms)

include h

theorem RetainedKey.removed_of_expires (hexpires : Expires db db' now) :
    ∃ row ∈ db.store.versions, row.isLatest = false ∧ db'.store = withoutRow db.store row.id ∧
      (row ∈ db.noncurrentRows bucket key → dueBy terms.days now row = true ∧
        terms.newerNoncurrentVersions.toNat <
          newerCount VersionRow.sequence (db.noncurrentRows bucket key) row) := by
  obtain ⟨row, hrow, hlatest, hstore, candidate, configRevision, configuration, expected, hdescribes,
    hlookup, hexpected⟩ := hexpires
  refine ⟨row, hrow, hlatest, hstore, fun hkeyRow => ?_⟩
  rw [(mem_noncurrentRows.mp hkeyRow).2.1, h.configured] at hlookup
  obtain ⟨rfl, hconfiguration⟩ := Prod.mk.inj (some.inj hlookup)
  cases hconfiguration
  obtain ⟨-, -, due, -, -, hdue, hreached, hnewer, -⟩ :=
    (h.evaluateCandidate_eq_some_iff hkeyRow hdescribes).mp hexpected
  exact ⟨dueBy_iff.mpr ⟨due, hdue, hreached⟩, hnewer⟩

theorem RetainedKey.noncurrentRows_of_executes (hexecutes : Executes db db' id now) :
    db'.noncurrentRows bucket key = db.noncurrentRows bucket key ∨
      ∃ row ∈ db.noncurrentRows bucket key,
        (db.noncurrentRows bucket key).filter (fun r => r.id == row.id) = [row] ∧
        dueBy terms.days now row = true ∧ terms.newerNoncurrentVersions.toNat <
          newerCount VersionRow.sequence (db.noncurrentRows bucket key) row ∧
        db'.noncurrentRows bucket key =
          deleteWhere (fun r => r.id == row.id) (db.noncurrentRows bucket key) := by
  rcases hexecutes.store with hstore | hexpires
  · refine Or.inl ?_
    unfold noncurrentRows
    rw [hstore]
  · obtain ⟨row, hrow, -, hstore, hremoved⟩ := h.removed_of_expires hexpires
    have hrows : db'.noncurrentRows bucket key = _ := noncurrentRows_withoutRow hstore
    by_cases hmem : row ∈ db.noncurrentRows bucket key
    · obtain ⟨hdue, hnewer⟩ := hremoved hmem
      refine Or.inr ⟨row, hmem, ?_, hdue, hnewer, hrows⟩
      have hids : ((db.noncurrentRows bucket key).map (·.id)).Nodup :=
        ((filter_sublist.trans filter_sublist).map _).nodup h.constraints.ids_nodup
      have hcount := countP_eq_one_of_nodup hids (p := fun r => r.id == row.id) hmem BEq.rfl
        fun r _ hr => beq_iff_eq.mp hr
      obtain ⟨a, ha⟩ := exists_filter_eq_singleton hcount
      rw [ha, eq_of_filter_eq_singleton ha hmem BEq.rfl]
    · refine Or.inl (hrows.trans (deleteWhere_of_forall_not fun r hr => ?_))
      rw [beq_eq_false_iff_ne]
      intro hid
      obtain rfl := h.constraints.eq_of_id_eq (mem_noncurrentRows.mp hr).1 hrow hid
      exact hmem hr

theorem RetainedKey.lt_newerCount_of_executes
    (hexecutes : Executes db db' id now) {row : VersionRow} :
    terms.newerNoncurrentVersions.toNat <
        newerCount VersionRow.sequence (db'.noncurrentRows bucket key) row ↔
      terms.newerNoncurrentVersions.toNat <
        newerCount VersionRow.sequence (db.noncurrentRows bucket key) row := by
  rcases h.noncurrentRows_of_executes hexecutes with hrows | ⟨removed, -, hsole, -, hnewer, hrows⟩
  · rw [hrows]
  · rw [hrows]
    exact lt_newerCount_deleteWhere_iff hsole hnewer

end

section

variable (h : RetentionInvariant start db bucket key terms now)
  (hkey : RetainedKey start bucket key terms)

include h hkey

theorem RetentionInvariant.of_executes (hle : now ≤ now') (hexecutes : Executes db db' id now')
    (hown : ∀ action, db.actions.get id = some action → action.bucket = bucket →
      action.configRevision = terms.configRevision → ∀ row ∈ db'.noncurrentRows bucket key,
        action.Names row → db'.actions.get id = some action) :
    RetentionInvariant start db' bucket key terms now' := by
  have hdb := h.survives.retainedKey hkey
  have hrows := hdb.noncurrentRows_of_executes hexecutes
  have hsubset : ∀ row ∈ db'.noncurrentRows bucket key, row ∈ db.noncurrentRows bucket key := by
    rcases hrows with hrows | ⟨removed, -, -, -, -, hrows⟩
    · exact fun row hrow => hrows ▸ hrow
    · exact fun row hrow => deleteWhere_sublist.subset (hrows ▸ hrow)
  refine ⟨h.survives.trans hexecutes.survives, ?_, ?_, ?_⟩
  · rw [← h.latest]
    rcases hexecutes.store with hstore | ⟨row, hrow, hlatest, hstore, -⟩
    · rw [hstore]
    · exact filter_isLatest_withoutRow hdb.constraints hrow hlatest hstore
  · have htrimmed := (h.mono hle).trimmed
    rcases hrows with hrows | ⟨removed, hmem, hsole, hdue, hnewer, hrows⟩
    · rw [hrows]
      exact htrimmed
    · rw [hrows]
      exact .remove _ _ removed htrimmed hsole hnewer hdue
  · intro id' action' hget' hbucket hrevision row hrow hnames
    -- the action was there before, unchanged, and named the version
    have hbefore : db.actions.get id' = some action' := by
      by_cases hid : id' = id
      · subst hid
        have hdefinition := hexecutes.actions.definition
        rw [show db'.tables.actions.get id' = some action' from hget', map_some] at hdefinition
        obtain ⟨action, hget, hsame⟩ := map_eq_some_iff.mp hdefinition.symm
        obtain ⟨-, hsame⟩ := Prod.mk.inj hsame
        have hidentity := (Prod.mk.inj hsame).1
        have hown' := hown action hget ((congrArg ActionIdentity.bucket hidentity).trans hbucket)
          ((congrArg ActionIdentity.configRevision hidentity).trans hrevision) row hrow (by
            obtain ⟨versionId, objectId, sequence, htarget⟩ := hnames
            exact ⟨versionId, objectId, sequence,
              (congrArg ActionIdentity.target hidentity).trans htarget⟩)
        rw [some.inj (hget'.symm.trans hown')]
        exact hget
      · exact (hexecutes.actions.frame id' hid).symm.trans hget'
    obtain ⟨versionId, kind, due, insertedAt, hversionId, hkind, hdue, hinserted, hat, hnewer, heq⟩ :=
      h.fresh id' action' hbefore hbucket hrevision row (hsubset row hrow) hnames
    exact ⟨versionId, kind, due, insertedAt, hversionId, hkind, hdue, hinserted, hat.trans hle,
      (hdb.lt_newerCount_of_executes hexecutes).mpr hnewer, heq⟩

/-- **An execution keeps the invariant.** -/
theorem RetentionInvariant.of_executeAction (hle : now ≤ now') {workerId : Text} {leaseUntil : ℤ}
    {settings : ExecutionSettings} {ids : InstallIds}
    (hexecute : db.executeAction id workerId leaseUntil settings ids now' = .ok db') :
    RetentionInvariant start db' bucket key terms now' := by
  have hdb := h.survives.retainedKey hkey
  have hexecutes := executeAction_spec hdb.constraints hexecute
  refine h.of_executes hkey hle hexecutes fun action hget hbucket hrevision row hrow hnames => ?_
  have hbefore : row ∈ db.noncurrentRows bucket key := by
    rw [mem_noncurrentRows] at hrow ⊢
    exact ⟨hexecutes.survives.versions.subset hrow.1, hrow.2⟩
  obtain ⟨versionId, kind, due, insertedAt, hversionId, hkind, hdue, hinserted, hat, hnewer, rfl⟩ :=
    h.fresh id action hget hbucket hrevision row hbefore hnames
  have hexpires := hdb.expiresRow hbefore hversionId hkind hdue
    (hinserted.trans (hat.trans hle)) hnewer
  by_cases hlease : leaseUntil ≤ now'
  · -- a lease that has ended claims nothing
    unfold executeAction at hexecute
    rw [hget] at hexecute
    dsimp only at hexecute
    rw [if_pos (Or.inr hlease)] at hexecute
    exact Except.ok.inj hexecute ▸ hget
  · have hsettings : validateExecutionSettings settings = .ok () := by
      unfold executeAction at hexecute
      rw [hget] at hexecute
      dsimp only at hexecute
      rw [if_neg (by
        rw [not_or, not_not]
        exact ⟨rfl, hlease⟩)] at hexecute
      obtain ⟨⟨⟩, hsettings, -⟩ := of_bind hexecute
      exact hsettings
    obtain ⟨db₁, hdb₁, hstore⟩ := hexpires.executeAction_deletes hdb.constraints hsettings
      (not_le.mp hlease) (hat.trans hle) (hinserted.trans (hat.trans hle)) hget
    cases hdb₁.symm.trans hexecute
    rw [noncurrentRows_withoutRow hstore, mem_deleteWhere] at hrow
    exact absurd hrow.2 (by simp)

/-- **A scan keeps the invariant.** -/
theorem RetentionInvariant.of_scan (hle : now ≤ now') {scanned : Text} {page : List (Text × Text)}
    (hscan : db.scheduleClaimedScanPage scanned page now' = .ok db') :
    RetentionInvariant start db' bucket key terms now' := by
  have hdb := h.survives.retainedKey hkey
  have hschedules := scheduleClaimedScanPage_spec hscan
  have hframe := hschedules.frame
  have hstore : db'.store = db.store := by rw [hframe]
  have hrows : db'.noncurrentRows bucket key = db.noncurrentRows bucket key := by
    unfold noncurrentRows
    rw [hstore]
  have hafter := h.mono hle
  refine ⟨h.survives.trans (hframe ▸ ⟨rfl, rfl, rfl, rfl, rfl, List.Sublist.refl _⟩),
    by rw [hstore]; exact h.latest, by rw [hrows]; exact hafter.trimmed, ?_⟩
  intro id action hget hbucket hrevision row hrow hnames
  rw [hrows] at hrow
  unfold FreshAction
  rw [hrows]
  rcases hschedules.added hget with hold | ⟨selected, hselects, rfl⟩
  · exact hafter.fresh id action hold hbucket hrevision row hrow hnames
  · obtain ⟨scannedRow, hscannedRow, hscanned, candidate, configRevision, configuration, hdescribes,
      hlookup, hevaluated⟩ := hselects
    obtain ⟨htarget, -⟩ := target_of_evaluateCandidate rfl hevaluated
    -- the named version is the one that was evaluated
    have hsame : scannedRow = row := by
      obtain ⟨versionId, objectId, sequence, hnamed⟩ := hnames
      have hpersisted : persistedTarget selected.target =
          .version row.id versionId objectId sequence := hnamed
      rw [htarget] at hpersisted
      obtain ⟨hid, -⟩ := PersistedTarget.version.inj hpersisted
      exact hdb.constraints.eq_of_id_eq hscannedRow (mem_noncurrentRows.mp hrow).1
        (hdescribes.rowId.symm.trans hid)
    subst hsame
    rw [← hscanned, (mem_noncurrentRows.mp hrow).2.1, hdb.configured] at hlookup
    obtain ⟨rfl, hconfiguration⟩ := Prod.mk.inj (some.inj hlookup)
    cases hconfiguration
    obtain ⟨versionId, kind, due, hversionId, hkind, hdue, hreached, hnewer, rfl⟩ :=
      (hdb.evaluateCandidate_eq_some_iff hrow hdescribes).mp hevaluated
    exact ⟨versionId, kind, due, now', hversionId, hkind, hdue, hreached, le_rfl, hnewer, rfl⟩

theorem RetentionInvariant.of_handle {event : LifecycleEvent} (hle : now ≤ event.now)
    (hhandle : handle db event = .ok db') :
    RetentionInvariant start db' bucket key terms event.now := by
  cases event with
  | scan scanned page now' => exact h.of_scan hkey hle hhandle
  | execute id workerId leaseUntil settings ids now' => exact h.of_executeAction hkey hle hhandle

/-- **Every run keeps the invariant**, with the clock of its last step. -/
theorem RetentionInvariant.of_run {events : List LifecycleEvent}
    (hclock : events.Pairwise fun a b => a.now ≤ b.now)
    (hlater : ∀ event ∈ events, now ≤ event.now) (hbefore : ∀ event ∈ events, event.now ≤ now')
    (hle : now ≤ now') :
    RetentionInvariant start (run handle db events) bucket key terms now' := by
  induction events generalizing db now with
  | nil => exact h.mono hle
  | cons event events ih =>
    obtain ⟨hfirst, hclock⟩ := pairwise_cons.mp hclock
    have hnow := hlater event mem_cons_self
    have hstep : RetentionInvariant start (commit handle db event) bucket key terms event.now := by
      unfold commit
      split
      · exact h.of_handle hkey hnow ‹_›
      · exact h.mono hnow
    exact ih hstep hclock hfirst (fun other hother => hbefore other (mem_cons_of_mem _ hother))
      (hbefore event mem_cons_self)

end

end Invariant

/-! ## The survivors -/

/-- Nothing that happens at the present clock removes a version of the key any more. -/
def Settled (db : LifecycleStore) (bucket key : Text) (now : ℤ) : Prop :=
  ∀ events : List LifecycleEvent, (∀ event ∈ events, event.now = now) →
    (run handle db events).noncurrentRows bucket key = db.noncurrentRows bucket key

/-- **The start of a run**: the configuration has just been installed, so none of its actions is
about the key yet. -/
structure RetentionStart (db : LifecycleStore) (bucket key : Text) (terms : RetentionTerms) : Prop
    extends RetainedKey db bucket key terms where
  sequence_distinct : (db.store.keyRows bucket key).Pairwise fun a b => a.sequence ≠ b.sequence
  unscheduled : ∀ action ∈ db.actions.rows, action.bucket = bucket →
    action.configRevision = terms.configRevision → ∀ row ∈ db.store.keyRows bucket key,
      ¬action.Names row

section Survivors

variable {start db : LifecycleStore} {bucket key : Text} {terms : RetentionTerms} {now : ℤ}
  {row : VersionRow}

theorem RetentionStart.invariant (h : RetentionStart start bucket key terms) (now : ℤ) :
    RetentionInvariant start start bucket key terms now where
  survives := Survives.refl start
  latest := rfl
  trimmed := .start
  fresh _ action hget hbucket hrevision row hrow hnames :=
    absurd hnames (h.unscheduled action (Keyed.mem_of_get hget) hbucket hrevision row
      (mem_keyRows_of_mem_noncurrentRows hrow))

theorem RetentionStart.invariant_run (h : RetentionStart start bucket key terms)
    {events : List LifecycleEvent} (hclock : events.Pairwise fun a b => a.now ≤ b.now)
    (hbefore : ∀ event ∈ events, event.now ≤ now) :
    RetentionInvariant start (run handle start events) bucket key terms now := by
  cases events with
  | nil => exact h.invariant now
  | cons event events =>
    refine (h.invariant event.now).of_run h.toRetainedKey hclock (fun other hother => ?_) hbefore
      (hbefore event mem_cons_self)
    rcases mem_cons.mp hother with rfl | hother
    · exact le_rfl
    · exact (pairwise_cons.mp hclock).1 other hother

theorem RetentionInvariant.settled (h : RetentionInvariant start db bucket key terms now)
    (hkey : RetainedKey start bucket key terms)
    (hfew : ∀ row ∈ db.noncurrentRows bucket key, newerCount VersionRow.sequence
      (db.noncurrentRows bucket key) row ≤ terms.newerNoncurrentVersions.toNat) :
    Settled db bucket key now := by
  intro events hnow
  have hrestart : RetentionInvariant db db bucket key terms now :=
    ⟨Survives.refl db, rfl, .start, h.fresh⟩
  have hrun := hrestart.of_run (h.survives.retainedKey hkey)
    (pairwise_of_forall_mem_list fun a ha b hb => ((hnow a ha).trans (hnow b hb).symm).le)
    (fun event hevent => (hnow event hevent).ge) (fun event hevent => (hnow event hevent).le) le_rfl
  obtain ⟨q, hq⟩ := hrun.trimmed.exists_filter
  rw [hq, filter_eq_self]
  intro row hrow
  exact (mem_filter.mp (hq ▸ hrun.trimmed.mem_of_kept hrow (Or.inl (hfew row hrow)))).2

theorem RetentionInvariant.exists_scheduled (h : RetentionInvariant start db bucket key terms now)
    (hkey : RetainedKey start bucket key terms) (hrow : row ∈ db.noncurrentRows bucket key)
    {action : NewLifecycleAction} (hexpires : ExpiresRow db row action now)
    (haction : ∀ versionId kind due, publicVersionId row = .ok versionId →
      versionKind row = .ok kind → dueInstant terms.days row = some due →
      action = expireAction row versionId kind terms.configRevision terms.identity.1 due) :
    ∃ scan db' id insertedAt, LifecycleEvent.now scan = now ∧ handle db scan = .ok db' ∧
      db' = { db with actions := db'.actions } ∧ insertedAt ≤ now ∧
      db'.actions.get id = some (newActionRow action id insertedAt) := by
  have hdb := h.survives.retainedKey hkey
  obtain ⟨id, hfresh⟩ := Infinite.exists_notMem_finset
    (db.actions.rows.map LifecycleActionRow.id).toFinset
  have hfree : db.actions.get id = none := by
    refine Keyed.get_eq_none_iff.mpr fun other hother heq => hfresh ?_
    exact mem_toFinset.mpr (mem_map.mpr ⟨other, hother, heq⟩)
  obtain ⟨db', hscan, hframe, hget⟩ := hexpires.scan_schedules hdb.constraints hfree
  rcases hget with hget | ⟨rfl, other, hother, hsame⟩
  · exact ⟨.scan row.bucket [(row.id, id)] now, db', id, now, rfl, hscan, hframe, le_rfl, hget⟩
  · -- the action is there from an earlier scan, as it was inserted
    obtain ⟨versionId, kind, -, -, htarget⟩ := hexpires.target_eq
    obtain ⟨configuration, hlookup, -⟩ := hexpires.selected
    rw [(mem_noncurrentRows.mp hrow).2.1, hdb.configured] at hlookup
    have hrevision : terms.configRevision = action.configRevision :=
      (Prod.mk.inj (some.inj hlookup)).1
    have hnames : other.Names row := by
      have htargets : other.target = persistedTarget action.target :=
        congrArg ActionIdentity.target hsame
      rw [htarget] at htargets
      exact ⟨_, _, _, htargets⟩
    have hotherBucket : other.bucket = bucket := by
      have hbuckets : other.bucket = action.bucket := congrArg ActionIdentity.bucket hsame
      rw [hbuckets, hexpires.bucket_eq, (mem_noncurrentRows.mp hrow).2.1]
    have hotherRevision : other.configRevision = terms.configRevision :=
      (congrArg ActionIdentity.configRevision hsame).trans hrevision.symm
    obtain ⟨versionId, kind, due, insertedAt, hversionId, hkind, hdue, -, hat, -, heq⟩ :=
      h.fresh other.id other (Keyed.get_of_mem hother) hotherBucket hotherRevision row hrow hnames
    refine ⟨.scan row.bucket [(row.id, id)] now, db', other.id, insertedAt, rfl, hscan, hframe, hat,
      ?_⟩
    rw [haction versionId kind due hversionId hkind hdue, ← heq]
    exact Keyed.get_of_mem hother

/-- The settings of a worker with one attempt. -/
def oneAttempt : ExecutionSettings := ⟨1, 1, 1⟩

/-- **As long as a version can be removed, nothing is settled**: a scan and an execution remove it. -/
theorem RetentionInvariant.not_dueBy_of_settled
    (h : RetentionInvariant start db bucket key terms now)
    (hkey : RetainedKey start bucket key terms) (hsettled : Settled db bucket key now)
    (hrow : row ∈ db.noncurrentRows bucket key) (hnewer : terms.newerNoncurrentVersions.toNat <
      newerCount VersionRow.sequence (db.noncurrentRows bucket key) row) :
    ¬dueBy terms.days now row = true := by
  intro hdue
  obtain ⟨due, hdue, hreached⟩ := dueBy_iff.mp hdue
  have hdb := h.survives.retainedKey hkey
  have hreadable := hdb.readable row (mem_keyRows_of_mem_noncurrentRows hrow)
  obtain ⟨kind, hkind⟩ := hreadable.kind
  obtain ⟨versionId, hversionId⟩ := hreadable.versionId
  have hexpires := hdb.expiresRow hrow hversionId hkind hdue hreached hnewer
  obtain ⟨scan, db₁, id, insertedAt, hnow, hscan, hframe, hat, hget⟩ :=
    h.exists_scheduled hkey hrow hexpires fun versionId' kind' due' hversionId' hkind' hdue' => by
      rw [Except.ok.inj (hversionId.symm.trans hversionId'), Except.ok.inj (hkind.symm.trans hkind'),
        some.inj (hdue.symm.trans hdue')]
  have hstore : db₁.store = db.store := by rw [hframe]
  have hrows : db₁.noncurrentRows bucket key = db.noncurrentRows bucket key := by
    unfold noncurrentRows
    rw [hstore]
  have hdb₁ : RetainedKey db₁ bucket key terms :=
    Survives.retainedKey (hframe ▸ ⟨rfl, rfl, rfl, rfl, rfl, List.Sublist.refl _⟩) hdb
  have hexpires₁ := hdb₁.expiresRow (hrows.symm ▸ hrow) hversionId hkind hdue hreached
    (hrows.symm ▸ hnewer)
  obtain ⟨db₂, hexecute, hgone⟩ : ∃ db₂,
      db₁.executeAction id [] (now + 1) oneAttempt (sampleIds 0 0) now = .ok db₂ ∧
        db₂.store = withoutRow db₁.store row.id :=
    hexpires₁.executeAction_deletes hdb₁.constraints rfl (lt_add_one now) hat hreached hget
  have hrun := hsettled [scan, .execute id [] (now + 1) oneAttempt (sampleIds 0 0) now]
    (forall_mem_cons.mpr ⟨hnow, forall_mem_singleton.mpr rfl⟩)
  have hcommit : run handle db [scan, .execute id [] (now + 1) oneAttempt (sampleIds 0 0) now] =
      db₂ := by
    have hexecuted : handle db₁ (.execute id [] (now + 1) oneAttempt (sampleIds 0 0) now) =
      .ok db₂ := hexecute
    rw [run_cons, commit, hscan, run_cons, commit, hexecuted, run_nil]
  rw [hcommit, noncurrentRows_withoutRow hgone, hrows] at hrun
  rw [← hrun, mem_deleteWhere] at hrow
  exact absurd hrow.2 (by simp)

/-- **Retention of noncurrent versions is safe and confluent.**  Under one retention rule, with scans
and executions in any order, the latest version and the newest noncurrent ones are never removed;
and once nothing more happens at the present clock, the surviving noncurrent versions are the newest
and those that are not due. -/
theorem noncurrent_retention (h : RetentionStart start bucket key terms)
    (events : List LifecycleEvent) (hclock : events.Pairwise fun a b => a.now ≤ b.now) :
    (∀ row ∈ start.store.keyRows bucket key, row.isLatest = true ∨
      row ∈ newest VersionRow.sequence (terms.newerNoncurrentVersions.toNat + 1)
        (start.noncurrentRows bucket key) →
      row ∈ (run handle start events).store.keyRows bucket key) ∧
    ∀ now, (∀ event ∈ events, event.now ≤ now) →
      Settled (run handle start events) bucket key now →
        (run handle start events).noncurrentRows bucket key =
          (start.noncurrentRows bucket key).filter fun row =>
            (newest VersionRow.sequence (terms.newerNoncurrentVersions.toNat + 1)
              (start.noncurrentRows bucket key)).contains row || !dueBy terms.days now row := by
  have hdistinct : (start.noncurrentRows bucket key).Pairwise fun a b => a.sequence ≠ b.sequence :=
    h.sequence_distinct.sublist filter_sublist
  have hnewest : ∀ row, row ∈ newest VersionRow.sequence
      (terms.newerNoncurrentVersions.toNat + 1) (start.noncurrentRows bucket key) ↔
      row ∈ start.noncurrentRows bucket key ∧ newerCount VersionRow.sequence
        (start.noncurrentRows bucket key) row ≤ terms.newerNoncurrentVersions.toNat := fun row => by
    rw [mem_newest_iff VersionRow.sequence hdistinct, Nat.lt_succ_iff]
  refine ⟨fun row hrow hkept => ?_, fun now hbefore hsettled => ?_⟩
  · obtain ⟨now, hbefore⟩ : ∃ now, ∀ event ∈ events, event.now ≤ now := by
      obtain ⟨now, hnow⟩ := (events.map LifecycleEvent.now).toFinset.bddAbove
      exact ⟨now, fun event hevent => hnow (by simpa using ⟨event, hevent, rfl⟩)⟩
    have hrun := h.invariant_run hclock hbefore
    rcases hkept with hlatest | hmem
    · have hkept : row ∈ (start.store.keyRows bucket key).filter fun row => row.isLatest :=
        mem_filter.mpr ⟨hrow, hlatest⟩
      rw [← hrun.latest] at hkept
      exact mem_of_mem_filter hkept
    · obtain ⟨hmem, hfew⟩ := (hnewest row).mp hmem
      exact mem_keyRows_of_mem_noncurrentRows (hrun.trimmed.mem_of_kept hmem (Or.inl hfew))
  · have hrun := h.invariant_run hclock hbefore
    rw [hrun.trimmed.eq_filter fun row hrow hnewer =>
      hrun.not_dueBy_of_settled h.toRetainedKey hsettled hrow hnewer]
    refine filter_congr fun row hrow => ?_
    rw [Bool.eq_iff_iff, Bool.or_eq_true, Bool.or_eq_true, decide_eq_true_iff,
      contains_iff_mem, hnewest row, and_iff_right hrow]
    simp

end Survivors

/-! ## Four delete markers -/

def markerVersion (digit : Fin 10) : VersionRow :=
  ⟨[UInt8.ofNat (digit.val + 1)], [98], [107], some (sampleUuidText digit), some .deleteMarker, none,
    digit.val, digit.val == 3, 0, if digit.val == 3 then none else some 0, 0⟩

/-- Keep the versions with at most one newer noncurrent version, for a day. -/
def markerTerms : RetentionTerms where
  configRevision := 5
  configuration := ⟨1, [⟨some [114], .enabled, .modern .all, none, some ⟨1, some 1⟩, none, none,
    none⟩]⟩
  ordinal := 0
  rule := ⟨some [114], .enabled, .modern .all, none, some ⟨1, some 1⟩, none, none, none⟩
  identity := (.id [114], Text.ascii ['i', 'd', ':'] ++ [114])
  days := 1
  newerNoncurrentVersions := 1

/-- Four versions of the key, without actions. -/
def fourMarkers : LifecycleStore where
  store := ⟨[([98], .enabled)], [], ((finRange 10).take 4).map markerVersion⟩
  tags := []
  residencies := []
  configurations := [([98], 5, some markerTerms.configuration)]
  sagas := []
  actions := ⟨[], nodup_nil⟩

theorem mem_fourMarkers {row : VersionRow} (h : row ∈ fourMarkers.store.keyRows [98] [107]) :
    ∃ digit, row = markerVersion digit := by
  obtain ⟨digit, -, rfl⟩ := mem_map.mp (mem_of_mem_filter h)
  exact ⟨digit, rfl⟩

theorem publicVersionId_markerVersion : ∀ digit : Fin 10,
    publicVersionId (markerVersion digit) = .ok (.opaqueId (sampleUuidText digit)) := by
  decide +kernel

theorem retentionStart_fourMarkers : RetentionStart fourMarkers [98] [107] markerTerms where
  constraints :=
    { ids_nodup := by decide +kernel
      versionIds_distinct := by decide +kernel
      versionIds_uuid := by
        intro row hrow value hvalue
        obtain ⟨digit, -, rfl⟩ := mem_map.mp hrow
        cases hvalue
        exact isCanonicalUuid_sampleUuidText digit }
  readable row hrow := by
    obtain ⟨digit, rfl⟩ := mem_fourMarkers hrow
    exact ⟨⟨.deleteMarker, rfl⟩, ⟨_, publicVersionId_markerVersion digit⟩,
      fun objectId h => (by cases h), ⟨.enabled, rfl⟩, fun resolved h => (by cases h)⟩
  columns row hrow := by
    obtain ⟨digit, rfl⟩ := mem_fourMarkers hrow
    refine ⟨cons_ne_nil _ _, cons_ne_nil _ _, cons_ne_nil _ _, ?_,
      (some_ne_none _).symm⟩
    exact Int.natCast_nonneg digit.val
  configured := rfl
  revision_pos := by decide
  rule_eq := rfl
  identity_eq := rfl
  enabled := rfl
  expiration_eq := rfl
  no_transition := rfl
  matching _ _ := rfl
  sole ordinal rule hrule hne := by
    have hlt := (List.getElem?_eq_some_iff.mp hrule).1
    exact absurd (Nat.lt_one_iff.mp hlt) hne
  sequence_distinct := by decide +kernel
  unscheduled action haction := absurd haction not_mem_nil

/-- A scan of the four versions after two days, and the execution of the action that it inserts. -/
def markerEvents (ids : InstallIds) : List LifecycleEvent :=
  [.scan [98] [([1], [11]), ([2], [12]), ([3], [13]), ([4], [14])] (2 * dayNanos),
    .execute [11] [119] (3 * dayNanos) oneAttempt ids (2 * dayNanos),
    .execute [12] [119] (4 * dayNanos) oneAttempt ids (3 * dayNanos)]

/-- The oldest of the markers is removed, and then the key is settled. -/
theorem noncurrent_retention_fourMarkers :
    validateCanonicalConfiguration markerTerms.configuration = .ok () ∧
    (run handle fourMarkers (markerEvents (sampleIds 0 0))).store.versions.map VersionRow.sequence =
      [1, 2, 3] ∧
    (∀ row ∈ fourMarkers.store.keyRows [98] [107], row.isLatest = true ∨
      row ∈ newest VersionRow.sequence (markerTerms.newerNoncurrentVersions.toNat + 1)
        (fourMarkers.noncurrentRows [98] [107]) →
      row ∈ (run handle fourMarkers (markerEvents (sampleIds 0 0))).store.keyRows [98] [107]) ∧
    (run handle fourMarkers (markerEvents (sampleIds 0 0))).noncurrentRows [98] [107] =
      (fourMarkers.noncurrentRows [98] [107]).filter fun row =>
        (newest VersionRow.sequence (markerTerms.newerNoncurrentVersions.toNat + 1)
          (fourMarkers.noncurrentRows [98] [107])).contains row ||
            !dueBy markerTerms.days (3 * dayNanos) row := by
  have hclock : (markerEvents (sampleIds 0 0)).Pairwise fun a b => a.now ≤ b.now := by
    simp [markerEvents, LifecycleEvent.now, dayNanos]
  have hbefore : ∀ event ∈ markerEvents (sampleIds 0 0), event.now ≤ 3 * dayNanos := by
    simp [markerEvents, LifecycleEvent.now, dayNanos]
  obtain ⟨hkept, hsettles⟩ := noncurrent_retention retentionStart_fourMarkers
    (markerEvents (sampleIds 0 0)) hclock
  refine ⟨by decide +kernel, by decide +kernel, hkept, hsettles _ hbefore ?_⟩
  exact (retentionStart_fourMarkers.invariant_run hclock hbefore).settled
    retentionStart_fourMarkers.toRetainedKey (by decide +kernel)

end IpfS3.Lifecycle
