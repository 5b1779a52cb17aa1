import IpfS3.Lifecycle.Candidates
import IpfS3.Lifecycle.Fencing

/-!
# What an execution does

The execution of an action that expires a noncurrent version, in two directions.  It writes the row
of the action, and deletes at most one version: a noncurrent one, for which the evaluation in the
same state selects an action (`executeAction_spec`).  If everything is as the action says, it does
delete it (`ExpiresRow.executeAction_deletes`).
-/

namespace IpfS3.Lifecycle

open Fallible Store Table VersionStore ActionTables LifecycleStore Option

/-! ## Executions -/

theorem writesOnly_settlePostAdmissionFailure {t t' : ActionTables} {claim : ClaimedLifecycleAction}
    {settings : ExecutionSettings} {failureClass : FailureClass} {retry : Bool} {lockedAt now : ℤ}
    (h : t.settlePostAdmissionFailure claim settings failureClass retry lockedAt now = .ok t') :
    WritesOnly claim.action.id t t' := by
  rcases presents_settlePostAdmissionFailure h with hfinished | ⟨hretried, -⟩
  · exact hfinished.writesOnly
  · exact hretried.writesOnly

/-- The deletion of a noncurrent version for which the evaluation in this state selects an action. -/
def Expires (db db' : LifecycleStore) (now : ℤ) : Prop :=
  ∃ row ∈ db.store.versions, row.isLatest = false ∧ db'.store = withoutRow db.store row.id ∧
    ∃ candidate configRevision configuration expected, DescribesRow db row candidate ∧
      db.configurations.lookup row.bucket = some (configRevision, some configuration) ∧
      evaluateCandidate (db.evaluationContext candidate configRevision configuration now) =
        .ok (some expected)

theorem Expires.of_withActions {db db' : LifecycleStore} {t : ActionTables} {now : ℤ}
    (h : Expires (db.withActions t) db' now) : Expires db db' now := by
  obtain ⟨row, hrow, hlatest, hstore, candidate, configRevision, configuration, expected, hdescribes,
    hlookup, hexpected⟩ := h
  exact ⟨row, hrow, hlatest, hstore, candidate, configRevision, configuration, expected,
    ⟨hdescribes.rowId, hdescribes.target, hdescribes.isLatest, hdescribes.size,
      hdescribes.becameNoncurrentAt⟩, hlookup, hexpected⟩

/-- **What an execution does**: it writes the row of its action, and expires at most one version. -/
structure Executes (db db' : LifecycleStore) (id : Text) (now : ℤ) : Prop where
  tags_eq : db'.tags = db.tags
  residencies_eq : db'.residencies = db.residencies
  configurations_eq : db'.configurations = db.configurations
  actions : WritesOnly id db.tables db'.tables
  store : db'.store = db.store ∨ Expires db db' now

section Executions

variable {db db' : LifecycleStore} {id : Text} {now : ℤ} {claim : ClaimedLifecycleAction}
  {target : VersionTargetIdentity} {ids : InstallIds} {t : ActionTables}

theorem executes_withActions (h : WritesOnly id db.tables t) :
    Executes db (db.withActions t) id now :=
  ⟨rfl, rfl, rfl, ⟨rfl, rfl, h.frame, h.definition⟩, Or.inl rfl⟩

theorem Executes.refl (db : LifecycleStore) (id : Text) (now : ℤ) : Executes db db id now :=
  executes_withActions (WritesOnly.refl id db.tables)

theorem executes_cancelStale (h : db.cancelStale claim now = .ok db') :
    Executes db db' claim.action.id now := by
  obtain ⟨⟨t, done⟩, hcancelled, h⟩ := of_bind h
  obtain ⟨-, h⟩ := of_ensure h
  cases h
  exact executes_withActions (presents_terminalFailureUpdate rfl hcancelled).writesOnly

theorem executes_settleUnexpected {action : LifecycleActionRow}
    {context : LifecycleEvaluationContext} {expected : Option NewLifecycleAction}
    (h : db.settleUnexpected claim action context expected now = .ok db') :
    Executes db db' claim.action.id now := by
  unfold settleUnexpected at h
  split_ifs at h
  · obtain ⟨wins, -, h⟩ := of_bind h
    split_ifs at h
    · obtain ⟨⟨t, done⟩, hparked, h⟩ := of_bind h
      obtain ⟨-, h⟩ := of_ensure h
      cases h
      exact executes_withActions (presents_waitForTransition hparked).writesOnly
    · exact executes_cancelStale h
  · exact executes_cancelStale h

variable {settings : ExecutionSettings}

theorem executes_settleFailure {error : AppError} :
    Executes db (db.settleFailure claim settings now error) claim.action.id now := by
  unfold settleFailure
  split_ifs
  · dsimp only
    split
    · exact Executes.refl db _ now
    · exact executes_withActions (writesOnly_settlePostAdmissionFailure ‹_›)
  · dsimp only
    split
    · exact Executes.refl db _ now
    · exact executes_withActions (writesOnly_settlePostAdmissionFailure ‹_›)

section

variable (hconstraints : VersionConstraints db.store)

include hconstraints

theorem executes_deleteTarget
    (h : db.deleteTarget claim target .expireNoncurrent ids now = .ok db')
    (hexpires : ∀ row ∈ db.store.versions, row.id = target.versionRowId → row.isLatest = false →
      targetMatchesRow row target = .ok true → ∃ candidate configRevision configuration expected,
        DescribesRow db row candidate ∧
        db.configurations.lookup row.bucket = some (configRevision, some configuration) ∧
        evaluateCandidate (db.evaluationContext candidate configRevision configuration now) =
          .ok (some expected)) : Executes db db' claim.action.id now := by
  obtain ⟨⟨store, result⟩, hdelete, h⟩ := of_bind h
  have hcases := of_expireNoncurrent hconstraints hdelete
  have hstates : store.states = db.store.states := by
    rcases hcases with rfl | ⟨row, -, -, -, -, rfl⟩
    · rfl
    · rfl
  have hstore : ∀ db' : LifecycleStore, db'.store = store →
      db'.store = db.store ∨ Expires db db' now := by
    intro db' hdb'
    rcases hcases with hsame | ⟨row, hrow, hid, hlatest, hmatches, hwithout⟩
    · exact Or.inl (hdb'.trans hsame)
    · exact Or.inr ⟨row, hrow, hlatest, hdb'.trans hwithout, hexpires row hrow hid hlatest hmatches⟩
  have hwrites : ∀ {t : ActionTables}, WritesOnly claim.action.id
      ({ db with store := store } : LifecycleStore).tables t →
      Executes db (({ db with store := store } : LifecycleStore).withActions t) claim.action.id now :=
    fun hwrites => ⟨rfl, rfl, rfl,
      ⟨congrArg (List.map Prod.fst) hstates, rfl, hwrites.frame, hwrites.definition⟩, hstore _ rfl⟩
  cases result with
  | stale =>
    obtain ⟨⟨t, done⟩, hcancelled, h⟩ := of_bind h
    obtain ⟨-, h⟩ := of_ensure h
    cases h
    exact hwrites (presents_terminalFailureUpdate rfl hcancelled).writesOnly
  | applied deleted =>
    obtain ⟨-, h⟩ := of_ensure h
    cases h
    exact hwrites presents_markSucceeded.writesOnly
  | alreadySatisfied =>
    obtain ⟨-, h⟩ := of_ensure h
    cases h
    exact hwrites presents_markSucceeded.writesOnly

theorem executes_executeFinalTransaction (hkind : claim.action.actionKind = .expireNoncurrent)
    {maxAttempts : ℤ} (h : db.executeFinalTransaction claim target ids maxAttempts now = .ok db') :
    Executes db db' claim.action.id now := by
  unfold executeFinalTransaction at h
  cases hlocked : db.tables.lockClaimForExecution claim now with
  | none =>
    rw [hlocked] at h
    cases h
    exact Executes.refl db _ now
  | some action =>
    rw [hlocked] at h
    dsimp only at h
    split_ifs at h with hdefinition
    · exact executes_cancelStale h
    · obtain ⟨⟨t, done⟩, hfailed, h⟩ := of_bind h
      obtain ⟨-, h⟩ := of_ensure h
      cases h
      exact executes_withActions (presents_terminalFailureUpdate rfl hfailed).writesOnly
    have hsame : action.actionKind = .expireNoncurrent := by
      rw [Bool.not_eq_false, sameActionDefinition, Bool.and_eq_true, Bool.and_eq_true] at hdefinition
      have hidentity := congrArg ActionIdentity.actionKind (beq_iff_eq.mp hdefinition.1.2)
      exact hidentity.trans hkind
    split at h
    · rename_i configRevision configuration hlookup
      split_ifs at h with hrevision
      · exact executes_cancelStale h
      · obtain ⟨revalidated, hrevalidated, h⟩ := of_bind h
        rw [hsame] at hrevalidated
        cases revalidated with
        | none => exact executes_cancelStale h
        | some candidate =>
          obtain ⟨row, hrow, hlatest, htarget, hdescribes⟩ := of_revalidateCandidate hrevalidated
          obtain ⟨expected, hexpected, h⟩ := of_bind h
          split_ifs at h with hmatches
          · rw [hsame] at h
            refine executes_deleteTarget hconstraints h fun row' hrow' hid _ _ => ?_
            obtain rfl : row' = row := hconstraints.eq_of_id_eq hrow' hrow
              (hid.trans ((congrArg _ htarget).symm.trans hdescribes.rowId))
            obtain ⟨hbucket, -⟩ := targetMatchesRow_eq_true hdescribes.target
            rw [htarget] at hbucket
            rw [← hbucket] at hlookup
            cases expected with
            | none => cases hmatches
            | some expected =>
              exact ⟨candidate, configRevision, configuration, expected, hdescribes, hlookup,
                hexpected⟩
          · exact executes_settleUnexpected h
    · exact executes_cancelStale h

theorem executes_executeClaimed (hkind : claim.action.actionKind = .expireNoncurrent) :
    Executes db (db.executeClaimed claim ids settings now) claim.action.id now := by
  unfold executeClaimed
  split
  · exact executes_settleFailure
  · exact Executes.refl db _ now
  · split
    · exact executes_settleFailure
    · exact executes_executeFinalTransaction hconstraints hkind ‹_›

/-- **One execution.** -/
theorem executeAction_spec {workerId : Text} {leaseUntil : ℤ}
    (h : db.executeAction id workerId leaseUntil settings ids now = .ok db') :
    Executes db db' id now := by
  unfold executeAction at h
  cases hget : db.actions.get id with
  | none =>
    rw [hget] at h
    cases h
    exact Executes.refl db id now
  | some action =>
    rw [hget] at h
    obtain rfl : action.id = id := Keyed.key_of_get hget
    dsimp only at h
    split_ifs at h with hskip
    · cases h
      exact Executes.refl db _ now
    obtain ⟨⟨⟩, -, h⟩ := of_bind h
    obtain ⟨⟨t, claim⟩, hclaimed, h⟩ := of_bind h
    obtain ⟨hwrites, hids, hrows⟩ := claimOne_spec hclaimed
    cases claim with
    | none =>
      cases h
      exact executes_withActions hwrites
    | some claim =>
      cases h
      obtain ⟨row', -, hstep⟩ := hrows action hget
      have hkind : claim.action.actionKind = .expireNoncurrent := by
        cases hstep with
        | claim hdue =>
          rw [not_or, not_not] at hskip
          exact hskip.1
      have hclaim : WritesOnly action.id db.tables (db.withActions t).tables :=
        ⟨rfl, rfl, hwrites.frame, hwrites.definition⟩
      have hconstraints' : VersionConstraints (db.withActions t).store := hconstraints
      have hexecutes : Executes (db.withActions t)
          ((db.withActions t).executeClaimed claim ids settings now) claim.action.id now :=
        executes_executeClaimed hconstraints' hkind
      rw [hids claim rfl] at hexecutes
      exact ⟨hexecutes.tags_eq, hexecutes.residencies_eq, hexecutes.configurations_eq,
        hclaim.trans hexecutes.actions, hexecutes.store.imp_right Expires.of_withActions⟩

theorem parseS3_asS3Str {row : VersionRow} (hrow : row ∈ db.store.versions)
    {versionId : PublicVersionId} (h : publicVersionId row = .ok versionId) :
    PublicVersionId.parseS3 versionId.asS3Str = .ok versionId ∧ versionId.asS3Str ≠ [] := by
  rcases publicVersionId_eq (hconstraints.versionIds_uuid row hrow) h with
    ⟨-, rfl⟩ | ⟨value, -, rfl, -, hnil, hparse⟩
  · exact ⟨rfl, by decide⟩
  · exact ⟨hparse, hnil⟩

end

theorem lockClaimForExecution_of_active {action : LifecycleActionRow}
    (hbucket : t.buckets.contains claim.action.bucket = true)
    (hget : t.actions.get claim.action.id = some action)
    (hactive : activeClaimCondition claim action = true) (hlease : leaseAfter now action = true) :
    t.lockClaimForExecution claim now = some action := by
  unfold lockClaimForExecution
  rw [if_pos hbucket,
    Keyed.find?_eq_filter_get (fun _ h => (activeClaimCondition_iff.mp h).1) t.actions, hget,
    filter_some, if_pos hactive, filter_some, if_pos hlease]

/-- The action that expires a noncurrent version. -/
structure ExpiresRow (db : LifecycleStore) (row : VersionRow) (action : NewLifecycleAction)
    (now : ℤ) : Prop where
  mem : row ∈ db.store.versions
  noncurrent : row.isLatest = false
  readable : Readable db row
  kind_eq : action.actionKind = .expireNoncurrent
  bucket_eq : action.bucket = row.bucket
  target_eq : ∃ versionId kind, publicVersionId row = .ok versionId ∧ versionKind row = .ok kind ∧
    action.target = .version (targetOf row versionId kind)
  /-- The identity of the action is valid. -/
  valid : row.bucket ≠ [] ∧ row.key ≠ [] ∧ row.id ≠ [] ∧ 0 ≤ row.sequence ∧
    row.objectId ≠ some [] ∧ 0 < action.configRevision
  /-- Every evaluation of the version selects the action. -/
  selected : ∃ configuration,
    db.configurations.lookup row.bucket = some (action.configRevision, some configuration) ∧
    ∀ candidate, DescribesRow db row candidate →
      evaluateCandidate (db.evaluationContext candidate action.configRevision configuration now) =
        .ok (some action)

section ExpiresRow

variable {row : VersionRow} {action : NewLifecycleAction} {versionId : PublicVersionId}
  {kind : VersionKind}

theorem ExpiresRow.targetFromAction_eq (h : ExpiresRow db row action now)
    (hconstraints : VersionConstraints db.store) (hversionId : publicVersionId row = .ok versionId)
    (hkind : versionKind row = .ok kind)
    (htarget : action.target = .version (targetOf row versionId kind)) (id : Text) (insertedAt : ℤ) :
    targetFromAction (newActionRow action id insertedAt) =
      .ok (.version (targetOf row versionId kind)) := by
  obtain ⟨hbucket, hkey, hid, hsequence, -, hrevision⟩ := h.valid
  obtain ⟨hparse, hnil⟩ := parseS3_asS3Str hconstraints h.mem hversionId
  have hkindOf : kind = if row.objectId.isSome = true then .object else .deleteMarker := by
    cases kind with
    | object =>
      obtain ⟨objectId, hobjectId⟩ := objectId_of_object hkind
      rw [hobjectId]
      rfl
    | deleteMarker =>
      rw [objectId_of_marker hkind]
      rfl
  unfold targetFromAction newActionRow
  dsimp only
  rw [htarget, h.kind_eq, h.bucket_eq]
  unfold persistedTarget LifecycleTargetIdentity.key targetOf
  dsimp only
  rw [ensure_of ⟨hbucket, hkey, hrevision⟩, ok_bind, ensure_of ⟨hid, hnil, hsequence⟩, ok_bind,
    targetKind, ← hkindOf, ok_bind, hparse]
  have hiff : kind = .object ↔ row.objectId.isSome = true := by
    rw [hkindOf]
    cases row.objectId.isSome <;> simp
  show (ensure (kind = .object ↔ row.objectId.isSome = true) _ >>= _) = _
  rw [ensure_of hiff, ok_bind]

theorem ExpiresRow.withActions (h : ExpiresRow db row action now) (t : ActionTables) :
    ExpiresRow (db.withActions t) row action now where
  mem := h.mem
  noncurrent := h.noncurrent
  readable :=
    ⟨h.readable.kind, h.readable.versionId, h.readable.object, h.readable.bucket,
      h.readable.residency⟩
  kind_eq := h.kind_eq
  bucket_eq := h.bucket_eq
  target_eq := h.target_eq
  valid := h.valid
  selected := by
    obtain ⟨configuration, hlookup, hselected⟩ := h.selected
    exact ⟨configuration, hlookup, fun candidate hdescribes => hselected candidate
      ⟨hdescribes.rowId, hdescribes.target, hdescribes.isLatest, hdescribes.size,
        hdescribes.becameNoncurrentAt⟩⟩

def firstClaim (action : NewLifecycleAction) (id : Text) (insertedAt : ℤ) (workerId : Text)
    (now leaseUntil : ℤ) : ClaimedLifecycleAction :=
  ⟨claimedRow (newActionRow action id insertedAt) workerId now leaseUntil
    (newActionRow action id insertedAt), 1, workerId⟩

variable {insertedAt leaseUntil maxAttempts : ℤ} {workerId : Text}

theorem activeClaimCondition_firstClaim :
    activeClaimCondition (firstClaim action id insertedAt workerId now leaseUntil)
      (firstClaim action id insertedAt workerId now leaseUntil).action = true :=
  activeClaimCondition_iff.mpr ⟨rfl, ⟨leaseUntil, rfl⟩, rfl⟩

theorem contains_bucket (h : Readable db row) : db.tables.buckets.contains row.bucket = true := by
  obtain ⟨state, hstate⟩ := h.bucket
  obtain ⟨before, after, heq, -⟩ :=
    List.lookup_eq_some_iff.mp (getVersioningState_eq_ok_iff.mp hstate)
  have hmem : (row.bucket, state) ∈ db.store.states := by
    rw [heq]
    simp
  exact List.contains_iff_mem.mpr (List.mem_map.mpr ⟨_, hmem, rfl⟩)

theorem actionMatchesExpected_firstClaim : actionMatchesExpected
    (firstClaim action id insertedAt workerId now leaseUntil).action action = true := by
  unfold actionMatchesExpected firstClaim claimedRow newActionRow
  simp

theorem ExpiresRow.deleteTarget_eq (h : ExpiresRow db row action now)
    (hconstraints : VersionConstraints db.store) (hversionId : publicVersionId row = .ok versionId)
    (hkind : versionKind row = .ok kind) (hget : db.actions.get id =
      some (firstClaim action id insertedAt workerId now leaseUntil).action) :
    ∃ db', db.deleteTarget (firstClaim action id insertedAt workerId now leaseUntil)
      (targetOf row versionId kind) .expireNoncurrent ids now = .ok db' ∧
        db'.store = withoutRow db.store row.id := by
  obtain ⟨state, hstate⟩ := h.readable.bucket
  obtain ⟨resolved, hresolved⟩ := resolvedFromRow_of_readable h.readable
  obtain ⟨deleted, hdeleted⟩ := expireNoncurrent_deletes ids now hconstraints h.mem h.noncurrent
    hkind hversionId hresolved hstate
  have haffected : db.actions.affected (activeClaimCondition
      (firstClaim action id insertedAt workerId now leaseUntil)) = 1 :=
    (Keyed.affected_eq_one_iff (fun _ h => (activeClaimCondition_iff.mp h).1) db.actions).mpr
      ⟨_, hget, activeClaimCondition_firstClaim⟩
  have hdone : ((({ db with store := withoutRow db.store row.id } : LifecycleStore).tables).markSucceeded
      (firstClaim action id insertedAt workerId now leaseUntil) now).2 = true :=
    decide_eq_true haffected
  unfold deleteTarget
  rw [hdeleted, ok_bind]
  dsimp only
  rw [ensure_of hdone, ok_bind]
  exact ⟨_, rfl, rfl⟩

theorem ExpiresRow.executeFinalTransaction_eq (h : ExpiresRow db row action now) (ids : InstallIds)
    (maxAttempts : ℤ) (hconstraints : VersionConstraints db.store) (hversionId : publicVersionId row = .ok versionId)
    (hkind : versionKind row = .ok kind) (hlease : now < leaseUntil) (hget : db.actions.get id =
      some (firstClaim action id insertedAt workerId now leaseUntil).action) :
    ∃ db', db.executeFinalTransaction (firstClaim action id insertedAt workerId now leaseUntil)
      (targetOf row versionId kind) ids maxAttempts now = .ok db' ∧
        db'.store = withoutRow db.store row.id := by
  obtain ⟨configuration, hlookup, hselected⟩ := h.selected
  obtain ⟨candidate, hcandidate⟩ :=
    revalidateCandidate_of_readable hconstraints h.mem h.noncurrent h.readable hkind hversionId
  obtain ⟨row', hrow', -, htarget', hdescribes⟩ := of_revalidateCandidate hcandidate
  obtain rfl : row' = row := hconstraints.eq_of_id_eq hrow' h.mem (by
    rw [← hdescribes.rowId, htarget']
    rfl)
  have hbucket : db.tables.buckets.contains
      (firstClaim action id insertedAt workerId now leaseUntil).action.bucket = true := by
    have hrow := contains_bucket h.readable
    rw [← h.bucket_eq] at hrow
    exact hrow
  have hlocked : db.tables.lockClaimForExecution
      (firstClaim action id insertedAt workerId now leaseUntil) now =
        some (firstClaim action id insertedAt workerId now leaseUntil).action :=
    lockClaimForExecution_of_active hbucket hget activeClaimCondition_firstClaim
      (decide_eq_true hlease)
  have hsame : sameActionDefinition (firstClaim action id insertedAt workerId now leaseUntil).action
      (firstClaim action id insertedAt workerId now leaseUntil).action = true := by
    unfold sameActionDefinition
    simp
  have hwaiting : waitingForDependency
      (firstClaim action id insertedAt workerId now leaseUntil).action = false := by
    unfold waitingForDependency waitingForTransition firstClaim claimedRow newActionRow
    simp
  have hkindEq : (firstClaim action id insertedAt workerId now leaseUntil).action.actionKind =
      .expireNoncurrent := h.kind_eq
  have hrevision : (firstClaim action id insertedAt workerId now leaseUntil).action.configRevision =
      action.configRevision := rfl
  have hlookup' : db.configurations.lookup (targetOf row' versionId kind).bucket =
      some (action.configRevision, some configuration) := hlookup
  unfold executeFinalTransaction
  rw [hlocked]
  dsimp only
  rw [if_neg (by rw [hsame]; decide), if_neg (by rw [hwaiting]; simp), hlookup']
  dsimp only
  rw [if_neg (by rw [hrevision]; simp), executeUnder, hkindEq, hcandidate, ok_bind]
  dsimp only
  rw [hselected candidate hdescribes, ok_bind, if_pos (by
    exact actionMatchesExpected_firstClaim)]
  exact h.deleteTarget_eq hconstraints hversionId hkind hget

/-- **A new action is executed**: if the evaluation still selects it, its version is deleted. -/
theorem ExpiresRow.executeAction_deletes (h : ExpiresRow db row action now)
    (hconstraints : VersionConstraints db.store)
    (hsettings : validateExecutionSettings settings = .ok ()) (hlease : now < leaseUntil)
    (hinserted : insertedAt ≤ now) (hdue : action.dueAt ≤ now)
    (hget : db.actions.get id = some (newActionRow action id insertedAt)) :
    ∃ db', db.executeAction id workerId leaseUntil settings ids now = .ok db' ∧
      db'.store = withoutRow db.store row.id := by
  obtain ⟨versionId, kind, hversionId, hkind, htarget⟩ := h.target_eq
  have hattempts := (of_ensure hsettings).1.1
  have hdueCondition : dueClaimCondition db.tables.sagas now (newActionRow action id insertedAt) =
      true := by
    unfold dueClaimCondition newActionRow
    simp [hinserted, hdue]
  have hclaimed : db.tables.claimOne workerId settings.maxAttempts now leaseUntil []
      (newActionRow action id insertedAt) = .ok ((db.tables.updateRows
        (db.tables.isCandidate (newActionRow action id insertedAt) now)
        (claimedRow (newActionRow action id insertedAt) workerId now leaseUntil) fun _ => rfl).1,
        some (firstClaim action id insertedAt workerId now leaseUntil)) := by
    unfold claimOne
    have hcontains : db.tables.buckets.contains (newActionRow action id insertedAt).bucket = true := by
      have hrow := contains_bucket h.readable
      rw [← h.bucket_eq] at hrow
      exact hrow
    have hread : (db.tables.actions.get (newActionRow action id insertedAt).id).filter
        (dueClaimCondition db.tables.sagas now) = some (newActionRow action id insertedAt) := by
      rw [show db.tables.actions.get (newActionRow action id insertedAt).id = _ from hget,
        filter_some, if_pos hdueCondition]
    have hfew : ¬(settings.maxAttempts ≤ (newActionRow action id insertedAt).attempts ∧
        db.tables.isRecoverable (newActionRow action id insertedAt) settings.maxAttempts = false) :=
      fun hexhausted => absurd hexhausted.1 (not_le.mpr hattempts)
    rw [if_neg (by rw [hcontains]; simp), hread]
    dsimp only
    rw [if_neg hfew]
    exact claimCandidate_eq hdueCondition hget (by unfold newActionRow; norm_num)
  have hgetClaimed : (db.tables.updateRows
      (db.tables.isCandidate (newActionRow action id insertedAt) now)
      (claimedRow (newActionRow action id insertedAt) workerId now leaseUntil)
      fun _ => rfl).1.actions.get id =
        some (firstClaim action id insertedAt workerId now leaseUntil).action :=
    get_updateRows_candidate hdueCondition hget
  unfold executeAction
  rw [hget]
  dsimp only
  rw [if_neg (by
    rw [not_or, not_not, not_le]
    exact ⟨h.kind_eq, hlease⟩), hsettings, ok_bind, hclaimed, ok_bind]
  generalize (db.tables.updateRows (db.tables.isCandidate (newActionRow action id insertedAt) now)
    (claimedRow (newActionRow action id insertedAt) workerId now leaseUntil) fun _ => rfl).1 = t
    at hgetClaimed
  refine ⟨_, rfl, ?_⟩
  obtain ⟨db', hfinal, hstore⟩ := (h.withActions t).executeFinalTransaction_eq ids
    settings.maxAttempts hconstraints hversionId hkind hlease hgetClaimed
  have hdecoded : targetFromAction (firstClaim action id insertedAt workerId now leaseUntil).action =
      .ok (.version (targetOf row versionId kind)) :=
    h.targetFromAction_eq hconstraints hversionId hkind htarget id insertedAt
  unfold executeClaimed
  rw [hdecoded]
  dsimp only
  rw [hfinal]
  exact hstore

end ExpiresRow

end Executions

end IpfS3.Lifecycle
