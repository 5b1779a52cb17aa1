import IpfS3.Lifecycle.Attempts
import IpfS3.Lifecycle.RuleNames

/-!
# Aborting multipart uploads

A scan proposes to abort an upload (`evaluateMultipart`), and a worker that has claimed the action
checks the policy again in the transaction that deletes the upload
(`execute_multipart_in_transaction` of `lifecycle/actions.rs`).  The two do not share their checks:
the worker resolves the rule from the text of the action and matches the upload by itself.

* `exists_allowsAbort_of_evaluateCandidate`: what the scheduler proposes, the rule allows from then on.
* `executeMultipart_abort`, `aborts_of_executeMultipart`: what the worker does with an action that is
  still right, and what was right when an upload is gone.
* `multipart_agreement`: scheduler and executor agree.
-/

namespace IpfS3.Lifecycle

open Fallible Table ActionTables Option

/-! ## Uploads -/

/-- The columns of `multipart_uploads` that identify an upload. -/
structure MultipartUpload where
  uploadId : Text
  bucket : Text
  key : Text
  createdAt : ℤ
  deriving DecidableEq

inductive AbortExactIncompleteUploadResult where
  | applied
  | alreadySatisfied
  | stale
  deriving DecidableEq

/-- The row of a target, as it was seen. -/
def isTarget (target : MultipartUploadTargetIdentity) (upload : MultipartUpload) : Bool :=
  upload.uploadId == target.uploadId && upload.bucket == target.bucket &&
    upload.key == target.key && upload.createdAt == target.initiatedAt

/-- `abort_exact_incomplete_upload_in_transaction`. -/
def abortExactIncompleteUpload (uploads : Keyed MultipartUpload.uploadId)
    (target : MultipartUploadTargetIdentity) :
    Keyed MultipartUpload.uploadId × AbortExactIncompleteUploadResult :=
  let remaining := uploads.delete (isTarget target)
  if uploads.affected (isTarget target) = 1 then (remaining, .applied)
  else (remaining, if (remaining.get target.uploadId).isSome = true then .stale
    else .alreadySatisfied)

/-- The tables that the execution of a multipart action reads. -/
structure UploadStore where
  tables : ActionTables
  /-- The revision and the configuration of each bucket. -/
  configurations : List (Text × ℤ × Option CanonicalLifecycleConfiguration)
  uploads : Keyed MultipartUpload.uploadId

/-! ## Revalidation -/

/-- The match of an upload in `execute_multipart_in_transaction`. -/
def selectsUpload (selector : CanonicalRuleSelector) (key : Text) : Bool :=
  match selector with
  | .modern .all => true
  | .legacyPrefix pfx | .modern (.keyPrefix pfx) => Text.startsWith key pfx
  | _ => false

/-- The days of the abort action of the named rule, if it is enabled and matches. -/
def eligibleAbort (configuration : CanonicalLifecycleConfiguration) (ruleId key : Text) :
    Option UInt32 :=
  (((namedRule configuration ruleId).filter fun rule => rule.status == .enabled).filter
    fun rule => selectsUpload rule.selector key).bind
      CanonicalLifecycleRule.abortIncompleteMultipartUpload

namespace UploadStore

variable (st : UploadStore)

/-- `cancel_without_guard_in_transaction`. -/
def cancelStale (claim : ClaimedLifecycleAction) (now : ℤ) : AppResult UploadStore := do
  let (t, done) ← st.tables.markCancelled claim now .cancelledStale
  ensure (done = true) .staleContentMutation
  .ok { st with tables := t }

/-- The end of `execute_multipart_in_transaction`: the deletion of the upload. -/
def abortTarget (claim : ClaimedLifecycleAction) (target : MultipartUploadTargetIdentity) (now : ℤ) :
    AppResult UploadStore :=
  let aborted := abortExactIncompleteUpload st.uploads target
  match aborted.2 with
  | .applied | .alreadySatisfied => do
    ensure ((st.tables.markSucceeded claim now).2 = true) .staleContentMutation
    .ok ⟨(st.tables.markSucceeded claim now).1, st.configurations, aborted.1⟩
  | .stale => { st with uploads := aborted.1 }.cancelStale claim now

/-- `execute_multipart_in_transaction` once the configuration has been read. -/
def abortUnder (claim : ClaimedLifecycleAction) (action : LifecycleActionRow)
    (target : MultipartUploadTargetIdentity) (configuration : CanonicalLifecycleConfiguration)
    (now : ℤ) : AppResult UploadStore :=
  match eligibleAbort configuration action.ruleId target.key with
  | none => st.cancelStale claim now
  | some days =>
    if (st.uploads.get target.uploadId).any (fun upload => !isTarget target upload) = true then
      st.cancelStale claim now
    else
      match nextUtcMidnightAfterFullDays target.initiatedAt days with
      | .error _ => st.cancelStale claim now
      | .ok dueAt =>
        if action.dueAt ≠ dueAt ∨ now < dueAt then st.cancelStale claim now
        else st.abortTarget claim target now

def executeMultipartInTransaction (claim : ClaimedLifecycleAction)
    (target : MultipartUploadTargetIdentity) (lockedAt now : ℤ) : AppResult UploadStore :=
  match st.tables.lockClaimForExecution claim lockedAt with
  | none => .ok st
  | some action =>
    if sameActionDefinition action claim.action = false then st.cancelStale claim now
    else do
      ensure (st.tables.buckets.contains target.bucket = true) (.noSuchBucket target.bucket)
      match st.configurations.lookup target.bucket with
      | none => st.cancelStale claim now
      | some (revision, json) =>
        if revision ≠ action.configRevision then st.cancelStale claim now
        else
          match json with
          | none => st.cancelStale claim now
          | some configuration => do
            validateCanonicalConfiguration configuration
            st.abortUnder claim action target configuration now

/-- The settlement of a transaction that was rolled back. -/
def settleAborted (claim : ClaimedLifecycleAction) (settings : ExecutionSettings)
    (lockedAt now : ℤ) (error : AppError) : AppResult ActionTables :=
  if LifecycleStore.isTemporaryExecutionError error = true then
    st.tables.retryOrFailSafe claim settings .databaseContention lockedAt now
  else st.tables.failSafe claim .internalDependency lockedAt now

/-- `execute_claimed_lifecycle_action` on an upload.  A failed transaction is settled in another one,
with clock readings of its own. -/
def executeClaimedUpload (claim : ClaimedLifecycleAction) (settings : ExecutionSettings)
    (lockedAt now settleLockedAt settledAt : ℤ) : AppResult UploadStore := do
  validateExecutionSettings settings
  match targetFromAction claim.action with
  | .error _ => do
    let t ← st.tables.failSafe claim .internalDependency settleLockedAt settledAt
    .ok { st with tables := t }
  | .ok (.version _) => .ok st
  | .ok (.multipartUpload target) =>
    match st.executeMultipartInTransaction claim target lockedAt now with
    | .ok st' => .ok st'
    | .error error => do
      let t ← st.settleAborted claim settings settleLockedAt settledAt error
      .ok { st with tables := t }

end UploadStore

/-! ## The two matchers -/

variable {configuration : CanonicalLifecycleConfiguration} {rule : CanonicalLifecycleRule}
  {ruleId key : Text} {days : UInt32}

theorem selectsUpload_of_matchesUpload {selector : CanonicalRuleSelector}
    (h : matchesUpload selector key = .ok true) : selectsUpload selector key = true := by
  unfold matchesUpload at h
  unfold selectsUpload
  split at h
  · rfl
  · exact Except.ok.inj h
  · exact Except.ok.inj h
  · cases h

theorem eligibleAbort_eq_some_iff : eligibleAbort configuration ruleId key = some days ↔
    ∃ rule, namedRule configuration ruleId = some rule ∧ rule.status = .enabled ∧
      selectsUpload rule.selector key = true ∧ rule.abortIncompleteMultipartUpload = some days := by
  unfold eligibleAbort
  rw [bind_eq_some_iff]
  simp only [filter_eq_some_iff, beq_iff_eq]
  constructor
  · rintro ⟨rule, ⟨⟨hnamed, henabled⟩, hselects⟩, habort⟩
    exact ⟨rule, hnamed, henabled, hselects, habort⟩
  · rintro ⟨rule, hnamed, henabled, hselects, habort⟩
    exact ⟨rule, ⟨⟨hnamed, henabled⟩, hselects⟩, habort⟩

/-- A rule that lets the worker abort an upload at an instant: the text of the action names it, it is
enabled and matches the key, and its abort action is due. -/
structure AllowsAbort (configuration : CanonicalLifecycleConfiguration) (ruleId key : Text)
    (createdAt dueAt now : ℤ) (rule : CanonicalLifecycleRule) : Prop where
  named : NamesRule configuration ruleId rule
  enabled : rule.status = .enabled
  selects : selectsUpload rule.selector key = true
  due_eq : ∃ days, rule.abortIncompleteMultipartUpload = some days ∧
    nextUtcMidnightAfterFullDays createdAt days = .ok dueAt
  reached : dueAt ≤ now

/-- The rule of a proposal for an upload. -/
def ProposedBy (facts : LifecycleEvaluationContext) (target : MultipartUploadTargetIdentity)
    (action : NewLifecycleAction) (rule : CanonicalLifecycleRule) : Prop :=
  ∃ ordinal identity, facts.configuration.rules[ordinal]? = some rule ∧
    ruleIdentity rule.id ordinal = .ok identity ∧
    collectUploadRule facts target (rule, ordinal) =
      .ok [uploadProposal facts target identity action.dueAt] ∧
    action = (uploadProposal facts target identity action.dueAt).action

section Scheduler

variable {facts : LifecycleEvaluationContext} {target : MultipartUploadTargetIdentity}
  {action : NewLifecycleAction}

/-- **What the scheduler proposes** is allowed by the rule that proposes it, from then on. -/
theorem exists_allowsAbort_of_evaluateCandidate
    (hvalid : validateCanonicalConfiguration facts.configuration = .ok ())
    (hcandidate : facts.candidate = .multipartUpload target)
    (hevaluate : evaluateCandidate facts = .ok (some action)) :
    ∃ rule, ProposedBy facts target action rule ∧ ∀ now, facts.databaseNow ≤ now →
      AllowsAbort facts.configuration (persistedRuleIdentity action.ruleIdentity) target.key
        target.initiatedAt action.dueAt now rule := by
  have hvalidated := validated_of_validateCanonicalConfiguration hvalid
  obtain ⟨p, hproposal, rfl, -⟩ :=
    (winner_of_evaluateCandidate hvalidated hevaluate).least action rfl
  obtain ⟨ordinal, rule, identity, kind, due, hget, hidentity, hproposes, rfl⟩ := hproposal
  have hp : proposalFor facts identity kind due = uploadProposal facts target identity due := by
    unfold proposalFor
    rw [hcandidate]
  rw [hp]
  cases hproposes with
  | version candidate kind due hversion =>
    rw [hcandidate] at hversion
    cases hversion
  | upload target' days due hupload henabled hmatches habort hdue hreached =>
    obtain rfl := LifecycleCandidate.multipartUpload.inj (hcandidate.symm.trans hupload)
    refine ⟨rule, ⟨ordinal, identity, hget, hidentity, ?_, rfl⟩, fun now hnow => ?_⟩
    · rw [collectUploadRule, if_pos henabled, habort]
      dsimp only
      rw [hmatches, ok_bind, if_pos rfl, hdue]
      dsimp only
      rw [if_pos hreached, hidentity]
      rfl
    · exact ⟨⟨ordinal, identity, hget, hidentity, rfl⟩, henabled,
        selectsUpload_of_matchesUpload hmatches, ⟨days, habort, hdue⟩, hreached.trans hnow⟩

theorem ProposedBy.target_eq {rule : CanonicalLifecycleRule}
    (h : ProposedBy facts target action rule) :
    action.bucket = target.bucket ∧ action.target = .multipartUpload target ∧
      action.actionKind = .abortIncompleteMultipartUpload ∧
      action.configRevision = facts.configRevision := by
  obtain ⟨ordinal, identity, -, -, -, haction⟩ := h
  rw [haction]
  exact ⟨rfl, rfl, rfl, rfl⟩

end Scheduler

/-! ## The worker -/

section Worker

variable {st st' : UploadStore} {claim : ClaimedLifecycleAction} {row : LifecycleActionRow}
  {target : MultipartUploadTargetIdentity} {lockedAt now : ℤ} {uploadId : Text}
  {upload : MultipartUpload}

theorem sameActionDefinition_iff {left right : LifecycleActionRow} :
    sameActionDefinition left right = true ↔ left.id = right.id ∧
      left.idempotencyKey = right.idempotencyKey ∧ left.objectKey = right.objectKey := by
  unfold sameActionDefinition
  simp only [Bool.and_eq_true, beq_iff_eq, and_assoc]

theorem isTarget_iff : isTarget target upload = true ↔
    upload = ⟨target.uploadId, target.bucket, target.key, target.initiatedAt⟩ := by
  unfold isTarget
  simp only [Bool.and_eq_true, beq_iff_eq, and_assoc]
  obtain ⟨uploadId, bucket, key, createdAt⟩ := upload
  rw [MultipartUpload.mk.injEq]

theorem markSucceeded_of_locked {t : ActionTables} (now : ℤ)
    (h : t.lockClaimForExecution claim lockedAt = some row) :
    (t.markSucceeded claim now).2 = true ∧ ∃ row',
      (t.markSucceeded claim now).1.actions.get row.id = some row' ∧ row'.state = .succeeded now := by
  unfold lockClaimForExecution at h
  split_ifs at h with hbucket
  obtain ⟨hfind, -⟩ := filter_eq_some_iff.mp h
  have hactive := List.find?_some hfind
  have hget := Keyed.get_of_mem (List.mem_of_find?_eq_some hfind)
  refine ⟨decide_eq_true ((Keyed.affected_eq_one_iff (k := claim.action.id)
    (fun _ hrow => (activeClaimCondition_iff.mp hrow).1) t.actions).mpr ⟨row, ?_, hactive⟩), ?_⟩
  · rw [← (activeClaimCondition_iff.mp hactive).1]
    exact hget
  · unfold ActionTables.markSucceeded
    rw [get_updateRows, hget, map_some, if_pos hactive]
    exact ⟨_, rfl, rfl⟩

theorem abortExactIncompleteUpload_of_get {uploads : Keyed MultipartUpload.uploadId}
    (h : uploads.get target.uploadId =
      some ⟨target.uploadId, target.bucket, target.key, target.initiatedAt⟩) :
    abortExactIncompleteUpload uploads target = (uploads.delete (isTarget target), .applied) := by
  have haffected : uploads.affected (isTarget target) = 1 := by
    rw [Keyed.affected_eq_one_iff (k := target.uploadId) fun upload hupload => ?_]
    · exact ⟨_, h, isTarget_iff.mpr rfl⟩
    · rw [isTarget_iff.mp hupload]
  unfold abortExactIncompleteUpload
  dsimp only
  rw [if_pos haffected]

/-- **An action whose rule still allows it** aborts the upload and succeeds. -/
theorem executeMultipart_abort
    (hvalid : validateCanonicalConfiguration configuration = .ok ())
    (hlocked : st.tables.lockClaimForExecution claim lockedAt = some row)
    (hsame : sameActionDefinition row claim.action = true)
    (hbucket : st.tables.buckets.contains target.bucket = true)
    (hconfiguration : st.configurations.lookup target.bucket =
      some (row.configRevision, some configuration))
    (hupload : st.uploads.get target.uploadId =
      some ⟨target.uploadId, target.bucket, target.key, target.initiatedAt⟩)
    (hrule : AllowsAbort configuration row.ruleId target.key target.initiatedAt row.dueAt now rule) :
    st.executeMultipartInTransaction claim target lockedAt now =
      .ok ⟨(st.tables.markSucceeded claim now).1, st.configurations,
        st.uploads.delete (isTarget target)⟩ := by
  obtain ⟨days, habort, hdue⟩ := hrule.due_eq
  have heligible : eligibleAbort configuration row.ruleId target.key = some days :=
    eligibleAbort_eq_some_iff.mpr ⟨rule,
      namedRule_of_namesRule (validated_of_validateCanonicalConfiguration hvalid) hrule.named,
      hrule.enabled, hrule.selects, habort⟩
  have hmatches : ¬(st.uploads.get target.uploadId).any
      (fun upload => !isTarget target upload) = true := by
    rw [hupload, any_some, isTarget_iff.mpr rfl]
    exact Bool.false_ne_true
  unfold UploadStore.executeMultipartInTransaction
  rw [hlocked]
  dsimp only
  rw [if_neg (by rw [hsame]; decide), ensure_of hbucket, ok_bind, hconfiguration]
  dsimp only
  rw [if_neg (not_not.mpr rfl), hvalid, ok_bind]
  unfold UploadStore.abortUnder
  rw [heligible]
  dsimp only
  rw [if_neg hmatches, hdue]
  dsimp only
  rw [if_neg (not_or.mpr ⟨not_not.mpr rfl, not_lt.mpr hrule.reached⟩)]
  unfold UploadStore.abortTarget
  rw [abortExactIncompleteUpload_of_get hupload]
  dsimp only
  rw [ensure_of (markSucceeded_of_locked now hlocked).1, ok_bind]

theorem uploads_of_cancelStale (h : st.cancelStale claim now = .ok st') :
    st'.uploads = st.uploads := by
  obtain ⟨⟨t, done⟩, -, h⟩ := of_bind h
  obtain ⟨-, h⟩ := of_ensure h
  cases h
  rfl

theorem isTarget_of_abortTarget (h : st.abortTarget claim target now = .ok st')
    (hbefore : st.uploads.get uploadId = some upload) (hafter : st'.uploads.get uploadId = none) :
    isTarget target upload = true := by
  have hdelete : st'.uploads = st.uploads.delete (isTarget target) := by
    unfold UploadStore.abortTarget abortExactIncompleteUpload at h
    dsimp only at h
    split_ifs at h
    · obtain ⟨-, h⟩ := of_ensure h
      cases h
      rfl
    · exact uploads_of_cancelStale h
    · obtain ⟨-, h⟩ := of_ensure h
      cases h
      rfl
  rw [hdelete, Keyed.get_delete, hbefore, filter_some] at hafter
  by_contra hnot
  rw [if_pos (by simpa using hnot)] at hafter
  cases hafter

/-- The conditions under which a worker aborts an upload. -/
structure Aborts (st : UploadStore) (claim : ClaimedLifecycleAction) (lockedAt now : ℤ)
    (upload : MultipartUpload) : Prop where
  exists_rule : ∃ row configuration rule,
    st.tables.lockClaimForExecution claim lockedAt = some row ∧
    sameActionDefinition row claim.action = true ∧
    st.configurations.lookup upload.bucket = some (row.configRevision, some configuration) ∧
    AllowsAbort configuration row.ruleId upload.key upload.createdAt row.dueAt now rule

/-- **An upload that a transaction aborts** was allowed to be aborted by the rule of its action. -/
theorem aborts_of_executeMultipart
    (h : st.executeMultipartInTransaction claim target lockedAt now = .ok st')
    (hbefore : st.uploads.get uploadId = some upload) (hafter : st'.uploads.get uploadId = none) :
    Aborts st claim lockedAt now upload := by
  have hkept : st'.uploads ≠ st.uploads := by
    intro heq
    rw [heq, hbefore] at hafter
    cases hafter
  unfold UploadStore.executeMultipartInTransaction at h
  cases hlocked : st.tables.lockClaimForExecution claim lockedAt with
  | none =>
    rw [hlocked] at h
    cases h
    exact absurd rfl hkept
  | some row =>
    rw [hlocked] at h
    dsimp only at h
    split_ifs at h with hsame
    · exact absurd (uploads_of_cancelStale h) hkept
    obtain ⟨-, h⟩ := of_ensure h
    rcases hlookup : st.configurations.lookup target.bucket with _ | ⟨revision, json⟩
    · rw [hlookup] at h
      exact absurd (uploads_of_cancelStale h) hkept
    rw [hlookup] at h
    dsimp only at h
    by_cases hrevision : revision = row.configRevision
    swap
    · rw [if_pos hrevision] at h
      exact absurd (uploads_of_cancelStale h) hkept
    rw [if_neg (not_not.mpr hrevision)] at h
    cases json with
    | none => exact absurd (uploads_of_cancelStale h) hkept
    | some configuration =>
      obtain ⟨⟨⟩, -, h⟩ := of_bind h
      unfold UploadStore.abortUnder at h
      cases heligible : eligibleAbort configuration row.ruleId target.key with
      | none =>
        rw [heligible] at h
        exact absurd (uploads_of_cancelStale h) hkept
      | some days =>
        rw [heligible] at h
        dsimp only at h
        split_ifs at h with hmatches
        · exact absurd (uploads_of_cancelStale h) hkept
        cases hdue : nextUtcMidnightAfterFullDays target.initiatedAt days with
        | error e =>
          rw [hdue] at h
          exact absurd (uploads_of_cancelStale h) hkept
        | ok dueAt =>
          rw [hdue] at h
          dsimp only at h
          split_ifs at h with hcancel
          · exact absurd (uploads_of_cancelStale h) hkept
          rw [not_or, not_not, not_lt] at hcancel
          obtain ⟨rfl, hreached⟩ := hcancel
          obtain rfl := isTarget_iff.mp (isTarget_of_abortTarget h hbefore hafter)
          obtain ⟨rule, hnamed, henabled, hselects, habort⟩ :=
            eligibleAbort_eq_some_iff.mp heligible
          refine ⟨row, configuration, rule, hlocked, by simpa using hsame, ?_,
            namesRule_of_namedRule hnamed, henabled, hselects, ⟨days, habort, hdue⟩, hreached⟩
          rw [hlookup, hrevision]

theorem aborts_of_executeClaimedUpload {settings : ExecutionSettings}
    {settleLockedAt settledAt : ℤ}
    (h : st.executeClaimedUpload claim settings lockedAt now settleLockedAt settledAt = .ok st')
    (hbefore : st.uploads.get uploadId = some upload) (hafter : st'.uploads.get uploadId = none) :
    Aborts st claim lockedAt now upload := by
  have hkept : st'.uploads ≠ st.uploads := by
    intro heq
    rw [heq, hbefore] at hafter
    cases hafter
  obtain ⟨⟨⟩, -, h⟩ := of_bind h
  cases htarget : targetFromAction claim.action with
  | error e =>
    rw [htarget] at h
    obtain ⟨t, -, h⟩ := of_bind h
    cases h
    exact absurd rfl hkept
  | ok identity =>
    rw [htarget] at h
    cases identity with
    | version target =>
      cases h
      exact absurd rfl hkept
    | multipartUpload target =>
      dsimp only at h
      cases hexecuted : st.executeMultipartInTransaction claim target lockedAt now with
      | error e =>
        rw [hexecuted] at h
        obtain ⟨t, -, h⟩ := of_bind h
        cases h
        exact absurd rfl hkept
      | ok st'' =>
        rw [hexecuted] at h
        cases h
        exact aborts_of_executeMultipart hexecuted hbefore hafter

theorem targetFromAction_of_same {action : NewLifecycleAction} {actionId : Text} {insertedAt : ℤ}
    (hvalid : validateActionIdentity action = .ok ())
    (htarget : action.target = .multipartUpload target)
    (hsame : sameActionDefinition row (newActionRow action actionId insertedAt) = true) :
    targetFromAction row = .ok (.multipartUpload target) := by
  obtain ⟨-, hkey, hobject⟩ := sameActionDefinition_iff.mp hsame
  obtain ⟨hbucket, hvalid⟩ := of_ensure hvalid
  rw [htarget] at hvalid
  obtain ⟨hkind, htargetBucket, hne, hid⟩ := ensure_eq_ok_iff.mp hvalid
  have hrow : row.bucket = action.bucket ∧ row.configRevision = action.configRevision ∧
      row.actionKind = action.actionKind ∧ row.target = persistedTarget action.target := by
    refine ⟨congrArg ActionIdentity.bucket hkey, congrArg ActionIdentity.configRevision hkey,
      congrArg ActionIdentity.actionKind hkey, congrArg ActionIdentity.target hkey⟩
  have hobject : row.objectKey = target.key := by
    rw [hobject, newActionRow, htarget]
    rfl
  unfold targetFromAction
  rw [ensure_of (by rw [hrow.1, hobject, hrow.2.1]; exact ⟨hbucket.1, hne, hbucket.2⟩), ok_bind,
    hrow.2.2.2, htarget]
  dsimp only [persistedTarget]
  rw [ensure_of (by rw [hrow.2.2.1]; exact ⟨hkind, hid⟩), ok_bind, hrow.1, hobject, ← htargetBucket]

end Worker

/-! ## Agreement -/

/-- **Scheduler and executor agree on multipart uploads.**  An action that the scheduler proposes for
an upload, and inserts, is carried out by any worker that holds a claim on it: at any later instant,
under the same revision of the configuration and with the upload as it was, the text of the action
names the rule that proposed it, which is enabled, matches and has the same due instant, and the
execution deletes the upload and succeeds.  Whenever an execution deletes an upload, the rule that
the text of its action names is enabled, matches the key and is due. -/
theorem multipart_agreement :
    (∀ (facts : LifecycleEvaluationContext) (target : MultipartUploadTargetIdentity)
      (action : NewLifecycleAction) (actionId : Text) (insertedAt : ℤ) (st : UploadStore)
      (claim : ClaimedLifecycleAction) (row : LifecycleActionRow) (settings : ExecutionSettings)
      (lockedAt now settleLockedAt settledAt : ℤ),
      validateCanonicalConfiguration facts.configuration = .ok () →
      facts.candidate = .multipartUpload target →
      evaluateCandidate facts = .ok (some action) → validateActionIdentity action = .ok () →
      sameActionDefinition claim.action (newActionRow action actionId insertedAt) = true →
      st.tables.lockClaimForExecution claim lockedAt = some row →
      sameActionDefinition row claim.action = true →
      st.configurations.lookup target.bucket =
        some (facts.configRevision, some facts.configuration) →
      st.uploads.get target.uploadId =
        some ⟨target.uploadId, target.bucket, target.key, target.initiatedAt⟩ →
      facts.databaseNow ≤ now → validateExecutionSettings settings = .ok () →
      (∃ rule, ProposedBy facts target action rule ∧
        namedRule facts.configuration row.ruleId = some rule ∧
        AllowsAbort facts.configuration row.ruleId target.key target.initiatedAt row.dueAt now
          rule) ∧
      ∃ st', st.executeClaimedUpload claim settings lockedAt now settleLockedAt settledAt = .ok st' ∧
        st'.uploads.get target.uploadId = none ∧
        ∃ row', st'.tables.actions.get row.id = some row' ∧ row'.state = .succeeded now) ∧
    ∀ (st st' : UploadStore) (claim : ClaimedLifecycleAction) (settings : ExecutionSettings)
      (lockedAt now settleLockedAt settledAt : ℤ) (uploadId : Text) (upload : MultipartUpload),
      st.executeClaimedUpload claim settings lockedAt now settleLockedAt settledAt = .ok st' →
      st.uploads.get uploadId = some upload → st'.uploads.get uploadId = none →
      Aborts st claim lockedAt now upload := by
  refine ⟨?_, fun st st' claim settings lockedAt now settleLockedAt settledAt uploadId upload =>
    aborts_of_executeClaimedUpload⟩
  intro facts target action actionId insertedAt st claim row settings lockedAt now settleLockedAt
    settledAt hvalid hcandidate hevaluate hidentity hpersisted hlocked hsame hconfiguration hupload
    hnow hsettings
  obtain ⟨rule, hproposed, hallows⟩ :=
    exists_allowsAbort_of_evaluateCandidate hvalid hcandidate hevaluate
  obtain ⟨hbucket, htarget, -, hrevision⟩ := hproposed.target_eq
  -- the row and the claim are about the action that was inserted
  have hkey : row.idempotencyKey = (newActionRow action actionId insertedAt).idempotencyKey :=
    (sameActionDefinition_iff.mp hsame).2.1.trans (sameActionDefinition_iff.mp hpersisted).2.1
  have hruleId : row.ruleId = persistedRuleIdentity action.ruleIdentity :=
    congrArg ActionIdentity.ruleId hkey
  have hdueAt : row.dueAt = action.dueAt := congrArg ActionIdentity.dueAt hkey
  have hrowRevision : row.configRevision = facts.configRevision :=
    (congrArg ActionIdentity.configRevision hkey).trans hrevision
  have hclaimBucket : claim.action.bucket = target.bucket :=
    (congrArg ActionIdentity.bucket (sameActionDefinition_iff.mp hpersisted).2.1).trans hbucket
  have hrule : AllowsAbort facts.configuration row.ruleId target.key target.initiatedAt row.dueAt now
      rule := by
    rw [hruleId, hdueAt]
    exact hallows now hnow
  refine ⟨⟨rule, hproposed, namedRule_of_namesRule
    (validated_of_validateCanonicalConfiguration hvalid) hrule.named, hrule⟩, ?_⟩
  have hexists : st.tables.buckets.contains target.bucket = true := by
    by_contra hnot
    unfold lockClaimForExecution at hlocked
    rw [hclaimBucket, if_neg hnot] at hlocked
    cases hlocked
  have hexecuted := executeMultipart_abort hvalid hlocked hsame hexists
    (by rw [hconfiguration, hrowRevision]) hupload hrule
  obtain ⟨row', hrow', hstate⟩ := (markSucceeded_of_locked now hlocked).2
  refine ⟨⟨(st.tables.markSucceeded claim now).1, st.configurations,
    st.uploads.delete (isTarget target)⟩, ?_, ?_, row', hrow', hstate⟩
  · unfold UploadStore.executeClaimedUpload
    rw [hsettings, ok_bind, targetFromAction_of_same hidentity htarget hpersisted]
    dsimp only
    rw [hexecuted]
  · rw [Keyed.get_delete, hupload, filter_some, isTarget_iff.mpr rfl]
    rfl

/-- A rule that aborts all uploads after a day, with an ID that looks like a place. -/
def ordinalLikeRule : CanonicalLifecycleRule :=
  ⟨some (Text.ascii ['o', 'r', 'd', 'i', 'n', 'a', 'l', ':', '1']), .enabled, .modern .all, none, none,
    none, none, some 1⟩

/-- A disabled rule without an ID, and then that rule. -/
def twoAbortRules : CanonicalLifecycleConfiguration :=
  ⟨1, [{ ordinalLikeRule with id := none, status := .disabled }, ordinalLikeRule]⟩

-- The place of the rule names no rule, since the rule has an ID.
example : namedRule twoAbortRules (ordinalPrefix ++ Text.ascii ['1']) = none := by
  decide +kernel

/-- An upload of the epoch, three days later. -/
def threeDaysOld : LifecycleEvaluationContext :=
  ⟨.multipartUpload ⟨[98], [107], [117], 0⟩, [], 0, 0, 1, twoAbortRules, 3 * dayNanos⟩

/-- The row of the action on that upload, claimed by a worker. -/
def claimedAbort : LifecycleActionRow where
  id := [1]
  bucket := [98]
  objectKey := [107]
  configRevision := 1
  ruleId := idPrefix ++ Text.ascii ['o', 'r', 'd', 'i', 'n', 'a', 'l', ':', '1']
  actionKind := .abortIncompleteMultipartUpload
  target := persistedTarget (.multipartUpload ⟨[98], [107], [117], 0⟩)
  dueAt := 2 * dayNanos
  state := .claimed [119] (10 * dayNanos)
  attempts := 0
  nextAttemptAt := 0
  claimEpoch := 1
  failureClass := none
  lastErrorRedacted := none
  createdAt := 0
  updatedAt := 0

/-- That row, its configuration and its upload. -/
def threeDaysOldStore : UploadStore :=
  ⟨⟨[[98]], [], ⟨[claimedAbort], by decide⟩⟩, [([98], 1, some twoAbortRules)],
    ⟨[⟨[117], [98], [107], 0⟩], by decide⟩⟩

theorem multipart_agreement_threeDaysOld :
    ∃ st', threeDaysOldStore.executeClaimedUpload ⟨claimedAbort, 1, [119]⟩ ⟨8, 1, 1⟩ (4 * dayNanos)
        (4 * dayNanos) (4 * dayNanos) (4 * dayNanos) = .ok st' ∧ st'.uploads.get [117] = none := by
  have haction : evaluateCandidate threeDaysOld = .ok (some
      ⟨[], [98], 1, .id (Text.ascii ['o', 'r', 'd', 'i', 'n', 'a', 'l', ':', '1']),
        .abortIncompleteMultipartUpload, .multipartUpload ⟨[98], [107], [117], 0⟩, 2 * dayNanos⟩) := by
    decide +kernel
  obtain ⟨-, st', hexecuted, hgone, -⟩ := multipart_agreement.1 threeDaysOld ⟨[98], [107], [117], 0⟩ _
    [1] 0 threeDaysOldStore ⟨claimedAbort, 1, [119]⟩ claimedAbort ⟨8, 1, 1⟩ (4 * dayNanos)
    (4 * dayNanos) (4 * dayNanos) (4 * dayNanos) (by decide +kernel) rfl haction (by decide +kernel)
    (by decide +kernel) (by decide +kernel) (by decide +kernel) (by decide +kernel)
    (by decide +kernel) (by decide) (by decide)
  exact ⟨st', hexecuted, hgone⟩

end IpfS3.Lifecycle
