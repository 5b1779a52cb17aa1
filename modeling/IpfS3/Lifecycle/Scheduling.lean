import IpfS3.Lifecycle.ExecutionSpec

/-!
# What a scan does

A scan leaves the versions alone and only adds rows to the actions, each of them for a version that
the evaluation in the same state selects an action for (`scheduleClaimedScanPage_spec`).  A page with
a version that has an action to be done ends with a row for this action, which may be an older one
with the same idempotency key (`ExpiresRow.scan_schedules`).
-/

namespace IpfS3.Lifecycle

open Fallible Store Table VersionStore ActionTables LifecycleStore

def SelectsAction (db : LifecycleStore) (bucket : Text) (action : NewLifecycleAction) (now : ℤ) :
    Prop :=
  ∃ row ∈ db.store.versions, row.bucket = bucket ∧
    ∃ candidate configRevision configuration, DescribesRow db row candidate ∧
      db.configurations.lookup bucket = some (configRevision, some configuration) ∧
      evaluateCandidate (db.evaluationContext candidate configRevision configuration now) =
        .ok (some action)

/-- **What a scan does**: it adds rows of selected actions. -/
structure Schedules (db db' : LifecycleStore) (bucket : Text) (now : ℤ) : Prop where
  frame : db' = { db with actions := db'.actions }
  kept : ∀ {id : Text} {row : LifecycleActionRow}, db.actions.get id = some row →
    db'.actions.get id = some row
  added : ∀ {id : Text} {row : LifecycleActionRow}, db'.actions.get id = some row →
    db.actions.get id = some row ∨
      ∃ action, SelectsAction db bucket action now ∧ row = newActionRow action id now

section Scans

variable {db db' db'' : LifecycleStore} {bucket : Text} {now : ℤ}

theorem Schedules.refl (db : LifecycleStore) (bucket : Text) (now : ℤ) :
    Schedules db db bucket now :=
  ⟨rfl, fun h => h, Or.inl⟩

theorem SelectsAction.of_frame (hframe : db' = { db with actions := db'.actions })
    {action : NewLifecycleAction} (h : SelectsAction db' bucket action now) :
    SelectsAction db bucket action now := by
  rw [hframe] at h
  obtain ⟨row, hrow, hbucket, candidate, configRevision, configuration, hdescribes, hlookup,
    hselected⟩ := h
  exact ⟨row, hrow, hbucket, candidate, configRevision, configuration,
    ⟨hdescribes.rowId, hdescribes.target, hdescribes.isLatest, hdescribes.size,
      hdescribes.becameNoncurrentAt⟩, hlookup, hselected⟩

theorem Schedules.trans (h : Schedules db db' bucket now) (h' : Schedules db' db'' bucket now) :
    Schedules db db'' bucket now := by
  refine ⟨?_, fun hrow => h'.kept (h.kept hrow), fun {id row} hrow => ?_⟩
  · have hframe := h'.frame
    rw [h.frame] at hframe
    exact hframe
  · rcases h'.added hrow with hrow | ⟨action, hselects, rfl⟩
    · exact h.added hrow
    · exact Or.inr ⟨action, hselects.of_frame h.frame, rfl⟩

theorem insertIdempotent_eq_ok {actions actions' : Keyed LifecycleActionRow.id}
    {action : NewLifecycleAction} {id : Text}
    (h : insertIdempotent actions action id now = .ok actions') :
    actions' = actions ∨ ∃ hfree : actions.get (newActionRow action id now).id = none,
      actions' = actions.insert (newActionRow action id now) hfree := by
  obtain ⟨⟨⟩, -, h⟩ := of_bind h
  dsimp only at h
  split_ifs at h with hexists hfree
  · exact Or.inl (Except.ok.inj h).symm
  · exact Or.inr ⟨hfree, (Except.ok.inj h).symm⟩

variable {configRevision : ℤ} {configuration : CanonicalLifecycleConfiguration}

theorem scheduleCandidate_spec {row : VersionRow} {candidate : VersionLifecycleCandidate}
    {actionId : Text} (hrow : row ∈ db.store.versions) (hbucket : row.bucket = bucket)
    (hdescribes : DescribesRow db row candidate)
    (hlookup : db.configurations.lookup bucket = some (configRevision, some configuration))
    (h : db.scheduleCandidate configRevision configuration now candidate actionId = .ok db') :
    Schedules db db' bucket now := by
  obtain ⟨result, hresult, h⟩ := of_bind h
  cases result with
  | none =>
    cases h
    exact Schedules.refl db bucket now
  | some action =>
    dsimp only at h
    split_ifs at h
    · cases h
      exact Schedules.refl db bucket now
    · obtain ⟨actions, hinsert, h⟩ := of_bind h
      cases h
      rcases insertIdempotent_eq_ok hinsert with rfl | ⟨hfree, rfl⟩
      · exact Schedules.refl db bucket now
      · refine ⟨rfl, fun {id old} hold => ?_, fun {id new} hnew => ?_⟩
        · -- the id of the new row is not the id of a row that was there
          have hne : (newActionRow action actionId now).id ≠ id := by
            rintro rfl
            rw [hfree] at hold
            cases hold
          exact (Keyed.get_insert hfree id).trans ((if_neg hne).trans hold)
        · have hget := (Keyed.get_insert hfree id).symm.trans hnew
          split_ifs at hget with hid
          · refine Or.inr ⟨action, ⟨row, hrow, hbucket, candidate, configRevision, configuration,
              hdescribes, hlookup, hresult⟩, ?_⟩
            rw [← Option.some.inj hget, ← hid]
            rfl
          · exact Or.inl hget

theorem foldlM_scheduleCandidate_spec (candidates : List (VersionLifecycleCandidate × Text)) :
    ∀ {db db' : LifecycleStore}, (∀ entry ∈ candidates, ∃ row ∈ db.store.versions,
      row.bucket = bucket ∧ DescribesRow db row entry.1) →
      db.configurations.lookup bucket = some (configRevision, some configuration) →
      candidates.foldlM (fun db (candidate, actionId) =>
        db.scheduleCandidate configRevision configuration now candidate actionId) db = .ok db' →
      Schedules db db' bucket now := by
  induction candidates with
  | nil =>
    intro db db' _ _ h
    cases h
    exact Schedules.refl db bucket now
  | cons entry candidates ih =>
    intro db db' hrows hlookup h
    obtain ⟨middle, hmiddle, h⟩ := of_bind h
    obtain ⟨row, hrow, hbucket, hdescribes⟩ := hrows entry List.mem_cons_self
    have hstep := scheduleCandidate_spec hrow hbucket hdescribes hlookup hmiddle
    refine hstep.trans (ih (fun other hother => ?_) ?_ h)
    · obtain ⟨row, hrow, hbucket, hdescribes⟩ := hrows other (List.mem_cons_of_mem _ hother)
      rw [hstep.frame]
      exact ⟨row, hrow, hbucket, hdescribes.rowId, hdescribes.target, hdescribes.isLatest,
        hdescribes.size, hdescribes.becameNoncurrentAt⟩
    · rw [hstep.frame]
      exact hlookup

theorem mem_pageRows {page : List (Text × Text)} {entry : VersionRow × Text}
    (h : entry ∈ db.pageRows bucket page) :
    entry.1 ∈ db.store.versions ∧ entry.1.bucket = bucket := by
  obtain ⟨⟨rowId, actionId⟩, -, hentry⟩ := List.mem_filterMap.mp h
  obtain ⟨row, hrow, rfl⟩ := Option.map_eq_some_iff.mp hentry
  have hmem := List.mem_filter.mp (List.mem_of_find?_eq_some hrow)
  exact ⟨hmem.1, beq_iff_eq.mp hmem.2⟩

/-- **What a scan does**: the page has added actions that the evaluation selects. -/
theorem scheduleClaimedScanPage_spec {page : List (Text × Text)}
    (h : db.scheduleClaimedScanPage bucket page now = .ok db') : Schedules db db' bucket now := by
  unfold scheduleClaimedScanPage at h
  split at h
  · rename_i configRevision configuration hlookup
    obtain ⟨candidates, hcandidates, h⟩ := of_bind h
    refine foldlM_scheduleCandidate_spec candidates (fun entry hentry => ?_) hlookup h
    obtain ⟨⟨row, actionId⟩, hrow, hentry⟩ := exists_of_forall₂ (mapM_eq_ok_iff.mp hcandidates) hentry
    obtain ⟨candidate, hcandidate, hentry⟩ := of_bind hentry
    cases hentry
    exact ⟨row, (mem_pageRows hrow).1, (mem_pageRows hrow).2,
      describesRow_of_candidateFromRow hcandidate⟩
  · cases h
    exact Schedules.refl db bucket now

end Scans

end IpfS3.Lifecycle
