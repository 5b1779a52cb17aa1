import IpfS3.Store.MarkerStack

/-!
# Deletions are taken back by deleting their markers

The exact deletion of any marker of a stack takes this one out, promoting the next lower one
(`removeAndPromote_pops`) or uncovering the state below (`removeAndPromote_uncovers`).  So however
many deletions there were, and in whichever order their markers are deleted, the state is restored
exactly (`undelete`).
-/

namespace IpfS3.Store

open Table Fallible VersionStore List

section Stack

variable {st : VersionStore} {bucket key : Text} {since now : ℤ} {markers : List VersionRow}

/-! ## Uncovering the state below -/

theorem promotedRow_demoted {r : VersionRow} (hlatest : r.isLatest = true)
    (hnoncurrent : r.becameNoncurrentAt = none) : promotedRow (demoted since r) = r := by
  cases r
  simp only at hlatest hnoncurrent
  rw [hlatest, hnoncurrent]
  rfl

theorem mem_of_latest {r : VersionRow} (hr : (st.keyRows bucket key).filter (·.isLatest) = [r]) :
    r ∈ st.keyRows bucket key ∧ r.isLatest = true ∧ r ∈ st.versions ∧ r.bucket = bucket ∧
      r.key = key := by
  have hmem : r ∈ (st.keyRows bucket key).filter (·.isLatest) := by
    rw [hr]
    exact mem_singleton_self r
  obtain ⟨hrow, hlatest⟩ := mem_filter.mp hmem
  obtain ⟨hversion, hofKey⟩ := mem_filter.mp hrow
  exact ⟨hrow, hlatest, hversion, ofKey_eq_true_iff.mp hofKey⟩

theorem promote_demotedVersions (hkey : KeyHistory st bucket key) {r : VersionRow}
    (hr : (st.keyRows bucket key).filter (·.isLatest) = [r]) :
    updateWhere (isPromotable r.id) promotedRow (demotedVersions st bucket key since) =
      st.versions := by
  obtain ⟨hrow, hlatest, hversion, -⟩ := mem_of_latest hr
  have hnoncurrent := (hkey.consistent.noncurrent_iff r hrow).mp hlatest
  rw [demotedVersions, updateWhere, updateWhere, map_map]
  refine (map_congr_left fun x hx => ?_).trans (map_id st.versions)
  simp only [Function.comp_apply, id_eq]
  by_cases hcurrent : isLatestOf bucket key x = true
  · obtain ⟨hofKey, hxlatest⟩ := Bool.and_eq_true_iff.mp hcurrent
    obtain rfl : x = r :=
      eq_of_filter_eq_singleton hr (mem_filter.mpr ⟨hx, hofKey⟩) hxlatest
    rw [if_pos hcurrent, if_pos (by simp [isPromotable, demoted]),
      promotedRow_demoted hlatest hnoncurrent]
  · rw [if_neg hcurrent, if_neg]
    rw [isPromotable, Bool.and_eq_true, beq_iff_eq, not_and]
    intro hid
    obtain rfl := hkey.constraints.eq_of_id_eq hx hversion hid
    rw [isLatestOf, (mem_filter.mp hrow).2, Bool.true_and] at hcurrent
    exact absurd hlatest hcurrent

theorem clearedObjects_of_nil (h : (st.currentObjects bucket key).map (·.id) = []) :
    (∀ o ∈ st.objects, isCurrent bucket key o = false) ∧
      clearedObjects st bucket key = st.objects := by
  have hnone : ∀ o ∈ st.objects, isCurrent bucket key o = false := by
    intro o ho
    have hnot := filter_eq_nil_iff.mp (map_eq_nil_iff.mp h) o ho
    exact Bool.eq_false_iff.mpr hnot
  exact ⟨hnone, updateWhere_of_forall_not hnone⟩

theorem setOnlyLatest_clearedObjects (hkey : KeyHistory st bucket key) {c : Object}
    (hc : st.currentObjects bucket key = [c]) :
    ({ st with objects := clearedObjects st bucket key } : VersionStore).setOnlyLatest bucket key
      (some c.id) = .ok st := by
  have hmem : c ∈ st.currentObjects bucket key := by
    rw [hc]
    exact mem_singleton_self c
  obtain ⟨hobject, hcurrent⟩ := mem_filter.mp hmem
  obtain ⟨⟨hbucket, hkeyEq⟩, hlatest⟩ := isCurrent_eq_true_iff.mp hcurrent
  have hunique : ∀ o ∈ st.objects, o.id = c.id → o = c := fun o ho hid =>
    inj_on_of_nodup_map hkey.objects_nodup ho hobject hid
  -- the cleared object is the one that is selected again
  have hselectable : ∀ o ∈ st.objects, isSelectable bucket key c.id
      (if isCurrent bucket key o = true then { o with isLatest := false } else o) =
        isCurrent bucket key o := by
    intro o ho
    by_cases hcur : isCurrent bucket key o = true
    · obtain rfl : o = c := eq_of_filter_eq_singleton hc ho hcur
      rw [if_pos hcur, hcur]
      simp [isSelectable, hbucket, hkeyEq]
    · rw [if_neg hcur, Bool.eq_false_iff.mpr hcur, Bool.eq_false_iff]
      intro hsel
      simp only [isSelectable, Bool.and_eq_true, beq_iff_eq] at hsel
      rw [hunique o ho hsel.1.1.1] at hcur
      exact hcur hcurrent
  have hcountCurrent : st.objects.countP (isCurrent bucket key) = 1 := by
    rw [countP_eq_length_filter]
    exact congrArg length hc
  have hcount : (clearedObjects st bucket key).countP (isSelectable bucket key c.id) = 1 := by
    rw [clearedObjects, updateWhere, countP_map, ← hcountCurrent]
    exact countP_congr fun o ho => by rw [Function.comp_apply, hselectable o ho]
  have hrestore : updateWhere (isSelectable bucket key c.id) (fun o => { o with isLatest := true })
      (clearedObjects st bucket key) = st.objects := by
    rw [clearedObjects, updateWhere, updateWhere, map_map]
    refine (map_congr_left fun o ho => ?_).trans (map_id st.objects)
    simp only [Function.comp_apply, id_eq, hselectable o ho]
    by_cases hcur : isCurrent bucket key o = true
    · obtain rfl : o = c := eq_of_filter_eq_singleton hc ho hcur
      rw [if_pos hcur, if_pos hcur]
      cases o
      simp only at hlatest
      rw [hlatest]
    · rw [if_neg hcur, if_neg hcur]
  have hfind : (clearedObjects st bucket key).find? (fun o => o.id == c.id) =
      some { c with isLatest := false } := by
    have hids : (clearedObjects st bucket key).map (·.id) = st.objects.map (·.id) :=
      map_updateWhere fun _ _ => rfl
    refine find?_of_nodup (a := { c with isLatest := false }) (hids ▸ hkey.objects_nodup) ?_
    exact mem_updateWhere.mpr ⟨c, hobject, if_pos hcurrent⟩
  have hzero : (clearedObjects st bucket key).countP (isCurrent bucket key) = 0 := by
    rw [countP_eq_zero]
    intro o ho
    rw [isCurrent_clearedObjects ho]
    exact Bool.false_ne_true
  rw [setOnlyLatest, checkSelected, getById]
  rw [hfind]
  dsimp only
  rw [ok_bind, ensure_of ⟨hbucket, hkeyEq⟩, ok_bind, ensure_of (hzero.le.trans (Nat.zero_le 1)), ok_bind,
    updateWhere_of_forall_not fun o ho => isCurrent_clearedObjects ho, selectLatest, ensure_of hcount,
    ok_bind, ok_bind, hrestore, ensure_of (show _ = (some c.id).toList.length from hcountCurrent),
    ok_bind]

theorem exists_publicVersionId {row : VersionRow}
    (h : ∀ value, row.versionId = some value → isCanonicalUuid value = true) :
    ∃ versionId, publicVersionId row = .ok versionId := by
  cases hid : row.versionId with
  | none =>
    rw [publicVersionId, hid]
    exact ⟨_, rfl⟩
  | some value => exact ⟨_, publicVersionId_of_uuid hid (h value hid)⟩

section Latest

variable {r : VersionRow}

section

variable (hkey : KeyHistory st bucket key)
  (hr : (st.keyRows bucket key).filter (·.isLatest) = [r])

include hkey hr

theorem currentObjects_of_latest :
    (st.currentObjects bucket key).map (·.id) = r.objectId.toList := by
  have hprojection := hkey.consistent.projection
  rwa [hr, flatMap_singleton] at hprojection

theorem exists_currentObject {objectId : Text} (hobject : r.objectId = some objectId) :
    ∃ c, st.currentObjects bucket key = [c] ∧ c.id = objectId := by
  have hcurrent := currentObjects_of_latest hkey hr
  rw [hobject] at hcurrent
  obtain ⟨c, hc, hid⟩ := map_eq_singleton_iff.mp hcurrent
  exact ⟨c, hc, hid⟩

theorem setOnlyLatest_latest :
    ({ st with objects := clearedObjects st bucket key } : VersionStore).setOnlyLatest bucket key
      r.objectId = .ok st := by
  cases hobject : r.objectId with
  | none =>
    have hcurrent := currentObjects_of_latest hkey hr
    rw [hobject] at hcurrent
    obtain ⟨hnone, hcleared⟩ := clearedObjects_of_nil hcurrent
    rw [hcleared]
    exact setOnlyLatest_none hnone
  | some objectId =>
    obtain ⟨c, hc, rfl⟩ := exists_currentObject hkey hr hobject
    exact setOnlyLatest_clearedObjects hkey hc

theorem exists_resolvedCurrentFromRow :
    ∃ version, st.resolvedCurrentFromRow r = .ok version := by
  obtain ⟨hrow, hlatest, hversion, rfl, rfl⟩ := mem_of_latest hr
  obtain ⟨versionId, hid⟩ := exists_publicVersionId (hkey.constraints.versionIds_uuid r hversion)
  obtain ⟨hkind, hobject⟩ | ⟨hkind, hobject⟩ := versionKind_cases (hkey.consistent.kinds r hrow)
  · obtain ⟨objectId, hobject⟩ := hobject
    obtain ⟨c, hc, rfl⟩ := exists_currentObject hkey hr hobject
    have hmem : c ∈ st.currentObjects r.bucket r.key := by
      rw [hc]
      exact mem_singleton_self c
    obtain ⟨hcobject, hcurrent⟩ := mem_filter.mp hmem
    obtain ⟨⟨hcbucket, hckey⟩, hclatest⟩ := isCurrent_eq_true_iff.mp hcurrent
    have hfind : st.objects.find? (fun o => some o.id == some c.id) = some c :=
      find?_of_nodup hkey.objects_nodup hcobject
    have hcontent : versionKind r = .ok .object := by
      rw [versionKind, hkind, hobject]
    rw [resolvedCurrentFromRow, resolvedFromRow, hcontent, ok_bind, hid, ok_bind, hobject]
    rw [hfind]
    dsimp only
    rw [if_neg (by
      rw [not_or, not_not, not_not]
      exact ⟨hcbucket, hckey⟩), ok_bind]
    dsimp only
    rw [ensure_of ⟨hlatest, hclatest⟩, ok_bind]
    exact ⟨_, rfl⟩
  · obtain ⟨resolved, hresolved, hnoObject⟩ : ∃ resolved,
        resolvedFromRow st.objects r = .ok resolved ∧ resolved.object = none :=
      exists_resolvedFromRow_marker (versionKind_of_marker hkind hobject) hid
    have hcurrent := currentObjects_of_latest hkey hr
    rw [hobject] at hcurrent
    have hcount : st.objects.countP (isCurrent r.bucket r.key) = 0 := by
      rw [countP_eq_zero]
      intro o ho
      rw [(clearedObjects_of_nil hcurrent).1 o ho]
      exact Bool.false_ne_true
    rw [resolvedCurrentFromRow, hresolved, ok_bind, hnoObject]
    dsimp only
    rw [ensure_of ⟨hlatest, hcount⟩, ok_bind]
    exact ⟨_, rfl⟩

theorem greatest_demotedVersions (hmax : ∀ r' ∈ st.keyRows bucket key, r'.sequence ≤ r.sequence) :
    greatest VersionRow.sequence ((demotedVersions st bucket key since).filter (ofKey bucket key)) =
      some (demoted since r) := by
  obtain ⟨hrow, hlatest, -⟩ := mem_of_latest hr
  have hrows : (demotedVersions st bucket key since).filter (ofKey bucket key) =
      updateWhere (·.isLatest) (demoted since) (st.keyRows bucket key) :=
    (Writes.demote st bucket key since).rows_eq
  rw [hrows]
  refine greatest_eq_some (mem_updateWhere.mpr ⟨r, hrow, if_pos hlatest⟩) fun b hb hne => ?_
  obtain ⟨a, ha, rfl⟩ := mem_updateWhere.mp hb
  by_cases hcurrent : a.isLatest = true
  · obtain rfl := eq_of_filter_eq_singleton hr ha hcurrent
    exact absurd (if_pos hcurrent) hne
  · rw [if_neg hcurrent]
    refine lt_of_le_of_ne (hmax a ha) fun heq => ?_
    obtain rfl := inj_on_of_nodup_map hkey.consistent.sequence_nodup ha hrow heq
    exact hcurrent hlatest

end

theorem promote_demoted (since now : ℤ) (hkey : KeyHistory st bucket key)
    (hr : (st.keyRows bucket key).filter (·.isLatest) = [r]) :
    ∃ version, (⟨st.states, clearedObjects st bucket key, demotedVersions st bucket key since⟩ :
      VersionStore).promote bucket key now (demoted since r) = .ok (st, version) := by
  obtain ⟨hrow, hlatest, hversion, hofKey⟩ := mem_of_latest hr
  obtain ⟨kind, hkind⟩ := hkey.consistent.kinds r hrow
  obtain ⟨version, hresolved⟩ := exists_resolvedCurrentFromRow hkey hr
  have hrestored : promotedRow (demoted since r) = r :=
    promotedRow_demoted hlatest ((hkey.consistent.noncurrent_iff r hrow).mp hlatest)
  have hmem : demoted since r ∈ demotedVersions st bucket key since :=
    mem_updateWhere.mpr ⟨r, hversion, if_pos (by
      rw [isLatestOf, ofKey_eq_true_iff.mpr hofKey, hlatest, Bool.and_self])⟩
  have hselected : selectedObject (demoted since r) kind = r.objectId := selectedObject_eq hkind
  have hresolved' : st.resolvedCurrentFromRow (promotedRow (demoted since r)) = .ok version := by
    rw [hrestored]
    exact hresolved
  have hkind' : versionKind (demoted since r) = .ok kind := hkind
  refine ⟨version, promote_eq (hkey.constraints.congr fixed_demotedVersions)
    (fun x hx => isLatestOf_demotedVersions hx) hmem rfl hkind' ?_ hresolved'⟩
  have hversions : updateWhere (isPromotable r.id) promotedRow
      (demotedVersions st bucket key since) = st.versions := promote_demotedVersions hkey hr
  rw [hselected, show updateWhere (isPromotable (demoted since r).id) promotedRow
    (demotedVersions st bucket key since) = st.versions from hversions]
  exact setOnlyLatest_latest hkey hr

end Latest

theorem demotedVersions_of_nil (h : st.keyRows bucket key = []) :
    demotedVersions st bucket key since = st.versions := by
  refine updateWhere_of_forall_not fun r hr => ?_
  rw [isLatestOf, Bool.eq_false_iff.mpr (filter_eq_nil_iff.mp h r hr), Bool.false_and]

/-- **The deletion of the last marker uncovers the state below.** -/
theorem removeAndPromote_uncovers (hkey : KeyHistory st bucket key) {m : VersionRow}
    (h : MarkerStack st bucket key [m])
    (hconstraints : VersionConstraints (buried st bucket key since [m])) :
    ∃ promoted, (buried st bucket key since [m]).removeAndPromote m now = .ok (st, promoted) := by
  have hm : m ∈ [m] := mem_singleton_self m
  have hmem : m ∈ (buried st bucket key since [m]).versions := mem_append_right _ hm
  obtain ⟨hmarker, hnone⟩ := h.marker m hm
  have hkind := versionKind_of_marker hmarker hnone
  have hlatest := (h.latest [] m rfl).1
  obtain ⟨rfl, rfl⟩ := ofKey_eq_true_iff.mp (h.ofKey_eq m hm)
  have hwithout : withoutRow (buried st m.bucket m.key since [m]) m.id =
      ⟨st.states, clearedObjects st m.bucket m.key, demotedVersions st m.bucket m.key since⟩ := by
    have hversions : (withoutRow (buried st m.bucket m.key since ([] ++ m :: [])) m.id).versions =
        demotedVersions st m.bucket m.key since ++ ([] ++ []) :=
      versions_withoutRow_buried hconstraints
    rw [append_nil, append_nil] at hversions
    rw [← hversions]
    rfl
  by_cases hempty : st.keyRows m.bucket m.key = []
  · have hcurrent := hkey.consistent.projection
    rw [hempty] at hcurrent
    obtain ⟨hcurrentNone, hcleared⟩ := clearedObjects_of_nil hcurrent
    rw [hcleared, demotedVersions_of_nil hempty] at hwithout
    refine ⟨none, removeAndPromote_last hconstraints hmem hlatest hkind ?_ ?_⟩
    · rw [hwithout]
      exact hempty
    · rw [hwithout]
      exact setOnlyLatest_none hcurrentNone
  · obtain ⟨r, hr, hmax⟩ := hkey.consistent.latest hempty
    obtain ⟨version, hpromote⟩ := promote_demoted since now hkey hr
    rw [← hwithout] at hpromote
    refine ⟨some version, removeAndPromote_survivor hconstraints hmem hlatest hkind ?_ hpromote⟩
    rw [hwithout]
    exact greatest_demotedVersions hkey hr hmax

variable {below : List VersionRow}

theorem MarkerStack.sublist {top : VersionRow} {below' : List VersionRow}
    (h : MarkerStack st bucket key (below ++ [top])) (hsub : below'.Sublist below) :
    MarkerStack st bucket key (below' ++ [top]) := by
  have hsub' : (below' ++ [top]).Sublist (below ++ [top]) := hsub.append_right [top]
  refine ⟨fun m hm => h.ofKey_eq m (hsub'.subset hm), fun m hm => h.marker m (hsub'.subset hm),
    fun m hm => h.versionId_isSome m (hsub'.subset hm), fun m hm => h.above m (hsub'.subset hm),
    h.ascending.sublist hsub', fun below'' top' heq => ?_⟩
  obtain ⟨rfl, htop⟩ := append_inj' heq rfl
  obtain rfl := (cons.inj htop).1
  obtain ⟨htopLatest, hbelow⟩ := h.latest below top rfl
  exact ⟨htopLatest, fun m hm => hbelow m (hsub.subset hm)⟩

theorem MarkerStack.pop {next top : VersionRow}
    (h : MarkerStack st bucket key (below ++ [next] ++ [top])) :
    MarkerStack st bucket key (below ++ [promotedRow next]) := by
  have hnext : next ∈ below ++ [next] ++ [top] := by simp
  have hmem : ∀ m ∈ below, m ∈ below ++ [next] ++ [top] := fun m hm => by simp [hm]
  have hcases : ∀ {P : VersionRow → Prop}, (∀ m ∈ below, P m) → P (promotedRow next) →
      ∀ m ∈ below ++ [promotedRow next], P m := by
    intro P hbelow htop m hm
    rcases mem_append.mp hm with hm | hm
    · exact hbelow m hm
    · rw [mem_singleton.mp hm]
      exact htop
  have hasc := h.ascending
  rw [pairwise_append, pairwise_append] at hasc
  refine ⟨hcases (fun m hm => h.ofKey_eq m (hmem m hm)) (h.ofKey_eq next hnext),
    hcases (fun m hm => h.marker m (hmem m hm)) (h.marker next hnext),
    hcases (fun m hm => h.versionId_isSome m (hmem m hm)) (h.versionId_isSome next hnext),
    hcases (fun m hm => h.above m (hmem m hm)) (h.above next hnext), ?_, fun below' top' heq => ?_⟩
  · rw [pairwise_append]
    refine ⟨hasc.1.1, pairwise_singleton _ _, fun m hm m' hm' => ?_⟩
    rw [mem_singleton.mp hm']
    exact hasc.1.2.2 m hm next (mem_singleton_self next)
  · obtain ⟨rfl, htop⟩ := append_inj' heq rfl
    obtain rfl := (cons.inj htop).1
    exact ⟨rfl, fun m hm => (h.latest _ top rfl).2 m (mem_append_left _ hm)⟩

/-- **The deletion of the top marker promotes the next one.** -/
theorem removeAndPromote_pops {next top : VersionRow}
    (h : MarkerStack st bucket key (below ++ [next] ++ [top]))
    (hconstraints : VersionConstraints (buried st bucket key since (below ++ [next] ++ [top]))) :
    ∃ promoted, (buried st bucket key since (below ++ [next] ++ [top])).removeAndPromote top now =
      .ok (buried st bucket key since (below ++ [promotedRow next]), promoted) := by
  have htop : top ∈ below ++ [next] ++ [top] := by simp
  have hnext : next ∈ below ++ [next] ++ [top] := by simp
  have hne : below ++ [next] ++ [top] ≠ [] := by simp
  obtain ⟨hlatest, hlower⟩ := h.latest (below ++ [next]) top rfl
  have hnextLatest := hlower next (by simp)
  obtain ⟨hmarker, hnone⟩ := h.marker top htop
  obtain ⟨hnextMarker, hnextNone⟩ := h.marker next hnext
  have hkind := versionKind_of_marker hmarker hnone
  have hnextKind := versionKind_of_marker hnextMarker hnextNone
  obtain ⟨rfl, rfl⟩ := ofKey_eq_true_iff.mp (h.ofKey_eq top htop)
  have hmem : top ∈ (buried st top.bucket top.key since (below ++ [next] ++ [top])).versions := by
    rw [buried_of_ne_nil hne]
    exact mem_append_right _ htop
  -- the table without the top marker
  have hwithout : withoutRow (buried st top.bucket top.key since (below ++ [next] ++ [top])) top.id =
      ⟨st.states, clearedObjects st top.bucket top.key,
        demotedVersions st top.bucket top.key since ++ (below ++ [next])⟩ := by
    have hversions := versions_withoutRow_buried hconstraints
    rw [append_nil] at hversions
    rw [← hversions, buried_of_ne_nil hne]
    rfl
  have hconstraints' := hconstraints.withoutRow top.id
  rw [hwithout] at hconstraints'
  have hnotLatest : ∀ r ∈ demotedVersions st top.bucket top.key since ++ (below ++ [next]),
      isLatestOf top.bucket top.key r = false := by
    intro r hr
    rcases mem_append.mp hr with hr | hr
    · exact isLatestOf_demotedVersions hr
    · rw [isLatestOf, hlower r hr, Bool.and_false]
  have hgreatest : greatest VersionRow.sequence ((demotedVersions st top.bucket top.key since ++
      (below ++ [next])).filter (ofKey top.bucket top.key)) = some next := by
    refine greatest_eq_some (mem_filter.mpr ⟨by simp, h.ofKey_eq next hnext⟩)
      fun b hb hbne => ?_
    obtain ⟨hb, hbofKey⟩ := mem_filter.mp hb
    rcases mem_append.mp hb with hb | hb
    · have hrow : b.fixed ∈ (demotedVersions st top.bucket top.key since).map VersionRow.fixed :=
        mem_map_of_mem hb
      rw [fixed_demotedVersions] at hrow
      obtain ⟨a, ha, hsame⟩ := mem_map.mp hrow
      have hseq : a.sequence = b.sequence := congrArg FixedColumns.sequence hsame
      rw [← hseq]
      refine (h.above next hnext).2 a (mem_filter.mpr ⟨ha, ?_⟩)
      rw [ofKey_congr hsame]
      exact hbofKey
    · have hasc := h.ascending
      rw [pairwise_append, pairwise_append] at hasc
      rcases mem_append.mp hb with hb | hb
      · exact hasc.1.2.2 b hb next (mem_singleton_self next)
      · exact absurd (mem_singleton.mp hb) hbne
  have hversions : updateWhere (isPromotable next.id) promotedRow
      (demotedVersions st top.bucket top.key since ++ (below ++ [next])) =
        demotedVersions st top.bucket top.key since ++ (below ++ [promotedRow next]) := by
    have hnodup := hconstraints'.ids_nodup
    rw [← append_assoc, map_append, nodup_append] at hnodup
    have hother : ∀ r ∈ demotedVersions st top.bucket top.key since ++ below,
        isPromotable next.id r = false := by
      intro r hr
      have hidne := hnodup.2.2 r.id (mem_map_of_mem hr) next.id (by simp)
      rw [isPromotable, beq_eq_false_iff_ne.mpr hidne, Bool.false_and]
    rw [← append_assoc, updateWhere_append, updateWhere_of_forall_not hother, append_assoc]
    simp [updateWhere, isPromotable, hnextLatest]
  obtain ⟨value, hvalue⟩ := h.versionId_isSome next hnext
  have hnextId : publicVersionId (promotedRow next) = .ok (.opaqueId value) :=
    publicVersionId_of_uuid hvalue (hconstraints'.versionIds_uuid next (by simp) value hvalue)
  have hclearedNone : ∀ o ∈ clearedObjects st top.bucket top.key,
      isCurrent top.bucket top.key o = false := fun o ho => isCurrent_clearedObjects ho
  have hresolved : ∃ version, (⟨st.states, clearedObjects st top.bucket top.key,
      demotedVersions st top.bucket top.key since ++ (below ++ [promotedRow next])⟩ :
        VersionStore).resolvedCurrentFromRow (promotedRow next) = .ok version := by
    have hpromotedKind : versionKind (promotedRow next) = .ok .deleteMarker := hnextKind
    obtain ⟨resolved, hresolved, hnoObject⟩ : ∃ resolved,
        resolvedFromRow (clearedObjects st top.bucket top.key) (promotedRow next) = .ok resolved ∧
          resolved.object = none := exists_resolvedFromRow_marker hpromotedKind hnextId
    obtain ⟨hbucket, hkeyEq⟩ := ofKey_eq_true_iff.mp (h.ofKey_eq next hnext)
    have hcount : (clearedObjects st top.bucket top.key).countP
        (isCurrent (promotedRow next).bucket (promotedRow next).key) = 0 := by
      rw [show (promotedRow next).bucket = top.bucket from hbucket,
        show (promotedRow next).key = top.key from hkeyEq, countP_eq_zero]
      intro o ho
      rw [hclearedNone o ho]
      exact Bool.false_ne_true
    rw [resolvedCurrentFromRow, hresolved, ok_bind, hnoObject]
    dsimp only
    rw [ensure_of ⟨rfl, hcount⟩, ok_bind]
    exact ⟨_, rfl⟩
  obtain ⟨version, hresolved⟩ := hresolved
  refine ⟨some version, removeAndPromote_survivor hconstraints hmem hlatest hkind
    (by rw [hwithout]; exact hgreatest) ?_⟩
  rw [hwithout, buried_of_ne_nil (by simp : below ++ [promotedRow next] ≠ [])]
  refine promote_eq hconstraints' hnotLatest (by simp) hnextLatest hnextKind ?_ hresolved
  rw [hversions]
  exact setOnlyLatest_none hclearedNone

theorem removeAndPromote_buried (hkey : KeyHistory st bucket key)
    (h : MarkerStack st bucket key markers)
    (hconstraints : VersionConstraints (buried st bucket key since markers)) {m : VersionRow}
    (hm : m ∈ markers) :
    ∃ markers' promoted, (buried st bucket key since markers).removeAndPromote m now =
        .ok (buried st bucket key since markers', promoted) ∧
      MarkerStack st bucket key markers' ∧
      VersionConstraints (buried st bucket key since markers') ∧
      (markers.map (·.versionId)).Perm (m.versionId :: markers'.map (·.versionId)) := by
  obtain ⟨below, above, rfl⟩ := append_of_mem hm
  rcases eq_nil_or_concat above with rfl | ⟨above, top, rfl⟩
  · -- the top marker
    rcases eq_nil_or_concat below with rfl | ⟨below, next, rfl⟩
    · obtain ⟨promoted, hremove⟩ := removeAndPromote_uncovers hkey h hconstraints
      exact ⟨[], promoted, hremove, markerStack_nil, hkey.constraints, List.Perm.refl _⟩
    · rw [concat_eq_append] at h hconstraints ⊢
      obtain ⟨promoted, hremove⟩ := removeAndPromote_pops h hconstraints
      refine ⟨below ++ [promotedRow next], promoted, hremove, h.pop, ?_, ?_⟩
      · refine (hconstraints.withoutRow m.id).congr ?_
        have hversions := versions_withoutRow_buried hconstraints
        rw [hversions, buried_of_ne_nil (by simp : below ++ [promotedRow next] ≠ []), append_nil,
          map_append, map_append, map_append, map_append]
        rfl
      · rw [map_append, map_append, map_append]
        exact perm_append_comm
  · -- a marker below the top one
    rw [concat_eq_append] at h hconstraints ⊢
    have hassoc : below ++ m :: (above ++ [top]) = (below ++ m :: above) ++ [top] := by simp
    have hstack : MarkerStack st bucket key ((below ++ m :: above) ++ [top]) := hassoc ▸ h
    have hlatest := (hstack.latest _ top rfl).2 m (by simp)
    have hmem : m ∈ (buried st bucket key since (below ++ m :: (above ++ [top]))).versions := by
      rw [buried_of_ne_nil (by simp)]
      exact mem_append_right _ (by simp)
    obtain ⟨hmarker, hnone⟩ := h.marker m (by simp)
    have hwithout : withoutRow (buried st bucket key since (below ++ m :: (above ++ [top]))) m.id =
        buried st bucket key since (below ++ (above ++ [top])) := by
      have hversions := versions_withoutRow_buried hconstraints
      rw [buried_of_ne_nil (by simp : below ++ (above ++ [top]) ≠ []), ← hversions,
        buried_of_ne_nil (by simp : below ++ m :: (above ++ [top]) ≠ [])]
      rfl
    refine ⟨below ++ (above ++ [top]), none, ?_, ?_, ?_, ?_⟩
    · rw [removeAndPromote_noncurrent hconstraints hmem hlatest
        (versionKind_of_marker hmarker hnone), hwithout]
    · rw [← append_assoc]
      exact hstack.sublist ((sublist_cons_self m above).append_left below)
    · rw [← hwithout]
      exact hconstraints.withoutRow m.id
    · have hids : (below ++ (above ++ [top])).map (·.versionId) =
          below.map (·.versionId) ++ (above ++ [top]).map (·.versionId) := map_append
      rw [hids, map_append, map_cons]
      exact perm_middle

/-- **The exact deletion of a marker takes it out of the stack.** -/
theorem buried_deleteExact (hkey : KeyHistory st bucket key) (h : MarkerStack st bucket key markers)
    (hconstraints : VersionConstraints (buried st bucket key since markers)) {value : Text}
    (hvalue : some value ∈ markers.map (·.versionId)) :
    ∃ markers' deleted, (buried st bucket key since markers).deleteExactCore bucket key
        (.opaqueId value) now = .ok (buried st bucket key since markers', deleted) ∧
      MarkerStack st bucket key markers' ∧
      VersionConstraints (buried st bucket key since markers') ∧
      (markers.map (·.versionId)).Perm (some value :: markers'.map (·.versionId)) ∧
      PublicVersionId.parseS3 value = .ok (.opaqueId value) := by
  obtain ⟨m, hm, hid⟩ := mem_map.mp hvalue
  have hmem : m ∈ (buried st bucket key since markers).versions := by
    rw [buried_of_ne_nil (ne_nil_of_mem hm)]
    exact mem_append_right _ hm
  obtain ⟨markers', promoted, hremove, hstack, hconstraints', hperm⟩ :=
    removeAndPromote_buried hkey h hconstraints hm
  have huuid := hconstraints.versionIds_uuid m hmem value hid
  have hpublic := publicVersionId_of_uuid hid huuid
  obtain ⟨hmarker, hnone⟩ := h.marker m hm
  obtain ⟨resolved, hresolved, -⟩ : ∃ resolved,
      resolvedFromRow (buried st bucket key since markers).objects m = .ok resolved ∧
        resolved.object = none :=
    exists_resolvedFromRow_marker (versionKind_of_marker hmarker hnone) hpublic
  obtain ⟨deleted, hdelete⟩ :=
    deleteExactCore_of_removeAndPromote hconstraints hmem hpublic hresolved hremove
  obtain ⟨hbucket, hkeyEq⟩ := ofKey_eq_true_iff.mp (h.ofKey_eq m hm)
  rw [hbucket, hkeyEq] at hdelete
  rw [hid] at hperm
  refine ⟨markers', deleted, hdelete, hstack, hconstraints', hperm, ?_⟩
  rw [publicVersionId, hid] at hpublic
  dsimp only at hpublic
  cases hparse : PublicVersionId.parseS3 value with
  | error e =>
    rw [hparse] at hpublic
    cases hpublic
  | ok id =>
    rw [hparse] at hpublic
    exact hpublic

end Stack

/-! ## Any number of deletions -/

/-- The deletions of the current version, one after the other, with the version ids that they
return. -/
def deleteCurrents (bucket key : Text) :
    List (InstallIds × ℤ × ℤ) → VersionStore → AppResult (VersionStore × List Text)
  | [], st => .ok (st, [])
  | (ids, now, databaseNow) :: calls, st => do
    let (st, result) ← st.deleteVersionAttempt bucket key .current ids now databaseNow
    let (st, created) ← deleteCurrents bucket key calls st
    .ok (st, result.versionId.toList ++ created)

def deleteExacts (bucket key : Text) :
    List (Text × InstallIds × ℤ × ℤ) → VersionStore → AppResult VersionStore
  | [], st => .ok st
  | (versionId, ids, now, databaseNow) :: calls, st => do
    let id ← PublicVersionId.parseS3 versionId
    let (st, _) ← st.deleteVersionAttempt bucket key (.exact id) ids now databaseNow
    deleteExacts bucket key calls st

section Undelete

variable {st : VersionStore} {bucket key : Text}

theorem deleteCurrents_buried (hkey : KeyHistory st bucket key)
    (henabled : getVersioningState st.states bucket = .ok .enabled)
    (calls : List (InstallIds × ℤ × ℤ)) :
    ∀ {since : ℤ} {markers : List VersionRow} {st' : VersionStore} {created : List Text},
      MarkerStack st bucket key markers →
      VersionConstraints (buried st bucket key since markers) →
      deleteCurrents bucket key calls (buried st bucket key since markers) = .ok (st', created) →
      ∃ since' markers', st' = buried st bucket key since' markers' ∧
        MarkerStack st bucket key markers' ∧ VersionConstraints st' ∧
        markers'.map (·.versionId) = markers.map (·.versionId) ++ created.map some := by
  induction calls with
  | nil =>
    intro since markers st' created hstack hconstraints h
    cases h
    exact ⟨since, markers, rfl, hstack, hconstraints, (append_nil _).symm⟩
  | cons call calls ih =>
    intro since markers st' created hstack hconstraints h
    obtain ⟨ids, now, databaseNow⟩ := call
    obtain ⟨⟨st₁, result⟩, hdelete, h⟩ := of_bind h
    obtain ⟨⟨st₂, created'⟩, hrest, h⟩ := of_bind h
    cases h
    rw [deleteVersionAttempt, states_buried, henabled, ok_bind] at hdelete
    obtain ⟨since₁, markers₁, rfl, hstack₁, hconstraints₁, hids₁, hresult⟩ :=
      buried_deleteCurrent hkey hstack hconstraints hdelete
    obtain ⟨since₂, markers₂, rfl, hstack₂, hconstraints₂, hids₂⟩ := ih hstack₁ hconstraints₁ hrest
    refine ⟨since₂, markers₂, rfl, hstack₂, hconstraints₂, ?_⟩
    rw [hids₂, hids₁, hresult, append_assoc]
    rfl

theorem deleteExacts_buried (hkey : KeyHistory st bucket key)
    (henabled : getVersioningState st.states bucket = .ok .enabled)
    (calls : List (Text × InstallIds × ℤ × ℤ)) :
    ∀ {since : ℤ} {markers : List VersionRow}, MarkerStack st bucket key markers →
      VersionConstraints (buried st bucket key since markers) →
      (calls.map fun call => some call.1).Perm (markers.map (·.versionId)) →
      deleteExacts bucket key calls (buried st bucket key since markers) = .ok st := by
  induction calls with
  | nil =>
    intro since markers _ _ hperm
    have hnil := hperm.symm.eq_nil
    rw [map_eq_nil_iff] at hnil
    rw [hnil]
    rfl
  | cons call calls ih =>
    intro since markers hstack hconstraints hperm
    obtain ⟨value, ids, now, databaseNow⟩ := call
    have hvalue : some value ∈ markers.map (·.versionId) := hperm.subset mem_cons_self
    obtain ⟨markers', deleted, hdelete, hstack', hconstraints', hperm', hparse⟩ :=
      buried_deleteExact hkey hstack hconstraints hvalue
    rw [deleteExacts, hparse, ok_bind, deleteVersionAttempt, states_buried, henabled, ok_bind]
    dsimp only
    rw [ensure_of (by decide), ok_bind, hdelete, ok_bind]
    exact ih hstack' hconstraints' (hperm.trans hperm').cons_inv

/-- **Deletions are taken back by deleting their markers.**  After any number of deletions of the
current version in an enabled bucket, deleting the markers that they returned, in any order, restores
the state exactly. -/
theorem undelete (hkey : KeyHistory st bucket key)
    (henabled : getVersioningState st.states bucket = .ok .enabled)
    {deletions : List (InstallIds × ℤ × ℤ)} {st' : VersionStore} {created : List Text}
    (hdeleted : deleteCurrents bucket key deletions st = .ok (st', created))
    {calls : List (Text × InstallIds × ℤ × ℤ)} (horder : (calls.map (·.1)).Perm created) :
    deleteExacts bucket key calls st' = .ok st := by
  obtain ⟨since, markers, rfl, hstack, hconstraints, hids⟩ :=
    deleteCurrents_buried hkey henabled deletions markerStack_nil
      (show VersionConstraints (buried st bucket key 0 []) from hkey.constraints) hdeleted
  refine deleteExacts_buried hkey henabled calls hstack hconstraints ?_
  rw [hids, map_nil, nil_append]
  have hsome := horder.map some
  rwa [map_map] at hsome

/-- Two content versions of a key in an enabled bucket. -/
def twoContents : VersionStore :=
  Transactions.run transact ⟨[([98], .unversioned)], [], []⟩ (sampleRun.take 3)

theorem keyHistory_twoContents : KeyHistory twoContents [98] [107] where
  consistent := keyConsistent_run
    (show KeyConsistent ⟨[([98], .unversioned)], [], []⟩ [98] [107] from KeyInvariant.nil _) _
  constraints := by
    refine ⟨by decide +kernel, by decide +kernel, fun row hrow value hvalue => ?_⟩
    have hall : ∀ row ∈ twoContents.versions, row.versionId.all isCanonicalUuid = true := by
      decide +kernel
    have hrow := hall row hrow
    rwa [hvalue] at hrow
  objects_nodup := by decide +kernel

/-- The key is deleted twice, and the older marker is deleted first. -/
theorem undelete_twoContents : ∃ st', deleteCurrents [98] [107]
      [(sampleIds 4 4, 20, 20), (sampleIds 5 5, 21, 21)] twoContents =
        .ok (st', [sampleUuidText 4, sampleUuidText 5]) ∧
    deleteExacts [98] [107] [(sampleUuidText 4, sampleIds 6 6, 22, 22),
      (sampleUuidText 5, sampleIds 7 7, 23, 23)] st' = .ok twoContents := by
  have hids : (deleteCurrents [98] [107] [(sampleIds 4 4, 20, 20), (sampleIds 5 5, 21, 21)]
      twoContents).map Prod.snd = .ok [sampleUuidText 4, sampleUuidText 5] := by decide +kernel
  cases hdeleted : deleteCurrents [98] [107] [(sampleIds 4 4, 20, 20), (sampleIds 5 5, 21, 21)]
      twoContents with
  | error e =>
    rw [hdeleted] at hids
    cases hids
  | ok result =>
    rw [hdeleted] at hids
    obtain ⟨st', created⟩ := result
    obtain rfl : created = [sampleUuidText 4, sampleUuidText 5] := Except.ok.inj hids
    exact ⟨st', rfl, undelete keyHistory_twoContents (by decide +kernel) hdeleted
      (List.Perm.refl _)⟩

end Undelete

end IpfS3.Store
