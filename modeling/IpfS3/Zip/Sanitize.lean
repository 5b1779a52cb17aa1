import IpfS3.AppError
import IpfS3.Foundations.Fallible

/-!
# Names of ZIP entries

`zip/sanitize.rs` turns the name of an archive entry into an object key below a target prefix.  Both
the prefix and the name pass the same check, `validateSegments`, which is `SafePath` below: no
backslash, no slash in front, no drive, and no segment `.` or `..`.

A normalised prefix is empty or ends with a slash, so the segments of a key are those of the prefix
and those of the name, and nothing new arises where the two meet (`SafePath.append`).  The keys of an
extraction therefore stay below the prefix (`outputs_confined`).
-/

namespace IpfS3.Zip

open Fallible List

inductive SanitizedEntry where
  | file (key : Text)
  | directory
  deriving DecidableEq

def isAsciiAlphabetic (byte : UInt8) : Bool :=
  (65 ≤ byte && byte ≤ 90) || (97 ≤ byte && byte ≤ 122)

def hasWindowsDrive : Text → Bool
  | letter :: colon :: _ => isAsciiAlphabetic letter && colon == 58
  | _ => false

def validationError (value : Text) (parameter : Bool) : AppError :=
  if parameter then .invalidZipParameter value else .zipSlip value

def validateSegments (value : Text) (parameter : Bool) : AppResult Unit :=
  if value.contains 92 || value.startsWith [47] || hasWindowsDrive value then
    .error (validationError value parameter)
  else if (value.splitOn 47).any fun segment => segment == [46] || segment == [46, 46] then
    .error (validationError value parameter)
  else .ok ()

/-- `str::trim_matches` on slashes. -/
def trimSlashes (value : Text) : Text := (value.dropWhile (· == 47)).rdropWhile (· == 47)

def normalizeTargetPrefix (pfx : Text) : AppResult Text :=
  if pfx.isEmpty then .ok []
  else do
    validateSegments pfx true
    let trimmed := trimSlashes pfx
    if trimmed.isEmpty then .error (.invalidZipParameter pfx) else .ok (trimmed ++ [47])

def sanitizeEntry (name targetPrefix : Text) : AppResult SanitizedEntry :=
  if name.isEmpty then
    .error (.invalidZipEntry (Text.ascii "empty entry name".toList))
  else do
    validateSegments name false
    let isDirectory := ([47] : Text).isSuffixOf name
    let trimmed := trimSlashes name
    if trimmed.isEmpty then .error (.invalidZipEntry name)
    else if 1024 < targetPrefix.length + trimmed.length then
      .error (.invalidZipEntry (Text.ascii "final object key exceeds 1024 UTF-8 bytes".toList))
    else if isDirectory then .ok .directory
    else
      let key := targetPrefix ++ trimmed
      if !targetPrefix.isEmpty && !key.startsWith targetPrefix then .error (.zipSlip name)
      else .ok (.file key)

/-! ## Safe paths -/

structure SafePath (path : Text) : Prop where
  no_backslash : 92 ∉ path
  relative : ¬[47] <+: path
  no_drive : ∀ letter rest, path = letter :: 58 :: rest → isAsciiAlphabetic letter = false
  no_dots : ∀ segment ∈ path.splitOn 47, segment ≠ [46] ∧ segment ≠ [46, 46]

variable {path : Text}

theorem hasWindowsDrive_eq_false_iff : hasWindowsDrive path = false ↔
    ∀ letter rest, path = letter :: 58 :: rest → isAsciiAlphabetic letter = false := by
  constructor
  · rintro h letter rest rfl
    rw [hasWindowsDrive, beq_self_eq_true, Bool.and_true] at h
    exact h
  · intro h
    unfold hasWindowsDrive
    split
    · rename_i letter colon rest
      by_cases hcolon : colon = 58
      · subst hcolon
        rw [h letter rest rfl, Bool.false_and]
      · rw [beq_eq_false_iff_ne.mpr hcolon, Bool.and_false]
    · rfl

/-- **The check accepts exactly the safe paths.** -/
theorem validateSegments_eq_ok_iff {parameter : Bool} :
    validateSegments path parameter = .ok () ↔ SafePath path := by
  unfold validateSegments
  constructor
  · intro h
    split_ifs at h with hhead hdots
    simp only [Bool.or_eq_true, not_or, Bool.not_eq_true, contains_eq_mem,
      decide_eq_false_iff_not] at hhead
    refine ⟨hhead.1.1, fun hslash => ?_, hasWindowsDrive_eq_false_iff.mp hhead.2,
      fun segment hsegment => ?_⟩
    · exact absurd (Text.startsWith_iff.mpr hslash) (by rw [hhead.1.2]; exact Bool.false_ne_true)
    · have hnot : ¬(segment == [46] || segment == [46, 46]) = true := fun hdot =>
        hdots (any_eq_true.mpr ⟨segment, hsegment, hdot⟩)
      simpa using hnot
  · rintro ⟨hback, hslash, hdrive, hdots⟩
    have hstarts : path.startsWith [47] = false :=
      Bool.eq_false_iff.mpr fun h => hslash (Text.startsWith_iff.mp h)
    have hany : ((path.splitOn 47).any fun segment => segment == [46] || segment == [46, 46]) =
        false := by
      rw [any_eq_false]
      intro segment hsegment
      simpa using hdots segment hsegment
    have hcontains : path.contains 92 = false := by simpa using hback
    rw [hcontains, hstarts, hasWindowsDrive_eq_false_iff.mpr hdrive, hany]
    rfl

theorem SafePath.of_append_cons {rest : Text} (h : SafePath (path ++ 47 :: rest)) :
    SafePath path := by
  refine ⟨fun hmem => h.no_backslash (mem_append_left _ hmem),
    fun hslash => h.relative (hslash.trans (prefix_append _ _)),
    fun letter rest' heq => ?_, fun segment hsegment => h.no_dots segment ?_⟩
  · refine h.no_drive letter (rest' ++ 47 :: rest) ?_
    rw [heq]
    rfl
  · rw [splitOn_append_cons_self]
    exact mem_append_left _ hsegment

/-- **Two safe paths joined by a slash** make a safe path. -/
theorem SafePath.append {rest : Text} (h : SafePath path) (hpath : path ≠ [])
    (hrest : ∀ segment ∈ rest.splitOn 47, segment ≠ [46] ∧ segment ≠ [46, 46]) (hback : 92 ∉ rest) :
    SafePath (path ++ 47 :: rest) := by
  obtain ⟨first, path', rfl⟩ := exists_cons_of_ne_nil hpath
  refine ⟨?_, fun hslash => ?_, fun letter rest' heq => ?_, fun segment hsegment => ?_⟩
  · intro hmem
    rcases mem_append.mp hmem with hmem | hmem
    · exact h.no_backslash hmem
    · rcases mem_cons.mp hmem with hslash | hmem
      · exact absurd hslash (by decide)
      · exact hback hmem
  · obtain ⟨tail, htail⟩ := hslash
    have hfirst : (47 : UInt8) = first := (cons.inj htail).1
    subst hfirst
    exact h.relative (prefix_append [47] path')
  · obtain ⟨rfl, htail⟩ := cons.inj heq
    cases path' with
    | nil => exact absurd (cons.inj htail).1 (by decide)
    | cons second path'' =>
      have hsecond : second = 58 := (cons.inj htail).1
      subst hsecond
      exact h.no_drive first path'' rfl
  · rw [splitOn_append_cons_self] at hsegment
    rcases mem_append.mp hsegment with hsegment | hsegment
    · exact h.no_dots segment hsegment
    · exact hrest segment hsegment

/-! ## Trimming -/

theorem trimSlashes_of_relative (h : ¬[47] <+: path) :
    trimSlashes path = path.rdropWhile (· == 47) := by
  unfold trimSlashes
  cases path with
  | nil => rfl
  | cons first path =>
    rw [dropWhile_cons_of_neg]
    intro hfirst
    rw [beq_iff_eq.mp hfirst] at h
    exact h (prefix_append [47] path)

theorem trimSlashes_eq_self (hfront : ¬[47] <+: path) (hback : ¬[47] <:+ path) :
    trimSlashes path = path := by
  rw [trimSlashes_of_relative hfront, rdropWhile_eq_self_iff]
  intro hne hlast
  refine hback ⟨path.dropLast, ?_⟩
  rw [← beq_iff_eq.mp hlast]
  exact dropLast_append_getLast hne

theorem exists_trimSlashes_append (h : ¬[47] <+: path) :
    (path = trimSlashes path ∨ ∃ rest, path = trimSlashes path ++ 47 :: rest) ∧
      ¬[47] <:+ trimSlashes path := by
  rw [trimSlashes_of_relative h]
  have hsplit : path.rdropWhile (· == 47) ++ path.rtakeWhile (· == 47) = path :=
    rdropWhile_append_rtakeWhile
  refine ⟨?_, ?_⟩
  · cases hslashes : path.rtakeWhile (· == 47) with
    | nil =>
      rw [hslashes, append_nil] at hsplit
      exact Or.inl hsplit.symm
    | cons slash rest =>
      have hmem : slash ∈ path.rtakeWhile (· == 47) := hslashes ▸ mem_cons_self
      have hslash : slash = 47 := by simpa using mem_rtakeWhile_imp hmem
      rw [hslashes, hslash] at hsplit
      exact Or.inr ⟨rest, hsplit.symm⟩
  · rintro ⟨front, hfront⟩
    have hne : path.rdropWhile (· == 47) ≠ [] := by
      rw [← hfront]
      simp
    have hlast := rdropWhile_last_not (· == 47) path hne
    refine hlast ?_
    have hgetLast : (path.rdropWhile (· == 47)).getLast hne = 47 := by
      simp only [← hfront, getLast_concat]
    rw [hgetLast]
    rfl

/-! ## Prefixes -/

/-- The results of `normalizeTargetPrefix`. -/
inductive NormalizedPrefix : Text → Prop
  | none : NormalizedPrefix []
  | below (trimmed : Text) (hne : trimmed ≠ []) (hsafe : SafePath trimmed)
      (hslash : ¬[47] <:+ trimmed) : NormalizedPrefix (trimmed ++ [47])

theorem normalizedPrefix_of_eq_ok {pfx p : Text} (h : normalizeTargetPrefix pfx = .ok p) :
    NormalizedPrefix p := by
  unfold normalizeTargetPrefix at h
  split_ifs at h with hempty
  · cases h
    exact NormalizedPrefix.none
  · obtain ⟨⟨⟩, hvalid, h⟩ := of_bind h
    have hsafe := validateSegments_eq_ok_iff.mp hvalid
    dsimp only at h
    split_ifs at h with htrimmed
    cases h
    obtain ⟨hparts, hslash⟩ := exists_trimSlashes_append hsafe.relative
    refine NormalizedPrefix.below _ (by simpa using htrimmed) ?_ hslash
    rcases hparts with heq | ⟨rest, heq⟩
    · rw [← heq]
      exact hsafe
    · rw [heq] at hsafe
      exact hsafe.of_append_cons

/-- **Normalisation is idempotent.** -/
theorem NormalizedPrefix.normalize_eq {p : Text} (h : NormalizedPrefix p) :
    normalizeTargetPrefix p = .ok p := by
  cases h with
  | none => rfl
  | below trimmed hne hsafe hslash =>
    have hsafe' : SafePath (trimmed ++ [47]) :=
      hsafe.append hne (by decide) not_mem_nil
    have htrim : trimSlashes (trimmed ++ [47]) = trimmed := by
      rw [trimSlashes_of_relative hsafe'.relative, rdropWhile_concat_pos _ _ _ (by rfl),
        ← trimSlashes_of_relative hsafe.relative, trimSlashes_eq_self hsafe.relative hslash]
    unfold normalizeTargetPrefix
    rw [if_neg (by simp), validateSegments_eq_ok_iff.mpr hsafe', ok_bind, htrim]
    rw [if_neg (by simpa using hne)]

/-! ## Entries -/

theorem sanitizeEntry_eq_file {name p key : Text} (h : sanitizeEntry name p = .ok (.file key)) :
    key = p ++ name ∧ key.length ≤ 1024 ∧ SafePath name := by
  unfold sanitizeEntry at h
  split_ifs at h with hempty
  obtain ⟨⟨⟩, hvalid, h⟩ := of_bind h
  have hsafe := validateSegments_eq_ok_iff.mp hvalid
  dsimp only at h
  split_ifs at h with htrimmed hlength hdirectory hescaped
  · cases Except.ok.inj h
  obtain rfl := SanitizedEntry.file.inj (Except.ok.inj h)
  have hslash : ¬[47] <:+ name := fun hsuffix =>
    hdirectory (isSuffixOf_iff_suffix.mpr hsuffix)
  rw [trimSlashes_eq_self hsafe.relative hslash] at hlength ⊢
  refine ⟨rfl, ?_, hsafe⟩
  rw [length_append]
  omega

theorem sanitizeEntry_eq_directory {name p : Text}
    (h : sanitizeEntry name p = .ok .directory) : [47] <:+ name := by
  unfold sanitizeEntry at h
  split_ifs at h with hempty
  obtain ⟨⟨⟩, -, h⟩ := of_bind h
  dsimp only at h
  split_ifs at h with htrimmed hlength hdirectory hescaped
  · exact isSuffixOf_iff_suffix.mp hdirectory
  · cases Except.ok.inj h

theorem NormalizedPrefix.safePath_append {p name : Text} (h : NormalizedPrefix p)
    (hname : SafePath name) : SafePath (p ++ name) := by
  cases h with
  | none => exact hname
  | below trimmed hne hsafe hslash =>
    rw [append_assoc, singleton_append]
    exact hsafe.append hne hname.no_dots hname.no_backslash

/-- What holds of the keys below a prefix: normalising the prefix again changes nothing, every key is
a safe path below it, different names give different keys, and only a name that ends with a slash is
a directory. -/
structure Confines (p : Text) : Prop where
  idempotent : normalizeTargetPrefix p = .ok p
  below : ∀ name key, sanitizeEntry name p = .ok (.file key) →
    p <+: key ∧ key.length ≤ 1024 ∧ SafePath key
  injective : ∀ name name' key, sanitizeEntry name p = .ok (.file key) →
    sanitizeEntry name' p = .ok (.file key) → name = name'
  directory : ∀ name, sanitizeEntry name p = .ok .directory → [47] <:+ name

/-- **The outputs of an extraction stay below its prefix.** -/
theorem outputs_confined {pfx p : Text} (h : normalizeTargetPrefix pfx = .ok p) : Confines p := by
  have hnormalized := normalizedPrefix_of_eq_ok h
  refine ⟨hnormalized.normalize_eq, fun name key hfile => ?_, fun name name' key hfile hfile' => ?_,
    fun name => sanitizeEntry_eq_directory⟩
  · obtain ⟨rfl, hlength, hsafe⟩ := sanitizeEntry_eq_file hfile
    exact ⟨prefix_append p name, hlength, hnormalized.safePath_append hsafe⟩
  · have hkey := (sanitizeEntry_eq_file hfile).1
    rw [(sanitizeEntry_eq_file hfile').1] at hkey
    exact (append_cancel_left hkey).symm

/-- The prefix `a//` becomes `a/`, and the entry `b/c` goes to the key `a/b/c`. -/
theorem outputs_confined_sample : Confines [97, 47] ∧
    sanitizeEntry [98, 47, 99] [97, 47] = .ok (.file [97, 47, 98, 47, 99]) := by
  have h : normalizeTargetPrefix [97, 47, 47] = .ok [97, 47] := by decide +kernel
  exact ⟨outputs_confined h, by decide +kernel⟩

end IpfS3.Zip
