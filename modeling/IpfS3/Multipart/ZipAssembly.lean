import IpfS3.Foundations.Window
import IpfS3.Zip.LocalHeader

/-!
# The assembly of a ZIP archive from parts

`s3/ops/multipart.rs`: `plain_parts_concat_stream` reads the parts of an upload one after another and
yields their chunks.  With an audit it compares every part with its size and checksum, and the audit
hashes what passes, counts it and keeps the last 65557 bytes; `finish` looks for the end record of the
archive there.

The streams of the parts are finite lists, in any chunks; a stream that cannot be opened is `none`.
SHA-256, base64 and `hex::encode` are parameters.
-/

namespace IpfS3.Multipart

open Zip List

variable {ε : Type}

/-! ## The audit -/

/-- The greatest `i64`. -/
def i64Max : ℤ := 2 ^ 63 - 1

/-- The values of an `i64`. -/
abbrev I64 := { value : ℤ // -2 ^ 63 ≤ value ∧ value ≤ i64Max }

/-- `i64::checked_add` of a length that is an `i64` itself. -/
def checkedAdd (size : ℤ) (length : ℕ) : Option ℤ :=
  if (length : ℤ) ≤ i64Max ∧ size + length ≤ i64Max then some (size + length) else none

def zipTrailerWindow : ℕ := 65557

inductive ZipAssemblyFailure where
  | invalidPart
  | incompleteBody
  deriving DecidableEq

/-- `S3Error`, with the codes that an assembly returns. -/
inductive S3Error where
  | invalidPart (message : String)
  | incompleteBody (message : String)
  deriving DecidableEq

def zipAssemblyError : ZipAssemblyFailure → S3Error
  | .invalidPart => .invalidPart "ZIP multipart part bytes or checksum do not match"
  | .incompleteBody => .incompleteBody "ZIP multipart CAT stream or ZIP trailer is incomplete"

/-- `ZipV2StreamAudit`; the state of the hash is what was fed to it. -/
structure ZipV2StreamAudit where
  hash : Bytes
  size : ℤ
  tail : Bytes
  eof : Bool
  failure : Option ZipAssemblyFailure
  deriving DecidableEq

def endSignature : Bytes := [0x50, 0x4b, 0x05, 0x06]

namespace ZipV2StreamAudit

def new : ZipV2StreamAudit := ⟨[], 0, [], false, none⟩

variable (audit : ZipV2StreamAudit)

def observe (bytes : Bytes) : Except ZipAssemblyFailure ZipV2StreamAudit :=
  match checkedAdd audit.size bytes.length with
  | none => .error .invalidPart
  | some size =>
    .ok { audit with
      size
      hash := audit.hash ++ bytes
      tail :=
        if zipTrailerWindow ≤ bytes.length then bytes.drop (bytes.length - zipTrailerWindow)
        else audit.tail.drop (audit.tail.length + bytes.length - zipTrailerWindow) ++ bytes }

def endRecordAt (index : ℕ) : Bool :=
  (audit.tail.drop index).take 4 == endSignature &&
    match audit.tail[index + 20]?, audit.tail[index + 21]? with
    | some low, some high =>
      index + 22 + (low.toNat + 256 * high.toNat) == audit.tail.length
    | _, _ => false

def finish (sha256 : Bytes → Bytes) (hexEncode : Bytes → Text) (expectedSize : ℤ) :
    Except S3Error Text :=
  match audit.failure with
  | some failure => .error (zipAssemblyError failure)
  | none =>
    if audit.eof = false ∨ audit.size ≠ expectedSize then .error (zipAssemblyError .incompleteBody)
    else if (range (audit.tail.length + 1 - 4)).any audit.endRecordAt then
      .ok (hexEncode (sha256 audit.hash))
    else .error (zipAssemblyError .incompleteBody)

def failed (failure : ZipAssemblyFailure) : ZipV2StreamAudit :=
  { audit with failure := some failure }

end ZipV2StreamAudit

/-! ## The stream -/

/-- A part: its CID, its size, and its SHA-256 in base64. -/
structure PlainPart where
  cid : Text
  expectedSize : I64
  expectedSha256 : Option Text

/-- The stream of a part; `none` when it cannot be opened. -/
abbrev CatStream (ε : Type) := Option (List (Except ε Bytes))

/-- An error of the stream: one of its own, or that of a part. -/
inductive ConcatError (ε : Type) where
  | other (message : String)
  | source (error : ε)

/-- What the stream yields, each with the audit at that time; the audit at the end; and whether the
stream has returned. -/
structure Emission (ε : Type) where
  items : List (Except (ConcatError ε) Bytes × Option ZipV2StreamAudit)
  audit : Option ZipV2StreamAudit
  returned : Bool

namespace Emission

def fail (audit : Option ZipV2StreamAudit) (failure : ZipAssemblyFailure) (error : ConcatError ε) :
    Emission ε :=
  ⟨[(.error error, audit.map fun audit => audit.failed failure)],
    audit.map fun audit => audit.failed failure, true⟩

def yield (chunk : Bytes) (audit : Option ZipV2StreamAudit) (rest : Emission ε) : Emission ε :=
  { rest with items := (.ok chunk, audit) :: rest.items }

/-- The stream goes on unless it has returned. -/
def andThen (first : Emission ε) (rest : Option ZipV2StreamAudit → Emission ε) : Emission ε :=
  if first.returned = true then first
  else { rest first.audit with items := first.items ++ (rest first.audit).items }

end Emission

section Stream

variable (sha256 : Bytes → Bytes) (base64 : Bytes → Text)

/-- Whether what was read of a part differs from what is expected. -/
def PlainPart.mismatch (part : PlainPart) (observed : ℤ) (partHash : Bytes) : Bool :=
  decide (observed ≠ part.expectedSize.val) ||
    part.expectedSha256.any fun sha => base64 (sha256 partHash) != sha

def concatPart (part : PlainPart) :
    ℤ → Bytes → Option ZipV2StreamAudit → List (Except ε Bytes) → Emission ε
  | observed, partHash, audit, [] =>
    if (audit.isSome && part.mismatch sha256 base64 observed partHash) = true then
      .fail audit .invalidPart (.other "ZIP multipart part size or checksum mismatch")
    else ⟨[], audit, false⟩
  | _, _, audit, .error error :: _ => .fail audit .incompleteBody (.source error)
  | observed, partHash, none, .ok chunk :: items =>
    .yield chunk none (concatPart part observed partHash none items)
  | observed, partHash, some audit, .ok chunk :: items =>
    match (checkedAdd observed chunk.length).filter fun size => decide (size ≤ part.expectedSize.val) with
    | none => .fail (some audit) .invalidPart (.other "ZIP multipart part size mismatch")
    | some observed =>
      match audit.observe chunk with
      | .error failure => .fail (some audit) failure (.other "ZIP multipart size overflow")
      | .ok audit =>
        .yield chunk (some audit)
          (concatPart part observed (partHash ++ chunk) (some audit) items)

def plainPartsConcatStream :
    List (PlainPart × CatStream ε) → Option ZipV2StreamAudit → Emission ε
  | [], audit => ⟨[], audit.map fun audit => { audit with eof := true }, false⟩
  | (_, none) :: _, audit =>
    .fail audit .incompleteBody (.other "internal storage backend error")
  | (part, some items) :: parts, audit =>
    (concatPart sha256 base64 part 0 [] audit items).andThen (plainPartsConcatStream parts)

end Stream

/-! ## What is attested -/

def okBytes : List (Except ε Bytes) → Bytes
  | [] => []
  | .ok chunk :: items => chunk ++ okBytes items
  | .error _ :: items => okBytes items

def Emission.yielded (e : Emission ε) : Bytes := okBytes (e.items.map Prod.fst)

def archiveOf (parts : List (PlainPart × CatStream ε)) : Bytes :=
  parts.flatMap fun part => okBytes (part.2.getD [])

/-- A stream that ends without an error. -/
def EndsCleanly (items : List (Except ε Bytes)) : Prop := ∀ item ∈ items, ∃ chunk, item = .ok chunk

/-- A part whose stream ends cleanly with the expected size and checksum. -/
def PlainPart.Delivered (sha256 : Bytes → Bytes) (base64 : Bytes → Text) (part : PlainPart)
    (stream : CatStream ε) : Prop :=
  ∃ items, stream = some items ∧ EndsCleanly items ∧
    ((okBytes items).length : ℤ) = part.expectedSize.val ∧
      ∀ sha, part.expectedSha256 = some sha → base64 (sha256 (okBytes items)) = sha

def IsEndRecord (suffix : Bytes) : Prop :=
  suffix.take 4 = endSignature ∧ 22 ≤ suffix.length ∧ 22 + u16At suffix 20 = suffix.length

def HasEndRecord (archive : Bytes) : Prop := ∃ offset, IsEndRecord (archive.drop offset)

structure Attests (audit : ZipV2StreamAudit) (bytes : Bytes) : Prop where
  hash_eq : audit.hash = bytes
  size_eq : audit.size = bytes.length
  tail_eq : audit.tail = bytes.rtake zipTrailerWindow
  size_le : (bytes.length : ℤ) ≤ i64Max

/-- The items of a stream, from the bytes that were seen before them: the audit attests what has been
yielded, and nothing follows an error. -/
def Traced : Bytes → List (Except (ConcatError ε) Bytes × Option ZipV2StreamAudit) → Prop
  | _, [] => True
  | seen, (.ok chunk, audit) :: items =>
    (∃ a, audit = some a ∧ Attests a (seen ++ chunk) ∧ a.failure = none) ∧ Traced (seen ++ chunk) items
  | seen, (.error _, audit) :: items =>
    (∃ a, audit = some a ∧ Attests a seen ∧ a.failure.isSome = true) ∧ items = []

/-! ## The audit keeps the end of the archive -/

section Audit

variable {audit : ZipV2StreamAudit} {bytes chunk : Bytes}

theorem checkedAdd_eq_some_iff {size next : ℤ} {length : ℕ} (hsize : 0 ≤ size) :
    checkedAdd size length = some next ↔ size + length ≤ i64Max ∧ next = size + length := by
  unfold checkedAdd
  split_ifs with h
  · rw [Option.some.injEq, eq_comm]
    exact ⟨fun heq => ⟨h.2, heq⟩, fun heq => heq.2⟩
  · refine iff_of_false (fun hc => by cases hc) fun hc => h ⟨?_, hc.1⟩
    omega

theorem attests_new : Attests .new [] where
  hash_eq := rfl
  size_eq := rfl
  tail_eq := rfl
  size_le := by
    unfold i64Max
    norm_num

/-- **A chunk of any length**: the tail stays the end of what was seen. -/
theorem Attests.observe (h : Attests audit bytes)
    (hle : ((bytes ++ chunk).length : ℤ) ≤ i64Max) :
    ∃ next, audit.observe chunk = .ok next ∧ Attests next (bytes ++ chunk) ∧
      next.failure = audit.failure ∧ next.eof = audit.eof := by
  have hadd : checkedAdd audit.size chunk.length = some (audit.size + chunk.length) := by
    rw [checkedAdd_eq_some_iff (by rw [h.size_eq]; exact Int.natCast_nonneg _), h.size_eq]
    refine ⟨?_, rfl⟩
    rw [length_append] at hle
    exact_mod_cast hle
  unfold ZipV2StreamAudit.observe
  rw [hadd]
  refine ⟨_, rfl, ⟨congrArg (· ++ chunk) h.hash_eq, ?_, ?_, hle⟩, rfl, rfl⟩
  · show audit.size + chunk.length = _
    rw [h.size_eq, length_append]
    exact (Nat.cast_add _ _).symm
  · dsimp only
    split_ifs with hlong
    · exact (Window.rtake_append_of_le hlong).symm
    · rw [h.tail_eq]
      exact (Window.rtake_append_of_ge (Nat.le_of_not_le hlong)).symm

theorem Attests.observe_error (h : Attests audit bytes)
    (hlt : i64Max < ((bytes ++ chunk).length : ℤ)) : audit.observe chunk = .error .invalidPart := by
  have hadd : checkedAdd audit.size chunk.length = none := by
    rw [Option.eq_none_iff_forall_ne_some]
    intro next hnext
    rw [checkedAdd_eq_some_iff (by rw [h.size_eq]; exact Int.natCast_nonneg _), h.size_eq] at hnext
    rw [length_append, Nat.cast_add] at hlt
    omega
  unfold ZipV2StreamAudit.observe
  rw [hadd]

theorem IsEndRecord.length_le {suffix : Bytes} (h : IsEndRecord suffix) :
    suffix.length ≤ zipTrailerWindow := by
  have hlength := h.2.2
  unfold u16At at hlength
  have hlow := (suffix.getD 20 0).toNat_lt
  have hhigh := (suffix.getD (20 + 1) 0).toNat_lt
  unfold zipTrailerWindow
  omega

theorem endRecordAt_iff {index : ℕ} :
    audit.endRecordAt index = true ↔ IsEndRecord (audit.tail.drop index) := by
  unfold ZipV2StreamAudit.endRecordAt IsEndRecord u16At
  rw [Bool.and_eq_true, beq_iff_eq]
  refine and_congr_right fun _ => ?_
  rw [length_drop]
  by_cases hlong : index + 22 ≤ audit.tail.length
  · rw [getElem?_eq_getElem (by omega), getElem?_eq_getElem (by omega)]
    dsimp only
    rw [beq_iff_eq, getD_eq_getElem?_getD, getD_eq_getElem?_getD, getElem?_drop,
      getElem?_drop, getElem?_eq_getElem (by omega), getElem?_eq_getElem (by omega)]
    simp only [Option.getD_some, Nat.reduceAdd]
    omega
  · refine iff_of_false (fun hc => ?_) fun hc => by omega
    split at hc
    · rename_i low high _ hhigh
      have hlt := (List.getElem?_eq_some_iff.mp hhigh).1
      omega
    · cases hc

theorem Attests.any_endRecordAt_iff (h : Attests audit bytes) :
    (range (audit.tail.length + 1 - 4)).any audit.endRecordAt = true ↔ HasEndRecord bytes := by
  rw [HasEndRecord, ← Window.exists_drop_rtake_iff fun _ hrecord => hrecord.length_le, ← h.tail_eq,
    any_eq_true]
  constructor
  · rintro ⟨index, -, hrecord⟩
    exact ⟨index, endRecordAt_iff.mp hrecord⟩
  · rintro ⟨index, hrecord⟩
    refine ⟨index, mem_range.mpr ?_, endRecordAt_iff.mpr hrecord⟩
    have hlong := hrecord.2.1
    rw [length_drop] at hlong
    omega

theorem Attests.finish_eq_ok_iff (h : Attests audit bytes) (hfailure : audit.failure = none)
    (heof : audit.eof = true) {sha256 : Bytes → Bytes} {hexEncode : Bytes → Text} {expectedSize : ℤ}
    {digest : Text} : audit.finish sha256 hexEncode expectedSize = .ok digest ↔
      (bytes.length : ℤ) = expectedSize ∧ HasEndRecord bytes ∧
        digest = hexEncode (sha256 bytes) := by
  unfold ZipV2StreamAudit.finish
  rw [hfailure]
  dsimp only
  by_cases hsize : (bytes.length : ℤ) = expectedSize
  · have hends : ¬(audit.eof = false ∨ audit.size ≠ expectedSize) := by
      simp [heof, h.size_eq, hsize]
    rw [if_neg hends, h.hash_eq]
    by_cases hrecord : HasEndRecord bytes
    · rw [if_pos (h.any_endRecordAt_iff.mpr hrecord), and_iff_right hsize, and_iff_right hrecord,
        Except.ok.injEq, eq_comm]
    · rw [if_neg fun hc => hrecord (h.any_endRecordAt_iff.mp hc)]
      exact iff_of_false (fun hc => by cases hc) fun hc => hrecord hc.2.1
  · rw [if_pos (Or.inr (h.size_eq ▸ hsize))]
    exact iff_of_false (fun hc => by cases hc) fun hc => hsize hc.1

end Audit

/-! ## The stream and its audit -/

theorem okBytes_append (items items' : List (Except ε Bytes)) :
    okBytes (items ++ items') = okBytes items ++ okBytes items' := by
  induction items with
  | nil => rfl
  | cons item items ih =>
    cases item with
    | ok chunk => rw [cons_append, okBytes, ih, okBytes, append_assoc]
    | error _ => exact ih

/-- What a stream does that has seen some bytes: it fails with one error, or all passes and the audit
has then seen the final bytes. -/
inductive Outcome (seen final : Bytes) (eof : Bool) (ok : Prop) (e : Emission ε) : Prop
  | failed (hnot : ¬ok) (hreturned : e.returned = true) (htraced : Traced seen e.items)
      (haudit : ∃ a, e.audit = some a ∧ Attests a (seen ++ e.yielded) ∧ a.failure.isSome = true)
      (herror : ∃ item ∈ e.items, ∃ error, item.1 = .error error)
  | passed (hok : ok) (hreturned : e.returned = false)
      (htraced : ∀ more, Traced final more → Traced seen (e.items ++ more))
      (hyielded : seen ++ e.yielded = final)
      (haudit : ∃ a, e.audit = some a ∧ Attests a final ∧ a.failure = none ∧ a.eof = eof)
      (hquiet : ∀ item ∈ e.items, ∃ chunk, item.1 = .ok chunk)

section Outcomes

variable {seen middle final chunk : Bytes} {eof : Bool} {ok ok' : Prop} {e : Emission ε}
  {a : ZipV2StreamAudit}

theorem Outcome.congr (h : Outcome seen final eof ok e) (hiff : ok ↔ ok') :
    Outcome seen final eof ok' e := by
  rwa [← propext hiff]

theorem outcome_fail (ha : Attests a seen) (hnot : ¬ok) (failure : ZipAssemblyFailure)
    (error : ConcatError ε) : Outcome seen final eof ok (.fail (some a) failure error) := by
  have hfailed : Attests (a.failed failure) seen := { ha with }
  refine .failed hnot rfl ⟨⟨a.failed failure, rfl, hfailed, rfl⟩, rfl⟩ ⟨_, rfl, ?_, rfl⟩ ?_
  · exact (append_nil seen).symm ▸ hfailed
  · exact ⟨_, mem_singleton_self _, error, rfl⟩

theorem Outcome.yield (h : Outcome (seen ++ chunk) final eof ok e) (ha : Attests a (seen ++ chunk))
    (hfailure : a.failure = none) : Outcome seen final eof ok (.yield chunk (some a) e) := by
  have hfirst : ∃ b, some a = some b ∧ Attests b (seen ++ chunk) ∧ b.failure = none :=
    ⟨a, rfl, ha, hfailure⟩
  have hyielded : seen ++ (Emission.yield chunk (some a) e).yielded = seen ++ chunk ++ e.yielded :=
    (append_assoc _ _ _).symm
  cases h with
  | failed hnot hreturned htraced haudit herror =>
    rw [← hyielded] at haudit
    refine .failed hnot hreturned ⟨hfirst, htraced⟩ haudit ?_
    obtain ⟨item, hitem, herror⟩ := herror
    exact ⟨item, mem_cons_of_mem _ hitem, herror⟩
  | passed hok hreturned htraced hfinal haudit hquiet =>
    refine .passed hok hreturned (fun more hmore => ⟨hfirst, htraced more hmore⟩)
      (hyielded.trans hfinal) haudit ?_
    intro item hitem
    rcases mem_cons.mp hitem with rfl | hitem
    · exact ⟨chunk, rfl⟩
    · exact hquiet item hitem

/-- **One stream after another.** -/
theorem Outcome.andThen {rest : Option ZipV2StreamAudit → Emission ε}
    (h : Outcome seen middle false ok e)
    (hrest : ∀ b, Attests b middle → b.failure = none → b.eof = false →
      Outcome middle final eof ok' (rest (some b))) :
    Outcome seen final eof (ok ∧ ok') (e.andThen rest) := by
  unfold Emission.andThen
  cases h with
  | failed hnot hreturned htraced haudit herror =>
    rw [if_pos hreturned]
    exact .failed (fun hc => hnot hc.1) hreturned htraced haudit herror
  | passed hok hreturned htraced hmiddle haudit hquiet =>
    obtain ⟨b, hb, hattests, hfailure, heof⟩ := haudit
    rw [if_neg fun hc => Bool.false_ne_true (hreturned.symm.trans hc), hb]
    have hrest := hrest b hattests hfailure heof
    generalize rest (some b) = r at hrest
    have hyielded : seen ++ ({ r with items := e.items ++ r.items } : Emission ε).yielded =
        middle ++ r.yielded := by
      rw [← hmiddle, append_assoc, Emission.yielded, map_append, okBytes_append]
      rfl
    cases hrest with
    | failed hnot hreturned' htraced' haudit' herror' =>
      rw [← hyielded] at haudit'
      refine .failed (fun hc => hnot hc.2) hreturned' (htraced _ htraced') haudit' ?_
      obtain ⟨item, hitem, herror⟩ := herror'
      exact ⟨item, mem_append_right _ hitem, herror⟩
    | passed hok' hreturned' htraced' hfinal haudit' hquiet' =>
      refine .passed ⟨hok, hok'⟩ hreturned' ?_ (hyielded.trans hfinal) haudit' ?_
      · intro more hmore
        rw [append_assoc]
        exact htraced _ (htraced' more hmore)
      · intro item hitem
        rcases mem_append.mp hitem with hitem | hitem
        · exact hquiet item hitem
        · exact hquiet' item hitem

end Outcomes

section Parts

variable (sha256 : Bytes → Bytes) (base64 : Bytes → Text) (part : PlainPart)

/-- What is left of a part, after some bytes of it. -/
def Completes (read : Bytes) (items : List (Except ε Bytes)) : Prop :=
  EndsCleanly items ∧ ((read ++ okBytes items).length : ℤ) = part.expectedSize.val ∧
    ∀ sha, part.expectedSha256 = some sha → base64 (sha256 (read ++ okBytes items)) = sha

variable {sha256 base64 part}

theorem mismatch_eq_false_iff {read : Bytes} :
    part.mismatch sha256 base64 read.length read = false ↔
      (read.length : ℤ) = part.expectedSize.val ∧
        ∀ sha, part.expectedSha256 = some sha → base64 (sha256 read) = sha := by
  unfold PlainPart.mismatch
  rw [Bool.or_eq_false_iff, decide_eq_false_iff_not, not_not]
  refine and_congr_right fun _ => ?_
  cases part.expectedSha256 with
  | none => simp
  | some sha => simp

variable {items : List (Except ε Bytes)}

theorem endsCleanly_cons {chunk : Bytes} :
    EndsCleanly (.ok chunk :: items) ↔ EndsCleanly items := by
  simp [EndsCleanly]

theorem completes_cons {read chunk : Bytes} :
    Completes sha256 base64 part read (.ok chunk :: items) ↔
      Completes sha256 base64 part (read ++ chunk) items := by
  unfold Completes
  rw [endsCleanly_cons, okBytes, ← append_assoc]

theorem filter_checkedAdd_eq {read chunk : Bytes} :
    (checkedAdd read.length chunk.length).filter
        (fun size => decide (size ≤ part.expectedSize.val)) =
      if ((read ++ chunk).length : ℤ) ≤ part.expectedSize.val then
        some ((read ++ chunk).length : ℤ) else none := by
  have hmax := part.expectedSize.property.2
  have hlength : ((read ++ chunk).length : ℤ) = read.length + chunk.length := by
    rw [length_append, Nat.cast_add]
  rw [hlength]
  unfold checkedAdd
  split_ifs with hfits hle hle
  · rw [Option.filter_some, decide_eq_true hle, if_pos rfl]
  · rw [Option.filter_some, decide_eq_false hle, if_neg Bool.false_ne_true]
  · exact absurd ⟨by omega, hle.trans hmax⟩ hfits
  · rfl

/-- **The chunks of a part**, from an audit that has seen some bytes. -/
theorem outcome_concatPart (read : Bytes) {a : ZipV2StreamAudit} {seen : Bytes}
    (ha : Attests a seen) (hfailure : a.failure = none) (heof : a.eof = false) :
    Outcome seen (seen ++ okBytes items) false
      (Completes sha256 base64 part read items ∧
        ((seen ++ okBytes items).length : ℤ) ≤ i64Max)
      (concatPart sha256 base64 part read.length read (some a) items) := by
  induction items generalizing a seen read with
  | nil =>
    have hcompletes : Completes sha256 base64 part read ([] : List (Except ε Bytes)) ↔
        part.mismatch sha256 base64 read.length read = false := by
      rw [mismatch_eq_false_iff, Completes, okBytes, append_nil]
      exact and_iff_right fun _ hitem => by cases hitem
    rw [okBytes, append_nil, concatPart]
    split_ifs with hmismatch
    · rw [Option.isSome_some, Bool.true_and] at hmismatch
      refine outcome_fail ha (fun hc => ?_) _ _
      exact Bool.false_ne_true ((hcompletes.mp hc.1).symm.trans hmismatch)
    · rw [Option.isSome_some, Bool.true_and, Bool.not_eq_true] at hmismatch
      refine .passed ⟨hcompletes.mpr hmismatch, ha.size_le⟩ rfl (fun _ hmore => hmore)
        (append_nil _) ⟨a, rfl, ha, hfailure, heof⟩ fun _ hitem => by cases hitem
  | cons item items ih =>
    cases item with
    | error error =>
      refine outcome_fail ha (fun hc => ?_) _ _
      obtain ⟨chunk, hchunk⟩ := hc.1.1 _ mem_cons_self
      cases hchunk
    | ok chunk =>
      rw [concatPart, filter_checkedAdd_eq]
      split_ifs with hsize
      · dsimp only
        by_cases hfits : ((seen ++ chunk).length : ℤ) ≤ i64Max
        · obtain ⟨next, hnext, hattests, hfailure', heof'⟩ := ha.observe hfits
          rw [hnext]
          have hrest := ih (read ++ chunk) hattests (hfailure'.trans hfailure) (heof'.trans heof)
          rw [append_assoc, ← okBytes] at hrest
          exact (hrest.congr (and_congr_left' completes_cons.symm)).yield hattests
            (hfailure'.trans hfailure)
        · rw [ha.observe_error (not_le.mp hfits)]
          refine outcome_fail ha (fun hc => hfits ?_) _ _
          have hle := hc.2
          rw [okBytes, ← append_assoc, length_append] at hle
          omega
      · refine outcome_fail ha (fun hc => hsize ?_) _ _
        have hlength := (completes_cons.mp hc.1).2.1
        rw [length_append] at hlength
        omega

theorem delivered_some_iff :
    part.Delivered sha256 base64 (some items) ↔ Completes sha256 base64 part [] items := by
  constructor
  · rintro ⟨other, hother, hdelivered⟩
    cases hother
    exact hdelivered
  · intro h
    exact ⟨items, rfl, h⟩

/-- **All parts.** -/
theorem outcome_plainPartsConcatStream {a : ZipV2StreamAudit} {seen : Bytes}
    {parts : List (PlainPart × CatStream ε)} (ha : Attests a seen) (hfailure : a.failure = none)
    (heof : a.eof = false) :
    Outcome seen (seen ++ archiveOf parts) true
      ((∀ p ∈ parts, p.1.Delivered sha256 base64 p.2) ∧
        ((seen ++ archiveOf parts).length : ℤ) ≤ i64Max)
      (plainPartsConcatStream sha256 base64 parts (some a)) := by
  induction parts generalizing a seen with
  | nil =>
    rw [archiveOf, flatMap_nil, append_nil]
    refine .passed ⟨fun _ hpart => (by cases hpart), ha.size_le⟩ rfl (fun _ hmore => hmore)
      (append_nil _) ?_ fun _ hitem => by cases hitem
    exact ⟨_, rfl, { ha with }, hfailure, rfl⟩
  | cons p parts ih =>
    obtain ⟨part, stream⟩ := p
    cases stream with
    | none =>
      refine outcome_fail ha (fun hc => ?_) _ _
      obtain ⟨items, hitems, -⟩ := hc.1 _ mem_cons_self
      cases hitems
    | some items =>
      have harchive : seen ++ archiveOf ((part, some items) :: parts) =
          seen ++ okBytes items ++ archiveOf parts := by
        rw [archiveOf, flatMap_cons, ← archiveOf, append_assoc]
        rfl
      rw [harchive]
      refine ((outcome_concatPart [] ha hfailure heof).andThen fun b hb hnone hopen =>
        ih hb hnone hopen).congr ?_
      rw [forall_mem_cons, delivered_some_iff]
      constructor
      · rintro ⟨⟨hfirst, -⟩, hrest, hfits⟩
        exact ⟨⟨hfirst, hrest⟩, hfits⟩
      · rintro ⟨⟨hfirst, hrest⟩, hfits⟩
        refine ⟨⟨hfirst, ?_⟩, hrest, hfits⟩
        rw [length_append] at hfits
        omega

end Parts

/-- **A ZIP archive is attested exactly when it is whole.**  For all parts, streams in any chunks and
an expected size: `finish` accepts exactly when every stream ends cleanly with the size and the
checksum of its part, the total is the expected size, and the concatenation has an end record that
reaches to its end; what was yielded is then the concatenation, and the digest is its digest.
Whenever something is yielded, and at the end, the audit attests what was yielded, and its tail is the
end of that; a stream that fails yields one error, and nothing after. -/
theorem zipAssembly_spec (sha256 : Bytes → Bytes) (base64 hexEncode : Bytes → Text)
    (parts : List (PlainPart × CatStream ε)) (expectedSize : I64) :
    ∃ audit, (plainPartsConcatStream sha256 base64 parts (some .new)).audit = some audit ∧
      Attests audit (plainPartsConcatStream sha256 base64 parts (some .new)).yielded ∧
      ((∃ digest, audit.finish sha256 hexEncode expectedSize = .ok digest) ↔
        (∀ part ∈ parts, part.1.Delivered sha256 base64 part.2) ∧
          ((archiveOf parts).length : ℤ) = expectedSize.val ∧ HasEndRecord (archiveOf parts)) ∧
      (∀ digest, audit.finish sha256 hexEncode expectedSize = .ok digest →
        (plainPartsConcatStream sha256 base64 parts (some .new)).yielded = archiveOf parts ∧
          digest = hexEncode (sha256 (archiveOf parts))) ∧
      Traced [] (plainPartsConcatStream sha256 base64 parts (some .new)).items ∧
      (audit.failure.isSome = true ↔
        ∃ item ∈ (plainPartsConcatStream sha256 base64 parts (some .new)).items,
          ∃ error, item.1 = .error error) := by
  have houtcome : Outcome [] (archiveOf parts) true
      ((∀ p ∈ parts, p.1.Delivered sha256 base64 p.2) ∧
        ((archiveOf parts).length : ℤ) ≤ i64Max)
      (plainPartsConcatStream sha256 base64 parts (some .new)) := by
    simpa using outcome_plainPartsConcatStream attests_new rfl rfl
  have hmax := expectedSize.property.2
  cases houtcome with
  | failed hnot hreturned htraced haudit herror =>
    obtain ⟨audit, haudit, hattests, hfailure⟩ := haudit
    have hrefused : ∀ digest, audit.finish sha256 hexEncode expectedSize ≠ .ok digest := by
      obtain ⟨failure, hfailure⟩ := Option.isSome_iff_exists.mp hfailure
      intro digest hfinish
      unfold ZipV2StreamAudit.finish at hfinish
      rw [hfailure] at hfinish
      cases hfinish
    refine ⟨audit, haudit, hattests, ?_, ?_, htraced, iff_of_true hfailure herror⟩
    · refine iff_of_false (fun hc => ?_) fun hc => hnot ⟨hc.1, by omega⟩
      obtain ⟨digest, hfinish⟩ := hc
      exact hrefused digest hfinish
    · intro digest hfinish
      exact absurd hfinish (hrefused digest)
  | passed hok hreturned htraced hyielded haudit hquiet =>
    obtain ⟨audit, haudit, hattests, hfailure, heof⟩ := haudit
    have hfinish (digest : Text) : audit.finish sha256 hexEncode expectedSize = .ok digest ↔ _ :=
      hattests.finish_eq_ok_iff hfailure heof
    rw [nil_append] at hyielded
    refine ⟨audit, haudit, hyielded ▸ hattests, ?_, ?_, ?_, ?_⟩
    · constructor
      · rintro ⟨digest, hdigest⟩
        obtain ⟨hsize, hrecord, -⟩ := (hfinish digest).mp hdigest
        exact ⟨hok.1, hsize, hrecord⟩
      · rintro ⟨-, hsize, hrecord⟩
        exact ⟨_, (hfinish _).mpr ⟨hsize, hrecord, rfl⟩⟩
    · intro digest hdigest
      exact ⟨hyielded, ((hfinish digest).mp hdigest).2.2⟩
    · simpa using htraced [] trivial
    · rw [hfailure]
      refine iff_of_false (fun hc => by cases hc) ?_
      rintro ⟨item, hitem, error, herror⟩
      obtain ⟨chunk, hchunk⟩ := hquiet item hitem
      rw [hchunk] at herror
      cases herror

end IpfS3.Multipart
