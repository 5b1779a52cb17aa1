import IpfS3.Foundations.Percent
import IpfS3.Foundations.Splitting
import IpfS3.Pinning.Renewal

/-!
# Tagging headers

`pinning/tags.rs` writes the tags of an object as a form and reads them back
(`taggingHeader_roundtrip`).
-/

namespace IpfS3.Pinning

open Lifecycle (ObjectTag)
open Fallible Percent Splitting

/-- `TAGGING_ENCODE_SET`, and the bytes that are not ASCII. -/
def taggingEncodeSet (b : UInt8) : Bool :=
  b < 32 || 127 ≤ b || [32, 33, 34, 35, 36, 37, 38, 39, 40, 41, 42, 43, 44, 47, 58, 59, 60, 61, 62, 63,
    64, 91, 92, 93, 94, 96, 123, 124, 125].contains b

def encodePair (tag : ObjectTag) : Text :=
  percentEncode taggingEncodeSet (utf8 tag.key) ++ 61 :: percentEncode taggingEncodeSet (utf8 tag.value)

def encodeTaggingHeader (tags : List ObjectTag) : Text :=
  [38].intercalate (tags.map encodePair)

def decodeFormComponent (component : Text) : Except String String := do
  ensure (wellEscaped component = true) "invalid percent encoding in tagging header"
  match fromUtf8 (formDecode component) with
  | some decoded => .ok decoded
  | none => .error "invalid UTF-8 in tagging header"

/-- One pair of `decode_tagging_header`. -/
def decodePair (pair : Text) : Except String ObjectTag :=
  match splitOnce 61 pair with
  | none => .error "invalid tagging header pair"
  | some (rawKey, rawValue) => do
    let key ← decodeFormComponent rawKey
    let value ← decodeFormComponent rawValue
    .ok ⟨key, value⟩

/-- `decode_tagging_header`, without the kinds of its errors. -/
def decodeTaggingHeader (header : Text) : Except String (List ObjectTag) :=
  if header = [] then .ok [] else (header.splitOn 38).mapM decodePair

def parseTaggingHeader (header : Text) : Except String (List ObjectTag) := do
  let tags ← decodeTaggingHeader header
  validateTagSet tags
  .ok tags

theorem decodeFormComponent_percentEncode (s : String) :
    decodeFormComponent (percentEncode taggingEncodeSet (utf8 s)) = .ok s := by
  rw [decodeFormComponent, wellEscaped_percentEncode (by decide),
    formDecode_percentEncode (by decide) (by decide), fromUtf8_utf8]
  rfl

theorem decodePair_encodePair (tag : ObjectTag) : decodePair (encodePair tag) = .ok tag := by
  have hsplit : splitOnce 61 (encodePair tag) = some (percentEncode taggingEncodeSet (utf8 tag.key),
      percentEncode taggingEncodeSet (utf8 tag.value)) :=
    splitOnce_eq_some_iff.mpr ⟨rfl, notMem_percentEncode (.inr (.inr rfl)) (by decide)⟩
  simp [decodePair, hsplit, decodeFormComponent_percentEncode]

theorem notMem_encodePair (tag : ObjectTag) : 38 ∉ encodePair tag := by
  have hset : taggingEncodeSet 38 = true := by decide
  simp [encodePair, notMem_percentEncode (.inl rfl) hset]

theorem decodeTaggingHeader_encodeTaggingHeader (tags : List ObjectTag) :
    decodeTaggingHeader (encodeTaggingHeader tags) = .ok tags := by
  cases tags with
  | nil => rfl
  | cons tag tags =>
    have hparts : (encodeTaggingHeader (tag :: tags)).splitOn 38 = (tag :: tags).map encodePair :=
      List.splitOn_intercalate 38 (by simp [notMem_encodePair]) (by simp)
    have hne : encodeTaggingHeader (tag :: tags) ≠ [] := by
      intro hnil
      rw [hnil] at hparts
      simp [encodePair] at hparts
    rw [decodeTaggingHeader, if_neg hne, hparts, mapM_eq_ok_iff, List.forall₂_map_left_iff]
    exact List.forall₂_same.mpr fun tag _ => decodePair_encodePair tag

/-- **Tagging headers are read back.**  The header of an accepted tag set is parsed to the same tags in
the same order, so that two accepted tag sets are never encoded alike. -/
theorem taggingHeader_roundtrip {tags : List ObjectTag} (hvalid : validateTagSet tags = .ok ()) :
    parseTaggingHeader (encodeTaggingHeader tags) = .ok tags ∧
      ∀ other, validateTagSet other = .ok () →
        encodeTaggingHeader other = encodeTaggingHeader tags → other = tags := by
  have hparse : ∀ {tags}, validateTagSet tags = .ok () →
      parseTaggingHeader (encodeTaggingHeader tags) = .ok tags := by
    intro tags hvalid
    rw [parseTaggingHeader, decodeTaggingHeader_encodeTaggingHeader, ok_bind, hvalid, ok_bind]
  refine ⟨hparse hvalid, fun other hother hsame => ?_⟩
  have hback := hparse hother
  rw [hsame, hparse hvalid] at hback
  exact (Except.ok.inj hback).symm

/-- Two tags, one with the separators in its value. -/
theorem taggingHeader_roundtrip_two :
    parseTaggingHeader (encodeTaggingHeader [⟨"team", "R&D=+%"⟩, ⟨"empty", ""⟩]) =
      .ok [⟨"team", "R&D=+%"⟩, ⟨"empty", ""⟩] :=
  (taggingHeader_roundtrip (by decide +kernel)).1

end IpfS3.Pinning
