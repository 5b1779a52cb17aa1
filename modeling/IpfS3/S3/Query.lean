import IpfS3.Foundations.Percent
import IpfS3.Foundations.Splitting
import IpfS3.Listing.VersionPages

/-!
# Query strings

`s3/query.rs` decodes the names and values of a query, and the listings encode their keys and markers
for the same reader (`rfc3986_url_encode`).
-/

namespace IpfS3.S3

open Fallible Percent Splitting Listing

inductive QueryError where
  | invalidArgument (message : String)
  deriving DecidableEq

def decodeComponent (raw : Text) : Except QueryError String :=
  match fromUtf8 (formDecode raw) with
  | some value => .ok value
  | none => .error (.invalidArgument "query component is not valid UTF-8")

def queryParts (query : Option Text) : List Text :=
  ((query.getD []).splitOn 38).filter fun part => !part.isEmpty

def decodePart (part : Text) : Except QueryError (String × String) := do
  let (name, value) := (splitOnce 61 part).getD (part, [])
  let name ← decodeComponent name
  let value ← decodeComponent value
  .ok (name, value)

def decodedQueryPairs (query : Option Text) : Except QueryError (List (String × String)) :=
  (queryParts query).mapM decodePart

/-- The test of `query_key_is_present` on one part. -/
def partHasName (expected : String) (part : Text) : Bool :=
  match decodeComponent ((splitOnce 61 part).elim part Prod.fst) with
  | .ok name => name == expected
  | .error _ => false

def queryKeyIsPresent (query : Option Text) (expected : String) : Bool :=
  (queryParts query).any (partHasName expected)

theorem rfc3986UrlEncode_eq (value : Text) :
    rfc3986UrlEncode value = percentEncode (fun b => !isUnreserved b) value := by
  unfold rfc3986UrlEncode percentEncode
  congr 1
  funext b
  cases h : isUnreserved b <;> simp [encodeByte, h]

theorem decodeComponent_rfc3986UrlEncode (s : String) :
    decodeComponent (rfc3986UrlEncode (utf8 s)) = .ok s := by
  unfold decodeComponent
  rw [rfc3986UrlEncode_eq, formDecode_percentEncode (by decide) (by decide), fromUtf8_utf8]

theorem partHasName_iff {part : Text} {pair : String × String} (h : decodePart part = .ok pair)
    (k : String) : partHasName k part = true ↔ k = pair.1 := by
  obtain ⟨name, hname, h⟩ := of_bind h
  obtain ⟨value, -, h⟩ := of_bind h
  cases h
  have hraw : decodeComponent ((splitOnce 61 part).elim part Prod.fst) = .ok name := by
    cases hsplit : splitOnce 61 part <;> simpa [hsplit] using hname
  rw [partHasName, hraw]
  exact beq_iff_eq.trans eq_comm

/-- **Listing fields survive the query.**  Every string is read back from its encoding, so that two
strings are never encoded alike; and wherever the pairs of a query can be decoded, a name is present
exactly when it is one of the decoded names. -/
theorem query_roundtrip :
    (∀ s, decodeComponent (rfc3986UrlEncode (utf8 s)) = .ok s) ∧
    (∀ s t, rfc3986UrlEncode (utf8 s) = rfc3986UrlEncode (utf8 t) → s = t) ∧
    ∀ query pairs, decodedQueryPairs query = .ok pairs →
      ∀ k, queryKeyIsPresent query k = true ↔ k ∈ pairs.map Prod.fst := by
  refine ⟨decodeComponent_rfc3986UrlEncode, fun s t h => ?_, fun query pairs hpairs k => ?_⟩
  · have hs := decodeComponent_rfc3986UrlEncode s
    rw [h, decodeComponent_rfc3986UrlEncode] at hs
    exact (Except.ok.inj hs).symm
  · have hall := mapM_eq_ok_iff.mp hpairs
    rw [queryKeyIsPresent]
    clear hpairs
    generalize queryParts query = parts at hall ⊢
    induction hall with
    | nil => simp
    | cons hpair _ ih =>
      rw [List.any_cons, Bool.or_eq_true, partHasName_iff hpair, List.map_cons, List.mem_cons]
      exact or_congr_right ih

end IpfS3.S3
