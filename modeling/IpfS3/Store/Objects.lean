import IpfS3.Text
import IpfS3.Foundations.Keyset

/-!
# The objects table

The rows of `store/object.rs` that a listing reads, and `list`, the one query behind
`ListObjects` and `ListObjectsV2`.

The column filter `starts_with` is a `LIKE` of the database and depends on the backend, so `list`
takes it as the parameter `keyStartsWith`.  Whatever it is, a batch of the query is a batch of one
fixed ascending list (`list_eq`).
-/

namespace IpfS3.Store

open Keyset

/-- A row of the `objects` table, with the columns a listing reads. -/
structure Object where
  id : Text
  bucket : Text
  key : Text
  cid : Text
  size : ℤ
  etag : Text
  createdAt : ℤ
  isLatest : Bool
  deriving DecidableEq

/-- `ListingObject`: the columns `list` selects. -/
structure ListingObject where
  id : Text
  bucket : Text
  key : Text
  cid : Text
  size : ℤ
  etag : Text
  createdAt : ℤ
  deriving DecidableEq

def Object.listing (o : Object) : ListingObject :=
  ⟨o.id, o.bucket, o.key, o.cid, o.size, o.etag, o.createdAt⟩

@[simp] theorem Object.listing_key (o : Object) : o.listing.key = o.key := rfl

/-- The bucket names and object rows of one database state.  The unique index on latest rows makes
latest keys distinct; the object routes reject an empty key, so no row has one. -/
structure Catalog where
  buckets : List Text
  objects : List Object
  latest_unique : objects.Pairwise fun a b =>
    a.isLatest = true → b.isLatest = true → a.bucket = b.bucket → a.key ≠ b.key
  key_ne_nil : ∀ o ∈ objects, o.key ≠ []

/-- `bucket::exists`. -/
def bucketExists (db : Catalog) (bucket : Text) : Bool := db.buckets.contains bucket

section List

variable (keyStartsWith : Text → Text → Bool) (db : Catalog) (bucket : Text) (pfx : Option Text)

/-- The `WHERE` clause of `list` without the continuation token. -/
def listFilter (o : Object) : Bool :=
  o.bucket == bucket && o.isLatest && pfx.all (keyStartsWith o.key)

/-- `list`: the latest rows of a bucket under a prefix and after a token, in key order, at most
`maxKeys` of them.  An empty token is no token. -/
def list (continuationToken : Option Text) (maxKeys : ℕ) : List ListingObject :=
  let rows := db.objects.filter fun o =>
    continuationToken.all (fun token => token.isEmpty || decide (token < o.key)) &&
      listFilter keyStartsWith bucket pfx o
  (sortBy ListingObject.key (rows.map Object.listing)).take maxKeys

/-- Every row `list` can return, in key order. -/
def matching : List ListingObject :=
  sortBy ListingObject.key
    ((db.objects.filter (listFilter keyStartsWith bucket pfx)).map Object.listing)

variable {keyStartsWith db bucket pfx}

theorem mem_matching {row : ListingObject} :
    row ∈ matching keyStartsWith db bucket pfx ↔
      ∃ o ∈ db.objects, o.bucket = bucket ∧ o.isLatest = true ∧
        pfx.all (keyStartsWith o.key) = true ∧ o.listing = row := by
  simp [matching, listFilter, and_assoc]

theorem length_matching_le :
    (matching keyStartsWith db bucket pfx).length ≤ db.objects.length := by
  rw [matching, (sortBy_perm _ _).length_eq, List.length_map]
  exact List.length_filter_le _ _

theorem key_ne_nil_of_mem_matching {row : ListingObject}
    (h : row ∈ matching keyStartsWith db bucket pfx) : row.key ≠ [] := by
  obtain ⟨o, ho, -, -, -, rfl⟩ := mem_matching.mp h
  exact db.key_ne_nil o ho

theorem pairwise_key_ne_filter :
    ((db.objects.filter (listFilter keyStartsWith bucket pfx)).map Object.listing).Pairwise
      fun a b => a.key ≠ b.key := by
  rw [List.pairwise_map, List.pairwise_filter]
  refine db.latest_unique.imp fun {a b} hab ha hb => ?_
  simp only [listFilter, Bool.and_eq_true, beq_iff_eq] at ha hb
  exact hab ha.1.2 hb.1.2 (ha.1.1.trans hb.1.1.symm)

theorem ascending_matching :
    Ascending ListingObject.key (matching keyStartsWith db bucket pfx) :=
  ascending_sortBy _ pairwise_key_ne_filter

/-- **A query reads a batch of the matching rows after its token.** -/
theorem list_eq (continuationToken : Option Text) (maxKeys : ℕ) :
    list keyStartsWith db bucket pfx continuationToken maxKeys =
      (after ListingObject.key continuationToken
        (matching keyStartsWith db bucket pfx)).take maxKeys := by
  rw [list, after, matching, ← sortBy_filter _ pairwise_key_ne_filter, List.filter_map,
    List.filter_filter]
  congr 3
  refine List.filter_congr fun o ho => ?_
  congr 1
  cases continuationToken with
  | none => rfl
  | some token =>
    rw [Bool.eq_iff_iff]
    by_cases htoken : token = []
    · -- no key is empty, so every key is after the empty token
      obtain ⟨c, rest, hkey⟩ := List.exists_cons_of_ne_nil (db.key_ne_nil o ho)
      simp [htoken, hkey]
    · simp only [Option.all_some, Bool.or_eq_true, List.isEmpty_iff, htoken, decide_eq_true_eq,
        false_or, Function.comp_apply]
      exact Iff.rfl

end List

end IpfS3.Store
