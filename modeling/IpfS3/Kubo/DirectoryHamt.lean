import IpfS3.AppError
import IpfS3.Foundations.Bitmap
import IpfS3.Foundations.Fallible
import IpfS3.Foundations.Grouping

/-!
# Sharded directories

`kubo/directory_hamt.rs`: the links of a large directory are spread over a tree of shards by the
bytes of a 64-bit hash of their names.  A shard has one link for every byte that occurs at its
depth: the file itself when it is the only one, and otherwise a child shard for the next byte.
Children are pushed before their parents, so a shard refers to smaller indices only.

`IsShard` says that the shard at an index is the one of given entries, and `insert_spec` that
`insert` builds it, or finds two entries with the same hash.  Its error for too many shards is never
reached: every shard below the root has two entries or more, so each of the seven levels below the
root has at most half as many shards as there are entries.
-/

namespace IpfS3.Kubo

open Bitmap Fallible Grouping Keyset List

/-- `DirectoryBuildError`, without the variants of a canceled build. -/
inductive DirectoryBuildError where
  | pathConflict
  | invalidManifest
  | blockTooLarge
  | hashCollision
  | kubo (error : AppError)
  deriving DecidableEq

/-- How a build ends early: with an error, or with a panic. -/
inductive BuildFailure where
  | failed (error : DirectoryBuildError)
  | panicked (message : String)
  deriving DecidableEq

abbrev BuildResult (α : Type*) := Except BuildFailure α

def maxFiles : ℕ := 10000

abbrev NameHash := Fin 8 → UInt8

/-- The byte of a hash that selects a bucket with `levels` levels below it. -/
def hashByte (hash : NameHash) (levels : ℕ) : UInt8 := hash ⟨7 - levels, by omega⟩

section Model

variable (Cid : Type)

structure Link where
  name : Text
  cid : Cid
  size : ℕ
  deriving DecidableEq

inductive ShardLink where
  | file (link : Link Cid)
  | child (pfx : Text) (index : ℕ)
  deriving DecidableEq

structure Shard where
  bitmap : List UInt8
  links : List (ShardLink Cid)
  deriving DecidableEq

structure HashedLink where
  link : Link Cid
  hash : NameHash

variable {Cid}

def ShardLink.name : ShardLink Cid → Text
  | file link => link.name
  | child pfx _ => pfx

/-- The two hexadecimal digits of a bucket. -/
def bucketPrefix (bucket : UInt8) : Text :=
  [Text.hexDigit (bucket >>> 4), Text.hexDigit (bucket &&& 15)]

/-- The byte of a hash that selects the bucket when `levels` more levels follow. -/
def bucketOf (levels : ℕ) (entry : HashedLink Cid) : UInt8 := hashByte entry.hash levels

/-- The link of a single entry in its bucket. -/
def fileLink (bucket : UInt8) (link : Link Cid) : ShardLink Cid :=
  .file { link with name := bucketPrefix bucket ++ link.name }

/-- What the loop of `insert` has collected: the shards, the bits and the links. -/
structure Collected (Cid : Type) where
  nodes : List (Shard Cid)
  bits : List UInt8
  links : List (ShardLink Cid)

/-- One round of the loop of `insert`, with `insert` for the next level. -/
def addBucket
    (insert : List (HashedLink Cid) → List (Shard Cid) → BuildResult (List (Shard Cid) × ℕ))
    (acc : Collected Cid) (bucket : UInt8 × List (HashedLink Cid)) :
    BuildResult (Collected Cid) :=
  let bits := mark acc.bits bucket.1
  match bucket.2 with
  | [entry] => .ok ⟨acc.nodes, bits, acc.links ++ [fileLink bucket.1 entry.link]⟩
  | entries => do
    let (nodes, index) ← insert entries acc.nodes
    .ok ⟨nodes, bits, acc.links ++ [.child (bucketPrefix bucket.1) index]⟩

/-- `insert` at depth `8 - levels`: the shards with the new ones, and the index of the shard of the
entries. -/
def insert : ℕ → List (HashedLink Cid) → List (Shard Cid) → BuildResult (List (Shard Cid) × ℕ)
  | 0, _, _ => .error (.failed .hashCollision)
  | levels + 1, entries, nodes => do
    let acc ← (group (bucketOf levels) entries).foldlM (addBucket (insert levels))
      ⟨nodes, replicate 32 0, []⟩
    ensure (acc.nodes.length < 8 * maxFiles) (.failed .blockTooLarge)
    .ok (acc.nodes ++ [⟨trim acc.bits, sortBy ShardLink.name acc.links⟩], acc.nodes.length)

def hashedLinks (hash : Text → NameHash) (links : List (Link Cid)) : List (HashedLink Cid) :=
  links.map fun link => ⟨link, hash link.name⟩

def shards (hash : Text → NameHash) (links : List (Link Cid)) : BuildResult (List (Shard Cid)) := do
  let (nodes, _) ← insert 8 (hashedLinks hash links) []
  .ok nodes

def rotateLeft (x n : UInt64) : UInt64 := (x <<< n) ||| (x >>> (64 - n))

/-- `u64::from_le_bytes`, also of fewer than eight bytes. -/
def fromLeBytes (bytes : List UInt8) : UInt64 :=
  bytes.foldr (fun byte rest => (rest <<< 8) ||| byte.toUInt64) 0

def fmix (hash : UInt64) : UInt64 :=
  let hash := (hash ^^^ (hash >>> 33)) * 0xff51afd7ed558ccd
  let hash := (hash ^^^ (hash >>> 33)) * 0xc4ceb9fe1a85ec53
  hash ^^^ (hash >>> 33)

def mixFirst (k : UInt64) : UInt64 := rotateLeft (k * 0x87c37b91114253d5) 31 * 0x4cf5ad432745937f

def mixSecond (k : UInt64) : UInt64 := rotateLeft (k * 0x4cf5ad432745937f) 33 * 0x87c37b91114253d5

def mixBlock (h : UInt64 × UInt64) (chunk : List UInt8) : UInt64 × UInt64 :=
  let h1 := h.1 ^^^ mixFirst (fromLeBytes (chunk.take 8))
  let h1 := (rotateLeft h1 27 + h.2) * 5 + 0x52dce729
  let h2 := h.2 ^^^ mixSecond (fromLeBytes (chunk.drop 8))
  let h2 := (rotateLeft h2 31 + h1) * 5 + 0x38495ab5
  (h1, h2)

/-- `murmur3_x64_64`: the hash of a name. -/
def murmur3X6464 (key : Text) : NameHash :=
  let blocks := key.length / 16
  let chunks := (range blocks).map fun i => (key.drop (16 * i)).take 16
  let (h1, h2) := chunks.foldl mixBlock (0, 0)
  let tail := key.drop (16 * blocks)
  let h2 := if 8 < tail.length then h2 ^^^ mixSecond (fromLeBytes (tail.drop 8)) else h2
  let h1 := if tail = [] then h1 else h1 ^^^ mixFirst (fromLeBytes (tail.take 8))
  let length := UInt64.ofNat key.length
  let h1 := (h1 ^^^ length) + (h2 ^^^ length)
  let h2 := (h2 ^^^ length) + h1
  let hash := fmix h1 + fmix h2
  fun i => (hash >>> (56 - 8 * UInt64.ofNat i)).toUInt8

/-- The hash of `hello`. -/
example : ofFn (murmur3X6464 [104, 101, 108, 108, 111]) =
    [0xcb, 0xd8, 0xa7, 0xb3, 0x41, 0xbd, 0x9b, 0x02] := by decide

/-- `data`: the UnixFS record of a shard. -/
def data (bitmap : List UInt8) : List UInt8 :=
  [8, 5, 18] ++ [UInt8.ofNat bitmap.length] ++ bitmap ++ [40, 34, 48, 128, 2]

end Model

/-! ## The shard of some entries -/

section Shards

variable {Cid : Type} {nodes nodes' : List (Shard Cid)} {levels index index' : ℕ}

/-- The link of a bucket in the shard at `index`: the file of a single entry, or a child at a
smaller index. -/
inductive LinkFor (isShard : List (HashedLink Cid) → ℕ → Prop) (index : ℕ) :
    UInt8 × List (HashedLink Cid) → ShardLink Cid → Prop where
  | file (bucket : UInt8) (entry : HashedLink Cid) :
      LinkFor isShard index (bucket, [entry]) (fileLink bucket entry.link)
  | child (bucket : UInt8) (entries : List (HashedLink Cid)) (i : ℕ) (hlength : 2 ≤ entries.length)
      (hlt : i < index) (hshard : isShard entries i) :
      LinkFor isShard index (bucket, entries) (.child (bucketPrefix bucket) i)

def bucketBits (buckets : List (UInt8 × List (HashedLink Cid))) : List UInt8 :=
  buckets.foldl (fun bits bucket => mark bits bucket.1) (replicate 32 0)

/-- **The shard at an index is the one of the entries**, with `levels` levels left. -/
def IsShard (nodes : List (Shard Cid)) : ℕ → List (HashedLink Cid) → ℕ → Prop
  | 0, _, _ => False
  | levels + 1, entries, index => ∃ links,
      nodes[index]? = some ⟨trim (bucketBits (group (bucketOf levels) entries)),
        sortBy ShardLink.name links⟩ ∧
      List.Forall₂ (LinkFor (IsShard nodes levels) index) (group (bucketOf levels) entries) links

theorem LinkFor.mono {isShard isShard' : List (HashedLink Cid) → ℕ → Prop}
    (hshard : ∀ entries i, isShard entries i → isShard' entries i) (hle : index ≤ index')
    {bucket : UInt8 × List (HashedLink Cid)} {link : ShardLink Cid}
    (h : LinkFor isShard index bucket link) : LinkFor isShard' index' bucket link := by
  cases h with
  | file bucket entry => exact .file bucket entry
  | child bucket entries i hlength hlt h =>
    exact .child bucket entries i hlength (hlt.trans_le hle) (hshard entries i h)

variable {entries : List (HashedLink Cid)}

theorem IsShard.mono (hnodes : nodes <+: nodes') (h : IsShard nodes levels entries index) :
    IsShard nodes' levels entries index := by
  induction levels generalizing entries index with
  | zero => exact h.elim
  | succ levels ih =>
    obtain ⟨links, hget, hlinks⟩ := h
    refine ⟨links, ?_, hlinks.imp fun _ _ => LinkFor.mono (fun _ _ => ih) le_rfl⟩
    obtain ⟨rest, rfl⟩ := hnodes
    obtain ⟨hlt, -⟩ := List.getElem?_eq_some_iff.mp hget
    rw [List.getElem?_append_left hlt, hget]

/-- The shards between two indices are those of two entries of a set or more. -/
def Below (P : HashedLink Cid → Prop) (nodes : List (Shard Cid)) (first last : ℕ) : Prop :=
  ∀ i, first ≤ i → i < last → ∃ levels entries, levels < 8 ∧ 2 ≤ entries.length ∧
    (∀ e ∈ entries, P e) ∧ IsShard nodes levels entries i

theorem Below.imp {P Q : HashedLink Cid → Prop} {first last : ℕ} (hPQ : ∀ e, P e → Q e)
    (h : Below P nodes first last) : Below Q nodes first last := by
  intro i hfirst hlast
  obtain ⟨levels, entries, hlevels, hlength, hP, hshard⟩ := h i hfirst hlast
  exact ⟨levels, entries, hlevels, hlength, fun e he => hPQ e (hP e he), hshard⟩

theorem Below.append {P : HashedLink Cid → Prop} {nodes new : List (Shard Cid)}
    {first last last' : ℕ} (h : Below P nodes first last)
    (h' : Below P (nodes ++ new) last last') : Below P (nodes ++ new) first last' := by
  intro i hfirst hlast
  rcases lt_or_ge i last with hlt | hge
  · obtain ⟨levels, entries, hlevels, hlength, hP, hshard⟩ := h i hfirst hlt
    exact ⟨levels, entries, hlevels, hlength, hP, hshard.mono (prefix_append _ _)⟩
  · exact h' i hge hlast

/-- **What a successful `insert` has built.** -/
structure Built (levels : ℕ) (entries : List (HashedLink Cid)) (nodes new : List (Shard Cid)) :
    Prop where
  nodup : (entries.map HashedLink.hash).Nodup
  length_pos : 0 < new.length
  length_le : new.length ≤ 1 + (levels - 1) * (entries.length / 2)
  root : IsShard (nodes ++ new) levels entries (nodes.length + new.length - 1)
  below : Below (· ∈ entries) (nodes ++ new) nodes.length (nodes.length + new.length - 1)

/-- `insert` finds two entries with the same hash, or builds the shards. -/
def InsertSpec (levels : ℕ) (entries : List (HashedLink Cid)) (nodes : List (Shard Cid)) : Prop :=
  (insert levels entries nodes = .error (.failed .hashCollision) ∧
      ¬(entries.map HashedLink.hash).Nodup) ∨
    ∃ new, insert levels entries nodes = .ok (nodes ++ new, nodes.length + new.length - 1) ∧
      Built levels entries nodes new

structure LoopBuilt (levels : ℕ) (buckets : List (UInt8 × List (HashedLink Cid)))
    (nodes new : List (Shard Cid)) (links : List (ShardLink Cid)) : Prop where
  nodup : ∀ bucket ∈ buckets, (bucket.2.map HashedLink.hash).Nodup
  length_le : new.length ≤ levels * (buckets.map fun bucket => bucket.2.length / 2).sum
  links : List.Forall₂ (LinkFor (IsShard (nodes ++ new) levels) (nodes.length + new.length))
    buckets links
  below : Below (∃ bucket ∈ buckets, · ∈ bucket.2) (nodes ++ new) nodes.length
    (nodes.length + new.length)

theorem sum_half_le (buckets : List (UInt8 × List (HashedLink Cid))) :
    (buckets.map fun bucket => bucket.2.length / 2).sum ≤
      (buckets.flatMap Prod.snd).length / 2 := by
  induction buckets with
  | nil => exact Nat.zero_le _
  | cons bucket buckets ih =>
    rw [map_cons, sum_cons, flatMap_cons, length_append]
    omega

theorem Built.length_le_mul {new : List (Shard Cid)} (h : Built levels entries nodes new)
    (hlength : 2 ≤ entries.length) :
    new.length ≤ levels * (entries.length / 2) := by
  have hle := h.length_le
  cases levels with
  | zero => exact h.root.elim
  | succ levels =>
    rw [Nat.add_sub_cancel] at hle
    rw [Nat.succ_mul]
    omega

/-- **The loop of `insert`**, from what `insert` does on the next level. -/
theorem foldlM_addBucket_spec (hlevels : levels < 8)
    (hinsert : ∀ (entries : List (HashedLink Cid)) nodes, 2 ≤ entries.length →
      (∀ e ∈ entries, ∀ e' ∈ entries, ∀ d : Fin 8, d < 8 - levels → e.hash d = e'.hash d) →
      (0 < levels → nodes.length + 1 + (levels - 1) * (entries.length / 2) ≤ 8 * maxFiles) →
        InsertSpec levels entries nodes)
    (buckets : List (UInt8 × List (HashedLink Cid))) (hne : ∀ bucket ∈ buckets, bucket.2 ≠ [])
    (hagree : ∀ bucket ∈ buckets, ∀ e ∈ bucket.2, ∀ e' ∈ bucket.2, ∀ d : Fin 8, d < 8 - levels →
      e.hash d = e'.hash d)
    (nodes : List (Shard Cid)) (bits : List UInt8) (links : List (ShardLink Cid))
    (hroom : nodes.length + levels * (buckets.map fun bucket => bucket.2.length / 2).sum ≤
      8 * maxFiles) :
    (buckets.foldlM (addBucket (insert levels)) ⟨nodes, bits, links⟩ =
        .error (.failed .hashCollision) ∧
      ∃ bucket ∈ buckets, ¬(bucket.2.map HashedLink.hash).Nodup) ∨
    ∃ new more, buckets.foldlM (addBucket (insert levels)) ⟨nodes, bits, links⟩ =
        .ok ⟨nodes ++ new, buckets.foldl (fun bits bucket => mark bits bucket.1) bits,
          links ++ more⟩ ∧ LoopBuilt levels buckets nodes new more := by
  induction buckets generalizing nodes bits links with
  | nil =>
    refine Or.inr ⟨[], [], ?_, fun _ h => absurd h not_mem_nil, Nat.zero_le _, .nil,
      fun i hfirst hlast => absurd hlast (not_lt.mpr hfirst)⟩
    rw [append_nil, append_nil]
    rfl
  | cons bucket buckets ih =>
    obtain ⟨b, entries⟩ := bucket
    rw [map_cons, sum_cons, Nat.mul_add] at hroom
    dsimp only at hroom
    have ih := ih (fun bucket hb => hne bucket (mem_cons_of_mem _ hb))
      fun bucket hb => hagree bucket (mem_cons_of_mem _ hb)
    have hmore : ∀ {e : HashedLink Cid}, (∃ bucket ∈ buckets, e ∈ bucket.2) →
        ∃ bucket ∈ (b, entries) :: buckets, e ∈ bucket.2 :=
      fun ⟨bucket, hb, he⟩ => ⟨bucket, mem_cons_of_mem _ hb, he⟩
    match entries, hne (b, entries) mem_cons_self with
    | [entry], _ =>
      -- a single entry needs no shard of its own
      have hstep : ∀ rest : Collected Cid → BuildResult (Collected Cid),
          (addBucket (insert levels) ⟨nodes, bits, links⟩ (b, [entry]) >>= rest) =
            rest ⟨nodes, mark bits b, links ++ [fileLink b entry.link]⟩ := fun _ => rfl
      rw [foldlM_cons, hstep, foldl_cons]
      rcases ih nodes (mark bits b) (links ++ [fileLink b entry.link]) (by omega) with
        ⟨herror, bucket, hbucket, hdup⟩ | ⟨new, more, hok, hbuilt⟩
      · exact Or.inl ⟨herror, bucket, mem_cons_of_mem _ hbucket, hdup⟩
      · refine Or.inr ⟨new, fileLink b entry.link :: more, ?_, fun bucket hb => ?_, ?_,
          .cons (.file b entry) hbuilt.links, hbuilt.below.imp fun e => hmore⟩
        · rw [hok, append_assoc]
          rfl
        · rcases mem_cons.mp hb with rfl | hb
          · exact nodup_singleton _
          · exact hbuilt.nodup bucket hb
        · rw [map_cons, sum_cons, Nat.mul_add]
          exact hbuilt.length_le.trans (Nat.le_add_left _ _)
    | e :: e' :: es, _ =>
      have hlength : 2 ≤ (e :: e' :: es).length := by simp
      have hstep : ∀ rest : Collected Cid → BuildResult (Collected Cid),
          (addBucket (insert levels) ⟨nodes, bits, links⟩ (b, e :: e' :: es) >>= rest) =
            (insert levels (e :: e' :: es) nodes >>= fun built =>
              rest ⟨built.1, mark bits b, links ++ [.child (bucketPrefix b) built.2]⟩) := by
        intro rest
        rw [addBucket, bind_assoc]
        rfl
      have hroom' : 0 < levels →
          nodes.length + 1 + (levels - 1) * ((e :: e' :: es).length / 2) ≤ 8 * maxFiles := by
        intro hpos
        obtain ⟨l, rfl⟩ := Nat.exists_eq_add_of_le' hpos
        rw [Nat.add_mul, Nat.one_mul] at hroom
        rw [Nat.add_sub_cancel]
        omega
      rw [foldlM_cons, hstep, foldl_cons]
      rcases hinsert _ nodes hlength (hagree (b, _) mem_cons_self) hroom' with
        ⟨herror, hdup⟩ | ⟨new, hok, hbuilt⟩
      · rw [herror]
        exact Or.inl ⟨rfl, _, mem_cons_self, hdup⟩
      · rw [hok]
        have hnew := hbuilt.length_le_mul hlength
        have hpos := hbuilt.length_pos
        have hlast : nodes.length + new.length - 1 + 1 = (nodes ++ new).length := by
          rw [length_append]
          omega
        have hlen : (nodes ++ new).length = nodes.length + new.length := length_append
        rw [ok_bind]
        rcases ih (nodes ++ new) (mark bits b) (links ++ [.child (bucketPrefix b) _])
          (by rw [hlen]; omega) with ⟨herror, bucket, hbucket, hdup⟩ | ⟨new', more, hok', hloop⟩
        · exact Or.inl ⟨herror, bucket, mem_cons_of_mem _ hbucket, hdup⟩
        · have hshard : Below (∃ bucket ∈ (b, e :: e' :: es) :: buckets, · ∈ bucket.2) (nodes ++ new)
              nodes.length (nodes ++ new).length := by
            have hhead : ∀ x ∈ e :: e' :: es,
                ∃ bucket ∈ (b, e :: e' :: es) :: buckets, x ∈ bucket.2 :=
              fun x hx => ⟨_, mem_cons_self, hx⟩
            rw [← hlast]
            refine fun i hfirst hlt => (Nat.lt_succ_iff_lt_or_eq.mp hlt).elim
              (hbuilt.below.imp hhead i hfirst) fun heq => ?_
            exact ⟨levels, _, hlevels, hlength, hhead, heq ▸ hbuilt.root⟩
          refine Or.inr ⟨new ++ new', .child (bucketPrefix b) (nodes.length + new.length - 1) :: more,
            ?_, fun bucket hb => ?_, ?_, .cons ?_ ?_, ?_⟩
          · rw [hok', append_assoc, append_assoc]
            rfl
          · rcases mem_cons.mp hb with rfl | hb
            · exact hbuilt.nodup
            · exact hloop.nodup bucket hb
          · have hle := hloop.length_le
            rw [map_cons, sum_cons, Nat.mul_add, length_append]
            dsimp only
            omega
          · rw [← append_assoc]
            refine .child b _ _ hlength ?_ (hbuilt.root.mono (prefix_append _ _))
            rw [length_append]
            omega
          · rw [← append_assoc, length_append, ← Nat.add_assoc, ← hlen]
            exact hloop.links
          · rw [← append_assoc, length_append, ← Nat.add_assoc, ← hlen]
            exact hshard.append (hloop.below.imp fun e => hmore)

theorem not_nodup_of_agree (hlength : 2 ≤ entries.length)
    (hagree : ∀ e ∈ entries, ∀ e' ∈ entries, ∀ d : Fin 8, e.hash d = e'.hash d) :
    ¬(entries.map HashedLink.hash).Nodup := by
  match entries, hlength with
  | e :: e' :: es, _ =>
    intro hnodup
    have heq : e.hash = e'.hash :=
      funext (hagree e mem_cons_self e' (mem_cons_of_mem _ mem_cons_self))
    rw [map_cons, map_cons, heq] at hnodup
    exact (nodup_cons.mp hnodup).1 mem_cons_self

/-- **`insert`** builds the shards of its entries, or finds a collision. -/
theorem insert_spec (levels : ℕ) (hlevels : levels ≤ 8) (entries : List (HashedLink Cid))
    (nodes : List (Shard Cid)) (hlength : levels < 8 → 2 ≤ entries.length)
    (hagree : ∀ e ∈ entries, ∀ e' ∈ entries, ∀ d : Fin 8, d < 8 - levels → e.hash d = e'.hash d)
    (hroom : 0 < levels → nodes.length + 1 + (levels - 1) * (entries.length / 2) ≤ 8 * maxFiles) :
    InsertSpec levels entries nodes := by
  induction levels generalizing entries nodes with
  | zero =>
    refine Or.inl ⟨rfl, not_nodup_of_agree (hlength (by decide)) fun e he e' he' d => ?_⟩
    exact hagree e he e' he' d d.isLt
  | succ levels ih =>
    have hroom := hroom (Nat.succ_pos levels)
    rw [Nat.add_sub_cancel] at hroom
    have hhalf : ((group (bucketOf levels) entries).map fun bucket => bucket.2.length / 2).sum ≤
        entries.length / 2 := by
      rw [← (flatMap_group_perm (bucketOf levels) entries).length_eq]
      exact sum_half_le _
    have hmul := Nat.mul_le_mul_left levels hhalf
    have hagree' : ∀ bucket ∈ group (bucketOf levels) entries, ∀ e ∈ bucket.2, ∀ e' ∈ bucket.2,
        ∀ d : Fin 8, d < 8 - levels → e.hash d = e'.hash d := by
      rintro ⟨b, es⟩ hbucket e he e' he' d hd
      obtain ⟨rfl, -⟩ := mem_group_iff.mp hbucket
      obtain ⟨he, hb⟩ := mem_fiber.mp he
      obtain ⟨he', hb'⟩ := mem_fiber.mp he'
      rcases (show (d : ℕ) < 8 - (levels + 1) ∨ (d : ℕ) = 7 - levels by omega) with hlt | heq
      · exact hagree e he e' he' d hlt
      · have hd : d = ⟨7 - levels, by omega⟩ := Fin.ext heq
        rw [hd]
        exact hb.trans hb'.symm
    rcases foldlM_addBucket_spec (by omega)
      (fun es ns h2 hag hr => ih (by omega) es ns (fun _ => h2) hag hr)
      (group (bucketOf levels) entries) (fun bucket hb => (mem_group_iff.mp hb).2) hagree' nodes
      (replicate 32 0) [] (by omega) with ⟨herror, bucket, hbucket, hdup⟩ |
        ⟨new, links, hok, hloop⟩
    · refine Or.inl ⟨by rw [insert, herror]; rfl, fun hnodup => hdup ?_⟩
      rw [(mem_group_iff.mp (show (bucket.1, bucket.2) ∈ _ from hbucket)).1]
      exact hnodup.sublist (filter_sublist.map _)
    · have hle := hloop.length_le
      refine Or.inr ⟨new ++ [⟨trim (bucketBits (group (bucketOf levels) entries)),
        sortBy ShardLink.name links⟩], ?_, ?_, ?_, ?_, ?_, ?_⟩
      · have hlt : (nodes ++ new).length < 8 * maxFiles := by
          rw [length_append]
          omega
        rw [insert, hok, ok_bind, ensure_of hlt, ok_bind, append_assoc, length_append,
          length_append]
        rfl
      · refine nodup_map_of_group (fun e _ e' _ heq => ?_) hloop.nodup
        exact congrFun heq _
      · rw [length_append]
        exact Nat.succ_pos _
      · rw [length_append, length_singleton, Nat.add_sub_cancel]
        omega
      · refine ⟨links, ?_, ?_⟩
        · rw [← append_assoc, length_append, length_singleton, ← Nat.add_assoc,
            Nat.add_sub_cancel, ← length_append, getElem?_concat_length]
        · rw [← append_assoc, length_append, length_singleton, ← Nat.add_assoc,
            Nat.add_sub_cancel]
          exact hloop.links.imp fun _ _ => LinkFor.mono
            (fun _ _ => IsShard.mono (prefix_append _ _)) le_rfl
      · rw [← append_assoc, length_append, length_singleton, ← Nat.add_assoc,
          Nat.add_sub_cancel]
        have hbelow : Below (· ∈ entries) (nodes ++ new) nodes.length (nodes.length + new.length) := by
          refine hloop.below.imp ?_
          rintro e ⟨bucket, hbucket, he⟩
          rw [(mem_group_iff.mp (show (bucket.1, bucket.2) ∈ _ from hbucket)).1] at he
          exact (mem_fiber.mp he).1
        exact hbelow.append fun i hfirst hlast => absurd hlast (not_lt.mpr hfirst)

end Shards

end IpfS3.Kubo
