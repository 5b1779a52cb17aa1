import IpfS3.Kubo.DirectoryHamt

/-!
# Looking names up in a sharded directory

A reader follows the bytes of the hash of a name from the root shard down (`resolve`).  On the
shards that `shards` builds it finds exactly the links of the directory, each of them once, and
every shard is laid out as a reader of UnixFS expects (`shards_correct`).
-/

namespace IpfS3.Kubo

open Bitmap Fallible Grouping Keyset List

section Lookup

variable {Cid : Type} {nodes : List (Shard Cid)} {levels index : ℕ}
  {entries : List (HashedLink Cid)}

def Shard.find (shard : Shard Cid) (bucket : UInt8) : Option (ShardLink Cid) :=
  if isMarked shard.bitmap bucket = true then
    shard.links.find? fun link => link.name.take 2 == bucketPrefix bucket
  else none

/-- The link of a name, from the shard at an index with `levels` bytes of the hash left. -/
def resolve (nodes : List (Shard Cid)) : ℕ → ℕ → NameHash → Text → Option (Link Cid)
  | 0, _, _, _ => none
  | levels + 1, index, hash, name => do
    let shard ← nodes[index]?
    let bucket := hashByte hash levels
    match shard.find bucket with
    | none => none
    | some (.file link) =>
      if link.name = bucketPrefix bucket ++ name then some { link with name := name } else none
    | some (.child _ child) => resolve nodes levels child hash name

/-- The files below the shard at an index. -/
def leaves (nodes : List (Shard Cid)) : ℕ → ℕ → List (Link Cid)
  | 0, _ => []
  | levels + 1, index =>
    match nodes[index]? with
    | none => []
    | some shard => shard.links.flatMap fun link =>
      match link with
      | .file link => [{ link with name := link.name.drop 2 }]
      | .child _ child => leaves nodes levels child

/-! ## The links of a shard -/

theorem bucketPrefix_injective : Function.Injective bucketPrefix := by
  intro a b h
  rw [bucketPrefix, bucketPrefix, cons.injEq, cons.injEq] at h
  rw [← Text.hexValue_hexDigit a, ← Text.hexValue_hexDigit b, h.1, h.2.1]

theorem LinkFor.take_name {isShard : List (HashedLink Cid) → ℕ → Prop}
    {bucket : UInt8 × List (HashedLink Cid)} {link : ShardLink Cid}
    (h : LinkFor isShard index bucket link) : link.name.take 2 = bucketPrefix bucket.1 := by
  cases h with
  | file bucket entry => rfl
  | child bucket entries i hlength hlt hshard => rfl

theorem isMarked_bucketBits (buckets : List (UInt8 × List (HashedLink Cid))) (b : UInt8) :
    isMarked (trim (bucketBits buckets)) b = true ↔ b ∈ buckets.map Prod.fst := by
  rw [isMarked_trim, bucketBits]
  have hfold : ∀ (buckets : List (UInt8 × List (HashedLink Cid))) (bits : List UInt8),
      bits.length = 32 →
        (isMarked (buckets.foldl (fun bits bucket => mark bits bucket.1) bits) b = true ↔
          b ∈ buckets.map Prod.fst ∨ isMarked bits b = true) := by
    intro buckets
    induction buckets with
    | nil => simp
    | cons bucket buckets ih =>
      intro bits hbits
      rw [foldl_cons, ih _ ((length_mark bits bucket.1).trans hbits), isMarked_mark hbits,
        Bool.or_eq_true, beq_iff_eq, map_cons, mem_cons]
      tauto
  rw [hfold _ _ (length_replicate ..), isMarked_replicate]
  simp

theorem length_bucketBits (buckets : List (UInt8 × List (HashedLink Cid))) :
    (bucketBits buckets).length = 32 := by
  have hfold : ∀ bits : List UInt8,
      (buckets.foldl (fun bits bucket => mark bits bucket.1) bits).length = bits.length := by
    induction buckets with
    | nil => exact fun _ => rfl
    | cons bucket buckets ih => exact fun bits => (ih _).trans (length_mark bits bucket.1)
  rw [bucketBits, hfold, length_replicate]

/-- A shard that belongs to some entries, taken apart. -/
structure ShardOf (nodes : List (Shard Cid)) (levels : ℕ) (entries : List (HashedLink Cid))
    (index : ℕ) (shard : Shard Cid) : Prop where
  isMarked_iff : ∀ b, isMarked shard.bitmap b = true ↔ ∃ e ∈ entries, bucketOf levels e = b
  bitmap_length : shard.bitmap.length ≤ 32
  ascending : Ascending ShardLink.name shard.links
  bucket_of_link : ∀ link ∈ shard.links, ∃ b, (∃ e ∈ entries, bucketOf levels e = b) ∧
    LinkFor (IsShard nodes levels) index (b, fiber (bucketOf levels) b entries) link
  link_of_bucket : ∀ b, (∃ e ∈ entries, bucketOf levels e = b) → ∃ link ∈ shard.links,
    LinkFor (IsShard nodes levels) index (b, fiber (bucketOf levels) b entries) link

theorem IsShard.shardOf (h : IsShard nodes (levels + 1) entries index) :
    ∃ shard, nodes[index]? = some shard ∧ ShardOf nodes levels entries index shard := by
  obtain ⟨links, hget, hlinks⟩ := h
  refine ⟨_, hget, fun b => ?_, ?_, ?_, fun link hlink => ?_, fun b hb => ?_⟩
  · rw [isMarked_bucketBits, mem_keys_group_iff]
  · rw [trim, length_drop, length_bucketBits]
    exact Nat.sub_le _ _
  · refine ascending_sortBy _ ?_
    have hkeys : (group (bucketOf levels) entries).Pairwise fun bucket bucket' =>
        bucket.1 ≠ bucket'.1 := pairwise_map.mp (keys_nodup_group entries)
    refine pairwise_of_forall₂ hlinks hkeys fun bucket bucket' link link' h h' hne heq => hne ?_
    refine bucketPrefix_injective ?_
    rw [← h.take_name, ← h'.take_name, heq]
  · obtain ⟨⟨b, es⟩, hbucket, hfor⟩ := exists_of_forall₂ hlinks ((mem_sortBy _).mp hlink)
    obtain ⟨rfl, -⟩ := mem_group_iff.mp hbucket
    exact ⟨b, mem_keys_group_iff.mp (mem_map_of_mem hbucket), hfor⟩
  · obtain ⟨e, he, rfl⟩ := hb
    have hmem : (bucketOf levels e, fiber (bucketOf levels) (bucketOf levels e) entries) ∈
        group (bucketOf levels) entries :=
      mem_group_iff.mpr ⟨rfl, ne_nil_of_mem (mem_fiber.mpr ⟨he, rfl⟩)⟩
    obtain ⟨link, hlink, hfor⟩ := exists_of_forall₂ hlinks.flip hmem
    exact ⟨link, (mem_sortBy _).mpr hlink, hfor⟩

/-! ## Resolving -/

theorem ShardOf.find_eq {shard : Shard Cid} (h : ShardOf nodes levels entries index shard)
    (b : UInt8) : (shard.find b = none ∧ ∀ e ∈ entries, bucketOf levels e ≠ b) ∨
      ∃ link, shard.find b = some link ∧
        LinkFor (IsShard nodes levels) index (b, fiber (bucketOf levels) b entries) link := by
  rw [Shard.find]
  split_ifs with hmark
  · have hb := (h.isMarked_iff b).mp hmark
    obtain ⟨link, hlink, hfor⟩ := h.link_of_bucket b hb
    cases hfind : shard.links.find? fun link => link.name.take 2 == bucketPrefix b with
    | none =>
      have hnone := find?_eq_none.mp hfind link hlink
      exact absurd (beq_iff_eq.mpr hfor.take_name) hnone
    | some link' =>
      refine Or.inr ⟨link', rfl, ?_⟩
      obtain ⟨b', -, hfor'⟩ := h.bucket_of_link link' (mem_of_find?_eq_some hfind)
      have hname := find?_some hfind
      rw [beq_iff_eq] at hname
      obtain rfl : b' = b := bucketPrefix_injective (hfor'.take_name.symm.trans hname)
      exact hfor'
  · refine Or.inl ⟨rfl, fun e he heq => hmark ((h.isMarked_iff b).mpr ⟨e, he, heq⟩)⟩

section

variable (h : IsShard nodes levels entries index)

include h

/-- **Every entry is found.** -/
theorem resolve_of_mem {e : HashedLink Cid}
    (he : e ∈ entries) : resolve nodes levels index e.hash e.link.name = some e.link := by
  induction levels generalizing entries index with
  | zero => exact h.elim
  | succ levels ih =>
    obtain ⟨shard, hget, hshard⟩ := h.shardOf
    have hfiber : e ∈ fiber (bucketOf levels) (bucketOf levels e) entries := mem_fiber.mpr ⟨he, rfl⟩
    rw [resolve, hget]
    rcases hshard.find_eq (bucketOf levels e) with ⟨-, hnone⟩ | ⟨link, hfind, hfor⟩
    · exact absurd rfl (hnone e he)
    · have hbucket : hashByte e.hash levels = bucketOf levels e := rfl
      simp only [Option.bind_eq_bind, Option.bind_some, hbucket, hfind]
      generalize fiber (bucketOf levels) (bucketOf levels e) entries = es at hfor hfiber
      cases hfor with
      | file b entry =>
        obtain rfl := mem_singleton.mp hfiber
        exact if_pos rfl
      | child b es i hlength hlt hchild => exact ih hchild hfiber

/-- **Nothing else is found.** -/
theorem mem_of_resolve {hash : NameHash} {name : Text}
    {link : Link Cid} (hresolve : resolve nodes levels index hash name = some link) :
    link.name = name ∧ ∃ e ∈ entries, e.link = link := by
  induction levels generalizing entries index with
  | zero => exact h.elim
  | succ levels ih =>
    obtain ⟨shard, hget, hshard⟩ := h.shardOf
    rw [resolve, hget] at hresolve
    simp only [Option.bind_eq_bind, Option.bind_some] at hresolve
    generalize hashByte hash levels = b at hresolve
    rcases hshard.find_eq b with ⟨hfind, -⟩ | ⟨found, hfind, hfor⟩
    · rw [hfind] at hresolve
      cases hresolve
    · rw [hfind] at hresolve
      have hsub : ∀ e ∈ fiber (bucketOf levels) b entries, e ∈ entries :=
        fun e he => (mem_fiber.mp he).1
      generalize fiber (bucketOf levels) b entries = es at hfor hsub
      cases hfor with
      | file b entry =>
        rw [fileLink] at hresolve
        dsimp only at hresolve
        split_ifs at hresolve with hname
        cases hresolve
        have hentry := append_cancel_left hname
        exact ⟨rfl, entry, hsub entry (mem_singleton_self entry), by rw [← hentry]⟩
      | child b es i hlength hlt hchild =>
        obtain ⟨hname, e, he, hlink⟩ := ih hchild hresolve
        exact ⟨hname, e, hsub e he, hlink⟩

/-- **The files below a shard** are the links of its entries. -/
theorem leaves_perm {fuel : ℕ} (hfuel : levels ≤ fuel) :
    (leaves nodes fuel index).Perm (entries.map HashedLink.link) := by
  induction levels generalizing entries index fuel with
  | zero => exact h.elim
  | succ levels ih =>
    obtain ⟨fuel, rfl⟩ := Nat.exists_eq_add_of_le' (Nat.one_le_of_lt hfuel)
    obtain ⟨links, hget, hlinks⟩ := h
    rw [leaves, hget]
    refine ((sortBy_perm _ links).flatMap_right _).trans ?_
    refine List.Perm.trans ?_ ((flatMap_group_perm (bucketOf levels) entries).map _)
    rw [map_flatMap]
    clear hget
    generalize group (bucketOf levels) entries = buckets at hlinks
    induction hlinks with
    | nil => exact List.Perm.refl _
    | @cons bucket link buckets links hfor hlinks ihlinks =>
      rw [flatMap_cons, flatMap_cons]
      refine List.Perm.append ?_ ihlinks
      cases hfor with
      | file b entry => exact List.Perm.refl _
      | child b es i hlength hlt hchild => exact ih hchild (by omega)

end

/-! ## The shards of a directory -/

/-- **The shards of a directory**, as a reader finds them. -/
structure ShardTree (hash : Text → NameHash) (links : List (Link Cid)) (nodes : List (Shard Cid)) :
    Prop where
  /-- The root is the last shard. -/
  nonempty : nodes ≠ []
  /-- Every link is found under its name, and nothing else is. -/
  resolve_iff : ∀ name link,
    resolve nodes 8 (nodes.length - 1) (hash name) name = some link ↔ link ∈ links ∧ link.name = name
  /-- The files of the tree are the links, each of them once. -/
  leaves_perm : (leaves nodes 8 (nodes.length - 1)).Perm links
  /-- A bit is set where a bucket has a link. -/
  isMarked_iff : ∀ (i : ℕ) (shard : Shard Cid), nodes[i]? = some shard →
    ∀ b, isMarked shard.bitmap b = true ↔ ∃ link ∈ shard.links, link.name.take 2 = bucketPrefix b
  /-- The links of a shard are sorted by their names. -/
  ascending : ∀ (i : ℕ) (shard : Shard Cid), nodes[i]? = some shard →
    Ascending ShardLink.name shard.links
  /-- Children come before their parents. -/
  child_lt : ∀ (i : ℕ) (shard : Shard Cid), nodes[i]? = some shard →
    ∀ pfx j, .child pfx j ∈ shard.links → j < i
  /-- Every shard below the root has two files or more. -/
  two_leaves : ∀ i, i < nodes.length - 1 → 2 ≤ (leaves nodes 8 i).length

theorem map_hash_hashedLinks (hash : Text → NameHash) (links : List (Link Cid)) :
    (hashedLinks hash links).map HashedLink.hash = links.map fun link => hash link.name := by
  rw [hashedLinks, map_map]
  rfl

theorem map_link_hashedLinks (hash : Text → NameHash) (links : List (Link Cid)) :
    (hashedLinks hash links).map HashedLink.link = links := by
  rw [hashedLinks, map_map]
  exact map_id links

theorem Built.shardOf {all : List (HashedLink Cid)} (h : Built 8 all [] nodes) {i : ℕ}
    {shard : Shard Cid} (hget : nodes[i]? = some shard) :
    ∃ levels entries, (∀ e ∈ entries, e ∈ all) ∧ ShardOf nodes levels entries i shard := by
  obtain ⟨-, -, -, hroot, hbelow⟩ := h
  rw [nil_append, length_nil, Nat.zero_add] at hroot hbelow
  obtain ⟨hi, -⟩ := List.getElem?_eq_some_iff.mp hget
  have hshard : ∃ levels entries, (∀ e ∈ entries, e ∈ all) ∧ IsShard nodes levels entries i := by
    rcases (show i = nodes.length - 1 ∨ i < nodes.length - 1 by omega) with rfl | hlt
    · exact ⟨8, _, fun _ he => he, hroot⟩
    · obtain ⟨levels, entries, -, -, hall, hshard⟩ := hbelow i (Nat.zero_le i) hlt
      exact ⟨levels, entries, hall, hshard⟩
  obtain ⟨levels, entries, hall, hshard⟩ := hshard
  cases levels with
  | zero => exact hshard.elim
  | succ levels =>
    obtain ⟨shard', hget', hof⟩ := hshard.shardOf
    cases hget.symm.trans hget'
    exact ⟨levels, entries, hall, hof⟩

/-- **A reader finds the links**: every link under its name, and nothing else. -/
theorem Built.resolve_iff {hash : Text → NameHash} {links : List (Link Cid)}
    (h : Built 8 (hashedLinks hash links) [] nodes) {name : Text} {link : Link Cid} :
    resolve nodes 8 (nodes.length - 1) (hash name) name = some link ↔
      link ∈ links ∧ link.name = name := by
  have hroot := h.root
  rw [nil_append, length_nil, Nat.zero_add] at hroot
  constructor
  · intro hresolve
    obtain ⟨hname, e, he, rfl⟩ := mem_of_resolve hroot hresolve
    refine ⟨?_, hname⟩
    rw [← map_link_hashedLinks hash links]
    exact mem_map_of_mem he
  · rintro ⟨hlink, rfl⟩
    have hmem : (⟨link, hash link.name⟩ : HashedLink Cid) ∈ hashedLinks hash links :=
      mem_map_of_mem hlink
    have hfound := resolve_of_mem hroot hmem
    exact hfound

theorem Built.shardTree {hash : Text → NameHash} {links : List (Link Cid)}
    (h : Built 8 (hashedLinks hash links) [] nodes) : ShardTree hash links nodes := by
  have hroot := h.root
  have hbelow := h.below
  rw [nil_append, length_nil, Nat.zero_add] at hroot hbelow
  refine ⟨ne_nil_of_length_pos h.length_pos, fun name link => h.resolve_iff, ?_,
    fun i shard hget b => ?_, fun i shard hget => ?_, fun i shard hget pfx j hchild => ?_,
    fun i hlt => ?_⟩
  · have hperm := Kubo.leaves_perm hroot le_rfl
    rwa [map_link_hashedLinks] at hperm
  · obtain ⟨levels, entries, -, hof⟩ := h.shardOf hget
    rw [hof.isMarked_iff]
    constructor
    · intro hb
      obtain ⟨link, hlink, hfor⟩ := hof.link_of_bucket b hb
      exact ⟨link, hlink, hfor.take_name⟩
    · rintro ⟨link, hlink, hname⟩
      obtain ⟨b', hb', hfor⟩ := hof.bucket_of_link link hlink
      obtain rfl : b' = b := bucketPrefix_injective (hfor.take_name.symm.trans hname)
      exact hb'
  · obtain ⟨levels, entries, -, hof⟩ := h.shardOf hget
    exact hof.ascending
  · obtain ⟨levels, entries, -, hof⟩ := h.shardOf hget
    obtain ⟨b, -, hfor⟩ := hof.bucket_of_link _ hchild
    generalize fiber (bucketOf levels) b entries = es at hfor
    cases hfor with
    | child b es i hlength hlt hchild => exact hlt
  · obtain ⟨levels, entries, hlevels, hlength, -, hshard⟩ := hbelow i (Nat.zero_le i) hlt
    rw [(Kubo.leaves_perm hshard hlevels.le).length_eq, length_map]
    exact hlength

/-- **`shards`**, up to the limit of files: the shards of the links, or a collision. -/
theorem shards_spec (hash : Text → NameHash) (links : List (Link Cid))
    (hlength : links.length ≤ maxFiles) :
    (shards hash links = .error (.failed .hashCollision) ∧
        ¬(links.map fun link => hash link.name).Nodup) ∨
      ∃ nodes, shards hash links = .ok nodes ∧ Built 8 (hashedLinks hash links) [] nodes := by
  have hroom : 0 < 8 → ([] : List (Shard Cid)).length + 1 +
      (8 - 1) * ((hashedLinks hash links).length / 2) ≤ 8 * maxFiles := by
    intro _
    rw [hashedLinks, length_map, length_nil]
    rw [maxFiles] at hlength ⊢
    omega
  rcases insert_spec 8 le_rfl (hashedLinks hash links) [] (fun h => absurd h (lt_irrefl 8))
    (fun _ _ _ _ d hd => absurd hd (Nat.not_lt_zero d)) hroom with ⟨herror, hdup⟩ |
      ⟨nodes, hok, hbuilt⟩
  · rw [map_hash_hashedLinks] at hdup
    refine Or.inl ⟨?_, hdup⟩
    rw [shards, herror]
    rfl
  · refine Or.inr ⟨nodes, ?_, hbuilt⟩
    rw [shards, hok]
    rfl

/-- **Sharded directories are correct.**  Up to the limit of files, the shards of links with
distinct hashes are built and are a lookup structure for them, and a collision is reported exactly
when two links have the same hash. -/
theorem shards_correct (hash : Text → NameHash) (links : List (Link Cid))
    (hlength : links.length ≤ maxFiles) :
    ((links.map fun link => hash link.name).Nodup →
        ∃ nodes, shards hash links = .ok nodes ∧ ShardTree hash links nodes) ∧
      (shards hash links = .error (.failed .hashCollision) ↔
        ¬(links.map fun link => hash link.name).Nodup) := by
  rcases shards_spec hash links hlength with ⟨hshards, hdup⟩ | ⟨nodes, hshards, hbuilt⟩
  · exact ⟨fun hnodup => absurd hnodup hdup, iff_of_true hshards hdup⟩
  · have hnodup := hbuilt.nodup
    rw [map_hash_hashedLinks] at hnodup
    refine ⟨fun _ => ⟨nodes, hshards, hbuilt.shardTree⟩, iff_of_false ?_ (not_not.mpr hnodup)⟩
    rw [hshards]
    exact fun h => by cases h

/-- Three files; under the hash that Kubo uses, the last two share a bucket of the root. -/
def threeLinks : List (Link Unit) := [⟨[97], (), 1⟩, ⟨[103], (), 2⟩, ⟨[113], (), 3⟩]

theorem shards_correct_murmur3 :
    (threeLinks.map fun link => murmur3X6464 link.name).Nodup ∧
      ∃ nodes, shards murmur3X6464 threeLinks = .ok nodes ∧ nodes.length = 2 ∧
        ShardTree murmur3X6464 threeLinks nodes := by
  have hnodup : (threeLinks.map fun link => murmur3X6464 link.name).Nodup := by decide +kernel
  have hlength : (shards murmur3X6464 threeLinks).toOption.map length = some 2 := by decide +kernel
  obtain ⟨nodes, hnodes, htree⟩ := (shards_correct murmur3X6464 threeLinks (by decide)).1 hnodup
  rw [hnodes] at hlength
  exact ⟨hnodup, nodes, hnodes, Option.some.inj hlength, htree⟩

end Lookup

end IpfS3.Kubo
