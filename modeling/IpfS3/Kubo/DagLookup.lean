import IpfS3.Foundations.PathTree
import IpfS3.Kubo.Directory

/-!
# Directories in the DAG

Kubo serves under the CID of a block the links and the data that were put, as long as the links are
sorted by their names (`Serves`); DAG-PB sorts the others.  A name is looked up in a directory by its
links, or, when the directory is sharded, by the bytes of its hash through the shards (`lookupName`).

* `steady_putDirectory`: writing a directory fails only for a reason outside of it: an answer of Kubo,
  the size of a block, or two names with one hash.
* `putDirectory_spec`: whichever way a directory is written, a name leads from its CID to the CID of
  the link with that name, and nowhere else.
-/

namespace IpfS3.Kubo

open Bitmap Fallible Grouping Keyset List Option

/-- The blocks that Kubo serves: the links and the data of a CID. -/
abbrev Dag (Cid : Type) := Cid → Option (List (Link Cid) × List UInt8)

variable {Cid : Type} {kubo : KuboClient Cid} {dag : Dag Cid}

/-- Kubo serves what was put with sorted links. -/
def Serves (kubo : KuboClient Cid) (dag : Dag Cid) : Prop :=
  ∀ links data cid, (links.Pairwise fun a b => a.name ≤ b.name) →
    kubo.dagPut links data = .ok cid → dag cid = some (links, data)

def hamtBitmap : List UInt8 → Option (List UInt8)
  | 8 :: 5 :: 18 :: length :: rest => some (rest.take length.toNat)
  | _ => none

/-- The CID of a name below a shard, with `levels` bytes of the hash left. -/
def shardLookup (dag : Dag Cid) : ℕ → Cid → NameHash → Text → Option Cid
  | 0, _, _, _ => none
  | levels + 1, cid, hash, name => do
    let (links, data) ← dag cid
    let bitmap ← hamtBitmap data
    let bucket := hashByte hash levels
    let link ← if isMarked bitmap bucket = true then
      links.find? fun link => link.name.take 2 == bucketPrefix bucket else none
    if link.name = bucketPrefix bucket then shardLookup dag levels link.cid hash name
    else if link.name = bucketPrefix bucket ++ name then some link.cid else none

def lookupName (dag : Dag Cid) (cid : Cid) (name : Text) : Option Cid := do
  let (links, data) ← dag cid
  if data = directoryData then (links.find? fun link => link.name == name).map Link.cid
  else shardLookup dag 8 cid (murmur3X6464 name) name

/-- A computation that fails only for some reasons. -/
def Steady {α : Type*} (reason : BuildFailure → Prop) (result : BuildResult α) : Prop :=
  ∀ e, result = .error e → reason e

section Steady

variable {reason reason' : BuildFailure → Prop}

theorem steady_ok {α : Type*} (a : α) : Steady reason (.ok a : BuildResult α) :=
  fun _ h => by cases h

theorem steady_error {α : Type*} {e : BuildFailure} (he : reason e) :
    Steady reason (.error e : BuildResult α) :=
  fun _ h => Except.error.inj h ▸ he

theorem Steady.imp {α : Type*} {x : BuildResult α} (h : Steady reason x)
    (himp : ∀ e, reason e → reason' e) : Steady reason' x :=
  fun e he => himp e (h e he)

theorem Steady.bind {α β : Type} {x : BuildResult α} {f : α → BuildResult β}
    (hx : Steady reason x) (hf : ∀ a, x = .ok a → Steady reason (f a)) :
    Steady reason (x >>= f) := by
  cases x with
  | ok a => exact hf a rfl
  | error e => exact steady_error (hx e rfl)

theorem steady_ensure {c : Prop} [Decidable c] {e : BuildFailure} (h : ¬c → reason e) :
    Steady reason (ensure c e : BuildResult Unit) := by
  rw [ensure]
  split_ifs with hc
  · exact steady_ok ()
  · exact steady_error (h hc)

theorem steady_call {α : Type} {result : Except AppError α}
    (h : ∀ error, result = .error error → reason (.failed (.kubo error))) :
    Steady reason (call result) := by
  cases result with
  | ok a => exact steady_ok a
  | error e => exact steady_error (h e rfl)

theorem of_call {α : Type} {result : Except AppError α} {a : α} (h : call result = .ok a) :
    result = .ok a := by
  cases result with
  | ok b => exact congrArg _ (Except.ok.inj h)
  | error e => cases h

theorem steady_mapM {α β : Type} {f : α → BuildResult β} {l : List α}
    (h : ∀ a ∈ l, Steady reason (f a)) : Steady reason (l.mapM f) := by
  induction l with
  | nil => exact steady_ok []
  | cons a l ih =>
    rw [mapM_cons]
    refine (h a mem_cons_self).bind fun b _ => ?_
    exact (ih fun a' ha' => h a' (mem_cons_of_mem a ha')).bind fun _ _ => steady_ok _

/-- **A loop of a build**, by an invariant over what is left and the state. -/
theorem foldlM_rule {α σ : Type} {f : σ → α → BuildResult σ} {J : List α → σ → Prop}
    (hstep : ∀ rest a st, J (a :: rest) st →
      Steady reason (f st a) ∧ ∀ st', f st a = .ok st' → J rest st')
    {l : List α} {st : σ} (hJ : J l st) :
    Steady reason (l.foldlM f st) ∧ ∀ st', l.foldlM f st = .ok st' → J [] st' := by
  induction l generalizing st with
  | nil => exact ⟨steady_ok st, fun st' h => Except.ok.inj h ▸ hJ⟩
  | cons a l ih =>
    obtain ⟨hsteady, hnext⟩ := hstep l a st hJ
    refine ⟨hsteady.bind fun st' hst' => (ih (hnext st' hst')).1, fun st'' h => ?_⟩
    obtain ⟨st', hst', h⟩ := of_bind h
    exact (ih (hnext st' hst')).2 st'' h

end Steady

theorem steady_checkedAdd (a b : ℕ) : Steady (· = .failed .blockTooLarge) (checkedAdd a b) := by
  refine Steady.bind (steady_ensure fun _ => ?_) fun _ _ => steady_ok _
  rfl

theorem steady_blockSize (links : List (Link Cid)) (data : List UInt8) :
    Steady (· = .failed .blockTooLarge) (blockSize kubo links data) := by
  have hloop : Steady (· = .failed .blockTooLarge)
      (links.foldlM (addLinkSize kubo) (fieldLen data.length, 0)) :=
    (foldlM_rule (J := fun _ _ => True) (fun rest link sizes _ =>
      ⟨(steady_checkedAdd _ _).bind fun _ _ => (steady_checkedAdd _ _).bind fun _ _ => steady_ok _,
        fun _ _ => trivial⟩) trivial).1
  exact hloop.bind fun _ _ => (steady_checkedAdd _ _).bind fun _ _ => steady_ok _

/-- A block is over a limit: of 64-bit sizes, of the block, or of the request that puts it. -/
def Oversized (kubo : KuboClient Cid) (links : List (Link Cid)) (data : List UInt8) : Prop :=
  ∀ sizes, blockSize kubo links data = .ok sizes →
    maxDirectoryBlockBytes < sizes.1 ∨ maxManifestBytes < kubo.payloadLength links data

theorem steady_putNode {reason : BuildFailure → Prop} {links : List (Link Cid)} {data : List UInt8}
    (hsize : Oversized kubo links data → reason (.failed .blockTooLarge))
    (hput : ∀ error, kubo.dagPut links data = .error error → reason (.failed (.kubo error))) :
    Steady reason (putNode kubo links data) := by
  rw [putNode]
  cases hblock : blockSize kubo links data with
  | error e =>
    obtain rfl := steady_blockSize links data e hblock
    refine steady_error (hsize fun sizes hsizes => ?_)
    cases hblock.symm.trans hsizes
  | ok sizes =>
    have hover (h : maxDirectoryBlockBytes < sizes.1 ∨
        maxManifestBytes < kubo.payloadLength links data) : Oversized kubo links data := by
      intro sizes' hsizes'
      cases hblock.symm.trans hsizes'
      exact h
    refine (steady_ensure fun hlength => hsize (hover (Or.inl (not_le.mp hlength)))).bind fun _ _ => ?_
    refine (steady_ensure fun hlength => hsize (hover (Or.inr (not_le.mp hlength)))).bind fun _ _ => ?_
    exact (steady_call hput).bind fun _ _ => steady_ok _

def Sharded (kubo : KuboClient Cid) (links : List (Link Cid)) : Prop :=
  ∃ sizes, blockSize kubo links directoryData = .ok sizes ∧ shardThresholdBytes < sizes.1

/-- What can disturb the writing of a directory: Kubo does not take a block, the one block of the
directory or a block of its shards is over a limit, or two of its names have the same hash. -/
inductive Disturbs (kubo : KuboClient Cid) (links : List (Link Cid)) : BuildFailure → Prop where
  | put {block : List (Link Cid)} {data : List UInt8} {error : AppError}
      (hput : kubo.dagPut block data = .error error) : Disturbs kubo links (.failed (.kubo error))
  | directory (hsharded : ¬Sharded kubo links) (hsize : Oversized kubo links directoryData) :
      Disturbs kubo links (.failed .blockTooLarge)
  | shard (hsharded : Sharded kubo links) {done rest : List (Shard Cid)} {shard : Shard Cid}
      {built : List (Cid × ℕ)} {block : List (Link Cid)}
      (hshards : shards murmur3X6464 links = .ok (done ++ shard :: rest))
      (hdone : done.foldlM (putShard kubo) [] = .ok built)
      (hblock : shard.links.mapM (shardLink built) = .ok block)
      (hsize : Oversized kubo block (data shard.bitmap)) :
      Disturbs kubo links (.failed .blockTooLarge)
  | collision (hsharded : Sharded kubo links)
      (hhash : ¬(links.map fun link => murmur3X6464 link.name).Nodup) :
      Disturbs kubo links (.failed .hashCollision)

/-! ## Shards -/

theorem hamtBitmap_data {bitmap : List UInt8} (h : bitmap.length ≤ 32) :
    hamtBitmap (data bitmap) = some bitmap := by
  have hlength : (UInt8.ofNat bitmap.length).toNat = bitmap.length := by
    rw [UInt8.toNat_ofNat']
    omega
  rw [data]
  simp only [cons_append, nil_append, hamtBitmap, hlength, take_left']

variable {links : List (Link Cid)} {node : Cid × ℕ} {built : List (Cid × ℕ)}
  {nodes : List (Shard Cid)}

theorem putNode_eq_ok (hserves : Serves kubo dag) {data : List UInt8}
    (hsorted : links.Pairwise fun a b => a.name ≤ b.name) (h : putNode kubo links data = .ok node) :
    dag node.1 = some (links, data) := by
  obtain ⟨sizes, -, h⟩ := of_bind h
  obtain ⟨-, h⟩ := of_ensure h
  obtain ⟨-, h⟩ := of_ensure h
  obtain ⟨cid, hput, h⟩ := of_bind h
  cases h
  exact hserves links data cid hsorted (of_call hput)

def WrittenLinks (built : List (Cid × ℕ)) (links : List (ShardLink Cid))
    (written : List (Link Cid)) : Prop :=
  List.Forall₂ (fun link link' => shardLink built link = .ok link') links written

theorem shardLink_append {more : List (Cid × ℕ)} {link : ShardLink Cid} {link' : Link Cid}
    (h : shardLink built link = .ok link') : shardLink (built ++ more) link = .ok link' := by
  cases link with
  | file link => exact h
  | child pfx index =>
    rw [shardLink] at h ⊢
    cases hget : built[index]? with
    | none =>
      rw [hget] at h
      cases h
    | some node =>
      rw [hget] at h
      obtain ⟨hlt, -⟩ := List.getElem?_eq_some_iff.mp hget
      rw [List.getElem?_append_left hlt, hget]
      exact h

theorem shardLink_name {link : ShardLink Cid} {link' : Link Cid}
    (h : shardLink built link = .ok link') : link'.name = link.name := by
  cases link with
  | file link =>
    cases h
    rfl
  | child pfx index =>
    rw [shardLink] at h
    split at h
    · cases h
    · cases h
      rfl

/-- The written shards: each is served with its links and its bitmap. -/
structure Written (dag : Dag Cid) (nodes : List (Shard Cid)) (built : List (Cid × ℕ)) : Prop where
  length_eq : built.length = nodes.length
  served : ∀ (i : ℕ) (shard : Shard Cid) (node : Cid × ℕ), nodes[i]? = some shard →
    built[i]? = some node → ∃ links, WrittenLinks built shard.links links ∧
      dag node.1 = some (links, data shard.bitmap)

theorem WrittenLinks.sorted {links : List (ShardLink Cid)} {written : List (Link Cid)}
    (h : WrittenLinks built links written) (hsorted : Ascending ShardLink.name links) :
    written.Pairwise fun a b => a.name ≤ b.name := by
  refine pairwise_of_forall₂ h hsorted fun link link' a b ha hb hlt => ?_
  rw [shardLink_name ha, shardLink_name hb]
  exact le_of_lt hlt

theorem written_of_foldlM (hserves : Serves kubo dag)
    (hsorted : ∀ shard ∈ nodes, Ascending ShardLink.name shard.links)
    (h : nodes.foldlM (putShard kubo) [] = .ok built) :
    Written dag nodes built := by
  induction nodes using reverseRecOn generalizing built with
  | nil =>
    cases h
    exact ⟨rfl, fun i shard node hget => by simp at hget⟩
  | append_singleton nodes shard ih =>
    rw [foldlM_append] at h
    obtain ⟨before, hbefore, h⟩ := of_bind h
    obtain ⟨built', hput, h⟩ := of_bind h
    cases h
    obtain ⟨links, hlinks, hput⟩ := of_bind hput
    obtain ⟨node, hnode, hput⟩ := of_bind hput
    cases hput
    obtain ⟨hlength, hserved⟩ := ih (fun shard' hmem => hsorted shard' (mem_append_left _ hmem))
      hbefore
    have hlinks := mapM_eq_ok_iff.mp hlinks
    refine ⟨by simp [hlength], fun i shard' node' hget hget' => ?_⟩
    have hmono : ∀ {l : List (ShardLink Cid)} {l' : List (Link Cid)}, WrittenLinks before l l' →
        WrittenLinks (before ++ [node]) l l' := fun hl => hl.imp fun _ _ => shardLink_append
    rcases lt_or_ge i nodes.length with hlt | hge
    · rw [getElem?_append_left hlt] at hget
      rw [getElem?_append_left (hlength ▸ hlt)] at hget'
      obtain ⟨links', hlinks', hdag⟩ := hserved i shard' node' hget hget'
      exact ⟨links', hmono hlinks', hdag⟩
    · have hi : i = nodes.length := by
        obtain ⟨hi, -⟩ := List.getElem?_eq_some_iff.mp hget
        rw [List.length_append, List.length_singleton] at hi
        omega
      subst hi
      rw [getElem?_concat_length] at hget
      rw [← hlength, getElem?_concat_length] at hget'
      cases hget
      cases hget'
      have hsorted := WrittenLinks.sorted hlinks (hsorted shard (by simp))
      exact ⟨links, hmono hlinks, putNode_eq_ok hserves hsorted hnode⟩

/-- What a reader relies on in the links of a shard: a file has a name, a child has none. -/
def WellNamed : ShardLink Cid → Prop
  | .file link => 2 < link.name.length
  | .child pfx _ => pfx.length = 2

/-- **Looking up through the DAG** is looking up through the shards. -/
theorem shardLookup_eq (hwritten : Written dag nodes built)
    (hbitmap : ∀ (i : ℕ) (shard : Shard Cid), nodes[i]? = some shard → shard.bitmap.length ≤ 32)
    (hnamed : ∀ (i : ℕ) (shard : Shard Cid), nodes[i]? = some shard →
      ∀ link ∈ shard.links, WellNamed link) (levels : ℕ) {i : ℕ} (hnode : built[i]? = some node)
    (hash : NameHash) (name : Text) : shardLookup dag levels node.1 hash name =
      (resolve nodes levels i hash name).map Link.cid := by
  induction levels generalizing i node with
  | zero => rfl
  | succ levels ih =>
    obtain ⟨hi, -⟩ := List.getElem?_eq_some_iff.mp hnode
    rw [hwritten.length_eq] at hi
    have hget := List.getElem?_eq_getElem hi
    generalize nodes[i] = shard at hget
    obtain ⟨links, hlinks, hdag⟩ := hwritten.served i shard node hget hnode
    rw [shardLookup, hdag, resolve, hget]
    simp only [bind_eq_bind, bind_some, hamtBitmap_data (hbitmap i shard hget),
      Shard.find]
    generalize hashByte hash levels = bucket
    split_ifs with hmark
    · rcases find?_of_forall₂ (p := fun link => link.name.take 2 == bucketPrefix bucket)
        (q := fun link => link.name.take 2 == bucketPrefix bucket) hlinks
        fun link link' h => by rw [shardLink_name h] with ⟨hfind, hfind'⟩ | ⟨link, link', hfind,
          hfind', hlink⟩
      · rw [hfind, hfind']
        rfl
      · rw [hfind, hfind']
        have hwell := hnamed i shard hget link (mem_of_find?_eq_some hfind)
        have htake := find?_some hfind
        rw [beq_iff_eq] at htake
        have hpre : (bucketPrefix bucket).length = 2 := rfl
        cases link with
        | file link =>
          obtain rfl := Except.ok.inj hlink
          have hne : link.name ≠ bucketPrefix bucket := by
            intro heq
            rw [WellNamed, heq, hpre] at hwell
            exact lt_irrefl 2 hwell
          simp only [bind_some, if_neg hne]
          split_ifs <;> rfl
        | child pfx j =>
          have hpfx : pfx = bucketPrefix bucket := by
            rw [← htake]
            exact (take_of_length_le (le_of_eq hwell)).symm
          rw [shardLink] at hlink
          split at hlink
          · cases hlink
          · rename_i cid size hbuilt
            obtain rfl := Except.ok.inj hlink
            simp only [bind_some, if_pos hpfx]
            exact ih hbuilt
    · rfl

/-! ## Writing a directory -/

/-- What a reader relies on in the links of a directory. -/
structure GoodLinks (links : List (Link Cid)) : Prop where
  sorted : links.Pairwise fun a b => a.name ≤ b.name
  names_nodup : (links.map Link.name).Nodup
  name_ne : ∀ link ∈ links, link.name ≠ []
  length_le : links.length ≤ maxFiles

theorem wellNamed_of_built (hlinks : ∀ link ∈ links, link.name ≠ [])
    (h : Built 8 (hashedLinks murmur3X6464 links) [] nodes) {i : ℕ} {shard : Shard Cid}
    (hget : nodes[i]? = some shard) : ∀ link ∈ shard.links, WellNamed link := by
  intro link hlink
  obtain ⟨levels, entries, hall, hof⟩ := h.shardOf hget
  obtain ⟨b, -, hfor⟩ := hof.bucket_of_link link hlink
  have hsub : ∀ e ∈ fiber (bucketOf levels) b entries, e ∈ entries :=
    fun e he => (mem_fiber.mp he).1
  generalize fiber (bucketOf levels) b entries = es at hfor hsub
  cases hfor with
  | file b entry =>
    obtain ⟨l, hl, rfl⟩ := mem_map.mp (hall entry (hsub entry (mem_singleton_self entry)))
    have hpos := length_pos_of_ne_nil (hlinks l hl)
    show 2 < (bucketPrefix b ++ l.name).length
    rw [length_append]
    exact Nat.lt_add_of_pos_right hpos
  | child b es i hlength hlt hshard => rfl

theorem length_foldlM_putShard {before : List (Cid × ℕ)}
    (h : nodes.foldlM (putShard kubo) before = .ok built) :
    built.length = before.length + nodes.length := by
  induction nodes generalizing before with
  | nil =>
    cases h
    rfl
  | cons shard nodes ih =>
    obtain ⟨next, hput, h⟩ := of_bind h
    obtain ⟨links, -, hput⟩ := of_bind hput
    obtain ⟨node, -, hput⟩ := of_bind hput
    cases hput
    rw [ih h, length_append, length_singleton, length_cons]
    omega

theorem steady_putShards (hlength : links.length ≤ maxFiles) (hsharded : Sharded kubo links) :
    Steady (Disturbs kubo links) (putShards kubo links) := by
  rw [putShards]
  rcases shards_spec murmur3X6464 links hlength with ⟨herror, hhash⟩ | ⟨nodes, hok, hbuilt⟩
  · rw [herror]
    exact steady_error (.collision hsharded hhash)
  · rw [hok, ok_bind]
    have htree := hbuilt.shardTree
    -- the loop has as many CIDs as shards behind it, and a child is one of those
    have hloop : Steady (Disturbs kubo links) (nodes.foldlM (putShard kubo) []) := by
      refine (foldlM_rule (J := fun rest built => ∃ done, nodes = done ++ rest ∧
          done.foldlM (putShard kubo) [] = .ok built)
        (fun rest shard built hJ => ?_) ⟨[], rfl, rfl⟩).1
      obtain ⟨done, rfl, hdone⟩ := hJ
      have hlength : built.length = done.length := by
        rw [length_foldlM_putShard hdone, length_nil, Nat.zero_add]
      constructor
      · refine Steady.bind (steady_mapM fun link hlink => ?_) fun block hblock =>
          (steady_putNode (.shard hsharded hok hdone hblock) fun _ => .put).bind fun _ _ => steady_ok _
        cases link with
        | file link => exact steady_ok link
        | child pfx j =>
          have hlt := htree.child_lt done.length shard (by simp) pfx j hlink
          rw [shardLink, getElem?_eq_getElem (hlength ▸ hlt)]
          exact steady_ok _
      · intro built' hput
        refine ⟨done ++ [shard], by simp, ?_⟩
        rw [foldlM_append, hdone, ok_bind, foldlM_cons, hput]
        rfl
    refine hloop.bind fun built hfold => ?_
    have hpos : built ≠ [] := by
      refine ne_nil_of_length_pos ?_
      rw [length_foldlM_putShard hfold]
      exact Nat.add_pos_right _ hbuilt.length_pos
    rw [getLast?_eq_some_getLast hpos]
    exact steady_ok _

/-- **Writing a directory fails only when it is disturbed**; it does not panic. -/
theorem steady_putDirectory (hlength : links.length ≤ maxFiles) :
    Steady (Disturbs kubo links) (putDirectory kubo links) := by
  rw [putDirectory]
  cases hblock : blockSize kubo links directoryData with
  | error e =>
    obtain rfl := steady_blockSize links directoryData e hblock
    refine steady_error (.directory ?_ fun sizes hsizes => ?_)
    · rintro ⟨sizes, hsizes, -⟩
      cases hblock.symm.trans hsizes
    · cases hblock.symm.trans hsizes
  | ok sizes =>
    show Steady _ (if shardThresholdBytes < sizes.1 then putShards kubo links
      else putNode kubo links directoryData)
    split_ifs with hsize
    · exact steady_putShards hlength ⟨sizes, hblock, hsize⟩
    · refine steady_putNode (.directory ?_) fun _ => .put
      rintro ⟨sizes', hsizes', hlt⟩
      cases hblock.symm.trans hsizes'
      exact hsize hlt

theorem putShards_spec (hserves : Serves kubo dag) (hlinks : GoodLinks links)
    (h : putShards kubo links = .ok node) (name : Text) :
    ∃ root, lookupName dag node.1 name = Option.map Link.cid root ∧
      ∀ link, root = some link ↔ link ∈ links ∧ link.name = name := by
  rw [putShards] at h
  rcases shards_spec murmur3X6464 links hlinks.length_le with ⟨herror, -⟩ | ⟨nodes, hok, hbuilt⟩
  · rw [herror] at h
    cases h
  · rw [hok, ok_bind] at h
    obtain ⟨built, hfold, h⟩ := of_bind h
    have hsorted : ∀ shard ∈ nodes, Ascending ShardLink.name shard.links := by
      intro shard hmem
      obtain ⟨i, hi⟩ := mem_iff_getElem?.mp hmem
      obtain ⟨levels, entries, -, hof⟩ := hbuilt.shardOf hi
      exact hof.ascending
    have hwritten := written_of_foldlM hserves hsorted hfold
    cases hlast : built.getLast? with
    | none =>
      rw [hlast] at h
      cases h
    | some root =>
      rw [hlast] at h
      obtain rfl := Except.ok.inj h
      have hnode : built[nodes.length - 1]? = some root := by
        rw [← hwritten.length_eq, ← getLast?_eq_getElem?, hlast]
      have hget := getElem?_eq_getElem (Nat.sub_one_lt hbuilt.length_pos.ne')
      obtain ⟨links', -, hdag⟩ := hwritten.served _ _ root hget hnode
      refine ⟨resolve nodes 8 (nodes.length - 1) (murmur3X6464 name) name, ?_,
        fun link => hbuilt.resolve_iff⟩
      rw [← shardLookup_eq hwritten (fun i shard hi => ?_)
        (fun i shard hi => wellNamed_of_built hlinks.name_ne hbuilt hi) 8 hnode, lookupName, hdag]
      · rfl
      · obtain ⟨levels, entries, -, hof⟩ := hbuilt.shardOf hi
        exact hof.bitmap_length

/-- **A directory in the DAG**: a name leads from the CID of a directory to the link with that
name, and nowhere else. -/
theorem putDirectory_spec (hserves : Serves kubo dag) (hlinks : GoodLinks links)
    (h : putDirectory kubo links = .ok node) (name : Text) (target : Cid) :
    lookupName dag node.1 name = some target ↔
      ∃ link ∈ links, link.name = name ∧ link.cid = target := by
  obtain ⟨⟨length, cumulative⟩, -, h⟩ := of_bind h
  dsimp only at h
  have hroot : ∃ root, lookupName dag node.1 name = Option.map Link.cid root ∧
      ∀ link, root = some link ↔ link ∈ links ∧ link.name = name := by
    split_ifs at h with hsize
    · exact putShards_spec hserves hlinks h name
    · refine ⟨links.find? fun link => link.name == name, ?_, fun link => ⟨fun hfind => ?_, ?_⟩⟩
      · rw [lookupName, putNode_eq_ok hserves hlinks.sorted h]
        rfl
      · exact ⟨mem_of_find?_eq_some hfind, by simpa using find?_some hfind⟩
      · rintro ⟨hlink, rfl⟩
        cases hfind : links.find? fun other => other.name == link.name with
        | none =>
          have hnone := find?_eq_none.mp hfind link hlink
          simp at hnone
        | some other =>
          have hname : other.name = link.name := by simpa using find?_some hfind
          rw [inj_on_of_nodup_map hlinks.names_nodup (mem_of_find?_eq_some hfind) hlink
            hname]
  obtain ⟨root, hlookup, hiff⟩ := hroot
  rw [hlookup, map_eq_some_iff]
  constructor
  · rintro ⟨link, hlink, rfl⟩
    obtain ⟨hmem, hname⟩ := (hiff link).mp hlink
    exact ⟨link, hmem, hname, rfl⟩
  · rintro ⟨link, hmem, hname, rfl⟩
    exact ⟨link, (hiff link).mpr ⟨hmem, hname⟩, rfl⟩

end IpfS3.Kubo
