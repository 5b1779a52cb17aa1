import IpfS3.Crypto.Chunker

/-!
# Range reads of encrypted objects

`encrypted_object_body` of `s3/ops/object.rs`: decrypted chunks are cut to the requested range, and
the last selected slice is held back until the stream has ended, so that a client that counts bytes
cannot take a truncated or tampered object for a complete one.

* `bodyLoop_spec`: what the loop delivers from any point on.
* `encryptedObjectBody_range`: the body is the range, or it is a strict part of it followed by one
  error.

The offset is a `u64` that the code adds to with an overflow check, so an object whose plaintext
does not fit in a `u64` is refused with an error of its own (`encryptedObjectBody_u64_overflow`).
-/

namespace IpfS3.Crypto

open Framing List

inductive BodyError where
  | permissionDenied (message : String)
  | other (message : String)
  | unexpectedEof (message : String)
  deriving DecidableEq

def internalStorageBackendError : String := "internal storage backend error"

def sizeExceedsLimit : BodyError := .other "decrypted object size exceeds limit"

def chunkError (authenticationError : String) : AppError → BodyError
  | .crypto _ => .permissionDenied authenticationError
  | _ => .other internalStorageBackendError

/-- The generator of `encrypted_object_body` over the decrypted chunks, from an offset and a
retained slice on. -/
def bodyLoop (authenticationError : String) (range : Option (ℕ × ℕ)) :
    ℕ → Option Bytes → List (AppResult Bytes) → List (Except BodyError Bytes)
  | plaintextOffset, pendingSelected, [] =>
    match range with
    | some (_, stop) =>
      if plaintextOffset < stop then
        [.error (.unexpectedEof "requested range exceeds available decrypted data")]
      else pendingSelected.toList.map .ok
    | none => pendingSelected.toList.map .ok
  | _, _, .error e :: _ => [.error (chunkError authenticationError e)]
  | plaintextOffset, pendingSelected, .ok bytes :: chunks =>
    let chunkEnd := plaintextOffset + bytes.length
    if 2 ^ 64 ≤ bytes.length ∨ 2 ^ 64 ≤ chunkEnd then [.error sizeExceedsLimit]
    else
      match range with
      | some (start, stop) =>
        let selectedStart := max start plaintextOffset
        let selectedEnd := min stop chunkEnd
        if selectedStart < selectedEnd then
          let localStart := selectedStart - plaintextOffset
          let localEnd := selectedEnd - plaintextOffset
          let selected := (bytes.take localEnd).drop localStart
          pendingSelected.toList.map .ok ++
            bodyLoop authenticationError range chunkEnd (some selected) chunks
        else bodyLoop authenticationError range chunkEnd pendingSelected chunks
      | none => .ok bytes :: bodyLoop authenticationError range chunkEnd pendingSelected chunks

def encryptedObjectBody {Key : Type} (aead : Aead Key) (key : Key)
    (cat : List (Except StreamError Bytes)) (range : Option (ℕ × ℕ))
    (authenticationError : String) : List (Except BodyError Bytes) :=
  bodyLoop authenticationError range 0 none (decryptChunkStream aead key cat)

/-! ## The window of a range -/

def window (start stop : ℕ) (P : Bytes) : Bytes := (P.take stop).drop start

/-- The part of a chunk at an offset that lies in the range. -/
def slice (start stop offset : ℕ) (bytes : Bytes) : Bytes :=
  (bytes.take (min stop (offset + bytes.length) - offset)).drop (max start offset - offset)

section Window

variable {start stop : ℕ}

theorem length_window_le (P : Bytes) : (window start stop P).length ≤ stop - start := by
  rw [window, length_drop, length_take]
  omega

theorem window_append (A b : Bytes) :
    window start stop (A ++ b) = window start stop A ++ slice start stop A.length b := by
  rw [window, window, slice, take_append, drop_append, length_take]
  by_cases hA : A.length ≤ stop
  · have htake : b.take (min stop (A.length + b.length) - A.length) =
        b.take (stop - A.length) := by
      rcases le_total stop (A.length + b.length) with hle | hle
      · rw [min_eq_left hle]
      · rw [min_eq_right hle, Nat.add_sub_cancel_left, take_length,
          take_of_length_le (by omega)]
    rw [htake]
    congr 2
    omega
  · have hzero : stop - A.length = 0 := by omega
    have hzero' : min stop (A.length + b.length) - A.length = 0 := by omega
    rw [hzero, hzero', take_zero, drop_nil, drop_nil]

theorem window_isPrefix_append (A b : Bytes) :
    window start stop A <+: window start stop (A ++ b) := by
  rw [window_append]
  exact prefix_append _ _

theorem slice_eq_nil_iff (offset : ℕ) (bytes : Bytes) :
    slice start stop offset bytes = [] ↔
      ¬max start offset < min stop (offset + bytes.length) := by
  rw [slice, drop_eq_nil_iff, length_take]
  omega

end Window

/-! ## The loop -/

def leadingChunks : List (AppResult Bytes) → List Bytes
  | [] => []
  | .error _ :: _ => []
  | .ok bytes :: chunks => bytes :: leadingChunks chunks

/-- After the plaintext `A`, the loop has delivered `D` and holds back the rest of the window. -/
structure Holds (start stop : ℕ) (A D : Bytes) (pending : Option Bytes) : Prop where
  window_eq : window start stop A = D ++ pending.getD []
  pending_ne_nil : ∀ q, pending = some q → q ≠ []
  delivered_eq_nil : pending = none → D = []

/-- All chunks authenticate, and the plaintext reaches the end of the range and fits in a `u64`. -/
def Complete (stop : ℕ) (A : Bytes) (chunks : List (AppResult Bytes)) : Prop :=
  AllOk chunks ∧ stop ≤ (A ++ (leadingChunks chunks).flatten).length ∧
    (A ++ (leadingChunks chunks).flatten).length < 2 ^ 64

section Loop

variable {start stop : ℕ} {A D : Bytes} {pending : Option Bytes}

theorem holds_nil : Holds start stop [] [] none where
  window_eq := by simp [window]
  pending_ne_nil := by simp
  delivered_eq_nil _ := rfl

section

variable (h : Holds start stop A D pending)

include h

/-- **What is held back is never empty**: less than the range has been delivered. -/
theorem Holds.length_lt (hrange : start < stop) :
    D.length < stop - start := by
  cases hpending : pending with
  | none =>
    rw [h.delivered_eq_nil hpending, length_nil]
    omega
  | some q =>
    have hlen := congrArg length h.window_eq
    have hle : (window start stop A).length ≤ stop - start := length_window_le A
    have hpos := length_pos_of_ne_nil (h.pending_ne_nil q hpending)
    rw [hpending, Option.getD_some, length_append] at hlen
    omega

/-- **Delivery is strict**: the window of any longer text is empty or has more to give. -/
theorem Holds.length_lt_window (rest : Bytes) (hne : window start stop (A ++ rest) ≠ []) :
    D.length < (window start stop (A ++ rest)).length := by
  cases hpending : pending with
  | none =>
    rw [h.delivered_eq_nil hpending, length_nil]
    exact length_pos_of_ne_nil hne
  | some q =>
    have hlen := congrArg length h.window_eq
    have hle := (@window_isPrefix_append start stop A rest).length_le
    have hpos := length_pos_of_ne_nil (h.pending_ne_nil q hpending)
    rw [hpending, Option.getD_some, length_append] at hlen
    omega

theorem Holds.isPrefix : D <+: window start stop A := by
  rw [h.window_eq]
  exact prefix_append _ _

theorem Holds.skip {b : Bytes} (hb : slice start stop A.length b = []) :
    Holds start stop (A ++ b) D pending where
  window_eq := by rw [window_append, hb, append_nil, h.window_eq]
  pending_ne_nil := h.pending_ne_nil
  delivered_eq_nil := h.delivered_eq_nil

theorem Holds.select {b : Bytes} (hb : slice start stop A.length b ≠ []) :
    Holds start stop (A ++ b) (D ++ pending.toList.flatten)
      (some (slice start stop A.length b)) where
  window_eq := by
    rw [window_append, h.window_eq, Option.getD_some]
    cases pending <;> simp
  pending_ne_nil q hq := by
    cases hq
    exact hb
  delivered_eq_nil hnone := absurd hnone (by simp)

end

theorem complete_cons_ok (b : Bytes) (chunks : List (AppResult Bytes)) :
    Complete stop A (.ok b :: chunks) ↔ Complete stop (A ++ b) chunks := by
  have hall : AllOk (.ok b :: chunks) ↔ AllOk chunks := by
    rw [allOk_cons_iff]
    exact and_iff_right ⟨b, rfl⟩
  rw [Complete, Complete, hall, leadingChunks, flatten_cons, append_assoc]

/-- How the rest of the body ends: with the window complete, or with one error before that. -/
structure Ends (start stop : ℕ) (A D : Bytes) (chunks : List (AppResult Bytes))
    (body : List (Except BodyError Bytes)) : Prop where
  complete : Complete stop A chunks → ∃ slices : List Bytes, body = slices.map .ok ∧
    D ++ slices.flatten = window start stop (A ++ (leadingChunks chunks).flatten)
  failed : ¬Complete stop A chunks → ∃ (slices : List Bytes) (e : BodyError),
    body = slices.map .ok ++ [.error e] ∧
    D ++ slices.flatten <+: window start stop (A ++ (leadingChunks chunks).flatten) ∧
    (D ++ slices.flatten).length < stop - start ∧
    ∀ rest, window start stop (A ++ (leadingChunks chunks).flatten ++ rest) ≠ [] →
      (D ++ slices.flatten).length <
        (window start stop (A ++ (leadingChunks chunks).flatten ++ rest)).length

theorem Ends.of_error (h : Holds start stop A D pending) (hrange : start < stop)
    {chunks : List (AppResult Bytes)} (e : BodyError) (hfail : ¬Complete stop A chunks) :
    Ends start stop A D chunks [.error e] where
  complete hcomplete := absurd hcomplete hfail
  failed _ := by
    refine ⟨[], e, rfl, ?_⟩
    rw [flatten_nil, append_nil]
    refine ⟨h.isPrefix.trans (window_isPrefix_append A _), h.length_lt hrange, fun rest => ?_⟩
    rw [append_assoc]
    exact h.length_lt_window _

theorem Ends.cons {b : Bytes} {chunks : List (AppResult Bytes)} {released : List Bytes}
    {body : List (Except BodyError Bytes)}
    (h : Ends start stop (A ++ b) (D ++ released.flatten) chunks body) :
    Ends start stop A D (.ok b :: chunks) (released.map .ok ++ body) where
  complete hcomplete := by
    obtain ⟨slices, rfl, hslices⟩ := h.complete ((complete_cons_ok b chunks).mp hcomplete)
    refine ⟨released ++ slices, by rw [map_append], ?_⟩
    rw [flatten_append, leadingChunks, flatten_cons, ← append_assoc,
      ← append_assoc, hslices]
  failed hfail := by
    obtain ⟨slices, e, rfl, hends⟩ :=
      h.failed fun hcomplete => hfail ((complete_cons_ok b chunks).mpr hcomplete)
    refine ⟨released ++ slices, e, by rw [map_append, append_assoc], ?_⟩
    rw [flatten_append, leadingChunks, flatten_cons, ← append_assoc,
      ← append_assoc]
    exact hends

/-- **The loop from any point on.** -/
theorem bodyLoop_spec (authenticationError : String) (hrange : start < stop)
    (chunks : List (AppResult Bytes)) (hA : A.length < 2 ^ 64)
    (h : Holds start stop A D pending) :
    Ends start stop A D chunks
      (bodyLoop authenticationError (some (start, stop)) A.length pending chunks) := by
  induction chunks generalizing A D pending with
  | nil =>
    rw [bodyLoop]
    by_cases hshort : A.length < stop
    · simp only [if_pos hshort]
      refine Ends.of_error h hrange _ fun hcomplete => ?_
      have hle := hcomplete.2.1
      rw [leadingChunks, flatten_nil, append_nil] at hle
      omega
    · simp only [if_neg hshort]
      have hcomplete : Complete stop A [] :=
        ⟨fun item hitem => absurd hitem not_mem_nil, by simpa [leadingChunks] using hshort,
          by simpa [leadingChunks] using hA⟩
      refine ⟨fun _ => ⟨pending.toList, rfl, ?_⟩, fun hfail => absurd hcomplete hfail⟩
      rw [leadingChunks, flatten_nil, append_nil, h.window_eq]
      cases pending <;> simp
  | cons chunk chunks ih =>
    cases chunk with
    | error e =>
      refine Ends.of_error h hrange _ fun hcomplete => ?_
      obtain ⟨a, ha⟩ := hcomplete.1 _ mem_cons_self
      cases ha
    | ok b =>
      rw [bodyLoop]
      dsimp only
      by_cases hover : 2 ^ 64 ≤ b.length ∨ 2 ^ 64 ≤ A.length + b.length
      · rw [if_pos hover]
        refine Ends.of_error h hrange _ fun hcomplete => ?_
        have hlt := hcomplete.2.2
        rw [leadingChunks, flatten_cons, length_append, length_append] at hlt
        omega
      rw [if_neg hover]
      have hA' : (A ++ b).length < 2 ^ 64 := by
        rw [length_append]
        omega
      by_cases hselected : max start A.length < min stop (A.length + b.length)
      · rw [if_pos hselected]
        have hne : slice start stop A.length b ≠ [] :=
          fun hnil => (slice_eq_nil_iff _ _).mp hnil hselected
        have hrest := ih hA' (h.select hne)
        rw [length_append] at hrest
        exact hrest.cons
      · rw [if_neg hselected]
        have hrest := ih hA' (h.skip ((slice_eq_nil_iff _ _).mpr hselected))
        rw [length_append, ← append_nil D, ← @flatten_nil UInt8] at hrest
        exact hrest.cons

end Loop

/-! ## The body -/

section Body

variable {Key : Type} (aead : Aead Key) (key : Key)

/-- The plaintext of a sequence of cipher frames, up to the first that does not authenticate. -/
def plaintext (frames : List Bytes) : Bytes :=
  (leadingChunks (frames.map (decrypt aead key))).flatten

def Authentic (frames : List Bytes) : Prop := AllOk (frames.map (decrypt aead key))

theorem leadingChunks_decryptFrame (results : List (Except StreamError Bytes)) :
    leadingChunks (results.map (decryptFrame aead key)) <+:
      leadingChunks ((oks results).map (decrypt aead key)) := by
  induction results with
  | nil => exact prefix_rfl
  | cons result results ih =>
    cases result with
    | error e =>
      obtain ⟨e', he'⟩ : ∃ e', decryptFrame aead key (.error e) = .error e' := by
        rw [decryptFrame]
        split_ifs <;> exact ⟨_, rfl⟩
      rw [map_cons, he', leadingChunks]
      exact nil_prefix
    | ok bytes =>
      rw [map_cons, oks_ok_cons, map_cons, decryptFrame]
      cases decrypt aead key bytes with
      | error e => exact nil_prefix
      | ok plain => exact (prefix_cons_inj plain).mpr ih

theorem allOk_map_decryptFrame (results : List (Except StreamError Bytes)) :
    AllOk (results.map (decryptFrame aead key)) ↔
      AllOk results ∧ Authentic aead key (oks results) := by
  induction results with
  | nil => simp [AllOk, Authentic]
  | cons result results ih =>
    cases result with
    | error e =>
      have hchunk : ¬∃ a, decryptFrame aead key (.error e) = .ok a := by
        rw [decryptFrame]
        split_ifs <;> simp
      simp [AllOk, hchunk]
    | ok bytes =>
      rw [Authentic, oks_ok_cons, map_cons, map_cons, allOk_cons_iff, allOk_cons_iff,
        allOk_cons_iff, ih, decryptFrame]
      constructor
      · rintro ⟨hchunk, hall, hrest⟩
        exact ⟨⟨⟨bytes, rfl⟩, hall⟩, hchunk, hrest⟩
      · rintro ⟨⟨-, hall⟩, hchunk, hrest⟩
        exact ⟨hchunk, hall, hrest⟩

theorem leadingChunks_decryptFrame_of_allOk {results : List (Except StreamError Bytes)}
    (h : AllOk results) :
    leadingChunks (results.map (decryptFrame aead key)) =
      leadingChunks ((oks results).map (decrypt aead key)) := by
  nth_rewrite 1 [h.eq_map_oks]
  rw [map_map]
  rfl

theorem allOk_frameStream_iff {frameSize : ℕ} {buf : Bytes}
    (items : List (Except StreamError Bytes)) :
    AllOk (frameStream frameSize buf items) ↔ AllOk items := by
  have hiff : ∀ l : List (Except StreamError Bytes), AllOk l ↔ ∀ e, .error e ∉ l := by
    intro l
    constructor
    · intro h e he
      obtain ⟨a, ha⟩ := h _ he
      cases ha
    · intro h item hitem
      cases item with
      | ok a => exact ⟨a, rfl⟩
      | error e => exact absurd hitem (h e)
  rw [hiff, hiff]
  exact forall_congr' fun e => not_congr error_mem_frameStream

variable {frames : List Bytes} {items : List (Except StreamError Bytes)}

theorem oks_frameStream_eq (hframes : Framed cipherChunk frames)
    (hitems : (oks items).flatten = frames.flatten) :
    oks (frameStream cipherChunk [] items) = frames := by
  obtain ⟨hframed, hflat⟩ := oks_frameStream items
    (show ([] : Bytes).length < cipherChunk from Nat.succ_pos _)
  exact hframed.eq_of_flatten_eq hframes (by rw [hflat, nil_append, hitems])

theorem complete_decryptChunkStream_iff (hframes : Framed cipherChunk frames)
    (hitems : (oks items).flatten = frames.flatten) (stop : ℕ) :
    Complete stop [] (decryptChunkStream aead key items) ↔
      AllOk items ∧ Authentic aead key frames ∧ stop ≤ (plaintext aead key frames).length ∧
        (plaintext aead key frames).length < 2 ^ 64 := by
  have hoks := oks_frameStream_eq hframes hitems
  rw [Complete, decryptChunkStream, allOk_map_decryptFrame, allOk_frameStream_iff, hoks,
    and_assoc, nil_append]
  refine and_congr_right fun hok => ?_
  rw [leadingChunks_decryptFrame_of_allOk aead key ((allOk_frameStream_iff items).mpr hok), hoks]
  rfl

/-- **Range reads of encrypted objects fail closed.**  For every sequence of cipher frames, every
fragmentation of the backend stream and every plaintext that begins with what the frames
authenticate: the body is exactly the range when the stream has no error, every frame authenticates
and the plaintext reaches the end of the range and fits in a `u64`; otherwise it is a part of the
range, shorter than it, and one error. -/
theorem encryptedObjectBody_range (authenticationError : String)
    (hframes : Framed cipherChunk frames) (hitems : (oks items).flatten = frames.flatten)
    {P : Bytes} (hP : plaintext aead key frames <+: P) {start stop : ℕ} (hrange : start < stop) :
    (AllOk items ∧ Authentic aead key frames ∧ stop ≤ (plaintext aead key frames).length ∧
        (plaintext aead key frames).length < 2 ^ 64 →
      ∃ slices : List Bytes,
        encryptedObjectBody aead key items (some (start, stop)) authenticationError =
          slices.map .ok ∧
        slices.flatten = (P.take stop).drop start ∧ slices.flatten.length = stop - start) ∧
    (¬(AllOk items ∧ Authentic aead key frames ∧ stop ≤ (plaintext aead key frames).length ∧
        (plaintext aead key frames).length < 2 ^ 64) →
      ∃ (slices : List Bytes) (e : BodyError),
        encryptedObjectBody aead key items (some (start, stop)) authenticationError =
          slices.map .ok ++ [.error e] ∧
        slices.flatten <+: (P.take stop).drop start ∧ slices.flatten.length < stop - start ∧
        ((P.take stop).drop start ≠ [] → slices.flatten ≠ (P.take stop).drop start)) := by
  have hends := bodyLoop_spec authenticationError hrange (decryptChunkStream aead key items)
    (A := []) (by simp) holds_nil
  have hle : (leadingChunks (decryptChunkStream aead key items)).flatten <+: P := by
    refine List.IsPrefix.trans ?_ hP
    obtain ⟨t, ht⟩ := leadingChunks_decryptFrame aead key (frameStream cipherChunk [] items)
    rw [oks_frameStream_eq hframes hitems] at ht
    refine ⟨t.flatten, ?_⟩
    rw [decryptChunkStream, ← flatten_append, ht, plaintext]
  rw [← complete_decryptChunkStream_iff aead key hframes hitems stop]
  refine ⟨fun hcomplete => ?_, fun hfail => ?_⟩
  · obtain ⟨slices, hbody, hslices⟩ := hends.complete hcomplete
    have hstop := hcomplete.2.1
    obtain ⟨rest, rfl⟩ := hle
    rw [nil_append] at hslices hstop
    refine ⟨slices, hbody, ?_, ?_⟩
    · rw [take_append_of_le_length hstop]
      exact hslices
    · rw [nil_append] at hslices
      rw [hslices, window, length_drop, length_take]
      omega
  · obtain ⟨slices, e, hbody, hpre, hlen, hstrict⟩ := hends.failed hfail
    obtain ⟨rest, rfl⟩ := hle
    refine ⟨slices, e, hbody, hpre.trans (window_isPrefix_append _ rest), hlen, fun hne heq => ?_⟩
    have hlt := hstrict rest hne
    rw [nil_append, heq] at hlt
    exact absurd hlt (lt_irrefl _)

end Body

/-! ## Frames of zeros -/

def zeroFrame : Bytes := replicate cipherChunk 0

theorem decrypt_zeroFrame : decrypt transparent () zeroFrame = .ok (replicate chunkSize 0) := by
  rw [decrypt, zeroFrame, length_replicate, if_neg (by decide)]
  dsimp only [transparent]
  rw [take_replicate, drop_replicate]
  rfl

theorem framed_replicate_zeroFrame (n : ℕ) : Framed cipherChunk (replicate n zeroFrame) := by
  rw [← append_nil (replicate n zeroFrame)]
  refine Framed.append_full (Nat.succ_pos _) (fun f hf => ?_) trivial
  rw [eq_of_mem_replicate hf, zeroFrame, length_replicate]

theorem leadingChunks_zeroFrames (n : ℕ) :
    leadingChunks ((replicate n zeroFrame).map (decrypt transparent ())) =
      replicate n (replicate chunkSize 0) := by
  induction n with
  | zero => rfl
  | succ n ih => rw [replicate_succ, map_cons, decrypt_zeroFrame, leadingChunks, ih,
      replicate_succ]

theorem length_plaintext_zeroFrames (n : ℕ) :
    (plaintext transparent () (replicate n zeroFrame)).length = n * chunkSize := by
  rw [plaintext, leadingChunks_zeroFrames, length_flatten, map_replicate,
    sum_replicate, length_replicate, smul_eq_mul]

theorem authentic_zeroFrames (n : ℕ) : Authentic transparent () (replicate n zeroFrame) := by
  rw [Authentic, map_replicate, decrypt_zeroFrame]
  intro item hitem
  exact ⟨_, eq_of_mem_replicate hitem⟩

/-- Two frames of zeros, and a range that ends in the second one. -/
theorem encryptedObjectBody_range_transparent :
    ∃ slices : List Bytes,
      encryptedObjectBody transparent () ((replicate 2 zeroFrame).map .ok)
        (some (5, chunkSize + 9)) "decryption failed" = slices.map .ok ∧
      slices.flatten.length = chunkSize + 4 := by
  have hlen := length_plaintext_zeroFrames 2
  have hrange := (encryptedObjectBody_range transparent () "decryption failed"
    (framed_replicate_zeroFrame 2)
    (show (oks ((replicate 2 zeroFrame).map
      (Except.ok : Bytes → Except StreamError Bytes))).flatten = _ by rw [oks_map_ok])
    prefix_rfl (show 5 < chunkSize + 9 by decide)).1
    ⟨allOk_map_ok _, authentic_zeroFrames 2, by rw [hlen]; decide, by rw [hlen]; decide⟩
  obtain ⟨slices, hbody, -, hslices⟩ := hrange
  exact ⟨slices, hbody, hslices⟩

/-- **A plaintext of `2 ^ 64` bytes** authenticates throughout and covers the range of its first
byte, and is refused by the overflow check of the offset. -/
theorem encryptedObjectBody_u64_overflow :
    Framed cipherChunk (replicate (2 ^ 46) zeroFrame) ∧
      Authentic transparent () (replicate (2 ^ 46) zeroFrame) ∧
      1 ≤ (plaintext transparent () (replicate (2 ^ 46) zeroFrame)).length ∧
      ∃ (slices : List Bytes) (e : BodyError),
        encryptedObjectBody transparent () ((replicate (2 ^ 46) zeroFrame).map .ok)
          (some (0, 1)) "decryption failed" = slices.map .ok ++ [.error e] ∧
        slices.flatten = [] := by
  have hlen := length_plaintext_zeroFrames (2 ^ 46)
  have hitems : (oks ((replicate (2 ^ 46) zeroFrame).map
      (Except.ok : Bytes → Except StreamError Bytes))).flatten =
      (replicate (2 ^ 46) zeroFrame).flatten := by rw [oks_map_ok]
  have hframed := framed_replicate_zeroFrame (2 ^ 46)
  refine ⟨hframed, authentic_zeroFrames _, by rw [hlen]; decide, ?_⟩
  have hends := bodyLoop_spec "decryption failed" (show 0 < 1 from Nat.one_pos)
    (decryptChunkStream transparent () ((replicate (2 ^ 46) zeroFrame).map .ok))
    (A := []) (by simp) holds_nil
  obtain ⟨slices, e, hbody, -, hshort, -⟩ := hends.failed fun hcomplete => by
    rw [complete_decryptChunkStream_iff transparent () hframed hitems, hlen] at hcomplete
    exact absurd hcomplete.2.2.2 (by decide)
  exact ⟨slices, e, hbody, eq_nil_of_length_eq_zero (by simpa using hshort)⟩

end IpfS3.Crypto
