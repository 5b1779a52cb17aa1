import IpfS3.AppError
import IpfS3.Foundations.Framing
import IpfS3.Foundations.Fallible

/-!
# Chunked encryption

`crypto/chunker.rs` and `crypto/aes_gcm.rs`: a byte stream is cut into chunks of 256 KiB, each chunk
is encrypted under a fresh nonce, and the decryptor cuts whatever fragments arrive back into the
encryptor's chunks, which are 28 bytes longer.

A stream is the list of its items.  `frameStream` is the re-framing loop with its buffer; it reads
the framing of the concatenated input (`frameStream_ok`), which does not depend on how the input was
split.  AES-GCM enters only through the four facts of `AesGcm`.

The main result is `decryptChunkStream_encryptChunkStream`.
-/

namespace IpfS3.Crypto

open Framing Fallible List

abbrev Bytes := List UInt8

/-! ## Re-framing -/

def chunkSize : ℕ := 256 * 1024

/-- `CHUNK_OVERHEAD`: nonce and tag. -/
def chunkOverhead : ℕ := 12 + 16

def cipherChunk : ℕ := chunkSize + chunkOverhead

/-- The inner loop of `frame_stream` over one input item: the frames it yields and the buffer it
leaves.  Every turn takes at least one byte, so the length of the item is enough fuel. -/
def frameBytes (frameSize : ℕ) : ℕ → Bytes → Bytes → List Bytes × Bytes
  | 0, buf, _ => ([], buf)
  | fuel + 1, buf, bytes =>
    if bytes.isEmpty then ([], buf)
    else if buf.isEmpty && decide (frameSize ≤ bytes.length) then
      let (frames, buf) := frameBytes frameSize fuel buf (bytes.drop frameSize)
      (bytes.take frameSize :: frames, buf)
    else
      let len := min (frameSize - buf.length) bytes.length
      let buf := buf ++ bytes.take len
      if buf.length = frameSize then
        let (frames, rest) := frameBytes frameSize fuel [] (bytes.drop len)
        (buf :: frames, rest)
      else frameBytes frameSize fuel buf (bytes.drop len)

/-- `frame_stream`, from a buffer on.  An error passes through and the buffer is kept. -/
def frameStream {ε : Type} (frameSize : ℕ) : Bytes → List (Except ε Bytes) → List (Except ε Bytes)
  | buf, [] => if buf.isEmpty then [] else [.ok buf]
  | buf, .ok bytes :: items =>
    let (frames, buf) := frameBytes frameSize bytes.length buf bytes
    frames.map .ok ++ frameStream frameSize buf items
  | buf, .error e :: items => .error e :: frameStream frameSize buf items

/-- The values of a stream, without its errors. -/
def oks {ε α : Type} (items : List (Except ε α)) : List α := items.filterMap Except.toOption

variable {ε : Type} {frameSize : ℕ}

@[simp] theorem oks_nil {α : Type} : oks ([] : List (Except ε α)) = [] := rfl

@[simp] theorem oks_ok_cons {α : Type} (a : α) (items : List (Except ε α)) :
    oks (.ok a :: items) = a :: oks items := rfl

@[simp] theorem oks_error_cons {α : Type} (e : ε) (items : List (Except ε α)) :
    oks (.error e :: items) = oks items := rfl

@[simp] theorem oks_append {α : Type} (items items' : List (Except ε α)) :
    oks (items ++ items') = oks items ++ oks items' := filterMap_append

@[simp] theorem oks_map_ok {α : Type} (l : List α) :
    oks (l.map (Except.ok : α → Except ε α)) = l := by
  induction l with
  | nil => rfl
  | cons a l ih => rw [map_cons, oks_ok_cons, ih]

theorem frameBytes_spec {fuel : ℕ} {buf bytes : Bytes} (hbuf : buf.length < frameSize)
    (hfuel : bytes.length ≤ fuel) :
    (∀ f ∈ (frameBytes frameSize fuel buf bytes).1, f.length = frameSize) ∧
      (frameBytes frameSize fuel buf bytes).2.length < frameSize ∧
      (frameBytes frameSize fuel buf bytes).1.flatten ++ (frameBytes frameSize fuel buf bytes).2 =
        buf ++ bytes := by
  induction fuel generalizing buf bytes with
  | zero =>
    obtain rfl : bytes = [] := eq_nil_of_length_eq_zero (by omega)
    exact ⟨by simp [frameBytes], hbuf, by simp [frameBytes]⟩
  | succ fuel ih =>
    rw [frameBytes]
    by_cases hempty : bytes.isEmpty = true
    · rw [if_pos hempty, isEmpty_iff.mp hempty]
      exact ⟨by simp, hbuf, by simp⟩
    have hpos : 0 < bytes.length := length_pos_of_ne_nil (by simpa using hempty)
    rw [if_neg hempty]
    by_cases hfull : (buf.isEmpty && decide (frameSize ≤ bytes.length)) = true
    · -- a whole frame straight from the input
      rw [if_pos hfull]
      simp only [Bool.and_eq_true, List.isEmpty_iff, decide_eq_true_eq] at hfull
      have hdrop : (bytes.drop frameSize).length ≤ fuel := by
        rw [List.length_drop]
        omega
      obtain ⟨hall, hlt, hflat⟩ := ih hbuf hdrop
      refine ⟨forall_mem_cons.mpr ⟨?_, hall⟩, hlt, ?_⟩
      · rw [length_take]
        omega
      · rw [List.flatten_cons, List.append_assoc, hflat, hfull.1, List.nil_append,
          List.take_append_drop, List.nil_append]
    rw [if_neg hfull]
    generalize hlen : min (frameSize - buf.length) bytes.length = len
    have hdrop : (bytes.drop len).length ≤ fuel := by
      rw [length_drop]
      omega
    by_cases hsize : (buf ++ bytes.take len).length = frameSize
    · -- the buffer is filled up
      rw [if_pos hsize]
      have hnil : ([] : Bytes).length < frameSize := by
        rw [length_nil]
        omega
      obtain ⟨hall, hlt, hflat⟩ := ih hnil hdrop
      refine ⟨forall_mem_cons.mpr ⟨hsize, hall⟩, hlt, ?_⟩
      rw [flatten_cons, append_assoc, hflat, nil_append, append_assoc,
        take_append_drop]
    · -- the item ends inside a frame
      rw [if_neg hsize]
      have hless : (buf ++ bytes.take len).length < frameSize := by
        rw [length_append, length_take] at hsize ⊢
        omega
      obtain ⟨hall, hlt, hflat⟩ := ih hless hdrop
      refine ⟨hall, hlt, ?_⟩
      rw [hflat, append_assoc, take_append_drop]

/-- **Re-framing reads the framing of the concatenated input**, wherever its errors are. -/
theorem oks_frameStream {buf : Bytes} (items : List (Except ε Bytes))
    (hbuf : buf.length < frameSize) :
    Framed frameSize (oks (frameStream frameSize buf items)) ∧
      (oks (frameStream frameSize buf items)).flatten = buf ++ (oks items).flatten := by
  induction items generalizing buf with
  | nil =>
    rw [frameStream]
    split_ifs with hempty
    · rw [isEmpty_iff.mp hempty]
      exact ⟨trivial, rfl⟩
    · exact ⟨framed_singleton (by simpa using hempty) hbuf.le, by simp⟩
  | cons item items ih =>
    cases item with
    | error e =>
      rw [frameStream, oks_error_cons, oks_error_cons]
      exact ih hbuf
    | ok bytes =>
      obtain ⟨hall, hlt, hflat⟩ := frameBytes_spec hbuf (le_refl bytes.length)
      obtain ⟨hframed, hrest⟩ := ih hlt
      rw [frameStream, oks_append, oks_map_ok]
      refine ⟨Framed.append_full (by omega) hall hframed, ?_⟩
      rw [flatten_append, hrest, ← append_assoc, hflat, oks_ok_cons, flatten_cons,
        append_assoc]

def AllOk {ε α : Type} (items : List (Except ε α)) : Prop := ∀ item ∈ items, ∃ a, item = .ok a

theorem allOk_cons_iff {α : Type} {item : Except ε α} {items : List (Except ε α)} :
    AllOk (item :: items) ↔ (∃ a, item = .ok a) ∧ AllOk items := forall_mem_cons

theorem AllOk.eq_map_oks {α : Type} {items : List (Except ε α)} (h : AllOk items) :
    items = (oks items).map .ok := by
  induction items with
  | nil => rfl
  | cons item items ih =>
    obtain ⟨a, rfl⟩ := h item mem_cons_self
    rw [oks_ok_cons, map_cons, ← ih fun i hi => h i (mem_cons_of_mem _ hi)]

theorem allOk_map_ok {α : Type} (l : List α) : AllOk (l.map (Except.ok : α → Except ε α)) := by
  intro item hitem
  obtain ⟨a, -, rfl⟩ := mem_map.mp hitem
  exact ⟨a, rfl⟩

theorem error_mem_frameStream {buf : Bytes} {items : List (Except ε Bytes)} {e : ε} :
    .error e ∈ frameStream frameSize buf items ↔ .error e ∈ items := by
  induction items generalizing buf with
  | nil =>
    rw [frameStream]
    split_ifs <;> simp
  | cons item items ih =>
    cases item with
    | error e' => rw [frameStream, mem_cons, mem_cons, ih]
    | ok bytes =>
      rw [frameStream, mem_append, mem_cons, ih]
      simp

/-- **Re-framing a stream without errors** gives the framing of its bytes. -/
theorem frameStream_ok (hsize : 0 < frameSize) {frames : List Bytes}
    (hframes : Framed frameSize frames) {items : List Bytes} (h : items.flatten = frames.flatten) :
    frameStream frameSize [] (items.map (Except.ok : Bytes → Except ε Bytes)) =
      frames.map .ok := by
  obtain ⟨hframed, hflat⟩ := oks_frameStream (items.map (Except.ok : Bytes → Except ε Bytes))
    (show ([] : Bytes).length < frameSize from hsize)
  have hok : AllOk (frameStream frameSize [] (items.map (Except.ok : Bytes → Except ε Bytes))) := by
    intro item hitem
    cases item with
    | ok bytes => exact ⟨bytes, rfl⟩
    | error e =>
      obtain ⟨a, ha⟩ := allOk_map_ok items _ (error_mem_frameStream.mp hitem)
      cases ha
  rw [oks_map_ok, nil_append, h] at hflat
  rw [hok.eq_map_oks, hframed.eq_of_flatten_eq hframes hflat]

/-! ## The cipher -/

/-- An authenticated cipher as the code calls it: encryption of a plaintext under a key and a nonce
into a ciphertext and a tag, and its partial inverse. -/
structure Aead (Key : Type) where
  encryptInout : Key → Bytes → Bytes → Option (Bytes × Bytes)
  decryptInout : Key → Bytes → Bytes → Bytes → Option Bytes

/-- AES-256-GCM on chunks: encryption succeeds, keeps the length, makes a tag of 16 bytes and is
undone by decryption. -/
structure AesGcm (Key : Type) extends Aead Key where
  encrypt_spec : ∀ key nonce plaintext, nonce.length = 12 → plaintext.length ≤ chunkSize →
    ∃ ciphertext tag, encryptInout key nonce plaintext = some (ciphertext, tag) ∧
      ciphertext.length = plaintext.length ∧ tag.length = 16 ∧
      decryptInout key nonce ciphertext tag = some plaintext

abbrev Nonce := { nonce : Bytes // nonce.length = 12 }

structure StreamError where
  kuboProvenance : Bool
  message : String
  deriving DecidableEq

section Cipher

variable {Key : Type}

def encrypt (aead : Aead Key) (key : Key) (nonce plaintext : Bytes) : AppResult Bytes :=
  match aead.encryptInout key nonce plaintext with
  | none => .error (.crypto "aes-gcm encrypt failed")
  | some (ciphertext, tag) => .ok (nonce ++ ciphertext ++ tag)

def decrypt (aead : Aead Key) (key : Key) (encrypted : Bytes) : AppResult Bytes :=
  if encrypted.length < chunkOverhead then .error (.crypto "encrypted chunk too short")
  else
    let tagStart := encrypted.length - 16
    match aead.decryptInout key (encrypted.take 12) ((encrypted.take tagStart).drop 12)
        (encrypted.drop tagStart) with
    | none => .error (.crypto "aes-gcm decrypt failed — wrong key or corrupted data")
    | some plaintext => .ok plaintext

/-- The loop of `encrypt_chunk_stream` over the chunks; chunk number `i` uses `nonces i`. -/
def encryptFrames (aead : Aead Key) (key : Key) (nonces : ℕ → Nonce) :
    ℕ → List (Except StreamError Bytes) → List (AppResult Bytes)
  | _, [] => []
  | i, .ok bytes :: frames =>
    match encrypt aead key (nonces i) bytes with
    | .error e => [.error e]
    | .ok encrypted => .ok encrypted :: encryptFrames aead key nonces (i + 1) frames
  | i, .error e :: frames => .error (.internal e.message) :: encryptFrames aead key nonces i frames

def encryptChunkStream (aead : Aead Key) (key : Key) (nonces : ℕ → Nonce)
    (items : List (Except StreamError Bytes)) : List (AppResult Bytes) :=
  encryptFrames aead key nonces 0 (frameStream chunkSize [] items)

/-- The body of the loop of `decrypt_chunk_stream`. -/
def decryptFrame (aead : Aead Key) (key : Key) : Except StreamError Bytes → AppResult Bytes
  | .ok bytes => decrypt aead key bytes
  | .error e =>
    if e.kuboProvenance then .error (.kuboRpc "Kubo response stream failed")
    else .error (.internal e.message)

def decryptChunkStream (aead : Aead Key) (key : Key) (items : List (Except StreamError Bytes)) :
    List (AppResult Bytes) :=
  (frameStream cipherChunk [] items).map (decryptFrame aead key)

theorem exists_encrypt (aead : AesGcm Key) (key : Key) (nonce : Nonce) {plaintext : Bytes}
    (h : plaintext.length ≤ chunkSize) :
    ∃ encrypted, encrypt aead.toAead key nonce plaintext = .ok encrypted ∧
      encrypted.length = plaintext.length + chunkOverhead ∧
      decrypt aead.toAead key encrypted = .ok plaintext := by
  obtain ⟨nonce, hnonce⟩ := nonce
  obtain ⟨ciphertext, tag, hencrypt, hlen, htag, hdecrypt⟩ :=
    aead.encrypt_spec key nonce plaintext hnonce h
  have htotal : (nonce ++ ciphertext ++ tag).length = plaintext.length + chunkOverhead := by
    rw [length_append, length_append, hnonce, hlen, htag, chunkOverhead]
    omega
  refine ⟨nonce ++ ciphertext ++ tag, by rw [encrypt, hencrypt], htotal, ?_⟩
  have hstart : (nonce ++ ciphertext ++ tag).length - 16 = (nonce ++ ciphertext).length := by
    rw [length_append, htag, Nat.add_sub_cancel]
  have hparts : (nonce ++ ciphertext ++ tag).take 12 = nonce ∧
      ((nonce ++ ciphertext ++ tag).take ((nonce ++ ciphertext ++ tag).length - 16)).drop 12 =
        ciphertext ∧
      (nonce ++ ciphertext ++ tag).drop ((nonce ++ ciphertext ++ tag).length - 16) = tag := by
    rw [hstart, take_left, drop_left]
    refine ⟨?_, ?_, rfl⟩
    · rw [append_assoc, ← hnonce, take_left]
    · rw [← hnonce, drop_left]
  rw [decrypt, if_neg (by rw [htotal]; omega)]
  simp only [hparts.1, hparts.2.1, hparts.2.2, hdecrypt]

theorem exists_encryptFrames (aead : AesGcm Key) (key : Key) (nonces : ℕ → Nonce) (i : ℕ)
    {frames : List Bytes} (h : Framed chunkSize frames) :
    ∃ cipher : List Bytes, encryptFrames aead.toAead key nonces i (frames.map .ok) = cipher.map .ok ∧
      List.Forall₂ (fun f g => g.length = f.length + chunkOverhead) frames cipher ∧
      cipher.map (decrypt aead.toAead key) = frames.map .ok := by
  induction frames generalizing i with
  | nil => exact ⟨[], rfl, List.Forall₂.nil, rfl⟩
  | cons f frames ih =>
    obtain ⟨g, hencrypt, hlen, hdecrypt⟩ := exists_encrypt aead key (nonces i) h.2.1
    obtain ⟨cipher, hcipher, hall, hback⟩ := ih (i + 1) h.tail
    refine ⟨g :: cipher, ?_, List.Forall₂.cons hlen hall, ?_⟩
    · rw [map_cons, encryptFrames, hencrypt]
      simp only [hcipher, map_cons]
    · rw [map_cons, map_cons, hdecrypt, hback]

/-- **Chunked encryption round trip.**  However the plaintext is split into input items and however
the ciphertext is split again, decryption returns the plaintext without an error; the ciphertext is
28 bytes longer for each chunk. -/
theorem decryptChunkStream_encryptChunkStream (aead : AesGcm Key) (key : Key)
    (nonces : ℕ → Nonce) (items : List Bytes) :
    ∃ cipher : List Bytes, encryptChunkStream aead.toAead key nonces (items.map .ok) = cipher.map .ok ∧
      cipher.flatten.length =
        items.flatten.length + 28 * ((items.flatten.length + 262144 - 1) / 262144) ∧
      ∀ fragments : List Bytes, fragments.flatten = cipher.flatten →
        ∃ plain : List Bytes, decryptChunkStream aead.toAead key (fragments.map .ok) = plain.map .ok ∧
          plain.flatten = items.flatten := by
  have hsize : 0 < chunkSize := by decide
  obtain ⟨hframed, hflat⟩ := oks_frameStream
    (items.map (Except.ok : Bytes → Except StreamError Bytes))
    (show ([] : Bytes).length < chunkSize from hsize)
  rw [oks_map_ok, nil_append] at hflat
  generalize oks (frameStream chunkSize []
    (items.map (Except.ok : Bytes → Except StreamError Bytes))) = frames at hframed hflat
  obtain ⟨cipher, hcipher, hall, hback⟩ := exists_encryptFrames aead key nonces 0 hframed
  refine ⟨cipher, ?_, ?_, fun fragments hfragments => ⟨frames, ?_, hflat⟩⟩
  · rw [encryptChunkStream, frameStream_ok hsize hframed hflat.symm, hcipher]
  · rw [length_flatten_of_forall₂ hall, hframed.length_eq hsize, hflat]
    rfl
  · have hcipherFramed : Framed cipherChunk cipher := hframed.forall₂_of_length hall
    rw [decryptChunkStream, frameStream_ok (by decide) hcipherFramed hfragments, map_map,
      ← hback]
    rfl

end Cipher

/-! ## A transparent cipher -/

/-- A cipher that authenticates everything and changes nothing. -/
def transparent : Aead Unit where
  encryptInout _ _ plaintext := some (plaintext, replicate 16 0)
  decryptInout _ _ ciphertext _ := some ciphertext

def transparentGcm : AesGcm Unit where
  toAead := transparent
  encrypt_spec _ _ plaintext _ _ := ⟨plaintext, replicate 16 0, rfl, rfl, length_replicate, rfl⟩

/-- A plaintext of two chunks, the second one of three bytes, whose ciphertext arrives in one piece. -/
theorem decryptChunkStream_encryptChunkStream_twoChunks : ∃ cipher plain : List Bytes,
    encryptChunkStream transparent () (fun _ => ⟨replicate 12 0, rfl⟩)
        ([replicate chunkSize 7, [], [1, 2, 3]].map .ok) = cipher.map .ok ∧
      cipher.flatten.length = chunkSize + 3 + 2 * 28 ∧
      decryptChunkStream transparent () [.ok cipher.flatten] = plain.map .ok ∧
      plain.flatten = replicate chunkSize 7 ++ [1, 2, 3] := by
  obtain ⟨cipher, hcipher, hlength, hback⟩ := decryptChunkStream_encryptChunkStream transparentGcm ()
    (fun _ => ⟨replicate 12 0, rfl⟩) [replicate chunkSize 7, [], [1, 2, 3]]
  obtain ⟨plain, hplain, hflat⟩ := hback [cipher.flatten] (flatten_singleton ..)
  have hitems : ([replicate chunkSize 7, [], [1, 2, 3]] : List Bytes).flatten =
      replicate chunkSize 7 ++ [1, 2, 3] := rfl
  rw [hitems, length_append, length_replicate] at hlength
  exact ⟨cipher, plain, hcipher, hlength, hplain, hflat.trans hitems⟩

end IpfS3.Crypto
