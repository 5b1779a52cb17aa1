import IpfS3.Crypto.RangeBody

/-!
# Bodies of a fixed length

`finish_get_body` of `s3/ops/object_body.rs`: a client that was promised `length` bytes stops reading
when it has them, so an error that arrives later is never seen.  The generator therefore keeps the
last byte of the promise until its upstream has ended.

* `finishLoop_spec`: what the generator delivers from any point on.
* `finishGetBody_failClosed`: the promise is kept exactly on a clean upstream of that length, and for
  an encrypted object only if every frame authenticated.
-/

namespace IpfS3.Crypto

open List

/-- A boxed error of a stream, by what `downcast` makes of it. -/
inductive StdError where
  | io (error : BodyError)
  | boxed (message : String)
  deriving DecidableEq

inductive ResponseError where
  | internalError (message : String)
  deriving DecidableEq

/-- The `io::Error` a boxed error is yielded as. -/
def StdError.intoIoError : StdError → BodyError
  | .io error => error
  | .boxed message => .other message

/-- The generator of `finish_get_body` from a number of remaining bytes and a held tail on. -/
def finishLoop : ℕ → Option Bytes → List (Except StdError Bytes) → List (Except BodyError Bytes)
  | _, some tail, [] => [.ok tail]
  | _, none, [] => [.error (.unexpectedEof internalStorageBackendError)]
  | _, _, .error error :: _ => [.error error.intoIoError]
  | remaining, tail, .ok bytes :: body =>
    if bytes.isEmpty then finishLoop remaining tail body
    else if remaining < bytes.length then [.error (.other internalStorageBackendError)]
    else if remaining - bytes.length = 0 then
      let split := bytes.length - 1
      (if split ≠ 0 then [.ok (bytes.take split)] else []) ++
        finishLoop (remaining - bytes.length) (some (bytes.drop split)) body
    else .ok bytes :: finishLoop (remaining - bytes.length) tail body

/-- The upstream of an empty response is drained. -/
def drain : List (Except StdError Bytes) → Except ResponseError Unit
  | [] => .ok ()
  | .ok bytes :: body =>
    if bytes.isEmpty then drain body else .error (.internalError internalStorageBackendError)
  | .error _ :: _ => .error (.internalError internalStorageBackendError)

def finishGetBody (body : List (Except StdError Bytes)) (length : ℕ) :
    Except ResponseError (List (Except BodyError Bytes)) :=
  if length = 0 then do
    drain body
    return []
  else .ok (finishLoop length none body)

/-- `StreamingBlob::wrap`: the errors of a body are boxed. -/
def wrap (body : List (Except BodyError Bytes)) : List (Except StdError Bytes) :=
  body.map fun item => item.mapError StdError.io

/-! ## The loop -/

/-- The bytes of a stream before its first error. -/
def leadingBytes {ε : Type} : List (Except ε Bytes) → Bytes
  | [] => []
  | .error _ :: _ => []
  | .ok bytes :: items => bytes ++ leadingBytes items

/-- After the bytes `A` of the upstream, the loop has delivered `D` and holds the last byte back as
soon as nothing remains. -/
inductive Retains (length : ℕ) (A : Bytes) : Bytes → ℕ → Option Bytes → Prop
  | running (remaining : ℕ) (hlength : A.length + remaining = length) (hpos : 0 < remaining) :
      Retains length A A remaining none
  | holding (D : Bytes) (byte : UInt8) (hlength : A.length = length) (hA : A = D ++ [byte]) :
      Retains length A D 0 (some [byte])

/-- The upstream ends without an error after `length` bytes, `A` included. -/
def EndsClean (length : ℕ) (A : Bytes) (body : List (Except StdError Bytes)) : Prop :=
  AllOk body ∧ (A ++ leadingBytes body).length = length

/-- How the rest of the response ends: with all bytes, or with one error before the last. -/
structure Finishes (length : ℕ) (A D : Bytes) (body : List (Except StdError Bytes))
    (response : List (Except BodyError Bytes)) : Prop where
  clean : EndsClean length A body → ∃ slices : List Bytes, response = slices.map .ok ∧
    D ++ slices.flatten = A ++ leadingBytes body
  failed : ¬EndsClean length A body → ∃ (slices : List Bytes) (e : BodyError),
    response = slices.map .ok ++ [.error e] ∧ D ++ slices.flatten <+: A ++ leadingBytes body ∧
    (D ++ slices.flatten).length < length

variable {body : List (Except StdError Bytes)}

section Loop

variable {length remaining : ℕ} {A D : Bytes} {tail : Option Bytes}

section

variable (h : Retains length A D remaining tail)

include h

theorem Retains.isPrefix : D <+: A := by
  cases h with
  | running => exact prefix_rfl
  | holding _ byte hlength hA =>
    rw [hA]
    exact prefix_append _ _

/-- **The last byte is not delivered** while the upstream is open. -/
theorem Retains.length_lt : D.length < length := by
  cases h with
  | running _ hlength hpos => omega
  | holding _ byte hlength hA =>
    have hlen := congrArg List.length hA
    rw [List.length_append, List.length_singleton] at hlen
    omega

theorem Retains.length_add :
    A.length + remaining = length := by
  cases h with
  | running _ hlength hpos => exact hlength
  | holding _ byte hlength hA => exact hlength

end

theorem endsClean_cons_ok (bytes : Bytes) (body : List (Except StdError Bytes)) :
    EndsClean length A (.ok bytes :: body) ↔ EndsClean length (A ++ bytes) body := by
  have hall : AllOk (.ok bytes :: body) ↔ AllOk body := by
    rw [allOk_cons_iff]
    exact and_iff_right ⟨bytes, rfl⟩
  rw [EndsClean, EndsClean, hall, leadingBytes, append_assoc]

theorem Finishes.of_error (h : Retains length A D remaining tail) (e : BodyError)
    (hfail : ¬EndsClean length A body) :
    Finishes length A D body [.error e] where
  clean hclean := absurd hclean hfail
  failed _ := by
    refine ⟨[], e, rfl, ?_⟩
    rw [flatten_nil, append_nil]
    exact ⟨h.isPrefix.trans (prefix_append _ _), h.length_lt⟩

theorem Finishes.cons {bytes : Bytes} {released : List Bytes}
    {response : List (Except BodyError Bytes)}
    (h : Finishes length (A ++ bytes) (D ++ released.flatten) body response) :
    Finishes length A D (.ok bytes :: body) (released.map .ok ++ response) where
  clean hclean := by
    obtain ⟨slices, rfl, hslices⟩ := h.clean ((endsClean_cons_ok bytes body).mp hclean)
    refine ⟨released ++ slices, by rw [map_append], ?_⟩
    rw [flatten_append, leadingBytes, ← append_assoc, ← append_assoc, hslices]
  failed hfail := by
    obtain ⟨slices, e, rfl, hends⟩ :=
      h.failed fun hclean => hfail ((endsClean_cons_ok bytes body).mpr hclean)
    refine ⟨released ++ slices, e, by rw [map_append, append_assoc], ?_⟩
    rw [flatten_append, leadingBytes, ← append_assoc, ← append_assoc]
    exact hends

theorem finishes_nil (h : Retains length A D remaining tail) :
    Finishes length A D [] (finishLoop remaining tail []) := by
  cases h with
  | running _ hlength hpos =>
    refine Finishes.of_error (Retains.running remaining hlength hpos) _ fun hclean => ?_
    have hlen := hclean.2
    rw [leadingBytes, append_nil] at hlen
    omega
  | holding _ byte hlength hA =>
    refine ⟨fun _ => ⟨[[byte]], rfl, ?_⟩, fun hfail => absurd ⟨?_, ?_⟩ hfail⟩
    · rw [flatten_singleton, leadingBytes, append_nil, hA]
    · exact fun item hitem => absurd hitem not_mem_nil
    · rw [leadingBytes, append_nil, hlength]

theorem retains_split {bytes : Bytes} (hne : bytes ≠ []) (hlength : A.length + bytes.length = length) :
    Retains length (A ++ bytes) (A ++ bytes.take (bytes.length - 1)) 0
      (some (bytes.drop (bytes.length - 1))) := by
  have hlast : bytes.drop (bytes.length - 1) = [bytes.getLast hne] :=
    drop_length_sub_one hne
  rw [hlast]
  refine Retains.holding _ _ (by rw [length_append, hlength]) ?_
  rw [append_assoc, ← hlast, take_append_drop]

/-- **The loop from any point on.** -/
theorem finishLoop_spec (body : List (Except StdError Bytes))
    (h : Retains length A D remaining tail) :
    Finishes length A D body (finishLoop remaining tail body) := by
  -- Along the upstream; the item that fills the promise is the one that is split.
  induction body generalizing A D remaining tail with
  | nil => exact finishes_nil h
  | cons item body ih =>
    cases item with
    | error e =>
      rw [finishLoop]
      refine Finishes.of_error h _ fun hclean => ?_
      obtain ⟨a, ha⟩ := hclean.1 _ mem_cons_self
      cases ha
    | ok bytes =>
      rw [finishLoop]
      by_cases hempty : bytes = []
      · subst hempty
        rw [if_pos (by rfl)]
        have hrest := ih h
        rw [← append_nil A, ← append_nil D, ← @flatten_nil UInt8] at hrest
        exact hrest.cons
      rw [if_neg (by simpa using hempty)]
      have hpos := length_pos_of_ne_nil hempty
      by_cases hover : remaining < bytes.length
      · rw [if_pos hover]
        refine Finishes.of_error h _ fun hclean => ?_
        have hlen := hclean.2
        have hsum := h.length_add
        rw [leadingBytes, length_append, length_append] at hlen
        omega
      rw [if_neg hover]
      cases h with
      | holding _ byte hlength hA => exact absurd hpos hover
      | running _ hlength hrunning =>
        by_cases hfull : remaining - bytes.length = 0
        · rw [if_pos hfull]
          dsimp only
          have hrest := ih (retains_split hempty (show A.length + bytes.length = length by omega))
          rw [hfull]
          by_cases hsplit : bytes.length - 1 ≠ 0
          · rw [if_pos hsplit]
            rw [← @flatten_singleton UInt8 (bytes.take (bytes.length - 1))] at hrest
            exact hrest.cons
          · rw [if_neg hsplit]
            have htake : bytes.take (bytes.length - 1) = ([] : List Bytes).flatten := by
              rw [not_not.mp hsplit, take_zero, flatten_nil]
            rw [htake] at hrest
            exact hrest.cons
        · rw [if_neg hfull]
          have hrest := ih (Retains.running (A := A ++ bytes) (remaining - bytes.length)
            (by rw [length_append]; omega) (by omega))
          nth_rewrite 2 [← @flatten_singleton UInt8 bytes] at hrest
          exact hrest.cons

end Loop

/-! ## Empty responses -/

theorem drain_eq_ok_iff (body : List (Except StdError Bytes)) :
    drain body = .ok () ↔ ∀ item ∈ body, item = .ok [] := by
  induction body with
  | nil => exact iff_of_true rfl fun item hitem => absurd hitem not_mem_nil
  | cons item body ih =>
    rw [forall_mem_cons, ← ih]
    cases item with
    | error e => simp [drain]
    | ok bytes => cases bytes <;> simp [drain]

/-! ## Encrypted objects -/

section Encrypted

variable {Key : Type} (aead : Aead Key) (key : Key)

theorem allOk_of_bodyLoop {authenticationError : String} {range : Option (ℕ × ℕ)} {offset : ℕ}
    {pending : Option Bytes} {chunks : List (AppResult Bytes)}
    (h : AllOk (bodyLoop authenticationError range offset pending chunks)) : AllOk chunks := by
  induction chunks generalizing offset pending with
  | nil => exact fun item hitem => absurd hitem not_mem_nil
  | cons chunk chunks ih =>
    cases chunk with
    | error e =>
      obtain ⟨a, ha⟩ := h _ mem_cons_self
      cases ha
    | ok bytes =>
      refine allOk_cons_iff.mpr ⟨⟨bytes, rfl⟩, ?_⟩
      rw [bodyLoop.eq_def] at h
      dsimp only at h
      split_ifs at h with hover
      · obtain ⟨a, ha⟩ := h _ mem_cons_self
        cases ha
      cases range with
      | none => exact ih (allOk_cons_iff.mp h).2
      | some window =>
        dsimp only at h
        split_ifs at h with hselected
        · exact ih fun item hitem => h item (mem_append_right _ hitem)
        · exact ih h

theorem authentic_of_allOk_wrap {authenticationError : String} {range : Option (ℕ × ℕ)}
    {items : List (Except StreamError Bytes)} {frames : List Bytes}
    (hframes : Framing.Framed cipherChunk frames) (hitems : (oks items).flatten = frames.flatten)
    (h : AllOk (wrap (encryptedObjectBody aead key items range authenticationError))) :
    AllOk items ∧ Authentic aead key frames := by
  have hbody : AllOk (encryptedObjectBody aead key items range authenticationError) := by
    intro item hitem
    obtain ⟨a, ha⟩ := h _ (mem_map_of_mem hitem)
    cases item with
    | ok bytes => exact ⟨bytes, rfl⟩
    | error e => cases ha
  have hchunks := allOk_of_bodyLoop hbody
  rw [decryptChunkStream, allOk_map_decryptFrame, allOk_frameStream_iff,
    oks_frameStream_eq hframes hitems] at hchunks
  exact hchunks

end Encrypted

/-! ## The body -/

/-- A response that delivers the bytes `B` and no error. -/
def Delivers (response : List (Except BodyError Bytes)) (B : Bytes) : Prop :=
  ∃ slices : List Bytes, response = slices.map .ok ∧ slices.flatten = B

/-- A response that delivers fewer than `length` of the bytes `B`, and then one error. -/
def FailsWithin (response : List (Except BodyError Bytes)) (B : Bytes) (length : ℕ) : Prop :=
  ∃ (slices : List Bytes) (e : BodyError), response = slices.map .ok ++ [.error e] ∧
    slices.flatten <+: B ∧ slices.flatten.length < length

theorem finishGetBody_of_pos {length : ℕ} (hpos : 0 < length)
    (body : List (Except StdError Bytes)) :
    finishGetBody body length = .ok (finishLoop length none body) :=
  if_neg hpos.ne'

theorem finishes_finishLoop {length : ℕ} (hpos : 0 < length)
    (body : List (Except StdError Bytes)) :
    Finishes length [] [] body (finishLoop length none body) :=
  finishLoop_spec body (Retains.running length (Nat.zero_add length) hpos)

theorem endsClean_of_length_eq {length : ℕ} (hpos : 0 < length)
    (h : (oks (finishLoop length none body)).flatten.length = length) :
    EndsClean length [] body := by
  by_contra hfail
  obtain ⟨slices, e, hbody, -, hshort⟩ := (finishes_finishLoop hpos body).failed hfail
  have hoks : oks (finishLoop length none body) = slices := by
    rw [hbody, oks, filterMap_append]
    exact (append_nil _).trans (oks_map_ok slices)
  rw [hoks] at h
  exact absurd h hshort.ne

theorem finishGetBody_zero_iff (body : List (Except StdError Bytes))
    (response : List (Except BodyError Bytes)) :
    finishGetBody body 0 = .ok response ↔ (∀ item ∈ body, item = .ok []) ∧ response = [] := by
  rw [← drain_eq_ok_iff, finishGetBody, if_pos rfl]
  cases drain body with
  | error e => simp [bind, Except.bind]
  | ok u => simp [bind, Except.bind, pure, Except.pure, eq_comm]

/-- **A promised length is not kept on a bad upstream.**  For every upstream and every length: a
positive length is delivered in full and without an error exactly when the upstream ends without an
error after that many bytes, and otherwise the response stops before its last byte with one error; a
response of length zero starts exactly when the upstream has only empty items, and is empty.  The
response of an encrypted object is complete only if its stream had no error and every frame
authenticated, whatever the range. -/
theorem finishGetBody_failClosed :
    (∀ (body : List (Except StdError Bytes)) (length : ℕ), 0 < length →
      ∃ response, finishGetBody body length = .ok response ∧
        (Delivers response (leadingBytes body) ∧ (leadingBytes body).length = length ↔
          AllOk body ∧ (leadingBytes body).length = length) ∧
        (¬(AllOk body ∧ (leadingBytes body).length = length) →
          FailsWithin response (leadingBytes body) length)) ∧
    (∀ (body : List (Except StdError Bytes)) (response : List (Except BodyError Bytes)),
      finishGetBody body 0 = .ok response ↔ (∀ item ∈ body, item = .ok []) ∧ response = []) ∧
    ∀ (Key : Type) (aead : Aead Key) (key : Key) (items : List (Except StreamError Bytes))
      (range : Option (ℕ × ℕ)) (authenticationError : String) (frames : List Bytes) (length : ℕ)
      (response : List (Except BodyError Bytes)),
      Framing.Framed cipherChunk frames → (oks items).flatten = frames.flatten →
      finishGetBody (wrap (encryptedObjectBody aead key items range authenticationError)) length =
        .ok response →
      (oks response).flatten.length = length → AllOk items ∧ Authentic aead key frames := by
  refine ⟨fun body length hpos => ?_, finishGetBody_zero_iff, ?_⟩
  · have hends := finishes_finishLoop hpos body
    refine ⟨_, finishGetBody_of_pos hpos body, ⟨fun h => ?_, fun h => ⟨?_, h.2⟩⟩, fun hfail => ?_⟩
    · obtain ⟨⟨slices, hslices, hflatten⟩, hlength⟩ := h
      refine endsClean_of_length_eq hpos ?_
      rw [hslices, oks_map_ok, hflatten, hlength]
    · exact hends.clean h
    · exact hends.failed hfail
  · intro Key aead key items range authenticationError frames length response hframes hitems
      hresponse hlength
    have hclean : AllOk (wrap (encryptedObjectBody aead key items range authenticationError)) := by
      rcases Nat.eq_zero_or_pos length with rfl | hpos
      · intro item hitem
        exact ⟨[], ((finishGetBody_zero_iff _ _).mp hresponse).1 item hitem⟩
      · rw [finishGetBody_of_pos hpos] at hresponse
        cases hresponse
        exact (endsClean_of_length_eq hpos hlength).1
    exact authentic_of_allOk_wrap aead key hframes hitems hclean

end IpfS3.Crypto
