import IpfS3.Foundations.Fallible
import IpfS3.Zip.LocalHeader

/-!
# The budget of a raw ZIP input

`zip/input_budget.rs`, and the check `s3/ops/multipart.rs` makes of it when a part is uploaded.  A
list of answers says what the source answers when it is polled for the first, second, … time; once
the budget has terminated it polls the source no more, and the rest of the list is not read.
-/

namespace IpfS3.Multipart

open Fallible Zip List

inductive Poll (α : Type*) where
  | pending
  | ready (value : α)

/-- What a stream of chunks answers to one poll. -/
abbrev Answer (ε : Type*) := Poll (Option (Except ε Bytes))

inductive ZipInputError (ε : Type*) where
  | upstream (error : ε)
  | limitExceeded (message : String)

/-- `ZipInputBudget` and the `InputState` that its progress reads. -/
structure ZipInputBudget where
  maxBytes : UInt64
  total : ℕ
  cleanEof : Bool
  limitExceeded : Bool
  terminated : Bool

def ZipInputBudget.new (maxBytes : UInt64) : ZipInputBudget := ⟨maxBytes, 0, false, false, false⟩

/-- The total with one more chunk, unless it overflows or crosses the limit. -/
def ZipInputBudget.nextTotal (s : ZipInputBudget) (bytes : Bytes) : Option ℕ :=
  if bytes.length < 2 ^ 64 ∧ s.total + bytes.length < 2 ^ 64 ∧
    s.total + bytes.length ≤ s.maxBytes.toNat then some (s.total + bytes.length) else none

variable {ε : Type*}

/-- `poll_next`, with what the source answers if it is polled. -/
def ZipInputBudget.pollNext (s : ZipInputBudget) (answer : Answer ε) :
    Answer (ZipInputError ε) × ZipInputBudget :=
  if s.terminated then (.ready none, s)
  else
    match answer with
    | .pending => (.pending, s)
    | .ready none => (.ready none, { s with terminated := true, cleanEof := true })
    | .ready (some (.error error)) =>
      (.ready (some (.error (.upstream error))), { s with terminated := true })
    | .ready (some (.ok bytes)) =>
      match s.nextTotal bytes with
      | some next => (.ready (some (.ok bytes)), { s with total := next })
      | none =>
        (.ready (some (.error (.limitExceeded "ZIP raw archive input exceeds the byte limit"))),
          { s with terminated := true, limitExceeded := true })

def ZipInputBudget.polls (s : ZipInputBudget) :
    List (Answer ε) → List (Answer (ZipInputError ε)) × ZipInputBudget
  | [] => ([], s)
  | answer :: answers =>
    let (output, s) := s.pollNext answer
    let (outputs, s) := s.polls answers
    (output :: outputs, s)

inductive PartError where
  | invalidRequest (message : String)
  | incompleteBody (message : String)
  | added (message : String)

def checkZipInputProgress (progress : ZipInputBudget) : Except PartError Unit := do
  ensure (progress.limitExceeded = false)
    (.invalidRequest "ZIP raw archive input exceeds the byte limit")
  ensure (progress.cleanEof = true) (.incompleteBody "ZIP source stream did not complete")

/-- The end of `upload_part`: what was added is used once the progress is checked. -/
def uploadPart {Cid : Type} (zipProgress : Option ZipInputBudget) (added : Except PartError Cid) :
    Except PartError Cid :=
  match zipProgress with
  | some progress => do
    checkZipInputProgress progress
    added
  | none => added

/-! ## What the answers hold -/

def Poll.chunk? : Answer ε → Option Bytes
  | .ready (some (.ok bytes)) => some bytes
  | _ => none

def Poll.error? : Answer ε → Option ε
  | .ready (some (.error error)) => some error
  | _ => none

def chunks (answers : List (Answer ε)) : List Bytes := answers.filterMap Poll.chunk?

def errors (answers : List (Answer ε)) : List ε := answers.filterMap Poll.error?

def size (answers : List (Answer ε)) : ℕ := (chunks answers).flatten.length

/-- Answers after each of which the stream goes on: chunks of at most `limit` bytes, and pauses. -/
def Fits (limit : ℕ) (answers : List (Answer ε)) : Prop :=
  (∀ answer ∈ answers, answer = .pending ∨ ∃ bytes, answer = .ready (some (.ok bytes))) ∧
    size answers ≤ limit

def Poll.forward : Answer ε → Answer (ZipInputError ε)
  | .pending => .pending
  | .ready none => .ready none
  | .ready (some (.error error)) => .ready (some (.error (.upstream error)))
  | .ready (some (.ok bytes)) => .ready (some (.ok bytes))

/-- The answer that ends the stream after those before it: the end, an error, or a chunk that crosses
the limit. -/
inductive Ends (limit : ℕ) (before : List (Answer ε)) : Answer ε → Prop
  | eof : Ends limit before (.ready none)
  | upstream (error : ε) : Ends limit before (.ready (some (.error error)))
  | crosses {bytes : Bytes} (h : limit < size before + bytes.length) :
    Ends limit before (.ready (some (.ok bytes)))

/-- What is made of the answer that ends the stream. -/
def Poll.last : Answer ε → Answer (ZipInputError ε)
  | .ready (some (.ok _)) =>
    .ready (some (.error (.limitExceeded "ZIP raw archive input exceeds the byte limit")))
  | answer => answer.forward

/-- The answer is the end of the source. -/
def Poll.isEof : Answer ε → Bool
  | .ready none => true
  | _ => false

@[simp] theorem chunks_append (l l' : List (Answer ε)) : chunks (l ++ l') = chunks l ++ chunks l' :=
  filterMap_append

@[simp] theorem errors_append (l l' : List (Answer ε)) : errors (l ++ l') = errors l ++ errors l' :=
  filterMap_append

@[simp] theorem size_append (l l' : List (Answer ε)) : size (l ++ l') = size l + size l' := by
  simp [size]

theorem size_chunk (bytes : Bytes) (l : List (Answer ε)) :
    size (.ready (some (.ok bytes)) :: l) = bytes.length + size l := by
  simp [size, chunks, Poll.chunk?]

@[simp] theorem chunks_forward (l : List (Answer ε)) : chunks (l.map Poll.forward) = chunks l := by
  rw [chunks, filterMap_map]
  refine filterMap_congr fun answer _ => ?_
  rcases answer with _ | _ | _ | _ <;> rfl

theorem size_forward (l : List (Answer ε)) : size (l.map Poll.forward) = size l := by
  rw [size, chunks_forward, size]

theorem Fits.errors_forward {limit : ℕ} {l : List (Answer ε)} (h : Fits limit l) :
    errors (l.map Poll.forward) = [] := by
  rw [errors, filterMap_map, filterMap_eq_nil_iff]
  intro answer hanswer
  obtain rfl | ⟨bytes, rfl⟩ := h.1 answer hanswer <;> rfl

@[simp] theorem chunks_replicate (n : ℕ) : chunks (replicate n (.ready none : Answer ε)) = [] := by
  rw [chunks, filterMap_replicate]
  rfl

@[simp] theorem errors_replicate (n : ℕ) : errors (replicate n (.ready none : Answer ε)) = [] := by
  rw [errors, filterMap_replicate]
  rfl

theorem fits_or_ends (limit : ℕ) (answers : List (Answer ε)) :
    Fits limit answers ∨ ∃ before answer after, answers = before ++ answer :: after ∧
      Fits limit before ∧ Ends limit before answer := by
  induction answers using reverseRecOn with
  | nil => exact Or.inl ⟨by simp, Nat.zero_le _⟩
  | append_singleton answers answer ih =>
    rcases ih with hfits | ⟨before, last, after, rfl, hfits, hends⟩
    · by_cases hends : Ends limit answers answer
      · exact Or.inr ⟨answers, answer, [], rfl, hfits, hends⟩
      · refine Or.inl ⟨?_, ?_⟩
        · rw [forall_mem_append, forall_mem_singleton]
          refine ⟨hfits.1, ?_⟩
          rcases answer with _ | _ | _ | bytes
          · exact Or.inl rfl
          · exact absurd .eof hends
          · exact absurd (.upstream _) hends
          · exact Or.inr ⟨bytes, rfl⟩
        · rw [size_append]
          rcases answer with _ | _ | _ | bytes
          · exact hfits.2
          · exact hfits.2
          · exact hfits.2
          · rw [size_chunk]
            exact Nat.le_of_not_lt fun h => hends (.crosses h)
    · exact Or.inr ⟨before, last, after ++ [answer], by simp, hfits, hends⟩

namespace ZipInputBudget

variable {s : ZipInputBudget}

theorem polls_cons {s s' : ZipInputBudget} {answer : Answer ε} {output : Answer (ZipInputError ε)}
    (h : s.pollNext answer = (output, s')) (answers : List (Answer ε)) :
    s.polls (answer :: answers) = (output :: (s'.polls answers).1, (s'.polls answers).2) := by
  rw [polls, h]

theorem polls_of_terminated (h : s.terminated = true) (answers : List (Answer ε)) :
    s.polls answers = (replicate answers.length (.ready none), s) := by
  induction answers with
  | nil => rfl
  | cons answer answers ih =>
    have hpoll : s.pollNext answer = (.ready none, s) := by simp [pollNext, h]
    rw [polls_cons hpoll, ih]
    rfl

theorem polls_of_fits {before : List (Answer ε)} (hs : s.terminated = false)
    (hmem : ∀ answer ∈ before, answer = .pending ∨ ∃ bytes, answer = .ready (some (.ok bytes)))
    (hsize : s.total + size before ≤ s.maxBytes.toNat) (answers : List (Answer ε)) :
    s.polls (before ++ answers) =
      (before.map Poll.forward ++ ({ s with total := s.total + size before }.polls answers).1,
        ({ s with total := s.total + size before }.polls answers).2) := by
  induction before generalizing s with
  | nil => rfl
  | cons answer before ih =>
    rw [forall_mem_cons] at hmem
    obtain rfl | ⟨bytes, rfl⟩ := hmem.1
    · have hpoll : s.pollNext (.pending : Answer ε) = (.pending, s) := by simp [pollNext, hs]
      rw [cons_append, polls_cons hpoll, ih hs hmem.2 hsize]
      rfl
    · rw [size_chunk, ← Nat.add_assoc] at hsize ⊢
      have hlt := s.maxBytes.toNat_lt
      have hnext : s.nextTotal bytes = some (s.total + bytes.length) :=
        if_pos ⟨by omega, by omega, by omega⟩
      have hpoll : s.pollNext (.ready (some (.ok bytes)) : Answer ε) =
          (.ready (some (.ok bytes)), { s with total := s.total + bytes.length }) := by
        simp [pollNext, hs, hnext]
      rw [cons_append, polls_cons hpoll,
        ih (s := { s with total := s.total + bytes.length }) hs hmem.2 hsize]
      rfl

/-- **What the polls give** once an answer ends the stream. -/
theorem polls_of_ends {maxBytes : UInt64} {before : List (Answer ε)} {answer : Answer ε}
    (hfits : Fits maxBytes.toNat before) (hends : Ends maxBytes.toNat before answer)
    (after : List (Answer ε)) :
    (new maxBytes).polls (before ++ answer :: after) =
      (before.map Poll.forward ++ answer.last :: replicate after.length (.ready none),
        ⟨maxBytes, size before, answer.isEof, answer.chunk?.isSome, true⟩) := by
  have hpoll : ({ new maxBytes with total := 0 + size before } : ZipInputBudget).pollNext answer =
      (answer.last, ⟨maxBytes, size before, answer.isEof, answer.chunk?.isSome, true⟩) := by
    rw [Nat.zero_add]
    rcases hends with _ | _ | hlt
    · rfl
    · rfl
    · have hnext : ({ new maxBytes with total := size before } : ZipInputBudget).nextTotal _ =
          none := if_neg fun h => absurd h.2.2 (Nat.not_le.mpr hlt)
      rw [pollNext.eq_def]
      dsimp only
      rw [hnext]
      rfl
  rw [polls_of_fits rfl hfits.1 (by rw [new, Nat.zero_add]; exact hfits.2)]
  dsimp only [new] at hpoll ⊢
  rw [polls_cons hpoll, polls_of_terminated rfl]

theorem polls_of_all_fit {maxBytes : UInt64} {answers : List (Answer ε)}
    (hfits : Fits maxBytes.toNat answers) : (new maxBytes).polls answers =
      (answers.map Poll.forward, ⟨maxBytes, size answers, false, false, false⟩) := by
  have h := polls_of_fits rfl hfits.1 (s := new maxBytes) (by rw [new, Nat.zero_add]; exact hfits.2) []
  rw [append_nil] at h
  rw [h]
  simp [polls, new]

end ZipInputBudget

/-- What the polls of a new budget answer. -/
def outputs (maxBytes : UInt64) (answers : List (Answer ε)) : List (Answer (ZipInputError ε)) :=
  ((ZipInputBudget.new maxBytes).polls answers).1

/-- The progress after the polls of a new budget. -/
def progress (maxBytes : UInt64) (answers : List (Answer ε)) : ZipInputBudget :=
  ((ZipInputBudget.new maxBytes).polls answers).2

section

variable {maxBytes : UInt64} {before : List (Answer ε)} {answer : Answer ε}

theorem progress_of_ends (hfits : Fits maxBytes.toNat before)
    (hends : Ends maxBytes.toNat before answer) (after : List (Answer ε)) :
    progress maxBytes (before ++ answer :: after) =
      ⟨maxBytes, size before, answer.isEof, answer.chunk?.isSome, true⟩ :=
  congrArg Prod.snd (ZipInputBudget.polls_of_ends hfits hends after)

theorem outputs_of_ends (hfits : Fits maxBytes.toNat before)
    (hends : Ends maxBytes.toNat before answer) (after : List (Answer ε)) :
    chunks (outputs maxBytes (before ++ answer :: after)) = chunks before ∧
      errors (outputs maxBytes (before ++ answer :: after)) = answer.last.error?.toList := by
  rw [outputs, ZipInputBudget.polls_of_ends hfits hends, append_cons, chunks_append, chunks_append,
    errors_append, errors_append, chunks_forward, hfits.errors_forward, chunks_replicate,
    errors_replicate, append_nil, append_nil]
  cases hends <;> exact ⟨append_nil _, rfl⟩

/-- The later of two answers is the end when the earlier is the end or an error. -/
def EndsFirst (earlier later : Answer ε) : Prop :=
  (earlier = .ready none ∨ ∃ error, earlier = .ready (some (.error error))) → later = .ready none

theorem pairwise_forward_append (hfits : Fits maxBytes.toNat before)
    {rest : List (Answer (ZipInputError ε))} (hrest : rest.Pairwise EndsFirst) :
    (before.map Poll.forward ++ rest).Pairwise EndsFirst := by
  have hgoes : ∀ earlier ∈ before.map Poll.forward, ∀ later, EndsFirst earlier later := by
    intro earlier hearlier later hends
    obtain ⟨answer, hanswer, rfl⟩ := mem_map.mp hearlier
    obtain rfl | ⟨bytes, rfl⟩ := hfits.1 answer hanswer <;> simp [Poll.forward] at hends
  exact pairwise_append.mpr ⟨pairwise_of_forall_mem_list fun a ha b _ => hgoes a ha b, hrest,
    fun a ha b _ => hgoes a ha b⟩

theorem outputs_of_all_fit {answers : List (Answer ε)} (hfits : Fits maxBytes.toNat answers) :
    outputs maxBytes answers = answers.map Poll.forward ∧
      progress maxBytes answers = ⟨maxBytes, size answers, false, false, false⟩ :=
  Prod.mk.inj (ZipInputBudget.polls_of_all_fit hfits)

end

/-- **The budget forwards a prefix of its source.**  However often it is polled, the chunks that come
out are the first chunks of the source, of at most `maxBytes` bytes, and the total counts them.  The
first chunk that crosses the limit becomes the one error, an error of the source is passed on once,
and nothing follows an error or the end.  The flags say which of them it was, and an accepted upload
had the whole source forwarded. -/
theorem zipInputBudget_forwards_prefix (maxBytes : UInt64) (answers : List (Answer ε)) :
    (chunks (outputs maxBytes answers) <+: chunks answers ∧
      (progress maxBytes answers).total = size (outputs maxBytes answers) ∧
      size (outputs maxBytes answers) ≤ maxBytes.toNat) ∧
    (∀ before bytes after, answers = before ++ .ready (some (.ok bytes)) :: after →
      Fits maxBytes.toNat before → maxBytes.toNat < size before + bytes.length →
      chunks (outputs maxBytes answers) = chunks before ∧ errors (outputs maxBytes answers) =
        [.limitExceeded "ZIP raw archive input exceeds the byte limit"]) ∧
    (∀ before error after, answers = before ++ .ready (some (.error error)) :: after →
      Fits maxBytes.toNat before → errors (outputs maxBytes answers) = [.upstream error]) ∧
    (errors (outputs maxBytes answers)).length ≤ 1 ∧
    (outputs maxBytes answers).Pairwise EndsFirst ∧
    ((progress maxBytes answers).cleanEof = true ↔ ∃ before after,
      answers = before ++ .ready none :: after ∧ Fits maxBytes.toNat before) ∧
    ((progress maxBytes answers).limitExceeded = true ↔ ∃ before bytes after,
      answers = before ++ .ready (some (.ok bytes)) :: after ∧ Fits maxBytes.toNat before ∧
        maxBytes.toNat < size before + bytes.length) ∧
    ¬((progress maxBytes answers).cleanEof = true ∧
      (progress maxBytes answers).limitExceeded = true) ∧
    ∀ (Cid : Type) (added : Except PartError Cid) (cid : Cid),
      uploadPart (some (progress maxBytes answers)) added = .ok cid → ∃ before after,
        answers = before ++ .ready none :: after ∧ Fits maxBytes.toNat before ∧
        chunks (outputs maxBytes answers) = chunks before := by
  have heof (hclean : (progress maxBytes answers).cleanEof = true) : ∃ before after,
      answers = before ++ .ready none :: after ∧ Fits maxBytes.toNat before := by
    rcases fits_or_ends maxBytes.toNat answers with hfits | ⟨before, answer, after, rfl, hfits, hends⟩
    · rw [(outputs_of_all_fit hfits).2] at hclean
      cases hclean
    · rw [progress_of_ends hfits hends] at hclean
      cases hends with
      | eof => exact ⟨before, after, rfl, hfits⟩
      | upstream | crosses => cases hclean
  have hlimit (hexceeded : (progress maxBytes answers).limitExceeded = true) : ∃ before bytes after,
      answers = before ++ .ready (some (.ok bytes)) :: after ∧ Fits maxBytes.toNat before ∧
        maxBytes.toNat < size before + bytes.length := by
    rcases fits_or_ends maxBytes.toNat answers with hfits | ⟨before, answer, after, rfl, hfits, hends⟩
    · rw [(outputs_of_all_fit hfits).2] at hexceeded
      cases hexceeded
    · rw [progress_of_ends hfits hends] at hexceeded
      cases hends with
      | crosses hlt => exact ⟨before, _, after, rfl, hfits, hlt⟩
      | eof | upstream => cases hexceeded
  refine ⟨?_, ?_, ?_, ?_, ?_, ⟨heof, ?_⟩, ⟨hlimit, ?_⟩, ?_, fun Cid added cid h => ?_⟩
  · rcases fits_or_ends maxBytes.toNat answers with hfits | ⟨before, answer, after, rfl, hfits, hends⟩
    · rw [(outputs_of_all_fit hfits).1, (outputs_of_all_fit hfits).2, size_forward, chunks_forward]
      exact ⟨prefix_rfl, rfl, hfits.2⟩
    · rw [size, (outputs_of_ends hfits hends after).1, chunks_append, progress_of_ends hfits hends]
      exact ⟨prefix_append _ _, rfl, hfits.2⟩
  · rintro before bytes after rfl hfits hlt
    exact outputs_of_ends hfits (.crosses hlt) after
  · rintro before error after rfl hfits
    exact (outputs_of_ends hfits (.upstream error) after).2
  · rcases fits_or_ends maxBytes.toNat answers with hfits | ⟨before, answer, after, rfl, hfits, hends⟩
    · rw [(outputs_of_all_fit hfits).1, hfits.errors_forward]
      exact Nat.zero_le _
    · rw [(outputs_of_ends hfits hends after).2]
      exact Option.length_toList_le
  · rcases fits_or_ends maxBytes.toNat answers with hfits | ⟨before, answer, after, rfl, hfits, hends⟩
    · rw [(outputs_of_all_fit hfits).1, ← append_nil (answers.map _)]
      exact pairwise_forward_append hfits .nil
    · rw [outputs, ZipInputBudget.polls_of_ends hfits hends]
      refine pairwise_forward_append hfits (.cons (fun later hlater _ => ?_) ?_)
      · exact eq_of_mem_replicate hlater
      · exact pairwise_replicate.mpr (Or.inr fun _ => rfl)
  · rintro ⟨before, after, rfl, hfits⟩
    rw [progress_of_ends hfits .eof]
    rfl
  · rintro ⟨before, bytes, after, rfl, hfits, hlt⟩
    rw [progress_of_ends hfits (.crosses hlt)]
    rfl
  · rintro ⟨hclean, hexceeded⟩
    obtain ⟨before, after, rfl, hfits⟩ := heof hclean
    rw [progress_of_ends hfits .eof] at hexceeded
    cases hexceeded
  · obtain ⟨u, hcheck, -⟩ := of_bind h
    obtain ⟨-, hclean⟩ := of_ensure hcheck
    obtain ⟨before, after, rfl, hfits⟩ := heof (ensure_eq_ok_iff.mp hclean)
    exact ⟨before, after, rfl, hfits, (outputs_of_ends hfits .eof after).1⟩

end IpfS3.Multipart
