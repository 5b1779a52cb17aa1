import IpfS3.Zip.Extract

/-!
# The text of a failure

The message of a failure is formatted into a buffer of 512 bytes.  Every write is cut at a character
of its own, so a write can leave room that a later one takes.  The text is then no prefix of what was
written, because the first byte of a character tells its length (`failure_message_bounded`).
-/

namespace IpfS3.Zip

open List

variable {message value : Text} {pieces : List Text}

theorem floorCharBoundary_le (value : Text) (index : ℕ) : floorCharBoundary value index ≤ index := by
  induction index with
  | zero => exact le_rfl
  | succ index ih =>
    rw [floorCharBoundary]
    split_ifs
    · exact le_rfl
    · exact ih.trans (Nat.le_succ index)

theorem floorCharBoundary_of_isCharBoundary {index : ℕ} (h : isCharBoundary value index = true) :
    floorCharBoundary value index = index := by
  cases index with
  | zero => rfl
  | succ index => rw [floorCharBoundary, if_pos h]

theorem writeBounded_of_fits (h : message.length + value.length ≤ 512) :
    writeBounded message value = message ++ value := by
  have hend : isCharBoundary value value.length = true := by simp [isCharBoundary]
  rw [writeBounded, min_eq_left (by omega), floorCharBoundary_of_isCharBoundary hend,
    take_length]

theorem length_writeBounded_le (h : message.length ≤ 512) :
    (writeBounded message value).length ≤ 512 := by
  have hfloor := floorCharBoundary_le value (min value.length (512 - message.length))
  rw [writeBounded, length_append, length_take]
  omega

theorem floorCharBoundary_spec (value : Text) (index : ℕ) :
    isCharBoundary value (floorCharBoundary value index) = true ∧
      ∀ j ≤ index, isCharBoundary value j = true → j ≤ floorCharBoundary value index := by
  induction index with
  | zero => exact ⟨rfl, fun j hj _ => hj⟩
  | succ index ih =>
    rw [floorCharBoundary]
    split_ifs with hboundary
    · exact ⟨hboundary, fun j hj _ => hj⟩
    · refine ⟨ih.1, fun j hj hj' => ih.2 j (Nat.lt_succ_iff.mp (lt_of_le_of_ne hj ?_)) hj'⟩
      rintro rfl
      exact hboundary hj'

/-! ## Characters -/

def continues (byte : UInt8) : Bool := 128 ≤ byte && byte < 192

/-- The length of a character, by its first byte. -/
def charLength (lead : UInt8) : ℕ :=
  if lead < 128 then 1 else if lead < 224 then 2 else if lead < 240 then 3 else 4

theorem charLength_pos (lead : UInt8) : 0 < charLength lead := by
  unfold charLength
  split_ifs <;> decide

inductive IsUtf8 : Text → Prop
  | nil : IsUtf8 []
  | char {lead : UInt8} {tail rest : Text} (hlead : continues lead = false)
      (htail : ∀ byte ∈ tail, continues byte = true) (hlength : tail.length + 1 = charLength lead)
      (hrest : IsUtf8 rest) : IsUtf8 (lead :: (tail ++ rest))

theorem isCharBoundary_iff {index : ℕ} (hpos : 0 < index) : isCharBoundary value index = true ↔
    index = value.length ∨ ∃ byte, value[index]? = some byte ∧ continues byte = false := by
  rw [isCharBoundary, Bool.or_eq_true, Bool.or_eq_true, beq_iff_eq, beq_iff_eq, or_assoc,
    or_iff_right hpos.ne']
  refine or_congr_right ?_
  by_cases hlt : index < value.length
  · simp [hlt, continues, imp_iff_not_or]
  · simp [hlt]

section Char

variable {lead : UInt8} {tail rest : Text} {index : ℕ}

theorem length_le_of_isCharBoundary (htail : ∀ byte ∈ tail, continues byte = true)
    (hpos : 0 < index) (h : isCharBoundary (lead :: (tail ++ rest)) index = true) :
    tail.length + 1 ≤ index := by
  by_contra hlt
  obtain ⟨i, rfl⟩ := Nat.exists_eq_add_one.mpr hpos
  have hi : i < tail.length := by omega
  rcases (isCharBoundary_iff hpos).mp h with hend | ⟨byte, hbyte, hlead⟩
  · rw [length_cons, length_append] at hend
    omega
  · rw [getElem?_cons_succ, getElem?_append_left hi] at hbyte
    rw [htail byte (mem_of_getElem? hbyte)] at hlead
    cases hlead

theorem getElem?_rest {i : ℕ} : (lead :: (tail ++ rest))[tail.length + 1 + i]? = rest[i]? := by
  rw [Nat.add_right_comm, getElem?_cons_succ, getElem?_append_right (Nat.le_add_right _ _),
    Nat.add_sub_cancel_left]

theorem isCharBoundary_rest_iff (hpos : 0 < index) :
    isCharBoundary (lead :: (tail ++ rest)) (tail.length + 1 + index) = true ↔
      isCharBoundary rest index = true := by
  rw [isCharBoundary_iff hpos, isCharBoundary_iff (by omega), getElem?_rest, length_cons,
    length_append]
  refine or_congr_left ?_
  omega

end Char

/-- **The first byte of a character** tells where the next boundary is. -/
theorem IsUtf8.next (h : IsUtf8 value) {index : ℕ} (hindex : isCharBoundary value index = true)
    (hlt : index < value.length) : ∃ lead, value[index]? = some lead ∧
      isCharBoundary value (index + charLength lead) = true ∧
      ∀ j, index < j → isCharBoundary value j = true → index + charLength lead ≤ j := by
  induction h generalizing index with
  | nil => cases hlt
  | @char lead tail rest hlead htail hlength hrest ih =>
    rcases Nat.eq_zero_or_pos index with rfl | hpos
    · refine ⟨lead, rfl, ?_, fun j hj hj' => ?_⟩
      · rw [Nat.zero_add, ← hlength, isCharBoundary_iff (Nat.succ_pos _)]
        cases hrest with
        | nil => exact Or.inl (by rw [append_nil, length_cons])
        | char hlead' => exact Or.inr ⟨_, getElem?_rest (i := 0), hlead'⟩
      · rw [Nat.zero_add, ← hlength]
        exact length_le_of_isCharBoundary htail hj hj'
    · obtain ⟨i, rfl⟩ := Nat.exists_eq_add_of_le (length_le_of_isCharBoundary htail hpos hindex)
      have hrestIndex : isCharBoundary rest i = true := by
        rcases Nat.eq_zero_or_pos i with rfl | hi
        · rfl
        · exact (isCharBoundary_rest_iff hi).mp hindex
      rw [length_cons, length_append] at hlt
      obtain ⟨lead', hlead', hnext, hleast⟩ := ih hrestIndex (by omega)
      have hpos' : 0 < i + charLength lead' := Nat.add_pos_right i (charLength_pos lead')
      refine ⟨lead', getElem?_rest.trans hlead', ?_, fun j hj hj' => ?_⟩
      · rw [Nat.add_assoc]
        exact (isCharBoundary_rest_iff hpos').mpr hnext
      · obtain ⟨j, rfl⟩ := Nat.exists_eq_add_of_le (show tail.length + 1 ≤ j by omega)
        have hle := hleast j (by omega) ((isCharBoundary_rest_iff (by omega)).mp hj')
        omega

/-! ## The writes -/

/-- How much of a write is taken when there is some room. -/
def taken (room : ℕ) (value : Text) : ℕ := floorCharBoundary value (min value.length room)

theorem taken_le (room : ℕ) (value : Text) : taken room value ≤ min value.length room :=
  floorCharBoundary_le value _

theorem writeBounded_eq : writeBounded message value =
    message ++ value.take (taken (512 - message.length) value) := rfl

/-- Once a write has gone over the room, nothing is taken of the later ones. -/
def CutsCleanly : ℕ → List Text → Prop
  | _, [] => True
  | room, value :: pieces =>
    if value.length ≤ room then CutsCleanly (room - value.length) pieces
    else ∀ later ∈ pieces, taken (room - taken room value) later = 0

theorem isPrefix_foldl_writeBounded (message : Text) (pieces : List Text) :
    message <+: pieces.foldl writeBounded message := by
  induction pieces generalizing message with
  | nil => exact prefix_rfl
  | cons value pieces ih => exact (prefix_append _ _).trans (ih _)

theorem foldl_writeBounded_cases (message : Text) (pieces : List Text) :
    (∀ later ∈ pieces, taken (512 - message.length) later = 0) ∧
        pieces.foldl writeBounded message = message ∨
      ∃ later ∈ pieces, taken (512 - message.length) later ≠ 0 ∧
        message ++ later.take (taken (512 - message.length) later) <+:
          pieces.foldl writeBounded message := by
  induction pieces with
  | nil => exact Or.inl ⟨fun _ h => (by cases h), rfl⟩
  | cons value pieces ih =>
    rw [foldl_cons]
    by_cases hzero : taken (512 - message.length) value = 0
    · have hsame : writeBounded message value = message := by
        rw [writeBounded_eq, hzero, take_zero, append_nil]
      rw [hsame]
      rcases ih with ⟨hall, hfold⟩ | ⟨later, hlater, htaken, hprefix⟩
      · exact Or.inl ⟨forall_mem_cons.mpr ⟨hzero, hall⟩, hfold⟩
      · exact Or.inr ⟨later, mem_cons_of_mem _ hlater, htaken, hprefix⟩
    · exact Or.inr ⟨value, mem_cons_self, hzero, isPrefix_foldl_writeBounded _ _⟩

theorem not_isPrefix_of_taken {later rest : Text} {room : ℕ} (hvalue : IsUtf8 value)
    (hlater : IsUtf8 later) (hover : room < value.length)
    (htaken : taken (room - taken room value) later ≠ 0) :
    ¬later.take (taken (room - taken room value) later) <+: value.drop (taken room value) ++ rest := by
  have hkept := taken_le room value
  have hfits := taken_le (room - taken room value) later
  have hpos := Nat.pos_of_ne_zero htaken
  obtain ⟨lead, hlead, hnext, -⟩ := hvalue.next (floorCharBoundary_spec value _).1
    (show taken room value < value.length by omega)
  obtain ⟨lead', hlead', -, hleast⟩ := hlater.next rfl (show 0 < later.length by omega)
  have hlong : room < taken room value + charLength lead := by
    by_contra hle
    have hmax : taken room value + charLength lead ≤ taken room value :=
      (floorCharBoundary_spec value _).2 _ (by omega) hnext
    have := charLength_pos lead
    omega
  have hshort : 0 + charLength lead' ≤ taken (room - taken room value) later :=
    hleast _ hpos (floorCharBoundary_spec later _).1
  rintro ⟨suffix, hsuffix⟩
  have hfirst := congrArg (·[0]?) hsuffix
  rw [getElem?_append_left (by rw [length_take]; omega), getElem?_take_of_lt hpos, hlead',
    getElem?_append_left (by rw [length_drop]; omega), getElem?_drop, Nat.add_zero] at hfirst
  obtain rfl : lead' = lead := Option.some.inj (hfirst.trans hlead)
  omega

/-- **The text is a prefix** just when nothing is taken after a write that was cut. -/
theorem foldl_writeBounded_isPrefix_iff (hpieces : ∀ piece ∈ pieces, IsUtf8 piece)
    (h : message.length ≤ 512) :
    pieces.foldl writeBounded message <+: message ++ pieces.flatten ↔
      CutsCleanly (512 - message.length) pieces := by
  induction pieces generalizing message with
  | nil => simp [CutsCleanly]
  | cons value pieces ih =>
    obtain ⟨hvalue, hpieces⟩ := forall_mem_cons.mp hpieces
    rw [CutsCleanly, foldl_cons, flatten_cons]
    split_ifs with hfits
    · rw [writeBounded_of_fits (by omega), ← append_assoc, ih hpieces (by rw [length_append]; omega),
        length_append, Nat.sub_sub]
    · have hkept := taken_le (512 - message.length) value
      have hroom : 512 - (writeBounded message value).length =
          512 - message.length - taken (512 - message.length) value := by
        rw [writeBounded_eq, length_append, length_take]
        omega
      rcases foldl_writeBounded_cases (writeBounded message value) pieces with
        ⟨hnone, hfold⟩ | ⟨later, hlater, htaken, hprefix⟩
      · rw [hroom] at hnone
        refine iff_of_true ?_ hnone
        rw [hfold, writeBounded_eq, prefix_append_right_inj]
        exact ( take_prefix _ _).trans (prefix_append _ _)
      · rw [hroom] at htaken hprefix
        refine iff_of_false (fun hall => ?_) fun hnone => htaken (hnone later hlater)
        have hsplit : message ++ (value ++ pieces.flatten) = writeBounded message value ++
            (value.drop (taken (512 - message.length) value) ++ pieces.flatten) := by
          rw [writeBounded_eq, append_assoc, ← append_assoc (take _ _), take_append_drop]
        have hboth := hprefix.trans hall
        rw [hsplit, prefix_append_right_inj] at hboth
        exact not_isPrefix_of_taken hvalue (hpieces later hlater) (by omega) htaken hboth

theorem foldl_writeBounded_of_fits (h : message.length + pieces.flatten.length ≤ 512) :
    pieces.foldl writeBounded message = message ++ pieces.flatten := by
  induction pieces generalizing message with
  | nil => simp
  | cons value pieces ih =>
    rw [flatten_cons, length_append] at h
    rw [foldl_cons, writeBounded_of_fits (by omega), ih (by rw [length_append]; omega),
      flatten_cons, append_assoc]

/-- **The text of a failure** has at most 512 bytes, is all that was written if that fits, and is a
prefix of it just when no write adds to the text after one that was cut. -/
theorem failure_message_bounded (entryName : Text) (code : String) (message : List Text) :
    (failure entryName code message).message.length ≤ 512 ∧
    (message.flatten.length ≤ 512 →
      (failure entryName code message).message = message.flatten) ∧
    ((∀ piece ∈ message, IsUtf8 piece) →
      ((failure entryName code message).message <+: message.flatten ↔ CutsCleanly 512 message)) := by
  refine ⟨?_, fun h => ?_, fun h => ?_⟩
  · refine foldlRecOn (motive := fun text : Text => text.length ≤ 512) message writeBounded
      (Nat.zero_le _) fun text htext value _ => length_writeBounded_le htext
  · exact foldl_writeBounded_of_fits (by simpa using h)
  · exact foldl_writeBounded_isPrefix_iff h (Nat.zero_le _)

theorem isUtf8_letters (n : ℕ) : IsUtf8 (replicate n 97) := by
  induction n with
  | zero => exact .nil
  | succ n ih =>
    show IsUtf8 (97 :: ([] ++ replicate n 97))
    exact .char rfl (fun _ h => by cases h) rfl ih

/-- An empty write follows a character that does not fit. -/
theorem failure_message_bounded_emptyWrite :
    (failure [97] "EntryReadFailed" [replicate 511 97, [195, 169], []]).message <+:
      [replicate 511 97, [195, 169], []].flatten := by
  refine ((failure_message_bounded [97] "EntryReadFailed" _).2.2 ?_).mpr ?_
  · have haccent : IsUtf8 (195 :: ([169] ++ [])) :=
      .char rfl (forall_mem_singleton.mpr rfl) rfl .nil
    rw [forall_mem_cons, forall_mem_cons, forall_mem_singleton]
    exact ⟨isUtf8_letters 511, haccent, .nil⟩
  · rw [CutsCleanly, length_replicate, if_pos (by decide), CutsCleanly, if_neg (by decide)]
    decide

/-- After 511 letters there is no room for a character of two bytes, but for one of one byte. -/
theorem failure_message_diverges : ∃ message : List Text,
    ¬(failure [97] "EntryReadFailed" message).message <+: message.flatten := by
  refine ⟨[replicate 511 97, [195, 169], [98]], ?_⟩
  have hletters : writeBounded [] (replicate 511 97) = replicate 511 97 :=
    writeBounded_of_fits (by rw [length_replicate]; decide)
  have hcut : writeBounded (replicate 511 97) [195, 169] = replicate 511 97 := by
    rw [writeBounded, length_replicate]
    exact append_nil _
  have hlast : writeBounded (replicate 511 97) [98] = replicate 511 97 ++ [98] :=
    writeBounded_of_fits (by rw [length_replicate]; decide)
  rw [failure, foldl_cons, hletters, foldl_cons, hcut, foldl_cons, hlast,
    foldl_nil, flatten_cons, prefix_append_right_inj]
  decide

end IpfS3.Zip
