import IpfS3.Text

/-!
# Local headers

`zip/local_header.rs`: the reader that the ZIP library reads the archive from counts the bytes it
hands over, keeps the 30 bytes of a local header or the bytes of a data descriptor while it is armed,
and charges every complete local header to the budgets of entries and of metadata.

`SourceEvent` is what the library does with that reader.  A header that `take` accepts has been
charged once (`HeaderCharge.entriesLeft_of_take`).
-/

namespace IpfS3.Zip

open List

abbrev Bytes := List UInt8

def localHeaderLen : ℕ := 30

def localHeaderSignature : Bytes := [0x50, 0x4b, 0x03, 0x04]

def descriptorSignature : Bytes := [0x50, 0x4b, 0x07, 0x08]

/-- `u16::from_le_bytes` at an offset. -/
def u16At (bytes : Bytes) (offset : ℕ) : ℕ :=
  (bytes.getD offset 0).toNat + 256 * (bytes.getD (offset + 1) 0).toNat

def u32At (bytes : Bytes) (offset : ℕ) : ℕ := u16At bytes offset + 65536 * u16At bytes (offset + 2)

structure LocalHeaderMeta where
  generalPurposeFlags : ℕ
  compressionMethod : ℕ
  deriving DecidableEq

def LocalHeaderMeta.usesDescriptor (header : LocalHeaderMeta) : Bool :=
  header.generalPurposeFlags.testBit 3

structure ProbeState where
  armed : Bool
  header : Bytes
  descriptor : Bool
  position : ℕ
  entriesLeft : ℕ
  metadataLeft : ℕ
  prefixBytes : ℕ
  limitExceeded : Bool
  deriving DecidableEq

/-- What comes of bytes that are handed over. -/
inductive Observed where
  | ok
  | budgetExceeded
  | underflow
  deriving DecidableEq

/-- A subtraction of unsigned numbers, and `none` where it underflows. -/
def checkedSub (a b : ℕ) : Option ℕ := if b ≤ a then some (a - b) else none

theorem checkedSub_of_le {a b : ℕ} (h : b ≤ a) : checkedSub a b = some (a - b) := if_pos h

namespace ProbeState

/-- The state of a probe with its budgets. -/
def withBudget (entries metadata prefixBytes : ℕ) : ProbeState :=
  ⟨false, [], false, 0, entries, metadata, prefixBytes, false⟩

variable (st : ProbeState)

/-- `begin`. -/
def start : ProbeState := { st with armed := true, descriptor := false, header := [] }

def beginDescriptor : ProbeState := { st with armed := true, descriptor := true, header := [] }

def headerComplete : Bool :=
  st.header.length == localHeaderLen && st.header.take 4 == localHeaderSignature

/-- The reservation of an entry, with the saturation of a `u64`. -/
def charge : ℕ :=
  min (2 ^ 64 - 1) (4096 + min (2 ^ 64 - 1)
    (8 * (u16At st.header 26 + u16At st.header 28 + st.prefixBytes)))

/-- The bytes that an armed probe keeps. -/
def keptLen : ℕ := if st.descriptor = true then 16 else localHeaderLen

def chargeHeader : ProbeState × Observed :=
  if st.descriptor = false ∧ st.headerComplete = true then
    if st.entriesLeft = 0 ∨ st.metadataLeft < st.charge then
      ({ st with limitExceeded := true }, .budgetExceeded)
    else
      match checkedSub st.entriesLeft 1, checkedSub st.metadataLeft st.charge with
      | some entriesLeft, some metadataLeft => ({ st with entriesLeft, metadataLeft }, .ok)
      | _, _ => (st, .underflow)
  else (st, .ok)

def observeConsumed (bytes : Bytes) : ProbeState × Observed :=
  let st := { st with position := st.position + bytes.length }
  if st.armed = false ∨ st.header.length = st.keptLen then (st, .ok)
  else
    let length := min bytes.length (st.keptLen - st.header.length)
    { st with header := st.header ++ bytes.take length }.chargeHeader

/-- The bytes that one read may hand over: a read does not cross the end of a header. -/
def readCap (available : ℕ) : ℕ :=
  if st.armed = true ∧ st.descriptor = false ∧ st.header.length < localHeaderLen then
    min available (localHeaderLen - st.header.length)
  else available

def take : ProbeState × Except String LocalHeaderMeta :=
  ({ st with armed := false },
    if st.header.length ≠ localHeaderLen then .error "zip local header is shorter than 30 bytes"
    else if st.header.take 4 ≠ localHeaderSignature then
      .error "zip local header signature is invalid"
    else .ok ⟨u16At st.header 6, u16At st.header 8⟩)

/-- The bytes of a descriptor without its signature. -/
def descriptorFields : Bytes :=
  if descriptorSignature.isPrefixOf st.header = true then st.header.drop 4 else st.header

def descriptorMatches (crc : UInt32) (compressed size : ℕ) : ProbeState × Bool :=
  ({ st with armed := false },
    st.descriptorFields.length == 12 && u32At st.descriptorFields 0 == crc.toNat &&
      u32At st.descriptorFields 4 == compressed && u32At st.descriptorFields 8 == size)

end ProbeState

/-- What the ZIP library does with its reader: it reads through `poll_read`, or it consumes bytes that
it has seen in the buffer. -/
inductive SourceEvent where
  | read (bytes : Bytes)
  | consume (amount : ℕ)
  deriving DecidableEq

def SourceEvent.amount : SourceEvent → ℕ
  | .read bytes => bytes.length
  | .consume amount => amount

/-- The bytes that pass through `poll_read`. -/
def readBytes : List SourceEvent → Bytes
  | [] => []
  | .read bytes :: events => bytes ++ readBytes events
  | .consume _ :: events => readBytes events

def ProbeState.observe (st : ProbeState) : SourceEvent → ProbeState × Observed
  | .read bytes => st.observeConsumed (bytes.take (st.readCap bytes.length))
  | .consume amount => ({ st with position := st.position + amount }, .ok)

/-- The events up to the first that fails; the library passes the error on. -/
def ProbeState.observeAll : ProbeState → List SourceEvent → ProbeState × Observed
  | st, [] => (st, .ok)
  | st, event :: events =>
    match st.observe event with
    | (st', .ok) => st'.observeAll events
    | failed => failed

/-! ## Charges -/

variable {st st' : ProbeState} {outcome : Observed} {events : List SourceEvent} {entries : ℕ}

/-- What `chargeHeader` does: nothing, a refusal, or a charge. -/
inductive ChargeStep (st : ProbeState) : ProbeState × Observed → Prop
  | idle (hidle : ¬(st.descriptor = false ∧ st.headerComplete = true)) : ChargeStep st (st, .ok)
  | refused (hlocal : st.descriptor = false) :
    ChargeStep st ({ st with limitExceeded := true }, .budgetExceeded)
  | charged (metadataLeft : ℕ) (hlocal : st.descriptor = false)
    (hcomplete : st.headerComplete = true) (hleft : 1 ≤ st.entriesLeft) :
    ChargeStep st ({ st with entriesLeft := st.entriesLeft - 1, metadataLeft }, .ok)

theorem chargeStep_chargeHeader (st : ProbeState) : ChargeStep st st.chargeHeader := by
  unfold ProbeState.chargeHeader
  split_ifs with hcomplete hbudget
  · exact .refused hcomplete.1
  · rw [not_or, not_lt] at hbudget
    have hleft : 1 ≤ st.entriesLeft := Nat.one_le_iff_ne_zero.mpr hbudget.1
    rw [checkedSub_of_le hleft, checkedSub_of_le hbudget.2]
    exact .charged _ hcomplete.1 hcomplete.2 hleft
  · exact .idle hcomplete

/-- What one event does: bytes are counted, and some may be kept. -/
inductive ObserveStep (st : ProbeState) : SourceEvent → ProbeState × Observed → Prop
  | counted (event : SourceEvent) (amount : ℕ)
    (hidle : ∀ bytes, event = .read bytes → st.armed = false ∨ st.header.length = st.keptLen) :
    ObserveStep st event ({ st with position := st.position + amount }, .ok)
  | kept (bytes : Bytes) (amount : ℕ) (result : ProbeState × Observed)
    (harmed : st.armed = true) (hshort : st.header.length ≠ st.keptLen)
    (hresult : ChargeStep
      { st with
        position := st.position + amount
        header := st.header ++ (bytes.take (st.readCap bytes.length)).take
          (st.keptLen - st.header.length) } result) :
    ObserveStep st (.read bytes) result

theorem observeStep_observe (st : ProbeState) (event : SourceEvent) :
    ObserveStep st event (st.observe event) := by
  cases event with
  | consume amount => exact .counted _ amount fun bytes h => by cases h
  | read bytes =>
    unfold ProbeState.observe ProbeState.observeConsumed
    dsimp only
    split_ifs with hidle
    · exact .counted _ _ fun _ _ => hidle
    · rw [not_or, Bool.not_eq_false] at hidle
      refine .kept bytes (bytes.take (st.readCap bytes.length)).length _ hidle.1 hidle.2 ?_
      rw [min_comm, ← take_take, take_length]
      exact chargeStep_chargeHeader _

theorem observe_ne_underflow (st : ProbeState) (event : SourceEvent) :
    (st.observe event).2 ≠ .underflow := by
  intro h
  have hstep := observeStep_observe st event
  generalize st.observe event = result at hstep h
  cases hstep with
  | counted => cases h
  | kept bytes amount result harmed hshort hresult => cases hresult <;> cases h

theorem observeAll_induction {P : ProbeState → Prop} {Q : Observed → ProbeState → Prop}
    (hok : ∀ st, P st → Q .ok st)
    (hstep : ∀ st event, P st → ((st.observe event).2 = .ok → P (st.observe event).1) ∧
      ((st.observe event).2 ≠ .ok → Q (st.observe event).2 (st.observe event).1))
    (hst : P st) (events : List SourceEvent) :
    Q (st.observeAll events).2 (st.observeAll events).1 := by
  induction events generalizing st with
  | nil => exact hok st hst
  | cons event events ih =>
    obtain ⟨hnext, hfailed⟩ := hstep st event hst
    rw [ProbeState.observeAll]
    rcases hevent : st.observe event with ⟨st', _ | _ | _⟩
    · rw [hevent] at hnext
      exact ih (hnext rfl)
    · rw [hevent] at hfailed
      exact hfailed fun h => by cases h
    · exact absurd (congrArg Prod.snd hevent) (observe_ne_underflow st event)

/-- While a header is read: it is charged when it is complete, and not before. -/
structure HeaderCharge (entries : ℕ) (st : ProbeState) : Prop where
  armed : st.armed = true
  local_header : st.descriptor = false
  length_le : st.header.length ≤ localHeaderLen
  entriesLeft_eq : st.entriesLeft + (if st.headerComplete = true then 1 else 0) = entries

theorem headerCharge_start (st : ProbeState) : HeaderCharge st.entriesLeft st.start where
  armed := rfl
  local_header := rfl
  length_le := Nat.zero_le _
  entriesLeft_eq := rfl

theorem ChargeStep.headerCharge (hstep : ChargeStep st (st', .ok)) (harmed : st.armed = true)
    (hlocal : st.descriptor = false) (hlength : st.header.length ≤ localHeaderLen)
    (hentries : st.entriesLeft = entries) : HeaderCharge entries st' := by
  cases hstep with
  | idle hidle =>
    refine ⟨harmed, hlocal, hlength, ?_⟩
    rw [if_neg fun hheader => hidle ⟨hlocal, hheader⟩, add_zero, hentries]
  | charged metadataLeft _ hcomplete hleft =>
    refine ⟨harmed, hlocal, hlength, ?_⟩
    rw [ProbeState.headerComplete] at hcomplete
    show st.entriesLeft - 1 + (if (st.header.length == localHeaderLen &&
      st.header.take 4 == localHeaderSignature) = true then 1 else 0) = entries
    rw [if_pos hcomplete]
    omega

theorem HeaderCharge.observe (h : HeaderCharge entries st) {event : SourceEvent}
    (hok : (st.observe event).2 = .ok) : HeaderCharge entries (st.observe event).1 := by
  have hkept : st.keptLen = localHeaderLen := by
    rw [ProbeState.keptLen, h.local_header, if_neg Bool.false_ne_true]
  have hstep := observeStep_observe st event
  rcases hresult : st.observe event with ⟨st', outcome⟩
  rw [hresult] at hstep hok
  obtain rfl : outcome = .ok := hok
  cases hstep with
  | counted => exact ⟨h.armed, h.local_header, h.length_le, h.entriesLeft_eq⟩
  | kept bytes amount _ _ hshort hcharge =>
    rw [hkept] at hshort hcharge
    have hle := h.length_le
    have hentries := h.entriesLeft_eq
    have hincomplete : ¬st.headerComplete = true := by
      unfold ProbeState.headerComplete
      simp [hshort]
    rw [if_neg hincomplete, add_zero] at hentries
    refine hcharge.headerCharge h.armed h.local_header ?_ hentries
    rw [length_append, length_take]
    omega

theorem HeaderCharge.entriesLeft_of_take (h : HeaderCharge entries st) {header : LocalHeaderMeta}
    (htake : st.take.2 = .ok header) : st.entriesLeft + 1 = entries := by
  unfold ProbeState.take at htake
  dsimp only at htake
  split_ifs at htake with hlength hsignature
  have hcomplete : st.headerComplete = true := by
    unfold ProbeState.headerComplete
    rw [not_not.mp hlength, not_not.mp hsignature, beq_self_eq_true, beq_self_eq_true]
    rfl
  have hentries := h.entriesLeft_eq
  rwa [if_pos hcomplete] at hentries

/-- **The charge of a header**, over all events of a read. -/
theorem headerCharge_observeAll (hok : (st.start.observeAll events).2 = .ok) :
    HeaderCharge st.entriesLeft (st.start.observeAll events).1 := by
  have hall := observeAll_induction (P := HeaderCharge st.entriesLeft)
    (Q := fun outcome st' => outcome = .ok → HeaderCharge st.entriesLeft st')
    (fun _ h _ => h) (fun _ _ h => ⟨h.observe, fun hne heq => absurd heq hne⟩)
    (headerCharge_start st) events
  exact hall hok

theorem observeAll_ne_underflow (st : ProbeState) (events : List SourceEvent) :
    (st.observeAll events).2 ≠ .underflow :=
  observeAll_induction (P := fun _ => True) (Q := fun outcome _ => outcome ≠ .underflow)
    (fun _ _ h => by cases h) (fun _ _ _ => ⟨fun _ => trivial, fun _ => observe_ne_underflow _ _⟩)
    trivial events

/-! ## What events leave alone -/

theorem observe_le (st : ProbeState) (event : SourceEvent) :
    (st.observe event).1.entriesLeft ≤ st.entriesLeft ∧
      st.position ≤ (st.observe event).1.position := by
  have hstep := observeStep_observe st event
  generalize st.observe event = result at hstep
  cases hstep with
  | counted => exact ⟨le_rfl, Nat.le_add_right _ _⟩
  | kept bytes amount _ _ _ hcharge =>
    cases hcharge with
    | idle => exact ⟨le_rfl, Nat.le_add_right _ _⟩
    | refused => exact ⟨le_rfl, Nat.le_add_right _ _⟩
    | charged => exact ⟨Nat.sub_le _ _, Nat.le_add_right _ _⟩

theorem observeAll_le (st : ProbeState) (events : List SourceEvent) :
    (st.observeAll events).1.entriesLeft ≤ st.entriesLeft ∧
      st.position ≤ (st.observeAll events).1.position := by
  refine observeAll_induction
    (P := fun st' => st'.entriesLeft ≤ st.entriesLeft ∧ st.position ≤ st'.position)
    (Q := fun _ st' => st'.entriesLeft ≤ st.entriesLeft ∧ st.position ≤ st'.position)
    (fun _ h => h) (fun st' event h => ?_) ⟨le_rfl, le_rfl⟩ events
  have hle := observe_le st' event
  have hnext := And.intro (hle.1.trans h.1) (h.2.trans hle.2)
  exact ⟨fun _ => hnext, fun _ => hnext⟩

/-- **Between headers** bytes are counted and nothing else happens. -/
theorem observeAll_of_unarmed (hst : st.armed = false) (events : List SourceEvent) :
    st.observeAll events =
      ({ st with position := st.position + (events.map SourceEvent.amount).sum }, .ok) := by
  induction events generalizing st with
  | nil => rfl
  | cons event events ih =>
    have hevent : st.observe event =
        ({ st with position := st.position + event.amount }, .ok) := by
      cases event with
      | consume amount => rfl
      | read bytes =>
        have hcap : st.readCap bytes.length = bytes.length := by
          rw [ProbeState.readCap, if_neg fun h => Bool.false_ne_true (hst.symm.trans h.1)]
        rw [ProbeState.observe, hcap, take_length]
        exact if_pos (Or.inl hst)
    rw [ProbeState.observeAll, hevent, map_cons, sum_cons, ← add_assoc]
    exact ih hst

structure DescriptorRead (bytes : Bytes) (st : ProbeState) : Prop where
  armed : st.armed = true
  descriptor : st.descriptor = true
  header_eq : st.header = bytes.take 16

theorem DescriptorRead.observe {bytes : Bytes} (h : DescriptorRead bytes st) (event : SourceEvent) :
    (st.observe event).2 = .ok ∧
      DescriptorRead (bytes ++ readBytes [event]) (st.observe event).1 := by
  have hkept : st.keptLen = 16 := by rw [ProbeState.keptLen, if_pos h.descriptor]
  have hcap : ∀ available, st.readCap available = available := by
    intro available
    rw [ProbeState.readCap, h.descriptor, if_neg fun hc => Bool.noConfusion hc.2.1]
  have hstep := observeStep_observe st event
  generalize st.observe event = result at hstep
  cases hstep with
  | counted _ _ hidle =>
    refine ⟨rfl, h.armed, h.descriptor, ?_⟩
    cases hevent : event with
    | consume n =>
      rw [readBytes, readBytes, append_nil]
      exact h.header_eq
    | read chunk =>
      -- The descriptor is full.
      have hfull : (bytes.take 16).length = 16 := by
        rcases hidle chunk hevent with hunarmed | hlength
        · rw [h.armed] at hunarmed
          cases hunarmed
        · rw [hkept, h.header_eq] at hlength
          exact hlength
      rw [length_take] at hfull
      rw [take_append_of_le_length (by omega)]
      exact h.header_eq
  | kept chunk amount result _ hshort hcharge =>
    rw [hkept, hcap, take_length] at hcharge
    have hheader : st.header ++ chunk.take (16 - st.header.length) =
        (bytes ++ readBytes [.read chunk]).take 16 := by
      rw [hkept, h.header_eq] at hshort
      rw [h.header_eq, readBytes, readBytes, append_nil, take_append, length_take]
      congr 2
      omega
    cases hcharge with
    | idle => exact ⟨rfl, h.armed, h.descriptor, hheader⟩
    | refused hlocal => exact absurd (h.descriptor.symm.trans hlocal) (by decide)
    | charged _ hlocal => exact absurd (h.descriptor.symm.trans hlocal) (by decide)

/-- **The bytes of a descriptor** are the first that are read for it. -/
theorem DescriptorRead.observeAll {bytes : Bytes} (h : DescriptorRead bytes st)
    (events : List SourceEvent) :
    (st.observeAll events).2 = .ok ∧
      DescriptorRead (bytes ++ readBytes events) (st.observeAll events).1 := by
  induction events generalizing st bytes with
  | nil =>
    refine ⟨rfl, ?_⟩
    rw [readBytes, append_nil]
    exact h
  | cons event events ih =>
    obtain ⟨hok, hnext⟩ := h.observe event
    have hbytes : readBytes (event :: events) = readBytes [event] ++ readBytes events := by
      cases event with
      | read chunk => rw [readBytes, readBytes, readBytes, append_nil]
      | consume amount => rfl
    rw [ProbeState.observeAll]
    rcases hevent : st.observe event with ⟨st', outcome⟩
    rw [hevent] at hok hnext
    obtain rfl : outcome = .ok := hok
    rw [hbytes, ← append_assoc]
    exact ih hnext

theorem descriptorRead_beginDescriptor (st : ProbeState) : DescriptorRead [] st.beginDescriptor :=
  ⟨rfl, rfl, rfl⟩

end IpfS3.Zip
