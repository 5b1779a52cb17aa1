import IpfS3.Zip.LocalHeader

/-!
# The probe between the archive and its reader

`LocalHeaderObserver` wraps a `BufReader` and hands bytes over in two ways: `poll_read` copies them,
and `consume` drops bytes that were seen in the buffer.  The probe counts both, and keeps the bytes
that are read after `begin`.  The capacity of the buffer, how the inner reader cuts the archive into
pieces, how much a caller asks for, and when the buffer is filled, is arbitrary; a caller of `consume`
drops only what it has seen, and not while a local header is awaited (`ProbeEvent.Legal`).

`Watch` adds to the probe what the statements speak of: where the last header began, where it was
taken, and the local headers that have been completed since.  What the probe knows is then a function
of the archive and of positions in it (`Watched`), and so does not depend on the pieces.
-/

namespace IpfS3.Zip

open List Option

/-! ## The buffered reader -/

/-- A `BufReader`: its capacity, its buffer, and what the inner reader has not handed out. -/
structure Source where
  capacity : ℕ
  buffer : Bytes
  inner : Bytes

variable {amount : ℕ}

namespace Source

def rest (s : Source) : Bytes := s.buffer ++ s.inner

/-- `poll_fill_buf`; `amount` is what the inner reader hands out when it is asked. -/
def fillBuf (s : Source) (amount : ℕ) : Source :=
  if s.buffer.isEmpty = true then
    ⟨s.capacity, s.inner.take (min amount s.capacity), s.inner.drop (min amount s.capacity)⟩
  else s

/-- `poll_read` into a buffer with room for `limit` bytes; a large one is filled directly. -/
def read (s : Source) (limit amount : ℕ) : Bytes × Source :=
  if s.buffer.isEmpty = true ∧ s.capacity ≤ limit then
    (s.inner.take (min amount limit), ⟨s.capacity, [], s.inner.drop (min amount limit)⟩)
  else
    let s := s.fillBuf amount
    (s.buffer.take limit, ⟨s.capacity, s.buffer.drop limit, s.inner⟩)

def consume (s : Source) (amount : ℕ) : Source := ⟨s.capacity, s.buffer.drop amount, s.inner⟩

theorem rest_fillBuf (s : Source) (amount : ℕ) : (s.fillBuf amount).rest = s.rest := by
  unfold fillBuf rest
  split_ifs with hempty
  · rw [take_append_drop, isEmpty_iff.mp hempty, nil_append]
  · rfl

theorem read_spec (s : Source) (limit amount : ℕ) :
    (s.read limit amount).1 ++ (s.read limit amount).2.rest = s.rest ∧
      (s.read limit amount).1.length ≤ limit := by
  unfold read
  split_ifs with hdirect
  · constructor
    · show s.inner.take _ ++ ([] ++ s.inner.drop _) = s.buffer ++ s.inner
      rw [nil_append, take_append_drop, isEmpty_iff.mp hdirect.1, nil_append]
    · rw [length_take]
      omega
  · constructor
    · rw [← rest_fillBuf s amount]
      show (s.fillBuf amount).buffer.take limit ++
        ((s.fillBuf amount).buffer.drop limit ++ (s.fillBuf amount).inner) = _
      rw [← append_assoc, take_append_drop, rest]
    · exact length_take_le _ _

theorem rest_consume (s : Source) (h : amount ≤ s.buffer.length) :
    (s.consume amount).rest = s.rest.drop amount := by
  rw [rest, rest, drop_append_of_le_length h, consume]

end Source

/-! ## The observer -/

/-- What is done with the observer and its probe. -/
inductive ProbeEvent where
  | start
  | take
  | beginDescriptor
  | descriptorMatches (crc : UInt32) (compressed size : ℕ)
  | read (requested amount : ℕ)
  | fillBuf (amount : ℕ)
  | consume (amount : ℕ)

/-- The observer, with the position of the last `begin`, the position of the `take` that followed, and
the local headers that were completed, each with whether it was accepted. -/
structure Watch where
  probe : ProbeState
  source : Source
  start : Option ℕ
  stop : Option ℕ
  headers : List (ℕ × Bool)

namespace Watch

variable (archive : Bytes) (w : Watch)

/-- The state at the start of an archive. -/
def initial (capacity entries metadata prefixBytes : ℕ) : Watch :=
  ⟨.withBudget entries metadata prefixBytes, ⟨capacity, [], archive⟩, none, none, []⟩

/-- `poll_read`: the bytes that are handed over, and the reader behind them. -/
def pollRead (requested amount : ℕ) : Bytes × Source :=
  w.source.read (w.probe.readCap requested) amount

/-- The local header that a read of `length` bytes completes. -/
def completed (length : ℕ) : List ℕ :=
  match w.start, w.stop with
  | some start, none =>
    if w.probe.position < start + localHeaderLen ∧
        start + localHeaderLen ≤ w.probe.position + length ∧
        (archive.drop start).take 4 = localHeaderSignature then [start]
    else []
  | _, _ => []

/-- The position at which the last header was taken, or the current one. -/
def stopped : ℕ := w.stop.getD w.probe.position

variable {w} in
theorem stopped_of_none (h : w.stop = none) : w.stopped = w.probe.position := by
  rw [stopped, h, getD_none]

def step : ProbeEvent → Watch
  | .start => { w with probe := w.probe.start, start := some w.probe.position, stop := none }
  | .take => { w with probe := w.probe.take.1, stop := some w.stopped }
  | .beginDescriptor => { w with probe := w.probe.beginDescriptor, start := none, stop := none }
  | .descriptorMatches crc compressed size =>
    { w with probe := (w.probe.descriptorMatches crc compressed size).1, stop := some w.stopped }
  | .read requested amount =>
    let (bytes, source) := w.pollRead requested amount
    let (probe, outcome) := w.probe.observeConsumed bytes
    { w with
      probe
      source
      headers := w.headers ++ (w.completed archive bytes.length).map fun start =>
        (start, outcome == .ok) }
  | .fillBuf amount => { w with source := w.source.fillBuf amount }
  | .consume amount =>
    { w with
      probe.position := w.probe.position + amount
      source := w.source.consume amount }

end Watch

/-- A caller drops only what it has seen, and reads a local header through `poll_read`. -/
def ProbeEvent.Legal (w : Watch) : ProbeEvent → Prop
  | .consume amount => amount ≤ w.source.buffer.length ∧
      ¬(w.probe.armed = true ∧ w.probe.descriptor = false ∧ w.probe.header.length < localHeaderLen)
  | _ => True

/-- The states that legal events lead to. -/
inductive Watch.Reachable (archive : Bytes) (entries metadata prefixBytes : ℕ) : Watch → Prop
  | initial (capacity : ℕ) : Reachable archive entries metadata prefixBytes
      (.initial archive capacity entries metadata prefixBytes)
  | step {w : Watch} {event : ProbeEvent}
      (h : Reachable archive entries metadata prefixBytes w) (hlegal : event.Legal w) :
      Reachable archive entries metadata prefixBytes (w.step archive event)

/-! ## What the probe knows -/

/-- The bytes of the archive between two positions. -/
def window (archive : Bytes) (start stop : ℕ) : Bytes := (archive.take stop).drop start

/-- What an entry whose local header starts at a position is charged. -/
def headerCharge (archive : Bytes) (prefixBytes start : ℕ) : ℕ :=
  4096 + 8 * (u16At archive (start + 26) + u16At archive (start + 28) + prefixBytes)

def acceptedCharges (archive : Bytes) (prefixBytes : ℕ) (headers : List (ℕ × Bool)) : List ℕ :=
  (headers.filter Prod.snd).map fun header => headerCharge archive prefixBytes header.1

/-- The probe as a function of the archive, of positions in it, and of the completed headers. -/
structure Watched (archive : Bytes) (entries metadata prefixBytes : ℕ) (w : Watch) : Prop where
  position_le : w.probe.position ≤ archive.length
  rest_eq : w.source.rest = archive.drop w.probe.position
  start_le : ∀ start, w.start = some start → start ≤ w.stopped ∧ w.stopped ≤ w.probe.position
  header_eq : ∀ start, w.start = some start →
    w.probe.header = (window archive start w.stopped).take localHeaderLen
  armed_iff : ∀ start, w.start = some start → (w.probe.armed = true ↔ w.stop = none)
  local_header : ∀ start, w.start = some start → w.probe.descriptor = false
  idle : w.start = none → w.probe.armed = true → w.probe.descriptor = true
  length_le : w.probe.header.length ≤ w.probe.keptLen
  prefixBytes_eq : w.probe.prefixBytes = prefixBytes
  complete : ∀ header ∈ w.headers, header.1 + localHeaderLen ≤ w.probe.position ∧
    (archive.drop header.1).take 4 = localHeaderSignature
  apart : ∀ start, w.start = some start → ∀ header ∈ w.headers,
    header.1 + localHeaderLen ≤ start ∨ header.1 = start
  once : w.headers.Pairwise fun a b => a.1 + localHeaderLen ≤ b.1
  entries_eq : w.probe.entriesLeft + (w.headers.filter Prod.snd).length = entries
  metadata_eq : w.probe.metadataLeft + (acceptedCharges archive prefixBytes w.headers).sum = metadata
  limitExceeded_iff : w.probe.limitExceeded = true ↔ ∃ header ∈ w.headers, header.2 = false

section Steps

variable {archive : Bytes} {entries metadata prefixBytes : ℕ} {w : Watch}

theorem window_append {start stop count : ℕ} (hstart : start ≤ stop) (hstop : stop ≤ archive.length) :
    window archive start stop ++ (archive.drop stop).take count =
      window archive start (stop + count) := by
  have hlength : start ≤ (archive.take stop).length := by
    rw [length_take]
    omega
  rw [window, window, take_add, drop_append_of_le_length hlength]

theorem length_window {start stop : ℕ} (hstop : stop ≤ archive.length) :
    (window archive start stop).length = stop - start := by
  rw [window, length_drop, length_take]
  omega

theorem take_window {start stop count : ℕ} (h : start + count ≤ stop) :
    (window archive start stop).take count = (archive.drop start).take count := by
  rw [window, drop_take, take_take]
  congr 1
  omega

theorem u16At_window {start stop offset : ℕ} (h : start + offset + 2 ≤ stop) :
    u16At (window archive start stop) offset = u16At archive (start + offset) := by
  have hbyte : ∀ index, start + index < stop →
      (window archive start stop).getD index 0 = archive.getD (start + index) 0 := by
    intro index hindex
    rw [window, getD_eq_getElem?_getD, getD_eq_getElem?_getD, getElem?_drop,
      getElem?_take_of_lt hindex]
  rw [u16At, u16At, hbyte offset (by omega), hbyte (offset + 1) (by omega)]
  rfl

theorem watched_initial (capacity : ℕ) : Watched archive entries metadata prefixBytes
    (.initial archive capacity entries metadata prefixBytes) where
  position_le := Nat.zero_le _
  rest_eq := rfl
  start_le := fun _ h => by cases h
  header_eq := fun _ h => by cases h
  armed_iff := fun _ h => by cases h
  local_header := fun _ h => by cases h
  idle := fun _ h => by cases h
  length_le := Nat.zero_le _
  prefixBytes_eq := rfl
  complete := fun _ h => by cases h
  apart := fun _ h => by cases h
  once := .nil
  entries_eq := rfl
  metadata_eq := rfl
  limitExceeded_iff := ⟨fun h => (by cases h), fun ⟨_, h, _⟩ => by cases h⟩

section

variable (h : Watched archive entries metadata prefixBytes w)

include h

theorem Watched.start :
    Watched archive entries metadata prefixBytes (w.step archive .start) := by
  refine
    { h with
      start_le := ?_
      header_eq := ?_
      armed_iff := ?_
      local_header := ?_
      idle := ?_
      length_le := ?_
      apart := ?_ }
  · rintro start ⟨⟩
    exact ⟨le_rfl, le_rfl⟩
  · rintro start ⟨⟩
    show [] = ((archive.take w.probe.position).drop w.probe.position).take localHeaderLen
    rw [drop_take, Nat.sub_self, take_zero, take_nil]
  · exact fun _ _ => ⟨fun _ => rfl, fun _ => rfl⟩
  · exact fun _ _ => rfl
  · intro hnone
    cases hnone
  · exact Nat.zero_le _
  · rintro start ⟨⟩ header hheader
    exact Or.inl (h.complete header hheader).1

theorem Watched.disarm :
    Watched archive entries metadata prefixBytes
      { w with probe.armed := false, stop := some w.stopped } := by
  refine { h with start_le := ?_, header_eq := ?_, armed_iff := ?_, idle := ?_ }
  · exact h.start_le
  · exact h.header_eq
  · exact fun _ _ => ⟨fun hfalse => (by cases hfalse), fun hnone => by cases hnone⟩
  · intro _ hfalse
    cases hfalse

theorem Watched.beginDescriptor :
    Watched archive entries metadata prefixBytes (w.step archive .beginDescriptor) := by
  refine
    { h with
      start_le := ?_
      header_eq := ?_
      armed_iff := ?_
      local_header := ?_
      idle := ?_
      length_le := ?_
      apart := ?_ }
  · rintro start ⟨⟩
  · rintro start ⟨⟩
  · rintro start ⟨⟩
  · rintro start ⟨⟩
  · exact fun _ _ => rfl
  · exact Nat.zero_le _
  · rintro start ⟨⟩

theorem Watched.fillBuf (amount : ℕ) :
    Watched archive entries metadata prefixBytes (w.step archive (.fillBuf amount)) :=
  { h with rest_eq := (w.source.rest_fillBuf amount).trans h.rest_eq }

theorem Watched.complete_add (count : ℕ) : ∀ header ∈ w.headers,
    header.1 + localHeaderLen ≤ w.probe.position + count ∧
      (archive.drop header.1).take 4 = localHeaderSignature := by
  intro header hheader
  have hcomplete := h.complete header hheader
  exact ⟨hcomplete.1.trans (Nat.le_add_right _ _), hcomplete.2⟩

theorem Watched.pollRead (requested amount : ℕ) :
    (w.pollRead requested amount).1 =
        (archive.drop w.probe.position).take (w.pollRead requested amount).1.length ∧
      (w.pollRead requested amount).2.rest =
        archive.drop (w.probe.position + (w.pollRead requested amount).1.length) ∧
      w.probe.position + (w.pollRead requested amount).1.length ≤ archive.length ∧
      (w.pollRead requested amount).1.length ≤ w.probe.readCap requested := by
  obtain ⟨happend, hle⟩ := w.source.read_spec (w.probe.readCap requested) amount
  rw [h.rest_eq] at happend
  refine ⟨?_, ?_, ?_, hle⟩
  · rw [← happend]
    exact take_left.symm
  · rw [← drop_drop, ← happend]
    exact drop_left.symm
  · have hlength := congrArg length happend
    rw [length_append, length_drop] at hlength
    have hposition := h.position_le
    show w.probe.position + (w.source.read (w.probe.readCap requested) amount).1.length ≤ _
    omega

end

variable {source : Source}

section

variable (h : Watched archive entries metadata prefixBytes w)

include h

theorem Watched.count {count : ℕ} (hrest : source.rest = archive.drop (w.probe.position + count))
    (hle : w.probe.position + count ≤ archive.length)
    (hfull : ∀ start, w.start = some start → w.stop = none →
      start + localHeaderLen ≤ w.probe.position) :
    Watched archive entries metadata prefixBytes
      { w with probe.position := w.probe.position + count, source } := by
  refine
    { h with
      position_le := hle
      rest_eq := hrest
      start_le := ?_
      header_eq := ?_
      complete := h.complete_add count }
  · intro start hstart
    have hbounds := h.start_le start hstart
    unfold Watch.stopped at hbounds ⊢
    cases hstop : w.stop with
    | none =>
      rw [hstop] at hbounds
      exact ⟨hbounds.1.trans (Nat.le_add_right _ _), le_rfl⟩
    | some stop =>
      rw [hstop] at hbounds
      exact ⟨hbounds.1, hbounds.2.trans (Nat.le_add_right _ _)⟩
  · intro start hstart
    refine (h.header_eq start hstart).trans ?_
    unfold Watch.stopped
    cases hstop : w.stop with
    | some stop => rfl
    | none =>
      have hcomplete := hfull start hstart hstop
      show (window archive start w.probe.position).take localHeaderLen =
        (window archive start (w.probe.position + count)).take localHeaderLen
      rw [take_window hcomplete, take_window (hcomplete.trans (Nat.le_add_right _ _))]

theorem Watched.length_header {start : ℕ} (hstart : w.start = some start) :
    w.probe.header.length = min localHeaderLen (w.stopped - start) := by
  have hbounds := h.start_le start hstart
  rw [h.header_eq start hstart, length_take, length_window (hbounds.2.trans h.position_le)]

theorem Watched.full_of_legal (hlegal : (ProbeEvent.consume amount).Legal w) {start : ℕ}
    (hstart : w.start = some start) (hstop : w.stop = none) :
    start + localHeaderLen ≤ w.probe.position := by
  have hbounds := h.start_le start hstart
  have hlength := h.length_header hstart
  have hlong : ¬w.probe.header.length < localHeaderLen := fun hshort =>
    hlegal.2 ⟨(h.armed_iff start hstart).mpr hstop, h.local_header start hstart, hshort⟩
  rw [Watch.stopped_of_none hstop] at hbounds hlength
  omega

theorem Watched.consume (hlegal : (ProbeEvent.consume amount).Legal w) :
    Watched archive entries metadata prefixBytes (w.step archive (.consume amount)) := by
  have hrest := h.rest_eq
  refine h.count ?_ ?_ fun start hstart hstop => h.full_of_legal hlegal hstart hstop
  · rw [Source.rest_consume _ hlegal.1, hrest, drop_drop]
  · have hlength := congrArg length hrest
    rw [Source.rest, length_append, length_drop] at hlength
    have hposition := h.position_le
    have hseen := hlegal.1
    omega

end

/-! ## A read -/

theorem chargeHeader_spec (st : ProbeState) :
    st.chargeHeader.1.position = st.position ∧ st.chargeHeader.2 ≠ .underflow := by
  have hstep := chargeStep_chargeHeader st
  generalize st.chargeHeader = result at hstep
  cases hstep <;> simp

theorem position_observeConsumed (st : ProbeState) (bytes : Bytes) :
    (st.observeConsumed bytes).1.position = st.position + bytes.length := by
  unfold ProbeState.observeConsumed
  dsimp only
  split_ifs
  · rfl
  · exact (chargeHeader_spec _).1

theorem observeConsumed_ne_underflow (st : ProbeState) (bytes : Bytes) :
    (st.observeConsumed bytes).2 ≠ .underflow := by
  unfold ProbeState.observeConsumed
  dsimp only
  split_ifs
  · exact fun h => by cases h
  · exact (chargeHeader_spec _).2

theorem Watched.keep (h : Watched archive entries metadata prefixBytes w) {start count : ℕ}
    (hstart : w.start = some start) (hstop : w.stop = none)
    (hrest : source.rest = archive.drop (w.probe.position + count))
    (hle : w.probe.position + count ≤ archive.length)
    (hcount : w.probe.position + count ≤ start + localHeaderLen) :
    Watched archive entries metadata prefixBytes
      { w with
        probe.position := w.probe.position + count
        probe.header := window archive start (w.probe.position + count)
        source } := by
  have hbounds := h.start_le start hstart
  rw [Watch.stopped_of_none hstop] at hbounds
  have hlength : (window archive start (w.probe.position + count)).length ≤ localHeaderLen := by
    rw [length_window hle]
    omega
  refine
    { h with
      position_le := hle
      rest_eq := hrest
      start_le := ?_
      header_eq := ?_
      length_le := ?_
      complete := h.complete_add count }
  · intro other hother
    obtain rfl : start = other := some.inj (hstart.symm.trans hother)
    show start ≤ w.stop.getD (w.probe.position + count) ∧
      w.stop.getD (w.probe.position + count) ≤ w.probe.position + count
    rw [hstop]
    exact ⟨hbounds.1.trans (Nat.le_add_right _ _), le_rfl⟩
  · intro other hother
    obtain rfl : start = other := some.inj (hstart.symm.trans hother)
    show window archive start (w.probe.position + count) =
      (window archive start (w.stop.getD (w.probe.position + count))).take localHeaderLen
    rw [hstop, getD_none, take_of_length_le hlength]
  · show (window archive start (w.probe.position + count)).length ≤
      if w.probe.descriptor = true then 16 else localHeaderLen
    rw [h.local_header start hstart, if_neg Bool.false_ne_true]
    exact hlength

theorem Watched.keepDescriptor (h : Watched archive entries metadata prefixBytes w) {count : ℕ}
    {bytes : Bytes} (hstart : w.start = none) (hdescriptor : w.probe.descriptor = true)
    (hrest : source.rest = archive.drop (w.probe.position + count))
    (hle : w.probe.position + count ≤ archive.length) (length : ℕ) :
    Watched archive entries metadata prefixBytes
      { w with
        probe := ({ w.probe with
          position := w.probe.position + count
          header := w.probe.header ++ bytes.take (min length
            (w.probe.keptLen - w.probe.header.length)) } : ProbeState).chargeHeader.1
        source } := by
  have hnone : ∀ {p : ℕ → Prop} start, w.start = some start → p start := by
    intro p start hsome
    rw [hstart] at hsome
    cases hsome
  unfold ProbeState.chargeHeader
  rw [if_neg fun hc => Bool.false_ne_true (hc.1.symm.trans hdescriptor)]
  refine
    { h with
      position_le := hle
      rest_eq := hrest
      start_le := hnone
      header_eq := hnone
      length_le := ?_
      complete := h.complete_add count }
  · show (w.probe.header ++ bytes.take (min length
      (w.probe.keptLen - w.probe.header.length))).length ≤ w.probe.keptLen
    have hlength := h.length_le
    rw [length_append, length_take]
    omega

/-- A local header that has just been completed. -/
structure Watched.Fresh (archive : Bytes) (w : Watch) (start : ℕ) : Prop where
  start_eq : w.start = some start
  complete : start + localHeaderLen ≤ w.probe.position
  signature : (archive.drop start).take 4 = localHeaderSignature
  before : ∀ header ∈ w.headers, header.1 + localHeaderLen ≤ start

theorem Watched.list (h : Watched archive entries metadata prefixBytes w) {start : ℕ}
    (hfresh : Watched.Fresh archive w start) (accepted : Bool) {entriesLeft metadataLeft : ℕ}
    (hentries : entriesLeft + (if accepted = true then 1 else 0) = w.probe.entriesLeft)
    (hmetadata : metadataLeft + (if accepted = true then headerCharge archive prefixBytes start
      else 0) = w.probe.metadataLeft) :
    Watched archive entries metadata prefixBytes
      { w with
        probe.entriesLeft := entriesLeft
        probe.metadataLeft := metadataLeft
        probe.limitExceeded := w.probe.limitExceeded || !accepted
        headers := w.headers ++ [(start, accepted)] } := by
  have hfilter : (w.headers ++ [(start, accepted)]).filter Prod.snd =
      w.headers.filter Prod.snd ++ if accepted = true then [(start, accepted)] else [] := by
    rw [filter_append, filter_singleton]
    cases accepted <;> rfl
  have hentriesLeft := h.entries_eq
  have hmetadataLeft := h.metadata_eq
  refine
    { h with
      complete := ?_
      apart := ?_
      once := ?_
      entries_eq := ?_
      metadata_eq := ?_
      limitExceeded_iff := ?_ }
  · rw [forall_mem_append, forall_mem_singleton]
    exact ⟨h.complete, hfresh.complete, hfresh.signature⟩
  · intro other hother
    obtain rfl : start = other := some.inj (hfresh.start_eq.symm.trans hother)
    rw [forall_mem_append, forall_mem_singleton]
    exact ⟨h.apart start hfresh.start_eq, Or.inr rfl⟩
  · rw [pairwise_append]
    refine ⟨h.once, pairwise_singleton _ _, fun a ha b hb => ?_⟩
    rw [mem_singleton.mp hb]
    exact hfresh.before a ha
  · show entriesLeft + ((w.headers ++ [(start, accepted)]).filter Prod.snd).length = entries
    rw [hfilter, length_append]
    cases accepted <;> simp at hentries ⊢ <;> omega
  · show metadataLeft + (acceptedCharges archive prefixBytes
      (w.headers ++ [(start, accepted)])).sum = metadata
    rw [acceptedCharges, hfilter, map_append, sum_append, ← acceptedCharges]
    cases accepted <;> simp at hmetadata ⊢ <;> omega
  · show (w.probe.limitExceeded || !accepted) = true ↔ _
    rw [Bool.or_eq_true, h.limitExceeded_iff, Bool.not_eq_true']
    simp only [mem_append, mem_singleton, or_and_right, exists_or, exists_eq_left]

theorem headerComplete_iff {start stop : ℕ} {probe : ProbeState}
    (hprobe : probe.header = window archive start stop) (hle : stop ≤ archive.length)
    (hstop : stop ≤ start + localHeaderLen) :
    probe.headerComplete = true ↔ start + localHeaderLen ≤ stop ∧
      (archive.drop start).take 4 = localHeaderSignature := by
  unfold ProbeState.headerComplete
  rw [Bool.and_eq_true, beq_iff_eq, beq_iff_eq, hprobe, length_window hle]
  have hlen : localHeaderLen = 30 := rfl
  constructor
  · rintro ⟨hlength, hsignature⟩
    have hfull : start + localHeaderLen ≤ stop := by omega
    rw [take_window (by omega)] at hsignature
    exact ⟨hfull, hsignature⟩
  · rintro ⟨hfull, hsignature⟩
    rw [take_window (by omega)]
    exact ⟨by omega, hsignature⟩

theorem charge_eq {start : ℕ} {probe : ProbeState}
    (hprobe : probe.header = window archive start (start + localHeaderLen))
    (hlength : probe.prefixBytes = prefixBytes) (hlt : probe.charge < 2 ^ 64 - 1) :
    probe.charge = headerCharge archive prefixBytes start := by
  have hlen : localHeaderLen = 30 := rfl
  unfold ProbeState.charge at hlt ⊢
  rw [hprobe, hlength, u16At_window (by omega), u16At_window (by omega)] at hlt ⊢
  unfold headerCharge
  omega

section

variable (h : Watched archive entries metadata prefixBytes w) (hmetadata : metadata < 2 ^ 64 - 1)

include h hmetadata

/-- **The charge of a header.**  After a read, the header that it completed is charged or refused. -/
theorem Watched.chargeHeader {start : ℕ} (hstart : w.start = some start)
    (hheader : w.probe.header = window archive start w.probe.position)
    (hposition : w.probe.position ≤ start + localHeaderLen)
    (hbefore : ∀ header ∈ w.headers, header.1 + localHeaderLen ≤ start) :
    Watched archive entries metadata prefixBytes
      { w with
        probe := w.probe.chargeHeader.1
        headers := w.headers ++ (if start + localHeaderLen ≤ w.probe.position ∧
            (archive.drop start).take 4 = localHeaderSignature then [start] else []).map
          fun start => (start, w.probe.chargeHeader.2 == .ok) } := by
  have hcomplete := headerComplete_iff hheader h.position_le hposition
  have hlocal := h.local_header start hstart
  unfold ProbeState.chargeHeader
  by_cases hdone : start + localHeaderLen ≤ w.probe.position ∧
      (archive.drop start).take 4 = localHeaderSignature
  · have hfresh : Watched.Fresh archive w start := ⟨hstart, hdone.1, hdone.2, hbefore⟩
    rw [if_pos hdone, if_pos ⟨hlocal, hcomplete.mpr hdone⟩]
    split_ifs with hbudget
    · have hlist := h.list hfresh false (Nat.add_zero _) (Nat.add_zero _)
      rw [Bool.not_false, Bool.or_true] at hlist
      exact hlist
    · rw [not_or, not_lt] at hbudget
      have hleft : 1 ≤ w.probe.entriesLeft := Nat.one_le_iff_ne_zero.mpr hbudget.1
      have hsum := h.metadata_eq
      have hcharge : w.probe.charge = headerCharge archive prefixBytes start := by
        refine charge_eq ?_ h.prefixBytes_eq (by omega)
        rw [hheader, le_antisymm hposition hdone.1]
      rw [checkedSub_of_le hleft, checkedSub_of_le hbudget.2]
      have hlist := h.list hfresh true (Nat.sub_add_cancel hleft)
        (Nat.sub_add_cancel (hcharge ▸ hbudget.2))
      rw [Bool.not_true, Bool.or_false, ← hcharge] at hlist
      exact hlist
  · rw [if_neg hdone, if_neg fun hc => hdone (hcomplete.mp hc.2), map_nil, append_nil]
    exact h

/-- **A read**, however much it asks for and whatever the inner reader hands out. -/
theorem Watched.read (requested amount : ℕ) :
    Watched archive entries metadata prefixBytes
      (w.step archive (.read requested amount)) := by
  obtain ⟨hbytes, hrest, hle, hcap⟩ := h.pollRead requested amount
  unfold Watch.step
  dsimp only
  generalize w.pollRead requested amount = result at hbytes hrest hle hcap
  obtain ⟨bytes, source⟩ := result
  dsimp only at hbytes hrest hle hcap ⊢
  unfold ProbeState.observeConsumed
  dsimp only
  split_ifs with hidle
  · -- nothing is kept, so no header is completed
    have hfull : ∀ start, w.start = some start → w.stop = none →
        start + localHeaderLen ≤ w.probe.position := by
      intro start hstart hstop
      have hbounds := h.start_le start hstart
      have hlength := h.length_header hstart
      have harmed := (h.armed_iff start hstart).mpr hstop
      have hlocal := h.local_header start hstart
      rcases hidle with hunarmed | hlong
      · exact absurd (harmed.symm.trans hunarmed) (by decide)
      · unfold ProbeState.keptLen at hlong
        rw [hlocal, if_neg Bool.false_ne_true] at hlong
        rw [Watch.stopped_of_none hstop] at hbounds hlength
        omega
    have hnone : w.completed archive bytes.length = [] := by
      unfold Watch.completed
      split
      · rename_i start hstart hstop
        exact if_neg fun hc => absurd hc.1 (Nat.not_lt.mpr (hfull start hstart hstop))
      · rfl
    rw [hnone, map_nil, append_nil]
    exact h.count hrest hle hfull
  · rw [not_or, Bool.not_eq_false] at hidle
    obtain ⟨harmed, hshort⟩ := hidle
    rcases eq_none_or_eq_some w.start with hstart | ⟨start, hstart⟩
    · have hdescriptor := h.idle hstart harmed
      have hnone : w.completed archive bytes.length = [] := by
        unfold Watch.completed
        rw [hstart]
      rw [hnone, map_nil, append_nil]
      exact h.keepDescriptor hstart hdescriptor hrest hle _
    · have hstop := (h.armed_iff start hstart).mp harmed
      have hlocal := h.local_header start hstart
      have hbounds := h.start_le start hstart
      have hlength := h.length_header hstart
      have hheader := h.header_eq start hstart
      rw [Watch.stopped_of_none hstop] at hbounds hlength hheader
      have hkept : w.probe.keptLen = localHeaderLen := by
        unfold ProbeState.keptLen
        rw [hlocal, if_neg Bool.false_ne_true]
      have hmissing : w.probe.header.length < localHeaderLen :=
        lt_of_le_of_ne (hkept ▸ h.length_le) (hkept ▸ hshort)
      unfold ProbeState.readCap at hcap
      rw [if_pos ⟨harmed, hlocal, hmissing⟩] at hcap
      have hcount : w.probe.position + bytes.length ≤ start + localHeaderLen := by omega
      have hnext : w.probe.header ++ bytes.take (min bytes.length
          (w.probe.keptLen - w.probe.header.length)) =
            window archive start (w.probe.position + bytes.length) := by
        rw [hkept, min_eq_left (by omega), take_length, hheader,
          take_of_length_le (by rw [length_window h.position_le]; omega), hbytes,
          window_append hbounds.1 h.position_le, ← hbytes]
      have hcompleted : w.completed archive bytes.length =
          if start + localHeaderLen ≤ w.probe.position + bytes.length ∧
            (archive.drop start).take 4 = localHeaderSignature then [start] else [] := by
        unfold Watch.completed
        rw [hstart, hstop]
        exact if_congr (and_iff_right (by omega)) rfl rfl
      have hbefore : ∀ header ∈ w.headers, header.1 + localHeaderLen ≤ start := by
        intro header hmem
        rcases h.apart start hstart header hmem with hlt | heq
        · exact hlt
        · -- the header would have been complete before
          have hdone := (h.complete header hmem).1
          omega
      have hkeep := h.keep hstart hstop hrest hle hcount
      have hcharged := hkeep.chargeHeader hmetadata hstart rfl hcount hbefore
      rw [hcompleted]
      show Watched archive entries metadata prefixBytes
        { w with
          probe := ({ w.probe with
            position := w.probe.position + bytes.length
            header := w.probe.header ++ bytes.take (min bytes.length
              (w.probe.keptLen - w.probe.header.length)) } : ProbeState).chargeHeader.1
          source
          headers := _ ++ map (fun start => (start, ({ w.probe with
            position := w.probe.position + bytes.length
            header := w.probe.header ++ bytes.take (min bytes.length
              (w.probe.keptLen - w.probe.header.length)) } : ProbeState).chargeHeader.2 == .ok)) _ }
      rw [hnext]
      exact hcharged

/-- **One event** keeps what the probe knows. -/
theorem Watched.step {event : ProbeEvent} (hlegal : event.Legal w) :
    Watched archive entries metadata prefixBytes (w.step archive event) := by
  cases event with
  | start => exact h.start
  | take => exact h.disarm
  | beginDescriptor => exact h.beginDescriptor
  | descriptorMatches crc compressed size => exact h.disarm
  | read requested amount => exact h.read hmetadata requested amount
  | fillBuf amount => exact h.fillBuf amount
  | consume amount => exact h.consume hlegal

end

/-- A local header that has been completed is listed. -/
def Listed (archive : Bytes) (w : Watch) : Prop :=
  ∀ start, w.start = some start → start + localHeaderLen ≤ w.stopped →
    (archive.drop start).take 4 = localHeaderSignature → ∃ accepted, (start, accepted) ∈ w.headers

theorem Listed.read (h : Listed archive w) (requested amount : ℕ) :
    Listed archive (w.step archive (.read requested amount)) := by
  intro start hstart hfull hsignature
  have hposition : (w.step archive (.read requested amount)).probe.position =
      w.probe.position + (w.pollRead requested amount).1.length :=
    position_observeConsumed w.probe _
  unfold Watch.stopped at hfull
  rw [hposition] at hfull
  show ∃ accepted, (start, accepted) ∈ w.headers ++ (w.completed archive _).map _
  rcases eq_none_or_eq_some w.stop with hstop | ⟨stop, hstop⟩
  · have hfull : start + localHeaderLen ≤
        w.probe.position + (w.pollRead requested amount).1.length := by
      rw [← getD_none (a := w.probe.position + (w.pollRead requested amount).1.length),
        ← hstop]
      exact hfull
    by_cases hbefore : start + localHeaderLen ≤ w.probe.position
    · obtain ⟨accepted, hmem⟩ := h start hstart (by rw [Watch.stopped, hstop]; exact hbefore)
        hsignature
      exact ⟨accepted, mem_append_left _ hmem⟩
    · refine ⟨_, mem_append_right _ (mem_map.mpr ⟨start, ?_, rfl⟩)⟩
      unfold Watch.completed
      rw [show w.start = some start from hstart, hstop]
      dsimp only
      rw [if_pos ⟨Nat.lt_of_not_le hbefore, hfull, hsignature⟩]
      exact mem_singleton_self _
  · have hfull : start + localHeaderLen ≤ w.stopped := by
      rw [Watch.stopped, hstop]
      rw [show (w.step archive (.read requested amount)).stop = some stop from hstop] at hfull
      exact hfull
    obtain ⟨accepted, hmem⟩ := h start hstart hfull hsignature
    exact ⟨accepted, mem_append_left _ hmem⟩

theorem Listed.step (h : Listed archive w) (hw : Watched archive entries metadata prefixBytes w)
    {event : ProbeEvent} (hlegal : event.Legal w) : Listed archive (w.step archive event) := by
  cases event with
  | start =>
    rintro start ⟨⟩ hfull
    exact absurd hfull (Nat.not_le.mpr (Nat.lt_add_of_pos_right (by decide)))
  | take => exact h
  | beginDescriptor =>
    intro start hstart
    cases hstart
  | descriptorMatches crc compressed size => exact h
  | read requested amount => exact h.read requested amount
  | fillBuf amount => exact h
  | consume amount =>
    intro start hstart hfull
    rcases eq_none_or_eq_some w.stop with hstop | ⟨stop, hstop⟩
    · refine h start hstart ?_
      rw [Watch.stopped, hstop]
      exact hw.full_of_legal hlegal hstart hstop
    · refine h start hstart ?_
      unfold Watch.stopped at hfull ⊢
      rw [show (w.step archive (.consume amount)).stop = some stop from hstop] at hfull
      rw [hstop]
      exact hfull

/-- **Every run** of legal events. -/
theorem Watch.Reachable.watched (h : w.Reachable archive entries metadata prefixBytes)
    (hmetadata : metadata < 2 ^ 64 - 1) :
    Watched archive entries metadata prefixBytes w ∧ Listed archive w := by
  induction h with
  | initial capacity => exact ⟨watched_initial capacity, fun _ hstart => by cases hstart⟩
  | step _ hlegal ih => exact ⟨ih.1.step hmetadata hlegal, ih.2.step ih.1 hlegal⟩

theorem Watched.take_eq_ok_iff (h : Watched archive entries metadata prefixBytes w) {start : ℕ}
    (hstart : w.start = some start) {header : LocalHeaderMeta} :
    w.probe.take.2 = .ok header ↔ start + localHeaderLen ≤ w.stopped ∧
      (archive.drop start).take 4 = localHeaderSignature ∧
        header = ⟨u16At archive (start + 6), u16At archive (start + 8)⟩ := by
  have hbounds := h.start_le start hstart
  have hlength := h.length_header hstart
  have hlen : localHeaderLen = 30 := rfl
  unfold ProbeState.take
  dsimp only
  by_cases hfull : start + localHeaderLen ≤ w.stopped
  · have hheader : w.probe.header = window archive start (start + localHeaderLen) := by
      rw [h.header_eq start hstart, take_window hfull, window, drop_take]
      congr 1
      omega
    rw [if_neg (not_not.mpr (by omega)), hheader, take_window (by omega), u16At_window (by omega),
      u16At_window (by omega)]
    split_ifs with hsignature
    · exact iff_of_false (fun hc => by cases hc) fun hc => hsignature hc.2.1
    · rw [not_not] at hsignature
      rw [Except.ok.injEq, eq_comm]
      exact ⟨fun heq => ⟨hfull, hsignature, heq⟩, fun hc => hc.2.2⟩
  · rw [if_pos (by omega)]
    exact iff_of_false (fun hc => by cases hc) fun hc => hfull hc.1

end Steps

structure ProbeSpec (archive : Bytes) (entries metadata prefixBytes : ℕ) (w : Watch) : Prop where
  /-- The position counts what has been consumed, in whatever way. -/
  position : w.probe.position ≤ archive.length ∧
    w.source.rest = archive.drop w.probe.position
  /-- The bytes that were captured are the first after `begin`. -/
  captured : ∀ start, w.start = some start →
    w.probe.header = (window archive start w.stopped).take localHeaderLen
  /-- A read hands over the next bytes, does not cross the end of a header, and does not underflow. -/
  read : ∀ requested amount, ∃ count,
    (w.pollRead requested amount).1 = window archive w.probe.position (w.probe.position + count) ∧
      count = (w.pollRead requested amount).1.length ∧
      (∀ start, w.start = some start → w.stop = none →
        w.probe.position < start + localHeaderLen →
          w.probe.position + count ≤ start + localHeaderLen) ∧
      (w.probe.observeConsumed (w.pollRead requested amount).1).2 ≠ .underflow
  /-- `take` accepts a whole header with its signature. -/
  take : ∀ start, w.start = some start → ∀ header, w.probe.take.2 = .ok header ↔
    start + localHeaderLen ≤ w.stopped ∧
      (archive.drop start).take 4 = localHeaderSignature ∧
        header = ⟨u16At archive (start + 6), u16At archive (start + 8)⟩
  /-- The subtractions of the captured length do not underflow. -/
  length_le : w.probe.header.length ≤ w.probe.keptLen
  /-- A header with its signature that was read since `begin` is listed. -/
  listed : Listed archive w
  /-- What is listed was read, and has the signature. -/
  complete : ∀ header ∈ w.headers, header.1 + localHeaderLen ≤ w.probe.position ∧
    (archive.drop header.1).take 4 = localHeaderSignature
  /-- Nothing is listed twice. -/
  once : w.headers.Pairwise fun a b => a.1 + localHeaderLen ≤ b.1
  /-- The accepted headers are charged, and nothing else is. -/
  entries_eq : w.probe.entriesLeft + (w.headers.filter Prod.snd).length = entries
  metadata_eq : w.probe.metadataLeft + (acceptedCharges archive prefixBytes w.headers).sum = metadata
  limitExceeded_iff : w.probe.limitExceeded = true ↔ ∃ header ∈ w.headers, header.2 = false

/-- **The probe does not depend on how the archive is cut into pieces.**  After any run in which local
headers are read through `poll_read`: the position counts the consumed bytes, the captured header is
what stands in the archive behind the last `begin`, no read crosses its end, `take` accepts it exactly
when it is whole and has the signature, and every such header was listed once and either charged in
full or refused, so that the charges stay within both budgets. -/
theorem probeSpec_of_reachable {archive : Bytes} {entries metadata prefixBytes : ℕ} {w : Watch}
    (hmetadata : metadata < 2 ^ 64 - 1) (h : w.Reachable archive entries metadata prefixBytes) :
    ProbeSpec archive entries metadata prefixBytes w := by
  obtain ⟨hw, hlisted⟩ := h.watched hmetadata
  exact
    { position := ⟨hw.position_le, hw.rest_eq⟩
      captured := hw.header_eq
      read := fun requested amount => by
        obtain ⟨hbytes, -, hle, hcap⟩ := hw.pollRead requested amount
        refine ⟨_, ?_, rfl, ?_, observeConsumed_ne_underflow _ _⟩
        · rw [← window_append le_rfl hw.position_le, ← hbytes, window, drop_take, Nat.sub_self,
            take_zero, nil_append]
        · intro start hstart hstop hshort
          have hbounds := hw.start_le start hstart
          have hlength := hw.length_header hstart
          rw [Watch.stopped_of_none hstop] at hbounds hlength
          unfold ProbeState.readCap at hcap
          rw [if_pos ⟨(hw.armed_iff start hstart).mpr hstop, hw.local_header start hstart,
            by omega⟩] at hcap
          omega
      take := fun start hstart header => hw.take_eq_ok_iff hstart
      length_le := hw.length_le
      listed := hlisted
      complete := hw.complete
      once := hw.once
      entries_eq := hw.entries_eq
      metadata_eq := hw.metadata_eq
      limitExceeded_iff := hw.limitExceeded_iff }

/-- The local header of a file with a name of one byte, and the name. -/
def namedHeader : Bytes := localHeaderSignature ++ replicate 22 0 ++ [1, 0, 0, 0, 97]

/-- The header in two reads: the first finds seven bytes, the second stops at the end of the header. -/
def namedHeaderWatch : Watch :=
  ((((Watch.initial namedHeader 8192 1 10000 0).step namedHeader .start).step namedHeader
    (.read 100 7)).step namedHeader (.read 100 100)).step namedHeader .take

theorem probeSpec_of_reachable_namedHeader :
    namedHeaderWatch.headers = [(0, true)] ∧ namedHeaderWatch.probe.position = 30 ∧
      namedHeaderWatch.probe.metadataLeft = 10000 - (4096 + 8) ∧
      ProbeSpec namedHeader 1 10000 0 namedHeaderWatch :=
  ⟨by decide, by decide, by decide, probeSpec_of_reachable (by norm_num)
    (.step (.step (.step (.step (.initial 8192) trivial) trivial) trivial) trivial)⟩

end IpfS3.Zip
