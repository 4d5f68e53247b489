import Libdap.Xdr.OpaqueRoundTrip

/-! # Markers among other items of a stream

A Sequence is framed by one byte opaque items between the items of its rows. The reader is given
the kinds and lengths of the items it is to read, as the client has them from the declarations.
-/

namespace Libdap.Xdr
open Core
set_option autoImplicit false

inductive Marker
  | startOfInstance
  | endOfSequence
  deriving DecidableEq, Repr

def Marker.byte : Marker → UInt8
  | .startOfInstance => Xdr.startOfInstance
  | .endOfSequence => Xdr.endOfSequence

inductive StreamItem
  | marker (k : Marker)
  | int (v : Int)
  | block (bs : Bytes)
  deriving DecidableEq, Repr

def putItem (m : XDRStreamMarshaller) : StreamItem → Except Fault XDRStreamMarshaller
  | .marker .startOfInstance => writeStartOfInstance m
  | .marker .endOfSequence => writeEndOfSequence m
  | .int v => m.putInt v
  | .block bs => m.putOpaque bs

/-- Read an item of the kind and length of the given one. -/
def getItem (u : XDRStreamUnMarshaller) : StreamItem → Except Fault (StreamItem × XDRStreamUnMarshaller)
  | .marker _ => do
    let (b, u) ← readMarker u (Buffer.zeros 1)
    if b.bytes = [startOfInstance] then .ok (.marker .startOfInstance, u)
    else if b.bytes = [endOfSequence] then .ok (.marker .endOfSequence, u)
    else .error (.Error "I could not read the expected Sequence data stream marker!")
  | .int _ => do
    let (v, u) ← u.getInt
    .ok (.int v, u)
  | .block bs => do
    let (b, u) ← u.getOpaque (Buffer.zeros bs.length) bs.length
    .ok (.block b.bytes, u)

def putItems (m : XDRStreamMarshaller) : List StreamItem → Except Fault XDRStreamMarshaller
  | [] => .ok m
  | i :: is => do
    let m ← putItem m i
    putItems m is

def getItems (u : XDRStreamUnMarshaller) :
    List StreamItem → Except Fault (List StreamItem × XDRStreamUnMarshaller)
  | [] => .ok ([], u)
  | i :: is => do
    let (j, u) ← getItem u i
    let (js, u) ← getItems u is
    .ok (j :: js, u)

def ItemsReadBack (m : XDRStreamMarshaller) (u : XDRStreamUnMarshaller) (items : List StreamItem)
    (rest : Bytes) : Prop :=
  ∃ m' out u', putItems m items = .ok m' ∧ m'.dOut = m.dOut ++ out ∧
    getItems (u.before (out ++ rest)) items = .ok (items, u') ∧
    u'.dIn = IStream.ofBytes rest

/-- The items that are read in step: no marker is. -/
def StreamItem.InStep : StreamItem → Prop
  | .marker _ => False
  | .int v => int32 v = v
  | .block bs => OpaqueAligned bs

def StreamItem.form : StreamItem → Bytes
  | .marker k => opaqueForm [k.byte]
  | .int v => toBE 4 (uint32 v)
  | .block bs => opaqueForm bs

theorem putOpaque_appends {m m' : XDRStreamMarshaller} {bs : Bytes} (h : m.putOpaque bs = .ok m') :
    bs.length ≠ 0 ∧ bs.length ≤ Marshaller.XDR_DAP_BUFF_SIZE ∧ m'.dOut = m.dOut ++ opaqueForm bs := by
  have hPos : bs.length ≠ 0 := by
    intro hZero
    obtain ⟨msg, hError⟩ := m.putOpaque_nil
    rw [List.eq_nil_of_length_eq_zero hZero, hError] at h
    cases h
  have hMax : bs.length ≤ Marshaller.XDR_DAP_BUFF_SIZE := by
    by_contra hLong
    obtain ⟨msg, hError⟩ := m.putOpaque_too_long (Nat.lt_of_not_le hLong)
    rw [hError] at h
    cases h
  obtain ⟨x, hPut⟩ := m.putOpaque_ok hPos hMax
  rw [hPut] at h
  cases h
  exact ⟨hPos, hMax, rfl⟩

theorem putItem_appends {m m' : XDRStreamMarshaller} {i : StreamItem} (h : putItem m i = .ok m') :
    m'.dOut = m.dOut ++ i.form := by
  cases i with
  | marker k =>
    have h : m.putOpaque [k.byte] = .ok m' := by
      cases k <;> exact h
    exact (putOpaque_appends h).2.2
  | int v =>
    obtain ⟨x, hPut⟩ := m.putInt_ok v
    rw [putItem, hPut] at h
    cases h
    rfl
  | block bs => exact (putOpaque_appends h).2.2

theorem putItems_appends {m m' : XDRStreamMarshaller} {items : List StreamItem}
    (h : putItems m items = .ok m') : m'.dOut = m.dOut ++ items.flatMap StreamItem.form := by
  induction items generalizing m with
  | nil =>
    cases h
    exact (List.append_nil _).symm
  | cons i is ih =>
    rw [putItems] at h
    cases hPut : putItem m i with
    | error e =>
      rw [hPut] at h
      cases h
    | ok m₁ =>
      rw [hPut] at h
      rw [ih h, putItem_appends hPut, List.flatMap_cons, List.append_assoc]

theorem int32_of_uint32 (v : Int) : int32 ((uint32 v % 256 ^ 4 : Nat) : Int) = int32 v := by
  simp only [int32, uint32]
  omega

theorem getItem_of_inStep (u : XDRStreamUnMarshaller) {i : StreamItem} {rest : Bytes}
    (hStep : i.InStep) (h : u.dIn = IStream.ofBytes (i.form ++ rest)) :
    ∃ u', getItem u i = .ok (i, u') ∧ u'.dIn = IStream.ofBytes rest := by
  cases i with
  | marker k => exact hStep.elim
  | int v =>
    change int32 v = v at hStep
    obtain ⟨w, hRead, hIn, _⟩ := u.getInt_of_stream h
    rw [int32_of_uint32, hStep] at hRead
    refine ⟨w, ?_, hIn⟩
    rw [getItem, hRead]
    rfl
  | block bs =>
    obtain ⟨_, hMax, hWhole⟩ := hStep
    change u.dIn = IStream.ofBytes (opaqueForm bs ++ rest) at h
    rw [opaqueForm_of_whole hWhole] at h
    obtain ⟨b, u', hRead, hBytes, hIn⟩ :=
      u.getOpaque_of_whole (Buffer.zeros bs.length) hMax hWhole h
    refine ⟨u', ?_, hIn⟩
    rw [getItem, hRead]
    change Except.ok (StreamItem.block b.bytes, u') = _
    rw [hBytes]

/-- An item that was sent and comes back as it was is one that is read in step. -/
theorem inStep_of_getItem {u u' : XDRStreamUnMarshaller} {m m' : XDRStreamMarshaller}
    {i : StreamItem} {rest : Bytes} (hPut : putItem m i = .ok m')
    (h : u.dIn = IStream.ofBytes (i.form ++ rest)) (hGet : getItem u i = .ok (i, u')) :
    i.InStep := by
  cases i with
  | marker k =>
    have hRead : readMarker u (Buffer.zeros 1) = .error .outOfBounds :=
      u.getOpaque_of_partial _ (by decide) (by decide)
    rw [getItem, hRead] at hGet
    cases hGet
  | int v =>
    obtain ⟨w, hRead, _⟩ := u.getInt_of_stream h
    rw [int32_of_uint32] at hRead
    rw [getItem, hRead] at hGet
    injection hGet with hPair
    injection hPair with hInt
    injection hInt
  | block bs =>
    obtain ⟨hPos, hMax, _⟩ := putOpaque_appends hPut
    refine ⟨by omega, hMax, ?_⟩
    by_contra hPart
    rw [getItem, u.getOpaque_of_partial _ hMax hPart] at hGet
    cases hGet

theorem putItem_of_inStep (m : XDRStreamMarshaller) {i : StreamItem} (h : i.InStep) :
    ∃ m', putItem m i = .ok m' := by
  cases i with
  | marker k => exact h.elim
  | int v =>
    obtain ⟨x, hPut⟩ := m.putInt_ok v
    exact ⟨_, hPut⟩
  | block bs =>
    obtain ⟨hPos, hMax, _⟩ := h
    obtain ⟨x, hPut⟩ := m.putOpaque_ok (by omega) hMax
    exact ⟨_, hPut⟩

theorem putItems_of_inStep (m : XDRStreamMarshaller) {items : List StreamItem}
    (h : ∀ i ∈ items, i.InStep) : ∃ m', putItems m items = .ok m' := by
  induction items generalizing m with
  | nil => exact ⟨m, rfl⟩
  | cons i is ih =>
    obtain ⟨m₁, hPut⟩ := putItem_of_inStep m (h i List.mem_cons_self)
    obtain ⟨m', hRest⟩ := ih m₁ (fun j hj => h j (List.mem_cons_of_mem _ hj))
    refine ⟨m', ?_⟩
    rw [putItems, hPut]
    exact hRest

theorem getItems_of_inStep (u : XDRStreamUnMarshaller) {m m' : XDRStreamMarshaller}
    {items : List StreamItem} {rest : Bytes} (h : ∀ i ∈ items, i.InStep)
    (hPut : putItems m items = .ok m')
    (hIn : u.dIn = IStream.ofBytes (items.flatMap StreamItem.form ++ rest)) :
    ∃ u', getItems u items = .ok (items, u') ∧ u'.dIn = IStream.ofBytes rest := by
  induction items generalizing m u with
  | nil => exact ⟨u, rfl, hIn⟩
  | cons i is ih =>
    obtain ⟨m₁, hFirst⟩ := putItem_of_inStep m (h i List.mem_cons_self)
    rw [putItems, hFirst] at hPut
    rw [List.flatMap_cons, List.append_assoc] at hIn
    obtain ⟨u₁, hGet, hIn₁⟩ := getItem_of_inStep u (h i List.mem_cons_self) hIn
    obtain ⟨u', hRest, hIn'⟩ := ih u₁ (fun j hj => h j (List.mem_cons_of_mem _ hj)) hPut hIn₁
    refine ⟨u', ?_, hIn'⟩
    rw [getItems, hGet]
    change (do
      let (js, u) ← getItems u₁ is
      Except.ok (i :: js, u)) = _
    rw [hRest]
    rfl

theorem inStep_of_getItems (u : XDRStreamUnMarshaller) {u' : XDRStreamUnMarshaller}
    {m m' : XDRStreamMarshaller} {items : List StreamItem} {rest : Bytes}
    (hPut : putItems m items = .ok m')
    (hIn : u.dIn = IStream.ofBytes (items.flatMap StreamItem.form ++ rest))
    (hGet : getItems u items = .ok (items, u')) : ∀ i ∈ items, i.InStep := by
  induction items generalizing m u with
  | nil => simp
  | cons i is ih =>
    rw [putItems] at hPut
    rw [getItems] at hGet
    rw [List.flatMap_cons, List.append_assoc] at hIn
    obtain ⟨m₁, hFirst, hPut⟩ := bind_eq_ok hPut
    obtain ⟨⟨j, u₁⟩, hItem, hGet⟩ := bind_eq_ok hGet
    obtain ⟨⟨js, u₂⟩, hRest, hGet⟩ := bind_eq_ok hGet
    cases hGet
    have hStep := inStep_of_getItem hFirst hIn hItem
    obtain ⟨v, hAgain, hIn₁⟩ := getItem_of_inStep u hStep hIn
    rw [hItem] at hAgain
    cases hAgain
    intro k hk
    rcases List.mem_cons.mp hk with rfl | hk
    · exact hStep
    · exact ih u₁ hPut hIn₁ hRest k hk

theorem itemsReadBack_iff (m : XDRStreamMarshaller) (u : XDRStreamUnMarshaller)
    (items : List StreamItem) (rest : Bytes) :
    ItemsReadBack m u items rest ↔ ∀ i ∈ items, i.InStep := by
  constructor
  · rintro ⟨m', out, u', hPut, hOut, hGet, _⟩
    have hForm := putItems_appends hPut
    rw [hOut] at hForm
    exact inStep_of_getItems _ hPut (by rw [List.append_cancel_left hForm, XDRStreamUnMarshaller.before_dIn]) hGet
  · intro h
    obtain ⟨m', hPut⟩ := putItems_of_inStep m h
    obtain ⟨u', hGet, hIn⟩ := getItems_of_inStep
      (u.before (items.flatMap StreamItem.form ++ rest)) h hPut rfl
    exact ⟨m', _, u', hPut, putItems_appends hPut, hGet, hIn⟩

/-- `get_opaque` after `put_opaque` delivers the data, all of it, in the caller's block and at the
right place of the stream exactly for the lengths that XDR does not pad; a stream that holds a
marker is never read in step. -/
theorem opaque_read_back (m : XDRStreamMarshaller) (u : XDRStreamUnMarshaller) (rest : Bytes) :
    (∀ (val : Bytes) (block : Buffer val.length),
      OpaqueReadsBack m u val block rest ↔
        0 < val.length ∧ val.length ≤ Marshaller.XDR_DAP_BUFF_SIZE ∧ val.length % 4 = 0) ∧
    ∀ items : List StreamItem, ItemsReadBack m u items rest ↔ ∀ i ∈ items, i.InStep :=
  ⟨fun val block => opaqueReadsBack_iff m u val block rest,
    fun items => itemsReadBack_iff m u items rest⟩

/-- A single start of instance marker is not read back. -/
theorem marker_not_read_back :
    ¬ OpaqueReadsBack (XDRStreamMarshaller.create (Buffer.zeros _))
      ⟨Handle.create (Buffer.zeros _), IStream.ofBytes []⟩ [startOfInstance] (Buffer.zeros 1) [] := by
  rw [opaqueReadsBack_iff]
  rintro ⟨_, _, hWhole⟩
  cases hWhole

end Libdap.Xdr
