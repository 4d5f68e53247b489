import Libdap.Dap4.Items

/-! # Reading back a sequence of items -/

namespace Libdap.Dap4
open Core Put DAP4StreamMarshaller DAP4StreamUnMarshaller
set_option autoImplicit false

theorem chunks_append (w k : Nat) {xs : Bytes} (ys : Bytes) (h : xs.length = k * w) (j : Nat) :
    chunks w (k + j) (xs ++ ys) = chunks w k xs ++ chunks w j ys := by
  induction k generalizing xs with
  | zero =>
    rw [Nat.zero_mul] at h
    rw [List.eq_nil_of_length_eq_zero h, Nat.zero_add, chunks, List.nil_append, List.nil_append]
  | succ k ih =>
    rw [Nat.succ_mul] at h
    rw [show k + 1 + j = (k + j) + 1 by omega, chunks, chunks, List.take_append_of_le_length (by omega),
      List.drop_append_of_le_length (by omega), ih (by rw [List.length_drop]; omega), List.cons_append]

theorem swap_replicate (order : ByteOrder) (w : Nat) (fill : UInt8) :
    swapObject order w (List.replicate w fill) = List.replicate w fill := by
  rw [swapObject_eq_reverse order List.length_replicate, List.reverse_replicate]

theorem getLast?_append_replicate (xs : Bytes) {k : Nat} (fill : UInt8) (hk : k ≠ 0) :
    (xs ++ List.replicate k fill).getLast? = some fill := by
  rw [List.getLast?_append, List.getLast?_replicate, if_neg hk]
  rfl

/-- When the length of the read wrapped around, the last element is what the block held before. -/
theorem last_of_getElements {u u' : DAP4StreamUnMarshaller} {out : Bytes} {size : Int} {num w : Nat}
    {fill : UInt8} (hw : w ≠ 0) (hShort : size + w ≤ (num * w : Nat))
    (h : u.getElements (List.replicate (num * w) fill) size num w = .ok (out, u')) :
    out.getLast? = some fill := by
  rw [getElements] at h
  obtain ⟨⟨bs, u₁⟩, hRead, h⟩ := bind_eq_ok h
  have hLength := length_read hRead
  dsimp only at h
  rw [List.drop_replicate] at h
  split at h
  · obtain ⟨vals, hSwap, h⟩ := bind_eq_ok h
    cases h
    rw [mTwidleVectorElements] at hSwap
    split at hSwap
    · split at hSwap
      · cases hSwap
      · obtain ⟨k, rfl⟩ : ∃ k, num = k + 1 := by
          cases num with
          | zero => omega
          | succ k => exact ⟨k, rfl⟩
        rw [Nat.succ_mul] at hShort hSwap
        -- The last element lies behind all that was read.
        have hSplit : bs ++ List.replicate (k * w + w - bs.length) fill =
            (bs ++ List.replicate (k * w - bs.length) fill) ++ List.replicate w fill := by
          rw [List.append_assoc, List.replicate_append_replicate]
          congr 2
          omega
        rw [hSplit, chunks_append w k _ (by
            rw [List.length_append, List.length_replicate]
            omega) 1, List.flatMap_append, List.drop_eq_nil_of_le (by
            simp only [List.length_append, List.length_replicate]
            omega), List.append_nil] at hSwap
        cases hSwap
        rw [chunks, chunks, List.take_of_length_le (Nat.le_of_eq List.length_replicate),
          List.flatMap_cons, List.flatMap_nil, List.append_nil, swap_replicate]
        exact getLast?_append_replicate _ fill hw
    · cases hSwap
  · cases h
    exact getLast?_append_replicate _ fill (by omega)

theorem getVector_of_memory (u : DAP4StreamUnMarshaller) {a : ByteOrder} (type : ScalarType)
    (vals : List (BitVec (8 * type.width))) (fill : UInt8) (rest : Bytes)
    (hTold : u.dTwiddleBytes = (u.order != a)) (hSize : vals.length * type.width < 2 ^ 32)
    (hWidth : u.order ≠ a → type.width ≠ 1) :
    (u.before ((memory a type.width vals).take (uint32 (vals.length * type.width)) ++ rest)).getVector
        (List.replicate (vals.length * type.width) fill) vals.length type =
      .ok (memory u.order type.width vals, u.before rest) := by
  have hCases := width_cases type
  have hWord : uint32 ((vals.length : Int) * (type.width : Int)) = vals.length * type.width := by
    rw [← Int.natCast_mul, uint32_natCast]
    omega
  rw [getVector, hWord, List.take_of_length_le (by rw [length_memory]),
    if_neg (by rw [List.length_replicate]; omega)]
  refine getElements_of_memory u vals _ rest hTold (fun hOrder => ?_) ?_ rfl
  · have hWide := hWidth hOrder
    omega
  · rw [List.length_replicate]

/-- A vector that comes back whatever its block held before. -/
theorem fits_of_getVector {u : DAP4StreamUnMarshaller} {a : ByteOrder} {type : ScalarType}
    {vals : List (BitVec (8 * type.width))} (hTold : u.dTwiddleBytes = (u.order != a))
    (h : ∀ fill, ∃ u', u.getVector (List.replicate (vals.length * type.width) fill) vals.length type =
      .ok (memory u.order type.width vals, u')) :
    vals.length * type.width < 2 ^ 32 ∧ (u.order ≠ a → type.width ≠ 1) := by
  have hElements : ∀ fill, ∃ u', u.getElements (List.replicate (vals.length * type.width) fill)
      (uint32 ((vals.length : Int) * (type.width : Int))) vals.length type.width =
        .ok (memory u.order type.width vals, u') := by
    intro fill
    obtain ⟨u', hGet⟩ := h fill
    rw [getVector] at hGet
    split at hGet
    · cases hGet
    · exact ⟨u', hGet⟩
  have hCases := width_cases type
  constructor
  · by_contra hLong
    have hShort : ((uint32 ((vals.length : Int) * (type.width : Int)) : Nat) : Int) + type.width ≤
        (vals.length * type.width : Nat) := by
      rw [← Int.natCast_mul, uint32_natCast]
      omega
    obtain ⟨_, hZero⟩ := hElements 0
    obtain ⟨_, hOne⟩ := hElements 1
    have hLast := last_of_getElements (by omega) hShort hZero
    rw [last_of_getElements (by omega) hShort hOne] at hLast
    exact absurd hLast (by decide)
  · intro hOrder hByte
    obtain ⟨_, hGet⟩ := hElements 0
    have hFlag := getElements_of_bytes hByte hGet
    rw [hTold] at hFlag
    exact hOrder (by simpa using hFlag)

namespace Item

theorem put_cases (host : Host) (i : Item) (swapped : Prop) :
    Sends host i.put (i.form host.order) ∨ ¬ i.Kept swapped ∧ Fails host i.put := by
  cases i with
  | scalar type v => exact .inl (sends_putScalar host type v)
  | byteVector val => exact .inl ((Sends.checksum val).andThen (Sends.write val))
  | vector type vals =>
    refine .inl fun m hReady hHost => ?_
    subst hHost
    exact sends_putVector m.host _ vals.length type m hReady rfl
  | varyingByteVector val =>
    refine (sends_strForm val).imp_right ?_
    rintro ⟨hLarge, hFails⟩
    refine ⟨fun hKept => ?_, hFails⟩
    change val.length < 2 ^ 32 at hKept
    omega
  | varyingVector type vals =>
    rcases @sends_varyingForm host (memory host.order type.width vals) vals.length type with
      hSends | ⟨hLarge, hFails⟩
    · refine .inl fun m hReady hHost => ?_
      subst hHost
      exact hSends m hReady rfl
    · refine .inr ⟨?_, fun m hReady hHost => ?_⟩
      · rintro ⟨hSize, _⟩
        have hCases := width_cases type
        have hNum : vals.length * 1 ≤ vals.length * type.width := Nat.mul_le_mul_left _ (by omega)
        omega
      · subst hHost
        exact hFails m hReady rfl

theorem get_of_kept (u : DAP4StreamUnMarshaller) {a : ByteOrder} (i : Item) (fill : UInt8)
    (rest : Bytes) (hTold : u.dTwiddleBytes = (u.order != a)) (h : i.Kept (u.order ≠ a)) :
    get fill (u.before (i.form a ++ rest)) i = .ok (i.inMemory u.order, u.before rest) := by
  cases i with
  | scalar type v =>
    obtain ⟨v', hGet, hIff⟩ := getScalar_of_store u type v rest hTold
    rw [get, form, hGet, ok_bind, hIff.mpr h]
    rfl
  | byteVector val =>
    rw [get, form, getByteVector, read_append u val rest rfl, ok_bind]
    rfl
  | vector type vals =>
    rw [get, form, getVector_of_memory u type vals fill rest hTold h.1 h.2, ok_bind]
    rfl
  | varyingByteVector val =>
    rw [get, form, getVaryingByteVector, (getNewOpaque_iff u val rest).mpr h, ok_bind]
    rfl
  | varyingVector type vals =>
    rw [get, form, (getVaryingVector_iff u type vals rest hTold).mpr h, ok_bind]
    rfl

theorem kept_of_get {u : DAP4StreamUnMarshaller} {a : ByteOrder} {i : Item} {rest : Bytes}
    (hTold : u.dTwiddleBytes = (u.order != a))
    (h : ∀ fill, ∃ u', get fill (u.before (i.form a ++ rest)) i = .ok (i.inMemory u.order, u')) :
    i.Kept (u.order ≠ a) := by
  cases i with
  | scalar type v =>
    obtain ⟨v', hGet, hIff⟩ := getScalar_of_store u type v rest hTold
    obtain ⟨u', hItem⟩ := h 0
    rw [get, form, hGet, ok_bind] at hItem
    cases hItem
    exact hIff.mp rfl
  | byteVector val => trivial
  | vector type vals =>
    refine fits_of_getVector (u := u.before (form a (vector type vals) ++ rest)) hTold fun fill => ?_
    obtain ⟨u', hItem⟩ := h fill
    obtain ⟨⟨bs, u₁⟩, hGet, hItem⟩ := bind_eq_ok hItem
    cases hItem
    exact ⟨u', hGet⟩
  | varyingByteVector val =>
    obtain ⟨u', hItem⟩ := h 0
    obtain ⟨⟨bs, u₁⟩, hGet, hItem⟩ := bind_eq_ok hItem
    injection hItem with hItem
    injection hItem with hBlock _
    injection hBlock with _ hVal
    rw [← hVal]
    exact lt_of_getNewOpaque hGet
  | varyingVector type vals =>
    obtain ⟨u', hItem⟩ := h 0
    obtain ⟨⟨bs, num, u₁⟩, hGet, hItem⟩ := bind_eq_ok hItem
    cases hItem
    exact fits_of_getVaryingVector (u := u.before (form a (varyingVector type vals) ++ rest)) hTold hGet

end Item

def putItems : List Item → Put
  | [] => done
  | i :: items => andThen i.put (putItems items)

def getItems (fill : UInt8) (u : DAP4StreamUnMarshaller) :
    List Item → Except Fault (List Received × DAP4StreamUnMarshaller)
  | [] => .ok ([], u)
  | i :: items => do
    let (r, u) ← i.get fill u
    let (rs, u) ← getItems fill u items
    .ok (r :: rs, u)

/-- The items come back in their order, and the stream is at the first byte of what follows,
whatever the client's blocks held before. -/
def ItemsReadBack (m : DAP4StreamMarshaller) (order : ByteOrder) (items : List Item) (rest : Bytes) :
    Prop :=
  Delivered (putItems items) m rest fun stream =>
    ∀ fill, getItems fill (DAP4StreamUnMarshaller.create order m.host.order stream) items =
      .ok (items.map (Item.inMemory order), DAP4StreamUnMarshaller.create order m.host.order rest)

namespace Put

theorem Sends.done (host : Host) : Sends host Put.done [] :=
  fun m hReady hHost => ⟨m, rfl, (List.append_nil _).symm, hReady, hHost⟩

theorem Fails.andThen_right {host : Host} {p q : Put} {bs : Bytes} (hp : Sends host p bs)
    (hq : Fails host q) : Fails host (Put.andThen p q) := by
  intro m hReady hHost
  obtain ⟨m₁, hFirst, _, hReady₁, hHost₁⟩ := hp m hReady hHost
  obtain ⟨m', f, hSecond⟩ := hq m₁ hReady₁ hHost₁
  refine ⟨m', f, ?_⟩
  rw [Put.andThen, hFirst]
  exact hSecond

end Put

theorem putItems_cases (host : Host) (items : List Item) (swapped : Prop) :
    Sends host (putItems items) (items.flatMap (Item.form host.order)) ∨
      ¬ (∀ i ∈ items, i.Kept swapped) ∧ Fails host (putItems items) := by
  induction items with
  | nil => exact .inl (Sends.done host)
  | cons i items ih =>
    rcases i.put_cases host swapped with hItem | ⟨hLost, hItem⟩
    · rcases ih with hItems | ⟨hLost, hItems⟩
      · exact .inl (hItem.andThen hItems)
      · exact .inr ⟨fun hKept => hLost fun j hj => hKept j (List.mem_cons_of_mem i hj),
          Fails.andThen_right hItem hItems⟩
    · exact .inr ⟨fun hKept => hLost (hKept i List.mem_cons_self), hItem.andThen⟩

theorem getItems_of_kept (u : DAP4StreamUnMarshaller) {a : ByteOrder} {items : List Item} (fill : UInt8)
    (rest : Bytes) (hTold : u.dTwiddleBytes = (u.order != a)) (h : ∀ i ∈ items, i.Kept (u.order ≠ a)) :
    getItems fill (u.before (items.flatMap (Item.form a) ++ rest)) items =
      .ok (items.map (Item.inMemory u.order), u.before rest) := by
  induction items with
  | nil => rfl
  | cons i items ih =>
    rw [getItems, List.flatMap_cons, List.append_assoc,
      i.get_of_kept u fill _ hTold (h i List.mem_cons_self), ok_bind]
    dsimp only
    rw [ih fun j hj => h j (List.mem_cons_of_mem i hj), ok_bind]
    rfl

theorem kept_of_getItems (u : DAP4StreamUnMarshaller) {a : ByteOrder} {items : List Item}
    {rest : Bytes} (hTold : u.dTwiddleBytes = (u.order != a))
    (h : ∀ fill, ∃ u', getItems fill (u.before (items.flatMap (Item.form a) ++ rest)) items =
      .ok (items.map (Item.inMemory u.order), u')) :
    ∀ i ∈ items, i.Kept (u.order ≠ a) := by
  induction items with
  | nil => exact fun i hi => nomatch hi
  | cons i items ih =>
    have hSteps : ∀ fill, ∃ u₁ u', i.get fill (u.before (i.form a ++ (items.flatMap (Item.form a) ++ rest))) =
        .ok (i.inMemory u.order, u₁) ∧
        getItems fill u₁ items = .ok (items.map (Item.inMemory u.order), u') := by
      intro fill
      obtain ⟨u', hGet⟩ := h fill
      rw [getItems, List.flatMap_cons, List.append_assoc] at hGet
      obtain ⟨⟨r, u₁⟩, hItem, hGet⟩ := bind_eq_ok hGet
      obtain ⟨⟨rs, u₂⟩, hItems, hGet⟩ := bind_eq_ok hGet
      cases hGet
      exact ⟨u₁, _, hItem, hItems⟩
    have hKept : i.Kept (u.order ≠ a) := Item.kept_of_get hTold fun fill => by
      obtain ⟨u₁, _, hItem, _⟩ := hSteps fill
      exact ⟨u₁, hItem⟩
    have hItems := ih fun fill => by
      obtain ⟨u₁, u', hItem, hItems⟩ := hSteps fill
      rw [i.get_of_kept u fill _ hTold hKept] at hItem
      cases hItem
      exact ⟨u', hItems⟩
    intro j hj
    rcases List.mem_cons.mp hj with rfl | hj
    · exact hKept
    · exact hItems j hj

theorem itemsReadBack_iff {m : DAP4StreamMarshaller} (hReady : m.Ready) (order : ByteOrder)
    (items : List Item) (rest : Bytes) :
    ItemsReadBack m order items rest ↔ ∀ i ∈ items, i.Kept (order ≠ m.host.order) := by
  rcases putItems_cases m.host items (order ≠ m.host.order) with hSends | ⟨hLost, hFails⟩
  · rw [ItemsReadBack, hSends.delivered_iff hReady]
    constructor
    · intro h
      exact kept_of_getItems (create order m.host.order []) rfl fun fill => ⟨_, h fill⟩
    · intro h fill
      exact getItems_of_kept (create order m.host.order []) fill rest rfl h
  · obtain ⟨m', f, hPut⟩ := hFails m hReady rfl
    constructor
    · intro hDelivered
      exact absurd hDelivered (not_delivered hPut rest _)
    · intro hKept
      exact absurd hKept hLost

/-- Items are read back, in their order and on a host of either byte order, exactly when each of
them is kept: between hosts of one order by the lengths that can be counted, and otherwise also by
its not being a `Float64` other than zero or a vector of single bytes with a width. -/
theorem items_read_back (m : DAP4StreamMarshaller) (hReady : m.Ready) (order : ByteOrder)
    (items : List Item) (rest : Bytes) :
    ItemsReadBack m order items rest ↔ ∀ i ∈ items, i.Kept (order ≠ m.host.order) :=
  itemsReadBack_iff hReady order items rest

theorem int16_read_back :
    ItemsReadBack (started plainHost [] true) .big [.scalar .int16 7#16, .byteVector [1, 2]] [] := by
  refine (items_read_back _ (started_ready []) .big _ []).mpr ?_
  intro i hi
  rcases List.mem_cons.mp hi with rfl | hi
  · exact fun _ hReal => nomatch hReal
  · rw [List.mem_singleton.mp hi]
    trivial

/-- The `Float64` with the bits of 1.0 does not survive a swap. -/
theorem float64_not_read_back :
    ¬ ItemsReadBack (started plainHost [] true) .big [.scalar .float64 0x3FF0000000000000#64] [] := by
  rw [itemsReadBack_iff (started_ready [])]
  intro h
  exact absurd (h _ List.mem_cons_self (by decide) rfl) (by decide)

end Libdap.Dap4
