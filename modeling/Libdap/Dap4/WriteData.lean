import Libdap.Dap4.DAP4StreamMarshaller

/-! # Writing the checksum without the data

A writer that was made with `write_data` false is to give the digest the same bytes as one that
writes, and to send nothing. What a call gives to the digest does not depend on the flag; what it
sends is nothing but for the one function that does not look at the flag.
-/

namespace Libdap.Dap4
open Core Put DAP4StreamMarshaller
set_option autoImplicit false

inductive Call
  | putByte (val : BitVec 8)
  | putInt8 (val : BitVec 8)
  | putInt16 (val : BitVec 16)
  | putInt32 (val : BitVec 32)
  | putInt64 (val : BitVec 64)
  | putFloat32 (val : BitVec 32)
  | putFloat64 (val : BitVec 64)
  | putUint16 (val : BitVec 16)
  | putUint32 (val : BitVec 32)
  | putUint64 (val : BitVec 64)
  | putStr (val : Bytes)
  | putUrl (val : Bytes)
  | putOpaque (val : Bytes)
  | putInt (val : BitVec 32)
  | putLengthPrefix (val : UInt64)
  | putByteVector (val : Bytes)
  | putVector (val : Bytes) (num : UInt32) (type : ScalarType)
  | putVaryingByteVector (val : Bytes)
  | putVaryingVector (val : Bytes) (num : UInt32) (type : ScalarType)
  | putDap2Vector

namespace Call

def perform : Call → Put
  | putByte val => DAP4StreamMarshaller.putByte val
  | putInt8 val => DAP4StreamMarshaller.putInt8 val
  | putInt16 val => DAP4StreamMarshaller.putInt16 val
  | putInt32 val => DAP4StreamMarshaller.putInt32 val
  | putInt64 val => DAP4StreamMarshaller.putInt64 val
  | putFloat32 val => DAP4StreamMarshaller.putFloat32 val
  | putFloat64 val => DAP4StreamMarshaller.putFloat64 val
  | putUint16 val => DAP4StreamMarshaller.putUint16 val
  | putUint32 val => DAP4StreamMarshaller.putUint32 val
  | putUint64 val => DAP4StreamMarshaller.putUint64 val
  | putStr val => DAP4StreamMarshaller.putStr val
  | putUrl val => DAP4StreamMarshaller.putUrl val
  | putOpaque val => DAP4StreamMarshaller.putOpaque val
  | putInt val => DAP4StreamMarshaller.putInt val
  | putLengthPrefix val => DAP4StreamMarshaller.putLengthPrefix val
  | putByteVector val => DAP4StreamMarshaller.putByteVector val
  | putVector val num type => DAP4StreamMarshaller.putVector val num.toNat type
  | putVaryingByteVector val => DAP4StreamMarshaller.putVaryingByteVector val
  | putVaryingVector val num type => DAP4StreamMarshaller.putVaryingVector val num.toNat type
  | putDap2Vector => DAP4StreamMarshaller.putDap2Vector

/-- What a call gives to the digest. -/
def fed (order : ByteOrder) : Call → Bytes
  | putByte val => order.store 1 val.toNat
  | putInt8 val => order.store 1 val.toNat
  | putInt16 val => order.store 2 val.toNat
  | putInt32 val => order.store 4 val.toNat
  | putInt64 val => order.store 8 val.toNat
  | putFloat32 val => order.store 4 val.toNat
  | putFloat64 val => order.store 8 val.toNat
  | putUint16 val => order.store 2 val.toNat
  | putUint32 val => order.store 4 val.toNat
  | putUint64 val => order.store 8 val.toNat
  | putStr val => val
  | putUrl val => val
  | putOpaque val => val
  | putByteVector val => val
  | putVector val num type => val.take (uint32 (num.toNat * type.width))
  | putVaryingByteVector val => val
  | putVaryingVector val num type => val.take (uint32 (num.toNat * type.width))
  | _ => []

/-- What a call sends although no data are to be written. -/
def leaked : Call → Bytes
  | putByteVector val => val
  | _ => []

end Call

/-- The calls in their order, by a caller that goes on after an exception. -/
def run (calls : List Call) (m : DAP4StreamMarshaller) : DAP4StreamMarshaller :=
  calls.foldl (fun m c => (c.perform m).1) m

/-- The digest library takes all data. -/
def Host.Digests (host : Host) : Prop :=
  host.EVP_DigestInit_ex = true ∧ ∀ fed data, host.EVP_DigestUpdate fed data = true

namespace Put

/-- A call that at most appends to the stream. -/
def Silent (p : Put) : Prop := ∀ m, ∃ out, (p m).1 = { m with dOut := m.dOut ++ out }

/-- The effect of a call: what it gives to the digest, and what it sends when it should not. -/
def Effect (p : Put) (m : DAP4StreamMarshaller) (fed leaked : Bytes) : Prop :=
  ∃ out, (p m).1 = { m with dOut := m.dOut ++ out, digest := m.digest ++ fed } ∧
    (m.dWriteData = false → out = leaked)

theorem silent_throw (f : Fault) : Silent (throw f) := fun m => ⟨[], by rw [List.append_nil]; rfl⟩

theorem silent_write (bs : Bytes) : Silent (write bs) := fun _ => ⟨bs, rfl⟩

theorem silent_ifWriting {p : Put} (h : Silent p) : Silent (ifWriting p) := by
  intro m
  rw [ifWriting]
  split
  · exact h m
  · exact ⟨[], by rw [List.append_nil]; rfl⟩

theorem silent_andThen {p q : Put} (hp : Silent p) (hq : Silent q) : Silent (andThen p q) := by
  intro m
  obtain ⟨out, hOut⟩ := hp m
  rw [andThen]
  split
  · rename_i m' hFirst
    rw [hFirst] at hOut
    dsimp only at hOut
    obtain ⟨out', hOut'⟩ := hq m'
    exact ⟨out ++ out', by rw [hOut', hOut, List.append_assoc]⟩
  · rename_i m' f hFirst
    rw [hFirst] at hOut
    exact ⟨out, hOut⟩

theorem effect_throw (f : Fault) (m : DAP4StreamMarshaller) : Effect (throw f) m [] [] :=
  ⟨[], by rw [List.append_nil, List.append_nil]; rfl, fun _ => rfl⟩

theorem effect_write (bs : Bytes) (m : DAP4StreamMarshaller) : Effect (write bs) m [] bs :=
  ⟨bs, by rw [List.append_nil]; rfl, fun _ => rfl⟩

/-- What stands behind the flag is not done when the flag is down. -/
theorem effect_ifWriting {p : Put} (h : Silent p) (m : DAP4StreamMarshaller) :
    Effect (ifWriting p) m [] [] := by
  rw [Effect, List.append_nil, ifWriting]
  split
  · rename_i hWriting
    obtain ⟨out, hOut⟩ := h m
    exact ⟨out, hOut, fun hOff => nomatch hWriting.symm.trans hOff⟩
  · exact ⟨[], by rw [List.append_nil]; rfl, fun _ => rfl⟩

theorem effect_checksum {q : Put} {m : DAP4StreamMarshaller} {data leaked : Bytes}
    (hHost : m.host.Digests) (hValid : m.dChecksumCtxValid = true)
    (h : Effect q { m with digest := m.digest ++ data } [] leaked) :
    Effect (andThen (checksumUpdate data) q) m data leaked := by
  obtain ⟨out, hOut, hLeaked⟩ := h
  refine ⟨out, ?_, hLeaked⟩
  have hUpdate : checksumUpdate data m = ({ m with digest := m.digest ++ data }, none) := by
    rw [checksumUpdate, if_pos hValid, if_pos (hHost.2 _ _)]
  rw [andThen, hUpdate]
  dsimp only
  rw [hOut, List.append_nil]

end Put

namespace DAP4StreamMarshaller

theorem silent_putLengthPrefix (val : UInt64) : Silent (putLengthPrefix val) := by
  refine silent_ifWriting ?_
  split
  · exact silent_throw _
  · exact silent_write _

theorem silent_putXdrReal (w : Nat) (msg : String) (bs : Bytes) : Silent (putXdrReal w msg bs) := by
  intro m
  rw [putXdrReal]
  split
  · exact silent_throw _ m
  · split
    · split
      · exact silent_throw _ m
      · exact silent_write _ m
    · exact silent_throw _ m

theorem silent_mSerializeReals (val : Bytes) (num w : Nat) : Silent (mSerializeReals val num w) := by
  intro m
  rw [mSerializeReals]
  dsimp only
  split
  · exact silent_throw _ m
  · split
    · split
      · exact silent_write _ m
      · exact silent_write _ m
    · exact silent_throw _ m

variable {m : DAP4StreamMarshaller} (hHost : m.host.Digests) (hValid : m.dChecksumCtxValid = true)

include hHost hValid

theorem effect_putInteger (w : Nat) (val : BitVec (8 * w)) :
    Effect (putInteger w val) m (m.host.order.store w val.toNat) [] :=
  effect_checksum hHost hValid (effect_ifWriting (silent_write _) _)

theorem effect_putReal (w : Nat) (msg : String) (val : BitVec (8 * w)) :
    Effect (putReal w msg val) m (m.host.order.store w val.toNat) [] := by
  refine effect_checksum hHost hValid (effect_ifWriting ?_ _)
  split
  · exact silent_write _
  · exact silent_putXdrReal _ _ _

theorem effect_putOpaque (val : Bytes) : Effect (putOpaque val) m val [] :=
  effect_checksum hHost hValid
    (effect_ifWriting (silent_andThen (silent_putLengthPrefix _) (silent_write val)) _)

theorem effect_putVector (val : Bytes) (num : Nat) (type : ScalarType) :
    Effect (putVector val num type) m (val.take (uint32 (num * type.width))) [] := by
  refine effect_checksum hHost hValid (effect_ifWriting ?_ _)
  split
  · exact silent_mSerializeReals _ _ _
  · exact silent_write _

omit hHost hValid

/-- A count of elements fits the target of the prefix, so that the prefix is sent or left out. -/
theorem putLengthPrefix_of_count (m : DAP4StreamMarshaller) (num : UInt32) :
    ∃ out, putLengthPrefix (UInt64.ofNat num.toNat) m = ({ m with dOut := m.dOut ++ out }, none) ∧
      (m.dWriteData = false → out = []) := by
  have hNum : (UInt64.ofNat num.toNat).toNat < 2 ^ 32 := by
    have hLt : num.toNat < 2 ^ 32 := num.toNat_lt
    rw [UInt64.toNat_ofNat', Nat.mod_eq_of_lt (by omega)]
    exact hLt
  obtain ⟨k, hSize, hk, _, hLow⟩ := varintSize_spec _ (UInt64.ofNat num.toNat).toNat_lt
  have hFit : k + 1 ≤ 9 := by
    by_contra hLong
    have hLow := hLow (by omega)
    rw [show k = 9 by omega] at hLow
    omega
  obtain ⟨t, hWrite, _⟩ := WriteVarint64ToArrayInline_of_le (UInt64.ofNat num.toNat)
    (Buffer.zeros (8 + 1)) hSize hk hFit
  rw [putLengthPrefix, hWrite, ifWriting]
  by_cases hFlag : m.dWriteData = true
  · rw [if_pos hFlag]
    exact ⟨t.bytes.take (k + 1), rfl, fun hOff => nomatch hFlag.symm.trans hOff⟩
  · rw [if_neg hFlag]
    exact ⟨[], by rw [List.append_nil]; rfl, fun _ => rfl⟩

include hHost hValid

theorem effect_putVaryingVector (val : Bytes) (num : UInt32) (type : ScalarType) :
    Effect (putVaryingVector val num.toNat type) m (val.take (uint32 (num.toNat * type.width))) [] := by
  obtain ⟨out, hPrefix, hNone⟩ := putLengthPrefix_of_count m num
  obtain ⟨out', hOut, hLeaked⟩ := effect_putVector (m := { m with dOut := m.dOut ++ out })
    hHost hValid val num.toNat type
  refine ⟨out ++ out', ?_, fun hOff => ?_⟩
  · rw [putVaryingVector, andThen, hPrefix]
    dsimp only
    rw [hOut, List.append_assoc]
  · rw [hNone hOff, hLeaked hOff, List.append_nil]

/-- What one call does: the same to the digest whatever the flag, and to the stream what leaks. -/
theorem effect_perform (c : Call) : Effect c.perform m (c.fed m.host.order) c.leaked := by
  cases c with
  | putByte val => exact effect_putInteger hHost hValid 1 val
  | putInt8 val => exact effect_putInteger hHost hValid 1 val
  | putInt16 val => exact effect_putInteger hHost hValid 2 val
  | putInt32 val => exact effect_putInteger hHost hValid 4 val
  | putInt64 val => exact effect_putInteger hHost hValid 8 val
  | putFloat32 val => exact effect_putReal hHost hValid 4 _ val
  | putFloat64 val => exact effect_putReal hHost hValid 8 _ val
  | putUint16 val => exact effect_putInteger hHost hValid 2 val
  | putUint32 val => exact effect_putInteger hHost hValid 4 val
  | putUint64 val => exact effect_putInteger hHost hValid 8 val
  | putStr val => exact effect_putOpaque hHost hValid val
  | putUrl val => exact effect_putOpaque hHost hValid val
  | putOpaque val => exact effect_putOpaque hHost hValid val
  | putInt val => exact effect_throw _ m
  | putLengthPrefix val =>
    refine effect_ifWriting ?_ m
    split
    · exact silent_throw _
    · exact silent_write _
  | putByteVector val => exact effect_checksum hHost hValid (effect_write val _)
  | putVector val num type => exact effect_putVector hHost hValid val num.toNat type
  | putVaryingByteVector val => exact effect_putOpaque hHost hValid val
  | putVaryingVector val num type => exact effect_putVaryingVector hHost hValid val num type
  | putDap2Vector => exact effect_throw _ m

/-- What a run does, from any state in which a checksum is under way. -/
theorem run_effect (calls : List Call) :
    ∃ out, run calls m = { m with
        dOut := m.dOut ++ out, digest := m.digest ++ calls.flatMap (Call.fed m.host.order) } ∧
      (m.dWriteData = false → out = calls.flatMap Call.leaked) := by
  induction calls generalizing m with
  | nil =>
    refine ⟨[], ?_, fun _ => rfl⟩
    rw [List.flatMap_nil, List.append_nil, List.append_nil]
    rfl
  | cons c calls ih =>
    obtain ⟨out, hOut, hLeaked⟩ := effect_perform hHost hValid c
    obtain ⟨out', hRun, hLeaked'⟩ := ih (m := { m with
      dOut := m.dOut ++ out, digest := m.digest ++ c.fed m.host.order }) hHost hValid
    refine ⟨out ++ out', ?_, fun hOff => ?_⟩
    · rw [run, List.foldl_cons, hOut, List.flatMap_cons]
      rw [List.append_assoc, List.append_assoc] at hRun
      exact hRun
    · rw [hLeaked hOff, hLeaked' hOff, List.flatMap_cons]

end DAP4StreamMarshaller

/-- The run without data leaves the stream alone, after each call, and feeds the digest as the run
with data does. -/
def MetadataOnly (host : Host) (out out' : Bytes) (calls : List Call) : Prop :=
  (∀ done, done <+: calls → (run done (started host out false)).dOut = out) ∧
    (run calls (started host out false)).digest = (run calls (started host out' true)).digest

theorem started_valid {host : Host} (hHost : host.Digests) (out : Bytes) (write_data : Bool) :
    started host out write_data = ⟨host, out, write_data, true, []⟩ := by
  rw [started, resetChecksum, create, if_pos hHost.1]

theorem metadataOnly_iff {host : Host} (hHost : host.Digests) (out out' : Bytes) (calls : List Call) :
    MetadataOnly host out out' calls ↔ ∀ val, .putByteVector val ∈ calls → val = [] := by
  have hRun : ∀ done, (run done (started host out false)).dOut = out ++ done.flatMap Call.leaked := by
    intro done
    rw [started_valid hHost]
    obtain ⟨sent, hRun, hLeaked⟩ :=
      run_effect (m := ⟨host, out, false, true, []⟩) hHost rfl done
    rw [hRun, hLeaked rfl]
  constructor
  · rintro ⟨hStream, _⟩ val hCall
    have hSent := hStream calls (List.prefix_refl calls)
    rw [hRun, List.append_right_eq_self] at hSent
    exact List.flatMap_eq_nil_iff.mp hSent _ hCall
  · intro h
    constructor
    · intro done hDone
      rw [hRun, List.append_right_eq_self, List.flatMap_eq_nil_iff]
      intro c hc
      cases c with
      | putByteVector val => exact h val (hDone.subset hc)
      | _ => rfl
    · rw [started_valid hHost, started_valid hHost]
      obtain ⟨_, hOff, _⟩ := run_effect (m := ⟨host, out, false, true, []⟩) hHost rfl calls
      obtain ⟨_, hOn, _⟩ := run_effect (m := ⟨host, out', true, true, []⟩) hHost rfl calls
      rw [hOff, hOn]

/-- A run without data sends nothing and feeds the digest as a run with data does, exactly when no
bytes are put as a vector of fixed length. -/
theorem metadata_only_run (host : Host) (hHost : host.Digests) (out out' : Bytes) (calls : List Call) :
    MetadataOnly host out out' calls ↔ ∀ val, .putByteVector val ∈ calls → val = [] :=
  metadataOnly_iff hHost out out' calls

theorem metadata_only_run_of_int32 :
    MetadataOnly plainHost [] [] [.putInt32 7, .putStr [104, 105]] :=
  (metadata_only_run plainHost ⟨rfl, fun _ _ => rfl⟩ [] [] _).mpr (by
    intro val hCall
    simp only [List.mem_cons, List.not_mem_nil, reduceCtorEq, or_self] at hCall)

/-- A vector of one byte is sent by a writer that is not to write. -/
theorem byte_vector_sent_without_data : ¬ MetadataOnly plainHost [] [] [.putByteVector [7]] := by
  rw [metadataOnly_iff ⟨rfl, fun _ _ => rfl⟩]
  intro h
  exact nomatch h [7] (List.mem_singleton.mpr rfl)

end Libdap.Dap4
