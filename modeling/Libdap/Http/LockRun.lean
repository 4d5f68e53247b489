import Libdap.Http.LockInvariant

/-! # Runs of calls of the cache

Whatever the calls are, each gives back what it locks, as long as the files do not fail it between the lock and the
end, and a handle is released by whoever got it.
-/

namespace Libdap.Http
open Core Constraint HTTPCacheTable
set_option autoImplicit false

variable {α : Type} {P E : HTTPCacheTable → Prop}

/-! ## Locks -/

/-- What is known of the handles. -/
abbrev OfHandles := List (Nat × Option Nat) → Prop

/-- The call holds what it has found, and what follows for the handles from there being an entry is so. -/
def Found (held : Nat → Holding) (R : OfHandles) : Option Nat → HTTPCacheTable → Prop
  | none, t => Booked .nothing t
  | some a, t => Booked (held a) t ∧ R t.lockedEntries

/-- If there is an entry for the URL, the handles are like that. -/
def IfFound (url : Word) (R : OfHandles) (t : HTTPCacheTable) : Prop :=
  (t.lookup (getHash url) url).isSome → R t.lockedEntries

theorem setLocked_booked (lock : CacheEntry → Option CacheEntry) {h : Holding} {a : Nat} (hOnly : h.Only a)
    (hLock : ∀ n e locked, Accounted n false false e → lock e = some locked →
      Accounted n (h.reads a) (h.writes a) locked) {s : Nat} {e : CacheEntry} {t₀ : HTTPCacheTable}
    (hIn : some (a, e) ∈ t₀.slots s) (R : OfHandles) :
    Triple (fun t => (Booked .nothing t ∧ R t.lockedEntries) ∧ t = t₀) (do
      let locked ← orWait (lock e)
      modify (setEntry a locked)
      pure (some a)) (fun found t => found = some a ∧ Booked h t ∧ R t.lockedEntries) E := by
  apply (orWait_spec (lock e)).bind
  intro locked
  have hSet : Triple (fun t => ((Booked .nothing t ∧ R t.lockedEntries) ∧ t = t₀) ∧ lock e = some locked)
      (modify (setEntry a locked)) (fun _ t => Booked h t ∧ R t.lockedEntries) E := by
    apply Triple.modified
    rintro t ⟨⟨⟨hBooked, hHandles⟩, rfl⟩, hSome⟩
    have hEntry := hBooked.entries s a e hIn
    exact ⟨hBooked.setEntry (Holding.only_nothing a) hOnly (hLock _ e locked hEntry hSome), hHandles⟩
  exact hSet.bind fun _ => Triple.pure fun t ht => ⟨rfl, ht⟩

theorem getEntry_booked (lock : CacheEntry → Option CacheEntry) (held : Nat → Holding)
    (hOnly : ∀ a, (held a).Only a) (hLock : ∀ a n e locked, Accounted n false false e → lock e = some locked →
      Accounted n ((held a).reads a) ((held a).writes a) locked) (url : Word) (R : OfHandles) :
    Triple (fun t => Booked .nothing t ∧ IfFound url R t) (do
      let t ← get
      match t.lookup (getHash url) url with
      | none => pure none
      | some (a, e) =>
        let locked ← orWait (lock e)
        modify (setEntry a locked)
        pure (some a)) (Found held R) E := by
  apply Triple.get_bind
  intro t₀
  cases hLookup : t₀.lookup (getHash url) url with
  | none => exact Triple.pure fun t ht => ht.1.1
  | some q =>
    obtain ⟨a, e⟩ := q
    refine (setLocked_booked lock (hOnly a) (hLock a) (lookup_some hLookup).1 R).conseq ?_ ?_ (fun _ ht => ht)
    · rintro t ⟨⟨hBooked, hFound⟩, rfl⟩
      exact ⟨⟨hBooked, hFound (by rw [hLookup]; rfl)⟩, rfl⟩
    · rintro _ t ⟨rfl, hHeld⟩
      exact hHeld

theorem getLockedEntry_booked (url : Word) (R : OfHandles) :
    Triple (fun t => Booked .nothing t ∧ IfFound url R t) (getLockedEntry url) (Found .reading R) E := by
  apply getEntry_booked CacheEntry.lockRead .reading Holding.only_reading
  intro a n e locked hEntry hLock
  rw [Holding.reading_reads]
  exact hEntry.lockRead hLock

theorem getWriteLockedEntry_booked (url : Word) (R : OfHandles) :
    Triple (fun t => Booked .nothing t ∧ IfFound url R t) (getWriteLockedEntry url) (Found .writing R) E := by
  apply getEntry_booked CacheEntry.lockWrite .writing Holding.only_writing
  intro a n e locked hEntry hLock
  rw [Holding.writing_writes]
  exact hEntry.lockWrite hLock

theorem unlockReadResponse_booked (a : Nat) :
    Triple (Booked (.reading a)) (unlockReadResponse a) (fun _ => Booked .nothing) E := by
  apply (readEntry_spec a).bind
  intro e
  apply Triple.modified
  rintro t ⟨hBooked, s, hIn⟩
  have hEntry := hBooked.entries s a e hIn
  rw [Holding.reading_reads] at hEntry
  exact hBooked.setEntry (Holding.only_reading a) (Holding.only_nothing a) hEntry.unlockRead

theorem unlockWriteResponse_booked (a : Nat) :
    Triple (Booked (.writing a)) (unlockWriteResponse a) (fun _ => Booked .nothing) E := by
  apply (readEntry_spec a).bind
  intro e
  apply Triple.modified
  rintro t ⟨hBooked, s, hIn⟩
  have hEntry := hBooked.entries s a e hIn
  rw [Holding.writing_writes] at hEntry
  exact hBooked.setEntry (Holding.only_writing a) (Holding.only_nothing a) hEntry.unlockWrite

/-! ## Deletion -/

theorem removed_booked {h : Holding} {s i a : Nat} {e : CacheEntry} (hFree : h = .nothing ∨ h = .writing a) :
    Triple (fun t => Booked h t ∧ (t.slots s)[i]? = some (some (a, e))) (do
      removeCacheEntry e
      modify (clearCell s i)) (fun _ => Booked .nothing) (Booked .nothing) := by
  have hOnly : h.Only a := by
    rcases hFree with rfl | rfl
    · exact Holding.only_nothing a
    · exact Holding.only_writing a
  have hThrows : ∀ t, (Booked h t ∧ (t.slots s)[i]? = some (some (a, e))) ∧ e.readers ≠ 0 → Booked .nothing t := by
    rintro t ⟨⟨hBooked, hCell⟩, hReaders⟩
    rcases hFree with rfl | rfl
    · exact hBooked
    · have hEntry := hBooked.entries s a e (List.mem_of_getElem? hCell)
      exact absurd (hEntry.alone (Holding.writing_writes a)) hReaders
  apply ((removeCacheEntry_subtracts e).conseq (fun _ ht => ht) (fun _ _ hq => hq) hThrows).bind
  intro _
  apply Triple.modified
  rintro _ ⟨hNone, t, ⟨hBooked, hCell⟩, rfl⟩
  exact hBooked.clear hCell hNone hOnly

theorem removeCell_booked (f : Functor) {s i a : Nat} {e : CacheEntry} :
    Triple (fun t => Booked .nothing t ∧ (t.slots s)[i]? = some (some (a, e))) (removeCell f s i a e)
      (fun _ => Booked .nothing) (Booked .nothing) := by
  apply Triple.ite
  · intro _
    apply (orWait_spec e.lockWrite).bind
    intro locked
    have hSet : Triple (fun t => (Booked .nothing t ∧ (t.slots s)[i]? = some (some (a, e))) ∧
        e.lockWrite = some locked) (modify (setEntry a locked))
        (fun _ t => Booked (.writing a) t ∧ (t.slots s)[i]? = some (some (a, locked))) (Booked .nothing) := by
      apply Triple.modified
      rintro t ⟨⟨hBooked, hCell⟩, hLock⟩
      have hEntry := hBooked.entries s a e (List.mem_of_getElem? hCell)
      refine ⟨hBooked.setEntry (Holding.only_nothing a) (Holding.only_writing a) ?_, setEntry_cell hCell⟩
      rw [Holding.writing_writes]
      exact hEntry.lockWrite hLock
    exact hSet.bind fun _ => removed_booked (.inr rfl)
  · intro _
    exact removed_booked (.inl rfl)

theorem sweepSlot_booked (f : Functor) {s : Nat} (hs : s < CACHE_TABLE_SIZE) :
    Keeps (Booked .nothing) (sweepSlot f s) :=
  sweepSlot_keeps (fun _ _ _ _ => removeCell_booked f) (fun s _ _ hBooked => hBooked.eraseNulls s) hs

theorem sweep_booked (f : Functor) : Keeps (Booked .nothing) (sweep f) :=
  sweep_keeps fun _ hs => sweepSlot_booked f hs

theorem deleteAllEntries_booked : Keeps (Booked .nothing) deleteAllEntries := by
  apply (sweep_booked _).bind
  intro _
  exact Triple.modified fun t ht => ht.newEntries 0

/-! ## What the calls do to the table -/

theorem ofExcept_spec (r : Except Fault α) (hError : ∀ f, r = .error f → ∀ t, P t → E t) :
    Triple P (Call.ofExcept r) (fun a t => P t ∧ r = .ok a) E := by
  cases r with
  | ok a => exact Triple.pure fun _ ht => ⟨ht, rfl⟩
  | error f => exact Triple.throw fun _ => hError f rfl

/-- The headers say nothing about locks. -/
structure SameLocks (e e' : CacheEntry) : Prop where
  readers : e'.readers = e.readers
  responseLock : e'.responseLock = e.responseLock
  writeLock : e'.writeLock = e.writeLock

theorem SameLocks.trans {e e' e'' : CacheEntry} (h : SameLocks e e') (h' : SameLocks e' e'') : SameLocks e e'' :=
  ⟨h'.readers.trans h.readers, h'.responseLock.trans h.responseLock, h'.writeLock.trans h.writeLock⟩

theorem SameLocks.accounted {e e' : CacheEntry} (h : SameLocks e e') {n : Nat} {reads writes : Bool}
    (hEntry : Accounted n reads writes e) : Accounted n reads writes e' :=
  hEntry.congr h.readers h.responseLock h.writeLock

theorem map_locks {e e' : CacheEntry} {x : Option Int} {f : Int → CacheEntry} (h : x.map f = some e')
    (hAll : ∀ t, SameLocks e (f t)) : SameLocks e e' := by
  obtain ⟨t, -, rfl⟩ := Option.map_eq_some_iff.mp h
  exact hAll t

theorem parseHeader_locks {now : Int} {maxEntrySize : Nat} {e e' : CacheEntry} {line : Word}
    (h : parseHeader now maxEntrySize e line = some e') : SameLocks e e' := by
  rw [parseHeader] at h
  split at h
  · cases h
    exact ⟨rfl, rfl, rfl⟩
  · exact map_locks h fun _ => ⟨rfl, rfl, rfl⟩
  · exact map_locks h fun _ => ⟨rfl, rfl, rfl⟩
  · exact map_locks h fun _ => ⟨rfl, rfl, rfl⟩
  · exact map_locks h fun _ => ⟨rfl, rfl, rfl⟩
  · split at h
    · cases h
      exact ⟨rfl, rfl, rfl⟩
    · cases h
      exact ⟨rfl, rfl, rfl⟩
  · rw [cacheControl] at h
    split at h
    · cases h
      exact ⟨rfl, rfl, rfl⟩
    · split at h
      · cases h
        exact ⟨rfl, rfl, rfl⟩
      · split at h
        · exact map_locks h fun _ => ⟨rfl, rfl, rfl⟩
        · cases h
          exact ⟨rfl, rfl, rfl⟩
  · cases h
    exact ⟨rfl, rfl, rfl⟩

theorem parseHeaders_locks {now : Int} {maxEntrySize : Nat} {e e' : CacheEntry} {headers : List Word}
    (h : parseHeaders now maxEntrySize e headers = some e') : SameLocks e e' := by
  induction headers generalizing e with
  | nil =>
    cases h
    exact ⟨rfl, rfl, rfl⟩
  | cons line headers ih =>
    rw [parseHeaders, List.foldlM_cons] at h
    obtain ⟨parsed, hLine, hRest⟩ := Option.bind_eq_some_iff.mp h
    exact (parseHeader_locks hLine).trans (ih hRest)

/-- The entry is unlocked at the end, if the files can be read and written. -/
theorem updateEntry_booked {now responseTime defaultExpiration requestTime : Int} {maxEntrySize : Nat}
    {headers oldHeaders : List Word} {failure : Option Fault} {text : Word} (a : Nat)
    (hText : writeMetadataFile failure (mergedHeaders headers oldHeaders) = .ok text) :
    Triple (Booked (.writing a)) (updateEntry now responseTime maxEntrySize defaultExpiration requestTime headers
      (.ok oldHeaders) failure a) (fun _ => Booked .nothing) E := by
  apply (readEntry_spec a).bind
  intro e
  apply (orWait_spec (parseHeaders now maxEntrySize e headers)).bind
  intro parsed
  have hSet : Triple
      (fun t => (Booked (.writing a) t ∧ ∃ s, some (a, e) ∈ t.slots s) ∧
        parseHeaders now maxEntrySize e headers = some parsed)
      (modify (setEntry a (calculateTime responseTime parsed defaultExpiration requestTime)))
      (fun _ => Booked (.writing a)) E := by
    apply Triple.modified
    rintro t ⟨⟨hBooked, s, hIn⟩, hParsed⟩
    have hEntry := (parseHeaders_locks hParsed).accounted (hBooked.entries s a e hIn)
    exact hBooked.setEntry (Holding.only_writing a) (Holding.only_writing a) (hEntry.congr rfl rfl rfl)
  apply hSet.bind
  intro _
  apply (ofExcept_spec (.ok oldHeaders) fun f hf => nomatch hf).bind
  intro old
  have hWrite : Triple (fun t => Booked (.writing a) t ∧ (.ok oldHeaders : Except Fault (List Word)) = .ok old)
      (Call.ofExcept (writeMetadataFile failure (mergedHeaders headers old))) (fun _ => Booked (.writing a)) E := by
    refine ((ofExcept_spec _ ?_).conseq (fun _ ht => ht) (fun _ _ ht => ht.1.1) fun _ ht => ht)
    rintro f hf t ⟨-, hOld⟩
    cases hOld
    rw [hText] at hf
    cases hf
  apply hWrite.bind
  intro _
  exact (unlockWriteResponse_booked a).bind fun _ => Triple.pure fun _ ht => ht

/-- The headers of the entry can be read and the merged ones written. -/
def UpdateHolds (headers : List Word) (oldHeaders : Except Fault (List Word)) (failure : Option Fault) : Prop :=
  ∃ old text, oldHeaders = .ok old ∧ writeMetadataFile failure (mergedHeaders headers old) = .ok text

theorem updateResponse_booked (now responseTime : Int) (maxEntrySize : Nat) (defaultExpiration requestTime : Int)
    (url : Word) (headers : List Word) (oldHeaders : Except Fault (List Word)) (failure : Option Fault) :
    Triple (fun t => Booked .nothing t ∧ IfFound url (fun _ => UpdateHolds headers oldHeaders failure) t)
      (updateResponse now responseTime maxEntrySize defaultExpiration requestTime url headers oldHeaders failure)
      (fun _ => Booked .nothing) (Booked .nothing) := by
  apply (getWriteLockedEntry_booked url fun _ => UpdateHolds headers oldHeaders failure).bind
  rintro (_ | a)
  · exact Triple.throw fun _ _ ht => ht
  · have hEntry : UpdateHolds headers oldHeaders failure → Triple (Booked (.writing a))
        (tryCatch (updateEntry now responseTime maxEntrySize defaultExpiration requestTime headers oldHeaders failure a)
          fun f => do
            unlockReadResponse a
            throw f) (fun _ => Booked .nothing) (Booked .nothing) := by
      rintro ⟨old, text, rfl, hText⟩
      have hBody : Triple (Booked (.writing a)) (updateEntry now responseTime maxEntrySize defaultExpiration requestTime
          headers (.ok old) failure a) (fun _ => Booked .nothing) (fun _ => False) := updateEntry_booked a hText
      have hUnlock : Triple (fun _ => True) (unlockReadResponse a) (fun _ _ => True) (fun _ => False) :=
        (readEntry_spec a).bind fun _ => Triple.modified fun _ _ => trivial
      exact hBody.rethrow (Triple.of_absurd fun _ ht => ht) hUnlock
    apply (Triple.of_fact hEntry).weaken
    rintro t ⟨hBooked, hHolds⟩
    exact ⟨hHolds, hBooked⟩

theorem accounted_empty : Accounted 0 false false CacheEntry.empty :=
  .notWriting rfl rfl (by decide)

theorem accounted_new (url : Word) : Accounted 0 false false (CacheEntry.new url) :=
  accounted_empty.congr rfl rfl rfl

/-- The entry is the table's only once it is complete. -/
theorem cacheEntry_booked (now responseTime : Int) (maxEntrySize : Nat) (defaultExpiration requestTime : Int)
    (url : Word) (headers : List Word) (files : CacheInterface.ResponseFiles) :
    Keeps (Booked .nothing) (CacheInterface.cacheEntry now responseTime maxEntrySize defaultExpiration requestTime url
      headers files) := by
  apply (sweepSlot_booked _ (getHash_lt url)).bind
  intro _
  apply (orWait_spec _).bind
  intro locked
  apply (orWait_spec _).bind
  intro parsed
  apply Triple.ite
  · intro _
    exact Triple.pure fun _ ht => ht.1.1
  · intro _
    apply (ofExcept_spec files.location fun _ _ _ ht => ht.1.1).bind
    intro cachename
    apply (ofExcept_spec files.size fun _ _ _ ht => ht.1.1.1).bind
    intro size
    apply (ofExcept_spec _ fun _ _ _ ht => ht.1.1.1.1).bind
    intro _
    apply Triple.get_bind
    intro t₀
    apply ((addEntry_pushes _).conseq (fun _ ht => ht) (fun _ _ ht => ht) fun _ ht => ht.1.1.1.1.1.1).bind
    intro _
    refine ((unlockWriteResponse_booked t₀.nextAddress).weaken ?_).bind fun _ => Triple.pure fun _ ht => ht
    rintro _ ⟨t, ⟨⟨⟨⟨⟨⟨hBooked, hLock⟩, hParsed⟩, -⟩, -⟩, -⟩, rfl⟩, rfl⟩
    have hNew : Accounted 0 false false (CacheEntry.new url) := accounted_new url
    have hLocked := (parseHeaders_locks hParsed).accounted (hNew.lockWrite hLock)
    apply hBooked.push (Holding.only_writing _)
    rw [Holding.writing_writes]
    exact hLocked.congr rfl rfl rfl

theorem bindEntryToData_booked (a body : Nat) :
    Triple (fun t => Booked (.reading a) t ∧ ∀ p ∈ t.lockedEntries, p.1 ≠ body) (bindEntryToData a body)
      (fun _ => Booked .nothing) E := by
  apply (readEntry_spec a).bind
  intro e
  have hHits : Triple
      (fun t => (Booked (.reading a) t ∧ ∀ p ∈ t.lockedEntries, p.1 ≠ body) ∧ ∃ s, some (a, e) ∈ t.slots s)
      (modify (setEntry a { e with hits := e.hits + 1 }))
      (fun _ t => Booked (.reading a) t ∧ (∃ s e, some (a, e) ∈ t.slots s) ∧ ∀ p ∈ t.lockedEntries, p.1 ≠ body) E := by
    apply Triple.modified
    rintro t ⟨⟨hBooked, hNew⟩, s, hIn⟩
    have hEntry := hBooked.entries s a e hIn
    refine ⟨hBooked.setEntry (Holding.only_reading a) (Holding.only_reading a) (hEntry.congr rfl rfl rfl), ?_, hNew⟩
    exact ⟨s, _, List.mem_map.mpr ⟨some (a, e), hIn, congrArg some (if_pos rfl)⟩⟩
  apply hHits.bind
  intro _
  apply Triple.modified
  rintro t ⟨hBooked, hIn, hNew⟩
  exact hBooked.bindHandle hIn hNew

/-- The headers can be read and the body opened, with a handle that is not bound. -/
def OpenHolds (metadata : Except Fault (List Word)) (body : Except Fault Nat) : OfHandles := fun handles =>
  ∃ headers handle, metadata = .ok headers ∧ body = .ok handle ∧ ∀ p ∈ handles, p.1 ≠ handle

theorem openResponse_booked (metadata : Except Fault (List Word)) (body : Except Fault Nat) (a : Nat) :
    Triple (fun t => Booked (.reading a) t ∧ OpenHolds metadata body t.lockedEntries)
      (CacheInterface.openResponse metadata body a) (fun _ => Booked .nothing) E := by
  apply (readEntry_spec a).bind
  intro e
  have hRead : ∀ f, metadata = .error f → ∀ t, (Booked (.reading a) t ∧ OpenHolds metadata body t.lockedEntries) ∧
      (∃ s, some (a, e) ∈ t.slots s) → E t := by
    rintro f hf t ⟨⟨-, headers, handle, hMetadata, -⟩, -⟩
    rw [hMetadata] at hf
    cases hf
  apply (ofExcept_spec metadata hRead).bind
  intro headers
  have hOpen : ∀ f, body = .error f → ∀ t, ((Booked (.reading a) t ∧ OpenHolds metadata body t.lockedEntries) ∧
      (∃ s, some (a, e) ∈ t.slots s)) ∧ metadata = .ok headers → E t := by
    rintro f hf t ⟨⟨⟨-, old, handle, -, hBody, -⟩, -⟩, -⟩
    rw [hBody] at hf
    cases hf
  apply (ofExcept_spec body hOpen).bind
  intro handle
  refine ((bindEntryToData_booked a handle).weaken ?_).bind fun _ => Triple.pure fun _ ht => ht
  rintro t ⟨⟨⟨⟨hBooked, old, handle', -, hBody', hNew⟩, -⟩, -⟩, hBody⟩
  rw [hBody] at hBody'
  cases hBody'
  exact ⟨hBooked, hNew⟩

/-- The entry is unlocked before anything is made of it. -/
theorem ofEntry_booked (result : CacheEntry → α) (url : Word) :
    Keeps (Booked .nothing) (CacheInterface.ofEntry result url) := by
  apply ((getLockedEntry_booked url fun _ => True).weaken fun _ ht => ⟨ht, fun _ => trivial⟩).bind
  rintro (_ | a)
  · exact Triple.throw fun _ _ ht => ht
  · apply (readEntry_spec a).bind
    intro e
    exact ((unlockReadResponse_booked a).weaken fun _ ht => ht.1.1).bind fun _ => Triple.pure fun _ ht => ht

/-- A handle that is bound is released. -/
theorem uncoupleEntryFromData_booked (body : Nat) :
    Triple (fun t => Booked .nothing t ∧ ∃ a, (body, some a) ∈ t.lockedEntries) (uncoupleEntryFromData body)
      (fun _ => Booked .nothing) (Booked .nothing) := by
  apply Triple.get_bind
  intro t₀
  cases hLookup : t₀.lockedEntries.lookup body with
  | none =>
    apply Triple.of_absurd
    rintro t ⟨⟨-, a, hIn⟩, rfl⟩
    have hNone := List.lookup_eq_none_iff.mp hLookup _ hIn
    simp at hNone
  | some found =>
    obtain ⟨front, back, hSplit, -⟩ := List.lookup_eq_some_iff.mp hLookup
    have hIn : (body, found) ∈ t₀.lockedEntries := by
      rw [hSplit]
      exact List.mem_append_right _ List.mem_cons_self
    cases found with
    | none => exact Triple.throw fun _ t ht => ht.1.1
    | some a =>
      have hDrop : Triple
          (fun t => (Booked .nothing t ∧ ∃ a, (body, some a) ∈ t.lockedEntries) ∧ t = t₀)
          (set { t₀ with lockedEntries := t₀.lockedEntries.filter fun p => p.1 ≠ body })
          (fun _ => Booked (.reading a)) (Booked .nothing) := by
        apply Triple.modified
        rintro t ⟨⟨hBooked, -⟩, rfl⟩
        exact hBooked.dropHandle hIn
      apply hDrop.bind
      intro _
      apply (unlockReadResponse_booked a).bind
      intro _
      apply (readEntry_spec a).bind
      intro e
      apply Triple.ite
      · intro _
        exact Triple.throw fun _ _ ht => ht.1
      · intro _
        exact Triple.pure fun _ ht => ht.1

/-! ## Garbage collection -/

/-- The books of the cache's table. -/
def BookedCache (c : HTTPCache) : Prop := Booked .nothing c.table

theorem onTable_booked {x : Call HTTPCacheTable Unit} (h : Keeps (Booked .nothing) x) :
    Keeps BookedCache (onTable x) := by
  have hOn : Keeps (fun c => BookedCache c ∧ True) (onTable x) := h.on (fun _ _ => rfl) fun _ _ _ => trivial
  exact hOn.conseq (fun _ hc => ⟨hc, trivial⟩) (fun _ _ hc => hc.1) fun _ hc => hc.1

theorem hitsLoop_booked (turns : Nat) (hits : Int) : Keeps BookedCache (hitsLoop turns hits) := by
  induction turns generalizing hits with
  | zero => exact Triple.undefined
  | succ turns ih =>
    apply Triple.get_bind
    intro c
    apply Triple.ite
    · intro _
      exact Triple.pure fun _ hc => hc.1
    · intro _
      have hSweep : Keeps BookedCache (onTable (deleteByHits hits)) := onTable_booked (sweep_booked _)
      exact (hSweep.weaken fun _ hc => hc.1).bind fun _ => ih (hits + 1)

theorem performGarbageCollection_booked (now : Int) : Keeps BookedCache (performGarbageCollection now) := by
  have hExpired : Keeps BookedCache (expiredGc now) := by
    apply Triple.get_bind
    intro c
    apply Triple.ite
    · intro _
      exact Triple.pure fun _ hc => hc.1
    · intro _
      exact (onTable_booked (sweep_booked _)).weaken fun _ hc => hc.1
  have hLarge : Keeps BookedCache tooBigGc := by
    apply Triple.get_bind
    intro c
    apply Triple.ite
    · intro _
      exact (onTable_booked (sweep_booked _)).weaken fun _ hc => hc.1
    · intro _
      exact Triple.pure fun _ hc => hc.1
  have hHits : Keeps BookedCache hitsGc := by
    apply Triple.get_bind
    intro c
    apply Triple.ite
    · intro _
      exact (hitsLoop_booked _ 0).weaken fun _ hc => hc.1
    · intro _
      exact Triple.pure fun _ hc => hc.1
  exact hExpired.bind fun _ => hLarge.bind fun _ => hHits

/-! ## The interface -/

namespace CacheInterface

/-- Within a call. -/
def Inside (P : HTTPCacheTable → Prop) (s : CacheInterface) : Prop := P s.cache.table ∧ s.interfaceLock = true

/-- Between calls. -/
def Outside (P : HTTPCacheTable → Prop) (s : CacheInterface) : Prop := P s.cache.table ∧ s.interfaceLock = false

variable {Q : α → HTTPCacheTable → Prop} {F : CacheInterface → Prop}

theorem lockCacheInterface_spec : Triple (Outside P) lockCacheInterface (fun _ => Inside P) F := by
  apply Triple.get_bind
  intro s₀
  apply Triple.ite
  · intro _
    exact Triple.undefined
  · intro _
    apply Triple.modified
    rintro s ⟨⟨hTable, -⟩, rfl⟩
    exact ⟨hTable, rfl⟩

theorem unlockCacheInterface_spec : Triple (Inside P) unlockCacheInterface (fun _ => Outside P) F :=
  Triple.modified fun _ hs => ⟨hs.1, rfl⟩

theorem onEntries_spec {x : Call HTTPCacheTable α} (h : Triple P x Q E) :
    Triple (Inside P) (onEntries x) (fun a => Inside (Q a)) (Inside E) :=
  h.on (fun _ _ => rfl) fun _ _ hLock => hLock

theorem unlocking_spec {x : Call CacheInterface α} {R : α → CacheInterface → Prop} (h : Triple F x R (Inside E)) :
    Triple F (unlocking x) R (Outside E) :=
  h.rethrow unlockCacheInterface_spec (Triple.modified fun _ _ => trivial)

theorem interface_spec {x : Call CacheInterface α} (h : Triple (Inside P) x (fun _ => Inside E) (Inside E)) :
    Triple (Outside P) (interface x) (fun _ => Outside E) (Outside E) := by
  apply lockCacheInterface_spec.bind
  intro _
  apply (unlocking_spec h).bind
  intro a
  exact unlockCacheInterface_spec.bind fun _ => Triple.pure fun _ hs => hs

theorem onCache_booked {x : Call HTTPCache Unit} (h : Keeps BookedCache x) {lock : Bool} :
    Keeps (fun s => Booked .nothing s.cache.table ∧ s.interfaceLock = lock) (onCache x) :=
  h.on (fun _ _ => rfl) fun _ _ hLock => hLock

theorem collectIfFull_booked (now : Int) : Keeps BookedCache (collectIfFull now) := by
  apply Triple.get_bind
  intro c
  apply Triple.ite
  · intro _
    exact (performGarbageCollection_booked now).weaken fun _ hc => hc.1
  · intro _
    exact Triple.pure fun _ hc => hc.1

theorem writeIndex_booked (index : String) (failure : Option Fault) :
    Keeps (Booked .nothing) (writeIndex index failure) := by
  cases failure with
  | some f => exact Triple.throw fun _ _ ht => ht
  | none =>
    apply Triple.get_bind
    intro t₀
    have hReset : Triple (fun t => Booked .nothing t ∧ t = t₀)
        (modify fun t : HTTPCacheTable => { t with newEntries := 0 }) (fun _ => Booked .nothing) (Booked .nothing) :=
      Triple.modified fun t ht => ht.1.newEntries 0
    exact hReset.bind fun _ => Triple.pure fun _ ht => ht

theorem dumpIndex_booked (now : Int) (index : String) (failure : Option Fault) :
    Keeps (Inside (Booked .nothing)) (dumpIndex now index failure) := by
  apply Triple.get_bind
  intro s₀
  apply Triple.ite
  · intro _
    have hCollect : Keeps (Inside (Booked .nothing)) (onCache (collectIfFull now)) :=
      onCache_booked (collectIfFull_booked now)
    apply (hCollect.weaken fun _ hs => hs.1).bind
    intro _
    exact (onEntries_spec (writeIndex_booked index failure)).bind fun _ => Triple.pure fun _ hs => hs
  · intro _
    exact Triple.pure fun _ hs => hs.1

theorem cacheResponse_booked (now responseTime later : Int) (index : String) (url : Word) (requestTime : Int)
    (headers : List Word) (files : ResponseFiles) :
    Keeps (Outside (Booked .nothing)) (cacheResponse now responseTime later index url requestTime headers files) := by
  apply interface_spec
  apply Triple.ite
  · intro _
    exact Triple.pure fun _ hs => hs
  · intro _
    apply Triple.get_bind
    intro s₀
    have hEntry := onEntries_spec (cacheEntry_booked now responseTime s₀.cache.maxEntrySize s₀.defaultExpiration
      requestTime url headers files)
    apply (hEntry.weaken fun _ hs => hs.1).bind
    intro cached
    apply Triple.ite
    · intro _
      exact (dumpIndex_booked later index files.index).bind fun _ => Triple.pure fun _ hs => hs
    · intro _
      exact Triple.pure fun _ hs => hs

theorem getCachedResponse_booked (url : Word) (metadata : Except Fault (List Word)) (body : Except Fault Nat) :
    Triple (Outside fun t => Booked .nothing t ∧ IfFound url (OpenHolds metadata body) t)
      (getCachedResponse url metadata body) (fun _ => Outside (Booked .nothing)) (Outside (Booked .nothing)) := by
  have hFind : Triple (fun t => Booked .nothing t ∧ IfFound url (OpenHolds metadata body) t) (getLockedEntry url)
      (Found .reading (OpenHolds metadata body)) fun _ => False := getLockedEntry_booked url _
  apply lockCacheInterface_spec.bind
  intro _
  apply ((onEntries_spec hFind).conseq (fun _ hs => hs) (fun _ _ hs => hs) fun _ hs => hs.1.elim).bind
  rintro (_ | a)
  · exact unlockCacheInterface_spec.bind fun _ => Triple.pure fun _ hs => hs
  · apply (unlocking_spec (onEntries_spec (openResponse_booked metadata body a))).bind
    intro response
    exact unlockCacheInterface_spec.bind fun _ => Triple.pure fun _ hs => hs

/-- What has to be so of the table before a call. -/
def CacheCall.Holds (t : HTTPCacheTable) : CacheCall → Prop
  | .updateResponse _ _ url _ headers oldHeaders failure =>
    IfFound url (fun _ => UpdateHolds headers oldHeaders failure) t
  | .getCachedResponse url metadata body => IfFound url (OpenHolds metadata body) t
  | .releaseCachedResponse body => ∃ a, (body, some a) ∈ t.lockedEntries
  | _ => True

theorem updateResponse_kept (now responseTime : Int) (url : Word) (requestTime : Int) (headers : List Word)
    (oldHeaders : Except Fault (List Word)) (failure : Option Fault) :
    Triple (Outside fun t => Booked .nothing t ∧ IfFound url (fun _ => UpdateHolds headers oldHeaders failure) t)
      (updateResponse now responseTime url requestTime headers oldHeaders failure)
      (fun _ => Outside (Booked .nothing)) (Outside (Booked .nothing)) := by
  apply interface_spec
  apply Triple.get_bind
  intro s₀
  have hTable := onEntries_spec (updateResponse_booked now responseTime s₀.cache.maxEntrySize s₀.defaultExpiration
    requestTime url headers oldHeaders failure)
  exact hTable.weaken fun _ hs => hs.1

theorem isUrlValid_booked (now : Int) (url : Word) : Keeps (Outside (Booked .nothing)) (isUrlValid now url) := by
  apply interface_spec
  apply Triple.get_bind
  intro s₀
  apply Triple.ite
  · intro _
    exact Triple.pure fun _ hs => hs.1
  · intro _
    exact (onEntries_spec (ofEntry_booked (isValid s₀.directives now) url)).weaken fun _ hs => hs.1

theorem purgeCache_booked : Keeps (Outside (Booked .nothing)) purgeCache := by
  apply interface_spec
  apply Triple.get_bind
  intro s₀
  apply Triple.ite
  · intro _
    exact Triple.throw fun _ _ hs => hs.1
  · intro _
    exact (onEntries_spec deleteAllEntries_booked).weaken fun _ hs => hs.1

theorem CacheCall.run_booked (c : CacheCall) :
    Triple (fun s => Outside (Booked .nothing) s ∧ c.Holds s.cache.table) c.run (fun _ => Outside (Booked .nothing))
      (Outside (Booked .nothing)) := by
  cases c with
  | cacheResponse now responseTime later index url requestTime headers files =>
    have hCall := cacheResponse_booked now responseTime later index url requestTime headers files
    exact (hCall.weaken fun _ hs => hs.1).bind fun _ => Triple.pure fun _ hs => hs
  | updateResponse now responseTime url requestTime headers oldHeaders failure =>
    have hCall := updateResponse_kept now responseTime url requestTime headers oldHeaders failure
    exact (hCall.weaken fun _ hs => ⟨⟨hs.1.1, hs.2⟩, hs.1.2⟩).bind fun _ => Triple.pure fun _ hs => hs
  | getCachedResponse url metadata body =>
    have hCall := getCachedResponse_booked url metadata body
    exact (hCall.weaken fun _ hs => ⟨⟨hs.1.1, hs.2⟩, hs.1.2⟩).bind fun _ => Triple.pure fun _ hs => hs
  | releaseCachedResponse body =>
    have hCall := interface_spec (onEntries_spec (uncoupleEntryFromData_booked body))
    exact hCall.weaken fun _ hs => ⟨⟨hs.1.1, hs.2⟩, hs.1.2⟩
  | isUrlValid now url =>
    exact ((isUrlValid_booked now url).weaken fun _ hs => hs.1).bind fun _ => Triple.pure fun _ hs => hs
  | getConditionalRequestHeaders url =>
    have hCall := interface_spec (onEntries_spec (ofEntry_booked conditionalHeaders url))
    exact (hCall.weaken fun _ hs => hs.1).bind fun _ => Triple.pure fun _ hs => hs
  | purgeCache => exact purgeCache_booked.weaken fun _ hs => hs.1
  | performGarbageCollection now =>
    exact (onCache_booked (performGarbageCollection_booked now)).weaken fun _ hs => hs.1

/-! ## Runs -/

theorem new_booked (blockSize : Nat) : Booked .nothing (.new blockSize) where
  apart _ := List.Pairwise.nil
  across := by rintro s s' p p' ⟨⟩
  fresh := by rintro s p ⟨⟩
  keys := List.nodup_nil
  bound := by rintro p ⟨⟩
  entries := by rintro s a e ⟨⟩

/-- Nobody has locked what comes from the index. -/
theorem addLines_booked (lines : List Word) : Keeps (Booked .nothing) (addLines lines) := by
  induction lines with
  | nil => exact Triple.pure fun _ ht => ht
  | cons line lines ih =>
    apply (addEntry_pushes (cacheIndexParseLine line)).bind
    intro _
    apply ih.weaken
    rintro _ ⟨t, hBooked, rfl⟩
    exact hBooked.push (Holding.only_nothing _) (accounted_empty.congr rfl rfl rfl)

theorem cacheIndexRead_booked (file : Option Word) : Keeps (Booked .nothing) (cacheIndexRead file) := by
  cases file with
  | none => exact Triple.pure fun _ ht => ht
  | some text =>
    apply (addLines_booked (piecesOf text)).bind
    intro _
    have hReset : Keeps (Booked .nothing) (modify fun t : HTTPCacheTable => { t with newEntries := 0 }) :=
      Triple.modified fun _ ht => ht.newEntries 0
    exact hReset.bind fun _ => Triple.pure fun _ ht => ht

theorem Opened.booked {s : CacheInterface} (h : Opened s) : Outside (Booked .nothing) s := by
  obtain ⟨hLock, blockSize, file, found, hRead⟩ := h
  exact ⟨(cacheIndexRead_booked file).ok _ found _ (new_booked blockSize) hRead, hLock⟩

/-- No call is in progress, and no lock is left but those of the handles. -/
structure Quiet (s : CacheInterface) : Prop where
  readers : ∀ slot a e, some (a, e) ∈ s.cache.table.slots slot → e.readers = s.cache.table.handles a
  writeLock : ∀ slot a e, some (a, e) ∈ s.cache.table.slots slot → e.writeLock = false
  interface : s.interfaceLock = false
  bound : ∀ p ∈ s.cache.table.lockedEntries, p.2 ≠ none

theorem quiet_of_booked {s : CacheInterface} (h : Outside (Booked .nothing) s) : Quiet s where
  readers slot a e hIn := by
    have hReaders := (h.1.entries slot a e hIn).readers
    rw [hReaders]
    exact Int.add_zero _
  writeLock slot a e hIn := (h.1.entries slot a e hIn).writeLock
  interface := h.2
  bound p hp := by
    obtain ⟨s, a, e, hHandle, -⟩ := h.1.bound p hp
    rw [hHandle]
    exact Option.some_ne_none a

/-- Through all calls an entry has as many readers as there are handles, if the files of the entries that are found do
not fail and what is released is bound. -/
theorem locks_given_back {s : CacheInterface}
    (h : Run CacheCall.run Opened (fun s c => c.Holds s.cache.table) s) : Quiet s :=
  quiet_of_booked (h.invariant (fun _ hs => hs.booked) CacheCall.run_booked)

def newCache : CacheInterface where
  cache :=
    { table := .new 4096
      expireIgnored := false
      totalSize := 20971520
      folderSize := 2
      gcBuffer := 2
      maxEntrySize := 3145728 }
  interfaceLock := false
  defaultExpiration := 86400
  directives := .none

theorem newCache_opened : Opened newCache := ⟨rfl, 4096, none, false, rfl⟩

/-- Files that do not fail. -/
def writable : ResponseFiles := ⟨.ok "dods".toList, .ok 5, none, none⟩

def cachePage : CacheCall := .cacheResponse 0 0 0 "index" pageUrl 0 ["Age: 3".toList] writable

/-- The cache after the call, if it ends. -/
def ran (c : CacheCall) (s : CacheInterface) : CacheInterface := (c.run.after s).getD s

def openPage : CacheCall := .getCachedResponse pageUrl (.ok ["Age: 3".toList]) (.ok 7)

set_option maxRecDepth 20000 in
theorem page_released : Quiet (ran (.releaseCachedResponse 7) (ran openPage (ran cachePage newCache))) := by
  have hCached : Run CacheCall.run Opened (fun s c => c.Holds s.cache.table) (ran cachePage newCache) :=
    .step cachePage (.start newCache_opened) trivial rfl
  have hOpened : Run CacheCall.run Opened (fun s c => c.Holds s.cache.table) (ran openPage (ran cachePage newCache)) :=
    .step openPage hCached (fun _ => ⟨_, 7, rfl, rfl, by rintro p ⟨⟩⟩) rfl
  exact locks_given_back (.step (.releaseCachedResponse 7) hOpened ⟨0, List.mem_cons_self⟩ rfl)

def openLost : CacheCall :=
  .getCachedResponse pageUrl (.error (.InternalErr "Could not open named cache entry meta data file.")) (.ok 7)

set_option maxRecDepth 20000 in
/-- The entry has a reader for good, and no handle. -/
theorem read_lock_kept : ¬ ∀ s, Run CacheCall.run Opened (fun _ _ => True) s → Quiet s := by
  intro hAll
  have hCached : Run CacheCall.run Opened (fun _ _ => True) (ran cachePage newCache) :=
    .step cachePage (.start newCache_opened) trivial rfl
  have hQuiet := hAll _ (.step openLost hCached trivial (rfl : _ = some (ran openLost (ran cachePage newCache))))
  have hRead : ∃ e, some (0, e) ∈ (ran openLost (ran cachePage newCache)).cache.table.slots (getHash pageUrl) ∧
      e.readers = 1 := ⟨_, List.mem_cons_self, rfl⟩
  have hNone : (ran openLost (ran cachePage newCache)).cache.table.handles 0 = 0 := rfl
  obtain ⟨e, hIn, hReaders⟩ := hRead
  have hSame := hQuiet.readers _ 0 e hIn
  rw [hReaders, hNone] at hSame
  cases hSame

end CacheInterface

end Libdap.Http
