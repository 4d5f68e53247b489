import Libdap.Http.TableInvariant

/-! # Runs of calls of the table

The calls of the cache, in any order. A caller adds an entry only when the table has none for its URL,
and an index file is as a cache has written it.
-/

namespace Libdap.Http
open Core Constraint HTTPCacheTable
set_option autoImplicit false

variable {P E : HTTPCacheTable → Prop}

/-! ## What each call does -/

theorem orWait_spec {α : Type} (o : Option α) :
    Triple P (orWait o) (fun a t => P t ∧ o = some a) E := by
  cases o with
  | none => exact Triple.undefined
  | some a => exact Triple.pure fun t ht => ⟨ht, rfl⟩

theorem addEntry_pushes (e : CacheEntry) :
    Triple P (addEntryToCacheTable e) (fun _ t => ∃ t₀, P t₀ ∧ t = push e t₀) P := by
  apply Triple.get_bind
  intro t₀
  apply Triple.ite
  · intro _
    exact Triple.throw fun _ t ht => ht.1
  · intro _
    apply Triple.ite
    · intro _
      exact Triple.undefined
    · intro _
      exact Triple.modified fun t ht => ⟨t, ht.1, rfl⟩

theorem removeCacheEntry_subtracts (e : CacheEntry) :
    Triple P (removeCacheEntry e) (fun _ t => e.readers = 0 ∧ ∃ t₀, P t₀ ∧ t = subtract e t₀)
      (fun t => P t ∧ e.readers ≠ 0) := by
  apply Triple.get_bind
  intro t₀
  apply Triple.ite
  · intro hReaders
    exact Triple.throw fun _ t ht => ⟨ht.1, hReaders⟩
  · intro hNone
    apply Triple.ite
    · intro _
      exact Triple.undefined
    · intro _
      exact Triple.modified fun t ht => ⟨not_not.mp hNone, t, ht.1, rfl⟩

/-! ## What each call keeps -/

theorem lookup_some {t : HTTPCacheTable} {slot a : Nat} {url : Word} {e : CacheEntry}
    (h : t.lookup slot url = some (a, e)) : some (a, e) ∈ t.slots slot ∧ e.url = url := by
  obtain ⟨c, hc, hFilter⟩ := List.exists_of_findSome?_eq_some h
  obtain ⟨rfl, hUrl⟩ := Option.filter_eq_some_iff.mp hFilter
  exact ⟨hc, of_decide_eq_true hUrl⟩

theorem entryAt_some {t : HTTPCacheTable} {a : Nat} {e : CacheEntry} (h : t.entryAt a = some e) :
    ∃ s, some (a, e) ∈ t.slots s := by
  obtain ⟨s, -, hSlot⟩ := List.exists_of_findSome?_eq_some h
  obtain ⟨c, hc, hMap⟩ := List.exists_of_findSome?_eq_some hSlot
  obtain ⟨p, hFilter, rfl⟩ := Option.map_eq_some_iff.mp hMap
  obtain ⟨rfl, hAddress⟩ := Option.filter_eq_some_iff.mp hFilter
  have hFst : p.1 = a := of_decide_eq_true hAddress
  subst hFst
  exact ⟨s, hc⟩

/-- A lock leaves the URL and the size alone. -/
theorem lockRead_data {e locked : CacheEntry} (h : e.lockRead = some locked) :
    locked.url = e.url ∧ locked.size = e.size := by
  rw [CacheEntry.lockRead] at h
  split at h
  · cases h
    exact ⟨rfl, rfl⟩
  · split at h
    · cases h
    · cases h
      exact ⟨rfl, rfl⟩

theorem lockWrite_data {e locked : CacheEntry} (h : e.lockWrite = some locked) :
    locked.url = e.url ∧ locked.size = e.size := by
  rw [CacheEntry.lockWrite] at h
  split at h
  · cases h
  · cases h
    exact ⟨rfl, rfl⟩

theorem setLocked_sound {lock : CacheEntry → Option CacheEntry}
    (hLock : ∀ e locked, lock e = some locked → locked.url = e.url ∧ locked.size = e.size) {s a : Nat}
    {e : CacheEntry} (t₀ : HTTPCacheTable) (hMem : some (a, e) ∈ t₀.slots s) :
    Triple (fun t => Sound t ∧ t = t₀) (do
      let locked ← orWait (lock e)
      modify (setEntry a locked)
      pure (some a)) (fun _ => Sound) Sound := by
  apply (orWait_spec (lock e)).bind
  intro locked
  have hSet : Triple (fun t => (Sound t ∧ t = t₀) ∧ lock e = some locked) (modify (setEntry a locked))
      (fun _ => Sound) Sound := by
    apply Triple.modified
    rintro t ⟨⟨hSound, rfl⟩, hSome⟩
    obtain ⟨hUrl, hSize⟩ := hLock e locked hSome
    exact hSound.setEntry hMem hUrl hSize
  exact hSet.bind fun _ => Triple.pure fun t ht => ht

theorem getLockedEntry_sound (url : Word) : Keeps Sound (getLockedEntry url) := by
  apply Triple.get_bind
  intro t₀
  cases hLookup : t₀.lookup (getHash url) url with
  | none => exact Triple.pure fun t ht => ht.1
  | some p =>
    obtain ⟨a, e⟩ := p
    exact setLocked_sound (fun e locked h => lockRead_data h) t₀ (lookup_some hLookup).1

theorem getWriteLockedEntry_sound (url : Word) : Keeps Sound (getWriteLockedEntry url) := by
  apply Triple.get_bind
  intro t₀
  cases hLookup : t₀.lookup (getHash url) url with
  | none => exact Triple.pure fun t ht => ht.1
  | some p =>
    obtain ⟨a, e⟩ := p
    exact setLocked_sound (fun e locked h => lockWrite_data h) t₀ (lookup_some hLookup).1

theorem readEntry_spec (a : Nat) :
    Triple P (readEntry a) (fun e t => P t ∧ ∃ s, some (a, e) ∈ t.slots s) E := by
  apply Triple.get_bind
  intro t₀
  apply (orWait_spec (t₀.entryAt a)).conseq (fun _ ht => ht)
  · rintro e t ⟨⟨ht, rfl⟩, hEntry⟩
    exact ⟨ht, entryAt_some hEntry⟩
  · exact fun _ hError => hError

theorem unlockReadResponse_sound (a : Nat) : Keeps Sound (unlockReadResponse a) := by
  apply (readEntry_spec a).bind
  intro e
  apply Triple.modified
  rintro t ⟨hSound, s, hMem⟩
  exact hSound.setEntry hMem rfl rfl

theorem unlockWriteResponse_sound (a : Nat) : Keeps Sound (unlockWriteResponse a) := by
  apply (readEntry_spec a).bind
  intro e
  apply Triple.modified
  rintro t ⟨hSound, s, hMem⟩
  exact hSound.setEntry hMem rfl rfl

/-! ## Deletion -/

theorem removed_sound {s i a : Nat} {e : CacheEntry} :
    Triple (fun t => Sound t ∧ (t.slots s)[i]? = some (some (a, e))) (do
      removeCacheEntry e
      modify (clearCell s i)) (fun _ => Sound) Sound := by
  apply ((removeCacheEntry_subtracts e).conseq (fun _ ht => ht) (fun _ _ hq => hq) (fun _ ht => ht.1.1)).bind
  intro _
  apply Triple.modified
  rintro _ ⟨-, t, ⟨hSound, hCell⟩, rfl⟩
  exact hSound.remove hCell

theorem setEntry_cell {t : HTTPCacheTable} {s i a : Nat} {e e' : CacheEntry}
    (h : (t.slots s)[i]? = some (some (a, e))) :
    ((setEntry a e' t).slots s)[i]? = some (some (a, e')) := by
  rw [setEntry, List.getElem?_map, h]
  simp

theorem removeCell_sound (f : Functor) {s i a : Nat} {e : CacheEntry} :
    Triple (fun t => Sound t ∧ (t.slots s)[i]? = some (some (a, e))) (removeCell f s i a e)
      (fun _ => Sound) Sound := by
  apply Triple.ite
  · intro _
    apply (orWait_spec e.lockWrite).bind
    intro locked
    have hSet : Triple (fun t => (Sound t ∧ (t.slots s)[i]? = some (some (a, e))) ∧ e.lockWrite = some locked)
        (modify (setEntry a locked)) (fun _ t => Sound t ∧ (t.slots s)[i]? = some (some (a, locked))) Sound := by
      apply Triple.modified
      rintro t ⟨⟨hSound, hCell⟩, hLocked⟩
      obtain ⟨hUrl, hSize⟩ := lockWrite_data hLocked
      exact ⟨hSound.setEntry (List.mem_of_getElem? hCell) hUrl hSize, setEntry_cell hCell⟩
    exact hSet.bind fun _ => removed_sound
  · intro _
    exact removed_sound

section Sweep

variable {I : HTTPCacheTable → Prop} {f : Functor}

theorem applyFunctor_keeps (hRemove : ∀ s i a e, Triple (fun t => I t ∧ (t.slots s)[i]? = some (some (a, e)))
    (removeCell f s i a e) (fun _ => I) I) (s i : Nat) : Keeps I (applyFunctor f s i) := by
  apply Triple.get_bind
  intro t₀
  cases hCell : (t₀.slots s)[i]?.join with
  | none => exact Triple.pure fun t ht => ht.1
  | some p =>
    obtain ⟨a, e⟩ := p
    apply Triple.ite
    · intro _
      apply (hRemove s i a e).weaken
      rintro t ⟨hKept, rfl⟩
      exact ⟨hKept, Option.join_eq_some_iff.mp hCell⟩
    · intro _
      exact Triple.pure fun t ht => ht.1

theorem forEach_keeps (hRemove : ∀ s i a e, Triple (fun t => I t ∧ (t.slots s)[i]? = some (some (a, e)))
    (removeCell f s i a e) (fun _ => I) I) (s n i : Nat) : Keeps I (forEach f s n i) := by
  induction n generalizing i with
  | zero => exact Triple.pure fun t ht => ht
  | succ n ih => exact (applyFunctor_keeps hRemove s i).bind fun _ => ih (i + 1)

theorem sweepSlot_keeps (hRemove : ∀ s i a e, Triple (fun t => I t ∧ (t.slots s)[i]? = some (some (a, e)))
    (removeCell f s i a e) (fun _ => I) I)
    (hErase : ∀ s t, s < CACHE_TABLE_SIZE → I t → I (eraseNulls s t)) {s : Nat} (hs : s < CACHE_TABLE_SIZE) :
    Keeps I (sweepSlot f s) := by
  apply Triple.get_bind
  intro t₀
  apply ((forEach_keeps hRemove s (t₀.slots s).length 0).weaken fun t ht => ht.1).bind
  intro _
  exact Triple.modified fun t ht => hErase s t hs ht

theorem sweepSlots_keeps {ss : List Nat} (hSlot : ∀ s ∈ ss, Keeps I (sweepSlot f s)) : Keeps I (sweepSlots f ss) := by
  induction ss with
  | nil => exact Triple.pure fun t ht => ht
  | cons s ss ih =>
    have hFirst := hSlot s List.mem_cons_self
    exact hFirst.bind fun _ => ih fun s' hs' => hSlot s' (List.mem_cons_of_mem s hs')

theorem sweep_keeps (hSlot : ∀ s, s < CACHE_TABLE_SIZE → Keeps I (sweepSlot f s)) : Keeps I (sweep f) :=
  sweepSlots_keeps fun s hs => hSlot s (List.mem_range.mp hs)

end Sweep

theorem sweepSlot_sound (f : Functor) {s : Nat} (hs : s < CACHE_TABLE_SIZE) : Keeps Sound (sweepSlot f s) :=
  sweepSlot_keeps (fun _ _ _ _ => removeCell_sound f) (fun _ _ hs ht => ht.eraseNulls hs) hs

theorem sweep_sound (f : Functor) : Keeps Sound (sweep f) := sweep_keeps fun _ hs => sweepSlot_sound f hs

theorem Sound.newEntries {t : HTTPCacheTable} (h : Sound t) (n : Int) :
    Sound { t with newEntries := n } :=
  ⟨h.size, h.apart, h.placed, h.space, h.address, h.fresh⟩

theorem deleteAllEntries_sound : Keeps Sound deleteAllEntries := by
  apply (sweep_sound _).bind
  intro _
  exact Triple.modified fun t ht => ht.newEntries 0

/-! ## The index -/

/-- The lines of an index can be added one after another. -/
def AllAddable (t : HTTPCacheTable) : List Word → Prop
  | [] => True
  | line :: lines =>
    Addable t (cacheIndexParseLine line) ∧ AllAddable (push (cacheIndexParseLine line) t) lines

theorem addLines_sound (lines : List Word) :
    Triple (fun t => Sound t ∧ AllAddable t lines) (addLines lines) (fun _ => Sound) Sound := by
  induction lines with
  | nil => exact Triple.pure fun t ht => ht.1
  | cons line lines ih =>
    apply ((addEntry_pushes (cacheIndexParseLine line)).conseq (fun _ ht => ht) (fun _ _ hq => hq)
      (fun _ ht => ht.1)).bind
    intro _
    apply ih.weaken
    rintro _ ⟨t, ⟨hSound, hAdd, hRest⟩, rfl⟩
    exact ⟨hSound.push hAdd, hRest⟩

theorem cacheIndexRead_sound (text : Word) :
    Triple (fun t => Sound t ∧ AllAddable t (piecesOf text)) (cacheIndexRead (some text))
      (fun _ => Sound) Sound := by
  apply (addLines_sound (piecesOf text)).bind
  intro _
  have hNone : Keeps Sound (modify fun t : HTTPCacheTable => { t with newEntries := 0 }) :=
    Triple.modified fun t ht => ht.newEntries 0
  exact hNone.bind fun _ => Triple.pure fun t ht => ht

/-! ## Runs -/

inductive TableCall
  | add (e : CacheEntry)
  | remove (url : Word)
  | deleteExpired (now time : Int)
  | deleteHits (hits : Int)
  | deleteSize (size : Nat)
  | deleteAll
  | readIndex (file : Option Word)
  | lockRead (url : Word)
  | lockWrite (url : Word)
  | unlockRead (a : Nat)
  | unlockWrite (a : Nat)

def TableCall.run : TableCall → Call HTTPCacheTable Unit
  | .add e => addEntryToCacheTable e
  | .remove url => removeEntryFromCacheTable url
  | .deleteExpired now time => deleteExpiredEntries now time
  | .deleteHits hits => deleteByHits hits
  | .deleteSize size => deleteBySize size
  | .deleteAll => deleteAllEntries
  | .readIndex file => do
    let _ ← cacheIndexRead file
  | .lockRead url => do
    let _ ← getLockedEntry url
  | .lockWrite url => do
    let _ ← getWriteLockedEntry url
  | .unlockRead a => unlockReadResponse a
  | .unlockWrite a => unlockWriteResponse a

/-- What is added is not there yet; what is deleted, and when, is free. -/
def TableCall.Allowed (t : HTTPCacheTable) : TableCall → Prop
  | .add e => Addable t e
  | .readIndex (some text) => AllAddable t (piecesOf text)
  | _ => True

def IsNew (t : HTTPCacheTable) : Prop := ∃ blockSize, t = .new blockSize

theorem IsNew.sound {t : HTTPCacheTable} (h : IsNew t) : Sound t := by
  obtain ⟨blockSize, rfl⟩ := h
  constructor
  · exact (Finset.sum_eq_zero fun s _ => rfl).symm
  · intro s
    exact List.Pairwise.nil
  · rintro s p ⟨⟩
  · rintro s p ⟨⟩
  · rintro s s' p p' ⟨⟩
  · rintro s p ⟨⟩

theorem TableCall.run_sound (c : TableCall) :
    Triple (fun t => Sound t ∧ c.Allowed t) c.run (fun _ => Sound) Sound := by
  cases c with
  | add e =>
    apply (addEntry_pushes e).conseq (fun _ ht => ht)
    · rintro _ _ ⟨t, ⟨hSound, hAdd⟩, rfl⟩
      exact hSound.push hAdd
    · intro t ht
      exact ht.1
  | remove url => exact (sweepSlot_sound _ (getHash_lt url)).weaken fun t ht => ht.1
  | deleteExpired now time =>
    rw [run, deleteExpiredEntries]
    exact (sweep_sound _).weaken fun t ht => ht.1
  | deleteHits hits =>
    rw [run, deleteByHits]
    exact (sweep_sound _).weaken fun t ht => ht.1
  | deleteSize size =>
    rw [run, deleteBySize]
    exact (sweep_sound _).weaken fun t ht => ht.1
  | deleteAll => exact deleteAllEntries_sound.weaken fun t ht => ht.1
  | readIndex file =>
    cases file with
    | none => exact Triple.pure fun t ht => ht.1
    | some text => exact (cacheIndexRead_sound text).bind fun _ => Triple.pure fun t ht => ht
  | lockRead url =>
    exact ((getLockedEntry_sound url).weaken fun t ht => ht.1).bind fun _ => Triple.pure fun t ht => ht
  | lockWrite url =>
    exact ((getWriteLockedEntry_sound url).weaken fun t ht => ht.1).bind fun _ => Triple.pure fun t ht => ht
  | unlockRead a => exact (unlockReadResponse_sound a).weaken fun t ht => ht.1
  | unlockWrite a => exact (unlockWriteResponse_sound a).weaken fun t ht => ht.1

/-- Through all calls the size is that of the entries, of which each URL has one, in its slot. -/
theorem table_consistent {t : HTTPCacheTable}
    (h : Run TableCall.run IsNew (fun t c => c.Allowed t) t) : Consistent t :=
  (h.invariant (fun _ => IsNew.sound) TableCall.run_sound).consistent

def pageUrl : Word := "http://a/b".toList

theorem page_addable : Addable (.new 4096) (.new pageUrl) where
  hash := rfl
  new := by rintro s p ⟨⟩
  space := by decide
  fits := by decide

theorem page_consistent : Consistent (push (.new pageUrl) (.new 4096)) :=
  table_consistent (.step (.add (.new pageUrl)) (.start ⟨4096, rfl⟩) page_addable rfl)

/-- The table does not look for the URL before it adds an entry. -/
theorem page_added_twice : ¬ ∀ t, Run TableCall.run IsNew (fun _ _ => True) t → Consistent t := by
  intro h
  have hFirst : Run TableCall.run IsNew (fun _ _ => True) (push (.new pageUrl) (.new 4096)) :=
    .step (.add (.new pageUrl)) (.start ⟨4096, rfl⟩) trivial rfl
  have hTwice : Run TableCall.run IsNew (fun _ _ => True)
      (push (.new pageUrl) (push (.new pageUrl) (.new 4096))) :=
    .step (.add (.new pageUrl)) hFirst trivial rfl
  obtain ⟨-, hIndex⟩ := (h _ hTwice).one (getHash pageUrl) 0 (0, .new pageUrl) (getHash pageUrl) 1
    (1, .new pageUrl) rfl rfl rfl
  cases hIndex

end Libdap.Http
