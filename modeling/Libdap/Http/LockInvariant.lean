import Libdap.Http.CacheCalls
import Libdap.Http.TableRun

/-! # Locks and handles

An entry has one reader for each handle that is bound to it, and one more while a call reads it. Nobody but a call in
progress holds a lock for writing.
-/

namespace Libdap.Http
open Core Constraint HTTPCacheTable
set_option autoImplicit false

/-- What the call in progress has locked. -/
inductive Holding
  | nothing
  | reading (a : Nat)
  | writing (a : Nat)

namespace Holding

def reads : Holding → Nat → Bool
  | .reading b, a => b = a
  | _, _ => false

def writes : Holding → Nat → Bool
  | .writing b, a => b = a
  | _, _ => false

/-- No other entry is locked by the call. -/
def Only (h : Holding) (a : Nat) : Prop := ∀ b, b ≠ a → h.reads b = false ∧ h.writes b = false

theorem only_nothing (a : Nat) : nothing.Only a := fun _ _ => ⟨rfl, rfl⟩

theorem only_reading (a : Nat) : (reading a).Only a := fun _ hb => ⟨decide_eq_false (Ne.symm hb), rfl⟩

theorem only_writing (a : Nat) : (writing a).Only a := fun _ hb => ⟨rfl, decide_eq_false (Ne.symm hb)⟩

@[simp] theorem reading_reads (a : Nat) : (reading a).reads a = true := decide_eq_true rfl

@[simp] theorem writing_writes (a : Nat) : (writing a).writes a = true := decide_eq_true rfl

end Holding

/-- How many handles are bound to the entry. -/
def HTTPCacheTable.handles (t : HTTPCacheTable) (a : Nat) : Nat := t.lockedEntries.countP fun p => p.2 = some a

/-- An entry with so many handles, and whether the call in progress reads it or writes it. -/
structure Accounted (handles : Nat) (reads writes : Bool) (e : CacheEntry) : Prop where
  readers : e.readers = handles + reads.toNat
  writeLock : e.writeLock = writes
  responseLock : e.responseLock = true ↔ e.readers ≠ 0 ∨ writes = true
  alone : writes = true → e.readers = 0

namespace Accounted

variable {n : Nat} {e locked : CacheEntry}

theorem notWriting {reads : Bool} (hReaders : e.readers = n + reads.toNat) (hWrite : e.writeLock = false)
    (hResponse : e.responseLock = true ↔ e.readers ≠ 0) : Accounted n reads false e := by
  refine ⟨hReaders, hWrite, ?_, fun hWrites => (Bool.false_ne_true hWrites).elim⟩
  simpa using hResponse

theorem lockRead (h : Accounted n false false e) (hLock : e.lockRead = some locked) :
    Accounted n true false locked := by
  have hReaders := h.readers
  rw [Bool.toNat_false] at hReaders
  have hMore : e.readers + 1 ≠ 0 := by omega
  rw [CacheEntry.lockRead] at hLock
  split at hLock
  · cases hLock
    exact notWriting (congrArg (· + 1) hReaders) h.writeLock ⟨fun _ => hMore, fun _ => rfl⟩
  · rename_i hTaken
    have hTaken : e.responseLock = true := by simpa using hTaken
    split at hLock
    · cases hLock
    · cases hLock
      exact notWriting (congrArg (· + 1) hReaders) h.writeLock ⟨fun _ => hMore, fun _ => hTaken⟩

theorem unlockRead (h : Accounted n true false e) : Accounted n false false e.unlockRead := by
  have hReaders := h.readers
  rw [Bool.toNat_true] at hReaders
  have hTaken : e.responseLock = true := h.responseLock.mpr (.inl (by omega))
  apply notWriting
  · change e.readers - 1 = n + (0 : Nat)
    omega
  · exact h.writeLock
  · change (if e.readers - 1 = 0 then false else e.responseLock) = true ↔ e.readers - 1 ≠ 0
    rw [hTaken]
    split
    · simpa
    · simpa

theorem lockWrite (h : Accounted n false false e) (hLock : e.lockWrite = some locked) :
    Accounted n false true locked := by
  rw [CacheEntry.lockWrite] at hLock
  split at hLock
  · cases hLock
  · rename_i hFree
    cases hLock
    have hNone : e.readers = 0 := by
      by_contra hSome
      exact hFree (.inl (h.responseLock.mpr (.inl hSome)))
    exact ⟨h.readers, rfl, ⟨fun _ => .inr rfl, fun _ => rfl⟩, fun _ => hNone⟩

theorem unlockWrite (h : Accounted n false true e) : Accounted n false false e.unlockWrite := by
  have hNone := h.alone rfl
  refine notWriting (e := e.unlockWrite) h.readers rfl ?_
  change false = true ↔ e.readers ≠ 0
  simpa using hNone

/-- The locks are all that counts. -/
theorem congr {e' : CacheEntry} {reads writes : Bool} (h : Accounted n reads writes e)
    (hReaders : e'.readers = e.readers) (hResponse : e'.responseLock = e.responseLock)
    (hWrite : e'.writeLock = e.writeLock) :
    Accounted n reads writes e' := by
  constructor
  · rw [hReaders, h.readers]
  · rw [hWrite, h.writeLock]
  · rw [hResponse, hReaders]
    exact h.responseLock
  · rw [hReaders]
    exact h.alone

end Accounted

def DistinctAddress (c c' : Cell) : Prop := ∀ p p', c = some p → c' = some p' → p.1 ≠ p'.1

structure Booked (h : Holding) (t : HTTPCacheTable) : Prop where
  apart : ∀ s, (t.slots s).Pairwise DistinctAddress
  across : ∀ (s s' : Nat) (p p' : Nat × CacheEntry), some p ∈ t.slots s → some p' ∈ t.slots s' → p.1 = p'.1 → s = s'
  fresh : ∀ (s : Nat) (p : Nat × CacheEntry), some p ∈ t.slots s → p.1 < t.nextAddress
  keys : (t.lockedEntries.map Prod.fst).Nodup
  bound : ∀ p ∈ t.lockedEntries, ∃ s a e, p.2 = some a ∧ some (a, e) ∈ t.slots s
  entries : ∀ s a e, some (a, e) ∈ t.slots s → Accounted (t.handles a) (h.reads a) (h.writes a) e

theorem DistinctAddress.left_none (c : Cell) : DistinctAddress none c := by
  rintro p p' ⟨⟩

theorem DistinctAddress.right_none (c : Cell) : DistinctAddress c none := by
  rintro p p' _ ⟨⟩

theorem entry_unique {cells : List Cell} (h : cells.Pairwise DistinctAddress) {a : Nat} {e e' : CacheEntry}
    (hIn : some (a, e) ∈ cells) (hIn' : some (a, e') ∈ cells) : e = e' := by
  induction cells with
  | nil => cases hIn
  | cons c cells ih =>
    obtain ⟨hFirst, hRest⟩ := List.pairwise_cons.mp h
    rcases List.mem_cons.mp hIn with rfl | hTail
    · rcases List.mem_cons.mp hIn' with hSame | hTail'
      · cases hSame
        rfl
      · exact (hFirst _ hTail' _ _ rfl rfl rfl).elim
    · rcases List.mem_cons.mp hIn' with rfl | hTail'
      · exact (hFirst _ hTail _ _ rfl rfl rfl).elim
      · exact ih hRest hTail hTail'

/-- What is left when the pointer to an entry is null. -/
theorem mem_cleared {cells : List Cell} (h : cells.Pairwise DistinctAddress) {i a : Nat} {e : CacheEntry}
    (hCell : cells[i]? = some (some (a, e))) (p : Nat × CacheEntry) :
    some p ∈ cells.set i none ↔ some p ∈ cells ∧ p.1 ≠ a := by
  induction cells generalizing i with
  | nil => cases hCell
  | cons c cells ih =>
    obtain ⟨hFirst, hRest⟩ := List.pairwise_cons.mp h
    cases i with
    | zero =>
      obtain rfl : c = some (a, e) := Option.some.inj hCell
      have hTail : some p ∈ cells → p.1 ≠ a := fun hp => (hFirst _ hp _ _ rfl rfl).symm
      constructor
      · intro hp
        rcases List.mem_cons.mp hp with hNone | hp
        · cases hNone
        · exact ⟨List.mem_cons_of_mem _ hp, hTail hp⟩
      · rintro ⟨hp, hOther⟩
        rcases List.mem_cons.mp hp with hSame | hp
        · cases hSame
          exact absurd rfl hOther
        · exact List.mem_cons_of_mem _ hp
    | succ i =>
      have hHead : c = some p → p.1 ≠ a := by
        rintro rfl
        exact hFirst _ (List.mem_of_getElem? hCell) _ _ rfl rfl
      rw [List.set_cons_succ, List.mem_cons, List.mem_cons, ih hRest hCell]
      constructor
      · rintro (hSame | ⟨hp, hOther⟩)
        · exact ⟨.inl hSame, hHead hSame.symm⟩
        · exact ⟨.inr hp, hOther⟩
      · rintro ⟨hSame | hp, hOther⟩
        · exact .inl hSame
        · exact .inr ⟨hp, hOther⟩

namespace Booked

variable {h h' : Holding} {t : HTTPCacheTable}

/-- An entry is at one place. -/
theorem unique (hBooked : Booked h t) {s s' a : Nat} {e e' : CacheEntry} (hIn : some (a, e) ∈ t.slots s)
    (hIn' : some (a, e') ∈ t.slots s') : e = e' := by
  obtain rfl := hBooked.across s s' _ _ hIn hIn' rfl
  exact entry_unique (hBooked.apart s) hIn hIn'

/-- The other entries do not see what the call has locked. -/
theorem other (hBooked : Booked h t) {s a b : Nat} {e : CacheEntry} (hIn : some (b, e) ∈ t.slots s) (hb : b ≠ a)
    (hOnly : h.Only a) (hOnly' : h'.Only a) : Accounted (t.handles b) (h'.reads b) (h'.writes b) e := by
  have hEntry := hBooked.entries s b e hIn
  obtain ⟨hReads, hWrites⟩ := hOnly b hb
  obtain ⟨hReads', hWrites'⟩ := hOnly' b hb
  rw [hReads, hWrites] at hEntry
  rw [hReads', hWrites']
  exact hEntry

/-- An entry is changed, and with it what the call has locked. -/
theorem setEntry (hBooked : Booked h t) {a : Nat} {e' : CacheEntry} (hOnly : h.Only a) (hOnly' : h'.Only a)
    (hNew : Accounted (t.handles a) (h'.reads a) (h'.writes a) e') : Booked h' (HTTPCacheTable.setEntry a e' t) := by
  have hOf : ∀ (s' : Nat) (p : Nat × CacheEntry), some p ∈ (HTTPCacheTable.setEntry a e' t).slots s' →
      ∃ q, some q ∈ t.slots s' ∧ p.1 = q.1 ∧ (p = (a, e') ∨ p = q ∧ p.1 ≠ a) := by
    intro s' p hp
    obtain ⟨c, hc, hMap⟩ := List.mem_map.mp hp
    obtain ⟨q, rfl, rfl⟩ := Option.map_eq_some_iff.mp hMap
    refine ⟨q, hc, ?_⟩
    split
    · rename_i hAddress
      exact ⟨hAddress.symm, .inl rfl⟩
    · rename_i hAddress
      exact ⟨rfl, .inr ⟨rfl, hAddress⟩⟩
  constructor
  · intro s'
    refine List.pairwise_map.mpr ((hBooked.apart s').imp ?_)
    intro c c' hApart p p' hp hp'
    obtain ⟨q, rfl, rfl⟩ := Option.map_eq_some_iff.mp hp
    obtain ⟨q', rfl, rfl⟩ := Option.map_eq_some_iff.mp hp'
    have hFst : ∀ q : Nat × CacheEntry, (if q.1 = a then (a, e') else q).1 = q.1 := by
      intro q
      split
      · rename_i hAddress
        exact hAddress.symm
      · rfl
    rw [hFst, hFst]
    exact hApart q q' rfl rfl
  · intro s₁ s₂ p p' hp hp' hAddress
    obtain ⟨q, hq, hFst, -⟩ := hOf s₁ p hp
    obtain ⟨q', hq', hFst', -⟩ := hOf s₂ p' hp'
    exact hBooked.across s₁ s₂ q q' hq hq' (by rw [← hFst, ← hFst', hAddress])
  · intro s' p hp
    obtain ⟨q, hq, hFst, -⟩ := hOf s' p hp
    rw [hFst]
    exact hBooked.fresh s' q hq
  · exact hBooked.keys
  · intro p hp
    obtain ⟨s', b, e₀, hHandle, hEntry⟩ := hBooked.bound p hp
    refine ⟨s', b, if b = a then e' else e₀, hHandle, List.mem_map.mpr ⟨some (b, e₀), hEntry, ?_⟩⟩
    rw [Option.map_some]
    split
    · rename_i hAddress
      have hAddress : b = a := hAddress
      rw [hAddress]
    · rfl
  · intro s' b e₀ hp
    obtain ⟨q, hq, hFst, hNew' | ⟨hSame, hOther⟩⟩ := hOf s' (b, e₀) hp
    · cases hNew'
      exact hNew
    · rw [← hSame] at hq
      exact hBooked.other hq hOther hOnly hOnly'

/-- What is kept of the cells are those of the entries in use, and maybe others. -/
theorem shrink (hBooked : Booked h t) {a : Nat} {t' : HTTPCacheTable} (hNext : t'.nextAddress = t.nextAddress)
    (hLocked : t'.lockedEntries = t.lockedEntries) (hApart : ∀ s, (t'.slots s).Pairwise DistinctAddress)
    (hOld : ∀ (s : Nat) (p : Nat × CacheEntry), some p ∈ t'.slots s → some p ∈ t.slots s ∧ (h = h' ∨ p.1 ≠ a))
    (hKept : ∀ s b e, some (b, e) ∈ t.slots s → t.handles b ≠ 0 → some (b, e) ∈ t'.slots s)
    (hOnly : h.Only a) (hOnly' : h'.Only a) : Booked h' t' := by
  have hHandles : ∀ b, t'.handles b = t.handles b := by
    intro b
    rw [handles, handles, hLocked]
  constructor
  · exact hApart
  · intro s s' p p' hp hp'
    exact hBooked.across s s' p p' (hOld s p hp).1 (hOld s' p' hp').1
  · intro s p hp
    rw [hNext]
    exact hBooked.fresh s p (hOld s p hp).1
  · rw [hLocked]
    exact hBooked.keys
  · intro p hp
    rw [hLocked] at hp
    obtain ⟨s, b, e, hHandle, hEntry⟩ := hBooked.bound p hp
    refine ⟨s, b, e, hHandle, hKept s b e hEntry ?_⟩
    have hSome : 0 < t.handles b := List.countP_pos_iff.mpr ⟨p, hp, decide_eq_true hHandle⟩
    omega
  · intro s b e hp
    rw [hHandles]
    obtain ⟨hIn, rfl | hOther⟩ := hOld s (b, e) hp
    · exact hBooked.entries s b e hIn
    · exact hBooked.other hIn hOther hOnly hOnly'

/-- The entry is removed, which nobody reads, and with it what the call has locked. -/
theorem clear (hBooked : Booked h t) {s i a : Nat} {e : CacheEntry} (hCell : (t.slots s)[i]? = some (some (a, e)))
    (hNone : e.readers = 0) (hOnly : h.Only a) : Booked .nothing (clearCell s i (subtract e t)) := by
  have hIn : some (a, e) ∈ t.slots s := List.mem_of_getElem? hCell
  have hFree : t.handles a = 0 := by
    have hReaders := (hBooked.entries s a e hIn).readers
    omega
  obtain ⟨n, hSubtract⟩ : ∃ n, subtract e t = { t with currentSize := n } := ⟨_, rfl⟩
  rw [hSubtract]
  have hSlots : ∀ s' p, some p ∈ (clearCell s i { t with currentSize := n }).slots s' ↔
      some p ∈ t.slots s' ∧ p.1 ≠ a := by
    intro s' p
    change some p ∈ Function.update t.slots s ((t.slots s).set i none) s' ↔ _
    rcases eq_or_ne s' s with rfl | hOther
    · rw [Function.update_self]
      exact mem_cleared (hBooked.apart s') hCell p
    · rw [Function.update_of_ne hOther]
      constructor
      · intro hp
        refine ⟨hp, fun hSame => hOther ?_⟩
        exact hBooked.across s' s p (a, e) hp hIn hSame
      · exact And.left
  refine hBooked.shrink rfl rfl ?_ ?_ ?_ hOnly (Holding.only_nothing a)
  · intro s'
    change (Function.update t.slots s ((t.slots s).set i none) s').Pairwise _
    rcases eq_or_ne s' s with rfl | hOther
    · rw [Function.update_self]
      exact pairwise_clear DistinctAddress.left_none DistinctAddress.right_none (hBooked.apart s') i
    · rw [Function.update_of_ne hOther]
      exact hBooked.apart s'
  · intro s' p hp
    obtain ⟨hOld, hOther⟩ := (hSlots s' p).mp hp
    exact ⟨hOld, .inr hOther⟩
  · intro s' b e' hp hSome
    refine (hSlots s' (b, e')).mpr ⟨hp, ?_⟩
    rintro rfl
    exact hSome hFree

theorem eraseNulls (hBooked : Booked .nothing t) (s : Nat) : Booked .nothing (eraseNulls s t) := by
  have hSlots : ∀ s' (p : Nat × CacheEntry),
      some p ∈ (HTTPCacheTable.eraseNulls s t).slots s' ↔ some p ∈ t.slots s' := by
    intro s' p
    change some p ∈ Function.update t.slots s ((t.slots s).filter Option.isSome) s' ↔ _
    rcases eq_or_ne s' s with rfl | hOther
    · rw [Function.update_self, List.mem_filter]
      exact and_iff_left rfl
    · rw [Function.update_of_ne hOther]
  refine hBooked.shrink (a := 0) rfl rfl ?_ ?_ ?_ (Holding.only_nothing 0) (Holding.only_nothing 0)
  · intro s'
    change (Function.update t.slots s ((t.slots s).filter Option.isSome) s').Pairwise _
    rcases eq_or_ne s' s with rfl | hOther
    · rw [Function.update_self]
      exact (hBooked.apart s').filter _
    · rw [Function.update_of_ne hOther]
      exact hBooked.apart s'
  · intro s' p hp
    exact ⟨(hSlots s' p).mp hp, .inl rfl⟩
  · intro s' b e hp _
    exact (hSlots s' (b, e)).mpr hp

theorem newEntries (hBooked : Booked h t) (n : Int) : Booked h { t with newEntries := n } :=
  ⟨hBooked.apart, hBooked.across, hBooked.fresh, hBooked.keys, hBooked.bound, hBooked.entries⟩

/-- A new entry, of which there are no handles. -/
theorem push (hBooked : Booked .nothing t) {e : CacheEntry} (hOnly : h.Only t.nextAddress)
    (hNew : Accounted 0 (h.reads t.nextAddress) (h.writes t.nextAddress) e) : Booked h (push e t) := by
  have hMem : ∀ (s : Nat) (p : Nat × CacheEntry), some p ∈ (HTTPCacheTable.push e t).slots s ↔
      some p ∈ t.slots s ∨ s = e.hash.toNat ∧ p = (t.nextAddress, e) := by
    intro s p
    change some p ∈ Function.update t.slots e.hash.toNat _ s ↔ _
    rcases eq_or_ne s e.hash.toNat with rfl | hOther
    · rw [Function.update_self, List.mem_append, List.mem_singleton, Option.some.injEq]
      simp only [true_and]
    · rw [Function.update_of_ne hOther]
      simp only [hOther, false_and, or_false]
  have hFree : t.handles t.nextAddress = 0 := by
    apply List.countP_eq_zero.mpr
    intro p hp hHandle
    obtain ⟨s, a, e', hEntry, hIn⟩ := hBooked.bound p hp
    have hSame : a = t.nextAddress := Option.some.inj (hEntry.symm.trans (of_decide_eq_true hHandle))
    exact absurd (hBooked.fresh s _ hIn) (by omega)
  constructor
  · intro s
    change (Function.update t.slots e.hash.toNat _ s).Pairwise _
    rcases eq_or_ne s e.hash.toNat with rfl | hOther
    · rw [Function.update_self]
      refine List.pairwise_append.mpr ⟨hBooked.apart _, List.pairwise_singleton _ _, ?_⟩
      rintro c hc _ hc' p p' rfl hp'
      rw [List.mem_singleton.mp hc'] at hp'
      cases hp'
      exact (hBooked.fresh _ p hc).ne
    · rw [Function.update_of_ne hOther]
      exact hBooked.apart s
  · intro s s' p p' hp hp' hAddress
    rcases (hMem s p).mp hp with hOld | ⟨rfl, rfl⟩
    · rcases (hMem s' p').mp hp' with hOld' | ⟨rfl, rfl⟩
      · exact hBooked.across s s' p p' hOld hOld' hAddress
      · exact absurd hAddress (hBooked.fresh s p hOld).ne
    · rcases (hMem s' p').mp hp' with hOld' | ⟨rfl, rfl⟩
      · exact absurd hAddress (hBooked.fresh s' p' hOld').ne'
      · rfl
  · intro s p hp
    rcases (hMem s p).mp hp with hOld | ⟨rfl, rfl⟩
    · exact (hBooked.fresh s p hOld).trans (Nat.lt_succ_self _)
    · exact Nat.lt_succ_self _
  · exact hBooked.keys
  · intro p hp
    obtain ⟨s, a, e', hHandle, hIn⟩ := hBooked.bound p hp
    exact ⟨s, a, e', hHandle, (hMem s (a, e')).mpr (.inl hIn)⟩
  · intro s a e' hp
    rcases (hMem s (a, e')).mp hp with hOld | ⟨-, hPair⟩
    · have hOther : a ≠ t.nextAddress := (hBooked.fresh s _ hOld).ne
      exact hBooked.other hOld hOther (Holding.only_nothing _) hOnly
    · cases hPair
      have hNone : (HTTPCacheTable.push e t).handles t.nextAddress = 0 := hFree
      rw [hNone]
      exact hNew

end Booked

/-! ## Handles -/

/-- Without a key there is one less of those that its value is one of. -/
theorem countP_key {α β : Type} [DecidableEq α] (q : α × β → Bool) {l : List (α × β)} (hKeys : (l.map Prod.fst).Nodup)
    {k : α} {v : β} (hIn : (k, v) ∈ l) :
    l.countP q = (l.filter fun p => p.1 ≠ k).countP q + (q (k, v)).toNat := by
  induction l with
  | nil => cases hIn
  | cons p l ih =>
    rw [List.map_cons, List.nodup_cons] at hKeys
    obtain ⟨hNew, hKeys⟩ := hKeys
    rcases List.mem_cons.mp hIn with rfl | hIn
    · have hRest : (l.filter fun p => p.1 ≠ k) = l := by
        apply List.filter_eq_self.mpr
        intro p hp
        have hOther : p.1 ≠ k := fun hSame => hNew (List.mem_map.mpr ⟨p, hp, hSame⟩)
        simpa using hOther
      have hDropped : (((k, v) :: l).filter fun p => p.1 ≠ k) = l.filter fun p => p.1 ≠ k :=
        List.filter_cons_of_neg (by simp)
      rw [hDropped, hRest, List.countP_cons]
      cases q (k, v) <;> rfl
    · have hOther : p.1 ≠ k := by
        intro hSame
        exact hNew (List.mem_map.mpr ⟨(k, v), hIn, hSame.symm⟩)
      have hTaken : ((p :: l).filter fun p => p.1 ≠ k) = p :: l.filter fun p => p.1 ≠ k :=
        List.filter_cons_of_pos (by simpa using hOther)
      rw [hTaken, List.countP_cons, List.countP_cons, ih hKeys hIn]
      omega

namespace Booked

variable {t : HTTPCacheTable} {a body : Nat}

/-- The call in progress binds what it reads to a handle. -/
theorem bindHandle (hBooked : Booked (.reading a) t) (hIn : ∃ s e, some (a, e) ∈ t.slots s)
    (hNew : ∀ p ∈ t.lockedEntries, p.1 ≠ body) :
    Booked .nothing
      { t with lockedEntries := (body, some a) :: t.lockedEntries.filter fun p => p.1 ≠ body } := by
  have hAll : (t.lockedEntries.filter fun p => p.1 ≠ body) = t.lockedEntries :=
    List.filter_eq_self.mpr fun p hp => decide_eq_true (hNew p hp)
  rw [hAll]
  refine ⟨hBooked.apart, hBooked.across, hBooked.fresh, ?_, ?_, ?_⟩
  · refine List.nodup_cons.mpr ⟨?_, hBooked.keys⟩
    intro hKey
    obtain ⟨p, hp, hSame⟩ := List.mem_map.mp hKey
    exact hNew p hp hSame
  · intro p hp
    rcases List.mem_cons.mp hp with rfl | hp
    · obtain ⟨s, e, hEntry⟩ := hIn
      exact ⟨s, a, e, rfl, hEntry⟩
    · exact hBooked.bound p hp
  · intro s b e hp
    have hEntry := hBooked.entries s b e hp
    have hCount : handles { t with lockedEntries := (body, some a) :: t.lockedEntries } b =
        t.handles b + (decide (some a = some b)).toNat := by
      rw [handles, List.countP_cons, ← handles]
      cases decide (some a = some b) <;> rfl
    have hReads : (Holding.reading a).reads b = decide (some a = some b) := by simp [Holding.reads]
    refine ⟨?_, hEntry.writeLock, hEntry.responseLock, hEntry.alone⟩
    rw [hEntry.readers, hCount, hReads]
    push_cast
    rfl

/-- The call in progress takes a handle off, and reads the entry until it unlocks it. -/
theorem dropHandle (hBooked : Booked .nothing t) (hIn : (body, some a) ∈ t.lockedEntries) :
    Booked (.reading a) { t with lockedEntries := t.lockedEntries.filter fun p => p.1 ≠ body } := by
  refine ⟨hBooked.apart, hBooked.across, hBooked.fresh, ?_, ?_, ?_⟩
  · exact hBooked.keys.sublist (List.filter_sublist.map _)
  · intro p hp
    exact hBooked.bound p (List.mem_filter.mp hp).1
  · intro s b e hp
    have hEntry := hBooked.entries s b e hp
    have hCount : t.handles b = handles { t with lockedEntries := t.lockedEntries.filter fun p => p.1 ≠ body } b +
        (decide (some a = some b)).toNat := countP_key (fun p => decide (p.2 = some b)) hBooked.keys hIn
    have hReads : (Holding.reading a).reads b = decide (some a = some b) := by simp [Holding.reads]
    refine ⟨?_, hEntry.writeLock, hEntry.responseLock, hEntry.alone⟩
    rw [hEntry.readers, hReads, hCount]
    push_cast
    rfl

end Booked

end Libdap.Http
