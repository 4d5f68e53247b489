import Libdap.Http.CacheTable
import Mathlib.Algebra.BigOperators.Group.List.Basic

/-! # Garbage collection

The expired entries go first, then the large ones, then those with no hits, with at most one, and so on, until the
cache is small enough. An entry that somebody reads stays.
-/

namespace Libdap.Http
open Core Constraint HTTPCacheTable
set_option autoImplicit false

/-- What the collection looks at. The sizes are of the type `unsigned long`. -/
structure HTTPCache where
  table : HTTPCacheTable
  expireIgnored : Bool
  totalSize : Nat
  folderSize : Nat
  gcBuffer : Nat
  maxEntrySize : Nat

def HTTPCache.stopGC (c : HTTPCache) : Bool :=
  uint64 (c.table.currentSize + c.folderSize) < uint64 (c.totalSize - c.gcBuffer)

def HTTPCache.startGC (c : HTTPCache) : Bool :=
  uint64 (c.table.currentSize + c.folderSize) > c.totalSize

def onTable (x : Call HTTPCacheTable Unit) : Call HTTPCache Unit :=
  Call.on HTTPCache.table (fun c t => { c with table := t }) x

def expiredGc (now : Int) : Call HTTPCache Unit := do
  let c ← get
  if c.expireIgnored then pure () else onTable (deleteExpiredEntries now 0)

/-- `delete_by_size` takes an `unsigned int`. -/
def tooBigGc : Call HTTPCache Unit := do
  let c ← get
  if c.startGC then onTable (deleteBySize (uint32 c.maxEntrySize)) else pure ()

/-- The loop of `hits_gc`, for so many more values of the `int`; an overflow of it has no meaning. -/
def hitsLoop : Nat → Int → Call HTTPCache Unit
  | 0, _ => throw .undefined
  | turns + 1, hits => do
    let c ← get
    if c.stopGC then pure ()
    else do
      onTable (deleteByHits hits)
      hitsLoop turns (hits + 1)

def hitsGc : Call HTTPCache Unit := do
  let c ← get
  if c.startGC then hitsLoop 2147483648 0 else pure ()

def performGarbageCollection (now : Int) : Call HTTPCache Unit := do
  expiredGc now
  tooBigGc
  hitsGc

/-! ## A sweep -/

namespace HTTPCacheTable

variable {chosen : CacheEntry → Bool}

def cellFreed (chosen : CacheEntry → Bool) (blockSize : Nat) : Cell → Nat
  | none => 0
  | some p => if chosen p.2 then uint32 (entryDiskSpace p.2.size blockSize) else 0

def slotFreed (chosen : CacheEntry → Bool) (blockSize : Nat) (cells : List Cell) : Nat :=
  (cells.map (cellFreed chosen blockSize)).sum

def kept (chosen : CacheEntry → Bool) (c : Cell) : Bool := c.any fun p => !chosen p.2

/-- The table without the chosen entries of these slots. -/
def sweptOf (chosen : CacheEntry → Bool) (ss : List Nat) (t : HTTPCacheTable) : HTTPCacheTable :=
  { t with
    slots := fun s => if s ∈ ss then (t.slots s).filter (kept chosen) else t.slots s
    currentSize := t.currentSize - (ss.map fun s => slotFreed chosen t.blockSize (t.slots s)).sum }

/-- The table without the chosen entries. -/
def without (chosen : CacheEntry → Bool) (t : HTTPCacheTable) : HTTPCacheTable :=
  sweptOf chosen (List.range CACHE_TABLE_SIZE) t

theorem sweptOf_blockSize (chosen : CacheEntry → Bool) (ss : List Nat) (t : HTTPCacheTable) :
    (sweptOf chosen ss t).blockSize = t.blockSize := rfl

theorem subtract_eq (e : CacheEntry) (t : HTTPCacheTable) :
    subtract e t = { t with currentSize := t.currentSize - uint32 (entryDiskSpace e.size t.blockSize) } := by
  rw [subtract]
  split
  · rename_i hMore
    rw [Nat.sub_eq_zero_of_le (Nat.le_of_lt hMore)]
  · rfl

theorem removeCacheEntry_eq {e : CacheEntry} {t : HTTPCacheTable} (hReaders : e.readers = 0)
    (hBlock : t.blockSize ≠ 0) :
    removeCacheEntry e t = .ok () (subtract e t) := by
  change (if e.readers ≠ 0 then throw entryInUse
    else if t.blockSize = 0 then throw .undefined else modify (subtract e) : Call HTTPCacheTable Unit) t = _
  rw [if_neg (not_not.mpr hReaders), if_neg hBlock]
  rfl

/-- A cell after the functor. -/
def cleared (chosen : CacheEntry → Bool) : Cell → Cell
  | none => none
  | some p => if chosen p.2 then none else some p

/-- The cells of a slot have been looked at. -/
def setCells (s : Nat) (cells : List Cell) (freed : Nat) (t : HTTPCacheTable) : HTTPCacheTable :=
  { setSlot s cells t with currentSize := t.currentSize - freed }

theorem setCells_self (s : Nat) (t : HTTPCacheTable) : setCells s (t.slots s) 0 t = t := by
  rw [setCells, setSlot, Function.update_eq_self]
  rfl

theorem setCells_slot (s : Nat) (cells : List Cell) (freed : Nat) (t : HTTPCacheTable) :
    (setCells s cells freed t).slots s = cells := by
  simp only [setCells, setSlot, Function.update_self]

theorem setCells_setCells (s : Nat) (cells cells' : List Cell) (freed freed' : Nat) (t : HTTPCacheTable) :
    setCells s cells' freed' (setCells s cells freed t) = setCells s cells' (freed + freed') t := by
  simp only [setCells, setSlot, Function.update_idem, Nat.sub_sub]

theorem applyFunctor_eq (hReaders : ∀ e, chosen e = true → e.readers = 0) {s : Nat} {t : HTTPCacheTable}
    (hBlock : t.blockSize ≠ 0) {front back : List Cell} {c : Cell} (hSlot : t.slots s = front ++ c :: back) :
    applyFunctor ⟨chosen, false⟩ s front.length t =
      .ok () (setCells s (front ++ cleared chosen c :: back) (cellFreed chosen t.blockSize c) t) := by
  have hCell : (t.slots s)[front.length]?.join = c := by
    rw [hSlot, List.getElem?_append_right (Nat.le_refl _), Nat.sub_self]
    rfl
  have hGet : (get : Call HTTPCacheTable HTTPCacheTable) t = .ok t t := rfl
  rw [applyFunctor, Call.bind_of_ok hGet, hCell]
  cases c with
  | none =>
    rw [cleared, cellFreed, ← hSlot, setCells_self]
    rfl
  | some p =>
    dsimp only
    by_cases hChosen : chosen p.2 = true
    · have hRemove := removeCacheEntry_eq (hReaders p.2 hChosen) hBlock
      rw [if_pos hChosen, cleared, if_pos hChosen, cellFreed, if_pos hChosen, removeCell, if_neg Bool.false_ne_true,
        Call.bind_of_ok hRemove]
      change EStateM.Result.ok () (clearCell s front.length (subtract p.2 t)) = _
      rw [subtract_eq, clearCell, hSlot, List.set_append_right _ _ (Nat.le_refl _), Nat.sub_self]
      rfl
    · rw [if_neg hChosen, cleared, if_neg hChosen, cellFreed, if_neg hChosen, ← hSlot, setCells_self]
      rfl

theorem forEach_eq (hReaders : ∀ e, chosen e = true → e.readers = 0) {s : Nat} (back : List Cell) {t : HTTPCacheTable}
    (hBlock : t.blockSize ≠ 0) {front : List Cell} (hSlot : t.slots s = front ++ back) :
    forEach ⟨chosen, false⟩ s back.length front.length t =
      .ok () (setCells s (front ++ back.map (cleared chosen)) (slotFreed chosen t.blockSize back) t) := by
  induction back generalizing t front with
  | nil =>
    rw [List.map_nil, ← hSlot, slotFreed, List.map_nil, List.sum_nil, setCells_self]
    rfl
  | cons c back ih =>
    rw [List.length_cons, forEach, Call.bind_of_ok (applyFunctor_eq hReaders hBlock hSlot)]
    have hNext : (setCells s (front ++ cleared chosen c :: back) (cellFreed chosen t.blockSize c) t).slots s =
        (front ++ [cleared chosen c]) ++ back := by
      rw [setCells_slot, List.append_assoc]
      rfl
    have hRest := ih (t := setCells s _ _ t) hBlock hNext
    rw [List.length_append, List.length_singleton] at hRest
    rw [hRest, setCells_setCells, List.append_assoc]
    rfl

theorem cleared_filter (cells : List Cell) :
    (cells.map (cleared chosen)).filter Option.isSome = cells.filter (kept chosen) := by
  induction cells with
  | nil => rfl
  | cons c cells ih =>
    rw [List.map_cons, List.filter_cons, List.filter_cons, ih]
    cases c with
    | none => rfl
    | some p =>
      by_cases hChosen : chosen p.2 = true
      · simp [cleared, kept, hChosen]
      · simp [cleared, kept, hChosen]

theorem sweepSlot_eq (hReaders : ∀ e, chosen e = true → e.readers = 0) (s : Nat) {t : HTTPCacheTable}
    (hBlock : t.blockSize ≠ 0) : sweepSlot ⟨chosen, false⟩ s t = .ok () (sweptOf chosen [s] t) := by
  have hEach := forEach_eq hReaders (t.slots s) hBlock (show t.slots s = [] ++ t.slots s from rfl)
  rw [List.length_nil, List.nil_append] at hEach
  change (forEach ⟨chosen, false⟩ s (t.slots s).length 0 >>= fun _ => modify (eraseNulls s)) t = _
  rw [Call.bind_of_ok hEach]
  change EStateM.Result.ok () (eraseNulls s (setCells s _ _ t)) = _
  rw [eraseNulls, setCells_slot, cleared_filter]
  have hSlots : Function.update t.slots s ((t.slots s).filter (kept chosen)) =
      fun s' => if s' ∈ [s] then (t.slots s').filter (kept chosen) else t.slots s' := by
    funext s'
    rcases eq_or_ne s' s with rfl | hOther
    · simp
    · simp [hOther]
  simp only [setSlot, setCells, Function.update_idem, hSlots]
  rfl

theorem slotFreed_filter (chosen : CacheEntry → Bool) (blockSize : Nat) (cells : List Cell) {later : CacheEntry → Bool}
    (h : ∀ e, chosen e = true → later e = true) :
    slotFreed later blockSize cells =
      slotFreed chosen blockSize cells + slotFreed later blockSize (cells.filter (kept chosen)) := by
  induction cells with
  | nil => rfl
  | cons c cells ih =>
    have hCons : ∀ (p : CacheEntry → Bool) (c : Cell) (cs : List Cell),
        slotFreed p blockSize (c :: cs) = cellFreed p blockSize c + slotFreed p blockSize cs := by
      intro p c cs
      rw [slotFreed, List.map_cons, List.sum_cons, ← slotFreed]
    rw [hCons, hCons, ih, List.filter_cons]
    cases c with
    | none => simp [cellFreed, kept]
    | some p =>
      by_cases hChosen : chosen p.2 = true
      · simp [cellFreed, kept, hChosen, h p.2 hChosen]
        omega
      · simp [cellFreed, kept, hChosen, hCons]
        omega

theorem kept_filter {chosen later : CacheEntry → Bool} (h : ∀ e, chosen e = true → later e = true)
    (cells : List Cell) : (cells.filter (kept chosen)).filter (kept later) = cells.filter (kept later) := by
  rw [List.filter_filter]
  apply List.filter_congr
  intro c _
  cases c with
  | none => rfl
  | some p =>
    by_cases hChosen : chosen p.2 = true
    · simp [kept, hChosen, h p.2 hChosen]
    · simp [kept, hChosen]

/-- What a sweep changes. -/
theorem eq_of_slots_size {t t' : HTTPCacheTable} {slots : Nat → List Cell} {n : Nat}
    (h : t' = { t with slots := slots, currentSize := n }) {t'' : HTTPCacheTable} {slots' : Nat → List Cell} {n' : Nat}
    (h' : t'' = { t with slots := slots', currentSize := n' }) (hSlots : ∀ s, slots s = slots' s) (hSize : n = n') :
    t' = t'' := by
  rw [h, h', funext hSlots, hSize]

/-- What goes now need not go later. -/
theorem sweptOf_sweptOf {chosen later : CacheEntry → Bool} (h : ∀ e, chosen e = true → later e = true) (ss : List Nat)
    (t : HTTPCacheTable) : sweptOf later ss (sweptOf chosen ss t) = sweptOf later ss t := by
  have hSlots : ∀ s, (sweptOf later ss (sweptOf chosen ss t)).slots s = (sweptOf later ss t).slots s := by
    intro s
    simp only [sweptOf]
    by_cases hs : s ∈ ss
    · rw [if_pos hs, if_pos hs, if_pos hs, kept_filter h]
    · rw [if_neg hs, if_neg hs, if_neg hs]
  have hFreed : ∀ ss' : List Nat, (∀ s ∈ ss', s ∈ ss) →
      (ss'.map fun s => slotFreed later t.blockSize (t.slots s)).sum =
        (ss'.map fun s => slotFreed chosen t.blockSize (t.slots s)).sum +
          (ss'.map fun s => slotFreed later t.blockSize ((sweptOf chosen ss t).slots s)).sum := by
    intro ss'
    induction ss' with
    | nil => exact fun _ => rfl
    | cons s ss' ih =>
      intro hAll
      have hHere : (sweptOf chosen ss t).slots s = (t.slots s).filter (kept chosen) :=
          if_pos (hAll s List.mem_cons_self)
      rw [List.map_cons, List.sum_cons, List.map_cons, List.sum_cons, List.map_cons, List.sum_cons,
        ih fun s' hs' => hAll s' (List.mem_cons_of_mem s hs'), hHere,
        slotFreed_filter chosen t.blockSize (t.slots s) h]
      omega
  apply eq_of_slots_size (t := t) rfl rfl hSlots
  rw [hFreed ss fun _ hs => hs, ← Nat.sub_sub]
  rfl

theorem sweepSlots_eq (hReaders : ∀ e, chosen e = true → e.readers = 0) {ss : List Nat} (hss : ss.Nodup)
    {t : HTTPCacheTable} (hBlock : t.blockSize ≠ 0) :
    sweepSlots ⟨chosen, false⟩ ss t = .ok () (sweptOf chosen ss t) := by
  induction ss generalizing t with
  | nil =>
    simp [sweepSlots, sweptOf]
    rfl
  | cons s ss ih =>
    obtain ⟨hNew, hRest⟩ := List.nodup_cons.mp hss
    rw [sweepSlots, Call.bind_of_ok (sweepSlot_eq hReaders s hBlock), ih hRest (t := sweptOf chosen [s] t) hBlock]
    congr 1
    have hSlots : ∀ s', (if s' ∈ ss then ((sweptOf chosen [s] t).slots s').filter (kept chosen)
        else (sweptOf chosen [s] t).slots s') = (sweptOf chosen (s :: ss) t).slots s' := by
      intro s'
      rcases eq_or_ne s' s with rfl | hOther
      · simp [sweptOf, hNew]
      · simp [sweptOf, hOther]
    have hFreed : (ss.map fun s' => slotFreed chosen t.blockSize ((sweptOf chosen [s] t).slots s')) =
        ss.map fun s' => slotFreed chosen t.blockSize (t.slots s') := by
      apply List.map_congr_left
      intro s' hs'
      have hOther : s' ≠ s := fun h => hNew (h ▸ hs')
      simp [sweptOf, hOther]
    have hSize : (sweptOf chosen [s] t).currentSize - (ss.map fun s' => slotFreed chosen t.blockSize
        ((sweptOf chosen [s] t).slots s')).sum = (sweptOf chosen (s :: ss) t).currentSize := by
      rw [hFreed]
      simp only [sweptOf, List.map_cons, List.map_nil, List.sum_cons, List.sum_nil, Nat.add_zero, Nat.sub_sub]
    exact eq_of_slots_size (t := t) rfl rfl hSlots hSize

theorem sweep_eq (hReaders : ∀ e, chosen e = true → e.readers = 0) {t : HTTPCacheTable} (hBlock : t.blockSize ≠ 0) :
    sweep ⟨chosen, false⟩ t = .ok () (t.without chosen) := by
  rw [sweep, without]
  exact sweepSlots_eq hReaders List.nodup_range hBlock

theorem without_keeps (hReaders : ∀ e, chosen e = true → e.readers = 0) {t : HTTPCacheTable} {s : Nat} {a : Nat}
    {e : CacheEntry} (hIn : some (a, e) ∈ t.slots s) (hLocked : e.readers ≠ 0) :
    some (a, e) ∈ (t.without chosen).slots s := by
  have hNot : chosen e = false := by
    rw [← Bool.not_eq_true]
    exact fun h => hLocked (hReaders e h)
  simp only [without, sweptOf]
  split
  · exact List.mem_filter.mpr ⟨hIn, by simp [kept, hNot]⟩
  · exact hIn

theorem without_slots {t : HTTPCacheTable} {s : Nat} {c : Cell} (h : c ∈ (t.without chosen).slots s) :
    c ∈ t.slots s := by
  simp only [without, sweptOf] at h
  split at h
  · exact (List.mem_filter.mp h).1
  · exact h

/-- Nothing is freed where everything is locked. -/
theorem without_size (hReaders : ∀ e, chosen e = true → e.readers = 0) {t : HTTPCacheTable}
    (hLocked : ∀ s a e, some (a, e) ∈ t.slots s → e.readers ≠ 0) : (t.without chosen).currentSize = t.currentSize := by
  have hCell : ∀ s, ∀ c ∈ t.slots s, cellFreed chosen t.blockSize c = 0 := by
    rintro s (_ | ⟨a, e⟩) hc
    · rfl
    · exact if_neg fun h => hLocked s a e hc (hReaders e h)
  have hSlot : ∀ s, slotFreed chosen t.blockSize (t.slots s) = 0 := by
    intro s
    apply List.sum_eq_zero
    rintro n hn
    obtain ⟨c, hc, rfl⟩ := List.mem_map.mp hn
    exact hCell s c hc
  have hSum : ((List.range CACHE_TABLE_SIZE).map fun s => slotFreed chosen t.blockSize (t.slots s)).sum = 0 := by
    apply List.sum_eq_zero
    rintro n hn
    obtain ⟨s, -, rfl⟩ := List.mem_map.mp hn
    exact hSlot s
  change t.currentSize - _ = _
  rw [hSum, Nat.sub_zero]

end HTTPCacheTable

/-! ## The collection -/

namespace HTTPCache

def without (chosen : CacheEntry → Bool) (c : HTTPCache) : HTTPCache := { c with table := c.table.without chosen }

def upToHits (hits : Int) (e : CacheEntry) : Bool := e.readers = 0 && e.hits ≤ hits

def largerThan (size : Nat) (e : CacheEntry) : Bool := e.readers = 0 && size < e.size

/-- The cache without the expired entries that nobody reads. -/
def fresh (now : Int) (c : HTTPCache) : HTTPCache :=
  if c.expireIgnored then c else c.without (expiredAt now).chosen

/-- If the cache is full, it is left without the large entries that nobody reads. -/
def small (c : HTTPCache) : HTTPCache :=
  if c.startGC then c.without (largerThan (uint32 c.maxEntrySize)) else c

/-- The cache without the entries that nobody reads and that have fewer hits. -/
def withHits (c : HTTPCache) : Nat → HTTPCache
  | 0 => c
  | k + 1 => c.without (upToHits k)

/-- Without what may be removed, for some number of hits, the cache is small enough. -/
def Fits (now : Int) (c : HTTPCache) : Prop :=
  (c.fresh now).small.startGC = true → ∃ k < 2147483648, ((c.fresh now).small.withHits k).stopGC = true

theorem upToHits_readers {hits : Int} {e : CacheEntry} (h : upToHits hits e = true) : e.readers = 0 := by
  rw [upToHits, Bool.and_eq_true] at h
  exact of_decide_eq_true h.1

theorem largerThan_readers {size : Nat} {e : CacheEntry} (h : largerThan size e = true) : e.readers = 0 := by
  rw [largerThan, Bool.and_eq_true] at h
  exact of_decide_eq_true h.1

theorem expiredAt_readers {now : Int} {e : CacheEntry} (h : (expiredAt now).chosen e = true) : e.readers = 0 := by
  rw [expiredAt, Bool.and_eq_true] at h
  exact of_decide_eq_true h.1

theorem onTable_sweep {chosen : CacheEntry → Bool} (hReaders : ∀ e, chosen e = true → e.readers = 0) {c : HTTPCache}
    (hBlock : c.table.blockSize ≠ 0) : onTable (sweep ⟨chosen, false⟩) c = .ok () (c.without chosen) := by
  rw [onTable, Call.on_ok]
  exact ⟨_, sweep_eq hReaders hBlock, rfl⟩

theorem expiredGc_eq (now : Int) {c : HTTPCache} (hBlock : c.table.blockSize ≠ 0) :
    expiredGc now c = .ok () (c.fresh now) := by
  change (if c.expireIgnored then pure () else onTable (deleteExpiredEntries now 0)) c = _
  rw [fresh]
  split
  · rfl
  · exact onTable_sweep (fun _ h => expiredAt_readers h) hBlock

theorem tooBigGc_eq {c : HTTPCache} (hBlock : c.table.blockSize ≠ 0) : tooBigGc c = .ok () c.small := by
  change (if c.startGC then onTable (deleteBySize (uint32 c.maxEntrySize)) else pure ()) c = _
  rw [small]
  split
  · exact onTable_sweep (fun _ h => largerThan_readers h) hBlock
  · rfl

theorem without_blockSize (chosen : CacheEntry → Bool) (c : HTTPCache) :
    (c.without chosen).table.blockSize = c.table.blockSize := sweptOf_blockSize chosen _ c.table

theorem fresh_blockSize (now : Int) (c : HTTPCache) : (c.fresh now).table.blockSize = c.table.blockSize := by
  rw [fresh]
  split
  · rfl
  · exact without_blockSize _ c

theorem small_blockSize (c : HTTPCache) : c.small.table.blockSize = c.table.blockSize := by
  rw [small]
  split
  · exact without_blockSize _ c
  · rfl

theorem withHits_blockSize (c : HTTPCache) (k : Nat) : (c.withHits k).table.blockSize = c.table.blockSize := by
  cases k with
  | zero => rfl
  | succ k => exact without_blockSize _ c

/-- One turn. -/
theorem withHits_succ (c : HTTPCache) (k : Nat) : (c.withHits k).without (upToHits k) = c.withHits (k + 1) := by
  cases k with
  | zero => rfl
  | succ k =>
    have hMore : ∀ e, upToHits k e = true → upToHits (k + 1 : Nat) e = true := by
      intro e he
      rw [upToHits, Bool.and_eq_true, decide_eq_true_iff, decide_eq_true_iff] at he ⊢
      exact ⟨he.1, by omega⟩
    rw [withHits, withHits, without, without, without, HTTPCacheTable.without, HTTPCacheTable.without,
      sweptOf_sweptOf hMore]
    rfl

theorem hitsLoop_succ {c : HTTPCache} (hBlock : c.table.blockSize ≠ 0) (turns k : Nat) :
    hitsLoop (turns + 1) k (c.withHits k) =
      if (c.withHits k).stopGC then .ok () (c.withHits k) else hitsLoop turns (k + 1 : Nat) (c.withHits (k + 1)) := by
  change (if (c.withHits k).stopGC then pure () else (onTable (deleteByHits k) >>= fun _ => hitsLoop turns (k + 1)))
    (c.withHits k) = _
  split
  · rfl
  · have hSweep : onTable (deleteByHits k) (c.withHits k) = .ok () ((c.withHits k).without (upToHits k)) :=
      onTable_sweep (fun _ h => upToHits_readers h) ((withHits_blockSize c k).trans_ne hBlock)
    rw [Call.bind_of_ok hSweep, withHits_succ]
    rfl

/-- The loop returns when the cache is small enough. -/
theorem hitsLoop_stops {c c' : HTTPCache} (hBlock : c.table.blockSize ≠ 0) (turns k : Nat)
    (h : hitsLoop turns k (c.withHits k) = .ok () c') : ∃ j < k + turns, c' = c.withHits j ∧ c'.stopGC = true := by
  induction turns generalizing k with
  | zero => cases h
  | succ turns ih =>
    rw [hitsLoop_succ hBlock] at h
    split at h
    · rename_i hStop
      cases h
      exact ⟨k, by omega, rfl, hStop⟩
    · obtain ⟨j, hj, hCache⟩ := ih (k + 1) h
      exact ⟨j, by omega, hCache⟩

theorem hitsLoop_returns {c : HTTPCache} (hBlock : c.table.blockSize ≠ 0) (turns k : Nat) {j : Nat} (hk : k ≤ j)
    (hj : j < k + turns) (hStop : (c.withHits j).stopGC = true) :
    ∃ c', hitsLoop turns k (c.withHits k) = .ok () c' := by
  induction turns generalizing k with
  | zero => omega
  | succ turns ih =>
    rw [hitsLoop_succ hBlock]
    split
    · exact ⟨_, rfl⟩
    · rename_i hNot
      have hOther : k ≠ j := by
        rintro rfl
        exact hNot hStop
      exact ih (k + 1) (by omega) (by omega)

theorem entered_eq (now : Int) {c : HTTPCache} (hBlock : c.table.blockSize ≠ 0) :
    (do expiredGc now; tooBigGc : Call HTTPCache Unit) c = .ok () (c.fresh now).small := by
  rw [Call.bind_of_ok (expiredGc_eq now hBlock)]
  exact tooBigGc_eq ((fresh_blockSize now c).trans_ne hBlock)

theorem performGarbageCollection_eq (now : Int) {c : HTTPCache} (hBlock : c.table.blockSize ≠ 0) :
    performGarbageCollection now c =
      if (c.fresh now).small.startGC then hitsLoop 2147483648 0 (c.fresh now).small else .ok ()
        (c.fresh now).small := by
  rw [performGarbageCollection, Call.bind_of_ok (expiredGc_eq now hBlock),
    Call.bind_of_ok (tooBigGc_eq ((fresh_blockSize now c).trans_ne hBlock))]
  change (if (c.fresh now).small.startGC then hitsLoop 2147483648 0 else pure ()) (c.fresh now).small = _
  split <;> rfl

/-- The collection returns only when there is nothing to do or enough has gone. -/
theorem performGarbageCollection_ok {now : Int} {c c' : HTTPCache} (hBlock : c.table.blockSize ≠ 0)
    (h : performGarbageCollection now c = .ok () c') :
    (c.fresh now).small.startGC = false ∧ c' = (c.fresh now).small ∨
      ∃ k < 2147483648, c' = (c.fresh now).small.withHits k ∧ c'.stopGC = true := by
  have hSmall : (c.fresh now).small.table.blockSize ≠ 0 := by
    rw [small_blockSize, fresh_blockSize]
    exact hBlock
  rw [performGarbageCollection_eq now hBlock] at h
  split at h
  · obtain ⟨j, hj, hCache⟩ := hitsLoop_stops hSmall 2147483648 0 h
    exact .inr ⟨j, by omega, hCache⟩
  · rename_i hNot
    cases h
    exact .inl ⟨by simpa using hNot, rfl⟩

/-- An entry that somebody reads is not touched. -/
def KeepsLocked (c c' : HTTPCache) : Prop :=
  ∀ s a e, some (a, e) ∈ c.table.slots s → e.readers ≠ 0 → some (a, e) ∈ c'.table.slots s

theorem KeepsLocked.trans {c c' c'' : HTTPCache} (h : KeepsLocked c c') (h' : KeepsLocked c' c'') : KeepsLocked c c'' :=
  fun s a e hIn hLocked => h' s a e (h s a e hIn hLocked) hLocked

theorem keepsLocked_without {chosen : CacheEntry → Bool} (hReaders : ∀ e, chosen e = true → e.readers = 0)
    (c : HTTPCache) : KeepsLocked c (c.without chosen) :=
  fun _ _ _ hIn hLocked => without_keeps hReaders hIn hLocked

theorem keepsLocked_small (now : Int) (c : HTTPCache) : KeepsLocked c (c.fresh now).small := by
  have hFresh : KeepsLocked c (c.fresh now) := by
    rw [fresh]
    split
    · exact fun _ _ _ hIn _ => hIn
    · exact keepsLocked_without (fun _ h => expiredAt_readers h) c
  apply hFresh.trans
  rw [small]
  split
  · exact keepsLocked_without (fun _ h => largerThan_readers h) _
  · exact fun _ _ _ hIn _ => hIn

theorem keepsLocked_withHits (c : HTTPCache) (k : Nat) : KeepsLocked c (c.withHits k) := by
  cases k with
  | zero => exact fun _ _ _ hIn _ => hIn
  | succ k => exact keepsLocked_without (fun _ h => upToHits_readers h) c

/-! ## A cache that is all in use -/

def AllRead (c : HTTPCache) : Prop := ∀ s a e, some (a, e) ∈ c.table.slots s → e.readers ≠ 0

/-- A cache that is all in use has the size that it had. -/
structure InUse (c c' : HTTPCache) : Prop where
  read : AllRead c'
  start : c'.startGC = c.startGC
  stop : c'.stopGC = c.stopGC

theorem startGC_of_size {c : HTTPCache} {t : HTTPCacheTable} (h : t.currentSize = c.table.currentSize) :
    HTTPCache.startGC { c with table := t } = c.startGC := by
  rw [startGC, startGC, h]

theorem stopGC_of_size {c : HTTPCache} {t : HTTPCacheTable} (h : t.currentSize = c.table.currentSize) :
    HTTPCache.stopGC { c with table := t } = c.stopGC := by
  rw [stopGC, stopGC, h]

theorem InUse.refl {c : HTTPCache} (h : AllRead c) : InUse c c := ⟨h, rfl, rfl⟩

theorem InUse.without {c c' : HTTPCache} (h : InUse c c') {chosen : CacheEntry → Bool}
    (hReaders : ∀ e, chosen e = true → e.readers = 0) : InUse c (c'.without chosen) := by
  have hSize : (c'.without chosen).table.currentSize = c'.table.currentSize := without_size hReaders h.read
  refine ⟨fun s a e hIn => h.read s a e (without_slots hIn), ?_, ?_⟩
  · rw [← h.start]
    exact startGC_of_size hSize
  · rw [← h.stop]
    exact stopGC_of_size hSize

theorem InUse.small (now : Int) {c : HTTPCache} (h : AllRead c) : InUse c (c.fresh now).small := by
  have hFresh : InUse c (c.fresh now) := by
    rw [fresh]
    split
    · exact InUse.refl h
    · exact (InUse.refl h).without fun _ hChosen => expiredAt_readers hChosen
  rw [HTTPCache.small]
  split
  · exact hFresh.without fun _ hChosen => largerThan_readers hChosen
  · exact hFresh

/-- A cache that is too large and all in use is swept for ever. -/
theorem not_fits_of_allRead (now : Int) {c : HTTPCache} (hRead : AllRead c) (hStart : c.startGC = true)
    (hStop : c.stopGC = false) : ¬ Fits now c := by
  intro hFits
  have hSmall := InUse.small now hRead
  obtain ⟨k, -, hEnough⟩ := hFits (hSmall.start.trans hStart)
  have hTurns : InUse c ((c.fresh now).small.withHits k) := by
    cases k with
    | zero => exact hSmall
    | succ k => exact hSmall.without fun _ hChosen => upToHits_readers hChosen
  rw [hTurns.stop, hStop] at hEnough
  cases hEnough

/-! ## What a collection does -/

/-- The collection returns, has removed no entry that is read, and has removed enough, or there was no need to, or
there is nothing left to remove. -/
def Collects (now : Int) (c : HTTPCache) : Prop :=
  ∃ entered c', (do expiredGc now; tooBigGc : Call HTTPCache Unit) c = .ok () entered ∧
    performGarbageCollection now c = .ok () c' ∧ KeepsLocked c c' ∧
      (c'.stopGC = true ∨ entered.startGC = false ∨ ∀ s a e, some (a, e) ∈ c'.table.slots s → 0 < e.readers)

theorem fits_of_collects {now : Int} {c : HTTPCache} (hBlock : c.table.blockSize ≠ 0) (h : Collects now c) :
    Fits now c := by
  intro hStart
  obtain ⟨-, c', -, hRun, -⟩ := h
  rcases performGarbageCollection_ok hBlock hRun with ⟨hNot, -⟩ | ⟨k, hk, rfl, hStop⟩
  · rw [hNot] at hStart
    cases hStart
  · exact ⟨k, hk, hStop⟩

theorem performGarbageCollection_returns {now : Int} {c : HTTPCache} (hBlock : c.table.blockSize ≠ 0)
    (h : Fits now c) : ∃ c', performGarbageCollection now c = .ok () c' := by
  have hSmall : (c.fresh now).small.table.blockSize ≠ 0 := by
    rw [small_blockSize, fresh_blockSize]
    exact hBlock
  rw [performGarbageCollection_eq now hBlock]
  split
  · rename_i hStart
    obtain ⟨k, hk, hStop⟩ := h hStart
    exact hitsLoop_returns hSmall 2147483648 0 (Nat.zero_le k) (by omega) hStop
  · exact ⟨_, rfl⟩

theorem collects_iff_fits (now : Int) {c : HTTPCache} (hBlock : c.table.blockSize ≠ 0) :
    Collects now c ↔ Fits now c := by
  constructor
  · exact fits_of_collects hBlock
  · intro hFits
    obtain ⟨c', hRun⟩ := performGarbageCollection_returns hBlock hFits
    refine ⟨_, c', entered_eq now hBlock, hRun, ?_⟩
    rcases performGarbageCollection_ok hBlock hRun with ⟨hNot, rfl⟩ | ⟨k, -, rfl, hStop⟩
    · exact ⟨keepsLocked_small now c, .inr (.inl hNot)⟩
    · exact ⟨(keepsLocked_small now c).trans (keepsLocked_withHits _ k), .inl hStop⟩

/-- An entry of 30 megabytes. -/
def largeEntry : CacheEntry := { CacheEntry.new [] with size := 31457280 }

/-- A cache of 20 megabytes, as the constructor makes it, with the entry. -/
def cacheOf (e : CacheEntry) : HTTPCache where
  table :=
    { HTTPCacheTable.new 4096 with
      slots := fun s => if s = 0 then [some (0, e)] else []
      nextAddress := 1
      currentSize := 31461376 }
  expireIgnored := true
  totalSize := 20971520
  folderSize := 2
  gcBuffer := 2
  maxEntrySize := 3145728

set_option maxRecDepth 20000 in
theorem large_entry_collected : (cacheOf largeEntry).table.blockSize ≠ 0 ∧ Collects 0 (cacheOf largeEntry) := by
  refine ⟨by decide, (collects_iff_fits 0 (by decide)).mpr ?_⟩
  have hDone : ((cacheOf largeEntry).fresh 0).small.startGC = false := by decide
  intro hStart
  rw [hDone] at hStart
  cases hStart

/-- The entry while somebody reads it. -/
def lockedEntry : CacheEntry := { largeEntry with readers := 1, responseLock := true }

theorem locked_cache_not_collected : ¬ ∀ (now : Int) (c : HTTPCache), c.table.blockSize ≠ 0 → Collects now c := by
  intro hAll
  have hRead : AllRead (cacheOf lockedEntry) := by
    intro s a e hIn
    have hCell : some (a, e) ∈ if s = 0 then [some (0, lockedEntry)] else [] := hIn
    split at hCell
    · cases List.mem_singleton.mp hCell
      decide
    · cases hCell
  have hFits := fits_of_collects (by decide) (hAll 0 (cacheOf lockedEntry) (by decide))
  exact not_fits_of_allRead 0 hRead (by decide) (by decide) hFits

end HTTPCache

end Libdap.Http
