import Mathlib.Data.List.Basic
import Mathlib.Data.List.Perm.Basic
import Libdap.Constraint.Word
import Libdap.Core.Fault

/-! # Blocked clients

`BotBlocker` denies requests from some addresses, and may be configured to let some URLs through. Patterns match a text
as a whole or not at all.
-/

namespace Libdap.Olfs
open Core Constraint
set_option autoImplicit false

structure BotBlocker (P : Type) where
  initialized : Bool
  ipAddresses : List Word
  ipMatchPatterns : List P
  blockedResponsePatterns : List P
  allowedResponsePatterns : List P
  responseFiltering : Bool

/-- The texts of the elements of each name. -/
structure BotBlockerConfig where
  ipAddress : List Word
  ipMatch : List Word
  allowedResponseRegex : List Word
  blockedResponseRegex : List Word

namespace BotBlocker

variable {P ε : Type} (compile : Word → Except ε P) (isMatch : P → Word → Bool)

def new : BotBlocker P := ⟨false, [], [], [], [], false⟩

def addIpMatch (b : BotBlocker P) (text : Word) : Except ε (BotBlocker P) := do
  let p ← compile text
  pure { b with ipMatchPatterns := b.ipMatchPatterns ++ [p] }

def addAllowedResponse (b : BotBlocker P) (text : Word) : Except ε (BotBlocker P) := do
  let p ← compile text
  pure { b with allowedResponsePatterns := b.allowedResponsePatterns ++ [p], responseFiltering := true }

def addBlockedResponse (b : BotBlocker P) (text : Word) : Except ε (BotBlocker P) := do
  let p ← compile text
  pure { b with blockedResponsePatterns := b.blockedResponsePatterns ++ [p], responseFiltering := true }

def configure (config : BotBlockerConfig) (b : BotBlocker P) : Except ε (BotBlocker P) := do
  let b := config.ipAddress.foldl (fun b ipAddr => { b with ipAddresses := b.ipAddresses.insert ipAddr }) b
  let b ← config.ipMatch.foldlM (addIpMatch compile) b
  let b ← config.allowedResponseRegex.foldlM (addAllowedResponse compile) b
  config.blockedResponseRegex.foldlM (addBlockedResponse compile) b

def init (config : BotBlockerConfig) (b : BotBlocker P) : Except ε (BotBlocker P) :=
  if b.initialized then .ok b
  else do
    let b ← configure compile config b
    pure { b with initialized := true }

/-- The loops that set `isBlocked` for a blocked pattern. -/
def blockedBy (requestUrl : Word) (patterns : List P) (isBlocked : Bool) : Bool :=
  patterns.foldl (fun isBlocked p => if isMatch p requestUrl then true else isBlocked) isBlocked

def isResponseBlocked (b : BotBlocker P) (requestUrl : Word) : Bool :=
  if b.allowedResponsePatterns.isEmpty then blockedBy isMatch requestUrl b.blockedResponsePatterns false
  else
    b.allowedResponsePatterns.foldl (fun isBlocked p =>
      if isMatch p requestUrl then blockedBy isMatch requestUrl b.blockedResponsePatterns false else isBlocked) true

/-- The loop over the address patterns. -/
def matchLoop (b : BotBlocker P) (remoteAddr requestUrl : Word) : List P → Bool
  | [] => false
  | p :: ps =>
    if isMatch p remoteAddr then
      if b.responseFiltering then b.isResponseBlocked isMatch requestUrl else matchLoop b remoteAddr requestUrl ps
    else matchLoop b remoteAddr requestUrl ps

local instance : LawfulBEq Word := inferInstance

def requestCanBeHandled (b : BotBlocker P) (remoteAddr requestUrl : Word) : Bool :=
  if remoteAddr ∈ b.ipAddresses then
    if b.responseFiltering then b.isResponseBlocked isMatch requestUrl
    else b.matchLoop isMatch remoteAddr requestUrl b.ipMatchPatterns
  else b.matchLoop isMatch remoteAddr requestUrl b.ipMatchPatterns

/-! ## What a configuration says -/

/-- The pattern that one of the texts is compiled to matches. -/
def Matched (texts : List Word) (s : Word) : Prop := ∃ text ∈ texts, ∃ p, compile text = .ok p ∧ isMatch p s = true

def Listed (config : BotBlockerConfig) (remoteAddr : Word) : Prop :=
  remoteAddr ∈ config.ipAddress ∨ Matched compile isMatch config.ipMatch remoteAddr

def LetThrough (config : BotBlockerConfig) (requestUrl : Word) : Prop :=
  (config.allowedResponseRegex ≠ [] ∨ config.blockedResponseRegex ≠ []) ∧
    ¬ Matched compile isMatch config.blockedResponseRegex requestUrl ∧
    (config.allowedResponseRegex = [] ∨ Matched compile isMatch config.allowedResponseRegex requestUrl)

/-- The same lists in other orders. -/
structure Reordered (config config' : BotBlockerConfig) : Prop where
  ipAddress : config.ipAddress.Perm config'.ipAddress
  ipMatch : config.ipMatch.Perm config'.ipMatch
  allowed : config.allowedResponseRegex.Perm config'.allowedResponseRegex
  blocked : config.blockedResponseRegex.Perm config'.blockedResponseRegex

/-- A request is denied as the configuration says, whatever the orders of its lists. -/
def Denies (config : BotBlockerConfig) (b : BotBlocker P) (remoteAddr requestUrl : Word) : Prop :=
  (b.requestCanBeHandled isMatch remoteAddr requestUrl = true ↔
    Listed compile isMatch config remoteAddr ∧ ¬ LetThrough compile isMatch config requestUrl) ∧
  ∀ config' b', Reordered config config' → init compile config' new = .ok b' →
    b'.requestCanBeHandled isMatch remoteAddr requestUrl = b.requestCanBeHandled isMatch remoteAddr requestUrl

/-! ## What the loops do -/

section
variable {compile isMatch} {b b' : BotBlocker P} {config config' : BotBlockerConfig} {remoteAddr requestUrl : Word}

theorem blockedBy_iff {patterns : List P} {isBlocked : Bool} :
    blockedBy isMatch requestUrl patterns isBlocked = true ↔
      isBlocked = true ∨ ∃ p ∈ patterns, isMatch p requestUrl = true := by
  induction patterns generalizing isBlocked with
  | nil => simp [blockedBy]
  | cons p ps ih =>
    rw [blockedBy, List.foldl_cons]
    change blockedBy isMatch requestUrl ps (if isMatch p requestUrl then true else isBlocked) = true ↔ _
    rw [ih, List.exists_mem_cons_iff]
    cases isMatch p requestUrl <;> simp

theorem allowed_iff {patterns blocked : List P} {isBlocked : Bool} :
    patterns.foldl (fun isBlocked p =>
        if isMatch p requestUrl then blockedBy isMatch requestUrl blocked false else isBlocked) isBlocked = true ↔
      (isBlocked = true ∧ ¬ ∃ p ∈ patterns, isMatch p requestUrl = true) ∨
        (∃ p ∈ patterns, isMatch p requestUrl = true) ∧ ∃ p ∈ blocked, isMatch p requestUrl = true := by
  induction patterns generalizing isBlocked with
  | nil => simp
  | cons p ps ih =>
    rw [List.foldl_cons, ih, List.exists_mem_cons_iff]
    cases hMatch : isMatch p requestUrl with
    | false => simp
    | true =>
      rw [if_pos rfl, blockedBy_iff]
      by_cases hRest : ∃ p ∈ ps, isMatch p requestUrl = true <;> simp [hRest]

theorem isResponseBlocked_iff :
    b.isResponseBlocked isMatch requestUrl = true ↔
      ¬ ((¬ ∃ p ∈ b.blockedResponsePatterns, isMatch p requestUrl = true) ∧
        (b.allowedResponsePatterns = [] ∨ ∃ p ∈ b.allowedResponsePatterns, isMatch p requestUrl = true)) := by
  rw [isResponseBlocked]
  split
  · rename_i hNone
    rw [blockedBy_iff, List.isEmpty_iff.mp hNone]
    simp
  · rename_i hSome
    rw [allowed_iff, or_iff_right fun hNone => hSome (List.isEmpty_iff.mpr hNone)]
    by_cases hBlocked : ∃ p ∈ b.blockedResponsePatterns, isMatch p requestUrl = true
    · simp only [hBlocked, true_and, and_true, not_true, false_and, not_false_eq_true, iff_true]
      exact (em _).symm
    · simp only [hBlocked, true_and, and_false, or_false, not_false_eq_true]

theorem matchLoop_iff {patterns : List P} :
    b.matchLoop isMatch remoteAddr requestUrl patterns = true ↔
      (∃ p ∈ patterns, isMatch p remoteAddr = true) ∧ b.responseFiltering = true ∧
        b.isResponseBlocked isMatch requestUrl = true := by
  induction patterns with
  | nil => simp [matchLoop]
  | cons p ps ih =>
    rw [matchLoop, List.exists_mem_cons_iff]
    split
    · rename_i hMatch
      split
      · rename_i hFiltering
        simp [hMatch, hFiltering]
      · rename_i hFiltering
        rw [ih]
        simp [hFiltering]
    · rename_i hMatch
      rw [ih]
      simp [hMatch]

theorem requestCanBeHandled_iff :
    b.requestCanBeHandled isMatch remoteAddr requestUrl = true ↔
      (remoteAddr ∈ b.ipAddresses ∨ ∃ p ∈ b.ipMatchPatterns, isMatch p remoteAddr = true) ∧
        b.responseFiltering = true ∧ b.isResponseBlocked isMatch requestUrl = true := by
  rw [requestCanBeHandled]
  split
  · rename_i hListed
    split
    · rename_i hFiltering
      simp [hListed, hFiltering]
    · rename_i hFiltering
      rw [matchLoop_iff]
      simp [hFiltering]
  · rename_i hListed
    rw [matchLoop_iff]
    simp [hListed]

/-! ## What a configuration leaves -/

/-- The patterns are those of the texts. -/
structure Configured (compile : Word → Except ε P) (config : BotBlockerConfig) (b : BotBlocker P) : Prop where
  ipAddress : ∀ a, a ∈ b.ipAddresses ↔ a ∈ config.ipAddress
  ipMatch : List.Forall₂ (fun text p => compile text = .ok p) config.ipMatch b.ipMatchPatterns
  allowed : List.Forall₂ (fun text p => compile text = .ok p) config.allowedResponseRegex b.allowedResponsePatterns
  blocked : List.Forall₂ (fun text p => compile text = .ok p) config.blockedResponseRegex b.blockedResponsePatterns
  filtering : b.responseFiltering = true ↔ config.allowedResponseRegex ≠ [] ∨ config.blockedResponseRegex ≠ []

theorem insert_addresses (addresses : List Word) (b : BotBlocker P) :
    ∃ ipAddresses, addresses.foldl (fun b ipAddr => { b with ipAddresses := b.ipAddresses.insert ipAddr }) b =
        { b with ipAddresses := ipAddresses } ∧
      ∀ a, a ∈ ipAddresses ↔ a ∈ b.ipAddresses ∨ a ∈ addresses := by
  induction addresses generalizing b with
  | nil => exact ⟨b.ipAddresses, rfl, fun a => by simp⟩
  | cons ipAddr addresses ih =>
    obtain ⟨ipAddresses, hFold, hMem⟩ := ih { b with ipAddresses := b.ipAddresses.insert ipAddr }
    refine ⟨ipAddresses, hFold, fun a => ?_⟩
    rw [hMem, List.mem_insert_iff, List.mem_cons]
    tauto

/-- Each text is compiled, and its pattern is added. -/
theorem foldlM_compiled {add : BotBlocker P → P → BotBlocker P} {texts : List Word}
    (h : texts.foldlM (fun b text => do let p ← compile text; pure (add b p)) b = .ok b') :
    ∃ patterns, List.Forall₂ (fun text p => compile text = .ok p) texts patterns ∧ b' = patterns.foldl add b := by
  induction texts generalizing b with
  | nil =>
    cases h
    exact ⟨[], .nil, rfl⟩
  | cons text texts ih =>
    rw [List.foldlM_cons] at h
    obtain ⟨b₁, hFirst, hRest⟩ := bind_eq_ok h
    obtain ⟨p, hCompile, hAdd⟩ := bind_eq_ok hFirst
    cases hAdd
    obtain ⟨patterns, hPatterns, hFold⟩ := ih hRest
    exact ⟨p :: patterns, .cons hCompile hPatterns, hFold⟩

theorem addIpMatch_all {texts : List Word} (h : texts.foldlM (addIpMatch compile) b = .ok b') :
    ∃ patterns, List.Forall₂ (fun text p => compile text = .ok p) texts patterns ∧
      b' = { b with ipMatchPatterns := b.ipMatchPatterns ++ patterns } := by
  obtain ⟨patterns, hPatterns, hFold⟩ := foldlM_compiled h
  refine ⟨patterns, hPatterns, hFold.trans ?_⟩
  clear h hPatterns hFold
  induction patterns generalizing b with
  | nil => rw [List.foldl_nil, List.append_nil]
  | cons p patterns ih => rw [List.foldl_cons, ih, List.append_assoc, List.singleton_append]

theorem addAllowedResponse_all {texts : List Word} (h : texts.foldlM (addAllowedResponse compile) b = .ok b') :
    ∃ patterns, List.Forall₂ (fun text p => compile text = .ok p) texts patterns ∧
      b' = { b with
        allowedResponsePatterns := b.allowedResponsePatterns ++ patterns
        responseFiltering := b.responseFiltering || !patterns.isEmpty } := by
  obtain ⟨patterns, hPatterns, hFold⟩ := foldlM_compiled h
  refine ⟨patterns, hPatterns, hFold.trans ?_⟩
  clear h hPatterns hFold
  induction patterns generalizing b with
  | nil => rw [List.foldl_nil, List.append_nil, List.isEmpty_nil, Bool.not_true, Bool.or_false]
  | cons p patterns ih =>
    rw [List.foldl_cons, ih, List.append_assoc, List.singleton_append]
    simp

theorem addBlockedResponse_all {texts : List Word} (h : texts.foldlM (addBlockedResponse compile) b = .ok b') :
    ∃ patterns, List.Forall₂ (fun text p => compile text = .ok p) texts patterns ∧
      b' = { b with
        blockedResponsePatterns := b.blockedResponsePatterns ++ patterns
        responseFiltering := b.responseFiltering || !patterns.isEmpty } := by
  obtain ⟨patterns, hPatterns, hFold⟩ := foldlM_compiled h
  refine ⟨patterns, hPatterns, hFold.trans ?_⟩
  clear h hPatterns hFold
  induction patterns generalizing b with
  | nil => rw [List.foldl_nil, List.append_nil, List.isEmpty_nil, Bool.not_true, Bool.or_false]
  | cons p patterns ih =>
    rw [List.foldl_cons, ih, List.append_assoc, List.singleton_append]
    simp

theorem isEmpty_compiled {texts : List Word} {patterns : List P}
    (h : List.Forall₂ (fun text p => compile text = .ok p) texts patterns) : patterns = [] ↔ texts = [] := by
  cases h <;> simp

theorem init_configured (h : init compile config new = .ok b) : Configured compile config b := by
  rw [init, if_neg (by exact Bool.false_ne_true)] at h
  obtain ⟨b₄, hConfigure, h⟩ := bind_eq_ok h
  cases h
  rw [configure] at hConfigure
  obtain ⟨ipAddresses, hAddresses, hMem⟩ := insert_addresses config.ipAddress (new : BotBlocker P)
  rw [hAddresses] at hConfigure
  obtain ⟨b₂, hMatch, hConfigure⟩ := bind_eq_ok hConfigure
  obtain ⟨b₃, hAllowed, hBlocked⟩ := bind_eq_ok hConfigure
  obtain ⟨matchPatterns, hMatchPatterns, rfl⟩ := addIpMatch_all hMatch
  obtain ⟨allowedPatterns, hAllowedPatterns, rfl⟩ := addAllowedResponse_all hAllowed
  obtain ⟨blockedPatterns, hBlockedPatterns, rfl⟩ := addBlockedResponse_all hBlocked
  refine ⟨fun a => ?_, hMatchPatterns, hAllowedPatterns, hBlockedPatterns, ?_⟩
  · rw [hMem]
    exact or_iff_right List.not_mem_nil
  · rw [ne_eq, ne_eq, ← isEmpty_compiled hAllowedPatterns, ← isEmpty_compiled hBlockedPatterns]
    simp [new]

/-- A pattern matches if that of a text does. -/
theorem matched_iff {texts : List Word} {patterns : List P}
    (h : List.Forall₂ (fun text p => compile text = .ok p) texts patterns) {s : Word} :
    Matched compile isMatch texts s ↔ ∃ p ∈ patterns, isMatch p s = true := by
  induction h with
  | nil => simp [Matched]
  | cons hCompile hRest ih =>
    rw [List.exists_mem_cons_iff, ← ih, Matched, List.exists_mem_cons_iff, Matched]
    simp [hCompile]

theorem handled_iff (h : init compile config new = .ok b) :
    b.requestCanBeHandled isMatch remoteAddr requestUrl = true ↔
      Listed compile isMatch config remoteAddr ∧
        (config.allowedResponseRegex ≠ [] ∨ config.blockedResponseRegex ≠ []) ∧
        ¬ (¬ Matched compile isMatch config.blockedResponseRegex requestUrl ∧
          (config.allowedResponseRegex = [] ∨ Matched compile isMatch config.allowedResponseRegex requestUrl)) := by
  have hConfigured := init_configured h
  rw [requestCanBeHandled_iff, isResponseBlocked_iff, hConfigured.filtering, hConfigured.ipAddress, Listed,
    matched_iff hConfigured.ipMatch, matched_iff hConfigured.allowed, matched_iff hConfigured.blocked,
    isEmpty_compiled hConfigured.allowed]

theorem Reordered.matched {texts texts' : List Word} (h : texts.Perm texts') {s : Word} :
    Matched compile isMatch texts s ↔ Matched compile isMatch texts' s := by
  simp only [Matched, h.mem_iff]

theorem Reordered.handled (h : Reordered config config') (hInit : init compile config new = .ok b)
    (hInit' : init compile config' new = .ok b') :
    b'.requestCanBeHandled isMatch remoteAddr requestUrl = b.requestCanBeHandled isMatch remoteAddr requestUrl := by
  have hEmpty {texts texts' : List Word} (hPerm : texts.Perm texts') : texts = [] ↔ texts' = [] :=
    ⟨fun hNil => (hNil ▸ hPerm).nil_eq.symm, fun hNil => (hNil ▸ hPerm).eq_nil⟩
  rw [Bool.eq_iff_iff, handled_iff hInit, handled_iff hInit', Listed, Listed, h.ipAddress.mem_iff,
    Reordered.matched h.ipMatch,
    Reordered.matched h.allowed, Reordered.matched h.blocked, ne_eq, ne_eq, ne_eq, ne_eq, hEmpty h.allowed,
    hEmpty h.blocked]

end

/-- Without a pattern for the responses every client is let through. -/
theorem denies_iff (compile : Word → Except ε P) (isMatch : P → Word → Bool) {config : BotBlockerConfig}
    {b : BotBlocker P} (hInit : init compile config new = .ok b) (remoteAddr requestUrl : Word) :
    Denies compile isMatch config b remoteAddr requestUrl ↔
      config.allowedResponseRegex ≠ [] ∨ config.blockedResponseRegex ≠ [] ∨
        ¬ Listed compile isMatch config remoteAddr := by
  rw [Denies, and_iff_left fun config' b' hReordered hInit' => hReordered.handled hInit hInit', handled_iff hInit,
    LetThrough]
  tauto

/-- With texts as patterns that match themselves. -/
theorem crawler_denied :
    Denies (ε := Unit) .ok (fun p s => p == s) ⟨["65.55.1.1".toList], [], [], ["http://a/b.dods".toList]⟩
      ⟨true, ["65.55.1.1".toList], [], ["http://a/b.dods".toList], [], true⟩ "65.55.1.1".toList
        "http://a/b.dods".toList :=
  (denies_iff (ε := Unit) .ok (fun p s => p == s) rfl _ _).mpr (.inr (.inl (List.cons_ne_nil _ _)))

/-- The configuration that is shipped has addresses only. -/
theorem listed_not_denied :
    init (ε := Unit) (P := Word) .ok ⟨["127.0.0.1".toList], [], [], []⟩ new =
      .ok ⟨true, ["127.0.0.1".toList], [], [], [], false⟩ ∧
      ¬ Denies (ε := Unit) .ok (fun p s => p == s) ⟨["127.0.0.1".toList], [], [], []⟩
        ⟨true, ["127.0.0.1".toList], [], [], [], false⟩ "127.0.0.1".toList "http://a/b.dods".toList := by
  refine ⟨rfl, fun h => ?_⟩
  have hDenied := h.1.mpr ⟨.inl List.mem_cons_self, fun hThrough => hThrough.1.elim (fun h => h rfl) fun h => h rfl⟩
  revert hDenied
  decide

end BotBlocker

end Libdap.Olfs
