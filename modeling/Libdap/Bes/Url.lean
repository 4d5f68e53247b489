import Mathlib.Data.List.Basic
import Libdap.Bes.BESKeys
import Libdap.Core.Call

/-! # URLs taken apart and put together

`BESUtil::url_explode` and `BESUtil::url_create`. A URL is read as it was written unless something stands before its
`@` that `url_create` leaves out.
-/

namespace Libdap.Bes
open Core Constraint
set_option autoImplicit false

@[ext] structure Url where
  protocol : Word
  domain : Word
  uname : Word
  psswd : Word
  port : Word
  path : Word
  deriving DecidableEq

namespace Url

def empty : Url := ⟨[], [], [], [], [], []⟩

/-- `username:password`, if there is an `@` before the first slash, and the text behind it. -/
def explodeUser (rest : Word) (parts : Url) : Word × Url :=
  let slash := rest.idxOf '/'
  let atSign := rest.idxOf '@'
  if atSign < rest.length ∧ atSign < slash then
    let up := rest.take atSign
    let colon := up.idxOf ':'
    let parts :=
      if colon < up.length then { parts with uname := up.take colon, psswd := up.drop (colon + 1) }
      else { parts with uname := up }
    (rest.drop (atSign + 1), parts)
  else (rest, parts)

def explodeDomain (rest : Word) (parts : Url) : Url :=
  let slash := rest.idxOf '/'
  let colon := rest.idxOf ':'
  if colon < rest.length ∧ colon < slash then
    let parts := { parts with domain := rest.take colon }
    let rest := rest.drop (colon + 1)
    let slash := rest.idxOf '/'
    if slash < rest.length then { parts with port := rest.take slash, path := rest.drop (slash + 1) }
    else { parts with port := rest, path := [] }
  else if slash < rest.length then { parts with domain := rest.take slash, path := rest.drop (slash + 1) }
  else { parts with domain := rest }

/-- `url_explode`, which sets the fields of the structure that it is given. -/
def explode (urlStr : Word) : EStateM BESError Url Unit := do
  let colon := urlStr.idxOf ':'
  if colon = urlStr.length then throw (.internal "BESUtil::url_explode: missing colon for protocol".toList)
  modify fun parts => { parts with protocol := urlStr.take colon }
  if (urlStr.drop colon).take 3 ≠ "://".toList then throw (.internal "BESUtil::url_explode: no :// in the URL".toList)
  modify fun parts =>
    let (rest, parts) := explodeUser (urlStr.drop (colon + 3)) parts
    explodeDomain rest parts

/-- `url_create` -/
def create (parts : Url) : Word :=
  parts.protocol ++ "://".toList ++
    (if parts.uname ≠ [] then parts.uname ++ (if parts.psswd ≠ [] then ':' :: parts.psswd else []) ++ ['@'] else []) ++
    parts.domain ++ (if parts.port ≠ [] then ':' :: parts.port else []) ++
    (if parts.path ≠ [] then '/' :: parts.path else [])

end Url

/-! ## How a URL is written -/

/-- A separator stands in the URL with each part that is there. -/
structure UrlText where
  protocol : Word
  user : Option Word
  domain : Word
  port : Option Word
  path : Option Word

namespace UrlText

def authority (u : UrlText) : Word := u.domain ++ u.port.elim [] (':' :: ·)

def host (u : UrlText) : Word := u.authority ++ u.path.elim [] ('/' :: ·)

def text (u : UrlText) : Word := u.protocol ++ "://".toList ++ (u.user.elim [] (· ++ ['@']) ++ u.host)

structure Valid (u : UrlText) : Prop where
  protocol : ':' ∉ u.protocol
  user : ∀ up, u.user = some up → '@' ∉ up ∧ '/' ∉ up
  domain : ':' ∉ u.domain
  authority : '/' ∉ u.authority
  noUser : u.user = none → '@' ∉ u.authority

/-- What the parts are. -/
def parts (u : UrlText) : Url where
  protocol := u.protocol
  domain := u.domain
  uname := u.user.elim [] fun up => up.take (up.idxOf ':')
  psswd := u.user.elim [] fun up => up.drop (up.idxOf ':' + 1)
  port := u.port.getD []
  path := u.path.getD []

end UrlText

section
variable {c : Char} {s t rest : Word} {parts : Url} {u : UrlText}

theorem idxOf_separator (h : c ∉ s) : (s ++ c :: t).idxOf c = s.length := by
  rw [List.idxOf_append_of_notMem h, List.idxOf_cons_self, Nat.add_zero]

/-- A character comes first in the text, or there is none. -/
theorem separator_cases (c : Char) (s : Word) :
    (∃ first rest, s = first ++ c :: rest ∧ c ∉ first ∧ s.idxOf c = first.length) ∨ c ∉ s ∧ s.idxOf c = s.length := by
  by_cases h : c ∈ s
  · obtain ⟨first, rest, rfl, hFirst⟩ := List.eq_append_cons_of_mem h
    exact .inl ⟨first, rest, rfl, hFirst, idxOf_separator hFirst⟩
  · exact .inr ⟨h, List.idxOf_eq_length h⟩

theorem explodeUser_user (hAt : '@' ∉ s) (hSlash : '/' ∉ s) (hPsswd : parts.psswd = []) :
    Url.explodeUser (s ++ '@' :: rest) parts =
      (rest, { parts with uname := s.take (s.idxOf ':'), psswd := s.drop (s.idxOf ':' + 1) }) := by
  have hBefore : s.length < (s ++ '@' :: rest).idxOf '/' := by
    rw [List.idxOf_append_of_notMem hSlash, List.idxOf_cons_ne _ (by decide)]
    omega
  have hColon : (if s.idxOf ':' < s.length then
      { parts with uname := s.take (s.idxOf ':'), psswd := s.drop (s.idxOf ':' + 1) } else { parts with uname := s }) =
        { parts with uname := s.take (s.idxOf ':'), psswd := s.drop (s.idxOf ':' + 1) } := by
    split
    · rfl
    · rename_i hNone
      have hLength : s.idxOf ':' = s.length := Nat.le_antisymm List.idxOf_le_length (Nat.le_of_not_lt hNone)
      rw [hLength, List.take_length, List.drop_eq_nil_of_le (Nat.le_succ _), ← hPsswd]
  simp only [Url.explodeUser, idxOf_separator hAt, List.take_left', List.length_append, List.length_cons]
  rw [if_pos ⟨by omega, hBefore⟩, hColon]
  simp

theorem explodeUser_none (h : ¬ rest.idxOf '@' < rest.idxOf '/') : Url.explodeUser rest parts = (rest, parts) := by
  rw [Url.explodeUser]
  exact if_neg fun hBoth => h hBoth.2

/-! ## Taking apart -/

theorem idxOf_host (h : '/' ∉ u.authority) : u.host.idxOf '/' = u.authority.length := by
  rw [UrlText.host]
  cases u.path with
  | none =>
    rw [Option.elim_none, List.append_nil]
    exact List.idxOf_eq_length h
  | some q => exact idxOf_separator h

theorem explodeDomain_host (hDomain : ':' ∉ u.domain) (hSlash : '/' ∉ u.authority) (hPort : parts.port = [])
    (hPath : parts.path = []) :
    Url.explodeDomain u.host parts =
      { parts with domain := u.domain, port := u.port.getD [], path := u.path.getD [] } := by
  have hFirst := idxOf_host hSlash
  cases hp : u.port with
  | some p =>
    rw [UrlText.authority, hp, Option.elim_some, List.mem_append, not_or, List.mem_cons, not_or] at hSlash
    have hHost : u.host = u.domain ++ ':' :: (p ++ u.path.elim [] ('/' :: ·)) := by
      rw [UrlText.host, UrlText.authority, hp, Option.elim_some, List.append_assoc, List.cons_append]
    have hColon : u.host.idxOf ':' = u.domain.length := by
      rw [hHost]
      exact idxOf_separator hDomain
    have hLength : u.domain.length < u.host.length := by
      rw [hHost, List.length_append, List.length_cons]
      omega
    have hAuthority : u.domain.length < u.authority.length := by
      rw [UrlText.authority, hp, Option.elim_some, List.length_append, List.length_cons]
      omega
    rw [Url.explodeDomain, hFirst, hColon, if_pos ⟨hLength, hAuthority⟩, hHost]
    cases u.path with
    | none =>
      simp [List.idxOf_eq_length hSlash.2.2]
    | some q =>
      simp [idxOf_separator hSlash.2.2]
  | none =>
    have hAuthority : u.authority = u.domain := by rw [UrlText.authority, hp, Option.elim_none, List.append_nil]
    rw [hAuthority] at hFirst hSlash
    have hColon : ¬ (u.host.idxOf ':' < u.host.length ∧ u.host.idxOf ':' < u.host.idxOf '/') := by
      rw [hFirst, UrlText.host, hAuthority, List.idxOf_append_of_notMem hDomain]
      omega
    rw [Url.explodeDomain, if_neg hColon, hFirst, UrlText.host, hAuthority]
    cases u.path with
    | none => simp [hPort, hPath]
    | some q => simp [hPort]

theorem explode_text (h : u.Valid) : Url.explode u.text .empty = .ok () u.parts := by
  have hText : u.text = u.protocol ++ ':' :: ('/' :: '/' :: (u.user.elim [] (· ++ ['@']) ++ u.host)) := by
    rw [UrlText.text, List.append_assoc]
    rfl
  have hColon : u.text.idxOf ':' = u.protocol.length := by
    rw [hText]
    exact idxOf_separator h.protocol
  have hNot : ¬ u.text.idxOf ':' = u.text.length := by
    rw [hColon, hText, List.length_append, List.length_cons]
    omega
  have hScheme : (u.text.drop (u.text.idxOf ':')).take 3 = "://".toList := by
    rw [hColon, hText, List.drop_left]
    rfl
  have hRest : u.text.drop (u.text.idxOf ':' + 3) = u.user.elim [] (· ++ ['@']) ++ u.host := by
    rw [hColon, hText, List.drop_append]
    simp
  have hProtocol : u.text.take (u.text.idxOf ':') = u.protocol := by rw [hColon, hText, List.take_left]
  obtain ⟨r, hr⟩ : ∃ r, r = Url.explodeUser (u.text.drop (u.text.idxOf ':' + 3))
      { Url.empty with protocol := u.text.take (u.text.idxOf ':') } := ⟨_, rfl⟩
  have hRun : Url.explode u.text .empty = .ok () (Url.explodeDomain r.1 r.2) := by
    simp only [Url.explode, if_neg hNot, hScheme]
    rw [hr]
    rfl
  rw [hRun, hr, hRest, hProtocol]
  congr 1
  cases hu : u.user with
  | none =>
    have hUser : ¬ u.host.idxOf '@' < u.host.idxOf '/' := by
      rw [idxOf_host h.authority, UrlText.host, List.idxOf_append_of_notMem (h.noUser hu)]
      omega
    rw [Option.elim_none, List.nil_append, explodeUser_none hUser]
    dsimp only
    rw [explodeDomain_host h.domain h.authority rfl rfl, UrlText.parts, hu]
    rfl
  | some up =>
    obtain ⟨hAt, hSlash⟩ := h.user up hu
    rw [Option.elim_some, List.append_assoc, List.singleton_append, explodeUser_user hAt hSlash rfl]
    dsimp only
    rw [explodeDomain_host h.domain h.authority rfl rfl, UrlText.parts, hu]
    rfl

theorem host_cases (protocol rest : Word) (user : Option Word) : ∃ domain port path,
    (⟨protocol, user, domain, port, path⟩ : UrlText).host = rest ∧ ':' ∉ domain ∧
      '/' ∉ (⟨protocol, user, domain, port, path⟩ : UrlText).authority := by
  obtain ⟨authority, path, rfl, hSlash⟩ : ∃ authority path, rest = authority ++ Option.elim path [] ('/' :: ·) ∧
      '/' ∉ authority := by
    rcases separator_cases '/' rest with ⟨first, behind, rfl, hFirst, -⟩ | ⟨hNone, -⟩
    · exact ⟨first, some behind, rfl, hFirst⟩
    · exact ⟨rest, none, (List.append_nil rest).symm, hNone⟩
  rcases separator_cases ':' authority with ⟨domain, port, rfl, hDomain, -⟩ | ⟨hNone, -⟩
  · exact ⟨domain, some port, path, rfl, hDomain, hSlash⟩
  · refine ⟨authority, none, path, ?_, hNone, ?_⟩
    · rw [UrlText.host, UrlText.authority, Option.elim_none, List.append_nil]
    · rw [UrlText.authority, Option.elim_none, List.append_nil]
      exact hSlash

/-- What is taken apart has the form of a URL. -/
theorem explode_ok {initial : Url} (h : Url.explode s initial = .ok () parts) : ∃ u : UrlText, u.Valid ∧
    u.text = s := by
  rcases separator_cases ':' s with ⟨protocol, behind, rfl, hProtocol, hColon⟩ | ⟨hNone, hColon⟩
  · have hNot : ¬ (protocol ++ ':' :: behind).idxOf ':' = (protocol ++ ':' :: behind).length := by
      rw [hColon, List.length_append, List.length_cons]
      omega
    have hScheme : (':' :: behind).take 3 = "://".toList := by
      by_contra hOther
      have hDrop : ((protocol ++ ':' :: behind).drop ((protocol ++ ':' :: behind).idxOf ':')).take
          3 ≠ "://".toList := by
        rw [hColon, List.drop_left]
        exact hOther
      simp only [Url.explode, if_neg hNot, if_pos hDrop] at h
      cases h
    obtain ⟨rest, rfl⟩ : ∃ rest, behind = '/' :: '/' :: rest := by
      have hSplit := List.take_append_drop 3 (':' :: behind)
      rw [hScheme] at hSplit
      exact ⟨(':' :: behind).drop 3, (List.cons.inj hSplit).2.symm⟩
    have hText (user : Option Word) (domain : Word) (port path : Option Word)
        (hRest : Option.elim user [] (· ++ ['@']) ++ (⟨protocol, user, domain, port, path⟩ : UrlText).host = rest) :
        (⟨protocol, user, domain, port, path⟩ : UrlText).text = protocol ++ ':' :: '/' :: '/' :: rest := by
      rw [UrlText.text, hRest, List.append_assoc]
      rfl
    by_cases hUser : rest.idxOf '@' < rest.idxOf '/'
    · rcases separator_cases '@' rest with ⟨up, host, rfl, hAt, hPlace⟩ | ⟨-, hPlace⟩
      · have hUp : '/' ∉ up := by
          intro hMem
          rw [hPlace, List.idxOf_append_of_mem hMem] at hUser
          exact absurd (List.idxOf_lt_length_of_mem hMem) (by omega)
        obtain ⟨domain, port, path, hHost, hDomain, hSlash⟩ := host_cases protocol host (some up)
        refine ⟨⟨protocol, some up, domain, port, path⟩, ⟨hProtocol, ?_, hDomain, hSlash, by rintro ⟨⟩⟩,
          hText _ _ _ _ ?_⟩
        · rintro _ ⟨⟩
          exact ⟨hAt, hUp⟩
        · rw [hHost]
          simp
      · have hLe : rest.idxOf '/' ≤ rest.length := List.idxOf_le_length
        omega
    · obtain ⟨domain, port, path, hHost, hDomain, hSlash⟩ := host_cases protocol rest none
      refine ⟨⟨protocol, none, domain, port, path⟩, ⟨hProtocol, by rintro _ ⟨⟩, hDomain, hSlash, fun _ hMem => ?_⟩,
        hText _ _ _ _ hHost⟩
      apply hUser
      rw [← hHost, idxOf_host hSlash, UrlText.host, List.idxOf_append_of_mem hMem]
      exact List.idxOf_lt_length_of_mem hMem
  · simp only [Url.explode, if_pos hColon] at h
    cases h

/-! ## Putting together -/

/-- The text that is printed for parts. -/
def UrlText.ofParts (parts : Url) : UrlText where
  protocol := parts.protocol
  user := if parts.uname ≠ [] then some (parts.uname ++ if parts.psswd ≠ [] then ':' :: parts.psswd else []) else none
  domain := parts.domain
  port := if parts.port ≠ [] then some parts.port else none
  path := if parts.path ≠ [] then some parts.path else none

theorem create_eq (parts : Url) : parts.create = (UrlText.ofParts parts).text := by
  rw [Url.create, UrlText.text, UrlText.host, UrlText.authority, UrlText.ofParts]
  by_cases hUser : parts.uname = [] <;> by_cases hPort : parts.port = [] <;> by_cases hPath : parts.path = [] <;>
    simp [hUser, hPort, hPath]

/-- There is a user name, or nothing of a user. -/
def Reprinted (parts : Url) : Prop :=
  parts.uname ≠ [] ∨ parts.psswd = [] ∧ '@' ∉ parts.domain ∧ '@' ∉ parts.port

/-- The same of a URL: where there is an `@` before its path, the user name before it is not empty; or user name and
password are, and there is no other `@`. -/
def Reprintable (urlStr : Word) : Prop :=
  let authority := (urlStr.drop (urlStr.idxOf ':' + 3)).takeWhile (· ≠ '/')
  '@' ∉ authority ∨ (authority.head? ≠ some ':' ∧ authority.head? ≠ some '@') ∨
    ∃ host, '@' ∉ host ∧ (authority = '@' :: host ∨ authority = ':' :: '@' :: host)

theorem not_mem_user (h : u.Valid) : '@' ∉ u.parts.uname ∧ '/' ∉ u.parts.uname ∧ ':' ∉ u.parts.uname ∧
    '@' ∉ u.parts.psswd ∧ '/' ∉ u.parts.psswd := by
  rw [UrlText.parts]
  cases hu : u.user with
  | none => simp
  | some up =>
    obtain ⟨hAt, hSlash⟩ := h.user up hu
    refine ⟨fun hMem => hAt (List.mem_of_mem_take hMem), fun hMem => hSlash (List.mem_of_mem_take hMem), ?_,
      fun hMem => hAt (List.mem_of_mem_drop hMem), fun hMem => hSlash (List.mem_of_mem_drop hMem)⟩
    rw [Option.elim_some]
    rcases separator_cases ':' up with ⟨first, behind, rfl, hFirst, hPlace⟩ | ⟨hNone, -⟩
    · rw [hPlace, List.take_left]
      exact hFirst
    · exact fun hMem => hNone (List.mem_of_mem_take hMem)

theorem mem_authority {c : Char} (hc : c ≠ ':') : c ∈ u.authority ↔ c ∈ u.parts.domain ∨ c ∈ u.parts.port := by
  rw [UrlText.authority, UrlText.parts, List.mem_append]
  cases u.port with
  | none => simp
  | some p => simp [hc]

theorem ofParts_valid (h : u.Valid) (hPrinted : Reprinted u.parts) : (UrlText.ofParts u.parts).Valid := by
  obtain ⟨hAt, hSlash, -, hPsswdAt, hPsswdSlash⟩ := not_mem_user h
  have hAuthority (c : Char) (hc : c ≠ ':') : c ∈ (UrlText.ofParts u.parts).authority ↔
      c ∈ u.parts.domain ∨ c ∈ u.parts.port := by
    rw [UrlText.authority, UrlText.ofParts, List.mem_append]
    by_cases hPort : u.parts.port = []
    · simp [hPort]
    · simp [hPort, hc]
  refine ⟨h.protocol, ?_, h.domain, ?_, ?_⟩
  · intro up hUp
    rw [UrlText.ofParts] at hUp
    split at hUp
    · cases hUp
      by_cases hPsswd : u.parts.psswd = []
      · simp [hPsswd, hAt, hSlash]
      · simp [hPsswd, hAt, hSlash, hPsswdAt, hPsswdSlash]
    · cases hUp
  · rw [hAuthority '/' (by decide), ← mem_authority (by decide)]
    exact h.authority
  · intro hNone
    have hUser : u.parts.uname = [] := by
      by_contra hSome
      simp [UrlText.ofParts, hSome] at hNone
    obtain ⟨-, hDomain, hPort⟩ := hPrinted.resolve_left (not_not_intro hUser)
    rw [hAuthority '@' (by decide), not_or]
    exact ⟨hDomain, hPort⟩

theorem ofParts_parts (h : u.Valid) (hPrinted : Reprinted u.parts) : (UrlText.ofParts u.parts).parts = u.parts := by
  obtain ⟨-, -, hColon, -, -⟩ := not_mem_user h
  have hPort : (if u.parts.port ≠ [] then some u.parts.port else none).getD [] = u.parts.port := by
    by_cases hPort : u.parts.port = [] <;> simp [hPort]
  have hPath : (if u.parts.path ≠ [] then some u.parts.path else none).getD [] = u.parts.path := by
    by_cases hPath : u.parts.path = [] <;> simp [hPath]
  rw [UrlText.parts, UrlText.ofParts]
  dsimp only
  rw [hPort, hPath]
  by_cases hUser : u.parts.uname = []
  · obtain ⟨hPsswd, -⟩ := hPrinted.resolve_left (not_not_intro hUser)
    rw [if_neg (not_not_intro hUser)]
    exact Url.ext rfl rfl hUser.symm hPsswd.symm rfl rfl
  · rw [if_pos hUser]
    simp only [Option.elim_some]
    by_cases hPsswd : u.parts.psswd = []
    · rw [if_neg (not_not_intro hPsswd), List.append_nil, List.idxOf_eq_length hColon, List.take_length,
        List.drop_eq_nil_of_le (Nat.le_succ _), ← hPsswd]
    · rw [if_pos hPsswd, idxOf_separator hColon]
      simp

/-- A user is not made out of a host that is printed without one. -/
theorem ofParts_host_length (u : UrlText) : (UrlText.ofParts u.parts).host.length ≤ u.host.length := by
  rw [UrlText.host, UrlText.host, UrlText.authority, UrlText.authority, UrlText.ofParts, UrlText.parts]
  dsimp only
  have hPort : ((if u.port.getD [] ≠ [] then some (u.port.getD []) else none).elim [] (':' :: ·)).length ≤
      (u.port.elim [] (':' :: ·)).length := by
    cases u.port with
    | none => simp
    | some p => by_cases hp : p = [] <;> simp [hp]
  have hPath : ((if u.path.getD [] ≠ [] then some (u.path.getD []) else none).elim [] ('/' :: ·)).length ≤
      (u.path.elim [] ('/' :: ·)).length := by
    cases u.path with
    | none => simp
    | some p => by_cases hp : p = [] <;> simp [hp]
  simp only [List.length_append]
  omega

theorem create_explodes_iff (h : u.Valid) :
    Url.explode u.parts.create .empty = .ok () u.parts ↔ Reprinted u.parts := by
  rw [create_eq]
  constructor
  · intro hRun
    obtain ⟨v, hv, hText⟩ := explode_ok hRun
    rw [← hText, explode_text hv] at hRun
    have hParts : v.parts = u.parts := (EStateM.Result.ok.inj hRun).2
    rw [← hParts]
    cases hUser : v.user with
    | none =>
      right
      have hAt := hv.noUser hUser
      rw [mem_authority (by decide), not_or] at hAt
      refine ⟨?_, hAt⟩
      rw [UrlText.parts, hUser]
      rfl
    | some up =>
      left
      intro hEmpty
      have hNone : (UrlText.ofParts v.parts).user = none := by
        rw [UrlText.ofParts, if_neg (not_not_intro hEmpty)]
      rw [← hParts, UrlText.text, UrlText.text, hUser, hNone] at hText
      have hLength := congrArg List.length hText
      have hHost := ofParts_host_length v
      have hProtocol : (UrlText.ofParts v.parts).protocol = v.protocol := rfl
      simp only [hProtocol, Option.elim_some, Option.elim_none, List.length_append, List.length_cons,
        List.length_nil] at hLength
      omega
  · intro hPrinted
    rw [explode_text (ofParts_valid h hPrinted), ofParts_parts h hPrinted]

theorem authority_text (h : u.Valid) :
    (u.text.drop (u.text.idxOf ':' + 3)).takeWhile (· ≠ '/') = u.user.elim [] (· ++ ['@']) ++ u.authority := by
  have hText : u.text = u.protocol ++ ':' :: ('/' :: '/' :: (u.user.elim [] (· ++ ['@']) ++ u.host)) := by
    rw [UrlText.text, List.append_assoc]
    rfl
  have hRest : u.text.drop (u.text.idxOf ':' + 3) = u.user.elim [] (· ++ ['@']) ++ u.authority ++
      u.path.elim [] ('/' :: ·) := by
    rw [hText, idxOf_separator h.protocol, List.drop_append, UrlText.host]
    simp
  have hSlash : ∀ c ∈ u.user.elim [] (· ++ ['@']) ++ u.authority, decide (c ≠ '/') = true := by
    intro c hMem
    rw [decide_eq_true_eq]
    rintro rfl
    rcases List.mem_append.mp hMem with hMem | hMem
    · cases hu : u.user with
      | none =>
        rw [hu] at hMem
        cases hMem
      | some up =>
        rw [hu, Option.elim_some, List.mem_append] at hMem
        rcases hMem with hMem | hMem
        · exact (h.user up hu).2 hMem
        · exact absurd (List.mem_singleton.mp hMem) (by decide)
    · exact h.authority hMem
  rw [hRest, List.takeWhile_append_of_pos hSlash]
  cases u.path with
  | none => simp
  | some q => simp

theorem reprinted_iff (h : u.Valid) : Reprinted u.parts ↔ Reprintable u.text := by
  have hHost : '@' ∉ u.authority ↔ '@' ∉ u.parts.domain ∧ '@' ∉ u.parts.port := by
    rw [mem_authority (by decide), not_or]
  rw [Reprintable, authority_text h, Reprinted, ← hHost]
  cases hu : u.user with
  | none =>
    have hPsswd : u.parts.psswd = [] := by
      rw [UrlText.parts, hu]
      rfl
    have hAuthority := h.noUser hu
    rw [Option.elim_none, List.nil_append]
    exact iff_of_true (.inr ⟨hPsswd, hAuthority⟩) (.inl hAuthority)
  | some up =>
    obtain ⟨hAt, -⟩ := h.user up hu
    have hParts : u.parts.uname = up.take (up.idxOf ':') ∧ u.parts.psswd = up.drop (up.idxOf ':' + 1) := by
      rw [UrlText.parts, hu]
      exact ⟨rfl, rfl⟩
    rw [hParts.1, hParts.2, Option.elim_some]
    cases up with
    | nil => simp
    | cons c up =>
      rw [List.mem_cons, not_or] at hAt
      by_cases hColon : c = ':'
      · subst hColon
        cases up with
        | nil => simp
        | cons d up =>
          have hd : d ≠ '@' := fun hSame => hAt.2 (hSame ▸ List.mem_cons_self)
          simp [hd]
      · have hIdx : (c :: up).idxOf ':' = up.idxOf ':' + 1 := List.idxOf_cons_ne _ hColon
        have hc : c ≠ '@' := Ne.symm hAt.1
        simp [hIdx, hColon, hc]

/-- For what can be taken apart, as parts and as a URL. -/
theorem url_reprinted_iff (urlStr : Word) (parts : Url) (h : Url.explode urlStr .empty = .ok () parts) :
    (Url.explode parts.create .empty = .ok () parts ↔ Reprinted parts) ∧
      (Url.explode parts.create .empty = .ok () parts ↔ Reprintable urlStr) := by
  obtain ⟨u, hu, rfl⟩ := explode_ok h
  rw [explode_text hu] at h
  obtain rfl := (EStateM.Result.ok.inj h).2
  exact ⟨create_explodes_iff hu, (create_explodes_iff hu).trans (reprinted_iff hu)⟩

theorem web_reprinted :
    (Url.explode (Url.create ⟨"http".toList, "h".toList, "u".toList, "p:w".toList, "80".toList, "a@b:/c".toList⟩)
      .empty =
      .ok () ⟨"http".toList, "h".toList, "u".toList, "p:w".toList, "80".toList, "a@b:/c".toList⟩ ↔
        Reprinted ⟨"http".toList, "h".toList, "u".toList, "p:w".toList, "80".toList, "a@b:/c".toList⟩) ∧
    Reprinted ⟨"http".toList, "h".toList, "u".toList, "p:w".toList, "80".toList, "a@b:/c".toList⟩ :=
  ⟨(url_reprinted_iff "http://u:p:w@h:80/a@b:/c".toList _ (by rfl)).1, .inl (by decide)⟩

/-- A password without a user name is lost, and so is an empty user name before a domain with an `@`. -/
theorem password_lost :
    (∃ parts, Url.explode "http://:pw@host/data".toList .empty = .ok () parts ∧ parts.psswd = "pw".toList ∧
      parts.create = "http://host/data".toList ∧ Url.explode parts.create .empty ≠ .ok () parts) ∧
    ∃ parts, Url.explode "http://@d@e/".toList .empty = .ok () parts ∧ parts.domain = "d@e".toList ∧
      Url.explode parts.create .empty = .ok () { parts with uname := "d".toList, domain := "e".toList } := by
  refine ⟨⟨_, rfl, rfl, rfl, fun hRun => ?_⟩, _, rfl, rfl, rfl⟩
  have hPsswd := congrArg Url.psswd (EStateM.Result.ok.inj hRun).2
  exact absurd hPsswd (by decide)

end

end Libdap.Bes
