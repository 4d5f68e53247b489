import Libdap.Bes.BESContainerStorageFile
import Libdap.Core.Call
import Libdap.Dap4.MimeUtil
import Libdap.Http.Decimal

/-! # The client's configuration file

Each line of the file goes through a buffer and sets what its name stands for. A proxy is cut into its parts by the
first separator of each kind. The file that is written holds the settings of the reader that writes it.
-/

namespace Libdap.Client
open Core Constraint Http Bes
set_option autoImplicit false

abbrev CInt := {n : Int // InInt n}

def CInt.of (n : Int) : CInt := ⟨int32 n, int32_inInt n⟩

abbrev CUnsigned := {n : Nat // n < 4294967296}

theorem uint32_below (n : Int) : uint32 n < 4294967296 := by
  rw [uint32]
  omega

def CUnsigned.of (n : Int) : CUnsigned := ⟨uint32 n, uint32_below n⟩

structure RCReader where
  rcFilePath : Word
  cacheRoot : Word
  dodsUseCache : Bool
  dodsCacheMax : CUnsigned
  dodsCachedObj : CUnsigned
  dodsIgnExpires : CInt
  dodsDeflate : Bool
  dodsDefaultExpires : CInt
  dodsAlwaysValidate : CInt
  validateSsl : CInt
  proxyServerProtocol : Word
  proxyServerHost : Word
  proxyServerPort : CInt
  proxyServerUserpw : Word
  noProxyFor : Bool
  noProxyForProtocol : Word
  noProxyForHost : Word
  aisDatabase : Word
  cookieJar : Word
  deriving DecidableEq

/-- What the constructor sets before it looks for a file. -/
def RCReader.initial : RCReader where
  rcFilePath := []
  cacheRoot := []
  dodsUseCache := false
  dodsCacheMax := .of 20
  dodsCachedObj := .of 5
  dodsIgnExpires := .of 0
  dodsDeflate := false
  dodsDefaultExpires := .of 86400
  dodsAlwaysValidate := .of 0
  validateSsl := .of 1
  proxyServerProtocol := []
  proxyServerHost := []
  proxyServerPort := .of 0
  proxyServerUserpw := []
  noProxyFor := false
  noProxyForProtocol := []
  noProxyForHost := []
  aisDatabase := []
  cookieJar := []

/-! ## Texts -/

/-- `(int) strtol(val, 0, 0)`, but for the conversion. -/
def strtol (val : Word) : Int :=
  match number baseOf val with
  | none => 0
  | some (negative, v, _) => if negative then max (-LONG_MAX - 1) (-v) else min LONG_MAX v

/-- The text before the first such character and the text behind it. -/
def cut (c : Char) (s : Word) : Option (Word × Word) :=
  if s.contains c then some (s.takeWhile (· ≠ c), (s.dropWhile (· ≠ c)).drop 1) else none

/-- The text behind the first occurrence of another. -/
def behind (sep : Word) : Word → Option Word
  | [] => if sep = [] then some [] else none
  | c :: cs => if sep.isPrefixOf (c :: cs) then some ((c :: cs).drop sep.length) else behind sep cs

/-- The text before the first occurrence of another, or all of it. -/
def before (sep : Word) : Word → Word
  | [] => []
  | c :: cs => if sep.isPrefixOf (c :: cs) then [] else c :: before sep cs

/-! ## Settings -/

inductive Setting
  | useCache
  | maxCacheSize
  | maxCachedObj
  | ignoreExpires
  | deflate
  | cacheRoot
  | defaultExpires
  | alwaysValidate
  | validateSsl
  | aisDatabase
  | cookieJar
  | proxyServer
  | noProxyFor
  deriving DecidableEq, Repr

namespace Setting

def token : Setting → Word
  | useCache => "USE_CACHE".toList
  | maxCacheSize => "MAX_CACHE_SIZE".toList
  | maxCachedObj => "MAX_CACHED_OBJ".toList
  | ignoreExpires => "IGNORE_EXPIRES".toList
  | deflate => "DEFLATE".toList
  | cacheRoot => "CACHE_ROOT".toList
  | defaultExpires => "DEFAULT_EXPIRES".toList
  | alwaysValidate => "ALWAYS_VALIDATE".toList
  | validateSsl => "VALIDATE_SSL".toList
  | aisDatabase => "AIS_DATABASE".toList
  | cookieJar => "COOKIE_JAR".toList
  | proxyServer => "PROXY_SERVER".toList
  | noProxyFor => "NO_PROXY_FOR".toList

/-- In the order in which the names are compared. -/
def all : List Setting :=
  [useCache, maxCacheSize, maxCachedObj, ignoreExpires, deflate, cacheRoot, defaultExpires, alwaysValidate, validateSsl,
    aisDatabase, cookieJar, proxyServer, noProxyFor]

end Setting

namespace RCReader

def HTTP : Word := ['h', 't', 't', 'p']

def SCHEME_END : Word := [':', '/', '/']

def onlyHttp : Fault :=
  .Error "The only supported protocol for a proxy server is \"HTTP\". Correct your \".dodsrc\" file."

/-- The parts behind the protocol. -/
def setProxyParts (proxy : Word) (rc : RCReader) : RCReader :=
  let proxy := (behind SCHEME_END proxy).getD proxy
  let (userpw, proxy) := (cut '@' proxy).getD ([], proxy)
  match cut ':' proxy with
  | some (host, port) =>
    { rc with proxyServerUserpw := userpw, proxyServerHost := host, proxyServerPort := .of (strtol port) }
  | none => { rc with proxyServerUserpw := userpw, proxyServerHost := proxy, proxyServerPort := .of 80 }

/-- The protocol is stored before it is checked. -/
def setProxyServer (value : Word) : Call RCReader Unit := fun rc =>
  match cut ',' value with
  | some (protocol, proxy) =>
    let rc := { rc with proxyServerProtocol := Dap4.downcase protocol }
    if Dap4.downcase protocol = HTTP then .ok () (setProxyParts proxy rc) else .error onlyHttp rc
  | none => .ok () (setProxyParts value { rc with proxyServerProtocol := HTTP })

/-- The last character of the value is looked at even if there is none. -/
def setCacheRoot (value : Word) : Call RCReader Unit := fun rc =>
  if value = [] then .error .outOfBounds { rc with cacheRoot := value }
  else .ok () { rc with cacheRoot := if value.getLast? = some '/' then value else value ++ ['/'] }

def setNoProxyFor (value : Word) (rc : RCReader) : RCReader :=
  match cut ',' value with
  | none => { rc with noProxyForProtocol := HTTP, noProxyForHost := value, noProxyFor := true }
  | some (protocol, host) => { rc with noProxyForProtocol := protocol, noProxyForHost := host, noProxyFor := true }

def setCookieJar (value : Word) (rc : RCReader) : RCReader :=
  if value.head? = some '/' then { rc with cookieJar := value }
  else { rc with cookieJar := before ".dodsrc".toList rc.rcFilePath ++ value }

def apply (value : Word) : Setting → Call RCReader Unit
  | .useCache => modify ({ · with dodsUseCache := atoi value ≠ 0 })
  | .maxCacheSize => modify ({ · with dodsCacheMax := .of (atoi value) })
  | .maxCachedObj => modify ({ · with dodsCachedObj := .of (atoi value) })
  | .ignoreExpires => modify ({ · with dodsIgnExpires := .of (atoi value) })
  | .deflate => modify ({ · with dodsDeflate := atoi value ≠ 0 })
  | .cacheRoot => setCacheRoot value
  | .defaultExpires => modify ({ · with dodsDefaultExpires := .of (atoi value) })
  | .alwaysValidate => modify ({ · with dodsAlwaysValidate := .of (atoi value) })
  | .validateSsl => modify ({ · with validateSsl := .of (atoi value) })
  | .aisDatabase => modify ({ · with aisDatabase := value })
  | .cookieJar => modify (setCookieJar value)
  | .proxyServer => setProxyServer value
  | .noProxyFor => modify (setNoProxyFor value)

/-- The setting that a line names, and the value. -/
def setting (line : Word) : Option (Setting × Word) :=
  match cut '=' (cString line) with
  | none => none
  | some (name, value) => (Setting.all.find? (·.token = name)).map fun s => (s, value)

def processLine (line : Word) : Call RCReader Unit :=
  match setting line with
  | none => pure ()
  | some (s, value) => apply value s

/-! ## The file -/

/-- The loop, for so many rounds; it is left as soon as the stream is not good. -/
def readLoop {σ : Type} (body : Word → Call σ Unit) : Nat → Bes.IStream → Call σ Unit
  | 0, _ => pure ()
  | n + 1, stream =>
    match stream.getline 1023 with
    | (none, _) => pure ()
    | (some line, stream) =>
      if stream.eof then pure ()
      else do
        body line
        readLoop body n stream

def readRcFile (content : Word) : Call RCReader Unit := readLoop processLine (content.length + 1) (.of content)

def assignment (s : Setting) (value : Word) : Word := s.token ++ '=' :: value

def digit (b : Bool) : Word := if b then ['1'] else ['0']

def proxyText (rc : RCReader) : Word :=
  rc.proxyServerProtocol ++ SCHEME_END ++
    (if rc.proxyServerUserpw = [] then [] else rc.proxyServerUserpw ++ ['@']) ++ rc.proxyServerHost ++
    ':' :: integer rc.proxyServerPort.1

def comment (text : String) : Word := '#' :: text.toList

/-- The lines before the cache's directory. -/
def linesBefore (rc : RCReader) : List Word :=
  [comment " OPeNDAP client configuration file. See the OPeNDAP",
    comment " users guide for information.",
    assignment .useCache (digit rc.dodsUseCache),
    comment " Cache and object size are given in megabytes (20 ==> 20Mb).",
    assignment .maxCacheSize (decimal rc.dodsCacheMax.1),
    assignment .maxCachedObj (decimal rc.dodsCachedObj.1),
    assignment .ignoreExpires (integer rc.dodsIgnExpires.1)]

/-- The lines between the cache's directory and the proxy. -/
def linesBetween (rc : RCReader) : List Word :=
  [assignment .defaultExpires (integer rc.dodsDefaultExpires.1),
    assignment .alwaysValidate (integer rc.dodsAlwaysValidate.1),
    comment " Request servers compress responses if possible?",
    comment " 1 (yes) or 0 (false).",
    assignment .deflate (digit rc.dodsDeflate),
    comment " Should SSL certificates and hosts be validated? SSL",
    comment " will only work with signed certificates.",
    assignment .validateSsl (integer rc.validateSsl.1),
    comment " Proxy configuration (optional parts in []s).",
    comment " You may also use the 'http_proxy' environment variable",
    comment " but a value in this file will override that env variable.",
    comment " PROXY_SERVER=[http://][username:password@]host[:port]"]

def linesBehind : List Word :=
  [comment " AIS_DATABASE=<file or url>",
    comment " COOKIE_JAR=.dods_cookies",
    comment " The cookie jar is a file that holds cookies sent from",
    comment " servers such as single signon systems. Uncomment this",
    comment " option and provide a file name to activate this feature.",
    comment " If the value is a filename, it will be created in this",
    comment " directory; a full pathname can be used to force a specific",
    comment " location."]

def noProxyLines (rc : RCReader) : List Word :=
  comment " NO_PROXY_FOR=<host|domain>" ::
    ((if rc.noProxyForHost = [] then [] else [assignment .noProxyFor rc.noProxyForHost]) ++ linesBehind)

def proxyLines (rc : RCReader) : List Word :=
  (if rc.proxyServerHost = [] then [] else [assignment .proxyServer (proxyText rc)]) ++ noProxyLines rc

/-- The lines of the file that is written. -/
def rcLines (rc : RCReader) : List Word :=
  linesBefore rc ++ assignment .cacheRoot rc.cacheRoot :: (linesBetween rc ++ proxyLines rc)

def writeRcFile (rc : RCReader) : Word := (rcLines rc).flatMap (· ++ ['\n'])

end RCReader

end Libdap.Client

/-! ## Which lines of the file are applied

The loop hands its body the lines before the first one that does not fit the buffer, but never the text behind the
last newline.
-/

namespace Libdap.Client
open Core Constraint Http Bes
set_option autoImplicit false

namespace RCReader

variable {σ : Type} {body : Word → Call σ Unit} {content line rest : Word} {rc rc' : RCReader}

/-- The lines that fit the buffer, up to the first that does not. -/
def taken (content : Word) : List Word := (terminated content).takeWhile (·.length < 1023)

/-- The other lines, and the text behind the last newline. -/
def skipped (content : Word) : List Word :=
  (terminated content).dropWhile (·.length < 1023) ++ [unterminated content]

theorem forM_line (body : Word → Call σ Unit) (line : Word) (ls : List Word) :
    (line :: ls).forM body = body line >>= fun _ => ls.forM body := rfl

theorem readLoop_eq (body : Word → Call σ Unit) {n : Nat} (hFuel : content.length < n) :
    readLoop body n (.of content) = (taken content).forM body := by
  induction n generalizing content with
  | zero => exact absurd hFuel (Nat.not_lt_zero _)
  | succ n ih =>
    rw [readLoop, taken]
    by_cases hBreak : '\n' ∈ content
    · obtain ⟨line, rest, rfl, hLine⟩ := List.eq_append_cons_of_mem hBreak
      rw [terminated_line hLine]
      rcases Nat.lt_or_ge line.length 1023 with hShort | hLong
      · rw [List.takeWhile_cons_of_pos (by simpa using hShort), forM_line]
        have hRest : rest.length < n := by
          rw [List.length_append, List.length_cons] at hFuel
          omega
        simp only [getline_line hLine hShort]
        exact congrArg (body line >>= ·) (funext fun _ => ih hRest)
      · rw [List.takeWhile_cons_of_neg (by simpa using hLong)]
        obtain ⟨stream, hGet, -⟩ := getline_long hLine hLong ('\n' :: rest)
        simp only [hGet]
        rfl
    · rw [terminated_last hBreak, List.takeWhile_nil]
      rcases Nat.lt_or_ge content.length 1023 with hShort | hLong
      · rw [getline_last hBreak hShort]
        by_cases hEmpty : content = []
        · rw [if_pos hEmpty]
          rfl
        · rw [if_neg hEmpty]
          rfl
      · obtain ⟨stream, hGet, -⟩ := getline_long hBreak hLong []
        rw [List.append_nil] at hGet
        simp only [hGet]
        rfl

theorem readRcFile_eq (content : Word) : readRcFile content = (taken content).forM processLine :=
  readLoop_eq processLine (Nat.lt_succ_self _)

/-- A body that notes the lines it is run on. -/
def note (line : Word) : Call (List Word) Unit := modify (· ++ [line])

/-- The lines on which the loop runs its body. -/
def applied (content : Word) : List Word :=
  match readLoop note (content.length + 1) (.of content) [] with
  | .ok _ noted => noted
  | .error _ noted => noted

theorem noted (ls : List Word) (s : List Word) : ls.forM note s = .ok () (s ++ ls) := by
  induction ls generalizing s with
  | nil => rw [List.append_nil]; rfl
  | cons l ls ih =>
    have hFirst : note l s = .ok () (s ++ [l]) := rfl
    have hRest := ih (s ++ [l])
    rw [List.append_assoc] at hRest
    exact (Call.bind_of_ok hFirst).trans hRest

theorem applied_eq (content : Word) : applied content = taken content := by
  rw [applied, readLoop_eq note (Nat.lt_succ_self _), noted]
  rfl

theorem taken_skipped (content : Word) : taken content ++ skipped content = lines content := by
  have hSome : lines content ≠ [] := List.splitOn_ne_nil _ _
  have hLast : unterminated content = (lines content).getLast hSome := by
    rw [unterminated, List.getLastD_eq_getLast?, List.getLast?_eq_some_getLast hSome]
    rfl
  rw [taken, skipped, ← List.append_assoc, List.takeWhile_append_dropWhile, hLast, terminated,
    List.dropLast_append_getLast]

/-! ## What is applied -/

def isSetting (line : Word) : Bool := (setting line).isSome

theorem processLine_other (h : isSetting line = false) : processLine line = pure () := by
  have hNone : setting line = none := by simpa [isSetting] using h
  rw [processLine, hNone]

/-- Other lines are ignored. -/
theorem settings_only (ls : List Word) : ls.forM processLine = (ls.filter isSetting).forM processLine := by
  induction ls with
  | nil => rfl
  | cons l ls ih =>
    rw [forM_line, ih]
    cases hSetting : isSetting l with
    | true => rw [List.filter_cons_of_pos hSetting, forM_line]
    | false =>
      rw [List.filter_cons_of_neg (by simp [hSetting]), processLine_other hSetting]
      rfl

/-- Reading the file is applying its settings in the file's order, and nothing else. -/
def AppliesAll (content : Word) : Prop :=
  readRcFile content = ((applied content).filter isSetting).forM processLine ∧
    (applied content).filter isSetting = (lines content).filter isSetting

theorem appliesAll_iff (content : Word) : AppliesAll content ↔ ∀ line ∈ skipped content, isSetting line = false := by
  rw [AppliesAll, applied_eq, readRcFile_eq, ← settings_only, eq_self_iff_true, true_and, ← taken_skipped,
    List.filter_append, List.self_eq_append_right, List.filter_eq_nil_iff]
  simp only [Bool.not_eq_true]

/-- How a line ends the reading of the file. -/
def failure (line : Word) : Option Fault :=
  match setting line with
  | some (.cacheRoot, []) => some .outOfBounds
  | some (.proxyServer, value) =>
    match cut ',' value with
    | some (protocol, _) => if Dap4.downcase protocol = HTTP then none else some onlyHttp
    | none => none
  | _ => none

theorem apply_failure (line : Word) (rc : RCReader) :
    (∃ rc', processLine line rc = .ok () rc' ∧ failure line = none) ∨
    ∃ f rc', processLine line rc = .error f rc' ∧ failure line = some f := by
  rw [processLine, failure]
  cases hSetting : setting line with
  | none => exact .inl ⟨rc, rfl, rfl⟩
  | some p =>
    obtain ⟨s, value⟩ := p
    cases s with
    | cacheRoot =>
      cases value with
      | nil => exact .inr ⟨_, _, rfl, rfl⟩
      | cons c value => exact .inl ⟨_, rfl, rfl⟩
    | proxyServer =>
      simp only [apply, setProxyServer]
      cases cut ',' value with
      | none => exact .inl ⟨_, rfl, rfl⟩
      | some parts =>
        obtain ⟨protocol, proxy⟩ := parts
        by_cases hHttp : Dap4.downcase protocol = HTTP
        · exact .inl ⟨_, if_pos hHttp, if_pos hHttp⟩
        · exact .inr ⟨_, _, if_neg hHttp, if_neg hHttp⟩
    | _ => exact .inl ⟨_, rfl, rfl⟩

theorem lines_failure (ls : List Word) (rc : RCReader) :
    (∃ rc', ls.forM processLine rc = .ok () rc' ∧ ls.findSome? failure = none) ∨
    ∃ f rc', ls.forM processLine rc = .error f rc' ∧ ls.findSome? failure = some f := by
  induction ls generalizing rc with
  | nil => exact .inl ⟨rc, rfl, rfl⟩
  | cons l ls ih =>
    rw [forM_line, List.findSome?_cons]
    rcases apply_failure l rc with ⟨rc', hRun, hNone⟩ | ⟨f, rc', hRun, hSome⟩
    · rw [Call.bind_of_ok hRun, hNone]
      exact ih rc'
    · rw [Call.bind_of_error hRun, hSome]
      exact .inr ⟨f, rc', rfl, rfl⟩

/-- No string is indexed outside its bounds. -/
def InBounds (content : Word) : Prop := ∀ rc rc', readRcFile content rc ≠ .error .outOfBounds rc'

theorem inBounds_iff (content : Word) :
    InBounds content ↔ (applied content).findSome? failure ≠ some .outOfBounds := by
  rw [InBounds, applied_eq, readRcFile_eq]
  constructor
  · intro hNever hFirst
    rcases lines_failure (taken content) .initial with ⟨rc', -, hNone⟩ | ⟨f, rc', hRun, hSome⟩
    · cases hNone.symm.trans hFirst
    · cases hSome.symm.trans hFirst
      exact hNever _ rc' hRun
  · intro hNot rc rc'' hRun
    rcases lines_failure (taken content) rc with ⟨rc', hOk, -⟩ | ⟨f, rc', hError, hSome⟩
    · cases hOk.symm.trans hRun
    · cases hError.symm.trans hRun
      exact hNot hSome

end RCReader

end Libdap.Client
