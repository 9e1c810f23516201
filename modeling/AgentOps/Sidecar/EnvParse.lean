import AgentOps.Lib.Bytes
import AgentOps.Lib.Cut
import Mathlib

/-!
# Endpoints from the environment

`Parse` of `harness/internal/sidecar/envparse/envparse.go`: it gathers what the variables
`SIDECAR_HTTP_…` say of each endpoint, checks that every endpoint is complete, and sorts them.

Texts are bytes. `strings.ToLower`, the `%q` of an error, `url.Parse` and the order in which a loop
visits a map are not of this package: they come in as `GoLib`.
-/

namespace AgentOps.Sidecar.EnvParse

open AgentOps.Lib

/-! ## Names and errors -/

def envPrefix : Bytes := utf8 "SIDECAR_HTTP_"

def suffixPort : Bytes := utf8 "_PORT"

def suffixUpstreamURL : Bytes := utf8 "_UPSTREAM_URL"

def suffixDialAddress : Bytes := utf8 "_DIAL_ADDRESS"

def suffixInjectRunToken : Bytes := utf8 "_INJECT_RUN_TOKEN"

def infixHeader : Bytes := utf8 "_HEADER_"

/-- A `map[string]string`. -/
abbrev StringMap := Finmap fun _ : Bytes => Bytes

structure Endpoint where
  name : Bytes
  listenPort : ℕ
  upstreamURL : Bytes
  dialAddress : Bytes := []
  headers : StringMap := ∅
  injectRunToken : Bool := false
deriving DecidableEq

inductive ParseError
  | malformed (key : Bytes)
  | unrecognized (key : Bytes)
  | invalidInjectRunToken (name : Bytes)
  | onlyHeaders (name : Bytes)
  | missing (name suffix : Bytes)
  | invalidListenPort (name : Bytes)
  | invalidUpstreamURL (name err : Bytes)
  | upstreamScheme (name : Bytes)
  | upstreamHost (name : Bytes)
  | sharedPort (other name : Bytes) (port : ℕ)
deriving DecidableEq

/-- The text of an error; `quote` is `%q`. -/
def ParseError.message (quote : Bytes → Bytes) : ParseError → Bytes
  | malformed key => utf8 "malformed sidecar env var " ++ quote key
  | unrecognized key =>
    utf8 "unrecognized sidecar env var " ++ quote key ++ utf8 ": expected " ++
      envPrefix ++ utf8 "<NAME>" ++ suffixPort ++ utf8 ", " ++
      envPrefix ++ utf8 "<NAME>" ++ suffixUpstreamURL ++ utf8 ", " ++
      envPrefix ++ utf8 "<NAME>" ++ suffixDialAddress ++ utf8 ", or " ++
      envPrefix ++ utf8 "<NAME>" ++ infixHeader ++ utf8 "<HEADER>"
  | invalidInjectRunToken name =>
    endpoint name ++ utf8 ": invalid " ++ suffixInjectRunToken ++ utf8 " value (want true/false)"
  | onlyHeaders name =>
    endpoint name ++ utf8 " has only header vars and no " ++ suffixPort ++ utf8 "/" ++
      suffixUpstreamURL ++ utf8 "; endpoint names must not contain the reserved " ++
      quote infixHeader ++ utf8 " segment"
  | missing name suffix => endpoint name ++ utf8 ": missing " ++ envPrefix ++ name ++ suffix
  | invalidListenPort name => endpoint name ++ utf8 ": invalid listen port"
  | invalidUpstreamURL name err => endpoint name ++ utf8 ": invalid upstream URL: " ++ err
  | upstreamScheme name => endpoint name ++ utf8 ": upstream URL scheme must be http or https"
  | upstreamHost name => endpoint name ++ utf8 ": upstream URL has no host"
  | sharedPort other name port =>
    utf8 "sidecar endpoints " ++ quote other ++ utf8 " and " ++ quote name ++
      utf8 " share listen port " ++ utf8 (toString port)
where
  endpoint (name : Bytes) : Bytes := utf8 "sidecar endpoint " ++ quote name

/-! ## What one variable says -/

/-- What is known of an endpoint; `none` is a port or a URL that was not seen. -/
structure Partial where
  port : Option Bytes := none
  url : Option Bytes := none
  dial : Bytes := []
  injectRunToken : Bool := false
  headers : StringMap := ∅
deriving DecidableEq

abbrev Partials := Finmap fun _ : Bytes => Partial

/-- The part of a `url.URL` that is looked at. -/
structure URL where
  scheme : Bytes
  host : Bytes
deriving DecidableEq

/-- What is used of Go and its library. Letters go to letters, so that `ToLower` keeps an empty text
and the sign `=`; a loop over a map visits each entry once. -/
structure GoLib where
  toLower : Bytes → Bytes
  quote : Bytes → Bytes
  parseURL : Bytes → Except Bytes URL
  range : Partials → List (Σ _ : Bytes, Partial)
  toLower_eq_nil (s : Bytes) : toLower s = [] ↔ s = []
  equals_mem_toLower (s : Bytes) : 0x3D ∈ toLower s ↔ 0x3D ∈ s
  range_entries (m : Partials) : (range m : Multiset (Σ _ : Bytes, Partial)) = m.entries

/-- The assignment that the case of a variable ends with. -/
inductive Setting
  | port (value : Bytes)
  | upstreamURL (value : Bytes)
  | dialAddress (value : Bytes)
  | injectRunToken (b : Bool)
  | header (name value : Bytes)
deriving DecidableEq

def Partial.put (p : Partial) : Setting → Partial
  | .port value => { p with port := some value }
  | .upstreamURL value => { p with url := some value }
  | .dialAddress value => { p with dial := value }
  | .injectRunToken b => { p with injectRunToken := b }
  | .header name value => { p with headers := p.headers.insert name value }

/-- `get`, and the assignment to what it returns. -/
def record (partials : Partials) (x : Bytes × Setting) : Partials :=
  partials.insert x.1 (((partials.lookup x.1).getD {}).put x.2)

/-- `strings.TrimSuffix`. -/
def trimSuffix (suffix s : Bytes) : Bytes :=
  if suffix <:+ s then s.take (s.length - suffix.length) else s

/-- `strings.ReplaceAll(hdr, "_", "-")`. -/
def dashes (hdr : Bytes) : Bytes := hdr.map fun b => if b = 0x5F then 0x2D else b

/-- `strconv.ParseBool`. -/
def parseBool (s : Bytes) : Option Bool :=
  if s ∈ [utf8 "1", utf8 "t", utf8 "T", utf8 "TRUE", utf8 "true", utf8 "True"] then some true
  else if s ∈ [utf8 "0", utf8 "f", utf8 "F", utf8 "FALSE", utf8 "false", utf8 "False"] then
    some false
  else none

/-- The case of a variable that ends in `suffix`. -/
def suffixed (key rest suffix : Bytes) (setting : Bytes → Except ParseError Setting) :
    Except ParseError (Bytes × Setting) :=
  if trimSuffix suffix rest = [] then .error (.malformed key)
  else (setting (trimSuffix suffix rest)).map fun s => (trimSuffix suffix rest, s)

variable (go : GoLib)

/-- The switch over the variable: the endpoint that it is about, and the assignment. `Contains` and
`Cut` are one match. -/
def readVar (key value : Bytes) : Except ParseError (Bytes × Setting) :=
  let rest := key.drop envPrefix.length
  match cut infixHeader rest with
  | some (name, hdr) =>
    if name = [] ∨ hdr = [] then .error (.malformed key)
    else .ok (name, .header (go.toLower (dashes hdr)) value)
  | none =>
    if suffixUpstreamURL <:+ rest then
      suffixed key rest suffixUpstreamURL fun _ => .ok (.upstreamURL value)
    else if suffixInjectRunToken <:+ rest then
      suffixed key rest suffixInjectRunToken fun name =>
        match parseBool value with
        | some b => .ok (.injectRunToken b)
        | none => .error (.invalidInjectRunToken name)
    else if suffixDialAddress <:+ rest then
      suffixed key rest suffixDialAddress fun _ => .ok (.dialAddress value)
    else if suffixPort <:+ rest then suffixed key rest suffixPort fun _ => .ok (.port value)
    else .error (.unrecognized key)

/-- One round of the loop over the environment. -/
def scan (partials : Partials) (kv : Bytes) : Except ParseError Partials :=
  match cut [0x3D] kv with
  | none => .ok partials
  | some (key, value) =>
    if envPrefix <+: key then (readVar go key value).map (record partials) else .ok partials

/-! ## The endpoints -/

def decimalValue (s : Bytes) : ℕ := s.foldl (fun n b => 10 * n + (b.toNat - 48)) 0

/-- `strconv.ParseUint(s, 10, 16)`. -/
def parseUint16 (s : Bytes) : Option ℕ :=
  if s ≠ [] ∧ (∀ b ∈ s, 48 ≤ b.toNat ∧ b.toNat ≤ 57) ∧ decimalValue s ≤ 65535 then
    some (decimalValue s)
  else none

/-- The checks of one endpoint, and the endpoint. -/
def Partial.endpoint (p : Partial) (name : Bytes) : Except ParseError Endpoint :=
  if p.port = none ∧ p.url = none ∧ p.headers ≠ ∅ then .error (.onlyHeaders name)
  else
    match p.port, p.url with
    | none, _ => .error (.missing name suffixPort)
    | some _, none => .error (.missing name suffixUpstreamURL)
    | some port, some url =>
      match parseUint16 port with
      | none | some 0 => .error (.invalidListenPort name)
      | some (n + 1) =>
        match go.parseURL url with
        | .error err => .error (.invalidUpstreamURL name err)
        | .ok u =>
          if u.scheme ≠ utf8 "http" ∧ u.scheme ≠ utf8 "https" then .error (.upstreamScheme name)
          else if u.host = [] then .error (.upstreamHost name)
          else .ok {
            name := go.toLower name
            listenPort := n + 1
            upstreamURL := url
            dialAddress := p.dial
            headers := p.headers
            injectRunToken := p.injectRunToken }

/-- The loop over the sorted endpoints; `seen` has the endpoint of each port. -/
def findShared (seen : Finmap fun _ : ℕ => Bytes) : List Endpoint → Option ParseError
  | [] => none
  | ep :: eps =>
    match seen.lookup ep.listenPort with
    | some other => some (.sharedPort other ep.name ep.listenPort)
    | none => findShared (seen.insert ep.listenPort ep.name) eps

def byName (endpoints : List Endpoint) : List Endpoint :=
  endpoints.insertionSort fun a b => a.name ≤ b.name

def parseVars (environ : List Bytes) : Except ParseError (List Endpoint) := do
  let partials ← environ.foldlM (scan go) ∅
  if partials = ∅ then
    return []
  let endpoints ← (go.range partials).mapM fun x => x.2.endpoint go x.1
  match findShared ∅ (byName endpoints) with
  | some err => throw err
  | none => return byName endpoints

/-- `Parse`, with the text of its error. -/
def parse (environ : List Bytes) : Except Bytes (List Endpoint) :=
  (parseVars go environ).mapError (ParseError.message go.quote)

end AgentOps.Sidecar.EnvParse
