import AgentOps.Sidecar.EnvParse
import Mathlib.Data.List.Perm.Basic

/-!
# The variables of endpoints are read back

The environment describes a list of endpoints (`Describes`) when each variable with the prefix says
something true of one of them, in any order and as often as it likes, and everything that differs
from a default is said. Reading one such variable gives the endpoint's name and the setting whatever
the name ends in; the settings of one endpoint do not contradict each other, so that the last one
of a kind is as good as any; and what is gathered is the endpoint.
-/

namespace AgentOps.Sidecar.EnvParse

open AgentOps.Lib

variable {hdr kv : Bytes} {found : List (Bytes × Setting)}

/-! ## Reading one variable -/

theorem trimSuffix_append (name suffix : Bytes) : trimSuffix suffix (name ++ suffix) = name := by
  rw [trimSuffix, if_pos (List.suffix_append name suffix), List.length_append,
    Nat.add_sub_cancel, List.take_left]

theorem suffixed_append {key name suffix : Bytes} {setting : Bytes → Except ParseError Setting}
    (hname : name ≠ []) :
    suffixed key (name ++ suffix) suffix setting = (setting name).map fun s => (name, s) := by
  rw [suffixed, trimSuffix_append, if_neg hname]

/-- The reserved segment does not arise where a suffix follows the name. -/
theorem cut_infixHeader_eq_none {name : Bytes} (tail : Bytes)
    (hname : ¬ infixHeader <:+: name ++ [0x5F])
    (htail : ∀ t ∈ tail.inits, t ≠ [] →
      ¬ [0x5F] ++ t <:+ infixHeader ∧ ¬ infixHeader <:+ [0x5F] ++ t) :
    cut infixHeader (name ++ ([0x5F] ++ tail)) = none := by
  apply cut_eq_none
  rw [← List.append_assoc]
  exact not_infix_append hname htail

/-- The segment is where it was written, also in front of a header that has one itself. -/
theorem cut_infixHeader {name : Bytes} (hdr : Bytes) (hname : ¬ infixHeader <:+: name ++ [0x5F]) :
    cut infixHeader (name ++ infixHeader ++ hdr) = some (name, hdr) := by
  apply cut_append
  rw [show infixHeader.dropLast = [0x5F] ++ utf8 "HEADER" by decide, ← List.append_assoc]
  exact not_infix_append hname (by decide)

section Read

variable (go : GoLib) {name : Bytes} (value : Bytes)

theorem readVar_upstreamURL (hne : name ≠ []) (hname : ¬ infixHeader <:+: name ++ [0x5F]) :
    readVar go (envPrefix ++ (name ++ suffixUpstreamURL)) value =
      .ok (name, .upstreamURL value) := by
  have hcut : cut infixHeader (name ++ suffixUpstreamURL) = none :=
    cut_infixHeader_eq_none (utf8 "UPSTREAM_URL") hname (by decide)
  rw [readVar, List.drop_left, hcut]
  dsimp only
  rw [if_pos (List.suffix_append name _), suffixed_append hne]
  rfl

theorem readVar_injectRunToken (hne : name ≠ []) (hname : ¬ infixHeader <:+: name ++ [0x5F])
    {b : Bool} (hb : parseBool value = some b) :
    readVar go (envPrefix ++ (name ++ suffixInjectRunToken)) value =
      .ok (name, .injectRunToken b) := by
  have hcut : cut infixHeader (name ++ suffixInjectRunToken) = none :=
    cut_infixHeader_eq_none (utf8 "INJECT_RUN_TOKEN") hname (by decide)
  rw [readVar, List.drop_left, hcut]
  dsimp only
  rw [if_neg (not_suffix_append name (by decide) (by decide)),
    if_pos (List.suffix_append name _), suffixed_append hne, hb]
  rfl

theorem readVar_dialAddress (hne : name ≠ []) (hname : ¬ infixHeader <:+: name ++ [0x5F]) :
    readVar go (envPrefix ++ (name ++ suffixDialAddress)) value =
      .ok (name, .dialAddress value) := by
  have hcut : cut infixHeader (name ++ suffixDialAddress) = none :=
    cut_infixHeader_eq_none (utf8 "DIAL_ADDRESS") hname (by decide)
  rw [readVar, List.drop_left, hcut]
  dsimp only
  rw [if_neg (not_suffix_append name (by decide) (by decide)),
    if_neg (not_suffix_append name (by decide) (by decide)),
    if_pos (List.suffix_append name _), suffixed_append hne]
  rfl

theorem readVar_port (hne : name ≠ []) (hname : ¬ infixHeader <:+: name ++ [0x5F]) :
    readVar go (envPrefix ++ (name ++ suffixPort)) value = .ok (name, .port value) := by
  have hcut : cut infixHeader (name ++ suffixPort) = none :=
    cut_infixHeader_eq_none (utf8 "PORT") hname (by decide)
  rw [readVar, List.drop_left, hcut]
  dsimp only
  rw [if_neg (not_suffix_append name (by decide) (by decide)),
    if_neg (not_suffix_append name (by decide) (by decide)),
    if_neg (not_suffix_append name (by decide) (by decide)),
    if_pos (List.suffix_append name _), suffixed_append hne]
  rfl

theorem readVar_header (hne : name ≠ []) (hhdr : hdr ≠ [])
    (hname : ¬ infixHeader <:+: name ++ [0x5F]) :
    readVar go (envPrefix ++ (name ++ (infixHeader ++ hdr))) value =
      .ok (name, .header (go.toLower (dashes hdr)) value) := by
  rw [readVar, List.drop_left, ← List.append_assoc, cut_infixHeader hdr hname]
  dsimp only
  rw [if_neg (not_or.mpr ⟨hne, hhdr⟩)]

theorem readVar_header_nil (hname : ¬ infixHeader <:+: name ++ [0x5F]) :
    readVar go (envPrefix ++ (name ++ (infixHeader ++ []))) value =
      .error (.malformed (envPrefix ++ (name ++ (infixHeader ++ [])))) := by
  rw [readVar, List.drop_left, ← List.append_assoc, cut_infixHeader [] hname]
  dsimp only
  rw [if_pos (.inr rfl), List.append_assoc]

end Read

/-! ## The variables of an endpoint -/

/-- The text `key=value`. -/
def assign (key value : Bytes) : Bytes := key ++ [0x3D] ++ value

/-- The variable says the setting of the endpoint. A port and a flag may be written in any way that
Go reads, a header with dashes or underscores and in any case. -/
inductive Says (go : GoLib) (ep : Endpoint) : Bytes → Setting → Prop
  | port {value : Bytes} (h : parseUint16 value = some ep.listenPort) :
    Says go ep (assign (envPrefix ++ (ep.name ++ suffixPort)) value) (.port value)
  | upstreamURL :
    Says go ep (assign (envPrefix ++ (ep.name ++ suffixUpstreamURL)) ep.upstreamURL)
      (.upstreamURL ep.upstreamURL)
  | dialAddress :
    Says go ep (assign (envPrefix ++ (ep.name ++ suffixDialAddress)) ep.dialAddress)
      (.dialAddress ep.dialAddress)
  | injectRunToken {value : Bytes} (h : parseBool value = some ep.injectRunToken) :
    Says go ep (assign (envPrefix ++ (ep.name ++ suffixInjectRunToken)) value)
      (.injectRunToken ep.injectRunToken)
  | header {hdr value : Bytes} (h : ep.headers.lookup (go.toLower (dashes hdr)) = some value) :
    Says go ep (assign (envPrefix ++ (ep.name ++ (infixHeader ++ hdr))) value)
      (.header (go.toLower (dashes hdr)) value)

/-- A text of the environment that is none of the sidecar's variables. -/
def Foreign (kv : Bytes) : Prop := ¬ envPrefix <+: kv ∨ 0x3D ∉ kv

/-- The environment is the variables of the endpoints, in any order, and foreign ones. -/
structure Describes (go : GoLib) (environ : List Bytes) (eps : List Endpoint) : Prop where
  only : ∀ kv ∈ environ, Foreign kv ∨ ∃ ep ∈ eps, ∃ s, Says go ep kv s
  port : ∀ ep ∈ eps, ∃ kv ∈ environ, ∃ value, Says go ep kv (.port value)
  upstreamURL : ∀ ep ∈ eps, ∃ kv ∈ environ, Says go ep kv (.upstreamURL ep.upstreamURL)
  dialAddress : ∀ ep ∈ eps, ep.dialAddress ≠ [] →
    ∃ kv ∈ environ, Says go ep kv (.dialAddress ep.dialAddress)
  injectRunToken : ∀ ep ∈ eps, ep.injectRunToken = true →
    ∃ kv ∈ environ, Says go ep kv (.injectRunToken ep.injectRunToken)
  header : ∀ ep ∈ eps, ∀ h value, ep.headers.lookup h = some value →
    ∃ kv ∈ environ, Says go ep kv (.header h value)

/-- What an endpoint has to be, by itself. -/
structure Valid (go : GoLib) (ep : Endpoint) : Prop where
  name : ep.name ≠ []
  reserved : ¬ infixHeader <:+: ep.name ++ [0x5F]
  port : 1 ≤ ep.listenPort ∧ ep.listenPort ≤ 65535
  url : ∃ u, go.parseURL ep.upstreamURL = .ok u ∧
    (u.scheme = utf8 "http" ∨ u.scheme = utf8 "https") ∧ u.host ≠ []
  header : ∀ h ∈ ep.headers, go.toLower h = h ∧ 0x5F ∉ h

/-- What a list of endpoints has to be: no two share a port, or a name but for the case. -/
structure ValidList (go : GoLib) (eps : List Endpoint) : Prop where
  each : ∀ ep ∈ eps, Valid go ep
  names : (eps.map fun ep => go.toLower ep.name).Nodup
  ports : (eps.map Endpoint.listenPort).Nodup

/-- The endpoint has variables: there is none without a name, and none with `=` in its name. -/
structure Nameable (ep : Endpoint) : Prop where
  name : 0x3D ∉ ep.name
  header : ∀ h ∈ ep.headers, h ≠ [] ∧ 0x3D ∉ h

/-- The endpoint as it is read: its name in lower case. -/
def lowered (go : GoLib) (ep : Endpoint) : Endpoint := { ep with name := go.toLower ep.name }

section Scan

variable (go : GoLib) {ep : Endpoint}

/-- What is read of a text of the environment; nothing if it is not one of the sidecar's. -/
def readText (kv : Bytes) : Option (Except ParseError (Bytes × Setting)) :=
  (cut [0x3D] kv).bind fun p => if envPrefix <+: p.1 then some (readVar go p.1 p.2) else none

theorem scan_eq (m : Partials) (kv : Bytes) :
    scan go m kv = (readText go kv).elim (.ok m) fun r => r.map (record m) := by
  rw [scan, readText]
  cases cut [0x3D] kv with
  | none => rfl
  | some p =>
    dsimp only [Option.bind_some]
    split <;> rfl

variable {go}

theorem cut_assign {key : Bytes} (value : Bytes) (hkey : 0x3D ∉ key) :
    cut [0x3D] (assign key value) = some (key, value) := by
  apply cut_append
  rw [List.dropLast_singleton, List.append_nil]
  exact fun hin => hkey (hin.subset (List.mem_singleton_self _))

theorem readText_assign {name suffix : Bytes} (value : Bytes) (hname : 0x3D ∉ name)
    (hsuffix : 0x3D ∉ suffix) :
    readText go (assign (envPrefix ++ (name ++ suffix)) value) =
      some (readVar go (envPrefix ++ (name ++ suffix)) value) := by
  have hkey : 0x3D ∉ envPrefix ++ (name ++ suffix) := by
    simp only [List.mem_append, not_or]
    exact ⟨by decide, hname, hsuffix⟩
  rw [readText, cut_assign value hkey]
  dsimp only [Option.bind_some]
  rw [if_pos (List.prefix_append _ _)]

theorem not_equals_mem_of_dashes (h : 0x3D ∉ dashes hdr) : 0x3D ∉ hdr := fun hmem =>
  h (List.mem_map.mpr ⟨0x3D, hmem, rfl⟩)

/-- The variable of an endpoint gives its name and the setting. -/
theorem readText_var {s : Setting} (hv : Valid go ep) (hn : Nameable ep) (h : Says go ep kv s) :
    readText go kv = some (.ok (ep.name, s)) := by
  cases h with
  | port =>
    rw [readText_assign _ hn.name (by decide), readVar_port go _ hv.name hv.reserved]
  | upstreamURL =>
    rw [readText_assign _ hn.name (by decide), readVar_upstreamURL go _ hv.name hv.reserved]
  | dialAddress =>
    rw [readText_assign _ hn.name (by decide), readVar_dialAddress go _ hv.name hv.reserved]
  | injectRunToken hb =>
    rw [readText_assign _ hn.name (by decide), readVar_injectRunToken go _ hv.name hv.reserved hb]
  | @header hdr value hlookup =>
    obtain ⟨hne, heq⟩ := hn.header _ (Finmap.mem_of_lookup_eq_some hlookup)
    -- the header name is empty or has a `=` exactly if its spelling in the variable is or has
    have hhdr : hdr ≠ [] := by
      rintro rfl
      exact hne ((go.toLower_eq_nil _).mpr rfl)
    have hfree : 0x3D ∉ infixHeader ++ hdr := by
      rw [List.mem_append, not_or]
      exact ⟨by decide, not_equals_mem_of_dashes fun h => heq ((go.equals_mem_toLower _).mpr h)⟩
    rw [readText_assign _ hn.name hfree, readVar_header go value hv.name hhdr hv.reserved]

theorem readText_foreign (h : Foreign kv) : readText go kv = none := by
  rw [readText]
  cases hcut : cut [0x3D] kv with
  | none => rfl
  | some p =>
    obtain ⟨key, value⟩ := p
    have hkv : kv = key ++ [0x3D] ++ value := cut_eq_some hcut
    dsimp only [Option.bind_some]
    rw [if_neg]
    intro hpre
    rcases h with h | h
    · apply h
      rw [hkv, List.append_assoc]
      exact hpre.trans (List.prefix_append _ _)
    · apply h
      rw [hkv]
      simp

variable (go) in
/-- The settings that the environment gives, in its order. -/
def settings (environ : List Bytes) : List (Bytes × Setting) :=
  environ.filterMap fun kv => (readText go kv).bind Except.toOption

/-- The loop records the settings if every text is read without an error. -/
theorem foldlM_scan {environ : List Bytes}
    (h : ∀ kv ∈ environ, readText go kv = none ∨ ∃ x, readText go kv = some (.ok x))
    (m : Partials) : environ.foldlM (scan go) m = .ok ((settings go environ).foldl record m) := by
  induction environ generalizing m with
  | nil => rfl
  | cons kv environ ih =>
    obtain ⟨hkv, hrest⟩ := List.forall_mem_cons.mp h
    rw [List.foldlM_cons, scan_eq, settings]
    rcases hkv with hkv | ⟨x, hkv⟩
    · rw [List.filterMap_cons_none (by rw [hkv]; rfl), hkv]
      exact ih hrest m
    · rw [List.filterMap_cons_some (b := x) (by rw [hkv]; rfl), hkv]
      exact ih hrest (record m x)

end Scan

/-! ## What is gathered of one endpoint -/

/-- The setting is true of the endpoint. -/
def Holds (ep : Endpoint) : Setting → Prop
  | .port value => parseUint16 value = some ep.listenPort
  | .upstreamURL value => value = ep.upstreamURL
  | .dialAddress value => value = ep.dialAddress
  | .injectRunToken b => b = ep.injectRunToken
  | .header h value => ep.headers.lookup h = some value

theorem Says.holds {go : GoLib} {ep : Endpoint} {s : Setting} (h : Says go ep kv s) :
    Holds ep s := by
  cases h with
  | port h => exact h
  | upstreamURL => exact rfl
  | dialAddress => exact rfl
  | injectRunToken _ => exact rfl
  | header h => exact h

/-- What the setting assigns to is as in the endpoint. -/
def Has (ep : Endpoint) (p : Partial) : Setting → Prop
  | .port _ => ∃ value, p.port = some value ∧ parseUint16 value = some ep.listenPort
  | .upstreamURL _ => p.url = some ep.upstreamURL
  | .dialAddress _ => p.dial = ep.dialAddress
  | .injectRunToken _ => p.injectRunToken = ep.injectRunToken
  | .header h _ => p.headers.lookup h = ep.headers.lookup h

/-- What the setting assigns to is as in the zero `partial`. -/
def Blank (p : Partial) : Setting → Prop
  | .port _ => p.port = none
  | .upstreamURL _ => p.url = none
  | .dialAddress _ => p.dial = []
  | .injectRunToken _ => p.injectRunToken = false
  | .header h _ => p.headers.lookup h = none

section Put

variable {ep : Endpoint} {p : Partial} {s t : Setting}

theorem has_put_self (hs : Holds ep s) : Has ep (p.put s) s := by
  cases s with
  | port value => exact ⟨value, rfl, hs⟩
  | upstreamURL value => exact congrArg some hs
  | dialAddress value => exact hs
  | injectRunToken b => exact hs
  | header h value => exact (Finmap.lookup_insert _).trans hs.symm

/-- An assignment leaves a place alone, or is the right one for it. -/
theorem put_cases (hs : Holds ep s) (t : Setting) :
    Has ep (p.put s) t ∨
      (Has ep p t → Has ep (p.put s) t) ∧ (Blank p t → Blank (p.put s) t) := by
  have hself := has_put_self (p := p) hs
  cases s with
  | header h value =>
    cases t with
    | header h' value' =>
      by_cases hh : h' = h
      · exact .inl (hh ▸ hself)
      · right
        show (p.headers.lookup h' = _ → (p.headers.insert h value).lookup h' = _) ∧
          (p.headers.lookup h' = none → (p.headers.insert h value).lookup h' = none)
        rw [Finmap.lookup_insert_of_ne _ hh]
        exact ⟨id, id⟩
    | _ => exact .inr ⟨id, id⟩
  | _ => cases t <;> first | exact .inl hself | exact .inr ⟨id, id⟩

theorem has_put (hs : Holds ep s) (ht : Has ep p t) : Has ep (p.put s) t :=
  (put_cases hs t).elim id fun h => h.1 ht

/-- Nothing is assigned that the endpoint has not. -/
def Agrees (ep : Endpoint) (p : Partial) : Prop := ∀ t, Blank p t ∨ Has ep p t

theorem agrees_empty : Agrees ep {} := by
  intro t
  left
  cases t <;> rfl

theorem Agrees.put (h : Agrees ep p) (hs : Holds ep s) : Agrees ep (p.put s) := by
  intro t
  rcases put_cases hs t with hhas | ⟨hhas, hblank⟩
  · exact .inr hhas
  · exact (h t).imp hblank hhas

variable {ss : List Setting}

theorem Agrees.foldl (h : Agrees ep p) (hss : ∀ s ∈ ss, Holds ep s) :
    Agrees ep (ss.foldl Partial.put p) := by
  induction ss generalizing p with
  | nil => exact h
  | cons s ss ih =>
    obtain ⟨hs, hss⟩ := List.forall_mem_cons.mp hss
    exact ih (h.put hs) hss

theorem has_foldl (h : Has ep p t) (hss : ∀ s ∈ ss, Holds ep s) :
    Has ep (ss.foldl Partial.put p) t := by
  induction ss generalizing p with
  | nil => exact h
  | cons s ss ih =>
    obtain ⟨hs, hss⟩ := List.forall_mem_cons.mp hss
    exact ih (has_put hs h) hss

theorem has_foldl_of_mem (ht : t ∈ ss) (hss : ∀ s ∈ ss, Holds ep s) :
    Has ep (ss.foldl Partial.put p) t := by
  induction ss generalizing p with
  | nil => cases ht
  | cons s ss ih =>
    obtain ⟨hs, hrest⟩ := List.forall_mem_cons.mp hss
    rcases List.mem_cons.mp ht with rfl | ht
    · exact has_foldl (p := p.put t) (has_put_self hs) hrest
    · exact ih ht hrest

/-- What is gathered in full passes every check and is the endpoint. -/
theorem endpoint_of_has {go : GoLib} (hv : Valid go ep) (h : ∀ t, Has ep p t) :
    p.endpoint go ep.name = .ok (lowered go ep) := by
  obtain ⟨port, hport, hread⟩ := h (.port [])
  have hurl : p.url = some ep.upstreamURL := h (.upstreamURL [])
  have hdial : p.dial = ep.dialAddress := h (.dialAddress [])
  have hinject : p.injectRunToken = ep.injectRunToken := h (.injectRunToken false)
  have hheaders : p.headers = ep.headers := Finmap.ext_lookup fun k => h (.header k [])
  obtain ⟨u, hparse, hscheme, hhost⟩ := hv.url
  obtain ⟨n, hn⟩ : ∃ n, ep.listenPort = n + 1 := ⟨ep.listenPort - 1, by have := hv.port; omega⟩
  have hone : ¬ (p.port = none ∧ p.url = none ∧ p.headers ≠ ∅) := by simp [hport]
  have hknown : ¬ (u.scheme ≠ utf8 "http" ∧ u.scheme ≠ utf8 "https") := by
    rwa [← not_or, not_not]
  rw [Partial.endpoint, if_neg hone, hport, hurl]
  dsimp only
  rw [hread, hn]
  dsimp only
  rw [hparse]
  dsimp only
  rw [if_neg hknown, if_neg hhost, hdial, hheaders, hinject, ← hn]
  rfl

end Put

/-! ## The loop over the environment -/

/-- The settings of one endpoint among those found. -/
def settingsOf (name : Bytes) (found : List (Bytes × Setting)) : List Setting :=
  (found.filter fun x => x.1 = name).map Prod.snd

theorem mem_settingsOf {name : Bytes} {s : Setting} :
    s ∈ settingsOf name found ↔ (name, s) ∈ found := by
  simp [settingsOf]

theorem settingsOf_cons_self {name : Bytes} {x : Bytes × Setting} (h : x.1 = name) :
    settingsOf name (x :: found) = x.2 :: settingsOf name found := by
  rw [settingsOf, List.filter_cons_of_pos (by simpa using h)]
  rfl

theorem settingsOf_cons_of_ne {name : Bytes} {x : Bytes × Setting} (h : x.1 ≠ name) :
    settingsOf name (x :: found) = settingsOf name found := by
  rw [settingsOf, List.filter_cons_of_neg (by simpa using h)]
  rfl

/-- What is recorded of an endpoint is what its own settings make of it. -/
theorem lookup_foldl_record (found : List (Bytes × Setting)) (m : Partials) (name : Bytes) :
    (found.foldl record m).lookup name =
      (settingsOf name found).foldl (fun o s => some ((o.getD {}).put s)) (m.lookup name) := by
  induction found generalizing m with
  | nil => rfl
  | cons x found ih =>
    rw [List.foldl_cons, ih]
    by_cases hx : x.1 = name
    · rw [settingsOf_cons_self hx, List.foldl_cons, ← hx, record, Finmap.lookup_insert]
    · rw [settingsOf_cons_of_ne hx, record, Finmap.lookup_insert_of_ne _ (Ne.symm hx)]

theorem foldl_some_put {ss : List Setting} (p : Partial) :
    ss.foldl (fun o s => some ((o.getD {}).put s)) (some p) = some (ss.foldl Partial.put p) := by
  induction ss generalizing p with
  | nil => rfl
  | cons s ss ih => exact ih (p.put s)

theorem lookup_record {name : Bytes} (h : settingsOf name found ≠ []) :
    (found.foldl record ∅).lookup name = some ((settingsOf name found).foldl Partial.put {}) := by
  rw [lookup_foldl_record, Finmap.lookup_empty]
  cases hs : settingsOf name found with
  | nil => exact absurd hs h
  | cons s ss => exact foldl_some_put _

theorem lookup_record_eq_none {name : Bytes} (h : settingsOf name found = []) :
    (found.foldl record ∅).lookup name = none := by
  rw [lookup_foldl_record, h]
  rfl

section Gather

variable {go : GoLib} {environ : List Bytes} {eps : List Endpoint}

/-- The settings found are true of the endpoint that they are recorded for. -/
theorem holds_of_mem_settings (hl : ValidList go eps) (hn : ∀ ep ∈ eps, Nameable ep)
    (hd : Describes go environ eps) {ep : Endpoint} (hep : ep ∈ eps) :
    ∀ s ∈ settingsOf ep.name (settings go environ), Holds ep s := by
  intro s hs
  obtain ⟨kv, hkv, hread⟩ := List.mem_filterMap.mp (mem_settingsOf.mp hs)
  rcases hd.only kv hkv with hforeign | ⟨ep', hep', s', hvar⟩
  · rw [readText_foreign hforeign] at hread
    cases hread
  · rw [readText_var (hl.each ep' hep') (hn ep' hep') hvar] at hread
    obtain ⟨hname, rfl⟩ := Prod.mk.inj (Option.some.inj hread)
    -- endpoints of one name have one name in lower case, and are one
    obtain rfl : ep' = ep :=
      List.inj_on_of_nodup_map hl.names hep' hep (congrArg go.toLower hname)
    exact hvar.holds

theorem mem_settings_of_var (hl : ValidList go eps) (hn : ∀ ep ∈ eps, Nameable ep) {ep : Endpoint}
    (hep : ep ∈ eps) (hkv : kv ∈ environ) {s : Setting} (hvar : Says go ep kv s) :
    s ∈ settingsOf ep.name (settings go environ) := by
  rw [mem_settingsOf]
  refine List.mem_filterMap.mpr ⟨kv, hkv, ?_⟩
  rw [readText_var (hl.each ep hep) (hn ep hep) hvar]
  rfl

/-- Everything of the endpoint is gathered: what it has not by default was said. -/
theorem has_gathered (hl : ValidList go eps) (hn : ∀ ep ∈ eps, Nameable ep)
    (hd : Describes go environ eps) {ep : Endpoint} (hep : ep ∈ eps) (t : Setting) :
    Has ep ((settingsOf ep.name (settings go environ)).foldl Partial.put {}) t := by
  have hholds := holds_of_mem_settings hl hn hd hep
  have hagrees := agrees_empty.foldl hholds
  have hsaid {kv : Bytes} {s : Setting} (hkv : kv ∈ environ) (hvar : Says go ep kv s) :
      Has ep ((settingsOf ep.name (settings go environ)).foldl Partial.put {}) s :=
    has_foldl_of_mem (mem_settings_of_var hl hn hep hkv hvar) hholds
  cases t with
  | port value =>
    obtain ⟨kv, hkv, _, hvar⟩ := hd.port ep hep
    exact (hsaid hkv hvar :)
  | upstreamURL value =>
    obtain ⟨kv, hkv, hvar⟩ := hd.upstreamURL ep hep
    exact (hsaid hkv hvar :)
  | dialAddress value =>
    by_cases hdial : ep.dialAddress = []
    · exact (hagrees (.dialAddress value)).elim (fun h => h.trans hdial.symm) id
    · obtain ⟨kv, hkv, hvar⟩ := hd.dialAddress ep hep hdial
      exact (hsaid hkv hvar :)
  | injectRunToken b =>
    by_cases hinject : ep.injectRunToken = true
    · obtain ⟨kv, hkv, hvar⟩ := hd.injectRunToken ep hep hinject
      exact (hsaid hkv hvar :)
    · have hfalse : ep.injectRunToken = false := Bool.eq_false_of_not_eq_true hinject
      exact (hagrees (.injectRunToken b)).elim (fun h => h.trans hfalse.symm) id
  | header h value =>
    cases hlookup : ep.headers.lookup h with
    | some value' =>
      obtain ⟨kv, hkv, hvar⟩ := hd.header ep hep h value' hlookup
      exact (hsaid hkv hvar :)
    | none => exact (hagrees (.header h value)).elim (fun h => h.trans hlookup.symm) id

/-- The recorded partial of each endpoint. -/
def gathered (go : GoLib) (environ : List Bytes) (ep : Endpoint) : Σ _ : Bytes, Partial :=
  ⟨ep.name, (settingsOf ep.name (settings go environ)).foldl Partial.put {}⟩

theorem mem_range_iff {m : Partials} {x : Σ _ : Bytes, Partial} :
    x ∈ go.range m ↔ m.lookup x.1 = some x.2 := by
  rw [← Multiset.mem_coe, go.range_entries]
  exact Finmap.mem_lookup_iff.symm

theorem nodup_range (m : Partials) : (go.range m).Nodup := by
  rw [← Multiset.coe_nodup, go.range_entries]
  exact m.nodup_entries

/-- The map has one entry for each endpoint and no other. -/
theorem range_perm (hl : ValidList go eps) (hn : ∀ ep ∈ eps, Nameable ep)
    (hd : Describes go environ eps) :
    (go.range ((settings go environ).foldl record ∅)).Perm (eps.map (gathered go environ)) := by
  have hnames : (eps.map Endpoint.name).Nodup := by
    apply List.Nodup.of_map go.toLower
    rw [List.map_map]
    exact hl.names
  have hnodup : (eps.map (gathered go environ)).Nodup := by
    apply List.Nodup.of_map Sigma.fst
    rwa [List.map_map]
  have hlookup {ep : Endpoint} (hep : ep ∈ eps) :
      ((settings go environ).foldl record ∅).lookup ep.name =
        some ((settingsOf ep.name (settings go environ)).foldl Partial.put {}) := by
    obtain ⟨kv, hkv, _, hvar⟩ := hd.port ep hep
    exact lookup_record (List.ne_nil_of_mem (mem_settings_of_var hl hn hep hkv hvar))
  rw [List.perm_ext_iff_of_nodup (nodup_range _) hnodup]
  intro x
  rw [mem_range_iff, List.mem_map]
  constructor
  · intro hx
    -- an entry has a setting, the setting a variable, and the variable an endpoint
    have hne : settingsOf x.1 (settings go environ) ≠ [] := by
      intro hnil
      rw [lookup_record_eq_none hnil] at hx
      cases hx
    obtain ⟨s, hs⟩ := List.exists_mem_of_ne_nil _ hne
    obtain ⟨kv, hkv, hread⟩ := List.mem_filterMap.mp (mem_settingsOf.mp hs)
    rcases hd.only kv hkv with hforeign | ⟨ep, hep, s', hvar⟩
    · rw [readText_foreign hforeign] at hread
      cases hread
    · rw [readText_var (hl.each ep hep) (hn ep hep) hvar] at hread
      have hname : ep.name = x.1 := (Prod.mk.inj (Option.some.inj hread)).1
      refine ⟨ep, hep, ?_⟩
      rw [← hname, hlookup hep] at hx
      exact Sigma.ext hname (heq_of_eq (Option.some.inj hx))
  · rintro ⟨ep, hep, rfl⟩
    exact hlookup hep

end Gather

/-! ## The whole -/

theorem mapM_ok {α β ε : Type} {f : α → Except ε β} {g : α → β} {l : List α}
    (h : ∀ x ∈ l, f x = .ok (g x)) : l.mapM f = .ok (l.map g) := by
  induction l with
  | nil => rfl
  | cons x l ih =>
    obtain ⟨hx, hl⟩ := List.forall_mem_cons.mp h
    rw [List.mapM_cons, hx, ih hl]
    rfl

/-- Endpoints of different ports pass the check. -/
theorem findShared_eq_none {eps : List Endpoint} {seen : Finmap fun _ : ℕ => Bytes}
    (hports : (eps.map Endpoint.listenPort).Nodup)
    (hseen : ∀ ep ∈ eps, seen.lookup ep.listenPort = none) : findShared seen eps = none := by
  induction eps generalizing seen with
  | nil => rfl
  | cons ep eps ih =>
    obtain ⟨hep, hrest⟩ := List.forall_mem_cons.mp hseen
    rw [List.map_cons, List.nodup_cons] at hports
    rw [findShared, hep]
    apply ih hports.2
    intro ep' hep'
    rw [Finmap.lookup_insert_of_ne, hrest ep' hep']
    intro heq
    exact hports.1 (List.mem_map.mpr ⟨ep', hep', heq⟩)

theorem byName_perm (eps : List Endpoint) : (byName eps).Perm eps :=
  List.perm_insertionSort _ eps

/-- Names that differ come out in strictly rising order. -/
theorem byName_sorted {eps : List Endpoint} (h : (eps.map Endpoint.name).Nodup) :
    (byName eps).Pairwise fun a b => a.name < b.name := by
  have hle : (byName eps).Pairwise fun a b => a.name ≤ b.name := by
    have : Std.Total fun a b : Endpoint => a.name ≤ b.name :=
      ⟨fun a b => Std.Total.total (r := (· ≤ ·)) a.name b.name⟩
    have : IsTrans Endpoint fun a b => a.name ≤ b.name := ⟨fun _ _ _ => Std.le_trans⟩
    exact List.pairwise_insertionSort _ eps
  have hne : (byName eps).Pairwise fun a b => a.name ≠ b.name :=
    List.pairwise_map.mp (((byName_perm eps).map _).nodup_iff.mpr h)
  exact hle.imp₂ (fun _ _ h h' => Std.lt_of_le_of_ne h h') hne

theorem parseVars_eq {go : GoLib} {environ : List Bytes} {m : Partials} {out : List Endpoint}
    (hscan : environ.foldlM (scan go) ∅ = .ok m)
    (hmap : (go.range m).mapM (fun x => x.2.endpoint go x.1) = .ok out)
    (hports : (out.map Endpoint.listenPort).Nodup) : parseVars go environ = .ok (byName out) := by
  have hshared : findShared ∅ (byName out) = none := by
    apply findShared_eq_none (((byName_perm out).map _).nodup_iff.mpr hports)
    intro ep _
    rfl
  rw [parseVars, hscan]
  dsimp only [bind, Except.bind]
  split
  · next hm =>
    -- the early return is the same list
    have hnil : go.range m = [] := by
      rw [hm, ← Multiset.coe_eq_zero, go.range_entries]
      rfl
    rw [hnil] at hmap
    obtain rfl : [] = out := Except.ok.inj hmap
    rfl
  · rw [hmap]
    dsimp only
    rw [hshared]
    rfl

/-- The endpoints that an environment describes are read back, in the order of their names. -/
theorem parse_described {go : GoLib} {environ : List Bytes} {eps : List Endpoint}
    (hl : ValidList go eps) (hn : ∀ ep ∈ eps, Nameable ep) (hd : Describes go environ eps) :
    ∃ out, parse go environ = .ok out ∧ out.Perm (eps.map (lowered go)) ∧
      out.Pairwise fun a b => a.name < b.name := by
  have hscan : environ.foldlM (scan go) ∅ = .ok ((settings go environ).foldl record ∅) := by
    apply foldlM_scan
    intro kv hkv
    rcases hd.only kv hkv with hforeign | ⟨ep, hep, s, hvar⟩
    · exact .inl (readText_foreign hforeign)
    · exact .inr ⟨_, readText_var (hl.each ep hep) (hn ep hep) hvar⟩
  -- the loop over the map visits the endpoints in some order
  obtain ⟨eps', hrange, hperm⟩ : ∃ eps' : List Endpoint,
      go.range ((settings go environ).foldl record ∅) = eps'.map (gathered go environ) ∧
        eps'.Perm eps :=
    (congrFun (congrFun (List.eq_map_comp_perm (gathered go environ)) _) eps).mpr
      (range_perm hl hn hd)
  have hmap : (go.range ((settings go environ).foldl record ∅)).mapM
      (fun x => x.2.endpoint go x.1) = .ok (eps'.map (lowered go)) := by
    rw [hrange, List.mapM_map]
    apply mapM_ok
    intro ep hep
    have hep : ep ∈ eps := hperm.mem_iff.mp hep
    exact endpoint_of_has (hl.each ep hep) (has_gathered hl hn hd hep)
  have hports : ((eps'.map (lowered go)).map Endpoint.listenPort).Nodup := by
    rw [List.map_map]
    exact (hperm.map _).nodup_iff.mpr hl.ports
  have hnames : ((eps'.map (lowered go)).map Endpoint.name).Nodup := by
    rw [List.map_map]
    exact (hperm.map _).nodup_iff.mpr hl.names
  refine ⟨byName (eps'.map (lowered go)), ?_, ?_, byName_sorted hnames⟩
  · rw [parse, parseVars_eq hscan hmap hports]
    rfl
  · exact (byName_perm _).trans (hperm.map _)

/-! ## The variables, written out -/

def decimal (n : ℕ) : Bytes := (Nat.toDigits 10 n).map fun c => c.toNat.toUInt8

theorem toNat_of_digit {n : ℕ} {c : Char} (h : c ∈ Nat.toDigits 10 n) :
    48 ≤ c.toNat ∧ c.toNat ≤ 57 ∧ c.toNat.toUInt8.toNat = c.toNat := by
  have hdigit := Nat.isDigit_of_mem_toDigits (by decide) (by decide) h
  obtain ⟨hlow, hhigh⟩ : 48 ≤ c.toNat ∧ c.toNat ≤ 57 := Char.isDigit_iff_toNat.mp hdigit
  refine ⟨hlow, hhigh, ?_⟩
  rw [Nat.toUInt8_eq, UInt8.toNat_ofNat']
  exact Nat.mod_eq_of_lt (by omega)

theorem decimalValue_decimal (n : ℕ) : decimalValue (decimal n) = n := by
  rw [decimalValue, decimal, List.foldl_map]
  calc (Nat.toDigits 10 n).foldl (fun v c => 10 * v + (c.toNat.toUInt8.toNat - 48)) 0
      = Nat.ofDigitChars 10 (Nat.toDigits 10 n) 0 :=
        List.foldl_ext _ _ 0 fun v c hc => by rw [(toNat_of_digit hc).2.2]; rfl
    _ = n := Nat.ofDigitChars_ten_toDigits

theorem parseUint16_decimal {n : ℕ} (h : n ≤ 65535) : parseUint16 (decimal n) = some n := by
  rw [parseUint16, decimalValue_decimal, if_pos]
  refine ⟨?_, ?_, h⟩
  · rw [decimal, Ne, List.map_eq_nil_iff]
    exact Nat.toDigits_ne_nil
  · intro b hb
    obtain ⟨c, hc, rfl⟩ := List.mem_map.mp hb
    obtain ⟨hlow, hhigh, heq⟩ := toNat_of_digit hc
    rw [heq]
    exact ⟨hlow, hhigh⟩

/-- One variable for each field, and one for each header under its own name. -/
noncomputable def written (ep : Endpoint) : List Bytes :=
  [assign (envPrefix ++ (ep.name ++ suffixPort)) (decimal ep.listenPort),
    assign (envPrefix ++ (ep.name ++ suffixUpstreamURL)) ep.upstreamURL,
    assign (envPrefix ++ (ep.name ++ suffixDialAddress)) ep.dialAddress,
    assign (envPrefix ++ (ep.name ++ suffixInjectRunToken))
      (if ep.injectRunToken then utf8 "true" else utf8 "false")] ++
  ep.headers.entries.toList.map fun x =>
    assign (envPrefix ++ (ep.name ++ (infixHeader ++ x.1))) x.2

section Written

variable {go : GoLib} {ep : Endpoint}

theorem parseBool_ite (b : Bool) :
    parseBool (if b then utf8 "true" else utf8 "false") = some b := by
  cases b <;> decide

theorem dashes_eq (h : 0x5F ∉ hdr) : dashes hdr = hdr := by
  rw [dashes]
  conv_rhs => rw [← List.map_id hdr]
  apply List.map_congr_left
  intro b hb
  rw [if_neg, id]
  rintro rfl
  exact h hb

theorem says_header (hv : Valid go ep) {h value : Bytes}
    (hlookup : ep.headers.lookup h = some value) :
    Says go ep (assign (envPrefix ++ (ep.name ++ (infixHeader ++ h))) value) (.header h value) := by
  obtain ⟨hlower, hbar⟩ := hv.header h (Finmap.mem_of_lookup_eq_some hlookup)
  have hname : go.toLower (dashes h) = h := by rw [dashes_eq hbar, hlower]
  have hvar : Says go ep (assign (envPrefix ++ (ep.name ++ (infixHeader ++ h))) value)
      (.header (go.toLower (dashes h)) value) := .header (by rwa [hname])
  rwa [hname] at hvar

theorem says_written (hv : Valid go ep) (h : kv ∈ written ep) : ∃ s, Says go ep kv s := by
  rw [written, List.mem_append] at h
  rcases h with h | h
  · simp only [List.mem_cons, List.not_mem_nil, or_false] at h
    rcases h with rfl | rfl | rfl | rfl
    · exact ⟨_, .port (parseUint16_decimal hv.port.2)⟩
    · exact ⟨_, .upstreamURL⟩
    · exact ⟨_, .dialAddress⟩
    · exact ⟨_, .injectRunToken (parseBool_ite _)⟩
  · obtain ⟨x, hx, rfl⟩ := List.mem_map.mp h
    exact ⟨_, says_header hv (Finmap.mem_lookup_iff.mpr (Multiset.mem_toList.mp hx))⟩

/-- The variables written for each endpoint, in any order and among foreign ones, describe them. -/
theorem describes_written {environ others : List Bytes} {eps : List Endpoint}
    (hv : ∀ ep ∈ eps, Valid go ep) (hothers : ∀ kv ∈ others, Foreign kv)
    (hperm : environ.Perm (eps.flatMap written ++ others)) : Describes go environ eps := by
  have hmem {ep : Endpoint} (hep : ep ∈ eps) {kv : Bytes} (hkv : kv ∈ written ep) :
      kv ∈ environ :=
    hperm.mem_iff.mpr (List.mem_append_left _ (List.mem_flatMap.mpr ⟨ep, hep, hkv⟩))
  constructor
  case only =>
    intro kv hkv
    rcases List.mem_append.mp (hperm.mem_iff.mp hkv) with hkv | hkv
    · obtain ⟨ep, hep, hkv⟩ := List.mem_flatMap.mp hkv
      exact .inr ⟨ep, hep, says_written (hv ep hep) hkv⟩
    · exact .inl (hothers kv hkv)
  case port =>
    intro ep hep
    exact ⟨_, hmem hep (by simp [written]), _, .port (parseUint16_decimal (hv ep hep).port.2)⟩
  case upstreamURL => exact fun ep hep => ⟨_, hmem hep (by simp [written]), .upstreamURL⟩
  case dialAddress => exact fun ep hep _ => ⟨_, hmem hep (by simp [written]), .dialAddress⟩
  case injectRunToken =>
    exact fun ep hep _ => ⟨_, hmem hep (by simp [written]), .injectRunToken (parseBool_ite _)⟩
  case header =>
    intro ep hep h value hlookup
    refine ⟨_, hmem hep (List.mem_append_right _ (List.mem_map.mpr ⟨⟨h, value⟩, ?_, rfl⟩)),
      says_header (hv ep hep) hlookup⟩
    exact Multiset.mem_toList.mpr (Finmap.mem_lookup_iff.mp hlookup)

end Written

/-! ## Two lists of endpoints -/

def lowerByte (b : UInt8) : UInt8 := if 0x41 ≤ b ∧ b ≤ 0x5A then b + 0x20 else b

theorem lowerByte_eq_equals (b : UInt8) : lowerByte b = 0x3D ↔ b = 0x3D := by
  rw [lowerByte]
  split
  · next h =>
    constructor
    · intro heq
      have := congrArg UInt8.toNat heq
      simp only [UInt8.le_iff_toNat_le, UInt8.toNat_add, UInt8.reduceToNat] at h this
      omega
    · rintro rfl
      exact absurd h (by decide)
  · exact Iff.rfl

/-- A library for texts in ASCII, and URLs without a path. -/
noncomputable def asciiGo : GoLib where
  toLower s := s.map lowerByte
  quote s := utf8 "\"" ++ s ++ utf8 "\""
  parseURL s :=
    match cut (utf8 "://") s with
    | some (scheme, host) => .ok ⟨scheme, host⟩
    | none => .error (utf8 "no scheme")
  range m := m.entries.toList
  toLower_eq_nil s := List.map_eq_nil_iff
  equals_mem_toLower s := by
    rw [List.mem_map]
    constructor
    · rintro ⟨b, hb, heq⟩
      exact (lowerByte_eq_equals b).mp heq ▸ hb
    · exact fun h => ⟨0x3D, h, rfl⟩
  range_entries m := Multiset.coe_toList _

/-- Endpoints whose names end in reserved suffixes. -/
def twoEndpoints : List Endpoint :=
  [{ name := utf8 "ZETA_PORT", listenPort := 9002, upstreamURL := utf8 "http://z" },
    { name := utf8 "Api_UPSTREAM_URL", listenPort := 9000, upstreamURL := utf8 "https://api"
      dialAddress := utf8 "gateway:443", injectRunToken := true
      headers := Finmap.singleton (utf8 "x-header-key") (utf8 "a=b") }]

theorem twoEndpoints_valid : ValidList asciiGo twoEndpoints := by
  constructor
  case each =>
    intro ep hep
    simp only [twoEndpoints, List.mem_cons, List.not_mem_nil, or_false] at hep
    rcases hep with rfl | rfl
    · refine ⟨by decide, by decide, by decide, ⟨⟨utf8 "http", utf8 "z"⟩, rfl, by decide, by decide⟩,
        ?_⟩
      exact fun h hh => absurd hh Finmap.notMem_empty
    · refine ⟨by decide, by decide, by decide,
        ⟨⟨utf8 "https", utf8 "api"⟩, rfl, by decide, by decide⟩, ?_⟩
      intro h hh
      obtain rfl := (Finmap.mem_singleton _ _ _).mp hh
      exact ⟨by decide, by decide⟩
  case names => decide
  case ports => decide

theorem twoEndpoints_nameable : ∀ ep ∈ twoEndpoints, Nameable ep := by
  intro ep hep
  simp only [twoEndpoints, List.mem_cons, List.not_mem_nil, or_false] at hep
  rcases hep with rfl | rfl
  · exact ⟨by decide, fun h hh => absurd hh Finmap.notMem_empty⟩
  · refine ⟨by decide, fun h hh => ?_⟩
    obtain rfl := (Finmap.mem_singleton _ _ _).mp hh
    exact ⟨by decide, by decide⟩

theorem parse_described_reversed :
    ∃ out,
      parse asciiGo ((twoEndpoints.flatMap written ++ [utf8 "PATH=/usr/bin"]).reverse) = .ok out ∧
      out.Perm (twoEndpoints.map (lowered asciiGo)) ∧ out.Pairwise fun a b => a.name < b.name := by
  have hforeign : ∀ kv ∈ [utf8 "PATH=/usr/bin"], Foreign kv := by
    intro kv hkv
    obtain rfl := List.mem_singleton.mp hkv
    exact .inl (by decide)
  exact parse_described twoEndpoints_valid twoEndpoints_nameable
    (describes_written twoEndpoints_valid.each hforeign (List.reverse_perm _))

/-- An endpoint with a header that has no name. -/
def namelessHeader : Endpoint where
  name := utf8 "A"
  listenPort := 80
  upstreamURL := utf8 "http://a"
  headers := Finmap.singleton [] (utf8 "v")

theorem namelessHeader_valid : ValidList asciiGo [namelessHeader] := by
  refine ⟨?_, List.nodup_singleton _, List.nodup_singleton _⟩
  intro ep hep
  obtain rfl := List.mem_singleton.mp hep
  refine ⟨by decide, by decide, by decide, ⟨⟨utf8 "http", utf8 "a"⟩, rfl, by decide, by decide⟩, ?_⟩
  intro h hh
  obtain rfl := (Finmap.mem_singleton _ _ _).mp hh
  exact ⟨rfl, List.not_mem_nil⟩

def namelessEnviron : List Bytes :=
  [assign (envPrefix ++ (utf8 "A" ++ (infixHeader ++ []))) (utf8 "v"),
    assign (envPrefix ++ (utf8 "A" ++ suffixPort)) (decimal 80),
    assign (envPrefix ++ (utf8 "A" ++ suffixUpstreamURL)) (utf8 "http://a")]

theorem namelessHeader_described : Describes asciiGo namelessEnviron [namelessHeader] := by
  have hheader := @Says.header asciiGo namelessHeader [] (utf8 "v") Finmap.lookup_singleton_eq
  have hport := @Says.port asciiGo namelessHeader (decimal 80) (parseUint16_decimal (by decide))
  have hurl := @Says.upstreamURL asciiGo namelessHeader
  constructor
  case only =>
    intro kv hkv
    simp only [namelessEnviron, List.mem_cons, List.not_mem_nil, or_false] at hkv
    rcases hkv with rfl | rfl | rfl
    · exact .inr ⟨_, List.mem_singleton_self _, _, hheader⟩
    · exact .inr ⟨_, List.mem_singleton_self _, _, hport⟩
    · exact .inr ⟨_, List.mem_singleton_self _, _, hurl⟩
  all_goals
    intro ep hep
    obtain rfl := List.mem_singleton.mp hep
  case port => exact ⟨_, List.mem_cons_of_mem _ List.mem_cons_self, _, hport⟩
  case upstreamURL =>
    exact ⟨_, List.mem_cons_of_mem _ (List.mem_cons_of_mem _ List.mem_cons_self), hurl⟩
  case dialAddress => exact fun hne => absurd rfl hne
  case injectRunToken => exact fun htrue => absurd htrue (by decide)
  case header =>
    intro h value hlookup
    obtain rfl := (Finmap.mem_singleton _ _ _).mp (Finmap.mem_of_lookup_eq_some hlookup)
    obtain rfl : utf8 "v" = value := Option.some.inj hlookup
    exact ⟨_, List.mem_cons_self, hheader⟩

/-- The variable of a header without a name is refused. -/
theorem parse_namelessHeader :
    ValidList asciiGo [namelessHeader] ∧ Describes asciiGo namelessEnviron [namelessHeader] ∧
      parse asciiGo namelessEnviron =
        .error (utf8 "malformed sidecar env var \"SIDECAR_HTTP_A_HEADER_\"") := by
  refine ⟨namelessHeader_valid, namelessHeader_described, ?_⟩
  rw [parse, parseVars, namelessEnviron, List.foldlM_cons, scan_eq,
    readText_assign _ (by decide) (by decide), readVar_header_nil asciiGo _ (by decide)]
  rfl

end AgentOps.Sidecar.EnvParse
