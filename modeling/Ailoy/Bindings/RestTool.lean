import Ailoy.Lib.FormUrlencoded
import Ailoy.Lib.Template
import Mathlib.Data.List.Dedup

/-!
# The requests of REST tools

`add_restapi_tool` of `bindings/python/ailoy/agent.py` and `addRESTAPITool` of
`bindings/js-node/src/agent.ts`, up to the request that is handed to `http_request`. Both render the
base URL and the body and put the inputs that neither names into the query. They do the same with
what their languages bring, so `restRequest` has a `RestLanguage` for it. `RoutesParameters` is what
the request has to be. The query is overwritten, so the parameters of the rendered base URL are lost,
and a value in the path is not escaped, so a `?` or a `#` ends the path there. `Routable` is the
exact condition under which neither happens.
-/

namespace Ailoy

open Template FormUrlencoded

/-! ## The languages -/

/-- What a library writes for the parts of a url around its query: the part in front of it, unless
the library does not take the url, and the fragment with its mark. -/
structure UrlLibrary where
  front : List Char → Option (List Char)
  fragment : List Char → List Char

/-- What the code takes from its language: what a regular expression has as a blank, the text of a
value, the value that every map of inputs has for a key without an entry, the encoding of
parameters, and the library for urls. -/
structure RestLanguage (V : Type) where
  isSpace : Char → Bool
  text : V → String
  inherited : String → Option V
  safe : SafeSet
  urls : UrlLibrary

/-- The blanks of Unicode that the regular expressions of both languages have. -/
def commonSpaces : List Char :=
  ['\t', '\n', '\x0b', '\x0c', '\r', ' ', '\u00a0', '\u1680', '\u2000', '\u2001', '\u2002',
    '\u2003', '\u2004', '\u2005', '\u2006', '\u2007', '\u2008', '\u2009', '\u200a', '\u2028',
    '\u2029', '\u202f', '\u205f', '\u3000']

/-- The blanks of Python. -/
def pythonSpace (c : Char) : Bool :=
  (['\x1c', '\x1d', '\x1e', '\x1f', '\u0085'] ++ commonSpaces).contains c

/-- The marks that `urllib.parse.quote_plus` leaves as they are. -/
def quotePlusMarks : List UInt8 := [45, 46, 95, 126]

/-- The marks that `URLSearchParams` leaves as they are. -/
def searchParamsMarks : List UInt8 := [42, 45, 46, 95]

theorem quotePlusMarks_ascii : ∀ b ∈ quotePlusMarks, b < 128 := by simp [quotePlusMarks]

theorem quotePlusMarks_plain : ∀ b ∈ quotePlusMarks, b ∉ [37, 38, 43, 61] := by
  simp [quotePlusMarks]

theorem searchParamsMarks_ascii : ∀ b ∈ searchParamsMarks, b < 128 := by simp [searchParamsMarks]

theorem searchParamsMarks_plain : ∀ b ∈ searchParamsMarks, b ∉ [37, 38, 43, 61] := by
  simp [searchParamsMarks]

section Languages

variable {V : Type}

/-- Python, with its `str` and its `urlparse` and `urlunparse`. -/
def pythonLanguage (str : V → String) (urlparse : UrlLibrary) : RestLanguage V where
  isSpace := pythonSpace
  text := str
  inherited _ := none
  safe := ⟨alphanumericOr quotePlusMarks, lt_of_alphanumericOr quotePlusMarks_ascii,
    not_mem_of_alphanumericOr quotePlusMarks_plain⟩
  urls := urlparse

/-- Node, with its `String`, the properties that every object inherits, and its `URL`. -/
def nodeLanguage (string : V → String) (inherited : String → Option V) (url : UrlLibrary) :
    RestLanguage V where
  isSpace c := ('\ufeff' :: commonSpaces).contains c
  text := string
  inherited := inherited
  safe := ⟨alphanumericOr searchParamsMarks, lt_of_alphanumericOr searchParamsMarks_ascii,
    not_mem_of_alphanumericOr searchParamsMarks_plain⟩
  urls := url

end Languages

/-! ## The code -/

/-- `RESTAPIBehavior`, without what is done to the response. -/
structure RestBehavior where
  baseUrl : List Char
  method : String
  headers : Option (List (String × String))
  body : Option (List Char)

/-- The request that is handed to `http_request`. -/
structure RestRequest where
  url : List Char
  method : String
  headers : Option (List (String × String))
  body : Option (List Char)

/-- The bytes of a text. -/
def textBytes (s : String) : List UInt8 := s.toByteArray.data.toList

/-- A url with a query, which is left out with its mark when it is empty. -/
def writeUrl (front query fragment : List Char) : List Char :=
  front ++ ((if query = [] then [] else '?' :: query) ++ fragment)

section Code

variable {V : Type} (L : RestLanguage V)

/-- What a placeholder is replaced by, if it has a value. -/
def RestLanguage.value (context : List (String × V)) (key : String) : Option (List Char) :=
  ((context.lookup key).or (L.inherited key)).map fun v => (L.text v).toList

/-- An input as a parameter of a query. -/
def RestLanguage.param (kv : String × V) : List UInt8 × List UInt8 :=
  (textBytes kv.1, textBytes (L.text kv.2))

/-- `render_template`, with the names of the placeholders. -/
def renderTemplate (template : List Char) (context : List (String × V)) :
    List Char × List String :=
  let ps := pieces L.isSpace template
  (render (L.value context) ps, (keys ps).dedup)

/-- `call` of a REST tool, up to the request that it makes. It makes none for a url that the library
does not take. -/
def restRequest (behavior : RestBehavior) (inputs : List (String × V)) : Option RestRequest :=
  let (url, pathVars) := renderTemplate L behavior.baseUrl inputs
  let (body, bodyVars) :=
    match behavior.body with
    | some template =>
      let (body, bodyVars) := renderTemplate L template inputs
      (some body, bodyVars)
    | none => (none, [])
  let queryParams := inputs.filter fun kv => !(pathVars ++ bodyVars).contains kv.1
  (L.urls.front url).map fun front =>
    { url := writeUrl front (serialize L.safe (queryParams.map L.param)) (L.urls.fragment url)
      method := behavior.method
      headers := behavior.headers
      body := body.filter (· ≠ []) }

end Code

/-! ## What a request has to be -/

/-- The part of a url in front of its query and its fragment. -/
def pathOf (url : List Char) : List Char := url.takeWhile fun c => c != '?' && c != '#'

/-- The query of a url. -/
def queryOf (url : List Char) : List Char :=
  ((url.takeWhile (· ≠ '#')).dropWhile (· ≠ '?')).drop 1

section Spec

variable {V : Type} (L : RestLanguage V) (behavior : RestBehavior) (inputs : List (String × V))

/-- The pieces of the base URL. -/
def urlPieces : List Piece := pieces L.isSpace behavior.baseUrl

/-- The pieces of the body; without a body there are none. -/
def bodyPieces : List Piece := pieces L.isSpace (behavior.body.getD [])

/-- The base URL with its placeholders replaced. -/
def renderedUrl : List Char := render (L.value inputs) (urlPieces L behavior)

/-- The body with its placeholders replaced. -/
def renderedBody : List Char := render (L.value inputs) (bodyPieces L behavior)

/-- The inputs that neither template names. -/
def unnamedInputs : List (String × V) :=
  inputs.filter fun kv => kv.1 ∉ keys (urlPieces L behavior) ∧ kv.1 ∉ keys (bodyPieces L behavior)

/-- A value is where it belongs: it replaces a placeholder that stands wholly in the path of the
rendered base URL, it is a parameter of the query, or it replaces a placeholder of the body. -/
def Arrives (query body : List Char) (key : String) (v : V) : Prop :=
  (∃ pre post, urlPieces L behavior = pre ++ .placeholder key :: post ∧
    render (L.value inputs) pre ++ (L.text v).toList <+: pathOf (renderedUrl L behavior inputs)) ∨
  L.param (key, v) ∈ parse query ∨
  ∃ pre post, bodyPieces L behavior = pre ++ .placeholder key :: post ∧
    body = render (L.value inputs) pre ++ (L.text v).toList ++ render (L.value inputs) post

/-- A request is made. Its url is the rendered base URL, with a query that has the parameters of
that url and behind them the inputs that neither template names; its body is the rendered body, which
may be left out when it is empty; and every value arrives, unless it is empty. -/
def RoutesParameters : Prop :=
  ∃ request front query,
    restRequest L behavior inputs = some request ∧
    L.urls.front (renderedUrl L behavior inputs) = some front ∧
    request.url = writeUrl front query (L.urls.fragment (renderedUrl L behavior inputs)) ∧
    parse query = parse (queryOf (renderedUrl L behavior inputs)) ++
      (unnamedInputs L behavior inputs).map L.param ∧
    request.body.getD [] = renderedBody L behavior inputs ∧
    ∀ key v, inputs.lookup key = some v → L.text v = "" ∨
      Arrives L behavior inputs query (request.body.getD []) key v

/-- The library takes the rendered base URL, which has no parameters, and of each input that the
base URL names and the body does not, a placeholder stands where no `?` and no `#` comes before it
or in its value. -/
structure Routable : Prop where
  taken : ∃ front, L.urls.front (renderedUrl L behavior inputs) = some front
  query : parse (queryOf (renderedUrl L behavior inputs)) = []
  path : ∀ key v, inputs.lookup key = some v → L.text v ≠ "" → key ∈ keys (urlPieces L behavior) →
    key ∉ keys (bodyPieces L behavior) →
    ∃ pre post, urlPieces L behavior = pre ++ .placeholder key :: post ∧
      ∀ c ∈ render (L.value inputs) pre ++ (L.text v).toList, c ≠ '?' ∧ c ≠ '#'

end Spec

/-! ## The request that is made -/

theorem textBytes_injective : Function.Injective textBytes := fun _ _ h =>
  String.toByteArray_inj.mp (ByteArray.ext (Array.toList_inj.mp h))

/-- A url is written differently for another query. -/
theorem writeUrl_inj {front query query' fragment : List Char}
    (h : writeUrl front query fragment = writeUrl front query' fragment) : query = query' := by
  have hmiddle := List.append_cancel_right (List.append_cancel_left h)
  split_ifs at hmiddle with hnil hnil' hnil'
  · rw [hnil, hnil']
  · exact (List.cons_inj_right _).mp hmiddle

/-- A prefix of a url lies in its path when none of the two marks is in it. -/
theorem prefix_pathOf_iff {lead url : List Char} (h : lead <+: url) :
    lead <+: pathOf url ↔ ∀ c ∈ lead, c ≠ '?' ∧ c ≠ '#' := by
  constructor
  · intro hpath c hc
    simpa using List.mem_takeWhile_imp (hpath.subset hc)
  · intro hall
    obtain ⟨rest, rfl⟩ := h
    rw [pathOf, List.takeWhile_append_of_pos (by simpa using hall)]
    exact List.prefix_append _ _

section Requests

variable {V : Type} {L : RestLanguage V} {behavior : RestBehavior} {inputs : List (String × V)}

theorem value_of_lookup {key : String} {v : V} (h : inputs.lookup key = some v) :
    L.value inputs key = some (L.text v).toList := by
  rw [RestLanguage.value, h]
  rfl

/-- The query that the code writes. -/
def ownQuery (L : RestLanguage V) (behavior : RestBehavior) (inputs : List (String × V)) :
    List Char :=
  serialize L.safe ((unnamedInputs L behavior inputs).map L.param)

/-- A body that is left out when it is empty. -/
theorem getD_filter_ne_nil (body : List Char) : ((some body).filter (· ≠ [])).getD [] = body := by
  cases body with
  | nil => rfl
  | cons c cs => rfl

/-- What the set difference leaves are the inputs without one of the names. -/
theorem filter_unnamed (ks ks' : List String) (inputs : List (String × V)) :
    (inputs.filter fun kv => !(ks.dedup ++ ks'.dedup).contains kv.1) =
      inputs.filter fun kv => kv.1 ∉ ks ∧ kv.1 ∉ ks' := by
  refine List.filter_congr fun kv _ => ?_
  simp [List.mem_dedup, Bool.decide_and]

/-- The request, if the library takes the url: it has the query of the code and the rendered body. -/
theorem restRequest_spec (L : RestLanguage V) (behavior : RestBehavior)
    (inputs : List (String × V)) :
    ∃ body : Option (List Char), body.getD [] = renderedBody L behavior inputs ∧
      restRequest L behavior inputs = (L.urls.front (renderedUrl L behavior inputs)).map
        fun front =>
          ⟨writeUrl front (ownQuery L behavior inputs)
            (L.urls.fragment (renderedUrl L behavior inputs)),
            behavior.method, behavior.headers, body⟩ := by
  obtain ⟨baseUrl, method, headers, body⟩ := behavior
  cases body with
  | none =>
    have hfilter := filter_unnamed (keys (pieces L.isSpace baseUrl)) [] inputs
    refine ⟨none, rfl, ?_⟩
    simp only [restRequest, renderTemplate]
    rw [← List.dedup_nil, hfilter]
    rfl
  | some template =>
    have hfilter := filter_unnamed (keys (pieces L.isSpace baseUrl))
      (keys (pieces L.isSpace template)) inputs
    refine ⟨(some (render (L.value inputs) (pieces L.isSpace template))).filter (· ≠ []), ?_, ?_⟩
    · exact getD_filter_ne_nil _
    · simp only [restRequest, renderTemplate, hfilter]
      rfl

/-- A value of which the body has a placeholder arrives there. -/
theorem arrives_of_mem_body {key : String} {v : V} (hlookup : inputs.lookup key = some v)
    (h : key ∈ keys (bodyPieces L behavior)) (query : List Char) :
    Arrives L behavior inputs query (renderedBody L behavior inputs) key v := by
  obtain ⟨pre, post, hsplit⟩ := mem_keys_iff.mp h
  refine .inr (.inr ⟨pre, post, hsplit, ?_⟩)
  rw [renderedBody, hsplit, render_split (value_of_lookup hlookup)]

/-- What is rendered in front of a placeholder and for it is in front of the rendered url. -/
theorem renderedUrl_starts {key : String} {v : V} (hlookup : inputs.lookup key = some v)
    {pre post : List Piece} (hsplit : urlPieces L behavior = pre ++ .placeholder key :: post) :
    render (L.value inputs) pre ++ (L.text v).toList <+: renderedUrl L behavior inputs := by
  rw [renderedUrl, hsplit, render_split (value_of_lookup hlookup)]
  exact List.prefix_append _ _

/-- The request of a tool is what it has to be exactly when it is routable. -/
theorem routesParameters_iff (L : RestLanguage V) (behavior : RestBehavior)
    (inputs : List (String × V)) :
    RoutesParameters L behavior inputs ↔ Routable L behavior inputs := by
  obtain ⟨body, hbody, hrequest⟩ := restRequest_spec L behavior inputs
  have hown : parse (ownQuery L behavior inputs) =
      (unnamedInputs L behavior inputs).map L.param := parse_serialize L.safe _
  constructor
  · rintro ⟨request, front, query, hreq, hfront, hurl, hparse, -, harrives⟩
    rw [hrequest, hfront, Option.map_some, Option.some.injEq] at hreq
    subst hreq
    -- The library writes the same front and fragment, so the query is the one of the code.
    obtain rfl := writeUrl_inj hurl
    rw [hown] at hparse
    have hnone := List.append_left_eq_self.mp hparse.symm
    refine ⟨⟨front, hfront⟩, hnone, fun key v hlookup htext hkey hnot => ?_⟩
    rcases (harrives key v hlookup).resolve_left htext with
      ⟨pre, post, hsplit, hprefix⟩ | hmem | ⟨pre, post, hsplit, -⟩
    · exact ⟨pre, post, hsplit, (prefix_pathOf_iff (renderedUrl_starts hlookup hsplit)).mp hprefix⟩
    · rw [hown] at hmem
      obtain ⟨kv, hkv, heq⟩ := List.mem_map.mp hmem
      have hname : kv.1 = key := textBytes_injective (Prod.mk.inj heq).1
      have hunnamed := (List.mem_filter.mp hkv).2
      rw [decide_eq_true_eq, hname] at hunnamed
      exact absurd hkey hunnamed.1
    · exact absurd (mem_keys_iff.mpr ⟨pre, post, hsplit⟩) hnot
  · rintro ⟨⟨front, hfront⟩, hquery, hpath⟩
    rw [hfront, Option.map_some] at hrequest
    refine ⟨_, front, ownQuery L behavior inputs, hrequest, hfront, rfl, ?_, hbody, ?_⟩
    · rw [hown, hquery, List.nil_append]
    · intro key v hlookup
      by_cases htext : L.text v = ""
      · exact .inl htext
      refine .inr ?_
      show Arrives L behavior inputs _ (body.getD []) key v
      rw [hbody]
      by_cases hinBody : key ∈ keys (bodyPieces L behavior)
      · exact arrives_of_mem_body hlookup hinBody _
      by_cases hinUrl : key ∈ keys (urlPieces L behavior)
      · obtain ⟨pre, post, hsplit, hplain⟩ := hpath key v hlookup htext hinUrl hinBody
        exact .inl ⟨pre, post, hsplit,
          (prefix_pathOf_iff (renderedUrl_starts hlookup hsplit)).mpr hplain⟩
      · refine .inr (.inl ?_)
        rw [hown]
        obtain ⟨front, back, rfl, -⟩ := List.lookup_eq_some_iff.mp hlookup
        exact List.mem_map_of_mem (List.mem_filter.mpr
          ⟨by simp, decide_eq_true ⟨hinUrl, hinBody⟩⟩)

end Requests

/-- A library that writes the parts of a url as they are. -/
def plainUrls : UrlLibrary := ⟨fun url => some (pathOf url), fun url => url.dropWhile (· ≠ '#')⟩

example : (restRequest (pythonLanguage id plainUrls)
    ⟨"http://h/s?q=${q}".toList, "GET", none, none⟩ [("q", "x")]).map RestRequest.url =
      some "http://h/s".toList := by decide

end Ailoy
