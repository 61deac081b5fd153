import Ailoy.Lib.Except
import Ailoy.Lib.UnorderedMap
import Ailoy.Vm.Messages
import Ailoy.Vm.SplitTextOps

/-!
# The operator `http_request`

`http_request_op` and `run_http_request` of `vm/src/http_request.cpp`. The HTTP client is a parameter:
what it is given is a `ClientCall`. `Url` is an absolute url by its parts, and `Transmits` says that
the one call of the client carries what the operator was given. The code cuts the url at `://` and
at the next slash, so the client never learns the scheme, and what stands between is its host; the
body goes through `data()`, which ends it at its first NUL; and a header that is no string is
dereferenced. `httpRequest_transmits_iff` has the exact inputs that get through.
-/

namespace Ailoy

/-! ## Requests of the client -/

/-- `http_request_t`. -/
structure HttpRequest where
  url : String
  method : String
  headers : UnorderedMap String String
  body : Option String

/-- `http_response_t`. -/
structure HttpResponse where
  statusCode : Int32
  headers : UnorderedMap String String
  body : String

/-- A request as the HTTP client is given it: the argument that it is made with, the method that is
called by its HTTP name, and the arguments of the call. `Post` and `Put` also have a body and its
content type. -/
structure ClientCall where
  schemeHostPort : String
  method : String
  path : String
  headers : List (String × String)
  content : Option (String × String)

/-- A response of the HTTP client. -/
structure ClientResult where
  status : Int32
  headers : List (String × String)
  body : String

/-- The `std::string` that is made of `s.data()`. -/
def cString (s : String) : String := String.ofList (s.toList.takeWhile (· ≠ '\x00'))

/-- What stands behind the first `://`. -/
def afterScheme : List Char → Option (List Char)
  | [] => none
  | c :: cs => if ['/', '/'].isPrefixOf cs && c = ':' then some (cs.drop 2) else afterScheme cs

/-- The host and the path of what stands behind `://`. -/
def hostAndPath (rest : List Char) : List Char × List Char :=
  (rest.takeWhile (· ≠ '/'), if '/' ∈ rest then rest.dropWhile (· ≠ '/') else ['/'])

/-- The call of the client, unless the method is another one. -/
def clientCall (req : HttpRequest) (host path : String) : Option ClientCall :=
  let headers := req.headers.entries.map fun kv => (kv.1, kv.2)
  let body := (req.body.map cString).getD ""
  let contentType := (req.headers.lookup "Content-Type").getD "text/plain"
  if req.method = "GET" then some ⟨host, "GET", path, headers, none⟩
  else if req.method = "POST" then some ⟨host, "POST", path, headers, some (body, contentType)⟩
  else if req.method = "PUT" then some ⟨host, "PUT", path, headers, some (body, contentType)⟩
  else if req.method = "DELETE" then some ⟨host, "DELETE", path, headers, none⟩
  else none

/-- The response that is made of what the client returns. -/
def httpResponse : Option ClientResult → HttpResponse
  | some result =>
    ⟨result.status, result.headers.foldl (fun m kv => m.insert kv.1 kv.2) ∅, result.body⟩
  | none => ⟨500, ∅, "Request Failed"⟩

/-- `run_http_request`, with the calls of the client that it makes. -/
def runHttpRequest (client : ClientCall → Option ClientResult) (req : HttpRequest) :
    List ClientCall × HttpResponse :=
  match afterScheme req.url.toList with
  | none => ([], ⟨400, ∅, "Invalid URL format"⟩)
  | some rest =>
    let (host, path) := hostAndPath rest
    match clientCall req (String.ofList host) (String.ofList path) with
    | none => ([], ⟨400, ∅, "Unsupported HTTP method"⟩)
    | some call => ([call], httpResponse (client call))

/-! ## The operator -/

/-- The inputs of the operator. -/
structure HttpInputs where
  url : String
  method : String
  headers : List (String × Value)
  body : String

/-- The methods that the operator takes. -/
def httpMethods : List String := ["GET", "POST", "PUT", "DELETE"]

section Operator

variable (getType : Value → String)

/-- An input that has to be there as a string. -/
def readHttpString (name : String) (m : List (String × Value)) : Except ErrorOutput String :=
  match m.lookup name with
  | none => .error (.rangeError "http_request" name)
  | some (.string s) => .ok s
  | some v => .error (.typeError "http_request" name "string_t" (getType v))

/-- The method with its check. -/
def readHttpMethod (m : List (String × Value)) : Except ErrorOutput String := do
  let method ← readHttpString getType "method" m
  if method ∈ httpMethods then return method
  else .error (.valueError "HTTP Request" "method" "GET | POST | PUT | DELETE" method)

/-- The headers, which may be left out. -/
def readHttpHeaders (m : List (String × Value)) : Except ErrorOutput (List (String × Value)) :=
  match m.lookup "headers" with
  | none => .ok []
  | some (.map headers) => .ok headers
  | some v => .error (.typeError "http_request" "headers" "map_t" (getType v))

/-- The body, which may be left out. -/
def readHttpBody (m : List (String × Value)) : Except ErrorOutput String :=
  match m.lookup "body" with
  | none => .ok ""
  | some (.string body) => .ok body
  | some v => .error (.typeError "http_request" "body" "string_t" (getType v))

/-- The checks of the inputs, in their order. -/
def readHttpInputs : Value → Except ErrorOutput HttpInputs
  | .map m => do
    let url ← readHttpString getType "url" m
    let method ← readHttpMethod getType m
    let headers ← readHttpHeaders getType m
    let body ← readHttpBody getType m
    return { url, method, headers, body }
  | v => .error (.typeError "http_request" "inputs" "map_t" (getType v))

/-- `req_headers_map`, from what it holds already. -/
def httpHeaders (acc : UnorderedMap String String) :
    List (String × Value) → Except Fault (UnorderedMap String String)
  | [] => .ok acc
  | (key, v) :: headers => do
    let value ← v.asString
    httpHeaders (UnorderedMap.insertNew acc key value) headers

/-- The response as an output. -/
def HttpResponse.output (resp : HttpResponse) : Value :=
  .map [("status_code", .uint resp.statusCode.toInt64.toUInt64),
    ("headers", .map (resp.headers.entries.map fun kv => (kv.1, .string kv.2))),
    ("body", .bytes (SplitText.bytesOf resp.body))]

/-- `http_request_op`, with the calls of the client that it makes. -/
def httpRequestOp (client : ClientCall → Option ClientResult) (inputs : Value) :
    List ClientCall × Except Fault (Except ErrorOutput Value) :=
  match readHttpInputs getType inputs with
  | .error e => ([], .ok (.error e))
  | .ok i =>
    match httpHeaders ∅ i.headers with
    | .error f => ([], .error f)
    | .ok headers =>
      let (calls, resp) := runHttpRequest client ⟨i.url, i.method, headers, some (cString i.body)⟩
      (calls, .ok (.ok resp.output))

end Operator

/-! ## Urls and what is transmitted -/

/-- What a delimiter introduces, if it is there. -/
def optionalPart (delimiter : Char) : Option (List Char) → List Char
  | none => []
  | some part => delimiter :: part

/-- An absolute url with an authority, by its parts in the generic syntax of urls. -/
structure Url where
  scheme : List Char
  userinfo : Option (List Char)
  host : List Char
  port : Option (List Char)
  path : List Char
  query : Option (List Char)
  fragment : Option (List Char)
  scheme_chars : ∀ c ∈ scheme, c.isAlphanum ∨ c ∈ ['+', '-', '.']
  userinfo_chars : ∀ part ∈ userinfo, ∀ c ∈ part, c ∉ ['/', '?', '#', '@']
  host_chars : ∀ c ∈ host, c ∉ ['/', '?', '#', '@']
  port_chars : ∀ part ∈ port, ∀ c ∈ part, c.isDigit
  path_head : path = [] ∨ path.head? = some '/'
  path_chars : ∀ c ∈ path, c ∉ ['?', '#']
  query_chars : ∀ part ∈ query, '#' ∉ part

namespace Url

/-- The host and the port of a url. -/
def hostPort (u : Url) : List Char := u.host ++ optionalPart ':' u.port

/-- The authority of a url. -/
def authority (u : Url) : List Char :=
  (match u.userinfo with
    | none => []
    | some part => part ++ ['@']) ++ u.hostPort

/-- What stands behind the authority. -/
def tail (u : Url) : List Char :=
  u.path ++ (optionalPart '?' u.query ++ optionalPart '#' u.fragment)

/-- The text of a url. -/
def render (u : Url) : String :=
  String.ofList (u.scheme ++ ':' :: '/' :: '/' :: (u.authority ++ u.tail))

/-- The target of a request for a url: its path, which is `/` when it is empty, and its query. -/
def target (u : Url) : List Char :=
  (if u.path = [] then ['/'] else u.path) ++ optionalPart '?' u.query

end Url

namespace ClientCall

/-- The client uses TLS exactly when its argument starts with `https://`. -/
def scheme (call : ClientCall) : List Char :=
  if "https://".toList.isPrefixOf call.schemeHostPort.toList then "https".toList else "http".toList

/-- The argument of the client without a scheme. -/
def hostPort (call : ClientCall) : List Char :=
  let argument := call.schemeHostPort.toList
  if "https://".toList.isPrefixOf argument then argument.drop 8
  else if "http://".toList.isPrefixOf argument then argument.drop 7
  else argument

/-- The call carries what was given: the parts of the url, the method, every header once, and with
`Post` and `Put` the body. -/
structure Carries (call : ClientCall) (i : HttpInputs) (u : Url) : Prop where
  scheme : call.scheme = u.scheme.map Char.toLower
  hostPort : call.hostPort = u.hostPort
  path : call.path.toList = u.target
  method : call.method = i.method
  headers_nodup : (call.headers.map Prod.fst).Nodup
  headers : ∀ k s, (k, s) ∈ call.headers ↔ i.headers.lookup k = some (.string s)
  body : i.method ∈ ["POST", "PUT"] → call.content.map Prod.fst = some i.body

end ClientCall

/-- The inputs are what a map of inputs gives. -/
structure HttpInputs.Given (i : HttpInputs) (m : List (String × Value)) : Prop where
  url : m.lookup "url" = some (.string i.url)
  method : m.lookup "method" = some (.string i.method)
  method_mem : i.method ∈ httpMethods
  headers : m.lookup "headers" = some (.map i.headers) ∨ m.lookup "headers" = none ∧ i.headers = []
  body : m.lookup "body" = some (.string i.body) ∨ m.lookup "body" = none ∧ i.body = ""

/-- Every header is a string. -/
def HttpInputs.HeadersAreStrings (i : HttpInputs) : Prop := ∀ h ∈ i.headers, ∃ s, h.2 = .string s

/-- The inputs that the operator can send: over plain HTTP, to a url that has nothing but a host and
a port in its authority, a path if it has a query, and no fragment, and with `POST` and `PUT` a body
without a NUL. -/
structure HttpInputs.Sendable (i : HttpInputs) (u : Url) : Prop where
  headers : i.HeadersAreStrings
  scheme : u.scheme.map Char.toLower = "http".toList
  userinfo : u.userinfo = none
  path : u.path ≠ [] ∨ u.query = none
  fragment : u.fragment = none
  body : i.method ∈ ["POST", "PUT"] → '\x00' ∉ i.body.toList

/-- The operator returns, and its one call of the client carries what it was given. -/
def Transmits (getType : Value → String) (client : ClientCall → Option ClientResult)
    (m : List (String × Value)) (i : HttpInputs) (u : Url) : Prop :=
  ∃ call out, httpRequestOp getType client (.map m) = ([call], .ok (.ok out)) ∧ call.Carries i u

/-! ## What the operator makes of its inputs -/

section Inputs

variable {getType : Value → String}

theorem readHttpString_eq_ok_iff {name s : String} {m : List (String × Value)} :
    readHttpString getType name m = .ok s ↔ m.lookup name = some (.string s) := by
  unfold readHttpString
  split
  · rename_i hlookup
    simp [hlookup]
  · rename_i hlookup
    simp [hlookup]
  · rename_i hnot hlookup
    simpa [hlookup] using hnot s

theorem readHttpMethod_eq_ok_iff {s : String} {m : List (String × Value)} :
    readHttpMethod getType m = .ok s ↔
      m.lookup "method" = some (.string s) ∧ s ∈ httpMethods := by
  unfold readHttpMethod
  rw [Except.bind_eq_ok_iff]
  constructor
  · rintro ⟨method, hread, hcheck⟩
    split_ifs at hcheck with hmem
    cases hcheck
    exact ⟨readHttpString_eq_ok_iff.mp hread, hmem⟩
  · rintro ⟨hlookup, hmem⟩
    exact ⟨s, readHttpString_eq_ok_iff.mpr hlookup, if_pos hmem⟩

theorem readHttpHeaders_eq_ok_iff {m headers : List (String × Value)} :
    readHttpHeaders getType m = .ok headers ↔
      m.lookup "headers" = some (.map headers) ∨ m.lookup "headers" = none ∧ headers = [] := by
  unfold readHttpHeaders
  split
  · rename_i hlookup
    simp [hlookup, eq_comm]
  · rename_i hlookup
    simp [hlookup]
  · rename_i hnot hlookup
    simpa [hlookup] using hnot headers

theorem readHttpBody_eq_ok_iff {m : List (String × Value)} {body : String} :
    readHttpBody getType m = .ok body ↔
      m.lookup "body" = some (.string body) ∨ m.lookup "body" = none ∧ body = "" := by
  unfold readHttpBody
  split
  · rename_i hlookup
    simp [hlookup, eq_comm]
  · rename_i hlookup
    simp [hlookup]
  · rename_i hnot hlookup
    simpa [hlookup] using hnot body

variable (getType) in
/-- The checks pass for the maps that give inputs. -/
theorem readHttpInputs_eq_ok_iff {v : Value} {i : HttpInputs} :
    readHttpInputs getType v = .ok i ↔ ∃ m, v = .map m ∧ i.Given m := by
  constructor
  · intro h
    cases v with
    | map m =>
      obtain ⟨url, hurl, h⟩ := Except.bind_eq_ok_iff.mp h
      obtain ⟨method, hmethod, h⟩ := Except.bind_eq_ok_iff.mp h
      obtain ⟨headers, hheaders, h⟩ := Except.bind_eq_ok_iff.mp h
      obtain ⟨body, hbody, h⟩ := Except.bind_eq_ok_iff.mp h
      cases h
      obtain ⟨hlookup, hmem⟩ := readHttpMethod_eq_ok_iff.mp hmethod
      exact ⟨m, rfl, readHttpString_eq_ok_iff.mp hurl, hlookup, hmem,
        readHttpHeaders_eq_ok_iff.mp hheaders, readHttpBody_eq_ok_iff.mp hbody⟩
    | _ => cases h
  · rintro ⟨m, rfl, hurl, hmethod, hmem, hheaders, hbody⟩
    rw [readHttpInputs, readHttpString_eq_ok_iff.mpr hurl,
      readHttpMethod_eq_ok_iff.mpr ⟨hmethod, hmem⟩, readHttpHeaders_eq_ok_iff.mpr hheaders,
      readHttpBody_eq_ok_iff.mpr hbody]
    rfl

/-- The headers are copied when each of them is a string; the code throws at one that is not. -/
theorem httpHeaders_cases (acc : UnorderedMap String String) (headers : List (String × Value)) :
    ((∀ h ∈ headers, ∃ s, h.2 = .string s) ∧ ∃ m, httpHeaders acc headers = .ok m ∧
      ∀ k s, m.lookup k = some s ↔
        acc.lookup k = some s ∨ acc.lookup k = none ∧ headers.lookup k = some (.string s)) ∨
    (¬ (∀ h ∈ headers, ∃ s, h.2 = .string s) ∧ ∃ f, httpHeaders acc headers = .error f) := by
  induction headers generalizing acc with
  | nil => exact .inl ⟨by simp, acc, rfl, by simp⟩
  | cons h headers ih =>
    obtain ⟨key, v⟩ := h
    by_cases hv : ∃ s, v = .string s
    · obtain ⟨value, rfl⟩ := hv
      have hstep : httpHeaders acc ((key, .string value) :: headers) =
          httpHeaders (UnorderedMap.insertNew acc key value) headers := rfl
      rw [hstep]
      rcases ih (UnorderedMap.insertNew acc key value) with ⟨hall, m, hm, hlookup⟩ | ⟨hnot, hf⟩
      · refine .inl ⟨by simpa using hall, m, hm, fun k s => ?_⟩
        rw [hlookup, UnorderedMap.lookup_insertNew, List.lookup_cons]
        by_cases hk : k = key
        · cases hacc : acc.lookup k <;> simp [hk]
        · cases hacc : acc.lookup k <;> simp [hk, beq_false_of_ne hk]
      · exact .inr ⟨fun hall => hnot fun h hmem => hall h (List.mem_cons_of_mem _ hmem), hf⟩
    · refine .inr ⟨fun hall => hv (hall (key, v) List.mem_cons_self), .nullDereference, ?_⟩
      cases v with
      | string value => exact absurd ⟨value, rfl⟩ hv
      | _ => rfl

end Inputs

/-! ## What the client is given -/

theorem afterScheme_append {s : List Char} (hs : ':' ∉ s) (cs : List Char) :
    afterScheme (s ++ ':' :: '/' :: '/' :: cs) = some cs := by
  induction s with
  | nil => simp [afterScheme]
  | cons c s ih =>
    obtain ⟨hne, hs⟩ := List.ne_and_not_mem_of_not_mem_cons hs
    rw [List.cons_append, afterScheme, if_neg (by simp [Ne.symm hne])]
    exact ih hs

/-- The call of the client for a method that the operator takes. -/
theorem clientCall_spec (req : HttpRequest) (h : req.method ∈ httpMethods) (host path : String) :
    ∃ call, clientCall req host path = some call ∧ call.schemeHostPort = host ∧
      call.path = path ∧ call.method = req.method ∧
      call.headers = (req.headers.entries.map fun kv => (kv.1, kv.2)) ∧
      (req.method ∈ ["POST", "PUT"] →
        call.content.map Prod.fst = some ((req.body.map cString).getD "")) := by
  obtain ⟨url, method, headers, body⟩ := req
  simp only [httpMethods, List.mem_cons, List.not_mem_nil, or_false] at h
  rcases h with rfl | rfl | rfl | rfl
  · exact ⟨_, rfl, rfl, rfl, rfl, rfl, by simp⟩
  · exact ⟨_, rfl, rfl, rfl, rfl, rfl, fun _ => rfl⟩
  · exact ⟨_, rfl, rfl, rfl, rfl, rfl, fun _ => rfl⟩
  · exact ⟨_, rfl, rfl, rfl, rfl, rfl, by simp⟩

/-! ### The body -/

theorem cString_eq_self_iff {s : String} : cString s = s ↔ '\x00' ∉ s.toList := by
  rw [← String.toList_inj, cString, String.toList_ofList, List.takeWhile_eq_self_iff]
  simp only [ne_eq, decide_not, Bool.not_eq_true', decide_eq_false_iff_not]
  exact ⟨fun h hmem => h _ hmem rfl, fun h c hc hzero => h (hzero ▸ hc)⟩

/-- The second conversion keeps what the first one left. -/
theorem cString_cString (s : String) : cString (cString s) = cString s := by
  rw [cString_eq_self_iff, cString, String.toList_ofList]
  intro hmem
  simpa using List.mem_takeWhile_imp hmem

/-! ### The url -/

/-- An argument without a slash starts with no scheme, so the client gets it as plain HTTP. -/
theorem ClientCall.scheme_of_no_slash {call : ClientCall}
    (h : '/' ∉ call.schemeHostPort.toList) :
    call.scheme = "http".toList ∧ call.hostPort = call.schemeHostPort.toList := by
  have hprefix : ∀ lead : List Char, '/' ∈ lead →
      lead.isPrefixOf call.schemeHostPort.toList = false := by
    intro lead hlead
    rw [Bool.eq_false_iff, ne_eq, List.isPrefixOf_iff_prefix]
    exact fun hpre => h (hpre.subset hlead)
  have htls := hprefix "https://".toList (by simp)
  have hplain := hprefix "http://".toList (by simp)
  constructor
  · rw [ClientCall.scheme, htls]
    rfl
  · simp only [ClientCall.hostPort, htls, hplain]
    rfl

namespace Url

variable (u : Url)

theorem hostPort_chars {c : Char} (h : c ∈ u.hostPort) : c ∉ ['/', '?', '#', '@'] := by
  rcases List.mem_append.mp h with hhost | hport
  · exact u.host_chars c hhost
  · cases hp : u.port with
    | none => simp [hp, optionalPart] at hport
    | some part =>
      rw [hp, optionalPart, List.mem_cons] at hport
      rcases hport with rfl | hmem
      · decide
      · have hdigit := u.port_chars part hp c hmem
        intro hin
        simp only [List.mem_cons, List.not_mem_nil, or_false] at hin
        rcases hin with rfl | rfl | rfl | rfl <;> cases hdigit

theorem slash_not_mem_authority : '/' ∉ u.authority := by
  have hhost : '/' ∉ u.hostPort := fun h => u.hostPort_chars h (by simp)
  cases hu : u.userinfo with
  | none => simpa [authority, hu] using hhost
  | some part =>
    have hpart : '/' ∉ part := fun h => u.userinfo_chars part hu _ h (by simp)
    simpa [authority, hu] using ⟨hpart, hhost⟩

theorem authority_append_eq_hostPort_iff {lead : List Char} :
    u.authority ++ lead = u.hostPort ↔ u.userinfo = none ∧ lead = [] := by
  constructor
  · intro h
    cases hu : u.userinfo with
    | none => exact ⟨rfl, by simpa [authority, hu] using h⟩
    | some part =>
      have hat : '@' ∈ u.hostPort := by
        rw [← h, authority, hu]
        simp
      exact (u.hostPort_chars hat (by simp)).elim
  · rintro ⟨hu, rfl⟩
    simp [authority, hu]

/-- The first `://` of a url is the one behind its scheme. -/
theorem afterScheme_render : afterScheme u.render.toList = some (u.authority ++ u.tail) := by
  rw [render, String.toList_ofList]
  refine afterScheme_append (fun h => ?_) _
  rcases u.scheme_chars _ h with halnum | hmem
  · cases halnum
  · simp at hmem

theorem hostAndPath_render : hostAndPath (u.authority ++ u.tail) =
    (u.authority ++ u.tail.takeWhile (· ≠ '/'),
      if '/' ∈ u.tail then u.tail.dropWhile (· ≠ '/') else ['/']) := by
  have hauth := u.slash_not_mem_authority
  have hpos : ∀ c ∈ u.authority, decide (c ≠ '/') = true := by
    intro c hc
    exact decide_eq_true fun heq => hauth (heq ▸ hc)
  rw [hostAndPath, List.takeWhile_append_of_pos hpos, List.dropWhile_append_of_pos hpos]
  simp [hauth]

/-- The host that the client gets has no slash. -/
theorem slash_not_mem_host_of {host path : List Char}
    (h : (host, path) = hostAndPath (u.authority ++ u.tail)) : '/' ∉ host := by
  obtain ⟨rfl, -⟩ := Prod.mk.inj h
  intro hmem
  simpa using List.mem_takeWhile_imp hmem

/-- What stands behind a path that is not empty starts with its slash. -/
theorem tail_of_path (h : u.path ≠ []) :
    u.tail.takeWhile (· ≠ '/') = [] ∧ '/' ∈ u.tail ∧ u.tail.dropWhile (· ≠ '/') = u.tail := by
  obtain ⟨cs, hcs⟩ : ∃ cs, u.path = '/' :: cs := by
    cases hp : u.path with
    | nil => exact absurd hp h
    | cons c cs =>
      have hhead := u.path_head.resolve_left h
      rw [hp, List.head?_cons, Option.some.injEq] at hhead
      exact ⟨cs, by rw [hhead]⟩
  simp [tail, hcs]

/-- With an empty path, the host of the client takes what stands behind the authority. -/
theorem takeWhile_tail_eq_nil_iff (h : u.path = []) :
    u.tail.takeWhile (· ≠ '/') = [] ↔ u.query = none ∧ u.fragment = none := by
  cases hq : u.query with
  | none => cases hf : u.fragment <;> simp [tail, h, hq, hf, optionalPart]
  | some part => simp [tail, h, hq, optionalPart]

/-- What the cut leaves to the client is the host and the target for these urls and no others. -/
theorem hostAndPath_exact_iff :
    hostAndPath (u.authority ++ u.tail) = (u.hostPort, u.target) ↔
      u.userinfo = none ∧ (u.path ≠ [] ∨ u.query = none) ∧ u.fragment = none := by
  rw [hostAndPath_render, Prod.mk.injEq, authority_append_eq_hostPort_iff, and_assoc]
  refine and_congr_right fun _ => ?_
  by_cases hpath : u.path = []
  · rw [u.takeWhile_tail_eq_nil_iff hpath]
    constructor
    · rintro ⟨⟨hq, hf⟩, -⟩
      exact ⟨.inr hq, hf⟩
    · rintro ⟨hor, hf⟩
      have hq := hor.resolve_left fun hne => hne hpath
      exact ⟨⟨hq, hf⟩, by simp [tail, target, hpath, hq, hf, optionalPart]⟩
  · obtain ⟨hlead, hslash, hdrop⟩ := u.tail_of_path hpath
    rw [hlead, if_pos hslash, hdrop, target, if_neg hpath, tail, List.append_cancel_left_eq]
    cases hf : u.fragment <;> simp [hpath, optionalPart]

end Url

/-! ## What gets through -/

section Main

variable (getType : Value → String) (client : ClientCall → Option ClientResult)

/-- The operator throws at a header that is no string, and nowhere else. -/
theorem httpRequestOp_throws_iff {v : Value} :
    (∃ f, (httpRequestOp getType client v).2 = .error f) ↔
      ∃ m i, v = .map m ∧ HttpInputs.Given i m ∧ ¬ i.HeadersAreStrings := by
  constructor
  · rintro ⟨f, hf⟩
    unfold httpRequestOp at hf
    split at hf
    · cases hf
    · rename_i i hread
      obtain ⟨m, rfl, hgiven⟩ := (readHttpInputs_eq_ok_iff getType).mp hread
      rcases httpHeaders_cases ∅ i.headers with ⟨-, headers, hok, -⟩ | ⟨hnot, -⟩
      · rw [hok] at hf
        cases hf
      · exact ⟨m, i, rfl, hgiven, hnot⟩
  · rintro ⟨m, i, rfl, hgiven, hnot⟩
    rcases httpHeaders_cases ∅ i.headers with ⟨hall, -⟩ | ⟨-, f, hf⟩
    · exact absurd hall hnot
    · have hread := (readHttpInputs_eq_ok_iff getType).mpr ⟨m, rfl, hgiven⟩
      exact ⟨f, by simp only [httpRequestOp, hread, hf]⟩

/-- A url that is absolute is cut, and the client is called. -/
theorem runHttpRequest_of_call {req : HttpRequest} {u : Url} (hurl : req.url = u.render)
    {call : ClientCall}
    (h : clientCall req (String.ofList (hostAndPath (u.authority ++ u.tail)).1)
      (String.ofList (hostAndPath (u.authority ++ u.tail)).2) = some call) :
    runHttpRequest client req = ([call], httpResponse (client call)) := by
  rw [runHttpRequest, hurl, u.afterScheme_render]
  simp only [h]

/-- The one call for inputs whose url is absolute and whose headers are strings. -/
theorem httpRequestOp_spec {m : List (String × Value)} {i : HttpInputs} {u : Url}
    (hgiven : i.Given m) (hurl : i.url = u.render) (hheaders : i.HeadersAreStrings) :
    ∃ call out, httpRequestOp getType client (.map m) = ([call], .ok (.ok out)) ∧
      (call.schemeHostPort.toList, call.path.toList) = hostAndPath (u.authority ++ u.tail) ∧
      call.method = i.method ∧ (call.headers.map Prod.fst).Nodup ∧
      (∀ k s, (k, s) ∈ call.headers ↔ i.headers.lookup k = some (.string s)) ∧
      (i.method ∈ ["POST", "PUT"] → call.content.map Prod.fst = some (cString i.body)) := by
  rcases httpHeaders_cases ∅ i.headers with ⟨-, headers, hok, hlookup⟩ | ⟨hnot, -⟩
  · obtain ⟨call, hcall, hhost, hpath, hmethod, hheaders, hcontent⟩ :=
      clientCall_spec ⟨i.url, i.method, headers, some (cString i.body)⟩ hgiven.method_mem
        (String.ofList (hostAndPath (u.authority ++ u.tail)).1)
        (String.ofList (hostAndPath (u.authority ++ u.tail)).2)
    have hread := (readHttpInputs_eq_ok_iff getType).mpr ⟨m, rfl, hgiven⟩
    have hrun := runHttpRequest_of_call client hurl hcall
    refine ⟨call, (httpResponse (client call)).output, ?_, ?_, hmethod, ?_, fun k s => ?_, ?_⟩
    · simp only [httpRequestOp, hread, hok, hrun]
    · rw [hhost, hpath, String.toList_ofList, String.toList_ofList]
    · rw [hheaders, List.map_map]
      exact headers.nodupKeys
    · have hentry : (k, s) ∈ call.headers ↔ Sigma.mk k s ∈ headers.entries := by
        rw [hheaders, List.mem_map]
        exact ⟨fun ⟨kv, hmem, heq⟩ => by cases heq; exact hmem, fun hmem => ⟨⟨k, s⟩, hmem, rfl⟩⟩
      rw [hentry, UnorderedMap.mem_entries_iff, hlookup, AList.lookup_empty]
      simp
    · intro hmem
      rw [hcontent hmem, Option.map_some, Option.getD_some, cString_cString]
  · exact absurd hheaders hnot

/-- What the operator is given gets through exactly when it is sendable. -/
theorem transmits_iff {m : List (String × Value)} {i : HttpInputs} {u : Url}
    (hgiven : i.Given m) (hurl : i.url = u.render) :
    Transmits getType client m i u ↔ i.Sendable u := by
  constructor
  · rintro ⟨call, out, hop, hcarries⟩
    have hheaders : i.HeadersAreStrings := by
      by_contra hnot
      obtain ⟨f, hf⟩ := (httpRequestOp_throws_iff getType client).mpr
        ⟨m, i, rfl, hgiven, hnot⟩
      rw [hop] at hf
      cases hf
    obtain ⟨call', out', hspec, hcut, -, -, -, hbody⟩ :=
      httpRequestOp_spec getType client hgiven hurl hheaders
    rw [hspec] at hop
    cases hop
    obtain ⟨hscheme, hhost⟩ := ClientCall.scheme_of_no_slash (u.slash_not_mem_host_of hcut)
    rw [← hhost, hcarries.hostPort, hcarries.path] at hcut
    obtain ⟨huser, hpath, hfragment⟩ := u.hostAndPath_exact_iff.mp hcut.symm
    refine ⟨hheaders, hcarries.scheme.symm.trans hscheme, huser, hpath, hfragment, fun hmem => ?_⟩
    rw [← cString_eq_self_iff]
    exact Option.some.inj ((hbody hmem).symm.trans (hcarries.body hmem))
  · intro hsend
    obtain ⟨call, out, hspec, hcut, hmethod, hnodup, hlookup, hbody⟩ :=
      httpRequestOp_spec getType client hgiven hurl hsend.headers
    obtain ⟨hscheme, hhost⟩ := ClientCall.scheme_of_no_slash (u.slash_not_mem_host_of hcut)
    rw [u.hostAndPath_exact_iff.mpr ⟨hsend.userinfo, hsend.path, hsend.fragment⟩] at hcut
    obtain ⟨hargument, htarget⟩ := Prod.mk.inj hcut
    refine ⟨call, out, hspec, hscheme.trans hsend.scheme.symm, hhost.trans hargument, htarget,
      hmethod, hnodup, hlookup, fun hmem => ?_⟩
    rw [hbody hmem, cString_eq_self_iff.mpr (hsend.body hmem)]

/-- No input but one with a header that is no string makes the operator throw, and what it is given
gets through exactly when it is sendable. -/
theorem httpRequest_transmits_iff :
    (∀ v, (∃ f, (httpRequestOp getType client v).2 = .error f) ↔
      ∃ m i, v = .map m ∧ HttpInputs.Given i m ∧ ¬ i.HeadersAreStrings) ∧
    ∀ (m : List (String × Value)) (i : HttpInputs) (u : Url), i.Given m → i.url = u.render →
      (Transmits getType client m i u ↔ i.Sendable u) :=
  ⟨fun _ => httpRequestOp_throws_iff getType client,
    fun _ _ _ hgiven hurl => transmits_iff getType client hgiven hurl⟩

/-- A request for `http://a/b` gets through. -/
theorem httpRequest_transmits_iff_plain : ∃ u : Url, u.render = "http://a/b" ∧
    Transmits (fun _ => "") (fun _ => none)
      [("url", .string "http://a/b"), ("method", .string "GET")] ⟨"http://a/b", "GET", [], ""⟩ u := by
  refine ⟨⟨"http".toList, none, ['a'], none, ['/', 'b'], none, none, by simp, by simp, by simp,
    by simp, by simp, by simp, by simp⟩, by decide, ?_⟩
  refine ((httpRequest_transmits_iff (fun _ => "") fun _ => none).2 _ _ _
    ⟨rfl, rfl, by decide, .inr ⟨rfl, rfl⟩, .inr ⟨rfl, rfl⟩⟩ (by decide)).mpr ?_
  exact ⟨by simp [HttpInputs.HeadersAreStrings], by decide, rfl, .inl (by simp), rfl, by decide⟩

/-- A request for `https://a/` is accepted and does not get through. -/
theorem https_not_transmitted : ∃ (m : List (String × Value)) (i : HttpInputs) (u : Url),
    i.Given m ∧ i.HeadersAreStrings ∧ i.url = "https://a/" ∧ i.url = u.render ∧
    ¬ Transmits (fun _ => "") (fun _ => none) m i u := by
  have hgiven : HttpInputs.Given ⟨"https://a/", "GET", [], ""⟩
      [("url", .string "https://a/"), ("method", .string "GET")] :=
    ⟨rfl, rfl, by decide, .inr ⟨rfl, rfl⟩, .inr ⟨rfl, rfl⟩⟩
  refine ⟨_, _, ⟨"https".toList, none, ['a'], none, ['/'], none, none, by simp, by simp,
    by simp, by simp, by simp, by simp, by simp⟩, hgiven, by simp [HttpInputs.HeadersAreStrings],
    rfl, by decide, fun h => ?_⟩
  have hsend := (transmits_iff _ _ hgiven (by decide)).mp h
  exact absurd hsend.scheme (by decide)

end Main

end Ailoy
