/-
  S3lite.Access.Hosts — virtual-hosted and path-style requests.

  - `hosted_reaches_same`: under an endpoint host name, a request to the host `b.E` for `/k`
    reaches the handler, the bucket and the key the request to `E` for `/b/k` reaches, unless
    its path is that of a public route.
  - `a_hosted_key_is_public`: the key `health` of a bucket, asked for by host, is the health
    check.
-/
import S3lite.Http.Router
import S3lite.Access.Naming

namespace S3lite

/-! ## Headers -/

/-- The headers less `Host`. -/
def dropHost (headers : HeaderMap) : HeaderMap := headers.filter fun h => decide (h.1 ≠ str "host")

theorem get_cons_ne {name n : Str} {v : Bytes} {headers : HeaderMap} (h : n ≠ name) :
    HeaderMap.get ((n, v) :: headers) name = headers.get name := by
  simp [HeaderMap.get, h]

theorem headerString_cons {name : Str} {v : Bytes} {headers : HeaderMap} :
    headerString ((name, v) :: headers) name = toStr v := by
  simp [headerString, HeaderMap.get]

/-- The copy source is in another header. -/
theorem copySourceOf_host (v : Bytes) (headers : HeaderMap) : copySourceOf ((str "host", v) :: headers) = copySourceOf headers := by
  have h : HeaderMap.get ((str "host", v) :: headers) (str "x-amz-copy-source") = headers.get (str "x-amz-copy-source") :=
    get_cons_ne (by decide)
  unfold copySourceOf isCopy parseCopySourceHeader headerString
  rw [h]

/-! ## Endpoint -/

/-- An endpoint a request's `Host` can end in: a host name without a port. -/
structure HostName (endpoint : Str) : Prop where
  ne_nil : endpoint ≠ []
  no_colon : (58 : UInt8) ∉ endpoint
  visible : ∀ c ∈ endpoint, 32 ≤ c ∧ c < 127

/-- A port as `Host` spells it. -/
structure Port (port : Str) : Prop where
  no_colon : (58 : UInt8) ∉ port
  visible : ∀ c ∈ port, 32 ≤ c ∧ c < 127

theorem withPort_visible {host : Str} {port : Option Str} (hh : ∀ c ∈ host, 32 ≤ c ∧ c < 127) (hp : ∀ p ∈ port, Port p) :
    ∀ c ∈ withPort host port, 32 ≤ c ∧ c < 127 := by
  intro c hc
  cases port with
  | none => exact hh c hc
  | some p =>
    rcases List.mem_append.mp hc with h | h
    · exact hh c h
    · rcases List.mem_cons.mp h with rfl | h
      · decide
      · exact (hp p rfl).visible c h

section
variable {config : Settings} {endpoint b : Str} {port : Option Str} {headers : HeaderMap}

/-- The endpoint itself is asked in path style. -/
theorem hostedBucket_endpoint (hc : config.endpointHost = some endpoint) (hE : HostName endpoint) :
    hostedBucket (headerString ((str "host", endpoint) :: headers) (str "host")) config = none := by
  have hs : stripPort (withPort endpoint none) = endpoint := stripPort_withPort hE.ne_nil hE.no_colon nofun
  rw [withPort] at hs
  rw [headerString_cons, toStr_of_visible hE.visible, hostedBucket, hc]
  simp [nonEmpty, hE.ne_nil, hs, virtualHostedBucket_self]

/-- A bucket's host, with or without a port. -/
theorem hostedBucket_label (hc : config.endpointHost = some endpoint) (hE : HostName endpoint) (hb : ValidBucketName b)
    (hp : ∀ p ∈ port, Port p) :
    hostedBucket (headerString ((str "host", withPort (b ++ str "." ++ endpoint) port) :: headers) (str "host")) config =
      some b := by
  have hv : ∀ c ∈ b ++ str "." ++ endpoint, 32 ≤ c ∧ c < 127 := by
    intro c h
    rcases List.mem_append.mp h with h | h
    · rcases List.mem_append.mp h with h | h
      · exact isKeySafe_visible (isKeySafe_of_name (hb.chars c h))
      · rw [List.mem_singleton.mp h]
        decide
    · exact hE.visible c h
  have hcolon : (58 : UInt8) ∉ b ++ str "." ++ endpoint := by
    intro h
    rcases List.mem_append.mp h with h | h
    · rcases List.mem_append.mp h with h | h
      · exact hb.not_mem rfl (by decide) h
      · exact absurd (List.mem_singleton.mp h) (by decide)
    · exact hE.no_colon h
  have hs : stripPort (withPort (b ++ str "." ++ endpoint) port) = b ++ str "." ++ endpoint :=
    stripPort_withPort (by simp [hb.ne_nil]) hcolon fun p h => (hp p h).no_colon
  rw [headerString_cons, toStr_of_visible (withPort_visible hv hp), hostedBucket, hc]
  simp only [Option.bind_some, nonEmpty, List.isEmpty_eq_false_iff.mpr hE.ne_nil, Option.map_some, Option.getD_some, hs]
  exact virtualHostedBucket_label hb

end

/-! ## The two requests -/

/-- To the bucket's host. -/
def hostedRequest (method : Method) (endpoint b k : Str) (port query : Option Str) (headers : HeaderMap) (body : Bytes) :
    HttpRequest :=
  ⟨method, 47 :: k, query, (str "host", withPort (b ++ str "." ++ endpoint) port) :: headers, body⟩

/-- To the endpoint, in path style. -/
def pathRequest (method : Method) (endpoint b k : Str) (query : Option Str) (headers : HeaderMap) (body : Bytes) : HttpRequest :=
  ⟨method, 47 :: (b ++ 47 :: k), query, (str "host", endpoint) :: headers, body⟩

/-- A path with a second slash is not a public route's. -/
theorem isPublic_path (b k : Str) : isPublic (47 :: (b ++ 47 :: k)) = false := by
  have hne : ∀ s : Str, (47 : UInt8) ∉ s → b ++ 47 :: k ≠ s := fun s hs e => hs (e ▸ by simp)
  have h1 : 47 :: (b ++ 47 :: k) ≠ str "/health" := fun e => hne (str "health") (by decide) (List.cons.inj e).2
  have h2 : 47 :: (b ++ 47 :: k) ≠ str "/metrics" := fun e => hne (str "metrics") (by decide) (List.cons.inj e).2
  simp [isPublic, h1, h2]

section
variable {config : Settings} {endpoint b k : Str} {port : Option Str}

/-- Dispatch decides the same about both, from the same headers but the host. -/
theorem routed_hosted (hc : config.endpointHost = some endpoint) (hE : HostName endpoint) (hb : ValidBucketName b)
    (hp : ∀ p ∈ port, Port p) (method : Method) (query : Option Str) (headers : HeaderMap) (body : Bytes) :
    (routed config (hostedRequest method endpoint b k port query headers body)).map (·.mapMessage dropHost id) =
      (routed config (pathRequest method endpoint b k query headers body)).map (·.mapMessage dropHost id) := by
  have h1 : extract (hostedRequest method endpoint b k port query headers body).host (47 :: k) config =
      .ok ⟨some b, nonEmpty k⟩ := extract_virtualHosted hb (hostedBucket_label hc hE hb hp)
  have h2 : extract (pathRequest method endpoint b k query headers body).host (47 :: (b ++ 47 :: k)) config =
      .ok ⟨some b, nonEmpty k⟩ := extract_pathStyle hb (hostedBucket_endpoint hc hE)
  have hsource : ∀ v, copySourceOf ((str "host", v) :: headers) = copySourceOf headers :=
    fun v => copySourceOf_host v headers
  show (extract _ (47 :: k) config >>= _).map _ = (extract _ (47 :: (b ++ 47 :: k)) config >>= _).map _
  rw [h1, h2]
  show (if config.maxSignedBodyBytes < body.length then _ else route _ _ _ _ _).map _ =
    (if config.maxSignedBodyBytes < body.length then _ else route _ _ _ _ _).map _
  by_cases hl : config.maxSignedBodyBytes < body.length
  · simp only [if_pos hl]
  · simp only [if_neg hl]
    exact (route_congr (by simp [dropHost, hostedRequest, pathRequest]) rfl _ _ _).mpr fun _ => (hsource _).trans (hsource _).symm

end

/-- The world a request leaves the middleware in is its own; the rest is `dispatch`. -/
theorem hosted_reaches_same {env : Env} {v : Verifier} {config : Settings} {method : Method} {endpoint b k : Str}
    {port query : Option Str} {headers : HeaderMap} {body : Bytes} {w w' : World}
    (hc : config.endpointHost = some endpoint) (hE : HostName endpoint) (hb : ValidBucketName b) (hp : ∀ p ∈ port, Port p)
    (hk : isPublic (47 :: k) = false)
    (hv : verdict v (env.now w.clock) config (hostedRequest method endpoint b k port query headers body) = .ok ())
    (hv' : verdict v (env.now w'.clock) config (pathRequest method endpoint b k query headers body) = .ok ()) :
    (buildApp env v config (hostedRequest method endpoint b k port query headers body)).run (exec env) w =
        (dispatch env config (hostedRequest method endpoint b k port query headers body)).run (exec env)
          (w.verified config (hostedRequest method endpoint b k port query headers body)) ∧
      (buildApp env v config (pathRequest method endpoint b k query headers body)).run (exec env) w' =
        (dispatch env config (pathRequest method endpoint b k query headers body)).run (exec env)
          (w'.verified config (pathRequest method endpoint b k query headers body)) ∧
      (routed config (hostedRequest method endpoint b k port query headers body)).map (·.mapMessage dropHost id) =
        (routed config (pathRequest method endpoint b k query headers body)).map (·.mapMessage dropHost id) :=
  ⟨buildApp_dispatches hk hv, buildApp_dispatches (isPublic_path b k) hv', routed_hosted hc hE hb hp method query headers body⟩

/-- The example host of the tests, with an endpoint configured. -/
def hostedSettings : Settings :=
  { Settings.new (str "us-east-1") (str "ak") (str "sk") with endpointHost := some (str "s3.example.com") }

theorem hosted_reaches_same_nested_key :
    let hosted := hostedRequest .get (str "s3.example.com") (str "my-bucket") (str "/some/key") (some (str "9000")) none [] []
    let styled := pathRequest .get (str "s3.example.com") (str "my-bucket") (str "/some/key") none [] []
    (buildApp sampleEnv acceptAll hostedSettings hosted).run (exec sampleEnv) .empty =
        (dispatch sampleEnv hostedSettings hosted).run (exec sampleEnv) (World.verified .empty hostedSettings hosted) ∧
      (buildApp sampleEnv acceptAll hostedSettings styled).run (exec sampleEnv) .empty =
        (dispatch sampleEnv hostedSettings styled).run (exec sampleEnv) (World.verified .empty hostedSettings styled) ∧
      (routed hostedSettings hosted).map (·.mapMessage dropHost id) =
        (routed hostedSettings styled).map (·.mapMessage dropHost id) :=
  hosted_reaches_same rfl ⟨by decide, by decide, by decide⟩ (by rfl)
    (fun p hp => by cases hp; exact ⟨by decide, by decide⟩) (by rfl) rfl rfl

/-- The object `health` of a bucket: by path it is fetched, by host it is the health check. -/
theorem a_hosted_key_is_public :
    let hosted := hostedRequest .get (str "s3.example.com") (str "my-bucket") (str "health") none none [] []
    let styled := pathRequest .get (str "s3.example.com") (str "my-bucket") (str "health") none [] []
    verdict acceptAll (sampleEnv.now 0) hostedSettings hosted = .ok () ∧
      verdict acceptAll (sampleEnv.now 0) hostedSettings styled = .ok () ∧
      ((buildApp sampleEnv acceptAll hostedSettings hosted).run (exec sampleEnv) .empty).1 =
        some (plainText (str "text/plain; charset=utf-8") (str "ok")) ∧
      ((buildApp sampleEnv acceptAll hostedSettings styled).run (exec sampleEnv) .empty).1 =
        some (.ofError (noSuchBucket (str "my-bucket"))) ∧
      routed hostedSettings styled =
        .ok (.request (.getObject (str "my-bucket") (str "health") none [(str "host", str "s3.example.com")])) :=
  ⟨rfl, rfl, by rfl, by rfl, by rfl⟩

end S3lite
