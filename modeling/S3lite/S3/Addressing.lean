/-
  S3lite.S3.Addressing — which bucket and key a request is about (src/s3/addressing.rs), and
  the configuration it is decided by (src/config.rs, what a request reads of it).

  - `extract_pathStyle`: a path of a valid bucket name and a key gives back both.
  - `extract_virtualHosted`: so does a host under the endpoint, with the key as the path.
-/
import S3lite.Server.Handler
import S3lite.Base.Split

namespace S3lite

/-! ## Configuration -/

structure RootKey where
  accessKeyId : Str
  secretAccessKey : Str
  deriving DecidableEq

inductive EventType where
  | objectCreatedPut
  | objectCreatedPost
  | objectCreatedCopy
  | objectCreatedCompleteMultipartUpload
  | objectRemovedDelete
  | objectRemovedDeleteMarkerCreated
  deriving DecidableEq, Repr

structure WebhookSubscription where
  bucket : Str
  events : List EventType
  pre : Option Str
  suffix : Option Str
  url : Str
  deriving DecidableEq

/-- `ServerConfig`, less the address and the certificate it listens with. -/
structure Settings where
  region : Str
  rootKey : RootKey
  endpointHost : Option Str
  maxSignedBodyBytes : Nat
  webhookSubscriptions : List WebhookSubscription
  allowLoopbackWebhooks : Bool
  deriving DecidableEq

/-- `ServerConfig::new` -/
def Settings.new (region accessKeyId secretAccessKey : Str) : Settings where
  region := region
  rootKey := ⟨accessKeyId, secretAccessKey⟩
  endpointHost := none
  maxSignedBodyBytes := 64 * 1024 * 1024
  webhookSubscriptions := []
  allowLoopbackWebhooks := false

/-- For the concrete runs: one host, and a root key. -/
def sampleSettings : Settings := .new (str "us-east-1") (str "ak") (str "sk")

/-! ## Bucket names -/

def isAlnum (b : UInt8) : Bool := (97 ≤ b && b ≤ 122) || (48 ≤ b && b ≤ 57)

def isIpv4Like (name : Str) : Bool :=
  let parts := splitByte 46 name
  parts.length == 4 && parts.all fun p => !p.isEmpty && p.all fun b => 48 ≤ b && b ≤ 57

def invalidBucketName (reason : Str) : S3Error :=
  S3Error.new .invalidBucketName (str "invalid bucket name: " ++ reason)

def validateBucketName (name : Str) : Except S3Error Unit :=
  if ¬ (3 ≤ name.length ∧ name.length ≤ 63) then .error (invalidBucketName (str "length must be 3-63 characters"))
  else if !(name.head?.any isAlnum) || !(name.getLast?.any isAlnum) then
    .error (invalidBucketName (str "must start and end with a letter or digit"))
  else if !(name.all fun b => isAlnum b || b == 45) then
    .error (invalidBucketName (str "only lowercase letters, digits, and hyphens are allowed"))
  else if isIpv4Like name then .error (invalidBucketName (str "must not be formatted as an IPv4 address"))
  else .ok ()

def ValidBucketName (name : Str) : Prop := validateBucketName name = .ok ()

instance instDecidableValidBucketName (name : Str) : Decidable (ValidBucketName name) :=
  match h : validateBucketName name with
  | .ok () => isTrue h
  | .error _ => isFalse fun h' => by rw [ValidBucketName, h] at h'; cases h'

/-! ## Addressing -/

structure Addressing where
  bucket : Option Str
  key : Option Str
  deriving DecidableEq

/-- `rsplit_once` at a byte. -/
def rsplitOnce (c : UInt8) (s : Bytes) : Option (Bytes × Bytes) :=
  (splitOnce c s.reverse).map fun r => (r.2.reverse, r.1.reverse)

def stripPort (host : Str) : Str :=
  match rsplitOnce 58 host with
  | some (h, _) => if h.isEmpty then host else h
  | none => host

/-- `strip_suffix` -/
def stripSuffix (t s : Bytes) : Option Bytes := if t <:+ s then some (s.take (s.length - t.length)) else none

/-- The bucket label must not itself contain a dot. -/
def virtualHostedBucket (host endpoint : Str) : Option Str :=
  (stripSuffix (str "." ++ endpoint) host).bind fun pre => if pre.isEmpty || pre.contains 46 then none else some pre

/-- `strip_prefix('/').unwrap_or(uri_path)` -/
def stripSlash (path : Str) : Str := (stripPrefix (str "/") path).getD path

/-- The text, unless it is empty. -/
def nonEmpty (s : Str) : Option Str := if s.isEmpty then none else some s

def pathStyle (uriPath : Str) : Except S3Error Addressing :=
  let trimmed := stripSlash uriPath
  if trimmed.isEmpty then .ok ⟨none, none⟩
  else
    let (bucketRaw, keyRaw) := match splitOnce 47 trimmed with
      | some (b, k) => (b, some k)
      | none => (trimmed, none)
    match validateBucketName bucketRaw with
    | .error e => .error e
    | .ok () => .ok ⟨some bucketRaw, keyRaw.bind nonEmpty⟩

def pathToKey (uriPath : Str) : Option Str := nonEmpty (stripSlash uriPath)

/-- The bucket a host under the endpoint names, when an endpoint is configured. -/
def hostedBucket (hostHeader : Option Str) (config : Settings) : Option Str :=
  (config.endpointHost.bind nonEmpty).bind (virtualHostedBucket ((hostHeader.map stripPort).getD []))

/-- Virtual-hosted: the bucket is the host's label before the endpoint and the key is the
    path. Path-style: both come from the path. -/
def extract (hostHeader : Option Str) (uriPath : Str) (config : Settings) : Except S3Error Addressing :=
  match hostedBucket hostHeader config with
  | some bucket =>
    match validateBucketName bucket with
    | .error e => .error e
    | .ok () => .ok ⟨some bucket, pathToKey uriPath⟩
  | none => pathStyle uriPath

/-! ## Splitting -/

theorem rsplitOnce_append {c : UInt8} {p s : Bytes} (h : c ∉ s) : rsplitOnce c (p ++ c :: s) = some (p, s) := by
  have hr : (p ++ c :: s).reverse = s.reverse ++ c :: p.reverse := by simp
  rw [rsplitOnce, hr, splitOnce_append (by simpa using h)]
  simp

theorem rsplitOnce_none {c : UInt8} {s : Bytes} (h : c ∉ s) : rsplitOnce c s = none := by
  rw [rsplitOnce, splitOnce_none (by simpa using h)]
  rfl

@[simp] theorem stripPrefix_append (p s : Bytes) : stripPrefix p (p ++ s) = some s := by simp [stripPrefix]

@[simp] theorem stripSuffix_append (p s : Bytes) : stripSuffix s (p ++ s) = some p := by simp [stripSuffix]

@[simp] theorem stripSlash_cons (s : Bytes) : stripSlash (47 :: s) = s := by
  have h := stripPrefix_append (str "/") s
  rw [show str "/" ++ s = 47 :: s from rfl] at h
  rw [stripSlash, h]
  rfl

/-! ## Valid names -/

theorem ValidBucketName.chars {name : Str} (h : ValidBucketName name) : ∀ b ∈ name, isAlnum b ∨ b = 45 := by
  unfold ValidBucketName validateBucketName at h
  split at h
  · cases h
  · split at h
    · cases h
    · split at h
      · cases h
      · rename_i hc
        intro b hb
        have hall : name.all (fun b => isAlnum b || b == 45) = true := by rw [Bool.not_eq_true', Bool.not_eq_false] at hc; exact hc
        exact Bool.or_eq_true_iff.mp (List.all_eq_true.mp hall b hb) |>.imp_right (by simpa using ·)

theorem ValidBucketName.length {name : Str} (h : ValidBucketName name) : 3 ≤ name.length := by
  unfold ValidBucketName validateBucketName at h
  split at h
  · cases h
  · rename_i hn
    exact (not_not.mp hn).1

theorem ValidBucketName.ne_nil {name : Str} (h : ValidBucketName name) : name ≠ [] := by
  have := h.length
  rintro rfl
  simp at this

/-- Only letters, digits and hyphens. -/
theorem ValidBucketName.not_mem {name : Str} (h : ValidBucketName name) {c : UInt8} (hc : isAlnum c = false) (h45 : c ≠ 45) :
    c ∉ name := by
  intro hm
  rcases h.chars c hm with h' | h'
  · rw [hc] at h'
    cases h'
  · exact h45 h'

theorem ValidBucketName.no_slash {name : Str} (h : ValidBucketName name) : (47 : UInt8) ∉ name := h.not_mem rfl (by decide)

theorem ValidBucketName.no_dot {name : Str} (h : ValidBucketName name) : (46 : UInt8) ∉ name := h.not_mem rfl (by decide)

theorem ValidBucketName.no_colon {name : Str} (h : ValidBucketName name) : (58 : UInt8) ∉ name := h.not_mem rfl (by decide)

theorem ValidBucketName.nulFree {name : Str} (h : ValidBucketName name) : NulFree name := by
  intro b hb
  have h0 : (0 : UInt8) ∉ name := h.not_mem rfl (by decide)
  exact UInt8.pos_iff_ne_zero.mpr fun e => h0 (e ▸ hb)

/-! ## What is extracted -/

theorem pathStyle_key {b k : Str} (h : ValidBucketName b) : pathStyle (47 :: (b ++ 47 :: k)) = .ok ⟨some b, nonEmpty k⟩ := by
  have hne : (b ++ 47 :: k).isEmpty = false := by cases b <;> rfl
  have hv : validateBucketName b = .ok () := h
  simp [pathStyle, hne, splitOnce_append h.no_slash, hv]

/-- A path-style request for a key, or for the bucket when the key is empty. -/
theorem extract_pathStyle {config : Settings} {host : Option Str} {b k : Str} (hb : ValidBucketName b)
    (hh : hostedBucket host config = none) :
    extract host (47 :: (b ++ 47 :: k)) config = .ok ⟨some b, nonEmpty k⟩ := by
  rw [extract, hh]
  exact pathStyle_key hb

/-- A virtual-hosted request for a key, or for the bucket when the key is empty. -/
theorem extract_virtualHosted {config : Settings} {host : Option Str} {b k : Str} (hb : ValidBucketName b)
    (hh : hostedBucket host config = some b) : extract host (47 :: k) config = .ok ⟨some b, nonEmpty k⟩ := by
  have hv : validateBucketName b = .ok () := hb
  simp [extract, hh, hv, pathToKey]

/-- A host name with the port the client reached it on, if it names one. -/
def withPort (host : Str) : Option Str → Str
  | none => host
  | some port => host ++ 58 :: port

theorem stripPort_withPort {host : Str} {port : Option Str} (hne : host ≠ []) (hh : (58 : UInt8) ∉ host)
    (hp : ∀ p ∈ port, (58 : UInt8) ∉ p) : stripPort (withPort host port) = host := by
  cases port with
  | none => rw [withPort, stripPort, rsplitOnce_none hh]
  | some p =>
    rw [withPort, stripPort, rsplitOnce_append (hp p rfl)]
    simp [hne]

theorem virtualHostedBucket_label {b endpoint : Str} (hb : ValidBucketName b) :
    virtualHostedBucket (b ++ str "." ++ endpoint) endpoint = some b := by
  rw [virtualHostedBucket, List.append_assoc, stripSuffix_append]
  simp [hb.ne_nil, hb.no_dot]

/-- The endpoint itself names no bucket. -/
theorem virtualHostedBucket_self (endpoint : Str) : virtualHostedBucket endpoint endpoint = none := by
  have hs : ¬ (str "." ++ endpoint) <:+ endpoint := fun h => by
    have := h.length_le
    rw [List.length_append, show (str ".").length = 1 from rfl] at this
    omega
  simp [virtualHostedBucket, stripSuffix, hs]

end S3lite
