/-
  S3lite.Http.App — the app with its reads of the configuration (src/s3/state.rs), which a
  reload swaps under it (`reload_loop` in src/main.rs).

  A request reads the configuration where it enters (`sigv4_mw`), at `dispatch`, at the
  creation of a bucket (`create_bucket`), and at each event it emits (`emit`). What `emit`
  makes of it is left to the task it spawns.

  - `App.resolve_buildApp`: where every read gives one configuration, this is the app of
    `Http.Router` at that configuration.
  - `App.follows_buildApp`: a request reads where `App.left` says: at its entry, then at
    dispatch if it can pass verification, and a last time if it is routed to one of the
    requests that create a bucket or emit an event (`App.rereads`).
-/
import S3lite.Base.Cell
import S3lite.Http.Router

namespace S3lite

open Handler

/-- `AppState`: the stores and the configuration. -/
abbrev AppState := World × Settings

abbrev AppOp := CellOp Op Settings

abbrev AppProg (α : Type) := Prog AppOp (CellOp.Res Op.Res) α

abbrev appExec (env : Env) : (op : AppOp) → AppState → op.Res Op.Res × AppState := cellExec (exec env)

/-- What `reload_loop` does when the file parses. -/
def reload (config : Settings) : AppProg Unit := .call (.store config) fun _ => .ret ()

namespace App

/-- A handler that reads no configuration. -/
def quiet {α : Type} (x : Handler α) : AppProg (Except Failure α) := Prog.plain x

/-! ## Handlers -/

/-- `create_bucket`, from the transaction on. -/
def storeBucket (bucket : Str) (cfg : BucketConfig) : Handler Response := do
  let r ← op (.metaOp (.createBucket bucket cfg))
  match r with
  | .ok () => ok ((Response.ofStatus 200).setHeader (str "location") (bucketPath bucket))
  | .error (.bucketExists _) =>
    fail ((S3Error.new .bucketAlreadyOwnedByYou (str "bucket already exists")).withResource (bucketPath bucket))
  | .error e => fail (mapMetaErr e)

/-- The region is the one configured by then. -/
def createBucket (env : Env) (bucket : Str) (headers : HeaderMap) : AppProg (Except Failure Response) :=
  .call (.plain .nowUtc) fun now => .call .load fun config =>
    quiet (storeBucket bucket (newBucketConfig { env with region := config.region } headers now))

/-- A handler that ends with `emit`, when the flag says so. -/
def emitting (x : Handler (Response × Bool)) : AppProg (Except Failure Response) :=
  (quiet x).bind fun r => match r with
    | .ok (resp, true) => .call .load fun _ => .ret (.ok resp)
    | .ok (resp, false) => .ret (.ok resp)
    | .error e => .ret (.error e)

/-- A handler that emits whenever it succeeds. -/
def emittingAlways (x : Handler Response) : AppProg (Except Failure Response) :=
  emitting (do
    let resp ← x
    ok (resp, true))

/-- `delete_object` without a version id: an event unless there was no row to remove. -/
def deleteUnversioned (bucket key : Str) : Handler (Response × Bool) := do
  let bucketCfg ← requireBucket bucket
  match bucketCfg.versioning with
  | .off => do
    let target : ManifestKey := ⟨bucket, key, nullVersionId⟩
    let current ← op (.metaOp (.getManifest target))
    checkNotLocked bucket key current
    let removed ← removeManifest target
    ok (.ofStatus 204, removed)
  | .enabled | .suspended => do
    let resp ← insertDeleteMarker bucket key bucketCfg.versioning
    ok (resp, true)

/-- The handler of a route. -/
def handler (env : Env) : Route → AppProg (Except Failure Response)
  | .request (.createBucket bucket headers) => createBucket env bucket headers
  | .request (.putObject bucket key headers body) => emittingAlways (putObject env bucket key headers body)
  | .request (.copyObject bucket key source headers) => emittingAlways (copyObject env bucket key source headers)
  | .request (.completeMultipartUpload bucket key uploadId body) =>
    emittingAlways (completeMultipartUpload env bucket key uploadId body)
  | .request (.deleteObject bucket key none) => emitting (deleteUnversioned bucket key)
  | r => quiet (r.handler env)

/-! ## The app -/

def serve (env : Env) (uriPath : Str) : Except S3Error Route → AppProg Answer
  | .ok r => (handler env r).bind fun x => .ret (answerOf uriPath x)
  | .error e => .ret (some (.ofError (decorate e uriPath)))

def dispatch (env : Env) (req : HttpRequest) : AppProg Answer :=
  .call .load fun config => serve env req.path (routed config req)

/-- The middleware, when it has read the configuration. -/
def verifying (v : Verifier) (config : Settings) (req : HttpRequest) (next : AppProg Answer) : AppProg Answer :=
  if req.method = .options then next
  else if isPresigned req.query then
    .call (.plain .nowUtc) fun now =>
      match v.presigned now req config with
      | .ok () => next
      | .error e => .ret (refused req.path e)
  else if config.maxSignedBodyBytes < req.body.length then .ret (refused req.path (.error bodyTooLargeToVerify))
  else
    .call (.plain .nowUtc) fun now =>
      match v.signed now req config with
      | .ok () => next
      | .error e => .ret (refused req.path (.error (mapSigv4Error e)))

def sigv4Mw (v : Verifier) (req : HttpRequest) (next : AppProg Answer) : AppProg Answer :=
  .call .load fun config => verifying v config req next

/-- The public routes read no configuration. -/
def buildApp (env : Env) (v : Verifier) (req : HttpRequest) : AppProg Answer :=
  if req.path = str "/health" then (getRoute req.method healthHandler).plain
  else if req.path = str "/metrics" then (getRoute req.method metricsHandler).plain
  else sigv4Mw v req (dispatch env req)

/-! ## At one configuration -/

section
variable {env : Env} {config : Settings} {region : Str}

theorem splitItems_inRegion (encoding : Option Str) (items : List ListItem) :
    splitItems { env with region := region } encoding items = splitItems env encoding items := by
  induction items with
  | nil => rfl
  | cons item items ih =>
    cases item with
    | object m =>
      unfold splitItems
      rw [ih]
      rfl
    | commonPrefix p =>
      unfold splitItems
      rw [ih]

theorem splitVersions_inRegion (encoding : Option Str) (entries : List ListObjectVersionEntry) :
    splitVersions { env with region := region } encoding entries = splitVersions env encoding entries := by
  induction entries with
  | nil => rfl
  | cons entry entries ih =>
    unfold splitVersions
    rw [ih]
    rfl

theorem readRange_inRegion (first last : Nat) (parts : List PartRef) (cursor : Nat) :
    readRange { env with region := region } first last cursor parts = readRange env first last cursor parts := by
  induction parts generalizing cursor with
  | nil => rfl
  | cons p parts ih =>
    unfold readRange
    simp only [ih]
    rfl

/-- Only the creation of a bucket looks at the region. -/
theorem handler_inRegion {r : Request} (h : ∀ bucket headers, r ≠ .createBucket bucket headers) :
    r.handler { env with region := region } = r.handler env := by
  cases r with
  | createBucket bucket headers => exact absurd rfl (h bucket headers)
  | listObjects bucket query =>
    show S3lite.listObjects _ bucket query = S3lite.listObjects env bucket query
    unfold S3lite.listObjects listV2 listV1
    simp only [splitItems_inRegion]
    rfl
  | listObjectVersions bucket query =>
    show S3lite.listObjectVersions _ bucket query = S3lite.listObjectVersions env bucket query
    unfold S3lite.listObjectVersions
    simp only [splitVersions_inRegion]
  | uploadPartCopy bucket key uploadId partNumber source headers =>
    show S3lite.uploadPartCopy _ bucket key uploadId partNumber source headers =
      S3lite.uploadPartCopy env bucket key uploadId partNumber source headers
    unfold S3lite.uploadPartCopy readSourceRange
    simp only [readRange_inRegion]
  | _ => rfl

theorem createBucket_eq (env : Env) (bucket : Str) (headers : HeaderMap) :
    S3lite.createBucket env bucket headers =
      (op .nowUtc >>= fun now => storeBucket bucket (newBucketConfig env headers now)) := by
  unfold S3lite.createBucket storeBucket
  congr 1
  funext now
  congr 1
  funext r
  rcases r with e | _
  · cases e <;> rfl
  · rfl

theorem resolve_createBucket (bucket : Str) (headers : HeaderMap) :
    (createBucket env bucket headers).resolve config =
      S3lite.createBucket { env with region := config.region } bucket headers := by
  rw [createBucket_eq]
  exact congrArg (Prog.call Op.nowUtc) (funext fun now => Prog.resolve_plain config _)

/-- The handler without its flag. -/
def unflagged (x : Handler (Response × Bool)) : Handler Response := Prog.bind x fun r => .ret (r.map (·.1))

theorem unflagged_bind {α : Type} (x : Handler α) (f : α → Handler (Response × Bool)) :
    unflagged (x >>= f) = x >>= fun a => unflagged (f a) := by
  refine (Prog.bind_assoc x _ _).trans (congrArg (Prog.bind x) (funext fun r => ?_))
  cases r <;> rfl

theorem unflagged_flag (x : Handler Response) (flag : Bool) : unflagged (x >>= fun resp => ok (resp, flag)) = x := by
  rw [unflagged_bind]
  refine Eq.trans (congrArg (Prog.bind x) (funext fun r => ?_)) (Prog.bind_ret x)
  cases r <;> rfl

theorem resolve_quiet {α : Type} (x : Handler α) : (quiet x).resolve config = x := Prog.resolve_plain config x

theorem resolve_emitting (x : Handler (Response × Bool)) : (emitting x).resolve config = unflagged x := by
  unfold emitting
  rw [Prog.resolve_bind, resolve_quiet]
  refine congrArg (Prog.bind x) (funext fun r => ?_)
  rcases r with _ | ⟨resp, _ | _⟩ <;> rfl

theorem resolve_emittingAlways (x : Handler Response) : (emittingAlways x).resolve config = x := by
  unfold emittingAlways
  rw [resolve_emitting, unflagged_flag]

theorem unflagged_deleteUnversioned (bucket key : Str) :
    unflagged (deleteUnversioned bucket key) = deleteObject bucket key none := by
  unfold deleteUnversioned deleteObject
  rw [unflagged_bind]
  congr 1
  funext bucketCfg
  cases bucketCfg.versioning with
  | off =>
    simp only [unflagged_bind]
    rfl
  | enabled => exact unflagged_flag _ true
  | suspended => exact unflagged_flag _ true

/-- A route is handled as it is at that configuration. -/
theorem resolve_handler (r : Route) : (handler env r).resolve config = r.handler { env with region := config.region } := by
  unfold handler
  split
  · exact resolve_createBucket _ _
  · exact resolve_emittingAlways _
  · exact resolve_emittingAlways _
  · exact resolve_emittingAlways _
  · rw [resolve_emitting, unflagged_deleteUnversioned]
    rfl
  · rename_i hcreate _ _ _ _
    rw [resolve_quiet]
    cases r with
    | preflight bucket headers => rfl
    | request r =>
      have hr : r.handler { env with region := config.region } = r.handler env :=
        handler_inRegion fun bucket headers h => hcreate bucket headers (congrArg Route.request h)
      cases r with
      | headObject bucket key versionId headers => exact congrArg (· >>= fun resp => ok (dropBody resp)) hr.symm
      | _ => exact hr.symm

theorem resolve_serve (uriPath : Str) (r : Except S3Error Route) :
    (serve env uriPath r).resolve config = S3lite.serve { env with region := config.region } uriPath r := by
  cases r with
  | error e => rfl
  | ok r =>
    show Prog.resolve config (Prog.bind (handler env r) fun x => .ret (answerOf uriPath x)) = _
    rw [Prog.resolve_bind, resolve_handler]
    rfl

theorem resolve_dispatch (req : HttpRequest) :
    (dispatch env req).resolve config = S3lite.dispatch { env with region := config.region } config req :=
  resolve_serve req.path (routed config req)

/-- The middleware, in front of anything. -/
theorem resolve_verifying (v : Verifier) (req : HttpRequest) (next : AppProg Answer) :
    (verifying v config req next).resolve config = S3lite.sigv4Mw v config req (next.resolve config) := by
  unfold verifying S3lite.sigv4Mw
  split
  · rfl
  split
  · refine congrArg (Prog.call Op.nowUtc) (funext fun now => ?_)
    beta_reduce
    cases v.presigned now req config <;> rfl
  split
  · rfl
  · refine congrArg (Prog.call Op.nowUtc) (funext fun now => ?_)
    beta_reduce
    cases v.signed now req config <;> rfl

/-- The app at one configuration. -/
theorem resolve_buildApp (v : Verifier) (req : HttpRequest) :
    (buildApp env v req).resolve config = S3lite.buildApp { env with region := config.region } v config req := by
  unfold buildApp S3lite.buildApp
  split
  · exact Prog.resolve_plain config _
  split
  · exact Prog.resolve_plain config _
  · refine (resolve_verifying v req _).trans ?_
    rw [resolve_dispatch]

end

/-! ## What is left to read -/

/-- The requests that read the configuration once more after dispatch. -/
def rereads : Route → Bool
  | .request (.createBucket ..) | .request (.putObject ..) | .request (.copyObject ..)
  | .request (.completeMultipartUpload ..) | .request (.deleteObject _ _ none) => true
  | _ => false

/-- The request may read the configuration again after these reads, the newest first: at its
    entry; at dispatch, if it can pass verification; and after that if it is routed to a
    request that does. -/
def left (v : Verifier) (req : HttpRequest) : List Settings → Prop
  | [] => True
  | [entered] => ∃ now, verdict v now entered req = .ok ()
  | [dispatched, _] => ∃ r, routed dispatched req = .ok r ∧ rereads r = true
  | _ :: _ :: _ :: _ => False

section
variable {env : Env} {allowed : List Settings → Prop} {g : List Settings}

theorem follows_createBucket (h : allowed g) (bucket : Str) (headers : HeaderMap) :
    (createBucket env bucket headers).Follows (loading allowed) (fun _ _ => True) g :=
  ⟨trivial, fun _ _ => ⟨h, fun _ _ => follows_plain _ fun _ => trivial⟩⟩

theorem follows_emitting (h : allowed g) (x : Handler (Response × Bool)) :
    (emitting x).Follows (loading allowed) (fun _ _ => True) g := by
  unfold emitting
  rw [Prog.follows_bind]
  refine follows_plain x fun r => ?_
  rcases r with _ | ⟨resp, _ | _⟩
  · trivial
  · trivial
  · exact ⟨h, fun _ _ => trivial⟩

/-- Only what rereads the configuration does. -/
theorem follows_handler {r : Route} (h : rereads r = true → allowed g) :
    (handler env r).Follows (loading allowed) (fun _ _ => True) g := by
  unfold handler
  split
  · exact follows_createBucket (h rfl) _ _
  · exact follows_emitting (h rfl) _
  · exact follows_emitting (h rfl) _
  · exact follows_emitting (h rfl) _
  · exact follows_emitting (h rfl) _
  · exact follows_plain _ fun _ => trivial

theorem follows_dispatch {v : Verifier} {req : HttpRequest} {entered : Settings} (h : left v req [entered]) :
    (dispatch env req).Follows (loading (left v req)) (fun _ _ => True) [entered] := by
  refine ⟨h, fun dispatched _ => ?_⟩
  show (serve env req.path (routed dispatched req)).Follows (loading (left v req)) _ [dispatched, entered]
  cases hr : routed dispatched req with
  | error e => trivial
  | ok r =>
    show Prog.Follows _ (Prog.bind (handler env r) fun x => .ret (answerOf req.path x)) _ _
    rw [Prog.follows_bind]
    exact follows_handler fun hrereads => ⟨r, hr, hrereads⟩

/-- A request goes on only if it passes at the time it is verified. -/
theorem follows_verifying {v : Verifier} {req : HttpRequest} {config : Settings} {next : AppProg Answer}
    (h : left v req [config] → next.Follows (loading (left v req)) (fun _ _ => True) [config]) :
    (verifying v config req next).Follows (loading (left v req)) (fun _ _ => True) [config] := by
  unfold verifying
  split
  · rename_i ho
    exact h ⟨0, by unfold verdict; rw [if_pos ho]⟩
  rename_i ho
  split
  · rename_i hp
    refine ⟨trivial, fun now _ => ?_⟩
    beta_reduce
    cases hv : v.presigned now req config with
    | error e => trivial
    | ok => exact h ⟨now, by unfold verdict; rw [if_neg ho, if_pos hp]; exact hv⟩
  rename_i hp
  split
  · trivial
  · rename_i hl
    refine ⟨trivial, fun now _ => ?_⟩
    beta_reduce
    cases hv : v.signed now req config with
    | error e => trivial
    | ok => exact h ⟨now, by unfold verdict; rw [if_neg ho, if_neg hp, if_neg hl, hv]; rfl⟩

/-- A request reads as `left` says. -/
theorem follows_buildApp (v : Verifier) (req : HttpRequest) :
    (buildApp env v req).Follows (loading (left v req)) (fun _ _ => True) [] := by
  unfold buildApp
  split
  · exact follows_plain _ fun _ => trivial
  split
  · exact follows_plain _ fun _ => trivial
  · exact ⟨trivial, fun config _ => follows_verifying follows_dispatch⟩

end

end App

end S3lite
