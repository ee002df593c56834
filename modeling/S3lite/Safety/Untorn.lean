/-
  S3lite.Safety.Untorn — what a GET sends while other requests run.

  A GET looks a version up, and opens the files of its parts one after the other. Meanwhile the
  version may be replaced or deleted, and its parts collected.
  - `getObject_journal`: what a GET that sends an object has looked up and read.
  - `get_untorn`: what it sends is one version, stored at a moment of the request: no bytes of
    another one, and none missing.
-/
import S3lite.Base.Moments
import S3lite.Base.Trace
import S3lite.Ranges.Get
import S3lite.Safety.Pool

namespace S3lite

open Handler

/-- Who acts: a client with its request, or the sweeper. -/
inductive Caller where
  | client (n : Nat) (r : Request)
  | sweeper

abbrev ServerOp := SendOp Caller Op (Except Failure Response)

abbrev ServerRes : ServerOp → Type := SendOp.Res Op.Res

/-- Requests, which are answered, and sweeps. -/
def Answers (env : Env) (p : Prog ServerOp ServerRes Unit) : Prop :=
  (∃ n r, r.WellFormed ∧ p = Prog.answering (Caller.client n r) (r.handler env)) ∨ p = Prog.silent Caller.sweeper sweepOnce

/-- The configurations reached with every moment and answer written down. -/
abbrev Answering (env : Env) : Config ServerOp ServerRes (Watched Caller World (Except Failure Response)) Unit → Prop :=
  Reach (watch (exec env)) (.only fun _ => True) () (Answers env) (fun _ _ _ => True) ⟨.empty, [], []⟩

abbrev ServerEntry := Σ o : Op, o.Res

/-- A version was looked up. -/
def lookedUp (bucket key : Str) (found : Option Manifest) : Option Str → ServerEntry
  | some vid => ⟨.metaOp (.getManifest ⟨bucket, key, vid⟩), found⟩
  | none => ⟨.metaOp (.getLatestVersion bucket key), found⟩

/-- A part was read. -/
def partRead (hash : Hash) (data : Bytes) : ServerEntry := ⟨.readPart hash, some data⟩

/-- The response sends the bytes, or the range of them that the header names. -/
def SendsOf (headers : HeaderMap) (m : Manifest) (data : Bytes) (resp : Response) : Prop :=
  (parseRangeHeader headers m.size = .ok none ∧ resp.status = 200 ∧ resp.body = .bytes data) ∨
    ∃ first last, parseRangeHeader headers m.size = .ok (some (first, last)) ∧ resp.status = 206 ∧
      last < data.length ∧ resp.body = .bytes (cut first (last + 1) data)

/-- The version was found and its parts were read. -/
def ReadOf (bucket key : Str) (versionId : Option Str) (headers : HeaderMap) (resp : Response) (journal : List ServerEntry) : Prop :=
  ∃ m datas, lookedUp bucket key (some m) versionId ∈ journal ∧ (versionId ≠ none → m.state = .committed) ∧ m.kind = .object ∧
    List.Forall₂ (fun p d => partRead p.hash d ∈ journal) m.parts datas ∧ SendsOf headers m datas.flatten resp

section
variable {env : Env} {bucket key : Str} {versionId : Option Str} {headers : HeaderMap}

theorem readParts_journal (parts : List PartRef) (g : List ServerEntry) :
    Keeps Prog.journaling (readParts parts) g fun data g' => (∀ e ∈ g, e ∈ g') ∧
      ∃ datas, data = datas.flatten ∧ List.Forall₂ (fun p d => partRead p.hash d ∈ g') parts datas := by
  induction parts generalizing g with
  | nil => exact keeps_ok.mpr ⟨fun _ he => he, [], rfl, .nil⟩
  | cons p parts ih =>
    rw [readParts, keeps_bind, keeps_op]
    refine ⟨trivial, fun file _ => keeps_bind.mpr (keeps_orFail.mpr fun data hdata => ?_)⟩
    subst hdata
    refine keeps_bind.mpr ((ih _).mono fun rest g' hrest => keeps_ok.mpr ?_)
    obtain ⟨hsub, datas, rfl, hall⟩ := hrest
    refine ⟨fun e he => hsub e (List.mem_append_left _ he), data :: datas, rfl, .cons (hsub _ ?_) hall⟩
    exact List.mem_append_right _ (List.mem_singleton_self _)

theorem findVersion_journal (g : List ServerEntry) :
    Keeps Prog.journaling (findVersion bucket key versionId) g fun m g' =>
      lookedUp bucket key (some m) versionId ∈ g' ∧ (versionId ≠ none → m.state = .committed) := by
  cases versionId with
  | none =>
    refine keeps_bind.mpr (keeps_op.mpr ⟨trivial, fun found _ => keeps_orFail.mpr fun m hm => ?_⟩)
    subst hm
    exact ⟨List.mem_append_right _ (List.mem_singleton_self _), fun hne => absurd rfl hne⟩
  | some vid =>
    refine keeps_bind.mpr (keeps_op.mpr ⟨trivial, fun found _ => keeps_orFail.mpr fun m hm => ?_⟩)
    obtain ⟨hm, hstate⟩ := Option.filter_eq_some_iff.mp hm
    obtain rfl : found = some m := hm
    exact ⟨List.mem_append_right _ (List.mem_singleton_self _), fun _ => of_decide_eq_true hstate⟩

/-- A response in place of the body. -/
theorem evaluatePreconditions_status {etag : Str} {lastModified : Time} {resp : Response}
    (h : evaluatePreconditions env headers etag lastModified bucket key = some resp) : resp.status = 412 ∨ resp.status = 304 := by
  unfold evaluatePreconditions at h
  dsimp only at h
  split at h
  · cases h
    exact Or.inl rfl
  · split at h
    · cases h
      exact Or.inr rfl
    · split at h
      · cases h
        exact Or.inl rfl
      · split at h
        · cases h
          exact Or.inr rfl
        · cases h

theorem getObject_journal (g : List ServerEntry) :
    Keeps Prog.journaling (getOrHeadObject env bucket key versionId headers false) g fun resp g' =>
      resp.status = 200 ∨ resp.status = 206 → ReadOf bucket key versionId headers resp g' := by
  simp only [getOrHeadObject, requireBucket, keeps_bind, keeps_op, keeps_ensure]
  refine ⟨trivial, fun _ _ => keeps_orFail.mpr fun _ _ => (findVersion_journal _).mono fun m g1 hfound hk => keeps_etagOf fun etag _ => ?_⟩
  obtain ⟨hfound, hstate⟩ := hfound
  split
  · rename_i resp hshort
    refine keeps_ok.mpr fun hstatus => ?_
    have hother := evaluatePreconditions_status hshort
    omega
  · simp only [keeps_bind, keeps_ofExcept, readBody, if_neg Bool.false_ne_true]
    intro range hrange
    refine (readParts_journal m.parts g1).mono fun data g2 hread => ?_
    obtain ⟨hsub, datas, rfl, hall⟩ := hread
    cases range with
    | none =>
      refine keeps_ok.mpr (keeps_ok.mpr fun _ => ⟨m, datas, hsub _ hfound, hstate, hk, hall, Or.inl ⟨hrange, ?_⟩⟩)
      exact objectHeaders_fields env m etag none _
    | some r =>
      obtain ⟨first, last⟩ := r
      dsimp only [sliceInclusive]
      split
      · rename_i hlast
        refine keeps_ok.mpr (keeps_ok.mpr fun _ => ⟨m, datas, hsub _ hfound, hstate, hk, hall, Or.inr ⟨first, last, hrange, ?_⟩⟩)
        have hfields := objectHeaders_fields env m etag (some (first, last)) ⟨206, [], .bytes ((datas.flatten.take (last + 1)).drop first)⟩
        exact ⟨hfields.1, hlast, hfields.2⟩
      · exact keeps_panicked

theorem latest_committed {db : Db} {m : Manifest} (h : handleGetLatestVersion db bucket key = some m) : m.state = .committed := by
  rcases foldl_takeLatest_mem h with hm | hm
  · have hrow := (List.mem_filter.mp hm).2
    rw [decide_eq_true_eq] at hrow
    exact hrow.1
  · cases hm

/-- What a GET sends is one version, found at a moment of the request: the bytes whose hashes its
    manifest lists, or the range of them. -/
theorem get_untorn {c : Config ServerOp ServerRes (Watched Caller World (Except Failure Response)) Unit} (h : Answering env c) {n : Nat}
    {resp : Response} (hsent : (.client n (.getObject bucket key versionId headers), .ok resp) ∈ c.world.sent)
    (hstatus : resp.status = 200 ∨ resp.status = 206) :
    ∃ w m datas, (.client n (.getObject bucket key versionId headers), w) ∈ c.world.moments ∧
      foundVersion w.db bucket key versionId = some m ∧ m.state = .committed ∧ m.kind = .object ∧
        List.Forall₂ (fun p d => env.blake3 d = p.hash) m.parts datas ∧ SendsOf headers m datas.flatten resp := by
  have hstart : ∀ p, Answers env p → (∃ l q, p = Prog.answering l q ∧ Prog.Follows Prog.journaling q
      (fun answer journal => ∀ bucket key versionId headers n, l = .client n (.getObject bucket key versionId headers) →
        ∀ resp, answer = .ok resp → resp.status = 200 ∨ resp.status = 206 → ReadOf bucket key versionId headers resp journal) []) ∨
          ∃ l α, ∃ q : Prog Op Op.Res α, p = q.silent l := by
    intro p hp
    rcases hp with ⟨n, r, -, rfl⟩ | rfl
    · refine Or.inl ⟨_, _, rfl, ?_⟩
      by_cases hget : ∃ bucket key versionId headers, r = .getObject bucket key versionId headers
      · obtain ⟨b, k, v, hs, rfl⟩ := hget
        refine Prog.Follows.mono (getObject_journal []) fun answer journal hq => ?_
        intro b' k' v' hs' n' e resp hresp hstatus
        cases e
        exact hq resp hresp hstatus
      · refine Prog.Follows.mono (Prog.follows_of_ok (fun _ _ => trivial) _ _) fun answer journal _ => ?_
        intro b' k' v' hs' n' e
        cases e
        exact absurd ⟨_, _, _, _, rfl⟩ hget
    · exact Or.inr ⟨_, _, _, rfl⟩
  obtain ⟨journal, hq, hhas⟩ := Reach.answered hstart h hsent
  obtain ⟨m, datas, hlooked, hstate, hk, hall, hsends⟩ := hq _ _ _ _ _ rfl _ rfl hstatus
  obtain ⟨w, hw, hresult⟩ := hhas _ hlooked
  have hfound : foundVersion w.db bucket key versionId = some m := by
    cases versionId with
    | none => exact hresult
    | some vid => exact hresult
  have hcommitted : m.state = .committed := by
    by_cases hnone : versionId = none
    · subst hnone
      exact latest_committed hfound
    · exact hstate hnone
  refine ⟨w, m, datas, hw, hfound, hcommitted, hk, hall.imp fun p d hread => ?_, hsends⟩
  -- a file that was read had the name of its content
  obtain ⟨v, hv, hfile⟩ := hhas _ hread
  have hnamed : NamedFiles env v := Reach.moments (I := NamedFiles env) (fun _ _ hnone => by cases hnone) (fun op _ hi => hi.step op) h hv
  exact hnamed p.hash d hfile

end

/-! ## An object replaced while it is read -/

/-- The object is replaced between the lookup and the opening of its part. -/
def replacedWhileRead : List (Move ServerOp ServerRes) :=
  let client (n : Nat) (r : Request) : Move ServerOp ServerRes := .start n (Prog.answering (Caller.client n r) (r.handler sampleEnv))
  [client 0 (.createBucket (str "bucket") []), .steps 0 3, client 1 (.putObject (str "bucket") (str "k") [] (str "a")), .steps 1 5,
    client 2 (.getObject (str "bucket") (str "k") none []), .steps 2 2, client 3 (.putObject (str "bucket") (str "k") [] (str "b")),
    .steps 3 4, .steps 2 2]

/-- The old bytes were sent, and the store has the new ones. -/
def sentOld (w : Watched Caller World (Except Failure Response)) : Bool :=
  (w.sent.any fun
    | (.client 2 (.getObject bucket key none []), .ok resp) =>
      decide (bucket = str "bucket" ∧ key = str "k" ∧ resp.status = 200 ∧ resp.body = .bytes (str "a"))
    | _ => false) &&
      (foundVersion w.world.db (str "bucket") (str "k") none).any fun m => decide (m.parts.map (·.hash) = [sampleEnv.blake3 (str "b")])

theorem get_untorn_replaced : ∃ c, Answering sampleEnv c ∧ sentOld c.world = true ∧ ∃ w : World, ∃ m datas resp,
    foundVersion w.db (str "bucket") (str "k") none = some m ∧
      List.Forall₂ (fun p d => sampleEnv.blake3 d = p.hash) m.parts datas ∧ SendsOf [] m datas.flatten resp ∧
        resp.body = .bytes (str "a") := by
  have hplay : ((⟨⟨.empty, [], []⟩, fun _ => ((), .ret ())⟩ : Config ServerOp ServerRes (Watched Caller World (Except Failure Response)) Unit).play
      (watch (exec sampleEnv)) (.only fun _ => True) () (fun _ _ _ => true) replacedWhileRead).any (fun c => sentOld c.world) = true := by rfl
  obtain ⟨c, hc, hold⟩ : ∃ c, Answering sampleEnv c ∧ sentOld c.world = true := by
    refine Reach.exists_play (n := 4) (fun _ _ _ _ _ => trivial) (fun m hm => ?_) hplay
    simp only [replacedWhileRead, List.mem_cons, List.not_mem_nil, or_false] at hm
    rcases hm with rfl | rfl | rfl | rfl | rfl | rfl | rfl | rfl | rfl
    · exact ⟨by decide, Or.inl ⟨_, _, by decide, rfl⟩⟩
    · exact (by decide : 0 < 4)
    · exact ⟨by decide, Or.inl ⟨_, _, by decide, rfl⟩⟩
    · exact (by decide : 1 < 4)
    · exact ⟨by decide, Or.inl ⟨_, _, by decide, rfl⟩⟩
    · exact (by decide : 2 < 4)
    · exact ⟨by decide, Or.inl ⟨_, _, by decide, rfl⟩⟩
    · exact (by decide : 3 < 4)
    · exact (by decide : 2 < 4)
  obtain ⟨x, hx, hsent⟩ := List.any_eq_true.mp (Bool.and_eq_true_iff.mp hold).1
  split at hsent
  · rename_i bucket key resp
    obtain ⟨rfl, rfl, hstatus, hbody⟩ := of_decide_eq_true hsent
    obtain ⟨w, m, datas, -, hfound, -, -, hall, hsends⟩ := get_untorn hc hx (Or.inl hstatus)
    exact ⟨c, hc, hold, w, m, datas, resp, hfound, hall, hsends, hbody⟩
  · cases hsent

end S3lite
