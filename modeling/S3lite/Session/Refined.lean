/-
  S3lite.Session.Refined — a whole multipart session among other requests.

  - `Session`: `create_multipart_upload`, the `upload_part` requests, and `complete_multipart_upload`, with
    whatever is served before, between and after them.
  - `session_refined`: in between the upload's row is the map from numbers to the bytes last uploaded;
    the completion succeeds exactly with a list that picks from the map; a GET then sends the bytes in
    the list's order; and what else was uploaded is collected.
  - `sessions_break_promises`: with 2^32 - 1 other references of a part's content the count loses one; a
    clock that stands still does not show which version is newer; a refused request leaves its file; and
    sizes wrap.
-/
import S3lite.Session.Completion
import S3lite.Session.Saturated
import S3lite.Admin.RoundTrip

namespace S3lite

open Handler

/-! ## Sessions -/

structure Session where
  bucket : Str
  key : Str
  /-- The upload's id. -/
  id : Str
  before : List Request
  headers : HeaderMap
  during : List Request
  /-- The list of parts to complete the upload with, as sent. -/
  body : Bytes
  after : List Request

/-- None of the requests rewrites the key. -/
def Leaves (env : Env) (bucket key : Str) : World → List Request → Prop
  | _, [] => True
  | w, r :: requests => ¬ r.Rewrites w.db bucket key ∧ Leaves env bucket key (run env (r.handler env) w).2 requests

namespace Session

variable (env : Env) (s : Session)

def upload : ManifestKey := ⟨s.bucket, s.key, s.id⟩

def create : Request := .createMultipartUpload s.bucket s.key s.headers

def complete : Request := .completeMultipartUpload s.bucket s.key s.id s.body

/-- Up to where the upload is created. -/
def opening : List Request := s.before ++ [s.create]

def requests : List Request := s.opening ++ s.during ++ [s.complete] ++ s.after

/-- The world where the upload has been created. -/
def opened : World := served env .empty s.opening

/-- The world when the upload is to be completed. -/
def filled : World := served env (s.opened env) s.during

def answer : Except Failure Response := (run env (s.complete.handler env) (s.filled env)).1

def completed : World := (run env (s.complete.handler env) (s.filled env)).2

def closed : World := served env (s.completed env) s.after

/-- The bytes last uploaded under each number by these requests. -/
def pieces (requests : List Request) : Nat → Option Bytes := uploaded s.upload (transcript env (s.opened env) requests)

/-- The upload is created with the id. Between that and its completion no request but `upload_part` names
    it, and after that none rewrites the key. -/
structure Valid : Prop where
  wellFormed : ∀ r ∈ s.requests, r.WellFormed
  created : ∃ resp, (run env (s.create.handler env) (served env .empty s.before)).1 = .ok resp ∧
    resp.body = .xml (.initiateMultipartUpload s.bucket s.key s.id)
  during : ∀ r ∈ s.during, r.target = some s.upload → ∃ n headers body, r = .uploadPart s.bucket s.key s.id n headers body
  after : Leaves env s.bucket s.key (s.completed env) s.after

/-- What a session does. -/
structure Refined : Prop where
  row : ∀ requests, requests <+: s.during →
    ∃ m, (served env (s.opened env) requests).db.objects.get s.upload.encode = some m ∧ m.Gathers env (s.pieces env requests)
  completes : Vault.Succeeds (s.answer env) ↔
    ∃ request, env.xmlCompleteMultipartUpload s.body = .ok request ∧ Picks env (s.pieces env s.during) request
  sends : Vault.Succeeds (s.answer env) → ∀ request, env.xmlCompleteMultipartUpload s.body = .ok request →
    ∀ versionId, versionId = some nullVersionId ∨ versionId = none ∧ StrictMono env.now →
      ∀ headers, NoConditions headers → headers.get (str "range") = none →
        ∃ resp, (run env (getOrHeadObject env s.bucket s.key versionId headers false) (s.closed env)).1 = .ok resp ∧
          SendsWhole (picked (s.pieces env s.during) request).flatten resp ∧
            resp.headers.get (str "etag") = some (multipartEtag env (picked (s.pieces env s.during) request))
  collected : Vault.Succeeds (s.answer env) → ∀ c, EverUploaded s.upload (transcript env (s.opened env) s.during) c →
    refs (s.completed env).db (env.blake3 c) = 0 →
      (s.completed env).db.parts.get (env.blake3 c) = none ∧
        ((s.completed env).files.get (env.blake3 c) = none ∨ LeftBehind env (s.opened env) s.during (env.blake3 c))

variable {env s}

/-- A prefix of the run. -/
theorem calm (henv : env.Sane) (hv : s.Valid env) (hample : AllAmple env .empty s.requests) {requests after : List Request}
    (he : s.requests = requests ++ after) : Calm env (served env .empty requests) := by
  rw [he] at hample
  refine (Calm.empty env).served henv (fun r hr => hv.wellFormed r ?_) hample.append.1
  rw [he]
  exact List.mem_append_left _ hr

section
variable (henv : env.Sane) (hv : s.Valid env)
include henv hv

/-- The upload starts without parts. -/
theorem starts : Gathered env (s.opened env) s.upload (s.pieces env []) ∧ s.upload.NulFree ∧ s.upload.versionId ≠ nullVersionId := by
  obtain ⟨resp, hresp, hbody⟩ := hv.created
  obtain ⟨w', hrun⟩ : ∃ w', run env (createMultipartUpload s.bucket s.key s.headers) (served env .empty s.before) = (.ok resp, w') :=
    ⟨_, Prod.ext hresp rfl⟩
  have hopened : s.opened env = w' := by
    rw [opened, opening, served_snoc]
    exact congrArg Prod.snd hrun
  obtain ⟨hbody', -, n, w1, -, hputs⟩ := (ensures_createMultipartUpload s.bucket s.key s.headers).ok hrun
  rw [hbody] at hbody'
  have hid : s.id = env.uuid (served env .empty s.before).uuids := by
    simp only [Body.xml.injEq, XmlDoc.initiateMultipartUpload.injEq] at hbody'
    exact hbody'.2.2
  have hmem : s.create ∈ s.requests := by
    simp [requests, opening]
  obtain ⟨hb, hk⟩ := (hv.wellFormed _ hmem).object rfl
  have hrow : w'.db.objects.get s.upload.encode = some (uploadManifest s.upload s.headers (env.now n)) := by
    rw [(Puts.objects hputs).1]
    show (Table.insert _ (ManifestKey.mk s.bucket s.key (env.uuid _)).encode _).get s.upload.encode = _
    rw [upload, hid]
    exact Table.get_insert_self ..
  refine ⟨?_, ⟨hb, hk, by rw [upload, hid]; exact henv.uuid_clear _⟩, by rw [upload, hid]; exact henv.uuid_ne_null _⟩
  rw [hopened]
  refine ⟨⟨_, hrow, rfl, .nil, fun p => ?_, rfl⟩, fun n c hc => (by cases hc), fun n c hc => by cases hc⟩
  refine iff_of_false List.not_mem_nil fun hp => ?_
  obtain ⟨c, hc, -⟩ := hp
  cases hc

variable (hample : AllAmple env .empty s.requests)
include hample

/-- Each request keeps the upload the map of its parts. -/
theorem gathers {requests : List Request} (hpre : requests <+: s.during) :
    Gathered env (served env (s.opened env) requests) s.upload (s.pieces env requests) ∧ Reclaimed env (s.opened env) s.upload requests := by
  obtain ⟨hstart, hclear, hid⟩ := starts henv hv
  induction requests using List.reverseRecOn with
  | nil =>
    refine ⟨hstart, fun c hc => ?_⟩
    obtain ⟨n, headers, resp, hmem⟩ := hc
    cases hmem
  | append_singleton requests r ih =>
    obtain ⟨rest, hrest⟩ := hpre
    obtain ⟨hgathered, hreclaimed⟩ := ih ⟨r :: rest, by rw [← hrest]; simp⟩
    have hmem : r ∈ s.during := by
      rw [← hrest]
      simp
    -- the request in the run
    have hsplit : s.requests = (s.opening ++ requests) ++ r :: (rest ++ [s.complete] ++ s.after) := by
      rw [Session.requests, ← hrest]
      simp
    have hsplit' : s.requests = (s.opening ++ requests ++ [r]) ++ (rest ++ [s.complete] ++ s.after) := by
      rw [hsplit]
      simp
    have hcalm := calm henv hv hample hsplit
    have hcalm' := calm henv hv hample hsplit'
    rw [served_append] at hcalm
    rw [served_append, served_append, ← opened] at hcalm'
    rw [← opened] at hcalm
    have hmeets : MeetsAll env (Ample env) (r.handler env) (served env (s.opened env) requests) := by
      have hall := hample
      rw [hsplit] at hall
      have hhere := hall.append.2.1
      rw [served_append] at hhere
      exact hhere
    have hwell : r.WellFormed := by
      refine hv.wellFormed r ?_
      rw [hsplit]
      simp
    obtain ⟨-, hdoes⟩ := hcalm.request henv hwell hmeets
    have hcalm' : Calm env (run env (r.handler env) (served env (s.opened env) requests)).2 := hcalm'
    have hsteady := hcalm'.steady henv
    obtain ⟨answer, w', hrun⟩ : ∃ answer w', run env (r.handler env) (served env (s.opened env) requests) = (answer, w') := ⟨_, _, rfl⟩
    have hpieces : s.pieces env (requests ++ [r]) = noted s.upload (s.pieces env requests)
        (r, (run env (r.handler env) (served env (s.opened env) requests)).1) := by
      rw [pieces, transcript_snoc, uploaded, List.foldl_append]
      rfl
    rw [served_snoc, hpieces]
    rw [hrun] at hdoes hsteady hcalm' ⊢
    have hkeep : Gathered env w' s.upload (noted s.upload (s.pieces env requests) (r, answer)) := by
      by_cases htarget : r.target = some s.upload
      · obtain ⟨n, headers, body, rfl⟩ := hv.during r hmem htarget
        cases answer with
        | error e => exact hgathered.refused ((ensures_uploadPart s.bucket s.key s.id n headers body).error hrun) hsteady
        | ok resp =>
          have hnoted := @noted_part s.upload (s.pieces env requests) n headers body resp
          rw [show noted s.upload (s.pieces env requests) (.uploadPart s.bucket s.key s.id n headers body, .ok resp) = _ from hnoted]
          exact hgathered.uploads hrun hmeets hsteady (hcalm'.bounded henv)
      · rw [noted_other htarget]
        exact hgathered.other hdoes htarget hclear hid hsteady
    refine ⟨hkeep, hreclaimed.snoc (by rw [hrun]; exact hdoes) fun n headers c resp hr hanswer => ?_⟩
    rw [hrun] at hanswer ⊢
    subst hr
    obtain rfl : answer = .ok resp := hanswer
    obtain ⟨m, hm, hgathers⟩ := hkeep.row
    have hnow : noted s.upload (s.pieces env requests) (.uploadPart s.upload.bucket s.upload.key s.upload.versionId n headers c, .ok resp) n =
        some c := by
      rw [noted_part, Function.update_self]
    obtain ⟨e, he, -⟩ := hsteady.live_row (Table.mem_rows.mpr hm) (hgathers.mem hnow)
    show w'.db.parts.get (partOf env n c).hash ≠ none
    rw [he]
    exact Option.some_ne_none e

/-- The worlds before and after the completion, and what every step meets from there on. -/
theorem closing : Calm env (s.filled env) ∧ Calm env (s.completed env) ∧ s.complete.WellFormed ∧ AllAmple env (s.completed env) s.after := by
  have hsplit : s.requests = (s.opening ++ s.during) ++ ([s.complete] ++ s.after) := by
    simp [requests]
  have hcalm := calm henv hv hample hsplit
  have hcalm' := @calm _ _ henv hv hample (s.opening ++ s.during ++ [s.complete]) _ rfl
  have hall := hample
  rw [served_append] at hcalm
  rw [hsplit] at hall
  have hafter := hall.append.2.append.2
  rw [served_append] at hafter
  rw [served_append, served_append] at hcalm'
  exact ⟨hcalm, hcalm', hv.wellFormed _ (by simp [requests]), hafter⟩

end

end Session

/-- Requests that do not rewrite the key leave the object. -/
theorem Assembled.served {env : Env} {w : World} {bucket key : Str} {u : Nat → Option Bytes} {request : List (Nat × Str)} (henv : env.Sane)
    (hb : NulFree bucket) (hk : NulFree key) (h : Assembled env w bucket key u request) (hcalm : Calm env w) {requests : List Request}
    (hwell : ∀ r ∈ requests, r.WellFormed) (hample : AllAmple env w requests) (hleaves : Leaves env bucket key w requests) :
    Assembled env (served env w requests) bucket key u request ∧ Calm env (served env w requests) := by
  induction requests generalizing w with
  | nil => exact ⟨h, hcalm⟩
  | cons r requests ih =>
    obtain ⟨hmeets, hample⟩ := hample
    obtain ⟨hr, hleaves⟩ := hleaves
    obtain ⟨hcalm', hdoes⟩ := hcalm.request henv (hwell r (List.mem_cons_self ..)) hmeets
    have hsteady := hcalm'.steady henv
    exact ih (h.kept hdoes hr hsteady.tidy.wellKeyed hb hk hsteady) hcalm' (fun r hr => hwell r (List.mem_cons_of_mem _ hr)) hample hleaves

theorem ample_of_check {env : Env} {w : World} {op : Op} (h : rangedCheck env w op = true) : Ample env w op :=
  ⟨(ranged_of_check h).room, (ranged_of_check h).collision, (ranged_of_check h).sizes⟩

theorem allAmple_of_check {env : Env} {requests : List Request} {w : World} (h : servedCheck env (rangedCheck env) requests w = true) :
    AllAmple env w requests := by
  induction requests generalizing w with
  | nil => trivial
  | cons r requests ih =>
    simp only [servedCheck, Bool.and_eq_true, decide_eq_true_eq] at h
    obtain ⟨⟨-, hmeets⟩, hrest⟩ := h
    exact ⟨meets_discard_iff.mp (Prog.meets_of_check (fun _ _ hcheck => ample_of_check hcheck) hmeets), ih hrest⟩

/-- The first part, with the ETag of "a". -/
def firstPart : Bytes :=
  str "<CompleteMultipartUpload><Part><PartNumber>1</PartNumber><ETag>\"0cc175b9c0f1b6a831c399e269772661\"</ETag></Part></CompleteMultipartUpload>"

/-- A part is uploaded twice while an object of the same key is put. -/
def reuploaded : Session where
  bucket := str "bucket"
  key := str "k"
  id := str "aaaaa"
  before := [.createBucket (str "bucket") []]
  headers := []
  during := [.uploadPart (str "bucket") (str "k") (str "aaaaa") 1 [] (str "b"), .putObject (str "bucket") (str "k") [] (str "a"),
    .uploadPart (str "bucket") (str "k") (str "aaaaa") 1 [] (str "a")]
  body := firstPart
  after := [.deleteObject (str "bucket") (str "l") none]

/-- What a session would do if no refused request left a file and the newest version were always found. -/
structure Session.Promised (env : Env) (s : Session) : Prop extends s.Refined env where
  newest : Vault.Succeeds (s.answer env) → ∀ request, env.xmlCompleteMultipartUpload s.body = .ok request →
    ∀ headers, NoConditions headers → headers.get (str "range") = none →
      ∃ resp, (run env (getOrHeadObject env s.bucket s.key none headers false) (s.closed env)).1 = .ok resp ∧
        SendsWhole (picked (s.pieces env s.during) request).flatten resp
  emptied : Vault.Succeeds (s.answer env) → ∀ c, EverUploaded s.upload (transcript env (s.opened env) s.during) c →
    refs (s.completed env).db (env.blake3 c) = 0 → (s.completed env).files.get (env.blake3 c) = none

/-- Objects of one content, an upload of one part of it, and all the objects deleted. -/
def saturated (n : Nat) : Session where
  bucket := str "bucket"
  key := str "upload"
  id := sampleEnv.uuid (served sampleEnv .empty (copies (str "bucket") natStr (str "a") n 0)).uuids
  before := copies (str "bucket") natStr (str "a") n 0
  headers := []
  during := .uploadPart (str "bucket") (str "upload")
      (sampleEnv.uuid (served sampleEnv .empty (copies (str "bucket") natStr (str "a") n 0)).uuids) 1 [] (str "a") ::
    (List.range n).map (deleteCopy (str "bucket") natStr)
  body := firstPart
  after := []

theorem natStr_ne_upload (i : Nat) : natStr i ≠ str "upload" := by
  intro h
  have hdigits := (natStr_digits i).2 117 (by rw [h]; decide)
  exact absurd hdigits.2 (by decide)

section
variable {n : Nat} (hn : u32Max ≤ n)
include hn

theorem saturated_uploaded :
    (∃ resp, (run sampleEnv ((saturated n).create.handler sampleEnv) (served sampleEnv .empty (saturated n).before)).1 = .ok resp ∧
      resp.body = .xml (.initiateMultipartUpload (str "bucket") (str "upload") (saturated n).id)) ∧
    Beside sampleEnv (str "bucket") natStr (str "upload") (saturated n).id (str "a") n n ((saturated n).filled sampleEnv) := by
  have hfilled : Filled sampleEnv (str "bucket") natStr (str "a") n 0
      (served sampleEnv .empty (copies (str "bucket") natStr (str "a") n 0)) := filled_copies names_natStr (Nat.zero_le n)
  obtain ⟨hcreated, hbeside⟩ := beside_uploaded names_natStr natStr_ne_upload hn hfilled (copies_other names_natStr natStr_ne_upload n _)
  have hdeleted := beside_deleted names_natStr natStr_ne_upload hbeside le_rfl
  rw [← served_append, ← served_append] at hdeleted
  refine ⟨hcreated, ?_⟩
  have hrequests : (saturated n).opening ++ (saturated n).during = copies (str "bucket") natStr (str "a") n 0 ++
      ([(saturated n).create, .uploadPart (str "bucket") (str "upload") (saturated n).id 1 [] (str "a")] ++
        (List.range n).map (deleteCopy (str "bucket") natStr)) := List.append_assoc ..
  unfold Session.filled Session.opened
  rw [← served_append, hrequests]
  exact hdeleted

theorem saturated_valid : (saturated n).Valid sampleEnv := by
  refine ⟨fun r hr => ?_, (saturated_uploaded hn).1, fun r hr ht => ?_, trivial⟩
  · simp only [Session.requests, Session.opening, Session.create, Session.complete, saturated, List.mem_append, List.mem_cons,
      List.not_mem_nil, or_false] at hr
    have hnames : ∀ s ∈ [str "bucket", str "upload"], NulFree s := by decide
    rcases hr with ((hr | rfl) | rfl | hr) | rfl
    · exact copies_wellFormed names_natStr r hr
    · exact hnames
    · exact hnames
    · obtain ⟨i, -, rfl⟩ := List.mem_map.mp hr
      exact names_natStr.object i
    · exact hnames
  · rcases List.mem_cons.mp hr with rfl | hr
    · exact ⟨_, _, _, rfl⟩
    · obtain ⟨i, -, rfl⟩ := List.mem_map.mp hr
      cases ht

set_option maxRecDepth 20000 in
/-- The file has gone with the last of the objects. -/
theorem saturated_broken : ¬ (saturated n).Refined sampleEnv := by
  intro h
  have hlist : sampleEnv.xmlCompleteMultipartUpload firstPart = .ok [(1, str "\"0cc175b9c0f1b6a831c399e269772661\"")] := rfl
  obtain ⟨resp, w', hrun, m, hm, hstate, hparts, hfile⟩ :=
    beside_completed hn (saturated_uploaded hn).2 (sampleEnv_sane.uuid_ne_null _) hlist (by decide) (by decide)
  have hanswer : (saturated n).answer sampleEnv = .ok resp := congrArg Prod.fst hrun
  have hclosed : (saturated n).closed sampleEnv = w' := congrArg Prod.snd hrun
  obtain ⟨sent, hsent, -⟩ := h.sends ⟨resp, hanswer⟩ _ hlist _ (Or.inl rfl) [] ⟨rfl, rfl, rfl, rfl⟩ rfl
  rw [hclosed] at hsent
  exact (ensures_getLost hm hstate hparts hfile).ok (Prod.ext hsent rfl)

end

/-- A clock that stands still. -/
def stillEnv : Env := { sampleEnv with now := fun _ => 0 }

/-- An object, and an upload of the same key. -/
def backdated : Session where
  bucket := str "bucket"
  key := str "k"
  id := str "aaaaaa"
  before := [.createBucket (str "bucket") [],
    .putBucketVersioning (str "bucket") (str "<VersioningConfiguration><Status>Enabled</Status></VersioningConfiguration>"),
    .putObject (str "bucket") (str "k") [] (str "b")]
  headers := []
  during := [.uploadPart (str "bucket") (str "k") (str "aaaaaa") 1 [] (str "a")]
  body := firstPart
  after := []

set_option maxRecDepth 20000 in
theorem backdated_valid : backdated.Valid stillEnv := by
  refine ⟨by decide, ⟨_, rfl, rfl⟩, fun r hr ht => ?_, trivial⟩
  rw [List.mem_singleton.mp hr]
  exact ⟨_, _, _, rfl⟩

set_option maxRecDepth 20000 in
theorem backdated_broken : ¬ backdated.Promised stillEnv := by
  intro h
  obtain ⟨resp, hresp, hsends⟩ := h.newest ⟨_, rfl⟩ _ rfl [] ⟨rfl, rfl, rfl, rfl⟩ rfl
  have hold : ∃ resp, (run stillEnv (getOrHeadObject stillEnv (str "bucket") (str "k") none [] false) (backdated.closed stillEnv)).1 = .ok resp ∧
      resp.body = .bytes (str "b") := ⟨_, rfl, rfl⟩
  obtain ⟨resp', hresp', hbody⟩ := hold
  obtain rfl : resp = resp' := Except.ok.inj (hresp.symm.trans hresp')
  have hsent : Body.bytes (str "b") = .bytes (str "a") := hbody.symm.trans hsends.body
  exact absurd hsent (by decide)

/-- A part is replaced, and sent once more to an upload that does not exist. -/
def resent : Session where
  bucket := str "bucket"
  key := str "k"
  id := str "aaaaa"
  before := [.createBucket (str "bucket") []]
  headers := []
  during := [.uploadPart (str "bucket") (str "k") (str "aaaaa") 1 [] (str "b"),
    .uploadPart (str "bucket") (str "k") (str "aaaaa") 1 [] (str "a"),
    .uploadPart (str "bucket") (str "k") (str "b") 1 [] (str "b")]
  body := firstPart
  after := []

set_option maxRecDepth 20000 in
theorem resent_valid : resent.Valid sampleEnv := by
  refine ⟨by decide, ⟨_, rfl, rfl⟩, fun r hr ht => ?_, trivial⟩
  simp only [resent, List.mem_cons, List.not_mem_nil, or_false] at hr
  rcases hr with rfl | rfl | rfl
  · exact ⟨_, _, _, rfl⟩
  · exact ⟨_, _, _, rfl⟩
  · exact absurd ht (by decide)

set_option maxRecDepth 20000 in
theorem resent_broken : ¬ resent.Promised sampleEnv := by
  intro h
  have hfile : ((resent.completed sampleEnv).files.get (sampleEnv.blake3 (str "b"))).isSome = true := by rfl
  rw [h.emptied ⟨_, rfl⟩ (str "b") ⟨1, [], _, List.mem_cons_self ..⟩ (by rfl)] at hfile
  cases hfile

/-- The size of an upload is a `u64`. -/
theorem uploadPart_wraps {env : Env} {w w' : World} {bucket key id : Str} {n : Nat} {headers : HeaderMap} {body : Bytes} {resp : Response}
    (hrun : run env (uploadPart env bucket key id n headers body) w = (.ok resp, w')) :
    ∃ m, w'.db.objects.get (ManifestKey.mk bucket key id).encode = some m ∧ m.size < 2 ^ 64 := by
  obtain ⟨effect, db', happend, hgc⟩ := (ensures_uploadPart bucket key id n headers body).ok hrun
  obtain ⟨m, parts, -, -, -, rfl⟩ := append_ok happend
  refine ⟨m.withParts (replacePart m.parts (partOf env n body)) (env.now (w.clock + 1)), ?_, Nat.mod_lt _ (Nat.two_pow_pos 64)⟩
  rw [hgc.objects]
  simp only [dropReplaced_parts]
  exact Table.get_insert_self ..

theorem partOf_size (env : Env) (n : Nat) (c : Bytes) : (partOf env n c).size = c.length := rfl

/-- As many bytes as half of a `u64` can count. -/
def half : Bytes := List.replicate (2 ^ 63) 0
/-- Two such parts. -/
def oversized : Session where
  bucket := str "bucket"
  key := str "k"
  id := str "aaaaa"
  before := [.createBucket (str "bucket") []]
  headers := []
  during := [.uploadPart (str "bucket") (str "k") (str "aaaaa") 1 [] half,
    .uploadPart (str "bucket") (str "k") (str "aaaaa") 2 [] half]
  body := firstPart
  after := []

set_option maxRecDepth 20000 in
theorem oversized_valid : oversized.Valid sampleEnv := by
  refine ⟨by decide, ⟨_, rfl, rfl⟩, fun r hr ht => ?_, trivial⟩
  simp only [oversized, List.mem_cons, List.not_mem_nil, or_false] at hr
  rcases hr with rfl | rfl
  · exact ⟨_, _, _, rfl⟩
  · exact ⟨_, _, _, rfl⟩

set_option maxRecDepth 20000 in
theorem oversized_broken : ¬ oversized.Refined sampleEnv := by
  intro h
  have hfirst : oversized.pieces sampleEnv oversized.during 1 = some half := by rfl
  have hsecond : oversized.pieces sampleEnv oversized.during 2 = some half := by rfl
  obtain ⟨m, hm, hgathers⟩ := h.row _ (List.prefix_refl _)
  -- the sizes of both parts
  have hboth : List.Subperm [partOf sampleEnv 1 half, partOf sampleEnv 2 half] m.parts := by
    refine List.subperm_of_subset (List.pairwise_pair.mpr fun he => ?_) fun p hp => ?_
    · cases congrArg PartRef.partNumber he
    · rcases List.mem_cons.mp hp with rfl | hp
      · exact hgathers.mem hfirst
      · rw [List.mem_singleton.mp hp]
        exact hgathers.mem hsecond
  obtain ⟨l, hperm, hsub⟩ := hboth
  have hhalf : half.length = 2 ^ 63 := List.length_replicate
  have hsum : (l.map (·.size)).sum = 2 ^ 63 + 2 ^ 63 := by
    simp only [(hperm.map (·.size)).sum_eq, List.map_cons, List.map_nil, List.sum_cons, List.sum_nil, partOf_size, hhalf, Nat.add_zero]
  have hle := (hsub.map (·.size)).sum_le_sum fun _ _ => Nat.zero_le _
  -- and of the row
  have hanswer : ∃ resp, (run sampleEnv (uploadPart sampleEnv (str "bucket") (str "k") (str "aaaaa") 2 [] half)
      (served sampleEnv (oversized.opened sampleEnv) (oversized.during.take 1))).1 = .ok resp := ⟨_, rfl⟩
  obtain ⟨resp, hresp⟩ := hanswer
  obtain ⟨w', hrun⟩ : ∃ w', run sampleEnv (uploadPart sampleEnv (str "bucket") (str "k") (str "aaaaa") 2 [] half)
      (served sampleEnv (oversized.opened sampleEnv) (oversized.during.take 1)) = (.ok resp, w') := ⟨_, Prod.ext hresp rfl⟩
  obtain ⟨m', hm', hsize⟩ := uploadPart_wraps hrun
  have hserved : served sampleEnv (oversized.opened sampleEnv) oversized.during = w' := congrArg Prod.snd hrun
  rw [← hserved] at hm'
  obtain rfl : m = m' := Option.some.inj (hm.symm.trans hm')
  rw [hgathers.size] at hsize
  omega
end S3lite
