/-
  S3lite.Vault.Runs — requests served one after the other, against the vault.

  - `vault_refined`: from the empty server, in every run with a strictly increasing clock whose
    steps meet `Fits`, every answer is one that the vault gives, and the world in the end shows
    the vault in the end.
  - `version_survives`: a version that has an id of its own is read back with its bytes until a
    request deletes that id, whatever else is served.
  - `put_is_read`: after a PUT that succeeds, a GET of the key sends its bytes, until another
    request writes or deletes the key.
-/
import S3lite.Vault.Writes

namespace S3lite

open Handler

/-- The requests with their answers. -/
def transcript (env : Env) : World → List Request → List (Request × Except Failure Response)
  | _, [] => []
  | w, r :: requests => (r, (run env (r.handler env) w).1) :: transcript env (run env (r.handler env) w).2 requests

/-- The requests are well formed, and every step of each meets the condition. -/
def AllFit (env : Env) : World → List Request → Prop
  | _, [] => True
  | w, r :: requests => r.WellFormed ∧ MeetsAll env (Fits env) (r.handler env) w ∧ AllFit env (run env (r.handler env) w).2 requests

section
variable {env : Env} {w : World} {s : Vault}

theorem AllFit.append {before after : List Request} (h : AllFit env w (before ++ after)) :
    AllFit env w before ∧ AllFit env (served env w before) after := by
  induction before generalizing w with
  | nil => exact ⟨trivial, h⟩
  | cons r before ih =>
    obtain ⟨hwell, hfits, hrest⟩ := h
    obtain ⟨hbefore, hafter⟩ := ih hrest
    exact ⟨⟨hwell, hfits, hbefore⟩, hafter⟩

theorem meets_discard_iff {α : Type} {Fits : World → Op → Prop} {x : Handler α} :
    x.discard.Meets (exec env) Fits w ↔ MeetsAll env Fits x w := by
  unfold MeetsAll Handler.discard
  induction x generalizing w with
  | ret a => exact Iff.rfl
  | call op k ih => exact and_congr_right fun _ => ih _

theorem Sequential.request {r : Request} (h : Sequential env (Ranged env) w) (hwell : r.WellFormed)
    (hfits : MeetsAll env (Fits env) (r.handler env) w) : Sequential env (Ranged env) (run env (r.handler env) w).2 := by
  have hnext := h.serve _ (Or.inl ⟨r, hwell, rfl⟩) ((meets_discard_iff.mpr hfits).mono fun _ _ hfit => hfit.1)
  rw [world_discard] at hnext
  exact hnext

/-- From any world that shows a vault. -/
theorem runs_refined (henv : env.Sane) (hclock : StrictMono env.now) {requests : List Request} (hw : Sequential env (Ranged env) w)
    (hs : Shows env w s) (h : AllFit env w requests) :
    ∃ s', Vault.Runs env s (transcript env w requests) s' ∧ Shows env (served env w requests) s' ∧
      Sequential env (Ranged env) (served env w requests) := by
  induction requests generalizing w s with
  | nil => exact ⟨s, .nil s, hs, hw⟩
  | cons r requests ih =>
    obtain ⟨hwell, hfits, hrest⟩ := h
    have hnext := hw.request hwell hfits
    obtain ⟨hsteady, hstocked⟩ := sequential_stocked henv hw
    have hsettled : Settled env w r := ⟨henv, hclock, hwell, hfits, hsteady, hstocked, (sequential_stocked henv hnext).1⟩
    obtain ⟨s1, hserves, hs1⟩ := simulates_request hsettled hs
    obtain ⟨s', hruns, hs', hw'⟩ := ih hnext hs1 hrest
    exact ⟨s', .cons hserves hruns, hs', hw'⟩

theorem fits_of_check {op : Op} (h : rangedCheck env w op = true) : Fits env w op := by
  refine ⟨ranged_of_check h, fun key part m e hm => ?_⟩
  subst e
  unfold rangedCheck at h
  exact of_decide_eq_true (Option.all_eq_true _ _ |>.mp (Bool.and_eq_true_iff.mp h).2 m hm)

theorem allFit_of_check {requests : List Request} (h : servedCheck env (rangedCheck env) requests w = true) : AllFit env w requests := by
  induction requests generalizing w with
  | nil => trivial
  | cons r requests ih =>
    simp only [servedCheck, Bool.and_eq_true, decide_eq_true_eq] at h
    obtain ⟨⟨hwell, hmeets⟩, hrest⟩ := h
    exact ⟨hwell, meets_discard_iff.mp (Prog.meets_of_check (fun _ _ hcheck => fits_of_check hcheck) hmeets), ih hrest⟩

theorem vault_refined (henv : env.Sane) (hclock : StrictMono env.now) {requests : List Request} (h : AllFit env .empty requests) :
    ∃ s, Vault.Runs env .empty (transcript env .empty requests) s ∧ Shows env (served env .empty requests) s := by
  obtain ⟨s, hruns, hs, -⟩ := runs_refined henv hclock .empty (.empty env) h
  exact ⟨s, hruns, hs⟩

end

/-- An object, replaced by an upload of the same key, and both deleted. -/
def everyday : List Request :=
  [.createBucket (str "bucket") [],
    .putBucketVersioning (str "bucket") (str "<VersioningConfiguration><Status>Enabled</Status></VersioningConfiguration>"),
    .putObject (str "bucket") (str "k") [] (str "b"), .createMultipartUpload (str "bucket") (str "k") [],
    .uploadPart (str "bucket") (str "k") (str "aaaaaa") 1 [] (str "a"),
    .completeMultipartUpload (str "bucket") (str "k") (str "aaaaaa")
      (str "<CompleteMultipartUpload><Part><PartNumber>1</PartNumber><ETag>\"0cc175b9c0f1b6a831c399e269772661\"</ETag></Part></CompleteMultipartUpload>"),
    .getObject (str "bucket") (str "k") none [], .deleteObject (str "bucket") (str "k") none]

theorem sampleEnv_clock : StrictMono sampleEnv.now := fun _ _ h => Int.ofNat_lt.mpr h

set_option maxRecDepth 20000 in
theorem vault_refined_everyday :
    ∃ s, Vault.Runs sampleEnv .empty (transcript sampleEnv .empty everyday) s ∧ Shows sampleEnv (served sampleEnv .empty everyday) s :=
  vault_refined sampleEnv_sane sampleEnv_clock (allFit_of_check (by rfl))

/-! ## What a vault keeps -/

/-- The request may write or remove a version of the key. -/
def Request.changes (bucket key : Str) : Request → Bool
  | .putObject b k .. | .copyObject b k .. | .completeMultipartUpload b k .. | .deleteObject b k _ => decide (b = bucket ∧ k = key)
  | _ => false

namespace Vault

variable {env : Env} {s s' : Vault} {bucket key id : Str} {r : Request} {answer : Except Failure Response}

/-- What a request can do to the versions of a key. -/
inductive Changes (s : Vault) (bucket key : Str) (h' : History Str Bytes) : Request → Prop
  | same (r : Request) : h' = s.history bucket key → Changes s bucket key h' r
  | records (r : Request) (v : Version Str Bytes) : r.changes bucket key = true → v.id = nullVersionId ∨ s.Fresh bucket key v.id →
      h' = (s.history bucket key).record v → Changes s bucket key h' r
  | forgets (versionId : Option Str) : h' = (s.history bucket key).forget (versionId.getD nullVersionId) →
      Changes s bucket key h' (.deleteObject bucket key versionId)

theorem changes_write {b k : Str} {v : Version Str Bytes} (hr : r.changes b k = true) (hv : v.id = nullVersionId ∨ s.Fresh b k v.id) :
    Changes s bucket key ((s.write b k v).history bucket key) r := by
  unfold write
  by_cases e : bucket = b ∧ key = k
  · obtain ⟨rfl, rfl⟩ := e
    simp only [and_self, if_true]
    exact .records r v hr hv rfl
  · simp only [if_neg e]
    exact .same r rfl

theorem changes_remove (b k : Str) (versionId : Option Str) :
    Changes s bucket key ((s.remove b k (versionId.getD nullVersionId)).history bucket key) (.deleteObject b k versionId) := by
  unfold remove
  by_cases e : bucket = b ∧ key = k
  · obtain ⟨rfl, rfl⟩ := e
    simp only [and_self, if_true]
    exact .forgets versionId rfl
  · simp only [if_neg e]
    exact .same _ rfl

theorem Names.fresh {b k : Str} (h : s.Names b k id) : id = nullVersionId ∨ s.Fresh b k id := by
  unfold Names at h
  split at h
  · exact h.elim
  · exact Or.inr h
  · exact Or.inl h
  · exact Or.inl h

theorem Serves.changes (h : s.Serves env r answer s') (bucket key : Str) : Changes s bucket key (s'.history bucket key) r := by
  cases answer with
  | error e =>
    rw [h.refused e rfl]
    exact .same r rfl
  | ok resp =>
    have hbecomes := h.done resp rfl
    cases r with
    | putBucketVersioning b body =>
      obtain ⟨status, state, -, -, rfl⟩ := hbecomes
      exact .same _ rfl
    | putObject b k headers body =>
      obtain ⟨new, hnames, rfl⟩ := hbecomes
      exact changes_write (decide_eq_true ⟨rfl, rfl⟩) hnames.fresh
    | copyObject b k source headers =>
      obtain ⟨new, c, hnames, -, rfl⟩ := hbecomes
      exact changes_write (decide_eq_true ⟨rfl, rfl⟩) hnames.fresh
    | deleteObject b k versionId =>
      cases versionId with
      | some old =>
        obtain rfl := hbecomes
        exact changes_remove b k (some old)
      | none =>
        simp only [Becomes] at hbecomes
        split at hbecomes
        · obtain rfl := hbecomes
          exact changes_remove b k none
        · obtain ⟨new, hnames, rfl⟩ := hbecomes
          exact changes_write (decide_eq_true ⟨rfl, rfl⟩) hnames.fresh
    | createMultipartUpload b k headers =>
      obtain ⟨new, -, -, rfl⟩ := hbecomes
      exact .same _ rfl
    | uploadPart b k u n headers body =>
      obtain ⟨u, -, rfl⟩ := hbecomes
      exact .same _ rfl
    | uploadPartCopy b k u n source headers =>
      obtain ⟨u, c, range, -, -, -, rfl⟩ := hbecomes
      exact .same _ rfl
    | completeMultipartUpload b k u body =>
      obtain ⟨pieces, -, rfl⟩ := hbecomes
      have hv : (⟨nullVersionId, some pieces.flatten⟩ : Version Str Bytes).id = nullVersionId := rfl
      exact changes_write (s := s) (v := ⟨nullVersionId, some pieces.flatten⟩) (decide_eq_true ⟨rfl, rfl⟩) (Or.inl hv)
    | _ =>
      obtain rfl := hbecomes
      exact .same _ rfl

/-- A version with an id of its own stays until a request deletes that id. -/
theorem Serves.keeps_version (h : s.Serves env r answer s') (hid : id ≠ nullVersionId)
    (hr : r ≠ .deleteObject bucket key (some id)) {v : Version Str Bytes} (hv : (s.history bucket key).look (some id) = some v) :
    (s'.history bucket key).look (some id) = some v := by
  have hchange := h.changes bucket key
  generalize s'.history bucket key = h' at hchange ⊢
  cases hchange with
  | same _ e =>
    rw [e]
    exact hv
  | records _ x _ hx e =>
    have hne : id ≠ x.id := by
      intro hidx
      rcases hx with hx | hx
      · exact hid (hidx.trans hx)
      · exact hx.1 v (History.mem_of_look hv) ((History.id_of_look hv).trans hidx)
    rw [e, History.look_record_ne _ hne]
    exact hv
  | forgets versionId e =>
    have hne : id ≠ versionId.getD nullVersionId := by
      intro hidx
      cases versionId with
      | none => exact hid hidx
      | some old => exact hr (congrArg (fun x => Request.deleteObject bucket key (some x)) hidx.symm)
    rw [e, History.look_forget_ne _ hne]
    exact hv

theorem Runs.keeps_version {run : List (Request × Except Failure Response)} (h : Runs env s run s')
    (hid : id ≠ nullVersionId) (hr : ∀ a ∈ run, a.1 ≠ .deleteObject bucket key (some id)) {v : Version Str Bytes}
    (hv : (s.history bucket key).look (some id) = some v) : (s'.history bucket key).look (some id) = some v := by
  induction h with
  | nil s => exact hv
  | cons hserves _ ih =>
    exact ih (fun a ha => hr a (List.mem_cons_of_mem _ ha)) (hserves.keeps_version hid (hr _ (List.mem_cons_self ..)) hv)

/-- The versions of a key are left alone by the requests to other keys. -/
theorem Serves.keeps_history (h : s.Serves env r answer s') (hr : r.changes bucket key = false) :
    s'.history bucket key = s.history bucket key := by
  have hchange := h.changes bucket key
  generalize s'.history bucket key = h' at hchange ⊢
  cases hchange with
  | same _ e => exact e
  | records _ x hx =>
    rw [hr] at hx
    cases hx
  | forgets versionId =>
    have hchanges : Request.changes bucket key (.deleteObject bucket key versionId) = true := decide_eq_true ⟨rfl, rfl⟩
    rw [hr] at hchanges
    cases hchanges

theorem Runs.keeps_history {run : List (Request × Except Failure Response)} (h : Runs env s run s')
    (hr : ∀ a ∈ run, a.1.changes bucket key = false) : s'.history bucket key = s.history bucket key := by
  induction h with
  | nil s => rfl
  | cons hserves _ ih =>
    rw [ih fun a ha => hr a (List.mem_cons_of_mem _ ha), hserves.keeps_history (hr _ (List.mem_cons_self ..))]

end Vault

/-! ## What is read back -/

section
variable {env : Env} {bucket key id : Str} {before after : List Request}

theorem mem_transcript {w : World} {requests : List Request} {a : Request × Except Failure Response}
    (ha : a ∈ transcript env w requests) : a.1 ∈ requests := by
  induction requests generalizing w with
  | nil => exact absurd ha List.not_mem_nil
  | cons r requests ih =>
    rcases List.mem_cons.mp ha with rfl | ha
    · exact List.mem_cons_self ..
    · exact List.mem_cons_of_mem _ (ih ha)

theorem version_survives (henv : env.Sane) (hclock : StrictMono env.now) (h : AllFit env .empty (before ++ after))
    (hid : id ≠ nullVersionId) {m : Manifest}
    (hm : (served env .empty before).db.objects.get (ManifestKey.mk bucket key id).encode = some m) (hstate : m.state = .committed)
    (hkind : m.kind = .object) (hkept : Request.deleteObject bucket key (some id) ∉ after) {headers : HeaderMap}
    (hc : NoConditions headers) :
    Vault.Sends headers (objectBytes (served env .empty before) m)
      (run env (getOrHeadObject env bucket key (some id) headers false) (served env .empty (before ++ after))).1 := by
  obtain ⟨hbefore, hafter⟩ := h.append
  obtain ⟨s1, -, hs1, hw1⟩ := runs_refined henv hclock .empty (.empty env) hbefore
  obtain ⟨s2, hruns, hs2, hw2⟩ := runs_refined henv hclock hw1 hs1 hafter
  have hlook : (s1.history bucket key).look (some id) = some (shown (served env .empty before) m) := by
    have hfound : foundVersion (served env .empty before).db bucket key (some id) = some m := hm
    rw [hs1.look (sequential_stocked henv hw1).1.tidy.wellKeyed, hfound, Option.filter_some, if_pos (decide_eq_true hstate)]
    rfl
  have hlook2 := hruns.keeps_version hid (fun a ha e => hkept (e ▸ mem_transcript ha)) hlook
  obtain ⟨hsteady, hstocked⟩ := sequential_stocked henv hw2
  have hreplies : s2.Replies env _ (.getObject bucket key (some id) headers) := getObject_replies hsteady hstocked hs2
  have hsends := hreplies hc
  rw [hlook2, shown, if_pos hkind] at hsends
  rw [served_append]
  exact hsends

set_option maxRecDepth 20000 in
theorem version_survives_overwrites : ∃ m, (served sampleEnv .empty (everyday.take 3)).db.objects.get
      (ManifestKey.mk (str "bucket") (str "k") (str "aaaaa")).encode = some m ∧
    Vault.Sends [] (objectBytes (served sampleEnv .empty (everyday.take 3)) m)
      (run sampleEnv (getOrHeadObject sampleEnv (str "bucket") (str "k") (some (str "aaaaa")) [] false)
        (served sampleEnv .empty (everyday.take 3 ++ everyday.drop 3))).1 := by
  have hrow : ∃ m, (served sampleEnv .empty (everyday.take 3)).db.objects.get
      (ManifestKey.mk (str "bucket") (str "k") (str "aaaaa")).encode = some m ∧ m.state = .committed ∧ m.kind = .object :=
    ⟨_, rfl, rfl, rfl⟩
  obtain ⟨m, hm, hstate, hkind⟩ := hrow
  refine ⟨m, hm, version_survives sampleEnv_sane sampleEnv_clock (allFit_of_check (by rfl)) (by decide) hm hstate hkind (fun h => ?_)
    ⟨rfl, rfl, rfl, rfl⟩⟩
  simp [everyday] at h

theorem put_is_read (henv : env.Sane) (hclock : StrictMono env.now) {putHeaders : HeaderMap} {body : Bytes}
    (h : AllFit env .empty (before ++ .putObject bucket key putHeaders body :: after)) {resp : Response}
    (hput : (run env (putObject env bucket key putHeaders body) (served env .empty before)).1 = .ok resp)
    (hkept : ∀ r ∈ after, r.changes bucket key = false) {headers : HeaderMap} (hc : NoConditions headers) :
    Vault.Sends headers body (run env (getOrHeadObject env bucket key none headers false)
      (served env .empty (before ++ .putObject bucket key putHeaders body :: after))).1 := by
  obtain ⟨hbefore, hafter⟩ := h.append
  obtain ⟨s1, -, hs1, hw1⟩ := runs_refined henv hclock .empty (.empty env) hbefore
  obtain ⟨s3, hruns, hs3, hw3⟩ := runs_refined henv hclock hw1 hs1 hafter
  obtain ⟨hsteady, hstocked⟩ := sequential_stocked henv hw3
  have hlook : ∃ new, (s3.history bucket key).look none = some ⟨new, some body⟩ := by
    cases hruns with
    | cons hserves hrest =>
      obtain ⟨new, -, rfl⟩ := hserves.done resp hput
      refine ⟨new, ?_⟩
      rw [hrest.keeps_history fun a ha => hkept _ (mem_transcript ha)]
      unfold Vault.write
      simp only [and_self, if_true]
      rfl
  obtain ⟨new, hlook⟩ := hlook
  have hreplies : s3.Replies env _ (.getObject bucket key none headers) := getObject_replies hsteady hstocked hs3
  have hsends := hreplies hc
  rw [hlook] at hsends
  rw [served_append]
  exact hsends

theorem put_is_read_after_others : Vault.Sends [] (str "a") (run sampleEnv (getOrHeadObject sampleEnv (str "bucket") (str "k") none [] false)
    (served sampleEnv .empty ([.createBucket (str "bucket") []] ++ .putObject (str "bucket") (str "k") [] (str "a") ::
      [.putObject (str "bucket") (str "l") [] (str "b")]))).1 :=
  put_is_read sampleEnv_sane sampleEnv_clock (allFit_of_check (by rfl)) (by rfl)
    (fun r hr => by
      rw [List.mem_singleton.mp hr]
      rfl) ⟨rfl, rfl, rfl, rfl⟩

end

end S3lite
