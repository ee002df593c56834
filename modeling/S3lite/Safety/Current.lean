/-
  S3lite.Safety.Current — the conditions of a PUT and the object they are about.

  `If-Match` and `If-None-Match` are about the current object of the key, the one that GET
  without a version id answers. `checkPutPreconditions` reads the row stored under "null".
  - `check_passes_iff`: what it decides by.
  - `put_preconditions_iff`: it decides by the current object exactly where the header values
    do not tell the two ETags apart; and for all header values exactly where the two ETags
    are the same.
  - `a_version_is_overwritten`: `If-None-Match: *` over the object of a versioned bucket.
-/
import S3lite.Safety.Conditional

namespace S3lite

open Handler

/-! ## What the check decides by -/

/-- The ETag of the object in the row, or the panic of computing it. -/
def liveEtag (env : Env) (row : Option Manifest) : Option (Option Str) :=
  (liveObject row).map fun m => m.etag env.md5 env.debug

/-- The header values hold of the ETag. -/
def accepts (headers : HeaderMap) (e : Option (Option Str)) : Bool :=
  (headerString headers (str "if-match")).all (fun im => e.any fun e => e.any fun e => etagMatches im e) &&
    (headerString headers (str "if-none-match")).all fun inm => e.all fun e => e.any fun e => !etagMatches inm e

variable {env : Env} {w : World} {bucket key : Str} {headers : HeaderMap}

theorem putPasses_iff {row : Option Manifest} : PutPasses env headers row ↔ accepts headers (liveEtag env row) = true := by
  have hsplit : PutPasses env headers row ↔
      (∀ im, headerString headers (str "if-match") = some im →
        ∃ m etag, liveObject row = some m ∧ m.etag env.md5 env.debug = some etag ∧ etagMatches im etag = true) ∧
      ∀ inm, headerString headers (str "if-none-match") = some inm →
        ∀ m, liveObject row = some m → ∃ etag, m.etag env.md5 env.debug = some etag ∧ etagMatches inm etag = false :=
    ⟨fun h => ⟨h.ifMatch, h.ifNoneMatch⟩, fun h => ⟨h.1, h.2⟩⟩
  rw [hsplit, accepts, Bool.and_eq_true, liveEtag]
  refine and_congr ?_ ?_
  · cases headerString headers (str "if-match") with
    | none => simp
    | some im => simp [Option.any_eq_true]
  · cases headerString headers (str "if-none-match") with
    | none => simp
    | some inm => simp [Option.all_eq_true, Option.any_eq_true]

theorem run_existingMatches (row : Option Manifest) (raw : Str) :
    run env (existingMatches env (liveObject row) raw) w = (match liveEtag env row with
      | none => .ok false
      | some none => .error .panicked
      | some (some e) => .ok (etagMatches raw e), w) := by
  unfold liveEtag
  cases liveObject row with
  | none => rfl
  | some m =>
    simp only [existingMatches, Option.map_some, etagOf]
    cases m.etag env.md5 env.debug with
    | none => rfl
    | some e => rfl

theorem run_checkIfMatch (env : Env) (bucket key : Str) (w : World) (row : Option Manifest) (im : Option Str) :
    ∃ r, run env (checkIfMatch env bucket key (liveObject row) im) w = (r, w) ∧
      (r = .ok () ↔ im.all (fun im => (liveEtag env row).any fun e => e.any fun e => etagMatches im e) = true) := by
  cases im with
  | none => exact ⟨_, rfl, by simp⟩
  | some im =>
    rw [checkIfMatch, run_bind, run_existingMatches, Option.all_some]
    cases liveEtag env row with
    | none => exact ⟨_, rfl, by simp⟩
    | some e =>
      cases e with
      | none => exact ⟨_, rfl, by simp⟩
      | some e =>
        by_cases h : etagMatches im e = true
        · exact ⟨.ok (), by simp [h, ensure], by simp [h]⟩
        · exact ⟨.error (.error (preconditionFailed bucket key (str "If-Match failed"))), by simp [h, ensure], by simp [h]⟩

theorem run_checkIfNoneMatch (env : Env) (bucket key : Str) (w : World) (row : Option Manifest) (inm : Option Str) :
    ∃ r, run env (checkIfNoneMatch env bucket key (liveObject row) inm) w = (r, w) ∧
      (r = .ok () ↔ inm.all (fun inm => (liveEtag env row).all fun e => e.any fun e => !etagMatches inm e) = true) := by
  cases inm with
  | none => exact ⟨_, rfl, by simp⟩
  | some inm =>
    rw [checkIfNoneMatch, run_bind, run_existingMatches, Option.all_some]
    cases liveEtag env row with
    | none => exact ⟨_, rfl, by simp⟩
    | some e =>
      cases e with
      | none => exact ⟨_, rfl, by simp⟩
      | some e =>
        by_cases h : etagMatches inm e = true
        · exact ⟨.error (.error (preconditionFailed bucket key (str "If-None-Match failed"))), by simp [h, ensure],
            by simp [h]⟩
        · exact ⟨.ok (), by simp [h, ensure], by simp [h]⟩

/-- How far the clock goes while the check reads the row. -/
def checkReads (headers : HeaderMap) : Nat :=
  if headerString headers (str "if-match") = none ∧ headerString headers (str "if-none-match") = none then 0 else 2

theorem run_checkPutPreconditions (env : Env) (w : World) (bucket key : Str) (headers : HeaderMap) : ∃ r, run env (checkPutPreconditions env bucket key headers) w =
      (r, { w with clock := w.clock + checkReads headers }) ∧
    (r = .ok () ↔ accepts headers (liveEtag env (w.db.objects.get (ManifestKey.mk bucket key nullVersionId).encode)) = true) := by
  unfold checkPutPreconditions accepts checkReads
  simp only
  split
  · rename_i h
    rw [h.1, h.2]
    exact ⟨.ok (), rfl, by simp⟩
  · generalize hrow : w.db.objects.get (ManifestKey.mk bucket key nullVersionId).encode = row
    have hread : exec env (.metaOp (.getManifest ⟨bucket, key, nullVersionId⟩)) w = (row, { w with clock := w.clock + 2 }) := by
      rw [← hrow]
      rfl
    obtain ⟨r, hr, hmatch⟩ := run_checkIfMatch env bucket key { w with clock := w.clock + 2 } row
      (headerString headers (str "if-match"))
    obtain ⟨r', hr', hnone⟩ := run_checkIfNoneMatch env bucket key { w with clock := w.clock + 2 } row
      (headerString headers (str "if-none-match"))
    rw [Bool.and_eq_true, ← hmatch, ← hnone, run_op_bind env hread]
    show ∃ x, run env (checkIfMatch env bucket key (liveObject row) _ >>= fun _ => checkIfNoneMatch env bucket key (liveObject row) _)
      { w with clock := w.clock + 2 } = _ ∧ _
    rw [run_bind, hr]
    cases r with
    | error e => exact ⟨.error e, rfl, by simp⟩
    | ok u => exact ⟨r', hr', by simp⟩

/-- The check passes when the header values hold of the row stored under "null". -/
theorem check_passes_iff : (run env (checkPutPreconditions env bucket key headers) w).1 = .ok () ↔
    accepts headers (liveEtag env (w.db.objects.get (ManifestKey.mk bucket key nullVersionId).encode)) = true := by
  obtain ⟨r, hr, hpass⟩ := run_checkPutPreconditions env w bucket key headers
  rw [hr]
  exact hpass

/-! ## The current object -/

/-- The check decides by the object that GET without a version id answers. -/
def ChecksCurrent (env : Env) (w : World) (bucket key : Str) (headers : HeaderMap) : Prop :=
  (run env (checkPutPreconditions env bucket key headers) w).1 = .ok () ↔
    PutPasses env headers (handleGetLatestVersion w.db bucket key)

/-- The header values hold of one of the ETags and not of the other. -/
def TellApart (headers : HeaderMap) (e e' : Option (Option Str)) : Prop := accepts headers e ≠ accepts headers e'

/-- An ETag is visible ASCII. -/
theorem etag_visible {m : Manifest} {e : Str} (h : m.etag env.md5 env.debug = some e) : toStr e = some e := by
  have hhex : ∀ b : Bytes, ∀ c ∈ hexEncode b, 32 ≤ c ∧ c < 127 := by
    have hdigit : ∀ n < 16, 32 ≤ hexDigit n ∧ hexDigit n < 127 := by decide
    intro b c hc
    obtain ⟨x, -, hc⟩ := List.mem_flatMap.mp hc
    have := x.toNat_lt
    simp only [List.mem_cons, List.not_mem_nil, or_false] at hc
    rcases hc with rfl | rfl
    · exact hdigit _ (by omega)
    · exact hdigit _ (by omega)
  have hquote : ∀ s : Str, (∀ c ∈ s, 32 ≤ c ∧ c < 127) → toStr (quote s) = some (quote s) := by
    intro s hs
    refine if_pos (List.all_eq_true.mpr fun c hc => ?_)
    have hc : 32 ≤ c ∧ c < 127 := by
      rcases List.mem_cons.mp (show c ∈ 34 :: (s ++ [34]) from hc) with rfl | hc
      · decide
      · rcases List.mem_append.mp hc with hc | hc
        · exact hs c hc
        · rw [List.mem_singleton.mp hc]
          decide
    simp [hc.1, hc.2]
  unfold Manifest.etag at h
  split at h
  · split at h
    · cases h
    · obtain ⟨p, -, rfl⟩ := Option.map_eq_some_iff.mp h
      exact hquote _ (hhex _)
  · cases h
    refine hquote _ fun c hc => ?_
    rcases List.mem_append.mp hc with hc | hc
    · rcases List.mem_append.mp hc with hc | hc
      · exact hhex _ c hc
      · have hdash : ∀ c ∈ str "-", 32 ≤ c ∧ c < 127 := by decide
        exact hdash c hc
    · obtain ⟨h1, h2⟩ := (natStr_digits m.parts.length).2 c hc
      exact ⟨le_trans (by decide) h1, lt_of_le_of_lt h2 (by decide)⟩

theorem etagMatches_self {m : Manifest} {e : Str} (h : m.etag env.md5 env.debug = some e) : etagMatches e e = true := by
  obtain ⟨s, rfl, hcomma⟩ := etag_quoted h
  unfold etagMatches
  simp [trim_quote, splitByte_none (comma_quote hcomma)]

theorem accepts_ifMatch {e : Str} (h : toStr e = some e) (e' : Option (Option Str)) :
    accepts [(str "if-match", e)] e' = e'.any fun e' => e'.any fun e' => etagMatches e e' := by
  have hmatch : headerString [(str "if-match", e)] (str "if-match") = some e := by
    simp [headerString, HeaderMap.get, h]
  have hnone : headerString [(str "if-match", e)] (str "if-none-match") = none := by
    have hne : str "if-match" ≠ str "if-none-match" := by decide
    simp [headerString, HeaderMap.get, hne]
  simp [accepts, hmatch, hnone]

/-- Without an object, and only then, `If-None-Match: *` holds. -/
theorem accepts_star (e : Option (Option Str)) : accepts [(str "if-none-match", str "*")] e = e.isNone := by
  have hmatch : headerString [(str "if-none-match", str "*")] (str "if-match") = none := by rfl
  have hnone : headerString [(str "if-none-match", str "*")] (str "if-none-match") = some (str "*") := by rfl
  cases e with
  | none => simp [accepts, hmatch, hnone]
  | some e => cases e <;> simp [accepts, hmatch, hnone, etagMatches_star]

/-- Two different ETags are told apart by an `If-Match` with one of them, or by `If-None-Match: *`. -/
theorem exists_tellApart {row row' : Option Manifest} (h : liveEtag env row ≠ liveEtag env row') :
    ∃ headers, TellApart headers (liveEtag env row) (liveEtag env row') := by
  by_cases hstar : (liveEtag env row).isNone = (liveEtag env row').isNone
  · -- there are two objects, and one of them has an ETag the other does not have
    have hmatch : ∀ {row row' : Option Manifest} {e : Str}, liveEtag env row = some (some e) →
        liveEtag env row' ≠ some (some e) →
          accepts [(str "if-match", e)] (liveEtag env row) ≠ accepts [(str "if-match", e)] (liveEtag env row') := by
      intro row row' e he hne heq
      obtain ⟨m, hm, hetag⟩ := Option.map_eq_some_iff.mp he
      rw [accepts_ifMatch (etag_visible hetag), accepts_ifMatch (etag_visible hetag), he] at heq
      simp only [Option.any_some, etagMatches_self hetag] at heq
      obtain ⟨e', he', h'⟩ := (Option.any_eq_true _ _).mp heq.symm
      obtain ⟨e'', rfl, h'⟩ := (Option.any_eq_true _ _).mp h'
      exact hne (by rw [he', etagMatches_etag hetag h'])
    cases he : liveEtag env row with
    | none =>
      rw [he] at hstar h
      exact absurd (Option.isNone_iff_eq_none.mp hstar.symm).symm h
    | some e =>
      cases e with
      | some e => exact ⟨_, he ▸ hmatch he (he ▸ h.symm)⟩
      | none =>
        cases he' : liveEtag env row' with
        | none =>
          rw [he, he'] at hstar
          cases hstar
        | some e' =>
          cases e' with
          | none => exact absurd (he.trans he'.symm) h
          | some e' =>
            refine ⟨[(str "if-match", e')], fun heq => hmatch he' (fun e => h (e.trans he'.symm)) ?_⟩
            rw [he, he', heq]
  · refine ⟨[(str "if-none-match", str "*")], fun heq => hstar ?_⟩
    rwa [accepts_star, accepts_star] at heq

theorem put_preconditions_iff (env : Env) (w : World) (bucket key : Str) :
    (∀ headers, ChecksCurrent env w bucket key headers ↔
      ¬ TellApart headers (liveEtag env (w.db.objects.get (ManifestKey.mk bucket key nullVersionId).encode))
        (liveEtag env (handleGetLatestVersion w.db bucket key))) ∧
    ((∀ headers, ChecksCurrent env w bucket key headers) ↔
      liveEtag env (w.db.objects.get (ManifestKey.mk bucket key nullVersionId).encode) =
        liveEtag env (handleGetLatestVersion w.db bucket key)) := by
  have hone : ∀ headers, ChecksCurrent env w bucket key headers ↔
      ¬ TellApart headers (liveEtag env (w.db.objects.get (ManifestKey.mk bucket key nullVersionId).encode))
        (liveEtag env (handleGetLatestVersion w.db bucket key)) := by
    intro headers
    unfold ChecksCurrent TellApart
    rw [check_passes_iff, putPasses_iff, not_ne_iff]
    exact Bool.eq_iff_iff.symm
  refine ⟨hone, fun h => ?_, fun h headers => ?_⟩
  · by_contra hne
    obtain ⟨headers, ht⟩ := exists_tellApart hne
    exact (hone headers).mp (h headers) ht
  · rw [hone, h]
    exact fun ht => ht rfl

/-! ## A versioned bucket -/

/-- The object `a` under a version id of its own. -/
def versionedWorld : World :=
  served sampleEnv .empty
    [.createBucket (str "bkt") [],
      .putBucketVersioning (str "bkt")
        (str "<VersioningConfiguration><Status>Enabled</Status></VersioningConfiguration>"),
      .putObject (str "bkt") (str "k") [] (str "a")]

def onlyIfAbsent : HeaderMap := [(str "if-none-match", str "*")]

/-- The row under "null" is empty, so the PUT that is to create an object only where there is
    none stores a second version. -/
theorem a_version_is_overwritten :
    (run sampleEnv (putObject sampleEnv (str "bkt") (str "k") onlyIfAbsent (str "b")) versionedWorld).1.toOption.isSome = true ∧
      ¬ ChecksCurrent sampleEnv versionedWorld (str "bkt") (str "k") onlyIfAbsent := by
  refine ⟨by rfl, fun h => ?_⟩
  have hpass : (run sampleEnv (checkPutPreconditions sampleEnv (str "bkt") (str "k") onlyIfAbsent) versionedWorld).1 =
      .ok () := by rfl
  have hlatest : accepts onlyIfAbsent (liveEtag sampleEnv (handleGetLatestVersion versionedWorld.db (str "bkt") (str "k"))) =
      false := by rfl
  rw [putPasses_iff.mp (h.mp hpass)] at hlatest
  cases hlatest

end S3lite
