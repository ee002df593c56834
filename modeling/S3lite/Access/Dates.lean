/-
  S3lite.Access.Dates — GET and HEAD with `If-Modified-Since` or `If-Unmodified-Since`.

  `parse_http_date` asks for an `OffsetDateTime` in a format that has no offset, and the time
  crate gives none without one; the RFC 3339 it then tries starts with a digit, the server's own
  dates with a weekday.
  - `date_conditions_ignored`: so a request with the server's dates as its only conditions is
    answered as if it had none, and never with 304 or 412.
  - `a_fresh_copy_is_sent_again`: an object not modified since is sent once more.
-/
import S3lite.Safety.Pool
import S3lite.Server.Effects
import S3lite.Ranges.Header

namespace S3lite

open Handler

/-- What the time crate's documentation says of the two formats. -/
structure DocumentedDates (env : Env) : Prop where
  /-- No offset in the format, no `OffsetDateTime`. -/
  needs_offset : ∀ s, env.parseImfDate s = none
  /-- An RFC 3339 text starts with the year. -/
  starts_with_year : ∀ s t, env.parseRfc3339 s = some t → ∃ d rest, s = d :: rest ∧ 48 ≤ d ∧ d ≤ 57
  /-- An IMF-fixdate starts with the weekday. -/
  starts_with_weekday : ∀ t d rest, env.formatImfDate t = d :: rest → ¬ (48 ≤ d ∧ d ≤ 57)

/-- The only conditions are dates, as the server writes them. -/
structure OnlyDates (env : Env) (headers : HeaderMap) : Prop where
  noMatch : headers.get (str "if-match") = none
  noNoneMatch : headers.get (str "if-none-match") = none
  modified : ∀ v, headers.get (str "if-modified-since") = some v → ∃ t, v = formatHttpDate env t
  unmodified : ∀ v, headers.get (str "if-unmodified-since") = some v → ∃ t, v = formatHttpDate env t

/-- The status a result is answered with. -/
def answerStatus : Except Failure Response → Option Nat
  | .ok resp => some resp.status
  | .error (.error e) => some e.code.status
  | .error .panicked => none

/-! ## The dates -/

theorem parseHttpDate_format {env : Env} (henv : DocumentedDates env) (t : Time) :
    parseHttpDate env (formatHttpDate env t) = none := by
  have hrfc : env.parseRfc3339 (env.formatImfDate t) = none := by
    rw [Option.eq_none_iff_forall_ne_some]
    intro t' h
    obtain ⟨d, rest, hs, hd⟩ := henv.starts_with_year _ _ h
    exact henv.starts_with_weekday t d rest hs hd
  rw [parseHttpDate, formatHttpDate, henv.needs_offset, hrfc]
  rfl

theorem condition_none {env : Env} (henv : DocumentedDates env) {headers : HeaderMap} {name : Str}
    (h : ∀ v, headers.get name = some v → ∃ t, v = formatHttpDate env t) :
    (headerString headers name).bind (parseHttpDate env) = none := by
  rw [Option.bind_eq_none_iff]
  intro s hs
  obtain ⟨v, hv, hs⟩ := Option.bind_eq_some_iff.mp hs
  have hsv : s = v := by
    unfold toStr at hs
    split at hs
    · exact (Option.some.inj hs).symm
    · cases hs
  obtain ⟨t, rfl⟩ := h v hv
  rw [hsv]
  exact parseHttpDate_format henv t

/-- No condition of the request is evaluated. -/
theorem evaluatePreconditions_dates {env : Env} (henv : DocumentedDates env) {headers : HeaderMap} (h : OnlyDates env headers)
    (etag : Str) (lastModified : Time) (bucket key : Str) :
    evaluatePreconditions env headers etag lastModified bucket key = none := by
  unfold evaluatePreconditions
  dsimp only
  rw [headerString_none h.noMatch, headerString_none h.noNoneMatch, condition_none henv h.modified,
    condition_none henv h.unmodified]
  rfl

/-! ## The answer -/

/-- The result is answered with neither status of a condition. -/
def Unconditional (r : Except Failure Response) : Prop := answerStatus r ≠ some 304 ∧ answerStatus r ≠ some 412

theorem unconditional_ok {resp : Response} (h : resp.status = 200 ∨ resp.status = 206) : Unconditional (.ok resp) := by
  have hstatus : answerStatus (.ok resp) = some resp.status := rfl
  rw [Unconditional, hstatus]
  rcases h with h | h
  · rw [h]
    decide
  · rw [h]
    decide

theorem unconditional_error {e : S3Error} (code : S3ErrorCode) (he : e.code = code) (h : code ≠ .notModified)
    (h' : code ≠ .preconditionFailed) : Unconditional (.error (.error e)) := by
  have hstatus : answerStatus (.error (.error e)) = some e.code.status := rfl
  rw [Unconditional, hstatus, he]
  revert h h'
  cases code <;> decide

theorem unconditional_panicked : Unconditional (.error .panicked) := by
  have hstatus : answerStatus (.error .panicked) = none := rfl
  rw [Unconditional, hstatus]
  decide

section
variable {env : Env} {w : World} {Q : Bytes → World → Prop}

theorem ensures_readParts_unconditional {parts : List PartRef} (hq : ∀ b, Q b w) :
    Ensures env (readParts parts) w Q fun e _ => Unconditional (.error e) := by
  induction parts generalizing Q with
  | nil => exact hq []
  | cons p parts ih =>
    simp only [readParts, ensures_bind, ensures_op, ensures_orFail]
    exact ⟨fun data _ => ih fun rest => hq _, fun _ => unconditional_error .internalError rfl (by decide) (by decide)⟩

theorem ensures_readBody_unconditional {m : Manifest} {bodyOnlyHeaders : Bool} {range : Option (Nat × Nat)} (hq : ∀ b, Q b w) :
    Ensures env (readBody m bodyOnlyHeaders range) w Q fun e _ => Unconditional (.error e) := by
  unfold readBody
  split
  · exact hq []
  simp only [ensures_bind]
  refine ensures_readParts_unconditional fun buf => ?_
  split
  · unfold sliceInclusive
    split
    · exact hq _
    · exact unconditional_panicked
  · exact hq _

theorem ensures_findVersion_unconditional {bucket key : Str} {versionId : Option Str} {Q : Manifest → World → Prop}
    (hq : ∀ m w', Q m w') : Ensures env (findVersion bucket key versionId) w Q fun e _ => Unconditional (.error e) := by
  have hmissing : Unconditional (.error (.error (noSuchKey bucket key))) :=
    unconditional_error .noSuchKey rfl (by decide) (by decide)
  unfold findVersion
  split
  · simp only [ensures_bind, ensures_op, ensures_orFail]
    exact ⟨fun m _ => hq m _, fun _ => hmissing⟩
  · simp only [ensures_bind, ensures_op, ensures_orFail]
    exact ⟨fun m _ => hq m _, fun _ => hmissing⟩

theorem ensures_etagOf_unconditional {m : Manifest} {Q : Str → World → Prop} (hq : ∀ etag, Q etag w) :
    Ensures env (etagOf env m) w Q fun e _ => Unconditional (.error e) := by
  unfold etagOf
  split
  · exact hq _
  · exact unconditional_panicked

end

theorem date_conditions_ignored {env : Env} (henv : DocumentedDates env) {headers : HeaderMap} (h : OnlyDates env headers)
    (w : World) (bucket key : Str) (versionId : Option Str) (bodyOnlyHeaders : Bool) :
    Unconditional (run env (getOrHeadObject env bucket key versionId headers bodyOnlyHeaders) w).1 := by
  have hanswers : Ensures env (getOrHeadObject env bucket key versionId headers bodyOnlyHeaders) w
      (fun resp _ => Unconditional (.ok resp)) fun e _ => Unconditional (.error e) := by
    simp only [getOrHeadObject, ensures_bind, ensures_requireBucket, ensures_ensure]
    refine ⟨fun cfg _ => ?_, fun _ => unconditional_error .noSuchBucket rfl (by decide) (by decide)⟩
    refine ensures_findVersion_unconditional fun m w' => ⟨fun _ => ?_, fun _ => ?_⟩
    rotate_left
    · split
      · exact unconditional_error .noSuchKey rfl (by decide) (by decide)
      · exact unconditional_error .invalidRequest rfl (by decide) (by decide)
    refine ensures_etagOf_unconditional fun etag => ?_
    rw [evaluatePreconditions_dates henv h]
    simp only [ensures_bind, ensures_ofExcept]
    refine ⟨fun range _ => ?_, fun e he => ?_⟩
    · refine ensures_readBody_unconditional fun body => unconditional_ok ?_
      rw [(objectHeaders_fields ..).1]
      cases range with
      | none => exact Or.inl rfl
      | some r => exact Or.inr rfl
    · exact unconditional_error .invalidArgument (refusesAs_parseRangeHeader _ _ e he) (by decide) (by decide)
  unfold Ensures at hanswers
  generalize run env (getOrHeadObject env bucket key versionId headers bodyOnlyHeaders) w = r at hanswers ⊢
  obtain ⟨r, w'⟩ := r
  cases r with
  | ok resp => exact hanswers
  | error e => exact hanswers

/-! ## An object PUT in one second -/

def putDate : Str := str "Sun, 06 Nov 1994 08:49:37 GMT"

/-- A clock in that second, which is written as this date. -/
def datesEnv : Env :=
  { sampleEnv with
    now := fun n => 784111777123456789 + n
    formatImfDate := fun _ => putDate }

theorem datesEnv_documented : DocumentedDates datesEnv where
  needs_offset _ := rfl
  starts_with_year _ _ h := by cases h
  starts_with_weekday t d rest h := by
    have hd : d = 83 := (List.cons.inj h).1.symm
    rw [hd]
    decide

/-- A bucket with one object. -/
def datedWorld : World :=
  (run datesEnv (putObject datesEnv (str "bucket") (str "k") [] (str "a"))
    (run datesEnv (createBucket datesEnv (str "bucket") []) World.empty).2).2

theorem date_conditions_ignored_put : OnlyDates datesEnv [(str "if-modified-since", putDate)] ∧
    Unconditional (run datesEnv (getOrHeadObject datesEnv (str "bucket") (str "k") none [(str "if-modified-since", putDate)] false)
      datedWorld).1 := by
  have honly : OnlyDates datesEnv [(str "if-modified-since", putDate)] := by
    refine ⟨by rfl, by rfl, fun v hv => ⟨0, ?_⟩, fun v hv => by cases hv⟩
    exact (Option.some.inj hv).symm
  exact ⟨honly, date_conditions_ignored datesEnv_documented honly _ _ _ _ _⟩

theorem a_fresh_copy_is_sent_again : ¬ ∀ env : Env, DocumentedDates env → ∀ (w : World) (bucket key : Str) (m : Manifest),
    (w.db.buckets.get bucket).isSome → handleGetLatestVersion w.db bucket key = some m → m.kind = .object →
      answerStatus (run env (getOrHeadObject env bucket key none
        [(str "if-modified-since", formatHttpDate env m.lastModified)] false) w).1 = some 304 := by
  intro hall
  have hfound : ((handleGetLatestVersion datedWorld.db (str "bucket") (str "k")).any fun m => m.kind == .object) = true := by rfl
  obtain ⟨m, hm, hkind⟩ := (Option.any_eq_true _ _).mp hfound
  have h := hall datesEnv datesEnv_documented datedWorld (str "bucket") (str "k") m (by rfl) hm (by simpa using hkind)
  have hsent : answerStatus (run datesEnv (getOrHeadObject datesEnv (str "bucket") (str "k") none
      [(str "if-modified-since", putDate)] false) datedWorld).1 = some 200 := by rfl
  have hdate : formatHttpDate datesEnv m.lastModified = putDate := rfl
  rw [hdate, hsent] at h
  cases h

end S3lite
