/-
  S3lite.Safety.Leftover — what a refused write leaves behind.

  PUT, part upload and part copy store the bytes before they have made all their checks. A
  request refused after that point leaves a file under the hash, unless one was there; it
  has no row in PARTS, and the sweeps go by the rows.
  - `Request.leaves`: the request gets to its write with new bytes, and is refused then.
  - `ends_putObject`, `ends_uploadPart`, `ends_uploadPartCopy`: how the three end.
  - `refused_unchanged_iff`: a refused request changes nothing, exactly if it leaves no file
    (`a_refused_put_leaves_its_bytes`).
-/
import S3lite.Safety.Current
import S3lite.Server.Effects

namespace S3lite

open Handler

/-- A request that is refused changes neither the rows nor the files. -/
def RefusedUnchanged (env : Env) (x : Handler Response) (w : World) : Prop :=
  ∀ e w', run env x w = (.error (.error e), w') → w'.db = w.db ∧ w'.files = w.files

/-- How a failed request ends: `leaves` says whether its bytes are left in a new file. -/
def FailsIn (env : Env) (w : World) (leaves : Prop) : Failure → World → Prop
  | .panicked, _ => ¬ leaves
  | .error _, w' => w'.db = w.db ∧
      (leaves ∧ (∃ data, w.files.get (env.blake3 data) = none ∧ w'.files = w.files.insert (env.blake3 data) data) ∨
        ¬ leaves ∧ w'.files = w.files)

/-- Bytes are left by failed requests only. -/
def Ends (env : Env) (x : Handler Response) (w : World) (leaves : Prop) : Prop :=
  Ensures env x w (fun _ _ => ¬ leaves) (FailsIn env w leaves)

section
variable {env : Env} {w : World}

theorem Ends.unchanged_iff {x : Handler Response} {leaves : Prop} (h : Ends env x w leaves) :
    RefusedUnchanged env x w ↔ ¬ leaves := by
  unfold Ends Ensures at h
  unfold RefusedUnchanged
  rcases hrun : run env x w with ⟨r, w'⟩
  rw [hrun] at h
  cases r with
  | ok resp => exact iff_of_true (fun _ _ he => by cases he) h
  | error e =>
    cases e with
    | panicked => exact iff_of_true (fun _ _ he => by cases he) h
    | error e =>
      obtain ⟨hdb, hfiles⟩ := h
      rcases hfiles with ⟨hleaves, data, hnew, hfiles⟩ | ⟨hno, hfiles⟩
      · refine iff_of_false (fun hall => ?_) (not_not.mpr hleaves)
        have hsame := (hall e w' rfl).2
        rw [hfiles] at hsame
        have hget := congrArg (fun t => t.get (env.blake3 data)) hsame
        simp only [Table.get_insert_self, hnew] at hget
        cases hget
      · refine iff_of_true (fun e' w'' he => ?_) hno
        cases he
        exact ⟨hdb, hfiles⟩

/-! ## What the requests are refused for -/

/-- The row of the part is marked for collection. -/
def MarkedPart (db : Db) (hash : Hash) : Prop := ∃ e, db.parts.get hash = some e ∧ e.state = .gcPending

/-- `append_part` fails: there is no row under the key, or the part's is marked. -/
def AppendRefused (db : Db) (key : ManifestKey) (hash : Hash) : Prop := db.objects.get key.encode = none ∨ MarkedPart db hash

/-! ## Writing the bytes -/

/-- The files after the write: a file more, or the same. -/
theorem writePart_files (files : Table Hash Bytes) (data : Bytes) : (writePart env files data).2 =
    if files.get (env.blake3 data) = none then files.insert (env.blake3 data) data else files := by
  unfold writePart
  cases h : files.get (env.blake3 data) <;> simp [h]

/-- A refusal after the write. -/
theorem fails_after_write {leaves : Prop} {data : Bytes} {w' : World} (hdb : w'.db = w.db)
    (hfiles : w'.files = (writePart env w.files data).2) (h : leaves ↔ w.files.get (env.blake3 data) = none) (e : S3Error) :
    FailsIn env w leaves (.error e) w' := by
  rw [writePart_files] at hfiles
  refine ⟨hdb, ?_⟩
  by_cases hnew : w.files.get (env.blake3 data) = none
  · rw [if_pos hnew] at hfiles
    exact Or.inl ⟨h.mpr hnew, data, hnew, hfiles⟩
  · rw [if_neg hnew] at hfiles
    exact Or.inr ⟨fun hl => hnew (h.mp hl), hfiles⟩

theorem later_for (n : Nat) : Later w { w with clock := w.clock + n } := ⟨rfl, rfl, rfl, Nat.le_add_right ..⟩

/-- A failure before it. -/
theorem fails_before_write {leaves : Prop} {w' : World} (h : Later w w') (hno : ¬ leaves) (e : Failure) :
    FailsIn env w leaves e w' := by
  cases e with
  | panicked => exact hno
  | error e => exact ⟨h.db, Or.inr ⟨hno, h.files⟩⟩

/-! ## PUT -/

/-- What a PUT checks before it stores the bytes. -/
structure PutChecked (env : Env) (w : World) (bucket key : Str) (headers : HeaderMap) (body : Bytes) : Prop where
  found : (w.db.buckets.get bucket).isSome
  conditions : accepts headers (liveEtag env (w.db.objects.get (ManifestKey.mk bucket key nullVersionId).encode)) = true
  md5 : ∃ expected, parseContentMd5 env .invalidRequest headers = .ok expected ∧ (expected.all fun md5 => md5 = env.md5 body) = true
  checksum : ∃ given, Checksum.parseRequestChecksum env headers = .ok given ∧ verifyGiven env body given = .ok ()

/-- The end of the bucket's default retention, where it applies, is a time. -/
def LockFits (cfg : Option ObjectLockConfig) (headerLock : Option ObjectLock) (now : Time) : Prop :=
  headerLock = none → ∀ d, (cfg.bind fun c => if c.enabled then c.defaultRetention else none) = some d →
    ∀ days, d.length = some days → now + days * nanosPerDay ≤ maxTime

/-- What it is refused for afterwards. -/
def PutRefused (env : Env) (w : World) (bucket : Str) (headers : HeaderMap) (body : Bytes) : Prop :=
  (∃ e, parseXAmzTagging headers = .error e) ∨ (∃ e, parseLockHeaders env headers = .error e) ∨
    MarkedPart w.db (env.blake3 body) ∧ ∃ cfg lock, w.db.buckets.get bucket = some cfg ∧ parseLockHeaders env headers = .ok lock ∧
      LockFits cfg.objectLock lock (env.now (w.clock + 2 + checkReads headers))

def PutLeaves (env : Env) (w : World) (bucket key : Str) (headers : HeaderMap) (body : Bytes) : Prop :=
  PutChecked env w bucket key headers body ∧ w.files.get (env.blake3 body) = none ∧ PutRefused env w bucket headers body

theorem ensures_checkPutPreconditions {bucket key : Str} {headers : HeaderMap} {Q : Unit → World → Prop}
    {E : Failure → World → Prop}
    (hq : accepts headers (liveEtag env (w.db.objects.get (ManifestKey.mk bucket key nullVersionId).encode)) = true →
      Q () { w with clock := w.clock + checkReads headers })
    (he : ¬ accepts headers (liveEtag env (w.db.objects.get (ManifestKey.mk bucket key nullVersionId).encode)) = true →
      ∀ e, E e { w with clock := w.clock + checkReads headers }) :
    Ensures env (checkPutPreconditions env bucket key headers) w Q E := by
  obtain ⟨r, hr, hpass⟩ := run_checkPutPreconditions env w bucket key headers
  unfold Ensures
  rw [hr]
  cases r with
  | ok u => exact hq (hpass.mp rfl)
  | error e => exact he (fun h => by cases hpass.mpr h) e

theorem ensures_lockForPut_fits {cfg : Option ObjectLockConfig} {headerLock : Option ObjectLock}
    {Q : Option ObjectLock → World → Prop} {E : Failure → World → Prop}
    (hq : LockFits cfg headerLock (env.now w.clock) → ∀ lock w', Later w w' → Q lock w')
    (he : ¬ LockFits cfg headerLock (env.now w.clock) → ∀ w', Later w w' → E .panicked w') :
    Ensures env (lockForPut cfg headerLock) w Q E := by
  cases headerLock with
  | some l => exact hq (fun h => by cases h) _ _ (.refl w)
  | none =>
    show Ensures env (defaultLockForBucket cfg) w Q E
    unfold defaultLockForBucket
    cases hd : cfg.bind fun c => if c.enabled then c.defaultRetention else none with
    | none => exact hq (fun _ d h => by rw [hd] at h; cases h) _ _ (.refl w)
    | some d =>
      simp only [ensures_bind, ensures_op]
      cases hlen : d.length with
      | none =>
        refine hq (fun _ d' h days hdays => ?_) _ _ later_now
        rw [hd] at h
        cases h
        rw [hlen] at hdays
        cases hdays
      | some days =>
        simp only [ensures_bind]
        unfold addDays
        simp only
        rw [show (exec env .nowUtc w).1 = env.now w.clock from rfl]
        by_cases hfit : env.now w.clock + days * nanosPerDay ≤ maxTime
        · have hfits : LockFits cfg none (env.now w.clock) := by
            intro _ d' h days' hdays
            rw [hd] at h
            cases h
            rw [hlen] at hdays
            cases hdays
            exact hfit
          rw [if_pos hfit]
          exact hq hfits _ _ later_now
        · rw [if_neg hfit]
          exact he (fun h => hfit (h rfl d hd days hlen)) _ later_now

/-- One part has an ETag. -/
theorem ensures_etagOf_single {m : Manifest} {p : PartRef} (hmode : m.uploadMode = .singlePut) (hparts : m.parts = [p])
    {Q : Str → World → Prop} {E : Failure → World → Prop} (hq : ∀ etag, Q etag w) : Ensures env (etagOf env m) w Q E := by
  unfold etagOf Manifest.etag
  rw [hmode, hparts]
  simp only [List.length_singleton, bne_self_eq_false, Bool.and_false, Bool.false_eq_true, if_false, List.head?_cons,
    Option.map_some]
  exact hq _

theorem ensures_putMarked {m : Manifest} {p : PartRef} (hparts : m.parts = [p]) {Q : World → Prop} {E : Failure → World → Prop}
    (hq : ¬ MarkedPart w.db p.hash → ∀ w', Q w')
    (he : MarkedPart w.db p.hash → ∀ e, E (.error e) { w with clock := w.clock + 2 }) :
    Ensures env (op (.metaOp (.putManifest m))) w (fun r w => Ensures env (mapErr mapMetaErr r) w
      (fun effect w => Ensures env (gcFreedParts effect.freedParts) w (fun _ w => Q w) E) E) E := by
  have hiff : (∃ e, handlePutManifest w.db (env.now w.clock) m = .error e) ↔ MarkedPart w.db p.hash := by
    rw [put_error_iff, hparts]
    simp only [List.mem_singleton, exists_eq_left]
    exact Iff.rfl
  simp only [ensures_op, ensures_mapErr]
  refine ⟨fun effect heffect => ?_, fun e hfail => ?_⟩
  · have hput := commit_ok_inv heffect
    have hunmarked : ¬ MarkedPart w.db p.hash := by
      intro hmarked
      obtain ⟨e, herror⟩ := hiff.mpr hmarked
      rw [hput] at herror
      cases herror
    exact (ensures_gcFreedParts effect.freedParts).mono (fun _ w' _ => hq hunmarked w') fun _ _ h => h
  · obtain ⟨hput, hdb⟩ := commit_error_inv hfail
    have h := he (hiff.mp ⟨e, hput⟩) (mapMetaErr e)
    rw [← hdb] at h
    exact h

theorem ends_putObject (bucket key : Str) (headers : HeaderMap) (body : Bytes) :
    Ends env (putObject env bucket key headers body) w (PutLeaves env w bucket key headers body) := by
  have hearly : ∀ {n : Nat}, ¬ PutChecked env w bucket key headers body → ∀ e : Failure,
      FailsIn env w (PutLeaves env w bucket key headers body) e { w with clock := w.clock + n } := fun hno e =>
    fails_before_write (later_for _) (fun h => hno h.1) e
  unfold Ends putObject
  simp only [ensures_bind, ensures_requireBucket]
  refine ⟨fun cfg hcfg => ?_, fun hnone => hearly (fun h => ?_) _⟩
  rotate_left
  · have := h.found
    rw [hnone] at this
    cases this
  refine ensures_checkPutPreconditions (fun hpass => ?_) fun hfail e => by
    rw [Nat.add_assoc]
    exact hearly (fun h => hfail h.conditions) e
  rw [Nat.add_assoc, ensures_ofExcept]
  refine ⟨fun expected hexpected => ?_, fun e he => hearly (fun h => ?_) _⟩
  rotate_left
  · obtain ⟨expected', hexpected', -⟩ := h.md5
    rw [he] at hexpected'
    cases hexpected'
  rw [ensures_ensure]
  refine ⟨fun hmd5 => ?_, fun hmd5 => hearly (fun h => ?_) _⟩
  rotate_left
  · obtain ⟨expected', hexpected', hall⟩ := h.md5
    rw [hexpected] at hexpected'
    cases hexpected'
    exact hmd5 hall
  rw [ensures_ofExcept_mapError]
  refine ⟨fun given hgiven => ?_, fun e he => hearly (fun h => ?_) _⟩
  rotate_left
  · obtain ⟨given, hgiven, -⟩ := h.checksum
    rw [he] at hgiven
    cases hgiven
  rw [ensures_ofExcept_mapError]
  refine ⟨fun _ hverify => ?_, fun e he => hearly (fun h => ?_) _⟩
  rotate_left
  · obtain ⟨given', hgiven', hverify⟩ := h.checksum
    rw [hgiven] at hgiven'
    cases hgiven'
    rw [he] at hverify
    cases hverify
  have hchecked : PutChecked env w bucket key headers body :=
    ⟨by rw [hcfg]; rfl, hpass, ⟨expected, hexpected, hmd5⟩, ⟨given, hgiven, hverify⟩⟩
  have hleaves : PutRefused env w bucket headers body → (PutLeaves env w bucket key headers body ↔
      w.files.get (env.blake3 body) = none) := fun h => ⟨fun hl => hl.2.1, fun hnew => ⟨hchecked, hnew, h⟩⟩
  rw [ensures_op, ensures_nextVersionId]
  -- the bytes are stored
  obtain ⟨w2, hw2⟩ : ∃ w2, w2 = ({ (exec env (.writeBytes body) { w with clock := w.clock + (2 + checkReads headers) }).2 with
      uuids := w.uuids + drawsFor cfg.versioning } : World) := ⟨_, rfl⟩
  have hdb : w2.db = w.db := by rw [hw2]; rfl
  have hfiles : w2.files = (writePart env w.files body).2 := by rw [hw2]; rfl
  have hclock : w2.clock = w.clock + 2 + checkReads headers := by rw [hw2, Nat.add_assoc]; rfl
  have hlate : ∀ {w3 : World}, Later w2 w3 → PutRefused env w bucket headers body → ∀ e : S3Error,
      FailsIn env w (PutLeaves env w bucket key headers body) (.error e) w3 := fun h hr e =>
    fails_after_write (h.db.trans hdb) (h.files.trans hfiles) (hleaves hr) e
  have hresult : (exec env (.writeBytes body) { w with clock := w.clock + (2 + checkReads headers) }).1 = writeResult env body := rfl
  rw [hresult, show (exec env (.writeBytes body) { w with clock := w.clock + (2 + checkReads headers) }).2.uuids = w.uuids from rfl,
    ← hw2, ensures_ofExcept_mapError]
  refine ⟨fun tags htags => ?_, fun e he => hlate (.refl w2) (Or.inl ⟨e, he⟩) _⟩
  rw [ensures_ofExcept_mapError]
  refine ⟨fun headerLock hlock => ?_, fun e he => hlate (.refl w2) (Or.inr (Or.inl ⟨e, he⟩)) _⟩
  -- it is refused for a marked part only
  have hrefused : PutRefused env w bucket headers body ↔ MarkedPart w.db (env.blake3 body) ∧
      LockFits cfg.objectLock headerLock (env.now w2.clock) := by
    rw [hclock]
    constructor
    · intro h
      rcases h with ⟨e, he⟩ | ⟨e, he⟩ | ⟨hmarked, cfg', lock, hcfg', hlock', hfits⟩
      · rw [htags] at he
        cases he
      · rw [hlock] at he
        cases he
      · rw [hcfg] at hcfg'
        cases hcfg'
        rw [hlock] at hlock'
        cases hlock'
        exact ⟨hmarked, hfits⟩
    · intro h
      exact Or.inr (Or.inr ⟨h.1, cfg, headerLock, hcfg, hlock, h.2⟩)
  refine ensures_lockForPut_fits (fun hfits lock w3 h3 => ?_) fun hno w3 h3 => fun hl => hno (hrefused.mp hl.2.2).2
  rw [ensures_op]
  have h4 : Later w2 (exec env .nowUtc w3).2 := h3.trans later_now
  refine ensures_etagOf_single rfl rfl fun etag => ?_
  refine ensures_putMarked rfl (fun hunmarked _ hl => ?_) fun hmarked e => ?_
  · rw [h4.db, hdb] at hunmarked
    exact hunmarked (hrefused.mp hl.2.2).1
  · rw [h4.db, hdb] at hmarked
    exact hlate (h4.trans (later_for 2)) (hrefused.mpr ⟨hmarked, hfits⟩) e

/-! ## Part uploads -/

theorem ensures_appendMarked {key : ManifestKey} {part : PartRef} {f : MetaError → S3Error} {Q : World → Prop}
    {E : Failure → World → Prop} (hq : ¬ AppendRefused w.db key part.hash → ∀ w', Q w')
    (he : AppendRefused w.db key part.hash → ∀ e, E (.error e) { w with clock := w.clock + 2 }) :
    Ensures env (op (.metaOp (.appendPart key part))) w (fun r w => Ensures env (mapErr f r) w
      (fun effect w => Ensures env (gcFreedParts effect.freedParts) w (fun _ w => Q w) E) E) E := by
  have hiff : (∃ e, handleAppendPart w.db (env.now w.clock) (env.now (w.clock + 1)) key part = .error e) ↔
      AppendRefused w.db key part.hash := append_error_iff
  simp only [ensures_op, ensures_mapErr]
  refine ⟨fun effect heffect => ?_, fun e hfail => ?_⟩
  · have happend := commit_ok_inv heffect
    have hkept : ¬ AppendRefused w.db key part.hash := by
      intro hrefused
      obtain ⟨e, herror⟩ := hiff.mpr hrefused
      rw [happend] at herror
      cases herror
    exact (ensures_gcFreedParts effect.freedParts).mono (fun _ w' _ => hq hkept w') fun _ _ h => h
  · obtain ⟨happend, hdb⟩ := commit_error_inv hfail
    have h := he (hiff.mp ⟨e, happend⟩) (f e)
    rw [← hdb] at h
    exact h

/-- A part upload gets to its write with new bytes, and has no upload to go to. -/
structure UploadLeaves (env : Env) (w : World) (key : ManifestKey) (partNumber : Nat) (headers : HeaderMap) (body : Bytes) :
    Prop where
  number : 0 < partNumber ∧ partNumber ≤ 10000
  md5 : ∃ expected, parseContentMd5 env .invalidArgument headers = .ok expected ∧ (expected.all fun md5 => md5 = env.md5 body) = true
  new : w.files.get (env.blake3 body) = none
  refused : AppendRefused w.db key (env.blake3 body)

theorem ends_uploadPart (bucket key uploadId : Str) (partNumber : Nat) (headers : HeaderMap) (body : Bytes) :
    Ends env (uploadPart env bucket key uploadId partNumber headers body) w
      (UploadLeaves env w ⟨bucket, key, uploadId⟩ partNumber headers body) := by
  have hearly : ¬ UploadLeaves env w ⟨bucket, key, uploadId⟩ partNumber headers body → ∀ e : Failure,
      FailsIn env w (UploadLeaves env w ⟨bucket, key, uploadId⟩ partNumber headers body) e w := fun hno e =>
    fails_before_write (.refl w) hno e
  unfold Ends uploadPart
  simp only [ensures_bind]
  rw [ensures_ensure]
  refine ⟨fun hnumber => ?_, fun hno => hearly (fun h => hno h.number) _⟩
  rw [ensures_ofExcept]
  refine ⟨fun expected hexpected => ?_, fun e he => hearly (fun h => ?_) _⟩
  rotate_left
  · obtain ⟨expected', hexpected', -⟩ := h.md5
    rw [he] at hexpected'
    cases hexpected'
  rw [ensures_ensure]
  refine ⟨fun hmd5 => ?_, fun hmd5 => hearly (fun h => ?_) _⟩
  rotate_left
  · obtain ⟨expected', hexpected', hall⟩ := h.md5
    rw [hexpected] at hexpected'
    cases hexpected'
    exact hmd5 hall
  rw [ensures_op]
  refine ensures_appendMarked (fun hkept _ hl => hkept hl.refused) fun hrefused e => ?_
  have hleaves : UploadLeaves env w ⟨bucket, key, uploadId⟩ partNumber headers body ↔ w.files.get (env.blake3 body) = none :=
    ⟨fun h => h.new, fun hnew => ⟨hnumber, ⟨expected, hexpected, hmd5⟩, hnew, hrefused⟩⟩
  refine fails_after_write ?_ ?_ hleaves e
  · rfl
  · rfl

/-! ## Part copies -/

/-- The last byte of a part, if the server goes on. -/
def lastByte (debug : Bool) (cursor size : Nat) : Option Nat :=
  if 0 < cursor + size ∧ cursor + size < 2 ^ 64 then some (cursor + size - 1)
  else if debug then none
  else some ((cursor + size + (2 ^ 64 - 1)) % 2 ^ 64)

def sliceOf (buf : Bytes) (start end_ : Nat) : Option Bytes :=
  if start ≤ end_ ∧ end_ ≤ buf.length then some ((buf.take end_).drop start) else none

/-- What the loop over the parts of a source copies, if it gets to the end. -/
def copiedBytes (env : Env) (files : Table Hash Bytes) (first last : Nat) (cursor : Nat) : List PartRef → Option Bytes
  | [] => some []
  | p :: ps =>
    (lastByte env.debug cursor p.size).bind fun end_ =>
      let next := (cursor + p.size) % 2 ^ 64
      if end_ < first ∨ last < cursor then copiedBytes env files first last next ps
      else
        (files.get p.hash).bind fun buf =>
          (sliceOf buf (if cursor < first then first - cursor else 0) (if last < end_ then last - cursor + 1 else p.size)).bind
            fun chunk => (copiedBytes env files first last next ps).map (chunk ++ ·)

theorem ensures_readRange {first last cursor : Nat} {ps : List PartRef} {Q : Bytes → World → Prop} {E : Failure → World → Prop}
    (hq : ∀ b, copiedBytes env w.files first last cursor ps = some b → Q b w)
    (he : copiedBytes env w.files first last cursor ps = none → ∀ e, E e w) :
    Ensures env (readRange env first last cursor ps) w Q E := by
  induction ps generalizing cursor Q with
  | nil => exact hq [] rfl
  | cons p ps ih =>
    have hend : ∀ {Q' : Nat → World → Prop}, (∀ n, lastByte env.debug cursor p.size = some n → Q' n w) →
        (lastByte env.debug cursor p.size = none → E .panicked w) → Ensures env (partEnd env cursor p.size) w Q' E := by
      intro Q' hq' he'
      unfold partEnd
      unfold lastByte at hq' he'
      split
      · rename_i h
        exact hq' _ (if_pos h)
      · rename_i h
        rw [if_neg h] at hq' he'
        split
        · rename_i hd
          exact he' (if_pos hd)
        · rename_i hd
          exact hq' _ (if_neg hd)
    unfold copiedBytes at hq he
    simp only at hq he
    unfold readRange
    simp only [ensures_bind]
    refine hend (fun n hn => ?_) fun hn => he (by rw [hn]; rfl) _
    rw [hn, Option.bind_some] at hq he
    by_cases hskip : n < first ∨ last < cursor
    · rw [if_pos hskip] at hq he ⊢
      exact ih hq he
    rw [if_neg hskip] at hq he ⊢
    simp only [ensures_bind, ensures_op, ensures_orFail]
    refine ⟨fun buf hbuf => ?_, fun hbuf => ?_⟩
    · have hbuf : w.files.get p.hash = some buf := hbuf
      rw [hbuf, Option.bind_some] at hq he
      generalize (if cursor < first then first - cursor else 0) = start at hq he ⊢
      generalize (if last < n then last - cursor + 1 else p.size) = end_ at hq he ⊢
      unfold sliceExclusive
      unfold sliceOf at hq he
      by_cases hslice : start ≤ end_ ∧ end_ ≤ buf.length
      · rw [if_pos hslice, Option.bind_some] at hq he
        rw [if_pos hslice, ensures_ok]
        refine ih (fun rest hrest => ?_) fun hrest => he (by rw [hrest]; rfl)
        exact hq _ (by rw [hrest]; rfl)
      · rw [if_neg hslice] at hq he
        rw [if_neg hslice, ensures_panicked]
        exact he rfl _
    · have hbuf : w.files.get p.hash = none := hbuf
      exact he (by rw [hbuf]; rfl) _

/-- A part copy gets to its write with new bytes, and has no upload to go to. -/
structure CopyLeaves (env : Env) (w : World) (key : ManifestKey) (partNumber : Nat) (source : CopySource) (headers : HeaderMap)
    (src : Manifest) (range : Nat × Nat) (bytes : Bytes) : Prop where
  number : 0 < partNumber ∧ partNumber ≤ 10000
  found : IsSource w.db source src
  inside : copySourceRange key.bucket key.key headers src.size = .ok range
  read : copiedBytes env w.files range.1 range.2 0 src.parts = some bytes
  new : w.files.get (env.blake3 bytes) = none
  refused : AppendRefused w.db key (env.blake3 bytes)

theorem ends_uploadPartCopy (bucket key uploadId : Str) (partNumber : Nat) (source : CopySource) (headers : HeaderMap) :
    Ends env (uploadPartCopy env bucket key uploadId partNumber source headers) w
      (∃ src range bytes, CopyLeaves env w ⟨bucket, key, uploadId⟩ partNumber source headers src range bytes) := by
  generalize hleaves : (∃ src range bytes, CopyLeaves env w ⟨bucket, key, uploadId⟩ partNumber source headers src range bytes) = leaves
  -- what is left, is left of the one source, range and bytes
  have hearly : ∀ {n : Nat}, (∀ src range bytes, ¬ CopyLeaves env w ⟨bucket, key, uploadId⟩ partNumber source headers src range bytes) →
      ∀ e : Failure, FailsIn env w leaves e { w with clock := w.clock + n } := by
    intro n hno e
    refine fails_before_write (later_for n) (fun hl => ?_) e
    rw [← hleaves] at hl
    obtain ⟨src, range, bytes, h⟩ := hl
    exact hno src range bytes h
  unfold Ends uploadPartCopy
  simp only [ensures_bind]
  rw [ensures_ensure]
  refine ⟨fun hnumber => ?_, fun hno => hearly (n := 0) (fun _ _ _ h => hno h.number) _⟩
  refine ensures_resolveSource (fun src hsrc => ?_) fun hno e => hearly (fun src _ _ h => hno src h.found) e
  have hunique : ∀ src', IsSource w.db source src' → src' = src := by
    intro src' hsrc'
    have h := hsrc'.1
    rw [hsrc.1] at h
    exact (Option.some.inj h).symm
  rw [ensures_ofExcept]
  refine ⟨fun range hrange => ?_, fun e he => hearly (fun src' range _ h => ?_) _⟩
  rotate_left
  · have hinside := h.inside
    rw [hunique src' h.found] at hinside
    rw [he] at hinside
    cases hinside
  refine ensures_readRange (fun bytes hbytes => ?_) fun hnone e => hearly (fun src' range' bytes h => ?_) e
  rotate_left
  · have hinside := h.inside
    have hread := h.read
    rw [hunique src' h.found] at hinside hread
    rw [hrange] at hinside
    cases hinside
    have hnone : copiedBytes env w.files range.1 range.2 0 src.parts = none := hnone
    rw [hnone] at hread
    cases hread
  have hbytes : copiedBytes env w.files range.1 range.2 0 src.parts = some bytes := hbytes
  have hsame : ∀ src' range' bytes', CopyLeaves env w ⟨bucket, key, uploadId⟩ partNumber source headers src' range' bytes' →
      bytes' = bytes := by
    intro src' range' bytes' h
    have hinside := h.inside
    have hread := h.read
    rw [hunique src' h.found] at hinside hread
    rw [hrange] at hinside
    cases hinside
    rw [hbytes] at hread
    exact (Option.some.inj hread).symm
  rw [ensures_op]
  refine ensures_appendMarked (fun hkept w' => ?_) fun hrefused e => ?_
  · intro hl
    rw [← hleaves] at hl
    obtain ⟨src', range', bytes', h⟩ := hl
    have hrefused := h.refused
    rw [hsame _ _ _ h] at hrefused
    exact hkept hrefused
  · have hiff : leaves ↔ w.files.get (env.blake3 bytes) = none := by
      rw [← hleaves]
      constructor
      · intro hl
        obtain ⟨src', range', bytes', h⟩ := hl
        have hnew := h.new
        rw [hsame _ _ _ h] at hnew
        exact hnew
      · intro hnew
        exact ⟨src, range, bytes, hnumber, hsrc, hrange, hbytes, hnew, hrefused⟩
    refine fails_after_write ?_ ?_ hiff e
    · rfl
    · rfl

/-! ## The three requests -/

namespace Request

/-- The requests that store bytes. -/
def storesBytes : Request → Bool
  | putObject .. | uploadPart .. | uploadPartCopy .. => true
  | _ => false

/-- Its bytes, new to the part store, are stored before it is refused. -/
def leaves (env : Env) (w : World) : Request → Prop
  | putObject bucket key headers body => PutLeaves env w bucket key headers body
  | uploadPart bucket key uploadId partNumber headers body => UploadLeaves env w ⟨bucket, key, uploadId⟩ partNumber headers body
  | uploadPartCopy bucket key uploadId partNumber source headers =>
    ∃ src range bytes, CopyLeaves env w ⟨bucket, key, uploadId⟩ partNumber source headers src range bytes
  | _ => False

end Request

/-- From any state: if the request is refused it changes neither store, exactly if it does not
    leave its bytes. -/
theorem refused_unchanged_iff (r : Request) (hr : r.storesBytes = true) :
    RefusedUnchanged env (r.handler env) w ↔ ¬ r.leaves env w := by
  cases r <;> cases hr
  case putObject bucket key headers body => exact (ends_putObject bucket key headers body).unchanged_iff
  case uploadPart bucket key uploadId partNumber headers body =>
    exact (ends_uploadPart bucket key uploadId partNumber headers body).unchanged_iff
  case uploadPartCopy bucket key uploadId partNumber source headers =>
    exact (ends_uploadPartCopy bucket key uploadId partNumber source headers).unchanged_iff

end

/-- A legal hold that is neither on nor off. -/
def maybeHeld : Request := .putObject (str "bucket") (str "k") [(str "x-amz-object-lock-legal-hold", str "MAYBE")] (str "a")

/-- Where another object has the same bytes, the PUT is refused once it has written them again. -/
theorem refused_unchanged_iff_held :
    let w := served sampleEnv .empty [.createBucket (str "bucket") [], .putObject (str "bucket") (str "l") [] (str "a")]
    (w.files.get (sampleEnv.blake3 (str "a")) = some (str "a") ∧ ∃ e, (run sampleEnv (maybeHeld.handler sampleEnv) w).1 = .error e) ∧
      (RefusedUnchanged sampleEnv (maybeHeld.handler sampleEnv) w ↔ ¬ maybeHeld.leaves sampleEnv w) :=
  ⟨⟨rfl, _, rfl⟩, refused_unchanged_iff maybeHeld rfl⟩

/-- The PUT is refused for its header and its bytes stay, also through a sweep. -/
theorem a_refused_put_leaves_its_bytes :
    (¬ ∀ requests r, Request.storesBytes r = true →
      RefusedUnchanged sampleEnv (r.handler sampleEnv) (served sampleEnv .empty requests)) ∧
    let w := served sampleEnv .empty [.createBucket (str "bucket") []]
    let w' := (run sampleEnv (maybeHeld.handler sampleEnv) w).2
    (run sampleEnv (sweepAt 0) w').2.files.get (sampleEnv.blake3 (str "a")) = some (str "a") := by
  constructor
  · intro h
    obtain ⟨w, hw⟩ : ∃ w, served sampleEnv .empty [.createBucket (str "bucket") []] = w := ⟨_, rfl⟩
    have hfirst : (run sampleEnv (maybeHeld.handler sampleEnv) w).1 = .error (.error
        ((invalid (str "invalid x-amz-object-lock-legal-hold 'MAYBE'")).withResource (objectPath (str "bucket") (str "k")))) := by
      rw [← hw]
      rfl
    have hfile : ((run sampleEnv (maybeHeld.handler sampleEnv) w).2.files.get (sampleEnv.blake3 (str "a"))).isSome = true := by
      rw [← hw]
      rfl
    have hnone : (w.files.get (sampleEnv.blake3 (str "a"))).isSome = false := by
      rw [← hw]
      rfl
    have hunchanged : RefusedUnchanged sampleEnv (maybeHeld.handler sampleEnv) w := hw ▸ h [.createBucket (str "bucket") []] maybeHeld rfl
    have hsame := (hunchanged _ (run sampleEnv (maybeHeld.handler sampleEnv) w).2 (Prod.ext hfirst rfl)).2
    rw [hsame, hnone] at hfile
    cases hfile
  · rfl

end S3lite
