/-
  S3lite.Safety.Saturation — many objects of one content.

  A reference count stays at 2^32 - 1. So of more PUTs of the same bytes it counts that many, and
  their file is collected with the DELETE that takes the count to zero, whatever is left.
  - `Filled`: the store after some of the PUTs and DELETEs.
  - `filled_put`, `filled_delete`: one more of each.
  - `copies_file_iff`: how many DELETEs the file outlives.
-/
import S3lite.Safety.Sequential
import S3lite.Server.Effects
import S3lite.Server.Decimal
import S3lite.Ranges.Header

namespace S3lite

open Handler

/-! ## A PUT without conditions -/

theorem etagOf_single (env : Env) (key : ManifestKey) (r : PartWriteResult) (headers : HeaderMap) (tags : Table Str Str)
    (checksum : Option AdditionalChecksum) (lock : Option ObjectLock) (now : Time) :
    etagOf env (singlePutManifest key r headers tags checksum lock now) = ok (etagOfMd5 r.md5) := by
  have hetag : (singlePutManifest key r headers tags checksum lock now).etag env.md5 env.debug = some (etagOfMd5 r.md5) := by
    cases hd : env.debug <;> rfl
  unfold etagOf
  rw [hetag]

/-- Its headers are well formed, and name the digests of its body. -/
structure Accepts (env : Env) (headers : HeaderMap) (body : Bytes) : Prop where
  md5 : ∃ md5, parseContentMd5 env .invalidRequest headers = .ok md5 ∧ (md5.all fun md5 => md5 = env.md5 body) = true
  checksum : ∃ checksum, Checksum.parseRequestChecksum env headers = .ok checksum ∧ verifyGiven env body checksum = .ok ()
  tags : ∃ tags, parseXAmzTagging headers = .ok tags

/-- No header asks for a lock. -/
structure LockFree (headers : HeaderMap) : Prop where
  mode : headers.get (str "x-amz-object-lock-mode") = none
  retainUntil : headers.get (str "x-amz-object-lock-retain-until-date") = none
  legalHold : headers.get (str "x-amz-object-lock-legal-hold") = none

theorem parseLockHeaders_free {env : Env} {headers : HeaderMap} (h : LockFree headers) : parseLockHeaders env headers = .ok none := by
  unfold parseLockHeaders
  simp only [headerString_none h.mode, headerString_none h.retainUntil, headerString_none h.legalHold, and_self, if_true]
  rfl

theorem checkPutPreconditions_none {env : Env} {headers : HeaderMap} (hmatch : headers.get (str "if-match") = none)
    (hnone : headers.get (str "if-none-match") = none) (bucket key : Str) : checkPutPreconditions env bucket key headers = ok () := by
  unfold checkPutPreconditions
  simp only [headerString_none hmatch, headerString_none hnone, and_self, if_true]

/-- Without lock and conditions, in a bucket without a default retention, a PUT succeeds exactly if it
    is accepted, unless its part is being collected. -/
theorem ensures_putObject_accepts {env : Env} {w : World} {bucket key : Str} {headers : HeaderMap} {body : Bytes} {cfg : BucketConfig}
    (hcfg : w.db.buckets.get bucket = some cfg) (hlock : cfg.objectLock = none) (hfree : LockFree headers)
    (hmatch : headers.get (str "if-match") = none) (hnone : headers.get (str "if-none-match") = none)
    (hunmarked : ¬ Marked w.db.parts (env.blake3 body)) :
    Ensures env (putObject env bucket key headers body) w (fun _ _ => Accepts env headers body) fun _ _ => ¬ Accepts env headers body := by
  simp only [putObject, ensures_bind, ensures_requireBucket, checkPutPreconditions_none hmatch hnone, parseLockHeaders_free hfree,
    ensures_ofExcept_mapError]
  simp only [ensures_ok, ensures_ofExcept, ensures_ensure]
  refine ⟨fun cfg' hcfg' => ?_, fun hnone => by rw [hcfg] at hnone; cases hnone⟩
  rw [hcfg] at hcfg'
  cases hcfg'
  refine ⟨fun md5 hmd5 => ⟨fun hdigest => ?_, fun hdigest h => ?_⟩, fun e he h => ?_⟩
  · refine ⟨fun checksum hchecksum => ⟨fun _ hverify => ?_, fun e he h => ?_⟩, fun e he h => ?_⟩
    · simp only [ensures_op, ensures_nextVersionId]
      refine ⟨fun tags htags => ?_, fun e he h => ?_⟩
      · have haccepts : Accepts env headers body := ⟨⟨md5, hmd5, hdigest⟩, ⟨checksum, hchecksum, hverify⟩, tags, htags⟩
        refine ⟨fun l hl => ?_, fun e he => by cases he⟩
        cases hl
        have hdefault : lockForPut cfg.objectLock none = ok none := by
          rw [hlock]
          rfl
        rw [hdefault, ensures_ok, etagOf_single, ensures_ok, ensures_mapErr]
        refine ⟨fun effect _ => (ensures_gcFreedParts effect.freedParts).mono (fun _ _ _ => haccepts) fun _ _ h => h, fun e he => ?_⟩
        obtain ⟨herror, -⟩ := commit_error_inv he
        obtain ⟨p, hp, hm⟩ := put_error_iff.mp ⟨e, herror⟩
        rw [List.mem_singleton.mp hp] at hm
        exact absurd hm hunmarked
      · obtain ⟨tags, htags⟩ := h.tags
        rw [htags] at he
        cases he
    · obtain ⟨checksum', hchecksum', hverify⟩ := h.checksum
      rw [hchecksum] at hchecksum'
      cases hchecksum'
      rw [hverify] at he
      cases he
    · obtain ⟨checksum', hchecksum', -⟩ := h.checksum
      rw [hchecksum'] at he
      cases he
  · obtain ⟨md5', hmd5', hdigest'⟩ := h.md5
    rw [hmd5] at hmd5'
    cases hmd5'
    exact hdigest hdigest'
  · obtain ⟨md5', hmd5', -⟩ := h.md5
    rw [hmd5'] at he
    cases he

/-- Without headers it does succeed. -/
theorem ensures_plainPut {env : Env} {w : World} {bucket key : Str} {body : Bytes} {cfg : BucketConfig}
    (hcfg : w.db.buckets.get bucket = some cfg) (hlock : cfg.objectLock = none) (hunmarked : ¬ Marked w.db.parts (env.blake3 body)) :
    Ensures env (putObject env bucket key [] body) w (fun _ _ => True) fun _ _ => False := by
  have haccepts : Accepts env [] body := ⟨⟨none, rfl, rfl⟩, ⟨none, rfl, rfl⟩, .empty, rfl⟩
  exact (ensures_putObject_accepts hcfg hlock ⟨rfl, rfl, rfl⟩ rfl rfl hunmarked).mono (fun _ _ _ => trivial) fun _ _ h => h haccepts

/-! ## One reference more, one less -/

/-- The hash has a live row with this count. -/
def CountIs (parts : Parts) (h : Hash) (n : Nat) : Prop := ∃ e, parts.get h = some e ∧ e.state = .live ∧ e.refcount = n

section
variable {env : Env} {w w' : World} {p : PartRef} {m : Manifest}

theorem Puts.counts (h : Puts env m w w') (hparts : m.parts = [p]) (hnew : w.db.objects.get m.key.encode = none) :
    CountIs w'.db.parts p.hash (min (refcount w.db.parts p.hash + 1) u32Max) := by
  obtain ⟨effect, db', hput, hgc⟩ := h
  obtain ⟨parts, hinc, rfl, rfl⟩ := put_ok hput
  rw [hnew] at hgc
  rw [hparts] at hinc
  have hkept := (hgc.kept p.hash fun hm => absurd hm List.not_mem_nil).1
  cases hone : incPartRefcount w.db.parts p.hash p.size (env.now w.clock) with
  | error e =>
    simp only [incAll, hone, Except.bind] at hinc
    cases hinc
  | ok parts' =>
    simp only [incAll, hone, Except.bind] at hinc
    cases hinc
    obtain ⟨e, rfl, hlive, hcount, -⟩ := inc_ok hone
    exact ⟨e, hkept.trans (Table.get_insert_self ..), hlive, hcount⟩

/-- A PUT under a new key collects nothing. -/
theorem Puts.keepsFiles (h : Puts env m w w') (hnew : w.db.objects.get m.key.encode = none) (x : Hash) :
    w'.files.get x = w.files.get x := by
  obtain ⟨effect, db', hput, hgc⟩ := h
  obtain ⟨parts, hinc, rfl, rfl⟩ := put_ok hput
  rw [hnew] at hgc
  exact (hgc.kept x fun hm => absurd hm List.not_mem_nil).2

variable {key : ManifestKey} {removed : Bool} {n : Nat}

/-- What the collection of a deleted object's part starts from. -/
theorem Removes.collects (h : Removes key w removed w') (hm : w.db.objects.get key.encode = some m) (hparts : m.parts = [p])
    (hc : CountIs w.db.parts p.hash (n + 1)) : ∃ e parts freed clock, e.refcount = n ∧ e.state = .live ∧ parts.get p.hash = some e ∧
      (freed = if n = 0 then [p.hash] else []) ∧ Collected freed { w with
        db := { w.db with objects := w.db.objects.erase key.encode, parts := parts }, clock := clock } w' := by
  unfold Removes at h
  rw [hm] at h
  obtain ⟨-, effect, db', hdelete, hgc⟩ := h
  obtain ⟨m', hm', rfl, rfl⟩ := delete_ok hdelete
  rw [hm] at hm'
  cases hm'
  obtain ⟨e, he, hlive, hcount⟩ := hc
  have hdec : decAll w.db.parts m.parts =
      (w.db.parts.insert p.hash { e with refcount := n }, if n = 0 then [p.hash] else []) := by
    have hless : (if 0 < e.refcount then e.refcount - 1 else e.refcount) = n := by
      rw [if_pos (by omega)]
      omega
    rw [hparts]
    simp only [decAll, decPartRefcount, he, hless]
    split <;> rfl
  rw [hdec] at hgc
  exact ⟨{ e with refcount := n }, _, _, _, rfl, hlive, Table.get_insert_self .., rfl, hgc⟩

theorem Removes.counts (h : Removes key w removed w') (hm : w.db.objects.get key.encode = some m) (hparts : m.parts = [p])
    (hc : CountIs w.db.parts p.hash (n + 1)) (hn : 0 < n) :
    CountIs w'.db.parts p.hash n ∧ w'.files.get p.hash = w.files.get p.hash := by
  obtain ⟨e, parts, freed, clock, hcount, hlive, he, rfl, hgc⟩ := h.collects hm hparts hc
  rw [if_neg (by omega)] at hgc
  obtain ⟨hrow, hfile⟩ := hgc.kept p.hash fun hm => absurd hm List.not_mem_nil
  exact ⟨⟨e, hrow.trans he, hlive, hcount⟩, hfile⟩

/-- The file goes with the last reference that is counted. -/
theorem Removes.unlinks (h : Removes key w removed w') (hm : w.db.objects.get key.encode = some m) (hparts : m.parts = [p])
    (hc : CountIs w.db.parts p.hash 1) : w'.db.parts.get p.hash = none ∧ w'.files.get p.hash = none := by
  obtain ⟨e, parts, freed, clock, hcount, hlive, he, rfl, hgc⟩ := h.collects hm hparts hc
  rw [if_pos rfl] at hgc
  exact hgc.gone p.hash (List.mem_singleton_self _) ⟨e, he, hcount⟩

/-- A part without a row is not counted and nothing of it is left to collect. -/
theorem Removes.misses (h : Removes key w removed w') (hm : w.db.objects.get key.encode = some m) (hparts : m.parts = [p])
    (hrow : w.db.parts.get p.hash = none) (hfile : w.files.get p.hash = none) :
    w'.db.parts.get p.hash = none ∧ w'.files.get p.hash = none := by
  unfold Removes at h
  rw [hm] at h
  obtain ⟨-, effect, db', hdelete, hgc⟩ := h
  obtain ⟨m', hm', rfl, rfl⟩ := delete_ok hdelete
  rw [hm] at hm'
  cases hm'
  have hdec : decAll w.db.parts m.parts = (w.db.parts, []) := by
    rw [hparts]
    simp only [decAll, decPartRefcount, hrow]
    rfl
  rw [hdec] at hgc
  obtain ⟨hrow', hfile'⟩ := hgc.kept p.hash fun hm => absurd hm List.not_mem_nil
  exact ⟨hrow'.trans hrow, hfile'.trans hfile⟩

end

/-! ## Many objects -/

section
variable {env : Env} {bucket : Str} {key : Nat → Str} {body : Bytes} {n d : Nat} {w : World}

/-- The `i`-th object. -/
def copyKey (bucket : Str) (key : Nat → Str) (i : Nat) : ManifestKey := ⟨bucket, key i, nullVersionId⟩

def putCopy (bucket : Str) (key : Nat → Str) (body : Bytes) (i : Nat) : Request := .putObject bucket (key i) [] body

def deleteCopy (bucket : Str) (key : Nat → Str) (i : Nat) : Request := .deleteObject bucket (key i) none

/-- The names under which one content is stored. -/
structure Names (bucket : Str) (key : Nat → Str) : Prop where
  bucket : NulFree bucket
  keys : ∀ i, NulFree (key i)
  distinct : Function.Injective key

theorem Names.encode_ne (hnames : Names bucket key) {i j : Nat} (hne : i ≠ j) :
    (copyKey bucket key i).encode ≠ (copyKey bucket key j).encode := by
  intro he
  have hclear : ∀ i, (copyKey bucket key i).NulFree := fun i => ⟨hnames.bucket, hnames.keys i, null_clear⟩
  have hkey := ManifestKey.encode_injective (hclear i) (hclear j) he
  exact hne (hnames.distinct (congrArg ManifestKey.key hkey))

/-- The first `n` objects were put and the first `d` of them deleted. -/
structure Filled (env : Env) (bucket : Str) (key : Nat → Str) (body : Bytes) (n d : Nat) (w : World) : Prop where
  configured : ∃ cfg, w.db.buckets.get bucket = some cfg ∧ cfg.versioning = .off ∧ cfg.objectLock = none
  rows : ∀ i, d ≤ i → i < n → ∃ m, w.db.objects.get (copyKey bucket key i).encode = some m ∧ m.key = copyKey bucket key i ∧
    m.state = .committed ∧ m.kind = .object ∧ m.objectLock = none ∧ m.parts = [partRef 1 (writeResult env body)]
  fresh : ∀ i, n ≤ i → w.db.objects.get (copyKey bucket key i).encode = none
  counted : d < min n u32Max → CountIs w.db.parts (env.blake3 body) (min n u32Max - d) ∧ (w.files.get (env.blake3 body)).isSome
  gone : min n u32Max ≤ d → w.db.parts.get (env.blake3 body) = none ∧ w.files.get (env.blake3 body) = none

theorem CountIs.refcount {parts : Parts} {h : Hash} (hc : CountIs parts h n) : S3lite.refcount parts h = n := by
  obtain ⟨e, he, -, hcount⟩ := hc
  simp [S3lite.refcount, he, hcount]

theorem Filled.refcount (h : Filled env bucket key body n d w) :
    S3lite.refcount w.db.parts (env.blake3 body) = min n u32Max - d := by
  by_cases hd : d < min n u32Max
  · exact (h.counted hd).1.refcount
  · obtain ⟨hnone, -⟩ := h.gone (by omega)
    unfold S3lite.refcount
    rw [hnone]
    simp only [Option.map_none, Option.getD_none]
    omega

theorem Filled.unmarked (h : Filled env bucket key body n d w) : ¬ Marked w.db.parts (env.blake3 body) := by
  intro hm
  obtain ⟨e, he, hs⟩ := hm
  by_cases hd : d < min n u32Max
  · obtain ⟨⟨e', he', hlive, -⟩, -⟩ := h.counted hd
    rw [he] at he'
    cases he'
    rw [hs] at hlive
    cases hlive
  · rw [(h.gone (by omega)).1] at he
    cases he

theorem writePart_isSome (env : Env) (files : Table Hash Bytes) (data : Bytes) :
    ((writePart env files data).2.get (env.blake3 data)).isSome := by
  rw [writePart_get]
  cases hfile : files.get (env.blake3 data) with
  | none => simp
  | some bytes => simp

theorem filled_put (hnames : Names bucket key) (h : Filled env bucket key body n 0 w) :
    Filled env bucket key body (n + 1) 0 (served env w [putCopy bucket key body n]) := by
  obtain ⟨cfg, hcfg, hoff, hlock⟩ := h.configured
  have hdone : Ensures env (putObject env bucket (key n) [] body) w (fun _ _ => True) fun _ _ => False :=
    ensures_plainPut hcfg hlock h.unmarked
  have heffect := @ensures_putObject env w bucket (key n) [] body
  obtain ⟨answer, w', hrun⟩ : ∃ answer w', run env (putObject env bucket (key n) [] body) w = (answer, w') := ⟨_, _, rfl⟩
  have hserved : served env w [putCopy bucket key body n] = w' := congrArg Prod.snd hrun
  cases answer with
  | error e => exact absurd (hdone.error hrun) id
  | ok resp =>
    obtain ⟨m, w1, hready, hputs⟩ := heffect.ok hrun
    obtain ⟨cfg', headerLock, lock, tags, checksum, t, hcfg', -, hheader, hchosen, -, -, hm⟩ := hready.manifest
    rw [hcfg] at hcfg'
    cases hcfg'
    have hkey : m.key = copyKey bucket key n := by
      rw [hm, hoff]
      rfl
    have hparts : m.parts = [partRef 1 (writeResult env body)] := by rw [hm]; rfl
    have hlockNone : m.objectLock = none := by
      cases hheader
      obtain ⟨n', -, hdefault⟩ := hchosen
      rw [hm]
      show lock = none
      rw [hdefault, hlock]
      rfl
    have hnew : w1.db.objects.get m.key.encode = none := by
      rw [hready.db, hkey]
      exact h.fresh n le_rfl
    obtain ⟨hobjects, hbuckets⟩ := hputs.objects
    have hcount := hputs.counts hparts hnew
    have hfile := hputs.keepsFiles hnew
    rw [hready.db] at hobjects hbuckets hcount
    have hhash : (partRef 1 (writeResult env body)).hash = env.blake3 body := rfl
    rw [hhash, h.refcount] at hcount
    have hless : min (min n u32Max - 0 + 1) u32Max = min (n + 1) u32Max - 0 := by omega
    rw [hless] at hcount
    rw [hserved]
    refine ⟨⟨cfg, by rw [hbuckets]; exact hcfg, hoff, hlock⟩, fun i _ hi => ?_, fun i hi => ?_, fun _ => ⟨hcount, ?_⟩,
      fun hmax => ?_⟩
    · rw [hobjects, hkey]
      by_cases e : i = n
      · subst e
        refine ⟨m, Table.get_insert_self .., hkey, ?_, ?_, hlockNone, hparts⟩
        · rw [hm]; rfl
        · rw [hm]; rfl
      · obtain ⟨m', hm', hrest⟩ := h.rows i (Nat.zero_le _) (by omega)
        exact ⟨m', (Table.get_insert_ne _ _ (hnames.encode_ne e)).trans hm', hrest⟩
    · rw [hobjects, hkey]
      exact (Table.get_insert_ne _ _ (hnames.encode_ne (show i ≠ n by omega))).trans (h.fresh i (by omega))
    · rw [hfile, hready.files]
      exact writePart_isSome env w.files body
    · have hpos : 0 < u32Max := by decide
      omega

theorem checkNotLocked_free {bucket key : Str} {m : Option Manifest} (h : m.bind (·.objectLock) = none) :
    checkNotLocked bucket key m = ok () := by
  unfold checkNotLocked
  rw [h]

theorem ensures_deleteUnlocked {key : Str} {cfg : BucketConfig} (hcfg : w.db.buckets.get bucket = some cfg)
    (hoff : cfg.versioning = .off) {m : Manifest} (hm : w.db.objects.get (ManifestKey.mk bucket key nullVersionId).encode = some m)
    (hlock : m.objectLock = none) : Ensures env (deleteObject bucket key none) w
      (fun _ w' => ∃ w1 removed, w1.db = w.db ∧ w1.files = w.files ∧ Removes ⟨bucket, key, nullVersionId⟩ w1 removed w')
      fun _ _ => False := by
  simp only [deleteObject, ensures_bind, ensures_requireBucket]
  refine ⟨fun cfg' hcfg' => ?_, fun hnone => by rw [hcfg] at hnone; cases hnone⟩
  rw [hcfg] at hcfg'
  cases hcfg'
  have hfound : (exec env (.metaOp (.getManifest ⟨bucket, key, nullVersionId⟩)) { w with clock := w.clock + 2 }).1 = some m := hm
  have hcheck : checkNotLocked bucket key (some m) = ok () := checkNotLocked_free hlock
  rw [hoff]
  simp only [ensures_bind, ensures_op, hfound, hcheck, ensures_ok]
  refine ensures_removeManifest fun removed w' h => ⟨_, removed, ?_, ?_, h⟩
  · rfl
  · rfl

/-- One object more is deleted. -/
theorem filled_delete (hnames : Names bucket key) (h : Filled env bucket key body n d w) (hd : d < n) :
    Filled env bucket key body n (d + 1) (served env w [deleteCopy bucket key d]) := by
  obtain ⟨cfg, hcfg, hoff, hlock⟩ := h.configured
  obtain ⟨m, hm, -, -, -, hunlocked, hparts⟩ := h.rows d le_rfl hd
  have hrow : w.db.objects.get (ManifestKey.mk bucket (key d) nullVersionId).encode = some m := hm
  have heffect := @ensures_deleteUnlocked env bucket w (key d) cfg hcfg hoff m hrow hunlocked
  obtain ⟨answer, w', hrun⟩ : ∃ answer w', run env (deleteObject bucket (key d) none) w = (answer, w') := ⟨_, _, rfl⟩
  have hserved : served env w [deleteCopy bucket key d] = w' := congrArg Prod.snd hrun
  cases answer with
  | error e => exact absurd (heffect.error hrun) id
  | ok resp =>
    obtain ⟨w1, removed, hdb, hfiles, hremoves⟩ := heffect.ok hrun
    have hm1 : w1.db.objects.get (copyKey bucket key d).encode = some m := by rw [hdb]; exact hm
    obtain ⟨hobjects, hbuckets⟩ := hremoves.objects
    rw [hdb] at hobjects hbuckets
    have hkept : ∀ i, i ≠ d →
        w'.db.objects.get (copyKey bucket key i).encode = w.db.objects.get (copyKey bucket key i).encode := by
      intro i hi
      rw [hobjects]
      exact Table.get_erase_ne _ (hnames.encode_ne hi)
    rw [hserved]
    refine ⟨⟨cfg, by rw [hbuckets]; exact hcfg, hoff, hlock⟩, fun i hi hn => ?_, fun i hi => ?_, fun hmore => ?_, fun hlast => ?_⟩
    · rw [hkept i (by omega)]
      exact h.rows i (by omega) hn
    · rw [hkept i (by omega)]
      exact h.fresh i hi
    · obtain ⟨hcounted, hfile⟩ := h.counted (by omega)
      obtain ⟨k, hk⟩ : ∃ k, min n u32Max - d = k + 1 := ⟨min n u32Max - d - 1, by omega⟩
      have hless : min n u32Max - (d + 1) = k := by omega
      rw [hk, ← hdb] at hcounted
      obtain ⟨hcount, hfiles'⟩ := hremoves.counts hm1 hparts hcounted (by omega)
      have hhash : (partRef 1 (writeResult env body)).hash = env.blake3 body := rfl
      rw [hhash] at hcount hfiles'
      rw [hless]
      refine ⟨hcount, ?_⟩
      rw [hfiles', hfiles]
      exact hfile
    · by_cases hone : d < min n u32Max
      · obtain ⟨hcounted, -⟩ := h.counted hone
        have hk : min n u32Max - d = 1 := by omega
        rw [hk, ← hdb] at hcounted
        exact hremoves.unlinks hm1 hparts hcounted
      · obtain ⟨hrow, hfile⟩ := h.gone (by omega)
        rw [← hdb] at hrow
        rw [← hfiles] at hfile
        exact hremoves.misses hm1 hparts hrow hfile

theorem filled_put_succeeds (h : Filled env bucket key body n 0 w) :
    ∃ resp, (run env ((putCopy bucket key body n).handler env) w).1 = .ok resp := by
  obtain ⟨cfg, hcfg, -, hlock⟩ := h.configured
  have hdone : Ensures env (putObject env bucket (key n) [] body) w (fun _ _ => True) fun _ _ => False :=
    ensures_plainPut hcfg hlock h.unmarked
  obtain ⟨resp, w', hrun, -⟩ := hdone.succeeds
  exact ⟨resp, congrArg Prod.fst hrun⟩

theorem filled_delete_succeeds (h : Filled env bucket key body n d w) (hd : d < n) :
    ∃ resp, (run env ((deleteCopy bucket key d).handler env) w).1 = .ok resp := by
  obtain ⟨cfg, hcfg, hoff, -⟩ := h.configured
  obtain ⟨m, hm, -, -, -, hunlocked, -⟩ := h.rows d le_rfl hd
  have hdone := @ensures_deleteUnlocked env bucket w (key d) cfg hcfg hoff m hm hunlocked
  obtain ⟨resp, w', hrun, -⟩ := Ensures.succeeds hdone
  exact ⟨resp, congrArg Prod.fst hrun⟩

theorem filled_puts (hnames : Names bucket key) (h : Filled env bucket key body 0 0 w) (n : Nat) :
    Filled env bucket key body n 0 (served env w ((List.range n).map (putCopy bucket key body))) := by
  induction n with
  | zero => exact h
  | succ n ih =>
    rw [List.range_succ, List.map_append, served_append]
    exact filled_put hnames ih

theorem filled_deletes (hnames : Names bucket key) (h : Filled env bucket key body n 0 w) (hd : d ≤ n) :
    Filled env bucket key body n d (served env w ((List.range d).map (deleteCopy bucket key))) := by
  induction d with
  | zero => exact h
  | succ d ih =>
    rw [List.range_succ, List.map_append, served_append]
    exact filled_delete hnames (ih (by omega)) (by omega)

/-- The bucket, the objects, and the first `d` of them deleted again. -/
def copies (bucket : Str) (key : Nat → Str) (body : Bytes) (n d : Nat) : List Request :=
  .createBucket bucket [] :: ((List.range n).map (putCopy bucket key body) ++ (List.range d).map (deleteCopy bucket key))

theorem mem_copies {r : Request} (hr : r ∈ copies bucket key body n d) :
    r = .createBucket bucket [] ∨ (∃ i, r = putCopy bucket key body i) ∨ ∃ i, r = deleteCopy bucket key i := by
  rcases List.mem_cons.mp hr with rfl | hr
  · exact Or.inl rfl
  · rcases List.mem_append.mp hr with hr | hr
    · obtain ⟨i, -, rfl⟩ := List.mem_map.mp hr
      exact Or.inr (Or.inl ⟨i, rfl⟩)
    · obtain ⟨i, -, rfl⟩ := List.mem_map.mp hr
      exact Or.inr (Or.inr ⟨i, rfl⟩)

theorem Names.object (hnames : Names bucket key) (i : Nat) : ∀ s ∈ [bucket, key i], NulFree s := by
  intro s hs
  rcases List.mem_cons.mp hs with rfl | hs
  · exact hnames.bucket
  · rw [List.mem_singleton.mp hs]
    exact hnames.keys i

theorem copies_wellFormed (hnames : Names bucket key) : ∀ r ∈ copies bucket key body n d, r.WellFormed := by
  intro r hr
  rcases mem_copies hr with rfl | ⟨i, rfl⟩ | ⟨i, rfl⟩
  · intro s hs
    rw [List.mem_singleton.mp hs]
    exact hnames.bucket
  · exact hnames.object i
  · exact hnames.object i

/-- An empty store with the bucket. -/
theorem filled_created (env : Env) (bucket : Str) (key : Nat → Str) (body : Bytes) :
    Filled env bucket key body 0 0 (served env .empty [.createBucket bucket []]) := by
  have hpos : ¬ 0 < min 0 u32Max := by simp
  exact ⟨⟨_, Table.get_insert_self .., rfl, rfl⟩, fun i _ hi => absurd hi (Nat.not_lt_zero i), fun i _ => rfl,
    fun h => absurd h hpos, fun _ => ⟨rfl, rfl⟩⟩

theorem filled_copies (hnames : Names bucket key) (hd : d ≤ n) :
    Filled env bucket key body n d (served env .empty (copies bucket key body n d)) := by
  have hend := filled_deletes hnames (filled_puts hnames (filled_created env bucket key body) n) hd
  rw [← served_append, ← served_append] at hend
  exact hend

/-- The decimal numbers as keys. -/
theorem names_natStr : Names (str "bucket") natStr := by
  refine ⟨by decide, fun i c hc => ?_, fun i j h => ?_⟩
  · obtain ⟨hlo, -⟩ := (natStr_digits i).2 c hc
    exact lt_of_lt_of_le (by decide) hlo
  · have hi := parseUnsigned_natStr (Nat.lt_succ_of_le (Nat.le_max_left i j))
    have hj := parseUnsigned_natStr (Nat.lt_succ_of_le (Nat.le_max_right i j))
    rw [h, hj] at hi
    exact (Option.some.inj hi).symm

/-! ## The last file -/

/-- A content that the store does not have yet is put under `n` keys and the first `d` of these
    objects are deleted: its file is there as long as fewer were deleted than were counted. The
    objects that are left are all stored. -/
theorem copies_file_iff (hnames : Names bucket key) {cfg : BucketConfig} (hcfg : w.db.buckets.get bucket = some cfg)
    (hoff : cfg.versioning = .off) (hlock : cfg.objectLock = none)
    (hfresh : ∀ i, w.db.objects.get (copyKey bucket key i).encode = none)
    (hrow : w.db.parts.get (env.blake3 body) = none) (hfile : w.files.get (env.blake3 body) = none) (hd : d ≤ n) :
    let w' := served env w ((List.range n).map (putCopy bucket key body) ++ (List.range d).map (deleteCopy bucket key))
    (∀ i, d ≤ i → i < n → ∃ m, w'.db.objects.get (copyKey bucket key i).encode = some m ∧ m.state = .committed ∧
      m.parts = [partRef 1 (writeResult env body)]) ∧
        ((w'.files.get (env.blake3 body)).isSome ↔ d < min n u32Max) := by
  have hstart : Filled env bucket key body 0 0 w := by
    refine ⟨⟨cfg, hcfg, hoff, hlock⟩, fun i _ hi => absurd hi (Nat.not_lt_zero i), fun i _ => hfresh i, fun hd => ?_,
      fun _ => ⟨hrow, hfile⟩⟩
    omega
  have hend := filled_deletes hnames (filled_puts hnames hstart n) hd
  rw [← served_append] at hend
  refine ⟨fun i hi hn => ?_, fun hsome => ?_, fun hless => (hend.counted hless).2⟩
  · obtain ⟨m, hm, -, hs, -, -, hparts⟩ := hend.rows i hi hn
    exact ⟨m, hm, hs, hparts⟩
  · by_contra hmax
    rw [(hend.gone (by omega)).2] at hsome
    cases hsome

end

/-- One PUT more than the count can hold, and as many DELETEs as it has counted. -/
theorem copies_file_iff_overflowing :
    let w' := served sampleEnv (served sampleEnv .empty [.createBucket (str "bucket") []])
      ((List.range (2 ^ 32)).map (putCopy (str "bucket") (fun i => List.replicate i 97) (str "a")) ++
        (List.range u32Max).map (deleteCopy (str "bucket") fun i => List.replicate i 97))
    (∀ i, u32Max ≤ i → i < 2 ^ 32 → ∃ m, w'.db.objects.get (copyKey (str "bucket") (fun i => List.replicate i 97) i).encode = some m ∧
      m.state = .committed ∧ m.parts = [partRef 1 (writeResult sampleEnv (str "a"))]) ∧
        ((w'.files.get (sampleEnv.blake3 (str "a"))).isSome ↔ u32Max < min (2 ^ 32) u32Max) := by
  have hnames : Names (str "bucket") fun i => List.replicate i 97 := by
    refine ⟨by decide, fun i b hb => ?_, fun i j h => ?_⟩
    · rw [List.eq_of_mem_replicate hb]
      decide
    · have hlen := congrArg List.length h
      simp only [List.length_replicate] at hlen
      exact hlen
  exact copies_file_iff hnames rfl rfl rfl (fun i => rfl) rfl rfl (by decide)

end S3lite
