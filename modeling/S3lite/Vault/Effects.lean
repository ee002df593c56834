/-
  S3lite.Vault.Effects — what the other requests that write rows do when run alone, beside
  those of `Server.Effects`.

  - `ensures_createMultipartUpload`, `ensures_uploadPart`, `ensures_uploadPartCopy`,
    `ensures_abortMultipartUpload`, `ensures_deleteObject`.
  - `performs_run`: an invariant that every operation of a kind keeps.
  - `putObject_fits`, `uploadPart_fits`, `uploadPartCopy_fits`: where all operations of the run
    meet a condition, the write of the request's bytes meets it.
-/
import S3lite.Ranges.Get
import S3lite.Safety.Guarded
import S3lite.Safety.Leftover

namespace S3lite

open Handler

variable {env : Env} {w w' : World}

/-! ## Effects -/

/-- From `w` to `w'` the part was stored in the row and what that freed was collected. -/
def Appends (env : Env) (key : ManifestKey) (part : PartRef) (w w' : World) : Prop :=
  ∃ effect db', handleAppendPart w.db (env.now w.clock) (env.now (w.clock + 1)) key part = .ok (effect, db') ∧
    Collected effect.freedParts { w with db := db', clock := w.clock + 2 } w'

/-- Neither store has changed. -/
structure Untouched (w w' : World) : Prop where
  db : w'.db = w.db
  files : w'.files = w.files

theorem Later.untouched (h : Later w w') : Untouched w w' := ⟨h.db, h.files⟩

theorem quiet_requireBucket (bucket : Str) : Quiet env (requireBucket bucket) :=
  quiet_bind (fun _ => later_read rfl) fun _ => quiet_orFail _ _

theorem ensures_createMultipartUpload (bucket key : Str) (headers : HeaderMap) :
    Ensures env (createMultipartUpload bucket key headers) w
      (fun resp w' => resp.body = .xml (.initiateMultipartUpload bucket key (env.uuid w.uuids)) ∧
        (w.db.buckets.get bucket).isSome ∧ ∃ n w1, Ready w .enabled n w1 ∧
          Puts env (uploadManifest ⟨bucket, key, env.uuid w.uuids⟩ headers (env.now n)) w1 w')
      fun _ w' => Untouched w w' ∧ w.db.buckets.get bucket = none := by
  unfold createMultipartUpload
  simp only [ensures_bind, ensures_requireBucket, ensures_op (o := .newUuid), ensures_op (o := .nowUtc), ensures_ok]
  refine ⟨fun cfg hcfg => ?_, fun hnone => ⟨⟨rfl, rfl⟩, hnone⟩⟩
  simp only [ensures_op, ensures_mapErr]
  constructor
  · intro effect h
    have hput := commit_ok_inv h
    refine (ensures_gcFreedParts effect.freedParts).mono (fun _ w' hgc => ?_) fun _ _ h => h
    refine ⟨rfl, by rw [hcfg]; rfl, w.clock + 2, _, ?_, effect, _, hput, hgc⟩
    exact ⟨rfl, rfl, rfl, Nat.le_add_right .., Nat.lt_succ_self _⟩
  · intro e h
    -- an upload starts without parts, so nothing is counted
    cases (commit_error_inv h).1

/-- The last steps of the handlers that store a part. -/
theorem ensures_appendAndCollect {key : ManifestKey} {part : PartRef} {f : MetaError → S3Error} {Q : World → Prop}
    {E : Failure → World → Prop} (hq : ∀ w', Appends env key part w w' → Q w')
    (he : ∀ e, E (.error e) { w with clock := w.clock + 2 }) :
    Ensures env (op (.metaOp (.appendPart key part))) w (fun r w => Ensures env (mapErr f r) w
      (fun effect w => Ensures env (gcFreedParts effect.freedParts) w (fun _ w => Q w) E) E) E := by
  simp only [ensures_op, ensures_mapErr]
  constructor
  · intro effect h
    have happend := commit_ok_inv h
    exact (ensures_gcFreedParts effect.freedParts).mono (fun _ w' hgc => hq w' ⟨effect, _, happend, hgc⟩) fun _ _ h => h
  · intro e h
    have := he (f e)
    rw [← (commit_error_inv h).2] at this
    exact this

theorem ensures_uploadPart (bucket key uploadId : Str) (partNumber : Nat) (headers : HeaderMap) (body : Bytes) :
    Ensures env (uploadPart env bucket key uploadId partNumber headers body) w
      (fun _ w' => Appends env ⟨bucket, key, uploadId⟩ (partRef partNumber (writeResult env body))
        { w with files := (writePart env w.files body).2 } w') fun _ w' => Refused env body w w' := by
  have hearly : Refused env body w w := ⟨rfl, Or.inl rfl, le_rfl⟩
  unfold uploadPart
  simp only [ensures_bind, ensures_ensure, ensures_ofExcept, ensures_op (o := .writeBytes body), ensures_ok]
  refine ⟨fun _ => ⟨fun expected _ => ⟨fun _ => ?_, fun _ => hearly⟩, fun _ _ => hearly⟩, fun _ => hearly⟩
  exact ensures_appendAndCollect (fun w' happends => happends) fun e => ⟨rfl, Or.inr rfl, Nat.le_add_right ..⟩

theorem IsSource.unique {db : Db} {source : CopySource} {src src' : Manifest} (h : IsSource db source src)
    (h' : IsSource db source src') : src = src' := Option.some.inj (h.1.symm.trans h'.1)

/-- What is read of an intact source is its range, when it is read at all. -/
theorem ensures_readSourceRange {src : Manifest} (h : Intact w src) {first last : Nat} (hle : first ≤ last) (hlt : last < src.size) :
    Ensures env (readSourceRange env src first last) w (fun data w' => data = cut first (last + 1) (objectBytes w src) ∧ w' = w)
      fun _ w' => w' = w := by
  unfold Ensures
  by_cases hempty : ∃ p, src.parts.head? = some p ∧ p.size = 0
  · obtain ⟨p, hp, hsize⟩ := hempty
    rw [readSourceRange_panics h hle hlt hp hsize]
  · have hbound := h.bounded
    rw [h.size] at hbound
    have hread : run env (readSourceRange env src first last) w = (.ok (cut first (last + 1) (objectBytes w src)), w) :=
      readRange_intact hle h.parts (by omega) fun _ p hp hsize => hempty ⟨p, hp, hsize⟩
    rw [hread]
    exact ⟨rfl, rfl⟩

theorem Appends.later {key : ManifestKey} {part : PartRef} {w'' : World} (h : Appends env key part w w') (hl : Later w' w'') :
    Appends env key part w w'' := by
  obtain ⟨effect, db', happend, hc⟩ := h
  refine ⟨effect, db', happend, ?_⟩
  refine ⟨?_, ?_, hl.uuids.trans hc.uuids, hc.clock.trans hl.clock, fun x hx ho => ?_, fun x hx => ?_⟩
  · rw [hl.db]
    exact hc.buckets
  · rw [hl.db]
    exact hc.objects
  · rw [hl.db, hl.files]
    exact hc.gone x hx ho
  · rw [hl.db, hl.files]
    exact hc.kept x hx

/-- What a part copy copies is the range of its source, when it copies at all. -/
theorem ensures_uploadPartCopy (bucket key uploadId : Str) (partNumber : Nat) (source : CopySource) (headers : HeaderMap)
    (hintact : ∀ src, IsSource w.db source src → Intact w src) :
    Ensures env (uploadPartCopy env bucket key uploadId partNumber source headers) w
      (fun _ w' => ∃ src range w1, IsSource w.db source src ∧ copySourceRange bucket key headers src.size = .ok range ∧
        Later w w1 ∧ Appends env ⟨bucket, key, uploadId⟩
          (partRef partNumber (writeResult env (cut range.1 (range.2 + 1) (objectBytes w src))))
          { w1 with files := (writePart env w.files (cut range.1 (range.2 + 1) (objectBytes w src))).2 } w')
      fun _ w' => ∃ data, Refused env data w w' := by
  unfold uploadPartCopy
  simp only [ensures_bind, ensures_ensure, ensures_ofExcept]
  have hearly : ∀ {w1}, Later w w1 → ∃ data, Refused env data w w1 := fun h => ⟨[], h.db, Or.inl h.files, h.clock⟩
  have hlater : Later w { w with clock := w.clock + 2 } := ⟨rfl, rfl, rfl, Nat.le_add_right ..⟩
  refine ⟨fun _ => ensures_resolveSource (fun src hsrc => ?_) fun _ _ => hearly hlater, fun _ => hearly (.refl w)⟩
  refine ⟨fun range hrange => ?_, fun _ _ => hearly hlater⟩
  obtain ⟨hle, hlt⟩ := copySourceRange_inside hrange
  have h := hintact src hsrc
  have h' : Intact { w with clock := w.clock + 2 } src := ⟨h.parts, h.size, h.bounded⟩
  refine (ensures_readSourceRange h' hle hlt).mono (fun data w1 hread => ?_) fun _ w1 hw1 => ?_
  · obtain ⟨hdata, rfl⟩ := hread
    refine ensures_appendAndCollect (fun w2 happends => ?_) fun e => ⟨data, rfl, Or.inr rfl, ?_⟩
    · have hdata : data = cut range.1 (range.2 + 1) (objectBytes w src) := hdata
      subst hdata
      exact ⟨src, range, _, hsrc, hrange, hlater, happends.later later_now⟩
    · show w.clock ≤ w.clock + 2 + 2
      omega
  · rw [hw1]
    exact hearly hlater

theorem ensures_abortMultipartUpload (bucket key uploadId : Str) :
    Ensures env (abortMultipartUpload bucket key uploadId) w
      (fun _ w' => ∃ up w1, w.db.objects.get (ManifestKey.mk bucket key uploadId).encode = some up ∧ up.state = .inProgress ∧
        Later w w1 ∧ Removes ⟨bucket, key, uploadId⟩ w1 true w')
      fun _ w' => Untouched w w' ∧ ∀ up, w.db.objects.get (ManifestKey.mk bucket key uploadId).encode = some up →
        up.state ≠ .inProgress := by
  unfold abortMultipartUpload
  simp only [ensures_bind]
  refine ensures_findUpload (fun up hup hs => ?_) fun hnone e => ⟨⟨rfl, rfl⟩, hnone⟩
  simp only [ensures_op, ensures_mapErr, ensures_ok]
  constructor
  · intro effect h
    have hdelete := commit_ok_inv h
    refine (ensures_gcFreedParts effect.freedParts).mono (fun _ w' hgc => ?_) fun _ _ h => h
    refine ⟨up, { w with clock := w.clock + 2 }, hup, hs, ⟨rfl, rfl, rfl, Nat.le_add_right ..⟩, ?_⟩
    unfold Removes
    rw [show ({ w with clock := w.clock + 2 } : World).db.objects.get (ManifestKey.mk bucket key uploadId).encode = some up from hup]
    exact ⟨rfl, effect, _, hdelete, hgc⟩
  · intro e h
    have hdelete := (commit_error_inv h).1
    unfold handleDeleteManifest at hdelete
    rw [show ({ w with clock := w.clock + 2 } : World).db.objects.get (ManifestKey.mk bucket key uploadId).encode = some up from hup]
      at hdelete
    cases hdelete

/-- A DELETE removes the row it names, or stores a delete marker. -/
theorem ensures_deleteObject (bucket key : Str) (versionId : Option Str) :
    Ensures env (deleteObject bucket key versionId) w
      (fun _ w' => ∃ cfg, w.db.buckets.get bucket = some cfg ∧ match versionId with
        | some id => ∃ removed w1, Later w w1 ∧ Removes ⟨bucket, key, id⟩ w1 removed w'
        | none => if cfg.versioning = .off then ∃ removed w1, Later w w1 ∧ Removes ⟨bucket, key, nullVersionId⟩ w1 removed w'
          else ∃ n w1, Ready w cfg.versioning n w1 ∧
            Puts env (tombstone ⟨bucket, key, versionIdFor env w cfg.versioning⟩ (env.now n)) w1 w')
      fun _ w' => Untouched w w' := by
  unfold deleteObject
  simp only [ensures_bind, ensures_requireBucket]
  refine ⟨fun cfg hcfg => ?_, fun _ => ⟨rfl, rfl⟩⟩
  have hlater : Later w { w with clock := w.clock + 2 } := ⟨rfl, rfl, rfl, Nat.le_add_right ..⟩
  have hremove : ∀ {target : ManifestKey} {β : Type} {f : Bool → Handler β} {Q : β → World → Prop} {E : Failure → World → Prop},
      (∀ removed w1 w', Later w w1 → Removes target w1 removed w' → Ensures env (f removed) w' Q E) →
        (∀ e w', Later w w' → E e w') → Ensures env (op (.metaOp (.getManifest target))) { w with clock := w.clock + 2 }
          (fun found w1 => Ensures env (checkNotLocked bucket key found) w1
            (fun _ w2 => Ensures env (removeManifest target) w2 (fun b w3 => Ensures env (f b) w3 Q E) E) E) E := by
    intro target β f Q E hq he
    simp only [ensures_op]
    have hread : Later w (exec env (.metaOp (.getManifest target)) { w with clock := w.clock + 2 }).2 := hlater.trans (later_read rfl)
    refine (quiet_checkNotLocked bucket key _).ensures (fun _ w2 h2 => ?_) fun e w2 h2 => he e w2 (hread.trans h2)
    exact ensures_removeManifest fun removed w3 h => hq removed w2 w3 (hread.trans h2) h
  cases versionId with
  | some id =>
    simp only [deleteSpecificVersion, ensures_bind]
    refine hremove (fun removed w1 w' h1 hr => ?_) fun _ _ h => h.untouched
    exact ⟨cfg, hcfg, removed, w1, h1, hr⟩
  | none =>
    cases hv : cfg.versioning with
    | off =>
      simp only [ensures_bind]
      refine hremove (fun removed w1 w' h1 hr => ?_) fun _ _ h => h.untouched
      refine ⟨cfg, hcfg, ?_⟩
      rw [hv, if_pos rfl]
      exact ⟨removed, w1, h1, hr⟩
    | enabled | suspended =>
      refine (ensures_insertDeleteMarker bucket key _).mono (fun _ w' h => ?_) fun _ w' h => ?_
      · obtain ⟨n, w1, hready, hputs⟩ := h
        refine ⟨cfg, hcfg, ?_⟩
        rw [hv, if_neg (by decide)]
        exact ⟨n, w1, ⟨hready.db, hready.files, hready.uuids, le_trans (Nat.le_add_right ..) hready.read, hready.clock⟩, hputs⟩
      · exact ⟨h.1, h.2⟩

/-! ## Invariants of a kind of operations -/

theorem performs_run {α : Type} {C : Op → Prop} {x : Handler α} (h : Performs C x) {I : World → Prop}
    (hstep : ∀ w op, I w → C op → I (exec env op w).2) (hi : I w) : I (run env x w).2 := by
  obtain ⟨-, -, hend⟩ := Prog.Follows.run (P := Prog.Protocol.only C) (I := fun _ w => I w)
    (fun _ w op hi hc => ⟨trivial, hstep w op hi hc⟩) h hi
  exact hend

theorem clock_le_handler {α : Type} (x : Handler α) (w : World) : w.clock ≤ (run env x w).2.clock :=
  clock_le_run (α := Except Failure α) x w

/-! ## The write of a request's bytes -/

section
variable {α β : Type} {Fits : World → Op → Prop}

/-- Every operation of the handler run alone meets the condition. -/
def MeetsAll (env : Env) (Fits : World → Op → Prop) (x : Handler α) (w : World) : Prop :=
  Prog.Meets (α := Except Failure α) (exec env) Fits x w

theorem meetsAll_bind {x : Handler α} {f : α → Handler β} (h : MeetsAll env Fits (x >>= f) w) {a : α}
    (hx : run env x w = (.ok a, w')) : MeetsAll env Fits (f a) w' := by
  have hrun : ∀ (p : Prog Op Op.Res (Except Failure α)) (g : Except Failure α → Prog Op Op.Res (Except Failure β)) (w : World),
      (p.bind g).Meets (exec env) Fits w → (g (p.run (exec env) w).1).Meets (exec env) Fits (p.run (exec env) w).2 := by
    intro p g
    induction p with
    | ret a => exact fun _ h => h
    | call op k ih => exact fun w h => ih _ _ h.2
  have hend := hrun x _ w h
  rw [show Prog.run (exec env) x w = (.ok a, w') from hx] at hend
  exact hend

/-- Before a request succeeds it gets past each of its steps, here past one that leaves the
    stores alone. -/
theorem meetsAll_past {x : Handler α} (hx : Quiet env x) {f : α → Handler β} {w0 : World} (h0 : Later w0 w)
    (h : MeetsAll env Fits (x >>= f) w) {b : β} {w2 : World} (hr : run env (x >>= f) w = (.ok b, w2)) :
    ∃ a w1, run env x w = (.ok a, w1) ∧ Later w0 w1 ∧ MeetsAll env Fits (f a) w1 ∧ run env (f a) w1 = (.ok b, w2) := by
  rw [run_bind] at hr
  obtain ⟨answer, w1, hfirst⟩ : ∃ answer w1, run env x w = (answer, w1) := ⟨_, _, rfl⟩
  rw [hfirst] at hr
  cases answer with
  | error e => cases hr
  | ok a => exact ⟨a, w1, hfirst, h0.trans ((hx w).ok hfirst), meetsAll_bind h hfirst, hr⟩

theorem ofExcept_ok {r : Except S3Error α} {a : α} (h : run env (ofExcept r) w = (.ok a, w')) : r = .ok a := by
  cases r with
  | error e => cases h
  | ok b =>
    cases h
    rfl

/-- What is written and stored in an upload meets the condition. -/
structure AppendFits (env : Env) (Fits : World → Op → Prop) (key : ManifestKey) (part : PartRef) (body : Bytes) (w w1 : World) :
    Prop where
  later : Later w w1
  write : Fits w1 (.writeBytes body)
  append : Fits { w1 with files := (writePart env w1.files body).2 } (.metaOp (.appendPart key part))

theorem putObject_fits {bucket key : Str} {headers : HeaderMap} {body : Bytes} {resp : Response}
    (h : MeetsAll env Fits (putObject env bucket key headers body) w)
    (hr : run env (putObject env bucket key headers body) w = (.ok resp, w')) : ∃ w1, Later w w1 ∧ Fits w1 (.writeBytes body) := by
  unfold putObject at h hr
  obtain ⟨cfg, w1, -, h1, h, hr⟩ := meetsAll_past (quiet_requireBucket bucket) (.refl w) h hr
  obtain ⟨_, w2, -, h2, h, hr⟩ := meetsAll_past (quiet_checkPutPreconditions bucket key headers) h1 h hr
  obtain ⟨expected, w3, -, h3, h, hr⟩ := meetsAll_past (quiet_ofExcept _) h2 h hr
  obtain ⟨_, w4, -, h4, h, hr⟩ := meetsAll_past (quiet_ensure _ _) h3 h hr
  obtain ⟨checksum, w5, -, h5, h, hr⟩ := meetsAll_past (quiet_ofExcept _) h4 h hr
  obtain ⟨_, w6, -, h6, h, hr⟩ := meetsAll_past (quiet_ofExcept _) h5 h hr
  exact ⟨w6, h6, h.1⟩

theorem uploadPart_fits {bucket key uploadId : Str} {partNumber : Nat} {headers : HeaderMap} {body : Bytes} {resp : Response}
    (h : MeetsAll env Fits (uploadPart env bucket key uploadId partNumber headers body) w)
    (hr : run env (uploadPart env bucket key uploadId partNumber headers body) w = (.ok resp, w')) :
    ∃ w1, AppendFits env Fits ⟨bucket, key, uploadId⟩ (partRef partNumber (writeResult env body)) body w w1 := by
  unfold uploadPart at h hr
  obtain ⟨_, w1, -, h1, h, hr⟩ := meetsAll_past (quiet_ensure _ _) (.refl w) h hr
  obtain ⟨expected, w2, -, h2, h, hr⟩ := meetsAll_past (quiet_ofExcept _) h1 h hr
  obtain ⟨_, w3, -, h3, h, hr⟩ := meetsAll_past (quiet_ensure _ _) h2 h hr
  exact ⟨w3, h3, h.1, h.2.1⟩

theorem quiet_readSourceRange (m : Manifest) (first last : Nat) : Quiet env (readSourceRange env m first last) := fun w =>
  ensures_readRange (fun _ _ => .refl w) fun _ _ => .refl w

/-- The bytes are the range of the source. -/
theorem uploadPartCopy_fits {bucket key uploadId : Str} {partNumber : Nat} {source : CopySource} {headers : HeaderMap}
    {resp : Response} (hintact : ∀ src, IsSource w.db source src → Intact w src)
    (h : MeetsAll env Fits (uploadPartCopy env bucket key uploadId partNumber source headers) w)
    (hr : run env (uploadPartCopy env bucket key uploadId partNumber source headers) w = (.ok resp, w')) :
    ∃ src range w1, IsSource w.db source src ∧ copySourceRange bucket key headers src.size = .ok range ∧
      AppendFits env Fits ⟨bucket, key, uploadId⟩
        (partRef partNumber (writeResult env (cut range.1 (range.2 + 1) (objectBytes w src))))
        (cut range.1 (range.2 + 1) (objectBytes w src)) w w1 := by
  unfold uploadPartCopy at h hr
  obtain ⟨_, w1, -, h1, h, hr⟩ := meetsAll_past (quiet_ensure _ _) (.refl w) h hr
  obtain ⟨src, w2, hsource, h2, h, hr⟩ := meetsAll_past (quiet_resolveSource source) h1 h hr
  have hsrc : IsSource w1.db source src :=
    (ensures_resolveSource (Q := fun a _ => IsSource w1.db source a) (E := fun _ _ => True) (fun _ h => h) fun _ _ => trivial).ok hsource
  rw [h1.db] at hsrc
  obtain ⟨range, w3, hrange, h3, h, hr⟩ := meetsAll_past (quiet_ofExcept _) h2 h hr
  have hrange := ofExcept_ok hrange
  obtain ⟨data, w4, hread, h4, h, hr⟩ := meetsAll_past (quiet_readSourceRange src range.1 range.2) h3 h hr
  obtain ⟨hle, hlt⟩ := copySourceRange_inside hrange
  have hbytes : objectBytes w3 src = objectBytes w src := by
    unfold objectBytes partBytes
    rw [h3.files]
  have hsource := hintact src hsrc
  have hthere : Intact w3 src := by
    refine ⟨fun p hp => ?_, hsource.size, hsource.bounded⟩
    unfold PartIntact
    rw [h3.files]
    exact hsource.parts p hp
  obtain ⟨hdata, -⟩ := (ensures_readSourceRange hthere hle hlt).ok hread
  rw [hbytes] at hdata
  subst hdata
  exact ⟨src, range, w4, hsrc, hrange, h4, h.1, h.2.1⟩

end

end S3lite
