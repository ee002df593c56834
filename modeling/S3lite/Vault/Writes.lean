/-
  S3lite.Vault.Writes — the requests that write and remove rows, each against the vault.

  - `simulates_putObject`, `simulates_copyObject`, `simulates_deleteObject`: a version recorded,
    or removed.
  - `simulates_createMultipartUpload`, `simulates_uploadPart`, `simulates_uploadPartCopy`,
    `simulates_completeMultipartUpload`, `simulates_abortMultipartUpload`: an upload from its
    start to its end.
  - `simulates_request`: every request.
-/
import S3lite.Vault.Requests

namespace S3lite

open Handler

section
variable {env : Env} {w w' : World} {s : Vault} {bucket key id : Str} {headers : HeaderMap} {source : CopySource} {body : Bytes}

theorem Request.WellFormed.object {r : Request} (h : r.WellFormed) (hnames : r.names = [bucket, key]) : NulFree bucket ∧ NulFree key := by
  unfold Request.WellFormed at h
  rw [hnames] at h
  exact ⟨h _ (List.mem_cons_self ..), h _ (List.mem_cons_of_mem _ (List.mem_singleton_self _))⟩

theorem clock_le_of_run {α : Type} {x : Handler α} {answer : Except Failure α} (h : run env x w = (answer, w')) : w.clock ≤ w'.clock := by
  have hle := @clock_le_handler env α x w
  rw [h] at hle
  exact hle

section
variable {r : Request} {answer : Except Failure Response} (h : Settled env w r) (hrun : run env (r.handler env) w = (answer, w'))
include h hrun

theorem Settled.steady_after : Steady env w' .start .start := by
  have hafter := h.after
  rw [hrun] at hafter
  exact hafter

/-- A manifest is stored under the next version id. -/
theorem Settled.puts (hs : Shows env w s) {w1 : World} (hs1 : Shows env w1 s) (hdb : w1.db = w.db) {n : Nat} (hread : w.clock ≤ n)
    (hn : n < w1.clock) (hb : NulFree bucket) (hk : NulFree key) {v : VersioningState} {m : Manifest} (hputs : Puts env m w1 w')
    (hkey : m.key = ⟨bucket, key, versionIdFor env w v⟩) (hcommitted : m.state = .committed) (htime : m.lastModified = env.now n)
    (hdigest : ∀ p ∈ m.parts, p.md5 = env.md5 (contentOf w1 p)) :
    Shows env w' (s.write bucket key (shown w1 m)) := by
  have hputs' := hs1.puts (by rw [hdb]; exact h.steady.tidy.wellKeyed) (h.steady_after hrun) hputs hcommitted ⟨n, hn, htime⟩
    (by rw [hdb, htime]; exact hs.older h.clock hread) hdigest
    (by
      unfold uploadAt
      rw [hdb, hkey]
      exact h.steady.tidy.no_upload h.sane hb hk v)
  rw [hkey] at hputs'
  exact hputs'

end

/-! ## Objects -/

theorem Shows.writes (hs : Shows env w s) (hfiles : w'.files = (writePart env w.files body).2) (hdb : w'.db = w.db)
    (hclock : w.clock ≤ w'.clock) {g : Ghost} {gr : Ground} (hsteady : Steady env w g gr) : Shows env w' s := by
  refine hs.files ?_ ?_ hclock (keepsFiles_writePart hsteady hfiles)
  · rw [hdb]
  · rw [hdb]

/-- The bytes just written are in the part's file. -/
theorem contentOf_written (hfiles : w'.files = (writePart env w.files body).2) (hnew : NoCollision env w (.writeBytes body)) (n : Nat) :
    contentOf w' (partRef n (writeResult env body)) = body := by
  unfold contentOf
  rw [hfiles, show (partRef n (writeResult env body)).hash = env.blake3 body from rfl, writePart_content hnew]
  rfl

theorem NoCollision.later {w1 : World} (h : NoCollision env w1 (.writeBytes body)) (hl : Later w w1) :
    NoCollision env w (.writeBytes body) := by
  intro data e bytes hbytes
  rw [← hl.files] at hbytes
  exact h data e bytes hbytes

theorem simulates_putObject (h : Settled env w (.putObject bucket key headers body)) (hs : Shows env w s) :
    Simulates env w s (.putObject bucket key headers body) := by
  obtain ⟨hb, hk⟩ := h.wellFormed.object rfl
  have hput := @ensures_putObject env w bucket key headers body
  refine simulates trivial (fun resp w' hrun => ?_) fun e w' hrun => hs.refused h.steady (hput.error hrun)
  obtain ⟨m, w1, hready, hputs⟩ := hput.ok hrun
  obtain ⟨cfg, headerLock, lock, tags, checksum, n, hcfg, -, -, -, hread, hn, rfl⟩ := hready.manifest
  obtain ⟨w2, h2, hfit, -⟩ := putObject_fits h.fits hrun
  have hcontent := contentOf_written hready.files (hfit.collision.later h2) 1
  have hdigest : ∀ p ∈ [partRef 1 (writeResult env body)], p.md5 = env.md5 (contentOf w1 p) := by
    intro p hp
    rw [List.mem_singleton.mp hp, hcontent]
    rfl
  have hshows := h.puts hrun hs (hs.writes hready.files hready.db hready.clock h.steady) hready.db hread hn hb hk hputs rfl rfl rfl hdigest
  have hbytes : objectBytes w1 (singlePutManifest ⟨bucket, key, versionIdFor env w cfg.versioning⟩ (writeResult env body) headers tags
      checksum lock (env.now n)) = body := by
    unfold objectBytes
    rw [partBytes_eq]
    show [contentOf w1 (partRef 1 (writeResult env body))].flatten = body
    rw [hcontent, List.flatten_singleton]
  unfold shown at hshows
  rw [hbytes] at hshows
  exact ⟨_, ⟨_, hs.names h.steady.tidy h.sane hb hk hcfg, rfl⟩, hshows⟩

/-- What is copied is what the vault has. -/
theorem Shows.copied (hs : Shows env w s) (hdb : WellKeyed w.db) {src : Manifest} (hsrc : IsSource w.db source src) :
    s.content source.bucket source.key source.versionId = some (objectBytes w src) := by
  obtain ⟨hfound, hstate, hkind⟩ := hsrc
  unfold Vault.content
  rw [hs.look hdb, hfound, Option.filter_some, if_pos (decide_eq_true hstate), Option.map_some, Option.bind_some, shown, if_pos hkind]

theorem simulates_copyObject (h : Settled env w (.copyObject bucket key source headers)) (hs : Shows env w s) :
    Simulates env w s (.copyObject bucket key source headers) := by
  obtain ⟨hb, hk⟩ := h.wellFormed.object rfl
  have hcopy := @ensures_copyObject env w bucket key source headers
  refine simulates trivial (fun resp w' hrun => ?_) fun e w' hrun => ?_
  · obtain ⟨cfg, src, n, w1, hcfg, hsrc, hready, hputs⟩ := hcopy.ok hrun
    obtain ⟨⟨slot, hslot⟩, -⟩ := h.steady.bucket_of_found hsrc.1
    have hs1 := hs.untouched ⟨hready.db, hready.files⟩ (le_trans hready.read hready.clock.le)
    have hdigest : ∀ p ∈ src.parts, p.md5 = env.md5 (contentOf w1 p) := by
      intro p hp
      unfold contentOf
      rw [hready.files]
      exact hs.digests _ (Table.mem_rows.mpr hslot) p hp
    have hshows := h.puts hrun hs hs1 hready.db hready.read hready.clock hb hk hputs rfl rfl rfl hdigest
    have hbytes : objectBytes w1 (copyManifest src ⟨bucket, key, versionIdFor env w cfg.versioning⟩ headers (env.now n)) =
        objectBytes w src := objectBytes_congr rfl fun p _ => by rw [hready.files]
    unfold shown at hshows
    rw [hbytes] at hshows
    exact ⟨_, ⟨_, _, hs.names h.steady.tidy h.sane hb hk hcfg, hs.copied h.steady.tidy.wellKeyed hsrc, rfl⟩, hshows⟩
  · obtain ⟨hdb, hfiles⟩ := hcopy.error hrun
    exact hs.untouched ⟨hdb, hfiles⟩ (clock_le_of_run hrun)

theorem simulates_deleteObject {versionId : Option Str} (h : Settled env w (.deleteObject bucket key versionId)) (hs : Shows env w s) :
    Simulates env w s (.deleteObject bucket key versionId) := by
  obtain ⟨hb, hk⟩ := h.wellFormed.object rfl
  have hdelete := @ensures_deleteObject env w bucket key versionId
  refine simulates trivial (fun resp w' hrun => ?_) fun e w' hrun => hs.untouched (hdelete.error hrun) (clock_le_of_run hrun)
  obtain ⟨cfg, hcfg, hend⟩ := hdelete.ok hrun
  have hremoves : ∀ {id : Str} {removed : Bool} {w1 : World}, Later w w1 → Removes ⟨bucket, key, id⟩ w1 removed w' →
      Shows env w' (s.remove bucket key id) := fun h1 hr =>
    (hs.later h1).removes (by rw [h1.db]; exact h.steady.tidy.wellKeyed) (h.steady_after hrun) hr
  cases versionId with
  | some vid =>
    obtain ⟨removed, w1, h1, hr⟩ := hend
    exact ⟨_, rfl, hremoves h1 hr⟩
  | none =>
    have hv := hs.versioning bucket
    rw [hcfg, Option.map_some] at hv
    simp only at hend
    simp only [Vault.Becomes, hv, Option.some.injEq]
    by_cases hoff : cfg.versioning = .off
    · rw [if_pos hoff] at hend
      obtain ⟨removed, w1, h1, hr⟩ := hend
      exact ⟨_, by rw [if_pos hoff], hremoves h1 hr⟩
    · rw [if_neg hoff] at hend
      obtain ⟨n, w1, hready, hputs⟩ := hend
      simp only [if_neg hoff]
      have hs1 := hs.untouched ⟨hready.db, hready.files⟩ (le_trans hready.read hready.clock.le)
      have hshows := h.puts hrun hs hs1 hready.db hready.read hready.clock hb hk hputs rfl rfl rfl
        fun p hp => absurd hp List.not_mem_nil
      exact ⟨_, ⟨_, hs.names h.steady.tidy h.sane hb hk hcfg, rfl⟩, hshows⟩

/-! ## Uploads -/

theorem simulates_createMultipartUpload (h : Settled env w (.createMultipartUpload bucket key headers)) (hs : Shows env w s) :
    Simulates env w s (.createMultipartUpload bucket key headers) := by
  obtain ⟨hb, hk⟩ := h.wellFormed.object rfl
  have hdb := h.steady.tidy.wellKeyed
  have hcreate := @ensures_createMultipartUpload env w bucket key headers
  have hv : s.versioning bucket = none ↔ w.db.buckets.get bucket = none := by
    rw [hs.versioning, Option.map_eq_none_iff]
  refine simulates ?_ (fun resp w' hrun => ?_) fun e w' hrun => hs.untouched (hcreate.error hrun).1 (clock_le_of_run hrun)
  · refine succeeds_iff hcreate (fun _ _ hok hnone => ?_) fun _ _ hrefused hsome => hsome (hv.mpr hrefused.2)
    have hsome := hok.2.1
    rw [hv.mp hnone] at hsome
    cases hsome
  · obtain ⟨hresp, -, n, w1, hready, hputs⟩ := hcreate.ok hrun
    have hnew := drawn_is_new h.sane h.steady.tidy hb hk
    have hs1 := hs.untouched ⟨hready.db, hready.files⟩ (le_trans hready.read hready.clock.le)
    have hclear : (ManifestKey.mk bucket key (env.uuid w.uuids)).NulFree := ⟨hb, hk, h.sane.uuid_clear w.uuids⟩
    have hopens := hs1.opens (by rw [hready.db]; exact hdb) (h.steady_after hrun) hputs hclear (fun e => by cases e) ⟨n, hready.clock, rfl⟩
      rfl (by rw [hready.db]; exact hnew)
    exact ⟨_, ⟨_, hresp, hs.free_of_none h.steady.tidy hnew, rfl⟩, hopens⟩

/-- Bytes are stored as a part of an upload. -/
theorem Settled.appends {r : Request} {answer : Except Failure Response} (h : Settled env w r)
    (hrun : run env (r.handler env) w = (answer, w')) (hs : Shows env w s) {n : Nat} {w1 w2 : World} (hl : Later w w1)
    (happends : Appends env ⟨bucket, key, id⟩ (partRef n (writeResult env body)) { w1 with files := (writePart env w.files body).2 } w')
    (hfits : AppendFits env (Fits env) ⟨bucket, key, id⟩ (partRef n (writeResult env body)) body w w2) :
    ∃ u, s.uploads bucket key id = some u ∧
      Shows env w' (s.setUpload bucket key id (some (Function.update u n (some body)))) := by
  obtain ⟨w1', hw1'⟩ : ∃ w1' : World, w1' = { w1 with files := (writePart env w.files body).2 } := ⟨_, rfl⟩
  rw [← hw1'] at happends
  have hfiles : w1'.files = (writePart env w.files body).2 := by rw [hw1']
  have hdb : w1'.db = w.db := by
    rw [hw1']
    exact hl.db
  have hclock : w.clock ≤ w1'.clock := by
    rw [hw1']
    exact hl.clock
  have hs1 := hs.writes hfiles hdb hclock h.steady
  obtain ⟨effect, db', happend, hgc⟩ := happends
  obtain ⟨up, parts, hup, -⟩ := append_ok happend
  have hstate : up.state ≠ .committed := by
    refine hfits.append.2 _ _ up rfl ?_
    show w2.db.objects.get (ManifestKey.mk bucket key id).encode = some up
    rw [hfits.later.db, ← hdb]
    exact hup
  have hcontent := contentOf_written hfiles (hfits.write.1.collision.later hfits.later) n
  have hshows := hs1.appends (by rw [hdb]; exact h.steady.tidy.wellKeyed) (h.steady_after hrun) ⟨effect, db', happend, hgc⟩ hup hstate
    (by rw [hcontent]; rfl)
  rw [hcontent] at hshows
  exact ⟨_, hs1.upload hup hstate, hshows⟩

theorem simulates_uploadPart {n : Nat} (h : Settled env w (.uploadPart bucket key id n headers body)) (hs : Shows env w s) :
    Simulates env w s (.uploadPart bucket key id n headers body) := by
  have hupload := @ensures_uploadPart env w bucket key id n headers body
  refine simulates trivial (fun resp w' hrun => ?_) fun e w' hrun => hs.refused h.steady (hupload.error hrun)
  obtain ⟨w1, hfits⟩ := uploadPart_fits h.fits hrun
  obtain ⟨u, hu, hshows⟩ := h.appends hrun hs (.refl w) (hupload.ok hrun) hfits
  exact ⟨_, ⟨u, hu, rfl⟩, hshows⟩

theorem simulates_uploadPartCopy {n : Nat} (h : Settled env w (.uploadPartCopy bucket key id n source headers)) (hs : Shows env w s) :
    Simulates env w s (.uploadPartCopy bucket key id n source headers) := by
  have hdb := h.steady.tidy.wellKeyed
  have hintact : ∀ src, IsSource w.db source src → Intact w src := by
    intro src hsrc
    obtain ⟨⟨slot, hslot⟩, -⟩ := h.steady.bucket_of_found hsrc.1
    exact h.stocked.intact hslot
  have hcopy := @ensures_uploadPartCopy env w bucket key id n source headers hintact
  refine simulates trivial (fun resp w' hrun => ?_) fun e w' hrun => ?_
  · obtain ⟨src, range, w1, hsrc, hrange, hl, happends⟩ := hcopy.ok hrun
    obtain ⟨src', range', w2, hsrc', hrange', hfits⟩ := uploadPartCopy_fits hintact h.fits hrun
    obtain rfl := hsrc.unique hsrc'
    rw [hrange] at hrange'
    cases hrange'
    obtain ⟨u, hu, hshows⟩ := h.appends hrun hs hl happends hfits
    refine ⟨_, ⟨u, objectBytes w src, range, hu, hs.copied hdb hsrc, ?_, rfl⟩, hshows⟩
    rw [(hintact src hsrc).length]
    exact hrange
  · obtain ⟨data, hrefused⟩ := hcopy.error hrun
    exact hs.refused h.steady hrefused

theorem simulates_completeMultipartUpload (h : Settled env w (.completeMultipartUpload bucket key id body)) (hs : Shows env w s) :
    Simulates env w s (.completeMultipartUpload bucket key id body) := by
  obtain ⟨hb, hk⟩ := h.wellFormed.object rfl
  have hcomplete := @ensures_completeMultipartUpload env w bucket key id body
  have hiff : ∀ pieces, s.Completes env bucket key id body pieces ↔
      ∃ up selected, Completable env w.db bucket key id body up selected ∧ pieces = selected.map (contentOf w) :=
    fun _ => hs.completes_iff h.steady h.stocked
  refine simulates ?_ (fun resp w' hrun => ?_) fun e w' hrun => ?_
  · refine succeeds_iff hcomplete (fun _ _ hok => ?_) fun _ _ hrefused hcan => ?_
    · obtain ⟨up, selected, n, w1, hc, -⟩ := hok
      exact ⟨_, (hiff _).mpr ⟨up, selected, hc, rfl⟩⟩
    · obtain ⟨pieces, hpieces⟩ := hcan
      obtain ⟨up, selected, hc, -⟩ := (hiff pieces).mp hpieces
      exact hrefused.2.2 up selected hc
  · obtain ⟨up, selected, n, w1, hc, hl, hread, hn, hcommits⟩ := hcomplete.ok hrun
    obtain ⟨request, -, -, -, hselected⟩ := hc.request
    have hcommit := (hs.later hl).commits h.sane (h.steady.tidy.same hl.db hl.uuids) (h.steady_after hrun) hb hk
      (by rw [hl.db]; exact hc.row) hc.inProgress (selectParts_subset hselected) (by rw [hl.db]; exact hs.older h.clock hread) hn hcommits
    have hcontent : selected.map (contentOf w1) = selected.map (contentOf w) := by
      unfold contentOf
      rw [hl.files]
    rw [hcontent] at hcommit
    exact ⟨_, ⟨_, (hiff _).mpr ⟨up, selected, hc, rfl⟩, rfl⟩, hcommit⟩
  · obtain ⟨hdb, hfiles, -⟩ := hcomplete.error hrun
    exact hs.untouched ⟨hdb, hfiles⟩ (clock_le_of_run hrun)

theorem simulates_abortMultipartUpload (h : Settled env w (.abortMultipartUpload bucket key id)) (hs : Shows env w s) :
    Simulates env w s (.abortMultipartUpload bucket key id) := by
  have hdb := h.steady.tidy.wellKeyed
  have habort := @ensures_abortMultipartUpload env w bucket key id
  refine simulates ?_ (fun resp w' hrun => ?_) fun e w' hrun => hs.untouched (habort.error hrun).1 (clock_le_of_run hrun)
  · refine succeeds_iff habort (fun _ _ hok => ?_) fun _ _ hrefused hu => ?_
    · obtain ⟨up, w1, hup, hstate, -⟩ := hok
      rw [hs.upload hup (by rw [hstate]; decide)]
      exact Option.some_ne_none _
    · obtain ⟨u, hu⟩ := Option.ne_none_iff_exists'.mp hu
      rw [hs.uploads, Option.map_eq_some_iff] at hu
      obtain ⟨up, hup, -⟩ := hu
      obtain ⟨hrow, hstate⟩ := uploadAt_eq.mp hup
      exact hrefused.2 up hrow (h.steady.tidy.inProgress hrow hstate)
  · obtain ⟨up, w1, hup, hstate, hl, hr⟩ := habort.ok hrun
    have hremoves := (hs.later hl).removes (by rw [hl.db]; exact hdb) (h.steady_after hrun) hr
    have huncommitted : ∀ m, w.db.objects.get (ManifestKey.mk bucket key id).encode = some m → m.state ≠ .committed := by
      intro m hm
      rw [hup] at hm
      cases hm
      rw [hstate]
      decide
    rw [Vault.remove_eq (hs.id_ne hdb huncommitted)] at hremoves
    exact ⟨_, rfl, hremoves⟩

/-! ## Every request -/

theorem simulates_request {r : Request} (h : Settled env w r) (hs : Shows env w s) : Simulates env w s r := by
  cases r with
  | createBucket bucket headers => exact simulates_createBucket hs
  | deleteBucket bucket => exact simulates_deleteBucket h hs
  | putBucketVersioning bucket body => exact simulates_putBucketVersioning hs
  | createMultipartUpload bucket key headers => exact simulates_createMultipartUpload h hs
  | uploadPart bucket key id n headers body => exact simulates_uploadPart h hs
  | uploadPartCopy bucket key id n source headers => exact simulates_uploadPartCopy h hs
  | completeMultipartUpload bucket key id body => exact simulates_completeMultipartUpload h hs
  | abortMultipartUpload bucket key id => exact simulates_abortMultipartUpload h hs
  | putObject bucket key headers body => exact simulates_putObject h hs
  | copyObject bucket key source headers => exact simulates_copyObject h hs
  | deleteObject bucket key versionId => exact simulates_deleteObject h hs
  | getObject bucket key versionId headers => exact simulates_plain h hs rfl (getObject_replies h.steady h.stocked hs)
  | listParts bucket key id => exact simulates_plain h hs rfl (listParts_replies h.steady h.stocked hs)
  | _ => exact simulates_plain h hs rfl trivial

end

end S3lite
