/-
  S3lite.Vault.Steps — what a request's effects do to the vault that is shown.

  - `Shows.refused`, `Shows.untouched`: nothing is stored.
  - `Shows.collected`: what is collected is in no row, so nothing that is shown goes with it.
  - `Shows.puts`, `Shows.opens`, `Shows.removes`: a row stored or removed, and what that freed
    collected.
-/
import S3lite.Vault.Shows
import S3lite.Vault.Effects
import S3lite.Safety.Versions

namespace S3lite

open Handler

section
variable {env : Env} {w w' : World} {s : Vault}

/-- A part that a row references has a live row of its own. -/
theorem Steady.live_row {g : Ghost} {gr : Ground} (h : Steady env w g gr) {r : Bytes × Manifest} (hr : r ∈ w.db.objects.rows)
    {p : PartRef} (hp : p ∈ r.2.parts) : ∃ e, w.db.parts.get p.hash = some e ∧ e.state = .live := by
  obtain ⟨e, he, -, hlive⟩ := (h.interlock.counted p.hash).row (refs_pos.mpr ⟨r, hr, p, hp, rfl⟩)
  exact ⟨e, he, hlive⟩

/-! ## Files -/

theorem Shows.untouched (hs : Shows env w s) (h : Untouched w w') (hclock : w.clock ≤ w'.clock) : Shows env w' s := by
  refine hs.files ?_ ?_ hclock fun r _ p _ => by rw [h.files]
  · rw [h.db]
  · rw [h.db]

theorem Shows.later (hs : Shows env w s) (h : Later w w') : Shows env w' s := hs.untouched h.untouched h.clock

/-- New bytes change no file that there is. -/
theorem keepsFiles_writePart {g : Ghost} {gr : Ground} (hsteady : Steady env w g gr) {data : Bytes}
    (hfiles : w'.files = (writePart env w.files data).2) : KeepsFiles w w' := by
  intro r hr p hp
  obtain ⟨bytes, hbytes⟩ := hsteady.file hr hp
  rw [hfiles, writePart_get, if_neg]
  rw [hbytes]
  exact fun hnew => by cases hnew.2

theorem Shows.refused (hs : Shows env w s) {g : Ghost} {gr : Ground} (hsteady : Steady env w g gr) {data : Bytes}
    (h : Refused env data w w') : Shows env w' s := by
  have hkeeps : KeepsFiles w w' := by
    rcases h.files with hfiles | hfiles
    · exact fun r _ p _ => by rw [hfiles]
    · exact keepsFiles_writePart hsteady hfiles
  refine hs.files ?_ ?_ h.clock hkeeps
  · rw [h.db]
  · rw [h.db]

/-- What is collected is referenced by no row. -/
theorem Shows.collected (hs : Shows env w s) {freed : List Hash} (hc : Collected freed w w') {g : Ghost} {gr : Ground}
    (hsteady : Steady env w' g gr) : Shows env w' s := by
  refine hs.files hc.objects hc.buckets hc.clock fun r hr p hp => ?_
  obtain ⟨e, he, -⟩ := hsteady.live_row (hc.objects.symm ▸ hr) hp
  refine (hc.kept p.hash fun hm ho => ?_).2
  rw [(hc.gone p.hash hm ho).1] at he
  cases he

/-- The bytes just written are those under their hash, unless others are. -/
theorem writePart_content {data : Bytes} (h : NoCollision env w (.writeBytes data)) :
    (writePart env w.files data).2.get (env.blake3 data) = some data := by
  rw [writePart_get]
  cases hfile : w.files.get (env.blake3 data) with
  | none => rw [if_pos ⟨rfl, rfl⟩]
  | some bytes =>
    rw [if_neg (fun hnew => by cases hnew.2), h data rfl bytes hfile]

theorem Tidy.same {gs : Nat → Ghost} (h : Tidy env w gs) (hdb : w'.db = w.db) (huuids : w'.uuids = w.uuids) : Tidy env w' gs := by
  obtain ⟨hrows, hreading, hdrawn, hunstored, hunread, howned⟩ := h
  rw [← hdb, ← huuids] at hrows
  rw [← huuids] at hreading hdrawn
  rw [← hdb] at hunstored
  exact ⟨hrows, hreading, hdrawn, hunstored, hunread, howned⟩

/-! ## Version ids -/

section
variable (hs : Shows env w s) {gs : Nat → Ghost} (ht : Tidy env w gs) {bucket key : Str}
include hs ht

theorem Shows.free_of_none {id : Str} (hslot : w.db.objects.get (ManifestKey.mk bucket key id).encode = none) :
    s.Fresh bucket key id := by
  refine ⟨hs.id_ne ht.wellKeyed fun m hm => ?_, ?_⟩
  · rw [hslot] at hm
    cases hm
  · rw [hs.uploads bucket key id]
    unfold uploadAt
    rw [hslot]
    rfl

/-- The id a request gives a new version. -/
theorem Shows.names (henv : env.Sane) (hb : NulFree bucket) (hk : NulFree key) {cfg : BucketConfig}
    (hcfg : w.db.buckets.get bucket = some cfg) : s.Names bucket key (versionIdFor env w cfg.versioning) := by
  have hv := hs.versioning bucket
  rw [hcfg, Option.map_some] at hv
  unfold Vault.Names
  rw [hv]
  cases cfg.versioning with
  | off => rfl
  | suspended => rfl
  | enabled => exact hs.free_of_none ht (drawn_is_new henv ht hb hk)

end

/-- No upload is under "null", or under an id that is drawn next. -/
theorem Tidy.no_upload {gs : Nat → Ghost} (ht : Tidy env w gs) (henv : env.Sane) {bucket key : Str} (hb : NulFree bucket) (hk : NulFree key)
    (v : VersioningState) : uploadAt w bucket key (versionIdFor env w v) = none := by
  have hnull : uploadAt w bucket key nullVersionId = none := by
    unfold uploadAt
    rw [Option.filter_eq_none_iff]
    intro m hm hs
    obtain ⟨hslot, hrow⟩ := ht.row hm
    have hkey := ht.wellKeyed.key_of_get hm
    have hstate : m.state = .inProgress := by
      cases hst : m.state with
      | inProgress => rfl
      | committed => simp [hst] at hs
      | aborted => exact absurd hst hrow.settled
    exact (hrow.upload hstate).1 (by rw [hkey])
  cases v with
  | off => exact hnull
  | suspended => exact hnull
  | enabled =>
    unfold uploadAt
    rw [show versionIdFor env w .enabled = env.uuid w.uuids from rfl, drawn_is_new henv ht hb hk]
    rfl

/-- Every row is older than what is modified now. -/
theorem Shows.older (hs : Shows env w s) (hclock : StrictMono env.now) {n : Nat} (hn : w.clock ≤ n) :
    ∀ r ∈ w.db.objects.rows, r.2.lastModified < env.now n := by
  intro r hr
  obtain ⟨k, hk, htime⟩ := hs.times r hr
  rw [htime]
  exact hclock (by omega)

/-! ## Rows -/

/-- The world after a transaction that has left these rows. -/
def World.storing (w : World) (objects : Objects) (parts : Parts) : World :=
  { w with db := { w.db with objects := objects, parts := parts }, clock := w.clock + 2 }

theorem WellKeyed.insert {db db' : Db} (hdb : WellKeyed db) {m : Manifest} (hclear : m.key.NulFree)
    (hobjects : db'.objects = db.objects.insert m.key.encode m) : WellKeyed db' := by
  intro r hr
  rw [hobjects] at hr
  rcases Table.mem_insert.mp hr with rfl | ⟨hr, -⟩
  · exact ⟨rfl, hclear⟩
  · exact hdb r hr

section
variable (hs : Shows env w s) (hdb : WellKeyed w.db) {g : Ghost} {gr : Ground}
include hs hdb

theorem Shows.puts (hsteady : Steady env w' g gr) {m : Manifest} (hp : Puts env m w w') (hcommitted : m.state = .committed)
    (htime : ∃ n < w.clock, m.lastModified = env.now n) (hlater : ∀ r ∈ w.db.objects.rows, r.2.lastModified < m.lastModified)
    (hdigest : ∀ p ∈ m.parts, p.md5 = env.md5 (contentOf w p)) (hslot : uploadAt w m.key.bucket m.key.key m.key.versionId = none) :
    Shows env w' (s.write m.key.bucket m.key.key (shown w m)) := by
  obtain ⟨effect, db', hput, hgc⟩ := hp
  obtain ⟨parts, -, -, rfl⟩ := put_ok hput
  obtain ⟨n, hn, htime⟩ := htime
  refine Shows.collected ?_ hgc hsteady
  refine hs.insertVersion hdb hcommitted rfl rfl rfl ?_ ⟨n, ?_, htime⟩ hlater hdigest hslot
  · exact Nat.le_add_right ..
  · show n < w.clock + 2
    omega

theorem Shows.opens (hsteady : Steady env w' g gr) {m : Manifest} (hp : Puts env m w w') (hclear : m.key.NulFree)
    (huncommitted : m.state ≠ .committed) (htime : ∃ n < w.clock, m.lastModified = env.now n) (hparts : m.parts = [])
    (hslot : w.db.objects.get m.key.encode = none) :
    Shows env w' (s.setUpload m.key.bucket m.key.key m.key.versionId (some fun _ => none)) := by
  obtain ⟨effect, db', hput, hgc⟩ := hp
  obtain ⟨parts, -, -, rfl⟩ := put_ok hput
  obtain ⟨n, hn, htime⟩ := htime
  refine Shows.collected ?_ hgc hsteady
  have hpieces : ∀ w1 : World, piecesOf w1 m = fun _ => none := by
    intro w1
    funext n
    unfold piecesOf
    rw [hparts]
    rfl
  have hnone : ∀ p ∈ m.parts, p.md5 = env.md5 (contentOf w p) := by
    rw [hparts]
    exact fun p hp => absurd hp List.not_mem_nil
  have hinsert : Shows env (w.storing (w.db.objects.insert m.key.encode m) (decAll parts (oldParts (w.db.objects.get m.key.encode))).1)
      (s.setUpload m.key.bucket m.key.key m.key.versionId
        (some (piecesOf (w.storing (w.db.objects.insert m.key.encode m) (decAll parts (oldParts (w.db.objects.get m.key.encode))).1) m))) := by
    refine hs.insertUpload hdb hclear huncommitted rfl rfl rfl (Nat.le_add_right ..) ⟨n, ?_, htime⟩ hnone ?_ fun old hold => ?_
    · exact Nat.lt_add_right 2 hn
    · rw [hparts]
      exact List.Pairwise.nil
    · rw [hslot] at hold
      cases hold
  rw [hpieces] at hinsert
  exact hinsert

/-- A row goes, or there was none. -/
theorem Shows.removes (hsteady : Steady env w' g gr) {k : ManifestKey} {removed : Bool} (h : Removes k w removed w') :
    Shows env w' (s.remove k.bucket k.key k.versionId) := by
  unfold Removes at h
  cases hrow : w.db.objects.get k.encode with
  | none =>
    rw [hrow] at h
    obtain ⟨-, rfl⟩ := h
    exact hs.erase hdb (Table.erase_of_none hrow).symm rfl rfl (Nat.le_add_right ..)
  | some m =>
    rw [hrow] at h
    obtain ⟨-, effect, db', hdelete, hgc⟩ := h
    obtain ⟨m', -, -, rfl⟩ := delete_ok hdelete
    refine Shows.collected ?_ hgc hsteady
    exact hs.erase hdb rfl rfl rfl (Nat.le_add_right ..)

end

end

end S3lite
