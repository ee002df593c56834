/-
  S3lite.Vault.Shows — the vault that a world shows.

  The versions of a key are the committed manifests of its rows by `last_modified`, newest
  first, with the bytes of their parts' files; the uploads are the other rows.
  - `Shows`: the relation, with what it needs of the rows: their times have passed, and their
    parts' MD5s are those of the files.
  - `Shows.files`: the files of no referenced part change.
  - `Shows.insertVersion`, `Shows.insertUpload`, `Shows.erase`, `Shows.edit`, `Shows.configure`:
    one row changes, or one bucket.
  - `look_shown`: what a lookup in the rows finds is what the vault finds.
-/
import S3lite.Vault.Store
import S3lite.Listing.Versions

namespace S3lite

/-- The bytes of a part. -/
def contentOf (w : World) (p : PartRef) : Bytes := (w.files.get p.hash).getD []

/-- The version that a manifest is. -/
def shown (w : World) (m : Manifest) : Version Str Bytes :=
  ⟨m.key.versionId, if m.kind = .object then some (objectBytes w m) else none⟩

/-- The parts of an upload, by number. -/
def piecesOf (w : World) (m : Manifest) (n : Nat) : Option Bytes :=
  (m.parts.find? fun p => p.partNumber = n).map (contentOf w)

/-- Each number once, in order. -/
def Ascending (parts : List PartRef) : Prop := parts.Pairwise fun p q => p.partNumber < q.partNumber

/-- The history lists the committed manifests of the key, newest first. -/
def Ages (w : World) (bucket key : Str) (h : History Str Bytes) : Prop :=
  ∃ ms : List Manifest, NewestFirst (·.lastModified) ms ∧ (∀ m, m ∈ ms ↔ m ∈ versionsOf w.db bucket key) ∧ h = ms.map (shown w)

/-- The upload in the row. -/
def uploadAt (w : World) (bucket key id : Str) : Option Manifest :=
  (w.db.objects.get (ManifestKey.mk bucket key id).encode).filter fun m => m.state ≠ .committed

structure Shows (env : Env) (w : World) (s : Vault) : Prop where
  versioning : ∀ bucket, s.versioning bucket = (w.db.buckets.get bucket).map (·.versioning)
  history : ∀ bucket key, Ages w bucket key (s.history bucket key)
  uploads : ∀ bucket key id, s.uploads bucket key id = (uploadAt w bucket key id).map (piecesOf w)
  /-- Every row was modified before. -/
  times : ∀ r ∈ w.db.objects.rows, ∃ n < w.clock, r.2.lastModified = env.now n
  digests : ∀ r ∈ w.db.objects.rows, ∀ p ∈ r.2.parts, p.md5 = env.md5 (contentOf w p)
  /-- An upload's parts are kept by ascending number. -/
  ascending : ∀ r ∈ w.db.objects.rows, r.2.state ≠ .committed → Ascending r.2.parts

/-- The files of referenced parts are the same. -/
def KeepsFiles (w w' : World) : Prop :=
  ∀ r ∈ w.db.objects.rows, ∀ p ∈ r.2.parts, w'.files.get p.hash = w.files.get p.hash

section
variable {env : Env} {w w' : World} {s : Vault} {bucket key : Str} {h : History Str Bytes}

theorem partBytes_eq (w : World) (parts : List PartRef) : partBytes w parts = parts.map (contentOf w) := rfl

@[simp] theorem shown_id (w : World) (m : Manifest) : (shown w m).id = m.key.versionId := rfl

theorem Shows.empty (env : Env) : Shows env .empty .empty where
  versioning := fun _ => rfl
  history := fun _ _ => ⟨[], .nil, fun _ => Iff.rfl, rfl⟩
  uploads := fun _ _ _ => rfl
  times := fun _ hr => absurd hr List.not_mem_nil
  digests := fun _ hr => absurd hr List.not_mem_nil
  ascending := fun _ hr => absurd hr List.not_mem_nil

/-! ## Contents -/

theorem objectBytes_congr {m m' : Manifest} (hparts : m'.parts = m.parts)
    (hsame : ∀ p ∈ m.parts, w'.files.get p.hash = w.files.get p.hash) : objectBytes w' m' = objectBytes w m := by
  unfold objectBytes
  rw [partBytes_eq, partBytes_eq, hparts]
  congr 1
  refine List.map_congr_left fun p hp => ?_
  unfold contentOf
  rw [hsame p hp]

/-- A manifest of the same key, kind and parts is the same version. -/
theorem shown_congr {m m' : Manifest} (hkey : m'.key = m.key) (hkind : m'.kind = m.kind) (hparts : m'.parts = m.parts)
    (hsame : ∀ p ∈ m.parts, w'.files.get p.hash = w.files.get p.hash) : shown w' m' = shown w m := by
  unfold shown
  rw [hkey, hkind, objectBytes_congr hparts hsame]

theorem piecesOf_congr {m m' : Manifest} (hparts : m'.parts = m.parts)
    (hsame : ∀ p ∈ m.parts, w'.files.get p.hash = w.files.get p.hash) : piecesOf w' m' = piecesOf w m := by
  funext n
  unfold piecesOf
  rw [hparts]
  cases hfind : m.parts.find? fun p => p.partNumber = n with
  | none => rfl
  | some p =>
    rw [Option.map_some, Option.map_some]
    unfold contentOf
    rw [hsame p (List.mem_of_find?_eq_some hfind)]

/-! ## Histories -/

theorem Ages.kept (ha : Ages w bucket key h) (hmem : ∀ m, m ∈ versionsOf w'.db bucket key ↔ m ∈ versionsOf w.db bucket key)
    (hshown : ∀ m ∈ versionsOf w.db bucket key, shown w' m = shown w m) : Ages w' bucket key h := by
  obtain ⟨ms, hsorted, hms, rfl⟩ := ha
  refine ⟨ms, hsorted, fun m => (hms m).trans (hmem m).symm, ?_⟩
  exact List.map_congr_left fun m hm => (hshown m ((hms m).mp hm)).symm

theorem Ages.forgot (ha : Ages w bucket key h) {id : Str}
    (hmem : ∀ m, m ∈ versionsOf w'.db bucket key ↔ m ∈ versionsOf w.db bucket key ∧ m.key.versionId ≠ id)
    (hshown : ∀ m ∈ versionsOf w.db bucket key, shown w' m = shown w m) : Ages w' bucket key (h.forget id) := by
  obtain ⟨ms, hsorted, hms, rfl⟩ := ha
  refine ⟨ms.filter fun m => m.key.versionId ≠ id, hsorted.filter _, fun m => ?_, ?_⟩
  · rw [List.mem_filter, hms, hmem, decide_eq_true_eq]
  · rw [← map_forget (shown_id w)]
    refine List.map_congr_left fun m hm => (hshown m ((hms m).mp (List.mem_of_mem_filter hm))).symm

/-- A manifest later than the others comes in front. -/
theorem Ages.recorded (ha : Ages w bucket key h) {m : Manifest}
    (hmem : ∀ x, x ∈ versionsOf w'.db bucket key ↔ x = m ∨ x ∈ versionsOf w.db bucket key ∧ x.key.versionId ≠ m.key.versionId)
    (hlater : ∀ x ∈ versionsOf w.db bucket key, x.lastModified < m.lastModified)
    (hshown : ∀ m ∈ versionsOf w.db bucket key, shown w' m = shown w m) : Ages w' bucket key (h.record (shown w' m)) := by
  obtain ⟨ms, hsorted, hms, rfl⟩ := ha
  refine ⟨m :: ms.filter fun x => x.key.versionId ≠ m.key.versionId, ?_, fun x => ?_, ?_⟩
  · refine (hsorted.filter _).cons fun x hx => hlater x ?_
    exact (hms x).mp (List.mem_of_mem_filter hx)
  · rw [List.mem_cons, List.mem_filter, hms, hmem, decide_eq_true_eq]
  · rw [History.record_eq, List.map_cons, shown_id, ← map_forget (shown_id w)]
    congr 1
    refine List.map_congr_left fun x hx => (hshown x ((hms x).mp (List.mem_of_mem_filter hx))).symm

/-- The manifests are edited, and show the same. -/
theorem Ages.edited (ha : Ages w bucket key h) {f : Manifest → Manifest}
    (hmem : ∀ x, x ∈ versionsOf w'.db bucket key ↔ ∃ m ∈ versionsOf w.db bucket key, x = f m)
    (htime : ∀ m, (f m).lastModified = m.lastModified) (hshown : ∀ m, shown w' (f m) = shown w m) : Ages w' bucket key h := by
  obtain ⟨ms, hsorted, hms, rfl⟩ := ha
  refine ⟨ms.map f, hsorted.map htime, fun x => ?_, ?_⟩
  · rw [List.mem_map, hmem]
    constructor
    · intro hx
      obtain ⟨m, hm, rfl⟩ := hx
      exact ⟨m, (hms m).mp hm, rfl⟩
    · intro hx
      obtain ⟨m, hm, rfl⟩ := hx
      exact ⟨m, (hms m).mpr hm, rfl⟩
  · rw [List.map_map]
    exact List.map_congr_left fun m _ => (hshown m).symm

/-! ## Rows -/

section
variable {db db' : Db} {m x : Manifest} {key' : ManifestKey}

theorem WellKeyed.slot_iff (hdb : WellKeyed db) {r : Bytes × Manifest} (hr : r ∈ db.objects.rows) (k : ManifestKey) :
    r.1 = k.encode ↔ r.2.key = k := by
  obtain ⟨hslot, hclear⟩ := hdb r hr
  constructor
  · intro hk
    exact (eq_of_encode hclear (hk.symm.trans hslot)).symm
  · intro hk
    rw [hslot, hk]

theorem WellKeyed.key_of_get (hdb : WellKeyed db) {k : ManifestKey} (hm : db.objects.get k.encode = some m) : m.key = k :=
  (hdb.slot_iff (Table.mem_rows.mpr hm) k).mp rfl

/-- The versions of a key once a row is written. -/
theorem mem_versionsOf_insert (hdb : WellKeyed db) (hobjects : db'.objects = db.objects.insert m.key.encode m) :
    x ∈ versionsOf db' bucket key ↔ (x = m ∧ m.state = .committed ∧ m.key.bucket = bucket ∧ m.key.key = key) ∨
      x ∈ versionsOf db bucket key ∧ x.key ≠ m.key := by
  rw [mem_versionsOf, mem_versionsOf, hobjects]
  constructor
  · intro hx
    obtain ⟨⟨slot, hrow⟩, hs, hb, hk⟩ := hx
    rcases Table.mem_insert.mp hrow with e | ⟨hrow, hne⟩
    · cases e
      exact Or.inl ⟨rfl, hs, hb, hk⟩
    · exact Or.inr ⟨⟨⟨slot, hrow⟩, hs, hb, hk⟩, fun e => hne ((hdb.slot_iff hrow m.key).mpr e)⟩
  · intro hx
    rcases hx with ⟨rfl, hs, hb, hk⟩ | ⟨⟨⟨slot, hrow⟩, hs, hb, hk⟩, hne⟩
    · exact ⟨⟨_, Table.mem_insert.mpr (Or.inl rfl)⟩, hs, hb, hk⟩
    · exact ⟨⟨slot, Table.mem_insert.mpr (Or.inr ⟨hrow, fun e => hne ((hdb.slot_iff hrow m.key).mp e)⟩)⟩, hs, hb, hk⟩

theorem mem_versionsOf_erase (hdb : WellKeyed db) (hobjects : db'.objects = db.objects.erase key'.encode) :
    x ∈ versionsOf db' bucket key ↔ x ∈ versionsOf db bucket key ∧ x.key ≠ key' := by
  rw [mem_versionsOf, mem_versionsOf, hobjects]
  constructor
  · intro hx
    obtain ⟨⟨slot, hrow⟩, hrest⟩ := hx
    obtain ⟨hrow, hne⟩ := Table.mem_erase.mp hrow
    exact ⟨⟨⟨slot, hrow⟩, hrest⟩, fun e => hne ((hdb.slot_iff hrow key').mpr e)⟩
  · intro hx
    obtain ⟨⟨⟨slot, hrow⟩, hrest⟩, hne⟩ := hx
    exact ⟨⟨slot, Table.mem_erase.mpr ⟨hrow, fun e => hne ((hdb.slot_iff hrow key').mp e)⟩⟩, hrest⟩

/-- In one key, versions differ by their ids. -/
theorem key_ne_iff (hx : x ∈ versionsOf db key'.bucket key'.key) : x.key ≠ key' ↔ x.key.versionId ≠ key'.versionId := by
  obtain ⟨-, -, hb, hk⟩ := mem_versionsOf.mp hx
  rw [not_iff_not]
  constructor
  · intro e
    rw [e]
  · intro e
    cases hkey : x.key
    cases key'
    rw [hkey] at hb hk e
    cases hb
    cases hk
    cases e
    rfl

theorem key_ne_of_versionsOf (hx : x ∈ versionsOf db bucket key) (hne : ¬ (bucket = key'.bucket ∧ key = key'.key)) : x.key ≠ key' := by
  obtain ⟨-, -, hb, hk⟩ := mem_versionsOf.mp hx
  intro e
  rw [e] at hb hk
  exact hne ⟨hb.symm, hk.symm⟩

end

/-! ## One change -/

section
variable (hs : Shows env w s)
include hs

/-- The rows stay, and so do the files of their parts. -/
theorem Shows.files (hobjects : w'.db.objects = w.db.objects) (hbuckets : w'.db.buckets = w.db.buckets)
    (hclock : w.clock ≤ w'.clock) (hkeeps : KeepsFiles w w') : Shows env w' s := by
  have hrow : ∀ r ∈ w'.db.objects.rows, r ∈ w.db.objects.rows := fun r hr => hobjects ▸ hr
  have hcontent : ∀ r ∈ w.db.objects.rows, ∀ p ∈ r.2.parts, contentOf w' p = contentOf w p := by
    intro r hr p hp
    unfold contentOf
    rw [hkeeps r hr p hp]
  refine ⟨fun b => ?_, fun b k => ?_, fun b k id => ?_, fun r hr => ?_, fun r hr p hp => ?_, fun r hr => ?_⟩
  · rw [hbuckets]
    exact hs.versioning b
  · have hsame : versionsOf w'.db b k = versionsOf w.db b k := by
      unfold versionsOf
      rw [hobjects]
    refine (hs.history b k).kept (fun m => by rw [hsame]) fun m hm => ?_
    obtain ⟨⟨slot, hslot⟩, -⟩ := mem_versionsOf.mp hm
    exact shown_congr rfl rfl rfl fun p hp => hkeeps _ hslot p hp
  · rw [hs.uploads b k id]
    unfold uploadAt
    rw [hobjects]
    cases hup : (w.db.objects.get (ManifestKey.mk b k id).encode).filter fun m => m.state ≠ .committed with
    | none => rfl
    | some up =>
      have hget := (Option.filter_eq_some_iff.mp hup).1
      rw [Option.map_some, Option.map_some, piecesOf_congr rfl fun p hp => hkeeps _ (Table.mem_rows.mpr hget) p hp]
  · obtain ⟨n, hn, htime⟩ := hs.times r (hrow r hr)
    exact ⟨n, by omega, htime⟩
  · rw [hs.digests r (hrow r hr) p hp, hcontent r (hrow r hr) p hp]
  · exact hs.ascending r (hrow r hr)

/-- Only the buckets change. -/
theorem Shows.configure (cfg : BucketConfig) (hobjects : w'.db.objects = w.db.objects)
    (hbuckets : w'.db.buckets = w.db.buckets.insert bucket cfg) (hfiles : w'.files = w.files) (hclock : w.clock ≤ w'.clock) :
    Shows env w' (s.configure bucket (some cfg.versioning)) := by
  have hsame : Shows env { w' with db := { w'.db with buckets := w.db.buckets } } s :=
    hs.files hobjects rfl hclock fun r _ p _ => by rw [hfiles]
  refine ⟨fun b => ?_, hsame.history, hsame.uploads, hsame.times, hsame.digests, hsame.ascending⟩
  unfold Vault.configure
  rw [hbuckets, Table.get_insert]
  by_cases e : b = bucket
  · rw [if_pos e, e]
    exact Function.update_self ..
  · rw [if_neg e]
    exact (Function.update_of_ne e ..).trans (hs.versioning b)

theorem Shows.removeBucket (hobjects : w'.db.objects = w.db.objects)
    (hbuckets : w'.db.buckets = w.db.buckets.erase bucket) (hfiles : w'.files = w.files) (hclock : w.clock ≤ w'.clock) :
    Shows env w' (s.configure bucket none) := by
  have hsame : Shows env { w' with db := { w'.db with buckets := w.db.buckets } } s :=
    hs.files hobjects rfl hclock fun r _ p _ => by rw [hfiles]
  refine ⟨fun b => ?_, hsame.history, hsame.uploads, hsame.times, hsame.digests, hsame.ascending⟩
  unfold Vault.configure
  rw [hbuckets, Table.get_erase]
  by_cases e : b = bucket
  · rw [if_pos e, e]
    exact Function.update_self ..
  · rw [if_neg e]
    exact (Function.update_of_ne e ..).trans (hs.versioning b)

/-- What is known of every row holds of one more. -/
theorem Shows.rows_insert {m : Manifest} (hobjects : w'.db.objects = w.db.objects.insert m.key.encode m)
    (hfiles : w'.files = w.files) (hclock : w.clock ≤ w'.clock) (htime : ∃ n < w'.clock, m.lastModified = env.now n)
    (hdigest : ∀ p ∈ m.parts, p.md5 = env.md5 (contentOf w p))
    (hasc : m.state ≠ .committed → Ascending m.parts) :
    (∀ r ∈ w'.db.objects.rows, ∃ n < w'.clock, r.2.lastModified = env.now n) ∧
      (∀ r ∈ w'.db.objects.rows, ∀ p ∈ r.2.parts, p.md5 = env.md5 (contentOf w' p)) ∧
        ∀ r ∈ w'.db.objects.rows, r.2.state ≠ .committed → Ascending r.2.parts := by
  have hcontent : ∀ p, contentOf w' p = contentOf w p := by
    intro p
    unfold contentOf
    rw [hfiles]
  rw [hobjects]
  refine ⟨fun r hr => ?_, fun r hr p hp => ?_, fun r hr hc => ?_⟩
  · rcases Table.mem_insert.mp hr with rfl | ⟨hr, -⟩
    · exact htime
    · obtain ⟨n, hn, ht⟩ := hs.times r hr
      exact ⟨n, by omega, ht⟩
  · rw [hcontent]
    rcases Table.mem_insert.mp hr with rfl | ⟨hr, -⟩
    · exact hdigest p hp
    · exact hs.digests r hr p hp
  · rcases Table.mem_insert.mp hr with rfl | ⟨hr, -⟩
    · exact hasc hc
    · exact hs.ascending r hr hc

/-- A committed manifest is stored, later than all others, in no upload's place. -/
theorem Shows.insertVersion (hdb : WellKeyed w.db) {m : Manifest} (hcommitted : m.state = .committed)
    (hobjects : w'.db.objects = w.db.objects.insert m.key.encode m) (hbuckets : w'.db.buckets = w.db.buckets)
    (hfiles : w'.files = w.files) (hclock : w.clock ≤ w'.clock) (htime : ∃ n < w'.clock, m.lastModified = env.now n)
    (hlater : ∀ r ∈ w.db.objects.rows, r.2.lastModified < m.lastModified)
    (hdigest : ∀ p ∈ m.parts, p.md5 = env.md5 (contentOf w p)) (hslot : uploadAt w m.key.bucket m.key.key m.key.versionId = none) :
    Shows env w' (s.write m.key.bucket m.key.key (shown w' m)) := by
  obtain ⟨htimes, hdigests, hascending⟩ := hs.rows_insert hobjects hfiles hclock htime hdigest fun hne => absurd hcommitted hne
  have hshown : ∀ x, shown w' x = shown w x := fun x => shown_congr rfl rfl rfl fun p _ => by rw [hfiles]
  refine ⟨fun b => ?_, fun b k => ?_, fun b k id => ?_, htimes, hdigests, hascending⟩
  · rw [hbuckets]
    exact hs.versioning b
  · unfold Vault.write
    by_cases e : b = m.key.bucket ∧ k = m.key.key
    · obtain ⟨rfl, rfl⟩ := e
      simp only [and_self, if_true]
      refine (hs.history _ _).recorded (fun x => ?_) (fun x hx => ?_) fun x _ => hshown x
      · rw [mem_versionsOf_insert hdb hobjects]
        constructor
        · intro hx
          rcases hx with ⟨rfl, -⟩ | ⟨hx, hne⟩
          · exact Or.inl rfl
          · exact Or.inr ⟨hx, (key_ne_iff hx).mp hne⟩
        · intro hx
          rcases hx with rfl | ⟨hx, hne⟩
          · exact Or.inl ⟨rfl, hcommitted, rfl, rfl⟩
          · exact Or.inr ⟨hx, (key_ne_iff hx).mpr hne⟩
      · obtain ⟨⟨slot, hrow⟩, -⟩ := mem_versionsOf.mp hx
        exact hlater _ hrow
    · simp only [if_neg e]
      refine (hs.history b k).kept (fun x => ?_) fun x _ => hshown x
      rw [mem_versionsOf_insert hdb hobjects]
      constructor
      · intro hx
        rcases hx with ⟨-, -, rfl, rfl⟩ | ⟨hx, -⟩
        · exact absurd ⟨rfl, rfl⟩ e
        · exact hx
      · exact fun hx => Or.inr ⟨hx, key_ne_of_versionsOf hx e⟩
  · rw [show (s.write m.key.bucket m.key.key (shown w' m)).uploads b k id = s.uploads b k id from rfl, hs.uploads b k id]
    unfold uploadAt at hslot ⊢
    rw [hobjects, Table.get_insert]
    split
    · rename_i he
      rw [he, Option.filter_some, if_neg (by simpa using hcommitted)]
      rw [hslot]
      rfl
    · cases (w.db.objects.get (ManifestKey.mk b k id).encode).filter fun m => m.state ≠ .committed with
      | none => rfl
      | some up =>
        rw [Option.map_some, Option.map_some, piecesOf_congr rfl fun p _ => by rw [hfiles]]

/-- A manifest that is not committed is stored, in no version's place. -/
theorem Shows.insertUpload (hdb : WellKeyed w.db) {m : Manifest} (hclear : m.key.NulFree) (huncommitted : m.state ≠ .committed)
    (hobjects : w'.db.objects = w.db.objects.insert m.key.encode m) (hbuckets : w'.db.buckets = w.db.buckets)
    (hfiles : w'.files = w.files) (hclock : w.clock ≤ w'.clock) (htime : ∃ n < w'.clock, m.lastModified = env.now n)
    (hdigest : ∀ p ∈ m.parts, p.md5 = env.md5 (contentOf w p))
    (hasc : Ascending m.parts)
    (hslot : ∀ old, w.db.objects.get m.key.encode = some old → old.state ≠ .committed) :
    Shows env w' (s.setUpload m.key.bucket m.key.key m.key.versionId (some (piecesOf w' m))) := by
  obtain ⟨htimes, hdigests, hascending⟩ := hs.rows_insert hobjects hfiles hclock htime hdigest fun _ => hasc
  refine ⟨fun b => ?_, fun b k => ?_, fun b k id => ?_, htimes, hdigests, hascending⟩
  · rw [hbuckets]
    exact hs.versioning b
  · refine (hs.history b k).kept (fun x => ?_) fun x _ => shown_congr rfl rfl rfl fun p _ => by rw [hfiles]
    rw [mem_versionsOf_insert hdb hobjects]
    constructor
    · intro hx
      rcases hx with ⟨-, hc, -⟩ | ⟨hx, -⟩
      · exact absurd hc huncommitted
      · exact hx
    · intro hx
      refine Or.inr ⟨hx, fun e => ?_⟩
      -- the row of the key holds no version
      obtain ⟨⟨slot, hrow⟩, hc, -⟩ := mem_versionsOf.mp hx
      have hget := Table.get_of_mem hrow
      rw [(hdb.slot_iff hrow m.key).mpr e] at hget
      exact hslot x hget hc
  · unfold Vault.setUpload uploadAt
    rw [hobjects, Table.get_insert]
    by_cases e : b = m.key.bucket ∧ k = m.key.key ∧ id = m.key.versionId
    · obtain ⟨rfl, rfl, rfl⟩ := e
      simp only [and_self, if_true]
      rw [Option.filter_some, if_pos (by simpa using huncommitted)]
      rfl
    · simp only [if_neg e]
      rw [hs.uploads b k id]
      unfold uploadAt
      split
      · rename_i he
        -- no other key has the row
        have hk := eq_of_encode hclear he
        exact absurd ⟨congrArg ManifestKey.bucket hk, congrArg ManifestKey.key hk, congrArg ManifestKey.versionId hk⟩ e
      · cases (w.db.objects.get (ManifestKey.mk b k id).encode).filter fun m => m.state ≠ .committed with
        | none => rfl
        | some up =>
          rw [Option.map_some, Option.map_some, piecesOf_congr rfl fun p _ => by rw [hfiles]]

/-- A row goes. -/
theorem Shows.erase (hdb : WellKeyed w.db) {k : ManifestKey} (hobjects : w'.db.objects = w.db.objects.erase k.encode)
    (hbuckets : w'.db.buckets = w.db.buckets) (hfiles : w'.files = w.files) (hclock : w.clock ≤ w'.clock) :
    Shows env w' (s.remove k.bucket k.key k.versionId) := by
  have hrow : ∀ r ∈ w'.db.objects.rows, r ∈ w.db.objects.rows := fun r hr => (Table.mem_erase.mp (hobjects ▸ hr)).1
  have hshown : ∀ x, shown w' x = shown w x := fun x => shown_congr rfl rfl rfl fun p _ => by rw [hfiles]
  have hcontent : ∀ p, contentOf w' p = contentOf w p := by
    intro p
    unfold contentOf
    rw [hfiles]
  refine ⟨fun b => ?_, fun b k' => ?_, fun b k' id => ?_, fun r hr => ?_, fun r hr p hp => ?_, fun r hr => ?_⟩
  · rw [hbuckets]
    exact hs.versioning b
  · unfold Vault.remove
    by_cases e : b = k.bucket ∧ k' = k.key
    · obtain ⟨rfl, rfl⟩ := e
      simp only [and_self, if_true]
      refine (hs.history _ _).forgot (fun x => ?_) fun x _ => hshown x
      rw [mem_versionsOf_erase hdb hobjects]
      exact and_congr_right fun hx => key_ne_iff hx
    · simp only [if_neg e]
      refine (hs.history b k').kept (fun x => ?_) fun x _ => hshown x
      rw [mem_versionsOf_erase hdb hobjects, and_iff_left_iff_imp]
      exact fun hx => key_ne_of_versionsOf hx e
  · unfold Vault.remove Vault.setUpload uploadAt
    rw [hobjects, Table.get_erase]
    by_cases e : b = k.bucket ∧ k' = k.key ∧ id = k.versionId
    · obtain ⟨rfl, rfl, rfl⟩ := e
      simp only [and_self, if_true]
      rfl
    · simp only [if_neg e]
      rw [hs.uploads b k' id]
      unfold uploadAt
      split
      · rename_i he
        cases hget : w.db.objects.get (ManifestKey.mk b k' id).encode with
        | none => rfl
        | some old =>
          have hk := hdb.key_of_get hget
          rw [he] at hget
          rw [hdb.key_of_get hget] at hk
          exact absurd hk fun hk => e (by rw [hk]; exact ⟨rfl, rfl, rfl⟩)
      · cases (w.db.objects.get (ManifestKey.mk b k' id).encode).filter fun m => m.state ≠ .committed with
        | none => rfl
        | some up =>
          rw [Option.map_some, Option.map_some, piecesOf_congr rfl fun p _ => by rw [hfiles]]
  · obtain ⟨n, hn, htime⟩ := hs.times r (hrow r hr)
    exact ⟨n, by omega, htime⟩
  · rw [hcontent]
    exact hs.digests r (hrow r hr) p hp
  · exact hs.ascending r (hrow r hr)

/-- A row is edited in what it does not show. -/
theorem Shows.edit (hdb : WellKeyed w.db) {k : ManifestKey} {m : Manifest} (hm : w.db.objects.get k.encode = some m)
    {f : Manifest → Manifest} (hf : ∀ m, (f m).key = m.key ∧ (f m).state = m.state ∧ (f m).kind = m.kind ∧ (f m).parts = m.parts ∧
      (f m).lastModified = m.lastModified)
    (hobjects : w'.db.objects = w.db.objects.insert k.encode (f m)) (hbuckets : w'.db.buckets = w.db.buckets)
    (hfiles : w'.files = w.files) (hclock : w.clock ≤ w'.clock) : Shows env w' s := by
  obtain ⟨hkey, hstate, hkind, hparts, htime⟩ := hf m
  have hkm := hdb.key_of_get hm
  have hrow := Table.mem_rows.mpr hm
  have hobjects' : w'.db.objects = w.db.objects.insert (f m).key.encode (f m) := by
    rw [hkey, hkm]
    exact hobjects
  have hold := hs.times _ hrow
  obtain ⟨htimes, hdigests, hascending⟩ := hs.rows_insert hobjects' hfiles hclock
    (by
      obtain ⟨n, hn, ht⟩ := hold
      exact ⟨n, by omega, htime.trans ht⟩)
    (fun p hp => hs.digests _ hrow p (hparts ▸ hp))
    (fun hc => by
      rw [hparts]
      exact hs.ascending _ hrow (hstate ▸ hc))
  refine ⟨fun b => ?_, fun b k' => ?_, fun b k' id => ?_, htimes, hdigests, hascending⟩
  · rw [hbuckets]
    exact hs.versioning b
  · refine (hs.history b k').edited (f := fun x => if x.key = k then f x else x) (fun x => ?_) (fun x => ?_) fun x => ?_
    · rw [mem_versionsOf_insert hdb hobjects']
      constructor
      · intro hx
        rcases hx with ⟨rfl, hc, hb, hk⟩ | ⟨hx, hne⟩
        · refine ⟨m, mem_versionsOf.mpr ⟨⟨_, hrow⟩, hstate ▸ hc, hkey ▸ hb, hkey ▸ hk⟩, ?_⟩
          rw [if_pos hkm]
        · rw [hkey, hkm] at hne
          exact ⟨x, hx, (if_neg hne).symm⟩
      · intro hx
        obtain ⟨y, hy, rfl⟩ := hx
        by_cases e : y.key = k
        · -- the row of the key holds this manifest
          obtain ⟨⟨slot, hslot⟩, hc, hb, hk⟩ := mem_versionsOf.mp hy
          have hget := Table.get_of_mem hslot
          rw [(hdb.slot_iff hslot k).mpr e, hm] at hget
          cases hget
          rw [if_pos e]
          exact Or.inl ⟨rfl, hstate.trans hc, hkey ▸ hb, hkey ▸ hk⟩
        · rw [if_neg e]
          exact Or.inr ⟨hy, by rw [hkey, hkm]; exact e⟩
    · split
      · exact (hf x).2.2.2.2
      · rfl
    · split
      · exact shown_congr (hf x).1 (hf x).2.2.1 (hf x).2.2.2.1 fun p _ => by rw [hfiles]
      · exact shown_congr rfl rfl rfl fun p _ => by rw [hfiles]
  · rw [hs.uploads b k' id]
    unfold uploadAt
    rw [hobjects, Table.get_insert]
    split
    · rename_i he
      rw [he, hm]
      by_cases hc : m.state = .committed
      · rw [Option.filter_some, if_neg (by simpa using hc), Option.filter_some, if_neg (by simpa [hstate] using hc)]
        rfl
      · rw [Option.filter_some, if_pos (by simpa using hc), Option.filter_some, if_pos (by simpa [hstate] using hc)]
        exact congrArg some (piecesOf_congr hparts fun p _ => by rw [hfiles]).symm
    · cases (w.db.objects.get (ManifestKey.mk b k' id).encode).filter fun m => m.state ≠ .committed with
      | none => rfl
      | some up =>
        rw [Option.map_some, Option.map_some, piecesOf_congr rfl fun p _ => by rw [hfiles]]

/-! ## Lookups -/

/-- A row that holds an upload holds no version. -/
theorem Shows.id_ne (hdb : WellKeyed w.db) {id : Str}
    (hslot : ∀ m, w.db.objects.get (ManifestKey.mk bucket key id).encode = some m → m.state ≠ .committed) :
    ∀ v ∈ s.history bucket key, v.id ≠ id := by
  obtain ⟨ms, -, hms, he⟩ := hs.history bucket key
  rw [he]
  intro v hv e
  obtain ⟨m, hm, rfl⟩ := List.mem_map.mp hv
  obtain ⟨⟨slot, hrow⟩, hc, hb, hk⟩ := mem_versionsOf.mp ((hms m).mp hm)
  have hkey : m.key = ⟨bucket, key, id⟩ := by
    cases hmk : m.key
    rw [hmk] at hb hk
    rw [shown_id, hmk] at e
    cases hb
    cases hk
    cases e
    rfl
  have hget := Table.get_of_mem hrow
  rw [(hdb.slot_iff hrow _).mpr hkey] at hget
  exact hslot m hget hc

/-- A lookup of the rows finds what a lookup of the vault finds. -/
theorem Shows.look (hdb : WellKeyed w.db) (bucket key : Str) (versionId : Option Str) :
    (s.history bucket key).look versionId =
      ((foundVersion w.db bucket key versionId).filter fun m => m.state = .committed).map (shown w) := by
  obtain ⟨ms, hsorted, hms, he⟩ := hs.history bucket key
  rw [he]
  cases versionId with
  | none =>
    have hlatest : handleGetLatestVersion w.db bucket key = ms.head? := by
      rw [get_latest_eq hdb]
      cases hhead : ms.head? with
      | none =>
        have hnil : versionsOf w.db bucket key = [] := by
          rw [List.eq_nil_iff_forall_not_mem]
          intro m hm
          rw [List.head?_eq_none_iff.mp hhead] at hms
          exact absurd ((hms m).mpr hm) List.not_mem_nil
        rw [hnil]
        rfl
      | some m =>
        obtain ⟨hm, hlater⟩ := hsorted.head_lt hhead
        exact foldl_takeLatest_newest ((hms m).mp hm) fun x hx hne => hlater x ((hms x).mpr hx) hne
    show (ms.map (shown w)).head? = ((handleGetLatestVersion w.db bucket key).filter _).map (shown w)
    rw [hlatest, List.head?_map]
    cases hhead : ms.head? with
    | none => rfl
    | some m =>
      have hc := (mem_versionsOf.mp ((hms m).mp (hsorted.head_lt hhead).1)).2.1
      rw [Option.filter_some, if_pos (by simpa using hc)]
  | some id =>
    have hkey : ∀ m ∈ ms, m.key = ⟨bucket, key, m.key.versionId⟩ := by
      intro m hm
      obtain ⟨-, -, hb, hk⟩ := mem_versionsOf.mp ((hms m).mp hm)
      cases hmk : m.key
      rw [hmk] at hb hk
      cases hb
      cases hk
      rfl
    have hget : ∀ m ∈ ms, w.db.objects.get (ManifestKey.mk bucket key m.key.versionId).encode = some m := by
      intro m hm
      obtain ⟨⟨slot, hrow⟩, -⟩ := mem_versionsOf.mp ((hms m).mp hm)
      have hslot := Table.get_of_mem hrow
      rw [(hdb.slot_iff hrow _).mpr (hkey m hm)] at hslot
      exact hslot
    show _ = ((w.db.objects.get (ManifestKey.mk bucket key id).encode).filter _).map (shown w)
    cases hrow : (w.db.objects.get (ManifestKey.mk bucket key id).encode).filter fun m => m.state = .committed with
    | none =>
      refine look_map_none (shown_id w) fun m hm e => ?_
      have hm' := hget m hm
      have hc := (mem_versionsOf.mp ((hms m).mp hm)).2.1
      rw [e] at hm'
      rw [hm', Option.filter_some, if_pos (by simpa using hc)] at hrow
      cases hrow
    | some m =>
      obtain ⟨hm, hc⟩ := Option.filter_eq_some_iff.mp hrow
      have hmk := hdb.key_of_get hm
      have hmem : m ∈ ms := (hms m).mpr (mem_versionsOf.mpr ⟨⟨_, Table.mem_rows.mpr hm⟩, of_decide_eq_true hc, by rw [hmk], by rw [hmk]⟩)
      refine look_map (shown_id w) (fun a ha b hb e => ?_) hmem (by rw [hmk])
      have ha' := hget a ha
      rw [e, hget b hb] at ha'
      exact (Option.some.inj ha').symm

end

end

end S3lite
