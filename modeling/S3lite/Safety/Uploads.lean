/-
  S3lite.Safety.Uploads — uploading parts, and the versions that are committed already.

  A part is stored in the row that the request's upload id names. Nothing checks that the row
  is an upload's: an upload id may be the version id of an object.
  - `uploads_keep_versions`: as long as no upload id names a committed row, storing a part
    leaves every committed manifest as it is, and every object PUT in one piece is its one
    part, described by its ETag and its checksum.
  - `a_part_joins_an_object`: the upload id "null" adds a part to the object.
-/
import S3lite.Safety.Pool

namespace S3lite

/-! ## An object in one piece -/

/-- The manifest is of one part, the data, and what it says of the object it says of the data. -/
structure Describes (env : Env) (m : Manifest) (data : Bytes) : Prop where
  part : ∃ n, m.parts = [partRef n (writeResult env data)]
  size : m.size = data.length
  checksum : ∀ ac ∈ m.additionalChecksum, Checksum.compute env ac.algorithm data = ac.value

/-- A committed object, when it was PUT in one piece, is described. -/
def Whole (env : Env) (m : Manifest) : Prop :=
  m.state = .committed → m.kind = .object → m.uploadMode = .singlePut → ∃ data, Describes env m data

theorem Describes.etag {env : Env} {m : Manifest} {data : Bytes} (h : Describes env m data) (hmode : m.uploadMode = .singlePut)
    (debug : Bool) : m.etag env.md5 debug = some (etagOfMd5 (env.md5 data)) := by
  obtain ⟨n, hparts⟩ := h.part
  simp [Manifest.etag, hmode, hparts, partRef, writeResult, etagOfMd5]

/-- Its ETag can be computed, in every build. -/
theorem Whole.etag_isSome {env : Env} {m : Manifest} (h : Whole env m) (hs : m.state = .committed) (hk : m.kind = .object)
    (debug : Bool) : (m.etag env.md5 debug).isSome = true := by
  cases hmode : m.uploadMode with
  | singlePut =>
    obtain ⟨data, hdata⟩ := h hs hk hmode
    rw [hdata.etag hmode]
    rfl
  | multipart =>
    unfold Manifest.etag
    rw [hmode]
    rfl

/-- Only the parts, the size, the checksum and the kind of manifest matter. -/
theorem Whole.same {env : Env} {m m' : Manifest} (h : Whole env m) (hs : m'.state = m.state) (hk : m'.kind = m.kind)
    (hmode : m'.uploadMode = m.uploadMode) (hparts : m'.parts = m.parts) (hsize : m'.size = m.size)
    (hchecksum : m'.additionalChecksum = m.additionalChecksum) : Whole env m' := by
  intro hs' hk' hmode'
  obtain ⟨data, hdata⟩ := h (hs ▸ hs') (hk ▸ hk') (hmode ▸ hmode')
  exact ⟨data, hparts ▸ hdata.part, hsize ▸ hdata.size, hchecksum ▸ hdata.checksum⟩

theorem Stores.whole {env : Env} {g : Ghost} {m : Manifest} (h : Stores env g m) (hseen : ∀ src ∈ g.seen, Whole env src) :
    Whole env m := by
  cases h with
  | tombstone key now => exact fun _ hk => by cases hk
  | upload key headers now => exact fun hs => by cases hs
  | single key data headers tags checksum lock now hchecksum => exact fun _ _ _ => ⟨data, ⟨1, rfl⟩, rfl, hchecksum⟩
  | copy src key headers now hsrc hs hk => exact (hseen src hsrc).same hs.symm hk.symm rfl rfl rfl rfl

/-! ## Steps -/

/-- No part is stored in a committed row. -/
def AppendsToUpload (w : World) (op : Op) : Prop :=
  ∀ key part m, op = .metaOp (.appendPart key part) → w.db.objects.get key.encode = some m → m.state ≠ .committed

theorem append_keeps {env : Env} {w : World} {key : ManifestKey} {part : PartRef}
    (h : AppendsToUpload w (.metaOp (.appendPart key part))) {slot : Bytes} {m : Manifest}
    (hm : w.db.objects.get slot = some m) (hs : m.state = .committed) :
    (exec env (.metaOp (.appendPart key part)) w).2.db.objects.get slot = some m := by
  have hstep := exec_objects (.appendPart key part) (env.now w.clock) (env.now (w.clock + 1)) w.db
  show ((MetaOp.appendPart key part).exec (env.now w.clock) (env.now (w.clock + 1)) w.db).2.objects.get slot = some m
  generalize ((MetaOp.appendPart key part).exec (env.now w.clock) (env.now (w.clock + 1)) w.db).2.objects = o at hstep ⊢
  cases hstep with
  | same => exact hm
  | append _ _ m' now _ hm' =>
    have hne : slot ≠ key.encode := by
      intro e
      rw [e, hm'] at hm
      cases hm
      exact h key part _ rfl hm' hs
    rw [Table.get_insert_ne _ _ hne]
    exact hm

theorem whole_step {env : Env} {op : MetaOp} {o o' : Objects} (hs : ObjectsStep op o o') (hrows : ∀ r ∈ o.rows, Whole env r.2)
    (happend : ∀ key part m, op = .appendPart key part → o.get key.encode = some m → m.state ≠ .committed)
    (hput : ∀ m, op = .putManifest m → Whole env m) (hcomplete : ∀ k m, op = .completeMultipartUpload k m → Whole env m)
    (hstate : ∀ k s, op ≠ .updateManifestState k s) : ∀ r ∈ o'.rows, Whole env r.2 := by
  have hinsert : ∀ {slot : Bytes} {m : Manifest}, Whole env m → ∀ r ∈ (o.insert slot m).rows, Whole env r.2 := by
    intro slot m hm r hr
    rcases Table.mem_insert.mp hr with rfl | ⟨hr, -⟩
    · exact hm
    · exact hrows r hr
  cases hs with
  | same => exact hrows
  | put m => exact hinsert (hput m rfl)
  | delete k m _ hm => exact fun r hr => hrows r (Table.mem_erase.mp hr).1
  | state k s => exact absurd rfl (hstate k s)
  | tags k tags m _ hm => exact hinsert ((hrows _ (Table.mem_rows.mpr hm)).same rfl rfl rfl rfl rfl rfl)
  | lock k lock m _ hm => exact hinsert ((hrows _ (Table.mem_rows.mpr hm)).same rfl rfl rfl rfl rfl rfl)
  | append k part m now _ hm => exact hinsert fun hs => absurd hs (happend k part m rfl hm)
  | complete k m up _ hup hp => exact fun r hr => hinsert (hcomplete k m rfl) r (Table.mem_erase.mp hr).1

/-- What a request has read was in a row. -/
theorem mem_seen_next {env : Env} {w : World} (hdb : WellKeyed w.db) {g : Ghost} {op : Op} {m : Manifest}
    (hm : m ∈ (g.next op (exec env op w).1).seen) : m ∈ g.seen ∨ ∃ slot, w.db.objects.get slot = some m := by
  cases op with
  | metaOp op =>
    cases op with
    | getManifest key =>
      rcases List.mem_append.mp hm with hm | hm
      · exact Or.inr ⟨key.encode, Option.mem_toList.mp hm⟩
      · exact Or.inl hm
    | getLatestVersion bucket key =>
      rcases List.mem_append.mp hm with hm | hm
      · obtain ⟨⟨slot, hrow⟩, -⟩ := mem_versionsOf.mp (get_latest_mem hdb (Option.mem_toList.mp hm))
        exact Or.inr ⟨slot, Table.mem_rows.mp hrow⟩
      · exact Or.inl hm
    | markPartGcPending hash =>
      have hseen : ∀ r, (g.nextMeta (.markPartGcPending hash) r).seen = g.seen := by
        intro r
        cases r with
        | error e => rfl
        | ok granted => cases granted <;> rfl
      exact Or.inl (hseen _ ▸ hm)
    | _ => exact Or.inl hm
  | _ => exact Or.inl hm

/-- A file is stored under its hash. -/
def NamedFiles (env : Env) (w : World) : Prop := ∀ hash data, w.files.get hash = some data → env.blake3 data = hash

theorem NamedFiles.step {env : Env} {w : World} (h : NamedFiles env w) (op : Op) : NamedFiles env (exec env op w).2 := by
  cases op with
  | writeBytes data =>
    intro hash d hd
    rw [show (exec env (.writeBytes data) w).2.files = (writePart env w.files data).2 from rfl, writePart_get] at hd
    split at hd
    · rename_i hnew
      cases hd
      exact hnew.1.symm
    · exact h hash d hd
  | deletePart x =>
    intro hash d hd
    rw [show (exec env (.deletePart x) w).2.files = w.files.erase x from rfl, Table.get_erase] at hd
    split at hd
    · cases hd
    · exact h hash d hd
  | _ => exact h

/-! ## Every run -/

/-- What uploads of parts leave alone. -/
structure VersionsKept (env : Env) (c : ServerConfig) : Prop where
  /-- A part about to be stored in an upload leaves every committed manifest as it is. -/
  committed : ∀ i key part k, (c.pool i).2 = .call (.metaOp (.appendPart key part)) k →
    AppendsToUpload c.world (.metaOp (.appendPart key part)) → ∀ slot m, c.world.db.objects.get slot = some m →
      m.state = .committed → (exec env (.metaOp (.appendPart key part)) c.world).2.db.objects.get slot = some m
  /-- An object PUT in one piece is one part, which its ETag and its checksum describe. A file
      under the part's hash has these bytes, unless two contents have one hash. -/
  single : ∀ slot m, c.world.db.objects.get slot = some m → m.state = .committed → m.kind = .object →
    m.uploadMode = .singlePut → ∃ data, Describes env m data ∧
      m.etag env.md5 env.debug = some (etagOfMd5 (env.md5 data)) ∧
      ∀ p ∈ m.parts, ∀ bytes, c.world.files.get p.hash = some bytes →
        bytes = data ∨ bytes ≠ data ∧ env.blake3 bytes = env.blake3 data
  /-- The ETag of every object can be computed, in the store and in what the requests have read. -/
  etag : ∀ m, (∃ slot, c.world.db.objects.get slot = some m) ∨ (∃ i, m ∈ (c.ghosts i).seen) → m.state = .committed →
    m.kind = .object → ∀ debug, (m.etag env.md5 debug).isSome = true

/-- In every run in which no upload id names a committed row. -/
theorem uploads_keep_versions {env : Env} (henv : env.Sane) {c : ServerConfig}
    (h : Running env (Serves env) (fun c _ op => AppendsToUpload c.world op) c) : VersionsKept env c := by
  obtain ⟨-, ⟨hrows, hseen, hfiles⟩, -⟩ := running_sound henv (fun _ hp => hp)
    (I := fun w gs => (∀ r ∈ w.db.objects.rows, Whole env r.2) ∧ (∀ i, ∀ m ∈ (gs i).seen, Whole env m) ∧ NamedFiles env w)
    ⟨fun _ hr => absurd hr List.not_mem_nil, fun _ _ hm => absurd hm List.not_mem_nil, fun _ _ hd => by cases hd⟩
    (fun w gs i hi => by
      refine ⟨hi.1, fun j m hm => ?_, hi.2.2⟩
      by_cases hj : j = i
      · subst hj
        rw [Function.update_self] at hm
        exact absurd hm List.not_mem_nil
      · rw [Function.update_of_ne hj] at hm
        exact hi.2.1 j m hm)
    (fun c i op ht hi hok hguard => by
      obtain ⟨hrows, hseen, hfiles⟩ := hi
      refine ⟨?_, fun j m hm => ?_, hfiles.step op⟩
      · cases op with
        | metaOp op =>
          refine whole_step (exec_objects op _ _ c.world.db) hrows (fun key part m e hm => hguard key part m (by rw [e]) hm) ?_ ?_ ?_
          · rintro m rfl
            exact hok.stores.whole (hseen i)
          · rintro k m rfl
            obtain ⟨-, -, up, selected, now, -, -, -, rfl⟩ := hok
            exact fun _ _ hmode => by cases hmode
          · rintro k s rfl
            exact hok
        | _ => exact hrows
      · by_cases hj : j = i
        · subst hj
          rw [Function.update_self] at hm
          rcases mem_seen_next ht.wellKeyed hm with hm | ⟨slot, hm⟩
          · exact hseen j m hm
          · exact hrows _ (Table.mem_rows.mpr hm)
        · rw [Function.update_of_ne hj] at hm
          exact hseen j m hm) h
  constructor
  · exact fun i key part k _ hup slot m hm hs => append_keeps hup hm hs
  · intro slot m hm hs hk hmode
    obtain ⟨data, hdata⟩ := hrows _ (Table.mem_rows.mpr hm) hs hk hmode
    refine ⟨data, hdata, hdata.etag hmode env.debug, fun p hp bytes hbytes => ?_⟩
    obtain ⟨n, hparts⟩ := hdata.part
    rw [hparts] at hp
    obtain rfl := List.mem_singleton.mp hp
    by_cases e : bytes = data
    · exact Or.inl e
    · exact Or.inr ⟨e, hfiles _ _ hbytes⟩
  · intro m hm hs hk debug
    rcases hm with ⟨slot, hm⟩ | ⟨i, hm⟩
    · exact (hrows _ (Table.mem_rows.mpr hm)).etag_isSome hs hk debug
    · exact (hseen i m hm).etag_isSome hs hk debug

/-! ## The upload id of an object -/

/-- The row a part is stored in is an upload's. -/
def uploadCheck (w : World) : Op → Bool
  | .metaOp (.appendPart key _) => (w.db.objects.get key.encode).all fun m => decide (m.state ≠ .committed)
  | _ => true

theorem appendsToUpload_of_check {w : World} {op : Op} (h : uploadCheck w op = true) : AppendsToUpload w op := by
  rintro key part m rfl hm
  have h : (w.db.objects.get key.encode).all (fun m => decide (m.state ≠ .committed)) = true := h
  rw [hm] at h
  exact of_decide_eq_true h

/-- An object, and an upload of one part under the same key. -/
def uploadedBeside : List Event :=
  [.request 0 (.createBucket (str "bucket") []), .steps 0 2,
    .request 0 (.putObject (str "bucket") (str "k") [] (str "a")), .steps 0 4,
    .request 0 (.createMultipartUpload (str "bucket") (str "k") []), .steps 0 4,
    .request 0 (.uploadPart (str "bucket") (str "k") (str "aaaaa") 2 [] (str "b")), .steps 0 2]

theorem uploads_keep_versions_beside : ∃ c,
    Running sampleEnv (Serves sampleEnv) (fun c _ op => AppendsToUpload c.world op) c ∧
      c.world.db.objects.rows.length = 2 ∧ VersionsKept sampleEnv c := by
  apply running_reaches 1 uploadedBeside (fun c _ op => uploadCheck c.world op)
    fun c => decide (c.world.db.objects.rows.length = 2)
  · exact fun _ _ _ _ h => appendsToUpload_of_check h
  · rfl
  · rfl
  · exact fun c hc hq => ⟨of_decide_eq_true hq, uploads_keep_versions sampleEnv_sane hc⟩

/-- The same part, uploaded to "null". -/
def uploadedToNull : List Event :=
  [.request 0 (.createBucket (str "bucket") []), .steps 0 2,
    .request 0 (.putObject (str "bucket") (str "k") [] (str "a")), .steps 0 4,
    .request 0 (.uploadPart (str "bucket") (str "k") (str "null") 2 [] (str "b")), .steps 0 2]

/-- An object PUT in one piece has two parts. -/
def hasTwoParts (m : Manifest) : Bool :=
  decide (m.state = .committed) && decide (m.kind = .object) && decide (m.uploadMode = .singlePut) && decide (m.parts.length = 2)

theorem a_part_joins_an_object :
    ¬ ∀ c, Running sampleEnv (ServesOnly sampleEnv (fun _ => true) false) (fun _ _ _ => True) c → VersionsKept sampleEnv c := by
  apply running_refutes 1 uploadedToNull (fun _ _ _ => true) fun c => c.world.db.objects.rows.any fun r => hasTwoParts r.2
  · exact fun _ _ _ _ _ => trivial
  · rfl
  · rfl
  · intro c hq hkept
    obtain ⟨r, hr, htwo⟩ := List.any_eq_true.mp hq
    simp only [hasTwoParts, Bool.and_eq_true, decide_eq_true_eq] at htwo
    obtain ⟨data, hdata, -, -⟩ := hkept.single r.1 r.2 (Table.mem_rows.mp hr) htwo.1.1.1 htwo.1.1.2 htwo.1.2
    obtain ⟨n, hparts⟩ := hdata.part
    rw [hparts] at htwo
    exact absurd htwo.2 (by simp)

end S3lite
