/-
  S3lite.Safety.Buckets — the rows of `OBJECTS` against the buckets they belong to, in any
  interleaving.

  - `buckets_exist`: every row's bucket exists, and a bucket that is created has no rows, as
    long as every manifest is put while its bucket is there. The handlers look the bucket up
    in an operation of its own, before, so a deletion may come in between
    (`a_row_outlives_its_bucket`).
-/
import S3lite.Safety.Pool

namespace S3lite

/-- Every row's bucket exists. -/
def Housed (db : Db) : Prop := ∀ r ∈ db.objects.rows, (db.buckets.get r.2.key.bucket).isSome

/-- A manifest that is put has its bucket. -/
def PutsHoused (w : World) (op : Op) : Prop :=
  ∀ m, op = .metaOp (.putManifest m) → (w.db.buckets.get m.key.bucket).isSome

/-- A row is in the range that `delete_bucket` scans. -/
theorem mem_bucketRange_of_slot {db : Db} {r : Bytes × Manifest} (hr : r ∈ db.objects.rows) (hslot : r.1 = r.2.key.encode) :
    r ∈ bucketRange db r.2.key.bucket := by
  refine Table.mem_range.mpr ⟨hr, ?_⟩
  rw [hslot]
  have h0 := Word.le_append (r.2.key.bucket ++ [0]) (r.2.key.key ++ 0 :: r.2.key.versionId)
  have h1 : r.2.key.bucket ++ 0 :: (r.2.key.key ++ 0 :: r.2.key.versionId) < r.2.key.bucket ++ [1] :=
    (Word.append_lt_append_iff ..).mpr (List.cons_lt_cons_iff.mpr (Or.inl (by decide)))
  exact ⟨by simpa [ManifestKey.encode] using h0, h1⟩

theorem mem_bucketRange {db : Db} (hdb : WellKeyed db) {r : Bytes × Manifest} (hr : r ∈ db.objects.rows) :
    r ∈ bucketRange db r.2.key.bucket := mem_bucketRange_of_slot hr (hdb r hr).1

/-- The bucket of a row that is there stays there. -/
theorem BucketsStep.keeps {op : MetaOp} {db : Db} {buckets : Buckets} (h : BucketsStep op db buckets)
    (hdb : WellKeyed db) {r : Bytes × Manifest} (hr : r ∈ db.objects.rows)
    (hb : (db.buckets.get r.2.key.bucket).isSome) : (buckets.get r.2.key.bucket).isSome := by
  cases h with
  | same => exact hb
  | create name cfg =>
    rw [Table.get_insert]
    split
    · rfl
    · exact hb
  | delete name _ hempty =>
    rw [Table.get_erase]
    split
    · rename_i e
      have hmem := mem_bucketRange hdb hr
      rw [e, List.isEmpty_iff.mp hempty] at hmem
      cases hmem
    · exact hb
  | update _ name cfg cfg' =>
    rw [Table.get_insert]
    split
    · rfl
    · exact hb

/-- A put deletes no bucket. -/
theorem BucketsStep.put {m : Manifest} {db : Db} {buckets : Buckets} (h : BucketsStep (.putManifest m) db buckets)
    {name : Str} (hb : (db.buckets.get name).isSome) : (buckets.get name).isSome := by
  cases h with
  | same => exact hb
  | update _ other cfg cfg' =>
    rw [Table.get_insert]
    split
    · rfl
    · exact hb

/-- The manifest of a row comes from a row of the same bucket, or was put, or completed an
    upload that was there. -/
theorem ObjectsStep.origin {op : MetaOp} {o o' : Objects} (h : ObjectsStep op o o') {r : Bytes × Manifest}
    (hr : r ∈ o'.rows) : (∃ r0 ∈ o.rows, r0.2.key.bucket = r.2.key.bucket) ∨ op = .putManifest r.2 ∨
      ∃ k up, op = .completeMultipartUpload k r.2 ∧ o.get k.encode = some up := by
  have hupdate : ∀ {k : Bytes} {m m' : Manifest}, o.get k = some m → r ∈ (o.insert k m').rows → m'.key = m.key →
      ∃ r0 ∈ o.rows, r0.2.key.bucket = r.2.key.bucket := by
    intro k m m' hm hr hk
    rcases Table.mem_insert.mp hr with rfl | ⟨hr, -⟩
    · exact ⟨_, Table.mem_rows.mpr hm, congrArg ManifestKey.bucket hk.symm⟩
    · exact ⟨r, hr, rfl⟩
  cases h with
  | same => exact Or.inl ⟨r, hr, rfl⟩
  | put m =>
    rcases Table.mem_insert.mp hr with rfl | ⟨hr, -⟩
    · exact Or.inr (Or.inl rfl)
    · exact Or.inl ⟨r, hr, rfl⟩
  | delete k m _ hm => exact Or.inl ⟨r, (Table.mem_erase.mp hr).1, rfl⟩
  | state k s m now _ hm => exact Or.inl (hupdate hm hr rfl)
  | tags k tags m _ hm => exact Or.inl (hupdate hm hr rfl)
  | lock k lock m _ hm => exact Or.inl (hupdate hm hr rfl)
  | append k part m now _ hm => exact Or.inl (hupdate hm hr rfl)
  | complete k m up _ hup =>
    rcases Table.mem_insert.mp (Table.mem_erase.mp hr).1 with rfl | ⟨hr, -⟩
    · exact Or.inr (Or.inr ⟨k, up, rfl, hup⟩)
    · exact Or.inl ⟨r, hr, rfl⟩

theorem housed_step {env : Env} {w : World} {gs : Nat → Ghost} {i : Nat} (ht : Tidy env w gs) (h : Housed w.db) (op : Op)
    (hok : (gs i).Allows env op) (hput : PutsHoused w op) : Housed (exec env op w).2.db := by
  cases op with
  | metaOp op =>
    intro r hr
    have hkeep : ∀ r0 ∈ w.db.objects.rows, ((exec env (.metaOp op) w).2.db.buckets.get r0.2.key.bucket).isSome :=
      fun r0 hr0 => (exec_buckets op _ _ w.db).keeps ht.wellKeyed hr0 (h r0 hr0)
    rcases (exec_objects op _ _ w.db).origin hr with ⟨r0, hr0, e⟩ | hop | ⟨k, up, hop, hup⟩
    · rw [← e]
      exact hkeep r0 hr0
    · have hb := hput r.2 (congrArg Op.metaOp hop)
      subst hop
      exact (exec_buckets _ _ _ w.db).put hb
    · subst hop
      obtain ⟨hb, -, up', selected, now, -, -, -, e⟩ := (hok : Completes (gs i) k r.2)
      obtain ⟨henc, hrow⟩ := ht.row hup
      have hbucket := (Word.word_injective hb hrow.clear.bucket henc).1
      rw [show r.2.key.bucket = up.key.bucket from e ▸ hbucket]
      exact hkeep _ (Table.mem_rows.mpr hup)
  | _ => exact h

/-- As long as every manifest is put while its bucket is there: every row's bucket exists,
    and a bucket about to be created has no rows. -/
theorem buckets_exist {env : Env} (henv : env.Sane) {c : ServerConfig}
    (h : Running env (Serves env) (fun c _ op => PutsHoused c.world op) c) :
    (∀ r ∈ c.world.db.objects.rows, (c.world.db.buckets.get r.2.key.bucket).isSome) ∧
      ∀ i name cfg k, (c.pool i).2 = .call (.metaOp (.createBucket name cfg)) k →
        c.world.db.buckets.get name = none → ∀ r ∈ c.world.db.objects.rows, r.2.key.bucket ≠ name := by
  obtain ⟨-, hhoused, -⟩ := running_sound henv (fun _ hp => hp) (I := fun w _ => Housed w.db)
    (fun r hr => absurd hr List.not_mem_nil) (fun _ _ _ hi => hi)
    (fun c i op ht hi hok hguard => housed_step ht hi op hok hguard) h
  refine ⟨hhoused, fun i name cfg k _ hnone r hr e => ?_⟩
  have := hhoused r hr
  rw [e, hnone] at this
  cases this

/-! ## Concrete runs -/

/-- The requests that make, fill and delete buckets. -/
def Request.movesBuckets : Request → Bool
  | .createBucket .. | .deleteBucket .. | .putObject .. | .copyObject .. | .createMultipartUpload ..
  | .completeMultipartUpload .. | .deleteObject .. => true
  | _ => false

def housedCheck (w : World) : Op → Bool
  | .metaOp (.putManifest m) => (w.db.buckets.get m.key.bucket).isSome
  | _ => true

theorem putsHoused_of_check {w : World} {op : Op} (h : housedCheck w op = true) : PutsHoused w op := by
  rintro m rfl
  exact h

/-- A bucket that is deleted and made again. -/
def remade : List Event :=
  [.request 0 (.createBucket (str "bucket") []), .steps 0 2,
    .request 0 (.putObject (str "bucket") (str "k") [] (str "a")), .steps 0 4,
    .request 0 (.deleteObject (str "bucket") (str "k") none), .steps 0 6,
    .request 0 (.deleteBucket (str "bucket")), .steps 0 1,
    .request 0 (.createBucket (str "bucket") []), .steps 0 1]

theorem buckets_exist_remade : ∃ c, Running sampleEnv (Serves sampleEnv) (fun c _ op => PutsHoused c.world op) c ∧
    ∃ i name cfg k, (c.pool i).2 = .call (.metaOp (.createBucket name cfg)) k ∧
      ∀ r ∈ c.world.db.objects.rows, r.2.key.bucket ≠ name := by
  apply running_reaches 1 remade (fun c _ op => housedCheck c.world op)
    fun c => ((c.pool 0).2.pending.bind Op.createdBucket).any fun b => (c.world.db.buckets.get b.1).isNone
  · exact fun _ _ _ _ h => putsHoused_of_check h
  · rfl
  · rfl
  · intro c hc hq
    obtain ⟨⟨name, cfg⟩, hb, hnone⟩ := (Option.any_eq_true _ _).mp hq
    obtain ⟨op, hop, hcreate⟩ := Option.bind_eq_some_iff.mp hb
    obtain rfl := Op.eq_of_createdBucket hcreate
    obtain ⟨k, hk⟩ := Prog.exists_call hop
    exact ⟨0, name, cfg, k, hk, (buckets_exist sampleEnv_sane hc).2 0 name cfg k hk (Option.isNone_iff_eq_none.mp hnone)⟩

/-- A PUT that finds its bucket, which is then deleted. -/
def deletedUnder : List Event :=
  [.request 0 (.createBucket (str "bucket") []), .steps 0 2,
    .request 0 (.putObject (str "bucket") (str "k") [] (str "a")), .steps 0 1,
    .request 1 (.deleteBucket (str "bucket")), .steps 1 1, .steps 0 3]

theorem a_row_outlives_its_bucket :
    ¬ ∀ c, Running sampleEnv (ServesOnly sampleEnv Request.movesBuckets false) (fun _ _ _ => True) c →
      ∀ r ∈ c.world.db.objects.rows, (c.world.db.buckets.get r.2.key.bucket).isSome := by
  apply running_refutes 2 deletedUnder (fun _ _ _ => true)
    fun c => c.world.db.objects.rows.any fun r => (c.world.db.buckets.get r.2.key.bucket).isNone
  · exact fun _ _ _ _ _ => trivial
  · rfl
  · rfl
  · intro c hq hall
    obtain ⟨r, hr, hnone⟩ := List.any_eq_true.mp hq
    have := hall r hr
    rw [Option.isNone_iff_eq_none.mp hnone] at this
    cases this

end S3lite
