/-
  S3lite.Vault.Basic — runs of the requests about versions of objects, without locks, conditions and
  ranges.

  All that is asked of such a run is that the clock does not stand still, that no two bodies have one
  digest, and that no count saturates.
  - `Contained`: every file is a body of one of the requests, so the sizes of every row fit.
  - `allFit_of_basic`: so every step of the run meets `Fits`.
-/
import S3lite.Vault.Runs
import S3lite.Safety.Saturation

namespace S3lite

open Handler

/-! ## The requests -/

/-- A request about versions of objects, without a header about locks, conditions or ranges. The
    length of a body is a `u64`. -/
def Request.Basic : Request → Prop
  | .createBucket _ headers => headers.get (str "x-amz-bucket-object-lock-enabled") = none
  | .putBucketVersioning .. | .copyObject .. | .deleteObject .. => True
  | .putObject _ _ headers body => LockFree headers ∧ headers.get (str "if-match") = none ∧
      headers.get (str "if-none-match") = none ∧ body.length < 2 ^ 64
  | .getObject _ _ _ headers => NoConditions headers ∧ headers.get (str "range") = none
  | _ => False

/-- What the requests put. -/
def bodies (requests : List Request) : Set Bytes :=
  {body | ∃ bucket key headers, Request.putObject bucket key headers body ∈ requests}

/-- No step of the requests saturates a count. -/
def AllRoom (env : Env) : World → List Request → Prop
  | _, [] => True
  | w, r :: requests => MeetsAll env (HasRoom env) (r.handler env) w ∧ AllRoom env (run env (r.handler env) w).2 requests

/-- The operation writes nothing but these bytes, and uploads no part. -/
def Op.Basic (content : Set Bytes) : Op → Prop
  | .writeBytes data => data ∈ content
  | .metaOp (.appendPart ..) | .metaOp (.completeMultipartUpload ..) => False
  | _ => True

section
variable {content : Set Bytes}

theorem reads_basic : ReadsAmong (Op.Basic content) := by
  intro o ho
  cases o with
  | metaOp o => cases o <;> trivial
  | writeBytes => cases ho
  | _ => trivial

theorem puts_basic : PutsAmong (Op.Basic content) :=
  ⟨reads_basic.consults, trivial, fun _ => trivial, fun _ => trivial, fun _ => trivial, fun _ => trivial⟩

theorem basic_performs {env : Env} {r : Request} (hr : r.Basic)
    (hbody : ∀ bucket key headers body, r = .putObject bucket key headers body → body ∈ content) :
    Performs (Op.Basic content) (r.handler env) := by
  have hconfigures : ∀ o : Op, o.configures = true → o.Basic content := by
    intro o ho
    cases o with
    | metaOp o => cases o <;> trivial
    | _ => cases ho
  cases r with
  | createBucket bucket headers => exact configuring_performs reads_basic.consults hconfigures rfl
  | putBucketVersioning bucket body => exact configuring_performs reads_basic.consults hconfigures rfl
  | putObject bucket key headers body => exact performs_putObject puts_basic _ _ _ (hbody _ _ _ _ rfl)
  | copyObject bucket key source headers => exact performs_copyObject puts_basic _ _ _ _
  | deleteObject bucket key versionId => exact removing_performs puts_basic (fun _ => trivial) rfl
  | getObject bucket key versionId headers => exact reading_performs reads_basic.looks (fun _ => trivial) rfl
  | _ => exact hr.elim

end

/-! ## What is stored -/

/-- The sizes of the parts add up within a `u64`. -/
def Manifest.Fits (m : Manifest) : Prop := (m.parts.map (·.size)).sum < 2 ^ 64

theorem Manifest.Fits.part {m : Manifest} (h : m.Fits) {p : PartRef} (hp : p ∈ m.parts) : p.size < 2 ^ 64 :=
  lt_of_le_of_lt (List.single_le_sum (fun _ _ => Nat.zero_le _) _ (List.mem_map_of_mem hp)) h

/-- What every step keeps, with the request's ghost states. -/
structure Contained (content : Set Bytes) (w : World) (g : Ghost) (gr : Ground) : Prop where
  files : ∀ x data, w.files.get x = some data → data ∈ content
  written : ∀ data ∈ gr.written, data ∈ content
  rows : ∀ r ∈ w.db.objects.rows, r.2.Fits
  seen : ∀ m ∈ g.seen, m.Fits

section
variable {content : Set Bytes} {env : Env} {w : World} {g : Ghost} {gr : Ground}

theorem Contained.start (h : Contained content w g gr) : Contained content w .start .start :=
  ⟨h.files, fun _ hd => absurd hd List.not_mem_nil, h.rows, fun _ hm => absurd hm List.not_mem_nil⟩

theorem Contained.empty : Contained content .empty .start .start :=
  ⟨fun _ _ h => (by cases h), fun _ h => absurd h List.not_mem_nil, fun _ h => absurd h List.not_mem_nil,
    fun _ h => absurd h List.not_mem_nil⟩

theorem Contained.files_next (h : Contained content w g gr) {op : Op} (hop : op.Basic content) :
    ∀ x data, (exec env op w).2.files.get x = some data → data ∈ content := by
  intro x data hx
  cases op with
  | writeBytes bytes =>
    have hx : (writePart env w.files bytes).2.get x = some data := hx
    rw [writePart_get] at hx
    split at hx
    · cases hx
      exact hop
    · exact h.files x data hx
  | deletePart hash =>
    have hx : (w.files.erase hash).get x = some data := hx
    by_cases e : x = hash
    · rw [e, Table.get_erase_self] at hx
      cases hx
    · rw [Table.get_erase_ne _ e] at hx
      exact h.files x data hx
  | _ => exact h.files x data hx

theorem Contained.written_next (h : Contained content w g gr) {op : Op} (hop : op.Basic content) (r : op.Res) :
    ∀ data ∈ (gr.next op r).written, data ∈ content := by
  intro data hd
  cases op with
  | writeBytes bytes =>
    rcases List.mem_cons.mp hd with rfl | hd
    · exact hop
    · exact h.written data hd
  | deletePart hash => exact absurd hd List.not_mem_nil
  | metaOp op => exact h.written data (gr.nextMeta_written op r ▸ hd)
  | _ => exact h.written data hd

/-- A manifest that is put has no parts, the bytes just written, or the parts of one that was read. -/
theorem Contained.put_fits (hsize : ∀ data ∈ content, data.length < 2 ^ 64) (hsteady : Steady env w g gr) (h : Contained content w g gr)
    {m : Manifest} (hstores : Stores env g m) (hparts : ∀ p ∈ m.parts, gr.Has env p) : m.Fits := by
  cases hstores with
  | tombstone key now => exact Nat.two_pow_pos 64
  | upload key headers now => exact Nat.two_pow_pos 64
  | single key data headers tags checksum lock now =>
    have hpart : data.length < 2 ^ 64 := by
      rcases hparts _ (List.mem_singleton_self _) with ⟨data', hdata', -, hlen⟩ | ⟨src, hsrc, hp⟩
      · have hlen : data.length = data'.length := hlen
        rw [hlen]
        exact hsize _ (h.written _ hdata')
      · obtain ⟨slot, hslot⟩ := hsteady.grounded.read src hsrc
        exact (h.rows _ (Table.mem_rows.mpr hslot)).part hp
    exact hpart
  | copy src key headers now hsrc => exact h.seen src hsrc

theorem Contained.rows_next (hsize : ∀ data ∈ content, data.length < 2 ^ 64) (hsteady : Steady env w g gr) (h : Contained content w g gr)
    {op : Op} (hok : g.Allows env op) (hgr : gr.Allows env op) (hop : op.Basic content) :
    ∀ r ∈ (exec env op w).2.db.objects.rows, r.2.Fits := by
  cases op with
  | metaOp op =>
    have hstep := exec_objects op (env.now w.clock) (env.now (w.clock + 1)) w.db
    show ∀ r ∈ (op.exec (env.now w.clock) (env.now (w.clock + 1)) w.db).2.objects.rows, r.2.Fits
    generalize (op.exec (env.now w.clock) (env.now (w.clock + 1)) w.db).2.objects = o at hstep ⊢
    have hinsert : ∀ {slot : Bytes} {m : Manifest}, m.Fits → ∀ r ∈ (w.db.objects.insert slot m).rows, r.2.Fits := by
      intro slot m hm r hr
      rcases Table.mem_insert.mp hr with rfl | ⟨hr, -⟩
      · exact hm
      · exact h.rows r hr
    cases hstep with
    | same => exact h.rows
    | put m => exact hinsert (h.put_fits hsize hsteady hok.stores hgr.2)
    | delete k m _ hm => exact fun r hr => h.rows r (Table.mem_erase.mp hr).1
    | state k s => exact absurd hok id
    | tags k tags m _ hm => exact hinsert (h.rows _ (Table.mem_rows.mpr hm))
    | lock k lock m _ hm => exact hinsert (h.rows _ (Table.mem_rows.mpr hm))
    | append => exact hop.elim
    | complete => exact hop.elim
  | _ => exact h.rows

theorem Contained.step (hsize : ∀ data ∈ content, data.length < 2 ^ 64) (hsteady : Steady env w g gr) (h : Contained content w g gr)
    {op : Op} (hok : g.Allows env op) (hgr : gr.Allows env op) (hop : op.Basic content) :
    Contained content (exec env op w).2 (g.next op (exec env op w).1) (gr.next op (exec env op w).1) := by
  refine ⟨h.files_next hop, h.written_next hop _, h.rows_next hsize hsteady hok hgr hop, fun m hm => ?_⟩
  rcases mem_seen_next hsteady.tidy.wellKeyed hm with hm | ⟨slot, hm⟩
  · exact h.seen m hm
  · exact h.rows _ (Table.mem_rows.mpr hm)

theorem Contained.fits (hinj : Set.InjOn env.blake3 content) (hsize : ∀ data ∈ content, data.length < 2 ^ 64)
    (hsteady : Steady env w g gr) (h : Contained content w g gr) {op : Op} (hok : g.Allows env op) (hgr : gr.Allows env op)
    (hop : op.Basic content) (hroom : HasRoom env w op) : Fits env w op := by
  refine ⟨⟨hroom, fun data e bytes hbytes => ?_, h.rows_next hsize hsteady hok hgr hop, fun _ key part m e => ?_⟩, ?_⟩
  · subst e
    exact hinj (h.files _ _ hbytes) hop (hsteady.named _ _ hbytes)
  · subst e
    exact hop.elim
  · intro key part m e
    subst e
    exact hop.elim

/-! ## A run -/

/-- One request. -/
theorem Contained.request (henv : env.Sane) (hinj : Set.InjOn env.blake3 content) (hsize : ∀ data ∈ content, data.length < 2 ^ 64)
    (hsteady : Steady env w .start .start) (h : Contained content w .start .start) {r : Request} (hwell : r.WellFormed)
    (hr : Performs (Op.Basic content) (r.handler env)) (hroom : MeetsAll env (HasRoom env) (r.handler env) w) :
    MeetsAll env (Fits env) (r.handler env) w ∧ Steady env (run env (r.handler env) w).2 .start .start ∧
      Contained content (run env (r.handler env) w).2 .start .start := by
  have hserves : Serves env (r.handler env).discard := Or.inl ⟨r, hwell, rfl⟩
  have hfollow := ((serves_follows hserves).prod (serves_grounded hserves)).prod (Keeps.discard hr)
  obtain ⟨hfits, gg, -, hend, hcontained⟩ := hfollow.meets
    (I := fun (gg : (Ghost × Ground) × Unit) w => Steady env w gg.1.1 gg.1.2 ∧ Contained content w gg.1.1 gg.1.2)
    (fun gg w op hi hok hroom => by
      obtain ⟨⟨hok, hgr⟩, hop⟩ := hok
      obtain ⟨hsound, hnext⟩ := hi.1.step henv op hok hgr hroom
      exact ⟨hi.2.fits hinj hsize hi.1 hok hgr hop hroom, ⟨⟨hsound, hsound⟩, trivial⟩, hnext, hi.2.step hsize hi.1 hok hgr hop⟩)
    (meets_discard_iff.mpr hroom) ⟨hsteady, h⟩
  rw [world_discard] at hend hcontained
  exact ⟨meets_discard_iff.mp hfits, hend.idle, hcontained.start⟩

theorem allFit_of_contained (henv : env.Sane) {requests : List Request} (hinj : Set.InjOn env.blake3 content)
    (hsize : ∀ data ∈ content, data.length < 2 ^ 64)
    (hreqs : ∀ r ∈ requests, r.WellFormed ∧ Performs (Op.Basic content) (r.handler env))
    (hsteady : Steady env w .start .start) (h : Contained content w .start .start) (hroom : AllRoom env w requests) :
    AllFit env w requests := by
  induction requests generalizing w with
  | nil => trivial
  | cons r requests ih =>
    obtain ⟨hwell, hr⟩ := hreqs r (List.mem_cons_self ..)
    obtain ⟨hfits, hsteady', hcontained⟩ := h.request henv hinj hsize hsteady hwell hr hroom.1
    exact ⟨hwell, hfits, ih (fun r' hr' => hreqs r' (List.mem_cons_of_mem _ hr')) hsteady' hcontained hroom.2⟩

/-- Basic requests whose bodies have different digests: every step meets `Fits` if no count saturates. -/
theorem allFit_of_basic (henv : env.Sane) {requests : List Request} (hreqs : ∀ r ∈ requests, r.WellFormed ∧ r.Basic)
    (hinj : Set.InjOn env.blake3 (bodies requests)) (hroom : AllRoom env .empty requests) : AllFit env .empty requests := by
  refine allFit_of_contained henv hinj (fun data hd => ?_) (fun r hr => ⟨(hreqs r hr).1, ?_⟩) (.empty env) .empty hroom
  · obtain ⟨bucket, key, headers, hmem⟩ := hd
    obtain ⟨-, -, -, hlen⟩ := (hreqs _ hmem).2
    exact hlen
  · refine basic_performs (hreqs r hr).2 fun bucket key headers body e => ?_
    subst e
    exact ⟨bucket, key, headers, hr⟩

end

end S3lite
