/-
  S3lite.Safety.Pool — the server: any number of client requests and sweeps in flight, every
  operation one step, any request dropped at any point.

  - `Serves`, `Running`: the programs of the pool, and the configurations they reach from
    the empty store under a guard.
  - `Tidy`: what holds in all of them. Every row is under its own NUL-free key; its version
    id is "null" or was drawn; an upload in progress is under a drawn id. An id drawn and
    not yet stored is in no row, in no manifest read, and with one request only.
  - `running_sound`: an invariant kept by every step that the discipline allows, the guard
    admits and `Tidy` is known of, holds in every configuration reached.
  - `running_exists`: a concrete run, from a schedule (`Event`) that the kernel plays.
-/
import S3lite.Safety.Discipline
import S3lite.Storage.Steps
import S3lite.Storage.Rows
import S3lite.Base.Trace

namespace S3lite

/-- What the handlers rely on in a v4 uuid: it does not repeat, and is neither "null" nor
    has a NUL in it. -/
structure Env.Sane (env : Env) : Prop where
  uuid_injective : Function.Injective env.uuid
  uuid_clear : ∀ n, NulFree (env.uuid n)
  uuid_ne_null : ∀ n, env.uuid n ≠ nullVersionId

/-- An environment for the concrete runs: true digests of "a" and "b", the request bodies
    the runs send, a clock that counts, and ids that differ in their length. -/
def sampleEnv : Env where
  blake3 := fun d =>
    if d = str "a" then ⟨#[0x17, 0x76, 0x2f, 0xdd, 0xd9, 0x69, 0xa4, 0x53, 0x92, 0x5d, 0x65, 0x71, 0x7a, 0xc3, 0xee, 0xa2,
      0x13, 0x20, 0xb6, 0x6b, 0x54, 0x34, 0x2f, 0xde, 0x15, 0x12, 0x8d, 0x6c, 0xaf, 0x21, 0x21, 0x5f], rfl⟩
    else if d = str "b" then ⟨#[0x10, 0xe5, 0xcf, 0x3d, 0x3c, 0x8a, 0x4f, 0x9f, 0x34, 0x68, 0xc8, 0xcc, 0x58, 0xee, 0xa8, 0x48,
      0x92, 0xa2, 0x2f, 0xda, 0xdb, 0xc1, 0xac, 0xb2, 0x24, 0x10, 0x19, 0x00, 0x44, 0xc1, 0xd5, 0x53], rfl⟩
    else .ofFn fun i => d.getD i 0
  md5 := fun d =>
    if d = str "a" then ⟨#[0x0c, 0xc1, 0x75, 0xb9, 0xc0, 0xf1, 0xb6, 0xa8, 0x31, 0xc3, 0x99, 0xe2, 0x69, 0x77, 0x26, 0x61], rfl⟩
    else if d = str "b" then ⟨#[0x92, 0xeb, 0x5f, 0xfe, 0xe6, 0xae, 0x2f, 0xec, 0x3a, 0xd7, 0x1c, 0x77, 0x75, 0x31, 0x57, 0x8f], rfl⟩
    else .ofFn fun i => d.getD i 0
  crc32 := id
  crc32c := id
  sha1 := id
  sha256 := id
  base64Encode := id
  base64Decode := some
  encodeContinuationToken := ListCursor.text
  decodeContinuationToken := fun s => .ok (.afterKey s)
  parseRfc3339 := fun _ => none
  formatRfc3339 := fun _ => []
  parseImfDate := fun _ => none
  formatImfDate := fun _ => []
  xmlVersioning := fun b =>
    if b = str "<VersioningConfiguration><Status>Enabled</Status></VersioningConfiguration>" then
      .ok (some (str "Enabled"))
    else .error []
  xmlCompleteMultipartUpload := fun b =>
    if b = str "<CompleteMultipartUpload><Part><PartNumber>1</PartNumber><ETag>\"0cc175b9c0f1b6a831c399e269772661\"</ETag></Part></CompleteMultipartUpload>" then
      .ok [(1, str "\"0cc175b9c0f1b6a831c399e269772661\"")]
    else .error []
  xmlTagging := fun _ => .error []
  xmlRetention := fun _ => .error []
  xmlLegalHold := fun _ => .error []
  xmlObjectLock := fun _ => .error []
  xmlLifecycle := fun _ => .error []
  xmlCors := fun _ => .error []
  now := fun n => n
  uuid := fun n => .replicate (n + 5) 97
  region := str "us-east-1"
  debug := false

theorem sampleEnv_sane : sampleEnv.Sane where
  uuid_injective := fun m n h => by
    have := congrArg List.length (show List.replicate (m + 5) (97 : UInt8) = List.replicate (n + 5) 97 from h)
    simpa using this
  uuid_clear := fun n c hc => by
    rw [List.eq_of_mem_replicate (show c ∈ List.replicate (n + 5) (97 : UInt8) from hc)]
    decide
  uuid_ne_null := fun n h => by
    have := congrArg List.length h
    rw [show (sampleEnv.uuid n).length = n + 5 from List.length_replicate ..,
      show nullVersionId.length = 4 by rfl] at this
    omega

/-- The programs of the server: the requests and the sweeper. -/
def Serves (env : Env) (p : Prog Op Op.Res Unit) : Prop :=
  (∃ r : Request, r.WellFormed ∧ p = (r.handler env).discard) ∨ p = Handler.discard sweepOnce

/-- The programs of a part of the server: requests of the given kinds, and the sweeper or not. -/
def ServesOnly (env : Env) (kinds : Request → Bool) (sweeps : Bool) (p : Prog Op Op.Res Unit) : Prop :=
  (∃ r : Request, (r.WellFormed ∧ kinds r = true) ∧ p = (r.handler env).discard) ∨
    sweeps = true ∧ p = Handler.discard sweepOnce

theorem ServesOnly.serves {env : Env} {kinds : Request → Bool} {sweeps : Bool} {p : Prog Op Op.Res Unit}
    (h : ServesOnly env kinds sweeps p) : Serves env p := by
  rcases h with ⟨r, hr, rfl⟩ | ⟨-, rfl⟩
  · exact Or.inl ⟨r, hr.1, rfl⟩
  · exact Or.inr rfl

abbrev ServerConfig := Config Op Op.Res World Ghost

/-- The configurations reached from the empty store with every step meeting the guard. -/
abbrev Running (env : Env) (Start : Prog Op Op.Res Unit → Prop) (Guard : ServerConfig → Nat → Op → Prop) :
    ServerConfig → Prop := Reach (exec env) (discipline env) .start Start Guard .empty

theorem serves_follows {env : Env} {p : Prog Op Op.Res Unit} (hp : Serves env p) :
    p.Follows (discipline env) (fun _ _ => True) .start := by
  rcases hp with ⟨r, hr, rfl⟩ | rfl
  · exact (request_keeps hr).discard
  · exact (sweep_keeps rfl).discard

theorem null_clear : NulFree nullVersionId := by decide

/-! ## Rows -/

/-- A row's manifest, when `uuids` ids were drawn. -/
structure Row (env : Env) (uuids : Nat) (m : Manifest) : Prop where
  clear : m.key.NulFree
  version : m.key.versionId = nullVersionId ∨ ∃ n < uuids, m.key.versionId = env.uuid n
  upload : m.state = .inProgress → m.key.versionId ≠ nullVersionId ∧ m.uploadMode = .multipart
  settled : m.state ≠ .aborted

theorem Row.mono {env : Env} {n n' : Nat} {m : Manifest} (h : Row env n m) (hn : n ≤ n') : Row env n' m :=
  ⟨h.clear, h.version.imp_right fun ⟨k, hk, e⟩ => ⟨k, lt_of_lt_of_le hk hn, e⟩, h.upload, h.settled⟩

/-- An update of tags, lock or parts leaves what a row is. -/
structure SameRow (m m' : Manifest) : Prop where
  key : m'.key = m.key
  state : m'.state = m.state
  kind : m'.kind = m.kind
  uploadMode : m'.uploadMode = m.uploadMode

theorem Row.same {env : Env} {n : Nat} {m m' : Manifest} (h : Row env n m) (hs : SameRow m m') : Row env n m' :=
  ⟨hs.key ▸ h.clear, hs.key ▸ h.version, fun hp => by
    rw [hs.key, hs.uploadMode]; exact h.upload (hs.state ▸ hp), hs.state ▸ h.settled⟩

/-- Rows under their own keys, all of them in `R`, stay so if the operation stores only
    manifests in `R`. -/
theorem rows_step {R : Manifest → Prop} {op : MetaOp} {o o' : Objects} (hs : ObjectsStep op o o')
    (hrows : ∀ r ∈ o.rows, r.1 = r.2.key.encode ∧ R r.2) (hsame : ∀ m m', SameRow m m' → R m → R m')
    (hput : ∀ m, op = .putManifest m → R m) (hcomplete : ∀ k m, op = .completeMultipartUpload k m → R m)
    (hstate : ∀ k s, op ≠ .updateManifestState k s) : ∀ r ∈ o'.rows, r.1 = r.2.key.encode ∧ R r.2 := by
  have hinsert : ∀ {k : ManifestKey} {m m' : Manifest}, o.get k.encode = some m → SameRow m m' →
      ∀ r ∈ (o.insert k.encode m').rows, r.1 = r.2.key.encode ∧ R r.2 := by
    intro k m m' hm hsm r hr
    rcases Table.mem_insert.mp hr with rfl | ⟨hr, -⟩
    · obtain ⟨hk, hR⟩ := hrows _ (Table.mem_rows.mpr hm)
      exact ⟨by rw [hsm.key]; exact hk, hsame m m' hsm hR⟩
    · exact hrows r hr
  cases hs with
  | same => exact hrows
  | put m =>
    intro r hr
    rcases Table.mem_insert.mp hr with rfl | ⟨hr, -⟩
    · exact ⟨rfl, hput m rfl⟩
    · exact hrows r hr
  | delete k m _ hm => exact fun r hr => hrows r (Table.mem_erase.mp hr).1
  | state k s => exact absurd rfl (hstate k s)
  | tags k tags m _ hm => exact hinsert hm ⟨rfl, rfl, rfl, rfl⟩
  | lock k lock m _ hm => exact hinsert hm ⟨rfl, rfl, rfl, rfl⟩
  | append k part m now _ hm => exact hinsert hm ⟨rfl, rfl, rfl, rfl⟩
  | complete k m up _ hup hp =>
    intro r hr
    rcases Table.mem_insert.mp (Table.mem_erase.mp hr).1 with rfl | ⟨hr, -⟩
    · exact ⟨rfl, hcomplete k m rfl⟩
    · exact hrows r hr

/-! ## The invariant -/

structure Tidy (env : Env) (w : World) (gs : Nat → Ghost) : Prop where
  rows : ∀ r ∈ w.db.objects.rows, r.1 = r.2.key.encode ∧ Row env w.uuids r.2
  reading : ∀ i k up, (gs i).reading = some (k, up) → k.encode = up.key.encode ∧ Row env w.uuids up
  drawn : ∀ i u, (gs i).drawn = some u → ∃ n < w.uuids, u = env.uuid n
  unstored : ∀ i u, (gs i).drawn = some u → ∀ r ∈ w.db.objects.rows, r.2.key.versionId ≠ u
  unread : ∀ i u, (gs i).drawn = some u → ∀ j k up, (gs j).reading = some (k, up) → up.key.versionId ≠ u
  owned : ∀ i j u, (gs i).drawn = some u → (gs j).drawn = some u → i = j

namespace Tidy

variable {env : Env} {w : World} {gs : Nat → Ghost}

theorem wellKeyed (h : Tidy env w gs) : WellKeyed w.db := fun r hr => ⟨(h.rows r hr).1, (h.rows r hr).2.clear⟩

theorem row (h : Tidy env w gs) {k : Bytes} {m : Manifest} (hm : w.db.objects.get k = some m) :
    k = m.key.encode ∧ Row env w.uuids m := h.rows _ (Table.mem_rows.mpr hm)

theorem empty (env : Env) : Tidy env .empty fun _ => .start where
  rows := fun r hr => absurd hr List.not_mem_nil
  reading := fun _ _ _ h => by cases h
  drawn := fun _ _ h => by cases h
  unstored := fun _ _ h => by cases h
  unread := fun _ _ h => by cases h
  owned := fun _ _ _ h => by cases h

/-- The ghost states matter only by what they have drawn and read. -/
theorem of_less (h : Tidy env w gs) {gs' : Nat → Ghost}
    (hd : ∀ i u, (gs' i).drawn = some u → (gs i).drawn = some u)
    (hr : ∀ i k up, (gs' i).reading = some (k, up) → (gs i).reading = some (k, up)) : Tidy env w gs' where
  rows := h.rows
  reading := fun i k up e => h.reading i k up (hr i k up e)
  drawn := fun i u e => h.drawn i u (hd i u e)
  unstored := fun i u e => h.unstored i u (hd i u e)
  unread := fun i u e j k up e' => h.unread i u (hd i u e) j k up (hr j k up e')
  owned := fun i j u e e' => h.owned i j u (hd i u e) (hd j u e')

theorem idle (h : Tidy env w gs) (i : Nat) : Tidy env w (Function.update gs i .start) := by
  refine h.of_less (fun j u e => ?_) fun j k up e => ?_ <;> by_cases hj : j = i
  · subst hj; rw [Function.update_self] at e; cases e
  · rwa [Function.update_of_ne hj] at e
  · subst hj; rw [Function.update_self] at e; cases e
  · rwa [Function.update_of_ne hj] at e

/-- A ghost update that neither draws nor reads. -/
theorem of_update (h : Tidy env w gs) {i : Nat} {g : Ghost} (hd : ∀ u, g.drawn = some u → (gs i).drawn = some u)
    (hr : ∀ k up, g.reading = some (k, up) → (gs i).reading = some (k, up)) : Tidy env w (Function.update gs i g) := by
  refine h.of_less (fun j u e => ?_) fun j k up e => ?_ <;> by_cases hj : j = i
  · subst hj; rw [Function.update_self] at e; exact hd u e
  · rwa [Function.update_of_ne hj] at e
  · subst hj; rw [Function.update_self] at e; exact hr k up e
  · rwa [Function.update_of_ne hj] at e

/-- A change of the rows that stores manifests of ids "null" or drawn by `i`, who has then
    used it up. -/
theorem store (henv : env.Sane) (h : Tidy env w gs) {i : Nat} {op : MetaOp} {w' : World} {g : Ghost}
    (hs : ObjectsStep op w.db.objects w'.db.objects) (hu : w'.uuids = w.uuids)
    (hput : ∀ m, op = .putManifest m → Row env w.uuids m ∧
      (m.key.versionId = nullVersionId ∨ (gs i).drawn = some m.key.versionId ∧ g.drawn = none))
    (hcomplete : ∀ k m, op = .completeMultipartUpload k m → Row env w.uuids m ∧ m.key.versionId = nullVersionId)
    (hstate : ∀ k s, op ≠ .updateManifestState k s) (hd : ∀ u, g.drawn = some u → (gs i).drawn = some u)
    (hr : ∀ k up, g.reading = some (k, up) → (gs i).reading = some (k, up)) :
    Tidy env w' (Function.update gs i g) := by
  have h' := h.of_update hd hr
  have hnull : ∀ j u, (Function.update gs i g j).drawn = some u → nullVersionId ≠ u := by
    intro j u e he
    obtain ⟨n, -, rfl⟩ := h'.drawn j u e
    exact henv.uuid_ne_null n he.symm
  have hrows : ∀ r ∈ w'.db.objects.rows, r.1 = r.2.key.encode ∧ (Row env w.uuids r.2 ∧
      ∀ j u, (Function.update gs i g j).drawn = some u → r.2.key.versionId ≠ u) := by
    refine rows_step (R := fun m => Row env w.uuids m ∧
        ∀ j u, (Function.update gs i g j).drawn = some u → m.key.versionId ≠ u) hs
      (fun r hr => ⟨(h.rows r hr).1, (h.rows r hr).2, fun j u e => h'.unstored j u e r hr⟩) ?_ ?_ ?_ hstate
    · exact fun m m' hm hR => ⟨hR.1.same hm, fun j u e => by rw [hm.key]; exact hR.2 j u e⟩
    · intro m e
      obtain ⟨hrow, hv⟩ := hput m e
      refine ⟨hrow, fun j u e' hvu => ?_⟩
      rcases hv with hv | ⟨hv, hg⟩
      · exact hnull j u e' (hv ▸ hvu)
      · subst hvu
        by_cases hj : j = i
        · subst hj; rw [Function.update_self, hg] at e'; cases e'
        · rw [Function.update_of_ne hj] at e'
          exact hj (h.owned j i _ e' hv)
    · intro k m e
      obtain ⟨hrow, hv⟩ := hcomplete k m e
      exact ⟨hrow, fun j u e' => hv ▸ hnull j u e'⟩
  exact
    { rows := fun r hr => ⟨(hrows r hr).1, hu ▸ (hrows r hr).2.1⟩
      reading := fun j k up e => hu ▸ h'.reading j k up e
      drawn := fun j u e => hu ▸ h'.drawn j u e
      unstored := fun j u e r hr => (hrows r hr).2.2 j u e
      unread := h'.unread
      owned := h'.owned }

end Tidy

/-! ## Every step -/

section
variable {env : Env} {w : World} {gs : Nat → Ghost} {i : Nat}

theorem Stores.row {g : Ghost} {m : Manifest} (henv : env.Sane) {n : Nat} (hm : Writes env g m)
    (hd : ∀ u, g.drawn = some u → ∃ k < n, u = env.uuid k) : Row env n m where
  clear := hm.clear
  version := hm.version.imp_right fun h => by
    obtain ⟨k, hk, e⟩ := hd _ h
    exact ⟨k, hk, e⟩
  upload := by
    intro hs
    cases hm.stores with
    | upload key headers now h =>
      obtain ⟨k, -, e⟩ := hd _ h
      exact ⟨fun e' => henv.uuid_ne_null k (e ▸ e'), rfl⟩
    | tombstone => cases hs
    | single => cases hs
    | copy => cases hs
  settled := by
    cases hm.stores <;> exact fun e => by cases e

theorem completed_row {g : Ghost} {k : ManifestKey} {m : Manifest} {n : Nat} (hm : Completes g k m) :
    Row env n m ∧ m.key.versionId = nullVersionId := by
  obtain ⟨hb, hk, up, selected, now, -, -, -, rfl⟩ := hm
  exact ⟨⟨⟨hb, hk, null_clear⟩, Or.inl rfl, fun e => (by cases e), fun e => (by cases e)⟩, rfl⟩

/-- Operations that neither draw nor look a row up. -/
theorem tidy_other (henv : env.Sane) (h : Tidy env w gs) {op : MetaOp} (hok : (gs i).Allows env (.metaOp op))
    (hget : ∀ k, op ≠ .getManifest k) (r : op.Res) (now now' : Time) (clock : Nat) :
    Tidy env { w with db := (op.exec now now' w.db).2, clock := clock } (Function.update gs i ((gs i).nextMeta op r)) := by
  refine h.store henv (exec_objects op now now' w.db) rfl ?_ ?_ ?_ ?_ ?_
  · rintro m rfl
    exact ⟨Stores.row henv hok (h.drawn i), hok.version.imp_right fun e => ⟨e, rfl⟩⟩
  · rintro k m rfl
    exact completed_row hok
  · rintro k s rfl
    exact hok
  · intro u hu
    unfold Ghost.nextMeta at hu
    split at hu <;> first | exact hu | cases hu
  · intro k up hr
    unfold Ghost.nextMeta at hr
    split at hr <;> first | exact hr | exact absurd rfl (hget _) | cases hr

theorem tidy_step (henv : env.Sane) (h : Tidy env w gs) (op : Op) (hok : (gs i).Allows env op) :
    op.Sound env (exec env op w).1 ∧
      Tidy env (exec env op w).2 (Function.update gs i ((gs i).next op (exec env op w).1)) := by
  have hself : Tidy env w (Function.update gs i (gs i)) := by rw [Function.update_eq_self]; exact h
  cases op with
  | writeBytes data => exact ⟨rfl, ⟨hself.rows, hself.reading, hself.drawn, hself.unstored, hself.unread, hself.owned⟩⟩
  | readPart hash => exact ⟨trivial, hself⟩
  | deletePart hash =>
    exact ⟨trivial, ⟨hself.rows, hself.reading, hself.drawn, hself.unstored, hself.unread, hself.owned⟩⟩
  | nowUtc => exact ⟨trivial, ⟨hself.rows, hself.reading, hself.drawn, hself.unstored, hself.unread, hself.owned⟩⟩
  | newUuid =>
    refine ⟨henv.uuid_clear _, ?_⟩
    have hlt : w.uuids < w.uuids + 1 := Nat.lt_succ_self _
    -- what was drawn before is not the new id
    have hnew : ∀ n < w.uuids, env.uuid n ≠ env.uuid w.uuids := fun n hn e =>
      absurd (henv.uuid_injective e) (ne_of_lt hn)
    have hrow : ∀ m, Row env w.uuids m → m.key.versionId ≠ env.uuid w.uuids := by
      intro m hm e
      rcases hm.version with hv | ⟨n, hn, hv⟩
      · exact henv.uuid_ne_null _ (e ▸ hv)
      · exact hnew n hn (hv ▸ e)
    have hreading : ∀ j k up, (Function.update gs i ((gs i).next .newUuid (env.uuid w.uuids)) j).reading = some (k, up) →
        (gs j).reading = some (k, up) := by
      intro j k up e
      by_cases hj : j = i
      · subst hj; rwa [Function.update_self] at e
      · rwa [Function.update_of_ne hj] at e
    have hdrawn : ∀ j u, (Function.update gs i ((gs i).next .newUuid (env.uuid w.uuids)) j).drawn = some u →
        j = i ∧ u = env.uuid w.uuids ∨ j ≠ i ∧ (gs j).drawn = some u := by
      intro j u e
      by_cases hj : j = i
      · subst hj
        rw [Function.update_self] at e
        cases e
        exact Or.inl ⟨rfl, rfl⟩
      · rw [Function.update_of_ne hj] at e
        exact Or.inr ⟨hj, e⟩
    exact
      { rows := fun r hr => ⟨(h.rows r hr).1, (h.rows r hr).2.mono hlt.le⟩
        reading := fun j k up e => ⟨(h.reading j k up (hreading j k up e)).1,
          (h.reading j k up (hreading j k up e)).2.mono hlt.le⟩
        drawn := fun j u e => by
          rcases hdrawn j u e with ⟨-, rfl⟩ | ⟨-, e⟩
          · exact ⟨_, hlt, rfl⟩
          · obtain ⟨n, hn, rfl⟩ := h.drawn j u e
            exact ⟨n, Nat.lt_succ_of_lt hn, rfl⟩
        unstored := fun j u e r hr => by
          rcases hdrawn j u e with ⟨-, rfl⟩ | ⟨-, e⟩
          · exact hrow _ (h.rows r hr).2
          · exact h.unstored j u e r hr
        unread := fun j u e l k up e' => by
          rcases hdrawn j u e with ⟨-, rfl⟩ | ⟨-, e⟩
          · exact hrow _ (h.reading l k up (hreading l k up e')).2
          · exact h.unread j u e l k up (hreading l k up e')
        owned := fun j l u e e' => by
          rcases hdrawn j u e with ⟨hj, hu⟩ | ⟨hj, e1⟩ <;> rcases hdrawn l u e' with ⟨hl, hu'⟩ | ⟨hl, e2⟩
          · exact hj.trans hl.symm
          · obtain ⟨n, hn, hn'⟩ := h.drawn l u e2
            exact absurd (hn'.symm.trans hu) (hnew n hn)
          · obtain ⟨n, hn, hn'⟩ := h.drawn j u e1
            exact absurd (hn'.symm.trans hu') (hnew n hn)
          · exact h.owned j l u e1 e2 }
  | metaOp op =>
    by_cases hget : ∃ k, op = .getManifest k
    · obtain ⟨k, rfl⟩ := hget
      refine ⟨trivial, ?_⟩
      have hread : ∀ j k' up, (Function.update gs i ((gs i).next (.metaOp (.getManifest k)) (w.db.objects.get k.encode)) j).reading =
          some (k', up) → (k'.encode = up.key.encode ∧ Row env w.uuids up) ∧
            ∀ l u, (gs l).drawn = some u → up.key.versionId ≠ u := by
        intro j k' up e
        by_cases hj : j = i
        · subst hj
          rw [Function.update_self] at e
          obtain ⟨m, hm, e⟩ := Option.map_eq_some_iff.mp e
          cases e
          exact ⟨h.row hm, fun l u e => h.unstored l u e _ (Table.mem_rows.mpr hm)⟩
        · rw [Function.update_of_ne hj] at e
          exact ⟨h.reading j k' up e, fun l u e' => h.unread l u e' j k' up e⟩
      have hdrawn : ∀ j u, (Function.update gs i ((gs i).next (.metaOp (.getManifest k)) (w.db.objects.get k.encode)) j).drawn =
          some u → (gs j).drawn = some u := by
        intro j u e
        by_cases hj : j = i
        · subst hj; rwa [Function.update_self] at e
        · rwa [Function.update_of_ne hj] at e
      exact
        { rows := h.rows
          reading := fun j k' up e => (hread j k' up e).1
          drawn := fun j u e => h.drawn j u (hdrawn j u e)
          unstored := fun j u e => h.unstored j u (hdrawn j u e)
          unread := fun j u e l k' up e' => (hread l k' up e').2 j u (hdrawn j u e)
          owned := fun j l u e e' => h.owned j l u (hdrawn j u e) (hdrawn l u e') }
    · refine ⟨?_, tidy_other henv h hok (fun k e => hget ⟨k, e⟩) _ _ _ _⟩
      cases op with
      | listAllManifestsInBucket bucket =>
        intro m hm
        simp only [exec, MetaOp.exec, handleListAllManifestsInBucket, bucketRange, List.mem_filter, List.mem_map,
          decide_eq_true_eq] at hm
        obtain ⟨⟨r, hr, rfl⟩, hb⟩ := hm
        exact ⟨hb, (h.rows r (Table.mem_range.mp hr).1).2.clear⟩
      | _ => trivial

end

/-- An invariant of the stores and the requests' ghost states that every step keeps, with
    `Tidy` known, holds in every configuration reached. -/
theorem running_sound {env : Env} (henv : env.Sane) {Guard : ServerConfig → Nat → Op → Prop}
    {Start : Prog Op Op.Res Unit → Prop} (hstart : ∀ p, Start p → Serves env p) {I : World → (Nat → Ghost) → Prop}
    (h0 : I .empty fun _ => .start) (hidle : ∀ w gs i, I w gs → I w (Function.update gs i .start))
    (hstep : ∀ (c : ServerConfig) i op, Tidy env c.world c.ghosts → I c.world c.ghosts →
      (c.ghosts i).Allows env op → Guard c i op →
      I (exec env op c.world).2 (Function.update c.ghosts i ((c.ghosts i).next op (exec env op c.world).1)))
    {c : ServerConfig} (h : Running env Start Guard c) :
    Tidy env c.world c.ghosts ∧ I c.world c.ghosts ∧
      ∀ i, (c.pool i).2.Follows (discipline env) (fun _ _ => True) (c.ghosts i) := by
  have hsound := Reach.sound (I := fun w gs => Tidy env w gs ∧ I w gs) ⟨.empty env, h0⟩
    (fun w gs i hi => ⟨hi.1.idle i, hidle w gs i hi.2⟩)
    (fun c i op hi hok hguard => by
      obtain ⟨hres, ht⟩ := tidy_step henv hi.1 op hok
      exact ⟨hres, ht, hstep c i op hi.1 hi.2 hok hguard⟩)
    (fun p hp => serves_follows (hstart p hp)) h
  exact ⟨hsound.1.1, hsound.1.2, hsound.2⟩

/-! ## Concrete runs -/

/-- The requests that put, copy and delete objects, and the one that makes their bucket. -/
def Request.writesObjects : Request → Bool
  | .createBucket .. | .putObject .. | .copyObject .. | .deleteObject .. => true
  | _ => false

/-- A line of a schedule: a request comes in, the sweeper wakes up, or a program goes on. -/
inductive Event where
  | request (i : Nat) (r : Request)
  | sweep (i : Nat)
  | steps (i n : Nat)

def Event.move (env : Env) : Event → Move Op Op.Res
  | request i r => .start i (r.handler env).discard
  | sweep i => .start i (Handler.discard sweepOnce)
  | steps i n => .steps i n

/-- The line is about one of the first `n` programs, and of a program that may be started. -/
def Event.fits (kinds : Request → Bool) (sweeps : Bool) (n : Nat) : Event → Bool
  | request i r => decide (i < n) && decide r.WellFormed && kinds r
  | sweep i => decide (i < n) && sweeps
  | steps i _ => decide (i < n)

theorem Event.move_fits {env : Env} {kinds : Request → Bool} {sweeps : Bool} {n : Nat} {e : Event}
    (h : e.fits kinds sweeps n = true) : (e.move env).Fits (ServesOnly env kinds sweeps) n := by
  cases e with
  | request i r =>
    simp only [fits, Bool.and_eq_true, decide_eq_true_eq] at h
    exact ⟨h.1.1, Or.inl ⟨r, ⟨h.1.2, h.2⟩, rfl⟩⟩
  | sweep i =>
    simp only [fits, Bool.and_eq_true, decide_eq_true_eq] at h
    exact ⟨h.1, Or.inr ⟨h.2, rfl⟩⟩
  | steps i m =>
    show i < n
    simpa [fits] using h

/-- What a schedule plays to, from the empty store. -/
def playEvents (env : Env) (check : ServerConfig → Nat → Op → Bool) (events : List Event) : Option ServerConfig :=
  (⟨.empty, fun _ => (.start, .ret ())⟩ : ServerConfig).play (exec env) (discipline env) .start check
    (events.map (Event.move env))

theorem running_exists {env : Env} {kinds : Request → Bool} {sweeps : Bool} {Guard : ServerConfig → Nat → Op → Prop}
    (n : Nat) (events : List Event) (check : ServerConfig → Nat → Op → Bool) (Q : ServerConfig → Bool)
    (hcheck : ∀ c i op, c.Quiet .start n → check c i op = true → Guard c i op)
    (hfits : events.all (Event.fits kinds sweeps n) = true) (hplay : (playEvents env check events).any Q = true) :
    ∃ c, Running env (ServesOnly env kinds sweeps) Guard c ∧ Q c = true := by
  refine Reach.exists_play hcheck (fun m hm => ?_) hplay
  obtain ⟨e, he, rfl⟩ := List.mem_map.mp hm
  exact Event.move_fits (List.all_eq_true.mp hfits e he)

/-- A schedule that plays to a configuration of which the theorem at hand says something. -/
theorem running_reaches {env : Env} {Guard : ServerConfig → Nat → Op → Prop} {Good : ServerConfig → Prop} (n : Nat)
    (events : List Event) (check : ServerConfig → Nat → Op → Bool) (Q : ServerConfig → Bool)
    (hcheck : ∀ c i op, c.Quiet .start n → check c i op = true → Guard c i op)
    (hfits : events.all (Event.fits (fun _ => true) true n) = true)
    (hplay : (playEvents env check events).any Q = true)
    (hQ : ∀ c, Running env (Serves env) Guard c → Q c = true → Good c) :
    ∃ c, Running env (Serves env) Guard c ∧ Good c := by
  obtain ⟨c, hc, hq⟩ := running_exists n events check Q hcheck hfits hplay
  have h := hc.mono (fun _ => ServesOnly.serves) fun _ _ _ h => h
  exact ⟨c, h, hQ c h hq⟩

/-- A schedule that plays to a configuration without the property refutes it. -/
theorem running_refutes {env : Env} {kinds : Request → Bool} {sweeps : Bool} {Guard : ServerConfig → Nat → Op → Prop}
    {Safe : ServerConfig → Prop} (n : Nat) (events : List Event) (check : ServerConfig → Nat → Op → Bool)
    (Q : ServerConfig → Bool) (hcheck : ∀ c i op, c.Quiet .start n → check c i op = true → Guard c i op)
    (hfits : events.all (Event.fits kinds sweeps n) = true) (hplay : (playEvents env check events).any Q = true)
    (hQ : ∀ c, Q c = true → ¬ Safe c) : ¬ ∀ c, Running env (ServesOnly env kinds sweeps) Guard c → Safe c := by
  intro hall
  obtain ⟨c, hc, hq⟩ := running_exists n events check Q hcheck hfits hplay
  exact hQ c hq (hall c hc)

end S3lite
