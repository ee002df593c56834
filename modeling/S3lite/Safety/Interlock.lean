/-
  S3lite.Safety.Interlock — the collection of part files against the requests that write,
  copy and drop references to them, in any interleaving.

  A collector marks a part (which checks its count), unlinks its file, and removes its row;
  counting a reference fails on a marked row. `Interlock`: every count is exact, a granted
  hash has a marked row, and one request holds it.
  - `files_present`: every referenced part has its file, as long as no two collectors hold
    one hash, no count saturates, and whoever creates a part's row finds its file in place.
    A part whose file was seen before its collection is referenced without one
    (`a_reused_part_is_collected`).
  - `collection_exclusive`: no referenced part is unlinked or removed, as long as no part is
    marked twice. The mark looks at the count only, so it grants a marked part again
    (`a_part_is_granted_twice`).
-/
import S3lite.Safety.Pool

namespace S3lite

structure Interlock (w : World) (gs : Nat → Ghost) : Prop where
  counted : ∀ h, Exact h w.db
  marked : ∀ i h, (gs i).granted = some h → ∃ e, w.db.parts.get h = some e ∧ e.state = .gcPending
  alone : ∀ i j h, (gs i).granted = some h → (gs j).granted = some h → i = j

/-- No count saturates: none reaches 2^32, also while a put has counted its references and
    not yet dropped those it replaces. -/
def HasRoom (env : Env) (w : World) (op : Op) : Prop :=
  ∀ h, refs (exec env op w).2.db h < 2 ^ 32 ∧
    ∀ m, op = .metaOp (.putManifest m) → refs w.db h + m.refs h < 2 ^ 32

/-- No other request is collecting the hash to mark. -/
def MarksAlone (c : ServerConfig) (i : Nat) (op : Op) : Prop :=
  ∀ h, op = .metaOp (.markPartGcPending h) → ∀ j, j ≠ i → (c.ghosts j).granted ≠ some h

/-- The hash to mark is not marked. -/
def MarksFirst (w : World) (op : Op) : Prop :=
  ∀ h, op = .metaOp (.markPartGcPending h) → ∀ e, w.db.parts.get h = some e → e.state ≠ .gcPending

/-- A part that is to get a row has its file. -/
def FilesFound (w : World) (op : Op) : Prop :=
  ∀ o, op = .metaOp o → ∀ p ∈ o.counts, w.db.parts.get p.hash = none → (w.files.get p.hash).isSome

namespace Interlock

variable {env : Env} {w : World} {gs : Nat → Ghost} {i : Nat}

theorem empty : Interlock .empty fun _ => .start :=
  ⟨fun _ => ⟨rfl, fun _ e => by cases e⟩, fun _ _ e => (by cases e), fun _ _ _ e => (by cases e)⟩

/-- The requests' grants only shrink. -/
theorem of_less (h : Interlock w gs) {gs' : Nat → Ghost} {w' : World} (hdb : w'.db = w.db)
    (hg : ∀ j x, (gs' j).granted = some x → (gs j).granted = some x) : Interlock w' gs' :=
  ⟨hdb ▸ h.counted, fun j x e => hdb ▸ h.marked j x (hg j x e), fun j l x e e' => h.alone j l x (hg j x e) (hg l x e')⟩

theorem granted_update {g : Ghost} (hg : ∀ x, g.granted = some x → (gs i).granted = some x) (j : Nat) (x : Hash)
    (e : (Function.update gs i g j).granted = some x) : (gs j).granted = some x := by
  by_cases hj : j = i
  · subst hj; rw [Function.update_self] at e; exact hg x e
  · rwa [Function.update_of_ne hj] at e

theorem idle (h : Interlock w gs) (i : Nat) : Interlock w (Function.update gs i .start) :=
  h.of_less rfl (granted_update fun x e => by cases e)

/-- A granted hash is referenced by no manifest. -/
theorem unreferenced (h : Interlock w gs) {x : Hash} (hx : (gs i).granted = some x) : refs w.db x = 0 := by
  obtain ⟨e, he, hs⟩ := h.marked i x hx
  exact ((h.counted x).pending_unreferenced he hs).2

theorem granted_nextMeta {g : Ghost} {op : MetaOp} (hm : ∀ x, op ≠ .markPartGcPending x) (hr : ∀ x, op ≠ .removePart x)
    (r : op.Res) : (g.nextMeta op r).granted = g.granted := by
  unfold Ghost.nextMeta
  split <;> first | rfl | exact absurd rfl (hm _) | exact absurd rfl (hr _)

/-- A completion's upload and object are different rows. -/
theorem rowsDiffer (ht : Tidy env w gs) {op : MetaOp} (hok : (gs i).Allows env (.metaOp op)) : op.RowsDiffer := by
  unfold MetaOp.RowsDiffer
  split
  · rename_i k m
    obtain ⟨hb, hk, up, selected, now, hread, hs, -, rfl⟩ := (hok : Completes (gs i) k m)
    obtain ⟨he, hrow⟩ := ht.reading i k up hread
    intro e
    have hclear : (completedManifest k.bucket k.key up selected now).key.NulFree := ⟨hb, hk, null_clear⟩
    have hkey := ManifestKey.encode_injective hrow.clear hclear (he.symm.trans e)
    exact (hrow.upload hs).1 (congrArg ManifestKey.versionId hkey)
  · trivial

theorem counted_step (ht : Tidy env w gs) (h : Interlock w gs) {op : MetaOp} (hok : (gs i).Allows env (.metaOp op))
    (hroom : HasRoom env w (.metaOp op)) (x : Hash) : Exact x (exec env (.metaOp op) w).2.db := by
  refine exec_counted op _ _ (rowsDiffer ht hok) ?_ (hroom x).1 ?_ (h.counted x)
  · unfold MetaOp.Fits
    split
    · exact (hroom x).2 _ rfl
    · trivial
  · rintro rfl
    exact h.unreferenced hok

/-- Every step keeps the interlock, if no count saturates and a hash is marked alone. -/
theorem step (ht : Tidy env w gs) (h : Interlock w gs) (op : Op) (hok : (gs i).Allows env op) (hroom : HasRoom env w op)
    (halone : ∀ x, op = .metaOp (.markPartGcPending x) → ∀ j, j ≠ i → (gs j).granted ≠ some x) :
    Interlock (exec env op w).2 (Function.update gs i ((gs i).next op (exec env op w).1)) := by
  cases op with
  | writeBytes data => exact h.of_less rfl (granted_update fun _ e => e)
  | readPart hash => exact h.of_less rfl (granted_update fun _ e => e)
  | deletePart hash => exact h.of_less rfl (granted_update fun _ e => e)
  | nowUtc => exact h.of_less rfl (granted_update fun _ e => e)
  | newUuid => exact h.of_less rfl (granted_update fun _ e => e)
  | metaOp op =>
    have hcounted := counted_step ht h hok hroom
    by_cases hm : ∃ x, op = .markPartGcPending x
    · obtain ⟨x, rfl⟩ := hm
      have hfree : (gs i).granted = none := hok
      cases hmark : handleMarkGcPending w.db x with
      | error e =>
        simp only [exec, MetaOp.exec, hmark, commit_error] at hcounted ⊢
        exact h.of_less rfl (granted_update fun _ e => e)
      | ok r =>
        obtain ⟨b, db'⟩ := r
        obtain ⟨e, he, ⟨rfl, -, rfl⟩ | ⟨rfl, h0, rfl⟩⟩ := mark_ok hmark
        · simp only [exec, MetaOp.exec, hmark, commit_ok] at hcounted ⊢
          exact h.of_less rfl (granted_update fun _ e => e)
        · simp only [exec, MetaOp.exec, hmark, commit_ok] at hcounted ⊢
          -- the new grant, and those that were there
          have hg : ∀ j y, (Function.update gs i ((gs i).next (.metaOp (.markPartGcPending x)) (.ok true)) j).granted = some y →
              j = i ∧ y = x ∨ j ≠ i ∧ (gs j).granted = some y := by
            intro j y e
            by_cases hj : j = i
            · subst hj; rw [Function.update_self] at e; cases e; exact Or.inl ⟨rfl, rfl⟩
            · rw [Function.update_of_ne hj] at e; exact Or.inr ⟨hj, e⟩
          refine ⟨hcounted, fun j y e' => ?_, fun j l y e1 e2 => ?_⟩
          · rcases hg j y e' with ⟨-, rfl⟩ | ⟨hj, e'⟩
            · exact ⟨_, Table.get_insert_self .., rfl⟩
            · have hyx : y ≠ x := fun hyx => halone x rfl j hj (hyx ▸ e')
              obtain ⟨e1, he1, hs1⟩ := h.marked j y e'
              exact ⟨e1, (Table.get_insert_ne _ _ hyx).trans he1, hs1⟩
          · rcases hg j y e1 with ⟨hj, hy⟩ | ⟨hj, hgj⟩ <;> rcases hg l y e2 with ⟨hl, hy'⟩ | ⟨hl, hgl⟩
            · exact hj.trans hl.symm
            · exact absurd (hy ▸ hgl) (halone x rfl l hl)
            · exact absurd (hy' ▸ hgj) (halone x rfl j hj)
            · exact h.alone j l y hgj hgl
    · by_cases hr : ∃ x, op = .removePart x
      · obtain ⟨x, rfl⟩ := hr
        have hx : (gs i).granted = some x := hok
        have hg : ∀ j y, (Function.update gs i ((gs i).next (.metaOp (.removePart x)) ()) j).granted = some y →
            j ≠ i ∧ (gs j).granted = some y := by
          intro j y e
          by_cases hj : j = i
          · subst hj; rw [Function.update_self] at e; cases e
          · rw [Function.update_of_ne hj] at e; exact ⟨hj, e⟩
        refine ⟨hcounted, fun j y e => ?_, fun j l y e e' => h.alone j l y (hg j y e).2 (hg l y e').2⟩
        obtain ⟨hj, e⟩ := hg j y e
        obtain ⟨r, hr, hs⟩ := h.marked j y e
        have hyx : y ≠ x := fun hyx => hj (h.alone j i y e (hyx ▸ hx))
        exact ⟨r, (Table.get_erase_ne _ hyx).trans hr, hs⟩
      · have hgr : ∀ r : op.Res, ((gs i).nextMeta op r).granted = (gs i).granted := fun r =>
          granted_nextMeta (fun x e => hm ⟨x, e⟩) (fun x e => hr ⟨x, e⟩) r
        have hg : ∀ j y, (Function.update gs i ((gs i).nextMeta op (exec env (.metaOp op) w).1) j).granted = some y →
            (gs j).granted = some y := granted_update fun x e => hgr _ ▸ e
        refine ⟨hcounted, fun j y e => ?_, fun j l y e e' => h.alone j l y (hg j y e) (hg l y e')⟩
        obtain ⟨r, hget, hs⟩ := h.marked j y (hg j y e)
        obtain ⟨r', hget', hs', -⟩ :=
          (exec_recounted (fun x e => hm ⟨x, e⟩) (fun x e => hr ⟨x, e⟩) _ _ w.db).kept y r hget
        exact ⟨r', hget', hs'.trans hs⟩

end Interlock

/-! ## The conditions, decided on a concrete run -/

/-- There is room if there are not even so many references in all. -/
def roomCheck (env : Env) (w : World) (op : Op) : Bool :=
  decide (((exec env op w).2.db.objects.sumBy fun m => m.parts.length) < 2 ^ 32) &&
    match op with
    | .metaOp (.putManifest m) => decide ((w.db.objects.sumBy fun m => m.parts.length) + m.parts.length < 2 ^ 32)
    | _ => true

theorem hasRoom_of_check {env : Env} {w : World} {op : Op} (h : roomCheck env w op = true) : HasRoom env w op := by
  unfold roomCheck at h
  rw [Bool.and_eq_true, decide_eq_true_eq] at h
  intro x
  refine ⟨lt_of_le_of_lt (refs_le_length _ x) h.1, ?_⟩
  rintro m rfl
  have h2 := of_decide_eq_true h.2
  have hm : m.refs x ≤ m.parts.length := List.countP_le_length
  have hw := refs_le_length w.db x
  omega

example : HasRoom sampleEnv .empty (.metaOp (.putManifest (bare key0 .committed [part0]))) :=
  hasRoom_of_check (by rfl)

def aloneCheck (n : Nat) (c : ServerConfig) (i : Nat) : Op → Bool
  | .metaOp (.markPartGcPending h) => (List.range n).all fun j => j == i || decide ((c.ghosts j).granted ≠ some h)
  | _ => true

theorem marksAlone_of_check {n : Nat} {c : ServerConfig} (hq : c.Quiet .start n) {i : Nat} {op : Op}
    (h : aloneCheck n c i op = true) : MarksAlone c i op := by
  rintro x rfl j hj
  by_cases hn : j < n
  · have := List.all_eq_true.mp h j (List.mem_range.mpr hn)
    simpa [hj] using this
  · have e : c.ghosts j = .start := congrArg Prod.fst (hq j (by omega))
    rw [e]
    intro e'
    cases e'

def firstCheck (w : World) : Op → Bool
  | .metaOp (.markPartGcPending h) => (w.db.parts.get h).all fun e => decide (e.state ≠ .gcPending)
  | _ => true

theorem marksFirst_of_check {w : World} {op : Op} (h : firstCheck w op = true) : MarksFirst w op := by
  rintro x rfl e he
  have h : (w.db.parts.get x).all (fun e => decide (e.state ≠ .gcPending)) = true := h
  rw [he] at h
  exact of_decide_eq_true h

def foundCheck (w : World) : Op → Bool
  | .metaOp o => o.counts.all fun p => (w.db.parts.get p.hash).isSome || (w.files.get p.hash).isSome
  | _ => true

theorem filesFound_of_check {w : World} {op : Op} (h : foundCheck w op = true) : FilesFound w op := by
  rintro o rfl p hp hnone
  have := List.all_eq_true.mp h p hp
  rwa [hnone, Option.isSome_none, Bool.false_or] at this

/-! ## Exclusive collection -/

/-- A hash someone holds is marked, so the first to mark it is alone. -/
theorem Interlock.step_first {env : Env} {w : World} {gs : Nat → Ghost} {i : Nat} (ht : Tidy env w gs) (h : Interlock w gs) (op : Op)
    (hok : (gs i).Allows env op) (hroom : HasRoom env w op) (hfirst : MarksFirst w op) :
    Interlock (exec env op w).2 (Function.update gs i ((gs i).next op (exec env op w).1)) := by
  refine h.step ht op hok hroom fun x e j _ hj => ?_
  obtain ⟨r, hr, hs⟩ := h.marked j x hj
  exact hfirst x e r hr hs

/-- The interlock holds as long as no part is marked while it is marked, and no count
    saturates. -/
theorem running_interlock {env : Env} (henv : env.Sane) {Guard : ServerConfig → Nat → Op → Prop}
    (hguard : ∀ c i op, Guard c i op → HasRoom env c.world op ∧ MarksFirst c.world op) {c : ServerConfig}
    (h : Running env (Serves env) Guard c) :
    Interlock c.world c.ghosts ∧ ∀ i, (c.pool i).2.Follows (discipline env) (fun _ _ => True) (c.ghosts i) := by
  obtain ⟨-, hlock, hfollow⟩ := running_sound henv (fun _ hp => hp) Interlock.empty (fun _ _ i hi => hi.idle i)
    (fun c i op ht hi hok hg => hi.step_first ht op hok (hguard c i op hg).1 (hguard c i op hg).2) h
  exact ⟨hlock, hfollow⟩

/-- As long as no part is marked while it is marked, and no count saturates: a part is
    removed only with a count of 0, its file is unlinked only with no manifest referencing
    it, and one request at a time is granted it. -/
theorem collection_exclusive {env : Env} (henv : env.Sane) {c : ServerConfig}
    (h : Running env (Serves env) (fun c _ op => HasRoom env c.world op ∧ MarksFirst c.world op) c) (i : Nat)
    (hash : Hash) :
    (∀ k, (c.pool i).2 = .call (.metaOp (.removePart hash)) k → refcount c.world.db.parts hash = 0) ∧
      (∀ k, (c.pool i).2 = .call (.deletePart hash) k →
        ∀ r ∈ c.world.db.objects.rows, ∀ p ∈ r.2.parts, p.hash ≠ hash) ∧
      ∀ j, (c.ghosts i).granted = some hash → (c.ghosts j).granted = some hash → i = j := by
  obtain ⟨hlock, hfollow⟩ := running_interlock henv (fun _ _ _ hg => hg) h
  have hf := hfollow i
  refine ⟨fun k hk => ?_, fun k hk r hr p hp e => ?_, fun j hi hj => hlock.alone i j hash hi hj⟩
  · rw [hk] at hf
    rw [(hlock.counted hash).count]
    exact hlock.unreferenced hf.1
  · rw [hk] at hf
    have h0 := hlock.unreferenced (i := i) (x := hash) hf.1
    exact absurd (refs_pos.mpr ⟨r, hr, p, hp, e⟩) (by omega)

/-- Put an object twice, so that the second collects the bytes of the first. -/
def overwritten : List Event :=
  [.request 0 (.createBucket (str "bucket") []), .steps 0 2,
    .request 0 (.putObject (str "bucket") (str "k") [] (str "a")), .steps 0 4,
    .request 1 (.putObject (str "bucket") (str "k") [] (str "b")), .steps 1 5]

theorem collection_exclusive_overwritten : ∃ c,
    Running sampleEnv (Serves sampleEnv) (fun c _ op => HasRoom sampleEnv c.world op ∧ MarksFirst c.world op) c ∧
      ∃ i hash k, (c.pool i).2 = .call (.deletePart hash) k ∧
        ∀ r ∈ c.world.db.objects.rows, ∀ p ∈ r.2.parts, p.hash ≠ hash := by
  apply running_reaches 2 overwritten (fun c _ op => roomCheck sampleEnv c.world op && firstCheck c.world op)
    fun c => ((c.pool 1).2.pending.bind Op.deletedPart).isSome
  · intro c _ op _ h
    rw [Bool.and_eq_true] at h
    exact ⟨hasRoom_of_check h.1, marksFirst_of_check h.2⟩
  · rfl
  · rfl
  · intro c hc hq
    obtain ⟨hash, hhash⟩ := Option.isSome_iff_exists.mp hq
    obtain ⟨op, hop, hdel⟩ := Option.bind_eq_some_iff.mp hhash
    obtain rfl := Op.eq_of_deletedPart hdel
    obtain ⟨k, hk⟩ := Prog.exists_call hop
    exact ⟨1, hash, k, hk, (collection_exclusive sampleEnv_sane hc 1 hash).2.1 k hk⟩

/-- An orphan is marked by the sweeper and by the request that freed it: the sweeper collects
    it, a PUT of the same bytes brings it back, and the request removes it. -/
def markedTwice : List Event :=
  [.request 0 (.createBucket (str "bucket") []), .steps 0 2,
    .request 0 (.putObject (str "bucket") (str "k") [] (str "a")), .steps 0 4,
    .request 0 (.putObject (str "bucket") (str "k") [] (str "b")), .steps 0 4,
    .sweep 1, .steps 1 4, .steps 0 1, .steps 1 2,
    .request 2 (.putObject (str "bucket") (str "l") [] (str "a")), .steps 2 4, .steps 0 1]

/-- The first program is about to remove a row with a count. -/
def removesCounted (c : ServerConfig) : Bool :=
  match (c.pool 0).2 with
  | .call (.metaOp (.removePart hash)) _ => decide (refcount c.world.db.parts hash ≠ 0)
  | _ => false

theorem a_part_is_granted_twice :
    ¬ ∀ c, Running sampleEnv (ServesOnly sampleEnv Request.writesObjects true) (fun _ _ _ => True) c → ∀ i hash k,
      (c.pool i).2 = .call (.metaOp (.removePart hash)) k → refcount c.world.db.parts hash = 0 := by
  apply running_refutes 3 markedTwice (fun _ _ _ => true) removesCounted
  · exact fun _ _ _ _ _ => trivial
  · rfl
  · rfl
  · intro c hq hall
    unfold removesCounted at hq
    split at hq
    · rename_i hash k hk
      exact of_decide_eq_true hq (hall 0 hash k hk)
    · cases hq

/-! ## Present files -/

/-- Every live row has its file. -/
def LiveFiles (w : World) : Prop := ∀ h e, w.db.parts.get h = some e → e.state = .live → (w.files.get h).isSome

theorem liveFiles_step {env : Env} {w : World} {gs : Nat → Ghost} {i : Nat} (hi : Interlock w gs) (h : LiveFiles w)
    (op : Op) (hok : (gs i).Allows env op) (hfound : FilesFound w op) : LiveFiles (exec env op w).2 := by
  cases op with
  | writeBytes data =>
    intro x e hx hs
    show ((writePart env w.files data).2.get x).isSome
    rw [writePart_get]
    split
    · rfl
    · exact h x e hx hs
  | readPart hash => exact h
  | nowUtc => exact h
  | newUuid => exact h
  | deletePart hash =>
    intro x e hx hs
    have hne : x ≠ hash := by
      rintro rfl
      obtain ⟨r, hr, hs'⟩ := hi.marked i x hok
      rw [show w.db.parts.get x = some e from hx] at hr
      cases hr
      rw [hs] at hs'
      cases hs'
    show ((w.files.erase hash).get x).isSome
    rw [Table.get_erase_ne _ hne]
    exact h x e hx hs
  | metaOp op =>
    intro x e hx hs
    show (w.files.get x).isSome
    by_cases hm : ∃ y, op = .markPartGcPending y
    · obtain ⟨y, rfl⟩ := hm
      cases hmark : handleMarkGcPending w.db y with
      | error _ => simp only [exec, MetaOp.exec, hmark, commit_error] at hx; exact h x e hx hs
      | ok r =>
        obtain ⟨b, db'⟩ := r
        simp only [exec, MetaOp.exec, hmark, commit_ok] at hx
        obtain ⟨r, hr, ⟨-, -, rfl⟩ | ⟨-, -, rfl⟩⟩ := mark_ok hmark
        · exact h x e hx hs
        · by_cases hxy : x = y
          · subst hxy
            rw [Table.get_insert_self] at hx
            cases hx
            cases hs
          · rw [Table.get_insert_ne _ _ hxy] at hx
            exact h x e hx hs
    · by_cases hr : ∃ y, op = .removePart y
      · obtain ⟨y, rfl⟩ := hr
        have hx : (w.db.parts.erase y).get x = some e := hx
        rw [Table.get_erase] at hx
        split at hx
        · cases hx
        · exact h x e hx hs
      · have hrec := exec_recounted (fun y e => hm ⟨y, e⟩) (fun y e => hr ⟨y, e⟩) (env.now w.clock)
          (env.now (w.clock + 1)) w.db
        cases hold : w.db.parts.get x with
        | none =>
          obtain ⟨-, hc⟩ := hrec.created x e hold hx
          obtain ⟨p, hp, rfl⟩ := List.mem_map.mp hc
          exact hfound op rfl p hp hold
        | some r =>
          obtain ⟨r', hr', hs', -⟩ := hrec.kept x r hold
          rw [show (op.exec (env.now w.clock) (env.now (w.clock + 1)) w.db).2.parts.get x = some e from hx] at hr'
          cases hr'
          exact h x r hold (hs' ▸ hs)

/-- As long as one request at a time collects a hash, no count saturates, and a part that
    gets a row has its file: every part a manifest references has its file. -/
theorem files_present {env : Env} (henv : env.Sane) {c : ServerConfig}
    (h : Running env (Serves env)
      (fun c i op => MarksAlone c i op ∧ HasRoom env c.world op ∧ FilesFound c.world op) c) :
    ∀ r ∈ c.world.db.objects.rows, ∀ p ∈ r.2.parts, (c.world.files.get p.hash).isSome := by
  obtain ⟨-, ⟨hlock, hlive⟩, -⟩ := running_sound henv (fun _ hp => hp) (I := fun w gs => Interlock w gs ∧ LiveFiles w)
    ⟨Interlock.empty, fun _ _ e => by cases e⟩ (fun _ _ i hi => ⟨hi.1.idle i, hi.2⟩)
    (fun c i op ht hi hok hguard =>
      ⟨hi.1.step ht op hok hguard.2.1 hguard.1, liveFiles_step hi.1 hi.2 op hok hguard.2.2⟩) h
  intro r hr p hp
  obtain ⟨e, he, -, hs⟩ := (hlock.counted p.hash).row (refs_pos.mpr ⟨r, hr, p, hp, rfl⟩)
  exact hlive _ e he hs

/-- Every live row has its file, as long as no part is marked while it is marked, no count
    saturates, and a part that gets a row has its file. -/
theorem running_liveFiles {env : Env} (henv : env.Sane) {Guard : ServerConfig → Nat → Op → Prop}
    (hguard : ∀ c i op, Guard c i op → HasRoom env c.world op ∧ MarksFirst c.world op ∧ FilesFound c.world op) {c : ServerConfig}
    (h : Running env (Serves env) Guard c) : Interlock c.world c.ghosts ∧ LiveFiles c.world := by
  obtain ⟨-, hi, -⟩ := running_sound henv (fun _ hp => hp) (I := fun w gs => Interlock w gs ∧ LiveFiles w)
    ⟨Interlock.empty, fun _ _ e => by cases e⟩ (fun _ _ i hi => ⟨hi.1.idle i, hi.2⟩)
    (fun c i op ht hi hok hg =>
      ⟨hi.1.step_first ht op hok (hguard c i op hg).1 (hguard c i op hg).2.1, liveFiles_step hi.1 hi.2 op hok (hguard c i op hg).2.2⟩) h
  exact hi

/-- A PUT that finds the file of its bytes in place, and their last reference dropped and
    collected before it counts its own. -/
def reusedPart : List Event :=
  [.request 0 (.createBucket (str "bucket") []), .steps 0 2,
    .request 0 (.putObject (str "bucket") (str "k") [] (str "a")), .steps 0 4,
    .request 1 (.putObject (str "bucket") (str "l") [] (str "a")), .steps 1 2,
    .request 0 (.deleteObject (str "bucket") (str "k") none), .steps 0 6, .steps 1 2]

theorem a_reused_part_is_collected :
    ¬ ∀ c, Running sampleEnv (ServesOnly sampleEnv Request.writesObjects false) (fun c i op => MarksAlone c i op) c →
      ∀ r ∈ c.world.db.objects.rows, ∀ p ∈ r.2.parts, (c.world.files.get p.hash).isSome := by
  apply running_refutes 2 reusedPart (aloneCheck 2)
    fun c => c.world.db.objects.rows.any fun r => r.2.parts.any fun p => (c.world.files.get p.hash).isNone
  · exact fun c i op hq h => marksAlone_of_check hq h
  · rfl
  · rfl
  · intro c hq hall
    obtain ⟨r, hr, hp⟩ := List.any_eq_true.mp hq
    obtain ⟨p, hp, hnone⟩ := List.any_eq_true.mp hp
    have := hall r hr p hp
    rw [Option.isNone_iff_eq_none.mp hnone] at this
    cases this

theorem files_present_overwritten : ∃ c,
    Running sampleEnv (Serves sampleEnv)
      (fun c i op => MarksAlone c i op ∧ HasRoom sampleEnv c.world op ∧ FilesFound c.world op) c ∧
        ∃ r ∈ c.world.db.objects.rows, ∃ p ∈ r.2.parts, (c.world.files.get p.hash).isSome := by
  apply running_reaches 2 overwritten
    (fun c i op => aloneCheck 2 c i op && (roomCheck sampleEnv c.world op && foundCheck c.world op))
    fun c => c.world.db.objects.rows.any fun r => !r.2.parts.isEmpty
  · intro c i op hq h
    rw [Bool.and_eq_true, Bool.and_eq_true] at h
    exact ⟨marksAlone_of_check hq h.1, hasRoom_of_check h.2.1, filesFound_of_check h.2.2⟩
  · rfl
  · rfl
  · intro c hc hq
    obtain ⟨r, hr, hp⟩ := List.any_eq_true.mp hq
    obtain ⟨p, hp⟩ := List.exists_mem_of_ne_nil r.2.parts (by simpa using hp)
    exact ⟨r, hr, p, hp, files_present sampleEnv_sane hc r hr p hp⟩

end S3lite
