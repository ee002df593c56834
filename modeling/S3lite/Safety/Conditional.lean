/-
  S3lite.Safety.Conditional — conditional PUTs on one key of a bucket without versioning.

  A PUT checks its condition on the row it reads and stores its manifest later. A log beside
  the world (`Op.storesRow`) has the PUTs that succeeded.
  - `Takes`: what the PUTs of one kind have in common: they store only when the row they
    read is free, and what they store is not.
  - `takes_once`: where each of them stores over the row it read, one of them does at most.
  - `conditional_puts_once`: so of the PUTs with `If-None-Match: *`, and of those with
    `If-Match` on the current ETag, one succeeds at most. Two that both read before either
    stores both succeed (`two_puts_succeed`).
-/
import S3lite.Safety.Pool
import S3lite.Base.Split
import S3lite.Server.Decimal

namespace S3lite

open Handler

/-! ## ETags -/

theorem hexDigit_ne_comma : ∀ n < 16, hexDigit n ≠ 44 := by decide

theorem comma_hexEncode (b : Bytes) : 44 ∉ hexEncode b := by
  intro h
  obtain ⟨c, -, h⟩ := List.mem_flatMap.mp h
  simp only [List.mem_cons, List.not_mem_nil, or_false] at h
  have := c.toNat_lt
  rcases h with h | h
  · exact hexDigit_ne_comma _ (by omega) h.symm
  · exact hexDigit_ne_comma _ (by omega) h.symm

theorem comma_toString (n : Nat) : 44 ∉ str (toString n) :=
  fun h => absurd ((natStr_digits n).2 44 h).1 (by decide)

/-- An ETag is a quoted string without a comma. -/
theorem etag_quoted {env : Env} {m : Manifest} {e : Str} (h : m.etag env.md5 env.debug = some e) :
    ∃ s, e = quote s ∧ 44 ∉ s := by
  unfold Manifest.etag at h
  split at h
  · split at h
    · cases h
    · obtain ⟨part, -, rfl⟩ := Option.map_eq_some_iff.mp h
      exact ⟨_, rfl, comma_hexEncode _⟩
  · cases h
    refine ⟨_, rfl, fun hc => ?_⟩
    rcases List.mem_append.mp hc with hc | hc
    · rcases List.mem_append.mp hc with hc | hc
      · exact comma_hexEncode _ hc
      · exact absurd hc (by decide)
    · exact comma_toString _ hc

/-- No white space starts with a quote. -/
theorem not_prefix_quote {pats : List Bytes} (hpats : ∀ p ∈ pats, p ≠ [] ∧ p.head? ≠ some 34) (s : Bytes) :
    ∀ p ∈ pats, ¬ p <+: 34 :: s := by
  intro p hp hpre
  obtain ⟨hne, hhead⟩ := hpats p hp
  cases p with
  | nil => exact hne rfl
  | cons c p =>
    obtain ⟨rfl, -⟩ := List.cons_prefix_cons.mp hpre
    exact hhead rfl

theorem trim_quote (s : Str) : trim (quote s) = quote s := by
  have hquote : quote s = 34 :: (s ++ [34]) := rfl
  have hreverse : (quote s).reverse = 34 :: (s.reverse ++ [34]) := by
    rw [hquote, List.reverse_cons, List.reverse_append]
    rfl
  unfold trim
  simp only
  rw [hquote, dropLeading_none (not_prefix_quote (by decide) _), ← hquote, hreverse,
    dropLeading_none (not_prefix_quote (by decide) _), ← hreverse, List.reverse_reverse]

theorem comma_quote {s : Str} (h : 44 ∉ s) : 44 ∉ quote s := by
  intro hc
  rcases List.mem_cons.mp (show 44 ∈ 34 :: (s ++ [34]) from hc) with hc | hc
  · exact absurd hc (by decide)
  · rcases List.mem_append.mp hc with hc | hc
    · exact h hc
    · exact absurd (List.mem_singleton.mp hc) (by decide)

/-- A header with one ETag matches that one only. -/
theorem etagMatches_etag {env : Env} {m : Manifest} {e x : Str} (h : m.etag env.md5 env.debug = some e)
    (hx : etagMatches e x = true) : e = x := by
  obtain ⟨s, rfl, hcomma⟩ := etag_quoted h
  have hnot : 44 ∉ quote s := comma_quote hcomma
  have hstar : quote s ≠ str "*" := by
    intro he
    exact absurd (congrArg List.head? he) (by rw [show (quote s).head? = some 34 from rfl]; decide)
  unfold etagMatches at hx
  simp only [trim_quote, splitByte_none hnot, Bool.or_eq_true, beq_iff_eq, List.any_cons, List.any_nil, Bool.or_false] at hx
  exact hx.resolve_left hstar

theorem etagMatches_star (x : Str) : etagMatches (str "*") x = true := by
  unfold etagMatches
  simp only [show trim (str "*") = str "*" by rfl, beq_self_eq_true, Bool.true_or]

example : etagMatches (str "\"a\", \"b\"") (str "\"b\"") = true := by rfl

/-! ## What passes the check -/

/-- The object in a row. -/
def liveObject (row : Option Manifest) : Option Manifest := row.filter fun m => m.state = .committed ∧ m.kind = .object

/-- The conditions of the headers hold of the row. -/
structure PutPasses (env : Env) (headers : HeaderMap) (row : Option Manifest) : Prop where
  ifMatch : ∀ im, headerString headers (str "if-match") = some im →
    ∃ m etag, liveObject row = some m ∧ m.etag env.md5 env.debug = some etag ∧ etagMatches im etag = true
  ifNoneMatch : ∀ inm, headerString headers (str "if-none-match") = some inm →
    ∀ m, liveObject row = some m → ∃ etag, m.etag env.md5 env.debug = some etag ∧ etagMatches inm etag = false

section
variable {G : Type} {P : Prog.Protocol Op Op.Res G} {env : Env} {g : G}

theorem keeps_existingMatches_result {existing : Option Manifest} {raw : Str} {Q : Bool → G → Prop}
    (hnone : existing = none → Q false g)
    (hsome : ∀ m etag, existing = some m → m.etag env.md5 env.debug = some etag → Q (etagMatches raw etag) g) :
    Keeps P (existingMatches env existing raw) g Q := by
  unfold existingMatches
  split
  · exact keeps_ok.mpr (hnone rfl)
  · rename_i m
    rw [keeps_bind]
    exact keeps_etagOf fun etag h => keeps_ok.mpr (hsome m etag rfl h)

/-- A conditional PUT goes on when its conditions hold of the row it read. -/
theorem keeps_checkPutPreconditions_passes {bucket key : Str} {headers : HeaderMap} {Q : Unit → G → Prop}
    (hcond : headerString headers (str "if-match") ≠ none ∨ headerString headers (str "if-none-match") ≠ none)
    (hok : P.ok g (.metaOp (.getManifest ⟨bucket, key, nullVersionId⟩)))
    (hq : ∀ row, PutPasses env headers row → Q () (P.next g (.metaOp (.getManifest ⟨bucket, key, nullVersionId⟩)) row)) :
    Keeps P (checkPutPreconditions env bucket key headers) g Q := by
  unfold checkPutPreconditions
  simp only
  rw [if_neg (by tauto)]
  simp only [keeps_bind, keeps_op]
  refine ⟨hok, fun row _ => ?_⟩
  show Keeps P (checkIfMatch env bucket key (liveObject row) (headerString headers (str "if-match"))) _ _
  have hnonematch : (∀ im, headerString headers (str "if-match") = some im →
      ∃ m etag, liveObject row = some m ∧ m.etag env.md5 env.debug = some etag ∧ etagMatches im etag = true) →
      Keeps P (checkIfNoneMatch env bucket key (liveObject row) (headerString headers (str "if-none-match")))
        (P.next g (.metaOp (.getManifest ⟨bucket, key, nullVersionId⟩)) row) Q := by
    intro hmatch
    unfold checkIfNoneMatch
    split
    · rename_i hinm
      exact keeps_ok.mpr (hq row ⟨hmatch, fun inm h => by rw [hinm] at h; cases h⟩)
    · rename_i inm hinm
      rw [keeps_bind]
      refine keeps_existingMatches_result (fun hnone => ?_) fun m etag hm hetag => ?_
      · refine keeps_ensure.mpr fun _ => hq row ⟨hmatch, fun _ _ m hm => ?_⟩
        rw [hnone] at hm
        cases hm
      · refine keeps_ensure.mpr fun hblocks => hq row ⟨hmatch, fun inm' h m' hm' => ?_⟩
        rw [hinm] at h
        cases h
        rw [hm] at hm'
        cases hm'
        exact ⟨etag, hetag, hblocks⟩
  unfold checkIfMatch
  split
  · rename_i him
    exact keeps_ok.mpr (hnonematch fun im h => by rw [him] at h; cases h)
  · rename_i im him
    rw [keeps_bind]
    refine keeps_existingMatches_result (fun _ => keeps_ensure.mpr fun h => by cases h) fun m etag hm hetag => ?_
    refine keeps_ensure.mpr fun hpass => hnonematch fun im' h => ?_
    rw [him] at h
    cases h
    exact ⟨m, etag, hm, hetag, hpass⟩

end

/-! ## The log -/

abbrev LoggedConfig := Config Op Op.Res (World × List Op) Ghost

/-- The configurations reached from a world with the row transactions that succeeded since,
    the last one first. -/
abbrev Logged (env : Env) (Start : Prog Op Op.Res Unit → Prop) (Guard : LoggedConfig → Nat → Op → Prop) (w0 : World) :
    LoggedConfig → Prop :=
  Reach (logged (exec env) Op.storesRow) (discipline env) .start Start Guard (w0, [])

/-! ## PUTs that take a row -/

/-- PUTs to one row: they store only what takes it, and only when the row they read is free. -/
def taking (env : Env) (slot : ManifestKey) (Free : Option Manifest → Prop) (Takes : Manifest → Prop) :
    Prog.Protocol Op Op.Res Ghost where
  ok := fun g op => match op with
    | .metaOp (.putManifest m) => m.key = slot ∧ Takes m ∧ Free (g.reading.map (·.2))
    | .metaOp op => op.keepsRows = true
    | _ => True
  res := fun _ op r => match op, r with
    | .metaOp (.getBucket bucket), r => ∀ cfg, bucket = slot.bucket → r = some cfg → cfg.versioning = .off
    | .writeBytes data, r => r = writeResult env data
    | _, _ => True
  next := fun g op r => g.next op r

section
variable {env : Env} {slot : ManifestKey} {Free : Option Manifest → Prop} {Takes : Manifest → Prop}

theorem taking_allowsGc : AllowsGc (taking env slot Free Takes) := ⟨fun _ _ => rfl, fun _ _ => trivial, fun _ _ => rfl⟩

theorem taking_putObject {bucket key : Str} {headers : HeaderMap} {body : Bytes} {g : Ghost}
    (hcond : headerString headers (str "if-match") ≠ none ∨ headerString headers (str "if-none-match") ≠ none)
    (hfree : ∀ row, PutPasses env headers row → Free row)
    (htakes : ∀ tags checksum lock now,
      Takes (singlePutManifest ⟨bucket, key, nullVersionId⟩ (writeResult env body) headers tags checksum lock now)) :
    Keeps (taking env ⟨bucket, key, nullVersionId⟩ Free Takes) (putObject env bucket key headers body) g fun _ _ => True := by
  unfold putObject requireBucket
  simp only [keeps_bind, keeps_op, keeps_orFail, keeps_ofExcept, keeps_ensure, keeps_mapErr, keeps_ok]
  refine ⟨rfl, fun found hfound cfg hcfg => ?_⟩
  have hoff : cfg.versioning = .off := hfound cfg rfl hcfg
  refine keeps_checkPutPreconditions_passes hcond rfl fun row hrow => ?_
  intro _ _ _ checksum _ _ _
  refine ⟨trivial, fun written hw => ?_⟩
  obtain rfl : written = writeResult env body := hw
  rw [hoff]
  show Keeps _ (ok nullVersionId) _ _
  rw [keeps_ok]
  intro tags _ headerLock _
  refine Ignores.lockForPut (fun g => ⟨trivial, fun _ => rfl⟩) fun lock => ⟨trivial, fun now _ => ?_⟩
  refine keeps_etagOf fun etag _ => ⟨⟨rfl, htakes _ _ _ _, ?_⟩, fun r _ effect _ => taking_allowsGc.gcFreedParts fun _ => trivial⟩
  have hread := hfree row hrow
  cases row <;> exact hread

/-- The PUTs store over the row they read. -/
def StoresOverRead (c : LoggedConfig) (i : Nat) (op : Op) : Prop :=
  ∀ m, op = .metaOp (.putManifest m) → c.world.1.db.objects.get m.key.encode = (c.ghosts i).reading.map (·.2)

variable (slot Free Takes) in
/-- At most one of them succeeds, when each stores over the row it read. -/
theorem takes_once (htaken : ∀ m, Takes m → ¬ Free (some m)) {Start : Prog Op Op.Res Unit → Prop}
    (hstart : ∀ p, Start p → p.Follows (taking env slot Free Takes) (fun _ _ => True) .start) {w0 : World}
    (hoff : ∀ cfg, w0.db.buckets.get slot.bucket = some cfg → cfg.versioning = .off) {c : LoggedConfig}
    (h : Logged env Start StoresOverRead w0 c) : c.world.2.length ≤ 1 := by
  have h' : Reach (logged (exec env) Op.storesRow) (taking env slot Free Takes) .start Start StoresOverRead (w0, []) c := by
    refine Reach.of_next ?_ h
    exact fun _ _ _ => rfl
  -- once one has stored, the row is no longer free
  have hsound := Reach.sound
    (I := fun (w : World × List Op) _ => w.1.db.buckets = w0.db.buckets ∧ (w.2 = [] ∨
      w.2.length = 1 ∧ ∃ m, w.1.db.objects.get slot.encode = some m ∧ Takes m))
    ⟨rfl, Or.inl rfl⟩ (fun _ _ _ h => h) ?_ hstart h'
  · rcases hsound.1.2 with h | ⟨h, -⟩
    · rw [h]
      exact Nat.zero_le _
    · exact h.le
  · intro c i op hi hok hguard
    obtain ⟨hbuckets, hlog⟩ := hi
    cases op with
    | metaOp op =>
      by_cases hput : ∃ m, op = .putManifest m
      · obtain ⟨m, rfl⟩ := hput
        obtain ⟨rfl, htakes, hfree⟩ := hok
        refine ⟨trivial, ?_⟩
        rw [← hguard m rfl] at hfree
        -- the row is free, so none has stored yet
        have hnone : c.world.2 = [] := by
          rcases hlog with h | ⟨-, m', hm', ht'⟩
          · exact h
          · rw [hm'] at hfree
            exact absurd hfree (htaken m' ht')
        show (exec env (.metaOp (.putManifest m)) c.world.1).2.db.buckets = w0.db.buckets ∧ _
        cases hexec : handlePutManifest c.world.1.db (env.now c.world.1.clock) m with
        | error e =>
          simp only [logged, exec, MetaOp.exec, hexec, commit_error, Op.storesRow]
          exact ⟨hbuckets, Or.inl hnone⟩
        | ok r =>
          have hcommit : handlePutManifest c.world.1.db (env.now c.world.1.clock) m = .ok (r.1, r.2) := hexec
          obtain ⟨parts, -, -, hdb⟩ := put_ok hcommit
          simp only [logged, exec, MetaOp.exec, hexec, commit, Op.storesRow, if_true, hnone, hdb]
          exact ⟨hbuckets, Or.inr ⟨rfl, m, Table.get_insert_self .., htakes⟩⟩
      · have hkeeps : op.keepsRows = true := by
          cases op with
          | putManifest m => exact absurd ⟨m, rfl⟩ hput
          | _ => exact hok
        obtain ⟨hobjects, hb⟩ : (exec env (.metaOp op) c.world.1).2.db.objects = c.world.1.db.objects ∧ _ := exec_metaOp_keepsRows hkeeps _
        have hlogged : Op.storesRow (.metaOp op) (exec env (.metaOp op) c.world.1).1 = false := storesRow_of_keepsRows hkeeps _
        refine ⟨?_, hb.trans hbuckets, ?_⟩
        · cases op with
          | getBucket bucket =>
            intro cfg hbucket hcfg
            subst hbucket
            refine hoff cfg ?_
            rw [← hbuckets]
            exact hcfg
          | _ => trivial
        · simp only [logged, hlogged, Bool.false_eq_true, if_false]
          rw [hobjects]
          exact hlog
    | writeBytes data => exact ⟨rfl, hbuckets, hlog⟩
    | readPart hash => exact ⟨trivial, hbuckets, hlog⟩
    | deletePart hash => exact ⟨trivial, hbuckets, hlog⟩
    | nowUtc => exact ⟨trivial, hbuckets, hlog⟩
    | newUuid => exact ⟨trivial, hbuckets, hlog⟩

end

/-- The PUTs with `If-None-Match: *`. -/
def PutsIfAbsent (env : Env) (bucket key : Str) (p : Prog Op Op.Res Unit) : Prop :=
  ∃ headers body, headerString headers (str "if-none-match") = some (str "*") ∧
    p = (putObject env bucket key headers body).discard

/-- The PUTs with `If-Match` on an ETag, of bodies with another. -/
def PutsIfMatch (env : Env) (bucket key e : Str) (p : Prog Op Op.Res Unit) : Prop :=
  ∃ headers body, headerString headers (str "if-match") = some e ∧ etagOfMd5 (env.md5 body) ≠ e ∧
    p = (putObject env bucket key headers body).discard

/-- In a bucket without versioning, where every PUT stores over the row it read: of any PUTs
    with `If-None-Match: *` on a key, in any order of their steps, one succeeds at most; and
    so of any PUTs with `If-Match` on the current ETag that write bodies with another. -/
theorem conditional_puts_once {env : Env} {bucket key : Str} {w0 : World}
    (hoff : ∀ cfg, w0.db.buckets.get bucket = some cfg → cfg.versioning = .off) :
    (∀ c, Logged env (PutsIfAbsent env bucket key) StoresOverRead w0 c → c.world.2.length ≤ 1) ∧
    ∀ m e, w0.db.objects.get (ManifestKey.mk bucket key nullVersionId).encode = some m →
      m.etag env.md5 env.debug = some e →
      ∀ c, Logged env (PutsIfMatch env bucket key e) StoresOverRead w0 c → c.world.2.length ≤ 1 := by
  constructor
  · intro c h
    refine takes_once ⟨bucket, key, nullVersionId⟩ (fun row => liveObject row = none)
      (fun m => m.state = .committed ∧ m.kind = .object) ?_ ?_ hoff h
    · rintro m ⟨hs, hk⟩ hfree
      simp [liveObject, hs, hk] at hfree
    · rintro p ⟨headers, body, hinm, rfl⟩
      refine (taking_putObject (Or.inr (by rw [hinm]; nofun)) (fun row hrow => ?_) fun _ _ _ _ => ⟨rfl, rfl⟩).discard
      cases hlive : liveObject row with
      | none => rfl
      | some m =>
        obtain ⟨etag, -, hno⟩ := hrow.ifNoneMatch _ hinm m hlive
        rw [etagMatches_star] at hno
        cases hno
  · intro m e _ he c h
    refine takes_once ⟨bucket, key, nullVersionId⟩
      (fun row => ∃ m, liveObject row = some m ∧ m.etag env.md5 env.debug = some e)
      (fun m => m.etag env.md5 env.debug ≠ some e) ?_ ?_ hoff h
    · rintro m htakes ⟨m', hlive, he'⟩
      obtain ⟨hm, -⟩ := Option.filter_eq_some_iff.mp hlive
      cases hm
      exact htakes he'
    · rintro p ⟨headers, body, him, hbody, rfl⟩
      refine (taking_putObject (Or.inl (by rw [him]; nofun)) (fun row hrow => ?_) fun tags checksum lock now hetag => ?_).discard
      · obtain ⟨m', etag, hlive, hetag, hmatch⟩ := hrow.ifMatch _ him
        rw [← etagMatches_etag he hmatch] at hetag
        exact ⟨m', hlive, hetag⟩
      · unfold Manifest.etag singlePutManifest at hetag
        simp only [List.length_singleton, bne_self_eq_false, Bool.and_false, Bool.false_eq_true, if_false, List.head?_cons,
          Option.map_some, Option.some.injEq] at hetag
        exact hbody hetag

/-- The world with one bucket, which has no object. -/
def bucketWorld : World := (run sampleEnv (createBucket sampleEnv (str "bucket") []) .empty).2

/-- PUT `k` if there is none, with these bytes. -/
def putIfAbsent (i : Nat) (body : Bytes) : Move Op Op.Res :=
  .start i (putObject sampleEnv (str "bucket") (str "k") [(str "if-none-match", str "*")] body).discard

theorem putIfAbsent_fits {i n : Nat} {body : Bytes} (hi : i < n) :
    (putIfAbsent i body).Fits (PutsIfAbsent sampleEnv (str "bucket") (str "k")) n :=
  ⟨hi, _, body, by rfl, rfl⟩

/-- One PUT runs before the other. -/
def oneAfterTheOther : List (Move Op Op.Res) :=
  [putIfAbsent 0 (str "a"), putIfAbsent 1 (str "b"), .steps 0 5, .steps 1 2]

/-- The PUT stores where it read no row and there is none. -/
def absentCheck (c : LoggedConfig) (i : Nat) : Op → Bool
  | .metaOp (.putManifest m) => (c.world.1.db.objects.get m.key.encode).isNone && (c.ghosts i).reading.isNone
  | _ => true

theorem storesOverRead_of_check {c : LoggedConfig} {i : Nat} {op : Op} (h : absentCheck c i op = true) : StoresOverRead c i op := by
  intro m e
  subst e
  obtain ⟨hrow, hread⟩ := Bool.and_eq_true_iff.mp h
  rw [Option.isNone_iff_eq_none.mp hrow, Option.isNone_iff_eq_none.mp hread]
  rfl

/-- A schedule of these PUTs that plays to a configuration with the log as it should be. -/
theorem logged_exists {Guard : LoggedConfig → Nat → Op → Prop} (check : LoggedConfig → Nat → Op → Bool)
    (hcheck : ∀ c i op, check c i op = true → Guard c i op) (moves : List (Move Op Op.Res))
    (hms : ∀ m ∈ moves, m.Fits (PutsIfAbsent sampleEnv (str "bucket") (str "k")) 2) (n : Nat)
    (hplay : ((⟨(bucketWorld, []), fun _ => (.start, .ret ())⟩ : LoggedConfig).play (logged (exec sampleEnv) Op.storesRow)
      (discipline sampleEnv) .start check moves).any (fun c => decide (c.world.2.length = n)) = true) :
    ∃ c, Logged sampleEnv (PutsIfAbsent sampleEnv (str "bucket") (str "k")) Guard bucketWorld c ∧ c.world.2.length = n := by
  obtain ⟨c, hc, hn⟩ := Reach.exists_play (fun c i op _ h => hcheck c i op h) hms hplay
  exact ⟨c, hc, of_decide_eq_true hn⟩

theorem bucketWorld_off : ∀ cfg, bucketWorld.db.buckets.get (str "bucket") = some cfg → cfg.versioning = .off := by
  intro cfg h
  have hoff : (bucketWorld.db.buckets.get (str "bucket")).all (fun cfg => decide (cfg.versioning = .off)) = true := by
    rfl
  rw [h] at hoff
  exact of_decide_eq_true hoff

theorem conditional_puts_once_first : ∃ c,
    Logged sampleEnv (PutsIfAbsent sampleEnv (str "bucket") (str "k")) StoresOverRead bucketWorld c ∧
      c.world.2.length = 1 ∧ c.world.2.length ≤ 1 := by
  obtain ⟨c, hc, hn⟩ := logged_exists absentCheck (fun _ _ _ => storesOverRead_of_check) oneAfterTheOther
    (by
      intro m hm
      unfold oneAfterTheOther at hm
      simp only [List.mem_cons, List.not_mem_nil, or_false] at hm
      rcases hm with rfl | rfl | rfl | rfl
      · exact putIfAbsent_fits (by omega)
      · exact putIfAbsent_fits (by omega)
      · show (0 : Nat) < 2
        omega
      · show (1 : Nat) < 2
        omega)
    1 (by rfl)
  exact ⟨c, hc, hn, (conditional_puts_once bucketWorld_off).1 c hc⟩

/-- Both PUTs check before either stores. -/
def bothCheckFirst : List (Move Op Op.Res) :=
  [putIfAbsent 0 (str "a"), putIfAbsent 1 (str "b"), .steps 0 2, .steps 1 2, .steps 0 3, .steps 1 3]

theorem two_puts_succeed : ¬ ∀ w0 : World,
    (∀ cfg, w0.db.buckets.get (str "bucket") = some cfg → cfg.versioning = .off) →
    w0.db.objects.get (ManifestKey.mk (str "bucket") (str "k") nullVersionId).encode = none →
    ∀ c, Logged sampleEnv (PutsIfAbsent sampleEnv (str "bucket") (str "k")) (fun _ _ _ => True) w0 c → c.world.2.length ≤ 1 := by
  intro hall
  obtain ⟨c, hc, hn⟩ := logged_exists (fun _ _ _ => true) (fun _ _ _ _ => trivial) bothCheckFirst
    (by
      intro m hm
      unfold bothCheckFirst at hm
      simp only [List.mem_cons, List.not_mem_nil, or_false] at hm
      rcases hm with rfl | rfl | rfl | rfl | rfl | rfl
      · exact putIfAbsent_fits (by omega)
      · exact putIfAbsent_fits (by omega)
      all_goals
        first
          | exact (show (0 : Nat) < 2 by omega)
          | exact (show (1 : Nat) < 2 by omega))
    2 (by rfl)
  have hone := hall bucketWorld bucketWorld_off (by rfl) c hc
  omega

end S3lite
