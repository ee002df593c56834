/-
  S3lite.Session.Uploads — an upload between two requests.

  - `Ample`: what every step of a run has to meet, and `Calm`: what holds between its requests then.
  - `uploaded`: the bytes last uploaded under each number. `Manifest.Gathers`: a row that has exactly
    these parts; `Gathered`: the upload's row has, and their files are there.
  - `Gathered.other`, `Gathered.uploads`: what another request leaves, and what `upload_part` makes of it.
  - `Reclaimed`: the contents of the upload that no row counts have no file, but for those that a refused
    request has left behind.
-/
import S3lite.Session.Requests
import S3lite.Vault.Granted

namespace S3lite

open Handler

/-! ## Runs -/

/-- No count saturates, no two contents collide, and the sizes of every manifest's parts add up within a
    `u64`. -/
structure Ample (env : Env) (w : World) (op : Op) : Prop where
  room : HasRoom env w op
  collision : NoCollision env w op
  sizes : SizesFit env w op

/-- Every step of the requests meets the condition. -/
def AllAmple (env : Env) : World → List Request → Prop
  | _, [] => True
  | w, r :: requests => MeetsAll env (Ample env) (r.handler env) w ∧ AllAmple env (run env (r.handler env) w).2 requests

/-- The worlds between the requests. -/
structure Calm (env : Env) (w : World) : Prop where
  sequential : Sequential env (Ample env) w
  cleared : Cleared w.db.parts
  timed : Timed env w

section
variable {env : Env} {w w' : World} {r : Request}

theorem AllAmple.append {before after : List Request} (h : AllAmple env w (before ++ after)) :
    AllAmple env w before ∧ AllAmple env (served env w before) after := by
  induction before generalizing w with
  | nil => exact ⟨trivial, h⟩
  | cons r before ih =>
    obtain ⟨hmeets, hrest⟩ := h
    obtain ⟨hbefore, hafter⟩ := ih hrest
    exact ⟨⟨hmeets, hbefore⟩, hafter⟩

theorem Calm.empty (env : Env) : Calm env .empty := by
  refine ⟨.empty, fun h ho => ?_, fun slot m hm => ?_⟩
  · obtain ⟨e, he, -⟩ := ho
    cases he
  · cases hm

variable (henv : env.Sane) (h : Calm env w)
include henv h

theorem Calm.steady : Steady env w .start .start := sequential_steady henv (fun _ _ hfit => hfit.room) h.sequential

theorem Calm.bounded : ∀ r ∈ w.db.objects.rows, (r.2.parts.map (·.size)).sum < 2 ^ 64 :=
  (sequential_sound henv (fun _ _ hfit => hfit.room)
    (I := fun w _ _ => ∀ r ∈ w.db.objects.rows, (r.2.parts.map (·.size)).sum < 2 ^ 64) (fun _ hr => absurd hr List.not_mem_nil)
    (fun _ _ _ hi => hi) (fun _ _ _ _ _ _ _ _ hfit => hfit.sizes) h.sequential).2

/-- A request keeps it. -/
theorem Calm.request (hwell : r.WellFormed) (hmeets : MeetsAll env (Ample env) (r.handler env) w) :
    Calm env (run env (r.handler env) w).2 ∧ Does env w r (run env (r.handler env) w).1 (run env (r.handler env) w).2 := by
  have hdoes := request_does henv (h.steady henv) hwell
  have hnext := h.sequential.serve _ (Or.inl ⟨r, hwell, rfl⟩) (meets_discard_iff.mpr hmeets)
  rw [world_discard] at hnext
  exact ⟨⟨hnext, hdoes.cleared h.cleared, hdoes.timed h.timed⟩, hdoes⟩

theorem Calm.served {requests : List Request} (hwell : ∀ r ∈ requests, r.WellFormed) (hample : AllAmple env w requests) :
    Calm env (served env w requests) := by
  induction requests generalizing w with
  | nil => exact h
  | cons r requests ih =>
    obtain ⟨hmeets, hrest⟩ := hample
    exact ih (h.request henv (hwell r (List.mem_cons_self ..)) hmeets).1 (fun r hr => hwell r (List.mem_cons_of_mem _ hr)) hrest

end

/-! ## The parts of an upload -/

/-- The bytes under each number once the request is answered. -/
def noted (upload : ManifestKey) (u : Nat → Option Bytes) : Request × Except Failure Response → Nat → Option Bytes
  | (.uploadPart bucket key id n _ body, .ok _) => if ManifestKey.mk bucket key id = upload then Function.update u n (some body) else u
  | _ => u

theorem noted_part {upload : ManifestKey} (u : Nat → Option Bytes) (n : Nat) (headers : HeaderMap) (body : Bytes) (resp : Response) :
    noted upload u (.uploadPart upload.bucket upload.key upload.versionId n headers body, .ok resp) = Function.update u n (some body) :=
  if_pos rfl

theorem noted_other {upload : ManifestKey} {r : Request} (h : r.target ≠ some upload) (u : Nat → Option Bytes)
    (answer : Except Failure Response) : noted upload u (r, answer) = u := by
  unfold noted
  split
  · rename_i he
    obtain ⟨rfl, -⟩ := Prod.mk.inj he
    exact if_neg fun e => h (congrArg some e)
  · rfl

/-- The bytes last uploaded under each number. -/
def uploaded (upload : ManifestKey) (run : List (Request × Except Failure Response)) : Nat → Option Bytes :=
  run.foldl (noted upload) fun _ => none

/-- The bytes were uploaded, under whichever number. -/
def EverUploaded (upload : ManifestKey) (run : List (Request × Except Failure Response)) (c : Bytes) : Prop :=
  ∃ n headers resp, (.uploadPart upload.bucket upload.key upload.versionId n headers c, .ok resp) ∈ run

/-- The part that the bytes are stored as. -/
def partOf (env : Env) (n : Nat) (c : Bytes) : PartRef := partRef n (writeResult env c)

/-- An upload in progress that has exactly these parts, by ascending number, and their size. -/
structure Manifest.Gathers (env : Env) (m : Manifest) (u : Nat → Option Bytes) : Prop where
  inProgress : m.state = .inProgress
  ascending : Ascending m.parts
  parts : ∀ p, p ∈ m.parts ↔ ∃ c, u p.partNumber = some c ∧ p = partOf env p.partNumber c
  size : m.size = (m.parts.map (·.size)).sum

/-- The upload has the parts, and their files are there. -/
structure Gathered (env : Env) (w : World) (upload : ManifestKey) (u : Nat → Option Bytes) : Prop where
  row : ∃ m, w.db.objects.get upload.encode = some m ∧ m.Gathers env u
  files : ∀ n c, u n = some c → w.files.get (env.blake3 c) = some c
  numbers : ∀ n c, u n = some c → 0 < n

section
variable {env : Env} {w w' : World} {r : Request} {m : Manifest} {u : Nat → Option Bytes} {upload : ManifestKey}

theorem Manifest.Gathers.mem (h : m.Gathers env u) {n : Nat} {c : Bytes} (hc : u n = some c) : partOf env n c ∈ m.parts :=
  (h.parts _).mpr ⟨c, hc, rfl⟩

theorem Manifest.Gathers.congr {m' : Manifest} (h : m.Gathers env u) (hcontent : m'.content = m.content) : m'.Gathers env u := by
  have hstate : m'.state = m.state := by
    have hsame : m'.content.state = m.content.state := by rw [hcontent]
    exact hsame
  have hparts : m'.parts = m.parts := by
    have hsame : m'.content.parts = m.content.parts := by rw [hcontent]
    exact hsame
  have hsize : m'.size = m.size := by
    have hsame : m'.content.size = m.content.size := by rw [hcontent]
    exact hsame
  exact ⟨hstate.trans h.inProgress, hparts.symm ▸ h.ascending, hparts.symm ▸ h.parts, by rw [hsize, hparts]; exact h.size⟩

/-- The part of a number. -/
theorem Manifest.Gathers.find (h : m.Gathers env u) (n : Nat) : (m.parts.find? fun p => p.partNumber = n) = (u n).map (partOf env n) := by
  refine Option.ext fun p => ?_
  rw [h.ascending.find_iff, h.parts, Option.map_eq_some_iff]
  constructor
  · intro hp
    obtain ⟨⟨c, hc, hp⟩, rfl⟩ := hp
    exact ⟨c, hc, hp.symm⟩
  · intro hp
    obtain ⟨c, hc, rfl⟩ := hp
    exact ⟨⟨c, hc, rfl⟩, rfl⟩

/-- A part is stored under its number. -/
theorem Manifest.Gathers.replaced (h : m.Gathers env u) (n : Nat) (c : Bytes) (now : Time)
    (hsize : ((replacePart m.parts (partOf env n c)).map (·.size)).sum < 2 ^ 64) :
    (m.withParts (replacePart m.parts (partOf env n c)) now).Gathers env (Function.update u n (some c)) := by
  refine ⟨h.inProgress, h.ascending.replacePart _, fun p => ?_, sizeSum_eq hsize⟩
  have hnumber : (partOf env n c).partNumber = n := rfl
  show p ∈ replacePart m.parts (partOf env n c) ↔ _
  rw [mem_replacePart, h.ascending.mem_eraseP_iff, h.parts, hnumber]
  by_cases hn : p.partNumber = n
  · rw [hn, Function.update_self]
    constructor
    · intro hp
      rcases hp with ⟨-, hne⟩ | rfl
      · exact absurd rfl hne
      · exact ⟨c, rfl, rfl⟩
    · intro hp
      obtain ⟨c', hc', hp⟩ := hp
      cases hc'
      exact Or.inr hp
  · rw [Function.update_of_ne hn]
    constructor
    · intro hp
      rcases hp with ⟨hp, -⟩ | rfl
      · exact hp
      · exact absurd rfl hn
    · intro hp
      exact Or.inl ⟨hp, hn⟩

/-- The row keeps its parts, and they their files. -/
theorem Gathered.kept (h : Gathered env w upload u)
    (hrow : ∀ m, w.db.objects.get upload.encode = some m → (w'.db.objects.get upload.encode).map Manifest.content = some m.content)
    (hfiles : ∀ x bytes, w'.db.parts.get x ≠ none → w.files.get x = some bytes → w'.files.get x = some bytes)
    {g : Ghost} {gr : Ground} (hsteady : Steady env w' g gr) : Gathered env w' upload u := by
  obtain ⟨m, hm, hgathers⟩ := h.row
  obtain ⟨m', hm', hcontent⟩ := Option.map_eq_some_iff.mp (hrow m hm)
  have hgathers' := hgathers.congr hcontent
  refine ⟨⟨m', hm', hgathers'⟩, fun n c hc => ?_, h.numbers⟩
  obtain ⟨e, he, -⟩ := hsteady.live_row (Table.mem_rows.mpr hm') (hgathers'.mem hc)
  refine hfiles _ c ?_ (h.files n c hc)
  show w'.db.parts.get (partOf env n c).hash ≠ none
  rw [he]
  exact Option.some_ne_none e

/-- A request that does not name the upload leaves it. -/
theorem Gathered.other (h : Gathered env w upload u) {answer : Except Failure Response} (hd : Does env w r answer w')
    (htarget : r.target ≠ some upload) (hclear : upload.NulFree) (hid : upload.versionId ≠ nullVersionId)
    {g : Ghost} {gr : Ground} (hsteady : Steady env w' g gr) : Gathered env w' upload u := by
  refine h.kept (fun m hm => ?_) (fun x bytes => hd.file) hsteady
  obtain ⟨m', hm', hgathers⟩ := h.row
  rw [hm] at hm'
  cases hm'
  have hstate : m.state ≠ .committed := by
    rw [hgathers.inProgress]
    decide
  exact (hd.touches hclear).upload hm hstate hid htarget

/-- A part that is refused leaves it. -/
theorem Gathered.refused (h : Gathered env w upload u) {data : Bytes} (hr : Refused env data w w') {g : Ghost} {gr : Ground}
    (hsteady : Steady env w' g gr) : Gathered env w' upload u := by
  refine h.kept (fun m hm => ?_) (fun x bytes _ hfile => ?_) hsteady
  · rw [hr.db, hm]
    rfl
  · rcases hr.files with hfiles | hfiles
    · rw [hfiles]
      exact hfile
    · rw [hfiles]
      exact writePart_kept hfile

/-- The number of a part that is accepted. -/
theorem uploadPart_number {bucket key id : Str} {n : Nat} {headers : HeaderMap} {body : Bytes} {resp : Response}
    (hrun : run env (uploadPart env bucket key id n headers body) w = (.ok resp, w')) : 0 < n := by
  have hensures : Ensures env (uploadPart env bucket key id n headers body) w (fun _ _ => 0 < n) fun _ _ => True := by
    unfold uploadPart
    rw [ensures_bind, ensures_ensure]
    refine ⟨fun hn => ?_, fun _ => trivial⟩
    unfold Ensures
    split
    · exact hn.1
    · trivial
  exact hensures.ok hrun

/-- A part that is accepted is the one of its number now. -/
theorem Gathered.uploads (h : Gathered env w upload u) {n : Nat} {headers : HeaderMap} {body : Bytes} {resp : Response}
    (hrun : run env (uploadPart env upload.bucket upload.key upload.versionId n headers body) w = (.ok resp, w'))
    (hmeets : MeetsAll env (Ample env) (uploadPart env upload.bucket upload.key upload.versionId n headers body) w)
    {g : Ghost} {gr : Ground} (hsteady : Steady env w' g gr) (hsizes : ∀ r ∈ w'.db.objects.rows, (r.2.parts.map (·.size)).sum < 2 ^ 64) :
    Gathered env w' upload (Function.update u n (some body)) := by
  obtain ⟨m, hm, hgathers⟩ := h.row
  obtain ⟨w1, hfits⟩ := uploadPart_fits hmeets hrun
  have happends := (ensures_uploadPart upload.bucket upload.key upload.versionId n headers body).ok hrun
  have hmakes : (Change.append upload (partOf env n body)).Makes env { w with files := (writePart env w.files body).2 } w' := happends
  have hwritten : (writePart env w.files body).2.get (env.blake3 body) = some body :=
    writePart_content (hfits.write.collision.later hfits.later)
  obtain ⟨effect, db', happend, hgc⟩ := happends
  obtain ⟨m', parts, hm', -, -, rfl⟩ := append_ok happend
  rw [show ({ w with files := (writePart env w.files body).2 } : World).db.objects.get upload.encode = some m from hm] at hm'
  cases hm'
  have hrow : w'.db.objects.get upload.encode = some (m.withParts (replacePart m.parts (partOf env n body)) (env.now (w.clock + 1))) := by
    rw [hgc.objects]
    simp only [dropReplaced_parts]
    exact Table.get_insert_self ..
  have hgathers' := hgathers.replaced n body (env.now (w.clock + 1)) (hsizes _ (Table.mem_rows.mpr hrow))
  refine ⟨⟨_, hrow, hgathers'⟩, fun k c hc => ?_, fun k c hc => ?_⟩
  · obtain ⟨e, he, -⟩ := hsteady.live_row (Table.mem_rows.mpr hrow) (hgathers'.mem hc)
    have hleft : w'.db.parts.get (partOf env k c).hash ≠ none := by
      rw [he]
      exact Option.some_ne_none e
    have hfile : w'.files.get (env.blake3 c) = (writePart env w.files body).2.get (env.blake3 c) := hmakes.file hleft
    rw [hfile]
    by_cases hk : k = n
    · subst hk
      rw [Function.update_self] at hc
      cases hc
      exact hwritten
    · rw [Function.update_of_ne hk] at hc
      exact writePart_kept (h.files k c hc)
  · by_cases hk : k = n
    · subst hk
      exact uploadPart_number hrun
    · rw [Function.update_of_ne hk] at hc
      exact h.numbers k c hc

end

/-! ## What was uploaded and is not referenced -/

/-- A refused request among these has stored the file of the hash. -/
def LeftBehind (env : Env) (w : World) (requests : List Request) (h : Hash) : Prop :=
  ∃ before r after, requests = before ++ r :: after ∧ (∃ e, (run env (r.handler env) (served env w before)).1 = .error e) ∧
    (served env w before).files.get h = none ∧ (served env w (before ++ [r])).files.get h ≠ none

/-- The contents uploaded so far that have no row have no file, but for those left behind. -/
def Reclaimed (env : Env) (w : World) (upload : ManifestKey) (requests : List Request) : Prop :=
  ∀ c, EverUploaded upload (transcript env w requests) c → (served env w requests).db.parts.get (env.blake3 c) = none →
    (served env w requests).files.get (env.blake3 c) = none ∨ LeftBehind env w requests (env.blake3 c)

section
variable {env : Env} {w : World} {requests : List Request} {r : Request} {h : Hash} {upload : ManifestKey}

theorem served_snoc : served env w (requests ++ [r]) = (run env (r.handler env) (served env w requests)).2 := by
  rw [served_append]
  rfl

theorem transcript_snoc : transcript env w (requests ++ [r]) =
    transcript env w requests ++ [(r, (run env (r.handler env) (served env w requests)).1)] := by
  rw [transcript_append]
  rfl

theorem LeftBehind.snoc (hl : LeftBehind env w requests h) : LeftBehind env w (requests ++ [r]) h := by
  obtain ⟨before, r', after, rfl, hrest⟩ := hl
  exact ⟨before, r', after ++ [r], by simp, hrest⟩

theorem Reclaimed.snoc (hreclaimed : Reclaimed env w upload requests)
    (hd : Does env (served env w requests) r (run env (r.handler env) (served env w requests)).1
      (run env (r.handler env) (served env w requests)).2)
    (hcounts : ∀ n headers c resp, r = .uploadPart upload.bucket upload.key upload.versionId n headers c →
      (run env (r.handler env) (served env w requests)).1 = .ok resp →
        (run env (r.handler env) (served env w requests)).2.db.parts.get (env.blake3 c) ≠ none) :
    Reclaimed env w upload (requests ++ [r]) := by
  intro c hc hrow
  rw [served_snoc] at hrow ⊢
  rw [transcript_snoc] at hc
  obtain ⟨n, headers, resp, hmem⟩ := hc
  rcases List.mem_append.mp hmem with hmem | hmem
  · by_cases hfile : (run env (r.handler env) (served env w requests)).2.files.get (env.blake3 c) = none
    · exact Or.inl hfile
    · obtain ⟨hold, herror⟩ := hd.stray hfile hrow
      rcases hreclaimed c ⟨n, headers, resp, hmem⟩ hold with hnone | hleft
      · refine Or.inr ⟨requests, r, [], rfl, herror hnone, hnone, ?_⟩
        rw [served_snoc]
        exact hfile
      · exact Or.inr hleft.snoc
  · obtain ⟨hr, hanswer⟩ := Prod.mk.inj (List.mem_singleton.mp hmem)
    exact absurd hrow (hcounts n headers c resp hr.symm hanswer.symm)

end

end S3lite
