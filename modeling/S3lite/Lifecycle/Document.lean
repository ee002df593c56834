/-
  S3lite.Lifecycle.Document — from a LifecycleConfiguration document to what the sweep does.

  A rule is read into a structure that has one place for a filter, the Prefix right inside
  Filter, and elements it has no place for are ignored. The sweep then takes a rule without
  a prefix to be for every key.
  - `Element.stated`: the restrictions a rule of a document states, in all their places.
  - `restrictions_kept_iff`: the rule is applied inside them, exactly if it does nothing or
    every one of them is a prefix that Filter's own Prefix implies
    (`a_tagged_rule_is_for_every_key`).
-/
import S3lite.Lifecycle.Sweep
import S3lite.Server.Decimal
import S3lite.Safety.Pool

namespace S3lite

open Handler

/-! ## Elements -/

/-- An element, with its text as a string field takes it, and the elements in it. -/
inductive Element where
  | mk (name text : Str) (children : List Element)

namespace Element

def name : Element → Str
  | mk name _ _ => name

def text : Element → Str
  | mk _ text _ => text

def children : Element → List Element
  | mk _ _ children => children

/-- The elements of that name right inside it. -/
def named (e : Element) (name : Str) : List Element := e.children.filter fun c => c.name = name

def textOf (e : Element) (name : Str) : Str := ((e.named name).head?.map text).getD []

/-! ## The derived deserializer

What `quick_xml::de` does with the structures of src/s3/xml.rs; `none` is an error. Elements
that no field is named after are ignored. -/

def string (e : Element) : Option Str := if e.children.isEmpty then some e.text else none

def u32 (e : Element) : Option Nat := e.string.bind (parseUnsigned (2 ^ 32))

section
variable {α : Type}

/-- A field that must be there, once. -/
def required (e : Element) (name : Str) (de : Element → Option α) : Option α :=
  match e.named name with
  | [c] => de c
  | _ => none

/-- A field of type `Option`. -/
def optional (e : Element) (name : Str) (de : Element → Option α) : Option (Option α) :=
  match e.named name with
  | [] => some none
  | [c] => (de c).map some
  | _ => none

/-- A field of type `Vec`: elements that follow one another. -/
def sequence (e : Element) (name : Str) (de : Element → Option α) : Option (List α) :=
  let rest := e.children.dropWhile fun c => c.name ≠ name
  if (rest.dropWhile fun c => c.name = name).any fun c => c.name = name then none
  else (rest.takeWhile fun c => c.name = name).mapM de

end

end Element

def LifecycleRuleXml.deserialize (e : Element) : Option LifecycleRuleXml := do
  let id ← e.optional (str "ID") Element.string
  let status ← e.required (str "Status") Element.string
  let filter ← e.optional (str "Filter") fun f => f.optional (str "Prefix") Element.string
  let expiration ← e.optional (str "Expiration") fun x => x.required (str "Days") Element.u32
  let noncurrent ← e.optional (str "NoncurrentVersionExpiration") fun x => x.required (str "NoncurrentDays") Element.u32
  let abort ← e.optional (str "AbortIncompleteMultipartUpload") fun x => x.required (str "DaysAfterInitiation") Element.u32
  some ⟨id, status, filter, expiration, noncurrent, abort⟩

/-- `LifecycleConfigurationXml`, its rules. -/
def deserializeLifecycle (e : Element) : Option (List LifecycleRuleXml) := e.sequence (str "Rule") LifecycleRuleXml.deserialize

/-- `from_reader` reads the elements of the document, for the deserializer to take. -/
def ReadsBy (env : Env) (elements : Bytes → Option Element) : Prop :=
  ∀ body, (env.xmlLifecycle body).toOption = (elements body).bind deserializeLifecycle

/-! ## Restrictions -/

/-- What a rule of a document can restrict the objects by. -/
inductive Restriction where
  | startsWith (p : Str)
  | tag (key value : Str)
  | sizeGreaterThan (bytes : Str)
  | sizeLessThan (bytes : Str)

/-- The object is within it. -/
def Restriction.Holds (m : Manifest) : Restriction → Prop
  | startsWith p => p <+: m.key.key
  | tag key value => m.tags.get key = some value
  | sizeGreaterThan bytes => ∃ n, parseUnsigned (2 ^ 64) bytes = some n ∧ n < m.size
  | sizeLessThan bytes => ∃ n, parseUnsigned (2 ^ 64) bytes = some n ∧ m.size < n

/-- So is every key with the prefix. -/
def Restriction.ImpliedBy (p : Str) : Restriction → Prop
  | startsWith q => q <+: p
  | _ => False

namespace Element

/-- An element of Filter, or of the And in it. -/
def restriction (e : Element) : Option Restriction :=
  if e.name = str "Prefix" then some (.startsWith e.text)
  else if e.name = str "Tag" then some (.tag (e.textOf (str "Key")) (e.textOf (str "Value")))
  else if e.name = str "ObjectSizeGreaterThan" then some (.sizeGreaterThan e.text)
  else if e.name = str "ObjectSizeLessThan" then some (.sizeLessThan e.text)
  else none

def filtered (filter : Element) : List Restriction :=
  filter.children.flatMap fun c => if c.name = str "And" then c.children.filterMap restriction else c.restriction.toList

/-- All that the rule restricts: in Filter, in the And in it, and by a Prefix of its own. -/
def stated (rule : Element) : List Restriction :=
  rule.children.flatMap fun c =>
    if c.name = str "Filter" then c.filtered
    else if c.name = str "Prefix" then [.startsWith c.text]
    else []

/-- The prefix right inside Filter. -/
def filterPrefix (rule : Element) : Str := ((rule.named (str "Filter")).head?.map fun f => f.textOf (str "Prefix")).getD []

/-- The rule is switched off, has no action, or restricts by nothing more than that prefix. -/
def Plain (rule : Element) : Prop :=
  rule.textOf (str "Status") ≠ str "Enabled" ∨
    (rule.named (str "Expiration") = [] ∧ rule.named (str "NoncurrentVersionExpiration") = [] ∧
      rule.named (str "AbortIncompleteMultipartUpload") = []) ∨
    ∀ r ∈ rule.stated, r.ImpliedBy rule.filterPrefix

end Element

/-! ## The rule as it is applied -/

/-- The sweep acts on the manifest by this rule. -/
def LifecycleRule.Acts (r : LifecycleRule) (now : Time) (m : Manifest) (current : Bool) : Prop :=
  r.status = .enabled ∧ m.state ≠ .aborted ∧ lifecycleAction m current [r] now ≠ .keep

section
variable {α : Type} {e : Element} {name : Str} {de : Element → Option α}

/-- Elements with nothing of the kind after their first run are that run. -/
theorem filter_eq_run {p : α → Bool} {l : List α} (h : ((l.dropWhile fun a => !p a).dropWhile p).any p = false) :
    l.filter p = (l.dropWhile fun a => !p a).takeWhile p := by
  have hbefore : (l.takeWhile fun a => !p a).filter p = [] := by
    refine List.filter_eq_nil_iff.mpr fun a ha hp => ?_
    have := List.mem_takeWhile_imp ha
    rw [hp] at this
    cases this
  have hafter : ((l.dropWhile fun a => !p a).dropWhile p).filter p = [] := by
    refine List.filter_eq_nil_iff.mpr fun a ha hp => ?_
    rw [List.any_eq_false] at h
    exact h a ha hp
  have hrun : ((l.dropWhile fun a => !p a).takeWhile p).filter p = (l.dropWhile fun a => !p a).takeWhile p :=
    List.filter_eq_self.mpr fun a ha => List.mem_takeWhile_imp ha
  calc l.filter p = (l.takeWhile (fun a => !p a) ++ l.dropWhile fun a => !p a).filter p := by rw [List.takeWhile_append_dropWhile]
    _ = (l.dropWhile fun a => !p a).filter p := by rw [List.filter_append, hbefore, List.nil_append]
    _ = ((l.dropWhile fun a => !p a).takeWhile p ++ (l.dropWhile fun a => !p a).dropWhile p).filter p := by
      rw [List.takeWhile_append_dropWhile]
    _ = (l.dropWhile fun a => !p a).takeWhile p := by rw [List.filter_append, hrun, hafter, List.append_nil]

theorem Element.sequence_some {xs : List α} (h : e.sequence name de = some xs) :
    List.Forall₂ (fun c x => de c = some x) (e.named name) xs := by
  have hrun : ∀ {run : List Element} {xs : List α}, run.mapM de = some xs → List.Forall₂ (fun c x => de c = some x) run xs := by
    intro run
    induction run with
    | nil =>
      intro xs h
      cases h
      exact .nil
    | cons c run ih =>
      intro xs h
      rw [List.mapM_cons] at h
      obtain ⟨x, hx, h⟩ := Option.bind_eq_some_iff.mp h
      obtain ⟨ys, hys, h⟩ := Option.bind_eq_some_iff.mp h
      cases h
      exact .cons hx (ih hys)
  unfold Element.sequence at h
  simp only at h
  split at h
  · cases h
  rename_i hnone
  have hsame : e.named name = ((e.children.dropWhile fun c => c.name ≠ name).takeWhile fun c => c.name = name) := by
    have hp : (fun c : Element => decide (c.name ≠ name)) = fun c => !decide (c.name = name) := by
      funext c
      exact decide_not
    rw [hp] at hnone ⊢
    exact filter_eq_run (by simpa using hnone)
  rw [hsame]
  exact hrun h

theorem Element.optional_some {o : Option α} (h : e.optional name de = some o) :
    e.named name = [] ∧ o = none ∨ ∃ c x, e.named name = [c] ∧ de c = some x ∧ o = some x := by
  unfold Element.optional at h
  split at h
  · rename_i hnil
    exact Or.inl ⟨hnil, (Option.some.inj h).symm⟩
  · rename_i c hc
    obtain ⟨x, hx, rfl⟩ := Option.map_eq_some_iff.mp h
    exact Or.inr ⟨c, x, hc, hx, rfl⟩
  · cases h

theorem Element.required_some {x : α} (h : e.required name de = some x) : ∃ c, e.named name = [c] ∧ de c = some x := by
  unfold Element.required at h
  split at h
  · rename_i c hc
    exact ⟨c, hc, h⟩
  · cases h

theorem Element.string_some {s : Str} (h : e.string = some s) : s = e.text := by
  unfold Element.string at h
  split at h
  · exact (Option.some.inj h).symm
  · cases h

end

/-- What the derived deserializer keeps of a rule. -/
theorem deserialize_some {e : Element} {x : LifecycleRuleXml} (h : LifecycleRuleXml.deserialize e = some x) :
    x.status = e.textOf (str "Status") ∧ x.filter.join.getD [] = e.filterPrefix ∧
      (x.expiration = none ↔ e.named (str "Expiration") = []) ∧
      (x.noncurrentVersionExpiration = none ↔ e.named (str "NoncurrentVersionExpiration") = []) ∧
      (x.abortIncompleteMultipartUpload = none ↔ e.named (str "AbortIncompleteMultipartUpload") = []) := by
  have hnone : ∀ {α : Type} {name : Str} {de : Element → Option α} {o : Option α}, e.optional name de = some o →
      (o = none ↔ e.named name = []) := by
    intro α name de o ho
    rcases Element.optional_some ho with ⟨hnil, rfl⟩ | ⟨c, x, hc, -, rfl⟩
    · simp [hnil]
    · simp [hc]
  unfold LifecycleRuleXml.deserialize at h
  obtain ⟨id, hid, h⟩ := Option.bind_eq_some_iff.mp h
  obtain ⟨status, hstatus, h⟩ := Option.bind_eq_some_iff.mp h
  obtain ⟨filter, hfilter, h⟩ := Option.bind_eq_some_iff.mp h
  obtain ⟨expiration, hexpiration, h⟩ := Option.bind_eq_some_iff.mp h
  obtain ⟨noncurrent, hnoncurrent, h⟩ := Option.bind_eq_some_iff.mp h
  obtain ⟨abort, habort, h⟩ := Option.bind_eq_some_iff.mp h
  cases h
  refine ⟨?_, ?_, hnone hexpiration, hnone hnoncurrent, hnone habort⟩
  · obtain ⟨c, hc, hs⟩ := Element.required_some hstatus
    rw [Element.string_some hs, Element.textOf, hc]
    rfl
  · show filter.join.getD [] = e.filterPrefix
    rcases Element.optional_some hfilter with ⟨hnil, rfl⟩ | ⟨f, p, hf, hp, rfl⟩
    · rw [Element.filterPrefix, hnil]
      rfl
    · rw [Element.filterPrefix, hf]
      show p.getD [] = f.textOf (str "Prefix")
      rcases Element.optional_some hp with ⟨hnil, rfl⟩ | ⟨c, s, hc, hs, rfl⟩
      · rw [Element.textOf, hnil]
        rfl
      · rw [Element.textOf, hc, Element.string_some hs]
        rfl

section
variable {r : LifecycleRule} {now : Time} {m : Manifest} {current : Bool}

theorem acts_iff : r.Acts now m current ↔ r.status = .enabled ∧ r.matching m.key.key = true ∧
    (m.state = .inProgress ∧ r.abortIncompleteMultipartUpload.any (agedDays now m.createdAt) = true ∨
      m.state = .committed ∧ unlocked now m = true ∧
        (current = true ∧ m.kind = .object ∧ r.expiration.any (agedDays now m.createdAt) = true ∨
          current = false ∧ r.noncurrentVersionExpiration.any (agedDays now m.createdAt) = true)) := by
  unfold LifecycleRule.Acts
  refine and_congr_right fun _ => ?_
  cases hs : m.state with
  | aborted => simp
  | inProgress =>
    rw [lifecycleAction_inProgress hs]
    simp
  | committed =>
    rw [lifecycleAction_committed hs]
    cases unlocked now m <;> cases current <;> simp [and_left_comm]

/-- Some rules act if one of them does. -/
theorem lifecycleAction_exists (hs : m.state ≠ .aborted) {rules : List LifecycleRule} :
    lifecycleAction m current rules now ≠ .keep ↔ ∃ r ∈ rules, lifecycleAction m current [r] now ≠ .keep := by
  cases hstate : m.state with
  | aborted => exact absurd hstate hs
  | inProgress =>
    simp only [lifecycleAction_inProgress hstate]
    simp
  | committed =>
    simp only [lifecycleAction_committed hstate]
    cases unlocked now m <;> cases current <;> simp [and_left_comm]

/-- The sweep acts on a manifest exactly if one of the bucket's rules does. -/
theorem sweepAction_acts {db : Db} {cfg : BucketConfig} (hcfg : db.buckets.get m.key.bucket = some cfg) (hs : m.state ≠ .aborted) :
    sweepAction db now m ≠ .keep ↔ ∃ r ∈ cfg.lifecycleRules, r.Acts now m (isCurrent db m) := by
  have hrules : bucketRules db m.key.bucket = activeRules cfg := by rw [bucketRules, hcfg]; rfl
  have hacts : lifecycleAction m (isCurrent db m) (activeRules cfg) now ≠ .keep ↔
      ∃ r ∈ cfg.lifecycleRules, r.Acts now m (isCurrent db m) := by
    rw [lifecycleAction_exists hs]
    unfold activeRules LifecycleRule.Acts
    simp only [List.mem_filter, decide_eq_true_eq]
    exact exists_congr fun r => ⟨fun h => ⟨h.1.1, h.1.2, hs, h.2⟩, fun h => ⟨⟨h.1, h.2.1⟩, h.2.2.2⟩⟩
  rw [← hacts, sweepAction, hrules]
  split
  · rename_i hnil
    rw [hnil, lifecycleAction_exists hs]
    simp
  · rfl

/-- Outside a restriction that a prefix does not imply, there are keys with the prefix. -/
theorem exists_outside {p : Str} {x : Restriction} (h : ¬ x.ImpliedBy p) : ∃ key size, p <+: key ∧ key ≠ [] ∧ size < 2 ^ 64 ∧
    ∀ m : Manifest, m.key.key = key → m.size = size → m.tags = .empty → ¬ x.Holds m := by
  cases x with
  | startsWith q =>
    -- one of two ways to go on is not the restriction's
    obtain ⟨c, hc⟩ : ∃ c : UInt8, q ≠ p ++ [c] := by
      by_cases h97 : q = p ++ [97]
      · refine ⟨98, fun h98 => ?_⟩
        have := List.append_cancel_left (h97.symm.trans h98)
        cases this
      · exact ⟨97, h97⟩
    refine ⟨p ++ [c], 0, List.prefix_append _ _, by simp, by decide, fun m hk _ _ hq => ?_⟩
    have hq : q <+: p ++ [c] := hk ▸ hq
    rcases List.prefix_concat_iff.mp hq with hq | hq
    · exact hc hq
    · exact h hq
  | tag key value =>
    refine ⟨p ++ [97], 0, List.prefix_append _ _, by simp, by decide, fun m _ _ ht hx => ?_⟩
    have hx : m.tags.get key = some value := hx
    rw [ht, Table.get_empty] at hx
    cases hx
  | sizeGreaterThan bytes =>
    refine ⟨p ++ [97], 0, List.prefix_append _ _, by simp, by decide, fun m _ hsize _ hx => ?_⟩
    obtain ⟨n, -, hlt⟩ := hx
    omega
  | sizeLessThan bytes =>
    refine ⟨p ++ [97], 2 ^ 64 - 1, List.prefix_append _ _, by simp, by decide, fun m _ hsize _ hx => ?_⟩
    obtain ⟨n, hn, hlt⟩ := hx
    have := parseUnsigned_lt hn
    omega

/-- A rule is applied inside its restrictions exactly if it is plain. -/
theorem acts_inside_iff {e : Element} {x : LifecycleRuleXml} (hx : LifecycleRuleXml.deserialize e = some x) :
    (∀ now m current, m.key.key ≠ [] → m.size < 2 ^ 64 → x.rule.Acts now m current → ∀ y ∈ e.stated, y.Holds m) ↔ e.Plain := by
  obtain ⟨hstatus, hfilter, hexpiration, hnoncurrent, habort⟩ := deserialize_some hx
  have henabled : x.rule.status = .enabled ↔ e.textOf (str "Status") = str "Enabled" := by
    rw [← hstatus, LifecycleRuleXml.rule]
    simp
  have hmatching : ∀ key, x.rule.matching key = true ↔ e.filterPrefix <+: key := by
    intro key
    rw [← hfilter, LifecycleRule.matching, LifecycleRuleXml.rule]
    cases x.filter.join <;> simp
  constructor
  · intro h
    by_contra hplain
    obtain ⟨hon, hplain⟩ := not_or.mp hplain
    obtain ⟨hactions, hstated⟩ := not_or.mp hplain
    simp only [not_forall] at hstated
    obtain ⟨y, hy, hout⟩ := hstated
    obtain ⟨key, size, hpre, hne, hsize, houtside⟩ := exists_outside hout
    -- a manifest with this key for each kind of action
    let object : Manifest := { bare ⟨[], key, []⟩ .committed [] with size := size }
    let upload : Manifest := { bare ⟨[], key, []⟩ .inProgress [] with size := size }
    have hon := henabled.mpr (not_not.mp hon)
    have haged : ∀ days : Nat, ∃ now, agedDays now 0 days = true := by
      intro days
      refine ⟨days * nanosPerDay, ?_⟩
      rw [agedDays, sub_zero]
      exact decide_eq_true le_rfl
    cases hexp : x.expiration with
    | some days =>
      obtain ⟨now, hnow⟩ := haged days
      refine houtside object rfl rfl rfl (h now object true hne hsize (acts_iff.mpr ?_) y hy)
      refine ⟨hon, (hmatching key).mpr hpre, Or.inr ⟨rfl, rfl, Or.inl ⟨rfl, rfl, ?_⟩⟩⟩
      rw [LifecycleRuleXml.rule, hexp]
      exact hnow
    | none =>
      cases hnon : x.noncurrentVersionExpiration with
      | some days =>
        obtain ⟨now, hnow⟩ := haged days
        refine houtside object rfl rfl rfl (h now object false hne hsize (acts_iff.mpr ?_) y hy)
        refine ⟨hon, (hmatching key).mpr hpre, Or.inr ⟨rfl, rfl, Or.inr ⟨rfl, ?_⟩⟩⟩
        rw [LifecycleRuleXml.rule, hnon]
        exact hnow
      | none =>
        cases habt : x.abortIncompleteMultipartUpload with
        | some days =>
          obtain ⟨now, hnow⟩ := haged days
          refine houtside upload rfl rfl rfl (h now upload false hne hsize (acts_iff.mpr ?_) y hy)
          refine ⟨hon, (hmatching key).mpr hpre, Or.inl ⟨rfl, ?_⟩⟩
          rw [LifecycleRuleXml.rule, habt]
          exact hnow
        | none => exact hactions ⟨hexpiration.mp hexp, hnoncurrent.mp hnon, habort.mp habt⟩
  · intro hplain now m current _ _ hacts y hy
    obtain ⟨hon, hmatch, hdue⟩ := acts_iff.mp hacts
    rcases hplain with hoff | ⟨hexp, hnon, habt⟩ | himplied
    · exact absurd (henabled.mp hon) hoff
    · have hnone : x.rule.expiration = none ∧ x.rule.noncurrentVersionExpiration = none ∧
          x.rule.abortIncompleteMultipartUpload = none := ⟨hexpiration.mpr hexp, hnoncurrent.mpr hnon, habort.mpr habt⟩
      rw [hnone.1, hnone.2.1, hnone.2.2] at hdue
      simp at hdue
    · have hpre := (hmatching m.key.key).mp hmatch
      have hy := himplied y hy
      cases y with
      | startsWith q => exact List.IsPrefix.trans hy hpre
      | tag | sizeGreaterThan | sizeLessThan => exact hy.elim

end

/-! ## The request -/

section
variable {env : Env} {elements : Bytes → Option Element} {bucket : Str} {body : Bytes} {w w' : World} {resp : Response}

/-- An accepted document is read, and its rules are stored. -/
theorem putBucketLifecycle_ok (henv : ReadsBy env elements) (hrun : (putBucketLifecycle env bucket body).run env w = (.ok resp, w')) :
    ∃ doc rules cfg, elements body = some doc ∧ deserializeLifecycle doc = some rules ∧
      w'.db.buckets.get bucket = some cfg ∧ cfg.lifecycleRules = rules.map (·.rule) := by
  unfold putBucketLifecycle at hrun
  cases hparse : env.xmlLifecycle body with
  | error e =>
    rw [hparse] at hrun
    cases hrun
  | ok rules =>
    have hread := henv body
    rw [hparse] at hread
    obtain ⟨doc, hdoc, hrules⟩ := Option.bind_eq_some_iff.mp hread.symm
    rw [hparse] at hrun
    cases hbucket : w.db.buckets.get bucket with
    | none =>
      have hop : handleUpdateBucketLifecycle w.db bucket (rules.map (·.rule)) = .error (.bucketNotFound bucket) := by
        rw [handleUpdateBucketLifecycle, updateBucket, hbucket]
      have hexec : exec env (.metaOp (.updateBucketLifecycle bucket (rules.map (·.rule)))) w =
          (.error (.bucketNotFound bucket), { w with clock := w.clock + 2 }) := by
        simp only [exec, MetaOp.exec, hop, commit_, Except.map, commit_error]
      cases (run_op_bind env hexec).symm.trans hrun
    | some cfg =>
      have hop : handleUpdateBucketLifecycle w.db bucket (rules.map (·.rule)) =
          .ok { w.db with buckets := w.db.buckets.insert bucket { cfg with lifecycleRules := rules.map (·.rule) } } := by
        rw [handleUpdateBucketLifecycle, updateBucket, hbucket]
      have hexec : exec env (.metaOp (.updateBucketLifecycle bucket (rules.map (·.rule)))) w =
          (.ok (), { w with
            db := { w.db with buckets := w.db.buckets.insert bucket { cfg with lifecycleRules := rules.map (·.rule) } }
            clock := w.clock + 2 }) := by
        simp only [exec, MetaOp.exec, hop, commit_, Except.map, commit_ok]
      cases (run_op_bind env hexec).symm.trans hrun
      exact ⟨doc, rules, _, hdoc, hrules, Table.get_insert_self .., rfl⟩

/-- For every document that is accepted, rule by rule: the sweep acts by the stored rule only
    within what the document's rule states, exactly if that rule is plain. And the sweep acts
    on a manifest of the bucket exactly if one of the stored rules does. -/
theorem restrictions_kept_iff (henv : ReadsBy env elements) (hrun : (putBucketLifecycle env bucket body).run env w = (.ok resp, w')) :
    ∃ doc cfg, elements body = some doc ∧ w'.db.buckets.get bucket = some cfg ∧
      List.Forall₂ (fun e (r : LifecycleRule) =>
        (∀ now m current, m.key.key ≠ [] → m.size < 2 ^ 64 → r.Acts now m current → ∀ y ∈ e.stated, y.Holds m) ↔ e.Plain)
        (doc.named (str "Rule")) cfg.lifecycleRules ∧
      ∀ db now m, db.buckets.get bucket = some cfg → m.key.bucket = bucket → m.state ≠ .aborted →
        (sweepAction db now m ≠ .keep ↔ ∃ r ∈ cfg.lifecycleRules, r.Acts now m (isCurrent db m)) := by
  obtain ⟨doc, rules, cfg, hdoc, hrules, hcfg, hstored⟩ := putBucketLifecycle_ok henv hrun
  refine ⟨doc, cfg, hdoc, hcfg, ?_, ?_⟩
  · rw [hstored, List.forall₂_map_right_iff]
    exact (Element.sequence_some hrules).imp fun _ _ hx => acts_inside_iff hx
  · intro db now m hdb hb hs
    exact sweepAction_acts (hb ▸ hdb) hs

end

/-- A rule for what is tagged and under a prefix. -/
def taggedRule : Element :=
  .mk (str "LifecycleConfiguration") [] [.mk (str "Rule") [] [
    .mk (str "Status") (str "Enabled") [],
    .mk (str "Filter") [] [.mk (str "And") [] [
      .mk (str "Prefix") (str "logs/") [],
      .mk (str "Tag") [] [.mk (str "Key") (str "temp") [], .mk (str "Value") (str "yes") []]]],
    .mk (str "Expiration") [] [.mk (str "Days") (str "1") []]]]

def taggedText : Bytes :=
  str ("<LifecycleConfiguration><Rule><Status>Enabled</Status><Filter><And><Prefix>logs/</Prefix><Tag><Key>temp</Key>" ++
    "<Value>yes</Value></Tag></And></Filter><Expiration><Days>1</Days></Expiration></Rule></LifecycleConfiguration>")

def taggedElements (body : Bytes) : Option Element := if body = taggedText then some taggedRule else none

/-- Reading the elements first. -/
def readBy (elements : Bytes → Option Element) (body : Bytes) : Except Str (List LifecycleRuleXml) :=
  ((elements body).bind deserializeLifecycle).elim (.error []) .ok

/-- An environment that reads this document. -/
def taggedEnv : Env := { sampleEnv with xmlLifecycle := readBy taggedElements }

theorem taggedEnv_reads : ReadsBy taggedEnv taggedElements := by
  intro body
  show (readBy taggedElements body).toOption = _
  unfold readBy
  cases (taggedElements body).bind deserializeLifecycle <;> rfl

theorem taggedRule_deserialize : deserializeLifecycle taggedRule = some [⟨none, str "Enabled", some none, some 1, none, none⟩] := by
  rfl

/-- An object outside the rule, in a bucket that gets it. -/
def outside : Manifest := bare ⟨[98], [107], [118]⟩ .committed []

theorem putBucketLifecycle_tagged : ∃ w', (putBucketLifecycle taggedEnv [98] taggedText).run taggedEnv (dailyWorld .off [outside]) =
    (.ok (.ofStatus 200), w') ∧ w'.db.objects = (dbOf [outside]).objects ∧
      w'.db.buckets.get [98] = some ⟨0, .off, [], [], none, [⟨none, .enabled, none, some 1, none, none⟩]⟩ := by
  have hparse : taggedEnv.xmlLifecycle taggedText = .ok [⟨none, str "Enabled", some none, some 1, none, none⟩] := by
    have hread : taggedEnv.xmlLifecycle = readBy taggedElements := rfl
    rw [hread, readBy, taggedElements, if_pos rfl, Option.bind_some, taggedRule_deserialize]
    rfl
  unfold putBucketLifecycle
  rw [hparse]
  exact ⟨_, rfl, rfl, rfl⟩

theorem restrictions_kept_iff_tagged : ∃ w',
    (putBucketLifecycle taggedEnv [98] taggedText).run taggedEnv (dailyWorld .off [outside]) = (.ok (.ofStatus 200), w') ∧
    ∃ doc cfg, taggedElements taggedText = some doc ∧ w'.db.buckets.get [98] = some cfg ∧
      List.Forall₂ (fun e (r : LifecycleRule) =>
        (∀ now m current, m.key.key ≠ [] → m.size < 2 ^ 64 → r.Acts now m current → ∀ y ∈ e.stated, y.Holds m) ↔ e.Plain)
        (doc.named (str "Rule")) cfg.lifecycleRules ∧
      ∀ db now m, db.buckets.get [98] = some cfg → m.key.bucket = [98] → m.state ≠ .aborted →
        (sweepAction db now m ≠ .keep ↔ ∃ r ∈ cfg.lifecycleRules, r.Acts now m (isCurrent db m)) := by
  obtain ⟨w', hrun, -, -⟩ := putBucketLifecycle_tagged
  exact ⟨w', hrun, restrictions_kept_iff taggedEnv_reads hrun⟩

/-- And in Filter: the rule is stored without a prefix, and an object without the tag, under
    another prefix, is deleted by it. -/
theorem a_tagged_rule_is_for_every_key :
    ¬ ∀ (env : Env) (elements : Bytes → Option Element), ReadsBy env elements → ∀ bucket body w w' resp,
      (putBucketLifecycle env bucket body).run env w = (.ok resp, w') → ∀ doc cfg, elements body = some doc →
      w'.db.buckets.get bucket = some cfg → ∀ now m, Stored w'.db m → m.key.bucket = bucket → m.state ≠ .aborted →
      sweepAction w'.db now m ≠ .keep →
        ∃ p ∈ (doc.named (str "Rule")).zip cfg.lifecycleRules, p.2.Acts now m (isCurrent w'.db m) ∧ ∀ y ∈ p.1.stated, y.Holds m := by
  intro h
  obtain ⟨w', hrun, hobjects, hcfg⟩ := putBucketLifecycle_tagged
  have hdoc : taggedElements taggedText = some taggedRule := if_pos rfl
  have hm : Stored w'.db outside := by
    rw [Stored, hobjects]
    exact Table.get_insert_self ..
  have hlatest : isCurrent w'.db outside = true := by
    rw [isCurrent, handleGetLatestVersion, hobjects]
    rfl
  have hacts : LifecycleRule.Acts ⟨none, .enabled, none, some 1, none, none⟩ nanosPerDay outside (isCurrent w'.db outside) := by
    rw [hlatest, acts_iff]
    exact ⟨rfl, rfl, Or.inr ⟨rfl, rfl, Or.inl ⟨rfl, rfl, by rfl⟩⟩⟩
  have hsweep : sweepAction w'.db nanosPerDay outside ≠ .keep :=
    (sweepAction_acts hcfg fun e => by cases e).mpr ⟨_, List.mem_singleton_self _, hacts⟩
  obtain ⟨p, hp, -, hholds⟩ := h _ _ taggedEnv_reads _ _ _ _ _ hrun _ _ hdoc hcfg nanosPerDay outside hm rfl (fun e => by cases e) hsweep
  have hstated : Restriction.startsWith (str "logs/") ∈ p.1.stated := by
    obtain rfl := List.mem_singleton.mp hp
    exact List.mem_cons_self ..
  have hpre : str "logs/" <+: [107] := hholds _ hstated
  exact absurd hpre (by decide)

end S3lite
