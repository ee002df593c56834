/-
  S3lite.Server.Rules — checking a handler against a protocol, construct by construct.

  `Keeps P x g Q`: from ghost state `g` the handler performs only what the protocol allows,
  and ends in `Q` unless it fails. Each construct has one rule, all of them in the simp
  set, so that unfolding a handler leaves its operations' conditions.
-/
import S3lite.S3.Object

namespace S3lite.Handler

variable {G α β : Type} (P : Prog.Protocol Op Op.Res G)

def Keeps (x : Handler α) (g : G) (Q : α → G → Prop) : Prop :=
  Prog.Follows P x (fun r g => ∀ a, r = .ok a → Q a g) g

variable {P} {g : G}

theorem Keeps.mono {x : Handler α} {Q Q' : α → G → Prop} (h : Keeps P x g Q) (hq : ∀ a g, Q a g → Q' a g) :
    Keeps P x g Q' := Prog.Follows.mono h fun _ g hr a e => hq a g (hr a e)

@[simp] theorem keeps_ok {a : α} {Q : α → G → Prop} : Keeps P (ok a) g Q ↔ Q a g := by
  simp [Keeps, ok]

@[simp] theorem keeps_pure {a : α} {Q : α → G → Prop} : Keeps P (pure a) g Q ↔ Q a g := keeps_ok

@[simp] theorem keeps_fail {e : S3Error} {Q : α → G → Prop} : Keeps P (fail e) g Q := by
  simp [Keeps, fail]

@[simp] theorem keeps_panicked {Q : α → G → Prop} : Keeps P panicked g Q := by
  simp [Keeps, panicked]

@[simp] theorem keeps_bind {x : Handler α} {f : α → Handler β} {Q : β → G → Prop} :
    Keeps P (x >>= f) g Q ↔ Keeps P x g fun a g => Keeps P (f a) g Q := by
  refine Prog.follows_bind.trans (iff_of_eq (congrArg (fun R => Prog.Follows P x R g) ?_))
  funext r g
  cases r with
  | ok a => exact propext ⟨fun h _ e => by cases e; exact h, fun h => h a rfl⟩
  | error e => exact propext ⟨fun _ _ e => (by cases e), fun _ _ e => (by cases e)⟩

@[simp] theorem keeps_op {o : Op} {Q : o.Res → G → Prop} :
    @Keeps G (no_index o.Res) P (op o) g Q ↔ P.ok g o ∧ ∀ r, P.res g o r → Q r (P.next g o r) := by
  simp only [Keeps, op]
  refine and_congr_right fun _ => forall_congr' fun r => imp_congr_right fun _ => ?_
  exact ⟨fun h => h r rfl, fun h _ e => by cases e; exact h⟩

@[simp] theorem keeps_ofExcept {r : Except S3Error α} {Q : α → G → Prop} :
    Keeps P (ofExcept r) g Q ↔ ∀ a, r = .ok a → Q a g := by
  cases r with
  | ok a => simp [ofExcept]
  | error e => simp [ofExcept]

@[simp] theorem keeps_orFail {o : Option α} {e : S3Error} {Q : α → G → Prop} :
    Keeps P (orFail o e) g Q ↔ ∀ a, o = some a → Q a g := by
  cases o <;> simp [orFail]

@[simp] theorem keeps_mapErr {f : MetaError → S3Error} {r : Except MetaError α} {Q : α → G → Prop} :
    Keeps P (mapErr f r) g Q ↔ ∀ a, r = .ok a → Q a g := by
  cases r with
  | ok a => simp [mapErr]
  | error e => simp [mapErr]

@[simp] theorem keeps_ensure {p : Prop} [Decidable p] {e : S3Error} {Q : Unit → G → Prop} :
    Keeps P (ensure p e) g Q ↔ (p → Q () g) := by
  by_cases h : p <;> simp [ensure, h]

/-! ## Operations a protocol takes no interest in -/

/-- The operation is always allowed and leaves the ghost state as it is. -/
def Ignores (P : Prog.Protocol Op Op.Res G) (o : Op) : Prop := ∀ g, P.ok g o ∧ ∀ r, P.next g o r = g

theorem Ignores.keeps {o : Op} (h : Ignores P o) {Q : o.Res → G → Prop} (hq : ∀ r, P.res g o r → Q r g) :
    @Keeps G (no_index o.Res) P (op o) g Q := by
  rw [keeps_op]
  refine ⟨(h g).1, fun r hr => ?_⟩
  rw [(h g).2]
  exact hq r hr

/-- A protocol that always allows the collection of a part. -/
structure AllowsGc (P : Prog.Protocol Op Op.Res G) : Prop where
  mark : ∀ g hash, P.ok g (.metaOp (.markPartGcPending hash))
  delete : ∀ g hash, P.ok g (.deletePart hash)
  remove : ∀ g hash, P.ok g (.metaOp (.removePart hash))

theorem AllowsGc.collectPart (h : AllowsGc P) {hash : Hash} {Q : Bool → G → Prop} (hq : ∀ b g, Q b g) :
    Keeps P (collectPart hash) g Q := by
  unfold S3lite.collectPart
  rw [keeps_bind, keeps_op]
  refine ⟨h.mark g hash, fun r _ => ?_⟩
  cases r with
  | error _ => exact keeps_pure.mpr (hq _ _)
  | ok granted =>
    cases granted with
    | false => exact keeps_pure.mpr (hq _ _)
    | true =>
      simp only [keeps_bind, keeps_op, keeps_pure]
      exact ⟨h.delete _ hash, fun _ _ => ⟨h.remove _ hash, fun _ _ => hq _ _⟩⟩

theorem AllowsGc.gcFreedParts (h : AllowsGc P) {freed : List Hash} {Q : Unit → G → Prop} (hq : ∀ g, Q () g) :
    Keeps P (gcFreedParts freed) g Q := by
  induction freed generalizing g with
  | nil => exact keeps_ok.mpr (hq g)
  | cons hash freed ih =>
    unfold S3lite.gcFreedParts
    rw [keeps_bind]
    exact h.collectPart fun _ _ => ih

theorem AllowsGc.removeManifest (h : AllowsGc P) {key : ManifestKey} (hok : P.ok g (.metaOp (.deleteManifest key)))
    {Q : Bool → G → Prop} (hq : ∀ b g, Q b g) : Keeps P (removeManifest key) g Q := by
  unfold S3lite.removeManifest
  simp only [keeps_bind, keeps_op]
  refine ⟨hok, fun r _ => ?_⟩
  split
  · exact keeps_bind.mpr (h.gcFreedParts fun g => keeps_ok.mpr (hq _ g))
  · exact keeps_ok.mpr (hq _ _)
  · exact keeps_fail

theorem Ignores.lockForPut (h : Ignores P .nowUtc) {cfg : Option ObjectLockConfig} {l : Option ObjectLock}
    {Q : Option ObjectLock → G → Prop} (hq : ∀ l, Q l g) : Keeps P (lockForPut cfg l) g Q := by
  unfold S3lite.lockForPut defaultLockForBucket
  split
  · exact keeps_ok.mpr (hq _)
  · split
    · exact keeps_ok.mpr (hq _)
    · rw [keeps_bind]
      refine h.keeps fun now _ => ?_
      split
      · exact keeps_pure.mpr (hq _)
      · simp only [keeps_bind, keeps_pure, addDays]
        split
        · exact keeps_ok.mpr (hq _)
        · exact keeps_panicked

theorem keeps_etagOf {env : Env} {m : Manifest} {Q : Str → G → Prop} (hq : ∀ etag, m.etag env.md5 env.debug = some etag → Q etag g) :
    Keeps P (etagOf env m) g Q := by
  unfold etagOf
  split
  · rename_i etag h
    exact keeps_ok.mpr (hq etag h)
  · exact keeps_panicked

/-- The handler as a program of the pool: its answer goes to the client. -/
def discard (x : Handler α) : Prog Op Op.Res Unit := Prog.bind x fun _ => .ret ()

theorem Keeps.discard {x : Handler α} (h : Keeps P x g fun _ _ => True) :
    x.discard.Follows P (fun _ _ => True) g :=
  Prog.follows_bind.mpr (Prog.Follows.mono h fun _ _ _ => trivial)

end S3lite.Handler
