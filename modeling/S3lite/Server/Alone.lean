/-
  S3lite.Server.Alone — what a handler run alone ends in, construct by construct.

  `Ensures env x w Q E`: run from the world `w`, the handler returns into `Q` or fails into
  `E`. Each construct has one rule, all of them in the simp set; the helpers of the handler
  modules get theirs beside them.
  - `ensures_collectPart`, `ensures_gcFreedParts`: a collection alone removes the rows and
    files of the orphans among its hashes, and nothing else.
-/
import S3lite.S3.Common

namespace S3lite.Handler

variable {α β : Type} (env : Env)

def Ensures (x : Handler α) (w : World) (Q : α → World → Prop) (E : Failure → World → Prop) : Prop :=
  match run env x w with
  | (.ok a, w') => Q a w'
  | (.error e, w') => E e w'

variable {env} {w : World} {E : Failure → World → Prop}

theorem Ensures.mono {x : Handler α} {Q Q' : α → World → Prop} {E' : Failure → World → Prop} (h : Ensures env x w Q E)
    (hq : ∀ a w', Q a w' → Q' a w') (he : ∀ e w', E e w' → E' e w') : Ensures env x w Q' E' := by
  unfold Ensures at h ⊢
  split at h
  · exact hq _ _ h
  · exact he _ _ h

/-- What a successful run ends in. -/
theorem Ensures.ok {x : Handler α} {Q : α → World → Prop} (h : Ensures env x w Q E) {a : α} {w' : World}
    (hr : run env x w = (.ok a, w')) : Q a w' := by
  unfold Ensures at h
  rwa [hr] at h

/-- What a failed run ends in. -/
theorem Ensures.error {x : Handler α} {Q : α → World → Prop} (h : Ensures env x w Q E) {e : Failure} {w' : World}
    (hr : run env x w = (.error e, w')) : E e w' := by
  unfold Ensures at h
  rwa [hr] at h

/-- A run that cannot fail. -/
theorem Ensures.succeeds {x : Handler α} {Q : α → World → Prop} (h : Ensures env x w Q fun _ _ => False) :
    ∃ a w', run env x w = (.ok a, w') ∧ Q a w' := by
  unfold Ensures at h
  split at h
  · rename_i a w' hrun
    exact ⟨a, w', hrun, h⟩
  · exact h.elim

@[simp] theorem ensures_ok {a : α} {Q : α → World → Prop} : Ensures env (ok a) w Q E ↔ Q a w := Iff.rfl

@[simp] theorem ensures_pure {a : α} {Q : α → World → Prop} : Ensures env (pure a) w Q E ↔ Q a w := Iff.rfl

@[simp] theorem ensures_fail {e : S3Error} {Q : α → World → Prop} :
    Ensures env (fail e) w Q E ↔ E (.error e) w := Iff.rfl

@[simp] theorem ensures_panicked {Q : α → World → Prop} : Ensures env panicked w Q E ↔ E .panicked w := Iff.rfl

@[simp] theorem ensures_bind {x : Handler α} {f : α → Handler β} {Q : β → World → Prop} :
    Ensures env (x >>= f) w Q E ↔ Ensures env x w (fun a w => Ensures env (f a) w Q E) E := by
  unfold Ensures
  rw [run_bind]
  rcases run env x w with ⟨_ | _, w'⟩ <;> rfl

@[simp] theorem ensures_op {o : Op} {Q : o.Res → World → Prop} :
    Ensures env (α := no_index o.Res) (op o) w Q E ↔ Q (exec env o w).1 (exec env o w).2 := Iff.rfl

@[simp] theorem ensures_ofExcept {r : Except S3Error α} {Q : α → World → Prop} :
    Ensures env (ofExcept r) w Q E ↔ (∀ a, r = .ok a → Q a w) ∧ ∀ e, r = .error e → E (.error e) w := by
  cases r with
  | ok a => simp [ofExcept]
  | error e => simp [ofExcept]

theorem ensures_ofExcept_mapError {ε : Type} {r : Except ε α} {f : ε → S3Error} {Q : α → World → Prop} :
    Ensures env (ofExcept (r.mapError f)) w Q E ↔ (∀ a, r = .ok a → Q a w) ∧ ∀ e, r = .error e → E (.error (f e)) w := by
  cases r with
  | ok a => simp [ofExcept, Except.mapError]
  | error e => simp [ofExcept, Except.mapError]

@[simp] theorem ensures_orFail {o : Option α} {e : S3Error} {Q : α → World → Prop} :
    Ensures env (orFail o e) w Q E ↔ (∀ a, o = some a → Q a w) ∧ (o = none → E (.error e) w) := by
  cases o <;> simp [orFail]

@[simp] theorem ensures_mapErr {f : MetaError → S3Error} {r : Except MetaError α} {Q : α → World → Prop} :
    Ensures env (mapErr f r) w Q E ↔ (∀ a, r = .ok a → Q a w) ∧ ∀ e, r = .error e → E (.error (f e)) w := by
  cases r with
  | ok a => simp [mapErr]
  | error e => simp [mapErr]

@[simp] theorem ensures_ensure {p : Prop} [Decidable p] {e : S3Error} {Q : Unit → World → Prop} :
    Ensures env (ensure p e) w Q E ↔ (p → Q () w) ∧ (¬ p → E (.error e) w) := by
  by_cases h : p <;> simp [ensure, h]

/-! ## Collection -/

/-- The row of the hash has a count of 0. -/
def Orphan (parts : Parts) (h : Hash) : Prop := ∃ e, parts.get h = some e ∧ e.refcount = 0

/-- From `w` to `w'` the orphans among the hashes went, with their files, and time passed. -/
structure Collected (hashes : List Hash) (w w' : World) : Prop where
  buckets : w'.db.buckets = w.db.buckets
  objects : w'.db.objects = w.db.objects
  uuids : w'.uuids = w.uuids
  clock : w.clock ≤ w'.clock
  gone : ∀ h ∈ hashes, Orphan w.db.parts h → w'.db.parts.get h = none ∧ w'.files.get h = none
  kept : ∀ h, (h ∈ hashes → ¬ Orphan w.db.parts h) → w'.db.parts.get h = w.db.parts.get h ∧ w'.files.get h = w.files.get h

theorem Collected.refl (w : World) : Collected [] w w :=
  ⟨rfl, rfl, rfl, le_rfl, fun _ hm => absurd hm List.not_mem_nil, fun _ _ => ⟨rfl, rfl⟩⟩

theorem Collected.trans {a b : List Hash} {w w' w'' : World} (h : Collected a w w') (h' : Collected b w' w'') :
    Collected (a ++ b) w w'' := by
  -- a hash that was an orphan is collected by one of the two
  have horphan : ∀ x, (x ∈ a → ¬ Orphan w.db.parts x) → (Orphan w'.db.parts x ↔ Orphan w.db.parts x) := fun x hx => by
    unfold Orphan
    rw [(h.kept x hx).1]
  refine ⟨h'.buckets.trans h.buckets, h'.objects.trans h.objects, h'.uuids.trans h.uuids, h.clock.trans h'.clock, ?_, ?_⟩
  · intro x hx ho
    by_cases ha : x ∈ a
    · have hg := h.gone x ha ho
      have hn : ¬ Orphan w'.db.parts x := by
        rintro ⟨e, he, -⟩
        rw [hg.1] at he
        cases he
      have hk := h'.kept x fun _ => hn
      exact ⟨hk.1.trans hg.1, hk.2.trans hg.2⟩
    · exact h'.gone x ((List.mem_append.mp hx).resolve_left ha) ((horphan x fun hm => absurd hm ha).mpr ho)
  · intro x hx
    have ha : x ∈ a → ¬ Orphan w.db.parts x := fun hm => hx (List.mem_append_left _ hm)
    have hk := h.kept x ha
    have hk' := h'.kept x fun hm ho => hx (List.mem_append_right _ hm) ((horphan x ha).mp ho)
    exact ⟨hk'.1.trans hk.1, hk'.2.trans hk.2⟩

theorem ensures_collectPart (hash : Hash) :
    Ensures env (collectPart hash) w (fun _ w' => Collected [hash] w w') E := by
  unfold collectPart
  simp only [ensures_bind, ensures_op]
  cases hmark : handleMarkGcPending w.db hash with
  | error e =>
    have hnot : ¬ Orphan w.db.parts hash := by
      rintro ⟨r, hr, h0⟩
      simp [handleMarkGcPending, hr, h0] at hmark
    simp only [exec, MetaOp.exec, hmark, commit_error, ensures_pure]
    exact ⟨rfl, rfl, rfl, Nat.le_add_right .., fun h hh ho => absurd (List.mem_singleton.mp hh ▸ ho) hnot,
      fun _ _ => ⟨rfl, rfl⟩⟩
  | ok r =>
    obtain ⟨granted, db'⟩ := r
    obtain ⟨e, he, ⟨rfl, hne, rfl⟩ | ⟨rfl, h0, rfl⟩⟩ := mark_ok hmark
    · have hnot : ¬ Orphan w.db.parts hash := by
        rintro ⟨r, hr, h0⟩
        rw [he] at hr
        cases hr
        exact hne h0
      simp only [exec, MetaOp.exec, hmark, commit_ok, ensures_pure]
      exact ⟨rfl, rfl, rfl, Nat.le_add_right .., fun h hh ho => absurd (List.mem_singleton.mp hh ▸ ho) hnot,
        fun _ _ => ⟨rfl, rfl⟩⟩
    · simp only [exec, MetaOp.exec, hmark, commit_ok, ensures_bind, ensures_op, ensures_pure]
      refine ⟨rfl, rfl, rfl, by simp only; omega, ?_, ?_⟩
      · intro h hh _
        rw [List.mem_singleton.mp hh]
        exact ⟨Table.get_erase_self .., Table.get_erase_self ..⟩
      · intro h hh
        have hne : h ≠ hash := by
          rintro rfl
          exact hh (List.mem_singleton_self _) ⟨e, he, h0⟩
        exact ⟨(Table.get_erase_ne _ hne).trans (Table.get_insert_ne _ _ hne), Table.get_erase_ne _ hne⟩

theorem ensures_gcFreedParts (freed : List Hash) :
    Ensures env (gcFreedParts freed) w (fun _ w' => Collected freed w w') E := by
  induction freed generalizing w with
  | nil => exact .refl w
  | cons hash freed ih =>
    unfold gcFreedParts
    rw [ensures_bind]
    exact (ensures_collectPart hash).mono (fun _ _ h => ih.mono (fun _ _ h' => h.trans h') fun _ _ h => h) fun _ _ h => h

end S3lite.Handler
