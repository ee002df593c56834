/-
  S3lite.Access.Canonical — the text a presigned URL is verified against.

  - `canonicalQuery_eq_iff`: two queries are written alike exactly when they have the same
    parameters, each as often, less the signature and in any order.
-/
import S3lite.Http.Presigned
import S3lite.Base.Split

namespace S3lite

/-! ## The query -/

/-- The parameters a signature covers: empty tokens count for nothing, and one without `=` has
    an empty value. -/
def signedPairs (query : Str) : List (Str × Str) :=
  (((splitByte 38 query).filter fun token => !token.isEmpty).map queryPair).filter fun kv =>
    !eqIgnoreAsciiCase kv.1 (str "X-Amz-Signature")

/-- Pairs in byte order of their names, then of their values. -/
def sortPairs (pairs : List (Str × Str)) : List (Str × Str) := pairs.insertionSort fun a b => toLex a ≤ toLex b

/-- Parameters as a query. -/
def writeQuery (pairs : List (Str × Str)) : Str := (str "&").intercalate (pairs.map (pairText 61))

theorem canonicalQuery_eq (query : Str) : canonicalQuery query = writeQuery (sortPairs (signedPairs query)) := by
  have hpairs : (splitByte 38 query).filterMap (fun token =>
      if token.isEmpty || eqIgnoreAsciiCase (queryPair token).1 (str "X-Amz-Signature") then none
      else some (queryPair token)) = signedPairs query := by
    unfold signedPairs
    generalize splitByte 38 query = tokens
    induction tokens with
    | nil => rfl
    | cons token tokens ih =>
      rw [List.filterMap_cons, List.filter_cons]
      by_cases he : token.isEmpty = true
      · simpa [he] using ih
      · by_cases hs : eqIgnoreAsciiCase (queryPair token).1 (str "X-Amz-Signature") = true
        · simpa [he, hs] using ih
        · simpa [he, hs] using ih
  have htext : (fun kv : Str × Str => kv.1 ++ str "=" ++ kv.2) = pairText 61 := by
    funext kv
    exact List.append_assoc ..
  rw [canonicalQuery, hpairs, htext]
  rfl

theorem sortPairs_perm (pairs : List (Str × Str)) : (sortPairs pairs).Perm pairs := List.perm_insertionSort _ _

theorem sortPairs_congr {pairs pairs' : List (Str × Str)} (h : pairs.Perm pairs') : sortPairs pairs = sortPairs pairs' := by
  have hsorted : ∀ l : List (Str × Str), (sortPairs l).Pairwise fun a b => toLex a ≤ toLex b :=
    fun l => List.pairwise_insertionSort _ l
  have hperm : (sortPairs pairs).Perm (sortPairs pairs') := (sortPairs_perm _).trans (h.trans (sortPairs_perm _).symm)
  exact hperm.eq_of_pairwise (fun a b _ _ hab hba => toLex_inj.mp (le_antisymm hab hba)) (hsorted _) (hsorted _)

/-- A name has no `=` in it, and neither part has an `&`. -/
structure PlainPair (kv : Str × Str) : Prop where
  name : 61 ∉ kv.1
  nameAmp : 38 ∉ kv.1
  valueAmp : 38 ∉ kv.2

theorem queryPair_plain {token : Str} (h : 38 ∉ token) : PlainPair (queryPair token) := by
  unfold queryPair
  cases hs : splitOnce 61 token with
  | none =>
    refine ⟨fun hc => ?_, h, List.not_mem_nil⟩
    have hsome := splitOnce_isSome.mpr (show 61 ∈ token from hc)
    rw [hs] at hsome
    cases hsome
  | some kv =>
    obtain ⟨rfl, hn⟩ := splitOnce_eq_some hs
    rw [List.mem_append, List.mem_cons, not_or, not_or] at h
    exact ⟨hn, h.1, h.2.2⟩

theorem signedPairs_plain {query : Str} {kv : Str × Str} (h : kv ∈ signedPairs query) : PlainPair kv := by
  obtain ⟨token, htoken, rfl⟩ := List.mem_map.mp (List.mem_filter.mp h).1
  exact queryPair_plain (not_mem_of_mem_splitByte (List.mem_filter.mp htoken).1)

theorem PlainPair.token {kv : Str × Str} (h : PlainPair kv) : 38 ∉ pairText 61 kv ∧ pairText 61 kv ≠ [] := by
  refine ⟨fun hc => ?_, List.append_ne_nil_of_right_ne_nil _ (List.cons_ne_nil _ _)⟩
  rcases List.mem_append.mp hc with hc | hc
  · exact h.nameAmp hc
  · rcases List.mem_cons.mp hc with hc | hc
    · revert hc; decide
    · exact h.valueAmp hc

/-- A query gives back its parameters. -/
theorem writeQuery_injective {pairs pairs' : List (Str × Str)} (h : ∀ kv ∈ pairs, PlainPair kv)
    (h' : ∀ kv ∈ pairs', PlainPair kv) (e : writeQuery pairs = writeQuery pairs') : pairs = pairs' := by
  have hmap : pairs.map (pairText 61) = pairs'.map (pairText 61) := by
    refine intercalate_injective (c := 38) ?_ ?_ e
    · intro p hp
      obtain ⟨kv, hkv, rfl⟩ := List.mem_map.mp hp
      exact (h kv hkv).token
    · intro p hp
      obtain ⟨kv, hkv, rfl⟩ := List.mem_map.mp hp
      exact (h' kv hkv).token
  clear e
  induction pairs generalizing pairs' with
  | nil => exact (List.map_eq_nil_iff.mp hmap.symm).symm
  | cons kv pairs ih =>
    cases pairs' with
    | nil => cases hmap
    | cons kv' pairs' =>
      obtain ⟨hhead, htail⟩ := List.cons_eq_cons.mp hmap
      have hkv := pairText_injective (h kv (List.mem_cons_self ..)).name (h' kv' (List.mem_cons_self ..)).name hhead
      rw [hkv, ih (fun x hx => h x (List.mem_cons_of_mem _ hx)) (fun x hx => h' x (List.mem_cons_of_mem _ hx)) htail]

/-- The signed text of a query is that of its parameters, whatever their order, and of no
    others. -/
theorem canonicalQuery_eq_iff (q1 q2 : Str) : canonicalQuery q1 = canonicalQuery q2 ↔ (signedPairs q1).Perm (signedPairs q2) := by
  rw [canonicalQuery_eq, canonicalQuery_eq]
  constructor
  · intro e
    have hplain : ∀ q, ∀ kv ∈ sortPairs (signedPairs q), PlainPair kv := fun q kv hkv =>
      signedPairs_plain ((sortPairs_perm _).mem_iff.mp hkv)
    have hsorted := writeQuery_injective (hplain q1) (hplain q2) e
    exact (sortPairs_perm _).symm.trans (hsorted ▸ sortPairs_perm _)
  · intro h
    rw [sortPairs_congr h]

example : canonicalQuery (str "b=2&a&X-Amz-Signature=f&a=1=") = str "a=&a=1=&b=2" := by decide +kernel

end S3lite
