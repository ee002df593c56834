/-
  S3lite.Access.Wildcard — origins that a CORS rule allows with a `*` in them.

  `origin_matches` says of the `*` that it stands for "any sequence of non-slash chars".
  - `origin_matches_iff`: it stands for any text.
  - `wildcard_iff`: so the function does what it says exactly unless a candidate has a slash in
    the part that the `*` stands for.
  - `a_slash_matches`: an origin of another host is allowed.
-/
import S3lite.Base.Split
import S3lite.S3.Cors

namespace S3lite

/-- What the comment says: `*` alone allows every origin, and in an origin the first `*` stands
    for text without a slash. -/
def OriginAllowed (allowed candidate : Str) : Prop :=
  allowed = str "*" ∨ 42 ∉ allowed ∧ allowed = candidate ∨
    ∃ head tail w, splitOnce 42 allowed = some (head, tail) ∧ candidate = head ++ w ++ tail ∧ 47 ∉ w

/-- The candidate has no slash in the place of the `*`. -/
def NoSlashInside (allowed candidate : Str) : Prop :=
  ∀ head tail w, splitOnce 42 allowed = some (head, tail) → candidate = head ++ w ++ tail → 47 ∉ w

theorem splitOnce_eq_none {c : UInt8} {s : Bytes} : splitOnce c s = none ↔ c ∉ s := by
  constructor
  · intro h hc
    have hsome := splitOnce_isSome.mpr hc
    rw [h] at hsome
    cases hsome
  · exact splitOnce_none

theorem origin_matches_iff {allowed candidate : Str} : originMatches allowed candidate = true ↔
    allowed = str "*" ∨ 42 ∉ allowed ∧ allowed = candidate ∨
      ∃ head tail w, splitOnce 42 allowed = some (head, tail) ∧ candidate = head ++ w ++ tail := by
  unfold originMatches
  by_cases hstar : allowed = str "*"
  · simp [hstar]
  rw [if_neg hstar]
  cases hs : splitOnce 42 allowed with
  | none =>
    have hn : 42 ∉ allowed := splitOnce_eq_none.mp hs
    simp [hstar, hn]
  | some r =>
    obtain ⟨head, tail⟩ := r
    have hin : 42 ∈ allowed := splitOnce_isSome.mp (by rw [hs]; rfl)
    have hmiddle : head <+: candidate ∧ tail <:+ candidate ∧ head.length + tail.length ≤ candidate.length ↔
        ∃ w, candidate = head ++ w ++ tail := exists_middle
    simp only [Bool.and_eq_true, decide_eq_true_eq, and_assoc, hmiddle]
    constructor
    · intro h
      obtain ⟨w, hw⟩ := h
      exact Or.inr (Or.inr ⟨head, tail, w, rfl, hw⟩)
    · intro h
      rcases h with h | h | ⟨head', tail', w, he, hw⟩
      · exact absurd h hstar
      · exact absurd hin h.1
      · cases he
        exact ⟨w, hw⟩

theorem originAllowed_matches {allowed candidate : Str} (h : OriginAllowed allowed candidate) :
    originMatches allowed candidate = true := by
  rw [origin_matches_iff]
  rcases h with h | h | ⟨head, tail, w, hs, hw, -⟩
  · exact Or.inl h
  · exact Or.inr (Or.inl h)
  · exact Or.inr (Or.inr ⟨head, tail, w, hs, hw⟩)

theorem wildcard_iff (allowed candidate : Str) :
    (originMatches allowed candidate = true ↔ OriginAllowed allowed candidate) ↔
      allowed = str "*" ∨ NoSlashInside allowed candidate := by
  constructor
  · intro h
    by_cases hstar : allowed = str "*"
    · exact Or.inl hstar
    right
    intro head tail w hs hw
    have hin : 42 ∈ allowed := splitOnce_isSome.mp (by rw [hs]; rfl)
    rcases h.mp (origin_matches_iff.mpr (Or.inr (Or.inr ⟨head, tail, w, hs, hw⟩))) with h | h | ⟨head', tail', w', hs', hw', hn⟩
    · exact absurd h hstar
    · exact absurd hin h.1
    · rw [hs] at hs'
      cases hs'
      rw [hw, List.append_cancel_right_eq, List.append_cancel_left_eq] at hw'
      rw [hw']
      exact hn
  · intro h
    refine ⟨fun hm => ?_, originAllowed_matches⟩
    rcases h with h | h
    · exact Or.inl h
    rcases origin_matches_iff.mp hm with hm | hm | ⟨head, tail, w, hs, hw⟩
    · exact Or.inl hm
    · exact Or.inr (Or.inl hm)
    · exact Or.inr (Or.inr ⟨head, tail, w, hs, hw, h head tail w hs hw⟩)

theorem a_slash_matches : ¬ ∀ allowed candidate, originMatches allowed candidate = true ↔ OriginAllowed allowed candidate := by
  intro hall
  have hw : str "https://evil.test/.example.com" = str "https://" ++ str "evil.test/" ++ str ".example.com" := by decide
  rcases (hall (str "https://*.example.com") (str "https://evil.test/.example.com")).mp (by decide) with h | h | h
  · exact absurd h (by decide)
  · exact absurd h.2 (by decide)
  · obtain ⟨head, tail, w, hs, hc, hn⟩ := h
    have hsplit : splitOnce 42 (str "https://*.example.com") = some (str "https://", str ".example.com") := by decide
    rw [hsplit] at hs
    cases hs
    rw [hw, List.append_cancel_right_eq, List.append_cancel_left_eq] at hc
    subst hc
    exact absurd hn (by decide)

end S3lite
