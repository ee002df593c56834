/-
  S3lite.Base.Pages — paging through a changing set in ascending order.

  A page (`IsPage`) taken from a set at a cursor lists, ascending, elements of the set past
  the cursor: all of them, or (`more`) all up to the page's last one, which is the next
  cursor. The set may be another one at every page (`Walk`).
  - `Walk.ascending`: the pages of a walk, one after the other, are strictly ascending.
  - `Walk.covers`: a finished walk lists every element that is in all the sets it saw.
  - `Walk.ends`: a walk that may go on for longer than there are elements to list is done.
  Over an unchanged list the pages are its stretches (`Stretches`), and a page resumes at a
  position its last element decides.
  - `Stretches.exact_iff`: following the markers lists every element once exactly if at
    every page boundary that position is the next one.
-/
import Mathlib

namespace S3lite

variable {N : Type} [LinearOrder N]

/-- Elements past the cursor, `⊥` before the first page. -/
def Past (c : WithBot N) (n : N) : Prop := c < n

structure IsPage (S : Set N) (c : WithBot N) (page : List N) (more : Bool) : Prop where
  ascending : page.Pairwise (· < ·)
  past : ∀ n ∈ page, Past c n
  full : more = false → ∀ n ∈ S, Past c n → n ∈ page
  cut : more = true → ∃ l, page.getLast? = some l ∧ ∀ n ∈ S, Past c n → n ∈ page ∨ l < n

/-- The pages of a walk from a cursor, over the sets it finds; `done` when a page said
    there is no more. -/
inductive Walk : WithBot N → List (Set N) → List (List N) → Bool → Prop
  | nil (c : WithBot N) : Walk c [] [] false
  | last {c : WithBot N} {S : Set N} {page : List N} (Ss : List (Set N)) : IsPage S c page false →
      Walk c (S :: Ss) [page] true
  | next {c : WithBot N} {S : Set N} {page : List N} {l : N} {Ss : List (Set N)} {pages : List (List N)} {done : Bool} :
      IsPage S c page true → page.getLast? = some l → Walk l Ss pages done → Walk c (S :: Ss) (page :: pages) done

/-- In an ascending list the last element is the greatest. -/
theorem le_getLast {page : List N} (h : page.Pairwise (· < ·)) {l n : N} (hl : page.getLast? = some l) (hn : n ∈ page) :
    n ≤ l := by
  obtain ⟨init, rfl⟩ := List.getLast?_eq_some_iff.mp hl
  rcases List.mem_append.mp hn with hn | hn
  · exact (List.pairwise_append.mp h).2.2 n hn l (List.mem_singleton_self l) |>.le
  · exact (List.mem_singleton.mp hn).le

namespace IsPage

variable {S : Set N} {c : WithBot N} {full : List N} {limit : Nat}

/-- The first `limit` elements of the ascending list of what is past the cursor are a page,
    with more to come when they are not all. -/
theorem of_take (hasc : full.Pairwise (· < ·)) (hmem : ∀ n, n ∈ full ↔ n ∈ S ∧ Past c n) (hlimit : 0 < limit) :
    IsPage S c (full.take limit) (decide (limit < full.length)) where
  ascending := hasc.sublist (List.take_sublist ..)
  past := by
    intro n hn
    exact ((hmem n).mp (List.mem_of_mem_take hn)).2
  full := by
    intro hmore n hn hc
    rw [List.take_of_length_le (by simpa using hmore)]
    exact (hmem n).mpr ⟨hn, hc⟩
  cut := by
    intro hmore
    have hlen : limit < full.length := by simpa using hmore
    have hne : full.take limit ≠ [] := by
      intro e
      have := congrArg List.length e
      simp only [List.length_take, List.length_nil] at this
      omega
    refine ⟨(full.take limit).getLast hne, List.getLast?_eq_getLast_of_ne_nil hne, ?_⟩
    intro n hn hc
    have hn' := (hmem n).mpr ⟨hn, hc⟩
    rw [← List.take_append_drop limit full] at hn' hasc
    rcases List.mem_append.mp hn' with h | h
    · exact Or.inl h
    · exact Or.inr ((List.pairwise_append.mp hasc).2.2 _ (List.getLast_mem hne) n h)

end IsPage

namespace Walk

variable {c : WithBot N} {Ss : List (Set N)} {pages : List (List N)} {done : Bool}

theorem ascending (h : Walk c Ss pages done) : pages.flatten.Pairwise (· < ·) ∧ ∀ n ∈ pages.flatten, Past c n := by
  induction h with
  | nil c => simp
  | last Ss hp => simpa using ⟨hp.ascending, hp.past⟩
  | @next c S page l Ss pages done hp hl _ ih =>
    have hcl : Past c l := hp.past l (List.mem_of_getLast? hl)
    constructor
    · rw [List.flatten_cons, List.pairwise_append]
      refine ⟨hp.ascending, ih.1, ?_⟩
      intro a ha b hb
      exact lt_of_le_of_lt (le_getLast hp.ascending hl ha) (WithBot.coe_lt_coe.mp (ih.2 b hb))
    · intro n hn
      rcases List.mem_append.mp hn with hn | hn
      · exact hp.past n hn
      · exact lt_trans hcl (ih.2 n hn)

/-- An element past the cursor that is in the set at every page is on some page of a
    finished walk. -/
theorem covers (h : Walk c Ss pages done) (hdone : done = true) {n : N} (hc : Past c n)
    (hn : ∀ S ∈ Ss.take pages.length, n ∈ S) : n ∈ pages.flatten := by
  induction h with
  | nil c => cases hdone
  | last Ss hp => simpa using hp.full rfl n (hn _ (by simp)) hc
  | @next c S page l Ss pages done hp hl _ ih =>
    obtain ⟨l', hl', hcut⟩ := hp.cut rfl
    obtain rfl : l = l' := by simpa [hl] using hl'
    rw [List.flatten_cons, List.mem_append]
    rcases hcut n (hn S (by simp)) hc with h | h
    · exact Or.inl h
    · refine Or.inr (ih hdone (WithBot.coe_lt_coe.mpr h) ?_)
      intro T hT
      exact hn T (by simpa using Or.inr hT)

/-- A walk that is not done took a page from every set it was given, none of them empty. -/
theorem unfinished (h : Walk c Ss pages done) (hdone : done = false) :
    pages.length = Ss.length ∧ ∀ p ∈ pages, p ≠ [] := by
  induction h with
  | nil c => simp
  | last Ss hp => cases hdone
  | @next c S page l Ss pages done hp hl _ ih =>
    obtain ⟨hlen, hne⟩ := ih hdone
    refine ⟨by simp [hlen], ?_⟩
    intro p hp
    rcases List.mem_cons.mp hp with rfl | hp
    · rintro rfl; cases hl
    · exact hne p hp

/-- A walk given more sets than there are elements to list is done. -/
theorem ends (h : Walk c Ss pages done) (rest : List N) (hrest : ∀ n ∈ pages.flatten, n ∈ rest)
    (hlen : rest.length < Ss.length) : done = true := by
  by_contra hdone
  obtain ⟨hpages, hne⟩ := h.unfinished (by simpa using hdone)
  have hle : pages.length ≤ pages.flatten.length := by
    rw [List.length_flatten]
    calc pages.length = (pages.map fun _ => 1).sum := by simp
      _ ≤ (pages.map List.length).sum := List.sum_le_sum fun p hp => List.length_pos_iff.mpr (hne p hp)
  have hnd : pages.flatten.Nodup := h.ascending.1.imp fun h => h.ne
  have := (hnd.subperm hrest).length_le
  omega

end Walk

/-! ## Ascending lists -/

section
variable {α N : Type} [LinearOrder N] {f : α → N} {l : List α}

theorem eq_of_ascending {l' : List α} (h : (l.map f).Pairwise (· < ·)) (h' : (l'.map f).Pairwise (· < ·))
    (hmem : ∀ a, a ∈ l ↔ a ∈ l') : l = l' := by
  have hirrefl : Std.Irrefl fun a b => f a < f b := ⟨fun a => lt_irrefl (f a)⟩
  have hantisymm : Std.Antisymm fun a b => f a < f b := ⟨fun _ _ hab hba => absurd hba (lt_asymm hab)⟩
  exact List.Pairwise.eq_of_mem_iff (List.pairwise_map.mp h) (List.pairwise_map.mp h') hmem

theorem mem_drop_ascending (h : (l.map f).Pairwise (· < ·)) {j : Nat} (hj : j < l.length) {a : α} :
    (a ∈ l.drop j ↔ a ∈ l ∧ f l[j] ≤ f a) ∧ (a ∈ l.drop (j + 1) ↔ a ∈ l ∧ f l[j] < f a) := by
  have hsplit : l = l.take j ++ l[j] :: l.drop (j + 1) := by
    rw [← List.drop_eq_getElem_cons hj, List.take_append_drop]
  have hpair := List.pairwise_map.mp h
  rw [hsplit, List.pairwise_append, List.pairwise_cons] at hpair
  obtain ⟨-, ⟨hlater, -⟩, hbefore⟩ := hpair
  have hout : ∀ a ∈ l.take j, f a < f l[j] := fun a ha => hbefore a ha _ (List.mem_cons_self ..)
  have hmem : a ∈ l ↔ a ∈ l.take j ∨ a = l[j] ∨ a ∈ l.drop (j + 1) := by
    conv_lhs => rw [hsplit, List.mem_append, List.mem_cons]
  rw [List.drop_eq_getElem_cons hj, List.mem_cons]
  constructor
  · constructor
    · rintro (rfl | ha)
      · exact ⟨List.getElem_mem hj, le_rfl⟩
      · exact ⟨hmem.mpr (Or.inr (Or.inr ha)), (hlater a ha).le⟩
    · rintro ⟨ha, hle⟩
      rcases hmem.mp ha with ha | ha
      · exact absurd (hout a ha) (not_lt.mpr hle)
      · exact ha
  · constructor
    · intro ha
      exact ⟨hmem.mpr (Or.inr (Or.inr ha)), hlater a ha⟩
    · rintro ⟨ha, hlt⟩
      rcases hmem.mp ha with ha | rfl | ha
      · exact absurd (hout a ha) (lt_asymm hlt)
      · exact absurd hlt (lt_irrefl _)
      · exact ha

/-- A list in ascending order is cut at every point. -/
theorem split_ascending (h : l.Pairwise fun a b => f a ≤ f b) (n : N) :
    l = (l.filter fun a => f a ≤ n) ++ l.filter fun a => n < f a := by
  induction l with
  | nil => rfl
  | cons a l ih =>
    obtain ⟨ha, hl⟩ := List.pairwise_cons.mp h
    by_cases hn : f a ≤ n
    · rw [List.filter_cons_of_pos (by simpa using hn), List.filter_cons_of_neg (by simpa using hn), List.cons_append, ← ih hl]
    · -- all that follows lies past the point too
      have hpast : ∀ b ∈ l, n < f b := fun b hb => lt_of_lt_of_le (not_le.mp hn) (ha b hb)
      rw [List.filter_cons_of_neg (by simpa using hn), List.filter_cons_of_pos (by simpa using hn),
        List.filter_eq_nil_iff.mpr (fun b hb => by simpa using hpast b hb),
        List.filter_eq_self.mpr (fun b hb => by simpa using hpast b hb)]
      rfl

theorem countP_split_ascending (h : l.Pairwise fun a b => f a ≤ f b) (n : N) :
    (l.take (l.countP fun a => f a ≤ n) = l.filter fun a => f a ≤ n) ∧
      l.drop (l.countP fun a => f a ≤ n) = l.filter fun a => n < f a := by
  have hsplit := split_ascending h n
  have hlen : (l.filter fun a => f a ≤ n).length = l.countP fun a => f a ≤ n := List.countP_eq_length_filter.symm
  constructor
  · have htake : ((l.filter fun a => f a ≤ n) ++ l.filter fun a => n < f a).take _ = _ := List.take_left' hlen
    rwa [← hsplit] at htake
  · have hdrop : ((l.filter fun a => f a ≤ n) ++ l.filter fun a => n < f a).drop _ = _ := List.drop_left' hlen
    rwa [← hsplit] at hdrop

/-- The elements up to those equal to the one at a position end after it, and right after it
    exactly if the next one is another. -/
theorem countP_ascending (h : l.Pairwise fun a b => f a ≤ f b) {j : Nat} (hj : j < l.length) :
    j + 1 ≤ l.countP (fun a => f a ≤ f l[j]) ∧
      (l.countP (fun a => f a ≤ f l[j]) = j + 1 ↔ ∀ b, l[j + 1]? = some b → f b ≠ f l[j]) := by
  obtain ⟨n, hn⟩ : ∃ n, l.countP (fun a => f a ≤ f l[j]) = n := ⟨_, rfl⟩
  obtain ⟨htake, hdrop⟩ := countP_split_ascending h (f l[j])
  rw [hn] at htake hdrop ⊢
  have hlater : ∀ i b, l[i]? = some b → n ≤ i → f l[j] < f b := by
    intro i b hb hi
    have hmem : b ∈ l.drop n := List.mem_of_getElem? (i := i - n) (by rw [List.getElem?_drop, show n + (i - n) = i by omega, hb])
    rw [hdrop] at hmem
    simpa using (List.mem_filter.mp hmem).2
  have hle : j + 1 ≤ n := by
    by_contra hlt
    exact absurd (hlater j l[j] (List.getElem?_eq_getElem hj) (by omega)) (lt_irrefl _)
  refine ⟨hle, ?_, ?_⟩
  · intro he b hb
    exact (hlater (j + 1) b hb (by omega)).ne'
  · intro hnext
    by_contra hne
    have hlen : n ≤ l.length := hn ▸ List.countP_le_length
    have hj1 : j + 1 < l.length := by omega
    have hmem : l[j + 1] ∈ l.take n := List.mem_of_getElem? (i := j + 1)
      (by rw [List.getElem?_take_of_lt (by omega), List.getElem?_eq_getElem hj1])
    rw [htake] at hmem
    have hup : f l[j + 1] ≤ f l[j] := by simpa using (List.mem_filter.mp hmem).2
    have hdown : f l[j] ≤ f l[j + 1] := List.pairwise_iff_getElem.mp h j (j + 1) hj hj1 (by omega)
    exact hnext _ (List.getElem?_eq_getElem hj1) (le_antisymm hup hdown)

end

/-! ## Stretches of a list -/

section
variable {α M : Type}

/-- What a client has listed when it passes each page's marker on until a page has none. -/
inductive Follows (page : M → List α × Option M) : M → List α → Prop
  | last {m : M} : (page m).2 = none → Follows page m (page m).1
  | next {m m' : M} {items : List α} : (page m).2 = some m' → Follows page m' items → Follows page m ((page m).1 ++ items)

/-- The pages are stretches of a list: `At m k` when the marker `m` resumes at position `k`;
    the page after it resumes where the position of its last element says. -/
structure Stretches (page : M → List α × Option M) (full : List α) (limit : Nat) (resume : Nat → Nat)
    (At : M → Nat → Prop) : Prop where
  items : ∀ {m k}, At m k → (page m).1 = (full.drop k).take limit
  last : ∀ {m k}, At m k → full.length ≤ k + limit → (page m).2 = none
  next : ∀ {m k}, At m k → k + limit < full.length → ∃ m', (page m).2 = some m' ∧ At m' (resume (k + limit - 1))
  /-- No page resumes before its last element, but at the start. -/
  forth : ∀ j, j ≤ resume j ∨ resume j = 0
  limit_pos : 0 < limit

namespace Stretches

variable {page : M → List α × Option M} {full : List α} {limit : Nat} {resume : Nat → Nat} {At : M → Nat → Prop}

/-- The first element listed is the one at the position. -/
theorem listed_first (h : Stretches page full limit resume At) {m : M} {items : List α} (hf : Follows page m items) {k : Nat}
    (hk : At m k) {x : α} (hx : full[k]? = some x) : x ∈ items := by
  have hin : x ∈ (page m).1 := by
    rw [h.items hk]
    refine List.mem_of_getElem? (i := 0) ?_
    rw [List.getElem?_take_of_lt h.limit_pos, List.getElem?_drop, Nat.add_zero, hx]
  cases hf with
  | last _ => exact hin
  | next _ _ => exact List.mem_append_left _ hin

/-- A client that does not see the first element lists only elements from its position on. -/
theorem listed_mem (h : Stretches page full limit resume At) {m : M} {items : List α} (hf : Follows page m items) {k : Nat}
    (hk : At m k) (hfirst : ∀ x, full[0]? = some x → x ∉ items) : ∀ x ∈ items, x ∈ full.drop k := by
  induction hf generalizing k with
  | last _ =>
    intro x hx
    rw [h.items hk] at hx
    exact List.mem_of_mem_take hx
  | @next m m' items hm hf ih =>
    intro x hx
    rcases List.mem_append.mp hx with hx | hx
    · rw [h.items hk] at hx
      exact List.mem_of_mem_take hx
    · have hmore : k + limit < full.length := by
        by_contra hle
        rw [h.last hk (not_lt.mp hle)] at hm
        cases hm
      obtain ⟨m'', hm'', hat⟩ := h.next hk hmore
      obtain rfl : m' = m'' := Option.some.inj (hm.symm.trans hm'')
      have hforth : k ≤ resume (k + limit - 1) := by
        rcases h.forth (k + limit - 1) with hle | hzero
        · have := h.limit_pos
          omega
        · have hx := List.getElem?_eq_getElem (show 0 < full.length by omega)
          rw [hzero] at hat
          exact absurd (List.mem_append_right _ (h.listed_first hf hat hx)) (hfirst _ hx)
      exact (List.drop_sublist_drop_left full hforth).subset
        (ih hat (fun x hx hin => hfirst x hx (List.mem_append_right _ hin)) x hx)

/-- Where every boundary resumes at the next position, all is listed, in order. -/
theorem lists_all (h : Stretches page full limit resume At) {m : M} {k : Nat} (hk : At m k)
    (hnext : ∀ i, 1 ≤ i → k + i * limit < full.length → resume (k + i * limit - 1) = k + i * limit) :
    Follows page m (full.drop k) := by
  have hlimit := h.limit_pos
  obtain ⟨n, hn⟩ : ∃ n, full.length - k ≤ n := ⟨_, le_rfl⟩
  -- by induction on what is left
  induction n generalizing m k with
  | zero =>
    have hp := h.items hk
    rw [List.drop_eq_nil_of_le (by omega), List.take_nil] at hp
    have hf := Follows.last (h.last hk (by omega))
    rwa [hp, ← List.drop_eq_nil_of_le (show full.length ≤ k by omega)] at hf
  | succ n ih =>
    by_cases hmore : k + limit < full.length
    · obtain ⟨m', hm', hat⟩ := h.next hk hmore
      have hboundary := hnext 1 le_rfl (by omega)
      rw [Nat.one_mul] at hboundary
      rw [hboundary] at hat
      have hrest := ih hat (fun i hi hlt => ?_) (by omega)
      · have hf := Follows.next hm' hrest
        rwa [h.items hk, ← List.drop_drop, List.take_append_drop] at hf
      · have hstep := hnext (i + 1) (by omega) (by rw [Nat.add_mul, Nat.one_mul]; omega)
        rw [Nat.add_mul, Nat.one_mul] at hstep
        have he : k + limit + i * limit = k + (i * limit + limit) := by omega
        rw [he, hstep]
    · have hf := Follows.last (h.last hk (not_lt.mp hmore))
      rwa [h.items hk, List.take_of_length_le (by rw [List.length_drop]; omega)] at hf

/-- A client that listed everything from a position on, and nothing twice, resumed at the
    next position at every boundary. -/
theorem resumes (h : Stretches page full limit resume At) (hnd : full.Nodup) {m : M} {items : List α}
    (hf : Follows page m items) {k : Nat} (hk : At m k) (honce : items.Nodup) (hall : ∀ x ∈ full.drop k, x ∈ items)
    (hfirst : k = 0 ∨ ∀ x, full[0]? = some x → x ∉ items) :
    ∀ i, 1 ≤ i → k + i * limit < full.length → resume (k + i * limit - 1) = k + i * limit := by
  have hlimit := h.limit_pos
  induction hf generalizing k with
  | @last m hm =>
    intro i hi hlt
    have hmore : k + limit < full.length := by
      have := Nat.mul_le_mul_right limit hi
      omega
    obtain ⟨m', hm', -⟩ := h.next hk hmore
    rw [hm] at hm'
    cases hm'
  | @next m m' items hm hf ih =>
    intro i hi hlt
    have hmore : k + limit < full.length := by
      have := Nat.mul_le_mul_right limit hi
      omega
    obtain ⟨m'', hm'', hat⟩ := h.next hk hmore
    obtain rfl : m' = m'' := Option.some.inj (hm.symm.trans hm'')
    rw [h.items hk, List.nodup_append] at honce
    obtain ⟨-, honce, hdisjoint⟩ := honce
    have hsplit : full.drop k = (full.drop k).take limit ++ full.drop (k + limit) := by
      rw [← List.drop_drop, List.take_append_drop]
    have hapart := hnd.sublist (List.drop_sublist k full)
    rw [hsplit, List.nodup_append] at hapart
    obtain ⟨-, hrest, hapart⟩ := hapart
    -- the pages to come do not have the first element, so none of them starts over
    have hlater : ∀ x, full[0]? = some x → x ∉ items := by
      intro x hx
      rcases hfirst with rfl | hfirst
      · refine fun hin => hdisjoint x ?_ x hin rfl
        refine List.mem_of_getElem? (i := 0) ?_
        rw [List.getElem?_take_of_lt hlimit, List.drop_zero, hx]
      · exact fun hin => hfirst x hx (List.mem_append_right _ hin)
    have hboundary : resume (k + limit - 1) = k + limit := by
      have hforth : k + limit - 1 ≤ resume (k + limit - 1) := by
        rcases h.forth (k + limit - 1) with hle | hzero
        · exact hle
        · have hx := List.getElem?_eq_getElem (show 0 < full.length by omega)
          rw [hzero] at hat
          exact absurd (h.listed_first hf hat hx) (hlater _ hx)
      rcases lt_trichotomy (resume (k + limit - 1)) (k + limit) with hlo | heq | hhi
      · -- the last element of the page comes again
        have heq : resume (k + limit - 1) = k + limit - 1 := by omega
        rw [heq] at hat
        have hx : full[k + limit - 1]? = some (full[k + limit - 1]) := List.getElem?_eq_getElem (by omega)
        have hin : full[k + limit - 1] ∈ (full.drop k).take limit := by
          refine List.mem_of_getElem? (i := limit - 1) ?_
          rw [List.getElem?_take_of_lt (by omega), List.getElem?_drop, show k + (limit - 1) = k + limit - 1 by omega, hx]
        exact absurd rfl (hdisjoint _ hin _ (h.listed_first hf hat hx))
      · exact heq
      · -- the element after the page is left out
        rw [List.drop_eq_getElem_cons hmore, List.nodup_cons] at hrest
        have hx : full[k + limit] ∈ full.drop (k + limit) := by
          rw [List.drop_eq_getElem_cons hmore]
          exact List.mem_cons_self ..
        rcases List.mem_append.mp (hall _ (hsplit ▸ List.mem_append_right _ hx)) with hin | hin
        · rw [h.items hk] at hin
          exact absurd rfl (hapart _ hin _ hx)
        · have hlate := h.listed_mem hf hat hlater _ hin
          exact absurd ((List.drop_sublist_drop_left full (show k + limit + 1 ≤ resume (k + limit - 1) by omega)).subset hlate) hrest.1
    rw [hboundary] at hat
    by_cases h1 : i = 1
    · rw [h1, Nat.one_mul, hboundary]
    · have hrest : ∀ x ∈ full.drop (k + limit), x ∈ items := by
        intro x hx
        rcases List.mem_append.mp (hall x (hsplit ▸ List.mem_append_right _ hx)) with hin | hin
        · rw [h.items hk] at hin
          exact absurd rfl (hapart _ hin _ hx)
        · exact hin
      have hmul : i * limit = (i - 1) * limit + limit := by
        obtain ⟨j, rfl⟩ : ∃ j, i = j + 1 := ⟨i - 1, by omega⟩
        rw [Nat.add_mul, Nat.one_mul, Nat.add_sub_cancel]
      have hih := ih hat honce hrest (Or.inr hlater) (i - 1) (by omega) (by omega)
      rwa [show k + limit + (i - 1) * limit = k + i * limit by omega] at hih

/-- Following the markers lists every element exactly once exactly if every page boundary
    resumes at the next position. -/
theorem exact_iff (h : Stretches page full limit resume At) (hnd : full.Nodup) {m : M} (hm : At m 0) :
    (∃ items, Follows page m items ∧ items.Nodup ∧ ∀ x, x ∈ items ↔ x ∈ full) ↔
      ∀ i, 1 ≤ i → i * limit < full.length → resume (i * limit - 1) = i * limit := by
  constructor
  · rintro ⟨items, hf, honce, hall⟩ i hi hlt
    have := h.resumes hnd hf hm honce (fun x hx => (hall x).mpr (List.mem_of_mem_drop hx)) (Or.inl rfl) i hi (by omega)
    rwa [Nat.zero_add] at this
  · intro hnext
    refine ⟨full, ?_, hnd, fun _ => Iff.rfl⟩
    have := h.lists_all hm (fun i hi hlt => by rw [Nat.zero_add] at hlt ⊢; exact hnext i hi hlt)
    rwa [List.drop_zero] at this

end Stretches

end

end S3lite
