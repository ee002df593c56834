/-
  S3lite.Access.Tags — the tags of a PUT, in its `x-amz-tagging` header.

  `tags_restored`: a tag map whose keys are not empty, written into the header in any order and
  in any of the ways the form encoding allows, is read back as it was.
-/
import S3lite.Access.Naming
import S3lite.Base.Form

namespace S3lite

/-- A tag and its text in the header. -/
def WritesTag (tag : Str × Str) (pair : Str) : Prop :=
  ∃ k v, FormText tag.1 k ∧ FormText tag.2 v ∧ pair = pairText 61 (k, v)

/-- The map as the header's text: its tags in some order, each with its text, joined by `&`. -/
def WritesTags (tags : Table Str Str) (raw : Str) : Prop :=
  ∃ written : List ((Str × Str) × Str), (written.map (·.1)).Perm tags.rows ∧ (∀ x ∈ written, WritesTag x.1 x.2) ∧
    raw = [38].intercalate (written.map (·.2))

/-- What a tag may be. -/
structure TagText (tag : Str × Str) : Prop where
  key_ne : tag.1 ≠ []
  key : IsUtf8 tag.1
  value : IsUtf8 tag.2

/-! ## One tag -/

theorem decode_form {s e : Str} (hs : IsUtf8 s) (h : FormText s e) : percentDecode true e = s := by
  obtain ⟨cs, rfl⟩ := hs
  rw [percentDecode, percentBytes_form h, fromUtf8Lossy_utf8]

theorem WritesTag.visible {tag : Str × Str} {pair : Str} (h : WritesTag tag pair) {c : UInt8} (hc : c ∈ pair) :
    32 ≤ c ∧ c < 127 ∧ c ≠ 38 := by
  obtain ⟨k, v, hk, hv, rfl⟩ := h
  rcases List.mem_append.mp hc with hc | hc
  · obtain ⟨h1, h2, h3, -⟩ := hk.visible hc
    exact ⟨h1.le, h2, h3⟩
  rcases List.mem_cons.mp hc with rfl | hc
  · decide
  · obtain ⟨h1, h2, h3, -⟩ := hv.visible hc
    exact ⟨h1.le, h2, h3⟩

theorem WritesTag.ne_nil {tag : Str × Str} {pair : Str} (h : WritesTag tag pair) : pair ≠ [] := by
  obtain ⟨k, v, -, -, rfl⟩ := h
  simp [pairText]

theorem addTag_writes {tag : Str × Str} {pair : Str} (htag : TagText tag) (h : WritesTag tag pair) (out : Table Str Str) :
    addTag out pair = out.insert tag.1 tag.2 := by
  obtain ⟨k, v, hk, hv, rfl⟩ := h
  have hsep : (61 : UInt8) ∉ k := fun hc => (hk.visible hc).2.2.2 rfl
  have hsplit : splitOnce 61 (pairText 61 (k, v)) = some (k, v) := splitOnce_append hsep
  have hkey : percentDecode true k = tag.1 := decode_form htag.key hk
  have hvalue : percentDecode true v = tag.2 := decode_form htag.value hv
  rw [addTag, hsplit]
  simp [hkey, hvalue, htag.key_ne]

/-! ## The header -/

theorem foldl_addTag {written : List ((Str × Str) × Str)} (h : ∀ x ∈ written, TagText x.1 ∧ WritesTag x.1 x.2)
    (out : Table Str Str) :
    (written.map (·.2)).foldl addTag out = (written.map (·.1)).foldl (fun t r => t.insert r.1 r.2) out := by
  induction written generalizing out with
  | nil => rfl
  | cons x written ih =>
    obtain ⟨htag, hwrites⟩ := h x (List.mem_cons_self ..)
    rw [List.map_cons, List.map_cons, List.foldl_cons, List.foldl_cons, addTag_writes htag hwrites]
    exact ih (fun y hy => h y (List.mem_cons_of_mem _ hy)) _

theorem tags_restored {tags : Table Str Str} (htags : ∀ tag ∈ tags.rows, TagText tag) {raw : Str}
    (hraw : WritesTags tags raw) {headers : HeaderMap} (hget : headers.get (str "x-amz-tagging") = some raw) :
    parseXAmzTagging headers = .ok tags := by
  obtain ⟨written, hperm, hwrites, rfl⟩ := hraw
  have hboth : ∀ x ∈ written, TagText x.1 ∧ WritesTag x.1 x.2 :=
    fun x hx => ⟨htags x.1 (hperm.mem_iff.mp (List.mem_map_of_mem hx)), hwrites x hx⟩
  have hpiece : ∀ pair ∈ written.map (·.2), ∀ c ∈ pair, 32 ≤ c ∧ c < 127 ∧ c ≠ 38 := by
    intro pair hp c hc
    obtain ⟨x, hx, rfl⟩ := List.mem_map.mp hp
    exact (hwrites x hx).visible hc
  have htext : toStr ([38].intercalate (written.map (·.2))) = some ([38].intercalate (written.map (·.2))) := by
    apply toStr_of_visible
    intro c hc
    rcases mem_intercalate hc with hc | ⟨pair, hp, hc⟩
    · rw [List.mem_singleton.mp hc]
      decide
    · exact ⟨(hpiece pair hp c hc).1, (hpiece pair hp c hc).2.1⟩
  have hmap : (written.map (·.1)).foldl (fun t r => t.insert r.1 r.2) (Table.empty : Table Str Str) = tags :=
    Table.foldl_insert_perm hperm
  unfold parseXAmzTagging
  rw [hget]
  dsimp only
  rw [htext]
  dsimp only
  by_cases hnil : written = []
  · subst hnil
    exact congrArg Except.ok hmap
  · have hsplit : splitByte 38 ([38].intercalate (written.map (·.2))) = written.map (·.2) :=
      splitByte_intercalate (by simpa using hnil) fun pair hp hc => (hpiece pair hp 38 hc).2.2 rfl
    have hne : [38].intercalate (written.map (·.2)) ≠ [] := by
      intro e
      have hempty : [] ∈ written.map (·.2) := by
        rw [← hsplit, e]
        exact List.mem_singleton_self []
      obtain ⟨x, hx, hpair⟩ := List.mem_map.mp hempty
      exact (hwrites x hx).ne_nil hpair
    rw [hsplit, foldl_addTag hboth, hmap]
    simp [hne]

/-- A tag with a space and a percent sign, and one without a value. -/
def discountTags : Table Str Str := (Table.empty.insert (str "a b") (str "5%")).insert (str "k") []

def discountHeader : Str := str "k=&a+b=5%25"

theorem discountHeader_writes : WritesTags discountTags discountHeader := by
  refine ⟨[((str "k", []), str "k="), ((str "a b", str "5%"), str "a+b=5%25")], by decide, ?_, by decide⟩
  have hk : FormText (str "k") (str "k") := .plain (by decide) .nil
  have hab : FormText (str "a b") (str "a+b") := .plain (by decide) (.space (.plain (by decide) .nil))
  have hpercent : FormText (str "5%") (str "5%25") :=
    .plain (by decide) (.escaped (Or.inl (by decide)) (Or.inl (by decide)) .nil)
  intro x hx
  rcases List.mem_cons.mp hx with rfl | hx
  · exact ⟨str "k", [], hk, .nil, by decide⟩
  · rw [List.mem_singleton.mp hx]
    exact ⟨str "a+b", str "5%25", hab, hpercent, by decide⟩

theorem tags_restored_discount : parseXAmzTagging [(str "x-amz-tagging", discountHeader)] = .ok discountTags := by
  refine tags_restored (fun tag ht => ?_) discountHeader_writes rfl
  have hrows : ∀ tag ∈ discountTags.rows, tag.1 ≠ [] ∧ (∀ b ∈ tag.1, b < 0x80) ∧ ∀ b ∈ tag.2, b < 0x80 := by decide
  obtain ⟨hne, hkey, hvalue⟩ := hrows tag ht
  exact ⟨hne, isUtf8_of_ascii hkey, isUtf8_of_ascii hvalue⟩

end S3lite
