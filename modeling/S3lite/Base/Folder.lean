/-
  S3lite.Base.Folder — folders of a file system: files and folders by name, in the order in
  which they are listed.

  - `set` replaces an entry or adds one, `enter` opens a folder that is there or is made, `make`
    makes the folders of a path, `write` puts a file there; `read` finds a file by its path.
  - `read_make`, `read_write`: making folders changes no file, and a write changes one.
  - `find` tells a file that is not there from a path that leads to something else.
  - `Leveled`: all files lie at one depth, where makes and writes always succeed
    (`Leveled.make`, `Leveled.write`) and a file is found or not (`Leveled.find_eq`).
  - `Distinct`: no name is listed twice, on any level; kept by `make` and `write`.
  - `files`: every file with its path, once (`mem_files`, `files_nodup`).
-/
import Mathlib

namespace S3lite

inductive Folder (N D : Type) where
  | empty
  | file (name : N) (data : D) (rest : Folder N D)
  | folder (name : N) (sub rest : Folder N D)

namespace Folder

variable {N D : Type}

/-- A file, or a folder. -/
abbrev Entry (N D : Type) := D ⊕ Folder N D

def cons (name : N) : Entry N D → Folder N D → Folder N D
  | .inl data, rest => .file name data rest
  | .inr sub, rest => .folder name sub rest

def names : Folder N D → List N
  | .empty => []
  | .file name _ rest => name :: rest.names
  | .folder name _ rest => name :: rest.names

variable [DecidableEq N]

def lookup : Folder N D → N → Option (Entry N D)
  | .empty, _ => none
  | .file name data rest, n => if name = n then some (.inl data) else rest.lookup n
  | .folder name sub rest, n => if name = n then some (.inr sub) else rest.lookup n

def set : Folder N D → N → Entry N D → Folder N D
  | .empty, n, e => cons n e .empty
  | .file name data rest, n, e => if name = n then cons n e rest else .file name data (rest.set n e)
  | .folder name sub rest, n, e => if name = n then cons n e rest else .folder name sub (rest.set n e)

/-- The folder of the name, or a new one; none where there is a file. -/
def enter (f : Folder N D) (n : N) : Option (Folder N D) :=
  match f.lookup n with
  | none => some .empty
  | some (.inr sub) => some sub
  | some (.inl _) => none

def read : Folder N D → List N → Option D
  | _, [] => none
  | f, [n] => (f.lookup n).bind Sum.getLeft?
  | f, n :: m :: path => ((f.lookup n).bind Sum.getRight?).bind fun sub => sub.read (m :: path)

/-- What is at a path. -/
inductive Found (D : Type) where
  | file (data : D)
  | nothing
  /-- A folder, or a file in place of one. -/
  | obstructed

def find : Folder N D → List N → Found D
  | _, [] => .obstructed
  | f, n :: path =>
    match f.lookup n with
    | none => .nothing
    | some (.inr sub) => sub.find path
    | some (.inl data) => if path = [] then .file data else .obstructed

/-- Make every folder on the path that is not there. -/
def make : Folder N D → List N → Option (Folder N D)
  | f, [] => some f
  | f, n :: path => (f.enter n).bind fun sub => (sub.make path).map fun sub' => f.set n (.inr sub')

/-- Put a file in its folder, which is made. -/
def write : Folder N D → List N → D → Option (Folder N D)
  | _, [], _ => none
  | f, [n], data =>
    match f.lookup n with
    | some (.inr _) => none
    | _ => some (f.set n (.inl data))
  | f, n :: m :: path, data => (f.enter n).bind fun sub => (sub.write (m :: path) data).map fun sub' => f.set n (.inr sub')

/-! ## Entries -/

section
variable {f : Folder N D} {n m : N} {e : Entry N D}

@[simp] theorem lookup_cons_self (n : N) (e : Entry N D) (f : Folder N D) : (cons n e f).lookup n = some e := by
  cases e <;> simp [cons, lookup]

@[simp] theorem lookup_cons_ne (e : Entry N D) (f : Folder N D) (h : m ≠ n) : (cons n e f).lookup m = f.lookup m := by
  cases e <;> simp [cons, lookup, h.symm]

@[simp] theorem lookup_set_self (f : Folder N D) (n : N) (e : Entry N D) : (f.set n e).lookup n = some e := by
  induction f with
  | empty => simp [set]
  | file name data rest ih =>
    by_cases h : name = n
    · simp [set, h]
    · simp [set, lookup, h, ih]
  | folder name sub rest _ ih =>
    by_cases h : name = n
    · simp [set, h]
    · simp [set, lookup, h, ih]

@[simp] theorem lookup_set_ne (f : Folder N D) (e : Entry N D) (h : m ≠ n) : (f.set n e).lookup m = f.lookup m := by
  induction f with
  | empty => simp [set, h, lookup]
  | file name data rest ih =>
    by_cases hname : name = n
    · simp [set, hname, lookup, h, h.symm]
    · by_cases hm : name = m
      · rw [set, if_neg hname, lookup, lookup, if_pos hm, if_pos hm]
      · rw [set, if_neg hname, lookup, lookup, if_neg hm, if_neg hm, ih]
  | folder name sub rest _ ih =>
    by_cases hname : name = n
    · simp [set, hname, lookup, h, h.symm]
    · by_cases hm : name = m
      · rw [set, if_neg hname, lookup, lookup, if_pos hm, if_pos hm]
      · rw [set, if_neg hname, lookup, lookup, if_neg hm, if_neg hm, ih]

theorem lookup_eq_none_iff : f.lookup n = none ↔ n ∉ f.names := by
  induction f with
  | empty => simp [lookup, names]
  | file name data rest ih =>
    by_cases h : name = n
    · simp [lookup, names, h]
    · simp [lookup, names, h, ih, Ne.symm h]
  | folder name sub rest _ ih =>
    by_cases h : name = n
    · simp [lookup, names, h]
    · simp [lookup, names, h, ih, Ne.symm h]

theorem mem_names_set {x : N} : x ∈ (f.set n e).names ↔ x = n ∨ x ∈ f.names := by
  by_cases hx : x = n
  · subst hx
    refine iff_of_true ?_ (Or.inl rfl)
    by_contra hnot
    rw [← lookup_eq_none_iff, lookup_set_self] at hnot
    cases hnot
  · have hlookup : (f.set n e).lookup x = f.lookup x := lookup_set_ne f e hx
    rw [or_iff_right hx, ← not_iff_not, ← lookup_eq_none_iff, ← lookup_eq_none_iff, hlookup]

end

/-! ## Files by path -/

section
variable {f f' sub : Folder N D} {n : N} {path path' : List N} {data : D}

@[simp] theorem read_empty (path : List N) : (empty : Folder N D).read path = none := by
  cases path with
  | nil => rfl
  | cons n path => cases path <;> rfl

/-- In a folder that is entered there are the files under its name. -/
theorem read_of_enter (h : f.enter n = some sub) (path : List N) : f.read (n :: path) = sub.read path := by
  unfold enter at h
  cases hlookup : f.lookup n with
  | none =>
    rw [hlookup] at h
    cases h
    cases path <;> simp [read, hlookup]
  | some e =>
    rw [hlookup] at h
    cases e with
    | inl data => cases h
    | inr s =>
      cases h
      cases path <;> simp [read, hlookup]

theorem read_set_folder (f sub : Folder N D) (n : N) (path : List N) : (f.set n (.inr sub)).read (n :: path) = sub.read path := by
  cases path <;> simp [read]

theorem read_set_ne (f : Folder N D) {n m : N} (e : Entry N D) (h : m ≠ n) (path : List N) :
    (f.set n e).read (m :: path) = f.read (m :: path) := by
  cases path <;> simp [read, h]

@[simp] theorem read_cons_folder (sub f : Folder N D) (n : N) (path : List N) :
    (cons n (.inr sub) f).read (n :: path) = sub.read path := by
  cases path <;> simp [read]

@[simp] theorem read_cons_file (data : D) (f : Folder N D) (n : N) (path : List N) :
    (cons n (.inl data) f).read (n :: path) = if path = [] then some data else none := by
  cases path <;> simp [read]

@[simp] theorem read_cons_ne (f : Folder N D) {n m : N} (e : Entry N D) (h : m ≠ n) (path : List N) :
    (cons n e f).read (m :: path) = f.read (m :: path) := by
  cases path <;> simp [read, h]

theorem read_of_not_mem (h : n ∉ f.names) (path : List N) : f.read (n :: path) = none := by
  cases path <;> simp [read, lookup_eq_none_iff.mpr h]

theorem read_make (h : f.make path = some f') (path' : List N) : f'.read path' = f.read path' := by
  induction path generalizing f f' path' with
  | nil =>
    cases h
    rfl
  | cons n path ih =>
    obtain ⟨sub, henter, h⟩ := Option.bind_eq_some_iff.mp h
    obtain ⟨sub', hmake, rfl⟩ := Option.map_eq_some_iff.mp h
    cases path' with
    | nil => rfl
    | cons m path' =>
      by_cases hm : m = n
      · rw [hm, read_set_folder, ih hmake, read_of_enter henter]
      · exact read_set_ne f _ hm path'

theorem read_write (h : f.write path data = some f') (path' : List N) :
    f'.read path' = if path' = path then some data else f.read path' := by
  induction path generalizing f f' path' with
  | nil => cases h
  | cons n path ih =>
    cases path' with
    | nil => rw [if_neg (List.cons_ne_nil _ _).symm]; rfl
    | cons m path' =>
      cases path with
      | nil =>
        have hset : (∀ s, f.lookup n ≠ some (.inr s)) ∧ f.set n (.inl data) = f' := by
          unfold write at h
          split at h
          · cases h
          · rename_i hne
            cases h
            exact ⟨hne, rfl⟩
        obtain ⟨hfile, rfl⟩ := hset
        by_cases hm : m = n
        · subst hm
          cases path' with
          | nil => simp [read]
          | cons k path' =>
            -- a file has no files under it, and there was no folder
            cases hlookup : f.lookup m with
            | none => simp [read, hlookup]
            | some e =>
              cases e with
              | inl _ => simp [read, hlookup]
              | inr s => exact absurd hlookup (hfile s)
        · rw [read_set_ne f _ hm, if_neg fun e => hm (List.cons.inj e).1]
      | cons k path =>
        obtain ⟨sub, henter, h⟩ := Option.bind_eq_some_iff.mp h
        obtain ⟨sub', hwrite, rfl⟩ := Option.map_eq_some_iff.mp h
        by_cases hm : m = n
        · rw [hm, read_set_folder, ih hwrite, read_of_enter henter]
          simp
        · rw [read_set_ne f _ hm, if_neg fun e => hm (List.cons.inj e).1]

end

/-! ## Files at one depth -/

/-- Every file lies below this many folders, and nothing else does. -/
def Leveled : Nat → Folder N D → Prop
  | 0, f => ∀ n e, f.lookup n = some e → ∃ data, e = .inl data
  | k + 1, f => ∀ n e, f.lookup n = some e → ∃ sub, e = .inr sub ∧ Leveled k sub

section
variable {f f' : Folder N D} {k : Nat} {n : N} {path : List N}

theorem Leveled.empty (k : Nat) : Leveled k (Folder.empty : Folder N D) := by
  cases k with
  | zero => exact fun _ _ h => by cases h
  | succ k => exact fun _ _ h => by cases h

theorem Leveled.set_folder (h : Leveled (k + 1) f) {sub : Folder N D} (hsub : Leveled k sub) (n : N) :
    Leveled (k + 1) (f.set n (.inr sub)) := by
  intro m e he
  by_cases hm : m = n
  · rw [hm, lookup_set_self] at he
    cases he
    exact ⟨sub, rfl, hsub⟩
  · rw [lookup_set_ne f _ hm] at he
    exact h m e he

theorem Leveled.head {e : Entry N D} (h : Leveled k (cons n e f)) :
    match k, e with
    | 0, .inl _ => True
    | k + 1, .inr sub => Leveled k sub
    | _, _ => False := by
  have hlookup := lookup_cons_self n e f
  cases k with
  | zero =>
    obtain ⟨data, rfl⟩ := h n e hlookup
    trivial
  | succ k =>
    obtain ⟨sub, rfl, hsub⟩ := h n e hlookup
    exact hsub

theorem Leveled.tail {e : Entry N D} (h : Leveled k (cons n e f)) (hn : n ∉ f.names) : Leveled k f := by
  have hlookup : ∀ m e', f.lookup m = some e' → (cons n e f).lookup m = some e' := by
    intro m e' he
    have hm : m ≠ n := by
      intro hm
      rw [hm, lookup_eq_none_iff.mpr hn] at he
      cases he
    rw [lookup_cons_ne e f hm]
    exact he
  cases k with
  | zero => exact fun m e' he => h m e' (hlookup m e' he)
  | succ k => exact fun m e' he => h m e' (hlookup m e' he)

theorem Leveled.enters (h : Leveled (k + 1) f) (n : N) : ∃ sub, f.enter n = some sub ∧ Leveled k sub := by
  unfold Folder.enter
  cases hlookup : f.lookup n with
  | none => exact ⟨.empty, rfl, .empty k⟩
  | some e =>
    obtain ⟨sub, rfl, hsub⟩ := h n e hlookup
    exact ⟨sub, rfl, hsub⟩

theorem Leveled.make (h : Leveled k f) (hlen : path.length = k) : ∃ f', f.make path = some f' ∧ Leveled k f' := by
  induction path generalizing f k with
  | nil => exact ⟨f, rfl, h⟩
  | cons n path ih =>
    subst hlen
    obtain ⟨sub, henter, hsub⟩ := h.enters n
    obtain ⟨sub', hmake, hsub'⟩ := ih hsub rfl
    refine ⟨f.set n (.inr sub'), ?_, h.set_folder hsub' n⟩
    rw [Folder.make, henter, Option.bind_some, hmake, Option.map_some]

theorem Leveled.write (h : Leveled k f) (hlen : path.length = k + 1) (data : D) :
    ∃ f', f.write path data = some f' ∧ Leveled k f' := by
  induction path generalizing f k with
  | nil => cases hlen
  | cons n path ih =>
    cases path with
    | nil =>
      cases hlen
      refine ⟨f.set n (.inl data), ?_, fun m e he => ?_⟩
      · unfold Folder.write
        split
        · rename_i s hs
          obtain ⟨d, hd⟩ := h n _ hs
          cases hd
        · rfl
      · by_cases hm : m = n
        · rw [hm, lookup_set_self] at he
          cases he
          exact ⟨data, rfl⟩
        · rw [lookup_set_ne f _ hm] at he
          exact h m e he
    | cons p path =>
      rw [List.length_cons] at hlen
      obtain rfl := Nat.succ.inj hlen
      obtain ⟨sub, henter, hsub⟩ := h.enters n
      obtain ⟨sub', hwrite, hsub'⟩ := ih hsub rfl
      refine ⟨f.set n (.inr sub'), ?_, h.set_folder hsub' n⟩
      rw [Folder.write, henter, Option.bind_some, hwrite, Option.map_some]

theorem Leveled.find_eq (h : Leveled k f) (hlen : path.length = k + 1) :
    f.find path = (f.read path).elim .nothing .file := by
  induction path generalizing f k with
  | nil => cases hlen
  | cons n path ih =>
    unfold Folder.find
    cases hlookup : f.lookup n with
    | none => cases path <;> simp [read, hlookup]
    | some e =>
      cases path with
      | nil =>
        cases hlen
        obtain ⟨data, rfl⟩ := h n e hlookup
        simp [read, hlookup]
      | cons m path =>
        rw [List.length_cons] at hlen
        obtain rfl := Nat.succ.inj hlen
        obtain ⟨sub, rfl, hsub⟩ := h n e hlookup
        simpa [read, hlookup] using ih hsub rfl

theorem Leveled.length (h : Leveled k f) {data : D} (hread : f.read path = some data) : path.length = k + 1 := by
  induction path generalizing f k with
  | nil => cases hread
  | cons n path ih =>
    cases path with
    | nil =>
      cases k with
      | zero => rfl
      | succ k =>
        obtain ⟨e, he, hdata⟩ := Option.bind_eq_some_iff.mp hread
        obtain ⟨sub, rfl, -⟩ := h n e he
        cases hdata
    | cons m path =>
      obtain ⟨sub, hsub, hdata⟩ := Option.bind_eq_some_iff.mp hread
      obtain ⟨e, he, hinr⟩ := Option.bind_eq_some_iff.mp hsub
      cases k with
      | zero =>
        obtain ⟨_, rfl⟩ := h n e he
        cases hinr
      | succ k =>
        obtain ⟨_, rfl, hlevel⟩ := h n e he
        cases hinr
        rw [List.length_cons, ih hlevel hdata]

end

/-! ## Names listed once -/

def Distinct : Folder N D → Prop
  | .empty => True
  | .file name _ rest => name ∉ rest.names ∧ rest.Distinct
  | .folder name sub rest => name ∉ rest.names ∧ sub.Distinct ∧ rest.Distinct

/-- The folder is distinct itself, if it is one. -/
def Entry.Distinct : Entry N D → Prop
  | .inl _ => True
  | .inr sub => sub.Distinct

section
variable {f f' : Folder N D} {n : N} {e : Entry N D} {path : List N} {data : D}

omit [DecidableEq N] in
theorem distinct_cons (hn : n ∉ f.names) (he : Entry.Distinct e) (hf : f.Distinct) : (cons n e f).Distinct := by
  cases e with
  | inl data => exact ⟨hn, hf⟩
  | inr sub => exact ⟨hn, he, hf⟩

theorem Distinct.set (h : f.Distinct) (he : Entry.Distinct e) (n : N) : (f.set n e).Distinct := by
  induction f with
  | empty => exact distinct_cons List.not_mem_nil he trivial
  | file name data rest ih =>
    obtain ⟨hname, hrest⟩ := h
    rw [Folder.set]
    split
    · rename_i heq
      exact distinct_cons (heq ▸ hname) he hrest
    · rename_i hne
      refine ⟨fun hm => ?_, ih hrest⟩
      exact (mem_names_set.mp hm).elim hne hname
  | folder name sub rest _ ih =>
    obtain ⟨hname, hsub, hrest⟩ := h
    rw [Folder.set]
    split
    · rename_i heq
      exact distinct_cons (heq ▸ hname) he hrest
    · rename_i hne
      refine ⟨fun hm => ?_, hsub, ih hrest⟩
      exact (mem_names_set.mp hm).elim hne hname

theorem Distinct.lookup (h : f.Distinct) (he : f.lookup n = some e) : Entry.Distinct e := by
  induction f with
  | empty => cases he
  | file name data rest ih =>
    rw [Folder.lookup] at he
    split at he
    · cases he
      trivial
    · exact ih h.2 he
  | folder name sub rest _ ih =>
    rw [Folder.lookup] at he
    split at he
    · cases he
      exact h.2.1
    · exact ih h.2.2 he

theorem Distinct.enters (h : f.Distinct) {sub : Folder N D} (ho : f.enter n = some sub) : sub.Distinct := by
  unfold Folder.enter at ho
  cases hlookup : f.lookup n with
  | none =>
    rw [hlookup] at ho
    cases ho
    trivial
  | some e =>
    rw [hlookup] at ho
    cases e with
    | inl data => cases ho
    | inr s =>
      cases ho
      exact h.lookup hlookup

theorem Distinct.make (h : f.Distinct) (hm : f.make path = some f') : f'.Distinct := by
  induction path generalizing f f' with
  | nil =>
    cases hm
    exact h
  | cons n path ih =>
    obtain ⟨sub, henter, hm⟩ := Option.bind_eq_some_iff.mp hm
    obtain ⟨sub', hmake, rfl⟩ := Option.map_eq_some_iff.mp hm
    exact h.set (e := .inr sub') (ih (h.enters henter) hmake) n

theorem Distinct.write (h : f.Distinct) (hw : f.write path data = some f') : f'.Distinct := by
  induction path generalizing f f' with
  | nil => cases hw
  | cons n path ih =>
    cases path with
    | nil =>
      unfold Folder.write at hw
      split at hw
      · cases hw
      · cases hw
        exact h.set (e := .inl data) trivial n
    | cons p path =>
      obtain ⟨sub, henter, hw⟩ := Option.bind_eq_some_iff.mp hw
      obtain ⟨sub', hwrite, rfl⟩ := Option.map_eq_some_iff.mp hw
      exact h.set (e := .inr sub') (ih (h.enters henter) hwrite) n

end

/-! ## All files -/

/-- The files with their paths, as they are listed. -/
def files : Folder N D → List (List N × D)
  | .empty => []
  | .file name data rest => ([name], data) :: rest.files
  | .folder name sub rest => sub.files.map (fun r => (name :: r.1, r.2)) ++ rest.files

section
variable {f : Folder N D} {n : N} {path : List N} {data : D}

omit [DecidableEq N] in
theorem head_of_mem_files (h : (path, data) ∈ f.files) : ∃ n ∈ f.names, ∃ path', path = n :: path' := by
  induction f with
  | empty => cases h
  | file name d rest ih =>
    rcases List.mem_cons.mp h with h | h
    · cases h
      exact ⟨name, List.mem_cons_self .., [], rfl⟩
    · obtain ⟨n, hn, path', rfl⟩ := ih h
      exact ⟨n, List.mem_cons_of_mem _ hn, path', rfl⟩
  | folder name sub rest _ ih =>
    rcases List.mem_append.mp h with h | h
    · obtain ⟨r, -, hr⟩ := List.mem_map.mp h
      cases hr
      exact ⟨name, List.mem_cons_self .., r.1, rfl⟩
    · obtain ⟨n, hn, path', rfl⟩ := ih h
      exact ⟨n, List.mem_cons_of_mem _ hn, path', rfl⟩

theorem mem_files (h : f.Distinct) : (path, data) ∈ f.files ↔ f.read path = some data := by
  induction f generalizing path with
  | empty => simp [files]
  | file name d rest ih =>
    obtain ⟨hname, hrest⟩ := h
    rw [files, List.mem_cons, ih hrest]
    cases path with
    | nil => simp [read]
    | cons n path =>
      by_cases hn : n = name
      · subst hn
        rw [read_of_not_mem hname]
        have hread : (file n d rest).read (n :: path) = if path = [] then some d else none := read_cons_file d rest n path
        rw [hread]
        by_cases hp : path = []
        · simp [hp, eq_comm]
        · simp [hp]
      · have hread : (file name d rest).read (n :: path) = rest.read (n :: path) := read_cons_ne rest (.inl d) hn path
        rw [hread]
        simp [hn]
  | folder name sub rest ihsub ih =>
    obtain ⟨hname, hsub, hrest⟩ := h
    rw [files, List.mem_append, ih hrest, List.mem_map]
    cases path with
    | nil => simp [read]
    | cons n path =>
      by_cases hn : n = name
      · subst hn
        rw [read_of_not_mem hname]
        have hread : (folder n sub rest).read (n :: path) = sub.read path := read_cons_folder sub rest n path
        rw [hread, ← ihsub hsub]
        constructor
        · intro h
          rcases h with ⟨r, hr, he⟩ | h
          · cases he
            exact hr
          · cases h
        · exact fun h => Or.inl ⟨_, h, rfl⟩
      · have hread : (folder name sub rest).read (n :: path) = rest.read (n :: path) := read_cons_ne rest (.inr sub) hn path
        rw [hread, or_iff_right]
        intro h
        obtain ⟨r, -, he⟩ := h
        cases he
        exact hn rfl

omit [DecidableEq N] in
theorem files_nodup (h : f.Distinct) : (f.files.map (·.1)).Nodup := by
  induction f with
  | empty => exact List.nodup_nil
  | file name d rest ih =>
    obtain ⟨hname, hrest⟩ := h
    rw [files, List.map_cons, List.nodup_cons]
    refine ⟨fun hmem => ?_, ih hrest⟩
    obtain ⟨r, hr, he⟩ := List.mem_map.mp hmem
    obtain ⟨n, hn, path', hp⟩ := head_of_mem_files (show (r.1, r.2) ∈ _ from hr)
    rw [he] at hp
    cases hp
    exact hname hn
  | folder name sub rest ihsub ih =>
    obtain ⟨hname, hsub, hrest⟩ := h
    rw [files, List.map_append, List.map_map, List.nodup_append]
    refine ⟨?_, ih hrest, fun p hp q hq e => ?_⟩
    · have hcons : (sub.files.map (·.1)).map (name :: ·) = sub.files.map ((·.1) ∘ fun r => (name :: r.1, r.2)) := by
        rw [List.map_map]
        rfl
      rw [← hcons]
      exact (ihsub hsub).map fun _ _ e => (List.cons.inj e).2
    · subst e
      obtain ⟨r, hr, he⟩ := List.mem_map.mp hq
      obtain ⟨n, hn, path', hpath⟩ := head_of_mem_files (show (r.1, r.2) ∈ _ from hr)
      obtain ⟨r', -, he'⟩ := List.mem_map.mp hp
      rw [he, ← he'] at hpath
      cases hpath
      exact hname hn

end

end Folder

end S3lite
