import Mathlib.Data.List.Basic
import MicroJava.CommandLine.Files

/-!
# What is kept in files

Access to files is lawful (`FileAccess.Lawful`) if looking changes nothing, what was written is read back,
only a path that ends in the name of a file can be written, and the other files next to it are left alone.
The files of a `Directory` are accessed in a lawful way (`Directory.lawful_access`).

A path with another extension leads to a file next to the one that the path itself leads to
(`Path.names_withExtension`).
-/

namespace MicroJava.CommandLine

/-! ### Paths and their last names -/

namespace Path

/-- The names that stand for the directory itself and the one above it, or for nothing. -/
def dots : List String := ["", ".", ".."]

/-- What stands before the last name of a path: nothing, or something that ends in a slash. -/
def IsFront (front : List Char) : Prop :=
  front = [] ∨ ∃ path, front = path ++ ['/']

theorem exists_front (path : List Char) :
    ∃ front name, IsFront front ∧ '/' ∉ name ∧ path = front ++ name := by
  induction path with
  | nil => exact ⟨[], [], .inl rfl, List.not_mem_nil, rfl⟩
  | cons c path ih =>
      obtain ⟨front, name, hfront, hname, rfl⟩ := ih
      rcases hfront with rfl | ⟨path, rfl⟩
      · by_cases hc : c = '/'
        · subst hc
          exact ⟨['/'], name, .inr ⟨[], rfl⟩, hname, rfl⟩
        · refine ⟨[], c :: name, .inl rfl, fun hmem => ?_, rfl⟩
          exact (List.mem_cons.1 hmem).elim (fun heq => hc heq.symm) hname
      · exact ⟨c :: path ++ ['/'], name, .inr ⟨c :: path, rfl⟩, hname, rfl⟩

section Front

variable {front name : List Char}

theorem splitOn_front (hfront : IsFront front) :
    ∃ before, ∀ name, '/' ∉ name → (front ++ name).splitOn '/' = before ++ [name] := by
  rcases hfront with rfl | ⟨path, rfl⟩
  · exact ⟨[], fun name hname => List.splitOn_eq_singleton hname⟩
  · refine ⟨path.splitOn '/', fun name hname => ?_⟩
    rw [List.append_assoc, List.singleton_append, List.splitOn_append_cons_self,
      List.splitOn_eq_singleton hname]

theorem takeWhile_reverse_front (hfront : IsFront front) (hname : '/' ∉ name) :
    (front ++ name).reverse.takeWhile (· ≠ '/') = name.reverse ∧
      (front ++ name).reverse.dropWhile (· ≠ '/') = front.reverse := by
  have hall : ∀ c ∈ name.reverse, decide (c ≠ '/') = true := fun c hc =>
    decide_eq_true fun heq => hname (heq ▸ List.mem_reverse.1 hc)
  rw [List.reverse_append, List.takeWhile_append_of_pos hall, List.dropWhile_append_of_pos hall]
  rcases hfront with rfl | ⟨path, rfl⟩
  · exact ⟨List.append_nil _, rfl⟩
  · rw [List.reverse_append]
    exact ⟨List.append_nil _, rfl⟩

theorem trim_eq_self {cs : List Char} (hslash : ∀ rest, cs ≠ '/' :: rest)
    (hdot : ∀ rest, cs ≠ '.' :: '/' :: rest) : splitName?.trim cs = cs := by
  rw [splitName?.trim.eq_3 cs hslash hdot]

/-- Nothing is dropped from the end of a path that ends in a name. -/
theorem trim_front (hname : '/' ∉ name) (hnil : name ≠ []) (hdot : name ≠ ['.']) :
    splitName?.trim (front ++ name).reverse = (front ++ name).reverse := by
  obtain ⟨before, c, rfl⟩ := (List.eq_nil_or_concat' name).resolve_left hnil
  have hreverse : (front ++ (before ++ [c])).reverse = c :: (before.reverse ++ front.reverse) := by simp
  rw [hreverse]
  refine trim_eq_self (fun rest heq => hname ?_) fun rest heq => ?_
  · rw [(List.cons.inj heq).1]
    exact List.mem_append_right _ List.mem_cons_self
  · obtain ⟨rfl, hrest⟩ := List.cons.inj heq
    have hbefore : before.reverse ≠ [] := fun hnone => hdot (by rw [List.reverse_eq_nil_iff.1 hnone]; rfl)
    obtain ⟨d, ds, hd⟩ := List.exists_cons_of_ne_nil hbefore
    rw [hd] at hrest
    obtain ⟨rfl, -⟩ := List.cons.inj hrest
    have hmem : '/' ∈ before := List.mem_reverse.1 (hd ▸ List.mem_cons_self)
    exact hname (List.mem_append_left _ hmem)

theorem splitName?_front (hfront : IsFront front) (hname : '/' ∉ name) (hnil : name ≠ [])
    (hdot : name ≠ ['.']) :
    splitName? (front ++ name) = if name = ['.', '.'] then none else some (front, name) := by
  obtain ⟨htake, hdrop⟩ := takeWhile_reverse_front hfront hname
  rw [splitName?, trim_front hname hnil hdot, htake, hdrop, List.reverse_reverse, List.reverse_reverse]
  simp [hnil, hdot]

/-- The extension is what follows a dot that does not begin the name. -/
theorem eq_of_splitExtension? {stem ext : List Char} (h : splitExtension? name = some (stem, ext)) :
    name = stem ++ '.' :: ext ∧ stem ≠ [] := by
  rw [splitExtension?] at h
  split at h
  · next stem' hdrop =>
      split at h
      · cases h
      · next hstem =>
          obtain ⟨rfl, rfl⟩ := Prod.mk.inj (Option.some.inj h)
          have hreverse : name.reverse = name.reverse.takeWhile (· ≠ '.') ++ '.' :: stem' := by
            rw [← hdrop, List.takeWhile_append_dropWhile]
          refine ⟨?_, mt List.reverse_eq_nil_iff.1 hstem⟩
          rw [← List.reverse_inj, List.reverse_append, List.reverse_cons, List.reverse_reverse,
            List.reverse_reverse, List.append_assoc, List.singleton_append]
          exact hreverse
  · cases h

/-- Taking off the extension changes no more than the name. -/
theorem dropExtension_front (hfront : IsFront front) (hname : '/' ∉ name) (hnil : name ≠ [])
    (hdot : name ≠ ['.']) : ∃ name', dropExtension (front ++ name) = front ++ name' ∧ '/' ∉ name' ∧
      name' ≠ [] ∧ name' ≠ ['.'] := by
  rw [dropExtension, splitName?_front hfront hname hnil hdot]
  split
  · next stem ext heq =>
      split at heq
      · cases heq
      · obtain ⟨rfl, hstem⟩ := eq_of_splitExtension? heq
        have hslash : '/' ∉ stem := fun hmem => hname (List.mem_append_left _ hmem)
        refine ⟨stem ++ ['.'], ?_, by simpa using hslash, by simp, by simpa using hstem⟩
        have hpath : front ++ (stem ++ '.' :: ext) = front ++ (stem ++ ['.']) ++ ext := by simp
        rw [hpath, List.length_append, Nat.add_sub_cancel, List.take_left]
  · exact ⟨name, rfl, hname, hnil, hdot⟩

/-- Another extension changes no more than the name. -/
theorem setExtension_front (hfront : IsFront front) (hname : '/' ∉ name) (hnil : name ≠ [])
    (hdot : name ≠ ['.']) {ext : List Char} (hext : '/' ∉ ext) :
    ∃ name', setExtension (front ++ name) ext = front ++ name' ∧ '/' ∉ name' := by
  rw [setExtension, splitName?_front hfront hname hnil hdot]
  split
  · exact ⟨name, rfl, hname⟩
  · next heq =>
      split at heq
      · cases heq
      · obtain ⟨rfl, rfl⟩ := Prod.mk.inj (Option.some.inj heq)
        refine ⟨_, List.append_assoc .., fun hmem => ?_⟩
        rcases List.mem_append.1 hmem with hmem | hmem
        · cases hsplit : splitExtension? name with
          | none =>
              rw [hsplit] at hmem
              exact hname hmem
          | some parts =>
              obtain ⟨stem, ext'⟩ := parts
              rw [hsplit] at hmem
              obtain ⟨rfl, -⟩ := eq_of_splitExtension? hsplit
              exact hname (List.mem_append_left _ hmem)
        · exact (List.mem_cons.1 hmem).elim (by decide) hext

end Front

theorem names_ne_nil (path : String) : names path ≠ [] :=
  mt List.map_eq_nil_iff.1 (List.splitOn_ne_nil '/' path.toList)

theorem ne_empty_of_names {path name : String} {before : List String}
    (h : names path = before ++ [name]) (hname : name ∉ dots) : path ≠ "" := by
  rintro rfl
  have hempty : names "" = [] ++ [""] := rfl
  obtain ⟨-, hlast⟩ := List.append_inj' (hempty.symm.trans h) rfl
  exact hname ((List.cons.inj hlast).1 ▸ List.mem_cons_self)

/-- A path is known from its names. -/
theorem names_injective : Function.Injective names := by
  intro path path' h
  have hsplit := List.map_injective_iff.2 (fun _ _ => String.ofList_injective) h
  refine String.toList_injective ?_
  calc path.toList = ['/'].intercalate (path.toList.splitOn '/') := (List.intercalate_splitOn '/').symm
    _ = ['/'].intercalate (path'.toList.splitOn '/') := by rw [hsplit]
    _ = path'.toList := List.intercalate_splitOn '/'

/-- With another extension, only the last name of a path is another one. -/
theorem names_withExtension {path extension : String} {before : List String} {name : String}
    (h : names path = before ++ [name]) (hname : name ∉ dots) (hext : '/' ∉ extension.toList) :
    ∃ name', names (withExtension path extension) = before ++ [name'] ∧
      (withExtension path extension ≠ path → name' ≠ name) := by
  obtain ⟨front, last, hfront, hlast, hpath⟩ := exists_front path.toList
  obtain ⟨before', hsplit⟩ := splitOn_front hfront
  have hnames : ∀ name, '/' ∉ name → ∀ path : String, path.toList = front ++ name →
      names path = before'.map String.ofList ++ [String.ofList name] := by
    intro name hname path hpath
    rw [names, hpath, hsplit name hname, List.map_append]
    rfl
  obtain ⟨rfl, hname'⟩ := List.append_inj' ((hnames last hlast path hpath).symm.trans h) rfl
  obtain rfl := (List.cons.inj hname').1
  have hnil : last ≠ [] := fun hnil => hname (by rw [hnil]; decide)
  have hdot : last ≠ ['.'] := fun hdot => hname (by rw [hdot]; decide)
  obtain ⟨dropped, hdrop, hdropped, hnil', hdot'⟩ := dropExtension_front hfront hlast hnil hdot
  obtain ⟨name', hset, hname'⟩ := setExtension_front hfront hdropped hnil' hdot' hext
  have hwith : names (withExtension path extension) =
      before'.map String.ofList ++ [String.ofList name'] := by
    refine hnames name' hname' _ ?_
    rw [withExtension, String.toList_ofList, hpath, hdrop, hset]
  refine ⟨String.ofList name', hwith, fun hne heq => hne (names_injective ?_)⟩
  rw [hwith, h, heq]

end Path

/-! ### Lawful access -/

/-- Access to files that can be relied upon. Looking changes nothing. What was written is read back, only
what has a name can be written, and the other files of the same directory are left as they are. -/
structure FileAccess.Lawful {σ : Type} (files : FileAccess (StateM σ)) : Prop where
  read_keeps (path : String) (s : σ) : (files.read path s).2 = s
  isThere_keeps (path : String) (s : σ) : (files.isThere path s).2 = s
  isThere_of_read {path : String} {content : Bytes} {s : σ} (h : (files.read path s).1 = .ok content) :
    (files.isThere path s).1 = true
  read_back {path : String} {content : Bytes} {s : σ} (h : (files.write path content s).1 = .ok ()) :
    (files.read path (files.write path content s).2).1 = .ok content
  named {path : String} {content : Bytes} {s : σ} (h : (files.write path content s).1 = .ok ()) :
    ∃ before name, Path.names path = before ++ [name] ∧ name ∉ Path.dots
  beside {path other : String} {before : List String} {name name' : String} {old : Bytes} {s : σ}
    (hpath : Path.names path = before ++ [name]) (hother : Path.names other = before ++ [name'])
    (hne : name' ≠ name) (hread : (files.read path s).1 = .ok old) (content : Bytes) :
    (files.read path (files.write other content s).2).1 = .ok old

namespace Directory

variable {d d' : Directory} {inner before : List String} {name other file : String}

/-- The names that lead to the directory which is reached from another one. -/
def back : List String → List String → List String
  | inner, [] => inner
  | inner, name :: names =>
    if name = "" ∨ name = "." then back inner names
    else if name = ".." then back inner.tail names
    else back (name :: inner) names

/-- A file is in the directory that is reached by the names before its own. -/
theorem follow_concat (h : d.follow inner (before ++ [name]) = .ok (.file file)) :
    name ∉ Path.dots ∧ file = joined (name :: back inner before) := by
  induction before generalizing inner with
  | nil =>
      rw [List.nil_append, follow] at h
      split at h
      · cases h
      next hdot =>
        split at h
        · split at h <;> cases h
        next hback =>
          have hname : name ∉ Path.dots := by simp_all [Path.dots]
          refine ⟨hname, ?_⟩
          dsimp only at h
          split at h
          · exact (Place.file.inj (Except.ok.inj h)).symm
          · split at h
            · cases h
            · exact (Place.file.inj (Except.ok.inj h)).symm
  | cons next before ih =>
      rw [List.cons_append, follow] at h
      rw [back]
      split at h
      next hdot =>
        rw [if_pos hdot]
        exact ih h
      next hdot =>
        rw [if_neg hdot]
        split at h
        next hback =>
          rw [if_pos hback]
          split at h
          · cases h
          · exact ih h
        next hback =>
          rw [if_neg hback]
          have hmore : before ++ [name] ≠ [] := List.append_ne_nil_of_right_ne_nil _ (List.cons_ne_nil _ _)
          simp only [if_neg hmore] at h
          split at h
          · cases h
          · split at h
            · exact ih h
            · cases h

theorem exists_joined (inner : List String) :
    ∃ front, ∀ name, (joined (name :: inner)).toList = front ++ name.toList := by
  have hlist : ∀ names : List (List Char), ∃ front, ∀ name,
      ['/'].intercalate (names ++ [name]) = front ++ name := by
    intro names
    induction names with
    | nil => exact ⟨[], fun name => List.intercalate_singleton⟩
    | cons next names ih =>
        obtain ⟨front, hfront⟩ := ih
        refine ⟨next ++ ['/'] ++ front, fun name => ?_⟩
        rw [List.cons_append, List.intercalate_cons_of_ne_nil (by simp), hfront]
        simp only [List.append_assoc]
  obtain ⟨front, hfront⟩ := hlist (inner.reverse.map String.toList)
  refine ⟨front, fun name => ?_⟩
  rw [joined, List.reverse_cons, String.toList_intercalate, List.map_append]
  exact hfront name.toList

/-- Files with different names in the same directory are different. -/
theorem joined_ne (h : name ≠ other) (inner : List String) :
    joined (name :: inner) ≠ joined (other :: inner) := by
  obtain ⟨front, hfront⟩ := exists_joined inner
  intro heq
  have hnames := congrArg String.toList heq
  rw [hfront, hfront] at hnames
  exact h (String.toList_injective (List.append_cancel_left hnames))

/-- What is known of a path that leads to a file. -/
theorem find_concat {path : String} (hpath : Path.names path = before ++ [name])
    (h : d.find path = .ok (.file file)) : name ∉ Path.dots ∧ file = joined (name :: back [] before) := by
  rw [find, findNames] at h
  split at h
  · cases h
  · split at h
    · cases h
    · exact follow_concat (hpath ▸ h)

theorem exists_find_of_write {path : String} {content : Bytes} (h : d.write path content = .ok d') :
    ∃ file, d.find path = .ok (.file file) ∧ d' = d.put file content := by
  rw [write] at h
  split at h
  · next file hfind => exact ⟨file, find_of_findTarget hfind, (Except.ok.inj h).symm⟩
  · cases h
  · cases h

theorem exists_find_of_read {path : String} {content : Bytes} (h : d.read path = .ok content) :
    ∃ file, d.find path = .ok (.file file) ∧ d.content? file = some content := by
  rw [read] at h
  split at h
  · next file hfind =>
      split at h
      · next hcontent => exact ⟨file, hfind, hcontent.trans (congrArg some (Except.ok.inj h))⟩
      · cases h
  · cases h
  · cases h

/-- Writing a file leaves the others of its directory as they are. -/
theorem read_write_of_ne {path path' : String} {old content : Bytes}
    (hpath : Path.names path = before ++ [name]) (hother : Path.names path' = before ++ [other])
    (hne : other ≠ name) (hread : d.read path = .ok old) (hwrite : d.write path' content = .ok d') :
    d'.read path = .ok old := by
  obtain ⟨file, hfind, hcontent⟩ := exists_find_of_read hread
  obtain ⟨file', hfind', rfl⟩ := exists_find_of_write hwrite
  have hfiles : file ≠ file' := by
    rw [(find_concat hpath hfind).2, (find_concat hother hfind').2]
    exact joined_ne hne.symm _
  have hsome : (d.content? file).isSome = true := by rw [hcontent]; rfl
  rw [read, find_put hfind hfind' (.inr hsome)]
  simp only [content?_put_of_ne d hfiles, hcontent]

theorem access_write_of_ok {path : String} {content : Bytes} (h : d.write path content = .ok d') :
    access.write path content d = (.ok (), d') := by
  have hrun : (access.write path content).run d = pure (.ok (), d') := by simp [access, h]
  exact hrun

theorem access_write_of_error {path : String} {content : Bytes} {e : FileError}
    (h : d.write path content = .error e) : access.write path content d = (.error e, d) := by
  have hrun : (access.write path content).run d = pure (.error e, d) := by simp [access, h]
  exact hrun

/-- The files of a directory can be relied upon. -/
theorem lawful_access : access.Lawful where
  read_keeps _ _ := rfl
  isThere_keeps _ _ := rfl
  isThere_of_read {path content d} h := by
    obtain ⟨file, hfind, hcontent⟩ := exists_find_of_read h
    change d.isThere path = true
    rw [isThere, hfind]
    simp only [hcontent, Option.isSome_some]
  read_back {path content d} h := by
    cases hwrite : d.write path content with
    | ok d' =>
        rw [access_write_of_ok hwrite]
        exact read_write hwrite
    | error e =>
        rw [access_write_of_error hwrite] at h
        cases h
  named {path content d} h := by
    cases hwrite : d.write path content with
    | ok d' =>
        obtain ⟨file, hfind, -⟩ := exists_find_of_write hwrite
        have hnames := List.dropLast_append_getLast (Path.names_ne_nil path)
        exact ⟨_, _, hnames.symm, (find_concat hnames.symm hfind).1⟩
    | error e =>
        rw [access_write_of_error hwrite] at h
        cases h
  beside {path other before name name' old d} hpath hother hne hread content := by
    cases hwrite : d.write other content with
    | ok d' =>
        rw [access_write_of_ok hwrite]
        exact read_write_of_ne hpath hother hne hread hwrite
    | error e =>
        rw [access_write_of_error hwrite]
        exact hread

end Directory

end MicroJava.CommandLine
