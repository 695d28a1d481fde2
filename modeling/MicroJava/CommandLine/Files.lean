import MicroJava.Bytes
import MicroJava.CommandLine.Path

/-!
# Access to files

The program reads and writes files through three operations, so it runs on the files of the machine
as well as on a `Directory`, which is a value. A directory keeps its files by name; names with
slashes stand for files in directories below it. Paths are followed from the directory itself, and
nothing outside of it can be seen. What was written is read back, and no other file changes
(`read_write`, `content?_put_of_ne`).
-/

namespace MicroJava.CommandLine

/-- Why a file cannot be read or written. -/
inductive FileError where
  | notFound
  | notDirectory
  | isDirectory
  | invalidText
  | other (description : String)
  deriving DecidableEq, Inhabited

/-- The wording of a cause. -/
def FileError.message : FileError → String
  | notFound => "No such file or directory (os error 2)"
  | notDirectory => "Not a directory (os error 20)"
  | isDirectory => "Is a directory (os error 21)"
  | invalidText => "stream did not contain valid UTF-8"
  | other description => description

/-- The operations on files. -/
structure FileAccess (m : Type → Type) where
  read : String → m (Except FileError Bytes)
  write : String → Bytes → m (Except FileError Unit)
  isThere : String → m Bool

/-- The files of a directory, with their names. -/
structure Directory where
  files : List (String × Bytes)
  deriving DecidableEq, Inhabited

/-- What a path leads to. A file is there or can be made. -/
inductive Place where
  | file (name : String)
  | directory
  deriving DecidableEq, Inhabited

namespace Directory

/-- The content of the file `name`. -/
def content? (d : Directory) (name : String) : Option Bytes :=
  d.files.lookup name

/-- The directory in which the file `name` has the given content. -/
def put (d : Directory) (name : String) (content : Bytes) : Directory :=
  { files := (name, content) :: d.files.filter (·.1 ≠ name) }

/-- Whether `name` is a directory below this one, or this one itself. -/
def hasDirectory (d : Directory) (name : String) : Bool :=
  name = "" || d.files.any fun (file, _) => (name ++ "/").toList.isPrefixOf file.toList

/-- The name of the file or directory reached by the names `inner`, the last of which comes
first. -/
def joined (inner : List String) : String :=
  "/".intercalate inner.reverse

/-- Follows names from the directory below this one that the names `inner` lead to, the last of
which comes first. A dot stays there and two dots go back; nothing leads out of this directory and back
into it. All names but the last one must be those of directories. -/
def follow (d : Directory) (inner : List String) : List String → Except FileError Place
  | [] => .ok .directory
  | name :: names =>
    if name = "" ∨ name = "." then d.follow inner names
    else if name = ".." then
      if inner = [] then .error .notFound else d.follow inner.tail names
    else
      let reached := joined (name :: inner)
      if (d.content? reached).isSome then
        if names = [] then .ok (.file reached) else .error .notDirectory
      else if d.hasDirectory reached then d.follow (name :: inner) names
      else if names = [] then .ok (.file reached)
      else .error .notFound

/-- What names lead to. What lies outside of the directory cannot be seen, except that it is a
directory. -/
def findNames (d : Directory) (names : List String) : Except FileError Place :=
  if names.all (· ∈ ["", ".", ".."]) then .ok .directory
  else if names.head? = some "" then .error .notFound
  else d.follow [] names

/-- What a path leads to. -/
def find (d : Directory) (path : String) : Except FileError Place :=
  d.findNames (Path.names path)

/-- Reads a file. -/
def read (d : Directory) (path : String) : Except FileError Bytes :=
  match d.find path with
  | .ok (.file name) =>
    match d.content? name with
    | some content => .ok content
    | none => .error .notFound
  | .ok .directory => .error .isDirectory
  | .error e => .error e

/-- The place where a file can be written. A path that ends in a slash leads to a directory, whether
it is there or not. -/
def findTarget (d : Directory) (path : String) : Except FileError Place :=
  let names := Path.names path
  match names.reverse.dropWhile (· = "") with
  | [] => .ok .directory
  | name :: before =>
    if names.getLast? = some "" then
      (d.findNames (name :: before).reverse).map fun _ => .directory
    else d.findNames names

/-- Writes a file. -/
def write (d : Directory) (path : String) (content : Bytes) : Except FileError Directory :=
  match d.findTarget path with
  | .ok (.file name) => .ok (d.put name content)
  | .ok .directory => .error .isDirectory
  | .error e => .error e

/-- Whether there is something where a path leads to. -/
def isThere (d : Directory) (path : String) : Bool :=
  match d.find path with
  | .ok (.file name) => (d.content? name).isSome
  | .ok .directory => true
  | .error _ => false

/-- Access to the files of a directory that is carried along. -/
def access : FileAccess (StateM Directory) where
  read path := do
    return (← get).read path
  write path content := do
    match (← get).write path content with
    | .error e => return .error e
    | .ok d => do
      set d
      return .ok ()
  isThere path := do
    return (← get).isThere path

@[simp] theorem content?_put (d : Directory) (name : String) (content : Bytes) :
    (d.put name content).content? name = some content := by
  simp [content?, put]

theorem content?_put_of_ne (d : Directory) {name other : String} (h : other ≠ name)
    (content : Bytes) : (d.put name content).content? other = d.content? other := by
  have hne : (other == name) = false := by simpa using h
  simp only [content?, put, List.lookup_cons, hne]
  generalize d.files = files
  induction files with
  | nil => rfl
  | cons f files ih =>
    obtain ⟨n, b⟩ := f
    by_cases hn : n = name
    · subst hn
      rw [List.filter_cons_of_neg (by simp), ih, List.lookup_cons, hne]
    · rw [List.filter_cons_of_pos (by simpa using hn), List.lookup_cons, List.lookup_cons, ih]

/-- Writing a file takes no directory away. -/
theorem hasDirectory_put {d : Directory} {directory : String}
    (h : d.hasDirectory directory = true) (name : String) (content : Bytes) :
    (d.put name content).hasDirectory directory = true := by
  unfold hasDirectory at h ⊢
  simp only [Bool.or_eq_true, decide_eq_true_eq, List.any_eq_true] at h ⊢
  refine h.imp_right fun ⟨file, hmem, hpre⟩ => ?_
  by_cases hname : file.1 = name
  · exact ⟨(name, content), List.mem_cons_self, hname ▸ hpre⟩
  · exact ⟨file, List.mem_cons_of_mem _ (List.mem_filter.2 ⟨hmem, by simpa using hname⟩), hpre⟩

/-- What names lead to is no directory if it is a file. -/
theorem isSome_or_hasDirectory_of_follow {d : Directory} {inner names : List String}
    {name : String} (h : d.follow inner names = .ok (.file name)) :
    (d.content? name).isSome = true ∨ d.hasDirectory name = false := by
  fun_induction follow d inner names <;> simp_all

/-- What a path leads to is no directory if it is a file. -/
theorem isSome_or_hasDirectory_of_find {d : Directory} {path name : String}
    (h : d.find path = .ok (.file name)) :
    (d.content? name).isSome = true ∨ d.hasDirectory name = false := by
  unfold find findNames at h
  split at h
  · cases h
  · split at h
    · cases h
    · exact isSome_or_hasDirectory_of_follow h

/-- A file stays in its place when it is written, and when another one is. -/
theorem follow_put {d : Directory} {inner names : List String} {name other : String}
    (h : d.follow inner names = .ok (.file name))
    (hother : (d.content? other).isSome = true ∨ d.hasDirectory other = false)
    (hname : name = other ∨ (d.content? name).isSome = true) (content : Bytes) :
    (d.put other content).follow inner names = .ok (.file name) := by
  have hkept : ∀ directory, directory ≠ other → d.hasDirectory directory = true →
      ((d.put other content).content? directory = d.content? directory ∧
        (d.put other content).hasDirectory directory = true) := fun directory hne hdir =>
    ⟨content?_put_of_ne d hne content, hasDirectory_put hdir other content⟩
  have hthere : ((d.put other content).content? name).isSome = true := by
    by_cases heq : name = other
    · rw [heq, content?_put]
      rfl
    · rw [content?_put_of_ne d heq]
      exact hname.resolve_left heq
  fun_induction follow d inner names with
  | case1 => cases h
  | case2 inner next names hdot ih => rw [follow, if_pos hdot]; exact ih h
  | case3 => cases h
  | case4 inner names hdot hinner ih =>
    rw [follow, if_neg hdot, if_pos rfl, if_neg hinner]
    exact ih h
  | case5 inner next hdot hback reached =>
    obtain rfl := Place.file.inj (Except.ok.inj h)
    simp only [reached] at hthere
    simp [follow, hdot, hback, reached, hthere]
  | case6 => cases h
  | case7 inner next names hdot hback reached habsent hdir ih =>
    have hne : reached ≠ other := by
      rintro rfl
      simp_all
    obtain ⟨hcontent, hopen⟩ := hkept reached hne hdir
    rw [follow, if_neg hdot, if_neg hback]
    simp only [reached] at hcontent hopen habsent
    simp [hcontent, habsent, hopen, ih h]
  | case8 inner next hdot hback reached =>
    obtain rfl := Place.file.inj (Except.ok.inj h)
    simp only [reached] at hthere
    simp [follow, hdot, hback, reached, hthere]
  | case9 => cases h

/-- The path to a file leads there as well after it was written, and after another one was. -/
theorem find_put {d : Directory} {path path' name other : String} (h : d.find path = .ok (.file name))
    (hother : d.find path' = .ok (.file other))
    (hname : name = other ∨ (d.content? name).isSome = true) (content : Bytes) :
    (d.put other content).find path = .ok (.file name) := by
  have hfile := isSome_or_hasDirectory_of_find hother
  unfold find findNames at h ⊢
  split at h
  · cases h
  · next hdots =>
    rw [if_neg hdots]
    split at h
    · cases h
    · next houter => rw [if_neg houter, follow_put h hfile hname content]

/-- A file is written where it is looked for. -/
theorem find_of_findTarget {d : Directory} {path name : String}
    (h : d.findTarget path = .ok (.file name)) : d.find path = .ok (.file name) := by
  unfold findTarget at h
  dsimp only at h
  split at h
  · cases h
  · split at h
    · cases hplace : d.findNames _ <;> rw [hplace] at h <;> cases h
    · exact h

/-- What was written is read back. -/
theorem read_write {d d' : Directory} {path : String} {content : Bytes}
    (h : d.write path content = .ok d') : d'.read path = .ok content := by
  unfold write at h
  split at h
  · next name hfind =>
    obtain rfl := Except.ok.inj h
    have hfind := find_of_findTarget hfind
    simp [read, find_put hfind hfind (.inl rfl)]
  · cases h
  · cases h

end Directory

end MicroJava.CommandLine
