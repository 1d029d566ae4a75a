import ScopeLint.Proofs.Project.FileSet
import ScopeLint.Proofs.Scope.Table
import ScopeLint.Proofs.Text.Parts

/-! Collecting files from roots. Each root contributes its files, and they are named from the base
directory that holds at this root: the one that was given, or else the first one that a root up to it
suggests. Of the contributed files of one package the last one is kept. -/

namespace ScopeLint

theorem Disk.find_eq_follow (disk : Disk) {path : String} (hne : path.isEmpty = false)
    (hpath : Path.isAbsolute path = false) : disk.find path =
      follow [disk.entries, disk.root] ((path.toList.splitOn '/').map String.ofList) := by
  simp [find, hne, hpath, Path.split_eq]

namespace FileSet

/-! ### The last file of a package -/

theorem get?_insert (fs : FileSet) (f : SourceFile) (p : String) :
    (fs.insert f).get? p = if p = f.package then some f else fs.get? p := by
  unfold get?
  rw [← lookup_put]
  unfold insert contains
  split_ifs <;> rfl

theorem get?_foldl_insert (files : List SourceFile) (fs : FileSet) (p : String) :
    (files.foldl insert fs).get? p = (files.reverse.find? fun f => p == f.package).or (fs.get? p) := by
  induction files generalizing fs with
  | nil => rfl
  | cons f files ih =>
    rw [List.foldl_cons, ih, get?_insert, List.reverse_cons, List.find?_append, Option.or_assoc]
    congr 1
    by_cases hp : p = f.package <;> simp [hp]

/-! ### What a root contributes -/

variable (disk : Disk) (ignore : Option Pattern) (entries : List String)

theorem ofPath_directory {path : String} {es : List Entry} {entry : Option String} {files : List String}
    (hpath : path.endsWith ".py" = false) (hfind : disk.find path = .directory es)
    (hentry : (if disk.isFile (Path.join path "__init__.py") then some (Path.join path "__init__.py")
      else none) = entry)
    (hfiles : filesHere path es ++ filesBelow path false es = files) :
    Root.ofPath disk path = ⟨path, entry, files⟩ := by
  unfold Root.ofPath Disk.programFiles
  simp [hpath, hentry, hfind, hfiles]

/-- The directory from which the files of a root are named. -/
def startOf (base : Option String) (root : Root) : String :=
  match base with
  | some b => if b.isEmpty then root.directory else b
  | none => root.directory

/-- The files of a root under a base directory. -/
def filesOf (base : Option String) (path : String) : List SourceFile :=
  let root := Root.ofPath disk path
  (root.files.filter fun f => !(ignore.any fun p => p.foundIn f)).map fun filename =>
    let file := SourceFile.load disk (startOf base root) filename (root.entry == some filename)
    { file with isEntry := file.isEntry || entries.contains file.package }

/-- The base directory that a root suggests by itself. -/
def suggestedBase (path : String) : Option String := guessBase none path (Root.ofPath disk path)

/-- The first base directory that some roots suggest. -/
def firstBase (roots : List String) : Option String := roots.findSome? (suggestedBase disk)

theorem firstBase_cons (path : String) (rest : List String) :
    firstBase disk (path :: rest) = (suggestedBase disk path).or (firstBase disk rest) := by
  rw [firstBase, List.findSome?_cons]
  cases suggestedBase disk path <;> rfl

theorem firstBase_concat (before : List String) (path : String) :
    firstBase disk (before ++ [path]) = (firstBase disk before).or (suggestedBase disk path) := by
  simp [firstBase, List.findSome?_append]

/-- A suggestion counts only where no base directory holds yet. -/
theorem guessBase_eq (base : Option String) (path : String) (root : Root) :
    guessBase base path root = base.or (guessBase none path root) := by
  cases base <;> simp [guessBase]

/-- The files that roots contribute one after the other. -/
def contributions : Option String → List String → List SourceFile
  | _, [] => []
  | base, path :: rest =>
    let base := base.or (suggestedBase disk path)
    filesOf disk ignore entries base path ++ contributions base rest

variable {disk ignore entries} {base : Option String} {roots : List String}

theorem addRoot_eq (fs : FileSet) (path : String) :
    addRoot disk ignore entries (base, fs) path =
      (base.or (suggestedBase disk path),
        (filesOf disk ignore entries (base.or (suggestedBase disk path)) path).foldl insert fs) := by
  unfold addRoot filesOf
  dsimp only
  rw [guessBase_eq, List.foldl_map]
  rfl

theorem foldl_addRoot (fs : FileSet) : (roots.foldl (addRoot disk ignore entries) (base, fs)).2 =
    (contributions disk ignore entries base roots).foldl insert fs := by
  induction roots generalizing base fs with
  | nil => rfl
  | cons path rest ih => rw [List.foldl_cons, addRoot_eq, ih, contributions, List.foldl_append]

theorem contributions_append (before after : List String) :
    contributions disk ignore entries base (before ++ after) =
      contributions disk ignore entries base before ++
        contributions disk ignore entries (base.or (firstBase disk before)) after := by
  induction before generalizing base with
  | nil => simp [contributions, firstBase]
  | cons path before ih =>
    rw [List.cons_append, contributions, ih, firstBase_cons, ← Option.or_assoc, contributions,
      List.append_assoc]

variable {options : Options} {fs : FileSet}

theorem collect_eq_ok : collect disk options roots = .ok fs ↔
    ∃ ignore, options.ignorePattern = .ok ignore ∧
      fs = (contributions disk ignore options.entryPackages options.base roots).foldl insert empty := by
  unfold collect
  cases options.ignorePattern with
  | error fault => simp [bind, Except.bind]
  | ok ignore => simp [bind, Except.bind, pure, Except.pure, foldl_addRoot, eq_comm]

/-- What is found under a package is the last contribution to it. -/
theorem get?_collect (h : collect disk options roots = .ok fs) (hignore : options.ignorePattern = .ok ignore)
    (p : String) : fs.get? p =
      (contributions disk ignore options.entryPackages options.base roots).reverse.find? fun f =>
        p == f.package := by
  obtain ⟨ignore', hignore', rfl⟩ := collect_eq_ok.mp h
  cases hignore.symm.trans hignore'
  rw [get?_foldl_insert]
  exact Option.or_none

theorem mem_filesOf {path : String} {file : SourceFile} (h : file ∈ filesOf disk ignore entries base path) :
    file.filename ∈ (Root.ofPath disk path).files ∧ file.base = startOf base (Root.ofPath disk path) ∧
      file.names = .ofPath (Path.relative disk.here file.filename file.base) := by
  obtain ⟨filename, hmem, rfl⟩ := List.mem_map.mp h
  exact ⟨(List.mem_filter.mp hmem).1, rfl, rfl⟩

theorem names_of_mem_contributions {file : SourceFile}
    (h : file ∈ contributions disk ignore entries base roots) :
    file.names = .ofPath (Path.relative disk.here file.filename file.base) := by
  induction roots generalizing base with
  | nil => cases h
  | cons path rest ih =>
    rcases List.mem_append.mp h with hhere | hlater
    · exact (mem_filesOf hhere).2.2
    · exact ih hlater

/-- The last contribution with a property comes from one of the roots, and the base directory at that root
is the first one that was given or suggested. -/
theorem find?_contributions {q : SourceFile → Bool} {file : SourceFile}
    (h : (contributions disk ignore entries base roots).reverse.find? q = some file) :
    ∃ before path after, roots = before ++ path :: after ∧
      (filesOf disk ignore entries (base.or (firstBase disk (before ++ [path]))) path).reverse.find? q =
        some file := by
  induction roots generalizing base with
  | nil => cases h
  | cons path rest ih =>
    rw [contributions, List.reverse_append, List.find?_append] at h
    rcases Option.or_eq_some_iff.mp h with hlater | ⟨-, hhere⟩
    · obtain ⟨before, r, after, rfl, hr⟩ := ih hlater
      exact ⟨path :: before, r, after, rfl, by rwa [List.cons_append, firstBase_cons, ← Option.or_assoc]⟩
    · exact ⟨[], path, rest, rfl, by simpa [firstBase] using hhere⟩

end FileSet

end ScopeLint
