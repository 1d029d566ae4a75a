import ScopeLint.Proofs.Project.Collection
import ScopeLint.Proofs.Text.Parts

/-! The base directory of a root. A package directory suggests the directory around it, and what the first
package directory suggests holds for all roots behind it. So the roots before the one of a file matter to
the names of the file, but only through their first suggestion: if there is none, or if it is that of the
root of the file, then the file is found as it is found with its root alone. -/

namespace ScopeLint.FileSet

/-- The names of a file of the root `r`, with some roots before it and no base directory given. -/
def namesAfter (disk : Disk) (before : List String) (r filename : String) : PackageName :=
  .ofPath (Path.relative disk.here filename
    (startOf (firstBase disk (before ++ [r])) (Root.ofPath disk r)))

variable {disk : Disk} {options : Options} {roots before : List String} {r p : String} {fs : FileSet}
  {file : SourceFile}

/-- The roots before `r` make no difference to the base directory if they suggest that of `r` first. -/
theorem firstBase_concat_of_agree
    (h : ∀ b, firstBase disk before = some b → suggestedBase disk r = some b) :
    firstBase disk (before ++ [r]) = suggestedBase disk r := by
  rw [firstBase_concat]
  cases hbefore : firstBase disk before with
  | none => rfl
  | some b => rw [Option.some_or, h b hbefore]

/-- What is found comes from one of the roots, and is the last one there of its package. -/
theorem exists_root_of_get? (hbase : options.base = none) (hfs : collect disk options roots = .ok fs)
    (hfile : fs.get? p = some file) : ∃ ignore before r after,
      options.ignorePattern = .ok ignore ∧ roots = before ++ r :: after ∧
      (filesOf disk ignore options.entryPackages (firstBase disk (before ++ [r])) r).reverse.find?
        (fun f => p == f.package) = some file := by
  obtain ⟨ignore, hignore, -⟩ := collect_eq_ok.mp hfs
  rw [get?_collect hfs hignore, hbase] at hfile
  obtain ⟨before, r, after, hroots, hfound⟩ := find?_contributions hfile
  exact ⟨ignore, before, r, after, hignore, hroots, by simpa using hfound⟩

theorem names_of_mem_filesOf {ignore : Option Pattern} {entries : List String}
    (h : file ∈ filesOf disk ignore entries (firstBase disk (before ++ [r])) r) :
    file.filename ∈ (Root.ofPath disk r).files ∧ file.names = namesAfter disk before r file.filename := by
  obtain ⟨hmem, hstart, hnames⟩ := mem_filesOf h
  exact ⟨hmem, by rw [hnames, hstart, namesAfter]⟩

/-- A file that only the root `r` contributes is named from the first base directory that is suggested up to
`r`. It is the file that `r` alone gives, unless a root before `r` suggests another base directory first. -/
theorem file_of_only_root (hbase : options.base = none) (hfs : collect disk options roots = .ok fs)
    (hfile : fs.get? p = some file)
    (honly : ∀ q ∈ roots, file.filename ∈ (Root.ofPath disk q).files → q = r) :
    ∃ before after alone, roots = before ++ r :: after ∧ collect disk options [r] = .ok alone ∧
      file.names = namesAfter disk before r file.filename ∧
      (∀ q g, alone.get? q = some g → g.names = namesAfter disk [] r g.filename) ∧
      ((∀ b, firstBase disk before = some b → suggestedBase disk r = some b) →
        alone.get? p = some file) := by
  obtain ⟨ignore, before, s, after, hignore, hroots, hfound⟩ := exists_root_of_get? hbase hfs hfile
  obtain ⟨hmem, hnames⟩ :=
    names_of_mem_filesOf (List.mem_reverse.mp (List.mem_of_find?_eq_some hfound))
  obtain rfl : s = r := honly s (by simp [hroots]) hmem
  have halone : collect disk options [s] = .ok _ := collect_eq_ok.mpr ⟨ignore, hignore, rfl⟩
  refine ⟨before, after, _, hroots, halone, hnames, fun q g hg => ?_, fun hagree => ?_⟩
  · obtain ⟨ignore', before', s', after', -, hsingle, hfound'⟩ := exists_root_of_get? hbase halone hg
    obtain ⟨rfl, rfl, rfl⟩ : before' = [] ∧ s' = s ∧ after' = [] := by
      cases before' <;> simp_all
    exact (names_of_mem_filesOf (List.mem_reverse.mp (List.mem_of_find?_eq_some hfound'))).2
  · rw [get?_collect halone hignore, hbase, contributions, contributions, List.append_nil, Option.none_or,
      ← firstBase_concat_of_agree hagree]
    exact hfound

/-! ### A suggestion that is carried on -/

/-- Without options, the file of a last root that has only this file is found by its names. -/
theorem get?_of_last_root {directory filename : String} {entry : Option String}
    (hroot : Root.ofPath disk r = ⟨directory, entry, [filename]⟩) (before : List String) :
    ∃ fs file, collect disk ⟨none, none, none⟩ (before ++ [r]) = .ok fs ∧
      fs.get? (namesAfter disk before r filename).package = some file ∧ file.filename = filename ∧
      file.names = namesAfter disk before r filename := by
  have hfs : collect disk ⟨none, none, none⟩ (before ++ [r]) = .ok _ := collect_eq_ok.mpr ⟨none, rfl, rfl⟩
  obtain ⟨file, hfiles⟩ : ∃ file, filesOf disk none (Options.entryPackages ⟨none, none, none⟩)
      (firstBase disk (before ++ [r])) r = [file] := by
    unfold filesOf
    rw [hroot]
    exact ⟨_, rfl⟩
  obtain ⟨hmem, hnames⟩ := names_of_mem_filesOf (hfiles ▸ List.mem_singleton_self file)
  obtain rfl : file.filename = filename := by simpa [hroot] using hmem
  refine ⟨_, file, hfs, ?_, rfl, hnames⟩
  rw [get?_collect hfs rfl, contributions_append, contributions, contributions, Option.none_or,
    ← firstBase_concat, hfiles, ← hnames]
  simp [SourceFile.package]

/-- A package directory in one directory, and a file in another one. -/
def apart : Disk :=
  ⟨"w", [.directory "a" [.directory "p" [.file "__init__.py" none]], .directory "b" [.file "x.py" none]]⟩

theorem root_package :
    Root.ofPath apart "a/p" = ⟨"a/p", some "a/p/__init__.py", ["a/p/__init__.py"]⟩ := by
  have hfind : apart.find "a/p" = .directory [.file "__init__.py" none] :=
    apart.find_eq_follow (by decide) (by decide +kernel)
  refine ofPath_directory _ (by decide +kernel) hfind ?_ ?_
  · simp only [Disk.isFile, Disk.find, Path.split_eq]
    decide +kernel
  · simp only [filesBelow]
    decide +kernel

theorem root_plain : Root.ofPath apart "b" = ⟨"b", none, ["b/x.py"]⟩ := by
  have hfind : apart.find "b" = .directory [.file "x.py" none] :=
    apart.find_eq_follow (by decide) (by decide +kernel)
  refine ofPath_directory _ (by decide +kernel) hfind ?_ ?_
  · simp only [Disk.isFile, Disk.find, Path.split_eq]
    decide +kernel
  · simp only [filesBelow]
    decide +kernel

theorem suggestedBase_package : suggestedBase apart "a/p" = some "a" := by
  simp only [suggestedBase, root_package, guessBase, Path.normalize, Path.components, Path.split_eq]
  decide +kernel

theorem suggestedBase_plain : suggestedBase apart "b" = none := by
  rw [suggestedBase, root_plain]
  rfl

theorem file_of_only_root_package : ∃ fs file alone,
    collect apart ⟨none, none, none⟩ ["b", "a/p"] = .ok fs ∧ fs.get? "p" = some file ∧
      file.filename = "a/p/__init__.py" ∧ collect apart ⟨none, none, none⟩ ["a/p"] = .ok alone ∧
      alone.get? "p" = some file := by
  have hnames : namesAfter apart ["b"] "a/p" "a/p/__init__.py" = ⟨"p", "p.__init__"⟩ := by
    simp only [namesAfter, List.cons_append, List.nil_append, firstBase_cons, suggestedBase_plain,
      suggestedBase_package, root_package, Path.relative, Path.absolute, Path.components, Path.split_eq]
    decide +kernel
  obtain ⟨fs, file, hfs, hfile, hname, -⟩ := get?_of_last_root root_package ["b"]
  rw [hnames] at hfile
  have honly : ∀ q ∈ ["b", "a/p"], file.filename ∈ (Root.ofPath apart q).files → q = "a/p" := by
    simp [hname, root_plain]
  obtain ⟨before, after, alone, hroots, halone, -, -, hagree⟩ := file_of_only_root rfl hfs hfile honly
  refine ⟨fs, file, alone, hfs, hfile, hname, halone, hagree fun b hb => ?_⟩
  -- The only other root suggests nothing.
  obtain ⟨q, hq, hsuggested⟩ := List.exists_of_findSome?_eq_some hb
  have hmem : q ∈ ["b"] ++ ["a/p"] := hroots ▸ List.mem_append_left _ hq
  rcases List.mem_pair.mp hmem with rfl | rfl
  · rw [suggestedBase_plain] at hsuggested
    cases hsuggested
  · exact hsuggested

/-- Behind a package directory, a file of another directory is named from the directory around the
package. -/
theorem names_behind_package : ∃ fs file alone file',
    collect apart ⟨none, none, none⟩ ["a/p", "b"] = .ok fs ∧ fs.get? "...b.x" = some file ∧
      file.filename = "b/x.py" ∧ collect apart ⟨none, none, none⟩ ["b"] = .ok alone ∧
      alone.get? "x" = some file' ∧ file'.filename = "b/x.py" := by
  have hbehind : namesAfter apart ["a/p"] "b" "b/x.py" = ⟨"...b.x", "...b.x"⟩ := by
    simp only [namesAfter, List.cons_append, List.nil_append, firstBase_cons, suggestedBase_package,
      root_plain, Path.relative, Path.absolute, Path.components, Path.split_eq]
    decide +kernel
  have halone : namesAfter apart [] "b" "b/x.py" = ⟨"x", "x"⟩ := by
    simp only [namesAfter, List.nil_append, firstBase_cons, suggestedBase_plain, root_plain, Path.relative,
      Path.absolute, Path.components, Path.split_eq]
    decide +kernel
  obtain ⟨fs, file, hfs, hfile, hname, -⟩ := get?_of_last_root root_plain ["a/p"]
  obtain ⟨alone, file', hfs', hfile', hname', -⟩ := get?_of_last_root root_plain []
  rw [hbehind] at hfile
  rw [halone] at hfile'
  exact ⟨fs, file, alone, file', hfs, hfile, hname, hfs', hfile', hname'⟩

end ScopeLint.FileSet
