import ScopeLint.Proofs.Project.Collection
import ScopeLint.Proofs.Project.RelativeImport

/-! Files of the same package. The dotted name of a file gives its path back. The package gives it back up
to one choice: a program file shares its package with the file `__init__` of the directory that has its
name and stands beside it. So of collected files with different paths from their base directories one takes
the place of another only in this case. Under several roots there can also be files with the same path, and
of these the last one is kept. -/

namespace ScopeLint

/-- A program file, and the file `__init__` in the directory of the same name beside it. -/
def IsTwin (file initial : String) : Prop :=
  ∃ stem, stem ≠ "" ∧ (Path.split stem).getLast? ≠ some "__init__" ∧ file = stem ++ ".py" ∧
    initial = stem ++ "/__init__.py"

namespace ModulePlace

/-! ### Paths and dotted names -/

section Parts

variable (m : ModulePlace)

theorem not_mem_slash : ∀ p ∈ m.directories ++ [m.name], '/' ∉ p.toList := fun p hp => (m.isPart p hp).2.2.1

theorem not_mem_point : ∀ p ∈ m.directories ++ [m.name], '.' ∉ p.toList := fun p hp => (m.isPart p hp).2.1

theorem intercalate_init : "/".intercalate (m.directories ++ [m.name]) ++ "/__init__" =
    "/".intercalate (m.directories ++ [m.name] ++ ["__init__"]) := by
  have hne : m.directories ++ [m.name] ≠ [] := by simp
  rw [String.intercalate_append_of_ne_nil hne (List.cons_ne_nil _ _), String.intercalate_singleton,
    String.append_assoc]
  rfl

variable {m} {n : ModulePlace}

theorem path_eq_of_parts_eq (h : m.directories ++ [m.name] = n.directories ++ [n.name]) :
    m.path = n.path := by
  rw [path_eq, path_eq, h]

theorem dotname_injective
    (h : (PackageName.ofPath m.path).dotname = (PackageName.ofPath n.path).dotname) : m.path = n.path := by
  rw [dotname_path, dotname_path] at h
  exact path_eq_of_parts_eq (Text.intercalate_injective rfl (by simp) (by simp) m.not_mem_point
    n.not_mem_point h)

theorem isTwin_path_iff : IsTwin m.path n.path ↔
    m.name ≠ "__init__" ∧ n.name = "__init__" ∧ n.directories = m.directories ++ [m.name] := by
  have hending (s t : String) : s ++ ".py" = t ++ ".py" ↔ s = t := by simp
  constructor
  · rintro ⟨stem, -, hlast, hfile, hinit⟩
    rw [path_eq, hending] at hfile
    subst hfile
    rw [Path.split_intercalate (by simp) m.not_mem_slash] at hlast
    have hparts : "/".intercalate (n.directories ++ [n.name]) =
        "/".intercalate (m.directories ++ [m.name] ++ ["__init__"]) := by
      rw [← hending, ← path_eq, hinit, ← intercalate_init, String.append_assoc]
      rfl
    have hslash : ∀ p ∈ m.directories ++ [m.name] ++ ["__init__"], '/' ∉ p.toList := by
      intro p hp
      rcases List.mem_append.mp hp with hp | hp
      · exact m.not_mem_slash p hp
      · rw [List.mem_singleton.mp hp]
        decide
    have hn := Text.intercalate_injective rfl (by simp) (by simp) n.not_mem_slash hslash hparts
    obtain ⟨hdirs, hname⟩ := List.append_inj' hn rfl
    exact ⟨by simpa using hlast, by simpa using hname, hdirs⟩
  · rintro ⟨hname, hinit, hdirs⟩
    refine ⟨"/".intercalate (m.directories ++ [m.name]), ?_, ?_, m.path_eq, ?_⟩
    · obtain ⟨c, cs, hcs, -⟩ := exists_intercalate "/" (by simp) m.isPart
      intro hempty
      rw [hempty] at hcs
      cases hcs
    · rw [Path.split_intercalate (by simp) m.not_mem_slash]
      simpa using hname
    · rw [path_eq, hdirs, hinit, ← intercalate_init, String.append_assoc]
      rfl

end Parts

/-! ### Packages -/

/-- The parts of the package. A file `__init__` without a directory around it keeps its name. -/
def key (m : ModulePlace) : List String :=
  if m.name = "__init__" ∧ m.directories ≠ [] then m.directories else m.directories ++ [m.name]

variable {m n : ModulePlace}

theorem key_ne_nil : m.key ≠ [] := by
  unfold key
  split_ifs with h
  · exact h.2
  · simp

theorem key_subset : m.key ⊆ m.directories ++ [m.name] := by
  unfold key
  split_ifs
  · exact List.subset_append_left _ _
  · exact List.Subset.refl _

theorem package_eq_key : (PackageName.ofPath m.path).package = ".".intercalate m.key := by
  by_cases hcomponents : m.components = []
  · -- The file is `__init__` without a directory around it.
    obtain ⟨hname, hdirs⟩ : m.name = "__init__" ∧ m.directories = [] := by
      unfold components at hcomponents
      split_ifs at hcomponents with hname
      · exact ⟨hname, hcomponents⟩
      · simp at hcomponents
    rw [PackageName.package_ofPath, dotname_path, key, hname, hdirs]
    decide
  · have hkey : m.key = m.components := by
      unfold components at hcomponents ⊢
      unfold key
      split_ifs at hcomponents ⊢ <;> simp_all
    rw [package_path m hcomponents, hkey]

theorem package_eq_iff_key_eq :
    (PackageName.ofPath m.path).package = (PackageName.ofPath n.path).package ↔ m.key = n.key := by
  rw [package_eq_key, package_eq_key]
  refine ⟨fun h => ?_, fun h => by rw [h]⟩
  exact Text.intercalate_injective rfl key_ne_nil key_ne_nil
    (fun p hp => m.not_mem_point p (key_subset hp)) (fun p hp => n.not_mem_point p (key_subset hp)) h

/-- A key that is the directories of one file and all parts of the other one. -/
theorem isTwin_of_key_eq (hinit : n.name = "__init__") (hn : "__init__" ∉ n.directories)
    (h : n.directories = m.directories ++ [m.name]) : IsTwin m.path n.path := by
  refine isTwin_path_iff.mpr ⟨fun hname => hn ?_, hinit, h⟩
  simp [h, hname]

theorem key_eq_of_isTwin (h : IsTwin m.path n.path) : m.key = n.key := by
  obtain ⟨hname, hinit, hdirs⟩ := isTwin_path_iff.mp h
  simp [key, hname, hinit, hdirs]

theorem isTwin_or_of_key_eq (hm : "__init__" ∉ m.directories) (hn : "__init__" ∉ n.directories)
    (hne : m.path ≠ n.path) (h : m.key = n.key) : IsTwin m.path n.path ∨ IsTwin n.path m.path := by
  unfold key at h
  split_ifs at h with hminit hninit hninit
  · exact absurd (path_eq_of_parts_eq (by rw [h, hminit.1, hninit.1])) hne
  · exact .inr (isTwin_of_key_eq hminit.1 hm h)
  · exact .inl (isTwin_of_key_eq hninit.1 hn h.symm)
  · exact absurd (path_eq_of_parts_eq h) hne

end ModulePlace

/-! ### Collected files -/

open FileSet

/-- Files by their paths from the base directory: different paths have different dotted names, the same
package is that of twins, and of two files with different paths one takes the place of the other only if
they are twins. -/
theorem package_eq_iff_isTwin (m n : ModulePlace) (hm : "__init__" ∉ m.directories)
    (hn : "__init__" ∉ n.directories) (hne : m.path ≠ n.path) :
    (PackageName.ofPath m.path).dotname ≠ (PackageName.ofPath n.path).dotname ∧
      ((PackageName.ofPath m.path).package = (PackageName.ofPath n.path).package ↔
        IsTwin m.path n.path ∨ IsTwin n.path m.path) ∧
      ∀ (disk : Disk) (options : Options) (roots : List String) (fs : FileSet) (ignore : Option Pattern)
        (f g : SourceFile), collect disk options roots = .ok fs → options.ignorePattern = .ok ignore →
        f ∈ contributions disk ignore options.entryPackages options.base roots →
        fs.get? f.package = some g → Path.relative disk.here f.filename f.base = m.path →
        Path.relative disk.here g.filename g.base = n.path → IsTwin m.path n.path ∨ IsTwin n.path m.path := by
  have htwin (h : (PackageName.ofPath m.path).package = (PackageName.ofPath n.path).package) :
      IsTwin m.path n.path ∨ IsTwin n.path m.path :=
    ModulePlace.isTwin_or_of_key_eq hm hn hne (ModulePlace.package_eq_iff_key_eq.mp h)
  refine ⟨fun h => hne (ModulePlace.dotname_injective h), ⟨htwin, ?_⟩, ?_⟩
  · rintro (h | h)
    · exact ModulePlace.package_eq_iff_key_eq.mpr (ModulePlace.key_eq_of_isTwin h)
    · exact (ModulePlace.package_eq_iff_key_eq.mpr (ModulePlace.key_eq_of_isTwin h)).symm
  · intro disk options roots fs ignore f g hfs hignore hf hg hfpath hgpath
    rw [get?_collect hfs hignore] at hg
    have hpackage : f.package = g.package := by simpa using List.find?_some hg
    have hgmem := List.mem_reverse.mp (List.mem_of_find?_eq_some hg)
    refine htwin ?_
    rw [← hfpath, ← hgpath, ← names_of_mem_contributions hf, ← names_of_mem_contributions hgmem]
    exact hpackage

/-- A directory with twins. -/
def twins : Disk :=
  ⟨"w", [.directory "a" [.file "b.py" none, .directory "b" [.file "__init__.py" none]]]⟩

theorem root_twins : Root.ofPath twins "a" = ⟨"a", none, ["a/b.py", "a/b/__init__.py"]⟩ := by
  have hfind : twins.find "a" =
      .directory [.file "b.py" none, .directory "b" [.file "__init__.py" none]] :=
    twins.find_eq_follow (by decide) (by decide +kernel)
  refine ofPath_directory _ (by decide +kernel) hfind ?_ ?_
  · simp only [Disk.isFile, Disk.find, Path.split_eq]
    decide +kernel
  · simp only [filesBelow]
    decide +kernel

theorem contributions_twins (entries : List String) : ∃ f g,
    contributions twins none entries none ["a"] = [f, g] ∧ f.filename = "a/b.py" ∧
      Path.relative twins.here f.filename f.base = "b.py" ∧ g.filename = "a/b/__init__.py" ∧
      Path.relative twins.here g.filename g.base = "b/__init__.py" := by
  have hbase : suggestedBase twins "a" = none := by
    rw [suggestedBase, root_twins]
    rfl
  have hfile : Path.relative ["w"] "a/b.py" "a" = "b.py" := by
    simp only [Path.relative, Path.absolute, Path.components, Path.split_eq]
    decide +kernel
  have hinit : Path.relative ["w"] "a/b/__init__.py" "a" = "b/__init__.py" := by
    simp only [Path.relative, Path.absolute, Path.components, Path.split_eq]
    decide +kernel
  rw [contributions, contributions, hbase, filesOf, root_twins]
  exact ⟨_, _, rfl, rfl, hfile, rfl, hinit⟩

theorem package_eq_iff_isTwin_collected : ∃ (m n : ModulePlace) (fs : FileSet) (f g : SourceFile),
    m.path = "b.py" ∧ n.path = "b/__init__.py" ∧
      (PackageName.ofPath m.path).dotname ≠ (PackageName.ofPath n.path).dotname ∧
      collect twins ⟨none, none, none⟩ ["a"] = .ok fs ∧ f.filename = "a/b.py" ∧
      g.filename = "a/b/__init__.py" ∧ fs.get? f.package = some g ∧
      (IsTwin m.path n.path ∨ IsTwin n.path m.path) := by
  let m : ModulePlace := ⟨[], "b", by decide⟩
  let n : ModulePlace := ⟨["b"], "__init__", by decide⟩
  have htwin : IsTwin m.path n.path := ModulePlace.isTwin_path_iff.mpr ⟨by decide, rfl, rfl⟩
  obtain ⟨hdotname, hpackage, hcollected⟩ :=
    package_eq_iff_isTwin m n (by decide) (by decide) (by decide)
  obtain ⟨fs, hfs⟩ : ∃ fs, collect twins ⟨none, none, none⟩ ["a"] = .ok fs :=
    ⟨_, collect_eq_ok.mpr ⟨none, rfl, rfl⟩⟩
  obtain ⟨f, g, hfiles, hf, hfpath, hg, hgpath⟩ :=
    contributions_twins (Options.entryPackages ⟨none, none, none⟩)
  have hmpath : m.path = "b.py" := by decide
  have hnpath : n.path = "b/__init__.py" := by decide
  have hfmem : f ∈ contributions twins none _ none ["a"] := hfiles ▸ List.mem_cons_self
  have hgmem : g ∈ contributions twins none _ none ["a"] :=
    hfiles ▸ List.mem_cons_of_mem _ (List.mem_singleton_self g)
  have hsame : f.package = g.package := by
    rw [SourceFile.package, SourceFile.package, names_of_mem_contributions hfmem,
      names_of_mem_contributions hgmem, hfpath, hgpath, ← hmpath, ← hnpath]
    exact hpackage.mpr (.inl htwin)
  have hget : fs.get? f.package = some g := by
    rw [get?_collect hfs rfl, hfiles]
    simp [hsame]
  exact ⟨m, n, fs, f, g, hmpath, hnpath, hdotname, hfs, hf, hg, hget,
    hcollected twins _ ["a"] fs none f g hfs rfl hfmem hget (hfpath.trans hmpath.symm)
      (hgpath.trans hnpath.symm)⟩

end ScopeLint
