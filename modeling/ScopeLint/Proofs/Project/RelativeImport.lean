import ScopeLint.Project.Import
import ScopeLint.Proofs.Text.Parts

/-! Relative imports. The name of a file is its path with points, and the package of a file is this name,
without the last part if it is `__init__`. An import that goes some levels up from a file and some parts
down from there is resolved on the name of the file alone. It gives the package of the file that lies there,
and the same one from all files of a directory. -/

namespace ScopeLint

/-! ### Parts of names -/

/-- A part of a name: it is not empty and has no point, no slash and no line break. -/
def IsPart (s : String) : Prop := s ≠ "" ∧ '.' ∉ s.toList ∧ '/' ∉ s.toList ∧ '\n' ∉ s.toList

instance (s : String) : Decidable (IsPart s) := inferInstanceAs (Decidable (_ ∧ _))

variable {parts : List String} {s ending : String}

theorem exists_intercalate (separator : String) (hne : parts ≠ []) (h : ∀ p ∈ parts, IsPart p) :
    ∃ c cs, (separator.intercalate parts).toList = c :: cs ∧ c ≠ '.' := by
  obtain ⟨p, parts, rfl⟩ := List.exists_cons_of_ne_nil hne
  obtain ⟨hsome, hpoint, -⟩ := h p List.mem_cons_self
  obtain ⟨c, cs, hp⟩ := List.exists_cons_of_ne_nil (by simpa using hsome : p.toList ≠ [])
  have hc : c ≠ '.' := by
    rintro rfl
    exact hpoint (by simp [hp])
  cases parts with
  | nil => exact ⟨c, cs, by rw [String.intercalate_singleton, hp], hc⟩
  | cons q parts =>
    refine ⟨c, cs ++ separator.toList ++ (separator.intercalate (q :: parts)).toList, ?_, hc⟩
    simp only [String.intercalate_cons_cons, String.toList_append, hp, List.cons_append]

/-- Points in the place of the slashes between parts give a dotted name, for there are no other slashes. -/
theorem map_slash_intercalate (h : ∀ p ∈ parts, IsPart p) :
    ("/".intercalate parts).toList.map (fun c => if c = '/' then '.' else c) =
      (".".intercalate parts).toList := by
  have hkept : ∀ p ∈ parts, p.toList.map (fun c => if c = '/' then '.' else c) = p.toList := by
    intro p hp
    refine (List.map_congr_left fun c hc => if_neg ?_).trans p.toList.map_id
    rintro rfl
    exact (h p hp).2.2.1 hc
  clear h
  induction parts with
  | nil => rfl
  | cons p parts ih =>
    obtain ⟨hp, hrest⟩ := List.forall_mem_cons.mp hkept
    cases parts with
    | nil => rwa [String.intercalate_singleton, String.intercalate_singleton]
    | cons q parts =>
      simp only [String.intercalate_cons_cons, String.toList_append, List.map_append, hp, ih hrest]
      rfl

/-! ### Endings -/

theorem dropEnding_append (s ending : String) : dropEnding ending (s ++ ending) = s := by
  simp [dropEnding, List.isSuffixOf_iff_suffix, ← String.length_toList]

theorem dropEnding_of_not_suffix (h : ¬ ending.toList <:+ s.toList) (hline : '\n' ∉ s.toList) :
    dropEnding ending s = s := by
  have hlast : s.toList.getLast? ≠ some '\n' := fun hlast => hline (List.mem_of_getLast? hlast)
  simp [dropEnding, List.isSuffixOf_iff_suffix, h, hlast]

/-! ### Names of files -/

theorem PackageName.dotname_ofPath {path : String} (h : ∀ rest, path.toList ≠ '.' :: '/' :: rest) :
    (ofPath path).dotname =
      String.ofList ((dropEnding ".py" path).toList.map fun c => if c = '/' then '.' else c) := by
  unfold ofPath
  dsimp only
  split
  next rest hrest => exact absurd hrest (h rest)
  next => rfl

theorem PackageName.package_ofPath (path : String) :
    (ofPath path).package = dropEnding ".__init__" (ofPath path).dotname := by
  unfold ofPath
  dsimp only

/-- A program file by the directories on the way to it and by its name without the ending. -/
structure ModulePlace where
  directories : List String
  name : String
  isPart : ∀ p ∈ directories ++ [name], IsPart p

namespace ModulePlace

variable (m : ModulePlace)

def path : String := "/".intercalate (m.directories ++ [m.name ++ ".py"])

/-- The parts of the package. The file `__init__` stands for its directory. -/
def components : List String :=
  if m.name = "__init__" then m.directories else m.directories ++ [m.name]

theorem components_subset : m.components ⊆ m.directories ++ [m.name] := by
  unfold components
  split_ifs
  · exact List.subset_append_left _ _
  · exact List.Subset.refl _

theorem path_eq : m.path = "/".intercalate (m.directories ++ [m.name]) ++ ".py" := by
  by_cases hdirs : m.directories = []
  · simp [path, hdirs]
  · rw [path, String.intercalate_append_of_ne_nil hdirs (List.cons_ne_nil _ _),
      String.intercalate_append_of_ne_nil hdirs (List.cons_ne_nil _ _)]
    simp [String.append_assoc]

theorem dotname_path :
    (PackageName.ofPath m.path).dotname = ".".intercalate (m.directories ++ [m.name]) := by
  have hplain : ∀ rest, m.path.toList ≠ '.' :: '/' :: rest := by
    intro rest hrest
    obtain ⟨c, cs, hc, hpoint⟩ := exists_intercalate "/" (by simp) m.isPart
    rw [path_eq, String.toList_append, hc] at hrest
    exact hpoint (List.cons.inj hrest).1
  rw [PackageName.dotname_ofPath hplain, path_eq, dropEnding_append, map_slash_intercalate m.isPart,
    String.ofList_toList]

theorem package_path (h : m.components ≠ []) :
    (PackageName.ofPath m.path).package = ".".intercalate m.components := by
  rw [PackageName.package_ofPath, dotname_path]
  unfold components at h ⊢
  split_ifs at h ⊢ with hinit
  · rw [hinit, String.intercalate_append_of_ne_nil h (List.cons_ne_nil _ _), String.intercalate_singleton,
      String.append_assoc]
    exact dropEnding_append _ _
  · apply dropEnding_of_not_suffix
    · -- The ending would make `__init__` the last part of the name.
      rintro ⟨front, hfront⟩
      have hname : ".".intercalate (m.directories ++ [m.name]) =
          String.ofList front ++ "." ++ "__init__" := by
        apply String.toList_injective
        simp [← hfront]
      have hparts := Text.dottedParts_intercalate (by simp) fun p hp => (m.isPart p hp).2.1
      rw [hname, Text.dottedParts_append (by decide)] at hparts
      have hlast := List.append_inj_right' hparts rfl
      exact hinit (List.cons.inj hlast).1.symm
    · exact Text.not_mem_intercalate (by decide) fun p hp => (m.isPart p hp).2.2.2

end ModulePlace

/-! ### Resolved imports -/

/-- The module of an import statement, given by its parts. -/
def moduleTree (parts : List String) : Tree :=
  if parts = [] then .null else .atom (.str (".".intercalate parts))

theorem relativeModule_moduleTree (dotname : String) (level : Int) (h : ∀ p ∈ parts, IsPart p) :
    relativeModule dotname (moduleTree parts) level =
      .ok (".".intercalate (ancestors dotname level ++ parts)) := by
  by_cases hne : parts = []
  · rw [hne, List.append_nil]
    rfl
  · obtain ⟨c, cs, hc, -⟩ := exists_intercalate "." hne h
    have hsome : ".".intercalate parts ≠ "" := by
      intro hempty
      rw [hempty] at hc
      cases hc
    simp [moduleTree, hne, relativeModule, hsome, Text.intercalate_append_intercalate _ _ hne]

theorem ancestors_intercalate {directories : List String} {name : String} {level : Nat}
    (h : ∀ p ∈ directories ++ [name], IsPart p) (hlevel : 1 ≤ level) :
    ancestors (".".intercalate (directories ++ [name])) level =
      directories.take (directories.length - (level - 1)) := by
  rw [ancestors, Text.dottedParts_intercalate (by simp) fun p hp => (h p hp).2.1, if_neg (by simp),
    Int.natAbs_natCast, List.length_append, List.length_singleton,
    List.take_append_of_le_length (by omega)]
  congr 1
  omega

/-- Where an import statement has a level, its module is found from the name of the file alone. -/
theorem importedModule_of_level {fs : FileSet} {file : SourceFile} {t module : Tree} {level : Int}
    (hlevel : t.get "level" = .ok (.atom (.int level))) (hmodule : t.get "module" = .ok module)
    (hne : level ≠ 0) : importedModule fs file t =
      (relativeModule file.dotname module level).map fun name => .atom (.str name) := by
  have htruth : (Tree.atom (.int level)).truth = true := by simpa [Tree.truth, Atom.truth] using hne
  unfold importedModule
  rw [hlevel, hmodule]
  dsimp only [bind, Except.bind]
  rw [if_pos htruth]
  dsimp only [importLevel]
  cases relativeModule file.dotname module level <;> rfl

/-- An import from the file that lies some levels up and some parts down gives the package of this file. It
does so from each file of the directory that the levels are counted from. -/
theorem importedModule_eq_package {source target : ModulePlace} {level : Nat} (hlevel : 1 ≤ level)
    (hle : level ≤ source.directories.length)
    (htarget : source.directories.take (source.directories.length - (level - 1)) ++ parts =
      target.components) (fs : FileSet) (span : Span) (names : Tree) (m : ModulePlace)
    (hm : m.directories = source.directories) (file : SourceFile) (hfile : file.names = .ofPath m.path) :
    importedModule fs file (.node .importFrom span [moduleTree parts, names, .atom (.int level)]) =
      .ok (.atom (.str (PackageName.ofPath target.path).package)) := by
  have hne : target.components ≠ [] := by
    rw [← htarget]
    refine List.append_ne_nil_of_left_ne_nil ?_ _
    rw [← List.length_pos_iff, List.length_take]
    omega
  have hparts : ∀ p ∈ parts, IsPart p := by
    intro p hp
    have hmem : p ∈ target.components := htarget ▸ List.mem_append_right _ hp
    exact target.isPart p (target.components_subset hmem)
  have hmodule : relativeModule file.dotname (moduleTree parts) level =
      .ok (PackageName.ofPath target.path).package := by
    rw [relativeModule_moduleTree _ _ hparts, SourceFile.dotname, hfile, m.dotname_path,
      ancestors_intercalate m.isPart hlevel, hm, htarget, target.package_path hne]
  rw [importedModule_of_level rfl rfl (by omega), hmodule]
  rfl

namespace ModulePlace

def inPackage : ModulePlace := ⟨["a", "b"], "c", by decide⟩

def ofPackage : ModulePlace := ⟨["a", "b"], "__init__", by decide⟩

def otherPackage : ModulePlace := ⟨["a", "d"], "__init__", by decide⟩

end ModulePlace

/-- From `a.b.c`, and so from the package `a.b` itself, two levels up and down to the package `d`. -/
theorem importedModule_eq_package_two_up :
    ModulePlace.inPackage.directories.take (ModulePlace.inPackage.directories.length - (2 - 1)) ++ ["d"] =
        ModulePlace.otherPackage.components ∧
      ModulePlace.otherPackage.path = "a/d/__init__.py" ∧
      (PackageName.ofPath ModulePlace.otherPackage.path).package = "a.d" ∧
      ∀ m ∈ [ModulePlace.inPackage, ModulePlace.ofPackage],
        importedModule ⟨[]⟩ ⟨".", m.path, false, .ofPath m.path, .error .unparseable, .error .unparseable⟩
          (.node .importFrom .absent [.atom (.str "d"), .list [], .atom (.int 2)]) =
          .ok (.atom (.str (PackageName.ofPath ModulePlace.otherPackage.path).package)) := by
  have htarget : ModulePlace.inPackage.directories.take (ModulePlace.inPackage.directories.length - (2 - 1)) ++
      ["d"] = ModulePlace.otherPackage.components := by decide
  refine ⟨htarget, by decide, by rw [ModulePlace.package_path _ (by decide)]; decide, ?_⟩
  intro m hm
  have hdirs : m.directories = ModulePlace.inPackage.directories := by
    rcases List.mem_pair.mp hm with rfl | rfl <;> rfl
  exact importedModule_eq_package (by decide) (by decide) htarget ⟨[]⟩ .absent (.list []) m hdirs _ rfl

end ScopeLint
