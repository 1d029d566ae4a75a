import ScopeLint.Proofs.Tree.Sample
import ScopeLint.Proofs.Usage.Unused

/-! Making a file an entry point. It then uses what it exports, so fewer names should be reported. This
fails in one way: an entry point takes out of a star import what it exports itself, and no longer what it
uses, so a name that it only uses gets reported. -/

namespace ScopeLint

/-- A file as an entry point or not. -/
def SourceFile.withEntry (file : SourceFile) (b : Bool) : SourceFile := { file with isEntry := b }

namespace FileSet

/-- The file of a package as an entry point or not. -/
def entryAs (e : String) (b : Bool) (x : String × SourceFile) : String × SourceFile :=
  (x.1, x.2.withEntry (if x.1 = e then b else x.2.isEntry))

def setEntry (fs : FileSet) (e : String) (b : Bool) : FileSet := ⟨fs.files.map (entryAs e b)⟩

variable (fs : FileSet) (e : String) (b : Bool)

@[simp] theorem contains_setEntry (p : String) : (fs.setEntry e b).contains p = fs.contains p := by
  simp only [contains, setEntry, List.any_map]
  rfl

theorem get?_setEntry (p : String) : (fs.setEntry e b).get? p =
    (fs.get? p).map fun file => (entryAs e b (p, file)).2 := by
  have hkeys (x : String × SourceFile) : (entryAs e b x).1 = x.1 := rfl
  exact lookup_map hkeys fs.files p

theorem sorted_setEntry : (fs.setEntry e b).sorted = fs.sorted.map (entryAs e b) := by
  unfold sorted setEntry
  rw [List.map_mergeSort]
  intro x _ y _
  rfl

end FileSet

namespace Usage

variable {fs : FileSet} {e : String} {b : Bool} {file : SourceFile} {m n : String}

/-! ### What does not depend on the entry points -/

theorem importedModule_setEntry (c : Bool) (node : Tree) :
    importedModule (fs.setEntry e b) (file.withEntry c) node = importedModule fs file node := by
  unfold importedModule
  simp only [FileSet.contains_setEntry]
  rfl

theorem unusedReports_setEntry (used : Used) :
    unusedReports (fs.setEntry e b) used = unusedReports fs used := by
  unfold unusedReports
  rw [FileSet.sorted_setEntry, List.flatMap_map]
  rfl

theorem brings_setEntry {c : Bool} {node : Tree} :
    Brings (fs.setEntry e b) (file.withEntry c) node m n ↔ Brings fs file node m n := by
  have hfind : ∀ t, (fs.setEntry e b).find? t = fs.find? t :=
    find?_congr fun p => FileSet.contains_setEntry fs e b p
  have hoffered : (∃ source l, (fs.setEntry e b).get m = .ok source ∧ source.offers = .ok l ∧
      l.lists n = true) ↔ ∃ source l, fs.get m = .ok source ∧ source.offers = .ok l ∧
        l.lists n = true := by
    unfold FileSet.get
    rw [FileSet.get?_setEntry]
    cases fs.get? m with
    | none => rfl
    | some source => exact ⟨fun ⟨_, l, rfl, hl⟩ => ⟨source, l, rfl, hl⟩, fun ⟨_, l, rfl, hl⟩ => ⟨_, l, rfl, hl⟩⟩
  constructor
  · rintro ⟨hk, hmodule, hstar, hoff⟩
    simp only [importedModule_setEntry, hfind] at hmodule
    exact ⟨hk, hmodule, hstar, hoffered.mp hoff⟩
  · rintro ⟨hk, hmodule, hstar, hoff⟩
    refine ⟨hk, ?_, hstar, hoffered.mpr hoff⟩
    simpa only [importedModule_setEntry, hfind] using hmodule

/-! ### What an entry point no longer uses -/

/-- A file uses a name that a star import brings into one of its scopes, and has exports of its own that
do not list the name. -/
inductive Hides (fs : FileSet) (e m n : String) : Prop
  | intro {file : SourceFile} {f : Forest} {i : Nat} {s : Scope} {site : Site} {own : Literal}
    (hfile : (e, file) ∈ fs.files) (hf : file.scopes = .ok f) (hi : i ∈ f.walk 0)
    (hs : f.scope? i = some s) (hsite : site ∈ s.imports) (hb : Brings fs file site.tree m n)
    (hu : ((s.starSites n).any fun x => x.tree.isUse) = true)
    (ho : file.exports = .ok (some own)) (ht : own.truth = true) (hn : own.lists n = false) :
    Hides fs e m n

theorem exports_of_not_takes {s : Scope} (h : ¬takesFromStar (file.withEntry true) s n = true) :
    ∃ own, file.exports = .ok (some own) ∧ own.truth = true ∧ own.lists n = false := by
  have hentry : (file.withEntry true).isEntry = true := rfl
  have hexports : (file.withEntry true).exports = file.exports := rfl
  rw [takesFromStar, if_pos hentry, hexports] at h
  split at h
  next own ho => exact ⟨own, ho, by simpa using h⟩
  next => exact absurd rfl h

/-- What a file uses, it uses also when another set of files are the entry points, unless its exports hide
it. -/
theorem FileUses.setEntry {x : String × SourceFile} (hx : x ∈ fs.files)
    (h : FileUses (fs.setEntry e false) x.1 (FileSet.entryAs e false x).2 m n) :
    FileUses (fs.setEntry e true) x.1 (FileSet.entryAs e true x).2 m n ∨ Hides fs e m n := by
  obtain ⟨package, file⟩ := x
  cases h with
  | own hs hn hu => exact Or.inl (.own hs hn hu)
  | entry he hl hn =>
    refine Or.inl (.entry ?_ hl hn)
    -- Only a file that stays as it is was an entry point before.
    by_cases hp : package = e <;> simp_all [FileSet.entryAs, SourceFile.withEntry]
  | @imported f i s site _ _ hf hi hs hsite hu =>
    have huse : ImportUses (fs.setEntry e true) (FileSet.entryAs e true (package, file)).2 s
        site.tree m n ∨ Hides fs e m n := by
      refine hu.transfer (fun p hp => ?_) ?_ fun hb ht => ?_
      · rwa [FileSet.contains_setEntry] at hp ⊢
      · exact (importedModule_setEntry _ _).trans (importedModule_setEntry _ _).symm
      · have hbrings : Brings fs file site.tree m n := brings_setEntry.mp hb
        by_cases htakes : takesFromStar (FileSet.entryAs e true (package, file)).2 s n = true
        · exact Or.inl (.star (brings_setEntry.mpr hbrings) htakes)
        · right
          obtain rfl : package = e := by
            by_contra hp
            simp only [FileSet.entryAs, hp, if_false] at ht htakes
            exact htakes ht
          simp only [FileSet.entryAs, if_true] at ht htakes
          have huse : ((s.starSites n).any fun x => x.tree.isUse) = true := ht
          obtain ⟨l, ho, htruth, hlists⟩ := exports_of_not_takes htakes
          exact .intro hx hf hi hs hsite hbrings huse ho htruth hlists
    exact huse.imp_left fun hu => .imported hf hi hs hsite hu

open Sample in
/-- A file imports everything from another one. It exports a function `f` that uses the name `b` of the
other file. -/
def starProject : FileSet :=
  ⟨[fileOf "a" [exports "f" 1, importFrom "m" "*" 2 0,
      function "f" [returned (name .load "b" 4 11) 4 4] 3 0],
    fileOf "m" [exports "b" 1, assign "b" (constant (.int 1) 2 4) 2 0]]⟩

theorem sorted_starProject (b : Bool) :
    (starProject.setEntry "a" b).sorted = (starProject.setEntry "a" b).files := by
  apply List.mergeSort_of_pairwise
  cases b <;> decide

theorem fault_starProject (b : Bool) :
    (Command.globalUsage (starProject.setEntry "a" b) none).fault = none := by
  unfold Command.globalUsage Command.markUsed markAll reportUnused
  rw [sorted_starProject]
  cases b <;> decide +kernel

end Usage

end ScopeLint
