import ScopeLint.Proofs.Usage.Accepted
import ScopeLint.Proofs.Usage.Unused

/-! The order in which files are collected. Both analyses go through the files by package, and look others
up by package too. A framework goes through them in the order in which they were collected, but it prints
nothing, and what it uses does not depend on the order. -/

namespace ScopeLint.Usage

variable {fs fs' : FileSet}

/-- The marking of what files use depends on a set of files only by what is found in it. -/
theorem markAll_congr (hsorted : fs.sorted = fs'.sorted) (hget : fs.get? = fs'.get?)
    (hcontains : fs.contains = fs'.contains) : markAll fs = markAll fs' := by
  have hfind : fs.find? = fs'.find? := funext fun t => find?_congr (congrFun hcontains) t
  have hget (package : String) : fs.get package = fs'.get package := by
    unfold FileSet.get
    rw [hget]
  have hmodule (file : SourceFile) (node : Tree) :
      importedModule fs file node = importedModule fs' file node := by
    unfold importedModule
    rw [hcontains]
  have hfile (package : String) (file : SourceFile) :
      markFile fs package file = markFile fs' package file := by
    unfold markFile markImports markImportFrom markNames markStar markMembers markImport
    simp only [hmodule, hfind, hget, hcontains]
  unfold markAll
  simp only [hsorted, hfile]

section Perm

variable (h : fs.files.Perm fs'.files) (hnodup : (fs.files.map Prod.fst).Nodup)

include h hnodup

theorem markAll_of_perm : markAll fs = markAll fs' :=
  markAll_congr (FileSet.sorted_of_perm h hnodup) (FileSet.get?_of_perm h hnodup)
    (FileSet.contains_of_perm h)

/-- All that is used in one order is used in the other. -/
theorem has_of_perm {framework : Option WebApp.Options} {σ σ' : Session} {u u' : Unit}
    (hrun : (Command.markUsed fs framework).run .start = (.ok u, σ))
    (hrun' : (Command.markUsed fs' framework).run .start = (.ok u', σ')) {p n : String}
    (hused : σ.used.has p n = true) : σ'.used.has p n = true := by
  refine has_of_within (FileSet.within_of_perm h hnodup) (fun e _ node => ?_) hrun hrun' hused
  unfold importedModule
  rw [FileSet.contains_of_perm h]

end Perm

theorem unusedReports_of_sorted (hsorted : fs.sorted = fs'.sorted) (used : Used) :
    unusedReports fs used = unusedReports fs' used := by
  unfold unusedReports
  rw [hsorted]

/-- A framework prints nothing. -/
theorem markingLines_eq {framework : Option WebApp.Options} {u : Unit} {σ : Session}
    (hrun : (Command.markUsed fs framework).run .start = (.ok u, σ)) :
    markingLines fs framework = ((markAll fs).run .start).2.lines := by
  unfold markingLines
  rw [hrun]
  obtain ⟨v, mid, hfiles, hframework⟩ := run_bind_ok hrun
  rw [hfiles]
  cases framework with
  | none =>
    cases hframework
    rfl
  | some options => exact WebApp.markAll_marks.quiet mid u σ hframework

/-- The order in which the files were collected changes nothing in what is printed. -/
theorem analyses_of_perm (h : fs.files.Perm fs'.files) (hnodup : (fs.files.map Prod.fst).Nodup) :
    (∀ σ, (checkLocal fs).run σ = (checkLocal fs').run σ) ∧
    Command.globalUsage fs none = Command.globalUsage fs' none ∧
    ∀ options, (Command.globalUsage fs (some options)).fault = none →
      (Command.globalUsage fs' (some options)).fault = none →
      (Command.globalUsage fs (some options)).lines = (Command.globalUsage fs' (some options)).lines := by
  have hsorted := FileSet.sorted_of_perm h hnodup
  have hmarks := markAll_of_perm h hnodup
  refine ⟨fun σ => ?_, ?_, fun options hfault hfault' => ?_⟩
  · unfold checkLocal
    rw [hsorted]
  · have hmark : Command.markUsed fs none = Command.markUsed fs' none := by
      show (markAll fs >>= fun _ => pure ()) = (markAll fs' >>= fun _ => pure ())
      rw [hmarks]
    unfold Command.globalUsage reportUnused
    rw [hmark, hsorted]
  · obtain ⟨told, -, hlines, htold⟩ := globalUsage_lines fs (some options)
    obtain ⟨told', -, hlines', htold'⟩ := globalUsage_lines fs' (some options)
    obtain ⟨σ, hrun, hfound⟩ := found_eq hfault
    obtain ⟨σ', hrun', hfound'⟩ := found_eq hfault'
    have hhas (r : Report) : σ.used.has r.package r.name = σ'.used.has r.package r.name := by
      have hnodup' := (h.map Prod.fst).nodup_iff.mp hnodup
      rw [Bool.eq_iff_iff]
      exact ⟨has_of_perm h hnodup hrun hrun', has_of_perm h.symm hnodup' hrun' hrun⟩
    have hreports : found fs (some options) = found fs' (some options) := by
      rw [hfound, hfound', unusedReports_eq_filter, unusedReports_eq_filter fs',
        unusedReports_of_sorted hsorted]
      simp only [hhas]
    rw [hlines, hlines', htold hfault, htold' hfault', hreports, markingLines_eq hrun,
      markingLines_eq hrun', hmarks]

open Sample in
/-- A file imports everything from another one and a name from a third one. -/
def collectedFiles : List (String × List Tree) :=
  [("a", [importFrom "m" "*" 1 0, importFrom "k" "c" 2 0]),
    ("k", [assign "c" (constant (.int 1) 1 4) 1 0, assign "d" (constant (.int 2) 2 4) 2 0]),
    ("m", [assign "b" (constant (.int 3) 1 4) 1 0])]

/-- The files in two orders, with a framework that is searched for. -/
theorem analyses_of_perm_reversed :
    let fs := Sample.project collectedFiles
    let fs' := Sample.project collectedFiles.reverse
    fs.files.map Prod.fst ≠ fs'.files.map Prod.fst ∧
    (Command.globalUsage fs (some ⟨none, none⟩)).fault = none ∧
    (Command.globalUsage fs' (some ⟨none, none⟩)).fault = none ∧
    (∀ σ, (checkLocal fs).run σ = (checkLocal fs').run σ) ∧
    Command.globalUsage fs none = Command.globalUsage fs' none ∧
    (Command.globalUsage fs (some ⟨none, none⟩)).lines =
      (Command.globalUsage fs' (some ⟨none, none⟩)).lines := by
  intro fs fs'
  have hperm : fs.files.Perm fs'.files := by
    apply List.Perm.map
    exact (List.reverse_perm collectedFiles).symm
  have hfault : (Command.globalUsage fs (some ⟨none, none⟩)).fault = none :=
    globalUsage_project (by decide +kernel) (by decide +kernel) (by decide +kernel) (by decide +kernel)
      (by decide)
  have hfault' : (Command.globalUsage fs' (some ⟨none, none⟩)).fault = none :=
    globalUsage_project (by decide +kernel) (by decide +kernel) (by decide +kernel) (by decide +kernel)
      (by decide)
  obtain ⟨hlocal, hglobal, hlines⟩ := analyses_of_perm hperm (by decide)
  exact ⟨by decide, hfault, hfault', hlocal, hglobal, hlines _ hfault hfault'⟩

end ScopeLint.Usage
