import ScopeLint.Command
import ScopeLint.Proofs.Usage.Framework
import ScopeLint.Proofs.Usage.Uses

/-! What a search for unused names prints. It marks first and reports afterwards, so the reports follow
from the marks alone. A name is reported when it has an entry in its module, has not been marked and is
not one of the names that are never reported. The names that are marked are those that a file uses or
that a framework uses. -/

namespace ScopeLint

namespace Usage

/-! ### Marks -/

/-- The marks are the names that the files use, and those that a framework uses. -/
theorem has_iff {fs : FileSet} {framework : Option WebApp.Options} {σ : Session} {u : Unit}
    (h : (Command.markUsed fs framework).run .start = (.ok u, σ)) {p n : String} :
    σ.used.has p n = true ↔ (∃ e ∈ fs.files, FileUses fs e.1 e.2 p n) ∨
      ∃ options, framework = some options ∧ WebApp.Uses fs options p n := by
  obtain ⟨v, mid, hfiles, hframework⟩ := run_bind_ok h
  have hmid : mid.used.has p n = true ↔ ∃ e ∈ fs.files, FileUses fs e.1 e.2 p n := by
    rw [markAll_marks fs _ _ _ hfiles p n]
    simp [Session.start, Used.has_none]
  cases framework with
  | none =>
    cases hframework
    simp [hmid]
  | some options =>
    rw [WebApp.markAll_marks.marks mid u σ hframework, hmid]
    simp

/-- Whoever else marks, a name that a file uses is marked in the end. -/
theorem has_of_uses {fs : FileSet} {framework : Option WebApp.Options} {σ : Session} {u : Unit}
    (h : (Command.markUsed fs framework).run .start = (.ok u, σ)) {p n : String}
    (hu : ∃ e ∈ fs.files, FileUses fs e.1 e.2 p n) : σ.used.has p n = true :=
  (has_iff h).mpr (Or.inl hu)

/-- Without a framework the marks are the names that the files use. -/
theorem has_iff_uses {fs : FileSet} {σ : Session} {u : Unit}
    (h : (Command.markUsed fs none).run .start = (.ok u, σ)) {p n : String} :
    σ.used.has p n = true ↔ ∃ e ∈ fs.files, FileUses fs e.1 e.2 p n := by
  rw [has_iff h]
  simp

/-- What is used in a project is used in a larger one too, if the imports lead to the same modules. -/
theorem has_of_within {fs fs' : FileSet} (h : fs.Within fs')
    (hmodule : ∀ e ∈ fs.files, ∀ node, importedModule fs' e.2 node = importedModule fs e.2 node)
    {framework : Option WebApp.Options} {σ σ' : Session} {u u' : Unit}
    (hrun : (Command.markUsed fs framework).run .start = (.ok u, σ))
    (hrun' : (Command.markUsed fs' framework).run .start = (.ok u', σ')) {p n : String}
    (hused : σ.used.has p n = true) : σ'.used.has p n = true := by
  rw [has_iff hrun']
  obtain ⟨e, he, hu⟩ | ⟨options, hframework, hu⟩ := (has_iff hrun).mp hused
  · exact Or.inl ⟨e, h.mem e he, hu.mono h (hmodule e he)⟩
  · exact Or.inr ⟨options, hframework, hu.mono h⟩

/-! ### Reports -/

/-- What is printed about an unused name of a module. -/
structure Report where
  package : String
  name : String
  line : String
deriving DecidableEq

def globalLine (file : SourceFile) (place role name : String) : String :=
  file.filename ++ ":" ++ place ++ ": " ++ role ++ " " ++ name ++ " is never used (globally)"

/-- The report on an entry of a module, if there is one. It tells the line of the first occurrence. -/
def report? (used : Used) (package : String) (file : SourceFile) : Atom × List Site → Option Report
  | (.str n, first :: _) =>
    if used.has package n || ignoredNames.contains n then none
    else first.tree.lineText.toOption.map fun place =>
      ⟨package, n, globalLine file place first.tree.role n⟩
  | _ => none

theorem report?_cons (used : Used) (package : String) (file : SourceFile) (n : String) (first : Site)
    (rest : List Site) : report? used package file (.str n, first :: rest) =
      if used.has package n || ignoredNames.contains n then none
      else first.tree.lineText.toOption.map fun place =>
        ⟨package, n, globalLine file place first.tree.role n⟩ := rfl

theorem report?_nil (used : Used) (package : String) (file : SourceFile) (a : Atom) :
    report? used package file (a, []) = none := by
  cases a <;> rfl

/-- The reports on a file. -/
def fileReports (used : Used) (package : String) (file : SourceFile) : List Report :=
  match file.moduleScope with
  | .ok s => s.entries.filterMap (report? used package file)
  | .error _ => []

/-- The reports on a project in which some names are used. -/
def unusedReports (fs : FileSet) (used : Used) : List Report :=
  fs.sorted.flatMap fun e => fileReports used e.1 e.2

/-- While some names are used, a run prints reports. When it completes it has printed all of them. -/
def Reports (used : Used) (r : Run Unit) (reports : List Report) : Prop :=
  ∀ σ result σ', σ.used = used → r.run σ = (result, σ') → ∃ told, told <+: reports ∧
    σ' = { σ with lines := σ.lines ++ told.map Report.line } ∧ (result = .ok () → told = reports)

variable {used : Used}

theorem Reports.pure : Reports used (Pure.pure ()) [] := by
  intro σ result σ' _ h
  cases h
  exact ⟨[], List.nil_prefix, by simp, fun _ => rfl⟩

theorem Reports.append {r : Run Unit} {g : Unit → Run Unit} {some more : List Report}
    (hr : Reports used r some) (hg : Reports used (g ()) more) : Reports used (r >>= g) (some ++ more) := by
  intro σ result σ' hσ h
  rcases run_bind_cases h with ⟨u, mid, hfirst, hsecond⟩ | ⟨e, hfirst, rfl⟩
  · obtain ⟨told, -, rfl, htold⟩ := hr σ _ mid hσ hfirst
    obtain ⟨rest, hstarts, rfl, hrest⟩ :=
      hg { σ with lines := σ.lines ++ told.map Report.line } result σ' hσ hsecond
    obtain rfl := htold rfl
    refine ⟨told ++ rest, (List.prefix_append_right_inj _).mpr hstarts, by simp, fun hok => ?_⟩
    rw [hrest hok]
  · obtain ⟨told, hstarts, rfl, -⟩ := hr σ _ σ' hσ hfirst
    exact ⟨told, hstarts.trans (List.prefix_append _ _), rfl, fun hok => nomatch hok⟩

theorem Reports.forM {β : Type} {l : List β} {g : β → Run Unit} {reports : β → List Report}
    (hg : ∀ b ∈ l, Reports used (g b) (reports b)) :
    Reports used (l.forM g) (l.flatMap reports) := by
  induction l with
  | nil => exact Reports.pure
  | cons b l ih =>
    have hl := ih fun c hc => hg c (List.mem_cons_of_mem _ hc)
    exact (hg b List.mem_cons_self).append hl

theorem Reports.throw (fault : Fault) (reports : List Report) :
    Reports used (MonadExcept.throw fault) reports := by
  intro σ result σ' _ h
  cases h
  exact ⟨[], List.nil_prefix, by simp, fun hok => nomatch hok⟩

theorem Reports.lift {α : Type} {e : Except Fault α} {g : α → Run Unit} {reports : List Report}
    (hg : ∀ a, e = .ok a → Reports used (g a) reports) : Reports used (Run.lift e >>= g) reports := by
  cases e with
  | ok a => exact hg a rfl
  | error fault => exact Reports.throw fault reports

theorem Reports.get {g : Session → Run Unit} {reports : List Report}
    (hg : ∀ τ : Session, τ.used = used → Reports used (g τ) reports) :
    Reports used (MonadState.get >>= g) reports :=
  fun σ result σ' hσ h => hg σ hσ σ result σ' hσ h

theorem Reports.print (package name line : String) :
    Reports used (Run.print line) [⟨package, name, line⟩] := by
  intro σ result σ' _ h
  cases h
  exact ⟨_, List.prefix_rfl, rfl, fun _ => rfl⟩

/-- What was declared global without being a name has no occurrences. -/
theorem sites_of_mem_entries {s : Scope} {a : Atom} {sites : List Site} (h : (a, sites) ∈ s.entries) :
    (∃ n, a = .str n) ∨ sites = [] := by
  have hstray (k : Nat) (h : (a, sites) ∈ s.straysAt k) : sites = [] := by
    obtain ⟨⟨i, b⟩, -, heq⟩ := List.mem_filterMap.mp h
    dsimp only at heq
    split_ifs at heq
    cases heq
    rfl
  rcases List.mem_append.mp h with h | h
  · obtain ⟨⟨⟨n, t⟩, k⟩, -, h⟩ := List.mem_flatMap.mp h
    rcases List.mem_append.mp h with h | h
    · exact Or.inr (hstray k h)
    · cases List.mem_singleton.mp h
      exact Or.inl ⟨n, rfl⟩
  · exact Or.inr (hstray _ h)

theorem reportName_reports {package : String} {file : SourceFile} {s : Scope} {a : Atom}
    {sites : List Site} (he : (a, sites) ∈ s.entries) :
    Reports used (reportName package file a sites) (report? used package file (a, sites)).toList := by
  apply Reports.get
  intro τ hτ
  rw [hτ]
  cases sites with
  | nil =>
    rw [report?_nil]
    split_ifs
    · exact Reports.throw _ _
    · exact Reports.pure
  | cons first rest =>
    obtain ⟨n, rfl⟩ : ∃ n, a = .str n :=
      (sites_of_mem_entries he).resolve_right (List.cons_ne_nil _ _)
    have hcond : (!used.contains package ⟨.str n, none⟩ && !ignoredNames.contains (Atom.str n).text) =
        !(used.has package n || ignoredNames.contains n) := by
      rw [Bool.not_or]
      rfl
    rw [hcond, report?_cons]
    cases used.has package n || ignoredNames.contains n with
    | true => exact Reports.pure
    | false =>
      show Reports used (Run.lift first.tree.lineText >>= fun place => Run.print _) _
      apply Reports.lift
      intro place hplace
      rw [hplace]
      exact Reports.print package n _

/-- The reports are those on the unused names, in order. -/
theorem reportUnused_reports (fs : FileSet) (used : Used) :
    Reports used (reportUnused fs) (unusedReports fs used) := by
  apply Reports.forM
  rintro ⟨package, file⟩ _
  apply Reports.lift
  intro s hs
  unfold fileReports
  rw [hs]
  show Reports used _ (s.entries.filterMap (report? used package file))
  rw [List.filterMap_eq_flatMap_toList]
  apply Reports.forM
  rintro ⟨a, sites⟩ he
  exact reportName_reports he

/-- What a search prints while it marks. -/
def markingLines (fs : FileSet) (framework : Option WebApp.Options) : List String :=
  ((Command.markUsed fs framework).run .start).2.lines

/-- What a search reports after it has marked. When the marking fails it reports nothing. -/
def found (fs : FileSet) (framework : Option WebApp.Options) : List Report :=
  match (Command.markUsed fs framework).run .start with
  | (.ok (), σ) => unusedReports fs σ.used
  | (.error _, _) => []

/-- The lines of a search are those of the marking and then its reports. Only a fault cuts them short. -/
theorem globalUsage_lines (fs : FileSet) (framework : Option WebApp.Options) :
    ∃ told, told <+: found fs framework ∧
      (Command.globalUsage fs framework).lines = markingLines fs framework ++ told.map Report.line ∧
      ((Command.globalUsage fs framework).fault = none → told = found fs framework) := by
  unfold Command.globalUsage markingLines found
  rcases (Command.markUsed fs framework).run .start with ⟨r, σ⟩
  cases r with
  | error fault => exact ⟨[], List.nil_prefix, by simp, fun _ => rfl⟩
  | ok u =>
    rcases hreport : (reportUnused fs).run σ with ⟨r, σ'⟩
    obtain ⟨told, hstarts, rfl, htold⟩ := reportUnused_reports fs σ.used σ r σ' rfl hreport
    refine ⟨told, hstarts, ?_, fun hfault => htold ?_⟩
    · cases r <;> simp [hreport, Command.Outcome.ofRun]
    · cases r with
      | ok v => rfl
      | error fault => simp [hreport, Command.Outcome.ofRun] at hfault

theorem found_eq {fs : FileSet} {framework : Option WebApp.Options}
    (h : (Command.globalUsage fs framework).fault = none) :
    ∃ σ, (Command.markUsed fs framework).run .start = (.ok (), σ) ∧
      found fs framework = unusedReports fs σ.used := by
  unfold Command.globalUsage at h
  unfold found
  rcases hmark : (Command.markUsed fs framework).run .start with ⟨r, σ⟩
  rw [hmark] at h
  cases r with
  | error fault => cases h
  | ok u => exact ⟨σ, rfl, rfl⟩

/-- A report is on a file of the project, under the package of that file. -/
theorem exists_of_mem_unusedReports {fs : FileSet} {used : Used} {r : Report}
    (h : r ∈ unusedReports fs used) :
    ∃ e ∈ fs.files, r.package = e.1 ∧ r ∈ fileReports used e.1 e.2 := by
  obtain ⟨e, he, hr⟩ := List.mem_flatMap.mp h
  refine ⟨e, List.mem_mergeSort.mp he, ?_, hr⟩
  unfold fileReports at hr
  split at hr
  · obtain ⟨entry, -, hentry⟩ := List.mem_filterMap.mp hr
    unfold report? at hentry
    split at hentry
    · split_ifs at hentry
      obtain ⟨place, -, rfl⟩ := Option.map_eq_some_iff.mp hentry
      rfl
    · cases hentry
  · cases hr

theorem mem_unusedReports {fs : FileSet} {used : Used} {r : Report} {e : String × SourceFile}
    (he : e ∈ fs.files) (hr : r ∈ fileReports used e.1 e.2) : r ∈ unusedReports fs used :=
  List.mem_flatMap.mpr ⟨e, List.mem_mergeSort.mpr he, hr⟩

/-- The marks decide which of all possible reports are made. -/
theorem unusedReports_eq_filter (fs : FileSet) (used : Used) : unusedReports fs used =
    (unusedReports fs .none).filter fun r => !used.has r.package r.name := by
  have hreport (package : String) (file : SourceFile) (e : Atom × List Site) :
      report? used package file e =
        (report? .none package file e).filter fun r => !used.has r.package r.name := by
    obtain ⟨a, sites⟩ := e
    cases sites with
    | nil =>
      rw [report?_nil, report?_nil]
      rfl
    | cons first rest =>
      cases a with
      | str n =>
        rw [report?_cons, report?_cons, Used.has_none]
        cases ignoredNames.contains n with
        | true => simp
        | false => cases hused : used.has package n <;> cases first.tree.lineText <;>
            simp [Except.toOption, Option.filter, hused]
      | _ => rfl
  unfold unusedReports
  rw [List.filter_flatMap]
  congr 1
  funext e
  unfold fileReports
  cases e.2.moduleScope with
  | error _ => rfl
  | ok s =>
    show s.entries.filterMap _ = (s.entries.filterMap _).filter _
    rw [List.filter_filterMap]
    congr 1
    funext entry
    exact hreport e.1 e.2 entry

end Usage

end ScopeLint
