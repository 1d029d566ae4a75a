import ScopeLint.Command
import ScopeLint.Proofs.Scope.Entries
import ScopeLint.Proofs.Tree.Sample
import ScopeLint.Proofs.Usage.Completion

/-! On which source texts the analyses come to their end. The check of names within files does so exactly
where every name that is declared global occurs at the module. For the search through a whole project it
is enough that further no inner scope imports what it declares global, and that no package ends in a
star. -/

namespace ScopeLint

/-- A file with the tree of a source text that can be visited, of which the exports, if it tells them in a
way that is understood, are a list of names. -/
structure SourceFile.IsAccepted (file : SourceFile) (t : Tree) (f : Forest) : Prop where
  tree : file.tree = .ok t
  source : t.IsSource
  scopes : file.scopes = .ok f
  visited : t.scopes = .ok f
  exports : ∀ l, file.exports = .ok (some l) → l.isNames = true

namespace SourceFile.IsAccepted

variable {file : SourceFile} {t : Tree} {f : Forest} {i : Nat} {s : Scope}

theorem realizes (h : file.IsAccepted t f) : f.Realizes t.log :=
  (Tree.visit_of_scopes h.source.module h.source.isProgram.one_module h.visited).1

theorem module (h : file.IsAccepted t f) : ∃ s, f.scope? 0 = some s ∧ s.isModule = true := by
  have hzero : 0 < f.size := by rw [h.realizes.size]; exact h.realizes.proper.pos
  obtain ⟨s, hs⟩ := Forest.scope?_eq_some hzero
  exact ⟨s, hs, (h.realizes.isModule_iff hs).mpr rfl⟩

theorem sites_stand (h : file.IsAccepted t f) (hs : f.scope? i = some s) :
    ∀ e ∈ s.names, ∀ x ∈ e.2, x.Stands ∧ x.tree.isOneOf Kind.occurring = true := by
  intro e he x hx
  have hperm := h.source.perm_of_entry h.visited hs he
  exact h.source.log_stands.of_mem_ownedBy (hperm.mem_iff.mp hx)

/-- Only the module looks for its exports, and where no entry is empty it finds them or finds that there
are none. -/
theorem exports_ok (h : file.IsAccepted t f) (hg : t.log.globalsOccur = true)
    (hs : f.scope? i = some s) : ∃ e, s.exports = .ok e ∧ ∀ l, e.value = some l → l.isNames = true := by
  by_cases hm : s.isModule = true
  · have hfound : ∃ e, s.exports = .ok e := by
      rw [Scope.exports, if_neg (by simp [hm])]
      split
      next => exact ⟨_, rfl⟩
      next hget => exact absurd rfl (h.source.entry_ne_nil h.visited hg hs (Table.mem_of_get? hget))
      next x rest hget =>
        exact Exports.ofSite_ok (h.sites_stand hs _ (Table.mem_of_get? hget) x List.mem_cons_self).1
    obtain rfl := (h.realizes.isModule_iff hs).mp hm
    obtain ⟨e, he⟩ := hfound
    refine ⟨e, he, fun l hl => h.exports l ?_⟩
    rw [Usage.exports_of (moduleScope_eq h.scopes hs) he, hl]
  · refine ⟨⟨some (.list []), false⟩, ?_, fun l hl => ?_⟩
    · rw [Scope.exports, if_pos (by simp [hm])]
    · cases hl
      rfl

theorem checkable (h : file.IsAccepted t f) (hg : t.log.globalsOccur = true) : f.Checkable :=
  ⟨h.module, fun _ _ hs => ⟨h.source.no_strays h.visited hs,
    fun _ he => h.source.entry_ne_nil h.visited hg hs he, h.sites_stand hs, h.exports_ok hg hs⟩⟩

theorem searchable (h : file.IsAccepted t f) (hg : t.log.globalsOccur = true)
    (hi : t.log.importsStay = true) : f.Searchable := by
  refine ⟨h.checkable hg, fun i s hs x hx => ?_, fun i s hs x hx => ?_⟩
  · obtain ⟨hmet, -⟩ := h.source.isProgram.imports_told h.visited hs hx
    exact h.source.events_stand _ hmet
  · exact h.source.import_key h.visited hi hs hx

end SourceFile.IsAccepted

/-- Whether a module is a source text that can be visited, with a list of names as its exports, if it has
some that are understood. -/
def Tree.isAccepted (t : Tree) : Bool :=
  t.isKind .module && t.every isSourceNode && t.scopes.toOption.any fun f =>
    (f.scope? 0).all fun s => s.exports.toOption.all fun e => e.value.all Literal.isNames

theorem Sample.accepted_project {files : List (String × List Tree)}
    (h : (files.all fun e => (Sample.module e.2).isAccepted) = true) :
    ∀ e ∈ (Sample.project files).files, ∃ t f, e.2.IsAccepted t f := by
  intro e he
  obtain ⟨⟨package, body⟩, hmem, rfl⟩ := List.mem_map.mp he
  have hbody := List.all_eq_true.mp h _ hmem
  rw [Tree.isAccepted, Bool.and_eq_true, Bool.and_eq_true] at hbody
  obtain ⟨⟨hm, hnodes⟩, hscopes⟩ := hbody
  obtain ⟨f, hf, hexports⟩ := except_any_ok hscopes
  refine ⟨Sample.module body, f, rfl, ⟨hm, hnodes⟩, hf, hf, fun l hl => ?_⟩
  obtain ⟨s, hs, hl⟩ := except_bind_ok hl
  obtain ⟨e, he, hvalue⟩ := except_bind_ok hl
  obtain ⟨g, hg, hzero⟩ := Usage.moduleScope_ok hs
  obtain rfl : g = f := Except.ok.inj (hg.symm.trans hf)
  rw [hzero, Option.all_some, he] at hexports
  have hnames : e.value.all Literal.isNames = true := hexports
  rw [Except.ok.inj hvalue] at hnames
  exact hnames

/-! ### Frameworks -/

namespace WebApp

/-- Whether a file has neither an application configuration nor definitions that may be registered. -/
def isBare (file : SourceFile) : Bool :=
  file.moduleScope.toOption.any fun s => (s.names.get? "default_app_config").isNone &&
    s.entries.all fun e => e.2.head?.any fun site => !site.tree.isDefinition

theorem markWithin_ends (fs : FileSet) (part : String) (names : List String) :
    (markWithin fs part names).Ends :=
  .forM fun _ _ => .ite (fun _ => .markTexts _ _) fun _ => .pure trivial

/-- Without settings and urlconfs, a framework has nothing to stumble over in such files. -/
theorem markAll_ends {fs : FileSet} (h : ∀ e ∈ fs.files, isBare e.2 = true) :
    (markAll fs ⟨none, none⟩).Ends := by
  have hbare : ∀ e ∈ fs.files, ∃ s, e.2.moduleScope = .ok s ∧ s.names.get? "default_app_config" = none ∧
      ∀ entry ∈ s.entries, ∃ site rest, entry.2 = site :: rest ∧ site.tree.isDefinition = false := by
    intro e he
    obtain ⟨s, hs, hs'⟩ := except_any_ok (h e he)
    rw [Bool.and_eq_true, Option.isNone_iff_eq_none, List.all_eq_true] at hs'
    refine ⟨s, hs, hs'.1, fun entry hentry => ?_⟩
    have hfirst := hs'.2 entry hentry
    cases hsites : entry.2 with
    | nil => simp [hsites] at hfirst
    | cons site rest => exact ⟨site, rest, rfl, by simpa [hsites] using hfirst⟩
  have hsettings : ((settingsFile? fs ⟨none, none⟩).forM (markSettings fs)).Ends := .pure trivial
  have hviews : (markViews fs ⟨none, none⟩).Ends := fun σ => ⟨(), σ, rfl, trivial⟩
  have hconfigs : (fs.files.forM fun e => markAppConfig fs e.1 e.2).Ends := by
    refine .forM fun e he => ?_
    obtain ⟨s, hs, hnone, -⟩ := hbare e he
    refine .of_lift hs ?_
    rw [hnone]
    exact .pure trivial
  have hregistered : (fs.files.forM fun e => markRegistered e.1 e.2).Ends := by
    refine .forM fun e he => ?_
    obtain ⟨s, hs, -, hentries⟩ := hbare e he
    refine .of_lift hs (.forM fun entry hentry => ?_)
    obtain ⟨site, rest, hsites, hdef⟩ := hentries entry hentry
    dsimp only
    rw [hsites]
    refine (Run.Completes.pure (P := (· = site)) rfl).bind ?_
    rintro _ rfl
    rw [hdef]
    exact .pure trivial
  unfold markAll
  exact hsettings.bind fun _ _ => hviews.bind fun _ _ => hconfigs.bind fun _ _ =>
    (markWithin_ends fs _ _).bind fun _ _ => (markWithin_ends fs _ _).bind fun _ _ => hregistered

end WebApp

/-! ### Whole projects -/

namespace FileSet

/-- Whether a test holds of every tree of a project. -/
def allTrees (fs : FileSet) (p : Tree → Bool) : Bool := fs.files.all fun e => e.2.tree.toOption.all p

theorem allTrees_iff {fs : FileSet} {p : Tree → Bool} :
    fs.allTrees p = true ↔ ∀ e ∈ fs.files, ∀ t, e.2.tree = .ok t → p t = true := by
  rw [allTrees, List.all_eq_true]
  refine forall₂_congr fun e _ => ?_
  cases e.2.tree with
  | error fault => simp [Except.toOption]
  | ok t => simp [Except.toOption]

/-- In every file, every name that is declared global occurs at the module. -/
def globalsOccur (fs : FileSet) : Bool := fs.allTrees fun t => t.log.globalsOccur

/-- In no file, an inner scope imports what it declares global. -/
def importsStay (fs : FileSet) : Bool := fs.allTrees fun t => t.log.importsStay

end FileSet

namespace Run

variable {β : Type} {σ σ' : Session}

/-- A loop that completes has completed every turn. -/
theorem forM_ok {l : List β} {g : β → Run PUnit} {u : PUnit} (h : (l.forM g).run σ = (.ok u, σ')) :
    ∀ b ∈ l, ∃ v σ₁ σ₂, (g b).run σ₁ = (.ok v, σ₂) := by
  induction l generalizing σ with
  | nil => exact fun b hb => nomatch hb
  | cons c l ih =>
    obtain ⟨v, mid, hc, hl⟩ := run_bind_ok h
    intro b hb
    rcases List.mem_cons.mp hb with rfl | hb
    · exact ⟨v, σ, mid, hc⟩
    · exact ih hl b hb

end Run

namespace Usage

variable {fs : FileSet} {file : SourceFile} {t : Tree} {f : Forest} {i : Nat} {s : Scope}

/-- A check that completes has met no empty entry. -/
theorem entry_ne_nil_of_checkFile (h : file.IsAccepted t f) {u : Unit} {σ σ' : Session}
    (hrun : (checkFile file).run σ = (.ok u, σ')) (hs : f.scope? i = some s) :
    ∀ e ∈ s.names, e.2 ≠ [] := by
  intro e he
  obtain ⟨-, g, hg, htells⟩ := checkFile_ok hrun
  obtain rfl : g = f := Except.ok.inj (hg.symm.trans h.scopes)
  refine htells.sites (i, .str e.1, e.2) (List.mem_flatMap.mpr ⟨i, ?_, ?_⟩)
  · exact h.realizes.mem_walk (Forest.lt_size hs)
  · rw [hs]
    refine List.mem_map.mpr ⟨(.str e.1, e.2), ?_, rfl⟩
    rw [Scope.entries_of_no_strays (h.source.no_strays h.visited hs)]
    exact List.mem_map.mpr ⟨e, he, rfl⟩

/-- The check of names within files completes exactly where every name declared global occurs. -/
theorem checkLocal_iff (h : ∀ e ∈ fs.files, ∃ t f, e.2.IsAccepted t f) :
    (∃ σ, (checkLocal fs).run .start = (.ok (), σ)) ↔ fs.globalsOccur = true := by
  constructor
  · rintro ⟨σ, hrun⟩
    refine FileSet.allTrees_iff.mpr fun e he t ht => ?_
    obtain ⟨t', f, hacc⟩ := h e he
    obtain rfl : t' = t := Except.ok.inj (hacc.tree.symm.trans ht)
    obtain ⟨s, hs, -⟩ := hacc.module
    obtain ⟨u, σ₁, σ₂, hfile⟩ := Run.forM_ok hrun e (List.mem_mergeSort.mpr he)
    exact hacc.source.globalsOccur_of_entries hacc.visited hs (entry_ne_nil_of_checkFile hacc hfile hs)
  · intro hg
    have hends : (checkLocal fs).Ends := by
      refine .forM fun e he => ?_
      have hmem := List.mem_mergeSort.mp he
      obtain ⟨t, f, hacc⟩ := h e hmem
      exact checkFile_ends hacc.scopes (hacc.checkable (FileSet.allTrees_iff.mp hg e hmem t hacc.tree))
    obtain ⟨u, σ, hrun, -⟩ := hends .start
    exact ⟨σ, hrun⟩

theorem searchable_of_accepted (h : ∀ e ∈ fs.files, ∃ t f, e.2.IsAccepted t f) (hg : fs.globalsOccur = true)
    (hi : fs.importsStay = true) (hstar : fs.hasNoStar = true) : fs.Searchable := by
  refine ⟨fun e he => ?_, hstar⟩
  obtain ⟨t, f, hacc⟩ := h e he
  exact ⟨f, hacc.scopes, hacc.searchable (FileSet.allTrees_iff.mp hg e he t hacc.tree)
    (FileSet.allTrees_iff.mp hi e he t hacc.tree)⟩

theorem globalUsage_ends {framework : Option WebApp.Options} (h : fs.Searchable)
    (hframework : (framework.forM (WebApp.markAll fs)).Ends) :
    (Command.globalUsage fs framework).fault = none := by
  have hmarks : (Command.markUsed fs framework).Ends := (markAll_ends h).bind fun _ _ => hframework
  obtain ⟨u, σ, hmarked, -⟩ := hmarks .start
  obtain ⟨v, σ', hreported, -⟩ := reportUnused_ends h σ
  unfold Command.globalUsage
  rw [hmarked]
  dsimp only
  rw [hreported]
  rfl

theorem globalUsage_completes (h : fs.Searchable) : (Command.globalUsage fs none).fault = none :=
  globalUsage_ends h (.pure trivial)

/-- Small programs of which a search with a framework comes to its end. -/
theorem globalUsage_project {files : List (String × List Tree)}
    (haccepted : (files.all fun e => (Sample.module e.2).isAccepted) = true)
    (hbare : ((Sample.project files).files.all fun e => WebApp.isBare e.2) = true)
    (hg : (Sample.project files).globalsOccur = true) (hi : (Sample.project files).importsStay = true)
    (hstar : (Sample.project files).hasNoStar = true) :
    (Command.globalUsage (Sample.project files) (some ⟨none, none⟩)).fault = none :=
  globalUsage_ends (searchable_of_accepted (Sample.accepted_project haccepted) hg hi hstar)
    (WebApp.markAll_ends (List.all_eq_true.mp hbare))

/-- On source texts that can be visited, the check of names within files completes exactly where every
name declared global occurs at its module. Where further no inner scope imports what it declares global
and no package ends in a star, no entry of a scope is empty, all that an import statement binds is a key
of its scope, and the search through the whole project completes. -/
theorem analyses_complete (fs : FileSet) (h : ∀ e ∈ fs.files, ∃ t f, e.2.IsAccepted t f) :
    ((∃ σ, (checkLocal fs).run .start = (.ok (), σ)) ↔ fs.globalsOccur = true) ∧
    (fs.globalsOccur = true → fs.importsStay = true → fs.hasNoStar = true →
      (∀ e ∈ fs.files, ∃ f, e.2.scopes = .ok f ∧ ∀ i s, f.scope? i = some s →
        (∀ entry ∈ s.entries, entry.2 ≠ []) ∧ s.KnowsImports) ∧
      (Command.globalUsage fs none).fault = none) := by
  refine ⟨checkLocal_iff h, fun hg hi hstar => ?_⟩
  have hsearch := searchable_of_accepted h hg hi hstar
  refine ⟨fun e he => ?_, globalUsage_completes hsearch⟩
  obtain ⟨f, hf, hready⟩ := hsearch.files e he
  refine ⟨f, hf, fun i s hs => ⟨?_, hready.keys i s hs⟩⟩
  rw [Scope.entries_of_no_strays (hready.scopes i s hs).strays]
  intro entry hentry
  obtain ⟨d, hd, rfl⟩ := List.mem_map.mp hentry
  exact (hready.scopes i s hs).entries d hd

open Sample in
/-- A file counts in a function what it finds in another file. -/
def counterProject : FileSet :=
  project [("a", [exports "f" 1, importStmt "m" 2 0, assign "count" (constant (.int 0) 3 8) 3 0,
      function "f" [global "count" 5 4, assign "count" (name .load "m" 6 12) 6 4] 4 0]),
    ("m", [assign "b" (constant (.int 1) 1 4) 1 0])]

theorem analyses_complete_counter :
    (∀ e ∈ counterProject.files, ∃ t f, e.2.IsAccepted t f) ∧ counterProject.globalsOccur = true ∧
    counterProject.importsStay = true ∧ counterProject.hasNoStar = true ∧
    (∃ σ, (checkLocal counterProject).run .start = (.ok (), σ)) ∧
    (Command.globalUsage counterProject none).fault = none := by
  have haccepted : ∀ e ∈ counterProject.files, ∃ t f, e.2.IsAccepted t f :=
    Sample.accepted_project (by decide +kernel)
  have hglobals : counterProject.globalsOccur = true := by decide +kernel
  have himports : counterProject.importsStay = true := by decide +kernel
  have hstar : counterProject.hasNoStar = true := by decide
  obtain ⟨hlocal, hglobal⟩ := analyses_complete counterProject haccepted
  exact ⟨haccepted, hglobals, himports, hstar, hlocal.mpr hglobals,
    (hglobal hglobals himports hstar).2⟩

open Sample in
/-- A function declares a name global that occurs nowhere. -/
def idleGlobal : FileSet := project [("m", [function "f" [global "x" 2 4] 1 0])]

open Sample in
/-- A function imports a module under a name that it declares global. -/
def globalImport : FileSet :=
  project [("a", [function "f" [global "m" 2 4, importStmt "m" 3 4] 1 0]),
    ("m", [assign "x" (constant (.int 1) 1 4) 1 0])]

open Sample in
/-- A file imports everything from a package, next to a file that is called after a star. -/
def starPackage : FileSet := project [("q", []), ("q.*", []), ("q.a", [importFrom "q" "*" 1 0])]

/-- None of the three conditions can be left out. -/
theorem accepted_analyses_fail :
    ((∀ e ∈ idleGlobal.files, ∃ t f, e.2.IsAccepted t f) ∧
      (Command.Outcome.ofRun ((checkLocal idleGlobal).run .start) none).fault = some .noEntry) ∧
    ((∀ e ∈ globalImport.files, ∃ t f, e.2.IsAccepted t f) ∧ globalImport.globalsOccur = true ∧
      globalImport.hasNoStar = true ∧
      (Command.globalUsage globalImport none).fault = some (.missingName "m")) ∧
    (∀ e ∈ starPackage.files, ∃ t f, e.2.IsAccepted t f) ∧ starPackage.globalsOccur = true ∧
      starPackage.importsStay = true ∧
      (Command.globalUsage starPackage none).fault = some (.missingName "*") := by
  have hidle : idleGlobal.sorted = idleGlobal.files := List.mergeSort_singleton _
  have himport : globalImport.sorted = globalImport.files := by
    apply List.mergeSort_of_pairwise
    decide
  have hstar : starPackage.sorted = starPackage.files := by
    apply List.mergeSort_of_pairwise
    decide
  refine ⟨⟨Sample.accepted_project (by decide +kernel), ?_⟩,
    ⟨Sample.accepted_project (by decide +kernel), by decide +kernel, by decide, ?_⟩,
    Sample.accepted_project (by decide +kernel), by decide +kernel, by decide +kernel, ?_⟩
  · unfold checkLocal
    rw [hidle]
    decide +kernel
  · unfold Command.globalUsage Command.markUsed markAll
    rw [himport]
    decide +kernel
  · unfold Command.globalUsage Command.markUsed markAll
    rw [hstar]
    decide +kernel

end Usage

end ScopeLint
