import ScopeLint.Proofs.Scope.Imports
import ScopeLint.Proofs.Scope.Stars
import ScopeLint.Proofs.Tree.Sample
import ScopeLint.Proofs.Usage.Unused

/-! Names that a file takes out of a star import. A name that a class, a function or a lambda of the file
reads, and that no scope of the file binds, counts as used in the module that it is imported from. A name
that the file reads outside of all these does not. -/

namespace ScopeLint

namespace Tree

/-- The statement that imports everything from a module. -/
def starImport (s s' : Span) (module level : Tree) : Tree :=
  .node .importFrom s [module, .list [.node .importAlias s' [.atom (.str "*"), .null]], level]

/-- A name is read at a site to which the visit comes, and no scope of the file binds it there. -/
structure LooksUp (t : Tree) (n : String) (y : Site) : Prop where
  read : y.tree.isRead = true
  name : y.tree.identifier? = some n
  reached : isReached y.edges = true
  free : ∀ i < t.log.size, ∀ o ∈ pasts [] ((t.log.record i).sites n), o.2.path = y.path →
    t.log.Free i n o.1

instance (t : Tree) (n : String) (y : Site) : Decidable (t.LooksUp n y) :=
  decidable_of_iff (y.tree.isRead = true ∧ y.tree.identifier? = some n ∧ isReached y.edges = true ∧
      ∀ i < t.log.size, ∀ o ∈ pasts [] ((t.log.record i).sites n), o.2.path = y.path →
        t.log.Free i n o.1)
    ⟨fun ⟨h₁, h₂, h₃, h₄⟩ => ⟨h₁, h₂, h₃, h₄⟩, fun ⟨h₁, h₂, h₃, h₄⟩ => ⟨h₁, h₂, h₃, h₄⟩⟩

/-- A name that is read is met in some scope, and there it is free. -/
theorem LooksUp.exists_free {t : Tree} {n : String} {y : Site} (h : t.LooksUp n y) (hy : y ∈ t.sites)
    (hp : t.IsProgram) {f : Forest} (hf : t.scopes = .ok f) :
    ∃ i past x, (past, x) ∈ pasts [] ((t.log.record i).sites n) ∧ t.log.Free i n past := by
  obtain ⟨g, hg, -⟩ := except_bind_ok hf
  obtain ⟨-, -, hg⟩ := except_bind_ok hg
  obtain ⟨w, hrun, -⟩ := except_bind_ok hg
  have hkind : y.tree.isKind .name = true := by
    have hread := h.read
    rw [isRead, beq_iff_eq] at hread
    exact isKind_of_nameContext? hread
  have hmention : y.tree.isMention = true := isOneOf_iff.mpr ⟨.name, by simp, hkind⟩
  obtain ⟨i, m, x, hx, hlabel, hpath, -⟩ := hp.met hrun hy hmention h.reached
  obtain rfl : m = n := by
    have hname := h.name
    rw [identifier?, if_pos hkind] at hname
    rw [label?, if_pos hkind, hname] at hlabel
    exact (Option.some.inj hlabel).symm
  obtain ⟨past, hpast⟩ := exists_past hx
  exact ⟨i, past, x, hpast, h.free i (Log.lt_size_of_mem_sites hx) (past, x) hpast hpath⟩

end Tree

namespace Usage

variable {fs : FileSet} {file : SourceFile} {t : Tree} {m n : String}

/-- A file imports everything from the file of a package, in a statement outside all inner scopes. -/
inductive ImportsAll (fs : FileSet) (file : SourceFile) (t : Tree) (m : String) : Prop
  | intro {trail : Trail} {s s' : Span} {module level target : Tree}
    (hstmt : Tree.Holds .start t ⟨trail, .starImport s s' module level⟩)
    (hfuture : module ≠ .atom (.str "__future__"))
    (hm : importedModule fs file (.starImport s s' module level) = .ok target)
    (hfind : fs.find? target = .ok (some m))

/-- A file that is no entry point uses the names that it looks up, out of all that it imports. -/
theorem ImportsAll.uses (h : ImportsAll fs file t m) (hp : t.IsProgram) (package : String)
    (hentry : file.isEntry = false) {f : Forest} (hscopes : file.scopes = .ok f)
    (hf : t.scopes = .ok f) {source : SourceFile} {l : Literal} (hsource : fs.get m = .ok source)
    (hoffers : source.offers = .ok l) (hn : l.lists n = true) {y : Site} (hy : y ∈ t.sites)
    (hlook : t.LooksUp n y) : FileUses fs package file m n := by
  obtain ⟨hstmt, hfuture, hm, hfind⟩ := h
  obtain ⟨hreal, -⟩ := Tree.visit_of_scopes hp.module hp.one_module hf
  have hzero : 0 < f.size := by rw [hreal.size]; exact hreal.proper.pos
  obtain ⟨scope, hs⟩ := Forest.scope?_eq_some hzero
  have hsite := hp.mem_imports hf hs hstmt rfl fun h => hfuture (Option.some.inj h)
  have hstars : scope.hasStars = true := by
    rw [hreal.stars 0 scope hs]
    obtain ⟨-, items, hitems, htold⟩ := hp.imports_told hf hs hsite
    cases hitems
    obtain ⟨-, hstars⟩ | ⟨name, _, hb, hne, -⟩ := htold _ List.mem_cons_self
    · exact hstars
    · cases hb
      exact absurd rfl hne
  obtain ⟨i, past, x, hpast, hfree⟩ := hlook.exists_free hy hp hf
  have huse := hp.isUse_starSites hf hs hstars hpast hfree
  have hwalk : 0 ∈ f.walk 0 :=
    (hreal.nested.mem_walk hzero hzero).mpr (hreal.nested.mem_enclosing_self hzero)
  refine .imported hscopes hwalk hs hsite (.star ?_ ?_)
  · exact ⟨rfl, ⟨_, hm, hfind⟩, ⟨_, rfl, _, List.mem_cons_self, rfl⟩, source, l, hsource, hoffers, hn⟩
  · rw [takesFromStar, hentry]
    exact huse

/-- A name that is used by a file is not reported. -/
theorem not_found_of_uses {framework : Option WebApp.Options}
    (h : ∃ e ∈ fs.files, FileUses fs e.1 e.2 m n) :
    ∀ r ∈ found fs framework, r.package = m → r.name ≠ n := by
  rintro r hr rfl rfl
  unfold found at hr
  rcases hmark : (Command.markUsed fs framework).run .start with ⟨e | u, σ⟩
  · rw [hmark] at hr
    cases hr
  · rw [hmark] at hr
    have hr : r ∈ unusedReports fs σ.used := hr
    rw [unusedReports_eq_filter, List.mem_filter, has_of_uses hmark h] at hr
    exact Bool.false_ne_true hr.2

open Sample in
/-- A file imports everything from another one. It reads the name `b` of the other file somewhere. -/
def readerProject (reading : Tree) : FileSet :=
  ⟨[fileOf "a" [importFrom "m" "*" 1 0, reading],
    fileOf "m" [assign "b" (constant (.int 1) 1 4) 1 0, assign "c" (constant (.int 2) 2 4) 2 0]]⟩

theorem sorted_readerProject (reading : Tree) :
    (readerProject reading).sorted = (readerProject reading).files := by
  apply List.mergeSort_of_pairwise
  refine .cons ?_ (List.pairwise_singleton _ _)
  intro e he
  rw [List.mem_singleton.mp he]
  show decide ("a" ≤ "m") = true
  decide

end Usage

end ScopeLint
