import ScopeLint.Proofs.Scope.Imports
import ScopeLint.Proofs.Tree.Sample
import ScopeLint.Proofs.Usage.Unused

/-! Adding a file to a project. Where all imports are absolute, the other files use all that they used
before, and so does a framework. So there is no new report on any of them. -/

namespace ScopeLint

namespace SourceFile

/-- A file that asks for absolute imports, in a statement outside all its inner scopes. -/
inductive IsAbsolute (file : SourceFile) : Prop
  | intro {t item : Tree} {x : Site} {items : List Tree} (hp : t.IsProgram)
    (hscopes : file.scopes = t.scopes) (hx : Tree.Holds .start t x)
    (hk : x.tree.isKind .importFrom = true)
    (hm : x.tree.get? "module" = some (.atom (.str "__future__")))
    (hi : importedItems x.tree = .ok items) (hitem : item ∈ items)
    (hn : item.get "name" = .ok (.atom (.str "absolute_import"))) : IsAbsolute file

theorem IsAbsolute.future {file : SourceFile} (h : file.IsAbsolute) {s : Scope}
    (hs : file.moduleScope = .ok s) :
    s.future.any (Atom.valueEq (.str "absolute_import")) = true := by
  obtain ⟨hp, hscopes, hx, hk, hm, hi, hitem, hn⟩ := h
  obtain ⟨f, hf, hzero⟩ := Usage.moduleScope_ok hs
  exact hp.mem_future (hscopes.symm.trans hf) hzero hx hk hm hi hitem hn

/-- Where an absolute import leads to does not depend on the other files. -/
theorem IsAbsolute.importedModule_eq {file : SourceFile} (h : file.IsAbsolute) (fs fs' : FileSet)
    (node : Tree) : importedModule fs' file node = importedModule fs file node := by
  unfold importedModule
  cases hs : file.moduleScope with
  | error fault => rfl
  | ok s =>
    have hfuture : (!s.future.any (Atom.valueEq (.str "absolute_import"))) = false := by
      rw [h.future hs]
      rfl
    simp only [bind, Except.bind, hfuture, Bool.false_eq_true, if_false]

end SourceFile

namespace Usage

section Projects

open Sample

theorem isAbsolute_fileOf {package : String} {body : List Tree}
    (hp : (module (importFrom "__future__" "absolute_import" 1 0 :: body)).IsProgram) :
    (fileOf package (importFrom "__future__" "absolute_import" 1 0 :: body)).2.IsAbsolute :=
  .intro hp rfl (.field (i := 0) (Or.inl rfl) List.mem_cons_self rfl (.self _ _)) rfl rfl rfl
    List.mem_cons_self rfl

/-- Two files with absolute imports. One of them imports a name of the other. -/
def absoluteFiles : List (String × List Tree) :=
  [("a", [importFrom "__future__" "absolute_import" 1 0, importFrom "m" "b" 2 0]),
    ("m", [importFrom "__future__" "absolute_import" 1 0, assign "b" (constant (.int 1) 2 4) 2 0,
      assign "c" (constant (.int 2) 3 4) 3 0, assign "d" (constant (.int 3) 4 4) 4 0])]

/-- A third file imports another name. -/
def addedFile : String × List Tree := ("z", [importFrom "m" "c" 1 0])

theorem insert_addedFile : (project absoluteFiles).insert (fileOf addedFile.1 addedFile.2).2 =
    project (absoluteFiles ++ [addedFile]) := by
  unfold FileSet.insert
  rw [if_neg (by decide)]
  rfl

end Projects

end Usage

end ScopeLint
