import ScopeLint.Proofs.Project.FileSet
import ScopeLint.Proofs.Tree.Grammar
import ScopeLint.Proofs.Usage.Marks
import ScopeLint.Usage.Global

/-! The ways in which the files of a project use names, each as a rule of its own, and that the search
marks exactly the names that one of these rules gives. -/

namespace ScopeLint

/-! ### Exports -/

/-- Whether a name is among the items of a literal. -/
def Literal.lists (l : Literal) (n : String) : Bool :=
  match l.items with
  | .ok items => items.any fun
    | .atom a => a == .str n
    | .list _ => false
  | .error _ => false

namespace SourceFile

/-- What a file says that it exports. -/
def exports (file : SourceFile) : Except Fault (Option Literal) := do
  return (← (← file.moduleScope).exports).value

/-- The names that a star import of a file brings: what it exports, or else those of its names that do
not start with an underscore. -/
def offers (file : SourceFile) : Except Fault Literal := do
  match ← file.exports with
  | some l => return l
  | none => return Usage.literalNames (← (← file.scopes).implicitExports 0)

/-- The names that an entry point makes known: what it exports, if that is not empty, or else those of its
names that do not start with an underscore. -/
def published (file : SourceFile) : Except Fault Literal := do
  match ← file.exports with
  | some l => if l.truth then return l else return Usage.literalNames (← (← file.scopes).implicitExports 0)
  | none => return Usage.literalNames (← (← file.scopes).implicitExports 0)

end SourceFile

namespace Usage

variable {n : String}

@[simp] theorem lists_literalNames (names : List String) :
    (literalNames names).lists n = true ↔ n ∈ names := by
  simp [literalNames, Literal.lists, Literal.items]

theorem names_exportMarks {package : String} {l : Literal} {marks : List Mark}
    (h : exportMarks package l = .ok marks) :
    (∃ m ∈ marks, m.name = .str n) ↔ l.lists n = true := by
  obtain ⟨items, hitems, hmap⟩ := except_bind_ok h
  rw [Literal.lists, hitems]
  dsimp only
  have hall := except_mapM_ok hmap
  clear h hmap hitems
  -- The positions count from anywhere when the items are taken one by one.
  generalize 0 = start at hall
  induction items generalizing start marks with
  | nil =>
    cases hall
    simp
  | cons item items ih =>
    rw [List.zipIdx_cons] at hall
    cases hall with
    | @cons _ m _ marks hm hall =>
      have hrest := ih (start + 1) hall
      cases item with
      | list _ => cases hm
      | atom a =>
        cases hm
        simp only [List.mem_cons, exists_eq_or_imp, List.any_cons, Bool.or_eq_true, beq_iff_eq]
        exact or_congr_right hrest

theorem names_distinct (marks : List Mark) :
    (∃ m ∈ Mark.distinct marks, m.name = .str n) ↔ ∃ m ∈ marks, m.name = .str n := by
  have hfold : ∀ (l known : List Mark),
      (∃ m ∈ l.foldl (fun known m => if known.any m.same then known else known ++ [m]) known,
        m.name = .str n) ↔ (∃ m ∈ known, m.name = .str n) ∨ ∃ m ∈ l, m.name = .str n := by
    intro l
    induction l with
    | nil => simp
    | cons k l ih =>
      intro known
      rw [List.foldl_cons, ih]
      split_ifs with hk
      · -- A mark that is left out has the name of one that is known.
        obtain ⟨j, hj, hs⟩ := List.any_eq_true.mp hk
        have hname : k.name = .str n → ∃ m ∈ known, m.name = .str n :=
          fun h => ⟨j, hj, Mark.name_of_same h hs⟩
        grind
      · grind
  rw [Mark.distinct, hfold]
  simp

theorem names_filter_same (left right : List Mark) :
    (∃ m ∈ left.filter fun m => right.any m.same, m.name = .str n) ↔
      (∃ m ∈ left, m.name = .str n) ∧ ∃ m ∈ right, m.name = .str n := by
  constructor
  · rintro ⟨m, hm, hname⟩
    obtain ⟨hleft, hany⟩ := List.mem_filter.mp hm
    obtain ⟨k, hk, hs⟩ := List.any_eq_true.mp hany
    exact ⟨⟨m, hleft, hname⟩, k, hk, Mark.name_of_same hname hs⟩
  · rintro ⟨⟨m, hm, hname⟩, k, hk, hk'⟩
    refine ⟨m, List.mem_filter.mpr ⟨hm, List.any_eq_true.mpr ⟨k, hk, ?_⟩⟩, hname⟩
    rw [Mark.same, hname, Bool.or_eq_true, Atom.valueEq_str]
    exact Or.inl hk'

theorem names_intersect (left right : List Mark) :
    (∃ m ∈ intersect left right, m.name = .str n) ↔
      (∃ m ∈ left, m.name = .str n) ∧ ∃ m ∈ right, m.name = .str n := by
  unfold intersect
  split_ifs
  · exact names_filter_same left right
  · rw [names_filter_same, and_comm]

theorem names_usesStar (scope : Scope) (marks : List Mark) :
    (∃ m ∈ marks.filter (usesStar scope), m.name = .str n) ↔
      (∃ m ∈ marks, m.name = .str n) ∧ ((scope.starSites n).any fun s => s.tree.isUse) = true := by
  constructor
  · rintro ⟨m, hm, hname⟩
    obtain ⟨hm, huse⟩ := List.mem_filter.mp hm
    rw [usesStar, hname] at huse
    exact ⟨⟨m, hm, hname⟩, huse⟩
  · rintro ⟨⟨m, hm, hname⟩, huse⟩
    refine ⟨m, List.mem_filter.mpr ⟨hm, ?_⟩, hname⟩
    rw [usesStar, hname]
    exact huse

/-! ### Ways in which a file uses names -/

/-- Whether a file takes a name out of what a star import brings into a scope. An entry point takes what
it exports itself, or else everything; another file takes what it uses. -/
def takesFromStar (file : SourceFile) (scope : Scope) (n : String) : Bool :=
  if file.isEntry then
    match file.exports with
    | .ok (some own) => !own.truth || own.lists n
    | _ => true
  else (scope.starSites n).any fun s => s.tree.isUse

/-- A statement imports everything from a file, and the name is part of it. -/
structure Brings (fs : FileSet) (file : SourceFile) (node : Tree) (m n : String) : Prop where
  isImport : node.isKind .importFrom = true
  module : ∃ t, importedModule fs file node = .ok t ∧ fs.find? t = .ok (some m)
  star : ∃ items, importedItems node = .ok items ∧
    ∃ item ∈ items, item.get "name" = .ok (.atom (.str "*"))
  offered : ∃ source l, fs.get m = .ok source ∧ source.offers = .ok l ∧ l.lists n = true

/-- The ways in which an import statement of a scope uses a name of a file. -/
inductive ImportUses (fs : FileSet) (file : SourceFile) (scope : Scope) (node : Tree) :
    String → String → Prop
  /-- The name is imported. -/
  | name {module item : Tree} {items : List Tree} {m n : String}
    (hk : node.isKind .importFrom = true) (hm : importedModule fs file node = .ok module)
    (hf : fs.find? module = .ok (some m)) (hi : importedItems node = .ok items)
    (hx : item ∈ items) (hn : item.get "name" = .ok (.atom (.str n))) :
    ImportUses fs file scope node m n
  /-- The name is taken out of a star import. -/
  | star {m n : String} (hb : Brings fs file node m n) (ht : takesFromStar file scope n = true) :
    ImportUses fs file scope node m n
  /-- The name is an attribute of a module that is imported by name from a package. -/
  | member {module item name bound up : Tree} {items : List Tree} {sites : List Site} {site : Site}
    {n : String} (hk : node.isKind .importFrom = true)
    (hm : importedModule fs file node = .ok module) (hi : importedItems node = .ok items)
    (hx : item ∈ items) (hn : item.get "name" = .ok name)
    (hf : fs.contains (module.print ++ "." ++ name.print) = true) (hb : item.boundName = .ok bound)
    (hs : sitesOf scope bound.print = .ok sites) (hsite : site ∈ sites)
    (hup : site.parent = .ok up) (ha : up.isKind .attribute = true)
    (hattr : up.get "attr" = .ok (.atom (.str n))) :
    ImportUses fs file scope node (module.print ++ "." ++ name.print) n
  /-- The name is an attribute of a module that is imported as a whole. -/
  | dotted {item name bound : Tree} {items : List Tree} {sites : List Site} {site : Site} {m n : String}
    (hk : node.isKind .importFrom = false) (hk' : node.isKind .importStmt = true)
    (hi : importedItems node = .ok items) (hx : item ∈ items) (hn : item.get "name" = .ok name)
    (hf : fs.find? name = .ok (some m)) (hb : item.boundName = .ok bound)
    (hs : sitesOf scope ((Text.dottedParts bound.print).headD "") = .ok sites) (hsite : site ∈ sites.drop 1)
    (hattr : attributeAfter bound.print site = .ok (some (.atom (.str n)))) (hne : n ≠ "") :
    ImportUses fs file scope node m n

/-- The ways in which a file of a package uses a name. -/
inductive FileUses (fs : FileSet) (package : String) (file : SourceFile) : String → String → Prop
  | imported {f : Forest} {i : Nat} {s : Scope} {site : Site} {m n : String}
    (hf : file.scopes = .ok f) (hi : i ∈ f.walk 0) (hs : f.scope? i = some s)
    (hx : site ∈ s.imports) (hu : ImportUses fs file s site.tree m n) : FileUses fs package file m n
  /-- The module has an occurrence that needs the name to be bound. -/
  | own {s : Scope} {n : String} {sites : List Site} (hs : file.moduleScope = .ok s)
    (hn : (n, sites) ∈ s.names) (hu : (sites.any fun s => s.tree.isUse) = true) :
    FileUses fs package file package n
  /-- An entry point uses what it exports, and without exports all that a star import would bring. -/
  | entry {l : Literal} {n : String} (he : file.isEntry = true) (hl : file.published = .ok l)
    (hn : l.lists n = true) : FileUses fs package file package n

theorem find?_congr {fs fs' : FileSet} (hc : ∀ p, fs'.contains p = fs.contains p) (t : Tree) :
    fs'.find? t = fs.find? t := by
  unfold FileSet.find?
  split
  · rw [hc]
  · rfl
  · rfl

/-- Names that are used in one set of files are used in another one with the same packages or more, if the
imports lead to the same modules. Star imports are left to be looked at. -/
theorem ImportUses.transfer {fs fs' : FileSet} {file file' : SourceFile} {scope : Scope} {node : Tree}
    {X : Prop} {m n : String} (hc : ∀ p, fs.contains p = true → fs'.contains p = true)
    (hmodule : importedModule fs' file' node = importedModule fs file node)
    (hstar : Brings fs file node m n → takesFromStar file scope n = true →
      ImportUses fs' file' scope node m n ∨ X) (h : ImportUses fs file scope node m n) :
    ImportUses fs' file' scope node m n ∨ X := by
  cases h with
  | name hk hm hf hi hx hn =>
    exact Or.inl (.name hk (hmodule.trans hm) (FileSet.find?_mono hc hf) hi hx hn)
  | star hb ht => exact hstar hb ht
  | member hk hm hi hx hn hf hb hs hsite hup ha hattr =>
    exact Or.inl (.member hk (hmodule.trans hm) hi hx hn (hc _ hf) hb hs hsite hup ha hattr)
  | dotted hk hk' hi hx hn hf hb hs hsite hattr hne =>
    exact Or.inl (.dotted hk hk' hi hx hn (FileSet.find?_mono hc hf) hb hs hsite hattr hne)

theorem Brings.mono {fs fs' : FileSet} {file : SourceFile} {node : Tree} {m n : String}
    (h : fs.Within fs') (hmodule : importedModule fs' file node = importedModule fs file node)
    (hb : Brings fs file node m n) : Brings fs' file node m n := by
  obtain ⟨hk, ⟨t, ht, hf⟩, hstar, source, l, hsource, hoffered⟩ := hb
  refine ⟨hk, ⟨t, hmodule.trans ht, FileSet.find?_mono h.contains hf⟩, hstar, source, l, ?_, hoffered⟩
  rw [FileSet.get_eq_ok] at hsource ⊢
  exact h.get m source hsource

/-- What a file uses in a set of files it uses in a larger one too, if its imports lead to the same
modules. -/
theorem FileUses.mono {fs fs' : FileSet} {package : String} {file : SourceFile} {m n : String}
    (h : fs.Within fs') (hmodule : ∀ node, importedModule fs' file node = importedModule fs file node)
    (hu : FileUses fs package file m n) : FileUses fs' package file m n := by
  cases hu with
  | imported hf hi hs hx hu =>
    have huse := hu.transfer (X := False) h.contains (hmodule _) fun hb ht =>
      Or.inl (.star (hb.mono h (hmodule _)) ht)
    exact .imported hf hi hs hx (huse.resolve_right id)
  | own hs hn hu => exact .own hs hn hu
  | entry he hl hn => exact .entry he hl hn

/-! ### What the parts of the search mark -/

variable {fs : FileSet} {file : SourceFile} {scope : Scope} {node : Tree}

theorem moduleScope_ok {s : Scope} (h : file.moduleScope = .ok s) :
    ∃ f, file.scopes = .ok f ∧ f.scope? 0 = some s := by
  obtain ⟨f, hf, h⟩ := except_bind_ok h
  refine ⟨f, hf, ?_⟩
  split at h
  · cases h
    assumption
  · cases h

theorem exports_of {s : Scope} {e : Exports} (hs : file.moduleScope = .ok s) (he : s.exports = .ok e) :
    file.exports = .ok e.value := by
  unfold SourceFile.exports
  rw [hs]
  show (do return (← s.exports).value) = _
  rw [he]
  rfl

theorem starExports_ok {source : SourceFile} {m : String} {l : Literal} {σ σ' : Session}
    (h : (starExports file node m source).run σ = (.ok l, σ')) :
    source.offers = .ok l ∧ σ'.used = σ.used := by
  unfold starExports at h
  obtain ⟨s, σ₁, hlift, h₁⟩ := run_bind_ok h
  obtain ⟨hs, rfl⟩ := Run.lift_ok hlift
  obtain ⟨v, σ₂, hv, h₂⟩ := run_bind_ok h₁
  obtain ⟨⟨e, he, rfl⟩, -, hused⟩ := Run.exports_ok hv
  unfold SourceFile.offers
  rw [exports_of hs he]
  cases hvalue : e.value with
  | some own =>
    rw [hvalue] at h₂
    cases h₂
    exact ⟨rfl, hused⟩
  | none =>
    rw [hvalue] at h₂
    obtain ⟨line, σ₃, hlift, h₃⟩ := run_bind_ok h₂
    obtain ⟨-, rfl⟩ := Run.lift_ok hlift
    obtain ⟨u, σ₄, hprint, h₄⟩ := run_bind_ok h₃
    cases hprint
    obtain ⟨f, σ₅, hlift, h₅⟩ := run_bind_ok h₄
    obtain ⟨hf, rfl⟩ := Run.lift_ok hlift
    obtain ⟨names, σ₆, hlift, h₆⟩ := run_bind_ok h₅
    obtain ⟨hnames, rfl⟩ := Run.lift_ok hlift
    cases h₆
    refine ⟨?_, hused⟩
    show (do return literalNames (← (← source.scopes).implicitExports 0)) = _
    rw [hf]
    show (do return literalNames (← f.implicitExports 0)) = _
    rw [hnames]
    rfl

theorem markStar_marks (m : String) : (markStar fs file scope node m).Marks fun p n =>
    p = m ∧ (∃ source l, fs.get m = .ok source ∧ source.offers = .ok l ∧ l.lists n = true) ∧
      takesFromStar file scope n = true := by
  intro σ u σ' h p n
  unfold markStar at h
  obtain ⟨source, σ₁, hlift, h₁⟩ := run_bind_ok h
  obtain ⟨hsource, rfl⟩ := Run.lift_ok hlift
  obtain ⟨l, σ₂, hl, h₂⟩ := run_bind_ok h₁
  obtain ⟨hoffers, hused⟩ := starExports_ok hl
  have hoffered : (∃ source l, fs.get m = .ok source ∧ source.offers = .ok l ∧ l.lists n = true) ↔
      l.lists n = true := by
    simp [hsource, hoffers]
  show _ ↔ _ ∨ p = m ∧ _ ∧ takesFromStar file scope n = true
  rw [hoffered, ← hused]
  unfold takesFromStar
  split_ifs at h₂ ⊢ with he
  · obtain ⟨t, σ₃, hlift, h₃⟩ := run_bind_ok h₂
    obtain ⟨ht, rfl⟩ := Run.lift_ok hlift
    obtain ⟨v, σ₄, hv, h₄⟩ := run_bind_ok h₃
    obtain ⟨⟨e, hexports, rfl⟩, -, hused'⟩ := Run.exports_ok hv
    obtain ⟨marks, σ₅, hlift, h₅⟩ := run_bind_ok h₄
    obtain ⟨hmarks, rfl⟩ := Run.lift_ok hlift
    rw [exports_of ht hexports, ← hused']
    cases hvalue : e.value with
    | none =>
      rw [hvalue] at h₅
      rw [Run.forM_mark_ok h₅, names_exportMarks hmarks]
      simp
    | some own =>
      rw [hvalue] at h₅
      dsimp only at h₅ ⊢
      split_ifs at h₅ with htruth
      · obtain ⟨right, σ₆, hlift, h₆⟩ := run_bind_ok h₅
        obtain ⟨hright, rfl⟩ := Run.lift_ok hlift
        rw [Run.forM_mark_ok h₆, names_intersect, names_distinct, names_distinct,
          names_exportMarks hmarks, names_exportMarks hright]
        simp [htruth]
      · rw [Run.forM_mark_ok h₅, names_exportMarks hmarks]
        simp [htruth]
  · obtain ⟨marks, σ₃, hlift, h₃⟩ := run_bind_ok h₂
    obtain ⟨hmarks, rfl⟩ := Run.lift_ok hlift
    rw [Run.forM_mark_ok h₃, names_usesStar, names_exportMarks hmarks]

theorem markAttributes_marks (package : String) (sites : List Site) :
    (markAttributes file package sites).Marks fun p n => p = package ∧
      ∃ site ∈ sites, ∃ up, site.parent = .ok up ∧ up.isKind .attribute = true ∧
        up.get "attr" = .ok (.atom (.str n)) := by
  have hsite : ∀ site : Site, (do
      let up ← Run.lift site.parent
      if up.isKind .attribute then
        Run.markTree package (some (file.package, site.path)) (← Run.lift (up.get "attr")) :
        Run Unit).Marks fun p n => ∃ up, site.parent = .ok up ∧ if up.isKind .attribute then
          ∃ t, up.get "attr" = .ok t ∧ p = package ∧ t = .atom (.str n) else False := by
    intro site
    apply Run.Marks.bind_lift
    intro up _
    apply Run.Marks.ite
    · intro _
      apply Run.Marks.bind_lift
      intro t _
      exact Run.markTree_marks _ _ t
    · intro _
      exact Run.Marks.pure ()
  refine (Run.Marks.forM fun site _ => hsite site).congr fun p n => ?_
  simp only [ite_prop_iff_and]
  grind

theorem markDotted_marks (package bound : String) (site : Site) :
    (markDotted file package bound site).Marks fun p n => p = package ∧
      attributeAfter bound site = .ok (some (.atom (.str n))) ∧ n ≠ "" := by
  intro σ u σ' h p n
  obtain ⟨o, σ₁, hlift, h₁⟩ := run_bind_ok h
  obtain ⟨ho, rfl⟩ := Run.lift_ok hlift
  rw [ho]
  cases o with
  | none =>
    cases h₁
    simp
  | some t =>
    have htext : t = .atom (.str n) → (t.truth = true ↔ n ≠ "") := by
      rintro rfl
      simp [Tree.truth, Atom.truth]
    simp only [Except.ok.injEq, Option.some.injEq]
    dsimp only at h₁
    split_ifs at h₁ with ht
    · rw [Run.markTree_marks _ _ t _ _ _ h₁]
      grind
    · cases h₁
      grind

theorem markImport_marks (hk : node.isKind .importFrom = false) (hk' : node.isKind .importStmt = true) :
    (markImport fs file scope node).Marks (ImportUses fs file scope node) := by
  refine (Run.Marks.bind_lift fun items _ => Run.Marks.forM (M := fun (item : Tree) p n =>
      ∃ name, item.get "name" = .ok name ∧ ∃ o, fs.find? name = .ok o ∧ o = some p ∧
        ∃ bound, item.boundName = .ok bound ∧
          ∃ sites, sitesOf scope ((Text.dottedParts bound.print).headD "") = .ok sites ∧
            ∃ site ∈ sites.drop 1, attributeAfter bound.print site = .ok (some (.atom (.str n))) ∧
              n ≠ "") fun item _ => ?_).congr fun p n => ?_
  · apply Run.Marks.bind_lift
    intro name _
    apply Run.Marks.bind_lift
    intro o _
    cases o with
    | none => exact (Run.Marks.pure ()).congr fun p n => by simp
    | some package =>
      refine (Run.Marks.bind_lift fun bound _ => Run.Marks.bind_lift fun sites _ =>
        Run.Marks.forM fun site _ => markDotted_marks package bound.print site).congr fun p n => ?_
      grind
  constructor
  · rintro ⟨items, hi, item, hx, name, hn, _, hf, rfl, bound, hb, sites, hs, site, hsite, ha, hne⟩
    exact .dotted hk hk' hi hx hn hf hb hs hsite ha hne
  · intro h
    cases h with
    | name hk₁ => simp [hk] at hk₁
    | star hb =>
      have hk₁ := hb.isImport
      simp [hk] at hk₁
    | member hk₁ => simp [hk] at hk₁
    | dotted _ _ hi hx hn hf hb hs hsite ha hne =>
      exact ⟨_, hi, _, hx, _, hn, _, hf, rfl, _, hb, _, hs, _, hsite, ha, hne⟩

/-- The names in an import from a file of the project, and those that a star brings. -/
theorem markNames_marks (hk : node.isKind .importFrom = true) {module : Tree} {items : List Tree}
    (hm : importedModule fs file node = .ok module) (hi : importedItems node = .ok items) :
    (markNames fs file scope node module items).Marks fun p n =>
      (fs.find? module = .ok (some p) ∧ ∃ item ∈ items, item.get "name" = .ok (.atom (.str n))) ∨
        Brings fs file node p n ∧ takesFromStar file scope n = true := by
  intro σ u σ' h p n
  obtain ⟨o, σ₁, hlift, h₁⟩ := run_bind_ok h
  obtain ⟨ho, rfl⟩ := Run.lift_ok hlift
  cases o with
  | none =>
    cases h₁
    have hnone : ¬Brings fs file node p n := by
      rintro ⟨-, ⟨t, ht, hf⟩, -, -⟩
      rw [hm, Except.ok.injEq] at ht
      subst ht
      rw [ho] at hf
      cases hf
    simp [ho, hnone]
  | some m =>
    obtain ⟨names, σ₂, hmap, h₂⟩ := run_bind_ok h₁
    obtain ⟨hnames, rfl⟩ := Run.mapM_lift_ok hmap
    obtain ⟨v, σ₃, hloop, h₃⟩ := run_bind_ok h₂
    have hstar : (names.any fun t => t.str? == some "*") = true ↔
        ∃ item ∈ items, item.get "name" = .ok (.atom (.str "*")) := by
      rw [← hnames, List.any_eq_true]
      constructor
      · rintro ⟨t, ht, hstr⟩
        rw [← Tree.eq_of_str? (beq_iff_eq.mp hstr)]
        exact ht
      · intro ht
        exact ⟨_, ht, rfl⟩
    have hbrings : Brings fs file node p n ↔ p = m ∧ (names.any fun t => t.str? == some "*") = true ∧
        ∃ source l, fs.get m = .ok source ∧ source.offers = .ok l ∧ l.lists n = true := by
      rw [hstar]
      constructor
      · rintro ⟨-, ⟨t, ht, hf⟩, ⟨items', hi', hitem⟩, hoffered⟩
        obtain rfl : module = t := Except.ok.inj (hm.symm.trans ht)
        obtain rfl : items = items' := Except.ok.inj (hi.symm.trans hi')
        obtain rfl : m = p := Option.some.inj (Except.ok.inj (ho.symm.trans hf))
        exact ⟨rfl, hitem, hoffered⟩
      · rintro ⟨rfl, hitem, hoffered⟩
        exact ⟨hk, ⟨module, hm, ho⟩, ⟨items, hi, hitem⟩, hoffered⟩
    have hused : σ₃.used.has p n = true ↔
        σ₂.used.has p n = true ∨ ∃ t ∈ names, p = m ∧ t = .atom (.str n) :=
      Run.Marks.forM (fun t _ => Run.markTree_marks m none t) _ _ _ hloop p n
    have hnamed : (∃ t ∈ names, p = m ∧ t = .atom (.str n)) ↔
        fs.find? module = .ok (some p) ∧ ∃ item ∈ items, item.get "name" = .ok (.atom (.str n)) := by
      rw [ho, ← hnames]
      grind
    rw [hnamed] at hused
    dsimp only
    rw [hbrings, ← or_assoc, ← hused]
    split_ifs at h₃ with hany
    · rw [markStar_marks m _ _ _ h₃]
      simp [hany, and_assoc]
    · cases h₃
      simp [hany]

theorem markMembers_marks {module : Tree} {items : List Tree} :
    (markMembers fs file scope module items).Marks fun p n =>
      ∃ item ∈ items, ∃ name, item.get "name" = .ok name ∧ p = module.print ++ "." ++ name.print ∧
        fs.contains p = true ∧ ∃ bound, item.boundName = .ok bound ∧
          ∃ sites, sitesOf scope bound.print = .ok sites ∧ ∃ site ∈ sites,
            ∃ up, site.parent = .ok up ∧ up.isKind .attribute = true ∧
              up.get "attr" = .ok (.atom (.str n)) := by
  apply Run.Marks.forM
  intro item _
  apply Run.Marks.bind_lift
  intro name _
  refine (Run.Marks.ite (fun _ => Run.Marks.bind_lift fun bound _ => Run.Marks.bind_lift fun sites _ =>
    markAttributes_marks _ sites) fun _ => Run.Marks.pure ()).congr fun p n => ?_
  split_ifs with hf
  · grind
  · simp only [false_iff]
    rintro ⟨rfl, hf', -⟩
    exact hf hf'

theorem markImportFrom_marks (hk : node.isKind .importFrom = true) :
    (markImportFrom fs file scope node).Marks (ImportUses fs file scope node) := by
  refine Run.Marks.congr (r := markImportFrom fs file scope node)
    (Run.Marks.bind_lift fun module hm => Run.Marks.bind_lift fun items hi =>
      (markNames_marks hk hm hi).seq fun _ => markMembers_marks) fun p n => ?_
  constructor
  · rintro ⟨module, hm, items, hi, (⟨hf, item, hx, hn⟩ | ⟨hb, ht⟩) | ⟨item, hx, name, hn, rfl, hf, bound, hb, sites, hs, site,
      hsite, up, hup, ha, hattr⟩⟩
    · exact .name hk hm hf hi hx hn
    · exact .star hb ht
    · exact .member hk hm hi hx hn hf hb hs hsite hup ha hattr
  · intro h
    cases h with
    | name _ hm hf hi hx hn => exact ⟨_, hm, _, hi, .inl (.inl ⟨hf, _, hx, hn⟩)⟩
    | star hb ht =>
      obtain ⟨module, hm, -⟩ := hb.module
      obtain ⟨items, hi, -⟩ := hb.star
      exact ⟨module, hm, items, hi, .inl (.inr ⟨hb, ht⟩)⟩
    | member _ hm hi hx hn hf hb hs hsite hup ha hattr =>
      exact ⟨_, hm, _, hi, .inr ⟨_, hx, _, hn, rfl, hf, _, hb, _, hs, _, hsite, _, hup, ha, hattr⟩⟩
    | dotted hk₁ => simp [hk] at hk₁

theorem markImports_marks (forest : Forest) : (markImports fs file forest).Marks fun p n =>
    ∃ i ∈ forest.walk 0, ∃ s, forest.scope? i = some s ∧ ∃ site ∈ s.imports,
      ImportUses fs file s site.tree p n := by
  apply Run.Marks.forM
  intro i _
  cases hs : forest.scope? i with
  | none => exact (Run.Marks.pure ()).congr fun p n => by simp
  | some s =>
    have hsite : ∀ site : Site, (if site.tree.isKind .importFrom then markImportFrom fs file s site.tree
        else if site.tree.isKind .importStmt then markImport fs file s site.tree
        else return () : Run Unit).Marks (ImportUses fs file s site.tree) := by
      intro site
      split_ifs with hk hk'
      · exact markImportFrom_marks hk
      · exact markImport_marks (Bool.not_eq_true _ ▸ hk) hk'
      · refine (Run.Marks.pure ()).congr fun p n => ?_
        simp only [false_iff]
        intro h
        cases h with
        | name hk₁ => exact hk hk₁
        | star hb => exact hk hb.isImport
        | member hk₁ => exact hk hk₁
        | dotted _ hk₁ => exact hk' hk₁
    exact (Run.Marks.forM fun site _ => hsite site).congr fun p n => by simp

theorem markOwn_marks (package : String) (s : Scope) : (markOwn package s).Marks fun p n =>
    p = package ∧ ∃ sites, (n, sites) ∈ s.names ∧ (sites.any fun s => s.tree.isUse) = true := by
  refine Run.Marks.congr (r := markOwn package s)
    (Run.Marks.forM fun e _ => Run.Marks.ite (fun _ => Run.markText_marks package e.1)
      fun _ => Run.Marks.pure ()) fun p n => ?_
  constructor
  · rintro ⟨⟨name, sites⟩, hmem, h⟩
    split_ifs at h with hu
    obtain ⟨rfl, rfl⟩ := h
    exact ⟨rfl, sites, hmem, hu⟩
  · rintro ⟨rfl, sites, hmem, hu⟩
    refine ⟨(n, sites), hmem, ?_⟩
    rw [if_pos hu]
    exact ⟨rfl, rfl⟩

theorem markExported_marks {package : String} {f : Forest} {s : Scope} (hf : file.scopes = .ok f)
    (hs : file.moduleScope = .ok s) : (markExported package file f s).Marks fun p n =>
      p = package ∧ ∃ l, file.published = .ok l ∧ l.lists n = true := by
  intro σ u σ' h p n
  obtain ⟨v, σ₁, hv, h₁⟩ := run_bind_ok h
  obtain ⟨⟨e, he, rfl⟩, -, hused⟩ := Run.exports_ok hv
  have himplicit : ∀ {σ₁ : Session} {u : Unit}, (do
      Run.markTexts package (← Run.lift (f.implicitExports 0)) : Run Unit).run σ₁ = (.ok u, σ') →
      (σ'.used.has p n = true ↔ σ₁.used.has p n = true ∨ p = package ∧
        ∃ l, (do return literalNames (← f.implicitExports 0) : Except Fault Literal) = .ok l ∧
          l.lists n = true) := by
    intro σ₁ u h₁
    obtain ⟨names, σ₂, hlift, h₂⟩ := run_bind_ok h₁
    obtain ⟨hnames, rfl⟩ := Run.lift_ok hlift
    rw [Run.markTexts_marks package names _ _ _ h₂, hnames]
    simp [pure, Except.pure, bind, Except.bind]
  unfold SourceFile.published
  rw [exports_of hs he, ← hused, hf]
  cases hvalue : e.value with
  | none =>
    rw [hvalue] at h₁
    exact himplicit h₁
  | some l =>
    rw [hvalue] at h₁
    show _ ↔ _ ∨ p = package ∧ ∃ k, (if l.truth then .ok l else _) = Except.ok k ∧ _
    dsimp only at h₁
    split_ifs at h₁ ⊢ with ht
    · obtain ⟨marks, σ₂, hlift, h₂⟩ := run_bind_ok h₁
      obtain ⟨hmarks, rfl⟩ := Run.lift_ok hlift
      rw [Run.forM_mark_ok h₂, names_exportMarks hmarks]
      simp
    · exact himplicit h₁

theorem markFile_marks (package : String) :
    (markFile fs package file).Marks (FileUses fs package file) := by
  refine Run.Marks.congr (r := markFile fs package file)
    (Run.Marks.bind_lift fun f hf => (markImports_marks f).seq fun _ =>
      Run.Marks.bind_lift fun s hs => (markOwn_marks package s).seq fun _ =>
        Run.Marks.ite (fun _ => markExported_marks hf hs) fun _ => Run.Marks.pure ()) fun p n => ?_
  constructor
  · rintro ⟨f, hf, ⟨i, hi, s, hs, site, hx, hu⟩ | ⟨s, hs, ⟨rfl, sites, hn, hu⟩ | h⟩⟩
    · exact .imported hf hi hs hx hu
    · exact .own hs hn hu
    · split_ifs at h with he
      obtain ⟨rfl, l, hl, hn⟩ := h
      exact .entry he hl hn
  · intro h
    cases h with
    | imported hf hi hs hx hu => exact ⟨_, hf, .inl ⟨_, hi, _, hs, _, hx, hu⟩⟩
    | own hs hn hu =>
      obtain ⟨f, hf, -⟩ := moduleScope_ok hs
      exact ⟨f, hf, .inr ⟨_, hs, .inl ⟨rfl, _, hn, hu⟩⟩⟩
    | entry he hl hn =>
      obtain ⟨o, ho, -⟩ := except_bind_ok hl
      obtain ⟨s, hs, -⟩ := except_bind_ok ho
      obtain ⟨f, hf, -⟩ := moduleScope_ok hs
      refine ⟨f, hf, .inr ⟨s, hs, .inr ?_⟩⟩
      rw [if_pos he]
      exact ⟨rfl, _, hl, hn⟩

/-- The search marks the names that some file uses, and no others. -/
theorem markAll_marks (fs : FileSet) :
    (markAll fs).Marks fun p n => ∃ e ∈ fs.files, FileUses fs e.1 e.2 p n := by
  refine (Run.Marks.forM fun e _ => markFile_marks e.1).congr fun p n => ?_
  simp [FileSet.sorted]

end Usage

end ScopeLint
