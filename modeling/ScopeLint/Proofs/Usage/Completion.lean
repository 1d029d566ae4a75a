import ScopeLint.Proofs.Scope.Exports
import ScopeLint.Proofs.Scope.Placement
import ScopeLint.Proofs.Usage.Undefined
import ScopeLint.Proofs.Usage.Uses

/-! Runs that come to their end. Both analyses do so on scopes of which no entry is empty, of which all
occurrences stand in a source text, and where all that is looked up for the import statements is found. -/

namespace ScopeLint

/-! ### Runs that complete -/

namespace Run

variable {α β : Type} {P : α → Prop} {Q : β → Prop}

/-- From every session the run comes to its end, with a result that passes a test. -/
def Completes (r : Run α) (P : α → Prop) : Prop := ∀ σ, ∃ a σ', r.run σ = (.ok a, σ') ∧ P a

/-- From every session the run comes to its end. -/
abbrev Ends (r : Run α) : Prop := r.Completes fun _ => True

theorem Completes.pure {a : α} (h : P a) : (Pure.pure a : Run α).Completes P :=
  fun σ => ⟨a, σ, rfl, h⟩

theorem Completes.bind {r : Run α} {g : α → Run β} (hr : r.Completes P)
    (hg : ∀ a, P a → (g a).Completes Q) : (r >>= g).Completes Q := by
  intro σ
  obtain ⟨a, σ₁, ha, hP⟩ := hr σ
  rw [run_bind_of_ok ha]
  exact hg a hP σ₁

theorem Completes.lift {e : Except Fault α} {a : α} (he : e = .ok a) (h : P a) :
    (Run.lift e).Completes P := by
  rw [he]
  exact .pure h

/-- Something is found out first, and it is found. -/
theorem Completes.of_lift {e : Except Fault α} {a : α} {g : α → Run β} (he : e = .ok a)
    (hg : (g a).Completes Q) : (Run.lift e >>= g).Completes Q := by
  rw [he]
  exact hg

theorem Completes.ite {c : Prop} [Decidable c] {r s : Run α} (hr : c → r.Completes P)
    (hs : ¬c → s.Completes P) : (if c then r else s).Completes P := by
  split_ifs with hc
  · exact hr hc
  · exact hs hc

theorem Completes.get : (MonadState.get : Run Session).Ends := fun σ => ⟨σ, σ, rfl, trivial⟩

theorem Completes.print (text : String) : (Run.print text).Ends := fun _ => ⟨(), _, rfl, trivial⟩

theorem Completes.mark (package : String) (m : Mark) : (Run.mark package m).Ends :=
  fun _ => ⟨(), _, rfl, trivial⟩

theorem Completes.forM {l : List β} {g : β → Run PUnit} (h : ∀ b ∈ l, (g b).Ends) :
    (l.forM g).Ends := by
  induction l with
  | nil => exact .pure trivial
  | cons b l ih =>
    exact (h b List.mem_cons_self).bind fun _ _ => ih fun c hc => h c (List.mem_cons_of_mem _ hc)

theorem Completes.mapM {l : List α} {g : α → Run β} (h : ∀ a ∈ l, (g a).Completes Q) :
    (l.mapM g).Completes fun out => ∀ b ∈ out, Q b := by
  induction l with
  | nil => exact .pure fun _ hb => nomatch hb
  | cons a l ih =>
    rw [List.mapM_cons]
    refine (h a List.mem_cons_self).bind fun b hb => ?_
    refine (ih fun c hc => h c (List.mem_cons_of_mem _ hc)).bind fun out hout => ?_
    exact .pure (List.forall_mem_cons.mpr ⟨hb, hout⟩)

theorem Completes.markTexts (package : String) (names : List String) :
    (Run.markTexts package names).Ends :=
  .forM fun name _ => .mark package (.ofText name)

theorem Completes.exports {s : Scope} {e : Exports} (he : s.exports = .ok e) (package : String) (i : Nat) :
    (Run.exports package i s).Completes fun v => v = e.value := by
  refine .of_lift he (Completes.get.bind fun known _ => ?_)
  dsimp only
  split_ifs
  · exact fun _ => ⟨_, _, rfl, rfl⟩
  · exact .pure rfl

end Run

/-! ### What the analyses rely on -/

/-- What an item of an import statement binds is a key of a scope. Of a dotted name the first part is
bound, and a star binds nothing. -/
def Scope.Knows (s : Scope) (item : Tree) : Prop :=
  item.boundName = .ok (.atom (.str "*")) ∨
    ∃ name n, item.boundName = .ok (.atom (.str name)) ∧ name ≠ "*" ∧
      (Text.dottedParts name).head? = some n ∧ n ∈ s.names.keys

theorem Scope.Knows.key {s : Scope} {item : Tree} (h : s.Knows item) {bound : String}
    (hb : item.boundName = .ok (.atom (.str bound))) (hne : bound ≠ "*") :
    ∃ n, (Text.dottedParts bound).head? = some n ∧ n ∈ s.names.keys := by
  rcases h with h | ⟨name, n, h, -, hhead, hkey⟩
  · cases hb.symm.trans h
    exact absurd rfl hne
  · cases hb.symm.trans h
    exact ⟨n, hhead, hkey⟩

/-- Whether a literal is a list of names. -/
def Literal.isNames : Literal → Bool
  | .list ls => ls.all fun
    | .atom (.str _) => true
    | _ => false
  | .atom _ => false

@[simp] theorem Literal.isNames_literalNames (names : List String) :
    (Usage.literalNames names).isNames = true := by
  simp [Usage.literalNames, isNames]

/-- What the import statements of a scope bind are keys of it. -/
def Scope.KnowsImports (s : Scope) : Prop :=
  ∀ x ∈ s.imports, ∃ items, importedItems x.tree = .ok items ∧ ∀ item ∈ items, s.Knows item

/-- A scope with entries for names only, none of which is empty, and with exports, if there are some, that
are names. -/
structure Scope.Checkable (s : Scope) : Prop where
  strays : s.strays = []
  entries : ∀ e ∈ s.names, e.2 ≠ []
  sites : ∀ e ∈ s.names, ∀ x ∈ e.2, x.Stands ∧ x.tree.isOneOf Kind.occurring = true
  exports : ∃ e, s.exports = .ok e ∧ ∀ l, e.value = some l → l.isNames = true

structure Forest.Checkable (f : Forest) : Prop where
  module : ∃ s, f.scope? 0 = some s ∧ s.isModule = true
  scopes : ∀ i s, f.scope? i = some s → s.Checkable

/-- Scopes where also all that is looked up for the import statements is found. -/
structure Forest.Searchable (f : Forest) : Prop extends f.Checkable where
  imports : ∀ i s, f.scope? i = some s → ∀ x ∈ s.imports, x.Stands ∧ x.tree.isImport = true
  keys : ∀ i s, f.scope? i = some s → s.KnowsImports

/-- No package ends in a star, as if all of a module were a part of it. -/
def FileSet.hasNoStar (fs : FileSet) : Bool := fs.files.all fun e => e.1.toList.getLast? != some '*'

structure FileSet.Searchable (fs : FileSet) : Prop where
  files : ∀ e ∈ fs.files, ∃ f, e.2.scopes = .ok f ∧ f.Searchable
  stars : fs.hasNoStar = true

namespace Exports

theorem ofSite_ok {x : Site} (h : x.Stands) : ∃ e, ofSite x = .ok e := by
  obtain ⟨up, hup, hnodes⟩ := h.parent_ok
  have hin := Tree.every_mono (fun _ => Tree.inGrammar_of_isSourceNode) hnodes
  obtain hunclear | ⟨value, l, -, -, hknown⟩ := ofSite_cases hup hin
  · exact ⟨_, hunclear⟩
  · exact ⟨_, hknown⟩

end Exports

theorem SourceFile.moduleScope_eq {file : SourceFile} {f : Forest} {s : Scope}
    (hf : file.scopes = .ok f) (hs : f.scope? 0 = some s) : file.moduleScope = .ok s := by
  simp only [moduleScope, hf, bind, Except.bind, hs]
  rfl

/-! ### Names within files -/

namespace Usage

variable {file : SourceFile} {f : Forest} {i : Nat} {s : Scope} {name : String} {sites : List Site}

theorem allWrites_ok (h : ∀ x ∈ sites, ∃ b, x.tree.isWrite = .ok b) : ∃ b, allWrites sites = .ok b := by
  induction sites with
  | nil => exact ⟨true, rfl⟩
  | cons x sites ih =>
    obtain ⟨b, hb⟩ := h x List.mem_cons_self
    rw [allWrites, hb]
    cases b with
    | true => exact ih fun y hy => h y (List.mem_cons_of_mem _ hy)
    | false => exact ⟨false, rfl⟩

theorem literalContains_ok {l : Literal} (h : l.isNames = true) (name : String) :
    ∃ b, literalContains name l = .ok b := by
  cases l with
  | list ls => exact ⟨_, rfl⟩
  | atom a => cases h

theorem excused_ends (h : s.Checkable) (package : String) (i : Nat) (name : String) (site : Site) :
    (excused package i s name site).Ends := by
  obtain ⟨e, he, hnames⟩ := h.exports
  refine .ite (fun _ => .pure trivial) fun _ => (Run.Completes.exports he package i).bind ?_
  rintro _ rfl
  dsimp only
  split
  next l hl =>
    obtain ⟨b, hb⟩ := literalContains_ok (hnames l hl) name
    exact .of_lift hb (.ite (fun _ => .pure trivial) fun _ => .pure trivial)
  next => exact .ite (fun _ => .pure trivial) fun _ => .pure trivial

theorem checkUnused_ends (h : s.Checkable) (he : (name, sites) ∈ s.names) {first : Site}
    (hfirst : first ∈ sites) : (checkUnused file i s name sites first).Ends := by
  refine .ite (fun _ => ?_) fun _ => .pure trivial
  obtain ⟨b, hb⟩ := allWrites_ok fun x hx => Site.isWrite_ok (h.sites _ he x hx).1 (h.sites _ he x hx).2
  refine .of_lift hb (.ite (fun _ => ?_) fun _ => .pure trivial)
  refine (excused_ends h _ i name first).bind fun b _ => .ite (fun _ => .pure trivial) fun _ => ?_
  obtain ⟨hstands, hkind⟩ := h.sites _ he first hfirst
  obtain ⟨-, place, hplace⟩ := Site.place_ok hstands hkind
  exact .of_lift hplace (.print _)

theorem checkName_ends (h : s.Checkable) (he : (name, sites) ∈ s.names) :
    (checkName file f i s name sites).Ends := by
  rw [checkName_eq]
  cases sites with
  | nil => exact absurd rfl (h.entries _ he)
  | cons first rest =>
    obtain ⟨hstands, hkind⟩ := h.sites _ he first List.mem_cons_self
    obtain ⟨-, place, hplace⟩ := Site.place_ok hstands hkind
    have hunused : (checkUnused file i s name (first :: rest) first).Ends :=
      checkUnused_ends h he List.mem_cons_self
    refine (Run.Completes.pure (P := (· = first)) rfl).bind ?_
    rintro _ rfl
    refine .ite (fun _ => ?_) fun _ => hunused
    exact .of_lift hplace ((Run.Completes.print _).bind fun _ _ => hunused)

theorem checkFile_ends (hf : file.scopes = .ok f) (h : f.Checkable) : (checkFile file).Ends := by
  rw [checkFile_eq]
  refine .of_lift hf (.forM fun e he => ?_)
  obtain ⟨j, hj, he⟩ := List.mem_flatMap.mp he
  cases hs : f.scope? j with
  | none =>
    rw [hs] at he
    cases he
  | some s =>
    have hcheck := h.scopes j s hs
    rw [hs] at he
    dsimp only at he
    rw [Scope.entries_of_no_strays hcheck.strays, List.map_map] at he
    obtain ⟨⟨name, sites⟩, hmem, rfl⟩ := List.mem_map.mp he
    simp only [checkEntry, Function.comp_apply, hs]
    exact checkName_ends hcheck hmem

/-! ### Names of whole projects -/

theorem sitesOf_ok (hn : name ∈ s.names.keys) :
    ∃ sites, sitesOf s name = .ok sites ∧ (name, sites) ∈ s.names := by
  rw [Table.mem_keys_iff, Option.isSome_iff_exists] at hn
  obtain ⟨sites, hget⟩ := hn
  refine ⟨sites, ?_, Table.mem_of_get? hget⟩
  rw [sitesOf, hget]

theorem exportMarks_ok {l : Literal} (h : l.isNames = true) (package : String) :
    ∃ marks, exportMarks package l = .ok marks := by
  cases l with
  | atom a => cases h
  | list ls =>
    refine except_mapM_of_ok fun e he => ?_
    have hname := List.all_eq_true.mp h e.1 (List.fst_mem_of_mem_zipIdx he)
    obtain ⟨l, i⟩ := e
    cases l with
    | atom a => exact ⟨_, rfl⟩
    | list items => cases hname

theorem implicitExports_ok (h : f.Checkable) : ∃ names, f.implicitExports 0 = .ok names := by
  obtain ⟨s, hs, hm⟩ := h.module
  refine ⟨s.names.keys.filter fun name => !name.startsWith "_", ?_⟩
  simp only [Forest.implicitExports, hs, hm, (h.scopes 0 s hs).strays]

section Modules

variable {fs : FileSet} {source : SourceFile} {node : Tree} {m : String}

theorem relativeModule_ok {module : Tree} (h : (∃ m, module = .atom (.str m)) ∨ module = .null)
    (dotname : String) (level : Int) : ∃ p, relativeModule dotname module level = .ok p := by
  rcases h with ⟨m, rfl⟩ | rfl
  · exact ⟨_, rfl⟩
  · exact ⟨_, rfl⟩

theorem importedModule_ok (fs : FileSet) (hs : file.moduleScope = .ok s) (hk : node.isKind .importFrom = true)
    (h : node.isSourceNode = true) :
    ∃ module, importedModule fs file node = .ok module ∧
      ((∃ m, module = .atom (.str m)) ∨ module = .null) := by
  obtain ⟨module, level, -, hmodule, hlevel, -, htext, hnumber, -⟩ := Tree.importFrom_ok hk h
  simp only [importedModule, hlevel, hmodule, hs, bind, Except.bind]
  split_ifs with hup
  · obtain ⟨n, rfl⟩ := hnumber.resolve_right (by rintro rfl; cases hup)
    obtain ⟨p, hp⟩ := relativeModule_ok htext file.dotname n
    rw [importLevel]
    simp only [hp]
    exact ⟨_, rfl, Or.inl ⟨p, rfl⟩⟩
  · obtain ⟨p, hp⟩ := relativeModule_ok htext file.dotname 1
    simp only [hp]
    split_ifs
    · exact ⟨_, rfl, Or.inl ⟨p, rfl⟩⟩
    · exact ⟨_, rfl, htext⟩
  · exact ⟨_, rfl, htext⟩

theorem find?_ok (fs : FileSet) {module : Tree} (h : (∃ m, module = .atom (.str m)) ∨ module = .null) :
    ∃ found, fs.find? module = .ok found ∧ ∀ m, found = some m → fs.contains m = true := by
  rcases h with ⟨m, rfl⟩ | rfl
  · refine ⟨_, rfl, fun m' hm => ?_⟩
    split_ifs at hm with hc
    cases hm
    exact hc
  · exact ⟨none, rfl, fun m hm => nomatch hm⟩

theorem get_ok (h : fs.contains m = true) : ∃ source, fs.get m = .ok source ∧ (m, source) ∈ fs.files := by
  obtain ⟨e, he, hm⟩ := List.any_eq_true.mp h
  cases hget : fs.files.lookup m with
  | none =>
    have hne := List.lookup_eq_none_iff.mp hget e he
    simp only [beq_iff_eq] at hm
    simp [hm] at hne
  | some source =>
    refine ⟨source, ?_, mem_of_lookup hget⟩
    rw [FileSet.get, FileSet.get?, hget]

/-- What a star import brings is found, and it is names. -/
theorem starExports_completes (hf : source.scopes = .ok f) (h : f.Checkable)
    (hline : ∃ text, node.lineText = .ok text) :
    (starExports file node m source).Completes fun l => l.isNames = true := by
  obtain ⟨s, hs, -⟩ := h.module
  obtain ⟨e, he, hnames⟩ := (h.scopes 0 s hs).exports
  obtain ⟨line, hline⟩ := hline
  obtain ⟨names, himplicit⟩ := implicitExports_ok h
  refine .of_lift (SourceFile.moduleScope_eq hf hs) ((Run.Completes.exports he m 0).bind ?_)
  rintro _ rfl
  split
  next l hl => exact .pure (hnames l hl)
  next =>
    refine .of_lift hline ((Run.Completes.print _).bind fun _ _ => ?_)
    exact .of_lift hf (.of_lift himplicit (.pure (Literal.isNames_literalNames names)))

theorem markStar_ends (hfs : fs.Searchable) (hf : file.scopes = .ok f) (h : f.Checkable)
    (hline : ∃ text, node.lineText = .ok text) (hm : fs.contains m = true) (scope : Scope) :
    (markStar fs file scope node m).Ends := by
  obtain ⟨source, hsource, hmem⟩ := get_ok hm
  obtain ⟨g, hg, hcheck⟩ := hfs.files _ hmem
  obtain ⟨s, hs, -⟩ := h.module
  obtain ⟨e, he, hnames⟩ := (h.scopes 0 s hs).exports
  refine .of_lift hsource ((starExports_completes hg hcheck.toCheckable hline).bind fun l hl => ?_)
  obtain ⟨marks, hmarks⟩ := exportMarks_ok hl m
  have hall : (marks.forM (Run.mark m)).Ends := .forM fun k _ => .mark m k
  refine .ite (fun _ => ?_) fun _ => .of_lift hmarks (.forM fun k _ => .mark m k)
  refine .of_lift (SourceFile.moduleScope_eq hf hs) ((Run.Completes.exports he file.package 0).bind ?_)
  rintro _ rfl
  refine .of_lift hmarks ?_
  split
  next own hown =>
    obtain ⟨right, hright⟩ := exportMarks_ok (hnames own hown) file.package
    exact .ite (fun _ => .of_lift hright (.forM fun k _ => .mark m k)) fun _ => hall
  next => exact hall

theorem markNames_ends (hfs : fs.Searchable) (hf : file.scopes = .ok f) (h : f.Checkable)
    (hline : ∃ text, node.lineText = .ok text) {module : Tree}
    (hmodule : (∃ m, module = .atom (.str m)) ∨ module = .null) {items : List Tree}
    (hitems : ∀ item ∈ items, item.isItem true = true) (scope : Scope) :
    (markNames fs file scope node module items).Ends := by
  obtain ⟨found, hfound, hcontains⟩ := find?_ok fs hmodule
  refine .of_lift hfound ?_
  cases found with
  | none => exact .pure trivial
  | some m =>
    have hread : (items.mapM fun item => Run.lift (item.get "name")).Completes fun names =>
        ∀ t ∈ names, ∃ n, t = .atom (.str n) := by
      refine .mapM fun item hitem => ?_
      obtain ⟨name, bound, hname, -⟩ := Tree.item_ok (hitems item hitem)
      exact .lift hname ⟨name, rfl⟩
    refine hread.bind fun names hnames => ?_
    have hmarks : (names.forM (Run.markTree m none)).Ends := by
      refine .forM fun t ht => ?_
      obtain ⟨n, rfl⟩ := hnames t ht
      exact .mark m _
    refine hmarks.bind fun _ _ => .ite (fun _ => ?_) fun _ => .pure trivial
    exact markStar_ends hfs hf h hline (hcontains m rfl) scope

/-- The attributes taken of a module at nodes of a source text are texts. -/
theorem markAttributes_ends (h : ∀ x ∈ sites, x.Stands) (package : String) :
    (markAttributes file package sites).Ends := by
  refine .forM fun x hx => ?_
  obtain ⟨up, hup, hnodes⟩ := (h x hx).parent_ok
  refine .of_lift hup (.ite (fun hk => ?_) fun _ => .pure trivial)
  obtain ⟨n, hn⟩ := Tree.attr_ok hk (Tree.inGrammar_of_isSourceNode (Tree.isSourceNode_of_every hnodes))
  have hget : up.get "attr" = .ok (.atom (.str n)) := by
    rw [Tree.get, hn]
  exact .of_lift hget (.mark package _)

theorem contains_of_star (h : fs.Searchable) (p : String) : fs.contains (p ++ "." ++ "*") = false := by
  rw [Bool.eq_false_iff]
  intro hc
  obtain ⟨e, he, hp⟩ := List.any_eq_true.mp hc
  have hlast := List.all_eq_true.mp h.stars e he
  rw [beq_iff_eq.mp hp] at hlast
  simp at hlast

/-- The names of an import from a module that are looked up are keys. -/
theorem markMembers_ends (hfs : fs.Searchable) (h : s.Checkable) {items : List Tree}
    (hitems : ∀ item ∈ items, item.isItem true = true)
    (hkeys : ∀ item ∈ items, s.Knows item) (module : Tree) :
    (markMembers fs file s module items).Ends := by
  refine .forM fun item hitem => ?_
  obtain ⟨name, bound, hname, hbound, hplain⟩ := Tree.item_ok (hitems item hitem)
  refine .of_lift hname (.ite (fun hc => ?_) fun _ => .pure trivial)
  rcases hplain with ⟨rfl, -⟩ | hplain
  · rw [show (Tree.atom (.str "*")).print = "*" from rfl, contains_of_star hfs] at hc
    cases hc
  have hkey : bound ∈ s.names.keys := by
    have hne : bound ≠ "*" := by
      rw [Text.isPlainName, Bool.and_eq_true, bne_iff_ne] at hplain
      exact hplain.1
    obtain ⟨n, hhead, hkey⟩ := (hkeys item hitem).key hbound hne
    rw [Text.head_dottedParts hplain] at hhead
    cases hhead
    exact hkey
  obtain ⟨sites, hsites, hmem⟩ := sitesOf_ok hkey
  refine .of_lift hbound (.of_lift hsites (markAttributes_ends (fun x hx => ?_) _))
  exact (h.sites _ hmem x hx).1

theorem markImportFrom_ends (hfs : fs.Searchable) (hf : file.scopes = .ok f)
    (h : f.Searchable) (hs : f.scope? i = some s) {x : Site} (hx : x ∈ s.imports)
    (hk : x.tree.isKind .importFrom = true) : (markImportFrom fs file s x.tree).Ends := by
  obtain ⟨root, hroot, -⟩ := h.module
  obtain ⟨hstands, himport⟩ := h.imports i s hs x hx
  obtain ⟨items, hitems, hkeys⟩ := h.keys i s hs x hx
  obtain ⟨hline, -⟩ := Site.place_ok hstands (Tree.occurring_of_isImport himport)
  obtain ⟨module, hmodule, htext⟩ :=
    importedModule_ok fs (SourceFile.moduleScope_eq hf hroot) hk hstands.isSourceNode
  obtain ⟨-, -, items', -, -, hitems', -, -, hall⟩ := Tree.importFrom_ok hk hstands.isSourceNode
  obtain rfl : items' = items := Except.ok.inj (hitems'.symm.trans hitems)
  refine .of_lift hmodule (.of_lift hitems ?_)
  refine (markNames_ends hfs hf h.toCheckable hline htext hall s).bind fun _ _ => ?_
  exact markMembers_ends hfs (h.scopes i s hs) hall hkeys module

theorem markDotted_ends {x : Site} (h : x.Stands) (package bound : String) :
    (markDotted file package bound x).Ends := by
  rcases attributeAfter_ok h bound with hnone | ⟨n, hsome⟩
  · exact .of_lift hnone (.pure trivial)
  · exact .of_lift hsome (.ite (fun _ => .mark package _) fun _ => .pure trivial)

theorem markImport_ends (h : f.Searchable) (hs : f.scope? i = some s) {x : Site} (hx : x ∈ s.imports)
    (hk : x.tree.isKind .importStmt = true) : (markImport fs file s x.tree).Ends := by
  obtain ⟨hstands, -⟩ := h.imports i s hs x hx
  obtain ⟨items, hitems, hkeys⟩ := h.keys i s hs x hx
  obtain ⟨items', hitems', hall⟩ := Tree.importStmt_ok hk hstands.isSourceNode
  obtain rfl : items' = items := Except.ok.inj (hitems'.symm.trans hitems)
  refine .of_lift hitems (.forM fun item hitem => ?_)
  obtain ⟨name, bound, hname, hbound, hne⟩ := Tree.item_ok (hall item hitem)
  obtain ⟨found, hfound, -⟩ := find?_ok fs (Or.inl ⟨name, rfl⟩)
  refine .of_lift hname (.of_lift hfound ?_)
  cases found with
  | none => exact .pure trivial
  | some package =>
    obtain ⟨n, hhead, hkey⟩ := (hkeys item hitem).key hbound hne
    obtain ⟨sites, hsites, hmem⟩ := sitesOf_ok hkey
    have hfirst : (Text.dottedParts bound).headD "" = n := by
      rw [List.headD_eq_head?_getD, hhead]
      rfl
    rw [← hfirst] at hsites
    refine .of_lift hbound (.of_lift hsites (.forM fun y hy => ?_))
    exact markDotted_ends ((h.scopes i s hs).sites _ hmem y (List.mem_of_mem_drop hy)).1 package bound

theorem markImports_ends (hfs : fs.Searchable) (hf : file.scopes = .ok f)
    (h : f.Searchable) : (markImports fs file f).Ends := by
  refine .forM fun i _ => ?_
  split
  next => exact .pure trivial
  next s hs =>
    refine .forM fun x hx => .ite (fun hk => ?_) fun _ => .ite (fun hk => ?_) fun _ => .pure trivial
    · exact markImportFrom_ends hfs hf h hs hx hk
    · exact markImport_ends h hs hx hk

theorem markOwn_ends (package : String) (s : Scope) : (markOwn package s).Ends :=
  .forM fun _ _ => .ite (fun _ => .mark package _) fun _ => .pure trivial

theorem markExported_ends (h : f.Checkable) (hs : f.scope? i = some s) (package : String) :
    (markExported package file f s).Ends := by
  obtain ⟨e, he, hnames⟩ := (h.scopes i s hs).exports
  obtain ⟨names, himplicit⟩ := implicitExports_ok h
  have hall : (Run.lift (f.implicitExports 0) >>= Run.markTexts package).Ends :=
    .of_lift himplicit (.markTexts package names)
  refine (Run.Completes.exports he file.package 0).bind ?_
  rintro _ rfl
  split
  next l hl =>
    obtain ⟨marks, hmarks⟩ := exportMarks_ok (hnames l hl) package
    exact .ite (fun _ => .of_lift hmarks (.forM fun k _ => .mark package k)) fun _ => hall
  next => exact hall

theorem markFile_ends (hfs : fs.Searchable) (hf : file.scopes = .ok f)
    (h : f.Searchable) (package : String) : (markFile fs package file).Ends := by
  obtain ⟨s, hs, -⟩ := h.module
  refine .of_lift hf ((markImports_ends hfs hf h).bind fun _ _ => ?_)
  refine .of_lift (SourceFile.moduleScope_eq hf hs) ((markOwn_ends package s).bind fun _ _ => ?_)
  exact .ite (fun _ => markExported_ends h.toCheckable hs package) fun _ => .pure trivial

theorem markAll_ends (hfs : fs.Searchable) : (markAll fs).Ends := by
  refine .forM fun e he => ?_
  obtain ⟨f, hf, hcheck⟩ := hfs.files e (List.mem_mergeSort.mp he)
  exact markFile_ends hfs hf hcheck e.1

theorem reportUnused_ends (hfs : fs.Searchable) : (reportUnused fs).Ends := by
  refine .forM fun e he => ?_
  obtain ⟨f, hf, hcheck⟩ := hfs.files e (List.mem_mergeSort.mp he)
  obtain ⟨s, hs, -⟩ := hcheck.module
  have hscope := hcheck.scopes 0 s hs
  refine .of_lift (SourceFile.moduleScope_eq hf hs) ?_
  rw [Scope.entries_of_no_strays hscope.strays]
  refine .forM fun entry hentry => ?_
  obtain ⟨⟨name, sites⟩, hmem, rfl⟩ := List.mem_map.mp hentry
  refine Run.Completes.get.bind fun known _ => .ite (fun _ => ?_) fun _ => .pure trivial
  cases sites with
  | nil => exact absurd rfl (hscope.entries _ hmem)
  | cons first rest =>
    obtain ⟨hstands, hkind⟩ := hscope.sites _ hmem first List.mem_cons_self
    obtain ⟨⟨line, hline⟩, -⟩ := Site.place_ok hstands hkind
    exact .of_lift hline (.print _)

end Modules

end Usage

end ScopeLint
