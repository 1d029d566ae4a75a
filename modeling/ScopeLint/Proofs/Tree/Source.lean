import ScopeLint.Project.Import
import ScopeLint.Proofs.Fault
import ScopeLint.Proofs.Tree.Grammar

/-! Trees as they come out of a parser. They are in the grammar, their nodes have a place where nodes of
the kind have one, and the items of import statements are names that can stand there. What is looked for
in a node of such a tree is found. -/

namespace ScopeLint

/-- A name without points that is no star. -/
def Text.isPlainName (s : String) : Bool := s != "*" && !s.toList.contains '.'

/-- A name without points is its own first part. -/
theorem Text.head_dottedParts {n : String} (h : isPlainName n = true) :
    (dottedParts n).head? = some n := by
  rw [isPlainName, Bool.and_eq_true, Bool.not_eq_true', List.contains_eq_mem, decide_eq_false_iff_not] at h
  have hone : n.toList.splitOn '.' = [n.toList] := by
    apply List.splitOnP_eq_singleton
    intro c hc
    rw [beq_eq_false_iff_ne]
    rintro rfl
    exact h.2 hc
  rw [dottedParts, hone]
  simp

namespace Tree

/-- Whether a node has its place in the source in whole numbers, if nodes of its kind have one. -/
def isPlaced : Tree → Bool
  | .node k s _ => !k.located || match s.line, s.column with
    | some (.int _), some (.int _) => true
    | _, _ => false
  | _ => true

/-- Whether an item can stand in an import statement. Only what is imported from a module can be a star,
which then has no other name, and it has no points. -/
def isItem (fromModule : Bool) : Tree → Bool
  | .node .importAlias _ [.atom (.str name), .atom .null] =>
    if fromModule then name == "*" || Text.isPlainName name else name != "*"
  | .node .importAlias _ [.atom (.str name), .atom (.str asname)] =>
    Text.isPlainName asname && if fromModule then Text.isPlainName name else name != "*"
  | _ => false

/-- Whether the items of an import statement can stand in it. -/
def hasItems : Tree → Bool
  | .node .importStmt _ [.list items] => items.all (isItem false)
  | .node .importFrom _ (_ :: .list items :: _) => items.all (isItem true)
  | _ => true

def isSourceNode (t : Tree) : Bool := t.inGrammar && t.isPlaced && t.hasItems

/-- A module as it comes out of a parser. -/
structure IsSource (t : Tree) : Prop where
  module : t.isKind .module = true
  nodes : t.every isSourceNode = true

theorem inGrammar_of_isSourceNode {t : Tree} (h : t.isSourceNode = true) : t.inGrammar = true := by
  rw [isSourceNode, Bool.and_eq_true, Bool.and_eq_true] at h
  exact h.1.1

theorem isPlaced_of_isSourceNode {t : Tree} (h : t.isSourceNode = true) : t.isPlaced = true := by
  rw [isSourceNode, Bool.and_eq_true, Bool.and_eq_true] at h
  exact h.1.2

theorem hasItems_of_isSourceNode {t : Tree} (h : t.isSourceNode = true) : t.hasItems = true := by
  rw [isSourceNode, Bool.and_eq_true] at h
  exact h.2

theorem IsSource.isProgram {t : Tree} (h : t.IsSource) : t.IsProgram :=
  ⟨h.module, every_mono (fun _ => inGrammar_of_isSourceNode) h.nodes⟩

theorem isSourceNode_of_every {t : Tree} (h : t.every isSourceNode = true) : t.isSourceNode = true := by
  cases t with
  | node k s fields =>
    rw [every, Bool.and_eq_true] at h
    exact h.1
  | atom a => rfl
  | list items => rfl

/-! ### The place of a node -/

theorem located_fields (k : Kind) (h : k.located = true) :
    "lineno" ∉ k.fields ∧ "col_offset" ∉ k.fields := by
  revert h
  cases k <;> decide

/-- What is no field of a node is a part of its place. -/
theorem get?_of_not_field {k : Kind} {s : Span} {fields : List Tree} {key : String}
    (h : key ∉ k.fields) : (Tree.node k s fields).get? key = (s.get? k key).map .atom := by
  have hnone : (k.fields.zip fields).lookup key = none := by
    rw [List.lookup_eq_none_iff]
    intro e he
    rw [bne_iff_ne]
    rintro rfl
    exact h (List.of_mem_zip he).1
  rw [get?, hnone]

/-- A node has its line and its column. -/
theorem span_ok {t : Tree} (hk : t.kind?.any Kind.located = true) (h : t.isPlaced = true) :
    ∃ m n, t.get "lineno" = .ok (.atom (.int m)) ∧ t.get "col_offset" = .ok (.atom (.int n)) := by
  cases t with
  | atom a => cases hk
  | list items => cases hk
  | node k s fields =>
    have hlocated : k.located = true := hk
    obtain ⟨m, n, hline, hcolumn⟩ : ∃ m n, s.line = some (.int m) ∧ s.column = some (.int n) := by
      simp only [isPlaced, hlocated, Bool.not_true, Bool.false_or] at h
      split at h
      next m n hm hn => exact ⟨m, n, hm, hn⟩
      next => cases h
    refine ⟨m, n, ?_, ?_⟩
    · rw [get, get?_of_not_field (located_fields k hlocated).1]
      simp [Span.get?, hline]
    · rw [get, get?_of_not_field (located_fields k hlocated).2]
      simp [Span.get?, hcolumn]

/-- The place of a node can be told. -/
theorem place_ok {t : Tree} (hk : t.kind?.any Kind.located = true) (h : t.isPlaced = true) :
    (∃ text, t.lineText = .ok text) ∧ ∃ text, t.placeText = .ok text := by
  obtain ⟨m, n, hm, hn⟩ := span_ok hk h
  rw [lineText, placeText, hm, hn]
  exact ⟨⟨_, rfl⟩, _, rfl⟩

/-! ### What a node does to its name -/

theorem isWrite_ok {t : Tree} (hk : t.isKind .name = true ∨ t.isOneOf binders = true)
    (h : t.inGrammar = true) : ∃ b, t.isWrite = .ok b := by
  rw [isWrite]
  split_ifs with hb
  · exact ⟨true, rfl⟩
  · cases t with
    | atom a => cases hk.resolve_right hb
    | list items => cases hk.resolve_right hb
    | node k s fields =>
      obtain rfl : k = .name := by simpa [isKind, kind?] using hk.resolve_right hb
      obtain ⟨id, ts, rfl, -, h⟩ := Slot.fitAll_cons h
      obtain ⟨ctx, ts, rfl, -, h⟩ := Slot.fitAll_cons h
      exact ⟨_, rfl⟩

theorem attr_ok {t : Tree} (hk : t.isKind .attribute = true) (h : t.inGrammar = true) :
    ∃ n, t.get? "attr" = some (.atom (.str n)) := by
  cases t with
  | atom a => cases hk
  | list items => cases hk
  | node k s fields =>
    obtain rfl : k = .attribute := by simpa [isKind, kind?] using hk
    obtain ⟨value, ts, rfl, -, h⟩ := Slot.fitAll_cons h
    obtain ⟨attr, ts, rfl, hattr, h⟩ := Slot.fitAll_cons h
    obtain ⟨n, rfl⟩ := eq_text hattr
    exact ⟨n, rfl⟩

/-! ### Assignments -/

/-- The parts of an assignment. -/
theorem assign_ok {t : Tree} (hk : t.isKind .assign = true) (h : t.every inGrammar = true) :
    ∃ items value, t.get "targets" = .ok (.list items) ∧ t.get "value" = .ok value ∧
      value.every inGrammar = true := by
  cases t with
  | atom a => cases hk
  | list items => cases hk
  | node k s fields =>
    obtain rfl : k = .assign := by simpa [isKind, kind?] using hk
    rw [every, Bool.and_eq_true, everyOfAll_iff] at h
    obtain ⟨targets, ts, rfl, htargets, hrest⟩ := Slot.fitAll_cons h.1
    obtain ⟨value, ts, rfl, -, -⟩ := Slot.fitAll_cons hrest
    obtain ⟨items, rfl⟩ := eq_list_of_many htargets
    exact ⟨items, value, rfl, rfl, h.2 value (by simp)⟩

/-! ### Import statements -/

/-- The name of an item of an import statement, and the name that it is bound to. -/
theorem item_ok {fromModule : Bool} {item : Tree} (h : item.isItem fromModule = true) :
    ∃ name bound, item.get "name" = .ok (.atom (.str name)) ∧
      item.boundName = .ok (.atom (.str bound)) ∧
      if fromModule then name = "*" ∧ bound = "*" ∨ Text.isPlainName bound = true else bound ≠ "*" := by
  unfold isItem at h
  split at h
  next s name =>
    refine ⟨name, name, rfl, rfl, ?_⟩
    cases fromModule with
    | false => simpa using h
    | true => simpa using h
  next s name asname =>
    rw [Bool.and_eq_true] at h
    by_cases hempty : asname = ""
    · subst hempty
      refine ⟨name, name, rfl, rfl, ?_⟩
      cases fromModule with
      | false => simpa using h.2
      | true => exact Or.inr h.2
    · refine ⟨name, asname, rfl, ?_, ?_⟩
      · have htruth : (Tree.atom (.str asname)).truth = true := by
          simp [truth, Atom.truth, hempty]
        show (if (Tree.atom (.str asname)).truth then _ else _) = _
        rw [htruth]
        rfl
      · cases fromModule with
        | false =>
          have hplain := h.1
          rw [Text.isPlainName, Bool.and_eq_true, bne_iff_ne] at hplain
          exact hplain.1
        | true => exact Or.inr h.1
  next => cases h

/-- The items of an import of modules. -/
theorem importStmt_ok {t : Tree} (hk : t.isKind .importStmt = true) (h : t.isSourceNode = true) :
    ∃ items, importedItems t = .ok items ∧ ∀ item ∈ items, item.isItem false = true := by
  cases t with
  | atom a => cases hk
  | list items => cases hk
  | node k s fields =>
    obtain rfl : k = .importStmt := by simpa [isKind, kind?] using hk
    obtain ⟨names, ts, rfl, hnames, hrest⟩ := Slot.fitAll_cons (inGrammar_of_isSourceNode h)
    obtain rfl := Slot.eq_nil_of_fitAll hrest
    obtain ⟨items, rfl⟩ := eq_list_of_many hnames
    exact ⟨items, rfl, List.all_eq_true.mp (hasItems_of_isSourceNode h)⟩

/-- The parts of an import from a module. -/
theorem importFrom_ok {t : Tree} (hk : t.isKind .importFrom = true) (h : t.isSourceNode = true) :
    ∃ module level items, t.get "module" = .ok module ∧ t.get "level" = .ok level ∧
      importedItems t = .ok items ∧ ((∃ m, module = .atom (.str m)) ∨ module = .null) ∧
      ((∃ n, level = .atom (.int n)) ∨ level = .null) ∧ ∀ item ∈ items, item.isItem true = true := by
  cases t with
  | atom a => cases hk
  | list items => cases hk
  | node k s fields =>
    obtain rfl : k = .importFrom := by simpa [isKind, kind?] using hk
    obtain ⟨module, ts, rfl, hmodule, hrest⟩ := Slot.fitAll_cons (inGrammar_of_isSourceNode h)
    obtain ⟨names, ts, rfl, hnames, hrest⟩ := Slot.fitAll_cons hrest
    obtain ⟨level, ts, rfl, hlevel, -⟩ := Slot.fitAll_cons hrest
    obtain ⟨items, rfl⟩ := eq_list_of_many hnames
    refine ⟨module, level, items, rfl, rfl, rfl, eq_optionalText hmodule, eq_optionalNumber hlevel, ?_⟩
    exact List.all_eq_true.mp (hasItems_of_isSourceNode h)

end Tree

end ScopeLint
