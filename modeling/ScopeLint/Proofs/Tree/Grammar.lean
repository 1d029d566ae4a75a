import ScopeLint.Proofs.Tree.Induction

/-! The grammar of syntax trees: what stands in the fields of a node of each kind. A tree is in the
grammar when all its nodes are. -/

namespace ScopeLint

/-- What a node has to be: of a group, or of one kind. -/
inductive Category where
  | ofGroup (g : Group)
  | ofKind (k : Kind)
deriving DecidableEq

namespace Category

def expr : Category := .ofGroup .expr

def stmt : Category := .ofGroup .stmt

def pattern : Category := .ofGroup .pattern

def context : Category := .ofGroup .exprContext

def admits : Category → Kind → Bool
  | .ofGroup g, k => k.group = g
  | .ofKind k, k' => k' = k

end Category

/-- What stands in a field: a value without nodes, a node, or a list of nodes. In the lists of
`manyOrNull` a node may be missing. -/
inductive Slot where
  | text | optionalText | texts | number | optionalNumber | value
  | one (c : Category)
  | optional (c : Category)
  | many (c : Category)
  | manyOrNull (c : Category)
deriving DecidableEq

namespace Slot

/-- Whether a node of a kind can stand in the field, or in the list there. -/
def admits : Slot → Kind → Bool
  | .one c, k | .optional c, k | .many c, k | .manyOrNull c, k => c.admits k
  | _, _ => false

/-- Whether the field holds no node. -/
def isFlat : Slot → Bool
  | .one _ | .optional _ | .many _ | .manyOrNull _ => false
  | _ => true

def fits : Slot → Tree → Bool
  | .text, .atom (.str _) => true
  | .optionalText, .atom (.str _) | .optionalText, .atom .null => true
  | .texts, .list items => items.all fun t => t.str?.isSome
  | .number, .atom (.int _) => true
  | .optionalNumber, .atom (.int _) | .optionalNumber, .atom .null => true
  | .value, .atom _ => true
  | .one c, t => t.kind?.any c.admits
  | .optional _, .atom .null => true
  | .optional c, t => t.kind?.any c.admits
  | .many c, .list items => items.all fun t => t.kind?.any c.admits
  | .manyOrNull c, .list items => items.all fun t =>
    match t with
    | .atom .null => true
    | t => t.kind?.any c.admits
  | _, _ => false

/-- Whether every field fits its slot. -/
def fitAll : List Slot → List Tree → Bool
  | [], [] => true
  | slot :: slots, t :: ts => slot.fits t && fitAll slots ts
  | _, _ => false

theorem fitAll_cons {slot : Slot} {slots : List Slot} {ts : List Tree}
    (h : fitAll (slot :: slots) ts = true) :
    ∃ t ts', ts = t :: ts' ∧ slot.fits t = true ∧ fitAll slots ts' = true := by
  cases ts with
  | nil => cases h
  | cons t ts =>
    rw [fitAll, Bool.and_eq_true] at h
    exact ⟨t, ts, rfl, h.1, h.2⟩

theorem eq_nil_of_fitAll {ts : List Tree} (h : fitAll [] ts = true) : ts = [] := by
  cases ts with
  | nil => rfl
  | cons t ts => cases h

theorem fits_of_mem {slots : List Slot} {ts : List Tree} (h : fitAll slots ts = true) :
    ∀ t ∈ ts, ∃ slot ∈ slots, slot.fits t = true := by
  induction slots generalizing ts with
  | nil =>
    rw [eq_nil_of_fitAll h]
    simp
  | cons slot slots ih =>
    obtain ⟨t, ts, rfl, ht, h⟩ := fitAll_cons h
    intro u hu
    rcases List.mem_cons.mp hu with rfl | hu
    · exact ⟨slot, List.mem_cons_self, ht⟩
    · obtain ⟨slot', hslot', hfits⟩ := ih h u hu
      exact ⟨slot', List.mem_cons_of_mem _ hslot', hfits⟩

theorem admits_of_fits {slot : Slot} {k : Kind} {s : Span} {fields : List Tree}
    (h : slot.fits (.node k s fields) = true) : slot.admits k = true := by
  cases slot <;> first | exact h | cases h

/-- In a list stand atoms, and nodes of a kind that may stand there. -/
theorem fits_item {slot : Slot} {items : List Tree} (h : slot.fits (.list items) = true) {u : Tree}
    (hu : u ∈ items) : (∃ a, u = .atom a) ∨ ∃ k s fields, u = .node k s fields ∧ slot.admits k = true := by
  cases slot with
  | many c =>
    have hany := List.all_eq_true.mp h u hu
    cases u with
    | node k s fields => exact .inr ⟨k, s, fields, rfl, hany⟩
    | atom a => exact .inl ⟨a, rfl⟩
    | list items => cases hany
  | manyOrNull c =>
    have hany := List.all_eq_true.mp h u hu
    cases u with
    | node k s fields => exact .inr ⟨k, s, fields, rfl, hany⟩
    | atom a => exact .inl ⟨a, rfl⟩
    | list items => cases hany
  | texts =>
    have hstr := List.all_eq_true.mp h u hu
    cases u with
    | atom a => exact .inl ⟨a, rfl⟩
    | list _ => cases hstr
    | node _ _ _ => cases hstr
  | _ => cases h

theorem not_admits_of_flat {slot : Slot} (hs : slot.isFlat = true) (k : Kind) :
    slot.admits k = false := by
  cases slot <;> first | rfl | cases hs

/-- Without nodes, a field holds an atom or a list of atoms. -/
theorem atoms_of_flat {slot : Slot} {t : Tree} (hs : slot.isFlat = true) (h : slot.fits t = true) :
    (∃ a, t = .atom a) ∨ ∃ items, t = .list items ∧ ∀ u ∈ items, ∃ a, u = .atom a := by
  cases t with
  | atom a => exact .inl ⟨a, rfl⟩
  | node k s fields =>
    have hk := admits_of_fits h
    rw [not_admits_of_flat hs] at hk
    cases hk
  | list items =>
    refine .inr ⟨items, rfl, fun u hu => (fits_item h hu).resolve_right ?_⟩
    rintro ⟨k, s, fields, -, hk⟩
    rw [not_admits_of_flat hs] at hk
    cases hk

end Slot

namespace Kind

open Slot in
/-- The fields of the nodes of a kind. -/
def slots : Kind → List Slot
  | .importAlias => [text, optionalText]
  | .parameter => [text, optional .expr, optionalText]
  | .parameters =>
    [many (.ofKind .parameter), many (.ofKind .parameter), optional (.ofKind .parameter),
     many (.ofKind .parameter), manyOrNull .expr, optional (.ofKind .parameter),
     many .expr]
  | .comprehension => [one .expr, one .expr, many .expr, number]
  | .keywordArg => [optionalText, one .expr]
  | .matchCase => [one .pattern, optional .expr, many .stmt]
  | .withItem => [one .expr, optional .expr]
  | .exceptHandler => [optional .expr, optionalText, many .stmt]
  | .attribute => [one .expr, text, one .context]
  | .await | .yieldFrom | .exprStmt | .expression | .matchValue => [one .expr]
  | .binOp | .augAssign => [one .expr, one (.ofGroup .operator), one .expr]
  | .boolOp => [one (.ofGroup .boolop), many .expr]
  | .call => [one .expr, many .expr, many (.ofKind .keywordArg)]
  | .compare => [one .expr, many (.ofGroup .cmpop), many .expr]
  | .constant => [value, optionalText]
  | .dict => [manyOrNull .expr, many .expr]
  | .dictComp => [one .expr, one .expr, many (.ofKind .comprehension)]
  | .formattedValue => [one .expr, number, optional .expr]
  | .generatorExp | .listComp | .setComp => [one .expr, many (.ofKind .comprehension)]
  | .ifExp => [one .expr, one .expr, one .expr]
  | .joinedStr | .set | .deleteStmt => [many .expr]
  | .lambda => [one (.ofKind .parameters), one .expr]
  | .list | .tuple => [many .expr, one .context]
  | .name => [text, one .context]
  | .namedExpr => [one .expr, one .expr]
  | .slice => [optional .expr, optional .expr, optional .expr]
  | .starred => [one .expr, one .context]
  | .subscript => [one .expr, one .expr, one .context]
  | .unaryOp => [one (.ofGroup .unaryop), one .expr]
  | .yield | .returnStmt => [optional .expr]
  | .functionType => [many .expr, one .expr]
  | .interactive => [many .stmt]
  | .module => [many .stmt, many (.ofGroup .typeIgnore)]
  | .matchAs => [optional .pattern, optionalText]
  | .matchClass => [one .expr, many .pattern, texts, many .pattern]
  | .matchMapping => [many .expr, many .pattern, optionalText]
  | .matchOr | .matchSequence => [many .pattern]
  | .matchSingleton => [value]
  | .matchStar => [optionalText]
  | .annAssign => [one .expr, one .expr, optional .expr, number]
  | .assertStmt => [one .expr, optional .expr]
  | .assign => [many .expr, one .expr, optionalText]
  | .forStmt | .asyncFor =>
    [one .expr, one .expr, many .stmt, many .stmt, optionalText]
  | .functionDef | .asyncFunctionDef =>
    [text, one (.ofKind .parameters), many .stmt, many .expr, optional .expr,
     optionalText]
  | .withStmt | .asyncWith => [many (.ofKind .withItem), many .stmt, optionalText]
  | .classDef =>
    [text, many .expr, many (.ofKind .keywordArg), many .stmt, many .expr]
  | .globalStmt | .nonlocalStmt => [texts]
  | .ifStmt | .whileStmt => [one .expr, many .stmt, many .stmt]
  | .importStmt => [many (.ofKind .importAlias)]
  | .importFrom => [optionalText, many (.ofKind .importAlias), optionalNumber]
  | .matchStmt => [one .expr, many (.ofKind .matchCase)]
  | .raiseStmt => [optional .expr, optional .expr]
  | .tryStmt | .tryStar =>
    [many .stmt, many (.ofGroup .excepthandler), many .stmt, many .stmt]
  | .typeIgnore => [number, text]
  | _ => []

end Kind

namespace Tree

/-- Whether the fields of a node are those of its kind. -/
def inGrammar : Tree → Bool
  | .node k _ fields => Slot.fitAll k.slots fields
  | _ => true

/-- A module all of whose nodes are in the grammar. -/
structure IsProgram (t : Tree) : Prop where
  module : t.isKind .module = true
  grammar : t.every inGrammar = true

/-! ### What stands in a field -/

/-- The nodes that stand directly in the value of a field. -/
def heads : Tree → List Tree
  | .list items => items
  | t => [t]

theorem eq_of_str? {t : Tree} {s : String} (h : t.str? = some s) : t = .atom (.str s) := by
  unfold str? at h
  split at h
  · rw [Option.some.inj h]
  · cases h

theorem eq_text {t : Tree} (h : Slot.text.fits t = true) : ∃ n, t = .atom (.str n) := by
  cases t with
  | atom a => cases a <;> first | exact ⟨_, rfl⟩ | cases h
  | list items => cases h
  | node k s fields => cases h

theorem eq_optionalText {t : Tree} (h : Slot.optionalText.fits t = true) :
    (∃ n, t = .atom (.str n)) ∨ t = .null := by
  cases t with
  | atom a => cases a <;> first | exact .inl ⟨_, rfl⟩ | exact .inr rfl | cases h
  | list items => cases h
  | node k s fields => cases h

theorem eq_optionalNumber {t : Tree} (h : Slot.optionalNumber.fits t = true) :
    (∃ n, t = .atom (.int n)) ∨ t = .null := by
  cases t with
  | atom a => cases a <;> first | exact .inl ⟨_, rfl⟩ | exact .inr rfl | cases h
  | list items => cases h
  | node k s fields => cases h

theorem eq_list_of_many {c : Category} {t : Tree} (h : (Slot.many c).fits t = true) :
    ∃ items, t = .list items := by
  cases t with
  | list items => exact ⟨items, rfl⟩
  | atom a => cases h
  | node k s fields => cases h

/-- What stands in a field is of a kind that may stand there. -/
theorem heads_admitted {slot : Slot} {t : Tree} (h : slot.fits t = true) :
    ∀ u ∈ t.heads, ∀ k, u.kind? = some k → slot.admits k = true := by
  intro u hu k hk
  cases t with
  | atom a =>
    obtain rfl := List.mem_singleton.mp hu
    cases hk
  | node k' s fields =>
    obtain rfl := List.mem_singleton.mp hu
    cases hk
    exact Slot.admits_of_fits h
  | list items =>
    obtain ⟨a, rfl⟩ | ⟨k', s, fields, rfl, hadmits⟩ := Slot.fits_item h hu
    · cases hk
    · cases hk
      exact hadmits

theorem eq_node_of_fits {k : Kind} {t : Tree} (h : (Slot.one (.ofKind k)).fits t = true) :
    ∃ s fields, t = .node k s fields := by
  cases t with
  | node k' s fields =>
    obtain rfl : k' = k := of_decide_eq_true h
    exact ⟨s, fields, rfl⟩
  | atom a => cases h
  | list items => cases h

/-! ### Modules stand alone -/

/-- A module stands in no field. -/
theorem not_admits_module (k : Kind) : ∀ slot ∈ k.slots, slot.admits .module = false := by
  cases k <;> decide

theorem mem_kindsOfAll {k : Kind} {ts : List Tree} (h : k ∈ kindsOfAll ts) : ∃ t ∈ ts, k ∈ t.kinds := by
  induction ts with
  | nil => cases h
  | cons t ts ih =>
    rw [kindsOfAll, List.mem_append] at h
    rcases h with h | h
    · exact ⟨t, List.mem_cons_self, h⟩
    · obtain ⟨u, hu, hk⟩ := ih h
      exact ⟨u, List.mem_cons_of_mem _ hu, hk⟩

/-- What fits a field for other nodes is no module and holds none. -/
theorem module_not_mem_kinds : ∀ t : Tree, t.every inGrammar = true → ∀ slot : Slot,
    slot.admits .module = false → slot.fits t = true → .module ∉ t.kinds := by
  intro t
  induction t using Tree.induct with
  | atom a => intro _ _ _ _ h; cases h
  | list items ih =>
    intro hg slot hslot hfits hmem
    rw [every, everyOfAll_iff] at hg
    obtain ⟨u, hu, hmem⟩ := mem_kindsOfAll hmem
    obtain ⟨a, rfl⟩ | ⟨k, s, fields, rfl, hadmits⟩ := Slot.fits_item hfits hu
    · cases hmem
    · refine ih _ hu (hg _ hu) (.one (.ofKind k)) ?_ (decide_eq_true rfl) hmem
      refine decide_eq_false ?_
      rintro rfl
      rw [hslot] at hadmits
      cases hadmits
  | node k s fields ih =>
    intro hg slot hslot hfits hmem
    rw [every, Bool.and_eq_true, everyOfAll_iff] at hg
    rcases List.mem_cons.mp hmem with rfl | hmem
    · rw [Slot.admits_of_fits hfits] at hslot
      cases hslot
    · obtain ⟨u, hu, hmem⟩ := mem_kindsOfAll hmem
      obtain ⟨slot', hslot', hfits'⟩ := Slot.fits_of_mem hg.1 u hu
      exact ih u hu (hg.2 u hu) slot' (not_admits_module k slot' hslot') hfits' hmem

/-- In a program only the root is a module. -/
theorem IsProgram.one_module {t : Tree} (h : t.IsProgram) : t.kinds.count .module = 1 := by
  obtain ⟨hm, hg⟩ := h
  cases t with
  | atom a => cases hm
  | list items => cases hm
  | node k s fields =>
    obtain rfl : k = .module := by simpa [isKind, kind?] using hm
    rw [every, Bool.and_eq_true, everyOfAll_iff] at hg
    rw [kinds, List.count_cons_self, Nat.add_eq_right, List.count_eq_zero]
    intro hmem
    obtain ⟨u, hu, hmem⟩ := mem_kindsOfAll hmem
    obtain ⟨slot, hslot, hfits⟩ := Slot.fits_of_mem hg.1 u hu
    exact module_not_mem_kinds u (hg.2 u hu) slot (not_admits_module _ slot hslot) hfits hmem

end Tree

end ScopeLint
