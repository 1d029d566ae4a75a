import Mathlib.Data.List.Forall2
import ScopeLint.Proofs.Fault
import ScopeLint.Proofs.Tree.Induction
import ScopeLint.Template.Compile
import ScopeLint.Tree.Role

/-! How a template comes from the body of a function. Names, parameters and attributes are taken as a
whole: they become captures or tests, or stay as they are with all that is inside of them. Everything
else is gone into and keeps its form. -/

namespace ScopeLint

namespace Tree

/-- What a compiled template has in place of a value, if that is a hole. -/
def replacement? (params : List TemplateParam) : Tree → Option Template
  | .node .name _ (id :: _) =>
    (id.str?.filter fun n => !(["True", "False", "None"].contains n)).bind (Template.capture? params)
  | .node .parameter _ (name :: _) => name.str?.bind (Template.capture? params)
  | .node .attribute _ (value :: attr :: _) =>
    if value.identifier? = some "ast" then attr.str?.map fun n => .test (NodeClass.ofName? n) else none
  | _ => none

/-- The nodes that are not gone into: names, parameters and attributes. -/
def isSealed : Tree → Bool
  | .node .name _ (_ :: _) => true
  | .node .parameter _ (_ :: _) => true
  | .node .attribute _ (_ :: _ :: _) => true
  | _ => false

/-- A body as it is looked for: a single expression matches inside of statements too. -/
def pattern : List Tree → Tree
  | [.node .exprStmt _ [value]] => value
  | body => .list body

theorem isSealed_of_replacement? {params : List TemplateParam} {t : Tree} {r : Template}
    (h : t.replacement? params = some r) : t.isSealed = true := by
  unfold replacement? at h
  split at h
  · rfl
  · rfl
  · rfl
  · cases h

end Tree

namespace Template

variable {params : List TemplateParam} {t : Tree} {u : Template} {out out' : List String}

/-- How a template comes from a tree. -/
inductive Compiled (params : List TemplateParam) : Tree → Template → Prop
  | sealed {t : Tree} (h : t.isSealed = true) :
    Compiled params t ((t.replacement? params).getD (ofTree t))
  | atom (a : Atom) : Compiled params (.atom a) (.atom a)
  | list {ts : List Tree} {us : List Template} (hnodes : ∀ t ∈ ts, t.isNode = true)
    (h : List.Forall₂ (Compiled params) ts us) : Compiled params (.list ts) (.list us)
  | node {k : Kind} {s : Span} {fields : List Tree} {us : List Template}
    (hopen : (Tree.node k s fields).isSealed = false) (h : List.Forall₂ (Compiled params) fields us) :
    Compiled params (.node k s fields) (.node k us)

/-! ### What is taken as a whole -/

theorem lift_ok {e : Except Fault Template} (h : (lift e).run out = (.ok u, out')) : e = .ok u := by
  cases e <;> cases h
  rfl

theorem ofNamed_ok {name : Tree} (h : ofNamed params t name = .ok u) :
    u = (name.str?.bind (capture? params)).getD (ofTree t) := by
  cases name with
  | atom a =>
    cases a with
    | str n => exact (Except.ok.inj h).symm
    | _ => exact (Except.ok.inj h).symm
  | list items => cases h
  | node k s fields => exact (Except.ok.inj h).symm

theorem ofName_ok {id : Tree} (h : ofName params t id = .ok u) :
    u = ((id.str?.filter fun n => !(["True", "False", "None"].contains n)).bind
      (capture? params)).getD (ofTree t) := by
  rw [ofName] at h
  cases hid : id.str? with
  | none =>
    rw [hid, Option.any_none, if_neg Bool.false_ne_true] at h
    rw [ofNamed_ok h, hid]
    rfl
  | some n =>
    rw [hid, Option.any_some] at h
    split_ifs at h with hn
    · cases h
      rw [Option.filter_some, hn]
      rfl
    · rw [ofNamed_ok h, hid, Option.filter_some, Bool.eq_false_iff.mpr hn]
      rfl

theorem ofClassName_ok {attr : Tree} (h : ofClassName attr = .ok u) :
    ∃ n, attr.str? = some n ∧ u = .test (NodeClass.ofName? n) := by
  unfold ofClassName at h
  split at h
  next n =>
    refine ⟨n, rfl, ?_⟩
    split at h
    next c hc =>
      cases h
      rw [hc]
    next hnone =>
      split_ifs at h
      cases h
      rw [hnone]
  · cases h

theorem ofAttribute_ok {value attr : Tree} (h : ofAttribute t value attr = .ok u) :
    u = (if value.identifier? = some "ast" then attr.str?.map fun n => .test (NodeClass.ofName? n)
      else none).getD (ofTree t) := by
  have hiff : (value.isKind .name && (value.get? "id").any fun id => id.str? == some "ast") = true ↔
      value.identifier? = some "ast" := by
    rw [Tree.identifier?, Bool.and_eq_true]
    cases value.isKind .name <;> cases value.get? "id" <;> simp
  rw [ofAttribute] at h
  by_cases hvalue : value.identifier? = some "ast"
  · rw [if_pos (hiff.mpr hvalue)] at h
    obtain ⟨n, hn, rfl⟩ := ofClassName_ok h
    rw [if_pos hvalue, hn]
    rfl
  · rw [if_neg (hvalue ∘ hiff.mp)] at h
    cases h
    rw [if_neg hvalue]
    rfl

theorem compile_sealed (ht : t.isSealed = true) (h : (compile params t).run out = (.ok u, out')) :
    u = (t.replacement? params).getD (ofTree t) := by
  unfold Tree.isSealed at ht
  split at ht
  · exact ofName_ok (lift_ok h)
  · obtain ⟨_, _, _, h⟩ := run_bind_ok h
    exact ofNamed_ok (lift_ok h)
  · exact ofAttribute_ok (lift_ok h)
  · cases ht

/-! ### What is gone into -/

/-- Whether a tree is a node if it compiles, and what it compiles to comes from it. -/
def Compiles (params : List TemplateParam) (t : Tree) : Prop :=
  ∀ out out' u, (compile params t).run out = (.ok u, out') → t.isNode = true ∧ Compiled params t u

theorem compiled_compileAll {ts : List Tree} (ih : ∀ t ∈ ts, Compiles params t) {us : List Template}
    (h : (compileAll params ts).run out = (.ok us, out')) :
    (∀ t ∈ ts, t.isNode = true) ∧ List.Forall₂ (Compiled params) ts us := by
  induction ts generalizing out us with
  | nil =>
    cases h
    exact ⟨List.forall_mem_nil _, .nil⟩
  | cons t ts iht =>
    rw [compileAll] at h
    obtain ⟨u, mid, hu, h⟩ := run_bind_ok h
    obtain ⟨vs, mid', hvs, h⟩ := run_bind_ok h
    cases h
    obtain ⟨hnode, hfirst⟩ := ih t List.mem_cons_self _ _ _ hu
    obtain ⟨hnodes, hrest⟩ := iht (fun t ht => ih t (List.mem_cons_of_mem _ ht)) hvs
    exact ⟨List.forall_mem_cons.mpr ⟨hnode, hnodes⟩, .cons hfirst hrest⟩

theorem compiled_compileFields {fields : List Tree}
    (ih : ∀ t ∈ fields, Compiles params t ∧ ∀ items, t = .list items → ∀ i ∈ items, Compiles params i)
    {us : List Template} (h : (compileFields params fields).run out = (.ok us, out')) :
    List.Forall₂ (Compiled params) fields us := by
  induction fields generalizing out us with
  | nil =>
    cases h
    exact .nil
  | cons t ts iht =>
    obtain ⟨u, vs, mid, rfl, hfirst, hvs⟩ : ∃ u vs mid, us = u :: vs ∧ Compiled params t u ∧
        (compileFields params ts).run mid = (.ok vs, out') := by
      cases t with
      | atom a =>
        simp only [compileFields] at h
        obtain ⟨_, _, hu, h⟩ := run_bind_ok h
        cases hu
        obtain ⟨vs, mid, hvs, h⟩ := run_bind_ok h
        cases h
        exact ⟨_, vs, _, rfl, .atom a, hvs⟩
      | list items =>
        simp only [compileFields] at h
        obtain ⟨ws, _, hws, h⟩ := run_bind_ok h
        obtain ⟨_, _, hu, h⟩ := run_bind_ok h
        cases hu
        obtain ⟨vs, mid, hvs, h⟩ := run_bind_ok h
        cases h
        obtain ⟨hnodes, hitems⟩ := compiled_compileAll ((ih _ List.mem_cons_self).2 items rfl) hws
        exact ⟨_, vs, _, rfl, .list hnodes hitems, hvs⟩
      | node k s fields =>
        simp only [compileFields] at h
        obtain ⟨u, mid, hu, h⟩ := run_bind_ok h
        obtain ⟨vs, mid', hvs, h⟩ := run_bind_ok h
        cases h
        exact ⟨u, vs, _, rfl, ((ih _ List.mem_cons_self).1 _ _ _ hu).2, hvs⟩
    exact .cons hfirst (iht (fun t ht => ih t (List.mem_cons_of_mem _ ht)) hvs)

/-- The items of a list are compiled with the node whose field the list is, so the induction is over
the trees and the items of those that are lists. -/
theorem compiles_and_items (params : List TemplateParam) (t : Tree) :
    Compiles params t ∧ ∀ items, t = .list items → ∀ i ∈ items, Compiles params i := by
  induction t using Tree.induct with
  | atom a =>
    refine ⟨?_, fun _ h => by cases h⟩
    intro out out' u h
    cases h
  | list items ih =>
    constructor
    · intro out out' u h
      cases h
    · intro _ h i hi
      cases h
      exact (ih i hi).1
  | node k s fields ih =>
    refine ⟨?_, fun _ h => by cases h⟩
    intro out out' u h
    refine ⟨rfl, ?_⟩
    by_cases hsealed : (Tree.node k s fields).isSealed = true
    · rw [compile_sealed hsealed h]
      exact .sealed hsealed
    · unfold compile at h
      split at h
      · exact absurd rfl hsealed
      · exact absurd rfl hsealed
      · exact absurd rfl hsealed
      · obtain ⟨us, mid, hus, h⟩ := run_bind_ok h
        cases h
        exact .node (Bool.eq_false_iff.mpr hsealed) (compiled_compileFields ih hus)

/-! ### Templates of functions -/

theorem Compiled.eq_node {k : Kind} {s : Span} {fields : List Tree}
    (h : Compiled params (.node k s fields) u) (hopen : (Tree.node k s fields).isSealed = false) :
    ∃ us, u = .node k us ∧ List.Forall₂ (Compiled params) fields us := by
  cases h with
  | sealed h => cases hopen.symm.trans h
  | node _ h => exact ⟨_, rfl, h⟩

theorem hole_of_replacement? (h : t.replacement? params = some u) :
    (∃ a c, u = .capture a c ∧ capture? params a = some u) ∨ ∃ c, u = .test c := by
  have hcapture {name : Option String} (h : name.bind (capture? params) = some u) :
      ∃ a c, u = .capture a c ∧ capture? params a = some u := by
    obtain ⟨a, _, ha⟩ := Option.bind_eq_some_iff.mp h
    obtain ⟨c, _, hc⟩ := Option.bind_eq_some_iff.mp ha
    exact ⟨a, c, (Option.some.inj hc).symm, ha⟩
  unfold Tree.replacement? at h
  split at h
  · exact Or.inl (hcapture h)
  · exact Or.inl (hcapture h)
  · split_ifs at h
    obtain ⟨n, _, rfl⟩ := Option.map_eq_some_iff.mp h
    exact Or.inr ⟨_, rfl⟩
  · cases h

/-- Statements come from statements. -/
theorem Compiled.of_exprStmt {us : List Template} (h : Compiled params t (.node .exprStmt us)) :
    ∃ s fields, t = .node .exprStmt s fields ∧ List.Forall₂ (Compiled params) fields us := by
  generalize hu : Template.node .exprStmt us = u at h
  cases h with
  | sealed ht =>
    cases hr : t.replacement? params with
    | some r =>
      rw [hr] at hu
      rcases hole_of_replacement? hr with ⟨_, _, rfl, _⟩ | ⟨_, rfl⟩
      · cases hu
      · cases hu
    | none =>
      rw [hr] at hu
      cases t with
      | atom a => cases ht
      | list items => cases ht
      | node k s fields =>
        cases hu
        cases ht
  | atom a => cases hu
  | list _ h => cases hu
  | node hopen h =>
    cases hu
    exact ⟨_, _, rfl, h⟩

/-- The template of a function comes from its body, or from the expression that its body is. -/
theorem compiled_ofFunction {body : List Tree} {T : Template}
    (h : (ofFunction params body).run out = (.ok T, out')) :
    Compiled params (Tree.pattern body) T := by
  unfold ofFunction at h
  split at h
  · cases h
  obtain ⟨us, mid, hus, h⟩ := run_bind_ok h
  cases h
  obtain ⟨hnodes, hall⟩ := compiled_compileAll (fun t _ => (compiles_and_items params t).1) hus
  unfold Tree.pattern
  split
  next s value =>
    obtain _ | ⟨hstmt, hrest⟩ := hall
    cases hrest
    obtain ⟨vs, rfl, hvs⟩ := hstmt.eq_node rfl
    obtain _ | ⟨hvalue, hrest⟩ := hvs
    cases hrest
    exact hvalue
  next hbody =>
    unfold unwrap
    split
    next v =>
      obtain _ | ⟨hstmt, hrest⟩ := hall
      cases hrest
      obtain ⟨s, fields, rfl, hfields⟩ := hstmt.of_exprStmt
      obtain _ | ⟨hvalue, hrest⟩ := hfields
      cases hrest
      exact absurd rfl (hbody _ _)
    next => exact .list hnodes hall

end Template

end ScopeLint
