import ScopeLint.Proofs.Template.Compiled
import ScopeLint.Proofs.Template.Parts
import ScopeLint.Template.Stock

/-! Where a template has holes. A name or a parameter of the body that is a parameter of the function is
a capture at the same place of the template, an attribute of `ast` is a test, and everything else is as
it is in the body. This holds of all places but those inside of names, parameters and attributes: there
nothing is a hole. -/

namespace ScopeLint

/-- Whether a way leads into no name, parameter or attribute. -/
def Tree.Exposed : Tree → List Way → Prop
  | _, [] => True
  | t, w :: ways => t.isSealed = false ∧ ∀ u, t.below? w = some u → u.Exposed ways

theorem exists_mem_zip {α β : Type} {R : α → β → Prop} {l : List α} {l' : List β}
    (h : List.Forall₂ R l l') {names : List String} {name : String} {a : α}
    (ha : (name, a) ∈ names.zip l) : ∃ b, (name, b) ∈ names.zip l' ∧ R a b := by
  induction h generalizing names with
  | nil =>
    rw [List.zip_nil_right] at ha
    cases ha
  | cons hr _ ih =>
    cases names with
    | nil => cases ha
    | cons name' names =>
      rcases List.mem_cons.mp ha with heq | ha
      · cases heq
        exact ⟨_, List.mem_cons_self, hr⟩
      · obtain ⟨b, hb, hr⟩ := ih ha
        exact ⟨b, List.mem_cons_of_mem _ hb, hr⟩

namespace Template

variable {params : List TemplateParam} {t v : Tree} {u T : Template} {w : Way} {ways : List Way}

/-- A part of a template has the constant, the length or the kind of a value. -/
def SameHead : Tree → Template → Prop
  | .atom a, u => u = .atom a
  | .list ts, u => ∃ us, u = .list us ∧ us.length = ts.length
  | .node k _ fields, u => ∃ us, u = .node k us ∧ us.length = fields.length

theorem Compiled.sameHead (h : Compiled params t u) (hopen : t.isSealed = false) : SameHead t u := by
  cases h with
  | sealed ht => cases hopen.symm.trans ht
  | atom a => rfl
  | list _ h => exact ⟨_, rfl, h.length_eq.symm⟩
  | node _ h => exact ⟨_, rfl, h.length_eq.symm⟩

theorem Compiled.eq_of_isSealed (h : Compiled params t u) (ht : t.isSealed = true) :
    u = (t.replacement? params).getD (ofTree t) := by
  cases h with
  | sealed _ => rfl
  | atom a => cases ht
  | list _ h => cases ht
  | node hopen h => cases hopen.symm.trans ht

/-- One step into what is gone into. -/
theorem Compiled.below? (h : Compiled params t u) (hopen : t.isSealed = false)
    (hv : t.below? w = some v) : ∃ u', u.below? w = some u' ∧ Compiled params v u' := by
  cases h with
  | sealed ht => cases hopen.symm.trans ht
  | atom a => cases w <;> cases hv
  | list hnodes h =>
    obtain ⟨t, ts, rfl, hw⟩ := Tree.below?_list.mp hv
    obtain _ | ⟨hfirst, hrest⟩ := h
    rcases hw with ⟨rfl, rfl⟩ | ⟨rfl, rfl⟩
    · exact ⟨_, rfl, hfirst⟩
    · exact ⟨_, rfl, .list (List.forall_mem_cons.mp hnodes).2 hrest⟩
  | node _ h =>
    obtain ⟨name, rfl, hname⟩ := Tree.below?_node.mp hv
    obtain ⟨u', hu', hcompiled⟩ := exists_mem_zip h hname
    exact ⟨u', below?_node.mpr ⟨name, rfl, hu'⟩, hcompiled⟩

theorem Compiled.at? (h : Compiled params t u) (hv : t.at? ways = some v) (hx : t.Exposed ways) :
    ∃ u', u.at? ways = some u' ∧ Compiled params v u' := by
  induction ways generalizing t u with
  | nil =>
    cases hv
    exact ⟨u, rfl, h⟩
  | cons w ways ih =>
    obtain ⟨t', ht', hv⟩ := Option.bind_eq_some_iff.mp hv
    obtain ⟨u', hu', h'⟩ := h.below? hx.1 ht'
    obtain ⟨u'', hu'', h''⟩ := ih h' hv (hx.2 t' ht')
    refine ⟨u'', ?_, h''⟩
    rw [Template.at?, hu']
    exact hu''

/-- **Holes of a template.** At every place of the body that is not inside of a name, a parameter or an
attribute, the template of a function has the capture or test that stands for the value there, or else
the value itself, as far as it goes: all of a name, a parameter or an attribute, and of anything else the
constant, the length or the kind. -/
theorem holes_of_function {body : List Tree} {out out' : List String}
    (h : (ofFunction params body).run out = (.ok T, out')) (ways : List Way) {t : Tree}
    (ht : (Tree.pattern body).at? ways = some t) (hx : (Tree.pattern body).Exposed ways) :
    ∃ u, T.at? ways = some u ∧ (∀ r, t.replacement? params = some r → u = r) ∧
      (t.replacement? params = none → t.isSealed = true → u = ofTree t) ∧
      (t.isSealed = false → SameHead t u) := by
  obtain ⟨u, hu, hcompiled⟩ := (compiled_ofFunction h).at? ht hx
  refine ⟨u, hu, fun r hr => ?_, fun hnone hsealed => ?_, hcompiled.sameHead⟩
  · rw [hcompiled.eq_of_isSealed (Tree.isSealed_of_replacement? hr), hr]
    rfl
  · rw [hcompiled.eq_of_isSealed hsealed, hnone]
    rfl

/-- An attribute of an expression. -/
def attributeOf (value : Tree) (attr : String) : Tree :=
  plain .attribute (value :: .atom (.str attr) :: [plain .load []])

/-- In `f(x, x.foo)` the first argument is a capture, and the second one stays as it is. -/
theorem holes_of_function_call :
    ∃ T, (ofFunction [("x", some (.one (.group .expr)))] [plain .exprStmt [plain .call [nameRead "f",
        .list [nameRead "x", attributeOf (nameRead "x") "foo"], .list []]]]).run [] = (.ok T, []) ∧
      T.at? [.field "args", .head] = some (.capture "x" (.one (.group .expr))) ∧
      T.at? [.field "args", .tail, .head] = some (ofTree (attributeOf (nameRead "x") "foo")) := by
  let args := Tree.list [nameRead "x", attributeOf (nameRead "x") "foo"]
  have hrun : (ofFunction [("x", some (.one (.group .expr)))] [plain .exprStmt [plain .call
      [nameRead "f", args, .list []]]]).run [] = (.ok (.node .call [ofTree (nameRead "f"),
        .list [.capture "x" (.one (.group .expr)), ofTree (attributeOf (nameRead "x") "foo")],
        .list []]), []) := rfl
  have hargs : ∀ ways, args.Exposed ways →
      (plain .call [nameRead "f", args, .list []]).Exposed (.field "args" :: ways) :=
    fun ways hways => ⟨rfl, fun u hu => Option.some.inj hu ▸ hways⟩
  refine ⟨_, hrun, ?_, ?_⟩
  · obtain ⟨u, hu, hhole, _⟩ := holes_of_function hrun [.field "args", .head] rfl
      (hargs _ ⟨rfl, fun _ _ => trivial⟩)
    rw [hu, hhole _ rfl]
  · obtain ⟨u, hu, _, hkept, _⟩ := holes_of_function hrun [.field "args", .tail, .head] rfl
      (hargs _ ⟨rfl, fun u hu => Option.some.inj hu ▸ ⟨rfl, fun _ _ => trivial⟩⟩)
    rw [hu, hkept rfl rfl]

/-- In `x.foo` the name stays a name, although it is a parameter. -/
theorem name_in_attribute_kept :
    ∃ T, (ofFunction [("x", some (.one (.group .expr)))]
        [plain .exprStmt [attributeOf (nameRead "x") "foo"]]).run [] = (.ok T, []) ∧
      (Tree.pattern [plain .exprStmt [attributeOf (nameRead "x") "foo"]]).at? [.field "value"] =
        some (nameRead "x") ∧
      (nameRead "x").replacement? [("x", some (.one (.group .expr)))] =
        some (.capture "x" (.one (.group .expr))) ∧
      T.at? [.field "value"] = some (ofTree (nameRead "x")) :=
  ⟨ofTree (attributeOf (nameRead "x") "foo"), rfl, rfl, rfl, rfl⟩

end Template

end ScopeLint
