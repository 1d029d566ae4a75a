import ScopeLint.Proofs.Scope.Parameters
import ScopeLint.Proofs.Tree.Sample
import ScopeLint.Proofs.Usage.Undefined

/-! Which names are reported as never used within a file. For a function or a lambda the report says just
that all which belongs to it is writes, of a name that is neither `_` nor a parameter. A class is never
reported on. A name of the module that is reported is read nowhere as one of the module. -/

namespace ScopeLint

namespace Usage

variable {s : Scope} {n : String} {first : Site} {sites : List Site}

/-! ### What is let pass -/

/-- Outside a module only `_` and parameters are let pass. -/
theorem isExcused_inner (h : s.isModule = false) :
    isExcused s n first = (decide (n = "_") || first.tree.isParam) := by
  have hexports : s.exports = .ok ⟨some (.list []), false⟩ := by
    rw [Scope.exports, h]
    rfl
  have hnothing : literalContains n (.list []) = .ok false := rfl
  simp [isExcused, h, hexports, hnothing, Except.toOption]

theorem isUnused_inner (h : s.isModule = false) :
    isUnused s n sites = true ↔ s.isClass = false ∧ sites ≠ [] ∧ (∀ x ∈ sites, x.tree.writes = true) ∧
      n ≠ "_" ∧ ∀ first, sites.head? = some first → first.tree.isParam = false := by
  cases sites with
  | nil => simp [isUnused]
  | cons first rest =>
    rw [isUnused, isExcused_inner h]
    simp [and_assoc]

theorem isUnused_class (h : s.isClass = true) : isUnused s n sites = false := by
  cases sites with
  | nil => rfl
  | cons first rest => simp [isUnused, h]

theorem writes_of_isUnused (h : isUnused s n sites = true) : ∀ x ∈ sites, x.tree.writes = true := by
  cases sites with
  | nil => cases h
  | cons first rest =>
    simp only [isUnused, Bool.and_eq_true] at h
    exact List.all_eq_true.mp h.1.2

end Usage

/-! ### One report for every name that is unused -/

namespace Forest

variable {f : Forest} {L : Log} {i : Nat} {n : String} {s : Scope}

/-- Whether a scope owns occurrences of a name, and the name is unused there. -/
def wastes (f : Forest) (i : Nat) (n : String) : Bool :=
  (f.scope? i).any fun s => Usage.isUnused s n (f.tables.owned i n)

theorem wastes_of_scope (hs : f.scope? i = some s) :
    f.wastes i n = Usage.isUnused s n (f.tables.owned i n) := by
  rw [wastes, hs, Option.any_some]

theorem Realizes.length_unusedLines (hf : f.Realizes L) {file : SourceFile} {rs : List Usage.Remark}
    (h : Usage.Tells file f (f.entries 0) rs) (i : Nat) (n : String) :
    (Usage.unusedLines rs i n).length = if f.wastes i n then 1 else 0 := by
  rw [h.unused, hf.countP_entries h.sites (i := i) (n := n)]
  · cases hsites : f.tables.owned i n with
    | nil => simp [wastes, hsites, Usage.isUnused]
    | cons x rest => simp [Usage.Entry.isUnused, wastes, hsites]
  · intro e hu
    simp only [Usage.Entry.isUnused, Bool.and_eq_true, decide_eq_true_eq] at hu
    exact hu.1

/-- In a function, the first occurrence of a name tells whether it is a parameter. -/
theorem wastes_function {t : Tree} (hm : t.isKind .module = true) (hone : t.kinds.count .module = 1)
    (hf : t.scopes = .ok f) (hs : f.scope? i = some s) (hfun : s.owner.isFunction = true) :
    f.wastes i n = true ↔ t.log.ownedBy i n ≠ [] ∧ (∀ x ∈ t.log.ownedBy i n, x.tree.writes = true) ∧
      n ≠ "_" ∧ (t.log.record i).params n = false := by
  obtain ⟨hreal, -⟩ := Tree.visit_of_scopes hm hone hf
  have hrecord : (t.log.record i).isFunction = true := by
    rw [Record.isFunction, ← hreal.owner i s hs]
    exact hfun
  have hmodule : s.isModule = false := by
    rw [Bool.eq_false_iff]
    intro hmod
    rw [Scope.isModule, hreal.owner i s hs] at hmod
    rw [Record.not_isFunction_of_module hmod] at hrecord
    cases hrecord
  have hclass : s.isClass = false := by
    rw [Bool.eq_false_iff]
    intro hc
    rw [Scope.isClass, hreal.owner i s hs] at hc
    rw [Record.not_isFunction _ hc] at hrecord
    cases hrecord
  have h0 : i ≠ 0 := fun h0 => by
    rw [(hreal.isModule_iff hs).mpr h0] at hmodule
    cases hmodule
  have hperm := hreal.owned i n
  have hne : f.tables.owned i n ≠ [] ↔ t.log.ownedBy i n ≠ [] := by
    rw [← List.length_pos_iff, hperm.length_eq, List.length_pos_iff]
  rw [wastes_of_scope hs, Usage.isUnused_inner hmodule, hne]
  simp only [hclass, hperm.mem_iff, true_and]
  refine and_congr_right fun hsome => and_congr_right fun _ => and_congr_right fun _ => ?_
  obtain ⟨first, rest, hfirst⟩ := List.exists_cons_of_ne_nil (hne.mpr hsome)
  have hhead : (f.tables.owned i n).head? = some first := by rw [hfirst]; rfl
  rw [← Tree.head_isParam hm hone hf h0 hhead, hhead]
  simp

end Forest

namespace Usage

section Projects

open Sample

/-- A function with a parameter `p` sets `x` and `y`. A class in it sets `z`, and a method of the class
reads `y`. The module imports `os`. -/
def closureFile : List Tree :=
  [importStmt "os" 1 0,
    .node .functionDef (place 2 0) [.atom (.str "f"), parameters [parameter "p" 2 6] [],
      .list [assign "x" (constant (.int 1) 3 8) 3 4, assign "y" (constant (.int 2) 4 8) 4 4,
        classDef "C" [assign "z" (constant (.int 3) 6 12) 6 8,
          function "g" [returned (name .load "y" 8 19) 8 12] 7 8] 5 4,
        returned (name .load "C" 9 11) 9 4], .list [], .null, .null]]

end Projects

end Usage

end ScopeLint
