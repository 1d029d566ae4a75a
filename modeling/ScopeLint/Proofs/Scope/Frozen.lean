import ScopeLint.Proofs.Scope.Reference

/-! A frozen tree of scopes stays as it is. Freezing a module closes the tables of every scope below it and
takes away what could be pending there, and every method of a scope that would change it needs one of the
two. So whatever is called on the scopes of the tree afterwards, in whatever order, each call fails before
it has done anything. -/

namespace ScopeLint

/-- The tables are closed, and nothing can be pending. -/
def Scope.IsFrozen (s : Scope) : Prop := s.closed = true ∧ s.pending = none

def Forest.FrozenAt (f : Forest) (i : Nat) : Prop := ∃ s, f.scope? i = some s ∧ s.IsFrozen

/-! ### Freezing -/

namespace Change

theorem exec_pending_of_some {f : Forest} {i : Nat} {s : Scope} {p : Pending} (hs : f.scope? i = some s)
    (hp : s.pending = some p) (asked : String) : (pending i asked).exec f = (.ok p, f) := by
  rw [pending, exec_bind_ok (exec_scope hs), hp]
  rfl

theorem exec_pending_of_none {f : Forest} {i : Nat} {s : Scope} (hs : f.scope? i = some s)
    (hp : s.pending = none) (asked : String) :
    (pending i asked).exec f = (.error (.missingAttribute "Scope" asked), f) := by
  rw [pending, exec_bind_ok (exec_scope hs), hp]
  rfl

/-- Freezing one scope. -/
def freezeOne (j : Nat) : Change PUnit := do
  update j Scope.close
  let p ← pending j "unscoped_names"
  unless p.unscoped.isEmpty do throw .violated
  update j fun s => { s with pending := none }

theorem freezeOne_eq {f g : Forest} {j : Nat} (h : (freezeOne j).exec f = (.ok ⟨⟩, g)) :
    (∃ s, f.scope? j = some s) ∧ g = f.update j Scope.frozen := by
  rw [freezeOne, exec_bind_ok (exec_update _ _ _)] at h
  have hclosed : (f.update j Scope.close).scope? j = (f.scope? j).map Scope.close := by
    rw [Forest.scope?_update, if_pos rfl]
  cases hs : f.scope? j with
  | none =>
    rw [hs] at hclosed
    rw [pending, exec_bind_error (exec_bind_error (exec_scope_none hclosed))] at h
    cases h
  | some s =>
    rw [hs] at hclosed
    cases hp : s.close.pending with
    | none =>
      rw [exec_bind_error (exec_pending_of_none hclosed hp _)] at h
      cases h
    | some p =>
      rw [exec_bind_ok (exec_pending_of_some hclosed hp _)] at h
      cases hempty : p.unscoped.isEmpty with
      | false =>
        rw [hempty] at h
        cases h
      | true =>
        rw [hempty] at h
        refine ⟨⟨s, rfl⟩, (Prod.mk.inj h).2.symm.trans ?_⟩
        exact congrArg Forest.mk (List.modify_modify_eq _ _ _ _)

/-- What freezing one scope does: the scope is frozen, the others stay frozen if they are, and the tree keeps
its form. -/
theorem freezeOne_frozen {f g : Forest} {j : Nat} (h : (freezeOne j).exec f = (.ok ⟨⟩, g)) :
    g.FrozenAt j ∧ (∀ k, f.FrozenAt k → g.FrozenAt k) ∧ g.frame = f.frame := by
  obtain ⟨⟨s, hs⟩, rfl⟩ := freezeOne_eq h
  have hscope (k : Nat) : (f.update j Scope.frozen).scope? k =
      if j = k then (f.scope? k).map Scope.frozen else f.scope? k := Forest.scope?_update f j k _
  refine ⟨⟨s.frozen, ?_, rfl, rfl⟩, ?_, Forest.frame_update (fun _ => rfl) (fun _ => rfl)⟩
  · rw [hscope, if_pos rfl, hs]
    rfl
  · rintro k ⟨t, ht, hfrozen⟩
    rw [Forest.FrozenAt, hscope, ht]
    split_ifs
    · exact ⟨t.frozen, rfl, rfl, rfl⟩
    · exact ⟨t, rfl, hfrozen⟩

theorem freezeAll_frozen {js : List Nat} {f g : Forest} (h : (js.forM freezeOne).exec f = (.ok ⟨⟩, g)) :
    (∀ j ∈ js, g.FrozenAt j) ∧ (∀ k, f.FrozenAt k → g.FrozenAt k) ∧ g.frame = f.frame := by
  induction js generalizing f with
  | nil =>
    obtain rfl : f = g := (Prod.mk.inj h).2
    exact ⟨by simp, fun _ hk => hk, rfl⟩
  | cons j js ih =>
    rw [forM_cons] at h
    rcases hone : (freezeOne j).exec f with ⟨_ | _, f'⟩
    · rw [exec_bind_error hone] at h
      cases h
    · rw [exec_bind_ok hone] at h
      obtain ⟨hj, hkept, hframe⟩ := freezeOne_frozen hone
      obtain ⟨hjs, hkept', hframe'⟩ := ih h
      refine ⟨?_, fun k hk => hkept' k (hkept k hk), hframe'.trans hframe⟩
      exact List.forall_mem_cons.mpr ⟨hkept' j hj, hjs⟩

/-- A module that could be frozen has only frozen scopes below it. -/
theorem frozenAt_of_freeze {f g : Forest} {m : Nat} (h : (freeze m).exec f = (.ok ⟨⟩, g)) :
    ∀ i ∈ g.walk m, g.FrozenAt i := by
  have hloop : ((f.walk m).forM freezeOne).exec f = (.ok ⟨⟩, g) := by
    rw [freeze] at h
    cases hs : f.scope? m with
    | none =>
      rw [exec_bind_error (exec_scope_none hs)] at h
      cases h
    | some s =>
      rw [exec_bind_ok (exec_scope hs)] at h
      cases hmodule : s.isModule with
      | false =>
        rw [hmodule] at h
        cases h
      | true =>
        rw [hmodule] at h
        exact h
  obtain ⟨hfrozen, -, hframe⟩ := freezeAll_frozen hloop
  rw [Forest.walk_of_frame hframe]
  exact hfrozen

end Change

/-! ### Calls on a frozen scope -/

namespace Call

/-- The scope whose method is called. A child is made, and a star import noted, without a method. -/
def target? : Call → Option Nat
  | add i _ _ => some i
  | makeGlobal i _ => some i
  | resolve i => some i
  | child _ _ => none
  | importAll _ => none

end Call

/-- How a frozen scope refuses a call: an entry of its table takes nothing more, a further entry is not
made, and what was pending is gone. -/
def Scope.refusal (s : Scope) : Call → Fault
  | .add _ name site =>
    if s.names.contains name then .missingAttribute "tuple" "append"
    else if s.isModule || site.tree.isParam then .missingName name
    else .missingAttribute "Scope" "unscoped_names"
  | _ => .missingAttribute "Scope" "global_names"

namespace Call

variable {f : Forest} {i : Nat} {s : Scope}

theorem exec_give_of_frozen (hs : f.scope? i = some s) (hf : s.IsFrozen) (name : String) (sites : List Site)
    (how : String) : (Change.give i name sites how).exec f =
      (.error (if s.names.contains name then .missingAttribute "tuple" how else .missingName name), f) := by
  rw [Change.give, Change.exec_bind_ok (Change.exec_scope hs), if_pos hf.1]
  split_ifs <;> rfl

theorem exec_of_frozen (c : Call) (hc : c.target? = some i) (hs : f.scope? i = some s) (hf : s.IsFrozen) :
    c.change.exec f = (.error (s.refusal c), f) := by
  cases c with
  | child parent owner => cases hc
  | importAll j => cases hc
  | add j name site =>
    obtain rfl : j = i := Option.some.inj hc
    rw [change, Change.add, Change.exec_bind_ok (Change.exec_scope hs), Scope.refusal]
    by_cases hknown : s.names.contains name = true
    · rw [if_pos (by simp [hknown]), exec_give_of_frozen hs hf, if_pos hknown, if_pos hknown]
    · by_cases hown : (s.isModule || site.tree.isParam) = true
      · rw [if_pos (by simpa [hknown] using hown), exec_give_of_frozen hs hf, if_neg hknown, if_neg hknown,
          if_pos hown]
      · rw [if_neg (by simpa [hknown] using hown), if_neg hknown, if_neg hown,
          Change.exec_bind_error (Change.exec_pending_of_none hs hf.2 _)]
  | makeGlobal j names =>
    obtain rfl : j = i := Option.some.inj hc
    rw [change, Change.declareGlobal, Change.exec_bind_error (Change.exec_pending_of_none hs hf.2 _)]
    rfl
  | resolve j =>
    obtain rfl : j = i := Option.some.inj hc
    rw [change, Change.resolve, Change.exec_bind_error (Change.exec_pending_of_none hs hf.2 _)]
    rfl

end Call

/-! ### Sequences of calls -/

namespace Forest

/-- The outcomes of calls that are made one after the other, each with the forest that it leaves. A call that
fails does not keep the next ones from being made. -/
def outcomes (f : Forest) : List Call → List (Except Fault Unit × Forest)
  | [] => []
  | c :: calls => c.change.exec f :: outcomes (c.change.exec f).2 calls

/-- After a module has been frozen, every call of a method of a scope below it fails and leaves the forest
as freezing has left it. -/
theorem outcomes_after_freeze {f g : Forest} {m : Nat} (hfreeze : (Change.freeze m).exec f = (.ok (), g))
    (calls : List Call) (hcalls : ∀ c ∈ calls, ∃ i ∈ g.walk m, c.target? = some i) :
    ∀ r ∈ g.outcomes calls, (∃ fault, r.1 = .error fault) ∧ r.2 = g := by
  induction calls with
  | nil => intro r hr; cases hr
  | cons c calls ih =>
    obtain ⟨⟨i, hi, hc⟩, hrest⟩ := List.forall_mem_cons.mp hcalls
    obtain ⟨s, hs, hfrozen⟩ := Change.frozenAt_of_freeze hfreeze i hi
    have hexec := c.exec_of_frozen hc hs hfrozen
    rw [outcomes, hexec]
    exact List.forall_mem_cons.mpr ⟨⟨⟨_, rfl⟩, rfl⟩, ih hrest⟩

end Forest

namespace Journal

def readOfX : Site := Site.root (.node .name .absent [.atom (.str "x"), .node .load .absent []])

def parameterY : Site := Site.root (.node .parameter .absent [.atom (.str "y"), .null, .null])

/-- A module that reads a name, with a function that has a parameter, both resolved. -/
def withFunction : Journal :=
  [.child 0 (.node .lambda .absent []), .add 0 "x" readOfX, .add 1 "y" parameterY, .resolve 1,
    .resolve 0].foldl Journal.call (Journal.start (.node .module .absent [.list [], .list []]))

/-- The module and the function once they are frozen. -/
def frozenFunction : Forest := ((Change.freeze 0).exec withFunction.forest).2

/-- Known and unknown names, parameters, declarations and resolving are all refused. -/
theorem outcomes_after_freeze_function :
    (Change.freeze 0).exec withFunction.forest = (.ok (), frozenFunction) ∧
      frozenFunction.walk 0 = [0, 1] ∧
      ∀ r ∈ frozenFunction.outcomes [.add 0 "x" readOfX, .add 0 "z" readOfX, .add 1 "y" parameterY,
        .add 1 "z" parameterY, .add 1 "z" readOfX, .makeGlobal 1 [.atom (.str "x")], .resolve 1, .resolve 0],
        (∃ fault, r.1 = .error fault) ∧ r.2 = frozenFunction := by
  have hok : ((Change.freeze 0).exec withFunction.forest).1.toOption.any (fun _ => true) = true := by
    decide +kernel
  obtain ⟨_, hok⟩ := except_any_ok hok
  have hfreeze : (Change.freeze 0).exec withFunction.forest = (.ok (), frozenFunction) := Prod.ext hok.1 rfl
  have hwalk : frozenFunction.walk 0 = [0, 1] := by decide +kernel
  refine ⟨hfreeze, hwalk, Forest.outcomes_after_freeze hfreeze _ ?_⟩
  rw [hwalk]
  simp [Call.target?]

end Journal

end ScopeLint
