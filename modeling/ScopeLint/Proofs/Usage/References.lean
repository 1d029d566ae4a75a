import ScopeLint.Proofs.Fault
import ScopeLint.Usage.Urlconf

/-! What a urlconf refers to, as a relation. A urlconf lists views and other urlconfs. What an included
urlconf refers to, the including one refers to as well, below the module of the call of `patterns` in which
it is included. Where the search for references ends, it has found exactly these. -/

namespace ScopeLint.Urlconf

/-- A urlconf lists something, with the module that is put before it. When there are calls of `patterns`,
the records in them are listed, and otherwise the calls of `url` and `include`. -/
inductive Lists (file : SourceFile) : String → Listed → Prop
  | record {t call n : Tree} {nodes args inner : List Tree} {module : String} {l : Listed}
    (ht : file.tree = .ok t) (hw : t.walk = .ok nodes) (hc : call ∈ patternCalls nodes)
    (ha : arguments call = .ok args) (hlen : 2 ≤ args.length)
    (hm : textArgument? call 0 = .ok (some module)) (hi : call.walk = .ok inner) (hn : n ∈ inner)
    (hl : listed n = .ok l) : Lists file module l
  | url {t n : Tree} {nodes : List Tree} {ref : String} (ht : file.tree = .ok t)
    (hw : t.walk = .ok nodes) (hno : patternCalls nodes = []) (hn : n ∈ nodes)
    (hk : n.isCallOf "url" = true) (ha : textArgument? n 1 = .ok (some ref)) : Lists file "" (.view ref)
  | inclusion {t n : Tree} {nodes : List Tree} {m : String} (ht : file.tree = .ok t)
    (hw : t.walk = .ok nodes) (hno : patternCalls nodes = []) (hn : n ∈ nodes)
    (hk : n.isCallOf "include" = true) (ha : textArgument? n 0 = .ok (some m)) :
    Lists file "" (.include m)

/-- The references of a urlconf, with those of the urlconfs that it includes. -/
inductive Refers (fs : FileSet) : SourceFile → String → Prop
  | view {file : SourceFile} {module ref : String} (h : Lists file module (.view ref)) :
    Refers fs file (qualify module ref)
  | urlpatterns {file sub : SourceFile} {module m : String} (h : Lists file module (.include m))
    (hm : fs.get? m = some sub) : Refers fs file (qualify module (m ++ ".urlpatterns"))
  | included {file sub : SourceFile} {module m ref : String} (h : Lists file module (.include m))
    (hm : fs.get? m = some sub) (hr : Refers fs sub ref) : Refers fs file (qualify module ref)

variable {fs fs' : FileSet} {file : SourceFile} {ref : String}

/-- More files make for more references. -/
theorem Refers.mono (hget : ∀ p sub, fs.get? p = some sub → fs'.get? p = some sub)
    (h : Refers fs file ref) : Refers fs' file ref := by
  induction h with
  | view h => exact .view h
  | urlpatterns h hm => exact .urlpatterns h (hget _ _ hm)
  | included h hm _ ih => exact .included h (hget _ _ hm) ih

/-! ### One urlconf -/

section Found

variable {refs : SourceFile → Except Fault (List String)} {found : List String} {module : String}
  {l : Listed}

@[simp] theorem qualify_empty (ref : String) : qualify "" ref = ref := rfl

/-- The references that something listed brings, before its module is put before them. -/
def brought (fs : FileSet) (refs : SourceFile → Except Fault (List String)) :
    Listed → Except Fault (List String)
  | .view ref => return [ref]
  | .include m => included fs refs m
  | .nothing => return []

theorem patternRefs_eq (call : Tree) : patternRefs fs refs call = (do
    if (← arguments call).length < 2 then return []
    match ← textArgument? call 0 with
    | none => return []
    | some module =>
      let parts ← (← call.walk).mapM fun n => do brought fs refs (← listed n)
      return parts.flatten.map (qualify module)) := rfl

/-- A call of `patterns` that has records gives what they bring below its module. Another one gives
nothing. -/
theorem patternRefs_ok {call : Tree} (h : patternRefs fs refs call = .ok found) :
    (∃ args, arguments call = .ok args ∧ (2 ≤ args.length → textArgument? call 0 = .ok none) ∧
      found = []) ∨
    ∃ args module inner parts, arguments call = .ok args ∧ 2 ≤ args.length ∧
      textArgument? call 0 = .ok (some module) ∧ call.walk = .ok inner ∧
      (inner.mapM fun n => do brought fs refs (← listed n)) = .ok parts ∧
      found = parts.flatten.map (qualify module) := by
  rw [patternRefs_eq] at h
  obtain ⟨args, ha, h⟩ := except_bind_ok h
  split_ifs at h with hlen
  · cases h
    exact Or.inl ⟨args, ha, fun hle => absurd hlen (by omega), rfl⟩
  obtain ⟨o, ho, h⟩ := except_bind_ok h
  cases o with
  | none =>
    cases h
    exact Or.inl ⟨args, ha, fun _ => ho, rfl⟩
  | some module =>
    obtain ⟨inner, hi, h⟩ := except_bind_ok h
    obtain ⟨parts, hparts, h⟩ := except_bind_ok h
    cases h
    exact Or.inr ⟨args, module, inner, parts, ha, by omega, ho, hi, hparts, rfl⟩

/-- The references of a urlconf come from its calls of `patterns`, or else from its calls of `url` and
`include`. -/
theorem refsWithin_ok {fuel : Nat} (h : refsWithin fs (fuel + 1) file = .ok found) :
    ∃ t nodes, file.tree = .ok t ∧ t.walk = .ok nodes ∧
      ((∃ parts, patternCalls nodes ≠ [] ∧
          (patternCalls nodes).mapM (patternRefs fs (refsWithin fs fuel)) = .ok parts ∧
          found = parts.flatten) ∨
        ∃ views mods parts, patternCalls nodes = [] ∧ plainViews nodes = .ok views ∧
          plainIncludes nodes = .ok mods ∧ mods.mapM (included fs (refsWithin fs fuel)) = .ok parts ∧
          found = views ++ parts.flatten) := by
  rw [refsWithin] at h
  obtain ⟨t, ht, h⟩ := except_bind_ok h
  obtain ⟨nodes, hw, h⟩ := except_bind_ok h
  refine ⟨t, nodes, ht, hw, ?_⟩
  dsimp only at h
  split_ifs at h with hcalls
  · obtain ⟨parts, hparts, h⟩ := except_bind_ok h
    cases h
    exact Or.inl ⟨parts, by simpa using hcalls, hparts, rfl⟩
  · obtain ⟨views, hviews, h⟩ := except_bind_ok h
    obtain ⟨mods, hmods, h⟩ := except_bind_ok h
    obtain ⟨parts, hparts, h⟩ := except_bind_ok h
    cases h
    exact Or.inr ⟨views, mods, parts, by simpa using hcalls, hviews, hmods, hparts, rfl⟩

theorem mem_callTexts {function text : String} {i : Nat} {nodes : List Tree}
    (h : callTexts function i nodes = .ok found) : text ∈ found ↔
      ∃ n ∈ nodes, n.isCallOf function = true ∧ textArgument? n i = .ok (some text) := by
  obtain ⟨texts, htexts, h⟩ := except_bind_ok h
  cases h
  rw [List.mem_filterMap]
  simp [mem_of_mapM htexts, and_assoc]

/-- All that a urlconf lists is found, with what it brings. -/
theorem brought_of_lists {fuel : Nat} (h : refsWithin fs (fuel + 1) file = .ok found)
    (hl : Lists file module l) : ∃ out, brought fs (refsWithin fs fuel) l = .ok out ∧
      ∀ r ∈ out, qualify module r ∈ found := by
  obtain ⟨t, nodes, ht, hw, h⟩ := refsWithin_ok h
  cases hl with
  | record ht' hw' hc ha hlen hm hi hn hl =>
    cases ht.symm.trans ht'
    cases hw.symm.trans hw'
    obtain ⟨parts, -, hparts, rfl⟩ | ⟨_, _, _, hno, -⟩ := h
    · obtain ⟨part, hpart, hcall⟩ := exists_of_mapM hparts hc
      obtain ⟨args', ha', hnone, -⟩ | ⟨args', module', inner', outs, ha', -, hm', hi', houts, rfl⟩ :=
        patternRefs_ok hcall
      · cases ha.symm.trans ha'
        cases hm.symm.trans (hnone hlen)
      · cases hm.symm.trans hm'
        cases hi.symm.trans hi'
        obtain ⟨out, hout, hbrought⟩ := exists_of_mapM houts hn
        rw [hl] at hbrought
        refine ⟨out, hbrought, fun r hr => ?_⟩
        exact List.mem_flatten_of_mem hpart (List.mem_map_of_mem (List.mem_flatten_of_mem hout hr))
    · rw [hno] at hc
      cases hc
  | url ht' hw' hno hn hk ha =>
    cases ht.symm.trans ht'
    cases hw.symm.trans hw'
    obtain ⟨_, hcalls, -⟩ | ⟨views, mods, parts, -, hviews, -, -, rfl⟩ := h
    · exact absurd hno hcalls
    · refine ⟨_, rfl, fun r hr => List.mem_append_left _ ?_⟩
      rw [List.mem_singleton.mp hr]
      exact (mem_callTexts hviews).mpr ⟨_, hn, hk, ha⟩
  | inclusion ht' hw' hno hn hk ha =>
    cases ht.symm.trans ht'
    cases hw.symm.trans hw'
    obtain ⟨_, hcalls, -⟩ | ⟨views, mods, parts, -, -, hmods, hparts, rfl⟩ := h
    · exact absurd hno hcalls
    · obtain ⟨part, hpart, hincluded⟩ := exists_of_mapM hparts ((mem_callTexts hmods).mpr ⟨_, hn, hk, ha⟩)
      exact ⟨part, hincluded, fun r hr => List.mem_append_right _ (List.mem_flatten_of_mem hpart hr)⟩

/-- All that is found was brought by something that the urlconf lists. -/
theorem lists_of_mem {fuel : Nat} (h : refsWithin fs (fuel + 1) file = .ok found) (hr : ref ∈ found) :
    ∃ module l out r, Lists file module l ∧ brought fs (refsWithin fs fuel) l = .ok out ∧ r ∈ out ∧
      ref = qualify module r := by
  obtain ⟨t, nodes, ht, hw, ⟨parts, -, hparts, rfl⟩ | ⟨views, mods, parts, hno, hviews, hmods, hparts, rfl⟩⟩ :=
    refsWithin_ok h
  · obtain ⟨part, hpart, hr⟩ := List.mem_flatten.mp hr
    obtain ⟨call, hc, hcall⟩ := (mem_of_mapM hparts).mp hpart
    obtain ⟨_, _, _, rfl⟩ | ⟨args, module, inner, outs, ha, hlen, hm, hi, houts, rfl⟩ :=
      patternRefs_ok hcall
    · cases hr
    · obtain ⟨r, hmem, rfl⟩ := List.mem_map.mp hr
      obtain ⟨out, hout, hmem⟩ := List.mem_flatten.mp hmem
      obtain ⟨n, hn, hbrought⟩ := (mem_of_mapM houts).mp hout
      obtain ⟨l, hl, hbrought⟩ := except_bind_ok hbrought
      exact ⟨module, l, out, r, .record ht hw hc ha hlen hm hi hn hl, hbrought, hmem, rfl⟩
  · rcases List.mem_append.mp hr with hr | hr
    · obtain ⟨n, hn, hk, ha⟩ := (mem_callTexts hviews).mp hr
      exact ⟨"", .view ref, [ref], ref, .url ht hw hno hn hk ha, rfl, List.mem_singleton.mpr rfl, rfl⟩
    · obtain ⟨part, hpart, hr⟩ := List.mem_flatten.mp hr
      obtain ⟨m, hm, hincluded⟩ := (mem_of_mapM hparts).mp hpart
      obtain ⟨n, hn, hk, ha⟩ := (mem_callTexts hmods).mp hm
      exact ⟨"", .include m, part, ref, .inclusion ht hw hno hn hk ha, hincluded, hr, rfl⟩

/-- An included urlconf of the project brings its own `urlpatterns` and its references. -/
theorem included_ok {m : String} {sub : SourceFile} (hm : fs.get? m = some sub)
    (h : included fs refs m = .ok found) :
    ∃ rs, refs sub = .ok rs ∧ found = (m ++ ".urlpatterns") :: rs := by
  rw [included, hm] at h
  obtain ⟨rs, hrs, h⟩ := except_bind_ok h
  cases h
  exact ⟨rs, hrs, rfl⟩

end Found

/-! ### Urlconfs and their includes -/

/-- Where the includes end, the references that are found are those of the relation. -/
theorem mem_refsWithin {fuel : Nat} {found : List String} (h : refsWithin fs fuel file = .ok found) :
    ref ∈ found ↔ Refers fs file ref := by
  induction fuel generalizing file found ref with
  | zero => cases h
  | succ fuel ih =>
    constructor
    · intro hr
      obtain ⟨module, l, out, r, hl, hout, hr, rfl⟩ := lists_of_mem h hr
      cases l with
      | view v =>
        cases hout
        rw [List.mem_singleton.mp hr]
        exact .view hl
      | «include» m =>
        cases hm : fs.get? m with
        | none =>
          rw [brought, included, hm] at hout
          cases hout
          cases hr
        | some sub =>
          obtain ⟨rs, hrs, rfl⟩ := included_ok hm hout
          rcases List.mem_cons.mp hr with rfl | hr
          · exact .urlpatterns hl hm
          · exact .included hl hm ((ih hrs).mp hr)
      | nothing =>
        cases hout
        cases hr
    · intro hr
      cases hr with
      | view hl =>
        obtain ⟨out, hout, hfound⟩ := brought_of_lists h hl
        cases hout
        exact hfound _ (List.mem_singleton.mpr rfl)
      | urlpatterns hl hm =>
        obtain ⟨out, hout, hfound⟩ := brought_of_lists h hl
        obtain ⟨rs, hrs, rfl⟩ := included_ok hm hout
        exact hfound _ List.mem_cons_self
      | included hl hm hr =>
        obtain ⟨out, hout, hfound⟩ := brought_of_lists h hl
        obtain ⟨rs, hrs, rfl⟩ := included_ok hm hout
        exact hfound _ (List.mem_cons_of_mem _ ((ih hrs).mpr hr))

theorem mem_refs {found : List String} (h : refs fs file = .ok found) :
    ref ∈ found ↔ Refers fs file ref := mem_refsWithin h

end ScopeLint.Urlconf
