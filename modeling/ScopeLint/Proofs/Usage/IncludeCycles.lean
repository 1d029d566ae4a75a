import ScopeLint.Proofs.Descent
import ScopeLint.Proofs.Tree.Source
import ScopeLint.Proofs.Usage.Includes

/-! Urlconfs that lead back to themselves. The search for references goes down from a urlconf into those
that it includes, and again into those that these include. It comes to its end exactly where no urlconf on
the way leads back to itself, however often one is included on different ways. -/

namespace ScopeLint

open Relation

/-- A file with a program in it. -/
def SourceFile.Parses (file : SourceFile) : Prop := ∃ t, file.tree = .ok t ∧ t.IsProgram

namespace Urlconf

/-- The includes of a urlconf that are followed. In a urlconf with calls of `patterns` these are the ones
that are the view of a record in such a call, and in any other urlconf all of them. -/
inductive Follows (file : SourceFile) (g : String) : Prop
  | within {t call n view : Tree} {nodes args inner : List Tree} {module : String}
    (ht : file.tree = .ok t) (hw : t.walk = .ok nodes) (hc : call ∈ patternCalls nodes)
    (ha : arguments call = .ok args) (hlen : 2 ≤ args.length)
    (hm : textArgument? call 0 = .ok (some module)) (hi : call.walk = .ok inner) (hn : n ∈ inner)
    (hv : recordView? n = .ok (some view)) (hg : IsInclude view g)
  | plain {t n : Tree} {nodes : List Tree} (ht : file.tree = .ok t) (hw : t.walk = .ok nodes)
    (hno : patternCalls nodes = []) (hn : n ∈ nodes) (hg : IsInclude n g)

/-- One urlconf of a project leads to another one. -/
def Leads (fs : FileSet) (p g : String) : Prop :=
  ∃ file sub, fs.get? p = some file ∧ fs.get? g = some sub ∧ Follows file g

variable {fs : FileSet} {file : SourceFile} {p g : String} {n call : Tree}

/-! ### Nodes of a program -/

theorem call_ok (hk : n.isKind .call = true) (h : n.every Tree.inGrammar = true) :
    ∃ args, arguments n = .ok args ∧ ∀ a ∈ args, a.every Tree.inGrammar = true := by
  cases n with
  | atom a => cases hk
  | list items => cases hk
  | node k s fields =>
    obtain rfl : k = .call := by simpa [Tree.isKind, Tree.kind?] using hk
    rw [Tree.every, Bool.and_eq_true, Tree.everyOfAll_iff] at h
    obtain ⟨func, ts, rfl, -, hrest⟩ := Slot.fitAll_cons h.1
    obtain ⟨args, ts, rfl, hargs, -⟩ := Slot.fitAll_cons hrest
    obtain ⟨args, rfl⟩ := Tree.eq_list_of_many hargs
    refine ⟨args, rfl, ?_⟩
    have hlist := h.2 (.list args) (by simp)
    rwa [Tree.every, Tree.everyOfAll_iff] at hlist

theorem tuple_ok (hk : n.isKind .tuple = true) (h : n.every Tree.inGrammar = true) :
    ∃ elts, (do parts (← n.get "elts")) = .ok elts ∧ ∀ e ∈ elts, e.every Tree.inGrammar = true := by
  cases n with
  | atom a => cases hk
  | list items => cases hk
  | node k s fields =>
    obtain rfl : k = .tuple := by simpa [Tree.isKind, Tree.kind?] using hk
    rw [Tree.every, Bool.and_eq_true, Tree.everyOfAll_iff] at h
    obtain ⟨elts, ts, rfl, helts, -⟩ := Slot.fitAll_cons h.1
    obtain ⟨elts, rfl⟩ := Tree.eq_list_of_many helts
    refine ⟨elts, rfl, ?_⟩
    have hlist := h.2 (.list elts) (by simp)
    rwa [Tree.every, Tree.everyOfAll_iff] at hlist

theorem isKind_of_isCallOf {name : String} (h : n.isCallOf name = true) : n.isKind .call = true := by
  rw [Tree.isCallOf, Bool.and_eq_true] at h
  exact h.1

theorem textArgument?_ok (hk : n.isKind .call = true) (h : n.every Tree.inGrammar = true) (i : Nat) :
    ∃ o, textArgument? n i = .ok o := by
  obtain ⟨args, ha, -⟩ := call_ok hk h
  rw [textArgument?, ha]
  exact ⟨_, rfl⟩

theorem recordView?_ok (h : n.every Tree.inGrammar = true) :
    ∃ o, recordView? n = .ok o ∧ ∀ view, o = some view → view.every Tree.inGrammar = true := by
  rw [recordView?]
  split_ifs with hcall htuple
  · obtain ⟨args, ha, hargs⟩ := call_ok hcall h
    rw [ha]
    exact ⟨_, rfl, fun view hview => hargs view (List.mem_of_getElem? hview)⟩
  · obtain ⟨elts, he, helts⟩ := tuple_ok htuple h
    obtain ⟨value, hvalue, hparts⟩ := except_bind_ok he
    rw [hvalue]
    change ∃ o, (do return (← parts value)[1]?) = Except.ok o ∧ _
    rw [hparts]
    exact ⟨_, rfl, fun view hview => helts view (List.mem_of_getElem? hview)⟩
  · exact ⟨none, rfl, fun view hview => by cases hview⟩

/-- A node of a program lists something, if only nothing. -/
theorem listed_ok (h : n.every Tree.inGrammar = true) : ∃ l, listed n = .ok l := by
  obtain ⟨o, ho, hview⟩ := recordView?_ok h
  rw [listed, ho]
  cases o with
  | none => exact ⟨_, rfl⟩
  | some view =>
    dsimp only [bind, Except.bind]
    cases view.stringConstant? with
    | some s => exact ⟨_, rfl⟩
    | none =>
      dsimp only
      split_ifs with hcall
      · obtain ⟨o, ho⟩ := textArgument?_ok (isKind_of_isCallOf hcall) (hview view rfl) 0
        rw [ho]
        cases o <;> exact ⟨_, rfl⟩
      · exact ⟨_, rfl⟩

theorem listed_eq_include : listed n = .ok (.include g) ↔
    ∃ view, recordView? n = .ok (some view) ∧ IsInclude view g := by
  constructor
  · intro h
    obtain ⟨o, ho, h⟩ := except_bind_ok h
    cases o with
    | none => cases h
    | some view =>
      refine ⟨view, ho, ?_⟩
      cases hs : view.stringConstant? with
      | some s =>
        simp only [hs] at h
        cases h
      | none =>
        simp only [hs] at h
        split_ifs at h with hcall
        · obtain ⟨o, ho, h⟩ := except_bind_ok h
          cases o with
          | none => cases h
          | some m =>
            cases h
            exact ⟨hcall, ho⟩
        · cases h
  · rintro ⟨view, hview, hcall, hmodule⟩
    obtain ⟨s, fields, rfl⟩ := exists_of_isCallOf hcall
    have htext : (Tree.node .call s fields).stringConstant? = none := rfl
    simp [listed, hview, htext, hcall, hmodule, bind, Except.bind, pure, Except.pure]

theorem walk_ok {k : Kind} (hk : n.isKind k = true) : ∃ nodes, n.walk = .ok nodes := by
  cases n with
  | node k s fields => exact ⟨_, rfl⟩
  | atom a => cases hk
  | list items => cases hk

/-! ### One urlconf -/

section Step

variable {refs refs' : SourceFile → Except Fault (List String)} {P : String → Prop}

/-- Whether an include leads to a urlconf of the project for which something holds. -/
def Into (fs : FileSet) (P : String → Prop) (g : String) : Prop := (∃ sub, fs.get? g = some sub) ∧ P g

theorem included_endsUnless (h : ∀ sub, fs.get? g = some sub → EndsUnless (refs sub) (P g)) :
    EndsUnless (included fs refs g) (Into fs P g) := by
  rw [included]
  cases hg : fs.get? g with
  | none => exact (EndsUnless.ok []).congr (by simp [Into, hg])
  | some sub => exact (h sub hg).map.congr (by simp [Into, hg])

theorem brought_endsUnless (hn : n.every Tree.inGrammar = true)
    (h : ∀ g sub, listed n = .ok (.include g) → fs.get? g = some sub → EndsUnless (refs sub) (P g)) :
    EndsUnless (do brought fs refs (← listed n)) (∃ g, listed n = .ok (.include g) ∧ Into fs P g) := by
  obtain ⟨l, hl⟩ := listed_ok hn
  rw [hl] at h ⊢
  cases l with
  | view ref => exact (EndsUnless.ok [ref]).congr (by simp)
  | «include» g => exact (included_endsUnless fun sub => h g sub rfl).congr (by simp)
  | nothing => exact (EndsUnless.ok []).congr (by simp)

/-- A call of `patterns` has an include that is the view of a record. -/
inductive Holds (call : Tree) (g : String) : Prop
  | record {n : Tree} {args inner : List Tree} {module : String} (ha : arguments call = .ok args)
    (hlen : 2 ≤ args.length) (hm : textArgument? call 0 = .ok (some module))
    (hi : call.walk = .ok inner) (hn : n ∈ inner) (hl : listed n = .ok (.include g))

theorem patternRefs_endsUnless (hk : call.isKind .call = true) (hc : call.every Tree.inGrammar = true)
    (h : ∀ g sub, Holds call g → fs.get? g = some sub → EndsUnless (refs sub) (P g)) :
    EndsUnless (patternRefs fs refs call) (∃ g, Holds call g ∧ Into fs P g) := by
  obtain ⟨args, ha, -⟩ := call_ok hk hc
  obtain ⟨o, ho⟩ := textArgument?_ok hk hc 0
  rw [patternRefs_eq, ha]
  dsimp only [bind, Except.bind]
  split_ifs with hlen
  · refine (EndsUnless.ok []).congr (iff_of_false id ?_)
    rintro ⟨g, ⟨ha', hlen', -⟩, -⟩
    cases ha.symm.trans ha'
    omega
  rw [ho]
  cases o with
  | none =>
    refine (EndsUnless.ok []).congr (iff_of_false id ?_)
    rintro ⟨g, ⟨-, -, hm, -⟩, -⟩
    cases ho.symm.trans hm
  | some module =>
    obtain ⟨inner, hi⟩ := walk_ok hk
    rw [hi]
    have hparts : EndsUnless (inner.mapM fun n => do brought fs refs (← listed n))
        (∃ n ∈ inner, ∃ g, listed n = .ok (.include g) ∧ Into fs P g) :=
      .mapM fun n hn => brought_endsUnless (Tree.every_of_mem_walk hc hi hn) fun g sub hl =>
        h g sub ⟨ha, by omega, ho, hi, hn, hl⟩
    refine (hparts.map (f := fun parts => parts.flatten.map (qualify module))).congr ?_
    constructor
    · rintro ⟨n, hn, g, hl, hinto⟩
      exact ⟨g, ⟨ha, by omega, ho, hi, hn, hl⟩, hinto⟩
    · rintro ⟨g, ⟨-, -, -, hi', hn, hl⟩, hinto⟩
      cases hi.symm.trans hi'
      exact ⟨_, hn, g, hl, hinto⟩

theorem follows_iff {t : Tree} {nodes : List Tree} (ht : file.tree = .ok t) (hw : t.walk = .ok nodes) :
    Follows file g ↔ (∃ call ∈ patternCalls nodes, Holds call g) ∨
      patternCalls nodes = [] ∧ ∃ n ∈ nodes, IsInclude n g := by
  constructor
  · rintro (⟨ht', hw', hc, ha, hlen, hm, hi, hn, hv, hg⟩ | ⟨ht', hw', hno, hn, hg⟩)
    · cases ht.symm.trans ht'
      cases hw.symm.trans hw'
      exact Or.inl ⟨_, hc, ha, hlen, hm, hi, hn, listed_eq_include.mpr ⟨_, hv, hg⟩⟩
    · cases ht.symm.trans ht'
      cases hw.symm.trans hw'
      exact Or.inr ⟨hno, _, hn, hg⟩
  · rintro (⟨call, hc, ha, hlen, hm, hi, hn, hl⟩ | ⟨hno, n, hn, hg⟩)
    · obtain ⟨view, hv, hg⟩ := listed_eq_include.mp hl
      exact .within ht hw hc ha hlen hm hi hn hv hg
    · exact .plain ht hw hno hn hg

theorem refsWithin_of_patterns {t : Tree} {nodes : List Tree} (ht : file.tree = .ok t)
    (hw : t.walk = .ok nodes) (hcalls : patternCalls nodes ≠ []) (depth : Nat) :
    refsWithin fs (depth + 1) file = (do
      let parts ← (patternCalls nodes).mapM (patternRefs fs (refsWithin fs depth))
      .ok parts.flatten) := by
  have hne : (!(patternCalls nodes).isEmpty) = true := by simpa using hcalls
  rw [refsWithin, ht]
  dsimp only [bind, Except.bind]
  rw [hw]
  dsimp only
  rw [if_pos hne]
  rfl

theorem refsWithin_of_plain {t : Tree} {nodes : List Tree} (ht : file.tree = .ok t)
    (hw : t.walk = .ok nodes) (hno : patternCalls nodes = []) (depth : Nat) :
    refsWithin fs (depth + 1) file = (do
      let views ← plainViews nodes
      let mods ← plainIncludes nodes
      let parts ← mods.mapM (included fs (refsWithin fs depth))
      .ok (views ++ parts.flatten)) := by
  have hempty : ¬ (!(patternCalls nodes).isEmpty) = true := by simp [hno]
  rw [refsWithin, ht]
  dsimp only [bind, Except.bind]
  rw [hw]
  dsimp only
  rw [if_neg hempty]
  rfl

theorem callTexts_ok {nodes : List Tree} (h : ∀ n ∈ nodes, n.every Tree.inGrammar = true)
    (function : String) (i : Nat) : ∃ texts, callTexts function i nodes = .ok texts := by
  have hall : ∀ n ∈ nodes.filter fun n => n.isCallOf function, ∃ o, textArgument? n i = .ok o := by
    intro n hn
    rw [List.mem_filter] at hn
    exact textArgument?_ok (isKind_of_isCallOf hn.2) (h n hn.1) i
  obtain ⟨texts, htexts⟩ := except_mapM_of_ok hall
  rw [callTexts, htexts]
  exact ⟨_, rfl⟩

/-- One step down: the references of a urlconf are found when those of the urlconfs that it leads to are. -/
theorem refsWithin_succ_endsUnless {depth : Nat} (hfile : file.Parses)
    (h : ∀ g sub, Follows file g → fs.get? g = some sub → EndsUnless (refsWithin fs depth sub) (P g)) :
    EndsUnless (refsWithin fs (depth + 1) file) (∃ g, Follows file g ∧ Into fs P g) := by
  obtain ⟨t, ht, hp⟩ := hfile
  obtain ⟨nodes, hw⟩ := walk_ok hp.module
  have hnodes (n : Tree) (hn : n ∈ nodes) := Tree.every_of_mem_walk hp.grammar hw hn
  simp only [follows_iff ht hw] at h ⊢
  by_cases hno : patternCalls nodes = []
  · obtain ⟨views, hviews⟩ := callTexts_ok hnodes "url" 1
    obtain ⟨mods, hmods⟩ := callTexts_ok hnodes "include" 0
    have hmem (g : String) : g ∈ mods ↔ ∃ n ∈ nodes, IsInclude n g := by
      rw [mem_callTexts hmods]
      exact ⟨fun ⟨n, hn, hk, ha⟩ => ⟨n, hn, hk, ha⟩, fun ⟨n, hn, hk, ha⟩ => ⟨n, hn, hk, ha⟩⟩
    rw [refsWithin_of_plain ht hw hno, plainViews, hviews, plainIncludes, hmods]
    have hparts : EndsUnless (mods.mapM (included fs (refsWithin fs depth)))
        (∃ g ∈ mods, Into fs P g) :=
      .mapM fun g hg => included_endsUnless fun sub => h g sub (Or.inr ⟨hno, (hmem g).mp hg⟩)
    refine (hparts.map (f := fun parts => views ++ parts.flatten)).congr ?_
    simp [hno, hmem]
  · rw [refsWithin_of_patterns ht hw hno]
    have hparts : EndsUnless ((patternCalls nodes).mapM (patternRefs fs (refsWithin fs depth)))
        (∃ call ∈ patternCalls nodes, ∃ g, Holds call g ∧ Into fs P g) := by
      refine .mapM fun call hc => ?_
      obtain ⟨hn, hcall⟩ := List.mem_filter.mp hc
      exact patternRefs_endsUnless (isKind_of_isCallOf hcall) (hnodes call hn)
        fun g sub hg => h g sub (Or.inl ⟨call, hc, hg⟩)
    refine (hparts.map (f := List.flatten)).congr ?_
    simp only [hno, false_and, or_false]
    constructor
    · rintro ⟨call, hc, g, hg, hinto⟩
      exact ⟨g, ⟨call, hc, hg⟩, hinto⟩
    · rintro ⟨g, ⟨call, hc, hg⟩, hinto⟩
      exact ⟨call, hc, g, hg, hinto⟩

/-! What has been found stays found when the search may go deeper. -/

theorem included_keeps (h : ∀ sub, Keeps (refs sub) (refs' sub)) (g : String) :
    Keeps (included fs refs g) (included fs refs' g) := by
  rw [included, included]
  cases fs.get? g with
  | none => exact .refl _
  | some sub => exact (h sub).bind fun _ => .refl _

theorem patternRefs_keeps (h : ∀ sub, Keeps (refs sub) (refs' sub)) (call : Tree) :
    Keeps (patternRefs fs refs call) (patternRefs fs refs' call) := by
  rw [patternRefs_eq, patternRefs_eq]
  refine (Keeps.refl _).bind fun args => ?_
  split_ifs with hlen
  · exact .refl _
  refine (Keeps.refl _).bind fun o => ?_
  cases o with
  | none => exact .refl _
  | some module =>
    refine (Keeps.refl _).bind fun inner => Keeps.bind (.mapM fun n _ => ?_) fun _ => .refl _
    refine (Keeps.refl _).bind fun l => ?_
    cases l with
    | view ref => exact .refl _
    | «include» g => exact included_keeps h g
    | nothing => exact .refl _

theorem refsWithin_succ_keeps (depth : Nat) :
    ∀ file, Keeps (refsWithin fs depth file) (refsWithin fs (depth + 1) file) := by
  induction depth with
  | zero => exact fun _ _ h => by cases h
  | succ depth ih =>
    intro file found h
    obtain ⟨t, nodes, ht, hw, -⟩ := refsWithin_ok h
    revert h
    by_cases hno : patternCalls nodes = []
    · rw [refsWithin_of_plain ht hw hno, refsWithin_of_plain ht hw hno]
      refine (Keeps.refl _).bind (fun views => (Keeps.refl _).bind fun mods => ?_) found
      exact Keeps.bind (.mapM fun g _ => included_keeps ih g) fun _ => .refl _
    · rw [refsWithin_of_patterns ht hw hno, refsWithin_of_patterns ht hw hno]
      exact Keeps.bind (.mapM fun call _ => patternRefs_keeps ih call) (fun _ => .refl _) found

end Step

/-! ### Urlconfs and their includes -/

theorem refsWithin_keeps {depth depth' : Nat} (hle : depth ≤ depth') :
    Keeps (refsWithin fs depth file) (refsWithin fs depth' file) := by
  induction hle with
  | refl => exact .refl _
  | step _ ih => exact fun found h => refsWithin_succ_keeps _ file found (ih found h)

/-- Down to some depth the search ends unless a chain of includes goes that far. -/
theorem refsWithin_endsUnless (depth : Nat) (hp : fs.get? p = some file)
    (hparsed : ∀ g sub, ReflTransGen (Leads fs) p g → fs.get? g = some sub → sub.Parses) :
    EndsUnless (refsWithin fs depth file) (Deep (Leads fs) depth p) := by
  induction depth generalizing p file with
  | zero => exact ⟨fun hno => absurd trivial hno, fun _ => rfl⟩
  | succ depth ih =>
    refine (refsWithin_succ_endsUnless (P := Deep (Leads fs) depth) (hparsed p file .refl hp) ?_).congr ?_
    · intro g sub hf hsub
      exact ih hsub fun g' sub' hreach => hparsed g' sub' (.head ⟨file, sub, hp, hsub, hf⟩ hreach)
    · constructor
      · rintro ⟨g, hf, ⟨sub, hsub⟩, hdeep⟩
        exact ⟨g, ⟨file, sub, hp, hsub, hf⟩, hdeep⟩
      · rintro ⟨g, ⟨file', sub, hp', hsub, hf⟩, hdeep⟩
        cases hp.symm.trans hp'
        exact ⟨g, hf, ⟨sub, hsub⟩, hdeep⟩

/-- The urlconfs on the way are files of the project. -/
theorem mem_of_leads (hp : fs.get? p = some file) (h : ReflTransGen (Leads fs) p g) :
    g ∈ fs.files.map Prod.fst := by
  have hget : ∃ sub, fs.get? g = some sub := by
    cases h with
    | refl => exact ⟨file, hp⟩
    | tail _ hlast =>
      obtain ⟨_, sub, _, hsub, _⟩ := hlast
      exact ⟨sub, hsub⟩
  obtain ⟨sub, hsub⟩ := hget
  exact List.mem_map_of_mem (FileSet.mem_of_get? hsub)

/-- The references of a urlconf are found if and only if no urlconf that it leads to leads back to itself.
Then any depth from the number of files on is enough to find them, and otherwise none is. -/
theorem refs_end_iff_no_cycle (hp : fs.get? p = some file)
    (hparsed : ∀ g sub, ReflTransGen (Leads fs) p g → fs.get? g = some sub → sub.Parses) :
    ((∃ found, refs fs file = .ok found) ↔ ¬ ToCycle (Leads fs) p) ∧
      (∀ found, refs fs file = .ok found → ∀ depth, fs.files.length ≤ depth →
        refsWithin fs depth file = .ok found) ∧
      (ToCycle (Leads fs) p → ∀ depth, refsWithin fs depth file = .error .endless) := by
  have hdeep {depth : Nat} (hle : fs.files.length ≤ depth) :
      Deep (Leads fs) depth p ↔ ToCycle (Leads fs) p :=
    deep_iff_toCycle (fun _ => mem_of_leads hp) (by simpa using hle)
  have hends (depth : Nat) := refsWithin_endsUnless depth hp hparsed
  have hiff : (∃ found, refs fs file = .ok found) ↔ ¬ ToCycle (Leads fs) p := by
    rw [← hdeep (Nat.le_succ _)]
    exact (hends _).ends_iff
  refine ⟨hiff, fun found hfound depth hle => ?_, fun hcycle depth => (hends depth).endless hcycle.deep⟩
  -- With as many steps as there are files the search has already found all that it finds with one more.
  have hno := hiff.mp ⟨found, hfound⟩
  obtain ⟨found', hfound'⟩ := (hends fs.files.length).ends (mt (hdeep le_rfl).mp hno)
  cases hfound.symm.trans (refsWithin_keeps (Nat.le_succ _) found' hfound')
  exact refsWithin_keeps hle found hfound'

section Projects

open Sample

/-- A urlconf with some records in a list. -/
def listsConf (package : String) (views : List Tree) : String × SourceFile :=
  fileOf package [assign "urlpatterns" (.node .list (place 1 14)
    [.list (views.map fun view => Sample.call "url" [constant (.str "^") 1 19, view] 1 15),
      .node .load .absent []]) 1 0]

/-- Two urlconfs include the same third one, and two others include each other. -/
def loopProject : FileSet :=
  ⟨[listsConf "urls" [includeOf "left", includeOf "right"], listConf "left" (includeOf "leaf"),
    patternsConf "right" "" (includeOf "leaf"), patternsConf "leaf" "views" (constant (.str "f") 1 42),
    listsConf "start" [includeOf "leaf", includeOf "first"], listConf "first" (includeOf "second"),
    patternsConf "second" "" (includeOf "first")]⟩

/-- The urlconf with the shared include is searched to its end. The other one leads into the loop and is
never searched to its end. -/
theorem refs_end_iff_no_cycle_shared_and_looping :
    ∃ urls start found, loopProject.get? "urls" = some urls ∧ loopProject.get? "start" = some start ∧
      (∀ g sub, loopProject.get? g = some sub → sub.Parses) ∧
      refs loopProject urls = .ok found ∧ ¬ ToCycle (Leads loopProject) "urls" ∧
      ToCycle (Leads loopProject) "start" ∧
      ∀ depth, refsWithin loopProject depth start = .error .endless := by
  have hall : ∀ e ∈ loopProject.files,
      e.2.tree.toOption.any (fun t => t.isKind .module && t.every Tree.inGrammar) = true :=
    List.all_eq_true.mp (by decide +kernel)
  have hparsed (g : String) (sub : SourceFile) (hsub : loopProject.get? g = some sub) : sub.Parses := by
    obtain ⟨t, ht, hprogram⟩ := except_any_ok (hall _ (FileSet.mem_of_get? hsub))
    rw [Bool.and_eq_true] at hprogram
    exact ⟨t, ht, hprogram.1, hprogram.2⟩
  have hfound : (refs loopProject (listsConf "urls" [includeOf "left", includeOf "right"]).2).toOption.any
      (fun _ => true) = true := by
    decide +kernel
  obtain ⟨found, hfound, -⟩ := except_any_ok hfound
  have hinto : Leads loopProject "start" "first" :=
    ⟨_, _, rfl, rfl, .plain rfl rfl rfl (List.mem_of_getElem? (i := 13) rfl) ⟨rfl, rfl⟩⟩
  have hfirst : Leads loopProject "first" "second" :=
    ⟨_, _, rfl, rfl, .plain rfl rfl rfl (List.mem_of_getElem? (i := 9) rfl) ⟨rfl, rfl⟩⟩
  have hsecond : Leads loopProject "second" "first" :=
    ⟨_, _, rfl, rfl, .within rfl rfl (List.mem_of_getElem? (i := 0) rfl) rfl (by decide) rfl rfl
      (List.mem_of_getElem? (i := 3) rfl) rfl ⟨rfl, rfl⟩⟩
  have hcycle : ToCycle (Leads loopProject) "start" :=
    ⟨"first", .single hinto, .tail (.single hfirst) hsecond⟩
  have hurls : loopProject.get? "urls" = some (listsConf "urls" [includeOf "left", includeOf "right"]).2 := rfl
  have hstart : loopProject.get? "start" = some (listsConf "start" [includeOf "leaf", includeOf "first"]).2 := rfl
  obtain ⟨hiff, -, -⟩ := refs_end_iff_no_cycle hurls fun g sub _ => hparsed g sub
  obtain ⟨-, -, hendless⟩ := refs_end_iff_no_cycle hstart fun g sub _ => hparsed g sub
  exact ⟨_, _, found, rfl, rfl, hparsed, hfound, hiff.mp ⟨found, hfound⟩, hcycle, hendless hcycle⟩

end Projects

end Urlconf

end ScopeLint
