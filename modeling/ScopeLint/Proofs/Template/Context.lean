import ScopeLint.Proofs.Template.Soundness

/-! Statements in a longer list. A template that is a list of statements is found in a list of
statements exactly where the rest of the list is an instance, so what stands before the instance
does not matter, and anything that stands after it hides it. That the search of the longer list does
not fail follows from the match alone: a match in whole has checked every part of the template. -/

namespace ScopeLint

variable {T : Template} {s : Spot} {c : Candidate}

/-! ### What a match says about the template -/

namespace Template

/-- A check that is passed is of a template that may be checked. -/
theorem isPlain_of_accepts {u : Template} {b b' : Bindings} (h : u.accepts s b = .ok (true, b')) :
    u.isPlain = true := by
  cases u with
  | atom a =>
    cases a with
    | bytes bs => cases h
    | complex re im => cases h
    | ellipsis => cases h
    | _ => rfl
  | list us => rfl
  | node k us => rfl
  | capture a c => rfl
  | test c =>
    cases c with
    | none => cases h
    | some c => rfl

/-- A template that has been matched never makes a check fail. -/
theorem isPlain_of_found {names : List String} {tree : Tree} {found : List Candidate}
    (hT : T.every (isMade names) = true) (htree : tree.every Tree.isParsed = true)
    (h : T.search tree = .ok found) (hc : c ∈ found) : T.every isPlain = true := by
  have hfields : tree.every Tree.hasFields = true := by
    refine Tree.every_mono (fun t ht => ?_) htree
    cases t with
    | node k sp fields => exact (Bool.and_eq_true_iff.mp ht).1
    | atom a => rfl
    | list items => rfl
  refine every_of_parts T hT fun ways u hu => ?_
  obtain ⟨s, b, b', _, hb⟩ := part_of_search h hfields hc hu
  exact isPlain_of_accepts hb

end Template

/-! ### The rest of a list -/

theorem Tree.at?_tails (pre rest : List Tree) :
    (Tree.list (pre ++ rest)).at? (List.replicate pre.length .tail) = some (.list rest) := by
  induction pre with
  | nil => rfl
  | cons t pre ih => exact ih

namespace Way

theorem prefix_walk (ways : List Way) (path : List Step) (i : Nat) :
    path <+: (ways.foldl walk (path, i)).1 := by
  induction ways generalizing path i with
  | nil => exact List.prefix_refl _
  | cons w ways ih =>
    cases w with
    | head => exact (List.prefix_append _ _).trans (ih _ _)
    | tail => exact ih _ _
    | field name => exact (List.prefix_append _ _).trans (ih _ _)

/-- A way that stays in a list is over the rests of the list. -/
theorem eq_tails {ways : List Way} {i n : Nat} (h : ways.foldl walk ([], i) = ([], n)) :
    ∃ k, ways = List.replicate k .tail ∧ i + k = n := by
  -- A way into an item or a field does not come back.
  have hleft (a : Step) (ways : List Way) (h : ways.foldl walk ([a], 0) = ([], n)) : False := by
    have hpre := prefix_walk ways [a] 0
    rw [h] at hpre
    exact List.cons_ne_nil _ _ (List.prefix_nil.mp hpre)
  induction ways generalizing i with
  | nil =>
    cases h
    exact ⟨0, rfl, rfl⟩
  | cons w ways ih =>
    cases w with
    | head => exact (hleft _ ways h).elim
    | field name => exact (hleft _ ways h).elim
    | tail =>
      obtain ⟨k, rfl, hk⟩ := ih h
      exact ⟨k + 1, rfl, by omega⟩

theorem walk_tails (n i : Nat) (path : List Step) :
    (List.replicate n tail).foldl walk (path, i) = (path, i + n) := by
  induction n generalizing i with
  | zero => rfl
  | succ n ih =>
    rw [List.replicate_succ, List.foldl_cons, walk, ih, Nat.add_right_comm, Nat.add_assoc]

theorem path_tails (n : Nat) : path (List.replicate n tail ++ [Way.head]) = [.item n] := by
  rw [path, List.foldl_append, walk_tails, Nat.zero_add]
  rfl

theorem eq_tails_of_path {ways : List Way} {n : Nat} (h : path (ways ++ [Way.head]) = [.item n]) :
    ways = List.replicate n .tail := by
  rw [path, List.foldl_append] at h
  have h : (ways.foldl walk ([], 0)).1 ++ [Step.item (ways.foldl walk ([], 0)).2] =
      [] ++ [Step.item n] := h
  obtain ⟨hpath, hitem⟩ := List.append_inj' h rfl
  have hindex : (ways.foldl walk ([], 0)).2 = n := by simpa using hitem
  obtain ⟨k, rfl, hk⟩ := eq_tails (Prod.ext hpath hindex)
  rw [← hk, Nat.zero_add]

end Way

namespace Template

section Context

variable {us : List Template} {names : List String} {S pre post : List Tree}

/-- Where a list is an instance, a longer list that begins with it is not. -/
theorem instance_append_iff (h : (Template.list us).Instance names (.list S)) :
    (Template.list us).Instance names (.list (S ++ post)) ↔ post = [] := by
  constructor
  · rintro ⟨σ', _, hfits'⟩
    obtain ⟨σ, _, hfits⟩ := h
    obtain ⟨_, heq, hall⟩ := hfits
    obtain ⟨_, heq', hall'⟩ := hfits'
    cases heq
    cases heq'
    have hlen := hall.length_eq.symm.trans hall'.length_eq
    rw [List.length_append] at hlen
    exact List.length_eq_zero_iff.mp (by omega)
  · rintro rfl
    rwa [List.append_nil]

/-- No list of no statements is an instance. -/
theorem Made.eq_cons_of_instance (hT : (Template.list us).Made names)
    (h : (Template.list us).Instance names (.list S)) : ∃ t rest, S = t :: rest := by
  obtain ⟨σ, _, hfits⟩ := h
  cases S with
  | nil => exact absurd (meets_of_fits hfits) hT.not_meets_nil
  | cons t rest => exact ⟨t, rest, rfl⟩

/-- A match of a list of statements is reported by the first statement of what is left of the list
from some item on. -/
theorem ways_of_path {v : Tree} (hv : (Template.list us).Instance names v)
    (hlead : v.lead? c.ways = some (c.tree, c.path)) {n : Nat} (hpath : c.path = [.item n]) :
    c.ways = List.replicate n .tail := by
  obtain ⟨σ, _, ts, rfl, _⟩ := hv
  cases ts with
  | nil => cases hlead
  | cons t ts =>
    obtain ⟨_, hlead⟩ := Prod.ext_iff.mp (Option.some.inj hlead)
    exact Way.eq_tails_of_path (hlead.trans hpath)

/-- What the search finds of a template that never makes a check fail. -/
theorem search_places {tree : Tree} (hT : T.Made names) (hplain : T.every isPlain = true)
    (htree : tree.every Tree.hasIdentifier = true) :
    ∃ found, T.search tree = .ok found ∧
      (∀ ways v, tree.at? ways = some v → ((∃ c ∈ found, c.ways = ways) ↔ T.Instance names v)) ∧
      ∀ c ∈ found, ∃ v, tree.at? c.ways = some v ∧ T.Instance names v ∧
        v.lead? c.ways = some (c.tree, c.path) := by
  obtain ⟨found, hfound, hperm⟩ := search_perm hT hplain htree
  have hmem (ways : List Way) : ways ∈ found.map Candidate.ways ↔
      ∃ v, tree.at? ways = some v ∧ T.Instance names v := by
    rw [(hperm.map Candidate.ways).mem_iff, mem_matched_iff hT hplain htree]
  refine ⟨found, hfound, fun ways v hv => ?_, fun c hc => ?_⟩
  · rw [← List.mem_map, hmem, hv]
    exact ⟨fun ⟨_, heq, hinst⟩ => Option.some.inj heq ▸ hinst, fun hinst => ⟨v, rfl, hinst⟩⟩
  · obtain ⟨v, hv, hinst⟩ := (hmem c.ways).mp (List.mem_map_of_mem hc)
    obtain ⟨s, hs, hmatched⟩ := List.mem_filterMap.mp (hperm.mem_iff.mp hc)
    obtain ⟨⟨v', hv', hlead⟩, _⟩ := lead_of_matched hT hplain htree hs hmatched
    cases hv.symm.trans hv'
    exact ⟨v, hv, hinst, hlead⟩

end Context

/-- **Statements in context.** Let the template of a function be a list of statements, and let a list
of statements be matched as a whole. Then the search of a longer list succeeds, and it finds a match
that begins where the statements begin if and only if nothing comes after them. -/
theorem search_statements_in_context {params : List TemplateParam} {body : List Tree}
    {out out' : List String} {us : List Template} (hbody : body ≠ [])
    (hparsed : ∀ t ∈ body, t.every Tree.isParsed = true)
    (hT : (ofFunction params body).run out = (.ok (.list us), out'))
    {S pre post : List Tree} (hS : ∀ t ∈ S, t.every Tree.isParsed = true)
    (hnames : ∀ t ∈ pre ++ S ++ post, t.every Tree.hasIdentifier = true) {found : List Candidate}
    (hfound : (Template.list us).search (.list S) = .ok found) (hwhole : ∃ c ∈ found, c.ways = []) :
    ∃ found', (Template.list us).search (.list (pre ++ S ++ post)) = .ok found' ∧
      ((∃ c ∈ found', c.path = [.item pre.length]) ↔ post = []) ∧
      ∀ c ∈ found', c.path = [.item pre.length] → S.head? = some c.tree := by
  have hmade := made_ofFunction hbody hparsed hT
  obtain ⟨c₀, hc₀, hways₀⟩ := hwhole
  have hplain : (Template.list us).every isPlain = true := by
    refine isPlain_of_found hmade.every ?_ hfound hc₀
    rw [Tree.every, Tree.everyOfAll_iff]
    exact hS
  have htree : (Tree.list (pre ++ S ++ post)).every Tree.hasIdentifier = true := by
    rw [Tree.every, Tree.everyOfAll_iff]
    exact hnames
  have hself : (Tree.list S).every Tree.hasIdentifier = true := by
    rw [Tree.every, Tree.everyOfAll_iff]
    exact fun t ht => hnames t (List.mem_append_left _ (List.mem_append_right _ ht))
  have hinst : (Template.list us).Instance (nameParams params) (.list S) := by
    obtain ⟨_, hok, hiff, _⟩ := search_places hmade hplain hself
    cases hfound.symm.trans hok
    exact (hiff [] _ rfl).mp ⟨c₀, hc₀, hways₀⟩
  obtain ⟨t, rest, rfl⟩ := hmade.eq_cons_of_instance hinst
  obtain ⟨found', hok, hiff, hleads⟩ := search_places hmade hplain htree
  have hat : (Tree.list (pre ++ (t :: rest) ++ post)).at? (List.replicate pre.length .tail) =
      some (.list (t :: (rest ++ post))) := by
    rw [List.append_assoc]
    exact Tree.at?_tails _ _
  have hreport : ∀ c ∈ found', c.ways = List.replicate pre.length .tail →
      c.tree = t ∧ c.path = [.item pre.length] := by
    intro c hc hways
    obtain ⟨v, hv, _, hlead⟩ := hleads c hc
    rw [hways] at hv hlead
    cases hat.symm.trans hv
    obtain ⟨htree, hpath⟩ := Prod.ext_iff.mp (Option.some.inj hlead)
    exact ⟨htree.symm, hpath.symm.trans (Way.path_tails _)⟩
  refine ⟨found', hok, ?_, fun c hc hpath => ?_⟩
  · rw [← instance_append_iff hinst, List.cons_append, ← hiff _ _ hat]
    constructor
    · rintro ⟨c, hc, hpath⟩
      obtain ⟨v, _, hv, hlead⟩ := hleads c hc
      exact ⟨c, hc, ways_of_path hv hlead hpath⟩
    · rintro ⟨c, hc, hways⟩
      exact ⟨c, hc, (hreport c hc hways).2⟩
  · obtain ⟨v, _, hv, hlead⟩ := hleads c hc
    rw [List.head?_cons, (hreport c hc (ways_of_path hv hlead hpath)).1]

/-- Two statements with different names after another statement are found, and with a statement
after them they are not. -/
theorem search_statements_in_context_two_names :
    ∃ us found₁ found₂, (ofFunction (["x", "y"].map fun a => (a, some (.one (.kind .name))))
        (nameStatements ["x", "y"])).run [] = (.ok (.list us), []) ∧
      (Template.list us).search (.list (nameStatements ["c", "a", "b"])) = .ok found₁ ∧
      (∃ c ∈ found₁, c.path = [.item 1]) ∧
      (Template.list us).search (.list (nameStatements ["c", "a", "b", "b"])) = .ok found₂ ∧
      ¬∃ c ∈ found₂, c.path = [.item 1] := by
  have hparsed : ∀ t ∈ nameStatements ["x", "y"], t.every Tree.isParsed = true := by decide
  have hT : (ofFunction (["x", "y"].map fun a => (a, some (.one (.kind .name))))
      (nameStatements ["x", "y"])).run [] =
      (.ok (.list [.node .exprStmt [.capture "x" (.one (.kind .name))],
        .node .exprStmt [.capture "y" (.one (.kind .name))]]), []) := rfl
  have hS : ∀ t ∈ nameStatements ["a", "b"], t.every Tree.isParsed = true := by decide
  have hbefore : ∀ t ∈ nameStatements ["c"] ++ nameStatements ["a", "b"] ++ [],
      t.every Tree.hasIdentifier = true := by decide
  have hboth : ∀ t ∈ nameStatements ["c"] ++ nameStatements ["a", "b"] ++ nameStatements ["b"],
      t.every Tree.hasIdentifier = true := by decide
  obtain ⟨found₁, h₁, hiff₁, _⟩ := search_statements_in_context (List.cons_ne_nil _ _) hparsed hT hS
    hbefore rfl ⟨_, List.mem_cons_self, rfl⟩
  obtain ⟨found₂, h₂, hiff₂, _⟩ := search_statements_in_context (List.cons_ne_nil _ _) hparsed hT hS
    hboth rfl ⟨_, List.mem_cons_self, rfl⟩
  exact ⟨_, found₁, found₂, hT, h₁, hiff₁.mpr rfl, h₂, fun h => nomatch hiff₂.mp h⟩

/-- A statement that is found alone is not found with another one after it. -/
theorem statement_after_hides_match :
    ∃ T c, (ofFunction [] [plain .passStmt []]).run [] = (.ok T, []) ∧
      T.search (.list [plain .passStmt []]) = .ok [c] ∧ c.ways = [] ∧
      T.search (.list ([] ++ [plain .passStmt []] ++ [plain .breakStmt []])) = .ok [] :=
  ⟨.list [.node .passStmt []], ⟨[], plain .passStmt [], [.item 0], Bindings.empty⟩, rfl, rfl, rfl, rfl⟩

end Template

end ScopeLint
