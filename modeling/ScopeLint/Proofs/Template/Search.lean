import Mathlib.Data.List.Perm.Basic
import ScopeLint.Proofs.Template.Candidate
import ScopeLint.Template.Stock

/-! The search finds the instances of a template, each once. What becomes of a candidate depends only
on the places below its beginning, and these come right after it. So a candidate can be followed to
its end on its own, and the search is a permutation of all candidates that come through, one at most
for each place. -/

namespace ScopeLint

open Bindings

variable {T : Template} {s : Spot} {l : List Spot} {c : Candidate} {r : Search}

namespace Candidate

/-- What becomes of a candidate over the places that are still to come. -/
def outcome (T : Template) (l : List Spot) (c : Candidate) : Except Fault (Option Candidate) :=
  (hold T c.ways (l.takeWhile fun s => c.ways.isPrefixOf s.ways) c.bindings).map
    (Option.map fun b => { c with bindings := b })

/-- The candidate in the end, if it came through. -/
def ended (T : Template) (l : List Spot) (c : Candidate) : List Candidate :=
  match c.outcome T l with
  | .ok (some c) => [c]
  | _ => []

theorem ended_of_outcome {o : Option Candidate} (h : c.outcome T l = .ok o) :
    c.ended T l = o.toList := by
  rw [ended, h]
  cases o <;> rfl

theorem outcome_of_left (h : c.ways.isPrefixOf s.ways = false) :
    c.outcome T (s :: l) = .ok (some c) := by
  rw [outcome, List.takeWhile_cons, h]
  rfl

/-- One place further, where the candidate has to pass a check. -/
theorem outcome_cons {o : Option Candidate} (hs : c.ways.isPrefixOf s.ways = true)
    (h : c.outcome T (s :: l) = .ok o) :
    ∃ d ok b, T.demand (s.ways.drop c.ways.length) = .ok d ∧ d.accepts s c.bindings = .ok (ok, b) ∧
      if ok then outcome T l { c with bindings := b } = .ok o else o = none := by
  rw [outcome, List.takeWhile_cons, hs, if_pos rfl, hold] at h
  rcases hd : T.demand (s.ways.drop c.ways.length) with fault | d
  · rw [hd] at h
    cases h
  rw [hd] at h
  change Except.map _ (d.accepts s c.bindings >>= fun r => _) = _ at h
  rcases ha : d.accepts s c.bindings with fault | ⟨ok, b⟩
  · rw [ha] at h
    cases h
  rw [ha] at h
  refine ⟨d, ok, b, rfl, ha, ?_⟩
  cases ok with
  | true => exact h
  | false =>
    cases h
    rfl

end Candidate

namespace Search

/-- All candidates of a search that come through in the end. -/
def yield (T : Template) (l : List Spot) (r : Search) : List Candidate :=
  r.complete ++ r.active.flatMap (Candidate.ended T l)

/-- No check of a candidate fails in the places that are still to come. -/
def Ready (T : Template) (l : List Spot) (r : Search) : Prop :=
  ∀ c ∈ r.active, ∃ o, c.outcome T l = .ok o

theorem yield_nil : r.yield T [] = r.complete ++ r.active := by
  rw [yield]
  congr 1
  exact List.flatMap_singleton' r.active

theorem ready_add (hr : r.Ready T l) {o : Option Candidate} (hc : c.outcome T l = .ok o) :
    Ready T l { r with active := r.active ++ [c] } := by
  intro c' hc'
  rcases List.mem_append.mp hc' with hc' | hc'
  · exact hr c' hc'
  · rw [List.mem_singleton.mp hc']
    exact ⟨o, hc⟩

theorem yield_add {o : Option Candidate} (hc : c.outcome T l = .ok o) :
    yield T l { r with active := r.active ++ [c] } = r.yield T l ++ o.toList := by
  simp only [yield, List.flatMap_append, List.flatMap_cons, List.flatMap_nil, List.append_nil,
    Candidate.ended_of_outcome hc, List.append_assoc]

/-- A candidate held against a place still comes to the same end. -/
theorem recheck_perm (hr : r.Ready T l) {o : Option Candidate}
    (hc : c.outcome T (s :: l) = .ok o) :
    ∃ r', recheck T s c r = .ok r' ∧ r'.Ready T l ∧
      (r'.yield T l).Perm (r.yield T l ++ o.toList) := by
  rcases hs : c.ways.isPrefixOf s.ways with _ | _
  · rw [Candidate.outcome_of_left hs] at hc
    cases hc
    refine ⟨{ r with complete := r.complete ++ [c] }, by rw [recheck, hs]; rfl, hr, ?_⟩
    simp only [yield, List.append_assoc, Option.toList_some]
    exact List.Perm.append_left _ List.perm_append_comm
  · obtain ⟨d, ok, b, hd, ha, hok⟩ := Candidate.outcome_cons hs hc
    have hrecheck : recheck T s c r = .ok (if ok then
        { r with active := r.active ++ [{ c with bindings := b }] } else r) := by
      rw [recheck, hs, if_pos rfl, hd]
      change (d.accepts s c.bindings >>= fun r => _) = _
      rw [ha]
      rfl
    cases ok with
    | true => exact ⟨_, hrecheck, ready_add hr hok, by rw [if_pos rfl, yield_add hok]⟩
    | false =>
      have hnone : o = none := hok
      exact ⟨_, hrecheck, hr, by rw [hnone]; simp⟩

theorem recheckAll_perm {cs : List Candidate} (hr : r.Ready T l)
    (hcs : ∀ c ∈ cs, ∃ o, c.outcome T (s :: l) = .ok o) :
    ∃ r', cs.foldlM (fun r c => recheck T s c r) r = .ok r' ∧ r'.Ready T l ∧
      (r'.yield T l).Perm (r.yield T l ++ cs.flatMap (Candidate.ended T (s :: l))) := by
  induction cs generalizing r with
  | nil => exact ⟨r, rfl, hr, by simp⟩
  | cons c cs ih =>
    obtain ⟨o, ho⟩ := hcs c List.mem_cons_self
    obtain ⟨r₁, hr₁, hready, hperm⟩ := recheck_perm hr ho
    obtain ⟨r₂, hr₂, hready, hperm'⟩ := ih hready fun c hc => hcs c (List.mem_cons_of_mem _ hc)
    refine ⟨r₂, by rw [List.foldlM_cons, hr₁]; exact hr₂, hready, ?_⟩
    rw [List.flatMap_cons, Candidate.ended_of_outcome ho, ← List.append_assoc]
    exact hperm'.trans (hperm.append_right _)

end Search

namespace Spot

/-- The value by which a match at a place is reported, and the path to it. -/
def lead (s : Spot) : Tree × List Step :=
  match s.tree with
  | .list (t :: _) => (t, s.headPath)
  | t => (t, s.path)

/-- The match that begins at a place, if there is one. -/
def matched (T : Template) (s : Spot) : Option Candidate :=
  match hold T s.ways s.all Bindings.empty with
  | .ok (some b) => some ⟨s.ways, s.lead.1, s.lead.2, b⟩
  | _ => none

theorem matched_eq {o : Option Bindings} (h : hold T s.ways s.all Bindings.empty = .ok o) :
    s.matched T = o.map fun b => ⟨s.ways, s.lead.1, s.lead.2, b⟩ := by
  rw [matched, h]
  cases o <;> rfl

/-- No check fails at a place or below it, and no match is an empty list. -/
structure Clear (T : Template) (s : Spot) : Prop where
  checks : ∃ o, hold T s.ways s.all Bindings.empty = .ok o
  lead : ∀ b, T.accepts s Bindings.empty = .ok (true, b) → s.tree ≠ .list []

theorem candidate_eq {b : Bindings} (h : s.tree ≠ .list []) :
    Search.candidate s b = .ok ⟨s.ways, s.lead.1, s.lead.2, b⟩ := by
  unfold Search.candidate lead
  split
  next hs => exact absurd hs h
  next hs => rw [hs]
  next hs => split <;> simp_all

end Spot

namespace Search

/-- One place further, the candidates come to the same end, and the match that begins at the place is
new. -/
theorem step_perm (hall : s :: l.takeWhile s.covers = s.all) (hs : s.Clear T)
    (hr : r.Ready T (s :: l)) :
    ∃ r', step T r s = .ok r' ∧ r'.Ready T l ∧
      (r'.yield T l).Perm (r.yield T (s :: l) ++ (s.matched T).toList) := by
  have hstart : Ready T l { r with active := [] } := fun _ h => nomatch h
  obtain ⟨r₁, hr₁, hready, hperm⟩ := recheckAll_perm hstart hr
  have hperm : (r₁.yield T l).Perm (r.yield T (s :: l)) := by
    simpa [yield] using hperm
  obtain ⟨o, ho⟩ := hs.checks
  rw [Spot.matched_eq ho]
  rw [← hall, hold, List.drop_length] at ho
  change (T.accepts s Bindings.empty >>= fun p => _) = _ at ho
  rcases ha : T.accepts s Bindings.empty with fault | ⟨ok, b⟩
  · rw [ha] at ho
    cases ho
  rw [ha] at ho
  cases ok with
  | false =>
    cases ho
    refine ⟨r₁, ?_, hready, by simpa using hperm⟩
    rw [step, hr₁]
    change (T.accepts s Bindings.empty >>= fun p => _) = _
    rw [ha]
    rfl
  | true =>
    have ho : hold T s.ways (l.takeWhile s.covers) b = .ok o := ho
    have hc : Candidate.outcome T l ⟨s.ways, s.lead.1, s.lead.2, b⟩ =
        .ok (o.map fun b => ⟨s.ways, s.lead.1, s.lead.2, b⟩) := by
      change Except.map _ (hold T s.ways (l.takeWhile s.covers) b) = _
      rw [ho]
      rfl
    refine ⟨_, ?_, ready_add hready hc, (yield_add hc).symm ▸ hperm.append_right _⟩
    rw [step, hr₁]
    change (T.accepts s Bindings.empty >>= fun p => _) = _
    rw [ha]
    change (candidate s b >>= fun c => _) = _
    rw [Spot.candidate_eq (hs.lead b ha)]
    rfl

/-- A search over places finds the matches that begin at them. -/
theorem run_perm (hl : Spot.Layered l) (hclear : ∀ s ∈ l, s.Clear T) (hr : r.Ready T l) :
    ∃ r', l.foldlM (step T) r = .ok r' ∧
      (r'.complete ++ r'.active).Perm (r.yield T l ++ l.filterMap (Spot.matched T)) := by
  induction l generalizing r with
  | nil => exact ⟨r, rfl, by rw [yield_nil]; simp⟩
  | cons s l ih =>
    obtain ⟨hall, _, hl⟩ := hl
    obtain ⟨r₁, hr₁, hready, hperm⟩ := step_perm hall (hclear s List.mem_cons_self) hr
    obtain ⟨r₂, hr₂, hperm'⟩ := ih hl (fun s hs => hclear s (List.mem_cons_of_mem _ hs)) hready
    refine ⟨r₂, by rw [List.foldlM_cons, hr₁]; exact hr₂, ?_⟩
    have hmatched : (s :: l).filterMap (Spot.matched T) =
        (s.matched T).toList ++ l.filterMap (Spot.matched T) := by
      rw [List.filterMap_cons]
      cases s.matched T <;> rfl
    rw [hmatched, ← List.append_assoc]
    exact hperm'.trans (hperm.append_right _)

end Search

/-! ### Matches and instances -/

namespace Template

variable {names : List String} {σ : String → String}

theorem isNode_of_fits {u : Template} {t : Tree} (hu : u.standsForNode = true) (h : u.Fits σ t) :
    t.isNode = true := by
  cases u with
  | atom a => cases hu
  | list us => cases hu
  | node k us =>
    obtain ⟨_, _, rfl, _⟩ := h
    rfl
  | capture a c => exact CaptureClass.isNode_of_holds h.1
  | test c =>
    obtain ⟨d, _, h⟩ := h
    exact NodeClass.isNode_of_holds h

theorem Made.not_meets_nil (hT : T.Made names) : ¬T.Meets σ (.list []) := by
  rcases hT.root with hT | ⟨u, us, rfl, _⟩
  · refine not_meets_list fun us hus => ?_
    rw [hus] at hT
    cases hT
  · rintro ⟨_, _, h, _⟩
    cases h

/-- What fits a template from a function is a node, or a list that begins with one. -/
theorem Made.lead_of_fits (hT : T.Made names) {t : Tree} (h : T.Fits σ t) :
    t.isNode = true ∨ ∃ v ts, t = .list (v :: ts) ∧ v.isNode = true := by
  rcases hT.root with hT | ⟨u, us, rfl, hu⟩
  · exact Or.inl (isNode_of_fits hT h)
  · obtain ⟨_, rfl, v, ts, rfl, hv, _⟩ := h
    exact Or.inr ⟨v, ts, rfl, isNode_of_fits hu hv⟩

end Template

namespace Tree

theorem every_below? {p : Tree → Bool} {t u : Tree} {w : Way} (ht : t.every p = true)
    (h : t.below? w = some u) : u.every p = true := by
  cases t with
  | atom a => cases w <;> cases h
  | list items =>
    rw [every, everyOfAll_iff] at ht
    obtain ⟨t, ts, rfl, ⟨_, rfl⟩ | ⟨_, rfl⟩⟩ := below?_list.mp h
    · exact ht u List.mem_cons_self
    · rw [every, everyOfAll_iff]
      exact fun t' ht' => ht t' (List.mem_cons_of_mem _ ht')
  | node k sp fields =>
    rw [every, Bool.and_eq_true, everyOfAll_iff] at ht
    obtain ⟨name, _, hmem⟩ := below?_node.mp h
    exact ht.2 u (List.of_mem_zip hmem).2

theorem every_at? {p : Tree → Bool} {t v : Tree} {ways : List Way} (ht : t.every p = true)
    (h : t.at? ways = some v) : v.every p = true := by
  induction ways generalizing t with
  | nil =>
    cases h
    exact ht
  | cons w ways ih =>
    obtain ⟨u, hu, h⟩ := Option.bind_eq_some_iff.mp h
    exact ih (every_below? ht hu) h

/-- The node by which a value at the end of a way is reported, and the path to it: a list is reported
by its first item. -/
def lead? (ways : List Way) : Tree → Option (Tree × List Step)
  | .node k sp fields => some (.node k sp fields, Way.path ways)
  | .list (t :: _) => some (t, Way.path (ways ++ [.head]))
  | _ => none

end Tree

namespace Spot

variable {names : List String}

theorem clear (hT : T.Made names) (hplain : T.every Template.isPlain = true)
    (hs : s.tree.every Tree.hasIdentifier = true) : s.Clear T := by
  have hreg : T.Regular names := ⟨hplain, hT.every⟩
  constructor
  · obtain ⟨o, ho, _⟩ := decides_all s hreg hs Bindings.empty proper_empty
    exact ⟨o, ho⟩
  · intro b hb hnil
    obtain ⟨_, hok, hans⟩ := Template.accepts_ok proper_empty T s hreg hs
    rw [hb] at hok
    cases hok
    obtain ⟨σ, hσ, hagrees⟩ := hans.1.exists_agrees
    have hmeets := ((hans.2 σ hσ.injOn).mp hagrees).2
    rw [hnil] at hmeets
    exact hT.not_meets_nil hmeets

/-- There is a match at a place if its value is an instance. -/
theorem matched_isSome_iff (hreg : T.Regular names)
    (hs : s.tree.every Tree.hasIdentifier = true) :
    (s.matched T).isSome = true ↔ T.Instance names s.tree := by
  obtain ⟨o, ho, hans⟩ := decides_all s hreg hs Bindings.empty proper_empty
  rw [matched_eq ho, Option.isSome_map]
  cases o with
  | none =>
    refine ⟨(fun h => nomatch h), ?_⟩
    rintro ⟨σ, hσ, hfits⟩
    exact absurd hfits (hans σ hσ agrees_empty)
  | some b =>
    refine ⟨fun _ => ?_, fun _ => rfl⟩
    obtain ⟨σ, hσ, hagrees⟩ := hans.1.exists_agrees
    exact ⟨σ, hσ.injOn, ((hans.2 σ hσ.injOn).mp hagrees).2⟩

theorem matched_eq_some (h : s.matched T = some c) :
    c.ways = s.ways ∧ c.tree = s.lead.1 ∧ c.path = s.lead.2 := by
  unfold matched at h
  split at h
  · cases h
    exact ⟨rfl, rfl, rfl⟩
  · cases h

theorem lead_eq (hplace : (s.path, s.index) = s.ways.foldl Way.walk ([], 0))
    (h : s.tree.isNode = true ∨ ∃ v ts, s.tree = .list (v :: ts) ∧ v.isNode = true) :
    s.tree.lead? s.ways = some s.lead ∧ s.lead.1.isNode = true := by
  obtain ⟨ways, t, path, i⟩ := s
  simp only at hplace h ⊢
  rcases h with h | ⟨v, ts, rfl, h⟩
  · cases t with
    | atom a => cases h
    | list items => cases h
    | node k sp fields =>
      simp only [Tree.lead?, lead, Way.path, ← hplace]
      exact ⟨trivial, rfl⟩
  · simp only [Tree.lead?, lead, headPath, Way.path, List.foldl_append, ← hplace, List.foldl_cons,
      List.foldl_nil, Way.walk]
    exact ⟨trivial, h⟩

end Spot

theorem mapM_isNode {cs : List Candidate} (h : ∀ c ∈ cs, c.tree.isNode = true) :
    (cs.mapM fun c => if c.tree.isNode then Except.ok c else
      Except.error (Fault.missingAttribute c.tree.className "captures")) = .ok cs := by
  induction cs with
  | nil => rfl
  | cons c cs ih =>
    rw [List.mapM_cons, h c List.mem_cons_self, ih fun c hc => h c (List.mem_cons_of_mem _ hc)]
    rfl

namespace Template

section Search

variable {names : List String} {tree : Tree}

theorem hasIdentifier_of_mem_spots (htree : tree.every Tree.hasIdentifier = true)
    (hs : s ∈ tree.spots [] []) : s.tree.every Tree.hasIdentifier = true := by
  obtain ⟨more, _, hat, _⟩ := (Tree.mem_spots_iff tree [] [] s).mp hs
  exact Tree.every_at? htree hat

/-- A match is reported by the node that leads the value at its place. -/
theorem lead_of_matched (hT : T.Made names) (hplain : T.every isPlain = true)
    (htree : tree.every Tree.hasIdentifier = true) (hs : s ∈ tree.spots [] [])
    (h : s.matched T = some c) :
    (∃ v, tree.at? c.ways = some v ∧ v.lead? c.ways = some (c.tree, c.path)) ∧
      c.tree.isNode = true := by
  obtain ⟨more, hways, hat, hplace⟩ := (Tree.mem_spots_iff tree [] [] s).mp hs
  obtain ⟨hc, htreeOf, hpath⟩ := Spot.matched_eq_some h
  have hways : s.ways = more := hways
  obtain ⟨σ, _, hfits⟩ := (Spot.matched_isSome_iff ⟨hplain, hT.every⟩
    (hasIdentifier_of_mem_spots htree hs)).mp (by rw [h]; rfl)
  obtain ⟨hlead, hnode⟩ := Spot.lead_eq (hways ▸ hplace) (hT.lead_of_fits hfits)
  rw [hc, htreeOf, hpath]
  exact ⟨⟨s.tree, hways ▸ hat, hlead⟩, hnode⟩

/-- The search finds the matches that begin at the places of a tree. -/
theorem search_perm (hT : T.Made names) (hplain : T.every isPlain = true)
    (htree : tree.every Tree.hasIdentifier = true) :
    ∃ found, T.search tree = .ok found ∧
      found.Perm ((tree.spots [] []).filterMap (Spot.matched T)) := by
  obtain ⟨r, hr, hperm⟩ := Search.run_perm (Spot.layered_spots tree [] [])
    (fun s hs => Spot.clear hT hplain (hasIdentifier_of_mem_spots htree hs))
    (r := Search.start) fun _ h => nomatch h
  refine ⟨r.complete ++ r.active, ?_, hperm⟩
  rw [search, hr]
  refine mapM_isNode fun c hc => ?_
  obtain ⟨s, hs, hmatched⟩ := List.mem_filterMap.mp (hperm.mem_iff.mp hc)
  exact (lead_of_matched hT hplain htree hs hmatched).2

theorem nodup_ways_matched (l : List Spot) (hl : (l.map Spot.ways).Nodup) :
    ((l.filterMap (Spot.matched T)).map Candidate.ways).Nodup := by
  induction l with
  | nil => exact List.nodup_nil
  | cons s l ih =>
    rw [List.map_cons, List.nodup_cons] at hl
    rw [List.filterMap_cons]
    split
    · exact ih hl.2
    next c hc =>
      rw [List.map_cons, List.nodup_cons]
      refine ⟨fun hmem => hl.1 ?_, ih hl.2⟩
      obtain ⟨c', hc', hways⟩ := List.mem_map.mp hmem
      obtain ⟨s', hs', hmatched⟩ := List.mem_filterMap.mp hc'
      rw [← (Spot.matched_eq_some hc).1, ← hways, (Spot.matched_eq_some hmatched).1]
      exact List.mem_map_of_mem hs'

/-- There is a match at the end of a way if the value there is an instance. -/
theorem mem_matched_iff (hT : T.Made names) (hplain : T.every isPlain = true)
    (htree : tree.every Tree.hasIdentifier = true) (ways : List Way) :
    ways ∈ ((tree.spots [] []).filterMap (Spot.matched T)).map Candidate.ways ↔
      ∃ v, tree.at? ways = some v ∧ T.Instance names v := by
  have hreg : T.Regular names := ⟨hplain, hT.every⟩
  constructor
  · intro h
    obtain ⟨c, hc, rfl⟩ := List.mem_map.mp h
    obtain ⟨s, hs, hmatched⟩ := List.mem_filterMap.mp hc
    obtain ⟨more, hways, hat, _⟩ := (Tree.mem_spots_iff tree [] [] s).mp hs
    refine ⟨s.tree, ?_, ?_⟩
    · rw [(Spot.matched_eq_some hmatched).1, hways]
      exact hat
    · exact (Spot.matched_isSome_iff hreg (hasIdentifier_of_mem_spots htree hs)).mp
        (by rw [hmatched]; rfl)
  · rintro ⟨v, hat, hinst⟩
    let s : Spot := ⟨ways, v, (ways.foldl Way.walk ([], 0)).1, (ways.foldl Way.walk ([], 0)).2⟩
    have hs : s ∈ tree.spots [] [] :=
      (Tree.mem_spots_iff tree [] [] s).mpr ⟨ways, rfl, hat, rfl⟩
    have hsome := (Spot.matched_isSome_iff hreg (hasIdentifier_of_mem_spots htree hs)).mpr hinst
    obtain ⟨c, hc⟩ := Option.isSome_iff_exists.mp hsome
    exact List.mem_map.mpr ⟨c, List.mem_filterMap.mpr ⟨s, hs, hc⟩, (Spot.matched_eq_some hc).1⟩

end Search

/-- The search of a tree for the template of a function succeeds. It finds a match at every place
whose value is an instance of the template and at no other, it finds none of them twice, and it
reports each by the node that leads the value. -/
theorem search_finds_instances {params : List TemplateParam} {body : List Tree}
    {out out' : List String} (hbody : body ≠ []) (hparsed : ∀ t ∈ body, t.every Tree.isParsed = true)
    (hT : (ofFunction params body).run out = (.ok T, out')) (hplain : T.every isPlain = true)
    {tree : Tree} (htree : tree.every Tree.hasIdentifier = true) :
    ∃ found, T.search tree = .ok found ∧ (found.map Candidate.ways).Nodup ∧
      (∀ ways, ways ∈ found.map Candidate.ways ↔
        ∃ v, tree.at? ways = some v ∧ T.Instance (nameParams params) v) ∧
      ∀ c ∈ found, ∃ v, tree.at? c.ways = some v ∧ v.lead? c.ways = some (c.tree, c.path) := by
  have hmade := made_ofFunction hbody hparsed hT
  obtain ⟨found, hfound, hperm⟩ := search_perm hmade hplain htree
  refine ⟨found, hfound, ?_, fun ways => ?_, fun c hc => ?_⟩
  · rw [(hperm.map Candidate.ways).nodup_iff]
    exact nodup_ways_matched _ (Spot.layered_spots tree [] []).nodup_ways
  · rw [(hperm.map Candidate.ways).mem_iff, mem_matched_iff hmade hplain htree]
  · obtain ⟨s, hs, hmatched⟩ := List.mem_filterMap.mp (hperm.mem_iff.mp hc)
    exact (lead_of_matched hmade hplain htree hs hmatched).1

/-- Statements that are just names. -/
def nameStatements (ids : List String) : List Tree :=
  ids.map fun id => plain .exprStmt [nameRead id]

/-- Two statements with different names, in a list of three statements: only the last two are an
instance, since the first two have the same name and all three are too many. -/
theorem search_finds_instances_two_names :
    ∃ T found, (ofFunction (["x", "y"].map fun a => (a, some (.one (.kind .name))))
        (nameStatements ["x", "y"])).run [] = (.ok T, []) ∧ T.every isPlain = true ∧
      found.map Candidate.ways = [[.tail]] ∧
      T.search (.list (nameStatements ["a", "a", "b"])) = .ok found ∧
      (found.map Candidate.ways).Nodup ∧
      (∀ ways, ways ∈ found.map Candidate.ways ↔
        ∃ v, (Tree.list (nameStatements ["a", "a", "b"])).at? ways = some v ∧
          T.Instance ["x", "y"] v) ∧
      ∀ c ∈ found, ∃ v, (Tree.list (nameStatements ["a", "a", "b"])).at? c.ways = some v ∧
        v.lead? c.ways = some (c.tree, c.path) := by
  have hparsed : ∀ t ∈ nameStatements ["x", "y"], t.every Tree.isParsed = true := by decide
  have hT : (ofFunction (["x", "y"].map fun a => (a, some (.one (.kind .name))))
      (nameStatements ["x", "y"])).run [] =
      (.ok (.list [.node .exprStmt [.capture "x" (.one (.kind .name))],
        .node .exprStmt [.capture "y" (.one (.kind .name))]]), []) := rfl
  have htree : (Tree.list (nameStatements ["a", "a", "b"])).every Tree.hasIdentifier = true := rfl
  obtain ⟨found, hfound, h⟩ :=
    search_finds_instances (List.cons_ne_nil _ _) hparsed hT rfl htree
  refine ⟨_, found, hT, rfl, ?_, hfound, h⟩
  cases hfound
  rfl

end Template

end ScopeLint
