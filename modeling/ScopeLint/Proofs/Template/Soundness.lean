import Mathlib.Data.List.Induction
import Mathlib.Data.List.Perm.Subperm
import ScopeLint.Proofs.Template.Parts
import ScopeLint.Proofs.Template.Search

/-! What a search that succeeds has found. Every match has passed the checks of all places below its
beginning, whatever the template is, and no two matches begin at the same place. So in the value of a
match there is something against every part of the template, and it was accepted. -/

namespace ScopeLint

variable {T : Template} {s : Spot} {l l' : List Spot} {c : Candidate} {r r' : Search}

/-! ### Checks that are passed -/

theorem hold_append_some {root : List Way} {b b' : Bindings}
    (h : hold T root (l ++ l') b = .ok (some b')) :
    ∃ b₁, hold T root l b = .ok (some b₁) ∧ hold T root l' b₁ = .ok (some b') := by
  rw [hold_append] at h
  obtain ⟨o, ho, h⟩ := except_bind_ok h
  cases o with
  | none => cases h
  | some b₁ => exact ⟨b₁, ho, h⟩

theorem hold_singleton {root : List Way} {d : Demand} {b b' : Bindings}
    (hd : T.demand (s.ways.drop root.length) = .ok d) (h : d.accepts s b = .ok (true, b')) :
    hold T root [s] b = .ok (some b') := by
  rw [hold, hd]
  change (d.accepts s b >>= fun r => _) = _
  rw [h]
  rfl

theorem accepts_of_hold {root : List Way} {d : Demand} {b b' : Bindings}
    (hd : T.demand (s.ways.drop root.length) = .ok d) (h : hold T root (s :: l) b = .ok (some b')) :
    ∃ b₁, d.accepts s b = .ok (true, b₁) ∧ hold T root l b₁ = .ok (some b') := by
  rw [hold, hd] at h
  obtain ⟨⟨ok, b₁⟩, ha, h⟩ := except_bind_ok (c := d.accepts s b) h
  cases ok with
  | true => exact ⟨b₁, ha, h⟩
  | false => cases h

/-- Every place of a row that is passed is accepted. -/
theorem accepts_of_mem {root : List Way} {d : Demand} {b b' : Bindings}
    (h : hold T root l b = .ok (some b')) (hs : s ∈ l)
    (hd : T.demand (s.ways.drop root.length) = .ok d) :
    ∃ b₁ b₂, d.accepts s b₁ = .ok (true, b₂) := by
  obtain ⟨l₁, l₂, rfl⟩ := List.append_of_mem hs
  obtain ⟨b₁, _, h⟩ := hold_append_some h
  obtain ⟨b₂, ha, _⟩ := accepts_of_hold hd h
  exact ⟨b₁, b₂, ha⟩

/-! ### What a step can do -/

namespace Search

/-- A candidate before and after the check of a place below its beginning. -/
def Passes (T : Template) (s : Spot) (c c' : Candidate) : Prop :=
  c.ways.isPrefixOf s.ways = true ∧
    ∃ b, c' = { c with bindings := b } ∧ hold T c.ways [s] c.bindings = .ok (some b)

/-- The candidate that begins at a place, after the check of the place itself. -/
def Begins (T : Template) (s : Spot) (c : Candidate) : Prop :=
  ∃ b, c = ⟨s.ways, s.lead.1, s.lead.2, b⟩ ∧ hold T s.ways [s] Bindings.empty = .ok (some b)

theorem recheck_cases (h : recheck T s c r = .ok r') :
    (∃ c', Passes T s c c' ∧ r' = { r with active := r.active ++ [c'] }) ∨ r' = r ∨
      c.ways.isPrefixOf s.ways = false ∧ r' = { r with complete := r.complete ++ [c] } := by
  unfold recheck at h
  split_ifs at h with hs
  · obtain ⟨d, hd, h⟩ := except_bind_ok h
    obtain ⟨⟨ok, b⟩, ha, h⟩ := except_bind_ok h
    cases h
    cases ok with
    | true => exact Or.inl ⟨_, ⟨hs, b, rfl, hold_singleton hd ha⟩, rfl⟩
    | false => exact Or.inr (Or.inl rfl)
  · cases h
    exact Or.inr (Or.inr ⟨Bool.eq_false_iff.mpr hs, rfl⟩)

theorem recheckAll_cases {cs : List Candidate}
    (h : cs.foldlM (fun r c => recheck T s c r) r = .ok r') :
    (∀ c' ∈ r'.active, c' ∈ r.active ∨ ∃ c ∈ cs, Passes T s c c') ∧
      ∀ c' ∈ r'.complete, c' ∈ r.complete ∨ c' ∈ cs ∧ c'.ways.isPrefixOf s.ways = false := by
  induction cs generalizing r with
  | nil =>
    cases h
    exact ⟨fun c' hc' => Or.inl hc', fun c' hc' => Or.inl hc'⟩
  | cons c cs ih =>
    rw [List.foldlM_cons] at h
    obtain ⟨r₁, hr₁, h⟩ := except_bind_ok h
    obtain ⟨hactive, hcomplete⟩ := ih h
    have hactive₁ : ∀ c' ∈ r₁.active, c' ∈ r.active ∨ Passes T s c c' := by
      rcases recheck_cases hr₁ with ⟨d, hpass, rfl⟩ | rfl | ⟨_, rfl⟩
      · intro c' hc'
        rcases List.mem_append.mp hc' with hc' | hc'
        · exact Or.inl hc'
        · exact Or.inr (List.mem_singleton.mp hc' ▸ hpass)
      · exact fun c' hc' => Or.inl hc'
      · exact fun c' hc' => Or.inl hc'
    have hcomplete₁ : ∀ c' ∈ r₁.complete, c' ∈ r.complete ∨
        c' = c ∧ c.ways.isPrefixOf s.ways = false := by
      rcases recheck_cases hr₁ with ⟨_, _, rfl⟩ | rfl | ⟨hleft, rfl⟩
      · exact fun c' hc' => Or.inl hc'
      · exact fun c' hc' => Or.inl hc'
      · intro c' hc'
        rcases List.mem_append.mp hc' with hc' | hc'
        · exact Or.inl hc'
        · exact Or.inr ⟨List.mem_singleton.mp hc', hleft⟩
    constructor
    · intro c' hc'
      rcases hactive c' hc' with hc' | ⟨c₀, hc₀, hpass⟩
      · exact (hactive₁ c' hc').imp_right fun hpass => ⟨c, List.mem_cons_self, hpass⟩
      · exact Or.inr ⟨c₀, List.mem_cons_of_mem _ hc₀, hpass⟩
    · intro c' hc'
      rcases hcomplete c' hc' with hc' | ⟨hc', hs⟩
      · exact (hcomplete₁ c' hc').imp_right fun ⟨heq, hs⟩ => ⟨heq ▸ List.mem_cons_self, heq ▸ hs⟩
      · exact Or.inr ⟨List.mem_cons_of_mem _ hc', hs⟩

/-- What a step that succeeds does: the candidates are checked, and one may begin. -/
theorem step_eq (h : step T r s = .ok r') :
    ∃ r₁, r.active.foldlM (fun r c => recheck T s c r) { r with active := [] } = .ok r₁ ∧
      (r' = r₁ ∨ ∃ c, Begins T s c ∧ r' = { r₁ with active := r₁.active ++ [c] }) := by
  unfold step at h
  obtain ⟨r₁, hr₁, h⟩ := except_bind_ok h
  refine ⟨r₁, hr₁, ?_⟩
  obtain ⟨⟨ok, b⟩, ha, h⟩ := except_bind_ok h
  cases ok with
  | false =>
    cases h
    exact Or.inl rfl
  | true =>
    obtain ⟨c, hc, h⟩ := except_bind_ok h
    cases h
    refine Or.inr ⟨c, ⟨b, ?_, ?_⟩, rfl⟩
    · have hne : s.tree ≠ .list [] := by
        intro hnil
        rw [candidate, hnil] at hc
        cases hc
      rw [Spot.candidate_eq hne] at hc
      exact (Except.ok.inj hc).symm
    · refine hold_singleton (d := .shape T) ?_ ha
      rw [List.drop_length]
      rfl

/-- After a place, an active candidate has passed its check or begins there, and a candidate is
complete that was so before or that the place is not below of. -/
theorem step_cases (h : step T r s = .ok r') :
    (∀ c' ∈ r'.active, (∃ c ∈ r.active, Passes T s c c') ∨ Begins T s c') ∧
      ∀ c' ∈ r'.complete, c' ∈ r.complete ∨ c' ∈ r.active ∧ c'.ways.isPrefixOf s.ways = false := by
  obtain ⟨r₁, hr₁, hnew⟩ := step_eq h
  obtain ⟨hactive, hcomplete⟩ := recheckAll_cases hr₁
  have hpassed : ∀ c' ∈ r₁.active, ∃ c ∈ r.active, Passes T s c c' :=
    fun c' hc' => (hactive c' hc').resolve_left List.not_mem_nil
  rcases hnew with rfl | ⟨c, hc, rfl⟩
  · exact ⟨fun c' hc' => Or.inl (hpassed c' hc'), hcomplete⟩
  · refine ⟨fun c' hc' => ?_, hcomplete⟩
    rcases List.mem_append.mp hc' with hc' | hc'
    · exact Or.inl (hpassed c' hc')
    · exact Or.inr (List.mem_singleton.mp hc' ▸ hc)

/-! ### Where the candidates begin -/

/-- The places where the candidates of a search begin. -/
def ways (r : Search) : List (List Way) := (r.complete ++ r.active).map Candidate.ways

theorem ways_recheck (h : recheck T s c r = .ok r') : r'.ways.Subperm (c.ways :: r.ways) := by
  rcases recheck_cases h with ⟨_, ⟨_, _, rfl, _⟩, rfl⟩ | rfl | ⟨_, rfl⟩
  · refine List.Perm.subperm ?_
    simp only [ways, ← List.append_assoc, List.map_append, List.map_singleton]
    exact List.perm_append_singleton _ _
  · exact List.Subperm.cons_self
  · refine List.Perm.subperm ?_
    simp only [ways, List.append_assoc, List.map_append, List.singleton_append]
    exact List.perm_middle

theorem ways_recheckAll {cs : List Candidate}
    (h : cs.foldlM (fun r c => recheck T s c r) r = .ok r') :
    r'.ways.Subperm (cs.map Candidate.ways ++ r.ways) := by
  induction cs generalizing r with
  | nil =>
    cases h
    exact List.Subperm.refl _
  | cons c cs ih =>
    rw [List.foldlM_cons] at h
    obtain ⟨r₁, hr₁, h⟩ := except_bind_ok h
    refine (ih h).trans (((List.subperm_append_left _).mpr (ways_recheck hr₁)).trans ?_)
    exact List.perm_middle.subperm

theorem ways_step (h : step T r s = .ok r') : r'.ways.Subperm (s.ways :: r.ways) := by
  obtain ⟨r₁, hr₁, hnew⟩ := step_eq h
  have hways : r₁.ways.Subperm r.ways := by
    refine (ways_recheckAll hr₁).trans (List.Perm.subperm ?_)
    simp only [ways, List.append_nil, List.map_append]
    exact List.perm_append_comm
  rcases hnew with rfl | ⟨c, ⟨_, rfl, _⟩, rfl⟩
  · exact hways.trans List.Subperm.cons_self
  · refine List.Subperm.trans (List.Perm.subperm ?_) ((List.subperm_cons s.ways).mpr hways)
    simp only [ways, ← List.append_assoc, List.map_append, List.map_singleton]
    exact List.perm_append_singleton _ _

theorem ways_run (h : l.foldlM (step T) r = .ok r') : r'.ways.Subperm (l.map Spot.ways ++ r.ways) := by
  induction l generalizing r with
  | nil =>
    cases h
    exact List.Subperm.refl _
  | cons s l ih =>
    rw [List.foldlM_cons] at h
    obtain ⟨r₁, hr₁, h⟩ := except_bind_ok h
    refine (ih h).trans (((List.subperm_append_left _).mpr (ways_step hr₁)).trans ?_)
    exact List.perm_middle.subperm

end Search

/-! ### What a run finds -/

theorem Candidate.outcome_of_passes {c' d : Candidate} (hpass : Search.Passes T s c c')
    (h : c'.outcome T l = .ok (some d)) : c.outcome T (s :: l) = .ok (some d) := by
  obtain ⟨hs, b, rfl, hb⟩ := hpass
  rw [outcome, List.takeWhile_cons, hs, if_pos rfl, ← List.singleton_append, hold_append, hb]
  exact h

theorem Spot.matched_of_begins (hall : s :: l.takeWhile s.covers = s.all) {d : Candidate}
    (hbegins : Search.Begins T s c) (h : c.outcome T l = .ok (some d)) : s.matched T = some d := by
  obtain ⟨b, rfl, hb⟩ := hbegins
  have h : (hold T s.ways (l.takeWhile s.covers) b).map
      (Option.map fun b => (⟨s.ways, s.lead.1, s.lead.2, b⟩ : Candidate)) = .ok (some d) := h
  obtain ⟨o, ho, h⟩ : ∃ o, hold T s.ways (l.takeWhile s.covers) b = .ok o ∧
      o.map (fun b => (⟨s.ways, s.lead.1, s.lead.2, b⟩ : Candidate)) = some d := by
    cases ho : hold T s.ways (l.takeWhile s.covers) b with
    | error fault =>
      rw [ho] at h
      cases h
    | ok o =>
      rw [ho] at h
      exact ⟨o, rfl, Except.ok.inj h⟩
  have hwhole : hold T s.ways s.all Bindings.empty = .ok o := by
    rw [← hall, ← List.singleton_append, hold_append, hb]
    exact ho
  rw [matched_eq hwhole, h]

namespace Search

/-- A candidate that is there after a run was complete before, or has come to this end from an active
one, or is the match that begins at one of the places. -/
theorem matched_of_run (hl : Spot.Layered l) (h : l.foldlM (step T) r = .ok r')
    (hc : c ∈ r'.complete ++ r'.active) :
    c ∈ r.complete ∨ (∃ c₀ ∈ r.active, c₀.outcome T l = .ok (some c)) ∨
      ∃ s ∈ l, s.matched T = some c := by
  induction l generalizing r with
  | nil =>
    cases h
    exact (List.mem_append.mp hc).imp_right fun hc => Or.inl ⟨c, hc, rfl⟩
  | cons s l ih =>
    rw [List.foldlM_cons] at h
    obtain ⟨r₁, hr₁, h⟩ := except_bind_ok h
    obtain ⟨hall, _, hl⟩ := hl
    obtain ⟨hactive, hcomplete⟩ := step_cases hr₁
    rcases ih hl h with hc | ⟨c₁, hc₁, hend⟩ | ⟨s', hs', hmatched⟩
    · rcases hcomplete c hc with hc | ⟨hc, hleft⟩
      · exact Or.inl hc
      · exact Or.inr (Or.inl ⟨c, hc, Candidate.outcome_of_left hleft⟩)
    · rcases hactive c₁ hc₁ with ⟨c₀, hc₀, hpass⟩ | hbegins
      · exact Or.inr (Or.inl ⟨c₀, hc₀, Candidate.outcome_of_passes hpass hend⟩)
      · exact Or.inr (Or.inr ⟨s, List.mem_cons_self, Spot.matched_of_begins hall hbegins hend⟩)
    · exact Or.inr (Or.inr ⟨s', List.mem_cons_of_mem _ hs', hmatched⟩)

end Search

namespace Template

variable {tree : Tree} {found : List Candidate}

/-- What a search returns are the candidates that are there in the end, all reported by nodes. -/
theorem run_of_search (h : T.search tree = .ok found) :
    ∃ r, (tree.spots [] []).foldlM (Search.step T) Search.start = .ok r ∧
      found = r.complete ++ r.active ∧ ∀ c ∈ found, c.tree.isNode = true := by
  unfold search at h
  obtain ⟨r, hr, h⟩ := except_bind_ok h
  have hpass : List.Forall₂ (fun c c' => c = c' ∧ c'.tree.isNode = true) (r.complete ++ r.active)
      found := by
    refine (except_mapM_ok h).imp fun c c' heq => ?_
    split_ifs at heq with hnode
    cases heq
    exact ⟨rfl, hnode⟩
  have hsame := hpass.imp fun _ _ => And.left
  rw [List.forall₂_eq_eq_eq] at hsame
  subst hsame
  exact ⟨r, hr, rfl, fun c hc => (List.forall₂_same.mp hpass c hc).2⟩

/-- Every match found begins at a place of the tree and has passed the checks of all places below. -/
theorem matched_of_search (h : T.search tree = .ok found) (hc : c ∈ found) :
    ∃ s ∈ tree.spots [] [], s.matched T = some c := by
  obtain ⟨r, hr, rfl, _⟩ := run_of_search h
  rcases Search.matched_of_run (Spot.layered_spots tree [] []) hr hc with hc | ⟨_, hc, _⟩ | hc
  · cases hc
  · cases hc
  · exact hc

/-- No two matches begin at the same place. -/
theorem nodup_ways_of_search (h : T.search tree = .ok found) : (found.map Candidate.ways).Nodup := by
  obtain ⟨r, hr, rfl, _⟩ := run_of_search h
  obtain ⟨l, hperm, hsub⟩ := Search.ways_run hr
  rw [Search.ways, Search.start, List.nil_append, List.map_nil, List.append_nil] at hsub
  exact hperm.nodup_iff.mp ((Spot.layered_spots tree [] []).nodup_ways.sublist hsub)

end Template

/-! ### What stands against the parts of a template -/

/-- A constant of a template accepts constants that are equal to it. -/
theorem Atom.valueEq_of_acceptsTree {a : Atom} {t : Tree} (h : a.acceptsTree t = .ok true) :
    ∃ x, t = .atom x ∧ x.valueEq a = true := by
  cases t with
  | atom x =>
    refine ⟨x, rfl, ?_⟩
    cases a with
    | null => cases x <;> first | rfl | cases h
    | bytes bs => cases h
    | complex re im => cases h
    | ellipsis => cases h
    | _ => exact Except.ok.inj h
  | list items => cases a <;> cases h
  | node k sp fields => cases a <;> cases h

namespace Spot

variable {w : List Way} {u : Template} {v : Tree}

/-- The places of a place are at the ends of the ways in its value. -/
theorem exists_mem_all (h : s.tree.at? w = some v) :
    ∃ s' ∈ s.all, s'.ways = s.ways ++ w ∧ s'.tree = v := by
  obtain ⟨ways, t, path, i⟩ := s
  have hplain (j : Nat) (hall : ∀ s', t.Reaches ways (path, j) s' → s' ∈ Spot.all ⟨ways, t, path, i⟩) :
      ∃ s' ∈ Spot.all ⟨ways, t, path, i⟩, s'.ways = ways ++ w ∧ s'.tree = v :=
    ⟨⟨ways ++ w, v, (w.foldl Way.walk (path, j)).1, (w.foldl Way.walk (path, j)).2⟩,
      hall _ ⟨w, rfl, h, rfl⟩, rfl, rfl⟩
  cases t with
  | list items =>
    refine hplain i fun s' hs' => ?_
    exact (Tree.mem_suffixSpots_of (fun t _ => Tree.mem_spots_iff t) ways path i s').mpr hs'
  | atom a => exact hplain 0 fun s' hs' => (Tree.mem_spots_iff _ ways path s').mpr hs'
  | node k sp fields => exact hplain 0 fun s' hs' => (Tree.mem_spots_iff _ ways path s').mpr hs'

theorem hold_of_matched (h : s.matched T = some c) :
    c = ⟨s.ways, s.lead.1, s.lead.2, c.bindings⟩ ∧
      hold T s.ways s.all Bindings.empty = .ok (some c.bindings) := by
  unfold matched at h
  split at h
  next b hb =>
    cases h
    exact ⟨rfl, hb⟩
  next => cases h

/-- Where a template is accepted, there is a value one step down wherever the template has a part. -/
theorem exists_below_of_accepts {p : Template} {way : Way} {b b' : Bindings}
    (h : p.accepts s b = .ok (true, b')) (hf : s.tree.every Tree.hasFields = true)
    (hp : p.below? way = some u) : ∃ v, s.tree.below? way = some v := by
  obtain ⟨ways, t, path, i⟩ := s
  cases p with
  | list us =>
    cases us with
    | nil => cases way <;> cases hp
    | cons u us =>
      rcases t with a | (_ | ⟨t, ts⟩) | ⟨k, sp, fields⟩
      · cases h
      · cases h
      · rcases Template.below?_list_cons.mp hp with ⟨rfl, _⟩ | ⟨rfl, _⟩
        · exact ⟨t, rfl⟩
        · exact ⟨.list ts, rfl⟩
      · cases h
  | node k us =>
    obtain ⟨name, rfl, hname⟩ := Template.below?_node.mp hp
    have hk : t.isKind k = true := (Prod.ext_iff.mp (Except.ok.inj h)).1
    cases t with
    | atom a => cases hk
    | list items => cases hk
    | node k' sp fields =>
      obtain rfl : k' = k := by simpa [Tree.isKind, Tree.kind?] using hk
      rw [Tree.every, Bool.and_eq_true, Tree.hasFields, beq_iff_eq] at hf
      have hmem : name ∈ (k'.fields.zip fields).map Prod.fst := by
        rw [List.map_fst_zip hf.1.ge]
        exact (List.of_mem_zip hname).1
      obtain ⟨⟨_, v⟩, hv, rfl⟩ := List.mem_map.mp hmem
      exact ⟨v, Tree.below?_node.mpr ⟨_, rfl, hv⟩⟩
  | atom a => cases way <;> cases hp
  | capture a c => cases way <;> cases hp
  | test c => cases way <;> cases hp

/-- The value of a match has something against every part of the template, which the part accepts. -/
theorem part_of_matched (hf : s.tree.every Tree.hasFields = true) (h : s.matched T = some c)
    (hu : T.at? w = some u) :
    ∃ s' b b', s.tree.at? w = some s'.tree ∧ u.accepts s' b = .ok (true, b') := by
  obtain ⟨_, hhold⟩ := hold_of_matched h
  have haccepts {w : List Way} {u : Template} {v : Tree} (hu : T.at? w = some u)
      (hv : s.tree.at? w = some v) :
      ∃ s' b b', s.tree.at? w = some s'.tree ∧ u.accepts s' b = .ok (true, b') := by
    obtain ⟨s', hs', hways, rfl⟩ := exists_mem_all hv
    obtain ⟨b, b', hb⟩ := accepts_of_mem hhold hs' (d := .shape u)
      (by rw [hways, List.drop_left, Template.demand_of_at? hu])
    exact ⟨s', b, b', hv, hb⟩
  -- The value against a part exists since the part around it was accepted.
  induction w using List.reverseRecOn generalizing u with
  | nil => exact haccepts hu rfl
  | append_singleton w way ih =>
    rw [Template.at?_append] at hu
    obtain ⟨p, hp, hu⟩ := Option.bind_eq_some_iff.mp hu
    have hbelow : p.below? way = some u := by
      rw [← hu, Template.at?]
      cases p.below? way <;> rfl
    obtain ⟨s', b, b', hs', hb⟩ := ih hp
    obtain ⟨v, hv⟩ := exists_below_of_accepts hb (Tree.every_at? hf hs') hbelow
    exact haccepts ((Template.at?_concat hp).trans hbelow) ((Tree.at?_concat hs').trans hv)

end Spot

theorem Template.part_of_search {tree : Tree} {found : List Candidate} {w : List Way} {u : Template}
    (h : T.search tree = .ok found) (hf : tree.every Tree.hasFields = true) (hc : c ∈ found)
    (hu : T.at? w = some u) :
    ∃ s' b b', tree.at? (c.ways ++ w) = some s'.tree ∧ u.accepts s' b = .ok (true, b') := by
  obtain ⟨s, hs, hmatched⟩ := matched_of_search h hc
  obtain ⟨more, hways, hat, _⟩ := (Tree.mem_spots_iff tree [] [] s).mp hs
  have hat : tree.at? s.ways = some s.tree := by
    rw [hways]
    exact hat
  obtain ⟨s', b, b', hs', hb⟩ := Spot.part_of_matched (Tree.every_at? hf hat) hmatched hu
  refine ⟨s', b, b', ?_, hb⟩
  rw [(Spot.matched_eq_some hmatched).1, Tree.at?_append, hat]
  exact hs'

end ScopeLint
