import ScopeLint.Proofs.Template.Candidate

/-! The parts of a template, each at the end of a way, as the parts of a tree are. What a template
demands at the end of a way to one of its parts is that part. -/

namespace ScopeLint

namespace Tree

variable {t u v : Tree} {w : Way} {ways more : List Way}

theorem at?_append : t.at? (ways ++ more) = (t.at? ways).bind fun u => u.at? more := by
  induction ways generalizing t with
  | nil => rfl
  | cons w ways ih =>
    rw [List.cons_append, at?, at?, Option.bind_assoc]
    exact Option.bind_congr fun u _ => ih

theorem at?_concat (h : t.at? ways = some u) : t.at? (ways ++ [w]) = u.below? w := by
  rw [at?_append, h, Option.bind_some, at?]
  cases u.below? w <;> rfl

end Tree

namespace Template

theorem induct {P : Template → Prop} (atom : ∀ a, P (.atom a))
    (list : ∀ us, (∀ u ∈ us, P u) → P (.list us))
    (node : ∀ k us, (∀ u ∈ us, P u) → P (.node k us))
    (capture : ∀ a c, P (.capture a c)) (test : ∀ c, P (.test c)) : ∀ u, P u := by
  intro u
  refine @Template.rec P (fun us => ∀ u ∈ us, P u) atom list node capture test ?_ ?_ u
  · intro u hu
    cases hu
  · intro u us hu hus v hv
    rcases List.mem_cons.mp hv with rfl | hv
    · exact hu
    · exact hus v hv

/-- The template one step down. -/
def below? : Template → Way → Option Template
  | .list (u :: _), .head => some u
  | .list (_ :: us), .tail => some (.list us)
  | .node k us, .field name => (k.fields.zip us).lookup name
  | _, _ => none

/-- The template at the end of a way. -/
def at? : Template → List Way → Option Template
  | u, [] => some u
  | u, w :: ways => (u.below? w).bind fun v => v.at? ways

variable {T u v : Template} {w : Way} {ways more : List Way}

theorem at?_append : T.at? (ways ++ more) = (T.at? ways).bind fun u => u.at? more := by
  induction ways generalizing T with
  | nil => rfl
  | cons w ways ih =>
    rw [List.cons_append, at?, at?, Option.bind_assoc]
    exact Option.bind_congr fun u _ => ih

theorem at?_concat (h : T.at? ways = some u) : T.at? (ways ++ [w]) = u.below? w := by
  rw [at?_append, h, Option.bind_some, at?]
  cases u.below? w <;> rfl

theorem below?_list_cons {us : List Template} :
    (Template.list (u :: us)).below? w = some v ↔ w = .head ∧ v = u ∨ w = .tail ∧ v = .list us := by
  cases w <;> simp [below?, eq_comm]

theorem below?_node {k : Kind} {us : List Template} :
    (Template.node k us).below? w = some v ↔ ∃ name, w = .field name ∧ (name, v) ∈ k.fields.zip us := by
  cases w <;> simp [below?, Kind.lookup_fields_iff]

theorem step_of_below? (h : u.below? w = some v) : u.step w = .ok (.shape v) := by
  cases u with
  | list us =>
    cases us with
    | nil => cases w <;> cases h
    | cons u us =>
      rcases below?_list_cons.mp h with ⟨rfl, rfl⟩ | ⟨rfl, rfl⟩
      · rfl
      · rfl
  | node k us =>
    obtain ⟨name, rfl, hmem⟩ := below?_node.mp h
    rw [step, (Kind.lookup_fields_iff k).mpr hmem]
  | atom a => cases w <;> cases h
  | capture a c => cases w <;> cases h
  | test c => cases w <;> cases h

/-- At the end of a way to a part, a template demands the part. -/
theorem demand_of_at? (h : T.at? ways = some u) : T.demand ways = .ok (.shape u) := by
  induction ways generalizing T with
  | nil =>
    cases h
    rfl
  | cons w ways ih =>
    obtain ⟨v, hv, h⟩ := Option.bind_eq_some_iff.mp h
    rw [demand, step_of_below? hv]
    exact ih h

/-! ### Tests of all parts -/

theorem exists_way_of_mem {us : List Template} (h : u ∈ us) :
    ∃ ways, (Template.list us).at? ways = some u := by
  induction us with
  | nil => cases h
  | cons v us ih =>
    rcases List.mem_cons.mp h with rfl | h
    · exact ⟨[.head], rfl⟩
    · obtain ⟨ways, hways⟩ := ih h
      exact ⟨.tail :: ways, hways⟩

/-- What holds of all parts of a template whose nodes have all their fields holds throughout. -/
theorem every_of_parts {names : List String} {p : Template → Bool} :
    ∀ T : Template, T.every (isMade names) = true → (∀ ways u, T.at? ways = some u → p u = true) →
      T.every p = true := by
  intro T
  induction T using Template.induct with
  | list us ih =>
    intro hT h
    rw [every, everyOfAll_iff] at hT ⊢
    intro u hu
    obtain ⟨ways, hways⟩ := exists_way_of_mem hu
    refine ih u hu (hT u hu) fun more v hv => h (ways ++ more) v ?_
    rw [at?_append, hways]
    exact hv
  | node k us ih =>
    intro hT h
    rw [every, Bool.and_eq_true, everyOfAll_iff] at hT ⊢
    rw [isMade, Bool.and_eq_true, beq_iff_eq] at hT
    refine ⟨h [] _ rfl, fun u hu => ih u hu (hT.2 u hu) fun more v hv => ?_⟩
    have hmem : u ∈ (k.fields.zip us).map Prod.snd := by rwa [List.map_snd_zip hT.1.1.le]
    obtain ⟨⟨name, _⟩, hname, rfl⟩ := List.mem_map.mp hmem
    refine h (.field name :: more) v ?_
    rw [at?, below?_node.mpr ⟨name, rfl, hname⟩]
    exact hv
  | atom a => exact fun _ h => h [] _ rfl
  | capture a c => exact fun _ h => h [] _ rfl
  | test c => exact fun _ h => h [] _ rfl

end Template

end ScopeLint
