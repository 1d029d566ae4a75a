import Mathlib.Data.Multiset.AddSub
import ScopeLint.Proofs.Scope.Tour
import ScopeLint.Proofs.Tree.Grammar

/-! Where in a tree a visit for scopes looks, and to which scope a place belongs. Both are read off the
fields on the way to the place: some fields are never visited, and the innermost definition in whose
body or among whose parameters the place lies has its scope. -/

namespace ScopeLint

namespace Edge

/-- The body of a node that has a scope. -/
def opensBody (e : Edge) : Bool :=
  e.field == "body" && [Kind.module, .classDef, .functionDef, .lambda].contains e.kind

/-- A parameter in a list of parameters, and not a default. -/
def isParameter (e : Edge) : Bool :=
  e.kind == .parameters && ["posonlyargs", "args", "vararg", "kwonlyargs", "kwarg"].contains e.field

/-- The parameters of a node that has a scope. -/
def holdsParameters (e : Edge) : Bool :=
  e.field == "args" && [Kind.functionDef, .lambda].contains e.kind

/-- Whether a field is not visited, where `up` is the field passed before. -/
def isSkipped (e : Edge) (up : Option Edge) : Bool :=
  [(Kind.classDef, "keywords"), (.functionDef, "returns"), (.parameter, "annotation"),
    (.parameters, "posonlyargs")].contains (e.kind, e.field) ||
  e.kind == .parameters && ["defaults", "kw_defaults"].contains e.field &&
    up.any fun d => d.kind == .asyncFunctionDef

end Edge

/-- Whether none of the fields on the way to a place is skipped. -/
def isReached : List Edge → Bool
  | [] => true
  | e :: edges => !e.isSkipped edges.head? && isReached edges

/-- The way to the node whose scope a place belongs to; without any other this is the root. -/
def scopeOf : List Edge → List Step
  | [] => []
  | e :: edges =>
    if e.opensBody then e.origin
    else if e.isParameter && edges.head?.any Edge.holdsParameters then
      (edges.head?.map Edge.origin).getD []
    else scopeOf edges

theorem isReached_of_suffix {edges edges' : List Edge} (h : edges <:+ edges')
    (hr : isReached edges' = true) : isReached edges = true := by
  induction edges' with
  | nil =>
    rw [List.suffix_nil] at h
    rw [h]
    rfl
  | cons e edges' ih =>
    rcases List.suffix_cons_iff.mp h with rfl | h
    · exact hr
    · rw [isReached, Bool.and_eq_true] at hr
      exact ih h hr.2

/-- The kinds with a field that is skipped or that leads into a scope. -/
def Kind.isSpecial (k : Kind) : Bool :=
  [Kind.module, .classDef, .functionDef, .lambda, .parameters, .parameter].contains k

/-- The fields of all other nodes are visited, and in the same scope. -/
theorem through_ordinary {k : Kind} (hk : k.isSpecial = false) (p : List Step) (f : String)
    (edges : List Edge) :
    isReached (⟨k, p, f⟩ :: edges) = isReached edges ∧ scopeOf (⟨k, p, f⟩ :: edges) = scopeOf edges := by
  simp only [Kind.isSpecial, List.contains_eq_mem, List.mem_cons, List.not_mem_nil, or_false,
    decide_eq_false_iff_not, not_or] at hk
  obtain ⟨hmodule, hclass, hfunction, hlambda, hparameters, hparameter⟩ := hk
  constructor
  · simp [isReached, Edge.isSkipped, hclass, hfunction, hparameters, hparameter]
  · simp [scopeOf, Edge.opensBody, Edge.isParameter, hmodule, hclass, hfunction, hlambda, hparameters]

/-! ### What is told of a place -/

/-- The kinds of the nodes that are an occurrence of a name by themselves or open a scope. -/
def Kind.isFound (k : Kind) : Bool :=
  [Kind.name, .parameter, .module, .classDef, .functionDef, .lambda].contains k

namespace Tree

/-- Nodes that are an occurrence of a name wherever they stand. -/
def isMention (t : Tree) : Bool := t.isOneOf [.name, .parameter]

theorem isMention_or_ownsScope (k : Kind) (s : Span) (fields : List Tree) :
    ((Tree.node k s fields).isMention || (Tree.node k s fields).ownsScope) = k.isFound := by
  cases k <;> rfl

/-- The name that a node is an occurrence of: that of a name or of a parameter. -/
def label? (t : Tree) : Option String :=
  if t.isKind .name then (t.get? "id").bind str?
  else if t.isKind .parameter then (t.get? "arg").bind str?
  else none

end Tree

namespace Place

def home? (x : Place) : Option (List Step) :=
  if x.edges.isEmpty then none else some (scopeOf x.edges)

def note (x : Place) : Note := ⟨x.home?, x.tree.label?, x.path, x.tree⟩

/-- Whether a node opens a scope or is an occurrence of a name, where a visit comes. -/
def isRecorded (x : Place) : Bool := (x.tree.isMention || x.tree.ownsScope) && isReached x.edges

end Place

/-- What is told of those of some nodes that a visit finds. -/
def recorded (ps : List Place) : Multiset Note := ↑((ps.filter Place.isRecorded).map Place.note)

@[simp] theorem recorded_nil : recorded [] = 0 := rfl

@[simp] theorem recorded_append (ps qs : List Place) :
    recorded (ps ++ qs) = recorded ps + recorded qs := by
  simp [recorded]

theorem recorded_cons_of_pos {x : Place} (h : x.isRecorded = true) (ps : List Place) :
    recorded (x :: ps) = {x.note} + recorded ps := by
  simp [recorded, h]

theorem recorded_cons_of_neg {x : Place} (h : x.isRecorded = false) (ps : List Place) :
    recorded (x :: ps) = recorded ps := by
  simp [recorded, h]

theorem recorded_eq_zero {ps : List Place} (h : ∀ x ∈ ps, x.isRecorded = false) :
    recorded ps = 0 := by
  rw [recorded, List.filter_eq_nil_iff.mpr fun x hx => by simp [h x hx]]
  rfl

namespace Tree

/-- The nodes of a tree are found on ways that pass the fields on the way to the tree. -/
structure Under (t : Tree) : Prop where
  node : ∀ path edges, ∀ x ∈ t.places path edges, edges <:+ x.edges
  items : ∀ items, t = .list items → ∀ path edges i, ∀ x ∈ placesOfItems path edges i items,
    edges <:+ x.edges

theorem under_items {ts : List Tree} (h : ∀ t ∈ ts, t.Under) (path : List Step) (edges : List Edge) :
    ∀ i, ∀ x ∈ placesOfItems path edges i ts, edges <:+ x.edges := by
  induction ts with
  | nil => intro i x hx; cases hx
  | cons t ts ih =>
    intro i x hx
    rw [placesOfItems, List.mem_append] at hx
    rcases hx with hx | hx
    · exact (h t List.mem_cons_self).node _ _ x hx
    · exact ih (fun u hu => h u (List.mem_cons_of_mem _ hu)) _ x hx

theorem Under.placesIn {t : Tree} (h : t.Under) (path : List Step) (edges : List Edge) :
    ∀ x ∈ placesIn path edges t, edges <:+ x.edges := by
  cases t with
  | list items => exact h.items items rfl path edges 0
  | atom a => exact h.node path edges
  | node k s fields => exact h.node path edges

theorem under_fields {ts : List Tree} (h : ∀ t ∈ ts, t.Under) (k : Kind) (path : List Step)
    (edges : List Edge) : ∀ names : List String, ∀ x ∈ placesOfFields k path edges names ts,
      edges <:+ x.edges := by
  induction ts with
  | nil => intro names x hx; cases names <;> cases hx
  | cons t ts ih =>
    intro names x hx
    cases names with
    | nil => cases hx
    | cons f names =>
      rw [placesOfFields_cons, List.mem_append] at hx
      rcases hx with hx | hx
      · exact (List.suffix_cons _ _).trans ((h t List.mem_cons_self).placesIn _ _ x hx)
      · exact ih (fun u hu => h u (List.mem_cons_of_mem _ hu)) names x hx

theorem places_under (t : Tree) : t.Under := by
  induction t using Tree.induct with
  | atom a => exact ⟨fun _ _ _ hx => by (cases hx), fun _ h => by cases h⟩
  | list items ih =>
    refine ⟨fun _ _ _ hx => by (cases hx), fun _ h path edges => ?_⟩
    cases h
    exact under_items ih path edges
  | node k s fields ih =>
    refine ⟨fun path edges x hx => ?_, fun _ h => by cases h⟩
    rcases List.mem_cons.mp hx with rfl | hx
    · exact List.suffix_refl _
    · exact under_fields ih k path edges k.fields x hx

/-- Nothing is found behind a field that is skipped. -/
theorem recorded_of_not_reached {edges : List Edge} (h : isReached edges = false) (path : List Step)
    (t : Tree) : recorded (placesIn path edges t) = 0 := by
  refine recorded_eq_zero fun x hx => ?_
  rw [Place.isRecorded, Bool.and_eq_false_iff]
  right
  by_contra hr
  rw [Bool.not_eq_false] at hr
  rw [isReached_of_suffix (t.places_under.placesIn path edges x hx) hr] at h
  cases h

theorem placesOfItems_of_atoms {ts : List Tree} (h : ∀ u ∈ ts, ∃ a, u = .atom a) (path : List Step)
    (edges : List Edge) : ∀ i, placesOfItems path edges i ts = [] := by
  induction ts with
  | nil => intro i; rfl
  | cons u ts ih =>
    intro i
    obtain ⟨a, rfl⟩ := h u List.mem_cons_self
    exact ih (fun v hv => h v (List.mem_cons_of_mem _ hv)) (i + 1)

/-- A field without nodes. -/
theorem placesIn_of_flat {slot : Slot} {t : Tree} (ht : slot.fits t = true) (hs : slot.isFlat = true)
    (path : List Step) (edges : List Edge) : placesIn path edges t = [] := by
  rcases Slot.atoms_of_flat hs ht with ⟨a, rfl⟩ | ⟨items, rfl, hitems⟩
  · rfl
  · exact placesOfItems_of_atoms hitems path edges 0

end Tree

end ScopeLint
