import Mathlib.Data.List.Nodup
import ScopeLint.Proofs.Fault
import ScopeLint.Proofs.Tree.Induction
import ScopeLint.Tree.Site

/-! The nodes of a tree from the top down, each with the way to it and the fields that are passed on
that way. These are the nodes that the walk by levels finds, and no two of them have the same way. -/

namespace ScopeLint

/-- A step from a node into a field: the kind of the node, the way to it and the field. -/
structure Edge where
  kind : Kind
  origin : List Step
  field : String
deriving DecidableEq

/-- A node with the way to it and the fields that are passed, the nearest first. -/
structure Place where
  path : List Step
  edges : List Edge
  tree : Tree

/-- The fields that are passed, from the nodes around a place and the way to it backwards. -/
def edgesUp : List Tree → List Step → List Edge
  | ups, .item _ :: back => edgesUp ups back
  | .node k _ _ :: ups, .field f :: back => ⟨k, back.reverse, f⟩ :: edgesUp ups back
  | _, _ => []

namespace Trail

def edges (trail : Trail) : List Edge := edgesUp trail.above trail.path.reverse

@[simp] theorem edges_item (trail : Trail) (i : Nat) : (trail.item i).edges = trail.edges := by
  simp [edges, item, edgesUp]

@[simp] theorem edges_field (trail : Trail) (k : Kind) (s : Span) (fields : List Tree) (f : String) :
    ((trail.inside (.node k s fields)).field f).edges = ⟨k, trail.path, f⟩ :: trail.edges := by
  simp [edges, field, inside, edgesUp]

@[simp] theorem path_item (trail : Trail) (i : Nat) :
    (trail.item i).path = trail.path ++ [Step.item i] := rfl

@[simp] theorem path_field (trail : Trail) (t : Tree) (f : String) :
    ((trail.inside t).field f).path = trail.path ++ [Step.field f] := rfl

end Trail

def Site.place (x : Site) : Place := ⟨x.path, x.toTrail.edges, x.tree⟩

namespace Tree

mutual

/-- The nodes of a tree that stands somewhere, from the top down. -/
def places (path : List Step) (edges : List Edge) : Tree → List Place
  | .atom _ => []
  | .list _ => []
  | .node k s fields =>
    ⟨path, edges, .node k s fields⟩ :: placesOfFields k path edges k.fields fields

def placesOfFields (k : Kind) (path : List Step) (edges : List Edge) :
    List String → List Tree → List Place
  | f :: names, t :: ts =>
    let here := match t with
      | .list items => placesOfItems (path ++ [.field f]) (⟨k, path, f⟩ :: edges) 0 items
      | t => places (path ++ [.field f]) (⟨k, path, f⟩ :: edges) t
    here ++ placesOfFields k path edges names ts
  | _, _ => []

def placesOfItems (path : List Step) (edges : List Edge) (i : Nat) : List Tree → List Place
  | [] => []
  | t :: ts => places (path ++ [.item i]) edges t ++ placesOfItems path edges (i + 1) ts

end

/-- The nodes in the value of a field. -/
def placesIn (path : List Step) (edges : List Edge) : Tree → List Place
  | .list items => placesOfItems path edges 0 items
  | t => places path edges t

/-! ### The walk by levels -/

theorem flatten_mergeLevels {α : Type} :
    ∀ xs ys : List (List α), (mergeLevels xs ys).flatten.Perm (xs.flatten ++ ys.flatten)
  | [], ys => by simp [mergeLevels]
  | x :: xs, [] => by simp [mergeLevels]
  | x :: xs, y :: ys => by
    rw [mergeLevels, List.flatten_cons, List.flatten_cons, List.flatten_cons, List.append_assoc,
      List.append_assoc]
    refine List.Perm.append_left x ?_
    refine ((flatten_mergeLevels xs ys).append_left y).trans ?_
    rw [← List.append_assoc, ← List.append_assoc]
    exact List.perm_append_comm.append_right _

theorem map_mergeLevels {xs ys : List (List Site)} {ps qs : List Place}
    (hx : (xs.flatten.map Site.place).Perm ps) (hy : (ys.flatten.map Site.place).Perm qs) :
    ((mergeLevels xs ys).flatten.map Site.place).Perm (ps ++ qs) := by
  refine ((flatten_mergeLevels xs ys).map _).trans ?_
  rw [List.map_append]
  exact hx.append hy

/-- The levels of a tree hold its nodes, and those of a list hold the nodes of the items. -/
structure Leveled (t : Tree) : Prop where
  node : ∀ trail : Trail,
    ((t.levels trail).flatten.map Site.place).Perm (t.places trail.path trail.edges)
  items : ∀ items, t = .list items → ∀ (trail : Trail) (i : Nat),
    ((levelsOfItems trail i items).flatten.map Site.place).Perm
      (placesOfItems trail.path trail.edges i items)

theorem levelsOfItems_perm {ts : List Tree} (h : ∀ t ∈ ts, t.Leveled) :
    ∀ (trail : Trail) (i : Nat), ((levelsOfItems trail i ts).flatten.map Site.place).Perm
      (placesOfItems trail.path trail.edges i ts) := by
  induction ts with
  | nil => intro trail i; exact .refl _
  | cons t ts ih =>
    intro trail i
    have ht := (h t List.mem_cons_self).node (trail.item i)
    rw [Trail.edges_item, Trail.path_item] at ht
    rw [levelsOfItems, placesOfItems]
    exact map_mergeLevels ht (ih (fun u hu => h u (List.mem_cons_of_mem _ hu)) trail (i + 1))

theorem levelsOfFields_perm {k : Kind} {s : Span} {fields : List Tree} {ts : List Tree}
    (h : ∀ t ∈ ts, t.Leveled) (trail : Trail) : ∀ names : List String,
    ((levelsOfFields (trail.inside (.node k s fields)) names ts).flatten.map Site.place).Perm
      (placesOfFields k trail.path trail.edges names ts) := by
  induction ts with
  | nil => intro names; cases names <;> exact .refl _
  | cons t ts ih =>
    intro names
    cases names with
    | nil => exact .refl _
    | cons f names =>
      have hrest := ih (fun u hu => h u (List.mem_cons_of_mem _ hu)) names
      have ht := h t List.mem_cons_self
      let down := (trail.inside (.node k s fields)).field f
      have hnode := ht.node down
      simp only [down, Trail.edges_field, Trail.path_field] at hnode
      cases t with
      | list items =>
        have hitems := ht.items items rfl down 0
        simp only [down, Trail.edges_field, Trail.path_field] at hitems
        exact map_mergeLevels hitems hrest
      | atom a => exact map_mergeLevels hnode hrest
      | node k' s' fields' => exact map_mergeLevels hnode hrest

theorem leveled (t : Tree) : t.Leveled := by
  induction t using Tree.induct with
  | atom a => exact ⟨fun _ => .refl _, fun _ h => by cases h⟩
  | list items ih =>
    refine ⟨fun _ => .refl _, fun _ h trail i => ?_⟩
    cases h
    exact levelsOfItems_perm ih trail i
  | node k s fields ih =>
    refine ⟨fun trail => ?_, fun _ h => by cases h⟩
    rw [levels, places, List.flatten_cons, List.map_append]
    exact (levelsOfFields_perm ih trail k.fields).cons _

/-- The walk by levels finds the nodes of a tree, each once. -/
theorem sites_perm_places (t : Tree) : (t.sites.map Site.place).Perm (t.places [] []) :=
  t.leveled.node .start

theorem placesOfFields_cons (k : Kind) (path : List Step) (edges : List Edge) (f : String)
    (names : List String) (t : Tree) (ts : List Tree) :
    placesOfFields k path edges (f :: names) (t :: ts) =
      placesIn (path ++ [Step.field f]) (⟨k, path, f⟩ :: edges) t ++
        placesOfFields k path edges names ts := by
  cases t <;> rfl

/-! ### Items -/

theorem mem_placesOfItems {path : List Step} {edges : List Edge} {x : Place} {ts : List Tree} {i : Nat} :
    x ∈ placesOfItems path edges i ts ↔
      ∃ (j : Nat) (t : Tree), ts[j]? = some t ∧ x ∈ t.places (path ++ [Step.item (i + j)]) edges := by
  induction ts generalizing i with
  | nil => simp [placesOfItems]
  | cons t ts ih =>
    rw [placesOfItems, List.mem_append, ih]
    constructor
    · rintro (hx | ⟨j, u, hu, hx⟩)
      · exact ⟨0, t, rfl, hx⟩
      · refine ⟨j + 1, u, hu, ?_⟩
        rwa [← Nat.add_assoc, Nat.add_right_comm]
    · rintro ⟨j, u, hu, hx⟩
      cases j with
      | zero =>
        cases hu
        exact Or.inl hx
      | succ j =>
        rw [← Nat.add_assoc, Nat.add_right_comm] at hx
        exact Or.inr ⟨j, u, hu, hx⟩

theorem mem_placesOfFields {k : Kind} {path : List Step} {edges : List Edge} {x : Place}
    {names : List String} {ts : List Tree} : x ∈ placesOfFields k path edges names ts ↔
      ∃ f t, (f, t) ∈ names.zip ts ∧
        x ∈ placesIn (path ++ [Step.field f]) (⟨k, path, f⟩ :: edges) t := by
  induction names generalizing ts with
  | nil => simp [placesOfFields]
  | cons f names ih =>
    cases ts with
    | nil => simp [placesOfFields]
    | cons t ts =>
      rw [placesOfFields_cons, List.mem_append, ih]
      simp only [List.zip_cons_cons, List.mem_cons]
      grind

/-- A node that is an item in a field of a node of a tree is a node of the tree as well. -/
theorem item_placed {n c : Tree} {key : String} {items : List Tree}
    (hget : n.get? key = some (.list items)) (hc : c ∈ items) (hnode : c.isNode = true) (t : Tree) :
    ∀ path edges, (∃ x ∈ placesIn path edges t, x.tree = n) → ∃ x ∈ placesIn path edges t, x.tree = c := by
  induction t using Tree.induct with
  | atom a => simp [placesIn, places]
  | list ts ih =>
    rintro path edges ⟨x, hx, hxn⟩
    obtain ⟨j, u, hu, hx⟩ := mem_placesOfItems.mp hx
    -- Only the nodes among the items have places.
    cases u with
    | node k s fields =>
      obtain ⟨y, hy, hyc⟩ := ih _ (List.mem_of_getElem? hu) _ _ ⟨x, hx, hxn⟩
      exact ⟨y, mem_placesOfItems.mpr ⟨j, _, hu, hy⟩, hyc⟩
    | atom a => cases hx
    | list us => cases hx
  | node k s fields ih =>
    rintro path edges ⟨x, hx, rfl⟩
    have hplaces : placesIn path edges (.node k s fields) =
        ⟨path, edges, .node k s fields⟩ :: placesOfFields k path edges k.fields fields := rfl
    rw [hplaces] at hx ⊢
    suffices h : ∃ y ∈ placesOfFields k path edges k.fields fields, y.tree = c by
      obtain ⟨y, hy, hyc⟩ := h
      exact ⟨y, List.mem_cons_of_mem _ hy, hyc⟩
    rcases List.mem_cons.mp hx with rfl | hx
    · have hfield : (key, .list items) ∈ k.fields.zip fields := by
        cases ht : (k.fields.zip fields).lookup key with
        | none => simp [get?, ht] at hget
        | some t =>
          obtain rfl : t = .list items := by simpa [get?, ht] using hget
          obtain ⟨before, after, heq, -⟩ := List.lookup_eq_some_iff.mp ht
          rw [heq]
          exact List.mem_append_right _ List.mem_cons_self
      obtain ⟨j, hj⟩ := List.getElem?_of_mem hc
      cases c with
      | node k' s' fields' =>
        refine ⟨_, mem_placesOfFields.mpr ⟨key, _, hfield, mem_placesOfItems.mpr ⟨j, _, hj,
          List.mem_cons_self⟩⟩, rfl⟩
      | atom a => cases hnode
      | list us => cases hnode
    · obtain ⟨f, t, ht, hx⟩ := mem_placesOfFields.mp hx
      obtain ⟨y, hy, hyc⟩ := ih t (List.of_mem_zip ht).2 _ _ ⟨x, hx, rfl⟩
      exact ⟨y, mem_placesOfFields.mpr ⟨f, t, ht, hy⟩, hyc⟩

theorem walk_perm_places {t : Tree} {nodes : List Tree} (hw : t.walk = .ok nodes) :
    nodes.Perm ((t.places [] []).map Place.tree) := by
  obtain ⟨_, -, h⟩ := except_bind_ok hw
  cases h
  simpa [Function.comp_def, Site.place] using t.sites_perm_places.map Place.tree

/-- The walk goes on into the items of a field. -/
theorem item_mem_walk {t n c : Tree} {nodes items : List Tree} {key : String} (hw : t.walk = .ok nodes)
    (hn : n ∈ nodes) (hget : n.get? key = some (.list items)) (hc : c ∈ items) (hnode : c.isNode = true) :
    c ∈ nodes := by
  rw [(walk_perm_places hw).mem_iff, List.mem_map] at hn ⊢
  cases t with
  | node k s fields => exact item_placed hget hc hnode (.node k s fields) [] [] hn
  | atom a => simp [places] at hn
  | list ts => simp [places] at hn

/-- What holds of every node of a tree holds of every node of each of its nodes. -/
theorem every_of_mem_placesIn {p : Tree → Bool} (t : Tree) : t.every p = true →
    ∀ path edges, ∀ x ∈ placesIn path edges t, x.tree.every p = true := by
  induction t using Tree.induct with
  | atom a => simp [placesIn, places]
  | list ts ih =>
    intro ht path edges x hx
    rw [every, everyOfAll_iff] at ht
    obtain ⟨j, u, hu, hx⟩ := mem_placesOfItems.mp hx
    have hmem := List.mem_of_getElem? hu
    cases u with
    | node k s fields => exact ih _ hmem (ht _ hmem) _ _ x hx
    | atom a => cases hx
    | list us => cases hx
  | node k s fields ih =>
    intro ht path edges x hx
    rcases List.mem_cons.mp hx with rfl | hx
    · exact ht
    · rw [every, Bool.and_eq_true, everyOfAll_iff] at ht
      obtain ⟨f, u, hu, hx⟩ := mem_placesOfFields.mp hx
      have hmem := (List.of_mem_zip hu).2
      exact ih u hmem (ht.2 u hmem) _ _ x hx

theorem every_of_mem_walk {p : Tree → Bool} {t n : Tree} {nodes : List Tree} (ht : t.every p = true)
    (hw : t.walk = .ok nodes) (hn : n ∈ nodes) : n.every p = true := by
  rw [(walk_perm_places hw).mem_iff, List.mem_map] at hn
  obtain ⟨x, hx, rfl⟩ := hn
  cases t with
  | node k s fields => exact every_of_mem_placesIn _ ht [] [] x hx
  | atom a => cases hx
  | list ts => cases hx

/-! ### Ways -/

/-- Two steps from the same place lead apart. -/
theorem not_both_below {path p : List Step} {a b : Step} (hab : a ≠ b) (ha : path ++ [a] <+: p)
    (hb : path ++ [b] <+: p) : False := by
  obtain ⟨r, rfl⟩ := ha
  obtain ⟨r', hr⟩ := hb
  rw [List.append_assoc, List.append_assoc, List.append_cancel_left_eq] at hr
  exact hab (List.cons.inj hr).1.symm

/-- The nodes are on ways that go on from one place by one of some steps, and their ways differ. -/
structure Apart (path : List Step) (steps : Step → Prop) (ps : List Place) : Prop where
  below : ∀ x ∈ ps, ∃ a, steps a ∧ path ++ [a] <+: x.path
  nodup : (ps.map Place.path).Nodup

namespace Apart

variable {path : List Step} {steps steps' : Step → Prop} {ps qs : List Place}

theorem nil : Apart path steps [] := ⟨by simp, by simp⟩

theorem append (hp : Apart path steps ps) (hq : Apart path steps' qs)
    (h : ∀ a, steps a → ¬ steps' a) : Apart path (fun a => steps a ∨ steps' a) (ps ++ qs) := by
  constructor
  · intro x hx
    rcases List.mem_append.mp hx with hx | hx
    · obtain ⟨a, ha, hpre⟩ := hp.below x hx
      exact ⟨a, Or.inl ha, hpre⟩
    · obtain ⟨a, ha, hpre⟩ := hq.below x hx
      exact ⟨a, Or.inr ha, hpre⟩
  · rw [List.map_append, List.nodup_append]
    refine ⟨hp.nodup, hq.nodup, ?_⟩
    rintro p hmem q hmem' rfl
    obtain ⟨x, hx, rfl⟩ := List.mem_map.mp hmem
    obtain ⟨y, hy, hxy⟩ := List.mem_map.mp hmem'
    obtain ⟨a, ha, hpre⟩ := hp.below x hx
    obtain ⟨b, hb, hpre'⟩ := hq.below y hy
    rw [hxy] at hpre'
    have hab : a ≠ b := by
      rintro rfl
      exact h a ha hb
    exact not_both_below hab hpre hpre'

theorem mono (hp : Apart path steps ps) (h : ∀ a, steps a → steps' a) : Apart path steps' ps :=
  ⟨fun x hx => let ⟨a, ha, hpre⟩ := hp.below x hx; ⟨a, h a ha, hpre⟩, hp.nodup⟩

end Apart

/-- The nodes of a tree that stands at a place have different ways from there. -/
structure Separate (t : Tree) : Prop where
  node : ∀ path edges, (∀ x ∈ t.places path edges, path <+: x.path) ∧
    ((t.places path edges).map Place.path).Nodup
  items : ∀ items, t = .list items → ∀ path edges,
    Apart path (fun a => ∃ i, a = .item i) (placesOfItems path edges 0 items)

theorem apart_of_separate {t : Tree} (h : t.Separate) (path : List Step) (a : Step)
    (edges : List Edge) : Apart path (· = a) (t.places (path ++ [a]) edges) :=
  ⟨fun x hx => ⟨a, rfl, (h.node _ _).1 x hx⟩, (h.node _ _).2⟩

theorem placesOfItems_apart {ts : List Tree} (h : ∀ t ∈ ts, t.Separate) (path : List Step)
    (edges : List Edge) : ∀ i, Apart path (fun a => ∃ j, i ≤ j ∧ a = .item j)
      (placesOfItems path edges i ts) := by
  induction ts with
  | nil => intro i; exact .nil
  | cons t ts ih =>
    intro i
    have hrest := ih (fun u hu => h u (List.mem_cons_of_mem _ hu)) (i + 1)
    rw [placesOfItems]
    refine ((apart_of_separate (h t List.mem_cons_self) path (.item i) edges).append hrest ?_).mono ?_
    · rintro a rfl ⟨j, hj, he⟩
      cases he
      omega
    · rintro a (rfl | ⟨j, hj, rfl⟩)
      · exact ⟨i, by omega, rfl⟩
      · exact ⟨j, by omega, rfl⟩

theorem placesIn_apart {t : Tree} (h : t.Separate) (path : List Step) (a : Step)
    (edges : List Edge) : Apart path (· = a) (placesIn (path ++ [a]) edges t) := by
  cases t with
  | list items =>
    have hitems := h.items items rfl (path ++ [a]) edges
    refine ⟨fun x hx => ⟨a, rfl, ?_⟩, hitems.nodup⟩
    obtain ⟨b, -, hpre⟩ := hitems.below x hx
    exact (List.prefix_append _ _).trans hpre
  | atom b => exact .nil
  | node k s fields => exact apart_of_separate h path a edges

theorem placesOfFields_apart {ts : List Tree} (h : ∀ t ∈ ts, t.Separate) (k : Kind)
    (path : List Step) (edges : List Edge) : ∀ names : List String, names.Nodup →
      Apart path (fun a => ∃ f ∈ names, a = .field f) (placesOfFields k path edges names ts) := by
  induction ts with
  | nil => intro names _; cases names <;> exact .nil
  | cons t ts ih =>
    intro names hnames
    cases names with
    | nil => exact .nil
    | cons f names =>
      rw [List.nodup_cons] at hnames
      have hrest := ih (fun u hu => h u (List.mem_cons_of_mem _ hu)) names hnames.2
      rw [placesOfFields_cons]
      refine ((placesIn_apart (h t List.mem_cons_self) path (.field f) _).append hrest ?_).mono ?_
      · rintro a rfl ⟨g, hg, he⟩
        cases he
        exact hnames.1 hg
      · rintro a (rfl | ⟨g, hg, rfl⟩)
        · exact ⟨f, List.mem_cons_self, rfl⟩
        · exact ⟨g, List.mem_cons_of_mem _ hg, rfl⟩

theorem nodup_fields (k : Kind) : k.fields.Nodup := by
  cases k <;> decide

theorem separate (t : Tree) : t.Separate := by
  induction t using Tree.induct with
  | atom a => exact ⟨fun _ _ => ⟨by simp [places], by simp [places]⟩, fun _ h => by cases h⟩
  | list items ih =>
    refine ⟨fun _ _ => ⟨by simp [places], by simp [places]⟩, fun _ h path edges => ?_⟩
    cases h
    exact (placesOfItems_apart ih path edges 0).mono fun a ⟨j, _, ha⟩ => ⟨j, ha⟩
  | node k s fields ih =>
    refine ⟨fun path edges => ?_, fun _ h => by cases h⟩
    have hfields := placesOfFields_apart ih k path edges k.fields (nodup_fields k)
    rw [places]
    constructor
    · intro x hx
      rcases List.mem_cons.mp hx with rfl | hx
      · exact List.prefix_refl _
      · obtain ⟨a, -, hpre⟩ := hfields.below x hx
        exact (List.prefix_append _ _).trans hpre
    · rw [List.map_cons, List.nodup_cons]
      refine ⟨fun hmem => ?_, hfields.nodup⟩
      obtain ⟨x, hx, hpath⟩ := List.mem_map.mp hmem
      obtain ⟨a, -, hpre⟩ := hfields.below x hx
      rw [hpath] at hpre
      have hlength := hpre.length_le
      rw [List.length_append] at hlength
      exact absurd hlength (by simp)

/-- No two nodes of a tree have the same way. -/
theorem nodup_paths (t : Tree) : (t.sites.map fun x => x.path).Nodup := by
  have hplaces := (t.separate.node [] []).2
  rw [← (t.sites_perm_places.map Place.path).nodup_iff, List.map_map] at hplaces
  exact hplaces

/-! ### The nodes around a node -/

/-- Whether the nodes around each site of some levels have a property. -/
def Surrounded (p : Tree → Bool) (levels : List (List Site)) : Prop :=
  ∀ x ∈ levels.flatten, ∀ u ∈ x.above, p u = true

theorem Surrounded.merge {p : Tree → Bool} {xs ys : List (List Site)} (hx : Surrounded p xs)
    (hy : Surrounded p ys) : Surrounded p (mergeLevels xs ys) := by
  intro x hmem
  rcases List.mem_append.mp ((flatten_mergeLevels xs ys).mem_iff.mp hmem) with h | h
  · exact hx x h
  · exact hy x h

/-- Where the nodes around a tree have a property that all its nodes have, so do the nodes around
its nodes. -/
structure Surrounding (p : Tree → Bool) (t : Tree) : Prop where
  node : ∀ trail : Trail, (∀ u ∈ trail.above, p u = true) → Surrounded p (t.levels trail)
  items : ∀ items, t = .list items → ∀ (trail : Trail) (i : Nat), (∀ u ∈ trail.above, p u = true) →
    Surrounded p (levelsOfItems trail i items)

variable {p : Tree → Bool}

theorem surrounded_items {ts : List Tree} (h : ∀ t ∈ ts, t.Surrounding p) (trail : Trail) (i : Nat)
    (hup : ∀ u ∈ trail.above, p u = true) : Surrounded p (levelsOfItems trail i ts) := by
  induction ts generalizing i with
  | nil => exact fun x hx => nomatch hx
  | cons t ts ih =>
    refine Surrounded.merge ((h t List.mem_cons_self).node (trail.item i) hup) ?_
    exact ih (fun u hu => h u (List.mem_cons_of_mem _ hu)) (i + 1)

theorem surrounded_fields {ts : List Tree} (h : ∀ t ∈ ts, t.Surrounding p) (trail : Trail)
    (names : List String) (hup : ∀ u ∈ trail.above, p u = true) :
    Surrounded p (levelsOfFields trail names ts) := by
  induction ts generalizing names with
  | nil => cases names <;> exact fun x hx => nomatch hx
  | cons t ts ih =>
    cases names with
    | nil => exact fun x hx => nomatch hx
    | cons f names =>
      have hrest := ih (fun u hu => h u (List.mem_cons_of_mem _ hu)) names
      have ht := h t List.mem_cons_self
      cases t with
      | list items => exact (ht.items items rfl (trail.field f) 0 hup).merge hrest
      | atom a => exact (ht.node (trail.field f) hup).merge hrest
      | node k s fields => exact (ht.node (trail.field f) hup).merge hrest

theorem surrounding_of_every : ∀ t : Tree, t.every p = true → t.Surrounding p := by
  intro t
  induction t using Tree.induct with
  | atom a => exact fun _ => ⟨fun _ _ _ hx => (by cases hx), fun _ h => (by cases h)⟩
  | list items ih =>
    intro ht
    rw [every, everyOfAll_iff] at ht
    refine ⟨fun _ _ _ hx => (by cases hx), fun _ h trail i hup => ?_⟩
    cases h
    exact surrounded_items (fun t h => ih t h (ht t h)) trail i hup
  | node k s fields ih =>
    intro ht
    rw [every, Bool.and_eq_true, everyOfAll_iff] at ht
    refine ⟨fun trail hup => ?_, fun _ h => by cases h⟩
    have hin : ∀ u ∈ (trail.inside (.node k s fields)).above, p u = true := by
      intro u hu
      rcases List.mem_cons.mp hu with rfl | hu
      · exact ht.1
      · exact hup u hu
    intro x hx
    rw [levels, List.flatten_cons, List.singleton_append, List.mem_cons] at hx
    rcases hx with rfl | hx
    · exact hup
    · exact surrounded_fields (fun t h => ih t h (ht.2 t h)) _ k.fields hin x hx

theorem above_of_mem_sites {t : Tree} (ht : t.every p = true) {x : Site} (hx : x ∈ t.sites) :
    ∀ u ∈ x.above, p u = true :=
  (surrounding_of_every t ht).node .start (fun _ h => by cases h) x hx

end Tree

end ScopeLint
