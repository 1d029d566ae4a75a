import ScopeLint.Proofs.Scope.Reading
import ScopeLint.Proofs.Tree.Source

/-! Where a visit of a source text comes to null. Two constructs make it do so: a handler without a
type, and a function or a lambda with a keyword-only parameter that has no default. They do wherever
a visit comes, and nothing else makes a visit go wrong. -/

namespace ScopeLint

namespace Tree

def isNull : Tree → Bool
  | .atom .null => true
  | _ => false

/-- A list with null among its items. -/
def holdsNull : Tree → Bool
  | .list items => items.any isNull
  | _ => false

/-- Parameters of which one that is keyword-only has no default. -/
def lacksDefault (t : Tree) : Bool := (t.get? "kw_defaults").any holdsNull

/-- A handler without a type, or a function or a lambda whose parameters lack a default. -/
def isRefused (t : Tree) : Bool :=
  t.isKind .exceptHandler && (t.get? "type").any isNull ||
    t.isFunction && (t.get? "args").any lacksDefault

end Tree

/-- Whether a node is refused, where a visit comes. -/
def Place.isRefused (x : Place) : Bool := isReached x.edges && x.tree.isRefused

/-- Whether one of some nodes is refused. -/
def Refuses (ps : List Place) : Prop := ∃ x ∈ ps, x.isRefused = true

section Refuses

variable {ps qs : List Place}

@[simp] theorem not_refuses_nil : ¬Refuses [] := fun ⟨_, hx, _⟩ => nomatch hx

@[simp] theorem refuses_append : Refuses (ps ++ qs) ↔ Refuses ps ∨ Refuses qs := by
  simp only [Refuses, List.mem_append, or_and_right, exists_or]

theorem refuses_cons {x : Place} : Refuses (x :: ps) ↔ x.isRefused = true ∨ Refuses ps := by
  simp only [Refuses, List.mem_cons, or_and_right, exists_or, exists_eq_left]

end Refuses

/-! ### Events that raise -/

/-- The visit of null. -/
def nullMet : Event := Tree.null.notVisitable

/-- The only fault that the events can have is the visit of null, and they have it under a
condition. -/
structure Raises (es : List Event) (p : Prop) : Prop where
  events : ∀ e ∈ es, e.isSound = true ∨ e = nullMet
  iff : nullMet ∈ es ↔ p

namespace Raises

variable {es a b : List Event} {p q : Prop}

theorem append (ha : Raises a p) (hb : Raises b q) : Raises (a ++ b) (p ∨ q) := by
  refine ⟨List.forall_mem_append.mpr ⟨ha.events, hb.events⟩, ?_⟩
  rw [List.mem_append, ha.iff, hb.iff]

theorem congr (h : Raises es p) (hpq : p ↔ q) : Raises es q := ⟨h.events, h.iff.trans hpq⟩

theorem clean (h : Clean es) : Raises es False := by
  refine ⟨fun e he => Or.inl (h e he), iff_false_intro fun hmem => ?_⟩
  exact Bool.false_ne_true (h nullMet hmem)

theorem nil : Raises [] False := clean fun _ he => nomatch he

theorem sound {e : Event} (he : e.isSound = true) : Raises [e] False :=
  clean (List.forall_mem_singleton.mpr he)

theorem cons {e : Event} (he : e.isSound = true) (h : Raises es p) : Raises (e :: es) p :=
  ((sound he).append h).congr (or_iff_right id)

theorem null : Raises [nullMet] True := by
  refine ⟨List.forall_mem_singleton.mpr (Or.inr rfl), ?_⟩
  rw [List.mem_singleton, eq_self]

end Raises

namespace Tree

/-! ### The ways to visit a tree -/

/-- A place right below a node that has a place of its own in the source. -/
def Located (above : List Tree) : Prop :=
  ∃ up rest, above = up :: rest ∧ up.kind?.any Kind.located = true ∧ up.isPlaced = true

/-- In each of the ways in which a tree is visited, the visit raises where a node is refused. A list
is visited item by item, which raises also for null. Parameters are visited twice. -/
structure Answers (t : Tree) : Prop where
  events : t.isNode = true → t.isUsual = true → ∀ trail, Reached trail.edges →
    Raises (t.events trail) (Refuses (t.places trail.path trail.edges))
  all : ∀ items, t = .list items → (∀ u ∈ items, u.isUsual = true ∧ (u.isNode = true ∨ u = .null)) →
    ∀ trail, Reached trail.edges → Raises (t.allEvents trail)
      (t.holdsNull = true ∨ Refuses (placesIn trail.path trail.edges t))
  field : (∀ u ∈ t.heads, u.isUsual = true) → ∀ trail, Reached trail.edges →
    Raises (t.fieldEvent trail) (Refuses (placesIn trail.path trail.edges t))
  params : t.isKind .parameters = true → ∀ trail, Reached trail.edges → Located trail.above →
    ∃ p q, (Refuses (t.places trail.path trail.edges) ↔ p ∨ q) ∧ Raises (t.events trail) p ∧
      if isReached (⟨.parameters, trail.path, "defaults"⟩ :: trail.edges) = true then
        Raises (t.defaultEvents trail) (t.lacksDefault = true ∨ q)
      else ¬q

theorem itemEvents_answer {ts : List Tree} (h : ∀ t ∈ ts, t.Answers)
    (hu : ∀ t ∈ ts, t.isUsual = true ∧ (t.isNode = true ∨ t = .null)) {trail : Trail}
    (hr : Reached trail.edges) : ∀ i, Raises (itemEvents trail i ts)
      (ts.any isNull = true ∨ Refuses (placesOfItems trail.path trail.edges i ts)) := by
  induction ts with
  | nil => exact fun i => Raises.nil.congr (by simp [placesOfItems])
  | cons t ts ih =>
    intro i
    have hrest := ih (fun u hu => h u (List.mem_cons_of_mem _ hu))
      (fun u hu' => hu u (List.mem_cons_of_mem _ hu')) (i + 1)
    obtain ⟨husual, hnode | rfl⟩ := hu t List.mem_cons_self
    · have ht := (h t List.mem_cons_self).events hnode husual (trail.item i)
      rw [Trail.edges_item, Trail.path_item] at ht
      have hnull : t.isNull = false := by
        cases t with
        | node k s fields => rfl
        | atom a => cases hnode
        | list items => cases hnode
      refine ((ht hr).append hrest).congr ?_
      rw [placesOfItems, refuses_append, List.any_cons, hnull, Bool.false_or]
      tauto
    · refine (Raises.null.append hrest).congr (iff_of_true (Or.inl trivial) (Or.inl ?_))
      rfl

theorem nodeEvents_answer {ts : List Tree} (h : ∀ t ∈ ts, t.Answers)
    (hu : ∀ t ∈ ts, t.isUsual = true) {trail : Trail} (hr : Reached trail.edges) :
    ∀ i, Raises (nodeEvents trail i ts) (Refuses (placesOfItems trail.path trail.edges i ts)) := by
  induction ts with
  | nil => exact fun i => Raises.nil.congr (by simp [placesOfItems])
  | cons t ts ih =>
    intro i
    have hrest := ih (fun u hu => h u (List.mem_cons_of_mem _ hu))
      (fun u hu' => hu u (List.mem_cons_of_mem _ hu')) (i + 1)
    rw [nodeEvents, placesOfItems]
    refine (Raises.append ?_ hrest).congr refuses_append.symm
    cases t with
    | atom a => exact Raises.nil.congr (by simp [places])
    | list items => exact Raises.nil.congr (by simp [places])
    | node k s fields =>
      have ht := (h _ List.mem_cons_self).events rfl (hu _ List.mem_cons_self) (trail.item i)
      rw [Trail.edges_item, Trail.path_item] at ht
      exact ht hr

/-- What is refused in a field of a node that stands at a place. -/
def RefusedIn (trail : Trail) (k : Kind) (f : String) (t : Tree) : Prop :=
  Refuses (placesIn (trail.path ++ [.field f]) (⟨k, trail.path, f⟩ :: trail.edges) t)

theorem refuses_fields_cons (trail : Trail) (k : Kind) (f : String) (names : List String) (t : Tree)
    (ts : List Tree) : Refuses (placesOfFields k trail.path trail.edges (f :: names) (t :: ts)) ↔
      RefusedIn trail k f t ∨ Refuses (placesOfFields k trail.path trail.edges names ts) := by
  rw [placesOfFields_cons, refuses_append, RefusedIn]

theorem not_refuses_fields_nil (trail : Trail) (k : Kind) :
    ¬Refuses (placesOfFields k trail.path trail.edges [] []) := not_refuses_nil

theorem not_refusedIn_flat {slot : Slot} {t : Tree} (ht : slot.fits t = true)
    (hs : slot.isFlat = true) (trail : Trail) (k : Kind) (f : String) : ¬RefusedIn trail k f t := by
  rw [RefusedIn, placesIn_of_flat ht hs]
  exact not_refuses_nil

theorem not_refusedIn_of_not_reached {trail : Trail} {k : Kind} {f : String}
    (h : isReached (⟨k, trail.path, f⟩ :: trail.edges) = false) (t : Tree) :
    ¬RefusedIn trail k f t := by
  rintro ⟨x, hx, hrefused⟩
  rw [Place.isRefused, Bool.and_eq_true] at hrefused
  rw [isReached_of_suffix (t.places_under.placesIn _ _ x hx) hrefused.1] at h
  cases h

theorem not_refusedIn_skipped (trail : Trail) (k : Kind) (f : String)
    (h : Edge.isSkipped ⟨k, trail.path, f⟩ trail.edges.head? = true) (t : Tree) :
    ¬RefusedIn trail k f t := by
  refine not_refusedIn_of_not_reached ?_ t
  rw [isReached, h]
  rfl

/-- The kinds of nodes that can be refused. -/
def isRefusable (k : Kind) : Bool := [Kind.exceptHandler, .functionDef, .lambda].contains k

theorem isRefused_eq_false {k : Kind} (hk : isRefusable k = false) (s : Span) (fields : List Tree) :
    (Tree.node k s fields).isRefused = false := by
  simp only [isRefusable, List.contains_eq_mem, List.mem_cons, List.not_mem_nil, or_false,
    decide_eq_false_iff_not, not_or] at hk
  simp [isRefused, isKind, isFunction, isOneOf, kind?, hk]

/-- A node that is not refused itself. -/
theorem refuses_passed {k : Kind} (hk : isRefusable k = false) (path : List Step) (edges : List Edge)
    (s : Span) (fields : List Tree) : Refuses (places path edges (.node k s fields)) ↔
      Refuses (placesOfFields k path edges k.fields fields) := by
  rw [places, refuses_cons, Place.isRefused, isRefused_eq_false hk, Bool.and_false]
  exact or_iff_right Bool.false_ne_true

/-- A node that may be refused itself, where a visit comes. -/
theorem refuses_node {k : Kind} {trail : Trail} (hr : Reached trail.edges) (s : Span)
    (fields : List Tree) : Refuses (places trail.path trail.edges (.node k s fields)) ↔
      (Tree.node k s fields).isRefused = true ∨
        Refuses (placesOfFields k trail.path trail.edges k.fields fields) := by
  rw [places, refuses_cons, Place.isRefused, hr.2, Bool.true_and]

theorem refusable_of_leaf {k : Kind} (h : isLeafKind k = true) : isRefusable k = false := by
  cases k <;> first | rfl | cases h

theorem not_refuses_leaf {t : Tree} (hg : t.every inGrammar = true)
    (h : ∀ k, t.kind? = some k → isLeafKind k = true) (path : List Step) (edges : List Edge) :
    ¬Refuses (places path edges t) := by
  cases t with
  | atom a => exact not_refuses_nil
  | list items => exact not_refuses_nil
  | node k s fields =>
    have hk := h k rfl
    rw [refuses_passed (refusable_of_leaf hk)]
    rw [isLeafKind, Bool.and_eq_true] at hk
    rw [every, Bool.and_eq_true] at hg
    rw [placesOfFields_of_flat k.fields hk.1 hg.1]
    exact not_refuses_nil

theorem not_refuses_leaves {ts : List Tree} (hg : ∀ t ∈ ts, t.every inGrammar = true)
    (h : ∀ t ∈ ts, ∀ k, t.kind? = some k → isLeafKind k = true) (path : List Step)
    (edges : List Edge) : ∀ i, ¬Refuses (placesOfItems path edges i ts) := by
  induction ts with
  | nil => exact fun i => not_refuses_nil
  | cons t ts ih =>
    intro i
    rw [placesOfItems, refuses_append, not_or]
    refine ⟨not_refuses_leaf (hg t List.mem_cons_self) (h t List.mem_cons_self) _ _, ?_⟩
    exact ih (fun u hu => hg u (List.mem_cons_of_mem _ hu))
      (fun u hu => h u (List.mem_cons_of_mem _ hu)) (i + 1)

/-- A field where only nodes can stand that have no nodes below them. -/
theorem not_refusedIn_leaves {slot : Slot} {t : Tree} (ht : slot.fits t = true)
    (hs : ∀ k, slot.admits k = true → isLeafKind k = true) (hg : t.every inGrammar = true)
    (trail : Trail) (k : Kind) (f : String) : ¬RefusedIn trail k f t := by
  have hheads := fun u hu k hk => hs k (heads_admitted ht u hu k hk)
  cases t with
  | atom a => exact not_refuses_nil
  | node k' s' fields' => exact not_refuses_leaf hg (hheads _ List.mem_cons_self) _ _
  | list items =>
    rw [every, everyOfAll_iff] at hg
    exact not_refuses_leaves hg hheads _ _ 0

/-! ### Fields -/

theorem isNode_of_kind? {t : Tree} {p : Kind → Bool} (h : t.kind?.any p = true) : t.isNode = true := by
  cases t with
  | node k s fields => rfl
  | atom a => cases h
  | list items => cases h

theorem items_of_many {c : Category} {t : Tree} (h : (Slot.many c).fits t = true) :
    ∃ items, t = .list items ∧ ∀ u ∈ items, u.isNode = true := by
  obtain ⟨items, rfl⟩ := eq_list_of_many h
  exact ⟨items, rfl, fun u hu => isNode_of_kind? (List.all_eq_true.mp h u hu)⟩

theorem items_of_manyOrNull {c : Category} {t : Tree} (h : (Slot.manyOrNull c).fits t = true) :
    ∃ items, t = .list items ∧ ∀ u ∈ items, u.isNode = true ∨ u = .null := by
  cases t with
  | atom a => cases h
  | node k s fields => cases h
  | list items =>
    refine ⟨items, rfl, fun u hu => ?_⟩
    have hu := List.all_eq_true.mp h u hu
    split at hu
    · exact Or.inr rfl
    · exact Or.inl (isNode_of_kind? hu)

theorem holdsNull_of_nodes {items : List Tree} (h : ∀ u ∈ items, u.isNode = true) :
    (Tree.list items).holdsNull = false := by
  refine List.any_eq_false.mpr fun u hu hnull => ?_
  have hnode := h u hu
  cases u with
  | node k s fields => cases hnull
  | atom a => cases hnode
  | list items => cases hnode

section Fields

variable {t : Tree} {c : Category} (trail : Trail) (k : Kind) (s : Span) (fields : List Tree)
  (f : String)

/-- The items in a field of a node, of which some may be missing. -/
theorem Answers.manyOrNullIn (h : t.Answers) (ht : (Slot.manyOrNull c).fits t = true)
    (hc : c.admits .parameters = false ∧ c.admits .module = false)
    (hr : Reached (⟨k, trail.path, f⟩ :: trail.edges)) :
    Raises (t.allEvents ((trail.inside (.node k s fields)).field f))
      (t.holdsNull = true ∨ RefusedIn trail k f t) := by
  have husual := usual_of_fits ht hc
  obtain ⟨items, rfl, hitems⟩ := items_of_manyOrNull ht
  have hall := h.all items rfl (fun u hu => ⟨husual u hu, hitems u hu⟩)
    ((trail.inside (.node k s fields)).field f)
  rw [Trail.edges_field, Trail.path_field] at hall
  exact hall hr

/-- The items in a field of a node. -/
theorem Answers.manyIn (h : t.Answers) (ht : (Slot.many c).fits t = true)
    (hc : c.admits .parameters = false ∧ c.admits .module = false)
    (hr : Reached (⟨k, trail.path, f⟩ :: trail.edges)) :
    Raises (t.allEvents ((trail.inside (.node k s fields)).field f)) (RefusedIn trail k f t) := by
  have husual := usual_of_fits ht hc
  obtain ⟨items, rfl, hitems⟩ := items_of_many ht
  have hall := h.all items rfl (fun u hu => ⟨husual u hu, Or.inl (hitems u hu)⟩)
    ((trail.inside (.node k s fields)).field f)
  rw [Trail.edges_field, Trail.path_field, holdsNull_of_nodes hitems] at hall
  exact (hall hr).congr (or_iff_right Bool.false_ne_true)

/-- The node in a field of a node. -/
theorem Answers.oneIn (h : t.Answers) (ht : (Slot.one c).fits t = true)
    (hc : c.admits .parameters = false ∧ c.admits .module = false)
    (hr : Reached (⟨k, trail.path, f⟩ :: trail.edges)) :
    Raises (t.events ((trail.inside (.node k s fields)).field f)) (RefusedIn trail k f t) := by
  have husual := isUsual_of_heads (usual_of_fits ht hc)
  have hnode := isNode_of_kind? (show t.kind?.any c.admits = true from ht)
  have hevents := h.events hnode husual ((trail.inside (.node k s fields)).field f)
  rw [Trail.edges_field, Trail.path_field] at hevents
  cases t with
  | node k' s' fields' => exact hevents hr
  | atom a => cases hnode
  | list items => cases hnode

/-- What stands in a field of a node that is visited without a rule of its own. -/
theorem Answers.fieldIn (h : t.Answers) (hu : ∀ u ∈ t.heads, u.isUsual = true)
    (hr : Reached (⟨k, trail.path, f⟩ :: trail.edges)) :
    Raises (t.fieldEvent ((trail.inside (.node k s fields)).field f)) (RefusedIn trail k f t) := by
  have hfield := h.field hu ((trail.inside (.node k s fields)).field f)
  rw [Trail.edges_field, Trail.path_field] at hfield
  exact hfield hr

end Fields

/-- The fields of a node, when each of them is visited as it should be. -/
theorem fieldEvents_answer {k : Kind} {s : Span} {fields : List Tree} {trail : Trail} :
    ∀ {ts : List Tree} {names : List String},
    (∀ f t, (f, t) ∈ names.zip ts →
      Raises (t.fieldEvent ((trail.inside (.node k s fields)).field f)) (RefusedIn trail k f t)) →
    Raises (fieldEvents (trail.inside (.node k s fields)) names ts)
      (Refuses (placesOfFields k trail.path trail.edges names ts)) := by
  intro ts
  induction ts with
  | nil =>
    intro names _
    cases names <;> exact Raises.nil.congr (by simp [placesOfFields])
  | cons t ts ih =>
    intro names h
    cases names with
    | nil => exact Raises.nil.congr (by simp [placesOfFields])
    | cons f names =>
      rw [fieldEvents_cons, refuses_fields_cons]
      refine (h f t List.mem_cons_self).append (ih fun g u hgu => ?_)
      exact h g u (List.mem_cons_of_mem _ hgu)

theorem Answers.of_atom (a : Atom) : (Tree.atom a).Answers where
  events h := nomatch h
  all _ h := nomatch h
  field _ _ _ := Raises.nil.congr (by simp [placesIn, places])
  params h := by cases h

theorem Answers.of_list {items : List Tree} (h : ∀ t ∈ items, t.Answers) :
    (Tree.list items).Answers where
  events h := nomatch h
  all _ heq hu trail hr := by
    cases heq
    exact itemEvents_answer h hu hr 0
  field hu _ hr := nodeEvents_answer h hu hr 0
  params h := by cases h

/-! ### Node by node -/

section Nodes

variable {s : Span} {fields : List Tree} {trail : Trail}

/-- The parameters of a function and their defaults. -/
theorem Answers.paramsOf {s' : Span} {fields' : List Tree}
    (h : (Tree.node .parameters s' fields').Answers) {k : Kind} (hr : Reached trail.edges)
    (hfn : k = .functionDef ∨ k = .lambda) (hplace : (Tree.node k s fields).isPlaced = true) :
    let args : Tree := .node .parameters s' fields'
    let inside := (trail.inside (.node k s fields)).field "args"
    ∃ p q, (RefusedIn trail k "args" args ↔ p ∨ q) ∧ Raises (args.events inside) p ∧
      Raises (args.defaultEvents inside) (args.lacksDefault = true ∨ q) := by
  intro args inside
  have hskip : Edge.isSkipped ⟨k, trail.path, "args"⟩ trail.edges.head? = false := by
    rcases hfn with rfl | rfl <;> rfl
  have hlocated : Located inside.above :=
    ⟨_, _, rfl, by rcases hfn with rfl | rfl <;> rfl, hplace⟩
  have hdefaults : isReached (⟨.parameters, inside.path, "defaults"⟩ ::
      ⟨k, trail.path, "args"⟩ :: trail.edges) = true :=
    ((hr.into hskip).into (by rcases hfn with rfl | rfl <;> rfl)).2
  have hparams := h.params rfl inside
  rw [Trail.edges_field, hdefaults] at hparams
  obtain ⟨p, q, hsum, hps, hds⟩ := hparams (hr.into hskip) hlocated
  exact ⟨p, q, hsum, hps, hds⟩

theorem answers_function (hg : Slot.fitAll Kind.functionDef.slots fields = true)
    (hplace : (Tree.node .functionDef s fields).isPlaced = true) (h : ∀ t ∈ fields, t.Answers)
    (hr : Reached trail.edges) : Raises (events trail (.node .functionDef s fields))
      (Refuses (places trail.path trail.edges (.node .functionDef s fields))) := by
  obtain ⟨name, _, rfl, hname, hg⟩ := Slot.fitAll_cons hg
  obtain ⟨args, _, rfl, hargs, hg⟩ := Slot.fitAll_cons hg
  obtain ⟨body, _, rfl, hbody, hg⟩ := Slot.fitAll_cons hg
  obtain ⟨decorators, _, rfl, hdecorators, hg⟩ := Slot.fitAll_cons hg
  obtain ⟨returns, _, rfl, -, hg⟩ := Slot.fitAll_cons hg
  obtain ⟨comment, _, rfl, hcomment, hg⟩ := Slot.fitAll_cons hg
  obtain rfl := Slot.eq_nil_of_fitAll hg
  obtain ⟨n, rfl⟩ := eq_text hname
  obtain ⟨s', fields', rfl⟩ := eq_node_of_fits hargs
  obtain ⟨p, q, hsum, hps, hds⟩ :=
    (h (.node .parameters s' fields') (by simp)).paramsOf hr (.inl rfl) hplace
  have hdec (fs : List Tree) := (h decorators (by simp)).manyIn trail .functionDef s fs
    "decorator_list" hdecorators (by decide) (hr.into rfl)
  have hbod (fs : List Tree) := (h body (by simp)).manyIn trail .functionDef s fs "body" hbody
    (by decide) (hr.into rfl)
  have hself : ∀ ts, (Tree.node .functionDef s (.atom (.str n) :: .node .parameters s' fields' ::
      ts)).isRefused = (Tree.node .parameters s' fields').lacksDefault := fun _ => rfl
  refine Raises.congr (((((((hdec _).cons rfl).append hds).append (hps.cons rfl)).append
    (hbod _)).append (.sound rfl))) ?_
  have hfields : Kind.functionDef.fields =
      ["name", "args", "body", "decorator_list", "returns", "type_comment"] := rfl
  simp only [refuses_node hr, hself, hfields, refuses_fields_cons, not_refuses_fields_nil, hsum,
    not_refusedIn_flat hname rfl, not_refusedIn_flat hcomment rfl,
    not_refusedIn_skipped trail .functionDef "returns" rfl]
  simp only [false_or, or_false, or_assoc, or_comm, or_left_comm]

theorem answers_class (hg : Slot.fitAll Kind.classDef.slots fields = true)
    (h : ∀ t ∈ fields, t.Answers) (hr : Reached trail.edges) :
    Raises (events trail (.node .classDef s fields))
      (Refuses (places trail.path trail.edges (.node .classDef s fields))) := by
  obtain ⟨name, _, rfl, hname, hg⟩ := Slot.fitAll_cons hg
  obtain ⟨bases, _, rfl, hbases, hg⟩ := Slot.fitAll_cons hg
  obtain ⟨keywords, _, rfl, -, hg⟩ := Slot.fitAll_cons hg
  obtain ⟨body, _, rfl, hbody, hg⟩ := Slot.fitAll_cons hg
  obtain ⟨decorators, _, rfl, hdecorators, hg⟩ := Slot.fitAll_cons hg
  obtain rfl := Slot.eq_nil_of_fitAll hg
  obtain ⟨n, rfl⟩ := eq_text hname
  have hdec (fs : List Tree) := (h decorators (by simp)).manyIn trail .classDef s fs
    "decorator_list" hdecorators (by decide) (hr.into rfl)
  have hbase (fs : List Tree) := (h bases (by simp)).manyIn trail .classDef s fs "bases" hbases
    (by decide) (hr.into rfl)
  have hbod (fs : List Tree) := (h body (by simp)).manyIn trail .classDef s fs "body" hbody
    (by decide) (hr.into rfl)
  refine Raises.congr (((((hdec _).cons rfl).append (hbase _)).append ((hbod _).cons rfl)).append
    (.sound rfl)) ?_
  have hfields : Kind.classDef.fields = ["name", "bases", "keywords", "body", "decorator_list"] := rfl
  rw [refuses_passed rfl]
  simp only [hfields, refuses_fields_cons, not_refuses_fields_nil, not_refusedIn_flat hname rfl,
    not_refusedIn_skipped trail .classDef "keywords" rfl]
  simp only [false_or, or_comm, or_left_comm]

theorem answers_lambda (hg : Slot.fitAll Kind.lambda.slots fields = true)
    (hplace : (Tree.node .lambda s fields).isPlaced = true) (h : ∀ t ∈ fields, t.Answers)
    (hr : Reached trail.edges) : Raises (events trail (.node .lambda s fields))
      (Refuses (places trail.path trail.edges (.node .lambda s fields))) := by
  obtain ⟨args, _, rfl, hargs, hg⟩ := Slot.fitAll_cons hg
  obtain ⟨body, _, rfl, hbody, hg⟩ := Slot.fitAll_cons hg
  obtain rfl := Slot.eq_nil_of_fitAll hg
  obtain ⟨s', fields', rfl⟩ := eq_node_of_fits hargs
  obtain ⟨p, q, hsum, hps, hds⟩ :=
    (h (.node .parameters s' fields') (by simp)).paramsOf hr (.inr rfl) hplace
  have hbod (fs : List Tree) := (h body (by simp)).oneIn trail .lambda s fs "body" hbody
    (by decide) (hr.into rfl)
  have hself : ∀ ts, (Tree.node .lambda s (.node .parameters s' fields' :: ts)).isRefused =
      (Tree.node .parameters s' fields').lacksDefault := fun _ => rfl
  refine Raises.congr (((hds.append (hps.cons rfl)).append (hbod _)).append (.sound rfl)) ?_
  have hfields : Kind.lambda.fields = ["args", "body"] := rfl
  simp only [refuses_node hr, hself, hfields, refuses_fields_cons, not_refuses_fields_nil, hsum]
  simp only [false_or, or_assoc, or_comm, or_left_comm]

theorem answers_parameter (hg : Slot.fitAll Kind.parameter.slots fields = true) :
    Raises (events trail (.node .parameter s fields))
      (Refuses (places trail.path trail.edges (.node .parameter s fields))) := by
  obtain ⟨name, _, rfl, hname, hg⟩ := Slot.fitAll_cons hg
  obtain ⟨note, _, rfl, -, hg⟩ := Slot.fitAll_cons hg
  obtain ⟨comment, _, rfl, hcomment, hg⟩ := Slot.fitAll_cons hg
  obtain rfl := Slot.eq_nil_of_fitAll hg
  obtain ⟨n, rfl⟩ := eq_text hname
  refine Raises.congr (.sound rfl) ?_
  have hfields : Kind.parameter.fields = ["arg", "annotation", "type_comment"] := rfl
  rw [refuses_passed rfl]
  simp only [hfields, refuses_fields_cons, not_refuses_fields_nil, not_refusedIn_flat hname rfl,
    not_refusedIn_flat hcomment rfl, not_refusedIn_skipped trail .parameter "annotation" rfl, or_false]

theorem answers_name (hg : Slot.fitAll Kind.name.slots fields = true)
    (hin : ∀ t ∈ fields, t.every inGrammar = true) :
    Raises (events trail (.node .name s fields))
      (Refuses (places trail.path trail.edges (.node .name s fields))) := by
  obtain ⟨id, _, rfl, hid, hg⟩ := Slot.fitAll_cons hg
  obtain ⟨ctx, _, rfl, hctx, hg⟩ := Slot.fitAll_cons hg
  obtain rfl := Slot.eq_nil_of_fitAll hg
  obtain ⟨n, rfl⟩ := eq_text hid
  refine Raises.congr (.sound rfl) ?_
  have hfields : Kind.name.fields = ["id", "ctx"] := rfl
  rw [refuses_passed rfl]
  simp only [hfields, refuses_fields_cons, not_refuses_fields_nil, not_refusedIn_flat hid rfl,
    not_refusedIn_leaves hctx isLeafKind_of_context (hin ctx (by simp)), or_false]

theorem answers_global (hg : Slot.fitAll Kind.globalStmt.slots fields = true) :
    Raises (events trail (.node .globalStmt s fields))
      (Refuses (places trail.path trail.edges (.node .globalStmt s fields))) := by
  obtain ⟨names, _, rfl, hnames, hg⟩ := Slot.fitAll_cons hg
  obtain rfl := Slot.eq_nil_of_fitAll hg
  have hfields : Kind.globalStmt.fields = ["names"] := rfl
  rw [refuses_passed rfl]
  simp only [hfields, refuses_fields_cons, not_refuses_fields_nil, not_refusedIn_flat hnames rfl,
    or_false]
  cases names with
  | list items => exact .sound rfl
  | atom a => cases hnames
  | node k s' fields' => cases hnames

theorem answers_assign (hg : Slot.fitAll Kind.assign.slots fields = true)
    (h : ∀ t ∈ fields, t.Answers) (hr : Reached trail.edges) :
    Raises (events trail (.node .assign s fields))
      (Refuses (places trail.path trail.edges (.node .assign s fields))) := by
  obtain ⟨targets, _, rfl, htargets, hg⟩ := Slot.fitAll_cons hg
  obtain ⟨value, _, rfl, hvalue, hg⟩ := Slot.fitAll_cons hg
  obtain ⟨comment, _, rfl, hcomment, hg⟩ := Slot.fitAll_cons hg
  obtain rfl := Slot.eq_nil_of_fitAll hg
  have hval (fs : List Tree) := (h value (by simp)).oneIn trail .assign s fs "value" hvalue
    (by decide) (hr.into rfl)
  have htar (fs : List Tree) := (h targets (by simp)).manyIn trail .assign s fs "targets" htargets
    (by decide) (hr.into rfl)
  refine Raises.congr ((hval _).append (htar _)) ?_
  have hfields : Kind.assign.fields = ["targets", "value", "type_comment"] := rfl
  rw [refuses_passed rfl]
  simp only [hfields, refuses_fields_cons, not_refuses_fields_nil, not_refusedIn_flat hcomment rfl]
  simp only [false_or, or_false, or_comm]

/-- The type of a handler is visited whether there is one or not. -/
theorem answers_handler (hg : Slot.fitAll Kind.exceptHandler.slots fields = true)
    (h : ∀ t ∈ fields, t.Answers) (hr : Reached trail.edges) :
    Raises (events trail (.node .exceptHandler s fields))
      (Refuses (places trail.path trail.edges (.node .exceptHandler s fields))) := by
  obtain ⟨type, _, rfl, htype, hg⟩ := Slot.fitAll_cons hg
  obtain ⟨name, _, rfl, hname, hg⟩ := Slot.fitAll_cons hg
  obtain ⟨body, _, rfl, hbody, hg⟩ := Slot.fitAll_cons hg
  obtain rfl := Slot.eq_nil_of_fitAll hg
  have htyp (fs : List Tree) : Raises
      (type.events ((trail.inside (.node .exceptHandler s fs)).field "type"))
      (type.isNull = true ∨ RefusedIn trail .exceptHandler "type" type) := by
    cases type with
    | atom a =>
      cases a with
      | null => exact Raises.null.congr (iff_of_true trivial (Or.inl rfl))
      | _ => cases htype
    | list items => cases htype
    | node k s' fields' =>
      refine ((h _ List.mem_cons_self).oneIn trail .exceptHandler s fs "type" (c := .expr) htype
        (by decide) (hr.into rfl)).congr (or_iff_right ?_).symm
      exact Bool.false_ne_true
  have hbod (fs : List Tree) := (h body (by simp)).manyIn trail .exceptHandler s fs "body" hbody
    (by decide) (hr.into rfl)
  have hnam (x : Site) (visited : List Event) : Raises (handlerNameEvents x name visited) False := by
    rcases eq_optionalText hname with ⟨n, rfl⟩ | rfl
    · exact .sound rfl
    · exact .nil
  have hself : (Tree.node .exceptHandler s [type, name, body]).isRefused = type.isNull :=
    Bool.or_false _
  refine Raises.congr (((htyp _).append (hnam _ _)).append (hbod _)) ?_
  have hfields : Kind.exceptHandler.fields = ["type", "name", "body"] := rfl
  simp only [refuses_node hr, hself, hfields, refuses_fields_cons, not_refuses_fields_nil,
    not_refusedIn_flat hname rfl]
  simp only [false_or, or_assoc, or_comm]

/-! Import statements bind texts only. -/

theorem isSound_importedEvent {fromModule : Bool} {item : Tree} (h : item.isItem fromModule = true)
    (x : Site) : (importedEvent x item).isSound = true := by
  obtain ⟨-, bound, -, hbound, -⟩ := item_ok h
  have hhead : (Text.dottedParts bound).head?.isSome = true := by
    rw [List.isSome_head?, Text.dottedParts, ne_eq, List.map_eq_nil_iff]
    exact List.splitOn_ne_nil _ _
  obtain ⟨n, hn⟩ := Option.isSome_iff_exists.mp hhead
  unfold importedEvent
  rw [hbound]
  split
  next heq => cases heq
  next => rfl
  next name _ heq =>
    cases heq
    rw [hn]
    rfl
  next heq => cases heq
  next _ hother _ heq =>
    cases heq
    exact absurd rfl (hother bound)

theorem clean_importEvents {fromModule : Bool} {items : List Tree}
    (h : ∀ item ∈ items, item.isItem fromModule = true) (x : Site) :
    Clean (importEvents x (.list items)) := by
  refine List.forall_mem_cons.mpr ⟨rfl, fun e he => ?_⟩
  obtain ⟨item, hitem, rfl⟩ := List.mem_map.mp he
  exact isSound_importedEvent (h item hitem) x

theorem clean_future {fromModule : Bool} {items : List Tree}
    (h : ∀ item ∈ items, item.isItem fromModule = true) : Clean (futureEvents (.list items)) := by
  refine List.forall_mem_cons.mpr ⟨rfl, fun e he => ?_⟩
  obtain ⟨item, hitem, rfl⟩ := List.mem_map.mp he
  obtain ⟨name, -, hname, -⟩ := item_ok (h item hitem)
  rw [hname]
  rfl

theorem answers_import (hn : (Tree.node .importStmt s fields).every isSourceNode = true) :
    Raises (events trail (.node .importStmt s fields))
      (Refuses (places trail.path trail.edges (.node .importStmt s fields))) := by
  rw [every, Bool.and_eq_true, everyOfAll_iff] at hn
  obtain ⟨names, _, rfl, hnames, hg⟩ := Slot.fitAll_cons (inGrammar_of_isSourceNode hn.1)
  obtain rfl := Slot.eq_nil_of_fitAll hg
  obtain ⟨items, rfl⟩ := eq_list_of_many hnames
  have hitems : ∀ item ∈ items, item.isItem false = true :=
    List.all_eq_true.mp (hasItems_of_isSourceNode hn.1)
  refine Raises.congr (.clean (clean_importEvents hitems _)) ?_
  have hfields : Kind.importStmt.fields = ["names"] := rfl
  rw [refuses_passed rfl]
  simp only [hfields, refuses_fields_cons, not_refuses_fields_nil, or_false,
    not_refusedIn_leaves hnames isLeafKind_of_alias
      (every_mono (fun _ => inGrammar_of_isSourceNode) (hn.2 _ List.mem_cons_self))]

theorem answers_importFrom (hn : (Tree.node .importFrom s fields).every isSourceNode = true) :
    Raises (events trail (.node .importFrom s fields))
      (Refuses (places trail.path trail.edges (.node .importFrom s fields))) := by
  rw [every, Bool.and_eq_true, everyOfAll_iff] at hn
  obtain ⟨module, _, rfl, hmodule, hg⟩ := Slot.fitAll_cons (inGrammar_of_isSourceNode hn.1)
  obtain ⟨names, _, rfl, hnames, hg⟩ := Slot.fitAll_cons hg
  obtain ⟨level, _, rfl, hlevel, hg⟩ := Slot.fitAll_cons hg
  obtain rfl := Slot.eq_nil_of_fitAll hg
  obtain ⟨items, rfl⟩ := eq_list_of_many hnames
  have hitems : ∀ item ∈ items, item.isItem true = true :=
    List.all_eq_true.mp (hasItems_of_isSourceNode hn.1)
  have hclean (x : Site) : Clean (if module.str? = some "__future__" then
      futureEvents (.list items) else importEvents x (.list items)) := by
    split_ifs
    · exact clean_future hitems
    · exact clean_importEvents hitems x
  refine Raises.congr (.clean (hclean _)) ?_
  have hfields : Kind.importFrom.fields = ["module", "names", "level"] := rfl
  rw [refuses_passed rfl]
  simp only [hfields, refuses_fields_cons, not_refuses_fields_nil, or_false,
    not_refusedIn_flat hmodule rfl, not_refusedIn_flat hlevel rfl,
    not_refusedIn_leaves hnames isLeafKind_of_alias
      (every_mono (fun _ => inGrammar_of_isSourceNode) (hn.2 _ (by simp)))]

/-! Lists of parameters, visited once for the parameters and once for the defaults. -/

/-- A node that has a place gives it to the parameters below it. -/
theorem placedBy_ok {up : Tree} (hk : up.kind?.any Kind.located = true) (h : up.isPlaced = true)
    (k : Kind) (s : Span) (fields : List Tree) :
    ∃ s', placedBy k s fields up = .ok (.node k s' fields) := by
  obtain ⟨m, n, hm, hn⟩ := span_ok hk h
  rw [placedBy, hm, hn]
  exact ⟨_, rfl⟩

/-- A parameter that takes all remaining arguments. -/
theorem Answers.catchAllIn {t : Tree} (h : t.Answers)
    (ht : (Slot.optional (.ofKind .parameter)).fits t = true) (site : Site) (trail : Trail) (s : Span)
    (fields : List Tree) (f : String) (hr : Reached (⟨.parameters, trail.path, f⟩ :: trail.edges)) :
    Raises (catchAllEvents site t (t.events ((trail.inside (.node .parameters s fields)).field f)))
      (RefusedIn trail .parameters f t) := by
  cases t with
  | node k s' fields' =>
    exact h.oneIn trail .parameters s fields f (c := .ofKind .parameter) ht (by decide) hr
  | atom a =>
    cases a with
    | null => exact Raises.nil.congr (iff_of_false id not_refuses_nil)
    | _ => cases ht
  | list items => cases ht

theorem answers_parameters (hg : Slot.fitAll Kind.parameters.slots fields = true)
    (h : ∀ t ∈ fields, t.Answers) (hr : Reached trail.edges) (hup : Located trail.above) :
    ∃ p q, (Refuses (places trail.path trail.edges (.node .parameters s fields)) ↔ p ∨ q) ∧
      Raises (events trail (.node .parameters s fields)) p ∧
      if isReached (⟨.parameters, trail.path, "defaults"⟩ :: trail.edges) = true then
        Raises (defaultEvents trail (.node .parameters s fields))
          ((Tree.node .parameters s fields).lacksDefault = true ∨ q)
      else ¬q := by
  obtain ⟨only, _, rfl, -, hg⟩ := Slot.fitAll_cons hg
  obtain ⟨args, _, rfl, hargs, hg⟩ := Slot.fitAll_cons hg
  obtain ⟨vararg, _, rfl, hvararg, hg⟩ := Slot.fitAll_cons hg
  obtain ⟨kwonly, _, rfl, hkwonly, hg⟩ := Slot.fitAll_cons hg
  obtain ⟨keywords, _, rfl, hkeywords, hg⟩ := Slot.fitAll_cons hg
  obtain ⟨kwarg, _, rfl, hkwarg, hg⟩ := Slot.fitAll_cons hg
  obtain ⟨defaults, _, rfl, hdefaults, hg⟩ := Slot.fitAll_cons hg
  obtain rfl := Slot.eq_nil_of_fitAll hg
  refine ⟨RefusedIn trail .parameters "args" args ∨ (RefusedIn trail .parameters "vararg" vararg ∨
    RefusedIn trail .parameters "kwarg" kwarg) ∨ RefusedIn trail .parameters "kwonlyargs" kwonly,
    RefusedIn trail .parameters "defaults" defaults ∨ RefusedIn trail .parameters "kw_defaults" keywords,
    ?_, ?_, ?_⟩
  · have hfields : Kind.parameters.fields =
        ["posonlyargs", "args", "vararg", "kwonlyargs", "kw_defaults", "kwarg", "defaults"] := rfl
    rw [refuses_passed rfl]
    simp only [hfields, refuses_fields_cons, not_refuses_fields_nil,
      not_refusedIn_skipped trail .parameters "posonlyargs" rfl]
    simp only [false_or, or_assoc, or_comm, or_left_comm]
  · have hall (fs : List Tree) := (h args (by simp)).manyIn trail .parameters s fs "args" hargs
      (by decide) (hr.into rfl)
    refine (hall _).append ?_
    obtain ⟨up, rest, habove, hlocated, hplaced⟩ := hup
    obtain ⟨s', hs'⟩ := placedBy_ok hlocated hplaced .parameters s
      [only, args, vararg, kwonly, keywords, kwarg, defaults]
    have hparent : (Site.parent ⟨trail, .node .parameters s
        [only, args, vararg, kwonly, keywords, kwarg, defaults]⟩).bind (placedBy .parameters s
        [only, args, vararg, kwonly, keywords, kwarg, defaults]) = .ok (.node .parameters s'
        [only, args, vararg, kwonly, keywords, kwarg, defaults]) := by
      rw [Site.parent, habove]
      exact hs'
    rw [hparent]
    have hvar (fs : List Tree) (x : Site) := (h vararg (by simp)).catchAllIn hvararg x trail s' fs
      "vararg" (hr.into rfl)
    have hkw (fs : List Tree) (x : Site) := (h kwarg (by simp)).catchAllIn hkwarg x trail s' fs
      "kwarg" (hr.into rfl)
    have honly (fs : List Tree) := (h kwonly (by simp)).manyIn trail .parameters s' fs "kwonlyargs"
      hkwonly (by decide) (hr.into rfl)
    exact ((hvar _ _).append (hkw _ _)).append (honly _)
  · split_ifs with hreached
    · have hdef (fs : List Tree) := (h defaults (by simp)).manyIn trail .parameters s fs "defaults"
        hdefaults (by decide) ⟨List.cons_ne_nil _ _, hreached⟩
      have hkey (fs : List Tree) := (h keywords (by simp)).manyOrNullIn trail .parameters s fs
        "kw_defaults" hkeywords (by decide) ⟨List.cons_ne_nil _ _, hreached⟩
      have hself : (Tree.node .parameters s
          [only, args, vararg, kwonly, keywords, kwarg, defaults]).lacksDefault =
          keywords.holdsNull := rfl
      rw [hself]
      exact ((hdef _).append (hkey _)).congr or_left_comm
    · rw [Bool.not_eq_true] at hreached
      have hkeyword : isReached (⟨.parameters, trail.path, "kw_defaults"⟩ :: trail.edges) = false :=
        hreached
      exact not_or.mpr ⟨not_refusedIn_of_not_reached hreached _, not_refusedIn_of_not_reached hkeyword _⟩

/-! Nodes that are visited field by field. -/

theorem not_refusable_plain {k : Kind} (hrule : k.visitRule = .plain) : isRefusable k = false := by
  cases k <;> first | rfl | cases hrule

theorem answers_plain {k : Kind} (hrule : k.visitRule = .plain) (hk : k ≠ .asyncFunctionDef)
    (hg : Slot.fitAll k.slots fields = true) (h : ∀ t ∈ fields, t.Answers) (hr : Reached trail.edges) :
    Raises (events trail (.node k s fields))
      (Refuses (places trail.path trail.edges (.node k s fields))) := by
  obtain ⟨hspecial, -, hslots⟩ := plain_kind hrule hk
  rw [events_plain hrule, refuses_passed (not_refusable_plain hrule)]
  refine fieldEvents_answer fun f t hft => ?_
  have ht := (List.of_mem_zip hft).2
  obtain ⟨slot, hslot, hfits⟩ := Slot.fits_of_mem hg t ht
  exact (h t ht).fieldIn trail k s fields f (usual_of_fits hfits (hslots slot hslot))
    (hr.field hspecial _ f)

/-- The defaults of an asynchronous function are not visited, so it may lack one. -/
theorem answers_async (hg : Slot.fitAll Kind.asyncFunctionDef.slots fields = true)
    (hplace : (Tree.node .asyncFunctionDef s fields).isPlaced = true) (h : ∀ t ∈ fields, t.Answers)
    (hr : Reached trail.edges) : Raises (events trail (.node .asyncFunctionDef s fields))
      (Refuses (places trail.path trail.edges (.node .asyncFunctionDef s fields))) := by
  have hslots : ∀ slot ∈ Kind.asyncFunctionDef.slots, slot = .one (.ofKind .parameters) ∨
      slot.admits .parameters = false ∧ slot.admits .module = false := by
    decide
  rw [events_plain rfl, refuses_passed rfl]
  refine fieldEvents_answer fun f t hft => ?_
  have ht := (List.of_mem_zip hft).2
  have hreached : Reached (⟨.asyncFunctionDef, trail.path, f⟩ :: trail.edges) := hr.field rfl _ f
  obtain ⟨slot, hslot, hfits⟩ := Slot.fits_of_mem hg t ht
  rcases hslots slot hslot with rfl | husual
  · obtain ⟨s', fields', rfl⟩ := eq_node_of_fits hfits
    have hparams := (h _ ht).params rfl ((trail.inside (.node .asyncFunctionDef s fields)).field f)
    rw [Trail.edges_field] at hparams
    obtain ⟨p, q, hsum, hps, hds⟩ := hparams hreached ⟨_, _, rfl, rfl, hplace⟩
    have hskip : isReached (⟨.parameters, trail.path ++ [Step.field f], "defaults"⟩ ::
        ⟨.asyncFunctionDef, trail.path, f⟩ :: trail.edges) = false := rfl
    rw [Trail.path_field, hskip] at hds
    exact hps.congr ((or_iff_left hds).symm.trans hsum.symm)
  · exact (h t ht).fieldIn trail .asyncFunctionDef s fields f (usual_of_fits hfits husual) hreached

end Nodes

/-! ### Whole trees -/

theorem events_answer {k : Kind} {s : Span} {fields : List Tree} {trail : Trail}
    (hk : (Tree.node k s fields).isUsual = true)
    (hn : (Tree.node k s fields).every isSourceNode = true) (h : ∀ t ∈ fields, t.Answers)
    (hr : Reached trail.edges) : Raises (events trail (.node k s fields))
      (Refuses (places trail.path trail.edges (.node k s fields))) := by
  have hnode := isSourceNode_of_every hn
  have hg := inGrammar_of_isSourceNode hnode
  have hplace := isPlaced_of_isSourceNode hnode
  have hin : ∀ t ∈ fields, t.every inGrammar = true := by
    rw [every, Bool.and_eq_true, everyOfAll_iff] at hn
    exact fun t ht => every_mono (fun _ => inGrammar_of_isSourceNode) (hn.2 t ht)
  cases k with
  | functionDef => exact answers_function hg hplace h hr
  | classDef => exact answers_class hg h hr
  | lambda => exact answers_lambda hg hplace h hr
  | parameter => exact answers_parameter hg
  | name => exact answers_name hg hin
  | globalStmt => exact answers_global hg
  | assign => exact answers_assign hg h hr
  | exceptHandler => exact answers_handler hg h hr
  | importStmt => exact answers_import hn
  | importFrom => exact answers_importFrom hn
  | asyncFunctionDef => exact answers_async hg hplace h hr
  | module => cases hk
  | parameters => cases hk
  | _ => exact answers_plain rfl (by decide) hg h hr

theorem Answers.of_node {k : Kind} {s : Span} {fields : List Tree}
    (hn : (Tree.node k s fields).every isSourceNode = true) (h : ∀ t ∈ fields, t.Answers) :
    (Tree.node k s fields).Answers where
  events _ hu _ hr := events_answer hu hn h hr
  all _ heq := nomatch heq
  field hu _ hr := events_answer (hu _ List.mem_cons_self) hn h hr
  params hk trail hr hup := by
    obtain rfl : k = .parameters := by simpa [isKind, kind?] using hk
    exact answers_parameters (inGrammar_of_isSourceNode (isSourceNode_of_every hn)) h hr hup

theorem answers : ∀ t : Tree, t.every isSourceNode = true → t.Answers := by
  intro t
  induction t using Tree.induct with
  | atom a => exact fun _ => .of_atom a
  | list items ih =>
    intro hn
    rw [every, everyOfAll_iff] at hn
    exact .of_list fun t ht => ih t ht (hn t ht)
  | node k s fields ih =>
    intro hn
    have hfields := hn
    rw [every, Bool.and_eq_true, everyOfAll_iff] at hfields
    exact .of_node hn fun t ht => ih t ht (hfields.2 t ht)

/-- The visit of a source text raises where a node is refused. -/
theorem IsSource.events_raise {t : Tree} (h : t.IsSource) :
    Raises (t.events .start) (Refuses (t.places [] [])) := by
  obtain ⟨hm, hn⟩ := h
  cases t with
  | atom a => cases hm
  | list items => cases hm
  | node k s fields =>
    obtain rfl : k = .module := by simpa [isKind, kind?] using hm
    have hg := inGrammar_of_isSourceNode (isSourceNode_of_every hn)
    rw [every, Bool.and_eq_true, everyOfAll_iff] at hn
    have hslots : ∀ slot ∈ Kind.module.slots,
        slot.admits .parameters = false ∧ slot.admits .module = false := by decide
    have hall : Raises (fieldEvents (Trail.start.inside (.node .module s fields)) Kind.module.fields fields)
        (Refuses (placesOfFields .module [] [] Kind.module.fields fields)) := by
      refine fieldEvents_answer fun f t hft => ?_
      have ht := (List.of_mem_zip hft).2
      obtain ⟨slot, hslot, hfits⟩ := Slot.fits_of_mem hg t ht
      exact (answers t (hn.2 t ht)).fieldIn .start .module s fields f
        (usual_of_fits hfits (hslots slot hslot)) ⟨List.cons_ne_nil _ _, rfl⟩
    rw [refuses_passed rfl]
    exact ((hall.cons rfl).append (.sound rfl)).congr (or_iff_left id)

end Tree

end ScopeLint
