import Mathlib.Algebra.Order.Group.Multiset
import Mathlib.Tactic.Abel
import ScopeLint.Proofs.Scope.Region

/-! A visit of a tree in the grammar is a tour that finds each node where the rule has it, and every
node that is to be found once. -/

namespace ScopeLint

namespace Event

/-- Events without a fault and with a name where one is to be. -/
def isSound : Event → Bool
  | .fail _ | .occur none _ => false
  | _ => true

end Event

/-- Events that a run can get through. -/
def Clean (es : List Event) : Prop := ∀ e ∈ es, e.isSound = true

namespace Clean

variable {a b : List Event}

theorem left (h : Clean (a ++ b)) : Clean a := fun e he => h e (List.mem_append_left _ he)

theorem right (h : Clean (a ++ b)) : Clean b := fun e he => h e (List.mem_append_right _ he)

theorem head {e : Event} (h : Clean (e :: a)) : e.isSound = true := h e List.mem_cons_self

theorem tail {e : Event} (h : Clean (e :: a)) : Clean a := fun d hd => h d (List.mem_cons_of_mem _ hd)

end Clean

theorem Workshop.clean_of_run {w w' : Workshop} {es : List Event} (h : w.run es = .ok w') : Clean es := by
  induction es generalizing w with
  | nil => intro e he; cases he
  | cons e es ih =>
    obtain ⟨v, hv, hrest⟩ := run_cons h
    intro d hd
    rcases List.mem_cons.mp hd with rfl | hd
    · cases d with
      | fail fault => cases hv
      | occur name x =>
        cases name with
        | none =>
          obtain ⟨i, rest, f, -, hex, -⟩ := onCurrent_ok hv
          cases hex
        | some n => rfl
      | _ => rfl
    · exact ih hrest d hd

/-- The events are a tour that finds what is to be found, once. -/
def Covers (h : List Step) (es : List Event) (m : Multiset Note) : Prop :=
  ∃ cs os, Tour h es cs os ∧ (↑(cs.filter fun c => c.tree.isMention) + ↑os : Multiset Note) = m

namespace Covers

variable {h p : List Step} {a b es : List Event} {m m' : Multiset Note}

theorem nil : Covers h [] 0 := ⟨[], [], .nil, rfl⟩

theorem append (ha : Covers h a m) (hb : Covers h b m') : Covers h (a ++ b) (m + m') := by
  obtain ⟨cs, os, ht, rfl⟩ := ha
  obtain ⟨cs', os', ht', rfl⟩ := hb
  refine ⟨cs ++ cs', os ++ os', ht.append ht', ?_⟩
  rw [List.filter_append, ← Multiset.coe_add, ← Multiset.coe_add]
  abel

theorem congr (h' : Covers h es m) (hm : m = m') : Covers h es m' := hm ▸ h'

theorem quiet {e : Event} (he : e.isQuiet = true) : Covers h [e] 0 := ⟨[], [], .quiet he, rfl⟩

theorem quiets (hes : ∀ e ∈ es, e.isQuiet = true) : Covers h es 0 := by
  induction es with
  | nil => exact .nil
  | cons e es ih =>
    have hrest := ih fun d hd => hes d (List.mem_cons_of_mem _ hd)
    exact (quiet (hes e List.mem_cons_self)).append hrest

/-- The occurrence of a name at a node that is none by itself. -/
theorem other (n : String) {x : Site} (hx : x.tree.isMention = false) :
    Covers h [.occur (some n) x] 0 :=
  ⟨_, _, .occur n x, by simp [hx]⟩

theorem mention (n : String) {x : Site} (hx : x.tree.isMention = true) :
    Covers h [.occur (some n) x] {⟨some h, some n, x.path, x.tree⟩} :=
  ⟨_, _, .occur n x, by simp [hx]⟩

theorem scope {owner : Tree} (ho : owner.opensInner = true) (hes : Covers p es m) :
    Covers h (.enter owner :: es ++ [Event.leave]) ({⟨some h, none, p, owner⟩} + m) := by
  obtain ⟨cs, os, ht, rfl⟩ := hes
  refine ⟨cs, _, .scope ho ht, ?_⟩
  rw [← Multiset.cons_coe, ← Multiset.singleton_add]
  abel

theorem append_scope {owner : Tree} {pre : List Event} {m₀ : Multiset Note}
    (ho : owner.opensInner = true) (hpre : Covers h pre m₀) (hes : Covers p es m) :
    Covers h (pre ++ .enter owner :: es ++ [Event.leave]) (m₀ + ({⟨some h, none, p, owner⟩} + m)) := by
  rw [List.append_assoc]
  exact hpre.append (.scope ho hes)

theorem append_scope_append {owner : Tree} {pre : List Event} {m₀ : Multiset Note}
    (ho : owner.opensInner = true) (hpre : Covers h pre m₀) (ha : Covers p a m) (hb : Covers p b m') :
    Covers h (pre ++ .enter owner :: a ++ b ++ [Event.leave])
      (m₀ + ({⟨some h, none, p, owner⟩} + (m + m'))) := by
  rw [List.append_assoc pre, List.cons_append]
  exact append_scope ho hpre (ha.append hb)

end Covers

/-- An item of an import statement is a star, or it binds the first part of a name. -/
theorem Tree.importedEvent_cases {x : Site} {item : Tree}
    (h : (importedEvent x item).isSound = true) :
    item.boundName = .ok (.atom (.str "*")) ∧ importedEvent x item = .importsAll ∨
      ∃ name n, item.boundName = .ok (.atom (.str name)) ∧ name ≠ "*" ∧
        (Text.dottedParts name).head? = some n ∧ importedEvent x item = .occur (some n) x := by
  unfold importedEvent at h ⊢
  split at h
  next => cases h
  next hb => exact .inl ⟨hb, rfl⟩
  next name hstar hb =>
    rcases hn : (Text.dottedParts name).head? with _ | n
    · rw [hn] at h
      cases h
    · exact .inr ⟨name, n, hb, hstar, hn, rfl⟩
  next => cases h
  next => cases h

/-- What an import statement binds, where all of it stands at the statement. -/
theorem Tour.imported {h : List Step} {x : Site} {items : List Tree}
    (hc : Clean (items.map (Tree.importedEvent x))) :
    ∃ cs, Tour h (items.map (Tree.importedEvent x)) cs [] ∧ ∀ c ∈ cs, c.tree = x.tree := by
  induction items with
  | nil => exact ⟨[], .nil, by simp⟩
  | cons item items ih =>
    obtain ⟨cs, ht, hcs⟩ := ih hc.tail
    rw [List.map_cons]
    obtain ⟨-, he⟩ | ⟨-, n, -, -, -, he⟩ := Tree.importedEvent_cases hc.head
    · rw [he]
      exact ⟨cs, .append (.quiet rfl) ht, hcs⟩
    · rw [he]
      refine ⟨_, .append (.occur n x) ht, fun c hmem => ?_⟩
      rcases List.mem_cons.mp hmem with rfl | hmem
      · rfl
      · exact hcs c hmem

theorem Covers.imports {h : List Step} {x : Site} {items : List Tree}
    (hitems : importedItems x.tree = .ok items) (hx : x.tree.isMention = false)
    (hc : Clean (items.map (Tree.importedEvent x))) :
    Covers h (.importing x :: items.map (Tree.importedEvent x)) 0 := by
  obtain ⟨cs, ht, hcs⟩ := Tour.imported hc
  refine ⟨cs, [], .imports hitems ht, ?_⟩
  rw [List.filter_eq_nil_iff.mpr fun c hmem => by rw [hcs c hmem, hx]; exact Bool.false_ne_true]
  rfl

/-- A place inside the root that a visit comes to. -/
def Reached (edges : List Edge) : Prop := edges ≠ [] ∧ isReached edges = true

theorem Reached.into {e : Edge} {edges : List Edge} (hr : Reached edges)
    (h : e.isSkipped edges.head? = false) : Reached (e :: edges) := by
  refine ⟨List.cons_ne_nil _ _, ?_⟩
  rw [isReached, h, hr.2]
  rfl

theorem scopeOf_outer {e : Edge} (hb : e.opensBody = false) (hp : e.isParameter = false)
    (edges : List Edge) : scopeOf (e :: edges) = scopeOf edges := by
  simp [scopeOf, hb, hp]

theorem scopeOf_body {e : Edge} (hb : e.opensBody = true) (edges : List Edge) :
    scopeOf (e :: edges) = e.origin := by
  simp [scopeOf, hb]

theorem Reached.field {k : Kind} {edges : List Edge} (hr : Reached edges) (hk : k.isSpecial = false)
    (p : List Step) (f : String) : Reached (⟨k, p, f⟩ :: edges) :=
  ⟨List.cons_ne_nil _ _, (through_ordinary hk p f edges).1.trans hr.2⟩

namespace Tree

/-- The events for the value of a field when all that is no node is passed over. -/
def fieldEvent (trail : Trail) : Tree → List Event
  | .list items => nodeEvents trail 0 items
  | t => if t.isNode then events trail t else []

theorem fieldEvents_cons (trail : Trail) (f : String) (names : List String) (t : Tree)
    (ts : List Tree) : fieldEvents trail (f :: names) (t :: ts) =
      fieldEvent (trail.field f) t ++ fieldEvents trail names ts := by
  cases t <;> rfl

/-- A node that is no list of parameters and no module. -/
def isUsual (t : Tree) : Bool := !t.isOneOf [.parameters, .module]

/-- In each of the ways in which a tree is visited, the visit finds what is to be found. A list of
parameters is visited twice, for the parameters and for the defaults. -/
structure Reads (t : Tree) : Prop where
  events : t.isUsual = true → ∀ trail, Reached trail.edges → Clean (t.events trail) →
    Covers (scopeOf trail.edges) (t.events trail) (recorded (t.places trail.path trail.edges))
  all : (∀ u ∈ t.heads, u.isUsual = true) → ∀ trail, Reached trail.edges → Clean (t.allEvents trail) →
    Covers (scopeOf trail.edges) (t.allEvents trail)
      (recorded (placesIn trail.path trail.edges t))
  field : (∀ u ∈ t.heads, u.isUsual = true) → ∀ trail, Reached trail.edges →
    Clean (t.fieldEvent trail) → Covers (scopeOf trail.edges) (t.fieldEvent trail)
      (recorded (placesIn trail.path trail.edges t))
  params : t.isKind .parameters = true → ∀ trail, Reached trail.edges →
    ∃ args defaults, recorded (t.places trail.path trail.edges) = args + defaults ∧
      (Clean (t.events trail) →
        Covers (scopeOf (⟨.parameters, trail.path, "args"⟩ :: trail.edges)) (t.events trail) args) ∧
      if isReached (⟨.parameters, trail.path, "defaults"⟩ :: trail.edges) = true then
        Clean (t.defaultEvents trail) →
          Covers (scopeOf trail.edges) (t.defaultEvents trail) defaults
      else defaults = 0

/-- What is found in a field of a node that stands at a place. -/
def foundIn (trail : Trail) (k : Kind) (f : String) (t : Tree) : Multiset Note :=
  recorded (placesIn (trail.path ++ [.field f]) (⟨k, trail.path, f⟩ :: trail.edges) t)

theorem recorded_fields_cons (trail : Trail) (k : Kind) (f : String) (names : List String) (t : Tree)
    (ts : List Tree) : recorded (placesOfFields k trail.path trail.edges (f :: names) (t :: ts)) =
      foundIn trail k f t + recorded (placesOfFields k trail.path trail.edges names ts) := by
  rw [placesOfFields_cons, recorded_append, foundIn]

theorem recorded_fields_nil (trail : Trail) (k : Kind) :
    recorded (placesOfFields k trail.path trail.edges [] []) = 0 := rfl

theorem foundIn_flat {slot : Slot} {t : Tree} (ht : slot.fits t = true) (hs : slot.isFlat = true)
    (trail : Trail) (k : Kind) (f : String) : foundIn trail k f t = 0 := by
  rw [foundIn, placesIn_of_flat ht hs, recorded_nil]

theorem foundIn_skipped (trail : Trail) (k : Kind) (f : String)
    (h : Edge.isSkipped ⟨k, trail.path, f⟩ trail.edges.head? = true) (t : Tree) :
    foundIn trail k f t = 0 := by
  refine recorded_of_not_reached ?_ _ t
  rw [isReached, h]
  rfl

theorem itemEvents_covers {ts : List Tree} (h : ∀ t ∈ ts, t.Reads) (hu : ∀ t ∈ ts, t.isUsual = true)
    {trail : Trail} (hr : Reached trail.edges) : ∀ i, Clean (itemEvents trail i ts) →
      Covers (scopeOf trail.edges) (itemEvents trail i ts)
        (recorded (placesOfItems trail.path trail.edges i ts)) := by
  induction ts with
  | nil => intro i _; exact .nil
  | cons t ts ih =>
    intro i hc
    rw [itemEvents] at hc
    rw [itemEvents, placesOfItems, recorded_append]
    have hrest := ih (fun u hu => h u (List.mem_cons_of_mem _ hu))
      (fun u hu' => hu u (List.mem_cons_of_mem _ hu')) (i + 1) hc.right
    have ht := (h t List.mem_cons_self).events (hu t List.mem_cons_self) (trail.item i)
    rw [Trail.edges_item, Trail.path_item] at ht
    exact (ht hr hc.left).append hrest

theorem nodeEvents_covers {ts : List Tree} (h : ∀ t ∈ ts, t.Reads) (hu : ∀ t ∈ ts, t.isUsual = true)
    {trail : Trail} (hr : Reached trail.edges) : ∀ i, Clean (nodeEvents trail i ts) →
      Covers (scopeOf trail.edges) (nodeEvents trail i ts)
        (recorded (placesOfItems trail.path trail.edges i ts)) := by
  induction ts with
  | nil => intro i _; exact .nil
  | cons t ts ih =>
    intro i hc
    rw [nodeEvents] at hc
    rw [nodeEvents, placesOfItems, recorded_append]
    have hrest := ih (fun u hu => h u (List.mem_cons_of_mem _ hu))
      (fun u hu' => hu u (List.mem_cons_of_mem _ hu')) (i + 1) hc.right
    refine Covers.append ?_ hrest
    cases t with
    | atom a => exact .nil
    | list items => exact .nil
    | node k s fields =>
      have ht := (h _ List.mem_cons_self).events (hu _ List.mem_cons_self) (trail.item i)
      rw [Trail.edges_item, Trail.path_item] at ht
      exact ht hr hc.left

/-- The fields of a node, when each of them is visited as it should be. -/
theorem fieldEvents_covers {k : Kind} {s : Span} {fields : List Tree} {trail : Trail}
    {h : List Step} : ∀ {ts : List Tree} {names : List String},
    (∀ f t, (f, t) ∈ names.zip ts →
      Clean (t.fieldEvent ((trail.inside (.node k s fields)).field f)) →
        Covers h (t.fieldEvent ((trail.inside (.node k s fields)).field f)) (foundIn trail k f t)) →
    Clean (fieldEvents (trail.inside (.node k s fields)) names ts) →
    Covers h (fieldEvents (trail.inside (.node k s fields)) names ts)
      (recorded (placesOfFields k trail.path trail.edges names ts)) := by
  intro ts
  induction ts with
  | nil => intro names _ _; cases names <;> exact .nil
  | cons t ts ih =>
    intro names hcov hc
    cases names with
    | nil => exact .nil
    | cons f names =>
      rw [fieldEvents_cons] at hc
      rw [fieldEvents_cons, recorded_fields_cons]
      refine (hcov f t List.mem_cons_self hc.left).append (ih (fun g u hgu => ?_) hc.right)
      exact hcov g u (List.mem_cons_of_mem _ hgu)

theorem Reads.of_atom (a : Atom) : (Tree.atom a).Reads where
  events _ _ _ hc := nomatch hc.head
  all _ trail _ hc := by
    rw [allEvents] at hc ⊢
    split at hc
    next items hitems =>
      cases items with
      | nil => exact .nil
      | cons t ts => cases hc.head
    next => cases hc.head
  field _ _ _ _ := .nil
  params h := by cases h

theorem Reads.of_list {items : List Tree} (h : ∀ t ∈ items, t.Reads) : (Tree.list items).Reads where
  events _ _ _ hc := nomatch hc.head
  all hu _ hr hc := itemEvents_covers h hu hr 0 hc
  field hu _ hr hc := nodeEvents_covers h hu hr 0 hc
  params h := by cases h

/-! ### Fields -/

theorem usual_of_fits {slot : Slot} {t : Tree} (h : slot.fits t = true)
    (hslot : slot.admits .parameters = false ∧ slot.admits .module = false) :
    ∀ u ∈ t.heads, u.isUsual = true := by
  intro u hu
  cases u with
  | node k s fields =>
    have hadmits := heads_admitted h _ hu k rfl
    have hp : k ≠ .parameters := by
      rintro rfl
      rw [hslot.1] at hadmits
      cases hadmits
    have hm : k ≠ .module := by
      rintro rfl
      rw [hslot.2] at hadmits
      cases hadmits
    simp [isUsual, isOneOf, kind?, hp, hm]
  | atom a => rfl
  | list items => rfl

/-- All items in a field of a node. -/
theorem Reads.allIn {t : Tree} (h : t.Reads) (hu : ∀ u ∈ t.heads, u.isUsual = true) (trail : Trail)
    (k : Kind) (s : Span) (fields : List Tree) (f : String) {scope : List Step}
    (hr : Reached (⟨k, trail.path, f⟩ :: trail.edges))
    (hscope : scopeOf (⟨k, trail.path, f⟩ :: trail.edges) = scope)
    (hc : Clean (t.allEvents ((trail.inside (.node k s fields)).field f))) :
    Covers scope (t.allEvents ((trail.inside (.node k s fields)).field f)) (foundIn trail k f t) := by
  have hall := h.all hu ((trail.inside (.node k s fields)).field f)
  rw [Trail.edges_field, Trail.path_field, hscope] at hall
  exact hall hr hc

theorem isUsual_of_heads {t : Tree} (h : ∀ u ∈ t.heads, u.isUsual = true) : t.isUsual = true := by
  cases t with
  | node k s fields => exact h _ List.mem_cons_self
  | atom a => rfl
  | list items => rfl

/-- A node in a field of a node. -/
theorem Reads.eventsIn {t : Tree} (h : t.Reads) (hu : ∀ u ∈ t.heads, u.isUsual = true) (trail : Trail)
    (k : Kind) (s : Span) (fields : List Tree) (f : String) {scope : List Step}
    (hr : Reached (⟨k, trail.path, f⟩ :: trail.edges))
    (hscope : scopeOf (⟨k, trail.path, f⟩ :: trail.edges) = scope)
    (hc : Clean (t.events ((trail.inside (.node k s fields)).field f))) :
    Covers scope (t.events ((trail.inside (.node k s fields)).field f)) (foundIn trail k f t) := by
  have hevents := h.events (isUsual_of_heads hu) ((trail.inside (.node k s fields)).field f)
  rw [Trail.edges_field, Trail.path_field, hscope] at hevents
  cases t with
  | node k' s' fields' => exact hevents hr hc
  | atom a => cases hc.head
  | list items => cases hc.head

/-- What stands in a field of a node that is visited without a rule of its own. -/
theorem Reads.fieldIn {t : Tree} (h : t.Reads) (hu : ∀ u ∈ t.heads, u.isUsual = true) (trail : Trail)
    (k : Kind) (s : Span) (fields : List Tree) (f : String) {scope : List Step}
    (hr : Reached (⟨k, trail.path, f⟩ :: trail.edges))
    (hscope : scopeOf (⟨k, trail.path, f⟩ :: trail.edges) = scope)
    (hc : Clean (t.fieldEvent ((trail.inside (.node k s fields)).field f))) :
    Covers scope (t.fieldEvent ((trail.inside (.node k s fields)).field f)) (foundIn trail k f t) := by
  have hfield := h.field hu ((trail.inside (.node k s fields)).field f)
  rw [Trail.edges_field, Trail.path_field, hscope] at hfield
  exact hfield hr hc

/-! ### Node by node -/

/-- The parameters of a function lie in its scope, and the defaults in the scope around it. -/
theorem Reads.paramsOf {s' : Span} {fields' : List Tree}
    (h : (Tree.node .parameters s' fields').Reads) {trail : Trail} (k : Kind) (s : Span)
    (fields : List Tree) (hr : Reached trail.edges) (hfn : k = .functionDef ∨ k = .lambda) :
    let args : Tree := .node .parameters s' fields'
    let inside := (trail.inside (.node k s fields)).field "args"
    ∃ ps ds, foundIn trail k "args" args = ps + ds ∧
      (Clean (args.events inside) → Covers trail.path (args.events inside) ps) ∧
      (Clean (args.defaultEvents inside) →
        Covers (scopeOf trail.edges) (args.defaultEvents inside) ds) := by
  intro args inside
  have hskip : Edge.isSkipped ⟨k, trail.path, "args"⟩ trail.edges.head? = false := by
    rcases hfn with rfl | rfl <;> rfl
  have houter : scopeOf (⟨k, trail.path, "args"⟩ :: trail.edges) = scopeOf trail.edges :=
    scopeOf_outer (by rcases hfn with rfl | rfl <;> rfl) (by rcases hfn with rfl | rfl <;> rfl) _
  have hinner : scopeOf (⟨.parameters, inside.path, "args"⟩ :: ⟨k, trail.path, "args"⟩ :: trail.edges) =
      trail.path := by
    rcases hfn with rfl | rfl <;> rfl
  have hdefaults : isReached (⟨.parameters, inside.path, "defaults"⟩ ::
      ⟨k, trail.path, "args"⟩ :: trail.edges) = true :=
    ((hr.into hskip).into (by rcases hfn with rfl | rfl <;> rfl)).2
  have hparams := h.params rfl inside
  rw [Trail.edges_field, hinner, hdefaults, houter] at hparams
  obtain ⟨ps, ds, hsum, hps, hds⟩ := hparams (hr.into hskip)
  exact ⟨ps, ds, hsum, hps, hds⟩

/-- The node itself is found first. -/
theorem recorded_node {k : Kind} {trail : Trail} (hr : Reached trail.edges)
    (hk : k.isFound = true)
    {s : Span} {fields : List Tree} {l : Option String} (hl : (Tree.node k s fields).label? = l) :
    recorded (places trail.path trail.edges (.node k s fields)) =
      {⟨some (scopeOf trail.edges), l, trail.path, .node k s fields⟩} +
        recorded (placesOfFields k trail.path trail.edges k.fields fields) := by
  have hrec : Place.isRecorded ⟨trail.path, trail.edges, .node k s fields⟩ = true := by
    rw [Place.isRecorded, hr.2, isMention_or_ownsScope, hk]
    rfl
  have hhome : Place.home? ⟨trail.path, trail.edges, .node k s fields⟩ = some (scopeOf trail.edges) := by
    simp [Place.home?, hr.1]
  rw [places, recorded_cons_of_pos hrec, Place.note, hhome, hl]

theorem covers_function {s : Span} {fields : List Tree} {trail : Trail}
    (hg : Slot.fitAll Kind.functionDef.slots fields = true) (h : ∀ t ∈ fields, t.Reads)
    (hr : Reached trail.edges) (hc : Clean (events trail (.node .functionDef s fields))) :
    Covers (scopeOf trail.edges) (events trail (.node .functionDef s fields))
      (recorded (places trail.path trail.edges (.node .functionDef s fields))) := by
  obtain ⟨name, _, rfl, hname, hg⟩ := Slot.fitAll_cons hg
  obtain ⟨args, _, rfl, hargs, hg⟩ := Slot.fitAll_cons hg
  obtain ⟨body, _, rfl, hbody, hg⟩ := Slot.fitAll_cons hg
  obtain ⟨decorators, _, rfl, hdecorators, hg⟩ := Slot.fitAll_cons hg
  obtain ⟨returns, _, rfl, -, hg⟩ := Slot.fitAll_cons hg
  obtain ⟨comment, _, rfl, hcomment, hg⟩ := Slot.fitAll_cons hg
  obtain rfl := Slot.eq_nil_of_fitAll hg
  obtain ⟨n, rfl⟩ := eq_text hname
  obtain ⟨s', fields', rfl⟩ := eq_node_of_fits hargs
  obtain ⟨ps, ds, hsum, hps, hds⟩ :=
    (h (.node .parameters s' fields') (by simp)).paramsOf .functionDef s _ hr (.inl rfl)
  have hdec := (h decorators (by simp)).allIn (usual_of_fits hdecorators (by decide)) trail
    .functionDef s _ "decorator_list" (hr.into rfl) (scopeOf_outer rfl rfl _) hc.left.left.left.left.tail
  have hbod := (h body (by simp)).allIn (usual_of_fits hbody (by decide)) trail .functionDef s _
    "body" (hr.into rfl) (scopeOf_body rfl _) hc.left.right
  refine Covers.congr (Covers.append_scope_append rfl (((Covers.other n rfl).append hdec).append
    (hds hc.left.left.left.right)) (hps hc.left.left.right.tail) hbod) ?_
  rw [recorded_node hr rfl (l := none) rfl]
  have hfields : Kind.functionDef.fields =
      ["name", "args", "body", "decorator_list", "returns", "type_comment"] := rfl
  simp only [hfields, recorded_fields_cons, recorded_fields_nil, hsum,
    foundIn_flat hname rfl, foundIn_flat hcomment rfl,
    foundIn_skipped trail .functionDef "returns" rfl]
  abel

theorem covers_class {s : Span} {fields : List Tree} {trail : Trail}
    (hg : Slot.fitAll Kind.classDef.slots fields = true) (h : ∀ t ∈ fields, t.Reads)
    (hr : Reached trail.edges) (hc : Clean (events trail (.node .classDef s fields))) :
    Covers (scopeOf trail.edges) (events trail (.node .classDef s fields))
      (recorded (places trail.path trail.edges (.node .classDef s fields))) := by
  obtain ⟨name, _, rfl, hname, hg⟩ := Slot.fitAll_cons hg
  obtain ⟨bases, _, rfl, hbases, hg⟩ := Slot.fitAll_cons hg
  obtain ⟨keywords, _, rfl, -, hg⟩ := Slot.fitAll_cons hg
  obtain ⟨body, _, rfl, hbody, hg⟩ := Slot.fitAll_cons hg
  obtain ⟨decorators, _, rfl, hdecorators, hg⟩ := Slot.fitAll_cons hg
  obtain rfl := Slot.eq_nil_of_fitAll hg
  obtain ⟨n, rfl⟩ := eq_text hname
  have hdec := (h decorators (by simp)).allIn (usual_of_fits hdecorators (by decide)) trail
    .classDef s _ "decorator_list" (hr.into rfl) (scopeOf_outer rfl rfl _) hc.left.left.left.tail
  have hbase := (h bases (by simp)).allIn (usual_of_fits hbases (by decide)) trail .classDef s _
    "bases" (hr.into rfl) (scopeOf_outer rfl rfl _) hc.left.left.right
  have hbod := (h body (by simp)).allIn (usual_of_fits hbody (by decide)) trail .classDef s _
    "body" (hr.into rfl) (scopeOf_body rfl _) hc.left.right.tail
  refine Covers.congr (Covers.append_scope rfl (((Covers.other n rfl).append hdec).append hbase)
    hbod) ?_
  rw [recorded_node hr rfl (l := none) rfl]
  have hfields : Kind.classDef.fields = ["name", "bases", "keywords", "body", "decorator_list"] := rfl
  simp only [hfields, recorded_fields_cons, recorded_fields_nil,
    foundIn_flat hname rfl, foundIn_skipped trail .classDef "keywords" rfl]
  abel

theorem covers_lambda {s : Span} {fields : List Tree} {trail : Trail}
    (hg : Slot.fitAll Kind.lambda.slots fields = true) (h : ∀ t ∈ fields, t.Reads)
    (hr : Reached trail.edges) (hc : Clean (events trail (.node .lambda s fields))) :
    Covers (scopeOf trail.edges) (events trail (.node .lambda s fields))
      (recorded (places trail.path trail.edges (.node .lambda s fields))) := by
  obtain ⟨args, _, rfl, hargs, hg⟩ := Slot.fitAll_cons hg
  obtain ⟨body, _, rfl, hbody, hg⟩ := Slot.fitAll_cons hg
  obtain rfl := Slot.eq_nil_of_fitAll hg
  obtain ⟨s', fields', rfl⟩ := eq_node_of_fits hargs
  obtain ⟨ps, ds, hsum, hps, hds⟩ :=
    (h (.node .parameters s' fields') (by simp)).paramsOf .lambda s _ hr (.inr rfl)
  have hbod := (h body (by simp)).eventsIn (usual_of_fits hbody (by decide)) trail .lambda s _
    "body" (hr.into rfl) (scopeOf_body rfl _) hc.left.right
  refine Covers.congr (Covers.append_scope_append rfl (hds hc.left.left.left)
    (hps hc.left.left.right.tail) hbod) ?_
  rw [recorded_node hr rfl (l := none) rfl]
  have hfields : Kind.lambda.fields = ["args", "body"] := rfl
  simp only [hfields, recorded_fields_cons, recorded_fields_nil, hsum]
  abel

theorem covers_parameter {s : Span} {fields : List Tree} {trail : Trail}
    (hg : Slot.fitAll Kind.parameter.slots fields = true) (hr : Reached trail.edges) :
    Covers (scopeOf trail.edges) (events trail (.node .parameter s fields))
      (recorded (places trail.path trail.edges (.node .parameter s fields))) := by
  obtain ⟨name, _, rfl, hname, hg⟩ := Slot.fitAll_cons hg
  obtain ⟨note, _, rfl, -, hg⟩ := Slot.fitAll_cons hg
  obtain ⟨comment, _, rfl, hcomment, hg⟩ := Slot.fitAll_cons hg
  obtain rfl := Slot.eq_nil_of_fitAll hg
  obtain ⟨n, rfl⟩ := eq_text hname
  refine Covers.congr (Covers.mention n rfl) ?_
  rw [recorded_node hr rfl (l := some n) rfl]
  have hfields : Kind.parameter.fields = ["arg", "annotation", "type_comment"] := rfl
  simp only [hfields, recorded_fields_cons, recorded_fields_nil,
    foundIn_flat hname rfl, foundIn_flat hcomment rfl,
    foundIn_skipped trail .parameter "annotation" rfl, add_zero]

/-! Nodes without nodes below them that could be found. -/

/-- The kinds of nodes without nodes below them, apart from those that are found themselves. -/
def isLeafKind (k : Kind) : Bool := k.slots.all Slot.isFlat && !k.isFound

theorem placesOfFields_of_flat {k : Kind} {path : List Step} {edges : List Edge} :
    ∀ {slots : List Slot} {ts : List Tree} (names : List String), slots.all Slot.isFlat = true →
      Slot.fitAll slots ts = true → placesOfFields k path edges names ts = [] := by
  intro slots
  induction slots with
  | nil =>
    intro ts names _ hfit
    rw [Slot.eq_nil_of_fitAll hfit]
    cases names <;> rfl
  | cons slot slots ih =>
    intro ts names hflat hfit
    obtain ⟨t, ts, rfl, ht, hfit⟩ := Slot.fitAll_cons hfit
    rw [List.all_cons, Bool.and_eq_true] at hflat
    cases names with
    | nil => rfl
    | cons f names => rw [placesOfFields_cons, placesIn_of_flat ht hflat.1, ih names hflat.2 hfit]; rfl

theorem recorded_leaf {t : Tree} (hg : t.every inGrammar = true)
    (h : ∀ k, t.kind? = some k → isLeafKind k = true) (path : List Step) (edges : List Edge) :
    recorded (places path edges t) = 0 := by
  cases t with
  | atom a => rfl
  | list items => rfl
  | node k s fields =>
    have hk := h k rfl
    rw [isLeafKind, Bool.and_eq_true, Bool.not_eq_true'] at hk
    rw [every, Bool.and_eq_true] at hg
    rw [places, placesOfFields_of_flat k.fields hk.1 hg.1]
    refine recorded_cons_of_neg ?_ []
    rw [Place.isRecorded, isMention_or_ownsScope, hk.2]
    rfl

theorem recorded_leaves {ts : List Tree} (hg : ∀ t ∈ ts, t.every inGrammar = true)
    (h : ∀ t ∈ ts, ∀ k, t.kind? = some k → isLeafKind k = true) (path : List Step)
    (edges : List Edge) : ∀ i, recorded (placesOfItems path edges i ts) = 0 := by
  induction ts with
  | nil => intro i; rfl
  | cons t ts ih =>
    intro i
    rw [placesOfItems, recorded_append,
      recorded_leaf (hg t List.mem_cons_self) (h t List.mem_cons_self),
      ih (fun u hu => hg u (List.mem_cons_of_mem _ hu)) fun u hu => h u (List.mem_cons_of_mem _ hu)]
    rfl

/-- A field where only such nodes can stand. -/
theorem foundIn_leaves {slot : Slot} {t : Tree} (ht : slot.fits t = true)
    (hs : ∀ k, slot.admits k = true → isLeafKind k = true) (hg : t.every inGrammar = true)
    (trail : Trail) (k : Kind) (f : String) : foundIn trail k f t = 0 := by
  have hheads := fun u hu k hk => hs k (heads_admitted ht u hu k hk)
  cases t with
  | atom a => rfl
  | node k' s' fields' => exact recorded_leaf hg (hheads _ List.mem_cons_self) _ _
  | list items =>
    rw [every, everyOfAll_iff] at hg
    exact recorded_leaves hg hheads _ _ 0

theorem isLeafKind_of_context (k : Kind) (h : (Slot.one .context).admits k = true) :
    isLeafKind k = true := by
  cases k <;> first | rfl | cases h

theorem covers_name {s : Span} {fields : List Tree} {trail : Trail}
    (hg : Slot.fitAll Kind.name.slots fields = true) (hin : ∀ t ∈ fields, t.every inGrammar = true)
    (hr : Reached trail.edges) :
    Covers (scopeOf trail.edges) (events trail (.node .name s fields))
      (recorded (places trail.path trail.edges (.node .name s fields))) := by
  obtain ⟨id, _, rfl, hid, hg⟩ := Slot.fitAll_cons hg
  obtain ⟨ctx, _, rfl, hctx, hg⟩ := Slot.fitAll_cons hg
  obtain rfl := Slot.eq_nil_of_fitAll hg
  obtain ⟨n, rfl⟩ := eq_text hid
  refine Covers.congr (Covers.mention n rfl) ?_
  rw [recorded_node hr rfl (l := some n) rfl]
  have hfields : Kind.name.fields = ["id", "ctx"] := rfl
  simp only [hfields, recorded_fields_cons, recorded_fields_nil,
    foundIn_flat hid rfl, foundIn_leaves hctx isLeafKind_of_context (hin ctx (by simp)), add_zero]

/-- A node that is not found itself. -/
theorem recorded_passed {k : Kind} (hk : k.isFound = false) (trail : Trail) (s : Span)
    (fields : List Tree) : recorded (places trail.path trail.edges (.node k s fields)) =
      recorded (placesOfFields k trail.path trail.edges k.fields fields) := by
  rw [places, recorded_cons_of_neg]
  rw [Place.isRecorded, isMention_or_ownsScope, hk]
  rfl

theorem covers_global {s : Span} {fields : List Tree} {trail : Trail}
    (hg : Slot.fitAll Kind.globalStmt.slots fields = true)
    (hc : Clean (events trail (.node .globalStmt s fields))) :
    Covers (scopeOf trail.edges) (events trail (.node .globalStmt s fields))
      (recorded (places trail.path trail.edges (.node .globalStmt s fields))) := by
  obtain ⟨names, _, rfl, hnames, hg⟩ := Slot.fitAll_cons hg
  obtain rfl := Slot.eq_nil_of_fitAll hg
  rw [recorded_passed rfl]
  have hfields : Kind.globalStmt.fields = ["names"] := rfl
  simp only [hfields, recorded_fields_cons, recorded_fields_nil,
    foundIn_flat hnames rfl, add_zero]
  change Clean (globalEvents names) at hc
  change Covers _ (globalEvents names) 0
  rw [globalEvents] at hc ⊢
  split at hc
  · exact .quiet rfl
  · cases hc.tail.head

theorem covers_assign {s : Span} {fields : List Tree} {trail : Trail}
    (hg : Slot.fitAll Kind.assign.slots fields = true) (h : ∀ t ∈ fields, t.Reads)
    (hr : Reached trail.edges) (hc : Clean (events trail (.node .assign s fields))) :
    Covers (scopeOf trail.edges) (events trail (.node .assign s fields))
      (recorded (places trail.path trail.edges (.node .assign s fields))) := by
  obtain ⟨targets, _, rfl, htargets, hg⟩ := Slot.fitAll_cons hg
  obtain ⟨value, _, rfl, hvalue, hg⟩ := Slot.fitAll_cons hg
  obtain ⟨comment, _, rfl, hcomment, hg⟩ := Slot.fitAll_cons hg
  obtain rfl := Slot.eq_nil_of_fitAll hg
  have hval := (h value (by simp)).eventsIn (usual_of_fits hvalue (by decide)) trail .assign s _
    "value" (hr.into rfl) (scopeOf_outer rfl rfl _) hc.left
  have htar := (h targets (by simp)).allIn (usual_of_fits htargets (by decide)) trail .assign s _
    "targets" (hr.into rfl) (scopeOf_outer rfl rfl _) hc.right
  refine Covers.congr (hval.append htar) ?_
  rw [recorded_passed rfl]
  have hfields : Kind.assign.fields = ["targets", "value", "type_comment"] := rfl
  simp only [hfields, recorded_fields_cons, recorded_fields_nil,
    foundIn_flat hcomment rfl]
  abel

theorem covers_handler {s : Span} {fields : List Tree} {trail : Trail}
    (hg : Slot.fitAll Kind.exceptHandler.slots fields = true) (h : ∀ t ∈ fields, t.Reads)
    (hr : Reached trail.edges) (hc : Clean (events trail (.node .exceptHandler s fields))) :
    Covers (scopeOf trail.edges) (events trail (.node .exceptHandler s fields))
      (recorded (places trail.path trail.edges (.node .exceptHandler s fields))) := by
  obtain ⟨type, _, rfl, htype, hg⟩ := Slot.fitAll_cons hg
  obtain ⟨name, _, rfl, hname, hg⟩ := Slot.fitAll_cons hg
  obtain ⟨body, _, rfl, hbody, hg⟩ := Slot.fitAll_cons hg
  obtain rfl := Slot.eq_nil_of_fitAll hg
  have htyp := (h type (by simp)).eventsIn (usual_of_fits htype (by decide)) trail .exceptHandler s _
    "type" (hr.into rfl) (scopeOf_outer rfl rfl _) hc.left.left
  have hbod := (h body (by simp)).allIn (usual_of_fits hbody (by decide)) trail .exceptHandler s _
    "body" (hr.into rfl) (scopeOf_outer rfl rfl _) hc.right
  have hnam : ∀ visited, Covers (scopeOf trail.edges) (handlerNameEvents
      ⟨trail, .node .exceptHandler s [type, name, body]⟩ name visited) 0 := by
    intro visited
    rcases eq_optionalText hname with ⟨n, rfl⟩ | rfl
    · exact .other n rfl
    · exact .nil
  refine Covers.congr ((htyp.append (hnam _)).append hbod) ?_
  rw [recorded_passed rfl]
  have hfields : Kind.exceptHandler.fields = ["type", "name", "body"] := rfl
  simp only [hfields, recorded_fields_cons, recorded_fields_nil,
    foundIn_flat hname rfl]
  abel

theorem isLeafKind_of_alias (k : Kind) (h : (Slot.many (.ofKind .importAlias)).admits k = true) :
    isLeafKind k = true := by
  obtain rfl : k = .importAlias := of_decide_eq_true h
  rfl

theorem covers_import {s : Span} {fields : List Tree} {trail : Trail}
    (hg : Slot.fitAll Kind.importStmt.slots fields = true)
    (hin : ∀ t ∈ fields, t.every inGrammar = true)
    (hc : Clean (events trail (.node .importStmt s fields))) :
    Covers (scopeOf trail.edges) (events trail (.node .importStmt s fields))
      (recorded (places trail.path trail.edges (.node .importStmt s fields))) := by
  obtain ⟨names, _, rfl, hnames, hg⟩ := Slot.fitAll_cons hg
  obtain rfl := Slot.eq_nil_of_fitAll hg
  obtain ⟨items, rfl⟩ := eq_list_of_many hnames
  rw [recorded_passed rfl]
  have hfields : Kind.importStmt.fields = ["names"] := rfl
  simp only [hfields, recorded_fields_cons, recorded_fields_nil,
    foundIn_leaves hnames isLeafKind_of_alias (hin _ List.mem_cons_self), add_zero]
  exact Covers.imports rfl rfl hc.tail

theorem clean_futureEvents {names : Tree} (hc : Clean (futureEvents names)) :
    ∀ e ∈ futureEvents names, e.isQuiet = true := by
  intro e he
  have hsound := hc e he
  rcases List.mem_cons.mp he with rfl | he
  · rfl
  · split at he
    · obtain ⟨item, -, rfl⟩ := List.mem_map.mp he
      split at hsound
      all_goals first | rfl | cases hsound
    · obtain rfl := List.mem_singleton.mp he
      cases hsound

theorem covers_importFrom {s : Span} {fields : List Tree} {trail : Trail}
    (hg : Slot.fitAll Kind.importFrom.slots fields = true)
    (hin : ∀ t ∈ fields, t.every inGrammar = true)
    (hc : Clean (events trail (.node .importFrom s fields))) :
    Covers (scopeOf trail.edges) (events trail (.node .importFrom s fields))
      (recorded (places trail.path trail.edges (.node .importFrom s fields))) := by
  obtain ⟨module, _, rfl, hmodule, hg⟩ := Slot.fitAll_cons hg
  obtain ⟨names, _, rfl, hnames, hg⟩ := Slot.fitAll_cons hg
  obtain ⟨level, _, rfl, hlevel, hg⟩ := Slot.fitAll_cons hg
  obtain rfl := Slot.eq_nil_of_fitAll hg
  obtain ⟨items, rfl⟩ := eq_list_of_many hnames
  rw [recorded_passed rfl]
  have hfields : Kind.importFrom.fields = ["module", "names", "level"] := rfl
  simp only [hfields, recorded_fields_cons, recorded_fields_nil,
    foundIn_flat hmodule rfl, foundIn_flat hlevel rfl,
    foundIn_leaves hnames isLeafKind_of_alias (hin _ (by simp)), add_zero]
  change Clean (if module.str? = some "__future__" then futureEvents (.list items) else _) at hc
  change Covers _ (if module.str? = some "__future__" then futureEvents (.list items) else _) 0
  split_ifs at hc ⊢ with hfuture
  · exact .quiets (clean_futureEvents hc)
  · exact Covers.imports rfl rfl hc.tail

/-! Lists of parameters, visited once for the parameters and once for the defaults. -/

/-- A parameter that takes all remaining arguments. -/
theorem Reads.catchAllIn {t : Tree} (h : t.Reads) (ht : (Slot.optional (.ofKind .parameter)).fits t = true)
    (site : Site) (trail : Trail) (s : Span) (fields : List Tree) (f : String) {scope : List Step}
    (hr : Reached (⟨.parameters, trail.path, f⟩ :: trail.edges))
    (hscope : scopeOf (⟨.parameters, trail.path, f⟩ :: trail.edges) = scope)
    (hc : Clean (catchAllEvents site t
      (t.events ((trail.inside (.node .parameters s fields)).field f)))) :
    Covers scope (catchAllEvents site t
      (t.events ((trail.inside (.node .parameters s fields)).field f)))
      (foundIn trail .parameters f t) := by
  cases t with
  | node k s' fields' =>
    exact h.eventsIn (usual_of_fits ht (by decide)) trail .parameters s fields f hr hscope hc
  | atom a =>
    cases a with
    | null => exact .nil
    | _ => cases ht
  | list items => cases ht

theorem params_of_parameters {s : Span} {fields : List Tree} {trail : Trail}
    (hg : Slot.fitAll Kind.parameters.slots fields = true) (h : ∀ t ∈ fields, t.Reads)
    (hr : Reached trail.edges) :
    ∃ args defaults,
      recorded (places trail.path trail.edges (.node .parameters s fields)) = args + defaults ∧
      (Clean (events trail (.node .parameters s fields)) →
        Covers (scopeOf (⟨.parameters, trail.path, "args"⟩ :: trail.edges))
          (events trail (.node .parameters s fields)) args) ∧
      if isReached (⟨.parameters, trail.path, "defaults"⟩ :: trail.edges) = true then
        Clean (defaultEvents trail (.node .parameters s fields)) →
          Covers (scopeOf trail.edges) (defaultEvents trail (.node .parameters s fields)) defaults
      else defaults = 0 := by
  obtain ⟨only, _, rfl, -, hg⟩ := Slot.fitAll_cons hg
  obtain ⟨args, _, rfl, hargs, hg⟩ := Slot.fitAll_cons hg
  obtain ⟨vararg, _, rfl, hvararg, hg⟩ := Slot.fitAll_cons hg
  obtain ⟨kwonly, _, rfl, hkwonly, hg⟩ := Slot.fitAll_cons hg
  obtain ⟨keywords, _, rfl, hkeywords, hg⟩ := Slot.fitAll_cons hg
  obtain ⟨kwarg, _, rfl, hkwarg, hg⟩ := Slot.fitAll_cons hg
  obtain ⟨defaults, _, rfl, hdefaults, hg⟩ := Slot.fitAll_cons hg
  obtain rfl := Slot.eq_nil_of_fitAll hg
  refine ⟨foundIn trail .parameters "args" args + (foundIn trail .parameters "vararg" vararg +
    foundIn trail .parameters "kwarg" kwarg + foundIn trail .parameters "kwonlyargs" kwonly),
    foundIn trail .parameters "defaults" defaults + foundIn trail .parameters "kw_defaults" keywords,
    ?_, ?_, ?_⟩
  · rw [recorded_passed rfl]
    have hfields : Kind.parameters.fields =
        ["posonlyargs", "args", "vararg", "kwonlyargs", "kw_defaults", "kwarg", "defaults"] := rfl
    simp only [hfields, recorded_fields_cons, recorded_fields_nil,
      foundIn_skipped trail .parameters "posonlyargs" rfl]
    abel
  · intro hc
    have hall := (h args (by simp)).allIn (usual_of_fits hargs (by decide)) trail .parameters s _
      "args" (hr.into rfl) rfl hc.left
    refine hall.append ?_
    have hrest := hc.right
    split at hrest
    next => cases hrest.head
    next placed hplaced =>
      obtain ⟨up, -, hplaced⟩ := except_bind_ok hplaced
      obtain ⟨s', rfl⟩ := placedBy_node hplaced
      have hvar := (h vararg (by simp)).catchAllIn hvararg _ trail s' _ "vararg" (hr.into rfl) rfl
        hrest.left.left
      have hkw := (h kwarg (by simp)).catchAllIn hkwarg _ trail s' _ "kwarg" (hr.into rfl) rfl
        hrest.left.right
      have honly := (h kwonly (by simp)).allIn (usual_of_fits hkwonly (by decide)) trail .parameters s'
        _ "kwonlyargs" (hr.into rfl) rfl hrest.right
      exact (hvar.append hkw).append honly
  · split_ifs with hreached
    · intro hc
      have hdef := (h defaults (by simp)).allIn (usual_of_fits hdefaults (by decide)) trail .parameters s
        _ "defaults" ⟨List.cons_ne_nil _ _, hreached⟩ (scopeOf_outer rfl rfl _) hc.left
      have hkey := (h keywords (by simp)).allIn (usual_of_fits hkeywords (by decide)) trail .parameters s
        _ "kw_defaults" ⟨List.cons_ne_nil _ _, hreached⟩ (scopeOf_outer rfl rfl _) hc.right
      exact hdef.append hkey
    · rw [Bool.not_eq_true] at hreached
      have hkeyword : isReached (⟨.parameters, trail.path, "kw_defaults"⟩ :: trail.edges) = false :=
        hreached
      rw [foundIn, foundIn, recorded_of_not_reached hreached, recorded_of_not_reached hkeyword]
      rfl

/-! Nodes that are visited field by field. -/

/-- Kinds without a rule of their own, with fields for neither lists of parameters nor modules. -/
theorem plain_kind {k : Kind} (hrule : k.visitRule = .plain) (hk : k ≠ .asyncFunctionDef) :
    k.isSpecial = false ∧ k.isFound = false ∧
      ∀ slot ∈ k.slots, slot.admits .parameters = false ∧ slot.admits .module = false := by
  cases k <;> first | exact absurd rfl hk | decide | cases hrule

theorem events_plain {k : Kind} (hrule : k.visitRule = .plain) (trail : Trail) (s : Span)
    (fields : List Tree) : events trail (.node k s fields) =
      fieldEvents (trail.inside (.node k s fields)) k.fields fields := by
  rw [events.eq_def]
  simp only [hrule]

theorem covers_plain {k : Kind} (hrule : k.visitRule = .plain) (hk : k ≠ .asyncFunctionDef) {s : Span}
    {fields : List Tree} {trail : Trail} (hg : Slot.fitAll k.slots fields = true)
    (h : ∀ t ∈ fields, t.Reads) (hr : Reached trail.edges)
    (hc : Clean (events trail (.node k s fields))) :
    Covers (scopeOf trail.edges) (events trail (.node k s fields))
      (recorded (places trail.path trail.edges (.node k s fields))) := by
  obtain ⟨hspecial, hfound, hslots⟩ := plain_kind hrule hk
  rw [events_plain hrule] at hc ⊢
  rw [recorded_passed hfound]
  refine fieldEvents_covers (fun f t hft hc => ?_) hc
  have ht := (List.of_mem_zip hft).2
  obtain ⟨slot, hslot, hfits⟩ := Slot.fits_of_mem hg t ht
  exact (h t ht).fieldIn (usual_of_fits hfits (hslots slot hslot)) trail k s fields f
    (hr.field hspecial _ f) (through_ordinary hspecial _ f _).2 hc

/-- An asynchronous function has no scope of its own, and its defaults are not visited. -/
theorem covers_async {s : Span} {fields : List Tree} {trail : Trail}
    (hg : Slot.fitAll Kind.asyncFunctionDef.slots fields = true) (h : ∀ t ∈ fields, t.Reads)
    (hr : Reached trail.edges) (hc : Clean (events trail (.node .asyncFunctionDef s fields))) :
    Covers (scopeOf trail.edges) (events trail (.node .asyncFunctionDef s fields))
      (recorded (places trail.path trail.edges (.node .asyncFunctionDef s fields))) := by
  have hslots : ∀ slot ∈ Kind.asyncFunctionDef.slots, slot = .one (.ofKind .parameters) ∨
      slot.admits .parameters = false ∧ slot.admits .module = false := by
    decide
  rw [events_plain rfl] at hc ⊢
  rw [recorded_passed rfl]
  refine fieldEvents_covers (fun f t hft hc => ?_) hc
  have ht := (List.of_mem_zip hft).2
  have hreached : Reached (⟨.asyncFunctionDef, trail.path, f⟩ :: trail.edges) := hr.field rfl _ f
  have hscope := (through_ordinary (k := .asyncFunctionDef) rfl trail.path f trail.edges).2
  obtain ⟨slot, hslot, hfits⟩ := Slot.fits_of_mem hg t ht
  rcases hslots slot hslot with rfl | husual
  · obtain ⟨s', fields', rfl⟩ := eq_node_of_fits hfits
    have hparams := (h _ ht).params rfl ((trail.inside (.node .asyncFunctionDef s fields)).field f)
    rw [Trail.edges_field] at hparams
    obtain ⟨ps, ds, hsum, hps, hds⟩ := hparams hreached
    -- Behind such a function a default is skipped, and the parameters lie in the scope around it.
    have hskip : isReached (⟨.parameters, trail.path ++ [Step.field f], "defaults"⟩ ::
        ⟨.asyncFunctionDef, trail.path, f⟩ :: trail.edges) = false := rfl
    have hinner : scopeOf (⟨.parameters, trail.path ++ [Step.field f], "args"⟩ ::
        ⟨.asyncFunctionDef, trail.path, f⟩ :: trail.edges) = scopeOf trail.edges := by
      simp [scopeOf, Edge.opensBody, Edge.isParameter, Edge.holdsParameters]
    rw [Trail.path_field, hskip] at hds
    rw [Trail.path_field, hinner] at hps
    have hfound : foundIn trail .asyncFunctionDef f (.node .parameters s' fields') = ps := by
      have hzero : ds = 0 := hds
      rw [hzero, add_zero] at hsum
      exact hsum
    rw [hfound]
    exact hps hc
  · exact (h t ht).fieldIn (usual_of_fits hfits husual) trail .asyncFunctionDef s fields f hreached
      hscope hc

/-! ### Whole trees -/

theorem events_covers {k : Kind} {s : Span} {fields : List Tree} {trail : Trail}
    (hk : (Tree.node k s fields).isUsual = true) (hg : (Tree.node k s fields).every inGrammar = true)
    (h : ∀ t ∈ fields, t.Reads) (hr : Reached trail.edges)
    (hc : Clean (events trail (.node k s fields))) :
    Covers (scopeOf trail.edges) (events trail (.node k s fields))
      (recorded (places trail.path trail.edges (.node k s fields))) := by
  rw [every, Bool.and_eq_true, everyOfAll_iff] at hg
  obtain ⟨hg, hin⟩ := hg
  cases k with
  | functionDef => exact covers_function hg h hr hc
  | classDef => exact covers_class hg h hr hc
  | lambda => exact covers_lambda hg h hr hc
  | parameter => exact covers_parameter hg hr
  | name => exact covers_name hg hin hr
  | globalStmt => exact covers_global hg hc
  | assign => exact covers_assign hg h hr hc
  | exceptHandler => exact covers_handler hg h hr hc
  | importStmt => exact covers_import hg hin hc
  | importFrom => exact covers_importFrom hg hin hc
  | asyncFunctionDef => exact covers_async hg h hr hc
  | module => cases hk
  | parameters => cases hk
  | _ => exact covers_plain rfl (by decide) hg h hr hc

theorem Reads.of_node {k : Kind} {s : Span} {fields : List Tree}
    (hg : (Tree.node k s fields).every inGrammar = true) (h : ∀ t ∈ fields, t.Reads) :
    (Tree.node k s fields).Reads where
  events hu _ hr hc := events_covers hu hg h hr hc
  all _ _ _ hc := nomatch hc.head
  field hu _ hr hc := events_covers (hu _ List.mem_cons_self) hg h hr hc
  params hk trail hr := by
    obtain rfl : k = .parameters := by simpa [isKind, kind?] using hk
    rw [every, Bool.and_eq_true] at hg
    exact params_of_parameters hg.1 h hr

/-- A tree in the grammar is read as the rule has it. -/
theorem reads : ∀ t : Tree, t.every inGrammar = true → t.Reads := by
  intro t
  induction t using Tree.induct with
  | atom a => intro _; exact .of_atom a
  | list items ih =>
    intro hg
    rw [every, everyOfAll_iff] at hg
    exact .of_list fun t ht => ih t ht (hg t ht)
  | node k s fields ih =>
    intro hg
    have hfields := hg
    rw [every, Bool.and_eq_true, everyOfAll_iff] at hfields
    exact .of_node hg fun t ht => ih t ht (hfields.2 t ht)

end Tree

end ScopeLint
