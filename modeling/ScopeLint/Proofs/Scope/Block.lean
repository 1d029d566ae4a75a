import ScopeLint.Proofs.Fault
import ScopeLint.Proofs.Tree.Induction
import ScopeLint.Scope.Visit

/-! The events of a visit form blocks: every scope that is entered is left again, and what is entered
inside a block belongs to a class, a function or a lambda. The occurrences in a block are names of the
tree that is visited, or nodes that bind a name by being there. -/

namespace ScopeLint

namespace Tree

def isFunction (t : Tree) : Bool := t.isOneOf [.functionDef, .lambda]

/-- Whether a node opens a scope inside a module. -/
def opensInner (t : Tree) : Bool := t.isKind .classDef || t.isFunction

end Tree

namespace Event

/-- Events that neither enter nor leave a scope, where what occurs passes a test. -/
def isPlain (ok : Tree → Bool) : Event → Bool
  | .enter _ | .leave => false
  | .occur _ x => ok x.tree
  | _ => true

end Event

/-- Events that leave what they enter. -/
inductive Block (ok : Tree → Bool) : List Event → Prop
  | nil : Block ok []
  | plain {e : Event} (h : e.isPlain ok = true) : Block ok [e]
  | append {a b : List Event} (ha : Block ok a) (hb : Block ok b) : Block ok (a ++ b)
  | scope {owner : Tree} {es : List Event} (ho : owner.opensInner = true) (hes : Block ok es) :
      Block ok (.enter owner :: es ++ [.leave])

variable {ok : Tree → Bool}

namespace Block

theorem cons {e : Event} {es : List Event} (h : e.isPlain ok = true) (hes : Block ok es) :
    Block ok (e :: es) := (Block.plain h).append hes

theorem of_plain {es : List Event} (h : ∀ e ∈ es, e.isPlain ok = true) : Block ok es := by
  induction es with
  | nil => exact .nil
  | cons e es ih =>
    exact .cons (h e List.mem_cons_self) (ih fun d hd => h d (List.mem_cons_of_mem _ hd))

/-- A scope after other events. -/
theorem append_scope {owner : Tree} {pre es : List Event} (ho : owner.opensInner = true)
    (hpre : Block ok pre) (hes : Block ok es) :
    Block ok (pre ++ .enter owner :: es ++ [Event.leave]) := by
  rw [List.append_assoc]
  exact hpre.append (.scope ho hes)

theorem append_scope_append {owner : Tree} {pre a b : List Event} (ho : owner.opensInner = true)
    (hpre : Block ok pre) (ha : Block ok a) (hb : Block ok b) :
    Block ok (pre ++ .enter owner :: a ++ b ++ [Event.leave]) := by
  rw [List.append_assoc pre, List.cons_append]
  exact append_scope ho hpre (ha.append hb)

end Block

namespace Tree

theorem isPlain_importedEvent {site : Site} (hs : ok site.tree = true) (item : Tree) :
    (importedEvent site item).isPlain ok = true := by
  unfold importedEvent
  split
  case h_3 => exact hs
  all_goals rfl

theorem importEvents_plain {site : Site} (hs : ok site.tree = true) (names : Tree) :
    ∀ e ∈ importEvents site names, e.isPlain ok = true := by
  refine List.forall_mem_cons.mpr ⟨rfl, ?_⟩
  split
  · intro e he
    obtain ⟨item, -, rfl⟩ := List.mem_map.mp he
    exact isPlain_importedEvent hs item
  · exact List.forall_mem_singleton.mpr rfl

theorem futureEvents_plain (names : Tree) : ∀ e ∈ futureEvents names, e.isPlain ok = true := by
  refine List.forall_mem_cons.mpr ⟨rfl, ?_⟩
  split
  · intro e he
    obtain ⟨item, -, rfl⟩ := List.mem_map.mp he
    split <;> rfl
  · exact List.forall_mem_singleton.mpr rfl

theorem globalEvents_block (names : Tree) : Block ok (globalEvents names) := by
  unfold globalEvents
  split
  · exact .plain rfl
  · exact .of_plain (by simp [Event.isPlain])

theorem catchAllEvents_block {site : Site} (hs : ok site.tree = true) (t : Tree)
    {visited : List Event} (h : Block ok visited) : Block ok (catchAllEvents site t visited) := by
  unfold catchAllEvents
  split
  · exact .plain hs
  · exact .nil
  · exact h

theorem handlerNameEvents_block {site : Site} (hs : ok site.tree = true) (t : Tree)
    {visited : List Event} (h : Block ok visited) : Block ok (handlerNameEvents site t visited) := by
  unfold handlerNameEvents
  split
  · exact .plain hs
  · split
    · exact h
    · exact .nil

/-- In each of the ways in which a tree is visited, its events form a block. -/
structure Blocks (ok : Tree → Bool) (t : Tree) : Prop where
  events : ∀ trail, Block ok (t.events trail)
  all : ∀ trail, Block ok (t.allEvents trail)
  nodes : ∀ items, t = .list items → ∀ trail, Block ok (nodeEvents trail 0 items)
  default : ∀ trail, Block ok (t.defaultEvents trail)

theorem itemEvents_block {ts : List Tree} (h : ∀ t ∈ ts, t.Blocks ok) :
    ∀ (trail : Trail) (i : Nat), Block ok (itemEvents trail i ts) := by
  induction ts with
  | nil => intro trail i; rw [itemEvents]; exact .nil
  | cons t ts ih =>
    intro trail i
    rw [itemEvents]
    exact ((h t List.mem_cons_self).events _).append
      (ih (fun u hu => h u (List.mem_cons_of_mem _ hu)) _ _)

theorem nodeEvents_block {ts : List Tree} (h : ∀ t ∈ ts, t.Blocks ok) :
    ∀ (trail : Trail) (i : Nat), Block ok (nodeEvents trail i ts) := by
  induction ts with
  | nil => intro trail i; rw [nodeEvents]; exact .nil
  | cons t ts ih =>
    intro trail i
    rw [nodeEvents]
    refine Block.append ?_ (ih (fun u hu => h u (List.mem_cons_of_mem _ hu)) _ _)
    split
    · exact (h t List.mem_cons_self).events _
    · exact .nil

theorem fieldEvents_block {ts : List Tree} (h : ∀ t ∈ ts, t.Blocks ok) :
    ∀ (trail : Trail) (names : List String), Block ok (fieldEvents trail names ts) := by
  induction ts with
  | nil =>
    intro trail names
    cases names <;> exact Block.nil
  | cons t ts ih =>
    intro trail names
    have ht := h t List.mem_cons_self
    cases names with
    | nil => exact Block.nil
    | cons name names =>
      have hrest := ih (fun u hu => h u (List.mem_cons_of_mem _ hu)) trail names
      cases t with
      | list items => exact (ht.nodes items rfl _).append hrest
      | atom a => exact hrest
      | node k s fields => exact (ht.events _).append hrest

theorem Blocks.of_atom (a : Atom) : (Tree.atom a).Blocks ok where
  events _ := .plain rfl
  all trail := by
    rw [allEvents]
    split
    · refine .of_plain fun e he => ?_
      obtain ⟨item, -, rfl⟩ := List.mem_map.mp he
      rfl
    · exact .plain rfl
  nodes _ h := by cases h
  default _ := .plain rfl

theorem Blocks.of_list {items : List Tree} (h : ∀ t ∈ items, t.Blocks ok) :
    (Tree.list items).Blocks ok where
  events _ := .plain rfl
  all trail := itemEvents_block h trail 0
  nodes _ he trail := by
    cases he
    exact nodeEvents_block h trail 0
  default _ := .plain rfl

/-- The nodes that a rule for scopes is for. -/
theorem opensInner_of_visitRule {k : Kind} (s : Span) (fields : List Tree)
    (h : k.visitRule = .function ∨ k.visitRule = .classDef ∨ k.visitRule = .lambda) :
    (Tree.node k s fields).opensInner = true := by
  cases k <;> simp [Kind.visitRule] at h <;> rfl

/-- The nodes other than names that are occurrences of a name. -/
theorem isOneOf_binders {k : Kind} (s : Span) (fields : List Tree)
    (h : k.visitRule ∈ [.function, .classDef, .parameters, .parameter, .handler, .importStmt,
      .importFrom]) : (Tree.node k s fields).isOneOf binders = true := by
  cases k <;> simp [Kind.visitRule] at h <;> rfl

theorem isKind_name_of_visitRule {k : Kind} (s : Span) (fields : List Tree)
    (h : k.visitRule = .name) : (Tree.node k s fields).isKind .name = true := by
  cases k <;> simp [Kind.visitRule] at h
  rfl

theorem placedBy_node {k : Kind} {s : Span} {fields : List Tree} {up placed : Tree}
    (h : placedBy k s fields up = .ok placed) : ∃ s', placed = .node k s' fields := by
  unfold placedBy at h
  rcases hl : up.get "lineno" with fault | line
  · rw [hl] at h
    cases h
  rcases hc : up.get "col_offset" with fault | column
  · rw [hl, hc] at h
    cases h
  rw [hl, hc] at h
  cases h
  exact ⟨_, rfl⟩

/-- Names pass the test, and so does what binds a name by being there. -/
structure Passes (ok : Tree → Bool) (t : Tree) : Prop where
  binder : ∀ u : Tree, u.isOneOf binders = true → ok u = true
  name : t.every (fun u => !u.isKind .name || ok u) = true

theorem events_block_of_node {k : Kind} {s : Span} {fields : List Tree} (hk : k ≠ .module)
    (hok : (Tree.node k s fields).Passes ok) (h : ∀ t ∈ fields, t.Blocks ok) (trail : Trail) :
    Block ok (events trail (.node k s fields)) := by
  have hbinder (s' : Span) (hr : k.visitRule ∈ [.function, .classDef, .parameters, .parameter,
      .handler, .importStmt, .importFrom]) : ok (.node k s' fields) = true :=
    hok.binder _ (isOneOf_binders s' fields hr)
  rw [events.eq_def]
  dsimp only
  split
  next hr => exact absurd hr (by cases k <;> simp [Kind.visitRule] at hk ⊢)
  next name args body decorators _ _ hr =>
    have harg := h args (by simp)
    have hself : Event.isPlain ok (.occur name.str? ⟨trail, .node k s _⟩) = true :=
      hbinder s (by simp [hr])
    exact .append_scope_append (opensInner_of_visitRule s _ (Or.inl hr))
      ((Block.cons hself ((h decorators (by simp)).all _)).append (harg.default _))
      (harg.events _) ((h body (by simp)).all _)
  next name bases _ body decorators hr =>
    have hself : Event.isPlain ok (.occur name.str? ⟨trail, .node k s _⟩) = true :=
      hbinder s (by simp [hr])
    exact .append_scope (opensInner_of_visitRule s _ (Or.inr (Or.inl hr)))
      ((Block.cons hself ((h decorators (by simp)).all _)).append ((h bases (by simp)).all _))
      ((h body (by simp)).all _)
  next args body hr =>
    have harg := h args (by simp)
    exact .append_scope_append (opensInner_of_visitRule s _ (Or.inr (Or.inr hr)))
      (harg.default _) (harg.events _) ((h body (by simp)).events _)
  next args vararg kwonly _ kwarg _ hr =>
    refine Block.append ((h args (by simp)).all _) ?_
    split
    · exact .plain rfl
    next placed hplaced =>
      obtain ⟨up, _, hplaced⟩ := except_bind_ok hplaced
      obtain ⟨s', rfl⟩ := placedBy_node hplaced
      have hsite := hbinder s' (by simp [hr])
      exact ((catchAllEvents_block hsite _ ((h vararg (by simp)).events _)).append
        (catchAllEvents_block hsite _ ((h kwarg (by simp)).events _))).append
          ((h kwonly (by simp)).all _)
  next hr => exact .plain (hbinder s (by simp [hr]))
  next hr =>
    have hname := hok.name
    rw [every, Bool.and_eq_true, isKind_name_of_visitRule s _ hr] at hname
    exact .plain hname.1
  next => exact globalEvents_block _
  next targets value _ hr => exact ((h value (by simp)).events _).append ((h targets (by simp)).all _)
  next type name body hr =>
    exact (((h type (by simp)).events _).append
      (handlerNameEvents_block (hbinder s (by simp [hr])) _ ((h name (by simp)).events _))).append
        ((h body (by simp)).all _)
  next hr => exact .of_plain (importEvents_plain (hbinder s (by simp [hr])) _)
  next hr =>
    split
    · exact .of_plain (futureEvents_plain _)
    · exact .of_plain (importEvents_plain (hbinder s (by simp [hr])) _)
  next => exact fieldEvents_block h _ _

theorem Blocks.of_node {k : Kind} {s : Span} {fields : List Tree} (hk : k ≠ .module)
    (hok : (Tree.node k s fields).Passes ok) (h : ∀ t ∈ fields, t.Blocks ok) :
    (Tree.node k s fields).Blocks ok where
  events := events_block_of_node hk hok h
  all _ := .plain rfl
  nodes _ he := by cases he
  default trail := by
    rw [defaultEvents.eq_def]
    dsimp only
    split
    next keywords _ defaults hr =>
      exact ((h defaults (by simp)).all _).append ((h keywords (by simp)).all _)
    next => exact .plain rfl

theorem Passes.of_mem_list {items : List Tree} (h : (Tree.list items).Passes ok) {t : Tree}
    (ht : t ∈ items) : t.Passes ok := by
  have hname := h.name
  rw [every, everyOfAll_iff] at hname
  exact ⟨h.binder, hname t ht⟩

theorem Passes.of_mem_fields {k : Kind} {s : Span} {fields : List Tree}
    (h : (Tree.node k s fields).Passes ok) {t : Tree} (ht : t ∈ fields) : t.Passes ok := by
  have hname := h.name
  rw [every, Bool.and_eq_true, everyOfAll_iff] at hname
  exact ⟨h.binder, hname.2 t ht⟩

theorem passes_any (t : Tree) : t.Passes fun _ => true :=
  ⟨fun _ _ => rfl, every_of_forall (fun _ => Bool.or_true _) t⟩

/-- A tree without modules is visited in blocks. -/
theorem blocks_of_kinds : ∀ (t : Tree), .module ∉ t.kinds → t.Passes ok → t.Blocks ok := by
  intro t
  induction t using Tree.induct with
  | atom a => intro _ _; exact .of_atom a
  | list items ih =>
    intro hm hok
    exact .of_list fun t ht => ih t ht (fun hk => hm (kinds_subset_of_mem ht hk)) (hok.of_mem_list ht)
  | node k s fields ih =>
    intro hm hok
    rw [kinds, List.mem_cons, not_or] at hm
    exact .of_node (Ne.symm hm.1) hok fun t ht =>
      ih t ht (fun hk => hm.2 (kinds_subset_of_mem ht hk)) (hok.of_mem_fields ht)

/-- The events of a module around no other module. -/
theorem events_of_module {t : Tree} (hm : t.isKind .module = true) (hone : t.kinds.count .module = 1)
    (hok : t.Passes ok) (trail : Trail) :
    ∃ es, t.events trail = .enter t :: es ++ [Event.leave] ∧ Block ok es := by
  cases t with
  | atom a => cases hm
  | list items => cases hm
  | node k s fields =>
    obtain rfl : k = .module := by simpa [isKind, kind?] using hm
    rw [kinds, List.count_cons_self, Nat.add_eq_right, List.count_eq_zero] at hone
    refine ⟨_, rfl, fieldEvents_block (fun t ht => blocks_of_kinds t (fun hk => ?_) ?_) _ _⟩
    · exact hone (kinds_subset_of_mem ht hk)
    · exact hok.of_mem_fields ht

end Tree

end ScopeLint
