import ScopeLint.Proofs.Scope.Attribution
import ScopeLint.Proofs.Scope.Imports
import ScopeLint.Proofs.Tree.Source

/-! Where the nodes stand that a visit of a source text meets. Around each of them are nodes of the text,
the module among them, and what occurs as a name is a node with a place of its own. -/

namespace ScopeLint

/-- Nodes of a source text around a place in it, the module among them. -/
structure Around (above : List Tree) : Prop where
  nodes : ∀ u ∈ above, u.every Tree.isSourceNode = true
  module : ∃ u ∈ above, u.isKind .module = true

theorem Around.cons {above : List Tree} (h : Around above) {t : Tree}
    (ht : t.every Tree.isSourceNode = true) : Around (t :: above) := by
  obtain ⟨u, hu, hm⟩ := h.module
  refine ⟨fun v hv => ?_, u, List.mem_cons_of_mem _ hu, hm⟩
  rcases List.mem_cons.mp hv with rfl | hv
  · exact ht
  · exact h.nodes v hv

/-- A node of a source text in its place. -/
structure Site.Stands (x : Site) : Prop where
  tree : x.tree.every Tree.isSourceNode = true
  above : Around x.above

/-- The kinds of the nodes of a source text that occur as a name. -/
def Kind.occurring : List Kind :=
  [.name, .functionDef, .classDef, .exceptHandler, .importStmt, .importFrom, .parameter]

/-- What a visit of a source text meets: nodes of the text, and global statements with names. -/
def Event.Stands : Event → Prop
  | .occur _ x => x.Stands ∧ x.tree.isOneOf Kind.occurring = true
  | .importing x => x.Stands ∧ x.tree.isImport = true
  | .declareGlobal names => ∀ t ∈ names, ∃ n, t = .atom (.str n)
  | _ => True

namespace Tree

/-- Whatever is visited inside a source text stands there. -/
structure Stands (t : Tree) : Prop where
  events : ∀ trail : Trail, Around trail.above → ∀ e ∈ t.events trail, e.Stands
  all : ∀ trail : Trail, Around trail.above → ∀ e ∈ t.allEvents trail, e.Stands
  nodes : ∀ items, t = .list items → ∀ trail : Trail, Around trail.above →
    ∀ e ∈ nodeEvents trail 0 items, e.Stands
  default : ∀ trail : Trail, Around trail.above → ∀ e ∈ t.defaultEvents trail, e.Stands

theorem stands_append {a b : List Event} (ha : ∀ e ∈ a, e.Stands) (hb : ∀ e ∈ b, e.Stands) :
    ∀ e ∈ a ++ b, e.Stands := List.forall_mem_append.mpr ⟨ha, hb⟩

theorem stands_cons {e : Event} {es : List Event} (he : e.Stands) (hes : ∀ e ∈ es, e.Stands) :
    ∀ d ∈ e :: es, d.Stands := List.forall_mem_cons.mpr ⟨he, hes⟩

theorem itemEvents_stand {ts : List Tree} (h : ∀ t ∈ ts, t.Stands) :
    ∀ (trail : Trail) (i : Nat), Around trail.above → ∀ e ∈ itemEvents trail i ts, e.Stands := by
  induction ts with
  | nil =>
    intro trail i _ e he
    rw [itemEvents] at he
    cases he
  | cons t ts ih =>
    intro trail i ha
    rw [itemEvents]
    apply stands_append
    · exact (h t List.mem_cons_self).events _ ha
    · exact ih (fun u hu => h u (List.mem_cons_of_mem _ hu)) _ _ ha

theorem nodeEvents_stand {ts : List Tree} (h : ∀ t ∈ ts, t.Stands) :
    ∀ (trail : Trail) (i : Nat), Around trail.above → ∀ e ∈ nodeEvents trail i ts, e.Stands := by
  induction ts with
  | nil =>
    intro trail i _ e he
    rw [nodeEvents] at he
    cases he
  | cons t ts ih =>
    intro trail i ha
    rw [nodeEvents]
    apply stands_append
    · split
      · exact (h t List.mem_cons_self).events _ ha
      · simp
    · exact ih (fun u hu => h u (List.mem_cons_of_mem _ hu)) _ _ ha

theorem fieldEvents_stand {ts : List Tree} (h : ∀ t ∈ ts, t.Stands) {trail : Trail}
    (ha : Around trail.above) : ∀ names : List String, ∀ e ∈ fieldEvents trail names ts, e.Stands := by
  induction ts with
  | nil =>
    intro names e he
    cases names <;> cases he
  | cons t ts ih =>
    intro names
    have ht := h t List.mem_cons_self
    cases names with
    | nil =>
      intro e he
      cases he
    | cons f names =>
      rw [fieldEvents_cons]
      apply stands_append
      · cases t with
        | list items => exact ht.nodes items rfl _ ha
        | atom a =>
          intro e he
          cases he
        | node k s fields => exact ht.events _ ha
      · exact ih (fun u hu => h u (List.mem_cons_of_mem _ hu)) names

theorem Stands.of_atom (a : Atom) : (Tree.atom a).Stands where
  events _ _ := by simp [Tree.events, notVisitable, Event.Stands]
  all trail _ := by
    rw [allEvents]
    split
    · intro e he
      obtain ⟨item, -, rfl⟩ := List.mem_map.mp he
      trivial
    · simp [Event.Stands]
  nodes _ h := by cases h
  default _ _ := by simp [defaultEvents, Event.Stands]

theorem Stands.of_list {items : List Tree} (h : ∀ t ∈ items, t.Stands) : (Tree.list items).Stands where
  events _ _ := by simp [Tree.events, notVisitable, Event.Stands]
  all trail ha := itemEvents_stand h trail 0 ha
  nodes _ he trail ha := by
    cases he
    exact nodeEvents_stand h trail 0 ha
  default _ _ := by simp [defaultEvents, Event.Stands]

theorem occurring_of_isImport {t : Tree} (h : t.isImport = true) : t.isOneOf Kind.occurring = true := by
  obtain ⟨k, hmem, hk⟩ := isOneOf_iff.mp h
  have hsub : ∀ k ∈ [Kind.importStmt, .importFrom], k ∈ Kind.occurring := by decide
  exact isOneOf_iff.mpr ⟨k, hsub k hmem, hk⟩

theorem importEvents_stand {site : Site} (hs : site.Stands) (hk : site.tree.isImport = true)
    (names : Tree) : ∀ e ∈ importEvents site names, e.Stands := by
  have hoccurs := occurring_of_isImport hk
  unfold importEvents
  refine stands_cons ⟨hs, hk⟩ ?_
  split
  · intro e he
    obtain ⟨item, -, rfl⟩ := List.mem_map.mp he
    unfold importedEvent
    split
    case h_3 => exact ⟨hs, hoccurs⟩
    all_goals trivial
  · simp [Event.Stands]

theorem futureEvents_stand (names : Tree) : ∀ e ∈ futureEvents names, e.Stands := by
  unfold futureEvents
  refine stands_cons trivial ?_
  split
  · intro e he
    obtain ⟨item, -, rfl⟩ := List.mem_map.mp he
    split <;> trivial
  · simp [Event.Stands]

theorem globalEvents_stand {names : Tree} (h : Slot.texts.fits names = true) :
    ∀ e ∈ globalEvents names, e.Stands := by
  cases names with
  | atom a => cases h
  | node k s fields => cases h
  | list items =>
    refine stands_cons (fun t ht => ?_) (by simp)
    obtain ⟨n, hn⟩ := Option.isSome_iff_exists.mp (List.all_eq_true.mp h t ht)
    exact ⟨n, eq_of_str? hn⟩

/-- In a source text, no parameter is given as a text. -/
theorem catchAllEvents_stand {site : Site} {t : Tree}
    (h : (Slot.optional (.ofKind .parameter)).fits t = true) {visited : List Event}
    (hv : ∀ e ∈ visited, e.Stands) : ∀ e ∈ catchAllEvents site t visited, e.Stands := by
  unfold catchAllEvents
  split
  · cases h
  · simp
  · exact hv

theorem parameters_fit {s : Span} {posonly args vararg kwonly keywords kwarg defaults : Tree}
    (h : (Tree.node .parameters s
      [posonly, args, vararg, kwonly, keywords, kwarg, defaults]).inGrammar = true) :
    (Slot.optional (.ofKind .parameter)).fits vararg = true ∧
      (Slot.optional (.ofKind .parameter)).fits kwarg = true := by
  change Slot.fitAll [.many _, .many _, .optional _, .many _, .manyOrNull _, .optional _, .many _] _ = true
    at h
  simp only [Slot.fitAll, Bool.and_eq_true] at h
  exact ⟨h.2.2.1, h.2.2.2.2.2.1⟩

theorem handlerNameEvents_stand {site : Site} (hs : site.Stands)
    (hk : site.tree.isOneOf Kind.occurring = true) (t : Tree) {visited : List Event}
    (hv : ∀ e ∈ visited, e.Stands) : ∀ e ∈ handlerNameEvents site t visited, e.Stands := by
  unfold handlerNameEvents
  split
  · exact stands_cons ⟨hs, hk⟩ (by simp)
  · split
    · exact hv
    · simp

theorem isOneOf_occurring {k : Kind} (s : Span) (fields : List Tree)
    (h : k.visitRule ∈ [.function, .classDef, .parameter, .name, .handler]) :
    (Tree.node k s fields).isOneOf Kind.occurring = true := by
  cases k <;> simp [Kind.visitRule] at h <;> rfl

theorem isImport_of_visitRule {k : Kind} (s : Span) (fields : List Tree)
    (h : k.visitRule = .importStmt ∨ k.visitRule = .importFrom) :
    (Tree.node k s fields).isImport = true := by
  cases k <;> simp [Kind.visitRule] at h <;> rfl

theorem events_stand_of_node {k : Kind} {s : Span} {fields : List Tree}
    (hn : (Tree.node k s fields).every isSourceNode = true) (h : ∀ t ∈ fields, t.Stands)
    {trail : Trail} (ha : Around trail.above) : ∀ e ∈ events trail (.node k s fields), e.Stands := by
  have hin : Around (trail.inside (.node k s fields)).above := ha.cons hn
  have hsite : (⟨trail, .node k s fields⟩ : Site).Stands := ⟨hn, ha⟩
  have hg := inGrammar_of_isSourceNode (isSourceNode_of_every hn)
  have hleave : ∀ e ∈ [Event.leave], e.Stands := by simp [Event.Stands]
  rw [events.eq_def]
  dsimp only
  split
  next hr => exact stands_append (stands_cons trivial (fieldEvents_stand h hin _)) hleave
  next name args body decorators _ _ hr =>
    have hself : Event.Stands (.occur name.str? ⟨trail, .node k s _⟩) :=
      ⟨hsite, isOneOf_occurring s _ (by simp [hr])⟩
    have harg := h args (by simp)
    refine stands_append (stands_append (stands_append (stands_append (stands_cons hself ?_) ?_)
      (stands_cons trivial ?_)) ?_) hleave
    · exact (h decorators (by simp)).all _ hin
    · exact harg.default _ hin
    · exact harg.events _ hin
    · exact (h body (by simp)).all _ hin
  next name bases _ body decorators hr =>
    have hself : Event.Stands (.occur name.str? ⟨trail, .node k s _⟩) :=
      ⟨hsite, isOneOf_occurring s _ (by simp [hr])⟩
    refine stands_append (stands_append (stands_append (stands_cons hself ?_) ?_)
      (stands_cons trivial ?_)) hleave
    · exact (h decorators (by simp)).all _ hin
    · exact (h bases (by simp)).all _ hin
    · exact (h body (by simp)).all _ hin
  next args body hr =>
    have harg := h args (by simp)
    refine stands_append (stands_append (stands_append ?_ (stands_cons trivial ?_)) ?_) hleave
    · exact harg.default _ hin
    · exact harg.events _ hin
    · exact (h body (by simp)).events _ hin
  next posonly args vararg kwonly _ kwarg _ hr =>
    refine stands_append ((h args (by simp)).all _ hin) ?_
    split
    · exact stands_cons trivial (by simp)
    next placed hplaced =>
      obtain rfl : k = .parameters := by cases k <;> first | rfl | cases hr
      obtain ⟨up, -, hplaced⟩ := except_bind_ok hplaced
      obtain ⟨s', rfl⟩ := placedBy_node hplaced
      -- Parameters have no place of their own, so the one that they take does not matter.
      have hin' : Around (trail.inside (.node .parameters s' _)).above := ha.cons hn
      obtain ⟨hvararg, hkwarg⟩ := parameters_fit hg
      refine stands_append (stands_append ?_ ?_) ?_
      · exact catchAllEvents_stand hvararg ((h vararg (by simp)).events _ hin')
      · exact catchAllEvents_stand hkwarg ((h kwarg (by simp)).events _ hin')
      · exact (h kwonly (by simp)).all _ hin'
  next hr => exact stands_cons ⟨hsite, isOneOf_occurring s _ (by simp [hr])⟩ (by simp)
  next hr => exact stands_cons ⟨hsite, isOneOf_occurring s _ (by simp [hr])⟩ (by simp)
  next names hr =>
    obtain rfl : k = .globalStmt := by cases k <;> first | rfl | cases hr
    obtain ⟨_, _, he, hnames, -⟩ := Slot.fitAll_cons hg
    cases he
    exact globalEvents_stand hnames
  next targets value _ hr =>
    apply stands_append
    · exact (h value (by simp)).events _ hin
    · exact (h targets (by simp)).all _ hin
  next type name body hr =>
    refine stands_append (stands_append ?_ ?_) ?_
    · exact (h type (by simp)).events _ hin
    · exact handlerNameEvents_stand hsite (isOneOf_occurring s _ (by simp [hr])) _
        ((h name (by simp)).events _ hin)
    · exact (h body (by simp)).all _ hin
  next hr => exact importEvents_stand hsite (isImport_of_visitRule s _ (Or.inl hr)) _
  next hr =>
    split
    · exact futureEvents_stand _
    · exact importEvents_stand hsite (isImport_of_visitRule s _ (Or.inr hr)) _
  next => exact fieldEvents_stand h hin _

theorem Stands.of_node {k : Kind} {s : Span} {fields : List Tree}
    (hn : (Tree.node k s fields).every isSourceNode = true) (h : ∀ t ∈ fields, t.Stands) :
    (Tree.node k s fields).Stands where
  events _ ha := events_stand_of_node hn h ha
  all _ _ := stands_cons trivial (by simp)
  nodes _ he := by cases he
  default trail ha := by
    have hin : Around (trail.inside (.node k s fields)).above := ha.cons hn
    rw [defaultEvents.eq_def]
    dsimp only
    split
    next keywords _ defaults hr =>
      apply stands_append
      · exact (h defaults (by simp)).all _ hin
      · exact (h keywords (by simp)).all _ hin
    next => exact stands_cons trivial (by simp)

theorem stands_of_every : ∀ t : Tree, t.every isSourceNode = true → t.Stands := by
  intro t
  induction t using Tree.induct with
  | atom a => exact fun _ => .of_atom a
  | list items ih =>
    intro h
    rw [every, everyOfAll_iff] at h
    exact .of_list fun t ht => ih t ht (h t ht)
  | node k s fields ih =>
    intro h
    have hfields := h
    rw [every, Bool.and_eq_true, everyOfAll_iff] at hfields
    exact .of_node h fun t ht => ih t ht (hfields.2 t ht)

/-- Whatever a visit of a source text meets stands there. -/
theorem IsSource.events_stand {t : Tree} (h : t.IsSource) : ∀ e ∈ t.events .start, e.Stands := by
  obtain ⟨hm, hn⟩ := h
  cases t with
  | atom a => cases hm
  | list items => cases hm
  | node k s fields =>
    obtain rfl : k = .module := by simpa [isKind, kind?] using hm
    have hfields := hn
    rw [every, Bool.and_eq_true, everyOfAll_iff] at hfields
    have hin : Around (Trail.start.inside (.node .module s fields)).above := by
      refine ⟨fun u hu => ?_, _, List.mem_cons_self, rfl⟩
      rw [List.mem_singleton.mp hu]
      exact hn
    refine stands_append (stands_cons trivial ?_) (by simp [Event.Stands])
    exact fieldEvents_stand (fun t ht => stands_of_every t (hfields.2 t ht)) hin _

/-- All that occurs in a source text stands there, and has a place of its own. -/
theorem IsSource.log_stands {t : Tree} (h : t.IsSource) :
    t.log.Passed fun x => x.Stands ∧ x.tree.isOneOf Kind.occurring = true :=
  Log.passed_empty.run fun _ _ hx => h.events_stand _ hx

end Tree

/-! ### What is looked for at a site -/

namespace Site

variable {x : Site}

theorem Stands.isSourceNode (h : x.Stands) : x.tree.isSourceNode = true :=
  Tree.isSourceNode_of_every h.tree

theorem Stands.parent_ok (h : x.Stands) :
    ∃ up, x.parent = .ok up ∧ up.every Tree.isSourceNode = true := by
  obtain ⟨u, hu, -⟩ := h.above.module
  rw [parent]
  cases hup : x.above with
  | nil =>
    rw [hup] at hu
    cases hu
  | cons up rest => exact ⟨up, rfl, h.above.nodes up (by simp [hup])⟩

theorem place_ok (h : x.Stands) (hk : x.tree.isOneOf Kind.occurring = true) :
    (∃ text, x.tree.lineText = .ok text) ∧ ∃ text, x.tree.placeText = .ok text := by
  refine Tree.place_ok ?_ (Tree.isPlaced_of_isSourceNode h.isSourceNode)
  rw [Tree.isOneOf] at hk
  cases hkind : x.tree.kind? with
  | none =>
    rw [hkind] at hk
    cases hk
  | some k =>
    rw [hkind] at hk
    have hall : ∀ k ∈ Kind.occurring, k.located = true := by decide
    exact hall k (List.contains_iff_mem.mp hk)

theorem isWrite_ok (h : x.Stands) (hk : x.tree.isOneOf Kind.occurring = true) :
    ∃ b, x.tree.isWrite = .ok b := by
  apply Tree.isWrite_ok
  · obtain ⟨k, hmem, hk⟩ := Tree.isOneOf_iff.mp hk
    have hall : ∀ k ∈ Kind.occurring, k = .name ∨ k ∈ Tree.binders := by decide
    rcases hall k hmem with rfl | hmem
    · exact Or.inl hk
    · exact Or.inr (Tree.isOneOf_iff.mpr ⟨k, hmem, hk⟩)
  · exact Tree.inGrammar_of_isSourceNode h.isSourceNode

end Site

/-- Going up from a node of a source text comes to an end. -/
theorem climb_ok {above : List Tree} (h : Around above) (part c : String) :
    ∃ c' up rest, climb part c above = .ok (c', up :: rest) ∧ up.every Tree.isSourceNode = true := by
  induction above generalizing c with
  | nil =>
    obtain ⟨u, hu, -⟩ := h.module
    cases hu
  | cons up rest ih =>
    rw [climb]
    split_ifs with hup
    · -- The node is an attribute, so the module is further up.
      have hattr : up.kind? = some .attribute := by
        rw [Bool.and_eq_true, Tree.isKind, beq_iff_eq] at hup
        exact hup.1
      obtain ⟨u, hu, hm⟩ := h.module
      refine ih ⟨fun v hv => h.nodes v (List.mem_cons_of_mem _ hv), u, ?_, hm⟩ _
      refine (List.mem_cons.mp hu).resolve_left ?_
      rintro rfl
      rw [Tree.isKind, hattr] at hm
      cases hm
    · exact ⟨c, up, rest, rfl, h.nodes up List.mem_cons_self⟩

/-- The attribute that is taken of a dotted expression is found, and it is a text. -/
theorem attributeAfter_ok {x : Site} (h : x.Stands) (expr : String) :
    attributeAfter expr x = .ok none ∨ ∃ n, attributeAfter expr x = .ok (some (.atom (.str n))) := by
  have htaken : ∀ up : Tree, up.every Tree.isSourceNode = true →
      (if up.isKind .attribute then .ok (up.get? "attr") else .ok none : Except Fault (Option Tree)) =
        .ok none ∨
      ∃ n, (if up.isKind .attribute then .ok (up.get? "attr") else .ok none :
        Except Fault (Option Tree)) = .ok (some (.atom (.str n))) := by
    intro up hup
    split_ifs with hk
    · obtain ⟨n, hn⟩ := Tree.attr_ok hk (Tree.inGrammar_of_isSourceNode (Tree.isSourceNode_of_every hup))
      exact Or.inr ⟨n, by rw [hn]⟩
    · exact Or.inl rfl
  unfold attributeAfter
  split
  · obtain ⟨u, hu, -⟩ := h.above.module
    cases habove : x.above with
    | nil =>
      rw [habove] at hu
      cases hu
    | cons up rest => exact htaken up (h.above.nodes up (by simp [habove]))
  · next part _ _ =>
    obtain ⟨c, up, rest, hclimb, hup⟩ := climb_ok h.above part x.tree.className
    rw [hclimb]
    exact htaken up hup

end ScopeLint
