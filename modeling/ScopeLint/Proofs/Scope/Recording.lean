import ScopeLint.Proofs.Scope.Reading
import ScopeLint.Proofs.Scope.Reference
import ScopeLint.Proofs.Tree.Sample

/-! A visit of a program that comes to its end has opened a scope for each node that has one and has
added each name and each parameter once, where the visit comes, in the scope that the rule gives. -/

namespace ScopeLint

namespace Site

/-- The fields on the way to a node. -/
def edges (x : Site) : List Edge := x.toTrail.edges

/-- What is to be told of a node. -/
def note (x : Site) : Note := x.place.note

end Site

/-- The note for a scope, where the scopes belong to the nodes at some ways. -/
def Note.ofScope (ways : List (List Step)) (s : Scope) (p : List Step) : Note :=
  ⟨s.parent.bind fun a => ways[a]?, none, p, s.owner⟩

theorem Tour.opens_inner {h : List Step} {es : List Event} {cs os : List Note} (ht : Tour h es cs os) :
    ∀ o ∈ os, o.name = none ∧ o.tree.opensInner = true := by
  induction ht with
  | nil | quiet | occur | imports => intro o ho; cases ho
  | append _ _ iha ihb =>
    intro o ho
    rcases List.mem_append.mp ho with ho | ho
    · exact iha o ho
    · exact ihb o ho
  | scope hin _ ih =>
    intro o ho
    rcases List.mem_cons.mp ho with rfl | ho
    · exact ⟨rfl, hin⟩
    · exact ih o ho

namespace Tree

theorem fields_covers_of_module {s : Span} {fields : List Tree}
    (hg : (Tree.node .module s fields).every inGrammar = true)
    (hc : Clean (fieldEvents (Trail.start.inside (.node .module s fields)) Kind.module.fields fields)) :
    Covers [] (fieldEvents (Trail.start.inside (.node .module s fields)) Kind.module.fields fields)
      (recorded (placesOfFields .module [] [] Kind.module.fields fields)) := by
  rw [every, Bool.and_eq_true, everyOfAll_iff] at hg
  refine fieldEvents_covers (fun f t hft hc => ?_) hc
  have ht := (List.of_mem_zip hft).2
  obtain ⟨slot, hslot, hfits⟩ := Slot.fits_of_mem hg.1 t ht
  have hslots : ∀ slot ∈ Kind.module.slots,
      slot.admits .parameters = false ∧ slot.admits .module = false := by
    decide
  have hreached : Reached [⟨.module, [], f⟩] := by
    refine ⟨List.cons_ne_nil _ _, ?_⟩
    simp [isReached, Edge.isSkipped]
  have hscope : scopeOf [⟨.module, [], f⟩] = [] := by
    rw [scopeOf]
    split_ifs <;> rfl
  exact (reads t (hg.2 t ht)).fieldIn (usual_of_fits hfits (hslots slot hslot)) .start .module s fields
    f hreached hscope hc

/-- A visit of a program as a tour inside the root. -/
theorem IsProgram.tour {t : Tree} (hp : t.IsProgram) {w : Workshop}
    (hrun : Workshop.start.run (t.events .start) = .ok w) :
    ∃ es cs os, t.events .start = .enter t :: es ++ [Event.leave] ∧ Tour [] es cs os ∧
      {⟨none, none, [], t⟩} + (↑(cs.filter fun c => c.tree.isMention) + ↑os : Multiset Note) =
        recorded (t.places [] []) := by
  obtain ⟨hm, hg⟩ := hp
  cases t with
  | atom a => cases hm
  | list items => cases hm
  | node k s fields =>
    obtain rfl : k = .module := by simpa [isKind, kind?] using hm
    have hc := Workshop.clean_of_run hrun
    obtain ⟨cs, os, ht, hsum⟩ := fields_covers_of_module hg hc.left.tail
    refine ⟨_, cs, os, rfl, ht, ?_⟩
    rw [places, recorded_cons_of_pos rfl, hsum]
    rfl

/-- The account of a whole visit. -/
theorem IsProgram.accounts {t : Tree} (hp : t.IsProgram) {w : Workshop}
    (hrun : Workshop.start.run (t.events .start) = .ok w) :
    ∃ cs os : List Note, w.stack = [] ∧
      {⟨none, none, [], t⟩} + (↑(cs.filter fun c => c.tree.isMention) + ↑os : Multiset Note) =
        recorded (t.places [] []) ∧ (∀ o ∈ os, o.name = none ∧ o.tree.opensInner = true) ∧
      (Workshop.start.added (t.events .start)).map (Note.ofAdded ([] :: os.map Note.path)) = cs ∧
      t.log.shape.map (fun s => (s.2.head?.bind fun a => ([] :: os.map Note.path)[a]?, s.1)) =
        (none, t) :: os.map fun o => (o.home, o.tree) := by
  obtain ⟨es, cs, os, hes, ht, hsum⟩ := hp.tour hrun
  have hlog : t.log = ((Log.empty.step (.enter t)).run es).step .leave := by
    rw [log, hes, Log.run_scope]
  rw [hes] at hrun ⊢
  obtain ⟨u, v, hu, hv, hz⟩ := Workshop.run_scope hrun
  obtain rfl : (⟨Forest.empty.push none t, [0]⟩ : Workshop) = u := by
    cases hu
    rfl
  have hstart := Workshop.follows_start hp.module
  obtain ⟨hf, hs⟩ := hstart.block ht.block (List.cons_ne_nil _ _) hv
  obtain ⟨f, -, rfl⟩ := Workshop.leave_ok hz (hf.stack.trans hs)
  have htold := ht.accounts ([] :: os.map Note.path) hstart rfl rfl (List.prefix_refl _) hv
  obtain ⟨ss, hss, hopen⟩ := htold.opens
  refine ⟨cs, os, ?_, hsum, ht.opens_inner, ?_, ?_⟩
  · rw [hf.stack, hs]
    rfl
  · rw [Workshop.added_scope hu hv hz]
    exact htold.adds
  · rw [hlog, Log.shape_step (by simp), hss, List.map_append, hopen]
    rfl

end Tree

/-- Scopes and notes that agree in what is told of the scopes. -/
theorem Note.zipWith_ofScope {ways : List (List Step)} {ss : List Scope} (os : List Note)
    (h : ss.map (fun s => (s.parent.bind fun a => ways[a]?, s.owner)) =
      os.map fun o => (o.home, o.tree)) (hname : ∀ o ∈ os, o.name = none) :
    ss.zipWith (Note.ofScope ways) (os.map Note.path) = os := by
  induction os generalizing ss with
  | nil =>
    rw [List.map_nil, List.map_eq_nil_iff] at h
    rw [h]
    rfl
  | cons o os ih =>
    cases ss with
    | nil => cases h
    | cons s ss =>
      rw [List.map_cons, List.map_cons] at h
      obtain ⟨hhead, htail⟩ := List.cons.inj h
      obtain ⟨hhome, hown⟩ := Prod.mk.inj hhead
      have hnone := hname o List.mem_cons_self
      rw [List.map_cons, List.zipWith_cons_cons,
        ih htail fun p hp => hname p (List.mem_cons_of_mem _ hp), Note.ofScope, hhome, hown, ← hnone]

/-- The scopes of a finished forest are those of the log. -/
theorem Forest.Realizes.shape {f : Forest} {L : Log} (h : f.Realizes L) :
    f.scopes.map (fun s => (s.parent, s.owner)) = L.shape.map fun s => (s.2.head?, s.1) := by
  apply List.ext_getElem
  · rw [List.length_map, List.length_map, Log.shape, List.length_map]
    exact h.size
  intro k hk hk'
  rw [List.length_map] at hk
  rw [List.length_map, Log.shape, List.length_map] at hk'
  have hs : f.scope? k = some f.scopes[k] := List.getElem?_eq_getElem hk
  have hr : L.record k = L.records[k] := by
    rw [Log.record, List.getD_eq_getElem?_getD, List.getElem?_eq_getElem hk']
    rfl
  simp only [Log.shape, List.getElem_map]
  rw [h.parent k _ hs, h.owner k _ hs, hr]

namespace Tree

theorem IsProgram.ownsScope {t : Tree} (h : t.IsProgram) : t.ownsScope = true := by
  have hm := h.module
  rw [isKind, beq_iff_eq] at hm
  rw [Tree.ownsScope, isOneOf, hm]
  rfl

theorem not_mention_of_ownsScope {t : Tree} (h : t.ownsScope = true) : t.isMention = false := by
  cases t with
  | node k s fields => cases k <;> first | rfl | cases h
  | atom a => rfl
  | list items => rfl

theorem ownsScope_of_opensInner {t : Tree} (h : t.opensInner = true) : t.ownsScope = true := by
  cases t with
  | node k s fields => cases k <;> first | rfl | cases h
  | atom a => cases h
  | list items => cases h

/-- No node both opens a scope and is an occurrence of a name by itself. -/
theorem filter_mentions_append (cs : List Note) {os : List Note} (hos : ∀ o ∈ os, o.tree.ownsScope = true) :
    let mentions := cs.filter fun c => c.tree.isMention
    (mentions ++ os).filter (fun n => n.tree.isMention) = mentions ∧
      (mentions ++ os).filter (fun n => n.tree.ownsScope) = os := by
  intro mentions
  have hnone : os.filter (fun n => n.tree.isMention) = [] := by
    refine List.filter_eq_nil_iff.mpr fun o ho => ?_
    rw [not_mention_of_ownsScope (hos o ho)]
    exact Bool.false_ne_true
  have hnone' : mentions.filter (fun n => n.tree.ownsScope) = [] := by
    refine List.filter_eq_nil_iff.mpr fun c hc hown => ?_
    have hmention := (List.mem_filter.mp hc).2
    rw [not_mention_of_ownsScope hown] at hmention
    cases hmention
  constructor
  · rw [List.filter_append, hnone, List.append_nil, List.filter_filter]
    simp [mentions]
  · rw [List.filter_append, hnone', List.nil_append]
    exact List.filter_eq_self.mpr hos

/-- What is to be told of the nodes that pass a test. -/
theorem filter_note (p : Tree → Bool) (hp : ∀ t, p t = true → (t.isMention || t.ownsScope) = true)
    (xs : List Site) :
    ((xs.filter fun x => x.place.isRecorded).map Site.note).filter (fun n => p n.tree) =
      (xs.filter fun x => p x.tree && isReached x.edges).map Site.note := by
  rw [List.filter_map, List.filter_filter]
  congr 1
  refine List.filter_congr fun x _ => ?_
  show (p x.tree && ((x.tree.isMention || x.tree.ownsScope) && isReached x.edges)) = _
  cases hpx : p x.tree with
  | false => rfl
  | true => rw [hp x.tree hpx]; rfl

end Tree

end ScopeLint
