import Mathlib.Data.Set.Function
import ScopeLint.Proofs.Template.Compiled
import ScopeLint.Proofs.Template.Spots

/-! What it means to be an instance of a template, and what every template is like that comes from a
function. An instance agrees with the template everywhere, and there is one way to give identifiers to
the captures of names, different ones to different captures, that agrees with all names captured. -/

namespace ScopeLint

namespace Template

mutual

/-- Whether a value is as a template says, where `σ` has the identifiers of the captured names. -/
def Fits (σ : String → String) : Template → Tree → Prop
  | .atom .null, t => t = .null
  | .atom a, t => ∃ c, t = .atom c ∧ c.valueEq a = true
  | .list us, t => ∃ ts, t = .list ts ∧ FitsAll σ us ts
  | .node k us, t => ∃ s ts, t = .node k s ts ∧ FitsFields σ us ts
  | .capture a c, t => c.holds t = true ∧ (c.bindsNames = true → t.identifier? = some (σ a))
  | .test c, t => ∃ d, c = some d ∧ d.holds t = true

/-- The lists have the same length, and every item fits. -/
def FitsAll (σ : String → String) : List Template → List Tree → Prop
  | [], ts => ts = []
  | u :: us, ts => ∃ t rest, ts = t :: rest ∧ Fits σ u t ∧ FitsAll σ us rest

/-- Every field fits that the node has. -/
def FitsFields (σ : String → String) : List Template → List Tree → Prop
  | [], _ => True
  | u :: us, ts => ∀ t rest, ts = t :: rest → Fits σ u t ∧ FitsFields σ us rest

end

/-- The value fits, with different identifiers for the names in a list. -/
def Instance (T : Template) (names : List String) (t : Tree) : Prop :=
  ∃ σ : String → String, Set.InjOn σ {a | a ∈ names} ∧ T.Fits σ t

/-- The parameters that are declared exactly as names. -/
def nameParams (params : List TemplateParam) : List String :=
  (params.filter fun p => p.2 == some (.one (.kind .name))).map Prod.fst

/-! ### Templates from functions -/

mutual

/-- Whether a test holds of a template and all that is below it, lists excepted. -/
def every (p : Template → Bool) : Template → Bool
  | .list us => everyOfAll p us
  | .node k us => p (.node k us) && everyOfAll p us
  | u => p u

def everyOfAll (p : Template → Bool) : List Template → Bool
  | [] => true
  | u :: us => every p u && everyOfAll p us

end

theorem everyOfAll_iff {p : Template → Bool} {us : List Template} :
    everyOfAll p us = true ↔ ∀ u ∈ us, u.every p = true := by
  induction us with
  | nil => simp [everyOfAll]
  | cons u us ih => simp [everyOfAll, ih]

/-- Constants are texts, numbers that are not complex, truth values or null, and tests are for
classes. -/
def isPlain : Template → Bool
  | .atom (.bytes _) | .atom (.complex _ _) | .atom .ellipsis => false
  | .test c => c.isSome
  | _ => true

/-- Templates that a match can be reported for by a node. -/
def standsForNode : Template → Bool
  | .node _ _ | .capture _ _ | .test _ => true
  | _ => false

/-- Nodes have all their fields, the value of a statement stands for a node, and the captures of
names are among some names. -/
def isMade (names : List String) : Template → Bool
  | .node k us => us.length == k.fields.length && (k != .exprStmt || us.all standsForNode)
  | .capture a c => !c.bindsNames || names.contains a
  | _ => true

end Template

namespace Tree

/-- A node as a parser makes it: with all its fields, and a node for the value of a statement. -/
def isParsed : Tree → Bool
  | .node k _ fields =>
    fields.length == k.fields.length && (k != .exprStmt || fields.all isNode)
  | _ => true

/-- What is a name has a text for its identifier. -/
def hasIdentifier (t : Tree) : Bool := !t.isKind .name || t.identifier?.isSome

end Tree

namespace Template

variable {params : List TemplateParam} {names : List String}

theorem length_ofTrees (ts : List Tree) : (ofTrees ts).length = ts.length := by
  induction ts with
  | nil => rfl
  | cons t ts ih => rw [ofTrees, List.length_cons, ih, List.length_cons]

theorem everyOfAll_ofTrees {p : Template → Bool} {ts : List Tree}
    (h : ∀ t ∈ ts, (ofTree t).every p = true) : everyOfAll p (ofTrees ts) = true := by
  induction ts with
  | nil => rfl
  | cons t ts ih =>
    rw [ofTrees, everyOfAll, h t List.mem_cons_self,
      ih fun u hu => h u (List.mem_cons_of_mem _ hu)]
    rfl

theorem standsForNode_ofTrees {ts : List Tree} (h : ts.all Tree.isNode = true) :
    (ofTrees ts).all standsForNode = true := by
  induction ts with
  | nil => rfl
  | cons t ts ih =>
    rw [List.all_cons, Bool.and_eq_true] at h
    rw [ofTrees, List.all_cons, ih h.2, Bool.and_true]
    cases t with
    | node k s fields => rfl
    | atom a => exact nomatch h.1
    | list items => exact nomatch h.1

/-- The fields of a parsed node give those of a template. -/
theorem isMade_node {k : Kind} {s : Span} {fields : List Tree} {us : List Template}
    (h : (Tree.node k s fields).isParsed = true) (hlen : us.length = fields.length)
    (hnodes : fields.all Tree.isNode = true → us.all standsForNode = true) :
    isMade names (.node k us) = true := by
  rw [Tree.isParsed, Bool.and_eq_true, beq_iff_eq, Bool.or_eq_true] at h
  rw [isMade, Bool.and_eq_true, beq_iff_eq, Bool.or_eq_true]
  exact ⟨hlen.trans h.1, h.2.imp_right hnodes⟩

theorem isMade_ofTree (names : List String) :
    ∀ t : Tree, t.every Tree.isParsed = true → (ofTree t).every (isMade names) = true := by
  intro t
  induction t using Tree.induct with
  | atom a => intro _; rfl
  | list items ih =>
    intro h
    rw [Tree.every, Tree.everyOfAll_iff] at h
    rw [ofTree, every]
    exact everyOfAll_ofTrees fun t ht => ih t ht (h t ht)
  | node k s fields ih =>
    intro h
    rw [Tree.every, Bool.and_eq_true, Tree.everyOfAll_iff] at h
    rw [ofTree, every, isMade_node h.1 (length_ofTrees fields) standsForNode_ofTrees, Bool.true_and]
    exact everyOfAll_ofTrees fun t ht => ih t ht (h.2 t ht)

theorem isMade_capture {name : String} {u : Template} (h : capture? params name = some u) :
    u.every (isMade (nameParams params)) = true ∧ u.standsForNode = true := by
  rw [capture?] at h
  obtain ⟨c, hc, hu⟩ := Option.bind_eq_some_iff.mp h
  cases hu
  rw [Option.join_eq_some_iff] at hc
  refine ⟨?_, rfl⟩
  change (!c.bindsNames || (nameParams params).contains name) = true
  rcases hb : c.bindsNames with _ | _
  · rfl
  · rw [CaptureClass.bindsNames, beq_iff_eq] at hb
    subst hb
    rw [Bool.not_true, Bool.false_or, List.contains_iff_mem, nameParams, List.mem_map]
    exact ⟨_, List.mem_filter.mpr ⟨mem_of_lookup hc, by simp⟩, rfl⟩

/-- What is taken as a whole. -/
theorem isMade_sealed {t : Tree} (ht : t.isSealed = true) (hp : t.every Tree.isParsed = true) :
    ((t.replacement? params).getD (ofTree t)).every (isMade (nameParams params)) = true ∧
      ((t.replacement? params).getD (ofTree t)).standsForNode = true := by
  cases hr : t.replacement? params with
  | some r =>
    rcases hole_of_replacement? hr with ⟨_, _, _, hcapture⟩ | ⟨c, rfl⟩
    · exact isMade_capture hcapture
    · exact ⟨rfl, rfl⟩
  | none =>
    refine ⟨isMade_ofTree _ t hp, ?_⟩
    cases t with
    | atom a => cases ht
    | list items => cases ht
    | node k s fields => rfl

/-- What a tree compiles to is made as it should be, and a node gives what stands for a node. -/
def MadeFrom (params : List TemplateParam) (t : Tree) : Prop :=
  ∀ u, Compiled params t u → t.every Tree.isParsed = true →
    u.every (isMade (nameParams params)) = true ∧ (t.isNode = true → u.standsForNode = true)

theorem isMade_all {ts : List Tree} {us : List Template} (ih : ∀ t ∈ ts, MadeFrom params t)
    (hp : ∀ t ∈ ts, t.every Tree.isParsed = true) (h : List.Forall₂ (Compiled params) ts us) :
    (∀ u ∈ us, u.every (isMade (nameParams params)) = true) ∧
      (ts.all Tree.isNode = true → us.all standsForNode = true) := by
  induction h with
  | nil => exact ⟨List.forall_mem_nil _, id⟩
  | cons hfirst _ iht =>
    rw [List.forall_mem_cons] at ih hp
    obtain ⟨hmade, hnode⟩ := ih.1 _ hfirst hp.1
    obtain ⟨hall, hnodes⟩ := iht ih.2 hp.2
    refine ⟨List.forall_mem_cons.mpr ⟨hmade, hall⟩, fun h => ?_⟩
    rw [List.all_cons, Bool.and_eq_true] at h ⊢
    exact ⟨hnode h.1, hnodes h.2⟩

theorem isMade_of_compiled (params : List TemplateParam) (t : Tree) : MadeFrom params t := by
  induction t using Tree.induct with
  | atom a =>
    intro u h _
    cases h with
    | sealed ht => cases ht
    | atom _ => exact ⟨rfl, fun hnode => by cases hnode⟩
  | list items ih =>
    intro u h hp
    cases h with
    | sealed ht => cases ht
    | list _ h =>
      rw [Tree.every, Tree.everyOfAll_iff] at hp
      rw [every, everyOfAll_iff]
      exact ⟨(isMade_all ih hp h).1, fun hnode => by cases hnode⟩
  | node k s fields ih =>
    intro u h hp
    cases h with
    | sealed ht => exact (isMade_sealed ht hp).imp_right fun hnode _ => hnode
    | node _ h =>
      rw [Tree.every, Bool.and_eq_true, Tree.everyOfAll_iff] at hp
      obtain ⟨hall, hnodes⟩ := isMade_all ih hp.2 h
      refine ⟨?_, fun _ => rfl⟩
      rw [every, isMade_node hp.1 h.length_eq.symm hnodes, Bool.true_and, everyOfAll_iff]
      exact hall

/-- Templates as functions give them: well made, and a node or a list that begins with one. -/
structure Made (names : List String) (T : Template) : Prop where
  every : T.every (isMade names) = true
  root : T.standsForNode = true ∨ ∃ u us, T = .list (u :: us) ∧ u.standsForNode = true

theorem made_ofFunction {body : List Tree} {out out' : List String} {T : Template}
    (hbody : body ≠ []) (hp : ∀ t ∈ body, t.every Tree.isParsed = true)
    (h : (ofFunction params body).run out = (.ok T, out')) : Made (nameParams params) T := by
  have hT := compiled_ofFunction h
  unfold Tree.pattern at hT
  split at hT
  next s value =>
    rw [List.forall_mem_singleton, Tree.every, Bool.and_eq_true, Tree.everyOfAll_iff,
      List.forall_mem_singleton] at hp
    have hvalue : 1 = Kind.exprStmt.fields.length ∧ value.isNode = true := by
      simpa [Tree.isParsed] using hp.1
    obtain ⟨hmade, hnode⟩ := isMade_of_compiled params value T hT hp.2
    exact ⟨hmade, Or.inl (hnode hvalue.2)⟩
  next =>
    have hlist : (Tree.list body).every Tree.isParsed = true := by
      rw [Tree.every, Tree.everyOfAll_iff]
      exact hp
    refine ⟨(isMade_of_compiled params _ T hT hlist).1, Or.inr ?_⟩
    cases hT with
    | sealed ht => cases ht
    | list hnodes hall =>
      obtain _ | ⟨hfirst, _⟩ := hall
      · exact absurd rfl hbody
      · refine ⟨_, _, rfl, (isMade_of_compiled params _ _ hfirst ?_).2 ?_⟩
        · exact hp _ List.mem_cons_self
        · exact hnodes _ List.mem_cons_self

end Template

end ScopeLint
