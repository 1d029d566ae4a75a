import ScopeLint.Tree.Basic

/-! Induction over trees, with a hypothesis for every tree in a list or in the fields of a node, and
the kinds of all nodes of a tree and tests of all its nodes. -/

namespace ScopeLint.Tree

theorem induct {P : Tree → Prop} (atom : ∀ a, P (.atom a))
    (list : ∀ items, (∀ t ∈ items, P t) → P (.list items))
    (node : ∀ k s fields, (∀ t ∈ fields, P t) → P (.node k s fields)) : ∀ t, P t := by
  intro t
  refine @Tree.rec P (fun ts => ∀ t ∈ ts, P t) atom list node ?_ ?_ t
  · intro t ht
    cases ht
  · intro t ts ht hts u hu
    rcases List.mem_cons.mp hu with rfl | hu
    · exact ht
    · exact hts u hu

mutual

/-- The kinds of the nodes of a tree, the tree itself included. -/
def kinds : Tree → List Kind
  | .atom _ => []
  | .list items => kindsOfAll items
  | .node k _ fields => k :: kindsOfAll fields

def kindsOfAll : List Tree → List Kind
  | [] => []
  | t :: ts => kinds t ++ kindsOfAll ts

end

theorem kinds_subset_of_mem {t : Tree} : ∀ {ts : List Tree}, t ∈ ts → t.kinds ⊆ kindsOfAll ts := by
  intro ts
  induction ts with
  | nil => intro h; cases h
  | cons u ts ih =>
    intro h k hk
    rw [kindsOfAll, List.mem_append]
    rcases List.mem_cons.mp h with rfl | h
    · exact Or.inl hk
    · exact Or.inr (ih h hk)

mutual

/-- Whether a test holds of every node of a tree. -/
def every (p : Tree → Bool) : Tree → Bool
  | .atom _ => true
  | .list items => everyOfAll p items
  | .node k s fields => p (.node k s fields) && everyOfAll p fields

def everyOfAll (p : Tree → Bool) : List Tree → Bool
  | [] => true
  | t :: ts => every p t && everyOfAll p ts

end

/-- Whether a node has all the fields of its kind. -/
def hasFields : Tree → Bool
  | .node k _ fields => fields.length == k.fields.length
  | _ => true

theorem everyOfAll_iff {p : Tree → Bool} {ts : List Tree} :
    everyOfAll p ts = true ↔ ∀ t ∈ ts, t.every p = true := by
  induction ts with
  | nil => simp [everyOfAll]
  | cons t ts ih => simp [everyOfAll, ih]

theorem every_of_forall {p : Tree → Bool} (h : ∀ t, p t = true) : ∀ t : Tree, t.every p = true := by
  intro t
  induction t using Tree.induct with
  | atom a => rfl
  | list items ih =>
    rw [every, everyOfAll_iff]
    exact ih
  | node k s fields ih =>
    rw [every, h, Bool.true_and, everyOfAll_iff]
    exact ih

theorem every_mono {p q : Tree → Bool} (h : ∀ t, p t = true → q t = true) :
    ∀ {t : Tree}, t.every p = true → t.every q = true := by
  intro t
  induction t using Tree.induct with
  | atom a => exact fun _ => rfl
  | list items ih =>
    rw [every, every, everyOfAll_iff, everyOfAll_iff]
    exact fun hp t ht => ih t ht (hp t ht)
  | node k s fields ih =>
    rw [every, every, Bool.and_eq_true, Bool.and_eq_true, everyOfAll_iff, everyOfAll_iff]
    exact fun hp => ⟨h _ hp.1, fun t ht => ih t ht (hp.2 t ht)⟩

end ScopeLint.Tree
