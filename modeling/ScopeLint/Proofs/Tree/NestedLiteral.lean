import Mathlib.Data.List.Lex
import ScopeLint.Proofs.Fault
import ScopeLint.Proofs.Tree.Grammar
import ScopeLint.Tree.Literal

/-! Nested literals. Through the elements of lists and tuples one comes from an expression to the nodes
in it, each at the place that is given by the indices on the way. An expression has a value exactly if
all these nodes are lists, tuples, texts or numbers. The value then has the same shape, with the same
constants at the same places. Otherwise the first node that is none of these is told by its class, where
the order is that of the source and a list comes before its elements. -/

namespace ScopeLint

/-- Two lists are related if they are so at every index. -/
theorem forall₂_iff_rel {α β : Type} {R : α → β → Prop} {xs : List α} {ys : List β} :
    List.Forall₂ R xs ys ↔ ∀ i : Nat, Option.Rel R xs[i]? ys[i]? := by
  induction xs generalizing ys with
  | nil =>
    cases ys with
    | nil => exact ⟨fun _ _ => .none, fun _ => .nil⟩
    | cons y ys =>
      constructor
      · intro h
        cases h
      · intro h
        cases h 0
  | cons x xs ih =>
    cases ys with
    | nil =>
      constructor
      · intro h
        cases h
      · intro h
        cases h 0
    | cons y ys =>
      rw [List.forall₂_cons, ih]
      constructor
      · rintro ⟨hhead, htail⟩ (_ | i)
        · exact .some hhead
        · exact htail i
      · intro h
        refine ⟨?_, fun i => h (i + 1)⟩
        cases h 0 with
        | some hhead => exact hhead

/-- Whether a value is a text or a number. Truth values do not count. -/
def Atom.isPlain : Atom → Bool
  | .str _ | .int _ | .float _ | .complex _ _ => true
  | .null | .bool _ | .bytes _ | .ellipsis => false

/-- The part of a literal at a place. -/
def Literal.item? : Literal → List Nat → Option Literal
  | l, [] => some l
  | .list ls, i :: p => ls[i]?.bind fun l => l.item? p
  | .atom _, _ :: _ => none

namespace Tree

def isSequence (t : Tree) : Bool := t.isOneOf [.list, .tuple]

/-- The elements of a list or a tuple. -/
def elements? : Tree → Option (List Tree)
  | .node .list _ (.list ts :: _) | .node .tuple _ (.list ts :: _) => some ts
  | _ => none

/-- The node at a place, which one comes to through the elements of lists and tuples. -/
def element? : Tree → List Nat → Option Tree
  | t, [] => some t
  | t, i :: p => t.elements?.bind fun ts => ts[i]?.bind fun u => u.element? p

/-- Whether a node can stand in a literal. -/
def inLiteral (t : Tree) : Bool := t.isSequence || t.constant?.any Atom.isPlain

/-- All nodes that one comes to through the elements of lists and tuples can stand in a literal. -/
def IsNested (t : Tree) : Prop := ∀ p u, t.element? p = some u → u.inLiteral = true

/-- What a node alone says about its value. -/
def HasHead (t : Tree) : Literal → Prop
  | .atom a => t.constant? = some a ∧ a.isPlain = true
  | .list _ => t.isSequence = true

/-- A literal has something at the same places as a tree: a list for a list or a tuple, and the same
constants. -/
def Mirrors (t : Tree) (l : Literal) : Prop := ∀ p, Option.Rel HasHead (t.element? p) (l.item? p)

/-- The first node that cannot stand in a literal, and its place. -/
structure FirstOther (t : Tree) (p : List Nat) (u : Tree) : Prop where
  found : t.element? p = some u
  other : u.inLiteral = false
  first : ∀ q, List.Lex (· < ·) q p → ∀ w, t.element? q = some w → w.inLiteral = true

variable {t u : Tree} {ts : List Tree} {l : Literal}

/-! ### One node -/

theorem isSequence_of_elements? (h : t.elements? = some ts) : t.isSequence = true := by
  unfold elements? at h
  split at h
  · rfl
  · rfl
  · cases h

theorem constant?_of_isSequence (h : t.isSequence = true) : t.constant? = none := by
  unfold constant?
  split
  · cases h
  · rfl

theorem literalConstant?_eq (t : Tree) : t.literalConstant? = t.constant?.filter Atom.isPlain := by
  rw [literalConstant?, stringConstant?, numberConstant?]
  rcases t.constant? with _ | a
  · rfl
  · cases a <;> rfl

theorem literals_eq_mapM (ts : List Tree) : literals ts = ts.mapM literal := by
  induction ts with
  | nil => rfl
  | cons t ts ih => rw [literals, List.mapM_cons, ih]

theorem literal_of_elements? (h : t.elements? = some ts) :
    t.literal = (ts.mapM literal).map .list := by
  unfold elements? at h
  split at h
  · cases h
    rw [literal, if_pos (Or.inl rfl), literals_eq_mapM]
  · cases h
    rw [literal, if_pos (Or.inr rfl), literals_eq_mapM]
  · cases h

theorem literal_of_not_isSequence (h : t.isSequence = false) :
    t.literal = match t.constant?.filter Atom.isPlain with
      | some a => .ok (.atom a)
      | none => .error (.notLiteral t.className) := by
  cases t with
  | atom a => rfl
  | list items => rfl
  | node k s fields =>
    have hk : ¬(k = .list ∨ k = .tuple) := by
      rintro (rfl | rfl) <;> cases h
    rw [literal.eq_def, ← literalConstant?_eq]
    exact if_neg hk

/-- In the grammar a list or a tuple has elements. -/
theorem elements?_of_isSequence (h : t.isSequence = true) (hg : t.inGrammar = true) :
    ∃ ts, t.elements? = some ts := by
  cases t with
  | atom a => cases h
  | list items => cases h
  | node k s fields =>
    have hk : k = .list ∨ k = .tuple := by simpa [isSequence, isOneOf, kind?] using h
    have hslots : k.slots = [.many .expr, .one .context] := by rcases hk with rfl | rfl <;> rfl
    rw [inGrammar, hslots] at hg
    obtain ⟨elts, rest, rfl, hfits, -⟩ := Slot.fitAll_cons hg
    obtain ⟨ts, rfl⟩ := eq_list_of_many hfits
    refine ⟨ts, ?_⟩
    rcases hk with rfl | rfl <;> rfl

theorem inLiteral_of_hasHead (h : t.HasHead l) : t.inLiteral = true := by
  cases l with
  | atom a => simp [inLiteral, h.1, h.2]
  | list ls =>
    rw [inLiteral, h]
    rfl

theorem element?_cons (h : t.elements? = some ts) (i : Nat) (p : List Nat) :
    t.element? (i :: p) = ts[i]?.bind fun u => u.element? p := by
  rw [element?, h]
  rfl

/-! ### Induction over the nodes in an expression -/

/-- A property of expressions holds if it passes from the elements of a list or a tuple to the whole, and
holds of texts and numbers and of all that cannot stand in a literal. -/
theorem literal_induct {P : Tree → Prop}
    (sequence : ∀ t ts, t.elements? = some ts → (∀ u ∈ ts, u.every inGrammar = true) →
      (∀ u ∈ ts, P u) → P t)
    (constant : ∀ t a, t.elements? = none → t.constant? = some a → a.isPlain = true →
      t.literal = .ok (.atom a) → P t)
    (other : ∀ t, t.elements? = none → t.inLiteral = false →
      t.literal = .error (.notLiteral t.className) → P t) :
    ∀ t : Tree, t.every inGrammar = true → P t := by
  have hleaf : ∀ t : Tree, t.isSequence = false → P t := by
    intro t ht
    have hnone : t.elements? = none := by
      cases he : t.elements? with
      | none => rfl
      | some ts => rw [isSequence_of_elements? he] at ht; cases ht
    have hliteral := literal_of_not_isSequence ht
    cases hc : t.constant?.filter Atom.isPlain with
    | none =>
      rw [hc] at hliteral
      refine other t hnone ?_ hliteral
      rw [inLiteral, ht, Bool.false_or, ← Option.isSome_filter, hc]
      rfl
    | some a =>
      rw [hc] at hliteral
      obtain ⟨hconstant, hplain⟩ := Option.filter_eq_some_iff.mp hc
      exact constant t a hnone hconstant hplain hliteral
  -- The elements stand in a list in a field, so the induction carries them along with the field.
  suffices h : ∀ t : Tree, t.every inGrammar = true → P t ∧ ∀ us, t = .list us → ∀ u ∈ us, P u from
    fun t ht => (h t ht).1
  intro t
  induction t using Tree.induct with
  | atom a => exact fun _ => ⟨hleaf _ rfl, fun _ h => by cases h⟩
  | list items ih =>
    intro hg
    rw [every, everyOfAll_iff] at hg
    refine ⟨hleaf _ rfl, fun us hus u hu => ?_⟩
    cases hus
    exact (ih u hu (hg u hu)).1
  | node k s fields ih =>
    intro hg
    rw [every, Bool.and_eq_true, everyOfAll_iff] at hg
    refine ⟨?_, fun _ h => by cases h⟩
    cases hseq : (Tree.node k s fields).isSequence with
    | false => exact hleaf _ hseq
    | true =>
      obtain ⟨ts, hts⟩ := elements?_of_isSequence hseq hg.1
      have hmem : Tree.list ts ∈ fields := by
        unfold elements? at hts
        split at hts <;> simp_all
      have hlist := hg.2 _ hmem
      exact sequence _ ts hts (everyOfAll_iff.mp hlist) ((ih _ hmem hlist).2 ts rfl)

/-! ### The value -/

/-- Two elements mirror each other if all their parts do. -/
theorem rel_mirrors_iff {o : Option Tree} {o' : Option Literal} :
    Option.Rel Mirrors o o' ↔ ∀ p : List Nat, Option.Rel HasHead (o.bind fun u => u.element? p)
      (o'.bind fun l => l.item? p) := by
  constructor
  · rintro (h | _) p
    · exact h p
    · exact .none
  · intro h
    cases o with
    | none =>
      cases o' with
      | none => exact .none
      | some l => cases h []
    | some u =>
      cases o' with
      | none => cases h []
      | some l => exact .some h

/-- A list mirrors a list or a tuple if its items mirror the elements. -/
theorem mirrors_list_iff {ls : List Literal} (h : t.elements? = some ts) :
    t.Mirrors (.list ls) ↔ List.Forall₂ Mirrors ts ls := by
  rw [forall₂_iff_rel]
  constructor
  · intro hm i
    rw [rel_mirrors_iff]
    intro p
    rw [← element?_cons h]
    exact hm (i :: p)
  · intro hts p
    cases p with
    | nil => exact .some (isSequence_of_elements? h)
    | cons i p =>
      rw [element?_cons h]
      exact rel_mirrors_iff.mp (hts i) p

/-- Where there are no elements, the root is all there is. -/
theorem mirrors_atom_iff {a : Atom} (h : t.elements? = none) :
    t.Mirrors (.atom a) ↔ t.constant? = some a ∧ a.isPlain = true := by
  constructor
  · intro hm
    cases hm [] with
    | some hhead => exact hhead
  · intro hhead p
    cases p with
    | nil => exact .some hhead
    | cons i p =>
      rw [element?, h]
      exact .none

theorem Mirrors.hasHead (h : t.Mirrors l) : t.HasHead l := by
  cases h [] with
  | some hhead => exact hhead

theorem Mirrors.isNested (h : t.Mirrors l) : t.IsNested := by
  intro p u hu
  have hp := h p
  rw [hu] at hp
  generalize l.item? p = o at hp
  cases hp with
  | some hhead => exact inLiteral_of_hasHead hhead

/-- The value of an expression is the literal that mirrors it. -/
theorem literal_eq_ok_iff : ∀ t : Tree, t.every inGrammar = true → ∀ l,
    t.literal = .ok l ↔ t.Mirrors l := by
  refine literal_induct ?sequence ?constant ?other
  case sequence =>
    intro t ts hts _ ih l
    rw [literal_of_elements? hts]
    cases l with
    | atom a =>
      have hnone := constant?_of_isSequence (isSequence_of_elements? hts)
      constructor
      · intro h
        cases hmap : ts.mapM literal <;> rw [hmap] at h <;> cases h
      · intro h
        cases hnone.symm.trans h.hasHead.1
    | list ls =>
      have hvalues : (ts.mapM literal).map Literal.list = .ok (.list ls) ↔ ts.mapM literal = .ok ls := by
        cases ts.mapM literal <;> simp [Except.map]
      rw [hvalues, except_mapM_eq_ok, mirrors_list_iff hts]
      constructor
      · intro h
        exact ((List.forall₂_and_left _ _).mpr ⟨ih, h⟩).imp fun u l hu => (hu.1 l).mp hu.2
      · intro h
        exact ((List.forall₂_and_left _ _).mpr ⟨ih, h⟩).imp fun u l hu => (hu.1 l).mpr hu.2
  case constant =>
    intro t a hnone hconstant hplain hliteral l
    rw [hliteral]
    cases l with
    | atom b =>
      rw [mirrors_atom_iff hnone, hconstant]
      constructor
      · intro h
        cases h
        exact ⟨rfl, hplain⟩
      · rintro ⟨h, -⟩
        cases h
        rfl
    | list ls =>
      constructor
      · intro h
        cases h
      · intro h
        cases (constant?_of_isSequence h.hasHead).symm.trans hconstant
  case other =>
    intro t hnone hother hliteral l
    rw [hliteral]
    constructor
    · intro h
      cases h
    · intro h
      rw [inLiteral_of_hasHead h.hasHead] at hother
      cases hother

/-! ### The first fault -/

/-- An expression without a value has a first node that cannot stand in a literal. -/
theorem firstOther_of_error : ∀ t : Tree, t.every inGrammar = true → ∀ e, t.literal = .error e →
    ∃ p u, t.FirstOther p u ∧ e = .notLiteral u.className := by
  refine literal_induct ?sequence ?constant ?other
  case sequence =>
    intro t ts hts hg ih e he
    have hfault : ts.mapM literal = .error e := by
      rw [literal_of_elements? hts] at he
      cases hmap : ts.mapM literal <;> rw [hmap] at he <;> cases he
      rfl
    obtain ⟨i, v, hi, hv, hbefore⟩ := except_mapM_error hfault
    obtain ⟨p, u, hu, rfl⟩ := ih v (List.mem_of_getElem? hi) e hv
    refine ⟨i :: p, u, ⟨?_, hu.other, ?_⟩, rfl⟩
    · rw [element?_cons hts, hi]
      exact hu.found
    · -- What comes before is the whole, a part of an earlier element, or before `u` in the same element.
      intro q hq w hw
      cases hq with
      | nil =>
        cases hw
        rw [inLiteral, isSequence_of_elements? hts]
        rfl
      | rel hlt =>
        rw [element?_cons hts] at hw
        obtain ⟨b, hb, hw⟩ := Option.bind_eq_some_iff.mp hw
        obtain ⟨l, hl⟩ := hbefore _ hlt b hb
        have hb := hg b (List.mem_of_getElem? hb)
        exact ((literal_eq_ok_iff b hb l).mp hl).isNested _ w hw
      | cons hq =>
        rw [element?_cons hts, hi] at hw
        exact hu.first _ hq w hw
  case constant =>
    intro t a _ _ _ hliteral e he
    cases hliteral.symm.trans he
  case other =>
    intro t _ hother hliteral e he
    refine ⟨[], t, ⟨rfl, hother, fun q hq => by cases hq⟩, ?_⟩
    cases hliteral.symm.trans he
    rfl

theorem FirstOther.not_isNested {p : List Nat} (h : t.FirstOther p u) : ¬t.IsNested := by
  intro hn
  cases h.other.symm.trans (hn p u h.found)

theorem FirstOther.unique {p q : List Nat} {v : Tree} (h : t.FirstOther p u) (h' : t.FirstOther q v) :
    u = v := by
  rcases trichotomous_of (List.Lex (· < ·)) p q with hlt | rfl | hlt
  · cases h.other.symm.trans (h'.first p hlt u h.found)
  · exact Option.some.inj (h.found.symm.trans h'.found)
  · cases h'.other.symm.trans (h.first q hlt v h'.found)

theorem exists_literal_iff (hg : t.every inGrammar = true) : (∃ l, t.literal = .ok l) ↔ t.IsNested := by
  constructor
  · rintro ⟨l, hl⟩
    exact ((literal_eq_ok_iff t hg l).mp hl).isNested
  · intro hn
    cases hl : t.literal with
    | ok l => exact ⟨l, rfl⟩
    | error e =>
      obtain ⟨p, u, hu, -⟩ := firstOther_of_error t hg e hl
      exact absurd hn hu.not_isNested

/-- The fault of an expression without a value tells the class of the first node that cannot stand in a
literal. -/
theorem literal_eq_error_iff (hg : t.every inGrammar = true) {e : Fault} :
    t.literal = .error e ↔ ∃ p u, t.FirstOther p u ∧ e = .notLiteral u.className := by
  refine ⟨firstOther_of_error t hg e, ?_⟩
  rintro ⟨p, u, hu, rfl⟩
  cases hl : t.literal with
  | ok l => exact absurd ((exists_literal_iff hg).mp ⟨l, hl⟩) hu.not_isNested
  | error e =>
    obtain ⟨q, v, hv, rfl⟩ := firstOther_of_error t hg e hl
    rw [hu.unique hv]

theorem error_of_not_isNested (hg : t.every inGrammar = true) (hn : ¬t.IsNested) :
    ∃ c, t.literal = .error (.notLiteral c) := by
  cases hl : t.literal with
  | ok l => exact absurd ((exists_literal_iff hg).mp ⟨l, hl⟩) hn
  | error e =>
    obtain ⟨p, u, -, rfl⟩ := (literal_eq_error_iff hg).mp hl
    exact ⟨_, rfl⟩

end Tree

end ScopeLint
