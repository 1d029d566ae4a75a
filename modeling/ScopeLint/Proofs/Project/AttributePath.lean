import Mathlib.Data.List.TakeWhile
import ScopeLint.Proofs.Tree.Places
import ScopeLint.Proofs.Tree.Sample
import ScopeLint.Proofs.Tree.Source
import ScopeLint.Project.Import

/-! The attribute behind a dotted expression. Around a name that begins a chain of attributes stand
the nodes that take them, one of the other. The search goes past all those that take the first part
of the expression behind the name, however often that part comes, and answers with the next one. -/

namespace ScopeLint

namespace Tree

/-- The attribute that a node takes of its value. -/
def attribute? (t : Tree) : Option String :=
  if t.isKind .attribute then (t.get? "attr").bind str? else none

/-- The attributes that nodes take one of the other, up to the first node that takes none. -/
def attributes : List Tree → List String
  | [] => []
  | up :: rest =>
    match up.attribute? with
    | some a => a :: attributes rest
    | none => []

/-- The first attribute without a property is taken by the first node that does not take one
with it. -/
theorem find?_attributes (q : String → Bool) (above : List Tree) :
    (attributes above).find? (fun a => !q a) =
      (above.dropWhile fun u => u.attribute?.any q).head?.bind attribute? := by
  induction above with
  | nil => rfl
  | cons up rest ih =>
    rw [List.dropWhile_cons, attributes]
    cases h : up.attribute? with
    | none => simp [h]
    | some a =>
      rw [Option.any_some, List.find?_cons]
      cases q a with
      | true => exact ih
      | false => exact h.symm

/-- All nodes take an attribute with a property when they all take one, and the chain has no other. -/
theorem all_attributes (q : String → Bool) (above : List Tree) :
    (∀ u ∈ above, u.attribute?.any q = true) ↔
      (∀ u ∈ above, u.attribute?.isSome = true) ∧ ∀ a ∈ attributes above, q a = true := by
  induction above with
  | nil => simp [attributes]
  | cons up rest ih =>
    rw [List.forall_mem_cons, List.forall_mem_cons, ih, attributes]
    cases up.attribute? with
    | none => simp
    | some a =>
      rw [Option.any_some, Option.isSome_some, List.forall_mem_cons]
      tauto

theorem attribute?_eq {t : Tree} (ht : t.inGrammar = true) :
    (if t.isKind .attribute then t.get? "attr" else none) = t.attribute?.map fun a => .atom (.str a) := by
  rw [attribute?]
  split_ifs with hk
  · obtain ⟨n, hn⟩ := attr_ok hk ht
    rw [hn]
    rfl
  · rfl

theorem attribute?_isSome {t : Tree} (ht : t.inGrammar = true) :
    t.attribute?.isSome = t.isKind .attribute := by
  rw [attribute?]
  split_ifs with hk
  · obtain ⟨n, hn⟩ := attr_ok hk ht
    rw [hn, hk]
    rfl
  · exact (Bool.eq_false_iff.mpr hk).symm

theorem attribute?_any_eq (t : Tree) (part : String) :
    t.attribute?.any (some part == some ·) =
      (t.isKind .attribute && (t.get? "attr").any fun a => a.str? == some part) := by
  rw [attribute?]
  cases t.isKind .attribute with
  | false => rfl
  | true =>
    cases t.get? "attr" with
    | none => rfl
    | some a =>
      change a.str?.any _ = (a.str? == some part)
      cases a.str? with
      | none => rfl
      | some b => simp [eq_comm]

end Tree

namespace Site

/-- The attributes that are taken one of the other of the value at a site. -/
def attributes (x : Site) : List String := Tree.attributes x.above

end Site

/-! ### The way up -/

section Search

variable {x : Site} {expr first : String} {parts : List String}

/-- Whether a node takes the first of some parts. -/
def Tree.takesFirst (parts : List String) (u : Tree) : Bool :=
  u.attribute?.any fun a => parts.head? == some a

/-- Going up ends at the first node that does not take the part, if there is one. -/
theorem climb_cases (part : String) (parts : List String) (c : String) (above : List Tree) :
    (∃ c', climb part c above = .error (.missingAttribute c' "up") ∧
      above.dropWhile (Tree.takesFirst (part :: parts)) = []) ∨
    ∃ c' up rest, climb part c above = .ok (c', up :: rest) ∧
      above.dropWhile (Tree.takesFirst (part :: parts)) = up :: rest := by
  induction above generalizing c with
  | nil => exact Or.inl ⟨c, rfl, rfl⟩
  | cons up rest ih =>
    rw [climb, List.dropWhile_cons, Tree.takesFirst, List.head?_cons, Tree.attribute?_any_eq]
    split_ifs with hup
    · exact ih up.className
    · exact Or.inr ⟨c, up, rest, rfl, rfl⟩

/-- The search passes the nodes that take the first part behind the name, and asks the next one. -/
theorem attributeAfter_cases (hexpr : Text.dottedParts expr = first :: parts) :
    ((∃ c, attributeAfter expr x = .error (.missingAttribute c "up")) ∧
      x.above.dropWhile (Tree.takesFirst parts) = []) ∨
    ∃ up rest, attributeAfter expr x = .ok (if up.isKind .attribute then up.get? "attr" else none) ∧
      x.above.dropWhile (Tree.takesFirst parts) = up :: rest := by
  have hask (up : Tree) : (if up.isKind .attribute then pure (up.get? "attr") else pure none :
      Except Fault (Option Tree)) = .ok (if up.isKind .attribute then up.get? "attr" else none) := by
    split_ifs <;> rfl
  cases parts with
  | nil =>
    cases habove : x.above with
    | nil =>
      refine Or.inl ⟨⟨x.tree.className, ?_⟩, rfl⟩
      simp only [attributeAfter, hexpr, List.tail_cons, habove]
      rfl
    | cons up rest =>
      refine Or.inr ⟨up, rest, ?_, ?_⟩
      · simp only [attributeAfter, hexpr, List.tail_cons, habove]
        exact hask up
      · rw [List.dropWhile_cons, if_neg]
        simp [Tree.takesFirst]
  | cons part parts =>
    rcases climb_cases part parts x.tree.className x.above with ⟨c, hc, h⟩ | ⟨c, up, rest, hc, h⟩
    · refine Or.inl ⟨⟨c, ?_⟩, h⟩
      simp only [attributeAfter, hexpr, List.tail_cons, hc]
      rfl
    · refine Or.inr ⟨up, rest, ?_, h⟩
      simp only [attributeAfter, hexpr, List.tail_cons, hc]
      exact hask up

/-- The answer is the first attribute of the chain that is not the first part behind the name. -/
theorem attributeAfter_eq_ok (hexpr : Text.dottedParts expr = first :: parts)
    (hx : ∀ u ∈ x.above, u.inGrammar = true) (h : ¬∀ u ∈ x.above, u.takesFirst parts = true) :
    attributeAfter expr x =
      .ok ((x.attributes.find? fun a => !(parts.head? == some a)).map fun a => .atom (.str a)) := by
  rcases attributeAfter_cases hexpr with ⟨_, hnil⟩ | ⟨up, rest, hok, hup⟩
  · exact absurd (List.dropWhile_eq_nil_iff.mp hnil) h
  · have hmem : up ∈ x.above := (List.dropWhile_suffix _).subset (hup ▸ List.mem_cons_self)
    have hfirst : (x.above.dropWhile (Tree.takesFirst parts)).head?.bind Tree.attribute? =
        up.attribute? := by rw [hup, List.head?_cons, Option.bind_some]
    rw [hok, Tree.attribute?_eq (hx up hmem), ← hfirst, Site.attributes, Tree.find?_attributes]
    rfl

theorem attributeAfter_eq_error (hexpr : Text.dottedParts expr = first :: parts)
    (h : ∀ u ∈ x.above, u.takesFirst parts = true) :
    ∃ c, attributeAfter expr x = .error (.missingAttribute c "up") := by
  rcases attributeAfter_cases hexpr with ⟨herr, _⟩ | ⟨up, rest, _, hup⟩
  · exact herr
  · rw [List.dropWhile_eq_nil_iff.mpr h] at hup
    cases hup

theorem all_takesFirst_iff (hx : ∀ u ∈ x.above, u.inGrammar = true) (parts : List String) :
    (∀ u ∈ x.above, u.takesFirst parts = true) ↔
      (∀ u ∈ x.above, u.isKind .attribute = true) ∧ ∀ a ∈ x.attributes, parts.head? = some a := by
  refine (Tree.all_attributes _ _).trans (and_congr (forall₂_congr fun u hu => ?_) ?_)
  · rw [Tree.attribute?_isSome (hx u hu)]
  · exact forall₂_congr fun a _ => beq_iff_eq

/-- **The attribute behind a dotted expression.** Of the parts behind the name only the first one
counts. The answer is the attribute that follows any number of them in the chain around the name.
Where the chain has no other attribute there is no answer, and the search fails if the chain goes
up to the root of the tree. -/
theorem attributeAfter_of_chain {t : Tree} (ht : t.every Tree.inGrammar = true) (hx : x ∈ t.sites)
    (hexpr : Text.dottedParts expr = first :: parts) :
    (∀ a, attributeAfter expr x = .ok (some (.atom (.str a))) ↔
      ∃ run rest, x.attributes = run ++ a :: rest ∧ (∀ b ∈ run, parts.head? = some b) ∧
        parts.head? ≠ some a) ∧
    (attributeAfter expr x = .ok none ↔
      (∀ a ∈ x.attributes, parts.head? = some a) ∧ ∃ u ∈ x.above, u.isKind .attribute = false) ∧
    ((∃ c, attributeAfter expr x = .error (.missingAttribute c "up")) ↔
      (∀ a ∈ x.attributes, parts.head? = some a) ∧ ∀ u ∈ x.above, u.isKind .attribute = true) := by
  have hup := Tree.above_of_mem_sites ht hx
  have hall := all_takesFirst_iff hup parts
  by_cases h : ∀ u ∈ x.above, u.takesFirst parts = true
  · obtain ⟨c, hc⟩ := attributeAfter_eq_error hexpr h
    obtain ⟨hkind, hchain⟩ := hall.mp h
    refine ⟨fun a => ?_, ?_, ?_⟩
    · refine iff_of_false (by rw [hc]; exact nofun) ?_
      rintro ⟨run, rest, heq, -, ha⟩
      exact ha (hchain a (heq ▸ List.mem_append_right _ List.mem_cons_self))
    · refine iff_of_false (by rw [hc]; exact nofun) ?_
      rintro ⟨-, u, hu, hattr⟩
      exact absurd (hkind u hu) (by rw [hattr]; exact Bool.false_ne_true)
    · exact iff_of_true ⟨c, hc⟩ ⟨hchain, hkind⟩
  · have hok := attributeAfter_eq_ok hexpr hup h
    refine ⟨fun a => ?_, ?_, ?_⟩
    · rw [hok, Except.ok.injEq, Option.map_eq_some_iff]
      simp only [Tree.atom.injEq, Atom.str.injEq, exists_eq_right, List.find?_eq_some_iff_append,
        Bool.not_not, Bool.not_eq_true', beq_eq_false_iff_ne, beq_iff_eq]
      exact ⟨fun ⟨ha, run, rest, heq, hrun⟩ => ⟨run, rest, heq, hrun, ha⟩,
        fun ⟨run, rest, heq, hrun, ha⟩ => ⟨ha, run, rest, heq, hrun⟩⟩
    · rw [hok, Except.ok.injEq, Option.map_eq_none_iff, List.find?_eq_none]
      simp only [Bool.not_eq_true', beq_eq_false_iff_ne, ne_eq, not_not]
      refine (and_iff_left_of_imp fun hchain => ?_).symm
      by_contra hnone
      refine h (hall.mpr ⟨fun u hu => ?_, hchain⟩)
      exact (Bool.not_eq_false _).mp fun hattr => hnone ⟨u, hu, hattr⟩
    · refine iff_of_false ?_ fun ⟨hchain, hkind⟩ => h (hall.mpr ⟨hkind, hchain⟩)
      rintro ⟨c, hc⟩
      rw [hok] at hc
      cases hc

end Search

namespace Sample

/-- A program that evaluates a name with a chain of attributes behind it. -/
def chained (n : String) (attributes : List String) : Tree :=
  let taken := attributes.foldl (fun value a =>
    .node .attribute (place 1 0) [value, .atom (.str a), .node .load .absent []]) (name .load n 1 0)
  module [evaluated taken 1 0]

end Sample

/-- The part that is passed comes twice in the chain and once in the path. -/
theorem attributeAfter_of_chain_repeated_part :
    ∃ x ∈ (Sample.chained "a" ["b", "b", "c", "d"]).sites,
      x.attributes = ["b", "b"] ++ "c" :: ["d"] ∧
      attributeAfter "a.b.c" x = .ok (some (.atom (.str "c"))) := by
  have ht : (Sample.chained "a" ["b", "b", "c", "d"]).every Tree.inGrammar = true := by decide +kernel
  have hexpr : Text.dottedParts "a.b.c" = "a" :: ["b", "c"] := rfl
  refine ⟨_, List.mem_of_getElem? (i := 9) rfl, rfl, ?_⟩
  refine ((attributeAfter_of_chain ht (List.mem_of_getElem? (i := 9) rfl) hexpr).1 "c").mpr ?_
  exact ⟨["b", "b"], ["d"], rfl, by decide, by decide⟩

/-- A path of several parts is not followed to its end, a part that comes again is passed again, and
a chain that leaves the path is answered with where it goes. -/
theorem attributeAfter_leaves_path :
    (∃ x ∈ (Sample.chained "a" ["b", "c", "d"]).sites, x.tree.isKind .name = true ∧
      x.attributes = ["b", "c"] ++ ["d"] ∧
      attributeAfter "a.b.c" x = .ok (some (.atom (.str "c")))) ∧
    (∃ x ∈ (Sample.chained "a" ["b", "b", "d"]).sites, x.tree.isKind .name = true ∧
      x.attributes = ["b"] ++ ["b", "d"] ∧
      attributeAfter "a.b" x = .ok (some (.atom (.str "d")))) ∧
    ∃ x ∈ (Sample.chained "os" ["getcwd"]).sites, x.tree.isKind .name = true ∧
      x.attributes = ["getcwd"] ∧
      attributeAfter "os.path" x = .ok (some (.atom (.str "getcwd"))) := by
  refine ⟨⟨_, List.mem_of_getElem? (i := 7) rfl, rfl, rfl, ?_⟩,
    ⟨_, List.mem_of_getElem? (i := 7) rfl, rfl, rfl, ?_⟩,
    ⟨_, List.mem_of_getElem? (i := 3) rfl, rfl, rfl, ?_⟩⟩
  · rfl
  · rfl
  · rfl

end ScopeLint
