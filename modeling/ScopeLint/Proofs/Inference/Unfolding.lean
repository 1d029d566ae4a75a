import ScopeLint.Inference.Value
import ScopeLint.Proofs.Descent

/-! The texts of related values. A value is written with the values that it is related to, and these with
the ones that they are related to. What is written is a finite tree just where the relations lead to no
value that they come back to. Apart from whole numbers that are too long to be written, the text of a value
is then the text of this tree, and otherwise there is none. -/

namespace ScopeLint

open Relation

/-! ### Trees of related values -/

/-- A value with all that its relations lead to, by the texts of values and types. -/
inductive Unfolding where
  | node (value type : Option String) (related : List (String × Unfolding))

namespace Unfolding

/-- The text of a value from the texts of what is known about it. The value comes first, then the type
behind a colon, then the relations behind a tilde; where there is nothing of this stands a question mark. -/
def spell (value type : Option String) (related : List String) : String :=
  let all := value.getD "" ++ type.elim "" (":" ++ ·) ++
    if related.isEmpty then "" else "~" ++ ",".intercalate related
  if all.isEmpty then "?" else all

mutual

def text : Unfolding → String
  | .node value type related => spell value type (texts related)

def texts : List (String × Unfolding) → List String
  | [] => []
  | (operator, u) :: rest => (operator ++ "-" ++ text u) :: texts rest

end

theorem induct {P : Unfolding → Prop}
    (node : ∀ value type related, (∀ e ∈ related, P e.2) → P (.node value type related)) : ∀ u, P u := by
  intro u
  refine @Unfolding.rec P (fun related => ∀ e ∈ related, P e.2) (fun e => P e.2) node ?_ ?_ ?_ u
  · intro e he
    cases he
  · intro e related he hrest e' he'
    rcases List.mem_cons.mp he' with rfl | he'
    · exact he
    · exact hrest e' he'
  · exact fun _ _ hu => hu

end Unfolding

/-! ### Relations that were noted -/

/-- A relation that one value was given to another one. -/
structure Tie where
  source : Nat
  operator : String
  target : Nat

namespace Tie

/-- The relations of a value, in the order in which they were noted. -/
def relationsOf (ties : List Tie) (i : Nat) : List (String × Nat) :=
  (ties.filter fun n => n.source = i).map fun n => (n.operator, n.target)

/-- One value has been related to the other one. -/
def Relates (ties : List Tie) (i j : Nat) : Prop := ∃ n ∈ ties, n.source = i ∧ n.target = j

variable {ties : List Tie} {i j : Nat}

instance : Decidable (Relates ties i j) :=
  inferInstanceAs (Decidable (∃ n ∈ ties, n.source = i ∧ n.target = j))

theorem relates_iff : Relates ties i j ↔ ∃ r ∈ relationsOf ties i, r.2 = j := by
  simp [Relates, relationsOf, and_assoc]

theorem relationsOf_append (n : Tie) (i : Nat) : relationsOf (ties ++ [n]) i =
    relationsOf ties i ++ if n.source = i then [(n.operator, n.target)] else [] := by
  unfold relationsOf
  rw [List.filter_append, List.map_append]
  by_cases h : n.source = i <;> simp [h]

end Tie

open Tie

namespace Pool

theorem size_push (p : Pool) (info : ValueInfo) : (p.push info).size = p.size + 1 := by
  simp [push, size]

theorem size_relate (p : Pool) (i : Nat) (operator : String) (j : Nat) :
    (p.relate i operator j).size = p.size := by
  simp [relate, size]

/-- A pool to which values were added and in which relations between them were noted, in any order. -/
inductive Noted : Pool → List Tie → Prop
  | empty : Noted .empty []
  | push {p : Pool} {ties : List Tie} {info : ValueInfo} (h : Noted p ties)
    (hnew : info.relations = []) : Noted (p.push info) ties
  | relate {p : Pool} {ties : List Tie} {i j : Nat} (operator : String) (h : Noted p ties)
    (hi : i < p.size) (hj : j < p.size) : Noted (p.relate i operator j) (ties ++ [⟨i, operator, j⟩])

theorem noted_of_new {infos : List ValueInfo} (hnew : ∀ v ∈ infos, v.relations = []) : Noted ⟨infos⟩ [] := by
  induction infos using List.reverseRecOn with
  | nil => exact .empty
  | append_singleton infos v ih =>
    exact (ih fun w hw => hnew w (List.mem_append_left _ hw)).push (hnew v (by simp))

theorem Noted.relateAll {p : Pool} {ties : List Tie} (h : p.Noted ties) (more : List Tie)
    (hbound : ∀ n ∈ more, n.source < p.size ∧ n.target < p.size) :
    (more.foldl (fun p n => p.relate n.source n.operator n.target) p).Noted (ties ++ more) := by
  induction more generalizing p ties with
  | nil => rwa [List.append_nil]
  | cons n more ih =>
    obtain ⟨hsource, htarget⟩ := hbound n List.mem_cons_self
    rw [List.foldl_cons, List.append_cons]
    refine ih (h.relate n.operator hsource htarget) fun n' hn' => ?_
    rw [size_relate]
    exact hbound n' (List.mem_cons_of_mem _ hn')

/-- Every value of a pool has the relations that were noted, and these are between values of the pool. -/
structure Agrees (p : Pool) (ties : List Tie) : Prop where
  bound : ∀ n ∈ ties, n.source < p.size ∧ n.target < p.size
  relations : ∀ i v, p.infos[i]? = some v → v.relations = relationsOf ties i

namespace Agrees

variable {p : Pool} {ties : List Tie}

theorem push (h : p.Agrees ties) {info : ValueInfo} (hnew : info.relations = []) :
    (p.push info).Agrees ties := by
  refine ⟨fun n hn => ?_, fun i v hv => ?_⟩
  · have hbound := h.bound n hn
    rw [size_push]
    omega
  · rw [Pool.push, List.getElem?_append] at hv
    split_ifs at hv with hi
    · exact h.relations i v hv
    · -- The new value comes behind all values that have a relation.
      obtain rfl : info = v := by
        obtain ⟨hlt, hget⟩ := List.getElem?_eq_some_iff.mp hv
        simpa using hget
      rw [hnew, eq_comm, relationsOf, List.map_eq_nil_iff, List.filter_eq_nil_iff]
      intro n hn
      have hbound := h.bound n hn
      simp only [size] at hbound hi
      simp only [decide_eq_true_eq]
      omega

theorem relate (h : p.Agrees ties) {i j : Nat} (operator : String) (hi : i < p.size) (hj : j < p.size) :
    (p.relate i operator j).Agrees (ties ++ [⟨i, operator, j⟩]) := by
  refine ⟨fun n hn => ?_, fun k v hv => ?_⟩
  · rw [size_relate]
    rcases List.mem_append.mp hn with hn | hn
    · exact h.bound n hn
    · rw [List.mem_singleton.mp hn]
      exact ⟨hi, hj⟩
  · rw [relationsOf_append]
    rw [Pool.relate, List.getElem?_modify] at hv
    split_ifs at hv with hk
    · obtain ⟨w, hw, rfl⟩ := Option.map_eq_some_iff.mp hv
      rw [if_pos hk, h.relations k w hw]
    · rw [if_neg hk, List.append_nil]
      exact h.relations k v (by simpa using hv)

theorem of_noted (h : p.Noted ties) : p.Agrees ties := by
  induction h with
  | empty => exact ⟨fun n hn => (by cases hn), fun i v hv => (by cases hv)⟩
  | push _ hnew ih => exact ih.push hnew
  | relate operator _ hi hj ih => exact ih.relate operator hi hj

theorem target_lt (h : p.Agrees ties) {i j : Nat} (hij : Relates ties i j) : j < p.size := by
  obtain ⟨n, hn, -, rfl⟩ := hij
  exact (h.bound n hn).2

end Agrees

/-! ### The unfolding of a value -/

mutual

/-- A value unfolds to a tree: its relations, in the order in which they were noted, unfold to the trees
below it. -/
inductive Unfolds (p : Pool) (ties : List Tie) : Nat → Unfolding → Prop
  | node {i : Nat} {v : ValueInfo} {related : List (String × Unfolding)} (hv : p.infos[i]? = some v)
    (h : UnfoldAll p ties (relationsOf ties i) related) :
    Unfolds p ties i (.node (v.value.map Literal.text) (v.type.map Literal.text) related)

inductive UnfoldAll (p : Pool) (ties : List Tie) : List (String × Nat) → List (String × Unfolding) → Prop
  | nil : UnfoldAll p ties [] []
  | cons {operator : String} {j : Nat} {u : Unfolding} {relations : List (String × Nat)}
    {related : List (String × Unfolding)} (h : Unfolds p ties j u)
    (hs : UnfoldAll p ties relations related) :
    UnfoldAll p ties ((operator, j) :: relations) ((operator, u) :: related)

end

variable {p : Pool} {ties : List Tie} {i : Nat} {u u' : Unfolding}

theorem unfoldAll_unique {related related' : List (String × Unfolding)} {relations : List (String × Nat)}
    (hunique : ∀ e ∈ related, ∀ i u', p.Unfolds ties i e.2 → p.Unfolds ties i u' → e.2 = u')
    (h : p.UnfoldAll ties relations related) (h' : p.UnfoldAll ties relations related') :
    related = related' := by
  induction relations generalizing related related' with
  | nil =>
    cases h
    cases h'
    rfl
  | cons r relations ih =>
    cases h with
    | cons hu hs =>
      cases h' with
      | cons hu' hs' =>
        have hhead := hunique _ List.mem_cons_self _ _ hu hu'
        dsimp only at hhead
        rw [hhead, ih (fun e he => hunique e (List.mem_cons_of_mem _ he)) hs hs']

/-- A value unfolds to one tree only. -/
theorem Unfolds.unique (h : p.Unfolds ties i u) (h' : p.Unfolds ties i u') : u = u' := by
  induction u using Unfolding.induct generalizing i u' with
  | node value type related ih =>
    cases h with
    | node hv hall =>
      cases h' with
      | node hv' hall' =>
        cases hv.symm.trans hv'
        rw [unfoldAll_unique (fun e he i u' hu hu' => ih e he hu hu') hall hall']

theorem UnfoldAll.exists_of_mem {relations : List (String × Nat)} {related : List (String × Unfolding)}
    (h : p.UnfoldAll ties relations related) {r : String × Nat} (hr : r ∈ relations) :
    ∃ e ∈ related, p.Unfolds ties r.2 e.2 := by
  induction relations generalizing related with
  | nil => cases hr
  | cons r' relations ih =>
    cases h with
    | cons hu hs =>
      rcases List.mem_cons.mp hr with rfl | hr
      · exact ⟨_, List.mem_cons_self, hu⟩
      · obtain ⟨e, he, hu⟩ := ih hs hr
        exact ⟨e, List.mem_cons_of_mem _ he, hu⟩

/-- A finite tree goes through no cycle. -/
theorem Unfolds.not_toCycle (h : p.Unfolds ties i u) : ¬ ToCycle (Relates ties) i := by
  induction u using Unfolding.induct generalizing i with
  | node value type related ih =>
    intro hcycle
    obtain ⟨j, hij, hj⟩ := hcycle.exists_step
    obtain ⟨r, hr, rfl⟩ := relates_iff.mp hij
    cases h with
    | node hv hall =>
      obtain ⟨e, he, hu⟩ := hall.exists_of_mem hr
      exact ih e he hu hj

/-! ### Numbers that are too long -/

end Pool

namespace Literal

/-- A whole number of more digits than can be written, or a list that has one in it. -/
inductive IsLong : Literal → Prop
  | number {n : Int} (h : tenTo Atom.digitLimit ≤ n.natAbs) : IsLong (.atom (.int n))
  | item {items : List Literal} {l : Literal} (hl : l ∈ items) (h : IsLong l) : IsLong (.list items)

theorem anyLong_iff (items : List Literal) : anyLong items = true ↔ ∃ l ∈ items, l.isLong = true := by
  induction items with
  | nil => simp [anyLong]
  | cons l items ih => simp [anyLong, ih]

theorem isLong_iff (l : Literal) : l.isLong = true ↔ l.IsLong := by
  constructor
  · -- The induction goes into the items of a list, of which one is long.
    refine @Literal.rec (fun l => l.isLong = true → l.IsLong)
      (fun items => ∀ l ∈ items, l.isLong = true → l.IsLong) ?atom ?list ?nil ?cons l
    case atom =>
      intro a h
      cases a with
      | int n => exact .number (by simpa [isLong, Atom.isLong] using h)
      | _ => cases h
    case list =>
      intro items ih h
      rw [isLong, anyLong_iff] at h
      obtain ⟨l, hl, hlong⟩ := h
      exact .item hl (ih l hl hlong)
    case nil =>
      intro l hl
      cases hl
    case cons =>
      intro l items hl ih l' hl'
      rcases List.mem_cons.mp hl' with rfl | hl'
      · exact hl
      · exact ih l' hl'
  · intro h
    induction h with
    | number h => simpa [isLong, Atom.isLong] using h
    | item hl _ ih =>
      rw [isLong, anyLong_iff]
      exact ⟨_, hl, ih⟩

end Literal

namespace Pool

theorem printed_of_isLong {l : Literal} (h : l.IsLong) : printed l = .error .tooManyDigits := by
  rw [printed, l.isLong_iff.mpr h]
  rfl

/-- What is known is written where it is not too long. -/
theorem mapM_printed_eq_ok {known : Option Literal} {text : Option String} :
    known.mapM printed = .ok text ↔ (∀ l, known = some l → ¬ l.IsLong) ∧ text = known.map Literal.text := by
  cases known with
  | none => simp [pure, Except.pure, eq_comm]
  | some l =>
    by_cases hl : l.IsLong
    · simp [printed_of_isLong hl, hl]
    · have hshort : printed l = .ok l.text := by
        rw [printed, eq_false_of_ne_true fun hlong => hl (l.isLong_iff.mp hlong)]
        rfl
      simp [hshort, hl, eq_comm]

/-- Neither the value nor the type of what has a number is too long to be written. -/
def Short (p : Pool) (i : Nat) : Prop :=
  ∀ v, p.infos[i]? = some v → ∀ l, v.value = some l ∨ v.type = some l → ¬ l.IsLong

/-! ### Texts down to some depth -/

/-- A relation as it is written, from the texts of values. -/
def link (text : Nat → Except Fault String) (r : String × Nat) : Except Fault String := do
  return r.1 ++ "-" ++ (← text r.2)

variable {p : Pool} {ties : List Tie} {i depth : Nat} {v : ValueInfo} {s : String}

theorem textWithin_succ (depth : Nat) (hv : p.infos[i]? = some v) :
    p.textWithin (depth + 1) i = (do
      let value ← v.value.mapM printed
      let type ← v.type.mapM printed
      let related ← v.relations.mapM (link (p.textWithin depth))
      .ok (Unfolding.spell value type related)) := by
  rcases v with ⟨value, type, relations⟩
  rw [textWithin, get, hv]
  dsimp only [bind, Except.bind]
  cases value with
  | none =>
    cases type with
    | none => rfl
    | some t =>
      dsimp only [Option.mapM_some, Option.mapM_none]
      cases printed t <;> rfl
  | some l =>
    dsimp only [Option.mapM_some]
    cases printed l with
    | error e => rfl
    | ok value =>
      cases type with
      | none => rfl
      | some t =>
        dsimp only [Option.mapM_some]
        cases printed t <;> rfl

theorem textWithin_of_short (depth : Nat) (hv : p.infos[i]? = some v) (h : p.Short i) :
    p.textWithin (depth + 1) i = (do
      let related ← v.relations.mapM (link (p.textWithin depth))
      .ok (Unfolding.spell (v.value.map Literal.text) (v.type.map Literal.text) related)) := by
  have hvalue : v.value.mapM printed = .ok (v.value.map Literal.text) :=
    mapM_printed_eq_ok.mpr ⟨fun l hl => h v hv l (Or.inl hl), rfl⟩
  have htype : v.type.mapM printed = .ok (v.type.map Literal.text) :=
    mapM_printed_eq_ok.mpr ⟨fun l hl => h v hv l (Or.inr hl), rfl⟩
  rw [textWithin_succ depth hv, hvalue, htype]
  rfl

/-- What has been written has a short value and type, and its relations have been written. -/
theorem textWithin_ok (h : p.textWithin depth i = .ok s) :
    ∃ below v related, depth = below + 1 ∧ p.infos[i]? = some v ∧ p.Short i ∧
      v.relations.mapM (link (p.textWithin below)) = .ok related ∧
      s = Unfolding.spell (v.value.map Literal.text) (v.type.map Literal.text) related := by
  cases depth with
  | zero => cases h
  | succ depth =>
    cases hv : p.infos[i]? with
    | none =>
      rw [textWithin, get, hv] at h
      cases h
    | some v =>
      rw [textWithin_succ depth hv] at h
      obtain ⟨value, hvalue, h⟩ := except_bind_ok h
      obtain ⟨type, htype, h⟩ := except_bind_ok h
      obtain ⟨related, hrelated, h⟩ := except_bind_ok h
      obtain ⟨hshort, rfl⟩ := mapM_printed_eq_ok.mp hvalue
      obtain ⟨hshort', rfl⟩ := mapM_printed_eq_ok.mp htype
      cases h
      refine ⟨depth, v, related, rfl, rfl, fun v' hv' l hl => ?_, hrelated, rfl⟩
      cases hv.symm.trans hv'
      exact hl.elim (hshort l) (hshort' l)

theorem link_ok {text : Nat → Except Fault String} {r : String × Nat} {t : String}
    (h : link text r = .ok t) : ∃ s, text r.2 = .ok s ∧ t = r.1 ++ "-" ++ s := by
  obtain ⟨s, hs, h⟩ := except_bind_ok h
  cases h
  exact ⟨s, hs, rfl⟩

theorem unfoldAll_of_links {text : Nat → Except Fault String} {relations : List (String × Nat)}
    {texts : List String} (h : List.Forall₂ (fun r t => link text r = .ok t) relations texts)
    (hunfold : ∀ r ∈ relations, ∀ s, text r.2 = .ok s → ∃ u, p.Unfolds ties r.2 u ∧ u.text = s) :
    ∃ related, p.UnfoldAll ties relations related ∧ Unfolding.texts related = texts := by
  induction h with
  | nil => exact ⟨[], .nil, rfl⟩
  | @cons r t relations texts hlink _ ih =>
    obtain ⟨s, hs, rfl⟩ := link_ok hlink
    obtain ⟨u, hu, rfl⟩ := hunfold r List.mem_cons_self s hs
    obtain ⟨related, hall, rfl⟩ := ih fun r' hr' => hunfold r' (List.mem_cons_of_mem _ hr')
    exact ⟨(r.1, u) :: related, .cons hu hall, rfl⟩

/-- Where a value has a text down to some depth, this is the text of its unfolding, in which no number is
too long. -/
theorem unfolds_of_textWithin (hp : p.Agrees ties) (h : p.textWithin depth i = .ok s) :
    (∃ u, p.Unfolds ties i u ∧ u.text = s) ∧ ∀ j, ReflTransGen (Relates ties) i j → p.Short j := by
  induction depth generalizing i s with
  | zero => cases h
  | succ depth ih =>
    obtain ⟨_, v, texts, hdepth, hv, hshort, hlinks, rfl⟩ := textWithin_ok h
    cases hdepth
    rw [hp.relations i v hv] at hlinks
    constructor
    · obtain ⟨related, hall, rfl⟩ := unfoldAll_of_links (except_mapM_ok hlinks)
        fun r _ s hs => (ih hs).1
      exact ⟨_, .node hv hall, rfl⟩
    · intro j hij
      obtain rfl | ⟨k, hik, hkj⟩ := hij.cases_head
      · exact hshort
      · obtain ⟨r, hr, rfl⟩ := relates_iff.mp hik
        obtain ⟨t, -, hlink⟩ := exists_of_mapM hlinks hr
        obtain ⟨s, hs, -⟩ := link_ok hlink
        exact (ih hs).2 j hkj

/-- Down to some depth a value has a text unless a chain of relations goes that far. -/
theorem textWithin_endsUnless (hp : p.Agrees ties) (depth : Nat) (hi : i < p.size)
    (hshort : ∀ j, ReflTransGen (Relates ties) i j → p.Short j) :
    EndsUnless (p.textWithin depth i) (Deep (Relates ties) depth i) := by
  induction depth generalizing i with
  | zero => exact ⟨fun hno => absurd trivial hno, fun _ => rfl⟩
  | succ depth ih =>
    have hv : p.infos[i]? = some p.infos[i] := List.getElem?_eq_getElem hi
    have hlinks : EndsUnless ((relationsOf ties i).mapM (link (p.textWithin depth)))
        (∃ r ∈ relationsOf ties i, Deep (Relates ties) depth r.2) := by
      refine .mapM fun r hr => ?_
      have hstep : Relates ties i r.2 := relates_iff.mpr ⟨r, hr, rfl⟩
      exact (ih (hp.target_lt hstep) fun j hj => hshort j (.head hstep hj)).map
    rw [textWithin_of_short depth hv (hshort i .refl), hp.relations i _ hv]
    refine hlinks.map.congr ?_
    constructor
    · rintro ⟨r, hr, hdeep⟩
      exact ⟨r.2, relates_iff.mpr ⟨r, hr, rfl⟩, hdeep⟩
    · rintro ⟨j, hij, hdeep⟩
      obtain ⟨r, hr, rfl⟩ := relates_iff.mp hij
      exact ⟨r, hr, hdeep⟩

/-- A value has a text if and only if its relations lead to no cycle and to no number that is too long. The
text is then that of its unfolding, whatever depth from the size of the pool on is allowed. When the
relations lead to a cycle there is none for any depth, and where no number is too long the search for it is
endless. -/
theorem text_iff_unfolds (h : p.Noted ties) (hi : i < p.size) :
    ((∃ s, p.text i = .ok s) ↔ ¬ ToCycle (Relates ties) i ∧
        ∀ j, ReflTransGen (Relates ties) i j → p.Short j) ∧
      (∀ s, p.text i = .ok s → (∃ u, p.Unfolds ties i u) ∧ (∀ u, p.Unfolds ties i u → u.text = s) ∧
        ∀ depth, p.size ≤ depth → p.textWithin depth i = .ok s) ∧
      (ToCycle (Relates ties) i → (∀ depth s, p.textWithin depth i ≠ .ok s) ∧
        ((∀ j, ReflTransGen (Relates ties) i j → p.Short j) →
          ∀ depth, p.textWithin depth i = .error .endless)) := by
  have hp := Agrees.of_noted h
  have hthings : ∀ j, ReflTransGen (Relates ties) i j → j ∈ List.range p.size := by
    intro j hij
    obtain rfl | ⟨k, -, hkj⟩ := hij.cases_tail
    · exact List.mem_range.mpr hi
    · exact List.mem_range.mpr (hp.target_lt hkj)
  have hends : ∀ depth, p.size ≤ depth → (∀ j, ReflTransGen (Relates ties) i j → p.Short j) →
      ¬ ToCycle (Relates ties) i → ∃ s, p.textWithin depth i = .ok s := by
    intro depth hle hshort hno
    have hdeep := deep_iff_toCycle hthings (List.length_range.trans_le hle)
    exact (textWithin_endsUnless hp depth hi hshort).ends (mt hdeep.mp hno)
  have hwritten : ∀ depth s, p.textWithin depth i = .ok s → ¬ ToCycle (Relates ties) i := by
    intro depth s hs
    obtain ⟨⟨u, hu, -⟩, -⟩ := unfolds_of_textWithin hp hs
    exact hu.not_toCycle
  refine ⟨⟨?_, ?_⟩, ?_, fun hcycle => ⟨?_, ?_⟩⟩
  · rintro ⟨s, hs⟩
    exact ⟨hwritten _ s hs, (unfolds_of_textWithin hp hs).2⟩
  · rintro ⟨hno, hshort⟩
    exact hends p.size le_rfl hshort hno
  · intro s hs
    obtain ⟨⟨u, hu, rfl⟩, hshort⟩ := unfolds_of_textWithin hp hs
    refine ⟨⟨u, hu⟩, fun u' hu' => by rw [hu'.unique hu], fun depth hle => ?_⟩
    -- A text for another depth is the text of the same tree.
    obtain ⟨s', hs'⟩ := hends depth hle hshort hu.not_toCycle
    obtain ⟨⟨u', hu', rfl⟩, -⟩ := unfolds_of_textWithin hp hs'
    rw [hs', hu'.unique hu]
  · exact fun depth s hs => hwritten depth s hs hcycle
  · exact fun hshort depth => (textWithin_endsUnless hp depth hi hshort).endless hcycle.deep

/-- A name to which two ways lead from the first value, and a last value that is related to itself. -/
def crossing : List Tie :=
  [⟨0, "Add", 1⟩, ⟨0, "Sub", 2⟩, ⟨1, "Add", 3⟩, ⟨2, "Add", 3⟩, ⟨4, "Add", 0⟩, ⟨4, "Mult", 5⟩, ⟨5, "Add", 6⟩,
    ⟨6, "Add", 6⟩]

def crossed : Pool :=
  crossing.foldl (fun p n => p.relate n.source n.operator n.target)
    ⟨[.unknown, .unknown, .unknown, .known (.str "n"), .unknown, .unknown, .unknown]⟩

theorem short_crossed (j : Nat) : crossed.Short j := by
  have hnames : ∀ v ∈ crossed.infos,
      (v.value = none ∨ v.value = some (.atom (.str "n"))) ∧ v.type = none := by
    simp [crossed, crossing, relate, List.modify, ValueInfo.unknown, ValueInfo.known]
  intro v hv l hl hlong
  obtain ⟨hvalue, htype⟩ := hnames v (List.mem_of_getElem? hv)
  obtain rfl : l = .atom (.str "n") := by simp_all
  cases hlong

theorem text_iff_unfolds_crossed :
    crossed.Noted crossing ∧ 4 < crossed.size ∧
      crossed.text 0 = .ok "~Add-~Add-n,Sub-~Add-n" ∧
      (∃ u, crossed.Unfolds crossing 0 u ∧ u.text = "~Add-~Add-n,Sub-~Add-n") ∧
      ∀ depth, crossed.textWithin depth 4 = .error .endless := by
  have h : crossed.Noted crossing := (noted_of_new (by decide)).relateAll crossing (by decide)
  have htext : crossed.text 0 = .ok "~Add-~Add-n,Sub-~Add-n" := by decide +kernel
  have hcycle : ToCycle (Relates crossing) 4 := by
    have hstep : Relates crossing 6 6 := by decide
    exact ⟨6, .head (by decide : Relates crossing 4 5) (.single (by decide)), .single hstep⟩
  obtain ⟨⟨u, hu⟩, hall, -⟩ := (text_iff_unfolds h (by decide : 0 < crossed.size)).2.1 _ htext
  exact ⟨h, by decide, htext, ⟨u, hu, hall u hu⟩,
    ((text_iff_unfolds h (by decide : 4 < crossed.size)).2.2 hcycle).2 fun j _ => short_crossed j⟩

theorem text_of_isLong {l : Literal} (hv : p.infos[i]? = some v) (hvalue : v.value = some l)
    (hlong : l.IsLong) : p.text i = .error .tooManyDigits := by
  obtain ⟨hi, -⟩ := List.getElem?_eq_some_iff.mp hv
  obtain ⟨depth, hdepth⟩ : ∃ depth, p.size = depth + 1 := Nat.exists_eq_succ_of_ne_zero (Nat.ne_zero_of_lt hi)
  rw [text, hdepth, textWithin_succ depth hv, hvalue, Option.mapM_some, printed_of_isLong hlong]
  rfl

/-- The longest number that can be written, and one. -/
def longestAndOne : Pool := ⟨[.known (.int (tenTo Atom.digitLimit - 1)), .known (.int 1)]⟩

/-- Without any relation there can be no text, for a sum that is too long. -/
theorem text_of_long_sum : ∃ p, longestAndOne.add 0 1 = .ok p ∧ p.Noted [] ∧ 2 < p.size ∧
    ¬ ToCycle (Relates []) 2 ∧ p.text 2 = .error .tooManyDigits := by
  refine ⟨_, rfl, (noted_of_new (by decide)).push rfl, by decide, ?_, ?_⟩
  · intro hcycle
    obtain ⟨_, ⟨n, hn, -⟩, -⟩ := hcycle.exists_step
    cases hn
  · have hlong : Literal.IsLong (.atom (.int (tenTo Atom.digitLimit - 1 + 1))) :=
      .number (by rw [Int.sub_add_cancel, Int.natAbs_natCast])
    exact text_of_isLong rfl rfl hlong

end Pool

end ScopeLint
