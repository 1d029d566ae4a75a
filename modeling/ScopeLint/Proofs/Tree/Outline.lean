import Mathlib.Data.List.Nodup
import ScopeLint.Proofs.Fault
import ScopeLint.Proofs.Tree.Induction
import ScopeLint.Proofs.Tree.Spelling
import ScopeLint.Tree.Outline

/-! The outline of a tree shows the whole tree. An outline without places is written for every tree in which
no whole number is too long. Whatever comes behind it, one reads off from it where it ends, so that two nodes
have the same outline only if they are of the same class and have the same values in their fields, at every
depth. -/

namespace ScopeLint

open Text

/-! ### Names of classes -/

namespace Kind

theorem mem_all (k : Kind) : k ∈ all := by cases k <;> decide

theorem className_injective : Function.Injective className := by
  have hnodup : (all.map className).Nodup := by decide +kernel
  intro k l h
  exact List.inj_on_of_nodup_map hnodup k.mem_all l.mem_all h

theorem className_word (k : Kind) : k.className.toList ≠ [] ∧ IsWord k.className.toList := by
  have hall : ∀ k ∈ all, k.className.toList ≠ [] ∧ k.className.toList.any isStop = false := by
    decide +kernel
  exact ⟨(hall k k.mem_all).1, .of_chars (hall k k.mem_all).2⟩

end Kind

namespace Tree

/-! ### Trees that differ only in places -/

mutual

/-- The same tree up to places: the same values at the leaves, and nodes of the same class with the same
fields. -/
def Alike : Tree → Tree → Prop
  | .atom a, .atom b => a.Alike b
  | .list ts, .list us => AlikeAll ts us
  | .node k _ ts, .node l _ us => k = l ∧ AlikeAll ts us
  | _, _ => False

def AlikeAll : List Tree → List Tree → Prop
  | [], [] => True
  | t :: ts, u :: us => t.Alike u ∧ AlikeAll ts us
  | _, _ => False

end

/-! ### Trees that can be written -/

mutual

/-- The values at the leaves of a tree. -/
def leaves : Tree → List Atom
  | .atom a => [a]
  | .list items => leavesOfAll items
  | .node _ _ fields => leavesOfAll fields

def leavesOfAll : List Tree → List Atom
  | [] => []
  | t :: ts => leaves t ++ leavesOfAll ts

end

/-- There is a text for every value at a leaf. -/
def Writable (t : Tree) : Prop := ∀ a ∈ t.leaves, ∃ s, a.repr = .ok s

theorem forall_mem_leavesOfAll {P : Atom → Prop} {ts : List Tree} :
    (∀ a ∈ leavesOfAll ts, P a) ↔ ∀ t ∈ ts, ∀ a ∈ t.leaves, P a := by
  induction ts with
  | nil => simp [leavesOfAll]
  | cons t ts ih => rw [leavesOfAll, List.forall_mem_append, List.forall_mem_cons, ih]

theorem writable_atom {a : Atom} : (Tree.atom a).Writable ↔ ∃ s, a.repr = .ok s := by
  rw [Writable, leaves, List.forall_mem_singleton]

theorem writable_list {items : List Tree} : (Tree.list items).Writable ↔ ∀ t ∈ items, t.Writable := by
  rw [Writable, leaves]
  exact forall_mem_leavesOfAll

theorem writable_node {k : Kind} {s : Span} {fields : List Tree} :
    (Tree.node k s fields).Writable ↔ ∀ t ∈ fields, t.Writable := by
  rw [Writable, leaves]
  exact forall_mem_leavesOfAll

/-! ### The characters of an outline -/

/-- What stands before the value of a field. -/
def label (style : OutlineStyle) (name : String) : List Char :=
  if style.fieldNames then name.toList ++ ['='] else []

def margin (style : OutlineStyle) (level : Nat) : List Char := (style.pad level).toList

mutual

/-- The outline of a tree without places, character by character. -/
def chars (style : OutlineStyle) (level : Nat) : Tree → List Char
  | .atom a => a.spelling.toList
  | .list [] => ['[', ']']
  | .list (t :: ts) =>
    '[' :: (itemChars style level (t :: ts) ++ '\n' :: (margin style (level + 1) ++ [']']))
  | .node k _ fields =>
    k.className.toList ++ '(' :: ((fieldChars style level k.fields fields).drop 2 ++ [')'])

/-- The items of a list, each behind a line break and before a comma. -/
def itemChars (style : OutlineStyle) (level : Nat) : List Tree → List Char
  | [] => []
  | t :: ts =>
    '\n' :: (margin style (level + 2) ++ (chars style (level + 2) t ++ ',' :: itemChars style level ts))

/-- The fields of a node, each behind a comma and a blank. -/
def fieldChars (style : OutlineStyle) (level : Nat) : List String → List Tree → List Char
  | name :: names, t :: ts =>
    ',' :: ' ' :: (label style name ++ (chars style level t ++ fieldChars style level names ts))
  | _, _ => []

end

end Tree

theorem Text.toList_intercalate_cons (separator first : String) (rest : List String) :
    (separator.intercalate (first :: rest)).toList =
      first.toList ++ rest.flatMap fun s => separator.toList ++ s.toList := by
  induction rest generalizing first with
  | nil => simp
  | cons s rest ih =>
    rw [String.intercalate_cons_cons, String.toList_append, String.toList_append, ih]
    simp

namespace Tree

section Written

variable {style : OutlineStyle} (hplaces : style.places = false)

theorem outlineItems_eq {level : Nat} {ts : List Tree}
    (h : ∀ t ∈ ts, outlineAt style (level + 2) t = .ok (String.ofList (chars style (level + 2) t))) :
    ∃ lines, outlineItems style level ts = .ok lines ∧
      (lines.flatMap fun line => '\n' :: line.toList) = itemChars style level ts := by
  induction ts with
  | nil => exact ⟨[], rfl, rfl⟩
  | cons t ts ih =>
    obtain ⟨ht, hts⟩ := List.forall_mem_cons.mp h
    obtain ⟨lines, hlines, hchars⟩ := ih hts
    refine ⟨_, by rw [outlineItems, ht, hlines]; rfl, ?_⟩
    rw [List.flatMap_cons, hchars, itemChars]
    simp [margin]

theorem outlineFields_eq {level : Nat} {ts : List Tree} (names : List String)
    (h : ∀ t ∈ ts, outlineAt style level t = .ok (String.ofList (chars style level t))) :
    ∃ entries, outlineFields style level names ts = .ok entries ∧
      (entries.flatMap fun entry => ", ".toList ++ entry.toList) = fieldChars style level names ts := by
  induction ts generalizing names with
  | nil => exact ⟨[], by cases names <;> rfl, by cases names <;> rfl⟩
  | cons t ts ih =>
    obtain ⟨ht, hts⟩ := List.forall_mem_cons.mp h
    cases names with
    | nil => exact ⟨[], rfl, rfl⟩
    | cons name names =>
      obtain ⟨entries, hentries, hchars⟩ := ih names hts
      refine ⟨_, by rw [outlineFields, ht, hentries]; rfl, ?_⟩
      rw [List.flatMap_cons, hchars, fieldChars, label, OutlineStyle.entry]
      split_ifs <;> simp

theorem outlineItems_ok {level : Nat} {ts : List Tree} {lines : List String}
    (h : outlineItems style level ts = .ok lines) : ∀ t ∈ ts, ∃ s, outlineAt style (level + 2) t = .ok s := by
  induction ts generalizing lines with
  | nil => exact fun t ht => absurd ht List.not_mem_nil
  | cons t ts ih =>
    rw [outlineItems] at h
    obtain ⟨s, hs, h⟩ := except_bind_ok h
    obtain ⟨rest, hrest, -⟩ := except_bind_ok h
    exact List.forall_mem_cons.mpr ⟨⟨s, hs⟩, ih hrest⟩

theorem outlineFields_ok {level : Nat} {names : List String} {ts : List Tree} {entries : List String}
    (hlen : ts.length = names.length) (h : outlineFields style level names ts = .ok entries) :
    ∀ t ∈ ts, ∃ s, outlineAt style level t = .ok s := by
  induction names generalizing ts entries with
  | nil =>
    rw [List.length_nil, List.length_eq_zero_iff] at hlen
    subst hlen
    exact fun t ht => absurd ht List.not_mem_nil
  | cons name names ih =>
    obtain ⟨t, ts, rfl⟩ := List.exists_cons_of_length_eq_add_one hlen
    rw [outlineFields] at h
    obtain ⟨s, hs, h⟩ := except_bind_ok h
    obtain ⟨rest, hrest, -⟩ := except_bind_ok h
    exact List.forall_mem_cons.mpr ⟨⟨s, hs⟩, ih (Nat.succ.inj hlen) hrest⟩

/-- What has an outline has a text at every leaf. -/
theorem writable_of_outlineAt (t : Tree) : t.every hasFields = true →
    ∀ level s, outlineAt style level t = .ok s → t.Writable := by
  induction t using Tree.induct with
  | atom a =>
    intro _ level s h
    rw [outlineAt] at h
    exact writable_atom.mpr ⟨s, h⟩
  | list items ih =>
    intro hf level s h
    rw [every, everyOfAll_iff] at hf
    refine writable_list.mpr fun t ht => ?_
    cases items with
    | nil => cases ht
    | cons u us =>
      rw [outlineAt] at h
      obtain ⟨lines, hlines, -⟩ := except_bind_ok h
      obtain ⟨s', hs'⟩ := outlineItems_ok hlines t ht
      exact ih t ht (hf t ht) _ s' hs'
  | node k sp fields ih =>
    intro hf level s h
    rw [every, Bool.and_eq_true, everyOfAll_iff] at hf
    rw [outlineAt] at h
    obtain ⟨entries, hentries, -⟩ := except_bind_ok h
    refine writable_node.mpr fun t ht => ?_
    obtain ⟨s', hs'⟩ := outlineFields_ok (beq_iff_eq.mp hf.1) hentries t ht
    exact ih t ht (hf.2 t ht) level s' hs'

include hplaces

/-- Without places an outline is written for every tree that has a text at every leaf. -/
theorem outlineAt_eq (t : Tree) :
    t.Writable → ∀ level, outlineAt style level t = .ok (String.ofList (chars style level t)) := by
  induction t using Tree.induct with
  | atom a =>
    intro hw level
    obtain ⟨s, hs⟩ := writable_atom.mp hw
    rw [outlineAt, chars, String.ofList_toList, hs, Atom.eq_spelling_of_repr hs]
  | list items ih =>
    intro hw level
    rw [writable_list] at hw
    cases items with
    | nil => rfl
    | cons t ts =>
      obtain ⟨lines, hlines, hchars⟩ := outlineItems_eq fun u hu => ih u hu (hw u hu) (level + 2)
      rw [outlineAt, hlines]
      refine congrArg Except.ok (String.toList_injective ?_)
      rw [List.cons_append, List.nil_append, List.cons_append, toList_intercalate_cons, chars, ← hchars]
      simp [margin]
  | node k s fields ih =>
    intro hw level
    rw [writable_node] at hw
    obtain ⟨entries, hentries, hchars⟩ := outlineFields_eq k.fields fun u hu => ih u hu (hw u hu) level
    have hnone : style.placeEntries k s = .ok [] := by simp [OutlineStyle.placeEntries, hplaces]
    rw [outlineAt, hentries, hnone]
    refine congrArg Except.ok (String.toList_injective ?_)
    rw [chars, ← hchars]
    cases entries with
    | nil => simp
    | cons entry entries =>
      rw [List.append_nil, String.toList_append, String.toList_append, toList_intercalate_cons]
      simp

theorem exists_outlineAt_iff {t : Tree} (hf : t.every hasFields = true) (level : Nat) :
    (∃ s, outlineAt style level t = .ok s) ↔ t.Writable := by
  constructor
  · rintro ⟨s, hs⟩
    exact writable_of_outlineAt t hf level s hs
  · exact fun hw => ⟨_, outlineAt_eq hplaces t hw level⟩

end Written

/-! ### Reading an outline -/

/-- How the outline of a tree begins. -/
def opening : Tree → Opening
  | .atom a => a.opening
  | .list _ => .bracket
  | .node _ _ _ => .call

section Read

variable {style : OutlineStyle} {level : Nat} {u v : List Char}

theorem opening_chars_append (t : Tree) (hu : Closed u) : Text.opening (chars style level t ++ u) = t.opening := by
  cases t with
  | atom a =>
    rw [chars]
    exact a.opening_spelling_append hu
  | list items => cases items <;> simp [chars, Text.opening, afterWord, isStop, opening]
  | node k s fields =>
    obtain ⟨hne, hword⟩ := k.className_word
    have hstopped (cs : List Char) : Stopped ('(' :: cs) := stopped_cons (by decide)
    rw [chars, List.append_assoc, List.cons_append, Text.opening, afterWord_append hword (hstopped _),
      word_append hword (hstopped _)]
    simp [hne, opening]

/-- No outline begins like the end of a list. -/
theorem head_chars (t : Tree) : ∀ c ∈ (chars style level t).head?, c ≠ ' ' ∧ c ≠ ']' := by
  cases t with
  | atom a =>
    rw [chars]
    exact a.head_spelling
  | list items => cases items <;> simp [chars]
  | node k s fields =>
    obtain ⟨hne, hword⟩ := k.className_word
    rw [chars, List.head?_append_of_ne_nil _ hne]
    exact hword.head

theorem closed_fieldChars (names : List String) (ts : List Tree) :
    Closed (fieldChars style level names ts ++ ')' :: u) := by
  unfold fieldChars
  split
  · exact closed_cons (Or.inl rfl)
  · exact closed_cons (Or.inr rfl)

/-! The fields of a node. -/

/-- A tree is read off from its outline, together with what comes behind it. -/
def Readable (style : OutlineStyle) (a : Tree) : Prop :=
  ∀ (b : Tree) (level : Nat) (u v : List Char), a.every hasFields = true → b.every hasFields = true →
    Closed u → Closed v → chars style level a ++ u = chars style level b ++ v → a.Alike b ∧ u = v

theorem fieldChars_append_inj {names : List String} {ts us : List Tree} (hts : ∀ t ∈ ts, Readable style t)
    (hlen : ts.length = names.length) (hlen' : us.length = names.length)
    (ha : everyOfAll hasFields ts = true) (hb : everyOfAll hasFields us = true)
    (h : fieldChars style level names ts ++ ')' :: u = fieldChars style level names us ++ ')' :: v) :
    AlikeAll ts us ∧ u = v := by
  induction names generalizing ts us with
  | nil =>
    rw [List.length_nil, List.length_eq_zero_iff] at hlen hlen'
    subst hlen hlen'
    exact ⟨trivial, (List.cons.inj h).2⟩
  | cons name names ih =>
    obtain ⟨x, ts, rfl⟩ := List.exists_cons_of_length_eq_add_one hlen
    obtain ⟨y, us, rfl⟩ := List.exists_cons_of_length_eq_add_one hlen'
    simp only [fieldChars, List.cons_append, List.append_assoc] at h
    rw [everyOfAll, Bool.and_eq_true] at ha hb
    obtain ⟨hx, hts⟩ := List.forall_mem_cons.mp hts
    have hvalue := List.append_cancel_left (List.cons.inj (List.cons.inj h).2).2
    obtain ⟨hxy, hrest⟩ := hx y level _ _ ha.1 hb.1 (closed_fieldChars names ts) (closed_fieldChars names us)
      hvalue
    obtain ⟨halike, huv⟩ := ih hts (Nat.succ.inj hlen) (Nat.succ.inj hlen') ha.2 hb.2 hrest
    exact ⟨⟨hxy, halike⟩, huv⟩

theorem drop_fieldChars_inj {names : List String} {ts us : List Tree} (hlen : ts.length = names.length)
    (hlen' : us.length = names.length)
    (h : (fieldChars style level names ts).drop 2 ++ u = (fieldChars style level names us).drop 2 ++ v) :
    fieldChars style level names ts ++ u = fieldChars style level names us ++ v := by
  cases names with
  | nil =>
    rw [List.length_nil, List.length_eq_zero_iff] at hlen hlen'
    subst hlen hlen'
    exact h
  | cons name names =>
    obtain ⟨x, ts, rfl⟩ := List.exists_cons_of_length_eq_add_one hlen
    obtain ⟨y, us, rfl⟩ := List.exists_cons_of_length_eq_add_one hlen'
    simp only [fieldChars] at h ⊢
    exact congrArg (',' :: ' ' :: ·) h

theorem readable_node {k : Kind} {s : Span} {fields : List Tree} (ih : ∀ t ∈ fields, Readable style t) :
    Readable style (.node k s fields) := by
  intro b level u v ha hb hu hv h
  have hopening := (opening_chars_append b hv).symm.trans (h ▸ opening_chars_append (.node k s fields) hu)
  cases b with
  | atom b => exact absurd hopening b.opening_ne_call
  | list us => cases hopening
  | node l s' us =>
    rw [every, Bool.and_eq_true] at ha hb
    simp only [chars, List.append_assoc, List.cons_append, List.nil_append] at h
    obtain ⟨hname, hrest⟩ := k.className_word.2.append_inj l.className_word.2 (stopped_cons (by decide))
      (stopped_cons (by decide)) h
    obtain rfl := Kind.className_injective (String.toList_injective hname)
    have hlen : fields.length = k.fields.length := beq_iff_eq.mp ha.1
    have hlen' : us.length = k.fields.length := beq_iff_eq.mp hb.1
    obtain ⟨halike, huv⟩ := fieldChars_append_inj ih hlen hlen' ha.2 hb.2
      (drop_fieldChars_inj hlen hlen' (List.cons.inj hrest).2)
    exact ⟨⟨rfl, halike⟩, huv⟩

/-! The items of a list, where the margin is blank. -/

variable (hindent : ∀ c ∈ style.indent.toList, c = ' ')

include hindent

theorem margin_spaces (level : Nat) : ∀ c ∈ margin style level, c = ' ' := by
  intro c hc
  rw [margin, OutlineStyle.pad, String.toList_join, List.mem_flatMap] at hc
  obtain ⟨s, hs, hc⟩ := hc
  rw [List.eq_of_mem_replicate hs] at hc
  exact hindent c hc

/-- Behind the margin, the end of a list differs from a further item. -/
theorem margin_bracket_ne (t : Tree) (n m : Nat) (rest : List Char) :
    margin style n ++ ']' :: u ≠ margin style m ++ (chars style level t ++ ',' :: rest) := by
  intro h
  have hhead : ∀ c ∈ (chars style level t ++ ',' :: rest).head?, c ≠ ' ' ∧ c ≠ ']' := by
    have htext : ∀ c ∈ (chars style level t).head?, c ≠ ' ' ∧ c ≠ ']' := head_chars t
    cases hchars : chars style level t with
    | nil => simp
    | cons c cs => rwa [hchars] at htext
  have hdrop := congrArg (List.dropWhile (· == ' ')) h
  rw [List.dropWhile_append_of_pos (by simpa using margin_spaces hindent n),
    List.dropWhile_append_of_pos (by simpa using margin_spaces hindent m)] at hdrop
  generalize chars style level t ++ ',' :: rest = cs at hhead hdrop
  cases cs with
  | nil => simp at hdrop
  | cons c cs =>
    obtain ⟨hspace, hbracket⟩ := hhead c rfl
    simp [hspace] at hdrop
    exact hbracket hdrop.1.symm

theorem itemChars_append_inj {ts us : List Tree} (hts : ∀ t ∈ ts, Readable style t)
    (ha : everyOfAll hasFields ts = true) (hb : everyOfAll hasFields us = true)
    (h : itemChars style level ts ++ '\n' :: (margin style (level + 1) ++ ']' :: u) =
      itemChars style level us ++ '\n' :: (margin style (level + 1) ++ ']' :: v)) :
    AlikeAll ts us ∧ u = v := by
  induction ts generalizing us with
  | nil =>
    cases us with
    | nil =>
      have hrest := List.append_cancel_left (List.cons.inj h).2
      exact ⟨trivial, (List.cons.inj hrest).2⟩
    | cons y us =>
      simp only [itemChars, List.nil_append, List.cons_append, List.append_assoc] at h
      exact absurd (List.cons.inj h).2 (margin_bracket_ne hindent y _ _ _)
  | cons x ts ih =>
    cases us with
    | nil =>
      simp only [itemChars, List.nil_append, List.cons_append, List.append_assoc] at h
      exact absurd (List.cons.inj h).2.symm (margin_bracket_ne hindent x _ _ _)
    | cons y us =>
      simp only [itemChars, List.cons_append, List.append_assoc] at h
      rw [everyOfAll, Bool.and_eq_true] at ha hb
      obtain ⟨hx, hts⟩ := List.forall_mem_cons.mp hts
      have hitem := List.append_cancel_left (List.cons.inj h).2
      obtain ⟨hxy, hrest⟩ := hx y (level + 2) _ _ ha.1 hb.1 (closed_cons (Or.inl rfl))
        (closed_cons (Or.inl rfl)) hitem
      obtain ⟨halike, huv⟩ := ih hts ha.2 hb.2 (List.cons.inj hrest).2
      exact ⟨⟨hxy, halike⟩, huv⟩

theorem readable_list {items : List Tree} (ih : ∀ t ∈ items, Readable style t) : Readable style (.list items) := by
  intro b level u v ha hb hu hv h
  have hopening := (opening_chars_append b hv).symm.trans (h ▸ opening_chars_append (.list items) hu)
  cases b with
  | atom b => exact absurd hopening b.opening_ne_bracket
  | node l s us => cases hopening
  | list us =>
    rw [every] at ha hb
    cases items with
    | nil =>
      cases us with
      | nil => exact ⟨trivial, List.append_cancel_left h⟩
      | cons y us => simp [chars, itemChars] at h
    | cons x ts =>
      cases us with
      | nil => simp [chars, itemChars] at h
      | cons y us =>
        simp only [chars, List.cons_append, List.append_assoc, List.nil_append] at h
        exact itemChars_append_inj hindent ih ha hb (List.cons.inj h).2

theorem readable (a : Tree) : Readable style a := by
  induction a using Tree.induct with
  | atom a =>
    intro b level u v _ _ hu hv h
    have hopening := (opening_chars_append b hv).symm.trans (h ▸ opening_chars_append (.atom a) hu)
    cases b with
    | atom b =>
      rw [chars, chars] at h
      exact Atom.spelling_append_inj hu hv h
    | list us => exact absurd hopening.symm a.opening_ne_bracket
    | node l s us => exact absurd hopening.symm a.opening_ne_call
  | list items ih => exact readable_list hindent ih
  | node k s fields ih => exact readable_node ih

end Read

/-! ### The outlines of alike trees -/

section Alike

variable {style : OutlineStyle} {ts us : List Tree}
  (hts : ∀ t ∈ ts, ∀ u, t.Alike u → ∀ level, chars style level t = chars style level u)

include hts

theorem itemChars_of_alike (h : AlikeAll ts us) (level : Nat) :
    itemChars style level ts = itemChars style level us := by
  induction ts generalizing us with
  | nil =>
    cases us with
    | nil => rfl
    | cons u us => cases h
  | cons t ts ih =>
    cases us with
    | nil => cases h
    | cons u us =>
      obtain ⟨ht, hts⟩ := List.forall_mem_cons.mp hts
      rw [itemChars, itemChars, ht u h.1, ih hts h.2]

theorem fieldChars_of_alike (h : AlikeAll ts us) (level : Nat) (names : List String) :
    fieldChars style level names ts = fieldChars style level names us := by
  induction ts generalizing us names with
  | nil =>
    cases us with
    | nil => rfl
    | cons u us => cases h
  | cons t ts ih =>
    cases us with
    | nil => cases h
    | cons u us =>
      obtain ⟨ht, hts⟩ := List.forall_mem_cons.mp hts
      cases names with
      | nil => rfl
      | cons name names => rw [fieldChars, fieldChars, ht u h.1, ih hts h.2]

end Alike

theorem chars_of_alike {style : OutlineStyle} (a : Tree) :
    ∀ b, a.Alike b → ∀ level, chars style level a = chars style level b := by
  induction a using Tree.induct with
  | atom a =>
    intro b h level
    cases b with
    | atom b => rw [chars, chars, Atom.spelling_of_alike h]
    | list us => cases h
    | node l s us => cases h
  | list items ih =>
    intro b h level
    cases b with
    | atom b => cases h
    | list us =>
      have hitems := itemChars_of_alike ih h level
      cases items <;> cases us
      · rfl
      · cases h
      · cases h
      · rw [chars, chars, hitems]
    | node l s us => cases h
  | node k s fields ih =>
    intro b h level
    cases b with
    | atom b => cases h
    | list us => cases h
    | node l s' us =>
      obtain ⟨rfl, hfields⟩ := h
      rw [chars, chars, fieldChars_of_alike ih hfields]

/-! ### Faithful outlines -/

theorem outline_of_isNode {style : OutlineStyle} {t : Tree} (h : t.isNode = true) :
    outline style t = outlineAt style 0 t := by
  cases t with
  | node k s fields => rfl
  | atom a => cases h
  | list items => cases h

/-- A node has an outline exactly if there is a text for every value at its leaves. Two nodes of which this
is true have the same outline exactly if they differ at most in places. -/
theorem outline_eq_iff_alike {style : OutlineStyle} (hplaces : style.places = false)
    (hindent : ∀ c ∈ style.indent.toList, c = ' ') {a b : Tree} (ha : a.isNode = true) (hb : b.isNode = true)
    (hfa : a.every hasFields = true) (hfb : b.every hasFields = true) :
    ((∃ s, outline style a = .ok s) ↔ a.Writable) ∧ ((∃ s, outline style b = .ok s) ↔ b.Writable) ∧
      (a.Writable → b.Writable → (outline style a = outline style b ↔ a.Alike b)) := by
  rw [outline_of_isNode ha, outline_of_isNode hb]
  refine ⟨exists_outlineAt_iff hplaces hfa 0, exists_outlineAt_iff hplaces hfb 0, fun hwa hwb => ?_⟩
  rw [outlineAt_eq hplaces a hwa, outlineAt_eq hplaces b hwb]
  constructor
  · intro h
    have hchars : chars style 0 a ++ [] = chars style 0 b ++ [] := by
      simpa using String.ofList_injective (Except.ok.inj h)
    have hclosed : Closed [] := fun c hc => by cases hc
    exact (readable hindent a b 0 [] [] hfa hfb hclosed hclosed hchars).1
  · intro h
    rw [chars_of_alike a b h]

/-- A list display at a line, with a text and a number in it. -/
def displayAt (line : Int) (text : String) (number : Atom) : Tree :=
  let span : Span := ⟨some (.int line), some (.int 0), none, none⟩
  .node .exprStmt span [.node .list span [.list [.node .constant span [.atom (.str text), .null],
    .node .constant span [.atom number, .null]], .node .load .absent []]]

theorem writable_displayAt {line : Int} {text : String} {number : Atom} :
    (displayAt line text number).Writable ↔ ∃ s, number.repr = .ok s := by
  have hleaves : (displayAt line text number).leaves = [.str text, .null, number, .null] := rfl
  rw [Writable, hleaves]
  constructor
  · exact fun hw => hw number (by simp)
  · intro hnumber
    simp only [List.forall_mem_cons]
    exact ⟨⟨_, rfl⟩, ⟨_, rfl⟩, hnumber, ⟨_, rfl⟩, fun a ha => absurd ha List.not_mem_nil⟩

/-- The outline does not show the lines, but it shows which text and which number it is, also where the text
looks like the rest of the outline and there is no indentation. There is none with a number that is too
long. -/
theorem outline_eq_iff_alike_display :
    let style : OutlineStyle := ⟨true, false, ""⟩
    let display := displayAt 1 "', kind=None),\n], ctx=Load())" (.int 1)
    display.every hasFields = true ∧ (∃ s, outline style display = .ok s) ∧
      outline style display = outline style (displayAt 7 "', kind=None),\n], ctx=Load())" (.int 1)) ∧
      outline style display ≠ outline style (displayAt 1 "', kind=None),\n], ctx=Load())" (.bool true)) ∧
      outline style display ≠ outline style (displayAt 1 "" (.int 1)) ∧
      ∀ s, outline style (displayAt 1 "" (.int (tenTo Atom.digitLimit))) ≠ .ok s := by
  intro style display
  have hone : ∃ s, (Atom.int 1).repr = .ok s :=
    ⟨_, by rw [Atom.repr, Atom.isLong_of_natAbs_le (by decide)]; rfl⟩
  have hdisplay : display.Writable := writable_displayAt.mpr hone
  have halike (line : Int) (text : String) {number : Atom} (hnumber : ∃ s, number.repr = .ok s) :
      outline style display = outline style (displayAt line text number) ↔
        display.Alike (displayAt line text number) :=
    (outline_eq_iff_alike rfl (by simp [style]) rfl rfl rfl rfl).2.2 hdisplay
      (writable_displayAt.mpr hnumber)
  have hwritten (line : Int) (text : String) (number : Atom) :
      (∃ s, outline style (displayAt line text number) = .ok s) ↔ (displayAt line text number).Writable :=
    (outline_eq_iff_alike (b := display) rfl (by simp [style]) rfl rfl rfl rfl).1
  have hlong : ∀ s, outline style (displayAt 1 "" (.int (tenTo Atom.digitLimit))) ≠ .ok s := by
    intro s hs
    obtain ⟨s', hs'⟩ := writable_displayAt.mp ((hwritten _ _ _).mp ⟨s, hs⟩)
    rw [Atom.repr, Atom.isLong_of_le_natAbs (Int.natAbs_natCast _).ge] at hs'
    cases hs'
  refine ⟨rfl, (hwritten _ _ _).mpr hdisplay, (halike _ _ hone).mpr ?_, mt (halike _ _ ⟨_, rfl⟩).mp ?_,
    mt (halike _ _ hone).mp ?_, hlong⟩ <;>
    simp [display, displayAt, null, Alike, AlikeAll, Atom.Alike]

end Tree

end ScopeLint
