import ScopeLint.Proofs.Template.Soundness
import ScopeLint.Template.Stock

/-! The captures of a match. While a value is gone through, the captures of the template are recorded
in the order in which the template has them, and the heads of lists are recorded once too early. So what
is recorded in the end are the last captures of each name, each at its place in the value of the match.
Nothing else is, since a match passes from place to place with captures of its own. -/

namespace ScopeLint

/-! ### The last value of a key -/

section Last

variable {α β : Type} {l l' : List (String × α)} {a : String}

/-- The last value that a list has for a key. -/
def lastOf (l : List (String × α)) (a : String) : Option α :=
  ((l.filter fun e => e.1 == a).getLast?).map Prod.snd

theorem lastOf_append : lastOf (l ++ l') a = (lastOf l' a).or (lastOf l a) := by
  rw [lastOf, List.filter_append, List.getLast?_append, Option.map_or]
  rfl

theorem lastOf_singleton (e : String × α) : lastOf [e] a = if e.1 = a then some e.2 else none := by
  by_cases h : e.1 = a <;> simp [lastOf, h]

theorem lastOf_map (f : α → β) :
    lastOf (l.map fun e => (e.1, f e.2)) a = (lastOf l a).map f := by
  rw [lastOf, List.filter_map, List.getLast?_map, Option.map_map, lastOf, Option.map_map]
  rfl

theorem mem_of_lastOf {x : α} (h : lastOf l a = some x) : (a, x) ∈ l := by
  obtain ⟨e, he, rfl⟩ := Option.map_eq_some_iff.mp h
  obtain ⟨hmem, hkey⟩ := List.mem_filter.mp (List.mem_of_getLast? he)
  rw [← beq_iff_eq.mp hkey]
  exact hmem

theorem isSome_lastOf : (lastOf l a).isSome = true ↔ ∃ x, (a, x) ∈ l := by
  constructor
  · intro h
    obtain ⟨x, hx⟩ := Option.isSome_iff_exists.mp h
    exact ⟨x, mem_of_lastOf hx⟩
  · rintro ⟨x, hx⟩
    rw [lastOf, Option.isSome_map, List.getLast?_isSome]
    exact List.ne_nil_of_mem (List.mem_filter.mpr ⟨hx, beq_self_eq_true a⟩)

end Last

/-! ### The captures of a template -/

namespace Template

variable {T u : Template} {w : Way} {ways : List Way}

/-- A way with one more step in front. -/
def prepend (w : Way) (o : String × List Way) : String × List Way := (o.1, w :: o.2)

mutual

/-- The captures of a template from the root down, each with the way to it. -/
def captureWays : Template → List (String × List Way)
  | .capture a _ => [(a, [])]
  | .list us => captureWaysOfAll us
  | .node k us => captureWaysOfFields k.fields us
  | .atom _ => []
  | .test _ => []

def captureWaysOfAll : List Template → List (String × List Way)
  | [] => []
  | u :: us => (captureWays u).map (prepend .head) ++ (captureWaysOfAll us).map (prepend .tail)

def captureWaysOfFields : List String → List Template → List (String × List Way)
  | name :: names, u :: us =>
    (captureWays u).map (prepend (.field name)) ++ captureWaysOfFields names us
  | _, _ => []

end

/-- The way to the last capture of a name. -/
def lastCapture? (T : Template) (a : String) : Option (List Way) :=
  lastOf T.captureWays a

theorem mem_map_prepend {a : String} {l : List (String × List Way)} {w' : Way} :
    (a, w' :: ways) ∈ l.map (prepend w) ↔ w' = w ∧ (a, ways) ∈ l := by
  simp only [List.mem_map, prepend, Prod.exists, Prod.mk.injEq, List.cons.injEq]
  constructor
  · rintro ⟨_, _, hmem, rfl, rfl, rfl⟩
    exact ⟨rfl, hmem⟩
  · rintro ⟨rfl, hmem⟩
    exact ⟨_, _, hmem, rfl, rfl, rfl⟩

theorem not_mem_map_prepend {a : String} {l : List (String × List Way)} :
    (a, []) ∉ l.map (prepend w) := by
  simp [prepend]

theorem nil_not_mem_captureWaysOfFields {a : String} :
    ∀ {names : List String} {us : List Template}, (a, []) ∉ captureWaysOfFields names us
  | [], _ => by simp [captureWaysOfFields]
  | _ :: _, [] => List.not_mem_nil
  | name :: names, u :: us => by
    rw [captureWaysOfFields, List.mem_append, not_or]
    exact ⟨not_mem_map_prepend, nil_not_mem_captureWaysOfFields⟩

theorem cons_mem_captureWaysOfFields {a : String} :
    ∀ {names : List String} {us : List Template}, (a, w :: ways) ∈ captureWaysOfFields names us ↔
      ∃ name u, w = .field name ∧ (name, u) ∈ names.zip us ∧ (a, ways) ∈ u.captureWays
  | [], us => by simp [captureWaysOfFields]
  | _ :: _, [] => by simp [captureWaysOfFields]
  | name :: names, u :: us => by
    rw [captureWaysOfFields, List.mem_append, mem_map_prepend, cons_mem_captureWaysOfFields,
      List.zip_cons_cons]
    simp only [List.mem_cons, Prod.mk.injEq]
    constructor
    · rintro (⟨rfl, hmem⟩ | ⟨name', v, rfl, hzip, hmem⟩)
      · exact ⟨name, u, rfl, Or.inl ⟨rfl, rfl⟩, hmem⟩
      · exact ⟨name', v, rfl, Or.inr hzip, hmem⟩
    · rintro ⟨name', v, rfl, ⟨rfl, rfl⟩ | hzip, hmem⟩
      · exact Or.inl ⟨rfl, hmem⟩
      · exact Or.inr ⟨name', v, rfl, hzip, hmem⟩

/-- The captures listed are those that are parts of the template. -/
theorem mem_captureWays_iff {a : String} :
    (a, ways) ∈ T.captureWays ↔ ∃ c, T.at? ways = some (.capture a c) := by
  induction ways generalizing T with
  | nil =>
    cases T with
    | capture b c => simp [captureWays, at?, eq_comm]
    | list us =>
      cases us with
      | nil => simp [captureWays, captureWaysOfAll, at?]
      | cons u us => simp [captureWays, captureWaysOfAll, at?, prepend]
    | node k us => simp [captureWays, at?, nil_not_mem_captureWaysOfFields]
    | atom a => simp [captureWays, at?]
    | test c => simp [captureWays, at?]
  | cons w ways ih =>
    have hbelow : (a, w :: ways) ∈ T.captureWays ↔
        ∃ u, T.below? w = some u ∧ (a, ways) ∈ u.captureWays := by
      cases T with
      | list us =>
        cases us with
        | nil => cases w <;> simp [captureWays, captureWaysOfAll, below?]
        | cons u us =>
          rw [captureWays, captureWaysOfAll, List.mem_append, mem_map_prepend, mem_map_prepend]
          cases w <;> simp [below?, captureWays]
      | node k us =>
        rw [captureWays, cons_mem_captureWaysOfFields]
        simp only [below?_node]
        constructor
        · rintro ⟨name, u, rfl, hzip, hmem⟩
          exact ⟨u, ⟨name, rfl, hzip⟩, hmem⟩
        · rintro ⟨u, ⟨name, rfl, hzip⟩, hmem⟩
          exact ⟨name, u, rfl, hzip, hmem⟩
      | atom b => cases w <;> simp [captureWays, below?]
      | capture b c => cases w <;> simp [captureWays, below?]
      | test c => cases w <;> simp [captureWays, below?]
    rw [hbelow]
    constructor
    · rintro ⟨u, hu, hmem⟩
      obtain ⟨c, hc⟩ := ih.mp hmem
      exact ⟨c, by rw [at?, hu]; exact hc⟩
    · rintro ⟨c, hc⟩
      obtain ⟨u, hu, hc⟩ := Option.bind_eq_some_iff.mp hc
      exact ⟨u, hu, ih.mpr ⟨c, hc⟩⟩

/-- The captures that the check of a place itself records: that of the place, or of the heads of lists
that begin there. -/
def leadWays : Template → List (String × List Way)
  | .capture a _ => [(a, [])]
  | .list (u :: _) => (leadWays u).map (prepend .head)
  | _ => []

theorem leadWays_subset : ∀ u : Template, u.leadWays ⊆ u.captureWays
  | .capture a c => List.Subset.refl _
  | .list (u :: us) => by
    rw [leadWays, captureWays, captureWaysOfAll]
    exact List.subset_append_of_subset_left _ (List.map_subset _ (leadWays_subset u))
  | .list [] => List.nil_subset _
  | .node k us => List.nil_subset _
  | .atom a => List.nil_subset _
  | .test c => List.nil_subset _

end Template

/-- The paths to captures in a value, where the path to the value itself is given. -/
def Way.paths (place : List Step × Nat) (l : List (String × List Way)) : List (String × List Step) :=
  l.map fun o => (o.1, (o.2.foldl Way.walk place).1)

theorem Way.paths_prepend (place : List Step × Nat) (w : Way) (l : List (String × List Way)) :
    Way.paths place (l.map (Template.prepend w)) = Way.paths (Way.walk place w) l := by
  rw [paths, List.map_map]
  rfl

theorem Way.paths_append (place : List Step × Nat) (l l' : List (String × List Way)) :
    Way.paths place (l ++ l') = Way.paths place l ++ Way.paths place l' := List.map_append

theorem Way.lastOf_paths (place : List Step × Nat) (l : List (String × List Way)) (a : String) :
    lastOf (Way.paths place l) a = (lastOf l a).map fun w => (w.foldl Way.walk place).1 :=
  lastOf_map fun (w : List Way) => (w.foldl Way.walk place).1

/-! ### Recording captures -/

namespace Bindings

variable {b b₁ b₂ : Bindings} {os os' : List (String × List Step)}

/-- The second bindings have some more captures than the first, of each name the last one. -/
structure Records (b : Bindings) (os : List (String × List Step)) (b' : Bindings) : Prop where
  nodup : (b.captures.map Prod.fst).Nodup → (b'.captures.map Prod.fst).Nodup
  lookup : ∀ a, b'.captures.lookup a = (lastOf os a).or (b.captures.lookup a)

theorem Records.refl (b : Bindings) : b.Records [] b := ⟨id, fun _ => rfl⟩

theorem Records.append (h : b.Records os b₁) (h' : b₁.Records os' b₂) :
    b.Records (os ++ os') b₂ := by
  refine ⟨h'.nodup ∘ h.nodup, fun a => ?_⟩
  rw [h'.lookup, h.lookup, lastOf_append, Option.or_assoc]

/-- What is recorded again need not have been recorded before. -/
theorem Records.absorb (h : b.Records os b₁) (h' : b₁.Records os' b₂) (hsub : os ⊆ os') :
    b.Records os' b₂ := by
  refine ⟨h'.nodup ∘ h.nodup, fun a => ?_⟩
  rw [h'.lookup, h.lookup]
  cases ha : lastOf os' a with
  | some x => rfl
  | none =>
    have hnone : lastOf os a = none := by
      rw [← Option.not_isSome_iff_eq_none, isSome_lastOf] at ha ⊢
      rintro ⟨x, hx⟩
      exact ha ⟨x, hsub hx⟩
    rw [hnone]
    rfl

theorem Records.of_captures_eq (h : b.Records os b₁) (heq : b₂.captures = b₁.captures) :
    b.Records os b₂ := ⟨heq ▸ h.nodup, heq ▸ h.lookup⟩

theorem records_capture (b : Bindings) (a : String) (path : List Step) :
    b.Records [(a, path)] (b.capture a path) := by
  constructor
  · intro hn
    rw [capture, List.map_append, List.map_singleton]
    refine List.nodup_append.mpr ⟨hn.sublist (List.filter_sublist.map _), List.nodup_singleton a, ?_⟩
    intro key hkey _ ha heq
    rw [heq, List.mem_singleton.mp ha] at hkey
    obtain ⟨e, he, hea⟩ := List.mem_map.mp hkey
    exact bne_iff_ne.mp (List.mem_filter.mp he).2 hea
  · intro a'
    rw [capture, List.lookup_append, lastOf_singleton]
    by_cases ha : a = a'
    · have hnone : (b.captures.filter fun e => e.1 != a).lookup a = none := by
        refine List.lookup_eq_none_iff.mpr fun e he => ?_
        rw [bne_comm]
        exact (List.mem_filter.mp he).2
      rw [← ha, hnone, if_pos rfl, Option.none_or, List.lookup_cons_self]
      rfl
    · rw [if_neg ha, lookup_filter_ne (Ne.symm ha), List.lookup_cons, beq_false_of_ne (Ne.symm ha),
        List.lookup_nil, Option.or_none, Option.none_or]

theorem captures_bind (b : Bindings) (a : String) (id : Identifier) :
    (b.bind a id).2.captures = b.captures := by
  unfold bind
  dsimp only
  split
  · rfl
  · split <;> rfl

end Bindings

open Bindings Template

variable {T u : Template} {s : Spot} {b b' : Bindings}

theorem CaptureClass.records_of_take {c : CaptureClass} {a : String} {t : Tree} {path : List Step}
    (h : c.take a t path b = .ok (true, b')) : b.Records [(a, path)] b' := by
  have hcapture := records_capture b a path
  unfold take at h
  split_ifs at h with hholds hnames
  · cases h
  · dsimp only at h
    split at h
    next id _ =>
      refine hcapture.of_captures_eq ?_
      rw [← captures_bind (b.capture a path) a (.value id), Except.ok.inj h]
    next => cases h
    next =>
      refine hcapture.of_captures_eq ?_
      rw [← captures_bind (b.capture a path) a (.place path), Except.ok.inj h]
    next => cases h
  · cases h
    exact hcapture

/-- The check of a place records the captures that begin there. -/
theorem Template.records_of_accepts : ∀ (u : Template) (s : Spot),
    u.accepts s b = .ok (true, b') → b.Records (Way.paths (s.path, s.index) u.leadWays) b'
  | .capture a c, s, h => CaptureClass.records_of_take h
  | .list (u :: us), ⟨ways, .list (t :: ts), path, i⟩, h => by
    rw [accepts] at h
    dsimp only at h
    split_ifs at h
    · rw [leadWays, Way.paths_prepend]
      exact records_of_accepts u _ h
    · cases h
  | .list (u :: us), ⟨ways, .list [], path, i⟩, h => by cases h
  | .list (u :: us), ⟨ways, .atom a, path, i⟩, h => by cases h
  | .list (u :: us), ⟨ways, .node k sp fields, path, i⟩, h => by cases h
  | .list [], s, h => by
    obtain rfl : b = b' := congrArg Prod.snd (Except.ok.inj h)
    exact Records.refl b
  | .node k us, s, h => by
    obtain rfl : b = b' := congrArg Prod.snd (Except.ok.inj h)
    exact Records.refl b
  | .atom a, s, h => by
    obtain ⟨ok, _, h⟩ := except_bind_ok h
    cases h
    exact Records.refl b
  | .test (some c), s, h => by
    obtain rfl : b = b' := congrArg Prod.snd (Except.ok.inj h)
    exact Records.refl b
  | .test none, s, h => by cases h

theorem CaptureClass.holds_of_take {c : CaptureClass} {a : String} {t : Tree} {path : List Step}
    (h : c.take a t path b = .ok (true, b')) : c.holds t = true := by
  by_contra hc
  rw [Bool.not_eq_true] at hc
  rw [take, hc] at h
  cases h

/-! ### The form of what is accepted -/

section Form

variable {ways : List Way} {path : List Step} {i : Nat}

theorem Template.eq_atom_of_accepts {x : Atom}
    (h : u.accepts ⟨ways, .atom x, path, i⟩ b = .ok (true, b')) : ∃ a, u = .atom a := by
  cases u with
  | atom a => exact ⟨a, rfl⟩
  | list us => cases us <;> cases h
  | node k us => cases h
  | capture a c => cases CaptureClass.isNode_of_holds (CaptureClass.holds_of_take h)
  | test c =>
    cases c with
    | none => cases h
    | some c => cases NodeClass.isNode_of_holds (congrArg Prod.fst (Except.ok.inj h))

theorem Template.eq_list_of_accepts {items : List Tree}
    (h : u.accepts ⟨ways, .list items, path, i⟩ b = .ok (true, b')) :
    u = .list [] ∨ ∃ v us t ts, u = .list (v :: us) ∧ items = t :: ts := by
  cases u with
  | list us =>
    cases us with
    | nil => exact Or.inl rfl
    | cons v us =>
      cases items with
      | nil => cases h
      | cons t ts => exact Or.inr ⟨v, us, t, ts, rfl, rfl⟩
  | atom a =>
    obtain ⟨ok, hok, h⟩ := except_bind_ok h
    cases h
    obtain ⟨x, hx, _⟩ := Atom.valueEq_of_acceptsTree hok
    cases hx
  | node k us => cases h
  | capture a c => cases CaptureClass.isNode_of_holds (CaptureClass.holds_of_take h)
  | test c =>
    cases c with
    | none => cases h
    | some c => cases NodeClass.isNode_of_holds (congrArg Prod.fst (Except.ok.inj h))

theorem Template.eq_node_of_accepts {k : Kind} {sp : Span} {fields : List Tree}
    (h : u.accepts ⟨ways, .node k sp fields, path, i⟩ b = .ok (true, b')) :
    (∃ us, u = .node k us) ∨
      u.captureWays = u.leadWays ∧ ∀ name, u.step (.field name) = .ok .anything := by
  cases u with
  | node k' us =>
    have hk : (Tree.node k sp fields).isKind k' = true := congrArg Prod.fst (Except.ok.inj h)
    obtain rfl : k = k' := by simpa [Tree.isKind, Tree.kind?] using hk
    exact Or.inl ⟨us, rfl⟩
  | capture a c => exact Or.inr ⟨rfl, fun _ => rfl⟩
  | test c => exact Or.inr ⟨rfl, fun _ => rfl⟩
  | list us => cases us <;> cases h
  | atom a =>
    obtain ⟨ok, hok, h⟩ := except_bind_ok h
    cases h
    obtain ⟨x, hx, _⟩ := Atom.valueEq_of_acceptsTree hok
    cases hx

end Form

/-! ### What is recorded below a place -/

section Hold

variable {root w : List Way} {path : List Step} {t : Tree}

/-- Whether going through the places of a value records all captures of a template, in order. -/
def RecordsIn (T : Template) (root : List Way) (t : Tree) : Prop :=
  ∀ ⦃w path u b b'⦄, T.demand w = .ok (.shape u) → t.every Tree.hasFields = true →
    hold T root (t.spots (root ++ w) path) b = .ok (some b') →
      b.Records (Way.paths (path, 0) u.captureWays) b'

theorem demand_of_hold (h : hold T root (t.spots (root ++ w) path) b = .ok (some b')) :
    ∃ d b₁, T.demand w = .ok d ∧ d.accepts ⟨root ++ w, t, path, 0⟩ b = .ok (true, b₁) := by
  obtain ⟨rest, hrest⟩ := spots_eq_cons t (root ++ w) path
  rw [hrest, hold, List.drop_left] at h
  obtain ⟨d, hd, h⟩ := except_bind_ok h
  obtain ⟨⟨ok, b₁⟩, ha, h⟩ := except_bind_ok h
  cases ok with
  | true => exact ⟨d, b₁, hd, ha⟩
  | false => cases h

theorem hold_anything {l : List Spot}
    (h : ∀ s ∈ l, T.demand (s.ways.drop root.length) = .ok .anything) :
    hold T root l b = .ok (some b) := by
  induction l with
  | nil => rfl
  | cons s l ih =>
    rw [hold, h s List.mem_cons_self]
    exact ih fun u hu => h u (List.mem_cons_of_mem _ hu)

theorem records_suffixSpots {items : List Tree} (ih : ∀ t ∈ items, RecordsIn T root t)
    (hf : ∀ t ∈ items, t.every Tree.hasFields = true) {i : Nat} (hd : T.demand w = .ok (.shape u))
    (h : hold T root (Tree.suffixSpots (root ++ w) path i items) b = .ok (some b')) :
    b.Records (Way.paths (path, i) u.captureWays) b' := by
  induction items generalizing w i u b with
  | nil =>
    obtain ⟨b₁, ha, h⟩ := accepts_of_hold (by rw [List.drop_left, hd]) h
    cases h
    rcases eq_list_of_accepts ha with rfl | ⟨_, _, _, _, _, heq⟩
    · exact records_of_accepts _ _ ha
    · cases heq
  | cons t ts iht =>
    rw [Tree.suffixSpots, List.cons_append] at h
    obtain ⟨b₁, ha, h⟩ := accepts_of_hold (by rw [List.drop_left, hd]) h
    obtain ⟨b₂, hhead, htail⟩ := hold_append_some h
    rw [List.append_assoc] at hhead htail
    rcases eq_list_of_accepts ha with rfl | ⟨v, us, _, _, rfl, _⟩
    · -- Where the template has no more items, nothing is accepted as the head.
      obtain ⟨d, b₃, hd', ha'⟩ := demand_of_hold hhead
      rw [demand_step hd] at hd'
      cases hd'
      cases ha'
    · have hlead := records_of_accepts _ _ ha
      have hfirst := ih t List.mem_cons_self (demand_step hd .head) (hf t List.mem_cons_self) hhead
      have hrest := iht (fun u hu => ih u (List.mem_cons_of_mem _ hu))
        (fun u hu => hf u (List.mem_cons_of_mem _ hu)) (demand_step hd .tail) htail
      refine hlead.absorb ?_ (List.map_subset _ (leadWays_subset _))
      rw [captureWays, captureWaysOfAll, Way.paths_append, Way.paths_prepend, Way.paths_prepend]
      exact hfirst.append hrest

theorem records_fieldSpots {names : List String} (hn : names.Nodup) {us : List Template}
    {fields : List Tree} (hlen : fields.length = names.length) (ih : ∀ t ∈ fields, RecordsIn T root t)
    (hf : ∀ t ∈ fields, t.every Tree.hasFields = true)
    (hd : ∀ name d, name ∈ names → T.demand (w ++ [Way.field name]) = .ok d →
      ∃ v, (name, v) ∈ names.zip us ∧ d = .shape v) {i : Nat}
    (h : hold T root (Tree.fieldSpots (root ++ w) path names fields) b = .ok (some b')) :
    b.Records (Way.paths (path, i) (captureWaysOfFields names us)) b' := by
  induction names generalizing us fields b with
  | nil =>
    rw [Tree.fieldSpots] at h
    · cases h
      rw [captureWaysOfFields]
      · exact Records.refl _
      · intro _ _ _ _ hnames
        cases hnames
    · intro _ _ _ _ hnames
      cases hnames
  | cons name names ihn =>
    rw [List.nodup_cons] at hn
    obtain _ | ⟨t, ts⟩ := fields
    · cases hlen
    rw [Tree.fieldSpots] at h
    obtain ⟨b₁, hfirst, hrest⟩ := hold_append_some h
    rw [List.append_assoc] at hfirst
    obtain ⟨d, b₂, hdemand, ha⟩ := demand_of_hold hfirst
    obtain ⟨v, hv, rfl⟩ := hd name d List.mem_cons_self hdemand
    obtain _ | ⟨u, us⟩ := us
    · cases hv
    obtain rfl : v = u := by
      rcases List.mem_cons.mp hv with heq | hv
      · exact (Prod.ext_iff.mp heq).2
      · exact absurd (List.of_mem_zip hv).1 hn.1
    rw [captureWaysOfFields, Way.paths_append, Way.paths_prepend]
    refine (ih t List.mem_cons_self hdemand (hf t List.mem_cons_self) hfirst).append
      (ihn hn.2 (Nat.succ.inj hlen) (fun u hu => ih u (List.mem_cons_of_mem _ hu))
        (fun u hu => hf u (List.mem_cons_of_mem _ hu)) (fun name' d hname' hd' => ?_) hrest)
    obtain ⟨v', hv', rfl⟩ := hd name' d (List.mem_cons_of_mem _ hname') hd'
    rcases List.mem_cons.mp hv' with heq | hv'
    · obtain ⟨rfl, _⟩ := Prod.ext_iff.mp heq
      exact absurd hname' hn.1
    · exact ⟨v', hv', rfl⟩

theorem records_spots (T : Template) (root : List Way) (t : Tree) : RecordsIn T root t := by
  induction t using Tree.induct with
  | atom x =>
    intro w path u b b' hd _ h
    obtain ⟨b₁, ha, h⟩ := accepts_of_hold (by rw [List.drop_left, hd]) h
    cases h
    obtain ⟨a, rfl⟩ := eq_atom_of_accepts ha
    exact records_of_accepts _ _ ha
  | list items ih =>
    intro w path u b b' hd hf h
    rw [Tree.every, Tree.everyOfAll_iff] at hf
    exact records_suffixSpots ih hf hd h
  | node k sp fields ih =>
    intro w path u b b' hd hf h
    rw [Tree.every, Bool.and_eq_true, Tree.everyOfAll_iff, Tree.hasFields, beq_iff_eq] at hf
    rw [Tree.spots] at h
    obtain ⟨b₁, ha, h⟩ := accepts_of_hold (by rw [List.drop_left, hd]) h
    have hself := records_of_accepts _ _ ha
    rcases eq_node_of_accepts ha with ⟨us, rfl⟩ | ⟨hways, hbelow⟩
    · refine hself.append (records_fieldSpots k.nodup_fields hf.1 ih hf.2 (fun name d _ hd' => ?_) h)
      rw [demand_step hd, step] at hd'
      cases hv : (k.fields.zip us).lookup name with
      | none =>
        rw [hv] at hd'
        cases hd'
      | some v =>
        rw [hv] at hd'
        exact ⟨v, (Kind.lookup_fields_iff k).mp hv, (Except.ok.inj hd').symm⟩
    · -- Below a capture or a test everything is accepted.
      rw [hold_anything] at h
      · cases h
        rw [hways]
        exact hself
      · intro s hs
        obtain ⟨name, _, more, hmore⟩ := Tree.prefix_of_mem_fieldSpots hs
        rw [← hmore, List.append_assoc root w, List.append_assoc root, List.drop_left]
        exact demand_below_anything ((demand_step hd _).trans (hbelow name)) more

end Hold

/-! ### The ways of paths -/

/-- The ways that a step stands for. -/
def Step.ways : Step → List Way
  | .item i => List.replicate i .tail ++ [Way.head]
  | .field name => [.field name]

/-- The way to the end of a path, or to what is left of a list there from an index on. -/
def Way.ofPlace (place : List Step × Nat) : List Way :=
  place.1.flatMap Step.ways ++ List.replicate place.2 .tail

def Tree.isList : Tree → Bool
  | .list _ => true
  | _ => false

theorem Tree.not_isList_of_isNode {t : Tree} (h : t.isNode = true) : t.isList = false := by
  cases t with
  | node k sp fields => rfl
  | atom a => cases h
  | list items => cases h

/-- One step on from a place where only lists have an index. -/
theorem Way.ofPlace_walk {t u : Tree} {w : Way} {place : List Step × Nat}
    (hplace : t.isList = false → place.2 = 0) (h : t.below? w = some u) :
    ofPlace (walk place w) = ofPlace place ++ [w] ∧ (u.isList = false → (walk place w).2 = 0) := by
  obtain ⟨path, i⟩ := place
  cases t with
  | atom a => cases w <;> cases h
  | list items =>
    obtain ⟨t, ts, rfl, ⟨rfl, rfl⟩ | ⟨rfl, rfl⟩⟩ := Tree.below?_list.mp h
    · exact ⟨by simp [ofPlace, walk, Step.ways], fun _ => rfl⟩
    · refine ⟨by simp [ofPlace, walk, List.replicate_succ'], fun hlist => by cases hlist⟩
  | node k sp fields =>
    obtain ⟨name, rfl, _⟩ := Tree.below?_node.mp h
    obtain rfl : i = 0 := hplace rfl
    exact ⟨by simp [ofPlace, walk, Step.ways], fun _ => rfl⟩

theorem Way.ofPlace_foldl {t v : Tree} {ways : List Way} (place : List Step × Nat)
    (hplace : t.isList = false → place.2 = 0) (h : t.at? ways = some v) :
    ofPlace (ways.foldl walk place) = ofPlace place ++ ways ∧
      (v.isList = false → (ways.foldl walk place).2 = 0) := by
  induction ways generalizing t place with
  | nil =>
    cases h
    exact ⟨(List.append_nil _).symm, hplace⟩
  | cons w ways ih =>
    obtain ⟨u, hu, h⟩ := Option.bind_eq_some_iff.mp h
    obtain ⟨hstep, hplace⟩ := ofPlace_walk hplace hu
    obtain ⟨hall, hend⟩ := ih _ hplace h
    refine ⟨?_, hend⟩
    rw [List.foldl_cons, hall, hstep, List.append_assoc]
    rfl

namespace Tree

variable {v n : Tree} {ways : List Way} {path : List Step}

/-- The way from a value to the node by which it is reported. -/
def leadWay (v : Tree) : List Way := if v.isList then [.head] else []

theorem at?_of_lead? (h : v.lead? ways = some (n, path)) :
    v.at? v.leadWay = some n ∧ path = Way.path (ways ++ v.leadWay) := by
  rcases v with a | (_ | ⟨t, ts⟩) | ⟨k, sp, fields⟩
  · cases h
  · cases h
  · cases h
    exact ⟨rfl, rfl⟩
  · cases h
    exact ⟨rfl, congrArg Way.path (List.append_nil ways).symm⟩

/-- The path to the node that reports a value tells where the value is. -/
theorem ofPlace_of_lead? {tree : Tree} (hv : tree.at? ways = some v)
    (h : v.lead? ways = some (n, path)) (hn : n.isNode = true) :
    Way.ofPlace (path, 0) = ways ++ v.leadWay := by
  obtain ⟨hat, rfl⟩ := at?_of_lead? h
  have hall : tree.at? (ways ++ v.leadWay) = some n := by
    rw [at?_append, hv]
    exact hat
  obtain ⟨hways, hend⟩ := Way.ofPlace_foldl ([], 0) (fun _ => rfl) hall
  have hindex := hend (not_isList_of_isNode hn)
  have hplace : (Way.path (ways ++ v.leadWay), 0) = (ways ++ v.leadWay).foldl Way.walk ([], 0) :=
    Prod.ext rfl hindex.symm
  rw [hplace, hways]
  rfl

end Tree

theorem Spot.records_of_hold (hf : s.tree.every Tree.hasFields = true)
    (hindex : s.tree.isList = false → s.index = 0) (h : hold T s.ways s.all b = .ok (some b')) :
    b.Records (Way.paths (s.path, s.index) T.captureWays) b' := by
  obtain ⟨ways, t, path, i⟩ := s
  have hspots (h : hold T ways (t.spots ways path) b = .ok (some b')) :
      b.Records (Way.paths (path, 0) T.captureWays) b' :=
    records_spots T ways t (w := []) rfl hf (by rwa [List.append_nil])
  cases t with
  | list items =>
    rw [Tree.every, Tree.everyOfAll_iff] at hf
    exact records_suffixSpots (w := []) (fun t _ => records_spots T ways t) hf rfl
      (by rwa [List.append_nil])
  | atom a =>
    obtain rfl : i = 0 := hindex rfl
    exact hspots h
  | node k sp fields =>
    obtain rfl : i = 0 := hindex rfl
    exact hspots h

/-! ### The captures of a match -/

namespace Template

variable {tree : Tree} {found : List Candidate} {c : Candidate}

/-- Lists are accepted by lists only. -/
def isList : Template → Bool
  | .list _ => true
  | _ => false

theorem isList_of_accepts (h : u.accepts s b = .ok (true, b')) : s.tree.isList = u.isList := by
  obtain ⟨ways, t, path, i⟩ := s
  cases t with
  | atom x =>
    obtain ⟨a, rfl⟩ := eq_atom_of_accepts h
    rfl
  | list items =>
    rcases eq_list_of_accepts h with rfl | ⟨v, us, _, _, rfl, _⟩
    · rfl
    · rfl
  | node k sp fields =>
    rcases eq_node_of_accepts h with ⟨us, rfl⟩ | ⟨_, hstep⟩
    · rfl
    · cases u with
      | list us => cases us <;> cases hstep ""
      | _ => rfl

/-- Where a match begins, and by what it is reported. -/
theorem lead_of_search (h : T.search tree = .ok found) (hc : c ∈ found) :
    ∃ s : Spot, s.matched T = some c ∧ s.ways = c.ways ∧ tree.at? c.ways = some s.tree ∧
      (s.path, s.index) = c.ways.foldl Way.walk ([], 0) ∧
      s.tree.lead? c.ways = some (c.tree, c.path) ∧ c.tree.isNode = true := by
  obtain ⟨s, hs, hmatched⟩ := matched_of_search h hc
  obtain ⟨_, _, _, hnodes⟩ := run_of_search h
  have hnode := hnodes c hc
  obtain ⟨more, hmore, hat, hplace⟩ := (Tree.mem_spots_iff tree [] [] s).mp hs
  obtain rfl : s.ways = more := hmore
  obtain ⟨hways, htree, hpath⟩ := Spot.matched_eq_some hmatched
  have hform : s.tree.isNode = true ∨ ∃ v ts, s.tree = .list (v :: ts) ∧ v.isNode = true := by
    rw [htree] at hnode
    unfold Spot.lead at hnode
    split at hnode
    next v ts hlist => exact Or.inr ⟨v, ts, hlist, hnode⟩
    next => exact Or.inl hnode
  refine ⟨s, hmatched, hways.symm, ?_, ?_, ?_, hnode⟩
  · rw [hways, hat]
  · rw [hways, hplace]
  · rw [hways, (Spot.lead_eq hplace hform).1, htree, hpath]

/-- The place where a match begins, by the path to the node that reports it. -/
def beginning (T : Template) (path : List Step) : List Way :=
  if T.isList then (Way.ofPlace (path, 0)).dropLast else Way.ofPlace (path, 0)

theorem beginning_of_search (h : T.search tree = .ok found)
    (hf : tree.every Tree.hasFields = true) (hc : c ∈ found) : T.beginning c.path = c.ways := by
  obtain ⟨s, _, _, hat, _, hlead, hnode⟩ := lead_of_search h hc
  obtain ⟨s', b, b', hs', hb⟩ := part_of_search h hf hc (w := []) rfl
  rw [List.append_nil, hat] at hs'
  have hlist : s.tree.isList = T.isList := by
    rw [Option.some.inj hs', isList_of_accepts hb]
  rw [beginning, Tree.ofPlace_of_lead? hat hlead hnode, Tree.leadWay, hlist]
  split_ifs
  · exact List.dropLast_concat
  · exact List.append_nil _

/-- A match has recorded the captures of the template at their places in its value. -/
theorem records_of_search (h : T.search tree = .ok found) (hf : tree.every Tree.hasFields = true)
    (hc : c ∈ found) :
    Bindings.empty.Records (Way.paths (c.ways.foldl Way.walk ([], 0)) T.captureWays) c.bindings := by
  obtain ⟨s, hmatched, hways, hat, hplace, _⟩ := lead_of_search h hc
  rw [← hplace]
  refine Spot.records_of_hold (Tree.every_at? hf hat) ?_ (Spot.hold_of_matched hmatched).2
  rw [show s.index = (c.ways.foldl Way.walk ([], 0)).2 from congrArg Prod.snd hplace]
  exact (Way.ofPlace_foldl ([], 0) (fun _ => rfl) hat).2

/-- **The captures of a match.** Every node reports at most one match. What a match has captured are
exactly the names that the template captures somewhere, each once. The last capture of a name in the
template stands against a node in the value of the match, of a class of the capture, and this node is
what the name has captured. -/
theorem captures_of_match (h : T.search tree = .ok found) (hf : tree.every Tree.hasFields = true) :
    (found.map Candidate.path).Nodup ∧ ∀ c ∈ found,
      (∃ v, tree.at? c.ways = some v ∧ v.lead? c.ways = some (c.tree, c.path)) ∧
      (c.bindings.captures.map Prod.fst).Nodup ∧
      (∀ a, a ∈ c.bindings.captures.map Prod.fst ↔ ∃ w cl, T.at? w = some (.capture a cl)) ∧
      (∀ a, c.bindings.captures.lookup a =
        (T.lastCapture? a).map fun w => Way.path (c.ways ++ w)) ∧
      ∀ a w, T.lastCapture? a = some w →
        ∃ cl n, T.at? w = some (.capture a cl) ∧ tree.at? (c.ways ++ w) = some n ∧
          cl.holds n = true := by
  constructor
  · -- The reported node tells where the match begins, and no two begin at the same place.
    have hways : (found.map Candidate.path).map T.beginning = found.map Candidate.ways := by
      rw [List.map_map]
      exact List.map_congr_left fun c hc => beginning_of_search h hf hc
    exact List.Nodup.of_map T.beginning (hways ▸ nodup_ways_of_search h)
  intro c hc
  obtain ⟨s, _, _, hat, _, hlead, _⟩ := lead_of_search h hc
  have hrecords := records_of_search h hf hc
  have hlookup (a : String) : c.bindings.captures.lookup a =
      (T.lastCapture? a).map fun w => Way.path (c.ways ++ w) := by
    rw [hrecords.lookup, Way.lastOf_paths, lastCapture?, empty, List.lookup_nil, Option.or_none]
    simp only [Way.path, List.foldl_append]
  refine ⟨⟨s.tree, hat, hlead⟩, hrecords.nodup List.nodup_nil, fun a => ?_, hlookup, fun a w hw => ?_⟩
  · simp only [← mem_captureWays_iff]
    rw [← isSome_lastOf, ← lastCapture?, ← Option.isSome_map, ← hlookup, List.lookup_isSome_iff,
      List.mem_map]
    exact exists_congr fun e => and_congr_right fun _ => by rw [beq_iff_eq, eq_comm]
  · obtain ⟨cl, hcl⟩ := mem_captureWays_iff.mp (mem_of_lastOf hw)
    obtain ⟨s', b, b', hs', hb⟩ := part_of_search h hf hc hcl
    exact ⟨cl, s'.tree, hcl, hs', CaptureClass.holds_of_take hb⟩

/-- The sum of two expressions. -/
def sumOf (left right : Tree) : Tree := plain .binOp [left, plain .addOp [], right]

/-- The sum of a sum and a name has two matches of a sum in which one capture stands twice: each has
captured its own second summand. -/
theorem captures_of_match_nested_sum :
    ∃ T found, (ofFunction [("x", some (.one (.group .expr)))]
        [plain .exprStmt [sumOf (nameRead "x") (nameRead "x")]]).run [] = (.ok T, []) ∧
      T.search (sumOf (sumOf (nameRead "a") (nameRead "b")) (nameRead "c")) = .ok found ∧
      T.lastCapture? "x" = some [.field "right"] ∧
      found.map Candidate.path = [[.field "left"], []] ∧ (found.map Candidate.path).Nodup ∧
      ∀ c ∈ found, (∀ a, a ∈ c.bindings.captures.map Prod.fst ↔
          ∃ w cl, T.at? w = some (.capture a cl)) ∧
        c.bindings.captures.lookup "x" = some (Way.path (c.ways ++ [.field "right"])) := by
  have hfound : (Template.node .binOp [.capture "x" (.one (.group .expr)), .node .addOp [],
      .capture "x" (.one (.group .expr))]).search
      (sumOf (sumOf (nameRead "a") (nameRead "b")) (nameRead "c")) =
      .ok [⟨[.field "left"], sumOf (nameRead "a") (nameRead "b"), [.field "left"],
          ⟨[("x", [.field "left", .field "right"])], []⟩⟩,
        ⟨[], sumOf (sumOf (nameRead "a") (nameRead "b")) (nameRead "c"), [],
          ⟨[("x", [.field "right"])], []⟩⟩] := rfl
  obtain ⟨hnodup, h⟩ := captures_of_match hfound rfl
  refine ⟨_, _, rfl, hfound, rfl, rfl, hnodup, fun c hc => ?_⟩
  obtain ⟨_, _, hkeys, hlookup, _⟩ := h c hc
  exact ⟨hkeys, hlookup "x"⟩

end Template

end ScopeLint
