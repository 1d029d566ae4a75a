import ScopeLint.Proofs.Template.Bindings
import ScopeLint.Proofs.Template.Spots

/-! A candidate held against all the places below its beginning. A template asks something of the
place itself, and something of the places below it; together this is that the value fits. So going
through the places of a value, from the root down, answers whether the value fits, and never fails. -/

namespace ScopeLint

theorem NodeClass.isNode_of_holds {c : NodeClass} {t : Tree} (h : c.holds t = true) :
    t.isNode = true := by
  cases t with
  | node k s fields => rfl
  | atom a => cases c <;> cases h
  | list items => cases c <;> cases h

theorem CaptureClass.isNode_of_holds {c : CaptureClass} {t : Tree} (h : c.holds t = true) :
    t.isNode = true := by
  cases c with
  | one c => exact NodeClass.isNode_of_holds h
  | several cs =>
    obtain ⟨c, _, hc⟩ := List.any_eq_true.mp h
    exact NodeClass.isNode_of_holds hc

namespace Template

variable {names : List String} {σ : String → String}

/-! ### What is asked of a place itself -/

/-- The kind of a node, a list that is long enough with its head, and all there is to constants,
captures and tests. -/
def Meets (σ : String → String) : Template → Tree → Prop
  | .list [], t => ∃ ts, t = .list ts
  | .list (u :: us), t => ∃ v ts, t = .list (v :: ts) ∧ us.length ≤ ts.length ∧ Meets σ u v
  | .node k _, t => t.isKind k = true
  | .atom a, t => Fits σ (.atom a) t
  | .capture a c, t => Fits σ (.capture a c) t
  | .test c, t => Fits σ (.test c) t

theorem FitsAll.length_eq : ∀ {us : List Template} {ts : List Tree}, FitsAll σ us ts →
    us.length = ts.length
  | [], ts, h => by
    rw [FitsAll] at h
    rw [h]
    rfl
  | u :: us, ts, h => by
    rw [FitsAll] at h
    obtain ⟨t, rest, rfl, _, h⟩ := h
    rw [List.length_cons, List.length_cons, FitsAll.length_eq h]

theorem meets_of_fits : ∀ {u : Template} {t : Tree}, u.Fits σ t → u.Meets σ t
  | .list [], t, h => by
    rw [Fits] at h
    obtain ⟨ts, rfl, _⟩ := h
    exact ⟨ts, rfl⟩
  | .list (u :: us), t, h => by
    rw [Fits] at h
    obtain ⟨ts, rfl, h⟩ := h
    rw [FitsAll] at h
    obtain ⟨v, rest, rfl, hu, hus⟩ := h
    exact ⟨v, rest, rfl, Nat.le_of_eq hus.length_eq, meets_of_fits hu⟩
  | .node k us, t, h => by
    rw [Fits] at h
    obtain ⟨s, ts, rfl, _⟩ := h
    simp [Meets, Tree.isKind, Tree.kind?]
  | .atom a, t, h => h
  | .capture a c, t, h => h
  | .test c, t, h => h

/-- Only templates that are lists are for lists. -/
theorem not_meets_list {u : Template} {ts : List Tree} (hu : ∀ us, u ≠ .list us) :
    ¬u.Meets σ (.list ts) := by
  intro h
  cases u with
  | list us => exact hu us rfl
  | node k us => cases h
  | atom a => cases a <;> simp [Meets, Fits, Tree.null] at h
  | capture a c => exact nomatch CaptureClass.isNode_of_holds h.1
  | test c =>
    obtain ⟨d, _, h⟩ := h
    exact nomatch NodeClass.isNode_of_holds h

/-- Templates that never make a check fail, with their captures of names among some names. -/
structure Regular (names : List String) (u : Template) : Prop where
  plain : u.every isPlain = true
  made : u.every (isMade names) = true

theorem regular_list_iff {us : List Template} :
    Regular names (.list us) ↔ ∀ u ∈ us, Regular names u := by
  constructor
  · rintro ⟨hp, hm⟩ u hu
    rw [every, everyOfAll_iff] at hp hm
    exact ⟨hp u hu, hm u hu⟩
  · intro h
    constructor
    · rw [every, everyOfAll_iff]
      exact fun u hu => (h u hu).plain
    · rw [every, everyOfAll_iff]
      exact fun u hu => (h u hu).made

theorem Regular.node {k : Kind} {us : List Template} (h : Regular names (.node k us)) :
    us.length = k.fields.length ∧ ∀ u ∈ us, Regular names u := by
  obtain ⟨hp, hm⟩ := h
  rw [every, Bool.and_eq_true, everyOfAll_iff] at hp hm
  rw [isMade, Bool.and_eq_true, beq_iff_eq] at hm
  exact ⟨hm.1.1, fun u hu => ⟨hp.2 u hu, hm.2 u hu⟩⟩

end Template

theorem Tree.get?_id_of_isKind {t : Tree} (ht : t.every Tree.hasIdentifier = true)
    (hk : t.isKind .name = true) :
    ∃ i, t.get? "id" = some (.atom (.str i)) ∧ t.identifier? = some i := by
  cases t with
  | atom a => cases hk
  | list items => cases hk
  | node k s fields =>
    rw [Tree.every, Bool.and_eq_true, Tree.hasIdentifier, hk, Bool.not_true, Bool.false_or] at ht
    obtain ⟨i, hi⟩ := Option.isSome_iff_exists.mp ht.1
    refine ⟨i, ?_, hi⟩
    rw [Tree.identifier?, if_pos hk] at hi
    obtain ⟨id, hid, hi⟩ := Option.bind_eq_some_iff.mp hi
    rw [hid]
    unfold Tree.str? at hi
    split at hi
    · cases hi
      rfl
    · cases hi

/-! ### The check of a place -/

open Bindings

section Check

variable {names : List String} {b : Bindings}

theorem CaptureClass.take_ok {c : CaptureClass} {a : String} {t : Tree} {path : List Step}
    (hb : b.Proper names) (ha : c.bindsNames = true → a ∈ names)
    (ht : t.every Tree.hasIdentifier = true) :
    ∃ r, c.take a t path b = .ok r ∧
      Answers names b (fun σ => Template.Fits σ (.capture a c) t) (answer r) := by
  unfold CaptureClass.take
  by_cases hc : c.holds t = true
  swap
  · refine ⟨(false, b), by rw [Bool.not_eq_true] at hc; rw [hc]; rfl, ?_⟩
    exact answers_of_iff hb fun σ => by simp [Template.Fits, hc]
  rw [hc, Bool.not_true, if_neg Bool.false_ne_true]
  by_cases hn : c.bindsNames = true
  · have hk : t.isKind .name = true := by
      rw [CaptureClass.bindsNames, beq_iff_eq] at hn
      rw [hn] at hc
      exact hc
    obtain ⟨i, hid, hi⟩ := Tree.get?_id_of_isKind ht hk
    have hcap := answers_capture hb a path
    refine ⟨(b.capture a path).bind a (.value (.str i)), by simp only [hn, if_true, hid], ?_⟩
    refine (hcap.and_then (answers_bind hcap.1 (ha hn) i)).congr fun σ => ?_
    simp [Template.Fits, hc, hn, hi, eq_comm]
  · refine ⟨(true, b.capture a path), by simp only [hn]; rfl, ?_⟩
    exact (answers_capture hb a path).congr fun σ => by simp [Template.Fits, hc, hn]

theorem Atom.acceptsTree_ok {a : Atom} (ha : Template.isPlain (.atom a) = true) (t : Tree) :
    ∃ ok, a.acceptsTree t = .ok ok ∧ ∀ σ, Template.Fits σ (.atom a) t ↔ ok = true := by
  cases a with
  | bytes bs => cases ha
  | complex re im => cases ha
  | ellipsis => cases ha
  | null =>
    refine ⟨_, rfl, fun σ => ?_⟩
    rw [Template.Fits]
    split <;> simp_all [Tree.null]
  | _ =>
    cases t with
    | atom c =>
      refine ⟨_, rfl, fun σ => ?_⟩
      simp [Template.Fits]
    | _ =>
      refine ⟨false, rfl, fun σ => ?_⟩
      simp [Template.Fits]

theorem Template.accepts_ok (hb : b.Proper names) : ∀ (u : Template) (s : Spot), Regular names u →
    s.tree.every Tree.hasIdentifier = true →
    ∃ r, u.accepts s b = .ok r ∧ Answers names b (fun σ => u.Meets σ s.tree) (answer r)
  | .atom a, s, hu, _ => by
    obtain ⟨ok, hok, hfits⟩ := Atom.acceptsTree_ok hu.plain s.tree
    refine ⟨(ok, b), by rw [accepts, hok]; rfl, answers_of_iff hb hfits⟩
  | .node k us, s, _, _ => ⟨_, rfl, answers_of_iff hb fun _ => Iff.rfl⟩
  | .list [], s, _, _ => by
    refine ⟨_, rfl, answers_of_iff hb fun σ => ?_⟩
    rw [Meets]
    split <;> simp_all
  | .list (u :: us), ⟨ways, .list (v :: ts), path, i⟩, hu, hs => by
    rw [regular_list_iff] at hu
    rw [Tree.every, Tree.everyOfAll_iff] at hs
    simp only [accepts]
    split
    next hlen =>
      obtain ⟨r, hr, hans⟩ := accepts_ok hb u ⟨ways, v, _, 0⟩ (hu u List.mem_cons_self)
        (hs v List.mem_cons_self)
      refine ⟨r, hr, hans.congr fun σ => ?_⟩
      simp [Meets, hlen]
    next hlen => exact ⟨_, rfl, answers_of_iff hb fun σ => by simp [Meets, hlen]⟩
  | .list (u :: us), ⟨ways, .list [], path, i⟩, _, _ =>
    ⟨_, rfl, answers_of_iff hb fun σ => by simp [Meets]⟩
  | .list (u :: us), ⟨ways, .atom a, path, i⟩, _, _ =>
    ⟨_, rfl, answers_of_iff hb fun σ => by simp [Meets]⟩
  | .list (u :: us), ⟨ways, .node k sp fields, path, i⟩, _, _ =>
    ⟨_, rfl, answers_of_iff hb fun σ => by simp [Meets]⟩
  | .capture a c, s, hu, hs => by
    refine CaptureClass.take_ok hb (fun hn => ?_) hs
    have hmade : (!c.bindsNames || names.contains a) = true := hu.made
    rw [hn, Bool.not_true, Bool.false_or, List.contains_iff_mem] at hmade
    exact hmade
  | .test (some c), s, _, _ =>
    ⟨_, rfl, answers_of_iff hb fun σ => by simp [Meets, Fits]⟩
  | .test none, s, hu, _ => nomatch hu.plain

end Check

/-! ### What is asked of the places below -/

namespace Template

/-- To follow a way in two parts. -/
theorem demand_append {u : Template} {ways more : List Way} :
    u.demand (ways ++ more) = (do
      match ← u.demand ways with
      | .shape v => v.demand more
      | other => return other) := by
  induction ways generalizing u with
  | nil => rfl
  | cons w ways ih =>
    rw [List.cons_append, demand, demand]
    cases u.step w with
    | error fault => rfl
    | ok d =>
      cases d with
      | shape v => exact ih
      | anything => rfl
      | impossible => rfl

theorem demand_step {T u : Template} {ways : List Way} (h : T.demand ways = .ok (.shape u))
    (w : Way) : T.demand (ways ++ [w]) = u.step w := by
  rw [demand_append, h]
  change (u.step w >>= fun d => _) = u.step w
  cases u.step w with
  | error fault => rfl
  | ok d => cases d <;> rfl

theorem demand_below_anything {T : Template} {ways : List Way} (h : T.demand ways = .ok .anything)
    (more : List Way) : T.demand (ways ++ more) = .ok .anything := by
  rw [demand_append, h]
  rfl

end Template

namespace Demand

def Fits (σ : String → String) : Demand → Tree → Prop
  | .shape u, t => u.Fits σ t
  | .anything, _ => True
  | .impossible, _ => False

def Regular (names : List String) : Demand → Prop
  | .shape u => u.Regular names
  | _ => True

end Demand

/-! ### Places in a row -/

section Hold

/-- A candidate that begins at `root` held against places below it, one after the other. -/
def hold (T : Template) (root : List Way) : List Spot → Bindings → Except Fault (Option Bindings)
  | [], b => .ok (some b)
  | s :: l, b => do
    let d ← T.demand (s.ways.drop root.length)
    let (ok, b) ← d.accepts s b
    if ok then hold T root l b else return none

variable {T : Template} {root : List Way} {names : List String} {l l' : List Spot}
  {P Q : (String → String) → Prop}

/-- The places of a list decide a question about the assignment. -/
def Decides (names : List String) (T : Template) (root : List Way) (l : List Spot)
    (P : (String → String) → Prop) : Prop :=
  ∀ b, b.Proper names → ∃ r, hold T root l b = .ok r ∧ Answers names b P r

theorem Decides.congr (h : Decides names T root l P) (hPQ : ∀ σ, P σ ↔ Q σ) :
    Decides names T root l Q := by
  rwa [← funext fun σ => propext (hPQ σ)]

theorem decides_nil : Decides names T root [] fun _ => True :=
  fun b hb => ⟨some b, rfl, answers_true hb⟩

theorem hold_append (b : Bindings) :
    hold T root (l ++ l') b = (do
      match ← hold T root l b with
      | some b => hold T root l' b
      | none => return none) := by
  induction l generalizing b with
  | nil => rfl
  | cons s l ih =>
    rw [List.cons_append, hold, hold]
    cases T.demand (s.ways.drop root.length) with
    | error fault => rfl
    | ok d =>
      change (d.accepts s b >>= fun r => _) = ((d.accepts s b >>= fun r => _) >>= fun r => _)
      rcases d.accepts s b with fault | ⟨ok, b'⟩
      · rfl
      · cases ok with
        | true => exact ih b'
        | false => rfl

/-- The later places are only come to with an assignment that satisfies the first question. -/
theorem Decides.append (h : Decides names T root l P)
    (h' : ∀ σ, P σ → Decides names T root l' Q) :
    Decides names T root (l ++ l') fun σ => P σ ∧ Q σ := by
  intro b hb
  obtain ⟨r, hr, hans⟩ := h b hb
  rw [hold_append, hr]
  cases r with
  | none => exact ⟨none, rfl, hans.of_none fun σ => And.left⟩
  | some b' =>
    obtain ⟨σ, hσ, hagrees⟩ := hans.1.exists_agrees
    have hP : P σ := ((hans.2 σ hσ.injOn).mp hagrees).2
    obtain ⟨r, hr, hans'⟩ := h' σ hP b' hans.1
    exact ⟨r, hr, hans.and_then hans'⟩

/-- When the first question cannot be satisfied, the later places are not come to. -/
theorem Decides.append_never (h : Decides names T root l P) (hP : ∀ σ, ¬P σ)
    (hQ : ∀ σ, ¬Q σ) : Decides names T root (l ++ l') Q :=
  (h.append (Q := fun _ => False) fun σ hσ => absurd hσ (hP σ)).congr fun σ =>
    ⟨fun h => absurd h.1 (hP σ), fun h => absurd h (hQ σ)⟩

theorem decides_shape {s : Spot} {u : Template}
    (hd : T.demand (s.ways.drop root.length) = .ok (.shape u)) (hu : u.Regular names)
    (hs : s.tree.every Tree.hasIdentifier = true) :
    Decides names T root [s] fun σ => u.Meets σ s.tree := by
  intro b hb
  obtain ⟨⟨ok, b'⟩, hr, hans⟩ := Template.accepts_ok hb u s hu hs
  refine ⟨answer (ok, b'), ?_, hans⟩
  rw [hold, hd]
  change (u.accepts s b >>= fun r => _) = _
  rw [hr]
  cases ok <;> rfl

theorem decides_anything (h : ∀ s ∈ l, T.demand (s.ways.drop root.length) = .ok .anything) :
    Decides names T root l fun _ => True := by
  intro b hb
  refine ⟨some b, ?_, answers_true hb⟩
  induction l with
  | nil => rfl
  | cons s l ih =>
    rw [hold, h s List.mem_cons_self]
    exact ih fun u hu => h u (List.mem_cons_of_mem _ hu)

theorem decides_impossible {s : Spot} (h : T.demand (s.ways.drop root.length) = .ok .impossible) :
    Decides names T root (s :: l) fun _ => False := by
  intro b _
  refine ⟨none, ?_, fun _ _ _ h => h⟩
  rw [hold, h]
  rfl

/-- Below a place of which nothing is asked, nothing is asked. -/
theorem decides_below_anything {w : List Way} (hd : T.demand w = .ok .anything)
    (h : ∀ s ∈ l, root ++ w <+: s.ways) : Decides names T root l fun _ => True := by
  refine decides_anything fun s hs => ?_
  obtain ⟨more, hmore⟩ := h s hs
  rw [← hmore, List.append_assoc, List.drop_left, Template.demand_below_anything hd]

theorem spots_eq_cons (t : Tree) (ways : List Way) (path : List Step) :
    ∃ rest, t.spots ways path = ⟨ways, t, path, 0⟩ :: rest := by
  rcases t with a | (_ | ⟨t, ts⟩) | ⟨k, sp, fields⟩ <;> exact ⟨_, rfl⟩

/-- The places of a value decide whether the value fits, if they do when a template is asked of it. -/
theorem decides_of_shape {t : Tree} {w : List Way} {path : List Step} {d : Demand}
    (hd : T.demand w = .ok d) (hreg : d.Regular names)
    (h : ∀ u, T.demand w = .ok (.shape u) → u.Regular names →
      Decides names T root (t.spots (root ++ w) path) fun σ => u.Fits σ t) :
    Decides names T root (t.spots (root ++ w) path) fun σ => d.Fits σ t := by
  cases d with
  | shape u => exact h u hd hreg
  | anything => exact decides_below_anything hd fun s hs => Tree.prefix_of_mem_spots hs
  | impossible =>
    obtain ⟨rest, hrest⟩ := spots_eq_cons t (root ++ w) path
    rw [hrest]
    exact decides_impossible (by rw [List.drop_left, hd])

/-! ### The places of a tree -/

/-- Whether the places of a tree decide that it fits what is asked of it. -/
def DecidesFits (names : List String) (T : Template) (root : List Way) (t : Tree) : Prop :=
  ∀ w path d, T.demand w = .ok d → d.Regular names → t.every Tree.hasIdentifier = true →
    Decides names T root (t.spots (root ++ w) path) fun σ => d.Fits σ t

theorem decides_list_self {items : List Tree}
    (hi : ∀ t ∈ items, t.every Tree.hasIdentifier = true) {w : List Way} {path : List Step} {i : Nat}
    {u : Template} (hd : T.demand w = .ok (.shape u)) (hu : u.Regular names) :
    Decides names T root [⟨root ++ w, .list items, path, i⟩] fun σ => u.Meets σ (.list items) := by
  refine decides_shape (by rw [List.drop_left, hd]) hu ?_
  rw [Tree.every, Tree.everyOfAll_iff]
  exact hi

theorem decides_suffixSpots {items : List Tree} (ih : ∀ t ∈ items, DecidesFits names T root t)
    (hi : ∀ t ∈ items, t.every Tree.hasIdentifier = true) {w : List Way} (path : List Step) (i : Nat)
    {u : Template} (hd : T.demand w = .ok (.shape u)) (hu : u.Regular names) :
    Decides names T root (Tree.suffixSpots (root ++ w) path i items)
      fun σ => u.Fits σ (.list items) := by
  induction items generalizing w i u with
  | nil =>
    refine (decides_list_self hi hd hu).congr fun σ => ⟨fun h => ?_, Template.meets_of_fits⟩
    rcases u with a | (_ | ⟨u, us⟩) | ⟨k, us⟩ | ⟨a, c⟩ | c
    · exact h
    · exact ⟨[], rfl, rfl⟩
    · obtain ⟨_, _, h, _⟩ := h
      cases h
    · cases h
    · exact h
    · exact h
  | cons t ts iht =>
    have hassoc (w' : Way) : root ++ w ++ [w'] = root ++ (w ++ [w']) := List.append_assoc _ _ _
    have ht := hi t List.mem_cons_self
    have hself : Decides names T root [⟨root ++ w, .list (t :: ts), path, i⟩]
        fun σ => u.Meets σ (.list (t :: ts)) :=
      decides_list_self hi hd hu
    rw [Tree.suffixSpots, List.cons_append, ← List.singleton_append, hassoc, hassoc]
    by_cases hlist : ∃ us, u = .list us
    swap
    · have hnever (σ : String → String) : ¬u.Meets σ (.list (t :: ts)) :=
        Template.not_meets_list fun us hus => hlist ⟨us, hus⟩
      exact hself.append_never hnever fun σ h => hnever σ (Template.meets_of_fits h)
    obtain ⟨us, rfl⟩ := hlist
    cases us with
    | nil =>
      -- The head of a list that is too long is asked the impossible.
      have hnone := ih t List.mem_cons_self (w ++ [Way.head]) (path ++ [Step.item i]) .impossible
        (Template.demand_step hd .head) trivial ht
      have hnever (σ : String → String) : ¬Template.Fits σ (.list []) (.list (t :: ts)) := by
        rintro ⟨_, h, hall⟩
        cases h
        cases hall
      exact (hself.append fun σ _ => hnone.append_never (fun _ => id) hnever).congr fun σ =>
        ⟨And.right, fun h => absurd h (hnever σ)⟩
    | cons u us =>
      have hus := Template.regular_list_iff.mp hu
      have hfirst := ih t List.mem_cons_self (w ++ [Way.head]) (path ++ [Step.item i]) (.shape u)
        (Template.demand_step hd .head) (hus u List.mem_cons_self) ht
      have hrest := iht (fun t ht => ih t (List.mem_cons_of_mem _ ht))
        (fun t ht => hi t (List.mem_cons_of_mem _ ht)) (i + 1) (Template.demand_step hd .tail)
        (Template.regular_list_iff.mpr fun u hu => hus u (List.mem_cons_of_mem _ hu))
      refine (hself.append fun σ _ => hfirst.append fun σ _ => hrest).congr fun σ => ?_
      constructor
      · rintro ⟨_, hu, _, h, hall⟩
        cases h
        exact ⟨t :: ts, rfl, t, ts, rfl, hu, hall⟩
      · intro h
        refine ⟨Template.meets_of_fits h, ?_⟩
        obtain ⟨_, h, _, _, h', hu, hall⟩ := h
        cases h
        cases h'
        exact ⟨hu, ts, rfl, hall⟩

theorem decides_fieldSpots {fields : List Tree} (ih : ∀ t ∈ fields, DecidesFits names T root t)
    (hf : ∀ t ∈ fields, t.every Tree.hasIdentifier = true) {w : List Way} (path : List Step)
    {keys : List String} {us : List Template} (hlen : us.length = keys.length)
    (hd : ∀ key u, (key, u) ∈ keys.zip us → T.demand (w ++ [Way.field key]) = .ok (.shape u))
    (hus : ∀ u ∈ us, u.Regular names) :
    Decides names T root (Tree.fieldSpots (root ++ w) path keys fields)
      fun σ => Template.FitsFields σ us fields := by
  induction us generalizing keys fields with
  | nil =>
    rw [List.length_eq_zero_iff.mp hlen.symm]
    cases fields <;> exact decides_nil
  | cons u us ihu =>
    obtain ⟨key, keys, rfl⟩ := List.exists_cons_of_length_eq_add_one hlen.symm
    cases fields with
    | nil => exact decides_nil.congr fun σ => iff_of_true trivial fun _ _ h => nomatch h
    | cons t ts =>
      rw [Tree.fieldSpots, List.append_assoc]
      have hfirst := ih t List.mem_cons_self (w ++ [Way.field key]) (path ++ [Step.field key])
        (.shape u) (hd key u List.mem_cons_self) (hus u List.mem_cons_self) (hf t List.mem_cons_self)
      have hrest := ihu (fun t ht => ih t (List.mem_cons_of_mem _ ht))
        (fun t ht => hf t (List.mem_cons_of_mem _ ht)) (Nat.succ.inj hlen)
        (fun key u h => hd key u (List.mem_cons_of_mem _ h))
        (fun u hu => hus u (List.mem_cons_of_mem _ hu))
      refine (hfirst.append fun σ _ => hrest).congr fun σ => ⟨?_, fun h => h t ts rfl⟩
      rintro h _ _ heq
      cases heq
      exact h

/-- A node is asked for its kind, and its fields for what the template has there. -/
theorem decides_node {k : Kind} {sp : Span} {fields : List Tree}
    (ih : ∀ t ∈ fields, DecidesFits names T root t)
    (hn : (Tree.node k sp fields).every Tree.hasIdentifier = true) {w : List Way} (path : List Step)
    {u : Template} (hd : T.demand w = .ok (.shape u)) (hu : u.Regular names) :
    Decides names T root ((Tree.node k sp fields).spots (root ++ w) path)
      fun σ => u.Fits σ (.node k sp fields) := by
  have hself : Decides names T root [⟨root ++ w, .node k sp fields, path, 0⟩]
      fun σ => u.Meets σ (.node k sp fields) :=
    decides_shape (by rw [List.drop_left, hd]) hu hn
  have hbelow (h : ∀ key, u.step (.field key) = .ok .anything) :
      Decides names T root (Tree.fieldSpots (root ++ w) path k.fields fields) fun _ => True := by
    refine decides_anything fun s hs => ?_
    obtain ⟨key, _, more, hmore⟩ := Tree.prefix_of_mem_fieldSpots hs
    rw [← hmore, List.append_assoc root w, List.append_assoc root, List.drop_left]
    exact Template.demand_below_anything ((Template.demand_step hd _).trans (h key)) more
  rw [Tree.spots, ← List.singleton_append]
  cases u with
  | atom a =>
    have hnever (σ : String → String) : ¬Template.Fits σ (.atom a) (.node k sp fields) := by
      cases a <;> simp [Template.Fits, Tree.null]
    exact hself.append_never hnever hnever
  | list us =>
    have hnever (σ : String → String) : ¬Template.Meets σ (.list us) (.node k sp fields) := by
      cases us <;> simp [Template.Meets]
    exact hself.append_never hnever fun σ h => hnever σ (Template.meets_of_fits h)
  | capture a c =>
    exact (hself.append fun σ _ => hbelow fun _ => rfl).congr fun σ => and_iff_left trivial
  | test c =>
    exact (hself.append fun σ _ => hbelow fun _ => rfl).congr fun σ => and_iff_left trivial
  | node k' us =>
    rw [Tree.every, Bool.and_eq_true, Tree.everyOfAll_iff] at hn
    by_cases hk : k' = k
    · subst hk
      obtain ⟨hlen, hus⟩ := hu.node
      have hfields := decides_fieldSpots ih hn.2 path hlen (fun key v hmem => by
        rw [Template.demand_step hd, Template.step, (Kind.lookup_fields_iff k').mpr hmem]) hus
      refine (hself.append fun σ _ => hfields).congr fun σ => ?_
      constructor
      · rintro ⟨_, h⟩
        exact ⟨sp, fields, rfl, h⟩
      · intro h
        refine ⟨Template.meets_of_fits h, ?_⟩
        obtain ⟨_, _, heq, h⟩ := h
        cases heq
        exact h
    · have hnever (σ : String → String) : ¬Template.Meets σ (.node k' us) (.node k sp fields) := by
        simpa [Template.Meets, Tree.isKind, Tree.kind?] using fun h => hk h.symm
      exact hself.append_never hnever fun σ h => hnever σ (Template.meets_of_fits h)

/-- The places of a tree decide whether it fits what is asked of it. -/
theorem decidesFits (names : List String) (T : Template) (root : List Way) :
    ∀ t, DecidesFits names T root t := by
  intro t
  induction t using Tree.induct with
  | atom a =>
    intro w path d hd hreg ht
    refine decides_of_shape hd hreg fun u hu hur => ?_
    have hself : Decides names T root [⟨root ++ w, .atom a, path, 0⟩] fun σ => u.Meets σ (.atom a) :=
      decides_shape (by rw [List.drop_left, hu]) hur ht
    refine hself.congr fun σ => ⟨fun h => ?_, Template.meets_of_fits⟩
    rcases u with c | (_ | ⟨u, us⟩) | ⟨k, us⟩ | ⟨c, cs⟩ | c
    · exact h
    · obtain ⟨_, h⟩ := h
      cases h
    · obtain ⟨_, _, h, _⟩ := h
      cases h
    · cases h
    · exact h
    · exact h
  | list items ih =>
    intro w path d hd hreg ht
    rw [Tree.every, Tree.everyOfAll_iff] at ht
    exact decides_of_shape hd hreg fun u hu hur => decides_suffixSpots ih ht path 0 hu hur
  | node k sp fields ih =>
    intro w path d hd hreg ht
    exact decides_of_shape hd hreg fun u hu hur => decides_node ih ht path hu hur

/-- The places of a place decide whether its value fits the template of a candidate that begins
there. -/
theorem decides_all (s : Spot) (hT : T.Regular names)
    (hs : s.tree.every Tree.hasIdentifier = true) :
    Decides names T s.ways s.all fun σ => T.Fits σ s.tree := by
  obtain ⟨ways, t, path, i⟩ := s
  have hroot : T.demand [] = .ok (.shape T) := rfl
  cases t with
  | list items =>
    rw [Tree.every, Tree.everyOfAll_iff] at hs
    have hlist : Decides names T ways (Tree.suffixSpots (ways ++ []) path i items)
        fun σ => T.Fits σ (.list items) :=
      decides_suffixSpots (fun t _ => decidesFits names T ways t) hs path i hroot hT
    rwa [List.append_nil] at hlist
  | atom a =>
    have hatom := decidesFits names T ways (.atom a) [] path (.shape T) hroot hT hs
    rwa [List.append_nil] at hatom
  | node k sp fields =>
    have hnode := decidesFits names T ways (.node k sp fields) [] path (.shape T) hroot hT hs
    rwa [List.append_nil] at hnode

end Hold

end ScopeLint
