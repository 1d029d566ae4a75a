import Mathlib.Data.List.Nodup
import Mathlib.Data.List.TakeWhile
import ScopeLint.Proofs.Scope.Table
import ScopeLint.Proofs.Tree.Induction
import ScopeLint.Template.Match

/-! The places of a tree. A place is a way that leads somewhere, and the search goes through each
place once. After a place come the places below it, and then none that is below it. -/

namespace ScopeLint

namespace Kind

theorem nodup_fields (k : Kind) : k.fields.Nodup := by cases k <;> decide

end Kind

theorem map_fst_zip_sublist {α : Type} :
    ∀ (l : List String) (l' : List α), (l.zip l').map Prod.fst |>.Sublist l
  | [], _ => by rw [List.zip_nil_left]; exact List.Sublist.refl _
  | _ :: _, [] => List.nil_sublist _
  | a :: l, _ :: l' => (map_fst_zip_sublist l l').cons_cons a

theorem Kind.lookup_fields_iff {α : Type} (k : Kind) {fields : List α} {name : String} {value : α} :
    (k.fields.zip fields).lookup name = some value ↔ (name, value) ∈ k.fields.zip fields := by
  refine ⟨mem_of_lookup, fun h => lookup_of_mem ?_ h⟩
  exact (Kind.nodup_fields k).sublist (map_fst_zip_sublist _ _)

/-! ### Ways that lead somewhere -/

namespace Tree

/-- The value one step down. -/
def below? : Tree → Way → Option Tree
  | .list (t :: _), .head => some t
  | .list (_ :: ts), .tail => some (.list ts)
  | .node k _ fields, .field name => (k.fields.zip fields).lookup name
  | _, _ => none

/-- The value at the end of a way. -/
def at? : Tree → List Way → Option Tree
  | t, [] => some t
  | t, w :: ways => (t.below? w).bind fun u => u.at? ways

end Tree

/-- The path to a value, or to a list and the index from which on it is meant, one step further. -/
def Way.walk : List Step × Nat → Way → List Step × Nat
  | (path, i), .head => (path ++ [.item i], 0)
  | (path, i), .tail => (path, i + 1)
  | (path, _), .field name => (path ++ [.field name], 0)

/-- The path to the end of a way. -/
def Way.path (ways : List Way) : List Step := (ways.foldl Way.walk ([], 0)).1

namespace Tree

variable {s : Spot} {ways : List Way} {place : List Step × Nat}

/-- Whether a way from a tree leads to a place, where ways to the tree itself are given. -/
def Reaches (t : Tree) (ways : List Way) (place : List Step × Nat) (s : Spot) : Prop :=
  ∃ more, s.ways = ways ++ more ∧ t.at? more = some s.tree ∧
    (s.path, s.index) = more.foldl Way.walk place

theorem reaches_iff {t : Tree} :
    t.Reaches ways place s ↔ s = ⟨ways, t, place.1, place.2⟩ ∨
      ∃ w u, t.below? w = some u ∧ u.Reaches (ways ++ [w]) (Way.walk place w) s := by
  constructor
  · rintro ⟨_ | ⟨w, more⟩, hways, hat, hplace⟩
    · left
      obtain ⟨sways, stree, spath, sindex⟩ := s
      cases hat
      cases hplace
      simpa using hways
    · right
      obtain ⟨u, hu, hat⟩ := Option.bind_eq_some_iff.mp hat
      exact ⟨w, u, hu, more, by rw [hways, List.append_assoc]; rfl, hat, hplace⟩
  · rintro (rfl | ⟨w, u, hu, more, hways, hat, hplace⟩)
    · exact ⟨[], (List.append_nil _).symm, rfl, rfl⟩
    · refine ⟨w :: more, by rw [hways, List.append_assoc]; rfl, ?_, hplace⟩
      rw [at?, hu]
      exact hat

theorem below?_list {items : List Tree} {w : Way} {u : Tree} :
    (Tree.list items).below? w = some u ↔
      ∃ t ts, items = t :: ts ∧ (w = .head ∧ u = t ∨ w = .tail ∧ u = .list ts) := by
  cases items with
  | nil => cases w <;> simp [below?]
  | cons t ts => cases w <;> simp [below?, eq_comm]

theorem below?_node {k : Kind} {sp : Span} {fields : List Tree} {w : Way} {u : Tree} :
    (Tree.node k sp fields).below? w = some u ↔
      ∃ name, w = .field name ∧ (name, u) ∈ k.fields.zip fields := by
  cases w <;> simp [below?, Kind.lookup_fields_iff]

/-! ### The search goes through all places -/

theorem mem_suffixSpots_of {items : List Tree}
    (ih : ∀ t ∈ items, ∀ ways path s, s ∈ t.spots ways path ↔ t.Reaches ways (path, 0) s)
    (ways : List Way) (path : List Step) (i : Nat) (s : Spot) :
    s ∈ suffixSpots ways path i items ↔ (Tree.list items).Reaches ways (path, i) s := by
  induction items generalizing ways i with
  | nil =>
    rw [suffixSpots, List.mem_singleton, reaches_iff]
    simp [below?]
  | cons t ts iht =>
    rw [suffixSpots, List.cons_append, List.mem_cons, List.mem_append, reaches_iff,
      ih t List.mem_cons_self, iht fun u hu => ih u (List.mem_cons_of_mem _ hu)]
    refine or_congr_right ?_
    constructor
    · rintro (h | h)
      · exact ⟨.head, t, rfl, h⟩
      · exact ⟨.tail, .list ts, rfl, h⟩
    · rintro ⟨w, u, hu, h⟩
      obtain ⟨_, _, ht, hw⟩ := below?_list.mp hu
      cases ht
      rcases hw with ⟨rfl, rfl⟩ | ⟨rfl, rfl⟩
      · exact Or.inl h
      · exact Or.inr h

theorem mem_fieldSpots_of {fields : List Tree}
    (ih : ∀ t ∈ fields, ∀ ways path s, s ∈ t.spots ways path ↔ t.Reaches ways (path, 0) s)
    (ways : List Way) (path : List Step) (names : List String) (s : Spot) :
    s ∈ fieldSpots ways path names fields ↔ ∃ name u, (name, u) ∈ names.zip fields ∧
      u.Reaches (ways ++ [Way.field name]) (path ++ [Step.field name], 0) s := by
  induction fields generalizing names with
  | nil =>
    cases names <;> simp [fieldSpots]
  | cons t ts iht =>
    cases names with
    | nil => simp [fieldSpots]
    | cons name names =>
      rw [fieldSpots, List.mem_append, ih t List.mem_cons_self,
        iht fun u hu => ih u (List.mem_cons_of_mem _ hu), List.zip_cons_cons]
      constructor
      · rintro (h | ⟨name', u, hmem, h⟩)
        · exact ⟨name, t, List.mem_cons_self, h⟩
        · exact ⟨name', u, List.mem_cons_of_mem _ hmem, h⟩
      · rintro ⟨name', u, hmem, h⟩
        rcases List.mem_cons.mp hmem with heq | hmem
        · cases heq
          exact Or.inl h
        · exact Or.inr ⟨name', u, hmem, h⟩

theorem mem_spots_iff : ∀ (t : Tree) (ways : List Way) (path : List Step) (s : Spot),
    s ∈ t.spots ways path ↔ t.Reaches ways (path, 0) s := by
  intro t
  induction t using Tree.induct with
  | atom a =>
    intro ways path s
    rw [spots, List.mem_singleton, reaches_iff]
    simp [below?]
  | list items ih =>
    intro ways path s
    rw [spots, mem_suffixSpots_of ih]
  | node k sp fields ih =>
    intro ways path s
    rw [spots, List.mem_cons, mem_fieldSpots_of ih, reaches_iff]
    refine or_congr_right ?_
    constructor
    · rintro ⟨name, u, hmem, h⟩
      exact ⟨.field name, u, below?_node.mpr ⟨name, rfl, hmem⟩, h⟩
    · rintro ⟨w, u, hu, h⟩
      obtain ⟨name, rfl, hmem⟩ := below?_node.mp hu
      exact ⟨name, u, hmem, h⟩

theorem Reaches.starts {t : Tree} (h : t.Reaches ways place s) : ways <+: s.ways := by
  obtain ⟨more, hways, _⟩ := h
  exact ⟨more, hways.symm⟩

theorem prefix_of_mem_spots {t : Tree} {path : List Step} (h : s ∈ t.spots ways path) :
    ways <+: s.ways :=
  ((mem_spots_iff t ways path s).mp h).starts

theorem prefix_of_mem_suffixSpots {items : List Tree} {path : List Step} {i : Nat}
    (h : s ∈ suffixSpots ways path i items) : ways <+: s.ways :=
  ((mem_suffixSpots_of (fun t _ => mem_spots_iff t) ways path i s).mp h).starts

theorem prefix_of_mem_fieldSpots {fields : List Tree} {path : List Step} {names : List String}
    (h : s ∈ fieldSpots ways path names fields) :
    ∃ name ∈ names, ways ++ [Way.field name] <+: s.ways := by
  obtain ⟨name, u, hmem, h⟩ :=
    (mem_fieldSpots_of (fun t _ => mem_spots_iff t) ways path names s).mp h
  exact ⟨name, (List.of_mem_zip hmem).1, h.starts⟩

end Tree

/-! ### The places below a place -/

namespace Spot

variable {s : Spot} {l l' : List Spot}

/-- The places of the value of a place. -/
def all (s : Spot) : List Spot :=
  match s.tree with
  | .list items => Tree.suffixSpots s.ways s.path s.index items
  | t => t.spots s.ways s.path

/-- Whether a place is below another, or the same. -/
def covers (s s' : Spot) : Bool := s.ways.isPrefixOf s'.ways

theorem covers_iff {s' : Spot} : s.covers s' = true ↔ s.ways <+: s'.ways :=
  List.isPrefixOf_iff_prefix

/-- After each place come those below it, then others, and it does not come again. -/
def Layered : List Spot → Prop
  | [] => True
  | s :: l => s :: l.takeWhile s.covers = s.all ∧ s.ways ∉ l.map Spot.ways ∧ Layered l

theorem takeWhile_append_of_none {p : Spot → Bool} (h : ∀ s ∈ l', p s = false) :
    (l ++ l').takeWhile p = l.takeWhile p := by
  induction l with
  | nil =>
    cases l' with
    | nil => rfl
    | cons s l' => rw [List.nil_append, List.takeWhile_cons, h s List.mem_cons_self]; rfl
  | cons s l ih =>
    rw [List.cons_append, List.takeWhile_cons, List.takeWhile_cons, ih]

theorem Layered.append (h : Layered l) (h' : Layered l')
    (hcross : ∀ s ∈ l, ∀ s' ∈ l', s.covers s' = false) : Layered (l ++ l') := by
  induction l with
  | nil => exact h'
  | cons s l ih =>
    obtain ⟨hall, hnew, h⟩ := h
    have hs := hcross s List.mem_cons_self
    rw [List.cons_append]
    refine ⟨?_, ?_, ih h fun u hu => hcross u (List.mem_cons_of_mem _ hu)⟩
    · rw [takeWhile_append_of_none hs, hall]
    · rw [List.map_append, List.mem_append, not_or]
      refine ⟨hnew, fun hmem => ?_⟩
      obtain ⟨s', hs', heq⟩ := List.mem_map.mp hmem
      have hcov : s.covers s' = true := covers_iff.mpr (heq ▸ List.prefix_refl _)
      rw [hs s' hs'] at hcov
      cases hcov

theorem layered_cons (hall : s.all = s :: l) (hbelow : ∀ s' ∈ l, ∃ w, s.ways ++ [w] <+: s'.ways)
    (hl : Layered l) : Layered (s :: l) := by
  refine ⟨?_, ?_, hl⟩
  · have hcov : ∀ s' ∈ l, s.covers s' = true := by
      intro s' hs'
      obtain ⟨w, hw⟩ := hbelow s' hs'
      exact covers_iff.mpr ((List.prefix_append _ _).trans hw)
    rw [hall, List.takeWhile_eq_self_iff.mpr hcov]
  · intro hmem
    obtain ⟨s', hs', heq⟩ := List.mem_map.mp hmem
    obtain ⟨w, hw⟩ := hbelow s' hs'
    have := hw.length_le
    rw [heq, List.length_append, List.length_singleton] at this
    omega

/-- Places in different directions do not cover each other. -/
theorem covers_eq_false {s' : Spot} {ways : List Way} {w w' : Way} (hne : w ≠ w')
    (h : ways ++ [w] <+: s.ways) (h' : ways ++ [w'] <+: s'.ways) : s.covers s' = false := by
  rw [Bool.eq_false_iff]
  intro hcov
  have hboth := List.prefix_of_prefix_length_le (h.trans (covers_iff.mp hcov)) h' (by simp)
  have heq := hboth.eq_of_length (by simp)
  exact hne (by simpa using heq)

theorem layered_suffixSpots {items : List Tree}
    (ih : ∀ t ∈ items, ∀ ways path, Layered (t.spots ways path)) (ways : List Way)
    (path : List Step) (i : Nat) : Layered (Tree.suffixSpots ways path i items) := by
  induction items generalizing ways i with
  | nil => exact layered_cons rfl (fun _ h => nomatch h) trivial
  | cons t ts iht =>
    have hhead := ih t List.mem_cons_self (ways ++ [Way.head]) (path ++ [Step.item i])
    have htail := iht (fun u hu => ih u (List.mem_cons_of_mem _ hu)) (ways ++ [Way.tail]) (i + 1)
    refine layered_cons rfl ?_ (hhead.append htail fun s hs s' hs' => ?_)
    · intro s' hs'
      rcases List.mem_append.mp hs' with hs' | hs'
      · exact ⟨.head, Tree.prefix_of_mem_spots hs'⟩
      · exact ⟨.tail, Tree.prefix_of_mem_suffixSpots hs'⟩
    · exact covers_eq_false (by decide) (Tree.prefix_of_mem_spots hs)
        (Tree.prefix_of_mem_suffixSpots hs')

theorem layered_fieldSpots {fields : List Tree}
    (ih : ∀ t ∈ fields, ∀ ways path, Layered (t.spots ways path)) (ways : List Way)
    (path : List Step) {names : List String} (hn : names.Nodup) :
    Layered (Tree.fieldSpots ways path names fields) := by
  induction fields generalizing names with
  | nil => cases names <;> exact trivial
  | cons t ts iht =>
    cases names with
    | nil => exact trivial
    | cons name names =>
      rw [List.nodup_cons] at hn
      have hfirst := ih t List.mem_cons_self (ways ++ [Way.field name]) (path ++ [Step.field name])
      have hrest := iht (fun u hu => ih u (List.mem_cons_of_mem _ hu)) hn.2
      refine hfirst.append hrest fun s hs s' hs' => ?_
      obtain ⟨name', hmem, hpre⟩ := Tree.prefix_of_mem_fieldSpots hs'
      refine covers_eq_false ?_ (Tree.prefix_of_mem_spots hs) hpre
      intro heq
      cases heq
      exact hn.1 hmem

theorem layered_spots : ∀ (t : Tree) (ways : List Way) (path : List Step),
    Layered (t.spots ways path) := by
  intro t
  induction t using Tree.induct with
  | atom a => exact fun ways path => layered_cons rfl (fun _ h => nomatch h) trivial
  | list items ih => exact fun ways path => layered_suffixSpots ih ways path 0
  | node k sp fields ih =>
    intro ways path
    refine layered_cons rfl (fun s' hs' => ?_) (layered_fieldSpots ih ways path k.nodup_fields)
    obtain ⟨name, _, hpre⟩ := Tree.prefix_of_mem_fieldSpots hs'
    exact ⟨.field name, hpre⟩

theorem Layered.nodup_ways (h : Layered l) : (l.map Spot.ways).Nodup := by
  induction l with
  | nil => exact List.nodup_nil
  | cons s l ih => exact List.nodup_cons.mpr ⟨h.2.1, ih h.2.2⟩

end Spot

end ScopeLint
