import Mathlib.Logic.Function.Basic
import ScopeLint.Proofs.Scope.Table
import ScopeLint.Scope.Resolve

/-! A forest in two parts. Of a scope, resolving only moves occurrences between two tables, the one
of the names that the scope owns and the one of those that are loose in it; all else is its shell.
Star records and strays belong to neither part. -/

namespace ScopeLint

/-- What resolving never changes in a scope. -/
structure Shell where
  parent : Option Nat
  owner : Tree
  closed : Bool
  declared : Option (List String × List Atom)
  imports : List Site
  hasStars : Bool
  future : List Atom
  exported : Option (Option Literal)

namespace Scope

def shell (s : Scope) : Shell :=
  ⟨s.parent, s.owner, s.closed, s.pending.map fun p => (p.globals, p.strays), s.imports, s.hasStars,
    s.future, s.exported⟩

/-- The pending occurrences; a frozen scope has none. -/
def loose (s : Scope) : Table Site := (s.pending.map Pending.unscoped).getD []

end Scope

/-- The two tables of every scope. -/
structure Tables where
  names : Nat → Table Site
  loose : Nat → Table Site

namespace Tables

/-- Whether a scope has an entry for a name. -/
def knows (T : Tables) (i : Nat) (n : String) : Bool := (T.names i).contains n

def owned (T : Tables) (i : Nat) (n : String) : List Site := (T.names i).itemsOf n

/-- The occurrences of a name that are loose in a scope. -/
def waits (T : Tables) (i : Nat) (n : String) : List Site := (T.loose i).itemsOf n

def give (T : Tables) (i : Nat) (n : String) (l : List Site) : Tables :=
  { T with names := Function.update T.names i ((T.names i).extend n l) }

def setLoose (T : Tables) (i : Nat) (t : Table Site) : Tables :=
  { T with loose := Function.update T.loose i t }

/-- Takes a name out of the loose ones. -/
def drop (T : Tables) (i : Nat) (n : String) : Tables := T.setLoose i ((T.loose i).erase n)

/-- Leaves other occurrences of a name loose. -/
def keep (T : Tables) (i : Nat) (n : String) (l : List Site) : Tables :=
  T.setLoose i ((T.loose i).replace n l)

/-! A change of one entry, seen from every scope and name. -/

section Entries

variable (T : Tables) (i k : Nat) (n m : String) (l : List Site)

@[simp] theorem waits_give : (T.give i n l).waits k m = T.waits k m := rfl

theorem waits_drop : (T.drop i n).waits k m = if k = i ∧ m = n then [] else T.waits k m := by
  by_cases hk : k = i
  · subst hk
    simp [waits, drop, setLoose, Table.itemsOf_erase]
  · simp [waits, drop, setLoose, hk]

theorem waits_keep_of_ne (h : m ≠ n) : (T.keep i n l).waits k m = T.waits k m := by
  by_cases hk : k = i
  · subst hk
    simp [waits, keep, setLoose, Table.itemsOf, Table.get?_replace, h]
  · simp [waits, keep, setLoose, hk]

end Entries

end Tables

namespace Forest

def shells (f : Forest) : List Shell := f.scopes.map Scope.shell

def tables (f : Forest) : Tables :=
  ⟨fun i => ((f.scope? i).map Scope.names).getD [], fun i => ((f.scope? i).map Scope.loose).getD []⟩

/-- The forest is open for changes. -/
def Live (f : Forest) : Prop := ∀ h ∈ f.shells, h.closed = false ∧ h.declared.isSome

theorem length_shells (f : Forest) : f.shells.length = f.size := by simp [shells, size]

theorem getElem?_shells (f : Forest) (i : Nat) : f.shells[i]? = (f.scope? i).map Scope.shell := by
  simp [shells, scope?]

theorem size_eq_of_shells {f g : Forest} (h : f.shells = g.shells) : f.size = g.size := by
  rw [← length_shells, h, length_shells]

theorem scope?_eq_some {f : Forest} {i : Nat} (hi : i < f.size) : ∃ s, f.scope? i = some s :=
  ⟨f.scopes[i], List.getElem?_eq_getElem hi⟩

theorem lt_size {f : Forest} {i : Nat} {s : Scope} (h : f.scope? i = some s) : i < f.size := by
  by_contra hn
  rw [scope?, List.getElem?_eq_none (Nat.le_of_not_lt hn)] at h
  cases h

theorem tables_names {f : Forest} {i : Nat} {s : Scope} (h : f.scope? i = some s) :
    f.tables.names i = s.names := by simp [tables, h]

theorem tables_loose {f : Forest} {i : Nat} {s : Scope} (h : f.scope? i = some s) :
    f.tables.loose i = s.loose := by simp [tables, h]

theorem shell_eq_of_shells {f g : Forest} (h : f.shells = g.shells) {i : Nat} {s t : Scope}
    (hs : f.scope? i = some s) (ht : g.scope? i = some t) : s.shell = t.shell := by
  have hi := congrArg (fun l => l[i]?) h
  simpa [getElem?_shells, hs, ht] using hi

theorem Live.of_shells {f g : Forest} (hf : f.Live) (h : g.shells = f.shells) : g.Live := by
  rw [Live, h]
  exact hf

theorem Live.scope {f : Forest} (hf : f.Live) {i : Nat} {s : Scope} (h : f.scope? i = some s) :
    s.closed = false ∧ ∃ p, s.pending = some p := by
  have hmem : s.shell ∈ f.shells :=
    List.mem_of_getElem? (i := i) (by rw [getElem?_shells, h]; rfl)
  obtain ⟨hc, hp⟩ := hf _ hmem
  refine ⟨hc, ?_⟩
  simpa [Scope.shell, Option.isSome_iff_exists] using hp

/-! ### Changing one scope -/

theorem scope?_update (f : Forest) (i k : Nat) (g : Scope → Scope) :
    (f.update i g).scope? k = if i = k then (f.scope? k).map g else f.scope? k := by
  simp only [update, scope?, List.getElem?_modify]
  split_ifs <;> simp

@[simp] theorem size_update (f : Forest) (i : Nat) (g : Scope → Scope) :
    (f.update i g).size = f.size := by simp [update, size]

theorem shells_update {f : Forest} {i : Nat} {g : Scope → Scope}
    (hg : ∀ s, f.scope? i = some s → (g s).shell = s.shell) : (f.update i g).shells = f.shells := by
  apply List.ext_getElem?
  intro k
  rw [getElem?_shells, getElem?_shells, scope?_update]
  split_ifs with h
  · subst h
    rcases hs : f.scope? i with _ | s
    · rfl
    · simp [hg s hs]
  · rfl

theorem tables_update {f : Forest} {i : Nat} {g : Scope → Scope} {t u : Table Site}
    (hi : i < f.size) (ht : ∀ s, f.scope? i = some s → (g s).names = t)
    (hu : ∀ s, f.scope? i = some s → (g s).loose = u) :
    (f.update i g).tables =
      ⟨Function.update f.tables.names i t, Function.update f.tables.loose i u⟩ := by
  obtain ⟨s, hs⟩ := scope?_eq_some hi
  simp only [tables, Tables.mk.injEq]
  constructor
  · funext k
    by_cases hk : i = k
    · subst hk
      simp [scope?_update, hs, ht s hs]
    · simp [scope?_update, hk, Ne.symm hk]
  · funext k
    by_cases hk : i = k
    · subst hk
      simp [scope?_update, hs, hu s hs]
    · simp [scope?_update, hk, Ne.symm hk]

/-! ### A further scope -/

@[simp] theorem size_push (f : Forest) (parent : Option Nat) (owner : Tree) :
    (f.push parent owner).size = f.size + 1 := by simp [push, size]

theorem scope?_push (f : Forest) (parent : Option Nat) (owner : Tree) (k : Nat) :
    (f.push parent owner).scope? k =
      if k = f.size then some (Scope.fresh parent owner) else f.scope? k := by
  have hsize : f.size = f.scopes.length := rfl
  simp only [push, scope?]
  rcases Nat.lt_trichotomy k f.size with hlt | heq | hgt
  · rw [if_neg (by omega), List.getElem?_append_left (by omega)]
  · rw [if_pos heq, heq, hsize]
    simp
  · rw [if_neg (by omega), List.getElem?_eq_none (by simp; omega),
      List.getElem?_eq_none (by omega)]

theorem shells_push (f : Forest) (parent : Option Nat) (owner : Tree) :
    (f.push parent owner).shells = f.shells ++ [(Scope.fresh parent owner).shell] := by
  simp [push, shells]

theorem scope?_size (f : Forest) : f.scope? f.size = none := List.getElem?_eq_none (Nat.le_refl _)

/-- A fresh scope has empty tables. -/
theorem tables_push (f : Forest) (parent : Option Nat) (owner : Tree) :
    (f.push parent owner).tables = f.tables := by
  simp only [tables, scope?_push, Tables.mk.injEq]
  constructor
  · funext k
    split_ifs with h
    · subst h
      simp [scope?_size, Scope.fresh]
    · rfl
  · funext k
    split_ifs with h
    · subst h
      simp [scope?_size, Scope.fresh, Scope.loose]
    · rfl

theorem Live.push {f : Forest} (hf : f.Live) (parent : Option Nat) (owner : Tree) :
    (f.push parent owner).Live := by
  intro h hmem
  rw [shells_push, List.mem_append, List.mem_singleton] at hmem
  rcases hmem with hmem | rfl
  · exact hf h hmem
  · exact ⟨rfl, rfl⟩

theorem Live.update {f : Forest} (hf : f.Live) {i : Nat} {g : Scope → Scope}
    (hc : ∀ s, (g s).closed = s.closed) (hp : ∀ s, (g s).pending.isSome = s.pending.isSome) :
    (f.update i g).Live := by
  intro h hmem
  obtain ⟨k, hk⟩ := List.getElem?_of_mem hmem
  rw [getElem?_shells, scope?_update] at hk
  obtain ⟨t, ht, rfl⟩ := Option.map_eq_some_iff.mp hk
  split_ifs at ht with hik
  · obtain ⟨s, hs, rfl⟩ := Option.map_eq_some_iff.mp ht
    obtain ⟨hcl, p, hpe⟩ := hf.scope hs
    have := hp s
    simp_all [Scope.shell]
  · obtain ⟨hcl, p, hpe⟩ := hf.scope ht
    simp [Scope.shell, hcl, hpe]

/-- Two forests that differ in star records and strays at most. -/
structure Alike (f g : Forest) : Prop where
  tables : f.tables = g.tables
  shells : f.shells = g.shells

namespace Alike

theorem of_scope? {f g : Forest} (r : Scope → List (String × StarRecord))
    (q : Scope → List (Nat × Atom))
    (h : ∀ k, f.scope? k = (g.scope? k).map fun s => { s with fromStars := r s, strays := q s }) :
    f.Alike g := by
  refine ⟨?_, ?_⟩
  · simp only [Forest.tables, h, Tables.mk.injEq]
    constructor <;> funext k <;> cases g.scope? k <;> rfl
  · apply List.ext_getElem?
    intro k
    rw [getElem?_shells, getElem?_shells, h]
    cases g.scope? k <;> rfl

end Alike

theorem release_alike (f : Forest) (i : Nat) (n : String) : (f.release i n).Alike f :=
  Alike.of_scope? _ Scope.strays fun k => by
    simp only [release, scope?, List.getElem?_map]
    rfl

theorem forward_alike (f : Forest) (i : Nat) (n : String) (l : List Site) :
    (f.forward i n l).Alike f :=
  Alike.of_scope? _ Scope.strays fun k => by
    simp only [forward, scope?, List.getElem?_map]
    rfl

theorem tables_update_eq {f : Forest} {i : Nat} {g : Scope → Scope} (hn : ∀ s, (g s).names = s.names)
    (hl : ∀ s, (g s).loose = s.loose) : (f.update i g).tables = f.tables := by
  simp only [tables, scope?_update, Tables.mk.injEq]
  constructor <;> funext k <;> split_ifs <;> cases f.scope? k <;> simp [hn, hl]

theorem update_alike {f : Forest} {i : Nat} {g : Scope → Scope}
    (hn : ∀ s, (g s).names = s.names) (hl : ∀ s, (g s).loose = s.loose)
    (hs : ∀ s, (g s).shell = s.shell) : (f.update i g).Alike f :=
  ⟨tables_update_eq hn hl, shells_update fun s _ => hs s⟩

end Forest

end ScopeLint
