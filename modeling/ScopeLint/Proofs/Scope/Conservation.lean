import ScopeLint.Proofs.Scope.Change

/-! No occurrence is lost or doubled. The pairs of a name and an occurrence over all tables of a tree
of scopes are those that were added, whatever is called on its scopes in whatever order, and also
where a call fails on its way: every move gives to one table what it takes from another. -/

namespace ScopeLint

namespace Tables

/-- No table has two entries for one name. -/
def Distinct (T : Tables) : Prop :=
  ∀ i, (T.names i).keys.Nodup ∧ (T.loose i).keys.Nodup

/-- All pairs in the tables of the first scopes. -/
def pairs (T : Tables) (size : Nat) : List (String × Site) :=
  (List.range size).flatMap fun i => (T.names i).pairs ++ (T.loose i).pairs

theorem flatMap_update_perm {β : Type} {F : Nat → List β} {i size : Nat} (hi : i < size)
    {x extra : List β} (hx : x.Perm (F i ++ extra)) :
    ((List.range size).flatMap (Function.update F i x)).Perm
      ((List.range size).flatMap F ++ extra) := by
  induction size with
  | zero => omega
  | succ size ih =>
    rw [List.range_succ, List.flatMap_append, List.flatMap_append]
    simp only [List.flatMap_cons, List.flatMap_nil, List.append_nil]
    by_cases h : i = size
    · subst h
      have hrest : (List.range i).flatMap (Function.update F i x) = (List.range i).flatMap F := by
        apply List.flatMap_congr
        intro k hk
        have : k ≠ i := by have := List.mem_range.mp hk; omega
        rw [Function.update_of_ne this]
      rw [hrest, Function.update_self, List.append_assoc]
      exact hx.append_left _
    · rw [Function.update_of_ne (Ne.symm h)]
      calc ((List.range size).flatMap (Function.update F i x) ++ F size).Perm
            ((List.range size).flatMap F ++ extra ++ F size) := (ih (by omega)).append_right _
        _ |>.Perm ((List.range size).flatMap F ++ F size ++ extra) := by
            rw [List.append_assoc, List.append_assoc]
            exact List.perm_append_comm.append_left _

variable {T : Tables} {i size : Nat}

theorem pairs_setNames_perm (hi : i < size) {t : Table Site} {extra : List (String × Site)}
    (ht : t.pairs.Perm ((T.names i).pairs ++ extra)) :
    (Tables.pairs { T with names := Function.update T.names i t } size).Perm
      (T.pairs size ++ extra) := by
  have hx : (t.pairs ++ (T.loose i).pairs).Perm
      ((fun k => (T.names k).pairs ++ (T.loose k).pairs) i ++ extra) := by
    refine (ht.append_right _).trans ?_
    simp only [List.append_assoc]
    exact List.perm_append_comm.append_left _
  have hF : (fun k => (Function.update T.names i t k).pairs ++ (T.loose k).pairs) =
      Function.update (fun k => (T.names k).pairs ++ (T.loose k).pairs) i
        (t.pairs ++ (T.loose i).pairs) := by
    funext k
    by_cases hk : k = i
    · subst hk; simp
    · simp [hk]
  rw [pairs, pairs, hF]
  exact flatMap_update_perm hi hx

theorem pairs_setLoose_perm (hi : i < size) {t : Table Site} {extra : List (String × Site)}
    (ht : t.pairs.Perm ((T.loose i).pairs ++ extra)) :
    ((T.setLoose i t).pairs size).Perm (T.pairs size ++ extra) := by
  have hx : ((T.names i).pairs ++ t.pairs).Perm
      ((fun k => (T.names k).pairs ++ (T.loose k).pairs) i ++ extra) := by
    refine (ht.append_left _).trans ?_
    simp
  have hF : (fun k => (T.names k).pairs ++ (Function.update T.loose i t k).pairs) =
      Function.update (fun k => (T.names k).pairs ++ (T.loose k).pairs) i
        ((T.names i).pairs ++ t.pairs) := by
    funext k
    by_cases hk : k = i
    · subst hk; simp
    · simp [hk]
  rw [pairs, pairs, setLoose, hF]
  exact flatMap_update_perm hi hx

theorem pairs_give_perm (hi : i < size) (n : String) (l : List Site) :
    ((T.give i n l).pairs size).Perm (T.pairs size ++ l.map fun x => (n, x)) :=
  pairs_setNames_perm hi (Table.pairs_extend_perm _ _ _)

theorem pairs_drop_perm (hT : T.Distinct) (hi : i < size) (n : String) :
    (T.pairs size).Perm ((T.drop i n).pairs size ++ (T.waits i n).map fun x => (n, x)) := by
  have hset : T = (T.drop i n).setLoose i (T.loose i) := by simp [drop, setLoose]
  have hl : (T.drop i n).loose i = (T.loose i).erase n := by simp [drop, setLoose]
  conv_lhs => rw [hset]
  refine pairs_setLoose_perm hi ?_
  rw [hl]
  exact Table.pairs_erase_perm (hT i).2 n

theorem pairs_keep_perm (hT : T.Distinct) (hi : i < size) {n : String}
    (hn : ((T.loose i).get? n).isSome) (l : List Site) :
    ((T.keep i n l).pairs size).Perm ((T.drop i n).pairs size ++ l.map fun x => (n, x)) := by
  have hset : T.keep i n l = (T.drop i n).setLoose i ((T.loose i).replace n l) := by
    simp [keep, drop, setLoose]
  have hl : (T.drop i n).loose i = (T.loose i).erase n := by simp [drop, setLoose]
  rw [hset]
  refine pairs_setLoose_perm hi ?_
  rw [hl]
  exact Table.pairs_replace_perm (hT i).2 hn l

theorem pairs_add_perm (hi : i < size) (here : Bool) (n : String) (x : Site) :
    ((T.add here i n x).pairs size).Perm (T.pairs size ++ [(n, x)]) := by
  cases here with
  | true => exact pairs_give_perm hi n [x]
  | false => exact pairs_setLoose_perm hi (Table.pairs_extend_perm _ _ _)

/-! ### Each table keeps one entry for a name -/

theorem Distinct.give (hT : T.Distinct) (i : Nat) (n : String) (l : List Site) :
    (T.give i n l).Distinct := by
  intro k
  refine ⟨?_, (hT k).2⟩
  by_cases hk : k = i
  · subst hk
    simpa [Tables.give] using Table.nodup_extend (hT k).1 n l
  · simpa [Tables.give, hk] using (hT k).1

theorem Distinct.setLoose (hT : T.Distinct) (i : Nat) {t : Table Site} (ht : t.keys.Nodup) :
    (T.setLoose i t).Distinct := by
  intro k
  refine ⟨(hT k).1, ?_⟩
  by_cases hk : k = i
  · subst hk
    simpa [Tables.setLoose] using ht
  · simpa [Tables.setLoose, hk] using (hT k).2

theorem Distinct.drop (hT : T.Distinct) (i : Nat) (n : String) : (T.drop i n).Distinct :=
  hT.setLoose i (Table.nodup_erase (hT i).2 n)

theorem Distinct.keep (hT : T.Distinct) (i : Nat) (n : String) (l : List Site) :
    (T.keep i n l).Distinct :=
  hT.setLoose i (by rw [Table.keys_replace]; exact (hT i).2)

theorem Distinct.add (hT : T.Distinct) (here : Bool) (i : Nat) (n : String) (x : Site) :
    (T.add here i n x).Distinct := by
  cases here with
  | true => exact hT.give i n [x]
  | false => exact hT.setLoose i (Table.nodup_extend (hT i).2 n [x])

/-! ### Moves -/

/-- The tables hold the same pairs, and one entry for a name as before. -/
structure Conserves (size : Nat) (T U : Tables) : Prop where
  distinct : U.Distinct
  perm : (U.pairs size).Perm (T.pairs size)

theorem Conserves.refl (hT : T.Distinct) : Conserves size T T := ⟨hT, List.Perm.refl _⟩

theorem Conserves.trans {U V : Tables} (h₁ : Conserves size T U) (h₂ : Conserves size U V) :
    Conserves size T V := ⟨h₂.distinct, h₂.perm.trans h₁.perm⟩

/-- Giving to one scope what is loose in another one and then dropping it there. -/
theorem conserves_give_drop (hT : T.Distinct) {j : Nat} (hi : i < size) (hj : j < size) (n : String) :
    Conserves size T ((T.give i n (T.waits j n)).drop j n) := by
  refine ⟨(hT.give i n _).drop j n, ?_⟩
  have hgive := pairs_give_perm (T := T) hi n (T.waits j n)
  have hdrop := pairs_drop_perm (hT.give i n (T.waits j n)) hj n
  rw [waits_give] at hdrop
  exact (List.perm_append_right_iff _).mp (hdrop.symm.trans hgive)

theorem conserves_send (hT : T.Distinct) {m : Nat} (hi : i < size) (hm : m < size) (n : String) :
    Conserves size T (T.send i m n) :=
  ⟨(hT.drop i n).give m n _, (pairs_give_perm hm n _).trans (pairs_drop_perm hT hi n).symm⟩

theorem get?_isSome_of_waits {n : String} (h : T.waits i n ≠ []) : ((T.loose i).get? n).isSome := by
  rcases hg : (T.loose i).get? n with _ | l
  · exact absurd (by simp [waits, Table.itemsOf, hg]) h
  · rfl

theorem conserves_settle (hT : T.Distinct) (hi : i < size) (isClass owns : Bool) (n : String) :
    Conserves size T (T.settle isClass owns i n (T.waits i n)) := by
  unfold settle
  cases isClass with
  | false =>
    cases owns with
    | false => exact .refl hT
    | true => exact conserves_give_drop hT hi hi n
  | true =>
    simp only [↓reduceIte]
    set l := T.waits i n with hl
    have hsplit : (l.takeWhile fun x => x.tree.isRead) ++ (l.dropWhile fun x => x.tree.isRead) = l :=
      List.takeWhile_append_dropWhile
    split_ifs with hrest hreads
    · exact .refl hT
    · have hall : (l.dropWhile fun x => x.tree.isRead) = l := by
        rw [List.isEmpty_iff.mp hreads, List.nil_append] at hsplit
        exact hsplit
      rw [hall]
      exact conserves_give_drop hT hi hi n
    · have hne : T.waits i n ≠ [] := by
        intro h
        rw [← hl] at h
        rw [h] at hrest
        exact hrest rfl
      have hd := hT.give i n (l.dropWhile fun x => x.tree.isRead)
      refine ⟨hd.keep i n _, ?_⟩
      have hkeep := pairs_keep_perm hd hi (get?_isSome_of_waits (by rwa [waits_give]))
        (l.takeWhile fun x => x.tree.isRead)
      have hdrop := pairs_drop_perm hd hi n
      have hgive := pairs_give_perm (T := T) hi n (l.dropWhile fun x => x.tree.isRead)
      rw [waits_give, ← hl] at hdrop
      -- the reads stay behind and the rest is given, so nothing but `l` has moved
      have hmap : (l.map fun x => (n, x)) =
          ((l.takeWhile fun x => x.tree.isRead).map fun x => (n, x)) ++
            (l.dropWhile fun x => x.tree.isRead).map fun x => (n, x) := by
        rw [← List.map_append, hsplit]
      have hcut := hdrop.symm.trans hgive
      rw [hmap, ← List.append_assoc] at hcut
      exact hkeep.trans ((List.perm_append_right_iff _).mp hcut)

theorem conserves_claim (hT : T.Distinct) {j : Nat} (hi : i < size) (hj : j < size)
    (isModule isGlobal : Bool) (n : String) :
    Conserves size T (T.claim isModule isGlobal i j n (T.waits j n)) := by
  unfold claim
  split_ifs
  · exact conserves_give_drop hT hi hj n
  · exact conserves_give_drop hT hj hj n
  · exact .refl hT

/-! ### Loops -/

theorem waits_settle_of_ne (isClass owns : Bool) {n m : String} (h : m ≠ n) (k : Nat) (l : List Site) :
    (T.settle isClass owns i n l).waits k m = T.waits k m := by
  simp only [settle]
  split_ifs <;> simp [waits_drop, waits_keep_of_ne, h]

theorem waits_claim_of_ne (isModule isGlobal : Bool) {j : Nat} {n m : String} (h : m ≠ n) (k : Nat)
    (l : List Site) : (T.claim isModule isGlobal i j n l).waits k m = T.waits k m := by
  unfold claim
  split_ifs <;> simp [waits_drop, h]

/-- A loop over entries that are loose in a scope. What a pass does to one name leaves the other
entries as the loop has found them. -/
theorem conserves_foldl {j : Nat} {step : Tables → String × List Site → Tables}
    (hstep : ∀ (T : Tables) (n : String), T.Distinct → Conserves size T (step T (n, T.waits j n)))
    (hframe : ∀ (T : Tables) (e : String × List Site) (m : String), m ≠ e.1 →
      (step T e).waits j m = T.waits j m) :
    ∀ (t : Table Site) (T : Tables), T.Distinct → t.keys.Nodup →
      (∀ e ∈ t, T.waits j e.1 = e.2) → Conserves size T (t.foldl step T) := by
  intro t
  induction t with
  | nil => intro T hT _ _; exact .refl hT
  | cons e rest ih =>
    obtain ⟨n, l⟩ := e
    intro T hT hn hw
    rw [Table.keys_cons, List.nodup_cons] at hn
    have hl : T.waits j n = l := hw (n, l) List.mem_cons_self
    have hone := hstep T n hT
    rw [hl] at hone
    refine hone.trans (ih _ hone.distinct hn.2 ?_)
    intro d hd
    have hne : d.1 ≠ n := fun h => hn.1 (h ▸ List.mem_map_of_mem hd)
    rw [hframe T (n, l) d.1 hne]
    exact hw d (List.mem_cons_of_mem _ hd)

theorem waits_of_mem (hT : T.Distinct) {e : String × List Site} (he : e ∈ T.loose i) :
    T.waits i e.1 = e.2 := by
  rw [waits, Table.itemsOf, Table.get?_eq_some_of_mem (hT i).2 he]
  rfl

theorem conserves_sendAll (hT : T.Distinct) {m : Nat} (hi : i < size) (hm : m < size)
    (names : List String) : Conserves size T (T.sendAll i m names) := by
  induction names generalizing T with
  | nil => exact .refl hT
  | cons n rest ih =>
    have hone := conserves_send hT hi hm n
    exact hone.trans (ih hone.distinct)

theorem conserves_settleAll (hT : T.Distinct) (hi : i < size) (s : Scope) {t₁ t₂ : Table Site}
    (ht : T.loose i = t₁ ++ t₂) : Conserves size T (T.settleAll s i t₁) := by
  refine conserves_foldl (j := i) (fun _ n hT => conserves_settle hT hi _ _ n)
    (fun _ _ _ h => waits_settle_of_ne _ _ h _ _) t₁ T hT ?_ ?_
  · have hn := (hT i).2
    rw [ht, Table.keys, List.map_append] at hn
    exact (List.nodup_append.mp hn).1
  · intro e he
    exact waits_of_mem hT (by rw [ht]; exact List.mem_append_left _ he)

theorem conserves_claimFrom (hT : T.Distinct) {j : Nat} (hi : i < size) (hj : j < size) (s : Scope) :
    Conserves size T (T.claimFrom s i j) :=
  conserves_foldl (j := j) (fun _ n hT => conserves_claim hT hi hj _ _ n)
    (fun _ _ _ h => waits_claim_of_ne _ _ h _ _) _ T hT (hT j).2 (fun _ he => waits_of_mem hT he)

theorem conserves_claimAll (hT : T.Distinct) (hi : i < size) (s : Scope) {js : List Nat}
    (hjs : ∀ j ∈ js, j < size) : Conserves size T (T.claimAll s i js) := by
  induction js generalizing T with
  | nil => exact .refl hT
  | cons j rest ih =>
    have hone := conserves_claimFrom hT hi (hjs j List.mem_cons_self) s
    exact hone.trans (ih hone.distinct fun k hk => hjs k (List.mem_cons_of_mem _ hk))

end Tables

namespace Change

/-- Resolving conserves all pairs, also where it fails. -/
theorem conserves_resolve {f : Forest} {i m : Nat} {s : Scope} {p : Pending} (hf : f.Live)
    (hT : f.tables.Distinct) (hs : f.scope? i = some s) (hp : s.pending = some p)
    (hm : f.moduleOf i = .ok m) (hms : m < f.size) :
    Tables.Conserves f.size f.tables ((resolve i).exec f).2.tables ∧
      ((resolve i).exec f).2.shells = f.shells := by
  have hi := Forest.lt_size hs
  have hsend := Tables.conserves_sendAll hT hi hms p.globals
  rcases resolve_cases hf hs hp hm hms with ⟨f', he, ht, hsh⟩ | ⟨t₁, t₂, e, f', hl, he, ht, hsh⟩
  · rw [he]
    refine ⟨?_, hsh⟩
    rw [ht, resolved]
    have hsettle := hsend.trans
      (Tables.conserves_settleAll hsend.distinct hi s (List.append_nil _).symm)
    split_ifs
    · exact hsettle
    · exact hsettle.trans (Tables.conserves_claimAll hsettle.distinct hi s
        fun j hj => Forest.lt_size_of_mem_walk hi hj)
  · rw [he]
    refine ⟨?_, hsh⟩
    rw [ht]
    exact hsend.trans (Tables.conserves_settleAll hsend.distinct hi s hl)

end Change

/-! ### Calls in any order -/

/-- A call on a scope of a tree of scopes, by its number. -/
inductive Call where
  | child (parent : Nat) (owner : Tree)
  | add (i : Nat) (name : String) (site : Site)
  | makeGlobal (i : Nat) (names : List Tree)
  | importAll (i : Nat)
  | resolve (i : Nat)

namespace Call

def change : Call → Change Unit
  | child parent owner => do
    if parent < (← get).size then discard (Change.create (some parent) owner) else throw .noElement
  | add i name site => Change.add i name site
  | makeGlobal i names => Change.declareGlobal i names
  | importAll i => Change.update i fun s => { s with hasStars := true }
  | resolve i => Change.resolve i

/-- What a call adds if it returns. -/
def adds : Call → List (String × Site)
  | add _ name site => [(name, site)]
  | _ => []

end Call

/-- A tree of scopes, with all that was added to it by calls that returned. -/
structure Journal where
  forest : Forest
  added : List (String × Site)

namespace Journal

/-- One scope that belongs to a node. -/
def start (root : Tree) : Journal := ⟨Forest.empty.push none root, []⟩

/-- What a call did before it failed stays done. -/
def call (J : Journal) (c : Call) : Journal :=
  match c.change.exec J.forest with
  | (.ok _, f) => ⟨f, J.added ++ c.adds⟩
  | (.error _, f) => ⟨f, J.added⟩

end Journal

namespace Forest

/-- Every pair of a name and an occurrence in a table of a scope, the loose ones included. -/
def occurrences (f : Forest) : List (String × Site) :=
  f.scopes.flatMap fun s => s.names.pairs ++ s.loose.pairs

theorem flatMap_eq_range {α β : Type} (l : List α) (g : α → List β) :
    l.flatMap g = (List.range l.length).flatMap fun i => (l[i]?.map g).getD [] := by
  induction l with
  | nil => rfl
  | cons a l ih =>
    rw [List.flatMap_cons, List.length_cons, List.range_succ_eq_map, List.flatMap_cons,
      List.flatMap_map, ih]
    rfl

theorem occurrences_eq_pairs (f : Forest) : f.occurrences = f.tables.pairs f.size := by
  rw [occurrences, flatMap_eq_range]
  apply List.flatMap_congr
  intro i hi
  obtain ⟨s, hs⟩ := scope?_eq_some (List.mem_range.mp hi)
  rw [tables_names hs, tables_loose hs]
  have : f.scopes[i]? = some s := hs
  rw [this]
  rfl

/-- What every call keeps: the scopes are open for changes, they form a tree with a module at the
root, and no table has two entries for one name. -/
structure Sound (f : Forest) : Prop where
  live : f.Live
  nested : f.Nested
  rooted : f.Rooted
  distinct : f.tables.Distinct

namespace Sound

variable {f : Forest}

theorem of_tables {g : Forest} (hf : f.Sound) (hs : g.shells = f.shells)
    (ht : g.tables.Distinct) : g.Sound :=
  ⟨hf.live.of_shells hs, hf.nested.of_frame (frame_of_shells hs), hf.rooted.of_frame (frame_of_shells hs),
    ht⟩

/-- Changes of a scope that touch neither its tables nor its place. -/
theorem update (hf : f.Sound) {i : Nat} {g : Scope → Scope} (hc : ∀ s, (g s).closed = s.closed)
    (hp : ∀ s, (g s).pending.isSome = s.pending.isSome) (hpar : ∀ s, (g s).parent = s.parent)
    (hown : ∀ s, (g s).owner = s.owner) (ht : (f.update i g).tables = f.tables) :
    (f.update i g).Sound :=
  ⟨hf.live.update hc hp, hf.nested.of_frame (frame_update hpar hown),
    hf.rooted.of_frame (frame_update hpar hown), by rw [ht]; exact hf.distinct⟩

end Sound

/-- A module alone. -/
theorem sound_start {root : Tree} (hr : root.isKind .module = true) :
    (Forest.empty.push none root).Sound := by
  have hscope : (Forest.empty.push none root).scope? 0 = some (Scope.fresh none root) := rfl
  have hsize : (Forest.empty.push none root).size = 1 := rfl
  refine ⟨?_, ?_, ⟨⟨_, hscope, hr⟩, ?_⟩, ?_⟩
  · intro h hmem
    have : h = (Scope.fresh none root).shell := by
      simpa [Forest.shells, Forest.push, Forest.empty] using hmem
    subst this
    exact ⟨rfl, rfl⟩
  · intro i s p hs hp
    have hi := Forest.lt_size hs
    rw [hsize] at hi
    obtain rfl : i = 0 := by omega
    rw [hscope] at hs
    cases hs
    cases hp
  · intro i hi hlt
    omega
  · intro i
    rw [Forest.tables_push]
    exact ⟨List.nodup_nil, List.nodup_nil⟩

end Forest

namespace Change

theorem pending_declareTree (names : List Tree) (p : Pending) :
    (names.foldl declareTree p).unscoped = p.unscoped := by
  induction names generalizing p with
  | nil => rfl
  | cons t names ih =>
    rw [List.foldl_cons, ih]
    cases t with
    | atom a =>
      simp only [declareTree, declare]
      split <;> split_ifs <;> rfl
    | list items => rfl
    | node k s fields => rfl

theorem loose_declared (names : List Tree) (s : Scope) : (declared names s).loose = s.loose := by
  simp only [declared, Scope.loose]
  cases s.pending with
  | none => rfl
  | some p => simp [pending_declareTree]

end Change

namespace Journal

/-- The journal is in order: nothing that was added is missing, and there is nothing else. -/
structure Balanced (J : Journal) : Prop where
  sound : J.forest.Sound
  perm : J.forest.occurrences.Perm J.added

theorem start_balanced {root : Tree} (hr : root.isKind .module = true) : (start root).Balanced :=
  ⟨Forest.sound_start hr, List.Perm.refl _⟩

variable {J : Journal}

theorem call_eq {c : Call} {r : Except Fault Unit} {g : Forest}
    (he : c.change.exec J.forest = (r, g)) :
    J.call c = ⟨g, J.added ++ if r.isOk then c.adds else []⟩ := by
  rw [call, he]
  cases r <;> simp [Except.isOk, Except.toBool]

theorem perm_of_tables (h : J.Balanced) {g : Forest} (hsize : g.size = J.forest.size)
    {extra : List (String × Site)}
    (hp : (g.tables.pairs J.forest.size).Perm (J.forest.tables.pairs J.forest.size ++ extra)) :
    g.occurrences.Perm (J.added ++ extra) := by
  rw [Forest.occurrences_eq_pairs, hsize]
  refine hp.trans (List.Perm.append_right _ ?_)
  rw [← Forest.occurrences_eq_pairs]
  exact h.perm

/-- A call that only changes what the tables of no scope show. -/
theorem balanced_of_tables (h : J.Balanced) {c : Call} (hc : c.adds = [])
    {r : Except Fault Unit} {g : Forest} (he : c.change.exec J.forest = (r, g)) (hg : g.Sound)
    (hsize : g.size = J.forest.size) (ht : g.tables = J.forest.tables) : (J.call c).Balanced := by
  rw [call_eq he, hc, ite_self]
  refine ⟨hg, perm_of_tables h hsize ?_⟩
  rw [ht, List.append_nil]

theorem balanced_child (h : J.Balanced) (parent : Nat) (owner : Tree) :
    (J.call (.child parent owner)).Balanced := by
  by_cases hp : parent < J.forest.size
  · have he : (Call.child parent owner).change.exec J.forest =
        (.ok (), J.forest.push (some parent) owner) := by
      rw [Call.change, Change.exec_bind_ok (Change.exec_get _), if_pos hp]
      rfl
    have htab := Forest.tables_push J.forest (some parent) owner
    rw [call_eq he]
    refine ⟨⟨h.sound.live.push _ _, h.sound.nested.push (fun p hpp => ?_) _,
      h.sound.rooted.push _ _, ?_⟩, ?_⟩
    · cases hpp
      exact hp
    · rw [htab]
      exact h.sound.distinct
    · have : (J.forest.push (some parent) owner).occurrences = J.forest.occurrences := by
        simp [Forest.occurrences, Forest.push, Scope.fresh, Scope.loose, Table.pairs]
      simpa [this, Call.adds] using h.perm
  · have he : (Call.child parent owner).change.exec J.forest = (.error .noElement, J.forest) := by
      rw [Call.change, Change.exec_bind_ok (Change.exec_get _), if_neg hp]
      rfl
    exact balanced_of_tables h rfl he h.sound rfl rfl

theorem balanced_add (h : J.Balanced) (i : Nat) (n : String) (x : Site) :
    (J.call (.add i n x)).Balanced := by
  rcases hs : J.forest.scope? i with _ | s
  · have he : (Call.add i n x).change.exec J.forest = (.error .noElement, J.forest) := by
      rw [Call.change, Change.add, Change.exec_bind_error (Change.exec_scope_none hs)]
    rw [call_eq he]
    exact ⟨h.sound, by simpa [Except.isOk, Except.toBool] using h.perm⟩
  · have hi := Forest.lt_size hs
    obtain ⟨g, he, ht, hsh⟩ := Change.add_yields h.sound.live hs n x
    rw [call_eq (c := .add i n x) he]
    refine ⟨h.sound.of_tables hsh ?_, perm_of_tables h (Forest.size_eq_of_shells hsh) ?_⟩
    · rw [ht]
      exact h.sound.distinct.add _ i n x
    · rw [ht]
      exact Tables.pairs_add_perm hi _ n x

theorem balanced_makeGlobal (h : J.Balanced) (i : Nat) (names : List Tree) :
    (J.call (.makeGlobal i names)).Balanced := by
  rcases hs : J.forest.scope? i with _ | s
  · have he : (Call.makeGlobal i names).change.exec J.forest = (.error .noElement, J.forest) := by
      rw [Call.change, Change.declareGlobal, Change.exec_bind_error]
      rw [Change.pending, Change.exec_bind_error (Change.exec_scope_none hs)]
    exact balanced_of_tables h rfl he h.sound rfl rfl
  · obtain ⟨r, pre, post, -, he, -⟩ :=
      Change.exec_declareGlobal h.sound.live (Forest.lt_size hs) names
    have ht : (J.forest.update i (Change.declared pre)).tables = J.forest.tables :=
      Forest.tables_update_eq (fun _ => rfl) (Change.loose_declared pre)
    refine balanced_of_tables h rfl he ?_ (Forest.size_update _ _ _) ht
    exact h.sound.update (fun _ => rfl) (fun _ => by simp [Change.declared]) (fun _ => rfl)
      (fun _ => rfl) ht

theorem balanced_importAll (h : J.Balanced) (i : Nat) : (J.call (.importAll i)).Balanced := by
  have ht : (J.forest.update i fun s => { s with hasStars := true }).tables = J.forest.tables :=
    Forest.tables_update_eq (fun _ => rfl) (fun _ => rfl)
  refine balanced_of_tables h rfl (Change.exec_update _ _ _) ?_ (Forest.size_update _ _ _) ht
  exact h.sound.update (fun _ => rfl) (fun _ => rfl) (fun _ => rfl) (fun _ => rfl) ht

theorem balanced_resolve (h : J.Balanced) (i : Nat) : (J.call (.resolve i)).Balanced := by
  rcases hs : J.forest.scope? i with _ | s
  · have he : (Call.resolve i).change.exec J.forest = (.error .noElement, J.forest) := by
      rw [Call.change, Change.resolve, Change.exec_bind_error]
      rw [Change.pending, Change.exec_bind_error (Change.exec_scope_none hs)]
    exact balanced_of_tables h rfl he h.sound rfl rfl
  · obtain ⟨-, p, hp⟩ := h.sound.live.scope hs
    obtain ⟨m, t, hm, ht, -⟩ := h.sound.rooted.exists_module h.sound.nested (Forest.lt_size hs)
    have hms := Forest.lt_size ht
    obtain ⟨hcons, hsh⟩ :=
      Change.conserves_resolve h.sound.live h.sound.distinct hs hp hm hms
    have hcall := call_eq (J := J) (c := .resolve i) (r := ((Change.resolve i).exec J.forest).1) rfl
    rw [hcall]
    simp only [Call.adds, ite_self]
    refine ⟨h.sound.of_tables hsh hcons.distinct, perm_of_tables h (Forest.size_eq_of_shells hsh) ?_⟩
    rw [List.append_nil]
    exact hcons.perm

theorem Balanced.call (h : J.Balanced) (c : Call) : (J.call c).Balanced := by
  cases c with
  | child parent owner => exact balanced_child h parent owner
  | add i n x => exact balanced_add h i n x
  | makeGlobal i names => exact balanced_makeGlobal h i names
  | importAll i => exact balanced_importAll h i
  | resolve i => exact balanced_resolve h i

theorem Balanced.run (h : J.Balanced) (calls : List Call) : (calls.foldl Journal.call J).Balanced := by
  induction calls generalizing J with
  | nil => exact h
  | cons c calls ih => exact ih (h.call c)

/-- However calls are made on the scopes of a tree with a module at the root, its tables hold what was
added, each occurrence as often as it was added. -/
theorem occurrences_perm_added {root : Tree} (hr : root.isKind .module = true) (calls : List Call) :
    (calls.foldl call (start root)).forest.occurrences.Perm (calls.foldl call (start root)).added :=
  ((start_balanced hr).run calls).perm

/-- A function in a module reads a name and passes on a constant as an occurrence of another one, so
that resolving it fails. Resolving the module then leaves both with the function. -/
theorem occurrences_perm_added_after_fault :
    let root := Tree.node .module .absent [.list [], .list []]
    let read := Site.root (.node .name .absent [.atom (.str "x"), .node .load .absent []])
    let other := Site.root (.node .constant .absent [.atom (.int 1), .null])
    let calls : List Call := [.child 0 (.node .lambda .absent []), .add 1 "x" read,
      .add 1 "y" other, .resolve 1, .add 2 "x" read, .makeGlobal 1 [.list []], .resolve 0]
    ((Change.resolve 1).exec ((calls.take 3).foldl call (start root)).forest).1 =
        .error (.missingAttribute "Constant" "ctx") ∧
      (calls.foldl call (start root)).forest.occurrences.Perm [("x", read), ("y", other)] :=
  ⟨rfl, occurrences_perm_added rfl _⟩

end Journal

end ScopeLint
