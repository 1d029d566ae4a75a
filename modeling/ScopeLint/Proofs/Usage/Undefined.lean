import ScopeLint.Proofs.Scope.Attribution
import ScopeLint.Proofs.Usage.Remarks

/-! Which names are reported as undefined. A check that completes meets every name of every scope in
one entry, so a report is made once, for the scope to which the occurrences belong. -/

namespace ScopeLint

/-! ### One entry for every name of a scope -/

theorem Scope.entries_of_straysAt {s : Scope} (hinner : ∀ d ∈ s.names.zipIdx, s.straysAt d.2 = [])
    (hlast : s.straysAt s.names.length = []) : s.entries = s.names.map fun e => (.str e.1, e.2) := by
  have hone : ∀ d ∈ s.names.zipIdx,
      s.straysAt d.2 ++ [(Atom.str d.1.1, d.1.2)] = [(Atom.str d.1.1, d.1.2)] := by
    intro d hd
    rw [hinner d hd, List.nil_append]
  rw [entries, hlast, List.append_nil, List.flatMap_congr hone, ← List.map_eq_flatMap]
  conv_rhs => rw [← List.zipIdx_map_fst 0 s.names, List.map_map]
  rfl

theorem Scope.entries_eq {s : Scope} (h : ∀ e ∈ s.entries, e.2 ≠ []) :
    s.entries = s.names.map fun e => (.str e.1, e.2) := by
  -- A stray has no occurrences, so there are none.
  have hstrays (k : Nat) (hsub : s.straysAt k ⊆ s.entries) : s.straysAt k = [] := by
    rw [List.eq_nil_iff_forall_not_mem]
    intro e he
    obtain ⟨⟨l, a⟩, -, ha⟩ := List.mem_filterMap.mp he
    dsimp only at ha
    split_ifs at ha
    cases ha
    exact h _ (hsub he) rfl
  refine entries_of_straysAt (fun d hd => ?_) (hstrays _ fun e he => List.mem_append_right _ he)
  exact hstrays d.2 fun e he => List.mem_append_left _
    (List.mem_flatMap.mpr ⟨d, hd, List.mem_append_left _ he⟩)

theorem Scope.entries_of_no_strays {s : Scope} (h : s.strays = []) :
    s.entries = s.names.map fun e => (.str e.1, e.2) := by
  have hnone : ∀ k, s.straysAt k = [] := by
    intro k
    rw [straysAt, h]
    rfl
  exact entries_of_straysAt (fun d _ => hnone d.2) (hnone _)

namespace Forest

variable {f : Forest} {L : Log} {i j : Nat} {n : String}

/-- An entry of a name for each pair in the tables, scope by scope. -/
theorem entries_eq (h : ∀ e ∈ f.entries 0, e.2.2 ≠ []) :
    f.entries 0 = (f.walk 0).flatMap fun j => (f.tables.names j).map fun e => (j, .str e.1, e.2) := by
  rw [entries]
  apply List.flatMap_congr
  intro j hj
  rcases hs : f.scope? j with _ | s
  · simp [tables, hs]
  · have hsites : ∀ e ∈ s.entries, e.2 ≠ [] := by
      intro e he
      refine h (j, e) (List.mem_flatMap.mpr ⟨j, hj, ?_⟩)
      rw [hs]
      exact List.mem_map.mpr ⟨e, he, rfl⟩
    simp [s.entries_eq hsites, tables_names hs]

theorem Realizes.nodup_entries (hf : f.Realizes L) (h : ∀ e ∈ f.entries 0, e.2.2 ≠ []) :
    ((f.entries 0).map fun e => (e.1, e.2.1)).Nodup := by
  have hzero : 0 < f.size := by rw [hf.size]; exact hf.proper.pos
  rw [entries_eq h, List.map_flatMap, List.nodup_flatMap]
  constructor
  · intro j hj
    obtain ⟨s, hs⟩ := scope?_eq_some (lt_size_of_mem_walk hzero hj)
    rw [tables_names hs, List.map_map]
    refine List.Nodup.of_map (fun k => k.2) ?_
    rw [List.map_map]
    have := (hf.distinct j s hs).map (f := Atom.str) (fun a b hab => Atom.str.inj hab)
    rwa [Table.keys, List.map_map] at this
  · refine (hf.nested.nodup_walk hzero).imp_of_mem ?_
    intro a b _ _ hab k ha hb
    simp only [List.map_map, List.mem_map, Function.comp_apply] at ha hb
    obtain ⟨_, -, rfl⟩ := ha
    obtain ⟨_, -, hk⟩ := hb
    exact hab (Prod.mk.inj hk).1.symm

theorem lt_size_of_owned (h : f.tables.owned i n ≠ []) : i < f.size := by
  by_contra hlt
  have hnone : f.scope? i = none := List.getElem?_eq_none (Nat.le_of_not_lt hlt)
  simp [Tables.owned, tables, hnone, Table.itemsOf] at h

/-- The entry of a name in a scope has all that the scope owns of the name. -/
theorem Realizes.mem_entries (hf : f.Realizes L) (h : ∀ e ∈ f.entries 0, e.2.2 ≠ [])
    {sites : List Site} :
    (i, .str n, sites) ∈ f.entries 0 ↔ sites = f.tables.owned i n ∧ sites ≠ [] := by
  constructor
  · intro hmem
    refine ⟨?_, h _ hmem⟩
    rw [entries_eq h] at hmem
    obtain ⟨j, hj, hmem⟩ := List.mem_flatMap.mp hmem
    obtain ⟨e, he, heq⟩ := List.mem_map.mp hmem
    cases heq
    have hzero : 0 < f.size := by rw [hf.size]; exact hf.proper.pos
    obtain ⟨s, hs⟩ := scope?_eq_some (lt_size_of_mem_walk hzero hj)
    have hnodup := hf.distinct i s hs
    rw [← tables_names hs] at hnodup
    rw [Tables.owned, Table.itemsOf, Table.get?_eq_some_of_mem hnodup he, Option.getD_some]
  · rintro ⟨rfl, hne⟩
    have hi := lt_size_of_owned hne
    rcases hget : (f.tables.names i).get? n with _ | sites
    · simp [Tables.owned, Table.itemsOf, hget] at hne
    rw [entries_eq h, List.mem_flatMap]
    refine ⟨i, hf.mem_walk hi, List.mem_map.mpr ⟨(n, sites), Table.mem_of_get? hget, ?_⟩⟩
    simp [Tables.owned, Table.itemsOf, hget]

end Forest

/-! ### One report for every name that is undefined -/

/-- Where keys do not repeat, at most one item has a key. -/
theorem countP_of_nodup {α κ : Type} {key : α → κ} {l : List α} (hn : (l.map key).Nodup) {a : α}
    (ha : a ∈ l) {p : α → Bool} (hp : ∀ b ∈ l, p b = true → key b = key a) :
    l.countP p = if p a then 1 else 0 := by
  obtain ⟨front, rest, rfl⟩ := List.append_of_mem ha
  rw [List.map_append, List.map_cons, List.nodup_middle, List.nodup_cons, ← List.map_append] at hn
  have hother : ∀ b ∈ front ++ rest, p b ≠ true := by
    intro b hb hpb
    have hkey := hp b (by simp only [List.mem_append, List.mem_cons] at hb ⊢; tauto) hpb
    exact hn.1 (hkey ▸ List.mem_map_of_mem hb)
  have hzero : (front ++ rest).countP p = 0 := List.countP_eq_zero.mpr hother
  rw [List.countP_append] at hzero
  rw [List.countP_append, List.countP_cons]
  omega

namespace Forest

variable {f : Forest} {L : Log} {i j : Nat} {n : String}

/-- Whether a scope owns occurrences of a name, all of them uses, and cannot know the name. -/
def lacks (f : Forest) (i : Nat) (n : String) : Bool :=
  !(f.tables.owned i n).isEmpty &&
    (f.scope? i).any fun s => Usage.isUndefined f i s n (f.tables.owned i n)

/-- A test that only an entry of a name in a scope can pass, counted over all entries. -/
theorem Realizes.countP_entries (hf : f.Realizes L) (h : ∀ e ∈ f.entries 0, e.2.2 ≠ [])
    {p : Usage.Entry → Bool} (hp : ∀ e, p e = true → e.1 = i ∧ e.2.1 = .str n) :
    (f.entries 0).countP p =
      if !(f.tables.owned i n).isEmpty && p (i, .str n, f.tables.owned i n) then 1 else 0 := by
  by_cases hne : f.tables.owned i n = []
  · rw [hne, List.isEmpty_nil, Bool.not_true, Bool.false_and, if_neg Bool.false_ne_true,
      List.countP_eq_zero]
    rintro ⟨j, a, sites⟩ he hpe
    obtain ⟨rfl, rfl⟩ := hp _ hpe
    obtain ⟨hsites, hne'⟩ := (hf.mem_entries h).mp he
    exact hne' (hsites.trans hne)
  · have hmem : (i, .str n, f.tables.owned i n) ∈ f.entries 0 := (hf.mem_entries h).mpr ⟨rfl, hne⟩
    rw [countP_of_nodup (hf.nodup_entries h) hmem]
    · rw [List.isEmpty_eq_false_iff.mpr hne, Bool.not_false, Bool.true_and]
    · intro e _ hpe
      rw [(hp e hpe).1, (hp e hpe).2]

theorem Realizes.length_reports (hf : f.Realizes L) {file : SourceFile} {rs : List Usage.Remark}
    (h : Usage.Tells file f (f.entries 0) rs) (i : Nat) (n : String) :
    (Usage.reports file rs i n).length = if f.lacks i n then 1 else 0 := by
  rw [h.undefined, hf.countP_entries h.sites (i := i) (n := n)]
  · simp [Usage.Entry.isUndefined, lacks]
  · intro e hu
    simp only [Usage.Entry.isUndefined, Bool.and_eq_true, decide_eq_true_eq] at hu
    exact hu.1

/-! ### What a scope lacks -/

/-- Whether a scope owns an occurrence that binds a name. -/
def binds (f : Forest) (i : Nat) (n : String) : Bool :=
  (f.tables.owned i n).any fun x => x.tree.isBinding

def isClass (f : Forest) (i : Nat) : Bool := (f.scope? i).any Scope.isClass

def hasStars (f : Forest) (i : Nat) : Bool := (f.scope? i).any Scope.hasStars

theorem Realizes.isModule_iff (hf : f.Realizes L) {s : Scope} (hs : f.scope? i = some s) :
    s.isModule = true ↔ i = 0 := by
  have howner : s.isModule = (L.record i).isModule := by
    rw [Scope.isModule, hf.owner i s hs, Record.isModule]
  rw [howner]
  constructor
  · intro hm
    by_contra h0
    rw [hf.proper.not_isModule h0 (by rw [← hf.size]; exact lt_size hs)] at hm
    cases hm
  · rintro rfl
    exact hf.proper.root

theorem Realizes.lacks_iff (hf : f.Realizes L) :
    f.lacks i n = true ↔ f.tables.owned i n ≠ [] ∧
      (∀ x ∈ f.tables.owned i n, x.tree.isUse = true) ∧ (i = 0 → n ∉ Scope.builtins) ∧
      ∀ a ∈ f.enclosing i, f.hasStars a = false := by
  by_cases hne : f.tables.owned i n = []
  · simp [lacks, hne]
  · obtain ⟨s, hs⟩ := scope?_eq_some (lt_size_of_owned hne)
    have hglobal : s.isGlobal n = false ↔ (i = 0 → n ∉ Scope.builtins) := by
      rw [← hf.isModule_iff hs, Scope.isGlobal]
      simp
    have hstars : f.seesStars i = false ↔ ∀ a ∈ f.enclosing i, f.hasStars a = false := by
      rw [seesStars, List.any_eq_false]
      simp [hasStars]
    simp [lacks, Usage.isUndefined, hs, hne, hglobal, hstars, and_assoc]

theorem binds_eq_false : f.binds i n = false ↔ ∀ x ∈ f.tables.owned i n, x.tree.isBinding = false := by
  simp [binds]

/-- What is bound by no scope in the log is bound by none in the tables, classes apart. -/
theorem Realizes.not_binds (hf : f.Realizes L) (hi : i < f.size) (hc : f.isClass i = false)
    (hb : (L.record i).binds n = false) (hm : L.reachesModule n = false) : f.binds i n = false := by
  rw [binds_eq_false]
  intro x hx
  have hown : x ∈ L.ownedBy i n := (hf.owned i n).mem_iff.mp hx
  by_cases h0 : i = 0
  · subst h0
    rw [hf.proper.ownedBy_root hm] at hown
    cases hown
  · obtain ⟨s, hs⟩ := scope?_eq_some hi
    have hfun : (L.record i).isFunction = true := by
      have hinner := hf.proper.inner i (by omega) (by rw [← hf.size]; exact hi)
      rw [isClass, hs, Option.any_some, Scope.isClass, hf.owner i s hs] at hc
      rw [Tree.opensInner, hc, Bool.false_or] at hinner
      exact hinner
    have hquiet := Log.not_writes_of_not_binds h0 hfun hb hm hown
    rw [Bool.eq_false_iff]
    intro hbinding
    rw [Tree.writes_of_isBinding hbinding] at hquiet
    cases hquiet

/-- A name that a scope lacks is not bound there and not known from a star import. When it is not
deleted, it is not known at all. -/
theorem Realizes.unbound_of_lacks (hf : f.Realizes L) (h : f.lacks i n = true) :
    f.binds i n = false ∧ (∀ a ∈ f.enclosing i, f.hasStars a = false) ∧
      ((∀ x ∈ f.tables.owned i n, x.tree.isDeletion = false) → n ∉ Scope.builtins ∧
        ∀ a ∈ f.enclosing i, f.isClass a = false → f.binds a n = false) := by
  obtain ⟨hne, huses, hbuiltin, hstars⟩ := hf.lacks_iff.mp h
  have hown : f.binds i n = false :=
    binds_eq_false.mpr fun x hx => Tree.not_isBinding_of_isUse (huses x hx)
  refine ⟨hown, hstars, fun hdel => ?_⟩
  obtain ⟨x, hx⟩ := List.exists_mem_of_ne_nil _ hne
  have hmem : ∀ y, y ∈ L.ownedBy i n ↔ y ∈ f.tables.owned i n := fun y => (hf.owned i n).mem_iff.symm
  have hi := lt_size_of_owned hne
  rw [hf.enclosing hi]
  by_cases h0 : i = 0
  · refine ⟨hbuiltin h0, fun a ha _ => ?_⟩
    rw [h0, hf.proper.root_outer, List.mem_singleton] at ha
    rw [ha, ← h0]
    exact hown
  · obtain ⟨houter, hm⟩ := hf.proper.unbound_of_reads h0 ((hmem x).mpr hx) fun y hy =>
      Tree.isRead_of_isUse (huses y ((hmem y).mp hy)) (hdel y ((hmem y).mp hy))
    constructor
    · simp only [Log.reachesModule, Bool.or_eq_false_iff] at hm
      simpa using hm.1.1
    · intro a ha hc
      rcases List.mem_cons.mp ha with rfl | ha
      · exact hown
      · have hlt := hf.proper.lt_of_mem_outer (by rw [← hf.size]; exact hi) ha
        exact hf.not_binds (by omega) hc (houter a ha) hm

/-- An occurrence whose name is bound nowhere around it belongs to a scope that lacks the name. -/
theorem Realizes.lacks_of_unbound (hf : f.Realizes L)
    (hpassed : L.Passed fun x => (x.tree.isUse || x.tree.isBinding) = true) {past : List Site} {x : Site}
    (hx : (past, x) ∈ pasts [] ((L.record i).sites n)) (hbuiltin : n ∉ Scope.builtins)
    (hown : f.binds i n = false)
    (hbinds : ∀ a ∈ f.enclosing i, f.isClass a = false → f.binds a n = false)
    (hstars : ∀ a ∈ f.enclosing i, f.hasStars a = false) :
    x ∈ f.tables.owned (L.home i n past) n ∧ f.lacks (L.home i n past) n = true := by
  have hi : i < L.size := by
    by_contra hlt
    rw [Log.record_eq_fresh (Nat.le_of_not_lt hlt)] at hx
    cases hx
  have hif : i < f.size := by rw [hf.size]; exact hi
  have hmem : x ∈ f.tables.owned (L.home i n past) n :=
    (hf.owned _ n).mem_iff.mpr (Log.mem_ownedBy.mpr ⟨i, past, hi, hx, rfl⟩)
  obtain ⟨hhome, hclass⟩ := hf.proper.home_mem hi n past
  generalize L.home i n past = j at hmem hhome hclass
  have hj := lt_size_of_owned (List.ne_nil_of_mem hmem)
  have hjb : f.binds j n = false := by
    rcases hclass with rfl | hclass
    · exact hown
    · refine hbinds j (by rw [hf.enclosing hif]; exact hhome) ?_
      obtain ⟨s, hs⟩ := scope?_eq_some hj
      rw [isClass, hs, Option.any_some, Scope.isClass, hf.owner j s hs]
      exact hclass
  have hsub : f.enclosing j ⊆ f.enclosing i := by
    rw [hf.enclosing hif, hf.enclosing hj]
    rcases List.mem_cons.mp hhome with rfl | houter
    · exact List.Subset.refl _
    · obtain ⟨pre, hpre, -⟩ := hf.proper.outer_split hi houter
      rw [hpre]
      exact fun a ha => List.mem_cons_of_mem _ (List.mem_append_right _ ha)
  refine ⟨hmem, hf.lacks_iff.mpr ⟨List.ne_nil_of_mem hmem, fun y hy => ?_, fun _ => hbuiltin,
    fun a ha => hstars a (hsub ha)⟩⟩
  have hy' := hpassed.of_mem_ownedBy ((hf.owned j n).mem_iff.mp hy)
  rw [binds_eq_false.mp hjb y hy, Bool.or_false] at hy'
  exact hy'

end Forest

namespace Usage

end Usage

end ScopeLint
