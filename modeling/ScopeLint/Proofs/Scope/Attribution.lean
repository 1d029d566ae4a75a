import ScopeLint.Proofs.Scope.Reference

/-! What the home of an occurrence tells about the scopes around it. The rule is taken apart once,
case by case. When all that belongs to a scope is reads, the name is bound nowhere around it, and the
name of an occurrence is looked for only in scopes around it that are no classes. -/

namespace ScopeLint

/-! ### Bindings, reads and deletions -/

namespace Tree

/-- A name that is stored to, a parameter, an import, a definition or the name of an exception. -/
def isBinding (t : Tree) : Bool :=
  t.isStore || t.isParam || t.isImport || t.isDefinition || t.isKind .exceptHandler

def isDeletion (t : Tree) : Bool := t.nameContext? == some .del

/-- A name is read, stored to, deleted or a parameter. -/
def hasContext (t : Tree) : Bool :=
  !t.isKind .name || t.nameContext?.any [.load, .store, .del, .param].contains

theorem isKind_of_nameContext? {t : Tree} {k : Kind} (h : t.nameContext? = some k) :
    t.isKind .name = true := by
  rw [nameContext?] at h
  split_ifs at h with hk
  exact hk

theorem isOneOf_iff {t : Tree} {ks : List Kind} : t.isOneOf ks = true ↔ ∃ k ∈ ks, t.isKind k = true := by
  rw [isOneOf]
  cases h : t.kind? with
  | none => simp [isKind, h]
  | some k => simp [isKind, h]

/-- What binds by being there is no name. -/
theorem not_binder_of_nameContext? {t : Tree} {k : Kind} (h : t.nameContext? = some k) :
    t.isOneOf binders = false := by
  have hname := isKind_of_nameContext? h
  rw [isKind, beq_iff_eq] at hname
  rw [isOneOf, hname]
  rfl

/-- A name binds or deletes as its context says. -/
theorem writes_of_nameContext? {t : Tree} {k : Kind} (h : t.nameContext? = some k) :
    t.writes = [Kind.store, .del, .param].contains k := by
  have hbinder := not_binder_of_nameContext? h
  rw [nameContext?, if_pos (isKind_of_nameContext? h)] at h
  obtain ⟨ctx, hctx, hk⟩ := Option.bind_eq_some_iff.mp h
  have hone : ctx.isOneOf [.store, .del, .param] = [Kind.store, .del, .param].contains k := by
    rw [isOneOf, hk]
  rw [writes, isWrite, hbinder, if_neg Bool.false_ne_true, get, hctx]
  exact hone

theorem not_writes_of_isRead {t : Tree} (h : t.isRead = true) : t.writes = false := by
  rw [isRead, beq_iff_eq] at h
  rw [writes_of_nameContext? h]
  rfl

theorem writes_of_binder {t : Tree} (h : t.isOneOf binders = true) : t.writes = true := by
  simp [writes, isWrite, h]

theorem writes_of_isBinding {t : Tree} (h : t.isBinding = true) : t.writes = true := by
  simp only [isBinding, Bool.or_eq_true] at h
  rcases h with (((h | h) | h) | h) | h
  · rw [isStore, beq_iff_eq] at h
    rw [writes_of_nameContext? h]
    rfl
  · exact writes_of_isParam h
  · refine writes_of_binder (isOneOf_iff.mpr ?_)
    obtain ⟨k, hk, h⟩ := isOneOf_iff.mp h
    exact ⟨k, by revert hk; simp [binders]; tauto, h⟩
  · refine writes_of_binder (isOneOf_iff.mpr ?_)
    obtain ⟨k, hk, h⟩ := isOneOf_iff.mp h
    exact ⟨k, by revert hk; simp [binders]; tauto, h⟩
  · exact writes_of_binder (isOneOf_iff.mpr ⟨_, by simp [binders], h⟩)

theorem not_isBinding_of_isUse {t : Tree} (h : t.isUse = true) : t.isBinding = false := by
  have hctx : ∃ k, t.nameContext? = some k ∧ k ≠ .store ∧ k ≠ .param := by
    rw [isUse, Bool.or_eq_true, beq_iff_eq, beq_iff_eq] at h
    rcases h with h | h
    · exact ⟨_, h, by decide, by decide⟩
    · exact ⟨_, h, by decide, by decide⟩
  obtain ⟨k, hk, hs, hp⟩ := hctx
  have hkind := isKind_of_nameContext? hk
  rw [isKind, beq_iff_eq] at hkind
  simp [isBinding, isStore, isParam, isImport, isDefinition, isKind, isOneOf, hk, hkind, hs, hp]

theorem isRead_of_isUse {t : Tree} (h : t.isUse = true) (hd : t.isDeletion = false) :
    t.isRead = true := by
  rw [isUse, Bool.or_eq_true] at h
  exact h.resolve_right (by rw [isDeletion] at hd; rw [hd]; exact Bool.false_ne_true)

/-- What can occur is a use or a binding. -/
theorem isUse_or_isBinding {t : Tree} (h : t.isOneOf binders = true ∨
    t.isKind .name = true ∧ t.hasContext = true) : t.isUse = true ∨ t.isBinding = true := by
  rcases h with h | ⟨hk, h⟩
  · right
    obtain ⟨k, hk, h⟩ := isOneOf_iff.mp h
    rw [isKind, beq_iff_eq] at h
    simp only [binders, List.mem_cons, List.not_mem_nil, or_false] at hk
    rcases hk with rfl | rfl | rfl | rfl | rfl | rfl | rfl <;>
      simp [isBinding, isStore, isParam, isImport, isDefinition, isKind, isOneOf, h]
  · rw [hasContext, hk, Bool.not_true, Bool.false_or, Option.any_eq_true] at h
    obtain ⟨k, hctx, h⟩ := h
    simp only [List.contains_iff_mem, List.mem_cons, List.not_mem_nil, or_false] at h
    rcases h with rfl | rfl | rfl | rfl <;> simp [isUse, isBinding, isStore, isParam, hctx]

end Tree

/-! ### The rule by cases -/

theorem mem_pasts {α : Type} {l acc past : List α} {x : α} :
    (past, x) ∈ pasts acc l ↔ ∃ front rest, l = front ++ x :: rest ∧ past = acc ++ front ++ [x] := by
  induction l generalizing acc with
  | nil => simp [pasts]
  | cons y l ih =>
    rw [pasts, List.mem_cons, ih]
    constructor
    · rintro (h | ⟨front, rest, rfl, rfl⟩)
      · cases h
        exact ⟨[], l, rfl, by simp⟩
      · exact ⟨y :: front, rest, rfl, by simp⟩
    · rintro ⟨_ | ⟨z, front⟩, rest, h, rfl⟩
      · cases h
        exact Or.inl (by simp)
      · cases h
        exact Or.inr ⟨front, rest, rfl, by simp⟩

theorem mem_of_mem_pasts {α : Type} {l past : List α} {x : α} (h : (past, x) ∈ pasts [] l) :
    x ∈ past ∧ past ⊆ l := by
  obtain ⟨front, rest, rfl, rfl⟩ := mem_pasts.mp h
  constructor
  · simp
  · intro y hy
    simp only [List.nil_append, List.mem_append, List.mem_singleton] at hy
    rcases hy with hy | rfl <;> simp [*]

theorem exists_past {α : Type} {l : List α} {x : α} (h : x ∈ l) : ∃ past, (past, x) ∈ pasts [] l := by
  obtain ⟨front, rest, rfl⟩ := List.append_of_mem h
  exact ⟨_, mem_pasts.mpr ⟨front, rest, rfl, rfl⟩⟩

namespace Log

variable {L : Log} {n : String} {i j : Nat} {past : List Site} {x : Site}

theorem lt_size_of_mem_sites (hx : x ∈ (L.record i).sites n) : i < L.size := by
  by_contra hi
  rw [record_eq_fresh (Nat.le_of_not_lt hi)] at hx
  cases hx

theorem mem_ownedBy : x ∈ L.ownedBy j n ↔
    ∃ i past, i < L.size ∧ (past, x) ∈ pasts [] ((L.record i).sites n) ∧ L.home i n past = j := by
  simp only [ownedBy, List.mem_flatMap, List.mem_range, List.mem_map, List.mem_filter,
    decide_eq_true_eq, Prod.exists]
  constructor
  · rintro ⟨i, hi, past, y, ⟨hmem, hhome⟩, rfl⟩
    exact ⟨i, past, hi, hmem, hhome⟩
  · rintro ⟨i, past, hi, hmem, hhome⟩
    exact ⟨i, hi, past, x, ⟨hmem, hhome⟩, rfl⟩

/-- Why a scope is the home of an occurrence in a scope. -/
inductive HomeCase (L : Log) (i : Nat) (n : String) (past : List Site) : Nat → Prop
  | root (h : (L.record i).isModule = true) : HomeCase L i n past 0
  | param (h : (past.any fun x => x.tree.isParam) = true) : HomeCase L i n past i
  | declared (h : (L.record i).declares n = true) : HomeCase L i n past 0
  | bound (hd : (L.record i).declares n = false) (hf : (L.record i).isFunction = true)
      (h : (L.record i).writes n = true ∨ (L.record i).params n = true) : HomeCase L i n past i
  | inClass (hd : (L.record i).declares n = false) (hc : (L.record i).isClass = true)
      (h : (past.all fun x => x.tree.isRead) = false) : HomeCase L i n past i
  | outer {a : Nat} (ha : a ∈ (L.record i).outer) (h : (L.record a).binds n = true) :
      HomeCase L i n past a
  | module (h : L.reachesModule n = true) : HomeCase L i n past 0
  | unbound (h : ∀ a ∈ (L.record i).outer, (L.record a).binds n = false)
      (hm : L.reachesModule n = false) : HomeCase L i n past i

theorem homeCase (L : Log) (i : Nat) (n : String) (past : List Site) :
    L.HomeCase i n past (L.home i n past) := by
  have hlast : L.HomeCase i n past (L.target n i) := by
    rw [target]
    split
    next a hfind =>
      have hbinds := List.find?_some hfind
      exact .outer (List.mem_of_find?_eq_some hfind) hbinds
    next hfind =>
      rw [List.find?_eq_none] at hfind
      by_cases hr : L.reachesModule n = true
      · rw [if_pos hr]
        exact .module hr
      · rw [if_neg hr]
        exact .unbound (fun a ha => Bool.not_eq_true _ ▸ hfind a ha) (Bool.not_eq_true _ ▸ hr)
  rw [home]
  by_cases hm : (L.record i).isModule = true
  · rw [if_pos hm]
    exact .root hm
  rw [if_neg hm]
  by_cases hp : (past.any fun x => x.tree.isParam) = true
  · rw [if_pos hp]
    exact .param hp
  rw [if_neg hp]
  by_cases hd : (L.record i).declares n = true
  · rw [if_pos hd]
    exact .declared hd
  rw [if_neg hd]
  rw [Bool.not_eq_true] at hd
  split
  next hf =>
    rw [Bool.and_eq_true, Bool.or_eq_true] at hf
    exact .bound hd hf.1 hf.2
  next =>
    split
    next hc =>
      rw [Bool.and_eq_true, Bool.not_eq_true'] at hc
      exact .inClass hd hc.1 hc.2
    next => exact hlast

/-! ### What belongs to its own scope -/

theorem Proper.not_isModule (hL : L.Proper) (h0 : i ≠ 0) (hi : i < L.size) :
    (L.record i).isModule = false :=
  Tree.not_module_of_opensInner (hL.inner i (by omega) hi)

theorem Proper.owned_of_root (hL : L.Proper) (hx : x ∈ (L.record 0).sites n) : x ∈ L.ownedBy 0 n := by
  obtain ⟨past, hpast⟩ := exists_past hx
  refine mem_ownedBy.mpr ⟨0, past, hL.pos, hpast, ?_⟩
  simp [home, hL.root]

theorem Proper.owned_of_isParam (hL : L.Proper) (h0 : i ≠ 0) (hi : i < L.size)
    (hx : x ∈ (L.record i).sites n) (hp : x.tree.isParam = true) : x ∈ L.ownedBy i n := by
  obtain ⟨past, hpast⟩ := exists_past hx
  refine mem_ownedBy.mpr ⟨i, past, hi, hpast, ?_⟩
  have hany : (past.any fun x => x.tree.isParam) = true :=
    List.any_eq_true.mpr ⟨x, (mem_of_mem_pasts hpast).1, hp⟩
  simp [home, hL.not_isModule h0 hi, hany]

theorem Proper.owned_of_function (hL : L.Proper) (h0 : i ≠ 0) (hi : i < L.size)
    (hf : (L.record i).isFunction = true) (hd : (L.record i).declares n = false)
    (hw : (L.record i).writes n = true) (hx : x ∈ (L.record i).sites n) : x ∈ L.ownedBy i n := by
  obtain ⟨past, hpast⟩ := exists_past hx
  refine mem_ownedBy.mpr ⟨i, past, hi, hpast, ?_⟩
  simp [home, hL.not_isModule h0 hi, hf, hd, hw]

theorem Proper.owned_of_class (hL : L.Proper) (h0 : i ≠ 0) (hi : i < L.size)
    (hc : (L.record i).isClass = true) (hd : (L.record i).declares n = false)
    (hx : x ∈ (L.record i).sites n) (hr : x.tree.isRead = false) : x ∈ L.ownedBy i n := by
  obtain ⟨past, hpast⟩ := exists_past hx
  refine mem_ownedBy.mpr ⟨i, past, hi, hpast, ?_⟩
  have hall : (past.all fun x => x.tree.isRead) = false :=
    List.all_eq_false.mpr ⟨x, (mem_of_mem_pasts hpast).1, by rw [hr]; exact Bool.false_ne_true⟩
  simp [home, hL.not_isModule h0 hi, hc, hd, (L.record i).not_isFunction hc, hall]

/-- A function that binds a name has an occurrence of its own that is not a read. -/
theorem Proper.exists_owned_of_binds (hL : L.Proper) (h0 : i ≠ 0) (hi : i < L.size)
    (hb : (L.record i).binds n = true) : ∃ x ∈ L.ownedBy i n, x.tree.writes = true := by
  simp only [Record.binds, Bool.and_eq_true, Bool.or_eq_true, Bool.not_eq_true'] at hb
  rcases hb with ⟨hf, hp | ⟨hw, hd⟩⟩
  · obtain ⟨x, hx, hp⟩ := List.any_eq_true.mp hp
    exact ⟨x, hL.owned_of_isParam h0 hi hx hp, Tree.writes_of_isParam hp⟩
  · obtain ⟨x, hx, hxw⟩ := List.any_eq_true.mp hw
    exact ⟨x, hL.owned_of_function h0 hi hf hd hw hx, hxw⟩

/-! ### Names that are only read -/

/-- Where all that belongs to an inner scope is reads, the name stayed there because nothing around
binds it, and the module does not know it. -/
theorem Proper.unbound_of_reads (hL : L.Proper) (h0 : j ≠ 0) (hx : x ∈ L.ownedBy j n)
    (hreads : ∀ y ∈ L.ownedBy j n, y.tree.isRead = true) :
    (∀ a ∈ (L.record j).outer, (L.record a).binds n = false) ∧ L.reachesModule n = false := by
  have hno : ∀ y ∈ L.ownedBy j n, y.tree.writes ≠ true := fun y hy hw => by
    rw [Tree.not_writes_of_isRead (hreads y hy)] at hw
    cases hw
  obtain ⟨i, past, hi, hpast, hhome⟩ := mem_ownedBy.mp hx
  have hcase := L.homeCase i n past
  rw [hhome] at hcase
  cases hcase with
  | root h => exact absurd rfl h0
  | param h =>
    obtain ⟨y, hy, hp⟩ := List.any_eq_true.mp h
    have hmem := hL.owned_of_isParam h0 hi ((mem_of_mem_pasts hpast).2 hy) hp
    exact absurd (Tree.writes_of_isParam hp) (hno y hmem)
  | declared h => exact absurd rfl h0
  | bound hd hf h =>
    have hw : (L.record j).writes n = true := by
      rcases h with h | h
      · exact h
      · exact Record.writes_of_params h
    obtain ⟨y, hy, hyw⟩ := List.any_eq_true.mp hw
    exact absurd hyw (hno y (hL.owned_of_function h0 hi hf hd hw hy))
  | inClass hd hc h =>
    obtain ⟨y, hy, hr⟩ := List.all_eq_false.mp h
    rw [Bool.not_eq_true] at hr
    have hmem := hL.owned_of_class h0 hi hc hd ((mem_of_mem_pasts hpast).2 hy) hr
    rw [hreads y hmem] at hr
    cases hr
  | outer ha h =>
    obtain ⟨y, hy, hw⟩ := hL.exists_owned_of_binds h0 (by have := hL.lt_of_mem_outer hi ha; omega) h
    exact absurd hw (hno y hy)
  | module h => exact absurd rfl h0
  | unbound h hm => exact ⟨h, hm⟩

theorem not_declares_of_not_reachesModule (hm : L.reachesModule n = false) (hi : i < L.size) :
    (L.record i).declares n = false := by
  simp only [reachesModule, Bool.or_eq_false_iff] at hm
  exact Bool.not_eq_true _ ▸ (List.any_eq_false.mp hm.2 _ (record_mem hi))

/-- A name that does not reach the module has no occurrences that belong to it. -/
theorem Proper.ownedBy_root (hL : L.Proper) (hm : L.reachesModule n = false) : L.ownedBy 0 n = [] := by
  rw [List.eq_nil_iff_forall_not_mem]
  intro x hx
  obtain ⟨i, past, hi, hpast, hhome⟩ := mem_ownedBy.mp hx
  have h0 : i ≠ 0 := by
    rintro rfl
    have hempty : (L.record 0).sites n = [] := by
      simp only [reachesModule, Bool.or_eq_false_iff, Bool.not_eq_false'] at hm
      exact List.isEmpty_iff.mp hm.1.2
    have hmem := (mem_of_mem_pasts hpast).2 (mem_of_mem_pasts hpast).1
    rw [hempty] at hmem
    cases hmem
  have hcase := L.homeCase i n past
  generalize L.home i n past = h at hcase hhome
  cases hcase with
  | root h =>
    rw [hL.not_isModule h0 hi] at h
    cases h
  | declared h =>
    rw [not_declares_of_not_reachesModule hm hi] at h
    cases h
  | outer ha h =>
    rw [hhome, Record.binds, Record.not_isFunction_of_module hL.root] at h
    cases h
  | module h =>
    rw [hm] at h
    cases h
  | param h => exact h0 hhome
  | bound hd hf h => exact h0 hhome
  | inClass hd hc h => exact h0 hhome
  | unbound h hm => exact h0 hhome

/-- In a function that does not bind a name which does not reach the module, all that belongs to the
function leaves the name as it is. -/
theorem not_writes_of_not_binds (h0 : j ≠ 0) (hf : (L.record j).isFunction = true)
    (hb : (L.record j).binds n = false) (hm : L.reachesModule n = false) (hx : x ∈ L.ownedBy j n) :
    x.tree.writes = false := by
  obtain ⟨i, past, hi, hpast, hhome⟩ := mem_ownedBy.mp hx
  have hquiet (hj : j < L.size) : (L.record j).params n = false ∧ (L.record j).writes n = false := by
    rw [Record.binds, hf, not_declares_of_not_reachesModule hm hj] at hb
    simpa using hb
  have hmem := mem_of_mem_pasts hpast
  have hcase := L.homeCase i n past
  rw [hhome] at hcase
  cases hcase with
  | root h => exact absurd rfl h0
  | declared h => exact absurd rfl h0
  | module h => exact absurd rfl h0
  | outer ha h =>
    rw [hb] at h
    cases h
  | inClass hd hc h =>
    rw [(L.record j).not_isFunction hc] at hf
    cases hf
  | param h =>
    exact Bool.not_eq_true _ ▸ (List.any_eq_false.mp (hquiet hi).2 x (hmem.2 hmem.1))
  | bound hd hf h =>
    exact Bool.not_eq_true _ ▸ (List.any_eq_false.mp (hquiet hi).2 x (hmem.2 hmem.1))
  | unbound h hm =>
    exact Bool.not_eq_true _ ▸ (List.any_eq_false.mp (hquiet hi).2 x (hmem.2 hmem.1))

/-- The home of an occurrence is its scope, or one around it that is no class. -/
theorem Proper.home_mem (hL : L.Proper) (hi : i < L.size) (n : String) (past : List Site) :
    L.home i n past ∈ i :: (L.record i).outer ∧
      (L.home i n past = i ∨ (L.record (L.home i n past)).isClass = false) := by
  have hroot : 0 ∈ i :: (L.record i).outer ∧ (0 = i ∨ (L.record 0).isClass = false) := by
    by_cases h0 : i = 0
    · exact ⟨List.mem_cons.mpr (Or.inl h0.symm), Or.inl h0.symm⟩
    · refine ⟨List.mem_cons_of_mem _ (hL.zero_mem_outer (by omega) hi), Or.inr ?_⟩
      have hr := hL.root
      rw [Record.isModule, Tree.isKind, beq_iff_eq] at hr
      rw [Record.isClass, Tree.isKind, hr]
      rfl
  have hcase := L.homeCase i n past
  generalize L.home i n past = h at hcase
  cases hcase with
  | root h => exact hroot
  | declared h => exact hroot
  | module h => exact hroot
  | outer ha h =>
    refine ⟨List.mem_cons_of_mem _ ha, Or.inr ?_⟩
    rw [Bool.eq_false_iff]
    intro hc
    rw [Record.binds, Record.not_isFunction _ hc] at h
    cases h
  | param h => exact ⟨List.mem_cons_self, Or.inl rfl⟩
  | bound hd hf h => exact ⟨List.mem_cons_self, Or.inl rfl⟩
  | inClass hd hc h => exact ⟨List.mem_cons_self, Or.inl rfl⟩
  | unbound h hm => exact ⟨List.mem_cons_self, Or.inl rfl⟩

/-! ### What can occur -/

theorem mem_modify {α : Type} {l : List α} {g : α → α} {i : Nat} {r : α} (h : r ∈ l.modify i g) :
    r ∈ l ∨ ∃ q ∈ l, r = g q := by
  induction l generalizing i with
  | nil => simp at h
  | cons q l ih =>
    cases i with
    | zero =>
      rcases List.mem_cons.mp h with rfl | h
      · exact Or.inr ⟨q, List.mem_cons_self, rfl⟩
      · exact Or.inl (List.mem_cons_of_mem _ h)
    | succ i =>
      rcases List.mem_cons.mp h with rfl | h
      · exact Or.inl List.mem_cons_self
      · rcases ih h with h | ⟨p, hp, hr⟩
        · exact Or.inl (List.mem_cons_of_mem _ h)
        · exact Or.inr ⟨p, List.mem_cons_of_mem _ hp, hr⟩

/-- All that was met passes a test. -/
def Passed (ok : Site → Prop) (L : Log) : Prop := ∀ r ∈ L.records, ∀ o ∈ r.occurrences, ok o.2

variable {ok : Site → Prop}

theorem passed_empty : Log.empty.Passed ok := by
  intro r hr
  cases hr

theorem Passed.note (hL : L.Passed ok) {g : Record → Record}
    (hg : ∀ r, ∀ o ∈ (g r).occurrences, o ∈ r.occurrences ∨ ok o.2) : (L.note g).Passed ok := by
  intro r hr o ho
  rw [Log.note] at hr
  split at hr
  · exact hL r hr o ho
  · rcases mem_modify hr with hr | ⟨q, hq, rfl⟩
    · exact hL r hr o ho
    · exact (hg q o ho).elim (hL q hq o) id

theorem Passed.step (hL : L.Passed ok) {e : Event} (he : ∀ name x, e = .occur name x → ok x) :
    (L.step e).Passed ok := by
  cases e with
  | enter owner =>
    intro r hr o ho
    rcases List.mem_append.mp hr with hr | hr
    · exact hL r hr o ho
    · rw [List.mem_singleton.mp hr] at ho
      cases ho
  | occur name x =>
    cases name with
    | none => exact hL
    | some n =>
      refine hL.note fun r o ho => ?_
      rcases List.mem_append.mp ho with ho | ho
      · exact Or.inl ho
      · rw [List.mem_singleton.mp ho]
        exact Or.inr (he _ x rfl)
  | declareGlobal names => exact hL.note fun r o ho => Or.inl ho
  | importsAll => exact hL.note fun r o ho => Or.inl ho
  | leave => exact hL
  | importing site => exact hL
  | importsFuture names => exact hL
  | fail fault => exact hL

theorem Passed.run {es : List Event} (hL : L.Passed ok)
    (he : ∀ name x, Event.occur name x ∈ es → ok x) : (L.run es).Passed ok := by
  induction es generalizing L with
  | nil => exact hL
  | cons e es ih =>
    refine ih (hL.step fun name x h => he name x ?_) fun name x h =>
      he name x (List.mem_cons_of_mem _ h)
    rw [h]
    exact List.mem_cons_self

theorem Passed.of_mem_sites (hL : L.Passed ok) (hi : i < L.size) (hx : x ∈ (L.record i).sites n) :
    ok x := by
  obtain ⟨o, ho, rfl⟩ := List.mem_map.mp hx
  exact hL (L.record i) (record_mem hi) o (List.mem_filter.mp ho).1

theorem Passed.of_mem_ownedBy (hL : L.Passed ok) (hx : x ∈ L.ownedBy j n) : ok x := by
  obtain ⟨i, past, hi, hpast, -⟩ := mem_ownedBy.mp hx
  have hmem := mem_of_mem_pasts hpast
  exact hL.of_mem_sites hi (hmem.2 hmem.1)

end Log

theorem Block.occurs {ok : Tree → Bool} {es : List Event} (h : Block ok es) :
    ∀ name x, Event.occur name x ∈ es → ok x.tree = true := by
  induction h with
  | nil => intro name x hx; cases hx
  | plain h =>
    intro name x hx
    rw [← List.mem_singleton.mp hx] at h
    exact h
  | append _ _ iha ihb =>
    intro name x hx
    rcases List.mem_append.mp hx with hx | hx
    · exact iha name x hx
    · exact ihb name x hx
  | scope _ _ ih =>
    intro name x hx
    rcases List.mem_append.mp hx with hx | hx
    · rcases List.mem_cons.mp hx with hx | hx
      · cases hx
      · exact ih name x hx
    · cases List.mem_singleton.mp hx

/-- In a visit of a tree whose names are read, stored to, deleted or parameters, all that occurs is a
use or a binding. -/
theorem Tree.log_passed {t : Tree} (hm : t.isKind .module = true) (hone : t.kinds.count .module = 1)
    (hctx : t.every hasContext = true) :
    t.log.Passed fun x => (x.tree.isUse || x.tree.isBinding) = true := by
  have hpasses : t.Passes fun u => u.isUse || u.isBinding := by
    refine ⟨fun u hu => ?_, every_mono (fun u hu => ?_) hctx⟩
    · rw [Bool.or_eq_true]
      exact isUse_or_isBinding (Or.inl hu)
    · by_cases hk : u.isKind .name = true
      · rw [Bool.or_eq_true, Bool.or_eq_true]
        exact Or.inr (isUse_or_isBinding (Or.inr ⟨hk, hu⟩))
      · rw [Bool.not_eq_true] at hk
        rw [hk]
        rfl
  obtain ⟨es, hes, hblock⟩ := events_of_module hm hone hpasses .start
  rw [log, hes]
  refine Log.passed_empty.run fun name x hx => ?_
  rcases List.mem_append.mp hx with hx | hx
  · rcases List.mem_cons.mp hx with hx | hx
    · cases hx
    · exact hblock.occurs name x hx
  · cases List.mem_singleton.mp hx

end ScopeLint
