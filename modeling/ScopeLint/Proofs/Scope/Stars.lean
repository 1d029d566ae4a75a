import ScopeLint.Proofs.Scope.Attribution
import ScopeLint.Proofs.Scope.Views
import ScopeLint.Proofs.Tree.Grammar

/-! What a module with a star import records. When the module is left, every name that is still loose
somewhere inside it is recorded with its occurrences, and the record stays what it is. A name is loose
then if it stands in a class, a function or a lambda and no scope of the file binds it, and all that is
loose is a use. -/

namespace ScopeLint

/-! ### Records of names -/

namespace Scope

variable (s : Scope)

theorem starSites_eq (m : String) :
    s.starSites m = ((s.fromStars.lookup m).map StarRecord.sites).getD [] := by
  unfold starSites
  cases s.fromStars.lookup m <;> rfl

/-- A change of the records that keeps the names and the sites. -/
theorem starSites_map {g : String × StarRecord → String × StarRecord} (hg : ∀ e, (g e).1 = e.1)
    (hs : ∀ e, (g e).2.sites = e.2.sites) (m : String) :
    Scope.starSites { s with fromStars := s.fromStars.map g } m = s.starSites m := by
  rw [starSites_eq, starSites_eq, lookup_map hg, Option.map_map]
  congr 2
  funext r
  exact hs (m, r)

theorem starSites_frozen (m : String) : s.frozen.starSites m = s.starSites m := by
  apply starSites_map s (g := fun e => (e.1, { e.2 with follows := none }))
  · intro e
    rfl
  · intro e
    rfl

theorem lookup_recordStar (n : String) (r : StarRecord) (m : String) :
    (s.recordStar n r).fromStars.lookup m = if m = n then some r else s.fromStars.lookup m := by
  rw [← lookup_put]
  unfold recordStar
  split_ifs
  · have hsame : (fun e : String × StarRecord => if e.1 = n then (n, r) else e) =
        fun e => if e.1 = n then (e.1, r) else e := by
      funext e
      split_ifs with he
      · rw [he]
      · rfl
    dsimp only
    rw [hsame]
  · rfl

theorem starSites_recordStar (n : String) (r : StarRecord) (m : String) :
    (s.recordStar n r).starSites m = if m = n then r.sites else s.starSites m := by
  rw [starSites_eq, starSites_eq, lookup_recordStar]
  split_ifs <;> rfl

end Scope

namespace Forest

/-- The occurrences that a scope has recorded for a name. -/
def starSites (f : Forest) (i : Nat) (n : String) : List Site :=
  ((f.scope? i).map fun s => s.starSites n).getD []

theorem starSites_eq {f : Forest} {i : Nat} {s : Scope} (hs : f.scope? i = some s) (n : String) :
    f.starSites i n = s.starSites n := by
  rw [starSites, hs]
  rfl

theorem starSites_of_views {f g : Forest} (h : g.views Scope.starSites = f.views Scope.starSites) :
    g.starSites = f.starSites := by
  have hsites : ∀ (f : Forest) (k : Nat) (n : String),
      f.starSites k n = (((f.views Scope.starSites)[k]?).map fun v => v n).getD [] := by
    intro f k n
    rw [getElem?_views, Option.map_map]
    rfl
  funext k n
  rw [hsites, hsites, h]

end Forest

theorem Scope.blind_starSites : Scope.Blind Scope.starSites where
  names _ _ := rfl
  unscoped _ _ := rfl
  follows s g hg hs := by
    funext m
    exact s.starSites_map hg hs m

namespace Change

variable {f f' : Forest} {i j : Nat}

/-! ### What is recorded -/

/-- Claiming a name for a scope with a star import records it there. -/
theorem starSites_claim {s : Scope} (hs : f.scope? i = some s) (hstar : s.hasStars = true) {n : String}
    {l : List Site} (h : (claim i j n l).exec f = (.ok ⟨⟩, f')) (m : String) :
    f'.starSites i m = if m = n then l else f.starSites i m := by
  rw [claim, exec_bind_ok (exec_scope hs), if_pos hstar] at h
  rw [exec_bind_ok (exec_update _ _ _)] at h
  have hrest : f'.starSites = (f.update i fun s => s.recordStar n ⟨l, some j⟩).starSites := by
    apply Forest.starSites_of_views
    revert h
    split_ifs
    · exact Keeps.give_take Scope.blind_starSites i j n l _ _ _ _
    · exact Keeps.give_take Scope.blind_starSites j j n l _ _ _ _
    · exact Keeps.pure _ _ _ _
  rw [hrest, Forest.starSites, Forest.scope?_update, if_pos rfl, hs, Forest.starSites_eq hs]
  exact Scope.starSites_recordStar s n _ m

theorem hasStars_of_shells {g : Forest} (h : g.shells = f.shells) {s t : Scope}
    (hs : f.scope? i = some s) (ht : g.scope? i = some t) : t.hasStars = s.hasStars :=
  congrArg Shell.hasStars (Forest.shell_eq_of_shells h ht hs)

/-- Claiming several names records them all. -/
theorem starSites_claims {P : List Site → Prop} {t : Table Site} (hP : ∀ e ∈ t, P e.2) {s : Scope}
    (hf : f.Live) (hs : f.scope? i = some s) (hstar : s.hasStars = true) (hj : j < f.size)
    (h : (t.forM fun (name, sites) => claim i j name sites : Change PUnit).exec f = (.ok ⟨⟩, f'))
    {n : String} (hn : P (f.starSites i n) ∨ n ∈ t.keys) : P (f'.starSites i n) := by
  induction t generalizing f s with
  | nil =>
    cases h
    exact hn.resolve_right (by simp [Table.keys])
  | cons e t ih =>
    obtain ⟨m, l⟩ := e
    obtain ⟨f₁, he, -, hsh⟩ := claim_yields hf hs hj m l
    rw [forM_cons, exec_bind_ok he] at h
    have hi : i < f₁.size := by rw [Forest.size_eq_of_shells hsh]; exact Forest.lt_size hs
    obtain ⟨s₁, hs₁⟩ := Forest.scope?_eq_some hi
    refine ih (fun e he => hP e (List.mem_cons_of_mem _ he)) (hf.of_shells hsh) hs₁
      (by rw [hasStars_of_shells hsh hs hs₁, hstar]) (by rwa [Forest.size_eq_of_shells hsh]) h ?_
    rw [starSites_claim hs hstar he n]
    split_ifs with hnm
    · exact Or.inl (hP (m, l) List.mem_cons_self)
    · refine hn.imp_right fun hmem => ?_
      exact (List.mem_cons.mp hmem).resolve_left hnm

end Change

theorem Tables.loose_claimFrom (T : Tables) (s : Scope) (i : Nat) {j k : Nat} (hk : k ≠ j) :
    (T.claimFrom s i j).loose k = T.loose k := by
  unfold claimFrom
  generalize T.loose j = t
  induction t generalizing T with
  | nil => rfl
  | cons e t ih =>
    rw [List.foldl_cons, ih, claim]
    split_ifs <;> simp [give, drop, setLoose, hk]

namespace Change

variable {f f' : Forest} {i : Nat}

/-- A scope with a star import that is no class records all names that are loose below. -/
theorem starSites_claimBelow {P : List Site → Prop} {s : Scope} (hf : f.Live) (hn : f.Nested)
    (hs : f.scope? i = some s) (hstar : s.hasStars = true) (hc : s.isClass = false)
    (hP : ∀ j, ∀ e ∈ f.tables.loose j, P e.2) (h : (claimBelow i).exec f = (.ok ⟨⟩, f')) {j : Nat}
    (hj : j ∈ f.walk i) {n : String} (hmem : n ∈ (f.tables.loose j).keys) : P (f'.starSites i n) := by
  have hi := Forest.lt_size hs
  rw [claimBelow, exec_bind_ok (exec_scope hs), hc, if_neg Bool.false_ne_true,
    exec_bind_ok (exec_get f)] at h
  -- What is loose in the scopes to come is as it was at the start.
  have hloop : ∀ (js : List Nat) (g : Forest) (u : Scope), js.Nodup → g.shells = f.shells →
      g.scope? i = some u → (∀ k ∈ js, k < f.size ∧ g.tables.loose k = f.tables.loose k) →
      (js.forM fun j => do
        let p ← pending j "unscoped_names"
        p.unscoped.forM fun (name, sites) => claim i j name sites : Change PUnit).exec g =
          (.ok ⟨⟩, f') →
      P (g.starSites i n) ∨ j ∈ js → P (f'.starSites i n) := by
    intro js
    induction js with
    | nil =>
      intro g u _ _ _ _ h hor
      cases h
      exact hor.resolve_right List.not_mem_nil
    | cons k js ih =>
      intro g u hnodup hsh hu hsame h hor
      obtain ⟨hk, hnodup⟩ := List.nodup_cons.mp hnodup
      obtain ⟨hks, hkl⟩ := hsame k List.mem_cons_self
      have hg := hf.of_shells hsh
      have hsize := Forest.size_eq_of_shells hsh
      obtain ⟨g₁, he, ht, hsh₁⟩ := claimFrom_yields hg hu (j := k) (by rwa [hsize])
      rw [forM_cons, exec_bind_ok he] at h
      have hsh₁' := hsh₁.trans hsh
      obtain ⟨u₁, hu₁⟩ := Forest.scope?_eq_some (f := g₁) (i := i)
        (by rwa [Forest.size_eq_of_shells hsh₁'])
      refine ih g₁ u₁ hnodup hsh₁' hu₁ (fun m hm => ?_) h ?_
      · obtain ⟨hms, hml⟩ := hsame m (List.mem_cons_of_mem _ hm)
        refine ⟨hms, ?_⟩
        rw [ht, Tables.loose_claimFrom _ _ _ (ne_of_mem_of_not_mem hm hk), hml]
      · obtain ⟨v, hv⟩ := Forest.scope?_eq_some (f := g) (i := k) (by rwa [hsize])
        obtain ⟨p, hp, hexec⟩ := exec_pending hg hv "unscoped_names"
        rw [exec_bind_ok hexec, ← loose_eq_unscoped hv hp, hkl] at he
        have hone := starSites_claims (hP k) hg hu (by rw [hasStars_of_shells hsh hs hu, hstar])
          (by rwa [hsize]) he (n := n)
        rcases hor with hor | hor
        · exact Or.inl (hone (Or.inl hor))
        · rcases List.mem_cons.mp hor with rfl | hor
          · exact Or.inl (hone (Or.inr hmem))
          · exact Or.inr hor
  exact hloop (f.walk i) f s (hn.nodup_walk hi) rfl hs
    (fun k hk => ⟨Forest.lt_size_of_mem_walk hi hk, rfl⟩) h (Or.inr hj)

end Change

/-! ### What is loose -/

theorem Tables.loose_sendAll {T : Tables} {i : Nat} (h : T.loose i = []) (m : Nat)
    (names : List String) : (T.sendAll i m names).loose = T.loose := by
  unfold sendAll
  induction names generalizing T with
  | nil => rfl
  | cons n names ih =>
    have hsend : (T.send i m n).loose = T.loose := by
      simp [send, drop, setLoose, give, h, Table.erase]
    rw [List.foldl_cons, ih (by rw [hsend, h]), hsend]

theorem mem_pasts_takeWhile {α : Type} {p : α → Bool} {l past : List α} {x : α}
    (h : (past, x) ∈ pasts [] l) (hp : past.all p = true) : (past, x) ∈ pasts [] (l.takeWhile p) := by
  obtain ⟨front, rest, rfl, rfl⟩ := mem_pasts.mp h
  rw [List.nil_append, List.all_eq_true] at hp
  refine mem_pasts.mpr ⟨front, rest.takeWhile p, ?_, rfl⟩
  rw [List.append_cons, List.takeWhile_append_of_pos hp]
  simp

namespace Log

variable {L : Log} {i : Nat} {n : String} {past : List Site} {x : Site}

/-- An occurrence inside a module that no scope between it and the module binds, where `past` are the
occurrences of the name in its scope up to this one. -/
structure Free (L : Log) (i : Nat) (n : String) (past : List Site) : Prop where
  inner : i ≠ 0
  not_global : (L.record i).declares n = false
  not_param : (past.all fun x => !x.tree.isParam) = true
  not_local : (L.record i).isFunction = true → (L.record i).writes n = false
  not_member : (L.record i).isClass = true → (past.all fun x => x.tree.isRead) = true
  not_outer : ∀ a ∈ (L.record i).outer, (L.record a).binds n = false

instance (L : Log) (i : Nat) (n : String) (past : List Site) : Decidable (L.Free i n past) :=
  decidable_of_iff (i ≠ 0 ∧ (L.record i).declares n = false ∧
      (past.all fun x => !x.tree.isParam) = true ∧
      ((L.record i).isFunction = true → (L.record i).writes n = false) ∧
      ((L.record i).isClass = true → (past.all fun x => x.tree.isRead) = true) ∧
      ∀ a ∈ (L.record i).outer, (L.record a).binds n = false)
    ⟨fun ⟨h₁, h₂, h₃, h₄, h₅, h₆⟩ => ⟨h₁, h₂, h₃, h₄, h₅, h₆⟩,
      fun ⟨h₁, h₂, h₃, h₄, h₅, h₆⟩ => ⟨h₁, h₂, h₃, h₄, h₅, h₆⟩⟩

/-- A free occurrence goes out when its scope is left. -/
theorem Free.mem_out (h : L.Free i n past) (hL : L.Proper)
    (hx : (past, x) ∈ pasts [] ((L.record i).sites n)) : x ∈ (L.record i).out n := by
  have hmem := mem_of_mem_pasts hx
  have hi := lt_size_of_mem_sites (hmem.2 hmem.1)
  have hearly := mem_pasts_takeWhile hx h.not_param
  unfold Record.out
  rw [h.not_global, if_neg Bool.false_ne_true]
  split_ifs with hc hw
  · have hread := mem_of_mem_pasts (mem_pasts_takeWhile hearly (h.not_member hc))
    exact hread.2 hread.1
  · have hf : (L.record i).isFunction = true := by
      have hinner := hL.inner i (by have := h.inner; omega) hi
      rw [Tree.opensInner, Bool.or_eq_true] at hinner
      exact hinner.resolve_left hc
    rw [h.not_local hf] at hw
    cases hw
  · have hread := mem_of_mem_pasts hearly
    exact hread.2 hread.1

/-- A free occurrence is loose when only the module is open. -/
theorem Free.mem_waiting (h : L.Free i n past) (hL : L.Proper) (hs : L.stack = [0])
    (hx : (past, x) ∈ pasts [] ((L.record i).sites n)) : x ∈ L.waiting n i := by
  have hopen : i ∉ L.stack := by simp [hs, h.inner]
  have hcatch : L.catcher n i = none := by
    rw [hL.catcher_last hs, List.find?_eq_none]
    intro a ha
    rw [h.not_outer a ha]
    exact Bool.false_ne_true
  rw [waiting, if_neg h.inner, if_neg hopen, hcatch]
  exact h.mem_out hL hx

/-- What goes out of a scope is a use. -/
theorem isUse_of_mem_out (hL : L.Passed fun x => (x.tree.isUse || x.tree.isBinding) = true)
    (hx : x ∈ (L.record i).out n) : x.tree.isUse = true := by
  unfold Record.out at hx
  split_ifs at hx with hd hc hw
  · cases hx
  · have hread := List.mem_takeWhile_imp hx
    rw [Tree.isUse]
    rw [Tree.isRead] at hread
    rw [hread]
    rfl
  · cases hx
  · have hsite : x ∈ (L.record i).sites n := (List.takeWhile_sublist _).subset hx
    have hi := lt_size_of_mem_sites hsite
    have hquiet : x.tree.writes = false := by
      rw [Bool.not_eq_true, Record.writes, List.any_eq_false] at hw
      exact Bool.not_eq_true _ ▸ hw x hsite
    have hok := hL.of_mem_sites hi hsite
    rw [Bool.or_eq_true] at hok
    refine hok.resolve_right fun hb => ?_
    rw [Tree.writes_of_isBinding hb] at hquiet
    cases hquiet

theorem isUse_of_mem_waiting (hL : L.Passed fun x => (x.tree.isUse || x.tree.isBinding) = true) (hs : L.stack = [0])
    (hx : x ∈ L.waiting n i) : x.tree.isUse = true := by
  unfold waiting at hx
  split_ifs at hx with h0 hopen hcatch
  · cases hx
  · rw [hs, List.mem_singleton] at hopen
    exact absurd hopen h0
  · cases hx
  · exact isUse_of_mem_out hL hx

end Log

/-! ### The records of a finished module -/

namespace Workshop.Follows

variable {w : Workshop} {L : Log}

theorem mem_loose (hw : w.Follows L) {j : Nat} {n : String} {l : List Site} :
    (n, l) ∈ w.forest.tables.loose j ↔ l = L.waiting n j ∧ l ≠ [] := by
  have hget : (w.forest.tables.loose j).get? n = entry (L.waiting n j) := (hw.describes n).loose j
  have hmem : (n, l) ∈ w.forest.tables.loose j ↔ (w.forest.tables.loose j).get? n = some l :=
    ⟨fun h => Table.get?_eq_some_of_mem (hw.sound.distinct j).2 h, Table.mem_of_get?⟩
  rw [hmem, hget, entry]
  cases L.waiting n j with
  | nil => simp
  | cons x rest =>
    constructor
    · rintro ⟨⟩
      exact ⟨rfl, List.cons_ne_nil _ _⟩
    · rintro ⟨rfl, -⟩
      rfl

/-- Nothing is loose in the module itself. -/
theorem loose_root (hw : w.Follows L) : w.forest.tables.loose 0 = [] := by
  rw [List.eq_nil_iff_forall_not_mem]
  rintro ⟨n, l⟩ hmem
  obtain ⟨hl, hne⟩ := hw.mem_loose.mp hmem
  rw [Log.waiting, if_pos rfl] at hl
  exact hne hl

/-- When a module with a star import is left, it records the free occurrences inside it. -/
theorem isUse_starSites (hw : w.Follows L) (hstack : L.stack = [0])
    (hL : L.Passed fun x => (x.tree.isUse || x.tree.isBinding) = true) {s : Scope} (hs : w.forest.scope? 0 = some s)
    (hstar : s.hasStars = true) {g : Forest} (hres : (Change.resolve 0).exec w.forest = (.ok (), g))
    {i : Nat} {n : String} {past : List Site} {x : Site}
    (hx : (past, x) ∈ pasts [] ((L.record i).sites n)) (hfree : L.Free i n past) :
    ((g.starSites 0 n).any fun y => y.tree.isUse) = true := by
  have hzero := Forest.lt_size hs
  have hroot := hw.loose_root
  obtain ⟨-, p, hp⟩ := hw.sound.live.scope hs
  obtain ⟨f, hex, ht, hsh⟩ | ⟨_, _, e, f, -, hex, -, -⟩ :=
    Change.settled_cases hw.sound.live hs hp (hw.moduleOf hw.proper.pos) hzero
  · have hsent := Tables.loose_sendAll hroot 0 p.globals
    have hloose : f.tables.loose = w.forest.tables.loose := by
      rw [ht, hsent, hroot, ← hsent]
      rfl
    obtain ⟨u, hu⟩ := Forest.scope?_eq_some (f := f) (i := 0)
      (by rwa [Forest.size_eq_of_shells hsh])
    have hcls : u.isClass = false := by
      have hmod : u.isModule = true := by
        rw [Change.isModule_of_shells hsh hs hu, hw.isModule_of_scope hs]
        rfl
      rw [Scope.isModule, Tree.isKind, beq_iff_eq] at hmod
      rw [Scope.isClass, Tree.isKind, hmod]
      rfl
    have hmem := hw.mem_loose.mpr ⟨rfl, List.ne_nil_of_mem (hfree.mem_waiting hw.proper hstack hx)⟩
    have hi := Log.lt_size_of_mem_sites ((mem_of_mem_pasts hx).2 (mem_of_mem_pasts hx).1)
    refine Change.starSites_claimBelow (P := fun l => (l.any fun y => y.tree.isUse) = true)
      (hw.sound.live.of_shells hsh) (hw.sound.nested.of_frame (Forest.frame_of_shells hsh)) hu
      (by rw [Change.hasStars_of_shells hsh hs hu, hstar]) hcls ?_ (hex.symm.trans hres) (j := i) ?_
      (n := n) ?_
    · rw [hloose]
      rintro j ⟨m, l⟩ hml
      obtain ⟨rfl, hne⟩ := hw.mem_loose.mp hml
      obtain ⟨y, rest, hy⟩ := List.exists_cons_of_ne_nil hne
      have hyw : y ∈ L.waiting m j := by rw [hy]; exact List.mem_cons_self
      exact List.any_eq_true.mpr ⟨y, hyw, Log.isUse_of_mem_waiting hL hstack hyw⟩
    · rw [Forest.walk_of_frame (Forest.frame_of_shells hsh), hw.mem_walk hw.proper.pos]
      exact ⟨hi, Or.inr (hw.proper.zero_mem_outer (Nat.pos_of_ne_zero hfree.inner) hi)⟩
    · rw [hloose]
      exact List.mem_map_of_mem hmem
  · cases (Prod.mk.inj (hex.symm.trans hres)).1

end Workshop.Follows

namespace Tree

/-- In the grammar, every name has a context. -/
theorem hasContext_of_inGrammar {t : Tree} (h : t.inGrammar = true) : t.hasContext = true := by
  cases t with
  | atom a => rfl
  | list items => rfl
  | node k s fields =>
    by_cases hk : k = .name
    · subst hk
      obtain ⟨id, ts, rfl, -, h⟩ := Slot.fitAll_cons h
      obtain ⟨ctx, ts, rfl, hctx, h⟩ := Slot.fitAll_cons h
      obtain rfl := Slot.eq_nil_of_fitAll h
      cases ctx with
      | atom a => cases hctx
      | list items => cases hctx
      | node k s fields => cases k <;> first | rfl | cases hctx
    · simp [hasContext, isKind, kind?, hk]

/-- A module of a program with a star import has recorded a use for every name of which some
occurrence inside it is free. -/
theorem IsProgram.isUse_starSites {t : Tree} (hp : t.IsProgram) {f : Forest} (hf : t.scopes = .ok f)
    {s : Scope} (hs : f.scope? 0 = some s) (hstar : s.hasStars = true) {i : Nat} {n : String}
    {past : List Site} {x : Site} (hx : (past, x) ∈ pasts [] ((t.log.record i).sites n))
    (hfree : t.log.Free i n past) : ((s.starSites n).any fun y => y.tree.isUse) = true := by
  obtain ⟨g, hg, -⟩ := except_bind_ok hf
  obtain ⟨F, hF, hreal, hscope⟩ := scopes_ok hp.module hp.one_module hg
  obtain rfl : F = f := Except.ok.inj (hF.symm.trans hf)
  have hpassed := log_passed hp.module hp.one_module
    (every_mono (fun _ => hasContext_of_inGrammar) hp.grammar)
  rw [hreal.stars 0 s hs] at hstar
  obtain ⟨w, L, hw, hstack, hlog, hres⟩ := openScopes_ok hp.module hp.one_module hg
  rw [hlog] at hpassed hx hstar hfree
  obtain ⟨v, hv⟩ := hw.top hstack
  have hrecorded := hw.isUse_starSites hstack hpassed hv (by rw [(hw.scope 0 v hv).stars]; exact hstar)
    hres hx ⟨hfree.inner, hfree.not_global, hfree.not_param, hfree.not_local, hfree.not_member,
      hfree.not_outer⟩
  obtain ⟨u, hu, hsu⟩ := hscope 0 s hs
  rw [Forest.starSites_eq hu] at hrecorded
  rcases hsu with rfl | rfl
  · exact hrecorded
  · rw [Scope.starSites_frozen]
    exact hrecorded

end Tree

end ScopeLint
