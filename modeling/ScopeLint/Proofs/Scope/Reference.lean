import ScopeLint.Proofs.Scope.Following

/-! Resolving the scopes one by one, each when it is left, comes out at the rule that looks at the
whole log: every occurrence of a name ends in the table of its home, once. -/

namespace ScopeLint

section Pasts

variable {α : Type} {p : α → Bool}

theorem map_pasts (l acc : List α) : (pasts acc l).map Prod.snd = l := by
  induction l generalizing acc with
  | nil => rfl
  | cons x l ih => rw [pasts, List.map_cons, ih]

theorem pasts_append (a b acc : List α) : pasts acc (a ++ b) = pasts acc a ++ pasts (acc ++ a) b := by
  induction a generalizing acc with
  | nil => simp [pasts]
  | cons x a ih => rw [List.cons_append, pasts, pasts, ih]; simp

/-- Up to the first item that fails a test, all pasts pass it. -/
theorem all_of_mem_pasts_takeWhile {l : List α} {o : List α × α}
    (ho : o ∈ pasts [] (l.takeWhile p)) : o.1.all p = true := by
  have hacc : ∀ (l acc : List α), acc.all p = true → ∀ o ∈ pasts acc (l.takeWhile p),
      o.1.all p = true := by
    intro l
    induction l with
    | nil => intro acc _ o ho; cases ho
    | cons x l ih =>
      intro acc hacc o ho
      rw [List.takeWhile_cons] at ho
      split_ifs at ho with hx
      · have hnext : (acc ++ [x]).all p = true := by simp [hacc, hx]
        rcases List.mem_cons.mp ho with rfl | ho
        · exact hnext
        · exact ih _ hnext o ho
      · cases ho
  exact hacc l [] rfl o ho

/-- From then on, all pasts fail it. -/
theorem not_all_of_mem_pasts_dropWhile {l acc : List α} {o : List α × α}
    (ho : o ∈ pasts acc (l.dropWhile p)) : o.1.all p = false := by
  have hbad : ∀ (l acc : List α), acc.all p = false → ∀ o ∈ pasts acc l, o.1.all p = false := by
    intro l
    induction l with
    | nil => intro acc _ o ho; cases ho
    | cons x l ih =>
      intro acc hacc o ho
      have hnext : (acc ++ [x]).all p = false := by simp [hacc]
      rcases List.mem_cons.mp ho with rfl | ho
      · exact hnext
      · exact ih _ hnext o ho
  rcases hd : l.dropWhile p with _ | ⟨x, rest⟩
  · rw [hd] at ho
    cases ho
  · have hx : p x = false := by
      have hne : l.dropWhile p ≠ [] := by rw [hd]; exact List.cons_ne_nil _ _
      have := List.head_dropWhile_not p hne
      simpa [hd] using this
    have hnext : (acc ++ [x]).all p = false := by simp [hx]
    rw [hd] at ho
    rcases List.mem_cons.mp ho with rfl | ho
    · exact hnext
    · exact hbad rest _ hnext o ho

theorem map_filter_const {l : List (List α × α)} {q : List α × α → Bool} {a : Prop} [Decidable a]
    (h : ∀ o ∈ l, q o = decide a) :
    (l.filter q).map Prod.snd = if a then l.map Prod.snd else [] := by
  rw [List.filter_congr h]
  by_cases ha : a <;> simp [ha]

end Pasts

namespace Log

variable {L : Log} {n : String}

/-- Where the occurrences go that come out of a scope. -/
def target (L : Log) (n : String) (i : Nat) : Nat :=
  match (L.record i).outer.find? fun a => (L.record a).binds n with
  | some a => a
  | none => if L.reachesModule n then 0 else i

section Inner

variable {i : Nat} {o : List Site × Site}

/-- From the first parameter on, the occurrences of an inner scope stay in it. -/
theorem Proper.home_of_kept (hL : L.Proper) (h0 : 0 < i) (hi : i < L.size) {acc : List Site}
    (ho : o ∈ pasts acc ((L.record i).kept n)) : L.home i n o.1 = i := by
  have hmod : (L.record i).isModule = false := Tree.not_module_of_opensInner (hL.inner i h0 hi)
  have hany : (o.1.any fun x => x.tree.isParam) = true := by
    have := not_all_of_mem_pasts_dropWhile ho
    simpa [List.all_eq_not_any_not] using this
  simp only [home, hmod, hany, Bool.false_eq_true, ↓reduceIte]

/-- Up to the first parameter, the rest of the rule decides. -/
theorem Proper.home_of_early (hL : L.Proper) (h0 : 0 < i) (hi : i < L.size)
    (ho : o ∈ pasts [] ((L.record i).early n)) :
    L.home i n o.1 = if (L.record i).declares n then 0
      else if (L.record i).isFunction && (L.record i).writes n then i
      else if (L.record i).isClass && !o.1.all fun x => x.tree.isRead then i else L.target n i := by
  have hmod : (L.record i).isModule = false := Tree.not_module_of_opensInner (hL.inner i h0 hi)
  have hfree : (o.1.any fun x => x.tree.isParam) = false := by
    have := all_of_mem_pasts_takeWhile ho
    simpa [List.all_eq_not_any_not] using this
  have hwrites : ((L.record i).writes n || (L.record i).params n) = (L.record i).writes n := by
    cases hp : (L.record i).params n with
    | false => exact Bool.or_false _
    | true => rw [Record.writes_of_params hp]; rfl
  simp only [home, hmod, hfree, hwrites, Bool.false_eq_true, ↓reduceIte]
  rfl

variable (hL : L.Proper) (h0 : 0 < i) (hi : i < L.size) (j : Nat)

include hL h0 hi

theorem Proper.filter_kept (acc : List Site) :
    ((pasts acc ((L.record i).kept n)).filter fun o => L.home i n o.1 = j).map Prod.snd =
      if j = i then (L.record i).kept n else [] := by
  rw [map_filter_const (a := j = i), map_pasts]
  intro o ho
  rw [hL.home_of_kept h0 hi ho, decide_eq_decide]
  exact eq_comm

theorem Proper.filter_early_of_declared (hd : (L.record i).declares n = true) :
    ((pasts [] ((L.record i).early n)).filter fun o => L.home i n o.1 = j).map Prod.snd =
      if j = 0 then (L.record i).early n else [] := by
  rw [map_filter_const (a := j = 0), map_pasts]
  intro o ho
  rw [hL.home_of_early h0 hi ho, if_pos hd, decide_eq_decide]
  exact eq_comm

theorem Proper.filter_early_of_function (hd : (L.record i).declares n = false)
    (hc : (L.record i).isClass = false) :
    ((pasts [] ((L.record i).early n)).filter fun o => L.home i n o.1 = j).map Prod.snd =
      (if L.target n i = j then (L.record i).out n else []) ++
        if j = i then (L.record i).stays n else [] := by
  have hf : (L.record i).isFunction = true := by
    have hinner := hL.inner i h0 hi
    rw [Tree.opensInner, ← Record.isClass, hc] at hinner
    exact hinner
  simp only [Record.out, Record.stays, hd, hc, Bool.false_eq_true, ↓reduceIte]
  cases hw : (L.record i).writes n with
  | true =>
    rw [map_filter_const (a := j = i), map_pasts]
    · simp
    · intro o ho
      simp only [hL.home_of_early h0 hi ho, hd, hf, hw, Bool.and_true, Bool.false_eq_true, ↓reduceIte,
        decide_eq_decide]
      exact eq_comm
  | false =>
    rw [map_filter_const (a := L.target n i = j), map_pasts]
    · simp
    · intro o ho
      simp only [hL.home_of_early h0 hi ho, hd, hw, hc, Bool.and_false, Bool.false_and,
        Bool.false_eq_true, ↓reduceIte]

/-- A class keeps what comes from the first occurrence on that is no read. -/
theorem Proper.filter_early_of_class (hd : (L.record i).declares n = false)
    (hc : (L.record i).isClass = true) :
    ((pasts [] ((L.record i).early n)).filter fun o => L.home i n o.1 = j).map Prod.snd =
      (if L.target n i = j then (L.record i).out n else []) ++
        if j = i then (L.record i).stays n else [] := by
  have hhome : ∀ o ∈ pasts [] ((L.record i).early n), L.home i n o.1 =
      if !o.1.all fun x => x.tree.isRead then i else L.target n i := by
    intro o ho
    simp only [hL.home_of_early h0 hi ho, hd, hc, (L.record i).not_isFunction hc, Bool.false_and,
      Bool.true_and, Bool.false_eq_true, ↓reduceIte]
  have hpasts := pasts_append ((L.record i).early n |>.takeWhile fun x => x.tree.isRead)
    ((L.record i).early n |>.dropWhile fun x => x.tree.isRead) []
  rw [List.takeWhile_append_dropWhile] at hpasts
  simp only [Record.out, Record.stays, hd, hc, Bool.false_eq_true, ↓reduceIte]
  rw [hpasts, List.filter_append, List.map_append]
  rw [hpasts] at hhome
  congr 1
  · rw [map_filter_const (a := L.target n i = j), map_pasts]
    intro o ho
    rw [hhome o (List.mem_append_left _ ho), all_of_mem_pasts_takeWhile ho]
    simp
  · rw [map_filter_const (a := j = i), map_pasts]
    intro o ho
    rw [hhome o (List.mem_append_right _ ho), not_all_of_mem_pasts_dropWhile ho]
    simp only [Bool.not_false, ↓reduceIte, decide_eq_decide]
    exact eq_comm

/-- The occurrences of a scope with a home, by what becomes of them when the scope is left. -/
theorem Proper.filter_home :
    ((pasts [] ((L.record i).sites n)).filter fun o => L.home i n o.1 = j).map Prod.snd =
      (if (L.record i).declares n then if j = 0 then (L.record i).early n else [] else
        (if L.target n i = j then (L.record i).out n else []) ++
          if j = i then (L.record i).stays n else []) ++
        if j = i then (L.record i).kept n else [] := by
  rw [← Record.early_append_kept, pasts_append, List.filter_append, List.map_append,
    hL.filter_kept h0 hi]
  congr 1
  cases hd : (L.record i).declares n with
  | true => exact hL.filter_early_of_declared h0 hi j hd
  | false =>
    cases hc : (L.record i).isClass with
    | true => exact hL.filter_early_of_class h0 hi j hd hc
    | false => exact hL.filter_early_of_function h0 hi j hd hc

end Inner

/-- When only the module is open, every scope that binds the name catches it. -/
theorem Proper.catcher_last (hL : L.Proper) (hs : L.stack = [0]) (i : Nat) :
    L.catcher n i = (L.record i).outer.find? fun a => (L.record a).binds n := by
  refine List.find?_congr fun a _ => ?_
  rw [catches, hs]
  by_cases ha : a = 0
  · have hroot : (L.record 0).binds n = false := by
      rw [Record.binds, Record.not_isFunction_of_module hL.root]
      rfl
    rw [ha, hroot]
    rfl
  · simp [ha]

/-- What becomes of the occurrences of a scope when the module is left as the last scope. -/
theorem part_last (hL : L.Proper) (hs : L.stack = [0]) {i : Nat} (hi : i < L.size) (j : Nat) :
    (((pasts [] ((L.record i).sites n)).filter fun o => L.home i n o.1 = j).map Prod.snd).Perm
      (L.part n j i ++ if L.reachesModule n then if j = 0 then L.waiting n i else []
        else if j = i then L.waiting n i else []) := by
  by_cases h0 : i = 0
  · subst h0
    have hall : (((pasts [] ((L.record 0).sites n)).filter fun o => L.home 0 n o.1 = j).map Prod.snd) =
        if j = 0 then (L.record 0).sites n else [] := by
      rw [map_filter_const (a := j = 0), map_pasts]
      intro o _
      simp only [home, hL.root, ↓reduceIte, decide_eq_decide]
      exact eq_comm
    rw [hall]
    simp [part, waiting]
  · have hclosed : i ∉ L.stack := by simp [hs, h0]
    rw [hL.filter_home (by omega) hi]
    have hout : (if L.catcher n i = some j then (L.record i).out n else []) ++
        (if L.reachesModule n then if j = 0 then L.waiting n i else []
          else if j = i then L.waiting n i else []) =
        if L.target n i = j then (L.record i).out n else [] := by
      rw [waiting, if_neg h0, if_neg hclosed, target, ← hL.catcher_last hs]
      rcases L.catcher n i with _ | a
      · cases L.reachesModule n <;> simp [eq_comm]
      · simp
    have hpart : L.part n j i ++ (if L.reachesModule n then if j = 0 then L.waiting n i else []
          else if j = i then L.waiting n i else []) =
        (if j = i then (L.record i).kept n ++ (L.record i).stays n else []) ++
          ((if j = 0 ∧ (L.record i).declares n then (L.record i).early n else []) ++
            if L.target n i = j then (L.record i).out n else []) := by
      rw [← hout]
      simp [part, h0, hclosed]
    rw [hpart]
    rcases hd : (L.record i).declares n with _ | _
    · by_cases hj : j = i
      · simp only [hj, Bool.false_eq_true, and_false, ↓reduceIte, List.nil_append, List.append_assoc]
        refine List.perm_append_comm.trans ?_
        rw [← List.append_assoc ((L.record i).kept n)]
        exact List.perm_append_comm.append_right _
      · simp [hj]
    · have hnone : (L.record i).out n = [] ∧ (L.record i).stays n = [] := by
        simp [Record.out, Record.stays, hd]
      rw [hnone.1, hnone.2]
      simpa using List.perm_append_comm

theorem any_records (p : Record → Bool) :
    L.records.any p = (List.range L.size).any fun i => p (L.record i) := by
  rw [Bool.eq_iff_iff, List.any_eq_true, List.any_eq_true]
  constructor
  · rintro ⟨r, hr, hp⟩
    obtain ⟨i, hi, rfl⟩ := List.getElem_of_mem hr
    refine ⟨i, List.mem_range.mpr hi, ?_⟩
    rwa [record, List.getD_eq_getElem?_getD, List.getElem?_eq_getElem hi]
  · rintro ⟨i, hi, hp⟩
    have hi := List.mem_range.mp hi
    refine ⟨L.records[i], List.getElem_mem hi, ?_⟩
    rwa [record, List.getD_eq_getElem?_getD, List.getElem?_eq_getElem hi] at hp

theorem Describes.reaches {H : Share} (hH : L.Describes n H) (hL : L.Proper) (hs : L.stack = [0])
    {s : Scope} (hm : s.isModule = true) :
    ((L.record 0).declares n || H.knows 0 || s.isGlobal n) = L.reachesModule n := by
  have hany : (L.records.any fun r => r.declares n) = ((L.record 0).declares n ||
      (List.range L.size).any fun i => !L.stack.contains i && (L.record i).declares n) := by
    rw [any_records, Bool.eq_iff_iff, Bool.or_eq_true, List.any_eq_true, List.any_eq_true]
    constructor
    · rintro ⟨i, hi, hd⟩
      by_cases h0 : i = 0
      · exact Or.inl (h0 ▸ hd)
      · exact Or.inr ⟨i, hi, by simp [hs, h0, hd]⟩
    · rintro (hd | ⟨i, hi, hd⟩)
      · exact ⟨0, List.mem_range.mpr hL.pos, hd⟩
      · exact ⟨i, hi, (Bool.and_eq_true _ _ ▸ hd).2⟩
  rw [reachesModule, hany, hH.known_root, Scope.isGlobal, hm]
  cases (L.record 0).declares n <;> cases Scope.builtins.contains n <;> simp

/-- When the module has been resolved, every occurrence is owned by its home and none is loose. -/
theorem Describes.finish {H : Share} (hH : L.Describes n H) (hL : L.Proper) (hs : L.stack = [0])
    {s : Scope} (hm : s.isModule = true) (hc : s.isClass = false) {js : List Nat} (hn : js.Nodup)
    (hjs : ∀ k, k ∈ js ↔ k < L.size) :
    (∀ k, (H.resolve 0 s n ((L.record 0).declares n) 0 js).loose k = none) ∧
      ∀ j, ((H.resolve 0 s n ((L.record 0).declares n) 0 js).owned j).Perm (L.ownedBy j n) := by
  have hloose0 : H.loose 0 = none := by rw [hH.loose, waiting, if_pos rfl, entry_nil]
  have hblank : ∀ k, L.size ≤ k → L.waiting n k = [] := by
    intro k hk
    have hsites : (L.record k).sites n = [] := by rw [record_eq_fresh hk]; rfl
    have hopen : k ∉ L.stack := fun h => absurd (hL.lt_of_mem_stack h) (by omega)
    simp [waiting, hopen, (Record.of_no_sites hsites).2.2.1]
  have hreach := hH.reaches hL hs hm
  obtain ⟨hl, ho⟩ := Share.resolve_root (n := n) ((L.record 0).declares n) hm hc hloose0 hn
  refine ⟨fun k => ?_, fun j => ?_⟩
  · rw [hl]
    split_ifs with hk
    · rfl
    · rw [hH.loose, hblank k (by rw [hjs] at hk; omega), entry_nil]
  · have hparts : (L.ownedBy j n).Perm ((List.range L.size).flatMap (L.part n j) ++
        (List.range L.size).flatMap fun i =>
          if L.reachesModule n then if j = 0 then L.waiting n i else []
          else if j = i then L.waiting n i else []) := by
      refine List.Perm.trans (List.Perm.flatMap_left _ fun i hi => ?_)
        (List.flatMap_append_perm _ _ _).symm
      exact part_last hL hs (List.mem_range.mp hi) j
    have hrange : js.Perm (List.range L.size) :=
      (List.perm_ext_iff_of_nodup hn List.nodup_range).mpr fun k => by rw [hjs, List.mem_range]
    rw [ho, hreach]
    refine List.Perm.trans (List.Perm.append (hH.owned j) ?_) hparts.symm
    have hwaits : H.waits = L.waiting n := funext hH.waits
    rw [hwaits]
    rcases L.reachesModule n with _ | _
    · simp only [Bool.false_eq_true, ↓reduceIte]
      by_cases hj : j < L.size
      · rw [if_pos ((hjs j).mpr hj)]
        have := flatMap_range_perm (F := fun _ => []) (G := fun i => if j = i then L.waiting n i else [])
          hj (E := L.waiting n j) (fun k hk => if_neg (Ne.symm hk)) (by simp)
        rw [List.flatMap_eq_nil_iff.mpr fun _ _ => rfl, List.nil_append] at this
        exact this.symm
      · rw [hblank j (by omega)]
        have : ((List.range L.size).flatMap fun i => if j = i then L.waiting n i else []) = [] := by
          refine List.flatMap_eq_nil_iff.mpr fun i hi => if_neg ?_
          have := List.mem_range.mp hi
          omega
        simp [this]
    · by_cases hj : j = 0
      · simpa [hj] using hrange.flatMap_right (L.waiting n)
      · simp [hj]

end Log

/-! ### Freezing -/

namespace Scope

/-- The scope with nothing pending and its tables closed. -/
def frozen (s : Scope) : Scope := { s.close with pending := none }

end Scope

namespace Change

theorem exec_freezeAll {js : List Nat} (hn : js.Nodup) :
    ∀ {f : Forest}, (∀ j ∈ js, ∃ s p, f.scope? j = some s ∧ s.pending = some p ∧ p.unscoped = []) →
      ∃ F, (js.forM fun j => do
          update j Scope.close
          let p ← pending j "unscoped_names"
          unless p.unscoped.isEmpty do throw .violated
          update j fun s => { s with pending := none } : Change PUnit).exec f = (.ok ⟨⟩, F) ∧
        F.size = f.size ∧
        ∀ k, F.scope? k = if k ∈ js then (f.scope? k).map Scope.frozen else f.scope? k := by
  induction js with
  | nil => intro f _; exact ⟨f, rfl, rfl, by simp⟩
  | cons j js ih =>
    intro f hf
    obtain ⟨hj, hn⟩ := List.nodup_cons.mp hn
    obtain ⟨s, p, hs, hp, hl⟩ := hf j List.mem_cons_self
    have hclosed : (f.update j Scope.close).scope? j = some s.close := by
      rw [Forest.scope?_update, if_pos rfl, hs]
      rfl
    have hpending : (pending j "unscoped_names").exec (f.update j Scope.close) =
        (.ok p, f.update j Scope.close) := by
      have hsp : s.close.pending = some p := hp
      rw [pending, exec_bind_ok (exec_scope hclosed), hsp]
      rfl
    set g := (f.update j Scope.close).update j fun s => { s with pending := none } with hg
    have hscope : ∀ k, g.scope? k = if k = j then (f.scope? k).map Scope.frozen else f.scope? k := by
      intro k
      rw [hg, Forest.scope?_update, Forest.scope?_update]
      by_cases hk : k = j
      · rw [if_pos hk.symm, if_pos hk.symm, if_pos hk, Option.map_map]
        rfl
      · rw [if_neg (Ne.symm hk), if_neg (Ne.symm hk), if_neg hk]
    have hone : (do
          update j Scope.close
          let p ← pending j "unscoped_names"
          unless p.unscoped.isEmpty do throw .violated
          update j fun s => { s with pending := none } : Change PUnit).exec f = (.ok ⟨⟩, g) := by
      rw [exec_bind_ok (exec_update _ _ _), exec_bind_ok hpending, hl]
      rfl
    have hrest : ∀ k ∈ js, ∃ s p, g.scope? k = some s ∧ s.pending = some p ∧ p.unscoped = [] := by
      intro k hk
      have hkj : k ≠ j := fun h => hj (h ▸ hk)
      rw [hscope, if_neg hkj]
      exact hf k (List.mem_cons_of_mem _ hk)
    obtain ⟨F, hF, hsize, hFs⟩ := ih hn hrest
    refine ⟨F, by rw [forM_cons, exec_bind_ok hone, hF], by simp [hsize, hg], fun k => ?_⟩
    rw [hFs, hscope]
    by_cases hk : k = j
    · simp [hk, hj]
    · simp [hk]

end Change

/-! ### The whole visit -/

namespace Workshop

/-- A module has been entered. -/
theorem follows_start {t : Tree} (hm : t.isKind .module = true) :
    Follows ⟨Forest.empty.push none t, [0]⟩ (Log.empty.step (.enter t)) := by
  have hrecord : (Log.empty.step (.enter t)).record 0 = .fresh t [] := rfl
  have hsize : (Log.empty.step (.enter t)).size = 1 := rfl
  have hstack : (Log.empty.step (.enter t)).stack = [0] := rfl
  refine ⟨rfl, rfl, ⟨Nat.one_pos, hm, rfl, ?_, ?_, ?_⟩, Forest.sound_start hm, ?_, ?_⟩
  · intro i h0 hi
    omega
  · intro i h0 hi
    omega
  · intro h rest hs
    rw [hstack] at hs
    cases hs
    exact ⟨Nat.one_pos, rfl⟩
  · intro i s hs
    have hi : i < 1 := Forest.lt_size hs
    obtain rfl : i = 0 := by omega
    cases hs
    exact ⟨rfl, rfl, rfl, fun p hp n => by cases hp; rfl⟩
  · intro n
    have hsites : ∀ i, ((Log.empty.step (.enter t)).record i).sites n = [] := by
      intro i
      rw [Log.record_enter]
      split_ifs <;> rfl
    have hpart : ∀ j i, (Log.empty.step (.enter t)).part n j i = [] := by
      intro j i
      obtain ⟨he, hk, ho, hst, -⟩ := Record.of_no_sites (hsites i)
      simp [Log.part, hsites, he, hk, ho, hst]
    rw [Forest.tables_push]
    refine ⟨fun i => ?_, fun j => ?_, fun i hi h0 => ?_, ?_⟩
    · obtain ⟨he, -, ho, -, -⟩ := Record.of_no_sites (hsites i)
      simp [Log.waiting, he, ho]
      rfl
    · rw [List.flatMap_eq_nil_iff.mpr fun i _ => hpart j i]
      exact List.Perm.refl _
    · rw [hstack] at hi
      simp at hi
      exact absurd hi h0
    · rw [hsites, hsize, hstack]
      rfl

end Workshop

namespace Tree

/-- The visit of a module is followed up to the point where the module itself is left. -/
theorem visit_ok {t : Tree} (hm : t.isKind .module = true) (hone : t.kinds.count .module = 1)
    {w : Workshop} (hrun : Workshop.start.run (t.events .start) = .ok w) :
    ∃ es v, Block (fun _ => true) es ∧ (⟨Forest.empty.push none t, [0]⟩ : Workshop).run es = .ok v ∧
      v.Follows ((Log.empty.step (.enter t)).run es) ∧
      ((Log.empty.step (.enter t)).run es).stack = [0] ∧ v.step .leave = .ok w ∧
      t.log = ((Log.empty.step (.enter t)).run es).step .leave := by
  obtain ⟨es, hes, hblock⟩ := events_of_module hm hone (passes_any t) .start
  rw [hes] at hrun
  obtain ⟨v, hv, hz⟩ := Workshop.run_module hrun
  obtain ⟨hf, hstack⟩ := Workshop.Follows.block hblock (Workshop.follows_start hm) (List.cons_ne_nil _ _) hv
  refine ⟨es, v, hblock, hv, hf, hstack, hz, ?_⟩
  rw [log, hes, Log.run_scope]

/-- A visit of a module, up to the point where the module itself is resolved. -/
theorem openScopes_ok {t : Tree} (hm : t.isKind .module = true) (hone : t.kinds.count .module = 1)
    {g : Forest} (hv : t.openScopes = .ok g) :
    ∃ w L, Workshop.Follows w L ∧ L.stack = [0] ∧ t.log = L.step .leave ∧
      (Change.resolve 0).exec w.forest = (.ok (), g) := by
  obtain ⟨u, hu, hv⟩ := except_bind_ok hv
  obtain ⟨w, hrun, hg⟩ := except_bind_ok hv
  cases hg
  obtain ⟨es, v, -, -, hf, hstack, hlast, hlog⟩ := visit_ok hm hone hrun
  obtain ⟨f, hex, rfl⟩ := Workshop.leave_ok hlast (hf.stack.trans hstack)
  exact ⟨v, _, hf, hstack, hlog, hex⟩

end Tree

/-- A finished forest has the scopes of the log, and in their tables what the rule gives to them. -/
structure Forest.Realizes (f : Forest) (L : Log) : Prop where
  proper : L.Proper
  size : f.size = L.size
  parent : ∀ i s, f.scope? i = some s → s.parent = (L.record i).outer.head?
  owner : ∀ i s, f.scope? i = some s → s.owner = (L.record i).owner
  stars : ∀ i s, f.scope? i = some s → s.hasStars = (L.record i).stars
  nested : f.Nested
  distinct : ∀ i s, f.scope? i = some s → s.names.keys.Nodup
  owned : ∀ j n, (f.tables.owned j n).Perm (L.ownedBy j n)

theorem Forest.Realizes.enclosing {f : Forest} {L : Log} {i : Nat} (hf : f.Realizes L)
    (hi : i < f.size) : f.enclosing i = i :: (L.record i).outer :=
  hf.proper.enclosing_eq hf.nested hf.size hf.parent (by rw [← hf.size]; exact hi)

/-- All scopes are below that of the module. -/
theorem Forest.Realizes.mem_walk {f : Forest} {L : Log} {i : Nat} (hf : f.Realizes L)
    (hi : i < f.size) : i ∈ f.walk 0 := by
  have hzero : 0 < f.size := by rw [hf.size]; exact hf.proper.pos
  rw [hf.nested.mem_walk hzero hi, hf.enclosing hi, List.mem_cons]
  by_cases h0 : i = 0
  · exact Or.inl h0.symm
  · exact Or.inr (hf.proper.zero_mem_outer (by omega) (by rw [← hf.size]; exact hi))

namespace Tree

theorem scopes_eq {t : Tree} (hm : t.isKind .module = true) {g F : Forest} (hv : t.openScopes = .ok g)
    (hf : (Change.freeze 0).exec g = (.ok (), F)) : t.scopes = .ok F := by
  have howns : t.ownsScope = true := by
    rw [isKind, beq_iff_eq] at hm
    rw [ownsScope, isOneOf, hm]
    rfl
  have hrun : (Change.freeze 0).run g = (.ok (), F) := hf
  rw [scopes, hv]
  simp only [bind, Except.bind, howns, hm, Bool.not_true, Bool.false_eq_true, ↓reduceIte, hrun]
  rfl

/-- When the module has been left, nothing is pending and the forest is as the log has it. -/
theorem openScopes_realizes {t : Tree} (hm : t.isKind .module = true) (hone : t.kinds.count .module = 1)
    {g : Forest} (hv : t.openScopes = .ok g) :
    g.Realizes t.log ∧ g.Live ∧ ∀ i, g.tables.loose i = [] := by
  obtain ⟨w, L, hw, hs, hlog, hres⟩ := openScopes_ok hm hone hv
  obtain ⟨s, hsc⟩ := hw.top hs
  have hpos := hw.proper.pos
  have hzero := Forest.lt_size hsc
  obtain ⟨-, p, hp⟩ := hw.sound.live.scope hsc
  have hmod : s.isModule = true := by rw [hw.isModule_of_scope hsc]; rfl
  have hcls : s.isClass = false := by
    rw [Scope.isModule, isKind, beq_iff_eq] at hmod
    rw [Scope.isClass, isKind, hmod]
    rfl
  obtain ⟨f', hex', ht, hsh⟩ | ⟨_, _, e, f', -, hex', -, -⟩ :=
    Change.resolve_cases hw.sound.live hsc hp (hw.moduleOf hpos) hzero
  · obtain rfl : f' = g := (Prod.mk.inj (hex'.symm.trans hres)).2
    have hcons := (Change.conserves_resolve hw.sound.live hw.sound.distinct hsc hp (hw.moduleOf hpos)
      hzero).1
    rw [hres] at hcons
    have hsound := hw.sound.of_tables hsh hcons.distinct
    have hwalk : ∀ k, k ∈ w.forest.walk 0 ↔ k < L.size := by
      intro k
      rw [hw.mem_walk hpos]
      refine ⟨And.left, fun hk => ⟨hk, ?_⟩⟩
      by_cases h0 : k = 0
      · exact Or.inl h0
      · exact Or.inr (hw.proper.zero_mem_outer (by omega) hk)
    have hshare : ∀ n, f'.tables.share n = (w.forest.tables.share n).resolve 0 s n
        ((L.record 0).declares n) 0 (w.forest.walk 0) := by
      intro n
      rw [ht, Tables.share_resolved 0 n hw.sound.distinct, (hw.scope 0 s hsc).globals p hp]
    have hfinish := fun n => (hw.describes n).finish hw.proper hs hmod hcls
      (hw.sound.nested.nodup_walk hzero) hwalk
    have hmatch := hw.scope_of_shells hsh
    rw [hlog]
    refine ⟨⟨hw.proper.leave hs, ?_, fun i s hi => (hmatch i s hi).parent,
      fun i s hi => (hmatch i s hi).owner, fun i s hi => (hmatch i s hi).stars, hsound.nested, ?_, ?_⟩,
      hsound.live, fun i => ?_⟩
    · exact (Forest.size_eq_of_shells hsh).trans hw.size
    · intro i s hi
      rw [← Forest.tables_names hi]
      exact (hsound.distinct i).1
    · intro j n
      have howned : f'.tables.owned j n = (f'.tables.share n).owned j := rfl
      rw [howned, hshare]
      exact (hfinish n).2 j
    · rw [List.eq_nil_iff_forall_not_mem]
      rintro ⟨n, l⟩ hmem
      have hget := Table.get?_eq_some_of_mem (hsound.distinct i).2 hmem
      have hnone : (f'.tables.share n).loose i = none := by
        rw [hshare]
        exact (hfinish n).1 i
      cases hget.symm.trans hnone
  · cases (Prod.mk.inj (hex'.symm.trans hres)).1

end Tree

/-- Freezing a forest in which nothing is pending freezes every scope by itself. -/
theorem Forest.Realizes.exec_freeze {g : Forest} {L : Log} (hg : g.Realizes L) (hl : g.Live)
    (hempty : ∀ i, g.tables.loose i = []) :
    ∃ F, (Change.freeze 0).exec g = (.ok (), F) ∧ F.size = g.size ∧
      ∀ i, F.scope? i = if i ∈ g.walk 0 then (g.scope? i).map Scope.frozen else g.scope? i := by
  have hzero : 0 < g.size := by rw [hg.size]; exact hg.proper.pos
  obtain ⟨s, hs⟩ := Forest.scope?_eq_some hzero
  have hmod : s.isModule = true := by
    rw [Scope.isModule, hg.owner 0 s hs]
    exact hg.proper.root
  have hready : ∀ j ∈ g.walk 0, ∃ s p, g.scope? j = some s ∧ s.pending = some p ∧ p.unscoped = [] := by
    intro j hj
    obtain ⟨t, ht⟩ := Forest.scope?_eq_some (Forest.lt_size_of_mem_walk hzero hj)
    obtain ⟨-, p, hp⟩ := hl.scope ht
    exact ⟨t, p, ht, hp, by rw [← Change.loose_eq_unscoped ht hp, hempty]⟩
  obtain ⟨F, hF, hsize, hscope⟩ := Change.exec_freezeAll (hg.nested.nodup_walk hzero) hready
  refine ⟨F, ?_, hsize, hscope⟩
  rw [Change.freeze, Change.exec_bind_ok (Change.exec_scope hs), if_pos hmod]
  rw [Change.exec_bind_ok (Change.exec_get g)]
  exact hF

/-- A frozen forest has the scopes and the tables that it had before. -/
theorem Forest.Realizes.of_frozen {g F : Forest} {L : Log} (hg : g.Realizes L) (hsize : F.size = g.size)
    (hscope : ∀ i, F.scope? i =
      if i ∈ g.walk 0 then (g.scope? i).map Scope.frozen else g.scope? i) : F.Realizes L := by
  have hsame : ∀ i t, F.scope? i = some t → ∃ u, g.scope? i = some u ∧ t.parent = u.parent ∧
      t.owner = u.owner ∧ t.hasStars = u.hasStars ∧ t.names = u.names := by
    intro i t ht
    rw [hscope] at ht
    split_ifs at ht
    · obtain ⟨u, hu, rfl⟩ := Option.map_eq_some_iff.mp ht
      exact ⟨u, hu, rfl, rfl, rfl, rfl⟩
    · exact ⟨t, ht, rfl, rfl, rfl, rfl⟩
  refine ⟨hg.proper, hsize.trans hg.size, ?_, ?_, ?_, ?_, ?_, ?_⟩
  · intro i t ht
    obtain ⟨u, hu, hp, -⟩ := hsame i t ht
    rw [hp]
    exact hg.parent i u hu
  · intro i t ht
    obtain ⟨u, hu, -, ho, -⟩ := hsame i t ht
    rw [ho]
    exact hg.owner i u hu
  · intro i t ht
    obtain ⟨u, hu, -, -, hst, -⟩ := hsame i t ht
    rw [hst]
    exact hg.stars i u hu
  · intro i t q ht hq
    obtain ⟨u, hu, hp, -⟩ := hsame i t ht
    exact hg.nested i u q hu (hp ▸ hq)
  · intro i t ht
    obtain ⟨u, hu, -, -, -, hn⟩ := hsame i t ht
    rw [hn]
    exact hg.distinct i u hu
  · intro j n
    have hnames : F.tables.names j = g.tables.names j := by
      simp only [Forest.tables, hscope]
      split_ifs
      · rw [Option.map_map]
        rfl
      · rfl
    rw [Tables.owned, hnames]
    exact hg.owned j n

namespace Tree

/-- The scopes of a module, which can be frozen once it has been visited. -/
theorem scopes_ok {t : Tree} (hm : t.isKind .module = true) (hone : t.kinds.count .module = 1)
    {g : Forest} (hv : t.openScopes = .ok g) :
    ∃ f, t.scopes = .ok f ∧ f.Realizes t.log ∧
      ∀ i s, f.scope? i = some s → ∃ u, g.scope? i = some u ∧ (s = u ∨ s = u.frozen) := by
  obtain ⟨hg, hl, hempty⟩ := openScopes_realizes hm hone hv
  obtain ⟨F, hF, hsize, hscope⟩ := hg.exec_freeze hl hempty
  refine ⟨F, scopes_eq hm hv hF, hg.of_frozen hsize hscope, fun i s hs => ?_⟩
  rw [hscope] at hs
  split_ifs at hs
  · obtain ⟨u, hu, rfl⟩ := Option.map_eq_some_iff.mp hs
    exact ⟨u, hu, Or.inr rfl⟩
  · exact ⟨s, hs, Or.inl rfl⟩

theorem scopes_realizes {t : Tree} (hm : t.isKind .module = true) (hone : t.kinds.count .module = 1)
    {g : Forest} (hv : t.openScopes = .ok g) : ∃ f, t.scopes = .ok f ∧ f.Realizes t.log := by
  obtain ⟨f, hf, hreal, -⟩ := scopes_ok hm hone hv
  exact ⟨f, hf, hreal⟩

/-- Finished scopes come from a visit of the whole module. -/
theorem visit_of_scopes {t : Tree} (hm : t.isKind .module = true) (hone : t.kinds.count .module = 1)
    {f : Forest} (hf : t.scopes = .ok f) :
    f.Realizes t.log ∧ ∃ w, Workshop.start.run (t.events .start) = .ok w ∧
      ∀ i s, f.scope? i = some s → ∃ u, w.forest.scope? i = some u ∧ (s = u ∨ s = u.frozen) := by
  obtain ⟨g, hg, -⟩ := except_bind_ok hf
  obtain ⟨F, hF, hreal, hscope⟩ := scopes_ok hm hone hg
  obtain rfl : F = f := Except.ok.inj (hF.symm.trans hf)
  obtain ⟨-, -, hg⟩ := except_bind_ok hg
  obtain ⟨w, hrun, hgw⟩ := except_bind_ok hg
  cases hgw
  exact ⟨hreal, w, hrun, hscope⟩

/-- Freezing does not change what is in the tables. -/
theorem names_of_scopes {t : Tree} (hm : t.isKind .module = true) (hone : t.kinds.count .module = 1)
    {f : Forest} (hf : t.scopes = .ok f) :
    ∃ w, Workshop.start.run (t.events .start) = .ok w ∧
      ∀ i s, f.scope? i = some s → w.forest.tables.names i = s.names := by
  obtain ⟨-, w, hrun, hscope⟩ := visit_of_scopes hm hone hf
  refine ⟨w, hrun, fun i s hs => ?_⟩
  obtain ⟨u, hu, hsu⟩ := hscope i s hs
  rw [Forest.tables_names hu]
  rcases hsu with rfl | rfl
  · rfl
  · rfl

/-- What holds of an entered module and is preserved by every event holds when the scopes are finished. -/
theorem scopes_induction {t : Tree} (hm : t.isKind .module = true) (hone : t.kinds.count .module = 1)
    {P : Workshop → Log → Prop}
    (hstep : ∀ {w w' : Workshop} {L : Log} {e : Event}, w.Follows L → L.stack ≠ [] →
      w.step e = .ok w' → P w L → P w' (L.step e))
    (hstart : P ⟨Forest.empty.push none t, [0]⟩ (Log.empty.step (.enter t))) {f : Forest}
    (hf : t.scopes = .ok f) :
    ∃ w, P w t.log ∧ ∀ i s, f.scope? i = some s → w.forest.tables.names i = s.names := by
  obtain ⟨w, hrun, hnames⟩ := names_of_scopes hm hone hf
  obtain ⟨es, v, hblock, hv, hvf, hstack, hlast, hlog⟩ := visit_ok hm hone hrun
  have hP := Workshop.Follows.block_induction hstep hblock (Workshop.follows_start hm)
    (List.cons_ne_nil _ _) hv hstart
  refine ⟨w, ?_, hnames⟩
  rw [hlog]
  exact hstep hvf (by rw [hstack]; exact List.cons_ne_nil _ _) hlast hP

/-- Every module around no other module that can be visited can be frozen, and then every occurrence
of a name is in the table of its home, once, and nothing else is in the tables. -/
theorem owned_perm_ownedBy {t : Tree} (hm : t.isKind .module = true)
    (hone : t.kinds.count .module = 1) {g : Forest} (hv : t.openScopes = .ok g) :
    ∃ f, t.scopes = .ok f ∧ f.size = t.log.size ∧
      (∀ i s, f.scope? i = some s → s.owner = (t.log.record i).owner ∧
        s.parent = (t.log.record i).outer.head?) ∧
      ∀ j n, (f.tables.owned j n).Perm (t.log.ownedBy j n) := by
  obtain ⟨f, hf, hreal⟩ := scopes_realizes hm hone hv
  exact ⟨f, hf, hreal.size, fun i s hs => ⟨hreal.owner i s hs, hreal.parent i s hs⟩, hreal.owned⟩

/-- A function with a parameter `p` sets a global name `g`, and a class in it reads `p`, sets it and
reads an unknown name `q`. The function owns `p` with the read in the class, the class the write. -/
theorem owned_perm_ownedBy_class_in_function :
    let name (n : String) (ctx : Kind) : Tree := .node .name .absent [.atom (.str n), .node ctx .absent []]
    let set (n m : String) : Tree :=
      .node .assign .absent [.list [name n .store], name m .load, .null]
    let args : Tree := .node .parameters .absent [.list [],
      .list [.node .parameter .absent [.atom (.str "p"), .null, .null]], .null, .list [], .list [], .null,
      .list []]
    let cls : Tree := .node .classDef .absent
      [.atom (.str "C"), .list [], .list [], .list [set "p" "p", name "q" .load], .list []]
    let fn : Tree := .node .functionDef ⟨some (.int 1), some (.int 0), none, none⟩
      [.atom (.str "f"), args,
        .list [.node .globalStmt .absent [.list [.atom (.str "g")]], set "g" "p", cls], .list [], .null,
        .null]
    let t : Tree := .node .module .absent [.list [fn], .list []]
    t.isKind .module = true ∧ t.kinds.count .module = 1 ∧ (∃ g, t.openScopes = .ok g) ∧
      ∃ f, t.scopes = .ok f ∧ f.size = 3 ∧ (f.tables.owned 1 "p").length = 3 ∧
        (f.tables.owned 2 "p").length = 1 ∧ (f.tables.owned 0 "g").length = 1 ∧
        (f.tables.owned 2 "q").length = 1 ∧ (f.tables.owned 0 "p").length = 0 := by
  intro name set args cls fn t
  have hok : t.openScopes.isOk = true := by decide +kernel
  obtain ⟨g, hg⟩ : ∃ g, t.openScopes = .ok g := by
    rcases h : t.openScopes with e | g
    · rw [h] at hok
      cases hok
    · exact ⟨g, rfl⟩
  obtain ⟨f, hf, hsize, -, howned⟩ := owned_perm_ownedBy (t := t) rfl (by decide) hg
  refine ⟨rfl, by decide, ⟨g, hg⟩, f, hf, hsize, ?_, ?_, ?_, ?_, ?_⟩
  all_goals
    rw [(howned _ _).length_eq]
    decide +kernel

end Tree

end ScopeLint
