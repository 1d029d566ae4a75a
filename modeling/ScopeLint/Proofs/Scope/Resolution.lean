import Mathlib.Data.List.TakeWhile
import ScopeLint.Proofs.Scope.Log
import ScopeLint.Proofs.Scope.Share

/-! What resolving a scope means for the occurrences of one name, in the words of the log. Until a
scope is left, only the occurrences from the first parameter on are its own and the earlier ones are
loose in it. Leaving it settles which of these stay, which go to the module and which go out to the
scopes around; the nearest of them that binds the name takes what comes out when it is left itself. -/

namespace ScopeLint

/-- The entry of a table for some occurrences; without occurrences there is none. -/
def entry (l : List Site) : Option (List Site) := if l.isEmpty then none else some l

@[simp] theorem entry_nil : entry [] = none := rfl

@[simp] theorem getD_entry (l : List Site) : (entry l).getD [] = l := by
  cases l <;> rfl

theorem Tree.writes_of_isParam {t : Tree} (h : t.isParam = true) : t.writes = true := by
  simp only [isParam, nameContext?, Bool.or_eq_true, beq_iff_eq] at h
  rcases h with h | h
  · split_ifs at h with hk
    obtain ⟨c, hc, hp⟩ := Option.bind_eq_some_iff.mp h
    have hw : c.isOneOf [.store, .del, .param] = true := by
      rw [isOneOf, hp]
      rfl
    simp only [writes, isWrite, get, hc]
    split_ifs
    · rfl
    · simpa [bind, Except.bind, pure, Except.pure] using hw
  · have hb : t.isOneOf binders = true := by
      rw [isOneOf] at h ⊢
      split at h
      · simp only [List.contains_iff_mem, List.mem_cons, List.not_mem_nil, or_false] at h
        rcases h with h | h <;> rw [h] <;> rfl
      · cases h
    simp [writes, isWrite, hb]

namespace Record

variable (r : Record) (n : String)

/-- The occurrences before the first parameter. -/
def early : List Site := (r.sites n).takeWhile fun x => !x.tree.isParam

/-- The occurrences from the first parameter on. -/
def kept : List Site := (r.sites n).dropWhile fun x => !x.tree.isParam

/-- Of the early occurrences, those that go out when the scope is left. -/
def out : List Site :=
  if r.declares n then []
  else if r.isClass then (r.early n).takeWhile fun x => x.tree.isRead
  else if r.writes n then [] else r.early n

/-- Of the early occurrences, those that stay when the scope is left. -/
def stays : List Site :=
  if r.declares n then []
  else if r.isClass then (r.early n).dropWhile fun x => x.tree.isRead
  else if r.writes n then r.early n else []

variable {r n}

theorem early_append_kept : r.early n ++ r.kept n = r.sites n := List.takeWhile_append_dropWhile

theorem early_of_no_params (h : r.params n = false) : r.early n = r.sites n := by
  refine List.takeWhile_eq_self_iff.mpr fun x hx => ?_
  have := List.any_eq_false.mp h x hx
  simpa using this

theorem kept_of_no_params (h : r.params n = false) : r.kept n = [] := by
  have happ := early_append_kept (r := r) (n := n)
  rw [early_of_no_params h] at happ
  simpa using happ

theorem writes_of_params (h : r.params n = true) : r.writes n = true := by
  obtain ⟨x, hx, hp⟩ := List.any_eq_true.mp h
  exact List.any_eq_true.mpr ⟨x, hx, Tree.writes_of_isParam hp⟩

theorem any_early_writes (h : r.params n = false) :
    ((r.early n).any fun x => x.tree.writes) = r.writes n := by
  rw [early_of_no_params h, writes]

theorem not_isFunction_of_module (h : r.isModule = true) : r.isFunction = false := by
  rw [isModule, Tree.isKind, beq_iff_eq] at h
  rw [isFunction, Tree.isFunction, Tree.isOneOf, h]
  rfl

theorem not_isFunction (r : Record) (hc : r.isClass = true) : r.isFunction = false := by
  rw [isClass, Tree.isKind, beq_iff_eq] at hc
  rw [isFunction, Tree.isFunction, Tree.isOneOf, hc]
  rfl

/-- A function that does not bind a name lets the early occurrences out that do not go to the
module. -/
theorem out_of_not_binds (r : Record) (hc : r.isClass = false) (hf : r.isFunction = true)
    (hb : r.binds n = false) :
    r.out n = (if r.declares n then [] else r.early n) ∧ r.stays n = [] := by
  rw [binds, hf] at hb
  rw [out, stays, hc]
  cases hd : r.declares n
  · have : r.writes n = false := by simp_all
    simp [this]
  · simp

theorem out_of_binds (r : Record) (hc : r.isClass = false) (hb : r.binds n = true) :
    r.out n = [] ∧ r.stays n = if r.declares n then [] else r.early n := by
  rw [binds, Bool.and_eq_true, Bool.or_eq_true, Bool.and_eq_true] at hb
  have hw : r.writes n = true := hb.2.elim writes_of_params And.left
  rw [out, stays, hc, hw]
  simp

theorem of_no_sites (h : r.sites n = []) :
    r.early n = [] ∧ r.kept n = [] ∧ r.out n = [] ∧ r.stays n = [] ∧ r.params n = false := by
  have he : r.early n = [] := by rw [early, h]; rfl
  refine ⟨he, by rw [kept, h]; rfl, ?_, ?_, by rw [params, h]; rfl⟩
  · simp [out, he]
  · simp [stays, he]

/-! An occurrence comes to the end of the ones before it. -/

variable {x : Site}

theorem sites_met (m : String) :
    (r.met n x).sites m = r.sites m ++ if m = n then [x] else [] := by
  by_cases h : m = n
  · simp [met, sites, List.filter_append, h]
  · simp [met, sites, List.filter_append, h, Ne.symm h]

theorem params_met : (r.met n x).params n = (r.params n || x.tree.isParam) := by
  simp [params, sites_met]

theorem early_met :
    (r.met n x).early n = r.early n ++ if r.params n || x.tree.isParam then [] else [x] := by
  rcases hp : r.params n with _ | _
  · have hall := early_of_no_params hp
    rw [hall, early, sites_met, if_pos rfl,
      List.takeWhile_append_of_pos (List.takeWhile_eq_self_iff.mp hall)]
    cases hx : x.tree.isParam <;> simp [hx]
  · obtain ⟨y, hy, hyp⟩ := List.any_eq_true.mp hp
    have hstop : ((r.sites n).takeWhile fun x => !x.tree.isParam).length ≠ (r.sites n).length := by
      intro hlen
      have hall := (List.takeWhile_prefix fun x : Site => !x.tree.isParam).eq_of_length hlen
      have := List.takeWhile_eq_self_iff.mp hall y hy
      simp [hyp] at this
    rw [early, sites_met, if_pos rfl, List.takeWhile_append, if_neg hstop]
    simp [early]

theorem kept_met :
    (r.met n x).kept n = r.kept n ++ if r.params n || x.tree.isParam then [x] else [] := by
  have happ := early_append_kept (r := r.met n x) (n := n)
  rw [early_met, sites_met, if_pos rfl, ← early_append_kept, List.append_assoc, List.append_assoc,
    List.append_cancel_left_eq] at happ
  rcases hb : r.params n || x.tree.isParam with _ | _
  · have hkept : r.kept n = [] := kept_of_no_params (Bool.or_eq_false_iff.mp hb).1
    rw [hb, hkept] at happ
    rw [hkept]
    simpa using happ
  · rw [hb] at happ
    simpa using happ

end Record

namespace Share

variable {H : Share} {i m : Nat} {s : Scope} {e : List Site}

theorem loose_send (k : Nat) : (H.send i m).loose k = if k = i then none else H.loose k := loose_drop

theorem owned_send (k : Nat) :
    (H.send i m).owned k = if k = m then H.owned m ++ H.waits i else H.owned k := by
  rw [send, owned_give]
  rfl

theorem knows_send (k : Nat) : (H.send i m).knows k = (decide (k = m) || H.knows k) := by
  rw [send, knows_give]
  rfl

/-- A class keeps what comes from the first occurrence on that is no read. -/
theorem settleLoose_of_class (hc : s.isClass = true) (he : H.loose i = entry e) :
    (∀ k, (H.settleLoose i s).loose k =
        if k = i then entry (e.takeWhile fun x => x.tree.isRead) else H.loose k) ∧
      (∀ k, (H.settleLoose i s).owned k =
        if k = i then H.owned i ++ e.dropWhile (fun x => x.tree.isRead) else H.owned k) ∧
      ∀ k, k ≠ i → (H.settleLoose i s).knows k = H.knows k := by
  cases e with
  | nil =>
    have hsame : H.settleLoose i s = H := by rw [settleLoose, he]; rfl
    rw [hsame]
    refine ⟨fun k => ?_, fun k => ?_, fun _ _ => rfl⟩
    · split_ifs with h
      · rw [h, he]
        rfl
      · rfl
    · split_ifs with h
      · simp [h]
      · rfl
  | cons x e =>
    have hloose : H.loose i = some (x :: e) := he
    have hsplit := List.takeWhile_append_dropWhile (p := fun x : Site => x.tree.isRead) (l := x :: e)
    simp only [settleLoose, hloose, settle, hc, ↓reduceIte]
    set reads := (x :: e).takeWhile fun x => x.tree.isRead with hreads
    set rest := (x :: e).dropWhile fun x => x.tree.isRead with hrest
    split_ifs with h₁ h₂
    · have hall : reads = x :: e := by simpa [List.isEmpty_iff.mp h₁] using hsplit
      rw [List.isEmpty_iff.mp h₁, hall]
      refine ⟨fun k => ?_, fun k => ?_, fun _ _ => rfl⟩
      · split_ifs with h
        · rw [h, hloose]
          rfl
        · rfl
      · split_ifs with h
        · simp [h]
        · rfl
    · rw [List.isEmpty_iff.mp h₂]
      exact ⟨fun k => loose_drop, fun k => by rw [owned_drop, owned_give],
        fun k hk => by simp [knows_give, hk]⟩
    · refine ⟨fun k => ?_, fun k => by rw [owned_keep, owned_give],
        fun k hk => by simp [knows_give, hk]⟩
      rw [loose_keep, loose_give, hloose, entry, if_neg h₂]
      rfl

/-- A function keeps the name if one of the loose occurrences writes it. -/
theorem settleLoose_of_function (hc : s.isClass = false) (hm : s.isModule = false)
    (he : H.loose i = entry e) :
    (∀ k, (H.settleLoose i s).loose k =
        if k = i then entry (if e.any fun x => x.tree.writes then [] else e) else H.loose k) ∧
      (∀ k, (H.settleLoose i s).owned k =
        if k = i then H.owned i ++ (if e.any fun x => x.tree.writes then e else []) else H.owned k) ∧
      ∀ k, (H.settleLoose i s).knows k =
        (decide (k = i) && (e.any fun x => x.tree.writes) || H.knows k) := by
  rcases hw : e.any fun x => x.tree.writes with _ | _
  · have hsame : H.settleLoose i s = H := by
      cases e with
      | nil => rw [settleLoose, he]; rfl
      | cons x e =>
        have hloose : H.loose i = some (x :: e) := he
        simp only [settleLoose, hloose, settle, hc, hm, hw, Bool.false_or, Bool.false_eq_true,
          ↓reduceIte]
    rw [hsame]
    refine ⟨fun k => ?_, fun k => ?_, fun k => by simp⟩
    · split_ifs with h <;> simp_all
    · split_ifs with h <;> simp_all
  · have hne : H.loose i = some e := by
      rw [he, entry, if_neg]
      intro h
      rw [List.isEmpty_iff.mp h] at hw
      cases hw
    have hput : H.settleLoose i s = (H.give i e).drop i := by
      simp only [settleLoose, hne, settle, hc, hm, hw, Bool.false_or, Bool.false_eq_true, ↓reduceIte]
    rw [hput]
    exact ⟨fun k => loose_drop, fun k => by rw [owned_drop, owned_give]; rfl,
      fun k => by simp [knows_give]⟩

section Inner

variable {r : Record} {n : String} {js : List Nat}

/-- The early occurrences go to the module if the name is declared global, and else they stay loose. -/
theorem sent (hw : H.loose i = entry (r.early n)) :
    let G := if r.declares n then H.send i 0 else H
    G.loose i = entry (if r.declares n then [] else r.early n) ∧
      (∀ k, k ≠ i → G.loose k = H.loose k) ∧
      (∀ k, G.owned k = H.owned k ++ if k = 0 ∧ r.declares n then r.early n else []) ∧
      ∀ k, G.knows k = (decide (k = 0) && r.declares n || H.knows k) := by
  have hwaits : H.waits i = r.early n := by rw [waits, hw, getD_entry]
  rcases r.declares n with _ | _
  · simp [hw]
  · simp only [↓reduceIte, and_true, Bool.and_true]
    refine ⟨by simp [loose_send], fun k hk => by simp [loose_send, hk], fun k => ?_, knows_send⟩
    rw [owned_send, hwaits]
    split_ifs with h
    · rw [h]
    · simp

variable (js) in
/-- Resolving a class with the early occurrences of the name loose in it. -/
theorem resolve_of_class (hc : s.isClass = true) (hr : r.isClass = true)
    (he : H.loose i = entry (r.early n)) :
    (∀ k, (H.resolve i s n (r.declares n) 0 js).loose k =
        if k = i then entry (r.out n) else H.loose k) ∧
      (∀ k, ((H.resolve i s n (r.declares n) 0 js).owned k).Perm (H.owned k ++
        ((if k = i then r.stays n else []) ++ if k = 0 ∧ r.declares n then r.early n else []))) ∧
      ∀ k, k ≠ i → (H.resolve i s n (r.declares n) 0 js).knows k =
        (decide (k = 0) && r.declares n || H.knows k) := by
  obtain ⟨hGi, hGl, hGo, hGk⟩ := sent (H := H) (i := i) he
  simp only [resolve, hc, ↓reduceIte]
  set G := if r.declares n then H.send i 0 else H with hG
  obtain ⟨hl, ho, hk⟩ := settleLoose_of_class hc hGi
  refine ⟨fun k => ?_, fun k => ?_, fun k hki => by rw [hk k hki, hGk]⟩
  · rw [hl, Record.out, hr]
    by_cases h : k = i
    · cases r.declares n <;> simp [h]
    · simp [h, hGl k h]
  · rw [ho, Record.stays, hr]
    by_cases h : k = i
    · subst h
      rw [if_pos rfl, hGo, List.append_assoc]
      refine List.Perm.append_left _ (List.perm_append_comm.trans (List.Perm.append_right _ ?_))
      cases r.declares n <;> simp
    · simp [h, hGo]

/-- Resolving a function with the early occurrences of the name loose in it. If it binds the name, it
also takes what is loose below. -/
theorem resolve_of_function (hc : s.isClass = false) (hm : s.isModule = false)
    (hr : r.isClass = false) (hf : r.isFunction = true) (hi : i ≠ 0)
    (he : H.loose i = entry (r.early n)) (hk : H.knows i = r.params n) (hn : js.Nodup)
    (hjs : i ∈ js) :
    (∀ k, (H.resolve i s n (r.declares n) 0 js).loose k = if k = i then entry (r.out n)
        else if r.binds n ∧ k ∈ js then none else H.loose k) ∧
      (∀ k, ((H.resolve i s n (r.declares n) 0 js).owned k).Perm (H.owned k ++
        ((if k = i then r.stays n ++ (if r.binds n then (js.erase i).flatMap H.waits else [])
          else []) ++ if k = 0 ∧ r.declares n then r.early n else []))) ∧
      ∀ k, k ≠ i → (H.resolve i s n (r.declares n) 0 js).knows k =
        (decide (k = 0) && r.declares n || H.knows k) := by
  obtain ⟨hGi, hGl, hGo, hGk⟩ := sent (H := H) (i := i) he
  simp only [resolve, hc, Bool.false_eq_true, ↓reduceIte]
  set G := if r.declares n then H.send i 0 else H with hG
  set e := if r.declares n then [] else r.early n with heq
  obtain ⟨hl, ho, hkn⟩ := settleLoose_of_function hc hm hGi
  set K := G.settleLoose i s with hK
  have hbinds : K.knows i = r.binds n := by
    rw [hkn, hGk, hk, Record.binds, hf, heq]
    rcases hp : r.params n with _ | _
    · have := Record.any_early_writes hp
      cases r.declares n <;> simp_all
    · simp
  rcases hb : r.binds n with _ | _
  · -- nobody below finds the name here, and there was nothing in it to settle
    have hw : (e.any fun x => x.tree.writes) = false := by
      rw [hb, hkn] at hbinds
      simp only [decide_true, Bool.true_and, Bool.or_eq_false_iff] at hbinds
      exact hbinds.1
    obtain ⟨hout, hstays⟩ := r.out_of_not_binds hr hf hb
    rw [claimAll_of_unknown hm (hbinds.trans hb)]
    rw [hw] at hl ho
    refine ⟨fun k => ?_, fun k => ?_, fun k hki => by simp [hkn, hGk, hki]⟩
    · rw [hl, hout]
      by_cases h : k = i <;> simp [h, hGl, heq]
    · rw [ho, hstays]
      by_cases h : k = i <;> simp [h, hGo]
  · obtain ⟨hout, hstays⟩ := r.out_of_binds hr hb
    obtain ⟨hcl, hco, hck⟩ := claimAll_of_known (s := s) (n := n) (by rw [hbinds, hb]; rfl) hn
    refine ⟨fun k => ?_, fun k => ?_, fun k hki => by rw [hck k hki, hkn, hGk]; simp [hki]⟩
    · rw [hcl, hout]
      by_cases h : k = i
      · simp [h, hjs]
      · simp [h, hl, hGl k h]
    · rw [hco]
      by_cases h : k = i
      · subst h
        have hKw : K.waits k = if e.any fun x => x.tree.writes then [] else e := by
          rw [waits, hl, if_pos rfl, getD_entry]
        have hrest : (js.erase k).flatMap K.waits = (js.erase k).flatMap H.waits := by
          refine List.flatMap_congr fun j hj => ?_
          have hjk : j ≠ k := (hn.mem_erase_iff.mp hj).1
          rw [waits, hl, if_neg hjk, hGl j hjk, waits]
        rw [if_pos rfl, if_pos rfl, ho, if_pos rfl, hGo, hstays, ← heq]
        simp only [hi, false_and, ↓reduceIte, List.append_nil, List.append_assoc]
        refine List.Perm.append_left _ ?_
        calc ((if e.any fun x => x.tree.writes then e else []) ++ js.flatMap K.waits).Perm
              ((if e.any fun x => x.tree.writes then e else []) ++
                (k :: js.erase k).flatMap K.waits) :=
              ((List.perm_cons_erase hjs).flatMap_right _).append_left _
          _ |>.Perm (e ++ (js.erase k).flatMap H.waits) := by
              rw [List.flatMap_cons, hrest, hKw]
              split_ifs <;> simp
      · simp [h, ho, hGo]

/-- Resolving a scope inside a module. -/
theorem resolve_of_inner (hm : s.isModule = false) (hc : s.isClass = r.isClass)
    (ho : r.owner.opensInner = true) (hi : i ≠ 0) (he : H.loose i = entry (r.early n))
    (hk : H.knows i = r.params n) (hn : js.Nodup) (hjs : i ∈ js) :
    (∀ k, (H.resolve i s n (r.declares n) 0 js).loose k = if k = i then entry (r.out n)
        else if r.binds n ∧ k ∈ js then none else H.loose k) ∧
      (∀ k, ((H.resolve i s n (r.declares n) 0 js).owned k).Perm (H.owned k ++
        ((if k = i then r.stays n ++ (if r.binds n then (js.erase i).flatMap H.waits else [])
          else []) ++ if k = 0 ∧ r.declares n then r.early n else []))) ∧
      ∀ k, k ≠ i → (H.resolve i s n (r.declares n) 0 js).knows k =
        (decide (k = 0) && r.declares n || H.knows k) := by
  rcases hr : r.isClass with _ | _
  · have hf : r.isFunction = true := by
      rw [Tree.opensInner, ← Record.isClass, hr] at ho
      exact ho
    exact resolve_of_function (hc.trans hr) hm hr hf hi he hk hn hjs
  · have hb : r.binds n = false := by rw [Record.binds, r.not_isFunction hr]; rfl
    obtain ⟨hl, hown, hkn⟩ := resolve_of_class js (hc.trans hr) hr he
    refine ⟨fun k => ?_, fun k => ?_, hkn⟩
    · simpa [hb] using hl k
    · simpa [hb] using hown k

end Inner

/-- Resolving the module, in which nothing is loose. It takes what is loose below if it knows the
name, and else leaves it to the scopes where it stands. -/
theorem resolve_root {n : String} {js : List Nat} (declared : Bool) (hm : s.isModule = true)
    (hc : s.isClass = false) (h0 : H.loose 0 = none) (hn : js.Nodup) :
    (∀ k, (H.resolve 0 s n declared 0 js).loose k = if k ∈ js then none else H.loose k) ∧
      ∀ k, (H.resolve 0 s n declared 0 js).owned k = H.owned k ++
        if declared || H.knows 0 || s.isGlobal n then if k = 0 then js.flatMap H.waits else []
        else if k ∈ js then H.waits k else [] := by
  simp only [resolve, hc, Bool.false_eq_true, ↓reduceIte]
  set G := if declared then H.send 0 0 else H with hG
  have hw : H.waits 0 = [] := by rw [waits, h0]; rfl
  have hl : G.loose = H.loose := by
    funext k
    rw [hG]
    split_ifs
    · rw [loose_send]
      split_ifs with hk
      · rw [hk, h0]
      · rfl
    · rfl
  have ho : ∀ k, G.owned k = H.owned k := by
    intro k
    rw [hG]
    split_ifs
    · rw [owned_send, hw, List.append_nil]
      split_ifs with hk
      · rw [hk]
      · rfl
    · rfl
  have hk : G.knows 0 = (declared || H.knows 0) := by
    rw [hG]
    cases declared <;> simp [knows_send]
  have hwaits : G.waits = H.waits := by
    funext k
    rw [waits, hl, waits]
  have hsettle : G.settleLoose 0 s = G := by rw [settleLoose, hl, h0]
  rw [hsettle, ← hk]
  rcases hknown : G.knows 0 || s.isGlobal n with _ | _
  · obtain ⟨hcl, hco⟩ := claimAll_of_unknown_module hm (hl ▸ h0) hknown hn
    refine ⟨fun k => by rw [hcl, hl], fun k => ?_⟩
    rw [hco, ho, hwaits]
    by_cases hmem : k ∈ js <;> simp [hmem]
  · obtain ⟨hcl, hco, -⟩ := claimAll_of_known hknown hn
    refine ⟨fun k => by rw [hcl, hl], fun k => ?_⟩
    rw [hco, hwaits, ho, ho]
    by_cases hk0 : k = 0 <;> simp [hk0]

end Share

end ScopeLint
