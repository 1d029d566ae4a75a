import ScopeLint.Proofs.Scope.Conservation

/-! The tables of all scopes as seen from one name. Names do not meddle with each other: what
resolving a scope does to the share of a name is a function of that share. -/

namespace ScopeLint

/-- What the tables of each scope have under one name. -/
structure Share where
  names : Nat → Option (List Site)
  loose : Nat → Option (List Site)

namespace Share

variable (H : Share) (i k : Nat) (l : List Site)

def owned : List Site := (H.names i).getD []

def waits : List Site := (H.loose i).getD []

def knows : Bool := (H.names i).isSome

def give : Share := { H with names := Function.update H.names i (some (H.owned i ++ l)) }

def setLoose (o : Option (List Site)) : Share := { H with loose := Function.update H.loose i o }

def drop : Share := H.setLoose i none

def keep : Share := H.setLoose i ((H.loose i).map fun _ => l)

def send (m : Nat) : Share := (H.drop i).give m (H.waits i)

/-- The name settles in a scope where some of its occurrences are loose. -/
def settle (isClass owns : Bool) : Share :=
  if isClass then
    let reads := l.takeWhile fun x => x.tree.isRead
    let rest := l.dropWhile fun x => x.tree.isRead
    if rest.isEmpty then H
    else if reads.isEmpty then (H.give i rest).drop i
    else (H.give i rest).keep i reads
  else if owns then (H.give i l).drop i
  else H

def claim (isModule isGlobal : Bool) (below : Nat) : Share :=
  if H.knows i || isGlobal then (H.give i l).drop below
  else if isModule then (H.give below l).drop below
  else H

def settleLoose (s : Scope) : Share :=
  match H.loose i with
  | some l => H.settle i l s.isClass (s.isModule || l.any fun x => x.tree.writes)
  | none => H

def claimFrom (s : Scope) (n : String) (j : Nat) : Share :=
  match H.loose j with
  | some l => H.claim i l s.isModule (s.isGlobal n) j
  | none => H

def claimAll (s : Scope) (n : String) (js : List Nat) : Share :=
  js.foldl (fun H j => H.claimFrom i s n j) H

/-- A further occurrence, owned or loose. -/
def add (here : Bool) (x : Site) : Share :=
  if here then H.give i [x] else H.setLoose i (some (H.waits i ++ [x]))

/-- What resolving a scope does, for a name that may be declared global in it. -/
def resolve (s : Scope) (n : String) (declared : Bool) (m : Nat) (js : List Nat) : Share :=
  let G := (if declared then H.send i m else H).settleLoose i s
  if s.isClass then G else G.claimAll i s n js

variable {H i k l}

@[simp] theorem loose_give : (H.give i l).loose = H.loose := rfl

theorem owned_give : (H.give i l).owned k = if k = i then H.owned i ++ l else H.owned k := by
  by_cases h : k = i
  · subst h
    simp [owned, give]
  · simp [owned, give, h]

theorem knows_give : (H.give i l).knows k = (decide (k = i) || H.knows k) := by
  by_cases h : k = i
  · subst h
    simp [knows, give]
  · simp [knows, give, h]

@[simp] theorem owned_drop : (H.drop i).owned k = H.owned k := rfl

@[simp] theorem owned_keep : (H.keep i l).owned k = H.owned k := rfl

@[simp] theorem knows_drop : (H.drop i).knows k = H.knows k := rfl

@[simp] theorem knows_keep : (H.keep i l).knows k = H.knows k := rfl

theorem loose_drop : (H.drop i).loose k = if k = i then none else H.loose k := by
  by_cases h : k = i
  · subst h
    simp [drop, setLoose]
  · simp [drop, setLoose, h]

theorem loose_keep :
    (H.keep i l).loose k = if k = i then (H.loose i).map fun _ => l else H.loose k := by
  by_cases h : k = i
  · subst h
    simp [keep, setLoose]
  · simp [keep, setLoose, h]

/-- What has been sent away is gone. -/
theorem send_send (m : Nat) : (H.send i m).send i m = H.send i m := by
  have hw : (H.send i m).waits i = [] := by simp [send, waits, loose_drop]
  have hdrop : (H.send i m).drop i = H.send i m := by
    simp [send, drop, give, setLoose, owned]
  rw [send, hw, hdrop]
  simp [send, give, owned]

/-! ### What a scope claims -/

section Claims

variable {s : Scope} {n : String} {js : List Nat}

theorem waits_of_loose {G : Share} {j : Nat} (h : ∀ k, G.loose k = if k = j then none else H.loose k)
    {k : Nat} (hk : k ≠ j) : G.waits k = H.waits k := by
  rw [waits, waits, h, if_neg hk]

/-- A scope that knows the name takes what is loose below. -/
theorem claimFrom_of_known (hc : (H.knows i || s.isGlobal n) = true) (j : Nat) :
    (∀ k, (H.claimFrom i s n j).loose k = if k = j then none else H.loose k) ∧
      (∀ k, (H.claimFrom i s n j).owned k = if k = i then H.owned i ++ H.waits j else H.owned k) ∧
      ((H.claimFrom i s n j).knows i || s.isGlobal n) = true ∧
      ∀ k, k ≠ i → (H.claimFrom i s n j).knows k = H.knows k := by
  rcases hl : H.loose j with _ | l
  · have hsame : H.claimFrom i s n j = H := by simp only [claimFrom, hl]
    rw [hsame]
    refine ⟨fun k => ?_, fun k => ?_, hc, fun _ _ => rfl⟩
    · split_ifs with h
      · rw [h, hl]
      · rfl
    · split_ifs with h
      · simp [h, waits, hl]
      · rfl
  · have htake : H.claimFrom i s n j = (H.give i l).drop j := by
      simp only [claimFrom, hl, claim, hc, ↓reduceIte]
    rw [htake]
    refine ⟨fun k => loose_drop, fun k => ?_, ?_, fun k hk => ?_⟩
    · rw [owned_drop, owned_give, waits, hl]
      rfl
    · simp [knows_give]
    · simp [knows_give, hk]

theorem claimAll_of_known (hc : (H.knows i || s.isGlobal n) = true) (hn : js.Nodup) :
    (∀ k, (H.claimAll i s n js).loose k = if k ∈ js then none else H.loose k) ∧
      (∀ k, (H.claimAll i s n js).owned k =
        if k = i then H.owned i ++ js.flatMap H.waits else H.owned k) ∧
      ∀ k, k ≠ i → (H.claimAll i s n js).knows k = H.knows k := by
  induction js generalizing H with
  | nil => simp [claimAll]
  | cons j js ih =>
    obtain ⟨hj, hn⟩ := List.nodup_cons.mp hn
    obtain ⟨hl, ho, hc', hk⟩ := claimFrom_of_known hc j
    obtain ⟨ihl, iho, ihk⟩ := ih hc' hn
    have hstep : H.claimAll i s n (j :: js) = (H.claimFrom i s n j).claimAll i s n js := rfl
    have hw : js.flatMap (H.claimFrom i s n j).waits = js.flatMap H.waits :=
      List.flatMap_congr fun k hk => waits_of_loose hl fun h => hj (h ▸ hk)
    rw [hstep]
    refine ⟨fun k => ?_, fun k => ?_, fun k hki => by rw [ihk k hki, hk k hki]⟩
    · rw [ihl, hl]
      by_cases h₁ : k ∈ js <;> by_cases h₂ : k = j <;> simp [h₁, h₂]
    · rw [iho, ho, ho, hw]
      by_cases h : k = i <;> simp [h]

/-- Inside a module, a scope that does not know the name leaves it alone. -/
theorem claimAll_of_unknown (hm : s.isModule = false) (hc : H.knows i = false) :
    H.claimAll i s n js = H := by
  have hg : s.isGlobal n = false := by rw [Scope.isGlobal, hm]; rfl
  have hone : ∀ j, H.claimFrom i s n j = H := by
    intro j
    simp only [claimFrom]
    split
    · simp [claim, hc, hg, hm]
    · rfl
  induction js with
  | nil => rfl
  | cons j js ih =>
    have hstep : H.claimAll i s n (j :: js) = (H.claimFrom i s n j).claimAll i s n js := rfl
    rw [hstep, hone, ih]

/-- A module that does not know the name leaves it where it is, and no longer loose. -/
theorem claimAll_of_unknown_module (hm : s.isModule = true) (hi : H.loose i = none)
    (hc : (H.knows i || s.isGlobal n) = false) (hn : js.Nodup) :
    (∀ k, (H.claimAll i s n js).loose k = if k ∈ js then none else H.loose k) ∧
      ∀ k, (H.claimAll i s n js).owned k =
        if k ∈ js then H.owned k ++ H.waits k else H.owned k := by
  induction js generalizing H with
  | nil => simp [claimAll]
  | cons j js ih =>
    obtain ⟨hj, hn⟩ := List.nodup_cons.mp hn
    have hstep : H.claimAll i s n (j :: js) = (H.claimFrom i s n j).claimAll i s n js := rfl
    rw [hstep]
    rcases hl : H.loose j with _ | l
    · have hsame : H.claimFrom i s n j = H := by simp only [claimFrom, hl]
      obtain ⟨ihl, iho⟩ := ih hi hc hn
      rw [hsame]
      refine ⟨fun k => ?_, fun k => ?_⟩
      · rw [ihl]
        by_cases h₂ : k = j
        · simp [h₂, hj, hl]
        · simp [h₂]
      · rw [iho]
        by_cases h₂ : k = j
        · simp [h₂, hj, waits, hl]
        · simp [h₂]
    · have hij : j ≠ i := by
        rintro rfl
        rw [hi] at hl
        cases hl
      have hput : H.claimFrom i s n j = (H.give j l).drop j := by
        simp only [claimFrom, hl, claim, hc, hm, Bool.false_eq_true, ↓reduceIte]
      have hc' : (((H.give j l).drop j).knows i || s.isGlobal n) = false := by
        rw [knows_drop, knows_give]
        simpa [Ne.symm hij] using hc
      have hi' : ((H.give j l).drop j).loose i = none := by
        rw [loose_drop, if_neg (Ne.symm hij)]
        exact hi
      obtain ⟨ihl, iho⟩ := ih hi' hc' hn
      rw [hput]
      refine ⟨fun k => ?_, fun k => ?_⟩
      · rw [ihl, loose_drop, loose_give]
        by_cases h₁ : k ∈ js <;> by_cases h₂ : k = j <;> simp [h₁, h₂]
      · have hw : ∀ k, k ≠ j → ((H.give j l).drop j).waits k = H.waits k := by
          intro k hk
          rw [waits, loose_drop, if_neg hk, loose_give, waits]
        rw [iho, owned_drop, owned_give]
        by_cases h₂ : k = j
        · simp [h₂, hj, waits, hl]
        · simp [h₂, hw k h₂]

end Claims

end Share

namespace Tables

def share (T : Tables) (n : String) : Share :=
  ⟨fun i => (T.names i).get? n, fun i => (T.loose i).get? n⟩

variable (T : Tables) (i k : Nat) (n m : String) (l : List Site)

theorem share_give :
    (T.give i n l).share m = if m = n then (T.share m).give i l else T.share m := by
  by_cases hm : m = n
  · subst hm
    rw [if_pos rfl]
    simp only [share, give, Share.give, Share.mk.injEq, and_true]
    funext k
    by_cases hk : k = i
    · subst hk
      simp [Table.get?_extend, Share.owned, Table.itemsOf]
    · simp [hk]
  · rw [if_neg hm]
    simp only [share, give, Share.mk.injEq, and_true]
    funext k
    by_cases hk : k = i
    · subst hk
      simp [Table.get?_extend, hm]
    · simp [hk]

theorem share_setLoose (t : Table Site) :
    (T.setLoose i t).share m = (T.share m).setLoose i (t.get? m) := by
  simp only [share, setLoose, Share.setLoose, Share.mk.injEq, true_and]
  funext k
  by_cases hk : k = i
  · subst hk
    simp
  · simp [hk]

theorem setLoose_share : (T.share m).setLoose i ((T.loose i).get? m) = T.share m := by
  simp [share, Share.setLoose]

theorem share_drop : (T.drop i n).share m = if m = n then (T.share m).drop i else T.share m := by
  rw [drop, share_setLoose, Table.get?_erase]
  split_ifs
  · rfl
  · exact setLoose_share T i m

theorem share_keep :
    (T.keep i n l).share m = if m = n then (T.share m).keep i l else T.share m := by
  rw [keep, share_setLoose, Table.get?_replace]
  split_ifs with h
  · subst h
    rfl
  · exact setLoose_share T i m

theorem share_send : (T.send i k n).share m = if m = n then (T.share m).send i k else T.share m := by
  rw [send, share_give, share_drop]
  split_ifs with h
  · subst h
    rfl
  · rfl

theorem share_add (here : Bool) (x : Site) :
    (T.add here i n x).share m = if m = n then (T.share m).add i here x else T.share m := by
  cases here with
  | true => exact share_give T i n m [x]
  | false =>
    simp only [add, Share.add, Bool.false_eq_true, ↓reduceIte]
    rw [share_setLoose, Table.get?_extend]
    split_ifs with h
    · subst h
      rfl
    · exact setLoose_share T i m

theorem share_settle (isClass owns : Bool) :
    (T.settle isClass owns i n l).share m =
      if m = n then (T.share m).settle i l isClass owns else T.share m := by
  simp only [settle, Share.settle]
  split_ifs <;> simp_all [share_give, share_drop, share_keep]

theorem knows_eq_share : T.knows i n = (T.share n).knows i := Table.contains_eq_isSome _ _

theorem share_claim (isModule isGlobal : Bool) (below : Nat) :
    (T.claim isModule isGlobal i below n l).share m =
      if m = n then (T.share m).claim i l isModule isGlobal below else T.share m := by
  simp only [claim, Share.claim, knows_eq_share]
  split_ifs <;> simp_all [share_give, share_drop]

/-! ### Loops -/

theorem share_sendAll (names : List String) :
    (T.sendAll i k names).share m =
      if names.contains m then (T.share m).send i k else T.share m := by
  induction names generalizing T with
  | nil => rfl
  | cons n names ih =>
    have hstep : T.sendAll i k (n :: names) = (T.send i k n).sendAll i k names := rfl
    rw [hstep, ih, share_send]
    by_cases hm : m = n
    · subst hm
      simp [Share.send_send]
    · simp [hm]

/-- A loop over entries with different names, each of which changes the share of its name only. -/
theorem share_foldl {step : Tables → String × List Site → Tables} (one : Share → List Site → Share)
    (hstep : ∀ T e, (step T e).share m = if m = e.1 then one (T.share m) e.2 else T.share m) :
    ∀ (t : Table Site) (T : Tables), t.keys.Nodup →
      (t.foldl step T).share m = match t.get? m with
        | some l => one (T.share m) l
        | none => T.share m := by
  intro t
  induction t with
  | nil => intro T _; rfl
  | cons e t ih =>
    obtain ⟨n, l⟩ := e
    intro T hn
    rw [Table.keys_cons, List.nodup_cons, Table.mem_keys_iff, Bool.not_eq_true,
      Option.isSome_eq_false_iff, Option.isNone_iff_eq_none] at hn
    rw [List.foldl_cons, ih _ hn.2, hstep, Table.get?_cons]
    by_cases hm : m = n
    · subst hm
      simp [hn.1]
    · simp [hm]

variable {T i}

theorem share_settleAll (hT : T.Distinct) (s : Scope) :
    (T.settleAll s i (T.loose i)).share m = (T.share m).settleLoose i s := by
  rw [settleAll, share_foldl m (fun H l =>
    H.settle i l s.isClass (s.isModule || l.any fun x => x.tree.writes))
    (fun T e => share_settle T i e.1 m e.2 _ _) _ _ (hT i).2]
  rfl

theorem share_claimFrom (hT : T.Distinct) (s : Scope) (j : Nat) :
    (T.claimFrom s i j).share m = (T.share m).claimFrom i s m j := by
  rw [claimFrom, share_foldl m (fun H l => H.claim i l s.isModule (s.isGlobal m) j)
    (fun T e => ?_) _ _ (hT j).2]
  · rfl
  · rw [share_claim]
    split_ifs with h
    · rw [h]
    · rfl

theorem Distinct.settle (hT : T.Distinct) (isClass owns : Bool) (n : String) (l : List Site) :
    (T.settle isClass owns i n l).Distinct := by
  simp only [Tables.settle]
  split_ifs
  · exact hT
  · exact (hT.give i n _).drop i n
  · exact (hT.give i n _).keep i n _
  · exact (hT.give i n _).drop i n
  · exact hT

theorem Distinct.claim (hT : T.Distinct) (isModule isGlobal : Bool) (j : Nat) (n : String)
    (l : List Site) : (T.claim isModule isGlobal i j n l).Distinct := by
  simp only [Tables.claim]
  split_ifs
  · exact (hT.give i n _).drop j n
  · exact (hT.give j n _).drop j n
  · exact hT

theorem Distinct.foldl {β : Type} {step : Tables → β → Tables}
    (hstep : ∀ T b, T.Distinct → (step T b).Distinct) (l : List β) :
    ∀ T : Tables, T.Distinct → (l.foldl step T).Distinct := by
  induction l with
  | nil => intro T hT; exact hT
  | cons b l ih => intro T hT; exact ih _ (hstep T b hT)

theorem Distinct.claimFrom (hT : T.Distinct) (s : Scope) (j : Nat) : (T.claimFrom s i j).Distinct :=
  Distinct.foldl (fun _ _ h => h.claim _ _ _ _ _) _ T hT

theorem share_claimAll (hT : T.Distinct) (s : Scope) (js : List Nat) :
    (T.claimAll s i js).share m = (T.share m).claimAll i s m js := by
  induction js generalizing T with
  | nil => rfl
  | cons j js ih =>
    have hT' : T.claimAll s i (j :: js) = (T.claimFrom s i j).claimAll s i js := rfl
    have hH : (T.share m).claimAll i s m (j :: js) =
        ((T.share m).claimFrom i s m j).claimAll i s m js := rfl
    rw [hT', hH, ih (hT.claimFrom s j), share_claimFrom m hT]

theorem share_resolved {f : Forest} (hf : f.tables.Distinct) (s : Scope) (names : List String) :
    (Change.resolved f i k s names).share m =
      (f.tables.share m).resolve i s m (names.contains m) k (f.walk i) := by
  have hsend : (f.tables.sendAll i k names).Distinct :=
    Distinct.foldl (fun _ n h => (h.drop i n).give k n _) names _ hf
  have hsettle : ((f.tables.sendAll i k names).settleAll s i
      ((f.tables.sendAll i k names).loose i)).Distinct :=
    Distinct.foldl (fun _ _ h => h.settle _ _ _ _) _ _ hsend
  simp only [Change.resolved, Share.resolve]
  rw [← share_sendAll, ← share_settleAll m hsend]
  split_ifs
  · rfl
  · exact share_claimAll m hsettle s _

end Tables

end ScopeLint
