import Mathlib.Data.List.Find
import Mathlib.Data.List.Perm.Basic
import ScopeLint.Proofs.Scope.Resolution

/-! Where the occurrences of a name stand while the visit goes on. A scope that has been left and
binds the name catches what came out of the scopes below it. The log tells this for every scope at
every time, and each event keeps it so. -/

namespace ScopeLint

namespace Log

variable (L : Log) (n : String)

/-- Whether a scope has been left and binds the name. -/
def catches (a : Nat) : Bool := !L.stack.contains a && (L.record a).binds n

/-- The scope that has caught what came out of a scope. -/
def catcher (i : Nat) : Option Nat := (L.record i).outer.find? (L.catches n)

/-- The occurrences of the name that are loose in a scope. -/
def waiting (i : Nat) : List Site :=
  if i = 0 then []
  else if i ∈ L.stack then (L.record i).early n
  else if (L.catcher n i).isSome then [] else (L.record i).out n

/-- The occurrences in a scope `i` that a scope `j` owns. -/
def part (j i : Nat) : List Site :=
  if i = 0 then if j = 0 then (L.record 0).sites n else []
  else (if j = i then (L.record i).kept n ++ (if i ∈ L.stack then [] else (L.record i).stays n)
      else []) ++
    ((if j = 0 ∧ i ∉ L.stack ∧ (L.record i).declares n then (L.record i).early n else []) ++
      if L.catcher n i = some j then (L.record i).out n else [])

/-- The share of the name in the tables is what the log tells. -/
structure Describes (H : Share) : Prop where
  loose : ∀ i, H.loose i = entry (L.waiting n i)
  owned : ∀ j, (H.owned j).Perm ((List.range L.size).flatMap (L.part n j))
  known : ∀ i ∈ L.stack, i ≠ 0 → H.knows i = (L.record i).params n
  known_root : H.knows 0 = (!((L.record 0).sites n).isEmpty ||
    (List.range L.size).any fun i => !L.stack.contains i && (L.record i).declares n)

variable {L n}

theorem Describes.waits {H : Share} (hH : L.Describes n H) (i : Nat) : H.waits i = L.waiting n i := by
  rw [Share.waits, hH.loose, getD_entry]

/-! ### Leaving a scope -/

section Leave

variable {h : Nat} {rest : List Nat}

theorem catches_of_open {a : Nat} (ha : a ∈ L.stack) : L.catches n a = false := by
  simp [catches, ha]

theorem Proper.catcher_of_open (hL : L.Proper) {i : Nat} (hi : i ∈ L.stack) : L.catcher n i = none := by
  refine List.find?_eq_none.mpr fun a ha => ?_
  rw [catches_of_open (hL.open_of_mem_outer hi ha)]
  exact Bool.false_ne_true

theorem contains_leave (hs : L.stack = h :: rest) {a : Nat} (ha : a ≠ h) :
    (L.step .leave).stack.contains a = L.stack.contains a := by
  simp [step, hs, ha]

theorem catches_leave_of_ne (hs : L.stack = h :: rest) {a : Nat} (ha : a ≠ h) :
    (L.step .leave).catches n a = L.catches n a := by
  rw [catches, catches, contains_leave hs ha]
  rfl

theorem Proper.not_mem_rest (hL : L.Proper) (hs : L.stack = h :: rest) : h ∉ rest := by
  obtain ⟨hh, hout⟩ := hL.top h rest hs
  intro hmem
  rw [← hout] at hmem
  exact Nat.lt_irrefl _ (hL.lt_of_mem_outer hh hmem)

theorem Proper.catches_leave_self (hL : L.Proper) (hs : L.stack = h :: rest) :
    (L.step .leave).catches n h = (L.record h).binds n := by
  have : (L.step .leave).stack.contains h = false := by
    simpa [step, hs] using hL.not_mem_rest hs
  rw [catches, this]
  rfl

theorem lt_size_of_mem_outer {a i : Nat} (ha : a ∈ (L.record i).outer) : i < L.size := by
  by_contra hi
  rw [record_eq_fresh (Nat.le_of_not_lt hi)] at ha
  cases ha

/-- Leaving a scope, it catches what nobody nearer has caught. -/
theorem Proper.catcher_leave (hL : L.Proper) (hs : L.stack = h :: rest) (i : Nat) :
    (L.step .leave).catcher n i = (L.catcher n i).or
      (if h ∈ (L.record i).outer ∧ (L.record h).binds n then some h else none) := by
  have hrec : ((L.step .leave).record i).outer = (L.record i).outer := rfl
  rw [catcher, catcher, hrec]
  by_cases hmem : h ∈ (L.record i).outer
  · have hi := lt_size_of_mem_outer hmem
    obtain ⟨hh, hout⟩ := hL.top h rest hs
    obtain ⟨pre, hpre, hbelow⟩ := hL.outer_split hi hmem
    have hnear : pre.find? ((L.step .leave).catches n) = pre.find? (L.catches n) := by
      refine List.find?_congr fun b hb => catches_leave_of_ne hs ?_
      have := hL.lt_of_mem_outer (hbelow b hb).1 (hbelow b hb).2
      omega
    have hbefore : (h :: (L.record h).outer).find? (L.catches n) = none := by
      refine List.find?_eq_none.mpr fun a ha => ?_
      rw [catches_of_open ((hL.mem_stack hs).mpr (List.mem_cons.mp ha))]
      exact Bool.false_ne_true
    have hafter : (L.record h).outer.find? ((L.step .leave).catches n) = none := by
      refine List.find?_eq_none.mpr fun a ha => ?_
      have hopen : a ∈ (L.step .leave).stack := by
        rw [hout] at ha
        simpa [step, hs] using ha
      rw [catches_of_open hopen]
      exact Bool.false_ne_true
    rw [hpre, List.find?_append, List.find?_append, hnear, hbefore, List.find?_cons,
      hL.catches_leave_self hs, hafter]
    cases (L.record h).binds n <;> simp
  · have hsame : (L.record i).outer.find? ((L.step .leave).catches n) =
        (L.record i).outer.find? (L.catches n) := by
      refine List.find?_congr fun b hb => catches_leave_of_ne hs ?_
      rintro rfl
      exact hmem hb
    rw [hsame]
    simp [hmem]

theorem mem_leave (hs : L.stack = h :: rest) {a : Nat} (ha : a ≠ h) :
    a ∈ (L.step .leave).stack ↔ a ∈ L.stack := by
  simp [step, hs, ha]

theorem Proper.not_mem_leave (hL : L.Proper) (hs : L.stack = h :: rest) :
    h ∉ (L.step .leave).stack := by
  simpa [step, hs] using hL.not_mem_rest hs

theorem Proper.catcher_leave_self (hL : L.Proper) (hs : L.stack = h :: rest) :
    (L.step .leave).catcher n h = none := by
  obtain ⟨hh, -⟩ := hL.top h rest hs
  have hout : h ∉ (L.record h).outer := fun hm => Nat.lt_irrefl _ (hL.lt_of_mem_outer hh hm)
  rw [hL.catcher_leave hs, hL.catcher_of_open (by rw [hs]; exact List.mem_cons_self)]
  simp [hout]

theorem Proper.waiting_leave_self (hL : L.Proper) (hs : L.stack = h :: rest) (h0 : h ≠ 0) :
    (L.step .leave).waiting n h = (L.record h).out n := by
  rw [waiting, if_neg h0, if_neg (hL.not_mem_leave hs), hL.catcher_leave_self hs]
  rfl

/-- What was loose below is caught, and all else stays as it was. -/
theorem Proper.waiting_leave (hL : L.Proper) (hs : L.stack = h :: rest) {i : Nat} (hi : i ≠ h) :
    (L.step .leave).waiting n i =
      if h ∈ (L.record i).outer ∧ (L.record h).binds n then [] else L.waiting n i := by
  have hrec : (L.step .leave).record i = L.record i := rfl
  simp only [waiting, mem_leave hs hi, hL.catcher_leave hs, hrec]
  by_cases hc : h ∈ (L.record i).outer ∧ (L.record h).binds n = true
  · have hopen := hL.not_open_below hs (lt_size_of_mem_outer hc.1) hc.1
    simp [hc, hopen]
  · simp [hc]

/-- The occurrences of a scope that another one comes to own when the scope `h` is left. -/
def gained (L : Log) (n : String) (h j i : Nat) : List Site :=
  if i = h then (if j = h then (L.record h).stays n else []) ++
    if j = 0 ∧ (L.record h).declares n then (L.record h).early n else []
  else if j = h ∧ (L.record h).binds n ∧ h ∈ (L.record i).outer then L.waiting n i else []

theorem Proper.part_leave_self (hL : L.Proper) (hs : L.stack = h :: rest) (h0 : h ≠ 0) (j : Nat) :
    ((L.step .leave).part n j h).Perm (L.part n j h ++ L.gained n h j h) := by
  have hopen : h ∈ L.stack := by rw [hs]; exact List.mem_cons_self
  have hrec : (L.step .leave).record h = L.record h := rfl
  simp only [part, gained, h0, hopen, hL.not_mem_leave hs, hL.catcher_leave_self hs,
    hL.catcher_of_open hopen, hrec, reduceCtorEq, not_true, not_false_iff, true_and, false_and, and_false,
    ↓reduceIte, List.append_nil]
  by_cases hj : j = h <;> simp [hj, h0]

theorem Proper.part_leave_of_ne (hL : L.Proper) (hs : L.stack = h :: rest) (h0 : h ≠ 0) {i : Nat}
    (hi : i ≠ h) (j : Nat) :
    ((L.step .leave).part n j i).Perm (L.part n j i ++ L.gained n h j i) := by
  have hrec : (L.step .leave).record i = L.record i := rfl
  by_cases hz : i = 0
  · have hroot : h ∉ (L.record 0).outer := by simp [hL.root_outer]
    have hrec0 : (L.step .leave).record 0 = L.record 0 := rfl
    simp [part, gained, hz, hrec0, hroot, Ne.symm h0]
  · simp only [part, gained, hz, hi, mem_leave hs hi, hL.catcher_leave hs, hrec, ↓reduceIte,
      List.append_assoc]
    refine List.Perm.append_left _ (List.Perm.append_left _ ?_)
    by_cases hc : h ∈ (L.record i).outer ∧ (L.record h).binds n = true
    · have hopen := hL.not_open_below hs (lt_size_of_mem_outer hc.1) hc.1
      rcases hcat : L.catcher n i with _ | a
      · by_cases hj : j = h
        · simp [hc, hj, waiting, hz, hopen, hcat]
        · simp [hc, hj, Ne.symm hj]
      · simp [waiting, hz, hopen, hcat]
    · have hg : ¬(j = h ∧ (L.record h).binds n = true ∧ h ∈ (L.record i).outer) := by tauto
      simp [hc, hg]

/-- All that a scope gains when `h` is left. -/
theorem flatMap_gained (hh : h < L.size) {js : List Nat} (hn : js.Nodup)
    (hjs : ∀ k, k ∈ js ↔ k < L.size ∧ (k = h ∨ h ∈ (L.record k).outer)) (j : Nat) :
    ((List.range L.size).flatMap (L.gained n h j)).Perm
      ((if j = h then (L.record h).stays n ++
          (if (L.record h).binds n then (js.erase h).flatMap (L.waiting n) else []) else []) ++
        if j = 0 ∧ (L.record h).declares n then (L.record h).early n else []) := by
  have hrange : (List.range L.size).Perm (h :: (List.range L.size).erase h) :=
    List.perm_cons_erase (List.mem_range.mpr hh)
  have hbelow : (((List.range L.size).erase h).filter fun i => h ∈ (L.record i).outer).Perm
      (js.erase h) := by
    refine (List.perm_ext_iff_of_nodup (List.nodup_range.erase _ |>.filter _) (hn.erase _)).mpr ?_
    intro k
    rw [List.mem_filter, List.nodup_range.mem_erase_iff, hn.mem_erase_iff, hjs, List.mem_range]
    simp only [decide_eq_true_eq]
    tauto
  have hself : L.gained n h j h = (if j = h then (L.record h).stays n else []) ++
      if j = 0 ∧ (L.record h).declares n then (L.record h).early n else [] := if_pos rfl
  refine (hrange.flatMap_right _).trans ?_
  rw [List.flatMap_cons, hself]
  have hothers : (((List.range L.size).erase h).flatMap (L.gained n h j)).Perm
      (if j = h then
        if (L.record h).binds n then (js.erase h).flatMap (L.waiting n) else [] else []) := by
    have hval : ∀ i ∈ (List.range L.size).erase h, L.gained n h j i =
        if j = h ∧ (L.record h).binds n ∧ h ∈ (L.record i).outer then L.waiting n i else [] := by
      intro i hi
      rw [gained, if_neg (List.nodup_range.mem_erase_iff.mp hi).1]
    rw [List.flatMap_congr hval]
    by_cases hj : j = h
    · by_cases hb : (L.record h).binds n = true
      · simp only [hj, hb, true_and, ↓reduceIte]
        refine List.Perm.trans (List.Perm.of_eq ?_) (hbelow.flatMap_right _)
        generalize (List.range L.size).erase h = l
        induction l with
        | nil => rfl
        | cons i l ih =>
          rw [List.flatMap_cons, ih, List.filter_cons]
          by_cases hi : h ∈ (L.record i).outer <;> simp [hi]
      · simp [hb]
    · simp [hj]
  by_cases hj : j = h
  · simp only [hj, ↓reduceIte] at hothers ⊢
    rw [List.append_assoc, List.append_assoc]
    refine List.Perm.append_left _ (List.perm_append_comm.trans (hothers.append_right _))
  · simp only [hj, ↓reduceIte, List.nil_append] at hothers ⊢
    rw [hothers.eq_nil, List.append_nil]

theorem Proper.parts_leave (hL : L.Proper) (hs : L.stack = h :: rest) (h0 : h ≠ 0) (j : Nat) :
    ((List.range L.size).flatMap ((L.step .leave).part n j)).Perm
      ((List.range L.size).flatMap fun i => L.part n j i ++ L.gained n h j i) := by
  refine List.Perm.flatMap_left _ fun i _ => ?_
  by_cases hi : i = h
  · rw [hi]
    exact hL.part_leave_self hs h0 j
  · exact hL.part_leave_of_ne hs h0 hi j

/-- A name is declared global in a scope that has been left, now also if the scope left last does. -/
theorem Proper.declares_leave (hL : L.Proper) (hs : L.stack = h :: rest) :
    ((List.range L.size).any fun i =>
        !(L.step .leave).stack.contains i && (L.record i).declares n) =
      ((L.record h).declares n ||
        (List.range L.size).any fun i => !L.stack.contains i && (L.record i).declares n) := by
  obtain ⟨hh, -⟩ := hL.top h rest hs
  rw [Bool.eq_iff_iff, Bool.or_eq_true, List.any_eq_true, List.any_eq_true]
  constructor
  · rintro ⟨i, hi, hd⟩
    by_cases hih : i = h
    · rw [Bool.and_eq_true] at hd
      exact Or.inl (hih ▸ hd.2)
    · rw [contains_leave hs hih] at hd
      exact Or.inr ⟨i, hi, hd⟩
  · rintro (hd | ⟨i, hi, hd⟩)
    · exact ⟨h, List.mem_range.mpr hh, by simp [hL.not_mem_leave hs, hd]⟩
    · have hih : i ≠ h := by
        rintro rfl
        simp [hs] at hd
      rw [← contains_leave hs hih] at hd
      exact ⟨i, hi, hd⟩

/-- Resolving a scope inside the module when it is left. -/
theorem Describes.leave {H : Share} (hH : L.Describes n H) (hL : L.Proper)
    (hs : L.stack = h :: rest) (h0 : h ≠ 0) {s : Scope} (hm : s.isModule = false)
    (hc : s.isClass = (L.record h).isClass) {js : List Nat} (hn : js.Nodup)
    (hjs : ∀ k, k ∈ js ↔ k < L.size ∧ (k = h ∨ h ∈ (L.record k).outer)) :
    (L.step .leave).Describes n (H.resolve h s n ((L.record h).declares n) 0 js) := by
  have hopen : h ∈ L.stack := by rw [hs]; exact List.mem_cons_self
  obtain ⟨hh, hout⟩ := hL.top h rest hs
  have hloose : H.loose h = entry ((L.record h).early n) := by
    rw [hH.loose, waiting, if_neg h0, if_pos hopen]
  have hmem : h ∈ js := (hjs h).mpr ⟨hh, Or.inl rfl⟩
  obtain ⟨hl, ho, hk⟩ := Share.resolve_of_inner (n := n) hm hc (hL.inner h (by omega) hh) h0 hloose
    (hH.known h hopen h0) hn hmem
  refine ⟨fun k => ?_, fun j => ?_, fun k hks hk0 => ?_, ?_⟩
  · rw [hl]
    by_cases hkh : k = h
    · rw [if_pos hkh, hkh, hL.waiting_leave_self hs h0]
    · have hbelow : k ∈ js ↔ h ∈ (L.record k).outer := by
        rw [hjs]
        exact ⟨fun hk => hk.2.resolve_left hkh, fun hk => ⟨lt_size_of_mem_outer hk, Or.inr hk⟩⟩
      rw [if_neg hkh, hL.waiting_leave hs hkh, hH.loose]
      by_cases hb : h ∈ (L.record k).outer ∧ (L.record h).binds n = true
      · rw [if_pos hb, if_pos ⟨hb.2, hbelow.mpr hb.1⟩, entry_nil]
      · rw [if_neg hb, if_neg fun hk => hb ⟨hbelow.mp hk.2, hk.1⟩]
  · have hw : (js.erase h).flatMap H.waits = (js.erase h).flatMap (L.waiting n) :=
      List.flatMap_congr fun k _ => hH.waits k
    have hgain := flatMap_gained (n := n) hh hn hjs j
    rw [← hw] at hgain
    refine (ho j).trans (((hH.owned j).append hgain.symm).trans ?_)
    exact (List.flatMap_append_perm _ _ _).trans (hL.parts_leave hs h0 j).symm
  · have hkh : k ≠ h := by
      rintro rfl
      exact hL.not_mem_leave hs hks
    rw [hk k hkh, hH.known k ((mem_leave hs hkh).mp hks) hk0]
    simp [hk0]
    rfl
  · rw [hk 0 (Ne.symm h0), hH.known_root]
    refine Eq.trans ?_ (congrArg (!((L.record 0).sites n).isEmpty || ·) (hL.declares_leave hs).symm)
    cases (L.record h).declares n <;> simp

end Leave

/-! ### Entering a scope and meeting a name -/

section Enter

variable {i : Nat} (owner : Tree)

theorem record_enter_of_ne (hi : i ≠ L.size) : (L.step (.enter owner)).record i = L.record i := by
  rw [record_enter, if_neg hi]

theorem mem_enter (hi : i ≠ L.size) : i ∈ (L.step (.enter owner)).stack ↔ i ∈ L.stack := by
  simp [step, hi]

theorem contains_enter (hi : i ≠ L.size) :
    (L.step (.enter owner)).stack.contains i = L.stack.contains i := by
  simp [step, hi]

theorem Proper.catcher_enter (hL : L.Proper) (hi : i ≠ L.size) :
    (L.step (.enter owner)).catcher n i = L.catcher n i := by
  rw [catcher, catcher, record_enter_of_ne owner hi]
  refine List.find?_congr fun a ha => ?_
  have hne : a ≠ L.size := by
    have hi' := lt_size_of_mem_outer ha
    have := hL.lt_of_mem_outer hi' ha
    omega
  rw [catches, catches, contains_enter owner hne, record_enter_of_ne owner hne]

theorem declares_enter :
    ((List.range (L.step (.enter owner)).size).any fun i =>
        !(L.step (.enter owner)).stack.contains i && ((L.step (.enter owner)).record i).declares n) =
      (List.range L.size).any fun i => !L.stack.contains i && (L.record i).declares n := by
  have hlast : ([L.size].any fun i => !(L.step (.enter owner)).stack.contains i &&
      ((L.step (.enter owner)).record i).declares n) = false := by
    simp [step]
  rw [size_enter, List.range_succ, List.any_append, hlast, Bool.or_false, Bool.eq_iff_iff,
    List.any_eq_true, List.any_eq_true]
  refine exists_congr fun i => and_congr_right fun hi => ?_
  have hne : i ≠ L.size := by have := List.mem_range.mp hi; omega
  rw [contains_enter owner hne, record_enter_of_ne owner hne]

theorem Describes.enter {H : Share} (hH : L.Describes n H) (hL : L.Proper)
    (hnew : H.knows L.size = false) : (L.step (.enter owner)).Describes n H := by
  have hpos := hL.pos
  have hfresh : ((L.step (.enter owner)).record L.size).sites n = [] := by
    rw [record_enter, if_pos rfl]
    rfl
  obtain ⟨hearly, hkept, hout, hstays, hparams⟩ := Record.of_no_sites hfresh
  have hself : L.size ∈ (L.step (.enter owner)).stack := List.mem_cons_self
  have hzero : (L.step (.enter owner)).record 0 = L.record 0 := record_enter_of_ne owner (by omega)
  refine ⟨fun i => ?_, fun j => ?_, fun i hi h0 => ?_, ?_⟩
  · rw [hH.loose]
    by_cases hi : i = L.size
    · have hblank : (L.record L.size).sites n = [] := by
        rw [record_eq_fresh (Nat.le_refl _)]
        rfl
      have hnot : L.size ∉ L.stack := fun h => Nat.lt_irrefl _ (hL.lt_of_mem_stack h)
      subst hi
      simp [waiting, hself, hearly, hnot, (Record.of_no_sites hblank).2.2.1]
    · simp [waiting, mem_enter owner hi, hL.catcher_enter owner hi, record_enter_of_ne owner hi]
  · have hpart : ∀ i ∈ List.range L.size,
        (L.step (.enter owner)).part n j i = L.part n j i := by
      intro i hi
      have hne : i ≠ L.size := by have := List.mem_range.mp hi; omega
      simp only [part, mem_enter owner hne, hL.catcher_enter owner hne, record_enter_of_ne owner hne,
        hzero]
    have hlast : (L.step (.enter owner)).part n j L.size = [] := by
      have : L.size ≠ 0 := by omega
      simp [part, this, hself, hkept, hout]
    rw [size_enter, List.range_succ, List.flatMap_append, List.flatMap_congr hpart]
    simp only [List.flatMap_cons, hlast, List.flatMap_nil, List.append_nil]
    exact hH.owned j
  · by_cases hi' : i = L.size
    · rw [hi', hnew, hparams]
    · rw [record_enter_of_ne owner hi']
      exact hH.known i ((mem_enter owner hi').mp hi) h0
  · rw [hH.known_root, declares_enter, hzero]

end Enter

/-! ### Notes on the innermost scope -/

section Note

variable {h : Nat} {rest : List Nat} {x : Site} {H : Share} {g : Record → Record}

theorem Proper.part_of_open (hL : L.Proper) {i : Nat} (hi : i ∈ L.stack) (h0 : i ≠ 0) (j : Nat) :
    L.part n j i = if j = i then (L.record i).kept n else [] := by
  simp [part, h0, hi, hL.catcher_of_open hi]

theorem Proper.catcher_note (hL : L.Proper) (hs : L.stack = h :: rest)
    (hg : ∀ r, (g r).outer = r.outer) (i : Nat) : (L.note g).catcher n i = L.catcher n i := by
  have hh := (hL.top h rest hs).1
  have houter : ((L.note g).record i).outer = (L.record i).outer := by
    rw [record_note hs hh]
    split_ifs with hi
    · rw [hg, hi]
    · rfl
  rw [catcher, catcher, houter]
  refine List.find?_congr fun a _ => ?_
  rw [catches, catches, stack_note, record_note hs hh]
  split_ifs with ha
  · simp [hs, ha]
  · rfl

theorem Proper.waiting_note_of_ne (hL : L.Proper) (hs : L.stack = h :: rest)
    (hg : ∀ r, (g r).outer = r.outer) {i : Nat} (hi : i ≠ h) :
    (L.note g).waiting n i = L.waiting n i := by
  simp only [waiting, stack_note, hL.catcher_note hs hg, record_note hs (hL.top h rest hs).1, hi,
    ↓reduceIte]

theorem Proper.part_note_of_ne (hL : L.Proper) (hs : L.stack = h :: rest)
    (hg : ∀ r, (g r).outer = r.outer) (j : Nat) {i : Nat} (hi : i ≠ h) :
    (L.note g).part n j i = L.part n j i := by
  have hrec : (L.note g).record i = L.record i := by
    rw [record_note hs (hL.top h rest hs).1, if_neg hi]
  by_cases h0 : i = 0
  · subst h0
    simp only [part, hrec, ↓reduceIte]
  · simp only [part, stack_note, hL.catcher_note hs hg, hrec, h0, ↓reduceIte]

theorem Proper.declares_note (hL : L.Proper) (hs : L.stack = h :: rest) :
    ((List.range (L.note g).size).any fun i =>
        !(L.note g).stack.contains i && ((L.note g).record i).declares n) =
      (List.range L.size).any fun i => !L.stack.contains i && (L.record i).declares n := by
  rw [size_note, stack_note]
  congr 1
  funext i
  rw [record_note hs (hL.top h rest hs).1]
  split_ifs with hi
  · simp [hs, hi]
  · rfl

/-- Only one scope owns more than before. -/
theorem flatMap_range_perm {F G : Nat → List Site} {i size : Nat} (hi : i < size)
    {E : List Site} (hne : ∀ k, k ≠ i → G k = F k) (heq : (G i).Perm (F i ++ E)) :
    ((List.range size).flatMap G).Perm ((List.range size).flatMap F ++ E) := by
  have hG : G = Function.update F i (G i) := by
    funext k
    by_cases hk : k = i
    · rw [hk, Function.update_self]
    · rw [Function.update_of_ne hk, hne k hk]
  rw [hG]
  exact Tables.flatMap_update_perm hi heq

/-- A note that is not about the name. -/
theorem Describes.note (hH : L.Describes n H) (hL : L.Proper) (hs : L.stack = h :: rest)
    (hg : ∀ r, (g r).outer = r.outer) (hsites : ∀ r, (g r).sites n = r.sites n) :
    (L.note g).Describes n H := by
  have hh := (hL.top h rest hs).1
  have hopen : h ∈ L.stack := by rw [hs]; exact List.mem_cons_self
  have hrec : ∀ i, ((L.note g).record i).sites n = (L.record i).sites n := by
    intro i
    rw [record_note hs hh]
    split_ifs with hi
    · rw [hsites, hi]
    · rfl
  refine ⟨fun i => ?_, fun j => ?_, fun i hi h0 => ?_, ?_⟩
  · rw [hH.loose]
    by_cases hi : i = h
    · subst hi
      simp only [waiting, stack_note, hopen, Record.early, hrec, ↓reduceIte]
    · rw [hL.waiting_note_of_ne hs hg hi]
  · refine (hH.owned j).trans (List.Perm.of_eq ?_)
    rw [size_note]
    refine List.flatMap_congr fun i _ => ?_
    by_cases hi : i = h
    · subst hi
      simp only [part, stack_note, hopen, hL.catcher_note hs hg, hL.catcher_of_open hopen, Record.kept,
        hrec]
      simp
    · rw [hL.part_note_of_ne hs hg j hi]
  · rw [stack_note] at hi
    rw [Record.params, hrec]
    exact hH.known i hi h0
  · rw [hL.declares_note hs, hrec]
    exact hH.known_root

theorem Describes.occur_root (hH : L.Describes n H) (hL : L.Proper) (hs : L.stack = 0 :: rest) :
    (L.note fun r => r.met n x).Describes n (H.give 0 [x]) := by
  have hself : (L.note fun r => r.met n x).record 0 = (L.record 0).met n x := by
    rw [record_note hs hL.pos, if_pos rfl]
  refine ⟨fun i => ?_, fun j => ?_, fun i hi h0 => ?_, ?_⟩
  · rw [Share.loose_give, hH.loose]
    by_cases hi : i = 0
    · simp [waiting, hi]
    · rw [hL.waiting_note_of_ne hs (g := fun r => r.met n x) (fun _ => rfl) hi]
  · have hrest : ∀ i, i ≠ 0 → (L.note fun r => r.met n x).part n j i = L.part n j i :=
      fun i hi => hL.part_note_of_ne hs (g := fun r => r.met n x) (fun _ => rfl) j hi
    have hroot : (L.note fun r => r.met n x).part n j 0 =
        L.part n j 0 ++ if j = 0 then [x] else [] := by
      simp only [part, ↓reduceIte, hself, Record.sites_met]
      by_cases hj : j = 0 <;> simp [hj]
    rw [size_note, Share.owned_give]
    refine List.Perm.trans ?_ (flatMap_range_perm hL.pos hrest (List.Perm.of_eq hroot)).symm
    by_cases hj : j = 0
    · subst hj
      simpa using (hH.owned 0).append_right [x]
    · simpa [hj] using hH.owned j
  · rw [stack_note] at hi
    rw [Share.knows_give, record_note hs hL.pos, if_neg h0]
    simpa [h0] using hH.known i hi h0
  · rw [Share.knows_give, hself, Record.sites_met]
    simp

/-! An occurrence in an inner scope is kept there when a parameter has come, and is loose before. -/

theorem Proper.waiting_met (hL : L.Proper) (hs : L.stack = h :: rest) (h0 : h ≠ 0) (i : Nat) :
    (L.note fun r => r.met n x).waiting n i = if i = h then
      (L.record h).early n ++ (if (L.record h).params n || x.tree.isParam then [] else [x])
      else L.waiting n i := by
  by_cases hi : i = h
  · have hopen : h ∈ (L.note fun r => r.met n x).stack := by
      rw [stack_note, hs]
      exact List.mem_cons_self
    rw [if_pos hi, hi, waiting, if_neg h0, if_pos hopen, record_note hs (hL.top h rest hs).1, if_pos rfl,
      Record.early_met]
  · rw [if_neg hi, hL.waiting_note_of_ne hs (g := fun r => r.met n x) (fun _ => rfl) hi]

theorem Proper.parts_met (hL : L.Proper) (hs : L.stack = h :: rest) (h0 : h ≠ 0) (j : Nat) :
    ((List.range (L.note fun r => r.met n x).size).flatMap
      ((L.note fun r => r.met n x).part n j)).Perm ((List.range L.size).flatMap (L.part n j) ++
        if j = h ∧ ((L.record h).params n || x.tree.isParam) then [x] else []) := by
  have hh := (hL.top h rest hs).1
  have hopen : h ∈ L.stack := by rw [hs]; exact List.mem_cons_self
  have hproper : (L.note fun r => r.met n x).Proper := hL.note (fun _ => rfl) (fun _ => rfl)
  rw [size_note]
  refine flatMap_range_perm hh
    (fun i hi => hL.part_note_of_ne hs (g := fun r => r.met n x) (fun _ => rfl) j hi)
    (List.Perm.of_eq ?_)
  rw [hproper.part_of_open (by rwa [stack_note]) h0, hL.part_of_open hopen h0, record_note hs hh,
    if_pos rfl, Record.kept_met]
  by_cases hj : j = h <;> simp [hj]

theorem Describes.params_met (hH : L.Describes n H) (hL : L.Proper) (hs : L.stack = h :: rest) {i : Nat}
    (hi : i ∈ L.stack) (h0 : i ≠ 0) :
    ((L.note fun r => r.met n x).record i).params n =
      if i = h then (L.record h).params n || x.tree.isParam else H.knows i := by
  rw [record_note hs (hL.top h rest hs).1]
  split_ifs with hih
  · rw [Record.params_met]
  · rw [hH.known i hi h0]

theorem Describes.occur_inner (hH : L.Describes n H) (hL : L.Proper) (hs : L.stack = h :: rest)
    (h0 : h ≠ 0) :
    (L.note fun r => r.met n x).Describes n (H.add h (H.knows h || x.tree.isParam) x) := by
  have hh := (hL.top h rest hs).1
  have hopen : h ∈ L.stack := by rw [hs]; exact List.mem_cons_self
  have hwaiting : L.waiting n h = (L.record h).early n := by rw [waiting, if_neg h0, if_pos hopen]
  have hknown := hH.known h hopen h0
  have hroot : ∀ G : Share, G.knows 0 = H.knows 0 → G.knows 0 =
      (!(((L.note fun r => r.met n x).record 0).sites n).isEmpty ||
        (List.range (L.note fun r => r.met n x).size).any fun i =>
          !(L.note fun r => r.met n x).stack.contains i &&
            ((L.note fun r => r.met n x).record i).declares n) := by
    intro G hG
    rw [hL.declares_note hs, record_note hs hh, if_neg (Ne.symm h0), hG]
    exact hH.known_root
  have hloose := hL.waiting_met (n := n) (x := x) hs h0
  have hparts := hL.parts_met (n := n) (x := x) hs h0
  rw [hknown]
  rcases hc : (L.record h).params n || x.tree.isParam with _ | _
  · simp only [hc, Bool.false_eq_true, and_false, ↓reduceIte, List.append_nil] at hloose hparts
    refine ⟨fun i => ?_, fun j => (hH.owned j).trans (hparts j).symm, fun i hi hi0 => ?_, hroot _ rfl⟩
    · have hadd : (H.add h false x).loose i =
          if i = h then some ((L.record h).early n ++ [x]) else H.loose i := by
        by_cases hi : i = h <;> simp [Share.add, Share.setLoose, hi, hH.waits, hwaiting]
      rw [hadd, hloose, hH.loose]
      split_ifs
      · rw [entry, if_neg (by simp)]
      · rfl
    · rw [stack_note] at hi
      rw [hH.params_met hL hs hi hi0, hc]
      split_ifs with hih
      · rw [hih, Share.add]
        exact hknown.trans (Bool.or_eq_false_iff.mp hc).1
      · rfl
  · simp only [hc, and_true, ↓reduceIte, List.append_nil] at hloose hparts
    have hgive : H.add h true x = H.give h [x] := rfl
    rw [hgive]
    have hzero : (H.give h [x]).knows 0 = H.knows 0 := by simp [Share.knows_give, Ne.symm h0]
    refine ⟨fun i => ?_, fun j => ?_, fun i hi hi0 => ?_, hroot _ hzero⟩
    · rw [Share.loose_give, hloose, hH.loose]
      split_ifs with hi
      · rw [hi, hwaiting]
      · rfl
    · rw [Share.owned_give]
      refine List.Perm.trans ?_ (hparts j).symm
      split_ifs with hj
      · exact hj ▸ (hH.owned h).append_right [x]
      · rw [List.append_nil]
        exact hH.owned j
    · rw [stack_note] at hi
      rw [hH.params_met hL hs hi hi0, hc, Share.knows_give]
      by_cases hih : i = h <;> simp [hih]

end Note

end Log

end ScopeLint
