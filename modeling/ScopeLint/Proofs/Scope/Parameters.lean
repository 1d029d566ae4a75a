import ScopeLint.Proofs.Scope.Attribution

/-! Parameters come first. What a scope owns of a name only grows, and it grows at its end. Of the names
that occur in an inner scope while it is open, it owns those of its parameters only. So an entry of an
inner scope starts with a parameter when the scope has one of that name. -/

namespace ScopeLint

/-! ### Entries grow at their end -/

namespace Share

/-- What is owned in one share is the start of what is owned in the other one. -/
def Begins (H G : Share) : Prop := ∀ k, H.owned k <+: G.owned k

variable {H G : Share} {i : Nat} {l : List Site} {s : Scope} {n : String}

theorem Begins.refl (H : Share) : H.Begins H := fun _ => List.prefix_rfl

theorem Begins.trans {K : Share} (h : H.Begins G) (h' : G.Begins K) : H.Begins K :=
  fun k => (h k).trans (h' k)

theorem Begins.head? {k : Nat} {x : Site} (h : H.Begins G) (hx : (H.owned k).head? = some x) :
    (G.owned k).head? = some x := by
  obtain ⟨more, hmore⟩ := h k
  rw [← hmore, List.head?_append, hx]
  rfl

theorem begins_give : H.Begins (H.give i l) := by
  intro k
  rw [owned_give]
  split_ifs with hk
  · rw [hk]
    exact List.prefix_append _ _
  · exact List.prefix_rfl

theorem begins_add (here : Bool) (x : Site) : H.Begins (H.add i here x) := by
  unfold add
  split_ifs
  · exact begins_give
  · exact .refl H

theorem begins_settleLoose : H.Begins (H.settleLoose i s) := by
  unfold settleLoose settle
  split
  · dsimp only
    split_ifs
    · exact .refl H
    · exact begins_give
    · exact begins_give
    · exact begins_give
    · exact .refl H
  · exact .refl H

theorem begins_claimFrom (j : Nat) : H.Begins (H.claimFrom i s n j) := by
  unfold claimFrom claim
  split
  · split_ifs
    · exact begins_give
    · exact begins_give
    · exact .refl H
  · exact .refl H

theorem begins_claimAll (js : List Nat) : H.Begins (H.claimAll i s n js) := by
  induction js generalizing H with
  | nil => exact .refl H
  | cons j js ih => exact (begins_claimFrom j).trans ih

theorem begins_resolve (declared : Bool) (m : Nat) (js : List Nat) :
    H.Begins (H.resolve i s n declared m js) := by
  have hsent : H.Begins (if declared then H.send i m else H) := by
    split_ifs
    · exact (Begins.refl H : H.Begins (H.drop i)).trans begins_give
    · exact .refl H
  have hsettled := hsent.trans (begins_settleLoose (i := i) (s := s))
  simp only [resolve]
  cases s.isClass with
  | true => exact hsettled
  | false => exact hsettled.trans (begins_claimAll js)

end Share

theorem Workshop.ShareStep.begins {L : Log} {n : String} {H H' : Share} {e : Event}
    (h : ShareStep L n H H' e) : H.Begins H' := by
  cases h with
  | same _ h =>
    rw [h]
    exact .refl H
  | add _ h =>
    rw [h]
    exact Share.begins_add _ _
  | resolve _ h =>
    rw [h]
    exact Share.begins_resolve _ _ _

/-! ### The first occurrence of a parameter -/

namespace Log

variable {L : Log} {n : String} {k : Nat} {x : Site}

/-- Only an occurrence in the innermost scope makes a parameter. -/
theorem Proper.params_step (hL : L.Proper) {e : Event} (h : ((L.step e).record k).params n = true)
    (hno : (L.record k).params n = false) :
    ∃ rest x, L.stack = k :: rest ∧ e = .occur (some n) x ∧ x.tree.isParam = true := by
  have hnote {g : Record → Record} (hg : ((L.note g).record k).params n = true) :
      ∃ rest, L.stack = k :: rest ∧ (g (L.record k)).params n = true := by
    rcases hs : L.stack with _ | ⟨i, rest⟩
    · rw [Log.note, hs] at hg
      cases hno.symm.trans hg
    · rw [record_note hs (hL.top i rest hs).1] at hg
      split_ifs at hg with hk
      · subst hk
        exact ⟨rest, rfl, hg⟩
      · cases hno.symm.trans hg
  cases e with
  | enter owner =>
    rw [record_enter] at h
    split_ifs at h with hk
    · cases h
    · cases hno.symm.trans h
  | occur name x =>
    cases name with
    | none => cases hno.symm.trans h
    | some m =>
      obtain ⟨rest, hs, hmet⟩ := hnote h
      by_cases hm : n = m
      · subst hm
        rw [Record.params_met, hno, Bool.false_or] at hmet
        exact ⟨rest, x, hs, rfl, hmet⟩
      · rw [Record.params, Record.sites_met, if_neg hm, List.append_nil] at hmet
        cases hno.symm.trans hmet
  | declareGlobal names =>
    obtain ⟨rest, -, hsame⟩ := hnote h
    cases hno.symm.trans hsame
  | importsAll =>
    obtain ⟨rest, -, hsame⟩ := hnote h
    cases hno.symm.trans hsame
  | leave => cases hno.symm.trans h
  | importing site => cases hno.symm.trans h
  | importsFuture names => cases hno.symm.trans h
  | fail fault => cases hno.symm.trans h

/-- A parameter belongs to the scope where it stands. -/
theorem Proper.params_of_owned (hL : L.Proper) (h0 : k ≠ 0) (hx : x ∈ L.ownedBy k n)
    (hp : x.tree.isParam = true) : (L.record k).params n = true := by
  obtain ⟨i, past, hi, hpast, hhome⟩ := mem_ownedBy.mp hx
  obtain ⟨hmem, hsub⟩ := mem_of_mem_pasts hpast
  have hi0 : i ≠ 0 := by
    rintro rfl
    rw [home, if_pos hL.root] at hhome
    exact h0 hhome.symm
  have hany : (past.any fun y => y.tree.isParam) = true := List.any_eq_true.mpr ⟨x, hmem, hp⟩
  have hself : L.home i n past = i := by simp [home, hL.not_isModule hi0 hi, hany]
  obtain rfl : i = k := hself.symm.trans hhome
  exact List.any_eq_true.mpr ⟨x, hsub hmem, hp⟩

end Log

namespace Workshop

/-- Every inner scope that has a parameter owns one before all else under that name. -/
def ParamsFirst (w : Workshop) (L : Log) : Prop :=
  ∀ k n, k ≠ 0 → (L.record k).params n = true →
    ∃ x, ((w.forest.tables.share n).owned k).head? = some x ∧ x.tree.isParam = true

theorem Follows.paramsFirst_step {w w' : Workshop} {L : Log} {e : Event} (hw : w.Follows L)
    (he : w.step e = .ok w') (hp : w.ParamsFirst L) : w'.ParamsFirst (L.step e) := by
  intro k n hk hparams
  have hstep := hw.share_step he n
  by_cases hold : (L.record k).params n = true
  · obtain ⟨x, hx, hxp⟩ := hp k n hk hold
    exact ⟨x, hstep.begins.head? hx, hxp⟩
  · rw [Bool.not_eq_true] at hold
    obtain ⟨rest, x, hs, rfl, hx⟩ := hw.proper.params_step hparams hold
    refine ⟨x, ?_, hx⟩
    cases hstep with
    | same hne h => exact absurd rfl (hne x)
    | add hs' h =>
      obtain ⟨rfl, -⟩ := List.cons.inj (hs.symm.trans hs')
      -- An open inner scope has no entry before its first parameter.
      have hknown := (hw.describes n).known k (by rw [hs]; exact List.mem_cons_self) hk
      rw [hold, Share.knows, Option.isSome_eq_false_iff, Option.isNone_iff_eq_none] at hknown
      rw [h, hx, Bool.or_true, Share.add, if_pos rfl, Share.owned_give, if_pos rfl, Share.owned, hknown]
      rfl

end Workshop

/-- In an inner scope, an entry starts with a parameter when the scope has one of that name. -/
theorem Tree.head_isParam {t : Tree} (hm : t.isKind .module = true) (hone : t.kinds.count .module = 1)
    {f : Forest} (hf : t.scopes = .ok f) {k : Nat} (hk : k ≠ 0) {n : String} {x : Site}
    (hx : (f.tables.owned k n).head? = some x) : x.tree.isParam = (t.log.record k).params n := by
  obtain ⟨hreal, -⟩ := visit_of_scopes hm hone hf
  have hstart : (⟨Forest.empty.push none t, [0]⟩ : Workshop).ParamsFirst (Log.empty.step (.enter t)) := by
    intro k n hk hparams
    have hfresh : (Log.empty.step (.enter t)).record k = Log.empty.record k := by
      rw [Log.record_enter, if_neg]
      exact hk
    rw [hfresh, Log.record_eq_fresh (Nat.zero_le k)] at hparams
    cases hparams
  obtain ⟨w, hfirst, hnames⟩ := scopes_induction hm hone (P := Workshop.ParamsFirst)
    (fun hw _ he => hw.paramsFirst_step he) hstart hf
  rw [Bool.eq_iff_iff]
  constructor
  · intro hp
    exact hreal.proper.params_of_owned hk ((hreal.owned k n).mem_iff.mp (List.mem_of_mem_head? hx)) hp
  · intro hp
    obtain ⟨y, hy, hyp⟩ := hfirst k n hk hp
    obtain ⟨z, hz, -⟩ := List.any_eq_true.mp hp
    obtain ⟨s, hs⟩ := Forest.scope?_eq_some (by rw [hreal.size]; exact Log.lt_size_of_mem_sites hz)
    have hsame : f.tables.owned k n = (w.forest.tables.share n).owned k := by
      rw [Tables.owned, Forest.tables_names hs, ← hnames k s hs]
      rfl
    rw [hsame, hy] at hx
    obtain rfl := Option.some.inj hx
    exact hyp

end ScopeLint
