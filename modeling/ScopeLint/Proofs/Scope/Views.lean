import ScopeLint.Proofs.Fault
import ScopeLint.Proofs.Scope.Change

/-! Views of the scopes of a forest that do not show the tables. Giving, taking and settling names are
changes of the tables, so they leave such a view as it is. -/

namespace ScopeLint

variable {α β γ : Type} {view : Scope → γ}

/-- A part of a scope that depends neither on the tables nor on what the star records follow. -/
structure Scope.Blind (view : Scope → γ) : Prop where
  names : ∀ s t, view { s with names := t } = view s
  unscoped : ∀ s t,
    view { s with pending := s.pending.map fun p => { p with unscoped := t } } = view s
  follows : ∀ s g, (∀ e, (g e).1 = e.1) → (∀ e, (g e).2.sites = e.2.sites) →
    view { s with fromStars := s.fromStars.map g } = view s

namespace Forest

/-- What is seen of each scope. -/
def views (view : Scope → γ) (f : Forest) : List γ := f.scopes.map view

theorem getElem?_views (f : Forest) (i : Nat) : (f.views view)[i]? = (f.scope? i).map view := by
  simp [views, scope?]

theorem views_update {f : Forest} {i : Nat} {g : Scope → Scope} (hg : ∀ s, view (g s) = view s) :
    (f.update i g).views view = f.views view := by
  apply List.ext_getElem?
  intro k
  rw [getElem?_views, getElem?_views, scope?_update]
  split_ifs
  · rw [Option.map_map]
    congr 1
    funext s
    exact hg s
  · rfl

theorem views_release (hv : Scope.Blind view) (f : Forest) (i : Nat) (n : String) :
    (f.release i n).views view = f.views view := by
  simp only [views, release, List.map_map]
  apply List.map_congr_left
  intro s _
  apply hv.follows
  · intro e
    split_ifs <;> rfl
  · intro e
    split_ifs <;> rfl

end Forest

namespace Change

/-- When the change succeeds, what is seen of the scopes is as before. -/
def Keeps (view : Scope → γ) (c : Change α) : Prop :=
  ∀ f a f', c.exec f = (.ok a, f') → f'.views view = f.views view

namespace Keeps

theorem pure (a : α) : (Pure.pure a : Change α).Keeps view := by
  intro f b f' h
  cases h
  rfl

theorem bind {c : Change α} {g : α → Change β} (hc : c.Keeps view) (hg : ∀ a, (g a).Keeps view) :
    (c >>= g).Keeps view := by
  intro f b f' h
  obtain ⟨a, f₁, he, h⟩ := run_bind_ok h
  exact (hg a f₁ b f' h).trans (hc f a f₁ he)

theorem throw (e : Fault) : (MonadExcept.throw e : Change α).Keeps view := by
  intro f a f' h
  cases h

theorem ite {c : Prop} [Decidable c] {a b : Change α} (ha : a.Keeps view) (hb : b.Keeps view) :
    (if c then a else b).Keeps view := by
  split_ifs
  · exact ha
  · exact hb

theorem get : (MonadState.get : Change Forest).Keeps view := by
  intro f a f' h
  cases h
  rfl

theorem lift (e : Except Fault α) : (Change.lift e).Keeps view := by
  cases e with
  | ok a => exact pure a
  | error fault => exact throw fault

theorem discard {c : Change α} (hc : c.Keeps view) : (Functor.discard c : Change PUnit).Keeps view := by
  rw [discard_eq_bind]
  exact hc.bind fun _ => pure _

theorem forM {l : List β} {g : β → Change PUnit} (hg : ∀ b ∈ l, (g b).Keeps view) :
    (l.forM g).Keeps view := by
  induction l with
  | nil => exact pure _
  | cons b l ih =>
    rw [forM_cons]
    exact (hg b List.mem_cons_self).bind fun _ => ih fun c hc => hg c (List.mem_cons_of_mem _ hc)

theorem scope (i : Nat) : (Change.scope i).Keeps view := by
  refine get.bind fun f => ?_
  split
  · exact pure _
  · exact throw _

theorem update {i : Nat} {g : Scope → Scope} (hg : ∀ s, view (g s) = view s) :
    (Change.update i g).Keeps view := by
  intro f a f' h
  cases h
  exact Forest.views_update hg

theorem pending (i : Nat) (asked : String) : (Change.pending i asked).Keeps view := by
  refine (scope i).bind fun s => ?_
  split
  · exact pure _
  · exact throw _

variable (hv : Scope.Blind view)
include hv

theorem setUnscoped (i : Nat) (t : Table Site) : (Change.setUnscoped i t).Keeps view :=
  update fun s => hv.unscoped s t

theorem release (i : Nat) (n : String) :
    (modify fun f => f.release i n : Change PUnit).Keeps view := by
  intro f a f' h
  cases h
  exact Forest.views_release hv f i n

theorem give (i : Nat) (n : String) (l : List Site) (how : String) :
    (Change.give i n l how).Keeps view := by
  refine (scope i).bind fun s => ?_
  split_ifs
  · exact throw _
  · exact throw _
  · exact update fun s => hv.names s _

theorem take (i : Nat) (n : String) : (Change.take i n).Keeps view :=
  (pending i _).bind fun _ => (setUnscoped hv i _).bind fun _ => (release hv i n).bind fun _ => pure _

theorem give_take (i j : Nat) (n : String) (l : List Site) (how : String) :
    (Change.give i n l how >>= fun _ => Functor.discard (Change.take j n) : Change PUnit).Keeps view :=
  (give hv i n l how).bind fun _ => (take hv j n).discard

theorem settle (i : Nat) (n : String) (l : List Site) : (Change.settle i n l).Keeps view := by
  refine (scope i).bind fun s => ?_
  dsimp only
  split_ifs
  · exact pure _
  · exact give_take hv i i n _ _
  · exact (give hv i n _ _).bind fun _ => (pending i _).bind fun _ =>
      (setUnscoped hv i _).bind fun _ => release hv i n
  · exact (pure true).bind fun _ => ite (give_take hv i i n _ _) (pure _)
  · exact (lift _).bind fun _ => ite (give_take hv i i n _ _) (pure _)

/-! Adding and claiming names also change the star records. -/

variable (hs : ∀ s t, view { s with fromStars := t } = view s)
include hs

theorem add (i : Nat) (n : String) (x : Site) : (Change.add i n x).Keeps view := by
  refine (scope i).bind fun s => ite (give hv i n [x] _) ?_
  refine (pending i _).bind fun _ => (setUnscoped hv i _).bind fun _ => ?_
  intro f a f' h
  cases h
  simp only [Forest.views, Forest.forward, List.map_map]
  exact List.map_congr_left fun s _ => hs s _

theorem claim (i j : Nat) (n : String) (l : List Site) : (Change.claim i j n l).Keeps view := by
  have hrecord : ∀ s r, view (Scope.recordStar s n r) = view s := by
    intro s r
    unfold Scope.recordStar
    split_ifs
    · exact hs s _
    · exact hs s _
  refine (scope i).bind fun s => ?_
  have hgiven := ite (c := (s.names.contains n || s.isGlobal n) = true) (give_take hv i j n l "extend")
    (ite (c := s.isModule = true) (give_take hv j j n l "extend") (pure ⟨⟩))
  exact ite ((update fun s => hrecord s _).bind fun _ => hgiven) hgiven

end Keeps

theorem pending_ok {f f' : Forest} {i : Nat} {asked : String} {p : Pending}
    (h : (pending i asked).exec f = (.ok p, f')) :
    f' = f ∧ ∃ s, f.scope? i = some s ∧ s.pending = some p := by
  obtain ⟨s, f₁, hscope, h⟩ := run_bind_ok h
  rcases hs : f.scope? i with _ | t
  · cases (exec_scope_none hs).symm.trans hscope
  · cases (exec_scope hs).symm.trans hscope
    split at h
    next q hq =>
      cases h
      exact ⟨rfl, s, rfl, hq⟩
    next => cases h

/-- Resolving a scope moves names between the tables, unless it has strays to give away. -/
theorem views_resolve (hv : Scope.Blind view) (hs : ∀ s t, view { s with fromStars := t } = view s)
    {f f' : Forest} {i : Nat}
    (hnone : ∀ s p, f.scope? i = some s → s.pending = some p → p.strays = [])
    (h : (resolve i).exec f = (.ok (), f')) : f'.views view = f.views view := by
  obtain ⟨p, f₁, hp, hrest⟩ := run_bind_ok h
  obtain ⟨rfl, s, hsc, hp⟩ := pending_ok hp
  have hnil := hnone s p hsc hp
  revert hrest
  refine Keeps.bind (Keeps.forM fun n _ => ?_) (fun _ => Keeps.bind (Keeps.forM fun a ha => ?_)
    fun _ => (Keeps.pending i _).bind fun q => Keeps.bind (Keeps.forM fun e _ => ?_) fun _ => ?_) _ _ _
  · exact (Keeps.take hv i n).bind fun l => Keeps.get.bind fun f => (Keeps.lift _).bind fun m =>
      Keeps.give hv m n l _
  · rw [hnil] at ha
    cases ha
  · exact Keeps.settle hv i e.1 e.2
  · refine (Keeps.scope i).bind fun s => Keeps.ite (Keeps.pure _) ?_
    exact Keeps.get.bind fun f => Keeps.forM fun j _ => (Keeps.pending j _).bind fun q =>
      Keeps.forM fun e _ => Keeps.claim hv hs i j e.1 e.2

end Change

end ScopeLint
