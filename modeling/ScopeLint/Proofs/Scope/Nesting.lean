import Mathlib.Data.List.Nodup
import ScopeLint.Proofs.Scope.Shape

/-! The nesting of scopes. Every scope comes after its parent, so the way up from a scope ends, the
walk down from a scope meets each scope at most once, and it meets exactly those that have the scope
on their way up. All of it depends only on the parents and the owners of the scopes. -/

namespace ScopeLint.Forest

/-- A scope has a larger number than its parent. -/
def Nested (f : Forest) : Prop := ∀ i s p, f.scope? i = some s → s.parent = some p → p < i

def parent? (f : Forest) (i : Nat) : Option Nat := (f.scope? i).bind Scope.parent

/-- The parents and the owners. -/
def frame (f : Forest) : List (Option Nat × Tree) := f.scopes.map fun s => (s.parent, s.owner)

theorem getElem?_frame (f : Forest) (i : Nat) :
    f.frame[i]? = (f.scope? i).map fun s => (s.parent, s.owner) := by
  simp [frame, scope?]

theorem frame_of_shells {f g : Forest} (h : f.shells = g.shells) : f.frame = g.frame := by
  have hmap : ∀ k : Forest, k.frame = k.shells.map fun h => (h.parent, h.owner) := by
    intro k
    simp [frame, shells, Function.comp_def, Scope.shell]
  rw [hmap, hmap, h]

theorem frame_update {f : Forest} {i : Nat} {g : Scope → Scope}
    (hp : ∀ s, (g s).parent = s.parent) (ho : ∀ s, (g s).owner = s.owner) :
    (f.update i g).frame = f.frame := by
  apply List.ext_getElem?
  intro k
  rw [getElem?_frame, getElem?_frame, scope?_update]
  split_ifs
  · cases f.scope? k <;> simp [hp, ho]
  · rfl

theorem size_eq_of_frame {f g : Forest} (h : f.frame = g.frame) : f.size = g.size := by
  simpa [frame, size] using congrArg List.length h

theorem parent?_of_frame {f g : Forest} (h : f.frame = g.frame) : f.parent? = g.parent? := by
  funext i
  have hi : (f.scope? i).map (fun s => (s.parent, s.owner)) =
      (g.scope? i).map fun s => (s.parent, s.owner) := by
    rw [← getElem?_frame, ← getElem?_frame, h]
  have hp := congrArg (fun o => o.bind Prod.fst) hi
  simpa [Option.bind_map, Function.comp_def, parent?] using hp

theorem Nested.parent_lt {f : Forest} (hf : f.Nested) {i p : Nat} (h : f.parent? i = some p) :
    p < i := by
  obtain ⟨s, hs, hp⟩ := Option.bind_eq_some_iff.mp h
  exact hf i s p hs hp

theorem parent?_lt_size {f : Forest} {i p : Nat} (h : f.parent? i = some p) : i < f.size := by
  obtain ⟨s, hs, -⟩ := Option.bind_eq_some_iff.mp h
  exact lt_size hs

theorem Nested.of_frame {f g : Forest} (hf : f.Nested) (h : g.frame = f.frame) : g.Nested := by
  intro i s p hs hp
  apply hf.parent_lt
  rw [← parent?_of_frame h, parent?, hs]
  exact hp

/-! ### The way up -/

theorem enclosingFrom_succ (f : Forest) (fuel i : Nat) :
    f.enclosingFrom (fuel + 1) i =
      i :: ((f.parent? i).map (f.enclosingFrom fuel)).getD [] := by
  simp only [enclosingFrom, parent?]
  cases (f.scope? i).bind Scope.parent <;> rfl

/-- Fuel beyond the number of a scope changes nothing. -/
theorem Nested.enclosingFrom_eq {f : Forest} (hf : f.Nested) :
    ∀ (i a b : Nat), i < a → i < b → f.enclosingFrom a i = f.enclosingFrom b i := by
  intro i
  induction i using Nat.strongRecOn with
  | ind i ih =>
    intro a b ha hb
    obtain ⟨a, rfl⟩ : ∃ c, a = c + 1 := ⟨a - 1, by omega⟩
    obtain ⟨b, rfl⟩ : ∃ c, b = c + 1 := ⟨b - 1, by omega⟩
    rw [enclosingFrom_succ, enclosingFrom_succ]
    rcases hp : f.parent? i with _ | p
    · rfl
    · have hlt := hf.parent_lt hp
      simp only [Option.map_some, Option.getD_some]
      rw [ih p hlt a b (by omega) (by omega)]

theorem Nested.enclosing_eq {f : Forest} (hf : f.Nested) {i : Nat} (hi : i < f.size) :
    f.enclosing i = i :: ((f.parent? i).map f.enclosing).getD [] := by
  obtain ⟨n, hn⟩ : ∃ n, f.size = n + 1 := ⟨f.size - 1, by omega⟩
  have hstep : f.enclosing i = f.enclosingFrom (n + 1) i := by rw [enclosing, hn]
  rw [hstep, enclosingFrom_succ]
  rcases hp : f.parent? i with _ | p
  · rfl
  · have hlt := hf.parent_lt hp
    simp only [Option.map_some, Option.getD_some, enclosing]
    rw [hf.enclosingFrom_eq p n f.size (by omega) (by omega)]

theorem enclosing_of_frame {f g : Forest} (h : f.frame = g.frame) : f.enclosing = g.enclosing := by
  funext i
  have hfrom : ∀ fuel j, f.enclosingFrom fuel j = g.enclosingFrom fuel j := by
    intro fuel
    induction fuel with
    | zero => intro j; rfl
    | succ fuel ih =>
      intro j
      rw [enclosingFrom_succ, enclosingFrom_succ, parent?_of_frame h]
      cases g.parent? j <;> simp [ih]
  rw [enclosing, enclosing, size_eq_of_frame h, hfrom]

theorem Nested.le_of_mem_enclosing {f : Forest} (hf : f.Nested) {i : Nat} :
    ∀ {j : Nat}, j < f.size → i ∈ f.enclosing j → i ≤ j := by
  intro j
  induction j using Nat.strongRecOn with
  | ind j ih =>
    intro hj hmem
    rw [hf.enclosing_eq hj, List.mem_cons] at hmem
    rcases hmem with rfl | hmem
    · exact Nat.le_refl _
    · rcases hp : f.parent? j with _ | p
      · simp [hp] at hmem
      · have hlt := hf.parent_lt hp
        have := ih p hlt (by omega) (by simpa [hp] using hmem)
        omega

/-- The way up from a scope goes on with the way up from each scope on it. -/
theorem Nested.enclosing_suffix {f : Forest} (hf : f.Nested) {i : Nat} :
    ∀ {j : Nat}, j < f.size → i ∈ f.enclosing j → f.enclosing i <:+ f.enclosing j := by
  intro j
  induction j using Nat.strongRecOn with
  | ind j ih =>
    intro hj hmem
    rw [hf.enclosing_eq hj, List.mem_cons] at hmem
    rcases hmem with rfl | hmem
    · exact List.suffix_refl _
    · rcases hp : f.parent? j with _ | p
      · simp [hp] at hmem
      · have hlt := hf.parent_lt hp
        have := ih p hlt (by omega) (by simpa [hp] using hmem)
        rw [hf.enclosing_eq hj, hp]
        exact this.trans (List.suffix_cons _ _)

theorem Nested.mem_enclosing_self {f : Forest} (hf : f.Nested) {i : Nat} (hi : i < f.size) :
    i ∈ f.enclosing i := by
  rw [hf.enclosing_eq hi]
  exact List.mem_cons_self

/-- Of two scopes on one way up, one is on the way up from the other. -/
theorem Nested.enclosing_total {f : Forest} (hf : f.Nested) {i k j : Nat} (hj : j < f.size)
    (hi : i ∈ f.enclosing j) (hk : k ∈ f.enclosing j) :
    i ∈ f.enclosing k ∨ k ∈ f.enclosing i := by
  have hij := hf.le_of_mem_enclosing hj hi
  have hkj := hf.le_of_mem_enclosing hj hk
  rcases List.suffix_or_suffix_of_suffix (hf.enclosing_suffix hj hi) (hf.enclosing_suffix hj hk)
    with h | h
  · exact .inl (h.subset (hf.mem_enclosing_self (by omega)))
  · exact .inr (h.subset (hf.mem_enclosing_self (by omega)))

theorem moduleOf?_of_frame {f g : Forest} (h : f.frame = g.frame) : f.moduleOf? = g.moduleOf? := by
  funext i
  have hany : ∀ j, (f.scope? j).any Scope.isModule = (g.scope? j).any Scope.isModule := by
    intro j
    have hj : (f.scope? j).map (fun s => (s.parent, s.owner)) =
        (g.scope? j).map fun s => (s.parent, s.owner) := by
      rw [← getElem?_frame, ← getElem?_frame, h]
    have := congrArg (fun o => o.any fun e => e.2.isKind .module) hj
    simp only [Option.any_map] at this
    exact this
  simp only [moduleOf?, enclosing_of_frame h, hany]

theorem moduleOf_of_frame {f g : Forest} (h : f.frame = g.frame) : f.moduleOf = g.moduleOf := by
  funext i
  simp only [moduleOf, moduleOf?_of_frame h]

/-! ### Forests with a module at the root -/

/-- The first scope is a module, and every other scope has a parent. -/
structure Rooted (f : Forest) : Prop where
  root : ∃ s, f.scope? 0 = some s ∧ s.isModule = true
  parent : ∀ i, 0 < i → i < f.size → (f.parent? i).isSome

theorem Rooted.of_frame {f g : Forest} (hf : f.Rooted) (h : g.frame = f.frame) : g.Rooted := by
  refine ⟨?_, ?_⟩
  · obtain ⟨s, hs, hm⟩ := hf.root
    have hz : g.frame[0]? = f.frame[0]? := by rw [h]
    rw [getElem?_frame, getElem?_frame, hs] at hz
    obtain ⟨t, ht, he⟩ := Option.map_eq_some_iff.mp hz
    refine ⟨t, ht, ?_⟩
    rw [Scope.isModule, (Prod.mk.inj he).2]
    exact hm
  · intro i hi hlt
    rw [parent?_of_frame h]
    exact hf.parent i hi (by rwa [← size_eq_of_frame h])

theorem Rooted.mem_enclosing {f : Forest} (hr : f.Rooted) (hf : f.Nested) :
    ∀ {i : Nat}, i < f.size → 0 ∈ f.enclosing i := by
  intro i
  induction i using Nat.strongRecOn with
  | ind i ih =>
    intro hi
    rw [hf.enclosing_eq hi]
    by_cases h0 : i = 0
    · subst h0
      exact List.mem_cons_self
    · obtain ⟨p, hp⟩ := Option.isSome_iff_exists.mp (hr.parent i (by omega) hi)
      have hlt := hf.parent_lt hp
      rw [hp]
      exact List.mem_cons_of_mem _ (ih p hlt (by omega))

/-- Every scope lies in a module. -/
theorem Rooted.exists_module {f : Forest} (hr : f.Rooted) (hf : f.Nested) {i : Nat}
    (hi : i < f.size) :
    ∃ m s, f.moduleOf i = .ok m ∧ f.scope? m = some s ∧ s.isModule = true := by
  obtain ⟨s, hs, hm⟩ := hr.root
  rcases hfind : f.moduleOf? i with _ | m
  · have h0 := List.find?_eq_none.mp hfind 0 (hr.mem_enclosing hf hi)
    simp [hs, hm] at h0
  · have hany : (f.scope? m).any Scope.isModule = true :=
      List.find?_some (p := fun j => (f.scope? j).any Scope.isModule) hfind
    obtain ⟨t, ht, htm⟩ := (Option.any_eq_true _ _).mp hany
    exact ⟨m, t, by rw [moduleOf, hfind], ht, htm⟩

theorem parent?_push (f : Forest) (parent : Option Nat) (owner : Tree) (i : Nat) :
    (f.push parent owner).parent? i = if i = f.size then parent else f.parent? i := by
  rw [parent?, scope?_push]
  split_ifs <;> rfl

theorem Nested.push {f : Forest} (hf : f.Nested) {parent : Option Nat}
    (hp : ∀ p, parent = some p → p < f.size) (owner : Tree) : (f.push parent owner).Nested := by
  intro i s p hs hsp
  rw [scope?_push] at hs
  split_ifs at hs with h
  · cases hs
    subst h
    exact hp p hsp
  · exact hf i s p hs hsp

theorem Rooted.push {f : Forest} (hf : f.Rooted) (p : Nat) (owner : Tree) :
    (f.push (some p) owner).Rooted := by
  refine ⟨?_, ?_⟩
  · obtain ⟨s, hs, hm⟩ := hf.root
    have := lt_size hs
    exact ⟨s, by rw [scope?_push, if_neg (by omega), hs], hm⟩
  · intro i hi hlt
    rw [size_push] at hlt
    rw [parent?_push]
    split_ifs with h
    · rfl
    · exact hf.parent i hi (by omega)

/-! ### The walk down -/

theorem mem_children {f : Forest} {i j : Nat} : j ∈ f.children i ↔ f.parent? j = some i := by
  simp only [children, List.mem_filterMap, parent?, scope?]
  constructor
  · rintro ⟨⟨s, k⟩, hmem, hk⟩
    split_ifs at hk with hp
    cases hk
    rw [List.mem_zipIdx_iff_getElem?] at hmem
    exact Option.bind_eq_some_iff.mpr ⟨s, hmem, hp⟩
  · intro h
    obtain ⟨s, hs, hp⟩ := Option.bind_eq_some_iff.mp h
    exact ⟨(s, j), List.mem_zipIdx_iff_getElem?.mpr hs, by simp [hp]⟩

theorem nodup_children (f : Forest) (i : Nat) : (f.children i).Nodup := by
  have hidx : (f.scopes.zipIdx.map Prod.snd).Nodup := by
    rw [List.zipIdx_map_snd]
    exact List.nodup_range'
  refine hidx.sublist ?_
  rw [children, ← List.filterMap_eq_map]
  have hle : ∀ l : List (Scope × Nat),
      (l.filterMap fun e => if e.1.parent = some i then some e.2 else none).Sublist
        (l.filterMap (some ∘ Prod.snd)) := by
    intro l
    induction l with
    | nil => simp
    | cons e rest ih =>
      obtain ⟨s, j⟩ := e
      by_cases hp : s.parent = some i
      · simpa [List.filterMap_cons, hp] using ih
      · simpa [List.filterMap_cons, hp] using ih.trans (List.sublist_cons_self _ _)
  exact hle _

theorem children_of_frame {f g : Forest} (h : f.frame = g.frame) : f.children = g.children := by
  funext i
  have hmap : ∀ k : Forest, k.children i =
      k.frame.zipIdx.filterMap fun (e, j) => if e.1 = some i then some j else none := by
    intro k
    simp only [children, frame, List.zipIdx_map, List.filterMap_map, Function.comp_def]
    rfl
  rw [hmap, hmap, h]

theorem walkFrom_of_frame {f g : Forest} (h : f.frame = g.frame) :
    ∀ fuel depth i, f.walkFrom fuel depth i = g.walkFrom fuel depth i := by
  intro fuel
  induction fuel with
  | zero => intro depth i; rfl
  | succ fuel ih =>
    intro depth i
    simp only [walkFrom, children_of_frame h]
    congr 2
    funext j
    exact ih _ _

theorem walk_of_frame {f g : Forest} (h : f.frame = g.frame) : f.walk = g.walk := by
  funext i
  simp only [walk, size_eq_of_frame h, walkFrom_of_frame h]

/-- The numbers of the scopes that a walk with some fuel meets. -/
theorem map_walkFrom_succ (f : Forest) (fuel depth i : Nat) :
    (f.walkFrom (fuel + 1) depth i).map Prod.snd =
      i :: (f.children i).flatMap fun j => (f.walkFrom fuel (depth + 1) j).map Prod.snd := by
  simp [walkFrom, List.map_flatMap]

/-- A way up to a scope comes through one of its children. -/
theorem Nested.exists_child {f : Forest} (hf : f.Nested) {i : Nat} :
    ∀ {j : Nat}, j < f.size → i ∈ f.enclosing j →
      j = i ∨ ∃ c, f.parent? c = some i ∧ c ∈ f.enclosing j := by
  intro j
  induction j using Nat.strongRecOn with
  | ind j ih =>
    intro hj hmem
    rw [hf.enclosing_eq hj, List.mem_cons] at hmem
    rcases hmem with rfl | hmem
    · exact .inl rfl
    · rcases hp : f.parent? j with _ | p
      · simp [hp] at hmem
      · have hlt := hf.parent_lt hp
        have hip : i ∈ f.enclosing p := by simpa [hp] using hmem
        rcases ih p hlt (by omega) hip with rfl | ⟨c, hc, hcp⟩
        · exact .inr ⟨j, hp, hf.mem_enclosing_self hj⟩
        · refine .inr ⟨c, hc, ?_⟩
          rw [hf.enclosing_eq hj, hp]
          exact List.mem_cons_of_mem _ (by simpa using hcp)

theorem Nested.mem_walkFrom {f : Forest} (hf : f.Nested) :
    ∀ (fuel depth i j : Nat), j < f.size → i < f.size → j < fuel + i →
      (j ∈ (f.walkFrom fuel depth i).map Prod.snd ↔ i ∈ f.enclosing j) := by
  intro fuel
  induction fuel with
  | zero =>
    intro depth i j hj hi hfuel
    constructor
    · intro h; simp [walkFrom] at h
    · intro h
      have := hf.le_of_mem_enclosing hj h
      omega
  | succ fuel ih =>
    intro depth i j hj hi hfuel
    rw [map_walkFrom_succ, List.mem_cons, List.mem_flatMap]
    constructor
    · rintro (rfl | ⟨c, hc, hmem⟩)
      · exact hf.mem_enclosing_self hj
      · have hp := mem_children.mp hc
        have hlt := hf.parent_lt hp
        have hcs := parent?_lt_size hp
        have hce := (ih (depth + 1) c j hj hcs (by omega)).mp hmem
        refine (hf.enclosing_suffix hj hce).subset ?_
        rw [hf.enclosing_eq hcs, hp]
        exact List.mem_cons_of_mem _ (by simpa using hf.mem_enclosing_self hi)
    · intro hmem
      rcases hf.exists_child hj hmem with rfl | ⟨c, hc, hcj⟩
      · exact .inl rfl
      · have hlt := hf.parent_lt hc
        have hcs := parent?_lt_size hc
        exact .inr ⟨c, mem_children.mpr hc, (ih (depth + 1) c j hj hcs (by omega)).mpr hcj⟩

/-- The walk from a scope meets the scopes that have it on their way up. -/
theorem Nested.mem_walk {f : Forest} (hf : f.Nested) {i j : Nat} (hi : i < f.size)
    (hj : j < f.size) : j ∈ f.walk i ↔ i ∈ f.enclosing j :=
  hf.mem_walkFrom f.size 0 i j hj hi (by omega)

theorem lt_size_of_mem_walkFrom {f : Forest} :
    ∀ (fuel depth i j : Nat), i < f.size → j ∈ (f.walkFrom fuel depth i).map Prod.snd → j < f.size := by
  intro fuel
  induction fuel with
  | zero => intro depth i j _ h; simp [walkFrom] at h
  | succ fuel ih =>
    intro depth i j hi h
    rw [map_walkFrom_succ, List.mem_cons, List.mem_flatMap] at h
    rcases h with rfl | ⟨c, hc, hmem⟩
    · exact hi
    · exact ih (depth + 1) c j (parent?_lt_size (mem_children.mp hc)) hmem

theorem lt_size_of_mem_walk {f : Forest} {i j : Nat} (hi : i < f.size) (h : j ∈ f.walk i) :
    j < f.size := lt_size_of_mem_walkFrom f.size 0 i j hi h

theorem Nested.enclosing_of_mem_walkFrom {f : Forest} (hf : f.Nested) :
    ∀ (fuel depth i j : Nat), i < f.size → j ∈ (f.walkFrom fuel depth i).map Prod.snd →
      i ∈ f.enclosing j := by
  intro fuel
  induction fuel with
  | zero => intro depth i j _ h; simp [walkFrom] at h
  | succ fuel ih =>
    intro depth i j hi h
    rw [map_walkFrom_succ, List.mem_cons, List.mem_flatMap] at h
    rcases h with rfl | ⟨c, hc, hmem⟩
    · exact hf.mem_enclosing_self hi
    · have hp := mem_children.mp hc
      have hcs := parent?_lt_size hp
      have hj := lt_size_of_mem_walkFrom fuel (depth + 1) c j hcs hmem
      refine (hf.enclosing_suffix hj (ih (depth + 1) c j hcs hmem)).subset ?_
      rw [hf.enclosing_eq hcs, hp]
      exact List.mem_cons_of_mem _ (by simpa using hf.mem_enclosing_self hi)

/-- The walks from two children of a scope have nothing in common. -/
theorem Nested.siblings_disjoint {f : Forest} (hf : f.Nested) {i c d j : Nat} (hc : f.parent? c = some i)
    (hd : f.parent? d = some i) (hne : c ≠ d) (hj : j < f.size) (hcj : c ∈ f.enclosing j)
    (hdj : d ∈ f.enclosing j) : False := by
  have hbelow : ∀ a b, f.parent? a = some i → f.parent? b = some i → a ≠ b →
      a ∈ f.enclosing b → False := by
    intro a b ha hb hab hmem
    have hbs := parent?_lt_size hb
    have hlt := hf.parent_lt hb
    rw [hf.enclosing_eq hbs, hb, List.mem_cons] at hmem
    rcases hmem with rfl | hmem
    · exact hab rfl
    · have hle : a ≤ i := hf.le_of_mem_enclosing (by omega) (by simpa using hmem)
      have := hf.parent_lt ha
      omega
  rcases hf.enclosing_total hj hcj hdj with h | h
  · exact hbelow c d hc hd hne h
  · exact hbelow d c hd hc (Ne.symm hne) h

theorem Nested.nodup_walkFrom {f : Forest} (hf : f.Nested) :
    ∀ (fuel depth i : Nat), i < f.size → ((f.walkFrom fuel depth i).map Prod.snd).Nodup := by
  intro fuel
  induction fuel with
  | zero => intro depth i _; simp [walkFrom]
  | succ fuel ih =>
    intro depth i hi
    rw [map_walkFrom_succ, List.nodup_cons, List.nodup_flatMap]
    refine ⟨?_, ?_, ?_⟩
    · rw [List.mem_flatMap]
      rintro ⟨c, hc, hmem⟩
      have hp := mem_children.mp hc
      have hcs := parent?_lt_size hp
      have hlt := hf.parent_lt hp
      have := hf.le_of_mem_enclosing hi (hf.enclosing_of_mem_walkFrom fuel (depth + 1) c i hcs hmem)
      omega
    · intro c hc
      exact ih (depth + 1) c (parent?_lt_size (mem_children.mp hc))
    · refine (f.nodup_children i).imp_of_mem ?_
      intro c d hc hd hne
      have hpc := mem_children.mp hc
      have hpd := mem_children.mp hd
      have hcs := parent?_lt_size hpc
      have hds := parent?_lt_size hpd
      intro j hjc hjd
      exact hf.siblings_disjoint hpc hpd hne
        (lt_size_of_mem_walkFrom fuel (depth + 1) c j hcs hjc)
        (hf.enclosing_of_mem_walkFrom fuel (depth + 1) c j hcs hjc)
        (hf.enclosing_of_mem_walkFrom fuel (depth + 1) d j hds hjd)

theorem Nested.nodup_walk {f : Forest} (hf : f.Nested) {i : Nat} (hi : i < f.size) :
    (f.walk i).Nodup := hf.nodup_walkFrom f.size 0 i hi

end ScopeLint.Forest
