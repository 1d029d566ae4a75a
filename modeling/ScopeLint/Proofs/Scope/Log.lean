import ScopeLint.Proofs.Scope.Block
import ScopeLint.Proofs.Scope.Change
import ScopeLint.Scope.Build

/-! What a visit meets, scope by scope, before anything is resolved, and the rule that names the scope
to which an occurrence belongs. The rule looks at the whole log: at what stands in the scope, before
the occurrence or at all, and at the scopes around it. -/

namespace ScopeLint

/-- What was met while a scope was the innermost one. -/
structure Record where
  owner : Tree
  /-- The scopes around it, the nearest first. -/
  outer : List Nat
  occurrences : List (String × Site)
  globals : List String
  stars : Bool

namespace Record

/-- Of a scope where nothing has been met. -/
def fresh (owner : Tree) (outer : List Nat) : Record := ⟨owner, outer, [], [], false⟩

variable (r : Record) (n : String)

/-- The record with a further occurrence. -/
def met (x : Site) : Record := { r with occurrences := r.occurrences ++ [(n, x)] }

def isModule : Bool := r.owner.isKind .module

def isClass : Bool := r.owner.isKind .classDef

def isFunction : Bool := r.owner.isFunction

/-- The occurrences of a name, in the order in which they were met. -/
def sites : List Site := (r.occurrences.filter fun o => o.1 = n).map Prod.snd

def declares : Bool := r.globals.contains n

def params : Bool := (r.sites n).any fun x => x.tree.isParam

def writes : Bool := (r.sites n).any fun x => x.tree.writes

/-- Whether the scopes below find the name here. -/
def binds : Bool := r.isFunction && (r.params n || r.writes n && !r.declares n)

end Record

/-- The records of all scopes, in the order in which they were entered, and the open ones. -/
structure Log where
  records : List Record
  stack : List Nat

namespace Log

def empty : Log := ⟨[], []⟩

def size (L : Log) : Nat := L.records.length

/-- The record of a scope; that of a scope which does not exist is blank. -/
def record (L : Log) (i : Nat) : Record := L.records.getD i (.fresh .null [])

/-- Changes the record of the innermost scope. -/
def note (L : Log) (g : Record → Record) : Log :=
  match L.stack with
  | [] => L
  | i :: _ => { L with records := L.records.modify i g }

def step (L : Log) : Event → Log
  | .enter owner => ⟨L.records ++ [.fresh owner L.stack], L.size :: L.stack⟩
  | .leave => { L with stack := L.stack.tail }
  | .occur (some n) x => L.note fun r => r.met n x
  | .declareGlobal names =>
    L.note fun r => { r with globals := r.globals ++ names.filterMap Tree.str? }
  | .importsAll => L.note fun r => { r with stars := true }
  | _ => L

def run (L : Log) (es : List Event) : Log := es.foldl step L

/-! ### The rule -/

/-- Whether a name that no scope around binds is still one of the module. -/
def reachesModule (L : Log) (n : String) : Bool :=
  Scope.builtins.contains n || !((L.record 0).sites n).isEmpty || L.records.any fun r => r.declares n

/-- The scope of an occurrence of a name in a scope, where `past` are the occurrences of the name
in the scope up to this one. -/
def home (L : Log) (i : Nat) (n : String) (past : List Site) : Nat :=
  let r := L.record i
  if r.isModule then 0
  else if past.any fun x => x.tree.isParam then i
  else if r.declares n then 0
  else if r.isFunction && (r.writes n || r.params n) then i
  else if r.isClass && !past.all fun x => x.tree.isRead then i
  else match r.outer.find? fun a => (L.record a).binds n with
    | some a => a
    | none => if L.reachesModule n then 0 else i

end Log

/-- Every item of a list with those up to it. -/
def pasts {α : Type} (acc : List α) : List α → List (List α × α)
  | [] => []
  | x :: l => (acc ++ [x], x) :: pasts (acc ++ [x]) l

namespace Log

/-- The occurrences of a name that belong to a scope. -/
def ownedBy (L : Log) (j : Nat) (n : String) : List Site :=
  (List.range L.size).flatMap fun i =>
    ((pasts [] ((L.record i).sites n)).filter fun o => L.home i n o.1 = j).map Prod.snd

end Log

namespace Tree

def log (t : Tree) : Log := Log.empty.run (t.events .start)

end Tree

/-! ### The records after an event -/

namespace Log

variable {L : Log}

theorem record_eq_fresh {i : Nat} (hi : L.size ≤ i) : L.record i = .fresh .null [] := by
  rw [record, List.getD_eq_getElem?_getD, List.getElem?_eq_none hi]
  rfl

theorem record_mem {i : Nat} (hi : i < L.size) : L.record i ∈ L.records := by
  rw [record, List.getD_eq_getElem?_getD, List.getElem?_eq_getElem hi]
  exact List.getElem_mem hi

theorem note_id : L.note id = L := by
  rw [note]
  split
  · rfl
  · rw [List.modify_id]

theorem size_note (g : Record → Record) : (L.note g).size = L.size := by
  rw [note]
  split <;> simp [size]

theorem stack_note (g : Record → Record) : (L.note g).stack = L.stack := by
  rw [note]
  split <;> rfl

theorem record_note {h : Nat} {rest : List Nat} (hs : L.stack = h :: rest) (hh : h < L.size)
    (g : Record → Record) (i : Nat) :
    (L.note g).record i = if i = h then g (L.record h) else L.record i := by
  simp only [note, hs, record, List.getD_eq_getElem?_getD, List.getElem?_modify]
  have hget : L.records[h]? = some L.records[h] := List.getElem?_eq_getElem hh
  by_cases hi : i = h
  · subst hi
    simp [hget]
  · simp [hi, Ne.symm hi]

theorem record_enter (owner : Tree) (i : Nat) :
    (L.step (.enter owner)).record i = if i = L.size then .fresh owner L.stack else L.record i := by
  have hsize : L.size = L.records.length := rfl
  simp only [step, record, List.getD_eq_getElem?_getD]
  split_ifs with h
  · rw [h, hsize, List.getElem?_concat_length]
    rfl
  · by_cases hlt : i < L.records.length
    · rw [List.getElem?_append_left hlt]
    · rw [List.getElem?_eq_none (by simp; omega), List.getElem?_eq_none (by omega)]

theorem size_enter (owner : Tree) : (L.step (.enter owner)).size = L.size + 1 := by simp [step, size]

theorem run_append (L : Log) (a b : List Event) : L.run (a ++ b) = (L.run a).run b := List.foldl_append

theorem run_scope (L : Log) (owner : Tree) (es : List Event) :
    L.run (.enter owner :: es ++ [Event.leave]) = ((L.step (.enter owner)).run es).step .leave := by
  rw [run_append]
  rfl

/-! ### The scopes around a scope -/

/-- The scopes form a tree with a module at the root, around classes, functions and lambdas. -/
structure Proper (L : Log) : Prop where
  pos : 0 < L.size
  root : (L.record 0).isModule = true
  root_outer : (L.record 0).outer = []
  inner : ∀ i, 0 < i → i < L.size → (L.record i).owner.opensInner = true
  link : ∀ i, 0 < i → i < L.size → ∃ a, a < i ∧ (L.record i).outer = a :: (L.record a).outer
  top : ∀ h rest, L.stack = h :: rest → h < L.size ∧ (L.record h).outer = rest

namespace Proper

theorem lt_of_mem_outer (hL : L.Proper) :
    ∀ {i : Nat}, i < L.size → ∀ {a : Nat}, a ∈ (L.record i).outer → a < i := by
  intro i
  induction i using Nat.strongRecOn with
  | ind i ih =>
    intro hi a ha
    by_cases h0 : i = 0
    · rw [h0, hL.root_outer] at ha
      cases ha
    · obtain ⟨b, hb, ho⟩ := hL.link i (by omega) hi
      rw [ho, List.mem_cons] at ha
      rcases ha with rfl | ha
      · exact hb
      · have := ih b hb (by omega) ha
        omega

/-- The way out of a scope passes a scope around it and goes on from there. -/
theorem outer_split (hL : L.Proper) {a : Nat} :
    ∀ {i : Nat}, i < L.size → a ∈ (L.record i).outer →
      ∃ pre, (L.record i).outer = pre ++ a :: (L.record a).outer ∧
        ∀ b ∈ pre, b < L.size ∧ a ∈ (L.record b).outer := by
  intro i
  induction i using Nat.strongRecOn with
  | ind i ih =>
    intro hi ha
    by_cases h0 : i = 0
    · rw [h0, hL.root_outer] at ha
      cases ha
    · obtain ⟨b, hb, ho⟩ := hL.link i (by omega) hi
      have hbs : b < L.size := by omega
      rw [ho, List.mem_cons] at ha
      by_cases hab : a = b
      · subst hab
        exact ⟨[], ho, by simp⟩
      · have hmem := ha.resolve_left hab
        obtain ⟨pre, hpre, hbelow⟩ := ih b hb hbs hmem
        refine ⟨b :: pre, by rw [ho, hpre, List.cons_append], fun c hc => ?_⟩
        rcases List.mem_cons.mp hc with rfl | hc
        · exact ⟨hbs, hmem⟩
        · exact hbelow c hc

theorem mem_stack (hL : L.Proper) {h : Nat} {rest : List Nat} (hs : L.stack = h :: rest) {b : Nat} :
    b ∈ L.stack ↔ b = h ∨ b ∈ (L.record h).outer := by
  rw [hs, (hL.top h rest hs).2, List.mem_cons]

/-- Around an open scope all scopes are open. -/
theorem open_of_mem_outer (hL : L.Proper) {a b : Nat} (hb : b ∈ L.stack)
    (ha : a ∈ (L.record b).outer) : a ∈ L.stack := by
  rcases hs : L.stack with _ | ⟨h, rest⟩
  · rw [hs] at hb
    cases hb
  · obtain ⟨hh, -⟩ := hL.top h rest hs
    rw [← hs, hL.mem_stack hs]
    rcases (hL.mem_stack hs).mp hb with rfl | hb
    · exact Or.inr ha
    · obtain ⟨pre, hpre, -⟩ := hL.outer_split hh hb
      refine Or.inr ?_
      rw [hpre]
      exact List.mem_append_right _ (List.mem_cons_of_mem _ ha)

theorem lt_of_mem_stack (hL : L.Proper) {b : Nat} (hb : b ∈ L.stack) : b < L.size := by
  rcases hs : L.stack with _ | ⟨h, rest⟩
  · rw [hs] at hb
    cases hb
  · obtain ⟨hh, -⟩ := hL.top h rest hs
    rcases (hL.mem_stack hs).mp hb with rfl | hb
    · exact hh
    · have := hL.lt_of_mem_outer hh hb
      omega

/-- What is below the innermost scope has been left. -/
theorem not_open_below (hL : L.Proper) {h : Nat} {rest : List Nat} (hs : L.stack = h :: rest)
    {i : Nat} (hi : i < L.size) (hmem : h ∈ (L.record i).outer) : i ∉ L.stack := by
  obtain ⟨hh, -⟩ := hL.top h rest hs
  have hlt := hL.lt_of_mem_outer hi hmem
  rw [hL.mem_stack hs]
  rintro (rfl | hopen)
  · omega
  · have := hL.lt_of_mem_outer hh hopen
    omega

theorem zero_mem_outer (hL : L.Proper) : ∀ {i : Nat}, 0 < i → i < L.size → 0 ∈ (L.record i).outer := by
  intro i
  induction i using Nat.strongRecOn with
  | ind i ih =>
    intro h0 hi
    obtain ⟨a, ha, ho⟩ := hL.link i h0 hi
    rw [ho, List.mem_cons]
    by_cases ha0 : a = 0
    · exact Or.inl ha0.symm
    · exact Or.inr (ih a ha (by omega) (by omega))

end Proper

/-! ### Every event keeps the tree -/

theorem Proper.note (hL : L.Proper) {g : Record → Record} (ho : ∀ r, (g r).owner = r.owner)
    (hou : ∀ r, (g r).outer = r.outer) : (L.note g).Proper := by
  rcases hs : L.stack with _ | ⟨h, rest⟩
  · rw [Log.note, hs]
    exact hL
  · have hh := (hL.top h rest hs).1
    have howner : ∀ i, ((L.note g).record i).owner = (L.record i).owner := by
      intro i
      rw [record_note hs hh]
      split_ifs with hi
      · rw [ho, hi]
      · rfl
    have houter : ∀ i, ((L.note g).record i).outer = (L.record i).outer := by
      intro i
      rw [record_note hs hh]
      split_ifs with hi
      · rw [hou, hi]
      · rfl
    refine ⟨by rw [size_note]; exact hL.pos, ?_, by rw [houter, hL.root_outer], ?_, ?_, ?_⟩
    · rw [Record.isModule, howner]
      exact hL.root
    · intro i h0 hi
      rw [howner]
      exact hL.inner i h0 (by rwa [size_note] at hi)
    · intro i h0 hi
      simp only [houter]
      exact hL.link i h0 (by rwa [size_note] at hi)
    · intro k rest' hk
      rw [size_note, houter]
      exact hL.top k rest' (by rwa [stack_note] at hk)

theorem Proper.enter (hL : L.Proper) {owner : Tree} (ho : owner.opensInner = true)
    (hs : L.stack ≠ []) : (L.step (.enter owner)).Proper := by
  have hpos := hL.pos
  have hold : ∀ i, i < L.size → (L.step (.enter owner)).record i = L.record i := by
    intro i hi
    rw [record_enter, if_neg (by omega)]
  have hnew : (L.step (.enter owner)).record L.size = .fresh owner L.stack := by
    rw [record_enter, if_pos rfl]
  refine ⟨by rw [size_enter]; omega, ?_, ?_, ?_, ?_, ?_⟩
  · rw [hold 0 hpos]
    exact hL.root
  · rw [hold 0 hpos]
    exact hL.root_outer
  · intro i h0 hi
    rw [size_enter] at hi
    by_cases h : i = L.size
    · rw [h, hnew]
      exact ho
    · rw [hold i (by omega)]
      exact hL.inner i h0 (by omega)
  · intro i h0 hi
    rw [size_enter] at hi
    by_cases h : i = L.size
    · obtain ⟨a, rest, hs'⟩ := List.exists_cons_of_ne_nil hs
      obtain ⟨ha, hout⟩ := hL.top a rest hs'
      refine ⟨a, by omega, ?_⟩
      rw [h, hnew, hold a ha, hout]
      exact hs'
    · obtain ⟨a, ha, hout⟩ := hL.link i h0 (by omega)
      exact ⟨a, ha, by rw [hold i (by omega), hold a (by omega), hout]⟩
  · intro h rest hst
    have : L.size :: L.stack = h :: rest := hst
    cases this
    rw [size_enter, hnew]
    exact ⟨by omega, rfl⟩

theorem Proper.leave (hL : L.Proper) {h : Nat} {rest : List Nat} (hs : L.stack = h :: rest) :
    (L.step .leave).Proper := by
  refine ⟨hL.pos, hL.root, hL.root_outer, hL.inner, hL.link, ?_⟩
  intro k rest' hk
  obtain ⟨hh, hout⟩ := hL.top h rest hs
  have hrest : rest = k :: rest' := by
    have : L.stack.tail = k :: rest' := hk
    rwa [hs] at this
  have h0 : h ≠ 0 := by
    rintro rfl
    rw [hL.root_outer, hrest] at hout
    cases hout
  obtain ⟨a, ha, hlink⟩ := hL.link h (by omega) hh
  have hcons : a :: (L.record a).outer = k :: rest' := by rw [← hlink, hout, hrest]
  cases hcons
  have hsize : (L.step .leave).size = L.size := rfl
  exact ⟨by omega, rfl⟩

end Log

end ScopeLint
