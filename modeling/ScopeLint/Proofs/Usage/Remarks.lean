import Mathlib.Data.List.Forall2
import ScopeLint.Proofs.Fault
import ScopeLint.Proofs.Scope.Change
import ScopeLint.Usage.Local

/-! What the check of names within files prints, entry by entry. The lines that are printed while an
entry of a scope is checked are a remark on it. Among them is at most one that calls the name undefined,
and it is there when all occurrences in the entry are uses and the scope cannot know the name. Among them
is at most one that calls the name unused, and it is there when all occurrences are writes and nothing
excuses that. -/

namespace ScopeLint

namespace Run

variable {α : Type} {σ σ' : Session}

theorem lift_ok {e : Except Fault α} {a : α} (h : (lift e).run σ = (.ok a, σ')) :
    e = .ok a ∧ σ' = σ := by
  cases e with
  | error fault => cases h
  | ok b =>
    cases h
    exact ⟨rfl, rfl⟩

theorem firstOf_ok {sites : List Site} {x : Site} (h : (firstOf sites).run σ = (.ok x, σ')) :
    (∃ rest, sites = x :: rest) ∧ σ' = σ := by
  cases sites with
  | nil => cases h
  | cons y rest =>
    cases h
    exact ⟨⟨rest, rfl⟩, rfl⟩

/-- A session with some more warnings among its lines. -/
def Warns (σ σ' : Session) : Prop :=
  ∃ more, σ'.lines = σ.lines ++ more ∧ ∀ line ∈ more, line = Exports.warning

theorem Warns.refl (σ : Session) : Warns σ σ := ⟨[], (List.append_nil _).symm, fun _ h => nomatch h⟩

/-- The exports of a scope are found without marking anything, and with nothing printed but the warning. -/
theorem exports_ok {package : String} {i : Nat} {s : Scope} {v : Option Literal}
    (h : (Run.exports package i s).run σ = (.ok v, σ')) :
    (∃ e, s.exports = .ok e ∧ e.value = v) ∧ Warns σ σ' ∧ σ'.used = σ.used := by
  obtain ⟨e, σ₁, he, h₁⟩ := run_bind_ok h
  obtain ⟨hexports, rfl⟩ := lift_ok he
  obtain ⟨τ, σ₂, hget, h₂⟩ := run_bind_ok h₁
  cases hget
  split at h₂
  · obtain ⟨u, σ₃, hprint, h₃⟩ := run_bind_ok h₂
    cases hprint
    cases h₃
    exact ⟨⟨e, hexports, rfl⟩, ⟨[Exports.warning], rfl, fun line hline => List.mem_singleton.mp hline⟩, rfl⟩
  · cases h₂
    exact ⟨⟨e, hexports, rfl⟩, .refl _, rfl⟩

end Run

namespace Usage

variable {σ σ' : Session} {file : SourceFile} {f : Forest} {i : Nat} {s : Scope} {name : String}
  {sites : List Site}

/-! ### Names that are only written -/

theorem eq_of_allWrites {b : Bool} (h : allWrites sites = .ok b) :
    b = sites.all fun x => x.tree.writes := by
  induction sites with
  | nil =>
    cases h
    rfl
  | cons x sites ih =>
    obtain ⟨w, hw, h⟩ := except_bind_ok h
    have hwrites : x.tree.writes = w := by rw [Tree.writes, hw]
    rw [List.all_cons, hwrites]
    cases w with
    | true => exact ih h
    | false =>
      cases h
      rfl

/-- Whether an unused name is let pass, where the exports of its scope can be told. -/
def isExcused (s : Scope) (name : String) (first : Site) : Bool :=
  name = "_" || (s.isModule && Text.isDunder name) ||
    (s.exports.toOption.any fun e => match e.value with
      | some l => (literalContains name l).toOption.getD false
      | none => !name.startsWith "_" && !first.tree.isImport) ||
    first.tree.isParam

theorem excused_ok {package : String} {first : Site} {b : Bool}
    (h : (excused package i s name first).run σ = (.ok b, σ')) :
    b = isExcused s name first ∧ Run.Warns σ σ' := by
  unfold excused at h
  unfold isExcused
  split at h
  next hpass =>
    cases h
    rw [hpass]
    exact ⟨rfl, .refl _⟩
  next hpass =>
    rw [Bool.not_eq_true] at hpass
    obtain ⟨v, σ₁, hv, h₁⟩ := run_bind_ok h
    obtain ⟨⟨e, he, hvalue⟩, hwarns, -⟩ := Run.exports_ok hv
    rw [hpass, he]
    simp only [Except.toOption, Option.any_some, hvalue, Bool.false_or]
    cases v with
    | some l =>
      obtain ⟨c, σ₂, hc, h₂⟩ := run_bind_ok h₁
      obtain ⟨hcontains, rfl⟩ := Run.lift_ok hc
      simp only [hcontains, Option.getD_some]
      cases c with
      | true =>
        cases h₂
        exact ⟨rfl, hwarns⟩
      | false =>
        cases h₂
        exact ⟨rfl, hwarns⟩
    | none =>
      cases hpublic : (!name.startsWith "_" && !first.tree.isImport) with
      | true =>
        simp only [hpublic, if_true] at h₁
        cases h₁
        exact ⟨rfl, hwarns⟩
      | false =>
        simp only [hpublic, Bool.false_eq_true, if_false] at h₁
        cases h₁
        exact ⟨rfl, hwarns⟩

/-! ### The two reports on a name -/

def undefinedLine (file : SourceFile) (place name : String) : String :=
  file.filename ++ ":" ++ place ++ ": undefined variable " ++ name

def unusedLine (file : SourceFile) (place role name : String) : String :=
  file.filename ++ ":" ++ place ++ ": " ++ role ++ " " ++ name ++ " is never used"

/-- Whether a scope only uses a name that it cannot know. -/
def isUndefined (f : Forest) (i : Nat) (s : Scope) (name : String) (sites : List Site) : Bool :=
  sites.all (fun t => t.tree.isUse) && !s.isGlobal name && !f.seesStars i

/-- Whether a scope that is no class only writes a name, and nothing excuses that. -/
def isUnused (s : Scope) (name : String) : List Site → Bool
  | [] => false
  | first :: rest =>
    !s.isClass && ((first :: rest).all fun x => x.tree.writes) && !isExcused s name first

def checkUnused (file : SourceFile) (i : Nat) (s : Scope) (name : String) (sites : List Site)
    (first : Site) : Run Unit := do
  if !s.isClass then
    if ← Run.lift (allWrites sites) then
      unless ← excused file.package i s name first do
        Run.print (unusedLine file (← Run.lift first.tree.placeText) first.tree.role name)

theorem checkName_eq : checkName file f i s name sites = (do
    let first ← Run.firstOf sites
    if isUndefined f i s name sites then
      let place ← Run.lift first.tree.placeText
      Run.print (undefinedLine file place name)
      checkUnused file i s name sites first
    else checkUnused file i s name sites first) := rfl

/-- The lines that tell of a name, where it is undefined or not, and unused or not. -/
inductive Told (file : SourceFile) (name : String) (first : Site) (undefined unused : Bool) :
    List String → Prop
  | intro {place : String} {warned : List String}
    (hplace : undefined = true ∨ unused = true → first.tree.placeText = .ok place)
    (hwarned : ∀ line ∈ warned, line = Exports.warning) :
    Told file name first undefined unused
      ((if undefined then [undefinedLine file place name] else []) ++ warned ++
        if unused then [unusedLine file place first.tree.role name] else [])

theorem checkUnused_ok {first : Site} {rest : List Site} {u : Unit}
    (h : (checkUnused file i s name (first :: rest) first).run σ = (.ok u, σ')) :
    ∃ more, σ'.lines = σ.lines ++ more ∧
      Told file name first false (isUnused s name (first :: rest)) more := by
  unfold checkUnused at h
  rw [isUnused]
  have hnone (hw : Run.Warns σ σ') :
      ∃ more, σ'.lines = σ.lines ++ more ∧ Told file name first false false more := by
    obtain ⟨warned, hlines, hwarned⟩ := hw
    have htold := @Told.intro file name first false false "" warned (by simp) hwarned
    exact ⟨warned, hlines, by simpa using htold⟩
  cases hclass : s.isClass with
  | true =>
    simp only [hclass, Bool.not_true, Bool.false_eq_true, if_false] at h
    cases h
    exact hnone (.refl _)
  | false =>
    simp only [hclass, Bool.not_false, if_true] at h
    obtain ⟨w, σ₁, hw, h₁⟩ := run_bind_ok h
    obtain ⟨hwrites, rfl⟩ := Run.lift_ok hw
    rw [← eq_of_allWrites hwrites]
    cases w with
    | false =>
      cases h₁
      exact hnone (.refl _)
    | true =>
      obtain ⟨e, σ₂, he, h₂⟩ := run_bind_ok h₁
      obtain ⟨he, hwarns⟩ := excused_ok he
      rw [← he]
      cases e with
      | true =>
        cases h₂
        exact hnone hwarns
      | false =>
        obtain ⟨place, σ₃, hlift, h₃⟩ := run_bind_ok h₂
        obtain ⟨hplace, rfl⟩ := Run.lift_ok hlift
        obtain ⟨warned, hlines, hwarned⟩ := hwarns
        cases h₃
        refine ⟨_, ?_, .intro (fun _ => hplace) hwarned⟩
        simp [hlines]

/-- A check of a name tells whether it is undefined and whether it is unused. -/
theorem checkName_ok {u : Unit} (h : (checkName file f i s name sites).run σ = (.ok u, σ')) :
    ∃ first rest more, sites = first :: rest ∧ σ'.lines = σ.lines ++ more ∧
      Told file name first (isUndefined f i s name sites) (isUnused s name sites) more := by
  rw [checkName_eq] at h
  obtain ⟨first, σ₁, hfirst, h₁⟩ := run_bind_ok h
  obtain ⟨⟨rest, rfl⟩, rfl⟩ := Run.firstOf_ok hfirst
  cases hu : isUndefined f i s name (first :: rest) with
  | true =>
    rw [if_pos hu] at h₁
    obtain ⟨place, σ₂, hlift, h₂⟩ := run_bind_ok h₁
    obtain ⟨hplace, rfl⟩ := Run.lift_ok hlift
    obtain ⟨v, σ₃, hprint, h₃⟩ := run_bind_ok h₂
    cases hprint
    obtain ⟨-, hlines, @⟨place', warned, hplace', hwarned⟩⟩ := checkUnused_ok h₃
    cases hunused : isUnused s name (first :: rest) with
    | true =>
      obtain rfl : place' = place := Except.ok.inj ((hplace' (Or.inr hunused)).symm.trans hplace)
      refine ⟨first, rest, _, rfl, ?_, .intro (fun _ => hplace) hwarned⟩
      simpa [hunused] using hlines
    | false =>
      refine ⟨first, rest, _, rfl, ?_, .intro (fun _ => hplace) hwarned⟩
      simpa [hunused] using hlines
  | false =>
    rw [if_neg (by rw [hu]; exact Bool.false_ne_true)] at h₁
    obtain ⟨more, hlines, htold⟩ := checkUnused_ok h₁
    exact ⟨first, rest, more, rfl, hlines, htold⟩

/-! ### Telling the lines apart -/

/-- The line that calls a name undefined, at the place of its first occurrence. -/
def undefinedLine? (file : SourceFile) (name : String) : List Site → Option String
  | [] => none
  | first :: _ => first.tree.placeText.toOption.map fun place => undefinedLine file place name

theorem undefinedLine?_cons {first : Site} {rest : List Site} {place : String}
    (h : first.tree.placeText = .ok place) :
    undefinedLine? file name (first :: rest) = some (undefinedLine file place name) := by
  rw [undefinedLine?, h]
  rfl

/-- Whether a line calls a name unused. -/
def isUnusedLine (name line : String) : Bool :=
  (" " ++ name ++ " is never used").toList.isSuffixOf line.toList

theorem isUnusedLine_unusedLine (file : SourceFile) (place role name : String) :
    isUnusedLine name (unusedLine file place role name) = true := by
  rw [isUnusedLine, List.isSuffixOf_iff_suffix]
  exact ⟨(file.filename ++ ":" ++ place ++ ": " ++ role).toList, by simp [unusedLine]⟩

/-- The two ends of a line are equally long and start differently. -/
theorem isUnusedLine_undefinedLine (file : SourceFile) (place name : String) :
    isUnusedLine name (undefinedLine file place name) = false := by
  rw [Bool.eq_false_iff, isUnusedLine, ne_eq, List.isSuffixOf_iff_suffix]
  rintro ⟨front, hfront⟩
  have hline : (undefinedLine file place name).toList =
      (file.filename ++ ":" ++ place ++ ": unde").toList ++ ("fined variable " ++ name).toList := by
    simp [undefinedLine]
  rw [hline] at hfront
  have hlength : (" " ++ name ++ " is never used").toList.length =
      ("fined variable " ++ name).toList.length := by
    simp
  have hend := (List.append_inj' hfront hlength).2
  simp at hend

theorem isUnusedLine_warning (name : String) : isUnusedLine name Exports.warning = false := by
  rw [Bool.eq_false_iff, isUnusedLine, ne_eq, List.isSuffixOf_iff_suffix]
  rintro ⟨front, hfront⟩
  have hend : (" " ++ name ++ " is never used").toList =
      (" " ++ name ++ " is never use").toList ++ ['d'] := by simp
  rw [hend, ← List.append_assoc] at hfront
  have hlast := congrArg List.getLast? hfront
  rw [List.getLast?_concat] at hlast
  revert hlast
  decide

theorem warning_ne_undefinedLine (file : SourceFile) (place name : String) :
    Exports.warning ≠ undefinedLine file place name := by
  intro h
  have hmem : 'u' ∈ Exports.warning.toList := by
    rw [h]
    simp [undefinedLine]
  revert hmem
  decide

theorem unusedLine_ne_undefinedLine (file : SourceFile) (place place' role name : String) :
    unusedLine file place role name ≠ undefinedLine file place' name := by
  intro h
  have hunused := isUnusedLine_unusedLine file place role name
  rw [h, isUnusedLine_undefinedLine] at hunused
  cases hunused

namespace Told

variable {first : Site} {undefined unused : Bool} {lines : List String}

theorem countP_undefined (h : Told file name first undefined unused lines) (rest : List Site) :
    lines.countP (fun line => undefinedLine? file name (first :: rest) = some line) =
      if undefined then 1 else 0 := by
  obtain @⟨place, warned, hplace, hwarned⟩ := h
  have hnone : warned.countP (fun line => undefinedLine? file name (first :: rest) = some line) = 0 := by
    rw [List.countP_eq_zero]
    intro line hline heq
    rw [hwarned line hline, decide_eq_true_eq] at heq
    obtain ⟨place, -, hwarning⟩ := Option.map_eq_some_iff.mp heq
    exact warning_ne_undefinedLine _ _ _ hwarning.symm
  rw [List.countP_append, List.countP_append, hnone]
  by_cases hreported : undefined = true ∨ unused = true
  · have hline : undefinedLine? file name (first :: rest) = some (undefinedLine file place name) :=
      undefinedLine?_cons (hplace hreported)
    have hne := (unusedLine_ne_undefinedLine file place place first.tree.role name).symm
    cases undefined <;> cases unused <;> simp [hline, hne]
  · obtain ⟨hundefined, hunused⟩ := not_or.mp hreported
    simp [hundefined, hunused]

theorem countP_unused (h : Told file name first undefined unused lines) :
    lines.countP (isUnusedLine name) = if unused then 1 else 0 := by
  obtain @⟨place, warned, -, hwarned⟩ := h
  have hnone : warned.countP (isUnusedLine name) = 0 := by
    rw [List.countP_eq_zero]
    intro line hline
    rw [hwarned line hline, isUnusedLine_warning]
    exact Bool.false_ne_true
  rw [List.countP_append, List.countP_append, hnone]
  cases undefined <;> cases unused <;> simp [isUnusedLine_unusedLine, isUnusedLine_undefinedLine]

end Told

/-! ### The reports of a run -/

/-- An entry of a scope: the number of the scope, a name, and the occurrences of it. -/
abbrev Entry := Nat × Atom × List Site

def checkEntry (file : SourceFile) (f : Forest) (e : Entry) : Run Unit :=
  match f.scope? e.1, e.2.1 with
  | some s, .str name => checkName file f e.1 s name e.2.2
  | _, _ => discard (Run.firstOf e.2.2)

theorem checkFile_eq : checkFile file = (do
    let f ← Run.lift file.scopes
    (f.entries 0).forM (checkEntry file f)) := rfl

/-- What was printed while an entry was checked. -/
structure Remark where
  entry : Entry
  lines : List String

/-- The remarks of a check of entries that starts in a session. -/
def remarks (file : SourceFile) (f : Forest) : List Entry → Session → List Remark
  | [], _ => []
  | e :: rest, σ =>
    let after := ((checkEntry file f e).run σ).2
    ⟨e, after.lines.drop σ.lines.length⟩ :: remarks file f rest after

/-- Those of the lines that call a name of a scope undefined. -/
def Remark.undefined (file : SourceFile) (i : Nat) (n : String) (r : Remark) : List String :=
  if r.entry.1 = i ∧ r.entry.2.1 = .str n then
    r.lines.filter fun line => undefinedLine? file n r.entry.2.2 = some line
  else []

/-- Those of the lines that call a name of a scope unused. -/
def Remark.unused (i : Nat) (n : String) (r : Remark) : List String :=
  if r.entry.1 = i ∧ r.entry.2.1 = .str n then r.lines.filter (isUnusedLine n) else []

/-- The lines that call a name of a scope undefined, among those of several remarks. -/
def reports (file : SourceFile) (rs : List Remark) (i : Nat) (n : String) : List String :=
  rs.flatMap (Remark.undefined file i n)

/-- The lines that call a name of a scope unused, among those of several remarks. -/
def unusedLines (rs : List Remark) (i : Nat) (n : String) : List String :=
  rs.flatMap (Remark.unused i n)

/-- Whether an entry is that of a name in a scope, and the name is undefined there. -/
def Entry.isUndefined (f : Forest) (i : Nat) (n : String) (e : Entry) : Bool :=
  e.1 = i && e.2.1 = .str n && (f.scope? i).any fun s => Usage.isUndefined f i s n e.2.2

/-- Whether an entry is that of a name in a scope, and the name is unused there. -/
def Entry.isUnused (f : Forest) (i : Nat) (n : String) (e : Entry) : Bool :=
  e.1 = i && e.2.1 = .str n && (f.scope? i).any fun s => Usage.isUnused s n e.2.2

/-- The lines of a remark tell of the name in its entry, and of no other one. -/
structure Remark.Tells (file : SourceFile) (f : Forest) (r : Remark) : Prop where
  undefined : ∀ i n, (r.undefined file i n).length = if r.entry.isUndefined f i n then 1 else 0
  unused : ∀ i n, (r.unused i n).length = if r.entry.isUnused f i n then 1 else 0

/-- Lines of one kind, for a name in a scope. They are counted where the entry is that of the name. -/
theorem length_filter_of_entry {e : Entry} {lines : List String} {n : String} {keep : String → Bool}
    {test : Scope → Bool} (hcount : ∀ s, e.1 = i → e.2.1 = .str n → f.scope? i = some s →
      lines.countP keep = if test s then 1 else 0) (hnone : f.scope? e.1 = none → lines = []) :
    (if e.1 = i ∧ e.2.1 = .str n then lines.filter keep else []).length =
      if e.1 = i && e.2.1 = .str n && (f.scope? i).any test then 1 else 0 := by
  by_cases hkey : e.1 = i ∧ e.2.1 = .str n
  · obtain ⟨rfl, hname⟩ := hkey
    rw [if_pos ⟨rfl, hname⟩, ← List.countP_eq_length_filter]
    cases hs : f.scope? e.1 with
    | none => simp [hnone hs]
    | some s => simpa [hname] using hcount s rfl hname hs
  · have hfalse : (e.1 = i && e.2.1 = .str n && (f.scope? i).any test) = false := by grind
    rw [if_neg hkey, hfalse]
    rfl

/-- A check of an entry that completes adds its lines behind those that are there, and among them the
reports that its name is undefined or unused, once if it is. -/
theorem checkEntry_ok {e : Entry} {u : Unit} (h : (checkEntry file f e).run σ = (.ok u, σ')) :
    e.2.2 ≠ [] ∧ ∃ more, σ'.lines = σ.lines ++ more ∧ Remark.Tells file f ⟨e, more⟩ := by
  obtain ⟨j, a, sites⟩ := e
  unfold checkEntry at h
  split at h
  next s name hs ha =>
    dsimp only at hs ha h
    subst ha
    obtain ⟨first, rest, more, rfl, hlines, htold⟩ := checkName_ok h
    refine ⟨List.cons_ne_nil _ _, more, hlines, fun i n => ?_, fun i n => ?_⟩
    · refine length_filter_of_entry ?_ fun hnone => by cases hs.symm.trans hnone
      rintro s' rfl hn hs'
      cases hn
      cases hs.symm.trans hs'
      exact htold.countP_undefined rest
    · refine length_filter_of_entry ?_ fun hnone => by cases hs.symm.trans hnone
      rintro s' rfl hn hs'
      cases hn
      cases hs.symm.trans hs'
      exact htold.countP_unused
  next hno =>
    obtain ⟨first, σ₁, hfirst, h₁⟩ := run_bind_ok h
    obtain ⟨⟨rest, hsites⟩, rfl⟩ := Run.firstOf_ok hfirst
    cases h₁
    refine ⟨by rw [hsites]; exact List.cons_ne_nil _ _, [], (List.append_nil _).symm, fun i n => ?_,
      fun i n => ?_⟩
    · refine length_filter_of_entry ?_ fun _ => rfl
      rintro s rfl rfl hs
      exact absurd rfl (hno s n hs)
    · refine length_filter_of_entry ?_ fun _ => rfl
      rintro s rfl rfl hs
      exact absurd rfl (hno s n hs)

/-- The remarks tell all that a check of entries found: each entry has occurrences, and a name that is
undefined or unused in a scope is reported once for each entry of it. -/
structure Tells (file : SourceFile) (f : Forest) (es : List Entry) (rs : List Remark) : Prop where
  sites : ∀ e ∈ es, e.2.2 ≠ []
  undefined : ∀ i n, (reports file rs i n).length = es.countP (Entry.isUndefined f i n)
  unused : ∀ i n, (unusedLines rs i n).length = es.countP (Entry.isUnused f i n)

theorem checkEntries_ok {es : List Entry} {u : Unit}
    (h : (es.forM (checkEntry file f)).run σ = (.ok u, σ')) :
    σ'.lines = σ.lines ++ (remarks file f es σ).flatMap Remark.lines ∧
      Tells file f es (remarks file f es σ) := by
  induction es generalizing σ with
  | nil =>
    cases h
    exact ⟨(List.append_nil _).symm, (fun _ h => nomatch h), fun _ _ => rfl, fun _ _ => rfl⟩
  | cons e es ih =>
    obtain ⟨v, mid, he, hes⟩ := run_bind_ok h
    obtain ⟨hne, more, hlines, htells⟩ := checkEntry_ok he
    obtain ⟨hrest, hall, hundefined, hunused⟩ := ih hes
    have hremarks : remarks file f (e :: es) σ = ⟨e, more⟩ :: remarks file f es mid := by
      rw [remarks, he]
      simp [hlines]
    rw [hremarks]
    refine ⟨by rw [hrest, hlines, List.flatMap_cons, List.append_assoc], ?_, fun i n => ?_, fun i n => ?_⟩
    · exact List.forall_mem_cons.mpr ⟨hne, hall⟩
    · rw [reports, List.flatMap_cons, List.length_append, htells.undefined, List.countP_cons, Nat.add_comm]
      congr 1
      exact hundefined i n
    · rw [unusedLines, List.flatMap_cons, List.length_append, htells.unused, List.countP_cons,
        Nat.add_comm]
      congr 1
      exact hunused i n

/-- The remarks of a check of a file that starts in a session. -/
def fileRemarks (file : SourceFile) (σ : Session) : List Remark :=
  match file.scopes with
  | .ok f => remarks file f (f.entries 0) σ
  | .error _ => []

/-- The remarks of a check of files, file by file. -/
def localRemarks : List (String × SourceFile) → Session → List (List Remark)
  | [], _ => []
  | p :: rest, σ => fileRemarks p.2 σ :: localRemarks rest ((checkFile p.2).run σ).2

theorem checkFile_ok {u : Unit} (h : (checkFile file).run σ = (.ok u, σ')) :
    σ'.lines = σ.lines ++ (fileRemarks file σ).flatMap Remark.lines ∧
      ∃ f, file.scopes = .ok f ∧ Tells file f (f.entries 0) (fileRemarks file σ) := by
  rw [checkFile_eq] at h
  obtain ⟨f, σ₁, hf, h₁⟩ := run_bind_ok h
  obtain ⟨hscopes, rfl⟩ := Run.lift_ok hf
  obtain ⟨hlines, htells⟩ := checkEntries_ok h₁
  rw [fileRemarks, hscopes]
  exact ⟨hlines, f, rfl, htells⟩

/-- A check of files that completes prints its remarks and nothing else, and they tell all that it
found in each of the files. -/
theorem checkFiles_ok {files : List (String × SourceFile)} {u : Unit}
    (h : (files.forM fun p => checkFile p.2).run σ = (.ok u, σ')) :
    σ'.lines = σ.lines ++ (localRemarks files σ).flatMap (·.flatMap Remark.lines) ∧
      List.Forall₂ (fun p rs => ∃ f, p.2.scopes = .ok f ∧ Tells p.2 f (f.entries 0) rs) files
        (localRemarks files σ) := by
  induction files generalizing σ with
  | nil =>
    cases h
    exact ⟨(List.append_nil _).symm, .nil⟩
  | cons p files ih =>
    obtain ⟨v, mid, hp, hfiles⟩ := run_bind_ok h
    obtain ⟨hlines, htells⟩ := checkFile_ok hp
    obtain ⟨hrest, hall⟩ := ih hfiles
    rw [localRemarks, hp]
    exact ⟨by rw [hrest, hlines, List.flatMap_cons, List.append_assoc], .cons htells hall⟩

end Usage

end ScopeLint
