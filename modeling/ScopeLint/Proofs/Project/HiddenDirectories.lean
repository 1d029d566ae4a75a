import Mathlib.Algebra.Ring.Parity
import Mathlib.Data.List.Nodup
import ScopeLint.Project.Disk
import ScopeLint.Proofs.Text.Parts

/-! The program files that a walk through directories comes to. A directory whose name starts with a point
is hidden and taken out of the listing, but the next directory is then not looked at any more. So of hidden
directories in a row every second one is walked through as if it were not hidden. Each program file that
lies below no hidden directory is found once, and so is each one for which this happens at all hidden
directories on the way to it. -/

namespace ScopeLint

namespace Entry

/-! ### Listings -/

def isHidden (name : String) : Bool := name.startsWith "."

/-- The names of the directories among some entries, in their order. -/
def directoryNames (entries : List Entry) : List String :=
  entries.filterMap fun
    | .file _ _ => none
    | .directory name _ => some name

@[simp] theorem directoryNames_nil : directoryNames [] = [] := rfl

@[simp] theorem directoryNames_directory (name : String) (es rest : List Entry) :
    directoryNames (.directory name es :: rest) = name :: directoryNames rest := rfl

/-- How many hidden directories stand in a row at the end of a listing. -/
def hiddenRun (names : List String) : Nat := (names.reverse.takeWhile isHidden).length

theorem hiddenRun_append_of_hidden {name : String} (h : isHidden name = true) (names : List String) :
    hiddenRun (names ++ [name]) = hiddenRun names + 1 := by
  simp [hiddenRun, h]

theorem hiddenRun_append_of_not_hidden {name : String} (h : isHidden name = false) (names : List String) :
    hiddenRun (names ++ [name]) = 0 := by
  simp [hiddenRun, h]

theorem odd_hiddenRun_nil : false = true ↔ Odd (hiddenRun []) := by simp [hiddenRun]

/-- A directory stays in its listing, where others stand before it: if it is hidden, then it is the next one
after a hidden directory that was taken out. -/
def Kept (before : List String) (name : String) : Prop := isHidden name = true → Odd (hiddenRun before)

/-- A name of an entry is not empty and has no slash. -/
def IsPlain (name : String) : Prop := name ≠ "" ∧ '/' ∉ name.toList

instance (name : String) : Decidable (IsPlain name) := inferInstanceAs (Decidable (_ ∧ _))

/-- Entries as a directory can have them: each has a name of its own, also those below them. -/
inductive Sound : List Entry → Prop
  | nil : Sound []
  | file {name : String} {content : Option Tree} {rest : List Entry} (hname : IsPlain name)
    (hnew : ∀ e ∈ rest, e.name ≠ name) (hrest : Sound rest) : Sound (.file name content :: rest)
  | directory {name : String} {es rest : List Entry} (hname : IsPlain name)
    (hnew : ∀ e ∈ rest, e.name ≠ name) (hes : Sound es) (hrest : Sound rest) :
    Sound (.directory name es :: rest)

/-! ### Ways to program files -/

/-- There is a program file among some entries or below them. The way to it has the names of the
directories, and the name of the file at its end. -/
inductive HasProgram : List Entry → List String → Prop
  | file {entries : List Entry} {name : String} {content : Option Tree} (h : .file name content ∈ entries)
    (hname : isProgramName name = true) : HasProgram entries [name]
  | directory {entries es : List Entry} {name : String} {way : List String}
    (h : .directory name es ∈ entries) (hway : HasProgram es way) : HasProgram entries (name :: way)

/-- A way to a program file on which all directories stay in their listings. -/
inductive Reaches : List Entry → List String → Prop
  | file {entries : List Entry} {name : String} {content : Option Tree} (h : .file name content ∈ entries)
    (hname : isProgramName name = true) : Reaches entries [name]
  | directory {entries before es after : List Entry} {name : String} {way : List String}
    (h : entries = before ++ .directory name es :: after) (hkept : Kept (directoryNames before) name)
    (hway : Reaches es way) : Reaches entries (name :: way)

variable {entries es rest : List Entry} {name path : String} {content : Option Tree} {before : List String}
  {passed : Bool} {way : List String}

theorem Reaches.of_hasProgram (h : HasProgram entries way)
    (hvisible : ∀ name ∈ way.dropLast, isHidden name = false) : Reaches entries way := by
  induction h with
  | file h hname => exact .file h hname
  | @directory entries es name way h hway ih =>
    have hne : way ≠ [] := by rintro rfl; cases hway
    rw [List.dropLast_cons_of_ne_nil hne] at hvisible
    obtain ⟨before, after, hsplit⟩ := List.append_of_mem h
    refine .directory hsplit ?_ (ih fun n hn => hvisible n (List.mem_cons_of_mem _ hn))
    rw [Kept, hvisible name List.mem_cons_self]
    exact fun hhidden => absurd hhidden Bool.false_ne_true

theorem Reaches.ne_nil (h : Reaches entries way) : way ≠ [] := by
  cases h <;> exact List.cons_ne_nil _ _

theorem Reaches.hasProgram (h : Reaches entries way) : HasProgram entries way := by
  induction h with
  | file h hname => exact .file h hname
  | directory h _ _ ih => exact .directory (by rw [h]; exact List.mem_append_right _ List.mem_cons_self) ih

/-- A program file directly among the entries. -/
def Here (entries : List Entry) (way : List String) : Prop :=
  ∃ name content, .file name content ∈ entries ∧ isProgramName name = true ∧ way = [name]

theorem here_cons_file : Here (.file name content :: rest) way ↔
    (isProgramName name = true ∧ way = [name]) ∨ Here rest way := by
  simp only [Here, List.mem_cons, Entry.file.injEq]
  grind

theorem here_cons_directory : Here (.directory name es :: rest) way ↔ Here rest way := by
  simp [Here]

/-- A program file that is reached below one of the entries, which stand behind some directories. -/
def Below (before : List String) (entries : List Entry) (way : List String) : Prop :=
  ∃ earlier name es later rest, entries = earlier ++ .directory name es :: later ∧
    Kept (before ++ directoryNames earlier) name ∧ Reaches es rest ∧ way = name :: rest

theorem reaches_iff : Reaches entries way ↔ Here entries way ∨ Below [] entries way := by
  constructor
  · intro h
    cases h with
    | file h hname => exact .inl ⟨_, _, h, hname, rfl⟩
    | directory h hkept hway => exact .inr ⟨_, _, _, _, _, h, hkept, hway, rfl⟩
  · rintro (⟨name, content, h, hname, rfl⟩ | ⟨earlier, name, es, later, rest, h, hkept, hway, rfl⟩)
    · exact .file h hname
    · exact .directory h hkept hway

theorem below_cons_file : Below before (.file name content :: rest) way ↔ Below before rest way := by
  constructor
  · rintro ⟨earlier, name', es, later, way, h, hkept, hway, rfl⟩
    cases earlier with
    | nil => cases h
    | cons e earlier =>
      cases h
      exact ⟨earlier, name', es, later, way, rfl, hkept, hway, rfl⟩
  · rintro ⟨earlier, name', es, later, way, rfl, hkept, hway, rfl⟩
    exact ⟨.file name content :: earlier, name', es, later, way, rfl, hkept, hway, rfl⟩

theorem below_cons_directory : Below before (.directory name es :: rest) way ↔
    (Kept before name ∧ ∃ way', Reaches es way' ∧ way = name :: way') ∨
      Below (before ++ [name]) rest way := by
  constructor
  · rintro ⟨earlier, name', es', later, way, h, hkept, hway, rfl⟩
    cases earlier with
    | nil =>
      cases h
      rw [directoryNames_nil, List.append_nil] at hkept
      exact .inl ⟨hkept, way, hway, rfl⟩
    | cons e earlier =>
      cases h
      rw [directoryNames_directory, List.append_cons] at hkept
      exact .inr ⟨earlier, name', es', later, way, rfl, hkept, hway, rfl⟩
  · rintro (⟨hkept, way, hway, rfl⟩ | ⟨earlier, name', es', later, way, rfl, hkept, hway, rfl⟩)
    · refine ⟨[], name, es, rest, way, rfl, ?_, hway, rfl⟩
      rwa [directoryNames_nil, List.append_nil]
    · refine ⟨.directory name es :: earlier, name', es', later, way, rfl, ?_, hway, rfl⟩
      rwa [directoryNames_directory, List.append_cons]

/-! ### Found files -/

/-- Some paths are those of the ways of a kind, each of them once. -/
def Lists (path : String) (found : List String) (R : List String → Prop) : Prop :=
  ∃ ways : List (List String), ways.Nodup ∧ (∀ way, way ∈ ways ↔ R way) ∧
    found = ways.map (·.foldl Path.join path)

namespace Lists

variable {found found' : List String} {R R' : List String → Prop}

theorem nil : Lists path [] fun _ => False := ⟨[], List.nodup_nil, by simp, rfl⟩

theorem singleton (path name : String) : Lists path [Path.join path name] (· = [name]) :=
  ⟨[[name]], List.nodup_singleton _, by simp, rfl⟩

theorem congr (h : Lists path found R) (hR : ∀ way, R way ↔ R' way) : Lists path found R' := by
  obtain ⟨ways, hnodup, hmem, hfound⟩ := h
  exact ⟨ways, hnodup, fun way => (hmem way).trans (hR way), hfound⟩

theorem append (h : Lists path found R) (h' : Lists path found' R') (hdisjoint : ∀ way, R way → ¬ R' way) :
    Lists path (found ++ found') fun way => R way ∨ R' way := by
  obtain ⟨ways, hnodup, hmem, rfl⟩ := h
  obtain ⟨ways', hnodup', hmem', rfl⟩ := h'
  refine ⟨ways ++ ways', hnodup.append hnodup' fun way hway hway' => ?_, fun way => ?_,
    List.map_append.symm⟩
  · exact hdisjoint way ((hmem way).mp hway) ((hmem' way).mp hway')
  · rw [List.mem_append, hmem, hmem']

/-- What is found in a directory is found below it. -/
theorem below (h : Lists (Path.join path name) found R) :
    Lists path found fun way => ∃ way', R way' ∧ way = name :: way' := by
  obtain ⟨ways, hnodup, hmem, rfl⟩ := h
  refine ⟨ways.map (name :: ·), hnodup.map fun _ _ h => (List.cons.inj h).2, fun way => ?_, ?_⟩
  · simp [hmem, eq_comm]
  · simp [Function.comp_def]

end Lists

theorem filesHere_file (path name : String) (content : Option Tree) (rest : List Entry) :
    filesHere path (.file name content :: rest) =
      (if isProgramName name then [Path.join path name] else []) ++ filesHere path rest := by
  by_cases hname : isProgramName name <;> simp [filesHere, hname]

theorem filesHere_lists (path : String) (h : Sound entries) :
    Lists path (filesHere path entries) (Here entries) := by
  induction h with
  | nil => exact Lists.nil.congr (by simp [Here])
  | @file name content rest _ hnew _ ih =>
    rw [filesHere_file]
    split_ifs with hname
    · refine ((Lists.singleton path name).append ih ?_).congr fun way => ?_
      · rintro way rfl ⟨name', content', h, -, hway⟩
        cases hway
        exact hnew _ h rfl
      · simp [here_cons_file, hname]
    · exact ih.congr fun way => by simp [here_cons_file, hname]
  | directory _ _ _ _ _ ih => exact ih.congr fun way => here_cons_directory.symm

theorem filesBelow_directory (path : String) (passed : Bool) (name : String) (es rest : List Entry) :
    filesBelow path passed (.directory name es :: rest) =
      if !passed && isHidden name then filesBelow path true rest
      else filesHere (Path.join path name) es ++ filesBelow (Path.join path name) false es ++
        filesBelow path false rest := by
  rw [filesBelow]
  rfl

theorem lists_reaches {here below : List String} (hhere : Lists path here (Here entries))
    (hbelow : Lists path below (Below [] entries)) : Lists path (here ++ below) (Reaches entries) := by
  refine (hhere.append hbelow ?_).congr fun way => reaches_iff.symm
  rintro way ⟨name, content, -, -, rfl⟩ ⟨_, _, _, _, rest, -, -, hrest, hway⟩
  cases hway
  exact hrest.ne_nil rfl

/-- What is passed on from a directory tells again how many hidden ones end the listing up to there. -/
theorem odd_hiddenRun_append (name : String) (hpassed : passed = true ↔ Odd (hiddenRun before)) :
    (!passed && isHidden name) = true ↔ Odd (hiddenRun (before ++ [name])) := by
  cases hhidden : isHidden name with
  | true =>
    rw [hiddenRun_append_of_hidden hhidden, Nat.odd_add_one, ← hpassed]
    simp
  | false =>
    rw [hiddenRun_append_of_not_hidden hhidden]
    simp

theorem kept_iff (name : String) (hpassed : passed = true ↔ Odd (hiddenRun before)) :
    Kept before name ↔ ¬ (!passed && isHidden name) = true := by
  rw [Kept, ← hpassed]
  cases passed <;> simp

/-- Before each directory of a listing, `passed` tells whether the hidden ones directly before it are odd in
number. -/
theorem filesBelow_lists (path : String) (h : Sound entries)
    (hpassed : passed = true ↔ Odd (hiddenRun before)) :
    Lists path (filesBelow path passed entries) (Below before entries) := by
  induction h generalizing path passed before with
  | nil =>
    rw [filesBelow]
    exact Lists.nil.congr (by simp [Below])
  | file _ _ _ ih =>
    rw [filesBelow]
    exact (ih path hpassed).congr fun way => below_cons_file.symm
  | @directory name es rest _ hnew hes _ ihes ih =>
    have hkept := kept_iff name hpassed
    have hnext := odd_hiddenRun_append name hpassed
    rw [filesBelow_directory]
    split_ifs with hdrop
    · rw [hdrop] at hnext
      refine (ih path hnext).congr fun way => ?_
      rw [below_cons_directory]
      exact ⟨Or.inr, fun h => h.resolve_left fun hinside => hkept.mp hinside.1 hdrop⟩
    · rw [Bool.not_eq_true _ |>.mp hdrop] at hnext
      have hinside := lists_reaches (filesHere_lists (Path.join path name) hes)
        (ihes (Path.join path name) odd_hiddenRun_nil)
      refine (hinside.below.append (ih path hnext) ?_).congr fun way => ?_
      · -- Another directory of the listing has another name.
        rintro way ⟨way', -, rfl⟩ ⟨earlier, name', es', later, way'', rfl, -, -, hway⟩
        cases hway
        exact hnew (.directory name es') (by simp) rfl
      · simp [below_cons_directory, hkept.mpr hdrop]

/-! ### Spelled ways -/

theorem Sound.isPlain (h : Sound entries) {e : Entry} (he : e ∈ entries) : IsPlain e.name := by
  induction h with
  | nil => cases he
  | file hname _ _ ih =>
    rcases List.mem_cons.mp he with rfl | he
    · exact hname
    · exact ih he
  | directory hname _ _ _ _ ih =>
    rcases List.mem_cons.mp he with rfl | he
    · exact hname
    · exact ih he

theorem Sound.of_mem (h : Sound entries) (hmem : .directory name es ∈ entries) : Sound es := by
  induction h with
  | nil => cases hmem
  | file _ _ _ ih =>
    rcases List.mem_cons.mp hmem with heq | hmem
    · cases heq
    · exact ih hmem
  | directory _ _ hes _ _ ih =>
    rcases List.mem_cons.mp hmem with heq | hmem
    · cases heq
      exact hes
    · exact ih hmem

theorem HasProgram.isPlain (h : Sound entries) (hway : HasProgram entries way) :
    ∀ name ∈ way, IsPlain name := by
  induction hway with
  | file hmem _ => exact List.forall_mem_singleton.mpr (h.isPlain hmem)
  | directory hmem _ ih => exact List.forall_mem_cons.mpr ⟨h.isPlain hmem, ih (h.of_mem hmem)⟩

/-- A directory with the slash behind it, where it takes one. -/
def lead (directory : String) : String :=
  if directory.isEmpty ∨ directory.endsWith "/" then directory else directory ++ "/"

theorem join_of_isPlain (path : String) (h : IsPlain name) : Path.join path name = lead path ++ name := by
  have hrelative : ¬ Path.isAbsolute name := by
    rw [Path.isAbsolute, String.startsWith_string_iff]
    exact fun hfront => h.2 (hfront.subset (by simp))
  rw [Path.join, if_neg hrelative, lead]
  split_ifs <;> rfl

theorem lead_join (path : String) (h : IsPlain name) :
    lead (Path.join path name) = lead path ++ name ++ "/" := by
  rw [join_of_isPlain path h, lead, if_neg]
  rintro (hempty | hend)
  · simp [h.1] at hempty
  · rw [String.endsWith_eq_endsWith_toSlice, String.Slice.endsWith_string_iff, String.copy_toSlice,
      String.toList_append] at hend
    obtain ⟨front, hfront⟩ := hend
    have hlast : ((lead path).toList ++ name.toList).getLast? = some '/' := by simp [← hfront]
    rw [List.getLast?_append_of_ne_nil _ (by simpa using h.1)] at hlast
    exact h.2 (List.mem_of_getLast? hlast)

theorem foldl_join (path : String) (hne : way ≠ []) (hway : ∀ name ∈ way, IsPlain name) :
    way.foldl Path.join path = lead path ++ "/".intercalate way := by
  induction way generalizing path with
  | nil => exact absurd rfl hne
  | cons name way ih =>
    have hname := hway name List.mem_cons_self
    cases way with
    | nil => simp [join_of_isPlain path hname]
    | cons next way =>
      rw [List.foldl_cons, ih _ (List.cons_ne_nil _ _) fun n hn => hway n (List.mem_cons_of_mem _ hn),
        lead_join path hname, String.intercalate_cons_cons]
      simp only [String.append_assoc]

/-- Different ways are spelled differently. -/
theorem foldl_join_injective {way' : List String} (hne : way ≠ []) (hne' : way' ≠ [])
    (hway : ∀ name ∈ way, IsPlain name) (hway' : ∀ name ∈ way', IsPlain name)
    (h : way.foldl Path.join path = way'.foldl Path.join path) : way = way' := by
  rw [foldl_join path hne hway, foldl_join path hne' hway'] at h
  exact Text.intercalate_injective rfl hne hne' (fun n hn => (hway n hn).2) (fun n hn => (hway' n hn).2)
    (by simpa using h)

end Entry

namespace Disk

open Entry

variable {d : Disk} {path : String} {entries : List Entry}

/-- Of the program files below a directory, a walk finds those on whose way each hidden directory stands
behind hidden ones in a row of odd length, and finds each of them once. Among them are all on whose way no
directory is hidden. -/
theorem programFiles_eq_kept (hfind : d.find path = .directory entries) (h : Sound entries) :
    ∃ ways : List (List String), ways.Nodup ∧ (∀ way, way ∈ ways ↔ Reaches entries way) ∧
      (∀ way, HasProgram entries way → (∀ name ∈ way.dropLast, isHidden name = false) → way ∈ ways) ∧
      d.programFiles path = ways.map (·.foldl Path.join path) ∧ (d.programFiles path).Nodup := by
  obtain ⟨ways, hnodup, hmem, hfound⟩ :=
    lists_reaches (filesHere_lists path h) (filesBelow_lists path h odd_hiddenRun_nil)
  have hfiles : d.programFiles path = ways.map (·.foldl Path.join path) := by
    rw [programFiles, hfind, ← hfound]
  refine ⟨ways, hnodup, hmem, fun way hway hvisible => ?_, hfiles, ?_⟩
  · exact (hmem way).mpr (.of_hasProgram hway hvisible)
  · rw [hfiles]
    refine hnodup.map_on fun way hway way' hway' heq => ?_
    have hreach := (hmem way).mp hway
    have hreach' := (hmem way').mp hway'
    exact foldl_join_injective hreach.ne_nil hreach'.ne_nil (hreach.hasProgram.isPlain h)
      (hreach'.hasProgram.isPlain h) heq

/-- A directory in the working directory is found by its name. -/
theorem find_directory (entries : List Entry) :
    (Disk.mk "w" [.directory "p" entries]).find "p" = .directory entries := by
  have hsplit : Path.split "p" = ["p"] := by
    rw [Path.split_eq]
    decide
  rw [find, if_neg (by decide), if_neg (by decide +kernel), hsplit]
  rfl

/-- Hidden directories among others, and below another one. -/
def interleaved : List Entry :=
  [.directory ".a" [.file "one.py" none], .directory ".b" [.directory ".c" [], .file "two.py" none],
    .directory ".d" [.file "three.py" none], .file "four.py" none,
    .directory "e" [.directory ".f" [.file "five.py" none], .directory "g" [.file "six.py" none]]]

theorem sound_file {name : String} {content : Option Tree} (h : IsPlain name) :
    Sound [.file name content] :=
  .file h (by simp) .nil

theorem sound_interleaved : Sound interleaved := by
  have hb : Sound [.directory ".c" [], .file "two.py" none] :=
    .directory (by decide) (by decide) .nil (sound_file (by decide))
  have he : Sound [.directory ".f" [.file "five.py" none], .directory "g" [.file "six.py" none]] :=
    .directory (by decide) (by decide) (sound_file (by decide))
      (.directory (by decide) (by decide) (sound_file (by decide)) .nil)
  exact .directory (by decide) (by decide) (sound_file (by decide)) <|
    .directory (by decide) (by decide) hb <|
    .directory (by decide) (by decide) (sound_file (by decide)) <|
    .file (by decide) (by decide) <| .directory (by decide) (by decide) he .nil

theorem programFiles_eq_kept_interleaved :
    (Disk.mk "w" [.directory "p" interleaved]).find "p" = .directory interleaved ∧ Sound interleaved ∧
      ∃ ways : List (List String), ways.Nodup ∧ (∀ way, way ∈ ways ↔ Reaches interleaved way) ∧
        ways.map (·.foldl Path.join "p") = ["p/four.py", "p/.b/two.py", "p/e/g/six.py"] := by
  have hfiles : (Disk.mk "w" [.directory "p" interleaved]).programFiles "p" =
      ["p/four.py", "p/.b/two.py", "p/e/g/six.py"] := by
    simp only [programFiles, find_directory, interleaved, filesBelow]
    decide +kernel
  obtain ⟨ways, hnodup, hmem, -, heq, -⟩ :=
    programFiles_eq_kept (find_directory interleaved) sound_interleaved
  exact ⟨find_directory interleaved, sound_interleaved, ways, hnodup, hmem, heq.symm.trans hfiles⟩

/-- A program file below the second of two hidden directories is found. -/
theorem programFiles_second_hidden :
    isHidden ".b" = true ∧
      (Disk.mk "w" [.directory "p" [.directory ".a" [.file "x.py" none],
        .directory ".b" [.file "y.py" none]]]).programFiles "p" = ["p/.b/y.py"] := by
  simp only [programFiles, find_directory, filesBelow]
  decide +kernel

end Disk

end ScopeLint
