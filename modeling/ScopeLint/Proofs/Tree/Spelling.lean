import ScopeLint.Proofs.Text.Quoting
import ScopeLint.Tree.Atom

/-! The texts of leaf values, with something behind them. Quoted texts and numbers in parentheses end by
themselves; all other texts are words, that is they have none of the characters at which a word ends. From
the word at the front and the character behind it one sees what kind of text it is, so two values with the
same text are of the same class, and they are the same value. Floating-point numbers count as the same when
they are written alike. -/

namespace ScopeLint

namespace Text

/-! ### The word at the front -/

/-- The characters at which a word ends. -/
def isStop (c : Char) : Bool := ['(', ')', '[', ']', ',', ' ', '\'', '"'].contains c

def IsWord (cs : List Char) : Prop := ∀ c ∈ cs, isStop c = false

def word (cs : List Char) : List Char := cs.takeWhile fun c => !isStop c

def afterWord (cs : List Char) : List Char := cs.dropWhile fun c => !isStop c

/-- A text in front of which a word ends. -/
def Stopped (cs : List Char) : Prop := ∀ c ∈ cs.head?, isStop c = true

/-- What may stand behind a value: nothing, a comma or a closing parenthesis. -/
def Closed (cs : List Char) : Prop := ∀ c ∈ cs.head?, c = ',' ∨ c = ')'

variable {w w' rest rest' u : List Char}

theorem IsWord.of_chars (h : w.any isStop = false) : IsWord w := by
  intro c hc
  simpa using List.any_eq_false.mp h c hc

theorem stopped_cons {c : Char} (h : isStop c = true) : Stopped (c :: rest) := by
  intro d hd
  cases hd
  exact h

theorem closed_cons {c : Char} (h : c = ',' ∨ c = ')') : Closed (c :: rest) := by
  intro d hd
  cases hd
  exact h

theorem Closed.stopped (h : Closed u) : Stopped u := by
  intro c hc
  obtain rfl | rfl := h c hc <;> rfl

theorem word_append (hw : IsWord w) (hrest : Stopped rest) : word (w ++ rest) = w := by
  unfold word
  rw [List.takeWhile_append_of_pos (by simpa using fun c hc => hw c hc)]
  cases rest with
  | nil => simp
  | cons c rest => simp [hrest c rfl]

theorem afterWord_append (hw : IsWord w) (hrest : Stopped rest) : afterWord (w ++ rest) = rest := by
  unfold afterWord
  rw [List.dropWhile_append_of_pos (by simpa using fun c hc => hw c hc)]
  cases rest with
  | nil => rfl
  | cons c rest => simp [hrest c rfl]

theorem IsWord.head (hw : IsWord w) : ∀ c ∈ w.head?, c ≠ ' ' ∧ c ≠ ']' := by
  intro c hc
  have hstop := hw c (List.mem_of_mem_head? hc)
  refine ⟨?_, ?_⟩ <;> rintro rfl <;> cases hstop

theorem IsWord.append_inj (hw : IsWord w) (hw' : IsWord w') (hrest : Stopped rest) (hrest' : Stopped rest')
    (h : w ++ rest = w' ++ rest') : w = w' ∧ rest = rest' := by
  refine ⟨?_, ?_⟩
  · rw [← word_append hw hrest, h, word_append hw' hrest']
  · rw [← afterWord_append hw hrest, h, afterWord_append hw' hrest']

/-- How the text of a value begins: a word alone, a number in parentheses, a quote, a quote behind a word,
a bracket, or a word before a parenthesis. -/
inductive Opening where
  | plain | group | quote | byteQuote | bracket | call
deriving DecidableEq

def opening (cs : List Char) : Opening :=
  match (afterWord cs).head? with
  | some '(' => if (word cs).isEmpty then .group else .call
  | some '[' => .bracket
  | some '\'' | some '"' => if (word cs).isEmpty then .quote else .byteQuote
  | _ => .plain

theorem opening_of_word (hw : IsWord w) (hu : Closed u) : opening (w ++ u) = .plain := by
  unfold opening
  rw [afterWord_append hw hu.stopped]
  cases u with
  | nil => rfl
  | cons c u => obtain rfl | rfl := hu c rfl <;> rfl

/-! ### Numbers -/

/-- The characters of a number. -/
def isNumeral (c : Char) : Bool := c.isDigit || ['+', '-', '.', 'e', 'i', 'n', 'f', 'a'].contains c

theorem isStop_of_isNumeral {c : Char} (h : isNumeral c = true) : isStop c = false := by
  have hstops : ['(', ')', '[', ']', ',', ' ', '\'', '"'].any isNumeral = false := by decide
  by_contra hstop
  rw [Bool.not_eq_false, isStop, List.contains_iff_mem] at hstop
  exact List.any_eq_false.mp hstops c hstop h

end Text

open Text

/-- All characters are characters of a number. -/
def Text.Numerals (cs : List Char) : Prop := ∀ c ∈ cs, isNumeral c = true

namespace Text.Numerals

variable {cs ds : List Char}

theorem of_chars (h : cs.all isNumeral = true) : Numerals cs := fun _ hc => List.all_eq_true.mp h _ hc

theorem append (hcs : Numerals cs) (hds : Numerals ds) : Numerals (cs ++ ds) :=
  List.forall_mem_append.mpr ⟨hcs, hds⟩

theorem of_subset (hds : Numerals ds) (h : cs ⊆ ds) : Numerals cs := fun _ hc => hds _ (h hc)

theorem zeros (n : Nat) : Numerals (List.replicate n '0') := by
  intro c hc
  rw [List.eq_of_mem_replicate hc]
  decide

theorem digits (n : Nat) : Numerals (Nat.toDigits 10 n) := by
  intro c hc
  simp [isNumeral, Nat.isDigit_of_mem_toDigits (by decide) (by decide) hc]

theorem isWord (h : Numerals cs) : IsWord cs := fun c hc => isStop_of_isNumeral (h c hc)

end Text.Numerals

theorem Decimal.numerals_layout (style : Layout) (d : Decimal) : Numerals (d.layout style).toList := by
  have hds := Numerals.digits d.digits
  unfold layout
  dsimp only
  split_ifs
  all_goals simp only [String.toList_append, String.toList_ofList]
  · exact .append (.of_chars (by decide)) (.append (.zeros _) hds)
  · exact .append (.append hds (.zeros _)) (.of_chars (by decide))
  · exact .append (.append hds (.zeros _)) (.of_chars (by decide))
  · exact .append (hds.of_subset (List.take_subset _ _))
      (.append (.of_chars (by decide : ['.'].all isNumeral = true)) (hds.of_subset (List.drop_subset _ _)))
  -- With an exponent, the point stands behind the first digit if there are more of them.
  all_goals
    refine .append (.append ?_ (.of_chars (by decide))) ?_
    · split
      next => exact .of_chars rfl
      next hc => exact hc ▸ hds
      next c rest _ hc =>
        rw [hc] at hds
        obtain ⟨hc, hrest⟩ := List.forall_mem_cons.mp hds
        exact List.forall_mem_cons.mpr ⟨hc, List.forall_mem_cons.mpr ⟨by decide, hrest⟩⟩
  · exact .append (.of_chars (by decide : ['0'].all isNumeral = true)) (.digits _)
  · exact .digits _
  · exact .append (.of_chars (by decide : ['0'].all isNumeral = true)) (.digits _)
  · exact .digits _

theorem Decimal.exists_mark_layout (d : Decimal) :
    ∃ c ∈ (d.layout ⟨true⟩).toList, ['.', 'e', 'n'].contains c = true := by
  unfold layout
  dsimp only
  split_ifs
  · exact ⟨'.', by simp, by decide⟩
  · exact ⟨'.', by simp, by decide⟩
  · contradiction
  · exact ⟨'.', by simp, by decide⟩
  all_goals exact ⟨'e', by simp, by decide⟩

namespace Binary64

theorem format_finite (style : Decimal.Layout) (negative : Bool) (m : Nat) (e : Int) :
    ∃ d : Decimal, ((finite negative m e).format style).toList =
      (if negative then ['-'] else []) ++ (d.layout style).toList := by
  refine ⟨if m = 0 then ⟨0, 0⟩ else Decimal.shortest m e, ?_⟩
  have hbody : (if m = 0 then (Decimal.mk 0 0).layout style else (Decimal.shortest m e).layout style) =
      Decimal.layout style (if m = 0 then ⟨0, 0⟩ else Decimal.shortest m e) := by
    split_ifs <;> rfl
  unfold format
  dsimp only
  rw [hbody]
  cases negative with
  | false => rfl
  | true => rw [if_pos rfl, if_pos rfl, String.toList_append]; rfl

theorem numerals_format (style : Decimal.Layout) : ∀ x : Binary64, Numerals (x.format style).toList
  | nan => (.of_chars (by decide) : Numerals "nan".toList)
  | infinite true => (.of_chars (by decide) : Numerals "-inf".toList)
  | infinite false => (.of_chars (by decide) : Numerals "inf".toList)
  | finite negative m e => by
    obtain ⟨d, hd⟩ := format_finite style negative m e
    rw [hd]
    exact .append (by cases negative <;> exact .of_chars (by decide)) (Decimal.numerals_layout style d)

theorem numerals_text (x : Binary64) : Numerals x.text.toList := x.numerals_format ⟨true⟩

/-- The text of a floating-point number is not that of a whole one: it has a point or an exponent, or it
is `inf` or `nan`. -/
theorem exists_mark_text : ∀ x : Binary64, ∃ c ∈ x.text.toList, ['.', 'e', 'n'].contains c = true
  | nan => ⟨'n', by decide, by decide⟩
  | infinite true => ⟨'n', by decide, by decide⟩
  | infinite false => ⟨'n', by decide, by decide⟩
  | finite negative m e => by
    obtain ⟨d, hd⟩ := format_finite ⟨true⟩ negative m e
    obtain ⟨c, hc, hmark⟩ := d.exists_mark_layout
    exact ⟨c, by rw [text, hd]; exact List.mem_append_right _ hc, hmark⟩

end Binary64

/-! ### Whole numbers -/

namespace Text

theorem isDigit_of_mem_repr {n : Nat} {c : Char} (h : c ∈ n.repr.toList) : c.isDigit = true := by
  rw [Nat.repr_eq_ofList_toDigits, String.toList_ofList] at h
  exact Nat.isDigit_of_mem_toDigits (by decide) (by decide) h

theorem repr_nat_injective {m n : Nat} (h : m.repr = n.repr) : m = n := by
  rw [Nat.repr_eq_ofList_toDigits, Nat.repr_eq_ofList_toDigits] at h
  have hvalue := congrArg (fun cs => Nat.ofDigitChars 10 cs 0) (String.ofList_injective h)
  simpa using hvalue

theorem minus_append_ne_repr {m : Nat} {s : String} : "-" ++ s ≠ m.repr := by
  intro h
  have hminus : '-' ∈ m.repr.toList := by rw [← h]; simp
  exact absurd (isDigit_of_mem_repr hminus) (by decide)

theorem toString_int_injective {m n : Int} (h : toString m = toString n) : m = n := by
  rw [Int.toString_eq_repr, Int.toString_eq_repr, Int.repr_eq_if, Int.repr_eq_if] at h
  split_ifs at h
  · have := repr_nat_injective h
    omega
  · exact absurd h.symm minus_append_ne_repr
  · exact absurd h minus_append_ne_repr
  · have := repr_nat_injective (String.append_right_inj _ |>.mp h)
    omega

theorem digit_or_minus_of_mem {n : Int} {c : Char} (h : c ∈ (toString n).toList) :
    c.isDigit = true ∨ c = '-' := by
  rw [Int.toString_eq_repr, Int.repr_eq_if] at h
  split_ifs at h
  · exact Or.inl (isDigit_of_mem_repr h)
  · rw [String.toList_append] at h
    rcases List.mem_append.mp h with h | h
    · exact Or.inr (List.mem_singleton.mp h)
    · exact Or.inl (isDigit_of_mem_repr h)

theorem numerals_toString (n : Int) : Numerals (toString n).toList := by
  intro c hc
  rcases digit_or_minus_of_mem hc with hc | rfl
  · simp [isNumeral, hc]
  · decide

end Text

/-! ### Values -/

namespace Atom

/-- The same value of the same class. Numbers with a floating point are the same when they are written in
the same way, so that `nan` is the same as itself and the two zeros are not. -/
def Alike : Atom → Atom → Prop
  | .float x, .float y => x.text = y.text
  | .complex re im, .complex re' im' => complexText re im = complexText re' im'
  | a, b => a = b

/-- How the text of a value begins. -/
def opening : Atom → Opening
  | .str _ => .quote
  | .bytes _ => .byteQuote
  | .complex re _ => if re = Binary64.zero false then .plain else .group
  | _ => .plain

variable {a b : Atom} {u v : List Char}

theorem spelling_of_alike (h : a.Alike b) : a.spelling = b.spelling := by
  unfold Alike at h
  split at h
  · exact h
  · exact h
  · rw [h]

theorem eq_spelling_of_repr {s : String} (h : a.repr = .ok s) : s = a.spelling := by
  rw [repr, unlessLong] at h
  split_ifs at h
  exact (Except.ok.inj h).symm

theorem isLong_of_le_natAbs {n : Int} (h : tenTo digitLimit ≤ n.natAbs) : (int n).isLong = true := by
  rw [isLong, decide_eq_true h]

theorem isLong_of_natAbs_le {n : Int} (h : n.natAbs ≤ digitLimit) : (int n).isLong = false := by
  have hpow (k : Nat) : k < tenTo k := Nat.lt_pow_self (by decide)
  rw [isLong, decide_eq_false (h.trans_lt (hpow digitLimit)).not_ge]

theorem numerals_complexPart (x : Binary64) : Numerals (complexPart x).toList := x.numerals_format ⟨false⟩

theorem complexText_of_zero (im : Binary64) :
    (complexText (.zero false) im).toList = (complexPart im).toList ++ ['j'] := by
  simp [complexText]

theorem complexText_of_ne {re : Binary64} (h : re ≠ .zero false) (im : Binary64) :
    ∃ body, IsWord body ∧ (complexText re im).toList = '(' :: (body ++ [')']) := by
  refine ⟨(complexPart re).toList ++ (if im.isNegative then "" else "+").toList ++ (complexPart im).toList ++ ['j'],
    ?_, ?_⟩
  · have hsign : Numerals (if im.isNegative then "" else "+").toList := by
      split_ifs <;> exact .of_chars (by decide)
    have hparts := (((numerals_complexPart re).append hsign).append (numerals_complexPart im)).isWord
    exact List.forall_mem_append.mpr ⟨hparts, IsWord.of_chars rfl⟩
  · simp [complexText, h]

theorem isWord_spelling (h : a.opening = .plain) : IsWord a.spelling.toList := by
  cases a with
  | null => exact .of_chars (by decide)
  | bool b => cases b <;> exact .of_chars (by decide)
  | int n => exact (numerals_toString n).isWord
  | float x => exact x.numerals_text.isWord
  | complex re im =>
    have hre : re = .zero false := by
      by_contra hre
      simp [opening, hre] at h
    rw [hre, spelling, complexText_of_zero]
    exact List.forall_mem_append.mpr ⟨(numerals_complexPart im).isWord, IsWord.of_chars rfl⟩
  | str s => cases h
  | bytes bs => cases h
  | ellipsis => exact .of_chars (by decide)

/-- No text of a value begins with a blank or a closing bracket. -/
theorem head_spelling (a : Atom) : ∀ c ∈ a.spelling.toList.head?, c ≠ ' ' ∧ c ≠ ']' := by
  by_cases hplain : a.opening = .plain
  · exact (isWord_spelling hplain).head
  · intro c hc
    cases a with
    | str s =>
      obtain hq | hq := isQuote_quoteFor s.toList <;> simp [spelling, quote, hq] at hc <;> subst hc <;> decide
    | bytes bs =>
      simp [spelling, quoteBytes] at hc
      subst hc
      decide
    | complex re im =>
      have hre : re ≠ .zero false := by
        intro hre
        simp [opening, hre] at hplain
      obtain ⟨body, -, hbody⟩ := complexText_of_ne hre im
      simp [spelling, hbody] at hc
      subst hc
      decide
    | _ => exact absurd rfl hplain

theorem opening_spelling_append (a : Atom) (hu : Closed u) : Text.opening (a.spelling.toList ++ u) = a.opening := by
  by_cases hplain : a.opening = .plain
  · rw [hplain, opening_of_word (isWord_spelling hplain) hu]
  · cases a with
    | str s =>
      obtain hq | hq := isQuote_quoteFor s.toList
      · simp [spelling, quote, hq, Text.opening, afterWord, word, isStop, opening]
      · simp [spelling, quote, hq, Text.opening, afterWord, word, isStop, opening]
    | bytes bs =>
      obtain hq | hq := isQuote_quoteFor (bs.map fun b => Char.ofNat b.toNat)
      · simp [spelling, quoteBytes, hq, Text.opening, afterWord, word, isStop, opening]
      · simp [spelling, quoteBytes, hq, Text.opening, afterWord, word, isStop, opening]
    | complex re im =>
      have hre : re ≠ .zero false := by
        intro hre
        simp [opening, hre] at hplain
      obtain ⟨body, -, hbody⟩ := complexText_of_ne hre im
      simp [spelling, hbody, Text.opening, afterWord, word, isStop, opening, hre]
    | _ => exact absurd rfl hplain

/-- The class of a number. -/
def classOfNumber (cs : List Char) : String :=
  if cs.contains 'j' then "complex" else if cs.any ['.', 'e', 'n'].contains then "float" else "int"

/-- The class of the value that a word stands for: it is one of the four constants or a number. -/
def classOfWord (cs : List Char) : String :=
  match cs.head? with
  | some 'N' => "NoneType"
  | some 'T' | some 'F' => "bool"
  | some 'E' => "ellipsis"
  | _ => classOfNumber cs

theorem classOfWord_of_number {cs : List Char} (h : ∀ c ∈ cs.head?, isNumeral c = true ∨ c = 'j') :
    classOfWord cs = classOfNumber cs := by
  unfold classOfWord
  split
  next hc => exact absurd (h _ hc) (by decide)
  next hc => exact absurd (h _ hc) (by decide)
  next hc => exact absurd (h _ hc) (by decide)
  next hc => exact absurd (h _ hc) (by decide)
  next => rfl

theorem classOfWord_of_numerals {cs : List Char} (h : Numerals cs) :
    classOfWord cs = if cs.any ['.', 'e', 'n'].contains then "float" else "int" := by
  have hj : cs.contains 'j' = false := by
    rw [List.contains_eq_mem, decide_eq_false_iff_not]
    exact fun hmem => absurd (h _ hmem) (by decide)
  rw [classOfWord_of_number fun c hc => Or.inl (h c (List.mem_of_mem_head? hc)), classOfNumber, hj]
  rfl

theorem classOfWord_spelling (h : a.opening = .plain) : classOfWord a.spelling.toList = a.className := by
  cases a with
  | null => decide
  | bool b => cases b <;> decide
  | int n =>
    have hmark : (toString n).toList.any ['.', 'e', 'n'].contains = false := by
      rw [List.any_eq_false]
      intro c hc hmark
      have hmarks : (['.', 'e', 'n'].any fun c => c.isDigit || c == '-') = false := by decide
      rw [List.any_eq_false] at hmarks
      exact hmarks c (List.contains_iff_mem.mp hmark) (by simpa using digit_or_minus_of_mem hc)
    rw [spelling, classOfWord_of_numerals (numerals_toString n), hmark]
    rfl
  | float x =>
    have hmark : x.text.toList.any ['.', 'e', 'n'].contains = true := List.any_eq_true.mpr x.exists_mark_text
    rw [spelling, classOfWord_of_numerals x.numerals_text, hmark]
    rfl
  | complex re im =>
    have hre : re = .zero false := by
      by_contra hre
      simp [opening, hre] at h
    rw [hre, spelling, complexText_of_zero, classOfWord_of_number, classOfNumber]
    · simp [className]
    · intro c hc
      rcases List.mem_append.mp (List.mem_of_mem_head? hc) with hc | hc
      · exact Or.inl (numerals_complexPart im c hc)
      · exact Or.inr (List.mem_singleton.mp hc)
  | str s => cases h
  | bytes bs => cases h
  | ellipsis => decide

/-- Words of the same text stand for the same value. -/
theorem alike_of_spelling_eq (ha : a.opening = .plain) (hb : b.opening = .plain) (h : a.spelling = b.spelling) :
    a.Alike b := by
  have hclass : a.className = b.className := by rw [← classOfWord_spelling ha, ← classOfWord_spelling hb, h]
  cases a <;> cases b <;> simp [className] at hclass
  case null => rfl
  case bool b c => cases b <;> cases c <;> first | rfl | exact absurd h (by decide)
  case int m n => exact congrArg Atom.int (toString_int_injective h)
  case float => exact h
  case complex => exact h
  case str => cases ha
  case bytes => cases ha
  case ellipsis => rfl

theorem eq_str_of_opening (h : a.opening = .quote) : ∃ s, a = .str s := by
  cases a with
  | str s => exact ⟨s, rfl⟩
  | complex re im =>
    rw [opening] at h
    split_ifs at h
  | _ => cases h

theorem eq_bytes_of_opening (h : a.opening = .byteQuote) : ∃ bs, a = .bytes bs := by
  cases a with
  | bytes bs => exact ⟨bs, rfl⟩
  | complex re im =>
    rw [opening] at h
    split_ifs at h
  | _ => cases h

theorem eq_complex_of_opening (h : a.opening = .group) :
    ∃ re im, re ≠ Binary64.zero false ∧ a = .complex re im := by
  cases a with
  | complex re im =>
    refine ⟨re, im, fun hre => ?_, rfl⟩
    rw [opening, if_pos hre] at h
    cases h
  | _ => cases h

theorem opening_ne_bracket (a : Atom) : a.opening ≠ .bracket := by
  cases a <;> simp only [opening, ne_eq, reduceCtorEq, not_false_eq_true]
  split_ifs <;> simp

theorem opening_ne_call (a : Atom) : a.opening ≠ .call := by
  cases a <;> simp only [opening, ne_eq, reduceCtorEq, not_false_eq_true]
  split_ifs <;> simp

/-- The text of a value tells where it ends and which value it is. -/
theorem spelling_append_inj (hu : Closed u) (hv : Closed v) (h : a.spelling.toList ++ u = b.spelling.toList ++ v) :
    a.Alike b ∧ u = v := by
  obtain ⟨o, ha, hb⟩ : ∃ o, a.opening = o ∧ b.opening = o := by
    refine ⟨a.opening, rfl, ?_⟩
    rw [← opening_spelling_append b hv, ← h, opening_spelling_append a hu]
  cases o with
  | plain =>
    obtain ⟨hspelling, huv⟩ := (isWord_spelling ha).append_inj (isWord_spelling hb) hu.stopped hv.stopped h
    exact ⟨alike_of_spelling_eq ha hb (String.toList_injective hspelling), huv⟩
  | quote =>
    obtain ⟨s, rfl⟩ := eq_str_of_opening ha
    obtain ⟨t, rfl⟩ := eq_str_of_opening hb
    obtain ⟨hst, huv⟩ := quote_append_inj h
    exact ⟨congrArg Atom.str hst, huv⟩
  | byteQuote =>
    obtain ⟨bs, rfl⟩ := eq_bytes_of_opening ha
    obtain ⟨cs, rfl⟩ := eq_bytes_of_opening hb
    obtain ⟨hbytes, huv⟩ := quoteBytes_append_inj h
    exact ⟨congrArg Atom.bytes hbytes, huv⟩
  | group =>
    obtain ⟨re, im, hre, rfl⟩ := eq_complex_of_opening ha
    obtain ⟨re', im', hre', rfl⟩ := eq_complex_of_opening hb
    obtain ⟨body, hbody, htext⟩ := complexText_of_ne hre im
    obtain ⟨body', hbody', htext'⟩ := complexText_of_ne hre' im'
    -- Both numbers end at their closing parentheses.
    have hrest : body ++ ')' :: u = body' ++ ')' :: v := by
      simpa [spelling, htext, htext'] using h
    obtain ⟨rfl, hclose⟩ := hbody.append_inj hbody' (stopped_cons (by decide)) (stopped_cons (by decide)) hrest
    exact ⟨String.toList_injective (htext.trans htext'.symm), (List.cons.inj hclose).2⟩
  | bracket => exact absurd ha a.opening_ne_bracket
  | call => exact absurd ha a.opening_ne_call

end Atom

end ScopeLint
