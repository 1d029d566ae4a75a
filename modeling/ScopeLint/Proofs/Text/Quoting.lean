import Mathlib.Data.List.Basic
import Mathlib.Data.Nat.Digits.Defs
import ScopeLint.Text.Quoted

/-! Quoted text can be read back. Every character of a quoted text is read off from its escape, whatever
comes behind it, and no escape begins with the quote. So the closing quote is found, and two quoted texts
are the same, each with anything behind it, only where what they quote is the same. -/

namespace ScopeLint.Text

/-! ### Reading an escape -/

def hexValue (c : Char) : Nat :=
  if c.toNat < 'a'.toNat then c.toNat - '0'.toNat else c.toNat - 'a'.toNat + 10

def readHex (cs : List Char) : Nat := cs.foldl (fun n c => 16 * n + hexValue c) 0

/-- The first character of escaped text, and the rest of the text. -/
def unescape : List Char → Option (Char × List Char)
  | '\\' :: 'n' :: rest => some ('\n', rest)
  | '\\' :: 'r' :: rest => some ('\r', rest)
  | '\\' :: 't' :: rest => some ('\t', rest)
  | '\\' :: 'x' :: rest => some (Char.ofNat (readHex (rest.take 2)), rest.drop 2)
  | '\\' :: 'u' :: rest => some (Char.ofNat (readHex (rest.take 4)), rest.drop 4)
  | '\\' :: 'U' :: rest => some (Char.ofNat (readHex (rest.take 8)), rest.drop 8)
  | '\\' :: c :: rest => some (c, rest)
  | c :: rest => some (c, rest)
  | [] => none

theorem hexValue_hexDigit : ∀ n < 16, hexValue (hexDigit n) = n := by decide

theorem length_hex (width n : Nat) : (hex width n).length = width := by
  induction width generalizing n with
  | zero => rfl
  | succ width ih => rw [hex, List.length_append, ih, List.length_singleton]

theorem readHex_hex (width n : Nat) : readHex (hex width n) = n % 16 ^ width := by
  induction width generalizing n with
  | zero => rw [pow_zero, Nat.mod_one]; rfl
  | succ width ih =>
    have hlast : hexValue (hexDigit (n % 16)) = n % 16 := hexValue_hexDigit _ (Nat.mod_lt _ (by decide))
    have hfront : readHex (hex width (n / 16) ++ [hexDigit (n % 16)]) =
        16 * readHex (hex width (n / 16)) + hexValue (hexDigit (n % 16)) := by
      simp [readHex]
    rw [hex, hfront, ih, hlast, pow_succ', Nat.mod_mul]
    omega

theorem take_hex (width n : Nat) (rest : List Char) : (hex width n ++ rest).take width = hex width n := by
  rw [List.take_append_of_le_length (length_hex width n).ge, List.take_of_length_le (length_hex width n).le]

theorem drop_hex (width n : Nat) (rest : List Char) : (hex width n ++ rest).drop width = rest := by
  simp [length_hex]

theorem ofNat_readHex {width n : Nat} (h : n < 16 ^ width) (rest : List Char) :
    (Char.ofNat (readHex ((hex width n ++ rest).take width)), (hex width n ++ rest).drop width) =
      (Char.ofNat n, rest) := by
  rw [take_hex, drop_hex, readHex_hex, Nat.mod_eq_of_lt h]

theorem unescape_plain {c : Char} (h : c ≠ '\\') (rest : List Char) : unescape (c :: rest) = some (c, rest) := by
  unfold unescape
  split <;> simp_all

variable {quote : Char}

/-- The quotes that stand around a text. -/
def IsQuote (c : Char) : Prop := c = '\'' ∨ c = '"'

theorem isQuote_quoteFor (cs : List Char) : IsQuote (quoteFor cs) := by
  unfold quoteFor IsQuote
  split_ifs
  · exact Or.inr rfl
  · exact Or.inl rfl

theorem unescape_escapeChar (hq : IsQuote quote) (c : Char) (rest : List Char) :
    unescape (escapeChar quote c ++ rest) = some (c, rest) := by
  have hc : c.toNat < 16 ^ 8 := c.val.toNat_lt
  unfold escapeChar
  split_ifs with hself hn hr ht hprint hx hu
  · -- The backslash and the quote stand for themselves behind a backslash.
    obtain rfl | rfl := hself
    · rfl
    · obtain rfl | rfl := hq <;> rfl
  · rw [hn]; rfl
  · rw [hr]; rfl
  · rw [ht]; rfl
  · exact unescape_plain (fun h => hself (Or.inl h)) rest
  · exact congrArg some ((ofNat_readHex hx rest).trans (by rw [Char.ofNat_toNat]))
  · exact congrArg some ((ofNat_readHex hu rest).trans (by rw [Char.ofNat_toNat]))
  · exact congrArg some ((ofNat_readHex hc rest).trans (by rw [Char.ofNat_toNat]))

theorem toNat_ofNat {n : Nat} (h : n < 256) : (Char.ofNat n).toNat = n := by
  rw [Char.ofNat, dif_pos (Or.inl (by omega))]
  rfl

theorem unescape_escapeByte (hq : IsQuote quote) (b : UInt8) (rest : List Char) :
    unescape (escapeByte quote b ++ rest) = some (Char.ofNat b.toNat, rest) := by
  unfold escapeByte
  split_ifs
  · exact unescape_escapeChar hq _ rest
  · exact congrArg some (ofNat_readHex b.toNat_lt rest)

/-! ### The closing quote -/

theorem head_escapeChar (hq : IsQuote quote) (c : Char) (rest : List Char) :
    (escapeChar quote c ++ rest).head? ≠ some quote := by
  have hback : '\\' ≠ quote := by obtain rfl | rfl := hq <;> decide
  unfold escapeChar
  split_ifs with hself <;> simp_all

theorem head_escapeByte (hq : IsQuote quote) (b : UInt8) (rest : List Char) :
    (escapeByte quote b ++ rest).head? ≠ some quote := by
  have hback : '\\' ≠ quote := by obtain rfl | rfl := hq <;> decide
  unfold escapeByte
  split_ifs
  · exact head_escapeChar hq _ rest
  · simpa using hback

/-- Pieces that can be read off one after the other are found again, up to the closing quote. -/
theorem flatMap_escape_inj {α : Type} {escape : α → List Char} {code : α → Char}
    (hread : ∀ a rest, unescape (escape a ++ rest) = some (code a, rest)) (hcode : code.Injective)
    (hhead : ∀ a rest, (escape a ++ rest).head? ≠ some quote) :
    ∀ {xs ys : List α} {u v : List Char},
      xs.flatMap escape ++ quote :: u = ys.flatMap escape ++ quote :: v → xs = ys ∧ u = v := by
  intro xs
  induction xs with
  | nil =>
    intro ys u v h
    cases ys with
    | nil => exact ⟨rfl, (List.cons.inj h).2⟩
    | cons y ys =>
      rw [List.flatMap_cons, List.append_assoc] at h
      exact absurd (congrArg List.head? h).symm (hhead y _)
  | cons x xs ih =>
    intro ys u v h
    cases ys with
    | nil =>
      rw [List.flatMap_cons, List.append_assoc] at h
      exact absurd (congrArg List.head? h) (hhead x _)
    | cons y ys =>
      rw [List.flatMap_cons, List.flatMap_cons, List.append_assoc, List.append_assoc] at h
      have hfirst := congrArg unescape h
      rw [hread, hread] at hfirst
      obtain ⟨hxy, hrest⟩ := Prod.mk.inj (Option.some.inj hfirst)
      obtain ⟨rfl, huv⟩ := ih hrest
      exact ⟨by rw [hcode hxy], huv⟩

theorem quote_append_inj {s t : String} {u v : List Char}
    (h : (Text.quote s).toList ++ u = (Text.quote t).toList ++ v) : s = t ∧ u = v := by
  simp only [Text.quote, String.toList_ofList, List.cons_append, List.append_assoc, List.nil_append] at h
  obtain ⟨hquote, hrest⟩ := List.cons.inj h
  rw [hquote] at hrest
  have hq := isQuote_quoteFor t.toList
  obtain ⟨hst, huv⟩ :=
    flatMap_escape_inj (unescape_escapeChar hq) Function.injective_id (head_escapeChar hq) hrest
  exact ⟨String.toList_injective hst, huv⟩

theorem quoteBytes_append_inj {bs cs : List UInt8} {u v : List Char}
    (h : (quoteBytes bs).toList ++ u = (quoteBytes cs).toList ++ v) : bs = cs ∧ u = v := by
  simp only [quoteBytes, String.toList_ofList, List.cons_append, List.append_assoc, List.nil_append] at h
  obtain ⟨hquote, hrest⟩ := List.cons.inj (List.cons.inj h).2
  rw [hquote] at hrest
  have hq := isQuote_quoteFor (cs.map fun b => Char.ofNat b.toNat)
  have hcode : Function.Injective fun b : UInt8 => Char.ofNat b.toNat := by
    intro b c hbc
    have := congrArg Char.toNat hbc
    rw [toNat_ofNat b.toNat_lt, toNat_ofNat c.toNat_lt] at this
    exact UInt8.toNat_inj.mp this
  exact flatMap_escape_inj (unescape_escapeByte hq) hcode (head_escapeByte hq) hrest

end ScopeLint.Text
