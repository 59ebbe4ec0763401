import RelQuery.Proofs.Document.Compact
import RelQuery.Text.Quoted

/-!
# Scalar literals

How SQL reads a scalar literal: a text up to the quote that closes it, anything else up to the first
character that is part of no word. Texts and numbers are written as literals that read back, and the
reading ends where the literal does.
-/

namespace RelQuery.Text

variable {q : Char} {cs rest word : List Char}

/-! ## Quoted texts -/

/-- Reads a text up to the quote that closes it. A quote written twice belongs to the text. -/
def closing? (q : Char) : List Char → Option (List Char × List Char)
  | [] => none
  | [c] => if c = q then some ([], []) else none
  | c :: d :: cs =>
    if c = q then
      if d = q then (closing? q cs).map fun read => (q :: read.1, read.2) else some ([], d :: cs)
    else (closing? q (d :: cs)).map fun read => (c :: read.1, read.2)

theorem closing?_quote (h : rest.head? ≠ some q) : closing? q (q :: rest) = some ([], rest) := by
  cases rest with
  | nil => exact if_pos rfl
  | cons c rest =>
    have hc : c ≠ q := fun heq => h (congrArg some heq)
    rw [closing?, if_pos rfl, if_neg hc]

/-- A text with every quote doubled is read up to the quote behind it. -/
theorem closing?_double (h : rest.head? ≠ some q) :
    closing? q (double q cs ++ q :: rest) = some (cs, rest) := by
  induction cs with
  | nil => exact closing?_quote h
  | cons c cs ih =>
    by_cases hc : c = q
    · subst hc
      rw [double_cons, if_pos rfl]
      change closing? c (c :: c :: (double c cs ++ c :: rest)) = _
      rw [closing?, if_pos rfl, if_pos rfl, ih, Option.map_some]
    · rw [double_cons, if_neg hc, List.append_assoc, List.singleton_append]
      have hcons : ∀ ds, ds ≠ [] → closing? q (c :: ds) =
          (closing? q ds).map fun read => (c :: read.1, read.2) := by
        intro ds hds
        cases ds with
        | nil => exact absurd rfl hds
        | cons d ds => rw [closing?, if_neg hc]
      rw [hcons _ (by simp), ih, Option.map_some]

/-- A text without quotes is written as it is. -/
theorem double_of_not_mem (h : q ∉ cs) : double q cs = cs := by
  induction cs with
  | nil => rfl
  | cons c cs ih =>
    rw [List.mem_cons, not_or] at h
    rw [double_cons, if_neg (Ne.symm h.1), ih h.2, List.singleton_append]

theorem literal_of_quote_notMem {t : String} (h : '\'' ∉ t.toList) :
    literal t = "'" ++ t ++ "'" := by
  apply String.toList_inj.mp
  rw [literal, quote, String.toList_ofList, double_of_not_mem h, String.toList_append,
    String.toList_append]
  rfl

theorem toList_quote_append {s : String} :
    (quote q s).toList ++ rest = q :: (double q s.toList ++ q :: rest) := by
  rw [quote, String.toList_ofList, List.cons_append, List.cons_append, List.append_assoc,
    List.singleton_append]

/-- Reads an identifier. -/
def identifier? : List Char → Option (String × List Char)
  | '"' :: cs => (closing? '"' cs).map fun read => (.ofList read.1, read.2)
  | _ => none

theorem identifier?_identifier {s : String} (h : rest.head? ≠ some '"') :
    identifier? ((identifier s).toList ++ rest) = some (s, rest) := by
  rw [identifier, toList_quote_append, identifier?, closing?_double h, Option.map_some,
    String.ofList_toList]

/-! ## Scalars -/

/-- What a scalar literal stands for; a number as its significand and its power of ten. -/
inductive Scalar
  | null
  | truth (b : Bool)
  | number (neg : Bool) (digits : Nat) (exp : Int)
  | text (s : String)

/-- The characters of keywords and numerals. -/
def isWordChar (c : Char) : Bool := c.isAlpha || Numeral.isPart c

/-- A text behind a scalar that continues none. -/
def Delimits (rest : List Char) : Prop :=
  ∀ c, rest.head? = some c → isWordChar c = false ∧ c ≠ '\''

namespace Scalar

/-- The keyword or number that a word is. -/
def ofWord? (word : List Char) : Option Scalar :=
  if word = "NULL".toList then some .null
  else if word = "TRUE".toList then some (.truth true)
  else if word = "FALSE".toList then some (.truth false)
  else
    let (neg, cs) := Numeral.sign word
    (Numeral.unsignedDecimal? cs).map fun (n, e) => .number neg n e

/-- Reads a scalar. -/
def read? : List Char → Option (Scalar × List Char)
  | '\'' :: cs => (closing? '\'' cs).map fun read => (.text (.ofList read.1), read.2)
  | cs => (ofWord? (cs.takeWhile isWordChar)).map fun x => (x, cs.dropWhile isWordChar)

/-- Reading the scalar ends at the end of its text, whatever delimits it. -/
def Spelled (x : Scalar) (cs : List Char) : Prop :=
  ∀ rest, Delimits rest → read? (cs ++ rest) = some (x, rest)

variable {x : Scalar}

theorem spelled_literal (s : String) : (text s).Spelled (literal s).toList := by
  intro rest hrest
  have hquote : rest.head? ≠ some '\'' := fun h => (hrest _ h).2 rfl
  rw [literal, toList_quote_append, read?, closing?_double hquote, Option.map_some,
    String.ofList_toList]

/-! ### Words -/

theorem read?_of_ne (h : cs.head? ≠ some '\'') : read? cs =
    (ofWord? (cs.takeWhile isWordChar)).map fun x => (x, cs.dropWhile isWordChar) := by
  unfold read?
  split
  · exact absurd rfl h
  · rfl

theorem takeWhile_delimits (h : Delimits rest) : rest.takeWhile isWordChar = [] ∧
    rest.dropWhile isWordChar = rest := by
  cases rest with
  | nil => exact ⟨rfl, rfl⟩
  | cons c rest => simp [(h c rfl).1]

theorem spelled_word (hword : ∀ c ∈ word, isWordChar c = true) (h : ofWord? word = some x) :
    x.Spelled word := by
  intro rest hrest
  obtain ⟨htake, hdrop⟩ := takeWhile_delimits hrest
  have hhead : (word ++ rest).head? ≠ some '\'' := by
    intro hquote
    cases word with
    | nil => exact (hrest _ hquote).2 rfl
    | cons c word =>
      cases hquote
      exact absurd (hword _ List.mem_cons_self) (by decide)
  rw [read?_of_ne hhead, List.takeWhile_append_of_pos hword, List.dropWhile_append_of_pos hword,
    htake, hdrop, List.append_nil, h, Option.map_some]

theorem spelled_null : null.Spelled "NULL".toList :=
  spelled_word (List.all_eq_true.mp (by decide)) rfl

theorem spelled_truth (b : Bool) :
    (truth b).Spelled (if b then "TRUE" else "FALSE").toList := by
  cases b <;> exact spelled_word (List.all_eq_true.mp (by decide)) rfl

/-! ### Numerals -/

/-- A numeral without a sign has none to take off. -/
theorem sign_of_unsignedDecimal? {r : Nat × Int} (h : Numeral.unsignedDecimal? cs = some r) :
    Numeral.sign cs = (false, cs) := by
  unfold Numeral.sign
  split
  · cases h
  · cases h
  · rfl

/-- A numeral is no keyword. -/
theorem ofWord?_numeral (hpart : ∀ c ∈ word, Numeral.isPart c = true) : ofWord? word =
    (Numeral.unsignedDecimal? (Numeral.sign word).2).map fun (n, e) =>
      .number (Numeral.sign word).1 n e := by
  have hne : ∀ keyword : String, keyword.toList.all Numeral.isPart = false →
      word ≠ keyword.toList := by
    rintro keyword hfalse rfl
    rw [List.all_eq_true.mpr hpart] at hfalse
    cases hfalse
  rw [ofWord?, if_neg (hne "NULL" (by decide)), if_neg (hne "TRUE" (by decide)),
    if_neg (hne "FALSE" (by decide))]

/-- Digits with a sign, and perhaps a point and an exponent, are read as the number they are. -/
theorem spelled_number {p : ℚ} (neg : Bool) (h : Decimal.Reads cs p)
    (hpart : ∀ c ∈ cs, Numeral.isPart c = true) :
    ∃ n e, (number neg n e).Spelled ((if neg then ['-'] else []) ++ cs) ∧
      (n : ℚ) * 10 ^ e = p := by
  obtain ⟨n, e, hread, hvalue⟩ := h
  refine ⟨n, e, ?_, hvalue⟩
  have hword : ∀ c ∈ (if neg then ['-'] else []) ++ cs, Numeral.isPart c = true := by
    cases neg with
    | false => exact hpart
    | true => exact List.forall_mem_cons.mpr ⟨rfl, hpart⟩
  have hsign : Numeral.sign ((if neg then ['-'] else []) ++ cs) = (neg, cs) := by
    cases neg with
    | false => exact sign_of_unsignedDecimal? hread
    | true => rfl
  refine spelled_word (fun c hc => ?_) ?_
  · rw [isWordChar, hword c hc, Bool.or_true]
  · rw [ofWord?_numeral hword, hsign, hread, Option.map_some]

/-- The number that a scalar stands for: an integer, or a double to which it rounds. -/
inductive Denotes : Scalar → Number → Prop
  | int {neg : Bool} {n : Nat} {e k : Int} {ge : -0x8000000000000000 ≤ k}
      {lt : k < 0x10000000000000000} : (if neg then -((n : ℚ) * 10 ^ e) else n * 10 ^ e) = k →
      Denotes (.number neg n e) (.int k ge lt)
  | zero {x : Binary64} {n : Nat} {e : Int} : x.isZero = true → (n : ℚ) * 10 ^ e = 0 →
      Denotes (.number x.neg n e) (.float x)
  | float {x : Binary64} {n : Nat} {e : Int} : x.isZero = false → x.Rounds ((n : ℚ) * 10 ^ e) →
      Denotes (.number x.neg n e) (.float x)

theorem spelled_toString (k : Int) : ∃ y : Scalar, y.Spelled (toString k).toList ∧
    ∀ ge lt, y.Denotes (.int k ge lt) := by
  have hdigits : ∀ c ∈ Nat.toDigits 10 k.natAbs, c.isDigit = true :=
    fun c hc => Numeral.isDigit_toDigits hc
  have hreads := Decimal.reads_digits hdigits Nat.toDigits_ne_nil
  rw [Nat.ofDigitChars_ten_toDigits] at hreads
  obtain ⟨n, e, hspelled, hvalue⟩ := spelled_number (decide (k < 0)) hreads
    fun c hc => Numeral.isPart_of_isDigit (hdigits c hc)
  refine ⟨.number (decide (k < 0)) n e, ?_, fun ge lt => .int ?_⟩
  · rw [Numeral.toList_toString]
    simpa only [decide_eq_true_eq] using hspelled
  · rw [hvalue]
    have hcast : (k.natAbs : ℚ) = ((k.natAbs : Int) : ℚ) := (Int.cast_natCast _).symm
    rcases lt_or_ge k 0 with hneg | hpos
    · have habs : (k.natAbs : Int) = -k := by omega
      rw [if_pos (decide_eq_true hneg), hcast, habs, Int.cast_neg, neg_neg]
    · have habs : (k.natAbs : Int) = k := by omega
      rw [if_neg (by simpa using hpos), hcast, habs]

/-- The shortest decimals of a double denote it. -/
theorem denotes_shortest {x : Binary64} {tie : Decimal.Tie} {n : Nat} {e : Int}
    (h : (n : ℚ) * 10 ^ e = (Decimal.shortest tie x).value) :
    (number x.neg n e).Denotes (.float x) := by
  cases hzero : x.isZero with
  | true => exact .zero hzero (h.trans (Decimal.value_shortest_zero hzero))
  | false => exact .float hzero (h ▸ Decimal.rounds_shortest tie hzero)

theorem toList_sign (x : Binary64) : x.sign.toList = if x.neg then ['-'] else [] := by
  unfold Binary64.sign
  split <;> rfl

theorem spelled_plainText (x : Binary64) : ∃ y : Scalar, y.Spelled x.plainText.toList ∧
    y.Denotes (.float x) := by
  have hreads : Decimal.Reads (Decimal.shortest .up x).positional.toList
      (Decimal.shortest .up x).value := by
    rcases lt_or_ge (Decimal.shortest .up x).exp 0 with h | h
    · exact Decimal.reads_positional h
    · exact Decimal.reads_positional_of_nonneg h
  obtain ⟨n, e, hspelled, hvalue⟩ := spelled_number x.neg hreads
    fun c hc => Decimal.isPart_positional hc
  refine ⟨.number x.neg n e, ?_, denotes_shortest hvalue⟩
  rwa [Binary64.plainText, String.toList_append, toList_sign]

/-- A number is written as a literal that denotes it. -/
theorem spelled_text (n : Number) : ∃ y : Scalar, y.Spelled n.text.toList ∧ y.Denotes n := by
  cases n with
  | int k ge lt =>
    obtain ⟨y, hspelled, hdenotes⟩ := spelled_toString k
    exact ⟨y, hspelled, hdenotes ge lt⟩
  | float x =>
    obtain ⟨n, e, hspelled, hvalue⟩ := spelled_number x.neg x.reads_unsignedText
      fun c hc => Binary64.isPart_unsignedText hc
    refine ⟨.number x.neg n e, ?_, denotes_shortest hvalue⟩
    rwa [Number.text, Binary64.jsonText_eq, String.toList_append, toList_sign]

end Scalar

end RelQuery.Text
