import Mathlib.Data.List.TakeWhile
import RelQuery.Computed

/-!
# Expressions in segments

An expression in which every quote is closed is a sequence of quoted texts, of words and of other
characters. A word begins at the first letter or underscore that is in no segment before it and goes
on as long as it can. The scanner of expressions takes words one by one, and quoted texts that stand
side by side with the same quote as one.
-/

namespace RelQuery.Computed

/-! ## Quotes -/

/-- The quote of the text that is open after one more character. -/
def quoteAfter (opened : Option Char) (c : Char) : Option Char :=
  match opened with
  | none => if c = '\'' ∨ c = '"' then some c else none
  | some q => if c = q then none else some q

/-- Every quote is closed. Inside quoted text the other quote is a character as any other, and a
doubled quote closes a text and opens the next. -/
def Balanced (cs : List Char) : Prop := cs.foldl quoteAfter none = none

instance (cs : List Char) : Decidable (Balanced cs) :=
  inferInstanceAs (Decidable (cs.foldl quoteAfter none = none))

/-! ## Segments -/

inductive Segment
  | quoted (q : Char) (body : List Char)
  | word (w : List Char)
  | other (c : Char)

def Segment.text : Segment → List Char
  | quoted q body => q :: Text.double q body ++ [q]
  | word w => w
  | other c => [c]

def textOf (segments : List Segment) : List Char := segments.flatMap Segment.text

/-- The class `[A-Za-z_]` of characters that begin a word. -/
def beginsWord (c : Char) : Bool := c.isAlpha || c == '_'

/-- The class `[A-Za-z0-9_]` of characters that continue a word. -/
def inWord (c : Char) : Bool := c.isAlpha || c.isDigit || c == '_'

/-- The code points of white space. -/
def whiteSpace : List Nat :=
  [0x9, 0xA, 0xB, 0xC, 0xD, 0x20, 0x85, 0xA0, 0x1680, 0x2000, 0x2001, 0x2002, 0x2003, 0x2004,
    0x2005, 0x2006, 0x2007, 0x2008, 0x2009, 0x200A, 0x2028, 0x2029, 0x202F, 0x205F, 0x3000]

/-- The first character of a text that is no white space. -/
def Leads (c : Char) (cs : List Char) : Prop :=
  ∃ blanks rest, cs = blanks ++ c :: rest ∧ ∀ b ∈ blanks, b.toNat ∈ whiteSpace

/-- What a segment is made of, and where a word ends. -/
inductive Segment.Before (rest : List Char) : Segment → Prop
  | quoted {q : Char} {body : List Char} : q = '\'' ∨ q = '"' → Before rest (.quoted q body)
  | word {c : Char} {cs : List Char} : beginsWord c = true → (∀ d ∈ cs, inWord d = true) →
      (∀ d, rest.head? = some d → inWord d = false) → Before rest (.word (c :: cs))
  | other {c : Char} : c ≠ '\'' → c ≠ '"' → beginsWord c = false → Before rest (.other c)

/-- A text is cut into the segments that can be read off it from left to right. -/
inductive Cut : List Segment → Prop
  | nil : Cut []
  | cons {segment : Segment} {segments : List Segment} : segment.Before (textOf segments) →
      Cut segments → Cut (segment :: segments)

variable {q c : Char} {cs body rest w : List Char} {segment : Segment} {segments : List Segment}
  {fallback : Option Nat} {n : Nat}

@[simp] theorem textOf_nil : textOf [] = [] := rfl

@[simp] theorem textOf_cons : textOf (segment :: segments) = segment.text ++ textOf segments := rfl

@[simp] theorem textOf_append {more : List Segment} :
    textOf (segments ++ more) = textOf segments ++ textOf more :=
  List.flatMap_append

theorem isBlank_iff : Text.isBlank c = true ↔ c.toNat ∈ whiteSpace := by
  simp only [Text.isBlank, whiteSpace, Bool.or_eq_true, Bool.and_eq_true, decide_eq_true_eq,
    beq_iff_eq, List.mem_cons, List.not_mem_nil, or_false]
  omega

theorem head?_trimStart_iff (hc : Text.isBlank c = false) :
    (Text.trimStart cs).head? = some c ↔ Leads c cs := by
  have hfind : (Text.trimStart cs).head? = cs.find? (!Text.isBlank ·) := by
    rw [List.find?_eq_head?_dropWhile_not]
    simp [Text.trimStart]
  rw [hfind, List.find?_eq_some_iff_append]
  constructor
  · rintro ⟨-, blanks, rest, rfl, hblanks⟩
    exact ⟨blanks, rest, rfl, fun b hb => isBlank_iff.mp (by simpa using hblanks b hb)⟩
  · rintro ⟨blanks, rest, rfl, hblanks⟩
    refine ⟨by simp [hc], blanks, rest, rfl, fun b hb => ?_⟩
    simpa using isBlank_iff.mpr (hblanks b hb)

theorem inWord_of_beginsWord (h : beginsWord c = true) : inWord c = true := by
  unfold beginsWord at h
  unfold inWord
  grind

theorem text_ne_nil (h : segment.Before rest) : segment.text ≠ [] := by
  cases h with
  | quoted => exact List.cons_ne_nil _ _
  | word => exact List.cons_ne_nil _ _
  | other => exact List.cons_ne_nil _ _

/-! ## Every text with closed quotes can be cut -/

theorem exists_closing (h : cs.foldl quoteAfter (some q) = none) : ∃ body rest,
    cs = Text.double q body ++ q :: rest ∧ Balanced rest := by
  induction cs with
  | nil => cases h
  | cons c cs ih =>
    rw [List.foldl_cons, quoteAfter] at h
    split at h
    · rename_i hc
      exact ⟨[], cs, by rw [hc, Text.double_nil, List.nil_append], h⟩
    · rename_i hc
      obtain ⟨body, rest, rfl, hrest⟩ := ih h
      exact ⟨c :: body, rest, by rw [Text.double_cons, if_neg hc]; rfl, hrest⟩

/-- Characters that are no quotes neither open nor close a text. -/
theorem balanced_append_of_plain (h : ∀ c ∈ w, ¬(c = '\'' ∨ c = '"')) :
    Balanced (w ++ rest) ↔ Balanced rest := by
  induction w with
  | nil => exact Iff.rfl
  | cons c w ih =>
    rw [List.forall_mem_cons] at h
    rw [← ih h.2, Balanced, List.cons_append, List.foldl_cons, quoteAfter, if_neg h.1, Balanced]

theorem not_quote_of_inWord (h : inWord c = true) : ¬(c = '\'' ∨ c = '"') := by
  rintro (rfl | rfl) <;> exact absurd h (by decide)

theorem exists_word (cs : List Char) : ∃ w rest, cs = w ++ rest ∧
    (∀ c ∈ w, inWord c = true) ∧ ∀ c, rest.head? = some c → inWord c = false := by
  refine ⟨_, _, List.takeWhile_append_dropWhile.symm, List.all_eq_true.mp List.all_takeWhile,
    fun c hc => ?_⟩
  have hnot := List.head?_dropWhile_not inWord cs
  rwa [hc] at hnot

theorem exists_cut (h : Balanced cs) : ∃ segments, textOf segments = cs ∧ Cut segments := by
  induction hn : cs.length using Nat.strongRecOn generalizing cs with
  | ind n ih =>
    subst hn
    cases cs with
    | nil => exact ⟨[], rfl, .nil⟩
    | cons c cs =>
      by_cases hquote : c = '\'' ∨ c = '"'
      · rw [Balanced, List.foldl_cons, quoteAfter, if_pos hquote] at h
        obtain ⟨body, rest, rfl, hrest⟩ := exists_closing h
        have hshorter : rest.length < (c :: (Text.double c body ++ c :: rest)).length := by
          simp only [List.length_cons, List.length_append]
          omega
        obtain ⟨segments, rfl, hcut⟩ := ih _ hshorter hrest rfl
        refine ⟨.quoted c body :: segments, ?_, .cons (.quoted hquote) hcut⟩
        simp [Segment.text]
      by_cases hstart : beginsWord c = true
      · obtain ⟨w, rest, rfl, hword, hend⟩ := exists_word cs
        have hplain : ∀ d ∈ c :: w, ¬(d = '\'' ∨ d = '"') :=
          List.forall_mem_cons.mpr ⟨hquote, fun d hd => not_quote_of_inWord (hword d hd)⟩
        have hrest : Balanced rest := (balanced_append_of_plain hplain).mp h
        have hshorter : rest.length < (c :: (w ++ rest)).length := by
          simp only [List.length_cons, List.length_append]
          omega
        obtain ⟨segments, rfl, hcut⟩ := ih _ hshorter hrest rfl
        exact ⟨.word (c :: w) :: segments, rfl, .cons (.word hstart hword hend) hcut⟩
      · have hplain : ∀ d ∈ [c], ¬(d = '\'' ∨ d = '"') := List.forall_mem_singleton.mpr hquote
        have h : Balanced cs := (balanced_append_of_plain hplain).mp h
        obtain ⟨segments, rfl, hcut⟩ := ih _ (Nat.lt_succ_self _) h rfl
        rw [not_or] at hquote
        exact ⟨.other c :: segments, rfl,
          .cons (.other hquote.1 hquote.2 (Bool.eq_false_iff.mpr hstart)) hcut⟩

/-! ## Tokens -/

/-- A quoted text is read up to the quote that closes it. -/
theorem quotedLength?_double (h : rest.head? ≠ some q) :
    quotedLength? q fallback n (Text.double q body ++ q :: rest) =
      some (n + (Text.double q body).length + 1) := by
  induction body generalizing fallback n with
  | nil =>
    cases rest with
    | nil => simp [quotedLength?]
    | cons d rest =>
      have hd : d ≠ q := fun hd => h (congrArg some hd)
      simp [quotedLength?, hd]
  | cons c body ih =>
    by_cases hc : c = q
    · subst hc
      simp only [Text.double_cons, if_true, List.cons_append, List.nil_append, quotedLength?, ih,
        List.length_cons]
      congr 1
      omega
    · obtain ⟨d, ds, hds⟩ := List.exists_cons_of_ne_nil
        (List.append_ne_nil_of_right_ne_nil (Text.double q body) (List.cons_ne_nil q rest))
      have hstep : quotedLength? q fallback n (c :: (Text.double q body ++ q :: rest)) =
          quotedLength? q fallback (n + 1) (Text.double q body ++ q :: rest) := by
        rw [hds, quotedLength?, if_neg hc]
      rw [Text.double_cons, if_neg hc, List.singleton_append, List.cons_append, hstep, ih,
        List.length_cons]
      congr 1
      omega

theorem tokenLength?_quoted (hq : q = '\'' ∨ q = '"') (h : rest.head? ≠ some q) :
    tokenLength? ((Segment.quoted q body).text ++ rest) =
      some (Segment.quoted q body).text.length := by
  have htext : (Segment.quoted q body).text ++ rest = q :: (Text.double q body ++ q :: rest) := by
    simp [Segment.text]
  rw [htext, tokenLength?, if_pos hq, quotedLength?_double h]
  simp [Segment.text]

theorem isWordStart_eq : isWordStart = beginsWord := rfl

theorem isWordChar_eq : isWordChar = inWord := rfl

theorem tokenLength?_word (h : (Segment.word w).Before rest) :
    tokenLength? (w ++ rest) = some w.length := by
  cases h with
  | @word c cs hstart hword hend =>
    have hquote := not_quote_of_inWord (inWord_of_beginsWord hstart)
    have htake : (cs ++ rest).takeWhile inWord = cs := by
      rw [List.takeWhile_append_of_pos hword]
      cases rest with
      | nil => simp
      | cons d rest => rw [List.takeWhile_cons_of_neg (by simp [hend d rfl]), List.append_nil]
    rw [List.cons_append, tokenLength?, if_neg hquote, isWordStart_eq, if_pos hstart, isWordChar_eq,
      htake, List.length_cons]

theorem tokenLength?_other (h : (Segment.other c).Before rest) :
    tokenLength? (c :: rest) = none := by
  cases h with
  | other hsingle hdouble hstart =>
    rw [tokenLength?, if_neg (not_or.mpr ⟨hsingle, hdouble⟩), isWordStart_eq, hstart]
    rfl

end RelQuery.Computed
