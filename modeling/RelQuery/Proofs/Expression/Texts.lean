import Mathlib.Data.List.Chain
import Mathlib.Data.List.DropRight
import RelQuery.Expression
import RelQuery.Proofs.Except

/-!
# Texts of expressions

The text of an expression is made of names, parentheses, commas, spaces and three operators. Its
parentheses are balanced, it starts no comment, and the only words before a parenthesis are the
names of five functions.
-/

namespace RelQuery.Expression

/-- Induction on expressions, with the hypothesis for every argument of a call. -/
@[induction_eliminator]
theorem induction {P : Expression → Prop} (atom : ∀ text, P (.atom text))
    (call : ∀ f args, (∀ a ∈ args, P a) → P (.call f args)) (e : Expression) : P e :=
  Expression.rec atom call (fun _ h => nomatch h)
    (fun _ _ h ih _ ha => (List.mem_cons.mp ha).elim (· ▸ h) (ih _)) e

/-- The characters of words: ASCII letters, digits and the underscore. -/
def isWordChar (c : Char) : Bool := c.isAlpha || c.isDigit || c == '_'

/-- The atoms are names, and the calls have as many arguments as their functions take. -/
inductive WellFormed (dialect : Dialect) : Expression → Prop
  | atom {text : String} : isName text = true → WellFormed dialect (.atom text)
  | call {f : Function} {args : List Expression} : f.checkCount dialect args.length = .ok () →
      (∀ a ∈ args, WellFormed dialect a) → WellFormed dialect (.call f args)

variable {dialect : Dialect} {f : Function} {args : List Expression} {e : Expression}
  {name : String} {c : Char} {cs ds before sep : List Char} {texts : List (List Char)}

/-! ## The shape of a call -/

namespace Function

/-- What a call writes before its parenthesis: nothing for an operator. -/
def opening (dialect : Dialect) (f : Function) : List Char :=
  match f.operator? dialect with
  | some _ => []
  | none => f.sqlName.toList

/-- What stands between the arguments of a call. -/
def separator (dialect : Dialect) (f : Function) : List Char :=
  match f.operator? dialect with
  | some operator => (" " ++ operator ++ " ").toList
  | none => ", ".toList

/-- All that can stand between two arguments. -/
def separators : List (List Char) := [", ".toList, " - ".toList, " + ".toList, " = ".toList]

/-- The words that can stand before a parenthesis. -/
def words : List (List Char) :=
  ["CONCAT".toList, "LOWER".toList, "UPPER".toList, "ABS".toList, "COALESCE".toList]

theorem separator_mem (dialect : Dialect) (f : Function) : f.separator dialect ∈ separators := by
  cases f <;> cases dialect <;> decide

theorem opening_mem (dialect : Dialect) (f : Function) : f.opening dialect ∈ [] :: words := by
  cases f <;> cases dialect <;> decide

theorem isWordChar_of_mem_words : ∀ word ∈ words, ∀ c ∈ word, isWordChar c = true := by
  have hall : words.all (·.all isWordChar) = true := by decide
  exact fun word hword => List.all_eq_true.mp (List.all_eq_true.mp hall word hword)

theorem isWordChar_opening (h : c ∈ f.opening dialect) : isWordChar c = true := by
  rcases List.mem_cons.mp (opening_mem dialect f) with hnil | hword
  · rw [hnil] at h
    cases h
  · exact isWordChar_of_mem_words _ hword c h

end Function

theorem sqls_eq_map : sqls dialect args = args.map (sql dialect) := by
  induction args with
  | nil => rfl
  | cons e es ih => rw [sqls, ih, List.map_cons]

/-- The characters of the text of an expression. -/
def chars (dialect : Dialect) (e : Expression) : List Char := (sql dialect e).toList

theorem chars_call : chars dialect (.call f args) = f.opening dialect ++
    '(' :: ((f.separator dialect).intercalate (args.map (chars dialect)) ++ [')']) := by
  have hmap : args.map (chars dialect) = (sqls dialect args).map String.toList := by
    rw [sqls_eq_map, List.map_map]
    rfl
  rw [hmap, chars, sql]
  split
  · rename_i operator h
    simp [Function.opening, Function.separator, h]
  · rename_i h
    simp [Function.opening, Function.separator, h]

/-- A name is one word. -/
theorem isWordChar_of_isName (h : isName name = true) (hc : c ∈ name.toList) :
    isWordChar c = true := by
  rw [isName, Bool.and_eq_true, List.all_eq_true] at h
  exact h.2 c hc

/-- What texts keep when they are put behind one another, a sequence of them keeps. -/
theorem intercalate_closed {P : List Char → Prop} (hnil : P [])
    (happend : ∀ cs ds, P cs → P ds → P (cs ++ ds)) (hsep : P sep) (h : ∀ t ∈ texts, P t) :
    P (sep.intercalate texts) := by
  induction texts with
  | nil => exact hnil
  | cons t ts ih =>
    rw [List.forall_mem_cons] at h
    cases ts with
    | nil =>
      rw [List.intercalate_singleton]
      exact h.1
    | cons t' ts =>
      rw [List.intercalate_cons_cons]
      exact happend _ _ (happend _ _ h.1 hsep) (ih h.2)

/-! ## Characters -/

/-- The characters of words, and those that hold words together. -/
def isSafeChar (c : Char) : Bool := isWordChar c || " ,()+-=".toList.contains c

theorem isSafeChar_of_isWordChar (h : isWordChar c = true) : isSafeChar c = true := by
  simp [isSafeChar, h]

theorem isSafeChar_of_mem_separators : ∀ sep ∈ Function.separators, ∀ c ∈ sep,
    isSafeChar c = true := by
  have hall : Function.separators.all (·.all isSafeChar) = true := by decide
  exact fun sep hsep => List.all_eq_true.mp (List.all_eq_true.mp hall sep hsep)

theorem isSafeChar_chars (h : e.WellFormed dialect) : ∀ c ∈ chars dialect e,
    isSafeChar c = true := by
  induction h with
  | atom hname =>
    intro c hc
    exact isSafeChar_of_isWordChar (isWordChar_of_isName hname hc)
  | @call f args _ _ ih =>
    have hargs : ∀ c ∈ (f.separator dialect).intercalate (args.map (chars dialect)),
        isSafeChar c = true := by
      refine intercalate_closed (P := fun cs => ∀ c ∈ cs, isSafeChar c = true) nofun ?_
        (isSafeChar_of_mem_separators _ (f.separator_mem dialect)) ?_
      · intro cs ds hcs hds c hc
        exact (List.mem_append.mp hc).elim (hcs c) (hds c)
      · simpa using ih
    intro c hc
    rw [chars_call, List.mem_append, List.mem_cons, List.mem_append, List.mem_singleton] at hc
    rcases hc with hc | rfl | hc | rfl
    · exact isSafeChar_of_isWordChar (Function.isWordChar_opening hc)
    · rfl
    · exact hargs c hc
    · rfl

/-! ## Parentheses -/

/-- The number of open parentheses behind a character that stands inside `n` of them. -/
def step? (n : Nat) (c : Char) : Option Nat :=
  if c = '(' then some (n + 1)
  else if c = ')' then if n = 0 then none else some (n - 1)
  else some n

/-- The number of open parentheses behind a text that stands inside `n` of them; none if one is
closed that is not open. -/
def depth? (n : Nat) (cs : List Char) : Option Nat := cs.foldlM step? n

/-- Every parenthesis is closed by one behind it. -/
def Balanced (cs : List Char) : Prop := depth? 0 cs = some 0

theorem depth?_append (n : Nat) : depth? n (cs ++ ds) = (depth? n cs).bind (depth? · ds) :=
  List.foldlM_append

/-- A text without parentheses leaves their number as it is. -/
theorem depth?_of_forall (h : ∀ c ∈ cs, c ≠ '(' ∧ c ≠ ')') (n : Nat) : depth? n cs = some n := by
  induction cs with
  | nil => rfl
  | cons c cs ih =>
    rw [List.forall_mem_cons] at h
    have hstep : step? n c = some n := by rw [step?, if_neg h.1.1, if_neg h.1.2]
    rw [depth?, List.foldlM_cons, hstep]
    exact ih h.2

theorem not_parenthesis_of_isWordChar (h : isWordChar c = true) : c ≠ '(' ∧ c ≠ ')' := by
  constructor <;> rintro rfl <;> exact absurd h (by decide)

theorem not_parenthesis_of_mem_separators : ∀ sep ∈ Function.separators, ∀ c ∈ sep,
    c ≠ '(' ∧ c ≠ ')' := by
  have hall : Function.separators.all (·.all fun c => decide (c ≠ '(' ∧ c ≠ ')')) = true := by
    decide
  exact fun sep hsep c hc =>
    of_decide_eq_true (List.all_eq_true.mp (List.all_eq_true.mp hall sep hsep) c hc)

/-- An expression closes what it opens. -/
theorem depth?_chars (h : e.WellFormed dialect) (n : Nat) :
    depth? n (chars dialect e) = some n := by
  induction h generalizing n with
  | atom hname =>
    exact depth?_of_forall
      (fun c hc => not_parenthesis_of_isWordChar (isWordChar_of_isName hname hc)) n
  | @call f args _ _ ih =>
    have hargs : ∀ n, depth? n ((f.separator dialect).intercalate (args.map (chars dialect))) =
        some n := by
      refine intercalate_closed (P := fun cs => ∀ n, depth? n cs = some n) (fun _ => rfl) ?_
        (depth?_of_forall (not_parenthesis_of_mem_separators _ (f.separator_mem dialect))) ?_
      · intro cs ds hcs hds n
        rw [depth?_append, hcs, Option.bind_some, hds]
      · simpa using ih
    have hopening : depth? n (f.opening dialect) = some n :=
      depth?_of_forall (fun c hc => not_parenthesis_of_isWordChar (f.isWordChar_opening hc)) n
    have hleft : depth? n ['('] = some (n + 1) := rfl
    have hright : depth? (n + 1) [')'] = some n := rfl
    rw [chars_call, List.append_cons, depth?_append, depth?_append, hopening, Option.bind_some,
      hleft, Option.bind_some, depth?_append, hargs, Option.bind_some, hright]

/-! ## Comments -/

/-- No dash of the text follows another, nor one right before the text. -/
def NoComment (cs : List Char) : Prop :=
  cs.IsChain (fun a b => ¬(a = '-' ∧ b = '-')) ∧ cs.head? ≠ some '-'

theorem NoComment.append (h : NoComment cs) (h' : NoComment ds) : NoComment (cs ++ ds) := by
  refine ⟨List.isChain_append.mpr ⟨h.1, h'.1, ?_⟩, ?_⟩
  · rintro x - y hy ⟨-, rfl⟩
    exact h'.2 hy
  · cases cs with
    | nil => exact h'.2
    | cons c cs => exact h.2

/-- A text without dashes starts no comment. -/
theorem noComment_of_forall (h : ∀ c ∈ cs, c ≠ '-') : NoComment cs := by
  refine ⟨(List.pairwise_of_forall_mem_list ?_).isChain, ?_⟩
  · rintro a ha b - ⟨rfl, -⟩
    exact h '-' ha rfl
  · intro hhead
    exact h '-' (List.mem_of_mem_head? hhead) rfl

theorem noComment_of_forall_isWordChar (h : ∀ c ∈ cs, isWordChar c = true) : NoComment cs := by
  refine noComment_of_forall fun c hc => ?_
  rintro rfl
  exact absurd (h _ hc) (by decide)

theorem noComment_of_mem_separators (h : sep ∈ Function.separators) : NoComment sep := by
  simp only [Function.separators, List.mem_cons, List.not_mem_nil, or_false] at h
  rcases h with rfl | rfl | rfl | rfl <;> simp [NoComment]

theorem noComment_chars (h : e.WellFormed dialect) : NoComment (chars dialect e) := by
  induction h with
  | atom hname =>
    exact noComment_of_forall_isWordChar fun c hc => isWordChar_of_isName hname hc
  | @call f args _ _ ih =>
    have hargs : NoComment ((f.separator dialect).intercalate (args.map (chars dialect))) := by
      refine intercalate_closed (noComment_of_forall nofun) (fun _ _ => NoComment.append)
        (noComment_of_mem_separators (f.separator_mem dialect)) ?_
      simpa using ih
    have hopening : NoComment (f.opening dialect) :=
      noComment_of_forall_isWordChar fun c hc => f.isWordChar_opening hc
    have hleft : NoComment ['('] := noComment_of_forall (by simp)
    have hright : NoComment [')'] := noComment_of_forall (by simp)
    rw [chars_call]
    exact hopening.append (hleft.append (hargs.append hright))

theorem NoComment.no_dashes (h : NoComment cs) : ¬"--".toList <:+: cs := by
  intro hdashes
  have hchain := List.IsChain.infix h.1 hdashes
  simp at hchain

/-! ## Calls -/

/-- The word at the end of a text, spaces behind it left out. -/
def lastWord (cs : List Char) : List Char := (cs.rdropWhile (· = ' ')).rtakeWhile isWordChar

/-- Behind `before`, only these words stand before a parenthesis of the text, or none. -/
def Calls (words : List (List Char)) (before cs : List Char) : Prop :=
  ∀ pre post, cs = pre ++ '(' :: post → lastWord (before ++ pre) ∈ [] :: words

/-- A text behind which a parenthesis is no call, and no name is continued. -/
def Fresh (before : List Char) : Prop :=
  before.rtakeWhile isWordChar = [] ∧ lastWord before = []

variable {words : List (List Char)}

theorem Calls.append (h : Calls words before cs) (h' : Calls words (before ++ cs) ds) :
    Calls words before (cs ++ ds) := by
  intro pre post heq
  rcases List.append_eq_append_iff.mp heq with ⟨mid, rfl, hmid⟩ | ⟨mid, rfl, hmid⟩
  · rw [← List.append_assoc]
    exact h' mid post hmid
  · cases mid with
    | nil =>
      have hlast := h' [] post hmid.symm
      rwa [List.append_nil, List.append_nil] at hlast
    | cons c mid =>
      obtain ⟨rfl, rfl⟩ := List.cons.inj hmid
      exact h pre mid rfl

/-- A text that opens no parenthesis calls nothing. -/
theorem calls_of_forall (h : ∀ c ∈ cs, c ≠ '(') : Calls words before cs := by
  rintro pre post rfl
  exact absurd rfl (h '(' (by simp))

theorem fresh_nil : Fresh [] := by simp [Fresh, lastWord]

theorem fresh_parenthesis : Fresh (before ++ ['(']) := by
  have hname : isWordChar '(' = false := by decide
  simp [Fresh, lastWord, hname]

/-- Between two arguments stands a sign that is part of no word, then a space. -/
theorem exists_sign (h : sep ∈ Function.separators) :
    ∃ ds c, sep = ds ++ [c] ++ [' '] ∧ isWordChar c = false ∧ c ≠ ' ' := by
  simp only [Function.separators, List.mem_cons, List.not_mem_nil, or_false] at h
  rcases h with rfl | rfl | rfl | rfl
  · exact ⟨[], ',', rfl, by decide, by decide⟩
  · exact ⟨[' '], '-', rfl, by decide, by decide⟩
  · exact ⟨[' '], '+', rfl, by decide, by decide⟩
  · exact ⟨[' '], '=', rfl, by decide, by decide⟩

theorem fresh_separator (h : sep ∈ Function.separators) : Fresh (before ++ sep) := by
  obtain ⟨ds, c, rfl, hname, hspace⟩ := exists_sign h
  have hblank : isWordChar ' ' = false := by decide
  constructor
  · rw [← List.append_assoc, List.rtakeWhile_concat_neg]
    rw [hblank]
    nofun
  · rw [lastWord, ← List.append_assoc, List.rdropWhile_concat_pos _ _ _ (by decide),
      ← List.append_assoc, List.rdropWhile_concat_neg _ _ _ (by simpa using hspace),
      List.rtakeWhile_concat_neg]
    rw [hname]
    nofun

/-- A word behind a fresh text is the last one. -/
theorem lastWord_append (hbefore : Fresh before) (h : ∀ c ∈ cs, isWordChar c = true) :
    lastWord (before ++ cs) = cs := by
  rcases List.eq_nil_or_concat' cs with rfl | ⟨cs, c, rfl⟩
  · rw [List.append_nil]
    exact hbefore.2
  · have hc : isWordChar c = true := h c (by simp)
    have hspace : c ≠ ' ' := by
      rintro rfl
      exact absurd hc (by decide)
    rw [lastWord, ← List.append_assoc, List.rdropWhile_concat_neg _ _ _ (by simpa using hspace),
      List.append_assoc, List.rtakeWhile, List.reverse_append,
      List.takeWhile_append_of_pos fun x hx => h x (List.mem_reverse.mp hx), List.reverse_append,
      List.reverse_reverse]
    have hnone : before.rtakeWhile isWordChar = [] := hbefore.1
    rw [List.rtakeWhile] at hnone
    rw [hnone, List.nil_append]

theorem calls_intercalate (hsep : sep ∈ Function.separators) (hbefore : Fresh before)
    (h : ∀ t ∈ texts, ∀ before, Fresh before → Calls words before t) :
    Calls words before (sep.intercalate texts) := by
  induction texts generalizing before with
  | nil => exact calls_of_forall nofun
  | cons t ts ih =>
    rw [List.forall_mem_cons] at h
    cases ts with
    | nil =>
      rw [List.intercalate_singleton]
      exact h.1 before hbefore
    | cons t' ts =>
      rw [List.intercalate_cons_cons]
      have hcalls : Calls words (before ++ t) sep :=
        calls_of_forall fun c hc => (not_parenthesis_of_mem_separators sep hsep c hc).1
      refine ((h.1 before hbefore).append hcalls).append (ih ?_ h.2)
      rw [← List.append_assoc]
      exact fresh_separator hsep

/-- An expression calls the functions that have a name in SQL, and no others. -/
theorem calls_chars (h : e.WellFormed dialect) (hbefore : Fresh before) :
    Calls Function.words before (chars dialect e) := by
  induction h generalizing before with
  | atom hname =>
    exact calls_of_forall
      fun c hc => (not_parenthesis_of_isWordChar (isWordChar_of_isName hname hc)).1
  | @call f args _ _ ih =>
    have hopening : Calls Function.words before (f.opening dialect) :=
      calls_of_forall fun c hc => (not_parenthesis_of_isWordChar (f.isWordChar_opening hc)).1
    have hleft : Calls Function.words (before ++ f.opening dialect) ['('] := by
      intro pre post heq
      obtain rfl : pre = [] := by
        rcases List.cons_eq_append_iff.mp heq with ⟨hpre, -⟩ | ⟨_, -, hnil⟩
        · exact hpre
        · simp at hnil
      rw [List.append_nil, lastWord_append hbefore fun c hc => f.isWordChar_opening hc]
      exact f.opening_mem dialect
    have hargs : Calls Function.words (before ++ f.opening dialect ++ ['('])
        ((f.separator dialect).intercalate (args.map (chars dialect))) := by
      refine calls_intercalate (f.separator_mem dialect) fresh_parenthesis ?_
      intro t ht before hbefore
      obtain ⟨a, ha, rfl⟩ := List.mem_map.mp ht
      exact ih a ha hbefore
    rw [chars_call, List.append_cons]
    refine (hopening.append hleft).append (.append ?_ (calls_of_forall (by simp)))
    rwa [← List.append_assoc]

end RelQuery.Expression
