import RelQuery.Proofs.Expression.Texts

/-!
# Documents that spell expressions

An accepted document spells one expression tree: it is a name, or a function with what its arguments
spell. The text of a tree ends where another begins, so outside SQL Server no two trees have one
text.
-/

namespace RelQuery.Expression

/-- The tree of a document. A name can be spelled as a string, a number or a `literal` object. -/
inductive Spells : Document → Expression → Prop
  | string (s : String) : Spells (.str s) (.atom s)
  | number (n : Number) : Spells (.num n) (.atom n.text)
  | literal (s : String) : Spells (.obj [("literal", .arr [.str s])]) (.atom s)
  | call {f : Function} {ds : List Document} {es : List Expression} : List.Forall₂ Spells ds es →
      Spells (.obj [("fn", .arr (.str f.name :: ds))]) (.call f es)

variable {dialect : Dialect} {f f' : Function} {d d' : Document} {ds : List Document}
  {e e' : Expression} {es es' args : List Expression} {s text name : String} {c : Char}
  {rest rest' sep : List Char}

/-! ## Reading -/

theorem Function.name_of_ofName? (h : Function.ofName? name = some f) : f.name = name := by
  have hname := List.find?_some h
  exact eq_of_beq hname

theorem checkName_eq_ok : checkName s = .ok text ↔ isName s = true ∧ text = s := by
  unfold checkName
  split
  · rename_i h
    simp [h, eq_comm]
  · rename_i h
    simp [h]

/-- An argument of a call: a name, or an expression. -/
def argument (dialect : Dialect) : Document → Except PlanError Expression
  | .str s => .atom <$> checkName s
  | .num n => .atom <$> checkName n.text
  | .obj fields => ofDocument dialect (.obj fields)
  | other => .error (.unsafeLiteral other.compact)

theorem arguments_eq_mapM : arguments dialect ds = ds.mapM (argument dialect) := by
  induction ds with
  | nil => rfl
  | cons d ds ih =>
    rw [List.mapM_cons, ← ih]
    cases d <;> rfl

/-- An accepted document is a literal, or a call of a function with accepted arguments. -/
theorem ofDocument_eq_ok (h : ofDocument dialect d = .ok e) :
    (∃ s, isName s = true ∧ d = .obj [("literal", .arr [.str s])] ∧ e = .atom s) ∨
    ∃ f ds args, d = .obj [("fn", .arr (.str (Function.name f) :: ds))] ∧
      ds.mapM (argument dialect) = .ok args ∧ f.checkCount dialect args.length = .ok () ∧
      e = .call f args := by
  unfold ofDocument at h
  split at h
  case h_2 => cases h
  case h_1 =>
    split_ifs at h with hliteral hfn
    · subst hliteral
      split at h
      · obtain ⟨s, hs, he⟩ := bind_eq_ok.mp h
        obtain ⟨hname, rfl⟩ := checkName_eq_ok.mp hs
        cases he
        exact .inl ⟨_, hname, rfl, rfl⟩
      · cases h
      · cases h
    · subst hfn
      split at h
      · obtain ⟨name, hname, hcall⟩ := bind_eq_ok.mp h
        obtain ⟨-, rfl⟩ := checkName_eq_ok.mp hname
        obtain ⟨args, hargs, happly⟩ := bind_eq_ok.mp hcall
        rw [arguments_eq_mapM] at hargs
        unfold apply at happly
        split at happly
        · cases happly
        · rename_i f hf
          obtain ⟨⟨⟩, hcount, he⟩ := bind_eq_ok.mp happly
          cases he
          rw [← Function.name_of_ofName? hf]
          exact .inr ⟨f, _, args, rfl, hargs, hcount, rfl⟩
      · cases h
      · cases h
    · cases h

/-- An accepted argument is a name, or an accepted document. -/
theorem argument_eq_ok (h : argument dialect d = .ok e) :
    (∃ s, isName s = true ∧ Spells d (.atom s) ∧ e = .atom s) ∨ ofDocument dialect d = .ok e := by
  cases d with
  | str s =>
    obtain ⟨text, hs, rfl⟩ := map_eq_ok.mp h
    obtain ⟨hname, rfl⟩ := checkName_eq_ok.mp hs
    exact .inl ⟨_, hname, .string _, rfl⟩
  | num n =>
    obtain ⟨text, hs, rfl⟩ := map_eq_ok.mp h
    obtain ⟨hname, rfl⟩ := checkName_eq_ok.mp hs
    exact .inl ⟨_, hname, .number n, rfl⟩
  | obj fields => exact .inr h
  | _ => cases h

theorem spells_of_argument (h : argument dialect d = .ok e) :
    Spells d e ∧ e.WellFormed dialect := by
  induction e generalizing d with
  | atom text =>
    rcases argument_eq_ok h with ⟨s, hname, hd, hs⟩ | h
    · cases hs
      exact ⟨hd, .atom hname⟩
    · rcases ofDocument_eq_ok h with ⟨s, hname, rfl, hs⟩ | ⟨_, _, _, _, _, _, hs⟩
      · cases hs
        exact ⟨.literal _, .atom hname⟩
      · cases hs
  | call f args ih =>
    rcases argument_eq_ok h with ⟨s, -, -, hs⟩ | h
    · cases hs
    · rcases ofDocument_eq_ok h with ⟨s, -, -, hs⟩ | ⟨_, ds, _, rfl, hargs, hcount, hs⟩
      · cases hs
      · cases hs
        have hread := (forall₂_of_mapM hargs).flip
        refine ⟨.call (.flip ?_), .call hcount fun a ha => ?_⟩
        · exact ((List.forall₂_and_left _ _).mpr ⟨ih, hread⟩).imp fun a d h => (h.1 h.2).1
        · obtain ⟨d, -, hd⟩ := mem_of_mapM hargs ha
          exact (ih a ha hd).2

/-- An accepted document spells the expression that is read from it. -/
theorem spells_of_ofDocument (h : ofDocument dialect d = .ok e) :
    Spells d e ∧ e.WellFormed dialect := by
  cases d with
  | obj fields => exact spells_of_argument h
  | _ => cases h

/-! ## Functions by what a call writes -/

namespace Function

theorem mem_all (f : Function) : f ∈ all := by cases f <;> decide

theorem operator?_of_ne_mssql (h : dialect ≠ .mssql) (f : Function) :
    f.operator? dialect = f.operator? .postgres := by
  cases f <;> simp [operator?, h]

/-- Outside SQL Server a function is told by its name and its operator. -/
theorem eq_of_opening_eq (h : dialect ≠ .mssql) (hopening : f.opening dialect = f'.opening dialect)
    (hseparator : f.separator dialect = f'.separator dialect) : f = f' := by
  have hall : ∀ f ∈ all, ∀ f' ∈ all, f.opening .postgres = f'.opening .postgres →
      f.separator .postgres = f'.separator .postgres → f = f' := by
    decide
  simp only [opening, separator, operator?_of_ne_mssql h] at hopening hseparator
  exact hall f f.mem_all f' f'.mem_all hopening hseparator

/-- A function with a name is told by it. -/
theorem eq_of_opening_ne_nil (h : dialect ≠ .mssql) (hne : f.opening dialect ≠ [])
    (hopening : f.opening dialect = f'.opening dialect) : f = f' := by
  have hall : ∀ f ∈ all, ∀ f' ∈ all, f.opening .postgres ≠ [] →
      f.opening .postgres = f'.opening .postgres → f = f' := by
    decide
  simp only [opening, operator?_of_ne_mssql h] at hopening hne
  exact hall f f.mem_all f' f'.mem_all hne hopening

theorem exists_operator (h : f.opening dialect = []) : ∃ operator,
    f.operator? dialect = some operator := by
  cases f <;> cases dialect <;> first | exact ⟨_, rfl⟩ | exact absurd h (by decide)

/-- An operator stands between two operands at least. -/
theorem two_le_of_opening_eq_nil {count : Nat} (h : f.opening dialect = [])
    (hcount : f.checkCount dialect count = .ok ()) : 2 ≤ count := by
  obtain ⟨operator, hoperator⟩ := exists_operator h
  simp only [checkCount, hoperator] at hcount
  split at hcount
  · cases hcount
  · omega

theorem length_separator (h : f.opening dialect = []) : (f.separator dialect).length = 3 := by
  cases f <;> cases dialect <;> first | rfl | exact absurd h (by decide)

end Function

/-! ## Where texts end -/

/-- A text behind an expression continues neither a name nor a call. -/
def Ends (rest : List Char) : Prop := ∀ c, rest.head? = some c → isWordChar c = false ∧ c ≠ '('

/-- The text of a call behind its first argument. -/
def further (sep : List Char) (texts : List (List Char)) (rest : List Char) : List Char :=
  texts.flatMap (sep ++ ·) ++ ')' :: rest

theorem intercalate_cons_append (text : List Char) (texts : List (List Char)) :
    sep.intercalate (text :: texts) ++ ')' :: rest = text ++ further sep texts rest := by
  induction texts generalizing text with
  | nil => rw [List.intercalate_singleton, further, List.flatMap_nil, List.nil_append]
  | cons text' texts ih =>
    rw [List.intercalate_cons_cons, List.append_assoc, ih, further, further, List.flatMap_cons,
      List.append_assoc, List.append_assoc, List.append_assoc]

theorem ends_parenthesis : Ends (')' :: rest) := by
  intro c hc
  cases hc
  decide

theorem ends_further {texts : List (List Char)} (h : sep ∈ Function.separators) :
    Ends (further sep texts rest) := by
  cases texts with
  | nil => exact ends_parenthesis
  | cons text texts =>
    simp only [Function.separators, List.mem_cons, List.not_mem_nil, or_false] at h
    rcases h with rfl | rfl | rfl | rfl <;>
    · intro c hc
      cases hc
      decide

/-- A word ends before what is no part of it. -/
theorem takeWhile_word {word : List Char} (h : ∀ c ∈ word, isWordChar c = true)
    (hrest : ∀ c, rest.head? = some c → isWordChar c = false) :
    (word ++ rest).takeWhile isWordChar = word := by
  rw [List.takeWhile_append_of_pos h]
  cases rest with
  | nil => exact List.append_nil _
  | cons c rest =>
    rw [List.takeWhile_cons_of_neg (by rw [hrest c rfl]; nofun), List.append_nil]

/-- A call is no part of the word before it. -/
theorem takeWhile_call (f : Function) :
    (f.opening dialect ++ '(' :: rest).takeWhile isWordChar = f.opening dialect :=
  takeWhile_word (fun _ hc => f.isWordChar_opening hc) fun c hc => by cases hc; decide

/-- A text starts with a word or a parenthesis. -/
theorem exists_head_chars (h : e.WellFormed dialect) :
    ∃ c cs, chars dialect e = c :: cs ∧ c ≠ ')' := by
  have hword : ∀ c, isWordChar c = true → c ≠ ')' := fun c hc =>
    (not_parenthesis_of_isWordChar hc).2
  cases h with
  | @atom text hname =>
    cases htext : text.toList with
    | nil =>
      rw [String.toList_eq_nil_iff.mp htext] at hname
      exact absurd hname (by decide)
    | cons c cs =>
      exact ⟨c, cs, htext, hword c (isWordChar_of_isName hname (htext ▸ List.mem_cons_self))⟩
  | @call f args _ _ =>
    cases hopening : f.opening dialect with
    | nil => exact ⟨'(', _, by rw [chars_call, hopening]; rfl, by decide⟩
    | cons c cs =>
      have hc : isWordChar c = true := f.isWordChar_opening (hopening ▸ List.mem_cons_self)
      exact ⟨c, _, by rw [chars_call, hopening]; rfl, hword c hc⟩

/-! ## Unique reading -/

/-- Whatever follows them, the text of `e` and that of another expression end at one place only if
the expressions are the same. -/
def Told (dialect : Dialect) (e : Expression) : Prop :=
  ∀ e' rest rest', e'.WellFormed dialect → Ends rest → Ends rest' →
    chars dialect e ++ rest = chars dialect e' ++ rest' → e = e' ∧ rest = rest'

theorem further_inj (hsep : sep ∈ Function.separators) (H : ∀ e ∈ es, Told dialect e)
    (hes' : ∀ e ∈ es', e.WellFormed dialect)
    (h : further sep (es.map (chars dialect)) rest = further sep (es'.map (chars dialect)) rest') :
    es = es' ∧ rest = rest' := by
  have hhead : ∀ cs ds, sep ++ cs ≠ ')' :: ds := by
    intro cs ds heq
    simp only [Function.separators, List.mem_cons, List.not_mem_nil, or_false] at hsep
    rcases hsep with rfl | rfl | rfl | rfl <;> cases heq
  induction es generalizing es' with
  | nil =>
    cases es' with
    | nil => exact ⟨rfl, (List.cons.inj h).2⟩
    | cons e' es' =>
      simp only [further, List.map_cons, List.map_nil, List.flatMap_cons, List.flatMap_nil,
        List.append_assoc, List.nil_append] at h
      exact absurd h.symm (hhead _ _)
  | cons e es ih =>
    cases es' with
    | nil =>
      simp only [further, List.map_cons, List.map_nil, List.flatMap_cons, List.flatMap_nil,
        List.append_assoc, List.nil_append] at h
      exact absurd h (hhead _ _)
    | cons e' es' =>
      rw [List.forall_mem_cons] at H hes'
      simp only [further, List.map_cons, List.flatMap_cons, List.append_assoc] at h
      obtain ⟨rfl, hrest⟩ := H.1 e' _ _ hes'.1 (ends_further hsep) (ends_further hsep)
        (List.append_cancel_left h)
      obtain ⟨rfl, rfl⟩ := ih H.2 hes'.2 hrest
      exact ⟨rfl, rfl⟩

theorem args_inj (hsep : sep ∈ Function.separators) (H : ∀ e ∈ es, Told dialect e)
    (hes : ∀ e ∈ es, e.WellFormed dialect) (hes' : ∀ e ∈ es', e.WellFormed dialect)
    (h : sep.intercalate (es.map (chars dialect)) ++ ')' :: rest =
      sep.intercalate (es'.map (chars dialect)) ++ ')' :: rest') : es = es' ∧ rest = rest' := by
  cases es with
  | nil =>
    cases es' with
    | nil => exact ⟨rfl, (List.cons.inj h).2⟩
    | cons e' es' =>
      obtain ⟨c, cs, hc, hne⟩ := exists_head_chars (hes' e' List.mem_cons_self)
      rw [List.map_cons, intercalate_cons_append, hc] at h
      exact absurd (List.cons.inj h).1.symm hne
  | cons e es =>
    rw [List.map_cons, intercalate_cons_append] at h
    cases es' with
    | nil =>
      obtain ⟨c, cs, hc, hne⟩ := exists_head_chars (hes e List.mem_cons_self)
      rw [hc] at h
      exact absurd (List.cons.inj h).1 hne
    | cons e' es' =>
      rw [List.map_cons, intercalate_cons_append] at h
      rw [List.forall_mem_cons] at H hes'
      obtain ⟨rfl, hrest⟩ := H.1 e' _ _ hes'.1 (ends_further hsep) (ends_further hsep) h
      obtain ⟨rfl, rfl⟩ := further_inj hsep H.2 hes'.2 hrest
      exact ⟨rfl, rfl⟩

/-- Two operators with the same first operand are the same if their texts are. -/
theorem separator_eq (hnil : f.opening dialect = []) (hnil' : f'.opening dialect = [])
    (H : ∀ e ∈ es, Told dialect e) (hes' : ∀ e ∈ es', e.WellFormed dialect) (hlen : 2 ≤ es.length)
    (hlen' : 2 ≤ es'.length)
    (h : (f.separator dialect).intercalate (es.map (chars dialect)) ++ ')' :: rest =
      (f'.separator dialect).intercalate (es'.map (chars dialect)) ++ ')' :: rest') :
    f.separator dialect = f'.separator dialect := by
  obtain ⟨a, a₂, as, rfl⟩ : ∃ a a₂ as, es = a :: a₂ :: as := by
    match es, hlen with
    | a :: a₂ :: as, _ => exact ⟨a, a₂, as, rfl⟩
  obtain ⟨b, b₂, bs, rfl⟩ : ∃ b b₂ bs, es' = b :: b₂ :: bs := by
    match es', hlen' with
    | b :: b₂ :: bs, _ => exact ⟨b, b₂, bs, rfl⟩
  simp only [List.map_cons, intercalate_cons_append] at h
  obtain ⟨-, hrest⟩ := H a List.mem_cons_self b _ _ (hes' b List.mem_cons_self)
    (ends_further (f.separator_mem dialect)) (ends_further (f'.separator_mem dialect)) h
  simp only [further, List.flatMap_cons, List.append_assoc] at hrest
  refine (List.append_inj hrest ?_).1
  rw [Function.length_separator hnil, Function.length_separator hnil']

/-- A name before what ends it is no call. -/
theorem name_append_ne (hname : isName text = true) (hrest : Ends rest) :
    text.toList ++ rest ≠ f.opening dialect ++ '(' :: rest' := by
  intro h
  have hword : (text.toList ++ rest).takeWhile isWordChar = text.toList :=
    takeWhile_word (fun c hc => isWordChar_of_isName hname hc) fun c hc => (hrest c hc).1
  rw [h, takeWhile_call] at hword
  rw [← hword] at h
  exact (hrest '(' (by rw [List.append_cancel_left h]; rfl)).2 rfl

/-- The text of an expression tells it, whatever follows. -/
theorem told (hdialect : dialect ≠ .mssql) (he : e.WellFormed dialect) : Told dialect e := by
  induction he with
  | @atom text hname =>
    intro e' rest rest' he' hrest hrest' h
    cases he' with
    | @atom text' hname' =>
      have hword : (text.toList ++ rest).takeWhile isWordChar = text.toList :=
        takeWhile_word (fun c hc => isWordChar_of_isName hname hc) fun c hc => (hrest c hc).1
      have hword' : (text'.toList ++ rest').takeWhile isWordChar = text'.toList :=
        takeWhile_word (fun c hc => isWordChar_of_isName hname' hc) fun c hc => (hrest' c hc).1
      have heq : text.toList = text'.toList := by
        rw [← hword, ← hword']
        exact congrArg _ h
      cases String.toList_inj.mp heq
      exact ⟨rfl, List.append_cancel_left h⟩
    | @call f' args' _ _ =>
      rw [chars_call, List.append_assoc] at h
      exact absurd h (name_append_ne hname hrest)
  | @call f args hcount hargs ih =>
    intro e' rest rest' he' hrest hrest' h
    rw [chars_call, List.append_assoc, List.cons_append, List.append_assoc,
      List.singleton_append] at h
    cases he' with
    | @atom text' hname' => exact absurd h.symm (name_append_ne hname' hrest')
    | @call f' args' hcount' hargs' =>
      rw [chars_call, List.append_assoc, List.cons_append, List.append_assoc,
        List.singleton_append] at h
      have hopening : f.opening dialect = f'.opening dialect := by
        have hword := congrArg (List.takeWhile isWordChar) h
        rwa [takeWhile_call, takeWhile_call] at hword
      rw [hopening] at h
      have h := (List.cons.inj (List.append_cancel_left h)).2
      have hf : f = f' := by
        by_cases hnil : f.opening dialect = []
        · refine Function.eq_of_opening_eq hdialect hopening ?_
          have hnil' : f'.opening dialect = [] := hopening ▸ hnil
          exact separator_eq hnil hnil' ih hargs' (Function.two_le_of_opening_eq_nil hnil hcount)
            (Function.two_le_of_opening_eq_nil hnil' hcount') h
        · exact Function.eq_of_opening_ne_nil hdialect hnil hopening
      subst hf
      obtain ⟨rfl, rfl⟩ := args_inj (f.separator_mem dialect) ih hargs hargs' h
      exact ⟨rfl, rfl⟩

/-- No two expressions have one text outside SQL Server. -/
theorem chars_injective (hdialect : dialect ≠ .mssql) (he : e.WellFormed dialect)
    (he' : e'.WellFormed dialect) (h : chars dialect e = chars dialect e') : e = e' := by
  have hend : Ends [] := nofun
  exact (told hdialect he e' [] [] he' hend hend (by rw [h])).1

theorem Function.eq_of_name_eq (h : f.name = f'.name) : f = f' := by
  have hall : ∀ f ∈ all, ∀ f' ∈ all, f.name = f'.name → f = f' := by decide
  exact hall f f.mem_all f' f'.mem_all h

/-- A function object spells a call of the function it names. -/
theorem Spells.exists_call
    (h : Spells (.obj [("fn", .arr (.str f.name :: ds))]) e) :
    ∃ es, List.Forall₂ Spells ds es ∧ e = .call f es := by
  generalize hd : Document.obj [("fn", .arr (.str f.name :: ds))] = d at h
  cases h with
  | @call f' _ es hes =>
    simp only [Document.obj.injEq, List.cons.injEq, Prod.mk.injEq, Document.arr.injEq,
      Document.str.injEq, true_and, and_true] at hd
    obtain ⟨hname, rfl⟩ := hd
    exact ⟨es, hes, by rw [Function.eq_of_name_eq hname]⟩
  | literal s => simp at hd
  | _ => cases hd

theorem Spells.eq_literal (h : Spells (.obj [("literal", .arr [.str s])]) e) : e = .atom s := by
  generalize hd : Document.obj [("literal", .arr [.str s])] = d at h
  cases h with
  | call => simp at hd
  | literal s' =>
    cases hd
    rfl
  | _ => cases hd

/-- A document spells one expression. -/
theorem Spells.unique (h : Spells d e) (h' : Spells d e') : e = e' := by
  induction e generalizing d e' with
  | atom text =>
    cases h with
    | string => cases h'; rfl
    | number => cases h'; rfl
    | literal => exact h'.eq_literal.symm
  | call f args ih =>
    cases h with
    | call hargs =>
      obtain ⟨args', hargs', rfl⟩ := h'.exists_call
      congr
      clear h'
      induction hargs generalizing args' with
      | nil =>
        cases hargs'
        rfl
      | cons hd _ ih' =>
        cases hargs' with
        | cons hd' htl' =>
          rw [List.forall_mem_cons] at ih
          rw [ih.1 hd hd', ih' ih.2 _ htl']

/-! ## What reaches a statement -/

/-- A text that brings nothing into a statement but names, operators and calls of a few functions:
it is made of safe characters, closes what it opens, starts no comment, and the word before a
parenthesis, if there is one, is the name of such a function. -/
structure Confined (cs : List Char) : Prop where
  safe : ∀ c ∈ cs, isSafeChar c = true
  balanced : Balanced cs
  uncommented : ¬"--".toList <:+: cs
  calls : ∀ before after, cs = before ++ '(' :: after → lastWord before ∈ [] :: Function.words

/-- The text of an accepted document is confined. Outside SQL Server, two accepted documents have one
text exactly if they spell one expression. -/
theorem confined_of_lower (h : lower dialect d = .ok text) : Confined text.toList ∧
    (dialect ≠ .mssql → ∀ d' text', lower dialect d' = .ok text' →
      (text = text' ↔ ∃ e, Spells d e ∧ Spells d' e)) := by
  obtain ⟨e, he, hsql⟩ := bind_eq_ok.mp h
  cases hsql
  obtain ⟨hspells, hwf⟩ := spells_of_ofDocument he
  refine ⟨⟨isSafeChar_chars hwf, depth?_chars hwf 0, (noComment_chars hwf).no_dashes,
    calls_chars hwf fresh_nil⟩, fun hdialect d' text' h' => ?_⟩
  obtain ⟨e', he', hsql'⟩ := bind_eq_ok.mp h'
  cases hsql'
  obtain ⟨hspells', hwf'⟩ := spells_of_ofDocument he'
  constructor
  · intro htext
    have heq : e = e' := chars_injective hdialect hwf hwf' (congrArg String.toList htext)
    exact ⟨e, hspells, heq ▸ hspells'⟩
  · rintro ⟨e₀, h₀, h₀'⟩
    rw [hspells.unique h₀, hspells'.unique h₀']

/-- In SQL Server a concatenation and a sum have one text. -/
example : sql .mssql (.call .concat [.atom "a", .atom "b"]) =
    sql .mssql (.call .add [.atom "a", .atom "b"]) := by decide

/-! ### A margin -/

/-- The difference of a price and a cost, compared with a margin. -/
def margin : Document := .obj [("fn", .arr [.str "equals",
  .obj [("fn", .arr [.str "subtract", .str "price", .str "cost"])],
  .obj [("literal", .arr [.str "margin"])]])]

/-- The same with other spellings of the names. -/
def margin' : Document := .obj [("fn", .arr [.str "equals",
  .obj [("fn", .arr [.str "subtract", .obj [("literal", .arr [.str "price"])], .str "cost"])],
  .str "margin"])]

theorem lower_margin : lower .postgres margin = .ok "((price - cost) = margin)" := by rfl

theorem lower_margin' : lower .postgres margin' = .ok "((price - cost) = margin)" := by rfl

theorem margin_confined : lower .postgres margin = .ok "((price - cost) = margin)" ∧
    lower .postgres margin' = .ok "((price - cost) = margin)" ∧
    Confined "((price - cost) = margin)".toList ∧ ∃ e, Spells margin e ∧ Spells margin' e := by
  obtain ⟨hconfined, htold⟩ := confined_of_lower lower_margin
  exact ⟨lower_margin, lower_margin', hconfined,
    (htold (by decide) margin' _ lower_margin').mp rfl⟩

end RelQuery.Expression
