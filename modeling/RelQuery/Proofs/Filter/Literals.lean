import RelQuery.Filter.Operand
import RelQuery.Proofs.Except
import RelQuery.Proofs.Text.Scalars
import RelQuery.Query

/-!
# Literals of operands

The literal of an operand is a scalar, two scalars around `AND`, or a list of scalars in
parentheses. Reading it as SQL gives back the values of the operand, and ends where the literal
does.
-/

namespace RelQuery

/-! ## Timestamps -/

namespace Calendar

variable {c : Char} {w n : Nat}

theorem isDigit_padded (h : c ∈ (padded w n).toList) : c.isDigit = true := by
  rw [padded, String.toList_ofList] at h
  rcases List.mem_append.mp h with h | h
  · rw [(List.mem_replicate.mp h).2]
    rfl
  · rw [Nat.toString_eq_ofList_toDigits, String.toList_ofList] at h
    exact Numeral.isDigit_toDigits h

theorem quote_notMem_padded : '\'' ∉ (padded w n).toList := by
  intro h
  have hdigit := isDigit_padded h
  cases hdigit

/-- The text of a timestamp has no quote. -/
theorem quote_notMem_text (t : Timestamp) : '\'' ∉ t.text.toList := by
  have hyear : '\'' ∉ (yearText t.date.year).toList := by
    unfold yearText
    split_ifs <;> simp [quote_notMem_padded]
  have hfraction : '\'' ∉ (fractionText t.clock.nano).toList := by
    unfold fractionText
    split_ifs <;> simp [quote_notMem_padded]
  have hoffset : '\'' ∉ (offsetText t.offset).toList := by
    unfold offsetText
    split_ifs <;> simp [quote_notMem_padded]
  simp [Timestamp.text, Timestamp.localText, Date.text, Clock.text, hyear, hfraction, hoffset,
    quote_notMem_padded]

theorem quote_notMem_normalize? {s t : String} (h : normalize? s = some t) :
    '\'' ∉ t.toList := by
  unfold normalize? at h
  split at h
  · cases h
    exact quote_notMem_text _
  · obtain ⟨d, -, rfl⟩ := Option.map_eq_some_iff.mp h
    exact quote_notMem_text _

end Calendar

/-! ## Scalars -/

/-- The types whose texts are compared as they are. -/
def ScalarType.isVerbatim (type : ScalarType) : Bool :=
  !(type.isInteger || type.isDecimal || type.isDate || type = .dateTimeOffset)

/-- What an operator has a text found with, before and after it: `%` stands for anything. -/
def Operator.wildcards : Operator → String × String
  | .startsWith => ("", "%")
  | .endsWith => ("%", "")
  | .substring => ("%", "%")
  | _ => ("", "")

theorem Operator.pattern_eq {op : Operator} {s : String} :
    op.pattern s = op.wildcards.1 ++ s ++ op.wildcards.2 := by
  cases op <;> simp [pattern, wildcards]

namespace Operand

open Text

/-- The scalar that a value is compared as. -/
inductive Stands (type : ScalarType) (attr : String) : Document → Scalar → Prop
  | null : Stands type attr .null .null
  | truth (b : Bool) : Stands type attr (.bool b) (.truth b)
  | integer {v : Document} {n : Bigint} {x : Scalar} : type.isInteger = true →
      integer v attr = .ok n → x.Denotes (.ofBigint n) → Stands type attr v x
  | decimal {v : Document} {y : Binary64} {x : Scalar} : type.isDecimal = true →
      decimal v attr = .ok y → x.Denotes (.float y) → Stands type attr v x
  | date {s t : String} : type.isDate = true ∨ type = .dateTimeOffset →
      Calendar.normalize? s = some t → Stands type attr (.str s) (.text t)
  | number {n : Number} {x : Scalar} : type.isVerbatim = true → x.Denotes n →
      Stands type attr (.num n) x
  | text {s : String} : type.isVerbatim = true → Stands type attr (.str s) (.text s)

variable {type : ScalarType} {op : Operator} {v : Document} {attr s t : String}

theorem timestamp_eq_ok (h : timestamp v attr = .ok t) :
    ∃ s, v = .str s ∧ Calendar.normalize? s = some t := by
  unfold timestamp at h
  dsimp only at h
  split at h
  · rename_i hread
    cases h
    split at hread
    · exact ⟨_, rfl, hread⟩
    · cases hread
  · cases h

/-- The literal of a scalar reads as what the scalar stands for. -/
theorem exists_scalar (h : scalarLiteral type v attr = .ok t) :
    ∃ x : Scalar, x.Spelled t.toList ∧ Stands type attr v x := by
  unfold scalarLiteral at h
  split at h
  · cases h
    exact ⟨.null, Scalar.spelled_null, .null⟩
  · rename_i b
    cases h
    exact ⟨.truth b, Scalar.spelled_truth b, .truth b⟩
  · split_ifs at h with hinteger hdecimal hdate
    · obtain ⟨n, hn, h⟩ := bind_eq_ok.mp h
      cases h
      obtain ⟨x, hspelled, hdenotes⟩ := Scalar.spelled_toString n.val
      exact ⟨x, hspelled, .integer hinteger hn (hdenotes _ _)⟩
    · obtain ⟨y, hy, h⟩ := bind_eq_ok.mp h
      cases h
      obtain ⟨x, hspelled, hdenotes⟩ := Scalar.spelled_plainText y
      exact ⟨x, hspelled, .decimal hdecimal hy hdenotes⟩
    · obtain ⟨text, ht, h⟩ := bind_eq_ok.mp h
      cases h
      obtain ⟨s, rfl, hs⟩ := timestamp_eq_ok ht
      rw [← Text.literal_of_quote_notMem (Calendar.quote_notMem_normalize? hs)]
      refine ⟨.text text, Scalar.spelled_literal text, .date ?_ hs⟩
      simpa using hdate
    · have hverbatim : type.isVerbatim = true := by
        simp only [Bool.or_eq_true, not_or] at hdate
        simpa [ScalarType.isVerbatim, hinteger, hdecimal] using hdate
      split at h
      · rename_i n _ _
        cases h
        obtain ⟨x, hspelled, hdenotes⟩ := Scalar.spelled_text n
        exact ⟨x, hspelled, .number hverbatim hdenotes⟩
      · rename_i s _ _
        cases h
        exact ⟨.text s, Scalar.spelled_literal s, .text hverbatim⟩
      · cases h

/-! ## Ranges and lists -/

/-- What the literal of an operand stands for. -/
inductive Scalars
  | one (x : Scalar)
  | range (low high : Scalar)
  | list (xs : List Scalar)

/-- Reads scalars with commas between them up to a closing parenthesis. -/
inductive ReadsItems : List Char → List Scalar → List Char → Prop
  | last {cs rest : List Char} {x : Scalar} : Scalar.read? cs = some (x, ')' :: rest) →
      ReadsItems cs [x] rest
  | cons {cs ds rest : List Char} {x : Scalar} {xs : List Scalar} :
      Scalar.read? cs = some (x, ", ".toList ++ ds) → ReadsItems ds xs rest →
      ReadsItems cs (x :: xs) rest

/-- Reads the literal that an operator asks for. -/
inductive Reads (op : Operator) : List Char → Scalars → List Char → Prop
  | one {cs rest : List Char} {x : Scalar} : op.takesList = false →
      Scalar.read? cs = some (x, rest) → Reads op cs (.one x) rest
  | range {cs ds rest : List Char} {low high : Scalar} : op.isRange = true →
      Scalar.read? cs = some (low, " AND ".toList ++ ds) → Scalar.read? ds = some (high, rest) →
      Reads op cs (.range low high) rest
  | empty {rest : List Char} : op.takesList = true → op.isRange = false →
      Reads op ('(' :: ')' :: rest) (.list []) rest
  | list {cs rest : List Char} {xs : List Scalar} : op.takesList = true → op.isRange = false →
      ReadsItems cs xs rest → Reads op ('(' :: cs) (.list xs) rest

/-- What an operand is compared as. -/
inductive Meant (type : ScalarType) (op : Operator) (attr : String) : Document → Scalars → Prop
  | pattern {s : String} : op.isPattern = true →
      Meant type op attr (.str s) (.one (.text (op.wildcards.1 ++ s ++ op.wildcards.2)))
  | scalar {v : Document} {x : Scalar} : (∀ s, v = .str s → op.isPattern = false) →
      Stands type attr v x → Meant type op attr v (.one x)
  | range {a b : Document} {x y : Scalar} : Stands type attr a x → Stands type attr b y →
      Meant type op attr (.arr [a, b]) (.range x y)
  | list {items : List Document} {xs : List Scalar} :
      List.Forall₂ (Stands type attr) items xs → Meant type op attr (.arr items) (.list xs)

variable {cs rest : List Char} {texts : List String} {xs : List Scalar} {items : List Document}

theorem delimits_cons {c : Char} (h : isWordChar c = false ∧ c ≠ '\'') : Delimits (c :: rest) := by
  intro d hd
  cases hd
  exact h

theorem readsItems_of_spelled
    (h : List.Forall₂ (fun (t : String) (x : Scalar) => x.Spelled t.toList) texts xs)
    (hne : texts ≠ []) : ReadsItems ((", ".intercalate texts).toList ++ ')' :: rest) xs rest := by
  rw [String.toList_intercalate]
  induction h with
  | nil => exact absurd rfl hne
  | @cons t x ts xs ht hts ih =>
    cases hts with
    | nil =>
      refine .last ?_
      rw [List.map_cons, List.map_nil, List.intercalate_singleton]
      exact ht _ (delimits_cons (by decide))
    | @cons t' x' ts xs ht' hts =>
      refine .cons ?_ (ih (List.cons_ne_nil _ _))
      rw [List.map_cons, List.map_cons, List.intercalate_cons_cons, List.append_assoc,
        List.append_assoc, ← List.map_cons]
      exact ht _ (delimits_cons (by decide))

/-- The scalars of a list that is written are those of its items. -/
theorem exists_list (h : items.mapM (scalarLiteral type · attr) = .ok texts) :
    ∃ xs, List.Forall₂ (Stands type attr) items xs ∧
      List.Forall₂ (fun (t : String) (x : Scalar) => x.Spelled t.toList) texts xs := by
  induction items generalizing texts with
  | nil =>
    cases h
    exact ⟨[], .nil, .nil⟩
  | cons v items ih =>
    obtain ⟨t, ts, ht, hts, rfl⟩ := mapM_cons_eq_ok.mp h
    obtain ⟨x, hspelled, hx⟩ := exists_scalar ht
    obtain ⟨xs, hxs, hspelleds⟩ := ih hts
    exact ⟨x :: xs, .cons hx hxs, .cons hspelled hspelleds⟩

theorem takesList_of_arr (h : checkShape op (.arr items) attr = .ok ()) :
    op.takesList = true ∧ (op.isRange = true → items.length = 2) := by
  unfold checkShape at h
  split at h
  · rename_i hlist
    refine ⟨hlist, fun hrange => ?_⟩
    dsimp only at h
    split at h
    · cases h
    · rename_i hpair
      simpa [hrange] using hpair
  · cases op <;> cases h

theorem takesList_of_not_arr (h : checkShape op v attr = .ok ()) (harr : ∀ items, v ≠ .arr items) :
    op.takesList = false := by
  unfold checkShape at h
  split at h
  · split at h
    · exact absurd rfl (harr _)
    · cases h
  · rename_i hlist
    exact Bool.eq_false_iff.mpr hlist

/-- The literal of an operand of the right shape reads as what the operand is compared as. -/
theorem exists_reads (hshape : checkShape op v attr = .ok ())
    (h : Operand.literal type op v attr = .ok t) : ∃ l, Meant type op attr v l ∧
      ∀ rest, Delimits rest → Reads op (t.toList ++ rest) l rest := by
  unfold Operand.literal at h
  split at h
  · rename_i items
    obtain ⟨hlist, hpair⟩ := takesList_of_arr hshape
    split at h
    · rename_i low high hrange
      obtain ⟨a, ha, h⟩ := bind_eq_ok.mp h
      obtain ⟨b, hb, h⟩ := bind_eq_ok.mp h
      cases h
      obtain ⟨x, hx, hlow⟩ := exists_scalar ha
      obtain ⟨y, hy, hhigh⟩ := exists_scalar hb
      refine ⟨.range x y, .range hlow hhigh, fun rest hrest => .range hrange ?_ (hy rest hrest)⟩
      rw [String.toList_append, String.toList_append, List.append_assoc, List.append_assoc]
      exact hx _ (delimits_cons (by decide))
    · rename_i hpairs
      have hrange : op.isRange = false := by
        by_contra hrange
        rw [Bool.not_eq_false] at hrange
        obtain ⟨a, b, rfl⟩ := List.length_eq_two.mp (hpair hrange)
        exact hpairs a b hrange rfl
      obtain ⟨texts, htexts, h⟩ := bind_eq_ok.mp h
      cases h
      obtain ⟨xs, hxs, hspelled⟩ := exists_list htexts
      refine ⟨.list xs, .list hxs, fun rest _ => ?_⟩
      rw [String.toList_append, String.toList_append, List.append_assoc, List.append_assoc]
      cases texts with
      | nil =>
        cases hspelled
        exact .empty hlist hrange
      | cons t ts => exact .list hlist hrange (readsItems_of_spelled hspelled (List.cons_ne_nil _ _))
  · rename_i s
    have hlist := takesList_of_not_arr hshape nofun
    split at h
    · rename_i hpattern
      cases h
      rw [op.pattern_eq]
      exact ⟨.one (.text _), .pattern hpattern,
        fun rest hrest => .one hlist (Scalar.spelled_literal _ rest hrest)⟩
    · rename_i hpattern
      obtain ⟨x, hspelled, hx⟩ := exists_scalar h
      exact ⟨.one x, .scalar (fun _ _ => Bool.eq_false_iff.mpr hpattern) hx,
        fun rest hrest => .one hlist (hspelled rest hrest)⟩
  · rename_i harr hstr
    have hlist := takesList_of_not_arr hshape harr
    obtain ⟨x, hspelled, hx⟩ := exists_scalar h
    exact ⟨.one x, .scalar (fun s hs => (hstr s hs).elim) hx,
      fun rest hrest => .one hlist (hspelled rest hrest)⟩

theorem wildcards_of_not_isPattern (h : op.isPattern = false) : op.wildcards = ("", "") := by
  cases op <;> first | rfl | cases h

/-- A text of a type whose texts are compared as they are is compared as itself, with the wildcards
of the operator. -/
theorem Meant.of_str {l : Scalars} (h : Meant type op attr (.str s) l)
    (hverbatim : type.isVerbatim = true) :
    l = .one (.text (op.wildcards.1 ++ s ++ op.wildcards.2)) := by
  simp only [ScalarType.isVerbatim, Bool.not_eq_true', Bool.or_eq_false_iff,
    decide_eq_false_iff_not] at hverbatim
  obtain ⟨⟨⟨hinteger, hdecimal⟩, hdate⟩, hoffset⟩ := hverbatim
  cases h with
  | pattern => rfl
  | scalar hpattern hx =>
    rw [wildcards_of_not_isPattern (hpattern s rfl), String.empty_append, String.append_empty]
    cases hx with
    | text => rfl
    | integer h => exact absurd (hinteger.symm.trans h) nofun
    | decimal h => exact absurd (hdecimal.symm.trans h) nofun
    | date h =>
      rcases h with h | h
      · exact absurd (hdate.symm.trans h) nofun
      · exact absurd h hoffset

end Operand

open Text

/-- The literal of an operand of the right shape reads as what the operand is compared as; a key
reads as the number or the text that it is, and an identifier as its name. Each reading ends where
the text does, whatever delimits it. -/
theorem literals_read_back :
    (∀ type op v attr t, Operand.checkShape op v attr = .ok () →
      Operand.literal type op v attr = .ok t → ∃ l, Operand.Meant type op attr v l ∧
        (∀ s, v = .str s → type.isVerbatim = true →
          l = .one (.text (op.wildcards.1 ++ s ++ op.wildcards.2))) ∧
        ∀ rest, Delimits rest → Operand.Reads op (t.toList ++ rest) l rest) ∧
    (∀ n, ∃ t x, Query.keyLiteral (.num n) = .ok t ∧ Scalar.Denotes x n ∧ x.Spelled t.toList) ∧
    (∀ s, ∃ t, Query.keyLiteral (.str s) = .ok t ∧ (Scalar.text s).Spelled t.toList) ∧
    ∀ s rest, rest.head? ≠ some '"' →
      identifier? ((identifier s).toList ++ rest) = some (s, rest) := by
  refine ⟨fun type op v attr t hshape h => ?_, fun n => ?_, fun s => ?_, fun s rest hrest => ?_⟩
  · obtain ⟨l, hmeant, hreads⟩ := Operand.exists_reads hshape h
    refine ⟨l, hmeant, fun s hs hverbatim => ?_, hreads⟩
    subst hs
    exact hmeant.of_str hverbatim
  · obtain ⟨x, hspelled, hdenotes⟩ := Scalar.spelled_text n
    exact ⟨n.text, x, rfl, hdenotes, hspelled⟩
  · exact ⟨literal s, rfl, Scalar.spelled_literal s⟩
  · exact identifier?_identifier hrest

/-! ### A list of names -/

/-- A name with a quote, and no name. -/
def quotedNames : Document := .arr [.str "O'Hara", .null]

/-- The quote in the name does not end the literal of the name, nor is one in a column its end. -/
theorem quotedNames_read_back :
    Operand.literal .string .isIn quotedNames "name" = .ok "('O''Hara', NULL)" ∧
    (∃ l, Operand.Meant .string .isIn "name" quotedNames l ∧
      Operand.Reads .isIn ("('O''Hara', NULL)".toList ++ " LIMIT 1".toList) l " LIMIT 1".toList) ∧
    identifier? ((identifier "a\"b").toList ++ " = 1".toList) =
      some ("a\"b", " = 1".toList) := by
  have hliteral : Operand.literal .string .isIn quotedNames "name" = .ok "('O''Hara', NULL)" := rfl
  refine ⟨hliteral, ?_, literals_read_back.2.2.2 _ _ (by decide)⟩
  obtain ⟨l, hmeant, -, hreads⟩ :=
    literals_read_back.1 .string .isIn quotedNames "name" _ rfl hliteral
  refine ⟨l, hmeant, hreads _ fun c hc => ?_⟩
  cases hc
  decide

end RelQuery
