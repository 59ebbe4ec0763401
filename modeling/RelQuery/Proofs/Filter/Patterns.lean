import RelQuery.Proofs.Filter.Compared
import RelQuery.Proofs.Text.Scalars
import RelQuery.Proofs.Text.Wildcards
import RelQuery.Statement.Condition

/-!
# Searching texts

The operators that look for a text at the start, at the end or anywhere in another one are written
as `LIKE` with a pattern: a parameter beside the column of a stored attribute, a literal beside the
expression of a computed one. The pattern finds what the operator asks for, no more and no less, if
and only if the text it looks for has no character that is special in patterns.
-/

namespace RelQuery

open Text

namespace Operator

/-- Whether an operator has a text found with others before and after it. -/
def wildcards? : Operator → Option (Bool × Bool)
  | .startsWith => some (false, true)
  | .endsWith => some (true, false)
  | .substring => some (true, true)
  | _ => none

/-- A text holds another one where the operator asks for it. -/
def Finds : Operator → List Char → List Char → Prop
  | .startsWith, s, t => s <+: t
  | .endsWith, s, t => s <:+ t
  | .substring, s, t => s <:+: t
  | _, _, _ => False

variable {op : Operator} {before after : Bool} {s t : List Char} {text : String}

theorem exists_wildcards (h : op ∈ [.startsWith, .endsWith, .substring]) :
    ∃ before after, op.wildcards? = some (before, after) := by
  cases op <;> first | exact ⟨_, _, rfl⟩ | (revert h; decide)

theorem finds_iff (h : op.wildcards? = some (before, after)) :
    op.Finds s t ↔ Text.Finds before after s t := by
  cases op <;> cases h
  · constructor
    · rintro ⟨v, rfl⟩
      exact ⟨[], v, rfl, fun _ => rfl, nofun⟩
    · rintro ⟨u, v, rfl, hu, -⟩
      exact ⟨v, by rw [hu rfl, List.nil_append]⟩
  · constructor
    · rintro ⟨u, rfl⟩
      exact ⟨u, [], by rw [List.append_nil], nofun, fun _ => rfl⟩
    · rintro ⟨u, v, rfl, -, hv⟩
      exact ⟨u, by rw [hv rfl, List.append_nil]⟩
  · constructor
    · rintro ⟨u, v, rfl⟩
      exact ⟨u, v, List.append_assoc _ _ _, nofun, nofun⟩
    · rintro ⟨u, v, rfl, -, -⟩
      exact ⟨u, v, List.append_assoc _ _ _⟩

theorem toList_pattern (h : op.wildcards? = some (before, after)) :
    (op.pattern text).toList = wrapped before after text.toList := by
  cases op <;> cases h <;> simp [pattern, wrapped, wild]

theorem sql_of_wildcards (h : op.wildcards? = some (before, after)) :
    op.sql = "LIKE" ∧ op.isPattern = true ∧ op ≠ .isIn ∧ op ≠ .notIn := by
  cases op <;> cases h <;> exact ⟨rfl, rfl, nofun, nofun⟩

end Operator

namespace Filter

/-- A filter is written as `LIKE` with a pattern: bound as a parameter, or as a literal that reads
as the pattern. -/
inductive WrittenLike (pattern : String) : Filter → Prop
  | stored {c : Comparison} : (∀ column, c.sql column =
        .ok (c.subject column ++ [.text " LIKE ", .value (.str pattern) none])) →
      WrittenLike pattern (.comparison c)
  | computed {c : ComputedComparison} {literal : String} : (∀ m table,
        Computed.condition m table c.expression c.operator c.literal false =
          "(" ++ Computed.qualify m table c.expression ++ ") LIKE " ++ literal) →
      (Scalar.text pattern).Spelled literal.toList → WrittenLike pattern (.computed c)

variable {s : Schema} {model : String} {keys : List String} {scope : Scope} {a : Attribute}
  {op : Operator} {text : String}

section
variable {before after : Bool} (hop : op.wildcards? = some (before, after))
include hop

theorem exists_leaf_pattern (ha : scope.attr = some a) :
    ∃ f, leaf s scope op (.str text) = .ok f ∧ f.WrittenLike (op.pattern text) := by
  obtain ⟨hsql, hpattern, hin, hnotIn⟩ := op.sql_of_wildcards hop
  have hshape : Operand.checkShape op (.str text) a.name = .ok () := by
    cases op <;> cases hop <;> rfl
  have hnull : Operand.testForNull op (.str text) = op := rfl
  rw [leaf, ha]
  dsimp only
  rw [hnull, hshape, ok_bind]
  cases hcomputed : a.computed with
  | none =>
    refine ⟨_, by rw [hpattern, Bool.or_true, if_pos rfl]; rfl, .stored fun column => ?_⟩
    simp [Comparison.sql, hpattern, hsql]
  | some c =>
    refine ⟨_, by rw [Operand.literal, if_pos hpattern]; rfl,
      .computed (fun m table => ?_) (Scalar.spelled_literal _)⟩
    have hLike : ∀ e : String, "(" ++ e ++ ") " ++ "LIKE" ++ " " = "(" ++ e ++ ") LIKE " := by
      intro e
      rw [String.append_assoc, String.append_assoc]
      rfl
    rw [Computed.condition, if_neg Bool.false_ne_true, if_neg fun h => hin h.1,
      if_neg fun h => hnotIn h.1, hsql, hLike]

end

/-- A search for a text always compiles, to a `LIKE` with its pattern. The pattern matches exactly
the texts that the operator asks for if and only if no character of the search text is special in
patterns; without a backslash in it, at least none of these texts is missed. -/
theorem compile_search (h : Addresses s model keys scope a)
    (hop : op ∈ [.startsWith, .endsWith, .substring]) (text : String) :
    ∃ f, compile s model (comparing keys op (.str text)) = .ok f ∧
      f.WrittenLike (op.pattern text) ∧
      ((∀ t, Like (op.pattern text).toList t ↔ op.Finds text.toList t) ↔
        ∀ c ∈ text.toList, c ∉ ['%', '_', '\\']) ∧
      ('\\' ∉ text.toList → ∀ t, op.Finds text.toList t → Like (op.pattern text).toList t) := by
  obtain ⟨before, after, hop⟩ := op.exists_wildcards hop
  obtain ⟨f, hf, hwritten⟩ : ∃ f, leaf s scope op (.str text) = .ok f ∧
      f.WrittenLike (op.pattern text) := exists_leaf_pattern hop h.attr
  refine ⟨f, ?_, hwritten, ?_, fun hs t ht => ?_⟩
  · rw [h.compile_comparing rfl, hf]
  · simp only [op.toList_pattern hop, op.finds_iff hop]
    exact like_iff_finds
  · rw [op.toList_pattern hop]
    exact like_of_finds hs ((op.finds_iff hop).mp ht)

/-! ### Books with a computed label -/

def books : Schema where
  models := [⟨"Book", "books", [⟨"id", "id", .integer, false, true, none⟩,
    ⟨"title", "title", .string, true, false, none⟩,
    ⟨"label", "label", .string, true, false, some ⟨"title || ' ' || author", ["title", "author"]⟩⟩],
    []⟩]
  options := {}

/-- Labels that start with digits are found exactly. -/
theorem label_search : ∃ f,
    compile books "Book" (comparing ["label"] .startsWith (.str "50")) = .ok f ∧
      f.WrittenLike "50%" ∧ ∀ t, Like "50%".toList t ↔ "50".toList <+: t := by
  have h : Addresses books "Book" ["label"] _ _ :=
    addresses_attribute (m := books.models.head!) rfl rfl (by unfold IsField; decide)
  have hop : Operator.startsWith ∈ [.startsWith, .endsWith, .substring] := List.mem_cons_self
  obtain ⟨f, hf, hwritten, hexact, -⟩ := compile_search h hop "50"
  exact ⟨f, hf, hwritten, hexact.mpr (by simp)⟩

/-- A percent sign in the search text finds titles that do not start with it. -/
theorem percent_search_inexact :
    compile books "Book" (.obj [("title", .obj [("_startsWithOp", .str "50%")])]) =
      .ok (.comparison ⟨⟨[], "title", []⟩, .startsWith, .plain (.str "50%"), some .string, false⟩) ∧
    Comparison.sql ⟨⟨[], "title", []⟩, .startsWith, .plain (.str "50%"), some .string, false⟩
      ⟨"Book", "title"⟩ = .ok [.column "Book" "title", .text " LIKE ", .value (.str "50%%") none] ∧
    compile books "Book" (.obj [("label", .obj [("_startsWithOp", .str "50%")])]) =
      .ok (.computed ⟨⟨[], "label", []⟩, "title || ' ' || author", .startsWith, "'50%%'", false⟩) ∧
    Like "50%%".toList "500".toList ∧ ¬"50%".toList <+: "500".toList := by
  refine ⟨?_, rfl, ?_, ?_, by decide⟩
  · simp only [compile, compileValue, compileFields]
    rfl
  · simp only [compile, compileValue, compileFields]
    rfl
  · exact .self (by decide) (.self (by decide) (.any ['0'] (.any [] .nil)))

end Filter

end RelQuery
