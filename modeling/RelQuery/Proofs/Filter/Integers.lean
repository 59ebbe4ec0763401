import RelQuery.Proofs.Decimal.Integers
import RelQuery.Proofs.Filter.Elements

/-!
# Integer operands

What an attribute of an integer type is compared with, alone or in a list, in the operand of a
stored attribute or in the literal of a computed one: of a number the `bigint` nearest to its
integer part, of a text the `bigint` it spells. A text that spells none is refused, a number never.
-/

namespace RelQuery

namespace Operand

open Text

/-- The values that an operand is made of. -/
def elements : Document → List Document
  | .arr items => items
  | v => [v]

/-- The scalars that a literal is made of. -/
def Scalars.toList : Scalars → List Scalar
  | .one x => [x]
  | .range low high => [low, high]
  | .list xs => xs

/-- A number or a text. -/
def IsNumeral : Document → Prop
  | .num _ | .str _ => True
  | _ => False

/-- The integer that a value is read as. -/
inductive ReadsAs : Document → Bigint → Prop
  | number (n : Number) : ReadsAs (.num n) n.nearestBigint
  | text {t : String} {k : Bigint} : Numeral.Spells (trim t.toList) k.val → ReadsAs (.str t) k

variable {type : ScalarType} {dialect : Dialect} {op : Operator} {v w d e : Document}
  {attr t : String} {k : Bigint} {n : Number} {x : Scalar} {items ds : List Document}
  {operand : Operand}

/-! ## One value -/

theorem eq_arr_or (v : Document) : (∃ items, v = .arr items) ∨ ∀ items, v ≠ .arr items := by
  by_cases h : ∃ items, v = .arr items
  · exact .inl h
  · exact .inr (not_exists.mp h)

theorem elements_of_not_arr (hv : ∀ items, v ≠ .arr items) : elements v = [v] := by
  cases v <;> first | rfl | exact (hv _ rfl).elim

theorem integer_eq_ok : integer v attr = .ok k ↔ ReadsAs v k := by
  unfold integer
  constructor
  · intro h
    dsimp only at h
    split at h
    · rename_i hread
      cases h
      split at hread
      · rw [Number.read_eq] at hread
        cases hread
        exact .number _
      · obtain ⟨j, hj, hk⟩ := Option.bind_eq_some_iff.mp hread
        rw [Bigint.ofInt?_eq_some] at hk
        exact .text (Numeral.int?_eq_some.mp (hk ▸ hj))
      · cases hread
    · cases h
  · rintro (n | ⟨hspells⟩)
    · dsimp only
      rw [Number.read_eq]
    · dsimp only
      rw [Numeral.int?_eq_some.mpr hspells, Option.bind_some, Bigint.ofInt?_eq_some.mpr rfl]

namespace IsNumeral

theorem isNull (h : IsNumeral v) : v.isNull = false := by
  cases v <;> first | rfl | cases h

theorem ne_arr (h : IsNumeral v) : ∀ items, v ≠ .arr items := by
  rintro items rfl
  exact h

theorem ne_obj (h : ∀ e ∈ elements v, IsNumeral e) : ∀ fields, v ≠ .obj fields := by
  rintro fields rfl
  exact h (.obj fields) List.mem_cons_self

theorem checkShape_congr (hv : IsNumeral v) (hw : IsNumeral w) (his : op ≠ .is)
    (hnot : op ≠ .not) : checkShape op v attr = checkShape op w attr := by
  cases v <;> cases w <;> first
    | exact False.elim hv
    | exact False.elim hw
    | cases op <;> first | rfl | exact (his rfl).elim | exact (hnot rfl).elim

end IsNumeral

theorem ReadsAs.isNumeral (h : ReadsAs v k) : IsNumeral v := by
  cases h <;> trivial

/-- An integer type is of no other kind. -/
theorem other_kinds (h : type.isInteger = true) : type.isDecimal = false ∧ type.isDate = false ∧
    type ≠ .dateTimeOffset ∧ type.isVerbatim = false ∧ type.isStructured = false := by
  cases type <;> simp_all [ScalarType.isInteger, ScalarType.isDecimal, ScalarType.isDate,
    ScalarType.isVerbatim, ScalarType.isStructured]

section
variable (htype : type.isInteger = true)
include htype

theorem scalar_eq (hv : v.isNull = false) :
    scalar type v attr = (do return .num (.ofBigint (← integer v attr))) := by
  rw [scalar, hv, if_neg Bool.false_ne_true, if_pos htype]

theorem scalarLiteral_eq (hv : IsNumeral v) :
    scalarLiteral type v attr = (do return toString (← integer v attr).val) := by
  cases v with
  | num n => rw [scalarLiteral, if_pos htype]
  | str s => rw [scalarLiteral, if_pos htype]
  | _ => cases hv

theorem scalar_eq_ok_iff (hv : v.isNull = false) : scalar type v attr = .ok d ↔
    ∃ k, ReadsAs v k ∧ d = .num (.ofBigint k) := by
  simp only [scalar_eq htype hv, bind_eq_ok, integer_eq_ok, pure_eq_ok, eq_comm (a := d)]

theorem scalarLiteral_eq_ok (hv : IsNumeral v) : scalarLiteral type v attr = .ok t ↔
    ∃ k, ReadsAs v k ∧ t = toString k.val := by
  simp only [scalarLiteral_eq htype hv, bind_eq_ok, integer_eq_ok, pure_eq_ok, eq_comm (a := t)]

theorem Stands.readsAs (h : Stands type attr v x) (hv : IsNumeral v) :
    ∃ k, ReadsAs v k ∧ x.Denotes (.ofBigint k) := by
  obtain ⟨hdecimal, hdate, hoffset, hverbatim, -⟩ := other_kinds htype
  cases h with
  | null => cases hv
  | truth b => cases hv
  | integer _ hk hdenotes => exact ⟨_, integer_eq_ok.mp hk, hdenotes⟩
  | decimal h => exact absurd (hdecimal.symm.trans h) nofun
  | date h => exact (h.elim (fun h => absurd (hdate.symm.trans h) nofun) hoffset).elim
  | number h => exact absurd (hverbatim.symm.trans h) nofun
  | text h => exact absurd (hverbatim.symm.trans h) nofun

/-! ## The values of an operand -/

theorem ofValue_integer (hv : ∀ items, v ≠ .arr items) :
    ofValue type dialect v attr = .plain <$> scalar type v attr :=
  ofValue_of_not_isCast hv fun h => (other_kinds htype).2.2.1 h.1

/-- The operand of a stored attribute has each value as it is read alone. -/
theorem forall₂_ofValue (h : ofValue type dialect v attr = .ok operand) :
    ∃ d, operand = .plain d ∧
      List.Forall₂ (fun v d => scalar type v attr = .ok d) (elements v) (elements d) := by
  obtain ⟨items, rfl⟩ | hv := eq_arr_or v
  · rw [ofValue_arr] at h
    obtain ⟨ds, hds, rfl⟩ := map_eq_ok.mp h
    exact ⟨.arr ds, rfl, forall₂_of_mapM hds⟩
  · rw [ofValue_integer htype hv] at h
    obtain ⟨d, hd, rfl⟩ := map_eq_ok.mp h
    have hsingle : elements d = [d] := by
      cases hnull : v.isNull with
      | true =>
        rw [scalar, hnull] at hd
        cases hd
        rfl
      | false =>
        obtain ⟨k, -, rfl⟩ := (scalar_eq_ok_iff htype hnull).mp hd
        rfl
    exact ⟨d, rfl, by rw [elements_of_not_arr hv, hsingle]; exact .cons hd .nil⟩

end

/-- The text of a list literal, from the literals of its values. -/
def written (op : Operator) (ts : List String) : String :=
  match op.isRange, ts with
  | true, [low, high] => low ++ " AND " ++ high
  | _, ts => "(" ++ ", ".intercalate ts ++ ")"

theorem literal_arr : literal type op (.arr items) attr =
    written op <$> items.mapM (scalarLiteral type · attr) := by
  by_cases h : op.isRange = true ∧ ∃ low high, items = [low, high]
  · obtain ⟨hrange, low, high, rfl⟩ := h
    simp [literal, written, hrange, List.mapM_cons]
  · have hpair : ∀ low high, op.isRange = true → items = [low, high] → False :=
      fun low high hrange heq => h ⟨hrange, low, high, heq⟩
    rw [literal]
    · cases hts : items.mapM (scalarLiteral type · attr) with
      | error e => rfl
      | ok ts =>
        have hlength := length_of_mapM hts
        rw [ok_bind, map_ok, written]
        · rfl
        · rintro low high hrange rfl
          obtain ⟨a, b, rfl⟩ := List.length_eq_two.mp hlength.symm
          exact hpair a b hrange rfl
    · exact hpair

theorem literal_of_not_arr (hop : op.isPattern = false) (hv : ∀ items, v ≠ .arr items) :
    literal type op v attr = scalarLiteral type v attr := by
  cases v with
  | arr items => exact (hv items rfl).elim
  | str s => simp [literal, hop]
  | _ => rfl

theorem exists_getElem?_of_forall₂ {α β : Type} {R : α → β → Prop} {as : List α} {bs : List β}
    {i : Nat} {a : α} (h : List.Forall₂ R as bs) (ha : as[i]? = some a) :
    ∃ b, bs[i]? = some b ∧ R a b := by
  obtain ⟨hi, rfl⟩ := List.getElem?_eq_some_iff.mp ha
  have hi' : i < bs.length := h.length_eq ▸ hi
  exact ⟨bs[i], List.getElem?_eq_getElem hi', h.get hi hi'⟩

theorem not_stands_arr : ¬Stands type attr (.arr items) x := by
  rintro (_ | _ | ⟨-, h, -⟩ | ⟨-, h, -⟩)
  · cases h
  · cases h

/-- What an operand is compared as has a scalar for each value. -/
theorem Meant.forall₂ {l : Scalars} (h : Meant type op attr v l) (hop : op.isPattern = false) :
    List.Forall₂ (Stands type attr) (elements v) l.toList := by
  cases h with
  | pattern h => exact absurd (hop.symm.trans h) nofun
  | scalar _ hx =>
    have hv : elements v = [v] := by
      cases v <;> first | rfl | exact (not_stands_arr hx).elim
    rw [hv]
    exact .cons hx .nil
  | range hlow hhigh => exact .cons hlow (.cons hhigh .nil)
  | list h => exact h

section
variable (htype : type.isInteger = true) (h : ∀ e ∈ elements v, ∃ k, ReadsAs e k)
include htype h

theorem exists_operand : ∃ operand, ofValue type dialect v attr = .ok operand := by
  have hscalar : ∀ e ∈ elements v, ∃ d, scalar type e attr = .ok d := by
    intro e he
    obtain ⟨k, hk⟩ := h e he
    exact ⟨_, (scalar_eq_ok_iff htype hk.isNumeral.isNull).mpr ⟨k, hk, rfl⟩⟩
  obtain ⟨items, rfl⟩ | hv := eq_arr_or v
  · obtain ⟨ds, hds⟩ := exists_mapM hscalar
    exact ⟨.plain (.arr ds), by rw [ofValue_arr]; exact map_eq_ok.mpr ⟨ds, hds, rfl⟩⟩
  · obtain ⟨d, hd⟩ := hscalar v (by rw [elements_of_not_arr hv]; exact List.mem_singleton_self v)
    exact ⟨.plain d, by rw [ofValue_integer htype hv, hd, map_ok]⟩

theorem exists_literal (hop : op.isPattern = false) :
    ∃ t, literal type op v attr = .ok t := by
  have hscalar : ∀ e ∈ elements v, ∃ t, scalarLiteral type e attr = .ok t := by
    intro e he
    obtain ⟨k, hk⟩ := h e he
    exact ⟨_, (scalarLiteral_eq_ok htype hk.isNumeral).mpr ⟨k, hk, rfl⟩⟩
  obtain ⟨items, rfl⟩ | hv := eq_arr_or v
  · obtain ⟨ts, hts⟩ := exists_mapM hscalar
    exact ⟨written op ts, by rw [literal_arr]; exact map_eq_ok.mpr ⟨ts, hts, rfl⟩⟩
  · obtain ⟨t, ht⟩ := hscalar v (by rw [elements_of_not_arr hv]; exact List.mem_singleton_self v)
    exact ⟨t, by rw [literal_of_not_arr hop hv, ht]⟩

end

theorem checkShape_arr_congr {items' : List Document} (his : op ≠ .is) (hnot : op ≠ .not)
    (h : items.length = items'.length) :
    checkShape op (.arr items) attr = checkShape op (.arr items') attr := by
  cases op <;> first | exact (his rfl).elim | exact (hnot rfl).elim | simp [checkShape, h]

end Operand

namespace Filter

open Operand Text

/-- The integer that a filter compares with, at a place among the values of its operand: as the
operand of a stored attribute carries it, or as the literal of a computed one is read. -/
inductive ComparesAt : Filter → Nat → Bigint → Prop
  | stored {c : Comparison} {d : Document} {i : Nat} {k : Bigint} : c.operand = .plain d →
      (elements d)[i]? = some (.num (.ofBigint k)) → ComparesAt (.comparison c) i k
  | computed {c : ComputedComparison} {l : Scalars} {x : Scalar} {i : Nat} {k : Bigint} :
      (∀ rest, Delimits rest → Operand.Reads c.operator (c.literal.toList ++ rest) l rest) →
      l.toList[i]? = some x → x.Denotes (.ofBigint k) → ComparesAt (.computed c) i k

variable {s : Schema} {model : String} {keys : List String} {scope : Scope} {a : Attribute}
  {op : Operator} {v w e : Document} {f : Filter} {i : Nat}

section
variable (ha : scope.attr = some a) (htype : a.type.isInteger = true)
  (hop : op.isPattern = false)
include ha htype hop

theorem comparesAt_of_leaf (hdoc : scope.documentPath = []) (h : leaf s scope op v = .ok f)
    (hi : (elements v)[i]? = some e) (he : IsNumeral e) :
    ∃ k, ReadsAs e k ∧ f.ComparesAt i k := by
  obtain ⟨b, op', hb, rfl, hshape, ⟨c, literal, -, hliteral, rfl⟩ | ⟨operand, -, hoperand, rfl⟩⟩ :=
    leaf_cases h
  all_goals
    cases ha.symm.trans hb
    rw [← isPattern_testForNull op v] at hop
  · obtain ⟨l, hmeant, hreads⟩ := exists_reads hshape hliteral
    obtain ⟨x, hx, hstands⟩ := exists_getElem?_of_forall₂ (hmeant.forall₂ hop) hi
    obtain ⟨k, hk, hdenotes⟩ := hstands.readsAs htype he
    exact ⟨k, hk, .computed hreads hx hdenotes⟩
  · rw [hdoc, hop, if_neg (by decide)] at hoperand
    obtain ⟨d, rfl, hd⟩ := forall₂_ofValue htype hoperand
    obtain ⟨d', hd', hscalar⟩ := exists_getElem?_of_forall₂ hd hi
    obtain ⟨k, hk, rfl⟩ := (scalar_eq_ok_iff htype he.isNull).mp hscalar
    exact ⟨k, hk, .stored rfl hd'⟩

/-- Numbers are never refused, and texts exactly if they spell no `bigint`. -/
theorem exists_leaf_iff (hdoc : scope.documentPath = []) (hv : ∀ e ∈ elements v, IsNumeral e) :
    (∃ f, leaf s scope op v = .ok f) ↔
      checkShape op v a.name = .ok () ∧ ∀ e ∈ elements v, ∃ k, ReadsAs e k := by
  have hnull : testForNull op v = op := by
    cases v with
    | null => exact (hv .null List.mem_cons_self).elim
    | _ => rfl
  constructor
  · rintro ⟨f, hf⟩
    obtain ⟨b, op', hb, rfl, hshape, -⟩ := leaf_cases hf
    cases ha.symm.trans hb
    rw [hnull] at hshape
    refine ⟨hshape, fun e he => ?_⟩
    obtain ⟨i, hi⟩ := List.getElem?_of_mem he
    obtain ⟨k, hk, -⟩ := comparesAt_of_leaf ha htype hop hdoc hf hi (hv e he)
    exact ⟨k, hk⟩
  · rintro ⟨hshape, hreads⟩
    rw [leaf, ha]
    dsimp only
    rw [hnull, hshape, ok_bind]
    cases a.computed with
    | none =>
      obtain ⟨operand, hoperand⟩ : ∃ operand, ofValue a.type s.options.dialect v a.name =
          .ok operand := exists_operand htype hreads
      simp [hdoc, hop, hoperand]
    | some c =>
      obtain ⟨t, ht⟩ : ∃ t, literal a.type op v a.name = .ok t := exists_literal htype hreads hop
      simp [ht]

end

/-- A comparison depends on its value by the shape and by what it is read as. -/
theorem leaf_congr (ha : scope.attr = some a) (hop : op.isPattern = false)
    (hdoc : scope.documentPath = []) (hv : v.isNull = false)
    (hw : w.isNull = false) (hshape : checkShape op v a.name = checkShape op w a.name)
    (hoperand : ofValue a.type s.options.dialect v a.name =
      ofValue a.type s.options.dialect w a.name)
    (hliteral : literal a.type op v a.name = literal a.type op w a.name) :
    leaf s scope op v = leaf s scope op w := by
  simp [leaf, ha, testForNull, hv, hw, hshape, hoperand, hliteral, hdoc, hop]

/-! ## Two spellings of an integer -/

section
variable (ha : scope.attr = some a) (htype : a.type.isInteger = true) (hop : op.isPattern = false)
  (hdoc : scope.documentPath = []) (his : op ≠ .is) (hnot : op ≠ .not) (hv : IsNumeral v)
  (hw : IsNumeral w) (h : integer v a.name = integer w a.name)
include ha htype hop hdoc his hnot hv hw h

theorem leaf_congr_of_integer : leaf s scope op v = leaf s scope op w := by
  refine leaf_congr ha hop hdoc hv.isNull hw.isNull (hv.checkShape_congr hw his hnot) ?_ ?_
  · rw [ofValue_integer htype hv.ne_arr, ofValue_integer htype hw.ne_arr,
      scalar_eq htype hv.isNull, scalar_eq htype hw.isNull, h]
  · rw [literal_of_not_arr hop hv.ne_arr, literal_of_not_arr hop hw.ne_arr,
      scalarLiteral_eq htype hv, scalarLiteral_eq htype hw, h]

theorem leaf_congr_of_item (l r : List Document) :
    leaf s scope op (.arr (l ++ v :: r)) = leaf s scope op (.arr (l ++ w :: r)) := by
  refine leaf_congr ha hop hdoc rfl rfl (checkShape_arr_congr his hnot (by simp)) ?_ ?_
  · rw [ofValue_arr, ofValue_arr, List.mapM_append, List.mapM_append, List.mapM_cons,
      List.mapM_cons, scalar_eq htype hv.isNull, scalar_eq htype hw.isNull, h]
  · rw [literal_arr, literal_arr, List.mapM_append, List.mapM_append, List.mapM_cons,
      List.mapM_cons, scalarLiteral_eq htype hv, scalarLiteral_eq htype hw, h]

end

/-- An attribute of an integer type is compared with an integer for each number and text, alone or
in a list: with the `bigint` nearest to the integer part of the number, which is the number itself
exactly if that is a `bigint`, and with the integer that the text spells. Only texts are refused,
those that spell no `bigint`. A number and a text of the same `bigint` make the same comparison. -/
theorem compile_integers (h : Addresses s model keys scope a) (htype : a.type.isInteger = true)
    (hop : op.isPattern = false) :
    (∀ v f i e, compile s model (comparing keys op v) = .ok f → (elements v)[i]? = some e →
      IsNumeral e → ∃ k, ReadsAs e k ∧ f.ComparesAt i k) ∧
    (∀ n : Number, (n.nearestBigint.val : ℚ) = n.value ↔ ∃ k : Bigint, (k.val : ℚ) = n.value) ∧
    (∀ v, (∀ e ∈ elements v, IsNumeral e) →
      ((∃ f, compile s model (comparing keys op v) = .ok f) ↔
        checkShape op v a.name = .ok () ∧ ∀ e ∈ elements v, ∃ k, ReadsAs e k)) ∧
    ∀ (n : Number) (t : String) (k : Bigint), n.value = k.val →
      Numeral.Spells (trim t.toList) k.val → op ≠ .is → op ≠ .not →
      compile s model (comparing keys op (.num n)) = compile s model (comparing keys op (.str t)) ∧
      ∀ l r, compile s model (comparing keys op (.arr (l ++ .num n :: r))) =
        compile s model (comparing keys op (.arr (l ++ .str t :: r))) := by
  have hdoc := h.documentPath_eq_nil (other_kinds htype).2.2.2.2
  have hcompile : ∀ v, (∀ fields, v ≠ .obj fields) →
      compile s model (comparing keys op v) = leaf s scope op v :=
    fun v hv => h.compile_comparing (h.holdsFilters_eq_false hv)
  refine ⟨fun v f i e hf hi he => ?_, fun n => Number.nearestBigint_iff, fun v hv => ?_,
    fun n t k hn ht his hnot => ?_⟩
  · have hobj : ∀ fields, v ≠ .obj fields := by
      rintro fields rfl
      cases List.mem_singleton.mp (List.mem_of_getElem? hi)
      exact he
    rw [hcompile v hobj] at hf
    exact comparesAt_of_leaf h.attr htype hop hdoc hf hi he
  · rw [hcompile v (IsNumeral.ne_obj hv)]
    exact exists_leaf_iff h.attr htype hop hdoc hv
  · have hreads : integer (.num n) a.name = integer (.str t) a.name := by
      have hnum : ReadsAs (.num n) k := Number.nearestBigint_eq hn ▸ .number n
      rw [integer_eq_ok.mpr hnum, integer_eq_ok.mpr (.text ht)]
    have hnumber : IsNumeral (.num n) := trivial
    have htext : IsNumeral (.str t) := trivial
    refine ⟨?_, fun l r => ?_⟩
    · rw [hcompile (.num n) nofun, hcompile (.str t) nofun]
      exact leaf_congr_of_integer h.attr htype hop hdoc his hnot hnumber htext hreads
    · rw [hcompile (.arr (l ++ .num n :: r)) nofun, hcompile (.arr (l ++ .str t :: r)) nofun]
      exact leaf_congr_of_item h.attr htype hop hdoc his hnot hnumber htext hreads l r

/-! ### Players with a computed rank -/

def players : Schema where
  models := [⟨"Player", "players", [⟨"id", "id", .bigInt, false, true, none⟩,
    ⟨"rank", "rank", .integer, true, false, some ⟨"wins - losses", ["wins", "losses"]⟩⟩], []⟩]
  options := {}

def dozen : Bigint := ⟨12, by decide, by decide⟩

/-- The number and the text are read alike from the literal of a computed attribute. -/
theorem rank_dozens : ∃ f,
    compile players "Player" (comparing ["rank"] .isIn
        (.arr [.num (.ofBigint dozen), .str "12"])) = .ok f ∧
      f.ComparesAt 0 dozen ∧ f.ComparesAt 1 dozen := by
  have h : Addresses players "Player" ["rank"] _ _ :=
    addresses_attribute (m := players.models.head!) rfl rfl (by unfold IsField; decide)
  have hop : Operator.isPattern .isIn = false := rfl
  obtain ⟨hcompares, -, haccepted, -⟩ := compile_integers h rfl hop
  have hvalue : (Number.ofBigint dozen).value = dozen.val := rfl
  have hdigits : ∀ c ∈ ['1', '2'], c.isDigit = true := by simp
  have hspells : Numeral.Spells (trim "12".toList) dozen.val :=
    .plain (List.cons_ne_nil _ _) hdigits
  have hnumber : ∀ k, ReadsAs (.num (.ofBigint dozen)) k → k = dozen := by
    rintro k (_ | _)
    exact Number.nearestBigint_eq hvalue
  have htext : ∀ k, ReadsAs (.str "12") k → k = dozen := by
    rintro k (_ | hk)
    exact Bigint.eq_of_val_eq (hk.unique hspells)
  obtain ⟨f, hf⟩ := (haccepted (.arr [.num (.ofBigint dozen), .str "12"]) (by
    rintro e (_ | ⟨_, _ | ⟨_, ⟨⟩⟩⟩) <;> trivial)).mpr ⟨rfl, by
      rintro e (_ | ⟨_, _ | ⟨_, ⟨⟩⟩⟩)
      · exact ⟨_, .number _⟩
      · exact ⟨dozen, .text hspells⟩⟩
  obtain ⟨j, hj, hfirst⟩ := hcompares _ f 0 _ hf rfl trivial
  obtain ⟨k, hk, hsecond⟩ := hcompares _ f 1 _ hf rfl trivial
  rw [hnumber j hj] at hfirst
  rw [htext k hk] at hsecond
  exact ⟨f, hf, hfirst, hsecond⟩

/-- One and a half. -/
def sesqui : Number :=
  .float ⟨false, 0x18000000000000, -52, by decide, by decide, by decide, .inl (by decide)⟩

/-- The first integer beyond the range. -/
def beyond : Number := .int 9223372036854775808 (by decide) (by decide)

/-- A number beyond the range is compared as the last in it, and one and a half as one; the texts
of both are refused. The literal of a computed attribute does the same. -/
theorem beyond_compared_clamped :
    compile players "Player" (.obj [("id", .num beyond)]) = .ok (.comparison
      ⟨⟨[], "id", []⟩, .eq, .plain (.num (.ofBigint (.clamp 9223372036854775807))), some .bigInt,
        false⟩) ∧
    compile players "Player" (.obj [("id", .str "9223372036854775808")]) =
      malformed (.kindExpected "id" .integer (.str "9223372036854775808")) ∧
    compile players "Player" (.obj [("rank", .num sesqui)]) = .ok (.computed
      ⟨⟨[], "rank", []⟩, "wins - losses", .eq, "1", false⟩) ∧
    compile players "Player" (.obj [("rank", .str "1.5")]) =
      malformed (.kindExpected "rank" .integer (.str "1.5")) := by
  refine ⟨?_, ?_, ?_, ?_⟩
  · simp only [compile, compileValue, compileFields]
    rfl
  · simp only [compile, compileValue, compileFields]
    rfl
  · simp only [compile, compileValue, compileFields]
    rfl
  · simp only [compile, compileValue, compileFields]
    rfl

end Filter

end RelQuery
