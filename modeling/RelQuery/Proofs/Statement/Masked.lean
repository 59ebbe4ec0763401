import RelQuery.Proofs.Statement.Placeholders

/-!
# Statements without values

The text of a statement, and how many parameters it has, do not depend on the values that a client
compares with, nor on the keys by which it looks into documents. Masked are the pieces of a
statement, and the filters of a plan, without these values.
-/

namespace RelQuery

/-! ## Pieces without values -/

namespace Piece

/-- The piece without its value. -/
def masked : Piece → Piece
  | .value _ cast => .value .null cast
  | .silent _ => .silent .null
  | p => p

variable {p : Piece} {n : Nat}

@[simp] theorem masked_text {s : String} : (text s).masked = text s := rfl

@[simp] theorem masked_name {s : String} : (name s).masked = name s := rfl

@[simp] theorem masked_value {v : Document} {cast : Option String} :
    (value v cast).masked = value .null cast := rfl

@[simp] theorem masked_silent {v : Document} : (silent v).masked = silent .null := rfl

@[simp] theorem masked_piece {c : ColumnRef} : c.piece.masked = c.piece := rfl

theorem write_masked : p.masked.write n = p.write n := by
  cases p with
  | value v cast => cases cast <;> rfl
  | _ => rfl

theorem isSome_bound?_masked : p.masked.bound?.isSome = p.bound?.isSome := by
  cases p <;> rfl

end Piece

namespace Sql

def masked (ps : Sql) : Sql := ps.map (·.masked)

variable {ps qs : Sql} {pss : List Sql} {separator name : String} {n : Nat} {p : Piece}

@[simp] theorem masked_nil : masked [] = [] := rfl

@[simp] theorem masked_cons : masked (p :: ps) = p.masked :: masked ps := rfl

@[simp] theorem masked_append : masked (ps ++ qs) = masked ps ++ masked qs := List.map_append

@[simp] theorem masked_join : masked (join separator pss) = join separator (pss.map masked) := by
  induction pss with
  | nil => rfl
  | cons ps pss ih =>
    cases pss with
    | nil => rfl
    | cons qs pss => simp [join, ih]

@[simp] theorem masked_parenthesized : masked (parenthesized ps) = parenthesized (masked ps) := by
  simp [parenthesized]

@[simp] theorem masked_named : masked (named ps name) = named (masked ps) name := by
  simp [named]

theorem write_masked : write n ps.masked = write n ps := by
  induction ps generalizing n with
  | nil => rfl
  | cons p ps ih =>
    rw [masked_cons, write, write, Piece.write_masked, Piece.isSome_bound?_masked, ih]

theorem length_params_masked : (params ps.masked).length = (params ps).length := by
  induction ps with
  | nil => rfl
  | cons p ps ih =>
    cases p with
    | value v cast => exact congrArg (· + 1) ih
    | silent v => exact congrArg (· + 1) ih
    | _ => exact ih

end Sql

/-- Only values tell the pieces apart. -/
def Sql.SameMasked (ps qs : Sql) : Prop := ps.masked = qs.masked

/-- Two statements with one text and as many parameters. -/
structure Statement.Alike (a b : Statement) : Prop where
  text : a.text = b.text
  params : a.params.length = b.params.length

theorem Sql.alike_of_masked {ps qs : Sql} (h : ps.masked = qs.masked) :
    ps.statement.Alike qs.statement where
  text := by
    have htext := @write_masked ps 0
    rw [h, write_masked] at htext
    exact htext.symm
  params := by
    have hlength := @length_params_masked ps
    rw [h, length_params_masked] at hlength
    exact hlength.symm

/-! ## Comparisons without values -/

/-- The operand without the values that are parameters: what is compared with `IS` stays if it is
written as a keyword, and of a list its length. -/
def Operand.masked (op : Operator) : Operand → Operand
  | .cast _ type => .cast "" type
  | .plain v =>
    match op, v with
    | .is, .null | .not, .null => .plain .null
    | .is, .bool b | .not, .bool b => .plain (.bool b)
    | _, .arr items => .plain (.arr (items.map fun _ => .str ""))
    | _, .obj fields => .plain (.obj fields)
    | _, _ => .plain (.str "")

namespace Comparison

/-- The comparison without its values and without the keys of its path. -/
def masked (c : Comparison) : Comparison :=
  { c with
    path := { c.path with documentPath := c.path.documentPath.map fun _ => "" }
    operand := c.operand.masked c.operator }

variable {c : Comparison} {column : ColumnRef} {right right' : Sql} {v : Document}

theorem masked_subject : (c.masked.subject column).masked = (c.subject column).masked := by
  unfold subject
  simp only [masked, List.isEmpty_map]
  split
  · rfl
  · simp [Function.comp_def]

theorem masked_compared (h : right'.masked = right.masked) :
    (c.masked.compared column right').masked = (c.compared column right).masked := by
  rw [compared, compared, Sql.masked_append, Sql.masked_append, masked_subject, Sql.masked_cons,
    Sql.masked_cons, h]
  rfl

theorem masked_emptyList {truth : String} :
    (c.masked.emptyList truth).masked = (c.emptyList truth).masked := by
  simp [emptyList, masked, Sql.masked, Function.comp_def]

theorem cast?_masked : c.masked.cast? = c.cast? := by
  simp [cast?, masked]

/-- The value that a comparison writes as a keyword. -/
def keyword? (c : Comparison) : Option String :=
  match c.operator, c.operand with
  | .is, .plain .null | .not, .plain .null => some "NULL"
  | .is, .plain (.bool b) | .not, .plain (.bool b) => some (if b then "TRUE" else "FALSE")
  | _, _ => none

variable {text literal type : String} {low high : Document} {items : List Document}

theorem sql_of_cast (h : c.operand = .cast literal type) : c.sql column = .ok (c.compared column
    [.text "CAST(", .value (.str literal) none, .text (" AS " ++ type ++ ")")]) := by
  unfold Comparison.sql
  rw [h]
  rfl

theorem sql_of_keyword (h : c.keyword? = some text) :
    c.sql column = .ok (c.compared column [.text text]) := by
  unfold keyword? at h
  unfold Comparison.sql
  split at h
  case h_5 => cases h
  all_goals
    rename_i hop hv
    cases h
    rw [hop, hv]
    rw [compared, hop]

theorem exists_parameter {inside : Bool} {cast : Option String} :
    ∃ v', parameter inside cast v = .value v' cast := by
  unfold parameter
  split <;> exact ⟨_, rfl⟩

@[simp] theorem masked_parameter {inside : Bool} {cast : Option String} :
    (parameter inside cast v).masked = .value .null cast := by
  obtain ⟨v', hv'⟩ := @exists_parameter v inside cast
  rw [hv', Piece.masked_value]

/-- A scalar is one parameter. -/
theorem sql_of_scalar (h : c.operand = .plain v) (hkeyword : c.keyword? = none)
    (harr : ∀ items, v ≠ .arr items) (hobj : ∀ fields, v ≠ .obj fields) :
    ∃ v', c.sql column = .ok (c.compared column [.value v' c.cast?]) := by
  have hpattern : c.operator.isPattern = true → c.cast? = none := fun hp => by simp [cast?, hp]
  unfold keyword? at hkeyword
  unfold Comparison.sql
  rw [h] at hkeyword ⊢
  dsimp only
  split
  case h_1 | h_2 | h_3 | h_4 =>
    rename_i hop
    rw [hop] at hkeyword
    cases hkeyword
  case h_5 | h_6 | h_7 => exact absurd rfl (harr _)
  case h_8 => exact absurd rfl (hobj _)
  case h_9 =>
    split
    · rename_i hp
      rw [hpattern hp]
      exact ⟨_, rfl⟩
    · exact ⟨_, rfl⟩
  case h_10 =>
    obtain ⟨v', hv'⟩ := exists_parameter
    exact ⟨v', by rw [hv']; rfl⟩

/-- Lists are written by their length. -/
theorem agree_masked_of_arr (h : c.operand = .plain (.arr items)) :
    Agree Sql.SameMasked (c.sql column) (c.masked.sql column) := by
  obtain ⟨path, op, operand, type, negated⟩ := c
  cases h
  cases op with
  | isIn | notIn =>
    cases items with
    | nil => exact .ok masked_emptyList.symm
    | cons v items =>
      refine .ok (Eq.symm (masked_compared ?_))
      simp [masked, Function.comp_def, Operator.isPattern]
  | between | notBetween =>
    match items with
    | [low, high] =>
      refine .ok (Eq.symm (masked_compared ?_))
      simp [masked, Operator.isPattern]
    | [] | [_] | _ :: _ :: _ :: _ => exact .error
  | _ => exact .error

theorem agree_masked_of_obj {fields : Fields} (h : c.operand = .plain (.obj fields)) :
    Agree Sql.SameMasked (c.sql column) (c.masked.sql column) := by
  obtain ⟨path, op, operand, type, negated⟩ := c
  cases h
  cases op <;> exact .error

theorem keyword?_masked : c.masked.keyword? = c.keyword? := by
  obtain ⟨path, op, operand, type, negated⟩ := c
  cases operand with
  | cast literal type => cases op <;> rfl
  | plain v => cases op <;> cases v <;> rfl

/-- Without its value, a scalar that is no keyword is an empty text. -/
theorem operand_masked_of_scalar (h : c.operand = .plain v) (hkeyword : c.keyword? = none)
    (harr : ∀ items, v ≠ .arr items) (hobj : ∀ fields, v ≠ .obj fields) :
    c.masked.operand = .plain (.str "") := by
  obtain ⟨path, op, operand, type, negated⟩ := c
  cases h
  cases v with
  | arr items => exact absurd rfl (harr items)
  | obj fields => exact absurd rfl (hobj fields)
  | num n => cases op <;> rfl
  | str s => cases op <;> rfl
  | null => cases op <;> first | rfl | cases hkeyword
  | bool b => cases op <;> first | rfl | cases hkeyword

/-- A comparison is written as it is without its values. -/
theorem agree_masked : Agree Sql.SameMasked (c.sql column) (c.masked.sql column) := by
  cases hkeyword : c.keyword? with
  | some text =>
    rw [sql_of_keyword hkeyword, sql_of_keyword (keyword?_masked.trans hkeyword)]
    exact .ok (masked_compared rfl).symm
  | none =>
    cases h : c.operand with
    | cast literal type =>
      have h' : c.masked.operand = .cast "" type := by
        rw [masked, h]
        rfl
      rw [sql_of_cast h, sql_of_cast h']
      refine .ok (Eq.symm (masked_compared ?_))
      rfl
    | plain v =>
      by_cases harr : ∃ items, v = .arr items
      · obtain ⟨items, rfl⟩ := harr
        exact agree_masked_of_arr h
      by_cases hobj : ∃ fields, v = .obj fields
      · obtain ⟨fields, rfl⟩ := hobj
        exact agree_masked_of_obj h
      · rw [not_exists] at harr hobj
        have h' := operand_masked_of_scalar h hkeyword harr hobj
        obtain ⟨w, hw⟩ := @sql_of_scalar c column v h hkeyword harr hobj
        obtain ⟨w', hw'⟩ := @sql_of_scalar c.masked column _ h'
          (keyword?_masked.trans hkeyword) nofun nofun
        rw [hw, hw', cast?_masked]
        refine .ok (Eq.symm (masked_compared ?_))
        rfl

end Comparison

/-! ## Filters without values -/

/-- The conditions are both missing, or only values tell them apart. -/
inductive Condition.SameMasked : Option Condition → Option Condition → Prop
  | none : SameMasked none none
  | some {c c' : Condition} : Sql.SameMasked c.sql c'.sql → SameMasked (some c) (some c')

namespace Filter

mutual

/-- The filter without the values of its comparisons. -/
def masked : Filter → Filter
  | .comparison c => .comparison c.masked
  | .computed c => .computed c
  | .raw sql => .raw sql
  | .logical k fs => .logical k (maskedAll fs)
  | .not f => .not (masked f)

def maskedAll : List Filter → List Filter
  | [] => []
  | f :: fs => masked f :: maskedAll fs

end

variable {s : Schema} {m : Model} {table : String} {f : Filter} {fs : List Filter}
  {cs cs' : List Condition}

/-- The conditions of the operands are alike if they are one by one. -/
theorem agree_conditions
    (H : ∀ f ∈ fs, Agree (fun c c' => Sql.SameMasked c.sql c'.sql) (f.condition s m table)
      (f.masked.condition s m table)) :
    Agree (fun cs cs' => cs.isEmpty = cs'.isEmpty ∧ (Condition.operandsSql cs).map Sql.masked =
      (Condition.operandsSql cs').map Sql.masked) (conditions s m table fs)
      (conditions s m table (maskedAll fs)) := by
  induction fs with
  | nil => exact .ok ⟨rfl, rfl⟩
  | cons f fs ih =>
    rw [List.forall_mem_cons] at H
    refine H.1.bind fun c c' hc => (ih H.2).bind fun cs cs' hcs => .ok ⟨rfl, ?_⟩
    simp only [Condition.operandsSql, List.map_cons, Sql.masked_parenthesized, hcs.2]
    rw [hc]

/-- A filter is written as it is without its values. -/
theorem agree_masked : Agree (fun c c' => Sql.SameMasked c.sql c'.sql) (f.condition s m table)
    (f.masked.condition s m table) := by
  induction f with
  | comparison c =>
    refine Agree.bind_same fun column => Comparison.agree_masked.bind fun ps ps' h => .ok ?_
    change Sql.SameMasked (Condition.negateIf c.negated (.atom ps)).sql
      (Condition.negateIf c.negated (.atom ps')).sql
    cases c.negated with
    | false => exact h
    | true =>
      simp only [Sql.SameMasked, Condition.negateIf, Condition.sql, if_true, Sql.masked_cons,
        Sql.masked_parenthesized]
      rw [h]
  | computed c => exact Agree.bind_same fun t => .ok rfl
  | raw sql => exact .ok rfl
  | logical k fs ih =>
    refine (agree_conditions ih).bind fun cs cs' h => .ok ?_
    simp only [Sql.SameMasked, Condition.sql, h.1]
    split
    · rfl
    · rw [Sql.masked_join, Sql.masked_join, h.2]
  | not f ih =>
    refine ih.bind fun c c' h => .ok ?_
    simp only [Sql.SameMasked, Condition.sql, Sql.masked_cons, Sql.masked_parenthesized]
    rw [h]

theorem agree_condition? {f? : Option Filter} :
    Agree Condition.SameMasked (condition? s m table f?) (condition? s m table (f?.map masked)) := by
  cases f? with
  | none => exact .ok .none
  | some f =>
    have h := @agree_masked s m table f
    exact h.bind fun c c' h => .ok (.some h)

end Filter

/-! ## Include trees without values -/

/-- Values in the condition of a join are all that tells it from another. -/
theorem Join.sameMasked_sql {j : Join} {c? c?' : Option Condition}
    (h : Condition.SameMasked c? c?') :
    Sql.SameMasked { j with filter := c? }.sql { j with filter := c?' }.sql := by
  have hon : Sql.SameMasked { j with filter := c? }.on { j with filter := c?' }.on := by
    cases h with
    | none => rfl
    | some h =>
      unfold Sql.SameMasked at h ⊢
      simp [on, h]
  unfold Sql.SameMasked at hon ⊢
  unfold Join.sql
  rw [Sql.masked_append, Sql.masked_append, Sql.masked_cons, Sql.masked_cons, hon]
  rfl

namespace Include

mutual

/-- The node without the values of its filters. -/
def masked : Include → Include
  | ⟨target, name, kind, attributes, filter, includes, required, limit, offset, separate⟩ =>
    ⟨target, name, kind, attributes, filter.map Filter.masked, maskedAll includes, required, limit,
      offset, separate⟩

def maskedAll : List Include → List Include
  | [] => []
  | n :: ns => masked n :: maskedAll ns

end

variable {s : Schema} {parent m : Model} {n : Include} {ns : List Include} {table key : String}

theorem masked_eq : n.masked =
    { n with filter := n.filter.map Filter.masked, includes := maskedAll n.includes } := by
  cases n
  rfl

@[simp] theorem name_masked : n.masked.name = n.name := by rw [masked_eq]

@[simp] theorem attributes_masked : n.masked.attributes = n.attributes := by rw [masked_eq]

@[simp] theorem filter_masked : n.masked.filter = n.filter.map Filter.masked := by rw [masked_eq]

@[simp] theorem includes_masked : n.masked.includes = maskedAll n.includes := by rw [masked_eq]

@[simp] theorem required_masked : n.masked.required = n.required := by rw [masked_eq]

@[simp] theorem separate_masked : n.masked.separate = n.separate := by rw [masked_eq]

@[simp] theorem page_masked : n.masked.page = n.page := by
  rw [masked_eq]
  rfl

/-! ### Columns -/

theorem columnsAll_masked_of (H : ∀ n ∈ ns, columns s parent table key n.masked =
      columns s parent table key n) :
    columnsAll s parent table key (maskedAll ns) = columnsAll s parent table key ns := by
  induction ns with
  | nil => rfl
  | cons n ns ih =>
    rw [List.forall_mem_cons] at H
    rw [maskedAll, columnsAll, columnsAll, H.1, ih H.2]

theorem columns_masked : columns s parent table key n.masked = columns s parent table key n := by
  induction n generalizing parent table key with
  | node n ih =>
    cases hs : n.separate with
    | true => rw [columns_of_separate hs, columns_of_separate (separate_masked.trans hs)]
    | false =>
      have hbelow : ∀ t table key, columnsAll s t table key (maskedAll n.includes) =
          columnsAll s t table key n.includes := fun _ _ _ => columnsAll_masked_of fun c hc => ih c hc
      rw [columns_steps hs, columns_steps (separate_masked.trans hs)]
      simp only [name_masked, attributes_masked, includes_masked, hbelow]

/-- The columns of a statement come without values. -/
theorem columnsAll_masked :
    columnsAll s parent table key (maskedAll ns) = columnsAll s parent table key ns :=
  columnsAll_masked_of fun _ _ => columns_masked

/-! ### Joins -/

/-- Only values tell the joins apart. -/
def SameJoins (js js' : List Join) : Prop :=
  Sql.SameMasked (js.flatMap (·.sql)) (js'.flatMap (·.sql))

theorem joinOf_eq {assoc : Association} {required : Bool} {condition : Option Condition} :
    joinOf assoc parent m table required condition =
      { joinOf assoc parent m table required none with filter := condition } := by
  unfold joinOf
  dsimp only
  split <;> rfl

theorem agree_joinsAll_of
    (H : ∀ n ∈ ns, Agree SameJoins (joins s parent table n) (joins s parent table n.masked)) :
    Agree SameJoins (joinsAll s parent table ns) (joinsAll s parent table (maskedAll ns)) := by
  induction ns with
  | nil => exact .ok rfl
  | cons n ns ih =>
    rw [List.forall_mem_cons] at H
    refine H.1.bind fun js js' h => (ih H.2).bind fun rest rest' hrest => .ok ?_
    unfold SameJoins Sql.SameMasked at *
    rw [List.flatMap_append, List.flatMap_append, Sql.masked_append, Sql.masked_append, h, hrest]

theorem agree_joins :
    Agree SameJoins (joins s parent table n) (joins s parent table n.masked) := by
  induction n generalizing parent table with
  | node n ih =>
    cases hs : n.separate with
    | true =>
      rw [joins_of_separate hs, joins_of_separate (separate_masked.trans hs)]
      exact .ok rfl
    | false =>
      rw [joins_steps hs, joins_steps (separate_masked.trans hs)]
      simp only [name_masked, filter_masked, includes_masked, required_masked]
      refine Agree.bind_same fun step => Filter.agree_condition?.bind fun c? c?' hc => ?_
      refine (agree_joinsAll_of fun c hc => ih c hc).bind fun rest rest' hrest => .ok ?_
      have hjoin := @Join.sameMasked_sql
        (joinOf step.1 parent step.2 table n.required none) _ _ hc
      rw [← joinOf_eq, ← joinOf_eq] at hjoin
      unfold SameJoins Sql.SameMasked at *
      rw [List.flatMap_cons, List.flatMap_cons, Sql.masked_append, Sql.masked_append, hjoin, hrest]

/-- The joins of a statement come without values. -/
theorem agree_joinsAll :
    Agree SameJoins (joinsAll s parent table ns) (joinsAll s parent table (maskedAll ns)) :=
  agree_joinsAll_of fun _ _ => agree_joins

end Include

/-! ## Plans without values -/

/-- The plan without the values of its filters. -/
def Plan.masked (p : Plan) : Plan :=
  { p with filter := p.filter.map Filter.masked, includes := Include.maskedAll p.includes }

theorem Select.sameMasked_sql {q : Select} {js : List Join} {c? : Option Condition}
    (hjoins : Include.SameJoins q.joins js) (hcondition : Condition.SameMasked q.condition c?) :
    Sql.SameMasked q.sql { q with joins := js, condition := c? }.sql := by
  obtain ⟨columns, table, name, joins, condition, group, order, limit, offset⟩ := q
  dsimp only at hjoins hcondition
  unfold Include.SameJoins Sql.SameMasked at *
  unfold Select.sql
  cases hcondition with
  | none => simp only [Sql.masked_append, Sql.masked_cons, hjoins]
  | some h =>
    unfold Sql.SameMasked at h
    simp only [Sql.masked_append, Sql.masked_cons, hjoins, h]

/-- The statement of a plan is the same without its values. -/
theorem Plan.agree_masked {s : Schema} {p : Plan} :
    Agree (fun q q' => Sql.SameMasked q.sql q'.sql) (p.select s) (p.masked.select s) := by
  rw [select_steps, select_steps]
  refine Agree.bind_same fun m => Agree.bind_same fun items => ?_
  have hcolumns : (if p.masked.isCount then .ok []
      else Include.columnsAll s m m.name "" p.masked.includes) =
        if p.isCount then .ok [] else Include.columnsAll s m m.name "" p.includes := by
    rw [masked, Include.columnsAll_masked]
    rfl
  rw [hcolumns]
  refine Agree.bind_same fun below => Include.agree_joinsAll.bind fun js js' hjoins => ?_
  refine Filter.agree_condition?.bind fun c? c?' hcondition => .ok ?_
  exact Select.sameMasked_sql hjoins hcondition

namespace Batch

variable {b : Batch} {js : List Join} {c? : Option Condition} {keys : List Document}

theorem sameMasked_correlation (hkeys : b.keys.length = keys.length) :
    Sql.SameMasked b.correlation { b with keys := keys }.correlation := by
  have hempty : keys.isEmpty = b.keys.isEmpty := by
    rw [Bool.eq_iff_iff, List.isEmpty_iff_length_eq_zero, List.isEmpty_iff_length_eq_zero, hkeys]
  unfold Sql.SameMasked correlation
  dsimp only
  rw [hempty]
  split
  · rfl
  · simp [Function.comp_def, List.map_const', hkeys]

theorem sameMasked_condition (hfilter : Condition.SameMasked b.filter c?)
    (hkeys : b.keys.length = keys.length) :
    Sql.SameMasked b.condition { b with filter := c?, keys := keys }.condition := by
  have hcorrelation : b.correlation.masked =
      { b with filter := c?, keys := keys }.correlation.masked := sameMasked_correlation hkeys
  unfold Sql.SameMasked condition
  rw [Sql.masked_append, Sql.masked_append, hcorrelation]
  congr 1
  generalize b.filter = filter at hfilter
  cases hfilter with
  | none => rfl
  | some h =>
    unfold Sql.SameMasked at h
    simp [h]

theorem sameMasked_rows (hjoins : Include.SameJoins b.joins js)
    (hfilter : Condition.SameMasked b.filter c?) (hkeys : b.keys.length = keys.length) :
    Sql.SameMasked b.rows { b with joins := js, filter := c?, keys := keys }.rows := by
  have hcondition : b.condition.masked =
      { b with joins := js, filter := c?, keys := keys }.condition.masked :=
    sameMasked_condition hfilter hkeys
  unfold Include.SameJoins Sql.SameMasked at hjoins
  unfold Sql.SameMasked rows
  simp only [Sql.masked_append, Sql.masked_cons, hcondition, hjoins]
  rfl

theorem sameMasked_sql (hjoins : Include.SameJoins b.joins js)
    (hfilter : Condition.SameMasked b.filter c?) (hkeys : b.keys.length = keys.length) :
    Sql.SameMasked b.sql { b with joins := js, filter := c?, keys := keys }.sql := by
  have hrows := sameMasked_rows hjoins hfilter hkeys
  unfold Batch.sql
  dsimp only
  split
  · exact hrows
  · unfold Sql.SameMasked at *
    simp only [Sql.masked_append, Sql.masked_cons, hrows]

end Batch

/-- The statement of a separate node is the same without its values, for as many parents. -/
theorem Include.agree_batch_masked {s : Schema} {parent : Model} {n : Include}
    {keys keys' : List Document} (hkeys : keys.length = keys'.length) :
    Agree (fun b b' => Sql.SameMasked b.sql b'.sql) (n.batch s parent keys)
      (n.masked.batch s parent keys') := by
  rw [batch_steps, batch_steps]
  simp only [name_masked, attributes_masked, includes_masked, filter_masked, page_masked,
    columnsAll_masked]
  refine Agree.bind_same fun step => Agree.bind_same fun items => Agree.bind_same fun below => ?_
  refine agree_joinsAll.bind fun js js' hjoins => ?_
  refine Filter.agree_condition?.bind fun c? c?' hfilter => Agree.bind_same fun page => .ok ?_
  exact Batch.sameMasked_sql hjoins hfilter hkeys

/-- Two runs that agree up to values with the run without them agree with each other. -/
theorem Agree.statements {α : Type} {sql : α → Sql} {x y z z' : Except PlanError α}
    (hx : Agree (fun q q' => Sql.SameMasked (sql q) (sql q')) x z)
    (hy : Agree (fun q q' => Sql.SameMasked (sql q) (sql q')) y z') (h : z = z') :
    Agree Statement.Alike (x >>= fun q => .ok (sql q).statement)
      (y >>= fun q => .ok (sql q).statement) := by
  subst h
  refine (hx.trans hy.symm fun a b c hab hcb => ?_).bind fun q q' (hq : Sql.SameMasked _ _) =>
    .ok (Sql.alike_of_masked hq)
  exact hab.trans (Eq.symm hcb)

/-- The statements of two plans that differ in values alone have one text and as many parameters, or
there is none of either; so have the statements of two separate nodes for as many parents. -/
theorem Schema.statements_of_masked (s : Schema) :
    (∀ p p' : Plan, p.masked = p'.masked →
      Agree Statement.Alike (p.statement s) (p'.statement s)) ∧
    ∀ parent (n n' : Include) keys keys', n.masked = n'.masked → keys.length = keys'.length →
      Agree Statement.Alike (n.batchStatement s parent keys) (n'.batchStatement s parent keys') := by
  constructor
  · intro p p' h
    exact Plan.agree_masked.statements Plan.agree_masked (by rw [h])
  · intro parent n n' keys keys' h hkeys
    exact (Include.agree_batch_masked hkeys).statements
      (Include.agree_batch_masked rfl) (by rw [h])

/-! ### Parcels by a toy and customers by a country -/

def toyIsSeven : Filter :=
  .comparison ⟨⟨[], "contents", ["toy"]⟩, .eq, .plain (.num (.ofBigint (.clamp 7))), none, false⟩

def countryIsEmpty : Filter :=
  .comparison ⟨⟨[], "country", []⟩, .eq, .plain .null, some .string, false⟩

/-- Another key in the document and a number instead of a text change no text of a statement, nor do
a missing country and other parents. -/
theorem toyIsSeven_alike : (∃ st st',
      (parcelPlan (giftComparison .eq (.str "book"))).statement parcelSchema = .ok st ∧
      (parcelPlan toyIsSeven).statement parcelSchema = .ok st' ∧ st.Alike st') ∧
    ∃ st st',
      (customerNode countryIs []).batchStatement shopSchema orderModel [.str "7"] = .ok st ∧
      (customerNode countryIsEmpty []).batchStatement shopSchema orderModel [.null] = .ok st' ∧
      st.Alike st' := by
  have hgift : (parcelPlan (giftComparison .eq (.str "book"))).masked =
    (parcelPlan toyIsSeven).masked := rfl
  have hcountry : (customerNode countryIs []).masked = (customerNode countryIsEmpty []).masked := rfl
  have hplans := (Schema.statements_of_masked parcelSchema).1 _ _ hgift
  have hnodes := (Schema.statements_of_masked shopSchema).2 orderModel _ _ [.str "7"] [.null]
    hcountry rfl
  exact ⟨⟨_, _, rfl, rfl, hplans.rel⟩, _, _, rfl, rfl, hnodes.rel⟩

end RelQuery
