import RelQuery.Decimal.Notation
import RelQuery.Decimal.Numeral
import RelQuery.Proofs.Decimal.Shortest

/-!
# Reading decimals back

The text of a decimal reads back as the number that it stands for, so that the text of a double
determines it.
-/

namespace RelQuery

/-! ## Digits -/

namespace Numeral

variable {cs ds fs rest : List Char} {c : Char} {e : Int}

/-- The characters that numerals are written with. -/
def isPart (c : Char) : Bool := c.isDigit || c = '.' || c = 'e' || c = '-' || c = '+'

theorem isPart_of_isDigit (h : c.isDigit = true) : isPart c = true := by
  rw [isPart, h]
  rfl

theorem digit?_of_isDigit (h : c.isDigit = true) : digit? c = some (c.toNat - 48) := by
  have h : '0' ≤ c ∧ c ≤ '9' := by simpa [Char.isDigit, Char.le_def] using h
  rw [digit?, if_pos h]
  rfl

theorem digit?_of_not_isDigit (h : c.isDigit = false) : digit? c = none := by
  refine if_neg fun hc => ?_
  have : c.isDigit = true := by simpa [Char.isDigit, Char.le_def] using hc
  rw [h] at this
  cases this

/-- The digits before a character that is none. -/
theorem digits_append (hds : ∀ c ∈ ds, c.isDigit = true)
    (hrest : ∀ c, rest.head? = some c → c.isDigit = false) :
    digits (ds ++ rest) = (ds.map (fun c => c.toNat - 48), rest) := by
  induction ds with
  | nil =>
    cases rest with
    | nil => rfl
    | cons c rest =>
      rw [List.nil_append, digits, digit?_of_not_isDigit (hrest c rfl)]
      rfl
  | cons c ds ih =>
    rw [List.forall_mem_cons] at hds
    rw [List.cons_append, digits, digit?_of_isDigit hds.1]
    dsimp only
    rw [ih hds.2]
    rfl

theorem digits_eq (hds : ∀ c ∈ ds, c.isDigit = true) :
    digits ds = (ds.map (fun c => c.toNat - 48), []) := by
  have hnone : ∀ c, ([] : List Char).head? = some c → c.isDigit = false := nofun
  simpa using digits_append hds hnone

theorem ofDigits_map (ds : List Char) :
    ofDigits (ds.map (fun c => c.toNat - 48)) = Nat.ofDigitChars 10 ds 0 := by
  rw [ofDigits, List.foldl_map, Nat.ofDigitChars_eq_foldl]
  rfl

/-- Digits around a point, with an exponent. -/
theorem unsignedDecimal?_point (hds : ∀ c ∈ ds, c.isDigit = true)
    (hfs : ∀ c ∈ fs, c.isDigit = true) (hne : ds ≠ [])
    (hrest : ∀ c, rest.head? = some c → c.isDigit = false) (he : exponent? rest = some e) :
    unsignedDecimal? (ds ++ '.' :: (fs ++ rest)) =
      some (Nat.ofDigitChars 10 (ds ++ fs) 0, e - fs.length) := by
  have hpoint : ∀ c, ('.' :: (fs ++ rest)).head? = some c → c.isDigit = false := by
    intro c hc
    cases hc
    rfl
  have hmap : (ds.map fun c => c.toNat - 48).isEmpty = false := by
    rw [List.isEmpty_map, List.isEmpty_eq_false_iff.mpr hne]
  simp only [unsignedDecimal?, digits_append hds hpoint, digits_append hfs hrest, hmap, he,
    ← List.map_append, ofDigits_map, List.length_map]
  rfl

/-- Digits without a point, with an exponent. -/
theorem unsignedDecimal?_plain (hds : ∀ c ∈ ds, c.isDigit = true) (hne : ds ≠ [])
    (hrest : ∀ c, rest.head? = some c → c.isDigit = false)
    (hpoint : rest.head? ≠ some '.') (he : exponent? rest = some e) :
    unsignedDecimal? (ds ++ rest) = some (Nat.ofDigitChars 10 ds 0, e) := by
  have hmap : (ds.map fun c => c.toNat - 48).isEmpty = false := by
    rw [List.isEmpty_map, List.isEmpty_eq_false_iff.mpr hne]
  rw [unsignedDecimal?, digits_append hds hrest]
  dsimp only
  split
  · exact absurd rfl hpoint
  · simp only [hmap, he, List.append_nil, ofDigits_map]
    simp

/-! ### Integers -/

theorem toList_toString (n : Int) :
    (toString n).toList = (if n < 0 then ['-'] else []) ++ Nat.toDigits 10 n.natAbs := by
  rw [Int.toString_eq_repr, Int.repr_eq_if]
  rcases lt_or_ge n 0 with h | h
  · have habs : (-n).toNat = n.natAbs := by omega
    rw [if_neg (by omega), if_pos h, habs, Nat.repr_eq_ofList_toDigits]
    simp
  · have habs : n.toNat = n.natAbs := by omega
    rw [if_pos h, if_neg (by omega), habs, Nat.repr_eq_ofList_toDigits]
    simp

theorem isDigit_toDigits {n : Nat} (h : c ∈ Nat.toDigits 10 n) : c.isDigit = true :=
  Nat.isDigit_of_mem_toDigits (by norm_num) (by norm_num) h

/-- A character of an integer is a minus or a digit. -/
theorem mem_toString {n : Int} (h : c ∈ (toString n).toList) : c = '-' ∨ c.isDigit = true := by
  rw [toList_toString] at h
  rcases List.mem_append.mp h with h | h
  · split at h
    · exact .inl (List.mem_singleton.mp h)
    · cases h
  · exact .inr (isDigit_toDigits h)

theorem toString_injective {m n : Int} (h : toString m = toString n) : m = n := by
  have hlist := congrArg String.toList h
  rw [toList_toString, toList_toString] at hlist
  have hminus : ∀ k : Nat, '-' :: Nat.toDigits 10 k ≠ Nat.toDigits 10 n.natAbs ∧
      '-' :: Nat.toDigits 10 k ≠ Nat.toDigits 10 m.natAbs := by
    intro k
    constructor <;> intro heq
    · have := isDigit_toDigits (heq ▸ List.mem_cons_self)
      cases this
    · have := isDigit_toDigits (heq ▸ List.mem_cons_self)
      cases this
  have hdigits : Nat.toDigits 10 m.natAbs = Nat.toDigits 10 n.natAbs → m.natAbs = n.natAbs := by
    intro heq
    rw [← Nat.ofDigitChars_ten_toDigits (n := m.natAbs), heq, Nat.ofDigitChars_ten_toDigits]
  split at hlist
  · split at hlist
    · have := hdigits (List.append_cancel_left hlist)
      omega
    · exact absurd hlist (hminus _).1
  · split at hlist
    · exact absurd hlist.symm (hminus _).2
    · have := hdigits hlist
      omega

end Numeral

/-! ## Notations -/

namespace Decimal

variable {d : Decimal}

theorem digitChars_eq (d : Decimal) : d.digitChars = Nat.toDigits 10 d.digits := by
  rw [digitChars, Nat.toString_eq_ofList_toDigits, String.toList_ofList]

theorem isDigit_digitChars {c : Char} (h : c ∈ d.digitChars) : c.isDigit = true :=
  Numeral.isDigit_toDigits (digitChars_eq d ▸ h)

theorem digitChars_ne_nil (d : Decimal) : d.digitChars ≠ [] :=
  digitChars_eq d ▸ Nat.toDigits_ne_nil

theorem ofDigitChars_digitChars (d : Decimal) : Nat.ofDigitChars 10 d.digitChars 0 = d.digits := by
  rw [digitChars_eq, Nat.ofDigitChars_ten_toDigits]

theorem isDigit_replicate {n : Nat} {c : Char} (h : c ∈ List.replicate n '0') :
    c.isDigit = true := by
  rw [(List.mem_replicate.mp h).2]
  rfl

/-- A text reads back as `q`. -/
def Reads (cs : List Char) (q : ℚ) : Prop :=
  ∃ n e, Numeral.unsignedDecimal? cs = some (n, e) ∧ (n : ℚ) * 10 ^ e = q

theorem Reads.unique {cs : List Char} {p q : ℚ} (hp : Reads cs p) (hq : Reads cs q) : p = q := by
  obtain ⟨n, e, hn, rfl⟩ := hp
  obtain ⟨n', e', hn', rfl⟩ := hq
  cases hn.symm.trans hn'
  rfl

/-- Digits with a point before the last ones. -/
theorem reads_point (ds fs : List Char) (hds : ∀ c ∈ ds, c.isDigit = true)
    (hfs : ∀ c ∈ fs, c.isDigit = true) (hne : ds ≠ []) :
    Reads (ds ++ '.' :: fs) (Nat.ofDigitChars 10 (ds ++ fs) 0 * 10 ^ (-fs.length : Int)) := by
  have hnone : ∀ c, ([] : List Char).head? = some c → c.isDigit = false := nofun
  have h := Numeral.unsignedDecimal?_point hds hfs hne hnone rfl
  rw [List.append_nil, Int.zero_sub] at h
  exact ⟨_, _, h, rfl⟩

/-- The digits of a decimal, perhaps behind zeros, with as many behind the point as its exponent
says. -/
theorem reads_places {ds fs : List Char} (hds : ∀ c ∈ ds, c.isDigit = true)
    (hfs : ∀ c ∈ fs, c.isDigit = true) (hne : ds ≠ [])
    (hdigits : Nat.ofDigitChars 10 (ds ++ fs) 0 = d.digits) (hplaces : (fs.length : Int) = -d.exp) :
    Reads (ds ++ '.' :: fs) d.value := by
  have hr := reads_point ds fs hds hfs hne
  rwa [hdigits, hplaces, Int.neg_neg] at hr

/-- Zeros in front change nothing. -/
theorem ofDigitChars_zeros (d : Decimal) (n : Nat) :
    Nat.ofDigitChars 10 (List.replicate n '0' ++ d.digitChars) 0 = d.digits := by
  rw [Nat.ofDigitChars_append, Nat.ofDigitChars_replicate_zero, Nat.mul_zero,
    ofDigitChars_digitChars]

theorem reads_positional (h : d.exp < 0) : Reads d.positional.toList d.value := by
  rw [positional, if_neg (by omega)]
  dsimp only
  split
  · rename_i hlt
    rw [String.toList_ofList]
    apply reads_places
    · exact fun c hc => isDigit_digitChars (List.mem_of_mem_take hc)
    · exact fun c hc => isDigit_digitChars (List.mem_of_mem_drop hc)
    · intro hnil
      have hlen := congrArg List.length hnil
      rw [List.length_take, List.length_nil] at hlen
      omega
    · rw [List.take_append_drop, ofDigitChars_digitChars]
    · rw [List.length_drop]
      omega
  · rename_i hge
    rw [String.toList_ofList]
    have hzeros : ∀ n, '0' :: (List.replicate n '0' ++ d.digitChars) =
        List.replicate (n + 1) '0' ++ d.digitChars := fun _ => rfl
    apply reads_places (List.forall_mem_singleton.mpr rfl)
    · exact fun c hc => (List.mem_append.mp hc).elim isDigit_replicate isDigit_digitChars
    · exact List.cons_ne_nil _ _
    · rw [List.singleton_append, hzeros, ofDigitChars_zeros]
    · rw [List.length_append, List.length_replicate]
      omega

theorem reads_positional_point (h : 0 ≤ d.exp) :
    Reads (d.positional ++ ".0").toList d.value := by
  obtain ⟨zeros, hzeros⟩ := Int.eq_ofNat_of_zero_le h
  have hcount : d.exp.toNat = zeros := by omega
  rw [positional, if_pos h, hcount, String.toList_append, String.toList_ofList]
  have hr := reads_point (d.digitChars ++ List.replicate zeros '0') ['0']
    (fun c hc => (List.mem_append.mp hc).elim isDigit_digitChars isDigit_replicate)
    (List.forall_mem_singleton.mpr rfl) (by simp [digitChars_ne_nil])
  have hdigits : Nat.ofDigitChars 10 (d.digitChars ++ List.replicate zeros '0' ++ ['0']) 0 =
      10 * (10 ^ zeros * d.digits) := by
    have hlast : ['0'] = List.replicate 1 '0' := rfl
    rw [Nat.ofDigitChars_append, Nat.ofDigitChars_append, ofDigitChars_digitChars,
      Nat.ofDigitChars_replicate_zero, hlast, Nat.ofDigitChars_replicate_zero, Nat.pow_one]
  rw [hdigits] at hr
  have hvalue : d.value = (10 * (10 ^ zeros * d.digits) : Nat) *
      10 ^ (-(['0'] : List Char).length : Int) := by
    rw [value, hzeros]
    push_cast
    simp
    ring
  rw [hvalue]
  exact hr

/-- Digits without a point. -/
theorem reads_digits {ds : List Char} (hds : ∀ c ∈ ds, c.isDigit = true) (hne : ds ≠ []) :
    Reads ds (Nat.ofDigitChars 10 ds 0) := by
  have hnone : ∀ c, ([] : List Char).head? = some c → c.isDigit = false := nofun
  have h := Numeral.unsignedDecimal?_plain hds hne hnone nofun rfl
  rw [List.append_nil] at h
  exact ⟨_, _, h, by simp⟩

theorem reads_positional_of_nonneg (h : 0 ≤ d.exp) : Reads d.positional.toList d.value := by
  obtain ⟨zeros, hzeros⟩ := Int.eq_ofNat_of_zero_le h
  have hcount : d.exp.toNat = zeros := by omega
  have hr := @reads_digits (d.digitChars ++ List.replicate zeros '0')
    (fun c hc => (List.mem_append.mp hc).elim isDigit_digitChars isDigit_replicate)
    (by simp [digitChars_ne_nil])
  rw [Nat.ofDigitChars_append, ofDigitChars_digitChars, Nat.ofDigitChars_replicate_zero] at hr
  rw [positional, if_pos h, hcount, String.toList_ofList]
  have hvalue : d.value = (10 ^ zeros * d.digits : Nat) := by
    rw [value, hzeros]
    push_cast
    simp
    ring
  rwa [hvalue]

/-- The exponent of the scientific notation. -/
def exponentText (e : Int) : String := "e" ++ if e < 0 then toString e else "+" ++ toString e

theorem toList_exponentText (e : Int) : (exponentText e).toList =
    'e' :: (if e < 0 then '-' else '+') :: Nat.toDigits 10 e.natAbs := by
  have htext := Numeral.toList_toString e
  unfold exponentText
  split
  · rename_i h
    rw [if_pos h] at htext
    rw [String.toList_append, htext]
    rfl
  · rename_i h
    rw [if_neg h] at htext
    rw [String.toList_append, String.toList_append, htext]
    rfl

theorem exponent?_exponentText (e : Int) :
    Numeral.exponent? (exponentText e).toList = some e := by
  have hdigits := Numeral.digits_eq fun _ hc => Numeral.isDigit_toDigits (n := e.natAbs) hc
  have hvalue := Numeral.ofDigits_map (Nat.toDigits 10 e.natAbs)
  rw [Nat.ofDigitChars_ten_toDigits] at hvalue
  have hint : ∀ neg : Bool, Numeral.sign ((if neg then '-' else '+') ::
      Nat.toDigits 10 e.natAbs) = (neg, Nat.toDigits 10 e.natAbs) := by
    intro neg
    cases neg <;> rfl
  rw [toList_exponentText, Numeral.exponent?, if_pos (.inl rfl), Numeral.int?]
  have hsign := hint (decide (e < 0))
  simp only [decide_eq_true_eq] at hsign
  rw [hsign]
  dsimp only
  rw [hdigits]
  cases hcs : (Nat.toDigits 10 e.natAbs).map (fun c => c.toNat - 48) with
  | nil => exact absurd (List.map_eq_nil_iff.mp hcs) Nat.toDigits_ne_nil
  | cons c cs =>
    dsimp only
    rw [← hcs, hvalue]
    simp only [decide_eq_true_eq]
    split
    · congr 1
      omega
    · congr 1
      omega

theorem head?_exponentText {e : Int} {c : Char} (h : (exponentText e).toList.head? = some c) :
    c = 'e' := by
  rw [toList_exponentText] at h
  exact (Option.some.inj h).symm

theorem toList_scientific (d : Decimal) : d.scientific.toList = d.digitChars.take 1 ++
    ((if (d.digitChars.drop 1).isEmpty then [] else '.' :: d.digitChars.drop 1) ++
      (exponentText d.lead).toList) := by
  unfold scientific exponentText
  simp [String.toList_append]

theorem reads_scientific (d : Decimal) : Reads d.scientific.toList d.value := by
  have hlead : d.lead = d.exp + d.digitChars.length - 1 := rfl
  have hdigit : ∀ c, (exponentText d.lead).toList.head? = some c → c.isDigit = false := by
    intro c hc
    rw [head?_exponentText hc]
    rfl
  have htake : ∀ c ∈ d.digitChars.take 1, c.isDigit = true := fun c hc =>
    isDigit_digitChars (List.mem_of_mem_take hc)
  have hne : d.digitChars.take 1 ≠ [] := by
    simp [List.take_eq_nil_iff, digitChars_ne_nil]
  rw [toList_scientific]
  cases hdrop : d.digitChars.drop 1 with
  | nil =>
    have hone : d.digitChars.take 1 = d.digitChars := by
      rw [← List.append_nil (d.digitChars.take 1), ← hdrop, List.take_append_drop]
    have hlen : d.digitChars.length = 1 := by
      have h := congrArg List.length hdrop
      have hpos := List.length_pos_of_ne_nil (digitChars_ne_nil d)
      rw [List.length_drop, List.length_nil] at h
      omega
    refine ⟨_, _, Numeral.unsignedDecimal?_plain htake hne hdigit (fun h => ?_)
      (exponent?_exponentText d.lead), ?_⟩
    · cases head?_exponentText h
    · rw [hone, ofDigitChars_digitChars, value, hlead, hlen]
      simp
  | cons f fs =>
    have hfs : ∀ c ∈ f :: fs, c.isDigit = true := fun c hc =>
      isDigit_digitChars (List.mem_of_mem_drop (hdrop ▸ hc))
    have hall : d.digitChars.take 1 ++ f :: fs = d.digitChars := by
      rw [← hdrop, List.take_append_drop]
    have hlen : d.digitChars.length = (f :: fs).length + 1 := by
      have h := congrArg List.length hdrop
      rw [List.length_drop, List.length_cons] at h
      rw [List.length_cons]
      omega
    refine ⟨_, _, Numeral.unsignedDecimal?_point htake hfs hne hdigit
      (exponent?_exponentText d.lead), ?_⟩
    have hexp : d.lead - ((f :: fs).length : Int) = d.exp := by
      rw [hlead, hlen]
      push_cast
      omega
    rw [hall, ofDigitChars_digitChars, hexp, value]

/-! ## Characters -/

variable {c : Char}

theorem isPart_exponentText {e : Int} (h : c ∈ (exponentText e).toList) :
    Numeral.isPart c = true := by
  rw [toList_exponentText] at h
  rcases List.mem_cons.mp h with rfl | h
  · rfl
  · rcases List.mem_cons.mp h with rfl | h
    · split <;> rfl
    · exact Numeral.isPart_of_isDigit (Numeral.isDigit_toDigits h)

theorem isPart_point {ds fs : List Char} (hds : ∀ c ∈ ds, Numeral.isPart c = true)
    (hfs : ∀ c ∈ fs, Numeral.isPart c = true) (h : c ∈ ds ++ '.' :: fs) :
    Numeral.isPart c = true := by
  rcases List.mem_append.mp h with h | h
  · exact hds c h
  · rcases List.mem_cons.mp h with rfl | h
    · rfl
    · exact hfs c h

theorem isPart_digitChars (h : c ∈ d.digitChars) : Numeral.isPart c = true :=
  Numeral.isPart_of_isDigit (isDigit_digitChars h)

theorem isPart_replicate {n : Nat} (h : c ∈ List.replicate n '0') : Numeral.isPart c = true :=
  Numeral.isPart_of_isDigit (isDigit_replicate h)

theorem isPart_positional (h : c ∈ d.positional.toList) : Numeral.isPart c = true := by
  unfold positional at h
  dsimp only at h
  split at h
  · rw [String.toList_ofList] at h
    exact (List.mem_append.mp h).elim isPart_digitChars isPart_replicate
  · split at h
    · rw [String.toList_ofList] at h
      exact isPart_point (fun c hc => isPart_digitChars (List.mem_of_mem_take hc))
        (fun c hc => isPart_digitChars (List.mem_of_mem_drop hc)) h
    · rw [String.toList_ofList] at h
      exact isPart_point (List.forall_mem_singleton.mpr rfl)
        (fun c hc => (List.mem_append.mp hc).elim isPart_replicate isPart_digitChars) h

theorem isPart_scientific (h : c ∈ d.scientific.toList) : Numeral.isPart c = true := by
  rw [toList_scientific] at h
  rcases List.mem_append.mp h with h | h
  · exact isPart_digitChars (List.mem_of_mem_take h)
  · rcases List.mem_append.mp h with h | h
    · split at h
      · cases h
      · exact isPart_point (List.forall_mem_nil _)
          (fun c hc => isPart_digitChars (List.mem_of_mem_drop hc)) h
    · exact isPart_exponentText h

/-- What tells a decimal from an integer: a point or an exponent. -/
theorem point_mem_positional (h : d.exp < 0) : '.' ∈ d.positional.toList := by
  rw [positional, if_neg (by omega)]
  dsimp only
  split
  · simp
  · simp

theorem e_mem_scientific (d : Decimal) : 'e' ∈ d.scientific.toList := by
  rw [toList_scientific, toList_exponentText]
  simp

end Decimal

/-! ## Doubles -/

namespace Binary64

variable {x y : Binary64}

/-- The text without the sign. -/
def unsignedText (x : Binary64) : String :=
  let d := Decimal.shortest .even x
  if -5 ≤ d.lead ∧ d.lead ≤ 15 then
    if 0 ≤ d.exp then d.positional ++ ".0" else d.positional
  else d.scientific

theorem jsonText_eq (x : Binary64) : x.jsonText = x.sign ++ x.unsignedText := rfl

theorem reads_unsignedText (x : Binary64) :
    Decimal.Reads x.unsignedText.toList (Decimal.shortest .even x).value := by
  unfold unsignedText
  dsimp only
  split
  · split
    · rename_i h
      exact Decimal.reads_positional_point h
    · rename_i h
      exact Decimal.reads_positional (by omega)
  · exact Decimal.reads_scientific _

/-! ### Characters -/

theorem isPart_unsignedText {c : Char} (h : c ∈ x.unsignedText.toList) :
    Numeral.isPart c = true := by
  unfold unsignedText at h
  dsimp only at h
  split at h
  · split at h
    · rw [String.toList_append] at h
      rcases List.mem_append.mp h with h | h
      · exact Decimal.isPart_positional h
      · have hpoint : ∀ c ∈ ['.', '0'], Numeral.isPart c = true :=
          List.forall_mem_cons.mpr ⟨rfl, List.forall_mem_singleton.mpr rfl⟩
        exact hpoint c h
    · exact Decimal.isPart_positional h
  · exact Decimal.isPart_scientific h

theorem isPart_jsonText {c : Char} (h : c ∈ x.jsonText.toList) : Numeral.isPart c = true := by
  rw [jsonText_eq, String.toList_append] at h
  rcases List.mem_append.mp h with h | h
  · unfold sign at h
    split at h
    · rw [List.mem_singleton.mp h]
      rfl
    · cases h
  · exact isPart_unsignedText h

theorem fractional_unsignedText (x : Binary64) :
    '.' ∈ x.unsignedText.toList ∨ 'e' ∈ x.unsignedText.toList := by
  unfold unsignedText
  dsimp only
  split
  · split
    · exact .inl (by simp [String.toList_append])
    · exact .inl (Decimal.point_mem_positional (by omega))
  · exact .inr (Decimal.e_mem_scientific _)

theorem fractional_jsonText (x : Binary64) :
    '.' ∈ x.jsonText.toList ∨ 'e' ∈ x.jsonText.toList := by
  rw [jsonText_eq, String.toList_append]
  exact (fractional_unsignedText x).imp (List.mem_append_right _) (List.mem_append_right _)

/-- No minus stands before the digits. -/
theorem head_unsignedText (x : Binary64) : x.unsignedText.toList.head? ≠ some '-' := by
  intro h
  obtain ⟨n, e, hread, -⟩ := reads_unsignedText x
  obtain ⟨cs, hcs⟩ : ∃ cs, x.unsignedText.toList = '-' :: cs := by
    cases hx : x.unsignedText.toList with
    | nil =>
      rw [hx] at h
      cases h
    | cons c cs =>
      rw [hx] at h
      exact ⟨cs, by rw [Option.some.inj h]⟩
  rw [hcs] at hread
  cases hread

/-- The text of a double determines it. -/
theorem jsonText_injective (h : x.jsonText = y.jsonText) : x = y := by
  have hsigned : x.neg = y.neg ∧ x.unsignedText = y.unsignedText := by
    have hlist := congrArg String.toList h
    rw [jsonText_eq, jsonText_eq, String.toList_append, String.toList_append, sign, sign] at hlist
    have hx := head_unsignedText x
    have hy := head_unsignedText y
    cases hxn : x.neg with
    | true =>
      cases hyn : y.neg with
      | true =>
        rw [hxn, hyn] at hlist
        exact ⟨rfl, String.toList_inj.mp (List.append_cancel_left hlist)⟩
      | false =>
        rw [hxn, hyn] at hlist
        exact absurd (congrArg List.head? hlist).symm hy
    | false =>
      cases hyn : y.neg with
      | true =>
        rw [hxn, hyn] at hlist
        exact absurd (congrArg List.head? hlist) hx
      | false =>
        rw [hxn, hyn] at hlist
        exact ⟨rfl, String.toList_inj.mp hlist⟩
  have hvalue := (reads_unsignedText x).unique (hsigned.2 ▸ reads_unsignedText y)
  obtain ⟨hman, hexp⟩ := Decimal.eq_of_shortest hvalue
  cases x
  cases y
  cases hsigned.1
  cases hman
  cases hexp
  rfl

end Binary64

end RelQuery
