import Mathlib.Tactic.SplitIfs
import RelQuery.Document.Printer
import RelQuery.Document.Reader
import RelQuery.Proofs.Decimal.Reading

/-!
# Texts of documents

No two documents have the same compact text. Each text ends where the next one begins: a quoted text
at its quote, brackets at the closing one, and a numeral before the first character that is no part
of numerals.
-/

namespace RelQuery

/-! ## Numbers -/

namespace Number

variable {m n : Number}

theorem isPart_text {c : Char} (h : c ∈ n.text.toList) : Numeral.isPart c = true := by
  cases n with
  | float x => exact Binary64.isPart_jsonText h
  | int n =>
    rcases Numeral.mem_toString h with rfl | hdigit
    · rfl
    · exact Numeral.isPart_of_isDigit hdigit

/-- An integer is not written like a double. -/
theorem toString_ne_jsonText (n : Int) (x : Binary64) : toString n ≠ x.jsonText := by
  intro h
  rcases Binary64.fractional_jsonText x with hx | hx
  · rcases Numeral.mem_toString (h ▸ hx) with h' | h' <;> cases h'
  · rcases Numeral.mem_toString (h ▸ hx) with h' | h' <;> cases h'

theorem text_ne_nil (n : Number) : n.text.toList ≠ [] := by
  cases n with
  | int n =>
    rw [text, Numeral.toList_toString]
    exact List.append_ne_nil_of_right_ne_nil _ Nat.toDigits_ne_nil
  | float x => exact (Binary64.fractional_jsonText x).elim List.ne_nil_of_mem List.ne_nil_of_mem

theorem text_injective (h : m.text = n.text) : m = n := by
  cases m with
  | int a =>
    cases n with
    | int b =>
      have hab : a = b := Numeral.toString_injective h
      subst hab
      rfl
    | float y => exact absurd h (toString_ne_jsonText a y)
  | float x =>
    cases n with
    | int b => exact absurd h.symm (toString_ne_jsonText b x)
    | float y => rw [Binary64.jsonText_injective h]

end Number

namespace Document

variable {a b : Document} {c : Char} {rest rest' : List Char}

/-- A text after a numeral does not continue it. -/
def Ends (rest : List Char) : Prop := ∀ c, rest.head? = some c → Numeral.isPart c = false

/-! ## Quoted texts -/

theorem hex4?_hexDigit : ∀ n < 0x20,
    hex4? '0' '0' (hexDigit (n / 16)) (hexDigit (n % 16)) = some n := by
  decide

theorem not_surrogate : ∀ n < 0x20, (isHighSurrogate n || isLowSurrogate n) = false := by
  decide

/-- A character reads back from its escaped form. -/
theorem scanUnit?_escapeChar (c : Char) (rest : List Char) :
    scanUnit? (escapeChar c ++ rest) = some (.char c, rest) := by
  have htoNat : ∀ k, c.toNat = k → c = Char.ofNat k := fun k h => by
    rw [← h, Char.ofNat_toNat]
  unfold escapeChar
  split_ifs with hquote hslash _ _ _ hback hfeed hcontrol
  · subst c
    rfl
  · subst c
    rfl
  · subst c
    rfl
  · subst c
    rfl
  · subst c
    rfl
  · rw [htoNat _ hback]
    rfl
  · rw [htoNat _ hfeed]
    rfl
  · have hhex := hex4?_hexDigit c.toNat hcontrol
    have hsurrogate := not_surrogate c.toNat hcontrol
    simp only [List.cons_append, List.nil_append, scanUnit?, hhex, Option.bind_eq_bind,
      Option.bind_some, hsurrogate, Bool.false_eq_true, if_false, Char.ofNat_toNat]
    rfl
  · rw [List.singleton_append, scanUnit?.eq_def]
    split
    · rename_i heq
      cases heq
    · rename_i heq
      exact absurd (List.cons.inj heq).1 hquote
    · rename_i heq
      exact absurd (List.cons.inj heq).1 hslash
    · rename_i heq
      exact absurd (List.cons.inj heq).1 hslash
    · rename_i heq
      obtain ⟨rfl, rfl⟩ := List.cons.inj heq
      rw [if_neg hcontrol]

/-- A quoted text ends at its quote. -/
theorem escaped_append_inj {s t : List Char}
    (h : s.flatMap escapeChar ++ '"' :: rest = t.flatMap escapeChar ++ '"' :: rest') :
    s = t ∧ rest = rest' := by
  have hclosing : ∀ rest : List Char, scanUnit? ('"' :: rest) = some (.closing, rest) :=
    fun _ => rfl
  induction s generalizing t with
  | nil =>
    cases t with
    | nil => exact ⟨rfl, (List.cons.inj h).2⟩
    | cons d t =>
      have hscan := congrArg scanUnit? h
      rw [List.flatMap_nil, List.nil_append, hclosing, List.flatMap_cons, List.append_assoc,
        scanUnit?_escapeChar] at hscan
      cases hscan
  | cons c s ih =>
    rw [List.flatMap_cons, List.append_assoc] at h
    have hscan := congrArg scanUnit? h
    rw [scanUnit?_escapeChar] at hscan
    cases t with
    | nil =>
      rw [List.flatMap_nil, List.nil_append, hclosing] at hscan
      cases hscan
    | cons d t =>
      rw [List.flatMap_cons, List.append_assoc, scanUnit?_escapeChar] at hscan
      obtain ⟨hunit, hrest⟩ := Prod.mk.inj (Option.some.inj hscan)
      cases hunit
      obtain ⟨rfl, rfl⟩ := ih hrest
      exact ⟨rfl, rfl⟩

theorem quoted_append_inj {s t : String}
    (h : (quoted s).toList ++ rest = (quoted t).toList ++ rest') : s = t ∧ rest = rest' := by
  rw [quoted, quoted, String.toList_ofList, String.toList_ofList] at h
  simp only [List.cons_append, List.append_assoc, List.nil_append, List.cons.injEq, true_and] at h
  obtain ⟨hst, hrest⟩ := escaped_append_inj h
  exact ⟨String.toList_inj.mp hst, hrest⟩

/-! ## First characters -/

/-- What a document is by the first character of its text. -/
inductive Opening
  | null
  | bool (b : Bool)
  | num
  | str
  | arr
  | obj
  deriving DecidableEq

def opening : Document → Opening
  | .null => .null
  | .bool b => .bool b
  | .num _ => .num
  | .str _ => .str
  | .arr _ => .arr
  | .obj _ => .obj

def Opening.ofChar (c : Char) : Option Opening :=
  if c = 'n' then some .null
  else if c = 't' then some (.bool true)
  else if c = 'f' then some (.bool false)
  else if c = '"' then some .str
  else if c = '[' then some .arr
  else if c = '\x7b' then some .obj
  else if Numeral.isPart c then some .num
  else none

theorem Opening.ofChar_of_isPart (h : Numeral.isPart c = true) : ofChar c = some .num := by
  have hne : ∀ k, Numeral.isPart k = false → c ≠ k := by
    rintro k hk rfl
    rw [h] at hk
    cases hk
  rw [ofChar, if_neg (hne _ (by decide)), if_neg (hne _ (by decide)), if_neg (hne _ (by decide)),
    if_neg (hne _ (by decide)), if_neg (hne _ (by decide)), if_neg (hne _ (by decide)), if_pos h]

theorem compactItems_eq_map (items : List Document) : compactItems items = items.map compact := by
  induction items with
  | nil => rfl
  | cons d ds ih => rw [compactItems, ih, List.map_cons]

theorem compactFields_eq_map (fields : List (String × Document)) :
    compactFields fields = fields.map fun f => quoted f.1 ++ ":" ++ compact f.2 := by
  induction fields with
  | nil => rfl
  | cons f fs ih => rw [compactFields, ih, List.map_cons]

/-- The text of a field. -/
def fieldText (f : String × Document) : List Char :=
  (quoted f.1).toList ++ ':' :: (compact f.2).toList

theorem toList_arr (items : List Document) : (compact (.arr items)).toList =
    '[' :: ([','].intercalate (items.map (String.toList ∘ compact)) ++ [']']) := by
  rw [compact, String.toList_append, String.toList_append, String.toList_intercalate,
    compactItems_eq_map, List.map_map]
  rfl

theorem toList_obj (fields : List (String × Document)) : (compact (.obj fields)).toList =
    '\x7b' :: ([','].intercalate (fields.map fieldText) ++ ['\x7d']) := by
  have htext : (String.toList ∘ fun f : String × Document => quoted f.1 ++ ":" ++ compact f.2) =
      fieldText := by
    funext f
    rw [Function.comp_apply, String.toList_append, String.toList_append, List.append_assoc]
    rfl
  rw [compact, String.toList_append, String.toList_append, String.toList_intercalate,
    compactFields_eq_map, List.map_map, htext]
  rfl

/-- The first character of a text tells what the document is. -/
theorem exists_opening (d : Document) :
    ∃ c cs, (compact d).toList = c :: cs ∧ Opening.ofChar c = some d.opening := by
  cases d with
  | null => exact ⟨'n', "ull".toList, by decide, rfl⟩
  | bool b =>
    cases b with
    | false => exact ⟨'f', "alse".toList, by decide, rfl⟩
    | true => exact ⟨'t', "rue".toList, by decide, rfl⟩
  | num n =>
    cases htext : n.text.toList with
    | nil => exact absurd htext n.text_ne_nil
    | cons c cs =>
      exact ⟨c, cs, htext, Opening.ofChar_of_isPart (Number.isPart_text (htext ▸ List.mem_cons_self))⟩
  | str s => exact ⟨'"', _, by rw [compact, quoted, String.toList_ofList]; rfl, rfl⟩
  | arr items => exact ⟨'[', _, toList_arr items, rfl⟩
  | obj fields => exact ⟨'\x7b', _, toList_obj fields, rfl⟩

theorem opening_eq (h : (compact a).toList ++ rest = (compact b).toList ++ rest') :
    a.opening = b.opening := by
  obtain ⟨c, cs, hc, hopening⟩ := exists_opening a
  obtain ⟨c', cs', hc', hopening'⟩ := exists_opening b
  rw [hc, hc', List.cons_append, List.cons_append] at h
  obtain ⟨rfl, -⟩ := List.cons.inj h
  exact Option.some.inj (hopening.symm.trans hopening')

/-- No text starts with a character that opens nothing. -/
theorem exists_first_ne {close : Char} (h : Opening.ofChar close = none) (d : Document) :
    ∃ c cs, (compact d).toList = c :: cs ∧ c ≠ close := by
  obtain ⟨c, cs, hd, hopening⟩ := exists_opening d
  refine ⟨c, cs, hd, ?_⟩
  rintro rfl
  rw [h] at hopening
  cases hopening

/-! ## Sequences -/

theorem ends_cons (h : Numeral.isPart c = false) : Ends (c :: rest) := by
  intro c' hc'
  rwa [← Option.some.inj hc']

/-- The text of a sequence behind its first member. -/
def further (close : Char) (rest : List Char) (texts : List (List Char)) : List Char :=
  match texts with
  | [] => close :: rest
  | _ => ',' :: ([','].intercalate texts ++ close :: rest)

theorem intercalate_cons_append {close : Char} (text : List Char) (texts : List (List Char)) :
    [','].intercalate (text :: texts) ++ close :: rest = text ++ further close rest texts := by
  cases texts with
  | nil => rw [List.intercalate_singleton, further]
  | cons text' texts =>
    rw [List.intercalate_cons_cons, further, List.append_assoc, List.append_assoc]
    · rfl
    · nofun

theorem ends_further {close : Char} {texts : List (List Char)}
    (hclose : Numeral.isPart close = false) : Ends (further close rest texts) := by
  cases texts with
  | nil => exact ends_cons hclose
  | cons text texts => exact ends_cons (by decide)

/-- A sequence stops at the closing bracket, which no member starts with and no comma is. -/
theorem sequence_inj {α : Type} (text : α → List Char) {close : Char} {as bs : List α}
    (hclose : Numeral.isPart close = false) (hcomma : close ≠ ',')
    (hfirst : ∀ b, ∃ c cs, text b = c :: cs ∧ c ≠ close)
    (H : ∀ a ∈ as, ∀ b rest rest', Ends rest → Ends rest' → text a ++ rest = text b ++ rest' →
      a = b ∧ rest = rest')
    (h : [','].intercalate (as.map text) ++ close :: rest =
      [','].intercalate (bs.map text) ++ close :: rest') : as = bs ∧ rest = rest' := by
  induction as generalizing bs with
  | nil =>
    cases bs with
    | nil => exact ⟨rfl, (List.cons.inj h).2⟩
    | cons b bs =>
      obtain ⟨c, cs, hb, hc⟩ := hfirst b
      rw [List.map_cons, intercalate_cons_append, hb] at h
      exact absurd (List.cons.inj h).1.symm hc
  | cons a as ih =>
    rw [List.map_cons, intercalate_cons_append] at h
    cases bs with
    | nil =>
      obtain ⟨c, cs, ha, hc⟩ := hfirst a
      rw [ha] at h
      exact absurd (List.cons.inj h).1 hc
    | cons b bs =>
      rw [List.map_cons, intercalate_cons_append] at h
      rw [List.forall_mem_cons] at H
      obtain ⟨rfl, hrest⟩ := H.1 b _ _ (ends_further hclose) (ends_further hclose) h
      cases as with
      | nil =>
        cases bs with
        | nil => exact ⟨rfl, (List.cons.inj hrest).2⟩
        | cons b bs => exact absurd (List.cons.inj hrest).1 hcomma
      | cons a as =>
        cases bs with
        | nil => exact absurd (List.cons.inj hrest).1.symm hcomma
        | cons b bs =>
          obtain ⟨heq, rfl⟩ := ih H.2 (List.cons.inj hrest).2
          exact ⟨by rw [heq], rfl⟩

/-! ## Documents -/

/-- A numeral ends before the first character that is no part of it. -/
theorem number_append_inj {m n : Number} (hrest : Ends rest) (hrest' : Ends rest')
    (h : m.text.toList ++ rest = n.text.toList ++ rest') : m = n ∧ rest = rest' := by
  have htake : ∀ (n : Number) (rest : List Char), Ends rest →
      (n.text.toList ++ rest).takeWhile Numeral.isPart = n.text.toList := by
    intro n rest hrest
    rw [List.takeWhile_append_of_pos fun c hc => Number.isPart_text hc]
    cases rest with
    | nil => exact List.append_nil _
    | cons c rest =>
      rw [List.takeWhile_cons_of_neg (by rw [hrest c rfl]; nofun), List.append_nil]
  have htext : m.text.toList = n.text.toList := by
    rw [← htake m rest hrest, h, htake n rest' hrest']
  refine ⟨Number.text_injective (String.toList_inj.mp htext), ?_⟩
  rw [htext] at h
  exact List.append_cancel_left h

/-- A field is told by its text if its value is. -/
theorem fieldText_append_inj {f f' : String × Document}
    (H : (compact f.2).toList ++ rest = (compact f'.2).toList ++ rest' → f.2 = f'.2 ∧ rest = rest')
    (h : fieldText f ++ rest = fieldText f' ++ rest') : f = f' ∧ rest = rest' := by
  rw [fieldText, fieldText, List.append_assoc, List.append_assoc] at h
  obtain ⟨hkey, h⟩ := quoted_append_inj h
  obtain ⟨hvalue, hrest⟩ := H (List.cons.inj h).2
  exact ⟨Prod.ext hkey hvalue, hrest⟩

theorem exists_quote (f : String × Document) : ∃ c cs, fieldText f = c :: cs ∧ c ≠ '\x7d' := by
  refine ⟨'"', (f.1.toList.flatMap escapeChar ++ ['"']) ++ ':' :: (compact f.2).toList, ?_,
    by decide⟩
  rw [fieldText, quoted, String.toList_ofList]
  rfl

/-- A text determines its document also when more follows. -/
theorem compact_append_inj (hrest : Ends rest) (hrest' : Ends rest')
    (h : (compact a).toList ++ rest = (compact b).toList ++ rest') : a = b ∧ rest = rest' := by
  have hopening := opening_eq h
  induction a generalizing b rest rest' with
  | null =>
    cases b with
    | null => exact ⟨rfl, List.append_cancel_left h⟩
    | _ => cases hopening
  | bool x =>
    cases b with
    | bool y =>
      cases hopening
      exact ⟨rfl, List.append_cancel_left h⟩
    | _ => cases hopening
  | num m =>
    cases b with
    | num n =>
      obtain ⟨rfl, hr⟩ := number_append_inj hrest hrest' h
      exact ⟨rfl, hr⟩
    | _ => cases hopening
  | str s =>
    cases b with
    | str t =>
      obtain ⟨rfl, hr⟩ := quoted_append_inj h
      exact ⟨rfl, hr⟩
    | _ => cases hopening
  | arr items ih =>
    cases b with
    | arr items' =>
      rw [toList_arr, toList_arr, List.cons_append, List.cons_append, List.append_assoc,
        List.append_assoc] at h
      have hitem : ∀ d ∈ items, ∀ (d' : Document) r r', Ends r → Ends r' →
          (compact d).toList ++ r = (compact d').toList ++ r' → d = d' ∧ r = r' := by
        intro d hd d' r r' hr hr' h
        exact ih d hd hr hr' h (opening_eq h)
      obtain ⟨rfl, hr⟩ := sequence_inj (String.toList ∘ compact) (by decide) (by decide)
        (exists_first_ne (by decide)) hitem (List.cons.inj h).2
      exact ⟨rfl, hr⟩
    | _ => cases hopening
  | obj fields ih =>
    cases b with
    | obj fields' =>
      rw [toList_obj, toList_obj, List.cons_append, List.cons_append, List.append_assoc,
        List.append_assoc] at h
      have hfield : ∀ f ∈ fields, ∀ (f' : String × Document) r r', Ends r → Ends r' →
          fieldText f ++ r = fieldText f' ++ r' → f = f' ∧ r = r' := by
        intro f hf f' r r' hr hr' h
        exact fieldText_append_inj (fun h => ih f hf hr hr' h (opening_eq h)) h
      obtain ⟨rfl, hr⟩ := sequence_inj fieldText (by decide) (by decide) exists_quote hfield
        (List.cons.inj h).2
      exact ⟨rfl, hr⟩
    | _ => cases hopening

/-- No two documents have the same text. -/
theorem compact_injective (h : compact a = compact b) : a = b := by
  have hends : Ends [] := nofun
  have htext : (compact a).toList ++ [] = (compact b).toList ++ [] := by rw [h]
  exact (compact_append_inj hends hends htext).1

end Document

end RelQuery
