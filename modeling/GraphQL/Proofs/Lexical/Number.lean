/-
How numbers are written.

  Numeral       = -? IntegerPart FractionPart? ExponentPart?
  IntegerPart   = 0 | [1-9] [0-9]*
  FractionPart  = . [0-9]+
  ExponentPart  = [eE] [+-]? [0-9]+

* `Numeral` — the texts of numbers, with and without fraction and exponent;
* `Scan.number_eq_ok_iff` — a number is read exactly if the text starts with a
  numeral and what follows cannot be taken for more of it.

Design notes: reading a number goes as far as it can and never back, so what
follows a number matters as much as the number itself.
-/
import GraphQL.Lexical.Number

namespace GraphQL

/-- A text does not go on with a character of some class. -/
def Stops (p : Char → Bool) (cs : List Char) : Prop := ∀ c ∈ cs.head?, p c = false

theorem Stops.nil (p : Char → Bool) : Stops p [] := by simp [Stops]

theorem stops_cons_iff {p : Char → Bool} {c : Char} {cs : List Char} :
    Stops p (c :: cs) ↔ p c = false := by
  simp [Stops]

theorem Stops.mono {p q : Char → Bool} {cs : List Char} (h : Stops p cs)
    (hpq : ∀ c, p c = false → q c = false) : Stops q cs := fun c hc => hpq c (h c hc)

theorem Stops.takeWhile_eq {p : Char → Bool} {cs : List Char} (h : Stops p cs) :
    cs.takeWhile p = [] ∧ cs.dropWhile p = cs := by
  cases cs with
  | nil => exact ⟨rfl, rfl⟩
  | cons c cs => simp [stops_cons_iff.1 h]

/-- The characters of a class in front of a text that stops there. -/
theorem takeWhile_append_of_stops {p : Char → Bool} {cs rest : List Char}
    (h : ∀ c ∈ cs, p c = true) (hr : Stops p rest) :
    (cs ++ rest).takeWhile p = cs ∧ (cs ++ rest).dropWhile p = rest := by
  rw [List.takeWhile_append_of_pos h, List.dropWhile_append_of_pos h, hr.takeWhile_eq.1,
    hr.takeWhile_eq.2]
  exact ⟨List.append_nil cs, rfl⟩

theorem stops_dropWhile (p : Char → Bool) (cs : List Char) : Stops p (cs.dropWhile p) := by
  intro c hc
  have h := List.head?_dropWhile_not p cs
  rw [Option.mem_def.1 hc] at h
  exact h

/-- At least one digit and nothing else. -/
def IsDigits (cs : List Char) : Prop := cs ≠ [] ∧ ∀ c ∈ cs, c.isDigit = true

/-- A single zero, or digits that do not start with one. -/
inductive IntegerPart : List Char → Prop
  | zero : IntegerPart ['0']
  | digits {ds : List Char} (h : IsDigits ds) (hz : ds.head? ≠ some '0') : IntegerPart ds

theorem IsDigits.opens {ds : List Char} (h : IsDigits ds) :
    ∃ c cs, ds = c :: cs ∧ c.isDigit = true := by
  cases ds with
  | nil => exact absurd rfl h.1
  | cons c cs => exact ⟨c, cs, rfl, h.2 c (by simp)⟩

/-- An integer part starts with a digit. -/
theorem IntegerPart.opens {i : List Char} (h : IntegerPart i) :
    ∃ c cs, i = c :: cs ∧ c.isDigit = true := by
  cases h with
  | zero => exact ⟨'0', [], rfl, by decide⟩
  | digits h _ => exact h.opens

/-- No digit is a sign. -/
theorem IntegerPart.stops_minus {i : List Char} (h : IntegerPart i) (rest : List Char) :
    Stops ['-'].contains (i ++ rest) := by
  obtain ⟨c, cs, rfl, hc⟩ := h.opens
  rw [List.cons_append, stops_cons_iff, ← Bool.not_eq_true]
  intro hminus
  obtain rfl : c = '-' := by simpa using hminus
  simp at hc

/-- A point and digits, or nothing. -/
inductive FractionPart : Bool → List Char → Prop
  | none : FractionPart false []
  | some {ds : List Char} (h : IsDigits ds) : FractionPart true ('.' :: ds)

/-- A mark, a sign that may be missing, and digits, or nothing. -/
inductive ExponentPart : Bool → List Char → Prop
  | none : ExponentPart false []
  | some {mark : Char} {sign ds : List Char} (hm : mark ∈ ['e', 'E'])
    (hs : sign = [] ∨ ∃ c ∈ ['+', '-'], sign = [c]) (h : IsDigits ds) :
    ExponentPart true (mark :: (sign ++ ds))

/-- The text of a number, which says whether it has a fraction and an exponent. -/
inductive Numeral : Bool → Bool → List Char → Prop
  | intro {f e : Bool} {sign i fs es : List Char} (hs : sign = [] ∨ ∃ c ∈ ['-'], sign = [c])
    (hi : IntegerPart i) (hf : FractionPart f fs) (he : ExponentPart e es) :
    Numeral f e (sign ++ (i ++ (fs ++ es)))

/-- What follows a numeral cannot be taken for more of it. -/
structure NumeralEnds (f e : Bool) (rest : List Char) : Prop where
  digit : Stops Char.isDigit rest
  mark : e = false → Stops ['e', 'E'].contains rest
  point : f = false → e = false → Stops ['.'].contains rest

namespace Scan

/-- A mark is read if it is there. -/
theorem optional_eq_ok_iff {marks cs : List Char} {r : Reading Bool} :
    optional marks cs = .ok r ↔
      (r.value = true ∧ ∃ c ∈ marks, r.text = [c] ∧ cs = c :: r.rest) ∨
        (r.value = false ∧ r.text = [] ∧ cs = r.rest ∧ Stops marks.contains cs) := by
  obtain ⟨value, text, rest⟩ := r
  cases cs with
  | nil => simp [optional, Stops.nil, eq_comm]
  | cons c cs =>
    rw [optional, stops_cons_iff]
    by_cases hc : marks.contains c = true
    · have hmem : c ∈ marks := by simpa using hc
      rw [if_pos hc]
      simp only [Except.ok.injEq, Reading.mk.injEq]
      grind
    · have hmem : c ∉ marks := by simpa using hc
      rw [if_neg hc]
      simp only [Except.ok.injEq, Reading.mk.injEq]
      grind

theorem optional_present {marks : List Char} {c : Char} (h : c ∈ marks) (rest : List Char) :
    optional marks (c :: rest) = .ok ⟨true, [c], rest⟩ :=
  optional_eq_ok_iff.2 (.inl ⟨rfl, c, h, rfl, rfl⟩)

theorem optional_absent {marks cs : List Char} (h : Stops marks.contains cs) :
    optional marks cs = .ok ⟨false, [], cs⟩ :=
  optional_eq_ok_iff.2 (.inr ⟨rfl, rfl, rfl, h⟩)

theorem digits_eq_ok_iff {cs : List Char} {r : Reading Unit} :
    digits cs = .ok r ↔ IsDigits r.text ∧ Stops Char.isDigit r.rest ∧ cs = r.text ++ r.rest := by
  constructor
  · intro h
    have hne := digits_ne_nil h
    have hcs := (Faithful.digits h).symm
    cases cs with
    | nil => cases h
    | cons c cs =>
      rw [digits] at h
      split at h
      · cases h
        have hdigits : ∀ d ∈ (c :: cs).takeWhile Char.isDigit, d.isDigit = true :=
          List.all_eq_true.1 List.all_takeWhile
        exact ⟨⟨hne, hdigits⟩, stops_dropWhile _ _, hcs⟩
      · cases h
  · obtain ⟨value, text, rest⟩ := r
    rintro ⟨⟨hne, hd⟩, hr, rfl⟩
    cases text with
    | nil => exact absurd rfl hne
    | cons c text =>
      have hspan := takeWhile_append_of_stops hd hr
      rw [List.cons_append] at hspan ⊢
      rw [digits, if_pos (hd c (by simp)), hspan.1, hspan.2]

theorem noDigit_eq_ok_iff {cs : List Char} {r : Reading Unit} :
    noDigit cs = .ok r ↔ r.text = [] ∧ Stops Char.isDigit r.rest ∧ cs = r.rest := by
  obtain ⟨value, text, rest⟩ := r
  cases cs with
  | nil =>
    constructor
    · intro h
      cases h
      exact ⟨rfl, .nil _, rfl⟩
    · rintro ⟨rfl, _, rfl⟩
      rfl
  | cons c cs =>
    rw [noDigit]
    constructor
    · intro h
      split at h
      · cases h
      · next hc =>
        cases h
        exact ⟨rfl, stops_cons_iff.2 (by simpa using hc), rfl⟩
    · rintro ⟨rfl, hr, rfl⟩
      rw [if_neg (by simp [stops_cons_iff.1 hr])]

theorem integerPart_eq_ok_iff {cs : List Char} {r : Reading Unit} :
    integerPart cs = .ok r ↔
      IntegerPart r.text ∧ Stops Char.isDigit r.rest ∧ cs = r.text ++ r.rest := by
  obtain ⟨value, text, rest⟩ := r
  refine bind_eq_ok_iff.trans ⟨?_, ?_⟩
  · rintro ⟨⟨v, t, u⟩, ⟨_, ds, _⟩, ha, hb, ⟨⟩⟩
    rcases optional_eq_ok_iff.1 ha with ⟨rfl, c, hc, rfl, rfl⟩ | ⟨rfl, rfl, rfl, hz⟩
    · obtain ⟨rfl, hr, rfl⟩ := noDigit_eq_ok_iff.1 hb
      obtain rfl := List.mem_singleton.1 hc
      exact ⟨.zero, hr, rfl⟩
    · obtain ⟨hd, hr, rfl⟩ := digits_eq_ok_iff.1 hb
      refine ⟨.digits hd fun h0 => ?_, hr, rfl⟩
      -- A zero at the front would have been taken alone.
      cases ds with
      | nil => exact hd.1 rfl
      | cons d ds => exact absurd (stops_cons_iff.1 hz) (by simpa using h0)
  · rintro ⟨hi, hr, rfl⟩
    cases hi with
    | zero =>
      exact ⟨_, ⟨(), [], rest⟩, optional_present (by simp) rest,
        noDigit_eq_ok_iff.2 ⟨rfl, hr, rfl⟩, rfl⟩
    | digits hd hz =>
      have hno : Stops ['0'].contains (text ++ rest) := by
        cases text with
        | nil => exact absurd rfl hd.1
        | cons c text => simpa [stops_cons_iff] using hz
      exact ⟨_, ⟨(), text, rest⟩, optional_absent hno, digits_eq_ok_iff.2 ⟨hd, hr, rfl⟩, rfl⟩

theorem fraction_eq_ok_iff {cs : List Char} {r : Reading Bool} :
    fraction cs = .ok r ↔ FractionPart r.value r.text ∧ cs = r.text ++ r.rest ∧
      (r.value = true → Stops Char.isDigit r.rest) ∧
        (r.value = false → Stops ['.'].contains r.rest) := by
  obtain ⟨value, text, rest⟩ := r
  refine bind_eq_ok_iff.trans ⟨?_, ?_⟩
  · rintro ⟨⟨v, t, u⟩, b, ha, hb, ⟨⟩⟩
    rcases optional_eq_ok_iff.1 ha with ⟨rfl, c, hc, rfl, rfl⟩ | ⟨rfl, rfl, rfl, hz⟩
    · obtain ⟨⟨_, ds, _⟩, _, hd, hdone, rfl⟩ := bind_eq_ok_iff.1 hb
      obtain ⟨hds, hr, rfl⟩ := digits_eq_ok_iff.1 hd
      obtain rfl := List.mem_singleton.1 hc
      obtain rfl := pure_eq_ok_iff.1 hdone
      exact ⟨by simpa using FractionPart.some hds, by simp, fun _ => hr, nofun⟩
    · obtain rfl := pure_eq_ok_iff.1 hb
      exact ⟨.none, rfl, nofun, fun _ => hz⟩
  · rintro ⟨hf, rfl, hd, hp⟩
    cases hf with
    | none => exact ⟨_, _, optional_absent (hp rfl), pure_eq_ok_iff.2 rfl, rfl⟩
    | @some ds h =>
      refine ⟨_, ⟨true, ds, rest⟩, optional_present (by simp) (ds ++ rest), ?_, rfl⟩
      exact bind_eq_ok_iff.2 ⟨⟨(), ds, rest⟩, _, digits_eq_ok_iff.2 ⟨h, hd rfl, rfl⟩,
        pure_eq_ok_iff.2 rfl, by simp⟩

theorem exponent_eq_ok_iff {cs : List Char} {r : Reading Bool} :
    exponent cs = .ok r ↔ ExponentPart r.value r.text ∧ cs = r.text ++ r.rest ∧
      (r.value = true → Stops Char.isDigit r.rest) ∧
        (r.value = false → Stops ['e', 'E'].contains r.rest) := by
  obtain ⟨value, text, rest⟩ := r
  refine bind_eq_ok_iff.trans ⟨?_, ?_⟩
  · rintro ⟨⟨v, t, u⟩, b, ha, hb, ⟨⟩⟩
    rcases optional_eq_ok_iff.1 ha with ⟨rfl, c, hc, rfl, rfl⟩ | ⟨rfl, rfl, rfl, hz⟩
    · obtain ⟨⟨_, sign, _⟩, _, hs, hmore, rfl⟩ := bind_eq_ok_iff.1 hb
      obtain ⟨⟨_, ds, more⟩, _, hd, hdone, rfl⟩ := bind_eq_ok_iff.1 hmore
      obtain ⟨hds, hr, rfl⟩ := digits_eq_ok_iff.1 hd
      obtain rfl := pure_eq_ok_iff.1 hdone
      have hsign : sign = [] ∨ ∃ c ∈ ['+', '-'], sign = [c] := by
        rcases optional_eq_ok_iff.1 hs with ⟨_, c, hc, ht, _⟩ | ⟨_, ht, _, _⟩
        · exact .inr ⟨c, hc, ht⟩
        · exact .inl ht
      have hu : u = sign ++ (ds ++ more) := (Faithful.optional _ hs).symm
      exact ⟨by simpa using ExponentPart.some hc hsign hds, by simp [hu], fun _ => hr, nofun⟩
    · obtain rfl := pure_eq_ok_iff.1 hb
      exact ⟨.none, rfl, nofun, fun _ => hz⟩
  · rintro ⟨he, rfl, hd, hm⟩
    cases he with
    | none => exact ⟨_, _, optional_absent (hm rfl), pure_eq_ok_iff.2 rfl, rfl⟩
    | @some mark sign ds hmark hs h =>
      have hdigits : (do digits; return true : Scan Bool) (ds ++ rest) = .ok ⟨true, ds, rest⟩ :=
        bind_eq_ok_iff.2 ⟨⟨(), ds, rest⟩, _, digits_eq_ok_iff.2 ⟨h, hd rfl, rfl⟩,
          pure_eq_ok_iff.2 rfl, by simp⟩
      refine ⟨_, ⟨true, sign ++ ds, rest⟩, optional_present hmark (sign ++ ds ++ rest), ?_, rfl⟩
      rcases hs with rfl | ⟨c, hc, rfl⟩
      · -- Without a sign the digits come first, and no digit is a sign.
        have hno : Stops ['+', '-'].contains (ds ++ rest) := by
          obtain ⟨d, ds, rfl, hdigit⟩ := h.opens
          rw [List.cons_append, stops_cons_iff, ← Bool.not_eq_true]
          intro hsign
          simp only [List.contains_eq_mem, List.mem_cons, List.not_mem_nil, or_false,
            decide_eq_true_eq] at hsign
          rcases hsign with rfl | rfl <;> simp at hdigit
        exact bind_eq_ok_iff.2 ⟨_, _, optional_absent hno, hdigits, by simp⟩
      · exact bind_eq_ok_iff.2 ⟨_, _, optional_present hc (ds ++ rest), hdigits, by simp⟩

/-- A numeral is read as a number if it ends there. -/
theorem number_append {f e : Bool} {text rest : List Char} (h : Numeral f e text)
    (hrest : NumeralEnds f e rest) : number (text ++ rest) = .ok ⟨f || e, text, rest⟩ := by
  cases h with
  | @intro sign i fs es hs hi hf he =>
    -- What follows each part ends it: the next part, or what follows the number.
    have hafterFraction : Stops Char.isDigit (es ++ rest) ∧
        (f = false → Stops ['.'].contains (es ++ rest)) := by
      cases he with
      | none => exact ⟨hrest.digit, fun hf => hrest.point hf rfl⟩
      | some hmark _ _ =>
        simp only [List.mem_cons, List.not_mem_nil, or_false] at hmark
        rcases hmark with rfl | rfl <;> simp [stops_cons_iff]
    have hafterInteger : Stops Char.isDigit (fs ++ (es ++ rest)) := by
      cases hf with
      | some _ => simp [stops_cons_iff]
      | none => exact hafterFraction.1
    have hexp : exponent (es ++ rest) = .ok ⟨e, es, rest⟩ :=
      exponent_eq_ok_iff.2 ⟨he, rfl, fun _ => hrest.digit, hrest.mark⟩
    have hfrac : fraction (fs ++ (es ++ rest)) = .ok ⟨f, fs, es ++ rest⟩ :=
      fraction_eq_ok_iff.2 ⟨hf, rfl, fun _ => hafterFraction.1, hafterFraction.2⟩
    have hint : integerPart (i ++ (fs ++ (es ++ rest))) = .ok ⟨(), i, fs ++ (es ++ rest)⟩ :=
      integerPart_eq_ok_iff.2 ⟨hi, hafterInteger, rfl⟩
    have hunsigned : (do
        integerPart
        let fractional ← fraction
        let scaled ← exponent
        return fractional || scaled : Scan Bool) (i ++ (fs ++ (es ++ rest))) =
        .ok ⟨f || e, i ++ (fs ++ es), rest⟩ := by
      refine bind_eq_ok_iff.2 ⟨_, ⟨f || e, fs ++ es, rest⟩, hint, ?_, rfl⟩
      refine bind_eq_ok_iff.2 ⟨_, ⟨f || e, es, rest⟩, hfrac, ?_, rfl⟩
      exact bind_eq_ok_iff.2 ⟨_, ⟨f || e, [], rest⟩, hexp, pure_eq_ok_iff.2 rfl, by simp⟩
    simp only [List.append_assoc]
    rcases hs with rfl | ⟨c, hc, rfl⟩
    · -- Without a sign the integer part comes first.
      exact bind_eq_ok_iff.2 ⟨_, _, optional_absent (hi.stops_minus _), hunsigned, rfl⟩
    · exact bind_eq_ok_iff.2 ⟨_, _, optional_present hc _, hunsigned, rfl⟩

/-- What is read as a number is a numeral, and it ends there. -/
theorem numeral_of_number {cs : List Char} {r : Reading Bool} (h : number cs = .ok r) :
    ∃ f e, Numeral f e r.text ∧ r.value = (f || e) ∧ NumeralEnds f e r.rest := by
  obtain ⟨⟨_, sign, u⟩, _, hs, hint, rfl⟩ := bind_eq_ok_iff.1 h
  obtain ⟨⟨_, i, _⟩, _, hir, hfrac, rfl⟩ := bind_eq_ok_iff.1 hint
  obtain ⟨⟨f, fs, _⟩, _, hfr, hexp, rfl⟩ := bind_eq_ok_iff.1 hfrac
  obtain ⟨⟨e, es, rest⟩, _, her, hdone, rfl⟩ := bind_eq_ok_iff.1 hexp
  obtain rfl := pure_eq_ok_iff.1 hdone
  obtain ⟨hi, hid, rfl⟩ := integerPart_eq_ok_iff.1 hir
  obtain ⟨hf, rfl, hfd, hfp⟩ := fraction_eq_ok_iff.1 hfr
  obtain ⟨he, rfl, hed, hem⟩ := exponent_eq_ok_iff.1 her
  have hsign : sign = [] ∨ ∃ c ∈ ['-'], sign = [c] := by
    rcases optional_eq_ok_iff.1 hs with ⟨_, c, hc, ht, _⟩ | ⟨_, ht, _, _⟩
    · exact .inr ⟨c, hc, ht⟩
    · exact .inl ht
  refine ⟨f, e, by simpa using Numeral.intro hsign hi hf he, rfl, ⟨?_, hem, ?_⟩⟩
  · cases he with
    | some _ _ _ => exact hed rfl
    | none =>
      cases hf with
      | some _ => exact hfd rfl
      | none => exact hid
  · rintro rfl rfl
    cases he
    exact hfp rfl

/-- A number is read exactly if a numeral is there and ends there. -/
theorem number_eq_ok_iff {cs : List Char} {r : Reading Bool} :
    number cs = .ok r ↔ ∃ f e, Numeral f e r.text ∧ r.value = (f || e) ∧
      NumeralEnds f e r.rest ∧ cs = r.text ++ r.rest := by
  constructor
  · intro h
    obtain ⟨f, e, hn, hv, hr⟩ := numeral_of_number h
    exact ⟨f, e, hn, hv, hr, (Faithful.number h).symm⟩
  · obtain ⟨value, text, rest⟩ := r
    rintro ⟨f, e, hn, rfl, hr, rfl⟩
    exact number_append hn hr

end Scan

end GraphQL
