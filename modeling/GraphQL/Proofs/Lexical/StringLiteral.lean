/-
Written strings read back.

* `Scan.stringUnit_writtenChar` — the spelling of a character is one unit of a
  string and stands for that character;
* `Scan.stringBody_of_error`, `Scan.stringBody_of_unit` — the body of a string is
  read unit by unit;
* `Scan.stringBody_written` — the spelling of any text, closed by a quote, is
  read as that text;
* `Scan.stringBody_text` — whatever is read ends with its closing quote, on the
  line it starts on.
-/
import GraphQL.Lexical.StringLiteral
import GraphQL.Layout.Piece

namespace GraphQL

/-- Four digits hold every number below 2^16. -/
theorem fourHexValue?_fourHexDigits {n : Nat} (h : n < 65536) :
    ∃ a b c d, fourHexDigits n = [a, b, c, d] ∧ fourHexValue? a b c d = some n := by
  refine ⟨_, _, _, _, rfl, ?_⟩
  rw [fourHexValue?, hexDigit_value (Nat.mod_lt _ (by omega)),
    hexDigit_value (Nat.mod_lt _ (by omega)), hexDigit_value (Nat.mod_lt _ (by omega)),
    hexDigit_value (Nat.mod_lt _ (by omega))]
  show some _ = some n
  congr 1
  omega

/-- A digit is neither a quote nor a line break. -/
theorem hexDigit_plain {n : Nat} (h : n < 16) :
    (hexDigit n != '"' && !isLineBreak (hexDigit n)) = true := by
  revert n
  decide

namespace Scan

theorem unicodeDigits_fourHexDigits (n : Nat) (rest : List Char) :
    unicodeDigits (fourHexDigits n ++ rest) = fourHexDigits n := by
  have hplain (m : Nat) : (hexDigit (m % 16) != '"' && !isLineBreak (hexDigit (m % 16))) = true :=
    hexDigit_plain (Nat.mod_lt m (by omega))
  simp [unicodeDigits, fourHexDigits, hplain]

/-- A control character is spelled by its code point. -/
theorem escape_control {c : Char} (h : c < ' ') (rest : List Char) :
    escape ('u' :: (fourHexDigits c.toNat ++ rest)) =
      .ok ⟨c, '\\' :: 'u' :: fourHexDigits c.toNat, rest⟩ := by
  have hlt : c.toNat < 32 := h
  obtain ⟨a, b, d, e, hdigits, hvalue⟩ := fourHexValue?_fourHexDigits (by omega : c.toNat < 65536)
  have hchar : unicodeEscape? (fourHexDigits c.toNat) = some c := by
    rw [hdigits, unicodeEscape?, hvalue, Option.bind_eq_bind, Option.bind_some, if_neg (by omega),
      Char.ofNat_toNat]
  rw [escape, if_pos rfl, unicodeDigits_fourHexDigits, hchar]
  simp [hdigits]

/-- The spelling of a character is one unit of a string. -/
theorem stringUnit_writtenChar (c : Char) (rest : List Char) :
    stringUnit (writtenChar c ++ rest) = .ok ⟨c, writtenChar c, rest⟩ := by
  unfold writtenChar
  split
  · rfl
  · rfl
  · rfl
  · rfl
  · rfl
  · next hquote hslash hlf hcr htab =>
    split
    · next hc => exact escape_control hc rest
    · next hc =>
      have hbreak : isLineBreak c = false := isLineBreak_eq_false_iff.2 ⟨hlf, hcr⟩
      rw [List.singleton_append, stringUnit, if_neg hslash, hbreak, if_neg (by simp),
        if_neg (fun h => hc h.1)]

/-- No spelling of a character starts like the closing quote. -/
theorem head?_writtenChar (c : Char) (rest : List Char) :
    (writtenChar c ++ rest).head? ≠ some '"' := by
  unfold writtenChar
  split
  · simp
  · simp
  · simp
  · simp
  · simp
  · next hquote _ _ _ _ =>
    split
    · simp
    · simpa using hquote

/-! ### Unit by unit -/

section

variable {cs : List Char} (hq : cs.head? ≠ some '"')
include hq

/-- A unit that cannot be read is what is wrong with the body of a string. -/
theorem stringBody_of_error {e : Misreading} (hu : stringUnit cs = .error e) :
    stringBody cs = .error e := by
  rw [stringBody, if_neg hq]
  split
  · next he =>
    cases hu.symm.trans he
    rfl
  · next hok => cases hu.symm.trans hok

/-- Behind a unit, the body of a string goes on with the rest. -/
theorem stringBody_of_unit {u : Reading Char} (hu : stringUnit cs = .ok u) :
    stringBody cs = match stringBody u.rest with
      | .error e => .error (e.after u.text)
      | .ok r => .ok ⟨u.value :: r.value, u.text ++ r.text, r.rest⟩ := by
  rw [stringBody, if_neg hq]
  split
  · next he => cases hu.symm.trans he
  · next hok =>
    cases hu.symm.trans hok
    cases stringBody u.rest <;> rfl

end

/-- The spelling of a text, closed by a quote, is read as that text. -/
theorem stringBody_written (contents rest : List Char) :
    stringBody (contents.flatMap writtenChar ++ '"' :: rest) =
      .ok ⟨contents, contents.flatMap writtenChar ++ ['"'], rest⟩ := by
  induction contents with
  | nil =>
    rw [stringBody]
    rfl
  | cons c contents ih =>
    rw [List.flatMap_cons, List.append_assoc,
      stringBody_of_unit (head?_writtenChar c _) (stringUnit_writtenChar c _)]
    simp only [ih, List.append_assoc]

/-! ### What is read -/

/-- No escape sequence contains a line break. -/
theorem escape_sameLine {cs : List Char} {r : Reading Char} (h : escape cs = .ok r) :
    ∀ c ∈ r.text, isLineBreak c = false := by
  cases cs with
  | nil => cases h
  | cons c cs =>
    rw [escape] at h
    split at h
    · split at h
      · cases h
        refine List.forall_mem_cons.2 ⟨rfl, List.forall_mem_cons.2 ⟨rfl, fun d hd => ?_⟩⟩
        have hdigit := List.all_eq_true.1 List.all_takeWhile d hd
        rw [Bool.and_eq_true, Bool.not_eq_true'] at hdigit
        exact hdigit.2
      · cases h
    · split at h
      · next hc =>
        cases h
        refine List.forall_mem_cons.2 ⟨rfl, List.forall_mem_singleton.2 ?_⟩
        rw [isLineBreak_eq_false_iff]
        constructor <;> (rintro rfl; cases hc)
      · cases h

theorem stringUnit_sameLine {cs : List Char} {r : Reading Char} (h : stringUnit cs = .ok r) :
    ∀ c ∈ r.text, isLineBreak c = false := by
  cases cs with
  | nil => cases h
  | cons c cs =>
    rw [stringUnit] at h
    split at h
    · exact escape_sameLine h
    · split at h
      · cases h
      · next hc =>
        split at h
        · cases h
        · cases h
          rw [Bool.not_eq_true] at hc
          exact List.forall_mem_singleton.2 hc

/-- The body of a string ends with its closing quote, on the line it starts on. -/
theorem stringBody_text {cs : List Char} {r : Reading (List Char)} (h : stringBody cs = .ok r) :
    ∃ inner, r.text = inner ++ ['"'] ∧ ∀ c ∈ inner, isLineBreak c = false := by
  fun_induction stringBody cs generalizing r with
  | case1 =>
    cases h
    exact ⟨[], rfl, by simp⟩
  | case2 => cases h
  | case3 => cases h
  | case4 cs hq u hu b hb ih =>
    cases h
    obtain ⟨inner, htext, hinner⟩ := ih hb
    refine ⟨u.text ++ inner, ?_, List.forall_mem_append.2 ⟨stringUnit_sameLine hu, hinner⟩⟩
    rw [htext, List.append_assoc]

end Scan

end GraphQL
