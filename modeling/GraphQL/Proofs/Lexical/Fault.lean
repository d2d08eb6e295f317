/-
Faults inside the text.

* `Scan.Contained` — whatever a scan has read when it fails is what the text
  starts with;
* `Scan.Contained.bind` — reading in sequence keeps this;
* `Scan.Contained.lexeme` — lexemes are read so.
-/
import GraphQL.Lexical.Lexeme

namespace GraphQL

theorem Misreading.consumed_after (e : Misreading) (text : List Char) :
    (e.after text).consumed = text ++ e.consumed := by
  simp [consumed, after]

namespace Scan

/-- A scan is contained if a fault and what was read before it are the front of
the text. -/
def Contained {α : Type} (s : Scan α) : Prop :=
  ∀ ⦃cs e⦄, s cs = .error e → e.consumed <+: cs

theorem bind_eq_error_iff {α β : Type} {s : Scan α} {f : α → Scan β} {cs : List Char}
    {e : Misreading} :
    (s >>= f) cs = .error e ↔
      s cs = .error e ∨ ∃ a e', s cs = .ok a ∧ f a.value a.rest = .error e' ∧
        e = e'.after a.text := by
  show Scan.bind s f cs = .error e ↔ _
  unfold Scan.bind
  split
  · next ha => simp [ha]
  · next a ha =>
    split
    · next hb => simp [ha, hb, eq_comm]
    · next b hb => simp [ha, hb]

theorem Contained.pure {α : Type} (a : α) : Contained (Pure.pure a : Scan α) := by
  intro cs e h
  cases h

theorem Contained.bind {α β : Type} {s : Scan α} {f : α → Scan β} (hs : Contained s)
    (hfaithful : Faithful s) (hf : ∀ a, Contained (f a)) : Contained (s >>= f) := by
  intro cs e h
  rcases bind_eq_error_iff.1 h with h | ⟨a, e', ha, he, rfl⟩
  · exact hs h
  · rw [Misreading.consumed_after, ← hfaithful ha]
    exact (List.prefix_append_right_inj a.text).2 (hf _ he)

theorem Contained.ite {α : Type} {p : Prop} [Decidable p] {s t : Scan α} (hs : Contained s)
    (ht : Contained t) : Contained (if p then s else t) := by
  split <;> assumption

theorem Contained.optional (marks : List Char) : Contained (optional marks) := by
  intro cs e h
  cases cs with
  | nil => cases h
  | cons c cs =>
    rw [Scan.optional] at h
    split at h <;> cases h

/-! ### Numbers -/

theorem Contained.digits : Contained digits := by
  intro cs e h
  cases cs with
  | nil =>
    cases h
    exact List.nil_prefix
  | cons c cs =>
    rw [Scan.digits] at h
    split at h
    · cases h
    · cases h
      exact ⟨cs, rfl⟩

theorem Contained.noDigit : Contained noDigit := by
  intro cs e h
  cases cs with
  | nil => cases h
  | cons c cs =>
    rw [Scan.noDigit] at h
    split at h
    · cases h
      exact ⟨cs, rfl⟩
    · cases h

theorem Contained.integerPart : Contained integerPart :=
  .bind (.optional _) (.optional _) fun _ => .ite .noDigit .digits

theorem Contained.fraction : Contained fraction :=
  .bind (.optional _) (.optional _) fun _ =>
    .ite (.bind .digits .digits fun _ => .pure _) (.pure _)

theorem Contained.exponent : Contained exponent :=
  .bind (.optional _) (.optional _) fun _ =>
    .ite (.bind (.optional _) (.optional _) fun _ => .bind .digits .digits fun _ => .pure _)
      (.pure _)

theorem Contained.number : Contained number :=
  .bind (.optional _) (.optional _) fun _ => .bind .integerPart .integerPart fun _ =>
    .bind .fraction .fraction fun _ => .bind .exponent .exponent fun _ => .pure _

/-! ### Strings -/

/-- An escape sequence is no longer than the text, its backslash counted. -/
theorem escape_contained {cs : List Char} {e : Misreading} (h : escape cs = .error e) :
    e.consumed <+: '\\' :: cs := by
  cases cs with
  | nil =>
    cases h
    exact List.prefix_rfl
  | cons c cs =>
    rw [escape] at h
    split at h
    · next hc =>
      subst hc
      split at h
      · cases h
      · cases h
        exact ⟨_, congrArg ('\\' :: 'u' :: ·) (unicodeDigits_append cs)⟩
    · split at h
      · cases h
      · cases h
        exact ⟨cs, rfl⟩

theorem Contained.stringUnit : Contained stringUnit := by
  intro cs e h
  cases cs with
  | nil =>
    cases h
    exact List.nil_prefix
  | cons c cs =>
    rw [Scan.stringUnit] at h
    split at h
    · next hc => exact hc ▸ escape_contained h
    · split at h
      · cases h
        exact List.nil_prefix
      · split at h
        · cases h
          exact ⟨cs, rfl⟩
        · cases h

theorem stringBody_contained {cs : List Char} {e : Misreading} (h : stringBody cs = .error e) :
    e.consumed <+: cs := by
  fun_induction stringBody cs generalizing e with
  | case1 => cases h
  | case2 cs hq e' hu =>
    cases h
    exact Contained.stringUnit hu
  | case3 cs hq u hu e' he ih =>
    cases h
    rw [Misreading.consumed_after, ← stringUnit_append hu]
    exact (List.prefix_append_right_inj u.text).2 (ih he)
  | case4 => cases h

theorem stringLexeme_contained {cs : List Char} {e : Misreading}
    (h : stringLexeme cs = .error e) : e.consumed <+: '"' :: cs := by
  rw [stringLexeme] at h
  split at h
  · next e' he =>
    cases h
    rw [Misreading.consumed_after]
    exact (List.prefix_append_right_inj ['"']).2 (stringBody_contained he)
  · cases h

/-! ### Lexemes -/

theorem Contained.spread {c : Char} (hc : c = '.') {cs : List Char} {e : Misreading}
    (h : spread (c :: cs) = .error e) : e.consumed <+: c :: cs := by
  rw [Scan.spread] at h
  split at h
  · cases h
  · split at h
    · next hdots =>
      cases h
      exact hdots
    · cases h
      exact ⟨cs, by rw [hc]; rfl⟩

theorem Contained.numberLexeme : Contained numberLexeme := by
  intro cs e h
  rw [Scan.numberLexeme] at h
  split at h
  · next he =>
    cases h
    exact Contained.number he
  · cases h

/-- A fault in a lexeme and what was read before it are the front of the text. -/
theorem Contained.lexeme : Contained lexeme := by
  intro cs e h
  cases cs with
  | nil => cases h
  | cons c cs =>
    rw [Scan.lexeme] at h
    split at h
    · cases h
    · split at h
      · next hc => exact Contained.spread hc h
      · split at h
        · next hc => exact hc ▸ stringLexeme_contained h
        · split at h
          · cases h
          · split at h
            · exact Contained.numberLexeme h
            · split at h <;> cases h <;> exact ⟨cs, rfl⟩

end Scan

end GraphQL
